import Mathlib.Data.Finset.Card
import Modernizer.Proofs.Scope.Occurrence

/-! How often a name is bound. A walk enters every identifier of the targets it passes once, in the
scope that it was started with or in that of a function on the way (`Fills`), so the scope of a
function lists the names of all identifiers that are bound in it, each once (`counts_of_numbers`). -/

namespace Modernizer.Scope

open Store

namespace Bindings

/-- The names in a scope, as often as they are bound. -/
def names (b : Bindings) (k : Nat) : List String := (b.table k).map Prod.fst

end Bindings

variable {s : Store} {root c f i m n o : NodeId} {j k fuel : Nat} {x : String} {β : Binding}
  {b b' b'' : Bindings} {T T' T₁ T₂ : NodeId → Prop} {L L' : List NodeId} {form : Form}

/-- The names of those that are identifiers. -/
def spelled (s : Store) (L : List NodeId) : List String :=
  L.filterMap fun n => s.identifierName? (some n)

/-- The identifiers in the patterns of some targets, each once. -/
structure Lists (s : Store) (T : NodeId → Prop) (L : List NodeId) : Prop where
  nodup : L.Nodup
  sound : ∀ n ∈ L, ∃ t, T t ∧ s.Pattern t n
  complete : ∀ n t x, T t → s.Pattern t n → s.form? (some n) = some (.identifier x) → n ∈ L

def Counts (s : Store) (root f : NodeId) (names : List String) : Prop :=
  ∃ L, Lists s (s.Targets root f) L ∧ names = spelled s L

/-- From the one state to the other, these identifiers have been entered in the scope, and the scopes
that have been opened list what their functions bind. -/
structure Fills (s : Store) (root : NodeId) (k : Nat) (L : List NodeId) (b b' : Bindings) : Prop where
  size : b.scopes.size ≤ b'.scopes.size
  kept : ∀ j < b.scopes.size, j ≠ k → b'.names j = b.names j
  filled : b'.names k = b.names k ++ spelled s L
  opened : ∀ f j, (f, j) ∈ b'.scopeOf → (f, j) ∈ b.scopeOf ∨
    b.scopes.size ≤ j ∧ j < b'.scopes.size ∧ Counts s root f (b'.names j)

theorem Fills.refl (b : Bindings) : Fills s root k [] b b :=
  ⟨Nat.le_refl _, fun _ _ _ => rfl, (List.append_nil _).symm, fun _ _ => .inl⟩

theorem Fills.trans (hk : k < b.scopes.size) (h : Fills s root k L b b')
    (h' : Fills s root k L' b' b'') : Fills s root k (L ++ L') b b'' := by
  refine ⟨Nat.le_trans h.size h'.size, fun j hj hne => ?_, ?_, fun f j hf => ?_⟩
  · rw [h'.kept j (Nat.lt_of_lt_of_le hj h.size) hne, h.kept j hj hne]
  · rw [h'.filled, h.filled, List.append_assoc, spelled, spelled, spelled, List.filterMap_append]
  · rcases h'.opened f j hf with hf | ⟨hle, hlt, hcounts⟩
    · refine (h.opened f j hf).imp_right fun ⟨hle, hlt, hcounts⟩ => ?_
      have hne : j ≠ k := Nat.ne_of_gt (Nat.lt_of_lt_of_le hk hle)
      exact ⟨hle, Nat.lt_of_lt_of_le hlt h'.size, h'.kept j hlt hne ▸ hcounts⟩
    · exact .inr ⟨Nat.le_trans h.size hle, hlt, hcounts⟩

theorem fills_forM {γ : Type} {l : List γ} {act : γ → Collect} {g : γ → List NodeId}
    (h : ∀ a ∈ l, ∀ b : Bindings, k < b.scopes.size → Fills s root k (g a) b ((act a).run b).2)
    (hk : k < b.scopes.size) : Fills s root k (l.flatMap g) b ((l.forM act).run b).2 := by
  induction l generalizing b with
  | nil => exact .refl b
  | cons a l ih =>
    have hhead := h a List.mem_cons_self b hk
    exact hhead.trans hk (ih (fun a' ha' => h a' (List.mem_cons_of_mem _ ha'))
      (Nat.lt_of_lt_of_le hk hhead.size))

theorem fills_enter {vars : Array VarBinding} (hk : k < b.scopes.size)
    (hn : s.identifierName? (some n) = some x) : Fills s root k [n] b (b.enter vars k x β) := by
  have hsize : (b.enter vars k x β).scopes.size = b.scopes.size := Array.size_modify
  refine ⟨Nat.le_of_eq hsize.symm, fun j _ hne => ?_, ?_, fun _ _ => .inl⟩
  · rw [Bindings.names, Sound.table_enter hk, if_neg hne, Bindings.names]
  · rw [Bindings.names, Sound.table_enter hk, if_pos rfl, List.map_append, Bindings.names]
    simp [spelled, hn]

theorem fills_none {e : Slot} (hnone : s.identifierName? e = none) :
    Fills s root k (present [e]) b b := by
  refine ⟨Nat.le_refl _, fun _ _ _ => rfl, ?_, fun _ _ => .inl⟩
  cases e <;> simp [spelled, hnone]

theorem fills_declareName (hk : k < b.scopes.size) (e : Slot) :
    Fills s root k (present [e]) b ((declareName s k e β).run b).2 := by
  unfold declareName
  cases hname : s.identifierName? e with
  | none => exact fills_none hname
  | some x =>
    cases e with
    | none => cases hname
    | some n => exact fills_enter hk hname

theorem flatMap_present (l : List Slot) : l.flatMap (fun e => present [e]) = present l := by
  induction l with
  | nil => rfl
  | cons e l ih => rw [List.flatMap_cons, ih, ← present_cons]

def Enumerates {α : Type} (s : Store) (root : NodeId) (k : Nat) (step : StateM Bindings α)
    (T : NodeId → Prop) : Prop :=
  ∀ b : Bindings, k < b.scopes.size → ∃ L, Lists s T L ∧ Fills s root k L b (step.run b).2

namespace Enumerates

variable {α γ : Type} {step : StateM Bindings α} {next : α → StateM Bindings γ}

theorem pure {a : α} (h : ∀ t, ¬ T t) : Enumerates s root k (pure a) T :=
  fun b _ =>
    ⟨[], ⟨.nil, fun _ hn => (List.not_mem_nil hn).elim, fun _ t _ ht => (h t ht).elim⟩, .refl b⟩

theorem congr (h : Enumerates s root k step T) (hT : ∀ t, T t ↔ T' t) :
    Enumerates s root k step T' := by
  obtain rfl : T = T' := funext fun t => propext (hT t)
  exact h

theorem bind (hforest : s.Forest) (h : Enumerates s root k step T₁)
    (h' : ∀ a, Enumerates s root k (next a) T₂) (hplace : ∀ t, T₁ t ∨ T₂ t → ∃ i, s.Place i t)
    (hdisjoint : ∀ t, T₁ t → ¬ T₂ t) :
    Enumerates s root k (step >>= next) fun t => T₁ t ∨ T₂ t := by
  intro b hk
  obtain ⟨L, hL, hfills⟩ := h b hk
  obtain ⟨L', hL', hfills'⟩ := h' (step.run b).1 (step.run b).2 (Nat.lt_of_lt_of_le hk hfills.size)
  refine ⟨L ++ L', ⟨hL.nodup.append hL'.nodup fun n hn hn' => ?_, fun n hn => ?_, ?_⟩,
    hfills.trans hk hfills'⟩
  · obtain ⟨t, ht, htn⟩ := hL.sound n hn
    obtain ⟨t', ht', htn'⟩ := hL'.sound n hn'
    obtain ⟨i, hi⟩ := hplace t (.inl ht)
    obtain ⟨j, hj⟩ := hplace t' (.inr ht')
    obtain rfl := hforest.target_unique hi hj htn htn'
    exact hdisjoint t ht ht'
  · rcases List.mem_append.1 hn with hn | hn
    · exact (hL.sound n hn).imp fun t ht => ⟨.inl ht.1, ht.2⟩
    · exact (hL'.sound n hn).imp fun t ht => ⟨.inr ht.1, ht.2⟩
  · rintro n t x (ht | ht) htn hn
    · exact List.mem_append_left _ (hL.complete n t x ht htn hn)
    · exact List.mem_append_right _ (hL'.complete n t x ht htn hn)

theorem forM {δ : Type} {l : List δ} {act : δ → Collect} {T : δ → NodeId → Prop} (hforest : s.Forest)
    (h : ∀ a ∈ l, Enumerates s root k (act a) (T a)) (hplace : ∀ a ∈ l, ∀ t, T a t → ∃ i, s.Place i t)
    (hdisjoint : l.Pairwise fun a a' => ∀ t, T a t → ¬ T a' t) :
    Enumerates s root k (l.forM act) fun t => ∃ a ∈ l, T a t := by
  induction l with
  | nil => exact .pure fun t ⟨a, ha, _⟩ => List.not_mem_nil ha
  | cons a l ih =>
    obtain ⟨hhead, htail⟩ := List.pairwise_cons.1 hdisjoint
    have hrest := ih (fun a' ha' => h a' (List.mem_cons_of_mem _ ha'))
      (fun a' ha' => hplace a' (List.mem_cons_of_mem _ ha')) htail
    refine ((h a List.mem_cons_self).bind hforest (fun _ => hrest) ?_ ?_).congr fun t => by
      simp only [List.mem_cons, exists_eq_or_imp]
    · rintro t (ht | ⟨a', ha', ht⟩)
      · exact hplace a List.mem_cons_self t ht
      · exact hplace a' (List.mem_cons_of_mem _ ha') t ht
    · rintro t ht ⟨a', ha', ht'⟩
      exact hhead a' ha' t ht ht'

theorem openScope {body : Nat → StateM Bindings γ}
    (h : ∀ inner, Enumerates s root inner (body inner) (s.Targets root f)) (hT : ∀ t, ¬ T t) :
    Enumerates s root k (Scope.openScope f k >>= body) T := by
  intro b hk
  have hsize : (b.opened f k).scopes.size = b.scopes.size + 1 := Array.size_push _
  have hnames : ∀ j, (b.opened f k).names j = b.names j := by
    intro j
    unfold Bindings.names Bindings.table Bindings.opened
    rw [Array.getElem?_push]
    split
    · rename_i hj
      rw [hj, Array.getElem?_eq_none (Nat.le_refl _)]
      rfl
    · rfl
  have hnil : b.names b.scopes.size = [] := by
    rw [Bindings.names, Bindings.table, Array.getElem?_eq_none (Nat.le_refl _)]
    rfl
  obtain ⟨L, hL, hfills⟩ := h b.scopes.size (b.opened f k) (hsize ▸ Nat.lt_succ_self _)
  have hgrown : b.scopes.size < (((body b.scopes.size).run (b.opened f k)).2).scopes.size :=
    Nat.lt_of_lt_of_le (hsize ▸ Nat.lt_succ_self _) hfills.size
  have hold : ∀ j < b.scopes.size, (((body b.scopes.size).run (b.opened f k)).2).names j =
      b.names j := fun j hj => by
    rw [hfills.kept j (hsize ▸ Nat.lt_succ_of_lt hj) (Nat.ne_of_lt hj), hnames]
  refine ⟨[], ⟨.nil, fun _ hn => (List.not_mem_nil hn).elim, fun _ t _ ht => (hT t ht).elim⟩,
    ⟨Nat.le_of_lt hgrown, fun j hj _ => hold j hj, ?_,
      fun g j hg => ?_⟩⟩
  · exact (hold k hk).trans (List.append_nil _).symm
  · rcases hfills.opened g j hg with hg | ⟨hle, hlt, hcounts⟩
    · rcases List.mem_cons.1 hg with hg | hg
      · cases hg
        refine .inr ⟨Nat.le_refl _, hgrown, L, hL, ?_⟩
        exact hfills.filled.trans (by rw [hnames, hnil, List.nil_append])
      · exact .inl hg
    · rw [hsize] at hle
      exact .inr ⟨Nat.le_of_succ_le hle, hlt, hcounts⟩

end Enumerates

section

variable (t : s.TreeAt root) (h : s.Forest)

theorem enumerates_declareName {e : Slot} (he : ∀ n, e = some n → s.Has n Form.IsName) :
    Enumerates s root k (declareName s k e β) fun t => some t = e := by
  intro b hk
  refine ⟨present [e], ⟨?_, fun n hn => ⟨n, ?_, .refl⟩, ?_⟩, fills_declareName hk e⟩
  · cases e with
    | none => exact .nil
    | some n => exact List.nodup_singleton n
  · exact List.mem_singleton.1 (mem_present.1 hn)
  · rintro n t x rfl htn hn
    obtain ⟨_, hform, y, rfl⟩ := he t rfl
    rcases Relation.ReflTransGen.cases_head htn with rfl | ⟨m, ⟨form', hform', hm⟩, -⟩
    · exact mem_present.2 List.mem_cons_self
    · rw [hform] at hform'
      cases hform'
      exact (List.not_mem_nil hm).elim

include t h

theorem lists_bindingNames {e : Slot} (he : ∀ n, e = some n → s.Below root n) :
    Lists s (fun t => some t = e) (present (s.bindingNames e)) := by
  cases e with
  | none => exact ⟨.nil, fun _ hn => (List.not_mem_nil hn).elim, fun _ _ _ ht => by cases ht⟩
  | some m =>
    refine ⟨t.nodup_bindingNames (he m rfl), fun n hn => ?_, ?_⟩
    · obtain ⟨t, ht, htn⟩ := pattern_of_mem_go (mem_present.1 hn)
      exact ⟨t, ht.symm, htn⟩
    · rintro n t' x ht htn hn
      obtain rfl := Option.some.inj ht
      exact mem_present.2 (mem_go_of_pattern h hn htn (Nat.lt_succ_of_lt (t.lt_size (he t' rfl))))

theorem enumerates_declareTarget {e : Slot} (he : ∀ n, e = some n → s.Below root n) :
    Enumerates s root k (declareTarget s k e) fun t => some t = e := by
  intro b hk
  refine ⟨_, lists_bindingNames t h he, ?_⟩
  rw [← flatMap_present]
  exact fills_forM (fun e _ b hk => fills_declareName hk e) hk

theorem enumerates_declareVars {l : NodeId} {kind : DeclarationKind} {d : Slot}
    (hd : ∀ e, d = some e → s.Below root e) :
    Enumerates s root k (declareVars s l kind k d) fun t => some t = s.declaredTarget d := by
  unfold declareVars
  split
  · rename_i target initializer hform
    obtain ⟨e, rfl, he⟩ := exists_of_form? hform
    have hdeclared : s.declaredTarget (some e) = target := by rw [declaredTarget, he]
    rw [hdeclared]
    have htarget : ∀ n, target = some n → s.Below root n := by
      rintro n rfl
      exact (hd e rfl).tail (holds_of_form he List.mem_cons_self)
    split
    · exact enumerates_declareTarget t h htarget
    · intro b hk
      refine ⟨_, lists_bindingNames t h htarget, ?_⟩
      rw [← flatMap_present]
      refine fills_forM (fun n _ b hk => ?_) hk
      dsimp only
      cases hname : s.identifierName? n with
      | none => exact fills_none hname
      | some x =>
        cases n with
        | none => cases hname
        | some n => exact fills_enter hk hname
  · rename_i hnone
    refine .pure fun m hm => ?_
    obtain ⟨e, initializer, rfl, he⟩ := declaredTarget_eq hm.symm
    exact hnone _ _ he

end

/-- The targets at a node or below it that are bound in this function. -/
def Around (s : Store) (root o n t : NodeId) : Prop :=
  ∃ i form, s.Below n i ∧ s.Owns root o i ∧ s.form? (some i) = some form ∧ some t ∈ s.outward form

theorem Around.exists_place (h : Around s root o n m) : ∃ i, s.Below n i ∧ s.Place i m := by
  obtain ⟨i, form, hni, -, hform, ht⟩ := h
  exact ⟨i, hni, form, hform, List.mem_append_right _ ht⟩

theorem around_iff (ho : s.Owns root o n) (hform : s.form? (some n) = some form) :
    Around s root o n m ↔
      some m ∈ s.outward form ∨ ∃ e ∈ form.slots, ∃ c, e = some c ∧ Around s root o c m := by
  constructor
  · rintro ⟨i, form', hni, hi, hform', ht⟩
    rcases eq_or_under hform hni with rfl | ⟨e, he, c, rfl, hci⟩
    · rw [hform] at hform'
      cases hform'
      exact .inl ht
    · exact .inr ⟨_, he, c, rfl, i, form', hci, hi, hform', ht⟩
  · rintro (ht | ⟨_, he, c, rfl, i, form', hci, hi, hform', ht⟩)
    · exact ⟨n, form, .refl, ho, hform, ht⟩
    · exact ⟨i, form', (holds_of_form hform he).below.trans hci, hi, hform', ht⟩

section

variable (t : s.TreeAt root) (h : s.Forest)

include t h

theorem not_around_of_place (hn : s.Below root n) (hform : s.form? (some n) = some form)
    (hp : s.Place n m) (hc : some c ∈ form.slots) : ¬ Around s root o c m := by
  intro hm
  obtain ⟨i, hci, hi⟩ := hm.exists_place
  obtain rfl := h.place_unique hp hi
  exact t.not_below_holder hn (holds_of_form hform hc) hci

omit t in
theorem not_around_of_apart {c' : NodeId} (hapart : ∀ i, Under s (some c) i → ¬ Under s (some c') i)
    (hm : Around s root o c m) : ¬ Around s root o c' m := by
  intro hm'
  obtain ⟨i, hci, hi⟩ := hm.exists_place
  obtain ⟨j, hcj, hj⟩ := hm'.exists_place
  obtain rfl := h.place_unique hi hj
  exact hapart i ⟨c, rfl, hci⟩ ⟨c', rfl, hcj⟩

omit h in
theorem not_around_of_inner (ho : s.Owns root o n) (hform : s.form? (some n) = some form)
    (hc : some c ∈ form.inner) : ¬ Around s root o c m := by
  rintro ⟨i, form', hci, hi, -⟩
  have hn := ho.below_root
  have hbelow := t.below_owner hn ⟨form, c, hform, hc, hci⟩ hi
  obtain rfl := t.below_antisymm hn hbelow ho.isBelow.2
  rcases ho.eq_or_standsIn with rfl | ⟨form'', e, hform'', he, hen⟩
  · obtain ⟨list, hroot⟩ := t.root_form
    rw [hform] at hroot
    cases hroot
    exact List.not_mem_nil hc
  · exact t.not_below_holder hn (holds_of_form hform'' (form''.inner_subset he)) hen

omit h in
theorem targets_iff (hn : s.Below root n) (hform : s.form? (some n) = some form)
    (hlike : form.isFunctionLike = true) : s.Targets root n m ↔
      some m ∈ form.inward ∨ ∃ e ∈ form.inner, ∃ c, e = some c ∧ Around s root n c m := by
  constructor
  · rintro (⟨hform', hm⟩ | ⟨hi, hform', hm⟩)
    · rw [hform] at hform'
      cases hform'
      exact .inl hm
    · rcases hi.eq_or_standsIn with rfl | ⟨form'', e, hform'', he, hei⟩
      · obtain ⟨list, hroot⟩ := t.root_form
        rw [hform] at hroot
        cases hroot
        cases hlike
      · rw [hform] at hform''
        cases hform''
        exact .inr ⟨_, he, e, rfl, _, _, hei, hi, hform', hm⟩
  · rintro (hm | ⟨_, he, c, rfl, i, form', -, hi, hform', hm⟩)
    · exact .inward hform hm
    · exact .outward hi hform' hm

end

def Counted (s : Store) (root : NodeId) (fuel : Nat) : Prop :=
  ∀ o n k, s.Owns root o n → n < fuel →
    Enumerates s root k (collect s fuel (some n) k) (Around s root o n)

theorem Counted.slot (hw : Counted s root fuel) {e : Slot}
    (he : ∀ c, e = some c → s.Owns root o c ∧ c < fuel) :
    Enumerates s root k (collect s fuel e k) fun m => ∃ c, e = some c ∧ Around s root o c m := by
  cases e with
  | none =>
    have hnone : collect s fuel none k = pure () := by cases fuel <;> rfl
    rw [hnone]
    exact .pure fun m ⟨c, hc, _⟩ => by cases hc
  | some c =>
    obtain ⟨ho, hlt⟩ := he c rfl
    exact (hw o c k ho hlt).congr fun m => by simp

section

variable (t : s.TreeAt root) (h : s.Forest) (hw : Counted s root fuel) (ho : s.Owns root o n)
  (hform : s.form? (some n) = some form) (hfuel : n ≤ fuel)

include t h hw ho hform hfuel

theorem Counted.children (hlike : form.isFunctionLike = false) (own : Collect)
    (hown : Enumerates s root k own fun m => some m ∈ s.outward form) :
    Enumerates s root k
      (do
        own
        form.children.forM fun child => collect s fuel (some child) k)
      (Around s root o n) := by
  have hn := ho.below_root
  have hnone : form.inner = [] := by cases form <;> first | rfl | cases hlike
  have hplace : ∀ {m}, some m ∈ s.outward form → s.Place n m := fun hm =>
    ⟨form, hform, List.mem_append_right _ hm⟩
  have hslot : ∀ {c}, c ∈ form.children → some c ∈ form.slots := mem_present.1
  have hchild : ∀ c ∈ form.children, Enumerates s root k (collect s fuel (some c) k)
      (Around s root o c) := fun c hc =>
    hw o c k (.past ho hform (hslot hc) (by simp [hnone]))
      (Nat.lt_of_lt_of_le (h.lt n c (holds_of_form hform (hslot hc))) hfuel)
  have hpairs : form.children.Pairwise fun c c' => ∀ m, Around s root o c m →
      ¬ Around s root o c' m := by
    refine List.pairwise_filterMap.2 ((pairwise_under t hn hform).imp ?_)
    rintro _ _ hapart c rfl c' rfl m hm
    exact not_around_of_apart h hapart hm
  have hall := Enumerates.forM h hchild (fun c _ m hm => (hm.exists_place).imp fun _ => And.right)
    hpairs
  refine (hown.bind h (fun _ => hall) ?_ ?_).congr fun m => ?_
  · rintro m (hm | ⟨c, -, hm⟩)
    · exact ⟨n, hplace hm⟩
    · exact hm.exists_place.imp fun _ => And.right
  · rintro m hm ⟨c, hc, hm'⟩
    exact not_around_of_place t h hn hform (hplace hm) (hslot hc) hm'
  · rw [around_iff ho hform]
    refine or_congr_right ⟨?_, ?_⟩
    · rintro ⟨c, hc, hm⟩
      exact ⟨some c, hslot hc, c, rfl, hm⟩
    · rintro ⟨_, he, c, rfl, hm⟩
      exact ⟨c, mem_present.2 he, hm⟩

/-- The parameters and the body of a function are walked over in its scope. -/
theorem Counted.inner {ps : List Slot} {body : Slot} (hinner : form.inner = ps ++ [body])
    (hps : ∀ m, some m ∈ ps → some m ∈ form.inward) :
    Enumerates s root k
      (do
        ps.forM fun p => do
          declareTarget s k p
          collect s fuel p k
        collect s fuel body k)
      fun m => some m ∈ ps ∨ ∃ e ∈ form.inner, ∃ c, e = some c ∧ Around s root n c m := by
  have hn := ho.below_root
  have hplace : ∀ {m}, some m ∈ ps → s.Place n m := fun hm =>
    ⟨form, hform, List.mem_append_left _ (hps _ hm)⟩
  have hslots : ∀ e ∈ form.inner, ∀ c, e = some c → s.Owns root n c ∧ c < fuel := by
    rintro e he c rfl
    have hslot := form.inner_subset he
    exact ⟨.into ho hform hslot he,
      Nat.lt_of_lt_of_le (h.lt n c (holds_of_form hform hslot)) hfuel⟩
  have hpairwise : form.inner.Pairwise fun a a' => ∀ m, Under s a m → ¬ Under s a' m :=
    (pairwise_under t hn hform).sublist (Form.inner_sublist form)
  have hsub : ∀ c, some c ∈ form.inner → some c ∈ form.slots := fun c hc => form.inner_subset hc
  rw [hinner] at hslots hpairwise hsub ⊢
  obtain ⟨hpairs, -, hbody⟩ := List.pairwise_append.1 hpairwise
  -- the parts of a function are apart, and so is what they count
  let T : Slot → NodeId → Prop := fun e m => ∃ c, e = some c ∧ Around s root n c m
  have hT : ∀ e m, T e m → ∃ i, s.Place i m := by
    rintro e m ⟨c, -, hm⟩
    exact hm.exists_place.imp fun _ => And.right
  have hapart : ∀ {a a' : Slot}, (∀ m, Under s a m → ¬ Under s a' m) → ∀ m, T a m → ¬ T a' m := by
    rintro a a' ha m ⟨c, rfl, hm⟩ ⟨c', rfl, hm'⟩
    exact not_around_of_apart h ha hm hm'
  have hown : ∀ {m : NodeId} {e : Slot}, some m ∈ ps → e ∈ ps ++ [body] → ¬ T e m := by
    rintro m e hm he ⟨c, rfl, hc⟩
    exact not_around_of_place t h hn hform (hplace hm) (hsub c he) hc
  have hmem : ∀ {p}, p ∈ ps → p ∈ ps ++ [body] := fun hp => List.mem_append_left _ hp
  have hparameter : ∀ p ∈ ps, Enumerates s root k
      (do
        declareTarget s k p
        collect s fuel p k) fun m => some m = p ∨ T p m := by
    intro p hp
    refine (enumerates_declareTarget t h fun c hc => (hslots p (hmem hp) c hc).1.below_root).bind h
      (fun _ => hw.slot (hslots p (hmem hp))) ?_ ?_
    · rintro m (rfl | hm)
      · exact ⟨n, hplace hp⟩
      · exact hT p m hm
    · rintro m rfl hm
      exact hown hp (hmem hp) hm
  have hall := Enumerates.forM h hparameter (T := fun p m => some m = p ∨ T p m) ?_ ?_
  · refine (hall.bind h (fun _ => hw.slot (hslots body (by simp))) ?_ ?_).congr fun m => ?_
    · rintro m (⟨p, hp, rfl | hm⟩ | hm)
      · exact ⟨n, hplace hp⟩
      · exact hT p m hm
      · exact hT body m hm
    · rintro m ⟨p, hp, rfl | hm⟩ hm'
      · exact hown hp (by simp) hm'
      · exact hapart (hbody p hp body (by simp)) m hm hm'
    · constructor
      · rintro (⟨p, hp, rfl | hm⟩ | hm)
        · exact .inl hp
        · exact .inr ⟨p, hmem hp, hm⟩
        · exact .inr ⟨body, by simp, hm⟩
      · rintro (hm | ⟨e, he, hm⟩)
        · exact .inl ⟨_, hm, .inl rfl⟩
        · rcases List.mem_append.1 he with he | he
          · exact .inl ⟨e, he, .inr hm⟩
          · exact .inr (List.mem_singleton.1 he ▸ hm)
  · rintro p hp m (rfl | hm)
    · exact ⟨n, hplace hp⟩
    · exact hT p m hm
  · refine hpairs.imp_of_mem fun {p p'} hp hp' hpp m hm hm' => ?_
    rcases hm with rfl | hm <;> rcases hm' with hm' | hm'
    · exact hpp m ⟨m, rfl, .refl⟩ ⟨m, hm'.symm, .refl⟩
    · exact hown hp (hmem hp') hm'
    · exact hown (hm' ▸ hp') (hmem hp) hm
    · exact hapart hpp m hm hm'

theorem Counted.function {ps : List Slot} {body e : Slot} (hinner : form.inner = ps ++ [body])
    (hlike : form.isFunctionLike = true)
    (hinward : ∀ m, some m ∈ form.inward ↔ some m = e ∨ some m ∈ ps)
    (hdistinct : ∀ m, some m = e → some m ∉ ps) (named : Nat → Collect)
    (hnamed : ∀ inner, Enumerates s root inner (named inner) fun m => some m = e) :
    Enumerates s root k
      (do
        let inner ← openScope n k
        named inner
        ps.forM fun p => do
          declareTarget s inner p
          collect s fuel p inner
        collect s fuel body inner)
      fun _ => False := by
  have hn := ho.below_root
  have hplace : ∀ {m}, some m ∈ form.inward → s.Place n m := fun hm =>
    ⟨form, hform, List.mem_append_left _ hm⟩
  refine .openScope (fun inner => ?_) fun _ => id
  have hin := hw.inner (k := inner) t h ho hform hfuel hinner fun m hm => (hinward m).2 (.inr hm)
  refine ((hnamed inner).bind h (fun _ => hin) ?_ ?_).congr fun m => ?_
  · rintro m (hm | hm | ⟨e, he, c, rfl, hm⟩)
    · exact ⟨n, hplace ((hinward _).2 (.inl hm))⟩
    · exact ⟨n, hplace ((hinward _).2 (.inr hm))⟩
    · exact hm.exists_place.imp fun _ => And.right
  · rintro m hm (hps | ⟨e, he, c, rfl, hc⟩)
    · exact hdistinct m hm hps
    · exact not_around_of_place t h hn hform (hplace ((hinward _).2 (.inl hm)))
        (form.inner_subset he) hc
  · rw [targets_iff t hn hform hlike, hinward, or_assoc]

theorem Counted.unnamed {ps : List Slot} {body : Slot} (hinner : form.inner = ps ++ [body])
    (hinward : form.inward = ps) (hlike : form.isFunctionLike = true) :
    Enumerates s root k
      (do
        let inner ← openScope n k
        ps.forM fun p => do
          declareTarget s inner p
          collect s fuel p inner
        collect s fuel body inner)
      fun _ => False := by
  have hnothing : ∀ k, Enumerates s root k (pure () : Collect) fun m => some m = none := fun k =>
    .pure fun m hm => by cases hm
  have hfunction := hw.function (k := k) (e := none) t h ho hform hfuel hinner hlike
    (fun m => by simp [hinward]) (fun m hm => by cases hm) (fun _ => pure ()) hnothing
  simpa only [pure_bind] using hfunction

omit hw hfuel in
theorem around_function (hlike : form.isFunctionLike = true) : Around s root o n m ↔
    some m ∈ s.outward form ∨ ∃ c, form.key = some c ∧ Around s root o c m := by
  rw [around_iff ho hform]
  refine or_congr_right ⟨?_, ?_⟩
  · rintro ⟨_, he, c, rfl, hm⟩
    have hname : form.ownName ≠ some c := by
      intro hname
      obtain ⟨_, hcform, y, rfl⟩ := (h.shaped n form hform).named c hname
      obtain ⟨i, form', hci, -, hi, hout⟩ := hm
      rcases eq_or_under hcform hci with rfl | ⟨e, he, -⟩
      · rw [hcform] at hi
        cases hi
        exact List.not_mem_nil hout
      · exact List.not_mem_nil he
    have hin : some c ∉ form.inner := fun hin => not_around_of_inner t ho hform hin hm
    refine ⟨c, ?_, hm⟩
    cases form with
    | functionDeclaration f | functionExpression f =>
      rcases List.mem_cons.1 he with he | he
      · exact (hname he.symm).elim
      · exact (hin he).elim
    | arrow f => exact (hin he).elim
    | method f =>
      rcases List.mem_cons.1 he with he | he
      · exact he.symm
      · exact (hin he).elim
    | _ => cases hlike
  · rintro ⟨c, hc, hm⟩
    refine ⟨some c, ?_, c, rfl, hm⟩
    cases form with
    | method f => exact hc ▸ List.mem_cons_self
    | functionDeclaration f | functionExpression f | arrow f => cases hc
    | _ => cases hlike

end

section

variable (t : s.TreeAt root) (h : s.Forest)

include t h

theorem enumerates_declarations {list : DeclarationList} (hn : s.Below root n)
    (hform : s.form? (some n) = some (.declarationList list)) :
    Enumerates s root k
      (list.declarations.nodes.forM (declareVars s n list.kind k))
      fun m => some m ∈ s.outward (.declarationList list) := by
  have hchild : ∀ d ∈ list.declarations.nodes, ∀ c, d = some c → s.Below root c := by
    rintro d hd c rfl
    exact hn.tail (holds_of_form hform hd)
  have hplace : ∀ d ∈ list.declarations.nodes, ∀ m, some m = s.declaredTarget d →
      ∃ c, s.Place c m := fun d hd m hm =>
    ⟨n, _, hform, List.mem_append_right _ (List.mem_map.2 ⟨d, hd, hm.symm⟩)⟩
  have hpairs : list.declarations.nodes.Pairwise fun d d' => ∀ m,
      some m = s.declaredTarget d → ¬ some m = s.declaredTarget d' := by
    refine (pairwise_under t hn hform).imp fun {d d'} hapart m hm hm' => ?_
    obtain ⟨e, _, rfl, he⟩ := declaredTarget_eq hm.symm
    obtain ⟨e', _, rfl, he'⟩ := declaredTarget_eq hm'.symm
    exact hapart m ⟨e, rfl, (holds_of_form he List.mem_cons_self).below⟩
      ⟨e', rfl, (holds_of_form he' List.mem_cons_self).below⟩
  refine (Enumerates.forM h (fun d hd => enumerates_declareVars t h (hchild d hd)) hplace hpairs).congr
    fun m => ?_
  constructor
  · rintro ⟨d, hd, hm⟩
    exact List.mem_map.2 ⟨d, hd, hm.symm⟩
  · intro hm
    obtain ⟨d, hd, hm⟩ := List.mem_map.1 hm
    exact ⟨d, hd, hm.symm⟩

/-- With one more step, by the form of the node. -/
theorem Counted.step (hw : Counted s root fuel) (ho : s.Owns root o n)
    (hform : s.form? (some n) = some form) (hfuel : n ≤ fuel) :
    Enumerates s root k (collect s (fuel + 1) (some n) k) (Around s root o n) := by
  have hn := ho.below_root
  have hchild : ∀ {e : Slot}, e ∈ form.slots → ∀ c, e = some c → s.Below root c := by
    rintro e he c rfl
    exact hn.tail (holds_of_form hform he)
  have hname : ∀ {e : Slot} {β}, form.ownName = e → ∀ k,
      Enumerates s root k (declareName s k e β) fun m => some m = e := fun he k =>
    enumerates_declareName fun c hc => (h.shaped n form hform).named c (he.trans hc)
  have hnodup : (present form.slots).Nodup := by
    have hkids := h.nodup n
    rw [Store.children, hform] at hkids
    exact hkids
  -- functions open a scope, other forms declare their names and go on to their children
  unfold collect
  rw [hform]
  cases form with
  | functionDeclaration f =>
    have hown := hw.unnamed (k := k) t h ho hform hfuel rfl rfl rfl
    refine Enumerates.congr ((hname (e := f.name) rfl k).bind h (fun _ => hown) ?_ fun _ _ => id)
      fun m => ?_
    · rintro m (hm | hm)
      · exact ⟨n, _, hform, List.mem_append_right _ (List.mem_singleton.2 hm)⟩
      · exact hm.elim
    · rw [around_function t h ho hform rfl]
      simp [outward, Form.key]
  | functionExpression f =>
    refine (hw.function t h ho hform hfuel rfl rfl (fun m => List.mem_cons)
      (fun m hm hps => ?_) _ fun inner => hname rfl inner).congr fun m => ?_
    · exact not_head_of_nodup hnodup (List.mem_append_left _ hps) hm
    · rw [around_function t h ho hform rfl]
      simp [outward, Form.key]
  | arrow f =>
    refine (hw.unnamed t h ho hform hfuel rfl rfl rfl).congr fun m => ?_
    rw [around_function t h ho hform rfl]
    simp [outward, Form.key]
  | method f =>
    have hkey : ∀ c, f.name = some c → s.Owns root o c ∧ c < fuel := by
      intro c hc
      have hslot : some c ∈ (Form.method f).slots := hc ▸ List.mem_cons_self
      have hout : some c ∉ (Form.method f).inner := fun hin => not_head_of_nodup hnodup hin hc.symm
      exact ⟨.past ho hform hslot hout,
        Nat.lt_of_lt_of_le (h.lt n c (holds_of_form hform hslot)) hfuel⟩
    have hown := hw.unnamed (k := k) t h ho hform hfuel rfl rfl rfl
    refine ((hw.slot hkey).bind h (fun _ => hown) ?_ fun _ _ => id).congr fun m => ?_
    · rintro m (⟨c, -, hm⟩ | hm)
      · exact hm.exists_place.imp fun _ => And.right
      · exact hm.elim
    · rw [around_function t h ho hform rfl]
      simp [outward, Form.key]
  | classDeclaration c =>
    refine hw.children t h ho hform hfuel rfl _ ((hname rfl k).congr fun m => ?_)
    exact List.mem_singleton.symm
  | catchClause target body =>
    refine hw.children t h ho hform hfuel rfl _
      ((enumerates_declareTarget t h (hchild List.mem_cons_self)).congr fun m => ?_)
    exact List.mem_singleton.symm
  | declarationList list =>
    exact hw.children t h ho hform hfuel rfl _ (enumerates_declarations t h hn hform)
  | _ =>
    refine hw.children t h ho hform hfuel rfl (pure ()) (.pure fun m hm => ?_)
    exact List.not_mem_nil hm

theorem counted (fuel : Nat) : Counted s root fuel := by
  induction fuel with
  | zero => exact fun o n k _ hlt => (Nat.not_lt_zero _ hlt).elim
  | succ fuel ih =>
    intro o n k ho hlt
    obtain ⟨node, hnode⟩ := exists_get?_of_lt (t.lt_size ho.below_root)
    have hform : s.form? (some n) = some node.form := by rw [form?, hnode, Option.map_some]
    exact ih.step t h ho hform (Nat.le_of_lt_succ hlt)

/-- The scope of a function lists the names of what is bound in it. -/
theorem counts_of_numbers (hk : (bindings s root).Numbers root f k) :
    Counts s root f ((bindings s root).names k) := by
  obtain ⟨L, hL, hfills⟩ := counted t h (s.size + 1) root root 0 .root
    (Nat.lt_succ_of_lt t.root_lt) ⟨#[⟨none, []⟩], [], #[]⟩ Nat.one_pos
  rcases hk with ⟨rfl, rfl⟩ | hk
  · refine ⟨L, ?_, hfills.filled⟩
    obtain ⟨list, hroot⟩ := t.root_form
    have hT : s.Targets f f = Around s f f f := by
      funext m
      refine propext ⟨?_, ?_⟩
      · rintro (⟨hform, hm⟩ | ⟨hi, hform, hm⟩)
        · rw [hroot] at hform
          cases hform
          exact (List.not_mem_nil hm).elim
        · exact ⟨_, _, hi.below_root, hi, hform, hm⟩
      · rintro ⟨i, form, -, hi, hform, hm⟩
        exact .outward hi hform hm
    exact hT ▸ hL
  · rcases hfills.opened f k hk with hk | ⟨-, -, hcounts⟩
    · exact (List.not_mem_nil hk).elim
    · exact hcounts

end

theorem Counts.mem_iff {names : List String} (h : Counts s root f names) :
    x ∈ names ↔ ∃ n, s.Occurs root f n x := by
  obtain ⟨L, hL, rfl⟩ := h
  rw [spelled, List.mem_filterMap]
  constructor
  · rintro ⟨n, hn, hx⟩
    exact ⟨n, identifierName?_eq_some.1 hx, hL.sound n hn⟩
  · rintro ⟨n, hx, t, ht, htn⟩
    exact ⟨n, hL.complete n t x ht htn hx, identifierName?_eq_some.2 hx⟩

theorem Counts.one_lt_iff {names : List String} (h : Counts s root f names) :
    1 < names.count x ↔ ∃ n n', s.Occurs root f n x ∧ s.Occurs root f n' x ∧ n ≠ n' := by
  obtain ⟨L, hL, rfl⟩ := h
  let named : List NodeId := L.filter fun n => s.identifierName? (some n) == some x
  have hcount : (spelled s L).count x = named.length := by
    rw [spelled, List.count_eq_countP, List.countP_filterMap, ← List.countP_eq_length_filter]
    refine List.countP_congr fun n _ => ?_
    cases s.identifierName? (some n) <;> simp
  have hmem : ∀ n, n ∈ named ↔ s.Occurs root f n x := by
    intro n
    rw [List.mem_filter, beq_iff_eq, identifierName?_eq_some]
    constructor
    · rintro ⟨hn, hx⟩
      exact ⟨hx, hL.sound n hn⟩
    · rintro ⟨hx, t, ht, htn⟩
      exact ⟨hL.complete n t x ht htn hx, hx⟩
  have hnodup : named.Nodup := hL.nodup.filter _
  rw [hcount, ← List.toFinset_card_of_nodup hnodup, Finset.one_lt_card]
  simp only [List.mem_toFinset, hmem]
  exact ⟨fun ⟨n, hn, n', hn', hne⟩ => ⟨n, n', hn, hn', hne⟩,
    fun ⟨n, n', hn, hn', hne⟩ => ⟨n, hn, n', hn', hne⟩⟩

end Modernizer.Scope
