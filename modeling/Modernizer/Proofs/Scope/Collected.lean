import Modernizer.Proofs.Scope.Collecting

/-! What is collected from a program. Below a node that has been walked over, every function has its
scope and every declaration is entered in the scope of its owner. -/

namespace Modernizer.Scope

open Store

variable {s : Store} {root c m n o f i : NodeId} {k fuel : Nat} {x : String} {β : Binding}
  {b : Bindings} {P : Bindings → Prop} {form : Form}

/-- All that is declared at a node is entered in the scope that it belongs to. -/
structure Recorded (s : Store) (root m : NodeId) (b : Bindings) : Prop where
  opened : s.Has m (·.isFunctionLike = true) → ∃ k, (m, k) ∈ b.scopeOf
  entered : ∀ o x β, Enters s root m o x β → ∃ k, b.Numbers root o k ∧ (x, β) ∈ b.table k
  vars : ∀ o d t initializer x, s.Owns root o m → s.Declarator m .varKind d t → s.Names t x →
    s.form? (some d) = some (.declaration (some t) initializer) →
    ∃ k i, b.Numbers root o k ∧ b.vars[i]? = some (varBinding s m d x initializer k) ∧
      (x, .variable_ i) ∈ b.table k

theorem stable_numbers : Stable (·.Numbers root o k) := fun _ _ he h => he.numbers h

theorem stable_table : Stable ((x, β) ∈ ·.table k) := fun _ _ he h => he.table k h

theorem stable_scopeOf : Stable ((f, k) ∈ ·.scopeOf) := fun _ _ he h => he.scopeOf h

theorem stable_recorded : Stable (Recorded s root m) := by
  intro b b' he h
  refine ⟨fun hf => ?_, fun o x β hx => ?_, fun o d t initializer x ho hd hx hf => ?_⟩
  · obtain ⟨k, hk⟩ := h.opened hf
    exact ⟨k, he.scopeOf hk⟩
  · obtain ⟨k, hk, hx⟩ := h.entered o x β hx
    exact ⟨k, he.numbers hk, he.table k hx⟩
  · obtain ⟨k, i, hk, hv, hx⟩ := h.vars o d t initializer x ho hd hx hf
    exact ⟨k, i, he.numbers hk, he.vars _ _ hv, he.table k hx⟩

theorem Stable.and {P Q : Bindings → Prop} (hP : Stable P) (hQ : Stable Q) :
    Stable fun b => P b ∧ Q b :=
  fun b b' he h => ⟨hP b b' he h.1, hQ b b' he h.2⟩

theorem Stable.all {ι : Sort*} {P : ι → Bindings → Prop} (h : ∀ a, Stable (P a)) :
    Stable fun b => ∀ a, P a b :=
  fun b b' he hP a => h a b b' he (hP a)

theorem collects_declare (hx : ∃ m, Enters s root m o x β) :
    Collects s root (·.Numbers root o k) (fun _ => False) (declare k x β)
      fun _ b => (x, β) ∈ b.table k := by
  intro b hs hk _
  obtain ⟨m, hm⟩ := hx
  obtain ⟨hs', he, hin⟩ := hs.enter hk (fun _ _ => id) (fun _ _ => .inl) ⟨m, .inl hm⟩
  exact ⟨hs', he, fun _ _ => .inl, hin⟩

theorem collects_declareName {n : Slot}
    (hx : ∀ x, s.identifierName? n = some x → ∃ m, Enters s root m o x β) :
    Collects s root (·.Numbers root o k) (fun _ => False) (declareName s k n β)
      fun _ b => ∀ x, s.identifierName? n = some x → (x, β) ∈ b.table k := by
  unfold declareName
  split
  · rename_i name hname
    refine (collects_declare (hx name hname)).weaken (fun _ => id) (fun _ => id) ?_
    intro _ b hin x hx
    rw [hname] at hx
    cases hx
    exact hin
  · rename_i hname
    refine .pure fun b _ x hx => ?_
    rw [hname] at hx
    cases hx

theorem Collects.each {γ : Type} {l : List γ} {act : γ → StateM Bindings PUnit}
    {Q : γ → Bindings → Prop} (hP : Stable P) (hQ : ∀ a ∈ l, Stable (Q a))
    (h : ∀ a ∈ l, Collects s root P (fun _ => False) (act a) fun _ => Q a) :
    Collects s root P (fun _ => False) (l.forM act) fun _ b => ∀ a ∈ l, Q a b := by
  have hnone : l.Pairwise fun _ _ => ∀ m : NodeId, False → ¬ False :=
    List.pairwise_of_forall fun _ _ _ => False.elim
  exact (Collects.forM hP hQ h hnone).weaken (fun _ => id) (fun _ ⟨_, _, h⟩ => h) fun _ _ => id

section

variable (h : s.Forest)

include h

theorem collects_declareTarget {target : Slot}
    (hx : ∀ t x, target = some t → s.Names t x → ∃ m, Enters s root m o x .other) :
    Collects s root (·.Numbers root o k) (fun _ => False) (declareTarget s k target)
      fun _ b => ∀ t x, target = some t → s.Names t x → (x, .other) ∈ b.table k := by
  unfold declareTarget
  refine (Collects.each stable_numbers (fun e _ => ?_) fun e he =>
    collects_declareName fun x hname => ?_).weaken (fun _ => id) (fun _ => id) ?_
  · exact .all fun x => .all fun _ => stable_table
  · obtain ⟨t, rfl, ht⟩ := names_of_mem he hname
    exact hx t x rfl ht
  · rintro _ b hall t x rfl ht
    obtain ⟨e, he, hname⟩ := h.mem_bindingNames ht
    exact hall e he x hname

end

theorem collects_openScope (ho : s.Owns root o f) (hf : s.Has f (·.isFunctionLike = true)) :
    Collects s root (·.Numbers root o k) (· = f) (openScope f k)
      fun inner b => (f, inner) ∈ b.scopeOf := by
  intro b hs hk hnew
  obtain ⟨hs', he⟩ := hs.open_ hk ho hf fun j => hnew f j rfl
  refine ⟨hs', he, fun m j hm => ?_, List.mem_cons_self⟩
  rcases List.mem_cons.1 hm with hm | hm
  · cases hm
    exact .inr rfl
  · exact .inl hm

theorem collects_declareVar {l d t : NodeId} {initializer : Slot} (ho : s.Owns root o l)
    (hd : s.Declarator l .varKind d t) (hx : s.Names t x)
    (hf : s.form? (some d) = some (.declaration (some t) initializer)) :
    Collects s root (·.Numbers root o k) (fun _ => False)
      (do
        let index := (← get).vars.size
        modify fun b => { b with vars := b.vars.push (varBinding s l d x initializer k) }
        declare k x (.variable_ index))
      fun _ b => ∃ i, b.vars[i]? = some (varBinding s l d x initializer k) ∧
        (x, .variable_ i) ∈ b.table k := by
  intro b hs hk _
  let vars := b.vars.push (varBinding s l d x initializer k)
  have hnew : vars[b.vars.size]? = some (varBinding s l d x initializer k) :=
    Array.getElem?_push_size
  have hkept : ∀ (i : Nat) (v : VarBinding), b.vars[i]? = some v → vars[i]? = some v := by
    intro i v hi
    have hlt : i < b.vars.size := (Array.getElem?_eq_some_iff.1 hi).1
    rw [Array.getElem?_push, if_neg (Nat.ne_of_lt hlt)]
    exact hi
  have hentry : ∃ m, Enters s root m o x (.variable_ b.vars.size) ∨
      ∃ i, Binding.variable_ b.vars.size = .variable_ i ∧
        EntersVar s root (b.enter vars k x (.variable_ b.vars.size)) m o k x i :=
    ⟨l, .inr ⟨_, rfl, ho, d, t, initializer, hd, hx, hf, hnew⟩⟩
  have hpushed : ∀ (i : Nat) (v : VarBinding), vars[i]? = some v →
      b.vars[i]? = some v ∨ v.name = x ∧ Binding.variable_ b.vars.size = .variable_ i := by
    intro i v hi
    rw [Array.getElem?_push] at hi
    split at hi
    · rename_i hlast
      cases hi
      exact .inr ⟨rfl, hlast ▸ rfl⟩
    · exact .inl hi
  obtain ⟨hs', he, hin⟩ := hs.enter hk hkept hpushed hentry
  exact ⟨hs', he, fun _ _ => .inl, _, hnew, hin⟩

/-- The names of a declarator are entered, those of a `var` with their numbers. -/
def DeclaratorEntered (s : Store) (l : NodeId) (kind : DeclarationKind) (k : Nat) (d : Slot)
    (b : Bindings) : Prop :=
  ∀ t initializer x, s.form? d = some (.declaration (some t) initializer) → s.Names t x →
    if kind = .varKind then
      ∃ i e, d = some e ∧ b.vars[i]? = some (varBinding s l e x initializer k) ∧
        (x, .variable_ i) ∈ b.table k
    else (x, .other) ∈ b.table k

theorem stable_declaratorEntered {l : NodeId} {kind : DeclarationKind} {d : Slot} :
    Stable (DeclaratorEntered s l kind k d) := by
  intro b b' he h t initializer x hform hx
  have hentry := h t initializer x hform hx
  split
  · rename_i hkind
    rw [if_pos hkind] at hentry
    obtain ⟨i, e, hd, hv, hi⟩ := hentry
    exact ⟨i, e, hd, he.vars _ _ hv, he.table k hi⟩
  · rename_i hkind
    rw [if_neg hkind] at hentry
    exact he.table k hentry

theorem collects_declareVars (h : s.Forest) {l : NodeId} {list : DeclarationList} {d : Slot}
    (ho : s.Owns root o l) (hl : s.form? (some l) = some (.declarationList list))
    (hd : d ∈ list.declarations.nodes) :
    Collects s root (·.Numbers root o k) (fun _ => False) (declareVars s l list.kind k d)
      fun _ => DeclaratorEntered s l list.kind k d := by
  unfold declareVars DeclaratorEntered
  split
  · rename_i target initializer hform
    obtain ⟨e, rfl, he⟩ := exists_of_form? hform
    have hdeclarator : ∀ t, target = some t → s.Declarator l list.kind e t := by
      rintro t rfl
      exact ⟨list, initializer, hl, rfl, hd, he⟩
    -- a `var` is entered with its declarator, the other kinds by name only
    by_cases hkind : list.kind = .varKind
    · rw [if_neg (not_not.2 hkind)]
      simp only [if_pos hkind]
      refine (Collects.each (Q := fun n b => ∀ x, s.identifierName? n = some x →
        ∃ i, b.vars[i]? = some (varBinding s l e x initializer k) ∧ (x, .variable_ i) ∈ b.table k)
        stable_numbers (fun n _ => ?_) fun n hn => ?_).weaken (fun _ => id) (fun _ => id) ?_
      · intro b b' hb hq x hx
        obtain ⟨i, hv, hi⟩ := hq x hx
        exact ⟨i, hb.vars _ _ hv, hb.table k hi⟩
      · split
        · rename_i hnone
          refine .pure fun b _ x hx => ?_
          rw [hnone] at hx
          cases hx
        · rename_i name hname
          obtain ⟨t, rfl, ht⟩ := names_of_mem hn hname
          have hvar := hkind ▸ hdeclarator t rfl
          refine (collects_declareVar (k := k) ho hvar ht he).weaken (fun _ => id) (fun _ => id) ?_
          intro _ b hq x hx
          rw [hname] at hx
          cases hx
          exact hq
      · intro _ b hall t initializer' x hform' ht
        rw [he] at hform'
        cases hform'
        obtain ⟨n, hn, hname⟩ := h.mem_bindingNames ht
        obtain ⟨i, hv, hi⟩ := hall n hn x hname
        exact ⟨i, e, rfl, hv, hi⟩
    · rw [if_pos hkind]
      simp only [if_neg hkind]
      refine (collects_declareTarget h fun t x ht hx => ⟨l, ?_⟩).weaken
        (fun _ => id) (fun _ => id) ?_
      · exact .block ho (.list (hdeclarator t ht) hkind hx)
      · intro _ b hall t initializer' x hform' ht
        rw [he] at hform'
        cases hform'
        exact hall t x rfl ht
  · rename_i hnone
    refine .pure fun b _ t initializer x hform => ?_
    exact (hnone _ _ hform).elim

def Under (s : Store) (e : Slot) (m : NodeId) : Prop := ∃ c, e = some c ∧ s.Below c m

theorem pairwise_under (t : s.TreeAt root) (hi : s.Below root i) (hf : s.form? (some i) = some form) :
    form.slots.Pairwise fun a a' => ∀ m, Under s a m → ¬ Under s a' m := by
  have hchildren := t.pairwise_apart_children hi
  have hslots : s.slots i = form.slots := by simp [slots, hf]
  rw [children_eq_slots, hslots] at hchildren
  refine (List.pairwise_filterMap.1 hchildren).imp ?_
  rintro a a' hapart m ⟨c, rfl, hc⟩ ⟨c', rfl, hc'⟩
  exact hapart c rfl c' rfl m hc hc'

/-- The forms at which names are declared. -/
def declaring : Form → Bool
  | .classDeclaration _ | .catchClause .. | .declarationList _ => true
  | form => form.isFunctionLike

theorem declaring_of_declarator {kind : DeclarationKind} {d e : NodeId}
    (h : s.Declarator i kind d e) (hform : s.form? (some i) = some form) :
    declaring form = true ∧ form.isFunctionLike = false := by
  obtain ⟨_, _, hf, -⟩ := h
  rw [hform] at hf
  cases hf
  exact ⟨rfl, rfl⟩

theorem declaring_of_handler (h : s.HandlerDeclares i x) (hform : s.form? (some i) = some form) :
    declaring form = true ∧ form.isFunctionLike = false := by
  obtain ⟨_, _, hf, -⟩ := h
  rw [hform] at hf
  cases hf
  exact ⟨rfl, rfl⟩

theorem declaring_of_block (h : s.BlockDeclares i x) (hform : s.form? (some i) = some form) :
    declaring form = true ∧ form.isFunctionLike = false := by
  cases h with
  | list hd _ _ => exact declaring_of_declarator hd hform
  | class_ hf _ =>
    rw [hform] at hf
    cases hf
    exact ⟨rfl, rfl⟩

theorem declaring_of_enters (h : Enters s root i o x β) (hform : s.form? (some i) = some form) :
    declaring form = true := by
  cases h with
  | parameter hf ht _ =>
    rw [hform] at hf
    cases hf
    cases form <;> first | rfl | exact (List.not_mem_nil ht).elim
  | itself hf _ =>
    rw [hform] at hf
    cases hf
    rfl
  | function _ hf _ =>
    rw [hform] at hf
    cases hf
    rfl
  | block _ hb => exact (declaring_of_block hb hform).1
  | handler _ hh => exact (declaring_of_handler hh hform).1

theorem declaring_of_isFunctionLike (h : form.isFunctionLike = true) : declaring form = true := by
  cases form <;> first | rfl | cases h

theorem recorded_of_not_declaring (hform : s.form? (some i) = some form)
    (hnot : declaring form = false) : Recorded s root i b := by
  have hfalse : declaring form ≠ true := by simp [hnot]
  refine ⟨?_, fun o' x β hx => ?_, fun o' d e _ x _ hd => ?_⟩
  · rintro ⟨form', hform', hlike⟩
    rw [hform] at hform'
    cases hform'
    exact (hfalse (declaring_of_isFunctionLike hlike)).elim
  · exact (hfalse (declaring_of_enters hx hform)).elim
  · exact (hfalse (declaring_of_declarator hd hform).1).elim

theorem recorded_function (t : s.TreeAt root) {inner : Nat} (hform : s.form? (some i) = some form)
    (ho : s.Owns root o i) (hscope : (i, inner) ∈ b.scopeOf)
    (hparameters : ∀ t x, some t ∈ form.parameters → s.Names t x → (x, .other) ∈ b.table inner)
    (hself : ∀ g x, form = .functionExpression g → s.identifierName? g.name = some x →
      (x, .other) ∈ b.table inner)
    (hname : ∀ g x, form = .functionDeclaration g → s.identifierName? g.name = some x →
      ∃ k, b.Numbers root o k ∧ (x, .function i) ∈ b.table k)
    (hlike : form.isFunctionLike = true) : Recorded s root i b := by
  have hnumbers : b.Numbers root i inner := .inr hscope
  refine ⟨fun _ => ⟨inner, hscope⟩, fun o' x β hx => ?_, fun o' d t _ x _ hd => ?_⟩
  · cases hx with
    | parameter hf ht hx =>
      rw [hform] at hf
      cases hf
      exact ⟨inner, hnumbers, hparameters _ _ ht hx⟩
    | itself hf hx =>
      rw [hform] at hf
      cases hf
      exact ⟨inner, hnumbers, hself _ _ rfl hx⟩
    | function ho' hf hx =>
      rw [hform] at hf
      cases hf
      exact t.nearest_unique ho ho' ▸ hname _ _ rfl hx
    | block _ hb =>
      have hnot := (declaring_of_block hb hform).2
      simp [hlike] at hnot
    | handler _ hh =>
      have hnot := (declaring_of_handler hh hform).2
      simp [hlike] at hnot
  · have hnot := (declaring_of_declarator hd hform).2
    simp [hlike] at hnot

theorem recorded_other (t : s.TreeAt root) (hform : s.form? (some i) = some form)
    (hlike : form.isFunctionLike = false) (ho : s.Owns root o i) (hk : b.Numbers root o k)
    (hblock : ∀ x, s.BlockDeclares i x → (x, .other) ∈ b.table k)
    (hhandler : ∀ x, s.HandlerDeclares i x → (x, .other) ∈ b.table k)
    (hvars : ∀ d t initializer x, s.Declarator i .varKind d t → s.Names t x →
      s.form? (some d) = some (.declaration (some t) initializer) →
      ∃ j, b.vars[j]? = some (varBinding s i d x initializer k) ∧
        (x, .variable_ j) ∈ b.table k) : Recorded s root i b := by
  refine ⟨?_, fun o' x β hx => ?_, fun o' d e initializer x ho' hd hx hf => ?_⟩
  · rintro ⟨form', hform', h⟩
    rw [hform] at hform'
    cases hform'
    rw [hlike] at h
    cases h
  · cases hx with
    | parameter hf ht hx =>
      rw [hform] at hf
      cases hf
      cases form <;> first | exact (List.not_mem_nil ht).elim | cases hlike
    | itself hf hx =>
      rw [hform] at hf
      cases hf
      cases hlike
    | function ho' hf hx =>
      rw [hform] at hf
      cases hf
      cases hlike
    | block ho' hb => exact t.nearest_unique ho ho' ▸ ⟨k, hk, hblock x hb⟩
    | handler ho' hh => exact t.nearest_unique ho ho' ▸ ⟨k, hk, hhandler x hh⟩
  · obtain ⟨j, hv, hj⟩ := hvars d _ initializer x hd hx hf
    exact t.nearest_unique ho ho' ▸ ⟨k, j, hk, hv, hj⟩

section

variable (t : s.TreeAt root) (h : s.Forest)

/-- What a walk below a node is for, with some fuel. -/
def Walks (s : Store) (root : NodeId) (fuel : Nat) : Prop :=
  ∀ o c k, s.Owns root o c → c < fuel →
    Collects s root (·.Numbers root o k) (s.Below c) (collect s fuel (some c) k)
      fun _ b => ∀ m, s.Below c m → Recorded s root m b

theorem Walks.slot (hw : Walks s root fuel) {e : Slot}
    (he : ∀ c, e = some c → s.Owns root o c ∧ c < fuel) :
    Collects s root (·.Numbers root o k) (Under s e) (collect s fuel e k)
      fun _ b => ∀ m, Under s e m → Recorded s root m b := by
  cases e with
  | none =>
    have hnone : collect s fuel none k = pure () := by cases fuel <;> rfl
    rw [hnone]
    exact .pure fun b _ m ⟨c, hc, _⟩ => by cases hc
  | some c =>
    obtain ⟨ho, hlt⟩ := he c rfl
    refine (hw o c k ho hlt).weaken (fun _ => id) (fun m hm => ⟨c, rfl, hm⟩) ?_
    rintro _ b hall m ⟨c', hc', hm⟩
    cases hc'
    exact hall m hm

include t h in
/-- The parameters and the body of a function, in its scope. -/
theorem Walks.inner (hw : Walks s root fuel) {ps : List Slot} {body : Slot} (hi : s.Below root i)
    (hform : s.form? (some i) = some form) (hinner : form.inner = ps ++ [body])
    (hps : form.parameters = ps) (hfuel : i ≤ fuel) :
    Collects s root (·.Numbers root i k) (fun m => ∃ e ∈ form.inner, Under s e m)
      (do
        ps.forM fun p => do
          declareTarget s k p
          collect s fuel p k
        collect s fuel body k)
      fun _ b => (∀ t x, some t ∈ form.parameters → s.Names t x → (x, .other) ∈ b.table k) ∧
        ∀ e ∈ form.inner, ∀ m, Under s e m → Recorded s root m b := by
  obtain ⟨o, ho⟩ := exists_nearest Form.inner hi
  have hslots : ∀ e ∈ form.inner, ∀ c, e = some c → s.Owns root i c ∧ c < fuel := by
    rintro e he c rfl
    have hslot := form.inner_subset he
    exact ⟨.into ho hform hslot he,
      Nat.lt_of_lt_of_le (h.lt i c (holds_of_form hform hslot)) hfuel⟩
  have hpairwise : form.inner.Pairwise fun a a' => ∀ m, Under s a m → ¬ Under s a' m :=
    (pairwise_under t hi hform).sublist (Form.inner_sublist form)
  rw [hinner] at hslots hpairwise ⊢
  rw [hps]
  obtain ⟨hpairs, -, hbody⟩ := List.pairwise_append.1 hpairwise
  have hparameter : ∀ p ∈ ps, Collects s root (·.Numbers root i k) (Under s p)
      (do
        declareTarget s k p
        collect s fuel p k)
      fun _ b => (∀ t x, p = some t → s.Names t x → (x, .other) ∈ b.table k) ∧
        ∀ m, Under s p m → Recorded s root m b := by
    intro p hp
    have hdeclare : Collects s root (·.Numbers root i k) (fun _ => False) (declareTarget s k p)
        fun _ b => ∀ t x, p = some t → s.Names t x → (x, .other) ∈ b.table k := by
      refine collects_declareTarget h fun t x ht hx => ⟨i, ?_⟩
      subst ht
      exact .parameter hform (hps ▸ hp) hx
    have hstable : Stable fun b => b.Numbers root i k ∧
        ∀ t x, p = some t → s.Names t x → (x, .other) ∈ b.table k :=
      stable_numbers.and (.all fun t => .all fun x => .all fun _ => .all fun _ => stable_table)
    refine hdeclare.before stable_numbers fun _ => ?_
    refine (((hw.slot (hslots p (List.mem_append_left _ hp))).weaken (fun _ => And.left)
      (fun _ => id) fun _ _ => id).keep hstable).weaken (fun _ => id) (fun _ => id) ?_
    rintro _ b ⟨⟨-, hin⟩, hall⟩
    exact ⟨hin, hall⟩
  -- what is known of a parameter stays true while the next ones are walked
  let Q : Slot → Bindings → Prop := fun p b =>
    (∀ t x, p = some t → s.Names t x → (x, .other) ∈ b.table k) ∧
      ∀ m, Under s p m → Recorded s root m b
  have hQ : ∀ p, Stable (Q p) := fun p =>
    (Stable.all fun t => .all fun x => .all fun _ => .all fun _ => stable_table).and
      (.all fun m => .all fun _ => stable_recorded)
  have hall : Collects s root (·.Numbers root i k) (fun m => ∃ p ∈ ps, Under s p m)
      (ps.forM fun p => do
        declareTarget s k p
        collect s fuel p k) fun _ b => ∀ p ∈ ps, Q p b :=
    Collects.forM stable_numbers (fun p _ => hQ p) hparameter hpairs
  have hstable : Stable fun b => b.Numbers root i k ∧ ∀ p ∈ ps, Q p b :=
    stable_numbers.and (.all fun p => .all fun _ => hQ p)
  have hlast := hw.slot (k := k) (hslots body (List.mem_append_right _ (List.mem_singleton.2 rfl)))
  refine hall.bind stable_numbers (fun _ => ((hlast.weaken (fun _ => And.left) (fun _ => id)
    fun _ _ => id).keep hstable).weaken (fun _ => id) (fun _ => id) ?_) ?_ ?_ ?_
  · rintro _ b ⟨⟨-, hqs⟩, hb⟩
    refine ⟨fun t x ht hx => (hqs (some t) ht).1 t x rfl hx, fun e he => ?_⟩
    rcases List.mem_append.1 he with he | he
    · exact (hqs e he).2
    · exact List.mem_singleton.1 he ▸ hb
  · rintro m ⟨p, hp, hm⟩
    exact ⟨p, List.mem_append_left _ hp, hm⟩
  · intro m hm
    exact ⟨body, List.mem_append_right _ (List.mem_singleton.2 rfl), hm⟩
  · rintro m ⟨p, hp, hm⟩
    exact hbody p hp body (List.mem_singleton.2 rfl) m hm

/-- The names that a function binds in its own scope. -/
structure Opened (s : Store) (i : NodeId) (form : Form) (b : Bindings) (inner : Nat) : Prop where
  scope : (i, inner) ∈ b.scopeOf
  parameters : ∀ t x, some t ∈ form.parameters → s.Names t x → (x, .other) ∈ b.table inner
  itself : ∀ g x, form = .functionExpression g → s.identifierName? g.name = some x →
    (x, .other) ∈ b.table inner

include t h in
theorem Walks.function (hw : Walks s root fuel) {ps : List Slot} {body : Slot}
    (ho : s.Owns root o i) (hform : s.form? (some i) = some form)
    (hinner : form.inner = ps ++ [body]) (hps : form.parameters = ps)
    (hlike : form.isFunctionLike = true) (hfuel : i ≤ fuel) (named : Nat → Collect)
    (hnamed : ∀ inner, Collects s root (·.Numbers root i inner) (fun _ => False) (named inner)
      fun _ b => ∀ g x, form = .functionExpression g → s.identifierName? g.name = some x →
        (x, .other) ∈ b.table inner) :
    Collects s root (·.Numbers root o k) (fun m => m = i ∨ ∃ e ∈ form.inner, Under s e m)
      (do
        let inner ← openScope i k
        named inner
        ps.forM fun p => do
          declareTarget s inner p
          collect s fuel p inner
        collect s fuel body inner)
      fun _ b => (∃ inner, Opened s i form b inner) ∧
        ∀ e ∈ form.inner, ∀ m, Under s e m → Recorded s root m b := by
  have hi := ho.below_root
  -- a function is not below what it holds
  have hapart : ∀ m, m = i → ¬ ∃ e ∈ form.inner, Under s e m := by
    rintro m rfl ⟨e, he, c, rfl, hc⟩
    exact t.not_below_holder hi (holds_of_form hform (form.inner_subset he)) hc
  refine (collects_openScope ho ⟨form, hform, hlike⟩).bind stable_numbers (fun inner => ?_)
    (fun _ => .inl) (fun _ => .inr) hapart
  have hscope : ∀ b : Bindings, b.Numbers root o k ∧ (i, inner) ∈ b.scopeOf →
      b.Numbers root i inner := fun b hb => .inr hb.2
  have hstable : Stable fun b => b.Numbers root o k ∧ (i, inner) ∈ b.scopeOf :=
    stable_numbers.and stable_scopeOf
  refine ((hnamed inner).weaken hscope (fun _ => id) fun _ _ => id).before hstable fun _ => ?_
  refine (((hw.inner t h hi hform hinner hps hfuel).weaken (fun b hb => hscope b hb.1) (fun _ => id)
    fun _ _ => id).keep (hstable.and ?_)).weaken (fun _ => id) (fun _ => id) ?_
  · exact .all fun g => .all fun x => .all fun _ => .all fun _ => stable_table
  · rintro _ b ⟨⟨hb, hself⟩, hparameters, hall⟩
    exact ⟨⟨inner, hb.2, hparameters, hself⟩, hall⟩

theorem eq_or_under (hform : s.form? (some i) = some form) (hm : s.Below i m) :
    m = i ∨ ∃ e ∈ form.slots, Under s e m := by
  rcases Relation.ReflTransGen.cases_head hm with rfl | ⟨c, hc, hcm⟩
  · exact .inl rfl
  · rw [holds_iff_mem_slots] at hc
    refine .inr ⟨some c, ?_, c, rfl, hcm⟩
    simpa [slots, hform] using hc

theorem below_of_under (hform : s.form? (some i) = some form) {e : Slot} (he : e ∈ form.slots)
    (hm : Under s e m) : s.Below i m := by
  obtain ⟨c, rfl, hc⟩ := hm
  exact (holds_of_form hform he).below.trans hc

include t h in
theorem Walks.children (hw : Walks s root fuel) (ho : s.Owns root o i)
    (hform : s.form? (some i) = some form) (hlike : form.isFunctionLike = false) (hfuel : i ≤ fuel)
    (own : Collect) {Q : Bindings → Prop} (hQ : Stable Q)
    (hown : Collects s root (·.Numbers root o k) (fun _ => False) own fun _ => Q)
    (hrecorded : ∀ b : Bindings, b.Numbers root o k → Q b → Recorded s root i b) :
    Collects s root (·.Numbers root o k) (s.Below i)
      (do
        own
        form.children.forM fun child => collect s fuel (some child) k)
      fun _ b => ∀ m, s.Below i m → Recorded s root m b := by
  have hi := ho.below_root
  have hchild : ∀ c ∈ form.children, s.Holds i c := fun c hc => by
    rw [Holds, Store.children, hform]
    exact hc
  have hpairs : form.children.Pairwise fun c c' => ∀ m, s.Below c m → ¬ s.Below c' m := by
    have hapart := t.pairwise_apart_children hi
    rw [Store.children, hform] at hapart
    exact hapart
  have hnone : form.inner = [] := by cases form <;> first | rfl | cases hlike
  have heach : ∀ c ∈ form.children, Collects s root (fun b => b.Numbers root o k ∧ Q b) (s.Below c)
      (collect s fuel (some c) k) fun _ b => ∀ m, s.Below c m → Recorded s root m b := by
    intro c hc
    have hslot : some c ∈ form.slots := mem_present.1 hc
    have hin : some c ∉ form.inner := by simp [hnone]
    have hlt : c < fuel := Nat.lt_of_lt_of_le (h.lt i c (hchild c hc)) hfuel
    exact (hw o c k (.past ho hform hslot hin) hlt).weaken (fun _ => And.left) (fun _ => id)
      fun _ _ => id
  have hstable : Stable fun b => b.Numbers root o k ∧ Q b := stable_numbers.and hQ
  refine hown.before stable_numbers fun _ => ?_
  refine ((Collects.forM hstable (fun c _ => .all fun m => .all fun _ => stable_recorded) heach
    hpairs).keep hstable).weaken (fun _ => id) ?_ ?_
  · rintro m ⟨c, hc, hm⟩
    exact (hchild c hc).below.trans hm
  · rintro _ b ⟨⟨hk, hq⟩, hall⟩ m hm
    rcases Relation.ReflTransGen.cases_head hm with rfl | ⟨c, hc, hcm⟩
    · exact hrecorded b hk hq
    · rw [Holds, Store.children, hform] at hc
      exact hall c hc m hcm

include t in
theorem recorded_below_function (ho : s.Owns root o i) (hform : s.form? (some i) = some form)
    (hlike : form.isFunctionLike = true) (hopened : ∃ inner, Opened s i form b inner)
    (hname : ∀ g x, form = .functionDeclaration g → s.identifierName? g.name = some x →
      ∃ k, b.Numbers root o k ∧ (x, .function i) ∈ b.table k)
    (hslots : ∀ e ∈ form.slots, ∀ m, Under s e m → Recorded s root m b) (hm : s.Below i m) :
    Recorded s root m b := by
  obtain ⟨inner, hopened⟩ := hopened
  rcases eq_or_under hform hm with rfl | ⟨e, he, hem⟩
  · exact recorded_function t hform ho hopened.scope hopened.parameters hopened.itself hname hlike
  · exact hslots e he m hem

include h in
omit t in
theorem recorded_ownName (hform : s.form? (some i) = some form) {e : Slot} (he : form.ownName = e)
    (hm : Under s e m) : Recorded s root m b := by
  obtain ⟨n, rfl, hnm⟩ := hm
  obtain ⟨_, hnform, y, rfl⟩ := (h.shaped i form hform).named n he
  rcases eq_or_under hnform hnm with rfl | ⟨e, he, -⟩
  · exact recorded_of_not_declaring hnform rfl
  · exact (List.not_mem_nil he).elim

theorem below_of_inner (hform : s.form? (some i) = some form)
    (hm : m = i ∨ ∃ e ∈ form.inner, Under s e m) : s.Below i m := by
  rcases hm with rfl | ⟨e, he, hm⟩
  · exact .refl
  · exact below_of_under hform (form.inner_subset he) hm

section step

variable (hw : Walks s root fuel) (ho : s.Owns root o i) (hfuel : i ≤ fuel)

include t h hw ho hfuel

theorem Walks.functionDeclaration {f : FunctionForm}
    (hform : s.form? (some i) = some (.functionDeclaration f)) :
    Collects s root (·.Numbers root o k) (s.Below i) (collect s (fuel + 1) (some i) k)
      fun _ b => ∀ m, s.Below i m → Recorded s root m b := by
  have hname : Collects s root (·.Numbers root o k) (fun _ => False)
      (declareName s k f.name (.function i)) fun _ b => ∀ x, s.identifierName? f.name = some x →
        (x, .function i) ∈ b.table k :=
    collects_declareName fun x hx => ⟨i, .function ho hform hx⟩
  have hstable : Stable fun b => b.Numbers root o k ∧ ∀ x, s.identifierName? f.name = some x →
      (x, .function i) ∈ b.table k :=
    stable_numbers.and (.all fun x => .all fun _ => stable_table)
  have hfunction := hw.function (k := k) t h ho hform rfl rfl rfl hfuel
    (fun _ => pure ()) fun inner => .pure fun b _ g x hg => by cases hg
  simp only [pure_bind] at hfunction
  unfold collect
  rw [hform]
  refine (hname.before stable_numbers fun _ => ((hfunction.weaken (fun _ => And.left)
    (fun _ => id) fun _ _ => id).keep hstable)).weaken (fun _ => id)
    (fun _ => below_of_inner hform) ?_
  rintro _ b ⟨⟨hk, hin⟩, hopened, hall⟩ m hm
  refine recorded_below_function t ho hform rfl hopened ?_ (List.forall_mem_cons.2 ⟨?_, hall⟩) hm
  · rintro g x hg hx
    cases hg
    exact ⟨k, hk, hin x hx⟩
  · exact fun m => recorded_ownName h hform rfl

theorem Walks.functionExpression {f : FunctionForm}
    (hform : s.form? (some i) = some (.functionExpression f)) :
    Collects s root (·.Numbers root o k) (s.Below i) (collect s (fuel + 1) (some i) k)
      fun _ b => ∀ m, s.Below i m → Recorded s root m b := by
  have hnamed : ∀ inner, Collects s root (·.Numbers root i inner) (fun _ => False)
      (declareName s inner f.name .other) fun _ b => ∀ g x,
        Form.functionExpression f = .functionExpression g → s.identifierName? g.name = some x →
          (x, .other) ∈ b.table inner := by
    intro inner
    refine (collects_declareName fun x hx => ⟨i, .itself hform hx⟩).weaken (fun _ => id)
      (fun _ => id) ?_
    rintro _ b hin g x hg hx
    cases hg
    exact hin x hx
  unfold collect
  rw [hform]
  refine (hw.function (k := k) t h ho hform rfl rfl rfl hfuel _ hnamed).weaken (fun _ => id)
    (fun _ => below_of_inner hform) ?_
  rintro _ b ⟨hopened, hall⟩ m hm
  exact recorded_below_function t ho hform rfl hopened (fun g x hg => by cases hg)
    (List.forall_mem_cons.2 ⟨fun m => recorded_ownName h hform rfl, hall⟩) hm

theorem Walks.arrow {f : ArrowForm} (hform : s.form? (some i) = some (.arrow f)) :
    Collects s root (·.Numbers root o k) (s.Below i) (collect s (fuel + 1) (some i) k)
      fun _ b => ∀ m, s.Below i m → Recorded s root m b := by
  have hfunction := hw.function (k := k) t h ho hform rfl rfl rfl hfuel
    (fun _ => pure ()) fun inner => .pure fun b _ g x hg => by cases hg
  simp only [pure_bind] at hfunction
  unfold collect
  rw [hform]
  refine hfunction.weaken (fun _ => id) (fun _ => below_of_inner hform) ?_
  rintro _ b ⟨hopened, hall⟩ m hm
  exact recorded_below_function t ho hform rfl hopened (fun g x hg => by cases hg) hall hm

theorem Walks.method {f : MethodForm} (hform : s.form? (some i) = some (.method f)) :
    Collects s root (·.Numbers root o k) (s.Below i) (collect s (fuel + 1) (some i) k)
      fun _ b => ∀ m, s.Below i m → Recorded s root m b := by
  have hi := ho.below_root
  have hfunction := hw.function (k := k) t h ho hform rfl rfl rfl hfuel
    (fun _ => pure ()) fun inner => .pure fun b _ g x hg => by cases hg
  simp only [pure_bind] at hfunction
  have hpairs := List.pairwise_cons.1 (pairwise_under t hi hform)
  have hkey : ∀ c, f.name = some c → s.Owns root o c ∧ c < fuel := by
    intro c hc
    have hslot : some c ∈ (Form.method f).slots := hc ▸ List.mem_cons_self
    have hout : some c ∉ (Form.method f).inner := fun hin =>
      hpairs.1 _ hin c ⟨c, hc, .refl⟩ ⟨c, rfl, .refl⟩
    exact ⟨.past ho hform hslot hout,
      Nat.lt_of_lt_of_le (h.lt i c (holds_of_form hform hslot)) hfuel⟩
  have hstable : Stable fun b => b.Numbers root o k ∧
      ∀ m, Under s f.name m → Recorded s root m b :=
    stable_numbers.and (.all fun m => .all fun _ => stable_recorded)
  unfold collect
  rw [hform]
  refine (hw.slot hkey).bind stable_numbers (fun _ => ((hfunction.weaken (fun _ => And.left)
    (fun _ => id) fun _ _ => id).keep hstable).weaken (fun _ => id) (fun _ => id) ?_)
    (fun m => below_of_under hform List.mem_cons_self) (fun _ => below_of_inner hform) ?_
  · rintro _ b ⟨⟨-, hkeyed⟩, hopened, hall⟩ m hm
    exact recorded_below_function t ho hform rfl hopened (fun g x hg => by cases hg)
      (List.forall_mem_cons.2 ⟨hkeyed, hall⟩) hm
  · rintro m ⟨c, hc, hcm⟩ (rfl | ⟨e, he, hem⟩)
    · exact t.not_below_holder hi (holds_of_form hform (hc ▸ List.mem_cons_self)) hcm
    · exact hpairs.1 e he m ⟨c, hc, hcm⟩ hem

theorem Walks.classDeclaration {c : ClassForm}
    (hform : s.form? (some i) = some (.classDeclaration c)) :
    Collects s root (·.Numbers root o k) (s.Below i) (collect s (fuel + 1) (some i) k)
      fun _ b => ∀ m, s.Below i m → Recorded s root m b := by
  unfold collect
  rw [hform]
  refine hw.children t h ho hform rfl hfuel _ (.all fun x => .all fun _ => stable_table)
    (collects_declareName fun x hx => ⟨i, .block ho (.class_ hform hx)⟩) fun b hk hin => ?_
  refine recorded_other t hform rfl ho hk (fun x hx => ?_) (fun x hx => ?_) fun d e _ x hd => ?_
  · cases hx with
    | list hd _ _ =>
      obtain ⟨_, _, hf, -⟩ := hd
      rw [hform] at hf
      cases hf
    | class_ hf hx =>
      rw [hform] at hf
      cases hf
      exact hin x hx
  · obtain ⟨_, _, hf, -⟩ := hx
    rw [hform] at hf
    cases hf
  · obtain ⟨_, _, hf, -⟩ := hd
    rw [hform] at hf
    cases hf

theorem Walks.catchClause {target body : Slot}
    (hform : s.form? (some i) = some (.catchClause target body)) :
    Collects s root (·.Numbers root o k) (s.Below i) (collect s (fuel + 1) (some i) k)
      fun _ b => ∀ m, s.Below i m → Recorded s root m b := by
  unfold collect
  rw [hform]
  refine hw.children t h ho hform rfl hfuel _
    (.all fun e => .all fun x => .all fun _ => .all fun _ => stable_table)
    (collects_declareTarget h fun e x he hx => ⟨i, .handler ho ⟨e, body, he ▸ hform, hx⟩⟩)
    fun b hk hin => ?_
  refine recorded_other t hform rfl ho hk (fun x hx => ?_) (fun x hx => ?_) fun d e _ x hd => ?_
  · cases hx with
    | list hd _ _ =>
      obtain ⟨_, _, hf, -⟩ := hd
      rw [hform] at hf
      cases hf
    | class_ hf _ =>
      rw [hform] at hf
      cases hf
  · obtain ⟨e, _, hf, hx⟩ := hx
    rw [hform] at hf
    cases hf
    exact hin e x rfl hx
  · obtain ⟨_, _, hf, -⟩ := hd
    rw [hform] at hf
    cases hf

theorem Walks.declarationList {list : DeclarationList}
    (hform : s.form? (some i) = some (.declarationList list)) :
    Collects s root (·.Numbers root o k) (s.Below i) (collect s (fuel + 1) (some i) k)
      fun _ b => ∀ m, s.Below i m → Recorded s root m b := by
  have hown : Collects s root (·.Numbers root o k) (fun _ => False)
      (list.declarations.nodes.forM (declareVars s i list.kind k))
      fun _ b => ∀ d ∈ list.declarations.nodes, DeclaratorEntered s i list.kind k d b :=
    Collects.each stable_numbers (fun _ _ => stable_declaratorEntered) fun d hd =>
      collects_declareVars h ho hform hd
  unfold collect
  rw [hform]
  refine hw.children t h ho hform rfl hfuel _
    (.all fun d => .all fun _ => stable_declaratorEntered) hown fun b hk hin => ?_
  refine recorded_other t hform rfl ho hk (fun x hx => ?_) (fun x hx => ?_)
    fun d e initializer x hd hx hf => ?_
  · cases hx with
    | list hd hkind hx =>
      obtain ⟨_, _, hf, rfl, hd, hdf⟩ := hd
      rw [hform] at hf
      cases hf
      have hentry := hin _ hd _ _ x hdf hx
      rw [if_neg hkind] at hentry
      exact hentry
    | class_ hf _ =>
      rw [hform] at hf
      cases hf
  · obtain ⟨_, _, hf, -⟩ := hx
    rw [hform] at hf
    cases hf
  · obtain ⟨_, _, hl, hkind, hd, -⟩ := hd
    rw [hform] at hl
    cases hl
    have hentry := hin _ hd _ _ x hf hx
    rw [if_pos hkind] at hentry
    obtain ⟨j, _, hsome, hv, hj⟩ := hentry
    cases hsome
    exact ⟨j, hv, hj⟩

end step

include t h in
theorem walks (fuel : Nat) : Walks s root fuel := by
  induction fuel with
  | zero => exact fun o c k _ hlt => (Nat.not_lt_zero _ hlt).elim
  | succ fuel ih =>
    intro o i k ho hlt
    have hfuel : i ≤ fuel := Nat.le_of_lt_succ hlt
    obtain ⟨node, hnode⟩ := exists_get?_of_lt (t.lt_size ho.below_root)
    have hform : s.form? (some i) = some node.form := by rw [form?, hnode, Option.map_some]
    cases hn : node.form with
    | functionDeclaration f => exact ih.functionDeclaration t h ho hfuel (hn ▸ hform)
    | functionExpression f => exact ih.functionExpression t h ho hfuel (hn ▸ hform)
    | arrow f => exact ih.arrow t h ho hfuel (hn ▸ hform)
    | method f => exact ih.method t h ho hfuel (hn ▸ hform)
    | classDeclaration c => exact ih.classDeclaration t h ho hfuel (hn ▸ hform)
    | catchClause target body => exact ih.catchClause t h ho hfuel (hn ▸ hform)
    | declarationList list => exact ih.declarationList t h ho hfuel (hn ▸ hform)
    | _ =>
      rw [hn] at hform
      unfold collect
      rw [hform]
      refine ih.children t h ho hform rfl hfuel (pure ()) (Q := fun _ => True)
        (fun _ _ _ _ => trivial) (.pure fun _ _ => trivial) fun b _ _ => ?_
      exact recorded_of_not_declaring hform rfl

omit t h in
theorem sound_initial : Sound s root ⟨#[⟨none, []⟩], [], #[]⟩ where
  nonempty := Nat.one_pos
  outermost := rfl
  numbers _ _ h := (List.not_mem_nil h).elim
  functions _ _ h := (List.not_mem_nil h).elim
  keys := .nil
  injective _ _ _ h := (List.not_mem_nil h).elim
  around _ _ h := (List.not_mem_nil h).elim
  entries o k x β hk hx := by
    rcases hk with ⟨-, rfl⟩ | hk
    · exact (List.not_mem_nil hx).elim
    · exact (List.not_mem_nil hk).elim
  vars i v hv := by cases hv

include t h in
theorem sound_bindings : Sound s root (bindings s root) ∧
    ∀ m, s.Below root m → Recorded s root m (bindings s root) := by
  have hlt : root < s.size + 1 := Nat.lt_succ_of_lt t.root_lt
  obtain ⟨hsound, -, -, hrecorded⟩ := walks t h (s.size + 1) root root 0 .root hlt _ sound_initial
    (.inl ⟨rfl, rfl⟩) fun _ _ _ => List.not_mem_nil
  exact ⟨hsound, hrecorded⟩

end

end Modernizer.Scope
