import Modernizer.Proofs.Scope.Collected
import Modernizer.Proofs.Scope.Position

/-! The references that are found in a program. The use of a node is handed down to it together with
its scope and the function declarations around it (`Visit`), and a visit goes on to the parts of a node
(`references_succ`). So what is found is what the program mentions, each with what is true of it. -/

namespace Modernizer

namespace Form

open Scope (Use)

/-- The parts that are visited in the scope around a node, with their use. -/
def outside (s : Store) (use : Use) : Form → List (Slot × Use)
  | functionDeclaration _ | functionExpression _ | arrow _ => []
  | method m => [(Scope.computed s m.name, .read)]
  | classDeclaration c | classExpression c => (c.heritage, .read) :: c.members.nodes.map (·, .read)
  | declaration target e | parameter target e _ | catchClause target e =>
    [(target, .bind), (e, .read)]
  | prefixUnary operator e | postfixUnary e operator =>
    [(e, if Scope.isUpdate operator then .write else .read)]
  | forInStatement target e body | forOfStatement target e body =>
    [(e, .read), (target, if Scope.isDeclarationList s target then .read else .write), (body, .read)]
  | shorthandProperty name default => [(name, use), (default, .read)]
  | binary left operator right =>
    [(left, if !operator.isAssignment then .read else if use == .bind then .bind else .write),
      (right, .read)]
  | property name value =>
    if use == .read then [(name, .read), (value, .read)]
    else [(Scope.computed s name, .read), (value, use)]
  | object list | array list => (Store.present list.nodes).map (some ·, use)
  | spread e | parenthesized e => (Store.present [e]).map (some ·, use)
  | form => form.children.map (some ·, .read)

/-- The parts that are visited in the scope of a function, with their use. -/
def inside : Form → List (Slot × Use)
  | functionDeclaration f | functionExpression f =>
    f.parameters.nodes.map (·, .bind) ++ [(f.body, .read)]
  | method m => m.parameters.nodes.map (·, .bind) ++ [(m.body, .read)]
  | arrow a => a.parameters.nodes.map (·, .bind) ++ [(a.body, .read)]
  | _ => []

end Form

namespace Scope

open Store

variable {s : Store} {b : Bindings} {root c g i n o p r : NodeId} {x : String} {form : Form}
  {j k fuel : Nat} {use u : Use} {enclosing : List (NodeId × Nat)} {ref : Reference}

/-- The reference that a node is itself. -/
def ownReference (s : Store) (n : NodeId) (k : Nat) (use : Use) (enclosing : List (NodeId × Nat)) :
    Form → List Reference
  | .identifier name =>
    if use ≠ .bind && s.isReference (some n) then [⟨n, name, k, use == .write, enclosing⟩] else []
  | _ => []

/-- The function declarations around what is inside of a node. -/
def enter (n : NodeId) (k : Nat) (enclosing : List (NodeId × Nat)) : Form → List (NodeId × Nat)
  | .functionDeclaration _ => enclosing ++ [(n, k)]
  | _ => enclosing

/-- A visit finds the node itself and goes on outside and inside of it. -/
theorem references_succ (hform : s.form? (some n) = some form) :
    references s b (fuel + 1) (some n) k use enclosing =
      ownReference s n k use enclosing form ++
      (form.outside s use).flatMap (fun v => references s b fuel v.1 k v.2 enclosing) ++
      form.inside.flatMap fun v =>
        references s b fuel v.1 ((b.scopeOf.lookup n).getD k) v.2 (enter n k enclosing form) := by
  conv_lhs => unfold references
  rw [hform]
  cases form with
  | property name value =>
    by_cases huse : use = .read <;> simp [ownReference, Form.outside, Form.inside, huse]
  | _ =>
    simp [ownReference, Form.outside, Form.inside, enter, List.flatMap_map, Form.children, Form.slots,
      present]

/-- A child that is visited in the scope around its holder, with its use. -/
structure Visited (s : Store) (form : Form) (use : Use) (c : NodeId) (u : Use) : Prop where
  slot : some c ∈ form.slots
  notInner : some c ∉ form.inner
  unnamed : form.ownName ≠ some c
  use : u = form.useOf s use (some c)

theorem useOf_eq_read {e : Slot} (h : e ∉ form.targets ++ form.written s ++ form.passed) :
    form.useOf s use e = .read := by
  simp only [List.mem_append, not_or] at h
  simp [Form.useOf, h]

theorem useOf_eq_self {e : Slot} (htargets : form.targets = []) (hwritten : form.written s = [])
    (h : e ∈ form.passed) : form.useOf s use e = use := by
  simp [Form.useOf, htargets, hwritten, h]

section

variable {a : Slot} {l : List Slot} {v : Use} (hnodup : (present form.slots).Nodup)
  (hslots : form.slots = a :: l)

include hnodup hslots

theorem visited_key (hname : form.ownName = none) (ha : a = some c)
    (hothers : form.inner ++ (form.targets ++ form.written s ++ form.passed) ⊆ l) :
    Visited s form use c .read := by
  subst ha
  rw [hslots] at hnodup
  have hout : some c ∉ form.inner ++ (form.targets ++ form.written s ++ form.passed) :=
    fun hc => not_head_of_nodup hnodup (hothers hc) rfl
  rw [List.mem_append, not_or] at hout
  exact ⟨hslots ▸ List.mem_cons_self, hout.1, by simp [hname], (useOf_eq_read hout.2).symm⟩

theorem visited_head (hinner : form.inner = []) (hname : form.ownName = none)
    (hothers : form.targets ++ form.written s ++ form.passed ⊆ [a])
    (hhead : form.useOf s use a = v) (hc : (some c, u) ∈ (a, v) :: l.map (·, Use.read)) :
    Visited s form use c u := by
  rcases List.mem_cons.1 hc with h | h
  · obtain ⟨rfl, rfl⟩ := Prod.mk.inj h
    exact ⟨hslots ▸ List.mem_cons_self, by simp [hinner], by simp [hname], hhead.symm⟩
  · obtain ⟨e, he, h⟩ := List.mem_map.1 h
    obtain ⟨rfl, rfl⟩ := Prod.mk.inj h
    refine ⟨hslots ▸ List.mem_cons_of_mem _ he, by simp [hinner], by simp [hname], ?_⟩
    refine (useOf_eq_read fun hc => ?_).symm
    rw [hslots] at hnodup
    exact not_head_of_nodup hnodup he (List.mem_singleton.1 (hothers hc))

theorem visited_named (hinner : form.inner = []) (hname : form.ownName = a)
    (hothers : form.targets ++ form.written s ++ form.passed = [])
    (hc : (some c, u) ∈ l.map (·, Use.read)) : Visited s form use c u := by
  obtain ⟨e, he, h⟩ := List.mem_map.1 hc
  obtain ⟨rfl, rfl⟩ := Prod.mk.inj h
  rw [hslots] at hnodup
  refine ⟨hslots ▸ List.mem_cons_of_mem _ he, by simp [hinner], ?_, ?_⟩
  · rw [hname]
    exact (not_head_of_nodup hnodup he).symm
  · exact (useOf_eq_read (by rw [hothers]; exact List.not_mem_nil)).symm

end

theorem visited_all {v : Use} (hinner : form.inner = []) (hname : form.ownName = none)
    (huse : ∀ e ∈ form.slots, form.useOf s use e = v)
    (hc : (some c, u) ∈ (present form.slots).map (some ·, v)) : Visited s form use c u := by
  obtain ⟨d, hd, h⟩ := List.mem_map.1 hc
  cases h
  have hslot : some c ∈ form.slots := mem_present.1 hd
  exact ⟨hslot, by simp [hinner], by simp [hname], (huse _ hslot).symm⟩

/-- What is visited outside is a child, or the expression of a computed key. -/
theorem mem_outside (hnodup : (present form.slots).Nodup) (hc : (some c, u) ∈ form.outside s use) :
    Visited s form use c u ∨ ∃ m, Visited s form use m .read ∧ form.key = some m ∧
      computed s (some m) = some c ∧ u = .read := by
  have hcomputed : ∀ {m : Slot}, (some c, u) = (computed s m, .read) →
      ∃ n, m = some n ∧ computed s (some n) = some c ∧ u = .read := by
    intro m h
    obtain ⟨hm, hu⟩ := Prod.mk.inj h
    cases m with
    | none => cases hm
    | some n => exact ⟨n, rfl, hm.symm, hu⟩
  cases form with
  | functionDeclaration f | functionExpression f | arrow f => exact (List.not_mem_nil hc).elim
  | method m =>
    obtain ⟨n, hn, hkey, hu⟩ := hcomputed (List.mem_singleton.1 hc)
    refine .inr ⟨n, visited_key hnodup rfl rfl hn ?_, hn, hkey, hu⟩
    simp [Form.inner, Form.targets, Form.parameters, Form.written, Form.passed]
  | classDeclaration f | classExpression f => exact .inl (visited_named hnodup rfl rfl rfl rfl hc)
  | declaration target e | parameter target e isRest | catchClause target e =>
    refine .inl (visited_head hnodup rfl rfl rfl (List.Subset.refl _) ?_ hc)
    simp [Form.useOf, Form.targets]
  | shorthandProperty name default =>
    exact .inl (visited_head hnodup rfl rfl rfl (List.Subset.refl _)
      (useOf_eq_self rfl rfl List.mem_cons_self) hc)
  | binary left operator right =>
    refine .inl (visited_head hnodup rfl rfl rfl ?_ ?_ hc)
    all_goals
      cases hop : operator.isAssignment <;>
        simp [Form.useOf, Form.targets, Form.parameters, Form.written, Form.passed, Form.carried, hop]
  | prefixUnary operator e | postfixUnary e operator =>
    refine .inl (visited_head hnodup rfl rfl rfl ?_ ?_ hc)
    all_goals
      cases hop : isUpdate operator <;>
        simp [Form.useOf, Form.targets, Form.parameters, Form.written, Form.passed, Form.carried, hop]
  | forInStatement target e body | forOfStatement target e body =>
    refine .inl (visited_head hnodup rfl rfl rfl ?_ ?_ ((List.Perm.swap ..).mem_iff.1 hc))
    all_goals
      cases hop : isDeclarationList s target <;>
        simp [Form.useOf, Form.targets, Form.parameters, Form.written, Form.passed, Form.carried, hop]
  | property name value =>
    have hname : ∀ n, name = some n → Visited s (.property name value) use n .read := fun n hn =>
      visited_key hnodup rfl rfl hn (List.Subset.refl _)
    have hvalue : ∀ n, value = some n → Visited s (.property name value) use n use := by
      rintro n rfl
      exact ⟨List.mem_cons_of_mem _ List.mem_cons_self, List.not_mem_nil, by simp [Form.ownName],
        (useOf_eq_self rfl rfl List.mem_cons_self).symm⟩
    by_cases huse : use = .read
    · subst huse
      left
      have hpair : (some c, u) = (name, .read) ∨ (some c, u) = (value, .read) := List.mem_pair.1 hc
      rcases hpair with h | h <;> obtain ⟨he, rfl⟩ := Prod.mk.inj h
      · exact hname c he.symm
      · exact hvalue c he.symm
    · rw [Form.outside, if_neg (by simpa using huse)] at hc
      have hpair : (some c, u) = (computed s name, .read) ∨ (some c, u) = (value, use) :=
        List.mem_pair.1 hc
      rcases hpair with h | h
      · obtain ⟨n, hn, hkey, hu⟩ := hcomputed h
        exact .inr ⟨n, hname n hn, hn, hkey, hu⟩
      · obtain ⟨he, rfl⟩ := Prod.mk.inj h
        exact .inl (hvalue c he.symm)
  | object list | array list | spread e | parenthesized e =>
    exact .inl (visited_all rfl rfl (fun e he => useOf_eq_self rfl rfl he) hc)
  | _ =>
    refine .inl (visited_all (v := .read) rfl rfl (fun e he => ?_) hc)
    simp [Form.useOf, Form.targets, Form.parameters, Form.written, Form.passed]

/-- A child is visited, or it is the name of a function or class, or a key that is no expression. -/
theorem mem_visits (use : Use) (hc : some c ∈ form.slots) :
    some c ∈ (form.outside s use ++ form.inside).map Prod.fst ∨
      (form.ownName = some c ∧ form.plainName = some c) ∨
      form.key = some c ∧ form.plainName = some c ∧
        (computed s (some c), .read) ∈ form.outside s use := by
  cases form with
  | functionDeclaration f | functionExpression f =>
    rcases List.mem_cons.1 hc with h | h
    · exact .inr (.inl ⟨h.symm, h.symm⟩)
    · left
      simpa [Form.outside, Form.inside, Function.comp_def] using h
  | arrow f =>
    left
    simpa [Form.slots, Form.outside, Form.inside, Function.comp_def] using hc
  | method m =>
    rcases List.mem_cons.1 hc with h | h
    · exact .inr (.inr ⟨h.symm, h.symm, by simp [Form.outside, h]⟩)
    · left
      have hin : some c ∈ (Form.inside (.method m)).map Prod.fst := by
        simpa [Form.inside, Function.comp_def] using h
      exact List.map_append ▸ List.mem_append_right _ hin
  | classDeclaration f | classExpression f =>
    rcases List.mem_cons.1 hc with h | h
    · exact .inr (.inl ⟨h.symm, h.symm⟩)
    · left
      simpa [Form.outside, Form.inside, Function.comp_def] using h
  | property name value =>
    rcases List.mem_pair.1 hc with rfl | rfl
    · by_cases huse : use = .read
      · exact .inl (by simp [Form.outside, huse])
      · exact .inr (.inr ⟨rfl, rfl, by simp [Form.outside, huse]⟩)
    · left
      by_cases huse : use = .read <;> simp [Form.outside, huse]
  | forInStatement target e body | forOfStatement target e body =>
    left
    exact (List.Perm.swap ..).mem_iff.1 hc
  | object list | array list =>
    left
    simpa [Form.slots, Form.outside, Form.inside, Function.comp_def] using hc
  | spread e | parenthesized e =>
    left
    obtain rfl := List.mem_singleton.1 hc
    exact List.mem_singleton.2 rfl
  | declaration a e | parameter a e isRest | catchClause a e | shorthandProperty a e
  | binary a operator e | prefixUnary operator e | postfixUnary e operator => exact .inl hc
  | _ =>
    left
    simpa [Form.outside, Form.inside, Form.children, Function.comp_def] using hc

theorem mem_inside (use : Use) (hnodup : (present form.slots).Nodup)
    (hc : (some c, u) ∈ form.inside) :
    some c ∈ form.inner ∧ form.ownName ≠ some c ∧ u = form.useOf s use (some c) := by
  have hfunction : ∀ {ps : List Slot} {body : Slot}, (present (ps ++ [body])).Nodup →
      form.targets = ps → form.written s = [] → form.passed = [] →
      (some c, u) ∈ ps.map (·, Use.bind) ++ [(body, Use.read)] →
      some c ∈ ps ++ [body] ∧ u = form.useOf s use (some c) := by
    intro ps body hnodup htargets hwritten hpassed hc
    rcases List.mem_append.1 hc with h | h
    · obtain ⟨p, hp, h⟩ := List.mem_map.1 h
      obtain ⟨rfl, rfl⟩ := Prod.mk.inj h
      exact ⟨List.mem_append_left _ hp, by simp [Form.useOf, htargets, hp]⟩
    · obtain ⟨rfl, rfl⟩ := Prod.mk.inj (List.mem_singleton.1 h)
      refine ⟨List.mem_append_right _ (List.mem_singleton.2 rfl), (useOf_eq_read ?_).symm⟩
      rw [htargets, hwritten, hpassed, List.append_nil, List.append_nil]
      rw [present_append, List.nodup_append'] at hnodup
      exact fun hp => hnodup.2.2 (mem_present.2 hp) (mem_present.2 (List.mem_singleton.2 rfl))
  have hnamed : ∀ {name : Slot} {l : List Slot}, form.slots = name :: l → form.ownName = name →
      some c ∈ l → form.ownName ≠ some c := by
    intro name l hslots hname hin
    rw [hslots] at hnodup
    rw [hname]
    exact (not_head_of_nodup hnodup hin).symm
  cases form with
  | functionDeclaration f | functionExpression f =>
    have hrest := hnodup.sublist (present_sublist (List.sublist_cons_self ..))
    obtain ⟨hin, hu⟩ := hfunction hrest rfl rfl rfl hc
    exact ⟨hin, hnamed rfl rfl hin, hu⟩
  | method m =>
    have hrest := hnodup.sublist (present_sublist (List.sublist_cons_self ..))
    obtain ⟨hin, hu⟩ := hfunction hrest rfl rfl rfl hc
    exact ⟨hin, by simp [Form.ownName], hu⟩
  | arrow f =>
    obtain ⟨hin, hu⟩ := hfunction hnodup rfl rfl rfl hc
    exact ⟨hin, by simp [Form.ownName], hu⟩
  | _ => exact (List.not_mem_nil hc).elim

/-- The function declaration has the node inside, and is declared in the scope. -/
def Encloses (s : Store) (b : Bindings) (root g n : NodeId) (j : Nat) : Prop :=
  (∃ f, s.form? (some g) = some (.functionDeclaration f)) ∧ s.StandsIn n g ∧
    ∃ o, s.Owns root o g ∧ b.Numbers root o j

/-- A visit with what it is told of the node. -/
structure Visit (s : Store) (b : Bindings) (root n : NodeId) (k : Nat) (use : Use)
    (enclosing : List (NodeId × Nat)) : Prop where
  owner : ∃ o, s.Owns root o n ∧ b.Numbers root o k
  used : s.Used n use
  enclosing : ∀ g j, (g, j) ∈ enclosing ↔ Encloses s b root g n j
  unnamed : ∀ p form, s.Holds p n → s.form? (some p) = some form → form.ownName ≠ some n

theorem standsIn_iff (h : s.Forest) (hform : s.form? (some n) = some form) (hn : s.Holds n c) :
    s.StandsIn c g ↔ s.StandsIn n g ∨ g = n ∧ some c ∈ form.inner := by
  constructor
  · rintro ⟨form', e, hf, he, hec⟩
    rcases hec.cases_tail with rfl | ⟨p, hep, hpc⟩
    · obtain ⟨rfl, rfl⟩ := h.form_unique hform hn hf (form'.inner_subset he)
      exact .inr ⟨rfl, he⟩
    · obtain rfl := h.holder_unique hpc hn
      exact .inl ⟨form', e, hf, he, hep⟩
  · rintro (hstands | ⟨rfl, hc⟩)
    · exact hstands.trans hn.below
    · exact ⟨form, c, hform, hc, .refl⟩

section

variable (h : s.Forest) (hform : s.form? (some n) = some form) (hv : Visit s b root n k use enclosing)

include h hform hv

theorem Visit.outside (hc : Visited s form use c u) : Visit s b root c k u enclosing := by
  have hn : s.Holds n c := holds_of_form hform hc.slot
  refine ⟨?_, hc.use ▸ used_useOf h hform hn hv.used, fun g j => ?_, fun p form' hp hf => ?_⟩
  · obtain ⟨o, ho, hk⟩ := hv.owner
    exact ⟨o, .past ho hform hc.slot hc.notInner, hk⟩
  · rw [hv.enclosing]
    refine and_congr_right fun _ => and_congr_left fun _ => ?_
    rw [standsIn_iff h hform hn, or_iff_left fun hin => hc.notInner hin.2]
  · obtain rfl := h.holder_unique hp hn
    rw [hform] at hf
    cases hf
    exact hc.unnamed

theorem Visit.inside (t : s.TreeAt root) (hb : Sound s root b) (hopened : ∃ j, (n, j) ∈ b.scopeOf)
    (hinner : some c ∈ form.inner) (hname : form.ownName ≠ some c)
    (huse : u = form.useOf s use (some c)) :
    Visit s b root c ((b.scopeOf.lookup n).getD k) u (enter n k enclosing form) := by
  have hslot := form.inner_subset hinner
  have hn : s.Holds n c := holds_of_form hform hslot
  obtain ⟨o, ho, hk⟩ := hv.owner
  have hscope : b.Numbers root n ((b.scopeOf.lookup n).getD k) := by
    obtain ⟨j, hj⟩ := hopened
    cases hlookup : b.scopeOf.lookup n with
    | none =>
      have hne := List.lookup_eq_none_iff.1 hlookup _ hj
      exact (bne_iff_ne.1 hne rfl).elim
    | some j' =>
      obtain ⟨l₁, l₂, hl, -⟩ := List.lookup_eq_some_iff.1 hlookup
      refine .inr ?_
      rw [hl]
      exact List.mem_append_right _ List.mem_cons_self
  refine ⟨⟨n, .into ho hform hslot hinner, hscope⟩, huse ▸ used_useOf h hform hn hv.used,
    fun g j => ?_, fun p form' hp hf => ?_⟩
  · -- the declaration itself is the only one that is around the child and not around the node
    have hself : Encloses s b root g c j ↔ Encloses s b root g n j ∨
        (∃ f, form = .functionDeclaration f) ∧ g = n ∧ j = k := by
      unfold Encloses
      rw [standsIn_iff h hform hn]
      constructor
      · rintro ⟨hg, hstands | ⟨rfl, -⟩, o', ho', hj⟩
        · exact .inl ⟨hg, hstands, o', ho', hj⟩
        · obtain ⟨f, hf⟩ := hg
          rw [hform] at hf
          obtain rfl := t.nearest_unique ho ho'
          exact .inr ⟨⟨f, Option.some.inj hf⟩, rfl, hb.numbers_unique t.root_form hj hk⟩
      · rintro (⟨hg, hstands, hj⟩ | ⟨⟨f, rfl⟩, rfl, rfl⟩)
        · exact ⟨hg, .inl hstands, hj⟩
        · exact ⟨⟨f, hform⟩, .inr ⟨rfl, hinner⟩, o, ho, hk⟩
    rw [hself, ← hv.enclosing]
    cases form <;> simp [enter]
  · obtain rfl := h.holder_unique hp hn
    rw [hform] at hf
    cases hf
    exact hname

end

/-- A reference with what is true of it. -/
structure Located (s : Store) (b : Bindings) (root : NodeId) (ref : Reference) : Prop where
  mentions : s.Mentions root ref.node ref.name
  scope : ∃ o, s.Owns root o ref.node ∧ b.Numbers root o ref.scope
  isWrite : ref.isWrite = true ↔ s.Writes ref.node
  enclosing : ∀ g j, (g, j) ∈ ref.enclosing ↔ Encloses s b root g ref.node j

theorem isReference_of_held (hheld : ∀ q, s.parent (some r) = some q → s.Holds q r)
    (hfree : ∀ q form, s.parent (some r) = some q → s.form? (some q) = some form →
      some r ∈ form.slots → form.plainName ≠ some r) : s.isReference (some r) = true := by
  have hplain : ∀ form, s.form? (s.parent (some r)) = some form →
      some r ∈ form.slots ∧ form.plainName ≠ some r := by
    intro form hf
    obtain ⟨q, hq, hqf⟩ := exists_of_form? hf
    have hslot : some r ∈ form.slots := by
      simpa [slots, hqf] using holds_iff_mem_slots.1 (hheld q hq)
    exact ⟨hslot, hfree q form hq hqf hslot⟩
  unfold isReference
  split
  · rename_i hf
    exact bne_iff_ne.2 (hplain _ hf).2
  · rename_i hf
    exact bne_iff_ne.2 (hplain _ hf).2
  · rename_i hf
    exact bne_iff_ne.2 (hplain _ hf).2
  · rename_i hf
    exact bne_iff_ne.2 (hplain _ hf).2
  · rename_i hf
    exact ((hplain _ hf).2 (List.mem_singleton.1 (hplain _ hf).1).symm).elim
  · rename_i hf
    exact ((hplain _ hf).2 (List.mem_singleton.1 (hplain _ hf).1).symm).elim
  · rfl

theorem Visit.isReference_iff (h : s.Forest) (hv : Visit s b root n k use enclosing) :
    s.isReference (some n) = true ↔ ∀ p form, s.form? (some p) = some form → some n ∈ form.slots →
      form.plainName ≠ some n := by
  refine ⟨fun href p form hf hslot hplain => ?_, fun hfree =>
    isReference_of_held (fun q hq => (h.linked q n).2 hq) fun q form _ => hfree q form⟩
  have hn := holds_of_form hf hslot
  have hname := hv.unnamed p form hn hf
  unfold isReference at href
  rw [(h.linked p n).1 hn, hf] at href
  cases form <;> simp_all [Form.plainName, Form.ownName]

section

variable (t : s.TreeAt root) (h : s.Forest) (hb : Sound s root b)
  (hrecorded : ∀ m, s.Below root m → Recorded s root m b)

theorem Visit.below (hv : Visit s b root n k use enclosing) : s.Below root n := by
  obtain ⟨o, ho, -⟩ := hv.owner
  exact ho.below_root

include t h hb hrecorded

theorem Visit.step (hv : Visit s b root n k use enclosing) (hform : s.form? (some n) = some form) :
    (∀ c u, (some c, u) ∈ form.outside s use →
      s.Below n c ∧ c < n ∧ Visit s b root c k u enclosing) ∧
    ∀ c u, (some c, u) ∈ form.inside → s.Below n c ∧ c < n ∧
      Visit s b root c ((b.scopeOf.lookup n).getD k) u (enter n k enclosing form) := by
  have hnodup : (present form.slots).Nodup := by
    have hkids := h.nodup n
    rw [Store.children, hform] at hkids
    exact hkids
  have hchild : ∀ {c}, some c ∈ form.slots → s.Below n c ∧ c < n := fun hc =>
    ⟨(holds_of_form hform hc).below, h.lt n _ (holds_of_form hform hc)⟩
  refine ⟨fun c u hc => ?_, fun c u hc => ?_⟩
  · rcases mem_outside hnodup hc with hc | ⟨m, hm, hkey, hcomputed, rfl⟩
    · exact ⟨(hchild hc.slot).1, (hchild hc.slot).2, hv.outside h hform hc⟩
    · -- the expression of a computed key is read like the key
      have hvm := hv.outside h hform hm
      unfold computed at hcomputed
      split at hcomputed
      · rename_i hmform
        subst hcomputed
        have hslot : some c ∈ (Form.computedName (some c)).slots := List.mem_cons_self
        have hheld := holds_of_form hmform hslot
        refine ⟨(hchild hm.slot).1.trans hheld.below, Nat.lt_trans (h.lt m c hheld) (hchild hm.slot).2,
          hvm.outside h hmform ⟨hslot, List.not_mem_nil, by simp [Form.ownName], rfl⟩⟩
      · cases hcomputed
  · obtain ⟨hinner, hname, huse⟩ := mem_inside (s := s) use hnodup hc
    have hlike := form.isFunctionLike_of_inner hinner
    obtain ⟨hbelow, hlt⟩ := hchild (form.inner_subset hinner)
    exact ⟨hbelow, hlt, hv.inside h hform t hb ((hrecorded n hv.below).opened ⟨form, hform, hlike⟩)
      hinner hname huse⟩

theorem located (hv : Visit s b root n k use enclosing)
    (href : ref ∈ references s b fuel (some n) k use enclosing) : Located s b root ref := by
  induction fuel generalizing n k use enclosing with
  | zero => exact (List.not_mem_nil href).elim
  | succ fuel ih =>
    cases hform : s.form? (some n) with
    | none =>
      unfold references at href
      rw [hform] at href
      exact (List.not_mem_nil href).elim
    | some form =>
      obtain ⟨houtside, hinside⟩ := hv.step t h hb hrecorded hform
      rw [references_succ hform, List.mem_append, List.mem_append] at href
      have hvisit : ∀ {v : Slot × Use} {k enclosing}, ref ∈ references s b fuel v.1 k v.2 enclosing →
          (∀ c u, (some c, u) = v → Visit s b root c k u enclosing) → Located s b root ref := by
        rintro ⟨_ | c, u⟩ k enclosing href hv
        · cases fuel <;> exact (List.not_mem_nil href).elim
        · exact ih (hv c u rfl) href
      rcases href with (hown | hout) | hin
      · unfold ownReference at hown
        split at hown
        · split at hown
          · rename_i name huse
            obtain rfl := List.mem_singleton.1 hown
            simp only [Bool.and_eq_true, decide_eq_true_eq] at huse
            refine ⟨⟨hv.below, hform, fun hd => huse.1 ((hv.used.declares_iff h).1 hd),
              (hv.isReference_iff h).1 huse.2⟩, hv.owner, ?_, hv.enclosing⟩
            rw [beq_iff_eq, hv.used.writes_iff h]
          · exact (List.not_mem_nil hown).elim
        · exact (List.not_mem_nil hown).elim
      · obtain ⟨v, hv, href⟩ := List.mem_flatMap.1 hout
        exact hvisit href fun c u he => (houtside c u (he ▸ hv)).2.2
      · obtain ⟨v, hv, href⟩ := List.mem_flatMap.1 hin
        exact hvisit href fun c u he => (hinside c u (he ▸ hv)).2.2

/-- All that is mentioned below a node is found when the fuel is above its number. -/
theorem exists_reference (hv : Visit s b root n k use enclosing) (hfuel : n < fuel)
    (hnr : s.Below n r) (hr : s.Mentions root r x) :
    ∃ ref ∈ references s b fuel (some n) k use enclosing, ref.node = r := by
  induction fuel generalizing n k use enclosing with
  | zero => exact (Nat.not_lt_zero _ hfuel).elim
  | succ fuel ih =>
    obtain ⟨node, hnode⟩ := exists_get?_of_lt (t.lt_size hv.below)
    have hform : s.form? (some n) = some node.form := by rw [form?, hnode, Option.map_some]
    generalize node.form = form at hform
    obtain ⟨houtside, hinside⟩ := hv.step t h hb hrecorded hform
    rw [references_succ hform]
    rcases eq_or_under hform hnr with rfl | ⟨e, hslot, c, rfl, hcr⟩
    · rw [hr.form] at hform
      cases hform
      have huse : use ≠ .bind := fun huse => hr.notDeclared ((hv.used.declares_iff h).2 huse)
      have href : s.isReference (some r) = true := (hv.isReference_iff h).2 hr.notPlain
      refine ⟨⟨r, x, k, use == .write, enclosing⟩,
        List.mem_append_left _ (List.mem_append_left _ ?_), rfl⟩
      rw [ownReference, if_pos (by simp [huse, href])]
      exact List.mem_singleton.2 rfl
    · have hcn : c < n := h.lt n c (holds_of_form hform hslot)
      have hout : ∀ d u, (some d, u) ∈ form.outside s use → s.Below d r → ∃ ref ∈
          ownReference s n k use enclosing form ++
            (form.outside s use).flatMap (fun v => references s b fuel v.1 k v.2 enclosing) ++
            form.inside.flatMap fun v => references s b fuel v.1 ((b.scopeOf.lookup n).getD k) v.2
              (enter n k enclosing form), ref.node = r := by
        intro d u hd hdr
        obtain ⟨-, hlt, hvd⟩ := houtside d u hd
        obtain ⟨ref, href, hnode⟩ := ih hvd (Nat.lt_of_lt_of_le hlt (Nat.le_of_lt_succ hfuel)) hdr
        exact ⟨ref, List.mem_append_left _ (List.mem_append_right _
          (List.mem_flatMap.2 ⟨_, hd, href⟩)), hnode⟩
      rcases mem_visits (s := s) use hslot with hin | ⟨hname, hplain⟩ | ⟨hkey, hplain, hin⟩
      · obtain ⟨⟨_, u⟩, hin, rfl⟩ := List.mem_map.1 hin
        rcases List.mem_append.1 hin with hin | hin
        · exact hout c u hin hcr
        · obtain ⟨-, hlt, hvc⟩ := hinside c u hin
          obtain ⟨ref, href, hnode⟩ := ih hvc (Nat.lt_of_lt_of_le hlt (Nat.le_of_lt_succ hfuel)) hcr
          exact ⟨ref, List.mem_append_right _ (List.mem_flatMap.2 ⟨_, hin, href⟩), hnode⟩
      · -- a name is an identifier, which is no reference
        obtain ⟨_, hcf, y, rfl⟩ := (h.shaped n form hform).named c hname
        rcases eq_or_under hcf hcr with rfl | ⟨e, he, -⟩
        · exact (hr.notPlain n form hform hslot hplain).elim
        · exact (List.not_mem_nil he).elim
      · -- of a key only the expression is visited
        obtain ⟨key, hcf, hkind⟩ := (h.shaped n form hform).keyed c hkey
        rcases eq_or_under hcf hcr with rfl | ⟨e, he, d, rfl, hdr⟩
        · exact (hr.notPlain n form hform hslot hplain).elim
        rcases hkind with hleaf | ⟨e, rfl⟩
        · have hd : d ∈ key.children := mem_present.2 he
          rw [hleaf] at hd
          exact (List.not_mem_nil hd).elim
        · obtain rfl := List.mem_singleton.1 he
          rw [computed, hcf] at hin
          exact hout d .read hin hdr

end

theorem visit_root (t : s.TreeAt root) (h : s.Forest) (hb : b.Numbers root root 0) :
    Visit s b root root 0 .read [] := by
  have hfree : ∀ p, ¬ s.Holds p root := by
    intro p hp
    have hparent := (h.linked p root).1 hp
    rw [t.root_parent] at hparent
    cases hparent
  refine ⟨⟨root, .root, hb⟩, t.used_root h, fun g j => ?_, fun p form hp => (hfree p hp).elim⟩
  refine iff_of_false List.not_mem_nil ?_
  rintro ⟨-, ⟨form, e, hf, he, her⟩, o, ho, -⟩
  have hg := holds_of_form hf (form.inner_subset he)
  exact t.not_below_holder ho.below_root hg (her.trans ho.below_root)

section

variable (t : s.TreeAt root) (h : s.Forest)

include t h

theorem located_of_mem (href : ref ∈ programReferences s (bindings s root) root) :
    Located s (bindings s root) root ref :=
  located t h (sound_bindings t h).1 (sound_bindings t h).2 (visit_root t h (.inl ⟨rfl, rfl⟩)) href

theorem exists_of_mentions (hr : s.Mentions root r x) :
    ∃ ref ∈ programReferences s (bindings s root) root, ref.node = r :=
  exists_reference t h (sound_bindings t h).1 (sound_bindings t h).2
    (visit_root t h (.inl ⟨rfl, rfl⟩)) (Nat.lt_succ_of_lt t.root_lt) hr.below hr

theorem found_of_refers (hr : s.Refers root r x) :
    ∃ ref ∈ programReferences s (bindings s root) root, ref.node = r ∧ ref.name = x ∧
      (∃ o, s.Owns root o r ∧ (bindings s root).Numbers root o ref.scope) ∧
      (s.Assigned r → ref.isWrite = true) := by
  have hmentions := hr.mentions h
  obtain ⟨ref, href, rfl⟩ := exists_of_mentions t h hmentions
  have hlocated := located_of_mem t h href
  have hname : ref.name = x := by
    have hform := hlocated.mentions.form
    rw [hr.form] at hform
    cases hform
    rfl
  refine ⟨ref, href, rfl, hname, hlocated.scope, fun ha => hlocated.isWrite.2 ?_⟩
  exact ha.writes_or_declares.resolve_right hmentions.notDeclared

end

end Scope
end Modernizer
