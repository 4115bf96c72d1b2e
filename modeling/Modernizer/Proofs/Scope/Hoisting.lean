import Modernizer.Proofs.Scope.Deciding

/-! Hoisted functions and the variables that they reach. A function reaches a variable through the
functions that it refers to, the last of which reads it. None of them must run before the variable is
declared. The verdict looks at the readers only: it sees a function that is mentioned too early if the
reader that it reaches is so as well (`unsafe_of_reaches`), and no further (`verdict_of_chain`). -/

namespace Modernizer

namespace Store

variable (s : Store) (root : NodeId)

/-- The function reaches the variable by references to functions, the last of which is the reader. -/
inductive Reaches (f : NodeId) (x : String) (reader : NodeId) : NodeId → Prop where
  | reads {r} : s.RefersTo root f x r → s.StandsIn r reader → Reaches f x reader reader
  | calls {g g' y r} : s.Hoists root f g' y → s.RefersTo root f y r → s.StandsIn r g →
      Reaches f x reader g' → Reaches f x reader g

/-- The function is hoisted, and a reference to it stands before the end of the declarator. -/
def MentionedBefore (f d g : NodeId) : Prop :=
  ∃ y r, s.Hoists root f g y ∧ s.RefersTo root f y r ∧ s.posOf (some r) < s.endOf d

variable {s root} {f g reader : NodeId} {x : String}

theorem Reaches.exists_read (h : s.Reaches root f x reader g) :
    ∃ r, s.RefersTo root f x r ∧ s.StandsIn r reader := by
  induction h with
  | reads hr hin => exact ⟨_, hr, hin⟩
  | calls _ _ _ _ ih => exact ih

end Store

namespace Scope.Analysis

variable {p : Program} (t : p.store.TreeAt p.root) (h : p.store.Forest) {R : Resolved} {f g : NodeId}

include t h

theorem refersTo_of_function (hR : R ∈ (ofProgram p).resolved) (hin : .function g ∈ R.bindings)
    (hf : p.store.Owns p.root f g) : p.store.Hoists p.root f g R.reference.name ∧
      p.store.RefersTo p.root f R.reference.name R.reference.node := by
  obtain ⟨ref, href, rfl⟩ := mem_resolved.1 hR
  have hlocated := located_of_mem t h href
  obtain ⟨f', y, hg, hr⟩ := (function_mem_lookup_iff t h hlocated).1 hin
  obtain rfl := t.nearest_unique hf hg.1
  obtain rfl : y = ref.name := by
    have hname := hr.mentions.form
    rw [hlocated.mentions.form] at hname
    cases hname
    rfl
  exact ⟨hg, hr⟩

theorem refersTo_of_variable {i : Nat} {v : VarBinding} (hR : R ∈ (ofProgram p).resolved)
    (hin : .variable_ i ∈ R.bindings) (hv : (Scope.bindings p.store p.root).vars[i]? = some v)
    (hf : p.store.Owns p.root f v.list) : p.store.RefersTo p.root f v.name R.reference.node := by
  obtain ⟨o, m, k, hk, henters, -⟩ := (sound_bindings t h).1.vars i v hv
  have hto : R.reference ∈ (ofProgram p).referencesTo i :=
    List.mem_map.2 ⟨R, List.mem_filter.2 ⟨hR, List.contains_iff_mem.2 hin⟩, rfl⟩
  have hr := ((mem_referencesTo_iff t h hk henters).1 hto).2
  obtain ⟨ho, d, target, initializer, -, -, -, hi⟩ := henters
  obtain rfl : v.list = m := congrArg VarBinding.list (Option.some.inj (hv.symm.trans hi))
  exact t.nearest_unique hf ho ▸ hr

theorem standsIn_of_enclosing {j : Nat} (hR : R ∈ (ofProgram p).resolved)
    (hg : (g, j) ∈ R.reference.enclosing) : p.store.StandsIn R.reference.node g := by
  obtain ⟨ref, href, rfl⟩ := mem_resolved.1 hR
  exact (((located_of_mem t h href).enclosing g j).1 hg).2.1

variable {reader g' : NodeId} {x : String} {j : Nat}

theorem reaches_of_read {i : Nat} {v : VarBinding} (hR : R ∈ (ofProgram p).resolved)
    (hin : .variable_ i ∈ R.bindings) (hv : (Scope.bindings p.store p.root).vars[i]? = some v)
    (hf : p.store.Owns p.root f v.list) (hg : (g, j) ∈ R.reference.enclosing) :
    p.store.Reaches p.root f v.name g g :=
  .reads (refersTo_of_variable t h hR hin hv hf) (standsIn_of_enclosing t h hR hg)

theorem reaches_of_call (hR : R ∈ (ofProgram p).resolved) (hin : .function g' ∈ R.bindings)
    (hf : p.store.Owns p.root f g') (hg : (g, j) ∈ R.reference.enclosing)
    (hreaches : p.store.Reaches p.root f x reader g') :
    p.store.Reaches p.root f x reader g := by
  obtain ⟨hg', hr⟩ := refersTo_of_function t h hR hin hf
  exact .calls hg' hr (standsIn_of_enclosing t h hR hg) hreaches

theorem mentionedBefore_of_resolved {d : NodeId} (hR : R ∈ (ofProgram p).resolved)
    (hin : .function g ∈ R.bindings) (hf : p.store.Owns p.root f g)
    (hlt : p.store.posOf (some R.reference.node) < p.store.endOf d) :
    p.store.MentionedBefore p.root f d g := by
  obtain ⟨hg, hr⟩ := refersTo_of_function t h hR hin hf
  exact ⟨_, _, hg, hr, hlt⟩

end Scope.Analysis

/-- A list is unsafe if a function that reaches one of its names is mentioned before the end of the
declarator, and the reader that it reaches is that function or mentioned before as well. -/
theorem unsafe_of_reaches {source : Text} {p : Program} {l d t f g reader : NodeId} {x : String}
    {w : Scope.Verdict} (h : parse source = .ok p)
    (hw : Scope.verdict? (Scope.Analysis.ofProgram p).nameVerdicts l = some w)
    (hf : p.store.Owns p.root f l) (hd : p.store.Declarator l .varKind d t) (hx : p.store.Names t x)
    (hg : p.store.MentionedBefore p.root f d g) (hreaches : p.store.Reaches p.root f x reader g)
    (hreader : reader = g ∨ p.store.MentionedBefore p.root f d reader) : w = .unsafe_ := by
  by_contra hsafe
  obtain ⟨y, r, hhoists, hr, hearly⟩ : p.store.MentionedBefore p.root f d reader :=
    hreader.elim (fun e => e ▸ hg) id
  obtain ⟨q, hq, hin⟩ := hreaches.exists_read
  obtain ⟨v, hv, hdecides⟩ :=
    Scope.Analysis.exists_decides (treeAt_of_parse h) (grows_of_parse h).1.forest hf hd hx
  have hname := Scope.forall_of_verdict? (P := (· ≠ .unsafe_))
    (fun _ _ => Scope.Verdict.meet_ne_unsafe) hw hsafe hv
  have hlate := (hdecides.safe.1 hname).uncalled q reader y r hq hhoists hin hr
  exact Nat.not_lt.2 hlate hearly

theorem unsafe_of_reaches_chain :
    let source := "f(); function f() { g(); } function g() { v; } var v = 1;".toList
    ∃ p, parse source = .ok p ∧
      Scope.verdict? (Scope.Analysis.ofProgram p).nameVerdicts 17 = some .unsafe_ ∧
      p.store.MentionedBefore p.root p.root 16 8 ∧ p.store.Reaches p.root p.root "v" 13 8 ∧
      p.store.MentionedBefore p.root p.root 16 13 := by
  intro source
  have hscopes : ∃ p ∈ (parse source).toOption,
      (Scope.Analysis.ofProgram p).resolved = [⟨⟨0, "f", 0, false, []⟩, [.function 8]⟩,
        ⟨⟨4, "g", 1, false, [(8, 0)]⟩, [.function 13]⟩,
        ⟨⟨10, "v", 2, false, [(13, 0)]⟩, [.variable_ 0]⟩] ∧
      (∃ v ∈ (Scope.bindings p.store p.root).vars[0]?, v.list = 17 ∧ v.name = "v") ∧
      (∀ n ∈ [8, 13, 17], p.store.nearest? p.root Form.inner n = some p.root) ∧
      (p.store.form? (some 17) =
        some (.declarationList ⟨.varKind, ⟨[some 16], 51, 56⟩, .varKind⟩) ∧
      p.store.form? (some 16) = some (.declaration (some 14) (some 15)) ∧
      p.store.form? (some 14) = some (.identifier "v")) ∧
      p.store.posOf (some 0) < p.store.endOf 16 ∧ p.store.posOf (some 4) < p.store.endOf 16 ∧
      (Scope.verdict? (Scope.Analysis.ofProgram p).nameVerdicts 17).isSome = true := by
    decide +kernel
  obtain ⟨p, hp, hresolved, ⟨v, hv, hvlist, hvname⟩, howner, ⟨hlist, hdeclaration, htarget⟩, hearly,
    hcallEarly, hsome⟩ := exists_parse hscopes
  obtain ⟨w, hw⟩ := Option.isSome_iff_exists.1 hsome
  have tree := treeAt_of_parse hp
  have forest := (grows_of_parse hp).1.forest
  have howns : ∀ n ∈ [8, 13, 17], p.store.Owns p.root p.root n := fun n hn =>
    (Store.nearest?_eq_some_iff tree forest).1 (howner n hn)
  have hmem : ∀ R ∈ [_, _, _], R ∈ (Scope.Analysis.ofProgram p).resolved :=
    fun R hR => hresolved ▸ hR
  have hcall := hmem _ (.tail _ List.mem_cons_self)
  have hg : p.store.MentionedBefore p.root p.root 16 8 :=
    Scope.Analysis.mentionedBefore_of_resolved tree forest (hmem _ List.mem_cons_self)
      List.mem_cons_self (howns 8 (by decide)) hearly
  have hreader : p.store.MentionedBefore p.root p.root 16 13 :=
    Scope.Analysis.mentionedBefore_of_resolved tree forest hcall List.mem_cons_self
      (howns 13 (by decide)) hcallEarly
  have hreads : p.store.Reaches p.root p.root "v" 13 13 :=
    hvname ▸ Scope.Analysis.reaches_of_read tree forest
      (hmem _ (.tail _ (.tail _ List.mem_cons_self))) List.mem_cons_self hv
      (hvlist ▸ howns 17 (by decide)) List.mem_cons_self
  have hreaches : p.store.Reaches p.root p.root "v" 13 8 :=
    Scope.Analysis.reaches_of_call tree forest hcall List.mem_cons_self (howns 13 (by decide))
      List.mem_cons_self hreads
  have hunsafe := unsafe_of_reaches hp hw (howns 17 (by decide))
    ⟨_, some 15, hlist, rfl, List.mem_cons_self, hdeclaration⟩ ⟨14, .refl, htarget⟩ hg hreaches
    (.inr hreader)
  exact ⟨p, hp, hunsafe ▸ hw, hg, hreaches, hreader⟩

/-- A function that reaches a variable is missed if it is mentioned before the declaration and the
reader that it calls is not. -/
theorem verdict_of_chain :
    let source := "f(); var v = 1; function f() { g(); } function g() { return v; }".toList
    ∃ p, parse source = .ok p ∧
      Scope.verdict? (Scope.Analysis.ofProgram p).nameVerdicts 6 = some .constSafe ∧
      p.store.Owns p.root p.root 6 ∧ p.store.Declarator 6 .varKind 5 3 ∧ p.store.Names 3 "v" ∧
      p.store.MentionedBefore p.root p.root 5 13 ∧ p.store.Reaches p.root p.root "v" 18 13 := by
  intro source
  have hscopes : ∃ p ∈ (parse source).toOption,
      (Scope.Analysis.ofProgram p).resolved = [⟨⟨0, "f", 0, false, []⟩, [.function 13]⟩,
        ⟨⟨9, "g", 1, false, [(13, 0)]⟩, [.function 18]⟩,
        ⟨⟨15, "v", 2, false, [(18, 0)]⟩, [.variable_ 0]⟩] ∧
      (∃ v ∈ (Scope.bindings p.store p.root).vars[0]?, v.list = 6 ∧ v.name = "v") ∧
      (∀ n ∈ [6, 13, 18], p.store.nearest? p.root Form.inner n = some p.root) ∧
      (p.store.form? (some 6) = some (.declarationList ⟨.varKind, ⟨[some 5], 9, 14⟩, .varKind⟩) ∧
      p.store.form? (some 5) = some (.declaration (some 3) (some 4)) ∧
      p.store.form? (some 3) = some (.identifier "v")) ∧
      p.store.posOf (some 0) < p.store.endOf 5 ∧
      Scope.verdict? (Scope.Analysis.ofProgram p).nameVerdicts 6 = some .constSafe := by
    decide +kernel
  obtain ⟨p, hp, hresolved, ⟨v, hv, hvlist, hvname⟩, howner, ⟨hlist, hdeclaration, htarget⟩, hearly,
    hverdict⟩ := exists_parse hscopes
  have tree := treeAt_of_parse hp
  have forest := (grows_of_parse hp).1.forest
  have howns : ∀ n ∈ [6, 13, 18], p.store.Owns p.root p.root n := fun n hn =>
    (Store.nearest?_eq_some_iff tree forest).1 (howner n hn)
  have hmem : ∀ R ∈ [_, _, _], R ∈ (Scope.Analysis.ofProgram p).resolved :=
    fun R hR => hresolved ▸ hR
  have hreads : p.store.Reaches p.root p.root "v" 18 18 :=
    hvname ▸ Scope.Analysis.reaches_of_read tree forest
      (hmem _ (.tail _ (.tail _ List.mem_cons_self))) List.mem_cons_self hv
      (hvlist ▸ howns 6 (by decide)) List.mem_cons_self
  refine ⟨p, hp, hverdict, howns 6 (by decide),
    ⟨_, some 4, hlist, rfl, List.mem_cons_self, hdeclaration⟩, ⟨3, .refl, htarget⟩, ?_, ?_⟩
  · exact Scope.Analysis.mentionedBefore_of_resolved tree forest (hmem _ List.mem_cons_self)
      List.mem_cons_self (howns 13 (by decide)) hearly
  · exact Scope.Analysis.reaches_of_call tree forest (hmem _ (.tail _ List.mem_cons_self))
      List.mem_cons_self (howns 18 (by decide)) List.mem_cons_self hreads

end Modernizer
