import Modernizer.Proofs.Parser.Program
import Modernizer.Proofs.Scope.Referring
import Modernizer.Proofs.Scope.Resolution
import Modernizer.Scope.Verdict

/-! What a verdict promises. Names are looked up from a function to the one around it, so a variable
is found unless a block or handler of a function on the way declares the name (`mem_lookup`). A list
is only `let` when all references that are found stand where a `let` is visible, and only `const`
when none of them is written (`verdict_sound`). -/

namespace Modernizer

namespace Store

variable {s : Store} {root c f g i l n r : NodeId} {x : String}

theorem StandsIn.sees (h : s.StandsIn r g) : s.Sees g r := by
  obtain ⟨form, e, hf, he, her⟩ := h
  exact ⟨form, e, hf, Form.scopeParts_of_inner he ▸ he, her⟩

namespace Forest

variable (h : s.Forest)

include h

theorem heldBy_of_declaringBlock? (hc : Scope.declaringBlock? s (some l) = some c) :
    s.HeldBy l c := by
  unfold Scope.declaringBlock? at hc
  dsimp only at hc
  split at hc
  · rename_i e hstatement
    obtain ⟨i, hi, hform⟩ := exists_of_form? hstatement
    rw [hi] at hc
    split at hc
    · rename_i hlist
      rw [hc] at hlist
      have hheld := holds_iff_mem_slots.1 ((h.linked i l).2 hi)
      rw [slots, hform] at hheld
      obtain rfl := List.mem_singleton.1 hheld
      cases hcontainer : s.form? (some c) with
      | none => simp [hcontainer] at hlist
      | some form =>
        exact .statement hform ((h.linked c i).2 hc) hcontainer (by simpa [hcontainer] using hlist)
    · cases hc
  · split at hc
    · rename_i hhead
      rw [hc] at hhead
      exact .head ((h.linked c l).2 hc) hhead
    · cases hc
  · cases hc

theorem declaringBlock?_iff : Scope.declaringBlock? s (some l) = some c ↔ s.HeldBy l c := by
  refine ⟨h.heldBy_of_declaringBlock?, ?_⟩
  rintro (⟨hi, hc, hcontainer, hlist⟩ | ⟨hc, hhead⟩)
  · have hparent := (h.linked _ l).1 (holds_of_form hi List.mem_cons_self)
    have hcontainerOf := (h.linked c _).1 hc
    simp [Scope.declaringBlock?, hparent, hi, hcontainerOf, hcontainer, hlist]
  · have hparent := (h.linked c l).1 hc
    have hform : ∀ e, s.form? (some c) ≠ some (.variableStatement e) := by
      intro e he
      simp [Scope.isLoopHead, he] at hhead
    unfold Scope.declaringBlock?
    rw [hparent]
    dsimp only
    split
    · rename_i hstatement
      exact (hform _ hstatement).elim
    · rw [if_pos hhead]
    · rename_i hnone
      simp [Scope.isLoopHead, hnone] at hhead

end Forest
end Store

namespace Scope

open Store

variable {s : Store} {b : Bindings} {root c f i l n o r : NodeId} {j k fuel : Nat} {x : String}
  {β : Binding}

section lookup

theorem mem_lookup_of_table (hx : (x, β) ∈ b.table k) :
    β ∈ Bindings.lookup.go b x (fuel + 1) k := by
  unfold Bindings.table at hx
  unfold Bindings.lookup.go
  cases hscope : b.scopes[k]? with
  | none => simp [hscope] at hx
  | some scope =>
    rw [hscope] at hx
    have hmem : (x, β) ∈ scope.bindings.filter (·.1 == x) :=
      List.mem_filter.2 ⟨hx, beq_self_eq_true x⟩
    dsimp only
    split
    · rename_i hnone
      rw [hnone] at hmem
      exact (List.not_mem_nil hmem).elim
    · exact List.mem_map.2 ⟨_, hmem, rfl⟩

theorem lookup_of_around (hx : ∀ β, (x, β) ∉ b.table k) (hj : b.around k = some j) :
    Bindings.lookup.go b x (fuel + 1) k = Bindings.lookup.go b x fuel j := by
  unfold Bindings.table at hx
  unfold Bindings.around at hj
  conv_lhs => unfold Bindings.lookup.go
  cases hscope : b.scopes[k]? with
  | none => simp [hscope] at hj
  | some scope =>
    rw [hscope] at hx hj
    have hnone : scope.bindings.filter (·.1 == x) = [] := by
      refine List.filter_eq_nil_iff.2 fun p hp heq => hx p.2 ?_
      rw [← beq_iff_eq.1 heq]
      exact hp
    have hparent : scope.parent = some j := hj
    dsimp only
    rw [hnone, hparent]
    rfl

variable (t : s.TreeAt root) (hb : Sound s root b) (hres : s.Resolves root r x f)
  (hclear : ¬ s.Hidden root f r x)

include t hb hres hclear

theorem not_mem_table (hfo : s.Below f o) (hne : o ≠ f) (hin : s.StandsIn r o)
    (hroot : s.Below root f) (hk : b.Numbers root o k) : (x, β) ∉ b.table k := by
  intro hmem
  have hbinds : ¬ s.Binds root o x := fun hx =>
    hne (t.below_antisymm hroot hfo (hres.innermost o hx hin.sees)).symm
  have hinside : ¬ s.DeclaresInside root o x := fun hx => hclear ⟨o, hfo, hne, hin, hx⟩
  obtain ⟨m, henters | ⟨i, rfl, ho, d, e, initializer, hd, hx, -⟩⟩ := hb.entries o k x β hk hmem
  · cases henters with
    | parameter hform he hx => exact hbinds (.parameter hform he hx)
    | itself hform hx => exact hbinds (.itself hform hx)
    | function ho hform hx => exact hbinds (.function ho hform hx)
    | block ho hx => exact hinside ⟨m, ho, .inl hx⟩
    | handler ho hx => exact hinside ⟨m, ho, .inr hx⟩
  · exact hbinds (.variable_ ho hd hx)

/-- The induction goes outwards: from the scope of the reference to that of the variable, every
function stands in the latter and has the reference in it. -/
theorem mem_lookup (hf : s.Owns root f l) (hj : b.Numbers root f j) (hx : (x, β) ∈ b.table j)
    (ho : s.Owns root o r) (hk : b.Numbers root o k) : β ∈ b.lookup x k := by
  have hroot := hf.isBelow.1
  have hsees := hres.sees.eq_or_standsIn hf
  have hgo : ∀ fuel o k, s.Below root o → s.Below f o → o = root ∨ s.StandsIn r o →
      b.Numbers root o k → k < fuel → β ∈ Bindings.lookup.go b x fuel k := by
    intro fuel
    induction fuel with
    | zero => exact fun o k _ _ _ _ hlt => (Nat.not_lt_zero _ hlt).elim
    | succ fuel ih =>
      intro o k hro hfo hin hk hlt
      by_cases hne : o = f
      · subst hne
        rw [hb.numbers_unique t.root_form hk hj]
        exact mem_lookup_of_table hx
      have hnotRoot : o ≠ root := by
        rintro rfl
        exact hne (t.below_antisymm .refl hroot hfo)
      have hin := hin.resolve_left hnotRoot
      obtain ⟨o', j', ho', hj', hlt', haround⟩ := hb.around o k (hk.resolve_left (hnotRoot ·.1))
      rw [lookup_of_around (fun β => not_mem_table t hb hres hclear hfo hne hin hroot hk) haround]
      refine ih o' j' ho'.isBelow.1 ?_ ?_ hj' (Nat.lt_of_lt_of_le hlt' (Nat.le_of_lt_succ hlt))
      · rcases hsees with rfl | hstands
        · exact ho'.isBelow.1
        · exact t.below_owner hroot (t.standsIn_between hroot hstands hfo hne hin.below) ho'
      · exact ho'.eq_or_standsIn.imp_right (·.trans hin.below)
  refine hgo _ o k ho.isBelow.1 ?_ ho.eq_or_standsIn hk (Nat.lt_succ_of_lt (hb.lt_size hk))
  rcases hsees with rfl | hstands
  · exact ho.isBelow.1
  · exact t.below_owner hroot hstands ho

end lookup

namespace Verdict

theorem meet_ne_unsafe {v w : Verdict} (h : v.meet w ≠ .unsafe_) : v ≠ .unsafe_ ∧ w ≠ .unsafe_ := by
  cases v <;> cases w <;> revert h <;> decide

theorem meet_eq_const {v w : Verdict} (h : v.meet w = .constSafe) :
    v = .constSafe ∧ w = .constSafe := by
  cases v <;> cases w <;> revert h <;> decide

theorem forall_of_foldl {P : Verdict → Prop} (hP : ∀ v w, P (v.meet w) → P v ∧ P w) (v : Verdict)
    (vs : List Verdict) (h : P (vs.foldl meet v)) : P v ∧ ∀ w ∈ vs, P w := by
  induction vs generalizing v with
  | nil => exact ⟨h, fun _ hw => (List.not_mem_nil hw).elim⟩
  | cons u vs ih =>
    obtain ⟨hmeet, hrest⟩ := ih _ h
    exact ⟨(hP v u hmeet).1, List.forall_mem_cons.2 ⟨(hP v u hmeet).2, hrest⟩⟩

end Verdict

theorem forall_of_verdict? {P : Verdict → Prop} (hP : ∀ v w, P (v.meet w) → P v ∧ P w)
    {verdicts : List (NodeId × Verdict)} {v w : Verdict} (hw : verdict? verdicts l = some w) (h : P w)
    (hv : (l, v) ∈ verdicts) : P v := by
  have hmem : v ∈ (verdicts.filter (·.1 == l)).map (·.2) :=
    List.mem_map.2 ⟨(l, v), List.mem_filter.2 ⟨hv, beq_self_eq_true l⟩, rfl⟩
  unfold verdict? at hw
  split at hw
  · cases hw
  · rename_i u us hlist
    cases hw
    rw [hlist] at hmem
    exact List.forall_mem_cons.2 (Verdict.forall_of_foldl hP u us h) v hmem

namespace Analysis

variable {a : Analysis} {v : VarBinding} {ref : Reference}

theorem mem_nameVerdicts (hv : a.bindings.vars[i]? = some v) :
    (v.list, a.nameVerdict i v) ∈ a.nameVerdicts := by
  refine List.mem_map.2 ⟨(v, i), ?_, rfl⟩
  rw [List.mem_zipIdx_iff_getElem?, Array.getElem?_toList]
  exact hv

theorem safe_of_nameVerdict (h : a.nameVerdict i v ≠ .unsafe_) :
    (∃ c, v.block = some c) ∧ ∀ ref ∈ a.referencesTo i, a.breaks v ref = false := by
  unfold nameVerdict at h
  dsimp only at h
  split at h
  · exact (h rfl).elim
  · rename_i hsafe
    simp only [Bool.or_eq_true, not_or, Bool.not_eq_true] at hsafe
    obtain ⟨⟨⟨⟨hblock, -⟩, hbreaks⟩, -⟩, -⟩ := hsafe
    exact ⟨Option.isSome_iff_exists.1 (Option.isNone_eq_false_iff.1 hblock),
      fun ref href => by simpa using List.any_eq_false.1 hbreaks ref href⟩

theorem isWrite_of_nameVerdict (h : a.nameVerdict i v = .constSafe) (href : ref ∈ a.referencesTo i) :
    ref.isWrite = false := by
  unfold nameVerdict at h
  dsimp only at h
  split at h
  · cases h
  · split at h
    · rename_i hconst
      simp only [Bool.and_eq_true, Bool.not_eq_true'] at hconst
      simpa using List.any_eq_false.1 hconst.2 ref href
    · cases h

theorem of_not_breaks (hstore : a.store.Forest) (hblock : v.block = some c)
    (h : a.breaks v ref = false) :
    a.store.Below c ref.node ∧ v.declaredAt ≤ a.store.posOf (some ref.node) := by
  unfold breaks isBefore at h
  simp only [hblock, Option.elim_some, hstore.parsed, Bool.not_false, Bool.true_and,
    Bool.or_eq_false_iff, Bool.not_eq_false', decide_eq_false_iff_not, Nat.not_lt] at h
  obtain ⟨⟨hinside, hafter⟩, -⟩ := h
  obtain ⟨n, hn, heq⟩ := List.any_eq_true.1 hinside
  cases beq_iff_eq.1 heq
  exact ⟨hstore.below_of_mem_lineage hn, hafter⟩

theorem mem_referencesTo {p : Program}
    (href : ref ∈ programReferences p.store (Scope.bindings p.store p.root) p.root)
    (hi : .variable_ i ∈ (Scope.bindings p.store p.root).lookup ref.name ref.scope) :
    ref ∈ (ofProgram p).referencesTo i :=
  List.mem_map.2 ⟨_, List.mem_filter.2 ⟨List.mem_map.2 ⟨ref, href, rfl⟩,
    List.contains_iff_mem.2 hi⟩, rfl⟩

end Analysis

end Scope

/-- A list that is not unsafe is held by a block, a case clause or the head of a loop. All that
refers to a name it declares is below that and after the declarator; if the list is constant, none
of it is assigned. -/
theorem verdict_sound {source : Text} {p : Program} {l d t f r : NodeId} {x : String}
    {w : Scope.Verdict} (h : parse source = .ok p)
    (hw : Scope.verdict? (Scope.Analysis.ofProgram p).nameVerdicts l = some w) (hsafe : w ≠ .unsafe_)
    (hf : p.store.Owns p.root f l) (hd : p.store.Declarator l .varKind d t) (hx : p.store.Names t x)
    (hr : p.store.Refers p.root r x) (hres : p.store.Resolves p.root r x f)
    (hclear : ¬ p.store.Hidden p.root f r x) :
    ∃ c, p.store.HeldBy l c ∧ p.store.Below c r ∧
      ((p.store.get? (some d)).map (·.stop)).getD 0 ≤ p.store.posOf (some r) ∧
      (w = .constSafe → ¬ p.store.Assigned r) := by
  have tree := treeAt_of_parse h
  have forest := (grows_of_parse h).1.forest
  obtain ⟨hsound, hrecorded⟩ := Scope.sound_bindings tree forest
  -- the variable is recorded at its list, and the reference is found with this variable
  obtain ⟨list, initializer, -, -, -, hdeclaration⟩ := id hd
  obtain ⟨j, i, hj, hi, hentry⟩ :=
    (hrecorded l hf.below_root).vars f d t initializer x hf hd hx hdeclaration
  obtain ⟨ref, href, rfl, rfl, ⟨o, ho, hk⟩, hwrite⟩ := Scope.found_of_refers tree forest hr
  have hto := Scope.Analysis.mem_referencesTo href
    (Scope.mem_lookup tree hsound hres hclear hf hj hentry ho hk)
  have hname := Scope.Analysis.mem_nameVerdicts (a := .ofProgram p) hi
  -- so its verdict speaks about the reference
  have hsafeName := Scope.forall_of_verdict? (P := (· ≠ .unsafe_))
    (fun _ _ => Scope.Verdict.meet_ne_unsafe) hw hsafe hname
  obtain ⟨⟨c, hc⟩, hall⟩ := Scope.Analysis.safe_of_nameVerdict hsafeName
  obtain ⟨hbelow, hafter⟩ := Scope.Analysis.of_not_breaks forest hc (hall ref hto)
  refine ⟨c, forest.heldBy_of_declaringBlock? hc, hbelow, hafter, fun hconst ha => ?_⟩
  have hconstName := Scope.forall_of_verdict? (P := (· = .constSafe))
    (fun _ _ => Scope.Verdict.meet_eq_const) hw hconst hname
  have hread := Scope.Analysis.isWrite_of_nameVerdict hconstName hto
  rw [hwrite ha] at hread
  cases hread

theorem verdict_sound_block :
    let source := "{ var x = 1; x; }".toList
    ∃ p c, parse source = .ok p ∧
      Scope.verdict? (Scope.Analysis.ofProgram p).nameVerdicts 3 = some .constSafe ∧
      p.store.Refers p.root 5 "x" ∧ p.store.HeldBy 3 c ∧ p.store.Below c 5 ∧
      ¬ p.store.Assigned 5 := by
  intro source
  have hscopes : ∃ p ∈ (parse source).toOption,
      Scope.verdict? (Scope.Analysis.ofProgram p).nameVerdicts 3 = some .constSafe ∧
      p.store.form? (some 3) = some (.declarationList ⟨.varKind, ⟨[some 2], 6, 11⟩, .varKind⟩) ∧
      p.store.form? (some 2) = some (.declaration (some 0) (some 1)) ∧
      p.store.form? (some 0) = some (.identifier "x") ∧
      p.store.form? (some 5) = some (.identifier "x") ∧
      p.store.nearest? p.root Form.inner 3 = some p.root ∧ p.root ∈ p.store.lineage (some 5) ∧
      p.store.resolvesTo p.root 5 "x" p.root = true ∧
      ∀ n < p.store.size, ∀ form ∈ p.store.form? (some n), form.inner = [] ∧
        some 5 ∉ form.targets ++ p.store.parts form ++ form.memberParts ∧
        form.plainName ≠ some 5 := by decide +kernel
  obtain ⟨p, hp, hverdict, hlist, hdeclaration, htarget, hreference, howner, hroot, hresolved,
    hforms⟩ := exists_parse hscopes
  have tree := treeAt_of_parse hp
  have forest := (grows_of_parse hp).1.forest
  have hf : p.store.Owns p.root p.root 3 := (Store.nearest?_eq_some_iff tree forest).1 howner
  have hr : p.store.Refers p.root 5 "x" :=
    Store.refers_of_free (forest.below_of_mem_lineage hroot) hreference
      fun n hn form hform => (hforms n hn form hform).2
  have hres : p.store.Resolves p.root 5 "x" p.root :=
    (Store.resolvesTo_iff tree forest (Store.lt_size_of_form? hreference)).1 hresolved
  have hclear : ¬ p.store.Hidden p.root p.root 5 "x" := by
    rintro ⟨g, -, -, ⟨form, e, hform, he, -⟩, -⟩
    rw [(hforms g (Store.lt_size_of_form? hform) form hform).1] at he
    exact List.not_mem_nil he
  obtain ⟨c, hheld, hbelow, -, hread⟩ := verdict_sound hp hverdict (by decide) hf
    ⟨_, some 1, hlist, rfl, List.mem_cons_self, hdeclaration⟩ ⟨0, .refl, htarget⟩ hr hres hclear
  exact ⟨p, c, hp, hverdict, hr, hheld, hbelow, hread rfl⟩

/-- A name declared in a block is entered for its whole function, so the reference after the block
is lost, though it means the outer variable. -/
theorem verdict_of_hidden :
    let source := "{ var x = 1; } function g() { { let x = 2; } return x; }".toList
    ∃ p, parse source = .ok p ∧
      Scope.verdict? (Scope.Analysis.ofProgram p).nameVerdicts 3 = some .constSafe ∧
      p.store.Owns p.root p.root 3 ∧ p.store.Declarator 3 .varKind 2 0 ∧ p.store.Names 0 "x" ∧
      p.store.Refers p.root 13 "x" ∧ p.store.Resolves p.root 13 "x" p.root ∧
      ∀ c, p.store.HeldBy 3 c → ¬ p.store.Below c 13 := by
  intro source
  have hscopes : ∃ p ∈ (parse source).toOption,
      Scope.verdict? (Scope.Analysis.ofProgram p).nameVerdicts 3 = some .constSafe ∧
      p.store.form? (some 3) = some (.declarationList ⟨.varKind, ⟨[some 2], 6, 11⟩, .varKind⟩) ∧
      p.store.form? (some 2) = some (.declaration (some 0) (some 1)) ∧
      p.store.form? (some 0) = some (.identifier "x") ∧
      p.store.form? (some 13) = some (.identifier "x") ∧
      p.store.nearest? p.root Form.inner 3 = some p.root ∧ p.root ∈ p.store.lineage (some 13) ∧
      p.store.resolvesTo p.root 13 "x" p.root = true ∧
      Scope.declaringBlock? p.store (some 3) = some 5 ∧ 5 ∉ p.store.lineage (some 13) ∧
      ∀ n < p.store.size, ∀ form ∈ p.store.form? (some n),
        some 13 ∉ form.targets ++ p.store.parts form ++ form.memberParts ∧
        form.plainName ≠ some 13 := by decide +kernel
  obtain ⟨p, hp, hverdict, hlist, hdeclaration, htarget, hreference, howner, hroot, hresolved,
    hblock, houtside, hfree⟩ := exists_parse hscopes
  have tree := treeAt_of_parse hp
  have forest := (grows_of_parse hp).1.forest
  have hsize : 13 < p.store.size := Store.lt_size_of_form? hreference
  refine ⟨p, hp, hverdict, (Store.nearest?_eq_some_iff tree forest).1 howner,
    ⟨_, some 1, hlist, rfl, List.mem_cons_self, hdeclaration⟩, ⟨0, .refl, htarget⟩,
    Store.refers_of_free (forest.below_of_mem_lineage hroot) hreference hfree,
    (Store.resolvesTo_iff tree forest hsize).1 hresolved, fun c hc hbelow => houtside ?_⟩
  rw [← forest.declaringBlock?_iff, hblock] at hc
  rw [forest.mem_lineage_iff hsize, Option.some.inj hc]
  exact hbelow

end Modernizer
