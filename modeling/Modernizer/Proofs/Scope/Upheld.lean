import Mathlib.Data.List.Induction
import Modernizer.Proofs.Scope.Recollecting

/-! Verdicts that are upheld. After some `var` lists have become lists of another kind, the verdicts
on the other lists are what they were (`verdict?_upheld`). -/

namespace Modernizer.Scope

open Store

variable {kept : NodeId → Bool} {s s' : Store} {b b' : Bindings} {v : VarBinding}
  {vars : Array VarBinding} {i j : Nat} {root n : NodeId}

theorem any_getElem? (hv : vars[i]? = some v) (hkept : kept v.list = true) :
    (vars[i]?).any (kept ·.list) = true := by
  rw [hv]
  exact hkept

theorem rank_lt (hi : (vars[i]?).any (kept ·.list) = true) (hij : i < j) :
    rank kept vars i < rank kept vars j := by
  obtain ⟨v, hv, hkept⟩ : ∃ v, vars[i]? = some v ∧ kept v.list = true :=
    (Option.any_eq_true _ _).1 hi
  have hlist : vars.toList[i]? = some v := by rwa [Array.getElem?_toList]
  have hsucc : rank kept vars (i + 1) = rank kept vars i + 1 := by
    rw [rank, rank, List.take_add_one, hlist, List.countP_append]
    simp [hkept]
  have hmono : rank kept vars (i + 1) ≤ rank kept vars j :=
    (List.take_sublist_take_left hij).countP_le
  omega

theorem renamed_eq_iff {γ : Binding} (hi : (vars[i]?).any (kept ·.list) = true) :
    renamed kept vars γ = .variable_ (rank kept vars i) ↔ γ = .variable_ i := by
  cases γ with
  | variable_ j =>
    rw [renamed]
    split
    · rename_i hj
      refine ⟨fun e => ?_, fun e => (by cases e; rfl)⟩
      have hrank := Binding.variable_.inj e
      rcases Nat.lt_trichotomy j i with hlt | heq | hlt
      · exact absurd hrank (Nat.ne_of_lt (rank_lt hj hlt))
      · rw [heq]
      · exact absurd hrank.symm (Nat.ne_of_lt (rank_lt hi hlt))
    · rename_i hj
      refine ⟨fun e => (by cases e), ?_⟩
      rintro ⟨⟩
      exact absurd hi hj
  | _ => exact ⟨fun e => (by cases e), fun e => (by cases e)⟩

theorem renamed_eq_function {γ : Binding} {g : NodeId} :
    renamed kept vars γ = .function g ↔ γ = .function g := by
  cases γ with
  | variable_ j =>
    rw [renamed]
    split <;> exact ⟨fun e => (by cases e), fun e => (by cases e)⟩
  | _ => exact .rfl

theorem Renames.lookup (h : Renames kept b b') (x : String) (k : Nat) :
    b'.lookup x k = (b.lookup x k).map (renamed kept b.vars) := by
  suffices ∀ fuel k, Bindings.lookup.go b' x fuel k =
      (Bindings.lookup.go b x fuel k).map (renamed kept b.vars) by
    rw [Bindings.lookup, Bindings.lookup, h.scopes, Array.size_map]
    exact this _ k
  intro fuel
  induction fuel with
  | zero => exact fun _ => rfl
  | succ fuel ih =>
    intro k
    rw [Bindings.lookup.go, Bindings.lookup.go, h.scopes, Array.getElem?_map]
    cases b.scopes[k]? with
    | none => rfl
    | some f =>
      have hfilter : (f.renamed kept b.vars).bindings.filter (·.1 == x) =
          (f.bindings.filter (·.1 == x)).map fun entry => (entry.1, renamed kept b.vars entry.2) :=
        List.filter_map
      simp only [Option.map_some, hfilter]
      cases f.bindings.filter (·.1 == x) with
      | nil =>
        change f.parent.elim [] (Bindings.lookup.go b' x fuel) = _
        cases f.parent with
        | none => rfl
        | some k => exact ih k
      | cons entry rest => simp [Function.comp_def]

theorem contains_map_renamed {l : List Binding} {γ γ' : Binding}
    (hγ : ∀ δ, renamed kept vars δ = γ' ↔ δ = γ) :
    (l.map (renamed kept vars)).contains γ' = l.contains γ := by
  rw [Bool.eq_iff_iff, List.contains_iff_mem, List.contains_iff_mem, List.mem_map]
  simp only [hγ, exists_eq_right]

theorem zipIdx_filter (f : VarBinding → Bool) (l : List VarBinding) : (l.filter f).zipIdx =
    (l.zipIdx.filter fun entry => f entry.1).map fun entry =>
      (entry.1, (l.take entry.2).countP f) := by
  induction l using List.reverseRecOn with
  | nil => rfl
  | append_singleton l v ih =>
    have hold : ((l.zipIdx.filter fun entry => f entry.1).map fun entry =>
          (entry.1, ((l ++ [v]).take entry.2).countP f)) =
        (l.zipIdx.filter fun entry => f entry.1).map fun entry =>
          (entry.1, (l.take entry.2).countP f) := by
      refine List.map_congr_left fun entry hentry => ?_
      have hlt := List.snd_lt_of_mem_zipIdx (List.mem_filter.1 hentry).1
      rw [List.take_append_of_le_length (Nat.le_of_lt (by simpa using hlt))]
    rw [List.zipIdx_append, List.filter_append, List.filter_append, List.map_append, hold, ← ih]
    cases hv : f v <;> simp [hv, List.zipIdx_append, List.countP_eq_length_filter]

namespace Analysis

variable (h : s.Narrowed kept s') (root)

include h

theorem resolved_upheld : (ofProgram ⟨s', root⟩).resolved = (ofProgram ⟨s, root⟩).resolved.map
    fun R => ⟨R.reference, R.bindings.map (renamed kept (Scope.bindings s root).vars)⟩ := by
  have hb := renames_bindings h root
  simp only [ofProgram, programReferences, h.place.size, references_narrowed h hb.scopeOf,
    hb.lookup, List.map_map, Function.comp_def]

theorem isBefore_upheld (r : Reference) (pos : Nat) :
    (ofProgram ⟨s', root⟩).isBefore r pos = (ofProgram ⟨s, root⟩).isBefore r pos := by
  change (!s'.isSynthesized (some r.node) && decide (s'.posOf (some r.node) < pos)) =
    (!s.isSynthesized (some r.node) && decide (s.posOf (some r.node) < pos))
  rw [h.isSynthesized, h.posOf]

theorem isCalledBefore_upheld (g : NodeId) (pos : Nat) :
    (ofProgram ⟨s', root⟩).isCalledBefore g pos = (ofProgram ⟨s, root⟩).isCalledBefore g pos := by
  rw [isCalledBefore, isCalledBefore, resolved_upheld root h, List.any_map]
  refine congrArg (List.any _) (funext fun R => ?_)
  simp only [Function.comp_apply, contains_map_renamed fun _ => renamed_eq_function,
    isBefore_upheld root h]

theorem breaks_upheld (v : VarBinding) (r : Reference) :
    (ofProgram ⟨s', root⟩).breaks v r = (ofProgram ⟨s, root⟩).breaks v r := by
  have hancestor : ∀ c, s'.isAncestorOrSelf (some c) (some r.node) =
      s.isAncestorOrSelf (some c) (some r.node) := fun c => by
    rw [isAncestorOrSelf, h.lineage, isAncestorOrSelf]
  rw [breaks, breaks, isBefore_upheld root h]
  simp only [ofProgram, hancestor]

theorem isRedeclared_upheld (v : VarBinding) :
    (ofProgram ⟨s', root⟩).isRedeclared v = (ofProgram ⟨s, root⟩).isRedeclared v := by
  simp only [isRedeclared, ofProgram, (renames_bindings h root).scopes, Array.getElem?_map,
    Option.any_map, FunctionScope.renamed, List.filter_map, List.length_map, Function.comp_def]

section

variable (hv : (Scope.bindings s root).vars[i]? = some v) (hkept : kept v.list = true)

include hv hkept

theorem referencesTo_upheld :
    (ofProgram ⟨s', root⟩).referencesTo (rank kept (Scope.bindings s root).vars i) =
      (ofProgram ⟨s, root⟩).referencesTo i := by
  have hi := any_getElem? hv hkept
  rw [referencesTo, referencesTo, resolved_upheld root h, List.filter_map, List.map_map]
  simp only [Function.comp_def, contains_map_renamed fun _ => renamed_eq_iff hi]

theorem nameVerdict_upheld :
    (ofProgram ⟨s', root⟩).nameVerdict (rank kept (Scope.bindings s root).vars i) v =
      (ofProgram ⟨s, root⟩).nameVerdict i v := by
  have hbreaks : (ofProgram ⟨s', root⟩).breaks v = (ofProgram ⟨s, root⟩).breaks v :=
    funext (breaks_upheld root h v)
  simp only [nameVerdict, referencesTo_upheld root h hv hkept, hbreaks,
    isCalledBefore_upheld root h, isRedeclared_upheld root h]

end

theorem nameVerdicts_upheld : (ofProgram ⟨s', root⟩).nameVerdicts =
    (ofProgram ⟨s, root⟩).nameVerdicts.filter (kept ·.1) := by
  change (Scope.bindings s' root).vars.toList.zipIdx.map _ =
    ((Scope.bindings s root).vars.toList.zipIdx.map _).filter _
  rw [(renames_bindings h root).vars, zipIdx_filter, List.map_map, List.filter_map]
  refine List.map_congr_left fun entry hentry => ?_
  obtain ⟨hmem, hkept⟩ := List.mem_filter.1 hentry
  have hv : (Scope.bindings s root).vars[entry.2]? = some entry.1 := by
    rw [← Array.getElem?_toList]
    exact List.mem_zipIdx_iff_getElem?.1 hmem
  exact congrArg (Prod.mk entry.1.list) (nameVerdict_upheld root h hv hkept)

/-- The verdict on a kept list is what it was. -/
theorem verdict?_upheld (hn : kept n = true) :
    verdict? (ofProgram ⟨s', root⟩).nameVerdicts n =
      verdict? (ofProgram ⟨s, root⟩).nameVerdicts n := by
  have hfilter : ((ofProgram ⟨s', root⟩).nameVerdicts.filter (·.1 == n)) =
      (ofProgram ⟨s, root⟩).nameVerdicts.filter (·.1 == n) := by
    rw [nameVerdicts_upheld root h, List.filter_filter]
    refine List.filter_congr fun entry _ => ?_
    cases heq : entry.1 == n with
    | false => rfl
    | true => rw [Bool.true_and, eq_of_beq heq, hn]
  rw [verdict?, hfilter, verdict?]

end Analysis

end Modernizer.Scope
