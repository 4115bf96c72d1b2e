import Modernizer.Proofs.Scope.Referring
import Modernizer.Proofs.Tree.View
import Modernizer.Scope.Verdict

/-! A program in which some `var` lists have become lists of another kind. Every node is where it was
and has the form that it had, but for these lists, so what is asked on the way up from a node has the
same answer, and the references are what they were (`Narrowed.programReferences`). -/

namespace Modernizer

open Store

namespace Store

/-- The kept lists and all that is no list are the same in both stores. The other lists are `var`
lists in the first one only. -/
structure Narrowed (kept : NodeId → Bool) (s s' : Store) : Prop where
  place : Agree (fun x => (x.pos, x.stop, x.parent, x.synthesized)) s s'
  same : ∀ n, kept n = true → s'.form? (some n) = s.form? (some n)
  narrowed : ∀ n, kept n = false → ∃ list kind, s.form? (some n) = some (.declarationList list) ∧
    list.kind = .varKind ∧ kind ≠ .varKind ∧
    s'.form? (some n) = some (.declarationList { list with kind })

namespace Narrowed

variable {kept : NodeId → Bool} {s s' : Store} {n : NodeId} {form : Form}

variable (h : Narrowed kept s s')

include h

theorem parent (v : Slot) : s'.parent v = s.parent v := by
  have hv := congrArg (Option.bind · id) (h.place.map (·.2.2.1) v)
  rw [Option.bind_map, Option.bind_map] at hv
  exact hv

theorem posOf (v : Slot) : s'.posOf v = s.posOf v :=
  congrArg (Option.getD · 0) (h.place.map (·.1) v)

theorem stop (v : Slot) : (s'.get? v).map (·.stop) = (s.get? v).map (·.stop) :=
  h.place.map (·.2.1) v

theorem isSynthesized (v : Slot) : s'.isSynthesized v = s.isSynthesized v := by
  have hv := congrArg (Option.any id) (h.place.map (·.2.2.2) v)
  rw [Option.any_map, Option.any_map] at hv
  exact hv

theorem lineage (v : Slot) : s'.lineage v = s.lineage v := by
  suffices ∀ fuel v, lineage.go s' fuel v = lineage.go s fuel v by
    rw [Store.lineage, Store.lineage, h.place.size, this]
  intro fuel
  induction fuel with
  | zero => exact fun _ => rfl
  | succ fuel ih =>
    intro v
    cases v with
    | none => rfl
    | some i => rw [lineage.go, lineage.go, ih, h.parent]

theorem form_cases (v : Slot) : s'.form? v = s.form? v ∨ ∃ list kind,
    s.form? v = some (.declarationList list) ∧
      s'.form? v = some (.declarationList { list with kind }) := by
  cases v with
  | none => exact .inl rfl
  | some n =>
    cases hkept : kept n with
    | true => exact .inl (h.same n hkept)
    | false =>
      obtain ⟨list, kind, hlist, -, -, hlist'⟩ := h.narrowed n hkept
      exact .inr ⟨list, kind, hlist, hlist'⟩

theorem identifierName? (v : Slot) : s'.identifierName? v = s.identifierName? v := by
  unfold Store.identifierName?
  rcases h.form_cases v with hsame | ⟨list, kind, hlist, hlist'⟩
  · rw [hsame]
  · rw [hlist, hlist']

theorem isReference (v : Slot) : s'.isReference v = s.isReference v := by
  unfold Store.isReference
  rw [h.parent]
  rcases h.form_cases (s.parent v) with hsame | ⟨list, kind, hlist, hlist'⟩
  · rw [hsame]
  · rw [hlist, hlist']

theorem bindingNames (v : Slot) : s'.bindingNames v = s.bindingNames v := by
  suffices ∀ fuel v, bindingNames.go s' fuel v = bindingNames.go s fuel v by
    rw [Store.bindingNames, Store.bindingNames, h.place.size, this]
  intro fuel
  induction fuel with
  | zero => exact fun _ => rfl
  | succ fuel ih =>
    intro v
    have hgo : bindingNames.go s' fuel = bindingNames.go s fuel := funext ih
    rw [bindingNames.go, bindingNames.go, hgo]
    rcases h.form_cases v with hsame | ⟨list, kind, hlist, hlist'⟩
    · rw [hsame]
      split
      · rfl
      · refine List.flatMap_congr fun property _ => ?_
        rcases h.form_cases property with hsame | ⟨list, kind, hlist, hlist'⟩
        · rw [hsame]
        · rw [hlist, hlist']
      all_goals rfl
    · rw [hlist, hlist']

end Narrowed

end Store

namespace Scope

variable {kept : NodeId → Bool} {s s' : Store} {form : Form} {use : Use} {b b' : Bindings}

section

variable (h : s.Narrowed kept s')

include h

theorem isLoopHead_narrowed (loop v : Slot) : isLoopHead s' loop v = isLoopHead s loop v := by
  unfold isLoopHead
  rcases h.form_cases loop with hsame | ⟨list, kind, hlist, hlist'⟩
  · rw [hsame]
  · rw [hlist, hlist']

theorem isForEachHead_narrowed (v : Slot) : isForEachHead s' v = isForEachHead s v := by
  unfold isForEachHead
  rw [h.parent]
  rcases h.form_cases (s.parent v) with hsame | ⟨list, kind, hlist, hlist'⟩
  · rw [hsame]
  · rw [hlist, hlist']

theorem isInLoopBody_narrowed (v : Slot) : isInLoopBody s' v = isInLoopBody s v := by
  suffices ∀ l v, isInLoopBody.go s' v l = isInLoopBody.go s v l by
    rw [isInLoopBody, isInLoopBody, h.parent, h.lineage, this]
  intro l
  induction l with
  | nil => exact fun _ => rfl
  | cons n l ih =>
    intro v
    rw [isInLoopBody.go, isInLoopBody.go, ih]
    rcases h.form_cases (some n) with hsame | ⟨list, kind, hlist, hlist'⟩
    · rw [hsame]
      simp only [isLoopHead_narrowed h]
    · rw [hlist, hlist']
      rfl

theorem declaringBlock?_narrowed (v : Slot) : declaringBlock? s' v = declaringBlock? s v := by
  have hlist : ∀ w, ((s'.form? w).bind Form.statementList?).isSome =
      ((s.form? w).bind Form.statementList?).isSome := by
    intro w
    rcases h.form_cases w with hsame | ⟨list, kind, hlist, hlist'⟩
    · rw [hsame]
    · rw [hlist, hlist']
      rfl
  unfold declaringBlock?
  simp only [h.parent, hlist, isLoopHead_narrowed h]
  rcases h.form_cases (s.parent v) with hsame | ⟨list, kind, hlist, hlist'⟩
  · rw [hsame]
  · rw [hlist, hlist']

theorem varBinding_narrowed (l d : NodeId) (x : String) (initializer : Slot) (k : Nat) :
    varBinding s' l d x initializer k = varBinding s l d x initializer k := by
  simp only [varBinding, declaringBlock?_narrowed h, h.stop, isForEachHead_narrowed h,
    isInLoopBody_narrowed h, isLoopHead_narrowed h, h.parent]

theorem outside_narrowed (use : Use) (form : Form) : form.outside s' use = form.outside s use := by
  have hcomputed : ∀ v, computed s' v = computed s v := by
    intro v
    unfold computed
    rcases h.form_cases v with hsame | ⟨list, kind, hlist, hlist'⟩
    · rw [hsame]
    · rw [hlist, hlist']
  have hdeclarations : ∀ v, isDeclarationList s' v = isDeclarationList s v := by
    intro v
    unfold isDeclarationList
    rcases h.form_cases v with hsame | ⟨list, kind, hlist, hlist'⟩
    · rw [hsame]
    · rw [hlist, hlist']
  cases form <;> simp only [Form.outside, hcomputed, hdeclarations]

theorem references_narrowed (hscopes : b'.scopeOf = b.scopeOf) (fuel : Nat) (v : Slot) (k : Nat)
    (use : Use) (enclosing : List (NodeId × Nat)) :
    references s' b' fuel v k use enclosing = references s b fuel v k use enclosing := by
  induction fuel generalizing v k use enclosing with
  | zero => rfl
  | succ fuel ih =>
    cases v with
    | none => rfl
    | some n =>
      have hown : ∀ form, ownReference s' n k use enclosing form =
          ownReference s n k use enclosing form := by
        intro form
        cases form <;> simp only [ownReference, h.isReference]
      cases hform : s.form? (some n) with
      | none =>
        have hform' : s'.form? (some n) = none := by
          rcases h.form_cases (some n) with hsame | ⟨list, kind, hlist, -⟩
          · rw [hsame, hform]
          · rw [hform] at hlist
            cases hlist
        unfold references
        rw [hform, hform']
      | some form =>
        rcases h.form_cases (some n) with hsame | ⟨list, kind, hlist, hlist'⟩
        · rw [references_succ hform, references_succ (hsame.trans hform), hown, outside_narrowed h,
            hscopes]
          simp only [ih]
        · rw [references_succ hlist, references_succ hlist', hown, outside_narrowed h, hscopes]
          simp only [ih]
          rfl

end

end Scope

end Modernizer
