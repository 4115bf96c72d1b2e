import Modernizer.Syntax.Store

/-! Views of nodes. An operation that only links nodes or only marks them leaves every view alone
that does not look at links or marks. -/

namespace Modernizer.Store

variable {α β : Type} {s s' s'' : Store} {view : Node → α}

/-- Every node shows the same in both stores. -/
def Agree (view : Node → α) (s s' : Store) : Prop :=
  ∀ m, (s'.get? m).map view = (s.get? m).map view

namespace Agree

theorem refl (s : Store) : Agree view s s := fun _ => rfl

theorem trans (h : Agree view s s') (h' : Agree view s' s'') : Agree view s s'' :=
  fun m => (h' m).trans (h m)

theorem map (h : Agree view s s') (g : α → β) : Agree (g ∘ view) s s' := fun m => by
  simpa only [Option.map_map] using congrArg (Option.map g) (h m)

theorem of_nodes (h : s'.nodes = s.nodes) : Agree view s s' := fun m => by simp only [get?, h]

theorem modify (s : Store) (n : Slot) {f : Node → Node} (hf : ∀ x, view (f x) = view x) :
    Agree view s (s.modify n f) := fun m => by
  rw [get?_modify]
  split
  · rw [Option.map_map]
    exact congrArg (Option.map · (s.get? m)) (funext hf)
  · rfl

theorem foldl {γ : Type} {f : Store → γ → Store} (hf : ∀ s c, Agree view s (f s c)) (cs : List γ)
    (s : Store) : Agree view s (cs.foldl f s) := by
  induction cs generalizing s with
  | nil => exact .refl s
  | cons c cs ih => exact (hf s c).trans (ih (f s c))

theorem exists_get? {m : Slot} {y : Node} (h : Agree view s s') (hy : s'.get? m = some y) :
    ∃ x, s.get? m = some x ∧ view y = view x := by
  have hm := h m
  rw [hy] at hm
  obtain ⟨x, hx, e⟩ := Option.map_eq_some_iff.1 hm.symm
  exact ⟨x, hx, e.symm⟩

theorem form? (h : Agree Node.form s s') (m : Slot) : s'.form? m = s.form? m := h m

theorem isSynthesized (h : Agree Node.synthesized s s') (m : Slot) :
    s'.isSynthesized m = s.isSynthesized m := by
  have hflag : ∀ t : Store, t.isSynthesized m = ((t.get? m).map Node.synthesized).any id :=
    fun t => by rw [Option.any_map]; rfl
  rw [hflag, hflag, h]

theorem size (h : Agree view s s') : s'.size = s.size := by
  have hnone : ∀ i, s'.size ≤ i ↔ s.size ≤ i := fun i => by
    rw [← get?_eq_none_iff, ← get?_eq_none_iff, ← Option.map_eq_none_iff, h, Option.map_eq_none_iff]
  exact Nat.le_antisymm ((hnone _).2 (Nat.le_refl _)) ((hnone _).1 (Nat.le_refl _))

end Agree

section links

variable (hview : ∀ x parent, view { x with parent } = view x)

include hview

theorem agree_setParent (s : Store) (child parent : Slot) : Agree view s (s.setParent child parent) :=
  .modify s child fun x => hview x parent

theorem agree_adoptChildren (s : Store) (n : NodeId) : Agree view s (s.adoptChildren n) := by
  suffices h : ∀ fuel n s, Agree view s (adoptChildren.go fuel n s) from h _ n s
  intro fuel
  induction fuel with
  | zero => exact fun _ s => .refl s
  | succ fuel ih =>
    intro n s
    unfold adoptChildren.go
    rw [← List.foldl_reverse]
    refine (Agree.foldl (fun s child => ?_) _ s).trans (.foldl (fun s child => ?_) _ _)
    · exact agree_setParent hview s _ _
    · split
      · exact ih child s
      · exact .refl s

theorem agree_adopt (s : Store) (statement container : Slot) :
    Agree view s (
      let s := s.setParent statement container
      if s.isSynthesized statement then statement.elim s s.adoptChildren else s) := by
  refine (agree_setParent hview s statement container).trans ?_
  dsimp only
  split
  · cases statement with
    | none => exact .refl _
    | some n => exact agree_adoptChildren hview _ n
  · exact .refl _

end links

theorem agree_markModified (hview : ∀ x, view { x with modified := true } = view x) (s : Store)
    (n : Slot) : Agree view s (s.markModified n) := by
  suffices h : ∀ fuel n s, Agree view s (markModified.go fuel n s) from h _ n s
  intro fuel
  induction fuel with
  | zero => exact fun _ s => .refl s
  | succ fuel ih =>
    intro n s
    unfold markModified.go
    split
    · exact .refl s
    · split
      · exact .refl s
      · exact (Agree.modify s n hview).trans (ih _ _)

theorem agree_markListEdited (hview : ∀ x, view { x with modified := true } = view x)
    (hlist : ∀ x, view { x with listEdited := true } = view x) (s : Store) (n : Slot) :
    Agree view s (s.markListEdited n) :=
  (Agree.modify s n hlist).trans (agree_markModified hview _ n)

end Modernizer.Store
