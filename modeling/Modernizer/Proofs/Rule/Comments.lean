import Modernizer.Proofs.Rule.Edits
import Modernizer.Proofs.Tree.Footing

/-! Comments during passes. Rules give comments to nodes that they make, and the tree passes them on
from a node to the one that takes its place, so none are ahead of the nodes. -/

namespace Modernizer

open Store

namespace Store

variable {s s' : Store}

theorem NoneAhead.synthesize (h : s.NoneAhead) (form : Form) : (s.synthesize form).2.NoneAhead := by
  intro i hi
  rw [size_synthesize] at hi
  exact h i (Nat.le_of_succ_le hi)

theorem NoneAhead.marked (h : s.NoneAhead) (hattached : s'.attached = s.attached)
    (hsize : s'.size = s.size) {L : List NodeId} (hL : ∀ n ∈ L, n < s.size) :
    s'.NoneAhead ∧ ∀ n ∈ L, n < s'.size := by
  refine ⟨fun i hi => ?_, hsize.symm ▸ hL⟩
  exact (attachedTo_congr hattached _).trans (h i (hsize ▸ hi))

theorem NoneAhead.replace? (h : s.NoneAhead) {old : Slot} {new : NodeId} (hnew : new < s.size)
    (hs : s.replace? old (some new) = some s') : s'.NoneAhead := by
  obtain ⟨x, hx, -⟩ := Option.bind_eq_some_iff.1 hs
  intro i hi
  rw [size_replace? hs] at hi
  have hne : some i ≠ old := by
    rintro rfl
    rw [get?_eq_none_iff.2 hi] at hx
    cases hx
  rw [attachedTo_replace? hs hne fun e => Nat.not_le_of_lt hnew (Option.some.inj e ▸ hi)]
  exact h i hi

theorem applyReplacement_attached {r : Replacement} (hs : s.applyReplacement r = .ok s') :
    s'.attached = s.attached ∧ s'.size = s.size := by
  unfold applyReplacement at hs
  dsimp only at hs
  split at hs
  · cases hs
  split at hs
  · cases hs
  split at hs
  · cases hs
  cases hs
  have hsize : (s.adoptAnchorSpan r.anchor r.replacements).size = s.size :=
    (sameTree_adoptAnchorSpan ..).size
  cases hset : (s.adoptAnchorSpan r.anchor r.replacements).setStatements? r.parent _ with
  | none => exact ⟨attached_adoptAnchorSpan .., hsize⟩
  | some s' =>
    refine ⟨(attached_setStatements? hset).trans (attached_adoptAnchorSpan ..), ?_⟩
    rw [Option.getD_some, (agree_setStatements hset).size_eq, size_modify]
    exact hsize

end Store

theorem upkeep_noneAhead :
    Upkeep (fun _ => True) fun L s => s.NoneAhead ∧ ∀ n ∈ L, n < s.size where
  plain _ := trivial
  drop hK h := ⟨h.1, fun n hn => h.2 n (hK.subset hn)⟩
  synthesize _ h := by
    refine ⟨h.1.synthesize _, fun n hn => ?_⟩
    rw [size_synthesize]
    rcases List.mem_cons.1 hn with rfl | hn
    · exact Nat.lt_succ_self _
    · exact Nat.lt_succ_of_lt (h.2 n hn)
  apart _ h := ⟨h.1.synthesize _, fun n hn => size_synthesize _ _ ▸ Nat.lt_succ_of_lt (h.2 n hn)⟩
  setAttached a hn h := ⟨h.1.setAttached (fun i hi => h.2 i (hn i hi)) a, h.2⟩
  markModified n h := h.1.marked (attached_markModified ..) (sameTree_markModified ..).size h.2
  redeclare {L s n list kind} _ _ h := by
    refine h.1.marked ((attached_markModified ..).trans (attached_modify ..)) ?_ h.2
    exact (sameTree_markModified ..).size.trans (size_modify ..)
  replace? h hs := by
    refine ⟨h.1.replace? (h.2 _ List.mem_cons_self) hs, fun n hn => ?_⟩
    rw [size_replace? hs]
    exact h.2 n (List.mem_cons_of_mem _ hn)
  applyReplacement _ h hs := by
    obtain ⟨hattached, hsize⟩ := applyReplacement_attached hs
    exact h.1.marked hattached hsize h.2

end Modernizer
