import Modernizer.Proofs.Parser.PlacedProgram
import Modernizer.Proofs.Tree.Comments
import Modernizer.Proofs.Tree.Edit
import Modernizer.Proofs.Tree.Marks

/-! Containers some of whose statements are removed. No node is new, and those that are kept have their
links already, so only the container has another form. It is marked with all that is above it
(`Thinned`). -/

namespace Modernizer.Store

variable {source : Text} {s s₀ : Store} {root c n m : NodeId} {kept : List NodeId} {list : StatementList}
  {x x₀ : Node}

theorem modify_eq_self {f : Node → Node} (h : ∀ x, s.get? (some n) = some x → f x = x) :
    s.modify (some n) f = s := by
  have hnodes : s.nodes.modify n f = s.nodes := by
    refine Array.ext_getElem? fun i => ?_
    rw [Array.getElem?_modify]
    split
    · rename_i hi
      subst hi
      cases hx : s.nodes[n]? with
      | none => rfl
      | some x => exact congrArg some (h x hx)
    · rfl
  rw [modify, hnodes]

theorem modify_modify (s : Store) (n : Slot) (f g : Node → Node) :
    (s.modify n f).modify n g = s.modify n fun x => g (f x) := by
  cases n with
  | none => rfl
  | some n =>
    have hnodes : (s.nodes.modify n f).modify n g = s.nodes.modify n fun x => g (f x) := by
      refine Array.ext_getElem? fun i => ?_
      simp only [Array.getElem?_modify]
      split <;> simp [Function.comp_def]
    rw [modify, modify, modify, hnodes]

theorem foldl_adopt_eq_self
    (h : ∀ n ∈ kept, ∀ x, s.get? (some n) = some x → x.parent = some c ∧ x.synthesized = false) :
    (kept.map some).foldl (fun s statement =>
      let s := s.setParent statement (some c)
      if s.isSynthesized statement then statement.elim s s.adoptChildren else s) s = s := by
  induction kept with
  | nil => rfl
  | cons n kept ih =>
    have hn := h n List.mem_cons_self
    have hset : s.setParent (some n) (some c) = s := modify_eq_self fun x hx => by rw [← (hn x hx).1]
    have hsyn : s.isSynthesized (some n) = false := by
      unfold isSynthesized
      cases hx : s.get? (some n) with
      | none => rfl
      | some x => exact (hn x hx).2
    rw [List.map_cons, List.foldl_cons]
    dsimp only
    rw [hset, hsyn]
    exact ih fun m hm => h m (List.mem_cons_of_mem n hm)

theorem modified_markModified (hx : (s.markModified (some n)).get? (some n) = some x) :
    x.modified = true := by
  have hstays : ∀ fuel m s x, (∀ y, s.get? (some n) = some y → y.modified = true) →
      (markModified.go fuel m s).get? (some n) = some x → x.modified = true := by
    intro fuel
    induction fuel with
    | zero => exact fun m s x h hx => h x hx
    | succ fuel ih =>
      intro m s x h hx
      unfold markModified.go at hx
      split at hx
      · exact h x hx
      · split at hx
        · exact h x hx
        · refine ih _ _ x (fun y hy => ?_) hx
          rw [get?_modify] at hy
          split at hy
          · obtain ⟨z, -, rfl⟩ := Option.map_eq_some_iff.1 hy
            rfl
          · exact h y hy
  have hlt : n < s.size := by
    have hsize := (sameTree_markModified s (some n)).size
    exact hsize ▸ lt_size_of_get? hx
  obtain ⟨fuel, hfuel⟩ := Nat.exists_eq_succ_of_ne_zero (Nat.ne_of_gt (Nat.zero_lt_of_lt hlt))
  obtain ⟨y, hy⟩ := exists_get?_of_lt hlt
  rw [markModified, hfuel, markModified.go, hy] at hx
  dsimp only at hx
  split at hx
  · rename_i hmodified
    rw [hy] at hx
    cases hx
    exact hmodified
  · refine hstays _ _ _ x (fun z hz => ?_) hx
    rw [get?_modify, if_pos rfl, hy] at hz
    cases hz
    rfl

def unmark (x : Node) : Node := { x with modified := false }

def withKept (kept : List NodeId) (x : Node) : Node :=
  { x with form := x.form.withStatements (kept.map some) }

/-- Of a parsed tree, one container has only those statements any more. Nothing else is changed but
marks: those of the container and of all above it are set. -/
structure Thinned (s₀ : Store) (c : NodeId) (kept : List NodeId) (s : Store) : Prop where
  same : Agree unmark
    (s₀.modify (some c) fun x => { withKept kept x with listEdited := true }) s
  beside : s.beside = s₀.beside
  marked : ∀ m, s₀.Below m c → s.isPristine (some m) = false

/-- Removing statements thins a container. -/
theorem thinned_setStatements? (hplaced : Placed source s₀) (hforest : s₀.Forest)
    (hlist : s₀.statementList? (some c) = some list)
    (hkept : ∀ n ∈ kept, some n ∈ list.statements) :
    ∃ s, s₀.setStatements? (some c) (kept.map some) = some s ∧ Thinned s₀ c kept s := by
  have hpristine : ∀ n x, s₀.get? (some n) = some x → x.synthesized = false ∧ x.modified = false :=
    fun n x hx => by simpa [Node.isPristine] using (hplaced n x hx).pristine
  have hlinked : ∀ n ∈ kept, ∀ x, (s₀.modify (some c) (withKept kept)).get? (some n) = some x →
      x.parent = some c ∧ x.synthesized = false := by
    intro n hn x hx
    have hview : Agree (fun x => (x.parent, x.synthesized)) s₀
        (s₀.modify (some c) (withKept kept)) := .modify _ _ fun _ => rfl
    obtain ⟨x₀, hx₀, e⟩ := hview.exists_get? hx
    simp only [Prod.mk.injEq] at e
    have hlink := (hforest.linked c n).1 (holds_of_mem_statements hlist (hkept n hn))
    rw [parent, hx₀] at hlink
    rw [e.1, e.2]
    exact ⟨hlink, (hpristine n x₀ hx₀).1⟩
  let s := (s₀.modify (some c) (withKept kept)).markListEdited (some c)
  have hset : s₀.setStatements? (some c) (kept.map some) = some s := by
    rw [setStatements?, hlist, Option.map_some]
    exact congrArg (fun s => some (markListEdited s (some c))) (foldl_adopt_eq_self hlinked)
  have hparent : Agree Node.parent s₀ s := by
    have hform : Agree Node.parent s₀ (s₀.modify (some c) (withKept kept)) := .modify _ _ fun _ => rfl
    exact hform.trans (agree_markListEdited (fun _ => rfl) (fun _ => rfl) _ _)
  refine ⟨s, hset, ?_, beside_setStatements? hset, fun m hm => ?_⟩
  · rw [← modify_modify s₀ (some c) (withKept kept) ({ · with listEdited := true })]
    exact agree_markModified (fun _ => rfl) _ (some c)
  · have hfaithful := (Faithful.refl hpristine).setStatements? hset
    induction hm using Relation.ReflTransGen.head_induction_on with
    | refl =>
      rw [← Bool.not_eq_true]
      intro hpristine
      obtain ⟨x, hx, -, hmodified⟩ := isPristine_iff.1 hpristine
      rw [modified_markModified hx] at hmodified
      cases hmodified
    | @head m b hmb _ ih =>
      rw [← Bool.not_eq_true] at ih ⊢
      have hlink := (hforest.linked m b).1 hmb
      have hlink' : s.parent (some b) = some m := by
        obtain ⟨x, hx, hxm⟩ := Option.bind_eq_some_iff.1 hlink
        have hb := hparent (some b)
        rw [hx, Option.map_some, hxm] at hb
        obtain ⟨y, hy, hym⟩ := Option.map_eq_some_iff.1 hb
        rw [parent, hy, Option.bind_some, hym]
      exact fun hm => ih (hfaithful.upward b m (by simp) hlink hlink' hm)

namespace Thinned

variable (h : Thinned s₀ c kept s)

include h

theorem get?_other (hplaced : Placed source s₀) (hm : m ≠ c) (hx : s.get? (some m) = some x) :
    s₀.get? (some m) = some (unmark x) := by
  obtain ⟨x₀, hx₀, e⟩ := h.same.exists_get? hx
  rw [get?_modify, if_neg fun e => hm (Option.some.inj e).symm] at hx₀
  have hunmarked : x₀.modified = false := by
    have hpristine := (hplaced m x₀ hx₀).pristine
    simp only [Node.isPristine, Bool.and_eq_true, Bool.not_eq_true'] at hpristine
    exact hpristine.2
  rw [hx₀, e, unmark, ← hunmarked]

theorem get?_container (hplaced : Placed source s₀) (hx₀ : s₀.get? (some c) = some x₀) : s.get? (some c) =
    some { withKept kept x₀ with listEdited := true, modified := true } := by
  have hc := h.same (some c)
  rw [get?_modify, if_pos rfl, hx₀, Option.map_some, Option.map_some] at hc
  obtain ⟨x, hx, e⟩ := Option.map_eq_some_iff.1 hc
  have hmodified : x.modified = true := by
    have hparsed : x₀.synthesized = false := by
      have hpristine := (hplaced c x₀ hx₀).pristine
      simp only [Node.isPristine, Bool.and_eq_true, Bool.not_eq_true'] at hpristine
      exact hpristine.1
    have hsyn : x.synthesized = false := (congrArg Node.synthesized e).trans hparsed
    have hmarked := h.marked c .refl
    rw [isPristine, hx, Option.any_some, Node.isPristine, hsyn] at hmarked
    simpa using hmarked
  have hnode : x = { unmark x with modified := x.modified } := rfl
  rw [hx, hnode, e, hmodified]
  rfl

theorem form_other (hplaced : Placed source s₀) (hm : m ≠ c) (hx : s.get? (some m) = some x) :
    s₀.form? (some m) = some x.form := by
  rw [form?, h.get?_other hplaced hm hx]
  rfl

theorem exists_parsed (hplaced : Placed source s₀) (hx : s.get? (some m) = some x) :
    x.synthesized = false ∧ ∃ x₀, s₀.get? (some m) = some x₀ ∧ x.pos = x₀.pos ∧ x.stop = x₀.stop := by
  have hview : Agree (fun x => (x.synthesized, x.pos, x.stop)) s₀
      (s₀.modify (some c) fun x => { withKept kept x with listEdited := true }) := .modify _ _ fun _ => rfl
  have hsame := hview.trans (h.same.map fun x => (x.synthesized, x.pos, x.stop))
  obtain ⟨x₀, hx₀, e⟩ := hsame.exists_get? hx
  simp only [Prod.mk.injEq] at e
  obtain ⟨hsyn, hpos, hstop⟩ := e
  have hpristine := (hplaced m x₀ hx₀).pristine
  simp only [Node.isPristine, Bool.and_eq_true, Bool.not_eq_true'] at hpristine
  exact ⟨hsyn.trans hpristine.1, x₀, hx₀, hpos, hstop⟩

theorem parsed (hplaced : Placed source s₀) (hx : s.get? (some m) = some x) : x.synthesized = false :=
  (h.exists_parsed hplaced hx).1

theorem exists_get? (hplaced : Placed source s₀) (hx₀ : s₀.get? (some m) = some x₀) :
    ∃ x, s.get? (some m) = some x ∧ x.synthesized = false ∧ x.pos = x₀.pos ∧ x.stop = x₀.stop := by
  have hlt : m < s.size := by
    rw [h.same.size, size_modify]
    exact lt_size_of_get? hx₀
  obtain ⟨x, hx⟩ := exists_get?_of_lt hlt
  obtain ⟨hsyn, x₁, hx₁, hpos, hstop⟩ := h.exists_parsed hplaced hx
  cases hx₀.symm.trans hx₁
  exact ⟨x, hx, hsyn, hpos, hstop⟩

theorem trailingStop (m : Slot) : s.trailingStop m = s₀.trailingStop m := by
  have hview : Agree Node.stop s₀
      (s₀.modify (some c) fun x => { withKept kept x with listEdited := true }) := .modify _ _ fun _ => rfl
  have hstop : (s.get? m).map Node.stop = (s₀.get? m).map Node.stop :=
    (hview.trans (h.same.map Node.stop)) m
  have hcomments : s.comments = s₀.comments := congrArg Prod.fst h.beside
  have hattached : s.trailingComments m = s₀.trailingComments m :=
    congrArg Attached.trailing (attachedTo_congr (congrArg Prod.snd h.beside) m)
  unfold Store.trailingStop
  rw [hstop, hcomments, hattached]

theorem boundary (hplaced : Placed source s₀) (hx : s.get? (some m) = some x) :
    Text.Boundary source x.pos ∧ Text.Boundary source x.stop := by
  obtain ⟨-, x₀, hx₀, hpos, hstop⟩ := h.exists_parsed hplaced hx
  have hplace := hplaced m x₀ hx₀
  rw [hpos, hstop]
  exact ⟨hplace.span.pos.boundary, hplace.stop.boundary⟩

end Thinned

end Modernizer.Store
