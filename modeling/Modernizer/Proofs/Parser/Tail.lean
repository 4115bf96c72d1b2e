import Modernizer.Proofs.Parser.Attachment
import Modernizer.Proofs.Tree.Edit

/-! Statements with their comments. The tail of a statement goes to the end of the last comment that
trails it, and its lead begins after the tail of the one before. All comments of a statement are in
its lead and its tail (`Annotated.lead`, `Annotated.tail`). -/

namespace Modernizer

open Store Text

theorem Form.body?_of_statementList? {form : Form} {list : StatementList}
    (h : form.statementList? = some list) : ∃ front, form.body? = some (front, list.range) := by
  cases form <;> cases h <;> exact ⟨_, rfl⟩

namespace Store

variable {source : Text} {s : Store} {root c n : NodeId} {x y : Node} {before after : List NodeId}
  {list : StatementList} {d : Comment} {i lo : Nat}

theorem le_trailingStop (hx : s.get? (some n) = some x) : x.stop ≤ s.trailingStop (some n) ∧
    ∀ i ∈ s.trailingComments (some n), ∀ d, s.comments[i]? = some d →
      d.stop ≤ s.trailingStop (some n) := by
  have hfold : ∀ (l : List Comment) (m : Nat), m ≤ l.foldl (fun m d => max m d.stop) m ∧
      ∀ d ∈ l, d.stop ≤ l.foldl (fun m d => max m d.stop) m := by
    intro l
    induction l with
    | nil => exact fun m => ⟨Nat.le_refl m, by simp⟩
    | cons e l ih =>
      intro m
      obtain ⟨hle, hrest⟩ := ih (max m e.stop)
      refine ⟨Nat.le_trans (Nat.le_max_left _ _) hle, List.forall_mem_cons.2 ⟨?_, hrest⟩⟩
      exact Nat.le_trans (Nat.le_max_right _ _) hle
  rw [trailingStop, hx]
  refine ⟨(hfold _ _).1, fun i hi d hd => (hfold _ _).2 d ?_⟩
  exact List.mem_filterMap.2 ⟨i, hi, hd⟩

def tailStop (s : Store) (start : Nat) (ns : List NodeId) : Nat :=
  (ns.getLast?.map fun n => s.trailingStop (some n)).getD start

@[simp] theorem tailStop_nil (start : Nat) : s.tailStop start [] = start := rfl

@[simp] theorem tailStop_concat (start : Nat) (ns : List NodeId) (n : NodeId) :
    s.tailStop start (ns ++ [n]) = s.trailingStop (some n) := by
  simp [tailStop]

/-- A parsed tree whose comments are where they should be. -/
structure Annotated (source : Text) (s : Store) (root : NodeId) : Prop where
  placed : Placed source s
  tree : s.TreeAt root
  nested : Nested source s root
  comments : CommentsPlaced source s
  tidy : ∀ n x, s.get? (some n) = some x → TidyFrom 0 source x.stop
  tidy_comments : ∀ d ∈ s.comments, TidyFrom 0 source d.stop
  slash : ∀ d ∈ s.comments, ∃ before after, source = before ++ '/' :: after ∧ d.pos = utf8Length before

theorem gapIn_of_statementList (hx : s.get? (some c) = some x)
    (hlist : x.form.statementList? = some list) (hsplit : present list.statements = before ++ after) :
    s.GapIn c before.getLast? after.head? (s.lastStop list.innerPos before)
      (s.firstPos after list.innerStop) := by
  refine ⟨x, hx, list.statements, list.innerPos, list.innerStop, before, after, ?_, hsplit, rfl, rfl, rfl,
    rfl⟩
  cases hform : x.form with
  | program | block | caseClause =>
    rw [hform] at hlist
    cases hlist
    rfl
  | _ =>
    rw [hform] at hlist
    cases hlist

namespace Annotated

variable (h : Annotated source s root)

include h

theorem tidy_trailingStop (hx : s.get? (some n) = some x) :
    TidyFrom 0 source (s.trailingStop (some n)) := by
  rw [trailingStop, hx]
  refine List.foldlRecOn (motive := TidyFrom 0 source) _ _ (h.tidy n x hx) ?_
  intro stop hstop d hd
  obtain ⟨i, -, hd⟩ := List.mem_filterMap.1 hd
  rcases Nat.le_total stop d.stop with hle | hle
  · rw [Nat.max_eq_right hle]
    exact h.tidy_comments d (List.mem_of_getElem? hd)
  · rw [Nat.max_eq_left hle]
    exact hstop

theorem boundary_trailingStop (hx : s.get? (some n) = some x) :
    Boundary source (s.trailingStop (some n)) := (h.tidy_trailingStop hx).boundary

theorem exists_gap (hi : i ∈ s.trailingComments (some n)) : ∃ m following lo hi d,
    s.GapIn m (some n) following lo hi ∧ s.Lies i d lo hi := by
  obtain ⟨m, previous, following, lo, hi', d, hgap, hlies, -⟩ :=
    h.comments.from_gap n i (List.mem_append_right _ hi)
  obtain ⟨rfl, -⟩ := (h.comments.trailing m _ _ _ _ hgap i d hlies n).1 hi
  exact ⟨m, following, lo, hi', d, hgap, hlies⟩

/-- What trails a statement is in its tail. -/
theorem tail (hy : s.get? (some n) = some y) (hi : i ∈ s.trailingComments (some n)) :
    ∃ d, s.comments[i]? = some d ∧ y.stop ≤ d.pos ∧ d.stop ≤ s.trailingStop (some n) := by
  obtain ⟨m, following, lo, hi', d, hgap, hlies⟩ := h.exists_gap hi
  obtain ⟨y', hy', rfl, -⟩ := h.placed.start_of_gap hgap
  cases hy.symm.trans hy'
  exact ⟨d, hlies.1, hlies.2.1, (le_trailingStop hy).2 i hi d hlies.1⟩

theorem trailingStop_le_pos {m p : NodeId} {hi : Nat} (hgap : s.GapIn m (some p) (some n) lo hi)
    (hd : s.Lies i d lo hi) (hn : i ∈ s.leadingComments (some n)) :
    s.trailingStop (some p) ≤ d.pos := by
  obtain ⟨z, hz, rfl, -⟩ := h.placed.start_of_gap hgap
  refine trailingStop_le hz hd.2.1 fun j hj e he => ?_
  obtain ⟨m', following, lo', hi', e', hgap', hlies⟩ := h.exists_gap hj
  obtain ⟨rfl, -, rfl, rfl, rfl⟩ :=
    h.placed.gap_unique_of_neighbour h.tree h.nested hgap hgap' (.inl ⟨rfl, rfl⟩)
  cases he.symm.trans hlies.1
  have hless := h.comments.trailing_first m _ _ _ _ hgap j e i d hlies hd p n hj hn
  obtain ⟨hj', rfl⟩ := List.getElem?_eq_some_iff.1 he
  obtain ⟨hi', rfl⟩ := List.getElem?_eq_some_iff.1 hd.1
  exact List.pairwise_iff_getElem.1 h.comments.ordered.apart j i hj' hi' hless

section Statements

variable (hx : s.get? (some c) = some x) (hlist : x.form.statementList? = some list)

include hx hlist

theorem tailStop_le (hsplit : present list.statements = before ++ after) :
    s.lastStop list.innerPos before ≤ s.tailStop list.innerPos before ∧
      s.tailStop list.innerPos before ≤ s.firstPos after list.innerStop ∧
        Boundary source (s.tailStop list.innerPos before) := by
  have hgap := gapIn_of_statementList hx hlist hsplit
  have hrange := (h.placed c x hx).ranges _ (Form.range_mem_ranges hlist)
  have hle : s.lastStop list.innerPos before ≤ s.firstPos after list.innerStop := by
    have hchain := hrange.chain
    change s.Chain _ (present list.statements) _ at hchain
    rw [hsplit] at hchain
    exact hchain.gap.2.1
  cases hlast : before.getLast? with
  | none =>
    obtain rfl : before = [] := List.getLast?_eq_none_iff.1 hlast
    exact ⟨Nat.le_refl _, hle, hrange.pos.boundary⟩
  | some p =>
    rw [hlast] at hgap
    obtain ⟨y, hy, hstop, -⟩ := h.placed.start_of_gap hgap
    rw [tailStop, hlast, Option.map_some, Option.getD_some, ← hstop]
    exact ⟨(le_trailingStop hy).1, h.comments.trailingStop_le c p _ _ _ hgap,
      h.boundary_trailingStop hy⟩

theorem tidy_tailStop (hsplit : present list.statements = before ++ after) (hne : before ≠ []) :
    TidyFrom 0 source (s.tailStop list.innerPos before) := by
  obtain ⟨before, p, rfl⟩ := List.eq_nil_or_concat before |>.resolve_left hne
  have hchain := ((h.placed c x hx).ranges _ (Form.range_mem_ranges hlist)).chain
  obtain ⟨y, hy, -⟩ := hchain.exists_of_mem
    (show p ∈ present list.statements by simp [hsplit])
  rw [List.concat_eq_append, tailStop_concat]
  exact h.tidy_trailingStop hy

theorem exists_statement (hsplit : present list.statements = before ++ n :: after) :
    n ∉ after ∧ ∃ y, s.get? (some n) = some y ∧ s.tailStop list.innerPos before ≤ y.pos ∧
      y.pos ≤ y.stop ∧ y.stop ≤ s.trailingStop (some n) := by
  have hstatements : s.statementList? (some c) = some list := by
    rw [statementList?, form?, hx]
    exact hlist
  have hnodup := h.tree.nodup_statements (h.nested.reachable c (lt_size_of_get? hx)) hstatements
  rw [hsplit] at hnodup
  have hchain := ((h.placed c x hx).ranges _ (Form.range_mem_ranges hlist)).chain
  obtain ⟨y, hy, -, hle, -⟩ := hchain.exists_of_mem
    (show n ∈ present list.statements from hsplit ▸ List.mem_append_right _ List.mem_cons_self)
  obtain ⟨-, htail, -⟩ := h.tailStop_le hx hlist hsplit
  rw [firstPos_cons hy] at htail
  exact ⟨(List.nodup_cons.1 (List.nodup_append.1 hnodup).2.1).1, y, hy, htail, hle,
    (le_trailingStop hy).1⟩

/-- What leads a statement is in its lead. -/
theorem lead (hsplit : present list.statements = before ++ n :: after) (hy : s.get? (some n) = some y)
    (hi : i ∈ s.leadingComments (some n)) :
    ∃ d, s.comments[i]? = some d ∧ s.tailStop list.innerPos before ≤ d.pos ∧ d.stop ≤ y.pos := by
  have hgap := gapIn_of_statementList hx hlist hsplit
  obtain ⟨m, previous, following, lo, hi', d, hgap', hlies, -⟩ :=
    h.comments.from_gap n i (List.mem_append_left _ hi)
  obtain ⟨rfl, -⟩ := (h.comments.leading m _ _ _ _ hgap' i d hlies n).1 hi
  obtain ⟨rfl, rfl, -, rfl, rfl⟩ :=
    h.placed.gap_unique_of_neighbour h.tree h.nested hgap hgap' (.inr ⟨rfl, rfl⟩)
  have hlies' := hlies
  rw [firstPos_cons hy] at hlies
  refine ⟨d, hlies.1, ?_, hlies.2.2⟩
  cases hlast : before.getLast? with
  | none =>
    obtain rfl : before = [] := List.getLast?_eq_none_iff.1 hlast
    exact hlies.2.1
  | some p =>
    rw [hlast] at hgap
    rw [tailStop, hlast, Option.map_some, Option.getD_some]
    exact h.trailingStop_le_pos hgap hlies' hi

end Statements

end Annotated

end Store

theorem annotated_of_parse {source : Text} {p : Program} (h : parse source = .ok p) :
    Annotated source p.store p.root := by
  obtain ⟨s, hstore, hs⟩ := unattached_of_parse h
  obtain ⟨hplaced, -⟩ := placed_of_parse h
  obtain ⟨htidy, htidy'⟩ := tidy_of_parse h
  refine ⟨hplaced, treeAt_of_parse h, hplaced.nested (grows_of_parse h).1, ?_, htidy, htidy', ?_⟩
  · rw [hstore]
    exact hs.commentsPlaced
  · rw [hstore, comments_attachComments]
    exact hs.slash

end Modernizer
