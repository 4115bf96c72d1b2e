import Modernizer.Proofs.Parser.PlacedStatement
import Modernizer.Proofs.Parser.Program

/-! What is parsed is in the order of the source. All nodes are in one tree, children before what
holds them, and each stands in the text inside of what holds it and apart from its neighbours
(`Nested`). -/

namespace Modernizer

open Store Modernizer.Parser

variable {source : Text} {p : Program} {s s' : Store} {lo hi : Nat} {ns : List NodeId}

theorem Form.range_mem_ranges {form : Form} {list : StatementList}
    (h : form.statementList? = some list) : list.range ∈ form.ranges := by
  cases form <;> cases h <;> exact List.mem_cons_self

namespace Store

def Inside (s : Store) (lo : Nat) (ns : List NodeId) (hi : Nat) : Prop :=
  ∀ n ∈ ns, ∃ x, s.get? (some n) = some x ∧ lo ≤ x.pos ∧ x.stop ≤ hi

/-- Each of the nodes ends before the next ones begin. -/
def InOrder (s : Store) (ns : List NodeId) : Prop :=
  ns.Pairwise fun a b =>
    ∀ x y, s.get? (some a) = some x → s.get? (some b) = some y → x.stop ≤ y.pos

/-- All nodes are in one tree whose order is that of the source. -/
structure Nested (source : Text) (s : Store) (root : NodeId) : Prop where
  reachable : ∀ n, n < s.size → s.Below root n
  held_once : ∀ n, n < s.size → n ≠ root → ∃ p, n < p ∧ s.parent (some n) = some p ∧
    ∀ q, (s.slots q).count (some n) = if q = p then 1 else 0
  span : ∀ n x, s.get? (some n) = some x → x.pos ≤ x.stop ∧ x.stop ≤ Text.utf8Length source ∧
    Text.Boundary source x.pos ∧ Text.Boundary source x.stop
  children : ∀ n x, s.get? (some n) = some x →
    s.Inside x.pos x.form.children x.stop ∧ s.InOrder x.form.children
  statements : ∀ n list, s.statementList? (some n) = some list →
    s.Inside list.innerPos (present list.statements) list.innerStop
  lists : ∀ n x, s.get? (some n) = some x → ∀ r ∈ x.form.ranges, s.Inside r.pos r.nodes r.stop

theorem Chain.inside (h : s.Chain lo ns hi) : s.Inside lo ns hi := by
  intro n hn
  obtain ⟨x, hx, hlo, -, hhi⟩ := h.exists_of_mem hn
  exact ⟨x, hx, hlo, hhi⟩

theorem Placed.congr (h : Placed source s) (hnodes : s'.nodes = s.nodes) : Placed source s' := by
  have hget : ∀ n, s'.get? n = s.get? n := fun n => by simp only [get?, hnodes]
  have hext : Extends s s' := fun n x hx => ⟨x, (hget _).trans hx, rfl⟩
  intro n x hx
  exact hext.placedNode (h n x ((hget _).symm.trans hx)) rfl

theorem lt_size_of_holds {n c : NodeId} (h : s.Holds n c) : n < s.size := by
  by_contra hn
  rw [Holds, Store.children, form?, get?_eq_none_iff.2 (Nat.le_of_not_lt hn)] at h
  exact List.not_mem_nil h

section Grows

variable {root n : NodeId} (h : Grows empty s [root])

include h

theorem Grows.exists_parent (hn : n < s.size) (hroot : n ≠ root) :
    ∃ p, s.parent (some n) = some p ∧ s.Holds p n := by
  obtain ⟨p, hp⟩ := Option.ne_none_iff_exists'.1 fun hnone =>
    hroot (List.mem_singleton.1 ((h.roots n).2 ⟨Nat.zero_le _, hn, hnone⟩))
  exact ⟨p, hp, (h.forest.linked p n).2 hp⟩

theorem Grows.below (hn : n < s.size) : s.Below root n := by
  induction hk : s.size - n using Nat.strongRecOn generalizing n with
  | ind k ih =>
    by_cases hroot : n = root
    · exact hroot ▸ .refl
    · obtain ⟨p, -, hholds⟩ := h.exists_parent hn hroot
      have hless : s.size - p < k := hk ▸ Nat.sub_lt_sub_left hn (h.forest.lt p n hholds)
      exact (ih _ hless (lt_size_of_holds hholds) rfl).tail hholds

theorem Grows.held_once (hn : n < s.size) (hroot : n ≠ root) :
    ∃ p, n < p ∧ s.parent (some n) = some p ∧
      ∀ q, (s.slots q).count (some n) = if q = p then 1 else 0 := by
  obtain ⟨p, hp, hholds⟩ := h.exists_parent hn hroot
  refine ⟨p, h.forest.lt p n hholds, hp, fun q => ?_⟩
  rw [← count_children]
  split
  · rename_i hq
    exact hq ▸ List.count_eq_one_of_mem (h.forest.nodup p) hholds
  · rename_i hq
    refine List.count_eq_zero.2 fun hmem => hq ?_
    exact Option.some.inj (((h.forest.linked q n).1 hmem).symm.trans hp)

end Grows

theorem Placed.nested {root : NodeId} (h : Placed source s) (hg : Grows empty s [root]) :
    Nested source s root where
  reachable n hn := hg.below hn
  held_once n hn hroot := hg.held_once hn hroot
  span n x hx := ⟨(h n x hx).span.2.le, (h n x hx).stop.boundary.le, (h n x hx).span.1.boundary,
    (h n x hx).stop.boundary⟩
  children n x hx := ⟨(h n x hx).span.2.inside, (h n x hx).span.2.pairwise⟩
  statements n list hlist := by
    obtain ⟨form, hform, hlist⟩ := Option.bind_eq_some_iff.1 hlist
    obtain ⟨x, hx, rfl⟩ := Option.map_eq_some_iff.1 hform
    exact ((h n x hx).ranges _ (Form.range_mem_ranges hlist)).2.inside
  lists n x hx r hr := ((h n x hx).ranges r hr).2.inside

end Store

namespace Parser

theorem Grammar.inOrder_ofDepth (source : Text) (depth : Nat) :
    (Grammar.ofDepth depth).InOrder source := by
  induction depth with
  | zero =>
    have h : Reads source (do fail .tooDeep (← tokenPos)) ([·]) := fun _ _ =>
      .quiet fun pos => takes_fail
    exact ⟨h, h, fun _ => h, h, h, h, h⟩
  | succ depth ih =>
    exact ⟨reads_statement ih, reads_assignment ih, reads_binary ih, reads_unary ih,
      reads_leftHandSide ih, reads_newExpression ih, reads_bindingTarget ih⟩

theorem reading_ofText (source : Text) : Reading source (.ofText source) where
  scanner := .ofText source
  stop_le := Nat.zero_le _
  cut := Text.cut_zero source
  between := Trivia.between_zero source
  placed n x hx := by cases hx

theorem takes_program {g : Grammar} (hg : g.InOrder source) {s₀ : Store} :
    Takes (Along source s₀ 0 [] [] false) (program g (Text.utf8Length source)) fun n st =>
      Placed source st.store ∧ ∃ x, st.store.get? (some n) = some x ∧ x.pos = 0 ∧
        x.stop = Text.utf8Length source := by
  unfold program
  refine .pass fun _ => .skimWith (skims_statementsUntil hg _) (yields_statementsUntil g _)
    fun statements hsome => ?_
  intro st n st' hst hrun
  cases hrun
  have hspan : Spans source st.store ⟨0, present statements, Text.utf8Length source⟩ :=
    ⟨hst.span.pos, hst.span.chain.weaken hst.reading.scanner.cut_start.boundary.le,
      Text.cut_length source⟩
  obtain ⟨x, hx, e⟩ := get?_add_self st.store
    (.program (.ofParsed statements 0 (Text.utf8Length source))) 0 (Text.utf8Length source)
  simp only [fixed, Prod.mk.injEq] at e
  refine ⟨hst.reading.placed.add hspan (fun r hr => ?_) trivial
    (fun b hb => ?_) (Form.asParsed_ofParsed rfl hsome) nofun, x, hx, e.2.1, e.2.2.1⟩
  · exact List.mem_singleton.1 hr ▸ hspan
  · cases hb
    exact ⟨Nat.le_refl 0, Nat.le_refl _⟩

end Parser

theorem placed_of_parse (h : parse source = .ok p) : Placed source p.store ∧
    ∃ x, p.store.get? (some p.root) = some x ∧ x.pos = 0 ∧ x.stop = Text.utf8Length source := by
  obtain ⟨st, hrun, hnodes, -⟩ := run_of_parse h
  obtain ⟨hplaced, hroot⟩ := takes_program (Grammar.inOrder_ofDepth source _) _ _ _
    ((reading_ofText source).along false) hrun
  refine ⟨hplaced.congr hnodes, ?_⟩
  simpa only [get?, hnodes] using hroot

/-- A parsed program is one tree, and the order of its nodes is that of the source. -/
theorem nested_of_parse (h : parse source = .ok p) : Nested source p.store p.root :=
  (placed_of_parse h).1.nested (grows_of_parse h).1

theorem nested_of_parse_async :
    let source := "async function f([, a]) { switch (a) { case 1: a => a } }".toList
    ∃ p, parse source = .ok p ∧ Nested source p.store p.root := by
  intro source
  obtain ⟨p, hp⟩ := exists_parse_of_isOk source (by decide +kernel)
  exact ⟨p, hp, nested_of_parse hp⟩

end Modernizer
