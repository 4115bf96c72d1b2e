import Modernizer.Proofs.Token.Boundary
import Modernizer.Proofs.Tree.Basic
import Modernizer.Proofs.Tree.View

/-! Nodes in the order of the source. A chain of nodes goes from one offset to another without
overlap; the children of a node are a chain over its span, and what is listed in it is a chain over
the range of the list (`Placed`). The source may be cut at both ends of a node. -/

namespace Modernizer

open Store

/-- Nodes that are listed one after the other, and the range of the text they are listed in. -/
structure Range where
  pos : Nat
  nodes : List NodeId
  stop : Nat

def NodeList.range (l : NodeList) : Range := ⟨l.pos, present l.nodes, l.stop⟩

def StatementList.range (l : StatementList) : Range :=
  ⟨l.innerPos, present l.statements, l.innerStop⟩

/-- The lists in a form that have a range of their own. -/
def Form.ranges : Form → List Range
  | program list | block list | caseClause _ list => [list.range]
  | declarationList list => [list.declarations.range]
  | functionDeclaration f | functionExpression f => [f.parameters.range]
  | arrow a => [a.parameters.range]
  | method m => [m.parameters.range]
  | classDeclaration c | classExpression c => [c.members.range]
  | switchStatement _ list | array list | object list | call _ list _ | new _ (some list) =>
    [list.range]
  | template t => [t.expressions.range]
  | _ => []

/-- Declarations follow the keyword they are spelled with, up to the end of their list, and names have
only characters of names. -/
def Form.Worded (source : Text) (pos stop : Nat) : Form → Prop
  | declarationList list => list.kind = list.spelledKind ∧
      pos + Text.utf8Length list.kind.keyword.toList ≤ list.declarations.pos ∧
      list.declarations.stop ≤ stop ∧ ∃ before after, pos = Text.utf8Length before ∧
        source = before ++ (list.kind.keyword.toList ++ after)
  | identifier name => ∀ c ∈ name.toList, Text.isIdentifierPart c = true
  | _ => True

/-- What a form lists between braces, or a program or a clause without them, and the children in front
of the list. -/
def Form.body? : Form → Option (List NodeId × Range)
  | program list | block list => some ([], list.range)
  | caseClause e list => some (present [e], list.range)
  | object list => some ([], list.range)
  | classDeclaration c | classExpression c => some (present [c.name, c.heritage], c.members.range)
  | _ => none

def Form.AsParsed (form : Form) : Prop :=
  ∀ list, form.statementList? = some list → list.parsed = list.statements ∧ none ∉ list.statements

theorem Form.asParsed_of_statementList? {form : Form} (h : form.statementList? = none) :
    form.AsParsed := by
  intro list hlist
  rw [h] at hlist
  cases hlist

theorem Form.asParsed_of_body? {form : Form} (h : form.body? = none) : form.AsParsed := by
  cases form with
  | program | block | caseClause => cases h
  | _ => exact asParsed_of_statementList? rfl

theorem Form.asParsed_ofParsed {form : Form} {statements : List Slot} {innerPos innerStop : Nat}
    (h : form.statementList? = some (.ofParsed statements innerPos innerStop))
    (hsome : none ∉ statements) : form.AsParsed := by
  intro list hlist
  rw [h] at hlist
  cases hlist
  exact ⟨rfl, hsome⟩

/-- A form without a body, worded as it should be, that is no statement of an expression. -/
def Form.Simple (source : Text) (pos stop : Nat) (form : Form) : Prop :=
  form.Worded source pos stop ∧ form.body? = none ∧ ∀ e, form ≠ .expressionStatement (some e)

theorem Form.of_body? {form : Form} {ns : List NodeId} {r : Range} (h : form.body? = some (ns, r)) :
    form.children = ns ++ r.nodes ∧ form.ranges = [r] ∧
      (∀ source pos stop, form.Worded source pos stop) ∧ ∀ e, form ≠ .expressionStatement (some e) := by
  cases form with
  | program | block | object =>
    cases h
    exact ⟨rfl, rfl, fun _ _ _ => trivial, nofun⟩
  | caseClause e list =>
    cases h
    exact ⟨present_cons e list.statements, rfl, fun _ _ _ => trivial, nofun⟩
  | classDeclaration c | classExpression c =>
    cases h
    exact ⟨present_append (l := [c.name, c.heritage]), rfl, fun _ _ _ => trivial, nofun⟩
  | _ => cases h

theorem Form.simple_of_ranges {form : Form} (h : form.ranges = [])
    (hname : ∀ name, form ≠ .identifier name) (hform : ∀ e, form ≠ .expressionStatement (some e))
    (source : Text) (pos stop : Nat) : form.Simple source pos stop := by
  have hworded : form.Worded source pos stop := by
    cases form with
    | identifier name => exact absurd rfl (hname name)
    | declarationList => cases h
    | _ => trivial
  refine ⟨hworded, ?_, hform⟩
  cases hbody : form.body? with
  | none => rfl
  | some b =>
    have hranges := (of_body? hbody).2.1
    rw [h] at hranges
    cases hranges

namespace Store

variable {s s' s'' : Store} {source : Text} {n : NodeId} {ns ms : List NodeId} {form : Form}
  {lo mid hi pos stop : Nat} {r : Range}

/-- The nodes follow each other from one offset to the other. -/
def Chain (s : Store) : Nat → List NodeId → Nat → Prop
  | lo, [], hi => lo ≤ hi
  | lo, n :: ns, hi => ∃ x, s.get? (some n) = some x ∧ lo ≤ x.pos ∧ x.pos ≤ x.stop ∧
      s.Chain x.stop ns hi

namespace Chain

theorem le (h : s.Chain lo ns hi) : lo ≤ hi := by
  induction ns generalizing lo with
  | nil => exact h
  | cons n ns ih =>
    obtain ⟨x, -, hlo, hx, h⟩ := h
    exact Nat.le_trans hlo (Nat.le_trans hx (ih h))

theorem weaken (h : s.Chain lo ns hi) (hle : hi ≤ mid) : s.Chain lo ns mid := by
  induction ns generalizing lo with
  | nil => exact Nat.le_trans h hle
  | cons n ns ih =>
    obtain ⟨x, hx, hlo, hpos, h⟩ := h
    exact ⟨x, hx, hlo, hpos, ih h⟩

theorem lower (h : s.Chain mid ns hi) (hle : lo ≤ mid) : s.Chain lo ns hi := by
  cases ns with
  | nil => exact Nat.le_trans hle h
  | cons n ns =>
    obtain ⟨x, hx, hmid, h⟩ := h
    exact ⟨x, hx, Nat.le_trans hle hmid, h⟩

theorem append (h : s.Chain lo ns mid) (h' : s.Chain mid ms hi) : s.Chain lo (ns ++ ms) hi := by
  induction ns generalizing lo with
  | nil =>
    cases ms with
    | nil => exact Nat.le_trans h h'
    | cons m ms =>
      obtain ⟨x, hx, hmid, h'⟩ := h'
      exact ⟨x, hx, Nat.le_trans h hmid, h'⟩
  | cons n ns ih =>
    obtain ⟨x, hx, hlo, hpos, h⟩ := h
    exact ⟨x, hx, hlo, hpos, ih h⟩

theorem exists_of_mem (h : s.Chain lo ns hi) (hn : n ∈ ns) :
    ∃ x, s.get? (some n) = some x ∧ lo ≤ x.pos ∧ x.pos ≤ x.stop ∧ x.stop ≤ hi := by
  induction ns generalizing lo with
  | nil => cases hn
  | cons m ns ih =>
    obtain ⟨x, hx, hlo, hpos, h⟩ := h
    rcases List.mem_cons.1 hn with rfl | hn
    · exact ⟨x, hx, hlo, hpos, h.le⟩
    · obtain ⟨y, hy, hle, hy'⟩ := ih h hn
      exact ⟨y, hy, Nat.le_trans hlo (Nat.le_trans hpos hle), hy'⟩

theorem pairwise (h : s.Chain lo ns hi) : ns.Pairwise fun a b =>
    ∀ x y, s.get? (some a) = some x → s.get? (some b) = some y → x.stop ≤ y.pos := by
  induction ns generalizing lo with
  | nil => exact .nil
  | cons n ns ih =>
    obtain ⟨x, hx, -, -, h⟩ := h
    refine .cons (fun m hm x' y hx' hy => ?_) (ih h)
    obtain ⟨y', hy', hle, -⟩ := h.exists_of_mem hm
    rw [hx] at hx'
    rw [hy] at hy'
    cases hx'
    cases hy'
    exact hle

end Chain

/-- The source may be cut where the range begins and ends, and its nodes are a chain over it. -/
structure Spans (source : Text) (s : Store) (r : Range) : Prop where
  pos : Text.Cut source r.pos
  chain : s.Chain r.pos r.nodes r.stop
  stop : Text.Cut source r.stop

/-- A statement of an expression begins with the expression, and a semicolon at most follows. -/
def Stating (source : Text) (s : Store) (pos stop : Nat) (form : Form) : Prop :=
  ∀ e, form = .expressionStatement (some e) →
    ∃ y, s.get? (some e) = some y ∧ y.pos = pos ∧ Trivia.Concluded source y.stop stop

/-- The node is as it was parsed, and its children and lists are where they should be. -/
structure PlacedNode (source : Text) (s : Store) (x : Node) : Prop where
  pristine : x.isPristine = true
  unedited : x.listEdited = false
  span : Spans source s ⟨x.pos, x.form.children, x.stop⟩
  ranges : ∀ r ∈ x.form.ranges, Spans source s r
  worded : x.form.Worded source x.pos x.stop
  body_inside : ∀ b ∈ x.form.body?, s.Chain x.pos b.1 b.2.pos ∧ b.2.stop ≤ x.stop
  as_parsed : x.form.AsParsed
  stating : Stating source s x.pos x.stop x.form

/-- Every node has its place in the source. -/
def Placed (source : Text) (s : Store) : Prop :=
  ∀ n x, s.get? (some n) = some x → PlacedNode source s x

/-- What does not change of a node while others are added. -/
def fixed (x : Node) : Form × Nat × Nat × Bool × Bool :=
  (x.form, x.pos, x.stop, x.isPristine, x.listEdited)

/-- Nodes may have been added, and those there were have not changed. -/
def Extends (s s' : Store) : Prop :=
  ∀ n x, s.get? (some n) = some x → ∃ y, s'.get? (some n) = some y ∧ fixed y = fixed x

namespace Extends

theorem refl (s : Store) : Extends s s := fun _ x hx => ⟨x, hx, rfl⟩

theorem trans (h : Extends s s') (h' : Extends s' s'') : Extends s s'' := fun n x hx => by
  obtain ⟨y, hy, e⟩ := h n x hx
  obtain ⟨z, hz, e'⟩ := h' n y hy
  exact ⟨z, hz, e'.trans e⟩

theorem form? {m : Slot} (h : Extends s s') (hm : s.form? m = some form) :
    s'.form? m = some form := by
  cases m with
  | none => cases hm
  | some m =>
    obtain ⟨x, hx, rfl⟩ := Option.map_eq_some_iff.1 hm
    obtain ⟨y, hy, e⟩ := h m x hx
    exact Option.map_eq_some_iff.2 ⟨y, hy, congrArg (·.1) e⟩

theorem chain (h : Extends s s') (hc : s.Chain lo ns hi) : s'.Chain lo ns hi := by
  induction ns generalizing lo with
  | nil => exact hc
  | cons n ns ih =>
    obtain ⟨x, hx, hlo, hpos, hc⟩ := hc
    obtain ⟨y, hy, e⟩ := h n x hx
    simp only [fixed, Prod.mk.injEq] at e
    exact ⟨y, hy, e.2.1 ▸ hlo, e.2.1 ▸ e.2.2.1 ▸ hpos, ih (e.2.2.1 ▸ hc)⟩

theorem spans (h : Extends s s') (hr : Spans source s r) : Spans source s' r :=
  { hr with chain := h.chain hr.chain }

theorem stating (h : Extends s s') (hform : Stating source s pos stop form) :
    Stating source s' pos stop form := by
  intro e he
  obtain ⟨x, hx, hpos, hconcluded⟩ := hform e he
  obtain ⟨y, hy, heq⟩ := h e x hx
  simp only [fixed, Prod.mk.injEq] at heq
  exact ⟨y, hy, heq.2.1.trans hpos, heq.2.2.1 ▸ hconcluded⟩

theorem placedNode {x y : Node} (h : Extends s s') (hx : PlacedNode source s x)
    (e : fixed y = fixed x) : PlacedNode source s' y := by
  simp only [fixed, Prod.mk.injEq] at e
  obtain ⟨hform, hpos, hstop, hpristine, hedited⟩ := e
  refine ⟨hpristine.trans hx.pristine, hedited.trans hx.unedited, ?_, fun r hr => ?_, ?_,
    fun b hb => ?_, hform ▸ hx.as_parsed, ?_⟩
  · rw [hform, hpos, hstop]
    exact h.spans hx.span
  · rw [hform] at hr
    exact h.spans (hx.ranges r hr)
  · rw [hform, hpos, hstop]
    exact hx.worded
  · rw [hform] at hb
    obtain ⟨hchain, hle⟩ := hx.body_inside b hb
    rw [hpos, hstop]
    exact ⟨h.chain hchain, hle⟩
  · rw [hform, hpos, hstop]
    exact h.stating hx.stating

end Extends

theorem fixed_add (s : Store) (form : Form) (pos stop : Nat) (m : NodeId) :
    ((s.add form pos stop).2.get? (some m)).map fixed =
      if m = s.size then some (form, pos, stop, true, false) else (s.get? (some m)).map fixed := by
  let pushed : Store := { s with
    nodes := s.nodes.push ⟨form, pos, stop, none, none, false, false, false⟩ }
  have hpushed : (pushed.get? (some m)).map fixed =
      if m = s.size then some (form, pos, stop, true, false) else (s.get? (some m)).map fixed := by
    by_cases hm : m = s.nodes.size <;>
      simp [pushed, get?, size, Array.getElem?_push, hm, fixed, Node.isPristine]
  exact (agree_adoptChildren (fun _ _ => rfl) pushed s.size (some m)).trans hpushed

theorem exists_of_add {m : NodeId} {x : Node} (hx : (s.add form pos stop).2.get? (some m) = some x) :
    (∃ y, s.get? (some m) = some y ∧ y.stop = x.stop) ∨ x.stop = stop := by
  have hadd := fixed_add s form pos stop m
  rw [hx] at hadd
  split at hadd
  · exact .inr (congrArg (·.2.2.1) (Option.some.inj hadd))
  · obtain ⟨y, hy, e⟩ := Option.map_eq_some_iff.1 hadd.symm
    exact .inl ⟨y, hy, congrArg (·.2.2.1) e⟩

theorem get?_add_self (s : Store) (form : Form) (pos stop : Nat) :
    ∃ x, (s.add form pos stop).2.get? (some (s.add form pos stop).1) = some x ∧
      fixed x = (form, pos, stop, true, false) :=
  Option.map_eq_some_iff.1 ((fixed_add s form pos stop s.size).trans (if_pos rfl))

theorem extends_add (s : Store) (form : Form) (pos stop : Nat) :
    Extends s (s.add form pos stop).2 := by
  intro m x hx
  have hm : m ≠ s.size := by
    rintro rfl
    rw [get?_eq_none_iff.2 Nat.le.refl] at hx
    cases hx
  have h := fixed_add s form pos stop m
  rw [if_neg hm, hx] at h
  exact Option.map_eq_some_iff.1 h

theorem Placed.add (h : Placed source s) (hspan : Spans source s ⟨pos, form.children, stop⟩)
    (hranges : ∀ r ∈ form.ranges, Spans source s r) (hworded : form.Worded source pos stop)
    (hbody : ∀ b ∈ form.body?, s.Chain pos b.1 b.2.pos ∧ b.2.stop ≤ stop)
    (hparsed : form.AsParsed) (hstating : Stating source s pos stop form) :
    Placed source (s.add form pos stop).2 := by
  have hext := extends_add s form pos stop
  intro m y hy
  have hm := fixed_add s form pos stop m
  rw [hy] at hm
  split at hm
  · have hnew : PlacedNode source s ⟨form, pos, stop, none, none, false, false, false⟩ :=
      ⟨rfl, rfl, hspan, hranges, hworded, hbody, hparsed, hstating⟩
    exact hext.placedNode hnew (Option.some.inj hm)
  · obtain ⟨x, hx, e⟩ := Option.map_eq_some_iff.1 hm.symm
    exact hext.placedNode (h m x hx) e.symm

end Store

theorem Store.PlacedNode.stop {source : Text} {s : Store} {x : Node} (h : PlacedNode source s x) :
    Text.Cut source x.stop := h.span.stop

end Modernizer
