import Modernizer.Proofs.Tree.Basic
import Modernizer.Scope.Reference

/-! Scoping as the language has it. Parameters, `var` and `function` declarations bind in their
function or the program, `let`, `const` and class declarations in the nearest block or loop with a
head, the target of a handler in its clause. A name resolves to the innermost of the places that
bind it and see the reference. Each node stands in one nearest function or in the program, and the
functions between a reference and one that it stands in are met on the way from owner to owner. -/

namespace Modernizer

namespace Form

def parameters : Form → List Slot
  | functionDeclaration f | functionExpression f => f.parameters.nodes
  | method m => m.parameters.nodes
  | arrow a => a.parameters.nodes
  | _ => []

/-- The parameters and the body of a function. Its name and the key of a method stand outside. -/
def inner : Form → List Slot
  | functionDeclaration f | functionExpression f => f.parameters.nodes ++ [f.body]
  | method m => m.parameters.nodes ++ [m.body]
  | arrow a => a.parameters.nodes ++ [a.body]
  | _ => []

/-- What stands in a block, or in a loop whose head can declare names. The clauses of a `switch` are
one block. -/
def blockParts : Form → List Slot
  | program list | block list => list.statements
  | switchStatement _ clauses => clauses.nodes
  | forStatement a b c d => [a, b, c, d]
  | forInStatement a b c | forOfStatement a b c => [a, b, c]
  | _ => []

/-- The children that see the names bound at a node. -/
def scopeParts : Form → List Slot
  | catchClause target body => [target, body]
  | classExpression c => c.heritage :: c.members.nodes
  | form => form.inner ++ form.blockParts

/-- What a member of an object pattern stands for. -/
def memberParts : Form → List Slot
  | property _ e | shorthandProperty e _ | spread e => [e]
  | _ => []

/-- The children that declare names. -/
def targets : Form → List Slot
  | declaration e _ | catchClause e _ | parameter e _ _ => [e]
  | form => form.parameters

/-- A child that is a name and does not stand for a variable. -/
def plainName : Form → Slot
  | functionDeclaration f | functionExpression f => f.name
  | classDeclaration c | classExpression c => c.name
  | method m => m.name
  | property e _ | member _ e _ | labeledStatement e _ | breakStatement e | continueStatement e => e
  | _ => none

theorem inner_sublist (form : Form) : form.inner.Sublist form.slots := by
  cases form <;> simp [inner, slots]

theorem inner_subset (form : Form) : form.inner ⊆ form.slots := form.inner_sublist.subset

theorem memberParts_subset (form : Form) : form.memberParts ⊆ form.slots := by
  cases form <;> simp [memberParts, slots]

end Form

namespace Store

open Relation

variable (s : Store) (root : NodeId)

/-- The parts of a pattern. -/
def components : Form → List Slot
  | .object list => list.nodes.flatMap fun p => ((s.form? p).map Form.memberParts).getD []
  | .array list => list.nodes
  | .spread e | .parenthesized e => [e]
  | _ => []

/-- The parts of a pattern that is declared. Patterns are read as expressions, and a default value
as the right side of an operator. -/
def parts : Form → List Slot
  | .parameter e _ _ | .binary e _ _ => [e]
  | form => s.components form

/-- The first node is a pattern and the second one a part of it that is declared with it. -/
def Pattern : NodeId → NodeId → Prop :=
  ReflTransGen fun n m => ∃ form, s.form? (some n) = some form ∧ some m ∈ s.parts form

/-- The pattern declares the name. -/
def Names (t : NodeId) (x : String) : Prop :=
  ∃ n, s.Pattern t n ∧ s.form? (some n) = some (.identifier x)

/-- The list has a declarator with this target. -/
def Declarator (l : NodeId) (kind : DeclarationKind) (d t : NodeId) : Prop :=
  ∃ list initializer, s.form? (some l) = some (.declarationList list) ∧ list.kind = kind ∧
    some d ∈ list.declarations.nodes ∧ s.form? (some d) = some (.declaration (some t) initializer)

/-- The first node is the innermost whose `parts` the second one stands in, or the root. -/
inductive Nearest (parts : Form → List Slot) : NodeId → NodeId → Prop where
  | root : Nearest parts root root
  | into {o p c form} : Nearest parts o p → s.form? (some p) = some form → some c ∈ form.slots →
      some c ∈ parts form → Nearest parts p c
  | past {o p c form} : Nearest parts o p → s.form? (some p) = some form → some c ∈ form.slots →
      some c ∉ parts form → Nearest parts o c

/-- The function or program that a node stands in. -/
def Owns : NodeId → NodeId → Prop := s.Nearest root Form.inner

/-- A `let`, `const` or class declaration at the node declares the name. -/
inductive BlockDeclares (i : NodeId) (x : String) : Prop where
  | list {kind d t} : s.Declarator i kind d t → kind ≠ .varKind → s.Names t x → BlockDeclares i x
  | class_ {c} : s.form? (some i) = some (.classDeclaration c) → s.identifierName? c.name = some x →
      BlockDeclares i x

def HandlerDeclares (i : NodeId) (x : String) : Prop :=
  ∃ t body, s.form? (some i) = some (.catchClause (some t) body) ∧ s.Names t x

/-- The name is bound at the node. -/
inductive Binds : NodeId → String → Prop where
  | parameter {f form t x} : s.form? (some f) = some form → some t ∈ form.parameters → s.Names t x →
      Binds f x
  | itself {f g x} : s.form? (some f) = some (.functionExpression g) →
      s.identifierName? g.name = some x → Binds f x
  | variable_ {f l d t x} : s.Owns root f l → s.Declarator l .varKind d t → s.Names t x → Binds f x
  | function {f i g x} : s.Owns root f i → s.form? (some i) = some (.functionDeclaration g) →
      s.identifierName? g.name = some x → Binds f x
  | block {b i x} : s.Nearest root Form.blockParts b i → s.BlockDeclares i x → Binds b x
  | handler {i x} : s.HandlerDeclares i x → Binds i x
  | class_ {i c x} : s.form? (some i) = some (.classExpression c) →
      s.identifierName? c.name = some x → Binds i x

def Sees (c r : NodeId) : Prop :=
  ∃ form e, s.form? (some c) = some form ∧ some e ∈ form.scopeParts ∧ s.Below e r

/-- The name means at the second node what it is bound to at the first. -/
structure Resolves (r : NodeId) (x : String) (c : NodeId) : Prop where
  binds : s.Binds root c x
  sees : s.Sees c r
  innermost : ∀ c', s.Binds root c' x → s.Sees c' r → s.Below c' c

/-- A part of what a declaration or parameter declares. -/
inductive Bound : NodeId → Prop where
  | target {p t form} : s.form? (some p) = some form → some t ∈ form.targets → Bound t
  | part {n m form} : Bound n → s.form? (some n) = some form →
      some m ∈ s.parts form ++ form.memberParts → Bound m

/-- An identifier that refers to a variable and does not declare it. -/
structure Refers (r : NodeId) (x : String) : Prop where
  below : s.Below root r
  form : s.form? (some r) = some (.identifier x)
  notBound : ¬ s.Bound r
  notPlain : ∀ p form, s.form? (some p) = some form → some r ∈ form.slots →
    form.plainName ≠ some r

/-- The node is assigned or updated, or a part of a pattern that is. -/
inductive Assigned : NodeId → Prop where
  | assignment {p n operator right} :
      s.form? (some p) = some (.binary (some n) operator right) → operator.isAssignment = true →
      Assigned n
  | prefixUpdate {p n operator} : s.form? (some p) = some (.prefixUnary operator (some n)) →
      Scope.isUpdate operator = true → Assigned n
  | postfixUpdate {p n operator} : s.form? (some p) = some (.postfixUnary (some n) operator) →
      Scope.isUpdate operator = true → Assigned n
  | forIn {p n e body} : s.form? (some p) = some (.forInStatement (some n) e body) →
      Scope.isDeclarationList s (some n) = false → Assigned n
  | forOf {p n e body} : s.form? (some p) = some (.forOfStatement (some n) e body) →
      Scope.isDeclarationList s (some n) = false → Assigned n
  | component {n m form} : Assigned n → s.form? (some n) = some form → some m ∈ s.components form →
      Assigned m

/-- The declarations stand directly in the block, program or case clause, or in the head of the
loop. -/
inductive HeldBy (l c : NodeId) : Prop where
  | statement {i form} : s.form? (some i) = some (.variableStatement (some l)) → s.Holds c i →
      s.form? (some c) = some form → form.statementList?.isSome = true → HeldBy l c
  | head : s.Holds c l → Scope.isLoopHead s (some c) (some l) = true → HeldBy l c

/-- The node is in the parameters or the body of the function. -/
def StandsIn (r g : NodeId) : Prop :=
  ∃ form e, s.form? (some g) = some form ∧ some e ∈ form.inner ∧ s.Below e r

def DeclaresInside (g : NodeId) (x : String) : Prop :=
  ∃ i, s.Owns root g i ∧ (s.BlockDeclares i x ∨ s.HandlerDeclares i x)

/-- Between the outer function and the reference, another one has a block or a handler that declares
the name. -/
def Hidden (f r : NodeId) (x : String) : Prop :=
  ∃ g, s.Below f g ∧ g ≠ f ∧ s.StandsIn r g ∧ s.DeclaresInside root g x

end Store

theorem Form.scopeParts_of_inner {form : Form} {e : Slot} (h : e ∈ form.inner) :
    form.scopeParts = form.inner := by
  cases form <;> first | (exact (List.not_mem_nil h).elim) | simp [scopeParts, inner, blockParts]

theorem Form.isFunctionLike_of_inner (form : Form) {e : Slot} (h : e ∈ form.inner) :
    form.isFunctionLike = true := by
  cases form <;> first | rfl | exact (List.not_mem_nil h).elim

namespace Store

variable {s : Store} {root c e f g n o o' r : NodeId} {x : String} {form : Form}
  {parts : Form → List Slot}

theorem Nearest.isBelow (h : s.Nearest root parts o n) : s.Below root o ∧ s.Below o n := by
  induction h with
  | root => exact ⟨.refl, .refl⟩
  | into h hf hc _ ih => exact ⟨ih.1.trans ih.2, (holds_of_form hf hc).below⟩
  | past h hf hc _ ih => exact ⟨ih.1, ih.2.tail (holds_of_form hf hc)⟩

theorem Nearest.below_root (h : s.Nearest root parts o n) : s.Below root n :=
  h.isBelow.1.trans h.isBelow.2

theorem exists_nearest (parts : Form → List Slot) (h : s.Below root n) :
    ∃ o, s.Nearest root parts o n := by
  induction h with
  | refl => exact ⟨root, .root⟩
  | @tail p c _ hc ih =>
    obtain ⟨o, ho⟩ := ih
    obtain ⟨form, hf, hslot⟩ : ∃ form, s.form? (some p) = some form ∧ some c ∈ form.slots := by
      have hc' := holds_iff_mem_slots.1 hc
      unfold slots at hc'
      cases hf : s.form? (some p) with
      | none => simp [hf] at hc'
      | some form => exact ⟨form, rfl, by simpa [hf] using hc'⟩
    by_cases hin : some c ∈ parts form
    · exact ⟨p, .into ho hf hslot hin⟩
    · exact ⟨o, .past ho hf hslot hin⟩

theorem Nearest.eq_or_stands (h : s.Nearest root parts o n) :
    o = root ∨ ∃ form e, s.form? (some o) = some form ∧ some e ∈ parts form ∧ s.Below e n := by
  induction h with
  | root => exact .inl rfl
  | into _ hf _ hin _ => exact .inr ⟨_, _, hf, hin, .refl⟩
  | past _ hf hc _ ih =>
    refine ih.imp_right ?_
    rintro ⟨form, e, hf', he, hb⟩
    exact ⟨form, e, hf', he, hb.tail (holds_of_form hf hc)⟩

theorem Owns.eq_or_standsIn (h : s.Owns root o n) : o = root ∨ s.StandsIn n o := h.eq_or_stands

namespace TreeAt

variable (t : s.TreeAt root)

include t

theorem nearest_unique (h : s.Nearest root parts o n) (h' : s.Nearest root parts o' n) :
    o = o' := by
  induction h generalizing o' with
  | root =>
    cases h' with
    | root => rfl
    | into h hf hc _ => exact (t.not_holds_root h.below_root (holds_of_form hf hc)).elim
    | past h hf hc _ => exact (t.not_holds_root h.below_root (holds_of_form hf hc)).elim
  | @into _ p c form h hf hc hin ih =>
    cases h' with
    | root => exact (t.not_holds_root h.below_root (holds_of_form hf hc)).elim
    | into h₂ hf₂ hc₂ _ =>
      exact t.holder_unique h.below_root h₂.below_root (holds_of_form hf hc) (holds_of_form hf₂ hc₂)
    | past h₂ hf₂ hc₂ hin₂ =>
      obtain rfl := t.holder_unique h.below_root h₂.below_root (holds_of_form hf hc)
        (holds_of_form hf₂ hc₂)
      rw [hf] at hf₂
      cases hf₂
      exact (hin₂ hin).elim
  | @past _ p c form h hf hc hin ih =>
    cases h' with
    | root => exact (t.not_holds_root h.below_root (holds_of_form hf hc)).elim
    | into h₂ hf₂ hc₂ hin₂ =>
      obtain rfl := t.holder_unique h.below_root h₂.below_root (holds_of_form hf hc)
        (holds_of_form hf₂ hc₂)
      rw [hf] at hf₂
      cases hf₂
      exact (hin hin₂).elim
    | past h₂ hf₂ hc₂ _ =>
      obtain rfl := t.holder_unique h.below_root h₂.below_root (holds_of_form hf hc)
        (holds_of_form hf₂ hc₂)
      exact ih h₂

theorem below_owner (hg : s.Below root g) (hn : s.StandsIn n g) (ho : s.Owns root o n) :
    s.Below g o := by
  obtain ⟨form, e, hf, he, hen⟩ := hn
  have hslot : some e ∈ form.slots := form.inner_subset he
  induction hen generalizing o with
  | refl =>
    obtain ⟨o', ho'⟩ := exists_nearest Form.inner hg
    exact t.nearest_unique (.into ho' hf hslot he) ho ▸ .refl
  | @tail m n hem hn ih =>
    cases ho with
    | root =>
      have hm : s.Below root m := (hg.tail (holds_of_form hf hslot)).trans hem
      exact (t.not_holds_root hm hn).elim
    | into ho hf' hc' _ =>
      have hm : s.Below root m := (hg.tail (holds_of_form hf hslot)).trans hem
      obtain rfl := t.holder_unique hm ho.below_root hn (holds_of_form hf' hc')
      exact (holds_of_form hf hslot).below.trans hem
    | past ho hf' hc' _ =>
      have hm : s.Below root m := (hg.tail (holds_of_form hf hslot)).trans hem
      obtain rfl := t.holder_unique hm ho.below_root hn (holds_of_form hf' hc')
      exact ih ho

theorem standsIn_between (hg : s.Below root g) (hr : s.StandsIn r g) (hn : s.Below g n)
    (hne : n ≠ g) (hnr : s.Below n r) : s.StandsIn n g := by
  obtain ⟨form, e, hf, he, her⟩ := hr
  refine ⟨form, e, hf, he, ?_⟩
  have hge : s.Holds g e := holds_of_form hf (form.inner_subset he)
  rcases Relation.ReflTransGen.cases_head hn with rfl | ⟨c, hc, hcn⟩
  · exact (hne rfl).elim
  · by_cases hec : c = e
    · exact hec ▸ hcn
    · exact (t.apart_siblings hg hc hge hec r (Below.trans hcn hnr) her).elim

end TreeAt

theorem StandsIn.below (h : s.StandsIn r g) : s.Below g r := by
  obtain ⟨form, e, hf, he, her⟩ := h
  exact (holds_of_form hf (form.inner_subset he)).below.trans her

theorem StandsIn.trans (h : s.StandsIn n g) (hr : s.Below n r) : s.StandsIn r g := by
  obtain ⟨form, e, hf, he, hen⟩ := h
  exact ⟨form, e, hf, he, hen.trans hr⟩

theorem Sees.eq_or_standsIn (h : s.Sees f r) (hf : s.Owns root f n) :
    f = root ∨ s.StandsIn r f := by
  refine hf.eq_or_standsIn.imp_right fun hin => ?_
  obtain ⟨form, e, hform, he, her⟩ := h
  obtain ⟨form', e', hform', he', -⟩ := hin
  rw [hform] at hform'
  cases hform'
  exact ⟨form, e, hform, Form.scopeParts_of_inner he' ▸ he, her⟩

end Store
end Modernizer
