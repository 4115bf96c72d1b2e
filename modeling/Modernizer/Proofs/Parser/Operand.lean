import Mathlib.Logic.Relation
import Modernizer.Proofs.Parser.Along
import Modernizer.Proofs.Parser.Keeping

/-! What an expression may be an operand of, and where an `in` could be taken for that of a loop. A
step of the parser leaves the context as it was and builds nothing that does not fit (`Obeys`); one
that reads an expression tells how tightly that binds, too (`Expresses`). -/

namespace Modernizer

namespace TokenKind

/-- The level that an operand on the left has at least. -/
def leftLevel (operator : TokenKind) : Nat :=
  if operator = .punctuator .starStar then operator.binaryPrecedence + 1
  else operator.binaryPrecedence

/-- The level that an operand on the right has at least. -/
def rightLevel (operator : TokenKind) : Nat :=
  if operator = .punctuator .starStar then operator.binaryPrecedence
  else operator.binaryPrecedence + 1

theorem eq_starStar {operator : TokenKind} (h : operator.binaryPrecedence = 12) :
    operator = .punctuator .starStar := by
  unfold binaryPrecedence at h
  split at h <;> first | rfl | cases h

theorem leftLevel_le (operator : TokenKind) : operator.leftLevel ≤ 13 := by
  have := operator.binaryPrecedence_le
  unfold leftLevel
  split <;> omega

theorem rightLevel_le (operator : TokenKind) : operator.rightLevel ≤ 13 := by
  have := operator.binaryPrecedence_le
  unfold rightLevel
  split <;> omega

theorem leftLevel_le_of_lt {operator other : TokenKind}
    (h : operator.binaryPrecedence < other.rightLevel) :
    operator.leftLevel ≤ other.binaryPrecedence := by
  have hle := other.binaryPrecedence_le
  unfold rightLevel at h
  unfold leftLevel
  split
  · rename_i hpower
    subst hpower
    have hpower : (TokenKind.punctuator .starStar).binaryPrecedence = 12 := rfl
    split at h
    · omega
    · rename_i hother
      exact absurd (eq_starStar (by omega)) hother
  · split at h <;> omega

theorem rightLevel_eq {operator : TokenKind} (h : 0 < operator.binaryPrecedence) :
    (if operator == .punctuator .starStar then operator.binaryPrecedence - 1
      else operator.binaryPrecedence) + 1 = operator.rightLevel := by
  unfold rightLevel
  by_cases he : operator = .punctuator .starStar
  · rw [if_pos (beq_iff_eq.2 he), if_pos he]
    omega
  · rw [if_neg (beq_iff_eq.not.2 he), if_neg he]

end TokenKind

namespace Form

/-- How tightly a form binds: a binary operator by its precedence, and what is never an operand of
one not at all. -/
def level : Form → Nat
  | binary _ operator _ => operator.binaryPrecedence
  | conditional .. | arrow _ | yield .. => 0
  | _ => 13

def isLoose : Form → Bool
  | binary _ operator _ => operator.isAssignment || operator == .punctuator .comma
  | conditional .. | arrow _ | yield .. => true
  | _ => false

/-- The operator `in`. -/
def isIn : Form → Bool
  | binary _ (.keyword .inWord) _ => true
  | _ => false

/-- The part of a loop head in front of its first semicolon, `in` or `of`. -/
def loopHead : Form → Slot
  | forStatement initializer .. => initializer
  | forInStatement target .. | forOfStatement target .. => target
  | _ => none

/-- The children that are not between parentheses, brackets or braces, and not between the question
mark and the colon of a conditional expression. -/
def exposed : Form → List Slot
  | program _ | block _ | parenthesized _ | computedName _ | array _ | object _ | template _ => []
  | functionDeclaration f | functionExpression f => [f.name]
  | classDeclaration c | classExpression c => [c.name, c.heritage]
  | method m => [m.name]
  | arrow a => if a.bareParameter then a.parameters.nodes ++ [a.body] else [a.body]
  | call e _ _ | new e _ | element e _ _ => [e]
  | conditional condition _ whenFalse => [condition, whenFalse]
  | f => f.slots

/-- Forms that may have any children. -/
@[reducible]
def isFree : Form → Bool
  | binary .. | forStatement .. | forInStatement .. | forOfStatement .. => false
  | _ => true

/-- Forms of expressions with delimiters of their own, and of single tokens. -/
@[reducible]
def isSealed : Form → Bool
  | identifier _ | thisExpression | superExpression | nullLiteral | booleanLiteral _
  | numberLiteral _ | bigIntLiteral _ | stringLiteral _ | regexLiteral _ | template _ | array _
  | object _ | parenthesized _ | block _ => true
  | _ => false

/-- An operand to the left of the operator. -/
structure IsLeftOperand (operator : TokenKind) (form : Form) : Prop where
  firm : form.isLoose = false
  binds : ∀ a other b, form = .binary a other b →
    operator.binaryPrecedence ≤ other.binaryPrecedence ∧
      (operator = .punctuator .starStar → operator.binaryPrecedence < other.binaryPrecedence)

/-- An operand to the right of the operator. -/
structure IsRightOperand (operator : TokenKind) (form : Form) : Prop where
  firm : form.isLoose = false
  binds : ∀ a other b, form = .binary a other b →
    operator.binaryPrecedence ≤ other.binaryPrecedence ∧
      (operator ≠ .punctuator .starStar → operator.binaryPrecedence < other.binaryPrecedence)

variable {form : Form} {operator : TokenKind}

theorem isLoose_of_level (h : 0 < form.level) : form.isLoose = false := by
  cases form with
  | binary a other b =>
    change 0 < other.binaryPrecedence at h
    have hassigns : other.isAssignment = false := Bool.eq_false_iff.2 fun hassigns =>
      h.ne' (TokenKind.binaryPrecedence_of_isAssignment hassigns)
    have hcomma : (other == .punctuator .comma) = false := beq_eq_false_iff_ne.2 fun he =>
      absurd (he ▸ h) (by decide)
    rw [isLoose, hassigns, hcomma]
    rfl
  | conditional | arrow | yield => exact absurd h (Nat.lt_irrefl 0)
  | _ => rfl

theorem isLeftOperand_of_level (hop : 0 < operator.binaryPrecedence)
    (h : operator.leftLevel ≤ form.level) : form.IsLeftOperand operator := by
  unfold TokenKind.leftLevel at h
  refine ⟨isLoose_of_level (by split at h <;> omega), ?_⟩
  rintro a other b rfl
  change _ ≤ other.binaryPrecedence at h
  split at h
  · exact ⟨by omega, fun _ => h⟩
  · rename_i hne
    exact ⟨h, fun he => absurd he hne⟩

theorem isRightOperand_of_level (hop : 0 < operator.binaryPrecedence)
    (h : operator.rightLevel ≤ form.level) : form.IsRightOperand operator := by
  unfold TokenKind.rightLevel at h
  refine ⟨isLoose_of_level (by split at h <;> omega), ?_⟩
  rintro a other b rfl
  change _ ≤ other.binaryPrecedence at h
  split at h
  · rename_i he
    exact ⟨h, fun hne => absurd he hne⟩
  · exact ⟨by omega, fun _ => h⟩

theorem of_isSealed (h : form.isSealed = true) :
    form.isFree = true ∧ form.exposed = [] ∧ form.level = 13 ∧ form.isIn = false := by
  cases form <;> first | exact ⟨rfl, rfl, rfl, rfl⟩ | cases h

theorem isIn_eq_false {a b : Slot} (h : operator ≠ .keyword .inWord) :
    (binary a operator b).isIn = false := by
  unfold isIn
  split
  · rename_i he
    cases he
    exact absurd rfl h
  · rfl

theorem isIn_of_isFree (h : form.isFree = true) : form.isIn = false := by
  cases form <;> first | rfl | cases h

end Form

namespace Store

open Relation

variable {s s' : Store} {form : Form} {m n : NodeId}

/-- The second node is a child of the first that is not enclosed. -/
def Exposes (s : Store) (m n : NodeId) : Prop :=
  ∃ form, s.form? (some m) = some form ∧ some n ∈ form.exposed

def Shut (s : Store) (n : NodeId) : Prop :=
  ∀ m, ReflTransGen s.Exposes n m → s.Has m (·.isIn = false)

/-- The form has operands that bind tightly enough, and a loop head with every `in` enclosed. -/
structure Suits (s : Store) (form : Form) : Prop where
  operands : ∀ left operator right, form = .binary left operator right →
    0 < operator.binaryPrecedence → ∃ l r, left = some l ∧ right = some r ∧
      s.Has l (operator.leftLevel ≤ ·.level) ∧ s.Has r (operator.rightLevel ≤ ·.level)
  head : ∀ n, form.loopHead = some n → s.Shut n

def Fitting (s : Store) : Prop := ∀ n form, s.form? (some n) = some form → s.Suits form

theorem Shut.mono (h : s.Shut n) (he : Extends s s') : s'.Shut n := by
  have hback : ∀ m, ReflTransGen s'.Exposes n m → ReflTransGen s.Exposes n m := by
    intro m hm
    induction hm with
    | refl => exact .refl
    | @tail b c _ hbc ih =>
      obtain ⟨form, hform, -⟩ := h b ih
      obtain ⟨form', hform', hc⟩ := hbc
      obtain rfl := Option.some.inj ((he.form? hform).symm.trans hform')
      exact ih.tail ⟨form, hform, hc⟩
  exact fun m hm => (h m (hback m hm)).mono fun _ _ => he.form?

theorem Shut.of_form (hn : s.form? (some n) = some form) (hin : form.isIn = false)
    (hkids : ∀ c, some c ∈ form.exposed → s.Shut c) : s.Shut n := by
  intro m hm
  obtain rfl | ⟨c, ⟨form', hform', hc⟩, hcm⟩ := hm.cases_head
  · exact ⟨form, hn, hin⟩
  · obtain rfl := Option.some.inj (hn.symm.trans hform')
    exact hkids c hc m hcm

theorem Suits.mono (h : s.Suits form) (he : Extends s s') : s'.Suits form where
  operands left operator right hform hop := by
    obtain ⟨l, r, hl, hr, hleft, hright⟩ := h.operands left operator right hform hop
    exact ⟨l, r, hl, hr, hleft.mono fun _ _ => he.form?, hright.mono fun _ _ => he.form?⟩
  head n hn := (h.head n hn).mono he

theorem Suits.of_isFree (h : form.isFree = true) : s.Suits form := by
  constructor
  · rintro _ _ _ rfl
    cases h
  · intro n hn
    cases form <;> first | cases hn; done | cases h

theorem fitting_empty : empty.Fitting := fun n form hn => by cases hn

theorem Fitting.of_nodes (h : s.Fitting) (hnodes : s'.nodes = s.nodes) : s'.Fitting := by
  have hget : ∀ m, s'.get? m = s.get? m := fun m => by simp only [get?, hnodes]
  have he : Extends s s' := fun m x hx => ⟨x, (hget _).trans hx, rfl⟩
  exact fun n form hn => (h n form (by rwa [form?, ← hget])).mono he

theorem Fitting.add (h : s.Fitting) {pos stop : Nat} (hform : s.Suits form) :
    (s.add form pos stop).2.Fitting := by
  have he := extends_add s form pos stop
  intro m f hm
  have hadd := fixed_add s form pos stop m
  obtain ⟨x, hx, rfl⟩ := Option.map_eq_some_iff.1 hm
  rw [hx] at hadd
  split at hadd
  · obtain rfl : x.form = form := congrArg (·.1) (Option.some.inj hadd)
    exact hform.mono he
  · obtain ⟨y, hy, e⟩ := Option.map_eq_some_iff.1 hadd.symm
    obtain hsame : y.form = x.form := congrArg (·.1) e
    exact hsame ▸ (h m y.form (Option.map_eq_some_iff.2 ⟨y, hy, rfl⟩)).mono he

theorem form?_add_self (s : Store) (form : Form) (pos stop : Nat) :
    (s.add form pos stop).2.form? (some (s.add form pos stop).1) = some form := by
  obtain ⟨x, hx, e⟩ := get?_add_self s form pos stop
  exact Option.map_eq_some_iff.2 ⟨x, hx, congrArg (·.1) e⟩

end Store

namespace Parser

open Store

variable {α β : Type} {f f' : Parse α} {k : α → Parse β} {R : β → State → Prop}
  {st st' st'' st₀ : State} {n : NodeId} {m level : Nat} {form : Form} {ks ks' : List (NodeId × Nat)}

/-- A Boolean that is true by its form. -/
class Evident (b : Bool) : Prop where
  eq : b = true

instance : Evident true := ⟨rfl⟩

/-- From one state to the other the context is the same and all that was built fits. -/
structure State.Advances (st st' : State) : Prop where
  context : st'.context = st.context
  grown : Extends st.store st'.store
  fitting : st.store.Fitting → st'.store.Fitting

namespace State.Advances

theorem of_store (hcontext : st'.context = st.context) (hstore : st'.store = st.store) :
    Advances st st' := ⟨hcontext, hstore ▸ .refl _, hstore ▸ id⟩

theorem refl (st : State) : Advances st st := of_store rfl rfl

theorem trans (h : Advances st st') (h' : Advances st' st'') : Advances st st'' :=
  ⟨h'.context.trans h.context, h.grown.trans h'.grown, h'.fitting ∘ h.fitting⟩

end State.Advances

/-- The step leaves the context as it was, and what it builds fits. -/
class Obeys (f : Parse α) : Prop where
  advances : ∀ {st a st'}, f st = .ok (a, st') → st.Advances st'

namespace Obeys

instance pure (a : α) : Obeys (Pure.pure a : Parse α) := ⟨fun h => by cases h; exact .refl _⟩

instance get : Obeys (MonadState.get : Parse State) := ⟨fun h => by cases h; exact .refl _⟩

instance bind [hf : Obeys f] [hk : ∀ a, Obeys (k a)] : Obeys (f >>= k) where
  advances hrun := by
    obtain ⟨a, st₁, hf', hk'⟩ := bind_eq_ok hrun
    exact (hf.advances hf').trans ((hk a).advances hk')

theorem seq [Obeys f] (hk : ∀ a, Obeys (k a)) : Obeys (f >>= k) := bind

instance ite (c : Prop) [Decidable c] [Obeys f] [Obeys f'] : Obeys (if c then f else f') := by
  split <;> infer_instance

theorem branch {c : Prop} [Decidable c] {rest : Parse β} [Obeys f] (hk : ∀ a, Obeys (k a))
    (hrest : (∀ a, Obeys (k a)) → Obeys rest) : Obeys (if c then f >>= k else rest) := by
  split
  · exact seq hk
  · exact hrest hk

instance or {f f' : Parse Bool} [Obeys f] [Obeys f'] : Obeys (f <||> f') := by
  unfold orM
  refine @bind _ _ _ _ inferInstance fun b => ?_
  split <;> infer_instance

instance map {γ : Type} (g : α → γ) [Obeys f] : Obeys (g <$> f) := by
  rw [map_eq_pure_bind]
  infer_instance

instance (priority := low) fails [hf : Fails f] : Obeys f := ⟨fun hrun => absurd hrun hf.fails⟩

instance next : Obeys next := ⟨fun h => by cases h; exact .of_store rfl rfl⟩
instance rescanSlash : Obeys rescanSlash := ⟨fun h => by cases h; exact .of_store rfl rfl⟩
instance rescanTemplate : Obeys rescanTemplate := ⟨fun h => by cases h; exact .of_store rfl rfl⟩

instance lookAhead (f : StateM Scanner α) : Obeys (lookAhead f) :=
  ⟨fun h => by cases h; exact .of_store rfl rfl⟩

instance tokenPos : Obeys tokenPos := bind
instance token : Obeys token := bind
instance tokenValue : Obeys tokenValue := bind
instance previousStop : Obeys previousStop := bind
instance context : Obeys context := bind
instance lineBreakBefore : Obeys lineBreakBefore := bind
instance isToken (kind : TokenKind) : Obeys (isToken kind) := bind
instance isWord (name : String) : Obeys (isWord name) := by unfold Parser.isWord; infer_instance
instance optional (kind : TokenKind) : Obeys (optional kind) := by
  unfold Parser.optional; infer_instance
instance expect (kind : TokenKind) : Obeys (expect kind) := by unfold Parser.expect; infer_instance
instance canEndStatement : Obeys canEndStatement := by
  unfold Parser.canEndStatement; infer_instance
instance semicolon : Obeys semicolon := by unfold Parser.semicolon; infer_instance

instance within (change : Context → Context) [hf : Obeys f] : Obeys (within change f) where
  advances hrun := by
    obtain ⟨st₁, hf', rfl⟩ := within_eq_ok hrun
    have h := hf.advances hf'
    exact ⟨rfl, h.grown, h.fitting⟩

instance allowingIn [Obeys f] : Obeys (allowingIn f) := within _

instance repeating (init : α) {step : α → Parse (ForInStep α)} [hstep : ∀ a, Obeys (step a)] :
    Obeys (repeating init step) where
  advances {st₀ _ _} hrun := by
    refine Takes.iterating (I := fun _ st => st₀.Advances st) init (fun a st r st' hst hrun => ?_)
      _ _ _ (.refl _) hrun
    exact hst.trans ((hstep a).advances hrun)

instance manyWhile (test : Parse Bool) (item : Parse NodeId) [Obeys test] [Obeys item] :
    Obeys (manyWhile test item) := by
  unfold Parser.manyWhile; infer_instance

instance commaSeparated (close : TokenKind) (item : Parse NodeId) [Obeys item] :
    Obeys (commaSeparated close item) := by
  unfold Parser.commaSeparated; infer_instance

theorem addFitting {form : Form} {pos stop : Nat} (hform : st.store.Suits form)
    (hrun : addSpan form pos stop st = .ok (n, st')) : st.Advances st' := by
  cases hrun
  exact ⟨rfl, extends_add _ _ _ _, fun h => h.add hform⟩

instance addSpan (form : Form) (pos stop : Nat) [h : Evident form.isFree] :
    Obeys (addSpan form pos stop) := ⟨addFitting (.of_isFree h.eq)⟩

instance add (form : Form) (pos : Nat) [Evident form.isFree] : Obeys (add form pos) := bind

end Obeys

/-- The node binds at least so tightly, and every `in` in it is enclosed where it would be taken for
that of a loop. -/
structure State.Knows (st : State) (n : NodeId) (level : Nat) : Prop where
  tight : st.store.Has n (level ≤ ·.level)
  shut : st.context.disallowIn = true → st.store.Shut n

theorem State.Knows.advance (h : st.Knows n level) (hst : st.Advances st') : st'.Knows n level :=
  ⟨h.tight.mono fun _ _ => hst.grown.form?, fun hin => (h.shut (hst.context ▸ hin)).mono hst.grown⟩

/-- On the way from a state on, with nodes of which the levels are known. -/
structure Holding (st₀ : State) (ks : List (NodeId × Nat)) (st : State) : Prop where
  advances : st₀.Advances st
  knows : ∀ k ∈ ks, st.Knows k.1 k.2

theorem Holding.start (st : State) : Holding st [] st := ⟨.refl st, fun _ hk => by cases hk⟩

theorem Holding.advance (h : Holding st₀ ks st) (hst : st.Advances st') : Holding st₀ ks st' :=
  ⟨h.advances.trans hst, fun k hk => (h.knows k hk).advance hst⟩

theorem Holding.sub (h : Holding st₀ ks st) (hks : ks' ⊆ ks) : Holding st₀ ks' st :=
  ⟨h.advances, fun k hk => h.knows k (hks hk)⟩

theorem Holding.first (h : Holding st₀ ((n, m) :: ks) st) : st.Knows n m :=
  h.knows (n, m) List.mem_cons_self

theorem Holding.rest (h : Holding st₀ ((n, m) :: ks) st) : Holding st₀ ks st :=
  h.sub (List.subset_cons_self _ _)

theorem Holding.join (h : Holding st₀ ks st) (h' : Holding st ks' st') : Holding st₀ (ks' ++ ks) st' := by
  refine ⟨h.advances.trans h'.advances, fun k hk => ?_⟩
  obtain hk | hk := List.mem_append.1 hk
  · exact h'.knows k hk
  · exact (h.knows k hk).advance h'.advances

theorem Holding.weaken (h : Holding st₀ [(n, m)] st) (hle : level ≤ m) : Holding st₀ [(n, level)] st := by
  refine ⟨h.advances, fun k hk => ?_⟩
  obtain rfl := List.mem_singleton.1 hk
  exact ⟨h.first.tight.imp fun _ hform => ⟨hform.1, hle.trans hform.2⟩, h.first.shut⟩

def leveled (slots : List Slot) (level : Nat) : List (NodeId × Nat) := (present slots).map (·, level)

@[simp] theorem map_fst_leveled (slots : List Slot) (level : Nat) :
    (leveled slots level).map Prod.fst = present slots := by
  simp [leveled, Function.comp_def]

/-- The step reads an expression of this level at least. -/
class Expresses (f : Parse NodeId) (level : outParam Nat) : Prop where
  holds : ∀ st₀, Takes (Holding st₀ []) f fun n => Holding st₀ [(n, level)]

/-- The step reads something that encloses itself. -/
class Seals (f : Parse NodeId) : Prop where
  advances : ∀ {st n st'}, f st = .ok (n, st') → st.Advances st'
  isSealed : ∀ {st n st'}, f st = .ok (n, st') → st'.store.Has n (·.isSealed = true)

instance (priority := 50) obeys_of_expresses {f : Parse NodeId} [hf : Expresses f level] : Obeys f :=
  ⟨fun {st _ _} hrun => (hf.holds st _ _ _ (.start st) hrun).advances⟩

namespace Takes

theorem obey [hf : Obeys f] (hk : ∀ a, Takes (Holding st₀ ks) (k a) R) :
    Takes (Holding st₀ ks) (f >>= k) R :=
  bind (Q := fun _ => Holding st₀ ks) (fun _ _ _ h hrun => h.advance (hf.advances hrun)) hk

theorem fails [hf : Fails f] {P : State → Prop} {Q : α → State → Prop} : Takes P f Q :=
  fun _ _ _ _ hrun => absurd hrun hf.fails

theorem expressed {f : Parse NodeId} [hf : Expresses f level] :
    Takes (Holding st₀ ks) f fun n => Holding st₀ ((n, level) :: ks) :=
  fun st _ _ h hrun => h.join (hf.holds st _ _ _ (.start st) hrun)

theorem express {f : Parse NodeId} {k : NodeId → Parse β} [Expresses f level]
    (hk : ∀ n, Takes (Holding st₀ ((n, level) :: ks)) (k n) R) :
    Takes (Holding st₀ ks) (f >>= k) R := expressed.bind hk

theorem filled {f : Parse NodeId} [Expresses f level] :
    Takes (Holding st₀ ks) (some <$> f) fun o => Holding st₀ (leveled [o] level ++ ks) := by
  rw [map_eq_pure_bind]
  exact express fun n => .pure fun _ h => h

theorem unfilled : Takes (Holding st₀ ks) (Pure.pure none) fun o => Holding st₀ (leveled [o] level ++ ks) :=
  .pure fun _ h => h

theorem addSpanFitting {pos stop : Nat} (hlevel : level ≤ form.level)
    (hfits : ∀ st, Holding st₀ ks st → st.store.Suits form)
    (hin : ∀ st, Holding st₀ ks st → st.context.disallowIn = true → form.isIn = false)
    (hkids : present form.exposed ⊆ ks.map Prod.fst) :
    Takes (Holding st₀ ks) (Parser.addSpan form pos stop) fun n => Holding st₀ [(n, level)] := by
  intro st n st' h hrun
  have hst := Obeys.addFitting (hfits st h) hrun
  cases hrun
  have hform := form?_add_self st.store form pos stop
  refine ⟨h.advances.trans hst, fun k hk => ?_⟩
  obtain rfl := List.mem_singleton.1 hk
  refine ⟨⟨form, hform, hlevel⟩, fun hdisallow => .of_form hform (hin st h hdisallow) fun c hc => ?_⟩
  obtain ⟨k, hk, rfl⟩ := List.mem_map.1 (hkids (mem_present.2 hc))
  exact ((h.knows k hk).shut hdisallow).mono hst.grown

theorem addFreeSpan {pos stop : Nat} (hfree : form.isFree = true) (hlevel : level ≤ form.level)
    (hkids : present form.exposed ⊆ ks.map Prod.fst) :
    Takes (Holding st₀ ks) (Parser.addSpan form pos stop) fun n => Holding st₀ [(n, level)] :=
  addSpanFitting hlevel (fun _ _ => .of_isFree hfree) (fun _ _ _ => Form.isIn_of_isFree hfree) hkids

theorem addFree {pos : Nat} (hfree : form.isFree = true) (hlevel : level ≤ form.level)
    (hkids : present form.exposed ⊆ ks.map Prod.fst) :
    Takes (Holding st₀ ks) (Parser.add form pos) fun n => Holding st₀ [(n, level)] :=
  obey fun _ => addFreeSpan hfree hlevel hkids

end Takes

theorem Obeys.of_takes (h : ∀ st₀, Takes (Holding st₀ []) f fun _ => Holding st₀ []) : Obeys f :=
  ⟨fun {st _ _} hrun => (h st _ _ _ (.start st) hrun).advances⟩

namespace Seals

variable {f f' : Parse NodeId} {k : α → Parse NodeId} {e : Parse α}

instance addSpan (form : Form) (pos stop : Nat) [h : Evident form.isSealed] :
    Seals (addSpan form pos stop) where
  advances hrun := Obeys.addFitting (.of_isFree (Form.of_isSealed h.eq).1) hrun
  isSealed {st _ _} hrun := by
    cases hrun
    exact ⟨form, form?_add_self st.store form pos stop, h.eq⟩

instance bind [he : Obeys e] [hk : ∀ a, Seals (k a)] : Seals (e >>= k) where
  advances hrun := by
    obtain ⟨a, st₁, he', hk'⟩ := bind_eq_ok hrun
    exact (he.advances he').trans ((hk a).advances hk')
  isSealed hrun := by
    obtain ⟨a, st₁, he', hk'⟩ := bind_eq_ok hrun
    exact (hk a).isSealed hk'

instance add (form : Form) (pos : Nat) [Evident form.isSealed] : Seals (add form pos) := bind

theorem seq [Obeys e] (hk : ∀ a, Seals (k a)) : Seals (e >>= k) := bind

instance ite (c : Prop) [Decidable c] [Seals f] [Seals f'] : Seals (if c then f else f') := by
  split <;> infer_instance

instance within (change : Context → Context) [hf : Seals f] : Seals (within change f) where
  advances hrun := by
    obtain ⟨st₁, hf', rfl⟩ := within_eq_ok hrun
    have h := hf.advances hf'
    exact ⟨rfl, h.grown, h.fitting⟩
  isSealed hrun := by
    obtain ⟨st₁, hf', rfl⟩ := within_eq_ok hrun
    have h : st₁.store.Has _ _ := hf.isSealed hf'
    exact h

instance (priority := low) fails [hf : Fails f] : Seals f :=
  ⟨fun hrun => absurd hrun hf.fails, fun hrun => absurd hrun hf.fails⟩

end Seals

namespace Expresses

variable {f f' : Parse NodeId} {k : α → Parse NodeId} {e : Parse α}

instance (priority := low) of_seals [hf : Seals f] : Expresses f 13 where
  holds st₀ st n st' h hrun := by
    obtain ⟨form, hform, hsealed⟩ := hf.isSealed hrun
    obtain ⟨-, hexposed, hlevel, hin⟩ := Form.of_isSealed hsealed
    refine ⟨h.advances.trans (hf.advances hrun), fun k hk => ?_⟩
    obtain rfl := List.mem_singleton.1 hk
    exact ⟨⟨form, hform, hlevel.ge⟩, fun _ => .of_form hform hin (by simp [hexposed])⟩

instance bind [Obeys e] [hk : ∀ a, Expresses (k a) level] : Expresses (e >>= k) level :=
  ⟨fun st₀ => .obey fun a => (hk a).holds st₀⟩

theorem seq [Obeys e] (hk : ∀ a, Expresses (k a) level) : Expresses (e >>= k) level := bind

instance ite (c : Prop) [Decidable c] [Expresses f level] [Expresses f' level] :
    Expresses (if c then f else f') level := by
  split <;> infer_instance

theorem within {change : Context → Context} [hf : Expresses f level]
    (hchange : ∀ c, (change c).disallowIn = c.disallowIn) :
    Expresses (within change f) level where
  holds st₀ st n st' h hrun := by
    obtain ⟨st₁, hf', rfl⟩ := within_eq_ok hrun
    have h' := hf.holds _ _ _ _ (.start _) hf'
    refine ⟨h.advances.trans ⟨rfl, h'.advances.grown, h'.advances.fitting⟩, fun k hk => ?_⟩
    obtain rfl := List.mem_singleton.1 hk
    refine ⟨h'.first.tight, fun hin => h'.first.shut ?_⟩
    rw [h'.advances.context]
    exact (hchange st.context).trans hin

end Expresses

end Parser

end Modernizer
