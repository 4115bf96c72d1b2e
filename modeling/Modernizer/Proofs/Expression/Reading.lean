import Modernizer.Parser.Program
import Modernizer.Proofs.Expression.Denoting
import Modernizer.Proofs.Expression.Words

/-! Expressions are read back from their words. Accesses and calls are read in a loop behind their
first operand (`ReadsTail`), binary operators in one behind the left operand (`ReadsBinary`). In both
it does not matter how often the loop has been run when an operand is there, so operands are read by
induction along the left side of an expression. -/

namespace Modernizer

open Store

def TokenKind.goesOn : TokenKind → Bool
  | .punctuator .dot | .punctuator .questionDot | .punctuator .openBracket | .punctuator .openParen
  | .punctuator .plusPlus | .punctuator .minusMinus | .wholeTemplate | .templateHead => true
  | _ => false

/-- Behind an expression that is whole. -/
def TokenKind.endsExpression : TokenKind → Bool
  | .punctuator .closeParen | .punctuator .closeBracket | .punctuator .comma | .punctuator .colon
  | .punctuator .semicolon | .endOfFile => true
  | _ => false

namespace Parser

variable {α : Type} {e e' : Expression} {w w' ws : List Word} {s s' : Store} {st st' : State} {d : Nat}
  {Q : NodeId → State → Prop} {n left : NodeId} {form : Form}

def Read (ws : List Word) (s : Store) (e : Expression) (n : NodeId) (st : State) : Prop :=
  ∃ s', st.Ready ws s' ∧ Extends s s' ∧ s'.Denotes (some n) e

def Formed (ws : List Word) (s : Store) (e : Expression) (form : Form) (st : State) : Prop :=
  ∃ s', st.Ready ws s' ∧ Extends s s' ∧
    ∀ s'' n, Extends s' s'' → s''.form? (some n) = some form → s''.Denotes (some n) e

theorem Read.trans (h : Read ws s' e n st) (hs : Extends s s') : Read ws s e n st := by
  obtain ⟨s'', hst, hext, he⟩ := h
  exact ⟨s'', hst, hs.trans hext, he⟩

theorem Formed.add (h : Formed ws s e form st) (pos : Nat) :
    Gives (add form pos) st (Read ws s e) := by
  obtain ⟨s', hst, hext, he⟩ := h
  refine (Gives.add hst form pos).mono fun n st' ⟨s'', hst', hext', hform⟩ => ?_
  exact ⟨s'', hst', hext.trans hext', he s'' n hext' hform⟩

/-- The steps of the loop behind an operand. -/
def accesses (g : Grammar) (pos : Nat) (left : NodeId) : Parse (ForInStep NodeId) := do
  match ← memberStep g left true with
  | some form => return .yield (← add form pos)
  | none => return .done left

/-- The steps of the loop behind the left operand of an operator. -/
def operations (g : Grammar) (minimum pos : Nat) (left : NodeId) : Parse (ForInStep NodeId) := do
  let operator ← token
  let precedence := operator.binaryPrecedence
  if precedence ≤ minimum then return .done left
  if operator == .keyword .inWord && (← context).disallowIn then return .done left
  next
  let right ← g.binary (if operator == .punctuator .starStar then precedence - 1 else precedence)
  return .yield (← add (.binary (some left) operator (some right)) pos)

theorem binary_eq (g : Grammar) (minimum : Nat) : binary g minimum =
    tokenPos >>= fun pos => unary g >>= fun first => repeating first (operations g minimum pos) := rfl

/-- In the loop behind an operand these words come to the expression. -/
def ReadsTail (w : List Word) (e : Expression) : Prop :=
  ∀ d ws s st pos Q, st.Ready (w ++ ws) s → (w ++ ws).length ≤ d →
    (∀ n st' fuel, ws.length < fuel → Read ws s e n st' →
      Gives (repeating.go (accesses (Grammar.ofDepth d) pos) fuel n) st' Q) →
    Gives (primary (Grammar.ofDepth d) >>= fun left => memberTail (Grammar.ofDepth d) pos left true)
      st Q

def StandsLeft (level : Nat) (ws : List Word) : Prop :=
  ∀ o : BinaryOperator, firstKind ws = o.kind → o.leftLevel ≤ level

/-- In the loop for operators these words come to the expression. -/
def ReadsBinary (minimum level : Nat) (w : List Word) (e : Expression) : Prop :=
  ∀ d ws s st Q, st.Ready (w ++ ws) s → (w ++ ws).length ≤ d → (firstKind ws).goesOn = false →
    StandsLeft level ws → (∀ n st' pos fuel, ws.length < fuel → Read ws s e n st' →
      Gives (repeating.go (operations (Grammar.ofDepth d) minimum pos) fuel n) st' Q) →
    Gives (binary (Grammar.ofDepth d) minimum) st Q

/-- The expression is read whole. -/
def ReadsAssignment (e : Expression) : Prop :=
  ∀ d ws s st, st.Ready (Chunk.words e.chunks ++ ws) s → (Chunk.words e.chunks ++ ws).length ≤ d →
    (firstKind ws).endsExpression = true →
    Gives (assignment (Grammar.ofDepth d)) st (Read ws s e)

/-! Operands. -/

theorem gives_identifierName {x : Text} (h : st.Ready ((.identifier, x) :: ws) s) :
    Gives identifierName st fun n st' =>
      ∃ s', st'.Ready ws s' ∧ Extends s s' ∧ s'.form? (some n) = some (.identifier (String.ofList x)) := by
  have hvalue : st.scanner.value = x := congrArg Prod.snd h.words.1
  unfold identifierName
  refine .step h.token ?_
  refine .pos rfl (.step rfl (.step rfl (.next h fun hst => ?_)))
  rw [← hvalue]
  exact .add hst _ _

theorem ReadsTail.of_primary (h : ∀ d ws s st, st.Ready (w ++ ws) s → (w ++ ws).length ≤ d →
    Gives (primary (Grammar.ofDepth d)) st (Read ws s e)) : ReadsTail w e := by
  intro d ws s st pos Q hst hd hk
  refine .bind (h d ws s st hst hd) fun n st' hread => ?_
  obtain ⟨s', hst', -⟩ := id hread
  exact .repeating hst' fun fuel hfuel => hk n st' fuel hfuel hread

theorem readsTail_name (x : PlainName) : ReadsTail [(.identifier, x.text)] (.name x) := by
  refine .of_primary fun d ws s st hst hd => ?_
  have hasync : isAsyncFunction st = .ok (false, st) :=
    Gives.eq (.no (hst.isWord_eq_false (by simp)) (.pure ⟨rfl, rfl⟩))
  unfold primary
  refine .step rfl (.step hst.token (.no hasync (.yes hst.isToken_eq_true ?_)))
  refine (gives_identifierName hst).mono fun n st' ⟨s', hst', hext, hform⟩ => ?_
  exact ⟨s', hst', hext, .bare hform (by simp)⟩

/-! From operands to expressions. -/

theorem memberStep_none (h : st.Ready ws s) (hws : (firstKind ws).goesOn = false) (g : Grammar) :
    memberStep g left true st = .ok (none, st) := by
  refine Gives.eq ?_
  unfold memberStep
  refine .step h.token ?_
  split
  any_goals
    rename_i hkind
    rw [hkind] at hws
    cases hws
  refine .neg ?_ (.pure ⟨rfl, rfl⟩)
  intro hparen
  rw [Bool.and_true, beq_iff_eq] at hparen
  rw [hparen] at hws
  cases hws

theorem gives_accesses (h : Read ws s e n st) (hws : (firstKind ws).goesOn = false) (pos fuel : Nat) :
    Gives (repeating.go (accesses (Grammar.ofDepth d) pos) (fuel + 1) n) st (Read ws s e) := by
  obtain ⟨s', hst, -⟩ := id h
  exact .go (.step (memberStep_none hst hws _) (.pure h))

theorem ReadsTail.leftHandSide (h : ReadsTail w e) (hopens : Opens (w ++ ws))
    (hst : st.Ready (w ++ ws) s) (hd : (w ++ ws).length ≤ d) (hws : (firstKind ws).goesOn = false) :
    Gives (leftHandSide (Grammar.ofDepth d)) st (Read ws s e) := by
  have hnew : firstKind (w ++ ws) ≠ .keyword .newWord := by
    rcases hopens with hfirst | hfirst <;> simp [hfirst]
  unfold Parser.leftHandSide
  refine .step rfl (.no (hst.isToken_eq_false hnew) ?_)
  refine h d ws s st _ _ hst hd fun n st' fuel hfuel hread => ?_
  obtain ⟨fuel, rfl⟩ := Nat.exists_eq_succ_of_ne_zero (Nat.ne_zero_of_lt hfuel)
  exact gives_accesses hread hws _ fuel

theorem ReadsTail.unary (h : ReadsTail w e) (hopens : Opens (w ++ ws)) (hst : st.Ready (w ++ ws) s)
    (hd : (w ++ ws).length ≤ d) (hws : (firstKind ws).goesOn = false) :
    Gives (unary (Grammar.ofDepth d)) st (Read ws s e) := by
  have hoperator : isPrefixOperator (firstKind (w ++ ws)) = false := by
    rcases hopens with hfirst | hfirst <;> rw [hfirst] <;> rfl
  unfold Parser.unary
  refine .step rfl (.step hst.token (.neg (by simp [hoperator]) ?_))
  refine .step (hst.isWord_eq_false (by simp)) (.step rfl (.neg (by simp) ?_))
  unfold postfixed
  refine .step rfl (.bind (h.leftHandSide hopens hst hd hws) fun n st' hread => ?_)
  obtain ⟨s', hst', -⟩ := id hread
  refine .step hst'.token (.step rfl (.neg ?_ (.pure hread)))
  intro hpostfix
  rw [Bool.and_eq_true, Bool.or_eq_true, beq_iff_eq, beq_iff_eq] at hpostfix
  rcases hpostfix.1 with hkind | hkind <;> rw [hkind] at hws <;> cases hws

theorem ReadsTail.readsBinary (h : ReadsTail w e) (hopens : ∀ ws, Opens (w ++ ws)) (minimum level : Nat) :
    ReadsBinary minimum level w e := by
  intro d ws s st Q hst hd hws _ hk
  rw [binary_eq]
  refine .step rfl (.bind (h.unary (hopens ws) hst hd hws) fun n st' hread => ?_)
  obtain ⟨s', hst', -⟩ := id hread
  exact .repeating hst' fun fuel hfuel => hk n st' _ fuel hfuel hread

theorem ReadsBinary.binary {minimum level : Nat} (h : ReadsBinary minimum level w e)
    (hst : st.Ready (w ++ ws) s) (hd : (w ++ ws).length ≤ d) (hws : (firstKind ws).goesOn = false)
    (hminimum : (firstKind ws).binaryPrecedence ≤ minimum) (hlevel : minimum + 4 ≤ level) :
    Gives (binary (Grammar.ofDepth d) minimum) st (Read ws s e) := by
  have hfits : StandsLeft level ws := by
    intro o ho
    have hprecedence : o.precedence ≤ minimum := by
      rw [BinaryOperator.precedence, ← ho]
      exact hminimum
    unfold BinaryOperator.leftLevel
    split
    · rename_i hpower
      have := o.precedence_of_isPower hpower
      omega
    · omega
  refine h d ws s st _ hst hd hws hfits fun n st' pos fuel hfuel hread => ?_
  obtain ⟨fuel, rfl⟩ := Nat.exists_eq_succ_of_ne_zero (Nat.ne_zero_of_lt hfuel)
  obtain ⟨s', hst', -⟩ := id hread
  exact .go (.step hst'.token (.pos hminimum (.pure hread)))

theorem ReadsBinary.conditional {level : Nat} (h : ReadsBinary 0 level w e)
    (hst : st.Ready (w ++ ws) s) (hd : (w ++ ws).length ≤ d) (hws : (firstKind ws).goesOn = false)
    (hbinary : (firstKind ws).binaryPrecedence = 0) (hquestion : firstKind ws ≠ .punctuator .question)
    (hlevel : 4 ≤ level) :
    Gives (conditional (Grammar.ofDepth d)) st (Read ws s e) := by
  unfold Parser.conditional
  refine .step rfl (.bind (h.binary hst hd hws (Nat.le_of_eq hbinary) hlevel) fun n st' hread => ?_)
  obtain ⟨s', hst', -⟩ := id hread
  exact .without hst' hquestion (.pure hread)

theorem of_endsExpression {kind : TokenKind} (h : kind.endsExpression = true) :
    kind.goesOn = false ∧ kind.binaryPrecedence = 0 ∧ kind.isAssignment = false ∧
      kind ≠ .punctuator .question := by
  unfold TokenKind.endsExpression at h
  split at h
  any_goals exact ⟨rfl, rfl, rfl, by simp⟩
  cases h

theorem gives_assignment {ws' : List Word} (hst : st.Ready ws' s)
    (h : Gives (Parser.conditional (Grammar.ofDepth d)) st (Read ws s e))
    (hws : (firstKind ws).isAssignment = false) :
    Gives (assignment (Grammar.ofDepth d)) st (Read ws s e) := by
  unfold assignment
  refine .step rfl (.step (hst.isWord_eq_false (by simp)) (.step rfl (.neg (by simp) ?_)))
  refine .step hst.arrowHead (.bind h fun n st' hread => ?_)
  obtain ⟨s', hst', -⟩ := id hread
  exact .step hst'.token (.neg (by simp [hws]) (.pure hread))

theorem ReadsBinary.readsAssignment {level : Nat}
    (h : ReadsBinary 0 level (Chunk.words e.chunks) e) (hlevel : 4 ≤ level) : ReadsAssignment e := by
  intro d ws s st hst hd hws
  obtain ⟨hgoes, hbinary, hassigns, hquestion⟩ := of_endsExpression hws
  exact gives_assignment hst (h.conditional hst hd hgoes hbinary hquestion hlevel) hassigns

theorem gives_expressionOf {a : Parse NodeId} (h : Gives a st (Read ws s e))
    (hws : firstKind ws ≠ .punctuator .comma) : Gives (expressionOf a) st (Read ws s e) := by
  unfold expressionOf
  refine .step rfl (.bind h fun n st' hread => ?_)
  obtain ⟨s', hst', -⟩ := id hread
  refine .repeating hst' fun fuel hfuel => ?_
  obtain ⟨fuel, rfl⟩ := Nat.exists_eq_succ_of_ne_zero (Nat.ne_zero_of_lt hfuel)
  exact .go (.without hst' hws (.pure hread))

theorem exists_ofDepth (hd : 0 < d) : ∃ d', d = d' + 1 ∧
    (Grammar.ofDepth d).assignment = assignment (Grammar.ofDepth d') ∧
      ∀ minimum, (Grammar.ofDepth d).binary minimum = binary (Grammar.ofDepth d') minimum := by
  obtain ⟨d', rfl⟩ := Nat.exists_eq_succ_of_ne_zero (Nat.ne_of_gt hd)
  exact ⟨d', rfl, rfl, fun _ => rfl⟩

namespace ReadsAssignment

variable (h : ReadsAssignment e)

include h

theorem deeper (hst : st.Ready (Chunk.words e.chunks ++ ws) s)
    (hd : (Chunk.words e.chunks ++ ws).length < d) (hws : (firstKind ws).endsExpression = true) :
    Gives (Grammar.ofDepth d).assignment st (Read ws s e) := by
  obtain ⟨d', rfl, hassignment, -⟩ := exists_ofDepth (Nat.zero_lt_of_lt hd)
  rw [hassignment]
  exact h d' ws s st hst (Nat.le_of_lt_succ hd) hws

theorem allowingIn (hst : st.Ready (Chunk.words e.chunks ++ ws) s)
    (hd : (Chunk.words e.chunks ++ ws).length < d) (hws : (firstKind ws).endsExpression = true) :
    Gives (allowingIn (Grammar.ofDepth d).assignment) st (Read ws s e) :=
  .allowingIn hst.context ((h.deeper hst hd hws).mono fun _ _ hread =>
    ⟨hread.choose_spec.1.context, hread⟩)

theorem innerExpression (hst : st.Ready (Chunk.words e.chunks ++ ws) s)
    (hd : (Chunk.words e.chunks ++ ws).length < d) (hws : (firstKind ws).endsExpression = true)
    (hcomma : firstKind ws ≠ .punctuator .comma) :
    Gives (innerExpression (Grammar.ofDepth d)) st (Read ws s e) :=
  .allowingIn hst.context ((gives_expressionOf (h.deeper hst hd hws) hcomma).mono fun _ _ hread =>
    ⟨hread.choose_spec.1.context, hread⟩)

theorem readsTail : ReadsTail (Chunk.words (Chunk.enclosed true e.chunks)) e := by
  refine .of_primary fun d ws s st hst hd => ?_
  have hwords : Chunk.words (Chunk.enclosed true e.chunks) ++ ws =
      (.punctuator .openParen, []) :: (Chunk.words e.chunks ++ ((.punctuator .closeParen, []) :: ws)) := by
    simp [Chunk.enclosed]
  rw [hwords] at hst hd
  unfold primary
  refine .step rfl (.step hst.token (.next hst fun hinside => ?_))
  refine .bind (h.innerExpression hinside hd rfl (by simp)) ?_
  rintro n st' ⟨s', hst', hext, he⟩
  refine .expect hst' fun hbehind => Formed.add ⟨s', hbehind, hext, fun s'' m hext' hform => ?_⟩ _
  exact .parenthesized hform (he.extends hext')

end ReadsAssignment

/-! Accesses and calls. -/

theorem ReadsTail.access (h : ReadsTail w e) (hw : w' ≠ [])
    (hstep : ∀ d ws s st left, st.Ready (w' ++ ws) s → (w' ++ ws).length ≤ d →
      s.Denotes (some left) e → Gives (memberStep (Grammar.ofDepth d) left true) st fun r st' =>
        ∃ form, r = some form ∧ Formed ws s e' form st') : ReadsTail (w ++ w') e' := by
  intro d ws s st pos Q hst hd hk
  rw [List.append_assoc] at hst hd
  have hpos := List.length_pos_iff.2 hw
  refine h d (w' ++ ws) s st pos Q hst hd fun n st' fuel hfuel ⟨s', hst', hext, he⟩ => ?_
  rw [List.length_append] at hfuel hd
  obtain ⟨fuel, rfl⟩ := Nat.exists_eq_succ_of_ne_zero (Nat.ne_zero_of_lt hfuel)
  refine .go (.bind (hstep d ws s' st' n hst' (by omega) he) fun r st₁ ⟨form, hr, hformed⟩ => ?_)
  subst hr
  refine .bind (hformed.add pos) fun m st₂ hread => .pure ?_
  exact hk m st₂ fuel (by omega) (hread.trans hext)

theorem ReadsTail.member (h : ReadsTail w e) (x : PlainName) (isOptional : Bool) :
    ReadsTail (w ++ [(.punctuator (if isOptional then .questionDot else .dot), []),
      (.identifier, x.text)]) (.member e x isOptional) := by
  refine h.access (by simp) fun d ws s st left hst hd he => ?_
  have hread : st.passed.Ready ((.identifier, x.text) :: ws) s →
      Gives (identifierName >>= fun n => pure (some (.member (some left) (some n) isOptional))) st.passed
        fun r st' => ∃ form, r = some form ∧ Formed ws s (.member e x isOptional) form st' := by
    intro hname
    refine .bind (gives_identifierName hname) fun n st' ⟨s', hst', hext, hform⟩ => .pure ?_
    refine ⟨_, rfl, s', hst', hext, fun s'' m hext' hm => ?_⟩
    exact ⟨some left, some n, .bare hm (by simp), he.extends (hext.trans hext'), hext'.form? hform⟩
  unfold memberStep
  cases isOptional with
  | false => exact .step hst.token (.next hst hread)
  | true => exact .step hst.token (.next hst fun hname => .step hname.token (.neg (by simp) (hread hname)))

theorem ReadsAssignment.index (h : ReadsAssignment e) (hst : st.Ready ((.punctuator .openBracket, []) ::
      (Chunk.words e.chunks ++ (.punctuator .closeBracket, []) :: ws)) s)
    (hd : (Chunk.words e.chunks ++ (.punctuator .closeBracket, []) :: ws).length < d) :
    Gives (memberStep.index (Grammar.ofDepth d)) st (Read ws s e) := by
  unfold memberStep.index
  refine .next hst fun hinside => ?_
  refine .bind (h.innerExpression hinside hd rfl (by simp)) fun n st' ⟨s', hst', hext, he⟩ => ?_
  exact .expect hst' fun hbehind => .pure ⟨s', hbehind, hext, he⟩

theorem ReadsTail.element (h : ReadsTail w e) (hindex : ReadsAssignment e') (isOptional : Bool) :
    ReadsTail (w ++ Chunk.words (Chunk.opening .openBracket isOptional ++
      (e'.chunks ++ [Chunk.punctuator .closeBracket]))) (.element e e' isOptional) := by
  refine h.access (by cases isOptional <;> simp [Chunk.opening]) fun d ws s st left hst hd he => ?_
  have hread : ∀ {st}, st.Ready ((.punctuator .openBracket, []) ::
        (Chunk.words e'.chunks ++ (.punctuator .closeBracket, []) :: ws)) s →
      (Chunk.words e'.chunks ++ (.punctuator .closeBracket, []) :: ws).length < d →
      Gives (memberStep.index (Grammar.ofDepth d) >>= fun n =>
        pure (some (.element (some left) (some n) isOptional))) st
        fun r st' => ∃ form, r = some form ∧ Formed ws s (.element e e' isOptional) form st' := by
    intro st hst hd
    refine .bind (hindex.index hst hd) fun n st' ⟨s', hst', hext, he'⟩ => .pure ?_
    refine ⟨_, rfl, s', hst', hext, fun s'' m hext' hm => ?_⟩
    exact ⟨some left, some n, .bare hm (by simp), he.extends (hext.trans hext'), he'.extends hext'⟩
  unfold memberStep
  cases isOptional with
  | false =>
    simp only [Chunk.opening, Bool.false_eq_true, if_false,
      Chunk.words_punctuator, Chunk.words_append, Chunk.words_nil, List.cons_append,
      List.append_assoc, List.nil_append] at hst hd
    exact .step hst.token (hread hst hd)
  | true =>
    simp only [Chunk.opening, if_true, List.cons_append, List.nil_append,
      Chunk.words_punctuator, Chunk.words_append, Chunk.words_nil, List.append_assoc] at hst hd
    refine .step hst.token (.next hst fun hinside => .step hinside.token (hread hinside ?_))
    exact Nat.lt_of_succ_lt hd

/-- The steps of the loop for arguments. -/
def listStep (close : TokenKind) (item : Parse NodeId) (items : List Slot) :
    Parse (ForInStep (List Slot)) := do
  if ← isToken close then return .done items
  let items := items ++ [some (← item)]
  if ← optional (.punctuator .comma) then return .yield items else return .done items

theorem commaSeparated_eq (close : TokenKind) (item : Parse NodeId) :
    commaSeparated close item = repeating [] (listStep close item) := rfl

theorem opens_ne {ws : List Word} (h : Opens ws) {kind : TokenKind} (hidentifier : kind ≠ .identifier)
    (hparen : kind ≠ .punctuator .openParen) : firstKind ws ≠ kind := by
  rintro rfl
  exact h.elim hidentifier hparen

theorem ReadsAssignment.argument (h : ReadsAssignment e)
    (hst : st.Ready (Chunk.words e.chunks ++ ws) s) (hd : (Chunk.words e.chunks ++ ws).length < d)
    (hws : (firstKind ws).endsExpression = true) :
    Gives (argument (Grammar.ofDepth d)) st (Read ws s e) := by
  unfold Parser.argument
  exact .no (hst.isToken_eq_false (opens_ne (e.opens ws) (by simp) (by simp))) (h.allowingIn hst hd hws)

theorem gives_arguments_go {es : List Expression} (hes : ∀ e ∈ es, ReadsAssignment e) {fuel : Nat}
    (hst : st.Ready (Chunk.words (Expression.listChunks es) ++ (.punctuator .closeParen, []) :: ws) s)
    (hd : (Chunk.words (Expression.listChunks es) ++ (.punctuator .closeParen, []) :: ws).length < d)
    (hfuel : (Chunk.words (Expression.listChunks es) ++
      (.punctuator .closeParen, []) :: ws).length < fuel) (items : List Slot) :
    Gives (repeating.go (listStep (.punctuator .closeParen) (argument (Grammar.ofDepth d))) fuel items) st
      fun nodes st' => ∃ ns s', nodes = items ++ ns ∧ st'.Ready ((.punctuator .closeParen, []) :: ws) s' ∧
        Extends s s' ∧ s'.DenotesAll ns es := by
  induction es generalizing st s fuel items with
  | nil =>
    obtain ⟨fuel, rfl⟩ := Nat.exists_eq_succ_of_ne_zero (Nat.ne_zero_of_lt hfuel)
    refine .go (.yes hst.isToken_eq_true (.pure ?_))
    exact ⟨[], s, (List.append_nil items).symm, hst, .refl s, trivial⟩
  | cons e es ih =>
    obtain ⟨he, hes⟩ := List.forall_mem_cons.1 hes
    obtain ⟨fuel, rfl⟩ := Nat.exists_eq_succ_of_ne_zero (Nat.ne_zero_of_lt hfuel)
    cases es with
    | nil =>
      have hclose : Parser.isToken (.punctuator .closeParen) st = _ :=
        hst.isToken_eq_false (opens_ne (e.opens _) (by simp) (by simp))
      refine .go (.no hclose (.bind (he.argument hst hd rfl) fun n st' ⟨s', hst', hext, hn⟩ => ?_))
      refine .without hst' (by simp) (.pure ?_)
      exact ⟨[some n], s', rfl, hst', hext, hn, trivial⟩
    | cons e' es =>
      have hwords : Chunk.words (Expression.listChunks (e :: e' :: es)) ++
          (.punctuator .closeParen, []) :: ws = Chunk.words e.chunks ++ ((.punctuator .comma, []) ::
            (Chunk.words (Expression.listChunks (e' :: es)) ++ (.punctuator .closeParen, []) :: ws)) := by
        simp [Expression.listChunks_cons_cons]
      rw [hwords] at hst hd hfuel
      have hclose : Parser.isToken (.punctuator .closeParen) st = _ :=
        hst.isToken_eq_false (opens_ne (e.opens _) (by simp) (by simp))
      refine .go (.no hclose (.bind (he.argument hst hd rfl) fun n st' ⟨s', hst', hext, hn⟩ => ?_))
      refine .optional hst' fun hrest => .pure ?_
      rw [List.length_append, List.length_cons] at hd hfuel
      refine (ih hes hrest (by omega) (by omega) (items ++ [some n])).mono ?_
      rintro nodes st₂ ⟨ns, s'', rfl, hst₂, hext', hns⟩
      exact ⟨some n :: ns, s'', by simp, hst₂, hext.trans hext', hn.extends hext', hns⟩

theorem gives_arguments {es : List Expression} (hes : ∀ e ∈ es, ReadsAssignment e)
    (hst : st.Ready ((.punctuator .openParen, []) ::
      (Chunk.words (Expression.listChunks es) ++ (.punctuator .closeParen, []) :: ws)) s)
    (hd : (Chunk.words (Expression.listChunks es) ++ (.punctuator .closeParen, []) :: ws).length < d) :
    Gives (arguments (Grammar.ofDepth d)) st fun list st' =>
      ∃ s', st'.Ready ws s' ∧ Extends s s' ∧ s'.DenotesAll list.nodes es := by
  unfold arguments
  refine .expect hst fun hinside => .step rfl ?_
  rw [commaSeparated_eq]
  refine .bind (.repeating hinside fun fuel hfuel => gives_arguments_go hes hinside hd hfuel []) ?_
  rintro nodes st' ⟨ns, s', rfl, hst', hext, hns⟩
  exact .step rfl (.expect hst' fun hbehind => .pure ⟨s', hbehind, hext, hns⟩)

theorem ReadsTail.call (h : ReadsTail w e) {es : List Expression} (hes : ∀ e ∈ es, ReadsAssignment e)
    (isOptional : Bool) : ReadsTail (w ++ Chunk.words (Chunk.opening .openParen isOptional ++
      (Expression.listChunks es ++ [Chunk.punctuator .closeParen]))) (.call e es isOptional) := by
  refine h.access (by cases isOptional <;> simp [Chunk.opening]) fun d ws s st left hst hd he => ?_
  have hread : ∀ {st}, st.Ready ((.punctuator .openParen, []) ::
        (Chunk.words (Expression.listChunks es) ++ (.punctuator .closeParen, []) :: ws)) s →
      (Chunk.words (Expression.listChunks es) ++ (.punctuator .closeParen, []) :: ws).length < d →
      Gives (arguments (Grammar.ofDepth d) >>= fun list =>
        pure (some (.call (some left) list isOptional))) st
        fun r st' => ∃ form, r = some form ∧ Formed ws s (.call e es isOptional) form st' := by
    intro st hst hd
    refine .bind (gives_arguments hes hst hd) fun list st' ⟨s', hst', hext, hlist⟩ => .pure ?_
    refine ⟨_, rfl, s', hst', hext, fun s'' m hext' hm => ?_⟩
    exact ⟨some left, list, .bare hm (by simp), he.extends (hext.trans hext'), hlist.extends hext'⟩
  unfold memberStep
  cases isOptional with
  | false =>
    simp only [Chunk.opening, Bool.false_eq_true, if_false,
      Chunk.words_punctuator, Chunk.words_append, Chunk.words_nil, List.cons_append,
      List.append_assoc, List.nil_append] at hst hd
    exact .step hst.token (.pos rfl (hread hst hd))
  | true =>
    simp only [Chunk.opening, if_true, List.cons_append, List.nil_append,
      Chunk.words_punctuator, Chunk.words_append, Chunk.words_nil, List.append_assoc] at hst hd
    refine .step hst.token (.next hst fun hinside => .step hinside.token (.pos rfl (hread hinside ?_)))
    exact Nat.lt_of_succ_lt hd

/-! Operators. -/

theorem precedence_le_rightMinimum {o : BinaryOperator} (h : StandsLeft (3 + o.precedence) ws) :
    (firstKind ws).binaryPrecedence ≤ o.rightMinimum := by
  rcases Nat.eq_zero_or_pos (firstKind ws).binaryPrecedence with hzero | hpos
  · omega
  · have hle := h ⟨firstKind ws, hpos⟩ rfl
    unfold BinaryOperator.leftLevel at hle
    change BinaryOperator.precedence ⟨firstKind ws, hpos⟩ ≤ _
    generalize BinaryOperator.mk (firstKind ws) hpos = o' at hle ⊢
    have hmax := o.precedence_le
    cases hpower' : o'.isPower with
    | true =>
      rw [hpower', if_pos rfl] at hle
      omega
    | false =>
      rw [hpower', if_neg Bool.false_ne_true] at hle
      have := o'.precedence_le_of_not_isPower hpower'
      unfold BinaryOperator.rightMinimum
      split
      · rename_i hpower
        have := o.precedence_of_isPower hpower
        omega
      · omega

theorem rightMinimum_add (o : BinaryOperator) : o.rightMinimum + 4 = o.rightLevel := by
  unfold BinaryOperator.rightMinimum BinaryOperator.rightLevel
  split
  · rename_i hpower
    rw [o.precedence_of_isPower hpower]
  · omega

theorem goesOn_eq_false {kind : TokenKind} (h : 0 < kind.binaryPrecedence ∨ kind.isAssignment = true) :
    kind.goesOn = false := by
  cases kind with
  | punctuator p =>
    have hall : ∀ p ∈ Punctuator.byLength, (0 < (TokenKind.punctuator p).binaryPrecedence ∨
        (TokenKind.punctuator p).isAssignment = true) → (TokenKind.punctuator p).goesOn = false := by
      decide
    exact hall p p.mem_byLength h
  | wholeTemplate | templateHead => rcases h with h | h <;> cases h
  | _ => rfl

theorem ReadsBinary.operation {minimum level level' : Nat} {o : BinaryOperator} {v : Text}
    (h : ReadsBinary minimum level w e) (h' : ReadsBinary o.rightMinimum level' w' e')
    (hleft : o.leftLevel ≤ level) (hright : o.rightLevel ≤ level') (hminimum : minimum < o.precedence) :
    ReadsBinary minimum (3 + o.precedence) (w ++ (o.kind, v) :: w') (.binary e o e') := by
  intro d ws s st Q hst hd hws hfits hk
  rw [List.append_assoc, List.cons_append] at hst hd
  have hoperator : StandsLeft level ((o.kind, v) :: (w' ++ ws)) := by
    intro o' ho
    rwa [← BinaryOperator.ext ho]
  refine h d _ s st Q hst hd (goesOn_eq_false (.inl o.binds)) hoperator ?_
  rintro n st' pos fuel hfuel ⟨s', hst', hext, he⟩
  rw [List.length_append, List.length_cons, List.length_append] at hd
  rw [List.length_cons, List.length_append] at hfuel
  obtain ⟨fuel, rfl⟩ := Nat.exists_eq_succ_of_ne_zero (Nat.ne_zero_of_lt hfuel)
  refine .go (.step hst'.token (.neg (Nat.not_le.2 hminimum) ?_))
  refine .step rfl (.neg (by simp [hst'.context, Context.top]) (.next hst' fun hrest => ?_))
  obtain ⟨d', rfl, -, hbinary⟩ := exists_ofDepth (d := d) (by omega)
  rw [hbinary]
  have hread := h'.binary hrest (d := d') (by rw [List.length_append]; omega) hws
    (precedence_le_rightMinimum hfits) (by rw [rightMinimum_add]; exact hright)
  refine .bind hread fun m st₂ ⟨s'', hst₂, hext', he'⟩ => ?_
  refine .bind (Formed.add (e := .binary e o e') ⟨s'', hst₂, hext.trans hext', ?_⟩ pos)
    fun r st₃ hread => .pure (hk r st₃ pos fuel (by omega) hread)
  intro s₃ r hext₃ hr
  exact ⟨some n, some m, .bare hr (by simp), he.extends (hext'.trans hext₃), he'.extends hext₃⟩

theorem ReadsBinary.readsAssignment_conditional {level : Nat} {condition whenTrue whenFalse : Expression}
    (h : ReadsBinary 0 level (Chunk.words (condition.chunksAt 4)) condition) (hlevel : 4 ≤ level)
    (htrue : ReadsAssignment whenTrue) (hfalse : ReadsAssignment whenFalse) :
    ReadsAssignment (.conditional condition whenTrue whenFalse) := by
  intro d ws s st hst hd hws
  have hwords : Chunk.words (Expression.chunks (.conditional condition whenTrue whenFalse)) ++ ws =
      Chunk.words (condition.chunksAt 4) ++ ((.punctuator .question, []) ::
        (Chunk.words whenTrue.chunks ++ ((.punctuator .colon, []) ::
          (Chunk.words whenFalse.chunks ++ ws)))) := by
    simp [Expression.chunks, Expression.chunksAt, Chunk.between, TokenKind.isName]
  rw [hwords] at hst hd
  have hlength := hd
  rw [List.length_append, List.length_cons, List.length_append, List.length_cons] at hlength
  refine gives_assignment hst ?_ (of_endsExpression hws).2.2.1
  unfold Parser.conditional
  refine .step rfl (.bind (h.binary hst hd rfl (Nat.le_refl 0) hlevel) ?_)
  rintro n st' ⟨s', hst', hext, hn⟩
  refine .optional hst' fun hinside => .bind (htrue.allowingIn hinside ?_ rfl) ?_
  · rw [List.length_append, List.length_cons]
    omega
  rintro n' st₂ ⟨s₂, hst₂, hext₂, hn'⟩
  refine .expect hst₂ fun hrest => .bind (hfalse.deeper hrest (by omega) hws) ?_
  rintro n'' st₃ ⟨s₃, hst₃, hext₃, hn''⟩
  refine Formed.add ⟨s₃, hst₃, hext.trans (hext₂.trans hext₃), fun s₄ m hext₄ hm => ?_⟩ _
  exact ⟨some n, some n', some n'', .bare hm (by simp), hn.extends (hext₂.trans (hext₃.trans hext₄)),
    hn'.extends (hext₃.trans hext₄), hn''.extends hext₄⟩

theorem ReadsBinary.readsAssignment_assignment {level : Nat} {target value : Expression}
    (h : ReadsBinary 0 level (Chunk.words target.chunks) target) (hlevel : 4 ≤ level)
    (o : AssignmentOperator) (hvalue : ReadsAssignment value) :
    ReadsAssignment (.assignment target o value) := by
  intro d ws s st hst hd hws
  have hwords : Chunk.words (Expression.chunks (.assignment target o value)) ++ ws =
      Chunk.words target.chunks ++
        ((o.kind, if o.kind.isName then o.kind.text.toList else []) ::
          (Chunk.words value.chunks ++ ws)) := by
    simp [Expression.chunks, Chunk.between]
  rw [hwords] at hst hd
  have hlength := hd
  rw [List.length_append, List.length_cons] at hlength
  have hquestion : o.kind ≠ .punctuator .question := fun e => absurd (e ▸ o.assigns) (by decide)
  unfold assignment
  refine .step rfl (.step (hst.isWord_eq_false (by simp)) (.step rfl (.neg (by simp) ?_)))
  refine .step hst.arrowHead (.bind (h.conditional hst hd (goesOn_eq_false (.inr o.assigns))
    (TokenKind.binaryPrecedence_of_isAssignment o.assigns) hquestion hlevel) ?_)
  rintro n st' ⟨s', hst', hext, hn⟩
  refine .step hst'.token (.pos o.assigns (.next hst' fun hrest => ?_))
  refine .bind (hvalue.deeper hrest (by omega) hws) ?_
  rintro n' st₂ ⟨s₂, hst₂, hext₂, hn'⟩
  refine Formed.add ⟨s₂, hst₂, hext.trans hext₂, fun s₃ m hext₃ hm => ?_⟩ _
  exact ⟨some n, some n', .bare hm (by simp), hn.extends (hext₂.trans hext₃), hn'.extends hext₃⟩

/-! The induction. -/

/-- The expression is read in all the places where it may stand. -/
structure ReadsBack (e : Expression) : Prop where
  assignment : ReadsAssignment e
  tail : 19 ≤ e.level → ReadsTail (Chunk.words e.chunks) e
  binary : ∀ minimum, minimum + 4 ≤ e.level →
    ReadsBinary minimum e.level (Chunk.words e.chunks) e

namespace ReadsBack

theorem of_tail (hlevel : 19 ≤ e.level) (h : ReadsTail (Chunk.words e.chunks) e) : ReadsBack e := by
  have hbinary := fun minimum => h.readsBinary e.opens minimum e.level
  exact ⟨(hbinary 0).readsAssignment (by omega), fun _ => h, fun minimum _ => hbinary minimum⟩

theorem of_binary (hlevel : 4 ≤ e.level) (hless : e.level < 19)
    (h : ∀ minimum, minimum + 4 ≤ e.level → ReadsBinary minimum e.level (Chunk.words e.chunks) e) :
    ReadsBack e :=
  ⟨(h 0 hlevel).readsAssignment hlevel, fun hle => absurd hless (Nat.not_lt.2 hle), h⟩

theorem of_assignment (hless : e.level < 4) (h : ReadsAssignment e) : ReadsBack e :=
  ⟨h, fun hle => absurd hless (by omega), fun minimum hle => absurd hless (by omega)⟩

variable (h : ReadsBack e)

include h

theorem tailAt : ReadsTail (Chunk.words (e.chunksAt 19)) e := by
  by_cases hlevel : e.level < 19
  · rw [Expression.chunksAt_of_lt hlevel]
    exact h.assignment.readsTail
  · rw [Expression.chunksAt_of_le (Nat.le_of_not_lt hlevel)]
    exact h.tail (Nat.le_of_not_lt hlevel)

theorem binaryAt {minimum least : Nat} (hleast : minimum + 4 ≤ least) (hmax : least ≤ 20) :
    ∃ level, least ≤ level ∧ ReadsBinary minimum level (Chunk.words (e.chunksAt least)) e := by
  by_cases hlevel : e.level < least
  · rw [Expression.chunksAt_of_lt hlevel]
    exact ⟨20, hmax, h.assignment.readsTail.readsBinary (fun ws => .inr rfl) minimum 20⟩
  · have hle := Nat.le_of_not_lt hlevel
    rw [Expression.chunksAt_of_le hle]
    exact ⟨e.level, hle, h.binary minimum (Nat.le_trans hleast hle)⟩

end ReadsBack

theorem level_of_isTarget (h : e.isTarget = true) : 19 ≤ e.level := by
  cases e with
  | name => exact Nat.le_succ 19
  | member | element => exact Nat.le_refl 19
  | _ => cases h

theorem areProper_iff {es : List Expression} :
    Expression.areProper es = true ↔ ∀ e ∈ es, e.isProper = true := by
  induction es with
  | nil => simp [Expression.areProper]
  | cons e es ih => simp [Expression.areProper, ih]

/-- Every expression is read back from its words. -/
theorem reads (h : e.isProper = true) : ReadsBack e := by
  induction e with
  | name x => exact .of_tail (Nat.le_succ 19) (readsTail_name x)
  | binary left o right hleft hright =>
    rw [Expression.isProper, Bool.and_eq_true] at h
    have hbinds : 0 < o.precedence := o.binds
    have hmax := o.precedence_le
    obtain ⟨hleast, hleftmost, hrightmost⟩ := o.levels
    refine .of_binary (by rw [Expression.level]; omega) (by rw [Expression.level]; omega)
      fun minimum hminimum => ?_
    rw [Expression.level] at hminimum
    obtain ⟨level, hlevel, hread⟩ := (hleft h.1).binaryAt (Nat.le_trans hminimum hleast) hleftmost
    obtain ⟨level', hlevel', hread'⟩ :=
      (hright h.2).binaryAt (Nat.le_of_eq (rightMinimum_add o)) hrightmost
    rw [Expression.chunks, Chunk.words_append, Chunk.words_between]
    exact hread.operation hread' hlevel hlevel' (by omega)
  | conditional condition whenTrue whenFalse hcondition htrue hfalse =>
    rw [Expression.isProper, Bool.and_eq_true, Bool.and_eq_true] at h
    obtain ⟨level, hlevel, hread⟩ :=
      (hcondition h.1.1).binaryAt (show 0 + 4 ≤ 4 from Nat.le_refl 4) (by omega)
    exact .of_assignment (Nat.lt_succ_self 3)
      (hread.readsAssignment_conditional hlevel (htrue h.1.2).assignment (hfalse h.2).assignment)
  | assignment target o value htarget hvalue =>
    rw [Expression.isProper, Bool.and_eq_true, Bool.and_eq_true] at h
    have hlevel : 4 ≤ target.level := Nat.le_trans (by omega) (level_of_isTarget h.1.1)
    exact .of_assignment (Nat.lt_of_lt_of_le (Nat.lt_succ_self 2) (by omega))
      (((htarget h.1.2).binary 0 hlevel).readsAssignment_assignment hlevel o (hvalue h.2).assignment)
  | call callee arguments isOptional hcallee harguments =>
    rw [Expression.isProper, Bool.and_eq_true, areProper_iff] at h
    have hread := (hcallee h.1).tailAt.call (fun e he => (harguments e he (h.2 e he)).assignment) isOptional
    refine .of_tail (Nat.le_refl 19) ?_
    rw [Expression.chunks, Chunk.words_append]
    exact hread
  | member object x isOptional hobject =>
    rw [Expression.isProper] at h
    refine .of_tail (Nat.le_refl 19) ?_
    rw [Expression.chunks, Chunk.words_append]
    exact (hobject h).tailAt.member x isOptional
  | element object index isOptional hobject hindex =>
    rw [Expression.isProper, Bool.and_eq_true] at h
    refine .of_tail (Nat.le_refl 19) ?_
    rw [Expression.chunks, Chunk.words_append]
    exact (hobject h.1).tailAt.element (hindex h.2).assignment isOptional

end Parser

end Modernizer
