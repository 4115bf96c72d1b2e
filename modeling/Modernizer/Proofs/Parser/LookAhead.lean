import Modernizer.Proofs.Parser.Keeping

/-! Reading ahead leaves no trace. On the way comments are only added and an error that is there
stays, so their number and whether there is one are enough to come back (`Scanner.restore_moved`). A
parser that looks ahead is therefore where it was (`lookAhead_eq`), and what it does next depends on
the answer alone. -/

namespace Modernizer

namespace Scanner

/-- What can be asked of a scanner on the way through a text. -/
inductive Move where
  | scan
  | slash
  | template
  deriving DecidableEq, Repr

def Move.apply : Move → Scanner → Scanner
  | scan => Scanner.scan
  | slash => rescanSlash
  | template => rescanTemplate

/-- One move after the other. -/
def moved (sc : Scanner) (moves : List Move) : Scanner := moves.foldl (fun sc move => move.apply sc) sc

theorem Ahead.apply (move : Move) (sc : Scanner) : Ahead sc (move.apply sc) := by
  cases move with
  | scan => exact .scan sc
  | slash => exact .rescanSlash sc
  | template => exact .rescanTemplate sc

theorem ahead_moved (sc : Scanner) (moves : List Move) : Ahead sc (sc.moved moves) := by
  induction moves generalizing sc with
  | nil => exact .refl sc
  | cons move moves ih => exact (Ahead.apply move sc).trans (ih (move.apply sc))

theorem restore_moved (sc : Scanner) (moves : List Move) :
    (sc.moved moves).restore sc.snapshot = sc := (ahead_moved sc moves).restore

end Scanner

namespace Parser

variable {α β : Type}

theorem lookAhead_eq (f : StateM Scanner α) [hf : GoesAhead f] (st : State) :
    lookAhead f st = .ok ((f st.scanner).1, st) := by
  have hrestore := (hf.ahead st.scanner).restore
  change (.ok ((f st.scanner).1,
    { st with scanner := (f st.scanner).2.restore st.scanner.snapshot }) : Except ParseError _) = _
  rw [hrestore]

theorem tokenPos_bind (k : Nat → Parse β) (st : State) :
    (tokenPos >>= k) st = k st.scanner.start st := rfl

/-- The step gives an answer, and the parser is where it was. -/
class Asks (f : Parse α) : Prop where
  asks : ∀ st, ∃ a, f st = .ok (a, st)

theorem Asks.exists_bind {f : Parse α} [hf : Asks f] (k : α → Parse β) (st : State) :
    ∃ a, (f >>= k) st = k a st := by
  obtain ⟨a, ha⟩ := hf.asks st
  refine ⟨a, ?_⟩
  change (f st >>= fun r => k r.1 r.2) = _
  rw [ha]
  rfl

namespace Asks

instance pure (a : α) : Asks (Pure.pure a : Parse α) := ⟨fun _ => ⟨a, rfl⟩⟩

instance get : Asks (MonadState.get : Parse State) := ⟨fun st => ⟨st, rfl⟩⟩

instance bind {f : Parse α} {k : α → Parse β} [Asks f] [hk : ∀ a, Asks (k a)] : Asks (f >>= k) where
  asks st := by
    obtain ⟨a, ha⟩ := exists_bind (f := f) k st
    rw [ha]
    exact (hk a).asks st

instance ite (c : Prop) [Decidable c] {f f' : Parse α} [Asks f] [Asks f'] :
    Asks (if c then f else f') := by
  split <;> infer_instance

instance lookAhead (f : StateM Scanner α) [GoesAhead f] : Asks (lookAhead f) :=
  ⟨fun st => ⟨_, lookAhead_eq f st⟩⟩

instance token : Asks token := bind
instance tokenPos : Asks tokenPos := bind
instance tokenValue : Asks tokenValue := bind
instance isWord (name : String) : Asks (isWord name) := by unfold Parser.isWord; infer_instance

instance isLetDeclaration : Asks isLetDeclaration := by
  unfold Parser.isLetDeclaration; infer_instance

instance isAsyncFunction : Asks isAsyncFunction := by
  unfold Parser.isAsyncFunction; infer_instance

instance isModifier : Asks isModifier := by unfold Parser.isModifier; infer_instance

instance arrowHead : Asks arrowHead := by
  unfold Parser.arrowHead
  refine @bind _ _ _ _ token fun kind => ?_
  split <;> infer_instance

end Asks

theorem exists_wordStatement (g : Grammar) (st : State) :
    ∃ f ∈ [variableStatement g .letKind, do next; functionDeclaration g true, labeledStatement g,
      expressionStatement g], wordStatement g st = f st := by
  unfold wordStatement
  obtain ⟨declares, hdeclares⟩ := Asks.exists_bind (f := isLetDeclaration) (β := NodeId) _ st
  rw [hdeclares]
  cases declares with
  | true => exact ⟨_, by simp, rfl⟩
  | false =>
    rw [if_neg Bool.false_ne_true]
    obtain ⟨isAsync, hasync⟩ := Asks.exists_bind (f := isAsyncFunction) (β := NodeId) _ st
    rw [hasync]
    cases isAsync with
    | true => exact ⟨_, by simp, rfl⟩
    | false =>
      rw [if_neg Bool.false_ne_true]
      obtain ⟨labeled, hlabeled⟩ := Asks.exists_bind
        (f := lookAhead do return (← advance) == .punctuator .colon) (β := NodeId) _ st
      rw [hlabeled]
      cases labeled with
      | true => exact ⟨_, by simp, rfl⟩
      | false => exact ⟨_, by simp, rfl⟩

theorem exists_classMember (g : Grammar) (st : State) :
    ∃ isStatic : Bool, classMember g st =
      ((if isStatic then next else pure ()) >>= fun _ =>
        methodLike g st.scanner.start isStatic true) st := by
  have hmember : ∀ isStatic : Bool, (if isStatic then next >>= fun _ =>
      methodLike g st.scanner.start isStatic true else methodLike g st.scanner.start isStatic true) st =
      ((if isStatic then next else pure ()) >>= fun _ =>
        methodLike g st.scanner.start isStatic true) st := by
    intro isStatic
    cases isStatic <;> rfl
  unfold classMember
  rw [tokenPos_bind]
  obtain ⟨word, hword⟩ := Asks.exists_bind (f := isWord "static") (β := NodeId) _ st
  rw [hword]
  cases word with
  | false => exact ⟨false, hmember false⟩
  | true =>
    obtain ⟨isStatic, hstatic⟩ := Asks.exists_bind (β := NodeId)
      (f := lookAhead do
        let kind ← advance
        return kind != .punctuator .openParen && kind != .punctuator .assign) _ st
    rw [if_pos rfl, hstatic]
    exact ⟨isStatic, hmember isStatic⟩

/-- Whatever the scanner is asked on the way, going back to a snapshot gives the scanner of the
snapshot. So the parser is where it was after each of its looks ahead: at the next token, for the
parameters of an arrow function behind `async`, and for the end of a group however far that is. -/
theorem lookAhead_leaves_no_trace :
    (∀ (sc : Scanner) (moves : List Scanner.Move), (sc.moved moves).restore sc.snapshot = sc) ∧
    (∀ (p : TokenKind → Scanner → Bool) st,
      lookAhead (do let kind ← advance; return p kind (← get)) st =
        .ok (p st.scanner.scan.kind st.scanner.scan, st)) ∧
    (∀ st, lookAhead asyncArrowHead st = .ok ((asyncArrowHead st.scanner).1, st)) ∧
    (∀ fuel closers previous st, lookAhead (isArrowGroup.go fuel closers previous) st =
      .ok ((isArrowGroup.go fuel closers previous st.scanner).1, st)) ∧
    (∀ st, lookAhead isArrowGroup st = .ok ((isArrowGroup st.scanner).1, st)) ∧
    (∀ st, ∃ head, arrowHead st = .ok (head, st)) ∧
    (∀ st, ∃ found, isLetDeclaration st = .ok (found, st)) ∧
    (∀ st, ∃ found, isAsyncFunction st = .ok (found, st)) ∧
    (∀ st, ∃ found, isModifier st = .ok (found, st)) ∧
    (∀ g st, ∃ f ∈ [variableStatement g .letKind, do next; functionDeclaration g true,
      labeledStatement g, expressionStatement g], wordStatement g st = f st) ∧
    ∀ g st, ∃ isStatic : Bool, classMember g st =
      ((if isStatic then next else pure ()) >>= fun _ =>
        methodLike g st.scanner.start isStatic true) st :=
  ⟨Scanner.restore_moved, fun _ => lookAhead_eq _, lookAhead_eq asyncArrowHead,
    fun _ _ _ => lookAhead_eq _, lookAhead_eq isArrowGroup, Asks.arrowHead.asks,
    Asks.isLetDeclaration.asks, Asks.isAsyncFunction.asks, Asks.isModifier.asks,
    exists_wordStatement, exists_classMember⟩

end Parser

end Modernizer
