import Modernizer.Proofs.Parser.Along
import Modernizer.Proofs.Parser.Keeping

/-! Expressions take all of the text that they are read from: they begin with the first token and end
with the last one that was passed (`fits_expression`). Most steps add a node from a known offset on
(`Ends`), others may leave the node that they have read so far as it is (`Rests`). -/

namespace Modernizer.Parser

open Store

-- a step with many parts has an instance for each of them
set_option synthInstance.maxSize 1000

variable {α : Type} {g : Grammar} {p : Nat} {n : NodeId} {f f' : Parse NodeId}

def State.Exact (p : Nat) (n : NodeId) (st : State) : Prop :=
  ∃ x, st.store.get? (some n) = some x ∧ x.pos = p ∧ x.stop = st.previousStop

/-- The step ends with a node from the offset on. -/
class Ends (p : Nat) (f : Parse NodeId) : Prop where
  ends : ∀ {st n st'}, f st = .ok (n, st') → st'.Exact p n

/-- The step takes the text from the current token on, which begins at the offset. -/
class Fits (p : Nat) (f : Parse NodeId) : Prop where
  fits : ∀ {st n st'}, st.scanner.start = p → f st = .ok (n, st') → st'.Exact p n

/-- The step goes on from a node, and perhaps not at all. -/
class Rests (p : Nat) (n : NodeId) (f : Parse NodeId) : Prop where
  takes : Takes (State.Exact p n) f (State.Exact p)

namespace Takes

variable {β : Type} {P : State → Prop} {R : β → State → Prop} {e : Parse α} {k : α → Parse β}

theorem anyway (hk : ∀ a, Takes (fun _ => True) (k a) R) : Takes P (e >>= k) R :=
  .bind (fun _ _ _ _ _ => trivial) hk

theorem lookFrom [hf : Silent e] [hf' : Looks e] (hk : ∀ a, Takes (State.Exact p n) (k a) R) :
    Takes (State.Exact p n) (e >>= k) R := by
  refine .bind (Q := fun _ => State.Exact p n) (fun st a st' ⟨x, hx, hpos, hstop⟩ hrun => ?_) hk
  refine ⟨x, ?_, hpos, hstop.trans (hf'.stays hrun).previousStop.symm⟩
  rw [hf.store st a st' hrun]
  exact hx

theorem optionalFrom {kind : TokenKind} {k : Bool → Parse β} (hyes : Takes (fun _ => True) (k true) R)
    (hno : Takes (State.Exact p n) (k false) R) : Takes (State.Exact p n) (optional kind >>= k) R := by
  unfold Parser.optional
  rw [bind_assoc]
  refine .lookFrom fun found => ?_
  cases found with
  | true =>
    rw [if_pos rfl, bind_assoc]
    refine .anyway fun _ => ?_
    rwa [pure_bind]
  | false =>
    rw [if_neg (by decide), pure_bind]
    exact hno

end Takes

namespace Ends

instance fails [hf : Fails f] : Ends p f := ⟨fun hrun => absurd hrun hf.fails⟩

instance add (form : Form) : Ends p (add form p) where
  ends hrun := by
    obtain ⟨stop, st₁, hstop, hrun⟩ := bind_eq_ok hrun
    cases hstop
    cases hrun
    obtain ⟨x, hx, e⟩ := get?_add_self _ form p _
    simp only [fixed, Prod.mk.injEq] at e
    exact ⟨x, hx, e.2.1, e.2.2.1⟩

instance bind {f : Parse α} {k : α → Parse NodeId} [hk : ∀ a, Ends p (k a)] : Ends p (f >>= k) where
  ends hrun := by
    obtain ⟨a, st₁, -, hrun⟩ := bind_eq_ok hrun
    exact (hk a).ends hrun

instance ite (c : Prop) [Decidable c] [Ends p f] [Ends p f'] : Ends p (if c then f else f') := by
  split <;> infer_instance

instance (priority := high) iteTrue [hf : Ends p f] : Ends p (if true = true then f else f') := by
  rwa [if_pos rfl]

end Ends

namespace Fits

variable {k : α → Parse NodeId}

instance (priority := low) ends (f : Parse NodeId) [hf : Ends p f] : Fits p f := ⟨fun _ hrun => hf.ends hrun⟩

instance tokenPos {k : Nat → Parse NodeId} [hk : Fits p (k p)] : Fits p (tokenPos >>= k) where
  fits := by
    rintro st n st' rfl hrun
    exact hk.fits rfl hrun

instance look {f : Parse α} [hf : Looks f] [hk : ∀ a, Fits p (k a)] : Fits p (f >>= k) where
  fits hstart hrun := by
    obtain ⟨a, st₁, hrun', hrun⟩ := bind_eq_ok hrun
    exact (hk a).fits (((hf.stays hrun').scanner.symm ▸ rfl : _ = _).trans hstart) hrun

instance rescanSlash {k : PUnit → Parse NodeId} [hk : ∀ a, Fits p (k a)] :
    Fits p (rescanSlash >>= k) where
  fits {st _ _} hstart hrun := by
    obtain ⟨a, st₁, hrun', hrun⟩ := bind_eq_ok hrun
    cases hrun'
    refine (hk _).fits ?_ hrun
    rcases Scanner.rereads_rescanSlash st.scanner with h | ⟨-, l, h⟩
    · exact (congrArg Scanner.start h).trans hstart
    · exact (congrArg Scanner.start h).trans hstart

instance ite (c : Prop) [Decidable c] [Fits p f] [Fits p f'] : Fits p (if c then f else f') := by
  split <;> infer_instance

theorem bind {k : NodeId → Parse NodeId} [hf : Fits p f] (hk : ∀ n, Rests p n (k n)) :
    Fits p (f >>= k) where
  fits hstart hrun := by
    obtain ⟨n, st₁, hrun', hrun⟩ := bind_eq_ok hrun
    exact (hk n).takes _ _ _ (hf.fits hstart hrun') hrun

end Fits

namespace Rests

instance pure (n : NodeId) : Rests p n (Pure.pure n) := ⟨.pure fun _ h => h⟩

instance (priority := low) ends [hf : Ends p f] : Rests p n f := ⟨fun _ _ _ _ hrun => hf.ends hrun⟩

instance look {f : Parse α} {k : α → Parse NodeId} [hf : Silent f] [hf' : Looks f]
    [hk : ∀ a, Rests p n (k a)] : Rests p n (f >>= k) where
  takes := .lookFrom fun a => (hk a).takes

instance ite (c : Prop) [Decidable c] [Rests p n f] [Rests p n f'] :
    Rests p n (if c then f else f') := by
  split <;> infer_instance

instance optional (kind : TokenKind) {k : Bool → Parse NodeId} [hyes : Ends p (k true)]
    [hno : Rests p n (k false)] : Rests p n (optional kind >>= k) where
  takes := .optionalFrom (fun _ _ _ _ hrun => hyes.ends hrun) hno.takes

theorem repeating {step : NodeId → Parse (ForInStep NodeId)}
    (h : ∀ n, Takes (State.Exact p n) (step n) fun r => State.Exact p r.value) :
    Rests p n (repeating n step) :=
  ⟨.iterating n h⟩

end Rests

instance fits_identifierName : Fits p identifierName := by unfold identifierName; infer_instance

instance fits_identifier : Fits p identifier := by unfold identifier; infer_instance

instance fits_numberOrString : Fits p numberOrString := by unfold numberOrString; infer_instance

instance fits_atom (form : Form) : Fits p (atom form) := by unfold atom; infer_instance

instance fits_arrayLiteral : Fits p (arrayLiteral g) := by unfold arrayLiteral; infer_instance

instance fits_objectLiteral : Fits p (objectLiteral g) := by unfold objectLiteral; infer_instance

instance ends_functionExpression (isAsync : Bool) : Ends p (functionExpression g p isAsync) := by
  unfold functionExpression; infer_instance

instance fits_classLike (isDeclaration : Bool) : Fits p (classLike g isDeclaration) := by
  unfold classLike
  dsimp only
  infer_instance

instance fits_templateLiteral : Fits p (templateLiteral g) := by
  unfold templateLiteral; dsimp only; infer_instance

instance fits_primary : Fits p (primary g) := by
  unfold primary
  refine @Fits.tokenPos _ _ (@Fits.look _ _ _ _ _ fun kind => ?_)
  split <;> infer_instance

theorem takes_yield (form : Form) {P : State → Prop} :
    Takes P (add form p >>= fun n => pure (.yield n)) fun r : ForInStep NodeId => State.Exact p r.value := by
  intro st r st' _ hrun
  obtain ⟨n, st₁, hadd, hrun⟩ := bind_eq_ok hrun
  cases hrun
  exact Ends.ends hadd

theorem takes_done : Takes (State.Exact p n) (pure (.done n)) fun r : ForInStep NodeId =>
    State.Exact p r.value := .pure fun _ hst => hst

theorem takes_some (form : Form) {P : State → Prop} :
    Takes P (pure (some form)) fun o st => o = none → st.Exact p n :=
  .pure fun _ _ h => by cases h

theorem takes_memberStep_exact (left : NodeId) (allowCall : Bool) :
    Takes (State.Exact p left) (memberStep g left allowCall) fun o st => o = none → st.Exact p left := by
  unfold memberStep
  refine .lookFrom fun kind => ?_
  split
  · exact .anyway fun _ => .anyway fun n => takes_some _
  · refine .anyway fun _ => .anyway fun kind => ?_
    split
    · exact .anyway fun n => takes_some _
    · split
      · exact .anyway fun l => takes_some _
      · exact .anyway fun n => takes_some _
  · exact .anyway fun n => takes_some _
  · exact .anyway fun n => takes_some _
  · exact .anyway fun n => takes_some _
  · split
    · exact .anyway fun l => takes_some _
    · exact .pure fun _ hst _ => hst

instance rests_memberTail (allowCall : Bool) : Rests p n (memberTail g p n allowCall) := by
  unfold memberTail
  refine .repeating fun left => .bind (takes_memberStep_exact left allowCall) fun o => ?_
  cases o with
  | none => exact .pure fun _ hst => hst rfl
  | some form => exact takes_yield form

instance fits_newExpression : Fits p (newExpression g) := by
  unfold newExpression
  dsimp only
  infer_instance

instance fits_leftHandSide : Fits p (leftHandSide g) := by
  unfold leftHandSide
  refine @Fits.tokenPos _ _ (@Fits.look _ _ _ _ _ fun found => ?_)
  split
  · exact .bind fun n => inferInstance
  · exact .bind fun n => inferInstance

instance fits_postfixed : Fits p (postfixed g) := by
  unfold postfixed
  refine @Fits.tokenPos _ _ (.bind fun n => ?_)
  infer_instance

instance fits_unary : Fits p (unary g) := by
  unfold unary
  infer_instance

instance fits_binary (minimum : Nat) : Fits p (binary g minimum) := by
  unfold binary
  refine @Fits.tokenPos _ _ (.bind fun first => .repeating fun left => ?_)
  refine .lookFrom fun operator => ?_
  dsimp only
  split
  · exact takes_done
  refine .lookFrom fun context => ?_
  split
  · exact takes_done
  · exact .anyway fun _ => .anyway fun right => takes_yield _

instance fits_conditional : Fits p (conditional g) := by
  unfold conditional
  refine @Fits.tokenPos _ _ (.bind fun n => ?_)
  infer_instance

instance ends_arrowFunction (isAsync bareParameter : Bool) :
    Ends p (arrowFunction g p isAsync bareParameter) := by
  unfold arrowFunction; dsimp only; infer_instance

instance fits_yieldExpression : Fits p (yieldExpression g) := by
  unfold yieldExpression; infer_instance

instance looks_arrowHead : Looks arrowHead := by
  unfold arrowHead
  refine @Looks.bind _ _ _ _ inferInstance fun kind => ?_
  split <;> infer_instance

instance fits_assignment : Fits p (assignment g) := by
  unfold assignment
  refine @Fits.tokenPos _ _ (@Fits.look _ _ _ _ _ fun word => @Fits.look _ _ _ _ _ fun context => ?_)
  split
  · infer_instance
  refine @Fits.look _ _ _ _ _ fun head => ?_
  split
  · infer_instance
  · infer_instance
  · exact .bind fun left => inferInstance

instance fits_expressionOf (assignment : Parse NodeId) [Fits p assignment] :
    Fits p (expressionOf assignment) := by
  unfold expressionOf
  refine @Fits.tokenPos _ _ (.bind fun first => .repeating fun left => ?_)
  exact .optionalFrom (.anyway fun right => takes_yield _) takes_done

/-- An expression begins with the first token and ends with the last one. -/
instance fits_expression : Fits p (expression g) := by unfold expression; infer_instance

end Modernizer.Parser
