import Modernizer.Proofs.Parser.LookAhead
import Modernizer.Proofs.Token.Words

/-! Steps of the parser that are known to succeed where they are taken. What the parser has before it
are words (`State.Ready`), and it passes them one by one. Among these words no search for an arrow
finds one (`Calm`). -/

namespace Modernizer

/-- The kind of the first word, or of the end of the text. -/
def firstKind (ws : List Word) : TokenKind := (ws.head?.map Prod.fst).getD .endOfFile

@[simp] theorem firstKind_cons (w : Word) (ws : List Word) : firstKind (w :: ws) = w.1 := rfl

theorem Scanner.At.kind {sc : Scanner} {ws : List Word} (h : sc.At ws) : sc.kind = firstKind ws := by
  cases ws with
  | nil => exact h
  | cons w ws => exact congrArg Prod.fst h.1

namespace Parser

open Store

variable {α β : Type} {f : Parse α} {k : α → Parse β} {P Q : α → State → Prop} {R : β → State → Prop}
  {s s' : Store} {st st' : State} {sc : Scanner} {w : Word} {ws : List Word}
  {kind previous : TokenKind} {a : α}

/-! Searches for an arrow. -/

/-- A search for an arrow comes to none in these words, and has to read none of them again. -/
def Calm (previous : TokenKind) : List Word → Prop
  | [] => True
  | (kind, _) :: ws => kind ≠ .punctuator .arrow ∧ kind ≠ .punctuator .closeBrace ∧
      (kind = .punctuator .slash ∨ kind = .punctuator .slashAssign → endsOperand previous = true) ∧
      Calm kind ws

theorem Calm.head (h : Calm previous ws) : firstKind ws ≠ .punctuator .arrow ∧
    firstKind ws ≠ .punctuator .closeBrace ∧ (firstKind ws = .punctuator .slash ∨
      firstKind ws = .punctuator .slashAssign → endsOperand previous = true) := by
  cases ws with
  | nil => simp [firstKind]
  | cons w ws => exact ⟨h.1, h.2.1, h.2.2.1⟩

theorem Calm.restart (h : Calm previous ws)
    (hslash : firstKind ws ≠ .punctuator .slash ∧ firstKind ws ≠ .punctuator .slashAssign)
    (other : TokenKind) : Calm other ws := by
  cases ws with
  | nil => trivial
  | cons w ws =>
    exact ⟨h.1, h.2.1, fun e => absurd e (not_or.2 hslash), h.2.2.2⟩

theorem Calm.tail (h : Calm previous (w :: ws)) : Calm w.1 ws := h.2.2.2

def Resting (sc : Scanner) (f : StateM Scanner α) : Prop := (f sc).2 = sc

theorem Resting.bind {f : StateM Scanner α} (h : Resting sc f) (k : α → StateM Scanner β) :
    (f >>= k) sc = k (f sc).1 sc := by
  change k (f sc).1 (f sc).2 = _
  rw [h]

theorem resting_balance (closers : List TokenKind) (hbrace : sc.kind ≠ .punctuator .closeBrace)
    (hslash : sc.kind = .punctuator .slash ∨ sc.kind = .punctuator .slashAssign →
      endsOperand previous = true) : Resting sc (balance closers previous) := by
  have hget : ∀ k : Scanner → StateM Scanner (Option (List TokenKind)), Resting sc (k sc) →
      Resting sc (get >>= k) := fun _ h => h
  unfold balance
  refine hget _ ?_
  split
  any_goals rfl
  · contradiction
  · split
    · split <;> rfl
    · split
      · rename_i h
        simp [hslash h.1] at h
      · rfl

theorem balance_end (closers : List TokenKind) (h : sc.kind = .endOfFile) :
    (balance closers previous sc).1 = none := by
  have hget : ∀ k : Scanner → StateM Scanner (Option (List TokenKind)), (get >>= k) sc = k sc sc :=
    fun _ => rfl
  unfold balance
  rw [hget, h]
  rfl

theorem isArrowGroup_go_eq_false (fuel : Nat) (closers : List TokenKind) (h : sc.At ws)
    (hcalm : Calm previous ws) : (isArrowGroup.go fuel closers previous sc).1 = false := by
  induction fuel generalizing closers previous sc ws with
  | zero => rfl
  | succ fuel ih =>
    have hfirst := hcalm.head
    rw [← h.kind] at hfirst
    rw [isArrowGroup.go, (resting_balance closers hfirst.2.1 hfirst.2.2).bind]
    cases ws with
    | nil =>
      rw [balance_end closers h]
      rfl
    | cons w ws =>
      have hcalm' : Calm sc.kind ws := h.kind ▸ hcalm.2.2.2
      cases (balance closers previous sc).1 with
      | none => rfl
      | some closers' =>
        cases closers' with
        | nil =>
          change (sc.scan.kind == .punctuator .arrow && !sc.scan.lineBreakBefore) = false
          simp [h.scan.kind, hcalm'.head.1]
        | cons closer closers' =>
          change (((if sc.kind = .unknown then _ else _) : StateM Scanner Bool) sc).1 = _
          split
          · rfl
          · exact ih (closer :: closers') h.scan hcalm'

/-! Steps that succeed. -/

/-- The step succeeds from this state, with a result and a state as in `Q`. -/
def Gives (f : Parse α) (st : State) (Q : α → State → Prop) : Prop :=
  ∃ a st', f st = .ok (a, st') ∧ Q a st'

namespace Gives

theorem pure (h : Q a st) : Gives (Pure.pure a) st Q := ⟨a, st, rfl, h⟩

theorem mono (h : Gives f st P) (hQ : ∀ a st', P a st' → Q a st') : Gives f st Q := by
  obtain ⟨a, st', hf, hP⟩ := h
  exact ⟨a, st', hf, hQ a st' hP⟩

theorem eq (h : Gives f st fun b st'' => b = a ∧ st'' = st') : f st = .ok (a, st') := by
  obtain ⟨_, _, hf, rfl, rfl⟩ := h
  exact hf

theorem step (hf : f st = .ok (a, st')) (hk : Gives (k a) st' R) : Gives (f >>= k) st R := by
  change ∃ b st'', (f st >>= fun r => k r.1 r.2) = .ok (b, st'') ∧ R b st''
  rw [hf]
  exact hk

theorem bind (h : Gives f st P) (hk : ∀ a st', P a st' → Gives (k a) st' R) :
    Gives (f >>= k) st R := by
  obtain ⟨a, st', hf, hP⟩ := h
  exact step hf (hk a st' hP)

theorem yes {f : Parse Bool} {g g' : Parse β} (hf : f st = .ok (true, st')) (hg : Gives g st' R) :
    Gives (f >>= fun b => if b = true then g else g') st R := step hf hg

theorem no {f : Parse Bool} {g g' : Parse β} (hf : f st = .ok (false, st')) (hg : Gives g' st' R) :
    Gives (f >>= fun b => if b = true then g else g') st R := step hf hg

theorem pos {c : Prop} [Decidable c] {g : Parse α} (hc : c) (h : Gives f st Q) :
    Gives (if c then f else g) st Q := by rwa [if_pos hc]

theorem neg {c : Prop} [Decidable c] {g : Parse α} (hc : ¬ c) (h : Gives g st Q) :
    Gives (if c then f else g) st Q := by rwa [if_neg hc]

theorem go {step : α → Parse (ForInStep α)} {fuel : Nat}
    (h : Gives (step a) st fun r st' =>
      match r with
      | .done b => Q b st'
      | .yield b => Gives (repeating.go step fuel b) st' Q) :
    Gives (repeating.go step (fuel + 1) a) st Q := by
  refine bind h fun r st' hr => ?_
  cases r with
  | done b => exact pure hr
  | yield b => exact hr

theorem allowingIn (hst : st.context = .top) (h : Gives f st fun a st' => st'.context = .top ∧ Q a st') :
    Gives (allowingIn f) st Q := by
  obtain ⟨a, st', hf, htop, hQ⟩ := h
  have hinside : { st with context := { st.context with disallowIn := false } } = st := by
    rw [hst]
    exact congrArg (fun context => { st with context }) hst.symm
  have hback : { st' with context := st.context } = st' := by
    rw [hst, ← htop]
  refine ⟨a, st', ?_, hQ⟩
  change (f { st with context := { st.context with disallowIn := false } } >>= fun r =>
    Except.ok (r.1, { r.2 with context := st.context })) = _
  rw [hinside, hf]
  exact congrArg (fun st' => Except.ok (a, st')) hback

end Gives

/-! What lies before the parser. -/

/-- At the top level of a program these words are left to be read, and these nodes are there. -/
structure State.Ready (ws : List Word) (s : Store) (st : State) : Prop where
  words : st.scanner.At ws
  store : st.store = s
  context : st.context = .top
  calm : ∃ previous, Calm previous ws
  plain : ∀ x, (.identifier, x) ∈ ws → String.ofList x ∉ ["let", "async", "yield", "await"]

namespace State.Ready

variable (h : st.Ready ws s)

include h

theorem kind_eq : st.scanner.kind = firstKind ws := h.words.kind

theorem length_lt : ws.length < st.remaining := by
  have := h.words.length_le
  unfold State.remaining
  omega

theorem token : token st = .ok (firstKind ws, st) := h.kind_eq ▸ rfl

theorem isToken (kind : TokenKind) : isToken kind st = .ok (firstKind ws == kind, st) := by
  change Except.ok (st.scanner.kind == kind, st) = _
  rw [h.kind_eq]

theorem isWord_eq_false {name : String} (hname : name ∈ ["let", "async", "yield", "await"]) :
    isWord name st = .ok (false, st) := by
  change Except.ok (st.scanner.kind == .identifier && String.ofList st.scanner.value == name, st) = _
  rw [h.kind_eq]
  cases ws with
  | nil => rfl
  | cons w ws =>
    obtain ⟨kind, x⟩ := w
    by_cases hkind : kind = .identifier
    · have hvalue : st.scanner.value = x := congrArg Prod.snd h.words.1
      have hx : String.ofList x ≠ name :=
        fun e => h.plain x (by rw [hkind]; exact List.mem_cons_self) (e ▸ hname)
      simp [hvalue, hx]
    · simp [hkind]

theorem arrowHead : arrowHead st = .ok (.none, st) := by
  obtain ⟨previous, hcalm⟩ := h.calm
  refine Gives.eq ?_
  unfold Parser.arrowHead
  refine .step h.token ?_
  split
  · rename_i hword
    have hplain : (st.scanner.scan.kind == .punctuator .arrow && !st.scanner.scan.lineBreakBefore) =
        false := by
      cases ws with
      | nil => cases hword
      | cons w ws => simp [h.words.scan.kind, hcalm.tail.head.1]
    refine .no (h.isWord_eq_false (by simp)) (.step (a := .none) rfl (.step (lookAhead_eq _ st) ?_))
    exact .pure ⟨if_neg (Bool.not_eq_true _ ▸ hplain), rfl⟩
  · rename_i hparen
    have hgroup : (isArrowGroup st.scanner).1 = false :=
      isArrowGroup_go_eq_false _ _ h.words (hcalm.restart (by simp [hparen]) .unknown)
    refine .step (lookAhead_eq _ st) ?_
    rw [hgroup]
    exact .pure ⟨rfl, rfl⟩
  · exact .pure ⟨rfl, rfl⟩

end State.Ready

/-- Behind the next word. -/
def State.passed (st : State) : State :=
  { st with previousStop := st.scanner.stop, scanner := st.scanner.scan }

namespace State.Ready

variable {v : Text}

theorem passed (h : st.Ready (w :: ws) s) : st.passed.Ready ws s := by
  obtain ⟨previous, hcalm⟩ := h.calm
  exact ⟨h.words.scan, h.store, h.context, ⟨w.1, hcalm.tail⟩,
    fun x hx => h.plain x (List.mem_cons_of_mem w hx)⟩

theorem isToken_eq_true (h : st.Ready ((kind, v) :: ws) s) : Parser.isToken kind st = .ok (true, st) := by
  rw [h.isToken, firstKind_cons, beq_self_eq_true]

theorem isToken_eq_false (h : st.Ready ws s) (hne : firstKind ws ≠ kind) :
    Parser.isToken kind st = .ok (false, st) := by
  rw [h.isToken, beq_eq_false_iff_ne.2 hne]

theorem optional_eq_true (h : st.Ready ((kind, v) :: ws) s) : optional kind st = .ok (true, st.passed) :=
  Gives.eq (.yes h.isToken_eq_true (.step rfl (.pure ⟨rfl, rfl⟩)))

theorem optional_eq_false (h : st.Ready ws s) (hne : firstKind ws ≠ kind) :
    optional kind st = .ok (false, st) :=
  Gives.eq (.no (h.isToken_eq_false hne) (.pure ⟨rfl, rfl⟩))

theorem expect_eq (h : st.Ready ((kind, v) :: ws) s) : expect kind st = .ok ((), st.passed) :=
  Gives.eq (.yes h.optional_eq_true (.pure ⟨rfl, rfl⟩))

end State.Ready

namespace Gives

variable {v : Text} {g g' : Parse β} {k : Unit → Parse β}

theorem next (h : st.Ready (w :: ws) s) (hk : st.passed.Ready ws s → Gives (k ()) st.passed R) :
    Gives (next >>= k) st R := step rfl (hk h.passed)

theorem optional (h : st.Ready ((kind, v) :: ws) s)
    (hg : st.passed.Ready ws s → Gives g st.passed R) :
    Gives (optional kind >>= fun b => if b = true then g else g') st R :=
  yes h.optional_eq_true (hg h.passed)

theorem without (h : st.Ready ws s) (hne : firstKind ws ≠ kind) (hg : Gives g' st R) :
    Gives (Parser.optional kind >>= fun b => if b = true then g else g') st R :=
  no (h.optional_eq_false hne) hg

theorem expect (h : st.Ready ((kind, v) :: ws) s)
    (hk : st.passed.Ready ws s → Gives (k ()) st.passed R) : Gives (expect kind >>= k) st R :=
  step h.expect_eq (hk h.passed)

theorem addSpan (h : st.Ready ws s) (form : Form) (pos stop : Nat) :
    Gives (addSpan form pos stop) st fun n st' =>
      ∃ s', st'.Ready ws s' ∧ Extends s s' ∧ s'.form? (some n) = some form := by
  obtain ⟨x, hx, hfixed⟩ := get?_add_self s form pos stop
  have hform : (s.add form pos stop).2.form? (some (s.add form pos stop).1) = some form := by
    rw [form?, hx, Option.map_some]
    exact congrArg (fun v => some v.1) hfixed
  obtain rfl := h.store
  exact ⟨_, _, rfl, _, ⟨h.words, rfl, h.context, h.calm, h.plain⟩, extends_add _ _ _ _, hform⟩

theorem add (h : st.Ready ws s) (form : Form) (pos : Nat) :
    Gives (add form pos) st fun n st' =>
      ∃ s', st'.Ready ws s' ∧ Extends s s' ∧ s'.form? (some n) = some form :=
  .step rfl (.addSpan h form pos _)

theorem repeating {init : α} {step : α → Parse (ForInStep α)} (h : st.Ready ws s)
    (hgo : ∀ fuel, ws.length < fuel → Gives (repeating.go step fuel init) st Q) :
    Gives (repeating init step) st Q := hgo st.remaining h.length_lt

end Gives

end Parser

end Modernizer
