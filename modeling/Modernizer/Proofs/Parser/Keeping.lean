import Modernizer.Parser.Program
import Modernizer.Proofs.Parser.Chain
import Modernizer.Proofs.Parser.Step
import Modernizer.Proofs.Token.Coverage
import Modernizer.Proofs.Token.Tidy
import Modernizer.Proofs.Tree.Comments

/-! The parser passes no fault of the scanner. A step that looks at the current token leaves the
scanner where it is (`Looks`), one that passes it has to know that it is a token (`Starts`), and all
others may be taken anywhere (`Keeps`): they look first, or they do not succeed. -/

namespace Modernizer

/-- The kinds of what can be passed. -/
class TokenKind.Solid (kind : TokenKind) : Prop where
  ne_unknown : kind ≠ .unknown
  ne_end : kind ≠ .endOfFile

namespace TokenKind.Solid

instance punctuator (p : Punctuator) : Solid (.punctuator p) := ⟨by simp, by simp⟩
instance keyword (k : Keyword) : Solid (.keyword k) := ⟨by simp, by simp⟩
instance number : Solid .number := ⟨by simp, by simp⟩
instance bigInt : Solid .bigInt := ⟨by simp, by simp⟩
instance string : Solid .string := ⟨by simp, by simp⟩
instance regex : Solid .regex := ⟨by simp, by simp⟩
instance wholeTemplate : Solid .wholeTemplate := ⟨by simp, by simp⟩
instance templateHead : Solid .templateHead := ⟨by simp, by simp⟩
instance templateMiddle : Solid .templateMiddle := ⟨by simp, by simp⟩
instance templateTail : Solid .templateTail := ⟨by simp, by simp⟩
instance identifier : Solid .identifier := ⟨by simp, by simp⟩

end TokenKind.Solid

def Scanner.Ahead (sc sc' : Scanner) : Prop :=
  sc.comments <+: sc'.comments ∧ ∀ e, sc.error = some e → sc'.error = some e

namespace Scanner.Ahead

variable {sc sc' sc'' : Scanner}

theorem refl (sc : Scanner) : Ahead sc sc := ⟨List.prefix_refl _, fun _ => id⟩

theorem trans (h : Ahead sc sc') (h' : Ahead sc' sc'') : Ahead sc sc'' :=
  ⟨h.1.trans h'.1, fun e he => h'.2 e (h.2 e he)⟩

theorem accept (sc : Scanner) (start : Nat) (l : Lexeme) : Ahead sc (sc.accept start l) :=
  ⟨List.prefix_refl _, fun e he => by simp [Scanner.accept, note, he]⟩

theorem scan (sc : Scanner) : Ahead sc sc.scan :=
  ⟨List.prefix_append _ _, fun e he => by simp [Scanner.scan, Scanner.accept, note, he]⟩

theorem rescanSlash (sc : Scanner) : Ahead sc sc.rescanSlash := by
  unfold Scanner.rescanSlash
  split
  · exact accept ..
  · exact refl sc

theorem rescanTemplate (sc : Scanner) : Ahead sc sc.rescanTemplate := by
  unfold Scanner.rescanTemplate
  split
  · exact accept ..
  · exact refl sc

theorem restore (h : Ahead sc sc') : sc'.restore sc.snapshot = sc := by
  have hcomments := List.prefix_iff_eq_take.1 h.1
  obtain ⟨start, raw, rest, kind, value, lineBreakBefore, comments, error⟩ := sc
  cases error with
  | none => simp [Scanner.restore, snapshot, ← hcomments]
  | some e => simp [Scanner.restore, snapshot, ← hcomments, h.2 e rfl]

end Scanner.Ahead

/-- A token is the current one in both, perhaps read in two ways. -/
def Scanner.Rereads (sc sc' : Scanner) : Prop :=
  sc' = sc ∨ sc.kind ≠ .unknown ∧ ∃ l, sc' = sc.accept sc.start l

theorem Scanner.rereads_rescanSlash (sc : Scanner) : sc.Rereads sc.rescanSlash := by
  unfold rescanSlash
  split
  · rename_i hkind
    exact .inr ⟨by rcases hkind with hkind | hkind <;> simp [hkind], _, rfl⟩
  · exact .inl rfl

theorem Scanner.rereads_rescanTemplate (sc : Scanner) : sc.Rereads sc.rescanTemplate := by
  unfold rescanTemplate
  split
  · rename_i hkind
    exact .inr ⟨by simp [hkind], _, rfl⟩
  · exact .inl rfl

namespace Parser

variable {α β : Type}

/-- The step only reads ahead. -/
class GoesAhead (f : StateM Scanner α) : Prop where
  ahead : ∀ sc : Scanner, sc.Ahead (f sc).2

namespace GoesAhead

variable {f : StateM Scanner α} {k : α → StateM Scanner β}

instance pure (a : α) : GoesAhead (Pure.pure a : StateM Scanner α) := ⟨fun sc => .refl sc⟩

instance get : GoesAhead (MonadState.get : StateM Scanner Scanner) := ⟨fun sc => .refl sc⟩

instance bind [hf : GoesAhead f] [hk : ∀ a, GoesAhead (k a)] : GoesAhead (f >>= k) :=
  ⟨fun sc => (hf.ahead sc).trans ((hk _).ahead _)⟩

instance ite (c : Prop) [Decidable c] {f f' : StateM Scanner α} [GoesAhead f] [GoesAhead f'] :
    GoesAhead (if c then f else f') := by
  split <;> infer_instance

instance rescanSlash : GoesAhead (modify Scanner.rescanSlash : StateM Scanner PUnit) :=
  ⟨fun sc => .rescanSlash sc⟩

instance rescanTemplate : GoesAhead (modify Scanner.rescanTemplate : StateM Scanner PUnit) :=
  ⟨fun sc => .rescanTemplate sc⟩

instance advance : GoesAhead advance := ⟨fun sc => .scan sc⟩

instance balance (closers : List TokenKind) (previous : TokenKind) :
    GoesAhead (balance closers previous) := by
  unfold Parser.balance
  refine @bind _ _ _ _ get fun sc => ?_
  repeat' split
  all_goals infer_instance

/-- The search goes ahead however long it is. -/
instance search (fuel : Nat) (closers : List TokenKind) (previous : TokenKind) :
    GoesAhead (isArrowGroup.go fuel closers previous) := by
  induction fuel generalizing closers previous with
  | zero => exact .pure _
  | succ fuel ih =>
    unfold isArrowGroup.go
    refine @bind _ _ _ _ (balance closers previous) fun found => ?_
    split <;> infer_instance

instance isArrowGroup : GoesAhead isArrowGroup := @bind _ _ _ _ get fun _ => search _ _ _

instance asyncArrowHead : GoesAhead asyncArrowHead := by
  unfold Parser.asyncArrowHead
  infer_instance

end GoesAhead

/-- Behind what was read the text is tidy. -/
structure State.Tidy (source : Text) (st : State) : Prop where
  previousStop : Text.TidyFrom 0 source st.previousStop
  start : Text.TidyFrom 0 source st.scanner.start
  comments : ∀ d ∈ st.scanner.comments, Text.TidyFrom 0 source d.stop
  nodes : ∀ n x, st.store.get? (some n) = some x → Text.TidyFrom 0 source x.stop

/-- The scanner has come to no fault that was passed, and no comment is attached. -/
structure State.Sound (source : Text) (st : State) : Prop where
  scanner : st.scanner.Sound source
  attached : st.store.attached = []
  tidy : st.scanner.kind ≠ .unknown → st.Tidy source

/-- No token has been passed in between. Nodes that were added end with the last token, or where the
next one begins. -/
structure State.Stays (st st' : State) : Prop where
  scanner : st'.scanner = st.scanner
  previousStop : st'.previousStop = st.previousStop
  attached : st'.store.attached = st.store.attached
  nodes : ∀ n x, st'.store.get? (some n) = some x →
    (∃ y, st.store.get? (some n) = some y ∧ y.stop = x.stop) ∨ x.stop = st.previousStop ∨
      x.stop = st.scanner.start

namespace State

variable {source : Text} {st st' st'' : State}

theorem Stays.of_store (hscanner : st'.scanner = st.scanner)
    (hprevious : st'.previousStop = st.previousStop) (hstore : st'.store = st.store) : Stays st st' :=
  ⟨hscanner, hprevious, hstore ▸ rfl, fun _ x hx => .inl ⟨x, hstore ▸ hx, rfl⟩⟩

theorem Stays.refl (st : State) : Stays st st := .of_store rfl rfl rfl

theorem Stays.trans (h : Stays st st') (h' : Stays st' st'') : Stays st st'' := by
  refine ⟨h'.scanner.trans h.scanner, h'.previousStop.trans h.previousStop,
    h'.attached.trans h.attached, fun n x hx => ?_⟩
  rcases h'.nodes n x hx with ⟨y, hy, hstop⟩ | hstop
  · rw [← hstop]
    exact h.nodes n y hy
  · rw [h.scanner, h.previousStop] at hstop
    exact .inr hstop

theorem Sound.stays (h : Sound source st) (hst : Stays st st') : Sound source st' := by
  refine ⟨hst.scanner ▸ h.scanner, hst.attached.trans h.attached, fun hkind => ?_⟩
  rw [hst.scanner] at hkind
  have htidy := h.tidy hkind
  refine ⟨hst.previousStop ▸ htidy.previousStop, hst.scanner ▸ htidy.start,
    hst.scanner ▸ htidy.comments, fun n x hx => ?_⟩
  rcases hst.nodes n x hx with ⟨y, hy, hstop⟩ | hstop | hstop
  · exact hstop ▸ htidy.nodes n y hy
  · exact hstop ▸ htidy.previousStop
  · exact hstop ▸ htidy.start

theorem Sound.rescan (h : Sound source st) {sc : Scanner} (hsound : sc.Sound source)
    (hsc : st.scanner.Rereads sc) : Sound source { st with scanner := sc } := by
  rcases hsc with rfl | ⟨hkind, l, rfl⟩
  · exact h
  · have htidy := h.tidy hkind
    exact ⟨hsound, h.attached, fun _ => ⟨htidy.previousStop, htidy.start, htidy.comments, htidy.nodes⟩⟩

theorem Sound.next (h : Sound source st) (hsolid : st.scanner.kind.Solid) :
    Sound source { st with previousStop := st.scanner.stop, scanner := st.scanner.scan } := by
  refine ⟨h.scanner.scan hsolid.ne_unknown hsolid.ne_end, h.attached, fun hkind => ?_⟩
  obtain ⟨tokens, hrun, -⟩ := h.scanner
  obtain ⟨hstop, hstart, hcomments⟩ := Scanner.tidy_scan hrun.inSource hkind
  have htidy := h.tidy hsolid.ne_unknown
  exact ⟨hstop, hstart, fun d hd => (hcomments d hd).elim (htidy.comments d) id, htidy.nodes⟩

end State

/-- The step leaves the scanner where it is. -/
class Looks (f : Parse α) : Prop where
  stays : ∀ {st a st'}, f st = .ok (a, st') → st.Stays st'

/-- The step looks for a token, and finds it only where there is one. -/
class Tells (f : Parse Bool) : Prop extends Looks f where
  solid : ∀ {st st'}, f st = .ok (true, st') → st.scanner.kind.Solid

/-- The step does not succeed. -/
class Fails (f : Parse α) : Prop where
  fails : ∀ {st a st'}, f st ≠ .ok (a, st')

/-- The step passes no fault. -/
class Keeps (f : Parse α) : Prop where
  keeps : ∀ {source st a st'}, State.Sound source st → f st = .ok (a, st') → State.Sound source st'

/-- The step passes no fault if it begins at a token. -/
class Starts (f : Parse α) : Prop where
  starts : ∀ {source st a st'}, State.Sound source st → st.scanner.kind.Solid →
    f st = .ok (a, st') → State.Sound source st'

variable {f : Parse α} {k : α → Parse β}

instance [hf : Fails f] : Looks f := ⟨fun hrun => absurd hrun hf.fails⟩

instance [hf : Looks f] : Keeps f where
  keeps h hrun := h.stays (hf.stays hrun)

instance (priority := low) [hf : Keeps f] : Starts f := ⟨fun h _ hrun => hf.keeps h hrun⟩

namespace Fails

instance fail (fault : ParseFault) (pos : Nat) : Fails (fail fault pos : Parse α) :=
  ⟨fun hrun => by cases hrun⟩

instance failAt (fault : ParseFault) : Fails (failAt fault : Parse α) :=
  ⟨fun hrun => establishes_failAt (P := fun _ => True) (Q := fun _ _ => False) _ _ _ trivial hrun⟩

instance failUnexpected : Fails (failUnexpected : Parse α) :=
  ⟨fun hrun =>
    establishes_failUnexpected (P := fun _ => True) (Q := fun _ _ => False) _ _ _ trivial hrun⟩

instance failExpected (what : String) : Fails (failExpected what : Parse α) := failAt _

instance bind [hf : Fails f] : Fails (f >>= k) where
  fails hrun := by
    obtain ⟨_, _, hfail, -⟩ := bind_eq_ok hrun
    exact hf.fails hfail

end Fails

namespace Looks

instance pure (a : α) : Looks (Pure.pure a : Parse α) := ⟨fun h => by cases h; exact .refl _⟩

instance get : Looks (MonadState.get : Parse State) := ⟨fun h => by cases h; exact .refl _⟩

instance bind [hf : Looks f] [hk : ∀ a, Looks (k a)] : Looks (f >>= k) where
  stays hrun := by
    obtain ⟨a, st₁, hf', hk'⟩ := bind_eq_ok hrun
    exact (hf.stays hf').trans ((hk a).stays hk')

instance ite (c : Prop) [Decidable c] {f f' : Parse α} [Looks f] [Looks f'] :
    Looks (if c then f else f') := by
  split <;> infer_instance

instance or {f f' : Parse Bool} [Looks f] [Looks f'] : Looks (f <||> f') := by
  unfold orM
  refine @bind _ _ _ _ inferInstance fun b => ?_
  split <;> infer_instance

instance map {γ : Type} (g : α → γ) [Looks f] : Looks (g <$> f) := by
  rw [map_eq_pure_bind]
  infer_instance

instance tokenPos : Looks tokenPos := bind
instance token : Looks token := bind
instance tokenValue : Looks tokenValue := bind
instance previousStop : Looks previousStop := bind
instance context : Looks context := bind
instance lineBreakBefore : Looks lineBreakBefore := bind
instance isToken (kind : TokenKind) : Looks (isToken kind) := bind
instance isWord (name : String) : Looks (isWord name) := by unfold Parser.isWord; infer_instance

instance canEndStatement : Looks canEndStatement := by
  unfold Parser.canEndStatement; infer_instance

instance lookAhead (f : StateM Scanner α) [hf : GoesAhead f] : Looks (lookAhead f) where
  stays {st _ _} hrun := by
    cases hrun
    exact .of_store (hf.ahead st.scanner).restore rfl rfl

end Looks

theorem stays_addSpan {form : Form} {pos stop : Nat} {st st' : State} {n : NodeId}
    (hrun : addSpan form pos stop st = .ok (n, st'))
    (hstop : stop = st.previousStop ∨ stop = st.scanner.start) : st.Stays st' := by
  cases hrun
  refine ⟨rfl, rfl, Store.attached_adoptChildren .., fun m x hx => ?_⟩
  exact (Store.exists_of_add hx).imp_right fun h : x.stop = stop => h ▸ hstop

namespace Looks

/-- A node up to the last token. -/
instance addBefore (form : Nat → Form) (pos : Nat) :
    Looks (Parser.previousStop >>= fun stop => addSpan (form stop) pos stop) where
  stays hrun := by
    obtain ⟨stop, st₁, hstop, hadd⟩ := bind_eq_ok hrun
    cases hstop
    exact stays_addSpan hadd (.inl rfl)

/-- A node up to the current token. -/
instance addUpTo (form : Nat → Form) (pos : Nat) :
    Looks (Parser.tokenPos >>= fun stop => addSpan (form stop) pos stop) where
  stays hrun := by
    obtain ⟨stop, st₁, hstop, hadd⟩ := bind_eq_ok hrun
    cases hstop
    exact stays_addSpan hadd (.inr rfl)

instance add (form : Form) (pos : Nat) : Looks (add form pos) := addBefore (fun _ => form) pos

end Looks

namespace Tells

instance isToken (kind : TokenKind) [hkind : kind.Solid] : Tells (isToken kind) where
  solid {st st'} hrun := by
    have hfound : (st.scanner.kind == kind) = true := congrArg (·.1) (Except.ok.inj hrun)
    rwa [beq_iff_eq.1 hfound]

instance isWord (name : String) : Tells (isWord name) where
  solid {st st'} hrun := by
    have hfound : (st.scanner.kind == .identifier &&
        String.ofList st.scanner.value == name) = true := congrArg (·.1) (Except.ok.inj hrun)
    rw [Bool.and_eq_true, beq_iff_eq] at hfound
    rw [hfound.1]
    infer_instance

/-- A first look decides, and a second one only says more. -/
instance both {f : Parse Bool} {g : Parse Bool} [hf : Tells f] [hg : Looks g] :
    Tells (f >>= fun found => if found then g else Pure.pure false) where
  stays hrun := by
    exact Looks.stays (f := f >>= fun found => if found then g else Pure.pure false) hrun
  solid hrun := by
    obtain ⟨found, st₁, hfound, hrest⟩ := bind_eq_ok hrun
    cases found with
    | true => exact hf.solid hfound
    | false => cases hrest

instance or {f f' : Parse Bool} [hf : Tells f] [hf' : Tells f'] : Tells (f <||> f') where
  solid {st _} hrun := by
    obtain ⟨found, st₁, hfound, hrest⟩ := bind_eq_ok hrun
    cases found with
    | true => exact hf.solid hfound
    | false =>
      have hsolid := hf'.solid hrest
      rwa [(hf.stays hfound).scanner] at hsolid

instance isAsyncFunction : Tells isAsyncFunction := by
  unfold Parser.isAsyncFunction; infer_instance

instance isLetDeclaration : Tells isLetDeclaration := by
  unfold Parser.isLetDeclaration; infer_instance

end Tells

namespace Starts

instance next : Starts next where
  starts h hsolid hrun := by
    cases hrun
    exact h.next hsolid

instance (priority := high) look [hf : Looks f] [hk : ∀ a, Starts (k a)] : Starts (f >>= k) where
  starts {_ _ _ _} h hsolid hrun := by
    obtain ⟨a, st₁, hf', hk'⟩ := bind_eq_ok hrun
    have hstays := hf.stays hf'
    exact (hk a).starts (h.stays hstays) (hstays.scanner ▸ hsolid) hk'

/-- A node up to the current token is added, and then the token is passed. -/
instance (priority := high) addUpTo (form : Nat → Form) (pos : Nat → Nat) {k : Nat → NodeId → Parse β}
    [hk : ∀ stop n, Starts (k stop n)] :
    Starts (Parser.tokenPos >>= fun stop => addSpan (form stop) (pos stop) stop >>= k stop) where
  starts h hsolid hrun := by
    obtain ⟨stop, st₁, hstop, hrest⟩ := bind_eq_ok hrun
    cases hstop
    obtain ⟨n, st₂, hadd, hk'⟩ := bind_eq_ok hrest
    have hstays := stays_addSpan hadd (.inr rfl)
    exact (hk _ n).starts (h.stays hstays) (hstays.scanner ▸ hsolid) hk'

instance bind [hf : Starts f] [hk : ∀ a, Keeps (k a)] : Starts (f >>= k) where
  starts h hsolid hrun := by
    obtain ⟨a, st₁, hf', hk'⟩ := bind_eq_ok hrun
    exact (hk a).keeps (hf.starts h hsolid hf') hk'

instance ite (c : Prop) [Decidable c] {f f' : Parse α} [Starts f] [Starts f'] :
    Starts (if c then f else f') := by
  split <;> infer_instance

end Starts

namespace Keeps

instance (priority := high) tells {f : Parse Bool} {k : Bool → Parse β} [hf : Tells f]
    [htrue : Starts (k true)] [hfalse : Keeps (k false)] : Keeps (f >>= k) where
  keeps {source _ _ _} h hrun := by
    obtain ⟨found, st₁, hf', hk'⟩ := bind_eq_ok hrun
    have hstays := hf.stays hf'
    cases found with
    | true => exact htrue.starts (h.stays hstays) (hstays.scanner ▸ hf.solid hf') hk'
    | false => exact hfalse.keeps (h.stays hstays) hk'

instance bind [hf : Keeps f] [hk : ∀ a, Keeps (k a)] : Keeps (f >>= k) where
  keeps h hrun := by
    obtain ⟨a, st₁, hf', hk'⟩ := bind_eq_ok hrun
    exact (hk a).keeps (hf.keeps h hf') hk'

instance ite (c : Prop) [Decidable c] {f f' : Parse α} [Keeps f] [Keeps f'] :
    Keeps (if c then f else f') := by
  split <;> infer_instance

instance (priority := high) iteTrue {f f' : Parse α} [hf : Keeps f] :
    Keeps (if true = true then f else f') := by
  rwa [if_pos rfl]

instance (priority := high) iteFalse {f f' : Parse α} [hf : Keeps f'] :
    Keeps (if false = true then f else f') := by
  rwa [if_neg (by decide)]

instance (priority := high) iteOr (a b : Bool) {f f' : Parse α}
    [ha : Keeps (if a = true then f else f')] [hb : Keeps (if b = true then f else f')] :
    Keeps (if (a || b) = true then f else f') := by
  cases a
  · exact hb
  · exact ha

instance (priority := high) iteAnd (b : Bool) {f f' : Parse α} [hf : Keeps f'] :
    Keeps (if (false && b) = true then f else f') := by
  rwa [if_neg (by simp)]

instance (priority := high) pureBind (a : α) [hk : Keeps (k a)] : Keeps (Pure.pure a >>= k) := by
  rwa [pure_bind]

instance map {γ : Type} (g : α → γ) [Keeps f] : Keeps (g <$> f) := by
  rw [map_eq_pure_bind]
  infer_instance

instance rescanSlash : Keeps rescanSlash where
  keeps h hrun := by
    cases hrun
    exact h.rescan h.scanner.rescanSlash (Scanner.rereads_rescanSlash _)

instance rescanTemplate : Keeps rescanTemplate where
  keeps h hrun := by
    cases hrun
    exact h.rescan h.scanner.rescanTemplate (Scanner.rereads_rescanTemplate _)

end Keeps

instance Starts.map {γ : Type} (g : α → γ) [Starts f] : Starts (g <$> f) := by
  rw [map_eq_pure_bind]
  infer_instance

instance (priority := high) Starts.iteTrue {f f' : Parse α} [hf : Starts f] :
    Starts (if true = true then f else f') := by
  rwa [if_pos rfl]

theorem Starts.seq [Starts f] (hk : ∀ a, Keeps (k a)) : Starts (f >>= k) := inferInstance

theorem Keeps.seq [Keeps f] (hk : ∀ a, Keeps (k a)) : Keeps (f >>= k) := inferInstance

theorem Keeps.branch {c : Prop} [Decidable c] {rest : Parse β} [Keeps f] (hk : ∀ a, Keeps (k a))
    (hrest : (∀ a, Keeps (k a)) → Keeps rest) : Keeps (if c then f >>= k else rest) := by
  split
  · exact .seq hk
  · exact hrest hk

theorem Keeps.guarded {γ : Type} {look : Parse Bool} {test : Parse γ} {p : γ → Bool}
    {yes no : Parse β} [Tells look] [Looks test] [Starts yes] (hno : Keeps no) :
    Keeps (look >>= fun found => test >>= fun c => if (found && p c) = true then yes else no) :=
  inferInstance

theorem keeps_token {k : TokenKind → Parse β} (h : ∀ kind, kind.Solid → Starts (k kind))
    (hunknown : Keeps (k .unknown)) (hend : Keeps (k .endOfFile)) : Keeps (token >>= k) where
  keeps {_ st _ _} hst hrun := by
    have hrest : k st.scanner.kind st = .ok _ := hrun
    by_cases hkind : st.scanner.kind = .unknown
    · exact hunknown.keeps hst (hkind ▸ hrest)
    by_cases hkind' : st.scanner.kind = .endOfFile
    · exact hend.keeps hst (hkind' ▸ hrest)
    have hsolid : st.scanner.kind.Solid := ⟨hkind, hkind'⟩
    exact (h _ hsolid).starts hst hsolid hrest

namespace Keeps

instance optional (kind : TokenKind) [kind.Solid] : Keeps (optional kind) := by
  unfold Parser.optional; infer_instance

instance expect (kind : TokenKind) [kind.Solid] : Keeps (expect kind) := by
  unfold Parser.expect; infer_instance

instance semicolon : Keeps semicolon := by unfold Parser.semicolon; infer_instance

end Keeps

theorem within_eq_ok {change : Context → Context} {st st' : State} {a : α}
    (hrun : within change f st = .ok (a, st')) :
    ∃ st₁, f { st with context := change st.context } = .ok (a, st₁) ∧
      st' = { st₁ with context := st.context } := by
  obtain ⟨saved, st₁, hcontext, hrun⟩ := bind_eq_ok hrun
  cases hcontext
  obtain ⟨_, st₁, hmodify, hrun⟩ := bind_eq_ok hrun
  cases hmodify
  obtain ⟨b, st₂, hf, hrun⟩ := bind_eq_ok hrun
  obtain ⟨_, st₃, hmodify, hrun⟩ := bind_eq_ok hrun
  cases hmodify
  cases hrun
  exact ⟨st₂, hf, rfl⟩

instance Keeps.within (change : Context → Context) [hf : Keeps f] : Keeps (within change f) where
  keeps {source st _ _} h hrun := by
    obtain ⟨st₁, hf', rfl⟩ := within_eq_ok hrun
    have hin : State.Sound source { st with context := change st.context } :=
      h.stays (.of_store rfl rfl rfl)
    exact (hf.keeps hin hf').stays (.of_store rfl rfl rfl)

instance Starts.within (change : Context → Context) [hf : Starts f] : Starts (within change f) where
  starts {source st _ _} h hsolid hrun := by
    obtain ⟨st₁, hf', rfl⟩ := within_eq_ok hrun
    have hin : State.Sound source { st with context := change st.context } :=
      h.stays (.of_store rfl rfl rfl)
    exact (hf.starts hin hsolid hf').stays (.of_store rfl rfl rfl)

instance Keeps.allowingIn [Keeps f] : Keeps (allowingIn f) := within _

instance Keeps.repeating (init : α) {step : α → Parse (ForInStep α)} [hstep : ∀ a, Keeps (step a)] :
    Keeps (repeating init step) := by
  have hgo : ∀ fuel a, Keeps (repeating.go step fuel a) := by
    intro fuel
    induction fuel with
    | zero =>
      intro a
      unfold repeating.go
      infer_instance
    | succ fuel ih =>
      intro a
      unfold repeating.go
      refine @bind _ _ _ _ (hstep a) fun r => ?_
      split <;> infer_instance
  exact @bind _ _ _ _ inferInstance fun st => hgo _ _

instance Keeps.manyWhile (test : Parse Bool) (item : Parse NodeId) [Looks test] [Keeps item] :
    Keeps (manyWhile test item) := by
  unfold Parser.manyWhile; infer_instance

instance Keeps.commaSeparated (close : TokenKind) (item : Parse NodeId) [Keeps item] :
    Keeps (commaSeparated close item) := by
  unfold Parser.commaSeparated; infer_instance

end Parser

end Modernizer
