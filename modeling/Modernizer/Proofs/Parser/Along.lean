import Modernizer.Proofs.Parser.Chain
import Modernizer.Proofs.Parser.Step

/-! Reading in the order of the source. On the way along a chain, what was read so far goes from an
offset up to the last token (`closed`) or to the next one. A step that reads something adds to the
chain (`Reads`), and a node takes the place of the chain it is put around (`Takes.node`). -/

namespace Modernizer.Parser

open Store

variable {α β : Type} {f : Parse α} {k : α → Parse β} {P P' : State → Prop}
  {Q Q' : α → State → Prop} {R : β → State → Prop} {source : Text} {s₀ : Store} {st st' : State}
  {lo p q : Nat} {nodes : α → List NodeId}
  {n : NodeId} {ns ms : List NodeId} {rs : List Range} {r : Range} {closed : Bool}

def State.reach (st : State) (closed : Bool) : Nat :=
  if closed then st.previousStop else st.scanner.start

/-- The parser reads this text. -/
structure Reading (source : Text) (st : State) : Prop where
  scanner : st.scanner.In source
  stop_le : st.previousStop ≤ st.scanner.start
  cut : Text.Cut source st.previousStop
  between : Trivia.Between source st.previousStop st.scanner.start
  placed : Placed source st.store

/-- On the way from an offset on, with nodes read and list ranges known. -/
structure Along (source : Text) (s₀ : Store) (lo : Nat) (ns : List NodeId) (rs : List Range)
    (closed : Bool) (st : State) : Prop where
  reading : Reading source st
  grown : Extends s₀ st.store
  span : Spans source st.store ⟨lo, ns, st.reach closed⟩
  ranges : ∀ r ∈ rs, Spans source st.store r

theorem Reading.reach_le (h : Reading source st) (closed : Bool) :
    st.reach closed ≤ st.scanner.start := by
  cases closed
  · exact Nat.le_refl _
  · exact h.stop_le

theorem Reading.le_reach (h : Reading source st) (closed : Bool) :
    st.previousStop ≤ st.reach closed := by
  cases closed
  · exact h.stop_le
  · exact Nat.le_refl _

theorem Reading.cut_reach (h : Reading source st) (closed : Bool) :
    Text.Cut source (st.reach closed) := by
  cases closed
  · exact h.scanner.cut_start
  · exact h.cut

theorem Reading.along (h : Reading source st) (closed : Bool) :
    Along source st.store (st.reach closed) [] [] closed st :=
  ⟨h, .refl _, ⟨h.cut_reach closed, Nat.le_refl _, h.cut_reach closed⟩, by simp⟩

namespace Along

theorem sub (h : Along source s₀ lo ns rs closed st) {rs' : List Range} (hrs : rs' ⊆ rs) :
    Along source s₀ lo ns rs' closed st := { h with ranges := fun r hr => h.ranges r (hrs hr) }

theorem opened (h : Along source s₀ lo ns rs closed st) : Along source s₀ lo ns rs false st :=
  { h with span := ⟨h.span.pos, h.span.chain.weaken (h.reading.reach_le closed),
      h.reading.cut_reach false⟩ }

theorem in_context (h : Along source s₀ lo ns rs closed st) (context : Context) :
    Along source s₀ lo ns rs closed { st with context } :=
  ⟨⟨h.reading.scanner, h.reading.stop_le, h.reading.cut, h.reading.between, h.reading.placed⟩, h.grown,
    h.span, h.ranges⟩

theorem keyword (h : Along source s₀ lo ns rs closed st) {k : Keyword}
    (hk : st.scanner.kind = .keyword k) : st.scanner.raw = k.text.toList :=
  h.reading.scanner.keyword k hk

theorem mark (h : Along source s₀ lo ns rs closed st) :
    Along source s₀ (st.reach closed) [] (⟨lo, ns, st.reach closed⟩ :: rs) closed st := by
  have hcut := h.reading.cut_reach closed
  refine ⟨h.reading, h.grown, ⟨hcut, Nat.le_refl _, hcut⟩, fun r hr => ?_⟩
  rcases List.mem_cons.1 hr with rfl | hr
  · exact h.span
  · exact h.ranges r hr

theorem join (h : Along source s₀ p ms rs closed st) (hlo : ⟨lo, ns, p⟩ ∈ rs) :
    Along source s₀ lo (ns ++ ms) rs closed st :=
  { h with span := ⟨(h.ranges _ hlo).pos, (h.ranges _ hlo).chain.append h.span.chain,
      h.span.stop⟩ }

theorem cons (h : Along source s₀ lo ns rs closed st) (hr : Spans source st.store r) :
    Along source s₀ lo ns (r :: rs) closed st := by
  refine { h with ranges := fun r' hr' => ?_ }
  rcases List.mem_cons.1 hr' with rfl | hr'
  · exact hr
  · exact h.ranges r' hr'

theorem glue (h : Along source s₀ lo ns rs closed st) {a b c : Nat} {ns₁ ns₂ : List NodeId}
    (h₁ : ⟨a, ns₁, b⟩ ∈ rs) (h₂ : ⟨b, ns₂, c⟩ ∈ rs) :
    Along source s₀ lo ns (⟨a, ns₁ ++ ns₂, c⟩ :: rs) closed st :=
  h.cons ⟨(h.ranges _ h₁).pos, (h.ranges _ h₁).chain.append (h.ranges _ h₂).chain,
    (h.ranges _ h₂).stop⟩

theorem after {closed' : Bool} {rs' : List Range} (h : Along source s₀ lo ns rs closed st)
    (h' : Along source st.store (st.reach closed) ms rs' closed' st') :
    Along source s₀ lo (ns ++ ms) (rs' ++ rs) closed' st' := by
  refine ⟨h'.reading, h.grown.trans h'.grown,
    ⟨h.span.pos, (h'.grown.chain h.span.chain).append h'.span.chain, h'.span.stop⟩, fun r hr => ?_⟩
  rcases List.mem_append.1 hr with hr | hr
  · exact h'.ranges r hr
  · exact h'.grown.spans (h.ranges r hr)

end Along

/-- From a state with `P` the step succeeds, if at all, with a result and a state as in `Q`. -/
def Takes (P : State → Prop) (f : Parse α) (Q : α → State → Prop) : Prop :=
  ∀ st a st', P st → f st = .ok (a, st') → Q a st'

def Yields (f : Parse α) (φ : α → Prop) : Prop := Takes (fun _ => True) f fun a _ => φ a

/-- The step reads at least one token and what `nodes` tells, and it knows the ranges of lists. -/
def ReadsWith (source : Text) (f : Parse α) (nodes : α → List NodeId)
    (ranges : α → List Range) : Prop :=
  ∀ s₀ lo, Takes (Along source s₀ lo [] [] false) f fun a => Along source s₀ lo (nodes a) (ranges a) true

/-- The step reads at least one token and what `nodes` tells. -/
def Reads (source : Text) (f : Parse α) (nodes : α → List NodeId) : Prop :=
  ReadsWith source f nodes fun _ => []

def Skims (source : Text) (f : Parse α) (nodes : α → List NodeId) : Prop :=
  ∀ s₀ lo, Takes (Along source s₀ lo [] [] false) f fun a => Along source s₀ lo (nodes a) [] false

/-- The step reads a node that begins with this word. -/
def ReadsFrom (source word : Text) (f : Parse NodeId) : Prop :=
  ∀ s₀ lo, Takes (fun st => Along source s₀ lo [] [] false st ∧ st.scanner.raw = word) f fun n =>
    Along source s₀ lo [n] [] true

/-- The step only moves on in the text, or stays where it is. -/
class Quiet (f : Parse α) : Prop extends Silent f where
  moves : ∀ {source st a st'}, Reading source st → f st = .ok (a, st') →
    Reading source st' ∧ ∀ closed, st.reach closed ≤ st'.reach closed

/-- The step passes the current token, and perhaps more. -/
class Passes (f : Parse α) : Prop extends Silent f where
  moves : ∀ {source st a st'}, Reading source st → f st = .ok (a, st') →
    Reading source st' ∧ st.scanner.start ≤ st'.previousStop

instance [hf : Passes f] : Quiet f where
  moves h hrun := by
    obtain ⟨h', hle⟩ := hf.moves h hrun
    exact ⟨h', fun closed => Nat.le_trans (h.reach_le closed) (Nat.le_trans hle (h'.le_reach closed))⟩

theorem Along.move (h : Along source s₀ lo ns rs closed st) (h' : Reading source st')
    (hstore : st'.store = st.store) {closed' : Bool} (hle : st.reach closed ≤ st'.reach closed') :
    Along source s₀ lo ns rs closed' st' :=
  ⟨h', hstore ▸ h.grown, hstore ▸ ⟨h.span.pos, h.span.chain.weaken hle, h'.cut_reach closed'⟩,
    hstore ▸ h.ranges⟩

namespace Takes

theorem pure {a : α} (h : ∀ st, P st → Q a st) : Takes P (Pure.pure a) Q := by
  intro st a' st' hP hrun
  cases hrun
  exact h _ hP

theorem bind (h : Takes P f Q) (hk : ∀ a, Takes (Q a) (k a) R) : Takes P (f >>= k) R := by
  intro st b st' hP hrun
  obtain ⟨a, st₁, hf, hk'⟩ := bind_eq_ok hrun
  exact hk a st₁ b st' (h st a st₁ hP hf) hk'

theorem mono (h : Takes P f Q) (hQ : ∀ a st, Q a st → Q' a st) : Takes P f Q' :=
  fun st a st' hP hrun => hQ a _ (h st a st' hP hrun)

theorem weaken (h : Takes P f Q) (hP : ∀ st, P' st → P st) : Takes P' f Q :=
  fun st a st' hP' hrun => h st a st' (hP _ hP') hrun

theorem given {φ : Prop} (h : φ → Takes P f Q) : Takes (fun st => P st ∧ φ) f Q :=
  fun st a st' hP hrun => h hP.2 st a st' hP.1 hrun

theorem quiet [hf : Quiet f] (hk : ∀ a, Takes (Along source s₀ lo ns rs closed) (k a) R) :
    Takes (Along source s₀ lo ns rs closed) (f >>= k) R :=
  bind (Q := fun _ => Along source s₀ lo ns rs closed) (fun st a st' h hrun => by
    obtain ⟨h', hle⟩ := hf.moves h.reading hrun
    exact h.move h' (hf.store st a st' hrun) (hle closed)) hk

theorem pass [hf : Passes f] (hk : ∀ a, Takes (Along source s₀ lo ns rs true) (k a) R) :
    Takes (Along source s₀ lo ns rs closed) (f >>= k) R :=
  bind (Q := fun _ => Along source s₀ lo ns rs true) (fun st a st' h hrun => by
    obtain ⟨h', hle⟩ := hf.moves h.reading hrun
    exact h.move h' (hf.store st a st' hrun) (Nat.le_trans (h.reading.reach_le closed) hle)) hk

theorem mark {k : Nat → Parse β}
    (hk : ∀ p, Takes (Along source s₀ p [] (⟨lo, ns, p⟩ :: rs) false) (k p) R) :
    Takes (Along source s₀ lo ns rs closed) (tokenPos >>= k) R := by
  intro st b st' h hrun
  exact hk _ st b st' h.opened.mark hrun

theorem markKnowing {φ : State → Prop} {k : Nat → Parse β}
    (hk : ∀ p, Takes (fun st => Along source s₀ p [] (⟨lo, ns, p⟩ :: rs) false st ∧ φ st) (k p) R) :
    Takes (fun st => Along source s₀ lo ns rs closed st ∧ φ st) (tokenPos >>= k) R := by
  rintro st b st' ⟨h, hφ⟩ hrun
  exact hk _ st b st' ⟨h.opened.mark, hφ⟩ hrun

theorem token {k : TokenKind → Parse β}
    (hk : ∀ kind, Takes (fun st => P st ∧ st.scanner.kind = kind) (k kind) R) :
    Takes P (Parser.token >>= k) R := fun st b st' hP hrun => hk _ st b st' ⟨hP, rfl⟩ hrun

theorem ask {f : Parse Bool} [hf : Quiet f] {φ : State → Prop} {yes no : Parse β}
    (hφ : ∀ st st', Reading source st → f st = .ok (true, st') → φ st')
    (hyes : Takes (fun st => Along source s₀ lo ns rs closed st ∧ φ st) yes R)
    (hno : Takes (Along source s₀ lo ns rs closed) no R) :
    Takes (Along source s₀ lo ns rs closed) (f >>= fun found => if found then yes else no) R := by
  intro st b st' h hrun
  obtain ⟨found, st₁, hfound, hrest⟩ := bind_eq_ok hrun
  obtain ⟨hread, hle⟩ := hf.moves h.reading hfound
  have h₁ := h.move hread (hf.store _ _ _ hfound) (hle closed)
  cases found with
  | true => exact hyes st₁ b st' ⟨h₁, hφ st st₁ h.reading hfound⟩ hrest
  | false => exact hno st₁ b st' h₁ hrest

theorem markStop {k : Nat → Parse β}
    (hk : ∀ p, Takes (Along source s₀ p [] (⟨lo, ns, p⟩ :: rs) true) (k p) R) :
    Takes (Along source s₀ lo ns rs true) (previousStop >>= k) R := by
  intro st b st' h hrun
  exact hk _ st b st' h.mark hrun

theorem join (lo : Nat) (ns : List NodeId)
    (hk : Takes (Along source s₀ lo (ns ++ ms) rs closed) f Q) (hlo : ⟨lo, ns, p⟩ ∈ rs) :
    Takes (Along source s₀ p ms rs closed) f Q := hk.weaken fun _ h => h.join hlo

theorem reading {ranges : α → List Range} (h : ReadsWith source f nodes ranges) :
    Takes (Along source s₀ lo ns rs closed) f fun a =>
      Along source s₀ lo (ns ++ nodes a) (ranges a ++ rs) true :=
  fun st a st' hst hrun => hst.opened.after (h _ _ st a st' (hst.reading.along false) hrun)

theorem readWith {ranges : α → List Range} (h : ReadsWith source f nodes ranges)
    (hk : ∀ a, Takes (Along source s₀ lo (ns ++ nodes a) (ranges a ++ rs) true) (k a) R) :
    Takes (Along source s₀ lo ns rs closed) (f >>= k) R := (reading h).bind hk

theorem read (h : Reads source f nodes)
    (hk : ∀ a, Takes (Along source s₀ lo (ns ++ nodes a) rs true) (k a) R) :
    Takes (Along source s₀ lo ns rs closed) (f >>= k) R := readWith h hk

theorem readFrom {word : Text} {f : Parse NodeId} {k : NodeId → Parse β}
    (h : ReadsFrom source word f)
    (hk : ∀ n, Takes (Along source s₀ lo (ns ++ [n]) rs true) (k n) R) :
    Takes (fun st => Along source s₀ lo ns rs closed st ∧ st.scanner.raw = word) (f >>= k) R :=
  bind (fun st a st' hst hrun =>
    hst.1.opened.after (h _ _ st a st' ⟨hst.1.reading.along false, hst.2⟩ hrun)) hk

theorem skim (h : Skims source f nodes)
    (hk : ∀ a, Takes (Along source s₀ lo (ns ++ nodes a) rs false) (k a) R) :
    Takes (Along source s₀ lo ns rs closed) (f >>= k) R :=
  bind (fun st a st' hst hrun => hst.opened.after (h _ _ st a st' (hst.reading.along false) hrun)) hk

theorem skimWith {φ : α → Prop} (h : Skims source f nodes) (hf : Yields f φ)
    (hk : ∀ a, φ a → Takes (Along source s₀ lo (ns ++ nodes a) rs false) (k a) R) :
    Takes (Along source s₀ lo ns rs closed) (f >>= k) R := by
  intro st b st' hst hrun
  obtain ⟨a, st₁, hf', hk'⟩ := bind_eq_ok hrun
  have hread := h _ _ st a st₁ (hst.reading.along false) hf'
  exact hk a (hf st a st₁ trivial hf') st₁ b st' (hst.opened.after hread) hk'

theorem record {k : Nat → Parse β}
    (hk : ∀ q, Takes (Along source s₀ lo ns (⟨lo, ns, q⟩ :: rs) false) (k q) R) :
    Takes (Along source s₀ lo ns rs closed) (tokenPos >>= k) R :=
  mark fun q => (hk q).weaken fun _ h => by simpa using h.join List.mem_cons_self

theorem recordStop {k : Nat → Parse β}
    (hk : ∀ q, Takes (Along source s₀ lo ns (⟨lo, ns, q⟩ :: rs) true) (k q) R) :
    Takes (Along source s₀ lo ns rs true) (previousStop >>= k) R :=
  markStop fun q => (hk q).weaken fun _ h => by simpa using h.join List.mem_cons_self

theorem list {items : Parse (List Slot)} {close : Parse Unit} [Passes close]
    {k : Nat → List Slot → Nat → Unit → Parse β} (h : Skims source items present)
    (hk : ∀ pos nodes stop, Takes (Along source s₀ lo (ns ++ present nodes)
      (⟨pos, present nodes, stop⟩ :: rs) true) (k pos nodes stop ()) R) :
    Takes (Along source s₀ lo ns rs true) (previousStop >>= fun pos => items >>= fun nodes =>
      tokenPos >>= fun stop => close >>= k pos nodes stop) R := by
  refine markStop fun pos => skim h fun nodes => record fun stop => pass fun _ => ?_
  refine (hk pos nodes stop).weaken fun st hst => ?_
  exact (hst.join (by simp)).sub (List.cons_subset_cons _ (List.subset_cons_self _ _))

theorem known (hr : r ∈ rs) (h : r.pos ≤ r.stop → Takes (Along source s₀ lo ns rs closed) f Q) :
    Takes (Along source s₀ lo ns rs closed) f Q :=
  fun st a st' hst hrun => h (hst.ranges r hr).2.le st a st' hst hrun

theorem addPlaced {form : Form} (hspan : ⟨p, form.children, q⟩ ∈ rs) (hranges : form.ranges ⊆ rs)
    (hworded : form.Worded source p q)
    (hbody : ∀ b ∈ form.body?, ⟨p, b.1, b.2.pos⟩ ∈ rs ∧ b.2.stop ≤ q) (hparsed : form.AsParsed) :
    Takes (fun st => Along source s₀ q [] rs closed st ∧ Stating source st.store p q form)
      (Parser.addSpan form p q) fun n => Along source s₀ p [n] rs closed := by
  rintro st n st' ⟨h, hstating⟩ hrun
  cases hrun
  have hext := extends_add st.store form p q
  have hkids := h.ranges _ hspan
  have hplaced : Placed source (st.store.add form p q).2 :=
    h.reading.placed.add hkids (fun r hr => h.ranges r (hranges hr)) hworded
      (fun b hb => ⟨(h.ranges _ (hbody b hb).1).2, (hbody b hb).2⟩) hparsed hstating
  obtain ⟨x, hx, e⟩ := get?_add_self st.store form p q
  simp only [fixed, Prod.mk.injEq] at e
  obtain ⟨-, rfl, rfl, -⟩ := e
  refine ⟨⟨h.reading.scanner, h.reading.stop_le, h.reading.cut, h.reading.between, hplaced⟩,
    h.grown.trans hext, ⟨hkids.pos, ⟨x, hx, Nat.le_refl _, hkids.chain.le, h.span.chain⟩, h.span.stop⟩,
    fun r hr => hext.spans (h.ranges r hr)⟩

theorem addBody {form : Form} (hspan : ⟨p, form.children, q⟩ ∈ rs) (hranges : form.ranges ⊆ rs)
    (hworded : form.Worded source p q)
    (hbody : ∀ b ∈ form.body?, ⟨p, b.1, b.2.pos⟩ ∈ rs ∧ b.2.stop ≤ q) (hparsed : form.AsParsed)
    (hform : ∀ e, form ≠ .expressionStatement (some e)) :
    Takes (Along source s₀ q [] rs closed) (Parser.addSpan form p q) fun n =>
      Along source s₀ p [n] rs closed :=
  (addPlaced hspan hranges hworded hbody hparsed).weaken fun _ hst => ⟨hst, fun e he => absurd he (hform e)⟩

theorem addSpan {form : Form} (hspan : ⟨p, form.children, q⟩ ∈ rs) (hranges : form.ranges ⊆ rs)
    (hsimple : form.Simple source p q) :
    Takes (Along source s₀ q [] rs closed) (Parser.addSpan form p q) fun n =>
      Along source s₀ p [n] rs closed :=
  addBody hspan hranges hsimple.1 (fun b hb => by
    rw [hsimple.2.1] at hb
    cases hb) (Form.asParsed_of_body? hsimple.2.1) hsimple.2.2

theorem wrapStating {form : Form} (hns : ns = form.children) (hranges : form.ranges ⊆ rs)
    (hworded : ∀ q, form.Worded source p q) (hbody : form.body? = none) :
    Takes (fun st => Along source s₀ p ns rs true st ∧ Stating source st.store p st.previousStop form)
      (add form p) fun n => Along source s₀ p [n] rs true := by
  subst hns
  rintro st n st' ⟨hst, hstating⟩ hrun
  have hinside : ∀ b ∈ form.body?, ⟨p, b.1, b.2.pos⟩ ∈ (⟨p, form.children, st.previousStop⟩ :: rs) ∧
      b.2.stop ≤ st.previousStop := fun b hb => by
    rw [hbody] at hb
    cases hb
  have hadd := addPlaced List.mem_cons_self (fun r hr => List.mem_cons_of_mem _ (hranges hr))
    (hworded _) hinside (Form.asParsed_of_body? hbody) st n st' ⟨hst.mark, hstating⟩ hrun
  exact hadd.sub (List.subset_cons_self _ _)

theorem wrap {form : Form} (hns : ns = form.children) (hranges : form.ranges ⊆ rs)
    (hsimple : ∀ q, form.Simple source p q) :
    Takes (Along source s₀ p ns rs true) (add form p) fun n => Along source s₀ p [n] rs true :=
  (wrapStating hns hranges (fun q => (hsimple q).1) (hsimple 0).2.1).weaken fun _ hst =>
    ⟨hst, fun e he => absurd he ((hsimple 0).2.2 e)⟩

theorem grow {form : Form} {k : NodeId → Parse β} (hns : ns = form.children)
    (hranges : form.ranges ⊆ rs) (hsimple : ∀ q, form.Simple source p q)
    (hk : ∀ n, Takes (Along source s₀ p [n] rs true) (k n) R) :
    Takes (Along source s₀ p ns rs true) (add form p >>= k) R := (wrap hns hranges hsimple).bind hk

theorem back (h : Takes P f fun a => Along source s₀ p (nodes a) rs closed) (hlo : ⟨lo, [], p⟩ ∈ rs) :
    Takes P f fun a => Along source s₀ lo (nodes a) [] closed :=
  h.mono fun _ _ hst => (hst.join hlo).sub (List.nil_subset _)

theorem last (h : Reads source f nodes) (hlo : ⟨lo, [], p⟩ ∈ rs) :
    Takes (Along source s₀ p [] rs closed) f fun a => Along source s₀ lo (nodes a) [] true :=
  (reading h).back hlo

theorem keep (hlo : ⟨lo, [], p⟩ ∈ rs) :
    Takes (Along source s₀ p [n] rs true) (Pure.pure n) fun n => Along source s₀ lo [n] [] true :=
  (pure (Q := fun n => Along source s₀ p [n] rs true) fun _ => id).back hlo

/-- A node around all that was read. -/
theorem node {form : Form} (hns : ns = form.children) (hranges : form.ranges ⊆ rs)
    (hlo : ⟨lo, [], p⟩ ∈ rs) (hsimple : ∀ q, form.Simple source p q) :
    Takes (Along source s₀ p ns rs true) (add form p) fun n => Along source s₀ lo [n] [] true :=
  (wrap hns hranges hsimple).back hlo

theorem nodeSpan {form : Form} {mid : Nat} (hns : ns ++ ms = form.children)
    (hranges : form.ranges ⊆ ⟨mid, ms, q⟩ :: rs) (hp : ⟨p, ns, mid⟩ ∈ rs) (hlo : ⟨lo, [], p⟩ ∈ rs)
    (hsimple : form.Simple source p q) :
    Takes (Along source s₀ q [] (⟨mid, ms, q⟩ :: rs) closed) (Parser.addSpan form p q) fun n =>
      Along source s₀ lo [n] [] closed := by
  have hspan : ⟨p, form.children, q⟩ ∈ (⟨p, ns ++ ms, q⟩ :: ⟨mid, ms, q⟩ :: rs : List Range) := by
    rw [hns]
    exact List.mem_cons_self
  have hadd : Takes (Along source s₀ q [] (⟨p, ns ++ ms, q⟩ :: ⟨mid, ms, q⟩ :: rs) closed)
      (Parser.addSpan form p q) fun n => Along source s₀ lo [n] [] closed :=
    (addSpan hspan (fun r hr => List.mem_cons_of_mem _ (hranges hr)) hsimple).back
      (List.mem_cons_of_mem _ (List.mem_cons_of_mem _ hlo))
  exact hadd.weaken fun st h => h.glue (List.mem_cons_of_mem _ hp) List.mem_cons_self

theorem nodeBody {form : Form} {mid : Nat} (hbody : form.body? = some (ns, ⟨mid, ms, q⟩))
    (hparsed : form.AsParsed) (hp : ⟨p, ns, mid⟩ ∈ rs) (hlo : ⟨lo, [], p⟩ ∈ rs) :
    Takes (Along source s₀ q [] (⟨mid, ms, q⟩ :: rs) closed) (Parser.addSpan form p q) fun n =>
      Along source s₀ lo [n] [] closed := by
  obtain ⟨hchildren, hranges, hworded, hform⟩ := Form.of_body? hbody
  have hadd : Takes (Along source s₀ q [] (⟨p, ns ++ ms, q⟩ :: ⟨mid, ms, q⟩ :: rs) closed)
      (Parser.addSpan form p q) fun n => Along source s₀ lo [n] [] closed := by
    refine (addBody ?_ ?_ (hworded ..) (fun b hb => ?_) hparsed ?_).back
      (List.mem_cons_of_mem _ (List.mem_cons_of_mem _ hlo))
    · rw [hchildren]
      exact List.mem_cons_self
    · simp [hranges]
    · rw [hbody] at hb
      cases hb
      exact ⟨List.mem_cons_of_mem _ (List.mem_cons_of_mem _ hp), Nat.le_refl _⟩
    · exact hform
  exact hadd.weaken fun st h => h.glue (List.mem_cons_of_mem _ hp) List.mem_cons_self

theorem container {items : Parse (List Slot)} {close : Parse Unit} [Passes close]
    {form : List Slot → Nat → Nat → Form} (h : Skims source items present)
    (hbody : ∀ nodes pos stop,
      (form nodes pos stop).body? = some (ns, ⟨pos, present nodes, stop⟩))
    (hparsed : Yields items fun nodes => ∀ pos stop, (form nodes pos stop).AsParsed)
    (hlo : ⟨lo, [], p⟩ ∈ rs) :
    Takes (Along source s₀ p ns rs true) (previousStop >>= fun pos => items >>= fun nodes =>
      tokenPos >>= fun stop => close >>= fun _ => add (form nodes pos stop) p) fun n =>
        Along source s₀ lo [n] [] true := by
  refine .markStop fun pos => .skimWith h hparsed fun nodes hnodes => ?_
  refine .mark fun stop => .pass fun _ => .markStop fun q => .known List.mem_cons_self fun hle => ?_
  obtain ⟨hchildren, hranges, hworded, hform⟩ := Form.of_body? (hbody nodes pos stop)
  refine .weaken (P := Along source s₀ q [] (⟨p, ns ++ present nodes, q⟩ ::
    ⟨p, ns ++ present nodes, stop⟩ :: ⟨stop, [], q⟩ :: ⟨pos, present nodes, stop⟩ ::
      ⟨p, ns, pos⟩ :: rs) true) ?_ fun st hst => ?_
  · refine (addBody ?_ ?_ (hworded ..) (fun b hb => ?_) (hnodes pos stop) hform).back (by simp [hlo])
    · rw [hchildren]
      exact List.mem_cons_self
    · simp [hranges]
    · rw [hbody] at hb
      cases hb
      exact ⟨by simp, hle⟩
  · have hlist := hst.glue (by simp : (⟨p, ns, pos⟩ : Range) ∈ _)
      (by simp : (⟨pos, present nodes, stop⟩ : Range) ∈ _)
    have hwhole := hlist.glue (by simp : (⟨p, ns ++ present nodes, stop⟩ : Range) ∈ _)
      (by simp : (⟨stop, [], q⟩ : Range) ∈ _)
    simpa using hwhole

theorem within {change : Context → Context} (h : Takes P f Q)
    (hP : ∀ st context, P st → P { st with context })
    (hQ : ∀ a st context, Q a st → Q a { st with context }) : Takes P (within change f) Q := by
  unfold Parser.within
  refine .bind (Q := fun _ => P) ?_ fun saved => ?_
  · intro st a st' hst hrun
    cases hrun
    exact hst
  refine .bind (Q := fun _ => P) ?_ fun _ => h.bind fun a => ?_
  · intro st a st' hst hrun
    cases hrun
    exact hP st _ hst
  · intro st b st' hst hrun
    cases hrun
    exact hQ a st saved hst

theorem repeating (init : α) {step : α → Parse (ForInStep α)} {I Q : α → State → Prop}
    (h : ∀ a, Takes (I a) (step a) fun r =>
      match r with
      | .done b => Q b
      | .yield b => I b) : Takes (I init) (repeating init step) Q := by
  have hgo : ∀ fuel a, Takes (I a) (repeating.go step fuel a) Q := by
    intro fuel
    induction fuel with
    | zero =>
      intro a st b st' _ hrun
      cases hrun
    | succ fuel ih =>
      refine fun a => (h a).bind fun r => ?_
      cases r with
      | done b => exact .pure fun _ => id
      | yield b => exact ih b
  intro st b st' hI hrun
  exact hgo _ init st b st' hI hrun

theorem iterating (init : α) {step : α → Parse (ForInStep α)} {I : α → State → Prop}
    (h : ∀ a, Takes (I a) (step a) fun r => I r.value) : Takes (I init) (Parser.repeating init step) I :=
  .repeating init fun a => (h a).mono fun r _ hst => by cases r <;> exact hst

theorem branch {c : Prop} [Decidable c] {rest : Parse β} (h : Takes P f Q)
    (hk : ∀ a, Takes (Q a) (k a) R) (hrest : (∀ a, Takes (Q a) (k a) R) → Takes P rest R) :
    Takes P (if c then f >>= k else rest) R := by
  split
  · exact h.bind hk
  · exact hrest hk

theorem quietBranch {c : Prop} [Decidable c] {rest : Parse β} [Quiet f]
    (hk : ∀ a, Takes (Along source s₀ lo ns rs closed) (k a) R)
    (hrest : (∀ a, Takes (Along source s₀ lo ns rs closed) (k a) R) →
      Takes (Along source s₀ lo ns rs closed) rest R) :
    Takes (Along source s₀ lo ns rs closed) (if c then f >>= k else rest) R := by
  split
  · exact .quiet hk
  · exact hrest hk

theorem check {c : Prop} [Decidable c] {check : Parse Unit} [Quiet check] {k : Unit → Parse β}
    (hk : Takes (Along source s₀ lo ns rs closed) (k ()) R) :
    Takes (Along source s₀ lo ns rs closed) (if c then k () else check >>= k) R := by
  split
  · exact hk
  · exact .quiet fun _ => hk

theorem checkNot {c : Prop} [Decidable c] {check : Parse Unit} [Quiet check] {k : Unit → Parse β}
    (hk : Takes (Along source s₀ lo ns rs closed) (k ()) R) :
    Takes (Along source s₀ lo ns rs closed) (if c then check >>= k else k ()) R := by
  split
  · exact .quiet fun _ => hk
  · exact hk

theorem vacant : Takes (Along source s₀ lo ns rs closed) (Pure.pure (none : Slot)) fun o =>
    Along source s₀ lo (ns ++ present [o]) rs closed :=
  .pure fun st hst => by simpa using hst

theorem option {c : Prop} [Decidable c] {f : Parse Slot} {k : Slot → Parse β}
    (h : Reads source f fun o => present [o])
    (hk : ∀ o, Takes (Along source s₀ lo (ns ++ present [o]) rs true) (k o) R) :
    Takes (Along source s₀ lo ns rs true) (if c then f >>= k else Pure.pure none >>= k) R :=
  .branch (.reading h) hk fun hk => .bind .vacant hk

end Takes

namespace ReadsWith

variable {ranges : α → List Range}

theorem within {change : Context → Context} (h : ReadsWith source f nodes ranges) :
    ReadsWith source (within change f) nodes ranges :=
  fun s₀ lo => (h s₀ lo).within (fun _ context hst => hst.in_context context)
    fun _ _ context hst => hst.in_context context

end ReadsWith

theorem Reads.slot {f : Parse NodeId} (h : Reads source f ([·])) :
    Reads source (some <$> f) fun o => present [o] := by
  intro s₀ lo
  rw [map_eq_pure_bind]
  exact (h s₀ lo).bind fun n => .pure fun _ => id

theorem Reads.skims (h : Reads source f nodes) : Skims source f nodes :=
  fun s₀ lo => (h s₀ lo).mono fun _ _ hst => hst.opened

theorem Reads.within {change : Context → Context}
    (h : Reads source f nodes) : Reads source (within change f) nodes := ReadsWith.within h

namespace ReadsFrom

variable {word : Text} {f : Parse NodeId}

theorem within {change : Context → Context} (h : ReadsFrom source word f) :
    ReadsFrom source word (within change f) :=
  fun s₀ lo => (h s₀ lo).within (fun _ context hst => ⟨hst.1.in_context context, hst.2⟩)
    fun _ _ context hst => hst.in_context context

theorem skims_slot (h : ReadsFrom source word f) (s₀ : Store) (lo : Nat) :
    Takes (fun st => Along source s₀ lo [] [] false st ∧ st.scanner.raw = word) (some <$> f)
      fun o => Along source s₀ lo (present [o]) [] false := by
  rw [map_eq_pure_bind]
  exact (h s₀ lo).bind fun n => .pure fun _ hst => hst.opened

end ReadsFrom

theorem Skims.repeating {step : List Slot → Parse (ForInStep (List Slot))}
    (h : ∀ s₀ lo items, Takes (Along source s₀ lo (present items) [] false) (step items) fun r =>
      Along source s₀ lo (present r.value) [] false) :
    Skims source (repeating [] step) present :=
  fun s₀ lo => .iterating (I := fun items => Along source s₀ lo (present items) [] false) [] (h s₀ lo)

theorem Takes.keep_true {c : Prop} : Takes (fun _ => c) f fun _ _ => c := fun _ _ _ h _ => h

theorem Yields.of_forall {φ : α → Prop} (h : ∀ a, φ a) : Yields f φ := fun _ a _ _ _ => h a

theorem Yields.repeating {init : α} {step : α → Parse (ForInStep α)} {φ : α → Prop} (hinit : φ init)
    (h : ∀ a, Takes (fun _ => φ a) (step a) fun r _ => φ r.value) :
    Yields (Parser.repeating init step) φ :=
  (Takes.iterating (I := fun a _ => φ a) init h).weaken fun _ _ => hinit

theorem Takes.item {items : List Slot} {r : ForInStep (List Slot)}
    (hr : r.value = items ++ [some n]) :
    Takes (Along source s₀ lo (present items ++ [n]) rs closed) (Pure.pure r) fun r =>
      Along source s₀ lo (present r.value) [] false := by
  refine .pure fun st hst => ?_
  rw [hr, present_append]
  exact hst.opened.sub (List.nil_subset _)

/-! Steps that build nothing. -/

namespace Quiet

theorem of_same [Silent f] (h : ∀ st a st', f st = .ok (a, st') →
    st'.scanner = st.scanner ∧ st'.previousStop = st.previousStop) : Quiet f where
  moves {_ st _ st'} hr hrun := by
    obtain ⟨hs, hp⟩ := h _ _ _ hrun
    have hstore := Silent.store _ _ _ hrun
    refine ⟨⟨hs ▸ hr.scanner, ?_, hp ▸ hr.cut, ?_, hstore ▸ hr.placed⟩, fun closed => ?_⟩
    · rw [hs, hp]
      exact hr.stop_le
    · rw [hs, hp]
      exact hr.between
    · have hsame : st'.reach closed = st.reach closed := by simp only [State.reach, hs, hp]
      exact Nat.le_of_eq hsame.symm

instance pure (a : α) : Quiet (Pure.pure a : Parse α) :=
  .of_same fun st a st' h => by cases h; exact ⟨rfl, rfl⟩

instance get : Quiet (MonadState.get : Parse State) :=
  .of_same fun st a st' h => by cases h; exact ⟨rfl, rfl⟩

instance fail (fault : ParseFault) (pos : Nat) : Quiet (fail fault pos : Parse α) :=
  .of_same fun st a st' h => by cases h

instance bind [hf : Quiet f] [hk : ∀ a, Quiet (k a)] : Quiet (f >>= k) where
  toSilent := @Silent.bind _ _ _ _ hf.toSilent fun a => (hk a).toSilent
  moves hr hrun := by
    obtain ⟨a, st₁, hf', hk'⟩ := bind_eq_ok hrun
    obtain ⟨h₁, hle₁⟩ := hf.moves hr hf'
    obtain ⟨h₂, hle₂⟩ := (hk a).moves h₁ hk'
    exact ⟨h₂, fun closed => Nat.le_trans (hle₁ closed) (hle₂ closed)⟩

instance ite (c : Prop) [Decidable c] {f f' : Parse α} [Quiet f] [Quiet f'] :
    Quiet (if c then f else f') := by
  split <;> infer_instance

instance or [ToBool α] {f' : Parse α} [Quiet f] [Quiet f'] : Quiet (f <||> f') := by
  unfold orM
  refine @bind _ _ _ _ inferInstance fun b => ?_
  split <;> infer_instance

instance tokenPos : Quiet tokenPos := bind
instance token : Quiet token := bind
instance tokenValue : Quiet tokenValue := bind
instance context : Quiet context := bind
instance lineBreakBefore : Quiet lineBreakBefore := bind
instance isToken (kind : TokenKind) : Quiet (isToken kind) := bind
instance isWord (name : String) : Quiet (isWord name) := by unfold Parser.isWord; infer_instance

end Quiet

instance passes_next : Passes next where
  moves hr hrun := by
    cases hrun
    obtain ⟨hscan, hle⟩ := hr.scanner.scan
    refine ⟨⟨hscan, hle, hr.scanner.cut_stop, hr.scanner.between_scan, hr.placed⟩, ?_⟩
    exact Nat.le_add_right _ _

theorem Takes.markWord {word : Text} {k : Nat → Parse β}
    (hk : ∀ before after, source = before ++ (word ++ after) →
      Takes (Along source s₀ (Text.utf8Length before + Text.utf8Length word) []
        (⟨Text.utf8Length before, [], Text.utf8Length before + Text.utf8Length word⟩ ::
          ⟨lo, ns, Text.utf8Length before⟩ :: rs) true) (k (Text.utf8Length before)) R) :
    Takes (fun st => Along source s₀ lo ns rs closed st ∧ st.scanner.raw = word) (do
      let pos ← tokenPos
      next
      k pos) R := by
  rintro st b st' ⟨h, rfl⟩ hrun
  obtain ⟨before, hsource, hstart⟩ := h.reading.scanner.text
  obtain ⟨hread, hle⟩ := Passes.moves (f := next) h.reading rfl
  have hopen : Along source s₀ st.scanner.start [] (⟨lo, ns, st.scanner.start⟩ :: rs) true _ :=
    h.opened.mark.move hread rfl hle
  have hnext := hopen.mark
  have hrest : k st.scanner.start
      { st with previousStop := st.scanner.stop, scanner := st.scanner.scan } = .ok (b, st') := hrun
  simp only [State.reach, Scanner.stop, hstart, if_true] at hnext hrest
  exact hk before _ hsource _ b st' hnext hrest

namespace Quiet

theorem at_token (hr : Reading source st) {sc : Scanner} (hin : sc.In source)
    (hstart : sc.start = st.scanner.start) : Reading source { st with scanner := sc } ∧
      ∀ closed, st.reach closed ≤ State.reach { st with scanner := sc } closed := by
  have hbetween : Trivia.Between source st.previousStop sc.start := hstart ▸ hr.between
  refine ⟨⟨hin, Nat.le_trans hr.stop_le (Nat.le_of_eq hstart.symm), hr.cut, hbetween, hr.placed⟩,
    fun closed => ?_⟩
  cases closed
  · exact Nat.le_of_eq hstart.symm
  · exact Nat.le_refl _

instance rescanSlash : Quiet rescanSlash where
  moves hr hrun := by
    cases hrun
    exact at_token hr hr.scanner.rescanSlash.1 hr.scanner.rescanSlash.2

instance rescanTemplate : Quiet rescanTemplate where
  moves hr hrun := by
    cases hrun
    exact at_token hr hr.scanner.rescanTemplate.1 hr.scanner.rescanTemplate.2

instance lookAhead (f : StateM Scanner α) : Quiet (lookAhead f) where
  moves hr hrun := by
    cases hrun
    exact at_token hr (hr.scanner.restore _) rfl

instance failAt (fault : ParseFault) : Quiet (failAt fault : Parse α) := by
  unfold Parser.failAt
  refine @bind _ _ _ _ get fun st => ?_
  split <;> infer_instance

instance failUnexpected : Quiet (failUnexpected : Parse α) := by
  unfold Parser.failUnexpected; infer_instance

instance failExpected (what : String) : Quiet (failExpected what : Parse α) := failAt _

instance optional (kind : TokenKind) : Quiet (optional kind) := by
  unfold Parser.optional; infer_instance

instance canEndStatement : Quiet canEndStatement := by
  unfold Parser.canEndStatement; infer_instance

instance semicolon : Quiet semicolon := by unfold Parser.semicolon; infer_instance

end Quiet

/-! Steps that do not succeed. -/

theorem takes_fail {fault : ParseFault} {pos : Nat} : Takes P (fail fault pos : Parse α) Q :=
  fun st a st' _ hrun => by cases hrun

theorem takes_failAt {fault : ParseFault} : Takes P (failAt fault : Parse α) Q :=
  fun st a st' _ hrun => (establishes_failAt (P := fun _ => True) (Q := fun _ _ => False)
    st a st' trivial hrun).elim

theorem takes_failUnexpected : Takes P (failUnexpected : Parse α) Q :=
  fun st a st' _ hrun => (establishes_failUnexpected (P := fun _ => True) (Q := fun _ _ => False)
    st a st' trivial hrun).elim

/-- An expected token that is there has been passed. -/
instance passes_expect (kind : TokenKind) : Passes (expect kind) where
  moves hr hrun := by
    obtain ⟨b, st₁, hoptional, hrun⟩ := bind_eq_ok hrun
    obtain ⟨found, st₂, hfound, hoptional⟩ := bind_eq_ok hoptional
    obtain ⟨hr₂, hle⟩ := Quiet.moves hr hfound
    cases found with
    | true =>
      obtain ⟨_, st₃, hnext, hpure⟩ := bind_eq_ok hoptional
      cases hpure
      cases hrun
      obtain ⟨hr₃, hpast⟩ := Passes.moves hr₂ hnext
      exact ⟨hr₃, Nat.le_trans (hle false) hpast⟩
    | false =>
      cases hoptional
      exact (takes_failAt (P := fun _ => True) (Q := fun _ _ => False) _ _ _ trivial hrun).elim

end Modernizer.Parser
