import Modernizer.Proofs.Layout.Footing
import Modernizer.Proofs.Layout.Respelling

/-! Text that no pass has a hand in. From the root down to the nodes that are new, or have other
statements, nodes are printed around their children, so a program is printed as copies of the source
with something else in the places of these nodes, from left to right (`Tiled`). A comment that
is in none of these places is copied, and only once. -/

namespace Modernizer

open Store Text

namespace Printer

/-- A range of the source that is copied, or that something is printed in the place of. -/
inductive Tile
  | copied (pos stop : Nat)
  | other (pos stop : Nat) (f : Print)

namespace Tile

def print (P : Printer) : Tile → Print
  | copied pos stop => P.copy pos stop
  | other _ _ f => f

def Covers (o : Nat) : Tile → Prop
  | copied pos stop | other pos stop _ => pos ≤ o ∧ o < stop

end Tile

/-- The tiles follow each other from one offset to the other. Copies are cut from the source, and
whatever is not copied has a reason. -/
inductive Tiled (source : Text) (reason : Nat → Nat → Print → Prop) : Nat → List Tile → Nat → Prop
  | nil (pos : Nat) : Tiled source reason pos [] pos
  | copied {pos mid stop : Nat} {ts : List Tile} (hpos : Cut source pos) (hmid : Cut source mid)
      (hle : pos ≤ mid) (h : Tiled source reason mid ts stop) :
      Tiled source reason pos (.copied pos mid :: ts) stop
  | other {pos mid stop : Nat} {ts : List Tile} {f : Print} (hf : reason pos mid f)
      (hle : pos ≤ mid) (h : Tiled source reason mid ts stop) :
      Tiled source reason pos (.other pos mid f :: ts) stop

namespace Tiled

variable {source : Text} {reason : Nat → Nat → Print → Prop} {lo mid hi o : Nat} {ts us : List Tile}

theorem append (h : Tiled source reason lo ts mid) (h' : Tiled source reason mid us hi) :
    Tiled source reason lo (ts ++ us) hi := by
  induction h with
  | nil => exact h'
  | copied hpos hmid hle _ ih => exact .copied hpos hmid hle (ih h')
  | other hf hle _ ih => exact .other hf hle (ih h')

theorem bounds (h : Tiled source reason lo ts hi) : lo ≤ hi ∧ ∀ t ∈ ts, t.Covers o → lo ≤ o ∧ o < hi := by
  induction h with
  | nil => exact ⟨Nat.le.refl, by simp⟩
  | copied _ _ hle _ ih | other _ hle _ ih =>
    refine ⟨hle.trans ih.1, List.forall_mem_cons.2 ⟨?_, ?_⟩⟩
    · intro ho
      exact ⟨ho.1, Nat.lt_of_lt_of_le ho.2 ih.1⟩
    · intro t ht ho
      exact ⟨hle.trans (ih.2 t ht ho).1, (ih.2 t ht ho).2⟩

theorem covered (h : Tiled source reason lo ts hi) (hlo : lo ≤ o) (hhi : o < hi) :
    ∃ before t after, ts = before ++ t :: after ∧ t.Covers o ∧ ∀ u ∈ before ++ after, ¬ u.Covers o := by
  induction h with
  | nil => exact absurd hhi (Nat.not_lt_of_le hlo)
  | @copied pos mid stop ts _ _ hle hrest ih | @other pos mid stop ts _ _ hle hrest ih =>
    by_cases ho : o < mid
    · refine ⟨[], _, ts, rfl, ⟨hlo, ho⟩, ?_⟩
      intro u hu hcovers
      exact absurd ho (Nat.not_lt_of_le (hrest.bounds.2 u hu hcovers).1)
    · obtain ⟨before, t, after, rfl, ht, hothers⟩ := ih (Nat.le_of_not_lt ho) hhi
      refine ⟨_ :: before, t, after, rfl, ht, List.forall_mem_cons.2 ⟨?_, hothers⟩⟩
      intro hfirst
      exact ho hfirst.2

theorem reason_of_mem {pos stop : Nat} {f : Print} (h : Tiled source reason lo ts hi)
    (ht : .other pos stop f ∈ ts) : reason pos stop f := by
  induction h with
  | nil => cases ht
  | copied _ _ _ _ ih =>
    rcases List.mem_cons.1 ht with e | ht
    · cases e
    · exact ih ht
  | other hf _ _ ih =>
    rcases List.mem_cons.1 ht with e | ht
    · cases e
      exact hf
    · exact ih ht

end Tiled

variable {P : Printer} {p : Slot → Print} {s₀ : Store} {root n : NodeId} {x : Node}

/-- What is printed instead of the source: the keyword of a declaration list, a new node in the
place it took, and a node with other statements. -/
inductive Rewrites (P : Printer) (root : NodeId) : Nat → Nat → Print → Prop
  | keyword {n : NodeId} {x : Node} {list : DeclarationList} (hn : P.store.Below root n)
      (hx : P.store.get? (some n) = some x) (hform : x.form = .declarationList list) :
      Rewrites P root x.pos (x.pos + list.spelledKind.keyword.utf8ByteSize)
        (word list.kind.keyword)
  | node {n : NodeId} {x : Node} (fuel : Nat) (hn : P.store.Below root n)
      (hx : P.store.get? (some n) = some x)
      (hedited : x.synthesized = true ∨ x.listEdited = true) :
      Rewrites P root x.pos x.stop (print.go P fuel (some n))

def Lays (P : Printer) (root : NodeId) (f : Print) (pos stop : Nat) : Prop :=
  ∃ ts : List Tile, f = ts.forM (Tile.print P) ∧ Tiled P.source (P.Rewrites root) pos ts stop

namespace Lays

variable {f g : Print} {pos mid stop : Nat}

theorem nothing (pos : Nat) : P.Lays root (pure ⟨⟩) pos pos := ⟨[], rfl, .nil pos⟩

theorem seq (h : P.Lays root f pos mid) (h' : P.Lays root g mid stop) :
    P.Lays root (do f; g) pos stop := by
  obtain ⟨ts, rfl, hts⟩ := h
  obtain ⟨us, rfl, hus⟩ := h'
  exact ⟨ts ++ us, by simp [List.forM_eq_forM], hts.append hus⟩

theorem copy (hpos : Cut P.source pos) (hstop : Cut P.source stop) (hle : pos ≤ stop) :
    P.Lays root (P.copy pos stop) pos stop :=
  ⟨[.copied pos stop], (bind_pure _).symm, .copied hpos hstop hle (.nil stop)⟩

theorem other (hf : P.Rewrites root pos stop f) (hle : pos ≤ stop) : P.Lays root f pos stop :=
  ⟨[.other pos stop f], (bind_pure _).symm, .other hf hle (.nil stop)⟩

theorem pieces {ps : List Piece} (h : Laid P.source P.store pos ps stop)
    (hp : ∀ c x, .child c ∈ ps → P.store.get? (some c) = some x → x.pos ≤ x.stop →
      P.Lays root (p (some c)) x.pos x.stop) :
    P.Lays root (ps.forM (Piece.print P p)) pos stop := by
  induction h with
  | nil pos => exact .nothing pos
  | gap hpos hmid hle _ ih =>
    have hrest := ih fun c x hc => hp c x (List.mem_cons_of_mem _ hc)
    exact (copy hpos hmid hle).seq hrest
  | child hx hle _ ih =>
    have hrest := ih fun c x hc => hp c x (List.mem_cons_of_mem _ hc)
    exact (hp _ _ List.mem_cons_self hx hle).seq hrest

end Lays

theorem lays_keyword (hn : P.store.Below root n) (hx : P.store.get? (some n) = some x) :
    P.Lays root (keyword x.form) x.pos x.bodyPos := by
  unfold Node.bodyPos
  cases hform : x.form with
  | declarationList list => exact .other (.keyword hn hx hform) (Nat.le_add_right _ _)
  | _ => exact .nothing x.pos

theorem lays_bare (h : P.Splices s₀ n x) (hplaced : Placed P.source s₀)
    (hn : P.store.Below root n) (hx : P.store.get? (some n) = some x)
    (hp : ∀ c ∈ x.form.children, ∀ y, P.store.get? (some c) = some y → y.pos ≤ y.stop →
      P.Lays root (p (some c)) y.pos y.stop) : P.Lays root (P.bare p x) x.pos x.stop := by
  rw [h.bare]
  split
  · obtain ⟨x₀, hx₀, hpos, hstop, -⟩ := h.standing
    have hplace := hplaced n x₀ hx₀
    rw [hpos, hstop]
    exact .copy hplace.span.1 hplace.stop hplace.span.2.le
  · apply (lays_keyword hn hx).seq
    apply Lays.pieces h.laid
    intro c y hc hy hle
    exact hp c (mem_of_mem_pieces hc) y hy hle

theorem Splices.lt_of_mem (h : P.Splices s₀ n x) (hforest : s₀.Forest) {c : NodeId} {y : Node}
    (hc : c ∈ x.form.children) (hy : P.store.get? (some c) = some y) (hsyn : y.synthesized = false) :
    c < n := by
  obtain ⟨x₀, hx₀, -, -, hchildren⟩ := h.standing
  obtain ⟨c₀, hc₀, _, y', -, hy', -, -, horigin⟩ := exists_rel_of_mem hchildren hc
  rw [hy] at hy'
  cases hy'
  rcases horigin with ⟨-, rfl⟩ | ⟨hnew, -⟩
  · have hholds : s₀.Holds n c := by rwa [Holds, children_of_get? hx₀]
    exact hforest.lt n c hholds
  · rw [hsyn] at hnew
    cases hnew

/-- What a parsed node holds was parsed before it or is printed in its own way, so the depth is
enough. -/
theorem lays_go (h : P.Footholds s₀) (hplaced : Placed P.source s₀) (hforest : s₀.Forest)
    (t : P.store.TreeAt root) (fuel : Nat) (hn : P.store.Below root n)
    (hx : P.store.get? (some n) = some x) (hfuel : x.synthesized = false → n < fuel)
    (hle : x.pos ≤ x.stop)
    (hparent : ∀ y, P.store.get? x.parent = some y → y.synthesized = false) :
    P.Lays root (print.go P fuel (some n)) x.pos x.stop := by
  induction fuel generalizing n x with
  | zero =>
    have hsyn : x.synthesized = true := by
      rw [← Bool.not_eq_false]
      exact fun hsyn => Nat.not_lt_zero n (hfuel hsyn)
    exact .other (.node 0 hn hx (.inl hsyn)) hle
  | succ fuel ih =>
    by_cases hedited : x.synthesized = true ∨ x.listEdited = true
    · exact .other (.node (fuel + 1) hn hx hedited) hle
    obtain ⟨hsyn, hlist⟩ := not_or.1 hedited
    rw [Bool.not_eq_true] at hsyn hlist
    have hsplices := h.splices n x hx hsyn hlist
    have hbare : P.Lays root (P.bare (print.go P fuel) x) x.pos x.stop := by
      apply lays_bare hsplices hplaced hn hx
      intro c hc y hy hyle
      have hholds : P.store.Holds n c := by rwa [Holds, children_of_get? hx]
      have hlinked : y.parent = some n := by
        have hlink := t.linked n c hn hholds
        rwa [parent, hy] at hlink
      apply ih (hn.tail hholds) hy _ hyle
      · rw [hlinked]
        intro z hz
        rw [hx] at hz
        cases hz
        exact hsyn
      · intro hysyn
        have hless := hsplices.lt_of_mem hforest hc hy hysyn
        exact Nat.lt_of_lt_of_le hless (Nat.le_of_lt_succ (hfuel hsyn))
    have hnone : P.needsParentheses (some n) = false := by
      apply needsParentheses_eq_false
      intro y hy
      rw [hx] at hy
      cases hy
      exact ⟨hsyn, hparent⟩
    unfold print.go printWith
    rw [hx]
    dsimp only
    rw [hnone]
    exact hbare

end Printer

variable {source : Text} {rules : List RuleName} {out : Outcome}

theorem Printer.lays_print {p : Program} (h : parse source = .ok p) (rules : List RuleName)
    (options : PrintOptions) :
    let P : Printer := ⟨(Rule.runOn rules source p).2.store, source, options⟩
    P.Lays p.root (P.print (some p.root)) 0 (utf8Length source) := by
  intro P
  obtain ⟨hplaced, x₀, hx₀, hpos₀, hstop₀⟩ := placed_of_parse h
  have hfooting := Rule.footing_runOn rules source hplaced
  have hfootholds : P.Footholds p.store := footholds_of_footing hfooting hplaced
  have ht : P.store.TreeAt p.root := (Rule.runOn_leads rules source (treeAt_of_parse h)).2
  obtain ⟨x, hx⟩ := exists_get?_of_lt
    (Nat.lt_of_lt_of_le (lt_size_of_get? hx₀) hfooting.size_le)
  obtain ⟨hpos, hstop⟩ := hfooting.span p.root x₀ x hx₀ hx
  have hparent : ∀ y, P.store.get? x.parent = some y → y.synthesized = false := by
    have hroot := ht.root_parent
    rw [parent, hx] at hroot
    rw [show x.parent = none from hroot]
    intro y hy
    cases hy
  rw [← hpos₀, ← hstop₀, ← hpos, ← hstop]
  apply lays_go hfootholds hplaced (grows_of_parse h).1.forest ht _ .refl hx
  · intro _
    exact Nat.lt_succ_of_lt (lt_size_of_get? hx)
  · rw [hpos, hstop, hpos₀, hstop₀]
    exact Nat.zero_le _
  · exact hparent

theorem tiled_modernize (h : modernize rules source = .ok out) :
    ∃ p, parse source = .ok p ∧
      let P : Printer := ⟨(Rule.runOn rules source p).2.store, source, .detect source⟩
      ∃ ts : List Printer.Tile, Printer.Tiled source (P.Rewrites p.root) 0 ts (utf8Length source) ∧
        out.code = ((ts.forM (Printer.Tile.print P)).run
          { Writer.empty with newline := P.options.newline }).2.text ∧
        ∀ o < utf8Length source,
          (∃ before t after, ts = before ++ t :: after ∧ t.Covers o ∧
            ∀ u ∈ before ++ after, ¬ u.Covers o) ∧
          ((∀ pos stop f, P.Rewrites p.root pos stop f → ¬ (pos ≤ o ∧ o < stop)) →
            ∀ t ∈ ts, t.Covers o → ∃ pos stop, t = .copied pos stop) := by
  obtain ⟨p, hp, hcode⟩ := code_of_modernize h
  obtain ⟨ts, hprint, htiled⟩ := Printer.lays_print hp rules (.detect source)
  refine ⟨p, hp, ts, htiled, ?_, ?_⟩
  · rw [hcode, ← hprint]
    rfl
  · intro o ho
    refine ⟨htiled.covered (Nat.zero_le o) ho, ?_⟩
    intro hkept t ht hcovers
    cases t with
    | copied pos stop => exact ⟨pos, stop, rfl⟩
    | other pos stop f => exact absurd hcovers (hkept pos stop f (htiled.reason_of_mem ht))

/-- A comment between an arrow and the block after it is in no place that is copied. -/
theorem modernize_comment_lost :
    let source := "f(x => /* c */ { return x; });".toList
    ∃ p out, parse source = .ok p ∧
      p.store.comments.map (fun c => Text.slice source c.pos c.stop) = ["/* c */".toList] ∧
      modernize [.arrowReturn] source = .ok out ∧ out.code = "f(x => x);".toList := by
  intro source
  have hcomment : ∀ p, parse source = .ok p →
      p.store.comments.map (fun c => Text.slice source c.pos c.stop) = ["/* c */".toList] :=
    of_parse (by decide +kernel)
  have hcode : (modernize [.arrowReturn] source).toOption.map (·.code) = some "f(x => x);".toList := by
    decide +kernel
  obtain ⟨out, hout, hlost⟩ := Option.map_eq_some_iff.1 hcode
  obtain ⟨p, hp⟩ := exists_parse_of_isOk source (by decide +kernel)
  exact ⟨p, out, hp, hcomment p hp, eq_ok_of_toOption hout, hlost⟩

end Modernizer
