import Modernizer.Proofs.Layout.MovedCode
import Modernizer.Proofs.Tree.Thinning

/-! Text that is printed again. Between two offsets all of the source is written in its order, with other
blanks at the starts of its lines at most (`Recopies`). In a program with one edited node this is so of
all nodes that are not above it (`recopies_go`), and of those that are, in front of the node and
behind it (`encloses_go`). -/

namespace Modernizer

open Store Text

theorem Writer.write_write (w : Writer) (t u : Text) : (w.write t).write u = w.write (t ++ u) := by
  simp [write, List.reverseAux_eq]

namespace Store

variable {source : Text} {s : Store} {n : NodeId} {ns ms : List NodeId} {x : Node} {pos stop : Nat}
  {ps qs : List Printer.Piece}

theorem pieces_append (h : ∀ m ∈ ns, ∃ y, s.get? (some m) = some y) (hx : s.get? (some n) = some x)
    (stop pos : Nat) : s.pieces stop pos (ns ++ n :: ms) =
      s.pieces x.pos pos ns ++ .child n :: s.pieces stop x.stop ms := by
  induction ns generalizing pos with
  | nil =>
    conv_lhs => rw [List.nil_append, pieces, hx]
    rfl
  | cons m ns ih =>
    obtain ⟨y, hy⟩ := h m List.mem_cons_self
    rw [List.cons_append, pieces, pieces, hy]
    dsimp only
    rw [ih fun m hm => h m (List.mem_cons_of_mem _ hm)]
    rfl

theorem ne_of_mem_pieces {m : NodeId} {pos' stop' : Nat} (h : (ns ++ n :: ms).Nodup)
    (hm : .child m ∈ s.pieces stop pos ns ++ s.pieces stop' pos' ms) : m ∈ ns ++ n :: ms ∧ m ≠ n := by
  obtain ⟨-, hafter, hbefore⟩ := List.nodup_append.1 h
  rcases List.mem_append.1 hm with hm | hm
  · have hm := mem_of_mem_pieces hm
    exact ⟨List.mem_append_left _ hm, hbefore m hm n List.mem_cons_self⟩
  · have hm := mem_of_mem_pieces hm
    refine ⟨List.mem_append_right _ (List.mem_cons_of_mem n hm), ?_⟩
    rintro rfl
    exact (List.nodup_cons.1 hafter).1 hm

theorem Laid.split (h : Laid source s pos (ps ++ .child n :: qs) stop)
    (hx : s.get? (some n) = some x) : Laid source s pos ps x.pos ∧ Laid source s x.stop qs stop := by
  induction ps generalizing pos with
  | nil =>
    cases h with
    | child hx' _ h =>
      cases hx.symm.trans hx'
      exact ⟨.nil _, h⟩
  | cons piece ps ih =>
    cases h with
    | gap hpos hmid hle h =>
      obtain ⟨hfront, hback⟩ := ih h
      exact ⟨.gap hpos hmid hle hfront, hback⟩
    | child hx' hle h =>
      obtain ⟨hfront, hback⟩ := ih h
      exact ⟨.child hx' hle hfront, hback⟩

end Store

namespace Printer

variable {P : Printer} {p : Slot → Print} {f g core : Print} {s₀ : Store} {n c : NodeId} {x : Node}
  {pos lo mid hi stop : Nat}

/-- All of the source between the two offsets is written, with other indentation at most. -/
structure Recopies (P : Printer) (f : Print) (pos stop : Nat) : Prop where
  opens : Boundary P.source pos
  closes : Boundary P.source stop
  le : pos ≤ stop
  text : ∀ w : Writer, ∃ t, (f.run w).2 = w.write t ∧ Reindented (slice P.source pos stop) t

namespace Recopies

theorem newline (h : P.Recopies f pos stop) (w : Writer) : (f.run w).2.newline = w.newline := by
  obtain ⟨t, ht, -⟩ := h.text w
  rw [ht]
  rfl

theorem nothing (h : Boundary P.source pos) : P.Recopies (pure ⟨⟩) pos pos where
  opens := h
  closes := h
  le := Nat.le_refl pos
  text _ := ⟨[], rfl, slice_eq_nil (Nat.le_refl pos) ▸ .nil⟩

theorem seq (h : P.Recopies f pos mid) (h' : P.Recopies g mid stop) :
    P.Recopies (do f; g) pos stop where
  opens := h.opens
  closes := h'.closes
  le := Nat.le_trans h.le h'.le
  text w := by
    obtain ⟨t, ht, hmoved⟩ := h.text w
    obtain ⟨u, hu, hmoved'⟩ := h'.text (w.write t)
    refine ⟨t ++ u, ?_, ?_⟩
    · rw [← Writer.write_write, ← hu, ← ht]
      rfl
    · rw [← slice_append_slice h.opens h.closes h'.closes h.le h'.le]
      exact hmoved.append hmoved'

theorem copy (hpos : Boundary P.source pos) (hstop : Boundary P.source stop) (hle : pos ≤ stop) :
    P.Recopies (P.copy pos stop) pos stop where
  opens := hpos
  closes := hstop
  le := hle
  text w := by
    unfold Printer.copy
    split
    · unfold slice
      cases hslice : slice? P.source pos stop with
      | none => exact ⟨[], rfl, .nil⟩
      | some t => exact w.writeCopied_eq_write t (P.sourceIndent pos) isBlank_of_mem_lineIndent
    · rename_i hlt
      exact ⟨[], rfl, slice_eq_nil (Nat.le_of_not_lt hlt) ▸ .nil⟩

theorem write {t : Text} (hpos : Boundary P.source pos) (hstop : Boundary P.source stop) (hle : pos ≤ stop)
    (h : slice P.source pos stop = t) : P.Recopies (write t) pos stop where
  opens := hpos
  closes := hstop
  le := hle
  text _ := ⟨t, rfl, h ▸ .refl _⟩

theorem pieces {ps : List Piece} (h : Laid P.source P.store pos ps stop) (hpos : Boundary P.source pos)
    (hp : ∀ c x, .child c ∈ ps → P.store.get? (some c) = some x →
      P.Recopies (p (some c)) x.pos x.stop) :
    P.Recopies (ps.forM (Piece.print P p)) pos stop := by
  induction h with
  | nil pos => exact .nothing hpos
  | gap _ hmid hle _ ih =>
    have hrest := ih hmid.boundary fun c x hc => hp c x (List.mem_cons_of_mem _ hc)
    exact (copy hpos hmid.boundary hle).seq hrest
  | child hx hle _ ih =>
    have hfirst := hp _ _ List.mem_cons_self hx
    have hrest := ih hfirst.closes fun c x hc => hp c x (List.mem_cons_of_mem _ hc)
    exact hfirst.seq hrest

end Recopies

def Encloses (P : Printer) (core f : Print) (pos lo hi stop : Nat) : Prop :=
  ∃ front back : Print, f = (do front; core; back) ∧ P.Recopies front pos lo ∧ P.Recopies back hi stop

namespace Encloses

theorem self (hlo : Boundary P.source lo) (hhi : Boundary P.source hi) :
    P.Encloses core core lo lo hi hi :=
  ⟨pure ⟨⟩, pure ⟨⟩, by simp, .nothing hlo, .nothing hhi⟩

theorem after (h : P.Recopies g pos mid) (h' : P.Encloses core f mid lo hi stop) :
    P.Encloses core (do g; f) pos lo hi stop := by
  obtain ⟨front, back, rfl, hfront, hback⟩ := h'
  exact ⟨do g; front, back, by simp, h.seq hfront, hback⟩

theorem before (h : P.Encloses core f pos lo hi mid) (h' : P.Recopies g mid stop) :
    P.Encloses core (do f; g) pos lo hi stop := by
  obtain ⟨front, back, rfl, hfront, hback⟩ := h
  exact ⟨front, do back; g, by simp, hfront, hback.seq h'⟩

theorem pieces {ps qs : List Piece} {y : Node} {m : NodeId}
    (h : Laid P.source P.store pos (ps ++ .child m :: qs) stop) (hpos : Boundary P.source pos)
    (hy : P.store.get? (some m) = some y) (hm : P.Encloses core (p (some m)) y.pos lo hi y.stop)
    (hothers : ∀ b x, .child b ∈ ps ++ qs → P.store.get? (some b) = some x →
      P.Recopies (p (some b)) x.pos x.stop) (hstop : Boundary P.source y.stop) :
    P.Encloses core ((ps ++ .child m :: qs).forM (Piece.print P p)) pos lo hi stop := by
  obtain ⟨hfront, hback⟩ := h.split hy
  have hbefore := Recopies.pieces hfront hpos fun b x hb => hothers b x (List.mem_append_left qs hb)
  have hafter := Recopies.pieces hback hstop fun b x hb => hothers b x (List.mem_append_right ps hb)
  rw [List.forM_eq_forM, List.forM_append, List.forM_cons]
  exact (hm.before hafter).after hbefore

end Encloses

theorem recopies_keyword (h : PlacedNode P.source s₀ x) : P.Recopies (keyword x.form) x.pos x.bodyPos := by
  have hbody := h.body.1.boundary
  have hpos := h.span.pos.boundary
  unfold Node.bodyPos at hbody ⊢
  cases hform : x.form with
  | declarationList list =>
    have hworded := h.worded
    rw [hform] at hworded hbody
    obtain ⟨hspelled, -, -, before, after, hbefore, hsource⟩ := hworded
    refine .write hpos hbody (Nat.le_add_right _ _) ?_
    change slice P.source x.pos (x.pos + list.spelledKind.keyword.utf8ByteSize) = _
    rw [DeclarationKind.utf8ByteSize_keyword, ← hspelled, hbefore, hsource, slice,
      ← List.append_assoc, slice?_append]
    rfl
  | _ => exact .nothing hpos

section Thinned

variable {kept : List NodeId} (hthin : Thinned s₀ c kept P.store) (hfoot : P.Footholds s₀)
  (hplaced : Placed P.source s₀) (hforest : s₀.Forest)

include hthin hplaced

theorem printWith_eq_bare (hx : P.store.get? (some n) = some x) : P.printWith p (some n) = P.bare p x := by
  have hnone : P.needsParentheses (some n) = false := needsParentheses_eq_false fun y hy =>
    ⟨hthin.parsed hplaced hy, fun z hz => by
      cases hz' : y.parent with
      | none =>
        rw [hz'] at hz
        cases hz
      | some m => exact hthin.parsed hplaced (hz' ▸ hz)⟩
  unfold printWith
  rw [hx]
  dsimp only
  rw [hnone]
  rfl

include hfoot hforest

/-- What is not above the edited node is printed as it was. -/
theorem recopies_go (fuel : Nat) (hn : ¬ s₀.Below n c) (hx : P.store.get? (some n) = some x)
    (hfuel : n < fuel) : P.Recopies (print.go P fuel (some n)) x.pos x.stop := by
  induction fuel generalizing n x with
  | zero => exact absurd hfuel (Nat.not_lt_zero n)
  | succ fuel ih =>
    have hne : n ≠ c := fun e => hn (e ▸ .refl)
    have hplace : PlacedNode P.source s₀ (unmark x) := hplaced n _ (hthin.get?_other hplaced hne hx)
    have hsplices := hfoot.splices n x hx (hthin.parsed hplaced hx) hplace.unedited
    unfold print.go
    rw [printWith_eq_bare hthin hplaced hx, hsplices.bare]
    split
    · exact .copy hplace.span.pos.boundary hplace.stop.boundary hplace.span.chain.le
    · refine (recopies_keyword hplace).seq (.pieces hsplices.laid hplace.body.1.boundary ?_)
      intro m y hm hy
      have hholds : s₀.Holds n m := by
        rw [Holds, Store.children, hthin.form_other hplaced hne hx]
        exact mem_of_mem_pieces hm
      have hless : m < n := hforest.lt n m hholds
      refine ih (fun hmc => hn ?_) hy (Nat.lt_of_lt_of_le hless (Nat.le_of_lt_succ hfuel))
      exact hholds.below.trans hmc

/-- What is above the edited node is printed as it was in front of this node and behind it. -/
theorem encloses_go {root a : NodeId} (t : s₀.TreeAt root) {z : Node}
    (hz : P.store.get? (some c) = some z) (fuel : Nat) (hroot : s₀.Below root a) (ha : s₀.Below a c)
    (hx : P.store.get? (some a) = some x) (hfuel : a < fuel) :
    ∃ k, c < k ∧
      P.Encloses (print.go P k (some c)) (print.go P fuel (some a)) x.pos z.pos z.stop x.stop := by
  induction fuel generalizing a x with
  | zero => exact absurd hfuel (Nat.not_lt_zero a)
  | succ fuel ih =>
    rcases Relation.ReflTransGen.cases_head ha with rfl | ⟨b, hab, hbc⟩
    · cases hx.symm.trans hz
      obtain ⟨hlo, hhi⟩ := hthin.boundary hplaced hz
      exact ⟨fuel + 1, hfuel, .self hlo hhi⟩
    have hac : a ≠ c := by
      rintro rfl
      exact t.not_below_holder hroot hab hbc
    have hplace : PlacedNode P.source s₀ (unmark x) := hplaced a _ (hthin.get?_other hplaced hac hx)
    have hsplices := hfoot.splices a x hx (hthin.parsed hplaced hx) hplace.unedited
    have hmarked : x.isPristine = false := by
      have hmarked := hthin.marked a ha
      rwa [isPristine, hx] at hmarked
    have hchildren : s₀.children (some a) = x.form.children := by
      rw [Store.children, hthin.form_other hplaced hac hx]
      rfl
    have hless : ∀ {m}, s₀.Holds a m → m < fuel := fun hm =>
      Nat.lt_of_lt_of_le (hforest.lt a _ hm) (Nat.le_of_lt_succ hfuel)
    -- the part is below one child, and the children on both sides of it are copied
    obtain ⟨ns, ms, hsplit⟩ := List.append_of_mem hab
    have hexists : ∀ m ∈ x.form.children, ∃ y, P.store.get? (some m) = some y := fun m hm =>
      (hsplices.chain.exists_of_mem hm).imp fun _ h => h.1
    have hlaid := hsplices.laid
    rw [← hchildren] at hexists hlaid
    obtain ⟨y, hy⟩ := hexists b hab
    obtain ⟨k, hk, hencloses⟩ := ih (hroot.tail hab) hbc hy (hless hab)
    have hpieces : P.store.pieces x.stop x.bodyPos (ns ++ b :: ms) = _ := pieces_append
      (fun m hm => hexists m (hsplit ▸ List.mem_append_left _ hm)) hy x.stop x.bodyPos
    rw [hsplit, hpieces] at hlaid
    refine ⟨k, hk, ?_⟩
    change P.Encloses _ (P.printWith (print.go P fuel) (some a)) _ _ _ _
    rw [printWith_eq_bare hthin hplaced hx, hsplices.bare, hmarked, if_neg Bool.false_ne_true, around,
      ← hchildren, hsplit, hpieces]
    have hkeyword : P.Recopies (keyword x.form) x.pos x.bodyPos := recopies_keyword (x := unmark x) hplace
    refine .after hkeyword (.pieces hlaid hkeyword.closes hy hencloses (fun m u hm hu => ?_)
      (hthin.boundary hplaced hy).2)
    obtain ⟨ham, hne⟩ := ne_of_mem_pieces (hsplit ▸ hforest.nodup a) hm
    rw [← hsplit] at ham
    refine recopies_go hthin hfoot hplaced hforest fuel (fun hmc => ?_) hu (hless ham)
    exact t.apart_siblings hroot ham hab hne c hmc hbc

end Thinned

end Printer

end Modernizer
