import Modernizer.Proofs.Layout.Redeclaration
import Modernizer.Proofs.Tree.Footing

/-! Printing around children. What a pass leaves of a parsed node has its children in the places of
those that were parsed, so the node is printed as the gaps of the source between these places, with
the children printed in them (`Footholds`). -/

namespace Modernizer

open Store Text

variable {source : Text}

theorem upkeep_footing (s₀ : Store) : Upkeep (fun _ => True) fun L s => Footing s₀ L s where
  plain _ := trivial
  drop hK h := h.drop hK
  synthesize _ h := h.synthesize _
  apart _ h := (h.synthesize _).drop (List.sublist_cons_self ..).subperm
  setAttached {_ _ n} a _ h := h.setAttached n a
  markModified n h := h.markModified n
  redeclare {_ _ n _ kind} _ hform h := (h.redeclare kind hform).markModified (some n)
  replace? h hs := h.replace? hs
  applyReplacement hr h hs := h.applyReplacement hr hs

theorem Rule.footing_runOn (rules : List RuleName) (source : Text) {p : Program}
    (h : Placed source p.store) : Footing p.store [] (runOn rules source p).2.store :=
  keeps_passes (upkeep_footing p.store) rules (fun _ _ _ _ _ => .of_any ..) source _ p.root _
    (.refl h)

/-- Where the text of a node begins that is not its keyword. -/
def Node.bodyPos (x : Node) : Nat :=
  match x.form.spelling? with
  | some kind => x.pos + kind.keyword.utf8ByteSize
  | none => x.pos

/-- What a node is printed as around its children: a gap of the source, or a child. -/
inductive Printer.Piece
  | gap (pos stop : Nat)
  | child (n : NodeId)
  deriving DecidableEq

namespace Store

variable {s₀ s : Store} {n : NodeId} {ns ms : List NodeId} {lo hi pos stop : Nat}

/-- Some nodes, with the gaps before them and after the last one. -/
def pieces (s : Store) (stop : Nat) : Nat → List NodeId → List Printer.Piece
  | pos, [] => [.gap pos stop]
  | pos, n :: ns =>
    match s.get? (some n) with
    | none => s.pieces stop pos ns
    | some x => .gap pos x.pos :: .child n :: s.pieces stop x.stop ns

/-- Each piece begins where the one before it ends, and the gaps are pieces of the source. -/
inductive Laid (source : Text) (s : Store) : Nat → List Printer.Piece → Nat → Prop
  | nil (pos : Nat) : Laid source s pos [] pos
  | gap {pos mid stop : Nat} {ps : List Printer.Piece} (hpos : Cut source pos)
      (hmid : Cut source mid) (hle : pos ≤ mid) (h : Laid source s mid ps stop) :
      Laid source s pos (.gap pos mid :: ps) stop
  | child {n : NodeId} {x : Node} {stop : Nat} {ps : List Printer.Piece}
      (hx : s.get? (some n) = some x) (hle : x.pos ≤ x.stop) (h : Laid source s x.stop ps stop) :
      Laid source s x.pos (.child n :: ps) stop

theorem laid_pieces (h : s.Chain pos ns stop) (hpos : Cut source pos) (hstop : Cut source stop)
    (hcuts : ∀ n ∈ ns, ∀ x, s.get? (some n) = some x → Cut source x.pos ∧ Cut source x.stop) :
    Laid source s pos (s.pieces stop pos ns) stop := by
  induction ns generalizing pos with
  | nil => exact .gap hpos hstop h (.nil stop)
  | cons n ns ih =>
    obtain ⟨x, hx, hlo, hle, hrest⟩ := h
    obtain ⟨hxpos, hxstop⟩ := hcuts n List.mem_cons_self x hx
    have hlaid := ih hrest hxstop fun m hm => hcuts m (List.mem_cons_of_mem n hm)
    unfold pieces
    rw [hx]
    exact .gap hpos hxpos hlo (.child hx hle hlaid)

theorem mem_of_mem_pieces (h : .child n ∈ s.pieces stop pos ns) : n ∈ ns := by
  induction ns generalizing pos with
  | nil => simp [pieces] at h
  | cons m ns ih =>
    unfold pieces at h
    cases hx : s.get? (some m) with
    | none =>
      rw [hx] at h
      exact List.mem_cons_of_mem m (ih h)
    | some x =>
      rw [hx] at h
      simp only [List.mem_cons, reduceCtorEq, false_or, Printer.Piece.child.injEq] at h
      rcases h with rfl | h
      · exact List.mem_cons_self
      · exact List.mem_cons_of_mem m (ih h)

theorem forall₂_present {R : NodeId → NodeId → Prop} {as bs : List Slot}
    (h : List.Forall₂ (Option.Rel R) as bs) : List.Forall₂ R (present as) (present bs) := by
  induction h with
  | nil => exact .nil
  | cons hab _ ih =>
    cases hab with
    | none => exact ih
    | some hab => exact .cons hab ih

theorem Chain.of_stands (h : s₀.Chain lo ns hi) (hns : List.Forall₂ (Stands s₀ s) ns ms) :
    s.Chain lo ms hi := by
  induction hns generalizing lo with
  | nil => exact h
  | cons hstands _ ih =>
    obtain ⟨x₀, x, hx₀, hx, hpos, hstop, -⟩ := hstands
    obtain ⟨y, hy, hlo, hle, hrest⟩ := h
    rw [hx₀] at hy
    cases hy
    rw [← hpos] at hlo hle
    rw [← hstop] at hle hrest
    exact ⟨x, hx, hlo, hle, ih hrest⟩

theorem PlacedNode.body {x : Node} (h : PlacedNode source s x) :
    Cut source x.bodyPos ∧ s.Chain x.bodyPos x.form.children x.stop := by
  have hspan := h.span
  unfold Node.bodyPos
  cases hform : x.form with
  | declarationList list =>
    have hrange := (h.ranges list.declarations.range
      (by rw [hform]; exact List.mem_cons_self)).2
    have hworded := h.worded
    rw [hform] at hworded
    obtain ⟨hspelled, hle, hlast, before, after, hpos, hsource⟩ := hworded
    change Cut source (x.pos + list.spelledKind.keyword.utf8ByteSize) ∧
      s.Chain (x.pos + list.spelledKind.keyword.utf8ByteSize) _ _
    rw [DeclarationKind.utf8ByteSize_keyword, ← hspelled]
    refine ⟨?_, (hrange.weaken hlast).lower hle⟩
    rw [hpos, hsource]
    exact list.kind.cut_after_keyword before after
  | _ =>
    rw [hform] at hspan
    exact ⟨hspan.pos, hspan.chain⟩

end Store

namespace Printer

variable {P : Printer} {p : Slot → Print} {s₀ : Store} {n : NodeId} {x : Node} {pos stop : Nat}

def Piece.print (P : Printer) (p : Slot → Print) : Piece → Print
  | gap pos stop => P.copy pos stop
  | child n => p (some n)

/-- The keyword of a node that may have another one than in the source. -/
def keyword : Form → Print
  | .declarationList list => word list.kind.keyword
  | _ => return

/-- Prints a node as the source around its children. -/
def around (P : Printer) (p : Slot → Print) (x : Node) : Print := do
  keyword x.form
  (P.store.pieces x.stop x.bodyPos x.form.children).forM (Piece.print P p)

theorem splice_eq_pieces (P : Printer) (p : Slot → Print) (stop pos : Nat) (ns : List NodeId) :
    P.splice p stop pos ns = (P.store.pieces stop pos ns).forM (Piece.print P p) := by
  induction ns generalizing pos with
  | nil => exact (bind_pure _).symm
  | cons n ns ih =>
    unfold splice Store.pieces
    cases hx : P.store.get? (some n) with
    | none => exact ih pos
    | some x =>
      simp only [ih, List.forM_eq_forM, List.forM_cons]
      rfl

theorem spliced_eq_around (h : P.tiles x.stop x.pos x.form.children = true) :
    P.spliced p x = P.around p x := by
  unfold spliced around Node.bodyPos
  rw [if_pos h, ← splice_eq_pieces]
  cases x.form <;> rfl

/-- The node, which is a parsed one, is printed around its children. Each of them has the place of
one that was parsed there. -/
structure Splices (P : Printer) (s₀ : Store) (n : NodeId) (x : Node) : Prop where
  standing : ∃ x₀, s₀.get? (some n) = some x₀ ∧ x.pos = x₀.pos ∧ x.stop = x₀.stop ∧
    List.Forall₂ (s₀.Stands P.store) x₀.form.children x.form.children
  chain : P.store.Chain x.pos x.form.children x.stop
  tiles : P.tiles x.stop x.pos x.form.children = true
  laid : Laid P.source P.store x.bodyPos (P.store.pieces x.stop x.bodyPos x.form.children) x.stop
  spliced : ∀ p, P.spliced p x = P.around p x
  bare : ∀ p, P.bare p x = if x.isPristine then P.copy x.pos x.stop else P.around p x

/-- All parsed nodes are printed around their children, but for those that have other statements,
and these are printed statement by statement. -/
structure Footholds (P : Printer) (s₀ : Store) : Prop where
  splices : ∀ n x, P.store.get? (some n) = some x → x.synthesized = false →
    x.listEdited = false → P.Splices s₀ n x
  resequenced : ∀ n x, P.store.get? (some n) = some x → x.synthesized = false →
    x.listEdited = true → ∃ list, x.form.statementList? = some list ∧ ∀ p,
      P.bare p x = if x.isPristine then P.copy x.pos x.stop else P.editedContainer p list x

theorem splices_of_footing (h : Footing s₀ [] P.store) (hplaced : Placed P.source s₀)
    (hx : P.store.get? (some n) = some x) (hsyn : x.synthesized = false)
    (hedited : x.listEdited = false) : P.Splices s₀ n x := by
  obtain ⟨x₀, hx₀⟩ := h.exists_parsed hx hsyn
  obtain ⟨hpos, hstop⟩ := h.span n x₀ x hx₀ hx
  have hfooted := h.kept n x₀ x hx₀ hx hedited
  have hchildren : List.Forall₂ (s₀.Stands P.store) x₀.form.children x.form.children :=
    forall₂_present hfooted.slots
  have hspan : P.store.Chain x.pos x.form.children x.stop := by
    rw [hpos, hstop]
    exact (hplaced n x₀ hx₀).span.2.of_stands hchildren
  have hbody : x.bodyPos = x₀.bodyPos := by
    unfold Node.bodyPos
    rw [hfooted.spelling, hpos]
  obtain ⟨hcut, hchain⟩ := (hplaced n x₀ hx₀).body
  have htiles : P.tiles x.stop x.pos x.form.children = true := by
    apply tiles_of_chain hspan
    intro c hc y hy
    obtain ⟨c₀, -, _, y', -, hy', -, -, horigin⟩ := exists_rel_of_mem hchildren hc
    rw [hy] at hy'
    cases hy'
    rcases horigin with ⟨hparsed, -⟩ | ⟨-, horigin⟩
    · rw [hparsed, Bool.false_and]
    · rw [horigin, Option.isNone_some, Bool.and_false]
  have hlaid : Laid P.source P.store x.bodyPos
      (P.store.pieces x.stop x.bodyPos x.form.children) x.stop := by
    rw [hbody, hstop]
    apply laid_pieces (hchain.of_stands hchildren) hcut (hplaced n x₀ hx₀).stop
    intro c hc y hy
    obtain ⟨c₀, -, y₀, y', hy₀, hy', hypos, hystop, -⟩ := exists_rel_of_mem hchildren hc
    rw [hy] at hy'
    cases hy'
    rw [hypos, hystop]
    exact ⟨(hplaced c₀ y₀ hy₀).span.1, (hplaced c₀ y₀ hy₀).stop⟩
  refine ⟨⟨x₀, hx₀, hpos, hstop, hchildren⟩, hspan, htiles, hlaid, fun p => spliced_eq_around htiles,
    fun p => ?_⟩
  unfold bare
  rw [hsyn, hedited, spliced_eq_around htiles]
  cases x.form.statementList? <;> rfl

theorem footholds_of_footing (h : Footing s₀ [] P.store) (hplaced : Placed P.source s₀) :
    P.Footholds s₀ where
  splices n x hx hsyn hedited := splices_of_footing h hplaced hx hsyn hedited
  resequenced n x hx hsyn hedited := by
    obtain ⟨list, hlist⟩ := Option.isSome_iff_exists.1 (h.resequenced n x hx hedited)
    refine ⟨list, hlist, fun p => ?_⟩
    unfold bare
    rw [hsyn, hlist, hedited]
    rfl

end Printer

/-- After any passes, no parsed node is printed as if it were new. -/
theorem footholds_runOn {p : Program} (h : parse source = .ok p) (rules : List RuleName)
    (options : PrintOptions) :
    Printer.Footholds ⟨(Rule.runOn rules source p).2.store, source, options⟩ p.store := by
  have hplaced := (placed_of_parse h).1
  exact Printer.footholds_of_footing (Rule.footing_runOn rules source hplaced) hplaced

/-- A function in a call becomes an arrow function and then one around an expression. The call is
printed with the gaps there are around the function. -/
theorem footholds_runOn_arrow :
    let source := "f(/* first */ function () { return a; }, b);".toList
    ∃ p, parse source = .ok p ∧
      let s := (Rule.runOn [.arrow, .arrowReturn] source p).2.store
      let P : Printer := ⟨s, source, .detect source⟩
      P.Footholds p.store ∧ s.isSynthesized (some 9) = true ∧
        ∃ x, s.get? (some 6) = some x ∧ x.isPristine = false ∧ P.Splices p.store 6 x ∧
          s.pieces x.stop x.bodyPos x.form.children =
            [.gap 0 0, .child 0, .gap 1 14, .child 9, .gap 39 41, .child 5, .gap 42 43] := by
  intro source
  have hnew : ∀ p, parse source = .ok p →
      (Rule.runOn [.arrow, .arrowReturn] source p).2.store.isSynthesized (some 9) = true :=
    of_parse (by decide +kernel)
  have hcall : ∀ p, parse source = .ok p →
      let s := (Rule.runOn [.arrow, .arrowReturn] source p).2.store
      ∃ x ∈ s.get? (some 6), x.isPristine = false ∧
        (x.synthesized = false ∧ x.listEdited = false) ∧
        s.pieces x.stop x.bodyPos x.form.children =
          [.gap 0 0, .child 0, .gap 1 14, .child 9, .gap 39 41, .child 5, .gap 42 43] :=
    of_parse (by decide +kernel)
  obtain ⟨p, hp⟩ := exists_parse_of_isOk source (by decide +kernel)
  obtain ⟨x, hx, hmarked, hparsed, hpieces⟩ := hcall p hp
  have hfootholds := footholds_runOn hp [.arrow, .arrowReturn] (.detect source)
  exact ⟨p, hp, hfootholds, hnew p hp, x, hx, hmarked,
    hfootholds.splices 6 x hx hparsed.1 hparsed.2, hpieces⟩

end Modernizer
