import Modernizer.Proofs.Parser.Gap
import Modernizer.Proofs.Parser.KeepingProgram

/-! Comments of a parsed program. Each is attached at most once, to a neighbour of the gap it lies in:
it trails the element before the gap up to the first line break, and leads the one behind it from there
on (`commentsPlaced_of_parse`). -/

namespace Modernizer

open Store

namespace Text

variable {source s t : Text} {lo a b : Nat}

theorem spansLineBreak_mono (hlo : Boundary source lo) (ha : Boundary source a)
    (hb : Boundary source b) (hle : lo ≤ a) (hle' : a ≤ b)
    (h : spansLineBreak source lo a = true) : spansLineBreak source lo b = true := by
  obtain ⟨_, _, rfl, rfl⟩ := ha
  obtain ⟨s, _, hfront, rfl⟩ := hlo
  obtain ⟨_, t, hback, rfl⟩ := hb
  obtain ⟨m, rfl, -⟩ := exists_between hfront.symm hle
  obtain ⟨m', rfl, rfl⟩ := exists_between hback hle'
  rw [spansLineBreak, slice_append, List.any_eq_true] at h
  have hsource : s ++ m ++ (m' ++ t) = s ++ (m ++ m') ++ t := by simp only [List.append_assoc]
  rw [spansLineBreak, hsource, List.append_assoc s m m', slice_append, List.any_append,
    List.any_eq_true.2 h, Bool.true_or]

end Text

namespace Attachment

variable {source : Text} {s : Store} {comments : List Comment} {previous : Option Neighbour}
  {ns : List NodeId} {start stop : Nat}

theorem nodup_inGaps (h : Comment.Ordered comments) (hchain : s.Chain start ns stop)
    (hstart : ∀ p ∈ previous, p.stop = start) :
    ((inGaps source comments.zipIdx stop previous start (s.located ns)).map (·.comment)).Nodup := by
  induction ns generalizing previous start with
  | nil => exact nodup_inGap h
  | cons n ns ih =>
    obtain ⟨x, hx, -, hpos, hchain⟩ := hchain
    rw [located_cons hx, inGaps, List.map_append]
    have hlast : ∀ p ∈ some (⟨n, x.stop⟩ : Neighbour), p.stop = x.stop := by
      rintro p ⟨⟩
      rfl
    refine (nodup_inGap h).append (ih hchain hlast) fun i hi hi' => ?_
    obtain ⟨a, ha, rfl⟩ := List.mem_map.1 hi
    obtain ⟨b, hb, heq⟩ := List.mem_map.1 hi'
    obtain ⟨before, after, rfl, hgap⟩ :=
      (mem_inGaps fun m hm => (hchain.exists_of_mem hm).imp fun _ h => h.1).1 hb
    obtain ⟨c, hc, -, hle, -⟩ := (mem_inGap h hstart).1 ha
    obtain ⟨d, hd, hge, -⟩ := (mem_inGap h (stop_of_neighbour? hlast)).1 hgap
    rw [heq, hc] at hd
    cases hd
    have hsolid := h.solid c (List.mem_of_getElem? hc)
    have hbefore := hchain.gap.1.le
    omega

end Attachment

namespace Store

open Attachment

variable {source : Text} {s s' : Store} {root n m : NodeId} {previous following : Slot}
  {lo hi i : Nat} {c : Comment} {a : Attachment} {trailing : Bool}

theorem gapIn_congr (h : s'.nodes = s.nodes) :
    s'.GapIn n previous following lo hi ↔ s.GapIn n previous following lo hi := by
  simp only [GapIn, Gap, lastStop, firstPos, get?, h]

theorem nodup_goingTo {l : List Attachment} (h : (l.map (·.comment)).Nodup) (n : NodeId) :
    (goingTo l n false ++ goingTo l n true).Nodup := by
  have hside : ∀ trailing, (goingTo l n trailing).Nodup := fun trailing =>
    (List.filter_sublist.map _).nodup h
  refine (hside false).append (hside true) fun i hi hi' => ?_
  have heq := List.inj_on_of_nodup_map h (mem_goingTo.1 hi) (mem_goingTo.1 hi') rfl
  cases heq

section Placed

variable (hplaced : Placed source s) (hnested : Nested source s root)
  (hordered : Comment.Ordered s.comments)

include hplaced hordered

theorem mem_within_of_get? {x : Node} (hx : s.get? (some n) = some x) :
    a ∈ within source s x.form ↔ ∃ previous following lo hi c,
      s.GapIn n previous following lo hi ∧ s.comments[a.comment]? = some c ∧ lo ≤ c.pos ∧
        c.stop ≤ hi ∧ Goes source previous following lo c a := by
  have hgap : ∀ {previous following lo hi}, s.GapIn n previous following lo hi ↔
      s.Gap x.form previous following lo hi := by simp [GapIn, hx]
  simp only [hgap]
  refine mem_within hordered fun e he m hm => ?_
  obtain ⟨front, hbody⟩ := Form.body?_of_container? he
  have hspan := (hplaced n x hx).span.2
  dsimp only at hspan
  rw [(Form.of_body? hbody).1] at hspan
  exact (hspan.exists_of_mem (List.mem_append_right front hm)).imp fun _ h => h.1

theorem mem_attachments : a ∈ s.attachments source ↔ ∃ n previous following lo hi c,
    s.GapIn n previous following lo hi ∧ s.comments[a.comment]? = some c ∧ lo ≤ c.pos ∧ c.stop ≤ hi ∧
      Goes source previous following lo c a := by
  have hget : ∀ {n x}, s.nodes.toList[n]? = some x ↔ s.get? (some n) = some x := by simp [get?]
  rw [attachments, List.mem_flatMap]
  constructor
  · rintro ⟨x, hx, ha⟩
    obtain ⟨n, hn⟩ := List.mem_iff_getElem?.1 hx
    exact ⟨n, (mem_within_of_get? hplaced hordered (hget.1 hn)).1 ha⟩
  · rintro ⟨n, previous, following, lo, hi, c, hgap, h⟩
    obtain ⟨x, hx, -⟩ := id hgap
    exact ⟨x, List.mem_iff_getElem?.2 ⟨n, hget.2 hx⟩,
      (mem_within_of_get? hplaced hordered hx).2 ⟨previous, following, lo, hi, c, hgap, h⟩⟩

include hnested

theorem mem_attachments_of_gap (hgap : s.GapIn m previous following lo hi)
    (hc : s.comments[i]? = some c) (hlo : lo ≤ c.pos) (hhi : c.stop ≤ hi) :
    ⟨n, i, trailing⟩ ∈ s.attachments source ↔
      Goes source previous following lo c ⟨n, i, trailing⟩ := by
  rw [mem_attachments hplaced hordered]
  constructor
  · rintro ⟨m', previous', following', lo', hi', c', hgap', hc', hlo', hhi', hgoes⟩
    cases hc.symm.trans hc'
    have hsolid := hordered.solid c (List.mem_of_getElem? hc)
    obtain ⟨-, rfl, rfl, rfl, -⟩ := hplaced.gap_unique hnested hgap hgap' hlo hhi hlo' hhi' hsolid
    exact hgoes
  · exact fun hgoes => ⟨m, previous, following, lo, hi, c, hgap, hc, hlo, hhi, hgoes⟩

theorem nodup_attachments : ((s.attachments source).map (·.comment)).Nodup := by
  rw [attachments, List.map_flatMap, List.nodup_flatMap]
  have hget : ∀ {n x}, s.nodes.toList[n]? = some x → s.get? (some n) = some x := by simp [get?]
  constructor
  · intro x hx
    obtain ⟨n, hn⟩ := List.mem_iff_getElem?.1 hx
    cases hform : container? x.form with
    | none => simp [within, hform]
    | some e =>
      obtain ⟨elements, start, stop⟩ := e
      obtain ⟨front, hbody⟩ := Form.body?_of_container? hform
      rw [within_eq hform]
      have hranges := (hplaced n x (hget hn)).ranges _
        ((Form.of_body? hbody).2.1 ▸ List.mem_singleton_self _)
      exact nodup_inGaps hordered hranges.2 fun p hp => by cases hp
  · rw [List.pairwise_iff_getElem]
    intro m n hm hn hlt i hi hi'
    obtain ⟨a, ha, rfl⟩ := List.mem_map.1 hi
    obtain ⟨b, hb, heq⟩ := List.mem_map.1 hi'
    obtain ⟨_, _, lo, hi, c, hgap, hc, hlo, hhi, -⟩ :=
      (mem_within_of_get? hplaced hordered (hget (List.getElem?_eq_getElem hm))).1 ha
    obtain ⟨_, _, lo', hi', d, hgap', hd, hlo', hhi', -⟩ :=
      (mem_within_of_get? hplaced hordered (hget (List.getElem?_eq_getElem hn))).1 hb
    rw [heq, hc] at hd
    cases hd
    have hsolid := hordered.solid c (List.mem_of_getElem? hc)
    obtain ⟨rfl, -⟩ := hplaced.gap_unique hnested hgap hgap' hlo hhi hlo' hhi' hsolid
    exact Nat.lt_irrefl m hlt

end Placed

def Lies (s : Store) (i : Nat) (c : Comment) (lo hi : Nat) : Prop :=
  s.comments[i]? = some c ∧ lo ≤ c.pos ∧ c.stop ≤ hi

/-- Where the comments of a program have gone. They are in order, and each is attached at most once.
In a gap of a container a comment trails the element before the gap if no line break lies between
them, and leads the element after the gap if it does not trail one, and that is all it does. -/
structure CommentsPlaced (source : Text) (s : Store) : Prop where
  ordered : Comment.Ordered s.comments
  once : ∀ n, (s.leadingComments (some n) ++ s.trailingComments (some n)).Nodup
  alone : ∀ m n i, i ∈ s.leadingComments (some m) ++ s.trailingComments (some m) →
    i ∈ s.leadingComments (some n) ++ s.trailingComments (some n) → m = n
  from_gap : ∀ n i, i ∈ s.leadingComments (some n) ++ s.trailingComments (some n) →
    ∃ m previous following lo hi c, s.GapIn m previous following lo hi ∧ s.Lies i c lo hi ∧
      (previous = some n ∨ following = some n)
  trailing : ∀ m previous following lo hi, s.GapIn m previous following lo hi →
    ∀ i c, s.Lies i c lo hi → ∀ n, i ∈ s.trailingComments (some n) ↔
      previous = some n ∧ Text.spansLineBreak source lo c.pos = false
  leading : ∀ m previous following lo hi, s.GapIn m previous following lo hi →
    ∀ i c, s.Lies i c lo hi → ∀ n, i ∈ s.leadingComments (some n) ↔
      following = some n ∧ (previous = none ∨ Text.spansLineBreak source lo c.pos = true)
  trailing_first : ∀ m previous following lo hi, s.GapIn m previous following lo hi →
    ∀ i c j d, s.Lies i c lo hi → s.Lies j d lo hi → ∀ p f, i ∈ s.trailingComments (some p) →
      j ∈ s.leadingComments (some f) → i < j
  trailingStop_le : ∀ m p following lo hi, s.GapIn m (some p) following lo hi →
    s.trailingStop (some p) ≤ hi

theorem Placed.start_of_gap (h : Placed source s) (hgap : s.GapIn m (some n) following lo hi) :
    ∃ x, s.get? (some n) = some x ∧ x.stop = lo ∧ lo ≤ hi := by
  obtain ⟨start, before, after, -, -, stop, -, hchain, -, ⟨hlast, -, rfl, rfl⟩, -⟩ := h.of_gaps hgap hgap
  obtain ⟨hbefore, hle, -⟩ := hchain.gap
  obtain ⟨x, hx, -⟩ := hbefore.exists_of_mem (List.mem_of_getLast? hlast.symm)
  exact ⟨x, hx, by simp [lastStop, ← hlast, hx], hle⟩

theorem trailingStop_le {x : Node} (hx : s.get? (some n) = some x) (hle : x.stop ≤ hi)
    (h : ∀ i ∈ s.trailingComments (some n), ∀ c, s.comments[i]? = some c → c.stop ≤ hi) :
    s.trailingStop (some n) ≤ hi := by
  rw [trailingStop, hx]
  refine List.foldlRecOn (motive := (· ≤ hi)) _ _ hle fun stop hstop c hc => ?_
  obtain ⟨i, hi, hget⟩ := List.mem_filterMap.1 hc
  exact Nat.max_le.2 ⟨hstop, h i hi c hget⟩

section Attached

variable (hattached : s.attached = [])

include hattached

theorem attachedTo_attachComments_of_nil (source : Text) (n : NodeId) :
    (s.attachComments source).attachedTo (some n) =
      ⟨goingTo (s.attachments source) n false, goingTo (s.attachments source) n true⟩ := by
  rw [attachedTo_attachComments, attachedTo, hattached]
  rfl

theorem mem_leadingComments : i ∈ (s.attachComments source).leadingComments (some n) ↔
    ⟨n, i, false⟩ ∈ s.attachments source := by
  rw [leadingComments, attachedTo_attachComments_of_nil hattached, mem_goingTo]

theorem mem_trailingComments : i ∈ (s.attachComments source).trailingComments (some n) ↔
    ⟨n, i, true⟩ ∈ s.attachments source := by
  rw [trailingComments, attachedTo_attachComments_of_nil hattached, mem_goingTo]

theorem exists_attachment (h : i ∈ (s.attachComments source).leadingComments (some n) ++
    (s.attachComments source).trailingComments (some n)) :
    ∃ trailing, ⟨n, i, trailing⟩ ∈ s.attachments source := by
  rcases List.mem_append.1 h with h | h
  · exact ⟨false, (mem_leadingComments hattached).1 h⟩
  · exact ⟨true, (mem_trailingComments hattached).1 h⟩

end Attached

theorem Placed.trailing_lt_leading (hplaced : Placed source s) (hordered : Comment.Ordered s.comments)
    (hboundary : ∀ c ∈ s.comments, Text.Boundary source c.pos)
    (hgap : s.GapIn m previous following lo hi) {d : Comment} {j : Nat} {e : Attachment}
    (hc : s.comments[i]? = some c) (hd : s.comments[j]? = some d) (hlo : lo ≤ d.pos)
    (hgoes : Goes source previous following lo c a) (htrailing : a.trailing = true)
    (hgoes' : Goes source previous following lo d e) (hleading : e.trailing = false) : i < j := by
  by_contra hle
  obtain ⟨-, rfl, hnone⟩ := hgoes.resolve_right fun h => by simp [htrailing] at h
  obtain ⟨-, -, hbreak⟩ := hgoes'.resolve_left fun h => by simp [hleading] at h
  have hbreak := hbreak.resolve_left (by simp)
  obtain ⟨x, hx, rfl, -⟩ := hplaced.start_of_gap hgap
  have hpos : d.pos ≤ c.pos := by
    rcases Nat.lt_or_eq_of_le (Nat.le_of_not_lt hle) with hlt | rfl
    · obtain ⟨hi, rfl⟩ := List.getElem?_eq_some_iff.1 hc
      obtain ⟨hj, rfl⟩ := List.getElem?_eq_some_iff.1 hd
      have hapart := List.pairwise_iff_getElem.1 hordered.apart j i hj hi hlt
      exact Nat.le_trans (Nat.le_of_lt (hordered.solid _ (List.getElem_mem hj))) hapart
    · cases hc.symm.trans hd
      exact Nat.le_refl _
  have hmono := Text.spansLineBreak_mono (hplaced _ x hx).stop.boundary
    (hboundary d (List.mem_of_getElem? hd)) (hboundary c (List.mem_of_getElem? hc)) hlo hpos hbreak
  rw [hnone] at hmono
  cases hmono

/-- What is known of a parsed tree before its comments are attached. -/
structure Unattached (source : Text) (s : Store) (root : NodeId) : Prop where
  placed : Placed source s
  tree : s.TreeAt root
  nested : Nested source s root
  ordered : Comment.Ordered s.comments
  boundary : ∀ c ∈ s.comments, Text.Boundary source c.pos ∧ Text.Boundary source c.stop
  slash : ∀ c ∈ s.comments, ∃ before after, source = before ++ '/' :: after ∧
    c.pos = Text.utf8Length before
  attached : s.attached = []

/-- The comments of a tree go where they should. -/
theorem Unattached.commentsPlaced (h : Unattached source s root) :
    CommentsPlaced source (s.attachComments source) := by
  have hnodup : ((s.attachments source).map (·.comment)).Nodup :=
    nodup_attachments h.placed h.nested h.ordered
  have hgoes : ∀ {n m i c previous following lo hi trailing}, s.GapIn m previous following lo hi →
      s.Lies i c lo hi → (⟨n, i, trailing⟩ ∈ s.attachments source ↔
        Goes source previous following lo c ⟨n, i, trailing⟩) := fun hgap ⟨hc, hlo, hhi⟩ =>
    mem_attachments_of_gap h.placed h.nested h.ordered hgap hc hlo hhi
  -- attaching changes neither nodes nor comments, so the gaps are the same after it
  have hgap_iff : ∀ {m previous following lo hi},
      (s.attachComments source).GapIn m previous following lo hi ↔ s.GapIn m previous following lo hi :=
    gapIn_congr (nodes_attachComments source s)
  have hlies_iff : ∀ {i c lo hi}, (s.attachComments source).Lies i c lo hi ↔ s.Lies i c lo hi := by
    simp only [Lies, comments_attachComments, implies_true]
  constructor
  case ordered => exact comments_attachComments source s ▸ h.ordered
  case once =>
    intro n
    rw [leadingComments, trailingComments, attachedTo_attachComments_of_nil h.attached]
    exact nodup_goingTo hnodup n
  case alone =>
    intro m n i hm hn
    obtain ⟨_, hm⟩ := exists_attachment h.attached hm
    obtain ⟨_, hn⟩ := exists_attachment h.attached hn
    have heq := List.inj_on_of_nodup_map hnodup hm hn rfl
    cases heq
    rfl
  case from_gap =>
    intro n i hi
    obtain ⟨trailing, hmem⟩ := exists_attachment h.attached hi
    obtain ⟨m, previous, following, lo, hi, c, hgap, hc, hlo, hhi, hgoes⟩ :=
      (mem_attachments h.placed h.ordered).1 hmem
    exact ⟨m, previous, following, lo, hi, c, hgap_iff.2 hgap, hlies_iff.2 ⟨hc, hlo, hhi⟩,
      hgoes.imp (fun h => h.2.1) fun h => h.2.1⟩
  case trailing =>
    intro m previous following lo hi hgap i c hlies n
    rw [mem_trailingComments h.attached, hgoes (hgap_iff.1 hgap) (hlies_iff.1 hlies)]
    simp [Goes]
  case leading =>
    intro m previous following lo hi hgap i c hlies n
    rw [mem_leadingComments h.attached, hgoes (hgap_iff.1 hgap) (hlies_iff.1 hlies)]
    simp [Goes]
  case trailing_first =>
    intro m previous following lo hi hgap i c j d hc hd p f hi hj
    have hgap := hgap_iff.1 hgap
    have hc := hlies_iff.1 hc
    have hd := hlies_iff.1 hd
    exact h.placed.trailing_lt_leading h.ordered (fun c hc => (h.boundary c hc).1) hgap hc.1 hd.1 hd.2.1
      ((hgoes hgap hc).1 ((mem_trailingComments h.attached).1 hi)) rfl
      ((hgoes hgap hd).1 ((mem_leadingComments h.attached).1 hj)) rfl
  case trailingStop_le =>
    intro m p following lo hi hgap
    have hgap := hgap_iff.1 hgap
    obtain ⟨x, hx, rfl, hle⟩ := h.placed.start_of_gap hgap
    have hx' : (s.attachComments source).get? (some p) = some x := by
      rw [get?, nodes_attachComments]
      exact hx
    refine trailingStop_le hx' hle fun i hi c hc => ?_
    obtain ⟨k, previous, f, lo', hi', d, hgap', hd, -, hle, hgoes⟩ :=
      (mem_attachments h.placed h.ordered).1 ((mem_trailingComments h.attached).1 hi)
    obtain ⟨-, rfl, -⟩ := hgoes.resolve_right fun h => by simp at h
    rw [comments_attachComments] at hc
    cases hd.symm.trans hc
    obtain ⟨-, -, -, -, rfl⟩ :=
      h.placed.gap_unique_of_neighbour h.tree h.nested hgap hgap' (.inl ⟨rfl, rfl⟩)
    exact hle

end Store

open Modernizer.Parser

variable {source : Text} {p : Program}

theorem unattached_of_parse (h : parse source = .ok p) :
    ∃ s, p.store = s.attachComments source ∧ Unattached source s p.root := by
  obtain ⟨st, hrun, hstore⟩ := store_of_parse h
  obtain ⟨⟨hscanner, hattached⟩, hend⟩ :=
    have := Grammar.keeping_ofDepth (source.length + 2)
    sound_of_program hrun
  obtain ⟨tokens, stop, rest, hbehind⟩ := hscanner.behind hend
  have hlossless := hbehind.lossless
  have hspan : ∀ c ∈ st.scanner.comments, c.span ∈ tokens ++ st.scanner.comments.map Comment.span :=
    fun c hc => List.mem_append_right _ (List.mem_map_of_mem hc)
  obtain ⟨hgrows, hform⟩ := establishes_program (Grammar.sound_ofDepth _) _ _ _ _
    (Grows.refl forest_empty) hrun
  obtain ⟨hplaced, -⟩ := takes_program (Grammar.inOrder_ofDepth source _) _ _ _
    ((reading_ofText source).along false) hrun
  let s : Store := { st.store with comments := st.scanner.comments }
  have hgrows' : Grows empty s [p.root] := hgrows.congr rfl id
  have hplaced' : Placed source s := hplaced.congr rfl
  exact ⟨s, hstore, hplaced', hgrows'.treeAt hform, hplaced'.nested hgrows',
    ⟨fun c hc => (hlossless.solid _ (hspan c hc)).1, hlossless.comments_ordered⟩,
    fun c hc => hlossless.boundary _ (hspan c hc), hbehind.slash, hattached⟩

/-- The comments of a parsed program are attached to the elements of its containers, at most once
each, as the line breaks between them say. -/
theorem commentsPlaced_of_parse (h : parse source = .ok p) : CommentsPlaced source p.store := by
  obtain ⟨s, hstore, hs⟩ := unattached_of_parse h
  rw [hstore]
  exact hs.commentsPlaced

/-- A block comment that has a line break in it, one that trails, and one that leads. -/
theorem commentsPlaced_of_parse_block :
    let source := "a; /* \n */ // b\nc; // d\n// e".toList
    ∃ p, parse source = .ok p ∧ CommentsPlaced source p.store ∧
      p.store.attached = [(some 3, ⟨[1], [2]⟩), (some 1, ⟨[], [0]⟩)] := by
  intro source
  have hattached : ∃ p ∈ (parse source).toOption,
      p.store.attached = [(some 3, ⟨[1], [2]⟩), (some 1, ⟨[], [0]⟩)] := by decide +kernel
  obtain ⟨p, hp, hattached⟩ := exists_parse hattached
  exact ⟨p, hp, commentsPlaced_of_parse hp, hattached⟩

end Modernizer
