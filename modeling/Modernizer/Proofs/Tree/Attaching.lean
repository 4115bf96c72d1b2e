import Modernizer.Proofs.Tree.Basic
import Modernizer.Proofs.Tree.Comments

/-! Which comments are attached. Attaching adds to each node what goes with it and changes nothing
else (`attachedTo_attachComments`). Of comments in order those of a gap are the ones between its ends,
and each of them goes with a neighbour of the gap, or with none (`mem_within`). -/

namespace Modernizer

/-- The comments have some text, and each ends before the next one begins. -/
structure Comment.Ordered (comments : List Comment) : Prop where
  solid : ∀ c ∈ comments, c.pos < c.stop
  apart : comments.Pairwise fun a b => a.stop ≤ b.pos

section Lists

variable {α β γ : Type} {p : α → Bool} {l : List α}

theorem dropWhile_eq_filter (h : l.Pairwise fun a b => p b = true → p a = true) :
    l.dropWhile p = l.filter (!p ·) := by
  induction l with
  | nil => rfl
  | cons a l ih =>
    obtain ⟨ha, hl⟩ := List.pairwise_cons.1 h
    cases hp : p a with
    | true => rw [List.dropWhile_cons_of_pos hp, List.filter_cons_of_neg (by simp [hp]), ih hl]
    | false =>
      rw [List.dropWhile_cons_of_neg (by simp [hp]), List.filter_cons_of_pos (by simp [hp])]
      refine congrArg _ (List.filter_eq_self.2 fun b hb => ?_).symm
      cases hb' : p b with
      | false => rfl
      | true => exact absurd (ha b hb hb') (by simp [hp])

theorem takeWhile_eq_filter (h : l.Pairwise fun a b => p b = true → p a = true) :
    l.takeWhile p = l.filter p := by
  induction l with
  | nil => rfl
  | cons a l ih =>
    obtain ⟨ha, hl⟩ := List.pairwise_cons.1 h
    cases hp : p a with
    | true => rw [List.takeWhile_cons_of_pos hp, List.filter_cons_of_pos hp, ih hl]
    | false =>
      rw [List.takeWhile_cons_of_neg (by simp [hp]), List.filter_cons_of_neg (by simp [hp])]
      refine (List.filter_eq_nil_iff.2 fun b hb hb' => ?_).symm
      exact absurd (ha b hb hb') (by simp [hp])

theorem map_filterMap_sublist {f : α → Option β} {g : β → γ} {h : α → γ}
    (hf : ∀ x y, f x = some y → g y = h x) : ((l.filterMap f).map g).Sublist (l.map h) := by
  induction l with
  | nil => exact .slnil
  | cons x l ih =>
    cases hx : f x with
    | none =>
      rw [List.filterMap_cons_none hx]
      exact ih.cons _
    | some y =>
      rw [List.filterMap_cons_some hx, List.map_cons, List.map_cons, hf x y hx]
      exact ih.cons_cons _

end Lists

namespace Store

variable {source : Text} {s : Store}

def located (s : Store) (ns : List NodeId) : List (NodeId × Node) :=
  ns.filterMap fun n => (s.get? (some n)).map ((n, ·))

theorem located_cons {n : NodeId} {x : Node} (hx : s.get? (some n) = some x) (ns : List NodeId) :
    s.located (n :: ns) = (n, x) :: s.located ns := by
  simp [located, hx]

/-- Where the last of some nodes ends, or where they would begin. -/
def lastStop (s : Store) (start : Nat) (ns : List NodeId) : Nat :=
  ((s.get? ns.getLast?).map (·.stop)).getD start

/-- Where the first of some nodes begins, or where they would end. -/
def firstPos (s : Store) (ns : List NodeId) (stop : Nat) : Nat :=
  ((s.get? ns.head?).map (·.pos)).getD stop

theorem lastStop_cons {n : NodeId} {x : Node} (hx : s.get? (some n) = some x) {ns : List NodeId}
    (hns : ∀ m ∈ ns, ∃ y, s.get? (some m) = some y) (start : Nat) :
    s.lastStop start (n :: ns) = s.lastStop x.stop ns := by
  unfold lastStop
  rw [List.getLast?_cons]
  cases hlast : ns.getLast? with
  | none => simp [hx]
  | some m =>
    obtain ⟨y, hy⟩ := hns m (List.mem_of_getLast? hlast)
    simp [hy]

theorem firstPos_cons {n : NodeId} {x : Node} (hx : s.get? (some n) = some x) (ns : List NodeId)
    (stop : Nat) : s.firstPos (n :: ns) stop = x.pos := by
  simp [firstPos, hx]

/-- A gap of a container: before, between or after its elements. -/
def Gap (s : Store) (form : Form) (previous following : Slot) (lo hi : Nat) : Prop :=
  ∃ elements start stop before after, Attachment.container? form = some (elements, start, stop) ∧
    present elements = before ++ after ∧ previous = before.getLast? ∧ following = after.head? ∧
    lo = s.lastStop start before ∧ hi = s.firstPos after stop

end Store

namespace Attachment

open Store

variable {source : Text} {s : Store} {comments : List Comment} {previous : Option Neighbour}
  {following : Slot} {start stop : Nat} {a : Attachment} {form : Form} {c : Comment}

/-- A comment goes with the element before the gap if no line break lies between them, and else with
the one after it. -/
def Goes (source : Text) (previous following : Slot) (lo : Nat) (c : Comment) (a : Attachment) :
    Prop :=
  a.trailing = true ∧ previous = some a.node ∧ Text.spansLineBreak source lo c.pos = false ∨
    a.trailing = false ∧ following = some a.node ∧
      (previous = none ∨ Text.spansLineBreak source lo c.pos = true)

theorem inside_eq (h : Comment.Ordered comments) (start stop : Nat) :
    (comments.zipIdx.dropWhile (·.1.pos < start)).takeWhile (·.1.stop ≤ stop) =
      comments.zipIdx.filter fun c => decide (start ≤ c.1.pos) && decide (c.1.stop ≤ stop) := by
  have hsolid : ∀ e ∈ comments.zipIdx, e.1.pos < e.1.stop := fun e he =>
    h.solid e.1 (List.fst_mem_of_mem_zipIdx he)
  have hapart : comments.zipIdx.Pairwise fun a b => a.1.stop ≤ b.1.pos := by
    have hmap := h.apart
    rw [← List.zipIdx_map_fst 0 comments] at hmap
    exact List.pairwise_map.1 hmap
  rw [dropWhile_eq_filter, takeWhile_eq_filter, List.filter_filter]
  · refine List.filter_congr fun e _ => ?_
    rw [Bool.and_comm, ← decide_not, decide_eq_decide.2 Nat.not_lt]
  · refine (hapart.imp_of_mem fun {a b} ha hb hab hstop => ?_).filter _
    have hb := hsolid b hb
    simp only [decide_eq_true_eq] at hstop ⊢
    omega
  · refine hapart.imp_of_mem fun {a b} ha hb hab hpos => ?_
    have ha := hsolid a ha
    simp only [decide_eq_true_eq] at hpos ⊢
    omega

/-- What is attached in a gap. -/
theorem mem_inGap (h : Comment.Ordered comments) (hstart : ∀ p ∈ previous, p.stop = start) :
    a ∈ inGap source comments.zipIdx previous following start stop ↔
      ∃ c, comments[a.comment]? = some c ∧ start ≤ c.pos ∧ c.stop ≤ stop ∧
        Goes source (previous.map (·.node)) following start c a := by
  unfold inGap
  dsimp only
  rw [inside_eq h, List.mem_filterMap]
  simp only [List.mem_filter, Bool.and_eq_true, decide_eq_true_eq, Prod.exists,
    List.mk_mem_zipIdx_iff_getElem?]
  constructor
  · rintro ⟨c, i, ⟨hc, hlo, hhi⟩, hsome⟩
    split at hsome
    · rename_i p htrails
      cases hsome
      obtain ⟨rfl, hbreak⟩ := Option.filter_eq_some_iff.1 htrails
      rw [hstart p rfl, Bool.not_eq_true'] at hbreak
      exact ⟨c, hc, hlo, hhi, .inl ⟨rfl, rfl, hbreak⟩⟩
    · rename_i n htrails
      cases hsome
      refine ⟨c, hc, hlo, hhi, .inr ⟨rfl, rfl, ?_⟩⟩
      cases previous with
      | none => exact .inl rfl
      | some p =>
        rw [Option.filter_eq_none_iff] at htrails
        have hbreak := htrails p rfl
        rw [hstart p rfl] at hbreak
        exact .inr (by simpa using hbreak)
    · cases hsome
  · rintro ⟨c, hc, hlo, hhi, hgoes⟩
    refine ⟨c, a.comment, ⟨hc, hlo, hhi⟩, ?_⟩
    obtain ⟨n, i, trailing⟩ := a
    rcases hgoes with ⟨htrailing, hprevious, hbreak⟩ | ⟨htrailing, hfollowing, hbreak⟩
    · obtain ⟨p, rfl, rfl⟩ := Option.map_eq_some_iff.1 hprevious
      rw [← hstart p rfl] at hbreak
      simp [Option.filter_some, hbreak, show trailing = true from htrailing]
    · cases previous with
      | none => simp [show following = some n from hfollowing, show trailing = false from htrailing]
      | some p =>
        have hbreak := hbreak.resolve_left (by simp)
        rw [← hstart p rfl] at hbreak
        simp [Option.filter_some, hbreak, show following = some n from hfollowing,
          show trailing = false from htrailing]

theorem nodup_inGap (h : Comment.Ordered comments) :
    ((inGap source comments.zipIdx previous following start stop).map (·.comment)).Nodup := by
  unfold inGap
  dsimp only
  rw [inside_eq h]
  refine (map_filterMap_sublist (h := Prod.snd) ?_).nodup ?_
  · rintro ⟨c, i⟩ a hsome
    dsimp only at hsome
    split at hsome <;> cases hsome <;> rfl
  · refine (List.filter_sublist.map Prod.snd).nodup ?_
    rw [List.zipIdx_map_snd]
    exact List.nodup_range'

def neighbour? (s : Store) (start : Nat) (previous : Option Neighbour) (before : List NodeId) :
    Option Neighbour :=
  (before.getLast?.map fun n => ⟨n, s.lastStop start before⟩).or previous

theorem stop_of_neighbour? {before : List NodeId} (h : ∀ p ∈ previous, p.stop = start) :
    ∀ p ∈ neighbour? s start previous before, p.stop = s.lastStop start before := by
  intro p hp
  unfold neighbour? at hp
  cases hlast : before.getLast? with
  | none =>
    rw [hlast] at hp
    rw [h p hp, List.getLast?_eq_none_iff.1 hlast]
    rfl
  | some n =>
    rw [hlast] at hp
    cases hp
    rfl

/-- The gaps before each of some elements and after the last of them. -/
theorem mem_inGaps {ns : List NodeId} (hns : ∀ n ∈ ns, ∃ x, s.get? (some n) = some x) :
    a ∈ inGaps source comments.zipIdx stop previous start (s.located ns) ↔
      ∃ before after, ns = before ++ after ∧ a ∈ inGap source comments.zipIdx
        (neighbour? s start previous before) after.head? (s.lastStop start before)
        (s.firstPos after stop) := by
  induction ns generalizing previous start with
  | nil =>
    constructor
    · exact fun h => ⟨[], [], rfl, h⟩
    · rintro ⟨before, after, hnil, h⟩
      obtain ⟨rfl, rfl⟩ := List.append_eq_nil_iff.1 hnil.symm
      exact h
  | cons n ns ih =>
    obtain ⟨⟨x, hx⟩, hns⟩ := List.forall_mem_cons.1 hns
    rw [located_cons hx, inGaps, List.mem_append, ih hns]
    -- gaps behind the first node see it as the neighbour if no other comes before them
    have hcons : ∀ {before after}, ns = before ++ after →
        s.lastStop start (n :: before) = s.lastStop x.stop before ∧
        neighbour? s start previous (n :: before) =
          neighbour? s x.stop (some ⟨n, x.stop⟩) before := by
      rintro before after rfl
      have hlast := lastStop_cons hx (fun m hm => hns m (List.mem_append_left _ hm)) start
      refine ⟨hlast, ?_⟩
      rw [neighbour?, neighbour?, hlast, List.getLast?_cons]
      cases hbefore : before.getLast? with
      | none =>
        rw [List.getLast?_eq_none_iff.1 hbefore]
        rfl
      | some m => rfl
    constructor
    · rintro (h | ⟨before, after, heq, h⟩)
      · refine ⟨[], n :: ns, rfl, ?_⟩
        rw [firstPos_cons hx]
        exact h
      · refine ⟨n :: before, after, congrArg _ heq, ?_⟩
        rw [(hcons heq).1, (hcons heq).2]
        exact h
    · rintro ⟨before, after, heq, h⟩
      cases before with
      | nil =>
        obtain rfl : n :: ns = after := heq
        rw [firstPos_cons hx] at h
        exact .inl h
      | cons m before =>
        obtain ⟨rfl, hrest⟩ := List.cons.inj heq
        rw [(hcons hrest).1, (hcons hrest).2] at h
        exact .inr ⟨before, after, hrest, h⟩

theorem within_eq {elements : List Slot} (h : container? form = some (elements, start, stop)) :
    within source s form =
      inGaps source s.comments.zipIdx stop none start (s.located (present elements)) := by
  unfold within
  rw [h, located, present, List.filterMap_filterMap]
  rfl

/-- What is attached in a container: each comment in a gap, as it goes. -/
theorem mem_within (h : Comment.Ordered s.comments)
    (hns : ∀ e ∈ container? form, ∀ n ∈ present e.1, ∃ x, s.get? (some n) = some x) :
    a ∈ within source s form ↔ ∃ previous following lo hi c, s.Gap form previous following lo hi ∧
      s.comments[a.comment]? = some c ∧ lo ≤ c.pos ∧ c.stop ≤ hi ∧
      Goes source previous following lo c a := by
  cases hform : container? form with
  | none => simp [within, Gap, hform]
  | some e =>
    obtain ⟨elements, start, stop⟩ := e
    rw [within_eq hform, mem_inGaps (hns _ hform)]
    have hstop : ∀ before : List NodeId, ∀ p ∈ neighbour? s start none before,
        p.stop = s.lastStop start before := fun before => stop_of_neighbour? (by simp)
    have hnode : ∀ before : List NodeId,
        (neighbour? s start none before).map (·.node) = before.getLast? := by
      intro before
      rw [neighbour?, Option.or_none, Option.map_map]
      exact Option.map_id'
    constructor
    · rintro ⟨before, after, hsplit, hmem⟩
      obtain ⟨c, hc, hlo, hhi, hgoes⟩ := (mem_inGap h (hstop before)).1 hmem
      rw [hnode] at hgoes
      exact ⟨_, _, _, _, c, ⟨elements, start, stop, before, after, hform, hsplit, rfl, rfl, rfl, rfl⟩,
        hc, hlo, hhi, hgoes⟩
    · rintro ⟨_, _, _, _, c, ⟨elements', start', stop', before, after, hform', hsplit, rfl, rfl, rfl,
        rfl⟩, hc, hlo, hhi, hgoes⟩
      obtain ⟨rfl, rfl, rfl⟩ : elements = elements' ∧ start = start' ∧ stop = stop' := by
        simpa [hform] using hform'
      refine ⟨before, after, hsplit, (mem_inGap h (hstop before)).2 ⟨c, hc, hlo, hhi, ?_⟩⟩
      rw [hnode]
      exact hgoes

end Attachment

namespace Store

variable {source : Text} {s : Store} {n : NodeId}

def attachments (source : Text) (s : Store) : List Attachment :=
  s.nodes.toList.flatMap fun x => Attachment.within source s x.form

def goingTo (l : List Attachment) (n : NodeId) (trailing : Bool) : List Nat :=
  (l.filter fun a => a.node == n && a.trailing == trailing).map (·.comment)

theorem goingTo_cons (a : Attachment) (l : List Attachment) (n : NodeId) (trailing : Bool) :
    goingTo (a :: l) n trailing = goingTo [a] n trailing ++ goingTo l n trailing := by
  rw [goingTo, goingTo, goingTo, ← List.map_append, ← List.filter_append]
  rfl

theorem mem_goingTo {l : List Attachment} {trailing : Bool} {i : Nat} :
    i ∈ goingTo l n trailing ↔ ⟨n, i, trailing⟩ ∈ l := by
  simp only [goingTo, List.mem_map, List.mem_filter, Bool.and_eq_true, beq_iff_eq]
  constructor
  · rintro ⟨a, ⟨ha, rfl, rfl⟩, rfl⟩
    exact ha
  · exact fun h => ⟨_, ⟨h, rfl, rfl⟩, rfl⟩

def attach (s : Store) (a : Attachment) : Store :=
  if a.trailing then s.addTrailingComment (some a.node) a.comment
  else s.addLeadingComment (some a.node) a.comment

theorem comments_attachComments (source : Text) (s : Store) :
    (s.attachComments source).comments = s.comments := by
  have h : ∀ (l : List Attachment) (s : Store), (l.foldl attach s).comments = s.comments := by
    intro l
    induction l with
    | nil => exact fun _ => rfl
    | cons a l ih =>
      intro s
      rw [List.foldl_cons, ih]
      unfold attach
      split <;> rfl
  exact h _ s

theorem attachedTo_attach (s : Store) (a : Attachment) (n : NodeId) :
    (s.attach a).attachedTo (some n) = (s.attachedTo (some n)).append
      ⟨goingTo [a] n false, goingTo [a] n true⟩ := by
  obtain ⟨m, i, trailing⟩ := a
  cases trailing <;> by_cases hm : m = n <;>
    simp [attach, addTrailingComment, addLeadingComment, attachedTo_setAttached, goingTo, hm,
      Attached.append]

/-- Each node has got what goes to it, behind what it had. -/
theorem attachedTo_attachComments (source : Text) (s : Store) (n : NodeId) :
    (s.attachComments source).attachedTo (some n) = (s.attachedTo (some n)).append
      ⟨goingTo (s.attachments source) n false, goingTo (s.attachments source) n true⟩ := by
  have h : ∀ (l : List Attachment) (s : Store), (l.foldl attach s).attachedTo (some n) =
      (s.attachedTo (some n)).append ⟨goingTo l n false, goingTo l n true⟩ := by
    intro l
    induction l with
    | nil => simp [goingTo, Attached.append]
    | cons a l ih =>
      intro s
      rw [List.foldl_cons, ih, attachedTo_attach, goingTo_cons a l n false,
        goingTo_cons a l n true]
      simp only [Attached.append, List.append_assoc]
  exact h _ s

end Store

end Modernizer
