import Mathlib.Data.List.Pairwise
import Modernizer.Proofs.Parser.PlacedProgram
import Modernizer.Proofs.Tree.Attaching
import Modernizer.Proofs.Tree.Marks

/-! Gaps of containers. A gap is inside of its node and apart from all of its children, so no range with
some text in it is in two gaps (`Nested.tight_unique`, `Placed.gap_unique`), and each element has one
gap before it and one behind it (`Placed.gap_unique_of_neighbour`). -/

namespace Modernizer

open Store

theorem Form.body?_of_container? {form : Form} {elements : List Slot} {start stop : Nat}
    (h : Attachment.container? form = some (elements, start, stop)) :
    ∃ front, form.body? = some (front, ⟨start, present elements, stop⟩) := by
  cases form <;> cases h <;> exact ⟨_, rfl⟩

namespace Store

variable {source : Text} {s : Store} {root n m p : NodeId} {x y : Node} {form : Form}
  {previous previous' following following' : Slot} {before after : List NodeId}
  {lo lo' hi hi' a b : Nat} {i : Nat} {c : Comment}

theorem Chain.gap (h : s.Chain lo (before ++ after) hi) :
    s.Chain lo before (s.lastStop lo before) ∧ s.lastStop lo before ≤ s.firstPos after hi ∧
      s.Chain (s.firstPos after hi) after hi := by
  induction before generalizing lo with
  | nil =>
    cases after with
    | nil => exact ⟨Nat.le_refl lo, h, Nat.le_refl hi⟩
    | cons n after =>
      obtain ⟨x, hx, hlo, hpos, h⟩ := h
      rw [firstPos_cons hx]
      exact ⟨Nat.le_refl lo, hlo, x, hx, Nat.le_refl _, hpos, h⟩
  | cons n before ih =>
    obtain ⟨x, hx, hlo, hpos, h⟩ := h
    obtain ⟨hbefore, hgap, hafter⟩ := ih h
    have hlast := lastStop_cons hx (fun m hm => (hbefore.exists_of_mem hm).imp fun _ h => h.1) lo
    rw [hlast]
    exact ⟨⟨x, hx, hlo, hpos, hbefore⟩, hgap, hafter⟩

def Beside (s : Store) (m n : NodeId) : Prop :=
  ∀ x y, s.get? (some m) = some x → s.get? (some n) = some y → x.stop ≤ y.pos ∨ y.stop ≤ x.pos

instance : Std.Symm s.Beside := ⟨fun _ _ h x y hx hy => (h y x hy hx).symm⟩

def Tight (s : Store) (n : NodeId) (lo hi : Nat) : Prop :=
  ∃ x, s.get? (some n) = some x ∧ x.pos ≤ lo ∧ hi ≤ x.stop ∧
    ∀ c ∈ x.form.children, ∀ y, s.get? (some c) = some y → y.stop ≤ lo ∨ hi ≤ y.pos

theorem Tight.mono (h : s.Tight n lo hi) (hlo : lo ≤ a) (hhi : b ≤ hi) : s.Tight n a b := by
  obtain ⟨x, hx, hpos, hstop, hapart⟩ := h
  refine ⟨x, hx, Nat.le_trans hpos hlo, Nat.le_trans hhi hstop, fun c hc y hy => ?_⟩
  exact (hapart c hc y hy).imp (Nat.le_trans · hlo) (Nat.le_trans hhi)

namespace Nested

variable (h : Nested source s root)

include h

theorem exists_of_holds (hx : s.get? (some n) = some x) (hc : s.Holds n m) :
    m ∈ x.form.children ∧ ∃ y, s.get? (some m) = some y ∧ x.pos ≤ y.pos ∧ y.stop ≤ x.stop := by
  have hmem : m ∈ x.form.children := by simpa [Holds, Store.children, form?, hx] using hc
  exact ⟨hmem, (h.children n x hx).1 m hmem⟩

theorem span_of_below (hx : s.get? (some n) = some x) (hm : s.Below n m)
    (hy : s.get? (some m) = some y) : x.pos ≤ y.pos ∧ y.stop ≤ x.stop := by
  suffices hspan : ∃ y, s.get? (some m) = some y ∧ x.pos ≤ y.pos ∧ y.stop ≤ x.stop by
    obtain ⟨z, hz, hspan⟩ := hspan
    cases hy.symm.trans hz
    exact hspan
  clear hy
  induction hm with
  | refl => exact ⟨x, hx, Nat.le_refl _, Nat.le_refl _⟩
  | tail _ hc ih =>
    obtain ⟨y, hy, hpos, hstop⟩ := ih
    obtain ⟨-, z, hz, hpos', hstop'⟩ := h.exists_of_holds hy hc
    exact ⟨z, hz, Nat.le_trans hpos hpos', Nat.le_trans hstop' hstop⟩

theorem beside (hm : s.Holds p m) (hn : s.Holds p n) (hne : m ≠ n) : s.Beside m n := by
  obtain ⟨x, hx⟩ := exists_get?_of_lt (lt_size_of_holds hm)
  have horder : x.form.children.Pairwise s.Beside :=
    (h.children p x hx).2.imp fun h x y hx hy => .inl (h x y hx hy)
  exact horder.forall (h.exists_of_holds hx hm).1 (h.exists_of_holds hx hn).1 hne

theorem not_below_of_tight (hn : s.Tight n lo hi) (hm : s.Tight m lo hi) (hlt : lo < hi)
    (hp : s.Holds n p) : ¬ s.Below p m := by
  intro hbelow
  obtain ⟨x, hx, -, -, hapart⟩ := hn
  obtain ⟨z, hz, hlo, hhi, -⟩ := hm
  obtain ⟨hmem, y, hy, -⟩ := h.exists_of_holds hx hp
  obtain ⟨hpos, hstop⟩ := h.span_of_below hy hbelow hz
  rcases hapart p hmem y hy with hle | hle <;> omega

theorem not_below_siblings (hn : s.Tight n lo hi) (hm : s.Tight m lo hi) (hlt : lo < hi) {c d : NodeId}
    (hc : s.Holds p c) (hd : s.Holds p d) (hne : c ≠ d) (hcn : s.Below c n) : ¬ s.Below d m := by
  intro hdm
  obtain ⟨x, hx⟩ := exists_get?_of_lt (lt_size_of_holds hc)
  obtain ⟨-, y, hy, -⟩ := h.exists_of_holds hx hc
  obtain ⟨-, z, hz, -⟩ := h.exists_of_holds hx hd
  obtain ⟨u, hu, hulo, huhi, -⟩ := hn
  obtain ⟨v, hv, hvlo, hvhi, -⟩ := hm
  obtain ⟨hupos, hustop⟩ := h.span_of_below hy hcn hu
  obtain ⟨hvpos, hvstop⟩ := h.span_of_below hz hdm hv
  rcases h.beside hc hd hne y z hy hz with hle | hle <;> omega

/-- No range with some text in it is tight in two nodes. -/
theorem tight_unique (hn : s.Tight n lo hi) (hm : s.Tight m lo hi) (hlt : lo < hi) : n = m := by
  -- The ways down from a node above both go on together until one of them is at its end.
  have hdown : ∀ a, s.Below a n → s.Below a m → n = m := by
    intro a han
    induction han using Relation.ReflTransGen.head_induction_on with
    | refl =>
      intro hnm
      rcases Relation.ReflTransGen.cases_head hnm with heq | ⟨c, hc, hcm⟩
      · exact heq
      · exact absurd hcm (h.not_below_of_tight hn hm hlt hc)
    | head hc hcn ih =>
      intro ham
      rcases Relation.ReflTransGen.cases_head ham with rfl | ⟨d, hd, hdm⟩
      · exact absurd hcn (h.not_below_of_tight hm hn hlt hc)
      · refine ih ?_
        by_contra hcm
        exact h.not_below_siblings hn hm hlt hc hd (fun e => hcm (e ▸ hdm)) hcn hdm
  obtain ⟨x, hx, -⟩ := id hn
  obtain ⟨y, hy, -⟩ := id hm
  exact hdown root (h.reachable n (lt_size_of_get? hx)) (h.reachable m (lt_size_of_get? hy))

end Nested

def GapIn (s : Store) (n : NodeId) (previous following : Slot) (lo hi : Nat) : Prop :=
  ∃ x, s.get? (some n) = some x ∧ s.Gap x.form previous following lo hi

theorem Placed.of_gap (h : Placed source s) (hgap : s.GapIn n previous following lo hi) :
    ∃ x front start before after stop, s.get? (some n) = some x ∧
      x.form.body? = some (front, ⟨start, before ++ after, stop⟩) ∧
      previous = before.getLast? ∧ following = after.head? ∧
      lo = s.lastStop start before ∧ hi = s.firstPos after stop ∧
      s.Chain x.pos front start ∧ s.Chain start (before ++ after) stop ∧ stop ≤ x.stop := by
  obtain ⟨x, hx, elements, start, stop, before, after, hcontainer, hsplit, hprevious, hfollowing, hlo,
    hhi⟩ := hgap
  obtain ⟨front, hbody⟩ := Form.body?_of_container? hcontainer
  rw [hsplit] at hbody
  obtain ⟨-, hranges, -⟩ := Form.of_body? hbody
  obtain ⟨hfront, hstop⟩ := (h n x hx).body_inside _ hbody
  exact ⟨x, front, start, before, after, stop, hx, hbody, hprevious, hfollowing, hlo, hhi, hfront,
    ((h n x hx).ranges _ (hranges ▸ List.mem_singleton_self _)).2, hstop⟩

theorem Placed.tight_of_gap (h : Placed source s) (hgap : s.GapIn n previous following lo hi) :
    s.Tight n lo hi := by
  obtain ⟨x, front, start, before, after, stop, hx, hbody, -, -, rfl, rfl, hfront, hchain, hstop⟩ :=
    h.of_gap hgap
  obtain ⟨hbefore, hle, hafter⟩ := hchain.gap
  refine ⟨x, hx, Nat.le_trans hfront.le hbefore.le, Nat.le_trans hafter.le hstop, fun c hc y hy => ?_⟩
  rw [(Form.of_body? hbody).1, List.mem_append, List.mem_append] at hc
  rcases hc with hc | hc | hc
  · obtain ⟨y', hy', -, -, hle⟩ := hfront.exists_of_mem hc
    cases hy.symm.trans hy'
    exact .inl (Nat.le_trans hle hbefore.le)
  · obtain ⟨y', hy', -, -, hle⟩ := hbefore.exists_of_mem hc
    cases hy.symm.trans hy'
    exact .inl hle
  · obtain ⟨y', hy', hle, -⟩ := hafter.exists_of_mem hc
    cases hy.symm.trans hy'
    exact .inr hle

theorem Chain.between_gaps {ns : List NodeId} (h : s.Chain lo (before ++ (ns ++ after)) hi)
    (hlt : s.lastStop lo (before ++ ns) < s.firstPos (ns ++ after) hi) : ns = [] := by
  cases ns with
  | nil => rfl
  | cons n ns =>
    exfalso
    obtain ⟨x, hx, hpos, hstop, -⟩ := h.gap.2.2
    rw [← List.append_assoc] at h
    obtain ⟨y, hy, -, -, hle⟩ :=
      h.gap.1.exists_of_mem (List.mem_append_right before List.mem_cons_self)
    cases hx.symm.trans hy
    have hfirst : s.firstPos (n :: ns ++ after) hi = x.pos := firstPos_cons hx _ hi
    omega

theorem Placed.of_gaps (h : Placed source s) (hgap : s.GapIn n previous following lo hi)
    (hgap' : s.GapIn n previous' following' lo' hi') :
    ∃ start before after before' after' stop, before ++ after = before' ++ after' ∧
      s.Chain start (before ++ after) stop ∧ (before ++ after).Sublist (s.children (some n)) ∧
      (previous = before.getLast? ∧ following = after.head? ∧ lo = s.lastStop start before ∧
        hi = s.firstPos after stop) ∧
      previous' = before'.getLast? ∧ following' = after'.head? ∧ lo' = s.lastStop start before' ∧
        hi' = s.firstPos after' stop := by
  obtain ⟨x, front, start, before, after, stop, hx, hbody, hp, hf, hlo, hhi, -, hchain, -⟩ :=
    h.of_gap hgap
  obtain ⟨x', front', start', before', after', stop', hx', hbody', hp', hf', hlo', hhi', -⟩ :=
    h.of_gap hgap'
  cases hx.symm.trans hx'
  obtain ⟨rfl, rfl, heq, rfl⟩ : front = front' ∧ start = start' ∧
      before ++ after = before' ++ after' ∧ stop = stop' := by
    simpa using hbody.symm.trans hbody'
  refine ⟨start, before, after, before', after', stop, heq, hchain, ?_, ⟨hp, hf, hlo, hhi⟩, hp', hf', hlo',
    hhi'⟩
  rw [Store.children, form?, hx, Option.map_some, Option.map_some, Option.getD_some,
    (Form.of_body? hbody).1]
  exact List.sublist_append_right front _

/-- No range with some text in it is in two gaps. -/
theorem Placed.gap_unique (h : Placed source s) (hn : Nested source s root)
    (hgap : s.GapIn n previous following lo hi) (hgap' : s.GapIn m previous' following' lo' hi')
    (hlo : lo ≤ a) (hhi : b ≤ hi) (hlo' : lo' ≤ a) (hhi' : b ≤ hi') (hlt : a < b) :
    n = m ∧ previous = previous' ∧ following = following' ∧ lo = lo' ∧ hi = hi' := by
  obtain rfl : n = m :=
    hn.tight_unique ((h.tight_of_gap hgap).mono hlo hhi) ((h.tight_of_gap hgap').mono hlo' hhi') hlt
  obtain ⟨start, before, after, before', after', stop, heq, hchain, -, ⟨rfl, rfl, rfl, rfl⟩, rfl, rfl,
    rfl, rfl⟩ := h.of_gaps hgap hgap'
  suffices hsplit : before = before' ∧ after = after' by
    obtain ⟨rfl, rfl⟩ := hsplit
    exact ⟨rfl, rfl, rfl, rfl, rfl⟩
  rcases List.append_eq_append_iff.1 heq with ⟨ns, rfl, rfl⟩ | ⟨ns, rfl, rfl⟩
  · obtain rfl := hchain.between_gaps (by omega)
    exact ⟨(List.append_nil _).symm, rfl⟩
  · rw [heq] at hchain
    obtain rfl := hchain.between_gaps (by omega)
    exact ⟨List.append_nil _, rfl⟩

theorem eq_nil_of_neighbour {ns : List NodeId} (h : (before ++ (ns ++ after)).Nodup)
    (hp : some p = before.getLast? ∧ some p = (before ++ ns).getLast? ∨
      some p = (ns ++ after).head? ∧ some p = after.head?) : ns = [] := by
  by_contra hne
  obtain ⟨-, hafter, hapart⟩ := List.nodup_append.1 h
  rcases hp with ⟨hp, hp'⟩ | ⟨hp, hp'⟩
  · have hmem : p ∈ ns := by
      rw [List.getLast?_append_of_ne_nil before hne] at hp'
      exact List.mem_of_getLast? hp'.symm
    exact hapart p (List.mem_of_getLast? hp.symm) p (List.mem_append_left after hmem) rfl
  · have hmem : p ∈ ns := by
      rw [List.head?_append_of_ne_nil ns hne] at hp
      exact List.mem_of_head? hp.symm
    exact (List.nodup_append.1 hafter).2.2 p hmem p (List.mem_of_head? hp'.symm) rfl

/-- There is one gap behind an element, and one before it. -/
theorem Placed.gap_unique_of_neighbour (h : Placed source s) (ht : s.TreeAt root)
    (hn : Nested source s root) (hgap : s.GapIn n previous following lo hi)
    (hgap' : s.GapIn m previous' following' lo' hi')
    (hp : some p = previous ∧ some p = previous' ∨ some p = following ∧ some p = following') :
    n = m ∧ previous = previous' ∧ following = following' ∧ lo = lo' ∧ hi = hi' := by
  have hholds : ∀ {k q f l u}, s.GapIn k q f l u → (some p = q ∨ some p = f) →
      s.Below root k ∧ s.Holds k p := by
    intro k q f l u hgap hp
    obtain ⟨x, hx, -⟩ := id hgap
    obtain ⟨-, before, after, -, -, -, -, -, hsub, ⟨rfl, rfl, -⟩, -⟩ := h.of_gaps hgap hgap
    have hmem : p ∈ before ++ after := List.mem_append.2 <|
      hp.imp (fun hp => List.mem_of_getLast? hp.symm) fun hp => List.mem_of_head? hp.symm
    exact ⟨hn.reachable k (lt_size_of_get? hx), hsub.subset hmem⟩
  obtain ⟨hbelow, hnp⟩ := hholds hgap (hp.imp (·.1) (·.1))
  obtain ⟨hbelow', hmp⟩ := hholds hgap' (hp.imp (·.2) (·.2))
  obtain rfl : n = m := ht.holder_unique hbelow hbelow' hnp hmp
  obtain ⟨start, before, after, before', after', stop, heq, -, hsub, ⟨rfl, rfl, rfl, rfl⟩, rfl, rfl, rfl,
    rfl⟩ := h.of_gaps hgap hgap'
  suffices hsplit : before = before' ∧ after = after' by
    obtain ⟨rfl, rfl⟩ := hsplit
    exact ⟨rfl, rfl, rfl, rfl, rfl⟩
  have hnodup := hsub.nodup (ht.nodup n hbelow)
  rcases List.append_eq_append_iff.1 heq with ⟨ns, rfl, rfl⟩ | ⟨ns, rfl, rfl⟩
  · obtain rfl := eq_nil_of_neighbour hnodup hp
    exact ⟨(List.append_nil _).symm, rfl⟩
  · rw [heq] at hnodup
    obtain rfl := eq_nil_of_neighbour hnodup (hp.imp And.symm And.symm)
    exact ⟨List.append_nil _, rfl⟩

end Store

end Modernizer
