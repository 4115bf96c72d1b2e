import Mathlib.Data.List.Nodup
import Mathlib.Logic.Relation
import Modernizer.Syntax.Store

/-! Trees in a store. A node holds its children, and what it reaches through them is below it. The
invariant `TreeAt` is local: it links the children of each reachable node back to it, and that alone
rules out cycles and nodes with two holders (`TreeAt.isTree`). -/

namespace Modernizer

/-- The body of a function with `this`. -/
def Form.functionBody : Form → Slot
  | functionDeclaration f | functionExpression f => f.body
  | method m => m.body
  | _ => none

namespace Store

open Relation

variable {s : Store} {root a b c n p q x y : NodeId}

/-- The node `p` has `c` in a child slot. -/
def Holds (s : Store) (p c : NodeId) : Prop := c ∈ s.children (some p)

/-- The second node is the first or reached from it through child slots. -/
def Below (s : Store) : NodeId → NodeId → Prop := ReflTransGen s.Holds

/-- The child slots of a node. -/
def slots (s : Store) (n : NodeId) : List Slot := ((s.form? (some n)).map Form.slots).getD []

/-- The nodes in some slots. -/
def present (slots : List Slot) : List NodeId := slots.filterMap id

section present

variable {l l' : List Slot}

@[simp] theorem present_nil : present [] = [] := rfl

@[simp] theorem present_cons_none : present (none :: l) = present l := rfl

@[simp] theorem present_cons_some : present (some c :: l) = c :: present l := rfl

@[simp] theorem present_append : present (l ++ l') = present l ++ present l' :=
  List.filterMap_append

theorem present_cons (c : Slot) (l : List Slot) : present (c :: l) = present [c] ++ present l :=
  present_append (l := [c])

@[simp] theorem present_map_some (ns : List NodeId) : present (ns.map some) = ns := by
  induction ns with
  | nil => rfl
  | cons n ns ih => simp [ih]

theorem map_some_present (h : none ∉ l) : (present l).map some = l := by
  induction l with
  | nil => rfl
  | cons e l ih =>
    obtain ⟨he, hl⟩ := not_or.1 (mt List.mem_cons.2 h)
    cases e with
    | none => exact absurd rfl he
    | some n => rw [present_cons_some, List.map_cons, ih hl]

@[simp] theorem mem_present : c ∈ present l ↔ some c ∈ l := by simp [present]

theorem present_sublist (h : l.Sublist l') : (present l).Sublist (present l') := h.filterMap id

theorem count_present (l : List Slot) (c : NodeId) : (present l).count c = l.count (some c) := by
  induction l with
  | nil => rfl
  | cons e l ih => cases e <;> simp [List.count_cons, ih]

end present

theorem children_eq_slots (s : Store) (n : NodeId) : s.children (some n) = present (s.slots n) := by
  unfold children slots
  cases s.form? (some n) <;> rfl

theorem count_children (s : Store) (p c : NodeId) :
    (s.children (some p)).count c = (s.slots p).count (some c) := by
  rw [children_eq_slots, count_present]

theorem holds_iff_mem_slots : s.Holds p c ↔ some c ∈ s.slots p := by
  rw [Holds, children_eq_slots, mem_present]

theorem holds_of_form {form : Form} (hf : s.form? (some n) = some form)
    (hc : some c ∈ form.slots) : s.Holds n c := by
  rwa [holds_iff_mem_slots, slots, hf, Option.map_some, Option.getD_some]

theorem exists_of_form? {m : Slot} {form : Form} (h : s.form? m = some form) :
    ∃ i, m = some i ∧ s.form? (some i) = some form := by
  cases m with
  | none => cases h
  | some i => exact ⟨i, rfl, h⟩

theorem lt_size_of_form? {form : Form} (h : s.form? (some n) = some form) : n < s.size := by
  by_contra hn
  have : s.get? (some n) = none := get?_eq_none_iff.2 (Nat.le_of_not_lt hn)
  simp [form?, this] at h

/-- What is reachable from the root is a tree: no node is below itself, and each node but the root
is in one child slot of one node, to which its parent link points. -/
structure IsTree (s : Store) (root : NodeId) : Prop where
  acyclic : ∀ n, s.Below root n → ¬ TransGen s.Holds n n
  held_once : ∀ n, s.Below root n → n ≠ root →
    ∃ p, s.Below root p ∧ s.parent (some n) = some p ∧
      ∀ q, s.Below root q → (s.slots q).count (some n) = if q = p then 1 else 0

/-- The node is a block. -/
def IsBlock (s : Store) (n : NodeId) : Prop := ∃ list, s.form? (some n) = some (.block list)

/-- If the form is that of a function with `this`, its body is a block. -/
def Bodied (s : Store) (form : Form) : Prop := ∀ b, form.functionBody = some b → s.IsBlock b

theorem Bodied.of_none {form : Form} (h : form.functionBody = none) : s.Bodied form := by
  intro b hb
  rw [h] at hb
  cases hb

/-- Reachable nodes hold each child once and are its parent; the root is a program without one.
All functions but arrows have blocks as bodies. -/
structure TreeAt (s : Store) (root : NodeId) : Prop where
  root_parent : s.parent (some root) = none
  root_form : ∃ list, s.form? (some root) = some (.program list)
  nodup : ∀ p, s.Below root p → (s.children (some p)).Nodup
  linked : ∀ p c, s.Below root p → s.Holds p c → s.parent (some c) = some p
  bodied : ∀ n form, s.form? (some n) = some form → s.Bodied form

theorem TreeAt.of_closed (P : NodeId → Prop) (hroot : P root)
    (hparent : s.parent (some root) = none)
    (hform : ∃ list, s.form? (some root) = some (.program list))
    (hbodied : ∀ n form, s.form? (some n) = some form → s.Bodied form)
    (hP : ∀ p, P p → (s.children (some p)).Nodup ∧
      ∀ c, s.Holds p c → P c ∧ s.parent (some c) = some p) :
    s.TreeAt root ∧ ∀ n, s.Below root n → P n := by
  have hall : ∀ n, s.Below root n → P n := by
    intro n hn
    induction hn with
    | refl => exact hroot
    | tail _ hc ih => exact ((hP _ ih).2 _ hc).1
  exact ⟨⟨hparent, hform, fun p hp => (hP p (hall p hp)).1,
    fun p c hp hc => ((hP p (hall p hp)).2 c hc).2, hbodied⟩, hall⟩

theorem Below.trans (h : s.Below a b) (h' : s.Below b c) : s.Below a c := ReflTransGen.trans h h'

theorem Below.tail (h : s.Below a b) (h' : s.Holds b c) : s.Below a c := ReflTransGen.tail h h'

@[simp] theorem Below.refl : s.Below a a := ReflTransGen.refl

theorem Holds.below (h : s.Holds a b) : s.Below a b := ReflTransGen.single h

theorem Below.of_children {l : List NodeId} (h : s.Below a b) (hl : s.children (some b) = l)
    (hc : c ∈ l) : s.Below a c := by
  subst hl
  exact h.tail hc

theorem Below.cases_tail (h : s.Below a b) : b = a ∨ ∃ p, s.Below a p ∧ s.Holds p b := by
  rcases ReflTransGen.cases_tail h with h | ⟨p, hp, hb⟩
  · exact .inl h
  · exact .inr ⟨p, hp, hb⟩

theorem Below.exists_holder (h : s.Below root n) (hr : n ≠ root) :
    ∃ p, s.Below root p ∧ s.Holds p n := h.cases_tail.resolve_left hr

theorem lt_size_of_parent {m : Slot} (h : s.parent (some n) = m) (hm : m ≠ none) : n < s.size := by
  by_contra hn
  have : s.get? (some n) = none := get?_eq_none_iff.2 (Nat.le_of_not_lt hn)
  simp [parent, this] at h
  exact hm h.symm

namespace TreeAt

variable (t : s.TreeAt root)

include t

theorem root_lt : root < s.size := by
  obtain ⟨list, h⟩ := t.root_form
  exact lt_size_of_form? h

theorem not_holds_root (hp : s.Below root p) : ¬ s.Holds p root := by
  intro h
  have := t.linked p root hp h
  rw [t.root_parent] at this
  cases this

theorem holder_unique (hp : s.Below root p) (hq : s.Below root q) (hpc : s.Holds p c)
    (hqc : s.Holds q c) : p = q := by
  have h := t.linked p c hp hpc
  rw [t.linked q c hq hqc] at h
  exact (Option.some.inj h).symm

theorem lt_size (hn : s.Below root n) : n < s.size := by
  by_cases hr : n = root
  · exact hr ▸ t.root_lt
  · obtain ⟨p, hp, hc⟩ := hn.exists_holder hr
    exact lt_size_of_parent (t.linked p n hp hc) (by simp)

theorem acyclic (hn : s.Below root n) : ¬ TransGen s.Holds n n := by
  induction hn with
  | refl =>
    intro h
    obtain ⟨p, hp, hc⟩ := TransGen.tail'_iff.1 h
    exact t.not_holds_root hp hc
  | @tail q n hq hc ih =>
    intro h
    obtain ⟨p, hp, hpc⟩ := TransGen.tail'_iff.1 h
    have hroot : s.Below root p := (hq.tail hc).trans hp
    obtain rfl : p = q := t.holder_unique hroot hq hpc hc
    exact ih (TransGen.head' hc hp)

theorem not_below_holder (hp : s.Below root p) (hc : s.Holds p c) : ¬ s.Below c p :=
  fun h => t.acyclic hp (TransGen.head' hc h)

theorem below_antisymm (ha : s.Below root a) (h : s.Below a b) (h' : s.Below b a) : a = b := by
  by_contra hne
  rcases ReflTransGen.cases_head h with rfl | ⟨c, hc, hcb⟩
  · exact hne rfl
  · exact t.not_below_holder ha hc (Below.trans hcb h')

theorem comparable (ha : s.Below root a) (hb : s.Below root b) (hax : s.Below a x)
    (hbx : s.Below b x) : s.Below a b ∨ s.Below b a := by
  induction hax with
  | refl => exact .inr hbx
  | @tail y x hay hyx ih =>
    rcases hbx.cases_tail with rfl | ⟨z, hbz, hzx⟩
    · exact .inl (hay.tail hyx)
    · obtain rfl : z = y := t.holder_unique (hb.trans hbz) (ha.trans hay) hzx hyx
      exact ih hbz

theorem below_holder (hb : s.Below root b) (hp : s.Below root p) (hc : s.Holds p c)
    (h : s.Below b c) : b = c ∨ s.Below b p := by
  rcases h.cases_tail with rfl | ⟨q, hbq, hqc⟩
  · exact .inl rfl
  · obtain rfl : q = p := t.holder_unique (hb.trans hbq) hp hqc hc
    exact .inr hbq

theorem isTree : s.IsTree root := by
  refine ⟨fun n hn => t.acyclic hn, fun n hn hr => ?_⟩
  obtain ⟨p, hp, hc⟩ := hn.exists_holder hr
  refine ⟨p, hp, t.linked p n hp hc, fun q hq => ?_⟩
  rw [← count_children]
  split
  · rename_i h
    subst h
    exact List.count_eq_one_of_mem (t.nodup q hq) hc
  · rename_i h
    exact List.count_eq_zero_of_not_mem fun hqc => h (t.holder_unique hq hp hqc hc)

end TreeAt

/-- Nothing is below both. -/
def Apart (s : Store) (a b : NodeId) : Prop := ∀ x, s.Below a x → ¬ s.Below b x

namespace Apart

theorem symm (h : s.Apart a b) : s.Apart b a := fun x hb ha => h x ha hb

theorem mono (h : s.Apart a b) (ha : s.Below a x) (hb : s.Below b y) : s.Apart x y :=
  fun z hx hy => h z (ha.trans hx) (hb.trans hy)

theorem ne (h : s.Apart a b) : a ≠ b := fun e => h a .refl (e ▸ .refl)

end Apart

instance : Std.Symm s.Apart := ⟨fun _ _ => Apart.symm⟩

theorem TreeAt.apart (t : s.TreeAt root) (ha : s.Below root a) (hb : s.Below root b)
    (hab : ¬ s.Below a b) (hba : ¬ s.Below b a) : s.Apart a b :=
  fun _ hax hbx => (t.comparable ha hb hax hbx).elim hab hba

theorem TreeAt.apart_siblings (t : s.TreeAt root) (hp : s.Below root p) (ha : s.Holds p a)
    (hb : s.Holds p b) (hne : a ≠ b) : s.Apart a b := by
  have hra : s.Below root a := hp.tail ha
  have hrb : s.Below root b := hp.tail hb
  refine t.apart hra hrb ?_ ?_
  · intro h
    rcases t.below_holder hra hp hb h with e | h
    · exact hne e
    · exact t.not_below_holder hp ha h
  · intro h
    rcases t.below_holder hrb hp ha h with e | h
    · exact hne e.symm
    · exact t.not_below_holder hp hb h

theorem TreeAt.pairwise_apart_children (t : s.TreeAt root) (hp : s.Below root p) :
    (s.children (some p)).Pairwise s.Apart := by
  refine (List.nodup_iff_pairwise_ne.1 (t.nodup p hp)).imp_of_mem ?_
  intro a b ha hb hne
  exact t.apart_siblings hp ha hb hne

end Store
end Modernizer
