import Modernizer.Proofs.Tree.Pieces

/-! A node that gave way to a new one around parts from below it. Of the old node only these parts are
kept; all other nodes stay, and have the new node where they had the old one. So each node that can
be reached afterwards was there before, but for the new one (`Rewrap.below_cases`). -/

namespace Modernizer.Store

variable {s s' : Store} {root a c m n q w : NodeId} {new form : Form} {F D : List NodeId}

/-- Reachable, and if below `n`, at or below a child of the new form. -/
def Kept (s : Store) (root n : NodeId) (new : Form) (m : NodeId) : Prop :=
  s.Below root m ∧ (s.Below n m → ∃ a, some a ∈ new.slots ∧ s.Below a m)

theorem Kept.of_not_below (hm : s.Below root m) (hn : ¬ s.Below n m) : s.Kept root n new m :=
  ⟨hm, fun hb => absurd hb hn⟩

theorem below_of_lost (hm : s.Below root m) (hlost : ¬ s.Kept root n new m) :
    s.Below n m ∧ ∀ a, some a ∈ new.slots → ¬ s.Below a m := by
  simpa [Kept, hm] using hlost

/-- In `s'` the node `w` stands where `n` stood in `s`, around parts from below `n`. -/
structure Rewrap (root n w : NodeId) (new : Form) (s s' : Store) : Prop where
  tree : s.TreeAt root
  tree' : s'.TreeAt root
  below : s.Below root n
  ne_root : n ≠ root
  loose : ¬ s.Below root w
  form_new : s'.form? (some w) = some new
  form : ∀ m, s.Below root m →
    s'.form? (some m) = (s.form? (some m)).map (·.mapSlots (Form.exchangeSlot n w))
  parts : ∀ a, some a ∈ new.slots → s.Below n a

theorem rewrap_of_replace? (t : s.TreeAt root) (hn : s.Below root n) (hr : n ≠ root)
    (hblock : ¬ s.IsBlock n) (hb : s.Bodied new) (h : s.Pieces n (present new.slots))
    (hs : (s.synthesize new).2.replace? (some n) (some s.size) = some s') :
    Rewrap root n s.size new s s' := by
  have hR : ∀ r, r = n → s.Below root r := fun r hr => hr ▸ hn
  have ha := Adds.synthesize t hb
  have hblock' : ¬ (s.synthesize new).2.IsBlock n := by
    rw [IsBlock, ha.form hn]
    exact hblock
  have hscion := Scion.enclose t hb (h.stock (R := (· = n)) rfl).scion hR
  obtain ⟨s'', hs'', g, p, hp, hc, -, hform, hplace⟩ :=
    replace?_graft ha.tree (ha.below hn) hr hblock' hscion List.mem_cons_self
  cases hs.symm.trans hs''
  have hp : s.Below root p := (Graft.gained ha p hp).elim id False.elim
  have hloose : ¬ s.Below root s.size := fun h => Nat.lt_irrefl _ (t.lt_size h)
  refine ⟨t, g.tree, hn, hr, hloose, ?_, fun m hm => ?_, fun a ha => h.below a (mem_present.2 ha)⟩
  · rw [hform s.size fun e => hloose (e ▸ hp)]
    simp [form?, get?_synthesize]
  · by_cases hmp : m = p
    · rw [hmp, hplace, ha.form hp]
    rw [hform m hmp, ha.form hm]
    cases hf : s.form? (some m) with
    | none => rfl
    | some f =>
      -- only one node holds the old one
      have hself : f.mapSlots (Form.exchangeSlot n s.size) = f := Form.mapSlots_eq_self fun x hx => by
        refine Form.exchangeSlot_of_ne ?_
        rintro rfl
        refine hmp (ha.tree.holder_unique (ha.below hm) (ha.below hp) ?_ hc)
        exact holds_of_form ((ha.form hm).trans hf) hx
      rw [Option.map_some, hself]

namespace Rewrap

variable (h : Rewrap root n w new s s')

include h

theorem ne_new (hm : s.Below root m) : m ≠ w := fun e => h.loose (e ▸ hm)

theorem holds_iff (hm : s.Below root m) :
    s'.Holds m c ↔ (s.Holds m c ∧ c ≠ n) ∨ (c = w ∧ s.Holds m n) := by
  have hkids : s'.children (some m) = (s.children (some m)).map fun c => if c = n then w else c := by
    unfold children
    rw [h.form m hm]
    cases s.form? (some m) <;> simp [Form.children_mapSlots]
  rw [Holds, hkids, List.mem_map]
  constructor
  · rintro ⟨d, hd, rfl⟩
    split
    · rename_i e
      exact .inr ⟨rfl, e ▸ hd⟩
    · rename_i e
      exact .inl ⟨hd, e⟩
  · rintro (⟨hc, e⟩ | ⟨rfl, hc⟩)
    · exact ⟨c, hc, if_neg e⟩
    · exact ⟨n, hc, if_pos rfl⟩

theorem holds (hm : s.Below root m) (hc : s.Holds m c) (hne : c ≠ n) : s'.Holds m c :=
  (h.holds_iff hm).2 (.inl ⟨hc, hne⟩)

theorem holds_new (hm : s.Below root m) (hc : s.Holds m n) : s'.Holds m w :=
  (h.holds_iff hm).2 (.inr ⟨rfl, hc⟩)

theorem holds_part (ha : some a ∈ new.slots) : s'.Holds w a := holds_of_form h.form_new ha

theorem kept_part (ha : some a ∈ new.slots) : s.Kept root n new a :=
  ⟨h.below.trans (h.parts a ha), fun _ => ⟨a, ha, .refl⟩⟩

theorem kept_child (hq : s.Kept root n new q) (hc : s.Holds q c) (hne : c ≠ n) :
    s.Kept root n new c := by
  refine ⟨hq.1.tail hc, fun hb => ?_⟩
  rcases h.tree.below_holder h.below hq.1 hc hb with e | hb
  · exact absurd e.symm hne
  · obtain ⟨a, ha, hab⟩ := hq.2 hb
    exact ⟨a, ha, hab.tail hc⟩

theorem part_of_lost (hq : s.Below root q) (hlost : ¬ s.Kept root n new q) (hc : s.Holds q c)
    (hkept : s.Kept root n new c) : some c ∈ new.slots := by
  obtain ⟨hnq, hparts⟩ := below_of_lost hq hlost
  obtain ⟨a, ha, hac⟩ := hkept.2 (hnq.tail hc)
  rcases h.tree.below_holder (h.below.trans (h.parts a ha)) hq hc hac with rfl | haq
  · exact ha
  · exact absurd haq (hparts a ha)

theorem below_of_not_below (hm : s.Below root m) (hn : ¬ s.Below n m) : s'.Below root m := by
  induction hm with
  | refl => exact .refl
  | @tail q m hq hc ih =>
    have hne : m ≠ n := fun e => hn (e ▸ .refl)
    exact (ih fun hb => hn (hb.tail hc)).tail (h.holds hq hc hne)

theorem below_new : s'.Below root w := by
  obtain ⟨p, hp, hc⟩ := h.below.exists_holder h.ne_root
  have hnp : ¬ s.Below n p := h.tree.not_below_holder hp hc
  exact (h.below_of_not_below hp hnp).tail (h.holds_new hp hc)

theorem below_part (ha : some a ∈ new.slots) (hm : s.Below a m) : s'.Below a m := by
  induction hm with
  | refl => exact .refl
  | @tail q m hq hc ih =>
    -- below a part the old node does not occur, so nothing was exchanged
    have hnq : s.Below n q := (h.parts a ha).trans hq
    have hq' : s.Below root q := h.below.trans hnq
    refine ih.tail (h.holds hq' hc ?_)
    rintro rfl
    exact h.tree.not_below_holder hq' hc hnq

theorem below_kept (hm : s.Kept root n new m) : s'.Below root m := by
  by_cases hb : s.Below n m
  · obtain ⟨a, ha, hab⟩ := hm.2 hb
    exact (h.below_new.tail (h.holds_part ha)).trans (h.below_part ha hab)
  · exact h.below_of_not_below hm.1 hb

theorem below_of_kept (ha : s.Kept root n new a) (hm : s.Below a m) :
    (s.Kept root n new m → s'.Below a m) ∧ (¬ s.Kept root n new m → s'.Below a w) := by
  induction hm with
  | refl => exact ⟨fun _ => .refl, fun hlost => absurd ha hlost⟩
  | @tail q m hq hc ih =>
    have hq : s.Below root q := ha.1.trans hq
    by_cases hkept : s.Kept root n new q
    · have hq' := ih.1 hkept
      by_cases hmn : m = n
      · -- the old node itself: if it is kept, it is a part of the new one
        subst hmn
        have hw : s'.Below a w := hq'.tail (h.holds_new hq hc)
        refine ⟨fun hm => ?_, fun _ => hw⟩
        obtain ⟨d, hd, hdm⟩ := hm.2 .refl
        obtain rfl := h.tree.below_antisymm h.below (h.parts d hd) hdm
        exact hw.tail (h.holds_part hd)
      · exact ⟨fun _ => hq'.tail (h.holds hq hc hmn),
          fun hlost => absurd (h.kept_child hkept hc hmn) hlost⟩
    · exact ⟨fun hm => (ih.2 hkept).tail (h.holds_part (h.part_of_lost hq hkept hc hm)),
        fun _ => ih.2 hkept⟩

theorem below_cases (hm : s'.Below root m) : s.Kept root n new m ∨ m = w := by
  induction hm with
  | refl =>
    refine .inl (.of_not_below .refl fun hb => h.ne_root ?_)
    exact (h.tree.below_antisymm .refl h.below hb).symm
  | @tail q m _ hc ih =>
    rcases ih with hq | rfl
    · rcases (h.holds_iff hq.1).1 hc with ⟨hc, hne⟩ | ⟨e, -⟩
      · exact .inl (h.kept_child hq hc hne)
      · exact .inr e
    · rw [holds_iff_mem_slots, slots, h.form_new] at hc
      exact .inl (h.kept_part hc)

theorem form_eq (hm : s.Below root m) (hf : s.form? (some m) = some form)
    (hn : some n ∉ form.slots) : s'.form? (some m) = some form := by
  have hself : form.mapSlots (Form.exchangeSlot n w) = form := Form.mapSlots_eq_self fun x hx => by
    refine Form.exchangeSlot_of_ne ?_
    rintro rfl
    exact hn hx
  rw [h.form m hm, hf, Option.map_some, hself]

theorem form_eq_of_eq (hm : s.Below root m) (hf : s'.form? (some m) = some form)
    (hw : some w ∉ form.slots) : s.form? (some m) = some form := by
  have hmap := h.form m hm
  rw [hf] at hmap
  obtain ⟨f, hf', rfl⟩ := Option.map_eq_some_iff.1 hmap.symm
  rw [hf']
  refine congrArg some (Form.mapSlots_eq_self fun x hx => ?_).symm
  refine Form.exchangeSlot_of_ne ?_
  rintro rfl
  refine hw ?_
  rw [Form.slots_mapSlots, List.mem_map]
  exact ⟨some n, hx, Form.exchangeSlot_self⟩

end Rewrap

end Modernizer.Store
