import Modernizer.Proofs.Modernize
import Modernizer.Proofs.Rule.ArrowTurn

/-! Arrow functions take `this`, `super` and `arguments` from around them. A pass of the arrow rule
leaves each of these with its owner: what belongs to a function keeps the rule from it
(`MadeArrow.not_owner`), and the owners of all else come through where one function becomes an arrow
function (`MadeArrow.owner`). -/

namespace Modernizer

namespace Form

variable {n w c : NodeId} {g : Form}

theorem isFunction_of_not_sharing (h : some c ∈ g.slots) (hno : some c ∉ g.sharing) :
    g.isShell = false ∧ ∀ callee arguments, g ≠ .call callee arguments false := by
  cases g <;> first | exact absurd h hno | exact ⟨rfl, by simp⟩

theorem exchangeSlot_bne {v : Slot} (hn : c ≠ n) (hw : c ≠ w) :
    (exchangeSlot n w v != some c) = (v != some c) := by
  rw [Bool.eq_iff_iff, bne_iff_ne, bne_iff_ne]
  exact not_congr (exchangeSlot_eq_iff hn hw)

theorem mem_map_exchangeSlot {l : List Slot} (hw : some w ∉ l) (hc : c ≠ w) :
    exchangeSlot n w (some c) ∈ l.map (exchangeSlot n w) ↔ some c ∈ l := by
  refine ⟨fun h => ?_, fun h => List.mem_map_of_mem h⟩
  obtain ⟨x, hx, heq⟩ := List.mem_map.1 h
  unfold exchangeSlot at heq
  split at heq <;> split at heq
  · rename_i hxn hcn
    rw [hcn, ← hxn]
    exact hx
  · exact absurd (Option.some.inj heq).symm hc
  · exact absurd (heq ▸ hx) hw
  · exact heq ▸ hx

end Form

namespace Store

variable {s s' : Store} {root n w q m : NodeId}

theorem isReference_exchange (hq : s.parent (some m) = some q) (hq' : s'.parent (some m) = some q)
    (hform : s'.form? (some q) = (s.form? (some q)).map (·.mapSlots (Form.exchangeSlot n w)))
    (hn : m ≠ n) (hw : m ≠ w) : s'.isReference (some m) = s.isReference (some m) := by
  unfold isReference
  rw [hq, hq', hform]
  cases s.form? (some q) with
  | none => rfl
  | some g =>
    cases g <;> first | rfl | exact Form.exchangeSlot_bne hn hw

end Store

open Store

namespace Rule

variable {root f n m o p q r x : NodeId} {s s' : Store} {form : FunctionForm} {target : Capture}

namespace MadeArrow

variable (h : MadeArrow root n f form s s')

include h

theorem ne_new (hq : s.Below root q) : q ≠ s.size := h.rewrap.ne_new hq

theorem ne_place (hq : s.Kept root n (arrowOf s form) q) : q ≠ n := by
  rintro rfl
  exact h.place_not_kept hq

theorem holder_cases (hm : s.Kept root n (arrowOf s form) m) :
    (s.parent (some m) = none ∧ s'.parent (some m) = none) ∨
    (∃ q, s.parent (some m) = some q ∧ s'.parent (some m) = some q ∧
      s'.form? (some q) = (s.form? (some q)).map (·.mapSlots (Form.exchangeSlot n s.size))) ∨
    ∃ q g, s.parent (some m) = some q ∧ s.form? (some q) = some g ∧
      (g = .functionExpression form ∨ (∃ list, g = .block list) ∨ ∃ e, g = .returnStatement e) ∧
      s'.form? (s'.parent (some m)) = some (arrowOf s form) := by
  have t := h.rewrap.tree
  have t' := h.rewrap.tree'
  rcases hm.1.cases_tail with rfl | ⟨q, hq, hqm⟩
  · exact .inl ⟨t.root_parent, t'.root_parent⟩
  refine .inr ?_
  have hparent := t.linked q m hq hqm
  by_cases hkept : s.Kept root n (arrowOf s form) q
  · have hholds := h.rewrap.holds hq hqm (h.ne_place hm)
    exact .inl ⟨q, hparent, t'.linked q m (h.rewrap.below_kept hkept) hholds, h.rewrap.form q hq⟩
  · have hpart := h.rewrap.part_of_lost hq hkept hqm hm
    have hnew : s'.form? (s'.parent (some m)) = some (arrowOf s form) := by
      rw [t'.linked _ m h.rewrap.below_new (h.rewrap.holds_part hpart), h.rewrap.form_new]
    obtain ⟨-, hlost⟩ := below_of_lost hq hkept
    have hfq : s.Below f q := by
      obtain ⟨c, hc, hcm⟩ := exists_holds_of_arrowOf h.function hpart
      have hf : s.Below root f := h.rewrap.below.trans h.below
      rcases t.below_holder (hf.tail hc) hq hqm hcm with rfl | hcq
      · exact t.holder_unique hf hq hc hqm ▸ .refl
      · exact hc.below.trans hcq
    refine .inr ⟨q, ?_⟩
    rcases shell_of_function t h.function h.name hfq hlost with rfl | ⟨list, hf⟩ | ⟨e, hf⟩
    · exact ⟨_, hparent, h.function, .inl rfl, hnew⟩
    · exact ⟨_, hparent, hf, .inr (.inl ⟨list, rfl⟩), hnew⟩
    · exact ⟨_, hparent, hf, .inr (.inr ⟨e, rfl⟩), hnew⟩

theorem isReference_eq (hm : s.Kept root n (arrowOf s form) m) :
    s'.isReference (some m) = s.isReference (some m) := by
  rcases h.holder_cases hm with ⟨hp, hp'⟩ | ⟨q, hp, hp', hform⟩ | ⟨q, g, hp, hg, hcases, hnew⟩
  · simp only [isReference, hp, hp']
    rfl
  · exact isReference_exchange hp hp' hform (h.ne_place hm) (h.ne_new hm.1)
  · rw [isReference, isReference, hnew, hp, hg]
    rcases hcases with rfl | ⟨list, rfl⟩ | ⟨e, rfl⟩ <;> rfl

theorem isCapture_iff (hm : s.Kept root n (arrowOf s form) m) :
    s'.IsCapture target m ↔ s.IsCapture target m := by
  have hleaf : ∀ g : Form, g.slots = [] → (s'.form? (some m) = some g ↔ s.form? (some m) = some g) :=
    fun g hg => ⟨fun hf => h.rewrap.form_eq_of_eq hm.1 hf (by simp [hg]),
      fun hf => h.rewrap.form_eq hm.1 hf (by simp [hg])⟩
  cases target with
  | this => exact or_congr (hleaf _ rfl) (hleaf _ rfl)
  | arguments => exact and_congr (hleaf _ rfl) (by rw [h.isReference_eq hm])

theorem ne_place_of_shell {g : Form} (hq : s.form? (some q) = some g) (hg : g.isShell = true) :
    q ≠ n := by
  rintro rfl
  rcases h.site with ⟨rfl, -⟩ | hb
  · rw [h.function] at hq
    cases hq
    cases hg
  · obtain ⟨_, _, _, _, _, _, hcall, -⟩ := bindsThis_of_boundFunction? hb
    rw [hcall] at hq
    cases hq
    cases hg

theorem ne_new_of_form {g : Form} (hq : s'.form? (some q) = some g) (hg : ∀ a, g ≠ .arrow a) :
    q ≠ s.size := by
  rintro rfl
  rw [h.rewrap.form_new] at hq
  exact hg _ (Option.some.inj hq).symm

/-- What binds another function is not touched. -/
theorem bindsThis_of_old {call : NodeId} (hcall : s.Below root call)
    (hq : s.Kept root n (arrowOf s form) q) (hb : s.BindsThis call q) :
    s'.Below root call ∧ s'.BindsThis call q := by
  have hkept : s.Kept root n (arrowOf s form) call := by
    obtain ⟨_, _, _, _, _, _, hform, -⟩ := id hb
    by_contra hlost
    rcases h.lost (below_of_lost hcall hlost).1 hlost with rfl | ⟨rfl, hbinds⟩ | ⟨g, hg, hshell⟩
    · rw [h.function] at hform
      cases hform
    · have hf := boundFunction?_of_bindsThis h.rewrap.tree hcall hbinds
      rw [boundFunction?_of_bindsThis h.rewrap.tree hcall hb] at hf
      exact h.not_kept (Option.some.inj hf ▸ hq)
    · rw [hform] at hg
      cases hg
      cases hshell
  -- nor is any node of the shell the place where the arrow function is made
  have hne : ∀ i, s.InParentheses q i → i ≠ n := by
    intro i hi
    cases hi with
    | here => exact h.ne_place hq
    | wrap hi _ => exact h.ne_place_of_shell hi rfl
  have hparens : ∀ i, s.InParentheses q i → s.Below root i → s'.InParentheses q i := by
    intro i hi
    induction hi with
    | here => exact fun _ => .here
    | @wrap i e hi he ih =>
      intro hroot
      refine .wrap (h.rewrap.form_eq hroot hi ?_) (ih (hroot.tail (holds_of_form hi List.mem_cons_self)))
      simpa [Form.slots] using (hne e he).symm
  obtain ⟨access, object, name, argument, arguments, g, hform, hargs, hargument, haccess, hname,
    hin, hg⟩ := hb
  have hra : s.Below root access := hcall.tail (holds_of_form hform List.mem_cons_self)
  have hro : s.Below root object := hra.tail (holds_of_form haccess List.mem_cons_self)
  have hrn : s.Below root name :=
    hra.tail (holds_of_form haccess (List.mem_cons_of_mem _ List.mem_cons_self))
  have hrg : s.Below root argument :=
    hcall.tail (holds_of_form hform (List.mem_cons_of_mem _ (hargs ▸ List.mem_cons_self)))
  have hna := (h.ne_place_of_shell haccess rfl).symm
  have hng := (h.ne_place_of_shell hargument rfl).symm
  have hnn := (h.ne_place_of_shell hname rfl).symm
  refine ⟨h.rewrap.below_kept hkept, access, object, name, argument, arguments,
    g.mapSlots (Form.exchangeSlot n s.size), h.rewrap.form_eq hcall hform ?_, hargs,
    h.rewrap.form_eq hrg hargument (by simp [Form.slots]), h.rewrap.form_eq hra haccess ?_,
    h.rewrap.form_eq hrn hname (by simp [Form.slots]), hparens object hin hro, ?_⟩
  · simp [Form.slots, hargs, hna, hng]
  · simp [Form.slots, (hne object hin).symm, hnn]
  · rw [h.rewrap.form q hq.1, hg]
    rfl

theorem bindsThis_of_new {call : NodeId} (hcall : s'.Below root call)
    (hq : s.Kept root n (arrowOf s form) q) (hb : s'.BindsThis call q) :
    s.Below root call ∧ s.BindsThis call q := by
  obtain ⟨access, object, name, argument, arguments, g, hform, hargs, hargument, haccess, hname,
    hin, hg⟩ := hb
  have hne : ∀ i, s'.InParentheses q i → i ≠ s.size := by
    intro i hi
    cases hi with
    | here => exact h.ne_new hq.1
    | wrap hi _ => exact h.ne_new_of_form hi (by simp)
  have hparens : ∀ i, s'.InParentheses q i → s.Below root i → s.InParentheses q i := by
    intro i hi
    induction hi with
    | here => exact fun _ => .here
    | @wrap i e hi he ih =>
      intro hroot
      have hi := h.rewrap.form_eq_of_eq hroot hi (by simpa [Form.slots] using (hne e he).symm)
      exact .wrap hi (ih (hroot.tail (holds_of_form hi List.mem_cons_self)))
  have hrc : s.Below root call := by
    rcases h.rewrap.below_cases hcall with hkept | e
    · exact hkept.1
    · exact absurd e (h.ne_new_of_form hform (by simp))
  have hna := (h.ne_new_of_form haccess (by simp)).symm
  have hng := (h.ne_new_of_form hargument (by simp)).symm
  have hnn := (h.ne_new_of_form hname (by simp)).symm
  have hform := h.rewrap.form_eq_of_eq hrc hform (by simp [Form.slots, hargs, hna, hng])
  have hra : s.Below root access := hrc.tail (holds_of_form hform List.mem_cons_self)
  have haccess := h.rewrap.form_eq_of_eq hra haccess
    (by simp [Form.slots, (hne object hin).symm, hnn])
  have hro : s.Below root object := hra.tail (holds_of_form haccess List.mem_cons_self)
  have hrn : s.Below root name :=
    hra.tail (holds_of_form haccess (List.mem_cons_of_mem _ List.mem_cons_self))
  have hrg : s.Below root argument :=
    hrc.tail (holds_of_form hform (List.mem_cons_of_mem _ (hargs ▸ List.mem_cons_self)))
  obtain ⟨g', hg'⟩ : ∃ g', s.form? (some q) = some (.functionExpression g') := by
    rw [h.rewrap.form q hq.1] at hg
    obtain ⟨g', hg', heq⟩ := Option.map_eq_some_iff.1 hg
    cases g' <;> cases heq
    exact ⟨_, hg'⟩
  exact ⟨hrc, access, object, name, argument, arguments, g', hform, hargs,
    h.rewrap.form_eq_of_eq hrg hargument (by simp [Form.slots]), haccess,
    h.rewrap.form_eq_of_eq hrn hname (by simp [Form.slots]), hparens object hin hro, hg'⟩

theorem boundToThis_iff (hq : s.Kept root n (arrowOf s form) q) :
    s'.BoundToThis root q ↔ s.BoundToThis root q := by
  constructor
  · rintro ⟨call, hcall, hb⟩
    exact ⟨call, h.bindsThis_of_new hcall hq hb⟩
  · rintro ⟨call, hcall, hb⟩
    exact ⟨call, h.bindsThis_of_old hcall hq hb⟩

theorem shares_iff {c : NodeId} (hp : s.Kept root n (arrowOf s form) p) (hm : m ≠ s.size)
    (hc : Form.exchangeSlot n s.size (some m) = some c) :
    s'.Shares root target p c ↔ s.Shares root target p m := by
  have hbound := h.boundToThis_iff hp
  have hform := h.rewrap.form p hp.1
  cases hg : s.form? (some p) with
  | none =>
    rw [hg] at hform
    simp [Shares, hg, hform]
  | some g =>
    rw [hg, Option.map_some] at hform
    have hslots : some s.size ∉ g.slots := fun hw =>
      h.rewrap.loose (hp.1.tail (holds_of_form hg hw))
    have hsharing : some s.size ∉ g.sharing := fun hw => hslots (g.sharing_subset hw)
    simp only [Shares, hform, hg, Option.some.injEq, exists_eq_left', Form.slots_mapSlots,
      Form.sharing_mapSlots, ← hc, Form.mem_map_exchangeSlot hslots hm,
      Form.mem_map_exchangeSlot hsharing hm, hbound]

/-- The owner of a node is its owner afterwards, and the owner of what is lost is that of the arrow
function. -/
theorem owner (ho : s.Owner root target o m) (hne : o ≠ f) :
    (s.Kept root n (arrowOf s form) m → s'.Owner root target o m) ∧
      (¬ s.Kept root n (arrowOf s form) m → s'.Owner root target o s.size) := by
  have hplace := h.place_not_kept
  induction ho with
  | root =>
    refine ⟨fun _ => .root, fun hlost => absurd (.of_not_below .refl fun hb => ?_) hlost⟩
    exact h.rewrap.ne_root (h.rewrap.tree.below_antisymm .refl h.rewrap.below hb).symm
  | @own p m hp hm hno =>
    -- an owner is a function, so it is not lost
    obtain ⟨g, hg, hslot⟩ := form?_eq_some_of_holds hm
    have hslot : some m ∈ g.slots := by simpa [Form.children] using hslot
    have hnot : some m ∉ g.sharing := fun hin => hno ⟨g, hg, hslot, .inl hin⟩
    obtain ⟨hshell, hcall⟩ := Form.isFunction_of_not_sharing hslot hnot
    have hkept := h.kept hp hg hshell hne hcall
    have hmw : m ≠ s.size := h.ne_new (hp.tail hm)
    by_cases hmn : m = n
    · subst hmn
      exact ⟨fun hm => absurd hm hplace, fun _ => .own (h.rewrap.below_kept hkept)
        (h.rewrap.holds_new hp hm) fun hs =>
          hno ((h.shares_iff hkept hmw Form.exchangeSlot_self).1 hs)⟩
    · have hsame : Form.exchangeSlot n s.size (some m) = some m :=
        Form.exchangeSlot_of_ne (by simpa using hmn)
      exact ⟨fun _ => .own (h.rewrap.below_kept hkept) (h.rewrap.holds hp hm hmn)
        fun hs => hno ((h.shares_iff hkept hmw hsame).1 hs),
        fun hlost => absurd (h.rewrap.kept_child hkept hm hmn) hlost⟩
  | @past o p m ho hs ih =>
    have hp : s.Below root p := ho.below_root
    have hmw : m ≠ s.size := h.ne_new (hp.tail hs.holds)
    obtain ⟨ihkept, ihlost⟩ := ih hne
    by_cases hkept : s.Kept root n (arrowOf s form) p
    · by_cases hmn : m = n
      · subst hmn
        exact ⟨fun hm => absurd hm hplace, fun _ =>
          (ihkept hkept).past ((h.shares_iff hkept hmw Form.exchangeSlot_self).2 hs)⟩
      · have hsame : Form.exchangeSlot n s.size (some m) = some m :=
          Form.exchangeSlot_of_ne (by simpa using hmn)
        exact ⟨fun _ => (ihkept hkept).past ((h.shares_iff hkept hmw hsame).2 hs),
          fun hlost => absurd (h.rewrap.kept_child hkept hs.holds hmn) hlost⟩
    · refine ⟨fun hm => (ihlost hkept).past ?_, fun _ => ihlost hkept⟩
      have hpart := h.rewrap.part_of_lost hp hkept hs.holds hm
      exact ⟨_, h.rewrap.form_new, hpart, .inl hpart⟩

end MadeArrow

/-- If something of a function's own is used in it, the rule finds it. -/
theorem takes_of_owner (t : s.TreeAt root) (hf : s.form? (some f) = some (.functionExpression form))
    (hname : form.name = none) (ho : s.Owner root target f x) :
    (s.Uses target x → takes s target form = true) ∧
      (target = .this → ∀ call g, s.Below root call → s.BindsThis call g → s.Below call x →
        s.Below x g → takes s target form = true) := by
  -- what stands between a call and the function that it binds has the `this` of the call
  have hcase : ∀ {p m}, s.Below root p → s.Holds p m →
      (s.Uses target m → takes s target form = true) →
      (∀ call g, s.Below root call → s.BindsThis call g → s.Below call p → s.Below p g → p ≠ g →
        target = .this → takes s target form = true) →
      target = .this → ∀ call g, s.Below root call → s.BindsThis call g → s.Below call m →
        s.Below m g → takes s target form = true := by
    rintro p m hp hm huses habove rfl call g hcall hb hcm hmg
    rcases t.below_holder hcall hp hm hcm with rfl | hcp
    · exact huses hb.uses
    · refine habove call g hcall hb hcp (hm.below.trans hmg) ?_ rfl
      rintro rfl
      exact t.not_below_holder hp hm hmg
  generalize ho' : f = o at ho
  induction ho with
  | root =>
    obtain ⟨list, hroot⟩ := t.root_form
    rw [← ho', hf] at hroot
    cases hroot
  | @own p m hp hm hno =>
    subst ho'
    have huses : s.Uses target m → takes s target form = true := by
      intro hu
      have hcaptures := t.captures_of_uses (hp.tail hm) hu
      obtain ⟨g, hg, hslot⟩ := form?_eq_some_of_holds hm
      rw [hf] at hg
      cases hg
      have hslot : some m ∈ form.parameters.nodes ++ [form.body] := by
        simpa [Form.children, Form.slots, hname] using hslot
      rw [takes, Bool.or_eq_true, List.any_eq_true]
      rcases List.mem_append.1 hslot with hm | hm
      · exact .inr ⟨_, hm, hcaptures⟩
      · exact .inl (List.mem_singleton.1 hm ▸ hcaptures)
    refine ⟨huses, hcase hp hm huses ?_⟩
    intro call g hcall hb hcf hfg hne _
    rcases hb.between t hcall hcf hfg with rfl | e | ⟨_, _, hshell⟩ | ⟨_, hshell⟩
    · obtain ⟨_, _, _, _, _, _, hform, -⟩ := hb
      rw [hf] at hform
      cases hform
    · exact absurd e hne
    · rw [hf] at hshell
      cases hshell
    · rw [hf] at hshell
      cases hshell
  | @past o p m ho hs ih =>
    subst ho'
    obtain ⟨ihuses, ihbound⟩ := ih rfl
    have hp : s.Below root p := ho.below_root
    have huses : s.Uses target m → takes s target form = true := by
      intro hu
      obtain ⟨g, hg, hslot, hin | ⟨htarget, call, hcall, hb⟩⟩ := id hs
      · exact ihuses (.inside hg hin hu)
      · exact ihbound htarget call p hcall hb hb.below .refl
    exact ⟨huses, hcase hp hs.holds huses fun call g hcall hb hcp hpg _ htarget =>
      ihbound htarget call g hcall hb hcp hpg⟩

theorem not_owner_of_bound (hb : s.BoundToThis root f)
    (hf : s.form? (some f) = some (.functionExpression form)) (t : s.TreeAt root) :
    ¬ s.Owner root .this f x := by
  intro ho
  generalize ho' : f = o at ho
  induction ho with
  | root =>
    obtain ⟨list, hroot⟩ := t.root_form
    rw [← ho', hf] at hroot
    cases hroot
  | own hp hm hno =>
    subst ho'
    obtain ⟨g, hg, hslot⟩ := form?_eq_some_of_holds hm
    exact hno ⟨g, hg, by simpa [Form.children] using hslot, .inr ⟨rfl, hb⟩⟩
  | past _ _ ih => exact ih ho'

/-- Nothing in the tree belongs to the function. -/
theorem MadeArrow.not_owner (h : MadeArrow root n f form s s') (hr : s.IsCapture target r) :
    ¬ s.Owner root target f r := by
  intro ho
  have t := h.rewrap.tree
  have htakes := (takes_of_owner t h.function h.name ho).1 (.here hr)
  cases target with
  | arguments =>
    rw [h.free] at htakes
    cases htakes
  | this =>
    rcases h.site with ⟨-, -, -, hthis⟩ | hb
    · rw [hthis] at htakes
      cases htakes
    · exact not_owner_of_bound ⟨n, h.rewrap.below, bindsThis_of_boundFunction? hb⟩ h.function t ho

def SameOwners (root : NodeId) (s s' : Store) : Prop :=
  ∀ target r, s'.Below root r → s'.IsCapture target r → s.Below root r ∧ s.IsCapture target r ∧
    ∀ o, s'.Owner root target o r ↔ s.Owner root target o r

theorem MadeArrow.sameOwners (h : MadeArrow root n f form s s') : SameOwners root s s' := by
  intro target r hr hcapture
  have t' := h.rewrap.tree'
  have hkept : s.Kept root n (arrowOf s form) r := by
    refine (h.rewrap.below_cases hr).resolve_right ?_
    rintro rfl
    cases target with
    | this => rcases hcapture with hf | hf <;> rw [h.rewrap.form_new] at hf <;> cases hf
    | arguments =>
      have hf := hcapture.1
      rw [h.rewrap.form_new] at hf
      cases hf
  have hcapture := (h.isCapture_iff hkept).1 hcapture
  have hforward : ∀ o, s.Owner root target o r → s'.Owner root target o r := by
    intro o ho
    refine (h.owner ho ?_).1 hkept
    rintro rfl
    exact h.not_owner hcapture ho
  -- owners are unique in the tree afterwards, so the other direction comes from this one
  refine ⟨hkept.1, hcapture, fun o => ⟨fun ho => ?_, hforward o⟩⟩
  obtain ⟨o', ho'⟩ := exists_owner target hkept.1
  exact t'.owner_unique ho (hforward o' ho') ▸ ho'

/-- Each `this`, `super` and `arguments` that is in the tree after a pass has one owner, and had the
same one before. -/
theorem owner_pass (source : Text) (lines : LineMap) {p : PassState} (t : p.store.TreeAt root) :
    ∃ p', PassM.Leads (Rule.arrow.pass source lines root) p p' ∧
      ∀ target r, p'.store.Below root r → p'.store.IsCapture target r →
        p.store.Below root r ∧ p.store.IsCapture target r ∧
          ∃ o, (∀ o', p.store.Owner root target o' r ↔ o' = o) ∧
            ∀ o', p'.store.Owner root target o' r ↔ o' = o := by
  obtain ⟨p', hleads, t'⟩ :=
    pass_leads Rule.arrow (fun _ => RuleName.arrow.decides _) source lines t
  have hsame : SameOwners root p.store p'.store := by
    have hturns := turns_pass (r := .arrow) t hleads
    clear hleads t'
    induction hturns with
    | refl => exact fun _ _ hr hcapture => ⟨hr, hcapture, fun _ => .rfl⟩
    | @tail p₁ p₂ _ hturn ih =>
      obtain ⟨n, hturn⟩ := hturn
      rcases arrow_turn hturn with heq | ⟨f, form, hmade⟩
      · rw [heq]
        exact ih
      · intro target r hr hcapture
        obtain ⟨hr₁, hcapture₁, howner₁⟩ := hmade.sameOwners target r hr hcapture
        obtain ⟨hr₀, hcapture₀, howner₀⟩ := ih target r hr₁ hcapture₁
        exact ⟨hr₀, hcapture₀, fun o => (howner₁ o).trans (howner₀ o)⟩
  refine ⟨p', hleads, fun target r hr hcapture => ?_⟩
  obtain ⟨hr₀, hcapture₀, howner⟩ := hsame target r hr hcapture
  obtain ⟨o, ho⟩ := exists_owner target hr₀
  have hiff : ∀ o', p.store.Owner root target o' r ↔ o' = o := fun o' =>
    ⟨fun ho' => t.owner_unique ho' ho, fun e => e ▸ ho⟩
  exact ⟨hr₀, hcapture₀, o, hiff, fun o' => (howner o').trans (hiff o')⟩

theorem owner_pass_bound :
    let source := "f(function () { this; }.bind(this));".toList
    ∃ p p', parse source = .ok p ∧
      PassM.Leads (Rule.arrow.pass source (.ofText source) p.root) ⟨p.store, []⟩ p' ∧
      (∃ a, p'.store.form? (some 12) = some (.arrow a)) ∧ p'.store.Below p.root 1 ∧
      p.store.Owner p.root .this p.root 1 ∧ p'.store.Owner p.root .this p.root 1 := by
  intro source
  have hforms : ∀ p, parse source = .ok p → p.root = 11 ∧
      p.store.form? (some 11) = some (.program ⟨[some 10], [some 10], 0, 36⟩) ∧
      p.store.form? (some 10) = some (.expressionStatement (some 9)) ∧
      p.store.form? (some 9) = some (.call (some 0) ⟨[some 8], 2, 34⟩ false) ∧
      p.store.form? (some 8) = some (.call (some 6) ⟨[some 7], 29, 33⟩ false) ∧
      p.store.form? (some 7) = some .thisExpression ∧
      p.store.form? (some 6) = some (.member (some 4) (some 5) false) ∧
      p.store.form? (some 5) = some (.identifier "bind") ∧
      p.store.form? (some 4) = some (.functionExpression ⟨none, ⟨[], 12, 12⟩, some 3, false, false⟩) ∧
      p.store.form? (some 3) = some (.block ⟨[some 2], [some 2], 15, 22⟩) ∧
      p.store.form? (some 2) = some (.expressionStatement (some 1)) :=
    of_parse (by decide +kernel)
  have hfinal : ∀ p, parse source = .ok p →
      let final := ((Rule.arrow.pass source (.ofText source) p.root).run.run ⟨p.store, []⟩).2.store
      final.children (some 11) = [10] ∧ final.children (some 10) = [9] ∧
        final.children (some 9) = [0, 12] ∧ final.children (some 3) = [2] ∧
        final.children (some 2) = [1] ∧ final.form? (some 1) = some .thisExpression ∧
        final.form? (some 12) = some (.arrow ⟨⟨[], 12, 12⟩, some 3, false, false⟩) :=
    of_parse (by decide +kernel)
  obtain ⟨p, hp⟩ := exists_parse_of_isOk source (by decide +kernel)
  obtain ⟨hroot, h11, h10, h9, h8, h7, h6, h5, h4, h3, h2⟩ := hforms p hp
  obtain ⟨p', hleads, howner⟩ :=
    owner_pass source (.ofText source) (p := ⟨p.store, []⟩) (treeAt_of_parse hp)
  obtain ⟨h11', h10', h9', h3', h2', h1', h12'⟩ := hfinal p hp
  rw [show (Rule.arrow.pass source (.ofText source) p.root).run.run _ = _ from hleads]
    at h11' h10' h9' h3' h2' h1' h12'
  have harrow : p'.store.Below 11 12 :=
    ((Below.refl.of_children h11' (by simp)).of_children h10' (by simp)).of_children h9' (by simp)
  have hafter : p'.store.Below 11 1 :=
    ((harrow.tail (holds_of_form h12' List.mem_cons_self)).of_children h3' (by simp)).of_children
      h2' (by simp)
  have hshares : ∀ {q c : NodeId} {g : Form}, p.store.form? (some q) = some g →
      some c ∈ g.sharing → p.store.Shares 11 .this q c :=
    fun hg hc => ⟨_, hg, Form.sharing_subset _ hc, .inl hc⟩
  have hcall : p.store.Owner 11 .this 11 8 :=
    ((Owner.root.past (hshares h11 (by simp [Form.sharing, Form.slots]))).past
      (hshares h10 (by simp [Form.sharing, Form.slots]))).past
      (hshares h9 (by simp [Form.sharing, Form.slots]))
  have hbound : p.store.BoundToThis 11 4 :=
    ⟨8, hcall.isBelow.2, 6, 4, 5, 7, _, _, h8, rfl, h7, h6, h5, .here, h4⟩
  have hbefore : p.store.Owner 11 .this 11 1 :=
    (((((hcall.past (hshares h8 (by simp [Form.sharing, Form.slots]))).past
      (hshares h6 (by simp [Form.sharing, Form.slots]))).past
      ⟨_, h4, by simp [Form.slots], .inr ⟨rfl, hbound⟩⟩).past
      (hshares h3 (by simp [Form.sharing, Form.slots]))).past
      (hshares h2 (by simp [Form.sharing, Form.slots])))
  rw [← hroot] at hafter hbefore
  obtain ⟨-, -, o, hold, hnew⟩ := howner .this 1 hafter (.inl h1')
  exact ⟨p, p', hp, hleads, ⟨_, h12'⟩, hafter, hbefore, (hnew _).2 ((hold _).1 hbefore)⟩

end Rule

end Modernizer
