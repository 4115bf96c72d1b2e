import Modernizer.Proofs.Tree.Regraft

/-! Replacing a node, and giving a container other statements. Both are grafts when what comes in is
a new part around pieces of what goes, and both succeed where the tree has what they ask for. -/

namespace Modernizer

namespace Form

/-- Puts one child in the place of another. -/
def exchangeSlot (n w : NodeId) (slot : Slot) : Slot := if slot = some n then some w else slot

theorem exchangeSlot_of_ne {c w : NodeId} {v : Slot} (h : v ≠ some c) : exchangeSlot c w v = v :=
  if_neg h

theorem exchangeSlot_self {c w : NodeId} : exchangeSlot c w (some c) = some w := if_pos rfl

theorem exchangeSlot_eq_iff {c d w : NodeId} {v : Slot} (hc : d ≠ c) (hw : d ≠ w) :
    exchangeSlot c w v = some d ↔ v = some d := by
  unfold exchangeSlot
  split
  · rename_i hv
    rw [hv]
    exact iff_of_false (fun e => hw (Option.some.inj e).symm) fun e => hc (Option.some.inj e).symm
  · rfl

theorem children_mapSlots (f : Form) (n w : NodeId) :
    (f.mapSlots (exchangeSlot n w)).children =
      f.children.map fun c => if c = n then w else c := by
  rw [children, children, slots_mapSlots, List.filterMap_map, List.map_filterMap]
  refine List.filterMap_congr fun slot _ => ?_
  cases slot with
  | none => rfl
  | some c => by_cases h : c = n <;> simp [exchangeSlot, h]

theorem functionBody_mapSlots (f : Form) {g : Slot → Slot} (hg : g none = none) :
    (f.mapSlots g).functionBody = g f.functionBody := by
  cases f <;> simp [mapSlots, functionBody, FunctionForm.mapSlots, hg]

theorem mapSlots_eq_self {f : Form} {g : Slot → Slot} (h : ∀ x ∈ f.slots, g x = x) :
    f.mapSlots g = f := by
  have hmap : ∀ {l : List Slot}, (∀ x ∈ l, g x = x) → l.map g = l := fun hl =>
    (List.map_congr_left hl).trans (List.map_id _)
  cases f with
  | new e arguments => cases arguments <;> simp_all [mapSlots, slots, NodeList.map]
  | _ => simp_all [mapSlots, slots, NodeList.map, StatementList.map, FunctionForm.mapSlots,
      ClassForm.mapSlots]

end Form

namespace Store

variable {s s' : Store} {root c n p w : NodeId} {F D ns : List NodeId}

theorem form?_eq_some_of_holds (h : s.Holds p c) : ∃ f, s.form? (some p) = some f ∧
    c ∈ f.children := by
  unfold Holds children at h
  cases hf : s.form? (some p) with
  | none => rw [hf] at h; cases h
  | some f => exact ⟨f, rfl, by rw [hf] at h; exact h⟩

theorem get?_of_form? {m : Slot} {f : Form} (h : s.form? m = some f) :
    ∃ x, s.get? m = some x ∧ x.form = f := by
  unfold form? at h
  cases hx : s.get? m with
  | none => rw [hx] at h; cases h
  | some x => exact ⟨x, rfl, by rw [hx] at h; exact Option.some.inj h⟩

theorem exists_get? (h : n < s.size) : ∃ x, s.get? (some n) = some x :=
  Option.ne_none_iff_exists'.1 fun h' => absurd (get?_eq_none_iff.1 h') (Nat.not_le_of_lt h)

theorem TreeAt.exists_form? (t : s.TreeAt root) (hn : s.Below root n) :
    ∃ f, s.form? (some n) = some f := by
  obtain ⟨x, hx⟩ := exists_get? (t.lt_size hn)
  exact ⟨x.form, by rw [form?, hx]; rfl⟩

/-- In `s₁` the node `w` has the slot of `n` below `p`, and `p` is its parent. -/
structure Swapped (p n w : NodeId) (s s₁ : Store) : Prop where
  size : s₁.size = s.size
  synthesized : ∀ m, s₁.isSynthesized m = s.isSynthesized m
  form_place : s₁.form? (some p) = (s.form? (some p)).map (·.mapSlots (Form.exchangeSlot n w))
  form : ∀ m, m ≠ p → s₁.form? (some m) = s.form? (some m)
  parent_new : s₁.parent (some w) = some p
  parent : ∀ m, m ≠ w → s₁.parent (some m) = s.parent (some m)

namespace Swapped

variable {s₁ : Store} (h : Swapped p n w s s₁)

include h

theorem children : s₁.children (some p) =
    (s.children (some p)).map fun c => if c = n then w else c := by
  unfold Store.children
  rw [h.form_place]
  cases s.form? (some p) <;> simp [Form.children_mapSlots]

theorem holds_new (hc : s.Holds p n) : s₁.Holds p w := by
  rw [Holds, h.children, List.mem_map]
  exact ⟨n, hc, if_pos rfl⟩

theorem isBlock {b : NodeId} (hb : s.IsBlock b) : s₁.IsBlock b := by
  obtain ⟨list, hl⟩ := hb
  by_cases hbp : b = p
  · subst hbp
    exact ⟨list.map (Form.exchangeSlot n w), by rw [h.form_place, hl]; rfl⟩
  · exact ⟨list, (h.form b hbp).trans hl⟩

theorem bodied (hn : ¬ s.IsBlock n) (hs : ∀ m form, s.form? (some m) = some form → s.Bodied form) :
    ∀ m form, s₁.form? (some m) = some form → s₁.Bodied form := by
  intro m form hf b hb
  by_cases hmp : m = p
  · subst hmp
    rw [h.form_place] at hf
    obtain ⟨f, hfm, rfl⟩ := Option.map_eq_some_iff.1 hf
    rw [Form.functionBody_mapSlots f (by simp [Form.exchangeSlot])] at hb
    unfold Form.exchangeSlot at hb
    split at hb
    · rename_i hfn
      exact absurd (hs m f hfm n hfn) hn
    · exact h.isBlock (hs m f hfm b hb)
  · exact h.isBlock (hs m form ((h.form m hmp).symm.trans hf) b hb)

theorem exchange (t : s.TreeAt root) (hb : ¬ s.IsBlock n) (hp : s.Below root p) (hc : s.Holds p n)
    (hs : s.Scion root (· = n) [w] F D) (hw : w ∈ F) : Exchange root p (· = n) [w] F D s s₁ where
  place := hp
  scion := hs
  roots c hc := List.mem_singleton.1 hc ▸ hw
  removed r hr := hr ▸ hc
  some_removed := ⟨n, rfl⟩
  size := h.size
  form := h.form
  synthesized := h.synthesized
  parent m hm := h.parent m fun e => hm (e ▸ hw)
  root_form := by
    rintro rfl
    obtain ⟨list, hl⟩ := t.root_form
    exact ⟨_, by rw [h.form_place, hl]; rfl⟩
  isBlock _ := h.isBlock
  bodied := h.bodied hb t.bodied
  nodup := by
    have hfresh : ∀ c, s.Holds p c → c ≠ w := fun c hc e => hs.loose w hw (e ▸ hp.tail hc)
    rw [h.children]
    refine (t.nodup p hp).map_on fun x hx y hy hxy => ?_
    have hx := hfresh x hx
    have hy := hfresh y hy
    grind
  children c hc := by
    rw [Holds, h.children, List.mem_map] at hc
    obtain ⟨x, hx, rfl⟩ := hc
    split
    · exact .inr List.mem_cons_self
    · rename_i hxn
      exact .inl ⟨hx, hxn⟩
  kept c hc hcn := by
    rw [Holds, h.children, List.mem_map]
    exact ⟨c, hc, if_neg hcn⟩

/-- Adoption completes the exchange. -/
theorem graft (t : s.TreeAt root) (hb : ¬ s.IsBlock n) (hp : s.Below root p) (hc : s.Holds p n)
    (hs : s.Scion root (· = n) [w] F D) (hw : w ∈ F) :
    Graft root (· = n) (· ∈ F) s (s₁.adoptChildren w) := by
  have e := h.exchange t hb hp hc hs hw
  have hW : ∀ q, s₁.Below w q → Exchange.Kept s root (· = n) F D q :=
    fun q hq => e.kept_of_below t (.inr (.inl hw)) hq
  have hlink := (relinks_adoptChildren w s₁).mono hW
  have hsyn : s₁.isSynthesized (some w) = true :=
    (h.synthesized _).trans (hs.sprout.synthesized w hw)
  have hlt : ∀ f ∈ F, ∀ c, s₁.Holds f c → c < s₁.size := fun f hf c hc =>
    e.lt_size t (e.kept_child t (.inr (.inl hf)) hc)
  refine e.graft t hlink ?_ ?_
  · intro c hcw
    obtain rfl := List.mem_singleton.1 hcw
    refine hlink.keeps (fun q hq hqc => ?_) h.parent_new
    exact e.unique t q p c hq (.inl (e.outside_place t)) hqc (h.holds_new hc)
  · intro f hf c hfc
    have had : s₁.adoptChildren w = adoptEach (s₁.size + 1) [w] s₁ := by
      rw [adoptEach_cons, adoptEach, List.foldr_nil, if_pos hsyn, adoptChildren]
    rw [had]
    refine (e.sprout.adopted (e.unique t) (fun m hm => List.mem_singleton.1 hm ▸ hW) hlt
      (fun _ => rfl) (fun _ => rfl) rfl
      (fun f hf => Nat.lt_succ_of_lt (e.sprout.lt_size f hf)) f hf).2 c ?_
    rwa [Holds, e.children_eq (e.ne_place_of_mem hf)]

end Swapped

/-- What replacing a child by a loose node comes to: the exchange of one slot, adoption, and changes
that do not touch the tree. -/
theorem replace?_eq (t : s.TreeAt root) (hp : s.Below root p) (hc : s.Holds p n) (hw : w < s.size)
    (hsyn : s.isSynthesized (some w) = true) :
    ∃ s₁ s', s.replace? (some n) (some w) = some s' ∧ Swapped p n w s s₁ ∧
      SameTree (s₁.adoptChildren w) s' := by
  obtain ⟨node, hnode⟩ := exists_get? (t.lt_size (hp.tail hc))
  have hparent : node.parent = some p := by
    simpa only [Store.parent, hnode, Option.bind_some] using t.linked p n hp hc
  obtain ⟨f, hf, hcf⟩ := form?_eq_some_of_holds hc
  have hslot : f.slots.contains (some n) = true := by simpa [Form.children] using hcf
  let origin := if node.synthesized && node.origin.isSome then node.origin else some n
  let place : Node → Node := ({ · with form := f.mapSlots (Form.exchangeSlot n w) })
  let link : Node → Node := fun x =>
    if x.synthesized then { x with parent := some p, pos := node.pos, stop := node.stop, origin }
    else { x with parent := some p }
  have hlink : ∀ x, (link x).form = x.form ∧ (link x).synthesized = x.synthesized ∧
      (link x).parent = some p := fun x => by
    simp only [link]
    split <;> exact ⟨rfl, rfl, rfl⟩
  let s₁ := (s.modify (some p) place).modify (some w) link
  -- up to here the holder has the new child, and nothing below this is linked yet
  have hswap : Swapped p n w s s₁ := by
    have hform : ∀ m, s₁.form? m = (s.modify (some p) place).form? m := fun m => by
      rw [form?_modify]
      split
      · simp only [(hlink _).1]; rfl
      · rfl
    refine ⟨by simp [s₁], fun m => ?_, ?_, fun m hm => ?_, ?_, fun m hm => ?_⟩
    · rw [isSynthesized_modify _ _ _ link fun x => (hlink x).2.1,
        isSynthesized_modify _ _ _ place fun _ => rfl]
    · obtain ⟨x, hx, -⟩ := get?_of_form? hf
      rw [hform, form?_modify, if_pos rfl, hx, hf]
      rfl
    · rw [hform, form?_modify, if_neg fun h => hm (Option.some.inj h).symm]
    · obtain ⟨x, hx⟩ := exists_get? (s := s.modify (some p) place) (n := w) (by simpa using hw)
      rw [parent_modify, if_pos rfl, hx]
      exact (hlink x).2.2
    · rw [parent_modify, if_neg fun h => hm (Option.some.inj h).symm, parent_modify]
      split <;> rfl
  have hadopt : (if s₁.isSynthesized (some w) then (some w : Slot).elim s₁ s₁.adoptChildren
      else s₁) = s₁.adoptChildren w := if_pos ((hswap.synthesized _).trans hsyn)
  let s₂ := s₁.adoptChildren w
  let s₃ := s₂.setAttached (some n) .none
  let s₄ := s₃.setAttached (some w) ((s₃.attachedTo (some w)).append (s₂.attachedTo (some n)))
  have heq : s.replace? (some n) (some w) = some (s₄.markModified (some p)) := by
    rw [replace?, hnode, Option.bind_some, hparent, hf, Option.bind_some, if_pos hslot]
    simp only [s₄, s₃, s₂]
    rw [← hadopt]
    rfl
  exact ⟨s₁, _, heq, hswap, ((sameTree_setAttached s₂ _ _).trans
    (sameTree_setAttached s₃ _ _)).trans (sameTree_markModified s₄ _)⟩

theorem replace?_graft (t : s.TreeAt root) (hn : s.Below root n) (hr : n ≠ root)
    (hb : ¬ s.IsBlock n) (h : s.Scion root (· = n) [w] F D) (hw : w ∈ F) :
    ∃ s', s.replace? (some n) (some w) = some s' ∧ Graft root (· = n) (· ∈ F) s s' ∧
      ∃ p, s.Below root p ∧ s.Holds p n ∧ s'.Holds p w ∧
        (∀ m, m ≠ p → s'.form? (some m) = s.form? (some m)) ∧
        s'.form? (some p) = (s.form? (some p)).map (·.mapSlots (Form.exchangeSlot n w)) := by
  obtain ⟨p, hp, hc⟩ := hn.exists_holder hr
  obtain ⟨s₁, s', hs', hswap, hsame⟩ := replace?_eq t hp hc (h.sprout.lt_size w hw)
    (h.sprout.synthesized w hw)
  have g := hswap.graft t hb hp hc h hw
  have hform : ∀ m, s'.form? m = s₁.form? m := fun m =>
    (hsame.form m).trans ((relinks_adoptChildren w s₁).form m)
  refine ⟨s', hs', g.trans (.of_sameTree g.tree hsame), p, hp, hc, ?_, fun m hm => ?_, ?_⟩
  · rw [holds_congr hform]
    exact hswap.holds_new hc
  · exact (hform _).trans (hswap.form m hm)
  · exact (hform _).trans hswap.form_place

/-! Statements of containers. -/

theorem statementList?_slots {f : Form} {list : StatementList} (h : f.statementList? = some list) :
    ∃ head, f.slots = head ++ list.statements ∧ ∀ statements,
      (f.withStatements statements).slots = head ++ statements ∧
      (f.withStatements statements).statementList? = some { list with statements } := by
  cases f <;> simp only [Form.statementList?, Option.some.injEq, reduceCtorEq] at h <;> subst h
  · exact ⟨[], rfl, fun _ => ⟨rfl, rfl⟩⟩
  · exact ⟨[], rfl, fun _ => ⟨rfl, rfl⟩⟩
  · exact ⟨[_], rfl, fun _ => ⟨rfl, rfl⟩⟩

theorem statementList?_eq_some {list : StatementList} (h : s.statementList? (some n) = some list) :
    ∃ f, s.form? (some n) = some f ∧ f.statementList? = some list := by
  unfold statementList? at h
  cases hf : s.form? (some n) with
  | none => rw [hf] at h; cases h
  | some f => exact ⟨f, rfl, by rw [hf] at h; exact h⟩

theorem holds_of_mem_statements {list : StatementList}
    (h : s.statementList? (some n) = some list) (hc : some c ∈ list.statements) : s.Holds n c := by
  obtain ⟨f, hf, hl⟩ := statementList?_eq_some h
  obtain ⟨head, hslots, -⟩ := statementList?_slots hl
  rw [holds_iff_mem_slots, slots, hf, Option.map_some, Option.getD_some, hslots]
  exact List.mem_append_right head hc

theorem TreeAt.nodup_statements (t : s.TreeAt root) (hn : s.Below root n) {list : StatementList}
    (hlist : s.statementList? (some n) = some list) : (present list.statements).Nodup := by
  obtain ⟨f, hf, hl⟩ := statementList?_eq_some hlist
  obtain ⟨head, hslots, -⟩ := statementList?_slots hl
  have hkids : s.children (some n) = present head ++ present list.statements := by
    rw [children_eq_slots, slots, hf, Option.map_some, Option.getD_some, hslots, present_append]
  exact (hkids ▸ t.nodup n hn).of_append_right

theorem foldl_plant (slots : List Slot) (s : Store) :
    slots.foldl (fun s statement =>
      let s := s.setParent statement (some n)
      if s.isSynthesized statement then statement.elim s s.adoptChildren else s) s =
      (present slots).foldl (plant n) s := by
  induction slots generalizing s with
  | nil => rfl
  | cons e slots ih =>
    cases e with
    | none => exact ih s
    | some c => exact ih (plant n s c)

end Store

namespace Replacement

/-- The statements that a replacement takes away. -/
def Claims (r : Replacement) (c : NodeId) : Prop := some c ∈ r.anchor :: r.others

variable {r : Replacement} {l : List Slot} {a c : NodeId}

theorem result_eq (h : some a ∈ l) (ha : r.anchor = some a) : ∃ pre post,
    l = pre ++ some a :: post ∧ r.result l =
      pre.filter (!r.others.contains ·) ++ r.replacements ++ post.filter (!r.others.contains ·) := by
  have hi : l.idxOf (some a) < l.length := List.idxOf_lt_length_of_mem h
  refine ⟨l.take (l.idxOf (some a)), l.drop (l.idxOf (some a) + 1), ?_, by rw [result, ha]⟩
  calc l = l.take (l.idxOf (some a)) ++ l.drop (l.idxOf (some a)) := (List.take_append_drop ..).symm
    _ = l.take (l.idxOf (some a)) ++ some a :: l.drop (l.idxOf (some a) + 1) := by
      rw [List.drop_eq_getElem_cons hi, List.getElem_idxOf hi]

end Replacement

namespace Store

variable {s s' : Store} {root c n : NodeId} {F D ns : List NodeId} {r : Replacement}
  {list : StatementList}

/-- A replacement for a container with these statements, which brings a new part. -/
structure Fits (s : Store) (root n : NodeId) (list : StatementList) (r : Replacement)
    (ns F D : List NodeId) : Prop where
  parent : r.parent = some n
  anchor : ∃ a, r.anchor = some a ∧ some a ∈ list.statements
  others : ∀ o ∈ r.others, ∃ c, o = some c ∧ some c ∈ list.statements
  replacements : r.replacements = ns.map some
  scion : s.Scion root r.Claims ns F D
  roots : ∀ c ∈ ns, c ∈ F

/-- The container with its new statements, before these are planted. -/
def resequenced (s : Store) (n : NodeId) (list : StatementList) (r : Replacement) : Store :=
  (s.adoptAnchorSpan r.anchor r.replacements).modify (some n) fun x =>
    { x with form := x.form.withStatements (r.result list.statements) }

theorem form?_resequenced {f : Form} (hf : s.form? (some n) = some f) :
    (s.resequenced n list r).form? (some n) =
      some (f.withStatements (r.result list.statements)) := by
  have hsame := sameTree_adoptAnchorSpan s r.anchor r.replacements
  obtain ⟨x, hx, hxf⟩ := get?_of_form? ((hsame.form (some n)).trans hf)
  rw [resequenced, form?_modify, if_pos rfl, hx, Option.map_some, hxf]

theorem form?_resequenced_ne {m : NodeId} (hm : m ≠ n) :
    (s.resequenced n list r).form? (some m) = s.form? (some m) := by
  rw [resequenced, form?_modify, if_neg fun e => hm (Option.some.inj e).symm,
    (sameTree_adoptAnchorSpan ..).form]

theorem isBlock_resequenced (hlist : s.statementList? (some n) = some list) {b : NodeId}
    (hb : s.IsBlock b) : (s.resequenced n list r).IsBlock b := by
  obtain ⟨f, hf, hl⟩ := statementList?_eq_some hlist
  obtain ⟨l, hb⟩ := hb
  by_cases hbn : b = n
  · subst hbn
    rw [hf] at hb
    cases hb
    exact ⟨_, form?_resequenced hf⟩
  · exact ⟨l, (form?_resequenced_ne hbn).trans hb⟩

theorem bodied_resequenced (t : s.TreeAt root) (hlist : s.statementList? (some n) = some list) :
    ∀ m form, (s.resequenced n list r).form? (some m) = some form →
      (s.resequenced n list r).Bodied form := by
  obtain ⟨f, hf, hl⟩ := statementList?_eq_some hlist
  intro m form hm
  by_cases hmn : m = n
  · subst hmn
    rw [form?_resequenced hf] at hm
    refine .of_none ?_
    cases f <;> simp only [Form.statementList?, reduceCtorEq] at hl <;> cases hm <;> rfl
  · exact fun b hb => isBlock_resequenced hlist
      (t.bodied m form ((form?_resequenced_ne hmn).symm.trans hm) b hb)

theorem statementList?_resequenced (hlist : s.statementList? (some n) = some list) :
    (s.resequenced n list r).statementList? (some n) =
      some { list with statements := r.result list.statements } := by
  obtain ⟨f, hf, hl⟩ := statementList?_eq_some hlist
  obtain ⟨_, -, hwith⟩ := statementList?_slots hl
  rw [statementList?, form?_resequenced hf]
  exact (hwith _).2

namespace Fits

variable (h : s.Fits root n list r ns F D)

include h

theorem mem_of_claims (hc : r.Claims c) : some c ∈ list.statements := by
  obtain ⟨a, ha, hal⟩ := h.anchor
  rcases List.mem_cons.1 hc with e | hc
  · rwa [e, ha]
  · obtain ⟨c', e, hc'⟩ := h.others _ hc
    rwa [e]

theorem applyReplacement_eq (hlist : s.statementList? (some n) = some list) :
    s.applyReplacement r = .ok (((present (r.result list.statements)).foldl (plant n)
      (s.resequenced n list r)).markListEdited (some n)) := by
  obtain ⟨a, ha, hal⟩ := h.anchor
  have hfind : r.others.find? (!list.statements.contains ·) = none := by
    rw [List.find?_eq_none]
    intro o ho
    obtain ⟨c, rfl, hc⟩ := h.others o ho
    simpa using hc
  have hset : (s.adoptAnchorSpan r.anchor r.replacements).statementList? (some n) = some list := by
    rw [statementList?, (sameTree_adoptAnchorSpan ..).form]
    exact hlist
  unfold applyReplacement
  have hcontains : list.statements.contains (some a) = true := by simpa using hal
  simp only [h.parent, hlist, ha, hcontains, hfind]
  rw [if_neg (by decide), ← ha, setStatements?, hset, Option.map_some, Option.getD_some]
  exact congrArg (fun s => Except.ok (markListEdited s (some n))) (foldl_plant _ _)

/-- The children afterwards: those that are not claimed, with the new ones among them. -/
theorem children_resequenced (t : s.TreeAt root) (hn : s.Below root n)
    (hlist : s.statementList? (some n) = some list) :
    ∃ before after, (s.resequenced n list r).children (some n) = before ++ ns ++ after ∧
      (before ++ after).Nodup ∧ ∀ c, c ∈ before ++ after ↔ s.Holds n c ∧ ¬ r.Claims c := by
  obtain ⟨f, hf, hl⟩ := statementList?_eq_some hlist
  obtain ⟨head, hslots, hwith⟩ := statementList?_slots hl
  obtain ⟨a, ha, hal⟩ := h.anchor
  obtain ⟨pre, post, hpp, hres⟩ := Replacement.result_eq hal ha
  have hkids : s.children (some n) = present head ++ (present pre ++ a :: present post) := by
    rw [children_eq_slots, slots, hf, Option.map_some, Option.getD_some, hslots, hpp,
      present_append, present_append, present_cons_some]
  have hkids' : (s.resequenced n list r).children (some n) =
      present (head ++ pre.filter (!r.others.contains ·)) ++ ns ++
        present (post.filter (!r.others.contains ·)) := by
    rw [children_eq_slots, slots, form?_resequenced hf, Option.map_some, Option.getD_some,
      (hwith _).1, hres, h.replacements, present_append, present_append, present_append,
      present_map_some, present_append]
    simp only [List.append_assoc]
  have hnodup : (present head ++ (present pre ++ a :: present post)).Nodup :=
    hkids ▸ t.nodup n hn
  refine ⟨_, _, hkids', ?_, fun c => ?_⟩
  · rw [← present_append]
    have hsub : (head ++ pre.filter (!r.others.contains ·) ++
        post.filter (!r.others.contains ·)).Sublist (head ++ (pre ++ some a :: post)) := by
      rw [List.append_assoc]
      exact List.Sublist.append_left (List.filter_sublist.append
        (List.filter_sublist.trans (List.sublist_cons_self ..))) head
    refine (present_sublist hsub).nodup ?_
    simpa using hnodup
  · -- what is claimed is the anchor, which occurs once, and the others, which stood elsewhere
    have hhead : ∀ c ∈ present head, ¬ r.Claims c := by
      intro c hc hcl
      have hcs := h.mem_of_claims hcl
      rw [hpp, ← mem_present, present_append, present_cons_some] at hcs
      exact List.disjoint_of_nodup_append hnodup hc hcs
    have ha₁ : a ∉ present pre := fun ha' =>
      List.disjoint_of_nodup_append hnodup.of_append_right ha' List.mem_cons_self
    have ha₂ : a ∉ present post :=
      (List.nodup_cons.1 hnodup.of_append_right.of_append_right).1
    have hcl : r.Claims c ↔ c = a ∨ some c ∈ r.others := by simp [Replacement.Claims, ha]
    have hmem : ∀ l, c ∈ present (l.filter (!r.others.contains ·)) ↔
        c ∈ present l ∧ some c ∉ r.others := fun l => by simp
    rw [Holds, hkids, hcl, List.mem_append, present_append, List.mem_append, hmem, hmem,
      List.mem_append, List.mem_append, List.mem_cons]
    have hhead' : c ∈ present head → some c ∉ r.others := fun hc ho => hhead c hc (hcl.2 (.inr ho))
    have hheada : c ∈ present head → c ≠ a := fun hc e => hhead c hc (hcl.2 (.inl e))
    grind

theorem present_result : ∃ before after,
    present (r.result list.statements) = before ++ ns ++ after := by
  obtain ⟨a, ha, hal⟩ := h.anchor
  obtain ⟨pre, post, -, hres⟩ := Replacement.result_eq hal ha
  refine ⟨present (pre.filter (!r.others.contains ·)), present (post.filter (!r.others.contains ·)),
    ?_⟩
  rw [hres, h.replacements, present_append, present_append, present_map_some]

theorem exchange (t : s.TreeAt root) (hn : s.Below root n)
    (hlist : s.statementList? (some n) = some list) :
    Exchange root n r.Claims ns F D s (s.resequenced n list r) := by
  obtain ⟨before, after, hkids, hnodup, hmem⟩ := h.children_resequenced t hn hlist
  have hremoved : ∀ c, r.Claims c → s.Holds n c := fun c hc =>
    holds_of_mem_statements hlist (h.mem_of_claims hc)
  have hreach : ∀ c, r.Claims c → s.Below root c := fun c hc => hn.tail (hremoved c hc)
  have hsame := sameTree_adoptAnchorSpan s r.anchor r.replacements
  obtain ⟨a, ha, hal⟩ := h.anchor
  refine ⟨hn, h.scion, h.roots, hremoved, ⟨a, by simp [Replacement.Claims, ha]⟩, ?_, ?_, ?_, ?_,
    ?_, fun _ => isBlock_resequenced hlist, ?_, ?_, ?_, ?_⟩
  · exact (size_modify ..).trans hsame.size
  · intro m hm
    exact form?_resequenced_ne hm
  · intro m
    rw [resequenced, isSynthesized_modify, hsame.synthesized]
    exact fun _ => rfl
  · intro m _
    rw [← hsame.parent, resequenced, parent_modify]
    split <;> rfl
  · rintro rfl
    obtain ⟨l, hl⟩ := t.root_form
    exact ⟨_, form?_resequenced hl⟩
  · exact bodied_resequenced t hlist
  · rw [hkids]
    have hperm : (before ++ ns ++ after).Perm (ns ++ (before ++ after)) :=
      (List.perm_append_comm.append_right after).trans (.of_eq (List.append_assoc ..))
    rw [hperm.nodup_iff, List.nodup_append]
    refine ⟨(h.scion.nodup_slots hreach).of_append_left, hnodup, fun x hx y hy e => ?_⟩
    exact h.scion.loose x (h.roots x hx) (e ▸ hn.tail ((hmem y).1 hy).1)
  · intro c hc
    rw [Holds, hkids, List.append_assoc] at hc
    have := hmem c
    grind
  · intro c hc hcl
    rw [Holds, hkids]
    have := (hmem c).2 ⟨hc, hcl⟩
    grind

theorem graft (t : s.TreeAt root) (hn : s.Below root n)
    (hlist : s.statementList? (some n) = some list) :
    ∃ s', s.applyReplacement r = .ok s' ∧ Graft root r.Claims (· ∈ F) s s' ∧
      s'.statementList? (some n) = some { list with statements := r.result list.statements } := by
  have e := h.exchange t hn hlist
  have hlist₁ := statementList?_resequenced (r := r) hlist
  have hplace : Exchange.Kept s root r.Claims F D n := .inl (e.outside_place t)
  have hkid : ∀ c ∈ present (r.result list.statements), (s.resequenced n list r).Holds n c :=
    fun c hc => holds_of_mem_statements hlist₁ (mem_present.1 hc)
  have hbelow : ∀ c ∈ present (r.result list.statements), ∀ q,
      (s.resequenced n list r).Below c q → Exchange.Kept s root r.Claims F D q :=
    fun c hc q hq => e.kept_of_below t (e.kept_child t hplace (hkid c hc)) hq
  have hlink := relinks_plants (Q := Exchange.Kept s root r.Claims F D) hplace hkid hbelow
  have hsame := sameTree_markListEdited
    ((present (r.result list.statements)).foldl (plant n) (s.resequenced n list r)) (some n)
  obtain ⟨before, after, hresult⟩ := h.present_result
  have hsprout : (s.resequenced n list r).Sprout (present (r.result list.statements)) F
      (before ++ (D ++ after)) := by
    rw [hresult, List.append_assoc]
    simpa using (Sprout.pieces before).append (e.sprout.append (.pieces after))
  obtain ⟨hroots, hloose⟩ := hsprout.planted (e.unique t) hplace
    (fun c hc => ⟨hkid c hc, e.lt_size t (e.kept_child t hplace (hkid c hc))⟩) hbelow
    fun f hf c hc => e.lt_size t (e.kept_child t (.inr (.inl hf)) hc)
  have g : Graft root r.Claims (· ∈ F) s
      ((present (r.result list.statements)).foldl (plant n) (s.resequenced n list r)) := by
    refine e.graft t hlink (fun c hc => hroots c ?_) fun f hf c hc => hloose f hf c ?_
    · rw [hresult]
      exact List.mem_append_left _ (List.mem_append_right _ hc)
    · rwa [Holds, e.children_eq (e.ne_place_of_mem hf)]
  refine ⟨_, h.applyReplacement_eq hlist, g.trans (.of_sameTree g.tree hsame), ?_⟩
  rw [statementList?, hsame.form, hlink.form]
  exact hlist₁

end Fits
end Store

end Modernizer
