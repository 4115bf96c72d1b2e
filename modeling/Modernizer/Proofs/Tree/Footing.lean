import Modernizer.Proofs.Parser.Chain
import Modernizer.Proofs.Tree.Comments
import Modernizer.Proofs.Tree.Marks
import Modernizer.Proofs.Tree.Replacement

/-! Footing. In each place of a parsed node stands the child that was parsed there or a new one that
took over its span, unless the statements of the node were resequenced. A new node may get a span as
long as it stands in no such place; until then it is loose. -/

namespace Modernizer

def Form.spelling? : Form → Option DeclarationKind
  | declarationList list => some list.spelledKind
  | _ => none

@[simp] theorem Form.spelling?_mapSlots (g : Slot → Slot) (f : Form) :
    (f.mapSlots g).spelling? = f.spelling? := by
  cases f <;> rfl

@[simp] theorem Form.isSome_statementList?_mapSlots (g : Slot → Slot) (f : Form) :
    (f.mapSlots g).statementList?.isSome = f.statementList?.isSome := by
  cases f <;> rfl

namespace Store

variable {s₀ s s' : Store} {c₀ c n : NodeId} {L K : List NodeId}

/-- The node has the place of a parsed one: it is that node, or a new one that took its place. -/
def Stands (s₀ s : Store) (c₀ c : NodeId) : Prop :=
  ∃ x₀ x, s₀.get? (some c₀) = some x₀ ∧ s.get? (some c) = some x ∧ x.pos = x₀.pos ∧
    x.stop = x₀.stop ∧ (x.synthesized = false ∧ c = c₀ ∨ x.synthesized = true ∧ x.origin = some c₀)

/-- The form has what was parsed in its places, or what stands for it. -/
structure Footed (s₀ s : Store) (f₀ f : Form) : Prop where
  slots : List.Forall₂ (Option.Rel (Stands s₀ s)) f₀.slots f.slots
  spelling : f.spelling? = f₀.spelling?

/-- The node is new and stands in no place of a parsed node. -/
def Loose (s : Store) (n : NodeId) : Prop :=
  s.isSynthesized (some n) = true ∧ ∀ q x, s.get? (some q) = some x → x.synthesized = false →
    x.listEdited = false → some n ∉ x.form.slots

/-- Parsed nodes have their footing in the source, and some new nodes are loose. -/
structure Footing (s₀ : Store) (L : List NodeId) (s : Store) : Prop extends Outgrows s₀ s where
  kept : ∀ n x₀ x, s₀.get? (some n) = some x₀ → s.get? (some n) = some x → x.listEdited = false →
    Footed s₀ s x₀.form x.form
  resequenced : ∀ n x, s.get? (some n) = some x → x.listEdited = true →
    x.form.statementList?.isSome = true
  nodup : L.Nodup
  loose : ∀ n ∈ L, s.Loose n

def layout (x : Node) : (Form × Nat × Nat × Slot × Bool) × Bool := (shown x, x.listEdited)

def Succeeds (s₀ s s' : Store) (b b' : Slot) : Prop :=
  ∀ a, Option.Rel (Stands s₀ s) a b → Option.Rel (Stands s₀ s') a b'

theorem succeeds_of_standing {b : Slot} (h : (s'.get? b).map standing = (s.get? b).map standing) :
    Succeeds s₀ s s' b b := by
  intro a ha
  cases ha with
  | none => exact .none
  | some hstands =>
    obtain ⟨x₀, x, hx₀, hx, hpos, hstop, horigin⟩ := hstands
    rw [hx] at h
    obtain ⟨x', hx', e⟩ := Option.map_eq_some_iff.1 h
    simp only [standing, Prod.mk.injEq] at e
    obtain ⟨hpos', hstop', horigin', hsyn'⟩ := e
    refine .some ⟨x₀, x', hx₀, hx', hpos'.trans hpos, hstop'.trans hstop, ?_⟩
    rwa [hsyn', horigin']

theorem exists_rel_of_mem {α β : Type} {R : α → β → Prop} {as : List α} {bs : List β} {b : β}
    (h : List.Forall₂ R as bs) (hb : b ∈ bs) : ∃ a ∈ as, R a b := by
  induction h with
  | nil => cases hb
  | cons hab _ ih =>
    rcases List.mem_cons.1 hb with rfl | hb
    · exact ⟨_, List.mem_cons_self, hab⟩
    · obtain ⟨a, ha, hab⟩ := ih hb
      exact ⟨a, List.mem_cons_of_mem _ ha, hab⟩

theorem forall₂_succeeds {as bs bs' : List Slot}
    (h : List.Forall₂ (Option.Rel (Stands s₀ s)) as bs)
    (h' : List.Forall₂ (Succeeds s₀ s s') bs bs') :
    List.Forall₂ (Option.Rel (Stands s₀ s')) as bs' := by
  induction h' generalizing as with
  | nil =>
    cases h
    exact .nil
  | cons hb _ ih =>
    cases h with
    | cons hab hrest => exact .cons (hb _ hab) (ih hrest)

theorem forall₂_succeeds_self {bs : List Slot} (h : ∀ b ∈ bs, Succeeds s₀ s s' b b) :
    List.Forall₂ (Succeeds s₀ s s') bs bs :=
  List.forall₂_same.2 h

/-- A node that takes the span and the place of `node`, which is `old`. -/
def placeOf (old : Slot) (node x : Node) : Node :=
  if x.synthesized then
    { x with
      parent := node.parent
      pos := node.pos
      stop := node.stop
      origin := if node.synthesized && node.origin.isSome then node.origin else old }
  else { x with parent := node.parent }

theorem ground_placeOf (old : Slot) (node x : Node) : ground (placeOf old node x) = ground x := by
  unfold placeOf
  split <;> simp [ground, *]

theorem form_placeOf (old : Slot) (node x : Node) :
    ((placeOf old node x).form, (placeOf old node x).listEdited) = (x.form, x.listEdited) := by
  unfold placeOf
  split <;> rfl

/-- The tree in which `new` took the place of `old`, but for links and marks. -/
def swapped (s : Store) (old new : Slot) (node : Node) (form : Form) : Store :=
  (s.modify node.parent
    ({ · with form := form.mapSlots fun slot => if slot = old then new else slot })).modify new
      (placeOf old node)

/-- A new node has what it holds linked to it. -/
def linked (s : Store) (new : Slot) : Store :=
  if s.isSynthesized new then new.elim s s.adoptChildren else s

theorem agree_linked {α : Type} {view : Node → α} (hview : ∀ x parent, view { x with parent } = view x)
    (s : Store) (new : Slot) : Agree view s (s.linked new) := by
  unfold linked
  split
  · cases new with
    | none => exact .refl s
    | some n => exact agree_adoptChildren hview s n
  · exact .refl s

theorem beside_swapped_linked (s : Store) (old new : Slot) (node : Node) (form : Form) :
    ((s.swapped old new node form).linked new).beside = s.beside := by
  have hswapped : (s.swapped old new node form).beside = s.beside :=
    (beside_modify ..).trans (beside_modify ..)
  unfold linked
  split
  · cases new with
    | none => exact hswapped
    | some n => exact (beside_adoptChildren ..).trans hswapped
  · exact hswapped

theorem exists_linked_of_replace? {old new : Slot} (hs : s.replace? old new = some s') :
    ∃ node form, s.get? old = some node ∧ s.form? node.parent = some form ∧
      let s₁ := (s.swapped old new node form).linked new
      let s₂ := s₁.setAttached old .none
      s' = (s₂.setAttached new ((s₂.attachedTo new).append (s₁.attachedTo old))).markModified
        node.parent := by
  obtain ⟨node, hnode, hs⟩ := Option.bind_eq_some_iff.1 hs
  obtain ⟨form, hform, hs⟩ := Option.bind_eq_some_iff.1 hs
  dsimp only at hs
  split at hs
  · cases hs
    exact ⟨node, form, hnode, hform, rfl⟩
  · cases hs

theorem agree_replace? {old new : Slot} (hs : s.replace? old new = some s') :
    ∃ node form, s.get? old = some node ∧ s.form? node.parent = some form ∧
      Agree layout (s.swapped old new node form) s' := by
  obtain ⟨node, form, hnode, hform, rfl⟩ := exists_linked_of_replace? hs
  refine ⟨node, form, hnode, hform, Agree.trans ?_ (agree_markModified (fun _ => rfl) _ _)⟩
  -- comments are kept beside the nodes
  apply (agree_linked (fun _ _ => rfl) _ new).trans
  exact .of_nodes rfl

theorem attachedTo_replace? {old new m : Slot} (hs : s.replace? old new = some s') (hold : m ≠ old)
    (hnew : m ≠ new) : s'.attachedTo m = s.attachedTo m := by
  obtain ⟨node, form, -, -, rfl⟩ := exists_linked_of_replace? hs
  rw [attachedTo_congr (attached_markModified ..), attachedTo_setAttached, if_neg hnew.symm,
    attachedTo_setAttached, if_neg hold.symm]
  exact attachedTo_congr (congrArg Prod.snd (beside_swapped_linked s old new node form)) m

theorem comments_replace? {old new : Slot} (hs : s.replace? old new = some s') :
    s'.comments = s.comments := by
  obtain ⟨node, form, -, -, rfl⟩ := exists_linked_of_replace? hs
  refine (congrArg Prod.fst (beside_markModified ..)).trans ?_
  exact show _ = s.comments from congrArg Prod.fst (beside_swapped_linked s old new node form)

theorem form?_swapped {old new : NodeId} {node : Node} {form : Form}
    (hform : s.form? node.parent = some form) (m : Slot) :
    (s.swapped (some old) (some new) node form).form? m =
      if node.parent = m then some (form.mapSlots (Form.exchangeSlot old new)) else s.form? m := by
  have hplaced : Agree Node.form (s.modify node.parent
      ({ · with form := form.mapSlots (Form.exchangeSlot old new) }))
      (s.swapped (some old) (some new) node form) :=
    .modify _ _ fun x => congrArg Prod.fst (form_placeOf (some old) node x)
  rw [hplaced.form? m, form?_modify]
  split
  · rename_i hm
    obtain ⟨x, hx, -⟩ := get?_of_form? (hm ▸ hform)
    rw [hx, Option.map_some]
  · rfl

theorem size_replace? {old new : Slot} (hs : s.replace? old new = some s') : s'.size = s.size := by
  obtain ⟨node, form, -, -, hagree⟩ := agree_replace? hs
  rw [hagree.size_eq]
  simp [swapped]

theorem form?_replace? {old new : Slot} (hs : s.replace? old new = some s') (m : Slot) :
    s'.form? m = s.form? m ∨ s'.form? m =
      (s.form? m).map (·.mapSlots fun slot => if slot = old then new else slot) := by
  obtain ⟨node, form, -, hform, hagree⟩ := agree_replace? hs
  have hsame : s'.form? m = (s.swapped old new node form).form? m :=
    Agree.form? (hagree.map fun x => x.1.1) m
  have hlinked : (s.swapped old new node form).form? m = (s.modify node.parent
      ({ · with form := form.mapSlots fun slot => if slot = old then new else slot })).form? m := by
    have hplaced : Agree Node.form (s.modify node.parent
        ({ · with form := form.mapSlots fun slot => if slot = old then new else slot }))
        (s.swapped old new node form) :=
      .modify _ new fun x => congrArg Prod.fst (form_placeOf old node x)
    exact hplaced.form? m
  rw [hsame, hlinked, form?_modify]
  split
  · rename_i hm
    obtain ⟨x, hx, -⟩ := get?_of_form? (hm ▸ hform)
    refine .inr ?_
    rw [hx, ← hm, hform]
    rfl
  · exact .inl rfl

theorem ground_swapped (s : Store) (old new : Slot) (node : Node) (form : Form) :
    Agree ground s (s.swapped old new node form) := by
  apply Agree.trans _ (.modify _ new (ground_placeOf old node))
  exact .modify s node.parent fun _ => rfl

theorem form_swapped {old new : Slot} {node : Node} {form : Form} {m : Slot} {x' : Node}
    (hx' : (s.swapped old new node form).get? m = some x') :
    ∃ x, s.get? m = some x ∧ x'.listEdited = x.listEdited ∧ x'.form =
      if node.parent = m then form.mapSlots fun slot => if slot = old then new else slot
      else x.form := by
  have hform : Agree (fun x => (x.form, x.listEdited)) _ (s.swapped old new node form) :=
    .modify _ new (form_placeOf old node)
  obtain ⟨y, hy, e⟩ := hform.exists_get? hx'
  simp only [Prod.mk.injEq] at e
  rw [e.1, e.2]
  rw [get?_modify] at hy
  split at hy
  · rename_i hm
    obtain ⟨x, hx, rfl⟩ := Option.map_eq_some_iff.1 hy
    exact ⟨x, hx, rfl, (if_pos hm).symm⟩
  · rename_i hm
    exact ⟨y, hy, rfl, (if_neg hm).symm⟩

theorem standing_swapped {old new b : Slot} {node : Node} {form : Form} (hb : b ≠ new) :
    ((s.swapped old new node form).get? b).map standing = (s.get? b).map standing := by
  have hstanding : Agree standing s (s.modify node.parent
      ({ · with form := form.mapSlots fun slot => if slot = old then new else slot })) :=
    .modify s _ fun _ => rfl
  rw [swapped, get?_modify, if_neg hb.symm]
  exact hstanding b

theorem succeeds_placeOf {old : Slot} {node y : Node} (hold : s.get? old = some node)
    (hy : y.synthesized = true) (hn : s'.get? (some n) = some (placeOf old node y)) :
    Succeeds s₀ s s' old (some n) := by
  intro a ha
  cases ha with
  | none => cases hold
  | some hstands =>
    obtain ⟨x₀, x, hx₀, hx, hpos, hstop, horigin⟩ := hstands
    rw [hold] at hx
    cases hx
    rw [placeOf, if_pos hy] at hn
    refine .some ⟨x₀, _, hx₀, hn, hpos, hstop, .inr ⟨hy, ?_⟩⟩
    rcases horigin with ⟨hsyn, rfl⟩ | ⟨hsyn, horigin⟩
    · simp [hsyn]
    · simp [hsyn, horigin]

theorem succeeds_swapped {old : Slot} {node : Node} {form : Form} {slots : List Slot}
    (hold : s.get? old = some node) (hn : s.isSynthesized (some n) = true)
    (hslots : some n ∉ slots) :
    List.Forall₂ (Succeeds s₀ s (s.swapped old (some n) node form)) slots
      (slots.map fun slot => if slot = old then some n else slot) := by
  have hplaced : ∃ y, y.synthesized = true ∧
      (s.swapped old (some n) node form).get? (some n) = some (placeOf old node y) := by
    obtain ⟨x', hx', hsyn⟩ := (Option.any_eq_true _ _).1 hn
    have hflag : Agree Node.synthesized s (s.modify node.parent
        ({ · with form := form.mapSlots fun slot => if slot = old then some n else slot })) :=
      .modify s _ fun _ => rfl
    have hy := hflag (some n)
    rw [hx'] at hy
    obtain ⟨y, hy, e⟩ := Option.map_eq_some_iff.1 hy
    refine ⟨y, e.trans hsyn, ?_⟩
    rw [swapped, get?_modify, if_pos rfl, hy]
    rfl
  obtain ⟨y, hsyn, hy⟩ := hplaced
  rw [List.forall₂_map_right_iff]
  apply List.forall₂_same.2
  intro b hb
  by_cases hbold : b = old
  · rw [if_pos hbold, hbold]
    exact succeeds_placeOf hold hsyn hy
  · rw [if_neg hbold]
    apply succeeds_of_standing
    apply standing_swapped
    rintro rfl
    exact hslots hb

namespace Footing

theorem edit (h : Footing s₀ L s) (hK : K.Subperm L) (hground : Agree ground s s')
    (hkept : ∀ n x', s'.get? (some n) = some x' → x'.synthesized = false →
      x'.listEdited = false → ∃ x, s.get? (some n) = some x ∧ x.listEdited = false ∧
        x'.form.spelling? = x.form.spelling? ∧
        List.Forall₂ (Succeeds s₀ s s') x.form.slots x'.form.slots ∧
        ∀ c ∈ K, some c ∈ x'.form.slots → some c ∈ x.form.slots)
    (hresequenced : ∀ n x', s'.get? (some n) = some x' → x'.listEdited = true →
      x'.form.statementList?.isSome = true) : Footing s₀ K s' where
  toOutgrows := h.toOutgrows.of_agree hground
  kept := by
    intro n x₀ x' hx₀ hx' hedited
    have hsyn : x'.synthesized = false := by
      rw [← Bool.not_eq_true, (h.toOutgrows.of_agree hground).synthesized n x' hx']
      exact Nat.not_le_of_lt (lt_size_of_get? hx₀)
    obtain ⟨x, hx, hunedited, hspelling, hslots, -⟩ := hkept n x' hx' hsyn hedited
    have hfooted := h.kept n x₀ x hx₀ hx hunedited
    exact ⟨forall₂_succeeds hfooted.slots hslots, hspelling.trans hfooted.spelling⟩
  resequenced := hresequenced
  nodup := by
    obtain ⟨K', hperm, hsub⟩ := hK
    exact hperm.nodup_iff.1 (h.nodup.sublist hsub)
  loose := by
    intro c hc
    obtain ⟨hsyn, hslots⟩ := h.loose c (hK.subset hc)
    constructor
    · have hflag := (hground.map Prod.fst) (some c)
      unfold isSynthesized at hsyn ⊢
      cases hx : s.get? (some c) <;> cases hx' : s'.get? (some c) <;> simp_all [ground]
    · intro q x' hx' hsyn' hedited hmem
      obtain ⟨x, hx, hunedited, -, -, hold⟩ := hkept q x' hx' hsyn' hedited
      obtain ⟨y, hy, e⟩ := hground.exists_get? hx'
      rw [hx] at hy
      cases hy
      have hxsyn : x.synthesized = false := (congrArg Prod.fst e).symm.trans hsyn'
      exact hslots q x hx hxsyn hunedited (hold c hc hmem)

theorem not_mem_of_loose (h : Footing s₀ L s) {x : Node} (hx : s.get? (some n) = some x)
    (hsyn : x.synthesized = false) (hedited : x.listEdited = false) (hc : c ∈ L) :
    some c ∉ x.form.slots :=
  (h.loose c hc).2 n x hx hsyn hedited

theorem refl {source : Text} (h : Placed source s) : Footing s [] s where
  toOutgrows := by
    have hpristine : ∀ n x, s.get? (some n) = some x → x.synthesized = false ∧ x.modified = false :=
      fun n x hx => by simpa [Node.isPristine] using (h n x hx).pristine
    exact (Faithful.refl hpristine).toOutgrows
  kept := by
    intro n x₀ x hx₀ hx _
    rw [hx₀] at hx
    cases hx
    refine ⟨List.forall₂_same.2 fun b hb => ?_, rfl⟩
    cases b with
    | none => exact .none
    | some c =>
      obtain ⟨y, hy, -⟩ := (h n x₀ hx₀).span.2.exists_of_mem (mem_present.2 hb)
      have hsyn : y.synthesized = false := by
        have hpristine := (h c y hy).pristine
        simp only [Node.isPristine, Bool.and_eq_true, Bool.not_eq_true'] at hpristine
        exact hpristine.1
      exact .some ⟨y, y, hy, hy, rfl, rfl, .inl ⟨hsyn, rfl⟩⟩
  resequenced := by
    intro n x hx hedited
    rw [(h n x hx).unedited] at hedited
    cases hedited
  nodup := .nil
  loose n hn := by cases hn

theorem exists_of_mem_slots (h : Footing s₀ L s) {x : Node} (hx : s.get? (some n) = some x)
    (hsyn : x.synthesized = false) (hedited : x.listEdited = false)
    (hc : some c ∈ x.form.slots) : ∃ c₀, Stands s₀ s c₀ c := by
  obtain ⟨x₀, hx₀⟩ := h.exists_parsed hx hsyn
  have hslots := (h.kept n x₀ x hx₀ hx hedited).slots
  obtain ⟨a, -, ha⟩ := exists_rel_of_mem hslots hc
  cases ha with
  | some hstands => exact ⟨_, hstands⟩

/-- A node that was just made is loose. -/
theorem synthesize (h : Footing s₀ L s) (form : Form) :
    Footing s₀ (s.size :: L) (s.synthesize form).2 := by
  have hold : ∀ {n x}, s.get? (some n) = some x → (s.synthesize form).2.get? (some n) = some x :=
    fun hx => (get?_synthesize_of_ne (lt_size_of_get? hx).ne).trans hx
  have hnew : ∀ {n x}, (s.synthesize form).2.get? (some n) = some x → s.get? (some n) = some x ∨
      n = s.size ∧ x = ⟨form, 0, 0, none, none, true, false, false⟩ := by
    intro n x hx
    by_cases hn : n = s.size
    · rw [hn, get?_synthesize, if_pos rfl] at hx
      exact .inr ⟨hn, (Option.some.inj hx).symm⟩
    · exact .inl (get?_synthesize_of_ne hn ▸ hx)
  have hstands : ∀ {a b}, Option.Rel (Stands s₀ s) a b →
      Option.Rel (Stands s₀ (s.synthesize form).2) a b := by
    intro a b hab
    cases hab with
    | none => exact .none
    | some hstands =>
      obtain ⟨x₀, x, hx₀, hx, hrest⟩ := hstands
      exact .some ⟨x₀, x, hx₀, hold hx, hrest⟩
  -- the new node is loose and no old node holds it
  refine ⟨h.toOutgrows.synthesize form, ?_, ?_, ?_, ?_⟩
  · intro n x₀ x hx₀ hx hedited
    rcases hnew hx with hx | ⟨rfl, -⟩
    · have hfooted := h.kept n x₀ x hx₀ hx hedited
      exact ⟨hfooted.slots.imp fun _ _ => hstands, hfooted.spelling⟩
    · exact absurd (lt_size_of_get? hx₀) (Nat.not_lt_of_le h.size_le)
  · intro n x hx hedited
    rcases hnew hx with hx | ⟨-, rfl⟩
    · exact h.resequenced n x hx hedited
    · cases hedited
  · refine List.nodup_cons.2 ⟨fun hmem => ?_, h.nodup⟩
    obtain ⟨x, hx, -⟩ := (Option.any_eq_true _ _).1 (h.loose _ hmem).1
    exact absurd (lt_size_of_get? hx) (Nat.lt_irrefl _)
  · intro n hn
    constructor
    · rcases List.mem_cons.1 hn with rfl | hn
      · rw [isSynthesized, get?_synthesize, if_pos rfl]
        rfl
      · obtain ⟨x, hx, hsyn⟩ := (Option.any_eq_true _ _).1 (h.loose n hn).1
        rw [isSynthesized, hold hx]
        exact hsyn
    · intro q x hx hsyn hedited hmem
      rcases hnew hx with hx | ⟨-, rfl⟩
      · rcases List.mem_cons.1 hn with rfl | hn
        · obtain ⟨c₀, x₀, y, -, hy, -⟩ := h.exists_of_mem_slots hx hsyn hedited hmem
          exact absurd (lt_size_of_get? hy) (Nat.lt_irrefl _)
        · exact h.not_mem_of_loose hx hsyn hedited hn hmem
      · cases hsyn

theorem drop (h : Footing s₀ L s) (hK : K.Subperm L) : Footing s₀ K s where
  toOutgrows := h.toOutgrows
  kept := h.kept
  resequenced := h.resequenced
  nodup := by
    obtain ⟨K', hperm, hsub⟩ := hK
    exact hperm.nodup_iff.1 (h.nodup.sublist hsub)
  loose n hn := h.loose n (hK.subset hn)

theorem of_agree (h : Footing s₀ L s) (hs : Agree layout s s') : Footing s₀ L s' := by
  have hground : Agree ground s s' := hs.map fun v =>
    (v.1.2.2.2.2, if v.1.2.2.2.2 then none else some (v.1.2.1, v.1.2.2.1))
  apply h.edit (.refl L) hground
  · intro n x' hx' _ hedited
    obtain ⟨x, hx, e⟩ := hs.exists_get? hx'
    have hform : x'.form = x.form := congrArg (fun v => v.1.1) e
    have hsame : x'.listEdited = x.listEdited := congrArg Prod.snd e
    refine ⟨x, hx, hsame ▸ hedited, by rw [hform], ?_, fun c _ hc => hform ▸ hc⟩
    rw [hform]
    exact forall₂_succeeds_self fun b _ => succeeds_of_standing ((hs.map fun v => v.1.2) b)
  · intro n x' hx' hedited
    obtain ⟨x, hx, e⟩ := hs.exists_get? hx'
    have hform : x'.form = x.form := congrArg (fun v => v.1.1) e
    have hsame : x'.listEdited = x.listEdited := congrArg Prod.snd e
    rw [hform]
    exact h.resequenced n x hx (hsame ▸ hedited)

theorem setAttached (h : Footing s₀ L s) (n : Slot) (a : Attached) :
    Footing s₀ L (s.setAttached n a) :=
  h.of_agree (.of_nodes rfl)

theorem markModified (h : Footing s₀ L s) (n : Slot) : Footing s₀ L (s.markModified n) :=
  h.of_agree (agree_markModified (fun _ => rfl) s n)

/-- The form of one node may change, if it keeps its spelling and what it has in its slots, or the
node is one whose statements are resequenced. -/
theorem modify (h : Footing s₀ L s) {f : Node → Node} {x : Node} (hx : s.get? (some n) = some x)
    (hf : standing (f x) = standing x)
    (hkept : (f x).listEdited = false → x.listEdited = false ∧
      (f x).form.spelling? = x.form.spelling? ∧ (f x).form.slots = x.form.slots)
    (hlist : (f x).listEdited = true → (f x).form.statementList?.isSome = true) :
    Footing s₀ L (s.modify (some n) f) := by
  have hget : ∀ m, (s.modify (some n) f).get? m = if some n = m then some (f x) else s.get? m := by
    intro m
    rw [get?_modify]
    split
    · rename_i hm
      rw [← hm, hx]
      rfl
    · rfl
  have hstanding : Agree standing s (s.modify (some n) f) := by
    intro m
    rw [hget]
    split
    · rename_i hm
      rw [← hm, hx]
      exact congrArg some hf
    · rfl
  have hground : Agree ground s (s.modify (some n) f) := hstanding.map fun v =>
    (v.2.2.2, if v.2.2.2 then none else some (v.1, v.2.1))
  apply h.edit (.refl L) hground
  · intro m x' hx' _ hedited
    rw [hget] at hx'
    split at hx'
    · rename_i hm
      cases hx'
      obtain ⟨hunedited, hspelling, hslots⟩ := hkept hedited
      refine ⟨x, hm ▸ hx, hunedited, hspelling, ?_, fun c _ hc => hslots ▸ hc⟩
      rw [hslots]
      exact forall₂_succeeds_self fun b _ => succeeds_of_standing (hstanding b)
    · refine ⟨x', hx', hedited, rfl, ?_, fun c _ hc => hc⟩
      exact forall₂_succeeds_self fun b _ => succeeds_of_standing (hstanding b)
  · intro m x' hx' hedited
    rw [hget] at hx'
    split at hx'
    · cases hx'
      exact hlist hedited
    · exact h.resequenced m x' hx' hedited

theorem redeclare (h : Footing s₀ L s) {list : DeclarationList} (kind : DeclarationKind)
    (hform : s.form? (some n) = some (.declarationList list)) :
    Footing s₀ L
      (s.modify (some n) ({ · with form := .declarationList { list with kind } })) := by
  obtain ⟨x, hx, hxform⟩ := Option.map_eq_some_iff.1 hform
  apply h.modify hx
  · rfl
  · intro hedited
    exact ⟨hedited, by rw [hxform]; rfl, by rw [hxform]; rfl⟩
  · intro hedited
    have hlist := h.resequenced n x hx hedited
    rw [hxform] at hlist
    cases hlist

theorem setStatements? (h : Footing s₀ L s) {container : Slot} {statements : List Slot}
    (hs : s.setStatements? container statements = some s') : Footing s₀ L s' := by
  obtain ⟨list, hcontainer, rfl⟩ := Option.map_eq_some_iff.1 hs
  obtain ⟨form, hform, hlist⟩ := Option.bind_eq_some_iff.1 hcontainer
  obtain ⟨x, hx, rfl⟩ := Option.map_eq_some_iff.1 hform
  cases container with
  | none => cases hx
  | some n =>
    let adopted := statements.foldl
      (fun s statement =>
        let s := s.setParent statement (some n)
        if s.isSynthesized statement then statement.elim s s.adoptChildren else s)
      (s.modify (some n) fun x => { x with form := x.form.withStatements statements })
    have hresequenced : Footing s₀ L (s.modify (some n) fun x =>
        { x with form := x.form.withStatements statements, listEdited := true }) := by
      apply h.modify hx
      · rfl
      · intro hedited
        cases hedited
      · intro _
        obtain ⟨_, -, hwith⟩ := statementList?_slots hlist
        exact Option.isSome_iff_exists.2 ⟨_, (hwith statements).2⟩
    -- the mark of the container comes last, but nothing in between looks at it
    have hadopted : Agree layout
        (s.modify (some n) fun x => { x with form := x.form.withStatements statements }) adopted :=
      .foldl (fun s statement => agree_adopt (fun _ _ => rfl) s statement (some n)) _ _
    have hmark : Agree layout (s.modify (some n) fun x =>
          { x with form := x.form.withStatements statements, listEdited := true })
        (adopted.modify (some n) ({ · with listEdited := true })) := by
      intro m
      have hm := hadopted m
      rw [get?_modify] at hm ⊢
      rw [get?_modify]
      split
      · rename_i hn
        rw [if_pos hn] at hm
        have hedited := congrArg (Option.map fun v => (v.1, true)) hm
        rw [Option.map_map, Option.map_map, Option.map_map] at hedited
        rw [Option.map_map, Option.map_map]
        exact hedited
      · rename_i hn
        rw [if_neg hn] at hm
        exact hm
    exact (hresequenced.of_agree hmark).markModified (some n)

/-- A loose node may take the place of another. -/
theorem replace? (h : Footing s₀ (n :: L) s) {old : Slot}
    (hs : s.replace? old (some n) = some s') : Footing s₀ L s' := by
  obtain ⟨node, form, hold, hform, hagree⟩ := agree_replace? hs
  have hsyn : s.isSynthesized (some n) = true := (h.loose n List.mem_cons_self).1
  have hnotmem : n ∉ L := (List.nodup_cons.1 h.nodup).1
  have hground := ground_swapped s old (some n) node form
  -- what follows the exchange touches links and marks only
  suffices hswapped : Footing s₀ L (s.swapped old (some n) node form) from hswapped.of_agree hagree
  apply h.edit (List.sublist_cons_self n L).subperm hground
  · intro m x' hx' hsyn' hedited'
    obtain ⟨x, hx, hedited, hxform⟩ := form_swapped hx'
    rw [hedited] at hedited'
    have hxsyn : x.synthesized = false := by
      obtain ⟨y, hy, e⟩ := hground.exists_get? hx'
      rw [hx] at hy
      cases hy
      exact (congrArg Prod.fst e).symm.trans hsyn'
    have hnew : some n ∉ x.form.slots :=
      h.not_mem_of_loose hx hxsyn hedited' List.mem_cons_self
    refine ⟨x, hx, hedited', ?_⟩
    split at hxform
    · rename_i hm
      rw [hm, form?, hx] at hform
      cases hform
      rw [hxform, Form.slots_mapSlots, Form.spelling?_mapSlots]
      refine ⟨rfl, succeeds_swapped hold hsyn hnew, ?_⟩
      intro c hc hmem
      obtain ⟨b, hb, e⟩ := List.mem_map.1 hmem
      split at e
      · cases e
        exact absurd hc hnotmem
      · exact e ▸ hb
    · rw [hxform]
      refine ⟨rfl, ?_, fun c _ hc => hc⟩
      apply forall₂_succeeds_self
      intro b hb
      apply succeeds_of_standing
      apply standing_swapped
      rintro rfl
      exact hnew hb
  · intro m x' hx' hedited'
    obtain ⟨x, hx, hedited, hxform⟩ := form_swapped hx'
    have hlist := h.resequenced m x hx (hedited ▸ hedited')
    rw [hxform]
    split
    · rename_i hm
      rw [hm, form?, hx] at hform
      cases hform
      rwa [Form.isSome_statementList?_mapSlots]
    · exact hlist

/-- New nodes that are loose may be placed elsewhere. -/
theorem adoptAnchorSpan (h : Footing s₀ L s) (anchor : Slot) {replacements : List Slot}
    (hloose : present replacements ⊆ L) : Footing s₀ L (s.adoptAnchorSpan anchor replacements) := by
  cases ha : s.get? anchor with
  | none =>
    rw [Store.adoptAnchorSpan, ha]
    exact h
  | some a =>
    have hkept : Agree (fun x => ((x.form, x.listEdited), ground x)) s
        (s.adoptAnchorSpan anchor replacements) := by
      rw [Store.adoptAnchorSpan, ha]
      apply Agree.foldl
      intro s n
      apply Agree.modify
      intro x
      by_cases hx : x.synthesized <;> simp [ground, hx]
    have hget : ∀ b, b ∉ replacements →
        (s.adoptAnchorSpan anchor replacements).get? b = s.get? b := by
      intro b hb
      simp only [Store.adoptAnchorSpan, ha]
      rw [get?_foldl_modify (fun x => by by_cases hx : x.synthesized <;> simp [hx]), if_neg hb]
    apply h.edit (.refl L) (hkept.map Prod.snd)
    · intro n x' hx' hsyn' hedited'
      obtain ⟨x, hx, e⟩ := hkept.exists_get? hx'
      simp only [Prod.mk.injEq] at e
      obtain ⟨⟨hform, hlist⟩, hground⟩ := e
      have hsyn : x.synthesized = false := (congrArg Prod.fst hground).symm.trans hsyn'
      have hedited : x.listEdited = false := hlist.symm.trans hedited'
      rw [hform]
      refine ⟨x, hx, hedited, rfl, ?_, fun c _ hc => hc⟩
      apply forall₂_succeeds_self
      intro b hb
      apply succeeds_of_standing
      cases b with
      | none => rfl
      | some c =>
        rw [hget]
        intro hmem
        exact h.not_mem_of_loose hx hsyn hedited (hloose (mem_present.2 hmem)) hb
    · intro n x' hx' hedited'
      obtain ⟨x, hx, e⟩ := hkept.exists_get? hx'
      simp only [Prod.mk.injEq] at e
      rw [e.1.1]
      exact h.resequenced n x hx (e.1.2.symm.trans hedited')

theorem applyReplacement {r : Replacement} (h : Footing s₀ L s)
    (hloose : present r.replacements ⊆ L) (hs : s.applyReplacement r = .ok s') :
    Footing s₀ L s' := by
  unfold Store.applyReplacement at hs
  dsimp only at hs
  split at hs
  · cases hs
  split at hs
  · cases hs
  split at hs
  · cases hs
  have hspan := h.adoptAnchorSpan r.anchor hloose
  cases hs
  cases hset : (s.adoptAnchorSpan r.anchor r.replacements).setStatements? r.parent _ with
  | none => exact hspan
  | some s' => exact hspan.setStatements? hset

end Footing

end Store
end Modernizer
