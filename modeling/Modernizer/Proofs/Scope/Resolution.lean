import Modernizer.Proofs.Scope.Pattern
import Modernizer.Proofs.Tree.Extent

/-! Scoping computed. What owns a node and what a name means there can be looked up: the places that
bind a name are collected over all nodes (`mem_binders_iff`), and the innermost of those that see a
reference is where it resolves to (`resolvesTo_iff`). -/

namespace Modernizer

namespace Store

variable (s : Store) (root : NodeId)

/-- The first node on a way up that has the one before it among its `parts`. -/
def nearestIn (parts : Form → List Slot) : List NodeId → Option NodeId
  | c :: p :: ps =>
    if (s.form? (some p)).any fun form => (parts form).contains (some c) then some p
    else nearestIn parts (p :: ps)
  | _ => none

def nearest? (parts : Form → List Slot) (n : NodeId) : Option NodeId :=
  if (s.lineage (some n)).contains root then
    some ((s.nearestIn parts (s.lineage (some n))).getD root)
  else none

/-- The names that a declaration target declares. -/
def declared (target : Slot) : List String := (s.bindingNames target).filterMap s.identifierName?

/-- The targets of the declarators of a list. -/
def listTargets (list : DeclarationList) : List Slot :=
  list.declarations.nodes.filterMap fun d =>
    match s.form? d with
    | some (.declaration target _) => some target
    | _ => none

/-- Where a node binds a name. -/
def bindersOf (x : String) (n : NodeId) (form : Form) : List NodeId :=
  let named := fun name => s.identifierName? name == some x
  (if form.parameters.any fun e => (s.declared e).contains x then [n] else []) ++
    match form with
    | .functionExpression f => if named f.name then [n] else []
    | .functionDeclaration f => if named f.name then (s.nearest? root Form.inner n).toList else []
    | .classExpression c => if named c.name then [n] else []
    | .classDeclaration c =>
      if named c.name then (s.nearest? root Form.blockParts n).toList else []
    | .catchClause target _ => if (s.declared target).contains x then [n] else []
    | .declarationList list =>
      if (s.listTargets list).any fun e => (s.declared e).contains x then
        (s.nearest? root (if list.kind = .varKind then Form.inner else Form.blockParts) n).toList
      else []
    | _ => []

def binders (x : String) : List NodeId :=
  (List.range s.size).flatMap fun n => ((s.form? (some n)).map (s.bindersOf root x n)).getD []

def canSee (c r : NodeId) : Bool :=
  (s.form? (some c)).any fun form =>
    form.scopeParts.any fun e => e.any fun i => (s.lineage (some r)).contains i

def resolvesTo (r : NodeId) (x : String) (c : NodeId) : Bool :=
  (s.binders root x).contains c && s.canSee c r &&
    (s.binders root x).all fun c' => !s.canSee c' r || (s.lineage (some c)).contains c'

variable {s root} {c n o r t : NodeId} {x : String} {form : Form} {list : DeclarationList}
  {parts : Form → List Slot}

theorem TreeAt.root_mem_lineage (tree : s.TreeAt root) (hn : s.Below root n) :
    root ∈ s.lineage (some n) := by
  induction hn with
  | refl =>
    rw [tree.lineage_eq .refl]
    exact List.mem_cons_self
  | @tail p c hp hc ih =>
    rw [tree.lineage_eq (hp.tail hc), tree.linked p c hp hc]
    exact List.mem_cons_of_mem c ih

theorem TreeAt.nearestIn_lineage (tree : s.TreeAt root) (h : s.Nearest root parts o n) :
    (s.nearestIn parts (s.lineage (some n))).getD root = o := by
  induction h with
  | root =>
    rw [tree.lineage_eq .refl, tree.root_parent]
    rfl
  | @into o p c form h hf hc hin _ =>
    have hp := h.below_root
    have hheld := holds_of_form hf hc
    rw [tree.lineage_eq (hp.tail hheld), tree.linked p c hp hheld, tree.lineage_eq hp, nearestIn,
      if_pos (by simpa [hf] using hin), Option.getD_some]
  | @past o p c form h hf hc hin ih =>
    have hp := h.below_root
    have hheld := holds_of_form hf hc
    rw [tree.lineage_eq hp] at ih
    rw [tree.lineage_eq (hp.tail hheld), tree.linked p c hp hheld, tree.lineage_eq hp, nearestIn,
      if_neg (by simpa [hf] using hin)]
    exact ih

namespace Forest

variable (h : s.Forest)

include h

theorem below_of_mem_lineage (hi : c ∈ s.lineage (some n)) : s.Below c n := by
  have hgo : ∀ fuel n, c ∈ lineage.go s fuel (some n) → s.Below c n := by
    intro fuel
    induction fuel with
    | zero => exact fun n hi => (List.not_mem_nil hi).elim
    | succ fuel ih =>
      intro n hi
      rcases List.mem_cons.1 hi with rfl | hi
      · exact .refl
      · cases hp : s.parent (some n) with
        | none =>
          rw [hp] at hi
          cases fuel <;> exact (List.not_mem_nil hi).elim
        | some p =>
          rw [hp] at hi
          exact (ih p hi).tail ((h.linked p n).2 hp)
  exact hgo _ n hi

theorem holder_lt_size {p : NodeId} (hp : s.Holds p n) : n < p ∧ p < s.size := by
  refine ⟨h.lt p n hp, ?_⟩
  cases hform : s.form? (some p) with
  | none =>
    rw [Holds, Store.children, hform] at hp
    exact (List.not_mem_nil hp).elim
  | some form => exact lt_size_of_form? hform

theorem mem_lineage_iff (hn : n < s.size) : c ∈ s.lineage (some n) ↔ s.Below c n := by
  refine ⟨h.below_of_mem_lineage, fun hi => ?_⟩
  -- a holder comes later than what it holds, so the way up fits into the rest of the store
  have hgo : ∀ fuel n, n < s.size → s.size ≤ fuel + n → s.Below c n →
      c ∈ lineage.go s fuel (some n) := by
    intro fuel
    induction fuel with
    | zero => exact fun n hn hfuel => absurd hn (Nat.not_lt_of_le (by omega))
    | succ fuel ih =>
      intro n hn hfuel hi
      rcases hi.cases_tail with rfl | ⟨p, hip, hp⟩
      · exact List.mem_cons_self
      · obtain ⟨hlt, hps⟩ : (n : Nat) < p ∧ p < s.size := h.holder_lt_size hp
        refine List.mem_cons_of_mem _ ?_
        rw [(h.linked p n).1 hp]
        exact ih p hps (by omega) hip
  exact hgo _ n hn (by omega) hi

theorem mem_declared_iff {target : Slot} : x ∈ s.declared target ↔
    ∃ t, target = some t ∧ s.Names t x := by
  constructor
  · intro hx
    obtain ⟨e, he, hname⟩ := List.mem_filterMap.1 hx
    exact names_of_mem he hname
  · rintro ⟨t, rfl, hx⟩
    obtain ⟨e, he, hname⟩ := h.mem_bindingNames hx
    exact List.mem_filterMap.2 ⟨e, he, hname⟩

theorem canSee_iff (hr : r < s.size) : s.canSee c r = true ↔ s.Sees c r := by
  simp only [canSee, Option.any_eq_true, List.any_eq_true, List.contains_iff_mem,
    h.mem_lineage_iff hr]
  constructor
  · rintro ⟨form, hf, -, he, e, rfl, her⟩
    exact ⟨form, e, hf, he, her⟩
  · rintro ⟨form, e, hf, he, her⟩
    exact ⟨form, hf, some e, he, e, rfl, her⟩

end Forest

theorem mem_listTargets {target : Slot} : target ∈ s.listTargets list ↔
    ∃ d ∈ list.declarations.nodes, ∃ initializer,
      s.form? d = some (.declaration target initializer) := by
  rw [listTargets, List.mem_filterMap]
  refine exists_congr fun d => and_congr_right fun _ => ?_
  constructor
  · intro hd
    split at hd
    · rename_i initializer hf
      cases hd
      exact ⟨initializer, hf⟩
    · cases hd
  · rintro ⟨initializer, hf⟩
    rw [hf]

theorem declarator_iff {l : NodeId} (hl : s.form? (some l) = some (.declarationList list)) :
    some t ∈ s.listTargets list ↔ ∃ d, s.Declarator l list.kind d t := by
  rw [mem_listTargets]
  constructor
  · rintro ⟨d, hd, initializer, hf⟩
    obtain ⟨i, rfl, hi⟩ := exists_of_form? hf
    exact ⟨i, list, initializer, hl, rfl, hd, hi⟩
  · rintro ⟨d, list', initializer, hl', -, hd, hf⟩
    rw [hl] at hl'
    cases hl'
    exact ⟨some d, hd, initializer, hf⟩

theorem refers_of_free (hb : s.Below root r) (hr : s.form? (some r) = some (.identifier x))
    (hfree : ∀ n < s.size, ∀ form ∈ s.form? (some n),
      some r ∉ form.targets ++ s.parts form ++ form.memberParts ∧ form.plainName ≠ some r) :
    s.Refers root r x where
  below := hb
  form := hr
  notBound := by
    intro hbound
    cases hbound with
    | target hf ht =>
      refine (hfree _ (lt_size_of_form? hf) _ hf).1 ?_
      exact List.mem_append_left _ (List.mem_append_left _ ht)
    | part _ hf hm =>
      refine (hfree _ (lt_size_of_form? hf) _ hf).1 ?_
      rw [List.append_assoc]
      exact List.mem_append_right _ hm
  notPlain n form hf _ := (hfree n (lt_size_of_form? hf) form hf).2

variable (tree : s.TreeAt root) (h : s.Forest)

include tree h

theorem nearest?_eq_some_iff : s.nearest? root parts n = some o ↔ s.Nearest root parts o n := by
  have hfound : s.Below root n → s.nearest? root parts n =
      some ((s.nearestIn parts (s.lineage (some n))).getD root) := fun hn =>
    if_pos (List.contains_iff_mem.2 (tree.root_mem_lineage hn))
  constructor
  · intro ho
    have hn : s.Below root n := by
      unfold nearest? at ho
      split at ho
      · rename_i hroot
        exact h.below_of_mem_lineage (List.contains_iff_mem.1 hroot)
      · cases ho
    obtain ⟨o', ho'⟩ := exists_nearest parts hn
    rw [hfound hn, tree.nearestIn_lineage ho'] at ho
    exact Option.some.inj ho ▸ ho'
  · intro ho
    rw [hfound ho.below_root, tree.nearestIn_lineage ho]

theorem mem_toList_nearest? : c ∈ (s.nearest? root parts n).toList ↔ s.Nearest root parts c n := by
  rw [Option.mem_toList, nearest?_eq_some_iff tree h]

theorem binds_of_mem_bindersOf (hn : s.form? (some n) = some form)
    (hc : c ∈ s.bindersOf root x n form) : s.Binds root c x := by
  have hnearest : ∀ parts, c ∈ (s.nearest? root parts n).toList ↔ s.Nearest root parts c n :=
    fun _ => mem_toList_nearest? tree h
  rcases List.mem_append.1 hc with hc | hc
  · simp only [List.mem_ite_nil_right, List.any_eq_true, List.contains_iff_mem,
      List.mem_singleton] at hc
    obtain ⟨⟨e, he, hx⟩, rfl⟩ := hc
    obtain ⟨t, rfl, ht⟩ := h.mem_declared_iff.1 hx
    exact .parameter hn he ht
  · cases form <;>
      simp only [List.mem_ite_nil_right, List.not_mem_nil, List.mem_singleton, beq_iff_eq,
        List.contains_iff_mem, List.any_eq_true, hnearest, h.mem_declared_iff] at hc
    case functionExpression f => exact hc.2 ▸ .itself hn hc.1
    case functionDeclaration f => exact .function hc.2 hn hc.1
    case classExpression k => exact hc.2 ▸ .class_ hn hc.1
    case classDeclaration k => exact .block hc.2 (.class_ hn hc.1)
    case catchClause =>
      obtain ⟨⟨t, rfl, ht⟩, rfl⟩ := hc
      exact .handler ⟨t, _, hn, ht⟩
    case declarationList list =>
      obtain ⟨⟨e, he, t, rfl, ht⟩, hc⟩ := hc
      obtain ⟨d, hd⟩ := (declarator_iff hn).1 he
      split at hc
      · rename_i hkind
        exact .variable_ hc (hkind ▸ hd) ht
      · rename_i hkind
        exact .block hc (.list hd hkind ht)

omit tree h in
theorem mem_binders_of_form (hn : s.form? (some n) = some form)
    (hc : c ∈ s.bindersOf root x n form) : c ∈ s.binders root x :=
  List.mem_flatMap.2 ⟨n, List.mem_range.2 (lt_size_of_form? hn), by rwa [hn]⟩

theorem mem_binders_of_declarator {l d : NodeId} (hl : s.form? (some l) = some (.declarationList list))
    (hd : s.Declarator l list.kind d t) (hx : s.Names t x)
    (hc : s.Nearest root (if list.kind = .varKind then Form.inner else Form.blockParts) c l) :
    c ∈ s.binders root x := by
  refine mem_binders_of_form hl (List.mem_append_right _ ?_)
  have hdeclared : ((s.listTargets list).any fun e => (s.declared e).contains x) = true :=
    List.any_eq_true.2 ⟨some t, (declarator_iff hl).2 ⟨d, hd⟩,
      List.contains_iff_mem.2 (h.mem_declared_iff.2 ⟨t, rfl, hx⟩)⟩
  dsimp only
  rw [if_pos hdeclared]
  exact (mem_toList_nearest? tree h).2 hc

/-- All places that bind a name are found, and no others. -/
theorem mem_binders_iff : c ∈ s.binders root x ↔ s.Binds root c x := by
  constructor
  · intro hc
    obtain ⟨n, -, hc⟩ := List.mem_flatMap.1 hc
    cases hf : s.form? (some n) with
    | none => simp [hf] at hc
    | some form => exact binds_of_mem_bindersOf tree h hf (by rwa [hf] at hc)
  · intro hc
    cases hc with
    | parameter hf ht hx =>
      refine mem_binders_of_form hf (List.mem_append_left _ ?_)
      have hdeclared := List.contains_iff_mem.2 (h.mem_declared_iff.2 ⟨_, rfl, hx⟩)
      rw [if_pos (List.any_eq_true.2 ⟨_, ht, hdeclared⟩)]
      exact List.mem_cons_self
    | itself hf hx => exact mem_binders_of_form hf (List.mem_append_right _ (by simp [hx]))
    | variable_ ho hd hx =>
      obtain ⟨list, initializer, hf, hkind, hrest⟩ := hd
      refine mem_binders_of_declarator tree h hf ⟨list, initializer, hf, rfl, hrest⟩ hx ?_
      rwa [if_pos hkind]
    | function ho hf hx =>
      have howner := (nearest?_eq_some_iff tree h).2 ho
      exact mem_binders_of_form hf (List.mem_append_right _ (by simp [hx, howner]))
    | block ho hb =>
      cases hb with
      | list hd hkind hx =>
        obtain ⟨list, initializer, hf, rfl, hrest⟩ := hd
        refine mem_binders_of_declarator tree h hf ⟨list, initializer, hf, rfl, hrest⟩ hx ?_
        rwa [if_neg hkind]
      | class_ hf hx =>
        have howner := (nearest?_eq_some_iff tree h).2 ho
        exact mem_binders_of_form hf (List.mem_append_right _ (by simp [hx, howner]))
    | handler hh =>
      obtain ⟨t, body, hf, hx⟩ := hh
      have hdeclared := h.mem_declared_iff.2 ⟨t, rfl, hx⟩
      exact mem_binders_of_form hf (List.mem_append_right _ (by simp [hdeclared]))
    | class_ hf hx => exact mem_binders_of_form hf (List.mem_append_right _ (by simp [hx]))

/-- What a name means is found. -/
theorem resolvesTo_iff (hr : r < s.size) :
    s.resolvesTo root r x c = true ↔ s.Resolves root r x c := by
  have hsees : ∀ c', s.canSee c' r = true ↔ s.Sees c' r := fun c' => h.canSee_iff hr
  have habove : s.Sees c r → ∀ c', c' ∈ s.lineage (some c) ↔ s.Below c' c := by
    rintro ⟨form, -, hf, -⟩ c'
    exact h.mem_lineage_iff (lt_size_of_form? hf)
  simp only [resolvesTo, Bool.and_eq_true, List.all_eq_true, Bool.or_eq_true, Bool.not_eq_true',
    Bool.eq_false_iff, ne_eq, List.contains_iff_mem, mem_binders_iff tree h, hsees]
  constructor
  · rintro ⟨⟨hbinds, hc⟩, hall⟩
    exact ⟨hbinds, hc, fun c' hb hs => (habove hc c').1 ((hall c' hb).resolve_left (not_not.2 hs))⟩
  · rintro ⟨hbinds, hc, hall⟩
    exact ⟨⟨hbinds, hc⟩, fun c' hb => Classical.or_iff_not_imp_left.2 fun hs =>
      (habove hc c').2 (hall c' hb (not_not.1 hs))⟩

end Store
end Modernizer
