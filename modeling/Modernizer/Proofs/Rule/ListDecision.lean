import Modernizer.Proofs.Rule.Narrowing

/-! What becomes of each `var` list. A pass over the declarations decides on every node once and leaves
all nodes where they are, so after it the store and the warnings are those of the nodes so far
(`leads_walk`). Different lists begin at different places, so a warning tells which list it is about. -/

namespace Modernizer

open Store

namespace Store

variable {s : Store} {source : Text} {root a b m n : NodeId} {x y : Node}

namespace Nested

variable (h : Nested source s root)

include h

theorem inside_of_below (hb : s.Below n m) (hx : s.get? (some n) = some x)
    (hy : s.get? (some m) = some y) : x.pos ≤ y.pos ∧ y.stop ≤ x.stop := by
  induction hb generalizing y with
  | refl =>
    cases hx.symm.trans hy
    exact ⟨Nat.le_refl _, Nat.le_refl _⟩
  | @tail c m hc hm ih =>
    obtain ⟨z, hz⟩ := exists_get?_of_lt (lt_size_of_holds hm)
    have hmem : m ∈ z.form.children := by
      have hform : s.form? (some c) = some z.form := by rw [form?, hz, Option.map_some]
      simpa [Holds, Store.children, hform] using hm
    obtain ⟨y', hy', hlo, hhi⟩ := (h.children c z hz).1 m hmem
    cases hy.symm.trans hy'
    obtain ⟨hpos, hstop⟩ := ih hz
    exact ⟨Nat.le_trans hpos hlo, Nat.le_trans hhi hstop⟩

theorem apart_children (hx : s.get? (some n) = some x) (ha : a ∈ x.form.children)
    (hb : b ∈ x.form.children) (hne : a ≠ b) :
    ∀ y z, s.get? (some a) = some y → s.get? (some b) = some z → y.stop ≤ z.pos ∨ z.stop ≤ y.pos := by
  let Apart : NodeId → NodeId → Prop := fun a b => ∀ y z, s.get? (some a) = some y →
    s.get? (some b) = some z → y.stop ≤ z.pos ∨ z.stop ≤ y.pos
  have : Std.Symm Apart := ⟨fun _ _ h y z hy hz => (h z y hz hy).symm⟩
  have hpairwise : x.form.children.Pairwise Apart :=
    (h.children n x hx).2.imp fun horder y z hy hz => .inl (horder y z hy hz)
  exact hpairwise.forall ha hb hne

end Nested

theorem Placed.pos_lt {list : DeclarationList} (h : Placed source s) (hx : s.get? (some n) = some x)
    (hform : x.form = .declarationList list) :
    x.pos < x.stop ∧ ∀ c ∈ x.form.children, ∃ y, s.get? (some c) = some y ∧ x.pos < y.pos := by
  have hplaced := h n x hx
  have hworded := hplaced.worded
  rw [hform] at hworded
  obtain ⟨-, hpos, hstop, -⟩ := hworded
  have hkeyword : 0 < Text.utf8Length list.kind.keyword.toList := by cases list.kind <;> decide
  have hlt : x.pos < list.declarations.pos :=
    Nat.lt_of_lt_of_le (Nat.lt_add_of_pos_right hkeyword) hpos
  have hspans := (hplaced.ranges list.declarations.range (hform ▸ List.mem_cons_self)).2
  refine ⟨Nat.lt_of_lt_of_le hlt (Nat.le_trans hspans.le hstop), fun c hc => ?_⟩
  rw [hform] at hc
  obtain ⟨y, hy, hle, -⟩ := hspans.exists_of_mem hc
  exact ⟨y, hy, Nat.lt_of_lt_of_le hlt hle⟩

theorem Nested.eq_of_pos_eq {list list' : DeclarationList} (h : Nested source s root)
    (hp : Placed source s) (ha : s.get? (some a) = some x) (hb : s.get? (some b) = some y)
    (hx : x.form = .declarationList list) (hy : y.form = .declarationList list')
    (heq : x.pos = y.pos) : a = b := by
  have hchild : ∀ {n c z}, s.get? (some n) = some z → s.Holds n c → c ∈ z.form.children := by
    intro n c z hz hc
    have hform : s.form? (some n) = some z.form := by rw [form?, hz, Option.map_some]
    simpa [Holds, Store.children, hform] using hc
  -- a list begins before all that is below it
  have hbelow : ∀ {a b c x y list}, s.get? (some a) = some x → s.get? (some b) = some y →
      x.form = .declarationList list → s.Holds a c → s.Below c b → x.pos ≠ y.pos := by
    intro a b c x y list ha hb hx hc hcb
    obtain ⟨z, hz, hlt⟩ := (hp.pos_lt ha hx).2 c (hchild ha hc)
    exact Nat.ne_of_lt (Nat.lt_of_lt_of_le hlt (h.inside_of_below hcb hz hb).1)
  suffices ∀ n, s.Below n a → s.Below n b → a = b from
    this root (h.reachable a (lt_size_of_get? ha)) (h.reachable b (lt_size_of_get? hb))
  intro n hna hnb
  induction hna using Relation.ReflTransGen.head_induction_on with
  | refl =>
    rcases Relation.ReflTransGen.cases_head hnb with rfl | ⟨c, hc, hcb⟩
    · rfl
    · exact (hbelow ha hb hx hc hcb heq).elim
  | @head n c hc hca ih =>
    rcases Relation.ReflTransGen.cases_head hnb with rfl | ⟨c', hc', hcb⟩
    · exact (hbelow hb ha hy hc hca heq.symm).elim
    by_cases hcc : c = c'
    · exact ih (hcc ▸ hcb)
    obtain ⟨z, hz⟩ := exists_get?_of_lt (lt_size_of_holds hc)
    obtain ⟨u, hu, -⟩ := (h.children n z hz).1 c (hchild hz hc)
    obtain ⟨v, hv, -⟩ := (h.children n z hz).1 c' (hchild hz hc')
    obtain ⟨hux, hxu⟩ := h.inside_of_below hca hu ha
    obtain ⟨hvy, hyv⟩ := h.inside_of_below hcb hv hb
    have hxs := (hp.pos_lt ha hx).1
    have hys := (hp.pos_lt hb hy).1
    rcases h.apart_children hz (hchild hz hc) (hchild hz hc') hcc u v hu hv with hlt | hlt <;> omega

theorem comments_redeclareAll (s : Store) (changes : List (NodeId × DeclarationKind)) :
    (s.redeclareAll changes).comments = s.comments ∧
      (s.redeclareAll changes).attached = s.attached := by
  have hmodify : ∀ (s : Store) (n : Slot) (f : Node → Node),
      (s.modify n f).comments = s.comments := fun s n f => by cases n <;> rfl
  have hmark : ∀ fuel n (s : Store), (markModified.go fuel n s).comments = s.comments := by
    intro fuel
    induction fuel with
    | zero => exact fun _ _ => rfl
    | succ fuel ih =>
      intro n s
      unfold markModified.go
      split
      · rfl
      · split
        · rfl
        · exact (ih _ _).trans (hmodify ..)
  induction changes generalizing s with
  | nil => exact ⟨rfl, rfl⟩
  | cons change changes ih =>
    obtain ⟨hcomments, hattached⟩ := ih (s.redeclare change.1 change.2)
    refine ⟨hcomments.trans ((hmark ..).trans (hmodify ..)), hattached.trans ?_⟩
    exact (attached_markModified ..).trans (attached_modify ..)

end Store

/-- A node without the kind of its declarations and without its mark. -/
def Node.unmarked (x : Node) : Node :=
  { x with form := x.form.withKind .varKind, modified := false }

namespace Store

variable (s : Store)

/-- The list has a declarator with a name in it. -/
def DeclaresName (l : NodeId) : Prop :=
  ∃ d t x, s.Declarator l .varKind d t ∧ s.Names t x

/-- What is said of a list that must stay a `var` list. -/
def unsafeWarning (lines : LineMap) (l : NodeId) : Warning :=
  ⟨.letConst, s.posOf (some l), lines.lineOf (s.posOf (some l)), .unsafeVar⟩

/-- A list of the store is another one after the pass, and nothing is said of it, or it is as it was,
and one thing is said. -/
inductive Decided (lines : LineMap) (p : PassState) (l : NodeId) (list : DeclarationList) : Prop where
  | converted {kind} : kind = .letKind ∨ kind = .constKind →
      p.store.form? (some l) = some (.declarationList { list with kind }) →
      p.warnings.filter (·.pos == s.posOf (some l)) = [] → Decided lines p l list
  | kept : p.store.form? (some l) = some (.declarationList list) →
      p.warnings.filter (·.pos == s.posOf (some l)) = [s.unsafeWarning lines l] →
      Decided lines p l list

end Store

namespace Rule

variable (s : Store) (verdicts : List (NodeId × Scope.Verdict)) (lines : LineMap)

/-- The kind that a node gets if it is a `var` list that can be another one. -/
def newKind? (n : NodeId) : Option DeclarationKind :=
  if s.isVarList n then
    match Scope.verdict? verdicts n with
    | some .letSafe => some .letKind
    | some .constSafe => some .constKind
    | _ => none
  else none

/-- What is said of a node if it is a `var` list that must stay one. -/
def notice? (n : NodeId) : Option (Nat × Notice) :=
  if s.isVarList n ∧ Scope.verdict? verdicts n = some .unsafe_ then
    some (s.posOf (some n), .unsafeVar)
  else none

def change? (n : NodeId) : Option (NodeId × DeclarationKind) := (newKind? s verdicts n).map (n, ·)

def warning? (n : NodeId) : Option Warning :=
  (notice? s verdicts n).map fun (pos, notice) => ⟨.letConst, pos, lines.lineOf pos, notice⟩

/-- The state of a pass that has been at these nodes. -/
def narrowed (nodes : List NodeId) : PassState :=
  ⟨s.redeclareAll (nodes.filterMap (change? s verdicts)),
    nodes.filterMap (warning? s verdicts lines)⟩

variable {s verdicts lines} {s' : Store} {n : NodeId} {nodes : List NodeId} {kind : DeclarationKind}

theorem notice?_eq_none (h : newKind? s verdicts n = some kind) : notice? s verdicts n = none := by
  refine if_neg fun hbad => ?_
  rw [newKind?, if_pos hbad.1, hbad.2] at h
  cases h

theorem visitDeclarations_eq : visitDeclarations verdicts n s =
    match newKind? s verdicts n with
    | some kind => (⟨.inPlace, []⟩, s.modify (some n) fun x => { x with form := x.form.withKind kind })
    | none => (⟨.keep, (notice? s verdicts n).toList⟩, s) := by
  have hrun : ∀ f : Store → StateM Store Decision, (get >>= f) s = f s s := fun _ => rfl
  rw [visitDeclarations, hrun]
  by_cases hvar : s.isVarList n = true
  · obtain ⟨list, hlist, hkind⟩ := exists_of_isVarList hvar
    have hmodify : ∀ kind,
        (s.modify (some n) fun x => { x with form := .declarationList { list with kind } }) =
          s.modify (some n) fun x => { x with form := x.form.withKind kind } := by
      refine fun kind => modify_congr fun x hx => ?_
      have hform : x.form = .declarationList list := by
        rw [form?, hx] at hlist
        exact Option.some.inj hlist
      rw [hform]
      rfl
    rw [hlist]
    dsimp only
    rw [if_neg (not_not.2 hkind), newKind?, if_pos hvar]
    cases hv : Scope.verdict? verdicts n with
    | none => simp [notice?, hv]; rfl
    | some v =>
      cases v with
      | unsafe_ => simp [notice?, hv, hvar]; rfl
      | letSafe => exact congrArg (Prod.mk _) (hmodify .letKind)
      | constSafe => exact congrArg (Prod.mk _) (hmodify .constKind)
  · have hnew : newKind? s verdicts n = none := if_neg hvar
    have hnotice : notice? s verdicts n = none := if_neg fun h => hvar h.1
    rw [hnew, hnotice]
    cases hform : s.form? (some n) with
    | none => rfl
    | some form =>
      cases form with
      | declarationList list =>
        have hkind : list.kind ≠ .varKind := by simpa [isVarList, hform] using hvar
        dsimp only
        rw [if_pos hkind]
        rfl
      | _ => rfl

theorem form?_narrowed (h : n ∈ nodes → newKind? s verdicts n = none) :
    (narrowed s verdicts lines nodes).store.form? (some n) = s.form? (some n) := by
  refine form?_redeclareAll_of_not_mem fun change hchange heq => ?_
  obtain ⟨m, hm, hchange⟩ := List.mem_filterMap.1 hchange
  obtain ⟨kind, hkind, rfl⟩ := Option.map_eq_some_iff.1 hchange
  obtain rfl : m = n := heq
  rw [h hm] at hkind
  cases hkind

theorem form?_narrowed_of_mem (hnodup : nodes.Nodup) (hn : n ∈ nodes)
    (hkind : newKind? s verdicts n = some kind) :
    (narrowed s verdicts lines nodes).store.form? (some n) =
      (s.form? (some n)).map (Form.withKind kind) := by
  have hchange : change? s verdicts n = some (n, kind) := by rw [change?, hkind, Option.map_some]
  refine form?_redeclareAll_of_mem ?_ (List.mem_filterMap.2 ⟨n, hn, hchange⟩)
  have hnodes : (nodes.filterMap (change? s verdicts)).map Prod.fst =
      nodes.filter fun m => (newKind? s verdicts m).isSome := by
    rw [List.map_filterMap, ← List.filterMap_eq_filter]
    refine List.filterMap_congr fun m _ => ?_
    cases hm : newKind? s verdicts m <;> simp [change?, Option.guard, hm]
  exact hnodes ▸ hnodup.filter _

theorem leads_decide (hn : n ∉ nodes) :
    PassM.Leads (PassM.decide .letConst lines (visitDeclarations verdicts) n)
      (narrowed s verdicts lines nodes) (narrowed s verdicts lines (nodes ++ [n])) := by
  let p := narrowed s verdicts lines nodes
  have hvar : p.store.isVarList n = s.isVarList n := by
    rw [isVarList, form?_narrowed fun hmem => (hn hmem).elim, isVarList]
  have hpos : p.store.posOf (some n) = s.posOf (some n) := by
    have hagree : Agree Node.pos s p.store := agree_redeclareAll (fun _ _ => rfl) (fun _ => rfl) s _
    exact congrArg (Option.getD · 0) (hagree (some n))
  have hnew : newKind? p.store verdicts n = newKind? s verdicts n := by rw [newKind?, hvar, newKind?]
  have hnotice : notice? p.store verdicts n = notice? s verdicts n := by
    rw [notice?, hvar, hpos, notice?]
  refine .get ?_
  rw [visitDeclarations_eq, hnew, hnotice]
  cases hkind : newKind? s verdicts n with
  | some kind =>
    have hnext : narrowed s verdicts lines (nodes ++ [n]) =
        ⟨p.store.redeclare n kind, p.warnings ++ []⟩ := by
      simp [narrowed, p, change?, warning?, hkind, notice?_eq_none hkind, redeclareAll]
    rw [hnext]
    exact .bind rfl rfl
  | none =>
    have hnext : narrowed s verdicts lines (nodes ++ [n]) =
        ⟨p.store, p.warnings ++ (notice? s verdicts n).toList.map fun (pos, notice) =>
          ⟨.letConst, pos, lines.lineOf pos, notice⟩⟩ := by
      cases hn : notice? s verdicts n <;> simp [narrowed, p, change?, warning?, hkind, hn]
    rw [hnext]
    exact .bind rfl rfl

theorem children_narrowed (m : Slot) :
    (narrowed s verdicts lines nodes).store.children m = s.children m := by
  have hagree : Agree (fun x => x.form.children) s (narrowed s verdicts lines nodes).store :=
    agree_redeclareAll (fun _ _ => Form.children_withKind ..) (fun _ => rfl) s _
  simpa [Store.children, form?, Option.map_map, Function.comp_def] using
    congrArg (Option.getD · []) (hagree m)

/-- A walk goes on from the nodes that it has been at to those below. -/
theorem leads_walk {fuel : Nat} (nodes : List NodeId)
    (hnodup : (nodes ++ postorder.go s fuel n).Nodup) :
    PassM.Leads (PassM.walk (PassM.decide .letConst lines (visitDeclarations verdicts)) fuel n)
      (narrowed s verdicts lines nodes)
      (narrowed s verdicts lines (nodes ++ postorder.go s fuel n)) := by
  induction fuel generalizing n nodes with
  | zero => exact (List.append_nil nodes).symm ▸ .pure _
  | succ fuel ih =>
    have hkids : ∀ (kids : List NodeId) (nodes : List NodeId),
        (nodes ++ kids.flatMap (postorder.go s fuel)).Nodup →
        PassM.Leads (kids.forM
            (PassM.walk (PassM.decide .letConst lines (visitDeclarations verdicts)) fuel))
          (narrowed s verdicts lines nodes)
          (narrowed s verdicts lines (nodes ++ kids.flatMap (postorder.go s fuel))) := by
      intro kids
      induction kids with
      | nil => exact fun nodes _ => (List.append_nil nodes).symm ▸ .pure _
      | cons c kids ihkids =>
        intro nodes hnodup
        rw [List.flatMap_cons, ← List.append_assoc] at hnodup ⊢
        exact .bind (ih nodes (List.nodup_append.1 hnodup).1) (ihkids _ hnodup)
    rw [postorder.go, ← List.append_assoc] at hnodup ⊢
    have hn : n ∉ nodes ++ (s.children (some n)).flatMap (postorder.go s fuel) := fun hmem =>
      (List.nodup_append.1 hnodup).2.2 n hmem n List.mem_cons_self rfl
    refine .get (.bind ?_ (leads_decide hn))
    rw [children_narrowed]
    exact hkids _ nodes (List.nodup_append.1 hnodup).1

theorem leads_narrowed {source : Text} {p : Program} (t : p.store.TreeAt p.root) :
    PassM.Leads (letConst.pass source lines p.root) ⟨p.store, []⟩
      (narrowed p.store (Scope.Analysis.ofProgram p).nameVerdicts lines
        (p.store.postorder p.root)) :=
  .get (leads_walk [] (t.nodup_postorder .refl))

theorem filter_warnings (hnodup : nodes.Nodup) (hn : n ∈ nodes)
    (hapart : ∀ m, s.isVarList m = true → s.posOf (some m) = s.posOf (some n) → m = n) :
    (narrowed s verdicts lines nodes).warnings.filter (·.pos == s.posOf (some n)) =
      (warning? s verdicts lines n).toList := by
  have hpos : ∀ {m w}, warning? s verdicts lines m = some w →
      s.isVarList m = true ∧ w.pos = s.posOf (some m) := by
    intro m w hw
    obtain ⟨⟨pos, notice⟩, hnotice, rfl⟩ := Option.map_eq_some_iff.1 hw
    unfold notice? at hnotice
    split at hnotice
    · rename_i hvar
      cases hnotice
      exact ⟨hvar.1, rfl⟩
    · cases hnotice
  have hother : ∀ l : List NodeId, n ∉ l →
      (l.filterMap (warning? s verdicts lines)).filter (·.pos == s.posOf (some n)) = [] := by
    intro l hl
    refine List.filter_eq_nil_iff.2 fun w hw heq => hl ?_
    obtain ⟨m, hm, hw⟩ := List.mem_filterMap.1 hw
    obtain ⟨hvar, hwpos⟩ := hpos hw
    exact hapart m hvar (hwpos.symm.trans (beq_iff_eq.1 heq)) ▸ hm
  obtain ⟨pre, post, rfl⟩ := List.append_of_mem hn
  obtain ⟨-, hpost, hdisjoint⟩ := List.nodup_append.1 hnodup
  have hpre : n ∉ pre := fun hmem => hdisjoint n hmem n List.mem_cons_self rfl
  have hpost := (List.nodup_cons.1 hpost).1
  change ((pre ++ n :: post).filterMap (warning? s verdicts lines)).filter _ = _
  rw [List.filterMap_append, List.filter_append, hother pre hpre, List.nil_append]
  cases hw : warning? s verdicts lines n with
  | none => rw [List.filterMap_cons_none hw, hother post hpost, Option.toList_none]
  | some w =>
    have heq : (w.pos == s.posOf (some n)) = true := beq_iff_eq.2 (hpos hw).2
    rw [List.filterMap_cons_some hw, List.filter_cons, if_pos heq, hother post hpost,
      Option.toList_some]

section

variable {list : DeclarationList} {w : Scope.Verdict}
  (hlist : s.form? (some n) = some (.declarationList list)) (hkind : list.kind = .varKind)

include hlist hkind

theorem isVarList_of_form : s.isVarList n = true := by
  rw [isVarList, hlist]
  exact beq_iff_eq.2 hkind

theorem kept_narrowed (hnone : Scope.verdict? verdicts n = none) (hnodup : nodes.Nodup)
    (hn : n ∈ nodes)
    (hapart : ∀ m, s.isVarList m = true → s.posOf (some m) = s.posOf (some n) → m = n) :
    (narrowed s verdicts lines nodes).store.form? (some n) = some (.declarationList list) ∧
      (narrowed s verdicts lines nodes).warnings.filter (·.pos == s.posOf (some n)) = [] := by
  have hvar := isVarList_of_form hlist hkind
  have hnew : newKind? s verdicts n = none := by rw [newKind?, if_pos hvar, hnone]
  refine ⟨(form?_narrowed fun _ => hnew).trans hlist, ?_⟩
  rw [filter_warnings hnodup hn hapart, warning?, notice?, if_neg (by simp [hnone])]
  rfl

theorem decided_narrowed (hw : Scope.verdict? verdicts n = some w) (hnodup : nodes.Nodup)
    (hn : n ∈ nodes)
    (hapart : ∀ m, s.isVarList m = true → s.posOf (some m) = s.posOf (some n) → m = n) :
    s.Decided lines (narrowed s verdicts lines nodes) n list := by
  have hvar := isVarList_of_form hlist hkind
  have hconverted : ∀ kind, kind = .letKind ∨ kind = .constKind →
      newKind? s verdicts n = some kind →
        s.Decided lines (narrowed s verdicts lines nodes) n list := by
    intro kind hnarrow hnew
    refine .converted hnarrow ?_ ?_
    · rw [form?_narrowed_of_mem hnodup hn hnew, hlist]
      rfl
    · rw [filter_warnings hnodup hn hapart, warning?, notice?_eq_none hnew]
      rfl
  cases w with
  | unsafe_ =>
    have hnew : newKind? s verdicts n = none := by rw [newKind?, if_pos hvar, hw]
    refine .kept ((form?_narrowed fun _ => hnew).trans hlist) ?_
    rw [filter_warnings hnodup hn hapart, warning?, notice?, if_pos ⟨hvar, hw⟩]
    rfl
  | letSafe =>
    apply hconverted .letKind (.inl rfl)
    rw [newKind?, if_pos hvar, hw]
  | constSafe =>
    apply hconverted .constKind (.inr rfl)
    rw [newKind?, if_pos hvar, hw]

end

theorem exists_of_mem_warnings {said : Warning}
    (h : said ∈ (narrowed s verdicts lines nodes).warnings) :
    ∃ l, s.isVarList l = true ∧ said = s.unsafeWarning lines l := by
  obtain ⟨l, -, hl⟩ := List.mem_filterMap.1 h
  obtain ⟨⟨pos, notice⟩, hnotice, rfl⟩ := Option.map_eq_some_iff.1 hl
  unfold notice? at hnotice
  split at hnotice
  · rename_i hbad
    cases hnotice
    exact ⟨l, hbad.1, rfl⟩
  · cases hnotice

end Rule

/-- A pass over the declarations decides on every `var` list with a name in it. Lists without names
stay as they are, and nothing else is changed or said. -/
theorem lists_decided {source : Text} {p : Program} (h : parse source = .ok p) (lines : LineMap) :
    ∃ p', PassM.Leads (Rule.letConst.pass source lines p.root) ⟨p.store, []⟩ p' ∧
      (∀ l list, p.store.form? (some l) = some (.declarationList list) → list.kind = .varKind →
        p.store.DeclaresName l → p.store.Decided lines p' l list) ∧
      (∀ l list, p.store.form? (some l) = some (.declarationList list) → list.kind = .varKind →
        ¬ p.store.DeclaresName l → p'.store.form? (some l) = some (.declarationList list) ∧
          p'.warnings.filter (·.pos == p.store.posOf (some l)) = []) ∧
      (∀ w ∈ p'.warnings, ∃ l, p.store.isVarList l = true ∧ w = p.store.unsafeWarning lines l) ∧
      (∀ n, p.store.isVarList n = false → p'.store.form? (some n) = p.store.form? (some n)) ∧
      Agree Node.unmarked p.store p'.store ∧ p'.store.comments = p.store.comments ∧
      p'.store.attached = p.store.attached := by
  have tree := treeAt_of_parse h
  have grows := (grows_of_parse h).1
  have hnested := nested_of_parse h
  let verdicts := (Scope.Analysis.ofProgram p).nameVerdicts
  let nodes := p.store.postorder p.root
  let final := Rule.narrowed p.store verdicts lines nodes
  have hnodup : nodes.Nodup := tree.nodup_postorder .refl
  have hleads : PassM.Leads (Rule.letConst.pass source lines p.root) ⟨p.store, []⟩ final :=
    Rule.leads_narrowed tree
  have hmem : ∀ l list, p.store.form? (some l) = some (.declarationList list) → l ∈ nodes :=
    fun l list hlist => (tree.mem_postorder_iff .refl).2 (grows.below (lt_size_of_form? hlist))
  -- a warning gives a position only, and no two lists begin at one
  have hapart : ∀ l list, p.store.form? (some l) = some (.declarationList list) →
      ∀ m, p.store.isVarList m = true → p.store.posOf (some m) = p.store.posOf (some l) → m = l := by
    intro l list hlist m hm heq
    obtain ⟨list', hlist', -⟩ := exists_of_isVarList hm
    obtain ⟨x, hx, hxform⟩ := Option.map_eq_some_iff.1 hlist'
    obtain ⟨y, hy, hyform⟩ := Option.map_eq_some_iff.1 hlist
    refine hnested.eq_of_pos_eq (placed_of_parse h).1 hx hy hxform hyform ?_
    simpa [posOf, hx, hy] using heq
  have hnameless : ∀ l list, p.store.form? (some l) = some (.declarationList list) →
      ¬ p.store.DeclaresName l → Scope.verdict? verdicts l = none := by
    intro l list hlist hnot
    by_contra hsome
    obtain ⟨w, hw⟩ := Option.ne_none_iff_exists'.1 hsome
    obtain ⟨f, hf⟩ := exists_nearest Form.inner (grows.below (lt_size_of_form? hlist))
    obtain ⟨d, t, x, hd, hx, -⟩ :=
      Scope.Analysis.decides_of_mem tree grows.forest hf (Scope.mem_of_verdict? hw)
    exact hnot ⟨d, t, x, hd, hx⟩
  refine ⟨final, hleads, ?named, ?nameless, fun w hw => Rule.exists_of_mem_warnings hw, ?others, ?_,
    comments_redeclareAll ..⟩
  case named =>
    rintro l list hlist hkind ⟨d, t, x, hd, hx⟩
    obtain ⟨-, w, -, hw, -⟩ := verdict_iff h hd hx
    exact Rule.decided_narrowed hlist hkind hw hnodup (hmem l list hlist) (hapart l list hlist)
  case nameless =>
    intro l list hlist hkind hnot
    exact Rule.kept_narrowed hlist hkind (hnameless l list hlist hnot) hnodup (hmem l list hlist)
      (hapart l list hlist)
  case others =>
    intro n hn
    apply Rule.form?_narrowed
    intro _
    apply if_neg
    rw [hn]
    exact Bool.false_ne_true
  exact agree_redeclareAll (fun x _ => by simp [Node.unmarked]) (fun _ => rfl) p.store _

theorem lists_decided_const :
    let source := "var x = 1;".toList
    ∃ p p', parse source = .ok p ∧
      PassM.Leads (Rule.letConst.pass source (.ofText source) p.root) ⟨p.store, []⟩ p' ∧
      p.store.DeclaresName 3 ∧
      p.store.Decided (.ofText source) p' 3 ⟨.varKind, ⟨[some 2], 4, 9⟩, .varKind⟩ := by
  intro source
  have hforms : ∀ p, parse source = .ok p →
      p.store.form? (some 3) = some (.declarationList ⟨.varKind, ⟨[some 2], 4, 9⟩, .varKind⟩) ∧
      p.store.form? (some 2) = some (.declaration (some 0) (some 1)) ∧
      p.store.form? (some 0) = some (.identifier "x") := of_parse (by decide +kernel)
  obtain ⟨p, hp⟩ := exists_parse_of_isOk source (by decide +kernel)
  obtain ⟨hlist, hdeclaration, htarget⟩ := hforms p hp
  obtain ⟨p', hleads, hdecided, -⟩ := lists_decided hp (.ofText source)
  have hnamed : p.store.DeclaresName 3 :=
    ⟨2, 0, "x", ⟨_, some 1, hlist, rfl, List.mem_cons_self, hdeclaration⟩, 0, .refl, htarget⟩
  exact ⟨p, p', hp, hleads, hnamed, hdecided 3 _ hlist rfl hnamed⟩

/-- A list without names stays a `var` list, and nothing is said of it. -/
theorem not_decided_of_nameless :
    let source := "var {} = o;".toList
    let list : DeclarationList := ⟨.varKind, ⟨[some 2], 4, 10⟩, .varKind⟩
    ∃ p p', parse source = .ok p ∧ p.store.form? (some 3) = some (.declarationList list) ∧
      PassM.Leads (Rule.letConst.pass source (.ofText source) p.root) ⟨p.store, []⟩ p' ∧
      ¬ p.store.Decided (.ofText source) p' 3 list := by
  intro source list
  have hlist : ∀ p, parse source = .ok p → p.store.form? (some 3) = some (.declarationList list) :=
    of_parse (by decide +kernel)
  have hfinal : ∀ p, parse source = .ok p →
      let final := ((Rule.letConst.pass source (.ofText source) p.root).run.run ⟨p.store, []⟩).2
      final.store.form? (some 3) = some (.declarationList list) ∧ final.warnings = [] :=
    of_parse (by decide +kernel)
  obtain ⟨p, hp⟩ := exists_parse_of_isOk source (by decide +kernel)
  obtain ⟨p', hleads, -⟩ := Rule.pass_leads Rule.letConst (fun _ => RuleName.letConst.decides _)
    source (.ofText source) (p := ⟨p.store, []⟩) (treeAt_of_parse hp)
  obtain ⟨hform, hwarnings⟩ := hfinal p hp
  rw [show (Rule.letConst.pass source (.ofText source) p.root).run.run _ = _ from hleads]
    at hform hwarnings
  refine ⟨p, p', hp, hlist p hp, hleads, fun hdecided => ?_⟩
  cases hdecided with
  | converted hkind hother _ =>
    rw [hform] at hother
    have hsame := congrArg DeclarationList.kind (Form.declarationList.inj (Option.some.inj hother))
    rcases hkind with rfl | rfl <;> exact absurd hsame (by decide)
  | kept _ hsaid =>
    rw [hwarnings] at hsaid
    cases hsaid

end Modernizer
