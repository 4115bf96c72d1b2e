import Modernizer.Proofs.Rule.Draft
import Modernizer.Rule.Declaration
import Modernizer.Rule.Directive

/-! The rules for declarations and directives. One relabels declaration lists where they are, one
drafts statements around single declarations, and one drafts nothing for directives to go. -/

namespace Modernizer

open Store

variable {root a n : NodeId} {s s' : Store}

namespace Store

theorem graft_relabel {A : NodeId → Prop} (t : s.TreeAt root) (hn : s.Below root n)
    (hr : s.Replaceable root n) {form : Form} (form' : Form) (hbody : form'.functionBody = none)
    (hf : s.form? (some n) = some form) (hslots : form'.slots = form.slots) :
    Graft root (· = n) A s (s.modify (some n) ({ · with form := form' })) := by
  have hother : ∀ m, m ≠ n →
      (s.modify (some n) ({ · with form := form' })).form? (some m) = s.form? (some m) :=
    fun m hm => by rw [form?_modify, if_neg fun e => hm (Option.some.inj e).symm]
  have hblock : ∀ b, s.IsBlock b →
      (s.modify (some n) ({ · with form := form' })).IsBlock b := fun b ⟨list, hl⟩ =>
    ⟨list, (hother b fun e => hr.not_block ⟨list, e ▸ hl⟩).trans hl⟩
  refine .relabel t (by simp) (fun m hm => ⟨?_, ?_, ?_⟩) (fun m hm hR => ?_)
    (Ne.symm hr.ne_root) hblock fun m f hmf b hfb => ?_
  · by_cases hmn : m = n
    · subst hmn
      obtain ⟨x, hx, -⟩ := get?_of_form? hf
      rw [children_eq_slots, children_eq_slots, slots, form?_modify, if_pos rfl, hx, slots, hf]
      exact congrArg present hslots
    · exact children_congr (hother m hmn)
  · exact isSynthesized_modify _ _ _ _ fun _ => rfl
  · rw [parent_modify]
    split <;> rfl
  · by_cases hmn : m = n
    · exact absurd ⟨hmn ▸ hn, hmn⟩ hR
    · exact hother m hmn
  · refine hblock b ?_
    by_cases hmn : m = n
    · subst hmn
      obtain ⟨x, hx, -⟩ := get?_of_form? hf
      rw [form?_modify, if_pos rfl, hx] at hmf
      cases hmf
      rw [hbody] at hfb
      cases hfb
    · exact t.bodied m f ((hother m hmn).symm.trans hmf) b hfb

end Store

namespace Rule

theorem decides_visitDeclarations (verdicts : List (NodeId × Scope.Verdict)) :
    Decides root (visitDeclarations verdicts) := by
  intro s n t hn
  have hconvert : ∀ list kind, s.form? (some n) = some (.declarationList list) →
      Settles root n (do
        set (s.modify (some n) ({ · with form := .declarationList { list with kind } }))
        return ⟨.inPlace, []⟩) s := by
    intro list kind hf
    have g := graft_relabel (A := NewSince s) t hn (t.replaceable hf rfl)
      (.declarationList { list with kind }) rfl hf rfl
    exact ⟨_, rfl, g.trans (.of_sameTree g.tree (sameTree_markModified _ _))⟩
  refine .get ?_
  split
  · rename_i list hf
    split
    · exact .keep t rfl
    · split
      · exact .keep t rfl
      · exact .keep t rfl
      · exact hconvert list _ hf
      · exact hconvert list _ hf
  · exact .keep t rfl

theorem strictDirectives_sublist (source : Text) (s : Store) (l : List Slot) :
    ∃ ds : List NodeId, strictDirectives source s l = ds.map some ∧ ds.Sublist (present l) := by
  induction l with
  | nil => exact ⟨[], rfl, .slnil⟩
  | cons statement l ih =>
    obtain ⟨ds, hds, hsub⟩ := ih
    rw [strictDirectives]
    cases hd : directive? source s statement with
    | none => exact ⟨[], rfl, List.nil_sublist _⟩
    | some raw =>
      obtain ⟨i, rfl⟩ : ∃ i, statement = some i := by
        cases statement with
        | none => cases hd
        | some i => exact ⟨i, rfl⟩
      dsimp only
      split
      · exact ⟨i :: ds, by rw [hds]; rfl, hsub.cons_cons i⟩
      · exact ⟨ds, hds, hsub.cons i⟩

theorem drafts_removals (t : s.TreeAt root) (hn : s.Below root n) {list : StatementList}
    (hlist : s.statementList? (some n) = some list) {ds : List NodeId}
    (hds : ∀ d ∈ ds, some d ∈ list.statements) (hnodup : ds.Nodup) :
    Drafts root n list (· ∈ ds) s s
      (ds.map fun d => Replacement.of (some n) (some d) [] []) := by
  induction ds with
  | nil => exact .none (.refl t) hlist
  | cons d ds ih =>
    obtain ⟨hd, hnodup⟩ := List.nodup_cons.1 hnodup
    have hrest := ih (fun d hd => hds d (List.mem_cons_of_mem _ hd)) hnodup
    have hfits : s.Fits root n list (Replacement.of (some n) (some d) [] []) [] [] [] :=
      ⟨rfl, ⟨d, rfl, hds d List.mem_cons_self⟩, by simp [Replacement.of], rfl,
        ⟨.nil, .nil, by simp, .nil, by simp⟩, by simp⟩
    have hone : Drafts root n list (· = d) s s [Replacement.of (some n) (some d) [] []] :=
      .one (.refl t) hlist hfits (by simp) fun c hc => by
        simpa using Replacement.claims_of.1 hc
    refine (hone.append hrest t hn hlist (fun c hc => hc ▸ hds d List.mem_cons_self)
      (fun c hc => hds c (List.mem_cons_of_mem _ hc)) fun c hc hc' => hd (hc ▸ hc')).mono t ?_
    exact fun c hc => List.mem_cons.2 hc

theorem decides_visitDirectives (source : Text) : Decides root (visitDirectives source) := by
  intro s n t hn
  refine .get ?_
  split
  · exact .keep t rfl
  · cases hlist : s.statementList? (some n) with
    | none => exact .keep t rfl
    | some list =>
      obtain ⟨ds, hds, hsub⟩ := strictDirectives_sublist source s list.statements
      dsimp only
      split
      · exact .keep t rfl
      · have hmem : ∀ d ∈ ds, some d ∈ list.statements := fun d hd =>
          mem_present.1 (hsub.subset hd)
        have h := drafts_removals t hn hlist hmem (hsub.nodup (t.nodup_statements hn hlist))
        have hmap : (strictDirectives source s list.statements).map
            (fun d => Replacement.of (some n) d [] []) =
            ds.map fun d => Replacement.of (some n) (some d) [] [] := by
          rw [hds, List.map_map]
          rfl
        rw [hmap]
        exact h.carryOut t hn hlist hmem

theorem builds_makeDeclaration (t : s.TreeAt root) {R : NodeId → Prop} (hR : s.Sites root R)
    (kind : DeclarationKind) {d : Slot} (h : s.Stock R (present [d])) :
    Builds root R [(makeDeclaration kind d s).1] (present [d]) s (makeDeclaration kind d s).2 ∧
      NewSince s (makeDeclaration kind d s).1 := by
  have h₁ := (Builds.stock t h).enclose (f := .declarationList ⟨kind, .ofNodes [d], kind⟩) t hR h
    (.of_none rfl)
  have h₂ := h₁.enclose (f := .variableStatement (some s.size)) t hR h (.of_none rfl)
  exact ⟨h₂, h₁.graft.size_le⟩

theorem builds_makeDeclarations (t : s.TreeAt root) {R : NodeId → Prop} (hR : s.Sites root R)
    (kind : DeclarationKind) {ds : List Slot} (h : s.Stock R (present ds)) :
    ∃ ns, (ds.mapM (fun d => some <$> makeDeclaration kind d) s).1 = ns.map some ∧
      (∀ c ∈ ns, NewSince s c) ∧
      Builds root R ns (present ds) s (ds.mapM (fun d => some <$> makeDeclaration kind d) s).2 := by
  induction ds generalizing s with
  | nil => exact ⟨[], rfl, by simp, .stock t h⟩
  | cons d ds ih =>
    have hsplit : present (d :: ds) = present [d] ++ present ds := present_append (l := [d])
    rw [hsplit] at h ⊢
    obtain ⟨hhead, hnew⟩ :=
      builds_makeDeclaration t hR kind (h.sublist (List.sublist_append_left ..))
    obtain ⟨ns, hns, hnew', hrest⟩ := ih hhead.tree (hhead.sites_left t hR h)
      ((hhead.stock_left t hR h).sublist (List.sublist_append_right ..))
    refine ⟨(makeDeclaration kind d s).1 :: ns, ?_, fun c hc => ?_, ?_⟩
    · rw [List.mapM_cons]
      exact congrArg (some (makeDeclaration kind d s).1 :: ·) hns
    · rcases List.mem_cons.1 hc with rfl | hc
      · exact hnew
      · exact newSince_mono hhead.graft.size_le (hnew' c hc)
    · rw [List.mapM_cons]
      exact hhead.append hrest t hR h

theorem stock_severalDeclarations (t : s.TreeAt root) {kind : DeclarationKind}
    {ds : List Slot} {statement : Slot}
    (h : severalDeclarations? s statement = some (kind, ds)) : ∃ c, statement = some c ∧
      (s.Below root c → s.Stock (· = c) (present ds)) := by
  unfold severalDeclarations? at h
  split at h
  · rename_i list hf
    obtain ⟨c, rfl, hc⟩ := exists_of_form? hf
    refine ⟨c, rfl, fun hb => ?_⟩
    split at h
    · rename_i list hl
      obtain ⟨i, rfl, hi⟩ := exists_of_form? hl
      have hci : s.Holds c i := holds_of_form hc List.mem_cons_self
      split at h
      · obtain ⟨rfl, rfl⟩ := Prod.mk.inj (Option.some.inj h)
        exact ((Pieces.of_form t (hb.tail hci) hi).up hci.below).stock rfl
      · cases h
    · cases h
  · cases h

theorem sameTree_attachLeading (s : Store) (n : Slot) (comments : List Nat) :
    SameTree s (s.attachLeading n comments) := sameTree_setAttached s n _

theorem sameTree_shareComments (s : Store) (statement : Slot) (parts : List Slot) :
    SameTree s (shareComments s statement parts) := by
  unfold shareComments
  split
  · dsimp only
    split
    · exact sameTree_attachLeading ..
    · exact (sameTree_attachLeading ..).trans (sameTree_setAttached ..)
  · exact .refl s

theorem splitStatement_eq (s : Store) (statement : Slot) : splitStatement statement s =
    match severalDeclarations? s statement with
    | none => (none, s)
    | some (kind, ds) =>
      let made := ds.mapM (fun d => some <$> makeDeclaration kind d) s
      (some made.1, shareComments made.2 statement made.1) := by
  unfold splitStatement
  cases h : severalDeclarations? s statement with
  | none =>
    dsimp only [bind, StateT.bind, get, getThe, MonadStateOf.get, StateT.get, pure]
    rw [h]
    rfl
  | some found =>
    dsimp only [bind, StateT.bind, get, getThe, MonadStateOf.get, StateT.get, pure]
    rw [h]
    rfl

theorem drafts_splitStatement (t : s.TreeAt root) (hn : s.Below root n) {list : StatementList}
    (hlist : s.statementList? (some n) = some list) {statement : Slot}
    (hst : statement ∈ list.statements) :
    Drafts root n list (some · = statement) s (splitStatement statement s).2
      ((splitStatement statement s).1.map (Replacement.of (some n) statement [])).toList := by
  rw [splitStatement_eq]
  cases h : severalDeclarations? s statement with
  | none => exact .none (.refl t) hlist
  | some found =>
    obtain ⟨kind, ds⟩ := found
    obtain ⟨c, rfl, hstock⟩ := stock_severalDeclarations t h
    have hc : s.Below root c := hn.tail (holds_of_mem_statements hlist hst)
    have hclaims : ∀ l, (Replacement.of (some n) (some c) [] l).Claims = (· = c) :=
      fun l => funext fun c' => propext (by simp [Replacement.claims_of])
    have hR : s.Sites root (· = c) := hc.sites
    obtain ⟨ns, hns, hnew, hmake⟩ := builds_makeDeclarations t hR kind (hstock hc)
    dsimp only
    rw [hns]
    have hshare := hmake.adds t hR (hstock hc) <| .of_sameTree hmake.tree <|
      sameTree_shareComments _ (some c) (ns.map some)
    rw [← hclaims (ns.map some)] at hshare
    refine (Drafts.of_builds hshare t hn hlist (hclaims _ ▸ hstock hc) rfl rfl ⟨c, rfl⟩ ?_ ?_
      hnew).mono t fun c' hc' => ?_
    · simpa [Replacement.of] using hst
    · simp [Replacement.of]
    · rw [hclaims] at hc'
      exact congrArg some hc'

def splitDraft (n : NodeId) (statement : Slot) : StateM Store (Option Replacement) := do
  return (← splitStatement statement).map (Replacement.of (some n) statement [])

theorem visitStatements_eq {list : StatementList} (hlist : s.statementList? (some n) = some list) :
    visitStatements n s =
      let made := list.statements.filterMapM (splitDraft n) s
      (if made.1.isEmpty then .keep else ⟨.replaceStatements made.1, []⟩, made.2) := by
  unfold visitStatements
  dsimp only [bind, StateT.bind, get, getThe, MonadStateOf.get, StateT.get, pure]
  rw [hlist]
  change (match list.statements.filterMapM (splitDraft n) s with
    | (rs, s') => (if rs.isEmpty then pure .keep
        else pure ⟨.replaceStatements rs, []⟩ : StateM Store Decision) s') = _
  generalize list.statements.filterMapM (splitDraft n) s = made
  obtain ⟨rs, s'⟩ := made
  dsimp only
  split <;> rfl

theorem decides_visitStatements : Decides root visitStatements := by
  intro s n t hn
  cases hlist : s.statementList? (some n) with
  | none =>
    refine .get ?_
    rw [hlist]
    exact .keep t rfl
  | some list =>
    have hdisj : list.statements.Pairwise fun a b => ∀ c, some c = a → ¬ some c = b :=
      (List.pairwise_filterMap.1 (t.nodup_statements hn hlist)).imp fun h c hc hc' =>
        h c hc.symm c hc'.symm rfl
    obtain ⟨h, -⟩ := Drafts.filterMapM (splitDraft n) (fun st c => some c = st)
      (fun _ => []) (fun _ => []) (fun st hst c hc => hc ▸ hst) hdisj
      (fun st hst s t hn hlist _ _ => drafts_splitStatement t hn hlist hst) t hn hlist
      (fun _ _ => ⟨.nil, by simp⟩) (by simp)
    have hR : ∀ c, (∃ st ∈ list.statements, some c = st) → some c ∈ list.statements :=
      fun c ⟨st, hst, hc⟩ => hc ▸ hst
    rw [Settles, visitStatements_eq hlist]
    by_cases hempty : (list.statements.filterMapM (splitDraft n) s).1.isEmpty
    · simp only [hempty, if_true]
      exact ⟨_, rfl, h.editAt t hn hlist hR⟩
    · simp only [hempty, if_false, Bool.false_eq_true]
      exact h.carryOut t hn hlist hR

end Rule

end Modernizer
