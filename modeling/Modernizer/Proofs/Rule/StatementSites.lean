import Modernizer.Proofs.Rule.Sites
import Modernizer.Proofs.Rule.Statement
import Modernizer.Proofs.Tree.Resequencing

/-! Sites of the rules that put other statements into containers. -/

namespace Modernizer

open Store

variable {k : Form → Bool} {root m n q : NodeId} {s s' s₁ : Store} {source : Text} {v : Slot}
  {l : List Slot}

namespace Rule

/-- At a site the decision is to carry out some replacements, and else all stays. -/
inductive Rearranges (s : Store) (Site : Prop) (Draft : List Replacement → Store → Prop)
    (decision : StateM Store Decision) : Prop where
  | keep : ¬ Site → decision s = (.keep, s) → Rearranges s Site Draft decision
  | make {rs : List Replacement} {s₁ : Store} : Site → Draft rs s₁ →
      decision s = (⟨.replaceStatements rs, []⟩, s₁) → Rearranges s Site Draft decision

theorem actsAt_of_rearranges {visit : NodeId → StateM Store Decision} {Site : Store → NodeId → Prop}
    {Draft : Store → NodeId → List Replacement → Store → Prop}
    (hkind : ∀ f g, k (Form.mapSlots g f) = k f)
    (hvisit : ∀ s n, Rearranges s (Site s n) (Draft s n) (visit n))
    (halike : ∀ s s' m, Alike k root m s s' → Site s' m → Site s m)
    (hturn : ∀ s n rs s₁ s', s.TreeAt root → s'.TreeAt root → s.Below root n → Draft s n rs s₁ →
      rs.foldlM applyReplacement s₁ = .ok s' → Reworks root n n s s' ∧
        ∀ q f, q = n ∨ s.size ≤ q → s'.form? (some q) = some f → k f = false ∧ ¬ Site s' q) :
    ActsAt k root Site (fun _ => True) visit where
  kind := hkind
  keep s n hno := by
    cases hvisit s n with
    | keep _ hkeep => exact hkeep
    | make hsite _ _ => exact absurd hsite hno
  acts s n hsite := by
    cases hvisit s n with
    | keep hno _ => exact absurd hsite hno
    | make _ _ hmake =>
      rw [hmake]
      exact ⟨Edit.noConfusion, rfl⟩
  alike := halike
  turn s n s' t t' hn _ hsite hs := by
    cases hvisit s n with
    | keep hno _ => exact absurd hsite hno
    | @make rs s₁ _ hdraft hmake =>
      rw [hmake] at hs
      obtain ⟨h, hnew⟩ := hturn s n rs s₁ s' t t' hn hdraft hs
      exact ⟨n, h, trivial, hnew⟩

/-! Directives. -/

theorem directive?_of_steady (t : s.TreeAt root) (h : Steady root s s' v)
    (hstanding : ∀ q, s.Below root q →
      (s'.get? (some q)).map standing = (s.get? (some q)).map standing) :
    directive? source s' v = directive? source s v := by
  unfold directive?
  rw [h.form]
  split
  · rename_i e hf
    have he := h.child hf List.mem_cons_self
    cases e with
    | none => rfl
    | some i =>
      obtain ⟨hi, -⟩ := he i rfl
      obtain ⟨x, x', hx, hx', hsame⟩ := t.exists_standing hi (hstanding i hi)
      simp only [standing, Prod.mk.injEq] at hsame
      have hform := he.form
      rw [form?, form?, hx, hx'] at hform
      have hform : x'.form = x.form := Option.some.inj hform
      simp only [hx, hx', hform, hsame]
  · rfl

theorem strictDirectives_congr (h : ∀ v ∈ l, directive? source s' v = directive? source s v) :
    strictDirectives source s' l = strictDirectives source s l := by
  induction l with
  | nil => rfl
  | cons v l ih =>
    rw [strictDirectives, strictDirectives, h v List.mem_cons_self,
      ih fun v hv => h v (List.mem_cons_of_mem _ hv)]

theorem isStrictDirective_of_mem (h : v ∈ strictDirectives source s l) :
    ∃ raw, directive? source s v = some raw ∧ isStrictDirective raw = true := by
  induction l with
  | nil => exact (List.not_mem_nil h).elim
  | cons statement l ih =>
    rw [strictDirectives] at h
    split at h
    · exact (List.not_mem_nil h).elim
    · rename_i raw hraw
      split at h
      · rename_i hstrict
        rcases List.mem_cons.1 h with rfl | h
        · exact ⟨raw, hraw, hstrict⟩
        · exact ih h
      · exact ih h

theorem strictDirectives_diff (source : Text) (s : Store) (l : List Slot) :
    strictDirectives source s (l.diff (strictDirectives source s l)) = [] := by
  induction l with
  | nil => rfl
  | cons statement l ih =>
    cases hd : directive? source s statement with
    | none =>
      have hnone : strictDirectives source s (statement :: l) = [] := by rw [strictDirectives, hd]
      rw [hnone, List.diff_nil, hnone]
    | some raw =>
      rw [strictDirectives, hd]
      dsimp only
      split
      · rw [List.diff_cons, List.erase_cons_head]
        exact ih
      · rename_i hno
        have hmem : statement ∉ strictDirectives source s l := by
          intro hmem
          obtain ⟨raw', hraw', hstrict⟩ := isStrictDirective_of_mem hmem
          rw [hd] at hraw'
          cases hraw'
          exact hno hstrict
        rw [List.cons_diff, if_neg hmem, strictDirectives, hd]
        dsimp only
        rw [if_neg hno]
        exact ih

def DirectiveSite (source : Text) (s : Store) (n : NodeId) : Prop :=
  hasDirectives s n = true ∧ ∃ list, s.statementList? (some n) = some list ∧
    strictDirectives source s list.statements ≠ []

def Unstricts (source : Text) (s : Store) (n : NodeId) (rs : List Replacement) (s₁ : Store) : Prop :=
  s₁ = s ∧ ∃ list, s.statementList? (some n) = some list ∧
    rs = (strictDirectives source s list.statements).map fun d => .of (some n) d [] []

theorem rearranges_visitDirectives (source : Text) (s : Store) (n : NodeId) :
    Rearranges s (DirectiveSite source s n) (Unstricts source s n) (visitDirectives source n) := by
  by_cases hsite : DirectiveSite source s n
  · obtain ⟨hdirectives, list, hlist, hfound⟩ := id hsite
    refine .make hsite ⟨rfl, list, hlist, rfl⟩ ?_
    change (if !hasDirectives s n then pure .keep else _ : StateM Store Decision) s = _
    rw [hdirectives]
    simp only [Bool.not_true, Bool.false_eq_true, if_false, hlist]
    rfl
  · refine .keep hsite ?_
    change (if !hasDirectives s n then pure .keep else _ : StateM Store Decision) s = _
    split
    · rfl
    · rename_i hdirectives
      cases hlist : s.statementList? (some n) with
      | none => rfl
      | some list =>
        dsimp only
        cases hfound : strictDirectives source s list.statements with
        | nil => rfl
        | cons d ds =>
          refine absurd ⟨by simpa using hdirectives, list, hlist, ?_⟩ hsite
          rw [hfound]
          exact List.cons_ne_nil d ds

theorem isFunctionLike_of_statementList? {f : Form} {list : StatementList}
    (h : f.statementList? = some list) : f.isFunctionLike = false := by
  cases f <;> first | rfl | cases h

theorem actsAt_visitDirectives : ActsAt Form.isFunctionLike root (DirectiveSite source)
    (fun _ => True) (visitDirectives source) := by
  refine actsAt_of_rearranges (fun f g => by cases f <;> rfl) (rearranges_visitDirectives source)
    (fun s s' m h hsite => ?_) fun s n rs s₁ s' t t' hn hdraft hs => ?_
  · -- a site shows in its statements and, if it is a block, in the kind of its holder
    obtain ⟨hdirectives, list, hlist, hfound⟩ := hsite
    have hlist' : s.statementList? (some m) = some list := by rwa [statementList?, ← h.form]
    obtain ⟨f, hf, hl⟩ := statementList?_eq_some hlist'
    obtain ⟨head, hslots, -⟩ := statementList?_slots hl
    refine ⟨?_, list, hlist', ?_⟩
    · unfold hasDirectives at hdirectives ⊢
      rw [h.form] at hdirectives
      split
      · rfl
      · rename_i hblock
        rw [hblock] at hdirectives
        exact h.holder hdirectives
      · rename_i hprogram hblock
        split at hdirectives
        · exact absurd ‹_› (hprogram _)
        · exact absurd ‹_› (hblock _)
        · cases hdirectives
    · rwa [strictDirectives_congr fun v hv => directive?_of_steady h.tree
        (h.steady hf (hslots ▸ List.mem_append_right _ hv)) h.standing] at hfound
  · obtain ⟨rfl, list, hlist, rfl⟩ := hdraft
    have h := resequences_of_foldlM hs (by simp [Replacement.of]) hlist
    have hmade : ((strictDirectives source s₁ list.statements).map fun d =>
        Replacement.of (some n) d [] []).flatMap (·.replacements) = [] := by
      simp [Replacement.of]
    have hrest : ((strictDirectives source s₁ list.statements).map fun d =>
        Replacement.of (some n) d [] []).foldl (fun l r => r.result l) list.statements =
          list.statements.diff (strictDirectives source s₁ list.statements) := by
      simp only [List.foldl_map, Replacement.result_nil, List.diff_eq_foldl]
    rw [hmade, hrest] at h
    obtain ⟨f, hf, hl⟩ := statementList?_eq_some hlist
    obtain ⟨head, hslots, -⟩ := statementList?_slots hl
    have hout : ∀ q, s₁.size ≤ q → s₁.form? (some q) = none := fun q hq => by
      rw [form?, get?_eq_none_iff.2 hq]
      rfl
    -- statements only go away, and no node is new
    have hworks := reworks_of_resequences t hn (.refl s₁) hlist h t' (by simp)
      (fun c hc => .inl ((List.diff_sublist ..).subset hc)) fun q c hq hc => by
        rw [Holds, children, hout q hq] at hc
        exact (List.not_mem_nil hc).elim
    refine ⟨hworks, fun q f' hq hf' => ?_⟩
    rcases hq with rfl | hq
    · have hlist' := h.statementList? hlist
      refine ⟨isFunctionLike_of_statementList? (by rwa [statementList?, hf'] at hlist'), ?_⟩
      rintro ⟨-, list', hlist'', hfound⟩
      cases hlist'.symm.trans hlist''
      refine hfound ?_
      rw [strictDirectives_congr fun v hv => ?_]
      · exact strictDirectives_diff source s₁ list.statements
      · have hv : v ∈ f.slots := hslots ▸ List.mem_append_right _ ((List.diff_sublist ..).subset hv)
        exact directive?_of_steady t (hworks.steady hf hv) hworks.standing
    · rw [h.form q fun e => Nat.not_le_of_lt (t.lt_size hn) (e ▸ hq), hout q hq] at hf'
      cases hf'

/-! Declarations. -/

/-- A container with a statement of several declarations. -/
def SplitSite (s : Store) (n : NodeId) : Prop :=
  ∃ list, s.statementList? (some n) = some list ∧
    ∃ v ∈ list.statements, (severalDeclarations? s v).isSome = true

theorem severalDeclarations?_of_steady (h : Steady root s s' v) :
    severalDeclarations? s' v = severalDeclarations? s v := by
  unfold severalDeclarations?
  rw [h.form]
  split
  · rename_i list hf
    rw [(h.child hf List.mem_cons_self).form]
  · rfl

def LoneIn (s : Store) (n : NodeId) (s₁ : Store) (i : NodeId) : Prop :=
  ∃ kind d, s₁.form? (some i) = some (.declarationList ⟨kind, .ofNodes [d], kind⟩) ∧
    ∀ c, d = some c → s.Below n c ∧ c ≠ n

/-- All new nodes are such lists, or statements with them. -/
structure Splits (s : Store) (n : NodeId) (s₁ : Store) : Prop where
  enlarges : Enlarges s s₁
  made : ∀ q, s.size ≤ q → q < s₁.size → LoneIn s n s₁ q ∨
    ∃ i, s.size ≤ i ∧ LoneIn s n s₁ i ∧ s₁.form? (some q) = some (.variableStatement (some i))

namespace Splits

variable {kind : DeclarationKind} {d statement : Slot} {ds : List Slot}

theorem refl (s : Store) (n : NodeId) : Splits s n s :=
  ⟨.refl s, fun _ hq hlt => absurd hq (Nat.not_le_of_lt hlt)⟩

theorem of_enlarges {s₂ : Store} (h : Splits s n s₁) (h' : Enlarges s₁ s₂)
    (hmade : ∀ q, s₁.size ≤ q → q < s₂.size → LoneIn s n s₂ q ∨ ∃ i, s.size ≤ i ∧ LoneIn s n s₂ i ∧
      s₂.form? (some q) = some (.variableStatement (some i))) : Splits s n s₂ := by
  have hkeep : ∀ q f, s₁.form? (some q) = some f → s₂.form? (some q) = some f := fun q f hf =>
    (h'.form (lt_size_of_form? hf)).trans hf
  have hlone : ∀ i, LoneIn s n s₁ i → LoneIn s n s₂ i := fun i hi => by
    obtain ⟨kind, d, hf, hd⟩ := hi
    exact ⟨kind, d, hkeep i _ hf, hd⟩
  refine ⟨h.enlarges.trans h', fun q hq hlt => ?_⟩
  by_cases hnew : s₁.size ≤ q
  · exact hmade q hnew hlt
  · refine (h.made q hq (Nat.lt_of_not_le hnew)).imp (hlone q) fun hst => ?_
    obtain ⟨i, hi, hlist, hf⟩ := hst
    exact ⟨i, hi, hlone i hlist, hkeep q _ hf⟩

theorem makeDeclaration (h : Splits s n s₁) (kind : DeclarationKind)
    (hd : ∀ c, d = some c → s.Below n c ∧ c ≠ n) :
    Splits s n (makeDeclaration kind d s₁).2 ∧ s.size ≤ (makeDeclaration kind d s₁).1 := by
  let list : Form := .declarationList ⟨kind, .ofNodes [d], kind⟩
  let s₂ := (s₁.synthesize list).2
  let s₃ := (s₂.synthesize (.variableStatement (some s₁.size))).2
  have hsize : s₂.size = s₁.size + 1 := size_synthesize ..
  have hsize₃ : s₃.size = s₂.size + 1 := size_synthesize ..
  have hlist : LoneIn s n s₃ s₁.size := by
    refine ⟨kind, d, ?_, hd⟩
    rw [form?, get?_synthesize_of_ne (by simp [hsize]), get?_synthesize, if_pos rfl]
    rfl
  change Splits s n s₃ ∧ s.size ≤ s₂.size
  refine ⟨h.of_enlarges (((Enlarges.refl s₁).synthesize list).synthesize _) fun q hq hlt => ?_,
    hsize ▸ Nat.le_succ_of_le h.enlarges.size_le⟩
  by_cases he : q = s₁.size
  · exact .inl (he ▸ hlist)
  · obtain rfl : q = s₂.size := by omega
    refine .inr ⟨s₁.size, h.enlarges.size_le, hlist, ?_⟩
    rw [form?, get?_synthesize, if_pos rfl]
    rfl

theorem makeDeclarations (h : Splits s n s₁) (kind : DeclarationKind)
    (hds : ∀ c, some c ∈ ds → s.Below n c ∧ c ≠ n) :
    Splits s n (ds.mapM (fun d => some <$> Rule.makeDeclaration kind d) s₁).2 ∧
      ∀ c, some c ∈ (ds.mapM (fun d => some <$> Rule.makeDeclaration kind d) s₁).1 →
        s.size ≤ c := by
  induction ds generalizing s₁ with
  | nil => exact ⟨h, fun c hc => (List.not_mem_nil hc).elim⟩
  | cons d ds ih =>
    obtain ⟨hmade, hnew⟩ := h.makeDeclaration kind fun c hc => hds c (hc ▸ List.mem_cons_self)
    obtain ⟨hrest, hnews⟩ := ih hmade fun c hc => hds c (List.mem_cons_of_mem _ hc)
    rw [List.mapM_cons]
    refine ⟨hrest, fun c hc => ?_⟩
    rcases List.mem_cons.1 hc with hc | hc
    · exact Option.some.inj hc ▸ hnew
    · exact hnews c hc

theorem shareComments (h : Splits s n s₁) (statement : Slot) (parts : List Slot) :
    Splits s n (Rule.shareComments s₁ statement parts) := by
  have hsame : (Rule.shareComments s₁ statement parts).nodes = s₁.nodes ∧
      (Rule.shareComments s₁ statement parts).comments = s₁.comments := by
    unfold Rule.shareComments
    split
    · dsimp only
      split <;> exact ⟨rfl, rfl⟩
    · exact ⟨rfl, rfl⟩
  have hsize : (Rule.shareComments s₁ statement parts).size = s₁.size :=
    congrArg Array.size hsame.1
  refine h.of_enlarges ⟨Nat.le_of_eq hsize.symm, fun m _ => ?_, hsame.2⟩ fun q hq hlt => ?_
  · rw [get?, hsame.1, ← get?]
  · exact absurd hq (Nat.not_le_of_lt (hsize ▸ hlt))

section draft

variable (t : s.TreeAt root) (hn : s.Below root n)

include t hn

theorem mem_severalDeclarations (hv : ∀ a, v = some a → s.Below n a ∧ a ≠ n) {c : NodeId}
    (h : severalDeclarations? s v = some (kind, ds)) (hc : some c ∈ ds) : s.Below n c ∧ c ≠ n := by
  unfold severalDeclarations? at h
  split at h
  · rename_i list hf
    obtain ⟨a, rfl, hf⟩ := exists_of_form? hf
    split at h
    · rename_i list hl
      obtain ⟨i, rfl, hi⟩ := exists_of_form? hl
      split at h
      · obtain ⟨rfl, rfl⟩ := Prod.mk.inj (Option.some.inj h)
        refine t.part_trans hn (hv a rfl) ((holds_of_form hf List.mem_cons_self).below.trans ?_)
        exact (holds_of_form hi hc).below
      · cases h
    · cases h
  · cases h

theorem splitStatement (h : Splits s n s₁) (hv : ∀ a, v = some a → s.Below n a ∧ a ≠ n) :
    Splits s n (Rule.splitStatement v s₁).2 ∧
      (Rule.splitStatement v s₁).1.isSome = (severalDeclarations? s v).isSome ∧
      ∀ parts, (Rule.splitStatement v s₁).1 = some parts → ∀ c, some c ∈ parts → s.size ≤ c := by
  have hsame : severalDeclarations? s₁ v = severalDeclarations? s v :=
    severalDeclarations?_of_steady (h.enlarges.steady t fun a e => hn.trans (hv a e).1)
  rw [splitStatement_eq, hsame]
  cases hd : severalDeclarations? s v with
  | none => exact ⟨h, rfl, fun _ e => by cases e⟩
  | some found =>
    obtain ⟨kind, ds⟩ := found
    obtain ⟨hmade, hnew⟩ := h.makeDeclarations kind fun c hc => mem_severalDeclarations t hn hv hd hc
    refine ⟨hmade.shareComments _ _, rfl, fun parts hparts c hc => hnew c ?_⟩
    exact Option.some.inj hparts ▸ hc

theorem filterMapM_splitDraft (h : Splits s n s₁)
    (hl : ∀ v ∈ l, ∀ a, v = some a → s.Below n a ∧ a ≠ n) : ∃ xs : List (Slot × List Slot),
      (l.filterMapM (splitDraft n) s₁).1 = xs.map (fun x => .of (some n) x.1 [] x.2) ∧
      xs.map Prod.fst = l.filter (fun v => (severalDeclarations? s v).isSome) ∧
      (∀ x ∈ xs, ∀ c, some c ∈ x.2 → s.size ≤ c) ∧
      Splits s n (l.filterMapM (splitDraft n) s₁).2 := by
  induction l generalizing s₁ with
  | nil => exact ⟨[], rfl, rfl, by simp, h⟩
  | cons v l ih =>
    obtain ⟨hhead, hsome, hnew⟩ := h.splitStatement t hn (hl v List.mem_cons_self)
    obtain ⟨xs, hxs, hanchors, hnews, hrest⟩ := ih hhead fun w hw => hl w (List.mem_cons_of_mem _ hw)
    have hdraft : splitDraft n v s₁ =
        ((Rule.splitStatement v s₁).1.map (Replacement.of (some n) v []),
          (Rule.splitStatement v s₁).2) := rfl
    rw [Drafts.filterMapM_cons_eq, hdraft, hxs]
    cases hparts : (Rule.splitStatement v s₁).1 with
    | none =>
      rw [hparts] at hsome
      exact ⟨xs, rfl, by rw [List.filter_cons_of_neg (by simp [← hsome]), hanchors], hnews, hrest⟩
    | some parts =>
      rw [hparts] at hsome
      refine ⟨(v, parts) :: xs, rfl, ?_, fun x hx => ?_, hrest⟩
      · rw [List.filter_cons_of_pos (by simp [← hsome]), List.map_cons, hanchors]
      · rcases List.mem_cons.1 hx with rfl | hx
        · exact hnew parts hparts
        · exact hnews x hx

end draft

end Splits

theorem mem_foldl_result {xs : List (Slot × List Slot)}
    (hv : v ∈ (xs.map fun x => Replacement.of (some n) x.1 [] x.2).foldl (fun l r => r.result l) l)
    (hnew : ∀ x ∈ xs, v ∉ x.2) (hcount : l.count v ≤ 1) : v ∈ l ∧ v ∉ xs.map Prod.fst := by
  induction xs generalizing l with
  | nil => exact ⟨hv, List.not_mem_nil⟩
  | cons x xs ih =>
    have hperm := Replacement.perm_result (some n) x.1 l x.2
    have hnone : x.2.count v = 0 := List.count_eq_zero.2 (hnew x List.mem_cons_self)
    obtain ⟨hmem, hrest⟩ := ih hv (fun y hy => hnew y (List.mem_cons_of_mem _ hy)) (by
      rw [hperm.count_eq, List.count_append, hnone, Nat.zero_add]
      exact (List.erase_sublist.count_le v).trans hcount)
    have herase : v ∈ l.erase x.1 :=
      (List.mem_append.1 (hperm.mem_iff.1 hmem)).resolve_left (hnew x List.mem_cons_self)
    refine ⟨List.mem_of_mem_erase herase, fun hx => ?_⟩
    rcases List.mem_cons.1 hx with rfl | hx
    · have hpos := List.count_pos_iff.2 herase
      rw [List.count_erase_self] at hpos
      omega
    · exact hrest hx

/-- The decision splits all statements that can be split. -/
def SplitsAll (s : Store) (n : NodeId) (rs : List Replacement) (s₁ : Store) : Prop :=
  ∃ list, s.statementList? (some n) = some list ∧
    list.statements.filterMapM (splitDraft n) s = (rs, s₁)

theorem splitDraft_none (h : severalDeclarations? s v = none) : splitDraft n v s = (none, s) := by
  have hdraft : splitDraft n v s = ((splitStatement v s).1.map (Replacement.of (some n) v []),
    (splitStatement v s).2) := rfl
  rw [hdraft, splitStatement_eq, h]
  rfl

theorem filterMapM_splitDraft_nil (h : ∀ v ∈ l, severalDeclarations? s v = none) :
    l.filterMapM (splitDraft n) s = ([], s) := by
  induction l with
  | nil => rfl
  | cons v l ih =>
    rw [Drafts.filterMapM_cons_eq, splitDraft_none (h v List.mem_cons_self)]
    exact ih fun w hw => h w (List.mem_cons_of_mem _ hw)

theorem filterMapM_splitDraft_ne_nil (h : ∃ v ∈ l, (severalDeclarations? s v).isSome = true) :
    (l.filterMapM (splitDraft n) s).1 ≠ [] := by
  induction l with
  | nil =>
    obtain ⟨v, hv, -⟩ := h
    exact (List.not_mem_nil hv).elim
  | cons v l ih =>
    rw [Drafts.filterMapM_cons_eq]
    cases hv : severalDeclarations? s v with
    | none =>
      rw [splitDraft_none hv]
      refine ih ?_
      obtain ⟨w, hw, hsome⟩ := h
      rcases List.mem_cons.1 hw with rfl | hw
      · rw [hv] at hsome
        cases hsome
      · exact ⟨w, hw, hsome⟩
    | some found =>
      have hdraft : (splitDraft n v s).1 =
          (splitStatement v s).1.map (Replacement.of (some n) v []) := rfl
      rw [hdraft, splitStatement_eq, hv]
      exact List.cons_ne_nil _ _

theorem rearranges_visitStatements (s : Store) (n : NodeId) :
    Rearranges s (SplitSite s n) (SplitsAll s n) (visitStatements n) := by
  cases hlist : s.statementList? (some n) with
  | none =>
    refine .keep (fun ⟨list, hlist', _⟩ => ?_) ?_
    · rw [hlist] at hlist'
      cases hlist'
    · unfold visitStatements
      dsimp only [bind, StateT.bind, get, getThe, MonadStateOf.get, StateT.get, pure]
      rw [hlist]
      rfl
  | some list =>
    by_cases hsite : ∃ v ∈ list.statements, (severalDeclarations? s v).isSome = true
    · refine .make ⟨list, hlist, hsite⟩ ⟨list, hlist, rfl⟩ ?_
      rw [visitStatements_eq hlist]
      simp only [List.isEmpty_iff, filterMapM_splitDraft_ne_nil hsite, if_false]
      rfl
    · refine .keep (fun ⟨list', hlist', hsite'⟩ => ?_) ?_
      · cases hlist.symm.trans hlist'
        exact hsite hsite'
      · have hnone : ∀ v ∈ list.statements, severalDeclarations? s v = none := fun v hv =>
          Option.not_isSome_iff_eq_none.1 fun hsome => hsite ⟨v, hv, hsome⟩
        rw [visitStatements_eq hlist, filterMapM_splitDraft_nil hnone]
        rfl

namespace Splits

variable (h : Splits s n s₁)

include h

theorem holds {c : NodeId} (hq : s.size ≤ q) (hc : s₁.Holds q c) :
    (s.Below n c ∧ c ≠ n) ∨ s.size ≤ c := by
  obtain ⟨f, hf, hcf⟩ := form?_eq_some_of_holds hc
  have hcf : some c ∈ f.slots := mem_present.1 hcf
  rcases h.made q hq (lt_size_of_form? hf) with ⟨kind, d, hlist, hd⟩ | ⟨i, hi, -, hst⟩
  · cases hf.symm.trans hlist
    exact .inl (hd c (List.mem_singleton.1 hcf).symm)
  · cases hf.symm.trans hst
    exact .inr (Option.some.inj (List.mem_singleton.1 hcf) ▸ hi)

theorem statementList?_new (hq : s.size ≤ q) : s₁.statementList? (some q) = none := by
  unfold Store.statementList?
  cases hf : s₁.form? (some q) with
  | none => rfl
  | some f =>
    rcases h.made q hq (lt_size_of_form? hf) with ⟨kind, d, hlist, -⟩ | ⟨i, -, -, hst⟩
    · cases hf.symm.trans hlist
      rfl
    · cases hf.symm.trans hst
      rfl

theorem severalDeclarations?_new
    (hforms : ∀ m, s.size ≤ m → s'.form? (some m) = s₁.form? (some m)) (hq : s.size ≤ q) :
    severalDeclarations? s' (some q) = none := by
  unfold severalDeclarations?
  rw [hforms q hq]
  cases hf : s₁.form? (some q) with
  | none => rfl
  | some f =>
    rcases h.made q hq (lt_size_of_form? hf) with ⟨kind, d, hlist, -⟩ | ⟨i, hi, hlone, hst⟩
    · cases hf.symm.trans hlist
      rfl
    · cases hf.symm.trans hst
      obtain ⟨kind, d, hlist, -⟩ := hlone
      simp only [hforms i hi, hlist]
      rfl

end Splits

/-- Splitting all statements that can be split reworks the container, leaves nothing to split in it and
makes no other one. -/
theorem SplitsAll.reworks {rs : List Replacement} (h : SplitsAll s n rs s₁) (t : s.TreeAt root)
    (t' : s'.TreeAt root) (hn : s.Below root n) (hs : rs.foldlM applyReplacement s₁ = .ok s') :
    Reworks root n n s s' ∧ ¬ SplitSite s' n ∧
      ∀ q, s.size ≤ q → s'.statementList? (some q) = none := by
  obtain ⟨list, hlist, hmade⟩ := h
  obtain ⟨f, hf, hl⟩ := statementList?_eq_some hlist
  obtain ⟨head, hslots, -⟩ := statementList?_slots hl
  have hslot : ∀ v ∈ list.statements, v ∈ f.slots := fun v hv =>
    hslots ▸ List.mem_append_right _ hv
  obtain ⟨xs, hxs, hanchors, hnews, hsplits⟩ := (Splits.refl s n).filterMapM_splitDraft t hn
    fun v hv a e => t.part hn hf (e ▸ hslot v hv)
  simp only [hmade] at hxs hsplits
  subst hxs
  have hlist₁ : s₁.statementList? (some n) = some list := by
    rwa [statementList?, hsplits.enlarges.form (t.lt_size hn)]
  have hof : ∀ r ∈ xs.map fun x => Replacement.of (some n) x.1 [] x.2, r.parent = some n ∧
      ∀ c, some c ∈ r.replacements → s.size ≤ c := by
    intro r hr
    obtain ⟨x, hx, rfl⟩ := List.mem_map.1 hr
    exact ⟨rfl, hnews x hx⟩
  have h := resequences_of_foldlM hs (fun r hr => (hof r hr).1) hlist₁
  -- an old statement that is still there has not been split
  have hold : ∀ c, some c ∈ (xs.map fun x => Replacement.of (some n) x.1 [] x.2).foldl
      (fun l r => r.result l) list.statements → c < s.size →
      some c ∈ list.statements ∧ severalDeclarations? s (some c) = none := by
    intro c hc hlt
    have hcount : list.statements.count (some c) ≤ 1 := by
      rw [← count_present]
      exact List.nodup_iff_count_le_one.1 (t.nodup_statements hn hlist) c
    obtain ⟨hmem, hgone⟩ := mem_foldl_result hc
      (fun x hx hcx => Nat.not_le_of_lt hlt (hnews x hx c hcx)) hcount
    refine ⟨hmem, ?_⟩
    rw [hanchors, List.mem_filter, not_and] at hgone
    simpa using hgone hmem
  have hworks := reworks_of_resequences t hn hsplits.enlarges hlist h t'
    (fun c hc => by
      obtain ⟨r, hr, hcr⟩ := List.mem_flatMap.1 hc
      exact (hof r hr).2 c hcr)
    (fun c hc => or_iff_not_imp_right.2 fun hlt => (hold c hc (Nat.lt_of_not_le hlt)).1)
    fun q c hq hc => hsplits.holds hq hc
  have hne : ∀ q, s.size ≤ q → q ≠ n := fun q hq e => Nat.not_le_of_lt (t.lt_size hn) (e ▸ hq)
  refine ⟨hworks, ?_, fun q hq => ?_⟩
  · rintro ⟨list', hlist', v, hv, hsome⟩
    cases (h.statementList? hlist₁).symm.trans hlist'
    cases v with
    | none => cases hsome
    | some c =>
      by_cases hlt : c < s.size
      · obtain ⟨hmem, hnone⟩ := hold c hv hlt
        rw [severalDeclarations?_of_steady (hworks.steady hf (hslot _ hmem)), hnone] at hsome
        cases hsome
      · rw [hsplits.severalDeclarations?_new (fun m hm => h.form m (hne m hm))
          (Nat.le_of_not_lt hlt)] at hsome
        cases hsome
  · rw [statementList?, h.form q (hne q hq), ← statementList?, hsplits.statementList?_new hq]

theorem actsAt_visitStatements :
    ActsAt (fun _ => false) root SplitSite (fun _ => True) visitStatements := by
  refine actsAt_of_rearranges (fun _ _ => rfl) rearranges_visitStatements
    (fun s s' m h hsite => ?_) fun s n rs s₁ s' t t' hn hdraft hs => ?_
  · obtain ⟨list, hlist, v, hv, hsome⟩ := hsite
    rw [statementList?, h.form, ← statementList?] at hlist
    obtain ⟨f, hf, hl⟩ := statementList?_eq_some hlist
    obtain ⟨head, hslots, -⟩ := statementList?_slots hl
    have hsteady := h.steady hf (hslots ▸ List.mem_append_right _ hv)
    exact ⟨list, hlist, v, hv, severalDeclarations?_of_steady hsteady ▸ hsome⟩
  · obtain ⟨hworks, hno, hnew⟩ := hdraft.reworks t t' hn hs
    refine ⟨hworks, fun q f hq _ => ⟨rfl, ?_⟩⟩
    rcases hq with rfl | hq
    · exact hno
    · rintro ⟨list, hlist, -⟩
      rw [hnew q hq] at hlist
      cases hlist

end Rule

end Modernizer
