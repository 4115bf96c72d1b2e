import Modernizer.Proofs.Modernize
import Modernizer.Proofs.Rule.ArrowTurn
import Modernizer.Proofs.Rule.Origin

/-! Where warnings point. A rule warns at the position of what it declines. Function expressions and
expression statements are never made, and a parsed node keeps its position and its kind, so whatever
passes went before, the position is that of the construct in the source (`Turn.points`). A `var` list
is the exception: one that a pass has split stands in no place of the source. -/

namespace Modernizer

open Store ClassIdiom Relation

variable {α : Type} {s s₀ : Store} {n : NodeId} {notice : Notice} {form form' : Form}

namespace Notice

/-- The rule that gives the notice. -/
def rule : Notice → RuleName
  | unsafeVar => .letConst
  | argumentsInArrow => .arrow
  | unsupportedDescriptor => .classes

/-- What the notice is about has such a form. -/
def concerns : Notice → Form → Bool
  | unsafeVar, form => form.isVarList
  | argumentsInArrow, .functionExpression _ => true
  | unsupportedDescriptor, .expressionStatement _ => true
  | _, _ => false

end Notice

theorem Form.Becomes.concerns {bound : NodeId} (h : form.Becomes bound form')
    (hc : notice.concerns form' = true) : notice.concerns form = true := by
  have hkind := h.kind
  cases notice with
  | unsafeVar => exact h.varList hc
  | argumentsInArrow =>
    obtain ⟨f, rfl⟩ : ∃ f, form' = .functionExpression f := by
      cases form' <;> first | exact ⟨_, rfl⟩ | cases hc
    cases form <;> first | rfl | cases hkind
  | unsupportedDescriptor =>
    obtain ⟨e, rfl⟩ : ∃ e, form' = .expressionStatement e := by
      cases form' <;> first | exact ⟨_, rfl⟩ | cases hc
    cases form <;> first | rfl | cases hkind

/-- The node is one that a rule leaves alone for this reason. -/
def Store.Declines (s : Store) (n : NodeId) : Notice → Prop
  | .unsafeVar => ∃ list, s.form? (some n) = some (.declarationList list) ∧ list.kind = .varKind
  | .argumentsInArrow => ∃ f, s.form? (some n) = some (.functionExpression f) ∧
      Rule.takes s .arguments f = true
  | .unsupportedDescriptor => ∃ className, part s (some n) className = .unsupportedDescriptor

theorem Store.Declines.concerns (h : s.Declines n notice) :
    ∃ form, s.form? (some n) = some form ∧ notice.concerns form = true := by
  cases notice with
  | unsafeVar =>
    obtain ⟨list, hf, hkind⟩ := h
    exact ⟨_, hf, by simp [Notice.concerns, Form.isVarList, hkind]⟩
  | argumentsInArrow =>
    obtain ⟨f, hf, -⟩ := h
    exact ⟨_, hf, rfl⟩
  | unsupportedDescriptor =>
    obtain ⟨className, hpart⟩ := h
    unfold part at hpart
    split at hpart
    · cases hpart
    · rename_i hf
      exact ⟨_, hf, rfl⟩
    · cases hpart

namespace ClassIdiom

variable {c : Candidate} {separators statements : List Slot} {pos : Nat}

theorem declines_of_run (length : Nat)
    (h : (pos, notice) ∈ (run s c separators length statements).warnings) :
    notice = .unsupportedDescriptor ∧ ∃ st ∈ statements, pos = s.posOf st ∧
      ∃ className, part s st className = .unsupportedDescriptor := by
  induction statements generalizing c separators length with
  | nil => cases h
  | cons st rest ih =>
    have hrest : ∀ {c : Candidate} {separators : List Slot} {length : Nat},
        (pos, notice) ∈ (run s c separators length rest).warnings →
        notice = .unsupportedDescriptor ∧ ∃ x ∈ st :: rest, pos = s.posOf x ∧
          ∃ className, part s x className = .unsupportedDescriptor := by
      intro c separators length h
      obtain ⟨hnotice, x, hx, hdeclined⟩ := ih length h
      exact ⟨hnotice, x, List.mem_cons_of_mem _ hx, hdeclined⟩
    rw [run] at h
    split at h
    · exact hrest h
    · rename_i hpart
      cases List.mem_singleton.1 h
      exact ⟨rfl, st, List.mem_cons_self, rfl, _, hpart⟩
    · split at h
      · cases h
      · exact hrest h

theorem declines_of_scanFrom (start : Nat)
    (h : (pos, notice) ∈ (scanFrom s n statements start).warnings) :
    notice = .unsupportedDescriptor ∧ ∃ st ∈ statements, pos = s.posOf st ∧
      ∃ className, part s st className = .unsupportedDescriptor := by
  unfold scanFrom at h
  dsimp only at h
  split at h
  · cases h
  · rename_i st _
    split at h
    · cases h
    · rename_i name f _
      split at h
      · cases h
      · have hrun : (pos, notice) ∈
            (run s (opening n st name f) [] 0 (statements.drop (start + 1))).warnings := by
          split at h <;> exact h
        obtain ⟨hnotice, st, hst, hdeclined⟩ := declines_of_run 0 hrun
        exact ⟨hnotice, st, List.mem_of_mem_drop hst, hdeclined⟩

theorem declines_of_scans
    (h : (pos, notice) ∈ (scans s n statements).flatMap (·.warnings)) :
    notice = .unsupportedDescriptor ∧ ∃ st ∈ statements, pos = s.posOf st ∧
      ∃ className, part s st className = .unsupportedDescriptor := by
  -- by induction on the fuel: every scan is one from some statement on
  suffices hgo : ∀ fuel start, ∀ scan ∈ scans.go s n statements fuel start,
      ∃ start', scan = scanFrom s n statements start' by
    obtain ⟨scan, hscan, h⟩ := List.mem_flatMap.1 h
    obtain ⟨start, rfl⟩ := hgo _ _ scan hscan
    exact declines_of_scanFrom start h
  intro fuel
  induction fuel with
  | zero => simp [scans.go]
  | succ fuel ih =>
    intro start scan hscan
    rw [scans.go] at hscan
    split at hscan
    · rcases List.mem_cons.1 hscan with rfl | hscan
      · exact ⟨start, rfl⟩
      · exact ih _ scan hscan
    · cases hscan

end ClassIdiom

namespace Rule

variable {r : RuleName} {decision : StateM Store Decision}

/-- Notices of the decision are about what the rule declines at the node or below it. -/
def Grounded (r : RuleName) (s : Store) (n : NodeId) (decision : StateM Store Decision) : Prop :=
  ∀ pos notice, (pos, notice) ∈ (decision s).1.notices →
    r = notice.rule ∧ ∃ m, s.Below n m ∧ s.Declines m notice ∧ pos = s.posOf (some m)

namespace Grounded

theorem get {k : Store → StateM Store Decision} (h : Grounded r s n (k s)) :
    Grounded r s n (get >>= k) := h

theorem quiet (h : (decision s).1.notices = []) : Grounded r s n decision := by
  intro pos notice hmem
  rw [h] at hmem
  cases hmem

theorem bind {m : StateM Store α} {f : α → StateM Store Decision}
    (h : ∀ a s, (f a s).1.notices = []) : Grounded r s n (m >>= f) :=
  quiet (h (m s).1 (m s).2)

theorem warn {m : NodeId} (hn : s.Below n m) (hm : s.Declines m notice)
    (h : (decision s).1.notices = [(s.posOf (some m), notice)]) :
    Grounded notice.rule s n decision := by
  intro pos notice' hmem
  rw [h] at hmem
  cases List.mem_singleton.1 hmem
  exact ⟨rfl, m, hn, hm, rfl⟩

end Grounded

theorem grounded_visitContainer (s : Store) (n : NodeId) :
    Grounded .classes s n (visitContainer n) := by
  refine .get ?_
  split
  · exact .quiet rfl
  · rename_i list hlist
    have hscans : ∀ pos notice,
        (pos, notice) ∈ (scans s n list.statements).flatMap (·.warnings) →
        .classes = notice.rule ∧ ∃ m, s.Below n m ∧ s.Declines m notice ∧
          pos = s.posOf (some m) := by
      intro pos notice h
      obtain ⟨rfl, st, hst, rfl, className, hpart⟩ := declines_of_scans h
      cases st with
      | none => cases hpart
      | some m => exact ⟨rfl, m, (holds_of_mem_statements hlist hst).below, ⟨_, hpart⟩, rfl⟩
    dsimp only
    split <;> exact hscans

theorem grounded_visitDeclarations (verdicts : List (NodeId × Scope.Verdict)) (s : Store)
    (n : NodeId) : Grounded .letConst s n (visitDeclarations verdicts n) := by
  refine .get ?_
  split
  · rename_i list hlist
    split
    · exact .quiet rfl
    · rename_i hkind
      have hdeclined : s.Declines n .unsafeVar := ⟨list, hlist, not_not.1 hkind⟩
      split <;> first | exact .quiet rfl | exact .warn .refl hdeclined rfl
  · exact .quiet rfl

theorem grounded_visitFunction (s : Store) (n : NodeId) :
    Grounded .arrow s n (visitFunction n) := by
  cases arrows_visitFunction s n with
  | keep hv => exact .quiet (by rw [hv]; rfl)
  | warn ha htakes hv =>
    have hdeclined : s.Declines _ .argumentsInArrow := ⟨_, ha.function, htakes⟩
    exact .warn ha.below hdeclined (by rw [hv]; rfl)
  | make _ _ hv => exact .quiet (by rw [hv]; rfl)

theorem grounded_visit (r : RuleName) (analysis : r.rule.Analysis) (s : Store) (n : NodeId) :
    Grounded r s n (r.rule.visit analysis n) := by
  cases r with
  | classes => exact grounded_visitContainer s n
  | letConst => exact grounded_visitDeclarations analysis s n
  | arrow => exact grounded_visitFunction s n
  | multiVar =>
    refine .get ?_
    split
    · exact .quiet rfl
    · exact .bind fun rs s => by split <;> rfl
  | noStrict | arrowReturn | objectMethod | objectShorthand | exponent | argumentSpread =>
    refine .get ?_
    repeat' split
    all_goals exact .quiet rfl

end Rule

namespace Warning

variable {w : Warning} {rules : List RuleName} {source : Text} {p : Program}

/-- The warning is about a node that its rule declined in the course of the passes, at the position
that the node had then. -/
structure About (w : Warning) (rules : List RuleName) (source : Text) (p : Program) (n : NodeId) :
    Prop where
  rule : w.rule = w.notice.rule ∧ w.rule ∈ rules
  declined : ∃ p₁ : PassState, ReflTransGen (fun p₁ p₂ => ∃ r ∈ rules, ∃ analysis m,
      Turn p.root (.ofText source) r analysis m p₁ p₂) ⟨p.store, []⟩ p₁ ∧
    p₁.store.Below p.root n ∧ p₁.store.Declines n w.notice ∧ w.pos = p₁.store.posOf (some n)
  line : w.line = (LineMap.ofText source).lineOf w.pos

/-- The node was parsed as what the notice is about, and the warning points at its begin. -/
def PointsAt (w : Warning) (source : Text) (p : Program) (n : NodeId) : Prop :=
  ∃ x, p.store.get? (some n) = some x ∧ w.notice.concerns x.form = true ∧ w.pos = x.pos ∧
    x.pos ≤ x.stop ∧ w.line = (LineMap.ofText source).lineOf x.pos

/-- The node is a list that one pass has split and a later one declined. -/
def IsOfSplit (w : Warning) (rules : List RuleName) (p : Program) (n : NodeId) : Prop :=
  p.store.size ≤ n ∧ w.notice = .unsafeVar ∧ [RuleName.multiVar, RuleName.letConst].Sublist rules

end Warning

def Unconcerned (done : List RuleName) (form : Form) : Prop :=
  ∀ notice : Notice, notice.concerns form = true → notice = .unsafeVar ∧ .multiVar ∈ done

namespace Unconcerned

variable {done done' : List RuleName}

theorem of_isMade (done : List RuleName) (h : form.isMade = true) : Unconcerned done form := by
  intro notice hc
  cases form <;> simp [Form.isMade] at h <;> cases notice <;> cases hc

theorem mono (h : Unconcerned done form) (hsub : done ⊆ done') : Unconcerned done' form :=
  fun notice hc => (h notice hc).imp_right fun hmem => hsub hmem

theorem allowed (done : List RuleName) (I : List NodeId → Store → Prop) (r : RuleName) (s : Store)
    (n : NodeId) : r.Allowed (Unconcerned (done ++ [r])) I s n where
  adopts f _ m _ _ notice hc := by cases notice <;> cases hc
  arrows a _ notice hc := by cases notice <;> cases hc
  lists hr list notice hc := by
    cases notice with
    | unsafeVar => exact ⟨rfl, by simp [hr]⟩
    | argumentsInArrow | unsupportedDescriptor => cases hc
  names _ _ _ name _ _ notice hc := by cases notice <;> cases hc

end Unconcerned

/-- The state of passes of which some are done: its nodes stem from the parsed ones, and its warnings
point at what was parsed, or are about a list that was split. -/
structure Passing (rules done : List RuleName) (source : Text) (p : Program) (p₁ : PassState) :
    Prop where
  reached : ReflTransGen (fun p₁ p₂ => ∃ r ∈ rules, ∃ analysis n,
    Turn p.root (.ofText source) r analysis n p₁ p₂) ⟨p.store, []⟩ p₁
  faithful : Faithful p.store none p₁.store
  stems : p.store.Stems (Unconcerned done) [] p₁.store
  warnings : ∀ w ∈ p₁.warnings, ∃ n, w.About rules source p n ∧
    (w.PointsAt source p n ∨ w.IsOfSplit rules p n)

namespace Passing

variable {rules done rest : List RuleName} {source : Text} {p : Program} {p₁ p₂ : PassState}
  {r : RuleName}

theorem start (rules : List RuleName) (hp : parse source = .ok p) :
    Passing rules [] source p ⟨p.store, []⟩ :=
  ⟨.refl, faithful_of_parse hp, .refl p.store _, fun _ hw => nomatch hw⟩

theorem next (h : Passing rules done source p p₁) (r : RuleName) :
    Passing rules (done ++ [r]) source p p₁ :=
  ⟨h.reached, h.faithful, h.stems.mono fun _ hf => hf.mono (List.subset_append_left ..),
    h.warnings⟩

theorem declined (h : Passing rules done source p p₁) (hp : parse source = .ok p)
    (hn : p₁.store.Declines n notice) :
    (∃ x, p.store.get? (some n) = some x ∧ notice.concerns x.form = true ∧
      p₁.store.posOf (some n) = x.pos ∧ x.pos ≤ x.stop) ∨
    (p.store.size ≤ n ∧ notice = .unsafeVar ∧ .multiVar ∈ done) := by
  obtain ⟨form, hform, hc⟩ := hn.concerns
  obtain ⟨hold, hnew⟩ := h.stems.stem n form hform
  rcases Nat.lt_or_ge n p.store.size with hlt | hge
  · obtain ⟨form₀, hform₀, hbecomes⟩ := hold hlt
    obtain ⟨x₀, hx₀, rfl⟩ := get?_of_form? hform₀
    obtain ⟨x, hx, -⟩ := get?_of_form? hform
    have hpos : p₁.store.posOf (some n) = x₀.pos := by
      rw [posOf, hx]
      exact (h.faithful.span n x₀ x hx₀ hx).1
    exact .inl ⟨x₀, hx₀, hbecomes.concerns hc, hpos,
      ((placed_of_parse hp).1 n x₀ hx₀).span.2.le⟩
  · obtain ⟨form₀, hform₀, hbecomes⟩ := hnew hge
    obtain ⟨hnotice, hmulti⟩ := hform₀ notice (hbecomes.concerns hc)
    exact .inr ⟨hge, hnotice, hmulti⟩

theorem turn {analysis : r.rule.Analysis} (h : Passing rules (done ++ [r]) source p p₁)
    (hp : parse source = .ok p) (hrules : (done ++ [r]).Sublist rules)
    (hturn : Turn p.root (.ofText source) r analysis n p₁ p₂) :
    Passing rules (done ++ [r]) source p p₂ := by
  have hr : r ∈ rules := hrules.subset (by simp)
  have hstring : ∀ value, Unconcerned (done ++ [r]) (.stringLiteral value) := fun _ notice hc => by
    cases notice <;> cases hc
  refine ⟨h.reached.tail ⟨r, hr, analysis, n, hturn⟩,
    hturn.keeps (upkeep_faithful p.store) (.of_any ..) h.faithful,
    hturn.keeps (upkeep_stems p.store (fun _ => .of_isMade _) hstring)
      (Unconcerned.allowed done _ r _ n) h.stems,
    fun w hw => ?_⟩
  -- a warning from before, or one of this turn
  rw [hturn.warnings] at hw
  rcases List.mem_append.1 hw with hw | hw
  · exact h.warnings w hw
  obtain ⟨⟨pos, notice⟩, hmem, rfl⟩ := List.mem_map.1 hw
  obtain ⟨hrule, m, hm, hdeclined, rfl⟩ := Rule.grounded_visit r analysis p₁.store n pos notice hmem
  refine ⟨m, ⟨⟨hrule, hr⟩, ⟨p₁, h.reached, hturn.below.trans hm, hdeclined, rfl⟩, rfl⟩, ?_⟩
  rcases h.declined hp hdeclined with ⟨x, hx, hc, hpos, hle⟩ | ⟨hsize, rfl, hmulti⟩
  · exact .inl ⟨x, hx, hc, hpos, hle, congrArg (LineMap.ofText source).lineOf hpos⟩
  · -- the list was made in a pass before this one
    cases hrule
    have hdone : .multiVar ∈ done := by simpa [Notice.rule] using hmulti
    exact .inr ⟨hsize, rfl, ((List.singleton_sublist.2 hdone).append_right [_]).trans hrules⟩

theorem passes (h : Passing rules done source p p₁) (hp : parse source = .ok p)
    (t : p₁.store.TreeAt p.root) (hrules : rules = done ++ rest)
    (hleads : PassM.Leads (Rule.passes rest source (.ofText source) p.root) p₁ p₂) :
    Passing rules rules source p p₂ := by
  induction rest generalizing done p₁ with
  | nil =>
    cases (PassM.Leads.pure p₁).unique hleads
    rw [List.append_nil] at hrules
    exact hrules ▸ h
  | cons r rest ih =>
    obtain ⟨p₃, h₃, t₃⟩ :=
      Rule.pass_leads r.rule (fun _ => r.decides _) source (.ofText source) t
    have hsub : (done ++ [r]).Sublist rules := by simp [hrules]
    -- the invariant is that of the pass being on, from its first turn to its last
    have hdone : Passing rules (done ++ [r]) source p p₃ := by
      have hturns := Rule.turns_pass t h₃
      clear h₃ t₃
      induction hturns with
      | refl => exact h.next r
      | tail _ hturn hkept =>
        obtain ⟨n, hturn⟩ := hturn
        exact hkept.turn hp hsub hturn
    exact ih hdone t₃ (by simp [hrules]) (h₃.rest hleads)

end Passing

/-- Each warning of a run is about something that was declined, and points at the place where that
was parsed, unless it is a declaration list that multi-var has split before. -/
theorem warnings_modernize {rules : List RuleName} {source : Text} {out : Outcome}
    (h : modernize rules source = .ok out) : ∃ p, parse source = .ok p ∧
      ∀ w ∈ out.warnings, ∃ n, w.About rules source p n ∧
        (w.PointsAt source p n ∨ w.IsOfSplit rules p n) := by
  obtain ⟨p, hp, -, hwarnings⟩ := exists_of_modernize h
  have t := treeAt_of_parse hp
  obtain ⟨p', hleads, -⟩ :=
    Rule.passes_leads (p := ⟨p.store, []⟩) rules source (.ofText source) t
  have hpassing := (Passing.start rules hp).passes hp t rfl hleads
  have hfinal : (Rule.runOn rules source p).2 = p' := congrArg Prod.snd hleads
  refine ⟨p, hp, fun w hw => hpassing.warnings w ?_⟩
  rw [hwarnings, hfinal] at hw
  exact List.mem_mergeSort.1 hw

theorem warnings_modernize_var :
    let source := "x;\nif (y) { var a = 1; }\na;".toList
    ∃ out p w n, modernize [.letConst] source = .ok out ∧ parse source = .ok p ∧
      out.warnings = [w] ∧ w.line = 2 ∧ w.About [.letConst] source p n ∧ w.PointsAt source p n := by
  intro source
  have hrun : ((modernize [.letConst] source).toOption.map (·.warnings)) =
      some [⟨.letConst, 12, 2, .unsafeVar⟩] := by decide +kernel
  obtain ⟨out, hout, hwarnings⟩ := Option.map_eq_some_iff.1 hrun
  have hout : modernize [.letConst] source = .ok out := eq_ok_of_toOption hout
  obtain ⟨p, hp, hpoints⟩ := warnings_modernize hout
  obtain ⟨n, habout, hpoints | ⟨-, -, hsub⟩⟩ :=
    hpoints ⟨.letConst, 12, 2, .unsafeVar⟩ (by simp [hwarnings])
  · exact ⟨out, p, _, n, hout, hp, hwarnings, rfl, habout, hpoints⟩
  · exact absurd hsub (by decide)

/-- A list that was split is declined at the begin of the text, wherever it was parsed. -/
theorem not_pointsAt_of_split :
    let source := "x;\nif (y) { var a = 1, b = 2; }\na;".toList
    ∃ out p, modernize [.multiVar, .letConst] source = .ok out ∧ parse source = .ok p ∧
      out.warnings = [⟨.letConst, 0, 1, .unsafeVar⟩] ∧
      ∀ n x, p.store.get? (some n) = some x → x.form.isVarList = true →
        x.pos = 12 ∧ (LineMap.ofText source).lineOf x.pos = 2 := by
  intro source
  have hrun : ((modernize [.multiVar, .letConst] source).toOption.map (·.warnings)) =
      some [⟨.letConst, 0, 1, .unsafeVar⟩] := by decide +kernel
  have hlists : ∀ p, parse source = .ok p → ∀ x ∈ p.store.nodes.toList, x.form.isVarList = true →
      x.pos = 12 ∧ (LineMap.ofText source).lineOf x.pos = 2 := of_parse (by decide +kernel)
  obtain ⟨out, hout, hwarnings⟩ := Option.map_eq_some_iff.1 hrun
  obtain ⟨p, hp⟩ := exists_parse_of_isOk source (by decide +kernel)
  have hout : modernize [.multiVar, .letConst] source = .ok out := eq_ok_of_toOption hout
  refine ⟨out, p, hout, hp, hwarnings, fun n x hx => hlists p hp x ?_⟩
  exact Array.mem_toList_iff.2 (Array.mem_of_getElem? hx)

end Modernizer
