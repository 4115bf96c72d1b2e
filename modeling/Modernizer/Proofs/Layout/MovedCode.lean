import Modernizer.Proofs.Layout.Appending
import Modernizer.Proofs.Layout.Tiling
import Modernizer.Proofs.Rule.CodeSources
import Modernizer.Proofs.Token.Sequence

/-! Code that moved into a class. What is copied gets the indentation of its new place and keeps its
tokens, unless one of them goes over the end of a line: a string or a template that does is indented
too (`modernize_template_indented`). -/

namespace Modernizer

open Store Text

namespace Text

variable {t : Text} {pos stop : Nat}

theorem slice_eq_nil (h : stop ≤ pos) : slice t pos stop = [] := by
  unfold slice slice?
  split
  · rename_i hle
    have hzero : stop - pos = 0 := by omega
    rw [hzero]
    cases dropBytes? pos t with
    | none => rfl
    | some u => cases u <;> rfl
  · rfl

end Text

/-- `n` is a new method of the new class `w`. -/
structure Store.NewMember (s : Store) (root w n : NodeId) (m : MethodForm) : Prop where
  below : s.Below root w
  new : s.isSynthesized (some w) = true ∧ s.isSynthesized (some n) = true
  class_form : ∃ c, s.form? (some w) = some (.classDeclaration c) ∧ some n ∈ c.members.nodes
  member_form : s.form? (some n) = some (.method m)

namespace Printer

variable {P : Printer} {p : Slot → Print} {s₀ : Store} {root n b : NodeId} {x y : Node}
  {pos mid stop : Nat}

section

variable {f g : Print}

theorem sameTokens_copy (P : Printer) (pos stop : Nat) (w : Writer) :
    ∃ t, ((P.copy pos stop).run w).2.text = w.text ++ t ∧
      SameTokens (slice P.source pos stop) t := by
  have hnothing : ((pure ⟨⟩ : Print).run w).2.text = w.text ++ [] := (List.append_nil w.text).symm
  unfold copy
  split
  · unfold slice
    cases slice? P.source pos stop with
    | none => exact ⟨[], hnothing, (Reindented.refl []).sameTokens⟩
    | some t =>
      obtain ⟨t', ht', hmoved⟩ :=
        w.reindented_writeCopied t (P.sourceIndent pos) isBlank_of_mem_lineIndent
      exact ⟨t', ht', hmoved.sameTokens⟩
  · rename_i hle
    rw [slice_eq_nil (Nat.le_of_not_lt hle)]
    exact ⟨[], hnothing, (Reindented.refl []).sameTokens⟩

/-- What is printed in another way than it was: a new node, a node with other statements, and the
keyword of a declaration list that has another one. -/
inductive Rewritten (P : Printer) (root : NodeId) : Nat → Nat → Prop
  | node {n : NodeId} {x : Node} (hn : P.store.Below root n) (hx : P.store.get? (some n) = some x)
      (h : x.synthesized = true ∨ x.listEdited = true) : Rewritten P root x.pos x.stop
  | keyword {n : NodeId} {x : Node} {list : DeclarationList} (hn : P.store.Below root n)
      (hx : P.store.get? (some n) = some x) (hform : x.form = .declarationList list)
      (h : x.synthesized = true ∨ list.kind ≠ list.spelledKind) :
      Rewritten P root x.pos (x.pos + list.spelledKind.keyword.utf8ByteSize)

/-- The text carries the tokens of a range of the source from left to right, but for what was
rewritten. -/
inductive Carries (P : Printer) (root : NodeId) : Nat → Text → Nat → Prop
  | nil (pos : Nat) : Carries P root pos [] pos
  | copied {pos mid stop : Nat} {t u : Text} (ht : SameTokens (slice P.source pos mid) t)
      (h : Carries P root mid u stop) : Carries P root pos (t ++ u) stop
  | rewritten {pos mid stop : Nat} {t u : Text} (ht : Rewritten P root pos mid)
      (h : Carries P root mid u stop) : Carries P root pos (t ++ u) stop

theorem Carries.ofRewritten (ht : P.Rewritten root pos stop) (t : Text) : P.Carries root pos t stop := by
  rw [← List.append_nil t]
  exact .rewritten ht (.nil stop)

theorem slice_keyword (h : Footing s₀ [] P.store) (hplaced : Placed P.source s₀)
    (hx : P.store.get? (some n) = some x) (hsyn : x.synthesized = false)
    {list : DeclarationList} (hform : x.form = .declarationList list) :
    slice P.source x.pos (x.pos + list.spelledKind.keyword.utf8ByteSize) =
      list.spelledKind.keyword.toList := by
  obtain ⟨x₀, hx₀⟩ := h.exists_parsed hx hsyn
  have hunedited : x.listEdited = false := by
    rw [← Bool.not_eq_true]
    intro hedited
    have hlist := h.resequenced n x hx hedited
    rw [hform] at hlist
    cases hlist
  have hspelling := (h.kept n x₀ x hx₀ hx hunedited).spelling
  have hworded := (hplaced n x₀ hx₀).worded
  rw [hform] at hspelling
  cases hform₀ : x₀.form with
  | declarationList list₀ =>
    rw [hform₀] at hspelling hworded
    obtain ⟨hkind, -, -, before, after, hpos, hsource⟩ := hworded
    have hspelled : list.spelledKind = list₀.kind := (Option.some.inj hspelling).trans hkind.symm
    rw [(h.span n x₀ x hx₀ hx).1, hpos, hspelled, DeclarationKind.utf8ByteSize_keyword, slice,
      hsource, ← List.append_assoc, slice?_append]
    rfl
  | _ =>
    rw [hform₀] at hspelling
    cases hspelling

theorem text_rewrites (h : Footing s₀ [] P.store) (hplaced : Placed P.source s₀)
    (hf : P.Rewrites root pos stop f) (w : Writer) :
    ∃ t, (f.run w).2.text = w.text ++ t ∧
      (SameTokens (slice P.source pos stop) t ∨ P.Rewritten root pos stop) := by
  cases hf with
  | node fuel hn hx hedited =>
    obtain ⟨t, ht⟩ := appends_go P fuel _ w
    exact ⟨t, ht.symm, .inr (.node hn hx hedited)⟩
  | @keyword n x list hn hx hform =>
    refine ⟨list.kind.keyword.toList, w.text_write _, ?_⟩
    by_cases hother : x.synthesized = true ∨ list.kind ≠ list.spelledKind
    · exact .inr (.keyword hn hx hform hother)
    · obtain ⟨hsyn, hkind⟩ := not_or.1 hother
      rw [Bool.not_eq_true] at hsyn
      rw [slice_keyword h hplaced hx hsyn hform, not_not.1 hkind]
      exact .inl (Reindented.refl _).sameTokens

theorem carries_of_tiled (h : Footing s₀ [] P.store) (hplaced : Placed P.source s₀)
    {ts : List Tile} (hts : Tiled P.source (P.Rewrites root) pos ts stop) (w : Writer) :
    ∃ t, ((ts.forM (Tile.print P)).run w).2.text = w.text ++ t ∧ P.Carries root pos t stop := by
  induction hts generalizing w with
  | nil pos => exact ⟨[], (List.append_nil _).symm, .nil pos⟩
  | @copied pos mid stop ts _ _ _ _ ih =>
    obtain ⟨t, ht, hsame⟩ := P.sameTokens_copy pos mid w
    obtain ⟨u, hu, hcarries⟩ := ih ((P.copy pos mid).run w).2
    refine ⟨t ++ u, ?_, .copied hsame hcarries⟩
    rw [← List.append_assoc, ← ht]
    exact hu
  | @other pos mid stop ts f hf _ _ ih =>
    obtain ⟨t, ht, hoften⟩ := text_rewrites h hplaced hf w
    obtain ⟨u, hu, hcarries⟩ := ih (f.run w).2
    refine ⟨t ++ u, ?_, ?_⟩
    · rw [← List.append_assoc, ← ht]
      exact hu
    · rcases hoften with hsame | hrewritten
      · exact .copied hsame hcarries
      · exact .rewritten hrewritten hcarries

theorem carries_bare (h : Footing s₀ [] P.store) (hplaced : Placed P.source s₀)
    (hforest : s₀.Forest) (t : P.store.TreeAt root) (hb : P.store.Below root b)
    (hy : P.store.get? (some b) = some y) (hsyn : y.synthesized = false) {fuel : Nat}
    (hfuel : b ≤ fuel) (w : Writer) :
    ∃ u, ((P.bare (print.go P fuel) y).run w).2.text = w.text ++ u ∧
      P.Carries root y.pos u y.stop := by
  by_cases hedited : y.listEdited = true
  · obtain ⟨u, hu⟩ := appends_bare (appends_go P fuel) y w
    exact ⟨u, hu.symm, .ofRewritten (.node hb hy (.inr hedited)) u⟩
  rw [Bool.not_eq_true] at hedited
  have hfootholds : P.Footholds s₀ := footholds_of_footing h hplaced
  have hsplices := hfootholds.splices b y hy hsyn hedited
  have hlays : P.Lays root (P.bare (print.go P fuel) y) y.pos y.stop := by
    apply lays_bare hsplices hplaced hb hy
    intro c hc z hz hle
    have hholds : P.store.Holds b c := by rwa [Holds, children_of_get? hy]
    have hlinked : z.parent = some b := by
      have hlink := t.linked b c hb hholds
      rwa [parent, hz] at hlink
    apply lays_go hfootholds hplaced hforest t fuel (hb.tail hholds) hz _ hle
    · rw [hlinked]
      intro x hx
      rw [hy] at hx
      cases hx
      exact hsyn
    · intro hzsyn
      exact Nat.lt_of_lt_of_le (hsplices.lt_of_mem hforest hc hz hzsyn) hfuel
  obtain ⟨ts, hprint, hts⟩ := hlays
  rw [hprint]
  exact carries_of_tiled h hplaced hts w

/-- Wherever `f` is run, `g` is run as a part of it. -/
def Runs {α : Type} (f : StateM Writer α) (g : Print) : Prop :=
  ∀ w : Writer, ∃ w' : Writer, w.text <+: w'.text ∧ (g.run w').2.text <+: (f.run w).2.text

namespace Runs

variable {α β : Type} {e : StateM Writer α} {k : α → StateM Writer β}

theorem refl (g : Print) : Runs g g := fun w => ⟨w, List.prefix_rfl, List.prefix_rfl⟩

theorem trans {g' : Print} (h : Runs e g) (h' : Runs g g') : Runs e g' := by
  intro w
  obtain ⟨w₁, hstart, hend⟩ := h w
  obtain ⟨w₂, hstart', hend'⟩ := h' w₁
  exact ⟨w₂, hstart.trans hstart', hend'.trans hend⟩

theorem first (h : Runs e g) (hk : ∀ a, Appends (k a)) : Runs (e >>= k) g := by
  intro w
  obtain ⟨w', hstart, hend⟩ := h w
  exact ⟨w', hstart, hend.trans (hk _ _)⟩

theorem next (he : Appends e) (h : ∀ a, Runs (k a) g) : Runs (e >>= k) g := by
  intro w
  obtain ⟨w', hstart, hend⟩ := h (e.run w).1 (e.run w).2
  exact ⟨w', (he w).trans hstart, hend⟩

theorem ite {c : Prop} [Decidable c] {e' : StateM Writer α} (h : Runs e g) (h' : Runs e' g) :
    Runs (if c then e else e') g := by
  split
  · exact h
  · exact h'

theorem forM {γ : Type} {l : List γ} {step : γ → Print} (hstep : ∀ a, Appends (step a)) {a : γ}
    (ha : a ∈ l) (h : Runs (step a) g) : Runs (l.forM step) g := by
  induction l with
  | nil => cases ha
  | cons b l ih =>
    rcases List.mem_cons.1 ha with rfl | ha
    · exact h.first fun _ => .forM hstep
    · exact next (hstep b) fun _ => ih ha

end Runs

theorem runs_classCode (hp : ∀ m, Appends (p m)) (c : ClassForm) {member : Slot}
    (hmember : member ∈ c.members.nodes) : Runs (P.classCode p c) (p member) := by
  have hnonempty : c.members.nodes.isEmpty = false := by
    rw [List.isEmpty_eq_false_iff_exists_mem]
    exact ⟨member, hmember⟩
  obtain ⟨i, hi, rfl⟩ := List.mem_iff_getElem.1 hmember
  have hindexed : (c.members.nodes[i], i) ∈ c.members.nodes.zipIdx := by
    rw [List.mem_iff_getElem]
    exact ⟨i, by simpa using hi, by simp⟩
  have hmembers : Runs (do
      let outer ← currentIndent
      word " \x7b"
      c.members.nodes.zipIdx.forM fun m => do
        if m.2 > 0 then modify Writer.writeNewline
        line (outer ++ P.options.indentUnit)
        P.leadingComments m.1 (outer ++ P.options.indentUnit)
        p m.1
        P.trailingComments m.1
      line outer
      word "\x7d") (p c.members.nodes[i]) := by
    refine .next appends_currentIndent fun outer => .next (appends_word _) fun _ => ?_
    refine .first ?_ fun _ => (appends_line outer).bind fun _ => appends_word _
    refine .forM (fun _ => ?_) hindexed ?_
    · exact .ite (appends_newline.bind fun _ => appends_member hp _ _) (appends_member hp _ _)
    have hline : Runs (do
        line (outer ++ P.options.indentUnit)
        P.leadingComments c.members.nodes[i] (outer ++ P.options.indentUnit)
        p c.members.nodes[i]
        P.trailingComments c.members.nodes[i]) (p c.members.nodes[i]) := by
      refine .next (appends_line _) fun _ => .next (appends_leadingComments _ _) fun _ => ?_
      exact (Runs.refl _).first fun _ => appends_trailingComments _
    exact .ite (.next appends_newline fun _ => hline) hline
  unfold classCode
  rw [hnonempty]
  refine .next (appends_word _) fun _ => ?_
  refine .ite (.next (appends_word _) fun _ => .next (hp _) fun _ => ?_) ?_
  all_goals
    exact .ite (.next (appends_word _) fun _ => .next (hp _) fun _ => hmembers) hmembers

theorem runs_methodCode (hp : ∀ m, Appends (p m)) (m : MethodForm) :
    Runs (P.methodCode p m) (do
      P.parametersCode p m.parameters
      word " "
      p m.body) := by
  unfold methodCode
  repeat' with_reducible first
    | exact Runs.refl _
    | exact hp _
    | exact appends_word _
    | refine Runs.next ?_ fun _ => ?_
    | refine Runs.ite ?_ ?_
    | refine Appends.ite ?_ ?_
    | split

theorem runs_printWith (hx : P.store.get? (some n) = some x) :
    Runs (P.printWith p (some n)) (P.bare p x) := by
  unfold printWith
  rw [hx]
  refine .ite (.next (appends_word _) fun _ => ?_) (.refl _)
  exact (Runs.refl _).first fun _ => appends_word _

theorem bare_of_synthesized (hsyn : x.synthesized = true) : P.bare p x = P.formCode p x.form := by
  unfold bare Node.isPristine
  rw [hsyn]
  rfl

end

theorem text_parametersCode (hp : ∀ m, Appends (p m)) (parameters : NodeList) (w : Writer) :
    ∃ t, ((P.parametersCode p parameters).run w).2.text = w.text ++ '(' :: t ++ [')'] ∧
      (parameters.nodes.all P.store.isPristine = true →
        parameters.pos < parameters.stop ∨ parameters.nodes = [] →
          SameTokens (slice P.source parameters.pos parameters.stop) t) := by
  have hbetween : ∀ {inner : Print} {t : Text},
      (inner.run (w.write ['('])).2.text = (w.write ['(']).text ++ t →
      ((do word "("; inner; word ")" : Print).run w).2.text = w.text ++ '(' :: t ++ [')'] := by
    intro inner t ht
    change ((inner.run (w.write ['('])).2.write [')']).text = _
    rw [Writer.text_write, ht, Writer.text_write]
    simp
  unfold parametersCode
  split
  · obtain ⟨t, ht, hsame⟩ := P.sameTokens_copy parameters.pos parameters.stop (w.write ['('])
    exact ⟨t, hbetween ht, fun _ _ => hsame⟩
  · rename_i hother
    obtain ⟨t, ht⟩ := appends_commaList hp parameters.nodes (w.write ['('])
    refine ⟨t, hbetween ht.symm, fun hpristine hlisted => ?_⟩
    rw [hpristine, Bool.true_and, decide_eq_true_eq] at hother
    have hnone : parameters.nodes = [] := hlisted.resolve_left hother
    rw [hnone] at ht
    have ht' : t = [] := List.append_right_eq_self.1 ht
    rw [slice_eq_nil (Nat.le_of_not_lt hother), ht']
    exact (Reindented.refl []).sameTokens

theorem needsParentheses_body {z : Node} {m : MethodForm} (hy : P.store.get? (some b) = some y)
    (hlinked : P.store.parent (some b) = some n) (hz : P.store.get? (some n) = some z)
    (hzform : z.form = .method m) : P.needsParentheses (some b) = false := by
  rw [parent, hy] at hlinked
  replace hlinked : y.parent = some n := hlinked
  unfold needsParentheses
  rw [hy]
  dsimp only
  rw [hlinked, hz]
  dsimp only
  rw [hzform]
  exact Bool.and_false _

variable {w : NodeId} {m : MethodForm}

/-- The text of a class has the parameters and the body of each of its methods. -/
theorem runs_print_class (hmember : P.store.NewMember root w n m) (h : Footing s₀ [] P.store)
    (t : P.store.TreeAt root) (hb : m.body = some b) (hbs : b < s₀.size) :
    ∃ fuel y, b ≤ fuel ∧ P.store.Below root b ∧ P.store.get? (some b) = some y ∧
      y.synthesized = false ∧ Runs (P.print (some w)) (do
        P.parametersCode (print.go P (fuel + 1)) m.parameters
        word " "
        P.bare (print.go P fuel) y) := by
  obtain ⟨c, hc, hn⟩ := hmember.class_form
  have hm := hmember.member_form
  obtain ⟨x, hx, hxform⟩ := get?_of_form? hc
  obtain ⟨z, hz, hzform⟩ := get?_of_form? hm
  obtain ⟨y, hy⟩ := exists_get?_of_lt (Nat.lt_of_lt_of_le hbs h.size_le)
  obtain ⟨hxsyn, hzsyn⟩ := hmember.new
  rw [isSynthesized, hx] at hxsyn
  rw [isSynthesized, hz] at hzsyn
  have hysyn : y.synthesized = false := by
    rw [← Bool.not_eq_true, h.synthesized b y hy]
    exact Nat.not_le_of_lt hbs
  have hwn : P.store.Holds w n := holds_of_form hc (by simp [Form.slots, hn])
  have hnb : P.store.Holds n b := holds_of_form hm (by simp [Form.slots, hb])
  have hroot : P.store.Below root n := hmember.below.tail hwn
  -- the body is older than the member, so there is enough fuel for what is in it
  have hless : b < n := Nat.lt_of_lt_of_le hbs ((h.synthesized n z hz).1 hzsyn)
  have hsize : b + 2 ≤ P.store.size := Nat.lt_of_le_of_lt hless (lt_size_of_get? hz)
  obtain ⟨k, hk⟩ := Nat.exists_eq_add_of_le' (Nat.le_trans (Nat.le_add_left 2 b) hsize)
  have hfuel : b ≤ k := Nat.le_of_add_le_add_right (hk ▸ hsize)
  have hclass : Runs (P.print (some w)) (print.go P (k + 2) (some n)) := by
    have hprinted : Runs (P.print (some w)) (P.bare (print.go P P.store.size) x) :=
      runs_printWith hx
    rw [bare_of_synthesized hxsyn, hxform, hk] at hprinted
    exact hprinted.trans (runs_classCode (appends_go P _) c hn)
  have hmethod : Runs (print.go P (k + 2) (some n)) (do
      P.parametersCode (print.go P (k + 1)) m.parameters
      word " "
      print.go P (k + 1) (some b)) := by
    have hprinted : Runs (print.go P (k + 2) (some n)) (P.bare (print.go P (k + 1)) z) :=
      runs_printWith hz
    rw [bare_of_synthesized hzsyn, hzform] at hprinted
    rw [← hb]
    exact hprinted.trans (runs_methodCode (appends_go P _) m)
  have hblock : print.go P (k + 1) (some b) = P.bare (print.go P k) y := by
    unfold print.go printWith
    rw [hy]
    dsimp only
    rw [needsParentheses_body hy (t.linked n b hroot hnb) hz hzform]
    rfl
  exact ⟨k, y, hfuel, hroot.tail hnb, hy, hysyn, hblock ▸ hclass.trans hmethod⟩

theorem text_body (h : Footing s₀ [] P.store) (hplaced : Placed P.source s₀)
    (hforest : s₀.Forest) (t : P.store.TreeAt root) (hb : P.store.Below root b)
    (hy : P.store.get? (some b) = some y) (hsyn : y.synthesized = false) {fuel : Nat}
    (hfuel : b ≤ fuel) (w : Writer) :
    ∃ u, ((P.bare (print.go P fuel) y).run w).2.text = w.text ++ u ∧
      (P.store.isPristine (some b) = true → SameTokens (slice P.source y.pos y.stop) u) ∧
      P.Carries root y.pos u y.stop := by
  obtain ⟨u, hu, hcarries⟩ := carries_bare h hplaced hforest t hb hy hsyn hfuel w
  refine ⟨u, hu, ?_, hcarries⟩
  intro hpristine
  rw [isPristine, hy] at hpristine
  have hcopy : P.bare (print.go P fuel) y = P.copy y.pos y.stop := if_pos hpristine
  obtain ⟨u', hu', hsame⟩ := P.sameTokens_copy y.pos y.stop w
  rw [hcopy, hu'] at hu
  rwa [← List.append_cancel_left hu]

end Printer

variable {source : Text} {p : Program}

/-- The methods of a class that was made come from functions of the source: their parameters and
bodies have the tokens they were parsed with, as far as none of them goes over the end of a line.
Where a part of the body was edited, this holds of what is around the new nodes. -/
theorem sameTokens_moved (h : parse source = .ok p) (rules : List RuleName)
    (options : PrintOptions) :
    let P : Printer := ⟨(Rule.runOn rules source p).2.store, source, options⟩
    ∀ w n m b, P.store.NewMember p.root w n m → m.body = some b →
      ∃ i f y, ClassIdiom.functionOf? p.store (some i) = some f ∧ f.body = some b ∧
        p.store.get? (some b) = some y ∧
        ∀ out : Writer, ∃ before params body after : Text,
          ((P.print (some w)).run out).2.text =
            out.text ++ before ++ '(' :: params ++ ") ".toList ++ body ++ after ∧
          (m.parameters.nodes.all P.store.isPristine = true →
            f.parameters.pos < f.parameters.stop ∨ f.parameters.nodes = [] →
              SameTokens (slice source f.parameters.pos f.parameters.stop) params) ∧
          (P.store.isPristine (some b) = true → SameTokens (slice source y.pos y.stop) body) ∧
          P.Carries p.root y.pos body y.stop := by
  intro P w n m b hmember hb
  obtain ⟨hplaced, -⟩ := placed_of_parse h
  have hfooting : Footing p.store [] P.store := Rule.footing_runOn rules source hplaced
  have ht : P.store.TreeAt p.root := (Rule.runOn_leads rules source (treeAt_of_parse h)).2
  obtain ⟨hbs, i, f, hf, hfb, hfpos, hfstop, hfnodes⟩ :=
    (Rule.coded_runOn rules source p).exists_function ht hmember.member_form hb
  obtain ⟨y, hy⟩ := exists_get?_of_lt hbs
  obtain ⟨fuel, y', hfuel, hbelow, hy', hsyn, hruns⟩ :=
    Printer.runs_print_class hmember hfooting ht hb hbs
  obtain ⟨hpos, hstop⟩ := hfooting.span b y y' hy hy'
  refine ⟨i, f, y, hf, hfb, hy, fun out => ?_⟩
  obtain ⟨w', ⟨before, hbefore⟩, ⟨after, hafter⟩⟩ := hruns out
  obtain ⟨params, hparams, hsame⟩ :=
    Printer.text_parametersCode (P := P) (Printer.appends_go P (fuel + 1)) m.parameters w'
  let w₁ := ((P.parametersCode (Printer.print.go P (fuel + 1)) m.parameters).run w').2
  obtain ⟨body, hbody, hpristine, hcarries⟩ := Printer.text_body hfooting hplaced
    (grows_of_parse h).1.forest ht hbelow hy' hsyn hfuel (w₁.write [' '])
  rw [hpos, hstop] at hpristine hcarries
  rw [hfpos, hfstop, hfnodes] at hsame
  refine ⟨before, params, body, after, ?_, hsame, hpristine, hcarries⟩
  rw [← hafter]
  change ((P.bare (Printer.print.go P fuel) y').run (w₁.write [' '])).2.text ++ after = _
  rw [hbody, Writer.text_write, hparams, ← hbefore]
  simp

/-- A method of a class has the tokens of the function that was assigned to the prototype. -/
theorem sameTokens_moved_method :
    let source := ("function C() \x7b\x7d\nC.prototype.m = function (a) \x7b\n" ++
      "    return a;\n\x7d;").toList
    ∃ p, parse source = .ok p ∧
      let P : Printer := ⟨(Rule.runOn [.classes] source p).2.store, source, .detect source⟩
      ∃ m, P.store.NewMember p.root 20 18 m ∧ m.body = some 12 ∧
        ∃ before params body after : Text,
          P.text (some 20) = before ++ '(' :: params ++ ") ".toList ++ body ++ after ∧
          SameTokens "a".toList params ∧
          SameTokens "\x7b\n    return a;\n\x7d".toList body := by
  intro source
  have hfacts : ∃ p ∈ (parse source).toOption,
      let s := (Rule.runOn [.classes] source p).2.store
      (20 ∈ s.children (some p.root) ∧ s.isSynthesized (some 20) = true ∧
        s.isSynthesized (some 18) = true ∧
        s.form? (some 20) = some (.classDeclaration ⟨some 19, none, .ofNodes [some 18]⟩)) ∧
      (∃ g ∈ ClassIdiom.functionOf? p.store (some 13), g.body = some 12 ∧
        g.parameters.nodes.all s.isPristine = true ∧ s.form? (some 18) =
          some (.method ⟨.method, false, some 17, g.parameters, g.body, false, false⟩)) ∧
      (s.isPristine (some 12) = true ∧ ∃ y ∈ p.store.get? (some 12),
        slice source y.pos y.stop = "\x7b\n    return a;\n\x7d".toList) ∧
      ∀ i < p.store.size, ∀ f ∈ ClassIdiom.functionOf? p.store (some i), f.body = some 12 →
        f.parameters.pos < f.parameters.stop ∧
          slice source f.parameters.pos f.parameters.stop = "a".toList := by
    decide +kernel
  obtain ⟨p, hp, ⟨hw, hwnew, hnnew, hwform⟩, ⟨g, -, hgbody, hparams, hm⟩,
    ⟨hbody, y, hy, hblock⟩, hfunctions⟩ := exists_parse hfacts
  have hmember : (Rule.runOn [.classes] source p).2.store.NewMember p.root 20 18
      ⟨.method, false, some 17, g.parameters, g.body, false, false⟩ :=
    ⟨.single hw, ⟨hwnew, hnnew⟩, ⟨_, hwform, List.mem_singleton_self _⟩, hm⟩
  obtain ⟨i, f, y', hf, hfbody, hy', hprinted⟩ :=
    sameTokens_moved hp [.classes] (.detect source) 20 18 _ 12 hmember hgbody
  cases Option.some.inj (hy.symm.trans hy')
  obtain ⟨hrange, hslice⟩ := hfunctions i (ClassIdiom.lt_size_of_functionOf? hf) f hf hfbody
  obtain ⟨before, params, body, after, htext, hsame, hcopied, -⟩ :=
    hprinted { Writer.empty with newline := (PrintOptions.detect source).newline }
  refine ⟨p, hp, _, hmember, hgbody, before, params, body, after, htext, ?_, ?_⟩
  · exact hslice ▸ hsame hparams (.inl hrange)
  · exact hblock ▸ hcopied hbody

/-- The indentation of a class gets into a template that goes over the end of a line. -/
theorem modernize_template_indented :
    let source := ("function C() \x7b\x7d\n" ++
      "C.prototype.m = function () \x7b return `a\nb`; \x7d;").toList
    let body := "\x7b return `a\n  b`; \x7d".toList
    ∃ p out, parse source = .ok p ∧ modernize [.classes] source = .ok out ∧
      out.code = "class C \x7b\n  m() ".toList ++ body ++ "\n\x7d".toList ∧
      ∃ f b, ClassIdiom.functionOf? p.store (some 11) = some f ∧ f.body = some b ∧
        ∃ y, p.store.get? (some b) = some y ∧
          (Scanner.tokens (slice source y.pos y.stop)).map (fun t => (t.kind, t.raw)) ≠
            (Scanner.tokens body).map (fun t => (t.kind, t.raw)) := by
  intro source body
  have hparsed : ∃ p ∈ (parse source).toOption,
      ∃ f ∈ ClassIdiom.functionOf? p.store (some 11), ∃ b ∈ f.body,
        ∃ y ∈ p.store.get? (some b),
          (Scanner.tokens (slice source y.pos y.stop)).map (fun t => (t.kind, t.raw)) ≠
            (Scanner.tokens body).map (fun t => (t.kind, t.raw)) := by
    decide +kernel
  have hcode : (modernize [.classes] source).toOption.map (·.code) =
      some ("class C \x7b\n  m() ".toList ++ body ++ "\n\x7d".toList) := by
    decide +kernel
  obtain ⟨p, hp, f, hf, b, hb, y, hy, hother⟩ := exists_parse hparsed
  obtain ⟨out, hout, hindented⟩ := Option.map_eq_some_iff.1 hcode
  exact ⟨p, out, hp, eq_ok_of_toOption hout, hindented, f, b, hf, hb, y, hy, hother⟩

end Modernizer
