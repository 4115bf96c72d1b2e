import Modernizer.Proofs.Layout.Redeclaration

/-! Programs with other keywords in their declarations. The text of a parsed program in which only
kinds of declaration lists have been changed is that of the source but for these keywords. -/

namespace Modernizer

open Store Text

namespace Store

variable {s s₀ : Store} {n : NodeId} {changes : List (NodeId × DeclarationKind)}

def Respells (s₀ s : Store) (changes : List (NodeId × DeclarationKind)) (n : NodeId)
    (e : Respelling) : Prop :=
  ∃ change ∈ changes, s.Below n change.1 ∧ e = s₀.respelling change

theorem children_of_get? {x : Node} (hx : s.get? (some n) = some x) :
    s.children (some n) = x.form.children := by
  rw [children, form?, hx]
  rfl

theorem respells_iff {e : Respelling} : Respells s₀ s changes n e ↔
    (∃ change ∈ changes, change.1 = n ∧ e = s₀.respelling change) ∨
      ∃ c ∈ s.children (some n), Respells s₀ s changes c e := by
  constructor
  · rintro ⟨change, hc, hbelow, he⟩
    rcases Relation.ReflTransGen.cases_head hbelow with heq | ⟨c, hholds, hbelow⟩
    · exact .inl ⟨change, hc, heq.symm, he⟩
    · exact .inr ⟨c, hholds, change, hc, hbelow, he⟩
  · rintro (⟨change, hc, rfl, he⟩ | ⟨c, hholds, change, hc, hbelow, he⟩)
    · exact ⟨change, hc, .refl, he⟩
    · exact ⟨change, hc, .head hholds hbelow, he⟩

end Store

namespace Printer

section

variable {source : Text} {s₀ s : Store} {changes : List (NodeId × DeclarationKind)}
  (hr : Redeclared source s₀ s changes) (hs : source.Settled) {P : Printer} (hstore : P.store = s)
  (hsource : P.source = source) {n : NodeId} {x : Node} {p : Slot → Print}

include hr hs hstore hsource

theorem writes_children {pos stop : Nat} (hpos : Cut source pos) (hstop : Cut source stop)
    (hchain : s₀.Chain pos x.form.children stop)
    (hp : ∀ c ∈ x.form.children, ∀ y, s.get? (some c) = some y →
      P.Writes (p (some c)) y.pos y.stop (Respells s₀ s changes c)) :
    P.Writes (P.splice p stop pos x.form.children) pos stop fun e =>
      ∃ c ∈ x.form.children, Respells s₀ s changes c e := by
  subst hstore hsource
  refine writes_splice hs hstop hpos (hr.chain hchain) fun c hc y hy => ?_
  obtain ⟨y₀, hy₀, e⟩ := hr.exists_parsed hy
  simp only [unkinded, Prod.mk.injEq] at e
  have hplaced := hr.placed c y₀ hy₀
  exact ⟨e.2.1 ▸ hplaced.span.1, e.2.2.1 ▸ hplaced.stop, hp c hc y hy⟩

theorem writes_declarations {list : DeclarationList} {x₀ : Node} {kind : DeclarationKind}
    (hx₀ : s₀.get? (some n) = some x₀) (hx : unkinded x = unkinded x₀)
    (hlist : x.form = .declarationList list)
    (hlist₀ : x₀.form = .declarationList { list with kind })
    (hp : ∀ c ∈ x.form.children, ∀ y, s.get? (some c) = some y →
      P.Writes (p (some c)) y.pos y.stop (Respells s₀ s changes c)) :
    ∃ before after, source = before ++ (kind.keyword.toList ++ after) ∧ x.pos = utf8Length before ∧
      P.Writes (P.splice p x.stop (x.pos + list.spelledKind.keyword.utf8ByteSize) x.form.children)
        (utf8Length before + utf8Length kind.keyword.toList) x.stop
        fun e => ∃ c ∈ x.form.children, Respells s₀ s changes c e := by
  simp only [unkinded, Prod.mk.injEq] at hx
  obtain ⟨-, hpos, hstop, -⟩ := hx
  have hplaced := hr.placed n x₀ hx₀
  have hworded := hplaced.worded
  have hrange := (hplaced.ranges list.declarations.range
    (by rw [hlist₀]; exact List.mem_cons_self)).2
  rw [hlist₀] at hworded
  obtain ⟨hspelled, hle, hlast, before, after, hbefore, hsplit⟩ := hworded
  dsimp only at hspelled hle hlast hsplit
  refine ⟨before, after, hsplit, hpos.trans hbefore, ?_⟩
  have hkeyword : x.pos + list.spelledKind.keyword.utf8ByteSize =
      utf8Length before + utf8Length kind.keyword.toList := by
    rw [DeclarationKind.utf8ByteSize_keyword, hpos, hbefore, hspelled]
  rw [hkeyword]
  have hcut : Cut source (utf8Length before + utf8Length kind.keyword.toList) :=
    hsplit ▸ kind.cut_after_keyword before after
  refine writes_children hr hs hstore hsource hcut (hstop ▸ hplaced.stop) ?_ hp
  rw [hlist, hstop]
  exact (hrange.weaken hlast).lower (hbefore ▸ hle)

/-- The keyword of a list and what follows it. -/
theorem writes_declarationList {list : DeclarationList} (hx : s.get? (some n) = some x)
    (hlist : x.form = .declarationList list)
    (hp : ∀ c ∈ x.form.children, ∀ y, s.get? (some c) = some y →
      P.Writes (p (some c)) y.pos y.stop (Respells s₀ s changes c)) :
    P.Writes (do
      word list.kind.keyword
      P.splice p x.stop (x.pos + list.spelledKind.keyword.utf8ByteSize) x.form.children)
      x.pos x.stop (Respells s₀ s changes n) := by
  obtain ⟨x₀, hx₀, e⟩ := hr.exists_parsed hx
  obtain ⟨kind, hlist₀⟩ := Form.exists_list_of_withKind .varKind (congrArg Prod.fst e) hlist
  obtain ⟨before, after, hsplit, hpos, hrest⟩ :=
    writes_declarations hr hs hstore hsource hx₀ e hlist hlist₀ hp
  have hword : P.source = before ++ (kind.keyword.toList ++ after) := hsource.trans hsplit
  have hrespelling : ∀ change ∈ changes, change.1 = n → s₀.respelling change =
      ⟨utf8Length before, kind.keyword.toList, list.kind.keyword.toList⟩ := by
    rintro change hc rfl
    obtain ⟨y, list', hy, hlist', hkind, hchanged⟩ := hr.exists_list hc hx
    obtain rfl : x₀ = y := Option.some.inj (hx₀.symm.trans hy)
    rw [hlist₀, Form.declarationList.injEq] at hlist'
    rw [hlist, Form.declarationList.injEq] at hchanged
    have hnew : list.kind = change.2 := congrArg (·.kind) hchanged
    have hold : kind = .varKind := (congrArg (·.kind) hlist').trans hkind
    have hat : s₀.posOf (some change.1) = utf8Length before := by
      rw [← hpos, posOf, hx₀]
      exact (congrArg (fun v => v.2.1) e).symm
    rw [respelling, hat, hnew, hold]
  rw [hpos]
  -- a list that no change is about has its own keyword in the source
  by_cases hn : ∃ change ∈ changes, change.1 = n
  · have hall := (Writes.otherWord hword kind.keyword_ne_nil list.kind.keyword_ne_nil
      kind.isFirm_of_mem_keyword list.kind.isFirm_of_mem_keyword).seq (hpos ▸ hrest)
    refine hall.congr fun e => ?_
    rw [respells_iff, children_of_get? hx]
    refine or_congr_left ⟨fun he => ?_, ?_⟩
    · obtain ⟨change, hc, hchange⟩ := hn
      exact ⟨change, hc, hchange, he.trans (hrespelling change hc hchange).symm⟩
    · rintro ⟨change, hc, hchange, he⟩
      exact he.trans (hrespelling change hc hchange)
  · have hother : ∀ change ∈ changes, change.1 ≠ n := fun change hc e => hn ⟨change, hc, e⟩
    have hform := hr.form_eq hother hx hx₀
    rw [hlist, hlist₀, Form.declarationList.injEq] at hform
    have hkind : list.kind = kind := congrArg (·.kind) hform
    have hall := (Writes.sameWord hword).seq (hpos ▸ hrest)
    rw [hkind]
    refine hall.congr fun e => ?_
    rw [respells_iff, children_of_get? hx]
    refine or_congr_left ⟨False.elim, ?_⟩
    rintro ⟨change, hc, hchange, -⟩
    exact hother change hc hchange

theorem writes_spliced (hx : s.get? (some n) = some x)
    (hp : ∀ c ∈ x.form.children, ∀ y, s.get? (some c) = some y →
      P.Writes (p (some c)) y.pos y.stop (Respells s₀ s changes c)) :
    P.Writes (P.spliced p x) x.pos x.stop (Respells s₀ s changes n) := by
  obtain ⟨x₀, hx₀, e⟩ := hr.exists_parsed hx
  simp only [unkinded, Prod.mk.injEq] at e
  obtain ⟨hform, hpos, hstop, -⟩ := e
  have hplaced := hr.placed n x₀ hx₀
  have hchildren : x.form.children = x₀.form.children := by
    have := congrArg Form.children hform
    simpa using this
  have hchain : s₀.Chain x.pos x.form.children x.stop := by
    rw [hpos, hstop, hchildren]
    exact hplaced.span.2
  have htiles : P.tiles x.stop x.pos x.form.children = true := by
    apply tiles_of_chain (hstore ▸ hr.chain hchain)
    intro c _ y hy
    rw [hr.parsed (some c) y (hstore ▸ hy), Bool.false_and]
  unfold spliced
  rw [if_pos htiles]
  split
  · exact writes_declarationList hr hs hstore hsource hx ‹_› hp
  · rename_i hother
    have hall := writes_children hr hs hstore hsource (hpos ▸ hplaced.span.1)
      (hstop ▸ hplaced.stop) hchain hp
    refine hall.congr fun e => ?_
    rw [respells_iff, children_of_get? hx]
    refine ⟨.inr, ?_⟩
    rintro (⟨change, hc, rfl, -⟩ | h)
    · obtain ⟨-, list, -, -, -, hlist⟩ := hr.exists_list hc hx
      exact absurd hlist (hother _)
    · exact h

theorem writes_bare (hx : s.get? (some n) = some x)
    (hp : ∀ c ∈ x.form.children, ∀ y, s.get? (some c) = some y →
      P.Writes (p (some c)) y.pos y.stop (Respells s₀ s changes c)) :
    P.Writes (P.bare p x) x.pos x.stop (Respells s₀ s changes n) := by
  obtain ⟨x₀, hx₀, e⟩ := hr.exists_parsed hx
  simp only [unkinded, Prod.mk.injEq] at e
  obtain ⟨-, hpos, hstop, -, -, hedited⟩ := e
  have hplaced := hr.placed n x₀ hx₀
  rw [hplaced.unedited] at hedited
  unfold bare
  rw [hr.parsed _ x hx]
  by_cases hpristine : x.isPristine = true
  · rw [if_pos hpristine]
    have hcopy : P.Writes (P.copy x.pos x.stop) x.pos x.stop fun _ => False := by
      rw [hpos, hstop]
      exact .copy (hsource ▸ hs) (hsource ▸ hplaced.span.1) (hsource ▸ hplaced.stop)
        hplaced.span.2.le
    refine hcopy.congr fun e => ⟨False.elim, ?_⟩
    rintro ⟨change, hc, hbelow, -⟩
    refine hr.not_below_of_pristine ?_ hc hbelow
    rw [Store.isPristine, hx]
    exact hpristine
  · rw [if_neg hpristine, if_neg Bool.false_ne_true, hedited]
    split
    · exact writes_spliced hr hs hstore hsource hx hp
    · exact writes_spliced hr hs hstore hsource hx hp

theorem writes_go (fuel : Nat) (hn : n < fuel) (hx : s.get? (some n) = some x) :
    P.Writes (print.go P fuel (some n)) x.pos x.stop (Respells s₀ s changes n) := by
  induction fuel generalizing n x with
  | zero => exact absurd hn (Nat.not_lt_zero n)
  | succ fuel ih =>
    have hbare : P.Writes (P.bare (print.go P fuel) x) x.pos x.stop (Respells s₀ s changes n) := by
      refine writes_bare hr hs hstore hsource hx fun c hc y hy => ih ?_ hy
      have hholds : s.Holds n c := by
        rw [Holds, children_of_get? hx]
        exact hc
      exact Nat.lt_of_lt_of_le (hr.forest.lt n c (hr.holds_iff.1 hholds)) (Nat.le_of_lt_succ hn)
    have hnone : P.needsParentheses (some n) = false := by
      apply needsParentheses_eq_false
      rw [hstore]
      exact fun y hy => ⟨hr.parsed _ y hy, hr.parsed _⟩
    unfold print.go printWith
    rw [hstore, hx]
    dsimp only
    rw [hnone]
    exact hbare

end

end Printer

variable {source : Text} {p : Program} {changes : List (NodeId × DeclarationKind)}

theorem exists_respelled_print (h : parse source = .ok p) (hs : source.Settled)
    (hc : p.store.Redeclares changes) :
    ∃ es, Respelled 0 source es (Program.print ⟨p.store.redeclareAll changes, p.root⟩ source) ∧
      ∀ e, e ∈ es ↔ ∃ change ∈ changes, e = p.store.respelling change := by
  have hr := redeclared_redeclareAll h hc
  obtain ⟨x₀, hx₀, hpos₀, hstop₀⟩ := (placed_of_parse h).2
  obtain ⟨x, hx, e⟩ := Agree.exists_get? (fun m => (hr.plain m).symm) hx₀
  simp only [unkinded, Prod.mk.injEq] at e
  obtain ⟨-, hpos, hstop, -⟩ := e
  let printer : Printer := ⟨p.store.redeclareAll changes, source, .detect source⟩
  have hfuel : p.root < printer.store.size + 1 := Nat.lt_succ_of_lt (lt_size_of_get? hx)
  have hwrites := Printer.writes_go hr hs (P := printer) rfl rfl _ hfuel hx
  rw [← hpos, hpos₀, ← hstop, hstop₀] at hwrites
  obtain ⟨es, hrespelled, hes⟩ := hwrites.whole (w := { Writer.empty with newline := _ }) rfl
  refine ⟨es, hrespelled, fun e => (hes e).trans ⟨?_, ?_⟩⟩
  · rintro ⟨change, hchange, -, he⟩
    exact ⟨change, hchange, he⟩
  · rintro ⟨change, hchange, he⟩
    obtain ⟨list, hlist, -⟩ := exists_of_isVarList (hc.var change hchange).1
    have hbelow := (nested_of_parse h).reachable change.1 (lt_size_of_form? hlist)
    exact ⟨change, hchange, Relation.ReflTransGen.mono (fun _ _ => hr.holds_iff.2) _ _ hbelow, he⟩

theorem print_parsed (h : parse source = .ok p) (hfirst : lineIndent source = []) :
    p.print source = source := by
  obtain ⟨x, hx, hpos, hstop⟩ := (placed_of_parse h).2
  have hparsed : ∀ n x, p.store.get? n = some x → x.synthesized = false := by
    rintro (_ | n) x hx
    · cases hx
    · have hpristine := ((placed_of_parse h).1 n x hx).pristine
      simp_all [Node.isPristine]
  have hpristine := ((placed_of_parse h).1 p.root x hx).pristine
  unfold Program.print Store.print Printer.text Printer.print Printer.print.go Printer.printWith
  dsimp only
  rw [hx]
  dsimp only
  rw [Printer.needsParentheses_eq_false fun y hy => ⟨hparsed _ y hy, hparsed _⟩,
    if_neg Bool.false_ne_true, Printer.bare, if_pos hpristine, hpos, hstop]
  have hindent : lineIndentAt source 0 = [] := (lineIndentAt_zero source).trans hfirst
  have hall : source = [] ++ (source ++ []) := (List.append_nil source).symm
  simpa [Writer.empty, Writer.text] using Printer.text_copy (P := ⟨p.store, source, .detect source⟩)
    (w := { Writer.empty with newline := _ }) hall hindent.symm

theorem modernize_nil (h : parse source = .ok p) (hfirst : lineIndent source = []) :
    modernize [] source = .ok ⟨source, []⟩ := by
  unfold modernize
  rw [h]
  change (.ok ⟨p.print source, [].mergeSort _⟩ : Except Failure Outcome) = _
  rw [print_parsed h hfirst, List.mergeSort_nil]

/-- The text of a parsed program in which `var` lists have become lists of other kinds is the source
with the keywords of these lists respelled; without any rule it is the source. -/
theorem respelled_print (h : parse source = .ok p) (hs : source.Settled)
    (hc : p.store.Redeclares changes) :
    (∃ es, Respelled 0 source es (Program.print ⟨p.store.redeclareAll changes, p.root⟩ source) ∧
      ∀ e, e ∈ es ↔ ∃ change ∈ changes, e = p.store.respelling change) ∧
    modernize [] source = .ok ⟨source, []⟩ :=
  ⟨exists_respelled_print h hs hc, modernize_nil h hs.first⟩

theorem respelled_print_nested :
    let source :=
      "var a = 1;\n\x7b\n  var b = 2;\n  f(function () \x7b\n    return b;\n  \x7d);\n\x7d".toList
    let changes := [(8, DeclarationKind.constKind), (3, DeclarationKind.letKind)]
    ∃ p, parse source = .ok p ∧ Settled source ∧ p.store.Redeclares changes ∧
      (∃ es, Respelled 0 source es
          (Program.print ⟨p.store.redeclareAll changes, p.root⟩ source) ∧
        ∀ e, e ∈ es ↔ ∃ change ∈ changes, e = p.store.respelling change) ∧
      modernize [] source = .ok ⟨source, []⟩ := by
  intro source changes
  have hvar : ∀ p, parse source = .ok p →
      ∀ change ∈ changes, p.store.isVarList change.1 = true ∧ change.2 ≠ .varKind :=
    of_parse (by decide +kernel)
  obtain ⟨p, hp⟩ := exists_parse_of_isOk source (by decide +kernel)
  have hs : Settled source := ⟨by decide +kernel, by decide +kernel⟩
  have hc : p.store.Redeclares changes := ⟨by decide, hvar p hp⟩
  exact ⟨p, hp, hs, hc, respelled_print hp hs hc⟩

end Modernizer
