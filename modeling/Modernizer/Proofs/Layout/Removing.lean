import Modernizer.Proofs.Layout.Lead
import Modernizer.Proofs.Parser.Tail

/-! Statements that are removed. Each of the others is printed with its lead and its tail, and so with all
of its comments; nothing is printed of the lead, the code and the tail of one that is removed
(`Remains`). Step by step this is so of a sequence (`remains_foldlM`), and around the statements the
program is printed as it was (`Retains`). -/

namespace Modernizer

open Store Text

theorem Store.Annotated.lies_of_leads {source : Text} {s : Store} {root c n : NodeId} {x y : Node}
    {list : StatementList} {before after : List NodeId} {started adjacent : Bool} {mid : Nat}
    {blanks : Text} (h : Annotated source s root) (hx : s.get? (some c) = some x)
    (hlist : x.form.statementList? = some list)
    (hsplit : present list.statements = before ++ n :: after) (hy : s.get? (some n) = some y)
    (hle : y.pos ≤ y.stop)
    (hlead : Leads source started adjacent (s.tailStop list.innerPos before) mid y.pos blanks) :
    ∀ i ∈ s.leadingComments (some n) ++ s.trailingComments (some n),
      ∃ d, s.Lies i d mid (s.trailingStop (some n)) := by
  intro i hi
  rcases List.mem_append.1 hi with hi | hi
  · obtain ⟨d, hd, hpos, hstop⟩ := h.lead hx hlist hsplit hy hi
    obtain ⟨-, -, hboundary⟩ := h.tailStop_le hx hlist hsplit
    refine ⟨d, hd, ?_, Nat.le_trans hstop (Nat.le_trans hle (le_trailingStop hy).1)⟩
    exact le_of_slash hboundary hlead.boundary hlead.omitted (h.slash d (List.mem_of_getElem? hd)) hpos
  · obtain ⟨d, hd, hpos, hstop⟩ := h.tail hy hi
    exact ⟨d, hd, Nat.le_trans hlead.le.2 (Nat.le_trans hle hpos), hstop⟩

/-- What remains of some statements from one offset to another, if only some of them are kept: nothing
of a statement that is removed, of its lead and its tail, and all of one that is kept. The two marks
tell whether some statement before was kept, and whether the last one was. -/
inductive Remains (source : Text) (s : Store) :
    Bool → Bool → Nat → List NodeId → List NodeId → Text → Nat → Prop
  | nil (started adjacent : Bool) (pos : Nat) : Remains source s started adjacent pos [] [] [] pos
  | removed {started adjacent : Bool} {pos stop : Nat} {n : NodeId} {ns kept : List NodeId} {t : Text}
      (hle : pos ≤ s.trailingStop (some n))
      (h : Remains source s started false (s.trailingStop (some n)) ns kept t stop) :
      Remains source s started adjacent pos (n :: ns) kept t stop
  | kept {started adjacent : Bool} {pos mid stop : Nat} {n : NodeId} {x : Node} {ns kept : List NodeId}
      {blanks t u : Text} (hx : s.get? (some n) = some x)
      (hlead : Leads source started adjacent pos mid x.pos blanks)
      (hstop : x.pos ≤ x.stop ∧ x.stop ≤ s.trailingStop (some n))
      (hcomments : ∀ i ∈ s.leadingComments (some n) ++ s.trailingComments (some n),
        ∃ c, s.Lies i c mid (s.trailingStop (some n)))
      (ht : Reindented (slice source mid (s.trailingStop (some n))) t)
      (h : Remains source s true true (s.trailingStop (some n)) ns kept u stop) :
      Remains source s started adjacent pos (n :: ns) (n :: kept) (blanks ++ t ++ u) stop

namespace Printer

variable {P : Printer} {p : Slot → Print} {f core : Print} {list : StatementList} {g : Progress}
  {i pos stop : Nat}

section Sequence

variable {before after : List NodeId} {n : NodeId}

theorem parsedIndex?_eq (h : list.parsed = (before ++ n :: after).map some) (hn : n ∉ after) :
    parsedIndex? list (some n) = some before.length := by
  have hnone : (after.map some).reverse.findIdx? (· == some n) = none := by
    rw [List.findIdx?_eq_none_iff]
    intro m hm
    rw [beq_eq_false_iff_ne]
    rintro rfl
    exact hn (by simpa using hm)
  have hreverse : list.parsed.reverse.findIdx? (· == some n) = some after.length := by
    rw [h, List.map_append, List.map_cons, List.reverse_append, List.reverse_cons, List.append_assoc,
      List.findIdx?_append, hnone]
    simp [List.findIdx?_cons]
  rw [parsedIndex?, List.idxOf?, hreverse, h]
  simp

theorem parsedPos_eq (h : list.parsed = (before ++ n :: after).map some) {y : Node}
    (hy : P.store.get? (some n) = some y) : P.parsedPos list before.length = y.pos := by
  simp [parsedPos, h, hy]

theorem leadPos_eq (h : list.parsed = (before ++ n :: after).map some) :
    P.leadPos list before.length = P.store.tailStop list.innerPos before := by
  rcases List.eq_nil_or_concat before with rfl | ⟨l, q, rfl⟩
  · rfl
  · simp [leadPos, h]

theorem run_sequenceStep (hparsed : list.parsed = (before ++ n :: after).map some) (hn : n ∉ after)
    {y : Node} (hy : P.store.get? (some n) = some y) (hsyn : y.synthesized = false)
    (hp : P.Recopies (p (some n)) y.pos y.stop) (hpos : Boundary P.source pos) (hle : pos ≤ y.pos)
    (htidy : g.isContiguous before.length = false → TidyFrom 0 P.source pos)
    (htail : P.store.tailStop list.innerPos before = pos)
    (hstop : Boundary P.source stop) (hle' : y.stop ≤ stop) (htail' : P.store.trailingStop (some n) = stop)
    (w : Writer) (hbreaks : Breaks w.newline) :
    ∃ mid blanks t, (P.sequenceStep p list g (some n)).run w =
        (⟨true, some before.length, P.sourceIndent y.pos⟩, w.write (blanks ++ t)) ∧
      Leads P.source g.started (g.isContiguous before.length) pos mid y.pos blanks ∧
      Reindented (slice P.source mid stop) t := by
  have hstanding : standing list g (some n) y = .kept before.length := by
    rw [standing, hsyn, parsedIndex?_eq hparsed hn]
    rfl
  have hlast : list.parsed.getD before.length none = some n := by simp [hparsed]
  obtain ⟨mid, blanks, t, hlead, hleads, hmoved⟩ := leads_keptLead (P := P) (g := g) hpos hp.opens hle
    htidy ((leadPos_eq hparsed).trans htail) (parsedPos_eq hparsed hy) w hbreaks
  obtain ⟨u, hu, hmoved'⟩ := (hp.seq (.copy hp.closes hstop hle')).text (w.write (blanks ++ t))
  refine ⟨mid, blanks, t ++ u, ?_, hleads, ?_⟩
  · unfold sequenceStep
    rw [hy]
    dsimp only
    rw [hstanding]
    dsimp only
    rw [hlast, htail']
    refine Prod.ext rfl ?_
    change ((do p (some n); P.copy y.stop stop : Print).run
      ((P.keptLead list g before.length).run w).2).2 = _
    rw [hlead, hu, Writer.write_write, List.append_assoc]
  · rw [← slice_append_slice hleads.boundary hp.opens hstop hleads.le.2 (Nat.le_trans hp.le hle')]
    exact hmoved.append hmoved'

end Sequence

section Fold

variable {s₀ : Store} {c root : NodeId} {x₀ : Node} {statements : StatementList}
  {kept₀ kept ns : List NodeId} (hthin : Thinned s₀ c kept₀ P.store)
  (h : Annotated P.source s₀ root) (hx₀ : s₀.get? (some c) = some x₀)
  (hlist : x₀.form.statementList? = some statements)
  (hp : ∀ n ∈ present statements.statements, ∀ y, P.store.get? (some n) = some y →
    P.Recopies (p (some n)) y.pos y.stop)

include hthin h hx₀ hlist hp

/-- Statement by statement it is printed what remains. -/
theorem remains_foldlM (hparsed : list.parsed = (present statements.statements).map some)
    (hinner : list.innerPos = statements.innerPos) (before : List NodeId) (hsub : kept.Sublist ns)
    (hall : present statements.statements = before ++ ns)
    (hfirst : before = [] → g.isContiguous 0 = true)
    (hahead : ∀ i, before.length < i → g.isContiguous i = false) (w : Writer) (hbreaks : Breaks w.newline) :
    ∃ t g', ((kept.map some).foldlM (P.sequenceStep p list) g).run w = (g', w.write t) ∧
      Remains P.source s₀ g.started (g.isContiguous before.length)
        (s₀.tailStop statements.innerPos before) ns kept t
        (s₀.tailStop statements.innerPos (present statements.statements)) := by
  -- `before` are the statements that were passed, kept or not
  induction hsub generalizing before g w with
  | slnil =>
    rw [List.append_nil] at hall
    exact ⟨[], g, rfl, hall ▸ .nil _ _ _⟩
  | @cons kept ns n _ ih =>
    obtain ⟨-, y, -, hlead, hle, htail⟩ := h.exists_statement hx₀ hlist hall
    have hskipped : g.isContiguous (before ++ [n]).length = false := by
      rw [List.length_append]
      exact hahead _ (Nat.lt_succ_self _)
    obtain ⟨t, g', hrun, hremains⟩ := ih (before ++ [n]) (by simp [hall]) (by simp) (fun i hi => by
      rw [List.length_append] at hi
      exact hahead i (Nat.lt_of_succ_lt hi)) w hbreaks
    rw [hskipped, tailStop_concat] at hremains
    exact ⟨t, g', hrun, .removed (Nat.le_trans hlead (Nat.le_trans hle htail)) hremains⟩
  | @cons_cons kept ns n _ ih =>
    obtain ⟨hn, y, hy, hlead, hle, htail⟩ := h.exists_statement hx₀ hlist hall
    obtain ⟨-, -, hboundary⟩ := h.tailStop_le hx₀ hlist hall
    obtain ⟨z, hz, hsyn, hzpos, hzstop⟩ := hthin.exists_get? h.placed hy
    have htidy : g.isContiguous before.length = false →
        TidyFrom 0 P.source (s₀.tailStop statements.innerPos before) := fun hapart =>
      h.tidy_tailStop hx₀ hlist hall fun hnil => by
        rw [hnil, List.length_nil, hfirst hnil] at hapart
        cases hapart
    obtain ⟨mid, blanks, t, hrun, hleads, hmoved⟩ := run_sequenceStep (g := g)
      (hall ▸ hparsed) hn hz hsyn (hp n (hall ▸ by simp) z hz) hboundary (hzpos ▸ hlead) htidy
      (by simp only [tailStop, hinner, hthin.trailingStop]) (h.boundary_trailingStop hy) (hzstop ▸ htail)
      (hthin.trailingStop _) w hbreaks
    obtain ⟨u, g', hrest, hremains⟩ := ih (before ++ [n])
      (g := ⟨true, some before.length, P.sourceIndent z.pos⟩) (by simp [hall]) (by simp)
      (fun i hi => by simp [Progress.isContiguous] at hi ⊢; omega) (w.write (blanks ++ t)) hbreaks
    have hadjacent : (⟨true, some before.length, P.sourceIndent z.pos⟩ : Progress).isContiguous
        (before ++ [n]).length = true := by
      simp [Progress.isContiguous]
    rw [hadjacent, tailStop_concat] at hremains
    rw [hzpos] at hleads
    refine ⟨blanks ++ t ++ u, g', ?_,
      .kept hy hleads ⟨hle, htail⟩ (h.lies_of_leads hx₀ hlist hall hy hle hleads) hmoved hremains⟩
    rw [List.map_cons, List.foldlM_cons]
    change (List.foldlM (P.sequenceStep p list) ((P.sequenceStep p list g (some n)).run w).1
      (kept.map some)).run ((P.sequenceStep p list g (some n)).run w).2 = _
    rw [hrun, hrest, Writer.write_write]

theorem remains_sequence (hparsed : statements.parsed = (present statements.statements).map some)
    (hsub : kept.Sublist (present statements.statements)) (w : Writer) (hbreaks : Breaks w.newline) :
    ∃ t, ((P.sequence p { statements with statements := kept.map some }).run w).2 =
        ((P.copy (s₀.tailStop statements.innerPos (present statements.statements))
          statements.innerStop).run (w.write t)).2 ∧
      Remains P.source s₀ false true statements.innerPos (present statements.statements) kept t
        (s₀.tailStop statements.innerPos (present statements.statements)) := by
  let list : StatementList := { statements with statements := kept.map some }
  obtain ⟨t, g, hrun, hremains⟩ := remains_foldlM (g := ⟨false, none, P.sequenceIndent list⟩) hthin h hx₀
    hlist hp (show list.parsed = _ from hparsed) (show list.innerPos = _ from rfl) [] hsub rfl
    (fun _ => rfl) (fun i hi => by simpa [Progress.isContiguous] using Nat.ne_of_gt hi) w hbreaks
  refine ⟨t, ?_, hremains⟩
  have hstart : (list.parsed.getLast?.map P.store.trailingStop).getD list.innerPos =
      s₀.tailStop statements.innerPos (present statements.statements) := by
    change (statements.parsed.getLast?.map P.store.trailingStop).getD statements.innerPos = _
    rw [hparsed, List.getLast?_map, Option.map_map, tailStop]
    simp only [Function.comp_def, hthin.trailingStop]
  have hclosed : (g.started && list.parsed.isEmpty) = false := by
    cases hempty : list.parsed with
    | cons n ns => rw [List.isEmpty_cons, Bool.and_false]
    | nil =>
      have hnone := hparsed.symm.trans hempty
      rw [List.map_eq_nil_iff] at hnone
      rw [hnone] at hsub
      obtain rfl := List.sublist_nil.1 hsub
      obtain rfl : _ = g := congrArg Prod.fst hrun
      rfl
  have hfold : ∀ (f : StateM Writer Progress) (k : Progress → Print),
      ((f >>= k).run w).2 = ((k (f.run w).1).run (f.run w).2).2 := fun _ _ => rfl
  change ((P.sequence p list).run w).2 = _
  unfold sequence
  rw [hfold, hrun]
  dsimp only
  rw [hclosed, hstart]
  rfl

end Fold

/-- What remains of some statements is printed, and all of the source in front of them and behind them,
between the two offsets. -/
def Retains (P : Printer) (s₀ : Store) (list : StatementList) (kept : List NodeId) (f : Print)
    (pos stop : Nat) : Prop :=
  ∃ (front back : Print) (mid : Nat), P.Recopies front pos list.innerPos ∧ P.Recopies back mid stop ∧
    ∀ w : Writer, Breaks w.newline → ∃ inner, (f.run w).2 = (back.run ((front.run w).2.write inner)).2 ∧
      Remains P.source s₀ false true list.innerPos (present list.statements) kept inner mid

namespace Retains

variable {s₀ : Store} {kept : List NodeId} {lo hi : Nat}

theorem of_encloses (h : P.Retains s₀ list kept core lo hi) (h' : P.Encloses core f pos lo hi stop) :
    P.Retains s₀ list kept f pos stop := by
  obtain ⟨front, back, mid, hfront, hback, hcore⟩ := h
  obtain ⟨before, after, rfl, hbefore, hafter⟩ := h'
  refine ⟨_, _, mid, hbefore.seq hfront, hback.seq hafter, fun w hbreaks => ?_⟩
  obtain ⟨inner, hinner, hremains⟩ := hcore (before.run w).2 (hbefore.newline w ▸ hbreaks)
  refine ⟨inner, ?_, hremains⟩
  change (after.run (core.run (before.run w).2).2).2 = _
  rw [hinner]
  rfl

theorem text {n : Slot} (h : P.Retains s₀ list kept (P.print n) pos stop)
    (hbreaks : Breaks P.options.newline) :
    ∃ front inner back mid, P.text n = front ++ inner ++ back ∧
      Reindented (slice P.source pos list.innerPos) front ∧
      Remains P.source s₀ false true list.innerPos (present list.statements) kept inner mid ∧
      Reindented (slice P.source mid stop) back := by
  obtain ⟨f, g, mid, hf, hg, hprint⟩ := h
  let start : Writer := { Writer.empty with newline := P.options.newline }
  obtain ⟨inner, hinner, hremains⟩ := hprint start hbreaks
  obtain ⟨front, hfront, hmoved⟩ := hf.text start
  obtain ⟨back, hback, hmoved'⟩ := hg.text ((start.write front).write inner)
  refine ⟨front, inner, back, mid, ?_, hmoved, hremains, hmoved'⟩
  rw [hfront, hback, Writer.write_write, Writer.write_write] at hinner
  rw [Printer.text, hinner, Writer.text_write, List.append_assoc]
  rfl

end Retains

section Container

variable {s₀ : Store} {c : NodeId} {x x₀ : Node} {statements : StatementList} {kept : List NodeId}

/-- In front of its statements a container is printed as it was. -/
theorem exists_head (hplaced : Placed P.source s₀) (hx₀ : s₀.get? (some c) = some x₀)
    (hlist : x₀.form.statementList? = some statements)
    (hform : x.form = x₀.form.withStatements (kept.map some)) (hpos : x.pos = x₀.pos)
    (hnode : ∀ m y₀, s₀.get? (some m) = some y₀ →
      ∃ y, P.store.get? (some m) = some y ∧ y.pos = y₀.pos ∧ y.stop = y₀.stop)
    (hp : ∀ m, s₀.Holds c m → ∀ y, P.store.get? (some m) = some y →
      P.Recopies (p (some m)) y.pos y.stop) :
    ∃ head : Print, P.Recopies head x.pos statements.innerPos ∧
      ∀ list : StatementList, list.innerPos = statements.innerPos → P.editedContainer p list x = (do
        head
        P.sequence p list
        P.copy list.innerStop x.stop) := by
  have hplace := hplaced c x₀ hx₀
  have hinner := (hplace.ranges _ (Form.range_mem_ranges hlist)).pos.boundary
  have hstart : Boundary P.source x.pos := hpos ▸ hplace.span.pos.boundary
  have hplain : ∀ front, x₀.form.body? = some (front, statements.range) →
      P.Recopies (P.copy x.pos statements.innerPos) x.pos statements.innerPos := fun front hbody =>
    .copy hstart hinner (hpos ▸ (hplace.body_inside _ hbody).1.le)
  -- only a `case` has an expression in front of its statements
  cases hform₀ : x₀.form with
  | program l | block l =>
    rw [hform₀] at hlist hform hplain
    cases hlist
    refine ⟨_, hplain _ rfl, fun list hsame => ?_⟩
    unfold editedContainer
    rw [hform, hsame]
    rfl
  | caseClause e l =>
    have hbody := hplace.body_inside
    rw [hform₀] at hlist hform hplain hbody
    cases hlist
    cases e with
    | none =>
      refine ⟨_, hplain _ rfl, fun list hsame => ?_⟩
      unfold editedContainer
      rw [hform, hsame]
      rfl
    | some m =>
      obtain ⟨⟨y₀, hy₀, hle, -, hafter⟩, -⟩ := hbody _ rfl
      obtain ⟨y, hy, hypos, hystop⟩ := hnode m y₀ hy₀
      have hholds : s₀.Holds c m := holds_of_form
        (show s₀.form? (some c) = some (.caseClause (some m) statements) by rw [form?, hx₀, ← hform₀]; rfl)
        List.mem_cons_self
      have hm := hp m hholds y hy
      rw [← hypos, ← hpos] at hle
      have hle' : y.stop ≤ statements.innerPos := hystop ▸ hafter
      refine ⟨_, (Recopies.copy hstart hm.opens hle).seq (hm.seq (.copy hm.closes hinner hle')),
        fun list hsame => ?_⟩
      have hinside : (x.pos ≤ y.pos && y.stop ≤ statements.innerPos : Bool) = true := by
        simp [hle, hle']
      unfold editedContainer
      rw [hform, hsame]
      simp only [Form.withStatements, Option.isSome_some, if_true, Option.bind_some, hy, Option.map_some,
        hinside, bind_assoc]
  | _ =>
    rw [hform₀] at hlist
    cases hlist

variable {root : NodeId} {kept : List NodeId} (hthin : Thinned s₀ c kept P.store)
  (h : Annotated P.source s₀ root) (hx₀ : s₀.get? (some c) = some x₀)
  (hlist : x₀.form.statementList? = some statements)
  (hp : ∀ m, s₀.Holds c m → ∀ y, P.store.get? (some m) = some y →
    P.Recopies (p (some m)) y.pos y.stop)

include hthin h hx₀ hlist hp

omit hp in
theorem printWith_container (hfoot : P.Footholds s₀) (hx : P.store.get? (some c) = some x) :
    P.printWith p (some c) = P.editedContainer p { statements with statements := kept.map some } x := by
  have hnode := Option.some.inj (hx.symm.trans (hthin.get?_container h.placed hx₀))
  have hform : x.form = x₀.form.withStatements (kept.map some) := congrArg Node.form hnode
  have hmarked : x.isPristine = false := by
    have hmarked := hthin.marked c .refl
    rwa [isPristine, hx] at hmarked
  obtain ⟨list, hlist', hbare⟩ := hfoot.resequenced c x hx (hthin.parsed h.placed hx)
    (congrArg Node.listEdited hnode)
  obtain ⟨_, -, hwith⟩ := statementList?_slots hlist
  rw [hform, (hwith _).2] at hlist'
  cases hlist'
  rw [printWith_eq_bare hthin h.placed hx, hbare, hmarked]
  rfl

theorem retains_editedContainer (hx : P.store.get? (some c) = some x)
    (hsub : kept.Sublist (present statements.statements)) :
    P.Retains s₀ statements kept (P.editedContainer p { statements with statements := kept.map some } x)
      x.pos x.stop := by
  have hplace := h.placed c x₀ hx₀
  have hrange := hplace.ranges _ (Form.range_mem_ranges hlist)
  have hnode := Option.some.inj (hx.symm.trans (hthin.get?_container h.placed hx₀))
  have hpos : x.pos = x₀.pos := (congrArg Node.pos hnode).trans rfl
  have hstop : x.stop = x₀.stop := (congrArg Node.stop hnode).trans rfl
  obtain ⟨head, hhead, heq⟩ := exists_head h.placed hx₀ hlist (congrArg Node.form hnode) hpos
    (fun m y₀ hy₀ => by
      obtain ⟨y, hy, -, hpos, hstop⟩ := hthin.exists_get? h.placed hy₀
      exact ⟨y, hy, hpos, hstop⟩) hp
  obtain ⟨-, hle, hboundary⟩ := h.tailStop_le hx₀ hlist (List.append_nil _).symm
  obtain ⟨hsame, hnone⟩ := hplace.as_parsed statements hlist
  have hparsed : statements.parsed = (present statements.statements).map some := by
    rw [hsame, map_some_present hnone]
  have hinside : statements.innerStop ≤ x.stop := by
    obtain ⟨front, hbody⟩ := Form.body?_of_statementList? hlist
    exact hstop ▸ (hplace.body_inside _ hbody).2
  have hstatements : s₀.statementList? (some c) = some statements := by
    rw [statementList?, form?, hx₀]
    exact hlist
  have hrest : P.Recopies (P.copy (s₀.tailStop statements.innerPos (present statements.statements))
      statements.innerStop) _ statements.innerStop := .copy hboundary hrange.stop.boundary hle
  have hclose : P.Recopies (P.copy statements.innerStop x.stop) statements.innerStop x.stop :=
    .copy hrange.stop.boundary (hstop ▸ hplace.stop.boundary) hinside
  refine ⟨head, _, _, hhead, hrest.seq hclose, fun w hbreaks => ?_⟩
  obtain ⟨inner, hrun, hremains⟩ := remains_sequence hthin h hx₀ hlist
    (fun n hn => hp n (holds_of_mem_statements hstatements (mem_present.1 hn))) hparsed hsub
    (head.run w).2 (hhead.newline w ▸ hbreaks)
  refine ⟨inner, ?_, hremains⟩
  rw [heq { statements with statements := kept.map some } rfl]
  change ((P.copy statements.innerStop x.stop).run ((P.sequence p _).run (head.run w).2).2).2 = _
  rw [hrun]
  rfl

end Container

theorem retains_print {s₀ : Store} {root c : NodeId} {r x₀ : Node} {kept : List NodeId}
    (hthin : Thinned s₀ c kept P.store) (h : Annotated P.source s₀ root) (hforest : s₀.Forest)
    (hfoot : P.Footholds s₀) (hx₀ : s₀.get? (some c) = some x₀) (hlist : x₀.form.statementList? = some list)
    (hsub : kept.Sublist (present list.statements)) (hr : P.store.get? (some root) = some r) :
    P.Retains s₀ list kept (P.print (some root)) r.pos r.stop := by
  obtain ⟨x, hx, -, -, -⟩ := hthin.exists_get? h.placed hx₀
  have hreachable := h.nested.reachable c (lt_size_of_get? hx₀)
  have hfuel : root < P.store.size + 1 := Nat.lt_succ_of_lt (lt_size_of_get? hr)
  obtain ⟨k, hk, hencloses⟩ := encloses_go hthin hfoot h.placed hforest h.tree hx (P.store.size + 1) .refl
    hreachable hr hfuel
  obtain ⟨k, rfl⟩ := Nat.exists_eq_succ_of_ne_zero (Nat.ne_of_gt (Nat.zero_lt_of_lt hk))
  have hchildren : ∀ m, s₀.Holds c m → ∀ y, P.store.get? (some m) = some y →
      P.Recopies (print.go P k (some m)) y.pos y.stop := by
    intro m hm y hy
    have hless := Nat.lt_of_lt_of_le (hforest.lt c m hm) (Nat.le_of_lt_succ hk)
    exact recopies_go hthin hfoot h.placed hforest k (h.tree.not_below_holder hreachable hm) hy hless
  have hcontainer := retains_editedContainer hthin h hx₀ hlist hchildren hx hsub
  rw [← printWith_container hthin h hx₀ hlist hfoot hx] at hcontainer
  exact hcontainer.of_encloses hencloses

end Printer

variable {source : Text} {p : Program} {c : NodeId} {list : StatementList} {kept : List NodeId}

/-- If a container of a parsed program is given some of its statements, in their order, the rest of the
program is printed as it was, and so are the statements that are kept, each with its comments. Where
others were in front of it, the lead of a statement may begin with other blanks. -/
theorem remains_setStatements (h : parse source = .ok p)
    (hlist : p.store.statementList? (some c) = some list)
    (hkept : kept.Sublist (present list.statements)) :
    ∃ s, p.store.setStatements? (some c) (kept.map some) = some s ∧
      ∃ front inner back stop, s.print source (some p.root) = front ++ inner ++ back ∧
        Reindented (slice source 0 list.innerPos) front ∧
        Remains source p.store false true list.innerPos (present list.statements) kept inner stop ∧
        Reindented (slice source stop (utf8Length source)) back := by
  have hannotated := annotated_of_parse h
  have hforest := (grows_of_parse h).1.forest
  obtain ⟨hplaced, r₀, hr₀, hrpos, hrstop⟩ := placed_of_parse h
  obtain ⟨s, hs, hthin⟩ := thinned_setStatements? hplaced hforest hlist fun n hn =>
    mem_present.1 (hkept.subset hn)
  let P : Printer := ⟨s, source, .detect source⟩
  have hfoot : P.Footholds p.store :=
    Printer.footholds_of_footing ((Footing.refl hplaced).setStatements? hs) hplaced
  obtain ⟨form, hform, hstatements⟩ := Option.bind_eq_some_iff.1 hlist
  obtain ⟨x₀, hx₀, rfl⟩ := Option.map_eq_some_iff.1 hform
  obtain ⟨r, hr, -, hrpos', hrstop'⟩ := hthin.exists_get? hplaced hr₀
  have hretains := Printer.retains_print (P := P) hthin hannotated hforest hfoot hx₀ hstatements hkept hr
  rw [hrpos', hrpos, hrstop', hrstop] at hretains
  exact ⟨s, hs, hretains.text (breaks_detectNewline source)⟩

/-- Of three statements the middle one is removed with its comment. The others keep theirs, and the last
one gets a line of its own. -/
theorem remains_setStatements_block :
    let source := "\x7b a; /* 1 */ b; /* 2 */ c; // 3\n \x7d".toList
    ∃ p list s, parse source = .ok p ∧ p.store.statementList? (some 6) = some list ∧
      [1, 5].Sublist (present list.statements) ∧
      p.store.setStatements? (some 6) ([1, 5].map some) = some s ∧
      s.print source (some p.root) = "\x7b a; /* 1 */\nc; // 3\n \x7d".toList ∧
      ∃ front inner back stop, s.print source (some p.root) = front ++ inner ++ back ∧
        Reindented (slice source 0 list.innerPos) front ∧
        Remains source p.store false true list.innerPos (present list.statements) [1, 5] inner stop ∧
        Reindented (slice source stop (utf8Length source)) back := by
  intro source
  have hrun : ∃ p ∈ (parse source).toOption, ∃ list ∈ p.store.statementList? (some 6),
      [1, 5].Sublist (present list.statements) ∧
      ∃ s ∈ p.store.setStatements? (some 6) ([1, 5].map some),
        s.print source (some p.root) = "\x7b a; /* 1 */\nc; // 3\n \x7d".toList := by decide +kernel
  obtain ⟨p, hp, list, hlist, hsub, s, hs, hprint⟩ := exists_parse hrun
  obtain ⟨s', hs', hremains⟩ := remains_setStatements hp hlist hsub
  cases hs.symm.trans hs'
  exact ⟨p, list, s, hp, hlist, hsub, hs, hprint, hremains⟩

/-- What is printed may be no program: what is behind the last statement of a block is copied as it is,
so that the brace comes to stand in the comment of a statement before it. -/
theorem setStatements_ends_in_comment :
    let source := "\x7b a; // c\n b; \x7d".toList
    ∃ p list s, parse source = .ok p ∧ p.store.statementList? (some 4) = some list ∧
      [1].Sublist (present list.statements) ∧
      p.store.setStatements? (some 4) ([1].map some) = some s ∧
      s.print source (some p.root) = "\x7b a; // c \x7d".toList ∧
      (parse (s.print source (some p.root))).isOk = false := by
  intro source
  have hrun : ∃ p ∈ (parse source).toOption, ∃ list ∈ p.store.statementList? (some 4),
      [1].Sublist (present list.statements) ∧
      ∃ s ∈ p.store.setStatements? (some 4) ([1].map some),
        s.print source (some p.root) = "\x7b a; // c \x7d".toList := by decide +kernel
  have hfails : (parse "\x7b a; // c \x7d".toList).isOk = false := by decide +kernel
  obtain ⟨p, hp, list, hlist, hsub, s, hs, hprint⟩ := exists_parse hrun
  exact ⟨p, list, s, hp, hlist, hsub, hs, hprint, hprint ▸ hfails⟩

end Modernizer
