import Modernizer.Proofs.Parser.KeepingProgram
import Modernizer.Proofs.Parser.PlacedProgram
import Modernizer.Proofs.Rule.CodeSources
import Modernizer.Proofs.Text.LineEnd

/-! Places and names without line ends. Nodes and comments of a parsed program begin and end outside of
the line ends of its source, and so do its lists. A new node takes over the span of one that it
replaces, and the range of the parameters that it has, so this is so after any passes
(`Rule.seamed_runOn`). Names are on one line, and new ones are, too, if the strings are by which members
are accessed (`Rule.namesInLine_runOn`). -/

namespace Modernizer

open Store Text

namespace Form

variable {form : Form}

/-- The range in a form that is looked at apart from the children: of statements or parameters. -/
def inner? : Form → Option (Nat × Nat)
  | program list | block list | caseClause _ list => some (list.innerPos, list.innerStop)
  | form => form.parameterList?.map fun l => (l.pos, l.stop)

/-- Forms of all nodes that rules make. -/
def isNew : Form → Bool
  | arrow _ | method _ | declarationList _ | identifier _ | stringLiteral _ => true
  | form => form.isMade

@[simp] theorem inner?_mapSlots (g : Slot → Slot) (form : Form) :
    (form.mapSlots g).inner? = form.inner? := by
  cases form <;> rfl

@[simp] theorem inner?_withStatements (statements : List Slot) (form : Form) :
    (form.withStatements statements).inner? = form.inner? := by
  cases form <;> rfl

@[simp] theorem isNew_mapSlots (g : Slot → Slot) (form : Form) :
    (form.mapSlots g).isNew = form.isNew := by
  cases form <;> rfl

@[simp] theorem isNew_withStatements (statements : List Slot) (form : Form) :
    (form.withStatements statements).isNew = form.isNew := by
  cases form <;> rfl

theorem isNew_of_isMade (h : form.isMade = true) : form.isNew = true := by
  cases form <;> first | rfl | exact h

theorem inner?_of_isMade (h : form.isMade = true) : form.inner? = none := by
  cases form <;> first | rfl | cases h

theorem inner?_of_statementList? {list : StatementList} (h : form.statementList? = some list) :
    form.inner? = some (list.innerPos, list.innerStop) := by
  cases form <;> cases h <;> rfl

theorem exists_range_of_inner? {r : Nat × Nat} (h : form.inner? = some r) :
    ∃ range ∈ form.ranges, r = (range.pos, range.stop) := by
  cases form <;> cases h <;> exact ⟨_, List.mem_cons_self, rfl⟩

end Form

variable {source : Text} {s s' : Store}

def Form.Seamed (source : Text) (form : Form) : Prop :=
  ∀ r ∈ form.inner?, SeamAt source r.1 ∧ SeamAt source r.2

/-- The places of the node are outside of line ends, and a new one has a form that rules make. -/
structure Node.Seamed (source : Text) (x : Node) : Prop where
  pos : SeamAt source x.pos
  stop : SeamAt source x.stop
  form : x.form.Seamed source
  new : x.synthesized = true → x.form.isNew = true

namespace Store

/-- No place of the store is inside of a line end. -/
structure Seamed (source : Text) (s : Store) : Prop where
  nodes : ∀ n x, s.get? n = some x → x.Seamed source
  comments : ∀ c ∈ s.comments, SeamAt source c.pos ∧ SeamAt source c.stop

namespace Seamed

theorem of_agree (h : s.Seamed source) (hs : Agree shown s s') (hcomments : s'.comments = s.comments) :
    s'.Seamed source where
  nodes n x' hx' := by
    obtain ⟨x, hx, e⟩ := hs.exists_get? hx'
    simp only [shown, standing, Prod.mk.injEq] at e
    obtain ⟨hform, hpos, hstop, -, hsyn⟩ := e
    have hnode := h.nodes n x hx
    exact ⟨hpos ▸ hnode.pos, hstop ▸ hnode.stop, hform ▸ hnode.form,
      hform ▸ hsyn ▸ hnode.new⟩
  comments := hcomments ▸ h.comments

theorem modify (h : s.Seamed source) {n : Slot} {f : Node → Node}
    (hf : ∀ x, s.get? n = some x → x.Seamed source → (f x).Seamed source) :
    (s.modify n f).Seamed source where
  nodes m x' hx' := by
    rw [get?_modify] at hx'
    split at hx'
    · rename_i hm
      obtain ⟨x, hx, rfl⟩ := Option.map_eq_some_iff.1 hx'
      exact hf x (hm ▸ hx) (h.nodes m x hx)
    · exact h.nodes m x' hx'
  comments := by
    rw [show (s.modify n f).comments = s.comments from congrArg Prod.fst (beside_modify s n f)]
    exact h.comments

theorem foldl_modify (h : s.Seamed source) {f : Node → Node}
    (hf : ∀ x, x.Seamed source → (f x).Seamed source) (ns : List Slot) :
    (ns.foldl (fun s n => s.modify n f) s).Seamed source := by
  induction ns generalizing s with
  | nil => exact h
  | cons n ns ih => exact ih (h.modify fun x _ => hf x)

theorem synthesize (h : s.Seamed source) {form : Form} (hnew : form.isNew = true)
    (hform : form.Seamed source) : (s.synthesize form).2.Seamed source where
  nodes n x hx := by
    rw [get?_synthesize] at hx
    split at hx
    · cases hx
      exact ⟨seamAt_zero source, seamAt_zero source, hform, fun _ => hnew⟩
    · exact h.nodes n x hx
  comments := h.comments

theorem reform (h : s.Seamed source) (n : Slot) {f : Form → Form}
    (hf : ∀ form, s.form? n = some form →
      (f form).inner? = form.inner? ∧ (f form).isNew = form.isNew) :
    (s.modify n fun x => { x with form := f x.form }).Seamed source := by
  refine h.modify fun x hx hseamed => ?_
  obtain ⟨hinner, hnew⟩ := hf x.form (by rw [form?, hx]; rfl)
  refine ⟨hseamed.pos, hseamed.stop, ?_, fun hsyn => hnew.trans (hseamed.new hsyn)⟩
  intro r hr
  exact hseamed.form r (hinner ▸ hr)

theorem markModified (h : s.Seamed source) (n : Slot) : (s.markModified n).Seamed source :=
  h.of_agree (agree_markModified (fun _ => rfl) s n) (congrArg Prod.fst (beside_markModified s n))

theorem replace? (h : s.Seamed source) {old new : Slot} (hs : s.replace? old new = some s') :
    s'.Seamed source := by
  obtain ⟨node, form, hnode, hform, hagree⟩ := agree_replace? hs
  have hplace := h.nodes old node hnode
  have hexchanged := h.reform node.parent
    (f := fun _ => form.mapSlots fun slot => if slot = old then new else slot) fun form' hform' => by
      cases hform.symm.trans hform'
      exact ⟨Form.inner?_mapSlots _ form, Form.isNew_mapSlots _ form⟩
  have hswapped : (s.swapped old new node form).Seamed source := by
    refine hexchanged.modify fun x _ hx => ?_
    unfold placeOf
    split
    · exact ⟨hplace.pos, hplace.stop, hx.form, hx.new⟩
    · exact ⟨hx.pos, hx.stop, hx.form, hx.new⟩
  refine hswapped.of_agree (hagree.map Prod.fst) ((comments_replace? hs).trans ?_)
  exact (congrArg Prod.fst ((beside_modify ..).trans (beside_modify ..))).symm

theorem adoptAnchorSpan (h : s.Seamed source) (anchor : Slot) (replacements : List Slot) :
    (s.adoptAnchorSpan anchor replacements).Seamed source := by
  unfold Store.adoptAnchorSpan
  split
  · exact h
  · rename_i a ha
    have hplace := h.nodes anchor a ha
    refine h.foldl_modify (fun x hx => ?_) replacements
    split
    · exact ⟨hplace.pos, hplace.stop, hx.form, hx.new⟩
    · exact hx

theorem applyReplacement (h : s.Seamed source) {r : Replacement}
    (hs : s.applyReplacement r = .ok s') : s'.Seamed source := by
  obtain ⟨list, -, -, hset⟩ := exists_of_applyReplacement hs
  have hadopted := h.adoptAnchorSpan r.anchor r.replacements
  have hreformed := hadopted.reform r.parent (f := Form.withStatements (r.result list.statements))
    fun form _ => ⟨Form.inner?_withStatements _ form, Form.isNew_withStatements _ form⟩
  refine hreformed.of_agree (agree_setStatements hset) ?_
  exact (congrArg Prod.fst ((beside_setStatements? hset).trans (beside_modify ..).symm))

theorem allowed (h : s.Seamed source) (I : List NodeId → Store → Prop) (r : RuleName) (n : NodeId) :
    r.Allowed (fun form => form.isNew = true ∧ form.Seamed source) I s n := by
  have hlists : ∀ list, s.HasParameters list →
      SeamAt source list.pos ∧ SeamAt source list.stop := by
    rintro list ⟨i, form, hform, hlist⟩
    obtain ⟨x, hx, rfl⟩ := Option.map_eq_some_iff.1 hform
    refine (h.nodes _ x hx).form (list.pos, list.stop) ?_
    cases hx : x.form <;> rw [hx] at hlist <;> cases hlist <;> rfl
  refine ⟨fun f hf m hparameters _ => ⟨rfl, ?_⟩, fun a ha => ⟨rfl, ?_⟩,
    fun _ list => ⟨rfl, ?_⟩, fun _ _ _ _ _ _ => ⟨rfl, ?_⟩⟩
  · obtain ⟨-, j, -, -, hf, -⟩ := hf
    rw [ClassIdiom.functionOf?_eq] at hf
    obtain ⟨form, hform, hcode⟩ := Option.bind_eq_some_iff.1 hf
    rintro _ ⟨⟩
    rw [hparameters]
    refine hlists f.parameters ⟨j, form, hform, ?_⟩
    cases form <;> cases hcode <;> rfl
  · rintro _ ⟨⟩
    exact hlists a.parameters ha
  · rintro _ ⟨⟩
  · rintro _ ⟨⟩

end Seamed

theorem upkeep_seamed (source : Text) :
    Upkeep (fun form => form.isNew = true ∧ form.Seamed source) fun _ s => s.Seamed source where
  plain hform := by
    refine ⟨Form.isNew_of_isMade hform, fun r hr => ?_⟩
    rw [Form.inner?_of_isMade hform] at hr
    cases hr
  drop _ h := h
  synthesize hform h := h.synthesize hform.1 hform.2
  apart _ h := h.synthesize rfl fun _ hr => by cases hr
  setAttached _ _ h := ⟨h.nodes, h.comments⟩
  markModified n h := h.markModified n
  redeclare {_ s n list kind} _ hlist h := by
    have hreformed := h.reform (some n) (f := fun _ => .declarationList { list with kind })
      fun form hform => by
        cases hlist.symm.trans hform
        exact ⟨rfl, rfl⟩
    exact hreformed.markModified (some n)
  replace? h hs := h.replace? hs
  applyReplacement _ h hs := h.applyReplacement hs

end Store

theorem seamed_of_parse {p : Program} (h : parse source = .ok p) : p.store.Seamed source where
  nodes n x hx := by
    obtain ⟨i, rfl⟩ : ∃ i, n = some i := by
      cases n with
      | none => cases hx
      | some i => exact ⟨i, rfl⟩
    have hplace := (placed_of_parse h).1 i x hx
    refine ⟨hplace.span.pos.seamAt, hplace.span.stop.seamAt, fun r hr => ?_, fun hsyn => ?_⟩
    · obtain ⟨range, hrange, rfl⟩ := Form.exists_range_of_inner? hr
      have hspans := hplace.ranges range hrange
      exact ⟨hspans.pos.seamAt, hspans.stop.seamAt⟩
    · have hpristine := hplace.pristine
      rw [Node.isPristine, hsyn] at hpristine
      cases hpristine
  comments c hc := by
    obtain ⟨st, hrun, hstore⟩ := store_of_parse h
    obtain ⟨⟨hscanner, -⟩, hend⟩ :=
      have := Parser.Grammar.keeping_ofDepth (source.length + 2)
      Parser.sound_of_program hrun
    obtain ⟨tokens, stop, rest, hbehind⟩ := hscanner.behind hend
    rw [hstore, comments_attachComments] at hc
    obtain ⟨before, raw, after, hsource, hspan, hhead, hlast⟩ := hbehind.exists_raw c hc
    obtain ⟨body, rfl⟩ := List.head?_eq_some_iff.1 hhead
    refine ⟨⟨before, _, hsource, congrArg Span.start hspan, fun _ => by simp⟩,
      ⟨before ++ '/' :: body, after, by simp [hsource], congrArg Span.stop hspan, fun e => ?_⟩⟩
    rw [List.getLast?_append_of_ne_nil _ (List.cons_ne_nil _ _)] at e
    exact absurd e hlast

/-- However the passes go, no place is inside of a line end. -/
theorem Rule.seamed_runOn (rules : List RuleName) {p : Program} (h : p.store.Seamed source) :
    (runOn rules source p).2.store.Seamed source :=
  keeps_passes (upkeep_seamed source) rules (fun r _ _ n h => h.allowed _ r n) source _ p.root _ h

/-! Names. -/

namespace Form

def InLine : Form → Prop
  | identifier name => OneLine name.toList
  | stringLiteral _ | element .. => False
  | _ => True

theorem inLine_of_isMade {form : Form} (h : form.isMade = true) : form.InLine := by
  cases form <;> trivial

/-- The names, the strings and the indices of the second form are those of the first, or the index is
one of some nodes. -/
structure Echoes (L : List NodeId) (form form' : Form) : Prop where
  name : ∀ name, form' = .identifier name → form = .identifier name
  string : ∀ value, form' = .stringLiteral value → form = .stringLiteral value
  index : ∀ object index isOptional, form' = .element object index isOptional →
    (∃ object', form = .element object' index isOptional) ∨ ∃ n ∈ L, index = some n

variable {L : List NodeId} {n : NodeId}

theorem Echoes.refl (form : Form) : form.Echoes L form :=
  ⟨fun _ h => h, fun _ h => h, fun object _ _ h => .inl ⟨object, h⟩⟩

theorem Echoes.exchange (form : Form) (old : Slot) (hn : n ∈ L) :
    form.Echoes L (form.mapSlots fun slot => if slot = old then some n else slot) := by
  cases form with
  | identifier | stringLiteral => exact .refl _
  | element object index isOptional =>
    refine ⟨fun _ h => (by cases h), fun _ h => (by cases h), ?_⟩
    rintro _ _ _ ⟨⟩
    by_cases hindex : index = old
    · exact .inr ⟨n, hn, if_pos hindex⟩
    · exact .inl ⟨object, congrArg (element object · isOptional) (if_neg hindex).symm⟩
  | _ => exact ⟨fun _ h => (by cases h), fun _ h => (by cases h), fun _ _ _ h => (by cases h)⟩

theorem Echoes.withStatements (form : Form) (statements : List Slot) :
    form.Echoes L (form.withStatements statements) := by
  cases form with
  | program | block | caseClause =>
    exact ⟨fun _ h => (by cases h), fun _ h => (by cases h), fun _ _ _ h => (by cases h)⟩
  | _ => exact .refl _

end Form

namespace Store

variable {c : Prop} {K L : List NodeId}

/-- No string by which a member is accessed goes over the end of a line. -/
def MembersInLine (s : Store) : Prop := ∀ n, ∀ text ∈ s.indexText? n, OneLine text.toList

theorem membersInLine_iff : s.MembersInLine ↔
    ∀ n < s.size, ∀ text ∈ s.indexText? (some n), OneLine text.toList := by
  refine ⟨fun h n _ => h (some n), fun h n text htext => ?_⟩
  obtain ⟨_, _, _, hform, -⟩ := indexText?_eq_some.1 htext
  obtain ⟨i, rfl, hi⟩ := exists_of_form? hform
  exact h i (lt_size_of_form? hi) text htext

instance : Decidable s.MembersInLine := decidable_of_iff _ membersInLine_iff.symm

/-- Names are on one line, and so are the strings by which members are accessed, if this is asked for.
None of the nodes is a string, so none becomes one by which a member is accessed. -/
structure NamesInLine (c : Prop) (L : List NodeId) (s : Store) : Prop where
  names : ∀ n name, s.form? n = some (.identifier name) → OneLine name.toList
  range : ∀ n object i isOptional, s.form? n = some (.element object (some i) isOptional) → i < s.size
  fresh : ∀ n ∈ L, n < s.size ∧ ∀ value, s.form? (some n) ≠ some (.stringLiteral value)
  members : c → s.MembersInLine

namespace NamesInLine

theorem edit (h : s.NamesInLine c L) (hsize : s'.size = s.size) (hK : K ⊆ L)
    (hforms : ∀ n form', s'.form? n = some form' →
      ∃ form, s.form? n = some form ∧ form.Echoes L form') : s'.NamesInLine c K where
  names n name hname := by
    obtain ⟨form, hform, e⟩ := hforms n _ hname
    exact h.names n name (e.name name rfl ▸ hform)
  range n object i isOptional hn := by
    rw [hsize]
    obtain ⟨form, hform, e⟩ := hforms n _ hn
    rcases e.index _ _ _ rfl with ⟨object', rfl⟩ | ⟨m, hm, hi⟩
    · exact h.range n object' i isOptional hform
    · exact Option.some.inj hi ▸ (h.fresh m hm).1
  fresh n hn := by
    obtain ⟨hlt, hstring⟩ := h.fresh n (hK hn)
    refine ⟨hsize ▸ hlt, fun value hvalue => ?_⟩
    obtain ⟨form, hform, e⟩ := hforms _ _ hvalue
    exact hstring value (e.string value rfl ▸ hform)
  members hc n text htext := by
    obtain ⟨object, index, isOptional, hn, hvalue⟩ := indexText?_eq_some.1 htext
    obtain ⟨form, hform, e⟩ := hforms n _ hn
    obtain ⟨_, hstring, e'⟩ := hforms index _ hvalue
    obtain rfl := e'.string text rfl
    rcases e.index _ _ _ rfl with ⟨object', rfl⟩ | ⟨m, hm, rfl⟩
    · exact h.members hc n text (indexText?_eq_some.2 ⟨object', index, isOptional, hform, hstring⟩)
    · exact absurd hstring ((h.fresh m hm).2 text)

theorem of_same (h : s.NamesInLine c L) (hs : SameTree s s') : s'.NamesInLine c L :=
  h.edit hs.size (List.Subset.refl L) fun n form hform => ⟨form, hs.form n ▸ hform, .refl form⟩

/-- A node is made that is no access. -/
theorem make (h : s.NamesInLine c L) {form : Form}
    (hname : ∀ name, form = .identifier name → OneLine name.toList)
    (helement : ∀ object index isOptional, form ≠ .element object index isOptional)
    (hK : ∀ n ∈ K, n ∈ L ∨ n = s.size ∧ ∀ value, form ≠ .stringLiteral value) :
    (s.synthesize form).2.NamesInLine c K := by
  have hold : ∀ n form', (s.synthesize form).2.form? n = some form' →
      s.form? n = some form' ∨ form' = form := by
    intro n form' hn
    obtain ⟨i, rfl, hi⟩ := exists_of_form? hn
    exact (form?_of_synthesize hi).imp_right And.right
  have hkept : ∀ n object index isOptional,
      (s.synthesize form).2.form? n = some (.element object index isOptional) →
        s.form? n = some (.element object index isOptional) := by
    intro n object index isOptional hn
    exact (hold n _ hn).resolve_right (helement object index isOptional).symm
  refine ⟨fun n name hn => ?_, fun n object i isOptional hn => ?_, fun n hn => ?_,
    fun hc n text htext => ?_⟩
  · rcases hold n _ hn with hn | e
    · exact h.names n name hn
    · exact hname name e.symm
  · rw [size_synthesize]
    exact Nat.lt_succ_of_lt (h.range n object i isOptional (hkept n _ _ _ hn))
  · rw [size_synthesize]
    rcases hK n hn with hn | ⟨rfl, hstring⟩
    · obtain ⟨hlt, hstring⟩ := h.fresh n hn
      rw [form?_synthesize_of_lt form hlt]
      exact ⟨Nat.lt_succ_of_lt hlt, hstring⟩
    · rw [form?_synthesize]
      exact ⟨Nat.lt_succ_self _, fun value e => hstring value (Option.some.inj e)⟩
  · obtain ⟨object, index, isOptional, hn, hvalue⟩ := indexText?_eq_some.1 htext
    obtain ⟨i, rfl, hi⟩ := exists_of_form? hvalue
    have hn := hkept n _ _ _ hn
    rw [form?_synthesize_of_lt form (h.range n object i isOptional hn)] at hi
    exact h.members hc n text (indexText?_eq_some.2 ⟨object, some i, isOptional, hn, hi⟩)

theorem oneLine (h : s.NamesInLine c L) (hc : c) {name : String} (hname : s.Spells name) :
    OneLine name.toList := by
  cases hname with
  | bare hbare =>
    rw [Rule.isBareKey, Bool.and_eq_true, Bool.and_eq_true] at hbare
    exact oneLine_of_isIdentifierName hbare.1.1
  | word hword =>
    unfold identifierName? at hword
    split at hword
    · rename_i hform
      cases hword
      exact h.names _ name hform
    · cases hword
  | index hindex => exact h.members hc _ name hindex

end NamesInLine

theorem upkeep_namesInLine (c : Prop) : Upkeep Form.InLine fun L s => s.NamesInLine c L where
  plain hform := Form.inLine_of_isMade hform
  drop hK h := ⟨h.names, h.range, fun n hn => h.fresh n (hK.subset hn), h.members⟩
  synthesize {L s form} hform h := by
    refine h.make (fun name e => ?_) (fun _ _ _ e => ?_) fun n hn => ?_
    · rw [e] at hform
      exact hform
    · rw [e] at hform
      exact hform
    · refine (List.mem_cons.1 hn).symm.imp_right fun hn => ⟨hn, fun value e => ?_⟩
      rw [e] at hform
      exact hform
  apart value h := h.make (fun _ e => by cases e) (fun _ _ _ e => by cases e) fun _ hn => .inl hn
  setAttached _ _ h := h.of_same (sameTree_setAttached ..)
  markModified n h := h.of_same (sameTree_markModified ..)
  redeclare {L s n list kind} _ hlist h := by
    refine NamesInLine.of_same ?_ (sameTree_markModified ..)
    refine h.edit (size_modify ..) (List.Subset.refl L) fun m form' hform' => ?_
    rw [form?_modify] at hform'
    split at hform'
    · rename_i hm
      obtain ⟨x, hx, -⟩ := get?_of_form? hlist
      rw [← hm, hx] at hform'
      cases hform'
      refine ⟨.declarationList list, hm ▸ hlist, ?_⟩
      exact ⟨fun _ e => (by cases e), fun _ e => (by cases e), fun _ _ _ e => (by cases e)⟩
    · exact ⟨form', hform', .refl _⟩
  replace? {L s s' old new} h hs := by
    refine h.edit (size_replace? hs) (List.subset_cons_self new L) fun m form' hform' => ?_
    rcases form?_replace? hs m with heq | heq <;> rw [heq] at hform'
    · exact ⟨form', hform', .refl _⟩
    · obtain ⟨form, hform, rfl⟩ := Option.map_eq_some_iff.1 hform'
      exact ⟨form, hform, .exchange form old List.mem_cons_self⟩
  applyReplacement {L s s' r} _ h hs := by
    refine h.edit (applyReplacement_attached hs).2 (List.Subset.refl L) fun m form' hform' => ?_
    rcases form?_applyReplacement hs m with heq | ⟨statements, heq⟩ <;> rw [heq] at hform'
    · exact ⟨form', hform', .refl _⟩
    · obtain ⟨form, hform, rfl⟩ := Option.map_eq_some_iff.1 hform'
      exact ⟨form, hform, .withStatements form statements⟩

end Store

theorem namesInLine_of_parse {p : Program} {c : Prop} (h : parse source = .ok p)
    (hmembers : c → p.store.MembersInLine) : p.store.NamesInLine c [] := by
  have hplaced := (placed_of_parse h).1
  refine ⟨fun n name hn => ?_, fun n object i isOptional hn => ?_, fun _ hn => (by cases hn), hmembers⟩
  · obtain ⟨j, rfl, -⟩ := exists_of_form? hn
    obtain ⟨x, hx, hform⟩ := get?_of_form? hn
    have hworded := (hplaced j x hx).worded
    rw [hform] at hworded
    exact oneLine_of_isIdentifierPart hworded
  · obtain ⟨j, rfl, -⟩ := exists_of_form? hn
    obtain ⟨x, hx, hform⟩ := get?_of_form? hn
    have hi : i ∈ x.form.children := by
      rw [hform]
      exact mem_present.2 (List.mem_cons_of_mem _ List.mem_cons_self)
    obtain ⟨y, hy, -⟩ := (hplaced j x hx).span.chain.exists_of_mem hi
    exact lt_size_of_get? hy

/-- However the passes go, names are on one line. Classes alone take names from strings, and then those
by which members are accessed are to be on one line. -/
theorem Rule.namesInLine_runOn (rules : List RuleName) {p : Program} (h : parse source = .ok p)
    (hmembers : .classes ∈ rules → p.store.MembersInLine) :
    (runOn rules source p).2.store.NamesInLine (.classes ∈ rules) [] := by
  refine keeps_passes (upkeep_namesInLine _) rules (fun r hr s n _ => ?_) source _ p.root _
    (namesInLine_of_parse h hmembers)
  refine ⟨fun _ _ _ _ _ => trivial, fun _ _ => trivial, fun _ _ => trivial, ?_⟩
  rintro rfl L s' name hs hname
  exact hs.oneLine hr hname

end Modernizer
