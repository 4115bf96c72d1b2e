import Mathlib.Data.List.Perm.Subperm
import Modernizer.Proofs.Rule.ClassScan
import Modernizer.Rule.Catalog

/-! What all rules keep. Whatever a rule decides, the store is changed by a few kinds of edits only,
and new nodes are in no place of the tree until the decision is carried out. They are of a few forms
only: methods have the code of a function that was there, arrow functions have the parameters of one,
multi-var alone makes declaration lists, and classes alone bring names (`RuleName.Allowed`). A property
of the store and these nodes that each kind of edit keeps (`Upkeep`) is kept by every turn, and by every
pass, whether it succeeds or not. -/

namespace Modernizer

open Store ClassIdiom

variable {α β : Type}

/-- Forms of the nodes that rules make, but for methods, arrow functions and declaration lists, and for
names and strings. -/
def Form.isMade : Form → Bool
  | variableStatement _ | classDeclaration _ | shorthandProperty .. | spread _ | superExpression
  | call .. | member .. | binary .. => true
  | _ => false

/-- The parameters of a function, with the range they are in. -/
def Form.parameterList? : Form → Option NodeList
  | functionDeclaration f | functionExpression f => some f.parameters
  | arrow a => some a.parameters
  | method m => some m.parameters
  | _ => none

def Store.HasParameters (s : Store) (list : NodeList) : Prop :=
  ∃ n form, s.form? (some n) = some form ∧ form.parameterList? = some list

def Adopts (A : Form → Prop) (f : FunctionForm) : Prop :=
  ∀ m : MethodForm, m.parameters = f.parameters → m.body = f.body → A (.method m)

/-- The string by which an expression accesses a member. -/
def Store.indexText? (s : Store) (n : Slot) : Option String :=
  match s.form? n with
  | some (.element _ index _) =>
    match s.form? index with
    | some (.stringLiteral value) => some value
    | _ => none
  | _ => none

theorem Store.indexText?_eq_some {s : Store} {n : Slot} {text : String} :
    s.indexText? n = some text ↔ ∃ object index isOptional,
      s.form? n = some (.element object index isOptional) ∧
        s.form? index = some (.stringLiteral text) := by
  unfold indexText?
  split
  · rename_i object index isOptional hform
    split <;> simp_all
  · rename_i hother
    simp only [reduceCtorEq, false_iff]
    rintro ⟨object, index, isOptional, hform, -⟩
    exact hother _ _ _ hform

/-- A new name may be one that needs no quotes, one that is there, or a string by which a member is
accessed. -/
inductive Store.Spells (s : Store) (name : String) : Prop
  | bare (h : Rule.isBareKey name = true)
  | word {n : Slot} (h : s.identifierName? n = some name)
  | index {n : Slot} (h : s.indexText? n = some name)

/-- A rule may make the methods, arrow functions and declaration lists that it makes at the node, and
names from the stores that it comes to. -/
structure RuleName.Allowed (A : Form → Prop) (I : List NodeId → Store → Prop) (r : RuleName)
    (s : Store) (n : NodeId) : Prop where
  adopts : ∀ f, HasFunction s (some n) f → Adopts A f
  arrows : ∀ a : ArrowForm, s.HasParameters a.parameters → A (.arrow a)
  lists : r = .multiVar → ∀ list, A (.declarationList list)
  names : r = .classes → ∀ L s' name, I L s' → s'.Spells name → A (.identifier name)

theorem RuleName.Allowed.of_any (I : List NodeId → Store → Prop) (r : RuleName) (s : Store)
    (n : NodeId) : r.Allowed (fun _ => True) I s n :=
  ⟨fun _ _ _ _ _ => trivial, fun _ _ => trivial, fun _ _ => trivial, fun _ _ _ _ _ _ => trivial⟩

/-- The property, of a store and of nodes of it that were made and not put in yet, is kept by the
edits of rules, which make nodes of some forms. Some of the nodes may be given up, and strings are put
in only as parts of other new nodes. -/
structure Upkeep (A : Form → Prop) (I : List NodeId → Store → Prop) : Prop where
  plain : ∀ {form}, form.isMade = true → A form
  drop : ∀ {K L s}, K.Subperm L → I L s → I K s
  synthesize : ∀ {L s form}, A form → I L s → I (s.size :: L) (s.synthesize form).2
  apart : ∀ {L s} (value : String), I L s → I L (s.synthesize (.stringLiteral value)).2
  setAttached : ∀ {L s n} (a : Attached), (∀ i, n = some i → i ∈ L) → I L s →
    I L (s.setAttached n a)
  markModified : ∀ {L s} (n : Slot), I L s → I L (s.markModified n)
  redeclare : ∀ {L s n list} {kind : DeclarationKind}, kind ≠ .varKind →
    s.form? (some n) = some (.declarationList list) → I L s →
      I L ((s.modify (some n) ({ · with form := .declarationList { list with kind } })).markModified
        (some n))
  replace? : ∀ {L s s' old new}, I (new :: L) s → s.replace? old (some new) = some s' → I L s'
  applyReplacement : ∀ {L s s' r}, present r.replacements ⊆ L → I L s →
    s.applyReplacement r = .ok s' → I L s'

/-- With some of the nodes that were made before, a computation leaves some to be put in. -/
def Makes (I : List NodeId → Store → Prop) (before : List NodeId) (m : StateM Store α)
    (made : α → List NodeId) : Prop :=
  ∀ L s, I (before ++ L) s → I (made (m s).1 ++ L) (m s).2

variable {A : Form → Prop} {I : List NodeId → Store → Prop}

namespace Makes
variable {before : List NodeId} {m : StateM Store α} {made : α → List NodeId}
  {made' : β → List NodeId}

theorem pure (a : α) (ha : made a = before) : Makes I before (Pure.pure a) made := by
  intro L s hs
  rw [← ha] at hs
  exact hs

theorem bind {f : α → StateM Store β} (hm : Makes I before m made)
    (hf : ∀ a, Makes I (made a) (f a) made') : Makes I before (m >>= f) made' :=
  fun L s hs => hf _ L _ (hm L s hs)

theorem get {f : Store → StateM Store β}
    (hf : ∀ L s, I (before ++ L) s → Makes I before (f s) made') :
    Makes I before (get >>= f) made' :=
  fun L s hs => hf L s hs L s hs

theorem map (f : α → β) (hm : Makes I before m fun a => made' (f a)) :
    Makes I before (f <$> m) made' :=
  fun L s hs => hm L s hs

theorem modify {f : Store → Store} (hf : ∀ L s, I (before ++ L) s → I (before ++ L) (f s)) :
    Makes I before (modify f) fun _ => before :=
  hf

theorem frame (hm : Makes I before m made) (K : List NodeId) :
    Makes I (before ++ K) m fun a => made a ++ K := by
  intro L s hs
  rw [List.append_assoc] at hs ⊢
  exact hm (K ++ L) s hs

section
variable (h : Upkeep A I)

include h

theorem given {K : List NodeId} (hm : Makes I before m made) (hK : before.Subperm K) :
    Makes I K m made :=
  fun L s hs => hm L s (h.drop ((List.subperm_append_right L).2 hK) hs)

theorem leave {made₁ : α → List NodeId} (hm : Makes I before m made)
    (hmade : ∀ a, (made₁ a).Subperm (made a)) : Makes I before m made₁ :=
  fun L s hs => h.drop ((List.subperm_append_right L).2 (hmade _)) (hm L s hs)

theorem andThen {f : α → StateM Store β} (hm : Makes I before m made)
    (hf : ∀ a, Makes I [] (f a) made') : Makes I before (m >>= f) made' :=
  hm.bind fun a => (hf a).given h List.nil_subperm

theorem cons (b : β) (bs : List β) :
    Makes I (bs.flatMap made' ++ made' b) (Pure.pure (b :: bs)) fun bs => bs.flatMap made' := by
  have hperm : (made' b ++ bs.flatMap made').Perm (bs.flatMap made' ++ made' b) :=
    List.perm_append_comm
  intro L s hs
  exact h.drop (hperm.append_right L).subperm hs

theorem mapM {f : α → StateM Store β} {as : List α} (hf : ∀ a ∈ as, Makes I [] (f a) made') :
    Makes I [] (as.mapM f) fun bs => bs.flatMap made' := by
  induction as with
  | nil => exact fun _ _ hs => hs
  | cons a as ih =>
    have hrest := ih fun a' ha' => hf a' (List.mem_cons_of_mem a ha')
    rw [List.mapM_cons]
    apply (hf a List.mem_cons_self).bind
    intro b
    exact (hrest.frame (made' b)).bind fun bs => cons h b bs

theorem filterMapM {f : α → StateM Store (Option β)}
    (hf : ∀ a, Makes I [] (f a) fun b => b.elim [] made') (as : List α) :
    Makes I [] (as.filterMapM f) fun bs => bs.flatMap made' := by
  induction as with
  | nil => exact fun _ _ hs => hs
  | cons a as ih =>
    rw [List.filterMapM_cons]
    apply (hf a).bind
    intro b
    cases b with
    | none => exact ih
    | some b => exact (ih.frame (made' b)).bind fun bs => cons h b bs

theorem forM {f : α → StateM Store PUnit} {as : List α}
    (hf : ∀ a ∈ as, Makes I [] (f a) fun _ => []) : Makes I [] (as.forM f) fun _ => [] := by
  induction as with
  | nil => exact fun _ _ hs => hs
  | cons a as ih =>
    have hrest := ih fun a' ha' => hf a' (List.mem_cons_of_mem a ha')
    exact (hf a List.mem_cons_self).andThen h fun _ => hrest

end

end Makes

theorem PassM.run_get_bind (f : PassState → PassM β) (p : PassState) :
    (get >>= f).run.run p = (f p).run.run p := rfl

/-- A step of a pass keeps a property of the store, whether it succeeds or not. -/
def PassM.Keeps (I : Store → Prop) (m : PassM α) : Prop :=
  ∀ p, I p.store → I (m.run.run p).2.store

namespace PassM.Keeps
variable {I : Store → Prop}

theorem pure (a : α) : PassM.Keeps I (Pure.pure a) := fun _ h => h

theorem bind {m : PassM α} {f : α → PassM β} (hm : PassM.Keeps I m)
    (hf : ∀ a, PassM.Keeps I (f a)) : PassM.Keeps I (m >>= f) := by
  intro p h
  have hp := hm p h
  rw [ExceptT.run_bind, StateT.run_bind]
  rcases hr : m.run.run p with ⟨result, p'⟩
  rw [hr] at hp
  cases result with
  | error e => exact hp
  | ok a => exact hf a p' hp

theorem get {f : PassState → PassM β}
    (hf : ∀ p, I p.store → I ((f p).run.run p).2.store) : PassM.Keeps I (get >>= f) := hf

theorem forM {f : α → PassM PUnit} {as : List α} (hf : ∀ a ∈ as, PassM.Keeps I (f a)) :
    PassM.Keeps I (as.forM f) := by
  induction as with
  | nil => exact .pure _
  | cons a as ih =>
    have hrest := ih fun b hb => hf b (List.mem_cons_of_mem a hb)
    exact (hf a List.mem_cons_self).bind fun _ => hrest

theorem walk {step : NodeId → PassM Unit} (h : ∀ n, PassM.Keeps I (step n)) (fuel : Nat)
    (n : NodeId) : PassM.Keeps I (walk step fuel n) := by
  induction fuel generalizing n with
  | zero => exact .pure _
  | succ fuel ih =>
    refine .get fun p hp => ?_
    exact bind (forM fun c _ => ih c) (fun _ => h n) p hp

end PassM.Keeps

/-- The nodes that an edit puts in. -/
def Edit.made : Edit → List NodeId
  | .replace new => [new]
  | .replaceStatements rs => rs.flatMap fun r => present r.replacements
  | .keep | .inPlace => []

/-- The store in which an edit is carried out; one in place is marked. -/
def Edit.marked (n : NodeId) : Edit → Store → Store
  | .inPlace, s => s.markModified (some n)
  | _, s => s

/-- What is decided for a node is ready to be carried out. -/
def Ready (I : List NodeId → Store → Prop) (n : NodeId) (decision : StateM Store Decision)
    (s : Store) : Prop :=
  I (decision s).1.edit.made ((decision s).1.edit.marked n (decision s).2)

theorem Ready.get {n : NodeId} {f : Store → StateM Store Decision} {s : Store}
    (h : Ready I n (f s) s) : Ready I n (get >>= f) s := h

section
variable (h : Upkeep A I) {n : NodeId}

include h

theorem Makes.ready {decision : StateM Store Decision} {s : Store}
    (hm : Makes I [] decision fun d => d.edit.made) (hs : I [] s) : Ready I n decision s := by
  have hmarked : ∀ (edit : Edit) (s : Store), I edit.made s → I edit.made (edit.marked n s) := by
    intro edit s hs
    cases edit with
    | inPlace => exact h.markModified (some n) hs
    | keep | replace | replaceStatements => exact hs
  have hmade : I ((decision s).1.edit.made ++ []) (decision s).2 := hm [] s hs
  rw [List.append_nil] at hmade
  exact hmarked _ _ hmade

theorem ready_keep {d : Decision} (hd : d.edit = .keep) {s : Store} (hs : I [] s) :
    Ready I n (pure d) s := by
  have hmade : d.edit.made = [] := congrArg Edit.made hd
  exact (Makes.pure d hmade).ready h hs

namespace PassM

theorem keeps_applyReplacement {r : Replacement} {cs : List NodeId}
    (hsub : present r.replacements ⊆ cs) : PassM.Keeps (I cs) (do
      match (← get).store.applyReplacement r with
      | .ok store => setStore store
      | .error e => throw e) := by
  apply Keeps.get
  intro p hp
  cases hresult : p.store.applyReplacement r with
  | ok s' => exact h.applyReplacement hsub hp hresult
  | error e => exact hp

theorem keeps_apply (edit : Edit) {p : PassState} (hp : I edit.made (edit.marked n p.store)) :
    I [] ((apply n edit).run.run p).2.store := by
  cases edit with
  | keep => exact hp
  | inPlace => exact hp
  | replace new =>
    rw [apply, run_get_bind]
    dsimp only
    cases hresult : p.store.replace? (some n) (some new) with
    | some s' => exact h.replace? hp hresult
    | none => exact h.drop List.nil_subperm hp
  | replaceStatements rs =>
    have hstep : ∀ r ∈ rs, present r.replacements ⊆ Edit.made (.replaceStatements rs) :=
      fun r hr c hc => List.mem_flatMap.2 ⟨r, hr, hc⟩
    exact h.drop List.nil_subperm
      (Keeps.forM (fun r hr => keeps_applyReplacement h (hstep r hr)) p hp)

theorem keeps_decide {visit : NodeId → StateM Store Decision}
    (hvisit : ∀ n s, I [] s → Ready I n (visit n) s) (name : RuleName) (lines : LineMap) (n : NodeId) :
    PassM.Keeps (I []) (decide name lines visit n) :=
  .get fun p hp => keeps_apply h (visit n p.store).1.edit (hvisit n p.store hp)

end PassM

namespace Rule

theorem keeps_pass (rule : Rule) (hvisit : ∀ analysis n s, I [] s → Ready I n (rule.visit analysis n) s)
    (source : Text) (lines : LineMap) (root : NodeId) :
    PassM.Keeps (I []) (rule.pass source lines root) :=
  .get fun p hp => PassM.Keeps.walk (PassM.keeps_decide h (hvisit _) rule.name lines) _ root p hp

/-! Rules that replace the node they visit. -/

theorem makes_makeNode {form : Form} (hform : A form) : Makes I [] (makeNode form) ([·]) :=
  fun _ _ hs => h.synthesize hform hs

theorem makes_plain {form : Form} (hform : form.isMade = true) :
    Makes I [] (makeNode form) ([·]) :=
  makes_makeNode h (h.plain hform)

theorem makes_replaceBy {form : Form} (hform : A form) :
    Makes I [] (replaceBy form) fun d => d.edit.made :=
  (makes_makeNode h hform).map _

theorem makes_replaceByPlain {form : Form} (hform : form.isMade = true) :
    Makes I [] (replaceBy form) fun d => d.edit.made :=
  makes_replaceBy h (h.plain hform)

theorem makes_toArrow {s : Store} (f : NodeId) {form : FunctionForm}
    (ha : ∀ a : ArrowForm, a.parameters = form.parameters → A (.arrow a)) :
    Makes I [] (toArrow s f form) fun d => d.edit.made := by
  unfold toArrow
  split
  · exact .pure _ rfl
  · exact makes_replaceBy h (ha _ rfl)

theorem ready_visitFunction (n : NodeId) {s : Store} (hs : I [] s)
    (ha : ∀ a : ArrowForm, s.HasParameters a.parameters → A (.arrow a)) :
    Ready I n (visitFunction n) s := by
  have harrow : ∀ (i : NodeId) (f : FunctionForm), s.form? (some i) = some (.functionExpression f) →
      Ready I n (toArrow s i f) s := by
    intro i f hf
    refine (makes_toArrow h i fun a e => ha a ?_).ready h hs
    exact ⟨i, _, hf, congrArg some e.symm⟩
  apply Ready.get
  repeat' split
  all_goals first | exact ready_keep h rfl hs | exact harrow _ _ ‹_›

theorem ready_visitArrow (n : NodeId) {s : Store} (hs : I [] s)
    (ha : ∀ a : ArrowForm, s.HasParameters a.parameters → A (.arrow a)) :
    Ready I n (visitArrow n) s := by
  apply Ready.get
  split
  · rename_i a hform
    split
    · rename_i e _
      exact (makes_replaceBy h (ha { a with body := some e } ⟨n, _, hform, rfl⟩)).ready h hs
    · exact ready_keep h rfl hs
  · exact ready_keep h rfl hs

theorem ready_visitFunctionMember (n : NodeId) {s : Store} (hs : I [] s)
    (ha : ∀ f, HasFunction s (some n) f → Adopts A f) : Ready I n (visitFunctionMember n) s := by
  apply Ready.get
  split
  · rename_i hproperty _
    split
    · rename_i f hf
      have hvalue := (HasFunction.of_plainFunction? hf).of_skipParentheses
      have hf := hvalue.up hproperty (List.mem_cons_of_mem _ List.mem_cons_self)
      exact (makes_replaceBy h (ha f hf _ rfl rfl)).ready h hs
    · exact ready_keep h rfl hs
  · exact ready_keep h rfl hs

theorem makes_visitProperty (n : NodeId) :
    Makes I [] (visitProperty n) fun d => d.edit.made := by
  apply Makes.get
  intro _ s _
  repeat' split
  all_goals first | exact .pure _ rfl | exact makes_replaceByPlain h rfl

theorem makes_visitPower (n : NodeId) : Makes I [] (visitPower n) fun d => d.edit.made := by
  apply Makes.get
  intro _ s _
  repeat' split
  all_goals first | exact .pure _ rfl | exact makes_replaceByPlain h rfl

theorem makes_visitApply (n : NodeId) : Makes I [] (visitApply n) fun d => d.edit.made := by
  apply Makes.get
  intro _ s _
  repeat' split
  all_goals first
    | exact .pure _ rfl
    | exact (makes_plain h rfl).andThen h fun _ => makes_replaceByPlain h rfl

/-! Rules that change statements, and declaration lists. -/

omit h in
theorem makes_visitDirectives (source : Text) (n : NodeId) :
    Makes I [] (visitDirectives source n) fun d => d.edit.made := by
  have hnothing : ∀ found : List Slot,
      (Edit.replaceStatements (found.map fun d => .of (some n) d [] [])).made = [] := by
    intro found
    simp [Edit.made, Replacement.of]
  apply Makes.get
  intro _ s _
  repeat' split
  all_goals first | exact .pure _ rfl | exact .pure _ (hnothing _)

theorem ready_visitDeclarations (verdicts : List (NodeId × Scope.Verdict)) (n : NodeId) {s : Store}
    (hs : I [] s) : Ready I n (visitDeclarations verdicts n) s := by
  have hconvert : ∀ (list : DeclarationList) (kind : DeclarationKind), kind ≠ .varKind →
      s.form? (some n) = some (.declarationList list) → Ready I n (do
        set (s.modify (some n) ({ · with form := .declarationList { list with kind } }))
        return ⟨.inPlace, []⟩) s :=
    fun list kind hkind hform => h.redeclare hkind hform hs
  apply Ready.get
  repeat' split
  all_goals first | exact ready_keep h rfl hs | exact hconvert _ _ (by decide) ‹_›

omit h in
theorem flatMap_present (slots : List Slot) :
    slots.flatMap (fun c => present [c]) = present slots := by
  induction slots with
  | nil => rfl
  | cons c slots ih => rw [List.flatMap_cons, ih, present_cons c slots]

theorem setAttached_shareComments {L : List NodeId} {s : Store} (hs : I L s) (statement : Slot)
    {parts : List Slot} (hparts : present parts ⊆ L) : I L (shareComments s statement parts) := by
  unfold shareComments
  split
  · rename_i first last hfirst hlast
    have hmem : ∀ part ∈ parts, ∀ i, part = some i → i ∈ L := by
      rintro _ hpart i rfl
      exact hparts (mem_present.2 hpart)
    have hfirst' : I L (s.attachLeading first (s.attachedTo statement).leading) :=
      h.setAttached _ (hmem first (List.mem_of_head? hfirst)) hs
    dsimp only
    split
    · exact hfirst'
    · exact h.setAttached _ (hmem last (List.mem_of_getLast? hlast)) hfirst'
  · exact hs

theorem makes_splitStatement (hlists : ∀ list, A (.declarationList list)) (statement : Slot) :
    Makes I [] (splitStatement statement) fun parts => parts.elim [] present := by
  apply Makes.get
  intro _ s _
  split
  · exact .pure _ rfl
  · rename_i kind declarations _
    have hpart : ∀ d ∈ declarations,
        Makes I [] (some <$> makeDeclaration kind d) fun c => present [c] := by
      intro d _
      exact ((makes_makeNode h (hlists _)).andThen h fun list => makes_plain h rfl).map some
    apply (Makes.mapM h hpart).bind
    intro parts
    have hshare : Makes I (parts.flatMap fun c => present [c])
        (modify (shareComments · statement parts)) fun _ => parts.flatMap fun c => present [c] :=
      .modify fun L s hs => setAttached_shareComments h hs statement <| by
        rw [flatMap_present]
        exact List.subset_append_left ..
    apply hshare.bind
    intro _
    exact .pure _ (flatMap_present parts).symm

theorem makes_visitStatements (hlists : ∀ list, A (.declarationList list)) (n : NodeId) :
    Makes I [] (visitStatements n) fun d => d.edit.made := by
  apply Makes.get
  intro _ s _
  split
  · exact .pure _ rfl
  · have hsplit : ∀ statement, Makes I [] (do
        return (← splitStatement statement).map (Replacement.of (some n) statement []))
        fun r => r.elim [] fun r => present r.replacements := by
      intro statement
      apply (makes_splitStatement h hlists statement).bind
      intro parts
      apply Makes.pure
      cases parts <;> rfl
    apply (Makes.filterMapM h hsplit _).bind
    intro replacements
    split
    · exact (Makes.pure _ rfl).given h List.nil_subperm
    · exact .pure _ rfl

end Rule

namespace ClassIdiom

open Rule

theorem makes_replaceCall (call : Slot) (callee : NodeId) (f : Forwarded) :
    Makes I [] (replaceCall call callee f) fun _ => [] := by
  have hput : ∀ arguments, Makes I [] (do
      let new ← makeNode (.call (some callee) (.ofNodes arguments) false)
      modify fun s => (s.replace? call (some new)).getD s) fun _ => [] := by
    intro arguments
    apply (makes_plain h rfl).bind
    intro new L s hs
    change I L ((s.replace? call (some new)).getD s)
    cases hresult : s.replace? call (some new) with
    | none => exact h.drop (List.sublist_cons_self new L).subperm hs
    | some s' => exact h.replace? hs hresult
  cases f with
  | listed arguments => exact hput arguments
  | incoming arguments => exact (makes_plain h rfl).andThen h fun spread => hput [some spread]

theorem makes_convertConstructorCalls (base : BaseClass) (body : Slot) :
    Makes I [] (convertConstructorCalls base body) fun _ => [] := by
  apply Makes.get
  intro _ s _
  apply Makes.forM h
  rintro ⟨call, f⟩ -
  exact (makes_plain h rfl).andThen h fun callee => makes_replaceCall h call callee f

omit h in
theorem spells_of_memberPath? {s : Store} {v : Slot} {path : List String}
    (hpath : s.memberPath? v = some path) : ∀ name ∈ path, s.Spells name := by
  suffices ∀ fuel v path, memberPath?.go s fuel v = some path → ∀ name ∈ path, s.Spells name from
    this _ v path hpath
  intro fuel
  induction fuel with
  | zero => intro _ _ hnone; cases hnone
  | succ fuel ih =>
    intro v path hgo name hname
    rw [memberPath?.go] at hgo
    split at hgo
    · rename_i word hform
      cases hgo
      rw [List.mem_singleton.1 hname]
      exact .word (n := v) (by rw [identifierName?, hform])
    · obtain ⟨front, hfront, hgo⟩ := Option.bind_eq_some_iff.1 hgo
      obtain ⟨last, hlast, hgo⟩ := Option.bind_eq_some_iff.1 hgo
      cases hgo
      rcases List.mem_append.1 hname with hname | hname
      · exact ih _ front hfront name hname
      · exact List.mem_singleton.1 hname ▸ .word hlast
    · rename_i hform
      obtain ⟨front, hfront, hgo⟩ := Option.bind_eq_some_iff.1 hgo
      split at hgo
      · rename_i value hvalue
        cases hgo
        rcases List.mem_append.1 hname with hname | hname
        · exact ih _ front hfront name hname
        · rw [List.mem_singleton.1 hname]
          exact .index (indexText?_eq_some.2 ⟨_, _, _, hform, hvalue⟩)
      · cases hgo
    · cases hgo

omit h in
theorem spells_of_methodCall? {s : Store} {base : BaseClass} {call : Slot} {name : String}
    {f : Forwarded} (hcall : methodCall? s base call = some (name, f)) : s.Spells name := by
  unfold methodCall? at hcall
  split at hcall
  · split at hcall
    · simp only [Option.bind_eq_bind, Option.bind_eq_some_iff] at hcall
      obtain ⟨path, hpath, last, hlast, hcall⟩ := hcall
      have hlast := spells_of_memberPath? hpath last (List.mem_of_getLast? hlast)
      split at hcall
      · obtain ⟨_, -, hcall⟩ := Option.map_eq_some_iff.1 hcall
        cases hcall
        exact hlast
      · cases hcall
    · cases hcall
  · cases hcall

theorem makes_convertMethodCalls
    (hnames : ∀ L s name, I L s → s.Spells name → A (.identifier name)) (base : BaseClass)
    (body : Slot) : Makes I [] (convertMethodCalls base body) fun _ => [] := by
  apply Makes.get
  intro L s hs
  apply Makes.forM h
  rintro ⟨call, name, f⟩ hmem
  have hname : A (.identifier name) := by
    obtain ⟨n, -, hcall⟩ := List.mem_filterMap.1 hmem
    obtain ⟨_, hcall, heq⟩ := Option.map_eq_some_iff.1 hcall
    cases heq
    exact hnames _ s name hs (spells_of_methodCall? hcall)
  apply (makes_plain h rfl).andThen h
  intro receiver
  apply (makes_makeNode h hname).andThen h
  intro name
  exact (makes_plain h rfl).andThen h fun callee => makes_replaceCall h _ callee f

end ClassIdiom

namespace Rule

open ClassIdiom

theorem makes_attachLeading (n : NodeId) (comments : List Nat) :
    Makes I [n] (modify (·.attachLeading (some n) comments)) fun _ => [n] := by
  refine .modify fun L s hs => h.setAttached _ ?_ hs
  rintro _ ⟨⟩
  exact List.mem_cons_self

theorem makes_makeKey (hnames : ∀ L s name, I L s → s.Spells name → A (.identifier name))
    (name : String) : Makes I [] (makeKey name) fun _ => [] := by
  intro L s hs
  unfold makeKey
  split
  · rename_i hbare
    have hname := hnames _ s name hs (.bare hbare)
    exact h.drop (List.sublist_cons_self s.size L).subperm (h.synthesize hname hs)
  · exact h.apart name hs

theorem makes_makeConstructor
    (hnames : ∀ L s name, I L s → s.Spells name → A (.identifier name)) (c : Candidate)
    (hc : Adopts A c.function) : Makes I [] (makeConstructor c) fun _ => [] := by
  have hmake : ∀ m : MethodForm, m.parameters = c.function.parameters →
      m.body = c.function.body → Makes I [] (makeNode (.method m)) fun _ => [] := by
    intro m hparameters hbody
    exact (makes_makeNode h (hc m hparameters hbody)).leave h fun _ => List.nil_subperm
  unfold makeConstructor
  split
  · apply (makes_convertConstructorCalls h _ _).andThen h
    intro _
    exact (makes_convertMethodCalls h hnames _ _).andThen h fun _ => hmake _ rfl rfl
  · exact hmake _ rfl rfl

theorem makes_makeMember (hnames : ∀ L s name, I L s → s.Spells name → A (.identifier name))
    (base : Option BaseClass) (m : Member) (placed : List Nat) (hm : Adopts A m.function) :
    Makes I [] (makeMember base m placed) fun _ => [] := by
  have hmake : Makes I [] (do
      let key ← makeKey m.name
      let f := m.function
      let n ← makeNode (.method ⟨m.kind, m.isStatic, some key, f.parameters, f.body, f.isAsync,
        f.isGenerator⟩)
      let comments := commentsLeft (← get) m.commentSources placed
      modify (·.attachLeading (some n) comments)
      return (n, placed ++ comments)) fun _ => [] := by
    apply (makes_makeKey h hnames m.name).andThen h
    intro key
    apply (makes_makeNode h (hm _ rfl rfl)).bind
    intro n
    apply Makes.get
    intro _ s _
    have hattach := makes_attachLeading h n (commentsLeft s m.commentSources placed)
    exact hattach.bind fun _ => (Makes.pure _ rfl).given h List.nil_subperm
  unfold makeMember
  repeat' split
  · exact (makes_convertMethodCalls h hnames _ _).andThen h fun _ => hmake
  all_goals exact hmake

theorem makes_makeMembers (hnames : ∀ L s name, I L s → s.Spells name → A (.identifier name))
    (base : Option BaseClass) {members : List Member}
    (hmembers : ∀ m ∈ members, Adopts A m.function) (placed : List Nat) :
    Makes I [] (makeMembers base members placed) fun _ => [] := by
  induction members generalizing placed with
  | nil => exact fun _ _ hs => hs
  | cons m rest ih =>
    apply (makes_makeMember h hnames base m placed (hmembers m List.mem_cons_self)).andThen h
    intro made
    have hrest := ih (fun m' hm' => hmembers m' (List.mem_cons_of_mem m hm')) made.2
    exact hrest.bind fun _ => .pure _ rfl

theorem makes_makeClass (hnames : ∀ L s name, I L s → s.Spells name → A (.identifier name))
    (c : Candidate) (hname : A (.identifier c.name)) (hfunction : Adopts A c.function)
    (hmembers : ∀ m ∈ c.members, Adopts A m.function) :
    Makes I [] (makeClass c) fun r => present r.replacements := by
  have hrest : ∀ comments (head : List NodeId), Makes I [] (do
      let members ← makeMembers c.base c.members comments
      let name ← makeNode (.identifier c.name)
      let n ← makeNode (.classDeclaration
        ⟨some name, c.base.bind (·.node), .ofNodes ((head ++ members).map some)⟩)
      modify (·.attachLeading (some n) comments)
      return (.of (some c.container) c.statement c.removals [some n] : Replacement))
      fun r => present r.replacements := by
    intro comments head
    apply (makes_makeMembers h hnames _ hmembers _).andThen h
    intro members
    apply (makes_makeNode h hname).andThen h
    intro name
    apply (makes_plain h rfl).bind
    intro n
    exact (makes_attachLeading h n comments).bind fun _ => .pure _ rfl
  apply Makes.get
  intro _ s _
  dsimp only
  split
  · have hhead : Makes I [] ((fun n => [n]) <$> makeConstructor c) fun _ => [] :=
      (makes_makeConstructor h hnames c hfunction).map fun n => [n]
    exact hhead.andThen h fun head => hrest _ head
  · exact hrest _ []

theorem ready_visitContainer (n : NodeId) {s : Store} (hs : I [] s)
    (hnames : ∀ L s name, I L s → s.Spells name → A (.identifier name))
    (ha : ∀ f, HasFunction s (some n) f → Adopts A f) : Ready I n (visitContainer n) s := by
  apply Ready.get
  split
  · exact ready_keep h rfl hs
  · rename_i list hlist
    obtain ⟨form, hform, hstatements⟩ := statementList?_eq_some hlist
    obtain ⟨head, hslots, -⟩ := statementList?_slots hstatements
    have hplace : ∀ st ∈ list.statements, ∀ f, HasFunction s st f → HasFunction s (some n) f :=
      fun st hst f hf => hf.up hform (hslots ▸ List.mem_append_right head hst)
    have hclass : ∀ c ∈ (scans s n list.statements).filterMap (·.candidate),
        Makes I [] (makeClass c) fun r => present r.replacements := by
      intro c hc
      have hsupplied := supplied_of_candidate hplace hc
      obtain ⟨w, hw⟩ := hsupplied.name
      exact makes_makeClass h hnames c (hnames [] s c.name hs (.word hw)) (ha _ hsupplied.function)
        fun m hm => ha _ (hsupplied.members m hm)
    dsimp only
    split
    · exact ready_keep h rfl hs
    · exact ((Makes.mapM h hclass).bind fun _ => .pure _ rfl).ready h hs

end Rule

theorem RuleName.ready (r : RuleName) (analysis : r.rule.Analysis) (n : NodeId) (s : Store)
    (ha : r.Allowed A I s n) (hs : I [] s) : Ready I n (r.rule.visit analysis n) s := by
  cases r with
  | classes => exact Rule.ready_visitContainer h n hs (ha.names rfl) ha.adopts
  | letConst => exact Rule.ready_visitDeclarations h analysis n hs
  | arrow => exact Rule.ready_visitFunction h n hs ha.arrows
  | arrowReturn => exact Rule.ready_visitArrow h n hs ha.arrows
  | objectMethod => exact Rule.ready_visitFunctionMember h n hs ha.adopts
  | objectShorthand => exact (Rule.makes_visitProperty h n).ready h hs
  | noStrict => exact (Rule.makes_visitDirectives analysis n).ready h hs
  | exponent => exact (Rule.makes_visitPower h n).ready h hs
  | multiVar => exact (Rule.makes_visitStatements h (ha.lists rfl) n).ready h hs
  | argumentSpread => exact (Rule.makes_visitApply h n).ready h hs

namespace Rule

theorem keeps_passes (rules : List RuleName)
    (ha : ∀ r ∈ rules, ∀ s n, I [] s → r.Allowed A I s n) (source : Text) (lines : LineMap)
    (root : NodeId) : PassM.Keeps (I []) (passes rules source lines root) := by
  apply PassM.Keeps.forM
  intro r hr
  refine keeps_pass h r.rule (fun analysis n s hs => ?_) source lines root
  exact r.ready h analysis n s (ha r hr s n hs) hs

end Rule

end

end Modernizer
