import Mathlib.Data.List.Perm.Subperm
import Modernizer.ClassIdiom.Part
import Modernizer.Proofs.Rule.Replacing
import Modernizer.Proofs.Tree.Pieces

/-! What the statements of the class idiom give to the class: functions and a base class, from below
the statement and apart from each other. -/

namespace Modernizer

open Store

namespace Store

variable {s : Store} {n : NodeId} {l l' : List NodeId}

theorem Pieces.subperm (h : s.Pieces n l) (hl : l'.Subperm l) : s.Pieces n l' := by
  obtain ⟨l'', hperm, hsub⟩ := hl
  refine ⟨?_, fun d hd => h.below d (hsub.subset (hperm.mem_iff.2 hd))⟩
  exact (hperm.pairwise_iff Apart.symm).1 (h.apart.sublist hsub)

end Store

namespace ClassIdiom

variable {s : Store} {root i n : NodeId} {f : FunctionForm}

/-- The parameters and the body of a function. -/
def pieces (f : FunctionForm) : List NodeId := present (f.parameters.nodes ++ [f.body])

/-- The function is one from below a node. -/
structure Lends (s : Store) (n : NodeId) (f : FunctionForm) : Prop where
  pieces : s.Pieces n (pieces f)
  block : ∀ b, f.body = some b → s.IsBlock b

theorem Lends.up (h : Lends s i f) (hi : s.Below n i) : Lends s n f := ⟨h.pieces.up hi, h.block⟩

theorem lends_of_form (t : s.TreeAt root) (hi : s.Below root i) {form : Form}
    (hf : s.form? (some i) = some form) {name : Slot}
    (hslots : form.slots = name :: f.parameters.nodes ++ [f.body])
    (hbody : form.functionBody = f.body) : Lends s i f := by
  refine ⟨?_, fun b hb => t.bodied i form hf b (hbody.trans hb)⟩
  have h := Pieces.of_form t hi hf
  rw [hslots] at h
  exact h.sublist (present_sublist (List.sublist_cons_self ..))

theorem lends_of_functionOf? (t : s.TreeAt root) (hi : s.Below root i)
    (h : functionOf? s (some i) = some f) : Lends s i f := by
  unfold functionOf? at h
  split at h
  · rename_i hf
    cases h
    exact lends_of_form t hi hf rfl rfl
  · rename_i hf
    cases h
    exact lends_of_form t hi hf rfl rfl
  · rename_i hf
    cases h
    exact lends_of_form t hi hf rfl rfl
  · cases h

theorem lends_of_plainFunction? (t : s.TreeAt root) {v : Slot}
    (h : s.plainFunction? (s.skipParentheses v) = some f) :
    ∃ i, v = some i ∧ (s.Below root i → Lends s i f) := by
  obtain ⟨j, hj, hf⟩ := form?_of_plainFunction? h
  obtain ⟨i, rfl, hij⟩ := below_of_skipParentheses hj
  exact ⟨i, rfl, fun hi => (lends_of_form t (hi.trans hij) hf rfl rfl).up hij⟩

theorem exists_of_named {found : Option (Slot × FunctionForm)} {name : String}
    (h : (found.bind fun x => (s.identifierName? x.1).bind fun name =>
      if x.2.isAsync || x.2.isGenerator then none else some (name, x.2)) = some (name, f)) :
    ∃ nm, s.identifierName? nm = some name ∧ found = some (nm, f) := by
  simp only [Option.bind_eq_some_iff] at h
  obtain ⟨⟨nm, f'⟩, rfl, name', hname, h⟩ := h
  split at h
  · cases h
  · cases h
    exact ⟨nm, hname, rfl⟩

theorem lends_of_constructor? (t : s.TreeAt root) (hi : s.Below root i) {name : String}
    (h : constructor? s (some i) = some (name, f)) : Lends s i f := by
  unfold constructor? at h
  split at h
  · rename_i hf
    obtain ⟨nm, -, hg⟩ := exists_of_named h
    cases hg
    exact lends_of_form t hi hf rfl rfl
  · rename_i list hf
    split at h
    · rename_i declaration _ _ _ hl
      split at h
      · rename_i hd
        obtain ⟨nm, -, hg⟩ := exists_of_named h
        obtain ⟨g, hg, hh⟩ := Option.map_eq_some_iff.1 hg
        cases hh
        obtain ⟨l, rfl, hl⟩ := exists_of_form? hl
        obtain ⟨d, rfl, hd⟩ := exists_of_form? hd
        obtain ⟨v, rfl, hv⟩ := lends_of_plainFunction? t hg
        have hil : s.Holds i l := holds_of_form hf List.mem_cons_self
        have hld : s.Holds l d := holds_of_form hl List.mem_cons_self
        have hdv : s.Holds d v := holds_of_form hd (List.mem_cons_of_mem _ List.mem_cons_self)
        have hiv := (hil.below.tail hld).tail hdv
        exact (hv (hi.trans hiv)).up hiv
      · cases h
    · cases h
  · cases h

theorem descriptorAccessors?_cons {property : Slot} {properties : List Slot}
    {getter setter : Option FunctionForm} {found : Option FunctionForm × Option FunctionForm}
    (h : descriptorAccessors? s (property :: properties) getter setter = some found) :
    ∃ v, ((∃ name, s.form? property = some (.property name v)) ∨
        v = property ∧ ∃ m, s.form? property = some (.method m)) ∧
      ((∃ f, accessor? s v = some f ∧
          (descriptorAccessors? s properties (some f) setter = some found ∨
            descriptorAccessors? s properties getter (some f) = some found)) ∨
        descriptorAccessors? s properties getter setter = some found) := by
  rw [descriptorAccessors?] at h
  split at h
  case' h_1 name value hf => refine ⟨value, .inl ⟨name, hf⟩, ?_⟩
  case' h_2 m hf =>
    split at h
    case' isTrue => refine ⟨property, .inr ⟨rfl, m, hf⟩, ?_⟩
    case isFalse => cases h
  case h_3 => cases h
  -- the name and the value are there, and the rest depends on the name only
  all_goals
    obtain ⟨_, ⟨⟩, h⟩ := Option.bind_eq_some_iff.1 h
    obtain ⟨key, -, h⟩ := Option.bind_eq_some_iff.1 h
    obtain ⟨form, -, h⟩ := Option.bind_eq_some_iff.1 h
    split at h
    · obtain ⟨f, hf, h⟩ := Option.bind_eq_some_iff.1 h
      exact .inl ⟨f, hf, .inl h⟩
    · obtain ⟨f, hf, h⟩ := Option.bind_eq_some_iff.1 h
      exact .inl ⟨f, hf, .inr h⟩
    · exact .inr h
    · exact .inr h
    · cases h

/-- There is a function at the slot or below it, and if it is a function expression, its body does
not use a name of its own. -/
def HasFunction (s : Store) (v : Slot) (f : FunctionForm) : Prop :=
  ∃ i j, v = some i ∧ s.Below i j ∧ functionOf? s (some j) = some f ∧
    ∀ g, s.form? (some j) = some (.functionExpression g) → s.plainFunction? (some j) = some f

namespace HasFunction

variable {st v w : Slot}

theorem up {form : Form} (h : HasFunction s w f) (hv : s.form? v = some form)
    (hw : w ∈ form.slots) : HasFunction s v f := by
  obtain ⟨i, j, rfl, hij, hf⟩ := h
  obtain ⟨n, rfl, hn⟩ := exists_of_form? hv
  exact ⟨n, j, rfl, (holds_of_form hn hw).below.trans hij, hf⟩

theorem of_skipParentheses (h : HasFunction s (s.skipParentheses v) f) : HasFunction s v f := by
  obtain ⟨i, j, hi, hij, hf⟩ := h
  obtain ⟨n, rfl, hn⟩ := below_of_skipParentheses hi
  exact ⟨n, j, rfl, hn.trans hij, hf⟩

theorem of_functionDeclaration (h : s.form? v = some (.functionDeclaration f)) :
    HasFunction s v f := by
  obtain ⟨i, rfl, hi⟩ := exists_of_form? h
  exact ⟨i, i, rfl, .refl, by rw [functionOf?, hi], by simp [hi]⟩

theorem of_method {m : MethodForm} (h : s.form? v = some (.method m))
    (hf : functionOf? s v = some f) : HasFunction s v f := by
  obtain ⟨i, rfl, hi⟩ := exists_of_form? h
  exact ⟨i, i, rfl, .refl, hf, by simp [hi]⟩

theorem of_plainFunction? (h : s.plainFunction? v = some f) : HasFunction s v f := by
  obtain ⟨i, rfl, hf⟩ := form?_of_plainFunction? h
  exact ⟨i, i, rfl, .refl, by rw [functionOf?, hf], fun _ _ => h⟩

theorem of_constructor? {name : String} (h : constructor? s st = some (name, f)) :
    HasFunction s st f := by
  unfold constructor? at h
  split at h
  · rename_i hf
    obtain ⟨nm, -, hg⟩ := exists_of_named h
    cases hg
    exact of_functionDeclaration hf
  · rename_i hst
    split at h
    · rename_i hlist
      split at h
      · rename_i hdeclaration
        obtain ⟨nm, -, hg⟩ := exists_of_named h
        obtain ⟨g, hg, hh⟩ := Option.map_eq_some_iff.1 hg
        cases hh
        have hvalue := (of_plainFunction? hg).of_skipParentheses
        have hlisted := hvalue.up hdeclaration (List.mem_cons_of_mem _ List.mem_cons_self)
        exact (hlisted.up hlist List.mem_cons_self).up hst List.mem_cons_self
      · cases h
    · cases h
  · cases h

theorem of_objectMember? {m : Member} (h : objectMember? s st v = some m) :
    HasFunction s v m.function := by
  unfold objectMember? at h
  split at h
  · rename_i hproperty
    simp only [Option.bind_eq_bind, Option.bind_eq_some_iff] at h
    obtain ⟨key, -, f, hfun, h⟩ := h
    cases h
    have hvalue := (of_plainFunction? hfun).of_skipParentheses
    exact hvalue.up hproperty (List.mem_cons_of_mem _ List.mem_cons_self)
  · rename_i hmethod
    split at h
    · cases h
    · simp only [Option.bind_eq_bind, Option.bind_eq_some_iff] at h
      obtain ⟨key, -, f, hfun, h⟩ := h
      cases h
      exact of_method hmethod hfun
  · cases h

theorem of_accessor? (h : accessor? s v = some f) : HasFunction s v f := by
  unfold accessor? at h
  split at h
  · rename_i hmethod
    exact of_method hmethod h
  · exact (of_plainFunction? h).of_skipParentheses

theorem of_descriptorAccessors? {properties : List Slot}
    {getter setter getter' setter' : Option FunctionForm}
    (hproperties : ∀ x ∈ properties, ∀ f, HasFunction s x f → HasFunction s v f)
    (hget : ∀ f ∈ getter, HasFunction s v f) (hset : ∀ f ∈ setter, HasFunction s v f)
    (h : descriptorAccessors? s properties getter setter = some (getter', setter')) :
    (∀ f ∈ getter', HasFunction s v f) ∧ ∀ f ∈ setter', HasFunction s v f := by
  induction properties generalizing getter setter with
  | nil => cases h; exact ⟨hget, hset⟩
  | cons property properties ih =>
    have hrest := fun x hx => hproperties x (List.mem_cons_of_mem _ hx)
    obtain ⟨value, hvalue, hstep⟩ := descriptorAccessors?_cons h
    have haccessor : ∀ f, accessor? s value = some f → HasFunction s v f := by
      intro f hf
      refine hproperties property List.mem_cons_self f ?_
      rcases hvalue with ⟨name, hproperty⟩ | ⟨rfl, -⟩
      · exact (of_accessor? hf).up hproperty (List.mem_cons_of_mem _ List.mem_cons_self)
      · exact of_accessor? hf
    rcases hstep with ⟨f, hf, h | h⟩ | h
    · exact ih hrest (fun g hg => Option.some.inj hg ▸ haccessor f hf) hset h
    · exact ih hrest hget (fun g hg => Option.some.inj hg ▸ haccessor f hf) h
    · exact ih hrest hget hset h

end HasFunction

/-- What a member takes. -/
def Member.pieces (m : Member) : List NodeId := ClassIdiom.pieces m.function

/-- What a part takes. -/
def Part.pieces : Part → List NodeId
  | .members ms | .prototype ms => ms.flatMap Member.pieces
  | .inheritance base => present [base.node]
  | _ => []

/-- The members of a part. -/
def Part.memberList : Part → List Member
  | .members ms | .prototype ms => ms
  | _ => []

/-- The part is one that a statement gives. -/
structure Gives (s : Store) (statement : NodeId) (p : Part) : Prop where
  pieces : s.Pieces statement p.pieces
  block : ∀ m ∈ p.memberList, ∀ b, m.function.body = some b → s.IsBlock b
  statement : ∀ m ∈ p.memberList, m.statement = some statement

theorem Gives.none {p : Part} (hp : p.pieces = []) (hm : p.memberList = []) : Gives s i p :=
  ⟨by rw [hp]; exact .nil, by simp [hm], by simp [hm]⟩

theorem Gives.member (h : Lends s i f) {m : Member} (hf : m.function = f)
    (hs : m.statement = some i) : Gives s i (.members [m]) := by
  subst hf
  refine ⟨?_, fun m' hm' => ?_, fun m' hm' => ?_⟩
  · rw [Part.pieces, List.flatMap_singleton]
    exact h.pieces
  · rw [List.mem_singleton.1 hm']
    exact h.block
  · rw [List.mem_singleton.1 hm']
    exact hs

theorem gives_inheritance {v : Slot} {className : String} {n : NodeId} (hv : v = some n)
    (h : s.Below i n) :
    Gives s i (((baseClass? s v className).map Part.inheritance).getD .unrelated) := by
  cases hb : baseClass? s v className with
  | none => exact .none rfl rfl
  | some base =>
    have hnode : base.node = v := by
      unfold baseClass? at hb
      simp only [Option.bind_eq_bind, Option.bind_eq_some_iff] at hb
      obtain ⟨path, -, hb⟩ := hb
      split at hb
      · cases hb
      · cases hb
        rfl
    subst hv
    refine ⟨?_, by simp [Part.memberList], by simp [Part.memberList]⟩
    change s.Pieces i (present [base.node])
    rw [hnode]
    exact .single h

theorem lends_of_objectMember? (t : s.TreeAt root) {statement property : Slot} {m : Member}
    (h : objectMember? s statement property = some m) : m.statement = statement ∧
      ∃ i, property = some i ∧ (s.Below root i → Lends s i m.function) := by
  unfold objectMember? at h
  split at h
  · rename_i name value hf
    simp only [Option.bind_eq_bind, Option.bind_eq_some_iff] at h
    obtain ⟨key, -, f, hfun, h⟩ := h
    cases h
    obtain ⟨i, rfl, hi⟩ := exists_of_form? hf
    obtain ⟨v, rfl, hv⟩ := lends_of_plainFunction? t hfun
    have hiv : s.Holds i v := holds_of_form hi (List.mem_cons_of_mem _ List.mem_cons_self)
    exact ⟨rfl, i, rfl, fun hb => (hv (hb.tail hiv)).up hiv.below⟩
  · rename_i m' hf
    obtain ⟨i, rfl, hi⟩ := exists_of_form? hf
    split at h
    · cases h
    · simp only [Option.bind_eq_bind, Option.bind_eq_some_iff] at h
      obtain ⟨key, -, f, hfun, h⟩ := h
      cases h
      exact ⟨rfl, i, rfl, fun hb => lends_of_functionOf? t hb hfun⟩
  · cases h

theorem members_of_properties {statement : Slot} {properties : List Slot} {ms : List Member}
    (h : properties.mapM (objectMember? s statement) = some ms) :
    (ms.flatMap Member.pieces = (present properties).flatMap fun i =>
      (objectMember? s statement (some i)).elim [] Member.pieces) ∧
    ∀ m ∈ ms, ∃ i ∈ present properties, objectMember? s statement (some i) = some m := by
  induction properties generalizing ms with
  | nil => cases h; exact ⟨rfl, by simp⟩
  | cons property properties ih =>
    rw [List.mapM_cons] at h
    simp only [Option.bind_eq_bind, Option.bind_eq_some_iff, Option.pure_def] at h
    obtain ⟨m, hm, rest, hrest, h⟩ := h
    cases h
    obtain ⟨hflat, hmem⟩ := ih hrest
    cases property with
    | none => cases hm
    | some i =>
      refine ⟨?_, fun m' hm' => ?_⟩
      · rw [present_cons_some, List.flatMap_cons, List.flatMap_cons, hflat, hm]
        rfl
      · rcases List.mem_cons.1 hm' with rfl | hm'
        · exact ⟨i, List.mem_cons_self, hm⟩
        · obtain ⟨j, hj, h⟩ := hmem m' hm'
          exact ⟨j, List.mem_cons_of_mem _ hj, h⟩

theorem gives_prototype (t : s.TreeAt root) {statement o : NodeId} (ho : s.Below root o)
    (hso : s.Below statement o) {properties : List Slot} (hp : s.Pieces o (present properties))
    {ms : List Member} (h : properties.mapM (objectMember? s (some statement)) = some ms) :
    Gives s statement (.prototype ms) := by
  obtain ⟨hflat, hmem⟩ := members_of_properties h
  have hlend : ∀ i ∈ present properties, ∀ m, objectMember? s (some statement) (some i) = some m →
      m.statement = some statement ∧ Lends s i m.function := by
    intro i hi m hm
    obtain ⟨hst, _, hi', hl⟩ := lends_of_objectMember? t hm
    cases hi'
    exact ⟨hst, hl (ho.trans (hp.below i hi))⟩
  refine ⟨?_, fun m hm => ?_, fun m hm => ?_⟩
  · rw [Part.pieces, hflat]
    refine (hp.flatMap fun i hi => ?_).up hso
    cases hm : objectMember? s (some statement) (some i) with
    | none => exact .nil
    | some m => exact (hlend i hi m hm).2.pieces
  · obtain ⟨i, hi, h⟩ := hmem m hm
    exact (hlend i hi m h).2.block
  · obtain ⟨i, hi, h⟩ := hmem m hm
    exact (hlend i hi m h).1

theorem gives_prototypePart (t : s.TreeAt root) (hi : s.Below root i) {v : Slot}
    (hv : ∀ x, v = some x → s.Below i x) (className : String) :
    Gives s i (prototypePart s (some i) v className) := by
  unfold prototypePart
  dsimp only
  split
  · rename_i callee argument _ _ hf
    split
    · rename_i base name hm
      split
      · obtain ⟨x, rfl, hx⟩ := exists_of_form? hf
        obtain ⟨a, rfl, ha⟩ := exists_of_form? hm
        have hxa : s.Holds x a := holds_of_form hx (by simp [Form.slots])
        cases base with
        | none => exact .none rfl rfl
        | some b =>
          exact gives_inheritance rfl (((hv x rfl).tail hxa).tail (holds_of_form ha List.mem_cons_self))
      · exact .none rfl rfl
    · exact .none rfl rfl
  · rename_i callee arguments hf
    split
    · exact .none rfl rfl
    · obtain ⟨x, rfl, hx⟩ := exists_of_form? hf
      cases callee with
      | none => exact .none rfl rfl
      | some b =>
        refine gives_inheritance rfl ((hv x rfl).tail (holds_of_form hx ?_))
        cases arguments <;> exact List.mem_cons_self
  · rename_i properties hf
    obtain ⟨x, rfl, hx⟩ := exists_of_form? hf
    cases hms : properties.nodes.mapM (objectMember? s (some i)) with
    | none => exact .none rfl rfl
    | some ms =>
      have hrx := hi.trans (hv x rfl)
      exact gives_prototype t hrx (hv x rfl) (Pieces.of_form t hrx hx) hms
  · exact .none rfl rfl

theorem gives_assignedMethod (t : s.TreeAt root) (hi : s.Below root i) {right : Slot}
    (hr : ∀ x, right = some x → s.Below i x) (name : String) (isStatic : Bool) : Gives s i
      (match s.plainFunction? (s.skipParentheses right) with
        | some f => Part.members [⟨name, .method, isStatic, f, some i, [some i]⟩]
        | none => .unrelated) := by
  cases hf : s.plainFunction? (s.skipParentheses right) with
  | none => exact .none rfl rfl
  | some f =>
    obtain ⟨v, rfl, hv⟩ := lends_of_plainFunction? t hf
    exact .member ((hv (hi.trans (hr v rfl))).up (hr v rfl)) rfl rfl

theorem gives_assignmentPart (t : s.TreeAt root) (hi : s.Below root i) {right : Slot}
    (hr : ∀ x, right = some x → s.Below i x) (left : Slot) (className : String) :
    Gives s i (assignmentPart s (some i) left right className) := by
  have hmethod := gives_assignedMethod t hi hr
  unfold assignmentPart
  dsimp only
  split
  · split
    · exact .none rfl rfl
    · split
      · split
        · exact .none rfl rfl
        · exact .none rfl rfl
      · exact hmethod _ _
      · refine gives_prototypePart t hi (fun x hx => ?_) className
        obtain ⟨v, rfl, hv⟩ := below_of_skipParentheses hx
        exact (hr v rfl).trans hv
      · exact hmethod _ _
      · exact .none rfl rfl
  · exact .none rfl rfl

theorem lends_of_accessor? (t : s.TreeAt root) {v : Slot} (h : accessor? s v = some f) :
    ∃ i, v = some i ∧ (s.Below root i → Lends s i f) := by
  unfold accessor? at h
  split at h
  · rename_i hf
    obtain ⟨i, rfl, -⟩ := exists_of_form? hf
    exact ⟨i, rfl, fun hi => lends_of_functionOf? t hi h⟩
  · exact lends_of_plainFunction? t h

def accessorPieces (getter setter : Option FunctionForm) : List NodeId :=
  getter.elim [] pieces ++ setter.elim [] pieces

/-- Accessors are from a descriptor: from different properties, as a later one goes before an
earlier one. -/
structure Accesses (s : Store) (o : NodeId) (properties : List Slot)
    (getter setter : Option FunctionForm) : Prop where
  pieces : s.Pieces o (present properties ++ accessorPieces getter setter)
  getter : ∀ f ∈ getter, ∀ b, f.body = some b → s.IsBlock b
  setter : ∀ f ∈ setter, ∀ b, f.body = some b → s.IsBlock b

namespace Accesses

variable {o p : NodeId} {properties : List Slot} {getter setter : Option FunctionForm}

theorem skip (h : Accesses s o (some p :: properties) getter setter) :
    Accesses s o properties getter setter :=
  ⟨h.pieces.sublist (List.sublist_cons_self ..), h.getter, h.setter⟩

theorem taken (h : Accesses s o (some p :: properties) getter setter) (hf : Lends s p f) :
    s.Pieces o (ClassIdiom.pieces f ++ (present properties ++ accessorPieces getter setter)) := by
  have h' : s.Pieces o ([] ++ p :: (present properties ++ accessorPieces getter setter)) := h.pieces
  exact h'.split hf.pieces

theorem setGetter (h : Accesses s o (some p :: properties) getter setter) (hf : Lends s p f) :
    Accesses s o properties (some f) setter := by
  refine ⟨(h.taken hf).subperm ?_, fun g hg => Option.some.inj hg ▸ hf.block, h.setter⟩
  refine (List.perm_append_comm_assoc ..).subperm.trans (List.Sublist.subperm ?_)
  exact ((List.sublist_append_right ..).append_left _).append_left _

theorem setSetter (h : Accesses s o (some p :: properties) getter setter) (hf : Lends s p f) :
    Accesses s o properties getter (some f) := by
  refine ⟨(h.taken hf).subperm ?_, h.getter, fun g hg => Option.some.inj hg ▸ hf.block⟩
  rw [accessorPieces, ← List.append_assoc]
  refine List.perm_append_comm.subperm.trans (List.Sublist.subperm ?_)
  exact ((List.sublist_append_left ..).append_left _).append_left _

end Accesses

theorem accesses_of_descriptor (t : s.TreeAt root) {o : NodeId} (ho : s.Below root o)
    {properties : List Slot} {getter setter getter' setter' : Option FunctionForm}
    (h : Accesses s o properties getter setter)
    (hd : descriptorAccessors? s properties getter setter = some (getter', setter')) :
    Accesses s o [] getter' setter' := by
  induction properties generalizing getter setter with
  | nil => cases hd; exact h
  | cons property properties ih =>
    obtain ⟨v, hv, hstep⟩ := descriptorAccessors?_cons hd
    have hp : ∃ p, property = some p := by
      rcases hv with ⟨name, hf⟩ | ⟨-, m, hf⟩
      all_goals
        obtain ⟨p, hp, -⟩ := exists_of_form? hf
        exact ⟨p, hp⟩
    obtain ⟨p, rfl⟩ := hp
    have hop := ho.trans (h.pieces.below p List.mem_cons_self)
    have hlend : ∀ f, accessor? s v = some f → Lends s p f := by
      intro f hf
      obtain ⟨i, rfl, hi⟩ := lends_of_accessor? t hf
      rcases hv with ⟨name, hform⟩ | ⟨hvp, -⟩
      · have hpi : s.Holds p i := holds_of_form hform (List.mem_cons_of_mem _ List.mem_cons_self)
        exact (hi (hop.tail hpi)).up hpi.below
      · cases hvp
        exact hi hop
    rcases hstep with ⟨f, hf, hget | hset⟩ | hskip
    · exact ih (h.setGetter (hlend f hf)) hget
    · exact ih (h.setSetter (hlend f hf)) hset
    · exact ih h.skip hskip

theorem gives_definedPart (t : s.TreeAt root) (hi : s.Below root i) {descriptor : Slot}
    (hd : ∀ x, descriptor = some x → s.Below i x) (key : Slot) (isStatic : Bool) : Gives s i
      (match s.form? key, s.form? descriptor with
        | some (.stringLiteral name), some (.object properties) =>
          match descriptorAccessors? s properties.nodes none none with
          | some (getter, setter) =>
            let member := fun kind f => (⟨name, kind, isStatic, f, some i, [some i]⟩ : Member)
            match (getter.map (member .getter)).toList ++ (setter.map (member .setter)).toList with
            | [] => Part.unsupportedDescriptor
            | members => .members members
          | none => .unsupportedDescriptor
        | _, _ => .unsupportedDescriptor) := by
  split
  · rename_i name properties _ hf
    obtain ⟨x, rfl, hx⟩ := exists_of_form? hf
    have hrx := hi.trans (hd x rfl)
    split
    · rename_i getter setter hacc
      have hslots : s.Pieces x (present properties.nodes) := Pieces.of_form t hrx hx
      have hnone : Accesses s x properties.nodes none none :=
        ⟨by simpa [accessorPieces] using hslots, by simp, by simp⟩
      have ha := accesses_of_descriptor t hrx hnone hacc
      have hp := ha.pieces.up (hd x rfl)
      cases getter <;> cases setter
      · exact .none rfl rfl
      · exact .member ⟨hp, ha.setter _ rfl⟩ rfl rfl
      · exact .member ⟨by simpa [accessorPieces] using hp, ha.getter _ rfl⟩ rfl rfl
      · refine ⟨?_, ?_, ?_⟩
        · simpa [Part.pieces, Member.pieces, accessorPieces] using hp
        · simpa [Part.memberList] using ⟨ha.getter _ rfl, ha.setter _ rfl⟩
        · simp [Part.memberList]
    · exact .none rfl rfl
  · exact .none rfl rfl

theorem gives_descriptorPart (t : s.TreeAt root) (hi : s.Below root i) {descriptor : Slot}
    (hd : ∀ x, descriptor = some x → s.Below i x) (target key : Slot) (className : String) :
    Gives s i (descriptorPart s (some i) target key descriptor className) := by
  have hdefine := gives_definedPart t hi hd key
  unfold descriptorPart
  dsimp only
  split
  · split
    · exact hdefine _
    · split
      · exact hdefine _
      · exact .none rfl rfl
  · exact .none rfl rfl

theorem gives_callPart (t : s.TreeAt root) (hi : s.Below root i) {arguments : List Slot}
    (ha : ∀ x, some x ∈ arguments → s.Below i x) (callee : Slot) (className : String) :
    Gives s i (callPart s (some i) callee arguments className) := by
  have hinherits : ∀ base, base ∈ arguments → Gives s i
      (((baseClass? s base className).map Part.inheritance).getD .unrelated) := by
    intro base hbase
    cases base with
    | none => exact .none rfl rfl
    | some b => exact gives_inheritance rfl (ha b hbase)
  unfold callPart
  split
  · split
    · exact hinherits _ (by simp)
    · exact .none rfl rfl
  · split
    · exact hinherits _ (by simp)
    · exact .none rfl rfl
  · exact gives_descriptorPart t hi (fun x hx => ha x (by simp [hx])) _ _ className
  · exact .none rfl rfl

theorem gives_part (t : s.TreeAt root) (hi : s.Below root i) (className : String) :
    Gives s i (part s (some i) className) := by
  unfold part
  split
  · exact .none rfl rfl
  · rename_i e hf
    have hbelow : ∀ x, s.skipParentheses e = some x → s.Below i x := by
      intro x hx
      obtain ⟨v, rfl, hv⟩ := below_of_skipParentheses hx
      exact (holds_of_form hf List.mem_cons_self).below.trans hv
    split
    · rename_i left right hb
      obtain ⟨x, hx, hxb⟩ := exists_of_form? hb
      refine gives_assignmentPart t hi (fun y hy => (hbelow x hx).tail ?_) left className
      exact holds_of_form hxb (List.mem_cons_of_mem _ (hy ▸ List.mem_cons_self))
    · rename_i callee arguments hb
      obtain ⟨x, hx, hxb⟩ := exists_of_form? hb
      refine gives_callPart t hi (fun y hy => (hbelow x hx).tail ?_) callee className
      exact holds_of_form hxb (List.mem_cons_of_mem _ hy)
    · exact .none rfl rfl
  · exact .none rfl rfl

end ClassIdiom

end Modernizer
