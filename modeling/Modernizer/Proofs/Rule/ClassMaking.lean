import Modernizer.Proofs.Rule.BaseCall
import Modernizer.Proofs.Rule.ClassRun
import Modernizer.Proofs.Rule.Draft
import Modernizer.Rule.Classes

/-! Making classes. Constructor, members and heritage are built one after the other from what the
candidate takes, and the class around them takes the place of its statements. -/

namespace Modernizer

open Store ClassIdiom

variable {s s₁ : Store} {root b n : NodeId} {R : NodeId → Prop} {D D' : List NodeId}
  {f : FunctionForm} {m : Member} {c : Candidate}

theorem Store.Stock.subperm (h : s.Stock R D) (hsub : D'.Subperm D) : s.Stock R D' := by
  obtain ⟨l, hperm, hsub⟩ := hsub
  refine ⟨(hperm.pairwise_iff Apart.symm).1 (h.apart.sublist hsub), fun d hd => ?_⟩
  exact h.pieces d (hsub.subset (hperm.mem_iff.2 hd))

namespace Rule

theorem body_of_stock (hR : s.Sites root R) (hD : s.Stock R (pieces f))
    (hblock : ∀ b, f.body = some b → s.IsBlock b) (b : NodeId) (hb : f.body = some b) :
    s.Below root b ∧ s.IsBlock b :=
  ⟨hD.below_root hR (by simp [pieces, hb]), hblock b hb⟩

theorem inner_body (f : FunctionForm) {x : NodeId} (h : s.Inner (present [f.body]) x) :
    s.Inner (pieces f) x :=
  h.mono (by rw [pieces, present_append]; exact List.subset_append_right ..)

theorem graft_methodCalls (t : s.TreeAt root) (hR : s.Sites root R) (hD : s.Stock R (pieces f))
    (hblock : ∀ b, f.body = some b → s.IsBlock b) (base : BaseClass) :
    Graft root (s.Inner (pieces f)) s.NewSince s (convertMethodCalls base f.body s).2 :=
  (graft_convertMethodCalls t base (body_of_stock hR hD hblock)).mono t
    (fun r hr hb => ⟨r, inner_body f hr, hb, .refl⟩) fun _ => id

theorem graft_constructorCalls (t : s.TreeAt root) (hR : s.Sites root R)
    (hD : s.Stock R (pieces f)) (hblock : ∀ b, f.body = some b → s.IsBlock b) (base : BaseClass) :
    Graft root (s.Inner (pieces f)) s.NewSince s (convertConstructorCalls base f.body s).2 :=
  (graft_convertConstructorCalls t base (body_of_stock hR hD hblock)).mono t
    (fun r hr hb => ⟨r, inner_body f hr, hb, .refl⟩) fun _ => id

theorem stock_after (t : s.TreeAt root) (hR : s.Sites root R) (hD : s.Stock R D)
    (g : Graft root (s.Inner D) s.NewSince s s₁) : s₁.Stock R D :=
  hD.of_graft hR.below g fun _ => hD.outside_inner t hR

/-- The store after the calls in a constructor are converted. -/
def convertConstructor (c : Candidate) (s : Store) : Store :=
  c.base.elim s fun base =>
    (convertMethodCalls base c.function.body (convertConstructorCalls base c.function.body s).2).2

/-- The constructor of a class has the parameters and the body of the function. -/
def constructorForm (f : FunctionForm) : Form :=
  .method ⟨.constructing, false, none, f.parameters, f.body, false, false⟩

theorem makeConstructor_eq (c : Candidate) (s : Store) :
    makeConstructor c s = (convertConstructor c s).synthesize (constructorForm c.function) := by
  unfold makeConstructor convertConstructor
  cases c.base <;> rfl

theorem graft_convertConstructor (t : s.TreeAt root) (hR : s.Sites root R)
    (hD : s.Stock R (pieces c.function)) (hblock : ∀ b, c.function.body = some b → s.IsBlock b) :
    Graft root (s.Inner (pieces c.function)) s.NewSince s (convertConstructor c s) := by
  unfold convertConstructor
  cases c.base with
  | none => exact .refl t
  | some base =>
    let s₁ := (convertConstructorCalls base c.function.body s).2
    have g₁ : Graft root _ _ s s₁ := graft_constructorCalls t hR hD hblock base
    have hR₁ := hR.of_graft t hD g₁
    have hD₁ := stock_after t hR hD g₁
    have hblock₁ : ∀ b, c.function.body = some b → s₁.IsBlock b := fun b hb =>
      g₁.isBlock b (hblock b hb)
    have g₂ := graft_methodCalls g₁.tree hR₁ hD₁ hblock₁ base
    exact ((Builds.of_graft g₁.tree hR₁ hD₁ g₂).after t hR hD g₁).graft

theorem builds_makeConstructor (t : s.TreeAt root) (hR : s.Sites root R)
    (hD : s.Stock R (pieces c.function)) (hblock : ∀ b, c.function.body = some b → s.IsBlock b) :
    Builds root R [(makeConstructor c s).1] (pieces c.function) s (makeConstructor c s).2 ∧
      (makeConstructor c s).2.Spare root (makeConstructor c s).1 (constructorForm c.function) := by
  have g := graft_convertConstructor t hR hD hblock
  have hD₁ := stock_after t hR hD g
  have hb : (convertConstructor c s).Bodied (constructorForm c.function) := fun b hb =>
    g.isBlock b (hblock b hb)
  have hmake := (Builds.stock g.tree hD₁).enclose (f := constructorForm c.function) g.tree
    (hR.of_graft t hD g) hD₁ hb
  rw [makeConstructor_eq]
  exact ⟨hmake.after t hR hD g, .synthesize g.tree hb⟩

/-- The form of the key of a member. -/
def keyForm (name : String) : Form :=
  if isBareKey name then .identifier name else .stringLiteral name

theorem functionBody_keyForm (name : String) : (keyForm name).functionBody = none := by
  unfold keyForm
  split <;> rfl

theorem plainKey?_of_keyForm {key : Slot} {name : String} (h : s.form? key = some (keyForm name)) :
    plainKey? s key = some name := by
  unfold keyForm at h
  unfold plainKey?
  split at h <;> rw [h]

theorem builds_makeKey (t : s.TreeAt root) (hR : s.Sites root R) (name : String) :
    Builds root R [(makeKey name s).1] [] s (makeKey name s).2 := by
  have hleaf : (keyForm name).children = [] := by
    unfold keyForm
    split <;> rfl
  exact .leaf (f := keyForm name) t hR hleaf (functionBody_keyForm name)

/-- A member with its key. -/
def memberForm (m : Member) (key : NodeId) : Form :=
  let f := m.function
  .method ⟨m.kind, m.isStatic, some key, f.parameters, f.body, f.isAsync, f.isGenerator⟩

/-- The node is what a member was made into, and not in the tree yet. -/
def MadeMember (s : Store) (root : NodeId) (m : Member) (n : NodeId) : Prop :=
  ∃ key, s.Spare root n (memberForm m key) ∧ s.Spare root key (keyForm m.name)

theorem MadeMember.of_graft {s' : Store} (h : MadeMember s root m n)
    (g : Graft root R (NewSince s) s s') : MadeMember s' root m n := by
  obtain ⟨key, hn, hkey⟩ := h
  exact ⟨key, hn.of_graft g, hkey.of_graft g⟩

def makePlainMember (m : Member) : StateM Store NodeId := do
  let key ← makeKey m.name
  let f := m.function
  makeNode (.method ⟨m.kind, m.isStatic, some key, f.parameters, f.body, f.isAsync, f.isGenerator⟩)

theorem builds_makePlainMember (t : s.TreeAt root) (hR : s.Sites root R) (hD : s.Stock R m.pieces)
    (hblock : ∀ b, m.function.body = some b → s.IsBlock b) :
    Builds root R [(makePlainMember m s).1] m.pieces s (makePlainMember m s).2 ∧
      MadeMember (makePlainMember m s).2 root m (makePlainMember m s).1 := by
  have hkey := builds_makeKey t hR m.name
  have hD' : s.Stock R (m.pieces ++ []) := by rwa [List.append_nil]
  have hall := (Builds.stock t hD).prepend hkey t hR hD'
  have hb : (makeKey m.name s).2.Bodied (memberForm m s.size) := fun b hb =>
    hkey.graft.isBlock b (hblock b hb)
  have hmake := hall.enclose (f := memberForm m s.size) t hR hD hb
  have hspare : (makeKey m.name s).2.Spare root s.size (keyForm m.name) :=
    .synthesize t (.of_none (functionBody_keyForm m.name))
  exact ⟨hmake, s.size, .synthesize hkey.tree hb, hspare.of_graft (R := R) (.synthesize hkey.tree hb)⟩

def convertMember (base : Option BaseClass) (m : Member) (s : Store) : Store :=
  if m.kind = .method then base.elim s fun base => (convertMethodCalls base m.function.body s).2 else s

theorem makeMember_eq (base : Option BaseClass) (m : Member) (placed : List Nat) (s : Store) :
    makeMember base m placed s =
      let made := makePlainMember m (convertMember base m s)
      let comments := commentsLeft made.2 m.commentSources placed
      ((made.1, placed ++ comments), made.2.attachLeading (some made.1) comments) := by
  unfold makeMember convertMember
  by_cases hk : m.kind = .method
  · rw [if_pos hk, if_pos hk]
    cases base <;> rfl
  · rw [if_neg hk, if_neg hk]
    rfl

theorem graft_convertMember (t : s.TreeAt root) (hR : s.Sites root R) (hD : s.Stock R m.pieces)
    (hblock : ∀ b, m.function.body = some b → s.IsBlock b) (base : Option BaseClass) :
    Graft root (s.Inner m.pieces) s.NewSince s (convertMember base m s) := by
  unfold convertMember
  split
  · cases base with
    | none => exact .refl t
    | some base => exact graft_methodCalls t hR hD hblock base
  · exact .refl t

theorem builds_makeMember (t : s.TreeAt root) (hR : s.Sites root R) (hD : s.Stock R m.pieces)
    (hblock : ∀ b, m.function.body = some b → s.IsBlock b) (base : Option BaseClass)
    (placed : List Nat) :
    Builds root R [(makeMember base m placed s).1.1] m.pieces s (makeMember base m placed s).2 ∧
      MadeMember (makeMember base m placed s).2 root m (makeMember base m placed s).1.1 := by
  have g := graft_convertMember t hR hD hblock base
  obtain ⟨hbuild, hmade⟩ := builds_makePlainMember g.tree (hR.of_graft t hD g)
    (stock_after t hR hD g) fun b hb => g.isBlock b (hblock b hb)
  rw [makeMember_eq]
  have hplain := hbuild.after t hR hD g
  exact ⟨hplain.adds t hR hD (.of_sameTree hplain.tree (sameTree_setAttached ..)),
    hmade.of_graft (R := R) (.of_sameTree hplain.tree (sameTree_setAttached ..))⟩

theorem builds_makeMembers (ms : List Member) (t : s.TreeAt root) (hR : s.Sites root R)
    (hD : s.Stock R (ms.flatMap Member.pieces))
    (hblock : ∀ m ∈ ms, ∀ b, m.function.body = some b → s.IsBlock b) (base : Option BaseClass)
    (placed : List Nat) :
    Builds root R (makeMembers base ms placed s).1 (ms.flatMap Member.pieces) s
      (makeMembers base ms placed s).2 ∧
    List.Forall₂ (MadeMember (makeMembers base ms placed s).2 root) ms
      (makeMembers base ms placed s).1 := by
  induction ms generalizing s placed with
  | nil => exact ⟨.stock t hD, .nil⟩
  | cons m ms ih =>
    rw [List.flatMap_cons] at hD ⊢
    obtain ⟨hfirst, hmade⟩ := builds_makeMember t hR (hD.sublist (List.sublist_append_left ..))
      (hblock m List.mem_cons_self) base placed
    obtain ⟨hrest, hmade'⟩ := ih hfirst.tree (hfirst.sites_left t hR hD)
      ((hfirst.stock_left t hR hD).sublist (List.sublist_append_right ..))
      (fun m' hm' b hb => hfirst.graft.isBlock b (hblock m' (List.mem_cons_of_mem _ hm') b hb))
      (makeMember base m placed s).1.2
    exact ⟨hfirst.append hrest t hR hD, .cons (hmade.of_graft hrest.graft) hmade'⟩

def makeHead (c : Candidate) : StateM Store (List NodeId) := do
  if needsConstructor (← get) c.function then (fun n => [n]) <$> makeConstructor c else pure []

/-- The forms of the members that are made from the function of the constructor. -/
def headForms (s : Store) (c : Candidate) : List Form :=
  if needsConstructor s c.function then [constructorForm c.function] else []

def headPieces (s : Store) (c : Candidate) : List NodeId :=
  if needsConstructor s c.function then pieces c.function else []

theorem makeHead_eq (c : Candidate) (s : Store) :
    makeHead c s = if needsConstructor s c.function then
      ([(makeConstructor c s).1], (makeConstructor c s).2) else ([], s) := by
  change (if needsConstructor s c.function then (fun n => [n]) <$> makeConstructor c
    else pure [] : StateM Store (List NodeId)) s = _
  split <;> rfl

theorem builds_makeHead (t : s.TreeAt root) (hR : s.Sites root R)
    (hD : s.Stock R (headPieces s c)) (hblock : ∀ b, c.function.body = some b → s.IsBlock b) :
    Builds root R (makeHead c s).1 (headPieces s c) s (makeHead c s).2 ∧
      List.Forall₂ ((makeHead c s).2.Spare root) (makeHead c s).1 (headForms s c) := by
  rw [makeHead_eq]
  unfold headPieces at hD ⊢
  unfold headForms
  split
  · rename_i hneeds
    rw [if_pos hneeds] at hD
    obtain ⟨hbuild, hspare⟩ := builds_makeConstructor t hR hD hblock
    exact ⟨hbuild, .cons hspare .nil⟩
  · rename_i hneeds
    rw [if_neg hneeds] at hD
    exact ⟨.stock t hD, .nil⟩

theorem makeClass_eq (c : Candidate) (s : Store) :
    makeClass c s =
      let comments := s.commentsOf c.commentSources
      let head := makeHead c s
      let members := makeMembers c.base c.members comments head.2
      let name := members.2.synthesize (.identifier c.name)
      let made := name.2.synthesize (.classDeclaration ⟨some name.1, c.base.bind (·.node),
        .ofNodes ((head.1 ++ members.1).map some)⟩)
      (.of (some c.container) c.statement c.removals [some made.1],
        made.2.attachLeading (some made.1) comments) := by
  unfold makeClass makeHead
  dsimp only [bind, StateT.bind, get, getThe, MonadStateOf.get, StateT.get, pure]
  split <;> rfl

/-- The node that names what a class extends. -/
def heritage (c : Candidate) : List NodeId := present [c.base.bind (·.node)]

theorem makeClass_subperm (s : Store) (c : Candidate) :
    (heritage c ++ headPieces s c ++ c.members.flatMap Member.pieces).Subperm
      (pieces c.function ++ c.taken) := by
  have hhead : (headPieces s c).Sublist (pieces c.function) := by
    unfold headPieces
    split
    · exact .refl _
    · exact List.nil_sublist _
  rw [List.append_assoc]
  refine (List.perm_append_comm_assoc ..).subperm.trans (List.Sublist.subperm ?_)
  exact hhead.append_right _

/-- The node is what a candidate was made into, and not in the tree yet. Its first members have the
given forms. -/
def MadeClass (s : Store) (root : NodeId) (c : Candidate) (forms : List Form) (w : NodeId) : Prop :=
  ∃ name head members, s.Spare root w (.classDeclaration
      ⟨some name, c.base.bind (·.node), .ofNodes ((head ++ members).map some)⟩) ∧
    s.Spare root name (.identifier c.name) ∧ List.Forall₂ (s.Spare root) head forms ∧
    List.Forall₂ (MadeMember s root) c.members members

theorem MadeClass.of_graft {s' : Store} {forms : List Form} {w : NodeId}
    (h : MadeClass s root c forms w) (g : Graft root R (NewSince s) s s') :
    MadeClass s' root c forms w := by
  obtain ⟨name, head, members, hw, hname, hhead, hmembers⟩ := h
  exact ⟨name, head, members, hw.of_graft g, hname.of_graft g, hhead.imp fun _ _ h => h.of_graft g,
    hmembers.imp fun _ _ h => h.of_graft g⟩

def makeRest (c : Candidate) (s : Store) : List NodeId × Store :=
  makeMembers c.base c.members (s.commentsOf c.commentSources) (makeHead c s).2

/-- The form of a class, with the node that is made for its name next. -/
def classForm (c : Candidate) (s : Store) : Form :=
  .classDeclaration ⟨some (makeRest c s).2.size, c.base.bind (·.node),
    .ofNodes (((makeHead c s).1 ++ (makeRest c s).1).map some)⟩

section making

variable (t : s.TreeAt root) (hR : s.Sites root R)
  (hD : s.Stock R (heritage c ++ headPieces s c ++ c.members.flatMap Member.pieces))
  (hblock : ∀ f ∈ c.function :: c.members.map (·.function), ∀ b, f.body = some b → s.IsBlock b)

include t hR hD hblock

theorem builds_opening :
    Builds root R (heritage c ++ (makeHead c s).1) (heritage c ++ headPieces s c) s (makeHead c s).2 ∧
      List.Forall₂ ((makeHead c s).2.Spare root) (makeHead c s).1 (headForms s c) := by
  have hfirst := hD.sublist (List.sublist_append_left ..)
  have hheritage : Builds root R (heritage c) (heritage c) s s :=
    .stock t (hfirst.sublist (List.sublist_append_left ..))
  obtain ⟨hhead, hforms⟩ := builds_makeHead t hR (hfirst.sublist (List.sublist_append_right ..))
    (hblock c.function List.mem_cons_self)
  exact ⟨hheritage.append hhead t hR hfirst, hforms⟩

theorem builds_makeRest :
    Builds root R (makeRest c s).1 (c.members.flatMap Member.pieces) (makeHead c s).2
        (makeRest c s).2 ∧
      List.Forall₂ (MadeMember (makeRest c s).2 root) c.members (makeRest c s).1 := by
  obtain ⟨hopening, -⟩ := builds_opening t hR hD hblock
  have hstock := (hopening.stock_left t hR hD).sublist (List.sublist_append_right ..)
  refine builds_makeMembers c.members hopening.tree (hopening.sites_left t hR hD) hstock ?_ c.base _
  intro m hm b hb
  exact hopening.graft.isBlock b <|
    hblock m.function (List.mem_cons_of_mem _ (List.mem_map_of_mem hm)) b hb

theorem adds_makeClass : Adds root (makeRest c s).2 (makeClass c s).2 := by
  obtain ⟨hrest, -⟩ := builds_makeRest t hR hD hblock
  let s₁ := (makeRest c s).2
  let named := (s₁.synthesize (.identifier c.name)).2
  have hnamed : Adds root s₁ named := .synthesize hrest.tree (.of_none rfl)
  have hclass : Adds root named (named.synthesize (classForm c s)).2 :=
    .synthesize hnamed.tree (.of_none rfl)
  rw [makeClass_eq]
  exact (hnamed.trans hclass).trans (.of_sameTree hclass.tree (sameTree_setAttached ..))

theorem sameBelow_head {d : NodeId} (hd : d ∈ headPieces s c) :
    SameBelow (makeHead c s).2 (makeClass c s).2 d := by
  obtain ⟨hopening, -⟩ := builds_opening t hR hD hblock
  obtain ⟨hrest, -⟩ := builds_makeRest t hR hD hblock
  have hall := hopening.append hrest t hR hD
  have hstock := hopening.stock_left t hR hD
  have hmembers : SameBelow (makeHead c s).2 (makeRest c s).2 d :=
    hstock.sameBelow hopening.tree (hopening.sites_left t hR hD) hrest.graft
      (List.mem_append_right _ hd)
  have hbelow : (makeRest c s).2.Below root d :=
    (hopening.stock_right hrest t hR hD).below_root (hR.of_graft t hD hall.graft)
      (List.mem_append_left _ (List.mem_append_right _ hd))
  exact hmembers.trans ((adds_makeClass t hR hD hblock).sameBelow hbelow)

/-- A class is built from what its candidate takes. -/
theorem builds_makeClass :
    ∃ w, (makeClass c s).1 = .of (some c.container) c.statement c.removals [some w] ∧
      s.NewSince w ∧
      Builds root R [w] (heritage c ++ headPieces s c ++ c.members.flatMap Member.pieces) s
        (makeClass c s).2 ∧
      MadeClass (makeClass c s).2 root c (headForms s c) w := by
  obtain ⟨hopening, hforms⟩ := builds_opening t hR hD hblock
  obtain ⟨hmembers, hmade⟩ := builds_makeRest t hR hD hblock
  have hparts := hopening.append hmembers t hR hD
  let s₁ := (makeRest c s).2
  let named := (s₁.synthesize (.identifier c.name)).2
  have hname := Builds.leaf (f := .identifier c.name) hparts.tree (hR.of_graft t hD hparts.graft)
    rfl rfl
  have hinside := hparts.prepend hname t hR (by rwa [List.append_nil])
  let form := classForm c s
  have hchildren : form.children =
      [s₁.size] ++ (heritage c ++ (makeHead c s).1 ++ (makeRest c s).1) := by
    change present ([some s₁.size] ++ ([c.base.bind (·.node)] ++
      ((makeHead c s).1 ++ (makeRest c s).1).map some)) = _
    rw [present_append, present_append, present_map_some, List.append_assoc]
    rfl
  have hbodied : named.Bodied form := .of_none rfl
  have hclass := Builds.enclose (f := form) (hchildren ▸ hinside) t hR hD hbodied
  have hnamed : Adds root s₁ named := .synthesize hparts.tree (.of_none rfl)
  have hspare : named.Spare root s₁.size (.identifier c.name) :=
    .synthesize hparts.tree (.of_none rfl)
  have henclosed : Adds root named (named.synthesize form).2 := .synthesize hinside.tree hbodied
  have hkept : MadeClass (named.synthesize form).2 root c (headForms s c) named.size := by
    have g : Graft root R (NewSince named) named (named.synthesize form).2 :=
      henclosed.graft hinside.tree
    have g₁ : Graft root R (NewSince s₁) s₁ (named.synthesize form).2 :=
      (hnamed.trans henclosed).graft hparts.tree
    have hhead := hforms.imp fun _ _ h => (h.of_graft hmembers.graft).of_graft g₁
    exact ⟨s₁.size, (makeHead c s).1, (makeRest c s).1, .synthesize hinside.tree hbodied,
      hspare.of_graft g, hhead, hmade.imp fun _ _ h => h.of_graft g₁⟩
  have hattached : Adds root (named.synthesize form).2 (makeClass c s).2 := by
    rw [makeClass_eq]
    exact .of_sameTree hclass.tree (sameTree_setAttached ..)
  have heq : (makeClass c s).1 =
      .of (some c.container) c.statement c.removals [some named.size] := by
    rw [makeClass_eq]
    rfl
  exact ⟨named.size, heq, hinside.graft.size_le, hclass.adds t hR hD hattached,
    hkept.of_graft (R := R) (hattached.graft hclass.tree)⟩

end making

theorem claims_makeClass (c : Candidate) (l : List Slot) :
    (Replacement.of (some c.container) c.statement c.removals l).Claims = c.Claims :=
  funext fun x => propext (by simp [Replacement.claims_of, Candidate.Claims])

theorem drafts_makeClass (t : s.TreeAt root) (hn : s.Below root n) {list : StatementList}
    (hlist : s.statementList? (some n) = some list) (hcontainer : c.container = n)
    (hstatements : ∀ x ∈ c.statement :: c.removals, x ∈ list.statements ∧ ∃ j, x = some j)
    (hD : s.Stock c.Claims (pieces c.function ++ c.taken))
    (hblock : ∀ f ∈ c.function :: c.members.map (·.function), ∀ b, f.body = some b → s.IsBlock b) :
    Drafts root n list c.Claims s (makeClass c s).2 [(makeClass c s).1] := by
  have hR : s.Sites root c.Claims := .of_holds t hn fun x hx =>
    holds_of_mem_statements hlist (hstatements _ hx).1
  have hstock := hD.subperm (makeClass_subperm s c)
  obtain ⟨w, hw, hnew, hbuild, -⟩ := builds_makeClass t hR hstock hblock
  rw [hw]
  rw [← claims_makeClass c [some w]] at hbuild hstock ⊢
  have hothers : ∀ o ∈ c.removals.filter (· != c.statement), o ∈ c.removals :=
    fun o ho => (List.mem_filter.1 ho).1
  refine .of_builds hbuild t hn hlist hstock (congrArg some hcontainer) rfl
    (hstatements _ List.mem_cons_self).2 (fun o ho => ?_) (fun o ho => ?_) fun x hx => ?_
  · rcases List.mem_cons.1 ho with rfl | ho
    · exact (hstatements _ List.mem_cons_self).1
    · exact (hstatements o (List.mem_cons_of_mem _ (hothers o ho))).1
  · exact (hstatements o (List.mem_cons_of_mem _ (hothers o ho))).2
  · exact List.mem_singleton.1 hx ▸ hnew

def classDraft (c : Candidate) : StateM Store (Option Replacement) := some <$> makeClass c

theorem filterMapM_classDraft (cs : List Candidate) (s : Store) :
    cs.filterMapM classDraft s = cs.mapM makeClass s := by
  induction cs generalizing s with
  | nil => rfl
  | cons c cs ih =>
    rw [List.filterMapM_cons, List.mapM_cons]
    change (match cs.filterMapM classDraft (makeClass c s).2 with
      | (rs, s') => ((makeClass c s).1 :: rs, s')) = _
    rw [ih]
    rfl

theorem visitContainer_eq {list : StatementList} (hlist : s.statementList? (some n) = some list) :
    let found := scans s n list.statements
    let candidates := found.filterMap (·.candidate)
    let made := candidates.filterMapM classDraft s
    ∃ edit, visitContainer n s = (⟨edit, found.flatMap (·.warnings)⟩, made.2) ∧
      (edit = .keep ∧ candidates = [] ∨ edit = .replaceStatements made.1) := by
  intro found candidates made
  let notices := found.flatMap (·.warnings)
  unfold visitContainer
  dsimp only [bind, StateT.bind, get, getThe, MonadStateOf.get, StateT.get, pure]
  rw [hlist]
  dsimp only
  cases hc : candidates with
  | nil =>
    refine ⟨.keep, ?_, .inl ⟨rfl, rfl⟩⟩
    rw [show (scans s n list.statements).filterMap (·.candidate) = [] from hc]
    simp only [made, hc]
    rfl
  | cons c cs =>
    refine ⟨_, ?_, .inr rfl⟩
    rw [show (scans s n list.statements).filterMap (·.candidate) = c :: cs from hc]
    simp only [made, hc, filterMapM_classDraft]
    rfl

theorem drafts_candidates (t : s.TreeAt root) (hn : s.Below root n) {list : StatementList}
    (hlist : s.statementList? (some n) = some list) :
    let candidates := (scans s n list.statements).filterMap (·.candidate)
    let made := candidates.filterMapM classDraft s
    Drafts root n list (fun x => ∃ c ∈ candidates, c.Claims x) s made.2 made.1 ∧
      ∀ c ∈ candidates, ∃ s₁, Drafts.Among root n list c.Claims
        (fun x => (∃ c' ∈ candidates, c'.Claims x) ∧ ¬ c.Claims x) classDraft c s s₁ made.2 made.1 := by
  intro candidates made
  obtain ⟨hready, hdisj⟩ : (∀ c ∈ candidates, c.Ready s n list.statements) ∧
    candidates.Pairwise fun c c' => ∀ x, c.Claims x → ¬ c'.Claims x := ready_of_scans t hn hlist
  have hclaims : ∀ c ∈ candidates, ∀ x, c.Claims x → some x ∈ list.statements :=
    fun c hc x hx => ((hready c hc).statements _ hx).1
  refine Drafts.filterMapM classDraft Candidate.Claims
    (fun c => pieces c.function ++ c.taken)
    (fun c => present ((c.function :: c.members.map (·.function)).map (·.body)))
    hclaims hdisj (fun c hc s t hn hlist hD hblocks => ?_) t hn hlist
    (fun c hc => (hready c hc).stock) fun c hc b hb => ?_
  · refine drafts_makeClass t hn hlist (hready c hc).container (hready c hc).statements hD ?_
    exact fun f hf b hb => hblocks b (mem_present.2 (List.mem_map.2 ⟨f, hf, hb⟩))
  · obtain ⟨f, hf, hb⟩ := List.mem_map.1 (mem_present.1 hb)
    exact (hready c hc).block f hf b hb

theorem decides_visitContainer : Decides root visitContainer := by
  intro s n t hn
  cases hlist : s.statementList? (some n) with
  | none =>
    refine .get ?_
    rw [hlist]
    exact .keep t rfl
  | some list =>
    obtain ⟨h, -⟩ := drafts_candidates t hn hlist
    have hR : ∀ x, (∃ c ∈ (scans s n list.statements).filterMap (·.candidate), c.Claims x) →
        some x ∈ list.statements := fun x ⟨c, hc, hx⟩ =>
      (((ready_of_scans t hn hlist).1 c hc).statements _ hx).1
    obtain ⟨edit, hvisit, hedit⟩ := visitContainer_eq hlist
    rw [Settles, hvisit]
    rcases hedit with ⟨rfl, hnone⟩ | rfl
    · exact ⟨_, rfl, h.editAt t hn hlist hR⟩
    · exact h.carryOut t hn hlist hR

end Rule

end Modernizer
