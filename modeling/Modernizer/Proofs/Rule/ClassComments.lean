import Modernizer.Proofs.Rule.ClassMembers
import Modernizer.Proofs.Rule.CommentSources
import Modernizer.Proofs.Tree.Footing

/-! Comments of the statements that become a class. Nothing but a call loses its comments while a
class is made, so each source still has those it had when it is asked for them (`Quiet`), and of the
comments of all sources each goes to the first node that may have it. -/

namespace Modernizer

open Store ClassIdiom

/-- The form is one of a call. -/
def Form.isCall : Form → Bool
  | .call .. => true
  | _ => false

theorem Form.isCall_iff {form : Form} : form.isCall = true ↔
    ∃ callee arguments isOptional, form = .call callee arguments isOptional := by
  constructor
  · intro h
    unfold isCall at h
    split at h
    · exact ⟨_, _, _, rfl⟩
    · cases h
  · rintro ⟨_, _, _, rfl⟩
    rfl

theorem Form.isCall_mapSlots (g : Slot → Slot) (form : Form) :
    (form.mapSlots g).isCall = form.isCall := by
  cases form <;> rfl

namespace Store

variable {s s₁ s' : Store} {i n : NodeId}

/-- Going from `s` to `s'` leaves the comments of all nodes alone that are no calls, and no node
becomes a call or ceases to be one. -/
structure Quiet (s s' : Store) : Prop where
  size_le : s.size ≤ s'.size
  isCall_iff : ∀ i, i < s.size → (s'.IsCall i ↔ s.IsCall i)
  attached : ∀ i, i < s.size → ¬ s.IsCall i → s'.attachedTo (some i) = s.attachedTo (some i)
  ahead : s.NoneAhead → s'.NoneAhead

namespace Quiet

theorem refl (s : Store) : Quiet s s := ⟨Nat.le_refl _, fun _ _ => .rfl, fun _ _ _ => rfl, id⟩

theorem trans (h : Quiet s s₁) (h' : Quiet s₁ s') : Quiet s s' where
  size_le := h.size_le.trans h'.size_le
  isCall_iff i hi := (h'.isCall_iff i (Nat.lt_of_lt_of_le hi h.size_le)).trans (h.isCall_iff i hi)
  attached i hi hcall := by
    have hi₁ : i < s₁.size := Nat.lt_of_lt_of_le hi h.size_le
    rw [h'.attached i hi₁ (fun hc => hcall ((h.isCall_iff i hi).1 hc)), h.attached i hi hcall]
  ahead hs := h'.ahead (h.ahead hs)

theorem of_expands (h : Expands s s') (hattached : s'.attached = s.attached) : Quiet s s' where
  size_le := h.size_le
  isCall_iff i hi := by rw [IsCall, IsCall, h.form i hi]
  attached i _ _ := attachedTo_congr hattached _
  ahead hs i hi := (attachedTo_congr hattached _).trans (hs i (h.size_le.trans hi))

theorem synthesize (s : Store) (form : Form) : Quiet s (s.synthesize form).2 :=
  .of_expands (.synthesize s form) rfl

theorem attachLeading (h : Quiet s s') (hn : s.size ≤ n) (hlt : n < s'.size) (comments : List Nat) :
    Quiet s (s'.attachLeading (some n) comments) where
  size_le := h.size_le
  isCall_iff := h.isCall_iff
  attached i hi hcall := by
    rw [Store.attachLeading, attachedTo_setAttached, if_neg fun e => ?_]
    · exact h.attached i hi hcall
    · exact Nat.not_le_of_lt hi (Option.some.inj e ▸ hn)
  ahead hs i hi := by
    rw [Store.attachLeading, attachedTo_setAttached, if_neg fun e => ?_]
    · exact h.ahead hs i hi
    · exact Nat.not_le_of_lt hlt (Option.some.inj e ▸ hi)

theorem replace? {old new : NodeId} (hold : s.IsCall old) (hnew : s.IsCall new)
    (hs : s.replace? (some old) (some new) = some s') : Quiet s s' := by
  have hlt : ∀ {m}, s.IsCall m → m < s.size := by
    rintro m ⟨_, _, _, hm⟩
    exact lt_size_of_form? hm
  have hkept : ∀ m, m ≠ old → m ≠ new → s'.attachedTo (some m) = s.attachedTo (some m) :=
    fun m ho hn => attachedTo_replace? hs (by simpa using ho) (by simpa using hn)
  refine ⟨(size_replace? hs).ge, fun i _ => ?_, fun i _ hcall => ?_, fun hahead i hi => ?_⟩
  · unfold IsCall
    rcases form?_replace? hs (some i) with heq | heq <;> rw [heq]
    cases s.form? (some i) with
    | none => rfl
    | some form =>
      simp only [Option.map_some, Option.some_inj, ← Form.isCall_iff, Form.isCall_mapSlots]
  · exact hkept i (fun e => hcall (e ▸ hold)) fun e => hcall (e ▸ hnew)
  · rw [size_replace? hs] at hi
    rw [hkept i (fun e => ?_) fun e => ?_, hahead i hi]
    · exact Nat.not_le_of_lt (hlt hold) (e ▸ hi)
    · exact Nat.not_le_of_lt (hlt hnew) (e ▸ hi)

end Quiet

end Store

namespace ClassIdiom

variable {s : Store} {a : BaseCall}

theorem quiet_makeCall (a : BaseCall) (s : Store) : Quiet s (makeCall a s).2 := by
  have hexpands := (expands_superTarget a.method s).trans (expands_newArguments a.handed _)
  refine (Quiet.of_expands hexpands ?_).trans (.synthesize ..)
  obtain ⟨_, method, handed⟩ := a
  cases method <;> cases handed <;> rfl

theorem quiet_convertCall (h : s.IsCall a.call) : Quiet s (convertCall a s).2 := by
  have hmake := quiet_makeCall a s
  obtain ⟨_, _, _, hcall⟩ := h
  have hold : (makeCall a s).2.IsCall a.call :=
    (hmake.isCall_iff a.call (lt_size_of_form? hcall)).2 ⟨_, _, _, hcall⟩
  have hnew : (makeCall a s).2.IsCall (makeCall a s).1 := ⟨_, _, _, form?_synthesize ..⟩
  rw [convertCall, replaceCall_eq]
  dsimp only
  cases hs : (makeCall a s).2.replace? (some a.call) (some (makeCall a s).1) with
  | none => exact hmake
  | some s' => exact hmake.trans (.replace? hold hnew hs)

theorem quiet_convertCalls {calls : List BaseCall} (h : ∀ a ∈ calls, s.IsCall a.call) :
    Quiet s (convertCalls calls s).2 := by
  induction calls generalizing s with
  | nil => exact .refl s
  | cons a calls ih =>
    have hfirst := quiet_convertCall (h a List.mem_cons_self)
    refine hfirst.trans (ih fun b hb => ?_)
    have hb := h b (List.mem_cons_of_mem a hb)
    obtain ⟨_, _, _, hcall⟩ := hb
    exact (hfirst.isCall_iff b.call (lt_size_of_form? hcall)).2 ⟨_, _, _, hcall⟩

theorem isCall_of_forwarded? {n : NodeId} {path : List String} {f : Forwarded}
    (h : forwarded? s (some n) path = some f) : s.IsCall n := by
  unfold forwarded? at h
  split at h
  · exact ⟨_, _, _, by assumption⟩
  · cases h

theorem quiet_convertMethodCalls (base : BaseClass) (body : Slot) (s : Store) :
    Quiet s (convertMethodCalls base body s).2 := by
  rw [convertMethodCalls_eq]
  refine quiet_convertCalls fun a ha => ?_
  obtain ⟨n, -, h⟩ := List.mem_filterMap.1 ha
  obtain ⟨m, hm, rfl⟩ := Option.map_eq_some_iff.1 h
  obtain ⟨path, hpath⟩ := forwarded?_of_methodCall? hm
  exact isCall_of_forwarded? hpath

theorem quiet_convertConstructorCalls (base : BaseClass) (body : Slot) (s : Store) :
    Quiet s (convertConstructorCalls base body s).2 := by
  rw [convertConstructorCalls_eq]
  refine quiet_convertCalls fun a ha => ?_
  obtain ⟨-, statement, -, hc⟩ := mem_constructorCalls.1 ha
  exact isCall_of_forwarded? (constructorCall?_eq_some.1 hc).2

end ClassIdiom

/-! Comments that are handed out. -/

namespace Store

variable {s s' : Store} {sources : List Slot}

def commentsAround (s : Store) (sources : List Slot) : List Nat :=
  sources.flatMap fun x => s.leadingComments x ++ s.trailingComments x

def Standing (s : Store) (sources : List Slot) : Prop :=
  ∀ x ∈ sources, ∃ i, x = some i ∧ i < s.size ∧ ¬ s.IsCall i

theorem Standing.of_quiet (h : s.Standing sources) (hq : Quiet s s') : s'.Standing sources := by
  intro x hx
  obtain ⟨i, rfl, hi, hcall⟩ := h x hx
  exact ⟨i, rfl, Nat.lt_of_lt_of_le hi hq.size_le, fun hc => hcall ((hq.isCall_iff i hi).1 hc)⟩

theorem commentsAround_eq (h : s.Standing sources) (hq : Quiet s s') :
    s'.commentsAround sources = s.commentsAround sources := by
  refine List.flatMap_congr fun x hx => ?_
  obtain ⟨i, rfl, hi, hcall⟩ := h x hx
  simp only [leadingComments, trailingComments, hq.attached i hi hcall]

theorem commentsOf_eq (h : s.Standing sources) (hq : Quiet s s') :
    s'.commentsOf sources = s.commentsOf sources :=
  congrArg firstOccurrences (commentsAround_eq h hq)

/-- The node has just these comments, all before it. -/
structure Commented (s : Store) (x : NodeId) (comments : List Nat) : Prop where
  lt_size : x < s.size
  not_call : ¬ s.IsCall x
  attached : s.attachedTo (some x) = ⟨comments, []⟩

namespace Commented

variable {x : NodeId} {comments : List Nat}

theorem of_quiet (h : s.Commented x comments) (hq : Quiet s s') : s'.Commented x comments where
  lt_size := Nat.lt_of_lt_of_le h.lt_size hq.size_le
  not_call hc := h.not_call ((hq.isCall_iff x h.lt_size).1 hc)
  attached := (hq.attached x h.lt_size h.not_call).trans h.attached

theorem leading (h : s.Commented x comments) : s.leadingComments (some x) = comments := by
  rw [leadingComments, h.attached]

theorem trailing (h : s.Commented x comments) : s.trailingComments (some x) = [] := by
  rw [trailingComments, h.attached]

theorem synthesize (h : s.NoneAhead) {form : Form}
    (hform : ∀ callee arguments isOptional, form ≠ .call callee arguments isOptional) :
    (s.synthesize form).2.Commented s.size [] where
  lt_size := by simp
  not_call := not_isCall_of_form (form?_synthesize s form) hform
  attached := h s.size (Nat.le_refl _)

theorem attachLeading (h : s.Commented x []) (comments : List Nat) :
    (s.attachLeading (some x) comments).Commented x comments where
  lt_size := h.lt_size
  not_call := h.not_call
  attached := by rw [Store.attachLeading, attachedTo_setAttached, if_pos rfl, h.attached]; rfl

end Commented

end Store

namespace Rule

variable {s s' : Store} {sources : List Slot} {groups : List (List Slot)} {placed : List Nat}
  {i : Nat}

theorem mem_commentsLeft :
    i ∈ commentsLeft s sources placed ↔ i ∈ s.commentsAround sources ∧ i ∉ placed := by
  rw [commentsLeft, List.mem_filter, commentsOf, mem_firstOccurrences]
  simp [commentsAround]

theorem nodup_commentsLeft (s : Store) (sources : List Slot) (placed : List Nat) :
    (commentsLeft s sources placed).Nodup :=
  (nodup_firstOccurrences _).filter _

theorem commentsLeft_sublist (s : Store) (sources : List Slot) (placed : List Nat) :
    (commentsLeft s sources placed).Sublist (s.commentsAround sources) :=
  List.filter_sublist.trans (firstOccurrences_sublist _)

theorem commentsLeft_eq (h : s.Standing sources) (hq : Quiet s s') (placed : List Nat) :
    commentsLeft s' sources placed = commentsLeft s sources placed := by
  rw [commentsLeft, commentsLeft, commentsOf_eq h hq]

def shares (s : Store) : List (List Slot) → List Nat → List (List Nat)
  | [], _ => []
  | sources :: groups, placed =>
    commentsLeft s sources placed :: shares s groups (placed ++ commentsLeft s sources placed)

theorem shares_eq (h : ∀ sources ∈ groups, s.Standing sources) (hq : Quiet s s')
    (placed : List Nat) : shares s' groups placed = shares s groups placed := by
  induction groups generalizing placed with
  | nil => rfl
  | cons sources groups ih =>
    rw [shares, shares, commentsLeft_eq (h sources List.mem_cons_self) hq,
      ih fun sources' h' => h sources' (List.mem_cons_of_mem _ h')]

theorem nodup_shares (s : Store) (groups : List (List Slot)) (h : placed.Nodup) :
    (placed ++ (shares s groups placed).flatten).Nodup := by
  induction groups generalizing placed with
  | nil => simpa [shares] using h
  | cons sources groups ih =>
    rw [shares, List.flatten_cons, ← List.append_assoc]
    refine ih (h.append (nodup_commentsLeft s sources placed) fun i hi hleft => ?_)
    exact (mem_commentsLeft.1 hleft).2 hi

theorem mem_shares :
    i ∈ placed ++ (shares s groups placed).flatten ↔
      i ∈ placed ∨ ∃ sources ∈ groups, i ∈ s.commentsAround sources := by
  induction groups generalizing placed with
  | nil => simp [shares]
  | cons sources groups ih =>
    rw [shares, List.flatten_cons, ← List.append_assoc, ih, List.mem_append, mem_commentsLeft]
    by_cases hi : i ∈ placed
    · simp [hi]
    · simp [hi]

theorem forall₂_shares (s : Store) (groups : List (List Slot)) (placed : List Nat) :
    List.Forall₂ (fun sources share => share.Sublist (s.commentsAround sources)) groups
      (shares s groups placed) := by
  induction groups generalizing placed with
  | nil => exact .nil
  | cons sources groups ih => exact .cons (commentsLeft_sublist s sources placed) (ih _)

/-! Making a class. -/

variable {base : Option BaseClass} {c : Candidate} {m : Member} {ms : List Member}

theorem quiet_convertMember (base : Option BaseClass) (m : Member) (s : Store) :
    Quiet s (convertMember base m s) := by
  unfold convertMember
  split
  · cases base with
    | none => exact .refl s
    | some base => exact quiet_convertMethodCalls base _ s
  · exact .refl s

theorem makeMember_attached (base : Option BaseClass) (m : Member) (placed : List Nat) (s : Store) :
    let s₁ := (makeKey m.name (convertMember base m s)).2
    let made := (s₁.synthesize (memberForm m (convertMember base m s).size)).2
    let comments := commentsLeft made m.commentSources placed
    makeMember base m placed s =
      ((s₁.size, placed ++ comments), made.attachLeading (some s₁.size) comments) := by
  rw [makeMember_eq]
  rfl

theorem quiet_makeKey (base : Option BaseClass) (m : Member) (s : Store) :
    Quiet s (makeKey m.name (convertMember base m s)).2 :=
  (quiet_convertMember base m s).trans (.synthesize _ (keyForm m.name))

theorem quiet_makeMember (base : Option BaseClass) (m : Member) (placed : List Nat) (s : Store) :
    Quiet s (makeMember base m placed s).2 := by
  have hkeyed := quiet_makeKey base m s
  rw [makeMember_attached]
  exact (hkeyed.trans (.synthesize ..)).attachLeading hkeyed.size_le (by simp) _

theorem quiet_makeMembers (base : Option BaseClass) (ms : List Member) (placed : List Nat)
    (s : Store) : Quiet s (makeMembers base ms placed s).2 := by
  induction ms generalizing s placed with
  | nil => exact .refl s
  | cons m ms ih => exact (quiet_makeMember base m placed s).trans (ih ..)

theorem quiet_convertConstructor (c : Candidate) (s : Store) :
    Quiet s (convertConstructor c s) := by
  unfold convertConstructor
  cases c.base with
  | none => exact .refl s
  | some base =>
    exact (quiet_convertConstructorCalls base _ s).trans (quiet_convertMethodCalls base _ _)

theorem quiet_makeHead (c : Candidate) (s : Store) : Quiet s (makeHead c s).2 := by
  rw [makeHead_eq]
  split
  · rw [makeConstructor_eq]
    exact (quiet_convertConstructor c s).trans (.synthesize ..)
  · exact .refl s

theorem quiet_makeRest (c : Candidate) (s : Store) : Quiet (makeHead c s).2 (makeRest c s).2 :=
  quiet_makeMembers ..

theorem makeClass_attached (c : Candidate) (s : Store) :
    let named := ((makeRest c s).2.synthesize (.identifier c.name)).2
    makeClass c s = (.of (some c.container) c.statement c.removals [some named.size],
      (named.synthesize (classForm c s)).2.attachLeading (some named.size)
        (s.commentsOf c.commentSources)) := by
  rw [makeClass_eq]
  rfl

theorem quiet_makeClass_of_rest (c : Candidate) (s : Store) :
    Quiet (makeRest c s).2 (makeClass c s).2 := by
  have hnamed : Quiet (makeRest c s).2 ((makeRest c s).2.synthesize (.identifier c.name)).2 :=
    .synthesize ..
  rw [makeClass_attached]
  exact (hnamed.trans (.synthesize ..)).attachLeading hnamed.size_le (by simp) _

theorem quiet_makeClass (c : Candidate) (s : Store) : Quiet s (makeClass c s).2 :=
  ((quiet_makeHead c s).trans (quiet_makeRest c s)).trans (quiet_makeClass_of_rest c s)

theorem quiet_makeClasses (cs : List Candidate) (s : Store) :
    Quiet s (cs.mapM makeClass s).2 := by
  induction cs generalizing s with
  | nil => exact .refl s
  | cons c cs ih =>
    rw [List.mapM_cons]
    exact (quiet_makeClass c s).trans (ih _)

theorem commented_makeMember (hahead : s.NoneAhead) (hm : s.Standing m.commentSources)
    (base : Option BaseClass) (placed : List Nat) :
    let comments := commentsLeft s m.commentSources placed
    (makeMember base m placed s).1.2 = placed ++ comments ∧
      (makeMember base m placed s).2.Commented (makeMember base m placed s).1.1 comments := by
  have hkeyed := quiet_makeKey base m s
  rw [makeMember_attached]
  dsimp only
  rw [commentsLeft_eq hm (hkeyed.trans (.synthesize ..))]
  exact ⟨rfl, (Commented.synthesize (hkeyed.ahead hahead) (by simp [memberForm])).attachLeading _⟩

theorem commented_makeMembers (hahead : s.NoneAhead)
    (hms : ∀ m ∈ ms, s.Standing m.commentSources) (base : Option BaseClass) (placed : List Nat) :
    List.Forall₂ (Commented (makeMembers base ms placed s).2) (makeMembers base ms placed s).1
      (shares s (ms.map (·.commentSources)) placed) := by
  induction ms generalizing s placed with
  | nil => exact .nil
  | cons m ms ih =>
    have hfirst := quiet_makeMember base m placed s
    obtain ⟨hplaced, hcommented⟩ :=
      commented_makeMember hahead (hms m List.mem_cons_self) base placed
    have hrest : ∀ m' ∈ ms, s.Standing m'.commentSources := fun m' hm' =>
      hms m' (List.mem_cons_of_mem m hm')
    -- making the first member does not change what the sources of the others have
    have hall := ih (hfirst.ahead hahead) (fun m' hm' => (hrest m' hm').of_quiet hfirst)
      (makeMember base m placed s).1.2
    have hshares := shares_eq (List.forall_mem_map.2 hrest) hfirst (makeMember base m placed s).1.2
    rw [hshares] at hall
    rw [List.map_cons, shares, ← hplaced]
    exact .cons (hcommented.of_quiet (quiet_makeMembers ..)) hall

theorem commented_makeHead (hahead : s.NoneAhead) (c : Candidate) :
    ∀ x ∈ (makeHead c s).1, (makeHead c s).2.Commented x [] := by
  rw [makeHead_eq]
  split
  · rw [makeConstructor_eq]
    intro x hx
    rw [List.mem_singleton.1 hx]
    exact .synthesize ((quiet_convertConstructor c s).ahead hahead) (by simp [constructorForm])
  · simp

theorem commented_makeClass (hahead : s.NoneAhead)
    (hms : ∀ m ∈ c.members, s.Standing m.commentSources) :
    let comments := s.commentsOf c.commentSources
    let s' := (makeClass c s).2
    ∃ w, (makeClass c s).1 = .of (some c.container) c.statement c.removals [some w] ∧
      s'.form? (some w) = some (classForm c s) ∧ s'.Commented w comments ∧
      (∀ x ∈ (makeHead c s).1, s'.Commented x []) ∧
      List.Forall₂ s'.Commented (makeRest c s).1
        (shares s (c.members.map (·.commentSources)) comments) := by
  intro comments s'
  have hhead := quiet_makeHead c s
  have hrest := quiet_makeRest c s
  have hlast := quiet_makeClass_of_rest c s
  have hmembers := commented_makeMembers (hhead.ahead hahead)
    (fun m hm => (hms m hm).of_quiet hhead) c.base comments
  rw [shares_eq (List.forall_mem_map.2 hms) hhead] at hmembers
  let named := ((makeRest c s).2.synthesize (.identifier c.name)).2
  have hnamed : named.NoneAhead := (hrest.trans (.synthesize ..)).ahead (hhead.ahead hahead)
  refine ⟨named.size, by rw [makeClass_attached], ?_, ?_, fun x hx => ?_, ?_⟩
  · simp only [s', makeClass_attached]
    exact form?_synthesize named _
  · simp only [s', makeClass_attached]
    exact (Commented.synthesize hnamed (by simp [classForm])).attachLeading _
  · exact (commented_makeHead hahead c x hx).of_quiet (hrest.trans hlast)
  · exact hmembers.imp fun _ _ h => h.of_quiet hlast

/-! The sources of a candidate are statements and properties, and never calls. -/

theorem exists_standing {x : Slot} {form : Form} (hf : s.form? x = some form)
    (hform : ∀ callee arguments isOptional, form ≠ .call callee arguments isOptional) :
    s.Standing [x] := by
  intro y hy
  rw [List.mem_singleton.1 hy]
  obtain ⟨i, rfl, hi⟩ := exists_of_form? hf
  exact ⟨i, rfl, lt_size_of_form? hi, not_isCall_of_form hi hform⟩

theorem standing_of_constructor? {st : Slot} {name : String} {f : FunctionForm}
    (h : constructor? s st = some (name, f)) : s.Standing [st] := by
  unfold constructor? at h
  split at h
  · exact exists_standing (by assumption) (by simp)
  · exact exists_standing (by assumption) (by simp)
  · cases h

theorem standing_of_part {st : Slot} {className : String} (h : part s st className ≠ .unrelated) :
    s.Standing [st] := by
  unfold part at h
  split at h
  · exact exists_standing (by assumption) (by simp)
  · exact exists_standing (by assumption) (by simp)
  · exact absurd rfl h

theorem standing_of_objectMember? {st x : Slot} (h : objectMember? s st x = some m) :
    s.Standing [x] := by
  unfold objectMember? at h
  split at h
  · exact exists_standing (by assumption) (by simp)
  · exact exists_standing (by assumption) (by simp)
  · cases h

theorem standing_of_sourced (h : c.Sourced s) (hconstructor : s.Standing [c.statement]) :
    s.Standing c.commentSources ∧ ∀ m ∈ c.members, s.Standing m.commentSources := by
  have hremoved : ∀ x ∈ c.removals, s.Standing [x] := fun x hx => standing_of_part (h.parts x hx)
  refine ⟨fun x hx => ?_, fun m hm x hx => ?_⟩
  · rcases (h.mine x).1 hx with rfl | ⟨hx, -⟩
    · exact hconstructor _ (by simp)
    · exact hremoved x hx x (by simp)
  · rcases (h.members x).1 ⟨m, hm, hx⟩ with ⟨hx, -⟩ | ⟨st, -, ms, -, m', -, hproperty⟩
    · exact hremoved x hx x (by simp)
    · exact standing_of_objectMember? hproperty x (by simp)

/-- Going from `s` to `s'` a class `w` with a constructor and members is made of the candidate. The
comments of what the candidate takes up are before the class and its members and nowhere else
there, each once and in the order of the sources. -/
structure CommentsKept (s s' : Store) (c : Candidate) (w : NodeId) (head members : List NodeId) :
    Prop where
  once : ((w :: head ++ members).flatMap fun x => s'.leadingComments (some x)).Nodup
  kept : ∀ i, i ∈ (w :: head ++ members).flatMap (fun x => s'.leadingComments (some x)) ↔
    ∃ x, (x ∈ c.statement :: c.removals ∨ ∃ st ∈ c.removals, IsProperty s c.name st x) ∧
      i ∈ s.leadingComments x ++ s.trailingComments x
  before : ∀ x ∈ w :: head ++ members, s'.trailingComments (some x) = []
  ofClass : (s'.leadingComments (some w)).Sublist (s.commentsAround c.commentSources)
  ofConstructor : ∀ x ∈ head, s'.leadingComments (some x) = []
  ofMembers : List.Forall₂ (fun m x => (s'.leadingComments (some x)).Sublist
    (s.commentsAround m.commentSources)) c.members members

theorem map_leading {xs : List NodeId} {comments : List (List Nat)}
    (h : List.Forall₂ s.Commented xs comments) :
    xs.map (fun x => s.leadingComments (some x)) = comments := by
  induction h with
  | nil => rfl
  | cons hx _ ih => rw [List.map_cons, ih, hx.leading]

theorem commentsKept_of_commented {w : NodeId} {head members : List NodeId} (h : c.Sourced s)
    (hw : s'.Commented w (s.commentsOf c.commentSources)) (hhead : ∀ x ∈ head, s'.Commented x [])
    (hmembers : List.Forall₂ s'.Commented members
      (shares s (c.members.map (·.commentSources)) (s.commentsOf c.commentSources))) :
    CommentsKept s s' c w head members := by
  have hhead' : head.flatMap (fun x => s'.leadingComments (some x)) = [] :=
    List.flatMap_eq_nil_iff.2 fun x hx => (hhead x hx).leading
  -- the comments on the new nodes are the shares, those of the class first
  have hall : (w :: head ++ members).flatMap (fun x => s'.leadingComments (some x)) =
      s.commentsOf c.commentSources ++
        (shares s (c.members.map (·.commentSources)) (s.commentsOf c.commentSources)).flatten := by
    rw [List.flatMap_append, List.flatMap_cons, hhead', List.append_nil, hw.leading,
      ← map_leading hmembers, List.flatMap_def]
  refine ⟨?_, fun i => ?_, fun x hx => ?_, ?_, fun x hx => (hhead x hx).leading, ?_⟩
  · rw [hall]
    exact nodup_shares s _ (nodup_firstOccurrences _)
  · rw [hall, mem_shares, commentsOf, mem_firstOccurrences]
    simp only [← h.isSource_iff]
    constructor
    · rintro (hi | ⟨_, hsources, hi⟩)
      · obtain ⟨x, hx, hi⟩ := List.mem_flatMap.1 hi
        exact ⟨x, .inl hx, hi⟩
      · obtain ⟨m, hm, rfl⟩ := List.mem_map.1 hsources
        obtain ⟨x, hx, hi⟩ := List.mem_flatMap.1 hi
        exact ⟨x, .inr ⟨m, hm, hx⟩, hi⟩
    · rintro ⟨x, hx | ⟨m, hm, hx⟩, hi⟩
      · exact .inl (List.mem_flatMap.2 ⟨x, hx, hi⟩)
      · exact .inr ⟨_, List.mem_map_of_mem hm, List.mem_flatMap.2 ⟨x, hx, hi⟩⟩
  · rcases List.mem_append.1 hx with hx | hx
    · rcases List.mem_cons.1 hx with rfl | hx
      · exact hw.trailing
      · exact (hhead x hx).trailing
    · obtain ⟨_, -, hx⟩ := exists_rel_of_mem hmembers.flip hx
      exact hx.trailing
  · rw [hw.leading]
    exact firstOccurrences_sublist _
  · have hshares := forall₂_shares s (c.members.map (·.commentSources))
      (s.commentsOf c.commentSources)
    rw [← map_leading hmembers, List.forall₂_map_left_iff, List.forall₂_map_right_iff] at hshares
    exact hshares

variable {root n : NodeId} {list : StatementList} {start : Nat}

theorem Made.commentsKept {s₁ : Store} {rs : List Replacement}
    (h : Made root n list c s s₁ s' rs) (hready : c.Ready s n list.statements)
    (hsourced : c.Sourced s) (hconstructor : s.Standing [c.statement]) (hahead : s.NoneAhead) :
    ∃ w id head members, .of (some n) c.statement c.removals [some w] ∈ rs ∧
      s'.form? (some w) = some (.classDeclaration
        ⟨some id, c.base.bind (·.node), .ofNodes ((head ++ members).map some)⟩) ∧
      List.Forall₂ (MadeMember s' root) c.members members ∧ CommentsKept s s' c w head members := by
  obtain ⟨hmine, hmembers⟩ := standing_of_sourced hsourced hconstructor
  have hbefore : Quiet s s₁ := by
    obtain ⟨cs, rfl⟩ := h.earlier
    exact quiet_makeClasses cs s
  have hafter : Quiet (makeClass c s₁).2 s' := by
    obtain ⟨cs, rfl⟩ := h.later
    exact quiet_makeClasses cs _
  obtain ⟨w, hw, hform, hcommented, hhead, hall⟩ := commented_makeClass (c := c)
    (hbefore.ahead hahead) fun m hm => (hmembers m hm).of_quiet hbefore
  obtain ⟨w', hw', -, -, id, head, members, hspare, -, -, hmade⟩ :=
    builds_makeClass h.before.tree h.sites h.stock h.block
  obtain rfl : w = w' := by
    rw [hw] at hw'
    simpa [Replacement.of] using hw'
  -- the class that is built is the one that has the comments
  obtain ⟨rfl, rfl⟩ : head = (makeHead c s₁).1 ∧ members = (makeRest c s₁).1 := by
    have hlength : members.length = (makeRest c s₁).1.length := by
      rw [← hmade.length_eq, hall.length_eq, ← (forall₂_shares ..).length_eq, List.length_map]
    have hnodes := hspare.form.symm.trans hform
    simp only [classForm, NodeList.ofNodes, Option.some.injEq, Form.classDeclaration.injEq,
      ClassForm.mk.injEq, NodeList.mk.injEq, and_true, true_and] at hnodes
    exact List.append_inj' (List.map_injective_iff.2 (Option.some_injective _) hnodes.2) hlength
  have hr := h.mem
  rw [hw, hready.container] at hr
  refine ⟨w, id, _, _, hr, (hspare.of_graft h.after).form,
    hmade.imp fun _ _ h' => h'.of_graft h.after, commentsKept_of_commented hsourced ?_ ?_ ?_⟩
  · rw [← commentsOf_eq hmine hbefore]
    exact hcommented.of_quiet hafter
  · exact fun x hx => (hhead x hx).of_quiet hafter
  · rw [← commentsOf_eq hmine hbefore, ← shares_eq (List.forall_mem_map.2 hmembers) hbefore]
    exact hall.imp fun _ _ h' => h'.of_quiet hafter

/-- Comments are conserved. Those of the constructor, of the statements that a candidate takes up and
of the properties that become members are before the class and its members in the end, and no
others are. -/
theorem commentsKept_visitContainer (t : s.TreeAt root) (hn : s.Below root n)
    (hlist : s.statementList? (some n) = some list) (hahead : s.NoneAhead)
    (hscan : scanFrom s n list.statements start ∈ scans s n list.statements)
    (hc : (scanFrom s n list.statements start).candidate = some c) :
    let s' := (visitContainer n s).2
    ∃ rs w id head members, (visitContainer n s).1.edit = .replaceStatements rs ∧
      .of (some n) c.statement c.removals [some w] ∈ rs ∧
      s'.form? (some w) = some (.classDeclaration
        ⟨some id, c.base.bind (·.node), .ofNodes ((head ++ members).map some)⟩) ∧
      List.Forall₂ (fun m x => ∃ key, s'.form? (some x) = some (memberForm m key))
        c.members members ∧
      CommentsKept s s' c w head members := by
  intro s'
  have hmem : c ∈ (scans s n list.statements).filterMap (·.candidate) :=
    List.mem_filterMap.2 ⟨_, hscan, hc⟩
  obtain ⟨length, hfound, -⟩ := found_of_candidate (t.nodup_statements hn hlist) hc
  obtain ⟨s₁, rs, hedit, hmade⟩ := made_visitContainer t hn hlist hmem
  obtain ⟨w, id, head, members, hr, hform, hmembers, hkept⟩ :=
    hmade.commentsKept ((ready_of_scans t hn hlist).1 c hmem) (sourced_of_candidate hc)
      (standing_of_constructor? hfound.constructor) hahead
  refine ⟨rs, w, id, head, members, hedit, hr, hform, hmembers.imp fun m x h => ?_, hkept⟩
  obtain ⟨key, hx, -⟩ := h
  exact ⟨key, hx.form⟩

theorem commentsKept_visitContainer_overwritten :
    let source := ("// 0\nfunction C(x) \x7b\x7d // 1\n// 2\nC.prototype = \x7b\n// 3\n" ++
      "m() \x7b\x7d, // 4\nk() \x7b\x7d\n\x7d;\n// 5\nC.prototype.m = function () \x7b\x7d;\n" ++
      "// 6\nObject.defineProperty(C.prototype, 'p', \x7b set(x) \x7b\x7d, get() \x7b\x7d \x7d); // 7").toList
    ∃ p list c rs w id head members, parse source = .ok p ∧
      p.store.statementList? (some p.root) = some list ∧
      (scanFrom p.store p.root list.statements 0).candidate = some c ∧
      p.store.commentsAround c.commentSources = [0, 1, 2] ∧
      c.members.map (fun m => (m.name, p.store.commentsAround m.commentSources)) =
        [("m", [3, 4, 5]), ("k", []), ("p", [6, 7]), ("p", [6, 7])] ∧
      (visitContainer p.root p.store).1.edit = .replaceStatements rs ∧
      .of (some p.root) c.statement c.removals [some w] ∈ rs ∧
      let s' := (visitContainer p.root p.store).2
      s'.form? (some w) = some (.classDeclaration
        ⟨some id, c.base.bind (·.node), .ofNodes ((head ++ members).map some)⟩) ∧
      CommentsKept p.store s' c w head members := by
  intro source
  have hscan : ∃ p ∈ (parse source).toOption,
      ∃ list ∈ p.store.statementList? (some p.root),
        scanFrom p.store p.root list.statements 0 ∈ scans p.store p.root list.statements ∧
        ∃ c ∈ (scanFrom p.store p.root list.statements 0).candidate,
          p.store.commentsAround c.commentSources = [0, 1, 2] ∧
          c.members.map (fun m => (m.name, p.store.commentsAround m.commentSources)) =
            [("m", [3, 4, 5]), ("k", []), ("p", [6, 7]), ("p", [6, 7])] := by
    decide +kernel
  obtain ⟨p, hp, list, hlist, hmem, c, hc, hmine, hmembers⟩ := exists_parse hscan
  obtain ⟨rs, w, id, head, members, hedit, hr, hform, -, hkept⟩ := commentsKept_visitContainer
    (treeAt_of_parse hp) .refl hlist (noneAhead_of_parse hp) hmem hc
  exact ⟨p, list, c, rs, w, id, head, members, hp, hlist, hc, hmine, hmembers, hedit, hr, hform,
    hkept⟩

end Rule

end Modernizer
