import Modernizer.Proofs.Parser.Program
import Modernizer.Proofs.Rule.ClassRun

/-! What a scan stands for. The statements that a candidate takes up are those between its constructor
and the place where the scan goes on, each once, and its members are the definitions in them, with
later ones in the places of earlier ones (`Consumed`). The scans of a container follow one another up
to its end (`Series`), so their candidates have no statement in common. -/

namespace Modernizer.ClassIdiom

open Store

variable {s : Store} {c c' : Candidate} {st : Slot} {l rest separators statements : List Slot}
  {ms members : List Member} {m : Member} {className : String} {p : Part} {n : NodeId} {start : Nat}

/-! Parts by themselves, in any store. -/

/-- The member is from an assignment or a property descriptor: its comments are those of the
statement, and it is no method `constructor`, unless a static one. -/
structure Member.Assigned (m : Member) (st : Slot) : Prop where
  statement : m.statement = st
  sources : m.commentSources = [st]
  reserved : m.name = "constructor" → m.isStatic = false → m.kind ≠ .method

/-- The part is one that the statement gives, and no separator. -/
structure Part.Given (p : Part) (s : Store) (st : Slot) : Prop where
  defines : ∀ ms, p = .members ms → ms ≠ []
  assigned : ∀ ms, p = .members ms → ∀ m ∈ ms, m.Assigned st
  properties : ∀ ms, p = .prototype ms → ∀ m ∈ ms, ∃ x, objectMember? s st x = some m
  functions : ∀ m ∈ p.memberList, HasFunction s st m.function
  firm : p ≠ .separator

namespace Part.Given

theorem of_no_members (hmembers : ∀ ms, p ≠ .members ms) (hprototype : ∀ ms, p ≠ .prototype ms)
    (hfirm : p ≠ .separator) : p.Given s st where
  defines ms hp := absurd hp (hmembers ms)
  assigned ms hp := absurd hp (hmembers ms)
  properties ms hp := absurd hp (hprototype ms)
  functions m hm := by
    cases p with
    | members ms => exact absurd rfl (hmembers ms)
    | prototype ms => exact absurd rfl (hprototype ms)
    | _ => cases hm
  firm := hfirm

theorem unrelated : Part.unrelated.Given s st := .of_no_members (by simp) (by simp) (by simp)

theorem unsupported : Part.unsupportedDescriptor.Given s st :=
  .of_no_members (by simp) (by simp) (by simp)

theorem constructorLink : Part.constructorLink.Given s st :=
  .of_no_members (by simp) (by simp) (by simp)

theorem defining (hms : ms ≠ []) (h : ∀ m ∈ ms, m.Assigned st)
    (hfunctions : ∀ m ∈ ms, HasFunction s st m.function) : (Part.members ms).Given s st := by
  refine ⟨?_, ?_, by simp, hfunctions, by simp⟩
  · rintro _ ⟨⟩
    exact hms
  · rintro _ ⟨⟩
    exact h

theorem extending (base : Slot) (className : String) :
    (((baseClass? s base className).map Part.inheritance).getD .unrelated).Given s st := by
  cases baseClass? s base className with
  | none => exact unrelated
  | some base => exact .of_no_members (by simp) (by simp) (by simp)

end Part.Given

theorem sources_of_objectMember? {property : Slot} (h : objectMember? s st property = some m) :
    m.statement = st ∧ m.commentSources = [property] := by
  unfold objectMember? at h
  split at h
  · simp only [Option.bind_eq_bind, Option.bind_eq_some_iff] at h
    obtain ⟨key, -, f, -, h⟩ := h
    cases h
    exact ⟨rfl, rfl⟩
  · split at h
    · cases h
    · simp only [Option.bind_eq_bind, Option.bind_eq_some_iff] at h
      obtain ⟨key, -, f, -, h⟩ := h
      cases h
      exact ⟨rfl, rfl⟩
  · cases h

theorem Part.Given.statement (h : p.Given s st) : ∀ m ∈ p.memberList, m.statement = st := by
  cases p with
  | members ms => exact fun m hm => (h.assigned ms rfl m hm).statement
  | prototype ms =>
    intro m hm
    obtain ⟨x, hx⟩ := h.properties ms rfl m hm
    exact (sources_of_objectMember? hx).1
  | _ => simp [memberList]

theorem given_prototypePart (s : Store) (st value : Slot) (className : String)
    (hv : ∀ f, HasFunction s value f → HasFunction s st f) :
    (prototypePart s st value className).Given s st := by
  unfold prototypePart
  dsimp only
  split
  · split
    · split
      · exact .extending _ _
      · exact .unrelated
    · exact .unrelated
  · split
    · exact .unrelated
    · exact .extending _ _
  · rename_i properties hobject
    cases hms : properties.nodes.mapM (objectMember? s st) with
    | none => exact .unrelated
    | some ms =>
      have hproperty : ∀ m ∈ ms, ∃ x ∈ properties.nodes, objectMember? s st x = some m := by
        intro m hm
        obtain ⟨i, hi, hm⟩ := (members_of_properties hms).2 m hm
        exact ⟨some i, mem_present.1 hi, hm⟩
      refine ⟨by simp, by simp, ?_, fun m hm => ?_, by simp⟩
      · rintro _ ⟨⟩ m hm
        obtain ⟨x, -, hx⟩ := hproperty m hm
        exact ⟨x, hx⟩
      · obtain ⟨x, hmem, hx⟩ := hproperty m hm
        exact hv _ ((HasFunction.of_objectMember? hx).up hobject hmem)
  · exact .unrelated

theorem given_assignedMethod (s : Store) (st right : Slot) {name : String} {isStatic : Bool}
    (h : name = "constructor" → isStatic = true)
    (hr : ∀ f, HasFunction s right f → HasFunction s st f) :
    (match s.plainFunction? right with
      | some f => Part.members [⟨name, .method, isStatic, f, st, [st]⟩]
      | none => .unrelated).Given s st := by
  cases hf : s.plainFunction? right with
  | none => exact .unrelated
  | some f =>
    refine .defining (by simp) (fun m hm => ?_) fun m hm => ?_
    · rw [List.mem_singleton.1 hm]
      refine ⟨rfl, rfl, fun hname hstatic => ?_⟩
      exact absurd ((h hname).symm.trans hstatic) (by simp)
    · rw [List.mem_singleton.1 hm]
      exact hr f (.of_plainFunction? hf)

theorem given_assignmentPart (s : Store) (st left right : Slot) (className : String)
    (hr : ∀ f, HasFunction s right f → HasFunction s st f) :
    (assignmentPart s st left right className).Given s st := by
  have hvalue : ∀ f, HasFunction s (s.skipParentheses right) f → HasFunction s st f :=
    fun f hf => hr f hf.of_skipParentheses
  unfold assignmentPart
  dsimp only
  split
  · split
    · exact .unrelated
    · split
      · split
        · exact .constructorLink
        · exact .unrelated
      · rename_i hother _
        exact given_assignedMethod s st _ (fun hname => absurd hname hother) hvalue
      · exact given_prototypePart s st _ className hvalue
      · exact given_assignedMethod s st _ (fun _ => rfl) hvalue
      · exact .unrelated
  · exact .unrelated

theorem given_definedPart (s : Store) (st key descriptor : Slot) (isStatic : Bool)
    (hd : ∀ f, HasFunction s descriptor f → HasFunction s st f) :
    (match s.form? key, s.form? descriptor with
      | some (.stringLiteral name), some (.object properties) =>
        match descriptorAccessors? s properties.nodes none none with
        | some (getter, setter) =>
          let member := fun kind f => (⟨name, kind, isStatic, f, st, [st]⟩ : Member)
          match (getter.map (member .getter)).toList ++ (setter.map (member .setter)).toList with
          | [] => Part.unsupportedDescriptor
          | members => .members members
        | none => .unsupportedDescriptor
      | _, _ => .unsupportedDescriptor).Given s st := by
  split
  · rename_i properties _ hobject
    split
    · rename_i getter setter haccessors
      obtain ⟨hgetter, hsetter⟩ := HasFunction.of_descriptorAccessors?
        (fun x hx f hf => hd f (hf.up hobject hx)) (by simp) (by simp) haccessors
      have hget : ∀ name f, (⟨name, .getter, isStatic, f, st, [st]⟩ : Member).Assigned st :=
        fun _ _ => ⟨rfl, rfl, by simp⟩
      have hset : ∀ name f, (⟨name, .setter, isStatic, f, st, [st]⟩ : Member).Assigned st :=
        fun _ _ => ⟨rfl, rfl, by simp⟩
      cases getter <;> cases setter
      · exact .unsupported
      · exact .defining (by simp) (by simpa using hset _ _) (by simpa using hsetter)
      · exact .defining (by simp) (by simpa using hget _ _) (by simpa using hgetter)
      · exact .defining (by simp) (by simpa using ⟨hget _ _, hset _ _⟩)
          (by simpa using ⟨hgetter _ rfl, hsetter _ rfl⟩)
    · exact .unsupported
  · exact .unsupported

theorem given_descriptorPart (s : Store) (st target key descriptor : Slot) (className : String)
    (hd : ∀ f, HasFunction s descriptor f → HasFunction s st f) :
    (descriptorPart s st target key descriptor className).Given s st := by
  unfold descriptorPart
  dsimp only
  split
  · split
    · exact given_definedPart s st key descriptor _ hd
    · split
      · exact given_definedPart s st key descriptor _ hd
      · exact .unrelated
  · exact .unrelated

theorem given_callPart (s : Store) (st callee : Slot) (arguments : List Slot) (className : String)
    (ha : ∀ x ∈ arguments, ∀ f, HasFunction s x f → HasFunction s st f) :
    (callPart s st callee arguments className).Given s st := by
  unfold callPart
  split
  · split
    · exact .extending _ _
    · exact .unrelated
  · split
    · exact .extending _ _
    · exact .unrelated
  · exact given_descriptorPart s st _ _ _ className (ha _ (by simp))
  · exact .unrelated

theorem part_cases (s : Store) (st : Slot) (className : String) :
    (s.form? st = some .emptyStatement ∧ part s st className = .separator) ∨
      (s.form? st ≠ some .emptyStatement ∧ (part s st className).Given s st) := by
  unfold part
  split
  · rename_i hf
    exact .inl ⟨hf, rfl⟩
  · rename_i e hf
    refine .inr ⟨by simp [hf], ?_⟩
    have hexpression : ∀ f, HasFunction s (s.skipParentheses e) f → HasFunction s st f :=
      fun f h => h.of_skipParentheses.up hf List.mem_cons_self
    split
    · rename_i hassignment
      refine given_assignmentPart s st _ _ className fun f h => hexpression f (h.up hassignment ?_)
      exact List.mem_cons_of_mem _ List.mem_cons_self
    · rename_i hcall
      refine given_callPart s st _ _ className fun x hx f h => hexpression f (h.up hcall ?_)
      exact List.mem_cons_of_mem _ hx
    · exact .unrelated
  · rename_i hnone _
    exact .inr ⟨hnone, .unrelated⟩

theorem part_eq_separator_iff :
    part s st className = .separator ↔ s.form? st = some .emptyStatement := by
  rcases part_cases s st className with ⟨hf, hp⟩ | ⟨hf, hp⟩
  · exact iff_of_true hp hf
  · exact iff_of_false hp.firm hf

/-- The definitions of members in some statements, one after the other. A property descriptor defines
its getter first, as it is read first. -/
def definitions (s : Store) (className : String) (l : List Slot) : List Member :=
  l.flatMap fun st => (part s st className).memberList

theorem definitions_append (l l' : List Slot) :
    definitions s className (l ++ l') = definitions s className l ++ definitions s className l' :=
  List.flatMap_append

theorem definitions_separators (h : ∀ x ∈ separators, part s x className = .separator) :
    definitions s className separators = [] := by
  refine List.flatMap_eq_nil_iff.2 fun x hx => ?_
  rw [h x hx]
  rfl

theorem statement_of_mem_definitions (h : m ∈ definitions s className l) : m.statement ∈ l := by
  obtain ⟨st, hst, hm⟩ := List.mem_flatMap.1 h
  rcases part_cases s st className with ⟨-, hp⟩ | ⟨-, hp⟩
  · rw [hp] at hm
    cases hm
  · exact hp.statement m hm ▸ hst

/-! Taking up statements. -/

theorem insertNew_of_mem {xs : List Slot} (h : st ∈ xs) : insertNew xs st = xs :=
  if_pos (by simpa using h)

theorem insertNew_of_not_mem {xs : List Slot} (h : st ∉ xs) : insertNew xs st = xs ++ [st] :=
  if_neg (by simpa using h)

theorem foldl_insertNew_of_mem {xs ys : List Slot} (h : ∀ y ∈ ys, y ∈ xs) :
    ys.foldl insertNew xs = xs := by
  induction ys with
  | nil => rfl
  | cons y ys ih =>
    rw [List.foldl_cons, insertNew_of_mem (h y List.mem_cons_self)]
    exact ih fun z hz => h z (List.mem_cons_of_mem _ hz)

/-- A part that is taken up adds its statement to the removals and its definitions to the members. -/
theorem take?_eq (h : p.Given s st) (hst : st ∉ c.removals) (hc' : c.take? st p = some c') :
    c'.removals = c.removals ++ [st] ∧ c'.members = p.memberList.foldl Member.insert c.members := by
  have hnew : insertNew c.removals st = c.removals ++ [st] := insertNew_of_not_mem hst
  have hsame : ∀ ms : List Member, (∀ m ∈ ms, m.statement = st) →
      (ms.map (·.statement)).foldl insertNew (c.removals ++ [st]) = c.removals ++ [st] := by
    intro ms hms
    refine foldl_insertNew_of_mem fun y hy => ?_
    obtain ⟨m, hm, rfl⟩ := List.mem_map.1 hy
    simp [hms m hm]
  cases p with
  | members ms =>
    cases hc'
    rw [addMembers_eq]
    obtain ⟨m, ms, rfl⟩ := List.exists_cons_of_ne_nil (h.defines ms rfl)
    have hm : m.statement = st := h.statement m List.mem_cons_self
    refine ⟨?_, rfl⟩
    change ((m :: ms).map (·.statement)).foldl insertNew c.removals = _
    rw [List.map_cons, List.foldl_cons, hm, hnew]
    exact hsame ms fun m' hm' => h.statement m' (List.mem_cons_of_mem _ hm')
  | prototype ms =>
    simp only [Candidate.take?] at hc'
    split at hc'
    · cases hc'
    · cases hc'
      rw [addMembers_eq]
      refine ⟨?_, rfl⟩
      change (ms.map (·.statement)).foldl insertNew (insertNew c.removals st) = _
      rw [hnew]
      exact hsame ms h.statement
  | inheritance base =>
    simp only [Candidate.take?] at hc'
    split at hc'
    · cases hc'
    · cases hc'
      exact ⟨hnew, rfl⟩
  | constructorLink =>
    cases hc'
    exact ⟨hnew, rfl⟩
  | separator => cases hc'
  | unsupportedDescriptor => cases hc'
  | unrelated => cases hc'

theorem absorbAll_eq (h : (c.removals ++ separators).Nodup) :
    (separators.foldl Candidate.absorb c).removals = c.removals ++ separators ∧
      (separators.foldl Candidate.absorb c).members = c.members ∧
      SameClass c (separators.foldl Candidate.absorb c) := by
  induction separators generalizing c with
  | nil => exact ⟨by simp, rfl, .refl c⟩
  | cons st separators ih =>
    have hst : st ∉ c.removals := by
      intro hst
      exact List.disjoint_of_nodup_append h hst List.mem_cons_self
    have hremovals : (c.absorb st).removals = c.removals ++ [st] := insertNew_of_not_mem hst
    obtain ⟨hr, hm, hsame⟩ := ih (c := c.absorb st) (by rw [hremovals]; simpa using h)
    refine ⟨?_, hm, (SameClass.absorb c st).trans hsame⟩
    rw [List.foldl_cons, hr, hremovals, List.append_assoc, List.singleton_append]

/-- The candidate has taken up these statements and no others, and has the members that they
define. -/
structure Consumed (s : Store) (c : Candidate) (l : List Slot) : Prop where
  nodes : ∀ x ∈ l, ∃ i, x = some i
  removals : c.removals.Perm l
  members : c.members = (definitions s c.name l).foldl Member.insert []

theorem exists_of_take? (h : c.take? st (part s st className) = some c') : ∃ i, st = some i := by
  cases st with
  | none => cases h
  | some i => exact ⟨i, rfl⟩

theorem exists_of_separator (h : part s st className = .separator) : ∃ i, st = some i := by
  obtain ⟨i, hi, -⟩ := exists_of_form? (part_eq_separator_iff.1 h)
  exact ⟨i, hi⟩

theorem nodup_present (h : l.Nodup) : (present l).Nodup :=
  h.filterMap fun a b c ha hb => by
    cases ha
    exact hb.symm

theorem nodup_of_present (hl : ∀ x ∈ l, ∃ i, x = some i) (h : (present l).Nodup) : l.Nodup := by
  refine (List.pairwise_filterMap.1 h).imp_of_mem fun {a b} ha hb hne e => ?_
  obtain ⟨i, rfl⟩ := hl a ha
  exact hne i rfl i (e ▸ rfl) rfl

theorem Consumed.step (h : Consumed s c l) (hgiven : (part s st c.name).Given s st)
    (hsep : ∀ x ∈ separators, part s x c.name = .separator)
    (hdistinct : (present (l ++ separators ++ [st])).Nodup)
    (hc' : c.take? st (part s st c.name) = some c') :
    Consumed s (separators.foldl Candidate.absorb c') (l ++ separators ++ [st]) ∧
      SameClass c (separators.foldl Candidate.absorb c') := by
  have hall : ∀ x ∈ l ++ separators ++ [st], ∃ i, x = some i := by
    intro x hx
    rcases List.mem_append.1 hx with hx | hx
    · exact (List.mem_append.1 hx).elim (h.nodes x) fun hx => exists_of_separator (hsep x hx)
    · exact List.mem_singleton.1 hx ▸ exists_of_take? hc'
  have hperm : (c.removals ++ [st] ++ separators).Perm (l ++ separators ++ [st]) := by
    rw [List.append_assoc, List.append_assoc]
    exact h.removals.append List.perm_append_comm
  have hnodup : (c.removals ++ [st] ++ separators).Nodup :=
    hperm.nodup_iff.2 (nodup_of_present hall hdistinct)
  have hst : st ∉ c.removals := by
    intro hst
    rw [List.append_assoc] at hnodup
    exact List.disjoint_of_nodup_append hnodup hst (by simp)
  obtain ⟨hremovals, hmembers⟩ := take?_eq hgiven hst hc'
  have htaken : SameClass c c' := SameClass.take? hc'
  obtain ⟨hr, hm, hsame⟩ := absorbAll_eq (c := c') (hremovals ▸ hnodup)
  have hclass : SameClass c (separators.foldl Candidate.absorb c') := htaken.trans hsame
  refine ⟨⟨hall, ?_, ?_⟩, hclass⟩
  · rw [hr, hremovals]
    exact hperm
  · have hstatement : definitions s c.name [st] = (part s st c.name).memberList := by
      simp [definitions]
    rw [hm, hmembers, h.members, hclass.name, definitions_append, definitions_append,
      definitions_separators hsep, List.append_nil, hstatement, List.foldl_append]

/-- How far a run has come: it has taken up the first statements of a list, and the last of them is no
separator. -/
structure Reached (s : Store) (c : Candidate) (all : List Slot) (length : Nat) : Prop where
  consumed : Consumed s c (all.take length)
  bound : length ≤ all.length
  last : ∀ x ∈ (all.take length).getLast?, part s x c.name ≠ .separator

theorem Reached.stop (h : Consumed s c l) (hlast : ∀ x ∈ l.getLast?, part s x c.name ≠ .separator) :
    Reached s c (l ++ rest) l.length := by
  refine ⟨?_, by simp, ?_⟩
  · rw [List.take_left]
    exact h
  · rw [List.take_left]
    exact hlast

/-- A run takes up statements in sequence and leaves separators alone that nothing follows. -/
theorem reached_run (h : Consumed s c l) (hlast : ∀ x ∈ l.getLast?, part s x c.name ≠ .separator)
    (hsep : ∀ x ∈ separators, part s x c.name = .separator)
    (hdistinct : (present (l ++ separators ++ rest)).Nodup) :
    Reached s (run s c separators l.length rest).candidate (l ++ separators ++ rest)
        (run s c separators l.length rest).length ∧
      SameClass c (run s c separators l.length rest).candidate := by
  induction rest generalizing c l separators with
  | nil =>
    -- separators that are still held back at the end do not belong to the candidate
    rw [List.append_assoc]
    exact ⟨.stop h hlast, .refl c⟩
  | cons st rest ih =>
    have hstop : Reached s c (l ++ separators ++ st :: rest) l.length ∧ SameClass c c := by
      rw [List.append_assoc]
      exact ⟨.stop h hlast, .refl c⟩
    rw [run]
    split
    · rename_i hp
      have hsep' : ∀ x ∈ separators ++ [st], part s x c.name = .separator := by
        intro x hx
        rcases List.mem_append.1 hx with hx | hx
        · exact hsep x hx
        · exact List.mem_singleton.1 hx ▸ hp
      have := @ih c l (separators ++ [st]) h hlast hsep' (by simpa using hdistinct)
      simpa using this
    · exact hstop
    · rename_i hnot _
      split
      · exact hstop
      · rename_i c' hc'
        have hgiven : (part s st c.name).Given s st :=
          ((part_cases s st c.name).resolve_left fun hempty => hnot hempty.2).2
        have hprefix : (present (l ++ separators ++ [st])).Nodup := by
          refine hdistinct.sublist (present_sublist (List.Sublist.append_left ?_ _))
          exact List.singleton_sublist.2 List.mem_cons_self
        obtain ⟨hstep, hsame⟩ := h.step hgiven hsep hprefix hc'
        have hlist : l ++ separators ++ [st] ++ [] ++ rest = l ++ separators ++ st :: rest := by simp
        have hlength : (l ++ separators ++ [st]).length = l.length + separators.length + 1 := by
          simp [Nat.add_assoc]
        have hend : ∀ x ∈ (l ++ separators ++ [st]).getLast?,
            part s x (separators.foldl Candidate.absorb c').name ≠ .separator := by
          intro x hx
          rw [List.getLast?_concat, Option.mem_some_iff] at hx
          rw [← hx, hsame.name]
          exact hgiven.firm
        obtain ⟨hreached, hrest⟩ := @ih _ _ [] hstep hend (by simp) (hlist ▸ hdistinct)
        rw [hlist, hlength] at hreached
        rw [hlength] at hrest
        exact ⟨hreached, hsame.trans hrest⟩

theorem Member.statement_of_mem_insertAll (h : m ∈ ms.foldl Member.insert members) :
    ∃ m' ∈ members ++ ms, m.statement = m'.statement := by
  induction ms generalizing members with
  | nil => exact ⟨m, by simpa using h, rfl⟩
  | cons m₁ ms ih =>
    obtain ⟨m', hm', e⟩ := ih h
    rcases List.mem_append.1 hm' with hm' | hm'
    · unfold Member.insert at hm'
      split at hm'
      · obtain ⟨m₀, hm₀, rfl⟩ := List.mem_map.1 hm'
        refine ⟨m₀, List.mem_append_left _ hm₀, e.trans ?_⟩
        split <;> rfl
      · exact ⟨m', by simpa [or_assoc] using Or.inl hm', e⟩
    · exact ⟨m', by simp [hm'], e⟩

theorem form?_ne_of_constructor? {name : String} {f : FunctionForm}
    (h : constructor? s st = some (name, f)) : s.form? st ≠ some .emptyStatement := by
  intro hf
  simp [constructor?, hf] at h

/-- What a scan from a place finds: the candidate has its constructor there, a name that no statement
before it refers to, and the statements that follow, as many as its length says. -/
structure Found (s : Store) (n : NodeId) (statements : List Slot) (start length : Nat)
    (c : Candidate) : Prop where
  first : statements[start]? = some c.statement
  container : c.container = n
  constructor : constructor? s c.statement = some (c.name, c.function)
  unused : ∀ x ∈ statements.take start, s.referencesName x c.name = false
  reached : Reached s c (statements.drop (start + 1)) length
  isClass : c.isClass s = true

theorem scanFrom_cases (hdistinct : (present statements).Nodup) (s : Store) (n : NodeId)
    (start : Nat) :
    ((scanFrom s n statements start).candidate = none ∧
        (scanFrom s n statements start).resumeAt = start + 1) ∨
      ∃ c length, Found s n statements start length c ∧
        (scanFrom s n statements start).candidate = some c ∧
        (scanFrom s n statements start).resumeAt = start + 1 + length := by
  rcases scanFrom_opened s n statements start with
    hnone | ⟨st, name, f, hst, hcon, hbefore, hclass, heq⟩
  · exact .inl hnone
  have hrest : (present (statements.drop (start + 1))).Nodup :=
    hdistinct.sublist (present_sublist (List.drop_sublist ..))
  have hopening : Consumed s (opening n st name f) [] := ⟨by simp, .refl _, rfl⟩
  let r := run s (opening n st name f) [] 0 (statements.drop (start + 1))
  obtain ⟨hreached, hsame⟩ : Reached s r.candidate (statements.drop (start + 1)) r.length ∧
      SameClass (opening n st name f) r.candidate :=
    reached_run hopening (by simp) (by simp) (by simpa using hrest)
  have hfound : Found s n statements start r.length r.candidate := by
    refine ⟨?_, hsame.container, ?_, ?_, hreached, hclass⟩
    · rw [hsame.statement]
      exact hst
    · rw [hsame.statement, hsame.name, hsame.function]
      exact hcon
    · rw [hsame.name]
      exact hbefore
  rw [heq]
  exact .inr ⟨r.candidate, r.length, hfound, rfl, rfl⟩

theorem found_of_candidate (hdistinct : (present statements).Nodup)
    (hc : (scanFrom s n statements start).candidate = some c) :
    ∃ length, Found s n statements start length c ∧
      (scanFrom s n statements start).resumeAt = start + 1 + length := by
  rcases scanFrom_cases hdistinct s n start with ⟨hnone, -⟩ | ⟨c', length, hfound, hc', hresume⟩
  · rw [hnone] at hc
    cases hc
  · obtain rfl := Option.some.inj (hc'.symm.trans hc)
    exact ⟨length, hfound, hresume⟩

namespace Found

variable {length : Nat} (h : Found s n statements start length c)

include h

theorem drop_eq : statements.drop start = c.statement :: statements.drop (start + 1) := by
  obtain ⟨hlt, hget⟩ := List.getElem?_eq_some_iff.1 h.first
  rw [List.drop_eq_getElem_cons hlt, hget]

theorem bound : start + 1 + length ≤ statements.length := by
  have hlt := (List.getElem?_eq_some_iff.1 h.first).1
  have := h.reached.bound
  rw [List.length_drop] at this
  omega

theorem distinct (hdistinct : (present statements).Nodup) : (c.statement :: c.removals).Nodup := by
  have htaken : (present (c.statement :: (statements.drop (start + 1)).take length)).Nodup := by
    refine hdistinct.sublist (present_sublist (.trans ?_ (List.drop_sublist start statements)))
    rw [h.drop_eq]
    exact (List.take_sublist ..).cons_cons _
  have hsome : ∀ x ∈ c.statement :: (statements.drop (start + 1)).take length, ∃ i, x = some i := by
    intro x hx
    rcases List.mem_cons.1 hx with rfl | hx
    · exact exists_of_constructor? h.constructor
    · exact h.reached.consumed.nodes x hx
  exact (h.reached.consumed.removals.cons _).nodup_iff.2 (nodup_of_present hsome htaken)

theorem last : ∃ st, statements[start + length]? = some st ∧ s.form? st ≠ some .emptyStatement := by
  cases hlength : length with
  | zero => exact ⟨c.statement, h.first, form?_ne_of_constructor? h.constructor⟩
  | succ k =>
    let rest := statements.drop (start + 1)
    have hk : k < rest.length := Nat.lt_of_lt_of_le (by omega) h.reached.bound
    have htake : (rest.take length).getLast? = some rest[k] := by
      simp [List.getLast?_take, hlength, hk]
    have hlast := h.reached.last rest[k] htake
    have hget : statements[start + (k + 1)]? = some rest[k] := by
      rw [← List.getElem?_eq_getElem hk, List.getElem?_drop, Nat.add_assoc, Nat.add_comm 1 k]
    exact ⟨rest[k], hget, fun hempty => hlast (part_eq_separator_iff.2 hempty)⟩

theorem source (hm : m ∈ c.members) : m.statement ∈ c.removals := by
  rw [h.reached.consumed.members] at hm
  obtain ⟨m', hm', e⟩ := Member.statement_of_mem_insertAll hm
  rw [e]
  exact h.reached.consumed.removals.mem_iff.2 (statement_of_mem_definitions hm')

end Found

/-- The constructor and the members are functions from a place, and the name is from the store. -/
structure Candidate.Supplied (s : Store) (v : Slot) (c : Candidate) : Prop where
  name : ∃ n, s.identifierName? n = some c.name
  function : HasFunction s v c.function
  members : ∀ m ∈ c.members, HasFunction s v m.function

variable {v : Slot}

theorem Candidate.Supplied.insertAll (h : c.Supplied s v)
    (hms : ∀ m ∈ ms, HasFunction s v m.function) (hsame : SameClass c c')
    (hmembers : c'.members = ms.foldl Member.insert c.members) : c'.Supplied s v := by
  refine ⟨hsame.name ▸ h.name, hsame.function ▸ h.function, fun m hm => ?_⟩
  rw [hmembers] at hm
  obtain ⟨m', hm', e⟩ := Member.mem_insertAll hm
  rw [e]
  exact (List.mem_append.1 hm').elim (h.members m') (hms m')

theorem Candidate.Supplied.take? (h : c.Supplied s v)
    (hst : ∀ f, HasFunction s st f → HasFunction s v f)
    (hc' : c.take? st (part s st c.name) = some c') : c'.Supplied s v := by
  have hfunctions : ∀ m ∈ (part s st c.name).memberList, HasFunction s v m.function := by
    rcases part_cases s st c.name with ⟨-, hp⟩ | ⟨-, hgiven⟩
    · rw [hp] at hc'
      cases hc'
    · exact fun m hm => hst _ (hgiven.functions m hm)
  refine h.insertAll hfunctions (SameClass.take? hc') ?_
  cases hp : part s st c.name <;> rw [hp] at hc'
  case members ms | constructorLink =>
    cases hc'
    simp [addMembers_eq, Part.memberList, Candidate.absorb]
  case prototype ms | inheritance base =>
    obtain ⟨-, hc'⟩ := Option.ite_none_left_eq_some.1 hc'
    cases hc'
    simp [addMembers_eq, Part.memberList, Candidate.absorb]
  all_goals cases hc'

theorem exists_name_of_constructor? {name : String} {f : FunctionForm}
    (h : constructor? s st = some (name, f)) : ∃ n, s.identifierName? n = some name := by
  unfold constructor? at h
  repeat' split at h
  all_goals
    obtain ⟨n, hname, -⟩ := exists_of_named h
    exact ⟨n, hname⟩

theorem supplied_of_scanFrom (hst : ∀ st ∈ statements, ∀ f, HasFunction s st f → HasFunction s v f)
    (hc : (scanFrom s n statements start).candidate = some c) : c.Supplied s v := by
  rcases scanFrom_opened s n statements start with ⟨hnone, -⟩ | ⟨st, name, f, hfirst, hcon, -, -, heq⟩
  · rw [hnone] at hc
    cases hc
  · rw [heq] at hc
    obtain rfl := Option.some.inj hc
    have hopening : (opening n st name f).Supplied s v :=
      ⟨exists_name_of_constructor? hcon,
        hst st (List.mem_of_getElem? hfirst) f (.of_constructor? hcon), by simp [opening]⟩
    exact keeps_run (P := Candidate.Supplied s v) (fun c st h _ => ⟨h.name, h.function, h.members⟩)
      (fun c c' x hx h => h.take? (hst x (List.mem_of_mem_drop hx))) hopening (by simp) 0

theorem supplied_of_candidate (hst : ∀ st ∈ statements, ∀ f, HasFunction s st f → HasFunction s v f)
    (hc : c ∈ (scans s n statements).filterMap (·.candidate)) : c.Supplied s v := by
  suffices h : ∀ fuel start, ∀ scan ∈ scans.go s n statements fuel start,
      scan.candidate = some c → c.Supplied s v by
    obtain ⟨scan, hscan, hc⟩ := List.mem_filterMap.1 hc
    exact h _ _ scan hscan hc
  intro fuel
  induction fuel with
  | zero => simp [scans.go]
  | succ fuel ih =>
    intro start scan hscan hc
    rw [scans.go] at hscan
    split at hscan
    · rcases List.mem_cons.1 hscan with rfl | hscan
      · exact supplied_of_scanFrom hst hc
      · exact ih _ scan hscan hc
    · cases hscan

/-- The candidate stands for the statements of a range: the first is its constructor, and the others
are those that it takes up. -/
structure Candidate.Spans (s : Store) (c : Candidate) (statements : List Slot) (start stop : Nat) :
    Prop where
  first : statements[start]? = some c.statement
  bound : stop ≤ statements.length
  removals : c.removals.Perm ((statements.take stop).drop (start + 1))
  distinct : (c.statement :: c.removals).Nodup
  last : ∃ st, statements[stop - 1]? = some st ∧ s.form? st ≠ some .emptyStatement
  sources : ∀ m ∈ c.members, m.statement ∈ c.removals

/-- The scan goes on behind the statements that its candidate stands for, or with the next one. -/
structure Contiguous (s : Store) (statements : List Slot) (start : Nat) (scan : Scan) : Prop where
  onward : start < scan.resumeAt
  spans : ∀ c, scan.candidate = some c → c.Spans s statements start scan.resumeAt
  nothing : scan.candidate = none → scan.resumeAt = start + 1

theorem contiguous_scanFrom (hdistinct : (present statements).Nodup) (s : Store) (n : NodeId)
    (start : Nat) : Contiguous s statements start (scanFrom s n statements start) := by
  rcases scanFrom_cases hdistinct s n start with ⟨hnone, hnext⟩ | ⟨c, length, hfound, hc, hresume⟩
  · refine ⟨by omega, fun c hc => ?_, fun _ => hnext⟩
    rw [hnone] at hc
    cases hc
  · have hspans : c.Spans s statements start (start + 1 + length) := by
      refine ⟨hfound.first, hfound.bound, ?_, hfound.distinct hdistinct, ?_, fun _ => hfound.source⟩
      · rw [List.drop_take, Nat.add_sub_cancel_left]
        exact hfound.reached.consumed.removals
      · rw [Nat.add_right_comm, Nat.add_sub_cancel]
        exact hfound.last
    refine ⟨by omega, fun c' hc' => ?_, fun hnone => ?_⟩
    · obtain rfl := Option.some.inj (hc.symm.trans hc')
      rw [hresume]
      exact hspans
    · rw [hnone] at hc
      cases hc

/-- Scans that follow one another up to the end of the statements. -/
inductive Series (s : Store) (n : NodeId) (statements : List Slot) : Nat → List Scan → Prop
  | done {start : Nat} (h : statements.length ≤ start) : Series s n statements start []
  | next {start : Nat} {scans : List Scan} (h : start < statements.length)
      (rest : Series s n statements (scanFrom s n statements start).resumeAt scans) :
      Series s n statements start (scanFrom s n statements start :: scans)

theorem series_go (hdistinct : (present statements).Nodup) {fuel : Nat}
    (h : statements.length ≤ start + fuel) :
    Series s n statements start (scans.go s n statements fuel start) := by
  induction fuel generalizing start with
  | zero => exact .done h
  | succ fuel ih =>
    rw [scans.go]
    split
    · rename_i hlt
      have honward := (contiguous_scanFrom hdistinct s n start).onward
      exact .next hlt (ih (by omega))
    · exact .done (by omega)

theorem Candidate.Spans.within {stop : Nat} (h : c.Spans s statements start stop)
    (hx : st ∈ c.statement :: c.removals) : st ∈ statements.drop start := by
  obtain ⟨hlt, hget⟩ := List.getElem?_eq_some_iff.1 h.first
  have hcons : statements.drop start = c.statement :: statements.drop (start + 1) := by
    rw [List.drop_eq_getElem_cons hlt, hget]
  rw [hcons]
  rcases List.mem_cons.1 hx with rfl | hx
  · exact List.mem_cons_self
  · have hmem := h.removals.mem_iff.1 hx
    rw [List.drop_take] at hmem
    exact List.mem_cons_of_mem _ (List.take_subset _ _ hmem)

theorem Candidate.Spans.before {stop : Nat} (h : c.Spans s statements start stop)
    (hlt : start < stop) (hx : st ∈ c.statement :: c.removals) : st ∈ statements.take stop := by
  rcases List.mem_cons.1 hx with rfl | hx
  · refine List.mem_of_getElem? (i := start) ?_
    rw [List.getElem?_take_of_lt hlt]
    exact h.first
  · exact List.drop_subset _ _ (h.removals.mem_iff.1 hx)

theorem Series.apart (hdistinct : statements.Nodup) {found : List Scan}
    (h : Series s n statements start found) :
    (∀ c ∈ found.filterMap (·.candidate), ∀ x ∈ c.statement :: c.removals,
      x ∈ statements.drop start) ∧
    (found.filterMap (·.candidate)).Pairwise fun c c' =>
      (c.statement :: c.removals).Disjoint (c'.statement :: c'.removals) := by
  induction h with
  | done => exact ⟨by simp, by simp⟩
  | @next start found hlt _ ih =>
    obtain ⟨hrest, hpair⟩ := ih
    have hscan := contiguous_scanFrom (nodup_present hdistinct) s n start
    have hsub := List.drop_subset_drop_left statements (Nat.le_of_lt hscan.onward)
    cases hc : (scanFrom s n statements start).candidate with
    | none =>
      rw [List.filterMap_cons_none hc]
      exact ⟨fun c hc x hx => hsub (hrest c hc x hx), hpair⟩
    | some c =>
      have hspans := hscan.spans c hc
      rw [List.filterMap_cons_some hc]
      refine ⟨fun c' hc' x hx => ?_, List.pairwise_cons.2 ⟨fun c' hc' x hx hx' => ?_, hpair⟩⟩
      · rcases List.mem_cons.1 hc' with rfl | hc'
        · exact hspans.within hx
        · exact hsub (hrest c' hc' x hx)
      · exact List.disjoint_take_drop hdistinct (Nat.le_refl _) (hspans.before hscan.onward hx)
          (hrest c' hc' x hx')

/-- Statements are taken up in one piece. Each scan of a container stands for the statements from its
constructor up to where it goes on, the scans end where the statements do, and no two candidates
have a statement in common. -/
theorem contiguous_scans (hdistinct : statements.Nodup) (s : Store) (n : NodeId) :
    (∀ start, Contiguous s statements start (scanFrom s n statements start)) ∧
    Series s n statements 0 (scans s n statements) ∧
    ((scans s n statements).filterMap (·.candidate)).Pairwise fun c c' =>
      (c.statement :: c.removals).Disjoint (c'.statement :: c'.removals) := by
  have hpresent : (present statements).Nodup := nodup_present hdistinct
  have hseries : Series s n statements 0 (scans s n statements) := series_go hpresent (by simp)
  exact ⟨contiguous_scanFrom hpresent s n, hseries, (hseries.apart hdistinct).2⟩

theorem contiguous_scans_separators :
    let source := "function A() {} ; A.prototype.m = function () {}; ; f();".toList
    ∃ p list c, parse source = .ok p ∧ p.store.statementList? (some p.root) = some list ∧
      list.statements.Nodup ∧ list.statements.length = 5 ∧
      let first := scanFrom p.store p.root list.statements 0
      first.candidate = some c ∧ first.resumeAt = 3 ∧
        c.Spans p.store list.statements 0 first.resumeAt ∧
        Series p.store p.root list.statements 0 (scans p.store p.root list.statements) := by
  intro source
  have hscan : ∃ p ∈ (parse source).toOption,
      ∃ list ∈ p.store.statementList? (some p.root), list.statements.Nodup ∧
        list.statements.length = 5 ∧
        ∃ c ∈ (scanFrom p.store p.root list.statements 0).candidate,
          (scanFrom p.store p.root list.statements 0).resumeAt = 3 := by decide +kernel
  obtain ⟨p, hp, list, hlist, hdistinct, hlength, c, hc, hresume⟩ := exists_parse hscan
  obtain ⟨hcontiguous, hseries, -⟩ := contiguous_scans hdistinct p.store p.root
  exact ⟨p, list, c, hp, hlist, hdistinct, hlength, hc, hresume, (hcontiguous 0).spans c hc, hseries⟩

end Modernizer.ClassIdiom
