import Modernizer.Proofs.Rule.ClassScan

/-! Where the comments of a class and its members come from. A statement that is taken up is a source
of the class, unless it assigns members or defines them by descriptors: then it is a source of these.
The properties of a prototype object are sources of the members that they define, and a member keeps
its sources when another takes its place. -/

namespace Modernizer.ClassIdiom

open Store

variable {s : Store} {c c' : Candidate} {st x : Slot} {separators statements : List Slot}
  {ms members : List Member} {m : Member} {className : String} {p : Part} {n : NodeId} {start : Nat}

/-! Members. -/

def IsSource (members : List Member) (x : Slot) : Prop := ∃ m ∈ members, x ∈ m.commentSources

theorem isSource_insert : IsSource (Member.insert members m) x ↔
    IsSource members x ∨ x ∈ m.commentSources := by
  unfold Member.insert
  split
  · rename_i hany
    obtain ⟨m₀, hm₀, hsame⟩ := List.any_eq_true.1 hany
    constructor
    · rintro ⟨_, hmap, hx⟩
      obtain ⟨m', hm', rfl⟩ := List.mem_map.1 hmap
      split at hx
      · exact ((mem_foldl_insertNew _).1 hx).imp_left fun hx => ⟨m', hm', hx⟩
      · exact .inl ⟨m', hm', hx⟩
    · rintro (⟨m', hm', hx⟩ | hx)
      · refine ⟨_, List.mem_map_of_mem hm', ?_⟩
        split
        · exact (mem_foldl_insertNew _).2 (.inl hx)
        · exact hx
      · refine ⟨_, List.mem_map_of_mem hm₀, ?_⟩
        rw [if_pos hsame]
        exact (mem_foldl_insertNew _).2 (.inr hx)
  · simp [IsSource, or_and_right, exists_or]

theorem isSource_insertAll : IsSource (ms.foldl Member.insert members) x ↔
    IsSource members x ∨ IsSource ms x := by
  induction ms generalizing members with
  | nil => simp [IsSource]
  | cons m ms ih =>
    rw [List.foldl_cons, ih, isSource_insert, or_assoc]
    simp [IsSource]

/-! Candidates. -/

def Defines (s : Store) (className : String) (st : Slot) : Prop :=
  ∃ ms, part s st className = .members ms

def IsProperty (s : Store) (className : String) (st x : Slot) : Prop :=
  ∃ ms, part s st className = .prototype ms ∧ ∃ m ∈ ms, objectMember? s st x = some m

/-- The comments of the class are those of its constructor and of the statements that define no
member. A member has those of the statements or the properties that define it. -/
structure Candidate.Sourced (s : Store) (c : Candidate) : Prop where
  mine : ∀ x, x ∈ c.commentSources ↔ x = c.statement ∨ x ∈ c.removals ∧ ¬ Defines s c.name x
  members : ∀ x, IsSource c.members x ↔
    (x ∈ c.removals ∧ Defines s c.name x) ∨ ∃ st ∈ c.removals, IsProperty s c.name st x
  parts : ∀ x ∈ c.removals, part s x c.name ≠ .unrelated

theorem isSource_memberList (h : (part s st className).Given s st) :
    IsSource (part s st className).memberList x ↔
      x = st ∧ Defines s className st ∨ IsProperty s className st x := by
  unfold Defines IsProperty
  cases hp : part s st className with
  | members ms =>
    obtain ⟨m, ms', rfl⟩ := List.exists_cons_of_ne_nil (h.defines ms hp)
    have hsources := fun m hm => (h.assigned _ hp m hm).sources
    constructor
    · rintro ⟨m', hm', hx⟩
      rw [hsources m' hm', List.mem_singleton] at hx
      exact .inl ⟨hx, _, rfl⟩
    · rintro (⟨rfl, -⟩ | ⟨_, hprototype, -⟩)
      · exact ⟨m, List.mem_cons_self, by simp [hsources m List.mem_cons_self]⟩
      · cases hprototype
  | prototype ms =>
    constructor
    · rintro ⟨m, hm, hx⟩
      obtain ⟨y, hy⟩ := h.properties ms hp m hm
      rw [(sources_of_objectMember? hy).2, List.mem_singleton] at hx
      exact .inr ⟨ms, rfl, m, hm, hx ▸ hy⟩
    · rintro (⟨-, _, hmembers⟩ | ⟨_, hprototype, m, hm, hx⟩)
      · cases hmembers
      · cases hprototype
        exact ⟨m, hm, by simp [(sources_of_objectMember? hx).2]⟩
  | _ => simp [IsSource, Part.memberList]

/-- What a statement that is taken up changes. -/
theorem mem_take? (h : p.Given s st) (hc' : c.take? st p = some c') :
    (∀ x, x ∈ c'.removals ↔ x ∈ c.removals ∨ x = st) ∧
    (∀ x, x ∈ c'.commentSources ↔ x ∈ c.commentSources ∨ x = st ∧ ∀ ms, p ≠ .members ms) ∧
    ∀ x, IsSource c'.members x ↔ IsSource c.members x ∨ IsSource p.memberList x := by
  have hnone : ∀ x, ¬ IsSource [] x := fun x ⟨_, hm, _⟩ => by cases hm
  cases p with
  | members ms =>
    cases hc'
    rw [addMembers_eq]
    obtain ⟨m, ms', rfl⟩ := List.exists_cons_of_ne_nil (h.defines ms rfl)
    have hstatement : ∀ x, x ∈ (m :: ms').map (·.statement) ↔ x = st := by
      intro x
      constructor
      · intro hx
        obtain ⟨m', hm', rfl⟩ := List.mem_map.1 hx
        exact h.statement m' hm'
      · rintro rfl
        exact List.mem_map.2 ⟨m, List.mem_cons_self, h.statement m List.mem_cons_self⟩
    refine ⟨fun x => ?_, fun x => by simp, fun x => isSource_insertAll⟩
    rw [mem_foldl_insertNew, hstatement]
  | prototype ms =>
    simp only [Candidate.take?] at hc'
    split at hc'
    · cases hc'
    · cases hc'
      rw [addMembers_eq]
      refine ⟨fun x => ?_, fun x => ?_, fun x => isSource_insertAll⟩
      -- the statement is absorbed already, so its members remove nothing more
      · have hstatement : x ∈ ms.map (·.statement) → x = st := by
          intro hx
          obtain ⟨m, hm, rfl⟩ := List.mem_map.1 hx
          exact h.statement m hm
        simp only [Candidate.absorb, mem_foldl_insertNew, mem_insertNew]
        exact or_iff_left_of_imp fun hx => .inr (hstatement hx)
      · simp [Candidate.absorb, mem_insertNew]
  | inheritance base =>
    simp only [Candidate.take?] at hc'
    split at hc'
    · cases hc'
    · cases hc'
      simp [Candidate.absorb, mem_insertNew, Part.memberList, hnone]
  | constructorLink =>
    cases hc'
    simp [Candidate.absorb, mem_insertNew, Part.memberList, hnone]
  | separator => cases hc'
  | unsupportedDescriptor => cases hc'
  | unrelated => cases hc'

namespace Candidate.Sourced

theorem extend (h : c.Sourced s) (hclass : SameClass c c')
    (hremovals : ∀ x, x ∈ c'.removals ↔ x ∈ c.removals ∨ x = st)
    (hmine : ∀ x, x ∈ c'.commentSources ↔
      x ∈ c.commentSources ∨ x = st ∧ ¬ Defines s c.name st)
    (hmembers : ∀ x, IsSource c'.members x ↔
      IsSource c.members x ∨ x = st ∧ Defines s c.name st ∨ IsProperty s c.name st x)
    (hpart : part s st c.name ≠ .unrelated) : c'.Sourced s := by
  refine ⟨fun x => ?_, fun x => ?_, fun x hx => ?_⟩
  · rw [hmine, h.mine, hremovals, hclass.name, hclass.statement]
    grind
  · rw [hmembers, h.members, hclass.name]
    simp only [hremovals]
    grind
  · rw [hclass.name]
    rcases (hremovals x).1 hx with hx | rfl
    · exact h.parts x hx
    · exact hpart

theorem absorb (h : c.Sourced s) (hp : part s st c.name = .separator) : (c.absorb st).Sourced s := by
  have hdefines : ¬ Defines s c.name st := by simp [Defines, hp]
  have hproperty : ∀ x, ¬ IsProperty s c.name st x := by simp [IsProperty, hp]
  refine h.extend (SameClass.absorb c st) (fun x => mem_insertNew) (fun x => ?_) (fun x => ?_)
    (by simp [hp])
  · simp [Candidate.absorb, mem_insertNew, hdefines]
  · simp [Candidate.absorb, hdefines, hproperty]

theorem take? (h : c.Sourced s) (hc' : c.take? st (part s st c.name) = some c') : c'.Sourced s := by
  have hgiven : (part s st c.name).Given s st := by
    rcases part_cases s st c.name with ⟨-, hp⟩ | ⟨-, hgiven⟩
    · rw [hp] at hc'
      cases hc'
    · exact hgiven
  obtain ⟨hremovals, hmine, hmembers⟩ := mem_take? hgiven hc'
  refine h.extend (SameClass.take? hc') hremovals (fun x => ?_) (fun x => ?_) fun hp => ?_
  · simp only [hmine, Defines, not_exists]
  · rw [hmembers, isSource_memberList hgiven]
  · rw [hp] at hc'
    cases hc'

theorem isSource_iff (h : c.Sourced s) : x ∈ c.commentSources ∨ IsSource c.members x ↔
    x ∈ c.statement :: c.removals ∨ ∃ st ∈ c.removals, IsProperty s c.name st x := by
  rw [h.mine, h.members, List.mem_cons]
  by_cases hdefines : Defines s c.name x <;> simp [hdefines, or_assoc]

end Candidate.Sourced

theorem sourced_opening (s : Store) (n : NodeId) (st : Slot) (name : String) (f : FunctionForm) :
    (opening n st name f).Sourced s where
  mine x := by simp [opening]
  members x := by simp [opening, IsSource]
  parts := by simp [opening]

theorem sourced_of_candidate (hc : (scanFrom s n statements start).candidate = some c) :
    c.Sourced s := by
  rcases scanFrom_opened s n statements start with ⟨hnone, -⟩ | ⟨st, name, f, -, -, -, -, heq⟩
  · rw [hnone] at hc
    cases hc
  · rw [heq] at hc
    obtain rfl := Option.some.inj hc
    exact keeps_run (P := Candidate.Sourced s) (fun c st h => h.absorb)
      (fun c c' st _ h => h.take?) (sourced_opening s n st name f) (by simp) 0

end Modernizer.ClassIdiom
