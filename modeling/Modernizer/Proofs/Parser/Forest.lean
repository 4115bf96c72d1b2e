import Modernizer.Proofs.Tree.Comments
import Modernizer.Proofs.Tree.Links

/-! The store while a program is parsed. Every node but the roots of finished parts is linked to the
one that holds it, which was added after it (`Forest`). Parsing a part leaves all older nodes as they
are, and its own roots are the only new ones (`Grows`). -/

namespace Modernizer

namespace Form

/-- The name that a function or class has for itself. -/
def ownName : Form → Slot
  | functionDeclaration f | functionExpression f => f.name
  | classDeclaration c | classExpression c => c.name
  | _ => none

/-- The name of a property or method. -/
def key : Form → Slot
  | property name _ | shorthandProperty name _ => name
  | method m => m.name
  | _ => none

/-- What an object literal or pattern has as members. -/
def isMember : Form → Bool
  | property .. | shorthandProperty .. | spread _ | method _ => true
  | _ => false

/-- The expression that a statement evaluates and passes on or drops. -/
def operand : Form → Slot
  | returnStatement e | expressionStatement e => e
  | _ => none

/-- Forms whose children can be anything. -/
def isPlain : Form → Bool
  | functionDeclaration _ | functionExpression _ | classDeclaration _ | classExpression _
  | method _ | property .. | shorthandProperty .. | object _ | returnStatement _
  | expressionStatement _ | variableStatement _ => false
  | _ => true

def IsName (form : Form) : Prop := ∃ name, form = identifier name

def IsKey (form : Form) : Prop := form.children = [] ∨ ∃ e, form = computedName e

/-- Whatever an expression is, it has no list of statements. -/
def IsValue (form : Form) : Prop := form.statementList? = none

def IsDeclaring (form : Form) : Prop :=
  ∃ list, form = declarationList list ∧ list.declarations.nodes ≠ [] ∧ none ∉ list.declarations.nodes

end Form

namespace Store

variable {s s' s₀ s₁ s₂ : Store} {c m n p : NodeId} {ns ms : List NodeId} {form : Form}
  {pos stop : Nat} {φ : Form → Prop}

/-- The node is there, with a form of this kind. -/
def Has (s : Store) (n : NodeId) (φ : Form → Prop) : Prop :=
  ∃ form, s.form? (some n) = some form ∧ φ form

/-- The nodes are there, with forms of this kind. -/
def All (s : Store) (φ : Form → Prop) (ns : List NodeId) : Prop := ∀ n ∈ ns, s.Has n φ

/-- The children in some places are of the kind that belongs there. -/
structure Shaped (s : Store) (form : Form) : Prop where
  bodied : s.Bodied form
  named : ∀ n, form.ownName = some n → s.Has n Form.IsName
  keyed : ∀ n, form.key = some n → s.Has n Form.IsKey
  members : ∀ list, form = .object list → ∀ n ∈ present list.nodes, s.Has n (·.isMember = true)
  valued : ∀ n, form.operand = some n → s.Has n Form.IsValue
  declaring : ∀ list, form = .variableStatement list → ∃ n, list = some n ∧ s.Has n Form.IsDeclaring

theorem Shaped.of_plain (h : form.isPlain = true) : s.Shaped form := by
  have hslots : form.functionBody = none ∧ form.ownName = none ∧ form.key = none ∧
      form.operand = none := by
    cases form <;> first | exact ⟨rfl, rfl, rfl, rfl⟩ | cases h
  obtain ⟨hbody, hname, hkey, hoperand⟩ := hslots
  refine ⟨.of_none hbody, fun n hn => ?_, fun n hn => ?_, ?_, ?_, ?_⟩
  · rw [hname] at hn
    cases hn
  · rw [hkey] at hn
    cases hn
  · rintro list rfl
    cases h
  · intro n hn
    rw [hoperand] at hn
    cases hn
  · rintro list rfl
    cases h

theorem Shaped.of_operand {v : Slot} (hform : form = .returnStatement v ∨ form = .expressionStatement v)
    (hv : s.All Form.IsValue (present [v])) : s.Shaped form := by
  have hvalued : ∀ n, v = some n → s.Has n Form.IsValue := fun n hn =>
    hv n (hn ▸ List.mem_singleton_self n)
  rcases hform with rfl | rfl <;> exact ⟨.of_none rfl, nofun, nofun, nofun, hvalued, nofun⟩

theorem Shaped.of_variables {n : NodeId} (hn : s.All Form.IsDeclaring [n]) :
    s.Shaped (.variableStatement (some n)) where
  bodied := .of_none rfl
  named _ h := by cases h
  keyed _ h := by cases h
  members _ h := by cases h
  valued _ h := by cases h
  declaring _ h := by
    cases h
    exact ⟨n, rfl, hn n (List.mem_singleton_self n)⟩

theorem Has.mono (h : ∀ m f, s.form? (some m) = some f → s'.form? (some m) = some f)
    (hn : s.Has n φ) : s'.Has n φ :=
  hn.imp fun f hf => ⟨h n f hf.1, hf.2⟩

theorem Shaped.mono (hs : s.Shaped form)
    (h : ∀ m f, s.form? (some m) = some f → s'.form? (some m) = some f) : s'.Shaped form where
  bodied b hb := (hs.bodied b hb).imp fun list => h b (.block list)
  named n hn := (hs.named n hn).mono h
  keyed n hn := (hs.keyed n hn).mono h
  members list hlist n hn := (hs.members list hlist n hn).mono h
  valued n hn := (hs.valued n hn).mono h
  declaring list hlist := (hs.declaring list hlist).imp fun _ hn => ⟨hn.1, hn.2.mono h⟩

/-- Trees side by side, children before their parents, and nothing in them is synthesized. -/
structure Forest (s : Store) : Prop where
  parsed : ∀ n, s.isSynthesized (some n) = false
  nodup : ∀ p, (s.children (some p)).Nodup
  linked : ∀ p c, s.Holds p c ↔ s.parent (some c) = some p
  lt : ∀ p c, s.Holds p c → c < p
  shaped : ∀ n form, s.form? (some n) = some form → s.Shaped form

/-- From `s₀` on, trees with the roots `ns` have been added, and nothing else has changed. -/
structure Grows (s₀ s : Store) (ns : List NodeId) : Prop where
  forest : s.Forest
  size_le : s₀.size ≤ s.size
  kept : ∀ n, n < s₀.size → s.get? (some n) = s₀.get? (some n)
  nodup : ns.Nodup
  roots : ∀ n, n ∈ ns ↔ s₀.size ≤ n ∧ n < s.size ∧ s.parent (some n) = none
  ahead : s₀.NoneAhead → s.NoneAhead

theorem forest_empty : empty.Forest where
  parsed _ := rfl
  nodup _ := .nil
  linked _ _ := ⟨fun h => (List.not_mem_nil h).elim, fun h => by cases h⟩
  lt _ _ h := (List.not_mem_nil h).elim
  shaped _ _ h := by cases h

theorem exists_get?_of_lt (h : n < s.size) : ∃ node, s.get? (some n) = some node :=
  Option.ne_none_iff_exists'.1 fun hn => Nat.not_le_of_lt h (get?_eq_none_iff.1 hn)

theorem get?_foldl_setParent (cs : List NodeId) (p : Slot) (s : Store) (m : NodeId) :
    (cs.foldl (fun s c => s.setParent (some c) p) s).get? (some m) =
      (s.get? (some m)).map fun node => if m ∈ cs then { node with parent := p } else node := by
  induction cs generalizing s with
  | nil => simp
  | cons c cs ih =>
    rw [List.foldl_cons, ih, setParent, get?_modify]
    cases s.get? (some m) with
    | none => simp
    | some node =>
      by_cases h : c = m
      · subst h
        by_cases h' : c ∈ cs <;> simp [h']
      · by_cases h' : m ∈ cs <;> simp [h, h', Ne.symm h]

theorem adoptChildren_of_parsed (n : NodeId)
    (h : ∀ c, s.Holds n c → s.isSynthesized (some c) = false) :
    s.adoptChildren n =
      (s.children (some n)).foldl (fun s c => s.setParent (some c) (some n)) s := by
  let linked := (s.children (some n)).foldl (fun s c => s.setParent (some c) (some n)) s
  have hparsed : ∀ c ∈ s.children (some n), linked.isSynthesized (some c) = false := by
    intro c hc
    rw [isSynthesized, get?_foldl_setParent, ← h c hc, isSynthesized]
    cases s.get? (some c) <;> simp [hc]
  have hstay : ∀ cs : List NodeId, (∀ c ∈ cs, linked.isSynthesized (some c) = false) →
      cs.foldr (fun c s' => if s'.isSynthesized (some c) then adoptChildren.go s.size c s' else s')
        linked = linked := by
    intro cs hcs
    induction cs with
    | nil => rfl
    | cons c cs ih =>
      rw [List.foldr_cons, ih fun c hc => hcs c (List.mem_cons_of_mem _ hc),
        hcs c List.mem_cons_self]
      rfl
  exact hstay _ hparsed

theorem get?_add (h : s.Forest) (hkids : ∀ c ∈ form.children, c < s.size) (m : NodeId) :
    (s.add form pos stop).2.get? (some m) =
      if m = s.size then some ⟨form, pos, stop, none, none, false, false, false⟩
      else (s.get? (some m)).map fun node =>
        if m ∈ form.children then { node with parent := some s.size } else node := by
  let pushed : Store := { s with
    nodes := s.nodes.push ⟨form, pos, stop, none, none, false, false, false⟩ }
  have hget : ∀ m, pushed.get? (some m) =
      if m = s.size then some ⟨form, pos, stop, none, none, false, false, false⟩
      else s.get? (some m) := by
    intro m
    by_cases hm : m = s.nodes.size <;> simp [pushed, get?, size, Array.getElem?_push, hm]
  have hchildren : pushed.children (some s.size) = form.children := by
    simp [children, form?, hget]
  have hparsed : ∀ c, pushed.Holds s.size c → pushed.isSynthesized (some c) = false := by
    intro c hc
    have hlt := hkids c (hchildren ▸ hc)
    rw [isSynthesized, hget, if_neg (Nat.ne_of_lt hlt)]
    exact h.parsed c
  change (pushed.adoptChildren s.size).get? (some m) = _
  rw [adoptChildren_of_parsed s.size hparsed, get?_foldl_setParent, hget, hchildren]
  by_cases hm : m = s.size
  · have hnot : s.size ∉ form.children := fun hc => Nat.lt_irrefl _ (hkids _ hc)
    simp only [hm, if_true, Option.map_some, if_neg hnot]
  · simp only [if_neg hm]

@[simp] theorem size_add (s : Store) (form : Form) (pos stop : Nat) :
    (s.add form pos stop).2.size = s.size + 1 := by
  refine (relinks_adoptChildren ..).size.trans ?_
  simp [size]

section add

variable (h : s.Forest) (hkids : ∀ c ∈ form.children, c < s.size)

include h hkids

theorem form?_add (m : NodeId) :
    (s.add form pos stop).2.form? (some m) = if m = s.size then some form else s.form? (some m) := by
  rw [form?, get?_add h hkids]
  split
  · rfl
  · rw [form?]
    cases s.get? (some m) with
    | none => rfl
    | some node => by_cases hm : m ∈ form.children <;> simp [hm]

theorem isSynthesized_add (m : NodeId) :
    (s.add form pos stop).2.isSynthesized (some m) = false := by
  rw [isSynthesized, get?_add h hkids]
  split
  · rfl
  · rw [← h.parsed m, isSynthesized]
    cases s.get? (some m) with
    | none => rfl
    | some node => by_cases hm : m ∈ form.children <;> simp [hm]

theorem parent_add (m : NodeId) :
    (s.add form pos stop).2.parent (some m) =
      if m ∈ form.children then some s.size else s.parent (some m) := by
  rw [parent, get?_add h hkids]
  by_cases hm : m ∈ form.children
  · obtain ⟨node, hnode⟩ := exists_get?_of_lt (hkids m hm)
    simp [hm, Nat.ne_of_lt (hkids m hm), hnode]
  · by_cases hsize : m = s.size
    · have hnone : s.get? (some m) = none := get?_eq_none_iff.2 (Nat.le_of_eq hsize.symm)
      rw [if_pos hsize, if_neg hm, parent, hnone]
      rfl
    · simp [hm, hsize, parent]

theorem holds_add (p c : NodeId) :
    (s.add form pos stop).2.Holds p c ↔ if p = s.size then c ∈ form.children else s.Holds p c := by
  rw [Holds, children, form?_add h hkids]
  split <;> rfl

end add

theorem Forest.add (h : s.Forest) (hkids : ∀ c ∈ form.children, c < s.size)
    (hroots : ∀ c ∈ form.children, s.parent (some c) = none) (hnodup : form.children.Nodup)
    (hs : s.Shaped form) : (s.add form pos stop).2.Forest where
  parsed := isSynthesized_add h hkids
  nodup p := by
    rw [children, form?_add h hkids]
    split
    · exact hnodup
    · exact h.nodup p
  linked p c := by
    rw [holds_add h hkids, parent_add h hkids]
    have hsize : ¬ s.Holds s.size c := fun hc => by
      rw [Holds, children, form?, get?_eq_none_iff.2 (Nat.le_refl s.size)] at hc
      exact List.not_mem_nil hc
    by_cases hp : p = s.size
    · subst hp
      by_cases hc : c ∈ form.children
      · simp [hc]
      · simpa [hc] using fun hparent => hsize ((h.linked _ _).2 hparent)
    · by_cases hc : c ∈ form.children
      · simp [hp, hc, h.linked, hroots c hc, Ne.symm hp]
      · simp [hp, hc, h.linked]
  lt p c hc := by
    rw [holds_add h hkids] at hc
    by_cases hp : p = s.size
    · rw [if_pos hp] at hc
      exact hp ▸ hkids c hc
    · rw [if_neg hp] at hc
      exact h.lt p c hc
  shaped n f hf := by
    have hold : s.Shaped f := by
      rw [form?_add h hkids] at hf
      split at hf
      · cases hf
        exact hs
      · exact h.shaped n f hf
    refine hold.mono fun m f hm => ?_
    rw [form?_add h hkids, if_neg (Nat.ne_of_lt (lt_size_of_form? hm))]
    exact hm

namespace Grows

theorem refl (h : s.Forest) : Grows s s [] :=
  ⟨h, Nat.le_refl _, fun _ _ => rfl, .nil, fun _ => ⟨fun hn => (List.not_mem_nil hn).elim,
    fun ⟨h₁, h₂, _⟩ => absurd h₁ (Nat.not_le_of_lt h₂)⟩, id⟩

theorem keeps (h : Grows s₀ s ns) {f : Form} (hf : s₀.form? (some n) = some f) :
    s.form? (some n) = some f := by
  rw [form?, h.kept n (lt_size_of_form? hf)]
  exact hf

theorem all (h : Grows s₀ s ns) (ha : s₀.All φ ms) : s.All φ ms :=
  fun n hn => (ha n hn).mono fun _ _ => h.keeps

/-- What grew before is not touched by what grows later. -/
theorem trans (h : Grows s₀ s₁ ns) (h' : Grows s₁ s₂ ms) : Grows s₀ s₂ (ns ++ ms) where
  forest := h'.forest
  size_le := Nat.le_trans h.size_le h'.size_le
  kept n hn := (h'.kept n (Nat.lt_of_lt_of_le hn h.size_le)).trans (h.kept n hn)
  nodup := h.nodup.append h'.nodup fun n hn hm =>
    Nat.not_le_of_lt ((h.roots n).1 hn).2.1 ((h'.roots n).1 hm).1
  roots n := by
    rw [List.mem_append, h.roots, h'.roots]
    by_cases hn : n < s₁.size
    · have hparent : s₂.parent (some n) = s₁.parent (some n) := by rw [parent, h'.kept n hn, parent]
      rw [hparent]
      constructor
      · rintro (⟨h₁, -, h₂⟩ | ⟨h₁, -⟩)
        · exact ⟨h₁, Nat.lt_of_lt_of_le hn h'.size_le, h₂⟩
        · exact absurd hn (Nat.not_lt_of_le h₁)
      · rintro ⟨h₁, -, h₂⟩
        exact .inl ⟨h₁, hn, h₂⟩
    · constructor
      · rintro (⟨-, h₁, -⟩ | ⟨h₁, h₂⟩)
        · exact absurd h₁ hn
        · exact ⟨Nat.le_trans h.size_le h₁, h₂⟩
      · rintro ⟨-, h₂⟩
        exact .inr ⟨Nat.le_of_not_lt hn, h₂⟩
  ahead h₀ := h'.ahead (h.ahead h₀)

theorem add (h : Grows s₀ s ns) (hns : ns.Perm form.children) (hs : s.Shaped form) (pos stop : Nat) :
    Grows s₀ (s.add form pos stop).2 [(s.add form pos stop).1] := by
  have hroots := fun c hc => (h.roots c).1 (hns.mem_iff.2 hc)
  have hkids : ∀ c ∈ form.children, c < s.size := fun c hc => (hroots c hc).2.1
  refine ⟨h.forest.add hkids (fun c hc => (hroots c hc).2.2) (hns.nodup h.nodup) hs, ?_,
    fun n hn => ?_, List.nodup_singleton _, fun n => ?_, fun h₀ i hi => ?_⟩
  · rw [size_add]
    exact Nat.le_succ_of_le h.size_le
  · have hne : n ≠ s.size := Nat.ne_of_lt (Nat.lt_of_lt_of_le hn h.size_le)
    have hold : n ∉ form.children := fun hc => Nat.not_le_of_lt hn (hroots n hc).1
    rw [get?_add h.forest hkids, if_neg hne]
    simp only [if_neg hold, Option.map_id']
    exact h.kept n hn
  · have hn : n ∈ [(s.add form pos stop).1] ↔ n = s.size := List.mem_singleton
    rw [hn, parent_add h.forest hkids, size_add]
    constructor
    · rintro rfl
      have hnot : s.size ∉ form.children := fun hc => Nat.lt_irrefl _ (hkids _ hc)
      refine ⟨h.size_le, Nat.lt_succ_self _, ?_⟩
      rw [if_neg hnot, parent, get?_eq_none_iff.2 (Nat.le_refl s.size)]
      rfl
    · rintro ⟨hle, hlt, hnone⟩
      by_contra hne
      have hold : n < s.size := Nat.lt_of_le_of_ne (Nat.le_of_lt_succ hlt) hne
      split at hnone
      · cases hnone
      · rename_i hnot
        exact hnot (hns.mem_iff.1 ((h.roots n).2 ⟨hle, hold, hnone⟩))
  · rw [size_add] at hi
    exact (attachedTo_congr (attached_adoptChildren ..) _).trans (h.ahead h₀ i (Nat.le_of_succ_le hi))

theorem treeAt {root : NodeId} (h : Grows empty s [root])
    (hform : ∃ list, s.form? (some root) = some (.program list)) : s.TreeAt root where
  root_parent := ((h.roots root).1 (List.mem_singleton.2 rfl)).2.2
  root_form := hform
  nodup p _ := h.forest.nodup p
  linked p c _ hc := (h.forest.linked p c).1 hc
  bodied n form hf := (h.forest.shaped n form hf).bodied

end Grows

end Store
end Modernizer
