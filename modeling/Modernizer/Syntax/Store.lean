import Modernizer.Comment.Basic
import Modernizer.Syntax.Form

/-!
The store of a program: its nodes by number, the comments of its source and the nodes these are
attached to. Numbers stay valid; a node that was replaced is only no longer a child. Each of
`get?_modify`, `get?_synthesize` and `attachedTo_setAttached` says what an edit changes and that it
changes nothing else.
-/

namespace Modernizer

/-- A form with its place. `origin` is the parsed node whose place a synthesized one took. -/
structure Node where
  form : Form
  pos : Nat
  stop : Nat
  parent : Slot
  origin : Slot
  synthesized : Bool
  modified : Bool
  listEdited : Bool
  deriving DecidableEq, Repr

namespace Node

def isPristine (n : Node) : Bool := !n.synthesized && !n.modified

def hasSpan (n : Node) : Bool := n.pos < n.stop || (!n.synthesized && n.stop == n.pos)

end Node

/-- Numbers of the comments printed before a node and after it. -/
structure Attached where
  leading : List Nat
  trailing : List Nat
  deriving DecidableEq, Repr

namespace Attached

def none : Attached := ⟨[], []⟩

def isEmpty (a : Attached) : Bool := a.leading.isEmpty && a.trailing.isEmpty

def append (a b : Attached) : Attached := ⟨a.leading ++ b.leading, a.trailing ++ b.trailing⟩

end Attached

structure Store where
  nodes : Array Node
  comments : List Comment
  attached : List (Slot × Attached)
  deriving Repr

namespace Store

def empty : Store := ⟨#[], [], []⟩

def size (s : Store) : Nat := s.nodes.size

def get? (s : Store) (n : Slot) : Option Node := n.bind (s.nodes[·]?)

@[simp] theorem get?_none (s : Store) : s.get? none = none := rfl

theorem get?_eq_none_iff {s : Store} {i : NodeId} : s.get? (some i) = none ↔ s.size ≤ i := by
  simp [get?, size]

def form? (s : Store) (n : Slot) : Option Form := (s.get? n).map (·.form)

def posOf (s : Store) (n : Slot) : Nat := ((s.get? n).map (·.pos)).getD 0

/-- Changes one node. -/
def modify (s : Store) (n : Slot) (f : Node → Node) : Store :=
  match n with
  | none => s
  | some i => { s with nodes := s.nodes.modify i f }

@[simp] theorem size_modify (s : Store) (n : Slot) (f : Node → Node) :
    (s.modify n f).size = s.size := by
  cases n <;> simp [modify, size]

theorem get?_modify (s : Store) (n m : Slot) (f : Node → Node) :
    (s.modify n f).get? m = if n = m then (s.get? m).map f else s.get? m := by
  cases n <;> cases m <;> simp [modify, get?, Array.getElem?_modify]

def children (s : Store) (n : Slot) : List NodeId := ((s.form? n).map Form.children).getD []

def parent (s : Store) (n : Slot) : Slot := (s.get? n).bind (·.parent)

def statementList? (s : Store) (n : Slot) : Option StatementList :=
  (s.form? n).bind Form.statementList?

def identifierName? (s : Store) (n : Slot) : Option String :=
  match s.form? n with
  | some (.identifier name) => some name
  | _ => none

def isPristine (s : Store) (n : Slot) : Bool := (s.get? n).any Node.isPristine

def isSynthesized (s : Store) (n : Slot) : Bool := (s.get? n).any (·.synthesized)

/-- A node, its parent, the parent of that, and so on up to the root. -/
def lineage (s : Store) (n : Slot) : List NodeId :=
  go (s.size + 1) n
where
  go : Nat → Slot → List NodeId
    | 0, _ | _, none => []
    | fuel + 1, some i => i :: go fuel (s.parent (some i))

def isAncestorOrSelf (s : Store) (ancestor n : Slot) : Bool :=
  (s.lineage n).any fun i => some i == ancestor

def findAncestor? (s : Store) (n : Slot) (p : Form → Bool) : Option NodeId :=
  (s.lineage (s.parent n)).find? fun i => (s.form? (some i)).any p

def setParent (s : Store) (child parent : Slot) : Store := s.modify child ({ · with parent })

/-- Links the children of a node to it, and those of its synthesized children to these. Later
children are done first. This is what the links are where linking ends: it does not if a synthesized
node comes back to itself, and then nothing is claimed of the result. -/
def adoptChildren (s : Store) (n : NodeId) : Store :=
  go (s.size + 1) n s
where
  go : Nat → NodeId → Store → Store
    | 0, _, s => s
    | fuel + 1, n, s =>
      let children := s.children (some n)
      let s := children.foldl (fun s child => s.setParent (some child) (some n)) s
      children.foldr
        (fun child s => if s.isSynthesized (some child) then go fuel child s else s) s

def add (s : Store) (form : Form) (pos stop : Nat) : NodeId × Store :=
  let node : Node := ⟨form, pos, stop, none, none, false, false, false⟩
  (s.size, { s with nodes := s.nodes.push node }.adoptChildren s.size)

def synthesize (s : Store) (form : Form) : NodeId × Store :=
  let node : Node := ⟨form, 0, 0, none, none, true, false, false⟩
  (s.size, { s with nodes := s.nodes.push node })

@[simp] theorem size_synthesize (s : Store) (form : Form) :
    (s.synthesize form).2.size = s.size + 1 := by
  simp [synthesize, size]

theorem get?_synthesize (s : Store) (form : Form) (m : Slot) :
    (s.synthesize form).2.get? m =
      if m = some s.size then some ⟨form, 0, 0, none, none, true, false, false⟩ else s.get? m := by
  cases m <;> simp [synthesize, get?, size, Array.getElem?_push]

/-- Marks a node and its ancestors, up to the first one that is marked already. -/
def markModified (s : Store) (n : Slot) : Store :=
  go s.size n s
where
  go : Nat → Slot → Store → Store
    | 0, _, s => s
    | fuel + 1, n, s =>
      match s.get? n with
      | none => s
      | some node =>
        if node.modified then s
        else go fuel node.parent (s.modify n ({ · with modified := true }))

def markListEdited (s : Store) (n : Slot) : Store :=
  (s.modify n ({ · with listEdited := true })).markModified n

def attachedTo (s : Store) (n : Slot) : Attached := (s.attached.lookup n).getD .none

def leadingComments (s : Store) (n : Slot) : List Nat := (s.attachedTo n).leading

def trailingComments (s : Store) (n : Slot) : List Nat := (s.attachedTo n).trailing

def setAttached (s : Store) (n : Slot) (a : Attached) : Store :=
  let others := s.attached.filter (·.1 != n)
  { s with attached := if a.isEmpty then others else (n, a) :: others }

theorem lookup_filter_ne (l : List (Slot × Attached)) (n m : Slot) :
    (l.filter (·.1 != n)).lookup m = if n = m then none else l.lookup m := by
  induction l with
  | nil => simp
  | cons e l ih =>
    obtain ⟨k, b⟩ := e
    by_cases hk : k = n
    · subst hk
      cases h : m == k with
      | false => simpa [List.lookup_cons, h] using ih
      | true =>
        obtain rfl : m = k := by simpa using h
        simpa using ih
    · rw [List.filter_cons_of_pos (by simpa using hk)]
      cases h : m == k with
      | false => simp only [List.lookup_cons, h, ih]
      | true =>
        obtain rfl : m = k := by simpa using h
        simp [Ne.symm hk]

theorem attachedTo_setAttached (s : Store) (n m : Slot) (a : Attached) :
    (s.setAttached n a).attachedTo m = if n = m then a else s.attachedTo m := by
  unfold setAttached attachedTo
  by_cases ha : a.isEmpty
  · simp only [ha, if_true, lookup_filter_ne]
    split
    · obtain ⟨_, _⟩ := a
      simp_all [Attached.isEmpty, Attached.none]
    · rfl
  · by_cases h : n = m
    · subst h
      simp [ha]
    · have : (m == n) = false := by simpa using Ne.symm h
      simp [ha, List.lookup_cons, this, lookup_filter_ne, h]

def addLeadingComment (s : Store) (n : Slot) (comment : Nat) : Store :=
  s.setAttached n ((s.attachedTo n).append ⟨[comment], []⟩)

def addTrailingComment (s : Store) (n : Slot) (comment : Nat) : Store :=
  s.setAttached n ((s.attachedTo n).append ⟨[], [comment]⟩)

def trailingStop (s : Store) (n : Slot) : Nat :=
  let stop := ((s.get? n).map (·.stop)).getD 0
  ((s.trailingComments n).filterMap (s.comments[·]?)).foldl (fun m c => max m c.stop) stop

/-- Puts `new` in the place of `old`. A synthesized `new` takes over the span, and the parsed node
that stood there first becomes its origin; the comments of `old` follow its own. Without a parent
that holds `old` nothing changes and there is no result. -/
def replace? (s : Store) (old new : Slot) : Option Store :=
  (s.get? old).bind fun node =>
    (s.form? node.parent).bind fun form =>
      if form.slots.contains old then
        let origin := if node.synthesized && node.origin.isSome then node.origin else old
        let swap := fun slot => if slot = old then new else slot
        let s := s.modify node.parent ({ · with form := form.mapSlots swap })
        let s := s.modify new fun n =>
          if n.synthesized then
            { n with parent := node.parent, pos := node.pos, stop := node.stop, origin }
          else { n with parent := node.parent }
        let s := if s.isSynthesized new then new.elim s s.adoptChildren else s
        let comments := s.attachedTo old
        let s := s.setAttached old .none
        let s := s.setAttached new ((s.attachedTo new).append comments)
        some (s.markModified node.parent)
      else none

/-- Gives a program, block or case clause its statements. -/
def setStatements? (s : Store) (container : Slot) (statements : List Slot) : Option Store :=
  (s.statementList? container).map fun _ =>
    let s := s.modify container fun n => { n with form := n.form.withStatements statements }
    let s := statements.foldl
      (fun s statement =>
        let s := s.setParent statement container
        if s.isSynthesized statement then statement.elim s s.adoptChildren else s) s
    s.markListEdited container

end Store

def makeNode (form : Form) : StateM Store NodeId := modifyGet (·.synthesize form)

/-- A store with the node its tree grows from. -/
structure Program where
  store : Store
  root : NodeId

end Modernizer
