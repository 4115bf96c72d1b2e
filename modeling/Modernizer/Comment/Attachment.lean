import Modernizer.Distinct
import Modernizer.Syntax.Store

/-!
Which node a comment goes with. Only comments between the elements of a statement list, an object
literal or a class body are attached; all others are part of the text of an element. In a gap, a
comment on the line where the element before it ends trails that element and any other leads the
element after it. A comment after the last element and not on its line stays where it is. Comments of
nodes that go away can be given to those that come.
-/

namespace Modernizer

/-- A comment is to be printed before or after a node. -/
structure Attachment where
  node : NodeId
  comment : Nat
  trailing : Bool
  deriving DecidableEq, Repr

namespace Attachment

/-- The elements of a container and the range of its contents. -/
def container? : Form → Option (List Slot × Nat × Nat)
  | .program list | .block list | .caseClause _ list =>
    some (list.statements, list.innerPos, list.innerStop)
  | .object list => some (list.nodes, list.pos, list.stop)
  | .classDeclaration c | .classExpression c =>
    some (c.members.nodes, c.members.pos, c.members.stop)
  | _ => none

/-- The element before a gap. -/
structure Neighbour where
  node : NodeId
  stop : Nat
  deriving DecidableEq, Repr

/-- The attachments of one gap, from `start` to `stop`, between two elements. -/
def inGap (source : Text) (comments : List (Comment × Nat)) (previous : Option Neighbour)
    (following : Slot) (start stop : Nat) : List Attachment :=
  let inside := (comments.dropWhile (·.1.pos < start)).takeWhile (·.1.stop ≤ stop)
  inside.filterMap fun (comment, i) =>
    let trails := previous.filter fun p => !Text.spansLineBreak source p.stop comment.pos
    match trails, following with
    | some p, _ => some ⟨p.node, i, true⟩
    | none, some n => some ⟨n, i, false⟩
    | none, none => none

/-- The attachments of the gaps before each of some elements and after the last. -/
def inGaps (source : Text) (comments : List (Comment × Nat)) (stop : Nat) :
    Option Neighbour → Nat → List (NodeId × Node) → List Attachment
  | previous, start, [] => inGap source comments previous none start stop
  | previous, start, (n, node) :: rest =>
    inGap source comments previous (some n) start node.pos ++
      inGaps source comments stop (some ⟨n, node.stop⟩) node.stop rest

/-- The attachments within one node. -/
def within (source : Text) (s : Store) (form : Form) : List Attachment :=
  match container? form with
  | none => []
  | some (elements, start, stop) =>
    let present := elements.filterMap fun e => e.bind fun n => (s.nodes[n]?).map ((n, ·))
    inGaps source s.comments.zipIdx stop none start present

end Attachment

/-- Attaches the comments of the store to its nodes. -/
def Store.attachComments (source : Text) (s : Store) : Store :=
  let attachments := s.nodes.toList.flatMap fun node => Attachment.within source s node.form
  attachments.foldl
    (fun s a =>
      if a.trailing then s.addTrailingComment (some a.node) a.comment
      else s.addLeadingComment (some a.node) a.comment) s

namespace Store

def commentsOf (s : Store) (nodes : List Slot) : List Nat :=
  firstOccurrences (nodes.flatMap fun n => s.leadingComments n ++ s.trailingComments n)

def attachLeading (s : Store) (n : Slot) (comments : List Nat) : Store :=
  s.setAttached n ((s.attachedTo n).append ⟨comments, []⟩)

/-- Moves all comments of one node to another. -/
def transferComments (s : Store) (source target : Slot) : Store :=
  let moved := s.attachedTo source
  if moved.isEmpty then s
  else (s.setAttached target ((s.attachedTo target).append moved)).setAttached source .none

end Store
end Modernizer
