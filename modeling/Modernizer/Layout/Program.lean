import Modernizer.Layout.NewCode
import Modernizer.Layout.Sequence

/-!
Printing of programs. A node that is as parsed is a copy of its source; one with changes below it
is the source around its children, which are printed; a new one is printed from its fields.
-/

namespace Modernizer.Printer

variable (P : Printer) (p : Slot → Print)

/-- The children lie one after the other inside a range, each with a place in the source. -/
def tiles (stop : Nat) : Nat → List NodeId → Bool
  | _, [] => true
  | pos, child :: children =>
    match P.store.get? (some child) with
    | none => false
    | some node =>
      !(node.synthesized && node.origin.isNone) && pos ≤ node.pos && node.stop ≤ stop &&
        tiles stop node.stop children

/-- The source from `pos` on with the children printed in their places. -/
def splice (stop : Nat) : Nat → List NodeId → Print
  | pos, [] => P.copy pos stop
  | pos, child :: children => do
    match P.store.get? (some child) with
    | none => splice stop pos children
    | some node =>
      P.copy pos node.pos
      p (some child)
      splice stop node.stop children

def spliced (node : Node) : Print := do
  let children := node.form.children
  if P.tiles node.stop node.pos children then
    match node.form with
    | .declarationList list =>
      word list.kind.keyword
      P.splice p node.stop (node.pos + list.spelledKind.keyword.utf8ByteSize) children
    | _ => P.splice p node.stop node.pos children
  else P.formCode p node.form

/-- A node without parentheses around it. -/
def bare (node : Node) : Print :=
  if node.isPristine then P.copy node.pos node.stop
  else if node.synthesized then P.formCode p node.form
  else
    match node.form.statementList? with
    | some list => if node.listEdited then P.editedContainer p list node else P.spliced p node
    | none => P.spliced p node

def printWith (n : Slot) : Print :=
  match P.store.get? n with
  | none => return
  | some node =>
    if P.needsParentheses n then do
      word "("
      P.bare p node
      word ")"
    else P.bare p node

/-- Prints a node. No path down the tree is longer than the number of nodes. -/
def print (n : Slot) : Print :=
  go (P.store.size + 1) n
where
  go : Nat → Slot → Print
    | 0, _ => return
    | fuel + 1, n => P.printWith (go fuel) n

def text (n : Slot) : Text :=
  let start : Writer := { Writer.empty with newline := P.options.newline }
  ((P.print n).run start).2.text

end Modernizer.Printer

namespace Modernizer

def Store.print (s : Store) (source : Text) (n : Slot) : Text :=
  Printer.text ⟨s, source, .detect source⟩ n

def Program.print (p : Program) (source : Text) : Text := p.store.print source (some p.root)

end Modernizer
