import Modernizer.Layout.Printer

/-!
Layout of statements that were resequenced. Each parsed statement has a lead, the blanks and
comments before it, and a tail, the comments after it on its line. A statement that was kept comes
with its own lead and tail. A new one borrows the blanks of the statement whose place it took and
brings the comments attached to it.
-/

namespace Modernizer.Printer

/-- What a statement is to the sequence that was parsed: one of its members, a member's successor,
or neither. -/
inductive Standing where
  | kept (i : Nat)
  | anchored (i : Nat)
  | inserted
  deriving DecidableEq, Repr

/-- What has been printed of a sequence: whether anything, the last parsed statement or successor
of one, and the indentation in use. -/
structure Progress where
  started : Bool
  previous : Option Nat
  indent : Text
  deriving DecidableEq, Repr

/-- The text before statement `i` follows directly on what was printed last. -/
def Progress.isContiguous (g : Progress) (i : Nat) : Bool :=
  match g.previous with
  | some j => g.started && j + 1 == i
  | none => !g.started && i == 0

variable (P : Printer) (p : Slot → Print) (list : StatementList)

def parsedIndex? (n : Slot) : Option Nat :=
  (list.parsed.reverse.idxOf? n).map (list.parsed.length - 1 - ·)

def standing (g : Progress) (n : Slot) (node : Node) : Standing :=
  if node.synthesized then
    match parsedIndex? list node.origin with
    | some i => if g.previous == some i then .inserted else .anchored i
    | none => .inserted
  else
    match parsedIndex? list n with
    | some i => .kept i
    | none => .inserted

def parsedPos (i : Nat) : Nat :=
  ((P.store.get? (list.parsed.getD i none)).map (·.pos)).getD list.innerPos

def leadPos (i : Nat) : Nat :=
  if i = 0 then list.innerPos else P.store.trailingStop (list.parsed.getD (i - 1) none)

def lead (i : Nat) : Text := P.sourceText (P.leadPos list i) (P.parsedPos list i)

/-- Writes the lead of a kept statement. Where it does not follow on the output, its blanks give
way to a line break if they have none, and to the blanks of the first statement at the start. -/
def keptLead (g : Progress) (i : Nat) : Print := do
  let start := P.leadPos list i
  let lead := P.lead list i
  if g.isContiguous i then P.copy start (start + Text.utf8Length lead)
  else
    let trimmed := Text.trimStart lead
    if !g.started then write (Text.leadingBlanks (P.lead list 0))
    else if !lead.any Text.isLineBreak then line (P.sourceIndent (P.parsedPos list i))
    else write (Text.leadingBlanks lead)
    let stop := start + Text.utf8Length lead
    P.copy (stop - Text.utf8Length trimmed) stop

/-- The blanks in front of the successor of statement `i`. -/
def anchoredLead (g : Progress) (i : Nat) : Print := do
  let lead := P.lead list i
  if g.started && !g.isContiguous i && !lead.any Text.isLineBreak then
    line (P.sourceIndent (P.parsedPos list i))
  else if !g.started && i != 0 then write (Text.leadingBlanks (P.lead list 0))
  else write (Text.leadingBlanks lead)

/-- A statement with the comments attached to it. -/
def withComments (n : Slot) (indent : Text) : Print := do
  P.leadingComments n indent
  p n
  P.trailingComments n

def sequenceStep (g : Progress) (n : Slot) : StateM Writer Progress := do
  match P.store.get? n with
  | none => return g
  | some node =>
    match standing list g n node with
    | .kept i =>
      P.keptLead list g i
      p n
      P.copy node.stop (P.store.trailingStop (list.parsed.getD i none))
      return ⟨true, some i, P.sourceIndent node.pos⟩
    | .anchored i =>
      P.anchoredLead list g i
      let indent := P.sourceIndent (P.parsedPos list i)
      P.withComments p n indent
      return ⟨true, some i, indent⟩
    | .inserted =>
      if g.started || !list.parsed.isEmpty || list.innerPos < list.innerStop then line g.indent
      P.withComments p n g.indent
      return { g with started := true }

/-- Indentation for statements in front of all parsed ones. -/
def sequenceIndent : Text :=
  match list.parsed with
  | first :: _ =>
    P.sourceIndent (((P.store.get? first).map (·.pos)).getD list.innerPos)
  | [] =>
    let outer := P.sourceIndent list.innerPos
    if list.innerPos = 0 then outer else outer ++ P.options.indentUnit

/-- The statements and what follows the last parsed one. -/
def sequence : Print := do
  let g ← list.statements.foldlM (P.sequenceStep p list) ⟨false, none, P.sequenceIndent list⟩
  let start := (list.parsed.getLast?.map P.store.trailingStop).getD list.innerPos
  let closing := P.sourceText start list.innerStop
  if g.started && list.parsed.isEmpty && !closing.any Text.isLineBreak then
    line (P.sourceIndent list.innerPos)
  P.copy start list.innerStop

/-- A program, block or case clause whose statements were resequenced. -/
def editedContainer (node : Node) : Print := do
  let head : Option Slot :=
    match node.form with
    | .caseClause e _ => if e.isSome then some e else none
    | _ => none
  match head.bind fun e => (P.store.get? e).map ((e, ·)) with
  | some (e, value) =>
    if node.pos ≤ value.pos && value.stop ≤ list.innerPos then
      P.copy node.pos value.pos
      p e
      P.copy value.stop list.innerPos
    else P.copy node.pos list.innerPos
  | none => P.copy node.pos list.innerPos
  P.sequence p list
  P.copy list.innerStop node.stop

end Modernizer.Printer
