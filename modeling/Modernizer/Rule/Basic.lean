import Modernizer.Comment.Attachment
import Modernizer.Text.Position

/-!
What a rule is. A rule sees the nodes of a program one by one and decides for each what becomes of
it; where it declines it may warn. New nodes it makes are loose until the decision is carried out.
-/

namespace Modernizer

/-- The rules by name. -/
inductive RuleName where
  | classes | letConst | arrow | arrowReturn | objectMethod | objectShorthand | noStrict
  | exponent | multiVar | argumentSpread
  deriving DecidableEq, Repr

namespace RuleName

def all : List RuleName :=
  [classes, letConst, arrow, arrowReturn, objectMethod, objectShorthand, noStrict, exponent,
    multiVar, argumentSpread]

theorem mem_all (r : RuleName) : r ∈ all := by cases r <;> decide

def text : RuleName → String
  | classes => "class"
  | letConst => "let"
  | arrow => "arrow"
  | arrowReturn => "arrow-return"
  | objectMethod => "obj-method"
  | objectShorthand => "obj-shorthand"
  | noStrict => "no-strict"
  | exponent => "exponent"
  | multiVar => "multi-var"
  | argumentSpread => "arg-spread"

theorem text_injective {r r' : RuleName} (h : r.text = r'.text) : r = r' := by
  cases r <;> cases r' <;> first | rfl | (revert h; decide)

end RuleName

/-- Why a rule left a place alone that it was meant for. -/
inductive Notice where
  | unsafeVar
  | argumentsInArrow
  | unsupportedDescriptor
  deriving DecidableEq, Repr

def Notice.message : Notice → String
  | unsafeVar => "Unable to transform var"
  | argumentsInArrow => "Can not use arguments in arrow function"
  | unsupportedDescriptor => "Unsupported Object.defineProperty descriptor"

/-- A place of the source that a rule left alone. -/
structure Warning where
  rule : RuleName
  pos : Nat
  line : UInt32
  notice : Notice
  deriving DecidableEq, Repr

namespace Warning

def text (w : Warning) : String :=
  toString w.line ++ ":  warning  " ++ w.notice.message ++ "  (" ++ w.rule.text ++ ")"

def sorted (ws : List Warning) : List Warning := ws.mergeSort fun a b => a.pos ≤ b.pos

end Warning

/-- How an edit does not fit the tree. -/
inductive Misfit where
  | noParentSlot
  | notContainer
  | anchorAbsent
  | removalAbsent
  deriving DecidableEq, Repr

def Misfit.detail : Misfit → String
  | noParentSlot => "replaced node has no parent slot"
  | notContainer => "replacement parent is not a statement container"
  | anchorAbsent => "anchor is not a member of its container"
  | removalAbsent => "statement scheduled for removal is not a member of the container"

structure EditError where
  pos : Nat
  misfit : Misfit
  deriving DecidableEq, Repr

def EditError.message (e : EditError) : String :=
  "structural mismatch at offset " ++ toString e.pos ++ ": " ++ e.misfit.detail

/-- Statements of a container that give way to others: the anchor, in whose place these come, and
further ones. -/
structure Replacement where
  parent : Slot
  anchor : Slot
  others : List Slot
  replacements : List Slot
  deriving DecidableEq, Repr

namespace Replacement

/-- The anchor is not counted among the others. -/
def of (parent anchor : Slot) (others replacements : List Slot) : Replacement :=
  ⟨parent, anchor, others.filter (· != anchor), replacements⟩

/-- The statements of the container afterwards. -/
def result (r : Replacement) (statements : List Slot) : List Slot :=
  let i := statements.idxOf r.anchor
  (statements.take i).filter (!r.others.contains ·) ++ r.replacements ++
    (statements.drop (i + 1)).filter (!r.others.contains ·)

end Replacement

namespace Store

/-- New nodes take over the span of the anchor, and the parsed statement that stood there first is
their origin. -/
def adoptAnchorSpan (s : Store) (anchor : Slot) (replacements : List Slot) : Store :=
  match s.get? anchor with
  | none => s
  | some node =>
    let origin := if node.synthesized && node.origin.isSome then node.origin else anchor
    replacements.foldl
      (fun s n => s.modify n fun new =>
        if new.synthesized then { new with pos := node.pos, stop := node.stop, origin } else new) s

/-- Carries out a replacement, or tells why it does not fit and leaves everything as it was. -/
def applyReplacement (s : Store) (r : Replacement) : Except EditError Store :=
  let posOr := fun n => ((s.get? n).map (·.pos)).getD (s.posOf r.parent)
  match s.statementList? r.parent with
  | none => .error ⟨s.posOf r.parent, .notContainer⟩
  | some list =>
    if !list.statements.contains r.anchor then .error ⟨posOr r.anchor, .anchorAbsent⟩
    else
      match r.others.find? (!list.statements.contains ·) with
      | some absent => .error ⟨posOr absent, .removalAbsent⟩
      | none =>
        let s := s.adoptAnchorSpan r.anchor r.replacements
        .ok ((s.setStatements? r.parent (r.result list.statements)).getD s)

end Store

/-- What becomes of a node. -/
inductive Edit where
  | keep
  | inPlace
  | replace (new : NodeId)
  | replaceStatements (replacements : List Replacement)
  deriving DecidableEq, Repr

/-- An edit with the warnings that come with it. -/
structure Decision where
  edit : Edit
  notices : List (Nat × Notice)
  deriving DecidableEq, Repr

namespace Decision

def keep : Decision := ⟨.keep, []⟩

def replace (new : NodeId) : Decision := ⟨.replace new, []⟩

def warn (pos : Nat) (notice : Notice) : Decision := ⟨.keep, [(pos, notice)]⟩

end Decision

/-- A rule: what it finds out about the program before a pass, and its decisions. -/
structure Rule where
  name : RuleName
  Analysis : Type
  analyze : Text → Program → Analysis
  visit : Analysis → NodeId → StateM Store Decision

namespace Rule

def simple (name : RuleName) (visit : NodeId → StateM Store Decision) : Rule :=
  ⟨name, Unit, fun _ _ => (), fun _ => visit⟩

/-- Replaces the visited node by a new one. -/
def replaceBy (form : Form) : StateM Store Decision := Decision.replace <$> makeNode form

end Rule
end Modernizer
