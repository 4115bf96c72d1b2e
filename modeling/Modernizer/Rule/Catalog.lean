import Modernizer.Distinct
import Modernizer.Rule.Arrow
import Modernizer.Rule.Call
import Modernizer.Rule.Classes
import Modernizer.Rule.Declaration
import Modernizer.Rule.Directive
import Modernizer.Rule.ObjectMember
import Modernizer.Rule.Pass
import Modernizer.Text.Line

/-!
The rule of each name, passes of several rules one after the other, and selections of rules, written
as names with commas between them. A selection has no rule twice.
-/

namespace Modernizer

def RuleName.rule : RuleName → Rule
  | classes => Rule.classes
  | letConst => Rule.letConst
  | arrow => Rule.arrow
  | arrowReturn => Rule.arrowReturn
  | objectMethod => Rule.objectMethod
  | objectShorthand => Rule.objectShorthand
  | noStrict => Rule.noStrict
  | exponent => Rule.exponent
  | multiVar => Rule.multiVar
  | argumentSpread => Rule.argumentSpread

theorem RuleName.name_rule (r : RuleName) : r.rule.name = r := by cases r <;> rfl

namespace Rule

def passes (rules : List RuleName) (source : Text) (lines : LineMap) (root : NodeId) :
    PassM Unit :=
  rules.forM fun r => r.rule.pass source lines root

def runOn (rules : List RuleName) (source : Text) (p : Program) :
    Except EditError Unit × PassState :=
  (passes rules source (.ofText source) p.root).run.run ⟨p.store, []⟩

end Rule

namespace RuleName

def ofText? (text : Text) : Option RuleName := all.find? fun r => r.text.toList == text

theorem ofText?_eq_some_iff {text : Text} {r : RuleName} :
    ofText? text = some r ↔ r.text.toList = text := by
  constructor
  · intro h
    simpa using List.find?_some h
  · rintro rfl
    cases r <;> rfl

/-- The rule of a name, or the text that names none. -/
def read (text : Text) : Except Text RuleName :=
  match ofText? text with
  | some r => .ok r
  | none => .error text

def entries (list : Text) : List Text :=
  ((Text.split ',' list).map Text.trim).filter (!·.isEmpty)

theorem entries_append (a b : Text) : entries (a ++ ',' :: b) = entries a ++ entries b := by
  simp [entries, Text.split_append]

def parseSelection (list : Text) : Except Text (List RuleName) :=
  firstOccurrences <$> (entries list).mapM read

theorem nodup_parseSelection {list : Text} {rules : List RuleName}
    (h : parseSelection list = .ok rules) : rules.Nodup := by
  unfold parseSelection at h
  cases e : (entries list).mapM read with
  | error _ => rw [e] at h; cases h
  | ok names =>
    rw [e] at h
    cases h
    exact nodup_firstOccurrences names

end RuleName

def unknownRuleMessage (name : Text) : String :=
  "Unknown transform \"" ++ String.ofList name ++ "\"."

end Modernizer
