import Modernizer.Rule.Basic

/-!
Passes. A pass of a rule visits every node after its children and carries out each decision at
once. The children of a node are those it has when the pass first reaches it, so what a pass puts
into the tree is not visited by it.
-/

namespace Modernizer

/-- The store in the course of a pass, and the warnings so far. -/
structure PassState where
  store : Store
  warnings : List Warning

abbrev PassM := ExceptT EditError (StateM PassState)

namespace PassM

def setStore (store : Store) : PassM Unit := modify ({ · with store })

/-- Carries out what was decided for a node. -/
def apply (n : NodeId) : Edit → PassM Unit
  | .keep => return
  | .inPlace => modify fun p => { p with store := p.store.markModified (some n) }
  | .replace new => do
    let store := (← get).store
    match store.replace? (some n) (some new) with
    | some store => setStore store
    | none => throw ⟨store.posOf (some n), .noParentSlot⟩
  | .replaceStatements rs =>
    rs.forM fun r => do
      match (← get).store.applyReplacement r with
      | .ok store => setStore store
      | .error e => throw e

/-- Asks for the decision on a node, notes its warnings and carries it out. -/
def decide (name : RuleName) (lines : LineMap) (visit : NodeId → StateM Store Decision)
    (n : NodeId) : PassM Unit := do
  let p ← get
  let (decision, store) := visit n p.store
  let warnings := decision.notices.map fun (pos, notice) =>
    (⟨name, pos, lines.lineOf pos, notice⟩ : Warning)
  set (⟨store, p.warnings ++ warnings⟩ : PassState)
  apply n decision.edit

/-- Takes a step at every node of a tree, children first. -/
def walk (step : NodeId → PassM Unit) : Nat → NodeId → PassM Unit
  | 0, _ => return
  | fuel + 1, n => do
    (← get).store.children (some n) |>.forM (walk step fuel)
    step n

end PassM

namespace Rule

/-- One pass over the tree of a program. -/
def pass (rule : Rule) (source : Text) (lines : LineMap) (root : NodeId) : PassM Unit := do
  let store := (← get).store
  let analysis := rule.analyze source ⟨store, root⟩
  PassM.walk (PassM.decide rule.name lines (rule.visit analysis)) (store.size + 1) root

end Rule
end Modernizer
