import Modernizer.Rule.Pass

/-!
Renewal: new nodes with the same forms in place of the nodes of a tree. Printing a renewed tree
shows its code without any of its source text.
-/

namespace Modernizer

namespace PassM

/-- Puts a new node with the same form in place of a node, if it is one of the chosen. -/
def renew (chosen : NodeId → Form → Bool) (n : NodeId) : PassM Unit := do
  let store := (← get).store
  match store.form? (some n) with
  | none => return
  | some form =>
    if chosen n form then
      let (new, store) := store.synthesize form
      setStore store
      apply n (.replace new)

end PassM

namespace Store

/-- Renews the chosen nodes below a root, children first. -/
def renewTree (s : Store) (chosen : NodeId → Form → Bool) (root : NodeId) :
    Except EditError Unit × Store :=
  let (result, p) := (PassM.walk (PassM.renew chosen) (s.size + 1) root).run.run ⟨s, []⟩
  (result, p.store)

end Store
end Modernizer
