import Modernizer.Scope.Reference

/-!
Which `var` declarations can be `let` or `const`. A declared name is safe when it is bound once,
when every reference to it stands after its declaration inside the block that a `let` would be
visible in, when no function that refers to it is itself referred to before the declaration, and
when a loop makes no difference. It is constant when it is initialized and never assigned again.
-/

namespace Modernizer.Scope

inductive Verdict where
  | unsafe_ | letSafe | constSafe
  deriving DecidableEq, Repr

/-- The lesser of two verdicts. -/
def Verdict.meet : Verdict → Verdict → Verdict
  | .unsafe_, _ | _, .unsafe_ => .unsafe_
  | .letSafe, _ | _, .letSafe => .letSafe
  | .constSafe, .constSafe => .constSafe

/-- A reference and what its name is bound to. -/
structure Resolved where
  reference : Reference
  bindings : List Binding
  deriving DecidableEq, Repr

/-- The bindings of a program and its resolved references. -/
structure Analysis where
  store : Store
  bindings : Bindings
  resolved : List Resolved

namespace Analysis

def ofProgram (p : Program) : Analysis :=
  let b := Scope.bindings p.store p.root
  let references := programReferences p.store b p.root
  ⟨p.store, b, references.map fun r => ⟨r, b.lookup r.name r.scope⟩⟩

variable (a : Analysis)

def referencesTo (index : Nat) : List Reference :=
  (a.resolved.filter (·.bindings.contains (.variable_ index))).map (·.reference)

def isBefore (r : Reference) (pos : Nat) : Bool :=
  !a.store.isSynthesized (some r.node) && a.store.posOf (some r.node) < pos

def isCalledBefore (function : NodeId) (pos : Nat) : Bool :=
  a.resolved.any fun r => r.bindings.contains (.function function) && a.isBefore r.reference pos

/-- A reference that a `let` in place of the `var` would not serve. -/
def breaks (v : VarBinding) (r : Reference) : Bool :=
  let outside := v.block.elim true fun block =>
    !a.store.isAncestorOrSelf (some block) (some r.node)
  let captured := r.scope != v.scope && (v.inLoopBody || v.inLoopHead)
  outside || a.isBefore r v.declaredAt || captured

def reader? (v : VarBinding) (r : Reference) : Option NodeId :=
  (r.enclosing.find? (·.2 == v.scope)).map (·.1)

def isRedeclared (v : VarBinding) : Bool :=
  (a.bindings.scopes[v.scope]?).any fun f => 1 < (f.bindings.filter (·.1 == v.name)).length

/-- The verdict on one name. -/
def nameVerdict (index : Nat) (v : VarBinding) : Verdict :=
  let references := a.referencesTo index
  let calledEarly := (references.filterMap (reader? v)).any (a.isCalledBefore · v.declaredAt)
  if v.block.isNone || (v.inLoopBody && !v.hasInitializer) || references.any (a.breaks v)
      || calledEarly || a.isRedeclared v then .unsafe_
  else if v.initialized && !references.any (·.isWrite) then .constSafe
  else .letSafe

def nameVerdicts : List (NodeId × Verdict) :=
  a.bindings.vars.toList.zipIdx.map fun (v, i) => (v.list, a.nameVerdict i v)

end Analysis

/-- The verdict on a list is the least of those on its names; without names there is none. -/
def verdict? (verdicts : List (NodeId × Verdict)) (list : NodeId) : Option Verdict :=
  match (verdicts.filter (·.1 == list)).map (·.2) with
  | [] => none
  | v :: vs => some (vs.foldl Verdict.meet v)

end Modernizer.Scope
