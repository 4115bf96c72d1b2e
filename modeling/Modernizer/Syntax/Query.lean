import Modernizer.Syntax.Store

/-!
Questions about the shape of syntax: references to `this` and `arguments`, bound names, dotted
paths. Recursion is bounded by the number of nodes, which no path down a tree exceeds.
-/

namespace Modernizer.Store

/-- What an arrow function takes from around it and another function does not. -/
inductive Capture where
  | this | arguments
  deriving DecidableEq, Repr

def Capture.word : Capture → String
  | this => "this"
  | arguments => "arguments"

/-- An identifier that names a variable, not a property, a method or a label. -/
def isReference (s : Store) (n : Slot) : Bool :=
  match s.form? (s.parent n) with
  | some (.member _ name _) | some (.property name _) => name != n
  | some (.method m) => m.name != n
  | some (.labeledStatement label _) => label != n
  | some (.breakStatement _) | some (.continueStatement _) => false
  | _ => true

/-- A reference to `this`, `super` or `arguments` below a node that means the one outside it. Of a
method only the name is outside. -/
def captures (s : Store) (target : Capture) (n : Slot) : Bool :=
  go (s.size + 1) n
where
  go : Nat → Slot → Bool
    | 0, _ => false
    | fuel + 1, n =>
      match s.form? n with
      | none => false
      | some (.thisExpression) | some (.superExpression) => target == .this
      | some (.identifier name) => name == target.word && s.isReference n
      | some (.functionDeclaration _) | some (.functionExpression _) => false
      | some (.method m) => go fuel m.name
      | some form => form.children.any fun child => go fuel (some child)

/-- The names that a declaration target binds, in order. -/
def bindingNames (s : Store) (target : Slot) : List Slot :=
  go (s.size + 1) target
where
  go : Nat → Slot → List Slot
    | 0, _ => []
    | fuel + 1, target =>
      match s.form? target with
      | some (.identifier _) => [target]
      | some (.object properties) =>
        properties.nodes.flatMap fun property =>
          match s.form? property with
          | some (.property _ value) => go fuel value
          | some (.shorthandProperty name _) => [name]
          | some (.spread e) => go fuel e
          | _ => []
      | some (.array elements) => elements.nodes.flatMap (go fuel)
      | some (.spread e) | some (.parenthesized e) => go fuel e
      | some (.parameter name _ _) => go fuel name
      | some (.binary left _ _) => go fuel left
      | _ => []

/-- The names along a chain of accesses by a plain name or a string. -/
def memberPath? (s : Store) (n : Slot) : Option (List String) :=
  go (s.size + 1) n
where
  go : Nat → Slot → Option (List String)
    | 0, _ => none
    | fuel + 1, n =>
      match s.form? n with
      | some (.identifier name) => some [name]
      | some (.member object name false) => do
        let path ← go fuel object
        let last ← s.identifierName? name
        return path ++ [last]
      | some (.element object index false) => do
        let path ← go fuel object
        match s.form? index with
        | some (.stringLiteral value) => return path ++ [value]
        | _ => none
      | _ => none

/-- What stands inside any number of parentheses. -/
def skipParentheses (s : Store) (n : Slot) : Slot :=
  go (s.size + 1) n
where
  go : Nat → Slot → Slot
    | 0, n => n
    | fuel + 1, n =>
      match s.form? n with
      | some (.parenthesized e) => go fuel e
      | _ => n

/-- A node and all below it, children in source order and each before its own children. -/
def preorder (s : Store) (n : NodeId) : List NodeId :=
  go (s.size + 1) n
where
  go : Nat → NodeId → List NodeId
    | 0, _ => []
    | fuel + 1, n => n :: (s.children (some n)).flatMap (go fuel)

/-- A node and all below it, children in source order and each after its own children. -/
def postorder (s : Store) (n : NodeId) : List NodeId :=
  go (s.size + 1) n
where
  go : Nat → NodeId → List NodeId
    | 0, _ => []
    | fuel + 1, n => (s.children (some n)).flatMap (go fuel) ++ [n]

end Modernizer.Store
