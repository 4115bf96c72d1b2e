import Modernizer.Rule.Function

/-!
The parts of the class idiom: a constructor function and the statements after it that give its
prototype members. Each statement is looked at by itself.
-/

namespace Modernizer.ClassIdiom

/-- A member of a class to be. `statement` is the one that defines it, and its comments are those of
the sources. -/
structure Member where
  name : String
  kind : MethodKind
  isStatic : Bool
  function : FunctionForm
  statement : Slot
  commentSources : List Slot
  deriving DecidableEq, Repr

/-- The expression that names the class to extend, and its dotted path. -/
structure BaseClass where
  node : Slot
  path : List String
  deriving DecidableEq, Repr

/-- What a statement is to a class. -/
inductive Part where
  | members (members : List Member)
  | prototype (members : List Member)
  | inheritance (base : BaseClass)
  | constructorLink
  | separator
  | unsupportedDescriptor
  | unrelated
  deriving DecidableEq, Repr

variable (s : Store)

/-- A function, with the parameters and the body of a method too. -/
def functionOf? (n : Slot) : Option FunctionForm :=
  match s.form? n with
  | some (.functionExpression f) | some (.functionDeclaration f) => some f
  | some (.method m) => some ⟨none, m.parameters, m.body, m.isAsync, m.isGenerator⟩
  | _ => none

/-- The text of a name that is not computed. -/
def plainKey? (name : Slot) : Option String :=
  match s.form? name with
  | some (.identifier text) | some (.stringLiteral text) | some (.numberLiteral text) => some text
  | _ => none

def baseClass? (n : Slot) (className : String) : Option BaseClass := do
  let path ← s.memberPath? n
  if path = [className] then none else some ⟨n, path⟩

/-- The name and the function of `function C() {}` or `var C = function () {}`. -/
def constructor? (statement : Slot) : Option (String × FunctionForm) := do
  let (name, f) ← match s.form? statement with
    | some (.functionDeclaration f) => some (f.name, f)
    | some (.variableStatement list) =>
      match s.form? list with
      | some (.declarationList ⟨_, ⟨[declaration], _, _⟩, _⟩) =>
        match s.form? declaration with
        | some (.declaration name initializer) =>
          (s.plainFunction? (s.skipParentheses initializer)).map ((name, ·))
        | _ => none
      | _ => none
    | _ => none
  let name ← s.identifierName? name
  if f.isAsync || f.isGenerator then none else some (name, f)

/-- A member from a property of a prototype object. -/
def objectMember? (statement property : Slot) : Option Member :=
  match s.form? property with
  | some (.property name value) => do
    let key ← plainKey? s name
    let f ← s.plainFunction? (s.skipParentheses value)
    some ⟨key, .method, false, f, statement, [property]⟩
  | some (.method m) => do
    if m.isStatic || m.kind = .constructing then none
    let key ← plainKey? s m.name
    let f ← functionOf? s property
    some ⟨key, m.kind, false, f, statement, [property]⟩
  | _ => none

/-- The value that a prototype is set to: `Object.create(B.prototype)`, `new B()` or an object of
functions. -/
def prototypePart (statement value : Slot) (className : String) : Part :=
  let extending := fun base => ((baseClass? s base className).map Part.inheritance).getD .unrelated
  match s.form? value with
  | some (.call callee ⟨[argument], _, _⟩ false) =>
    match s.form? argument with
    | some (.member base name false) =>
      if s.memberPath? callee = some ["Object", "create"] ∧
          s.identifierName? name = some "prototype" then extending base
      else .unrelated
    | _ => .unrelated
  | some (.new callee arguments) =>
    if arguments.any (!·.nodes.isEmpty) then .unrelated else extending callee
  | some (.object properties) =>
    ((properties.nodes.mapM (objectMember? s statement)).map Part.prototype).getD .unrelated
  | _ => .unrelated

/-- Assignments such as `C.prototype.m = function () {}`. -/
def assignmentPart (statement left right : Slot) (className : String) : Part :=
  let right := s.skipParentheses right
  let method := fun name isStatic =>
    match s.plainFunction? right with
    | some f => Part.members [⟨name, .method, isStatic, f, statement, [statement]⟩]
    | none => .unrelated
  match s.memberPath? left with
  | some (head :: path) =>
    if head ≠ className then .unrelated
    else
      match path with
      | ["prototype", "constructor"] =>
        if s.identifierName? right = some className then .constructorLink else .unrelated
      | ["prototype", name] => method name false
      | ["prototype"] => prototypePart s statement right className
      | [name] => method name true
      | _ => .unrelated
  | _ => .unrelated

/-- The value of an accessor in a descriptor. -/
def accessor? (value : Slot) : Option FunctionForm :=
  match s.form? value with
  | some (.method _) => functionOf? s value
  | _ => s.plainFunction? (s.skipParentheses value)

/-- The accessors that the properties of a descriptor define, the later of two. Class accessors are
configurable as one likes but never enumerable, and nothing else has a place in a class. -/
def descriptorAccessors? : List Slot → Option FunctionForm → Option FunctionForm →
    Option (Option FunctionForm × Option FunctionForm)
  | [], getter, setter => some (getter, setter)
  | property :: rest, getter, setter => do
    let (name, value) ← match s.form? property with
      | some (.property name value) => some (name, value)
      | some (.method m) => if m.kind = .method then some (m.name, property) else none
      | _ => none
    let key ← plainKey? s name
    match key, ← s.form? value with
    | "get", _ => descriptorAccessors? rest (some (← accessor? s value)) setter
    | "set", _ => descriptorAccessors? rest getter (some (← accessor? s value))
    | "enumerable", .booleanLiteral false => descriptorAccessors? rest getter setter
    | "configurable", .booleanLiteral _ => descriptorAccessors? rest getter setter
    | _, _ => none

/-- A call `Object.defineProperty(C.prototype, 'x', descriptor)`, on the class or its prototype. -/
def descriptorPart (statement target key descriptor : Slot) (className : String) : Part :=
  let define := fun isStatic =>
    match s.form? key, s.form? descriptor with
    | some (.stringLiteral name), some (.object properties) =>
      match descriptorAccessors? s properties.nodes none none with
      | some (getter, setter) =>
        let member := fun kind f => (⟨name, kind, isStatic, f, statement, [statement]⟩ : Member)
        match (getter.map (member .getter)).toList ++ (setter.map (member .setter)).toList with
        | [] => Part.unsupportedDescriptor
        | members => .members members
      | none => .unsupportedDescriptor
    | _, _ => .unsupportedDescriptor
  match s.memberPath? target with
  | some path =>
    if path = [className, "prototype"] then define false
    else if path = [className] then define true
    else .unrelated
  | none => .unrelated

/-- The calls `inherits(C, B)`, `util.inherits(C, B)` and those that define properties. -/
def callPart (statement callee : Slot) (arguments : List Slot) (className : String) : Part :=
  match s.memberPath? callee, arguments with
  | some ["inherits"], [child, base] | some [_, "inherits"], [child, base] =>
    if s.identifierName? child = some className then
      ((baseClass? s base className).map Part.inheritance).getD .unrelated
    else .unrelated
  | some ["Object", "defineProperty"], [target, key, descriptor] =>
    descriptorPart s statement target key descriptor className
  | _, _ => .unrelated

/-- What a statement is to the class of a name. -/
def part (statement : Slot) (className : String) : Part :=
  match s.form? statement with
  | some .emptyStatement => .separator
  | some (.expressionStatement e) =>
    match s.form? (s.skipParentheses e) with
    | some (.binary left (.punctuator .assign) right) =>
      assignmentPart s statement left right className
    | some (.call callee arguments false) => callPart s statement callee arguments.nodes className
    | _ => .unrelated
  | _ => .unrelated

end Modernizer.ClassIdiom
