import Modernizer.Proofs.Rule.SuperUse
import Modernizer.Proofs.Tree.Extent

/-! Calls of base methods as phrases. A phrase is what a node stands for: the forms below it, whatever
numbers their nodes have. `Phrase.withSuper` puts calls of `super` in their places by recursion on the
phrase, the parts of a call before the call itself, and stays out of what has its own `this`. What it
gives has no such call any more. -/

namespace Modernizer

namespace Form

theorem mapSlots_mapSlots (g h : Slot → Slot) (f : Form) :
    (f.mapSlots g).mapSlots h = f.mapSlots (h ∘ g) := by
  cases f with
  | new e arguments => cases arguments <;> simp [mapSlots, NodeList.map]
  | _ => simp [mapSlots, NodeList.map, StatementList.map, FunctionForm.mapSlots, ClassForm.mapSlots]

theorem mapSlots_congr {f : Form} {g h : Slot → Slot} (hgh : ∀ x ∈ f.slots, g x = h x) :
    f.mapSlots g = f.mapSlots h := by
  cases f with
  | new e arguments => cases arguments <;> simp_all [mapSlots, slots, NodeList.map]
  | _ => simp_all [mapSlots, slots, NodeList.map, StatementList.map, FunctionForm.mapSlots,
      ClassForm.mapSlots]

/-- A form without its children. -/
def bare (f : Form) : Form := f.mapSlots fun _ => none

theorem bare_mapSlots (g : Slot → Slot) (f : Form) : (f.mapSlots g).bare = f.bare :=
  mapSlots_mapSlots g _ f

end Form

/-- A tree of bare forms, each with what is in its child positions. -/
inductive Phrase where
  | vacant
  | of (form : Form) (parts : List Phrase)

namespace Phrase

theorem induct {P : Phrase → Prop} (vacant : P .vacant)
    (of : ∀ form parts, (∀ p ∈ parts, P p) → P (.of form parts)) : ∀ p, P p
  | .vacant => vacant
  | .of form parts => of form parts fun p _ => induct vacant of p

end Phrase

namespace Store

variable {s s' : Store} {root n : NodeId} {v : Slot} {f : Form}

/-- What is in a slot. -/
def phrase (s : Store) (v : Slot) : Phrase :=
  go (s.size + 1) v
where
  go : Nat → Slot → Phrase
    | 0, _ => .vacant
    | fuel + 1, v =>
      match s.form? v with
      | none => .vacant
      | some f => .of f.bare (f.slots.map (go fuel))

theorem phrase_of_none (h : s.form? v = none) : s.phrase v = .vacant := by
  rw [phrase, phrase.go, h]

@[simp] theorem phrase_none (s : Store) : s.phrase none = .vacant := phrase_of_none rfl

theorem phrase_go_none (s : Store) (fuel : Nat) : phrase.go s fuel none = .vacant := by
  cases fuel <;> rfl

theorem phrase_go_of_steady (t : s.TreeAt root) (h : Steady root s s' (some n)) {more : Nat}
    (hmore : s.size + 1 ≤ more) : phrase.go s' more (some n) = s.phrase (some n) := by
  refine t.walk (h n rfl).1 (P := fun fuel n => Steady root s s' (some n) → ∀ more, fuel ≤ more →
    phrase.go s' more (some n) = phrase.go s fuel (some n)) ?_ h more hmore
  intro fuel n _ hkids h more hmore
  obtain ⟨more, rfl⟩ := Nat.exists_eq_add_of_le' (Nat.lt_of_lt_of_le fuel.succ_pos hmore)
  rw [phrase.go, phrase.go, h.form]
  cases hf : s.form? (some n) with
  | none => rfl
  | some f =>
    refine congrArg (Phrase.of f.bare) (List.map_congr_left fun c hc => ?_)
    cases c with
    | none => rw [phrase_go_none, phrase_go_none]
    | some k =>
      exact hkids k (holds_of_form hf hc) (h.child hf hc) more (Nat.le_of_succ_le_succ hmore)

theorem phrase_of_steady (t : s.TreeAt root) (hsize : s.size ≤ s'.size)
    (h : Steady root s s' v) : s'.phrase v = s.phrase v := by
  cases v with
  | none => rw [phrase_none, phrase_none]
  | some n => exact phrase_go_of_steady t h (Nat.succ_le_succ hsize)

theorem TreeAt.phrase_of_form (t : s.TreeAt root) (hn : s.Below root n)
    (hf : s.form? (some n) = some f) : s.phrase (some n) = .of f.bare (f.slots.map s.phrase) := by
  have hsteady : Steady root s s (some n) := .of_sameBelow hn fun _ _ => rfl
  have hmore : phrase.go s (s.size + 1 + 1) (some n) = s.phrase (some n) :=
    phrase_go_of_steady t hsteady (Nat.le_succ _)
  rw [← hmore, phrase.go, hf]
  rfl

end Store

open Store ClassIdiom

namespace Phrase

/-- The outermost form. -/
def form? : Phrase → Option Form
  | vacant => none
  | of form _ => some form

def name? (p : Phrase) : Option String :=
  match p.form? with
  | some (.identifier name) => some name
  | _ => none

def text? (p : Phrase) : Option String :=
  match p.form? with
  | some (.stringLiteral value) => some value
  | _ => none

/-- A phrase with a `this` or a `super` of its own. -/
def hasOwnThis (p : Phrase) : Bool :=
  match p.form? with
  | some (.functionExpression _) | some (.functionDeclaration _) | some (.method _)
  | some (.classDeclaration _) | some (.classExpression _) => true
  | _ => false

def isThis : Phrase → Bool
  | of .thisExpression _ => true
  | of (.parenthesized _) [p] => p.isThis
  | _ => false

/-- The names along a chain of accesses by a plain name or a string. -/
def memberPath? : Phrase → Option (List String)
  | of (.identifier name) _ => some [name]
  | of (.member _ _ false) [object, name] => do
    let path ← object.memberPath?
    let last ← name.name?
    return path ++ [last]
  | of (.element _ _ false) [object, index] => do
    let path ← object.memberPath?
    let last ← index.text?
    return path ++ [last]
  | _ => none

def access? : Phrase → Option (Phrase × Phrase)
  | of (.member _ _ false) [object, name] => some (object, name)
  | _ => none

def isIncoming? (way : Phrase) (arguments : List Phrase) : Option Bool :=
  if way.name? = some "call" then some false
  else if way.name? = some "apply" ∧ arguments.map name? = [some "arguments"] then some true
  else none

/-- The method that a call `B.prototype.m.call(this, ...)` calls, where `B` is at a path, or a call
`B.prototype.m.apply(this, arguments)`, with whether it is the second. -/
def baseCall? (path : List String) : Phrase → Option (String × Bool)
  | of (.call _ _ false) (callee :: receiver :: arguments) => do
    let (target, way) ← callee.access?
    let names ← target.memberPath?
    let method ← names.getLast?
    if names = path ++ ["prototype", method] ∧ receiver.isThis then
      (isIncoming? way arguments).map ((method, ·))
    else none
  | _ => none

/-- `super`, or a method of it. -/
def superTarget : Option String → Phrase
  | none => of .superExpression []
  | some method => of (.member none none false) [of .superExpression [], of (.identifier method) []]

/-- A call of `super`, or of a method of it. -/
def superCall (method : Option String) (arguments : List Phrase) : Phrase :=
  of (.call none (.ofNodes (arguments.map fun _ => none)) false) (superTarget method :: arguments)

def spread (p : Phrase) : Phrase := of (.spread none) [p]

/-- The phrase with calls of `super` in the places of calls of base methods. -/
def withSuper (path : List String) : Phrase → Phrase
  | vacant => vacant
  | of form parts =>
    let new := parts.map fun p => if p.hasOwnThis then p else p.withSuper path
    match (of form parts).baseCall? path with
    | none => of form new
    | some (method, isSpread) =>
      -- the callee and the receiver go
      superCall (some method) (if isSpread then (new.drop 2).map spread else new.drop 2)

variable {path : List String} {p q : Phrase} {form : Form} {parts : List Phrase}

def inPart (path : List String) (p : Phrase) : Phrase :=
  if p.hasOwnThis then p else p.withSuper path

theorem withSuper_of (h : (of form parts).baseCall? path = none) :
    (of form parts).withSuper path = of form (parts.map (inPart path)) := by
  rw [withSuper, h]
  rfl

theorem withSuper_of_baseCall {method : String} {isSpread : Bool}
    (h : (of form parts).baseCall? path = some (method, isSpread)) :
    let arguments := (parts.map (inPart path)).drop 2
    (of form parts).withSuper path =
      superCall (some method) (if isSpread then arguments.map spread else arguments) := by
  rw [withSuper, h]
  rfl

theorem exists_call_of_baseCall? {c : String × Bool} (h : p.baseCall? path = some c) :
    ∃ callee arguments isOptional parts, p = of (.call callee arguments isOptional) parts := by
  unfold baseCall? at h
  split at h
  · exact ⟨_, _, _, _, rfl⟩
  · cases h

@[simp] theorem inPart_vacant (path : List String) : inPart path vacant = vacant := by
  rw [inPart, withSuper, ite_self]

/-- What becomes of a part, as far as it is not a call. -/
inductive Converted (path : List String) : Phrase → Phrase → Prop where
  | kept {p : Phrase} : p = vacant ∨ p.hasOwnThis = true → Converted path p p
  | inside (form : Form) (parts : List Phrase) :
      Converted path (of form parts) (of form (parts.map (inPart path)))
  | call {callee callee' : Slot} {arguments arguments' : NodeList} {isOptional isOptional' : Bool}
      {parts parts' : List Phrase} : Converted path (of (.call callee arguments isOptional) parts)
      (of (.call callee' arguments' isOptional') parts')

theorem converted_inPart (path : List String) (p : Phrase) : Converted path p (inPart path p) := by
  by_cases hown : p.hasOwnThis = true
  · rw [inPart, if_pos hown]
    exact .kept (.inr hown)
  have hpart : inPart path p = p.withSuper path := if_neg hown
  rw [hpart]
  cases p with
  | vacant =>
    rw [withSuper]
    exact .kept (.inl rfl)
  | of form parts =>
    cases hcall : (of form parts).baseCall? path with
    | none =>
      rw [withSuper_of hcall]
      exact .inside form parts
    | some c =>
      obtain ⟨callee, arguments, isOptional, _, hp⟩ := exists_call_of_baseCall? hcall
      cases hp
      rw [withSuper_of_baseCall hcall]
      exact .call

/-! Names, paths and `this` are read off a part as before. -/

theorem name?_inPart (path : List String) (p : Phrase) : (inPart path p).name? = p.name? := by
  have h := converted_inPart path p
  generalize inPart path p = q at h ⊢
  cases h <;> rfl

theorem text?_inPart (path : List String) (p : Phrase) : (inPart path p).text? = p.text? := by
  have h := converted_inPart path p
  generalize inPart path p = q at h ⊢
  cases h <;> rfl

theorem isThis_inPart (path : List String) (p : Phrase) : (inPart path p).isThis = p.isThis := by
  induction p using induct with
  | vacant => rw [inPart_vacant]
  | of form parts ih =>
    have h := converted_inPart path (of form parts)
    generalize inPart path (of form parts) = q at h ⊢
    cases h with
    | kept => rfl
    | call => simp [isThis]
    | inside =>
      cases form with
      | parenthesized e =>
        match parts, ih with
        | [], _ => rfl
        | [p], ih =>
          simp only [List.map_cons, List.map_nil, isThis]
          exact ih p List.mem_cons_self
        | _ :: _ :: _, _ => simp [isThis]
      | _ => simp [isThis]

theorem memberPath?_inPart (path : List String) (p : Phrase) :
    (inPart path p).memberPath? = p.memberPath? := by
  induction p using induct with
  | vacant => rw [inPart_vacant]
  | of form parts ih =>
    have h := converted_inPart path (of form parts)
    generalize inPart path (of form parts) = q at h ⊢
    cases h with
    | kept => rfl
    | call => simp [memberPath?]
    | inside =>
      cases form with
      | member object name isOptional =>
        match parts, ih with
        | [], _ => simp [memberPath?]
        | [_], _ => simp [memberPath?]
        | [object, name], ih =>
          have hobject := ih object List.mem_cons_self
          cases isOptional <;> simp [memberPath?, hobject, name?_inPart]
        | _ :: _ :: _ :: _, _ => simp [memberPath?]
      | element object index isOptional =>
        match parts, ih with
        | [], _ => simp [memberPath?]
        | [_], _ => simp [memberPath?]
        | [object, index], ih =>
          have hobject := ih object List.mem_cons_self
          cases isOptional <;> simp [memberPath?, hobject, text?_inPart]
        | _ :: _ :: _ :: _, _ => simp [memberPath?]
      | _ => simp [memberPath?]

theorem access?_of_hasOwnThis (h : p.hasOwnThis = true) : p.access? = none := by
  unfold access?
  split
  · cases h
  · rfl

theorem access?_inPart (path : List String) (p : Phrase) :
    (inPart path p).access? = p.access?.map (Prod.map (inPart path) (inPart path)) := by
  have h := converted_inPart path p
  generalize inPart path p = q at h ⊢
  cases h with
  | kept hp =>
    have hnone : p.access? = none := by
      rcases hp with rfl | hown
      · rfl
      · exact access?_of_hasOwnThis hown
    rw [hnone, Option.map_none]
  | call => rfl
  | inside form parts =>
    cases form with
    | member object name isOptional =>
      match parts with
      | [] | [_] | _ :: _ :: _ :: _ | [_, _] => cases isOptional <;> rfl
    | _ => rfl

theorem isIncoming?_inPart (path : List String) (way : Phrase) (arguments : List Phrase) :
    isIncoming? (inPart path way) (arguments.map (inPart path)) = isIncoming? way arguments := by
  have hnames : (arguments.map (inPart path)).map name? = arguments.map name? := by
    rw [List.map_map]
    exact List.map_congr_left fun p _ => name?_inPart path p
  rw [isIncoming?, isIncoming?, hnames, name?_inPart]

theorem baseCall?_map_inPart (form : Form) (parts : List Phrase) :
    (of form (parts.map (inPart path))).baseCall? path = (of form parts).baseCall? path := by
  cases form with
  | call callee arguments isOptional =>
    cases isOptional with
    | true => rfl
    | false =>
      match parts with
      | [] | [_] => rfl
      | callee :: receiver :: arguments =>
        simp only [List.map_cons, baseCall?, access?_inPart, isThis_inPart]
        cases callee.access? with
        | none => rfl
        | some sides =>
          simp only [Option.map_some, Option.bind_eq_bind, Option.bind_some, Prod.map,
            memberPath?_inPart, isIncoming?_inPart]
  | _ => rfl

/-- The phrase is the other or a part of it that has the same `this`. -/
inductive Own : Phrase → Phrase → Prop where
  | refl (p : Phrase) : Own p p
  | part {form : Form} {parts : List Phrase} {p q : Phrase} :
      p ∈ parts → p.hasOwnThis = false → Own p q → Own (of form parts) q

theorem baseCall?_of_own_superTarget {method : Option String} (h : Own (superTarget method) q) :
    q.baseCall? path = none := by
  cases method with
  | none =>
    cases h with
    | refl => rfl
    | part hp => cases hp
  | some method =>
    cases h with
    | refl => rfl
    | part hp _ hq =>
      simp only [List.mem_cons, List.not_mem_nil, or_false] at hp
      rcases hp with rfl | rfl
      all_goals
        cases hq with
        | refl => rfl
        | part hp => cases hp

theorem baseCall?_superCall (method : Option String) (arguments : List Phrase) :
    (superCall method arguments).baseCall? path = none := by
  cases arguments with
  | nil => rfl
  | cons receiver arguments =>
    cases method with
    | none => rfl
    | some method =>
      have hpath : (of .superExpression []).memberPath? = none := by simp [memberPath?]
      simp [superCall, baseCall?, superTarget, access?, hpath]

/-- In what `withSuper` gives no call of a base method is left. -/
theorem baseCall?_of_own_withSuper (h : Own (p.withSuper path) q) : q.baseCall? path = none := by
  induction p using induct generalizing q with
  | vacant =>
    rw [withSuper] at h
    cases h
    rfl
  | of form parts ih =>
    -- what has its own `this` is still there, but not part of the same
    have hparts : ∀ p ∈ parts.map (inPart path), p.hasOwnThis = false → Own p q →
        q.baseCall? path = none := by
      intro p' hp' hown hq
      obtain ⟨p, hp, rfl⟩ := List.mem_map.1 hp'
      by_cases hown' : p.hasOwnThis = true
      · rw [inPart, if_pos hown', hown'] at hown
        cases hown
      · rw [inPart, if_neg hown'] at hq
        exact ih p hp hq
    cases hcall : (of form parts).baseCall? path with
    | none =>
      rw [withSuper_of hcall] at h
      cases h with
      | refl => rw [baseCall?_map_inPart, hcall]
      | part hp hown hq => exact hparts _ hp hown hq
    | some c =>
      obtain ⟨method, isSpread⟩ := c
      rw [withSuper_of_baseCall hcall] at h
      cases h with
      | refl => exact baseCall?_superCall _ _
      | part hp hown hq =>
        rcases List.mem_cons.1 hp with rfl | hp
        · exact baseCall?_of_own_superTarget hq
        cases isSpread with
        | false => exact hparts _ (List.mem_of_mem_drop hp) hown hq
        | true =>
          obtain ⟨argument, hargument, rfl⟩ := List.mem_map.1 hp
          cases hq with
          | refl => rfl
          | part hp' hown' hq' =>
            obtain rfl := List.mem_singleton.1 hp'
            exact hparts _ (List.mem_of_mem_drop hargument) hown' hq'

end Phrase

/-! What is read off a phrase of a tree is what is read off the tree. -/

namespace Store

variable {s : Store} {root n : NodeId} {v : Slot} {base : BaseClass}

theorem hasOwnThis_phrase (t : s.TreeAt root) (hn : s.Below root n) :
    (s.phrase (some n)).hasOwnThis = hasOwnThis s n := by
  obtain ⟨f, hf⟩ := t.exists_form? hn
  rw [t.phrase_of_form hn hf, hasOwnThis, hf]
  cases f <;> rfl

theorem phrase_cases (t : s.TreeAt root) (hv : s.InTree root v) :
    (s.form? v = none ∧ s.phrase v = .vacant) ∨
      ∃ f, s.form? v = some f ∧ s.phrase v = .of f.bare (f.slots.map s.phrase) := by
  cases v with
  | none => exact .inl ⟨rfl, phrase_none s⟩
  | some n =>
    obtain ⟨f, hf⟩ := t.exists_form? (hv n rfl)
    exact .inr ⟨f, hf, t.phrase_of_form (hv n rfl) hf⟩

theorem name?_phrase (t : s.TreeAt root) (hv : s.InTree root v) :
    (s.phrase v).name? = s.identifierName? v := by
  unfold identifierName?
  rcases phrase_cases t hv with ⟨hf, hp⟩ | ⟨f, hf, hp⟩
  · rw [hp, hf]
    rfl
  · rw [hp, hf]
    cases f <;> rfl

theorem text?_phrase (t : s.TreeAt root) (hv : s.InTree root v) :
    (s.phrase v).text? =
      match s.form? v with
      | some (.stringLiteral value) => some value
      | _ => none := by
  rcases phrase_cases t hv with ⟨hf, hp⟩ | ⟨f, hf, hp⟩
  · rw [hp, hf]
    rfl
  · rw [hp, hf]
    cases f <;> rfl

theorem memberPath?_phrase (t : s.TreeAt root) (hv : s.InTree root v) :
    (s.phrase v).memberPath? = s.memberPath? v := by
  cases v with
  | none => simp [memberPath?, memberPath?.go, Phrase.memberPath?, form?]
  | some n =>
  refine t.walk (hv n rfl) (P := fun fuel n =>
    (s.phrase (some n)).memberPath? = memberPath?.go s fuel (some n)) ?_
  intro fuel n hn hkids
  obtain ⟨f, hf⟩ := t.exists_form? hn
  have htree : ∀ c ∈ f.slots, s.InTree root c := by
    rintro _ hc k rfl
    exact hn.tail (holds_of_form hf hc)
  have hslots : ∀ c ∈ f.slots, (s.phrase c).memberPath? = memberPath?.go s fuel c := by
    intro c hc
    cases c with
    | none => cases fuel <;> simp [memberPath?.go, Phrase.memberPath?, form?]
    | some k => exact hkids k (holds_of_form hf hc)
  rw [t.phrase_of_form hn hf, memberPath?.go, hf]
  cases f with
  | member object name isOptional =>
    have hobject := hslots object List.mem_cons_self
    have hname := name?_phrase t (htree name (by simp [Form.slots]))
    cases isOptional <;>
      simp [Form.bare, Form.mapSlots, Form.slots, Phrase.memberPath?, hobject, hname]
  | element object index isOptional =>
    have hobject := hslots object List.mem_cons_self
    have hindex := text?_phrase t (htree index (by simp [Form.slots]))
    cases isOptional with
    | true => simp [Form.bare, Form.mapSlots, Form.slots, Phrase.memberPath?]
    | false =>
      simp only [Form.bare, Form.mapSlots, Form.slots, List.map_cons, List.map_nil,
        Phrase.memberPath?, hobject, hindex]
      cases s.form? index with
      | none => rfl
      | some g => cases g <;> rfl
  | _ => simp [Form.bare, Form.mapSlots, Phrase.memberPath?]

theorem isThis_phrase (t : s.TreeAt root) (hv : s.InTree root v) :
    (s.phrase v).isThis = true ↔ s.form? (s.skipParentheses v) = some .thisExpression := by
  cases v with
  | none => simp [skipParentheses, skipParentheses.go, Phrase.isThis, form?]
  | some n =>
  refine t.walk (hv n rfl) (P := fun fuel n => (s.phrase (some n)).isThis = true ↔
    s.form? (skipParentheses.go s fuel (some n)) = some .thisExpression) ?_
  intro fuel n hn hkids
  obtain ⟨f, hf⟩ := t.exists_form? hn
  rw [t.phrase_of_form hn hf, skipParentheses.go, hf]
  cases f with
  | parenthesized e =>
    simp only [Form.bare, Form.mapSlots, Form.slots, List.map_cons, List.map_nil, Phrase.isThis]
    cases e with
    | none => cases fuel <;> simp [skipParentheses.go, Phrase.isThis, form?]
    | some k => exact hkids k (holds_of_form hf List.mem_cons_self)
  | _ => simp [hf, Form.bare, Form.mapSlots, Phrase.isThis]

end Store

namespace ClassIdiom

variable {s : Store} {root n : NodeId} {base : BaseClass}

/-- The `arguments` that came in are handed on. -/
def Forwarded.isIncoming : Forwarded → Bool
  | listed _ => false
  | incoming _ => true

/-- What a call of `call` or `apply` hands on. -/
def handedOn? (s : Store) (way : Slot) (arguments : List Slot) : Option Forwarded :=
  match s.identifierName? way, arguments with
  | some "call", _ => some (.listed arguments)
  | some "apply", [all] =>
    if s.identifierName? all = some "arguments" then some (.incoming all) else none
  | _, _ => none

theorem forwarded?_of_form {call callee receiver target way : Slot} {arguments : List Slot}
    {pos stop : Nat} {path : List String}
    (hf : s.form? call = some (.call callee ⟨receiver :: arguments, pos, stop⟩ false))
    (hcallee : s.form? callee = some (.member target way false)) :
    forwarded? s call path =
      if s.memberPath? target = some path ∧
          s.form? (s.skipParentheses receiver) = some .thisExpression then
        handedOn? s way arguments
      else none := by
  rw [forwarded?, hf]
  dsimp only
  rw [hcallee]
  rfl

theorem isIncoming?_phrase (t : s.TreeAt root) {way : Slot} {arguments : List Slot}
    (hway : s.InTree root way) (harguments : ∀ x ∈ arguments, s.InTree root x) :
    Phrase.isIncoming? (s.phrase way) (arguments.map s.phrase) =
      (handedOn? s way arguments).map Forwarded.isIncoming := by
  have hnames : (arguments.map s.phrase).map Phrase.name? = arguments.map s.identifierName? := by
    rw [List.map_map]
    exact List.map_congr_left fun x hx => name?_phrase t (harguments x hx)
  rw [Phrase.isIncoming?, hnames, name?_phrase t hway]
  unfold handedOn?
  split
  · rename_i h
    rw [h]
    rfl
  · rename_i hcall
    split
    · rename_i h
      obtain ⟨happly, hlist⟩ := h
      obtain ⟨all, rfl, hall⟩ := List.map_eq_singleton_iff.1 hlist
      rw [happly]
      simp [hall, Forwarded.isIncoming]
    · rename_i hnot
      split
      · exact absurd ‹_› hcall
      · rename_i all happly
        rw [if_neg, Option.map_none]
        exact fun hall => hnot ⟨happly, by rw [List.map_singleton, hall]⟩
      · rfl

theorem methodCall?_of_form {call callee receiver target way : Slot} {arguments : List Slot}
    {pos stop : Nat}
    (hf : s.form? call = some (.call callee ⟨receiver :: arguments, pos, stop⟩ false))
    (hcallee : s.form? callee = some (.member target way false)) :
    methodCall? s base call = (do
      let names ← s.memberPath? target
      let method ← names.getLast?
      if names = base.path ++ ["prototype", method] ∧
          s.form? (s.skipParentheses receiver) = some .thisExpression then
        (handedOn? s way arguments).map ((method, ·))
      else none) := by
  rw [methodCall?, hf]
  dsimp only
  rw [hcallee]
  refine Option.bind_congr fun names hnames => Option.bind_congr fun method hmethod => ?_
  have hsplit : names.dropLast = base.path ++ ["prototype"] ↔
      names = base.path ++ ["prototype", method] := by
    have hlast := List.dropLast_append_getLast? method hmethod
    constructor
    · intro h
      rw [← hlast, h, List.append_assoc]
      rfl
    · intro h
      rw [h, List.dropLast_append_of_ne_nil (by simp)]
      rfl
  rw [forwarded?_of_form hf hcallee]
  simp only [hsplit, hnames, true_and]
  split
  · rename_i hpath
    by_cases hthis : s.form? (s.skipParentheses receiver) = some .thisExpression
    · rw [if_pos hthis, if_pos ⟨hpath, hthis⟩]
    · rw [if_neg hthis, if_neg fun h => hthis h.2, Option.map_none]
  · rename_i hpath
    rw [if_neg fun h => hpath h.1]

theorem methodCall?_eq_none {call : Slot} (h : ∀ path, forwarded? s call path = none) :
    methodCall? s base call = none := by
  refine Option.eq_none_iff_forall_ne_some.2 fun m hm => ?_
  obtain ⟨path, hpath⟩ := forwarded?_of_methodCall? hm
  rw [h path] at hpath
  cases hpath

/-- A phrase of the tree is a call of a base method if the node is one. -/
theorem baseCall?_phrase (t : s.TreeAt root) (hn : s.Below root n) (base : BaseClass) :
    (s.phrase (some n)).baseCall? base.path =
      (methodCall? s base (some n)).map fun m => (m.1, m.2.isIncoming) := by
  obtain ⟨f, hf⟩ := t.exists_form? hn
  have htree : ∀ c ∈ f.slots, s.InTree root c := by
    rintro _ hc k rfl
    exact hn.tail (holds_of_form hf hc)
  rw [t.phrase_of_form hn hf]
  cases f with
  | call callee arguments isOptional =>
    obtain ⟨nodes, pos, stop⟩ := arguments
    have hcallee : s.InTree root callee := htree callee List.mem_cons_self
    cases isOptional with
    | true =>
      rw [methodCall?_eq_none fun path => by simp [forwarded?, hf]]
      rfl
    | false =>
    cases nodes with
    | nil =>
      rw [methodCall?_eq_none fun path => by simp [forwarded?, hf]]
      rfl
    | cons receiver arguments =>
    have hthis := isThis_phrase t (htree receiver (by simp [Form.slots]))
    have hhanded : ∀ x ∈ arguments, s.InTree root x := fun x hx =>
      htree x (by simp [Form.slots, hx])
    simp only [Form.bare, Form.mapSlots, Form.slots, List.map_cons, Phrase.baseCall?]
    rcases phrase_cases t hcallee with ⟨hk, hp⟩ | ⟨g, hk, hp⟩
    · rw [methodCall?_eq_none fun path => by simp [forwarded?, hf, hk], hp]
      rfl
    cases g with
    | member target way isOptional =>
      cases isOptional with
      | true =>
        rw [methodCall?_eq_none fun path => by simp [forwarded?, hf, hk], hp]
        rfl
      | false =>
        have htarget : s.InTree root target := hcallee.child hk List.mem_cons_self
        have hway : s.InTree root way := hcallee.child hk (by simp [Form.slots])
        have hpath := memberPath?_phrase t htarget
        have hincoming := isIncoming?_phrase t hway hhanded
        rw [methodCall?_of_form hf hk, hp]
        simp only [Form.bare, Form.mapSlots, Form.slots, List.map_cons, List.map_nil,
          Phrase.access?, Option.bind_eq_bind, Option.bind_some, hpath, hincoming, hthis]
        -- both sides read the path first, then the method, and then what is handed on
        rw [Option.map_bind]
        refine Option.bind_congr fun names _ => ?_
        rw [Function.comp_apply, Option.map_bind]
        refine Option.bind_congr fun method _ => ?_
        rw [Function.comp_apply]
        split
        · rw [Option.map_map, Option.map_map]
          rfl
        · rfl
    | _ =>
      rw [methodCall?_eq_none fun path => by simp [forwarded?, hf, hk], hp]
      rfl
  | _ =>
    rw [methodCall?_eq_none fun path => by simp [forwarded?, hf]]
    rfl

end ClassIdiom
end Modernizer
