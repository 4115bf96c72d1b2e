import Modernizer.Proofs.Scope.Lexical
import Modernizer.Proofs.Scope.Pattern
import Modernizer.Scope.Binding

/-! Steps of collecting bindings. A state is sound when its scopes are those of functions, each with
the scope of its owner around it, and all that they bind is declared in the program. Steps keep this
and only add to what is there, and a step opens the scopes of the functions it is given
(`Collects`). -/

namespace Modernizer.Scope

open Store

namespace Bindings

def table (b : Bindings) (k : Nat) : List (String × Binding) :=
  ((b.scopes[k]?).map (·.bindings)).getD []

def around (b : Bindings) (k : Nat) : Option Nat := (b.scopes[k]?).bind (·.parent)

/-- The scope of a function or of the program. -/
def Numbers (b : Bindings) (root o : NodeId) (k : Nat) : Prop :=
  (o = root ∧ k = 0) ∨ (o, k) ∈ b.scopeOf

/-- A name is entered in a scope. -/
def enter (b : Bindings) (vars : Array VarBinding) (k : Nat) (x : String) (β : Binding) : Bindings :=
  { b with vars, scopes := b.scopes.modify k fun f => { f with bindings := f.bindings ++ [(x, β)] } }

/-- A scope is opened for a function. -/
def opened (b : Bindings) (f : NodeId) (k : Nat) : Bindings :=
  { b with scopes := b.scopes.push ⟨some k, []⟩, scopeOf := (f, b.scopes.size) :: b.scopeOf }

/-- The later state has all that the earlier one has. -/
structure Extends (b b' : Bindings) : Prop where
  table : ∀ k, b.table k ⊆ b'.table k
  scopeOf : b.scopeOf ⊆ b'.scopeOf
  vars : ∀ (i : Nat) (v : VarBinding), b.vars[i]? = some v → b'.vars[i]? = some v

namespace Extends

variable {b b' b'' : Bindings} {root o : NodeId} {k : Nat}

theorem refl (b : Bindings) : Extends b b :=
  ⟨fun _ _ => id, fun _ => id, fun _ _ => id⟩

theorem trans (h : Extends b b') (h' : Extends b' b'') : Extends b b'' :=
  ⟨fun k _ hx => h'.table k (h.table k hx), fun _ hx => h'.scopeOf (h.scopeOf hx),
    fun i v hv => h'.vars i v (h.vars i v hv)⟩

theorem numbers (h : Extends b b') (hk : b.Numbers root o k) : b'.Numbers root o k :=
  hk.imp_right fun hm => h.scopeOf hm

end Extends
end Bindings

/-- What is recorded of a declared `var`. -/
def varBinding (s : Store) (list d : NodeId) (name : String) (initializer : Slot) (scope : Nat) :
    VarBinding where
  list := list
  name := name
  scope := scope
  block := declaringBlock? s (some list)
  declaredAt := ((s.get? (some d)).map (·.stop)).getD 0
  initialized := initializer.isSome || isForEachHead s (some list)
  inLoopBody := isInLoopBody s (some list)
  inLoopHead := isLoopHead s (s.parent (some list)) (some list)
  hasInitializer := initializer.isSome

/-- At the node, a name other than that of a `var` is entered for a function or the program. -/
inductive Enters (s : Store) (root : NodeId) (m : NodeId) : NodeId → String → Binding → Prop where
  | parameter {form t x} : s.form? (some m) = some form → some t ∈ form.parameters →
      s.Names t x → Enters s root m m x .other
  | itself {g x} : s.form? (some m) = some (.functionExpression g) →
      s.identifierName? g.name = some x → Enters s root m m x .other
  | function {o g x} : s.Owns root o m → s.form? (some m) = some (.functionDeclaration g) →
      s.identifierName? g.name = some x → Enters s root m o x (.function m)
  | block {o x} : s.Owns root o m → s.BlockDeclares m x → Enters s root m o x .other
  | handler {o x} : s.Owns root o m → s.HandlerDeclares m x → Enters s root m o x .other

/-- At the node, a `var` is entered under its number. -/
def EntersVar (s : Store) (root : NodeId) (b : Bindings) (m o : NodeId) (k : Nat) (x : String)
    (i : Nat) : Prop :=
  s.Owns root o m ∧ ∃ d t initializer, s.Declarator m .varKind d t ∧ s.Names t x ∧
    s.form? (some d) = some (.declaration (some t) initializer) ∧
    b.vars[i]? = some (varBinding s m d x initializer k)

variable {s : Store} {root m n o f : NodeId} {i j k : Nat} {x : String} {β : Binding}
  {b b' : Bindings}

theorem EntersVar.mono (h : EntersVar s root b m o k x i) (he : b.Extends b') :
    EntersVar s root b' m o k x i := by
  obtain ⟨ho, d, t, initializer, hd, hx, hf, hv⟩ := h
  exact ⟨ho, d, t, initializer, hd, hx, hf, he.vars _ _ hv⟩

structure Sound (s : Store) (root : NodeId) (b : Bindings) : Prop where
  nonempty : 0 < b.scopes.size
  outermost : b.around 0 = none
  numbers : ∀ f k, (f, k) ∈ b.scopeOf → 0 < k ∧ k < b.scopes.size
  functions : ∀ f k, (f, k) ∈ b.scopeOf → s.Has f (·.isFunctionLike = true)
  keys : (b.scopeOf.map Prod.fst).Nodup
  injective : ∀ f f' k, (f, k) ∈ b.scopeOf → (f', k) ∈ b.scopeOf → f = f'
  around : ∀ f k, (f, k) ∈ b.scopeOf →
    ∃ o j, s.Owns root o f ∧ b.Numbers root o j ∧ j < k ∧ b.around k = some j
  entries : ∀ o k x β, b.Numbers root o k → (x, β) ∈ b.table k →
    ∃ m, Enters s root m o x β ∨ ∃ i, β = .variable_ i ∧ EntersVar s root b m o k x i
  vars : ∀ (i : Nat) (v : VarBinding), b.vars[i]? = some v → ∃ o m k, b.Numbers root o k ∧
    EntersVar s root b m o k v.name i ∧ (v.name, .variable_ i) ∈ b.table k

namespace Sound

section

variable (h : Sound s root b)

include h

theorem lt_size (hk : b.Numbers root o k) : k < b.scopes.size := by
  rcases hk with ⟨-, rfl⟩ | hk
  · exact h.nonempty
  · exact (h.numbers o k hk).2

theorem ne_root (hroot : ∃ list, s.form? (some root) = some (.program list))
    (hf : (f, k) ∈ b.scopeOf) : f ≠ root := by
  rintro rfl
  obtain ⟨list, hlist⟩ := hroot
  obtain ⟨form, hform, hlike⟩ := h.functions _ _ hf
  rw [hlist] at hform
  cases hform
  cases hlike

theorem numbers_unique (hroot : ∃ list, s.form? (some root) = some (.program list))
    (hk : b.Numbers root o k) (hj : b.Numbers root o j) : k = j := by
  rcases hk with ⟨rfl, rfl⟩ | hk <;> rcases hj with ⟨ho, rfl⟩ | hj
  · rfl
  · exact (h.ne_root hroot hj rfl).elim
  · exact (h.ne_root hroot hk ho).elim
  · exact congrArg Prod.snd (List.inj_on_of_nodup_map h.keys hk hj rfl)

theorem owner_unique (hk : b.Numbers root o k) (hj : b.Numbers root n k) : o = n := by
  rcases hk with ⟨rfl, rfl⟩ | hk <;> rcases hj with ⟨ho, hzero⟩ | hj
  · exact ho.symm
  · exact (Nat.lt_irrefl 0 (h.numbers _ _ hj).1).elim
  · subst hzero
    exact (Nat.lt_irrefl 0 (h.numbers _ _ hk).1).elim
  · exact h.injective _ _ _ hk hj

end

variable {vars : Array VarBinding}

theorem table_enter (hk : k < b.scopes.size) (j : Nat) :
    (b.enter vars k x β).table j = if j = k then b.table k ++ [(x, β)] else b.table j := by
  unfold Bindings.table Bindings.enter
  rw [Array.getElem?_modify]
  by_cases h : k = j
  · subst h
    obtain ⟨f, hf⟩ : ∃ f, b.scopes[k]? = some f := ⟨_, Array.getElem?_eq_getElem hk⟩
    simp [hf]
  · simp [h, Ne.symm h]

theorem around_enter (j : Nat) : (b.enter vars k x β).around j = b.around j := by
  unfold Bindings.around Bindings.enter
  rw [Array.getElem?_modify]
  split
  · cases b.scopes[j]? <;> rfl
  · rfl

/-- A name that is declared in the program is entered. -/
theorem enter (h : Sound s root b) (hk : b.Numbers root o k)
    (hvars : ∀ (i : Nat) (v : VarBinding), b.vars[i]? = some v → vars[i]? = some v)
    (hnew : ∀ (i : Nat) (v : VarBinding), vars[i]? = some v →
      b.vars[i]? = some v ∨ v.name = x ∧ β = .variable_ i)
    (hx : ∃ m, Enters s root m o x β ∨
      ∃ i, β = .variable_ i ∧ EntersVar s root (b.enter vars k x β) m o k x i) :
    Sound s root (b.enter vars k x β) ∧ b.Extends (b.enter vars k x β) ∧
      (x, β) ∈ (b.enter vars k x β).table k := by
  have hlt := h.lt_size hk
  have hsize : (b.enter vars k x β).scopes.size = b.scopes.size := Array.size_modify
  have he : b.Extends (b.enter vars k x β) := by
    refine ⟨fun j e hj => ?_, fun _ => id, hvars⟩
    rw [table_enter hlt]
    split
    · rename_i hjk
      exact List.mem_append_left _ (hjk ▸ hj)
    · exact hj
  have hin : (x, β) ∈ (b.enter vars k x β).table k := by
    rw [table_enter hlt, if_pos rfl]
    exact List.mem_append_right _ (List.mem_singleton.2 rfl)
  refine ⟨⟨hsize ▸ h.nonempty, (around_enter 0).trans h.outermost,
    fun f k hf => hsize ▸ h.numbers f k hf, h.functions, h.keys, h.injective, fun f k hf => ?_,
    fun o' j y γ ho' hy => ?_, fun i v hv => ?_⟩, he, hin⟩
  · rw [around_enter]
    exact h.around f k hf
  · rw [table_enter hlt] at hy
    have hold : (y, γ) ∈ b.table j → ∃ m, Enters s root m o' y γ ∨
        ∃ i, γ = .variable_ i ∧ EntersVar s root (b.enter vars k x β) m o' j y i := by
      intro hy
      obtain ⟨m, hm⟩ := h.entries o' j y γ ho' hy
      exact ⟨m, hm.imp_right fun ⟨i, hi, hv⟩ => ⟨i, hi, hv.mono he⟩⟩
    split at hy
    · rename_i hjk
      subst hjk
      rcases List.mem_append.1 hy with hy | hy
      · exact hold hy
      · cases List.mem_singleton.1 hy
        exact h.owner_unique hk ho' ▸ hx
    · exact hold hy
  · rcases hnew i v hv with hv | ⟨rfl, rfl⟩
    · obtain ⟨o', m, j, hj, hm, hy⟩ := h.vars i v hv
      exact ⟨o', m, j, hj, hm.mono he, he.table j hy⟩
    · obtain ⟨m, henters | ⟨i', hi, hm⟩⟩ := hx
      · cases henters
      · cases hi
        exact ⟨o, m, k, hk, hm, hin⟩

/-- The scope of a function that has none so far is opened in that of its owner. -/
theorem open_ (h : Sound s root b) (hk : b.Numbers root o k) (ho : s.Owns root o f)
    (hf : s.Has f (·.isFunctionLike = true)) (hnew : ∀ k, (f, k) ∉ b.scopeOf) :
    Sound s root (b.opened f k) ∧ b.Extends (b.opened f k) := by
  have hlt := h.lt_size hk
  have hsize : (b.opened f k).scopes.size = b.scopes.size + 1 := Array.size_push _
  have hget : ∀ j, (b.opened f k).scopes[j]? =
      if j = b.scopes.size then some ⟨some k, []⟩ else b.scopes[j]? :=
    fun j => Array.getElem?_push
  have htable : ∀ j, (b.opened f k).table j = b.table j := by
    intro j
    unfold Bindings.table
    rw [hget]
    split
    · rename_i hj
      rw [hj, Array.getElem?_eq_none (Nat.le_refl _)]
      rfl
    · rfl
  have haround : ∀ j, (b.opened f k).around j =
      if j = b.scopes.size then some k else b.around j := by
    intro j
    unfold Bindings.around
    rw [hget]
    split <;> rfl
  have he : b.Extends (b.opened f k) :=
    ⟨fun j e hj => htable j ▸ hj, fun _ => List.mem_cons_of_mem _, fun _ _ => id⟩
  have hold : ∀ g j, (g, j) ∈ b.scopeOf → j < b.scopes.size := fun g j hg => (h.numbers g j hg).2
  have hnumbers : ∀ o' j, (b.opened f k).Numbers root o' j →
      (o' = f ∧ j = b.scopes.size) ∨ b.Numbers root o' j := by
    rintro o' j (hroot | hj)
    · exact .inr (.inl hroot)
    · rcases List.mem_cons.1 hj with hj | hj
      · cases hj
        exact .inl ⟨rfl, rfl⟩
      · exact .inr (.inr hj)
  -- the number of the new scope was given out to no function before
  refine ⟨⟨?_, ?_, fun g j hg => ?_, fun g j hg => ?_, ?_, fun g g' j hg hg' => ?_,
    fun g j hg => ?_, fun o' j y γ ho' hy => ?_, fun i v hv => ?_⟩, he⟩
  · rw [hsize]
    exact Nat.succ_pos _
  · rw [haround, if_neg (Nat.ne_of_lt h.nonempty)]
    exact h.outermost
  · rw [hsize]
    rcases List.mem_cons.1 hg with hg | hg
    · cases hg
      exact ⟨h.nonempty, Nat.lt_succ_self _⟩
    · exact ⟨(h.numbers g j hg).1, Nat.lt_succ_of_lt (hold g j hg)⟩
  · rcases List.mem_cons.1 hg with hg | hg
    · cases hg
      exact hf
    · exact h.functions g j hg
  · refine List.nodup_cons.2 ⟨fun hin => ?_, h.keys⟩
    obtain ⟨⟨g, j⟩, hg, rfl⟩ := List.mem_map.1 hin
    exact hnew j hg
  · rcases List.mem_cons.1 hg with hg | hg <;> rcases List.mem_cons.1 hg' with hg' | hg'
    · cases hg
      cases hg'
      rfl
    · cases hg
      exact (Nat.lt_irrefl _ (hold _ _ hg')).elim
    · cases hg'
      exact (Nat.lt_irrefl _ (hold _ _ hg)).elim
    · exact h.injective g g' j hg hg'
  · rw [haround]
    rcases List.mem_cons.1 hg with hg | hg
    · cases hg
      exact ⟨o, k, ho, he.numbers hk, hlt, if_pos rfl⟩
    · obtain ⟨o', i, ho', hi, hij, hp⟩ := h.around g j hg
      refine ⟨o', i, ho', he.numbers hi, hij, ?_⟩
      rw [if_neg (Nat.ne_of_lt (hold g j hg))]
      exact hp
  · rw [htable] at hy
    rcases hnumbers o' j ho' with ⟨-, rfl⟩ | ho'
    · unfold Bindings.table at hy
      rw [Array.getElem?_eq_none (Nat.le_refl _)] at hy
      exact (List.not_mem_nil hy).elim
    · obtain ⟨m, hm⟩ := h.entries o' j y γ ho' hy
      exact ⟨m, hm.imp_right fun ⟨i, hi, hv⟩ => ⟨i, hi, hv.mono he⟩⟩
  · obtain ⟨o', m, j, hj, hm, hy⟩ := h.vars i v hv
    exact ⟨o', m, j, he.numbers hj, hm.mono he, he.table j hy⟩

end Sound

def Stable (P : Bindings → Prop) : Prop := ∀ b b', b.Extends b' → P b → P b'

/-- From a sound state with `P`, and none of the functions `D` open, the step goes to one with `Q`,
and only scopes of `D` are opened. -/
def Collects {α : Type} (s : Store) (root : NodeId) (P : Bindings → Prop) (D : NodeId → Prop)
    (f : StateM Bindings α) (Q : α → Bindings → Prop) : Prop :=
  ∀ b, Sound s root b → P b → (∀ m k, D m → (m, k) ∉ b.scopeOf) →
    Sound s root (f.run b).2 ∧ b.Extends (f.run b).2 ∧
      (∀ m k, (m, k) ∈ (f.run b).2.scopeOf → (m, k) ∈ b.scopeOf ∨ D m) ∧ Q (f.run b).1 (f.run b).2

namespace Collects

variable {α β : Type} {P P' : Bindings → Prop} {D D' D₁ D₂ : NodeId → Prop} {step : StateM Bindings α}
  {next : α → StateM Bindings β} {Q Q' : α → Bindings → Prop} {R : β → Bindings → Prop}

theorem pure {a : α} (h : ∀ b, P b → Q a b) : Collects s root P D (pure a) Q :=
  fun b hs hp _ => ⟨hs, .refl b, fun _ _ => .inl, h b hp⟩

theorem weaken (h : Collects s root P D step Q) (hP : ∀ b, P' b → P b) (hD : ∀ m, D m → D' m)
    (hQ : ∀ a b, Q a b → Q' a b) : Collects s root P' D' step Q' := by
  intro b hs hp hD'
  obtain ⟨hs', he, hopen, hq⟩ := h b hs (hP b hp) fun m k hm => hD' m k (hD m hm)
  exact ⟨hs', he, fun m k hm => (hopen m k hm).imp_right (hD m), hQ _ _ hq⟩

theorem bind (hP : Stable P) (h : Collects s root P D₁ step Q)
    (h' : ∀ a, Collects s root (fun b => P b ∧ Q a b) D₂ (next a) R)
    (h₁ : ∀ m, D₁ m → D m) (h₂ : ∀ m, D₂ m → D m) (hdisjoint : ∀ m, D₁ m → ¬ D₂ m) :
    Collects s root P D (step >>= next) R := by
  intro b hs hp hD
  obtain ⟨hs', he, hopen, hq⟩ := h b hs hp fun m k hm => hD m k (h₁ m hm)
  have hfresh : ∀ m k, D₂ m → (m, k) ∉ (step.run b).2.scopeOf := by
    intro m k hm hin
    rcases hopen m k hin with hold | hnew
    · exact hD m k (h₂ m hm) hold
    · exact hdisjoint m hnew hm
  obtain ⟨hs'', he', hopen', hr⟩ := h' _ _ hs' ⟨hP _ _ he hp, hq⟩ hfresh
  refine ⟨hs'', he.trans he', fun m k hm => ?_, hr⟩
  rcases hopen' m k hm with hold | hnew
  · exact (hopen m k hold).imp_right (h₁ m)
  · exact .inr (h₂ m hnew)

theorem keep (hP : Stable P) (h : Collects s root P D step Q) :
    Collects s root P D step fun a b => P b ∧ Q a b := by
  intro b hs hp hD
  obtain ⟨hs', he, hopen, hq⟩ := h b hs hp hD
  exact ⟨hs', he, hopen, hP _ _ he hp, hq⟩

theorem before (hP : Stable P) (h : Collects s root P (fun _ => False) step Q)
    (h' : ∀ a, Collects s root (fun b => P b ∧ Q a b) D (next a) R) :
    Collects s root P D (step >>= next) R :=
  h.bind hP h' (fun _ => False.elim) (fun _ => id) fun _ => False.elim

theorem forM {γ : Type} {l : List γ} {act : γ → StateM Bindings PUnit} {D : γ → NodeId → Prop}
    {Q : γ → Bindings → Prop} (hP : Stable P) (hQ : ∀ a ∈ l, Stable (Q a))
    (h : ∀ a ∈ l, Collects s root P (D a) (act a) fun _ => Q a)
    (hdisjoint : l.Pairwise fun a a' => ∀ m, D a m → ¬ D a' m) :
    Collects s root P (fun m => ∃ a ∈ l, D a m) (l.forM act) fun _ b => ∀ a ∈ l, Q a b := by
  induction l with
  | nil => exact .pure fun _ _ a ha => (List.not_mem_nil ha).elim
  | cons a l ih =>
    obtain ⟨hhead, htail⟩ := List.pairwise_cons.1 hdisjoint
    have hrest := ih (fun a' ha' => hQ a' (List.mem_cons_of_mem _ ha'))
      (fun a' ha' => h a' (List.mem_cons_of_mem _ ha')) htail
    have hstep := h a List.mem_cons_self
    -- what was gained at the head is kept while the rest is done
    have hkeep : Collects s root (fun b => P b ∧ Q a b) (fun m => ∃ a ∈ l, D a m) (l.forM act)
        fun _ b => ∀ a' ∈ a :: l, Q a' b := by
      have hstable : Stable fun b => P b ∧ Q a b :=
        fun b b' he hb => ⟨hP b b' he hb.1, hQ a List.mem_cons_self b b' he hb.2⟩
      refine (hrest.weaken (fun _ => And.left) (fun _ => id) fun _ _ => id).keep hstable |>.weaken
        (fun _ => id) (fun _ => id) ?_
      rintro _ b ⟨⟨-, hq⟩, hqs⟩
      exact List.forall_mem_cons.2 ⟨hq, hqs⟩
    refine hstep.bind hP (fun _ => hkeep) (fun m hm => ⟨a, List.mem_cons_self, hm⟩) ?_ ?_
    · rintro m ⟨a', ha', hm⟩
      exact ⟨a', List.mem_cons_of_mem _ ha', hm⟩
    · rintro m hm ⟨a', ha', hm'⟩
      exact hhead a' ha' m hm hm'

end Collects
end Modernizer.Scope
