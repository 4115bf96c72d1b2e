import Modernizer.Proofs.Scope.Narrowed

/-! Bindings that are collected again after some `var` lists have become lists of another kind. Each
step enters the same names in the same scopes (`Follows`). The variables of these lists are no variables
any more, and those of the kept lists have new numbers (`Renames`). -/

namespace Modernizer.Scope

open Store

variable {α β : Type} {kept : NodeId → Bool} {s s' : Store} {b b' : Bindings} {v : VarBinding}
  {vars : Array VarBinding} {i j k : Nat} {x : String} {γ γ' : Binding}

def rank (kept : NodeId → Bool) (vars : Array VarBinding) (i : Nat) : Nat :=
  (vars.toList.take i).countP (kept ·.list)

/-- What a binding is afterwards. -/
def renamed (kept : NodeId → Bool) (vars : Array VarBinding) : Binding → Binding
  | .variable_ i => if (vars[i]?).any (kept ·.list) then .variable_ (rank kept vars i) else .other
  | γ => γ

def FunctionScope.renamed (kept : NodeId → Bool) (vars : Array VarBinding) (f : FunctionScope) :
    FunctionScope :=
  { f with bindings := f.bindings.map fun entry => (entry.1, Scope.renamed kept vars entry.2) }

/-- The same names have been entered in both states. -/
structure Renames (kept : NodeId → Bool) (b b' : Bindings) : Prop where
  scopes : b'.scopes = b.scopes.map (FunctionScope.renamed kept b.vars)
  scopeOf : b'.scopeOf = b.scopeOf
  vars : b'.vars.toList = b.vars.toList.filter (kept ·.list)
  numbered : ∀ k x i, (x, .variable_ i) ∈ b.table k → i < b.vars.size

theorem rank_push (hi : i ≤ vars.size) : rank kept (vars.push v) i = rank kept vars i := by
  rw [rank, rank, Array.toList_push, List.take_append_of_le_length (by simpa using hi)]

theorem renamed_push (hi : i < vars.size) :
    renamed kept (vars.push v) (.variable_ i) = renamed kept vars (.variable_ i) := by
  rw [renamed, renamed, rank_push (Nat.le_of_lt hi), Array.getElem?_push, if_neg (Nat.ne_of_lt hi)]

theorem rank_size : rank kept vars vars.size = (vars.toList.filter (kept ·.list)).length := by
  rw [rank, List.take_of_length_le (by simp), List.countP_eq_length_filter]

theorem renamed_push_size : renamed kept (vars.push v) (.variable_ vars.size) =
    if kept v.list then .variable_ (vars.toList.filter (kept ·.list)).length else .other := by
  rw [renamed, rank_push (Nat.le_refl _), rank_size, Array.getElem?_push_size, Option.any_some]

namespace Renames

variable (h : Renames kept b b')

include h

theorem size_vars : b'.vars.size = (b.vars.toList.filter (kept ·.list)).length := by
  rw [← Array.length_toList, h.vars]

theorem renamed_scope (hold : ∀ i, i < b.vars.size →
      renamed kept vars (.variable_ i) = renamed kept b.vars (.variable_ i)) {f : FunctionScope}
    (hf : b.scopes[k]? = some f) : f.renamed kept vars = f.renamed kept b.vars := by
  refine congrArg (FunctionScope.mk f.parent) (List.map_congr_left fun entry hentry => ?_)
  obtain ⟨y, δ⟩ := entry
  refine congrArg (Prod.mk y) ?_
  cases δ with
  | variable_ i =>
    refine hold i (h.numbered k y i ?_)
    rw [Bindings.table, hf]
    exact hentry
  | _ => rfl

theorem enter (vars vars' : Array VarBinding) (hold : ∀ i, i < b.vars.size →
      renamed kept vars (.variable_ i) = renamed kept b.vars (.variable_ i))
    (hvars : vars'.toList = vars.toList.filter (kept ·.list)) (hsize : b.vars.size ≤ vars.size)
    (hγ : renamed kept vars γ = γ') (hnumber : ∀ i, γ = .variable_ i → i < vars.size) :
    Renames kept (b.enter vars k x γ) (b'.enter vars' k x γ') := by
  refine ⟨Array.ext_getElem? fun j => ?_, h.scopeOf, hvars, fun j y i hy => ?_⟩
  · simp only [Bindings.enter, h.scopes, Array.getElem?_modify, Array.getElem?_map]
    cases hf : b.scopes[j]? with
    | none => split <;> rfl
    | some f =>
      have hsame := h.renamed_scope hold hf
      split
      · simp only [FunctionScope.renamed, FunctionScope.mk.injEq] at hsame
        simp [FunctionScope.renamed, hsame, hγ]
      · exact congrArg some hsame.symm
  · have hcases : (y, .variable_ i) ∈ b.table j ∨ γ = .variable_ i := by
      simp only [Bindings.table, Bindings.enter, Array.getElem?_modify] at hy ⊢
      cases hf : b.scopes[j]? with
      | none => simp [hf] at hy
      | some f =>
        rw [hf] at hy
        split at hy
        · rcases List.mem_append.1 hy with hy | hy
          · exact .inl hy
          · cases List.mem_singleton.1 hy
            exact .inr rfl
        · exact .inl hy
    rcases hcases with hy | hγ
    · exact Nat.lt_of_lt_of_le (h.numbered j y i hy) hsize
    · exact hnumber i hγ

end Renames

/-- The second step does the same as the first one, and has the same result. -/
def Follows (kept : NodeId → Bool) (step step' : StateM Bindings α) : Prop :=
  ∀ b b', Renames kept b b' → (step' b').1 = (step b).1 ∧ Renames kept (step b).2 (step' b').2

namespace Follows

theorem pure {a : α} : Follows kept (pure a) (pure a) := fun _ _ h => ⟨rfl, h⟩

theorem bind {step step' : StateM Bindings α} {next next' : α → StateM Bindings β}
    (h : Follows kept step step') (h' : ∀ a, Follows kept (next a) (next' a)) :
    Follows kept (step >>= next) (step' >>= next') := by
  intro b b' hb
  obtain ⟨hresult, hstate⟩ := h b b' hb
  change (next' (step' b').1 (step' b').2).1 = (next (step b).1 (step b).2).1 ∧
    Renames kept (next (step b).1 (step b).2).2 (next' (step' b').1 (step' b').2).2
  rw [hresult]
  exact h' _ _ _ hstate

theorem forM {γ : Type} {l : List γ} {act act' : γ → StateM Bindings PUnit}
    (h : ∀ a ∈ l, Follows kept (act a) (act' a)) : Follows kept (l.forM act) (l.forM act') := by
  induction l with
  | nil => exact .pure
  | cons a l ih =>
    exact .bind (h a List.mem_cons_self) fun _ => ih fun a ha => h a (List.mem_cons_of_mem _ ha)

end Follows

theorem follows_declare (hγ : ∀ i, γ ≠ .variable_ i) :
    Follows kept (declare k x γ) (declare k x γ) := by
  intro b b' h
  have hrenamed : renamed kept b.vars γ = γ := by
    cases γ with
    | variable_ i => exact absurd rfl (hγ i)
    | _ => rfl
  exact ⟨rfl, h.enter _ _ (fun _ _ => rfl) h.vars (Nat.le_refl _) hrenamed fun i e =>
    absurd e (hγ i)⟩

theorem follows_openScope (f : NodeId) (k : Nat) :
    Follows kept (openScope f k) (openScope f k) := by
  intro b b' h
  have hsize : b'.scopes.size = b.scopes.size := by rw [h.scopes, Array.size_map]
  refine ⟨hsize, ?_, ?_, h.vars, fun j y i hy => h.numbered j y i ?_⟩
  · change b'.scopes.push ⟨some k, []⟩ = (b.scopes.push ⟨some k, []⟩).map _
    rw [h.scopes, Array.map_push]
    rfl
  · change (f, b'.scopes.size) :: b'.scopeOf = (f, b.scopes.size) :: b.scopeOf
    rw [hsize, h.scopeOf]
  · change (y, Binding.variable_ i) ∈ (b.opened f k).table j at hy
    simp only [Bindings.table, Bindings.opened, Array.getElem?_push] at hy ⊢
    split at hy
    · cases hy
    · exact hy

def declareVar (v : VarBinding) : Collect := do
  let index := (← get).vars.size
  modify fun b => { b with vars := b.vars.push v }
  declare v.scope v.name (.variable_ index)

theorem follows_declareVar_of_kept (hv : kept v.list = true) :
    Follows kept (declareVar v) (declareVar v) := by
  intro b b' h
  refine ⟨rfl, h.enter (b.vars.push v) (b'.vars.push v) (fun i hi => renamed_push hi) ?_ ?_ ?_ ?_⟩
  · rw [Array.toList_push, Array.toList_push, List.filter_append, h.vars]
    simp [hv]
  · exact Array.size_push v ▸ Nat.le_succ _
  · rw [renamed_push_size, if_pos hv, h.size_vars]
  · rintro i ⟨⟩
    exact Array.size_push v ▸ Nat.lt_succ_self _

theorem follows_declareVar_of_lost (hv : kept v.list = false) :
    Follows kept (declareVar v) (declare v.scope v.name .other) := by
  intro b b' h
  refine ⟨rfl, h.enter (b.vars.push v) b'.vars (fun i hi => renamed_push hi) ?_ ?_ ?_ ?_⟩
  · rw [Array.toList_push, List.filter_append, h.vars]
    simp [hv]
  · exact Array.size_push v ▸ Nat.le_succ _
  · rw [renamed_push_size, if_neg (by simp [hv])]
  · rintro i ⟨⟩
    exact Array.size_push v ▸ Nat.lt_succ_self _

theorem declareVars_of_declaration {l d : NodeId} {kind : DeclarationKind} {target e : Slot}
    (hd : s.form? (some d) = some (.declaration target e)) : declareVars s l kind k (some d) =
      if kind ≠ .varKind then declareTarget s k target
      else (s.bindingNames target).forM fun n => (s.identifierName? n).elim (pure ()) fun x =>
        declareVar (varBinding s l d x e k) := by
  unfold declareVars
  rw [hd]
  dsimp only
  congr 1
  refine congrArg _ (funext fun n => ?_)
  cases s.identifierName? n <;> rfl

theorem declareVars_of_not_declaration {l : NodeId} {kind : DeclarationKind} {d : Slot}
    (hd : ∀ target e, s.form? d ≠ some (.declaration target e)) :
    declareVars s l kind k d = pure () := by
  unfold declareVars
  split
  · rename_i target e hform
    exact absurd hform (hd target e)
  · rfl

section

variable (h : s.Narrowed kept s') {l : NodeId} {kind kind' : DeclarationKind} {fuel : Nat}

include h

theorem follows_declareName (k : Nat) (n : Slot) (hγ : ∀ i, γ ≠ .variable_ i) :
    Follows kept (declareName s k n γ) (declareName s' k n γ) := by
  unfold declareName
  rw [h.identifierName?]
  split
  · exact follows_declare hγ
  · exact .pure

theorem follows_declareTarget (k : Nat) (target : Slot) :
    Follows kept (declareTarget s k target) (declareTarget s' k target) := by
  unfold declareTarget
  rw [h.bindingNames]
  exact .forM fun n _ => follows_declareName h k n (by simp)

/-- The names of a declaration are entered, those of a list that is kept with their numbers. -/
theorem follows_declareVars
    (hkept : if kept l then kind' = kind else kind = .varKind ∧ kind' ≠ .varKind)
    (k : Nat) (d : Slot) :
    Follows kept (declareVars s l kind k d) (declareVars s' l kind' k d) := by
  by_cases hd : ∃ target e, s.form? d = some (.declaration target e)
  · obtain ⟨target, e, hd⟩ := hd
    obtain ⟨d, rfl, hd⟩ := exists_of_form? hd
    have hd' : s'.form? (some d) = some (.declaration target e) := by
      rcases h.form_cases (some d) with hsame | ⟨list, kind, hlist, -⟩
      · rw [hsame, hd]
      · rw [hd] at hlist
        cases hlist
    rw [declareVars_of_declaration hd, declareVars_of_declaration hd', h.bindingNames]
    split at hkept
    · rename_i hl
      subst hkept
      split
      · exact follows_declareTarget h k target
      · refine .forM fun n _ => ?_
        rw [h.identifierName?]
        cases s.identifierName? n with
        | none => exact .pure
        | some x =>
          rw [Option.elim_some, Option.elim_some, varBinding_narrowed h]
          exact follows_declareVar_of_kept hl
    · rename_i hl
      obtain ⟨rfl, hkind⟩ := hkept
      rw [if_neg (by simp), if_pos hkind, declareTarget, h.bindingNames]
      refine .forM fun n _ => ?_
      rw [declareName, h.identifierName?]
      cases s.identifierName? n with
      | none => exact .pure
      | some x =>
        exact follows_declareVar_of_lost (v := varBinding s l d x e k) (Bool.eq_false_iff.2 hl)
  · have hno : ∀ target e, s.form? d ≠ some (.declaration target e) := fun target e heq =>
      hd ⟨target, e, heq⟩
    have hno' : ∀ target e, s'.form? d ≠ some (.declaration target e) := by
      intro target e heq
      rcases h.form_cases d with hsame | ⟨list, kind, -, hlist'⟩
      · exact hno target e (hsame ▸ heq)
      · rw [heq] at hlist'
        cases hlist'
    rw [declareVars_of_not_declaration hno, declareVars_of_not_declaration hno']
    exact .pure

/-- What is collected at a node and below it is the same. -/
theorem follows_collect (n : Slot) (k : Nat) :
    Follows kept (collect s fuel n k) (collect s' fuel n k) := by
  induction fuel generalizing n k with
  | zero => exact .pure
  | succ fuel ih =>
    have hparameters : ∀ (list : NodeList) (inner : Nat),
        Follows kept
          (list.nodes.forM fun p => do
            declareTarget s inner p
            collect s fuel p inner)
          (list.nodes.forM fun p => do
            declareTarget s' inner p
            collect s' fuel p inner) := fun list inner =>
      .forM fun p _ => .bind (follows_declareTarget h inner p) fun _ => ih p inner
    have hchildren : ∀ l : List NodeId,
        Follows kept (l.forM fun child => collect s fuel (some child) k)
          (l.forM fun child => collect s' fuel (some child) k) := fun l =>
      .forM fun c _ => ih (some c) k
    cases n with
    | none => exact .pure
    | some i =>
      unfold collect
      cases hkept : kept i with
      | false =>
        obtain ⟨list, kind, hlist, hvar, hkind, hlist'⟩ := h.narrowed i hkept
        rw [hlist, hlist']
        refine .bind (.forM fun d _ => follows_declareVars h ?_ k d) fun _ => hchildren _
        rw [if_neg (by simp [hkept])]
        exact ⟨hvar, hkind⟩
      | true =>
        rw [h.same i hkept]
        cases s.form? (some i) with
        | none => exact .pure
        | some form =>
          cases form with
          | functionDeclaration f =>
            refine .bind (follows_declareName h k f.name (by simp)) fun _ =>
              .bind (follows_openScope i k) fun inner =>
                .bind (hparameters f.parameters inner) fun _ => ih f.body inner
          | functionExpression f =>
            refine .bind (follows_openScope i k) fun inner =>
              .bind (follows_declareName h inner f.name (by simp)) fun _ =>
                .bind (hparameters f.parameters inner) fun _ => ih f.body inner
          | arrow a =>
            refine .bind (follows_openScope i k) fun inner =>
              .bind (hparameters a.parameters inner) fun _ => ih a.body inner
          | method m =>
            refine .bind (ih m.name k) fun _ => .bind (follows_openScope i k) fun inner =>
              .bind (hparameters m.parameters inner) fun _ => ih m.body inner
          | classDeclaration c =>
            exact .bind (follows_declareName h k c.name (by simp)) fun _ => hchildren _
          | catchClause target body =>
            exact .bind (follows_declareTarget h k target) fun _ => hchildren _
          | declarationList list =>
            refine .bind (.forM fun d _ => follows_declareVars h ?_ k d) fun _ => hchildren _
            rw [if_pos hkept]
          | _ => exact hchildren (Form.children _)

theorem renames_bindings (root : NodeId) : Renames kept (bindings s root) (bindings s' root) := by
  have hstart : Renames kept ⟨#[⟨none, []⟩], [], #[]⟩ ⟨#[⟨none, []⟩], [], #[]⟩ := by
    refine ⟨by simp [FunctionScope.renamed], rfl, rfl, fun k x i hx => ?_⟩
    cases k <;> cases hx
  rw [bindings, bindings, h.place.size]
  exact (follows_collect h (some root) 0 _ _ hstart).2

end

end Modernizer.Scope
