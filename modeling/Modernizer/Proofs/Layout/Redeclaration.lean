import Modernizer.Proofs.Layout.Copy
import Modernizer.Proofs.Modernize

/-! Declaration lists of other kinds. A list is changed by an edit that is marked; of all else in the
store nothing but marks is changed, and below a node without a mark nothing is (`Redeclared`). -/

namespace Modernizer

open Store Text

/-- A declaration list of another kind. -/
def Form.withKind (kind : DeclarationKind) : Form → Form
  | declarationList list => declarationList { list with kind }
  | f => f

namespace Form

variable (kind : DeclarationKind) (form : Form)

@[simp] theorem children_withKind : (form.withKind kind).children = form.children := by
  cases form <;> rfl

@[simp] theorem withKind_withKind (kind' : DeclarationKind) :
    (form.withKind kind).withKind kind' = form.withKind kind' := by
  cases form <;> rfl

theorem exists_list_of_withKind {form form' : Form} {list : DeclarationList}
    (h : form.withKind kind = form'.withKind kind) (hform : form = declarationList list) :
    ∃ kind', form' = declarationList { list with kind := kind' } := by
  subst hform
  cases form' with
  | declarationList list' =>
    simp only [withKind, declarationList.injEq, DeclarationList.mk.injEq, true_and] at h
    obtain ⟨hdeclarations, hspelled⟩ := h
    exact ⟨list'.kind, by rw [hdeclarations, hspelled]⟩
  | _ => cases h

end Form

namespace DeclarationKind

variable (kind : DeclarationKind)

theorem utf8ByteSize_keyword : kind.keyword.utf8ByteSize = utf8Length kind.keyword.toList := by
  cases kind <;> rfl

theorem keyword_ne_nil : kind.keyword.toList ≠ [] := by
  cases kind <;> decide

theorem isFirm_of_mem_keyword : ∀ c ∈ kind.keyword.toList, isFirm c = true := by
  cases kind <;> exact List.all_eq_true.1 rfl

theorem cut_after_keyword (before after : Text) :
    Cut (before ++ (kind.keyword.toList ++ after))
      (utf8Length before + utf8Length kind.keyword.toList) := by
  have hcloses : Closes kind.keyword.toList after :=
    .of_all_firm kind.keyword_ne_nil kind.isFirm_of_mem_keyword after
  exact ⟨before ++ kind.keyword.toList, after, (List.append_assoc ..).symm,
    (utf8Length_append ..).symm, .inr (.inl (hcloses.append before))⟩

end DeclarationKind

namespace Store

variable {s s₀ : Store} {n m : NodeId} {kind : DeclarationKind}
  {changes : List (NodeId × DeclarationKind)} {α : Type} {view : Node → α}

/-- Gives a declaration list another kind, as an edit. -/
def redeclare (s : Store) (n : NodeId) (kind : DeclarationKind) : Store :=
  (s.modify (some n) fun x => { x with form := x.form.withKind kind }).markModified (some n)

/-- Gives declaration lists other kinds. -/
def redeclareAll (s : Store) (changes : List (NodeId × DeclarationKind)) : Store :=
  changes.foldl (fun s change => s.redeclare change.1 change.2) s

theorem agree_redeclare (hform : ∀ x kind, view { x with form := x.form.withKind kind } = view x)
    (hmodified : ∀ x, view { x with modified := true } = view x) (s : Store) (n : NodeId)
    (kind : DeclarationKind) : Agree view s (s.redeclare n kind) := by
  have hmodify : Agree view s (s.modify (some n) fun x => { x with form := x.form.withKind kind }) :=
    .modify s (some n) fun x => hform x kind
  exact hmodify.trans (agree_markModified hmodified _ _)

theorem agree_redeclareAll
    (hform : ∀ x kind, view { x with form := x.form.withKind kind } = view x)
    (hmodified : ∀ x, view { x with modified := true } = view x) (s : Store)
    (changes : List (NodeId × DeclarationKind)) : Agree view s (s.redeclareAll changes) := by
  refine Agree.foldl (fun s change => ?_) changes s
  exact agree_redeclare hform hmodified s change.1 change.2

theorem form?_redeclare (s : Store) (n : NodeId) (kind : DeclarationKind) (m : NodeId) :
    (s.redeclare n kind).form? (some m) =
      if m = n then (s.form? (some m)).map (Form.withKind kind) else s.form? (some m) := by
  have hmark : Agree Node.form _ (s.redeclare n kind) := agree_markModified (fun _ => rfl) _ _
  rw [hmark.form?, form?, get?_modify]
  by_cases h : m = n
  · subst h
    simp [form?, Function.comp_def]
  · simp [form?, h, Ne.symm h]

theorem form?_redeclareAll_of_not_mem (hn : ∀ change ∈ changes, change.1 ≠ n) :
    (s.redeclareAll changes).form? (some n) = s.form? (some n) := by
  induction changes generalizing s with
  | nil => rfl
  | cons change changes ih =>
    rw [redeclareAll, List.foldl_cons, ← redeclareAll,
      ih fun c hc => hn c (List.mem_cons_of_mem _ hc), form?_redeclare,
      if_neg (hn change List.mem_cons_self).symm]

theorem form?_redeclareAll_of_mem (hnodup : (changes.map Prod.fst).Nodup)
    (hn : (n, kind) ∈ changes) :
    (s.redeclareAll changes).form? (some n) = (s.form? (some n)).map (Form.withKind kind) := by
  induction changes generalizing s with
  | nil => cases hn
  | cons change changes ih =>
    obtain ⟨hnot, hnodup⟩ := List.nodup_cons.1 hnodup
    rw [redeclareAll, List.foldl_cons, ← redeclareAll]
    rcases List.mem_cons.1 hn with rfl | hn
    · have hother : ∀ c ∈ changes, c.1 ≠ n := by
        rintro c hc rfl
        exact hnot (List.mem_map.2 ⟨c, hc, rfl⟩)
      rw [form?_redeclareAll_of_not_mem hother, form?_redeclare, if_pos rfl]
    · have hne : n ≠ change.1 := fun e =>
        hnot (e ▸ List.mem_map_of_mem (f := Prod.fst) hn)
      rw [ih hnodup hn, form?_redeclare, if_neg hne]

theorem faithful_redeclareAll (h : Faithful s₀ none s) (changes : List (NodeId × DeclarationKind)) :
    Faithful s₀ none (s.redeclareAll changes) := by
  induction changes generalizing s with
  | nil => exact h
  | cons change changes ih =>
    have hform : Faithful s₀ (some change.1)
        (s.modify (some change.1) fun x => { x with form := x.form.withKind change.2 }) :=
      (h.at_place _).modify_place (fun _ => rfl) fun _ => rfl
    exact ih hform.markModified

theorem modify_congr {f g : Node → Node} (h : ∀ x, s.get? (some n) = some x → f x = g x) :
    s.modify (some n) f = s.modify (some n) g := by
  have hnodes : s.nodes.modify n f = s.nodes.modify n g := by
    refine Array.ext_getElem? fun i => ?_
    rw [Array.getElem?_modify, Array.getElem?_modify]
    split
    · subst i
      exact Option.map_congr h
    · rfl
  rw [modify, modify, hnodes]

def unkinded (x : Node) : Form × Nat × Nat × Slot × Bool × Bool :=
  (x.form.withKind .varKind, x.pos, x.stop, x.parent, x.synthesized, x.listEdited)

/-- The node is a list of `var` declarations. -/
def isVarList (s : Store) (n : NodeId) : Bool :=
  match s.form? (some n) with
  | some (.declarationList list) => list.kind == .varKind
  | _ => false

theorem exists_of_isVarList (h : s.isVarList n) :
    ∃ list, s.form? (some n) = some (.declarationList list) ∧ list.kind = .varKind := by
  unfold isVarList at h
  split at h
  · rename_i list hlist
    exact ⟨list, hlist, by simpa using h⟩
  · cases h

/-- Lists of `var` declarations, each of them once, with the kinds they are to get. -/
structure Redeclares (s : Store) (changes : List (NodeId × DeclarationKind)) : Prop where
  nodup : (changes.map Prod.fst).Nodup
  var : ∀ change ∈ changes, s.isVarList change.1 = true ∧ change.2 ≠ .varKind

/-- The keyword of a declaration list that is to be of another kind. -/
def respelling (s : Store) (change : NodeId × DeclarationKind) : Respelling :=
  ⟨s.posOf (some change.1), DeclarationKind.varKind.keyword.toList, change.2.keyword.toList⟩

/-- What was parsed, with other kinds of some declaration lists. -/
structure Redeclared (source : Text) (s₀ s : Store) (changes : List (NodeId × DeclarationKind)) :
    Prop where
  placed : Placed source s₀
  forest : s₀.Forest
  faithful : Faithful s₀ none s
  plain : Agree unkinded s₀ s
  other : ∀ n, (∀ change ∈ changes, change.1 ≠ n) → s.form? (some n) = s₀.form? (some n)
  changed : ∀ change ∈ changes, s₀.isVarList change.1 = true ∧ change.2 ≠ .varKind ∧
    s.form? (some change.1) = (s₀.form? (some change.1)).map (Form.withKind change.2)

namespace Redeclared

variable {source : Text} (hr : Redeclared source s₀ s changes) {x : Node} {lo hi : Nat}
  {ns : List NodeId}

include hr

theorem exists_parsed (hx : s.get? (some n) = some x) :
    ∃ x₀, s₀.get? (some n) = some x₀ ∧ unkinded x = unkinded x₀ := hr.plain.exists_get? hx

theorem parsed (n : Slot) (x : Node) (hx : s.get? n = some x) : x.synthesized = false := by
  cases n with
  | none => cases hx
  | some n =>
    obtain ⟨x₀, hx₀, e⟩ := hr.exists_parsed hx
    have hpristine := (hr.placed n x₀ hx₀).pristine
    simp_all [unkinded, Node.isPristine]

theorem holds_iff : s.Holds n m ↔ s₀.Holds n m := by
  have hchildren := (hr.plain.map fun v => v.1.children) (some n)
  simp only [unkinded, Function.comp_def, Form.children_withKind] at hchildren
  simp only [Holds, children, form?, Option.map_map, Function.comp_def, hchildren]

theorem chain (h : s₀.Chain lo ns hi) : s.Chain lo ns hi := by
  induction ns generalizing lo with
  | nil => exact h
  | cons n ns ih =>
    obtain ⟨x₀, hx₀, hlo, hpos, h⟩ := h
    obtain ⟨x, hx, e⟩ := Agree.exists_get? (fun m => (hr.plain m).symm) hx₀
    simp only [unkinded, Prod.mk.injEq] at e
    exact ⟨x, hx, e.2.1 ▸ hlo, e.2.1 ▸ e.2.2.1 ▸ hpos, ih (e.2.2.1 ▸ h)⟩

theorem parent_eq (m : Slot) : s.parent m = s₀.parent m := by
  have hparent := (hr.plain.map fun v => v.2.2.2.1) m
  simp only [unkinded, Function.comp_def] at hparent
  unfold Store.parent
  cases hx : s.get? m <;> cases hx₀ : s₀.get? m <;> simp_all

theorem pristine_child (hn : s.isPristine (some n) = true) (hm : s.Holds n m) :
    s.isPristine (some m) = true := by
  have hparent := (hr.forest.linked n m).1 (hr.holds_iff.1 hm)
  exact hr.faithful.upward m n (by simp) hparent ((hr.parent_eq _).trans hparent) hn

theorem not_below_of_pristine (hn : s.isPristine (some n) = true) {change : NodeId × DeclarationKind}
    (hc : change ∈ changes) : ¬ s.Below n change.1 := by
  intro hbelow
  have hall : ∀ m, s.Below n m → s.isPristine (some m) = true := by
    intro m hm
    induction hm with
    | refl => exact hn
    | tail _ hm ih => exact hr.pristine_child ih hm
  obtain ⟨hvar, hother, hform⟩ := hr.changed change hc
  obtain ⟨list, hlist, hkind⟩ := exists_of_isVarList hvar
  rw [hr.faithful.form change.1 (by simp) (hall _ hbelow), hlist] at hform
  have hsame : list = { list with kind := change.2 } := by simpa [Form.withKind] using hform
  exact hother ((congrArg (·.kind) hsame).symm.trans hkind)

theorem exists_list {change : NodeId × DeclarationKind} (hc : change ∈ changes)
    (hx : s.get? (some change.1) = some x) : ∃ x₀ list, s₀.get? (some change.1) = some x₀ ∧
      x₀.form = .declarationList list ∧ list.kind = .varKind ∧
      x.form = .declarationList { list with kind := change.2 } := by
  obtain ⟨hvar, -, hform⟩ := hr.changed change hc
  obtain ⟨list, hlist, hkind⟩ := exists_of_isVarList hvar
  obtain ⟨x₀, hx₀, hform₀⟩ := Option.map_eq_some_iff.1 hlist
  rw [hlist, form?, hx] at hform
  exact ⟨x₀, list, hx₀, hform₀, hkind, Option.some.inj hform⟩

theorem form_eq (hn : ∀ change ∈ changes, change.1 ≠ n) (hx : s.get? (some n) = some x)
    {x₀ : Node} (hx₀ : s₀.get? (some n) = some x₀) : x.form = x₀.form := by
  have hform := hr.other n hn
  rw [form?, form?, hx, hx₀] at hform
  exact Option.some.inj hform

end Redeclared

end Store

variable {source : Text} {p : Program} {changes : List (NodeId × DeclarationKind)}

theorem redeclared_redeclareAll (h : parse source = .ok p) (hc : p.store.Redeclares changes) :
    Redeclared source p.store (p.store.redeclareAll changes) changes where
  placed := (placed_of_parse h).1
  forest := (grows_of_parse h).1.forest
  faithful := faithful_redeclareAll (faithful_of_parse h) changes
  plain := agree_redeclareAll (fun x kind => by simp [unkinded]) (fun _ => rfl) _ _
  other n hn := form?_redeclareAll_of_not_mem hn
  changed change hchange := ⟨(hc.var change hchange).1, (hc.var change hchange).2,
    form?_redeclareAll_of_mem hc.nodup hchange⟩

end Modernizer
