import Modernizer.Proofs.Tree.Basic
import Modernizer.Rule.Basic

/-! What the operations of a store do to forms and parent links. Marks, spans, origins and comments
have no part in the tree (`SameTree`); adoption changes parent links only, and only to a holder
(`Relinks`). -/

namespace Modernizer.Store

open Relation

variable {s s' s'' : Store} {root c f m n p q : NodeId}

/-- The stores differ in nothing that makes the tree. -/
structure SameTree (s s' : Store) : Prop where
  size : s'.size = s.size
  form : ∀ m, s'.form? m = s.form? m
  synthesized : ∀ m, s'.isSynthesized m = s.isSynthesized m
  parent : ∀ m, s'.parent m = s.parent m

namespace SameTree

theorem refl (s : Store) : SameTree s s := ⟨rfl, fun _ => rfl, fun _ => rfl, fun _ => rfl⟩

theorem trans (h : SameTree s s') (h' : SameTree s' s'') : SameTree s s'' :=
  ⟨h'.size.trans h.size, fun m => (h'.form m).trans (h.form m),
    fun m => (h'.synthesized m).trans (h.synthesized m),
    fun m => (h'.parent m).trans (h.parent m)⟩

theorem of_nodes (h : s'.nodes = s.nodes) : SameTree s s' := by
  have hget : ∀ m, s'.get? m = s.get? m := fun m => by simp only [get?, h]
  exact ⟨by simp only [Store.size, h], fun m => by simp only [form?, hget],
    fun m => by simp only [isSynthesized, hget], fun m => by simp only [Store.parent, hget]⟩

end SameTree

theorem bodied_congr (hform : ∀ m, s'.form? (some m) = s.form? (some m))
    (h : ∀ n form, s.form? (some n) = some form → s.Bodied form) :
    ∀ n form, s'.form? (some n) = some form → s'.Bodied form := by
  intro n form hf b hb
  rw [hform] at hf
  obtain ⟨list, hl⟩ := h n form hf b hb
  exact ⟨list, (hform b).trans hl⟩

theorem form?_synthesize (s : Store) (form : Form) :
    (s.synthesize form).2.form? (some s.size) = some form := by
  simp [form?, get?_synthesize]

theorem form?_synthesize_of_lt (form : Form) (hn : n < s.size) :
    (s.synthesize form).2.form? (some n) = s.form? (some n) := by
  rw [form?, get?_synthesize, if_neg, form?]
  exact fun e => Nat.lt_irrefl _ (Option.some.inj e ▸ hn)

theorem form?_of_synthesize {form form' : Form}
    (h : (s.synthesize form).2.form? (some n) = some form') :
    s.form? (some n) = some form' ∨ n = s.size ∧ form' = form := by
  by_cases hn : n = s.size
  · rw [hn, form?_synthesize] at h
    exact .inr ⟨hn, (Option.some.inj h).symm⟩
  · rw [form?, get?_synthesize, if_neg (by simpa using hn)] at h
    exact .inl h

theorem form?_modify (s : Store) (n m : Slot) (f : Node → Node) :
    (s.modify n f).form? m =
      if n = m then (s.get? m).map (fun x => (f x).form) else s.form? m := by
  unfold form?
  rw [get?_modify]
  split
  · simp [Function.comp_def]
  · rfl

theorem parent_modify (s : Store) (n m : Slot) (f : Node → Node) :
    (s.modify n f).parent m =
      if n = m then (s.get? m).bind (fun x => (f x).parent) else s.parent m := by
  unfold parent
  rw [get?_modify]
  split
  · rw [Option.bind_map]
    rfl
  · rfl

theorem isSynthesized_modify (s : Store) (n m : Slot) (f : Node → Node)
    (h : ∀ x, (f x).synthesized = x.synthesized) :
    (s.modify n f).isSynthesized m = s.isSynthesized m := by
  unfold isSynthesized
  rw [get?_modify]
  split
  · cases s.get? m <;> simp [h]
  · rfl

theorem sameTree_modify (s : Store) (n : Slot) (f : Node → Node)
    (hform : ∀ x, (f x).form = x.form) (hparent : ∀ x, (f x).parent = x.parent)
    (hsyn : ∀ x, (f x).synthesized = x.synthesized) : SameTree s (s.modify n f) := by
  refine ⟨size_modify s n f, fun m => ?_, fun m => isSynthesized_modify s n m f hsyn, fun m => ?_⟩
  · rw [form?_modify]
    split
    · simp only [hform]; rfl
    · rfl
  · rw [parent_modify]
    split
    · simp only [hparent]; rfl
    · rfl

theorem sameTree_markModified (s : Store) (n : Slot) : SameTree s (s.markModified n) := by
  suffices h : ∀ fuel (n : Slot) (s : Store), SameTree s (markModified.go fuel n s) from h _ _ _
  intro fuel
  induction fuel with
  | zero => exact fun _ s => .refl s
  | succ fuel ih =>
    intro n s
    unfold markModified.go
    split
    · exact .refl s
    · split
      · exact .refl s
      · refine SameTree.trans ?_ (ih _ _)
        exact sameTree_modify s n _ (fun _ => rfl) (fun _ => rfl) (fun _ => rfl)

theorem sameTree_markListEdited (s : Store) (n : Slot) : SameTree s (s.markListEdited n) := by
  refine SameTree.trans ?_ (sameTree_markModified _ n)
  exact sameTree_modify s n _ (fun _ => rfl) (fun _ => rfl) (fun _ => rfl)

theorem sameTree_setAttached (s : Store) (n : Slot) (a : Attached) :
    SameTree s (s.setAttached n a) := .of_nodes rfl

theorem sameTree_foldl {α : Type} (f : Store → α → Store) (hf : ∀ s a, SameTree s (f s a))
    (as : List α) (s : Store) : SameTree s (as.foldl f s) := by
  induction as generalizing s with
  | nil => exact .refl s
  | cons a as ih => exact (hf s a).trans (ih (f s a))

theorem sameTree_adoptAnchorSpan (s : Store) (anchor : Slot) (ns : List Slot) :
    SameTree s (s.adoptAnchorSpan anchor ns) := by
  unfold adoptAnchorSpan
  split
  · exact .refl s
  · exact sameTree_foldl _ (fun s n => sameTree_modify s n _
      (fun x => by split <;> rfl) (fun x => by split <;> rfl) (fun x => by split <;> rfl)) _ _

/-! Adoption. -/

/-- Only parent links differ, and a link that does leads to a holder of the node that is in `Q`. -/
structure Relinks (Q : NodeId → Prop) (s s' : Store) : Prop where
  size : s'.size = s.size
  form : ∀ m, s'.form? m = s.form? m
  synthesized : ∀ m, s'.isSynthesized m = s.isSynthesized m
  parent : ∀ m, s'.parent (some m) = s.parent (some m) ∨
    ∃ q, Q q ∧ s.Holds q m ∧ s'.parent (some m) = some q

theorem children_congr (h : s'.form? (some p) = s.form? (some p)) :
    s'.children (some p) = s.children (some p) := by
  simp only [children, h]

theorem holds_congr (h : ∀ m, s'.form? m = s.form? m) : s'.Holds = s.Holds := by
  funext p c
  simp only [Holds, children_congr (h _)]

theorem below_congr (h : ∀ m, s'.form? m = s.form? m) : s'.Below = s.Below := by
  simp only [Below, holds_congr h]

namespace Relinks

variable {Q Q' : NodeId → Prop}

theorem refl (s : Store) : Relinks Q s s := ⟨rfl, fun _ => rfl, fun _ => rfl, fun _ => .inl rfl⟩

theorem trans (h : Relinks Q s s') (h' : Relinks Q s' s'') : Relinks Q s s'' := by
  refine ⟨h'.size.trans h.size, fun m => (h'.form m).trans (h.form m),
    fun m => (h'.synthesized m).trans (h.synthesized m), fun m => ?_⟩
  rcases h'.parent m with e | ⟨q, hq, hm, e⟩
  · rcases h.parent m with e' | ⟨q, hq, hm, e'⟩
    · exact .inl (e.trans e')
    · exact .inr ⟨q, hq, hm, e.trans e'⟩
  · exact .inr ⟨q, hq, by rwa [holds_congr h.form] at hm, e⟩

theorem mono (h : Relinks Q s s') (hQ : ∀ q, Q q → Q' q) : Relinks Q' s s' :=
  ⟨h.size, h.form, h.synthesized, fun m => (h.parent m).imp_right
    fun ⟨q, hq, hm, e⟩ => ⟨q, hQ q hq, hm, e⟩⟩

theorem keeps (h : Relinks Q s s') (hQ : ∀ q, Q q → s.Holds q c → q = p)
    (hp : s.parent (some c) = some p) : s'.parent (some c) = some p := by
  rcases h.parent c with e | ⟨q, hq, hc, e⟩
  · exact e.trans hp
  · rw [e, hQ q hq hc]

end Relinks

theorem relinks_setParent {Q : NodeId → Prop} (hQ : Q p) (hc : s.Holds p c) :
    Relinks Q s (s.setParent (some c) (some p)) := by
  refine ⟨size_modify .., fun m => ?_, fun m => isSynthesized_modify _ _ _ _ fun _ => rfl,
    fun m => ?_⟩
  · rw [setParent, form?_modify]
    split <;> rfl
  · rw [setParent, parent_modify]
    split
    · rename_i h
      obtain rfl := Option.some.inj h
      cases hg : s.get? (some c) with
      | none => simp [parent, hg]
      | some x => exact .inr ⟨p, hQ, hc, by simp⟩
    · exact .inl rfl

theorem parent_setParent (hc : c < s.size) (p : Slot) :
    (s.setParent (some c) p).parent (some c) = p := by
  rw [setParent, parent_modify, if_pos rfl]
  obtain ⟨x, hx⟩ : ∃ x, s.get? (some c) = some x :=
    Option.ne_none_iff_exists'.1 fun h => absurd (get?_eq_none_iff.1 h) (Nat.not_le_of_lt hc)
  simp [hx]

theorem relinks_foldl {α : Type} {Q : NodeId → Prop} {f : Store → α → Store} {as : List α}
    (hf : ∀ a ∈ as, ∀ s', Relinks Q s s' → Relinks Q s' (f s' a)) :
    Relinks Q s (as.foldl f s) := by
  suffices h : ∀ s', Relinks Q s s' → Relinks Q s (as.foldl f s') from h s (.refl s)
  induction as with
  | nil => exact fun _ hs' => hs'
  | cons a as ih =>
    intro s' hs'
    exact ih (fun b hb => hf b (List.mem_cons_of_mem a hb)) _
      (hs'.trans (hf a List.mem_cons_self s' hs'))

/-- The second node is the first or reached from it through synthesized nodes. -/
def FreshBelow (s : Store) : NodeId → NodeId → Prop :=
  ReflTransGen fun p c => s.Holds p c ∧ s.isSynthesized (some c) = true

theorem FreshBelow.below (h : s.FreshBelow p q) : s.Below p q :=
  ReflTransGen.mono (fun _ _ hc => hc.1) _ _ h

theorem freshBelow_congr (hform : ∀ m, s'.form? m = s.form? m)
    (hsyn : ∀ m, s'.isSynthesized m = s.isSynthesized m) : s'.FreshBelow = s.FreshBelow := by
  simp only [FreshBelow, holds_congr hform, hsyn]

theorem relinks_adoptFresh_go (fuel : Nat) (n : NodeId) (s : Store) :
    Relinks (s.FreshBelow n) s (adoptChildren.go fuel n s) := by
  induction fuel generalizing n s with
  | zero => exact .refl s
  | succ fuel ih =>
    unfold adoptChildren.go
    have h₁ : Relinks (s.FreshBelow n) s
        ((s.children (some n)).foldl (fun s c => s.setParent (some c) (some n)) s) :=
      relinks_foldl fun c hc s' hs' =>
        relinks_setParent .refl (by rw [holds_congr hs'.form]; exact hc)
    refine h₁.trans ?_
    rw [← List.foldl_reverse]
    refine relinks_foldl fun c hc s' hs' => ?_
    have hs := h₁.trans hs'
    split
    · rename_i hsyn
      refine (ih c s').mono fun q hq => ?_
      rw [freshBelow_congr hs.form hs.synthesized] at hq
      exact ReflTransGen.head ⟨List.mem_reverse.1 hc, (hs.synthesized _).symm.trans hsyn⟩ hq
    · exact .refl s'

theorem relinks_adoptFresh (n : NodeId) (s : Store) :
    Relinks (s.FreshBelow n) s (s.adoptChildren n) := relinks_adoptFresh_go _ n s

theorem relinks_adoptChildren_go (fuel : Nat) (n : NodeId) (s : Store) :
    Relinks (s.Below n) s (adoptChildren.go fuel n s) :=
  (relinks_adoptFresh_go fuel n s).mono fun _ hq => hq.below

theorem relinks_adoptChildren (n : NodeId) (s : Store) :
    Relinks (s.Below n) s (s.adoptChildren n) := relinks_adoptChildren_go _ n s

end Modernizer.Store
