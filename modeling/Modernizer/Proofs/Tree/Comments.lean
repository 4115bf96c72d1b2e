import Mathlib.Data.List.Basic
import Modernizer.Comment.Attachment
import Modernizer.Rule.Basic

/-! Comments of nodes. They are kept beside the nodes, so links and marks do not touch them, and only
nodes that are there have some. -/

namespace Modernizer

theorem firstOccurrences_sublist {α : Type} [BEq α] (l : List α) :
    (firstOccurrences l).Sublist l := by
  suffices h : ∀ xs : List α, (l.foldl insertNew xs).Sublist (xs ++ l) from h []
  induction l with
  | nil => simp
  | cons x l ih =>
    intro xs
    have hnew : (insertNew xs x).Sublist (xs ++ [x]) := by
      unfold insertNew
      split
      · exact List.sublist_append_left ..
      · exact .refl _
    rw [List.foldl_cons, List.append_cons]
    exact (ih _).trans (hnew.append_right l)

namespace Store

variable {s s' : Store}

/-- What a store keeps beside its nodes. -/
def beside (s : Store) : List Comment × List (Slot × Attached) := (s.comments, s.attached)

theorem beside_modify (s : Store) (n : Slot) (f : Node → Node) :
    (s.modify n f).beside = s.beside := by
  cases n <;> rfl

theorem beside_foldl {α : Type} {f : Store → α → Store} (hf : ∀ s a, (f s a).beside = s.beside)
    (l : List α) (s : Store) : (l.foldl f s).beside = s.beside := by
  induction l generalizing s with
  | nil => rfl
  | cons a l ih => exact (ih _).trans (hf s a)

theorem beside_adoptChildren (s : Store) (n : NodeId) : (s.adoptChildren n).beside = s.beside := by
  suffices h : ∀ fuel n s, (adoptChildren.go fuel n s).beside = s.beside from h _ n s
  intro fuel
  induction fuel with
  | zero => exact fun _ _ => rfl
  | succ fuel ih =>
    intro n s
    unfold adoptChildren.go
    rw [← List.foldl_reverse]
    refine (beside_foldl (fun s child => ?_) _ _).trans
      (beside_foldl (fun s child => beside_modify ..) _ s)
    split
    · exact ih child s
    · rfl

theorem beside_markModified (s : Store) (n : Slot) : (s.markModified n).beside = s.beside := by
  suffices h : ∀ fuel n s, (markModified.go fuel n s).beside = s.beside from h _ n s
  intro fuel
  induction fuel with
  | zero => exact fun _ _ => rfl
  | succ fuel ih =>
    intro n s
    unfold markModified.go
    split
    · rfl
    · split
      · rfl
      · exact (ih _ _).trans (beside_modify ..)

theorem beside_adoptAnchorSpan (s : Store) (anchor : Slot) (ns : List Slot) :
    (s.adoptAnchorSpan anchor ns).beside = s.beside := by
  unfold adoptAnchorSpan
  split
  · rfl
  · exact beside_foldl (fun s n => beside_modify ..) ns s

theorem beside_setStatements? {container : Slot} {statements : List Slot}
    (h : s.setStatements? container statements = some s') : s'.beside = s.beside := by
  obtain ⟨list, -, rfl⟩ := Option.map_eq_some_iff.1 h
  rw [markListEdited, beside_markModified, beside_modify]
  refine (beside_foldl (fun s statement => ?_) statements _).trans (beside_modify ..)
  dsimp only
  split
  · cases statement with
    | none => rfl
    | some n => exact (beside_adoptChildren ..).trans (beside_modify ..)
  · exact beside_modify ..

theorem attached_modify (s : Store) (n : Slot) (f : Node → Node) :
    (s.modify n f).attached = s.attached := congrArg Prod.snd (beside_modify s n f)

theorem attached_adoptChildren (s : Store) (n : NodeId) :
    (s.adoptChildren n).attached = s.attached := congrArg Prod.snd (beside_adoptChildren s n)

theorem attached_markModified (s : Store) (n : Slot) :
    (s.markModified n).attached = s.attached := congrArg Prod.snd (beside_markModified s n)

theorem attached_adoptAnchorSpan (s : Store) (anchor : Slot) (ns : List Slot) :
    (s.adoptAnchorSpan anchor ns).attached = s.attached :=
  congrArg Prod.snd (beside_adoptAnchorSpan s anchor ns)

theorem attached_setStatements? {container : Slot} {statements : List Slot}
    (h : s.setStatements? container statements = some s') : s'.attached = s.attached :=
  congrArg Prod.snd (beside_setStatements? h)

theorem attachedTo_congr (h : s'.attached = s.attached) (m : Slot) :
    s'.attachedTo m = s.attachedTo m := by
  rw [attachedTo, attachedTo, h]

/-! Nodes that are still to be made. -/

/-- No node that is still to be made has comments. -/
def NoneAhead (s : Store) : Prop := ∀ i, s.size ≤ i → s.attachedTo (some i) = .none

end Store

namespace Attachment

variable {source : Text} {comments : List (Comment × Nat)} {previous : Option Neighbour}
  {following : Slot} {start stop : Nat} {a : Attachment} {elements : List (NodeId × Node)}

theorem node_of_mem_inGap (h : a ∈ inGap source comments previous following start stop) :
    (∃ p ∈ previous, a.node = p.node) ∨ following = some a.node := by
  obtain ⟨⟨comment, i⟩, -, h⟩ := List.mem_filterMap.1 h
  dsimp only at h
  split at h
  · rename_i p htrails _
    cases h
    exact .inl ⟨p, (Option.filter_eq_some_iff.1 htrails).1, rfl⟩
  · cases h
    exact .inr rfl
  · cases h

theorem node_of_mem_inGaps (h : a ∈ inGaps source comments stop previous start elements) :
    (∃ p ∈ previous, a.node = p.node) ∨ ∃ e ∈ elements, a.node = e.1 := by
  induction elements generalizing previous start with
  | nil =>
    rw [inGaps] at h
    exact (node_of_mem_inGap h).imp_right fun h => by cases h
  | cons e elements ih =>
    obtain ⟨n, node⟩ := e
    rw [inGaps] at h
    rcases List.mem_append.1 h with h | h
    · refine (node_of_mem_inGap h).imp_right fun h => ?_
      exact ⟨(n, node), List.mem_cons_self, (Option.some.inj h).symm⟩
    · rcases ih h with ⟨p, hp, ha⟩ | ⟨e, he, ha⟩
      · cases hp
        exact .inr ⟨(n, node), List.mem_cons_self, ha⟩
      · exact .inr ⟨e, List.mem_cons_of_mem _ he, ha⟩

theorem node_lt_size {s : Store} {form : Form} (h : a ∈ within source s form) :
    a.node < s.size := by
  unfold within at h
  split at h
  · cases h
  · rcases node_of_mem_inGaps h with ⟨_, hp, -⟩ | ⟨e, he, ha⟩
    · cases hp
    · obtain ⟨_, -, he⟩ := List.mem_filterMap.1 he
      obtain ⟨n, -, he⟩ := Option.bind_eq_some_iff.1 he
      obtain ⟨x, hx, rfl⟩ := Option.map_eq_some_iff.1 he
      rw [ha]
      exact (Array.getElem?_eq_some_iff.1 hx).1

end Attachment

namespace Store

theorem NoneAhead.setAttached {s : Store} (h : s.NoneAhead) {n : Slot}
    (hn : ∀ i, n = some i → i < s.size) (a : Attached) : (s.setAttached n a).NoneAhead := by
  intro i hi
  rw [attachedTo_setAttached, if_neg fun e => Nat.not_le_of_lt (hn i e) hi]
  exact h i hi

theorem NoneAhead.attachComments {s : Store} (h : s.NoneAhead) (source : Text) :
    (s.attachComments source).NoneAhead := by
  have hattach : ∀ (l : List Attachment) (s : Store), (∀ a ∈ l, a.node < s.size) → s.NoneAhead →
      (l.foldl (fun s a =>
        if a.trailing then s.addTrailingComment (some a.node) a.comment
        else s.addLeadingComment (some a.node) a.comment) s).NoneAhead := by
    intro l
    induction l with
    | nil => exact fun _ _ h => h
    | cons a l ih =>
      intro s hl h
      have hnode : ∀ i, some a.node = some i → i < s.size := by
        rintro i ⟨⟩
        exact hl a List.mem_cons_self
      have hrest : ∀ b ∈ l, b.node < s.size := fun b hb => hl b (List.mem_cons_of_mem a hb)
      rw [List.foldl_cons]
      split
      · exact ih _ hrest (h.setAttached hnode _)
      · exact ih _ hrest (h.setAttached hnode _)
  refine hattach _ s (fun a ha => ?_) h
  obtain ⟨node, -, ha⟩ := List.mem_flatMap.1 ha
  exact Attachment.node_lt_size ha

end Store

end Modernizer
