import Mathlib.Data.Finset.Card
import Modernizer.Proofs.Tree.Links
import Modernizer.Proofs.Tree.View

/-! Marks of edited nodes. What is not marked is as it was parsed, and a node whose parsed parent is
not marked is not marked either. An edit of a node breaks this at one place at most, and marking
that place and its ancestors mends it (`Faithful.markModified`). -/

namespace Modernizer.Store

variable {s₀ s s' : Store} {c m n p : NodeId} {place new : Slot} {f : Node → Node}

def ground (x : Node) : Bool × Option (Nat × Nat) :=
  (x.synthesized, if x.synthesized then none else some (x.pos, x.stop))

/-- What tells whether a node is pristine, and where it was parsed. -/
def status (x : Node) : Bool × Bool × Option (Nat × Nat) := (x.modified, ground x)

/-- The store has grown from the parsed store `s₀`: its new nodes are synthesized, and the others
are where they were parsed. -/
structure Outgrows (s₀ s : Store) : Prop where
  size_le : s₀.size ≤ s.size
  synthesized : ∀ n x, s.get? (some n) = some x → (x.synthesized = true ↔ s₀.size ≤ n)
  span : ∀ n x₀ x, s₀.get? (some n) = some x₀ → s.get? (some n) = some x →
    x.pos = x₀.pos ∧ x.stop = x₀.stop

/-- All edits since parsing are marked, but perhaps for one at a place: its own form may be another
one, and what is linked to it may be marked. -/
structure Faithful (s₀ : Store) (place : Slot) (s : Store) : Prop extends Outgrows s₀ s where
  form : ∀ n, some n ≠ place → s.isPristine (some n) = true → s.form? (some n) = s₀.form? (some n)
  upward : ∀ c p, some p ≠ place → s₀.parent (some c) = some p → s.parent (some c) = some p →
    s.isPristine (some p) = true → s.isPristine (some c) = true

theorem lt_size_of_get? {x : Node} (h : s.get? (some n) = some x) : n < s.size := by
  by_contra hn
  rw [get?_eq_none_iff.2 (Nat.le_of_not_lt hn)] at h
  cases h

theorem not_pristine_of_synthesized {m : Slot} (h : s.isSynthesized m = true) :
    s.isPristine m = false := by
  unfold isSynthesized at h
  unfold isPristine Node.isPristine
  cases hs : s.get? m <;> simp_all

theorem isPristine_iff {m : Slot} :
    s.isPristine m = true ↔ ∃ x, s.get? m = some x ∧ x.synthesized = false ∧ x.modified = false := by
  unfold isPristine Node.isPristine
  cases s.get? m <;> simp

theorem isPristine_agree {m : Slot} (h : Agree status s s') : s'.isPristine m = s.isPristine m := by
  have hview := h.map (fun st => !st.2.1 && !st.1) m
  unfold isPristine
  cases hs : s.get? m <;> cases hs' : s'.get? m <;> rw [hs, hs'] at hview <;>
    simp_all [Node.isPristine, status, ground]

theorem Agree.size_eq {α : Type} {view : Node → α} (h : Agree view s s') : s'.size = s.size := by
  have hle : ∀ i, s'.size ≤ i ↔ s.size ≤ i := fun i => by
    rw [← get?_eq_none_iff, ← get?_eq_none_iff, ← Option.map_eq_none_iff, h, Option.map_eq_none_iff]
  exact Nat.le_antisymm ((hle _).2 Nat.le.refl) ((hle _).1 Nat.le.refl)

theorem Outgrows.of_agree (h : Outgrows s₀ s) (hs : Agree ground s s') : Outgrows s₀ s' := by
  refine ⟨hs.size_eq ▸ h.size_le, fun n x hx => ?_, fun n x₀ x h₀ hx => ?_⟩
  · obtain ⟨y, hy, e⟩ := hs.exists_get? hx
    have hsyn : x.synthesized = y.synthesized := congrArg Prod.fst e
    rw [hsyn]
    exact h.synthesized n y hy
  · obtain ⟨y, hy, e⟩ := hs.exists_get? hx
    have hsyn : y.synthesized = false := by
      rw [← Bool.not_eq_true, h.synthesized n y hy]
      exact Nat.not_le_of_lt (lt_size_of_get? h₀)
    have hplace := h.span n x₀ y h₀ hy
    simp_all [ground]

theorem get?_synthesize_of_ne {form : Form} (hn : n ≠ s.size) :
    (s.synthesize form).2.get? (some n) = s.get? (some n) := by
  rw [get?_synthesize, if_neg (by simpa using hn)]

theorem Outgrows.synthesize (h : Outgrows s₀ s) (form : Form) :
    Outgrows s₀ (s.synthesize form).2 := by
  refine ⟨?_, fun n x hx => ?_, fun n x₀ x h₀ hx => ?_⟩
  · rw [size_synthesize]
    exact Nat.le_succ_of_le h.size_le
  · by_cases hn : n = s.size
    · subst hn
      rw [get?_synthesize, if_pos rfl] at hx
      cases hx
      simp [h.size_le]
    · exact h.synthesized n x (get?_synthesize_of_ne hn ▸ hx)
  · have hn : n ≠ s.size := by
      rintro rfl
      rw [get?_eq_none_iff.2 h.size_le] at h₀
      cases h₀
    exact h.span n x₀ x h₀ (get?_synthesize_of_ne hn ▸ hx)

theorem Outgrows.exists_parsed (h : Outgrows s₀ s) {x : Node} (hx : s.get? (some n) = some x)
    (hsyn : x.synthesized = false) : ∃ x₀, s₀.get? (some n) = some x₀ := by
  rw [← Option.ne_none_iff_exists']
  intro hnone
  have hnew := (h.synthesized n x hx).2 (get?_eq_none_iff.1 hnone)
  rw [hsyn] at hnew
  cases hnew

namespace Faithful

theorem refl (h : ∀ n x, s.get? (some n) = some x → x.synthesized = false ∧ x.modified = false) :
    Faithful s none s := by
  refine ⟨⟨Nat.le.refl, fun n x hx => ?_, fun n x₀ x h₀ hx => ?_⟩, fun _ _ _ => rfl,
    fun c p _ hc _ _ => ?_⟩
  · simp [(h n x hx).1, Nat.not_le_of_lt (lt_size_of_get? hx)]
  · rw [h₀] at hx
    cases hx
    exact ⟨rfl, rfl⟩
  · obtain ⟨x, hx, -⟩ := Option.bind_eq_some_iff.1 hc
    exact isPristine_iff.2 ⟨x, hx, h c x hx⟩

theorem at_place (h : Faithful s₀ none s) (place : Slot) : Faithful s₀ place s :=
  ⟨h.toOutgrows, fun n _ => h.form n (by simp),
    fun c p _ => h.upward c p (by simp)⟩

theorem of_place (h : Faithful s₀ place s) (hp : s.isPristine place = false) :
    Faithful s₀ none s := by
  have hne : ∀ n, s.isPristine (some n) = true → some n ≠ place := by
    rintro n hn rfl
    rw [hn] at hp
    cases hp
  exact ⟨h.toOutgrows, fun n _ hn => h.form n (hne n hn) hn,
    fun c p _ h₀ hc hp => h.upward c p (hne p hp) h₀ hc hp⟩

theorem of_agree (h : Faithful s₀ place s) (hs : Agree status s s')
    (hform : ∀ n, some n ≠ place → s'.form? (some n) = s.form? (some n))
    (hparent : ∀ c p, s'.parent (some c) = some p →
      s.parent (some c) = some p ∨ some p = place ∨ s.isPristine (some p) = false) :
    Faithful s₀ place s' := by
  refine ⟨h.toOutgrows.of_agree (hs.map Prod.snd), fun n hn hp => ?_,
    fun c p hp h₀ hc hpristine => ?_⟩
  · rw [isPristine_agree hs] at hp
    exact (hform n hn).trans (h.form n hn hp)
  · rw [isPristine_agree hs] at hpristine ⊢
    rcases hparent c p hc with hc | hplace | hstale
    · exact h.upward c p hp h₀ hc hpristine
    · exact absurd hplace hp
    · rw [hstale] at hpristine
      cases hpristine

theorem synthesize (h : Faithful s₀ none s) (form : Form) :
    Faithful s₀ none (s.synthesize form).2 := by
  have hold : ∀ n, (s.synthesize form).2.isPristine (some n) = true →
      n ≠ s.size ∧ s.isPristine (some n) = true := by
    intro n hn
    obtain ⟨x, hx, hsyn, hmod⟩ := isPristine_iff.1 hn
    rw [get?_synthesize] at hx
    split at hx
    · cases hx
      cases hsyn
    · rename_i hne
      exact ⟨fun e => hne (congrArg some e), isPristine_iff.2 ⟨x, hx, hsyn, hmod⟩⟩
  refine ⟨h.toOutgrows.synthesize form, fun n _ hn => ?_, fun c p hp h₀ hc hpristine => ?_⟩
  · obtain ⟨hne, hp⟩ := hold n hn
    rw [form?, get?_synthesize_of_ne hne]
    exact h.form n (by simp) hp
  · have hne : c ≠ s.size := by
      rintro rfl
      obtain ⟨x, hx, -⟩ := Option.bind_eq_some_iff.1 h₀
      rw [get?_eq_none_iff.2 h.size_le] at hx
      cases hx
    rw [parent, get?_synthesize_of_ne hne] at hc
    rw [isPristine, get?_synthesize_of_ne hne]
    exact h.upward c p (by simp) h₀ hc (hold p hpristine).2

theorem of_sameTree (h : Faithful s₀ place s) (hs : Agree status s s') (ht : SameTree s s') :
    Faithful s₀ place s' :=
  h.of_agree hs (fun _ _ => ht.form _) fun _ _ hc => .inl ((ht.parent _).symm.trans hc)

theorem setAttached (h : Faithful s₀ place s) (n : Slot) (a : Attached) :
    Faithful s₀ place (s.setAttached n a) :=
  h.of_sameTree (.of_nodes rfl) (.of_nodes rfl)

theorem adoptAnchorSpan (h : Faithful s₀ place s) (anchor : Slot) (replacements : List Slot) :
    Faithful s₀ place (s.adoptAnchorSpan anchor replacements) := by
  refine h.of_sameTree ?_ (sameTree_adoptAnchorSpan ..)
  unfold Store.adoptAnchorSpan
  split
  · exact .refl s
  · refine .foldl (fun s n => .modify s n fun x => ?_) _ _
    split
    · simp [status, ground, *]
    · rfl

theorem modify_place (h : Faithful s₀ place s) (hf : ∀ x, status (f x) = status x)
    (hparent : ∀ x, (f x).parent = x.parent) : Faithful s₀ place (s.modify place f) := by
  refine h.of_agree (.modify s place hf) (fun n hn => ?_) fun c p hc => .inl ?_
  · rw [form?_modify, if_neg (Ne.symm hn)]
  · rw [parent_modify] at hc
    split at hc
    · simp only [hparent] at hc
      exact hc
    · exact hc

theorem link (h : Faithful s₀ place s) (child : Slot) {holder : Slot}
    (hh : holder = place ∨ s.isPristine holder = false) (hf : ∀ x, status (f x) = status x)
    (hform : ∀ x, (f x).form = x.form) (hparent : ∀ x, (f x).parent = holder) :
    Faithful s₀ place (s.modify child f) := by
  refine h.of_agree (.modify s child hf) (fun _ _ => (Agree.modify s child hform).form? _)
    fun c p hc => ?_
  rw [parent_modify] at hc
  split at hc
  · obtain ⟨x, -, hx⟩ := Option.bind_eq_some_iff.1 hc
    rw [hparent] at hx
    exact .inr (hx ▸ hh)
  · exact .inl hc

theorem setParent (h : Faithful s₀ place s) (child : Slot) {holder : Slot}
    (hh : holder = place ∨ s.isPristine holder = false) :
    Faithful s₀ place (s.setParent child holder) :=
  h.link child hh (fun _ => rfl) (fun _ => rfl) fun _ => rfl

/-- A synthesized node adopts its children. -/
theorem adoptChildren (h : Faithful s₀ place s) (hn : s.isSynthesized (some n) = true) :
    Faithful s₀ place (s.adoptChildren n) := by
  suffices hgo : ∀ fuel n s, Faithful s₀ place s → s.isSynthesized (some n) = true →
      Faithful s₀ place (adoptChildren.go fuel n s) from hgo _ n s h hn
  intro fuel
  induction fuel with
  | zero => exact fun _ _ h _ => h
  | succ fuel ih =>
    intro n s h hn
    unfold adoptChildren.go
    rw [← List.foldl_reverse]
    refine List.foldlRecOn _ _ ?_ fun s h child _ => ?_
    · refine (List.foldlRecOn (motive := fun s => Faithful s₀ place s ∧ s.isSynthesized (some n) = true)
        _ _ ⟨h, hn⟩ fun s h child _ => ⟨h.1.setParent _ ?_, ?_⟩).1
      · exact .inr (not_pristine_of_synthesized h.2)
      · rw [Store.setParent, isSynthesized_modify]
        · exact h.2
        · exact fun _ => rfl
    · split
      · exact ih child s h ‹_›
      · exact h

theorem adoptChildrenOf (h : Faithful s₀ place s) (new : Slot) :
    Faithful s₀ place (if s.isSynthesized new then new.elim s s.adoptChildren else s) := by
  split
  · cases new with
    | none => exact h
    | some n => exact h.adoptChildren ‹_›
  · exact h

end Faithful

/-! Marking goes up from the place to what is marked already. It comes to an end there, as there are
not more steps than nodes that are not marked yet. -/

/-- The nodes that are not marked. -/
def unmarked (s : Store) : Finset NodeId :=
  (Finset.range s.size).filter fun i => (s.get? (some i)).any (!·.modified)

theorem mem_unmarked {i : NodeId} :
    i ∈ s.unmarked ↔ ∃ x, s.get? (some i) = some x ∧ x.modified = false := by
  have hlt : ∀ x, s.get? (some i) = some x → i < s.size := fun x hx => by
    by_contra hn
    rw [get?_eq_none_iff.2 (Nat.le_of_not_lt hn)] at hx
    cases hx
  unfold unmarked
  rw [Finset.mem_filter, Finset.mem_range]
  cases h : s.get? (some i) with
  | none => simp
  | some x => simp [hlt x h]

theorem card_unmarked_le (s : Store) : s.unmarked.card ≤ s.size :=
  (Finset.card_filter_le _ _).trans_eq (Finset.card_range _)

theorem unmarked_modify {x : Node} (hx : s.get? (some n) = some x) (hm : x.modified = false) :
    (s.modify (some n) ({ · with modified := true })).unmarked.card < s.unmarked.card := by
  have hne : ∀ i ∈ (s.modify (some n) ({ · with modified := true })).unmarked,
      i ≠ n ∧ i ∈ s.unmarked := by
    intro i hi
    obtain ⟨y, hy, hmod⟩ := mem_unmarked.1 hi
    rw [get?_modify] at hy
    split at hy
    · obtain ⟨z, -, rfl⟩ := Option.map_eq_some_iff.1 hy
      cases hmod
    · rename_i hni
      exact ⟨fun e => hni (congrArg some e.symm), mem_unmarked.2 ⟨y, hy, hmod⟩⟩
  refine Finset.card_lt_card ((Finset.ssubset_iff_of_subset fun i hi => (hne i hi).2).2
    ⟨n, mem_unmarked.2 ⟨x, hx, hm⟩, fun hn => (hne n hn).1 rfl⟩)

namespace Faithful

theorem mark (h : Faithful s₀ (some n) s) {x : Node} (hx : s.get? (some n) = some x) :
    Faithful s₀ x.parent (s.modify (some n) ({ · with modified := true })) := by
  have hpristine : ∀ m, (s.modify (some n) ({ · with modified := true })).isPristine (some m) = true ↔
      m ≠ n ∧ s.isPristine (some m) = true := by
    intro m
    unfold isPristine
    rw [get?_modify]
    by_cases hmn : m = n
    · rw [hmn, if_pos rfl]
      cases s.get? (some n) <;> simp [Node.isPristine]
    · rw [if_neg fun e => hmn (Option.some.inj e.symm)]
      simp [hmn]
  refine ⟨h.toOutgrows.of_agree (.modify s _ fun _ => rfl), fun m _ hm => ?_,
    fun c p hp h₀ hc hpp => ?_⟩
  · obtain ⟨hne, hm⟩ := (hpristine m).1 hm
    rw [form?_modify, if_neg (by simpa [eq_comm] using hne)]
    exact h.form m (by simpa using hne) hm
  · obtain ⟨hne, hpp⟩ := (hpristine p).1 hpp
    have hcp : s.parent (some c) = some p := by
      rw [parent_modify] at hc
      split at hc <;> exact hc
    refine (hpristine c).2 ⟨?_, h.upward c p (by simpa using hne) h₀ hcp hpp⟩
    rintro rfl
    rw [parent, hx] at hcp
    exact hp hcp.symm

theorem markModified (h : Faithful s₀ place s) : Faithful s₀ none (s.markModified place) := by
  suffices hgo : ∀ fuel place s, s.unmarked.card ≤ fuel → Faithful s₀ place s →
      Faithful s₀ none (markModified.go fuel place s) from hgo _ _ _ (card_unmarked_le s) h
  intro fuel
  induction fuel with
  | zero =>
    intro place s hcard h
    refine h.of_place ?_
    rw [← Bool.not_eq_true]
    intro hp
    obtain ⟨x, hx, -, hm⟩ := isPristine_iff.1 hp
    cases place with
    | none => cases hx
    | some n => exact Finset.card_ne_zero_of_mem (mem_unmarked.2 ⟨x, hx, hm⟩) (Nat.le_zero.1 hcard)
  | succ fuel ih =>
    intro place s hcard h
    unfold markModified.go
    split
    · refine h.of_place ?_
      simp [isPristine, *]
    · rename_i x hx
      split
      · refine h.of_place ?_
        simp [isPristine, Node.isPristine, *]
      · rename_i hm
        cases place with
        | none => cases hx
        | some n =>
          rw [Bool.not_eq_true] at hm
          exact ih _ _ (Nat.le_of_lt_succ ((unmarked_modify hx hm).trans_le hcard)) (h.mark hx)

theorem markListEdited (h : Faithful s₀ place s) : Faithful s₀ none (s.markListEdited place) := by
  refine markModified (h.modify_place ?_ ?_) <;> exact fun _ => rfl

theorem replace? {old new : Slot} (h : Faithful s₀ none s) (hs : s.replace? old new = some s') :
    Faithful s₀ none s' := by
  obtain ⟨node, -, hs⟩ := Option.bind_eq_some_iff.1 hs
  obtain ⟨form, -, hs⟩ := Option.bind_eq_some_iff.1 hs
  dsimp only at hs
  split at hs
  · cases hs
    refine markModified (setAttached (setAttached (adoptChildrenOf ?_ new) _ _) _ _)
    refine link (modify_place (h.at_place node.parent) ?_ ?_) new (.inl rfl) ?_ ?_ ?_
    · exact fun _ => rfl
    · exact fun _ => rfl
    all_goals intro x; by_cases hx : x.synthesized <;> simp [status, ground, hx]
  · cases hs

theorem setStatements? {statements : List Slot} (h : Faithful s₀ none s)
    (hs : s.setStatements? place statements = some s') : Faithful s₀ none s' := by
  obtain ⟨list, -, rfl⟩ := Option.map_eq_some_iff.1 hs
  refine markListEdited (List.foldlRecOn _ _ ?_ fun s h statement _ => ?_)
  · exact (h.at_place place).modify_place (fun _ => rfl) fun _ => rfl
  · exact (h.setParent statement (.inl rfl)).adoptChildrenOf statement

theorem applyReplacement {r : Replacement} (h : Faithful s₀ none s)
    (hs : s.applyReplacement r = .ok s') : Faithful s₀ none s' := by
  unfold Store.applyReplacement at hs
  dsimp only at hs
  split at hs
  · cases hs
  split at hs
  · cases hs
  split at hs
  · cases hs
  have hspan := h.adoptAnchorSpan r.anchor r.replacements
  cases hs
  cases hset : (s.adoptAnchorSpan r.anchor r.replacements).setStatements? r.parent _ with
  | none => exact hspan
  | some s' => exact hspan.setStatements? hset

end Faithful

end Modernizer.Store
