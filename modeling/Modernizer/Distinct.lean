/-!
Lists without repetition. Elements keep the order of their first occurrence.
-/

namespace Modernizer

def insertNew {α : Type} [BEq α] (xs : List α) (x : α) : List α :=
  if xs.contains x then xs else xs ++ [x]

def firstOccurrences {α : Type} [BEq α] (xs : List α) : List α := xs.foldl insertNew []

theorem mem_insertNew {α : Type} [BEq α] [LawfulBEq α] {xs : List α} {x y : α} :
    y ∈ insertNew xs x ↔ y ∈ xs ∨ y = x := by
  unfold insertNew
  split
  · rename_i h
    have : x ∈ xs := by simpa using h
    constructor
    · exact Or.inl
    · rintro (h | rfl) <;> assumption
  · simp

theorem mem_foldl_insertNew {α : Type} [BEq α] [LawfulBEq α] (ys : List α) {xs : List α} {x : α} :
    x ∈ ys.foldl insertNew xs ↔ x ∈ xs ∨ x ∈ ys := by
  induction ys generalizing xs with
  | nil => simp
  | cons y ys ih => simp only [List.foldl_cons, ih, mem_insertNew, List.mem_cons, or_assoc]

theorem mem_firstOccurrences {α : Type} [BEq α] [LawfulBEq α] {xs : List α} {x : α} :
    x ∈ firstOccurrences xs ↔ x ∈ xs := by
  simp [firstOccurrences, mem_foldl_insertNew]

theorem nodup_insertNew {α : Type} [BEq α] [LawfulBEq α] {xs : List α} (h : xs.Nodup) (x : α) :
    (insertNew xs x).Nodup := by
  unfold insertNew
  split
  · exact h
  · rename_i hx
    have hx : x ∉ xs := by simpa using hx
    rw [List.nodup_append]
    refine ⟨h, by simp, ?_⟩
    intro a ha b hb
    rw [List.mem_singleton] at hb
    subst hb
    intro e
    exact hx (e ▸ ha)

theorem nodup_foldl_insertNew {α : Type} [BEq α] [LawfulBEq α] (ys : List α) {xs : List α}
    (h : xs.Nodup) : (ys.foldl insertNew xs).Nodup := by
  induction ys generalizing xs with
  | nil => exact h
  | cons y ys ih => exact ih (nodup_insertNew h y)

theorem nodup_firstOccurrences {α : Type} [BEq α] [LawfulBEq α] (xs : List α) :
    (firstOccurrences xs).Nodup := nodup_foldl_insertNew xs (by simp)

end Modernizer
