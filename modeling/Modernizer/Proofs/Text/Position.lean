import Mathlib.Data.List.Pairwise
import Mathlib.Data.Nat.Count
import Mathlib.Data.Prod.Lex
import Modernizer.Text.Position

/-! Where lines start is where lines end: the offsets of a line map are zero and the ends of the line
terminators, in order. The position of an offset counts those up to it and measures from the last
one. -/

namespace Modernizer

namespace Text

variable {a b t : Text} {c : Char} {e : Nat}

def Terminated (a b : Text) : Prop :=
  a.getLast? = some '\n' ∨ a.getLast? = some '\r' ∧ b.head? ≠ some '\n'

/-- A line terminator of the text ends at the offset. -/
def EndsLine (t : Text) (e : Nat) : Prop := ∃ a b, t = a ++ b ∧ e = utf8Length a ∧ Terminated a b

theorem not_terminated_nil : ¬Terminated [] b := by simp [Terminated]

theorem terminated_cons : Terminated (c :: a) b ↔ a = [] ∧ Terminated [c] b ∨ Terminated a b := by
  cases a with
  | nil => simp [not_terminated_nil]
  | cons d a => simp [Terminated, List.getLast?_cons_cons]

theorem endsLine_nil : ¬EndsLine [] e := by
  rintro ⟨a, b, h, -, hab⟩
  obtain ⟨rfl, rfl⟩ := List.append_eq_nil_iff.1 h.symm
  exact not_terminated_nil hab

theorem endsLine_cons :
    EndsLine (c :: t) e ↔ e = c.utf8Size ∧ Terminated [c] t ∨
      ∃ d, e = c.utf8Size + d ∧ EndsLine t d := by
  constructor
  · rintro ⟨a, b, h, rfl, hab⟩
    cases a with
    | nil => exact absurd hab not_terminated_nil
    | cons c' a =>
      obtain ⟨rfl, rfl⟩ := List.cons_eq_cons.1 h
      obtain ⟨rfl, hc⟩ | hab := terminated_cons.1 hab
      · exact .inl ⟨by simp, hc⟩
      · exact .inr ⟨_, by simp, a, b, rfl, rfl, hab⟩
  · rintro (⟨rfl, hc⟩ | ⟨-, rfl, a, b, rfl, rfl, hab⟩)
    · exact ⟨[c], t, rfl, by simp, hc⟩
    · exact ⟨c :: a, b, rfl, by simp, terminated_cons.2 (.inr hab)⟩

end Text

namespace LineMap

open Text

variable {t : Text} {offset n : Nat}

theorem mem_startsAfter :
    n ∈ startsAfter offset t ↔ ∃ e, n = offset + e ∧ EndsLine t e := by
  have hr : '\r'.utf8Size = 1 := by decide
  have hn : '\n'.utf8Size = 1 := by decide
  fun_induction startsAfter offset t with
  | case1 offset => simp [endsLine_nil]
  | case2 offset cs ih =>
    have h1 : ¬Terminated ['\r'] ('\n' :: cs) := by simp [Terminated]
    have h2 : Terminated ['\n'] cs := by simp [Terminated]
    simp only [List.mem_cons, ih, endsLine_cons, hr, hn, h1, h2, and_false, and_true, false_or]
    constructor
    · rintro (rfl | ⟨e, rfl, he⟩)
      · exact ⟨2, rfl, 1, rfl, .inl rfl⟩
      · exact ⟨e + 2, by omega, e + 1, by omega, .inr ⟨e, by omega, he⟩⟩
    · rintro ⟨-, rfl, -, rfl, rfl | ⟨e, rfl, he⟩⟩
      · exact .inl rfl
      · exact .inr ⟨e, by omega, he⟩
  | case3 offset c cs hpair hc ih =>
    have h1 : Terminated [c] cs := by
      obtain rfl | rfl := hc
      · exact .inl rfl
      · refine .inr ⟨rfl, fun h => ?_⟩
        obtain ⟨cs, rfl⟩ := List.head?_eq_some_iff.1 h
        exact hpair cs rfl rfl
    have hsize : c.utf8Size = 1 := by obtain rfl | rfl := hc <;> assumption
    simp only [List.mem_cons, ih, endsLine_cons, hsize, h1, and_true]
    constructor
    · rintro (rfl | ⟨e, rfl, he⟩)
      · exact ⟨1, rfl, .inl rfl⟩
      · exact ⟨1 + e, by omega, .inr ⟨e, rfl, he⟩⟩
    · rintro ⟨-, rfl, rfl | ⟨e, rfl, he⟩⟩
      · exact .inl rfl
      · exact .inr ⟨e, by omega, he⟩
  | case4 offset c cs _ hc ih =>
    have h1 : ¬Terminated [c] cs := by
      simp only [Terminated, List.getLast?_singleton, Option.some.injEq]
      exact fun h => hc (h.imp_right And.left)
    simp only [ih, endsLine_cons, h1, and_false, false_or]
    constructor
    · rintro ⟨e, rfl, he⟩
      exact ⟨c.utf8Size + e, by omega, e, rfl, he⟩
    · rintro ⟨-, rfl, e, rfl, he⟩
      exact ⟨e, by omega, he⟩

theorem lt_of_mem_startsAfter (h : n ∈ startsAfter offset t) : offset < n := by
  obtain ⟨e, rfl, a, b, -, rfl, hab⟩ := mem_startsAfter.1 h
  cases a with
  | nil => exact absurd hab not_terminated_nil
  | cons c a =>
    have := c.utf8Size_pos
    simp only [utf8Length_cons]
    omega

theorem pairwise_startsAfter (offset : Nat) (t : Text) :
    (startsAfter offset t).Pairwise (· < ·) := by
  fun_induction startsAfter offset t with
  | case1 => exact .nil
  | case2 _ _ ih => exact .cons (fun _ => lt_of_mem_startsAfter) ih
  | case3 _ _ _ _ _ ih => exact .cons (fun _ => lt_of_mem_startsAfter) ih
  | case4 _ _ _ _ _ ih => exact ih

theorem pairwise_ofText (t : Text) : (ofText t).starts.Pairwise (· < ·) :=
  .cons (fun _ => lt_of_mem_startsAfter) (pairwise_startsAfter 0 t)

theorem mem_startsAfter_zero : n ∈ startsAfter 0 t ↔ EndsLine t n := by
  simp [mem_startsAfter]

instance (t : Text) : DecidablePred (EndsLine t) := fun _ => decidable_of_iff _ mem_startsAfter_zero

section Search

/-! A search in an increasing list finds the last element that is not after an offset. -/

variable {first : Nat} {l : List Nat}

theorem getD_takeWhile (hl : (first :: l).Pairwise (· < ·)) (h : first ≤ offset) :
    ∃ start, (first :: l)[(l.takeWhile (· ≤ offset)).length]? = some start ∧ start ≤ offset ∧
      start ∈ first :: l ∧ ∀ n ∈ first :: l, n ≤ offset → n ≤ start := by
  induction l generalizing first with
  | nil => exact ⟨first, rfl, h, List.mem_singleton_self _, by simp⟩
  | cons second l ih =>
    obtain ⟨hfirst, hrest⟩ := List.pairwise_cons.1 hl
    by_cases hs : second ≤ offset
    · obtain ⟨start, hget, hle, hmem, hmax⟩ := ih hrest hs
      refine ⟨start, by simpa [hs] using hget, hle, List.mem_cons_of_mem _ hmem, fun n hn hno => ?_⟩
      obtain rfl | hn := List.mem_cons.1 hn
      · exact (hfirst second List.mem_cons_self).le.trans (hmax second List.mem_cons_self hs)
      · exact hmax n hn hno
    · refine ⟨first, by simp [hs], h, List.mem_cons_self, fun n hn hno => ?_⟩
      obtain rfl | rfl | hn := by simpa using hn
      · exact le_rfl
      · exact absurd hno hs
      · exact absurd (((List.pairwise_cons.1 hrest).1 n hn).le.trans hno) hs

theorem length_takeWhile (hl : l.Pairwise (· < ·)) (offset : Nat) :
    (l.takeWhile (· ≤ offset)).length = Nat.count (· ∈ l) (offset + 1) := by
  have htake : l.takeWhile (· ≤ offset) = l.filter (· ≤ offset) := by
    induction l with
    | nil => rfl
    | cons first l ih =>
      obtain ⟨hfirst, hrest⟩ := List.pairwise_cons.1 hl
      by_cases hf : first ≤ offset
      · simp [hf, ih hrest]
      · have hnone : ∀ n ∈ l, ¬n ≤ offset := fun n hn h => hf ((hfirst n hn).le.trans h)
        simpa [hf] using hnone
  have hnodup : (l.filter (· ≤ offset)).Nodup := (hl.imp Nat.ne_of_lt).filter _
  rw [htake, Nat.count_eq_card_filter_range, ← List.toFinset_card_of_nodup hnodup]
  congr 1
  ext n
  simp only [List.mem_toFinset, List.mem_filter, Finset.mem_filter, Finset.mem_range,
    decide_eq_true_eq, Nat.lt_succ_iff, and_comm]

end Search

theorem positionOf_ofText (t : Text) (offset : Nat) :
    (ofText t).positionOf offset =
      ⟨.ofNat (Nat.count (EndsLine t) (offset + 1)) + 1,
        .ofNat (offset - Nat.findGreatest (EndsLine t) offset) + 1⟩ ∧
    (ofText t).starts[Nat.count (EndsLine t) (offset + 1)]? =
      some (Nat.findGreatest (EndsLine t) offset) := by
  have hcount : ((startsAfter 0 t).takeWhile (· ≤ offset)).length =
      Nat.count (EndsLine t) (offset + 1) := by
    rw [length_takeWhile (pairwise_startsAfter 0 t)]
    simp only [mem_startsAfter_zero]
  obtain ⟨start, hget, hle, hmem, hmax⟩ := getD_takeWhile (pairwise_ofText t) (Nat.zero_le offset)
  have hstart : Nat.findGreatest (EndsLine t) offset = start := by
    refine Nat.findGreatest_eq_iff.2 ⟨hle, fun h => ?_, fun n hn hno he => ?_⟩
    · exact mem_startsAfter_zero.1 ((List.mem_cons.1 hmem).resolve_left h)
    · exact absurd (hmax n (List.mem_cons_of_mem _ (mem_startsAfter_zero.2 he)) hno) (by omega)
  rw [hcount] at hget
  refine ⟨?_, by rw [hstart]; exact hget⟩
  simp only [positionOf, ofText, List.takeWhile_cons, Nat.zero_le, decide_true, if_true,
    List.length_cons, Nat.add_sub_cancel, hcount, List.getD_eq_getElem?_getD, hget, hstart,
    Option.getD_some]

theorem not_endsLine_zero (t : Text) : ¬EndsLine t 0 := fun h =>
  absurd (lt_of_mem_startsAfter (mem_startsAfter_zero.2 h)) (Nat.lt_irrefl 0)

theorem count_endsLine_le (t : Text) (offset : Nat) :
    Nat.count (EndsLine t) (offset + 1) ≤ offset := by
  rw [Nat.count_succ', if_neg (not_endsLine_zero t), Nat.add_zero]
  exact Nat.count_le _

section Words

/-! Up to the last offset but one the two numbers fit into words. -/

theorem toNat_ofNat_add_one {n : Nat} (h : n + 1 < 2 ^ 32) : (UInt32.ofNat n + 1).toNat = n + 1 := by
  rw [UInt32.toNat_add, UInt32.toNat_ofNat', UInt32.toNat_one, Nat.mod_eq_of_lt (by omega : n < _),
    Nat.mod_eq_of_lt h]

theorem ofNat_add_one_eq_zero_iff {n : Nat} (h : n < 2 ^ 32) :
    UInt32.ofNat n + 1 = 0 ↔ n + 1 = 2 ^ 32 := by
  rw [← UInt32.toNat_inj, UInt32.toNat_add, UInt32.toNat_ofNat', UInt32.toNat_one, UInt32.toNat_zero]
  omega

variable (t) (h : offset + 1 < 2 ^ 32)

include h

theorem toNat_line_positionOf :
    ((ofText t).positionOf offset).line.toNat = 1 + Nat.count (EndsLine t) (offset + 1) := by
  have hle := count_endsLine_le t offset
  rw [(positionOf_ofText t offset).1, toNat_ofNat_add_one (by omega), Nat.add_comm]

theorem toNat_column_positionOf :
    ((ofText t).positionOf offset).column.toNat =
      offset - Nat.findGreatest (EndsLine t) offset + 1 := by
  rw [(positionOf_ofText t offset).1, toNat_ofNat_add_one (by omega)]

theorem exists_lineStart? : ∃ start,
    (ofText t).lineStart? ((ofText t).positionOf offset).line = some start ∧
    start + ((ofText t).positionOf offset).column.toNat - 1 = offset := by
  have hline := toNat_line_positionOf t h
  have hstart := (positionOf_ofText t offset).2
  have hle : Nat.findGreatest (EndsLine t) offset ≤ offset := Nat.findGreatest_le offset
  have hne : ((ofText t).positionOf offset).line ≠ 0 := by
    intro hzero
    rw [hzero, UInt32.toNat_zero] at hline
    omega
  refine ⟨Nat.findGreatest (EndsLine t) offset, ?_, ?_⟩
  · rw [lineStart?, if_neg hne, hline, Nat.add_sub_cancel_left]
    exact hstart
  · rw [toNat_column_positionOf t h]
    omega

theorem positionOf_lt {m : Nat} (hm : m < offset) :
    toLex (((ofText t).positionOf m).line, ((ofText t).positionOf m).column) <
      toLex (((ofText t).positionOf offset).line, ((ofText t).positionOf offset).column) := by
  have hm' : m + 1 < 2 ^ 32 := by omega
  simp only [Prod.Lex.toLex_lt_toLex, UInt32.lt_iff_toNat_lt, ← UInt32.toNat_inj,
    toNat_line_positionOf t h, toNat_line_positionOf t hm', toNat_column_positionOf t h,
    toNat_column_positionOf t hm']
  obtain hlt | heq :=
    (Nat.count_monotone (EndsLine t) (Nat.succ_le_succ hm.le)).lt_or_eq
  · exact .inl (Nat.add_lt_add_left hlt 1)
  · have hnone : ∀ e, m < e → e ≤ offset → ¬EndsLine t e := fun e hme hen he => by
      have hle := Nat.count_monotone (EndsLine t) (Nat.succ_le_of_lt hme)
      have hlt := Nat.count_strict_mono he (Nat.lt_succ_of_le hen)
      exact absurd heq (hle.trans_lt hlt).ne
    obtain ⟨hle, hend, hmax⟩ := Nat.findGreatest_eq_iff.1 (rfl : Nat.findGreatest (EndsLine t) m = _)
    have hsame : Nat.findGreatest (EndsLine t) offset = Nat.findGreatest (EndsLine t) m := by
      refine Nat.findGreatest_eq_iff.2 ⟨hle.trans hm.le, hend, fun e he hen hends => ?_⟩
      obtain hem | hme := le_or_gt e m
      · exact hmax he hem hends
      · exact hnone e hme hen hends
    refine .inr ⟨by rw [heq], ?_⟩
    rw [hsame]
    omega

end Words

theorem positionOf_last (h : offset + 1 = 2 ^ 32) :
    (((ofText t).positionOf offset).column = 0 ↔ ∀ e ≤ offset, ¬EndsLine t e) ∧
    (((ofText t).positionOf offset).line = 0 ↔ ∀ e, 0 < e → e ≤ offset → EndsLine t e) := by
  have hle := count_endsLine_le t offset
  rw [(positionOf_ofText t offset).1]
  constructor
  · rw [ofNat_add_one_eq_zero_iff (by omega)]
    constructor
    · intro hcolumn e he hends
      have hpos : 0 < e := Nat.pos_of_ne_zero fun hzero => not_endsLine_zero t (hzero ▸ hends)
      have hgreatest := Nat.le_findGreatest he hends
      omega
    · intro hnone
      rw [Nat.findGreatest_eq_zero_iff.2 fun e _ he => hnone e he]
      exact h
  · rw [ofNat_add_one_eq_zero_iff (by omega), Nat.count_succ', if_neg (not_endsLine_zero t),
      Nat.add_zero, ← h, Nat.add_right_cancel_iff, Nat.count_iff_forall]
    constructor
    · intro hall e hpos he
      have hends := hall (e - 1) (by omega)
      rwa [Nat.sub_add_cancel hpos] at hends
    · exact fun hall e he => hall (e + 1) (Nat.succ_pos e) he

example : (ofText "a\r\nb\rc".toList).positionOf 2 = ⟨1, 3⟩ := by decide

end LineMap
end Modernizer
