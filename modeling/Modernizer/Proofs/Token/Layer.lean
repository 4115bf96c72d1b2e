import Modernizer.Proofs.Layout.Copy
import Modernizer.Text.Basic

/-! Text in layers: tokens and comments one after the other, with blanks between them. In such a text
they stand apart, in their order, and what is in none of them is blank. -/

namespace Modernizer

open Text

def Comment.span (c : Comment) : Span := ⟨c.pos, c.stop⟩

/-- The byte is of a blank or of a line break. -/
def Text.BlankAt (source : Text) (o : Nat) : Prop :=
  ∃ before c after, source = before ++ c :: after ∧ utf8Length before ≤ o ∧
    o < utf8Length before + c.utf8Size ∧ (isBlank c = true ∨ isLineBreak c = true)

/-- A text that begins at an offset, its tokens and its comments. -/
inductive Layered : Nat → Text → List Span → List Comment → Prop
  | nil (pos : Nat) : Layered pos [] [] []
  | blank {pos : Nat} {c : Char} {t : Text} {ts : List Span} {cs : List Comment}
      (hc : isBlank c = true ∨ isLineBreak c = true) (h : Layered (pos + c.utf8Size) t ts cs) :
      Layered pos (c :: t) ts cs
  | token {pos : Nat} {raw t : Text} {ts : List Span} {cs : List Comment} (hraw : raw ≠ [])
      (h : Layered (pos + utf8Length raw) t ts cs) :
      Layered pos (raw ++ t) (⟨pos, pos + utf8Length raw⟩ :: ts) cs
  | comment {pos : Nat} {raw t : Text} {ts : List Span} {c : Comment} {cs : List Comment}
      (hraw : raw.head? = some '/' ∧ raw.getLast? ≠ some '\r') (hc : c.span = ⟨pos, pos + utf8Length raw⟩)
      (h : Layered (pos + utf8Length raw) t ts cs) : Layered pos (raw ++ t) ts (c :: cs)

namespace Layered

variable {source before t u after : Text} {pos o : Nat} {ts us : List Span} {cs ds : List Comment}

theorem append {start : Nat} (h : Layered pos t ts cs) (hstart : start = pos + utf8Length t)
    (h' : Layered start u us ds) : Layered pos (t ++ u) (ts ++ us) (cs ++ ds) := by
  subst hstart
  induction h with
  | nil => exact h'
  | blank hc _ ih => exact .blank hc (ih (by simpa [Nat.add_assoc] using h'))
  | token hraw _ ih =>
    rw [List.append_assoc]
    exact .token hraw (ih (by simpa [Nat.add_assoc] using h'))
  | comment hraw hc _ ih =>
    rw [List.append_assoc]
    exact .comment hraw hc (ih (by simpa [Nat.add_assoc] using h'))

theorem bounds (h : Layered pos t ts cs) : ∀ r ∈ ts ++ cs.map Comment.span,
    pos ≤ r.start ∧ r.start < r.stop ∧ r.stop ≤ pos + utf8Length t := by
  induction h with
  | nil => simp
  | blank hc _ ih =>
    intro r hr
    obtain ⟨hstart, hlt, hstop⟩ := ih r hr
    rw [utf8Length_cons]
    omega
  | @token pos raw t ts cs hraw _ ih =>
    have hpos : 0 < utf8Length raw := Nat.pos_of_ne_zero fun e => hraw (utf8Length_eq_zero.1 e)
    rw [utf8Length_append]
    refine List.forall_mem_cons.2 ⟨⟨Nat.le_refl _, ?_, ?_⟩, fun r hr => ?_⟩
    · exact Nat.lt_add_of_pos_right hpos
    · exact Nat.add_le_add_left (Nat.le_add_right _ _) _
    · have hbounds := ih r hr
      omega
  | @comment pos raw t ts c cs hraw hc _ ih =>
    have hpos : 0 < utf8Length raw := Nat.pos_of_ne_zero fun e => by simp [utf8Length_eq_zero.1 e] at hraw
    rw [utf8Length_append, List.map_cons, hc]
    intro r hr
    rcases List.mem_append.1 hr with hr | hr
    · have hbounds := ih r (List.mem_append_left _ hr)
      omega
    rcases List.mem_cons.1 hr with rfl | hr
    · exact ⟨Nat.le_refl _, Nat.lt_add_of_pos_right hpos,
        Nat.add_le_add_left (Nat.le_add_right _ _) _⟩
    · have hbounds := ih r (List.mem_append_right _ hr)
      omega

theorem token_bounds (h : Layered pos t ts cs) {r : Span} (hr : r ∈ ts) :
    pos ≤ r.start ∧ r.start < r.stop ∧ r.stop ≤ pos + utf8Length t :=
  h.bounds r (List.mem_append_left _ hr)

theorem comment_bounds (h : Layered pos t ts cs) {c : Comment} (hc : c ∈ cs) :
    pos ≤ c.pos ∧ c.pos < c.stop ∧ c.stop ≤ pos + utf8Length t :=
  h.bounds c.span (List.mem_append_right _ (List.mem_map_of_mem hc))

theorem tokens_ordered (h : Layered pos t ts cs) : ts.Pairwise fun a b => a.stop ≤ b.start := by
  induction h with
  | nil => exact .nil
  | blank _ _ ih | comment _ _ _ ih => exact ih
  | token _ h ih => exact .cons (fun r hr => (h.token_bounds hr).1) ih

theorem comments_ordered (h : Layered pos t ts cs) : cs.Pairwise fun a b => a.stop ≤ b.pos := by
  induction h with
  | nil => exact .nil
  | blank _ _ ih | token _ _ ih => exact ih
  | @comment pos raw t ts c cs _ hc h ih =>
    refine .cons (fun d hd => ?_) ih
    have hstop : c.stop = pos + utf8Length raw := congrArg Span.stop hc
    rw [hstop]
    exact (h.comment_bounds hd).1

theorem exists_raw (h : Layered pos t ts cs) : ∀ c ∈ cs, ∃ before raw after,
    t = before ++ (raw ++ after) ∧
      c.span = ⟨pos + utf8Length before, pos + utf8Length (before ++ raw)⟩ ∧
      raw.head? = some '/' ∧ raw.getLast? ≠ some '\r' := by
  induction h with
  | nil => simp
  | @blank pos b _ _ _ _ _ ih =>
    intro c hc
    obtain ⟨before, raw, after, rfl, hspan, hraw⟩ := ih c hc
    exact ⟨b :: before, raw, after, rfl, by simp [hspan, Nat.add_assoc], hraw⟩
  | @token pos raw _ _ _ _ _ ih =>
    intro c hc
    obtain ⟨before, body, after, rfl, hspan, hbody⟩ := ih c hc
    exact ⟨raw ++ before, body, after, by simp, by simp [hspan, Nat.add_assoc], hbody⟩
  | @comment pos raw t _ c _ hraw hc _ ih =>
    refine List.forall_mem_cons.2 ⟨⟨[], raw, t, rfl, hc, hraw⟩, fun d hd => ?_⟩
    obtain ⟨before, body, after, rfl, hspan, hbody⟩ := ih d hd
    exact ⟨raw ++ before, body, after, by simp, by simp [hspan, Nat.add_assoc], hbody⟩

theorem apart (h : Layered pos t ts cs) :
    ∀ r ∈ ts, ∀ c ∈ cs, r.stop ≤ c.pos ∨ c.stop ≤ r.start := by
  induction h with
  | nil => simp
  | blank _ _ ih => exact ih
  | token _ h ih => exact List.forall_mem_cons.2 ⟨fun c hc => .inl (h.comment_bounds hc).1, ih⟩
  | @comment pos raw t ts c cs _ hc h ih =>
    have hstop : c.stop = pos + utf8Length raw := congrArg Span.stop hc
    refine fun r hr => List.forall_mem_cons.2 ⟨.inr ?_, ih r hr⟩
    rw [hstop]
    exact (h.token_bounds hr).1

theorem boundary (h : Layered pos t ts cs) (hsource : source = before ++ (t ++ after))
    (hpos : pos = utf8Length before) :
    ∀ r ∈ ts ++ cs.map Comment.span, Boundary source r.start ∧ Boundary source r.stop := by
  have hend : ∀ {before raw t after : Text}, source = before ++ (raw ++ t ++ after) →
      Boundary source (utf8Length before) ∧
        Boundary source (utf8Length before + utf8Length raw) := fun hsource =>
    ⟨⟨_, _, hsource, rfl⟩, ⟨_, _, by rw [hsource, List.append_assoc, ← List.append_assoc],
      (utf8Length_append _ _).symm⟩⟩
  induction h generalizing before with
  | nil => simp
  | @blank pos c t ts cs hc _ ih =>
    exact ih (by simp [hsource] : source = (before ++ [c]) ++ (t ++ after)) (by simp [hpos])
  | @token pos raw t ts cs _ _ ih =>
    refine List.forall_mem_cons.2 ⟨hpos ▸ hend hsource, ?_⟩
    exact ih (by simp [hsource] : source = (before ++ raw) ++ (t ++ after)) (by simp [hpos])
  | @comment pos raw t ts c cs _ hc _ ih =>
    have hrest := ih (by simp [hsource] : source = (before ++ raw) ++ (t ++ after)) (by simp [hpos])
    rw [List.map_cons, hc]
    refine List.forall_mem_append.2 ⟨fun r hr => hrest r (List.mem_append_left _ hr), ?_⟩
    exact List.forall_mem_cons.2 ⟨hpos ▸ hend hsource,
      fun r hr => hrest r (List.mem_append_right _ hr)⟩

theorem covered (h : Layered pos t ts cs) (hpos : pos = utf8Length before) (hlo : pos ≤ o)
    (hhi : o < pos + utf8Length t) :
    (∃ r ∈ ts ++ cs.map Comment.span, r.start ≤ o ∧ o < r.stop) ∨ BlankAt (before ++ t) o := by
  induction h generalizing before with
  | nil => exact absurd hhi (Nat.not_lt_of_le hlo)
  | @blank pos c t ts cs hc _ ih =>
    rw [utf8Length_cons] at hhi
    by_cases ho : o < pos + c.utf8Size
    · exact .inr ⟨before, c, t, rfl, hpos ▸ hlo, hpos ▸ ho, hc⟩
    · have hrest := ih (by simp [hpos] : pos + c.utf8Size = utf8Length (before ++ [c])) (by omega)
        (by omega)
      rwa [List.append_assoc] at hrest
  | @token pos raw t ts cs _ _ ih =>
    rw [utf8Length_append] at hhi
    by_cases ho : o < pos + utf8Length raw
    · exact .inl ⟨_, List.mem_cons_self, hlo, ho⟩
    · have hrest := ih (by simp [hpos] : pos + utf8Length raw = utf8Length (before ++ raw)) (by omega)
        (by omega)
      rw [List.append_assoc] at hrest
      exact hrest.imp_left fun ⟨r, hr, hin⟩ => ⟨r, List.mem_cons_of_mem _ hr, hin⟩
  | @comment pos raw t ts c cs _ hc _ ih =>
    rw [utf8Length_append] at hhi
    by_cases ho : o < pos + utf8Length raw
    · refine .inl ⟨c.span, List.mem_append_right _ List.mem_cons_self, ?_⟩
      rw [hc]
      exact ⟨hlo, ho⟩
    · have hrest := ih (by simp [hpos] : pos + utf8Length raw = utf8Length (before ++ raw)) (by omega)
        (by omega)
      rw [List.append_assoc] at hrest
      refine hrest.imp_left fun ⟨r, hr, hin⟩ => ⟨r, ?_, hin⟩
      exact List.append_sublist_append_left _ |>.2 (List.sublist_cons_self _ _) |>.subset hr

end Layered

end Modernizer
