import Modernizer.Proofs.Expression.Printing
import Modernizer.Proofs.Tree.Takeover

/-! Putting the tree of an expression in the place of another node (`Plants.exists_replace?`), and
printing the statement that it has come to stand in. A new statement is the text of the expression and a
semicolon, a parsed one keeps its end (`Printer.exists_text_of_parsed`). -/

namespace Modernizer

namespace Store

variable {s s' s₁ : Store} {root n p w y : NodeId} {R : NodeId → Prop} {ns ms : List NodeId} {f : Form}
  {e : Expression} {es : List Expression}

/-- The tree with the root `n` has come into the place of `y`, which `p` held. -/
structure Installs (s : Store) (root p y n : NodeId) (s' : Store) : Prop where
  tree : s'.TreeAt root
  holder : s.Holds p y
  holds : s'.Holds p n
  below : s'.Below root p
  form_holder : s'.form? (some p) = (s.form? (some p)).map (·.mapSlots (Form.exchangeSlot y n))
  form : ∀ m, m ≠ p → s'.form? (some m) = s.form? (some m)
  standing : ∀ m, m ≠ n → (s'.get? (some m)).map standing = (s.get? (some m)).map standing
  place : ∃ x x', s.get? (some y) = some x ∧ s'.get? (some n) = some x' ∧ x'.pos = x.pos ∧
    x'.stop = x.stop ∧ x'.synthesized = true ∧ x'.origin.isSome = true
  modified : ∀ x, s'.get? (some p) = some x → x.modified = true

namespace Installs

variable (h : Installs s root p y n s')

include h

theorem isSynthesized (hm : s.isSynthesized (some w) = true) : s'.isSynthesized (some w) = true := by
  by_cases hw : w = n
  · obtain ⟨x, x', -, hx', -, -, hsynthesized, -⟩ := h.place
    rw [hw, Store.isSynthesized, hx']
    exact hsynthesized
  · obtain ⟨x, hx, hx'⟩ := (Option.any_eq_true _ _).1 hm
    have hstanding := h.standing w hw
    rw [hx] at hstanding
    obtain ⟨x', hx'', e⟩ := Option.map_eq_some_iff.1 hstanding
    rw [Store.isSynthesized, hx'']
    exact (congrArg (·.2.2.2) e).trans hx'

theorem made (hw : w ≠ p) (hm : s.Made w f) : s'.Made w f where
  form := (h.form w hw).trans hm.form
  synthesized := h.isSynthesized hm.synthesized
  descends := hm.descends

theorem depicts (hp : ¬ s.Below w p) (hd : s.Depicts w e) : s'.Depicts w e :=
  hd.of_made fun _ _ hm => h.made fun e => hp (e ▸ hm)

theorem exists_holder {x : Node} (hp : p ≠ n) (hx : s.get? (some p) = some x) : ∃ x',
    s'.get? (some p) = some x' ∧ x'.pos = x.pos ∧ x'.stop = x.stop ∧ x'.synthesized = x.synthesized ∧
      x'.modified = true := by
  have hstanding := h.standing p hp
  rw [hx] at hstanding
  obtain ⟨x', hx', e⟩ := Option.map_eq_some_iff.1 hstanding
  simp only [Store.standing, Prod.mk.injEq] at e
  exact ⟨x', hx', e.1, e.2.1, e.2.2.2, h.modified x' hx'⟩

theorem form_of_expressionStatement (hp : s.form? (some p) = some (.expressionStatement (some y))) :
    s'.form? (some p) = some (.expressionStatement (some n)) := by
  rw [h.form_holder, hp]
  exact congrArg (fun v => some (Form.expressionStatement v)) (if_pos rfl)

end Installs

/-- A tree that was made can come into the place of any node that is not the root and no block. -/
theorem Plants.exists_replace? (t : s.TreeAt root) (hy : s.Below root y) (hr : y ≠ root)
    (hblock : ¬ s.IsBlock y) (h : Plants root (· = y) s [n] s₁) :
    ∃ s' p, s₁.replace? (some y) (some n) = some s' ∧ s.Below root p ∧ s.Holds p y ∧
      ¬ s₁.Below n p ∧ Installs s₁ root p y n s' := by
  obtain ⟨F, hF, -⟩ := h.builds.part
  have hn : n ∈ F := (hF.sprout.mem_of_root List.mem_cons_self).resolve_right List.not_mem_nil
  have hbelow : ∀ q, s.Below root q → s₁.Below root q := fun q hq =>
    h.builds.graft.below q ⟨hq, fun r hr hr' => absurd hr (by simp [Inner, t.not_newSince hr'])⟩
  have hblock₁ : ¬ s₁.IsBlock y := by
    rw [IsBlock, h.enlarges.form (t.lt_size hy)]
    exact hblock
  obtain ⟨s', hs', g, p, hp, hc, hcn, hform, hplace⟩ :=
    replace?_graft h.builds.tree (hbelow y hy) hr hblock₁ hF hn
  obtain ⟨q, hq, hqy⟩ := hy.exists_holder hr
  have hqy₁ : s₁.Holds q y := by rwa [Holds, children_congr (h.enlarges.form (t.lt_size hq))]
  cases h.builds.tree.holder_unique hp (hbelow q hq) hc hqy₁
  obtain ⟨node, form, hnode, -, hs''⟩ := exists_linked_of_replace? hs'
  obtain ⟨node', form', hnode', -, hagree⟩ := agree_replace? hs'
  cases hnode.symm.trans hnode'
  have hstanding : Agree standing _ s' := hagree.map fun x => x.1.2
  have hparent : node.parent = some p := by
    have hlink := h.builds.tree.linked p y hp hc
    rwa [parent, hnode, Option.bind_some] at hlink
  have hp' : s'.Below root p :=
    g.below p ⟨hp, fun r hr _ hb => h.builds.tree.not_below_holder hp hc (hr ▸ hb)⟩
  have hloose : ¬ s₁.Below n p := fun hb => h.loose (List.mem_singleton_self n) hb hp
  refine ⟨s', p, hs', hq, hqy, hloose, g.tree, hc, hcn, hp', hplace, hform, fun m hm => ?_, ?_,
    fun x hx => ?_⟩
  · rw [hstanding (some m)]
    exact standing_swapped fun e => hm (Option.some.inj e)
  · obtain ⟨x, hsynthesized, hx⟩ := exists_get?_swapped (hF.sprout.synthesized n hn)
    have hstands := hstanding (some n)
    rw [hx] at hstands
    obtain ⟨x', hx', e⟩ := Option.map_eq_some_iff.1 hstands
    simp only [standing, placeOf, hsynthesized, if_true, Prod.mk.injEq] at e
    refine ⟨node, x', hnode, hx', e.1, e.2.1, e.2.2.2, ?_⟩
    rw [e.2.2.1]
    split
    · rename_i ho
      exact (Bool.and_eq_true_iff.1 ho).2
    · rfl
  · rw [hs'', hparent] at hx
    exact modified_markModified hx

end Store

namespace Printer

open Store Text

variable {P : Printer} {root n x : NodeId} {e : Expression} {v : Slot}

theorem needsParentheses_of_expressionStatement
    (h : P.store.form? (some x) = some (.expressionStatement v)) :
    P.needsParentheses (some x) = false := by
  obtain ⟨X, hX, hform⟩ := get?_of_form? h
  unfold needsParentheses
  rw [hX]
  dsimp only
  split
  · rfl
  · rw [hform, Form.needsParentheses_of_precedence rfl (fun _ => rfl), Bool.and_false]

section

variable (tree : P.store.TreeAt root) (hx : P.store.Below root x)
  (hform : P.store.form? (some x) = some (.expressionStatement (some n))) (hd : P.store.Depicts n e)

include tree hx hform hd

theorem go_of_expressionStatement {fuel : Nat} (hn : n ≤ fuel) :
    print.go P (fuel + 1) (some n) = write (Chunk.text e.chunks) := by
  have hholds : P.store.Holds x n := by
    rw [Holds, children, hform]
    exact List.mem_singleton_self n
  have hneeds : P.needsParentheses (some n) = false := by
    obtain ⟨X, hX, hX'⟩ := get?_of_form? hform
    obtain ⟨g, hg, -, -, hplain⟩ := hd.exists_form
    obtain ⟨N, hN, rfl⟩ := get?_of_form? hg.form
    have hparent := tree.linked x n hx hholds
    rw [Store.parent, hN, Option.bind_some] at hparent
    rw [needsParentheses, hN]
    dsimp only
    rw [hparent, hX]
    dsimp only
    rw [hX', hplain, Bool.and_false]
  have hprints := P.prints tree e n fuel 0 (hx.tail hholds) hd hn (by rw [hneeds]; rfl)
  rwa [Expression.chunksAt_of_le (Nat.zero_le _)] at hprints

theorem text_of_synthesized (hsynthesized : P.store.isSynthesized (some x) = true) :
    P.text (some x) = Chunk.text e.chunks ++ [';'] := by
  have hholds : P.store.Holds x n := holds_of_form hform (List.mem_singleton_self _)
  have hlt := tree.lt_size (hx.tail hholds)
  obtain ⟨fuel, hfuel⟩ := Nat.exists_eq_succ_of_ne_zero (Nat.ne_zero_of_lt hlt)
  have hprint : P.print (some x) = write (Chunk.text e.chunks ++ [';']) := by
    rw [print, print.go, printWith_of_synthesized hform hsynthesized,
      needsParentheses_of_expressionStatement hform, if_neg (by decide), formCode, hfuel,
      go_of_expressionStatement tree hx hform hd (Nat.le_of_lt_succ (hfuel ▸ hlt))]
    exact write_bind_write _ _
  rw [text, hprint]
  exact Writer.text_write _ _

/-- A parsed statement keeps what follows its expression. -/
theorem exists_text_of_parsed {X N : Node} (hX : P.store.get? (some x) = some X)
    (hparsed : X.synthesized = false) (hmodified : X.modified = true)
    (hN : P.store.get? (some n) = some N) (horigin : N.origin.isSome = true) (hpos : N.pos = X.pos)
    (hstop : N.stop ≤ X.stop) (hfrom : Boundary P.source N.stop) (hto : Boundary P.source X.stop) :
    ∃ t, P.text (some x) = Chunk.text e.chunks ++ t ∧
      Reindented (slice P.source N.stop X.stop) t := by
  have hlt : n < P.store.size := lt_size_of_get? hN
  obtain ⟨fuel, hfuel⟩ := Nat.exists_eq_succ_of_ne_zero (Nat.ne_zero_of_lt hlt)
  obtain ⟨X', hX', hform'⟩ := get?_of_form? hform
  cases hX.symm.trans hX'
  have htiles : P.tiles X.stop X.pos [n] = true := by
    simp [tiles, hN, horigin, hpos, hstop]
  have hsplice : P.bare (print.go P P.store.size) X =
      P.splice (print.go P P.store.size) X.stop X.pos [n] := by
    simp [bare, Node.isPristine, hparsed, hmodified, hform', Form.statementList?, spliced,
      Form.children, Form.slots, htiles]
  have hnothing : P.copy X.pos N.pos = pure ⟨⟩ := if_neg (by omega)
  have hprint : P.print (some x) =
      (print.go P P.store.size (some n) >>= fun _ => P.copy N.stop X.stop) := by
    rw [print, print.go, printWith, hX]
    dsimp only
    rw [needsParentheses_of_expressionStatement hform, if_neg (by decide), hsplice, splice, hN]
    dsimp only
    rw [hnothing, pure_bind]
    rfl
  rw [hfuel, go_of_expressionStatement tree hx hform hd (Nat.le_of_lt_succ (hfuel ▸ hlt))] at hprint
  let start : Writer := { Writer.empty with newline := P.options.newline }
  obtain ⟨t, ht, hmoved⟩ := (Recopies.copy hfrom hto hstop).text (start.write (Chunk.text e.chunks))
  refine ⟨t, ?_, hmoved⟩
  have hrun : ((P.print (some x)).run start).2 = start.write (Chunk.text e.chunks ++ t) := by
    rw [← Writer.write_write, ← ht, hprint]
    rfl
  exact (congrArg Writer.text hrun).trans (Writer.text_write start _)

end

end Printer

end Modernizer
