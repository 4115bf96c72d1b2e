import Modernizer.Proofs.Rule.Pass
import Modernizer.Proofs.Tree.Edit
import Modernizer.Rule.Arrow
import Modernizer.Rule.Call
import Modernizer.Rule.Function
import Modernizer.Rule.ObjectMember

/-! The rules that replace the node they visit. What they find they find below it, and the slots of
the new node are slots of nodes found there, or below such slots. -/

namespace Modernizer

open Store

variable {root n f w : NodeId} {s : Store} {form : FunctionForm}

namespace Store

section shapes

/-! What the questions about shapes find is below the node that they are asked about. -/

theorem below_of_skipParentheses {v : Slot} (h : s.skipParentheses v = some w) :
    ∃ i, v = some i ∧ s.Below i w := by
  suffices ∀ fuel v, skipParentheses.go s fuel v = some w → ∃ i, v = some i ∧ s.Below i w from
    this _ v h
  intro fuel
  induction fuel with
  | zero => exact fun v h => ⟨w, h, .refl⟩
  | succ fuel ih =>
    intro v h
    rw [skipParentheses.go] at h
    split at h
    · rename_i e hf
      obtain ⟨i, rfl, hf⟩ := exists_of_form? hf
      obtain ⟨j, rfl, hj⟩ := ih e h
      exact ⟨i, rfl, (holds_of_form hf List.mem_cons_self).below.trans hj⟩
    · exact ⟨w, h, .refl⟩

theorem form?_of_plainFunction? {v : Slot} (h : s.plainFunction? v = some form) :
    ∃ i, v = some i ∧ s.form? (some i) = some (.functionExpression form) := by
  unfold plainFunction? at h
  split at h
  · rename_i f hf
    obtain ⟨i, rfl, hi⟩ := exists_of_form? hf
    refine ⟨i, rfl, ?_⟩
    split at h
    · split at h
      · cases h
      · exact Option.some.inj h ▸ hi
    · exact Option.some.inj h ▸ hi
  · cases h

theorem exists_of_singleReturn? {body : Slot} {e : NodeId} (h : s.singleReturn? body = some e) :
    ∃ b list i, body = some b ∧ s.statementList? (some b) = some list ∧
      list.statements = [some i] ∧ s.form? (some i) = some (.returnStatement (some e)) := by
  unfold singleReturn? at h
  cases body with
  | none => cases h
  | some b =>
    cases hl : s.statementList? (some b) with
    | none => rw [hl] at h; cases h
    | some list =>
      simp only [hl, Option.bind_eq_bind, Option.bind_some] at h
      split at h
      · rename_i statement hst
        split at h
        · rename_i e' hf
          obtain ⟨i, rfl, hi⟩ := exists_of_form? hf
          have : e' = e := by
            simp only [Option.bind_eq_some_iff] at h
            obtain ⟨_, -, _, -, h⟩ := h
            split at h
            · cases h
            · exact Option.some.inj h
          exact ⟨b, list, i, rfl, hl, hst, this ▸ hi⟩
        · cases h
      · cases h

theorem below_of_singleReturn? {body : Slot} {e : NodeId} (h : s.singleReturn? body = some e) :
    ∃ b, body = some b ∧ s.Below b e := by
  obtain ⟨b, list, i, rfl, hl, hst, hi⟩ := exists_of_singleReturn? h
  have hb : s.Holds b i := holds_of_mem_statements hl (hst ▸ List.mem_cons_self)
  exact ⟨b, rfl, hb.below.tail (holds_of_form hi List.mem_cons_self)⟩

end shapes

theorem Pieces.shortBody {parameters : List Slot} {body : Slot}
    (h : s.Pieces n (present (parameters ++ [body]))) :
    s.Pieces n (present (parameters ++ [((s.singleReturn? body).map some).getD body])) := by
  cases hr : s.singleReturn? body with
  | none => exact h
  | some e =>
    obtain ⟨b, rfl, hb⟩ := below_of_singleReturn? hr
    have hsplit : s.Pieces n (present parameters ++ b :: []) := by simpa using h
    simpa using hsplit.split (Pieces.single hb)

theorem Pieces.of_function (t : s.TreeAt root) (hn : s.Below root n) (hf : s.Below n f)
    (h : s.form? (some f) = some (.functionExpression form)) :
    s.Pieces n (present (form.parameters.nodes ++ [form.body])) :=
  (((Pieces.of_form t (hn.trans hf) h).up hf).sublist) <|
    present_sublist (List.sublist_cons_self ..)

end Store

namespace Rule

theorem decides_visitPower : Decides root visitPower := by
  intro s n t hn
  refine .get ?_
  split
  · rename_i callee arguments hf
    split
    · rename_i base exponent hargs
      split
      · have hp := Pieces.of_form t hn hf
        simp only [Form.slots, hargs] at hp
        exact .replaceBy t hn (t.replaceable hf rfl) (.of_none rfl) <|
          hp.sublist (present_sublist (List.sublist_cons_self ..))
      · exact .keep t rfl
    · exact .keep t rfl
  · exact .keep t rfl

theorem pieces_of_apply (t : s.TreeAt root) (hn : s.Below root n) {callee target name receiver
    list : Slot} {arguments : NodeList} {optional : Bool}
    (hf : s.form? (some n) = some (.call callee arguments optional))
    (hm : s.form? callee = some (.member target name optional))
    (hargs : arguments.nodes = [receiver, list]) :
    s.Pieces n (present [target] ++ present [list]) := by
  obtain ⟨c, rfl, hc⟩ := exists_of_form? hm
  have hslots := Pieces.of_form t hn hf
  simp only [Form.slots, hargs] at hslots
  have hcall : s.Pieces n ([] ++ c :: present [list]) :=
    hslots.sublist (present_sublist (l := [some c, list]) (by simp))
  have htarget : s.Pieces c (present [target]) :=
    (Pieces.of_form t (hn.tail (holds_of_form hf List.mem_cons_self)) hc).sublist <|
      present_sublist (l := [target]) (by simp [Form.slots])
  exact hcall.split htarget

theorem settles_spreadCall (t : s.TreeAt root) (hn : s.Below root n) (hr : s.Replaceable root n)
    {target list : Slot} (h : s.Pieces n (present [target] ++ present [list])) :
    Settles root n (do
      let spread ← makeNode (.spread list)
      replaceBy (.call target (.ofNodes [some spread]) false)) s := by
  have hR : ∀ r, r = n → s.Below root r := fun r hr => hr ▸ hn
  have hb : s.Bodied (.spread list) := .of_none rfl
  have g := Adds.synthesize t hb
  have hblock : ¬ (s.synthesize (.spread list)).2.IsBlock n := by
    rw [IsBlock, g.form hn]
    exact hr.not_block
  have hcross := (List.pairwise_append.1 h.apart).2.2
  have hlist : s.Pieces n (present [list]) := h.sublist (List.sublist_append_right ..)
  have htarget : s.Pieces n (present [target]) := h.sublist (List.sublist_append_left ..)
  have hkept := g.scion (htarget.stock (R := (· = n)) rfl).scion hR
  have hspread := (hlist.stock (R := (· = n)) rfl).scion.enclose t hb hR
  have hscion := hkept.append hspread (by simp) fun d hd d' hd' =>
    g.apart (hn.trans (htarget.below d hd)) (hn.trans (hlist.below d' hd')) (hcross d hd d' hd')
  rw [← present_map_some [s.size], ← present_append] at hscion
  obtain ⟨s', hs', g'⟩ := Settles.replaceBy_scion (.call target (.ofNodes [some s.size]) false)
    g.tree (g.below hn) ⟨hr.ne_root, hblock⟩ (.of_none rfl) hscion
  refine ⟨s', hs', Graft.trans (g.graft t) (g'.mono g.tree ?_ fun m hm => ?_)⟩
  · exact fun r hr hb => ⟨r, hr, hb, .refl⟩
  · obtain rfl | rfl : m = s.size + 1 ∨ m = s.size := by simpa using hm
    · exact Nat.le_succ _
    · exact Nat.le_refl _

theorem decides_visitApply : Decides root visitApply := by
  intro s n t hn
  refine .get ?_
  split
  · rename_i callee arguments hf
    split
    · rename_i target name receiver list hm hargs
      split
      · exact settles_spreadCall t hn (t.replaceable hf rfl) (pieces_of_apply t hn hf hm hargs)
      · exact .keep t rfl
    · exact .keep t rfl
  · exact .keep t rfl

theorem settles_toArrow (t : s.TreeAt root) (hn : s.Below root n) (hr : s.Replaceable root n)
    (hf : s.Below n f) (h : s.form? (some f) = some (.functionExpression form)) :
    Settles root n (toArrow s f form) s := by
  unfold toArrow
  split
  · exact .keep t rfl
  · exact .replaceBy t hn hr (.of_none rfl) (Pieces.of_function t hn hf h).shortBody

theorem below_of_boundFunction? (h : boundFunction? s (some n) = some f) : s.Below n f := by
  unfold boundFunction? at h
  split at h
  · rename_i callee arguments hf
    split at h
    · rename_i target name argument hm hargs
      split at h
      · obtain ⟨c, rfl, hc⟩ := exists_of_form? hm
        have hskip : s.skipParentheses target = some f := by
          dsimp only at h
          split at h
          · exact h
          · cases h
        obtain ⟨i, rfl, hi⟩ := below_of_skipParentheses hskip
        have h₁ : s.Holds n c := holds_of_form hf List.mem_cons_self
        have h₂ : s.Holds c i := holds_of_form hc List.mem_cons_self
        exact (h₁.below.trans h₂.below).trans hi
      · cases h
    · cases h
  · cases h

theorem decides_visitFunction : Decides root visitFunction := by
  intro s n t hn
  refine .get ?_
  split
  · rename_i f hf
    split
    · exact .keep t rfl
    · exact settles_toArrow t hn (t.replaceable hf rfl) .refl hf
  · rename_i hf
    split
    · exact .keep t rfl
    · rename_i function hb
      split
      · rename_i f hff
        split
        · exact settles_toArrow t hn (t.replaceable hf rfl) (below_of_boundFunction? hb) hff
        · exact .keep t rfl
      · exact .keep t rfl
  · exact .keep t rfl

theorem decides_visitArrow : Decides root visitArrow := by
  intro s n t hn
  refine .get ?_
  split
  · rename_i a hf
    split
    · rename_i e he
      have hp := (Pieces.of_form t hn hf).shortBody
      rw [he] at hp
      exact .replaceBy t hn (t.replaceable hf rfl) (.of_none rfl) hp
    · exact .keep t rfl
  · exact .keep t rfl

def methodOf (name : Slot) (f : FunctionForm) : Form :=
  .method ⟨.method, false, name, f.parameters, f.body, f.isAsync, f.isGenerator⟩

theorem pieces_of_functionMember {s : Store} {n v i : NodeId} {name : Slot} {f : FunctionForm}
    (t : s.TreeAt root) (hn : s.Below root n)
    (hproperty : s.form? (some n) = some (.property name (some v))) (hvi : s.Below v i)
    (hf : s.form? (some i) = some (.functionExpression f)) :
    s.Bodied (methodOf name f) ∧ s.Pieces n (present (methodOf name f).slots) := by
  have hslots := Pieces.of_form t hn hproperty
  have hsplit : s.Pieces n (present [name] ++ v :: present []) := by
    rwa [← present_cons_some, ← present_append]
  have hv := Pieces.of_function t
    (hn.tail (holds_of_form hproperty (List.mem_cons_of_mem _ List.mem_cons_self))) hvi hf
  have hnew := hsplit.split hv
  rw [present_nil, List.append_nil, ← present_append] at hnew
  exact ⟨fun b hb => t.bodied i _ hf b hb, hnew⟩

theorem decides_visitFunctionMember : Decides root visitFunctionMember := by
  intro s n t hn
  refine .get ?_
  split
  · rename_i name value _ hf _
    split
    · rename_i f hv
      obtain ⟨i, hi, hf'⟩ := form?_of_plainFunction? hv
      obtain ⟨v, rfl, hvi⟩ := below_of_skipParentheses hi
      obtain ⟨hb, hnew⟩ := pieces_of_functionMember t hn hf hvi hf'
      exact .replaceBy t hn (t.replaceable hf rfl) hb hnew
    · exact .keep t rfl
  · exact .keep t rfl

theorem decides_visitProperty : Decides root visitProperty := by
  intro s n t hn
  refine .get ?_
  split
  · rename_i name value hf
    split
    · split
      · have hvacant : present [value, none] = present [value] := by cases value <;> rfl
        have hnew : s.Pieces n (present [value]) :=
          (Pieces.of_form t hn hf).sublist (present_sublist (List.sublist_cons_self ..))
        exact .replaceBy t hn (t.replaceable hf rfl) (.of_none rfl) (hvacant ▸ hnew)
      · exact .keep t rfl
    · exact .keep t rfl
  · exact .keep t rfl

end Rule

end Modernizer
