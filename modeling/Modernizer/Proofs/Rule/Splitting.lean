import Mathlib.Data.List.Forall2
import Modernizer.Proofs.Rule.Comments
import Modernizer.Proofs.Rule.Idempotent
import Modernizer.Proofs.Rule.Origin

/-! Declarations of split statements. Each statement of a list comes to a group: itself, or one
statement for each of its declarations (`Comes`). Splitting the statements of a container one after
the other leaves the groups in the order of the statements (`exists_groups`). That is what a turn
does to every list in the tree, and so does a pass (`Conserves`). -/

namespace Modernizer

/-- What the statements of a list come to. -/
inductive Item where
  | declared (kind : DeclarationKind) (declaration : Slot)
  | other (statement : Slot)
  deriving DecidableEq, Repr

namespace Store

/-- The declarations of a variable statement, and their kind. -/
def declared? (s : Store) (statement : Slot) : Option (DeclarationKind × List Slot) :=
  match s.form? statement with
  | some (.variableStatement list) =>
    match s.form? list with
    | some (.declarationList list) => some (list.kind, list.declarations.nodes)
    | _ => none
  | _ => none

/-- A statement, with a variable statement as its declarations. -/
def items (s : Store) (statement : Slot) : List Item :=
  match s.declared? statement with
  | some (kind, declarations) => declarations.map (.declared kind)
  | none => [.other statement]

end Store

open Store List

variable {root n : NodeId} {s s' s'' s₁ : Store} {v : Slot} {g l l' parts ds : List Slot}
  {gs : List (List Slot)} {kind : DeclarationKind} {list : StatementList} {rs : List Replacement}

theorem Rule.severalDeclarations?_eq (s : Store) (v : Slot) :
    severalDeclarations? s v = (s.declared? v).filter (2 ≤ ·.2.length) := by
  unfold severalDeclarations? Store.declared?
  repeat' split
  all_goals first | rfl | simp_all [Option.filter]

theorem Rule.severalDeclarations?_eq_some : severalDeclarations? s v = some (kind, ds) ↔
    s.declared? v = some (kind, ds) ∧ 2 ≤ ds.length := by
  rw [severalDeclarations?_eq, Option.filter_eq_some_iff, decide_eq_true_iff]

namespace Store

def DeclareEach (s : Store) (kind : DeclarationKind) (ds parts : List Slot) : Prop :=
  Forall₂ (fun d part => s.declared? part = some (kind, [d])) ds parts

/-- The statement stays as it is, or gives way to one statement for each of its several
declarations, with the comments before it before the first and those after it after the last. -/
inductive Comes (s s' : Store) (v : Slot) : List Slot → Prop where
  | kept : s'.declared? v = s.declared? v → s'.attachedTo v = s.attachedTo v → Comes s s' v [v]
  | split {kind : DeclarationKind} {ds parts : List Slot} {first last : Slot} :
      s.declared? v = some (kind, ds) → 2 ≤ ds.length → s'.DeclareEach kind ds parts →
      parts.head? = some first → s'.leadingComments first = s.leadingComments v →
      parts.getLast? = some last → s'.trailingComments last = s.trailingComments v →
      Comes s s' v parts

theorem declared?_eq_some (h : s.declared? v = some (kind, ds)) : ∃ q i list, v = some q ∧
    s.form? (some q) = some (.variableStatement (some i)) ∧
    s.form? (some i) = some (.declarationList list) ∧ list.kind = kind ∧
    list.declarations.nodes = ds := by
  unfold declared? at h
  split at h
  · rename_i e he
    obtain ⟨q, rfl, hq⟩ := exists_of_form? he
    split at h
    · rename_i list hlist
      obtain ⟨i, rfl, hi⟩ := exists_of_form? hlist
      cases h
      exact ⟨q, i, list, rfl, hq, hi, rfl, rfl⟩
    · cases h
  · cases h

theorem declared?_of_forms {q i : NodeId} {list : DeclarationList}
    (hq : s.form? (some q) = some (.variableStatement (some i)))
    (hi : s.form? (some i) = some (.declarationList list)) :
    s.declared? (some q) = some (list.kind, list.declarations.nodes) := by
  simp only [declared?, hq, hi]

def KeepsForm (s s' : Store) (v : Slot) : Prop :=
  ∃ l, s'.form? v = (s.form? v).map (·.withStatements l)

theorem keepsForm_of_eq (h : s'.form? v = s.form? v) : KeepsForm s s' v := by
  have hself : ∀ f : Form, ∃ l, f.withStatements l = f := by
    intro f
    cases hl : f.statementList? with
    | some list => exact ⟨list.statements, Form.withStatements_self hl⟩
    | none => exact ⟨[], by cases f <;> first | rfl | cases hl⟩
  cases hf : s.form? v with
  | none => exact ⟨[], by rw [h, hf]; rfl⟩
  | some f =>
    obtain ⟨l, hl⟩ := hself f
    exact ⟨l, by rw [h, hf, Option.map_some, hl]⟩

theorem declared?_of_keepsForm (hv : KeepsForm s s' v)
    (hlist : ∀ e, s.form? v = some (.variableStatement e) → KeepsForm s s' e) :
    s'.declared? v = s.declared? v := by
  obtain ⟨l, hl⟩ := hv
  unfold declared?
  rw [hl]
  cases hf : s.form? v with
  | none => rfl
  | some f =>
    cases f with
    | variableStatement e =>
      obtain ⟨l, hl⟩ := hlist e hf
      simp only [Option.map_some, Form.withStatements, hl]
      cases s.form? e with
      | none => rfl
      | some f => cases f <;> rfl
    | _ => rfl

theorem declared?_congr (t : s.TreeAt root) (hv : ∀ i, v = some i → s.Below root i)
    (h : ∀ m, m < s.size → KeepsForm s s' (some m)) : s'.declared? v = s.declared? v := by
  refine declared?_of_keepsForm ?_ fun e he => ?_
  · cases v with
    | none => exact keepsForm_of_eq rfl
    | some q => exact h q (t.lt_size (hv q rfl))
  · obtain ⟨q, rfl, hq⟩ := exists_of_form? he
    cases e with
    | none => exact keepsForm_of_eq rfl
    | some i => exact h i (t.lt_size ((hv q rfl).tail (holds_of_form hq List.mem_cons_self)))

namespace Comes

theorem congr (h : Comes s s' v g) (hdeclared : ∀ v, s''.declared? v = s'.declared? v)
    (hattached : ∀ v, s''.attachedTo v = s'.attachedTo v) : Comes s s'' v g := by
  cases h with
  | kept h hcomments => exact .kept ((hdeclared v).trans h) ((hattached v).trans hcomments)
  | split hv hlength hparts hfirst hleading hlast htrailing =>
    refine .split hv hlength (hparts.imp fun _ _ h => (hdeclared _).trans h) hfirst ?_ hlast ?_
    · rw [leadingComments, hattached]
      exact hleading
    · rw [trailingComments, hattached]
      exact htrailing

theorem items_eq (h : Comes s s' v g) : g.flatMap s'.items = s.items v := by
  cases h with
  | kept h _ => rw [flatMap_singleton, items, items, h]
  | split hv _ hparts _ _ _ _ =>
    rw [items, hv]
    dsimp only
    clear * - hparts
    induction hparts with
    | nil => rfl
    | cons hpart _ ih =>
      rw [flatMap_cons, ih, items, hpart]
      rfl

theorem flatten_of_declareEach (hparts : s'.DeclareEach kind ds parts)
    (h : Forall₂ (Comes s' s'') parts gs) : gs.flatten = parts ∧ s''.DeclareEach kind ds parts ∧
      ∀ part ∈ parts, s''.attachedTo part = s'.attachedTo part := by
  induction hparts generalizing gs with
  | nil =>
    cases h
    exact ⟨rfl, .nil, by simp⟩
  | @cons d part _ _ hpart _ ih =>
    obtain ⟨g, gs, hg, hgs, rfl⟩ := forall₂_cons_left_iff.1 h
    obtain ⟨hflat, hdeclared, hattached⟩ := ih hgs
    cases hg with
    | kept hone hcomments =>
      refine ⟨by rw [flatten_cons, hflat]; rfl, .cons (hone.trans hpart) hdeclared, ?_⟩
      intro w hw
      rcases mem_cons.1 hw with rfl | hw
      · exact hcomments
      · exact hattached w hw
    | split hseveral hlength =>
      cases hpart.symm.trans hseveral
      simp at hlength

theorem trans (h : Comes s s' v g) (h' : Forall₂ (Comes s' s'') g gs) :
    Comes s s'' v gs.flatten := by
  cases h with
  | kept hdeclared hattached =>
    obtain ⟨g, _, hg, hnil, rfl⟩ := forall₂_cons_left_iff.1 h'
    cases forall₂_nil_left_iff.1 hnil
    rw [flatten_singleton]
    cases hg with
    | kept h hcomments => exact .kept (h.trans hdeclared) (hcomments.trans hattached)
    | split hv hlength hparts hfirst hleading hlast htrailing =>
      refine .split (hdeclared ▸ hv) hlength hparts hfirst ?_ hlast ?_
      · rw [hleading, leadingComments, hattached, leadingComments]
      · rw [htrailing, trailingComments, hattached, trailingComments]
  | @split kind ds _ first last hv hlength hparts hfirst hleading hlast htrailing =>
    obtain ⟨hflat, hdeclared, hattached⟩ := flatten_of_declareEach hparts h'
    rw [hflat]
    refine .split hv hlength hdeclared hfirst ?_ hlast ?_
    · rw [leadingComments, hattached first (mem_of_head? hfirst)]
      exact hleading
    · rw [trailingComments, hattached last (mem_of_getLast? hlast)]
      exact htrailing

end Comes

theorem items_flatten (h : Forall₂ (Comes s s') l gs) :
    gs.flatten.flatMap s'.items = l.flatMap s.items := by
  induction h with
  | nil => rfl
  | cons hv _ ih => rw [flatten_cons, flatMap_append, flatMap_cons, ih, hv.items_eq]

theorem comes_trans {hs : List (List Slot)} (h : Forall₂ (Comes s s') l gs)
    (h' : Forall₂ (Comes s' s'') gs.flatten hs) :
    ∃ gs', gs'.flatten = hs.flatten ∧ Forall₂ (Comes s s'') l gs' := by
  induction h generalizing hs with
  | nil =>
    cases h'
    exact ⟨[], rfl, .nil⟩
  | @cons v g l gs hv _ ih =>
    rw [flatten_cons] at h'
    have htake := forall₂_take g.length h'
    have hdrop := forall₂_drop g.length h'
    rw [take_left] at htake
    rw [drop_left] at hdrop
    obtain ⟨gs', hflat, hrest⟩ := ih hdrop
    refine ⟨(hs.take g.length).flatten :: gs', ?_, .cons (hv.trans htake) hrest⟩
    rw [flatten_cons, hflat, ← flatten_append, take_append_drop]

/-- The store has got new nodes, and only those may have got comments. -/
structure Gains (s s' : Store) : Prop extends Enlarges s s' where
  attached : ∀ v, (∀ i, v = some i → i < s.size) → s'.attachedTo v = s.attachedTo v
  noneAhead : s.NoneAhead → s'.NoneAhead

namespace Gains

theorem refl (s : Store) : Gains s s := ⟨.refl s, fun _ _ => rfl, id⟩

theorem trans (h : Gains s s') (h' : Gains s' s'') : Gains s s'' where
  toEnlarges := h.toEnlarges.trans h'.toEnlarges
  attached v hv := (h'.attached v fun i e => Nat.lt_of_lt_of_le (hv i e) h.size_le).trans
    (h.attached v hv)
  noneAhead hs := h'.noneAhead (h.noneAhead hs)

end Gains

theorem Enlarges.declared? (h : Enlarges s s') (hv : s.declared? v = some (kind, ds)) :
    s'.declared? v = some (kind, ds) := by
  obtain ⟨q, i, list, rfl, hq, hi, rfl, rfl⟩ := declared?_eq_some hv
  exact declared?_of_forms ((h.form (lt_size_of_form? hq)).trans hq)
    ((h.form (lt_size_of_form? hi)).trans hi)

end Store

namespace Rule

/-- New statements, one for each declaration. -/
structure Singles (s s' : Store) (kind : DeclarationKind) (ds parts : List Slot) : Prop where
  enlarges : Enlarges s s'
  attached : s'.attached = s.attached
  declared : s'.DeclareEach kind ds parts
  fresh : ∀ part ∈ parts, ∃ c, part = some c ∧ s.size ≤ c ∧ c < s'.size

theorem singles_makeDeclaration (s : Store) (kind : DeclarationKind) (d : Slot) :
    Singles s (makeDeclaration kind d s).2 kind [d] [some (makeDeclaration kind d s).1] := by
  let list : DeclarationList := ⟨kind, .ofNodes [d], kind⟩
  let s₁ := (s.synthesize (.declarationList list)).2
  let s₂ := (s₁.synthesize (.variableStatement (some s.size))).2
  have hsize₁ : s₁.size = s.size + 1 := size_synthesize ..
  have hsize₂ : s₂.size = s₁.size + 1 := size_synthesize ..
  have hlist : s₂.form? (some s.size) = some (.declarationList list) := by
    rw [form?, get?_synthesize_of_ne (by simp [hsize₁]), get?_synthesize, if_pos rfl]
    rfl
  have hstatement : s₂.form? (some s₁.size) = some (.variableStatement (some s.size)) := by
    rw [form?, get?_synthesize, if_pos rfl]
    rfl
  change Singles s s₂ kind [d] [some s₁.size]
  refine ⟨((Enlarges.refl s).synthesize _).synthesize _, rfl, .cons ?_ .nil, fun part hpart => ?_⟩
  · exact declared?_of_forms hstatement hlist
  · exact ⟨s₁.size, mem_singleton.1 hpart, hsize₁ ▸ Nat.le_succ _, hsize₂ ▸ Nat.lt_succ_self _⟩

theorem singles_makeDeclarations (s : Store) (kind : DeclarationKind) (ds : List Slot) :
    Singles s (ds.mapM (fun d => some <$> makeDeclaration kind d) s).2 kind ds
      (ds.mapM (fun d => some <$> makeDeclaration kind d) s).1 := by
  induction ds generalizing s with
  | nil => exact ⟨.refl s, rfl, .nil, fun part hpart => absurd hpart not_mem_nil⟩
  | cons d ds ih =>
    have hhead := singles_makeDeclaration s kind d
    have hrest := ih (makeDeclaration kind d s).2
    rw [List.mapM_cons]
    refine ⟨hhead.enlarges.trans hrest.enlarges, hrest.attached.trans hhead.attached,
      .cons ?_ hrest.declared, fun part hpart => ?_⟩
    · exact hrest.enlarges.declared? (forall₂_cons.1 hhead.declared).1
    · rcases mem_cons.1 hpart with rfl | hpart
      · obtain ⟨c, hc, hnew, hlt⟩ := hhead.fresh _ mem_cons_self
        exact ⟨c, hc, hnew, Nat.lt_of_lt_of_le hlt hrest.enlarges.size_le⟩
      · obtain ⟨c, hc, hnew, hlt⟩ := hrest.fresh part hpart
        exact ⟨c, hc, hhead.enlarges.size_le.trans hnew, hlt⟩

theorem nodes_shareComments (s : Store) (v : Slot) (parts : List Slot) :
    (shareComments s v parts).nodes = s.nodes ∧
      (shareComments s v parts).comments = s.comments := by
  unfold shareComments
  split
  · dsimp only
    split <;> exact ⟨rfl, rfl⟩
  · exact ⟨rfl, rfl⟩

theorem attachedTo_shareComments {w : Slot} (hw : w ∉ parts) :
    (shareComments s v parts).attachedTo w = s.attachedTo w := by
  unfold shareComments
  split
  · rename_i first last hfirst hlast
    have hne : ∀ part ∈ parts, part ≠ w := fun part hpart e => hw (e ▸ hpart)
    have hleading : ∀ comments, (s.attachLeading first comments).attachedTo w = s.attachedTo w :=
      fun comments => by
        rw [attachLeading, attachedTo_setAttached, if_neg (hne first (mem_of_head? hfirst))]
    dsimp only
    split
    · exact hleading _
    · rw [attachedTo_setAttached, if_neg (hne last (mem_of_getLast? hlast))]
      exact hleading _
  · rfl

theorem shareComments_of_none {first last : Slot} (hfirst : parts.head? = some first)
    (hlast : parts.getLast? = some last) (hnone : ∀ part ∈ parts, s.attachedTo part = .none) :
    (shareComments s v parts).leadingComments first = s.leadingComments v ∧
      (shareComments s v parts).trailingComments last = s.trailingComments v := by
  have hleading : ∀ comments part, part ∈ parts →
      (s.attachLeading first comments).attachedTo part =
        if first = part then ⟨comments, []⟩ else .none := by
    intro comments part hpart
    rw [attachLeading, attachedTo_setAttached, hnone first (mem_of_head? hfirst), hnone part hpart]
    rfl
  unfold shareComments
  rw [hfirst, hlast]
  dsimp only
  split
  · rename_i htrailing
    have hnil : s.trailingComments v = [] := isEmpty_iff.1 htrailing
    refine ⟨?_, ?_⟩
    · rw [leadingComments, hleading _ _ (mem_of_head? hfirst), if_pos rfl]
      rfl
    · rw [trailingComments, hleading _ _ (mem_of_getLast? hlast), hnil]
      split <;> rfl
  · rw [leadingComments, trailingComments, attachedTo_setAttached, attachedTo_setAttached,
      if_pos rfl]
    refine ⟨?_, rfl⟩
    split
    · rename_i he
      rw [leadingComments, he, hleading _ _ (mem_of_head? hfirst), if_pos rfl]
      rfl
    · rw [hleading _ _ (mem_of_head? hfirst), if_pos rfl]
      rfl

/-- A statement with several declarations is split, and stays so while others are. -/
theorem comes_splitStatement (hnone : s.NoneAhead) (hd : s.declared? v = some (kind, ds))
    (hlength : 2 ≤ ds.length) : ∃ parts s', splitStatement v s = (some parts, s') ∧ Gains s s' ∧
      (∀ s'', Gains s' s'' → Comes s s'' v parts) ∧
      ∀ part ∈ parts, ∃ c, part = some c ∧ s.size ≤ c := by
  have hmade := singles_makeDeclarations s kind ds
  rw [splitStatement_eq, severalDeclarations?_eq_some.2 ⟨hd, hlength⟩]
  dsimp only
  generalize ds.mapM (fun d => some <$> makeDeclaration kind d) s = made at hmade ⊢
  obtain ⟨parts, s₁⟩ := made
  obtain ⟨hnodes, hcomments⟩ := nodes_shareComments s₁ v parts
  have hget : ∀ w, (shareComments s₁ v parts).get? w = s₁.get? w := fun w => by
    simp only [get?, hnodes]
  have hsize : (shareComments s₁ v parts).size = s₁.size := congrArg Array.size hnodes
  have hsame : ∀ w, w ∉ parts → (shareComments s₁ v parts).attachedTo w = s.attachedTo w :=
    fun w hw => (attachedTo_shareComments hw).trans (attachedTo_congr hmade.attached w)
  have hfree : ∀ part ∈ parts, s₁.attachedTo part = .none := fun part hpart => by
    obtain ⟨c, rfl, hnew, -⟩ := hmade.fresh part hpart
    rw [attachedTo_congr hmade.attached, hnone c hnew]
  have henlarges : Enlarges s (shareComments s₁ v parts) :=
    ⟨hsize ▸ hmade.enlarges.size_le, fun m hm => (hget _).trans (hmade.enlarges.kept m hm),
      hcomments.trans hmade.enlarges.comments⟩
  have hdeclared : ∀ w, (shareComments s₁ v parts).declared? w = s₁.declared? w := fun w => by
    simp only [Store.declared?, form?, hget]
  have hparts : parts ≠ [] := by
    rintro rfl
    rw [hmade.declared.length_eq] at hlength
    cases hlength
  -- the parts are new and have no comments of their own, so they get just those of the statement
  obtain ⟨hleading, htrailing⟩ := shareComments_of_none (v := v) (head?_eq_some_head hparts)
    (getLast?_eq_some_getLast hparts) hfree
  refine ⟨parts, _, rfl, ⟨henlarges, fun w hw => hsame w fun hpart => ?_, fun _ i hi => ?_⟩,
    fun s'' hs'' => ?_, fun part hpart => ?_⟩
  · obtain ⟨c, rfl, hnew, -⟩ := hmade.fresh w hpart
    exact Nat.not_lt_of_le hnew (hw c rfl)
  · rw [hsize] at hi
    refine (hsame _ fun hpart => ?_).trans (hnone i (hmade.enlarges.size_le.trans hi))
    obtain ⟨c, ⟨⟩, -, hlt⟩ := hmade.fresh _ hpart
    exact Nat.not_lt_of_le hi hlt
  · have hattached : ∀ part ∈ parts,
        s''.attachedTo part = (shareComments s₁ v parts).attachedTo part := by
      intro part hpart
      obtain ⟨c, rfl, -, hlt⟩ := hmade.fresh part hpart
      refine hs''.attached _ fun i e => ?_
      exact Option.some.inj e ▸ hsize ▸ hlt
    refine .split hd hlength (hmade.declared.imp fun d part h => ?_) (head?_eq_some_head hparts) ?_
      (getLast?_eq_some_getLast hparts) ?_
    · exact hs''.toEnlarges.declared? ((hdeclared part).trans h)
    · rw [leadingComments, hattached _ (head_mem hparts), ← leadingComments, hleading,
        leadingComments, attachedTo_congr hmade.attached, leadingComments]
    · rw [trailingComments, hattached _ (getLast_mem hparts), ← trailingComments, htrailing,
        trailingComments, attachedTo_congr hmade.attached, trailingComments]
  · obtain ⟨c, hc, hnew, -⟩ := hmade.fresh part hpart
    exact ⟨c, hc, hnew⟩

theorem result_middle {before : List Slot} (h : v ∉ before) :
    (Replacement.of (some n) v [] parts).result (before ++ v :: l) = before ++ parts ++ l := by
  have hidx : (before ++ v :: l).idxOf v = before.length := by
    rw [idxOf_append_of_notMem h, idxOf_cons_self, Nat.add_zero]
  simp [Replacement.result, Replacement.of, hidx]

/-- Statements are split one after the other, each in the place where it is. -/
theorem exists_groups (t : s.TreeAt root) (h : Gains s s₁) (hnone : s₁.NoneAhead)
    (hl : ∀ c, some c ∈ l → s.Below root c) (hnodup : (present l).Nodup) :
    ∃ rs s' gs, l.filterMapM (splitDraft n) s₁ = (rs, s') ∧ Gains s₁ s' ∧
      Forall₂ (Comes s s') l gs ∧ (∀ r ∈ rs, r.parent = some n) ∧
      ∀ before, (∀ c, some c ∈ l → some c ∉ before) →
        rs.foldl (fun l r => r.result l) (before ++ l) = before ++ gs.flatten := by
  -- the replacements for the rest find their statements behind what the first became
  induction l generalizing s₁ with
  | nil => exact ⟨[], s₁, [], rfl, .refl s₁, .nil, by simp, by simp⟩
  | cons v l ih =>
    have hl' : ∀ c, some c ∈ l → s.Below root c := fun c hc => hl c (mem_cons_of_mem v hc)
    have hnodup' : (present l).Nodup := by
      rw [present_cons] at hnodup
      exact (nodup_append.1 hnodup).2.1
    have hv : ∀ i, v = some i → s.Below root i := fun i e => hl i (e ▸ mem_cons_self)
    have hdeclared : ∀ {s'}, Gains s s' → s'.declared? v = s.declared? v := by
      intro s' hs'
      exact declared?_congr t hv fun m hm => keepsForm_of_eq (hs'.form hm)
    have hapart : ∀ c, some c ∈ l → some c ≠ v := by
      rintro c hc rfl
      rw [present_cons_some, nodup_cons] at hnodup
      exact hnodup.1 (mem_present.2 hc)
    have hdraft : splitDraft n v s₁ = ((splitStatement v s₁).1.map (Replacement.of (some n) v []),
      (splitStatement v s₁).2) := rfl
    rw [Drafts.filterMapM_cons_eq, hdraft]
    cases hd : severalDeclarations? s₁ v with
    | none =>
      rw [splitStatement_eq, hd]
      dsimp only
      obtain ⟨rs, s', gs, hrs, hgains, hcomes, hparent, hfold⟩ := ih h hnone hl' hnodup'
      have hwhole := h.trans hgains
      refine ⟨rs, s', [v] :: gs, by rw [hrs]; rfl, hgains,
        .cons (.kept (hdeclared hwhole) ?_) hcomes, hparent, fun before hbefore => ?_⟩
      · exact hwhole.attached v fun i e => t.lt_size (hv i e)
      · rw [append_cons, hfold (before ++ [v]) fun c hc => ?_, flatten_cons, append_assoc]
        rw [mem_append, mem_singleton, not_or]
        exact ⟨hbefore c (mem_cons_of_mem v hc), hapart c hc⟩
    | some found =>
      obtain ⟨kind, ds⟩ := found
      obtain ⟨hd, hlength⟩ := severalDeclarations?_eq_some.1 hd
      obtain ⟨parts, s₂, hsplit, hfirst, hparts, hfresh⟩ := comes_splitStatement hnone hd hlength
      obtain ⟨rs, s', gs, hrs, hgains, hcomes, hparent, hfold⟩ :=
        ih (h.trans hfirst) (hfirst.noneAhead hnone) hl' hnodup'
      rw [hsplit]
      dsimp only
      rw [hrs]
      refine ⟨_, s', parts :: gs, rfl, hfirst.trans hgains, .cons ?_ hcomes, ?_,
        fun before hbefore => ?_⟩
      · have hkept : Comes s s₁ v [v] :=
          .kept (hdeclared h) (h.attached v fun i e => t.lt_size (hv i e))
        simpa using hkept.trans (.cons (hparts s' hgains) .nil)
      · simpa [Replacement.of] using hparent
      · obtain ⟨i, _, _, rfl, -⟩ := declared?_eq_some hd
        rw [Option.map_some, Option.toList_some, cons_append, nil_append, foldl_cons,
          result_middle (hbefore i mem_cons_self), hfold (before ++ parts) fun c hc => ?_,
          flatten_cons, append_assoc]
        rw [mem_append, not_or]
        refine ⟨hbefore c (mem_cons_of_mem _ hc), fun hpart => ?_⟩
        obtain ⟨_, ⟨⟩, hnew⟩ := hfresh _ hpart
        exact Nat.not_lt_of_le (h.size_le.trans hnew) (t.lt_size (hl' c hc))

end Rule

namespace Store

variable {m : NodeId} {made : List Slot} {form : Form}

theorem KeepsForm.trans (h : KeepsForm s s' v) (h' : KeepsForm s' s'' v) : KeepsForm s s'' v := by
  obtain ⟨l, hl⟩ := h
  obtain ⟨l', hl'⟩ := h'
  refine ⟨l', ?_⟩
  rw [hl', hl, Option.map_map]
  exact congrArg (Option.map · _) (funext fun f => Form.withStatements_withStatements f l l')

theorem KeepsForm.form? (h : KeepsForm s s' v) (hf : s.form? v = some form)
    (hlist : form.statementList? = none) : s'.form? v = some form := by
  obtain ⟨l, hl⟩ := h
  rw [hl, hf, Option.map_some]
  cases form <;> first | rfl | cases hlist

theorem KeepsForm.form?_of_variables {e : Slot} (h : KeepsForm s s' v)
    (hv : s'.form? v = some (.variableStatement e)) : s.form? v = some (.variableStatement e) := by
  obtain ⟨l, hl⟩ := h
  rw [hl] at hv
  obtain ⟨f, hf, hform⟩ := Option.map_eq_some_iff.1 hv
  rw [hf]
  cases f <;> first | exact congrArg some hform | cases hform

theorem KeepsForm.statementList? (h : KeepsForm s s' (some m))
    (hlist : s'.statementList? (some m) = some list) :
    ∃ list, s.statementList? (some m) = some list := by
  obtain ⟨l, hl⟩ := h
  obtain ⟨f', hf', hlist⟩ := statementList?_eq_some hlist
  rw [hl] at hf'
  obtain ⟨f, hf, rfl⟩ := Option.map_eq_some_iff.1 hf'
  unfold Store.statementList?
  rw [hf]
  cases f <;> first | exact ⟨_, rfl⟩ | cases hlist

theorem Resequences.keepsForm (h : Resequences n made l s s') (v : Slot) : KeepsForm s s' v := by
  cases v with
  | none => exact keepsForm_of_eq rfl
  | some m =>
    by_cases hm : m = n
    · exact ⟨l, hm ▸ h.container⟩
    · exact keepsForm_of_eq (h.form m hm)

theorem attached_of_foldlM (hs : rs.foldlM applyReplacement s = .ok s') :
    s'.attached = s.attached := by
  induction rs generalizing s with
  | nil =>
    cases hs
    rfl
  | cons r rs ih =>
    rw [List.foldlM_cons] at hs
    cases hr : s.applyReplacement r with
    | error e =>
      rw [hr] at hs
      cases hs
    | ok s₁ =>
      rw [hr] at hs
      exact (ih hs).trans (applyReplacement_attached hr).1

/-- In every list of the tree each statement has come to a group, in the place where it was. -/
structure Conserves (root : NodeId) (s s' : Store) : Prop where
  size_le : s.size ≤ s'.size
  forms : ∀ m, m < s.size → KeepsForm s s' (some m)
  attached : ∀ v, (∀ i, v = some i → i < s.size) → s'.attachedTo v = s.attachedTo v
  lists : ∀ n list, s.Below root n → s.statementList? (some n) = some list → s'.Below root n ∧
    ∃ gs, s'.statementList? (some n) = some { list with statements := gs.flatten } ∧
      Forall₂ (Comes s s') list.statements gs
  origin : ∀ n list, s'.Below root n → s'.statementList? (some n) = some list →
    s.Below root n ∧ ∃ list, s.statementList? (some n) = some list

namespace Conserves

theorem forall₂_kept (t : s.TreeAt root) (hn : s.Below root n)
    (hlist : s.statementList? (some n) = some list)
    (hforms : ∀ m, m < s.size → KeepsForm s s' (some m))
    (hattached : ∀ v, (∀ i, v = some i → i < s.size) → s'.attachedTo v = s.attachedTo v) :
    Forall₂ (Comes s s') list.statements (list.statements.map ([·])) := by
  rw [forall₂_map_right_iff, forall₂_same]
  intro v hv
  have hbelow : ∀ i, v = some i → s.Below root i := by
    rintro i rfl
    exact hn.tail (holds_of_mem_statements hlist hv)
  exact .kept (declared?_congr t hbelow hforms) (hattached v fun i e => t.lt_size (hbelow i e))

theorem refl (t : s.TreeAt root) : Conserves root s s where
  size_le := Nat.le_refl _
  forms _ _ := keepsForm_of_eq rfl
  attached _ _ := rfl
  lists n list hn hlist := by
    refine ⟨hn, list.statements.map ([·]), ?_, ?_⟩
    · rw [← flatMap_def, flatMap_singleton']
      exact hlist
    · exact forall₂_kept t hn hlist (fun _ _ => keepsForm_of_eq rfl) fun _ _ => rfl
  origin n list hn hlist := ⟨hn, list, hlist⟩

theorem trans (h : Conserves root s s') (h' : Conserves root s' s'') : Conserves root s s'' where
  size_le := h.size_le.trans h'.size_le
  forms m hm := (h.forms m hm).trans (h'.forms m (Nat.lt_of_lt_of_le hm h.size_le))
  attached v hv := (h'.attached v fun i e => Nat.lt_of_lt_of_le (hv i e) h.size_le).trans
    (h.attached v hv)
  lists n list hn hlist := by
    obtain ⟨hn', gs, hlist', hcomes⟩ := h.lists n list hn hlist
    obtain ⟨hn'', hs, hlist'', hcomes'⟩ := h'.lists n _ hn' hlist'
    obtain ⟨gs', hflat, hwhole⟩ := comes_trans hcomes hcomes'
    exact ⟨hn'', gs', by rw [hlist'', hflat], hwhole⟩
  origin n list hn hlist := by
    obtain ⟨hn', list', hlist'⟩ := h'.origin n list hn hlist
    exact h.origin n list' hn' hlist'

end Conserves

theorem mem_slots_of_holds {f : Form} {m : NodeId} (hf : s.form? (some n) = some f)
    (h : s.Holds n m) : some m ∈ f.slots := by
  rwa [holds_iff_mem_slots, slots, hf] at h

def Split (s s' : Store) (l' : List Slot) (m : NodeId) : Prop :=
  ∃ q i list, s.form? (some q) = some (.variableStatement (some i)) ∧
    s.form? (some i) = some (.declarationList list) ∧ (m = q ∨ m = i) ∧
    ∀ d ∈ list.declarations.nodes, ∃ part ∈ l', s'.declared? part = some (list.kind, [d])

theorem Split.statementList? {m : NodeId} {l' : List Slot} (h : Split s s' l' m) :
    s.statementList? (some m) = none := by
  obtain ⟨q, i, list, hq, hi, rfl | rfl, -⟩ := h
  · rw [Store.statementList?, hq]
    rfl
  · rw [Store.statementList?, hi]
    rfl

/-- Below a container everything stays but statements that were split and their lists. -/
theorem Reworks.below_or_split (h : Reworks root n n s s')
    (hlist : s.statementList? (some n) = some list) (hform : KeepsForm s s' (some n))
    (hlist' : s'.statementList? (some n) = some { list with statements := gs.flatten })
    (hcomes : Forall₂ (Comes s s') list.statements gs) (hm : s.Below n m) :
    s'.Below n m ∨ Split s s' gs.flatten m := by
  have hholds : ∀ c, some c ∈ gs.flatten → s'.Holds n c := fun c hc =>
    holds_of_mem_statements hlist' hc
  induction hm with
  | refl => exact .inl .refl
  | @tail q m hq hqm ih =>
    rcases ih with hbelow | ⟨x, i, decls, hx, hi, hqx, hparts⟩
    · by_cases hqn : q = n
      · subst hqn
        obtain ⟨f, hf, hl⟩ := statementList?_eq_some hlist
        obtain ⟨head, hslots, hwith⟩ := statementList?_slots hl
        obtain ⟨l', hl'⟩ := hform
        have hmem : some m ∈ head ++ list.statements := hslots ▸ mem_slots_of_holds hf hqm
        rcases mem_append.1 hmem with hmem | hmem
        · refine .inl (Holds.below ?_)
          rw [hf, Option.map_some] at hl'
          exact holds_of_form hl' ((hwith l').1 ▸ mem_append_left _ hmem)
        · obtain ⟨g, hg, hcome⟩ := exists_rel_of_mem hcomes.flip hmem
          have hsub : ∀ part ∈ g, part ∈ gs.flatten := fun part hpart => mem_flatten_of_mem hg hpart
          cases hcome with
          | kept => exact .inl ((hholds m (hsub _ mem_cons_self)).below)
          | split hd _ hparts =>
            obtain ⟨_, i, decls, ⟨⟩, hx, hi, rfl, rfl⟩ := declared?_eq_some hd
            refine .inr ⟨m, i, decls, hx, hi, .inl rfl, fun d hd => ?_⟩
            obtain ⟨part, hpart, hdeclared⟩ := exists_rel_of_mem hparts.flip hd
            exact ⟨part, hsub part hpart, hdeclared⟩
      · refine .inl (hbelow.tail ?_)
        rwa [Holds, children_congr (h.inner q hq hqn)]
    · rcases hqx with rfl | rfl
      · obtain rfl : m = i := Option.some.inj (mem_singleton.1 (mem_slots_of_holds hx hqm))
        exact .inr ⟨q, m, decls, hx, hi, .inr rfl, hparts⟩
      · -- a declaration of a list is below the statement that has been made for it
        obtain ⟨part, hpart, hdeclared⟩ := hparts _ (mem_slots_of_holds hi hqm)
        obtain ⟨y, j, decls', rfl, hy, hj, -, hone⟩ := declared?_eq_some hdeclared
        refine .inl (((hholds y hpart).below.tail (holds_of_form hy mem_cons_self)).tail ?_)
        have hmem : some m ∈ decls'.declarations.nodes := hone ▸ mem_cons_self
        exact holds_of_form hj hmem

end Store

namespace Rule

variable {p p' : PassState} {source : Text} {lines : LineMap}

/-- Splitting the statements of one container. -/
theorem SplitsAll.conserves (h : SplitsAll s n rs s₁) (t : s.TreeAt root) (t' : s'.TreeAt root)
    (hn : s.Below root n) (hnone : s.NoneAhead) (hs : rs.foldlM applyReplacement s₁ = .ok s') :
    Conserves root s s' := by
  obtain ⟨hworks, -, hnew⟩ := h.reworks t t' hn hs
  obtain ⟨list, hlist, hmade⟩ := h
  obtain ⟨_, _, gs, hrun, hgains, hcomes, hparent, hfold⟩ :=
    exists_groups (n := n) t (.refl s) hnone
      (fun c hc => hn.tail (holds_of_mem_statements hlist hc)) (t.nodup_statements hn hlist)
  cases hmade.symm.trans hrun
  have hlist₁ : s₁.statementList? (some n) = some list := by
    rwa [Store.statementList?, hgains.form (t.lt_size hn)]
  have hseq := resequences_of_foldlM hs hparent hlist₁
  rw [← nil_append list.statements, hfold [] (by simp), nil_append] at hseq
  have hforms : ∀ m, m < s.size → KeepsForm s s' (some m) := fun m hm =>
    (keepsForm_of_eq (hgains.form hm)).trans (hseq.keepsForm _)
  have hattached : ∀ v, s'.attachedTo v = s₁.attachedTo v :=
    attachedTo_congr (attached_of_foldlM hs)
  have hdeclared : ∀ v, s'.declared? v = s₁.declared? v := fun v =>
    declared?_of_keepsForm (hseq.keepsForm v) fun e _ => hseq.keepsForm e
  have hcomes : Forall₂ (Comes s s') list.statements gs := hcomes.imp fun _ _ h =>
    h.congr hdeclared hattached
  have hold : ∀ v, (∀ i, v = some i → i < s.size) → s'.attachedTo v = s.attachedTo v := fun v hv =>
    (hattached v).trans (hgains.attached v hv)
  -- only the list of the container itself changes; what is new holds no list
  refine ⟨hworks.size_le, hforms, hold, fun m list' hm hlist' => ?_, fun m list' hm hlist' => ?_⟩
  · have hbelow : s'.Below root m := by
      by_cases hb : s.Below n m
      · rcases hworks.below_or_split hlist (hforms n (t.lt_size hn)) (hseq.statementList? hlist₁)
          hcomes hb with hb | hsplit
        · exact hworks.below_new.trans hb
        · rw [hsplit.statementList?] at hlist'
          cases hlist'
      · exact hworks.below_of_not_below hm hb
    refine ⟨hbelow, ?_⟩
    by_cases hmn : m = n
    · subst hmn
      cases hlist.symm.trans hlist'
      exact ⟨gs, hseq.statementList? hlist₁, hcomes⟩
    · refine ⟨list'.statements.map ([·]), ?_, Conserves.forall₂_kept t hm hlist' hforms hold⟩
      rw [← flatMap_def, flatMap_singleton', Store.statementList?, hseq.form m hmn,
        hgains.form (t.lt_size hm)]
      exact hlist'
  · have hlt : m < s.size := by
      by_contra hlt
      rw [hnew m (Nat.le_of_not_lt hlt)] at hlist'
      cases hlist'
    refine ⟨?_, (hforms m hlt).statementList? hlist'⟩
    rcases hworks.below_cases hm with ⟨hm, -⟩ | hm
    · exact hm
    · rcases hworks.inside hm with (rfl | hm) | ⟨hm, -⟩
      · exact hn
      · exact absurd hlt (Nat.not_lt_of_le hm)
      · exact hn.trans hm

theorem conserves_turn {analysis : RuleName.multiVar.rule.Analysis}
    (h : Turn root lines .multiVar analysis n p p') (hnone : p.store.NoneAhead) :
    Conserves root p.store p'.store := by
  have hs : PassM.carryOut (visitStatements n p.store).2 n (visitStatements n p.store).1.edit =
      .ok p'.store := h.store
  obtain ⟨s', hs', e⟩ := RuleName.multiVar.decides analysis p.store n h.tree h.below
  cases h.store.symm.trans hs'
  cases rearranges_visitStatements p.store n with
  | keep _ hkeep =>
    rw [hkeep] at hs
    exact Except.ok.inj hs ▸ .refl h.tree
  | make _ hdraft hmake =>
    rw [hmake] at hs
    exact hdraft.conserves h.tree e.tree h.below hnone hs

theorem conserves_pass (t : p.store.TreeAt root) (hnone : p.store.NoneAhead)
    (h : PassM.Leads (multiVar.pass source lines root) p p') : Conserves root p.store p'.store := by
  suffices hboth : Conserves root p.store p'.store ∧ p'.store.NoneAhead from hboth.1
  have hturns := turns_pass (r := .multiVar) t h
  clear h
  induction hturns with
  | refl => exact ⟨.refl t, hnone⟩
  | tail _ hturn ih =>
    obtain ⟨m, hturn⟩ := hturn
    obtain ⟨hconserves, hnone⟩ := ih
    have hkept := hturn.keeps upkeep_noneAhead (.of_any ..) ⟨hnone, by simp⟩
    exact ⟨hconserves.trans (conserves_turn hturn hnone), hkept.1⟩

end Rule

variable {source : Text} {p : Program}

theorem declared?_of_parse (h : parse source = .ok p) {e : Slot}
    (hv : p.store.form? v = some (.variableStatement e)) :
    ∃ kind ds, p.store.declared? v = some (kind, ds) ∧ ds ≠ [] ∧ none ∉ ds := by
  obtain ⟨q, rfl, hq⟩ := exists_of_form? hv
  obtain ⟨i, rfl, _, hi, list, rfl, hne, hnone⟩ :=
    ((grows_of_parse h).1.forest.shaped q _ hq).declaring e rfl
  exact ⟨_, _, declared?_of_forms hq hi, hne, hnone⟩

/-- A pass that splits declarations conserves them. Each list of statements is what it was with a
group in the place of every statement, and declares the same in the same order; the nodes of the
declarations, and all others that list no statements, stay as they are. In the end every variable
statement in a list has one declaration. -/
theorem declarations_pass (h : parse source = .ok p) (lines : LineMap) : ∃ p',
    PassM.Leads (Rule.multiVar.pass source lines p.root) ⟨p.store, []⟩ p' ∧
      (∀ n list, p.store.Below p.root n → p.store.statementList? (some n) = some list →
        p'.store.Below p.root n ∧ ∃ groups,
          p'.store.statementList? (some n) = some { list with statements := groups.flatten } ∧
          Forall₂ (Comes p.store p'.store) list.statements groups ∧
          groups.flatten.flatMap p'.store.items = list.statements.flatMap p.store.items) ∧
      (∀ m form, p.store.form? (some m) = some form → form.statementList? = none →
        p'.store.form? (some m) = some form) ∧
      ∀ n list, p'.store.Below p.root n → p'.store.statementList? (some n) = some list →
        p.store.Below p.root n ∧ (∃ list, p.store.statementList? (some n) = some list) ∧
        ∀ v ∈ list.statements, ∀ e, p'.store.form? v = some (.variableStatement e) →
          ∃ kind d, p'.store.declared? v = some (kind, [some d]) := by
  have t := treeAt_of_parse h
  obtain ⟨p', hleads, hrest⟩ := Rule.exists_atRest h (r := .multiVar) (by decide) lines
  have hconserves : Conserves p.root p.store p'.store :=
    Rule.conserves_pass (p := ⟨p.store, []⟩) t (noneAhead_of_parse h) hleads
  refine ⟨p', hleads, fun n list hn hlist => ?_, fun m form hm hlist => ?_,
    fun n list hn hlist => ?_⟩
  · obtain ⟨hn', groups, hlist', hcomes⟩ := hconserves.lists n list hn hlist
    exact ⟨hn', groups, hlist', hcomes, items_flatten hcomes⟩
  · exact (hconserves.forms m (lt_size_of_form? hm)).form? hm hlist
  · -- a statement that still has several declarators would be a site, and the rule is at rest
    obtain ⟨hn₀, list₀, hlist₀⟩ := hconserves.origin n list hn hlist
    refine ⟨hn₀, ⟨list₀, hlist₀⟩, fun v hv e hve => ?_⟩
    obtain ⟨-, groups, hlist', hcomes⟩ := hconserves.lists n list₀ hn₀ hlist₀
    cases hlist.symm.trans hlist'
    obtain ⟨g, hg, hv⟩ := mem_flatten.1 hv
    obtain ⟨w, hw, hcome⟩ := exists_rel_of_mem hcomes hg
    cases hcome with
    | kept hsame _ =>
      obtain rfl := mem_singleton.1 hv
      obtain ⟨q, rfl, -⟩ := exists_of_form? hve
      have hq : p.store.Below p.root q := hn₀.tail (holds_of_mem_statements hlist₀ hw)
      obtain ⟨kind, ds, hd, hne, hnone⟩ :=
        declared?_of_parse h ((hconserves.forms q (t.lt_size hq)).form?_of_variables hve)
      obtain ⟨notices, hdeclines⟩ := hrest.declines n hn
      have hacts : ActsAt (fun _ => false) p.root Rule.SplitSite (fun _ => True)
          Rule.visitStatements := Rule.actsAt_visitStatements
      have hfew : ds.length < 2 := by
        by_contra hmany
        have hseveral : Rule.severalDeclarations? p'.store (some q) = some (kind, ds) :=
          Rule.severalDeclarations?_eq_some.2 ⟨hsame.trans hd, Nat.le_of_not_lt hmany⟩
        refine (hacts.not_site hdeclines).1 ⟨_, hlist, some q, ?_, ?_⟩
        · exact mem_flatten.2 ⟨_, hg, hv⟩
        · rw [hseveral]
          rfl
      obtain ⟨d, rfl⟩ := length_eq_one_iff.1 (Nat.le_antisymm (Nat.le_of_lt_succ hfew)
        (length_pos_of_ne_nil hne))
      obtain ⟨i, rfl⟩ := Option.ne_none_iff_exists'.1 fun e => hnone (e ▸ mem_cons_self)
      exact ⟨kind, i, hsame.trans hd⟩
    | split hd _ hparts =>
      obtain ⟨d, hmem, hone⟩ := exists_rel_of_mem hparts hv
      obtain ⟨q, i, decls, rfl, hq, -⟩ := declared?_eq_some hd
      obtain ⟨_, _, hd', -, hnone⟩ := declared?_of_parse h hq
      cases hd.symm.trans hd'
      obtain ⟨c, rfl⟩ := Option.ne_none_iff_exists'.1 fun e => hnone (e ▸ hmem)
      exact ⟨_, c, hone⟩

/-- The first statement is split, with a comment before its first part and one after its last. -/
theorem declarations_pass_comments :
    let source := "/* a */ var x = 1, y; // b\nf(function () \x7b const u = 1, v = 2; \x7d);".toList
    ∃ p p', parse source = .ok p ∧
      PassM.Leads (Rule.multiVar.pass source (.ofText source) p.root) ⟨p.store, []⟩ p' ∧
      p.store.leadingComments (some 6) = [0] ∧ p.store.trailingComments (some 6) = [1] ∧
      p'.store.leadingComments (some 26) = [0] ∧ p'.store.trailingComments (some 28) = [1] ∧
      [some 26, some 28, some 19].flatMap p'.store.items =
        [.declared .varKind (some 2), .declared .varKind (some 4), .other (some 19)] := by
  intro source
  have hrun : ∃ p ∈ (parse source).toOption, p.root = 20 ∧
      p.store.statementList? (some 20) = some (.ofParsed [some 6, some 19] 0 66) ∧
      [some 6, some 19].flatMap p.store.items =
        [.declared .varKind (some 2), .declared .varKind (some 4), .other (some 19)] ∧
      p.store.leadingComments (some 6) = [0] ∧ p.store.trailingComments (some 6) = [1] := by
    decide +kernel
  have hfinal : ∀ p, parse source = .ok p →
      let final := ((Rule.multiVar.pass source (.ofText source) p.root).run.run ⟨p.store, []⟩).2
      (final.store.statementList? (some 20)).map (·.statements) = some [some 26, some 28, some 19] ∧
        final.store.leadingComments (some 26) = [0] ∧ final.store.trailingComments (some 28) = [1] :=
    of_parse (by decide +kernel)
  obtain ⟨p, hp, hroot, hlist, hitems, hcomments⟩ := exists_parse hrun
  obtain ⟨p', hleads, hlists, -⟩ := declarations_pass hp (.ofText source)
  obtain ⟨hstatements, hcomments'⟩ := hfinal p hp
  rw [show (Rule.multiVar.pass source (.ofText source) p.root).run.run _ = _ from hleads]
    at hstatements hcomments'
  obtain ⟨-, groups, hlist', -, hsame⟩ := hlists 20 _ (hroot ▸ .refl) hlist
  rw [hlist', Option.map_some, Option.some.injEq] at hstatements
  change groups.flatten = _ at hstatements
  rw [hstatements] at hsame
  exact ⟨p, p', hp, hleads, hcomments.1, hcomments.2, hcomments'.1, hcomments'.2,
    hsame.trans hitems⟩

end Modernizer
