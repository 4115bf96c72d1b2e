import Modernizer.Proofs.Parser.PlacedProgram
import Modernizer.Proofs.Scope.Meaning
import Modernizer.Proofs.Scope.Verdict

/-! What decides a verdict. On the way up from a list of declarations is where a `let` in its place
would be visible, and whether a loop of the same function has the list in it. The references that are
resolved to a variable are those that mean it (`mem_referencesTo_iff`), and the functions that are looked
at are those that are declared beside it and have such a reference inside (`reader?_eq_some_iff`). So the
verdict on a list tells whether its names could be declared with `let` or `const` (`verdict_iff`). -/

namespace Modernizer

def Form.isScope : Form → Bool
  | program _ => true
  | form => form.isFunctionLike

theorem Form.isLoop_of_isScope {form : Form} (h : form.isScope = true) : form.isLoop = false := by
  cases form <;> first | rfl | cases h

namespace Store

/-- In the body, condition or increment of a loop of the same function. -/
inductive InLoop (s : Store) : NodeId → Prop where
  | part {p n form} : s.form? (some p) = some form → s.Holds p n → form.isLoop = true →
      Scope.isLoopHead s (some p) (some n) = false → InLoop s n
  | within {p n form} : s.form? (some p) = some form → s.Holds p n → form.isScope = false →
      InLoop s p → InLoop s n

variable {s : Store} {c i l n p : NodeId}

theorem isInLoopBody_go_cons {form : Form} (hform : s.form? (some p) = some form) (n : Slot)
    (rest : List NodeId) : Scope.isInLoopBody.go s n (p :: rest) =
      if form.isScope then false
      else if form.isLoop && !Scope.isLoopHead s (some p) n then true
      else Scope.isInLoopBody.go s (some p) rest := by
  rw [Scope.isInLoopBody.go, hform]
  cases form <;> rfl

namespace Forest

variable (h : s.Forest)

include h

theorem inLoop_iff {form : Form} (hform : s.form? (some p) = some form)
    (hp : s.Holds p n) : s.InLoop n ↔
      (form.isLoop = true ∧ Scope.isLoopHead s (some p) (some n) = false) ∨
        form.isScope = false ∧ s.InLoop p := by
  constructor
  · rintro (⟨hf, hq, hloop, hhead⟩ | ⟨hf, hq, hscope, hin⟩)
    all_goals
      obtain rfl := h.holder_unique hq hp
      rw [hform] at hf
      cases hf
    · exact .inl ⟨hloop, hhead⟩
    · exact .inr ⟨hscope, hin⟩
  · rintro (⟨hloop, hhead⟩ | ⟨hscope, hin⟩)
    · exact .part hform hp hloop hhead
    · exact .within hform hp hscope hin

theorem isInLoopBody_iff (hl : l < s.size) : Scope.isInLoopBody s (some l) = true ↔ s.InLoop l := by
  have hgo : ∀ fuel n, n < s.size → s.size ≤ fuel + n →
      (Scope.isInLoopBody.go s (some n) (lineage.go s fuel (s.parent (some n))) = true ↔
        s.InLoop n) := by
    intro fuel
    induction fuel with
    | zero => exact fun n hn hfuel => absurd hn (Nat.not_lt_of_le (by omega))
    | succ fuel ih =>
      intro n hn hfuel
      cases hparent : s.parent (some n) with
      | none =>
        have hfree : ¬ s.InLoop n := by
          rintro (⟨-, hp, -⟩ | ⟨-, hp, -⟩) <;>
          · rw [(h.linked _ n).1 hp] at hparent
            cases hparent
        exact iff_of_false Bool.false_ne_true hfree
      | some p =>
        have hp := (h.linked p n).2 hparent
        obtain ⟨hlt, hps⟩ : (n : Nat) < p ∧ p < s.size := h.holder_lt_size hp
        obtain ⟨node, hnode⟩ := exists_get?_of_lt hps
        have hform : s.form? (some p) = some node.form := by rw [form?, hnode, Option.map_some]
        rw [lineage.go, isInLoopBody_go_cons hform, h.inLoop_iff hform hp, ← ih p hps (by omega)]
        -- no scope is a loop, so the two questions are asked apart
        cases hscope : node.form.isScope with
        | true => simp [Form.isLoop_of_isScope hscope]
        | false =>
          cases node.form.isLoop <;> cases Scope.isLoopHead s (some p) (some n) <;> simp
  exact hgo _ l hl (by omega)

end Forest
end Store

namespace Store

def endOf (s : Store) (n : NodeId) : Nat := ((s.get? (some n)).map (·.stop)).getD 0

variable (s : Store) (root : NodeId)

/-- The function declaration binds its name in the function. -/
def Hoists (f g : NodeId) (y : String) : Prop :=
  s.Owns root f g ∧ ∃ form, s.form? (some g) = some (.functionDeclaration form) ∧
    s.identifierName? form.name = some y

def Initialized (d : NodeId) : Prop :=
  ∃ target e, s.form? (some d) = some (.declaration target (some e))

def HeadsLoop (l : NodeId) : Prop :=
  ∃ c, s.Holds c l ∧ Scope.isLoopHead s (some c) (some l) = true

/-- A `let` in place of the declared `var` would mean the same: it is the only declaration of the
name, no reference is out of its sight or before its end, also by way of a function that is
mentioned before, and no turn of a loop sees what another one has left. -/
structure Narrowable (f l d : NodeId) (x : String) : Prop where
  single : ∃! n, s.Occurs root f n x
  visible : ∃ c, s.HeldBy l c ∧ ∀ r, s.RefersTo root f x r → s.Below c r
  after : ∀ r, s.RefersTo root f x r → s.endOf d ≤ s.posOf (some r)
  uncalled : ∀ r g y r', s.RefersTo root f x r → s.Hoists root f g y → s.StandsIn r g →
    s.RefersTo root f y r' → s.endOf d ≤ s.posOf (some r')
  initialized : s.InLoop l → s.Initialized d
  uncaptured : s.InLoop l ∨ s.HeadsLoop l → ∀ r, s.RefersTo root f x r → s.Owns root f r

/-- The declared name has a value from the start and is not assigned. -/
structure Constant (f l d : NodeId) (x : String) : Prop where
  initialized : s.Initialized d ∨ Scope.isForEachHead s (some l) = true
  unwritten : ∀ r, s.RefersTo root f x r → ¬ s.Writes r

variable {s root} {f g g' l r : NodeId} {x y : String}

theorem Owns.exists_occurs {d target : NodeId} (ho : s.Owns root f l)
    (hd : s.Declarator l .varKind d target) (hx : s.Names target x) :
    ∃ n, s.Occurs root f n x := by
  obtain ⟨list, initializer, hlist, -, hmem, hform⟩ := hd
  obtain ⟨n, hpattern, hn⟩ := hx
  have htarget : some target ∈ s.outward (.declarationList list) :=
    List.mem_map.2 ⟨some d, hmem, by rw [declaredTarget, hform]⟩
  exact ⟨n, hn, target, .outward ho hlist htarget, hpattern⟩

theorem TreeAt.hoisted_unique (t : s.TreeAt root) (h : s.Forest) (hf : s.Owns root f g)
    (hf' : s.Owns root f g') (hr : s.StandsIn r g) (hr' : s.StandsIn r g') : g = g' := by
  have hgo : ∀ {g g'}, s.Owns root f g → s.Owns root f g' → s.StandsIn r g → s.StandsIn r g' →
      s.Below g g' → g = g' := by
    intro g g' hf hf' hr hr' hle
    by_contra hne
    have hin := t.standsIn_between hf.below_root hr hle (Ne.symm hne) hr'.below
    obtain rfl : f = g := t.below_antisymm hf.isBelow.1 hf.isBelow.2
      (t.below_owner hf.below_root hin hf')
    obtain rfl := t.not_owns_self hf
    obtain ⟨list, hroot⟩ := t.root_form
    obtain ⟨form, e, hform, he, -⟩ := hr
    rw [hroot] at hform
    cases hform
    exact List.not_mem_nil he
  have hunique : Relator.RightUnique (Function.swap s.Holds) := fun _ _ _ hp hq =>
    h.holder_unique hp hq
  have hup := Relation.reflTransGen_swap.2 hr.below
  have hup' := Relation.reflTransGen_swap.2 hr'.below
  rcases hup.total_of_right_unique hunique hup' with hle | hle
  · exact (hgo hf' hf hr' hr (Relation.reflTransGen_swap.1 hle)).symm
  · exact hgo hf hf' hr hr' (Relation.reflTransGen_swap.1 hle)

theorem Forest.headsLoop_iff (h : s.Forest) :
    Scope.isLoopHead s (s.parent (some l)) (some l) = true ↔ s.HeadsLoop l := by
  constructor
  · intro hhead
    cases hparent : s.parent (some l) with
    | none => simp [hparent, Scope.isLoopHead, form?] at hhead
    | some c => exact ⟨c, (h.linked c l).2 hparent, hparent ▸ hhead⟩
  · rintro ⟨c, hc, hhead⟩
    rwa [(h.linked c l).1 hc]

end Store

namespace Scope

open Store

variable {s : Store} {b : Bindings} {root d f g l o r : NodeId} {i j k pos : Nat} {x y : String}
  {initializer : Slot} {v : VarBinding} {ref : Reference}

section table

variable (hroot : ∃ list, s.form? (some root) = some (.program list)) (hb : Sound s root b)

include hroot hb

theorem variable_mem_table_iff (hk : b.Numbers root f k) (hv : EntersVar s root b l f k x i)
    (hj : b.Numbers root g j) : (y, .variable_ i) ∈ b.table j ↔ g = f ∧ y = x := by
  obtain ⟨-, d, t, initializer, -, -, -, hi⟩ := hv
  have hsame : ∀ {m o j y}, EntersVar s root b m o j y i → j = k ∧ y = x := by
    rintro m o j y ⟨-, d', -, initializer', -, -, -, hi'⟩
    have heq := Option.some.inj (hi'.symm.trans hi)
    exact ⟨congrArg VarBinding.scope heq, congrArg VarBinding.name heq⟩
  constructor
  · intro hy
    obtain ⟨m, henters | ⟨i', heq, henters⟩⟩ := hb.entries g j y _ hj hy
    · cases henters
    · cases heq
      obtain ⟨rfl, rfl⟩ := hsame henters
      exact ⟨hb.owner_unique hj hk, rfl⟩
  · rintro ⟨rfl, rfl⟩
    obtain ⟨o, m, k', hk', henters, hin⟩ := hb.vars i _ hi
    obtain ⟨rfl, -⟩ := hsame henters
    exact hb.numbers_unique hroot hj hk ▸ hin

theorem function_mem_table_iff (hrecorded : ∀ m, s.Below root m → Recorded s root m b)
    (hj : b.Numbers root f j) : (y, .function g) ∈ b.table j ↔ s.Hoists root f g y := by
  constructor
  · intro hy
    obtain ⟨m, henters | ⟨i', heq, -⟩⟩ := hb.entries f j y _ hj hy
    · cases henters with
      | function ho hf hx => exact ⟨ho, _, hf, hx⟩
    · cases heq
  · rintro ⟨ho, form, hform, hy⟩
    obtain ⟨k, hk, hin⟩ := (hrecorded g ho.below_root).entered f y _ (.function ho hform hy)
    exact hb.numbers_unique hroot hj hk ▸ hin

end table

theorem Verdict.foldl_meet_eq_or_mem (v : Verdict) (vs : List Verdict) :
    vs.foldl Verdict.meet v = v ∨ vs.foldl Verdict.meet v ∈ vs := by
  induction vs generalizing v with
  | nil => exact .inl rfl
  | cons w vs ih =>
    have hmeet : v.meet w = v ∨ v.meet w = w := by cases v <;> cases w <;> decide
    rcases ih (v.meet w) with heq | hmem
    · rcases hmeet with hv | hw
      · exact .inl (heq.trans hv)
      · exact .inr (List.mem_cons.2 (.inl (heq.trans hw)))
    · exact .inr (List.mem_cons_of_mem _ hmem)

theorem mem_of_verdict? {verdicts : List (NodeId × Verdict)} {w : Verdict}
    (hw : verdict? verdicts l = some w) : (l, w) ∈ verdicts := by
  have hmem : w ∈ (verdicts.filter (·.1 == l)).map (·.2) := by
    unfold verdict? at hw
    split at hw
    · cases hw
    · rename_i v vs hlist
      obtain rfl := Option.some.inj hw
      rw [hlist, List.mem_cons]
      exact Verdict.foldl_meet_eq_or_mem v vs
  obtain ⟨⟨l', v⟩, hin, rfl⟩ := List.mem_map.1 hmem
  obtain ⟨hin, hl⟩ := List.mem_filter.1 hin
  exact beq_iff_eq.1 hl ▸ hin

theorem exists_verdict? {verdicts : List (NodeId × Verdict)} {v : Verdict}
    (hv : (l, v) ∈ verdicts) : ∃ w, verdict? verdicts l = some w := by
  have hmem : v ∈ (verdicts.filter (·.1 == l)).map (·.2) :=
    List.mem_map.2 ⟨(l, v), List.mem_filter.2 ⟨hv, beq_self_eq_true l⟩, rfl⟩
  unfold verdict?
  split
  · rename_i hnil
    rw [hnil] at hmem
    exact (List.not_mem_nil hmem).elim
  · exact ⟨_, rfl⟩

namespace Analysis

variable {p : Program} (t : p.store.TreeAt p.root) (h : p.store.Forest)

theorem mem_resolved {R : Resolved} : R ∈ (ofProgram p).resolved ↔
    ∃ ref ∈ programReferences p.store (Scope.bindings p.store p.root) p.root,
      R = ⟨ref, (Scope.bindings p.store p.root).lookup ref.name ref.scope⟩ := by
  simp [ofProgram, eq_comm]

theorem isBefore_iff {a : Analysis} (h : a.store.Forest) :
    a.isBefore ref pos = true ↔ a.store.posOf (some ref.node) < pos := by
  rw [isBefore, h.parsed, Bool.not_false, Bool.true_and, decide_eq_true_iff]

include t h

theorem function_mem_lookup_iff
    (hlocated : Located p.store (Scope.bindings p.store p.root) p.root ref) :
    .function g ∈ (Scope.bindings p.store p.root).lookup ref.name ref.scope ↔
      ∃ f y, p.store.Hoists p.root f g y ∧ p.store.RefersTo p.root f y ref.node := by
  obtain ⟨hb, hrecorded⟩ := sound_bindings t h
  obtain ⟨o, ho, hk⟩ := hlocated.scope
  rw [mem_lookup_iff t h ho hk]
  constructor
  · rintro ⟨f, j, hmeans, hj, hin⟩
    exact ⟨f, ref.name, (function_mem_table_iff t.root_form hb hrecorded hj).1 hin,
      hlocated.mentions, hmeans⟩
  · rintro ⟨f, y, hg, hr⟩
    obtain ⟨hground, form, hform, hy⟩ := hg
    obtain ⟨j, hj, hin⟩ := (hrecorded g hground.below_root).entered f y _ (.function hground hform hy)
    obtain rfl : y = ref.name := by
      have hname := hr.mentions.form
      rw [hlocated.mentions.form] at hname
      cases hname
      rfl
    exact ⟨f, j, hr.means, hj, hin⟩

theorem isCalledBefore_iff : (ofProgram p).isCalledBefore g pos = true ↔ ∃ f y r,
    p.store.Hoists p.root f g y ∧ p.store.RefersTo p.root f y r ∧ p.store.posOf (some r) < pos := by
  have hbefore : ∀ ref : Reference, (ofProgram p).isBefore ref pos = true ↔
      p.store.posOf (some ref.node) < pos := fun _ => isBefore_iff h
  unfold isCalledBefore
  rw [List.any_eq_true]
  constructor
  · rintro ⟨R, hR, hcalls⟩
    obtain ⟨ref, href, rfl⟩ := mem_resolved.1 hR
    obtain ⟨hin, hlt⟩ := Bool.and_eq_true_iff.1 hcalls
    obtain ⟨f, y, hg, hr⟩ := (function_mem_lookup_iff t h (located_of_mem t h href)).1
      (List.contains_iff_mem.1 hin)
    exact ⟨f, y, ref.node, hg, hr, (hbefore ref).1 hlt⟩
  · rintro ⟨f, y, r, hg, hr, hlt⟩
    obtain ⟨ref, href, rfl⟩ := exists_of_mentions t h hr.mentions
    have hin := (function_mem_lookup_iff t h (located_of_mem t h href)).2 ⟨f, y, hg, hr⟩
    exact ⟨_, mem_resolved.2 ⟨ref, href, rfl⟩,
      Bool.and_eq_true_iff.2 ⟨List.contains_iff_mem.2 hin, (hbefore ref).2 hlt⟩⟩

/-- The function that is looked at is the one that is declared beside the variable and has the
reference inside. -/
theorem reader?_eq_some_iff (hlocated : Located p.store (Scope.bindings p.store p.root) p.root ref)
    (hk : (Scope.bindings p.store p.root).Numbers p.root f v.scope) :
    reader? v ref = some g ↔ p.store.Owns p.root f g ∧ p.store.StandsIn ref.node g ∧
      ∃ form, p.store.form? (some g) = some (.functionDeclaration form) := by
  have hb := (sound_bindings t h).1
  have henclosing : ∀ g, (g, v.scope) ∈ ref.enclosing ↔ p.store.Owns p.root f g ∧
      p.store.StandsIn ref.node g ∧
      ∃ form, p.store.form? (some g) = some (.functionDeclaration form) := by
    intro g
    rw [hlocated.enclosing]
    constructor
    · rintro ⟨hform, hin, o, ho, hj⟩
      exact ⟨hb.owner_unique hj hk ▸ ho, hin, hform⟩
    · rintro ⟨ho, hin, hform⟩
      exact ⟨hform, hin, f, ho, hk⟩
  rw [← henclosing]
  unfold reader?
  constructor
  · intro hg
    obtain ⟨⟨g', j⟩, hfind, rfl⟩ := Option.map_eq_some_iff.1 hg
    obtain rfl : j = v.scope := by simpa using List.find?_some hfind
    exact List.mem_of_find?_eq_some hfind
  · intro hg
    cases hfind : ref.enclosing.find? (·.2 == v.scope) with
    | none => simpa using List.find?_eq_none.1 hfind _ hg
    | some found =>
      obtain ⟨g', j⟩ := found
      obtain rfl : j = v.scope := by simpa using List.find?_some hfind
      obtain ⟨ho', hin', -⟩ := (henclosing g').1 (List.mem_of_find?_eq_some hfind)
      obtain ⟨ho, hin, -⟩ := (henclosing g).1 hg
      exact congrArg some (t.hoisted_unique h ho' ho hin' hin)

theorem isRedeclared_iff (hk : (Scope.bindings p.store p.root).Numbers p.root f v.scope) :
    (ofProgram p).isRedeclared v = true ↔ ∃ n n', p.store.Occurs p.root f n v.name ∧
      p.store.Occurs p.root f n' v.name ∧ n ≠ n' := by
  have hlt := (sound_bindings t h).1.lt_size hk
  rw [← (counts_of_numbers t h hk).one_lt_iff]
  simp only [isRedeclared, ofProgram, Bindings.names, Bindings.table, Array.getElem?_eq_getElem hlt,
    Option.any_some, Option.map_some, Option.getD_some, decide_eq_true_eq, List.count_eq_countP,
    List.countP_map, ← List.countP_eq_length_filter]
  rfl

section variable_

variable (hk : (Scope.bindings p.store p.root).Numbers p.root f k)
  (hv : EntersVar p.store p.root (Scope.bindings p.store p.root) l f k x i)

include hk hv

/-- The references to a variable are those that mean its name in its function. -/
theorem mem_referencesTo_iff : ref ∈ (ofProgram p).referencesTo i ↔
    ref ∈ programReferences p.store (Scope.bindings p.store p.root) p.root ∧
      p.store.RefersTo p.root f x ref.node := by
  have hb := (sound_bindings t h).1
  have hlookup : ∀ ref ∈ programReferences p.store (Scope.bindings p.store p.root) p.root,
      .variable_ i ∈ (Scope.bindings p.store p.root).lookup ref.name ref.scope ↔
        p.store.RefersTo p.root f x ref.node := by
    intro ref href
    have hlocated := located_of_mem t h href
    obtain ⟨o, ho, hj⟩ := hlocated.scope
    rw [mem_lookup_iff t h ho hj]
    constructor
    · rintro ⟨g, j, hmeans, hj, hin⟩
      obtain ⟨rfl, hname⟩ := (variable_mem_table_iff t.root_form hb hk hv hj).1 hin
      exact hname ▸ ⟨hlocated.mentions, hmeans⟩
    · intro hr
      obtain rfl : x = ref.name := by
        have hname := hr.mentions.form
        rw [hlocated.mentions.form] at hname
        cases hname
        rfl
      exact ⟨f, k, hr.means, hk, (variable_mem_table_iff t.root_form hb hk hv hk).2 ⟨rfl, rfl⟩⟩
  constructor
  · intro href
    obtain ⟨R, hR, rfl⟩ := List.mem_map.1 href
    obtain ⟨hR, hin⟩ := List.mem_filter.1 hR
    obtain ⟨ref, hmem, rfl⟩ := mem_resolved.1 hR
    exact ⟨hmem, (hlookup ref hmem).1 (List.contains_iff_mem.1 hin)⟩
  · rintro ⟨href, hr⟩
    exact mem_referencesTo href ((hlookup ref href).2 hr)

theorem forall_referencesTo {P : Reference → Prop} {Q : NodeId → Prop}
    (hPQ : ∀ ref ∈ (ofProgram p).referencesTo i, P ref ↔ Q ref.node) :
    (∀ ref ∈ (ofProgram p).referencesTo i, P ref) ↔ ∀ r, p.store.RefersTo p.root f x r → Q r := by
  constructor
  · intro hall r hr
    obtain ⟨ref, href, rfl⟩ := exists_of_mentions t h hr.mentions
    have hto := (mem_referencesTo_iff t h hk hv).2 ⟨href, hr⟩
    exact (hPQ ref hto).1 (hall ref hto)
  · intro hall ref hto
    exact (hPQ ref hto).2 (hall ref.node ((mem_referencesTo_iff t h hk hv).1 hto).2)

end variable_

omit t h in
theorem nameVerdict_safe_iff {a : Analysis} : a.nameVerdict i v ≠ .unsafe_ ↔
    v.block ≠ none ∧ (v.inLoopBody = true → v.hasInitializer = true) ∧
      (∀ ref ∈ a.referencesTo i, a.breaks v ref = false) ∧
      (∀ ref ∈ a.referencesTo i, ∀ g, reader? v ref = some g →
        a.isCalledBefore g v.declaredAt = false) ∧ a.isRedeclared v = false := by
  have hcalled : ((a.referencesTo i).filterMap (reader? v)).any
      (a.isCalledBefore · v.declaredAt) = false ↔ ∀ ref ∈ a.referencesTo i, ∀ g,
        reader? v ref = some g → a.isCalledBefore g v.declaredAt = false := by
    simp only [List.any_eq_false, List.mem_filterMap, Bool.not_eq_true]
    exact ⟨fun hall ref href g hg => hall g ⟨ref, href, hg⟩,
      fun hall g ⟨ref, href, hg⟩ => hall ref href g hg⟩
  have hflags : a.nameVerdict i v ≠ .unsafe_ ↔ (v.block.isNone ||
      (v.inLoopBody && !v.hasInitializer) || (a.referencesTo i).any (a.breaks v) ||
      ((a.referencesTo i).filterMap (reader? v)).any (a.isCalledBefore · v.declaredAt) ||
      a.isRedeclared v) = false := by
    unfold nameVerdict
    dsimp only
    split
    · rename_i hbad
      exact iff_of_false (fun hne => hne rfl) (by rw [hbad]; decide)
    · rename_i hsafe
      refine iff_of_true ?_ (Bool.not_eq_true _ ▸ hsafe)
      split <;> decide
  rw [hflags]
  simp only [Bool.or_eq_false_iff, hcalled, and_assoc]
  refine and_congr ?_ (and_congr ?_ (and_congr (by simp) Iff.rfl))
  · cases v.block <;> simp
  cases v.inLoopBody <;> cases v.hasInitializer <;> decide

omit t h in
theorem nameVerdict_eq_const {a : Analysis} (hsafe : a.nameVerdict i v ≠ .unsafe_) :
    a.nameVerdict i v = .constSafe ↔
      v.initialized = true ∧ ∀ ref ∈ a.referencesTo i, ref.isWrite = false := by
  unfold nameVerdict at hsafe ⊢
  dsimp only at hsafe ⊢
  split at hsafe
  · exact (hsafe rfl).elim
  · rename_i hflags
    rw [if_neg hflags]
    by_cases hconst : (v.initialized && !(a.referencesTo i).any (·.isWrite)) = true
    · rw [if_pos hconst]
      simpa using hconst
    · rw [if_neg hconst]
      refine iff_of_false (by decide) fun hall => hconst ?_
      simpa using hall

section declared

variable {target : NodeId} (hk : (Scope.bindings p.store p.root).Numbers p.root f k)
  (ho : p.store.Owns p.root f l) (hd : p.store.Declarator l .varKind d target)
  (hx : p.store.Names target x)
  (hform : p.store.form? (some d) = some (.declaration (some target) initializer))
  (hi : (Scope.bindings p.store p.root).vars[i]? = some (varBinding p.store l d x initializer k))

omit t h in
include hform in
theorem initialized_iff : initializer.isSome = true ↔ p.store.Initialized d := by
  constructor
  · intro hsome
    obtain ⟨e, rfl⟩ := Option.isSome_iff_exists.1 hsome
    exact ⟨_, e, hform⟩
  · rintro ⟨_, e, hform'⟩
    rw [hform] at hform'
    cases hform'
    rfl

include hk in
theorem scope_eq_iff (hlocated : Located p.store (Scope.bindings p.store p.root) p.root ref) :
    ref.scope = k ↔ p.store.Owns p.root f ref.node := by
  have hb := (sound_bindings t h).1
  obtain ⟨o, ho, hj⟩ := hlocated.scope
  constructor
  · intro heq
    exact hb.owner_unique hj (heq ▸ hk) ▸ ho
  · intro hf
    obtain rfl := t.nearest_unique ho hf
    exact hb.numbers_unique t.root_form hj hk

include hk in
theorem breaks_eq_false_iff (hblock : v.block = some c) (hscope : v.scope = k)
    (hlocated : Located p.store (Scope.bindings p.store p.root) p.root ref) :
    (ofProgram p).breaks v ref = false ↔ p.store.Below c ref.node ∧
      v.declaredAt ≤ p.store.posOf (some ref.node) ∧
      (v.inLoopBody = true ∨ v.inLoopHead = true → p.store.Owns p.root f ref.node) := by
  have hlt := t.lt_size hlocated.mentions.below
  have hinside : p.store.isAncestorOrSelf (some c) (some ref.node) = true ↔
      p.store.Below c ref.node := by
    simp [isAncestorOrSelf, h.mem_lineage_iff hlt]
  have hafter : (ofProgram p).isBefore ref v.declaredAt = false ↔
      v.declaredAt ≤ p.store.posOf (some ref.node) := by
    rw [← Bool.not_eq_true, isBefore_iff h, Nat.not_lt]
    rfl
  rw [← scope_eq_iff t h hk hlocated, ← hinside, ← hafter, ← hscope]
  simp only [breaks, hblock, Option.elim_some, Bool.or_eq_false_iff, Bool.not_eq_false', and_assoc]
  refine and_congr_right fun _ => and_congr_right fun _ => ?_
  by_cases hsame : ref.scope = v.scope <;> simp [hsame]

include hk in
theorem uncalled_iff (hlocated : Located p.store (Scope.bindings p.store p.root) p.root ref)
    (hscope : v.scope = k) :
    (∀ g, reader? v ref = some g → (ofProgram p).isCalledBefore g v.declaredAt = false) ↔
      ∀ g y r, p.store.Hoists p.root f g y → p.store.StandsIn ref.node g →
        p.store.RefersTo p.root f y r → v.declaredAt ≤ p.store.posOf (some r) := by
  have hreader := fun g => reader?_eq_some_iff (g := g) t h hlocated (hscope ▸ hk)
  constructor
  · intro hall g y r hg hin hr
    obtain ⟨hground, form, hform, -⟩ := id hg
    have hnot := hall g ((hreader g).2 ⟨hground, hin, form, hform⟩)
    refine Nat.not_lt.1 fun hlt => ?_
    rw [(isCalledBefore_iff t h).2 ⟨f, y, r, hg, hr, hlt⟩] at hnot
    cases hnot
  · intro hall g hg
    obtain ⟨hground, hin, -⟩ := (hreader g).1 hg
    refine Bool.eq_false_iff.2 fun hcalled => ?_
    obtain ⟨f', y, r, hg', hr, hlt⟩ := (isCalledBefore_iff t h).1 hcalled
    obtain rfl := t.nearest_unique hground hg'.1
    exact Nat.not_lt.2 (hall g y r hg' hin hr) hlt

include hk ho hd hx hform hi

theorem nameVerdict_ne_iff :
    (ofProgram p).nameVerdict i (varBinding p.store l d x initializer k) ≠ .unsafe_ ↔
      p.store.Narrowable p.root f l d x := by
  have hv : EntersVar p.store p.root (Scope.bindings p.store p.root) l f k x i :=
    ⟨ho, d, target, initializer, hd, hx, hform, hi⟩
  let v := varBinding p.store l d x initializer k
  have hlocated : ∀ ref ∈ (ofProgram p).referencesTo i,
      Located p.store (Scope.bindings p.store p.root) p.root ref := fun ref href =>
    located_of_mem t h ((mem_referencesTo_iff t h hk hv).1 href).1
  have hinitialized : v.hasInitializer = true ↔ p.store.Initialized d := initialized_iff hform
  have hblock : ∀ c, v.block = some c ↔ p.store.HeldBy l c := fun c => h.declaringBlock?_iff
  have hloop : v.inLoopBody = true ↔ p.store.InLoop l := h.isInLoopBody_iff (t.lt_size ho.below_root)
  have hhead : v.inLoopHead = true ↔ p.store.HeadsLoop l := h.headsLoop_iff
  have hbreaks : ∀ c, v.block = some c →
      ((∀ ref ∈ (ofProgram p).referencesTo i, (ofProgram p).breaks v ref = false) ↔
        ∀ r, p.store.RefersTo p.root f x r → p.store.Below c r ∧
          p.store.endOf d ≤ p.store.posOf (some r) ∧
          (p.store.InLoop l ∨ p.store.HeadsLoop l → p.store.Owns p.root f r)) := by
    intro c hc
    refine forall_referencesTo t h hk hv fun ref href => ?_
    rw [breaks_eq_false_iff t h hk hc rfl (hlocated ref href), hloop, hhead]
    rfl
  have huncalled : (∀ ref ∈ (ofProgram p).referencesTo i, ∀ g, reader? v ref = some g →
        (ofProgram p).isCalledBefore g v.declaredAt = false) ↔
      ∀ r, p.store.RefersTo p.root f x r → ∀ g y r', p.store.Hoists p.root f g y →
        p.store.StandsIn r g → p.store.RefersTo p.root f y r' →
        p.store.endOf d ≤ p.store.posOf (some r') :=
    forall_referencesTo t h hk hv fun ref href => uncalled_iff t h hk (hlocated ref href) rfl
  have hredeclared : (ofProgram p).isRedeclared v = true ↔ ∃ n n', p.store.Occurs p.root f n x ∧
      p.store.Occurs p.root f n' x ∧ n ≠ n' := isRedeclared_iff t h hk
  -- each check of the verdict is now one condition on the program
  rw [nameVerdict_safe_iff, huncalled, ← Bool.not_eq_true, hredeclared]
  constructor
  · rintro ⟨hne, hstart, hall, hcalled, hsingle⟩
    obtain ⟨c, hc⟩ := Option.ne_none_iff_exists'.1 hne
    have hall := (hbreaks c hc).1 hall
    obtain ⟨n, hn⟩ := ho.exists_occurs hd hx
    exact {
      single := ⟨n, hn, fun n' hn' => by_contra fun hdiff => hsingle ⟨n', n, hn', hn, hdiff⟩⟩
      visible := ⟨c, (hblock c).1 hc, fun r hr => (hall r hr).1⟩
      after := fun r hr => (hall r hr).2.1
      uncalled := fun r g y r' hr hg hin hr' => hcalled r hr g y r' hg hin hr'
      initialized := fun hin => hinitialized.1 (hstart (hloop.2 hin))
      uncaptured := fun hin r hr => (hall r hr).2.2 hin }
  · intro hn
    obtain ⟨c, hheld, hbelow⟩ := hn.visible
    have hc := (hblock c).2 hheld
    refine ⟨?_, fun hin => hinitialized.2 (hn.initialized (hloop.1 hin)), (hbreaks c hc).2 ?_, ?_, ?_⟩
    · exact Option.ne_none_iff_exists'.2 ⟨c, hc⟩
    · exact fun r hr => ⟨hbelow r hr, hn.after r hr, fun hin => hn.uncaptured hin r hr⟩
    · exact fun r hr g y r' hg hin hr' => hn.uncalled r g y r' hr hg hin hr'
    · rintro ⟨n, n', hn₁, hn₂, hne⟩
      exact hne (hn.single.unique hn₁ hn₂)

theorem nameVerdict_eq_const_iff
    (hsafe : (ofProgram p).nameVerdict i (varBinding p.store l d x initializer k) ≠ .unsafe_) :
    (ofProgram p).nameVerdict i (varBinding p.store l d x initializer k) = .constSafe ↔
      p.store.Constant p.root f l d x := by
  have hv : EntersVar p.store p.root (Scope.bindings p.store p.root) l f k x i :=
    ⟨ho, d, target, initializer, hd, hx, hform, hi⟩
  have hinitialized : (varBinding p.store l d x initializer k).initialized = true ↔
      p.store.Initialized d ∨ isForEachHead p.store (some l) = true :=
    Bool.or_eq_true_iff.trans (or_congr (initialized_iff hform) Iff.rfl)
  rw [nameVerdict_eq_const hsafe, hinitialized, forall_referencesTo t h hk hv fun ref href => ?_]
  · exact ⟨fun hc => ⟨hc.1, hc.2⟩, fun hc => ⟨hc.1, hc.2⟩⟩
  · have hlocated := located_of_mem t h ((mem_referencesTo_iff t h hk hv).1 href).1
    rw [← hlocated.isWrite, Bool.not_eq_true]

end declared

/-- The verdict is the right one on the declared name. -/
structure Decides (p : Program) (f l d : NodeId) (x : String) (w : Verdict) : Prop where
  safe : w ≠ .unsafe_ ↔ p.store.Narrowable p.root f l d x
  const : w ≠ .unsafe_ → (w = .constSafe ↔ p.store.Constant p.root f l d x)

variable {w : Verdict} {target : NodeId}

theorem exists_decides (ho : p.store.Owns p.root f l) (hd : p.store.Declarator l .varKind d target)
    (hx : p.store.Names target x) :
    ∃ w, (l, w) ∈ (ofProgram p).nameVerdicts ∧ Decides p f l d x w := by
  obtain ⟨list, initializer, -, -, -, hform⟩ := id hd
  obtain ⟨k, i, hk, hi, -⟩ :=
    ((sound_bindings t h).2 l ho.below_root).vars f d target initializer x ho hd hx hform
  exact ⟨_, mem_nameVerdicts (a := ofProgram p) hi,
    nameVerdict_ne_iff t h hk ho hd hx hform hi,
    nameVerdict_eq_const_iff t h hk ho hd hx hform hi⟩

theorem decides_of_mem (ho : p.store.Owns p.root f l) (hw : (l, w) ∈ (ofProgram p).nameVerdicts) :
    ∃ d target x, p.store.Declarator l .varKind d target ∧ p.store.Names target x ∧
      Decides p f l d x w := by
  obtain ⟨⟨v, i⟩, hv, heq⟩ := List.mem_map.1 hw
  rw [List.mem_zipIdx_iff_getElem?, Array.getElem?_toList] at hv
  obtain ⟨o, m, k, hk, ⟨ho', d, target, initializer, hd, hx, hform, hi⟩, -⟩ :=
    (sound_bindings t h).1.vars i v hv
  have hvar : v = varBinding p.store m d v.name initializer k := Option.some.inj (hv.symm.trans hi)
  obtain ⟨rfl, rfl⟩ := Prod.mk.inj heq
  obtain rfl : v.list = m := congrArg VarBinding.list hvar
  obtain rfl := t.nearest_unique ho ho'
  refine ⟨d, target, v.name, hd, hx, ?_⟩
  generalize v.list = l, v.name = x at *
  subst hvar
  exact ⟨nameVerdict_ne_iff t h hk ho hd hx hform hi,
    nameVerdict_eq_const_iff t h hk ho hd hx hform hi⟩

end Analysis
end Scope

/-- A list that declares a name has a verdict. It is safe if all of its names could be declared with
`let`, and constant if all of them also could with `const`. -/
theorem verdict_iff {source : Text} {p : Program} {l d t : NodeId} {x : String}
    (h : parse source = .ok p) (hd : p.store.Declarator l .varKind d t) (hx : p.store.Names t x) :
    ∃ f w, p.store.Owns p.root f l ∧
      Scope.verdict? (Scope.Analysis.ofProgram p).nameVerdicts l = some w ∧
      (w ≠ .unsafe_ ↔ ∀ d t x, p.store.Declarator l .varKind d t → p.store.Names t x →
        p.store.Narrowable p.root f l d x) ∧
      (w ≠ .unsafe_ → (w = .constSafe ↔ ∀ d t x, p.store.Declarator l .varKind d t →
        p.store.Names t x → p.store.Constant p.root f l d x)) := by
  have tree := treeAt_of_parse h
  have grows := (grows_of_parse h).1
  obtain ⟨list, -, hlist, -⟩ := id hd
  obtain ⟨f, hf⟩ := Store.exists_nearest Form.inner (grows.below (Store.lt_size_of_form? hlist))
  obtain ⟨v, hv, -⟩ := Scope.Analysis.exists_decides tree grows.forest hf hd hx
  obtain ⟨w, hw⟩ := Scope.exists_verdict? hv
  -- the verdict is one of those on the names, and no greater than the others
  obtain ⟨d', t', x', hd', hx', hdecides⟩ :=
    Scope.Analysis.decides_of_mem tree grows.forest hf (Scope.mem_of_verdict? hw)
  have hall : ∀ d t x, p.store.Declarator l .varKind d t → p.store.Names t x →
      ∃ w, (l, w) ∈ (Scope.Analysis.ofProgram p).nameVerdicts ∧
        Scope.Analysis.Decides p f l d x w :=
    fun _ _ _ => Scope.Analysis.exists_decides tree grows.forest hf
  refine ⟨f, w, hf, hw, ⟨fun hsafe d t x hd hx => ?_, fun hn => ?_⟩, fun hsafe =>
    ⟨fun hconst d t x hd hx => ?_, fun hc => ?_⟩⟩
  · obtain ⟨u, hu, hdecides⟩ := hall d t x hd hx
    exact hdecides.safe.1 (Scope.forall_of_verdict? (P := (· ≠ .unsafe_))
      (fun _ _ => Scope.Verdict.meet_ne_unsafe) hw hsafe hu)
  · exact hdecides.safe.2 (hn d' t' x' hd' hx')
  · obtain ⟨u, hu, hdecides⟩ := hall d t x hd hx
    obtain rfl : u = .constSafe := Scope.forall_of_verdict? (P := (· = .constSafe))
      (fun _ _ => Scope.Verdict.meet_eq_const) hw hconst hu
    exact (hdecides.const (by decide)).1 rfl
  · exact (hdecides.const hsafe).2 (hc d' t' x' hd' hx')

theorem verdict_iff_function :
    let source := "var x = 1; function g() { return x; } g();".toList
    ∃ p f, parse source = .ok p ∧ p.store.Declarator 3 .varKind 2 0 ∧ p.store.Names 0 "x" ∧
      p.store.Owns p.root f 3 ∧ p.store.Narrowable p.root f 3 2 "x" ∧
      p.store.Constant p.root f 3 2 "x" := by
  intro source
  have hverdict : ∀ p, parse source = .ok p →
      Scope.verdict? (Scope.Analysis.ofProgram p).nameVerdicts 3 = some .constSafe :=
    of_parse (by decide +kernel)
  have hforms : ∀ p, parse source = .ok p →
      p.store.form? (some 3) = some (.declarationList ⟨.varKind, ⟨[some 2], 4, 9⟩, .varKind⟩) ∧
      p.store.form? (some 2) = some (.declaration (some 0) (some 1)) ∧
      p.store.form? (some 0) = some (.identifier "x") := of_parse (by decide +kernel)
  obtain ⟨p, hp⟩ := exists_parse_of_isOk source (by decide +kernel)
  obtain ⟨hlist, hdeclaration, htarget⟩ := hforms p hp
  have hd : p.store.Declarator 3 .varKind 2 0 :=
    ⟨_, some 1, hlist, rfl, List.mem_cons_self, hdeclaration⟩
  have hx : p.store.Names 0 "x" := ⟨0, .refl, htarget⟩
  obtain ⟨f, w, hf, hw, hsafe, hconst⟩ := verdict_iff hp hd hx
  obtain rfl : w = .constSafe := Option.some.inj (hw.symm.trans (hverdict p hp))
  exact ⟨p, f, hp, hd, hx, hf, hsafe.1 (by decide) 2 0 "x" hd hx,
    (hconst (by decide)).1 rfl 2 0 "x" hd hx⟩

end Modernizer
