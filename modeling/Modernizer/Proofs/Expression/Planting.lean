import Modernizer.Proofs.Expression.Denoting
import Modernizer.Proofs.Tree.Assembly
import Modernizer.Proofs.Tree.Resequencing

/-! Making the tree of an expression. Its nodes are new, none is in parentheses, and each is made after
those below it (`Depicts`). All of it is new and outside of the tree of the program (`Plants`). -/

namespace Modernizer

namespace Store

variable {s s' s₁ : Store} {root n w y : NodeId} {R : NodeId → Prop} {ns ms : List NodeId} {f : Form}
  {e : Expression} {es : List Expression}

/-- A new node that was made after its children. -/
structure Made (s : Store) (n : NodeId) (f : Form) : Prop where
  form : s.form? (some n) = some f
  synthesized : s.isSynthesized (some n) = true
  descends : ∀ c ∈ f.children, c < n

mutual

/-- The tree of the node is the one that is made for the expression. -/
def Depicts (s : Store) : NodeId → Expression → Prop
  | n, .name x => s.Made n (.identifier x.string)
  | n, .binary left o right => ∃ a b : NodeId, s.Made n (.binary a o.kind b) ∧ s.Depicts a left ∧
      s.Depicts b right
  | n, .conditional condition whenTrue whenFalse => ∃ a b c : NodeId, s.Made n (.conditional a b c) ∧
      s.Depicts a condition ∧ s.Depicts b whenTrue ∧ s.Depicts c whenFalse
  | n, .assignment target o value => ∃ a b : NodeId, s.Made n (.binary a o.kind b) ∧
      s.Depicts a target ∧ s.Depicts b value
  | n, .call callee arguments isOptional => ∃ (a : NodeId) (ns : List NodeId),
      s.Made n (.call a (.ofNodes (ns.map some)) isOptional) ∧ s.Depicts a callee ∧
      s.DepictsAll ns arguments
  | n, .member object x isOptional => ∃ a b : NodeId, s.Made n (.member a b isOptional) ∧
      s.Depicts a object ∧ s.Made b (.identifier x.string)
  | n, .element object index isOptional => ∃ a b : NodeId, s.Made n (.element a b isOptional) ∧
      s.Depicts a object ∧ s.Depicts b index

def DepictsAll (s : Store) : List NodeId → List Expression → Prop
  | [], [] => True
  | n :: ns, e :: es => s.Depicts n e ∧ s.DepictsAll ns es
  | _, _ => False

end

end Store

namespace Expression

mutual

/-- Makes the tree of an expression. -/
def make : Expression → StateM Store NodeId
  | name x => makeNode (.identifier x.string)
  | binary left o right => do
    let a ← left.make
    let b ← right.make
    makeNode (.binary a o.kind b)
  | conditional condition whenTrue whenFalse => do
    let a ← condition.make
    let b ← whenTrue.make
    let c ← whenFalse.make
    makeNode (.conditional a b c)
  | assignment target o value => do
    let a ← target.make
    let b ← value.make
    makeNode (.binary a o.kind b)
  | call callee arguments isOptional => do
    let a ← callee.make
    let ns ← makeAll arguments
    makeNode (.call a (.ofNodes (ns.map some)) isOptional)
  | member object x isOptional => do
    let a ← object.make
    let b ← makeNode (.identifier x.string)
    makeNode (.member a b isOptional)
  | element object index isOptional => do
    let a ← object.make
    let b ← index.make
    makeNode (.element a b isOptional)

def makeAll : List Expression → StateM Store (List NodeId)
  | [] => return []
  | e :: es => do
    let n ← e.make
    let ns ← makeAll es
    return n :: ns

end

end Expression

namespace Store

variable {s s' s₁ : Store} {root n w y : NodeId} {R : NodeId → Prop} {ns ms : List NodeId} {f : Form}
  {e : Expression} {es : List Expression}

theorem depictsAll_iff : s.DepictsAll ns es ↔ List.Forall₂ s.Depicts ns es := by
  induction ns generalizing es with
  | nil => cases es <;> simp [DepictsAll]
  | cons n ns ih => cases es <;> simp [DepictsAll, ih]

theorem Made.holds (h : s.Made n f) {c : NodeId} (hc : c ∈ f.children) : s.Holds n c := by
  rw [Holds, children, h.form]
  exact hc

theorem Made.of_below (h : s.Made n f) (hmade : ∀ m g, s.Below n m → s.Made m g → s'.Made m g) :
    s'.Made n f ∧ ∀ c ∈ f.children, ∀ m g, s.Below c m → s.Made m g → s'.Made m g :=
  ⟨hmade n f .refl h, fun _ hc m g hm => hmade m g ((h.holds hc).below.trans hm)⟩

theorem Depicts.of_made (h : s.Depicts n e) (hmade : ∀ m f, s.Below n m → s.Made m f → s'.Made m f) :
    s'.Depicts n e := by
  induction e generalizing n with
  | name x => exact (Made.of_below h hmade).1
  | binary left o right hleft hright =>
    obtain ⟨a, b, hn, ha, hb⟩ := h
    obtain ⟨hn, hparts⟩ := hn.of_below hmade
    exact ⟨a, b, hn, hleft ha (hparts a (.head _)), hright hb (hparts b (.tail _ (.head _)))⟩
  | conditional condition whenTrue whenFalse hcondition htrue hfalse =>
    obtain ⟨a, b, c, hn, ha, hb, hc⟩ := h
    obtain ⟨hn, hparts⟩ := hn.of_below hmade
    exact ⟨a, b, c, hn, hcondition ha (hparts a (.head _)), htrue hb (hparts b (.tail _ (.head _))),
      hfalse hc (hparts c (.tail _ (.tail _ (.head _))))⟩
  | assignment target o value htarget hvalue =>
    obtain ⟨a, b, hn, ha, hb⟩ := h
    obtain ⟨hn, hparts⟩ := hn.of_below hmade
    exact ⟨a, b, hn, htarget ha (hparts a (.head _)), hvalue hb (hparts b (.tail _ (.head _)))⟩
  | call callee arguments isOptional hcallee harguments =>
    obtain ⟨a, ns, hn, ha, hns⟩ := h
    obtain ⟨hn, hparts⟩ := hn.of_below hmade
    have hchildren : (Form.call a (.ofNodes (ns.map some)) isOptional).children = a :: ns :=
      congrArg _ (present_map_some ns)
    rw [hchildren] at hparts
    refine ⟨a, ns, hn, hcallee ha (hparts a List.mem_cons_self), ?_⟩
    rw [depictsAll_iff] at hns ⊢
    exact List.forall₂_iff_get.2 ⟨hns.length_eq, fun i hi hi' =>
      harguments _ (List.get_mem _ _) ((List.forall₂_iff_get.1 hns).2 i hi hi')
        (hparts _ (List.mem_cons_of_mem a (List.get_mem _ _)))⟩
  | member object x isOptional hobject =>
    obtain ⟨a, b, hn, ha, hb⟩ := h
    obtain ⟨hn, hparts⟩ := hn.of_below hmade
    exact ⟨a, b, hn, hobject ha (hparts a (.head _)), hparts b (.tail _ (.head _)) b _ .refl hb⟩
  | element object index isOptional hobject hindex =>
    obtain ⟨a, b, hn, ha, hb⟩ := h
    obtain ⟨hn, hparts⟩ := hn.of_below hmade
    exact ⟨a, b, hn, hobject ha (hparts a (.head _)), hindex hb (hparts b (.tail _ (.head _)))⟩

theorem Made.enlarges (h : s.Made n f) (hs : Enlarges s s') : s'.Made n f where
  form := (hs.form (lt_size_of_form? h.form)).trans h.form
  synthesized := by
    rw [isSynthesized, hs.kept n (lt_size_of_form? h.form)]
    exact h.synthesized
  descends := h.descends

theorem Depicts.enlarges (h : s.Depicts n e) (hs : Enlarges s s') : s'.Depicts n e :=
  h.of_made fun _ _ _ hm => hm.enlarges hs

theorem Depicts.synthesize (h : s.Depicts n e) (f : Form) : (s.synthesize f).2.Depicts n e :=
  h.enlarges (.synthesize (.refl s) f)

/-- Going from `s` to `s'` makes the trees with these roots, and all of them is new. -/
structure Plants (root : NodeId) (R : NodeId → Prop) (s : Store) (ns : List NodeId) (s' : Store) :
    Prop where
  builds : Builds root R ns [] s s'
  enlarges : Enlarges s s'

namespace Plants

variable (t : s.TreeAt root) (hR : s.Sites root R)

theorem stock_nil : s.Stock R [] := ⟨.nil, by simp⟩

theorem nil (t : s.TreeAt root) : Plants root R s [] s := ⟨.stock t stock_nil, .refl s⟩

theorem lt_size (h : Plants root R s ns s₁) {n : NodeId} (hn : n ∈ ns) : n < s₁.size := by
  obtain ⟨F, hF, -⟩ := h.builds.part
  exact hF.sprout.lt_size n ((hF.sprout.mem_of_root hn).resolve_right List.not_mem_nil)

theorem loose (h : Plants root R s ns s₁) {n m : NodeId} (hn : n ∈ ns) (hm : s₁.Below n m) :
    ¬ s₁.Below root m := by
  obtain ⟨F, hF, -⟩ := h.builds.part
  have hmem : m ∈ F := by
    induction hm with
    | refl => exact (hF.sprout.mem_of_root hn).resolve_right List.not_mem_nil
    | tail _ hc ih => exact (hF.sprout.mem_of_holds ih hc).resolve_right List.not_mem_nil
  exact hF.loose m hmem

include t hR

theorem sites (h : Plants root R s ns s₁) : s₁.Sites root R := hR.of_graft t stock_nil h.builds.graft

theorem append (h : Plants root R s ns s₁) (h' : Plants root R s₁ ms s') :
    Plants root R s (ns ++ ms) s' :=
  ⟨h.builds.append h'.builds t hR stock_nil, h.enlarges.trans h'.enlarges⟩

/-- A new node around all that is there. -/
theorem enclose (h : Plants root R s f.children s₁) (hbody : f.functionBody = none) :
    Plants root R s [s₁.size] (s₁.synthesize f).2 ∧ (s₁.synthesize f).2.Made s₁.size f :=
  ⟨⟨h.builds.enclose t hR stock_nil (.of_none hbody), h.enlarges.synthesize f⟩,
    by simp [form?, get?_synthesize], by simp [isSynthesized, get?_synthesize],
    fun _ hc => h.lt_size hc⟩

end Plants

end Store

namespace Expression

open Store

variable {s : Store} {root : NodeId} {R : NodeId → Prop} {es : List Expression}

theorem plants_makeAll (hes : ∀ e ∈ es, ∀ {s : Store}, s.TreeAt root → s.Sites root R →
    Plants root R s [(e.make s).1] (e.make s).2 ∧ (e.make s).2.Depicts (e.make s).1 e)
    (t : s.TreeAt root) (hR : s.Sites root R) : Plants root R s (makeAll es s).1 (makeAll es s).2 ∧
      (makeAll es s).2.DepictsAll (makeAll es s).1 es := by
  induction es generalizing s with
  | nil => exact ⟨.nil t, trivial⟩
  | cons e es ih =>
    obtain ⟨he, hes⟩ := List.forall_mem_cons.1 hes
    obtain ⟨ha, da⟩ := he t hR
    obtain ⟨hns, dns⟩ := ih hes ha.builds.tree (ha.sites t hR)
    exact ⟨ha.append t hR hns, da.enlarges hns.enlarges, dns⟩

/-- What is made for an expression is its tree. -/
theorem plants_make (e : Expression) (t : s.TreeAt root) (hR : s.Sites root R) :
    Plants root R s [(e.make s).1] (e.make s).2 ∧ (e.make s).2.Depicts (e.make s).1 e := by
  -- the operands are made one after the other, and what is made stays as it is meanwhile
  induction e generalizing s with
  | name x => exact (Plants.nil t).enclose t hR (f := .identifier x.string) rfl
  | binary left o right hleft hright =>
    obtain ⟨ha, da⟩ := hleft t hR
    obtain ⟨hb, db⟩ := hright ha.builds.tree (ha.sites t hR)
    obtain ⟨hn, hmade⟩ := (ha.append t hR hb).enclose t hR
      (f := .binary (left.make s).1 o.kind (right.make (left.make s).2).1) rfl
    exact ⟨hn, _, _, hmade, (da.enlarges hb.enlarges).synthesize _, db.synthesize _⟩
  | conditional condition whenTrue whenFalse hcondition htrue hfalse =>
    obtain ⟨ha, da⟩ := hcondition t hR
    obtain ⟨hb, db⟩ := htrue ha.builds.tree (ha.sites t hR)
    have hab := ha.append t hR hb
    obtain ⟨hc, dc⟩ := hfalse hab.builds.tree (hab.sites t hR)
    obtain ⟨hn, hmade⟩ := (hab.append t hR hc).enclose t hR
      (f := .conditional (condition.make s).1 (whenTrue.make (condition.make s).2).1
        (whenFalse.make (whenTrue.make (condition.make s).2).2).1) rfl
    exact ⟨hn, _, _, _, hmade, (da.enlarges (hb.enlarges.trans hc.enlarges)).synthesize _,
      (db.enlarges hc.enlarges).synthesize _, dc.synthesize _⟩
  | assignment target o value htarget hvalue =>
    obtain ⟨ha, da⟩ := htarget t hR
    obtain ⟨hb, db⟩ := hvalue ha.builds.tree (ha.sites t hR)
    obtain ⟨hn, hmade⟩ := (ha.append t hR hb).enclose t hR
      (f := .binary (target.make s).1 o.kind (value.make (target.make s).2).1) rfl
    exact ⟨hn, _, _, hmade, (da.enlarges hb.enlarges).synthesize _, db.synthesize _⟩
  | call callee arguments isOptional hcallee harguments =>
    obtain ⟨ha, da⟩ := hcallee t hR
    obtain ⟨hns, dns⟩ := plants_makeAll harguments ha.builds.tree (ha.sites t hR)
    let ns := (makeAll arguments (callee.make s).2).1
    have hchildren : (Form.call (callee.make s).1 (.ofNodes (ns.map some)) isOptional).children =
        [(callee.make s).1] ++ ns := congrArg _ (present_map_some ns)
    obtain ⟨hn, hmade⟩ := Plants.enclose t hR (hchildren ▸ ha.append t hR hns) rfl
    refine ⟨hn, _, ns, hmade, (da.enlarges hns.enlarges).synthesize _, ?_⟩
    rw [depictsAll_iff] at dns ⊢
    exact dns.imp fun _ _ d => d.synthesize _
  | member object x isOptional hobject =>
    obtain ⟨ha, da⟩ := hobject t hR
    obtain ⟨hb, db⟩ := (Plants.nil ha.builds.tree).enclose ha.builds.tree (ha.sites t hR)
      (f := .identifier x.string) rfl
    obtain ⟨hn, hmade⟩ := (ha.append t hR hb).enclose t hR
      (f := .member (object.make s).1 (object.make s).2.size isOptional) rfl
    exact ⟨hn, _, _, hmade, (da.synthesize _).synthesize _, db.enlarges (.synthesize (.refl _) _)⟩
  | element object index isOptional hobject hindex =>
    obtain ⟨ha, da⟩ := hobject t hR
    obtain ⟨hb, db⟩ := hindex ha.builds.tree (ha.sites t hR)
    obtain ⟨hn, hmade⟩ := (ha.append t hR hb).enclose t hR
      (f := .element (object.make s).1 (index.make (object.make s).2).1 isOptional) rfl
    exact ⟨hn, _, _, hmade, (da.enlarges hb.enlarges).synthesize _, db.synthesize _⟩

end Expression

end Modernizer
