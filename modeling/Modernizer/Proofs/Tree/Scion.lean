import Mathlib.Data.List.Pairwise
import Modernizer.Proofs.Tree.Graft

/-! New parts before they are put into a tree. Loose nodes stand around pieces of the tree, whose
parent links still lead to where they were. Each loose node and each piece is in one slot of the new
part (`Sprout.perm`), so adoption gives each the parent that holds it (`Sprout.adopted`). -/

namespace Modernizer.Store

variable {s s' s₂ : Store} {root c d f n p q : NodeId} {R Q : NodeId → Prop}
  {ns ns' F F' D D' : List NodeId}

/-- Some nodes, each loose or a piece of the tree. `F` are the loose nodes at and below them, and
`D` the pieces. Loose nodes are made after those below them. -/
inductive Sprout (s : Store) : List NodeId → List NodeId → List NodeId → Prop
  | nil : Sprout s [] [] []
  | piece {ns F D : List NodeId} (d : NodeId) : Sprout s ns F D → Sprout s (d :: ns) F (d :: D)
  | loose {ns F F' D D' : List NodeId} (n : NodeId) : s.isSynthesized (some n) = true →
      Sprout s (s.children (some n)) F' D' → (∀ f ∈ F', f < n) → n < s.size → Sprout s ns F D →
      Sprout s (n :: ns) (n :: (F' ++ F)) (D' ++ D)

namespace Sprout

theorem pieces (ds : List NodeId) : Sprout s ds [] ds := by
  induction ds with
  | nil => exact .nil
  | cons d ds ih => exact .piece d ih

theorem append (h : Sprout s ns F D) (h' : Sprout s ns' F' D') :
    Sprout s (ns ++ ns') (F ++ F') (D ++ D') := by
  induction h with
  | nil => exact h'
  | piece d _ ih => exact .piece d ih
  | loose n hsyn hkids hlt hn _ _ ih =>
    simpa only [List.cons_append, List.append_assoc] using loose n hsyn hkids hlt hn ih

/-- The slots of the new part hold what is in it, once each. -/
theorem perm (h : Sprout s ns F D) :
    (ns ++ F.flatMap fun f => s.children (some f)).Perm (F ++ D) := by
  induction h with
  | nil => exact .nil
  | piece d _ ih => exact (ih.cons d).trans List.perm_middle.symm
  | @loose ns F F' D D' n _ _ _ _ _ ihkids ih =>
    simp only [List.flatMap_cons, List.flatMap_append, List.cons_append]
    refine List.Perm.cons n ?_
    calc ns ++ (s.children (some n) ++ ((F'.flatMap fun f => s.children (some f)) ++
          F.flatMap fun f => s.children (some f)))
        _ = ns ++ ((s.children (some n) ++ F'.flatMap fun f => s.children (some f)) ++
          F.flatMap fun f => s.children (some f)) := by rw [List.append_assoc]
        _ |>.Perm ((s.children (some n) ++ F'.flatMap fun f => s.children (some f)) ++
          (ns ++ F.flatMap fun f => s.children (some f))) := List.perm_append_comm_assoc ..
        _ |>.Perm ((F' ++ D') ++ (F ++ D)) := ihkids.append ih
        _ |>.Perm (F' ++ F ++ (D' ++ D)) := by
          rw [List.append_assoc, List.append_assoc]
          exact (List.perm_append_comm_assoc D' F D).append_left F'

theorem synthesized (h : Sprout s ns F D) : ∀ f ∈ F, s.isSynthesized (some f) = true := by
  induction h with
  | nil => simp
  | piece _ _ ih => exact ih
  | loose n hsyn _ _ _ _ ihkids ih =>
    intro f hf
    rcases List.mem_cons.1 hf with rfl | hf
    · exact hsyn
    · exact (List.mem_append.1 hf).elim (ihkids f) (ih f)

theorem lt_size (h : Sprout s ns F D) : ∀ f ∈ F, f < s.size := by
  induction h with
  | nil => simp
  | piece _ _ ih => exact ih
  | loose n _ _ _ hn _ ihkids ih =>
    intro f hf
    rcases List.mem_cons.1 hf with rfl | hf
    · exact hn
    · exact (List.mem_append.1 hf).elim (ihkids f) (ih f)

theorem mem_of_root (h : Sprout s ns F D) (hc : c ∈ ns) : c ∈ F ∨ c ∈ D :=
  List.mem_append.1 (h.perm.mem_iff.1 (List.mem_append_left _ hc))

theorem mem_of_holds (h : Sprout s ns F D) (hf : f ∈ F) (hc : s.Holds f c) : c ∈ F ∨ c ∈ D :=
  List.mem_append.1 <| h.perm.mem_iff.1 <| List.mem_append_right _ <|
    List.mem_flatMap.2 ⟨f, hf, hc⟩

theorem cons_inv (h : Sprout s (n :: ns) F D) : ∃ F₁ F₂ D₁ D₂, Sprout s [n] F₁ D₁ ∧
    Sprout s ns F₂ D₂ ∧ F = F₁ ++ F₂ := by
  cases h with
  | piece _ h => exact ⟨[], _, [n], _, .piece n .nil, h, rfl⟩
  | @loose _ F F' D D' _ hsyn hkids hF hn h =>
    exact ⟨n :: (F' ++ []), F, D' ++ [], D, .loose n hsyn hkids hF hn .nil, h, by simp⟩

theorem congr (h : Sprout s ns F D) (hsize : s.size ≤ s'.size)
    (hF : ∀ f ∈ F, s'.form? (some f) = s.form? (some f) ∧
      s'.isSynthesized (some f) = s.isSynthesized (some f)) : Sprout s' ns F D := by
  induction h with
  | nil => exact .nil
  | piece d _ ih => exact .piece d (ih hF)
  | loose n hsyn _ hlt hn _ ihkids ih =>
    have hn' := hF n List.mem_cons_self
    refine .loose n (hn'.2.trans hsyn) ?_ hlt (Nat.lt_of_lt_of_le hn hsize) (ih fun f hf => ?_)
    · rw [children_congr hn'.1]
      exact ihkids fun f hf => hF f (by simp [hf])
    · exact hF f (by simp [hf])

end Sprout

/-- What adoption does at the children of a node. -/
def adoptEach (fuel : Nat) (ns : List NodeId) (s : Store) : Store :=
  ns.foldr (fun c s => if s.isSynthesized (some c) then adoptChildren.go fuel c s else s) s

theorem adoptEach_cons (fuel : Nat) (c : NodeId) (ns : List NodeId) (s : Store) :
    adoptEach fuel (c :: ns) s =
      if (adoptEach fuel ns s).isSynthesized (some c) then
        adoptChildren.go fuel c (adoptEach fuel ns s)
      else adoptEach fuel ns s := rfl

theorem adoptChildren_go_succ (fuel : Nat) (n : NodeId) (s : Store) :
    adoptChildren.go (fuel + 1) n s = adoptEach fuel (s.children (some n))
      ((s.children (some n)).foldl (fun s c => s.setParent (some c) (some n)) s) := rfl

theorem relinks_adoptHead {fuel : Nat} (hd : ∀ q, s.Below d q → Q q) :
    Relinks Q s (if s.isSynthesized (some d) then adoptChildren.go fuel d s else s) := by
  split
  · exact (relinks_adoptChildren_go fuel d s).mono hd
  · exact .refl s

theorem relinks_adoptEach {fuel : Nat} (hns : ∀ n ∈ ns, ∀ q, s.Below n q → Q q) :
    Relinks Q s (adoptEach fuel ns s) := by
  rw [adoptEach, ← List.foldl_reverse]
  refine relinks_foldl fun c hc s' hs' => relinks_adoptHead fun q hq => ?_
  rw [below_congr hs'.form] at hq
  exact hns c (List.mem_reverse.1 hc) q hq

theorem relinks_setParents (hns : ∀ c ∈ ns, s.Holds n c) :
    Relinks (· = n) s (ns.foldl (fun s c => s.setParent (some c) (some n)) s) :=
  relinks_foldl fun c hc _ hs' =>
    relinks_setParent rfl (by rw [holds_congr hs'.form]; exact hns c hc)

theorem parent_setParents (hns : ∀ d ∈ ns, s.Holds n d) (hc : c ∈ ns) (hlt : c < s.size) :
    (ns.foldl (fun s c => s.setParent (some c) (some n)) s).parent (some c) = some n := by
  induction ns generalizing s with
  | nil => cases hc
  | cons d ns ih =>
    have h := relinks_setParent (Q := (· = n)) rfl (hns d List.mem_cons_self)
    have hns' : ∀ e ∈ ns, (s.setParent (some d) (some n)).Holds n e := fun e he => by
      rw [holds_congr h.form]
      exact hns e (List.mem_cons_of_mem d he)
    rcases List.mem_cons.1 hc with rfl | hc
    · refine (relinks_setParents hns').keeps (fun q hq _ => hq) ?_
      exact parent_setParent hlt (some n)
    · exact ih hns' hc (by rwa [h.size])

def UniqueIn (s : Store) (W : NodeId → Prop) : Prop :=
  ∀ q q' c, W q → W q' → s.Holds q c → s.Holds q' c → q = q'

/-- Adoption gives each child of a loose node its parent. `W` is a set around the new part in which
no node is held twice, so that what follows does not change a link again. -/
theorem Sprout.adopted {W : NodeId → Prop} (h : Sprout s ns F D) (hU : s.UniqueIn W)
    (hns : ∀ n ∈ ns, ∀ q, s.Below n q → W q) (hlt : ∀ f ∈ F, ∀ c, s.Holds f c → c < s.size)
    (hform : ∀ m, s₂.form? m = s.form? m)
    (hsyn : ∀ m, s₂.isSynthesized m = s.isSynthesized m) (hsize : s₂.size = s.size)
    {fuel : Nat} (hfuel : ∀ f ∈ F, f < fuel) :
    ∀ f ∈ F, W f ∧ ∀ c, s.Holds f c → (adoptEach fuel ns s₂).parent (some c) = some f := by
  induction h generalizing s₂ fuel with
  | nil => simp
  | @piece ns F D d h ih =>
    have hnsW : ∀ m ∈ ns, ∀ q, s.Below m q → W q := fun m hm => hns m (List.mem_cons_of_mem d hm)
    have h₁ : Relinks W s₂ (adoptEach fuel ns s₂) := relinks_adoptEach fun m hm q hq =>
      hnsW m hm q (by rwa [below_congr hform] at hq)
    intro f hf
    obtain ⟨hW, ih⟩ := ih hnsW hlt hform hsyn hsize hfuel f hf
    refine ⟨hW, fun c hc => ?_⟩
    rw [adoptEach_cons]
    refine (relinks_adoptHead (Q := W) fun q hq => ?_).keeps (fun q hq hqc => ?_) (ih c hc)
    · exact hns d List.mem_cons_self q (by rwa [below_congr h₁.form, below_congr hform] at hq)
    · exact hU q f c hq hW (by rwa [holds_congr h₁.form, holds_congr hform] at hqc) hc
  | @loose ns F F' D D' n hn hkids hF' hlt' h ihkids ih =>
    have hnW : ∀ q, s.Below n q → W q := hns n List.mem_cons_self
    have hnsW : ∀ m ∈ ns, ∀ q, s.Below m q → W q := fun m hm => hns m (List.mem_cons_of_mem n hm)
    have h₁ : Relinks W s₂ (adoptEach fuel ns s₂) := relinks_adoptEach fun m hm q hq =>
      hnsW m hm q (by rwa [below_congr hform] at hq)
    have hform₁ : ∀ m, (adoptEach fuel ns s₂).form? m = s.form? m :=
      fun m => (h₁.form m).trans (hform m)
    have hsize₁ : (adoptEach fuel ns s₂).size = s.size := h₁.size.trans hsize
    have hsyn₁ : ∀ m, (adoptEach fuel ns s₂).isSynthesized m = s.isSynthesized m :=
      fun m => (h₁.synthesized m).trans (hsyn m)
    obtain ⟨k, rfl⟩ : ∃ k, fuel = k + 1 :=
      Nat.exists_eq_succ_of_ne_zero (Nat.ne_zero_of_lt (hfuel n List.mem_cons_self))
    have hhead : adoptEach (k + 1) (n :: ns) s₂ = adoptEach k (s.children (some n))
        ((s.children (some n)).foldl (fun s c => s.setParent (some c) (some n))
          (adoptEach (k + 1) ns s₂)) := by
      rw [← children_congr (hform₁ (some n)), ← adoptChildren_go_succ, adoptEach_cons,
        if_pos ((hsyn₁ _).trans hn)]
    have hkid : ∀ c ∈ s.children (some n),
        (adoptEach (k + 1) ns s₂).Holds n c ∧ c < (adoptEach (k + 1) ns s₂).size := fun c hc => by
      rw [holds_congr hform₁, hsize₁]
      exact ⟨hc, hlt n List.mem_cons_self c hc⟩
    have h₂ := relinks_setParents fun c hc => (hkid c hc).1
    intro f hf
    rcases List.mem_cons.1 hf with rfl | hf
    · -- the children of the head are linked to it before anything below them
      refine ⟨hnW f .refl, fun c hc => ?_⟩
      rw [hhead]
      refine (relinks_adoptEach (Q := W) fun m hm q hq => ?_).keeps (fun q hq hqc => ?_)
        (parent_setParents (fun c hc => (hkid c hc).1) hc (hkid c hc).2)
      · rw [below_congr h₂.form, below_congr hform₁] at hq
        exact hnW q ((Holds.below hm).trans hq)
      · rw [holds_congr h₂.form, holds_congr hform₁] at hqc
        exact hU q f c hq (hnW f .refl) hqc hc
    rcases List.mem_append.1 hf with hf | hf
    · rw [hhead]
      exact ihkids (fun m hm q hq => hnW q ((Holds.below hm).trans hq))
        (fun f hf => hlt f (by simp [hf])) (fun m => (h₂.form m).trans (hform₁ m))
        (fun m => (h₂.synthesized m).trans (hsyn₁ m)) (h₂.size.trans hsize₁)
        (fun f hf => Nat.lt_of_lt_of_le (hF' f hf)
          (Nat.le_of_lt_succ (hfuel n List.mem_cons_self))) f hf
    · obtain ⟨hW, ih⟩ := ih hnsW (fun f hf => hlt f (by simp [hf])) hform hsyn hsize
        (fun f hf => hfuel f (by simp [hf])) f hf
      refine ⟨hW, fun c hc => ?_⟩
      rw [adoptEach_cons]
      refine (relinks_adoptHead (Q := W) fun q hq => ?_).keeps (fun q hq hqc => ?_) (ih c hc)
      · exact hnW q (by rwa [below_congr hform₁] at hq)
      · exact hU q f c hq hW (by rwa [holds_congr hform₁] at hqc) hc

/-- Links a statement to its container, and what is new below it. -/
def plant (p : NodeId) (s : Store) (c : NodeId) : Store :=
  let s := s.setParent (some c) (some p)
  if s.isSynthesized (some c) then s.adoptChildren c else s

theorem relinks_plant (hp : Q p) (hc : s.Holds p c) (hQ : ∀ q, s.Below c q → Q q) :
    Relinks Q s (plant p s c) := by
  have h := relinks_setParent hp hc
  exact h.trans (relinks_adoptHead fun q hq => hQ q (by rwa [below_congr h.form] at hq))

theorem relinks_plants (hp : Q p) (hns : ∀ c ∈ ns, s.Holds p c)
    (hQ : ∀ c ∈ ns, ∀ q, s.Below c q → Q q) : Relinks Q s (ns.foldl (plant p) s) :=
  relinks_foldl fun c hc s' hs' =>
    relinks_plant hp (by rw [holds_congr hs'.form]; exact hns c hc)
      fun q hq => hQ c hc q (by rwa [below_congr hs'.form] at hq)

theorem parent_plant (hU : s.UniqueIn Q) (hp : Q p) (hc : s.Holds p c) (hlt : c < s.size)
    (hQ : ∀ q, s.Below c q → Q q) : (plant p s c).parent (some c) = some p := by
  have h := relinks_setParent hp hc
  refine (relinks_adoptHead (Q := Q) fun q hq => ?_).keeps (fun q hq hqc => ?_)
    (parent_setParent hlt (some p))
  · exact hQ q (by rwa [below_congr h.form] at hq)
  · exact hU q p c hq hp (by rwa [holds_congr h.form] at hqc) hc

theorem plant_eq (hsyn : s.isSynthesized (some n) = true) :
    plant p s n = adoptEach (s.size + 1) [n] (s.setParent (some n) (some p)) := by
  have h : (s.setParent (some n) (some p)).isSynthesized (some n) = true := by
    rw [setParent, isSynthesized_modify, hsyn]
    exact fun _ => rfl
  rw [adoptEach_cons, plant]
  simp only [adoptEach, List.foldr_nil, h, if_true, adoptChildren]
  rw [setParent, size_modify]

theorem UniqueIn.congr {W : NodeId → Prop} (hU : s.UniqueIn W) (h : ∀ m, s'.form? m = s.form? m) :
    s'.UniqueIn W := by
  rw [UniqueIn, holds_congr h]
  exact hU

theorem Sprout.planted_root {W : NodeId → Prop} (h : Sprout s [n] F D) (hU : s.UniqueIn W)
    (hp : W p) (hn : s.Holds p n) (hlt : n < s.size) (hW : ∀ q, s.Below n q → W q)
    (hF : ∀ f ∈ F, ∀ c, s.Holds f c → c < s.size) :
    (plant p s n).parent (some n) = some p ∧
      ∀ f ∈ F, W f ∧ ∀ c, s.Holds f c → (plant p s n).parent (some c) = some f := by
  refine ⟨parent_plant hU hp hn hlt hW, ?_⟩
  by_cases hsyn : s.isSynthesized (some n) = true
  · have hset := relinks_setParent (Q := fun q => q = p) rfl hn
    rw [plant_eq hsyn]
    exact h.adopted hU (fun m hm => List.mem_singleton.1 hm ▸ hW) hF hset.form hset.synthesized
      hset.size fun f hf => Nat.lt_succ_of_lt (h.lt_size f hf)
  · cases h with
    | piece _ h => cases h; simp
    | loose _ h => exact absurd h hsyn

/-- Planting links the roots of a new part to `p`, and all below them to their holders. -/
theorem Sprout.planted {W : NodeId → Prop} (h : Sprout s ns F D) (hU : s.UniqueIn W) (hp : W p)
    (hkids : ∀ c ∈ ns, s.Holds p c ∧ c < s.size) (hns : ∀ n ∈ ns, ∀ q, s.Below n q → W q)
    (hF : ∀ f ∈ F, ∀ c, s.Holds f c → c < s.size) :
    (∀ c ∈ ns, (ns.foldl (plant p) s).parent (some c) = some p) ∧
      ∀ f ∈ F, ∀ c, s.Holds f c → (ns.foldl (plant p) s).parent (some c) = some f := by
  induction ns generalizing s F D with
  | nil => cases h; simp
  | cons n ns ih =>
    obtain ⟨F₁, F₂, D₁, D₂, h₁, h₂, rfl⟩ := h.cons_inv
    obtain ⟨hn, hlt⟩ := hkids n List.mem_cons_self
    have hW := hns n List.mem_cons_self
    have hlink : Relinks W s (plant p s n) := relinks_plant hp hn hW
    have hholds := holds_congr hlink.form
    have hbelow := below_congr hlink.form
    obtain ⟨hroot, hloose⟩ := h₁.planted_root hU hp hn hlt hW fun f hf =>
      hF f (List.mem_append_left F₂ hf)
    obtain ⟨hroots, hrest⟩ := ih (s := plant p s n)
      (h₂.congr (Nat.le_of_eq hlink.size.symm) fun f _ => ⟨hlink.form _, hlink.synthesized _⟩)
      (hU.congr hlink.form) (fun c hc => by
        rw [hholds, hlink.size]
        exact hkids c (List.mem_cons_of_mem n hc))
      (fun c hc q hq => hns c (List.mem_cons_of_mem n hc) q (by rwa [hbelow] at hq))
      (fun f hf c hc => by
        rw [hholds] at hc
        rw [hlink.size]
        exact hF f (List.mem_append_right F₁ hf) c hc)
    -- what the first root got is not changed by the others
    have hlater : Relinks W (plant p s n) (ns.foldl (plant p) (plant p s n)) :=
      relinks_plants hp (fun c hc => by
        rw [hholds]
        exact (hkids c (List.mem_cons_of_mem n hc)).1)
      fun c hc q hq => hns c (List.mem_cons_of_mem n hc) q (by rwa [hbelow] at hq)
    have hkeep : ∀ q c, W q → s.Holds q c → (plant p s n).parent (some c) = some q →
        (ns.foldl (plant p) (plant p s n)).parent (some c) = some q := by
      intro q c hq hc he
      refine hlater.keeps (fun q' hq' hc' => ?_) he
      exact hU q' q c hq' hq (by rwa [hholds] at hc') hc
    refine ⟨fun c hc => ?_, fun f hf c hc => ?_⟩
    · rcases List.mem_cons.1 hc with rfl | hc
      · exact hkeep p c hp hn hroot
      · exact hroots c hc
    · rcases List.mem_append.1 hf with hf | hf
      · exact hkeep f c (hloose f hf).1 hc ((hloose f hf).2 c hc)
      · exact hrest f hf c (by rwa [hholds])

/-- A new part for the tree in place of subtrees at `R`: its loose nodes are not in the tree, and its
pieces are apart and come from those subtrees. -/
structure Scion (s : Store) (root : NodeId) (R : NodeId → Prop) (ns F D : List NodeId) : Prop where
  sprout : s.Sprout ns F D
  nodup : F.Nodup
  loose : ∀ f ∈ F, ¬ s.Below root f
  apart : D.Pairwise s.Apart
  pieces : ∀ d ∈ D, ∃ r, R r ∧ s.Below r d

namespace Scion

variable (h : s.Scion root R ns F D) (hR : ∀ r, R r → s.Below root r)

include h hR

theorem below_piece (hd : d ∈ D) : s.Below root d := by
  obtain ⟨r, hr, hrd⟩ := h.pieces d hd
  exact (hR r hr).trans hrd

theorem nodup_slots : (ns ++ F.flatMap fun f => s.children (some f)).Nodup := by
  refine h.sprout.perm.nodup_iff.2 (List.nodup_append.2 ⟨h.nodup, ?_, ?_⟩)
  · exact h.apart.imp fun hap => hap.ne
  · rintro f hf d hd rfl
    exact h.loose f hf (h.below_piece hR hd)

theorem children_nodup (hf : f ∈ F) : (s.children (some f)).Nodup :=
  (List.nodup_flatMap.1 (h.nodup_slots hR).of_append_right).1 f hf

theorem holder_unique {f' : NodeId} (hf : f ∈ F) (hf' : f' ∈ F) (hc : s.Holds f c)
    (hc' : s.Holds f' c) : f = f' := by
  by_contra hne
  have hsymm : Std.Symm (Function.onFun List.Disjoint fun f => s.children (some f)) :=
    ⟨fun _ _ h x hx hx' => h hx' hx⟩
  exact (List.nodup_flatMap.1 (h.nodup_slots hR).of_append_right).2.forall hf hf' hne hc hc'

theorem not_holds_root (hc : c ∈ ns) (hf : f ∈ F) : ¬ s.Holds f c := fun hfc =>
  List.disjoint_of_nodup_append (h.nodup_slots hR) hc (List.mem_flatMap.2 ⟨f, hf, hfc⟩)

end Scion

end Modernizer.Store
