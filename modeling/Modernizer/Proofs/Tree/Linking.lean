import Mathlib.Data.Finset.Card
import Modernizer.Proofs.Tree.Scion

/-! When linking ends. The nodes below a new one are linked from a stack on which each synthesized
child is put, and nothing keeps a node from being put there again. So the stack empties if no
synthesized node that it comes to reaches itself, and then the links are those of `adoptChildren`;
otherwise it never does (`adopts_iff`). -/

namespace Modernizer.Store

open Relation

variable {s s' s₁ s₂ : Store} {c m n : NodeId} {ns ns' cs : List NodeId} {U : Finset NodeId}
  {fuel : Nat} {Q : NodeId → Prop}

def FreshChild (s : Store) (p c : NodeId) : Prop := s.Holds p c ∧ s.isSynthesized (some c) = true

def Grounded (s : Store) (n : NodeId) : Prop :=
  ∀ m, s.FreshBelow n m → ¬ TransGen s.FreshChild m m

def newChildren (s : Store) (n : NodeId) : List NodeId :=
  (s.children (some n)).filter fun c => s.isSynthesized (some c)

def linkChildren (s : Store) (n : NodeId) : Store :=
  (s.children (some n)).foldl (fun s c => s.setParent (some c) (some n)) s

/-- The loop over a stack of nodes comes to its end with this store. The node on top has its
children linked and gives way to those that are synthesized, the last one on top. -/
inductive Adopts : List NodeId → Store → Store → Prop
  | done (s : Store) : Adopts [] s s
  | round {n : NodeId} {ns : List NodeId} {s s' : Store} :
      Adopts ((s.newChildren n).reverse ++ ns) (s.linkChildren n) s' → Adopts (n :: ns) s s'

theorem mem_newChildren : c ∈ s.newChildren n ↔ s.FreshChild n c := by
  rw [newChildren, List.mem_filter]
  exact Iff.rfl

theorem freshChild_congr (hform : ∀ m, s'.form? m = s.form? m)
    (hsyn : ∀ m, s'.isSynthesized m = s.isSynthesized m) : s'.FreshChild = s.FreshChild := by
  funext p c
  simp only [FreshChild, holds_congr hform, hsyn]

theorem newChildren_congr (hform : ∀ m, s'.form? m = s.form? m)
    (hsyn : ∀ m, s'.isSynthesized m = s.isSynthesized m) : s'.newChildren = s.newChildren := by
  funext n
  simp only [newChildren, children_congr (hform _), hsyn]

theorem grounded_congr (hform : ∀ m, s'.form? m = s.form? m)
    (hsyn : ∀ m, s'.isSynthesized m = s.isSynthesized m) : s'.Grounded n ↔ s.Grounded n := by
  rw [Grounded, freshBelow_congr hform hsyn, freshChild_congr hform hsyn, Grounded]

theorem relinks_linkChildren (s : Store) (n : NodeId) :
    Relinks (· = n) s (s.linkChildren n) := relinks_setParents fun _ hc => hc

theorem grounded_iff : s.Grounded n ↔ ∀ c, s.FreshChild n c → s.Grounded c := by
  constructor
  · exact fun h c hc m hm => h m (ReflTransGen.head hc hm)
  · intro h m hm hloop
    rcases ReflTransGen.cases_head hm with rfl | ⟨c, hc, hcm⟩
    · -- a way from the node back to it begins with a child, from where it is the same way
      obtain ⟨c, hc, hcn⟩ := TransGen.head'_iff.1 hloop
      exact h c hc n hcn hloop
    · exact h c hc m hcm hloop

namespace Adopts

theorem append (h : Adopts ns s s₁) (h' : Adopts ns' s₁ s') : Adopts (ns ++ ns') s s' := by
  induction h with
  | done s => exact h'
  | @round n ns s s₁ _ ih =>
    have h₁ := ih h'
    rw [List.append_assoc] at h₁
    exact .round h₁

theorem unique (h : Adopts ns s s₁) (h' : Adopts ns s s₂) : s₁ = s₂ := by
  induction h with
  | done s =>
    cases h'
    rfl
  | round _ ih =>
    cases h' with
    | round h' => exact ih h'

theorem relinks (h : Adopts ns s s') : Relinks (fun _ => True) s s' := by
  induction h with
  | done s => exact .refl s
  | round _ ih => exact ((relinks_linkChildren _ _).mono fun _ _ => trivial).trans ih

theorem grounded (h : Adopts ns s s') : ∀ n ∈ ns, s.Grounded n := by
  induction h with
  | done s => exact fun _ hn => absurd hn List.not_mem_nil
  | @round n ns s s' _ ih =>
    have hlink := relinks_linkChildren s n
    have hground : ∀ m ∈ (s.newChildren n).reverse ++ ns, s.Grounded m := fun m hm =>
      (grounded_congr hlink.form hlink.synthesized).1 (ih m hm)
    intro m hm
    rcases List.mem_cons.1 hm with rfl | hm
    · exact grounded_iff.2 fun c hc => hground c <|
        List.mem_append_left ns (List.mem_reverse.2 (mem_newChildren.2 hc))
    · exact hground m (List.mem_append_right _ hm)

end Adopts

theorem adopts_adoptEach (hs : Relinks Q s s₁)
    (hturn : ∀ c ∈ cs, s.isSynthesized (some c) = true → ∀ t, Relinks (fun _ => True) s t →
      Adopts [c] t (adoptChildren.go fuel c t)) :
    Adopts (cs.filter fun c => s.isSynthesized (some c)).reverse s₁ (adoptEach fuel cs s₁) := by
  induction cs with
  | nil => exact .done s₁
  | cons c cs ih =>
    have hrest := ih fun d hd => hturn d (List.mem_cons_of_mem c hd)
    have hsame : Relinks (fun _ => True) s (adoptEach fuel cs s₁) :=
      (hs.mono fun _ _ => trivial).trans hrest.relinks
    rw [adoptEach_cons, hsame.synthesized]
    rw [List.filter_cons]
    split
    · rename_i hc
      -- the last child is taken up first, as from a stack
      rw [List.reverse_cons]
      exact hrest.append (hturn c List.mem_cons_self hc _ hsame)
    · exact hrest

theorem adopts_go (hn : s.Grounded n) (hU : ∀ m, TransGen s.FreshChild n m → m ∈ U)
    (hfuel : U.card < fuel) (hs : Relinks Q s s₁) :
    Adopts [n] s₁ (adoptChildren.go fuel n s₁) := by
  induction fuel generalizing n U s₁ Q with
  | zero => exact absurd hfuel (Nat.not_lt_zero _)
  | succ fuel ih =>
    refine .round ?_
    rw [List.append_nil, newChildren_congr hs.form hs.synthesized, adoptChildren_go_succ,
      children_congr (hs.form _), newChildren]
    have hlink : Relinks (fun _ => True) s (s₁.linkChildren n) :=
      (hs.mono fun _ _ => trivial).trans <|
        (relinks_linkChildren s₁ n).mono fun _ _ => trivial
    rw [linkChildren, children_congr (hs.form _)] at hlink ⊢
    refine adopts_adoptEach hlink fun c hc hsyn t ht => ?_
    have hchild : s.FreshChild n c := ⟨hc, hsyn⟩
    -- below a child nothing leads back to it, so one node less is left there
    refine ih (U := U.erase c) (grounded_iff.1 hn c hchild) (fun m hm => ?_) ?_ ht
    · refine Finset.mem_erase.2 ⟨?_, hU m (TransGen.head hchild hm)⟩
      rintro rfl
      exact hn m (.single hchild) hm
    · have := Finset.card_erase_lt_of_mem (hU c (.single hchild))
      omega

theorem mem_range_of_freshChild (h : TransGen s.FreshChild n m) : m ∈ Finset.range s.size := by
  obtain ⟨_, -, -, hsyn⟩ := TransGen.tail'_iff.1 h
  obtain ⟨x, hx, -⟩ := (Option.any_eq_true _ _).1 hsyn
  rw [Finset.mem_range]
  by_contra hm
  rw [get?_eq_none_iff.2 (Nat.le_of_not_lt hm)] at hx
  cases hx

/-- Linking below a node ends exactly if nothing there comes back to itself, and leaves what
`adoptChildren` does. -/
theorem adopts_iff : Adopts [n] s s' ↔ s.Grounded n ∧ s' = s.adoptChildren n := by
  have hends : s.Grounded n → Adopts [n] s (s.adoptChildren n) := fun hn =>
    adopts_go hn (fun _ => mem_range_of_freshChild)
      (by rw [Finset.card_range]; exact Nat.lt_succ_self _) (Relinks.refl (Q := fun _ => True) s)
  constructor
  · intro h
    have hn := h.grounded n List.mem_cons_self
    exact ⟨hn, h.unique (hends hn)⟩
  · rintro ⟨hn, rfl⟩
    exact hends hn

theorem TreeAt.grounded {root : NodeId} (t : s.TreeAt root) (hn : s.Below root n) :
    s.Grounded n := fun _ hm hloop =>
  t.acyclic (hn.trans hm.below) (TransGen.mono (fun _ _ hc => hc.1) _ _ hloop)

/-! The same for the statements that a container gets. -/

/-- The statements are linked to their container one after the other, each with what is new below
it, and this comes to its end with this store. -/
inductive Seats (container : Slot) : List Slot → Store → Store → Prop
  | done (s : Store) : Seats container [] s s
  | parsed {statement : Slot} {rest : List Slot} {s s' : Store} :
      s.isSynthesized statement = false →
      Seats container rest (s.setParent statement container) s' →
      Seats container (statement :: rest) s s'
  | new {n : NodeId} {rest : List Slot} {s s₁ s' : Store} : s.isSynthesized (some n) = true →
      Adopts [n] (s.setParent (some n) container) s₁ → Seats container rest s₁ s' →
      Seats container (some n :: rest) s s'

/-- What a container does for one of its statements. -/
def seat (container : Slot) (s : Store) (statement : Slot) : Store :=
  let s := s.setParent statement container
  if s.isSynthesized statement then statement.elim s s.adoptChildren else s

theorem isSynthesized_setParent (s : Store) (n p m : Slot) :
    (s.setParent n p).isSynthesized m = s.isSynthesized m :=
  isSynthesized_modify _ _ _ _ fun _ => rfl

theorem form?_setParent (s : Store) (n p m : Slot) : (s.setParent n p).form? m = s.form? m := by
  rw [setParent, form?_modify]
  split <;> rfl

theorem form?_seat (container : Slot) (s : Store) (statement m : Slot) :
    (seat container s statement).form? m = s.form? m := by
  unfold seat
  dsimp only
  split
  · cases statement with
    | none => exact form?_setParent ..
    | some n => exact ((relinks_adoptChildren n _).form m).trans (form?_setParent ..)
  · exact form?_setParent ..

theorem isSynthesized_seat (container : Slot) (s : Store) (statement m : Slot) :
    (seat container s statement).isSynthesized m = s.isSynthesized m := by
  unfold seat
  dsimp only
  split
  · cases statement with
    | none => exact isSynthesized_setParent ..
    | some n => exact ((relinks_adoptChildren n _).synthesized m).trans (isSynthesized_setParent ..)
  · exact isSynthesized_setParent ..

theorem seat_of_parsed {container statement : Slot} (h : s.isSynthesized statement = false) :
    seat container s statement = s.setParent statement container := by
  simp [seat, isSynthesized_setParent, h]

theorem seat_of_new {container : Slot} (h : s.isSynthesized (some n) = true) :
    seat container s (some n) = (s.setParent (some n) container).adoptChildren n := by
  simp [seat, isSynthesized_setParent, h]

/-- At no new one of these statements linking comes back to where it was. -/
def SeatsGrounded (s : Store) (statements : List Slot) : Prop :=
  ∀ n, some n ∈ statements → s.isSynthesized (some n) = true → s.Grounded n

theorem seatsGrounded_seat {container statement : Slot} {statements : List Slot} :
    (seat container s statement).SeatsGrounded statements ↔ s.SeatsGrounded statements := by
  simp only [SeatsGrounded, isSynthesized_seat,
    grounded_congr (form?_seat container s statement) (isSynthesized_seat container s statement)]

theorem adopts_setParent_iff {container : Slot} (h : s.isSynthesized (some n) = true) :
    Adopts [n] (s.setParent (some n) container) s₁ ↔
      s.Grounded n ∧ s₁ = seat container s (some n) := by
  rw [adopts_iff, seat_of_new h,
    grounded_congr (form?_setParent s _ _) (isSynthesized_setParent s _ _)]

/-- A container comes to its end with its statements exactly if linking does at each new one. -/
theorem seats_iff {container : Slot} {statements : List Slot} :
    Seats container statements s s' ↔
      s.SeatsGrounded statements ∧ s' = statements.foldl (seat container) s := by
  induction statements generalizing s with
  | nil =>
    constructor
    · rintro ⟨⟩
      exact ⟨fun _ hn => absurd hn List.not_mem_nil, rfl⟩
    · rintro ⟨-, rfl⟩
      exact .done _
  | cons statement rest ih =>
    rw [List.foldl_cons]
    constructor
    · intro h
      cases h with
      | parsed hsyn h =>
        obtain ⟨hrest, rfl⟩ := ih.1 (seat_of_parsed hsyn ▸ h)
        refine ⟨fun n hn hnew => ?_, rfl⟩
        rcases List.mem_cons.1 hn with rfl | hn
        · rw [hsyn] at hnew
          cases hnew
        · exact seatsGrounded_seat.1 hrest n hn hnew
      | @new n _ _ _ _ hsyn hn h =>
        obtain ⟨hground, rfl⟩ := (adopts_setParent_iff hsyn).1 hn
        obtain ⟨hrest, rfl⟩ := ih.1 h
        refine ⟨fun m hm hnew => ?_, rfl⟩
        rcases List.mem_cons.1 hm with e | hm
        · rwa [Option.some.inj e]
        · exact seatsGrounded_seat.1 hrest m hm hnew
    · rintro ⟨hground, rfl⟩
      have hrest : Seats container rest (seat container s statement)
          (rest.foldl (seat container) (seat container s statement)) :=
        ih.2 ⟨seatsGrounded_seat.2 fun n hn => hground n (List.mem_cons_of_mem _ hn), rfl⟩
      cases hsyn : s.isSynthesized statement with
      | false => exact .parsed hsyn (seat_of_parsed hsyn ▸ hrest)
      | true =>
        cases statement with
        | none => cases hsyn
        | some n =>
          exact .new hsyn ((adopts_setParent_iff hsyn).2
            ⟨hground n List.mem_cons_self hsyn, rfl⟩) hrest

end Modernizer.Store
