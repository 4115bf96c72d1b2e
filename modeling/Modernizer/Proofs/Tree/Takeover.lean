import Mathlib.Algebra.BigOperators.Group.Finset.Basic
import Mathlib.Algebra.Order.Group.Multiset
import Modernizer.Proofs.Tree.Footing

/-! One node takes the place of another, on any store. It is refused if the parent of the old node
does not hold it, before anything is changed. Otherwise one slot value changes, and all that the new
part holds is linked to its holder. Nothing is asked of the rest of the store: the part may be built
around the node whose place it takes, whose old parent then still holds a slot of it. -/

namespace Modernizer

def Attached.toMultiset (a : Attached) : Multiset Nat := ↑(a.leading ++ a.trailing)

theorem Attached.toMultiset_append (a b : Attached) :
    (a.append b).toMultiset = a.toMultiset + b.toMultiset := by
  simp only [toMultiset, append, ← Multiset.coe_add]
  exact add_add_add_comm ..

namespace Store

open Relation

variable {s s' s₂ : Store} {U : Finset NodeId} {ns : List NodeId} {a c d h m n new old p q : NodeId}
  {fuel : Nat} {node : Node} {form : Form}

/-! Adoption in a store with cycles, too. -/

theorem lt_size_of_isSynthesized (h : s.isSynthesized (some n) = true) : n < s.size := by
  obtain ⟨x, hx, -⟩ := (Option.any_eq_true _ _).1 h
  exact lt_size_of_get? hx

theorem relinks_adoptHead_fresh (hs : Relinks (s.FreshBelow a) s s₂) (hn : s.FreshBelow a n)
    (hd : s.Holds n d) : Relinks (s.FreshBelow a) s₂
      (if s₂.isSynthesized (some d) then adoptChildren.go fuel d s₂ else s₂) := by
  split
  · rename_i hsyn
    refine (relinks_adoptFresh_go fuel d s₂).mono fun q hq => ?_
    rw [freshBelow_congr hs.form hs.synthesized] at hq
    exact ReflTransGen.trans (hn.tail ⟨hd, (hs.synthesized _).symm.trans hsyn⟩) hq
  · exact .refl s₂

theorem relinks_adoptEach_fresh (hs : Relinks (s.FreshBelow a) s s₂) (hn : s.FreshBelow a n)
    (hns : ∀ d ∈ ns, s.Holds n d) : Relinks (s.FreshBelow a) s₂ (adoptEach fuel ns s₂) := by
  induction ns with
  | nil => exact .refl s₂
  | cons d ns ih =>
    have hrest := ih fun e he => hns e (List.mem_cons_of_mem d he)
    exact hrest.trans (relinks_adoptHead_fresh (hs.trans hrest) hn (hns d List.mem_cons_self))

theorem parent_adoptEach (hU : s.UniqueIn (s.FreshBelow a)) (hs : Relinks (s.FreshBelow a) s s₂)
    (hn : s.FreshBelow a n) (hns : ∀ e ∈ ns, s.Holds n e) (hd : d ∈ ns)
    (hsyn : s.isSynthesized (some d) = true) (hh : s.FreshBelow a h) (hc : s.Holds h c)
    (hturn : ∀ s₃, Relinks (s.FreshBelow a) s s₃ →
      (adoptChildren.go fuel d s₃).parent (some c) = some h) :
    (adoptEach fuel ns s₂).parent (some c) = some h := by
  induction ns with
  | nil => cases hd
  | cons e ns ih =>
    have hrest : Relinks (s.FreshBelow a) s (adoptEach fuel ns s₂) :=
      hs.trans (relinks_adoptEach_fresh hs hn fun e' he' => hns e' (List.mem_cons_of_mem e he'))
    rw [adoptEach_cons]
    rcases List.mem_cons.1 hd with rfl | hd
    · rw [if_pos ((hrest.synthesized _).trans hsyn)]
      exact hturn _ hrest
    · have hlinked := ih (fun e' he' => hns e' (List.mem_cons_of_mem e he')) hd
      refine (relinks_adoptHead_fresh hrest hn (hns e List.mem_cons_self)).keeps
        (fun q hq hqc => ?_) hlinked
      exact hU q h c hq hh (by rwa [holds_congr hrest.form] at hqc) hc

def FreshIn (s : Store) (U : Finset NodeId) (p c : NodeId) : Prop :=
  (s.Holds p c ∧ s.isSynthesized (some c) = true) ∧ c ∈ U

theorem freshIn_erase (hm : ReflTransGen (s.FreshIn U) n m) :
    ReflTransGen (s.FreshIn (U.erase n)) n m := by
  induction hm with
  | refl => exact .refl
  | @tail p c _ hc ih =>
    by_cases hcn : c = n
    · exact hcn ▸ .refl
    · exact ih.tail ⟨hc.1, Finset.mem_erase.2 ⟨hcn, hc.2⟩⟩

theorem freshIn_range (hm : s.FreshBelow n m) :
    ReflTransGen (s.FreshIn (Finset.range s.size)) n m :=
  ReflTransGen.mono
    (fun _ _ hc => ⟨hc, Finset.mem_range.2 (lt_size_of_isSynthesized hc.2)⟩) _ _ hm

theorem parent_adoptFresh_go (hU : s.UniqueIn (s.FreshBelow a)) (hs : Relinks (s.FreshBelow a) s s₂)
    (hn : s.FreshBelow a n) (hfuel : U.card < fuel) (hh : ReflTransGen (s.FreshIn U) n h)
    (hc : s.Holds h c) (hlt : c < s.size) :
    (adoptChildren.go fuel n s₂).parent (some c) = some h := by
  induction fuel generalizing n U s₂ with
  | zero => cases hfuel
  | succ fuel ih =>
    have hchildren : s₂.children (some n) = s.children (some n) := children_congr (hs.form _)
    have hset : Relinks (s.FreshBelow a) s₂ ((s.children (some n)).foldl
        (fun s c => s.setParent (some c) (some n)) s₂) :=
      (relinks_setParents fun e he => by rwa [holds_congr hs.form]).mono fun _ hq => hq ▸ hn
    have hbelow : s.FreshBelow n h := ReflTransGen.mono (fun _ _ hd => hd.1) _ _ hh
    rw [adoptChildren_go_succ, hchildren]
    rcases ReflTransGen.cases_head hh with rfl | ⟨d, hd, hdh⟩
    · -- the children of the node itself are linked first
      refine (relinks_adoptEach_fresh (hs.trans hset) hn fun _ he => he).keeps
        (fun q hq hqc => ?_) (parent_setParents (fun e he => ?_) hc (hs.size ▸ hlt))
      · exact hU q n c hq hn (by rwa [holds_congr (hs.trans hset).form] at hqc) hc
      · rwa [holds_congr hs.form]
    · refine parent_adoptEach hU (hs.trans hset) hn (fun _ he => he) hd.1.1 hd.1.2
        (ReflTransGen.trans hn hbelow) hc fun s₃ hs₃ => ?_
      refine ih (U := U.erase d) hs₃ (hn.tail hd.1) ?_ (freshIn_erase hdh)
      have := Finset.card_erase_lt_of_mem hd.2
      omega

theorem parent_adoptFresh (hU : s.UniqueIn (s.FreshBelow n)) (hh : s.FreshBelow n h)
    (hc : s.Holds h c) (hlt : c < s.size) : (s.adoptChildren n).parent (some c) = some h := by
  refine parent_adoptFresh_go hU (.refl s) .refl ?_ (freshIn_range hh) hc hlt
  rw [Finset.card_range]
  exact Nat.lt_succ_self _

/-! What is replaced. -/

/-- A new node that is still to be put into the tree: no node holds it, and of the nodes that are
reached from it through synthesized ones no two hold the same node, so that these and what is right
below them are a tree. -/
structure Unplaced (s : Store) (new : NodeId) : Prop where
  synthesized : s.isSynthesized (some new) = true
  free : ∀ p, ¬ s.Holds p new
  unique : s.UniqueIn (s.FreshBelow new)

theorem replace?_eq_none_iff {new : Slot} : s.replace? (some old) new = none ↔
    ∀ p, s.parent (some old) = some p → ¬ s.Holds p old := by
  have hparent : s.parent (some old) = (s.get? (some old)).bind (·.parent) := rfl
  cases hold : s.get? (some old) with
  | none => simp [replace?, hparent, hold]
  | some node =>
    rw [hparent, hold, Option.bind_some, replace?, hold, Option.bind_some]
    cases hform : s.form? node.parent with
    | none =>
      refine iff_of_true rfl fun p hp hc => ?_
      obtain ⟨f, hf, -⟩ := form?_eq_some_of_holds hc
      rw [hp, hf] at hform
      cases hform
    | some form =>
      obtain ⟨p, hp, hf⟩ := exists_of_form? hform
      have hholds : s.Holds p old ↔ form.slots.contains (some old) = true := by
        rw [holds_iff_mem_slots, slots, hf]
        simp
      rw [Option.bind_some, hp]
      split
      · rename_i hmem
        exact iff_of_false (by simp) fun h => h p rfl (hholds.2 hmem)
      · rename_i hmem
        refine iff_of_true rfl fun q hq hc => hmem (hholds.1 ?_)
        exact Option.some.inj hq ▸ hc

def handOver (s : Store) (old new : NodeId) : Store :=
  let cleared := s.setAttached (some old) .none
  cleared.setAttached (some new)
    ((cleared.attachedTo (some new)).append (s.attachedTo (some old)))

theorem attachedTo_handOver (hne : new ≠ old) (m : Slot) :
    (s.handOver old new).attachedTo m =
      if some new = m then (s.attachedTo (some new)).append (s.attachedTo (some old))
      else if some old = m then .none else s.attachedTo m := by
  have hne' : some old ≠ some new := fun e => hne (Option.some.inj e).symm
  simp only [handOver, attachedTo_setAttached, if_neg hne']

theorem isSynthesized_swapped {m : Slot} :
    (s.swapped (some old) (some new) node form).isSynthesized m = s.isSynthesized m := by
  have h := (ground_swapped s (some old) (some new) node form).map Prod.fst m
  have hany : ∀ o : Option Node, o.any (·.synthesized) = (o.map (Prod.fst ∘ ground)).getD false :=
    fun o => by cases o <;> rfl
  rw [isSynthesized, isSynthesized, hany, hany, h]

theorem exists_of_replace? (hs : s.replace? (some old) (some new) = some s')
    (hsyn : s.isSynthesized (some new) = true) :
    ∃ p node form, s.get? (some old) = some node ∧ node.parent = some p ∧
      s.form? (some p) = some form ∧ some old ∈ form.slots ∧
      s' = (((s.swapped (some old) (some new) node form).adoptChildren new).handOver old
        new).markModified (some p) := by
  obtain ⟨node, hold, hs⟩ := Option.bind_eq_some_iff.1 hs
  obtain ⟨form, hform, hs⟩ := Option.bind_eq_some_iff.1 hs
  obtain ⟨p, hp, hf⟩ := exists_of_form? hform
  split at hs
  · rename_i hmem
    have hadopted : ∀ t : Store, t.isSynthesized (some new) = true →
        (if t.isSynthesized (some new) then (some new : Slot).elim t t.adoptChildren else t) =
          t.adoptChildren new := fun t ht => if_pos ht
    refine ⟨p, node, form, hold, hp, hf, by simpa using hmem, ?_⟩
    rw [← hp, ← hadopted _ (isSynthesized_swapped.trans hsyn)]
    exact (Option.some.inj hs).symm
  · cases hs

section swapped

variable (hp : node.parent = some p) (hform : s.form? (some p) = some form)

include hp hform

theorem holds_of_swapped (hc : (s.swapped (some old) (some new) node form).Holds q c) :
    q = p ∧ c = new ∨ s.Holds q c := by
  rw [holds_iff_mem_slots, slots, form?_swapped (hp ▸ hform), hp] at hc
  split at hc
  · rename_i hq
    cases hq
    rw [Option.map_some, Option.getD_some, Form.slots_mapSlots] at hc
    obtain ⟨v, hv, e⟩ := List.mem_map.1 hc
    unfold Form.exchangeSlot at e
    split at e
    · exact .inl ⟨rfl, (Option.some.inj e).symm⟩
    · exact .inr (holds_of_form hform (e ▸ hv))
  · exact .inr (holds_iff_mem_slots.2 hc)

variable (hu : s.Unplaced new)

include hu

theorem freshBelow_of_swapped
    (hm : (s.swapped (some old) (some new) node form).FreshBelow new m) : s.FreshBelow new m := by
  induction hm with
  | refl => exact .refl
  | tail _ hc ih =>
    rcases holds_of_swapped hp hform hc.1 with ⟨-, rfl⟩ | hold
    · exact .refl
    · exact ih.tail ⟨hold, isSynthesized_swapped.symm.trans hc.2⟩

theorem uniqueIn_swapped : (s.swapped (some old) (some new) node form).UniqueIn
    ((s.swapped (some old) (some new) node form).FreshBelow new) := by
  intro q q' c hq hq' hc hc'
  have hfresh : ∀ {q}, s.Holds q c → c ≠ new := by
    rintro q hqc rfl
    exact hu.free q hqc
  rcases holds_of_swapped hp hform hc with ⟨rfl, rfl⟩ | hc
  · rcases holds_of_swapped hp hform hc' with ⟨rfl, -⟩ | hc'
    · rfl
    · exact absurd rfl (hfresh hc')
  · rcases holds_of_swapped hp hform hc' with ⟨-, e⟩ | hc'
    · exact absurd e (hfresh hc)
    · exact hu.unique q q' c (freshBelow_of_swapped hp hform hu hq)
        (freshBelow_of_swapped hp hform hu hq') hc hc'

end swapped

def attachedComments (s : Store) : Multiset Nat :=
  ∑ n ∈ Finset.range s.size, (s.attachedTo (some n)).toMultiset

theorem attachedComments_of_handOver (hsize : s'.size = s.size) (hold : old < s.size)
    (hnew : new < s.size) (hne : new ≠ old)
    (h : ∀ m, s'.attachedTo m =
      if some new = m then (s.attachedTo (some new)).append (s.attachedTo (some old))
      else if some old = m then .none else s.attachedTo m) :
    s'.attachedComments = s.attachedComments := by
  have hnew' : new ∈ Finset.range s.size := Finset.mem_range.2 hnew
  have hold' : old ∈ (Finset.range s.size).erase new :=
    Finset.mem_erase.2 ⟨hne.symm, Finset.mem_range.2 hold⟩
  have hsplit : ∀ f : NodeId → Multiset Nat, ∑ n ∈ Finset.range s.size, f n =
      f new + (f old + ∑ n ∈ ((Finset.range s.size).erase new).erase old, f n) := fun f => by
    rw [Finset.add_sum_erase _ f hold', Finset.add_sum_erase _ f hnew']
  have hrest : ∑ n ∈ ((Finset.range s.size).erase new).erase old,
      (s'.attachedTo (some n)).toMultiset =
      ∑ n ∈ ((Finset.range s.size).erase new).erase old, (s.attachedTo (some n)).toMultiset := by
    refine Finset.sum_congr rfl fun n hn => ?_
    simp only [Finset.mem_erase] at hn
    rw [h, if_neg fun e => hn.2.1 (Option.some.inj e).symm,
      if_neg fun e => hn.1 (Option.some.inj e).symm]
  have hcleared : s'.attachedTo (some old) = .none := by
    rw [h, if_neg fun e => hne (Option.some.inj e), if_pos rfl]
  have hgiven : s'.attachedTo (some new) =
      (s.attachedTo (some new)).append (s.attachedTo (some old)) := by
    rw [h, if_pos rfl]
  have hnone : Attached.none.toMultiset = 0 := rfl
  rw [attachedComments, hsize, attachedComments, hsplit, hrest, hcleared, hgiven, hnone,
    Attached.toMultiset_append, hsplit fun n => (s.attachedTo (some n)).toMultiset, add_assoc,
    zero_add]

/-- In `s'` the node `new` has the place that `old` had below `p`: the slots of `p` that held the one
hold the other, and no other slot is another one. It stands where `old` stood and comes from the
same parsed node, all that the new part holds is linked to its holder, and the comments of `old`
follow those of `new`. -/
structure TakesPlace (s : Store) (p old new : NodeId) (s' : Store) : Prop where
  size : s'.size = s.size
  holder : s'.form? (some p) = (s.form? (some p)).map (·.mapSlots (Form.exchangeSlot old new))
  form : ∀ m, m ≠ some p → s'.form? m = s.form? m
  place : ∃ x y, s.get? (some old) = some x ∧ s'.get? (some new) = some y ∧ y.parent = some p ∧
    y.pos = x.pos ∧ y.stop = x.stop ∧
    y.origin = if x.synthesized && x.origin.isSome then x.origin else some old
  standing : ∀ m, m ≠ some new → (s'.get? m).map standing = (s.get? m).map standing
  linked : ∀ h c, s'.FreshBelow new h → s'.Holds h c → c < s'.size → s'.parent (some c) = some h
  attached : ∀ m, s'.attachedTo m =
    if some new = m then (s.attachedTo (some new)).append (s.attachedTo (some old))
    else if some old = m then .none else s.attachedTo m
  comments : s'.attachedComments = s.attachedComments

theorem exists_get?_swapped (hsyn : s.isSynthesized (some new) = true) :
    ∃ x, x.synthesized = true ∧ (s.swapped (some old) (some new) node form).get? (some new) =
      some (placeOf (some old) node x) := by
  obtain ⟨x, hx, hx'⟩ := (Option.any_eq_true _ _).1 hsyn
  have hflag : Agree Node.synthesized s (s.modify node.parent
      ({ · with form := form.mapSlots (Form.exchangeSlot old new) })) := .modify s _ fun _ => rfl
  obtain ⟨y, hy, e⟩ := Option.map_eq_some_iff.1 ((hflag _).trans (congrArg _ hx))
  exact ⟨y, e.trans hx', by rw [swapped, get?_modify, if_pos rfl]; exact congrArg _ hy⟩

theorem takesPlace_of_replace? (hs : s.replace? (some old) (some new) = some s')
    (hne : new ≠ old) (hu : s.Unplaced new) :
    ∃ p, s.parent (some old) = some p ∧ s.Holds p old ∧ s.TakesPlace p old new s' := by
  obtain ⟨p, node, form, hold, hp, hform, hmem, hs'⟩ := exists_of_replace? hs hu.synthesized
  let s₁ := s.swapped (some old) (some new) node form
  let s₂ := s₁.adoptChildren new
  have hsize₁ : s₁.size = s.size := by simp [s₁, swapped]
  have hlink : Relinks (s₁.FreshBelow new) s₁ s₂ := relinks_adoptFresh new s₁
  have hsame : SameTree s₂ s' := hs' ▸ ((sameTree_setAttached s₂ _ _).trans
    (sameTree_setAttached _ _ _)).trans (sameTree_markModified _ _)
  have hfinal : ∀ m, s'.form? m = s₁.form? m := fun m => (hsame.form m).trans (hlink.form m)
  have hsize : s'.size = s.size := (hsame.size.trans hlink.size).trans hsize₁
  have hagree : Agree standing s₁ s' := hs' ▸ ((agree_adoptChildren (fun _ _ => rfl) s₁ new).trans
    (.of_nodes rfl)).trans (agree_markModified (fun _ => rfl) _ _)
  have hattached : ∀ m, s'.attachedTo m =
      if some new = m then (s.attachedTo (some new)).append (s.attachedTo (some old))
      else if some old = m then .none else s.attachedTo m := by
    have hkept : ∀ m, s₂.attachedTo m = s.attachedTo m := attachedTo_congr <|
      (attached_adoptChildren ..).trans ((attached_modify ..).trans (attached_modify ..))
    intro m
    rw [hs', attachedTo_congr (attached_markModified ..), attachedTo_handOver hne]
    simp only [s₂, s₁] at hkept
    simp only [hkept]
  have hunique : s₁.UniqueIn (s₁.FreshBelow new) := uniqueIn_swapped hp hform hu
  have hlinked : ∀ h c, s'.FreshBelow new h → s'.Holds h c → c < s'.size →
      s'.parent (some c) = some h := by
    intro h c hh hc hlt
    rw [freshBelow_congr hsame.form hsame.synthesized,
      freshBelow_congr hlink.form hlink.synthesized] at hh
    rw [holds_congr hfinal] at hc
    rw [hsame.parent]
    exact parent_adoptFresh hunique hh hc (by rwa [hsize, ← hsize₁] at hlt)
  refine ⟨p, by rw [parent, hold, Option.bind_some, hp], holds_of_form hform hmem, hsize, ?_,
    fun m hm => ?_, ?_, fun m hm => (hagree m).trans (standing_swapped hm), hlinked, hattached, ?_⟩
  · rw [hfinal, form?_swapped (hp ▸ hform), if_pos hp, hform, Option.map_some]
  · rw [hfinal, form?_swapped (hp ▸ hform), if_neg (hp ▸ Ne.symm hm)]
  · obtain ⟨x, hsyn, hx⟩ : ∃ x, x.synthesized = true ∧ (s.swapped (some old) (some new) node
        form).get? (some new) = some (placeOf (some old) node x) :=
      exists_get?_swapped hu.synthesized
    obtain ⟨y, hy, e⟩ := Option.map_eq_some_iff.1 ((hagree _).trans (congrArg _ hx))
    rw [placeOf, if_pos hsyn] at e hx
    simp only [standing, Prod.mk.injEq] at e
    obtain ⟨hpos, hstop, horigin, -⟩ := e
    -- a link that leads to `p` stays, for no other node holds `new`
    have hparent : s'.parent (some new) = some p := by
      rw [hsame.parent]
      refine hlink.keeps (fun q _ hq => ?_) (by simp only [s₁, parent, hx, Option.bind_some, hp])
      rcases holds_of_swapped hp hform hq with ⟨rfl, -⟩ | hq
      · rfl
      · exact absurd hq (hu.free q)
    refine ⟨node, y, hold, hy, ?_, hpos, hstop, horigin⟩
    rwa [parent, hy] at hparent
  · exact attachedComments_of_handOver hsize (lt_size_of_get? hold)
      (lt_size_of_isSynthesized hu.synthesized) hne hattached

theorem run_apply_replace (s : Store) (old new : NodeId) (warnings : List Warning) :
    (PassM.apply old (.replace new)).run.run ⟨s, warnings⟩ =
      (s.replace? (some old) (some new)).elim
        (.error ⟨s.posOf (some old), .noParentSlot⟩, ⟨s, warnings⟩)
        (fun s' => (.ok (), ⟨s', warnings⟩)) := by
  unfold PassM.apply
  simp only [ExceptT.run_bind, StateT.run_bind]
  dsimp only [bind, StateT.bind, get, getThe, MonadStateOf.get, StateT.get, pure, liftM, monadLift,
    MonadLift.monadLift, ExceptT.run, ExceptT.lift, ExceptT.mk, StateT.run, Functor.map, StateT.map]
  cases s.replace? (some old) (some new) <;> rfl

/-- Replacing a node is exact or does nothing. It is refused if no parent holds the old node, and
then the pass stops in the state it was in. Otherwise a new node that is still to be put into the
tree takes the place of the old one, also if it is built around it. -/
theorem replace_exact (s : Store) (old new : NodeId) :
    (s.replace? (some old) (some new) = none ↔
      ∀ p, s.parent (some old) = some p → ¬ s.Holds p old) ∧
    (s.replace? (some old) (some new) = none → ∀ warnings,
      (PassM.apply old (.replace new)).run.run ⟨s, warnings⟩ =
        (.error ⟨s.posOf (some old), .noParentSlot⟩, ⟨s, warnings⟩)) ∧
    ∀ s', s.replace? (some old) (some new) = some s' →
      (∀ warnings, (PassM.apply old (.replace new)).run.run ⟨s, warnings⟩ =
        (.ok (), ⟨s', warnings⟩)) ∧
      (new ≠ old → s.Unplaced new →
        ∃ p, s.parent (some old) = some p ∧ s.Holds p old ∧ s.TakesPlace p old new s') := by
  refine ⟨replace?_eq_none_iff, fun h warnings => ?_, fun s' h => ⟨fun warnings => ?_,
    takesPlace_of_replace? h⟩⟩
  · rw [run_apply_replace, h, Option.elim_none]
  · rw [run_apply_replace, h, Option.elim_some]

/-- The statement `a; // c` holds a node that comes to stand in new parentheses, which are built
around it. The parentheses themselves cannot be replaced before they are in the tree. -/
theorem replace_exact_wrapped :
    let s : Store := ⟨#[⟨.identifier "a", 0, 1, some 1, none, false, false, false⟩,
      ⟨.expressionStatement (some 0), 0, 2, none, none, false, false, false⟩,
      ⟨.parenthesized (some 0), 0, 0, none, none, true, false, false⟩],
      [⟨3, 7, false, false⟩], [(some 0, ⟨[], [0]⟩)]⟩
    (∃ s', s.replace? (some 0) (some 2) = some s' ∧ s.TakesPlace 1 0 2 s' ∧
      s'.parent (some 0) = some 2 ∧ s'.parent (some 2) = some 1) ∧
    (PassM.apply 2 (.replace 0)).run.run ⟨s, []⟩ = (.error ⟨0, .noParentSlot⟩, ⟨s, []⟩) := by
  intro s
  have hnew : ∀ n, s.isSynthesized (some n) = true → n = 2 := by
    have hcheck : ∀ n < 3, s.isSynthesized (some n) = true → n = 2 := by decide
    exact fun n hn => hcheck n (lt_size_of_isSynthesized hn) hn
  have hpart : ∀ n, s.FreshBelow 2 n → n = 2 := by
    intro n hn
    rcases ReflTransGen.cases_tail hn with rfl | ⟨p, -, hp⟩
    · rfl
    · exact hnew n hp.2
  have hfree : ∀ p, ¬ s.Holds p 2 := by
    have hcheck : ∀ p < 3, 2 ∉ s.children (some p) := by decide
    intro p hp
    obtain ⟨f, hf, -⟩ := form?_eq_some_of_holds hp
    exact hcheck p (lt_size_of_form? hf) hp
  have hlinks : (s.replace? (some 0) (some 2)).map (fun s' => (s'.parent (some 0),
      s'.parent (some 2))) = some (some 2, some 1) := by decide +kernel
  have hrefused : s.replace? (some 2) (some 0) = none :=
    (replace_exact s 2 0).1.2 fun p hp => by cases hp
  constructor
  · obtain ⟨s', hs', e⟩ := Option.map_eq_some_iff.1 hlinks
    obtain ⟨p, hp, -, h⟩ := ((replace_exact s 0 2).2.2 s' hs').2 (by decide)
      ⟨by decide, hfree, fun q q' _ hq hq' _ _ => (hpart q hq).trans (hpart q' hq').symm⟩
    have hp : some 1 = some p := hp
    exact ⟨s', hs', Option.some.inj hp ▸ h, congrArg Prod.fst e, congrArg Prod.snd e⟩
  · exact (replace_exact s 2 0).2.1 hrefused []

end Store
end Modernizer
