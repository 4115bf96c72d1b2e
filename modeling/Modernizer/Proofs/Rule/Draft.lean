import Modernizer.Proofs.Rule.Pass
import Modernizer.Proofs.Tree.Assembly

/-! Drafting replacements. A rule goes through what it found in a container and drafts a replacement
for each, or none; drafting may edit what is below the statements that the replacement will claim.
As no two claim the same statement, the drafts together are a plan (`Drafts.filterMapM`). -/

namespace Modernizer

theorem Replacement.claims_of {parent anchor : Slot} {others replacements : List Slot} {c : NodeId} :
    (Replacement.of parent anchor others replacements).Claims c ↔
      some c = anchor ∨ some c ∈ others := by
  by_cases h : some c = anchor <;> simp [Claims, of, h]

namespace Store

variable {s s' s₁ : Store} {root a c d n : NodeId} {R R' : NodeId → Prop} {ns F D G G' : List NodeId}
  {r : Replacement} {rs rs' : List Replacement} {list : StatementList}

theorem Plan.lt_size (h : Plan s root n list rs G) : ∀ f ∈ G, f < s.size := by
  induction h with
  | nil => simp
  | cons hfit _ _ _ ih =>
    intro f hf
    exact (List.mem_append.1 hf).elim (hfit.scion.sprout.lt_size f) (ih f)

theorem Plan.append (h : Plan s root n list rs G) (h' : Plan s root n list rs' G')
    (hG : G.Disjoint G') (hdisj : ∀ r ∈ rs, ∀ c, r.Claims c → ∀ r' ∈ rs', ¬ r'.Claims c) :
    Plan s root n list (rs ++ rs') (G ++ G') := by
  induction h with
  | nil => exact h'
  | @cons r rs ns F D G hfit h hFG hcl ih =>
    obtain ⟨hF, hG⟩ := List.disjoint_append_left.1 hG
    rw [List.cons_append, List.append_assoc]
    refine .cons hfit (ih hG fun r hr => hdisj r (List.mem_cons_of_mem _ hr)) ?_ ?_
    · intro f hf hf'
      exact (List.mem_append.1 hf').elim (hFG f hf) fun hf' => hF hf hf'
    · intro c hc r' hr'
      exact (List.mem_append.1 hr').elim (hcl c hc r') (hdisj _ List.mem_cons_self c hc r')

theorem TreeAt.outside_statement (t : s.TreeAt root) (hn : s.Below root n)
    (hlist : s.statementList? (some n) = some list) (hR : ∀ r, R r → some r ∈ list.statements)
    (hc : some c ∈ list.statements) (hcR : ¬ R c) (hd : s.Below c d) : s.Outside root R d := by
  have hnc : s.Holds n c := holds_of_mem_statements hlist hc
  refine ⟨(hn.tail hnc).trans hd, fun r hr _ hrd => ?_⟩
  have hne : c ≠ r := fun e => hcR (e ▸ hr)
  exact t.apart_siblings hn hnc (holds_of_mem_statements hlist (hR r hr)) hne d hd hrd

theorem TreeAt.outside_container (t : s.TreeAt root) (hn : s.Below root n)
    (hlist : s.statementList? (some n) = some list) (hR : ∀ r, R r → some r ∈ list.statements) :
    s.Outside root R n :=
  ⟨hn, fun r hr _ => t.not_below_holder hn (holds_of_mem_statements hlist (hR r hr))⟩

/-- Going from `s` to `s'` drafted some replacements of statements in `R`. The tree has changed in
these at most, and they are still the statements of their container. -/
structure Drafts (root n : NodeId) (list : StatementList) (R : NodeId → Prop) (s s' : Store)
    (rs : List Replacement) : Prop where
  graft : Graft root R (NewSince s) s s'
  statements : s'.statementList? (some n) = some list
  plan : ∃ G, Plan s' root n list rs G ∧ ∀ f ∈ G, NewSince s f
  claims : ∀ r ∈ rs, ∀ c, r.Claims c → R c

namespace Drafts

theorem none (g : Graft root R (NewSince s) s s') (hlist : s'.statementList? (some n) = some list) :
    Drafts root n list R s s' [] :=
  ⟨g, hlist, ⟨[], .nil, by simp⟩, by simp⟩

theorem one (g : Graft root R (NewSince s) s s') (hlist : s'.statementList? (some n) = some list)
    (h : s'.Fits root n list r ns F D) (hF : ∀ f ∈ F, NewSince s f)
    (hr : ∀ c, r.Claims c → R c) : Drafts root n list R s s' [r] := by
  refine ⟨g, hlist, ⟨F ++ [], .cons h .nil (by simp) (by simp), by simpa using hF⟩, fun r' hr' => ?_⟩
  exact List.mem_singleton.1 hr' ▸ hr

theorem mono (t : s.TreeAt root) (h : Drafts root n list R s s' rs) (hR : ∀ c, R c → R' c) :
    Drafts root n list R' s s' rs :=
  ⟨h.graft.mono t (fun r hr hb => ⟨r, hR r hr, hb, .refl⟩) fun _ => id, h.statements, h.plan,
    fun r hr c hc => hR c (h.claims r hr c hc)⟩

theorem append (h : Drafts root n list R s s₁ rs) (h' : Drafts root n list R' s₁ s' rs')
    (t : s.TreeAt root) (hn : s.Below root n) (hlist : s.statementList? (some n) = some list)
    (hR : ∀ c, R c → some c ∈ list.statements) (hR' : ∀ c, R' c → some c ∈ list.statements)
    (hdisj : ∀ c, R c → ¬ R' c) :
    Drafts root n list (fun c => R c ∨ R' c) s s' (rs ++ rs') := by
  obtain ⟨G, hG, hGnew⟩ := h.plan
  obtain ⟨G', hG', hGnew'⟩ := h'.plan
  have hn₁ : s₁.Below root n := h.graft.below n (t.outside_container hn hlist hR)
  have hkeep : Plan s' root n list rs G := by
    refine hG.of_graft hn₁ h.statements h'.graft (fun f hf hf' => ?_) (fun r hr c hc d hd => ?_)
      fun r hr c => hG.mem_of_claims hr
    · exact Nat.lt_irrefl _ (Nat.lt_of_lt_of_le (hG.lt_size f hf) hf')
    · refine h.graft.tree.outside_statement hn₁ h.statements hR' ?_ ?_ hd
      · exact hG.mem_of_claims hr hc
      · exact hdisj c (h.claims r hr c hc)
  refine ⟨(h.graft.mono t (fun r hr hb => ?_) fun _ => id).trans
    (h'.graft.mono h.graft.tree (fun r hr hb => ?_) fun m => newSince_mono h.graft.size_le),
    h'.statements, ⟨G ++ G', hkeep.append hG' ?_ ?_, ?_⟩, ?_⟩
  · exact ⟨r, .inl hr, hb, .refl⟩
  · exact ⟨r, .inr hr, hb, .refl⟩
  · intro f hf hf'
    exact Nat.lt_irrefl _ (Nat.lt_of_lt_of_le (hG.lt_size f hf) (hGnew' f hf'))
  · exact fun r hr c hc r' hr' hc' => hdisj c (h.claims r hr c hc) (h'.claims r' hr' c hc')
  · intro f hf
    exact (List.mem_append.1 hf).elim (hGnew f) fun hf => newSince_mono h.graft.size_le (hGnew' f hf)
  · intro r hr c hc
    exact (List.mem_append.1 hr).imp (h.claims r · c hc) (h'.claims r · c hc)

/-- One of several drafts is made at `s₁`, when some of the others are there, and before the rest.
Nothing else is done to the statements that it claims. -/
structure Among {α : Type} (root n : NodeId) (list : StatementList) (claimed others : NodeId → Prop)
    (make : α → StateM Store (Option Replacement)) (a : α) (s s₁ s' : Store)
    (rs : List Replacement) : Prop where
  before : Graft root others (NewSince s) s s₁
  statements : s₁.statementList? (some n) = some list
  draft : Drafts root n list claimed s₁ (make a s₁).2 (make a s₁).1.toList
  mem : ∀ r ∈ (make a s₁).1, r ∈ rs
  after : Graft root others (NewSince (make a s₁).2) (make a s₁).2 s'
  earlier : ∃ as : List α, s₁ = (as.filterMapM make s).2
  later : ∃ as : List α, s' = (as.filterMapM make (make a s₁).2).2

theorem filterMapM_cons_eq {α : Type} (make : α → StateM Store (Option Replacement)) (a : α)
    (as : List α) (s : Store) :
    (a :: as).filterMapM make s =
      ((make a s).1.toList ++ (as.filterMapM make (make a s).2).1,
        (as.filterMapM make (make a s).2).2) := by
  have hbind : ∀ (f : Option Replacement → StateM Store (List Replacement)),
      (make a >>= f) s = f (make a s).1 (make a s).2 := fun _ => rfl
  rw [List.filterMapM_cons, hbind]
  cases (make a s).1 <;> rfl

/-- Drafts for several things that claim different statements. What each is made from is in stock
before the first is made, with some blocks in it, and what the others do leaves it as it is. -/
theorem filterMapM {α : Type} (make : α → StateM Store (Option Replacement))
    (claims : α → NodeId → Prop) (stock blocks : α → List NodeId) {as : List α}
    (hclaims : ∀ a ∈ as, ∀ c, claims a c → some c ∈ list.statements)
    (hdisj : as.Pairwise fun a b => ∀ c, claims a c → ¬ claims b c)
    (hmake : ∀ a ∈ as, ∀ s : Store, s.TreeAt root → s.Below root n →
      s.statementList? (some n) = some list →
      s.Stock (claims a) (stock a) → (∀ b ∈ blocks a, s.IsBlock b) →
      Drafts root n list (claims a) s (make a s).2 (make a s).1.toList)
    (t : s.TreeAt root) (hn : s.Below root n) (hlist : s.statementList? (some n) = some list)
    (hstock : ∀ a ∈ as, s.Stock (claims a) (stock a))
    (hblocks : ∀ a ∈ as, ∀ b ∈ blocks a, s.IsBlock b) :
    Drafts root n list (fun c => ∃ a ∈ as, claims a c) s (as.filterMapM make s).2
        (as.filterMapM make s).1 ∧
      ∀ a ∈ as, ∃ s₁, Among root n list (claims a) (fun c => (∃ b ∈ as, claims b c) ∧ ¬ claims a c)
        make a s s₁ (as.filterMapM make s).2 (as.filterMapM make s).1 := by
  induction as generalizing s with
  | nil => exact ⟨.none (.refl t) hlist, by simp⟩
  | cons a as ih =>
    obtain ⟨hda, hdisj⟩ := List.pairwise_cons.1 hdisj
    have ha := hmake a List.mem_cons_self s t hn hlist (hstock a List.mem_cons_self)
      (hblocks a List.mem_cons_self)
    have hca := hclaims a List.mem_cons_self
    have has : ∀ c, (∃ b ∈ as, claims b c) → some c ∈ list.statements :=
      fun c ⟨b, hb, hc⟩ => hclaims b (List.mem_cons_of_mem a hb) c hc
    have hn₁ := ha.graft.below n (t.outside_container hn hlist hca)
    -- the first draft changes nothing below the statements that the others claim
    obtain ⟨hrest, hamong⟩ := ih (s := (make a s).2)
      (fun b hb => hclaims b (List.mem_cons_of_mem a hb)) hdisj
      (fun b hb => hmake b (List.mem_cons_of_mem a hb)) ha.graft.tree hn₁ ha.statements
      (fun b hb => by
        have hsb := hstock b (List.mem_cons_of_mem a hb)
        have hcb := hclaims b (List.mem_cons_of_mem a hb)
        refine hsb.of_graft (fun r hr => hn.tail (holds_of_mem_statements hlist (hcb r hr)))
          ha.graft fun d hd => ?_
        obtain ⟨c, hc, hcd⟩ := hsb.pieces d hd
        exact t.outside_statement hn hlist hca (hcb c hc) (fun hc' => hda b hb c hc' hc) hcd)
      fun b hb x hx => ha.graft.isBlock x (hblocks b (List.mem_cons_of_mem a hb) x hx)
    have hboth := ha.append hrest t hn hlist hca has fun c hc ⟨b, hb, hc'⟩ => hda b hb c hc hc'
    rw [filterMapM_cons_eq]
    refine ⟨hboth.mono t fun c hc => by simpa using hc, fun b hb => ?_⟩
    rcases List.mem_cons.1 hb with rfl | hb
    · have hothers : ∀ c, (∃ x ∈ as, claims x c) →
          (∃ x ∈ b :: as, claims x c) ∧ ¬ claims b c := fun c ⟨x, hx, hc⟩ =>
        ⟨⟨x, List.mem_cons_of_mem b hx, hc⟩, fun hb => hda x hx c hb hc⟩
      have hafter : Graft root (fun c => (∃ x ∈ b :: as, claims x c) ∧ ¬ claims b c) _ _ _ :=
        hrest.graft.mono ha.graft.tree (fun r hr hroot => ⟨r, hothers r hr, hroot, .refl⟩)
          fun _ => id
      exact ⟨s, .refl t, hlist, ha, fun r hr => List.mem_append_left _ (by simpa using hr), hafter,
        ⟨[], rfl⟩, ⟨as, rfl⟩⟩
    · obtain ⟨s₁, hs₁⟩ := hamong b hb
      have hothers : ∀ c, (∃ x ∈ as, claims x c) ∧ ¬ claims b c →
          (∃ x ∈ a :: as, claims x c) ∧ ¬ claims b c := fun c ⟨⟨x, hx, hc⟩, hbc⟩ =>
        ⟨⟨x, List.mem_cons_of_mem a hx, hc⟩, hbc⟩
      have hfirst : Graft root (fun c => (∃ x ∈ a :: as, claims x c) ∧ ¬ claims b c) _ s _ :=
        ha.graft.mono t (fun r hr hroot =>
          ⟨r, ⟨⟨a, List.mem_cons_self, hr⟩, hda b hb r hr⟩, hroot, .refl⟩) fun _ => id
      have hbefore := hs₁.before.mono ha.graft.tree
        (fun r hr hroot => ⟨r, hothers r hr, hroot, .refl⟩) fun _ => newSince_mono ha.graft.size_le
      have hafter := hs₁.after.mono hs₁.draft.graft.tree
        (fun r hr hroot => ⟨r, hothers r hr, hroot, .refl⟩) fun _ => id
      have hearlier : ∃ bs : List α, s₁ = (bs.filterMapM make s).2 := by
        obtain ⟨bs, hbs⟩ := hs₁.earlier
        exact ⟨a :: bs, by rw [filterMapM_cons_eq]; exact hbs⟩
      exact ⟨s₁, hfirst.trans hbefore, hs₁.statements, hs₁.draft,
        fun r hr => List.mem_append_right _ (hs₁.mem r hr), hafter, hearlier, hs₁.later⟩

theorem editAt (h : Drafts root n list R s s' rs) (t : s.TreeAt root) (hn : s.Below root n)
    (hlist : s.statementList? (some n) = some list)
    (hR : ∀ c, R c → some c ∈ list.statements) : EditAt root n s s' := by
  refine h.graft.mono t (fun r hr _ => ⟨n, rfl, hn, ?_⟩) fun _ => id
  exact (holds_of_mem_statements hlist (hR r hr)).below

theorem carryOut (h : Drafts root n list R s s' rs) (t : s.TreeAt root) (hn : s.Below root n)
    (hlist : s.statementList? (some n) = some list)
    (hR : ∀ c, R c → some c ∈ list.statements) :
    ∃ s'', PassM.carryOut s' n (.replaceStatements rs) = .ok s'' ∧ EditAt root n s s'' := by
  obtain ⟨G, hG, hGnew⟩ := h.plan
  have hn' := h.graft.below n (t.outside_container hn hlist hR)
  obtain ⟨s'', hs'', g⟩ := hG.graft h.graft.tree hn' h.statements
  refine ⟨s'', hs'', Graft.trans (h.editAt t hn hlist hR) ?_⟩
  refine g.mono h.graft.tree (fun c hc _ => ⟨n, rfl, hn', ?_⟩) hGnew
  obtain ⟨r, hr, hc⟩ := hc
  exact (holds_of_mem_statements h.statements (hR c (h.claims r hr c hc))).below

theorem of_builds (h : Builds root r.Claims ns D s s') (t : s.TreeAt root) (hn : s.Below root n)
    (hlist : s.statementList? (some n) = some list) (hD : s.Stock r.Claims D)
    (hparent : r.parent = some n) (hreplacements : r.replacements = ns.map some)
    (hanchor : ∃ a, r.anchor = some a) (hclaims : ∀ o ∈ r.anchor :: r.others, o ∈ list.statements)
    (hothers : ∀ o ∈ r.others, ∃ c, o = some c) (hnew : ∀ c ∈ ns, NewSince s c) :
    Drafts root n list r.Claims s s' [r] := by
  have hheld : ∀ c, r.Claims c → s.Holds n c := fun c hc =>
    holds_of_mem_statements hlist (hclaims _ hc)
  have hR := Sites.of_holds t hn hheld
  have hbelow : ∀ m, Inner s D m → s.Below root m → ∃ c, r.Claims c ∧ s.Below c m ∧ m ≠ c := by
    intro m hm hroot
    obtain ⟨d, hd, hdm, hne⟩ := hm.resolve_right (t.not_newSince hroot)
    obtain ⟨c, hc, hcd⟩ := hD.pieces d hd
    refine ⟨c, hc, hcd.trans hdm, ?_⟩
    rintro rfl
    exact hne (t.below_antisymm (hD.below_root hR hd) hdm hcd).symm
  have hkids : ∀ c, s.Holds n c → ¬ Inner s D c := by
    intro c hc hin
    obtain ⟨c', hc', hb, hne⟩ := hbelow c hin (hn.tail hc)
    exact t.apart_siblings hn (hheld c' hc') hc hne.symm c hb .refl
  have hout : s.Outside root (Inner s D) n := by
    refine ⟨hn, fun m hm hroot hmn => ?_⟩
    obtain ⟨c, hc, hb, -⟩ := hbelow m hm hroot
    exact t.not_below_holder hn (hheld c hc) (hb.trans hmn)
  have hlist' : s'.statementList? (some n) = some list := by
    rw [statementList?, h.graft.form n hout hkids]
    exact hlist
  obtain ⟨F, hF, hFnew⟩ := h.part
  have hroots : ∀ c ∈ ns, c ∈ F := fun c hc => (hF.sprout.mem_of_root hc).resolve_right fun hcD =>
    Nat.lt_irrefl _ (Nat.lt_of_lt_of_le (t.lt_size (hD.below_root hR hcD)) (hnew c hc))
  obtain ⟨a, ha⟩ := hanchor
  have hfits : s'.Fits root n list r ns F D := by
    refine ⟨hparent, ⟨a, ha, ha ▸ hclaims _ List.mem_cons_self⟩, fun o ho => ?_, hreplacements, hF,
      hroots⟩
    obtain ⟨c, rfl⟩ := hothers o ho
    exact ⟨c, rfl, hclaims _ (List.mem_cons_of_mem _ ho)⟩
  refine .one (h.graft.mono t (fun m hm hroot => ?_) fun _ => id) hlist' hfits hFnew fun _ => id
  obtain ⟨c, hc, hb, -⟩ := hbelow m hm hroot
  exact ⟨c, hc, hR.below c hc, hb⟩

end Drafts

end Store
end Modernizer
