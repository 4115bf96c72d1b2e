import Modernizer.Proofs.Tree.Edit

/-! Several replacements in one container. They were planned on the same tree and are carried out
one after the other; that works because no two of them claim the same statement, so each leaves what
the others need as it was (`Plan.graft`). -/

namespace Modernizer

namespace Replacement

variable {r : Replacement} {l : List Slot} {a c : NodeId}

theorem mem_result (ha : r.anchor = some a) (hal : some a ∈ l) (hc : some c ∈ l)
    (hcl : ¬ r.Claims c) : some c ∈ r.result l := by
  obtain ⟨pre, post, rfl, hres⟩ := result_eq hal ha
  have hne : some c ≠ some a ∧ some c ∉ r.others := by
    rw [Claims, ha, List.mem_cons, not_or] at hcl
    exact hcl
  rw [hres]
  rcases List.mem_append.1 hc with hc | hc
  · simp [hc, hne.2]
  · rcases List.mem_cons.1 hc with hc | hc
    · exact absurd hc hne.1
    · simp [hc, hne.2]

end Replacement

namespace Store

variable {s s' : Store} {root c d n : NodeId} {R R' A : NodeId → Prop} {ns F D G : List NodeId}
  {r : Replacement} {rs : List Replacement} {list list' : StatementList}

theorem Scion.of_graft (h : s.Scion root R' ns F D) (hR' : ∀ r, R' r → s.Below root r)
    (g : Graft root R A s s') (hF : ∀ f ∈ F, ¬ A f) (hD : ∀ d ∈ D, s.Outside root R d) :
    s'.Scion root R' ns F D where
  sprout := h.sprout.congr g.size_le fun f hf =>
    g.loose f (h.sprout.lt_size f hf) (h.loose f hf) (hF f hf)
  nodup := h.nodup
  loose f hf hb := (g.gained f hb).elim (h.loose f hf) (hF f hf)
  apart := h.apart.imp_of_mem fun hd hd' hap => g.apart (hD _ hd) (hD _ hd') hap
  pieces d hd := by
    obtain ⟨r, hr, hrd⟩ := h.pieces d hd
    exact ⟨r, hr, g.below_mono (hD d hd) (hR' r hr) hrd⟩

namespace Fits

theorem claims_below (h : s.Fits root n list r ns F D) (hn : s.Below root n)
    (hlist : s.statementList? (some n) = some list) (hc : r.Claims c) : s.Below root c :=
  hn.tail (holds_of_mem_statements hlist (h.mem_of_claims hc))

theorem of_graft (h : s.Fits root n list r ns F D) (hn : s.Below root n)
    (hlist : s.statementList? (some n) = some list) (g : Graft root R A s s')
    (hF : ∀ f ∈ F, ¬ A f) (hD : ∀ d ∈ D, s.Outside root R d)
    (hl : ∀ c, r.Claims c → some c ∈ list'.statements) : s'.Fits root n list' r ns F D where
  parent := h.parent
  anchor := by
    obtain ⟨a, ha, -⟩ := h.anchor
    exact ⟨a, ha, hl a (by simp [Replacement.Claims, ha])⟩
  others o ho := by
    obtain ⟨c, rfl, -⟩ := h.others o ho
    exact ⟨c, rfl, hl c (List.mem_cons_of_mem _ ho)⟩
  replacements := h.replacements
  scion := h.scion.of_graft (fun _ => h.claims_below hn hlist) g hF hD
  roots := h.roots

end Fits

/-- Replacements that fit, of which no two claim a statement; `G` are their loose nodes. -/
inductive Plan (s : Store) (root n : NodeId) (list : StatementList) :
    List Replacement → List NodeId → Prop
  | nil : Plan s root n list [] []
  | cons {r : Replacement} {rs : List Replacement} {ns F D G : List NodeId} :
      s.Fits root n list r ns F D → Plan s root n list rs G → (∀ f ∈ F, f ∉ G) →
      (∀ c, r.Claims c → ∀ r' ∈ rs, ¬ r'.Claims c) → Plan s root n list (r :: rs) (F ++ G)

namespace Plan

theorem mem_of_claims (h : Plan s root n list rs G) (hr : r ∈ rs) (hc : r.Claims c) :
    some c ∈ list.statements := by
  induction h with
  | nil => cases hr
  | cons hfit _ _ _ ih =>
    rcases List.mem_cons.1 hr with rfl | hr
    · exact hfit.mem_of_claims hc
    · exact ih hr

theorem of_graft (h : Plan s root n list rs G) (hn : s.Below root n)
    (hlist : s.statementList? (some n) = some list) (g : Graft root R A s s')
    (hG : ∀ f ∈ G, ¬ A f) (hout : ∀ r ∈ rs, ∀ c, r.Claims c → ∀ d, s.Below c d →
      s.Outside root R d)
    (hl : ∀ r ∈ rs, ∀ c, r.Claims c → some c ∈ list'.statements) : Plan s' root n list' rs G := by
  induction h with
  | nil => exact .nil
  | @cons r rs ns F D G hfit h hFG hdisj ih =>
    refine .cons (hfit.of_graft hn hlist g (fun f hf => hG f (List.mem_append_left G hf))
      (fun d hd => ?_) fun c hc => hl r List.mem_cons_self c hc) ?_ hFG hdisj
    · obtain ⟨c, hc, hcd⟩ := hfit.scion.pieces d hd
      exact hout r List.mem_cons_self c hc d hcd
    · exact ih (fun f hf => hG f (List.mem_append_right F hf))
        (fun r hr => hout r (List.mem_cons_of_mem _ hr))
        fun r hr => hl r (List.mem_cons_of_mem _ hr)

/-- All succeed, and together they exchange the statements that they claim. -/
theorem graft (h : Plan s root n list rs G) (t : s.TreeAt root) (hn : s.Below root n)
    (hlist : s.statementList? (some n) = some list) :
    ∃ s', rs.foldlM applyReplacement s = .ok s' ∧
      Graft root (fun c => ∃ r ∈ rs, r.Claims c) (· ∈ G) s s' := by
  induction rs generalizing s list G with
  | nil => exact ⟨s, rfl, .refl t⟩
  | cons r rs ih =>
    cases h with
    | @cons _ _ ns F D G hfit h hFG hdisj =>
    obtain ⟨s₁, hs₁, g, hlist₁⟩ := hfit.graft t hn hlist
    obtain ⟨a, ha, hal⟩ := hfit.anchor
    have hclaim : ∀ c, r.Claims c → s.Holds n c := fun c hc =>
      holds_of_mem_statements hlist (hfit.mem_of_claims hc)
    have hout : s.Outside root r.Claims n :=
      ⟨hn, fun c hc _ => t.not_below_holder hn (hclaim c hc)⟩
    have hplan : Plan s₁ root n { list with statements := r.result list.statements } rs G := by
      refine h.of_graft hn hlist g (fun f hf hfF => hFG f hfF hf) (fun r' hr' c hc d hcd => ?_)
        fun r' hr' c hc => ?_
      · have hcn := holds_of_mem_statements hlist (h.mem_of_claims hr' hc)
        refine ⟨(hn.tail hcn).trans hcd, fun c' hc' _ hcd' => ?_⟩
        have hne : c ≠ c' := fun e => hdisj c' hc' r' hr' (e ▸ hc)
        exact t.apart_siblings hn hcn (hclaim c' hc') hne d hcd hcd'
      · exact Replacement.mem_result ha hal (h.mem_of_claims hr' hc) fun hcr => hdisj c hcr r' hr' hc
    obtain ⟨s', hs', g'⟩ := ih hplan g.tree (g.below n hout) hlist₁
    refine ⟨s', by rw [List.foldlM_cons, hs₁]; exact hs', ?_⟩
    refine (g.mono t (fun c hc hb => ?_) fun f hf => ?_).trans
      (g'.mono g.tree (fun c hc hb => ?_) fun f hf => ?_)
    · exact ⟨c, ⟨r, List.mem_cons_self, hc⟩, hb, .refl⟩
    · exact List.mem_append_left G hf
    · obtain ⟨r', hr', hc⟩ := hc
      exact ⟨c, ⟨r', List.mem_cons_of_mem r hr', hc⟩, hb, .refl⟩
    · exact List.mem_append_right F hf

end Plan

end Store
end Modernizer
