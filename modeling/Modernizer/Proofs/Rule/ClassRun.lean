import Mathlib.Data.List.Flatten
import Modernizer.ClassIdiom.Candidate
import Modernizer.Proofs.Rule.ClassPart

/-! What a candidate for a class has taken up. Each of its functions is from a statement that is to
be removed, and later members take the places of earlier ones, so nothing is taken twice
(`Gathered`). Candidates of one container have their statements from different ranges. -/

namespace Modernizer.ClassIdiom

open Store

variable {s : Store} {root i n : NodeId} {c c' : Candidate} {st : Slot} {l l' : List Slot}
  {members ms : List Member} {m : Member}

namespace Member

/-- What tells members of a class apart. -/
def key (m : Member) : String × Bool × MethodKind := (m.name, m.isStatic, m.kind)

theorem sameKey_iff {m m' : Member} : sameKey m m' = true ↔ m.key = m'.key := by
  simp [sameKey, key, Prod.ext_iff, and_assoc]

@[simp] theorem key_supersede (m m' : Member) : (m'.supersede m).key = m'.key := rfl

@[simp] theorem function_supersede (m m' : Member) : (m'.supersede m).function = m.function := rfl

theorem map_key_insert (members : List Member) (m : Member) :
    (insert members m).map key =
      members.map key ++ if m.key ∈ members.map key then [] else [m.key] := by
  have hany : members.any (sameKey m) = true ↔ m.key ∈ members.map key := by
    simp only [List.any_eq_true, sameKey_iff, List.mem_map]
    exact exists_congr fun _ => and_congr_right fun _ => eq_comm
  unfold insert
  split
  · rename_i h
    rw [if_pos (hany.1 h), List.append_nil, List.map_map]
    refine List.map_congr_left fun m' _ => ?_
    simp only [Function.comp_apply]
    split <;> rfl
  · rename_i h
    rw [if_neg fun hk => h (hany.2 hk), List.map_append, List.map_singleton]

theorem keys_insert (h : (members.map key).Nodup) (m : Member) :
    ((insert members m).map key).Nodup := by
  rw [map_key_insert]
  split
  · simpa using h
  · rename_i hm
    exact h.append (List.nodup_singleton _) (by simpa using hm)

theorem pieces_insert (h : (members.map key).Nodup) (m : Member) :
    ((insert members m).flatMap pieces).Subperm (members.flatMap pieces ++ m.pieces) := by
  unfold insert
  split
  · rename_i hm
    obtain ⟨m₀, hm₀, hkey⟩ := List.any_eq_true.1 hm
    obtain ⟨pre, post, rfl⟩ := List.append_of_mem hm₀
    have hkey := sameKey_iff.1 hkey
    rw [List.map_append, List.map_cons, List.nodup_append] at h
    obtain ⟨_, hpost, hdisj⟩ := h
    have hother : ∀ l : List Member, (∀ m' ∈ l, m'.key ≠ m₀.key) →
        l.map (fun m' => if sameKey m m' then m'.supersede m else m') = l := by
      intro l hl
      refine (List.map_congr_left fun m' hm' => ?_).trans (List.map_id l)
      rw [if_neg]
      · rfl
      · exact fun e => hl m' hm' ((sameKey_iff.1 e).symm.trans hkey)
    have hpre : ∀ m' ∈ pre, m'.key ≠ m₀.key := fun m' hm' =>
      hdisj _ (List.mem_map_of_mem hm') _ List.mem_cons_self
    have hpost : ∀ m' ∈ post, m'.key ≠ m₀.key := fun m' hm' e =>
      (List.nodup_cons.1 hpost).1 (e ▸ List.mem_map_of_mem hm')
    rw [List.map_append, List.map_cons, hother pre hpre, hother post hpost,
      if_pos (sameKey_iff.2 hkey)]
    simp only [List.flatMap_append, List.flatMap_cons]
    have hperm : (pre.flatMap pieces ++ (m.pieces ++ post.flatMap pieces)).Perm
        (pre.flatMap pieces ++ post.flatMap pieces ++ m.pieces) := by
      rw [List.append_assoc]
      exact List.perm_append_comm.append_left _
    refine hperm.subperm.trans (List.Sublist.subperm (List.Sublist.append_right ?_ _))
    exact (List.sublist_append_right ..).append_left _
  · rw [List.flatMap_append, List.flatMap_singleton]

theorem keys_insertAll (h : (members.map key).Nodup) (ms : List Member) :
    ((ms.foldl insert members).map key).Nodup := by
  induction ms generalizing members with
  | nil => exact h
  | cons m ms ih => exact ih (keys_insert h m)

theorem pieces_insertAll (h : (members.map key).Nodup) (ms : List Member) :
    ((ms.foldl insert members).flatMap pieces).Subperm
      (members.flatMap pieces ++ ms.flatMap pieces) := by
  induction ms generalizing members with
  | nil => simpa using List.Subperm.refl (members.flatMap pieces)
  | cons m ms ih =>
    refine (ih (keys_insert h m)).trans ?_
    rw [List.flatMap_cons, ← List.append_assoc]
    exact (pieces_insert h m).append (.refl _)

theorem mem_insertAll {ms : List Member} (h : m ∈ ms.foldl insert members) :
    ∃ m' ∈ members ++ ms, m.function = m'.function := by
  induction ms generalizing members with
  | nil => exact ⟨m, by simpa using h, rfl⟩
  | cons m₁ ms ih =>
    obtain ⟨m', hm', e⟩ := ih h
    rcases List.mem_append.1 hm' with hm' | hm'
    · unfold insert at hm'
      split at hm'
      · obtain ⟨m₀, hm₀, rfl⟩ := List.mem_map.1 hm'
        split at e
        · exact ⟨m₁, by simp, e⟩
        · exact ⟨m₀, by simp [hm₀], e⟩
      · refine ⟨m', ?_, e⟩
        rcases List.mem_append.1 hm' with hm' | hm'
        · simp [hm']
        · simp [List.mem_singleton.1 hm']
    · exact ⟨m', by simp [hm'], e⟩

end Member

/-- What a candidate takes besides its constructor. -/
def Candidate.taken (c : Candidate) : List NodeId :=
  present [c.base.bind (·.node)] ++ c.members.flatMap Member.pieces

/-- What a candidate takes is from the statements it takes up, and these are some of a list. -/
structure Gathered (s : Store) (c : Candidate) (statements : List Slot) : Prop where
  statements : ∀ x ∈ c.removals, x ∈ statements ∧ ∃ j, x = some j
  nodup : c.removals.Nodup
  keys : (c.members.map Member.key).Nodup
  taken : c.taken.Subperm (c.removals.flatMap fun x => (part s x c.name).pieces)
  block : ∀ m ∈ c.members, ∀ b, m.function.body = some b → s.IsBlock b

namespace Gathered

theorem mono (h : Gathered s c l) (hl : l ⊆ l') : Gathered s c l' :=
  ⟨fun x hx => ⟨hl (h.statements x hx).1, (h.statements x hx).2⟩, h.nodup, h.keys, h.taken, h.block⟩

theorem subperm_parts {f : Slot → List NodeId} {removals removals' : List Slot} {q : List NodeId}
    (hnodup : removals.Nodup) (hnew : st ∉ removals) (hsub : removals ⊆ removals')
    (hq : q = [] ∨ q = f st ∧ st ∈ removals') :
    (removals.flatMap f ++ q).Subperm (removals'.flatMap f) := by
  have hflat : ∀ l : List Slot, l.Nodup → l ⊆ removals' →
      (l.flatMap f).Subperm (removals'.flatMap f) := by
    intro l hl hsub
    obtain ⟨l', hperm, hsub⟩ := List.subperm_of_subset hl hsub
    exact (hperm.symm.flatMap_right f).subperm.trans (hsub.flatMap f).subperm
  rcases hq with rfl | ⟨rfl, hst⟩
  · simpa using hflat removals hnodup hsub
  · have h := hflat (removals ++ [st]) (hnodup.append (List.nodup_singleton st) (by simpa using hnew))
      (by simp [hsub, hst])
    simpa using h

theorem extend (h : Gathered s c l) (hl : some i ∉ l) (hname : c'.name = c.name)
    (hremovals : ∀ x, x ∈ c'.removals → x ∈ c.removals ∨ x = some i)
    (hsub : c.removals ⊆ c'.removals) (hnodup : c'.removals.Nodup)
    (hkeys : (c'.members.map Member.key).Nodup) {q : List NodeId}
    (htaken : c'.taken.Subperm (c.taken ++ q))
    (hq : q = [] ∨ q = (part s (some i) c.name).pieces ∧ some i ∈ c'.removals)
    (hblock : ∀ m ∈ c'.members, ∀ b, m.function.body = some b → s.IsBlock b) :
    Gathered s c' (l ++ [some i]) := by
  refine ⟨fun x hx => ?_, hnodup, hkeys, ?_, hblock⟩
  · rcases hremovals x hx with hx | rfl
    · exact ⟨List.mem_append_left _ (h.statements x hx).1, (h.statements x hx).2⟩
    · exact ⟨by simp, i, rfl⟩
  · rw [hname]
    refine htaken.trans ((h.taken.append (.refl q)).trans ?_)
    exact subperm_parts (f := fun x => (part s x c.name).pieces) h.nodup
      (fun hi => hl (h.statements _ hi).1) hsub hq

theorem absorb (h : Gathered s c l) (hl : some i ∉ l) : Gathered s (c.absorb (some i)) (l ++ [some i]) :=
  h.extend hl rfl (fun _ => mem_insertNew.1) (fun _ hx => mem_insertNew.2 (.inl hx))
    (nodup_insertNew h.nodup _) h.keys (q := []) (by rw [List.append_nil]; exact .refl _) (.inl rfl) h.block

end Gathered

theorem addMembers_eq (ms : List Member) (c : Candidate) :
    ms.foldl Candidate.addMember c = { c with
      removals := (ms.map (·.statement)).foldl insertNew c.removals
      members := ms.foldl Member.insert c.members } := by
  induction ms generalizing c with
  | nil => rfl
  | cons m ms ih => exact (ih (c.addMember m)).trans rfl

namespace Gathered

theorem addMembers (h : Gathered s c l) (hl : some i ∉ l) (removals commentSources : List Slot)
    (hsub : c.removals ⊆ removals) (hnew : ∀ x ∈ removals, x ∈ c.removals ∨ x = some i)
    (hnodup : removals.Nodup) (hpart : ms.flatMap Member.pieces = (part s (some i) c.name).pieces)
    (hstatement : ∀ m ∈ ms, m.statement = some i)
    (hblock : ∀ m ∈ ms, ∀ b, m.function.body = some b → s.IsBlock b) :
    Gathered s (ms.foldl Candidate.addMember { c with removals, commentSources }) (l ++ [some i]) := by
  rw [addMembers_eq]
  refine h.extend hl rfl (fun x hx => ?_) (fun x hx => ?_) (nodup_foldl_insertNew _ hnodup)
    (Member.keys_insertAll h.keys ms) (q := ms.flatMap Member.pieces) ?_ ?_ fun m hm => ?_
  · rcases (mem_foldl_insertNew _).1 hx with hx | hx
    · exact hnew x hx
    · obtain ⟨m, hm, rfl⟩ := List.mem_map.1 hx
      exact .inr (hstatement m hm)
  · exact (mem_foldl_insertNew _).2 (.inl (hsub hx))
  · rw [Candidate.taken, Candidate.taken, List.append_assoc]
    exact (List.subperm_append_left _).2 (Member.pieces_insertAll h.keys ms)
  · cases ms with
    | nil => exact .inl rfl
    | cons m ms =>
      refine .inr ⟨hpart, (mem_foldl_insertNew _).2 (.inr ?_)⟩
      exact List.mem_map.2 ⟨m, List.mem_cons_self, hstatement m List.mem_cons_self⟩
  · obtain ⟨m', hm', e⟩ := Member.mem_insertAll hm
    rw [e]
    exact (List.mem_append.1 hm').elim (h.block m') (hblock m')

theorem take? (t : s.TreeAt root) (hi : s.Below root i) (h : Gathered s c l) (hl : some i ∉ l)
    (hc' : c.take? (some i) (part s (some i) c.name) = some c') :
    Gathered s c' (l ++ [some i]) := by
  have hgives := gives_part t hi c.name
  cases hp : part s (some i) c.name with
  | members ms =>
    rw [hp] at hc' hgives
    cases hc'
    exact h.addMembers hl c.removals c.commentSources (fun _ => id) (fun _ => .inl) h.nodup
      (by rw [hp]; rfl) hgives.statement hgives.block
  | prototype ms =>
    rw [hp] at hc' hgives
    simp only [Candidate.take?] at hc'
    split at hc'
    · cases hc'
    · cases hc'
      exact h.addMembers hl (insertNew c.removals (some i)) _
        (fun _ hx => mem_insertNew.2 (.inl hx)) (fun _ => mem_insertNew.1) (nodup_insertNew h.nodup _)
        (by rw [hp]; rfl) hgives.statement hgives.block
  | inheritance base =>
    rw [hp] at hc'
    simp only [Candidate.take?] at hc'
    split at hc'
    · cases hc'
    · rename_i hfirst
      cases hc'
      obtain ⟨hmembers, hbase⟩ : c.members = [] ∧ c.base = none := by simpa using hfirst
      refine h.extend hl rfl (fun _ => mem_insertNew.1) (fun _ hx => mem_insertNew.2 (.inl hx))
        (nodup_insertNew h.nodup _) h.keys (q := present [base.node]) ?_
        (.inr ⟨by rw [hp]; rfl, mem_insertNew.2 (.inr rfl)⟩) h.block
      simpa [Candidate.taken, Candidate.absorb, hmembers, hbase] using List.Subperm.refl _
  | constructorLink =>
    rw [hp] at hc'
    cases hc'
    exact h.absorb hl
  | separator => rw [hp] at hc'; cases hc'
  | unsupportedDescriptor => rw [hp] at hc'; cases hc'
  | unrelated => rw [hp] at hc'; cases hc'

end Gathered

/-- The candidates have the same constructor. -/
structure SameClass (c c' : Candidate) : Prop where
  name : c'.name = c.name
  container : c'.container = c.container
  statement : c'.statement = c.statement
  function : c'.function = c.function

namespace SameClass

theorem refl (c : Candidate) : SameClass c c := ⟨rfl, rfl, rfl, rfl⟩

theorem trans {c'' : Candidate} (h : SameClass c c') (h' : SameClass c' c'') : SameClass c c'' :=
  ⟨h'.name.trans h.name, h'.container.trans h.container, h'.statement.trans h.statement,
    h'.function.trans h.function⟩

theorem absorb (c : Candidate) (st : Slot) : SameClass c (c.absorb st) := ⟨rfl, rfl, rfl, rfl⟩

theorem addMembers (ms : List Member) (c : Candidate) :
    SameClass c (ms.foldl Candidate.addMember c) := by
  rw [addMembers_eq]
  exact ⟨rfl, rfl, rfl, rfl⟩

theorem take? {p : Part} (h : c.take? st p = some c') : SameClass c c' := by
  cases p <;> simp only [Candidate.take?, reduceCtorEq, Option.ite_none_left_eq_some,
    Option.some.injEq] at h
  · exact h ▸ addMembers _ c
  · exact h.2 ▸ (absorb c st).trans (addMembers _ (c.absorb st))
  · exact h.2 ▸ ⟨rfl, rfl, rfl, rfl⟩
  · exact h ▸ ⟨rfl, rfl, rfl, rfl⟩

end SameClass

section run

variable {P : Candidate → Prop} {separators rest : List Slot}
  (habsorb : ∀ c st, P c → part s st c.name = .separator → P (c.absorb st))

include habsorb

theorem keeps_absorbAll (h : P c) (hsep : ∀ x ∈ separators, part s x c.name = .separator) :
    P (separators.foldl Candidate.absorb c) := by
  induction separators generalizing c with
  | nil => exact h
  | cons st separators ih =>
    have hst : P (c.absorb st) := habsorb c st h (hsep st List.mem_cons_self)
    exact ih hst fun x hx => hsep x (List.mem_cons_of_mem _ hx)

theorem keeps_run
    (htake : ∀ c c' st, st ∈ rest → P c → c.take? st (part s st c.name) = some c' → P c')
    (h : P c) (hsep : ∀ x ∈ separators, part s x c.name = .separator) (length : Nat) :
    P (run s c separators length rest).candidate := by
  induction rest generalizing c separators length with
  | nil => exact h
  | cons st rest ih =>
    have hrest := fun c c' x hx => htake c c' x (List.mem_cons_of_mem st hx)
    rw [run]
    split
    · rename_i hst
      refine ih hrest h (fun x hx => ?_) length
      rcases List.mem_append.1 hx with hx | hx
      · exact hsep x hx
      · exact List.mem_singleton.1 hx ▸ hst
    · exact h
    · split
      · exact h
      · rename_i c' hc'
        have hname : c'.name = c.name := (SameClass.take? hc').name
        have hc' := htake c c' st List.mem_cons_self h hc'
        exact ih hrest (keeps_absorbAll habsorb hc' (hname.symm ▸ hsep)) (by simp) _

end run

theorem Gathered.absorbAll (h : Gathered s c l) {separators : List NodeId}
    (hnodup : (present (l ++ separators.map some)).Nodup) :
    Gathered s ((separators.map some).foldl Candidate.absorb c) (l ++ separators.map some) ∧
      SameClass c ((separators.map some).foldl Candidate.absorb c) := by
  induction separators generalizing c l with
  | nil => exact ⟨by simpa using h, .refl c⟩
  | cons j separators ih =>
    have hj : some j ∉ l := by
      intro hj
      rw [present_append] at hnodup
      exact List.disjoint_of_nodup_append hnodup (mem_present.2 hj) List.mem_cons_self
    obtain ⟨h', hsame⟩ := ih (h.absorb hj) (by simpa using hnodup)
    exact ⟨by simpa using h', (SameClass.absorb c _).trans hsame⟩

/-- A run takes up statements in sequence, as many as it counts. -/
theorem gathered_run (t : s.TreeAt root) (separators : List NodeId) {rest : List Slot}
    (h : Gathered s c l) (hrest : ∀ j, some j ∈ rest → s.Below root j)
    (hnodup : (present (l ++ separators.map some ++ rest)).Nodup) :
    Gathered s (run s c (separators.map some) l.length rest).candidate
      ((l ++ separators.map some ++ rest).take (run s c (separators.map some) l.length rest).length) ∧
    SameClass c (run s c (separators.map some) l.length rest).candidate := by
  induction rest generalizing c l separators with
  | nil =>
    rw [List.append_assoc, run, List.take_left]
    exact ⟨h, .refl c⟩
  | cons statement rest ih =>
    have hstop : Gathered s c ((l ++ separators.map some ++ statement :: rest).take l.length) ∧
        SameClass c c := by
      rw [List.append_assoc, List.take_left]
      exact ⟨h, .refl c⟩
    have hrest' : ∀ j, some j ∈ rest → s.Below root j := fun j hj =>
      hrest j (List.mem_cons_of_mem _ hj)
    rw [run]
    cases statement with
    | none => exact hstop
    | some i =>
      split
      · -- a separator is held back until the next part comes
        have happ : (separators ++ [i]).map some = separators.map some ++ [some i] := by simp
        have := ih (separators ++ [i]) h hrest' (by simpa using hnodup)
        rw [happ] at this
        simpa using this
      · exact hstop
      · split
        · exact hstop
        · rename_i c' hc'
          have hi : some i ∉ l := by
            intro hi
            rw [List.append_assoc, present_append] at hnodup
            exact List.disjoint_of_nodup_append hnodup (mem_present.2 hi) (by simp)
          have h' := h.take? t (hrest i List.mem_cons_self) hi hc'
          -- the candidate lists the part in front of the separators that were held back
          have hperm : (l ++ separators.map some ++ [some i]).Perm
              (l ++ [some i] ++ separators.map some) := by
            rw [List.append_assoc, List.append_assoc]
            exact List.perm_append_comm.append_left l
          have hdistinct : (present (l ++ [some i] ++ separators.map some)).Nodup := by
            refine (hperm.filterMap id).nodup_iff.1 (hnodup.sublist (present_sublist ?_))
            exact List.Sublist.append_left (by simp) _
          obtain ⟨h'', hsame⟩ := h'.absorbAll hdistinct
          have hlist : l ++ separators.map some ++ [some i] ++ rest =
              l ++ separators.map some ++ some i :: rest := by simp
          have hlength : (l ++ separators.map some ++ [some i]).length =
              l.length + (separators.map some).length + 1 := by simp [Nat.add_assoc]
          have hrun := ih [] (h''.mono hperm.symm.subset) hrest' (by simpa using hnodup)
          rw [List.map_nil, List.append_nil, hlist, hlength] at hrun
          exact ⟨hrun.1, (SameClass.take? hc').trans (hsame.trans hrun.2)⟩

/-- The statements that the class stands for. -/
def Candidate.Claims (c : Candidate) (x : NodeId) : Prop := some x ∈ c.statement :: c.removals

/-- A class can be made of the candidate: its statements are some of a list, and what it takes is
from them. -/
structure Candidate.Ready (s : Store) (n : NodeId) (statements : List Slot) (c : Candidate) :
    Prop where
  container : c.container = n
  statements : ∀ x ∈ c.statement :: c.removals, x ∈ statements ∧ ∃ j, x = some j
  stock : s.Stock c.Claims (pieces c.function ++ c.taken)
  block : ∀ f ∈ c.function :: c.members.map (·.function), ∀ b, f.body = some b → s.IsBlock b

theorem Gathered.ready (t : s.TreeAt root) (hn : s.Below root n) {list : StatementList}
    (hlist : s.statementList? (some n) = some list) (h : Gathered s c l)
    (hstatement : c.statement = some i) (hcontainer : c.container = n)
    (hlend : Lends s i c.function) (hil : some i ∉ l)
    (hsub : ∀ x ∈ some i :: l, x ∈ list.statements) :
    c.Ready s n (some i :: l) := by
  obtain ⟨js, hjs⟩ : ∃ js : List NodeId, c.removals = js.map some :=
    ⟨present c.removals, by
      have hall : ∀ x ∈ c.removals, ∃ j, x = some j := fun x hx => (h.statements x hx).2
      generalize c.removals = removals at hall
      induction removals with
      | nil => rfl
      | cons x removals ih =>
        obtain ⟨j, rfl⟩ := hall x List.mem_cons_self
        rw [present_cons_some, List.map_cons, ← ih fun y hy => hall y (List.mem_cons_of_mem _ hy)]⟩
  have hjl : ∀ j ∈ js, some j ∈ l := fun j hj =>
    (h.statements _ (hjs ▸ List.mem_map_of_mem hj)).1
  have hnodup : (i :: js).Nodup := by
    refine List.nodup_cons.2 ⟨fun hi => hil (hjl i hi), ?_⟩
    have := h.nodup
    rw [hjs] at this
    exact this.of_map
  have hchild : ∀ j ∈ i :: js, s.Holds n j := fun j hj => holds_of_mem_statements hlist <| by
    rcases List.mem_cons.1 hj with rfl | hj
    · exact hsub _ List.mem_cons_self
    · exact hsub _ (List.mem_cons_of_mem _ (hjl j hj))
  have hstatements : s.Pieces n (i :: js) :=
    ⟨(List.nodup_iff_pairwise_ne.1 hnodup).imp_of_mem fun ha hb hne =>
      t.apart_siblings hn (hchild _ ha) (hchild _ hb) hne, fun j hj => (hchild j hj).below⟩
  -- statements are apart, so what is taken from below them is apart too
  let given : NodeId → List NodeId := fun x =>
    if x = i then pieces c.function else (part s (some x) c.name).pieces
  have hgiven : ∀ j ∈ i :: js, s.Pieces j (given j) := by
    intro j hj
    simp only [given]
    split
    · rename_i e
      exact e ▸ hlend.pieces
    · exact (gives_part t (hn.tail (hchild j hj)) c.name).pieces
  have hflat : (i :: js).flatMap given = pieces c.function ++
      c.removals.flatMap fun x => (part s x c.name).pieces := by
    rw [hjs, List.flatMap_cons, List.flatMap_map]
    refine congrArg₂ _ (if_pos rfl) (List.flatMap_congr fun j hj => if_neg ?_)
    rintro rfl
    exact hil (hjl j hj)
  have hperm : (pieces c.function ++ c.taken).Subperm ((i :: js).flatMap given) := by
    rw [hflat]
    exact (List.subperm_append_left _).2 h.taken
  refine ⟨hcontainer, fun x hx => ?_, ⟨?_, fun d hd => ?_⟩, fun f hf => ?_⟩
  · rcases List.mem_cons.1 hx with rfl | hx
    · exact ⟨hstatement ▸ List.mem_cons_self, i, hstatement⟩
    · exact ⟨List.mem_cons_of_mem _ (h.statements x hx).1, (h.statements x hx).2⟩
  · exact ((hstatements.flatMap hgiven).subperm hperm).apart
  · obtain ⟨j, hj, hd⟩ := List.mem_flatMap.1 (hperm.subset hd)
    refine ⟨j, ?_, (hgiven j hj).below d hd⟩
    rw [Candidate.Claims, hstatement, hjs, ← List.map_cons]
    exact List.mem_map_of_mem hj
  · rcases List.mem_cons.1 hf with rfl | hf
    · exact hlend.block
    · obtain ⟨m, hm, rfl⟩ := List.mem_map.1 hf
      exact h.block m hm

theorem exists_of_constructor? {name : String} {f : FunctionForm}
    (h : constructor? s st = some (name, f)) : ∃ i, st = some i := by
  cases st with
  | none => cases h
  | some i => exact ⟨i, rfl⟩

/-- The candidate that a scan starts with. -/
def opening (n : NodeId) (statement : Slot) (name : String) (f : FunctionForm) : Candidate :=
  ⟨name, n, statement, f, none, [], [], [statement]⟩

theorem scanFrom_eq {statements : List Slot} {start : Nat} {name : String}
    (hst : statements[start]? = some st) (hcon : constructor? s st = some (name, f)) (n : NodeId) :
    scanFrom s n statements start =
      if (statements.take start).any (s.referencesName · name) then ⟨none, start + 1, []⟩
      else
        let r := run s (opening n st name f) [] 0 (statements.drop (start + 1))
        if r.candidate.isClass s then ⟨some r.candidate, start + 1 + r.length, r.warnings⟩
        else ⟨none, start + 1, r.warnings⟩ := by
  simp only [scanFrom, hst, hcon]
  rfl

theorem scanFrom_opened (s : Store) (n : NodeId) (statements : List Slot) (start : Nat) :
    ((scanFrom s n statements start).candidate = none ∧
        (scanFrom s n statements start).resumeAt = start + 1) ∨
      ∃ st name f, statements[start]? = some st ∧ constructor? s st = some (name, f) ∧
        (∀ x ∈ statements.take start, s.referencesName x name = false) ∧
        let r := run s (opening n st name f) [] 0 (statements.drop (start + 1))
        r.candidate.isClass s = true ∧
          scanFrom s n statements start = ⟨some r.candidate, start + 1 + r.length, r.warnings⟩ := by
  cases hst : statements[start]? with
  | none => exact .inl (by simp [scanFrom, hst])
  | some st =>
    cases hcon : constructor? s st with
    | none => exact .inl (by simp [scanFrom, hst, hcon])
    | some found =>
      obtain ⟨name, f⟩ := found
      rw [scanFrom_eq hst hcon]
      split
      · exact .inl ⟨rfl, rfl⟩
      · rename_i hany
        dsimp only
        split
        · rename_i hclass
          refine .inr ⟨st, name, f, rfl, hcon, fun x hx => ?_, hclass, rfl⟩
          rw [← Bool.not_eq_true]
          exact fun hr => hany (List.any_eq_true.2 ⟨x, hx, hr⟩)
        · exact .inl ⟨rfl, rfl⟩

/-- A scan that finds a candidate goes on behind what the candidate claims. -/
theorem ready_of_scanFrom (t : s.TreeAt root) (hn : s.Below root n) {list : StatementList}
    (hlist : s.statementList? (some n) = some list) {start : Nat}
    (h : (scanFrom s n list.statements start).candidate = some c) :
    ∃ length, (scanFrom s n list.statements start).resumeAt = start + length ∧
      c.Ready s n ((list.statements.drop start).take length) := by
  rcases scanFrom_opened s n list.statements start with
    ⟨hnone, -⟩ | ⟨st, name, f, hst, hcon, -, -, heq⟩
  · rw [hnone] at h
    cases h
  obtain ⟨i, rfl⟩ := exists_of_constructor? hcon
  have hdrop : list.statements.drop start = some i :: list.statements.drop (start + 1) := by
    obtain ⟨hlt, hget⟩ := List.getElem?_eq_some_iff.1 hst
    rw [List.drop_eq_getElem_cons hlt, hget]
  have hmem : ∀ x ∈ some i :: list.statements.drop (start + 1), x ∈ list.statements :=
    fun x hx => List.drop_subset start _ (hdrop ▸ hx)
  have hbelow : ∀ j, some j ∈ list.statements → s.Below root j := fun j hj =>
    hn.tail (holds_of_mem_statements hlist hj)
  have hdistinct : (present (some i :: list.statements.drop (start + 1))).Nodup :=
    (t.nodup_statements hn hlist).sublist (present_sublist (hdrop ▸ List.drop_sublist start _))
  let first := opening n (some i) name f
  have hfirst : Gathered s first [] := ⟨by simp [first, opening], by simp [first, opening],
    by simp [first, opening], by simp [first, opening, Candidate.taken], by simp [first, opening]⟩
  let r := run s first [] 0 (list.statements.drop (start + 1))
  obtain ⟨hrun, hsame⟩ : Gathered s r.candidate
      ((list.statements.drop (start + 1)).take r.length) ∧ SameClass first r.candidate :=
    gathered_run t [] hfirst
      (fun j hj => hbelow j (hmem _ (List.mem_cons_of_mem _ hj))) (List.nodup_cons.1 hdistinct).2
  rw [heq] at h ⊢
  cases h
  have htake : (list.statements.drop start).take (1 + r.length) =
      some i :: (list.statements.drop (start + 1)).take r.length := by
    rw [hdrop, Nat.add_comm, List.take_succ_cons]
  refine ⟨1 + r.length, Nat.add_assoc .., ?_⟩
  rw [htake]
  refine Gathered.ready t hn hlist hrun hsame.statement hsame.container ?_ ?_ fun x hx => ?_
  · rw [hsame.function]
    exact lends_of_constructor? t (hbelow i (hmem _ List.mem_cons_self)) hcon
  · intro hi
    exact (List.nodup_cons.1 hdistinct).1 (mem_present.2 (List.take_subset _ _ hi))
  · rcases List.mem_cons.1 hx with rfl | hx
    · exact hmem _ List.mem_cons_self
    · exact hmem _ (List.mem_cons_of_mem _ (List.take_subset _ _ hx))

theorem Candidate.Ready.mono (h : c.Ready s n l) (hl : l ⊆ l') : c.Ready s n l' :=
  ⟨h.container, fun x hx => ⟨hl (h.statements x hx).1, (h.statements x hx).2⟩, h.stock, h.block⟩

theorem start_le_resumeAt (s : Store) (n : NodeId) (statements : List Slot) (start : Nat) :
    start ≤ (scanFrom s n statements start).resumeAt := by
  rcases scanFrom_opened s n statements start with ⟨-, hnext⟩ | ⟨_, _, _, -, -, -, -, heq⟩
  · rw [hnext]
    exact Nat.le_succ start
  · rw [heq]
    exact Nat.le_trans (Nat.le_succ start) (Nat.le_add_right ..)

/-- The candidates of a container are ready, and no two claim a statement. -/
theorem ready_of_scans (t : s.TreeAt root) (hn : s.Below root n) {list : StatementList}
    (hlist : s.statementList? (some n) = some list) :
    (∀ c ∈ (scans s n list.statements).filterMap (·.candidate), c.Ready s n list.statements) ∧
    ((scans s n list.statements).filterMap (·.candidate)).Pairwise fun c c' =>
      ∀ x, c.Claims x → ¬ c'.Claims x := by
  suffices ∀ fuel start,
      (∀ c ∈ (scans.go s n list.statements fuel start).filterMap (·.candidate),
        c.Ready s n (list.statements.drop start)) ∧
      ((scans.go s n list.statements fuel start).filterMap (·.candidate)).Pairwise fun c c' =>
        ∀ x, c.Claims x → ¬ c'.Claims x from this _ 0
  intro fuel
  induction fuel with
  | zero => exact fun start => ⟨by simp [scans.go], by simp [scans.go]⟩
  | succ fuel ih =>
    intro start
    rw [scans.go]
    split
    · obtain ⟨hready, hpair⟩ := ih (scanFrom s n list.statements start).resumeAt
      have hsub : list.statements.drop (scanFrom s n list.statements start).resumeAt ⊆
          list.statements.drop start :=
        (List.drop_sublist_drop_left _ (start_le_resumeAt s n list.statements start)).subset
      cases hc : (scanFrom s n list.statements start).candidate with
      | none =>
        rw [List.filterMap_cons_none hc]
        exact ⟨fun c' hc' => (hready c' hc').mono hsub, hpair⟩
      | some c =>
        rw [List.filterMap_cons_some hc]
        obtain ⟨length, hresume, hfirst⟩ := ready_of_scanFrom t hn hlist hc
        refine ⟨fun c' hc' => ?_, List.pairwise_cons.2 ⟨fun c' hc' x hx hx' => ?_, hpair⟩⟩
        · rcases List.mem_cons.1 hc' with rfl | hc'
          · exact hfirst.mono (List.take_subset _ _)
          · exact (hready c' hc').mono hsub
        · -- the statement would be in the range of the scan and behind it
          have hin := ((hfirst.statements _ hx).1)
          have hout := ((hready c' hc').statements _ hx').1
          rw [hresume, ← List.drop_drop] at hout
          have hnodup := (t.nodup_statements hn hlist).sublist
            (present_sublist (List.drop_sublist start list.statements))
          rw [← List.take_append_drop length (list.statements.drop start), present_append] at hnodup
          exact List.disjoint_of_nodup_append hnodup (mem_present.2 hin) (mem_present.2 hout)
    · exact ⟨by simp, by simp⟩

end Modernizer.ClassIdiom
