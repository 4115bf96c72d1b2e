import Mathlib.Data.List.Nodup
import Modernizer.CommandLine.Files
import Modernizer.Proofs.CommandLine.Task

/-! Tasks that run side by side. Where a path leads depends on the places that there are and not on what
the files hold, so a file that is overwritten moves no other. Tasks take turns, one query a turn, in any
order. Those that keep to files of their own do not notice each other: each gives what it gives alone,
and leaves its file as it leaves it alone. -/

namespace Modernizer.CommandLine.Files
variable {fs fs' : Files} {place : List Text} {path content new : Text}

def SamePlaces (fs fs' : Files) : Prop :=
  fs'.entries.map Prod.fst = fs.entries.map Prod.fst

theorem SamePlaces.refl (fs : Files) : fs.SamePlaces fs := rfl

theorem SamePlaces.trans {fs'' : Files} (h : fs.SamePlaces fs') (h' : fs'.SamePlaces fs'') :
    fs.SamePlaces fs'' :=
  Eq.trans h' h

theorem SamePlaces.symm (h : fs.SamePlaces fs') : fs'.SamePlaces fs := Eq.symm h

theorem isSome_lookup (fs : Files) (place : List Text) :
    (fs.entries.lookup place).isSome = (fs.entries.map Prod.fst).contains place := by
  induction fs.entries with
  | nil => rfl
  | cons e entries ih =>
    obtain ⟨key, content⟩ := e
    rw [List.lookup_cons, List.map_cons, List.contains_cons]
    cases place == key <;> simp [ih]

theorem SamePlaces.kindAt?_eq (h : fs.SamePlaces fs') (place : List Text) :
    fs'.kindAt? place = fs.kindAt? place := by
  have hplaces : fs'.entries.map Prod.fst = fs.entries.map Prod.fst := h
  have hany : ∀ fs : Files, fs.entries.any (place.isPrefixOf ·.1) =
      (fs.entries.map Prod.fst).any place.isPrefixOf := by
    intro fs
    rw [List.any_map]
    rfl
  simp only [kindAt?, isSome_lookup, hany, hplaces]

theorem SamePlaces.place?_eq (h : fs.SamePlaces fs') (parts place : List Text) :
    fs'.place? parts place = fs.place? parts place := by
  induction parts generalizing place with
  | nil => rfl
  | cons part parts ih => simp only [place?, h.kindAt?_eq, ih]

theorem SamePlaces.resolve_eq (h : fs.SamePlaces fs') (path : Text) :
    fs'.resolve path = fs.resolve path := by
  simp only [resolve, h.place?_eq]

theorem lookup_overwritten (entries : List (List Text × Text)) (place other : List Text)
    (content : Text) :
    (entries.map fun e => if e.1 = place then (place, content) else e).lookup other =
      if other = place then (entries.lookup place).map fun _ => content
      else entries.lookup other := by
  induction entries with
  | nil => simp
  | cons e entries ih =>
    obtain ⟨key, old⟩ := e
    by_cases hkey : key = place
    · subst hkey
      by_cases hother : other = key
      · simp [hother]
      · have hne : (other == key) = false := beq_eq_false_iff_ne.2 hother
        simp [List.lookup_cons, hne, ih, hother]
    · have hne : (place == key) = false := beq_eq_false_iff_ne.2 (Ne.symm hkey)
      by_cases hother : other = key
      · have hoff : other ≠ place := fun h => hkey (hother ▸ h)
        simp [hkey, hother]
      · have hne' : (other == key) = false := beq_eq_false_iff_ne.2 hother
        simp [List.lookup_cons, hkey, hne, hne', ih]

theorem lookup_set (h : (fs.entries.lookup place).isSome) (content : Text) (other : List Text) :
    (fs.set place content).entries.lookup other =
      if other = place then some content else fs.entries.lookup other := by
  obtain ⟨old, hold⟩ := Option.isSome_iff_exists.1 h
  rw [set, if_pos h, lookup_overwritten, hold]
  rfl

theorem samePlaces_set (h : (fs.entries.lookup place).isSome) (content : Text) :
    fs.SamePlaces (fs.set place content) := by
  rw [SamePlaces, set, if_pos h, List.map_map]
  apply List.map_congr_left
  intro e _
  by_cases he : e.1 = place <;> simp [he]

theorem readAt_eq_ok_iff :
    fs.readAt path = .ok content ↔
      ∃ place, fs.resolve path = .ok (place, false) ∧ fs.entries.lookup place = some content := by
  rw [readAt]
  cases fs.resolve path with
  | error e => simp [bind, Except.bind]
  | ok found =>
    obtain ⟨place, asDirectory⟩ := found
    simp only [bind, Except.bind]
    cases hcontent : fs.entries.lookup place with
    | none =>
      cases fs.kindAt? place <;> simp [hcontent]
    | some old => cases asDirectory <;> simp [hcontent]

theorem SamePlaces.readAt_eq (hplaces : fs.SamePlaces fs')
    (h : ∀ place, fs.resolve path = .ok (place, false) →
      fs'.entries.lookup place = fs.entries.lookup place) :
    fs'.readAt path = fs.readAt path := by
  simp only [readAt, hplaces.resolve_eq, hplaces.kindAt?_eq]
  cases hresolve : fs.resolve path with
  | error e => rfl
  | ok found =>
    obtain ⟨place, asDirectory⟩ := found
    simp only [bind, Except.bind]
    cases asDirectory with
    | false => rw [h place hresolve]
    | true =>
      -- the content is not given back, so only whether there is a file counts
      have hsome : (fs'.entries.lookup place).isSome = (fs.entries.lookup place).isSome := by
        rw [isSome_lookup, isSome_lookup, show _ = _ from hplaces]
      cases hold : fs.entries.lookup place <;> cases hnew : fs'.entries.lookup place <;>
        simp_all

/-- The second directory is the first but for what the file at a path holds. -/
structure ExceptAt (path : Text) (fs fs' : Files) : Prop where
  places : fs.SamePlaces fs'
  elsewhere : ∀ place, fs.resolve path ≠ .ok (place, false) →
    fs'.entries.lookup place = fs.entries.lookup place

theorem ExceptAt.refl (path : Text) (fs : Files) : ExceptAt path fs fs :=
  ⟨SamePlaces.refl fs, fun _ _ => rfl⟩

theorem ExceptAt.readAt_eq {other : Text} (h : ExceptAt path fs fs')
    (hother : fs.resolve other ≠ fs.resolve path) : fs'.readAt other = fs.readAt other := by
  apply h.places.readAt_eq
  intro place hplace
  apply h.elsewhere
  intro hpath
  exact hother (hplace.trans hpath.symm)

theorem writeAt_of_readAt (h : fs.readAt path = .ok content) (new : Text) :
    ∃ fs', fs.writeAt path new = .ok fs' ∧ ExceptAt path fs fs' ∧ fs'.readAt path = .ok new := by
  obtain ⟨place, hresolve, hlookup⟩ := readAt_eq_ok_iff.1 h
  have hsome : (fs.entries.lookup place).isSome := by rw [hlookup]; rfl
  have hkind : fs.kindAt? place = some .file := by rw [kindAt?, if_pos hsome]
  have hplaces := samePlaces_set hsome new
  refine ⟨fs.set place new, ?_, ⟨hplaces, ?_⟩, ?_⟩
  · simp [writeAt, hresolve, hkind, bind, Except.bind]
  · intro other hother
    have hne : other ≠ place := by
      rintro rfl
      exact hother hresolve
    rw [lookup_set hsome, if_neg hne]
  · apply readAt_eq_ok_iff.2
    exact ⟨place, by rw [hplaces.resolve_eq, hresolve], by rw [lookup_set hsome, if_pos rfl]⟩

end Modernizer.CommandLine.Files

namespace Modernizer.CommandLine
variable {σ ι α β : Type}

/-- The queries of a task that runs alone, in order. -/
def Task.queries (host : Host (StateM σ)) : Task α → σ → List Query
  | .done _, _ => []
  | .ask q next, s =>
    let (answer, s') := (host.answer q).run s
    q :: (next answer).queries host s'

theorem Task.queries_bind (host : Host (StateM σ)) (t : Task α) (f : α → Task β) (s : σ) :
    (t >>= f).queries host s =
      t.queries host s ++ (f ((t.on host).run s).1).queries host ((t.on host).run s).2 := by
  induction t generalizing s with
  | done a => rfl
  | ask q next ih => exact congrArg (q :: ·) (ih _ _)

/-- From some named tasks and a state to others by turns, with the queries of the turns. -/
inductive Interleaving (host : Host (StateM σ)) :
    List (ι × Task α) → σ → List Query → List (ι × Task α) → σ → Prop
  | stop (pool : List (ι × Task α)) (s : σ) : Interleaving host pool s [] pool s
  | turn {before after pool' : List (ι × Task α)} {x : ι} {q : Query}
      {next : q.Answer → Task α} {s s' : σ} {qs : List Query} :
    Interleaving host (before ++ (x, next ((host.answer q).run s).1) :: after)
      ((host.answer q).run s).2 qs pool' s' →
    Interleaving host (before ++ (x, .ask q next) :: after) s (q :: qs) pool' s'

/-- A pool in which every task has ended. -/
def finished (results : List (ι × α)) : List (ι × Task α) :=
  results.map fun r => (r.1, .done r.2)

def inOrder (host : Host (StateM σ)) (pool : List (ι × Task α)) : StateM σ (List (ι × α)) :=
  pool.mapM fun e => do return (e.1, ← e.2.on host)

namespace Interleaving
variable {host : Host (StateM σ)} {pool pool' pool'' : List (ι × Task α)} {s s' s'' : σ}
  {qs qs' : List Query}

theorem trans (h : Interleaving host pool s qs pool' s')
    (h' : Interleaving host pool' s' qs' pool'' s'') :
    Interleaving host pool s (qs ++ qs') pool'' s'' := by
  induction h with
  | stop => exact h'
  | turn _ ih => exact (ih h').turn

theorem beside (h : Interleaving host pool s qs pool' s') (front rest : List (ι × Task α)) :
    Interleaving host (front ++ pool ++ rest) s qs (front ++ pool' ++ rest) s' := by
  induction h with
  | stop pool s => exact stop _ _
  | @turn before after pool' x q next s s' qs _ ih =>
    have hturn := @turn _ _ _ host (front ++ before) (after ++ rest) (front ++ pool' ++ rest)
      x q next s s' qs
    simp only [List.append_assoc, List.cons_append] at hturn ih ⊢
    exact hturn ih

theorem alone (host : Host (StateM σ)) (x : ι) (t : Task α) (s : σ) :
    Interleaving host [(x, t)] s (t.queries host s) [(x, .done ((t.on host).run s).1)]
      ((t.on host).run s).2 := by
  induction t generalizing s with
  | done a => exact stop _ _
  | ask q next ih => exact @turn _ _ _ host [] [] _ x q next _ _ _ (ih _ _)

theorem of_inOrder (host : Host (StateM σ)) (pool : List (ι × Task α)) (s : σ) :
    ∃ qs, Interleaving host pool s qs (finished ((inOrder host pool).run s).1)
      ((inOrder host pool).run s).2 := by
  induction pool generalizing s with
  | nil => exact ⟨[], stop _ _⟩
  | cons e pool ih =>
    obtain ⟨x, t⟩ := e
    obtain ⟨qs, hrest⟩ := ih ((t.on host).run s).2
    have hfirst := (alone host x t s).beside [] pool
    have hlater := hrest.beside [(x, .done ((t.on host).run s).1)] []
    rw [List.append_nil, List.append_nil] at hlater
    refine ⟨t.queries host s ++ qs, ?_⟩
    rw [inOrder, List.mapM_cons]
    exact hfirst.trans hlater

theorem exists_finished (host : Host (StateM σ)) (pool : List (ι × Task α)) (s : σ) :
    ∃ qs results s', Interleaving host pool s qs (finished results) s' := by
  obtain ⟨qs, h⟩ := of_inOrder host pool s
  exact ⟨qs, _, _, h⟩

end Interleaving

/-! Tasks with files of their own. -/

/-- Every query reads or writes the file at one path, as long as the answers are no errors. -/
inductive Task.OnlyAt (path : Text) : Task α → Prop
  | done (a : α) : OnlyAt path (.done a)
  | read (next : (Query.read path).Answer → Task α) :
    (∀ content, OnlyAt path (next (.ok content))) → OnlyAt path (.ask (.read path) next)
  | write (content : Text) (next : (Query.write path content).Answer → Task α) :
    OnlyAt path (next (.ok ())) → OnlyAt path (.ask (.write path content) next)

open Files

variable {input path : Text} {fs fs' : Files} {content new : Text} {q : Query} {t : Task α}

@[simp] theorem answer_read (input path : Text) (fs : Files) :
    ((Files.host input).answer (.read path)).run fs = (fs.readAt path, fs) :=
  rfl

theorem answer_write (input : Text) (h : fs.writeAt path new = .ok fs') :
    ((Files.host input).answer (.write path new)).run fs = (.ok (), fs') := by
  simp only [Host.answer, Files.host, StateT.run_bind, StateT.run_get, pure_bind, h]
  rfl

theorem Task.OnlyAt.turn (input : Text) {next : q.Answer → Task α} (h : (Task.ask q next).OnlyAt path)
    (hfile : fs.readAt path = .ok content) :
    (next (((Files.host input).answer q).run fs).1).OnlyAt path ∧
      ExceptAt path fs (((Files.host input).answer q).run fs).2 ∧
      ∃ content, (((Files.host input).answer q).run fs).2.readAt path = .ok content := by
  cases h with
  | read next hnext =>
    rw [answer_read, hfile]
    exact ⟨hnext content, ExceptAt.refl path fs, content, rfl⟩
  | write new next hnext =>
    obtain ⟨fs', hwrite, hexcept, hread⟩ := writeAt_of_readAt hfile new
    rw [answer_write input hwrite]
    exact ⟨hnext, hexcept, new, hread⟩

/-- A task by itself: what it gives, what it asks, and what is then in the file at a path. -/
structure Alone (α : Type) where
  value : α
  asked : List Query
  left : Except FileError Text

def Task.alone (input path : Text) (t : Task α) (fs : Files) : Alone α where
  value := ((t.on (Files.host input)).run fs).1
  asked := t.queries (Files.host input) fs
  left := ((t.on (Files.host input)).run fs).2.readAt path

theorem Task.alone_ask (input path : Text) (q : Query) (next : q.Answer → Task α) (fs : Files) :
    (Task.ask q next).alone input path fs =
      let (answer, fs') := ((Files.host input).answer q).run fs
      let rest := (next answer).alone input path fs'
      ⟨rest.value, q :: rest.asked, rest.left⟩ :=
  rfl

theorem Task.OnlyAt.alone_eq (h : t.OnlyAt path) (hplaces : fs.SamePlaces fs')
    (hfile : fs.readAt path = .ok content) (hsame : fs'.readAt path = .ok content) :
    t.alone input path fs' = t.alone input path fs := by
  induction h generalizing fs fs' content with
  | done a =>
    have hfiles : fs'.readAt path = fs.readAt path := hsame.trans hfile.symm
    exact congrArg (Alone.mk a []) hfiles
  | read next hnext ih =>
    rw [alone_ask, alone_ask, answer_read, answer_read, hfile, hsame]
    have hrest := ih content hplaces hfile hsame
    simp only [hrest]
  | write new next hnext ih =>
    obtain ⟨fs₁, hwrite, hexcept, hread⟩ := writeAt_of_readAt hfile new
    obtain ⟨fs₁', hwrite', hexcept', hread'⟩ := writeAt_of_readAt hsame new
    have hplaces₁ : fs₁.SamePlaces fs₁' :=
      (hexcept.places.symm.trans hplaces).trans hexcept'.places
    rw [alone_ask, alone_ask, answer_write input hwrite, answer_write input hwrite']
    have hrest := ih hplaces₁ hread hread'
    simp only [hrest]

/-- Every task keeps to the file it is named for, and no two of these files are the same. -/
structure Apart (fs : Files) (pool : List (Text × Task α)) : Prop where
  own : ∀ e ∈ pool, e.2.OnlyAt e.1
  readable : ∀ e ∈ pool, ∃ content, fs.readAt e.1 = .ok content
  distinct : (pool.map fun e => fs.resolve e.1).Nodup

/-- What became of a pool is what becomes of its tasks alone. -/
structure Settled (input : Text) (fs : Files) (pool : List (Text × Task α))
    (results : List (Text × α)) (qs : List Query) (fs' : Files) : Prop where
  results_eq : results = pool.map fun e => (e.1, (e.2.alone input e.1 fs).value)
  asked : qs.Perm (pool.flatMap fun e => (e.2.alone input e.1 fs).asked)
  left : ∀ e ∈ pool, fs'.readAt e.1 = (e.2.alone input e.1 fs).left
  places : fs.SamePlaces fs'
  elsewhere : ∀ place, (∀ e ∈ pool, fs.resolve e.1 ≠ .ok (place, false)) →
    fs'.entries.lookup place = fs.entries.lookup place

theorem settled_finished (input : Text) (fs : Files) (results : List (Text × α)) :
    Settled input fs (finished results) results [] fs where
  results_eq := by
    rw [finished, List.map_map]
    exact (List.map_id results).symm
  asked := by
    have hnone : (finished results).flatMap (fun e => (e.2.alone input e.1 fs).asked) = [] := by
      rw [List.flatMap_eq_nil_iff, finished, List.forall_mem_map]
      intro r _
      rfl
    rw [hnone]
  left := by
    rw [finished, List.forall_mem_map]
    intro r _
    rfl
  places := SamePlaces.refl fs
  elsewhere _ _ := rfl

private theorem mem_middle {β : Type} {b c : β} {before after : List β} :
    c ∈ before ++ b :: after ↔ c = b ∨ c ∈ before ++ after :=
  List.perm_middle.mem_iff.trans List.mem_cons

section
variable {before after : List (Text × Task α)} {x : Text} {next : q.Answer → Task α}

theorem Apart.turn (input : Text) (h : Apart fs (before ++ (x, .ask q next) :: after)) :
    Apart (((Files.host input).answer q).run fs).2
        (before ++ (x, next (((Files.host input).answer q).run fs).1) :: after) ∧
      ExceptAt x fs (((Files.host input).answer q).run fs).2 ∧
      ∀ e ∈ before ++ after, e.2.alone input e.1 (((Files.host input).answer q).run fs).2 =
        e.2.alone input e.1 fs := by
  have hhead : (x, .ask q next) ∈ before ++ (x, .ask q next) :: after := mem_middle.2 (.inl rfl)
  have hmem : ∀ e ∈ before ++ after, e ∈ before ++ (x, .ask q next) :: after :=
    fun e he => mem_middle.2 (.inr he)
  have hother : ∀ e ∈ before ++ after, fs.resolve e.1 ≠ fs.resolve x := by
    have hnodup := h.distinct
    rw [List.map_append, List.map_cons, List.nodup_middle, List.nodup_cons, ← List.map_append]
      at hnodup
    intro e he heq
    exact hnodup.1 (heq ▸ List.mem_map_of_mem he)
  obtain ⟨old, hold⟩ := h.readable _ hhead
  obtain ⟨hown, hexcept, hleft⟩ := (h.own _ hhead).turn input hold
  generalize ((Files.host input).answer q).run fs = r at hown hexcept hleft ⊢
  refine ⟨⟨?_, ?_, ?_⟩, hexcept, ?_⟩
  · intro e he
    obtain rfl | he := mem_middle.1 he
    · exact hown
    · exact h.own e (hmem e he)
  · intro e he
    obtain rfl | he := mem_middle.1 he
    · exact hleft
    · rw [hexcept.readAt_eq (hother e he)]
      exact h.readable e (hmem e he)
  · have hdistinct := h.distinct
    simp only [hexcept.places.resolve_eq, List.map_append, List.map_cons] at hdistinct ⊢
    exact hdistinct
  · intro e he
    obtain ⟨content, hcontent⟩ := h.readable e (hmem e he)
    apply (h.own e (hmem e he)).alone_eq hexcept.places hcontent
    rw [hexcept.readAt_eq (hother e he), hcontent]

variable {results : List (Text × α)} {qs : List Query}

theorem Settled.turn (hapart : Apart fs (before ++ (x, .ask q next) :: after))
    (h : Settled input (((Files.host input).answer q).run fs).2
      (before ++ (x, next (((Files.host input).answer q).run fs).1) :: after) results qs fs') :
    Settled input fs (before ++ (x, .ask q next) :: after) results (q :: qs) fs' := by
  obtain ⟨-, hexcept, hothers⟩ := hapart.turn input
  have hhead := Task.alone_ask input x q next fs
  generalize ((Files.host input).answer q).run fs = r at h hexcept hothers hhead
  obtain ⟨answer, fs₁⟩ := r
  dsimp only at h hexcept hothers hhead
  -- the other tasks would end alone as before, since the answer changed only the file of this one
  have hbefore : before.map (fun e => (e.1, e.2.alone input e.1 fs₁)) =
      before.map fun e => (e.1, e.2.alone input e.1 fs) := by
    apply List.map_congr_left
    intro e he
    rw [hothers e (List.mem_append_left _ he)]
  have hafter : after.map (fun e => (e.1, e.2.alone input e.1 fs₁)) =
      after.map fun e => (e.1, e.2.alone input e.1 fs) := by
    apply List.map_congr_left
    intro e he
    rw [hothers e (List.mem_append_right _ he)]
  refine ⟨?_, ?_, ?_, hexcept.places.trans h.places, ?_⟩
  · have hb := congrArg (List.map fun e => (e.1, e.2.value)) hbefore
    have ha := congrArg (List.map fun e => (e.1, e.2.value)) hafter
    have hresults := h.results_eq
    simp only [List.map_map, Function.comp_def] at hb ha
    rw [List.map_append, List.map_cons] at hresults ⊢
    rw [hresults, hb, ha, hhead]
  · have hb := congrArg (List.flatMap fun e => e.2.asked) hbefore
    have ha := congrArg (List.flatMap fun e => e.2.asked) hafter
    have hasked := h.asked
    rw [List.flatMap_map, List.flatMap_map] at hb ha
    rw [List.flatMap_append, List.flatMap_cons] at hasked ⊢
    rw [hb, ha] at hasked
    rw [hhead]
    exact (hasked.cons q).trans List.perm_middle.symm
  · intro e he
    obtain rfl | he := mem_middle.1 he
    · rw [hhead]
      exact h.left (x, next answer) (mem_middle.2 (.inl rfl))
    · rw [← hothers e he]
      exact h.left e (mem_middle.2 (.inr he))
  · intro place hplace
    have hx : fs.resolve x ≠ .ok (place, false) :=
      hplace (x, .ask q next) (mem_middle.2 (.inl rfl))
    rw [← hexcept.elsewhere place hx]
    apply h.elsewhere
    intro e he
    rw [hexcept.places.resolve_eq]
    obtain rfl | he := mem_middle.1 he
    · exact hx
    · exact hplace e (mem_middle.2 (.inr he))

/-- Tasks with files of their own end as each ends alone, whatever the order of their turns. -/
theorem Interleaving.settled {pool : List (Text × Task α)}
    (h : Interleaving (Files.host input) pool fs qs (finished results) fs')
    (hapart : Apart fs pool) : Settled input fs pool results qs fs' := by
  generalize hend : finished results = pool' at h
  induction h with
  | stop pool fs =>
    subst hend
    exact settled_finished input fs results
  | turn _ ih => exact Settled.turn hapart (ih (hapart.turn input).1 hend)

end

end Modernizer.CommandLine
