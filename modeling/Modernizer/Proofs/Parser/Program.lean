import Modernizer.Parser.Program
import Modernizer.Proofs.Parser.Statement

/-! What is parsed is a tree. The grammar is sound at every depth, and attaching the comments leaves
the nodes as they are. -/

namespace Modernizer

open Store Modernizer.Parser

variable {s s₀ s' : Store} {ns : List NodeId} {source : Text} {p : Program}

theorem Store.Grows.congr (h : Grows s₀ s ns) (hnodes : s'.nodes = s.nodes)
    (hahead : s.NoneAhead → s'.NoneAhead) : Grows s₀ s' ns := by
  cases s
  cases s'
  cases hnodes
  refine ⟨⟨h.forest.parsed, h.forest.nodup, h.forest.linked, h.forest.lt, fun n form hf => ?_⟩,
    h.size_le, h.kept, h.nodup, h.roots, fun h₀ => hahead (h.ahead h₀)⟩
  exact (h.forest.shaped n form hf).mono fun _ _ hm => hm

theorem Store.nodes_attachComments (source : Text) (s : Store) :
    (s.attachComments source).nodes = s.nodes := by
  unfold attachComments
  have h : ∀ (l : List Attachment) (s : Store), (l.foldl (fun s a =>
      if a.trailing then s.addTrailingComment (some a.node) a.comment
      else s.addLeadingComment (some a.node) a.comment) s).nodes = s.nodes := by
    intro l
    induction l with
    | nil => exact fun _ => rfl
    | cons a l ih =>
      intro s
      rw [List.foldl_cons, ih]
      split <;> rfl
  exact h _ s

namespace Parser

theorem Grammar.sound_ofDepth (depth : Nat) : (Grammar.ofDepth depth).Sound := by
  induction depth with
  | zero =>
    have h : MakesOf Form.IsValue (do fail .tooDeep (← tokenPos)) ([·]) := fun _ =>
      .silent fun pos => establishes_fail
    exact ⟨h.makes, h.makes, fun _ => h.makes, h.makes, h.makes, h, h.makes⟩
  | succ depth ih =>
    exact ⟨makes_statement ih, makes_assignment ih, fun _ => (makesOf_binary ih _).makes,
      (makesOf_unary ih).makes, (makesOf_leftHandSide ih).makes, makesOf_newExpression ih,
      makes_bindingTarget ih⟩

theorem establishes_program {g : Grammar} (hg : g.Sound) (stop : Nat) :
    Establishes (Grows s₀ · []) (program g stop) fun n s =>
      Grows s₀ s [n] ∧ ∃ list, s.form? (some n) = some (.program list) := by
  unfold program
  refine .silent fun _ => .make (makes_statementsUntil hg _) fun statements => ?_
  refine (Establishes.addSpan (List.Perm.refl (present statements)) fun s hs =>
    ⟨hs, .of_plain rfl⟩).mono fun n s hs => ⟨hs.1, _, hs.2⟩

end Parser

theorem run_of_parse (h : parse source = .ok p) : ∃ st,
    (Parser.program (Grammar.ofDepth (source.length + 2)) (Text.utf8Length source)).run
      (.ofText source) = .ok (p.root, st) ∧ p.store.nodes = st.store.nodes ∧
      (st.store.NoneAhead → p.store.NoneAhead) := by
  unfold parse at h
  dsimp only at h
  cases hrun : (Parser.program (Grammar.ofDepth (source.length + 2)) (Text.utf8Length source)).run
      (.ofText source) with
  | error e =>
    rw [hrun] at h
    cases h
  | ok r =>
    rw [hrun] at h
    cases h
    have hahead : r.2.store.NoneAhead →
        ({ r.2.store with comments := r.2.scanner.comments } : Store).NoneAhead := id
    exact ⟨r.2, rfl, nodes_attachComments source _, fun h => (hahead h).attachComments source⟩

theorem grows_of_parse (h : parse source = .ok p) : Grows .empty p.store [p.root] ∧
    ∃ list, p.store.form? (some p.root) = some (.program list) := by
  obtain ⟨st, hrun, hnodes, hahead⟩ := run_of_parse h
  obtain ⟨hgrows, list, hform⟩ := establishes_program (Grammar.sound_ofDepth _) _ _ _ _
    (Grows.refl forest_empty) hrun
  refine ⟨hgrows.congr hnodes hahead, list, ?_⟩
  rw [← hform]
  simp only [form?, get?, hnodes]

theorem treeAt_of_parse (h : parse source = .ok p) : p.store.TreeAt p.root :=
  (grows_of_parse h).1.treeAt (grows_of_parse h).2

theorem noneAhead_of_parse (h : parse source = .ok p) : p.store.NoneAhead :=
  (grows_of_parse h).1.ahead fun _ _ => rfl

theorem exists_parse_of_isOk (source : Text) (h : (parse source).isOk = true) :
    ∃ p, parse source = .ok p := by
  cases hp : parse source with
  | error e =>
    rw [hp] at h
    cases h
  | ok p => exact ⟨p, rfl⟩

theorem of_parse {P : Program → Prop} (h : ∀ p ∈ (parse source).toOption, P p) :
    ∀ p, parse source = .ok p → P p :=
  fun p hp => h p (by rw [hp]; rfl)

theorem exists_parse {P : Program → Prop} (h : ∃ p ∈ (parse source).toOption, P p) :
    ∃ p, parse source = .ok p ∧ P p := by
  obtain ⟨p, hp, hP⟩ := h
  cases hparse : parse source with
  | error e =>
    rw [hparse] at hp
    cases hp
  | ok q =>
    rw [hparse] at hp
    cases hp
    exact ⟨p, rfl, hP⟩

end Modernizer
