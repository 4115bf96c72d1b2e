import Modernizer.CommandLine.Run
import Modernizer.Proofs.CommandLine.Spelling
import Modernizer.Proofs.Rule.Selection

/-! What settings come to. However they are spelled, reading assigns them one after the other
(`Usage.toOption_read`), so a run does not depend on how the rules are divided among options
(`selections_compose`). -/

namespace Modernizer.CommandLine

namespace Usage
variable {args : List Text} {items : List (Setting × Text)} {setting : Setting} {t value : Text}
  {s s' : State}

namespace State

/-- Assigns a setting, and no more is pending then. There is one file at most. -/
def put (s : State) (item : Setting × Text) : Option State :=
  if item.1 = .file ∧ s.hasFile = true then none
  else (assign s.request item.1 (some item.2)).toOption.map fun r =>
    ⟨r, none, s.hasFile || item.1 = Setting.file⟩

theorem pending_of_put {item : Setting × Text} (h : s.put item = some s') : s'.pending = none := by
  unfold put at h
  split at h
  · cases h
  · obtain ⟨r, -, rfl⟩ := Option.map_eq_some_iff.1 h
    rfl

theorem put_eq_settle {item : Setting × Text} (h : ¬(item.1 = .file ∧ s.hasFile = true)) :
    s.put item = (State.settle ⟨s.request, some (item.1, some item.2),
      s.hasFile || item.1 = Setting.file⟩).toOption := by
  rw [put, if_neg h, toOption_settle rfl]

theorem put_of_ne_file (hne : setting ≠ .file) (s : State) (value : Text) :
    s.put (setting, value) = (assign s.request setting (some value)).toOption.map fun r =>
      ⟨r, none, s.hasFile⟩ := by
  simp only [put, hne, false_and, if_false, decide_false, Bool.or_false]

end State

/-- Reading puts the items one after the other, once what is pending before is settled. -/
def Puts (reading : State → Except UsageError State) (items : List (Setting × Text)) : Prop :=
  ∀ s : State, ¬s.Awaits →
    (reading s >>= State.settle).toOption = s.settle.toOption.bind (items.foldlM State.put ·)

namespace Puts
variable {reading reading' : State → Except UsageError State}

theorem nil : Puts pure [] := by
  intro s _
  rw [pure_bind]
  exact (Option.bind_fun_some _).symm

theorem of_pending (h : Puts reading items) (setting : Setting) (value : Text)
    (hfile : ¬(setting = .file ∧ s.hasFile = true)) :
    (reading ⟨s.request, some (setting, some value), s.hasFile || setting = Setting.file⟩ >>=
      State.settle).toOption = ((setting, value) :: items).foldlM State.put s := by
  have hawaits : ¬State.Awaits
      ⟨s.request, some (setting, some value), s.hasFile || setting = Setting.file⟩ := by
    rintro ⟨setting, h⟩
    cases h
  rw [h _ hawaits, List.foldlM_cons, State.put_eq_settle hfile]
  rfl

theorem positional (h : Puts reading items)
    (hreading : ∀ s : State, ¬s.Awaits → reading' s = s.positional t >>= reading) :
    Puts reading' ((.file, t) :: items) := by
  intro s hs
  rw [hreading s hs, bind_assoc, toOption_bind, State.toOption_positional, Option.bind_assoc]
  refine Option.bind_congr fun s' _ => ?_
  by_cases hfile : s'.hasFile = true
  · rw [if_pos hfile, List.foldlM_cons, State.put, if_pos ⟨rfl, hfile⟩]
    rfl
  · have hpending := h.of_pending (s := s') .file t fun h => hfile h.2
    rw [if_neg hfile, ← hpending, decide_eq_true rfl, Bool.or_true]
    rfl

theorem attached (h : Puts reading items) (hne : setting ≠ .file)
    (hreading : ∀ s, reading' s = s.option setting (some value) >>= reading) :
    Puts reading' ((setting, value) :: items) := by
  intro s _
  rw [hreading, bind_assoc, toOption_bind, State.toOption_option_some, Option.bind_assoc]
  refine Option.bind_congr fun s' _ => ?_
  rw [← State.put_of_ne_file hne, List.foldlM_cons]
  refine Option.bind_congr fun s₁ hs₁ => ?_
  have hnone := State.pending_of_put hs₁
  have hrest := h s₁ fun ⟨setting, h⟩ => by rw [hnone] at h; cases h
  rwa [State.toOption_settle_of_none hnone] at hrest

theorem bare (h : Puts reading items) (hne : setting ≠ .file)
    (hreading : ∀ s, reading' s = do
      let s ← s.option setting none
      reading { s with pending := some (setting, some value) }) :
    Puts reading' ((setting, value) :: items) := by
  intro s _
  rw [hreading, bind_assoc, toOption_bind, State.toOption_option_none, Option.bind_map]
  refine Option.bind_congr fun s' _ => ?_
  have hpending := h.of_pending (s := s') setting value fun h => hne h.1
  rwa [decide_eq_false hne, Bool.or_false] at hpending

end Puts

theorem puts_readPositional (values : List Text) :
    Puts (readPositional values) (values.map (Setting.file, ·)) := by
  induction values with
  | nil => exact .nil
  | cons t values ih => exact ih.positional fun s _ => rfl

theorem Spells.puts (h : Spells args items) : Puts (readArguments args) items := by
  induction h with
  | nil => exact .nil
  | file ht _ ih => exact ih.positional fun s => readArguments_positional ht _
  | attached ht _ ih => exact ih.attached (ne_file_of_attached ht) (readArguments_attached ht _)
  | bare ht hvalue _ ih =>
    -- The value is pending until the argument after it settles it.
    refine ih.bare (ne_file_of_bare ht) fun s => ?_
    rw [readArguments_bare ht, State.option]
    cases s.settle with
    | error e => rfl
    | ok s' => exact readArguments_value hvalue _ rfl
  | files values => exact puts_readPositional values

/-- What the arguments come to, if they are a request. -/
theorem toOption_read (h : Spells args items) :
    (read args).toOption =
      (items.foldlM State.put ⟨.empty, none, false⟩).bind fun s => (check s.request).toOption := by
  have hputs := h.puts ⟨.empty, none, false⟩ fun ⟨_, h⟩ => by cases h
  rw [State.toOption_settle_of_none rfl, Option.bind_some] at hputs
  rw [read_eq, toOption_bind, hputs]

/-! The rules among the settings. -/

/-- The values of the options for rules. -/
def rulesOf (items : List (Setting × Text)) : List Text :=
  (items.filter (·.1 = Setting.rules)).map (·.2)

/-- The settings besides rules. -/
def others (items : List (Setting × Text)) : List (Setting × Text) :=
  items.filter (·.1 ≠ Setting.rules)

theorem assign_of_ne_rules (hne : setting ≠ .rules) (r : Request) (rules : List Text)
    (value : Option Text) :
    assign { r with rules := rules } setting value =
      (assign r setting value).map fun r' => { r' with rules := rules } := by
  cases value with
  | none => cases setting <;> rfl
  | some value =>
    cases setting with
    | rules => exact absurd rfl hne
    | file =>
      simp only [assign]
      split <;> rfl
    | outFile =>
      simp only [assign]
      split
      · rfl
      · split <;> rfl
    | replace =>
      simp only [assign]
      split <;> rfl

/-- The second settings are the first with all rules in one list. -/
structure Joined (items items' : List (Setting × Text)) : Prop where
  others_eq : others items' = others items
  some_rules : rulesOf items ≠ []
  rules_eq : rulesOf items' = [Text.join [','] (rulesOf items)]

namespace State

def withRules (rules : List Text) (s : State) : State :=
  { s with request := { s.request with rules := rules } }

@[simp] theorem rules_withRules (rules : List Text) (s : State) :
    (s.withRules rules).request.rules = rules := rfl

theorem withRules_comp_withRules (rules rules' : List Text) :
    withRules rules ∘ withRules rules' = withRules rules := rfl

theorem put_rules (h : s.pending = none) (value : Text) :
    s.put (.rules, value) = some (s.withRules (s.request.rules ++ [value])) := by
  obtain ⟨request, pending, hasFile⟩ := s
  obtain rfl : pending = none := h
  simp [put, assign, withRules, Except.toOption]

theorem put_withRules {item : Setting × Text} (hne : item.1 ≠ .rules) (s : State)
    (rules : List Text) : (s.withRules rules).put item = (s.put item).map (withRules rules) := by
  by_cases hfile : item.1 = .file ∧ s.hasFile = true
  · have hthere : (s.withRules rules).put item = none := if_pos hfile
    rw [hthere, put, if_pos hfile]
    rfl
  · have hthere : (s.withRules rules).put item =
        (assign { s.request with rules := rules } item.1 (some item.2)).toOption.map fun r =>
          ⟨r, none, s.hasFile || item.1 = Setting.file⟩ := if_neg hfile
    rw [hthere, put, if_neg hfile, assign_of_ne_rules hne]
    cases assign s.request item.1 (some item.2) <;> rfl

theorem rules_of_put {item : Setting × Text} (hne : item.1 ≠ .rules) (h : s.put item = some s') :
    s'.request.rules = s.request.rules := by
  have hsame : s.put item = (s.put item).map (withRules s.request.rules) :=
    put_withRules hne s s.request.rules
  rw [h] at hsame
  rw [Option.some.inj hsame]
  rfl

end State

theorem foldlM_withRules (hitems : ∀ item ∈ items, item.1 ≠ Setting.rules) (s : State)
    (rules : List Text) :
    items.foldlM State.put (s.withRules rules) =
      (items.foldlM State.put s).map (State.withRules rules) := by
  induction items generalizing s with
  | nil => rfl
  | cons item items ih =>
    obtain ⟨hitem, hitems⟩ := List.forall_mem_cons.1 hitems
    rw [List.foldlM_cons, List.foldlM_cons, State.put_withRules hitem]
    cases s.put item with
    | none => rfl
    | some s' => exact ih hitems s'

theorem foldlM_put (items : List (Setting × Text)) (hs : s.pending = none) :
    items.foldlM State.put s = ((others items).foldlM State.put s).map
      (State.withRules (s.request.rules ++ rulesOf items)) := by
  induction items generalizing s with
  | nil => simp [others, rulesOf, State.withRules]
  | cons item items ih =>
    obtain ⟨setting, value⟩ := item
    by_cases hrules : setting = .rules
    · -- Rules assigned now or at the end, no other setting notices.
      subst hrules
      have hothers : ∀ item ∈ others items, item.1 ≠ Setting.rules := fun item hitem => by
        simpa using (List.mem_filter.1 hitem).2
      have hrest := ih (s := s.withRules (s.request.rules ++ [value])) hs
      rw [foldlM_withRules hothers, Option.map_map, State.withRules_comp_withRules] at hrest
      rw [List.foldlM_cons, State.put_rules hs]
      refine hrest.trans ?_
      simp [others, rulesOf]
    · have hothers : others ((setting, value) :: items) = (setting, value) :: others items := by
        simp [others, hrules]
      have hsame : rulesOf ((setting, value) :: items) = rulesOf items := by simp [rulesOf, hrules]
      rw [hothers, hsame, List.foldlM_cons, List.foldlM_cons]
      cases hput : s.put (setting, value) with
      | none => rfl
      | some s' =>
        have hrest := ih (State.pending_of_put hput)
        rw [State.rules_of_put hrules hput] at hrest
        exact hrest

/-! Requests. -/

theorem eq_of_check {r r' : Request} (h : (check r).toOption = some r') : r' = r := by
  unfold check at h
  split at h
  · cases h
  split at h
  · cases h
  · exact (Option.some.inj h).symm

theorem toOption_check (r : Request) {rules : List Text} (hrules : rules ≠ []) :
    (check { r with rules := rules }).toOption =
      if r.replace.isSome ∧ (r.file.isSome ∨ r.outFile.isSome) then none
      else some { r with rules := rules } := by
  unfold check
  rw [List.isEmpty_eq_false_iff.2 hrules]
  dsimp only
  split <;> rfl

theorem rules_of_read (h : Spells args items) {r : Request} (hr : read args = .ok r) :
    r.rules = rulesOf items := by
  have hread := congrArg Except.toOption hr
  rw [toOption_read h, foldlM_put items rfl, Option.bind_map] at hread
  obtain ⟨s, -, hcheck⟩ := Option.bind_eq_some_iff.1 hread
  rw [eq_of_check hcheck]
  exact List.nil_append _

end Usage

section
open Usage
variable {m : Type → Type} [Monad m] (host : Host m) (report : Report)

theorem run_joined (r : Request) (rules : List Text) :
    run host report { r with rules := [Text.join [','] rules] } =
      run host report { r with rules := rules } := rfl

theorem map_run_check (r : Request) {rules : List Text} (hrules : rules ≠ []) :
    (check { r with rules := [Text.join [','] rules] }).toOption.map (run host report) =
      (check { r with rules := rules }).toOption.map (run host report) := by
  rw [toOption_check r hrules, toOption_check r (List.cons_ne_nil _ [])]
  split
  · rfl
  · exact congrArg some (run_joined host report r rules)

theorem map_run_read {args args' : List Text} {items items' : List (Setting × Text)}
    (h : Spells args items) (h' : Spells args' items') (hjoined : Joined items items') :
    (read args').toOption.map (run host report) = (read args).toOption.map (run host report) := by
  rw [toOption_read h, toOption_read h', foldlM_put items rfl, foldlM_put items' rfl,
    hjoined.others_eq, hjoined.rules_eq, Option.bind_map, Option.bind_map, Option.map_bind,
    Option.map_bind]
  exact congrArg _ (funext fun s => map_run_check host report s.request hjoined.some_rules)

end

section
open RuleName

/-- A list of rules selects what its entries name, in the order of first mention and up to the first
unknown name; lists compose at commas, the names of a selection select it again, and it is all the
same whether an invocation has one list of rules or several. -/
theorem selections_compose :
    (∀ a b : Text, parseSelection (a ++ ',' :: b) =
      match parseSelection a, parseSelection b with
      | .error name, _ => .error name
      | .ok _, .error name => .error name
      | .ok rules, .ok more => .ok (rules ++ more.filter (· ∉ rules))) ∧
    (∀ list : Text, (∃ rules, parseSelection list = .ok rules) ↔
      ∀ entry ∈ Text.split ',' list, entry.trim ≠ [] →
        ∃ r : RuleName, r.text.toList = entry.trim) ∧
    (∀ list name : Text, parseSelection list = .error name ↔
      Unknown name ∧ ∃ known unread, entries list = names known ++ name :: unread) ∧
    (∀ (list : Text) (rules : List RuleName), parseSelection list = .ok rules →
      Mentioned (entries list) rules) ∧
    (∀ (rules : List RuleName) (before after : RuleName → Text), rules.Nodup →
      (∀ r, ∀ c ∈ before r, Text.isSpace c = true) → (∀ r, ∀ c ∈ after r, Text.isSpace c = true) →
      parseSelection (Text.join [','] (rules.map fun r => before r ++ r.text.toList ++ after r)) =
        .ok rules) ∧
    (∀ (args : List Text) (request : Request), Usage.read args = .ok request →
      ∃ items, Usage.Spells args items ∧ request.rules = Usage.rulesOf items) ∧
    ∀ args args' items items', Usage.Spells args items → Usage.Spells args' items' →
      Usage.Joined items items' →
      ∀ (m : Type → Type) [Monad m] (host : Host m) (report : Report),
        (Usage.read args').toOption.map (run host report) =
          (Usage.read args).toOption.map (run host report) := by
  refine ⟨parseSelection_append, fun _ => exists_parseSelection_iff,
    fun _ _ => parseSelection_eq_error_iff, fun _ _ => mentioned_of_parseSelection,
    fun _ _ _ hrules hbefore hafter => parseSelection_join hrules hbefore hafter, ?_, ?_⟩
  · intro args request hread
    obtain ⟨items, h⟩ := Usage.exists_spells hread
    exact ⟨items, h, Usage.rules_of_read h hread⟩
  · intro args args' items items' h h' hjoined m _ host report
    exact map_run_read host report h h' hjoined

/-- One rule is named twice, in two options with a file in between. -/
theorem selections_compose_repeated :
    parseSelection " let ,\tarrow".toList = .ok [.letConst, .arrow] ∧
    Mentioned (entries "arrow, let,arrow".toList) [.arrow, .letConst] ∧
    let args := ["-t".toList, "let".toList, "a.js".toList, "--transform=arrow, let".toList]
    let args' := ["a.js".toList, "-tlet,arrow, let".toList]
    (∃ request, Usage.read args = .ok request ∧
      ∃ items, Usage.Spells args items ∧ request.rules = Usage.rulesOf items) ∧
    ∀ (m : Type → Type) [Monad m] (host : Host m) (report : Report),
      (Usage.read args').toOption.map (run host report) =
        (Usage.read args).toOption.map (run host report) := by
  obtain ⟨-, -, -, hmentioned, hnames, hread, hrun⟩ := selections_compose
  refine ⟨?_, hmentioned _ _ (by decide +kernel), ?_⟩
  · refine hnames [.letConst, .arrow] (fun r => if r = .letConst then [' '] else ['\t'])
      (fun r => if r = .letConst then [' '] else []) (by decide) ?_ ?_
    · exact fun r => List.all_eq_true.1 (by cases r <;> decide)
    · exact fun r => List.all_eq_true.1 (by cases r <;> decide)
  intro args args'
  have hplain : Usage.Plain "let".toList ∧ Usage.Plain "a.js".toList :=
    ⟨fun _ _ h => absurd (List.cons.inj h).1 (by decide),
      fun _ _ h => absurd (List.cons.inj h).1 (by decide)⟩
  have hlong : Usage.settingOfLong? "transform".toList = some .rules := rfl
  have hspells : Usage.Spells args
      [(.rules, "let".toList), (.file, "a.js".toList), (.rules, "arrow, let".toList)] :=
    .bare (.short rfl) hplain.1 (.file hplain.2 (.attached (.long hlong) .nil))
  have hspells' : Usage.Spells args'
      [(.file, "a.js".toList), (.rules, "let,arrow, let".toList)] :=
    .file hplain.2 (.attached (.short rfl (by decide) (by decide)) .nil)
  refine ⟨⟨_, rfl, hread args _ rfl⟩, fun m _ host report => ?_⟩
  exact hrun args args' _ _ hspells hspells' ⟨by decide, by decide, by decide⟩ m host report

end
end Modernizer.CommandLine
