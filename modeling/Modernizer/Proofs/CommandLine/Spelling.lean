import Mathlib.Data.List.TakeWhile
import Modernizer.CommandLine.Usage

/-! How arguments spell settings. An option has its value with it or in the next argument, and what
else is no option is a file (`Spells`); all that is read without an error is spelled so
(`Usage.exists_spells`). -/

namespace Modernizer.CommandLine.Usage

variable {args : List Text} {items : List (Setting × Text)} {setting : Setting} {t value : Text}
  {s s' : State}

def Plain (t : Text) : Prop := ∀ c rest, t ≠ '-' :: c :: rest

/-- An option whose value is the next argument. -/
inductive Bare (setting : Setting) : Text → Prop
  | long {name : Text} (h : settingOfLong? name = some setting) : Bare setting ('-' :: '-' :: name)
  | short {name : Char} (h : settingOfShort? name = some setting) : Bare setting ['-', name]

/-- An option with its value in the same argument. -/
inductive Attached (setting : Setting) (value : Text) : Text → Prop
  | long {name : Text} (h : settingOfLong? name = some setting) :
    Attached setting value ('-' :: '-' :: (name ++ '=' :: value))
  | short {name : Char} (h : settingOfShort? name = some setting) (hvalue : value ≠ [])
      (hequals : value.head? ≠ some '=') : Attached setting value ('-' :: name :: value)
  | equals {name : Char} (h : settingOfShort? name = some setting) :
    Attached setting value ('-' :: name :: '=' :: value)

/-- The settings that arguments spell, in their order. -/
inductive Spells : List Text → List (Setting × Text) → Prop
  | nil : Spells [] []
  | file {t : Text} {args items} (ht : Plain t) (hrest : Spells args items) :
    Spells (t :: args) ((.file, t) :: items)
  | attached {t value : Text} {setting args items} (ht : Attached setting value t)
      (hrest : Spells args items) : Spells (t :: args) ((setting, value) :: items)
  | bare {t value : Text} {setting args items} (ht : Bare setting t) (hvalue : Plain value)
      (hrest : Spells args items) : Spells (t :: value :: args) ((setting, value) :: items)
  | files (values : List Text) : Spells (['-', '-'] :: values) (values.map (Setting.file, ·))

/-! One argument. -/

theorem name_of_long {name : Text} (h : settingOfLong? name = some setting) :
    name = "transform".toList ∧ setting = .rules ∨ name = "out-file".toList ∧ setting = .outFile ∨
      name = "replace".toList ∧ setting = .replace := by
  unfold settingOfLong? at h
  split at h
  · exact .inl ⟨‹_›, (Option.some.inj h).symm⟩
  split at h
  · exact .inr (.inl ⟨‹_›, (Option.some.inj h).symm⟩)
  split at h
  · exact .inr (.inr ⟨‹_›, (Option.some.inj h).symm⟩)
  · cases h

theorem name_of_short {name : Char} (h : settingOfShort? name = some setting) :
    name = 't' ∧ setting = .rules ∨ name = 'o' ∧ setting = .outFile := by
  unfold settingOfShort? at h
  split at h
  · exact .inl ⟨rfl, (Option.some.inj h).symm⟩
  · exact .inr ⟨rfl, (Option.some.inj h).symm⟩
  · cases h

theorem ne_file_of_bare (h : Bare setting t) : setting ≠ .file := by
  cases h with
  | long h => obtain ⟨-, rfl⟩ | ⟨-, rfl⟩ | ⟨-, rfl⟩ := name_of_long h <;> decide
  | short h => obtain ⟨-, rfl⟩ | ⟨-, rfl⟩ := name_of_short h <;> decide

theorem ne_file_of_attached (h : Attached setting value t) : setting ≠ .file := by
  cases h with
  | long h => exact ne_file_of_bare (.long h)
  | short h => exact ne_file_of_bare (.short h)
  | equals h => exact ne_file_of_bare (.short h)

theorem readArguments_bare (h : Bare setting t) (args : List Text) (s : State) :
    readArguments (t :: args) s = s.option setting none >>= readArguments args := by
  cases h with
  | long h => obtain ⟨rfl, rfl⟩ | ⟨rfl, rfl⟩ | ⟨rfl, rfl⟩ := name_of_long h <;> rfl
  | short h => obtain ⟨rfl, rfl⟩ | ⟨rfl, rfl⟩ := name_of_short h <;> rfl

theorem readArguments_attached (h : Attached setting value t) (args : List Text) (s : State) :
    readArguments (t :: args) s = s.option setting (some value) >>= readArguments args := by
  cases h with
  | long h => obtain ⟨rfl, rfl⟩ | ⟨rfl, rfl⟩ | ⟨rfl, rfl⟩ := name_of_long h <;> rfl
  | short h hvalue hequals =>
    cases value with
    | nil => exact absurd rfl hvalue
    | cons c value =>
      have hc : c ≠ '=' := fun e => hequals (congrArg some e)
      obtain ⟨rfl, rfl⟩ | ⟨rfl, rfl⟩ := name_of_short h <;>
        simp [readArguments, State.short, settingOfShort?, hc]
  | equals h => obtain ⟨rfl, rfl⟩ | ⟨rfl, rfl⟩ := name_of_short h <;> rfl

/-- The argument before was an option without its value. -/
def State.Awaits (s : State) : Prop := ∃ setting, s.pending = some (setting, none)

theorem readArguments_value (h : Plain t) (args : List Text)
    (hs : s.pending = some (setting, none)) :
    readArguments (t :: args) s =
      readArguments args { s with pending := some (setting, some t) } := by
  rw [readArguments]
  · rw [hs]
  · exact h '-' []
  · exact h '-'
  · exact h

theorem readArguments_positional (h : Plain t) (args : List Text) (hs : ¬s.Awaits) :
    readArguments (t :: args) s = s.positional t >>= readArguments args := by
  rw [readArguments]
  · split
    · exact absurd ⟨_, ‹_›⟩ hs
    · rfl
  · exact h '-' []
  · exact h '-'
  · exact h

/-! One step. -/

theorem toOption_bind {α β : Type} (x : Except UsageError α) (f : α → Except UsageError β) :
    (x >>= f).toOption = x.toOption.bind fun a => (f a).toOption := by
  cases x <;> rfl

namespace State

theorem toOption_settle_of_none (h : s.pending = none) : s.settle.toOption = some s := by
  rw [settle, h]
  rfl

theorem toOption_settle {value : Option Text} (h : s.pending = some (setting, value)) :
    s.settle.toOption =
      (assign s.request setting value).toOption.map fun r => ⟨r, none, s.hasFile⟩ := by
  rw [settle, h]
  dsimp only
  cases assign s.request setting value <;> rfl

theorem pending_of_settle (h : s.settle.toOption = some s') :
    s'.pending = none ∧ s'.hasFile = s.hasFile := by
  cases hp : s.pending with
  | none =>
    rw [toOption_settle_of_none hp] at h
    obtain rfl := Option.some.inj h
    exact ⟨hp, rfl⟩
  | some p =>
    rw [toOption_settle hp] at h
    obtain ⟨r, -, rfl⟩ := Option.map_eq_some_iff.1 h
    exact ⟨rfl, rfl⟩

theorem not_awaits_of_settle (h : s.settle.toOption = some s') : ¬s.Awaits := by
  rintro ⟨setting, hpending⟩
  rw [toOption_settle hpending] at h
  cases setting <;> cases h

theorem toOption_option_none (s : State) (setting : Setting) :
    (s.option setting none).toOption =
      s.settle.toOption.map fun s' => { s' with pending := some (setting, none) } := by
  unfold option
  cases s.settle <;> rfl

theorem toOption_option_some (s : State) (setting : Setting) (value : Text) :
    (s.option setting (some value)).toOption = s.settle.toOption.bind fun s' =>
      (assign s'.request setting (some value)).toOption.map fun r => ⟨r, none, s'.hasFile⟩ := by
  unfold option
  rw [toOption_bind]
  refine Option.bind_congr fun s' hs' => ?_
  rw [toOption_bind, (pending_of_settle hs').1]
  cases assign s'.request setting (some value) <;> rfl

theorem toOption_positional (s : State) (value : Text) :
    (s.positional value).toOption = s.settle.toOption.bind fun s' =>
      if s'.hasFile then none else some ⟨s'.request, some (.file, some value), true⟩ := by
  have hfile : ∀ s' : State, s.settle.toOption = some s' → s'.hasFile = s.hasFile :=
    fun s' hs' => (pending_of_settle hs').2
  unfold positional
  by_cases h : s.hasFile = true
  · rw [if_pos h, eq_comm]
    refine Option.bind_eq_none_iff.2 fun s' hs' => ?_
    rw [if_pos ((hfile s' hs').trans h)]
  · rw [if_neg h, toOption_bind]
    refine Option.bind_congr fun s' hs' => ?_
    rw [hfile s' hs', if_neg h]
    rfl

end State

/-! All that is read. -/

theorem finishWith_ne_ok (s : State) (e : UsageError) : s.finishWith e ≠ .ok s' := by
  unfold State.finishWith
  cases s.settle <;> (intro h; cases h)

/-- An argument is an option, and reading it leads from one state to another. -/
inductive ReadsOption (s s' : State) (t : Text) : Prop
  | bare {setting : Setting} (ht : Bare setting t) (h : s.option setting none = .ok s')
  | attached {setting : Setting} {value : Text} (ht : Attached setting value t)
      (h : s.option setting (some value) = .ok s')

theorem readsOption_of_short {name : Char} (h : s.short name value = .ok s') :
    ReadsOption s s' ('-' :: name :: value) := by
  unfold State.short at h
  split at h
  · exact absurd h (finishWith_ne_ok s .help)
  · exact absurd h (finishWith_ne_ok s .version)
  · rename_i setting _ _ hsetting
    split at h
    · exact .bare (.short hsetting) h
    · exact .attached (.equals hsetting) h
    · rename_i hne hequals
      refine .attached (.short hsetting (fun e => hne e) fun hhead => ?_) h
      obtain ⟨rest, hrest⟩ := List.head?_eq_some_iff.1 hhead
      exact hequals rest hrest
  · cases h

theorem setting_of_long (h : s.long t = .ok s') :
    ∃ setting, settingOfLong? (t.takeWhile (· != '=')) = some setting ∧
      s.option setting (if t.contains '=' then
        some (t.drop ((t.takeWhile (· != '=')).length + 1)) else none) = .ok s' := by
  unfold State.long at h
  dsimp only at h
  split at h
  · split at h
    · cases h
    · exact absurd h (finishWith_ne_ok s .help)
  split at h
  · split at h
    · cases h
    · exact absurd h (finishWith_ne_ok s .version)
  split at h
  · exact ⟨_, ‹_›, h⟩
  · cases h

theorem readsOption_of_long (h : s.long t = .ok s') : ReadsOption s s' ('-' :: '-' :: t) := by
  obtain ⟨setting, hsetting, hoption⟩ := setting_of_long h
  by_cases hequals : '=' ∈ t
  · obtain ⟨name, value, rfl, hname⟩ := List.eq_append_cons_of_mem hequals
    have hbefore : ∀ c ∈ name, (c != '=') = true := fun c hc =>
      bne_iff_ne.2 fun e => hname (e ▸ hc)
    have htake : (name ++ '=' :: value).takeWhile (· != '=') = name := by
      rw [List.takeWhile_append_of_pos hbefore, List.takeWhile_cons_of_neg (by simp),
        List.append_nil]
    have hdrop : (name ++ '=' :: value).drop (name.length + 1) = value := by
      rw [List.drop_append, Nat.add_sub_cancel_left, List.drop_of_length_le (Nat.le_succ _)]
      rfl
    rw [htake] at hsetting hoption
    rw [if_pos (by simp), hdrop] at hoption
    exact .attached (.long hsetting) hoption
  · have htake : t.takeWhile (· != '=') = t :=
      List.takeWhile_eq_self_iff.2 fun c hc => bne_iff_ne.2 fun e => hequals (e ▸ hc)
    rw [htake] at hsetting
    rw [if_neg (by simpa using hequals)] at hoption
    exact .bare (.long hsetting) hoption

/-- What is still to come spells settings, after the value that a state awaits. -/
structure Completes (s : State) (args : List Text) : Prop where
  spelled : ¬s.Awaits → ∃ items, Spells args items
  awaited : s.Awaits → ∃ value rest items, args = value :: rest ∧ Plain value ∧ Spells rest items

theorem Completes.of_spells (h : Spells args items) (hs : ¬s.Awaits) : Completes s args :=
  ⟨fun _ => ⟨items, h⟩, fun hawaits => absurd hawaits hs⟩

theorem not_awaits_of_option {given : Option Text} (h : s.option setting given = .ok s') :
    ¬s.Awaits := by
  cases hs : s.settle with
  | error e =>
    unfold State.option at h
    rw [hs] at h
    cases given <;> cases h
  | ok s₁ => exact State.not_awaits_of_settle (congrArg Except.toOption hs)

theorem Completes.of_option (hrest : Completes s' args) (h : ReadsOption s s' t) :
    Completes s (t :: args) := by
  cases h with
  | bare ht h =>
    have hpending := (State.toOption_option_none s _).symm.trans (congrArg Except.toOption h)
    obtain ⟨s₁, -, rfl⟩ := Option.map_eq_some_iff.1 hpending
    obtain ⟨value, rest, items, rfl, hvalue, hspells⟩ := hrest.awaited ⟨_, rfl⟩
    exact .of_spells (hspells.bare ht hvalue) (not_awaits_of_option h)
  | attached ht h =>
    have hassign := (State.toOption_option_some s _ _).symm.trans (congrArg Except.toOption h)
    obtain ⟨s₁, -, hassign⟩ := Option.bind_eq_some_iff.1 hassign
    obtain ⟨r, -, rfl⟩ := Option.map_eq_some_iff.1 hassign
    obtain ⟨items, hspells⟩ := hrest.spelled fun ⟨_, h⟩ => by cases h
    exact .of_spells (hspells.attached ht) (not_awaits_of_option h)

theorem not_awaits_of_positional (h : s.positional t = .ok s') : ¬s.Awaits ∧ ¬s'.Awaits := by
  have hput := (State.toOption_positional s t).symm.trans (congrArg Except.toOption h)
  obtain ⟨s₁, hsettle, hput⟩ := Option.bind_eq_some_iff.1 hput
  refine ⟨State.not_awaits_of_settle hsettle, ?_⟩
  rintro ⟨setting, hpending⟩
  split at hput
  · cases hput
  · obtain rfl := Option.some.inj hput
    cases hpending

theorem exists_of_bind {x : Except UsageError State} {f g : State → Except UsageError State}
    (h : (x >>= f >>= g).toOption = some s') : ∃ s, x = .ok s ∧ (f s >>= g).toOption = some s' := by
  cases x with
  | error e => cases h
  | ok s => exact ⟨s, rfl, h⟩

theorem not_awaits_of_readPositional {values : List Text}
    (h : (readPositional values s >>= State.settle).toOption = some s') : ¬s.Awaits := by
  cases values with
  | nil => exact State.not_awaits_of_settle h
  | cons t values =>
    obtain ⟨s₁, hs₁, -⟩ := exists_of_bind h
    exact (not_awaits_of_positional hs₁).1

theorem completes_of_read (h : (readArguments args s >>= State.settle).toOption = some s') :
    Completes s args := by
  induction args generalizing s with
  | nil => exact .of_spells .nil (State.not_awaits_of_settle h)
  | cons t args ih =>
    -- What is no option is a file, or the value that an option before it awaits.
    by_cases hplain : Plain t
    · constructor
      · intro hs
        rw [readArguments_positional hplain args hs] at h
        obtain ⟨s₁, hs₁, h⟩ := exists_of_bind h
        obtain ⟨items, hspells⟩ := (ih h).spelled (not_awaits_of_positional hs₁).2
        exact ⟨_, hspells.file hplain⟩
      · rintro ⟨setting, hpending⟩
        rw [readArguments_value hplain args hpending] at h
        obtain ⟨items, hspells⟩ := (ih h).spelled fun ⟨_, h⟩ => by cases h
        exact ⟨t, args, items, rfl, hplain, hspells⟩
    obtain ⟨c, rest, rfl⟩ : ∃ c rest, t = '-' :: c :: rest := by simpa [Plain] using hplain
    by_cases hc : c = '-'
    · subst hc
      cases rest with
      | nil => -- No option comes after two hyphens.
        exact .of_spells (.files args) (not_awaits_of_readPositional h)
      | cons d rest =>
        obtain ⟨s₁, hs₁, h⟩ := exists_of_bind (f := readArguments args) (g := State.settle)
          (x := s.long (d :: rest)) h
        exact (ih h).of_option (readsOption_of_long hs₁)
    · have hread : readArguments (('-' :: c :: rest) :: args) s =
          s.short c rest >>= readArguments args := by
        simp [readArguments, hc]
      rw [hread] at h
      obtain ⟨s₁, hs₁, h⟩ := exists_of_bind h
      exact (ih h).of_option (readsOption_of_short hs₁)

theorem read_eq (args : List Text) :
    read args =
      readArguments args ⟨.empty, none, false⟩ >>= State.settle >>= fun s => check s.request := by
  rw [bind_assoc]
  rfl

/-- Every request comes from settings that its arguments spell. -/
theorem exists_spells {r : Request} (h : read args = .ok r) : ∃ items, Spells args items := by
  have hread := congrArg Except.toOption h
  rw [read_eq, toOption_bind] at hread
  obtain ⟨s, hs, -⟩ := Option.bind_eq_some_iff.1 hread
  exact (completes_of_read hs).spelled fun ⟨_, h⟩ => by cases h

end Modernizer.CommandLine.Usage
