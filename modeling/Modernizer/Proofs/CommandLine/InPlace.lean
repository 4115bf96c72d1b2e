import Mathlib.Data.Char
import Mathlib.Data.List.Lex
import Modernizer.Proofs.CommandLine.Interleaving

/-!
Files that are modernized in place side by side. Each ends as it would alone, and what is reported
does not depend on who came first. A run that fails before it has an outcome leaves nothing behind.
-/

namespace Modernizer.CommandLine

namespace Path

theorem lex_toNat (x y : Text) :
    (x.lex y fun c d => c.toNat < d.toNat) = true ↔ x < y := by
  have hlt : ∀ c d : Char, decide (c.toNat < d.toNat) = true ↔ c < d := by
    intro c d
    rw [decide_eq_true_iff]
    rfl
  rw [List.lex_eq_true_iff_lex]
  simp only [hlt]
  rfl

theorem le_iff (a b : Text) : le a b = true ↔ components a ≤ components b := by
  rw [le, Bool.not_eq_true', ← Bool.not_eq_true, List.lex_eq_true_iff_lex, ← not_lt]
  simp only [lex_toNat]
  rfl

theorem pairwise_mergeSort (paths : List Text) :
    (paths.mergeSort le).Pairwise fun a b => le a b = true := by
  apply List.pairwise_mergeSort
  · intro a b c hab hbc
    rw [le_iff] at hab hbc ⊢
    exact hab.trans hbc
  · intro a b
    rw [Bool.or_eq_true, le_iff, le_iff]
    exact le_total _ _

end Path

section
variable {input target path source : Text} {fs : Files} {files : List Text}
  {rules : List RuleName}

theorem run_bind {σ α β : Type} (x : StateM σ α) (f : α → StateM σ β) (s : σ) :
    (x >>= f).run s = (f (x.run s).1).run (x.run s).2 :=
  rfl

theorem targets_run (input target : Text) (fs : Files) :
    ∃ found : Except RunError (List Text), (targets (Files.host input) target).run fs =
      (found.bind fun files =>
        if files.isEmpty then .error (.noMatch target) else .ok (files.mergeSort Path.le), fs) := by
  have hkind : ((Files.host input).kind? target).run fs = (fs.pathKind? target, fs) := rfl
  rw [targets, StateT.run_bind, hkind]
  match fs.pathKind? target with
  | some .file => exact ⟨_, rfl⟩
  | some .directory => exact ⟨_, rfl⟩
  | none =>
    dsimp only
    cases Glob.read target <;> exact ⟨_, rfl⟩

theorem pairwise_targets (h : ((targets (Files.host input) target).run fs).1 = .ok files) :
    files.Pairwise fun a b => Path.le a b = true := by
  obtain ⟨found, hfound⟩ := targets_run input target fs
  rw [hfound] at h
  cases found with
  | error e => cases h
  | ok found =>
    dsimp only [Except.bind] at h
    split at h
    · cases h
    · cases h
      exact Path.pairwise_mergeSort found

def fileResult (rules : List RuleName) (source : Text) : Except FileFailure (List Warning) :=
  match modernize rules source with
  | .error failure => .error (.modernizing source failure)
  | .ok outcome => .ok outcome.warnings

def fileContent (rules : List RuleName) (source : Text) : Text :=
  match modernize rules source with
  | .error _ => source
  | .ok outcome => outcome.code

theorem modernizeFile_task (rules : List RuleName) (path : Text) :
    modernizeFile Task.host rules path = .ask (.read path) fun
      | .error e => .done (.error (.reading e))
      | .ok source =>
        if fileContent rules source = source then .done (fileResult rules source)
        else .ask (.write path (fileContent rules source)) fun
          | .error e => .done (.error (.writing e))
          | .ok () => .done (fileResult rules source) := by
  have hread : Task.host.read path = .ask (.read path) .done := rfl
  rw [modernizeFile, hread, Task.ask_bind]
  congr 1
  funext answer
  rw [Task.done_bind]
  cases answer with
  | error e => rfl
  | ok source =>
    dsimp only
    cases hmodernize : modernize rules source with
    | error failure => simp [fileContent, fileResult, hmodernize]
    | ok outcome =>
      have hcontent : fileContent rules source = outcome.code := by
        rw [fileContent, hmodernize]
      have hresult : fileResult rules source = .ok outcome.warnings := by
        rw [fileResult, hmodernize]
      have hwrite : Task.host.write path outcome.code = .ask (.write path outcome.code) .done := rfl
      rw [hcontent, hresult]
      dsimp only
      split
      · rfl
      · rw [hwrite, Task.ask_bind]
        congr 1
        funext answer
        cases answer <;> rfl

theorem onlyAt_modernizeFile (rules : List RuleName) (path : Text) :
    (modernizeFile Task.host rules path).OnlyAt path := by
  rw [modernizeFile_task]
  apply Task.OnlyAt.read
  intro source
  dsimp only
  split
  · exact .done _
  · exact .write _ _ (.done _)

theorem alone_modernizeFile (h : fs.readAt path = .ok source) :
    (modernizeFile Task.host rules path).alone input path fs =
      ⟨fileResult rules source,
        .read path :: if fileContent rules source = source then []
          else [.write path (fileContent rules source)],
        .ok (fileContent rules source)⟩ := by
  rw [modernizeFile_task, Task.alone_ask, answer_read, h]
  dsimp only
  split
  · next hsame =>
    rw [hsame, ← h]
    rfl
  · obtain ⟨fs', hwrite, -, hread⟩ := Files.writeAt_of_readAt h (fileContent rules source)
    rw [Task.alone_ask, answer_write input hwrite, ← hread]
    rfl

/-- Files that are to be modernized in place, each as a task of its own. -/
def filePool (rules : List RuleName) (files : List Text) :
    List (Text × Task (Except FileFailure (List Warning))) :=
  files.map fun path => (path, modernizeFile Task.host rules path)

/-- An invocation that is to modernize some files in place, which can be read and are not the same
by other names. -/
structure AsksInPlace (input : Text) (fs : Files) (r : Request) (rules : List RuleName)
    (files : List Text) : Prop where
  selected : RuleName.parseSelection r.ruleList = .ok rules
  named : ∃ target, r.replace = some target ∧
    ((targets (Files.host input) target).run fs).1 = .ok files
  readable : ∀ path ∈ files, ∃ source, fs.readAt path = .ok source
  distinct : (files.map fs.resolve).Nodup

/-- A run in place from `fs` to `fs'`: what became of the files, what was asked on the way, and that
`result` tells it. -/
structure InPlace (report : Report) (rules : List RuleName) (files : List Text) (fs : Files)
    (result : Result) (results : List (Text × Except FileFailure (List Warning)))
    (qs : List Query) (fs' : Files) : Prop where
  modernized : ∀ path ∈ files, ∀ source outcome, fs.readAt path = .ok source →
    modernize rules source = .ok outcome → fs'.readAt path = .ok outcome.code
  spared : ∀ path ∈ files, ∀ source failure, fs.readAt path = .ok source →
    modernize rules source = .error failure → fs'.readAt path = .ok source
  places : fs.SamePlaces fs'
  elsewhere : ∀ place, (∀ path ∈ files, fs.resolve path ≠ .ok (place, false)) →
    fs'.entries.lookup place = fs.entries.lookup place
  writes : ∀ path content, .write path content ∈ qs ↔
    path ∈ files ∧ ∃ source outcome, fs.readAt path = .ok source ∧
      modernize rules source = .ok outcome ∧ content = outcome.code ∧ content ≠ source
  once : qs.Nodup
  ordered : results.map Prod.fst = files ∧ files.Pairwise fun a b => Path.le a b = true
  results_eq : ∀ e ∈ results, ∀ source, fs.readAt e.1 = .ok source →
    e.2 = match modernize rules source with
      | .error failure => .error (.modernizing source failure)
      | .ok outcome => .ok outcome.warnings
  messages : result.messages = String.join (results.map fun e => fileMessages report e.1 e.2)
  output : result.output = []
  status : result.status = 0 ∨ result.status = 1
  fails : result.status = 1 ↔ ∃ path ∈ files, ∃ source failure, fs.readAt path = .ok source ∧
    modernize rules source = .error failure

theorem apart_filePool {r : Request} (h : AsksInPlace input fs r rules files) :
    Apart fs (filePool rules files) where
  own := by
    intro e he
    obtain ⟨path, -, rfl⟩ := List.mem_map.1 he
    exact onlyAt_modernizeFile rules path
  readable := by
    intro e he
    obtain ⟨path, hpath, rfl⟩ := List.mem_map.1 he
    exact h.readable path hpath
  distinct := by
    rw [filePool, List.map_map]
    exact h.distinct

def summary (report : Report) (results : List (Text × Except FileFailure (List Warning))) :
    Result :=
  ⟨if results.all fun e => e.2.isOk then 0 else 1, [],
    String.join (results.map fun e => fileMessages report e.1 e.2)⟩

theorem run_eq_inOrder (report : Report) {r : Request} (h : AsksInPlace input fs r rules files) :
    (run (Files.host input) report r).run fs =
      (summary report ((inOrder (Files.host input) (filePool rules files)).run fs).1,
        ((inOrder (Files.host input) (filePool rules files)).run fs).2) := by
  obtain ⟨target, htarget, hfiles⟩ := h.named
  obtain ⟨found, hrun⟩ := targets_run input target fs
  have hstart : (targets (Files.host input) target).run fs = (.ok files, fs) := by
    rw [hrun] at hfiles ⊢
    exact congrArg (·, fs) hfiles
  have hpool : inOrder (Files.host input) (filePool rules files) =
      files.mapM fun path => do return (path, ← modernizeFile (Files.host input) rules path) := by
    rw [inOrder, filePool, List.mapM_map]
    congr 1
    funext path
    simp only [Function.comp, on_modernizeFile]
  rw [hpool, run, h.selected]
  simp only [htarget, runInPlace, StateT.run_bind, hstart]
  rfl

theorem mem_queries_modernizeFile (h : fs.readAt path = .ok source) {q : Query} :
    q ∈ ((modernizeFile Task.host rules path).alone input path fs).asked ↔
      q = .read path ∨
        fileContent rules source ≠ source ∧ q = .write path (fileContent rules source) := by
  rw [alone_modernizeFile h]
  by_cases hsame : fileContent rules source = source <;> simp [hsame]

theorem nodup_queries_modernizeFile (h : fs.readAt path = .ok source) :
    ((modernizeFile Task.host rules path).alone input path fs).asked.Nodup := by
  rw [alone_modernizeFile h]
  by_cases hsame : fileContent rules source = source <;> simp [hsame]

theorem fileContent_ne_iff {content : Text} :
    (fileContent rules source ≠ source ∧ content = fileContent rules source) ↔
      ∃ outcome, modernize rules source = .ok outcome ∧ content = outcome.code ∧
        content ≠ source := by
  rw [fileContent]
  cases modernize rules source with
  | error failure => simp
  | ok outcome =>
    constructor
    · rintro ⟨hne, rfl⟩
      exact ⟨outcome, rfl, rfl, hne⟩
    · rintro ⟨_, ⟨⟩, rfl, hne⟩
      exact ⟨hne, rfl⟩

theorem isOk_fileResult :
    (fileResult rules source).isOk = false ↔
      ∃ failure, modernize rules source = .error failure := by
  rw [fileResult]
  cases modernize rules source <;> simp [Except.isOk, Except.toBool]

theorem write_mem_queries_filePool {r : Request} (h : AsksInPlace input fs r rules files)
    {content : Text} :
    .write path content ∈ ((filePool rules files).flatMap fun e => (e.2.alone input e.1 fs).asked) ↔
      path ∈ files ∧ ∃ source outcome, fs.readAt path = .ok source ∧
        modernize rules source = .ok outcome ∧ content = outcome.code ∧ content ≠ source := by
  rw [filePool, List.flatMap_map, List.mem_flatMap]
  constructor
  · rintro ⟨other, hother, hmem⟩
    obtain ⟨source, hsource⟩ := h.readable other hother
    rw [mem_queries_modernizeFile hsource] at hmem
    obtain hmem | ⟨hne, hmem⟩ := hmem
    · exact Query.noConfusion hmem
    · obtain ⟨rfl, hcontent⟩ := Query.write.inj hmem
      obtain ⟨outcome, houtcome⟩ := fileContent_ne_iff.1 ⟨hne, hcontent⟩
      exact ⟨hother, source, outcome, hsource, houtcome⟩
  · rintro ⟨hpath, source, outcome, hsource, houtcome⟩
    obtain ⟨hne, hcontent⟩ := fileContent_ne_iff.2 ⟨outcome, houtcome⟩
    refine ⟨path, hpath, ?_⟩
    rw [mem_queries_modernizeFile hsource]
    exact .inr ⟨hne, congrArg _ hcontent⟩

theorem nodup_queries_filePool {r : Request} (h : AsksInPlace input fs r rules files) :
    ((filePool rules files).flatMap fun e => (e.2.alone input e.1 fs).asked).Nodup := by
  rw [filePool, List.flatMap_map, List.nodup_flatMap]
  constructor
  · intro path hpath
    obtain ⟨source, hsource⟩ := h.readable path hpath
    exact nodup_queries_modernizeFile hsource
  · have hpaths : files.Nodup := h.distinct.of_map
    apply hpaths.imp_of_mem
    intro path other hpath hother hne q hq hq'
    obtain ⟨source, hsource⟩ := h.readable path hpath
    obtain ⟨source', hsource'⟩ := h.readable other hother
    rw [mem_queries_modernizeFile hsource] at hq
    rw [mem_queries_modernizeFile hsource'] at hq'
    obtain rfl | ⟨-, rfl⟩ := hq <;> obtain hq' | ⟨-, hq'⟩ := hq'
    · exact hne (Query.read.inj hq')
    · exact Query.noConfusion hq'
    · exact Query.noConfusion hq'
    · exact hne (Query.write.inj hq').1

def fileResults (input : Text) (rules : List RuleName) (files : List Text) (fs : Files) :
    List (Text × Except FileFailure (List Warning)) :=
  files.map fun path => (path, ((modernizeFile Task.host rules path).alone input path fs).value)

theorem fileResults_fail {r : Request} (h : AsksInPlace input fs r rules files) :
    ((fileResults input rules files fs).all fun e => e.2.isOk) = false ↔
      ∃ path ∈ files, ∃ source failure, fs.readAt path = .ok source ∧
        modernize rules source = .error failure := by
  rw [List.all_eq_false]
  simp only [fileResults, List.mem_map, exists_exists_and_eq_and, Bool.not_eq_true]
  constructor
  · rintro ⟨path, hpath, hfail⟩
    obtain ⟨source, hsource⟩ := h.readable path hpath
    rw [alone_modernizeFile hsource, isOk_fileResult] at hfail
    obtain ⟨failure, hfailure⟩ := hfail
    exact ⟨path, hpath, source, failure, hsource, hfailure⟩
  · rintro ⟨path, hpath, source, failure, hsource, hfailure⟩
    refine ⟨path, hpath, ?_⟩
    rw [alone_modernizeFile hsource, isOk_fileResult]
    exact ⟨failure, hfailure⟩

theorem inPlace_of_interleaving (report : Report) {r : Request}
    {results : List (Text × Except FileFailure (List Warning))} {qs : List Query} {fs' : Files}
    (h : AsksInPlace input fs r rules files)
    (hrun : Interleaving (Files.host input) (filePool rules files) fs qs (finished results) fs') :
    InPlace report rules files fs ((run (Files.host input) report r).run fs).1 results qs fs' := by
  have hsettled := hrun.settled (apart_filePool h)
  -- the run itself is one of the interleavings, so its results are these results
  obtain ⟨qs₀, hrun₀⟩ := Interleaving.of_inOrder (Files.host input) (filePool rules files) fs
  have hsame := (hrun₀.settled (apart_filePool h)).results_eq.trans hsettled.results_eq.symm
  have hresult : ((run (Files.host input) report r).run fs).1 = summary report results := by
    rw [run_eq_inOrder report h, hsame]
  have hmap : results = fileResults input rules files fs := by
    rw [hsettled.results_eq, filePool, List.map_map]
    rfl
  have heach : ∀ e ∈ results, ∀ source, fs.readAt e.1 = .ok source →
      e.2 = fileResult rules source := by
    rw [hmap, fileResults, List.forall_mem_map]
    intro path _ source hsource
    rw [alone_modernizeFile hsource]
  have hleft : ∀ path ∈ files, ∀ source, fs.readAt path = .ok source →
      fs'.readAt path = .ok (fileContent rules source) := by
    intro path hpath source hsource
    have hfile := hsettled.left (path, modernizeFile Task.host rules path)
      (List.mem_map_of_mem hpath)
    rw [hfile, alone_modernizeFile hsource]
  refine
    { modernized := ?_, spared := ?_, places := hsettled.places, elsewhere := ?_, writes := ?_,
      once := hsettled.asked.nodup_iff.2 (nodup_queries_filePool h), ordered := ⟨?_, ?_⟩,
      results_eq := heach, messages := ?_, output := ?_, status := ?_, fails := ?_ }
  · intro path hpath source outcome hsource houtcome
    rw [hleft path hpath source hsource, fileContent, houtcome]
  · intro path hpath source failure hsource hfailure
    rw [hleft path hpath source hsource, fileContent, hfailure]
  · intro place hplace
    apply hsettled.elsewhere
    rw [filePool, List.forall_mem_map]
    exact hplace
  · intro path content
    rw [hsettled.asked.mem_iff, write_mem_queries_filePool h]
  · rw [hmap, fileResults, List.map_map]
    exact List.map_id files
  · obtain ⟨target, -, hfiles⟩ := h.named
    exact pairwise_targets hfiles
  · rw [hresult, summary]
  · rw [hresult, summary]
  · rw [hresult, summary]
    dsimp only
    split <;> simp
  · rw [hresult, ← fileResults_fail h, ← hmap, summary]
    cases results.all fun e => e.2.isOk <;> simp

/-- An invocation that comes to no outcome: a rule of it is unknown, or it has one input, and this
cannot be read or not be modernized. -/
inductive Fruitless {σ : Type} (host : Host (StateM σ)) (r : Request) (s : σ) : Prop
  | unknownRule (name : Text) : RuleName.parseSelection r.ruleList = .error name →
    Fruitless host r s
  | failing (rules : List RuleName) : RuleName.parseSelection r.ruleList = .ok rules →
    r.replace = none →
    (∀ source, ((readSource host r.file).run s).1 = .ok source →
      ∃ failure, modernize rules source = .error failure) →
    Fruitless host r s

section
variable {σ : Type} {host : Host (StateM σ)} {r : Request} {s : σ}

theorem write_not_mem_queries_readSource (file : Option Text) (content : Text) :
    .write path content ∉ (readSource Task.host file).queries host s := by
  cases file with
  | none =>
    intro h
    exact Query.noConfusion (List.mem_singleton.1 h)
  | some path =>
    intro h
    exact Query.noConfusion (List.mem_singleton.1 h)

theorem runSingle_failing (report : Report) (rules : List RuleName)
    (h : ∀ source, ((readSource host r.file).run s).1 = .ok source →
      ∃ failure, modernize rules source = .error failure) :
    (runSingle Task.host report rules r).queries host s =
        (readSource Task.host r.file).queries host s ∧
      ((∃ e, ((runSingle host report rules r).run s).1 = .error e) ∨
        ∃ messages, ((runSingle host report rules r).run s).1 = .ok ⟨1, [], messages⟩) := by
  rw [runSingle, runSingle, Task.queries_bind, on_readSource, run_bind]
  generalize (readSource host r.file).run s = read at h ⊢
  obtain ⟨_ | source, s'⟩ := read
  · exact ⟨List.append_nil _, .inl ⟨_, rfl⟩⟩
  · obtain ⟨failure, hfailure⟩ := h source rfl
    dsimp only
    rw [hfailure]
    exact ⟨List.append_nil _, .inr ⟨_, rfl⟩⟩

theorem Fruitless.run (h : Fruitless host r s) (report : Report) :
    ((run host report r).run s).1.output = [] ∧ ((run host report r).run s).1.status = 1 ∧
      ∀ path content, .write path content ∉ (run Task.host report r).queries host s := by
  cases h with
  | unknownRule name hname =>
    rw [CommandLine.run, CommandLine.run, hname]
    exact ⟨rfl, rfl, fun _ _ => List.not_mem_nil⟩
  | failing rules hrules hreplace hinput =>
    obtain ⟨hqueries, hresult⟩ := runSingle_failing report rules hinput
    have hwrite : ∀ path content,
        .write path content ∉ (CommandLine.run Task.host report r).queries host s := by
      intro path content
      rw [CommandLine.run, hrules]
      simp only [hreplace, Task.queries_bind, hqueries, List.mem_append, not_or]
      exact ⟨write_not_mem_queries_readSource r.file content, List.not_mem_nil⟩
    rw [CommandLine.run, hrules]
    simp only [hreplace, run_bind]
    obtain ⟨e, he⟩ | ⟨messages, hok⟩ := hresult
    · rw [he]
      exact ⟨rfl, rfl, hwrite⟩
    · rw [hok]
      exact ⟨rfl, rfl, hwrite⟩

end

/-- Runs in place of files that are not the same treat each as if it were alone: the model's run is
one order of the turns, every order can be brought to an end, and each end is told alike. An
invocation that comes to no outcome puts nothing out. -/
theorem run_independent (report : Report) (r : Request) :
    (∀ input fs rules files, AsksInPlace input fs r rules files →
      (∃ qs results, Interleaving (Files.host input) (filePool rules files) fs qs
        (finished results) ((run (Files.host input) report r).run fs).2) ∧
      (∀ qs pool fs₁, Interleaving (Files.host input) (filePool rules files) fs qs pool fs₁ →
        ∃ qs' results fs', Interleaving (Files.host input) (filePool rules files) fs (qs ++ qs')
          (finished results) fs') ∧
      ∀ qs results fs',
        Interleaving (Files.host input) (filePool rules files) fs qs (finished results) fs' →
        InPlace report rules files fs ((run (Files.host input) report r).run fs).1 results qs
          fs') ∧
    ∀ (σ : Type) (host : Host (StateM σ)) (s : σ), Fruitless host r s →
      ((run host report r).run s).1.output = [] ∧ ((run host report r).run s).1.status = 1 ∧
        ∀ path content, .write path content ∉ (run Task.host report r).queries host s := by
  constructor
  · intro input fs rules files h
    refine ⟨?_, ?_, ?_⟩
    · obtain ⟨qs, hrun⟩ := Interleaving.of_inOrder (Files.host input) (filePool rules files) fs
      rw [run_eq_inOrder report h]
      exact ⟨qs, _, hrun⟩
    · intro qs pool fs₁ hrun
      obtain ⟨qs', results, fs', hrest⟩ := Interleaving.exists_finished (Files.host input) pool fs₁
      exact ⟨qs', results, fs', hrun.trans hrest⟩
    · intro qs results fs' hrun
      exact inPlace_of_interleaving report h hrun
  · intro σ host s h
    exact h.run report

/-- One file changes and one fails; and the broken text as the one input puts nothing out. -/
theorem run_independent_two :
    let fs := Files.ofList [("a.js".toList, "f(".toList), ("b.js".toList, "var x = 1;".toList)]
    let r : Request := ⟨none, ["let".toList], none, some ".".toList⟩
    let files := ["./a.js".toList, "./b.js".toList]
    let alone : Request := ⟨some "a.js".toList, ["let".toList], none, none⟩
    (∃ qs results fs', InPlace ⟨false⟩ [.letConst] files fs
      ((run (Files.host []) ⟨false⟩ r).run fs).1 results qs fs' ∧
      fs'.readAt "./b.js".toList = .ok "const x = 1;".toList) ∧
    ((run (Files.host []) ⟨false⟩ alone).run fs).1.output = [] := by
  intro fs r files alone
  have hfiles : ((targets (Files.host []) ".".toList).run fs).1 = .ok files := by
    have hsorted : files.mergeSort Path.le = files := List.mergeSort_of_pairwise (by decide +kernel)
    rw [← hsorted]
    rfl
  have hasks : AsksInPlace [] fs r [.letConst] files :=
    { selected := by decide +kernel
      named := ⟨".".toList, rfl, hfiles⟩
      readable := by
        intro path hpath
        obtain rfl | rfl : path = "./a.js".toList ∨ path = "./b.js".toList := by
          simpa [files] using hpath
        · exact ⟨"f(".toList, by decide +kernel⟩
        · exact ⟨"var x = 1;".toList, by decide +kernel⟩
      distinct := by decide +kernel }
  have hfruitless : Fruitless (Files.host []) alone fs := by
    apply Fruitless.failing [.letConst] (by decide +kernel) rfl
    intro source hsource
    have hread : ((readSource (Files.host []) alone.file).run fs).1 = .ok "f(".toList := by
      decide +kernel
    obtain rfl : "f(".toList = source := Except.ok.inj (hread.symm.trans hsource)
    have hfails : (modernize [.letConst] "f(".toList).isOk = false := by decide +kernel
    cases h : modernize [.letConst] "f(".toList with
    | error failure => exact ⟨failure, rfl⟩
    | ok outcome =>
      rw [h] at hfails
      cases hfails
  obtain ⟨⟨qs, results, hrun⟩, -, hends⟩ := (run_independent ⟨false⟩ r).1 [] fs _ _ hasks
  have hend := hends _ _ _ hrun
  refine ⟨⟨qs, results, _, hend, ?_⟩, ((run_independent ⟨false⟩ alone).2 _ _ _ hfruitless).1⟩
  apply hend.modernized _ (by simp [files]) "var x = 1;".toList ⟨_, []⟩
  · decide +kernel
  · decide +kernel

end
end Modernizer.CommandLine
