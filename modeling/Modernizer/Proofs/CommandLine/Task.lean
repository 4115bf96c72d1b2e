import Modernizer.CommandLine.Files
import Modernizer.CommandLine.Run

/-!
What a run of the command asks of its machine. A computation over an arbitrary host is a tree: it
ends with a value, or it asks something and goes on from the answer. In this form it can be stopped
between two questions, which is what runs side by side need.
-/

namespace Modernizer.CommandLine

inductive Query where
  | input
  | kind (path : Text)
  | read (path : Text)
  | write (path content : Text)
  | filesBelow (path : Text)
  deriving DecidableEq, Repr

namespace Query

abbrev Answer : Query → Type
  | input => Except FileError Text
  | kind _ => Option FileKind
  | read _ => Except FileError Text
  | write _ _ => Except FileError Unit
  | filesBelow _ => List Text

end Query

def Host.answer {m : Type → Type} (host : Host m) : (q : Query) → m q.Answer
  | .input => host.input
  | .kind path => host.kind? path
  | .read path => host.read path
  | .write path content => host.write path content
  | .filesBelow path => host.filesBelow path

/-- A computation that asks queries. -/
inductive Task (α : Type) where
  | done (value : α)
  | ask (q : Query) (next : q.Answer → Task α)

namespace Task
variable {α β : Type}

def bind : Task α → (α → Task β) → Task β
  | done a, f => f a
  | ask q next, f => ask q fun answer => (next answer).bind f

instance : Monad Task where
  pure := done
  bind := bind

@[simp] theorem pure_eq (a : α) : (pure a : Task α) = done a := rfl

@[simp] theorem done_bind (a : α) (f : α → Task β) : done a >>= f = f a := rfl

@[simp] theorem ask_bind (q : Query) (next : q.Answer → Task α) (f : α → Task β) :
    ask q next >>= f = ask q fun answer => next answer >>= f := rfl

instance : LawfulMonad Task := by
  apply LawfulMonad.mk' Task
  · intro α t
    induction t with
    | done a => rfl
    | ask q next ih => exact congrArg (ask q) (funext ih)
  · intro α β a f
    rfl
  · intro α β γ t f g
    induction t with
    | done a => rfl
    | ask q next ih => exact congrArg (ask q) (funext ih)

/-- The host that asks. -/
def host : Host Task where
  input := ask .input done
  kind? path := ask (.kind path) done
  read path := ask (.read path) done
  write path content := ask (.write path content) done
  filesBelow path := ask (.filesBelow path) done

section
variable {m : Type → Type} [Monad m] (host : Host m)

/-- A task with its queries answered by a host. -/
def on : Task α → m α
  | done a => pure a
  | ask q next => host.answer q >>= fun answer => (next answer).on

@[simp] theorem on_done (a : α) : (done a).on host = pure a := rfl

@[simp] theorem on_ask (q : Query) (next : q.Answer → Task α) :
    (ask q next).on host = host.answer q >>= fun answer => (next answer).on host := rfl

variable [LawfulMonad m]

@[simp] theorem on_bind (t : Task α) (f : α → Task β) :
    (t >>= f).on host = t.on host >>= fun a => (f a).on host := by
  induction t with
  | done a => simp
  | ask q next ih => simp [ih]

theorem on_mapM (f : α → Task β) (xs : List α) :
    (xs.mapM f).on host = xs.mapM fun x => (f x).on host := by
  induction xs with
  | nil => simp
  | cons x xs ih =>
    rw [List.mapM_cons, List.mapM_cons]
    simp [ih]

@[simp] theorem on_input : Task.host.input.on host = host.input := bind_pure _

@[simp] theorem on_kind? (path : Text) : (Task.host.kind? path).on host = host.kind? path :=
  bind_pure _

@[simp] theorem on_read (path : Text) : (Task.host.read path).on host = host.read path :=
  bind_pure _

@[simp] theorem on_write (path content : Text) :
    (Task.host.write path content).on host = host.write path content :=
  bind_pure _

@[simp] theorem on_filesBelow (path : Text) :
    (Task.host.filesBelow path).on host = host.filesBelow path :=
  bind_pure _

end

end Task

/-! No part of a run looks at what its host is. -/

section
variable {m : Type → Type} [Monad m] [LawfulMonad m] (host : Host m) (report : Report)

theorem on_targets (target : Text) :
    (targets Task.host target).on host = targets host target := by
  unfold targets
  simp only [Task.on_bind, Task.on_kind?]
  congr 1
  funext kind
  match kind with
  | some .file => simp
  | some .directory => simp
  | none => cases Glob.read target <;> simp

theorem on_modernizeFile (rules : List RuleName) (path : Text) :
    (modernizeFile Task.host rules path).on host = modernizeFile host rules path := by
  unfold modernizeFile
  simp only [Task.on_bind, Task.on_read]
  congr 1
  funext source
  cases source with
  | error e => rfl
  | ok source =>
    dsimp only
    cases modernize rules source with
    | error failure => rfl
    | ok outcome =>
      dsimp only
      split
      · rfl
      · simp only [Task.on_bind, Task.on_write]
        congr 1
        funext written
        cases written <;> rfl

theorem on_runInPlace (rules : List RuleName) (target : Text) :
    (runInPlace Task.host report rules target).on host = runInPlace host report rules target := by
  unfold runInPlace
  simp only [Task.on_bind, on_targets]
  congr 1
  funext found
  cases found with
  | error e => rfl
  | ok files => simp [Task.on_mapM, on_modernizeFile]

theorem on_readSource (file : Option Text) :
    (readSource Task.host file).on host = readSource host file := by
  cases file <;> simp [readSource]

theorem on_runSingle (rules : List RuleName) (r : Request) :
    (runSingle Task.host report rules r).on host = runSingle host report rules r := by
  unfold runSingle
  simp only [Task.on_bind, on_readSource]
  congr 1
  funext source
  cases source with
  | error e => rfl
  | ok source =>
    dsimp only
    cases modernize rules source with
    | error failure => rfl
    | ok outcome =>
      dsimp only
      cases r.outFile with
      | none => rfl
      | some path =>
        simp only [Task.on_bind, Task.on_write]
        congr 1
        funext written
        cases written <;> rfl

theorem on_run (r : Request) : (run Task.host report r).on host = run host report r := by
  unfold run
  cases RuleName.parseSelection r.ruleList with
  | error name => rfl
  | ok rules => cases r.replace <;> simp [on_runInPlace, on_runSingle]

end
end Modernizer.CommandLine
