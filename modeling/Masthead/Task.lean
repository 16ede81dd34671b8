import Masthead.FileSystem

/-!
# Tasks

A task is a tree of file operations: every node is one atomic operation, and its children are what
follows each answer. Running a task applies its operations to a file system; taking one step of it
applies the first one only.
-/
namespace Masthead

inductive FileOperation where
  | kind (path : Path)
  | birthTime (path : Path)
  | read (path : Path)
  | write (path : Path) (content : Text)
  | append (path : Path) (content : Text)
  | permissions (path : Path)
  | setPermissions (path : Path) (permissions : Permissions)
  | rename (source target : Path)
  | remove (path : Path)
  | filesBelow (path : Path)
  deriving DecidableEq, Repr

namespace FileOperation

abbrev Answer : FileOperation → Type
  | kind _ => Option EntryKind
  | birthTime _ => Option Moment
  | read _ => Except IoError Text
  | write _ _ => Except IoError Unit
  | append _ _ => Except IoError Unit
  | permissions _ => Option Permissions
  | setPermissions _ _ => Unit
  | rename _ _ => Except IoError Unit
  | remove _ => Unit
  | filesBelow _ => List (List Name)

def apply : (op : FileOperation) → FileSystem → op.Answer × FileSystem
  | kind p, fs => (fs.kind? p, fs)
  | birthTime p, fs => (fs.birthTime? p, fs)
  | read p, fs => (fs.readText p, fs)
  | write p t, fs => fs.writeText p t
  | append p t, fs => fs.appendText p t
  | permissions p, fs => (fs.permissions? p, fs)
  | setPermissions p new, fs => ((), fs.setPermissions p new)
  | rename source target, fs => fs.rename source target
  | remove p, fs => ((), fs.removeFile p)
  | filesBelow p, fs => (fs.filesBelow p, fs)

end FileOperation

inductive Task (α : Type) where
  | done (result : α)
  | call (op : FileOperation) (next : op.Answer → Task α)

namespace Task

variable {α β : Type}

def bind : Task α → (α → Task β) → Task β
  | done a, f => f a
  | call op next, f => call op fun answer => (next answer).bind f

instance : Monad Task where
  pure := done
  bind := bind

/-- Runs a task to its end without interruption. -/
def run : Task α → FileSystem → α × FileSystem
  | done a, fs => (a, fs)
  | call op next, fs =>
    let (answer, fs) := op.apply fs
    (next answer).run fs

/-- The first operation of a task and what is left of the task. -/
def step : Task α → FileSystem → Task α × FileSystem
  | done a, fs => (done a, fs)
  | call op next, fs =>
    let (answer, fs) := op.apply fs
    (next answer, fs)

@[simp] theorem run_pure (a : α) (fs : FileSystem) : (pure a : Task α).run fs = (a, fs) := rfl

theorem run_bind (t : Task α) (f : α → Task β) (fs : FileSystem) :
    (t >>= f).run fs = (f (t.run fs).1).run (t.run fs).2 := by
  induction t generalizing fs with
  | done a => rfl
  | call op next ih => exact ih _ _

theorem run_step (t : Task α) (fs : FileSystem) : (t.step fs).1.run (t.step fs).2 = t.run fs := by
  cases t <;> rfl

def kind (p : Path) : Task (Option EntryKind) := call (.kind p) done

def birthTime (p : Path) : Task (Option Moment) := call (.birthTime p) done

def read (p : Path) : Task (Except IoError Text) := call (.read p) done

def write (p : Path) (content : Text) : Task (Except IoError Unit) := call (.write p content) done

def append (p : Path) (content : Text) : Task (Except IoError Unit) := call (.append p content) done

def permissions (p : Path) : Task (Option Permissions) := call (.permissions p) done

def setPermissions (p : Path) (permissions : Permissions) : Task Unit :=
  call (.setPermissions p permissions) done

def rename (source target : Path) : Task (Except IoError Unit) :=
  call (.rename source target) done

def remove (p : Path) : Task Unit := call (.remove p) done

def filesBelow (p : Path) : Task (List (List Name)) := call (.filesBelow p) done

def isFile (p : Path) : Task Bool := do return (← kind p) == some .file

def isDirectory (p : Path) : Task Bool := do return (← kind p) == some .directory

end Task
end Masthead
