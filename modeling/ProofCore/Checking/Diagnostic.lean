/-!
# Diagnostics

What checking has to say to its user, and the ways of passing it on: a list of diagnostics keeps
them all, a tally only counts, a delayed queue holds them back.
-/
namespace ProofCore

inductive Level where
  | error
  | warning
  | info
  deriving DecidableEq, Repr

def Level.text : Level → String
  | .error => "Error"
  | .warning => "Warning"
  | .info => "Info"

structure Diagnostic where
  level : Level
  code : Option String := none
  message : String
  decls : List String := []
  notes : List String := []
  deriving DecidableEq, Repr

namespace Diagnostic

def isError (d : Diagnostic) : Bool := d.level = .error

def isWarning (d : Diagnostic) : Bool := d.level = .warning

def hasErrors (ds : List Diagnostic) : Bool := ds.any isError

def errors (ds : List Diagnostic) : List Diagnostic := ds.filter isError

def warnings (ds : List Diagnostic) : List Diagnostic := ds.filter isWarning

def messageWithCode (d : Diagnostic) : String :=
  match d.code with
  | some code => "[" ++ code ++ "] " ++ d.message
  | none => d.message

/-- The message on one line, and each note on a line of its own. -/
def text (d : Diagnostic) : String :=
  "\n  note: ".intercalate ((d.level.text ++ ": " ++ d.messageWithCode) :: d.notes)

end Diagnostic

/-- The number of errors and of warnings so far. -/
structure Tally where
  errors : Nat := 0
  warnings : Nat := 0
  deriving DecidableEq, Repr

namespace Tally

def count (t : Tally) (d : Diagnostic) : Tally :=
  match d.level with
  | .error => { t with errors := t.errors + 1 }
  | .warning => { t with warnings := t.warnings + 1 }
  | .info => t

def anyError (t : Tally) : Bool := 0 < t.errors

end Tally

/-- Diagnostics that were passed on, and those that are held back after them. -/
structure Delayed where
  delivered : List Diagnostic := []
  pending : List Diagnostic := []

namespace Delayed

def hold (q : Delayed) (d : Diagnostic) : Delayed := { q with pending := q.pending ++ [d] }

def flush (q : Delayed) : Delayed := ⟨q.delivered ++ q.pending, []⟩

end Delayed

end ProofCore
