import ProofCore.Checking.Diagnostic

/-!
# Faults

The reasons for which a declaration or a group of declarations is not accepted.
-/
namespace ProofCore

inductive Fault where
  | circularSignature (names : List String)
  | selfReference (name : String)
  | badRecursion (name : String)
  | terminationFailure (name : String) (cycle : List String)
  | notYetChecked (name referenced : String)
  | illScoped (name : String) (index depth : Nat)
  | missingDefinition (name : String)
  | unreachable (what : String)
  deriving DecidableEq, Repr

namespace Fault

def code : Fault → String
  | .circularSignature _ => "E0301"
  | .selfReference _ => "E0302"
  | .badRecursion _ => "E0303"
  | .terminationFailure _ _ => "E0304"
  | .notYetChecked _ _ => "E0305"
  | .illScoped _ _ _ => "E0306"
  | .missingDefinition _ => "E0307"
  | .unreachable _ => "E0399"

def message : Fault → String
  | .circularSignature names =>
    "Circular signature dependency found between " ++ ", ".intercalate names
  | .selfReference name => "Self-reference found in the signature of " ++ name
  | .badRecursion name =>
    "The recursive definition " ++ name ++ " is not defined by pattern matching"
  | .terminationFailure name cycle =>
    "The recursion of " ++ name ++
      " may not terminate: no argument decreases along the cycle " ++ " -> ".intercalate cycle
  | .notYetChecked name referenced =>
    referenced ++ " is used in " ++ name ++ " before it has been checked"
  | .illScoped name index depth =>
    "Bound variable #" ++ toString index ++ " escapes its " ++ toString depth ++
      " enclosing binder(s) in " ++ name
  | .missingDefinition name => "Checking " ++ name ++ " produced no definition"
  | .unreachable what => "Unreachable scheduler state: " ++ what

/-- The declarations that a fault is about. -/
def decls : Fault → List String
  | .circularSignature names => names
  | .selfReference name => [name]
  | .badRecursion name => [name]
  | .terminationFailure name _ => [name]
  | .notYetChecked name _ => [name]
  | .illScoped name _ _ => [name]
  | .missingDefinition name => [name]
  | .unreachable _ => []

def diagnostic (f : Fault) : Diagnostic where
  level := .error
  code := some f.code
  message := f.message
  decls := f.decls

end Fault

end ProofCore
