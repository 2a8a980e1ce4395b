import ProofCore.Syntax.Equality
import ProofCore.Syntax.Pattern

/-!
# Definitions

Functions, given by an expression or by clauses, and data types with their constructors. The
parameters of a definition bind one after the other, so the type of the parameter at position
`i` stands under `i` binders. A clause binds the variables of its patterns from left to right.
-/
namespace ProofCore

structure Param where
  name : String
  type : Term
  explicit : Bool
  deriving DecidableEq

abbrev Telescope := List Param

namespace Telescope

/-- The types of the parameters, each with the number of binders it stands under. -/
def typesAt (start : Nat) : Telescope → List (Nat × Term)
  | [] => []
  | p :: ps => (start, p.type) :: typesAt (start + 1) ps

end Telescope

structure Clause where
  patterns : List Pattern
  body : Term
  deriving DecidableEq

namespace Clause

def bindings (c : Clause) : List (Var × Term) := Pattern.listBindings c.patterns

/-- The number of binders that the body of a clause stands under. -/
def bindingCount (c : Clause) : Nat := c.bindings.length

end Clause

inductive FnBody where
  | expr (body : Term)
  | clauses (cs : List Clause)
  deriving DecidableEq

structure FnDef where
  id : DefId
  name : String
  telescope : Telescope
  result : Term
  body : FnBody
  deriving DecidableEq

structure ConDef where
  id : DefId
  name : String
  data : DefId
  telescope : Telescope
  deriving DecidableEq

structure DataDef where
  id : DefId
  name : String
  telescope : Telescope
  constructors : List ConDef
  deriving DecidableEq

inductive Def where
  | fn (f : FnDef)
  | data (d : DataDef)
  deriving DecidableEq

namespace Def

def id : Def → DefId
  | .fn f => f.id
  | .data d => d.id

def name : Def → String
  | .fn f => f.name
  | .data d => d.name

def telescope : Def → Telescope
  | .fn f => f.telescope
  | .data d => d.telescope

def fn? : Def → Option FnDef
  | .fn f => some f
  | .data _ => none

/-- Whether the definition is a function given by an expression. -/
def isExprFn : Def → Bool
  | .fn { body := .expr _, .. } => true
  | _ => false

/-- The clauses of a function given by clauses. -/
def clauses? : Def → Option (List Clause)
  | .fn { body := .clauses cs, .. } => some cs
  | _ => none

/-- The terms of the signature, each with the number of binders it stands under. -/
def signatureTerms : Def → List (Nat × Term)
  | .fn f => f.telescope.typesAt 0 ++ [(f.telescope.length, f.result)]
  | .data d => d.telescope.typesAt 0

/-- The terms of the body, each with the number of binders it stands under. -/
def bodyTerms : Def → List (Nat × Term)
  | .fn { body := .expr body, telescope, .. } => [(telescope.length, body)]
  | .fn { body := .clauses cs, .. } => cs.map fun c => (c.bindingCount, c.body)
  | .data d => d.constructors.flatMap fun c => c.telescope.typesAt d.telescope.length

/-- The patterns of all clauses. -/
def patterns (d : Def) : List Pattern := (d.clauses?.getD []).flatMap Clause.patterns

def headerRefs (d : Def) : List DefId :=
  (d.signatureTerms.flatMap fun t => t.2.allRefs).eraseDups

/-- What the body refers to: its terms first, then its patterns. -/
def bodyRefs (d : Def) : List DefId :=
  ((d.bodyTerms.flatMap fun t => t.2.allRefs) ++ d.patterns.flatMap Pattern.allRefs).eraseDups

end Def

end ProofCore
