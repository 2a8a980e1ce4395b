import ProofCore.Checking.Declaration
import ProofCore.Checking.Fault

/-!
# Checkers

A checker judges the signature and the body of one declaration at a time, with a state of its
own. The scope checker accepts a part if its bound variables stay within their binders and if
it refers only to declarations whose signatures were accepted before.
-/
namespace ProofCore

/-- A body is accepted by returning a definition. -/
structure Checker (κ : Type) where
  header : κ → Decl → κ × List Diagnostic
  body : κ → Decl → κ × List Diagnostic × Option Def

/-- One use of a checker and what it reported. -/
inductive Visit where
  | header (decl : Decl) (reported : List Diagnostic)
  | body (decl : Decl) (reported : List Diagnostic)

/-- The same checker with a record of its uses. -/
def Checker.logged {κ : Type} (c : Checker κ) : Checker (κ × List Visit) where
  header := fun (k, log) d =>
    let (k, reported) := c.header k d
    ((k, log ++ [.header d reported]), reported)
  body := fun (k, log) d =>
    let (k, reported, result) := c.body k d
    ((k, log ++ [.body d reported]), reported, result)

/-- The signatures that were accepted, and the names by which to call declarations. -/
structure ScopeState where
  headers : List DefId := []
  names : Table DefId String := ∅

namespace ScopeState

def ofModule (m : Module) : ScopeState where
  names := m.table.mapEntries fun _ d => d.name

def withKnown (s : ScopeState) (ids : List DefId) : ScopeState :=
  { s with headers := s.headers ++ ids }

def knows (s : ScopeState) (id : DefId) : Bool := id ∈ s.headers

def nameOf (s : ScopeState) (id : DefId) : String := (s.names.get? id).getD id.text

/-- The faults of one part: variables that escape first, then references. -/
def faults (s : ScopeState) (d : Decl) (terms : List (Nat × Term)) (refs : List DefId) :
    List Fault :=
  (terms.filterMap fun t => (t.2.firstEscape t.1).map fun e => .illScoped d.name e.1 e.2) ++
    (refs.filter fun r => !s.knows r).map fun r => .notYetChecked d.name (s.nameOf r)

def headerFaults (s : ScopeState) (d : Decl) : List Fault :=
  s.faults d d.definition.signatureTerms d.definition.headerRefs

/-- A body may refer to its own declaration. -/
def bodyFaults (s : ScopeState) (d : Decl) : List Fault :=
  s.faults d d.definition.bodyTerms (d.definition.bodyRefs.filter (· ≠ d.id))

end ScopeState

def scopeChecker : Checker ScopeState where
  header := fun s d =>
    match s.headerFaults d with
    | [] => ({ s with headers := s.headers ++ [d.id] }, [])
    | faults => (s, faults.map Fault.diagnostic)
  body := fun s d =>
    match s.bodyFaults d with
    | [] => (s, [], some d.definition)
    | faults => (s, faults.map Fault.diagnostic, none)

end ProofCore
