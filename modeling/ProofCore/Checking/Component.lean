import ProofCore.Checking.Checker
import ProofCore.Checking.Dependency
import ProofCore.Evaluation.WeakHead
import ProofCore.SizeChange.Resolution
import ProofCore.Syntax.NatShape

/-!
# Checking a component

The units of one strongly connected component are checked together: first all signatures, then
all bodies, then the recursion between them. Only then are the definitions accepted, all of them
or none. A failed component leaves nothing behind but its diagnostics and the state of the
checker. Checking recursion evaluates terms, so it answers `none` if the nested calls it may make
do not suffice.
-/
namespace ProofCore

/-- What checking goes by; `learn` tells the registry of shapes about an accepted definition, and
`stack` bounds the nested calls of evaluation. -/
structure Setup (κ ρ : Type) where
  module : Module
  graph : DependencyGraph
  checker : Checker κ
  learn : ρ → Def → ρ
  keepExamples : Bool := false
  stack : Nat

/-- What checking has established so far; `fresh` are the signatures that the component at hand has
added to `headers`. -/
structure Session (κ ρ : Type) where
  checker : κ
  shapes : ρ
  env : Env := {}
  headers : List DefId := []
  fresh : List DefId := []
  accepted : List Def := []
  tally : Tally := {}
  reported : List Diagnostic := []

namespace Session

variable {κ ρ : Type}

def report (s : Session κ ρ) (d : Diagnostic) : Session κ ρ :=
  { s with tally := s.tally.count d, reported := s.reported ++ [d] }

def reportAll (s : Session κ ρ) (ds : List Diagnostic) : Session κ ρ := ds.foldl report s

/-- Accepts a definition. -/
def commit (s : Session κ ρ) (learn : ρ → Def → ρ) (d : Def) : Session κ ρ :=
  { s with
    env := s.env.add d
    shapes := learn s.shapes d
    accepted := s.accepted ++ [d] }

/-- Accepts the definitions in order, those of examples only if they are kept. -/
def commitAll (s : Session κ ρ) (learn : ρ → Def → ρ) (keepExamples : Bool)
    (pending : List (Decl × Def)) : Session κ ρ :=
  pending.foldl (fun s p => if p.1.isExample && !keepExamples then s else s.commit learn p.2) s

/-- Forgets the fresh signatures and starts the tally again. -/
def rollback (s : Session κ ρ) : Session κ ρ :=
  { s with
    headers := s.headers.filter (· ∉ s.fresh)
    fresh := []
    tally := {} }

end Session

/-- The units of a component that could not be accepted. -/
structure Failure where
  units : List CheckUnit
  deriving DecidableEq, Repr

def Failure.message (f : Failure) : String :=
  "failed to check " ++ toString f.units.length ++ " unit(s)"

abbrev CheckM (κ ρ : Type) := ExceptT Failure (StateT (Session κ ρ) Option)

namespace Setup

variable {κ ρ : Type}

/-- Reports a fault and fails with the units it is about. -/
def fail {α : Type} (units : List CheckUnit) (f : Fault) : CheckM κ ρ α := do
  modify (·.report f.diagnostic)
  throw ⟨units⟩

def declOf (c : Setup κ ρ) (u : CheckUnit) : CheckM κ ρ Decl :=
  match c.module.get? u.id with
  | some d => return d
  | none => fail [u] (.unreachable (u.text ++ " is not declared in this module"))

/-- Checks a signature unless it is known to be good. -/
def checkHeader (c : Setup κ ρ) (u : CheckUnit) (d : Decl) : CheckM κ ρ Unit := do
  let s ← get
  if d.id ∈ s.headers then return ()
  else
    let (k, reported) := c.checker.header s.checker d
    let s := ({ s with checker := k } : Session κ ρ).reportAll reported
    if s.tally.anyError then
      set s
      throw ⟨[u]⟩
    else set { s with headers := s.headers ++ [d.id], fresh := s.fresh ++ [d.id] }

def checkBody (c : Setup κ ρ) (u : CheckUnit) (d : Decl) : CheckM κ ρ Def := do
  let s ← get
  let (k, reported, result) := c.checker.body s.checker d
  let s := ({ s with checker := k } : Session κ ρ).reportAll reported
  set s
  if s.tally.anyError then throw ⟨[u]⟩
  else
    match result with
    | some d => return d
    | none => fail [u] (.missingDefinition d.name)

/-- The fault of a function that may call itself for ever. -/
def terminationFault (c : Setup κ ρ) (calls : CallGraph) (id : DefId) : Fault :=
  let cycle := (calls.components.find? fun group => id ∈ group).getD [id]
  .terminationFailure (c.module.nameOf id) (cycle.map c.module.nameOf)

/-- Checks that the recursion between the definitions ends. -/
def checkTermination (c : Setup κ ρ) (pending : List Def) (group : List CheckUnit) :
    CheckM κ ρ Unit := do
  let fns := pending.filterMap Def.fn?
  if fns.isEmpty then return ()
  else
    let s ← get
    let calls ← (resolveCalls (s.env.eval c.stack) c.stack fns (.ofDefs pending) :
      Option CallGraph)
    let loops ← (calls.badRecursion : Option (List CallMatrix))
    let failing := (loops.map CallMatrix.caller).eraseDups
    if failing.isEmpty then return ()
    else
      set (s.reportAll (failing.map fun id => (c.terminationFault calls id).diagnostic))
      let units := group.filter fun u => !u.isHead && u.id ∈ failing
      throw ⟨if units.isEmpty then group else units⟩

def commit (c : Setup κ ρ) (pending : List (Decl × Def)) : CheckM κ ρ Unit :=
  modify fun s => s.commitAll c.learn c.keepExamples pending

def checkUnit (c : Setup κ ρ) (u : CheckUnit) : CheckM κ ρ Unit := do
  let d ← c.declOf u
  let recursive := c.graph.onCycle u
  if u.isHead then
    if recursive then fail [u] (.selfReference d.name) else c.checkHeader u d
  else if recursive && d.definition.isExprFn then fail [u] (.badRecursion d.name)
  else
    c.checkHeader u d
    let result ← c.checkBody u d
    if recursive then c.checkTermination [result] [u]
    c.commit [(d, result)]

/-- The declarations of a group, those of the module in module order after all others. -/
def declIds (c : Setup κ ρ) (group : List CheckUnit) : List DefId :=
  let ids := (group.map CheckUnit.id).eraseDups
  (ids.filter fun id => !c.module.contains id) ++ c.module.ids.filter (· ∈ ids)

/-- The names of the members of a group, sorted and without repetition. -/
def groupNames (c : Setup κ ρ) (group : List CheckUnit) : List String :=
  (group.map fun u => c.module.nameOf u.id).eraseDups.mergeSort fun a b => a ≤ b

/-- Checks the signatures of all members, then their bodies, then their recursion. -/
def checkGroup (c : Setup κ ρ) (ids : List DefId) (group : List CheckUnit) : CheckM κ ρ Unit := do
  let decls ← ids.mapM fun id => do
    let d ← c.declOf (.body id)
    c.checkHeader (.body id) d
    return d
  let pending ← decls.mapM fun d => return (d, ← c.checkBody (.body d.id) d)
  c.checkTermination (pending.map Prod.snd) group
  c.commit pending

/-- Checks several units that depend on each other; signatures must not. -/
def checkMutual (c : Setup κ ρ) (group : List CheckUnit) : CheckM κ ρ Unit :=
  if 2 ≤ (group.filter CheckUnit.isHead).length then
    fail group (.circularSignature (c.groupNames group))
  else
    match c.declIds group with
    | [id] => c.checkUnit (.body id)
    | ids => c.checkGroup ids group

def checkMembers (c : Setup κ ρ) : List CheckUnit → CheckM κ ρ Unit
  | [] => return ()
  | [u] => c.checkUnit u
  | group => c.checkMutual group

/-- Checks a component. If it fails, the signatures that it had accepted are forgotten and the
tally starts again. -/
def checkComponent (c : Setup κ ρ) (group : List CheckUnit) (s : Session κ ρ) :
    Option (Except Failure Unit × Session κ ρ) := do
  match ← (c.checkMembers group).run { s with fresh := [] } with
  | (.ok (), t) => return (.ok (), t)
  | (.error failure, t) => return (.error failure, t.rollback)

end Setup

end ProofCore
