import ProofCore.SizeChange.Closure
import ProofCore.SizeChange.Comparison
import ProofCore.Syntax.Definition
import ProofCore.Syntax.Substitution

/-!
# Resolving calls

Each call in the body of a function, at any depth, to one of the definitions of interest gives a
call matrix. The cells compare its arguments with the patterns of the clause; the body of a
clause is opened with the variables of its patterns, an expression body with one variable for
each parameter.
-/
namespace ProofCore

/-- The definitions whose calls are recorded, with their numbers of parameters. -/
abbrev Targets := Table DefId Nat

namespace Targets

def ofDefs (ds : List Def) : Targets := .ofList (ds.map fun d => (d.id, d.telescope.length))

end Targets

namespace Term

/-- What a call calls, and with which arguments. -/
def call? : Term → Option (DefId × List Term)
  | .fnCall fn _ args => some (fn, args)
  | .dataCall data _ args => some (data, args)
  | .conCall _ con _ _ args => some (con, args)
  | _ => none

/-- The calls in a term, each with what it calls and its arguments, in reading order. -/
def calls (t : Term) : List (Term × DefId × List Term) :=
  (t.occurrences 0).filterMap fun o => o.2.call?.map fun c => (o.2, c)

end Term

namespace FnDef

/-- The variables that stand for the parameters in an expression body. -/
def paramVars (f : FnDef) (copy : Nat) : List Var :=
  f.telescope.zipIdx.map fun p => ⟨.param f.id copy p.2, p.1.name⟩

/-- The bodies to be searched for calls, opened, with the patterns that their variables come
from. -/
def openBodies (f : FnDef) (stack copy : Nat) : List (List Pattern × Option Term) :=
  match f.body with
  | .clauses cs => cs.map fun c =>
    (c.patterns, c.body.instantiateVars stack (c.bindings.map Prod.fst))
  | .expr body =>
    let xs := f.paramVars copy
    [(List.zipWith (fun x p => .bind x p.type) xs f.telescope, body.instantiateVars stack xs)]

/-- The matrix of one call to a target. -/
def callMatrix (f : FnDef) (whnf : Term → Option Term) (patterns : List Pattern) (arity : Nat)
    (call : Term) (callee : DefId) (args : List Term) : Option CallMatrix := do
  let cells ← patterns.mapM fun p => (args.take arity).mapM fun t => p.compare whnf t
  CallMatrix.ofCells call f.id callee f.telescope.length arity cells

/-- Records the calls of an opened body. -/
def resolveBody (f : FnDef) (whnf : Term → Option Term) (targets : Targets)
    (patterns : List Pattern) (body : Term) (g : CallGraph) : Option CallGraph :=
  body.calls.foldlM (fun g c =>
    match targets.get? c.2.1 with
    | none => some g
    | some arity =>
      (f.callMatrix whnf patterns arity c.1 c.2.1 c.2.2).map g.insert) g

/-- Records the calls that `f` makes to the targets. -/
def resolve (f : FnDef) (whnf : Term → Option Term) (stack copy : Nat) (targets : Targets)
    (g : CallGraph) : Option CallGraph :=
  (f.openBodies stack copy).foldlM (fun g b => do f.resolveBody whnf targets b.1 (← b.2) g) g

end FnDef

/-- Records the calls that the functions make, given how many of each id came before. -/
def resolveCallsAfter (whnf : Term → Option Term) (stack : Nat) (targets : Targets) :
    List DefId → List FnDef → CallGraph → Option CallGraph
  | _, [], g => some g
  | earlier, f :: fs, g => do
    let g ← f.resolve whnf stack (earlier.count f.id) targets g
    resolveCallsAfter whnf stack targets (f.id :: earlier) fs g

/-- Records the calls that the functions make to the targets. -/
def resolveCalls (whnf : Term → Option Term) (stack : Nat) (fns : List FnDef)
    (targets : Targets) : Option CallGraph :=
  resolveCallsAfter whnf stack targets [] fns .empty

end ProofCore
