import ProofCore.Evaluation.Matching
import ProofCore.Syntax.Definition
import ProofCore.Syntax.Substitution

/-!
# Weak-head evaluation

Applications, projections and calls of known functions are evaluated until a head is in sight.
Each unfolding of a function takes one unit of the budget `fuel`, also when no clause matches,
and without fuel a call stays as it is. Contracting applications takes no fuel, so evaluation
need not end: like opening a term, it takes the number `stack` of nested calls that it may make
and answers `none` if these do not suffice.
-/
namespace ProofCore

/-- The definitions that evaluation may unfold, and its budget for doing so. -/
structure Env where
  fns : Table DefId FnDef := ∅
  datas : Table DefId DataDef := ∅
  fuel : Nat := 4096

/-- Evaluation carries the fuel that is left. -/
abbrev Eval := StateT Nat Option

/-- The outcome when nested calls ran out of room. -/
def Eval.exhausted {α : Type} : Eval α := fun _ => none

namespace Env

/-- Adds a definition, in the place of one of the same id and kind. -/
def add (env : Env) : Def → Env
  | .fn f => { env with fns := env.fns.insert f.id f }
  | .data d => { env with datas := env.datas.insert d.id d }

def contains (env : Env) (id : DefId) : Bool := env.fns.contains id || env.datas.contains id

/-- The body of the first clause that matches; a stuck clause hides the later ones. -/
def unfoldClauses (go : Term → Eval Term) (stack : Nat) (args : List Term) :
    List Clause → Eval (Option Term)
  | [] => return none
  | c :: cs => do
    match ← Pattern.matchList go c.patterns args with
    | .matched bound => return some (← (c.body.instantiateTelescope stack bound : Option Term))
    | .mismatch => unfoldClauses go stack args cs
    | .stuck => return none

/-- What a call unfolds to, if the function is known and has exactly these many parameters. -/
def unfold (env : Env) (go : Term → Eval Term) (stack : Nat) (fn : DefId) (args : List Term) :
    Eval (Option Term) :=
  match env.fns.get? fn with
  | none => return none
  | some f =>
    if args.length = f.telescope.length then
      match f.body with
      | .expr body => return some (← (body.instantiateTelescope stack args : Option Term))
      | .clauses cs => unfoldClauses go stack args cs
    else return none

/-- One step of evaluation, given how to go on. -/
def whnfStep (env : Env) (go : Term → Eval Term) (stack : Nat) : Term → Eval Term
  | .app fn arg => do
    match ← go fn with
    | .lam body => go (← (body.instantiate stack arg : Option Term))
    | fn => return .app fn arg
  | .proj whole index => do
    let whole ← go whole
    match whole with
    | .tuple items =>
      match items[index]? with
      | some item => go item
      | none => return .proj whole index
    | _ => return .proj whole index
  | .fnCall fn lift args => do
    match ← get with
    | 0 => return .fnCall fn lift args
    | fuel + 1 =>
      set fuel
      match ← env.unfold go stack fn args with
      | some unfolded => go unfolded
      | none => return .fnCall fn lift args
  | t => return t

def whnf (env : Env) : Nat → Term → Eval Term
  | 0, _ => .exhausted
  | stack + 1, t => env.whnfStep (env.whnf stack) stack t

/-- Evaluates with the whole budget of the environment. -/
def eval (env : Env) (stack : Nat) (t : Term) : Option Term := (env.whnf stack t).run' env.fuel

end Env

end ProofCore
