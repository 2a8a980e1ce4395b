import ProofCore.Syntax.Binding

/-!
# Opening terms

Replacing bound variables by terms. An application whose function becomes an abstraction is
contracted on the spot, and so is one that the result of the contraction gives rise to. Such a
chain need not end, so every operation takes the number `stack` of nested calls that it may make
and answers `none` if these do not suffice. Arguments are inserted as they are: they are meant
to have no bound variables of their own.
-/
namespace ProofCore.Term

/-- One step of replacing the indices from `start` on by the arguments, given how to go on. -/
def replaceStep (go : Nat → List Term → Term → Option Term) (start : Nat) (args : List Term) :
    Term → Option Term
  | .bound index =>
    if index < start then some (.bound index) else some ((args[index - start]?).getD (.bound index))
  | .app fn arg => do
    let fn ← go start args fn
    let arg ← go start args arg
    match fn with
    | .lam body => go 0 [arg] body
    | fn => return .app fn arg
  | t => t.mapChildrenM fun binders c => go (start + binders) args c

/-- Replaces the indices from `start` on by the arguments, contracting the applications of
abstractions it meets. Without arguments a term stays as it is. -/
def replaceFrom : Nat → Nat → List Term → Term → Option Term
  | 0, _, _, _ => none
  | stack + 1, start, args, t =>
    if args.isEmpty then some t else replaceStep (replaceFrom stack) start args t

/-- Replaces the index `index` by `arg`. -/
def replace (t : Term) (stack index : Nat) (arg : Term) : Option Term :=
  t.replaceFrom stack index [arg]

/-- Opens the outermost binder with `arg`. -/
def instantiate (t : Term) (stack : Nat) (arg : Term) : Option Term := t.replace stack 0 arg

def instantiateVar (t : Term) (stack : Nat) (x : Var) : Option Term :=
  t.instantiate stack (.free x)

/-- Opens as many binders as there are arguments, the first at index zero. -/
def instantiateAll (t : Term) (stack : Nat) (args : List Term) : Option Term :=
  t.replaceFrom stack 0 args

/-- Opens a telescope, the last argument at index zero. -/
def instantiateTelescope (t : Term) (stack : Nat) (args : List Term) : Option Term :=
  t.instantiateAll stack args.reverse

def instantiateVars (t : Term) (stack : Nat) (xs : List Var) : Option Term :=
  t.instantiateTelescope stack (xs.map .free)

/-- Puts `arg` in the place of the free variable `x`. -/
def substitute (t : Term) (stack : Nat) (x : Var) (arg : Term) : Option Term :=
  (t.bind x).instantiate stack arg

end ProofCore.Term
