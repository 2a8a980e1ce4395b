import ProofCore.SizeChange.Relation
import ProofCore.Syntax.Pattern

/-!
# Comparing arguments with patterns

How the size of a term relates to the size of what a pattern matched. A part of a pattern is
smaller than the pattern, and so is what an application or projection of a variable of the
pattern yields. Terms are brought to weak-head form where their shape does not decide, by a given
evaluation that may have effects of its own; comparison asks for it at most once for a term.
-/
namespace ProofCore

namespace Term

/-- The head of a spine of applications and projections. -/
def spineHead : Term → Term
  | .app fn _ => fn.spineHead
  | .pathApp fn _ => fn.spineHead
  | .proj whole _ => whole.spineHead
  | t => t

/-- The head of a spine of path applications. -/
def pathHead : Term → Term
  | .pathApp fn _ => fn.pathHead
  | t => t

end Term

namespace Pattern

variable {m : Type → Type} [Monad m]

/-- A variable compares as equal to itself, and what is taken out of it as smaller. -/
def compareVar (x : Var) (t : Term) : SizeRelation :=
  match t with
  | .free y => if y = x then .equal else .unknown
  | t =>
    match t.spineHead with
    | .free y => if y = x then .lessThan else .unknown
    | _ => .unknown

/-- Compares a constructor call with a constructor pattern, given how lists of arguments compare
with its subpatterns. The arguments are evaluated if they do not compare as they stand. -/
def compareBuilt (whnf : Term → m Term) (ctor : DefId) (arity : Nat)
    (compareArgs : List Term → m SizeRelation) (c : DefId) (args : List Term) :
    m SizeRelation := do
  if c = ctor ∧ args.length = arity then
    let r ← compareArgs args
    if r = .unknown then compareArgs (← args.mapM whnf) else return r
  else return .unknown

/-- Compares a term that is not to be evaluated with a constructor pattern. -/
def compareSeen (whnf : Term → m Term) (ctor : DefId) (arity : Nat)
    (compareArgs : List Term → m SizeRelation) (isPart : Term → m Bool) (t : Term) :
    m SizeRelation :=
  match t.conLike? with
  | some (c, args) => compareBuilt whnf ctor arity compareArgs c args
  | none => return if ← isPart t then .lessThan else .unknown

/-- Compares a term with a constructor pattern, evaluating it if it is neither built by a
constructor nor a part of the pattern. -/
def compareCon (whnf : Term → m Term) (ctor : DefId) (arity : Nat)
    (compareArgs : List Term → m SizeRelation) (isPart : Term → m Bool) (t : Term) :
    m SizeRelation :=
  match t.conLike? with
  | some (c, args) => compareBuilt whnf ctor arity compareArgs c args
  | none => do
    if ← isPart t then return .lessThan
    else
      let t ← whnf t
      match t with
      | .conCall .. | .numeral .. | .pathApp .. =>
        compareSeen whnf ctor arity compareArgs isPart t.pathHead
      | _ => return .unknown

/-- A numeral or constructor call as it is, and otherwise the head of the path application that
the term evaluates to. -/
def expose (whnf : Term → m Term) (t : Term) : m Term := do
  if t.conLike?.isSome then return t else return (← whnf t).pathHead

/-- Compares a term with a numeral by its value, or by taking off one constructor at a time. -/
def compareNumeral (whnf : Term → m Term) (shape : NatShape) : Nat → Term → m SizeRelation
  | 0, t => do
    match ← expose whnf t with
    | .numeral k _ => return .ofOrdering (Ord.compare k 0)
    | .conCall _ c _ _ [] => return if c = shape.zero then .equal else .unknown
    | _ => return .unknown
  | n + 1, t => do
    match ← expose whnf t with
    | .numeral k _ => return .ofOrdering (Ord.compare k (n + 1))
    | .conCall _ c _ _ [pred] =>
      if c = shape.suc then compareNumeral whnf shape n pred else return .unknown
    | _ => return .unknown

mutual

def compare (whnf : Term → m Term) : Pattern → Term → m SizeRelation
  | .con _ ctor _ _ args =>
    compareCon whnf ctor args.length (compareList whnf args) (isPartOf whnf args)
  | .bind x _ => fun t => return compareVar x t
  | .numeral value shape => compareNumeral whnf shape value
  | .tuple _ => fun _ => return .unknown
  | .absurd => fun _ => return .unknown
  | .hole _ _ _ => fun _ => return .unknown

/-- Compares terms and patterns pairwise; nothing is known if it is not for one pair. -/
def compareList (whnf : Term → m Term) : List Pattern → List Term → m SizeRelation
  | p :: ps, t :: ts => do return (← p.compare whnf t) * (← compareList whnf ps ts)
  | _, _ => return .equal

/-- Whether a term compares with one of the patterns. -/
def isPartOf (whnf : Term → m Term) : List Pattern → Term → m Bool
  | [], _ => return false
  | p :: ps, t => do
    if (← p.compare whnf t) = .unknown then isPartOf whnf ps t else return true

end

end Pattern

end ProofCore
