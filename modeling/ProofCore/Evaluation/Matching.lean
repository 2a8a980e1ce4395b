import ProofCore.Syntax.Pattern

/-!
# Matching terms against patterns

Matching looks at a term only as far as a pattern asks for, by means of a given evaluation to
weak-head form, which may have effects of its own. It binds the terms as they were given, from
left to right. A constructor that differs is a mismatch; a term that does not evaluate to a
constructor leaves the match stuck.
-/
namespace ProofCore

inductive MatchResult where
  | matched (bound : List Term)
  | mismatch
  | stuck

namespace Pattern

variable {m : Type → Type} [Monad m]

/-- The value of a numeral of the type `data`. -/
def numeralValue? (data : DefId) : Term → Option Nat
  | .numeral value shape => if shape.data = data then some value else none
  | _ => none

/-- Matches a numeral pattern at once if the term evaluates to a numeral of the same type, and
otherwise goes by the constructor that it evaluates to. -/
def matchNumeralWith (whnf : Term → m Term) (data : DefId) (value : Nat)
    (onBuilt : DefId → List Term → m MatchResult) (t : Term) : m MatchResult := do
  let t ← whnf t
  match numeralValue? data t with
  | some v => return if v = value then .matched [] else .mismatch
  | none =>
    match (← whnf t).conLike? with
    | some (ctor, args) => onBuilt ctor args
    | none => return .stuck

/-- Matches a numeral pattern, taking off one constructor at a time where the term is not a
numeral. -/
def matchNumeral (whnf : Term → m Term) (shape : NatShape) : Nat → Term → m MatchResult
  | 0 => matchNumeralWith whnf shape.data 0 fun ctor args =>
    return if ctor = shape.zero ∧ args.isEmpty then .matched [] else .mismatch
  | n + 1 => matchNumeralWith whnf shape.data (n + 1) fun ctor args =>
    match args with
    | [arg] => if ctor = shape.suc then matchNumeral whnf shape n arg else return .mismatch
    | _ => return .mismatch

mutual

def matchTerm (whnf : Term → m Term) : Pattern → Term → m MatchResult
  | .bind _ _, t => return .matched [t]
  | .absurd, _ => return .stuck
  | .hole none _ _, _ => return .stuck
  | .hole (some solution) _ _, t => solution.matchTerm whnf t
  | .tuple items, t => do
    match ← whnf t with
    | .tuple ts => if ts.length = items.length then matchList whnf items ts else return .stuck
    | _ => return .stuck
  | .con _ ctor _ _ args, t => do
    match (← whnf t).conLike? with
    | none => return .stuck
    | some (ctor', ts) =>
      if ctor' = ctor ∧ ts.length = args.length then matchList whnf args ts
      else return .mismatch
  | .numeral value shape, t => matchNumeral whnf shape value t

/-- Matches patterns and terms pairwise until one list ends or a pair fails. -/
def matchList (whnf : Term → m Term) : List Pattern → List Term → m MatchResult
  | p :: ps, t :: ts => do
    match ← p.matchTerm whnf t with
    | .matched bound =>
      match ← matchList whnf ps ts with
      | .matched rest => return .matched (bound ++ rest)
      | failed => return failed
    | failed => return failed
  | _, _ => return .matched []

end

end Pattern

end ProofCore
