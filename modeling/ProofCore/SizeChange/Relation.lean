/-!
# Size relations

How the size of an argument relates to the size of what a parameter matched: known to be
smaller, known to be no larger, or unknown. They form a semiring with `add` taking the better of
two and `mul` composing along a path.
-/
namespace ProofCore

inductive SizeRelation where
  | unknown
  | equal
  | lessThan
  deriving DecidableEq, Repr, Inhabited

namespace SizeRelation

/-- Better relations have a higher rank. -/
def rank : SizeRelation → Nat
  | .unknown => 0
  | .equal => 1
  | .lessThan => 2

instance : LT SizeRelation := ⟨fun a b => a.rank < b.rank⟩
instance (a b : SizeRelation) : Decidable (a < b) := inferInstanceAs (Decidable (a.rank < b.rank))

/-- A size that compares as `o` with another is known to descend only if it is not greater. -/
def ofOrdering : Ordering → SizeRelation
  | .lt => .lessThan
  | .eq => .equal
  | .gt => .unknown

/-- Composes two relations along a path. -/
def mul : SizeRelation → SizeRelation → SizeRelation
  | .unknown, _ => .unknown
  | _, .unknown => .unknown
  | .equal, .equal => .equal
  | _, _ => .lessThan

/-- The better of two relations. -/
def add (a b : SizeRelation) : SizeRelation := if a < b then b else a

instance : Mul SizeRelation := ⟨mul⟩
instance : Add SizeRelation := ⟨add⟩

def product (rs : List SizeRelation) : SizeRelation := rs.foldl mul .equal

/-- The best of a list of relations. -/
def sum (rs : List SizeRelation) : SizeRelation := rs.foldl add .unknown

@[simp] theorem unknown_add (r : SizeRelation) : .unknown + r = r := by cases r <;> rfl
@[simp] theorem add_unknown (r : SizeRelation) : r + .unknown = r := by cases r <;> rfl
@[simp] theorem unknown_mul (r : SizeRelation) : .unknown * r = .unknown := rfl
@[simp] theorem mul_unknown (r : SizeRelation) : r * .unknown = .unknown := by cases r <;> rfl

theorem add_assoc (r s t : SizeRelation) : r + s + t = r + (s + t) := by
  cases r <;> cases s <;> cases t <;> rfl

@[simp] theorem sum_nil : sum [] = .unknown := rfl

@[simp] theorem sum_cons (r : SizeRelation) (rs : List SizeRelation) :
    sum (r :: rs) = r + sum rs := by
  have shift : ∀ (rs : List SizeRelation) (s : SizeRelation), rs.foldl add s = s + sum rs := by
    intro rs
    induction rs with
    | nil => simp [sum]
    | cons t rs ih =>
      intro s
      rw [sum, List.foldl_cons, List.foldl_cons, ih, ih]
      refine (add_assoc s t (sum rs)).trans ?_
      exact congrArg (fun u => s + (u + sum rs)) (unknown_add t).symm
  rw [sum, List.foldl_cons, shift]
  exact congrArg (fun u => u + sum rs) (unknown_add r)

def isDecreasing (r : SizeRelation) : Bool := r = .lessThan

def symbol : SizeRelation → String
  | .unknown => "?"
  | .equal => "="
  | .lessThan => "<"

end SizeRelation

end ProofCore
