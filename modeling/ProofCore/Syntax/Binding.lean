import ProofCore.Syntax.Term

/-!
# Closing terms

Turning free variables into bound ones. `bindAt x d` is meant for the part of a term under `d`
binders, so it turns `x` into the index `d` there. A telescope is closed with its last variable
innermost, at index zero.
-/
namespace ProofCore.Term

mutual

/-- Turns the free variable `x` into a bound one that points past `depth` binders. -/
def bindAt (x : Var) (depth : Nat) : Term → Term
  | .free y => if y = x then .bound depth else .free y
  | .bound index => .bound index
  | .lam body => .lam (body.bindAt x (depth + 1))
  | .app fn arg => .app (fn.bindAt x depth) (arg.bindAt x depth)
  | .tuple items => .tuple (bindAtList x depth items)
  | .proj whole index => .proj (whole.bindAt x depth) index
  | .pathApp fn arg => .pathApp (fn.bindAt x depth) (arg.bindAt x depth)
  | .fnCall fn lift args => .fnCall fn lift (bindAtList x depth args)
  | .dataCall data lift args => .dataCall data lift (bindAtList x depth args)
  | .conCall data con lift dataArgs args =>
    .conCall data con lift (bindAtList x depth dataArgs) (bindAtList x depth args)
  | .numeral value shape => .numeral value shape
  | .hole pattern => .hole pattern
  | .sort level => .sort level

def bindAtList (x : Var) (depth : Nat) : List Term → List Term
  | [] => []
  | t :: ts => t.bindAt x depth :: bindAtList x depth ts

end

@[simp] theorem bindAtList_eq_map (x : Var) (depth : Nat) (ts : List Term) :
    bindAtList x depth ts = ts.map (bindAt x depth) := by
  induction ts with
  | nil => rfl
  | cons t ts ih => simp [bindAtList, ih]

/-- Closing a compound term closes its children, each under its own binders. -/
theorem bindAt_eq_mapChildren {x : Var} {t : Term} (depth : Nat) (h : t ≠ .free x) :
    t.bindAt x depth = t.mapChildren fun binders c => c.bindAt x (depth + binders) := by
  cases t <;> simp_all [bindAt, mapChildren]

def bind (x : Var) (t : Term) : Term := t.bindAt x 0

/-- Closes the variables at the indices `start`, `start + 1` and so on. -/
def bindFrom (start : Nat) : List Var → Term → Term
  | [], t => t
  | x :: xs, t => bindFrom (start + 1) xs (t.bindAt x start)

/-- Closes the variables in order, the first at index zero. -/
def bindAll (xs : List Var) (t : Term) : Term := t.bindFrom 0 xs

/-- Closes a telescope, the last variable at index zero. -/
def bindTelescope (xs : List Var) (t : Term) : Term := t.bindAll xs.reverse

end ProofCore.Term
