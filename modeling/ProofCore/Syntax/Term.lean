import ProofCore.Syntax.Name

/-!
# Terms and patterns

Terms are locally nameless: a free variable is known by its identity, a bound one by the number
of binders between it and its own. Only `lam` binds. A hole carries a pattern that is still to be
solved, and no operation on terms enters it. A numeral stands for a constructor call of the data
type that its shape names, one constructor at a time (`Term.conLike?`).

`Term.occurrences` lists every subterm with the number of binders above it. Scope, references
and calls are all read off this list.
-/
namespace ProofCore

/-- The constructors that make the data type `data` a type of natural numbers. -/
structure NatShape where
  data : DefId
  zero : DefId
  suc : DefId
  deriving DecidableEq, Repr

mutual

/-- Core terms; `lift` is the universe level by which a call is raised. -/
inductive Term where
  | free (x : Var)
  | bound (index : Nat)
  | lam (body : Term)
  | app (fn arg : Term)
  | tuple (items : List Term)
  | proj (whole : Term) (index : Nat)
  | pathApp (fn arg : Term)
  | fnCall (fn : DefId) (lift : Nat) (args : List Term)
  | dataCall (data : DefId) (lift : Nat) (args : List Term)
  | conCall (data con : DefId) (lift : Nat) (dataArgs args : List Term)
  | numeral (value : Nat) (shape : NatShape)
  | hole (pattern : Pattern)
  | sort (level : Nat)

/-- Patterns of a clause; a hole is a pattern that may have been solved. -/
inductive Pattern where
  | absurd
  | bind (x : Var) (type : Term)
  | tuple (items : List Pattern)
  | con (data con : DefId) (lift : Nat) (dataArgs : List Term) (args : List Pattern)
  | numeral (value : Nat) (shape : NatShape)
  | hole (solution : Option Pattern) (name : String) (type : Term)

end

instance : Inhabited Term := ⟨.sort 0⟩
instance : Inhabited Pattern := ⟨.absurd⟩

namespace Term

/-- The constructor and arguments of a constructor call, or of the call a numeral stands for. -/
def conLike? : Term → Option (DefId × List Term)
  | .conCall _ con _ _ args => some (con, args)
  | .numeral 0 shape => some (shape.zero, [])
  | .numeral (n + 1) shape => some (shape.suc, [.numeral n shape])
  | _ => none

/-- The immediate subterms, each with the number of binders it stands under. -/
def children : Term → List (Nat × Term)
  | .lam body => [(1, body)]
  | .app fn arg => [(0, fn), (0, arg)]
  | .tuple items => items.map fun t => (0, t)
  | .proj whole _ => [(0, whole)]
  | .pathApp fn arg => [(0, fn), (0, arg)]
  | .fnCall _ _ args => args.map fun t => (0, t)
  | .dataCall _ _ args => args.map fun t => (0, t)
  | .conCall _ _ _ dataArgs args => (dataArgs ++ args).map fun t => (0, t)
  | .free _ | .bound _ | .numeral _ _ | .hole _ | .sort _ => []

/-- Replaces each immediate subterm `t` under `b` binders by `f b t`. -/
def mapChildren (f : Nat → Term → Term) : Term → Term
  | .lam body => .lam (f 1 body)
  | .app fn arg => .app (f 0 fn) (f 0 arg)
  | .tuple items => .tuple (items.map (f 0))
  | .proj whole index => .proj (f 0 whole) index
  | .pathApp fn arg => .pathApp (f 0 fn) (f 0 arg)
  | .fnCall fn lift args => .fnCall fn lift (args.map (f 0))
  | .dataCall data lift args => .dataCall data lift (args.map (f 0))
  | .conCall data con lift dataArgs args =>
    .conCall data con lift (dataArgs.map (f 0)) (args.map (f 0))
  | t => t

/-- Replaces each immediate subterm `t` under `b` binders by what `f b t` yields, from left to
right. -/
def mapChildrenM {m : Type → Type} [Monad m] (f : Nat → Term → m Term) : Term → m Term
  | .lam body => return .lam (← f 1 body)
  | .app fn arg => return .app (← f 0 fn) (← f 0 arg)
  | .tuple items => return .tuple (← items.mapM (f 0))
  | .proj whole index => return .proj (← f 0 whole) index
  | .pathApp fn arg => return .pathApp (← f 0 fn) (← f 0 arg)
  | .fnCall fn lift args => return .fnCall fn lift (← args.mapM (f 0))
  | .dataCall data lift args => return .dataCall data lift (← args.mapM (f 0))
  | .conCall data con lift dataArgs args =>
    return .conCall data con lift (← dataArgs.mapM (f 0)) (← args.mapM (f 0))
  | t => return t

mutual

/-- The occurrences of a term, followed by `rest`. -/
def occurrencesThen (depth : Nat) : Term → List (Nat × Term) → List (Nat × Term)
  | .lam body, rest => (depth, .lam body) :: body.occurrencesThen (depth + 1) rest
  | .app fn arg, rest =>
    (depth, .app fn arg) :: fn.occurrencesThen depth (arg.occurrencesThen depth rest)
  | .tuple items, rest => (depth, .tuple items) :: listOccurrencesThen depth items rest
  | .proj whole index, rest => (depth, .proj whole index) :: whole.occurrencesThen depth rest
  | .pathApp fn arg, rest =>
    (depth, .pathApp fn arg) :: fn.occurrencesThen depth (arg.occurrencesThen depth rest)
  | .fnCall fn lift args, rest =>
    (depth, .fnCall fn lift args) :: listOccurrencesThen depth args rest
  | .dataCall data lift args, rest =>
    (depth, .dataCall data lift args) :: listOccurrencesThen depth args rest
  | .conCall data con lift dataArgs args, rest =>
    (depth, .conCall data con lift dataArgs args) ::
      listOccurrencesThen depth dataArgs (listOccurrencesThen depth args rest)
  | .free x, rest => (depth, .free x) :: rest
  | .bound index, rest => (depth, .bound index) :: rest
  | .numeral value shape, rest => (depth, .numeral value shape) :: rest
  | .hole pattern, rest => (depth, .hole pattern) :: rest
  | .sort level, rest => (depth, .sort level) :: rest

def listOccurrencesThen (depth : Nat) : List Term → List (Nat × Term) → List (Nat × Term)
  | [], rest => rest
  | t :: ts, rest => t.occurrencesThen depth (listOccurrencesThen depth ts rest)

end

/-- Every subterm with the number of binders above it, a term before its parts. -/
def occurrences (depth : Nat) (t : Term) : List (Nat × Term) := t.occurrencesThen depth []

mutual

theorem occurrencesThen_append (depth : Nat) :
    ∀ (t : Term) (xs ys : List (Nat × Term)),
      t.occurrencesThen depth (xs ++ ys) = t.occurrencesThen depth xs ++ ys
  | .lam body, xs, ys => by simp [occurrencesThen, occurrencesThen_append (depth + 1) body]
  | .app fn arg, xs, ys => by
    simp [occurrencesThen, occurrencesThen_append depth fn, occurrencesThen_append depth arg]
  | .tuple items, xs, ys => by simp [occurrencesThen, listOccurrencesThen_append depth items]
  | .proj whole index, xs, ys => by simp [occurrencesThen, occurrencesThen_append depth whole]
  | .pathApp fn arg, xs, ys => by
    simp [occurrencesThen, occurrencesThen_append depth fn, occurrencesThen_append depth arg]
  | .fnCall fn lift args, xs, ys => by
    simp [occurrencesThen, listOccurrencesThen_append depth args]
  | .dataCall data lift args, xs, ys => by
    simp [occurrencesThen, listOccurrencesThen_append depth args]
  | .conCall data con lift dataArgs args, xs, ys => by
    simp [occurrencesThen, listOccurrencesThen_append depth dataArgs,
      listOccurrencesThen_append depth args]
  | .free x, xs, ys => rfl
  | .bound index, xs, ys => rfl
  | .numeral value shape, xs, ys => rfl
  | .hole pattern, xs, ys => rfl
  | .sort level, xs, ys => rfl

theorem listOccurrencesThen_append (depth : Nat) :
    ∀ (ts : List Term) (xs ys : List (Nat × Term)),
      listOccurrencesThen depth ts (xs ++ ys) = listOccurrencesThen depth ts xs ++ ys
  | [], xs, ys => rfl
  | t :: ts, xs, ys => by
    simp [listOccurrencesThen, occurrencesThen_append depth t, listOccurrencesThen_append depth ts]

end

theorem occurrencesThen_eq_append (depth : Nat) (t : Term) (rest : List (Nat × Term)) :
    t.occurrencesThen depth rest = t.occurrences depth ++ rest :=
  occurrencesThen_append depth t [] rest

theorem listOccurrencesThen_eq_flatMap (depth : Nat) (ts : List Term) (rest : List (Nat × Term)) :
    listOccurrencesThen depth ts rest = ts.flatMap (occurrences depth) ++ rest := by
  induction ts with
  | nil => rfl
  | cons t ts ih => simp [listOccurrencesThen, occurrencesThen_eq_append, ih]

/-- The occurrences of a term are itself and the occurrences of its children. -/
theorem occurrences_eq_cons (depth : Nat) (t : Term) :
    t.occurrences depth =
      (depth, t) :: t.children.flatMap fun c => c.2.occurrences (depth + c.1) := by
  rw [occurrences]
  cases t <;> simp [occurrencesThen, occurrencesThen_eq_append, listOccurrencesThen_eq_flatMap,
    children, List.flatMap_map, List.flatMap_append]

/-- The first bound variable that points past its binders, with the number of these, when
`depth` binders surround the term. -/
def firstEscape (depth : Nat) (t : Term) : Option (Nat × Nat) :=
  (t.occurrences depth).findSome? fun
    | (d, .bound index) => if d ≤ index then some (index, d) else none
    | _ => none

def wellScoped (depth : Nat) (t : Term) : Bool := (t.firstEscape depth).isNone

/-- The definition that the head of a term refers to. -/
def headRef? : Term → Option DefId
  | .fnCall fn _ _ => some fn
  | .dataCall data _ _ => some data
  | .conCall data _ _ _ _ => some data
  | .numeral _ shape => some shape.data
  | _ => none

/-- The definitions a term refers to, with repetitions, in reading order. -/
def allRefs (t : Term) : List DefId := (t.occurrences 0).filterMap fun o => o.2.headRef?

/-- The definitions a term refers to, each at its first place. -/
def refs (t : Term) : List DefId := t.allRefs.eraseDups

end Term

end ProofCore
