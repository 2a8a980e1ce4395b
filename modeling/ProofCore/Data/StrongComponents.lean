import ProofCore.Data.Digraph

/-!
# Strongly connected components

The components of a graph are found in one depth-first traversal. It numbers the vertices as it
enters them and puts them on a stack. The low number of a vertex is the least number of a vertex on
the stack that it is known to lead to. A vertex that keeps its own number as its low number after
all its edges have been followed closes a component, which is the stack down to it. `components`
lists a component after all components it has edges into, and the members of a component in vertex
order.
-/
namespace ProofCore

/-- The progress of a traversal; `components` holds the component closed last at the end. -/
structure Traversal (α : Type) where
  index : Table α Nat
  low : Table α Nat
  onStack : Table α Bool
  stack : List α
  next : Nat
  components : List (List α)

namespace Traversal

variable {α : Type}

def start : Traversal α := ⟨.empty, .empty, .empty, [], 0, []⟩

variable [DecidableEq α]

/-- The number of a vertex, if it has been entered. -/
def indexOf (s : Traversal α) (v : α) : Option Nat := s.index.get? v

def lowOf (s : Traversal α) (v : α) : Nat := (s.low.get? v).getD 0

def isOnStack (s : Traversal α) (v : α) : Bool := (s.onStack.get? v).getD false

/-- Numbers a vertex and puts it on the stack. -/
def enter (s : Traversal α) (v : α) : Traversal α where
  index := s.index.insert v s.next
  low := s.low.insert v s.next
  onStack := s.onStack.insert v true
  stack := v :: s.stack
  next := s.next + 1
  components := s.components

/-- Makes the low number of `v` at most `n`. -/
def lower (s : Traversal α) (v : α) (n : Nat) : Traversal α :=
  { s with low := s.low.insert v (min (s.lowOf v) n) }

/-- Pops a stack until `v` has been popped: what was popped, and what is left. -/
def popThrough (v : α) : List α → List α × List α
  | [] => ([], [])
  | w :: ws =>
    if w = v then ([w], ws)
    else
      let popped := popThrough v ws
      (w :: popped.1, popped.2)

/-- Makes a component of the stack down to `v`. -/
def close (s : Traversal α) (g : Digraph α) (v : α) : Traversal α :=
  let popped := popThrough v s.stack
  { s with
    onStack := popped.1.foldl (fun marks w => marks.insert w false) s.onStack
    stack := popped.2
    components := s.components ++ [g.vertices.filter (· ∈ popped.1)] }

/-- Follows the edge from `v` to `w`, where `visit` is what to do with a vertex that has not been
entered. -/
def follow (visit : α → Traversal α → Traversal α) (v : α) (s : Traversal α) (w : α) :
    Traversal α :=
  match s.indexOf w with
  | none =>
    let s := visit w s
    s.lower v (s.lowOf w)
  | some i => if s.isOnStack w then s.lower v i else s

theorem indexOf_enter (s : Traversal α) (v w : α) :
    (s.enter v).indexOf w = if w = v then some s.next else s.indexOf w :=
  Table.get?_insert ..

theorem lowOf_enter (s : Traversal α) (v w : α) :
    (s.enter v).lowOf w = if w = v then s.next else s.lowOf w := by
  rw [lowOf, enter, Table.get?_insert]
  split <;> rfl

theorem isOnStack_enter (s : Traversal α) (v w : α) :
    (s.enter v).isOnStack w = if w = v then true else s.isOnStack w := by
  rw [isOnStack, enter, Table.get?_insert]
  split <;> rfl

theorem lowOf_lower (s : Traversal α) (v : α) (n : Nat) (w : α) :
    (s.lower v n).lowOf w = if w = v then min (s.lowOf v) n else s.lowOf w := by
  rw [lowOf, lower, Table.get?_insert]
  split <;> rfl

theorem popThrough_append {v : α} {above : List α} (h : v ∉ above) (below : List α) :
    popThrough v (above ++ v :: below) = (above ++ [v], below) := by
  induction above with
  | nil => simp [popThrough]
  | cons w above ih =>
    rw [List.mem_cons, not_or] at h
    simp [popThrough, ih h.2, Ne.symm h.1]

theorem isOnStack_close {s : Traversal α} (g : Digraph α) {v : α} {above below : List α}
    (hstack : s.stack = above ++ v :: below) (h : v ∉ above) (w : α) :
    (s.close g v).isOnStack w = if w ∈ above ++ [v] then false else s.isOnStack w := by
  have hmarks : ∀ (ws : List α) (marks : Table α Bool),
      ((ws.foldl (fun marks w => marks.insert w false) marks).get? w).getD false =
        if w ∈ ws then false else (marks.get? w).getD false := by
    intro ws
    induction ws with
    | nil => simp
    | cons x ws ih =>
      intro marks
      rw [List.foldl_cons, ih, Table.get?_insert]
      by_cases hx : w = x <;> simp [hx]
  have hpopped : popThrough v s.stack = (above ++ [v], below) := by
    rw [hstack, popThrough_append h]
  unfold isOnStack close
  rw [hpopped]
  exact hmarks (above ++ [v]) s.onStack

end Traversal

namespace Digraph

variable {α : Type} [DecidableEq α]

/-- Enters `v`, follows its edges, and closes a component if `v` is the first vertex of one. Calls
nest at most `n` deep. -/
def strongConnect (g : Digraph α) : Nat → α → Traversal α → Traversal α
  | 0, _, s => s
  | n + 1, v, s =>
    let s := (g.successors v).foldl (Traversal.follow (g.strongConnect n) v) (s.enter v)
    if s.indexOf v = some (s.lowOf v) then s.close g v else s

/-- Visits `v` unless it has been entered. -/
def visitNew (g : Digraph α) (s : Traversal α) (v : α) : Traversal α :=
  if (s.indexOf v).isNone then g.strongConnect g.vertices.length v s else s

/-- The strongly connected components, dependencies first. -/
def components (g : Digraph α) : List (List α) :=
  (g.vertices.foldl g.visitNew .start).components

end Digraph

end ProofCore
