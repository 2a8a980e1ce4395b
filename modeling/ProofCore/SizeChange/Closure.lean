import ProofCore.SizeChange.CallGraph

/-!
# The closure of a call graph

`CallGraph.complete` adds the matrices of all sequences of calls, and has no answer if there is no
room for one of them. A sequence keeps its caller when it is extended, so the sequences of each
caller are found on their own. Each is extended once, in the round after the one that found it. The
calls are a sign of bad recursion if the closure has an idempotent matrix from a definition to
itself in which no parameter decreases.
-/
namespace ProofCore

/-- The sequences of calls that are known, and those of them that have not been extended; both
have their groups in the same order. -/
structure Exploration where
  known : Outgoing
  fresh : Outgoing

namespace Exploration

/-- Adds a sequence of calls unless its relations are known. -/
def record (e : Exploration) (a : CallMatrix) : Exploration :=
  if e.known.contains a then e else ⟨e.known.insert a, e.fresh.insert a⟩

def isDone (e : Exploration) : Bool := e.fresh.matrices.isEmpty

@[simp] theorem caller_record (e : Exploration) (a : CallMatrix) :
    (e.record a).known.caller = e.known.caller := by
  unfold record
  split <;> simp

theorem caller_foldl_record (as : List CallMatrix) (e : Exploration) :
    (as.foldl record e).known.caller = e.known.caller := by
  induction as generalizing e with
  | nil => rfl
  | cons a as ih => simp [ih]

end Exploration

namespace CallGraph

/-- A sequence of calls, extended by each call of `g` that can follow it. -/
def extensions (g : CallGraph) (path : CallMatrix) : List CallMatrix :=
  (g.callsFrom path.callee).filterMap fun a => (path.combine a).toOption

/-- Extends the sequences that have not been extended. -/
def explore (g : CallGraph) (e : Exploration) : Exploration :=
  e.fresh.matrices.foldl (fun e path => (g.extensions path).foldl .record e)
    ⟨e.known, e.known.cleared⟩

theorem caller_explore (g : CallGraph) (e : Exploration) :
    (g.explore e).known.caller = e.known.caller := by
  have step : ∀ (paths : List CallMatrix) (e : Exploration),
      (paths.foldl (fun e path => (g.extensions path).foldl .record e) e).known.caller =
        e.known.caller := by
    intro paths
    induction paths with
    | nil => exact fun _ => rfl
    | cons path paths ih =>
      exact fun e => (ih _).trans (Exploration.caller_foldl_record (g.extensions path) e)
  exact step e.fresh.matrices ⟨e.known, e.known.cleared⟩

/-- Extends sequences for a number of rounds, or until there is nothing new. -/
def exploreFor (g : CallGraph) : Nat → Exploration → Exploration
  | 0, e => e
  | n + 1, e => if e.isDone then e else g.exploreFor n (g.explore e)

theorem caller_exploreFor (g : CallGraph) (n : Nat) (e : Exploration) :
    (g.exploreFor n e).known.caller = e.known.caller := by
  fun_induction exploreFor g n e with
  | case1 => rfl
  | case2 => rfl
  | case3 n e _ ih => exact ih.trans (g.caller_explore e)

/-- Extends sequences for `rounds` rounds, then for twice as many, and so on; `n` times in all. -/
def exploreDoubling (g : CallGraph) : Nat → Nat → Exploration → Exploration
  | 0, _, e => e
  | n + 1, rounds, e =>
    let e := g.exploreFor rounds e
    if e.isDone then e else g.exploreDoubling n (2 * rounds) e

theorem caller_exploreDoubling (g : CallGraph) (n rounds : Nat) (e : Exploration) :
    (g.exploreDoubling n rounds e).known.caller = e.known.caller := by
  fun_induction exploreDoubling g n rounds e with
  | case1 => rfl
  | case2 n rounds e _ _ => exact g.caller_exploreFor rounds e
  | case3 n rounds e _ _ ih => exact ih.trans (g.caller_exploreFor rounds e)

/-- There are fewer than `2 ^ closureBits` different sequences of calls: each has the rows of a
first call, the columns of a last, and one of three relations in each cell. This allows two bits
for each cell that a pair of calls has, and one bit to choose the pair. -/
def closureBits (g : CallGraph) : Nat :=
  2 * (g.matrices.map CallMatrix.rows).foldr (· + ·) 0 *
    (g.matrices.map CallMatrix.cols).foldr (· + ·) 0 + g.size * g.size + 1

/-- The sequences of calls that start with one of the given calls. -/
def sequences (g : CallGraph) (bits : Nat) (c : Outgoing) : Outgoing :=
  (g.exploreDoubling bits 1 ⟨c, c⟩).known

/-- The matrices of all sequences of calls that there is room for. -/
def closure (g : CallGraph) : CallGraph :=
  let bits := g.closureBits
  { calls := g.calls.mapEntries fun _ c => g.sequences bits c
    caller_eq := by
      intro f hf
      obtain ⟨f', hf', rfl⟩ := List.mem_map.1 hf
      exact (g.caller_exploreDoubling bits 1 ⟨f'.2, f'.2⟩).trans (g.caller_eq f' hf') }

/-- Whether there is room for every extension of a known sequence by a call of `g`. -/
def hasRoom (g known : CallGraph) : Bool :=
  known.matrices.all fun path => (g.callsFrom path.callee).all fun a => !path.lacksRoom a

/-- The matrices of all sequences of calls, if there is room for them. -/
def complete (g : CallGraph) : Option CallGraph :=
  let closure := g.closure
  if g.hasRoom closure then some closure else none

/-- The matrices that let a definition call itself for ever, if the graph is closed. -/
def endlessLoops (g : CallGraph) : List CallMatrix :=
  g.matrices.filter fun a => a.caller = a.callee && a.isIdempotent && !a.hasDecreasingDiagonal

/-- The matrices in the closure that let a definition call itself for ever. -/
def badRecursion (g : CallGraph) : Option (List CallMatrix) := g.complete.map endlessLoops

end CallGraph

end ProofCore
