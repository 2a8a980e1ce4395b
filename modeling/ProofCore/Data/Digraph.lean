import ProofCore.Data.Table

/-!
# Directed graphs

Vertices and the successors of each vertex keep the order in which they were added. Whether one
vertex reaches another is found by a search that keeps the vertices it has still to look at on a
stack.
-/
namespace ProofCore

structure Digraph (α : Type) where
  adjacency : Table α (List α)
  closed : ∀ e ∈ adjacency.entries, ∀ w ∈ e.2, w ∈ adjacency.keys

namespace Digraph

variable {α : Type}

def empty : Digraph α := ⟨.empty, by simp [Table.empty]⟩

instance : EmptyCollection (Digraph α) := ⟨empty⟩
instance : Inhabited (Digraph α) := ⟨empty⟩

def vertices (g : Digraph α) : List α := g.adjacency.keys

/-- One step for each of `roots`, each vertex and each edge is enough for every search. -/
def walkBound (g : Digraph α) (roots : List α) : Nat :=
  roots.length + (g.adjacency.values.map fun next => next.length + 1).foldr (· + ·) 0

variable [DecidableEq α]

def contains (g : Digraph α) (v : α) : Bool := g.adjacency.contains v

def successors (g : Digraph α) (v : α) : List α := (g.adjacency.get? v).getD []

def addVertex (g : Digraph α) (v : α) : Digraph α where
  adjacency := g.adjacency.upsert v fun next => next.getD []
  closed := by
    intro e he w hw
    rw [Table.mem_keys_upsert]
    rcases Table.mem_entries_upsert he with ⟨_, h⟩ | h
    · rw [h] at hw
      cases hv : g.adjacency.get? v with
      | none => simp [hv] at hw
      | some next =>
        rw [hv, Option.getD_some] at hw
        exact .inl (g.closed _ (Table.mem_entries_of_get? hv) w hw)
    · exact .inl (g.closed e h w hw)

/-- Adds the edge from `u` to `v` and both of its ends, `u` before `v`. -/
def addEdge (g : Digraph α) (u v : α) : Digraph α where
  adjacency := ((g.addVertex u).addVertex v).adjacency.upsert u fun next =>
    if v ∈ next.getD [] then next.getD [] else next.getD [] ++ [v]
  closed := by
    intro e he w hw
    rw [Table.mem_keys_upsert]
    rcases Table.mem_entries_upsert he with ⟨_, h⟩ | h
    · have hv : v ∈ ((g.addVertex u).addVertex v).adjacency.keys :=
        (Table.mem_keys_upsert ..).2 (.inr rfl)
      cases hu : ((g.addVertex u).addVertex v).adjacency.get? u with
      | none =>
        rw [h, hu] at hw
        exact .inl (List.mem_singleton.1 hw ▸ hv)
      | some next =>
        rw [h, hu, Option.getD_some] at hw
        have hn := ((g.addVertex u).addVertex v).closed _ (Table.mem_entries_of_get? hu)
        split at hw
        · exact .inl (hn w hw)
        · rcases List.mem_append.1 hw with hw | hw
          · exact .inl (hn w hw)
          · exact .inl (List.mem_singleton.1 hw ▸ hv)
    · exact .inl (((g.addVertex u).addVertex v).closed e h w hw)

/-- Looks for `target` among the pending vertices and what they lead to, the vertex added last
first. A vertex may be pending several times; only its first turn adds its successors. There is no
answer if the turns run out before the pending vertices do. -/
def search (g : Digraph α) (target : α) : (turns : Nat) → (pending visited : List α) → Option Bool
  | 0, _, _ => none
  | _ + 1, [], _ => some false
  | n + 1, v :: pending, visited =>
    if v = target then some true
    else if v ∈ visited then g.search target n pending visited
    else g.search target n ((g.successors v).reverse ++ pending) (v :: visited)

/-- Whether a path of one or more edges leads from `u` to `v`. -/
def reaches (g : Digraph α) (u v : α) : Bool :=
  (g.search v (g.walkBound (g.successors u) + 1) (g.successors u).reverse []).getD false

/-- Whether `v` lies on a cycle. -/
def onCycle (g : Digraph α) (v : α) : Bool := g.reaches v v

end Digraph

end ProofCore
