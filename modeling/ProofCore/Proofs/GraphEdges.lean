import ProofCore.Proofs.TableLookup
import ProofCore.Data.Digraph

/-!
# Vertices and edges of a graph

What adding vertices and edges does to a graph, read off the sequence of additions that built it:
its vertices are the mentioned ones in the order of their first mention, and its edges are the
added ones.
-/
namespace ProofCore

namespace Digraph

variable {α : Type}

theorem nodup_vertices (g : Digraph α) : g.vertices.Nodup := g.adjacency.nodup_keys

variable [DecidableEq α]

def Edge (g : Digraph α) (u v : α) : Prop := v ∈ g.successors u

/-- A path of any number of edges. -/
def Path (g : Digraph α) : α → α → Prop := Relation.ReflTransGen g.Edge

theorem mem_successors_iff {g : Digraph α} {u v : α} :
    v ∈ g.successors u ↔ ∃ next, (u, next) ∈ g.adjacency.entries ∧ v ∈ next := by
  unfold successors
  cases h : g.adjacency.get? u with
  | none =>
    simp only [Option.getD_none, List.not_mem_nil, false_iff]
    rintro ⟨next, hnext, -⟩
    rw [Table.get?_eq_some_iff.mpr hnext] at h
    cases h
  | some next =>
    rw [Option.getD_some]
    refine ⟨fun hv => ⟨next, Table.get?_eq_some_iff.mp h, hv⟩, ?_⟩
    rintro ⟨next', hnext', hv⟩
    rw [Table.get?_eq_some_iff.mpr hnext'] at h
    cases h
    exact hv

theorem Edge.mem_vertices {g : Digraph α} {u v : α} (h : g.Edge u v) :
    u ∈ g.vertices ∧ v ∈ g.vertices := by
  obtain ⟨next, hnext, hv⟩ := mem_successors_iff.mp h
  exact ⟨List.mem_map.mpr ⟨_, hnext, rfl⟩, g.closed _ hnext v hv⟩

theorem Path.mem_vertices {g : Digraph α} {u v : α} (h : g.Path u v) (hu : u ∈ g.vertices) :
    v ∈ g.vertices := by
  induction h with
  | refl => exact hu
  | tail _ hedge _ => exact hedge.mem_vertices.2

theorem vertices_addVertex (g : Digraph α) (v : α) :
    (g.addVertex v).vertices = if v ∈ g.vertices then g.vertices else g.vertices ++ [v] :=
  Table.keys_upsert ..

theorem mem_keys_addVertex (g : Digraph α) (u v : α) :
    u ∈ ((g.addVertex u).addVertex v).adjacency.keys := by
  refine (Table.mem_keys_upsert ..).mpr (.inl ?_)
  exact (Table.mem_keys_upsert ..).mpr (.inr rfl)

theorem vertices_addEdge (g : Digraph α) (u v : α) :
    (g.addEdge u v).vertices = ((g.addVertex u).addVertex v).vertices :=
  (Table.keys_upsert ..).trans (if_pos (g.mem_keys_addVertex u v))

@[simp] theorem successors_empty (u : α) : (empty : Digraph α).successors u = [] := rfl

@[simp] theorem successors_addVertex (g : Digraph α) (v u : α) :
    (g.addVertex v).successors u = g.successors u := by
  unfold successors addVertex
  rw [Table.get?_upsert]
  split
  · rename_i h
    rw [h, Option.getD_some]
  · rfl

theorem edge_addEdge {g : Digraph α} {u v x y : α} :
    (g.addEdge u v).Edge x y ↔ g.Edge x y ∨ x = u ∧ y = v := by
  have hget : ((g.addVertex u).addVertex v).adjacency.get? u =
      some (((g.addVertex u).addVertex v).successors u) := by
    obtain ⟨next, hnext⟩ := Table.mem_keys_iff.mp (g.mem_keys_addVertex u v)
    rw [successors, hnext, Option.getD_some]
  simp only [successors_addVertex] at hget
  unfold Edge
  by_cases hx : x = u
  · subst hx
    have hsucc : (g.addEdge x v).successors x =
        if v ∈ g.successors x then g.successors x else g.successors x ++ [v] := by
      rw [successors, addEdge, Table.get?_upsert, if_pos rfl, hget, Option.getD_some,
        Option.getD_some]
    rw [hsucc]
    split
    · rename_i hv
      exact ⟨.inl, fun h => h.elim id fun e => e.2 ▸ hv⟩
    · simp
  · have hsucc : (g.addEdge u v).successors x = g.successors x := by
      rw [successors, addEdge, Table.get?_upsert, if_neg hx]
      exact (successors_addVertex _ v x).trans (successors_addVertex g u x)
    rw [hsucc]
    exact ⟨.inl, fun h => h.resolve_right fun e => hx e.1⟩

/-- An addition to a graph. -/
inductive Addition (α : Type) where
  | vertex (v : α)
  | edge (u v : α)

/-- The vertices that an addition mentions. -/
def Addition.ends : Addition α → List α
  | .vertex v => [v]
  | .edge u v => [u, v]

def add (g : Digraph α) : Addition α → Digraph α
  | .vertex v => g.addVertex v
  | .edge u v => g.addEdge u v

/-- The graph that a sequence of additions builds. -/
def build (steps : List (Addition α)) : Digraph α := steps.foldl add empty

/-- The vertices that a sequence of additions mentions, in the order of their first mention. -/
def mentioned (steps : List (Addition α)) : List α := (steps.flatMap Addition.ends).eraseDups

theorem eraseDups_concat (vs : List α) (v : α) :
    (vs ++ [v]).eraseDups = if v ∈ vs.eraseDups then vs.eraseDups else vs.eraseDups ++ [v] := by
  rw [List.eraseDups_append]
  by_cases h : v ∈ vs
  · have hnone : [v].removeAll vs = [] := by simp [List.removeAll, h]
    rw [if_pos (List.mem_eraseDups.mpr h), hnone, List.eraseDups_nil, List.append_nil]
  · have hone : [v].removeAll vs = [v] := by simp [List.removeAll, h]
    rw [if_neg fun hh => h (List.mem_eraseDups.mp hh), hone]
    rfl

theorem nodup_eraseDups (vs : List α) : vs.eraseDups.Nodup := by
  induction vs using List.reverseRecOn with
  | nil => simp
  | append_singleton vs v ih =>
    rw [eraseDups_concat]
    split
    · exact ih
    · rename_i hnew
      rw [← List.concat_eq_append]
      exact ih.concat hnew

theorem vertices_build (steps : List (Addition α)) : (build steps).vertices = mentioned steps := by
  unfold build mentioned
  induction steps using List.reverseRecOn with
  | nil => rfl
  | append_singleton steps step ih =>
    rw [List.foldl_append, List.flatMap_append, List.foldl_cons, List.foldl_nil]
    cases step with
    | vertex v =>
      simp only [add, List.flatMap_singleton, Addition.ends]
      rw [vertices_addVertex, ih, eraseDups_concat]
    | edge u v =>
      simp only [add, List.flatMap_singleton, Addition.ends]
      rw [vertices_addEdge, vertices_addVertex, vertices_addVertex, ih, ← eraseDups_concat,
        ← eraseDups_concat, List.append_assoc, List.singleton_append]

theorem edge_build {steps : List (Addition α)} {u v : α} :
    (build steps).Edge u v ↔ .edge u v ∈ steps := by
  unfold build
  induction steps using List.reverseRecOn with
  | nil => simp [Edge]
  | append_singleton steps step ih =>
    rw [List.foldl_append, List.foldl_cons, List.foldl_nil]
    cases step with
    | vertex x =>
      rw [add, Edge, successors_addVertex]
      refine Iff.trans ih ?_
      simp
    | edge x y =>
      rw [add, edge_addEdge, ih]
      simp

theorem edge_build_eq (steps : List (Addition α)) :
    (build steps).Edge = fun u v => .edge u v ∈ steps := by
  funext u v
  exact propext edge_build

theorem path_build (steps : List (Addition α)) :
    (build steps).Path = Relation.ReflTransGen fun u v => .edge u v ∈ steps := by
  rw [Path, edge_build_eq]

end Digraph

end ProofCore
