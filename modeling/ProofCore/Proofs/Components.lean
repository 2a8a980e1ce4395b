import ProofCore.Proofs.StrongConnect

/-!
# Strongly connected components

The traversal closes components that are strongly connected and whose edges lead into themselves or
into earlier ones. So along a path the position of the component never grows, and two vertices that
lead to each other are in one component: `components` partitions the vertices by mutual reachability
and lists every component after those it has edges into.
-/
namespace ProofCore

namespace Digraph

variable {α : Type} [DecidableEq α]

def Mutual (g : Digraph α) (u v : α) : Prop := g.Path u v ∧ g.Path v u

theorem Mutual.symm {g : Digraph α} {u v : α} (h : g.Mutual u v) : g.Mutual v u := ⟨h.2, h.1⟩

theorem Mutual.trans {g : Digraph α} {u v w : α} (huv : g.Mutual u v) (hvw : g.Mutual v w) :
    g.Mutual u w :=
  ⟨Relation.ReflTransGen.trans huv.1 hvw.1, Relation.ReflTransGen.trans hvw.2 huv.2⟩

theorem exists_component {g : Digraph α} {v : α} (hv : v ∈ g.vertices) :
    ∃ c ∈ g.components, v ∈ c :=
  List.mem_flatten.mp (g.closedComponents_components.2 v hv)

theorem component_ne_nil {g : Digraph α} {c : List α} (hc : c ∈ g.components) : c ≠ [] :=
  fun hnil => g.closedComponents_components.1.ne_nil (hnil ▸ hc)

theorem component_sublist {g : Digraph α} {c : List α} (hc : c ∈ g.components) :
    c.Sublist g.vertices :=
  g.closedComponents_components.1.sublist c hc

theorem pairwise_disjoint_components (g : Digraph α) : g.components.Pairwise List.Disjoint :=
  g.closedComponents_components.1.disjoint

/-- No edge leads from a component into a later one. -/
theorem pairwise_edge_components (g : Digraph α) :
    g.components.Pairwise fun earlier later => ∀ u ∈ earlier, ∀ v ∈ later, ¬ g.Edge u v :=
  g.closedComponents_components.1.ordered

theorem position_le_of_edge {g : Digraph α} {u v : α} (h : g.Edge u v) {i j : ℕ} {c d : List α}
    (hi : g.components[i]? = some c) (hj : g.components[j]? = some d) (hu : u ∈ c) (hv : v ∈ d) :
    j ≤ i := by
  by_contra hlt
  obtain ⟨hi', rfl⟩ := List.getElem?_eq_some_iff.mp hi
  obtain ⟨hj', rfl⟩ := List.getElem?_eq_some_iff.mp hj
  have hpair := List.pairwise_iff_getElem.mp g.pairwise_edge_components i j hi' hj' (by omega)
  exact hpair u hu v hv h

theorem position_unique {g : Digraph α} {v : α} {i j : ℕ} {c d : List α}
    (hi : g.components[i]? = some c) (hj : g.components[j]? = some d) (hc : v ∈ c) (hd : v ∈ d) :
    i = j := by
  obtain ⟨hi', rfl⟩ := List.getElem?_eq_some_iff.mp hi
  obtain ⟨hj', rfl⟩ := List.getElem?_eq_some_iff.mp hj
  have hdisjoint := List.pairwise_iff_getElem.mp g.pairwise_disjoint_components
  rcases Nat.lt_trichotomy i j with hlt | heq | hlt
  · exact absurd hd (hdisjoint i j hi' hj' hlt hc)
  · exact heq
  · exact absurd hc (hdisjoint j i hj' hi' hlt hd)

theorem position_le_of_path {g : Digraph α} {u v : α} (h : g.Path u v) {i j : ℕ} {c d : List α}
    (hi : g.components[i]? = some c) (hj : g.components[j]? = some d) (hu : u ∈ c) (hv : v ∈ d) :
    j ≤ i := by
  induction h generalizing j d with
  | refl => exact (position_unique hj hi hv hu).le
  | @tail w v _ hedge ih =>
    obtain ⟨b, hb, hw⟩ := exists_component hedge.mem_vertices.1
    obtain ⟨k, hk⟩ := List.getElem?_of_mem hb
    exact (position_le_of_edge hedge hk hj hw hv).trans (ih hk hw)

/-- Two vertices are in one component exactly if each leads to the other. -/
theorem mem_component_iff {g : Digraph α} {c : List α} (hc : c ∈ g.components) {u v : α}
    (hu : u ∈ c) : v ∈ c ↔ g.Mutual u v := by
  have hconnected := g.closedComponents_components.1.connected c hc
  refine ⟨fun hv => ⟨hconnected u hu v hv, hconnected v hv u hu⟩, fun h => ?_⟩
  obtain ⟨d, hd, hv⟩ := exists_component (h.1.mem_vertices ((component_sublist hc).subset hu))
  obtain ⟨i, hi⟩ := List.getElem?_of_mem hc
  obtain ⟨j, hj⟩ := List.getElem?_of_mem hd
  have heq : i = j :=
    Nat.le_antisymm (position_le_of_path h.2 hj hi hv hu) (position_le_of_path h.1 hi hj hu hv)
  subst heq
  rwa [Option.some.inj (hi.symm.trans hj)]

/-- Every component is a class of mutual reachability. -/
theorem exists_root {g : Digraph α} {c : List α} (hc : c ∈ g.components) :
    ∃ r ∈ g.vertices, ∀ v, v ∈ c ↔ g.Mutual r v := by
  obtain ⟨r, hr⟩ := List.exists_mem_of_ne_nil c (component_ne_nil hc)
  exact ⟨r, (component_sublist hc).subset hr, fun v => mem_component_iff hc hr⟩

theorem mem_same_component_iff {g : Digraph α} {u v : α} :
    (∃ c ∈ g.components, u ∈ c ∧ v ∈ c) ↔ u ∈ g.vertices ∧ g.Mutual u v := by
  constructor
  · intro h
    obtain ⟨c, hc, hu, hv⟩ := h
    exact ⟨(component_sublist hc).subset hu, (mem_component_iff hc hu).mp hv⟩
  · intro h
    obtain ⟨c, hc, hu⟩ := exists_component h.1
    exact ⟨c, hc, hu, (mem_component_iff hc hu).mpr h.2⟩

theorem exists_ne_of_component {g : Digraph α} {c : List α} (hc : c ∈ g.components)
    (hlength : 2 ≤ c.length) (u : α) : ∃ v ∈ c, u ≠ v := by
  by_contra! hall
  have hone : c.toFinset ⊆ {u} := fun v hv => by
    simpa using (hall v (List.mem_toFinset.mp hv)).symm
  have hcard := Finset.card_le_card hone
  have hnodup : c.Nodup := g.nodup_vertices.sublist (component_sublist hc)
  rw [List.toFinset_card_of_nodup hnodup, Finset.card_singleton] at hcard
  omega

theorem perm_flatten_components (g : Digraph α) : g.components.flatten.Perm g.vertices := by
  have hnodup : g.components.flatten.Nodup := by
    rw [List.nodup_flatten]
    exact ⟨fun c hc => g.nodup_vertices.sublist (component_sublist hc),
      g.pairwise_disjoint_components⟩
  rw [List.perm_ext_iff_of_nodup hnodup g.nodup_vertices]
  intro v
  rw [List.mem_flatten]
  constructor
  · intro h
    obtain ⟨c, hc, hv⟩ := h
    exact (component_sublist hc).subset hv
  · exact exists_component

/-- No edge leads out of the first components. -/
theorem mem_flatten_of_edge {g : Digraph α} {done rest : List (List α)}
    (hsplit : g.components = done ++ rest) {u v : α} (hu : u ∈ done.flatten) (huv : g.Edge u v) :
    v ∈ done.flatten := by
  obtain ⟨c, hc, hv⟩ := exists_component huv.mem_vertices.2
  rw [hsplit] at hc
  rcases List.mem_append.mp hc with hc | hc
  · exact List.mem_flatten.mpr ⟨c, hc, hv⟩
  · obtain ⟨b, hb, hu⟩ := List.mem_flatten.mp hu
    have hordered := g.pairwise_edge_components
    rw [hsplit, List.pairwise_append] at hordered
    exact absurd huv (hordered.2.2 b hb c hc u hu v hv)

/-- The components of a graph that was built by adding vertices and edges hold every vertex once,
none is empty, and two vertices are together exactly if each leads to the other. -/
theorem components_build_exact (steps : List (Addition α)) :
    (build steps).components.flatten.Perm (mentioned steps) ∧
      [] ∉ (build steps).components ∧
      ∀ u v, (∃ c ∈ (build steps).components, u ∈ c ∧ v ∈ c) ↔ u ∈ mentioned steps ∧
        Relation.ReflTransGen (fun x y => .edge x y ∈ steps) u v ∧
        Relation.ReflTransGen (fun x y => .edge x y ∈ steps) v u := by
  refine ⟨?_, fun hnil => component_ne_nil hnil rfl, fun u v => ?_⟩
  · rw [← vertices_build]
    exact perm_flatten_components (build steps)
  · rw [mem_same_component_iff, vertices_build, Mutual, path_build]

/-- Along an edge the component stays the same or comes earlier, and the members of a component
stand in the order in which they were first mentioned. -/
theorem components_build_ordered (steps : List (Addition α)) :
    (∀ u v, .edge u v ∈ steps →
      (∃ c ∈ (build steps).components, u ∈ c) ∧ (∃ d ∈ (build steps).components, v ∈ d) ∧
      ∀ (i j : ℕ) (c d : List α), (build steps).components[i]? = some c →
        (build steps).components[j]? = some d → u ∈ c → v ∈ d → j = i ∨ j < i) ∧
      ∀ c ∈ (build steps).components, c.Sublist (mentioned steps) := by
  constructor
  · intro u v huv
    have hedge : (build steps).Edge u v := edge_build.mpr huv
    refine ⟨exists_component hedge.mem_vertices.1, exists_component hedge.mem_vertices.2, ?_⟩
    intro i j c d hi hj hu hv
    have hle := position_le_of_edge hedge hi hj hu hv
    omega
  · intro c hc
    rw [← vertices_build]
    exact component_sublist hc

/-- Two cycles joined by an edge: the one it leads to comes first, though it was added last. -/
theorem components_build_ordered_cycles :
    let steps : List (Addition ℕ) :=
      [.edge 1 2, .edge 2 1, .edge 2 3, .edge 4 3, .edge 3 4, .vertex 5]
    (build steps).components = [[3, 4], [1, 2], [5]] ∧ .edge 2 3 ∈ steps ∧
      (∃ c ∈ (build steps).components, 2 ∈ c) ∧ (∃ d ∈ (build steps).components, 3 ∈ d) ∧
      ∀ (i j : ℕ) (c d : List ℕ), (build steps).components[i]? = some c →
        (build steps).components[j]? = some d → 2 ∈ c → 3 ∈ d → j = i ∨ j < i := by
  intro steps
  have hmem : .edge 2 3 ∈ steps := by simp [steps]
  exact ⟨by decide +kernel, hmem, (components_build_ordered steps).1 2 3 hmem⟩

end Digraph

end ProofCore
