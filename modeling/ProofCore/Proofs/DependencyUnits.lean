import ProofCore.Checking.Dependency
import ProofCore.Proofs.Components
import ProofCore.Proofs.GraphSearch

/-!
# Dependencies between the units of a module

The dependency graph of a module has one vertex for each unit of each declaration and an edge for
each reference to a declaration. A signature leads to signatures only, so the units of a component
are all signatures or all bodies.
-/
namespace ProofCore

namespace Digraph

variable {α : Type} [DecidableEq α]

/-- A vertex that is alone in its component lies on a cycle only by an edge to itself. -/
theorem onCycle_iff_of_singleton {g : Digraph α} {u : α} (hc : [u] ∈ g.components) :
    g.onCycle u = true ↔ g.Edge u u := by
  obtain ⟨r, -, hmem⟩ := exists_root hc
  rw [onCycle, reaches_iff]
  constructor
  · intro h
    obtain ⟨w, huw, hwu⟩ := h
    have hru := (hmem u).mp (by simp)
    have huw' : g.Mutual u w := ⟨.single huw, hwu⟩
    have hw := (hmem w).mpr (hru.trans huw')
    rwa [List.mem_singleton.mp hw] at huw
  · exact fun h => ⟨u, h, .refl⟩

end Digraph

namespace Module

variable {m : Module}

theorem id_of_get? {id : DefId} {d : Decl} (h : m.get? id = some d) : d.id = id :=
  m.id_eq (id, d) (Table.get?_eq_some_iff.mp h)

theorem contains_iff {id : DefId} : m.contains id = true ↔ ∃ d, m.get? id = some d := by
  rw [contains, Table.contains, Option.isSome_iff_exists]
  rfl

theorem mem_decls_iff {d : Decl} : d ∈ m.decls ↔ m.get? d.id = some d := by
  rw [decls, Table.mem_values_iff]
  constructor
  · intro h
    obtain ⟨id, hid⟩ := h
    rwa [id_of_get? hid]
  · exact fun h => ⟨d.id, h⟩

/-- One unit of a module depends on another. -/
inductive DependsOn (m : Module) : CheckUnit → CheckUnit → Prop
  | signature {id : DefId} {d : Decl} (declared : m.get? id = some d) :
      DependsOn m (.body id) (.head id)
  | head {id r : DefId} {d : Decl} (declared : m.get? id = some d)
      (ref : r ∈ d.definition.headerRefs) (known : m.contains r = true) :
      DependsOn m (.head id) (.head r)
  | body {id r : DefId} {d : Decl} (declared : m.get? id = some d)
      (ref : r ∈ d.definition.bodyRefs) (known : m.contains r = true) :
      DependsOn m (.body id) (.body r)

theorem DependsOn.contains {u v : CheckUnit} (h : m.DependsOn u v) :
    m.contains u.id = true ∧ m.contains v.id = true := by
  cases h with
  | signature hd => exact ⟨contains_iff.mpr ⟨_, hd⟩, contains_iff.mpr ⟨_, hd⟩⟩
  | head hd _ hknown => exact ⟨contains_iff.mpr ⟨_, hd⟩, hknown⟩
  | body hd _ hknown => exact ⟨contains_iff.mpr ⟨_, hd⟩, hknown⟩

end Module

namespace DependencyGraph

/-- The additions that build the dependency graph of a module. -/
def additions (m : Module) : List (Digraph.Addition CheckUnit) :=
  (m.decls.flatMap fun d => [.vertex (.head d.id), .edge (.body d.id) (.head d.id)]) ++
    m.decls.flatMap fun d =>
      ((d.definition.headerRefs.filter m.contains).map fun r => .edge (.head d.id) (.head r)) ++
        (d.definition.bodyRefs.filter m.contains).map fun r => .edge (.body d.id) (.body r)

theorem ofModule_eq_build (m : Module) : ofModule m = Digraph.build (additions m) := by
  simp only [Digraph.build, additions, List.foldl_append, List.foldl_flatMap, List.foldl_map]
  rfl

theorem edge_ofModule_iff {m : Module} {u v : CheckUnit} :
    (ofModule m).Edge u v ↔ m.DependsOn u v := by
  rw [ofModule_eq_build, Digraph.edge_build]
  simp only [additions, List.mem_append, List.mem_flatMap, List.mem_map, List.mem_filter,
    List.mem_cons, List.not_mem_nil, or_false, reduceCtorEq, false_or, Digraph.Addition.edge.injEq,
    Module.mem_decls_iff]
  constructor
  · intro h
    rcases h with ⟨d, hd, rfl, rfl⟩ | ⟨d, hd, ⟨r, ⟨href, hknown⟩, rfl, rfl⟩ |
      ⟨r, ⟨href, hknown⟩, rfl, rfl⟩⟩
    · exact .signature hd
    · exact .head hd href hknown
    · exact .body hd href hknown
  · intro h
    cases h with
    | signature hd =>
      have hid := Module.id_of_get? hd
      subst hid
      exact .inl ⟨_, hd, rfl, rfl⟩
    | head hd href hknown =>
      have hid := Module.id_of_get? hd
      subst hid
      exact .inr ⟨_, hd, .inl ⟨_, ⟨href, hknown⟩, rfl, rfl⟩⟩
    | body hd href hknown =>
      have hid := Module.id_of_get? hd
      subst hid
      exact .inr ⟨_, hd, .inr ⟨_, ⟨href, hknown⟩, rfl, rfl⟩⟩

theorem edge_signature {m : Module} {id : DefId} (h : m.contains id = true) :
    (ofModule m).Edge (.body id) (.head id) := by
  obtain ⟨d, hd⟩ := Module.contains_iff.mp h
  exact edge_ofModule_iff.mpr (.signature hd)

theorem mem_vertices_ofModule_iff {m : Module} {u : CheckUnit} :
    u ∈ (ofModule m).vertices ↔ m.contains u.id = true := by
  constructor
  · intro h
    rw [ofModule_eq_build, Digraph.vertices_build, Digraph.mentioned, List.mem_eraseDups,
      List.mem_flatMap] at h
    obtain ⟨step, hstep, hu⟩ := h
    cases step with
    | vertex v =>
      have hdecl : ∃ d ∈ m.decls, v = .head d.id := by simpa [additions] using hstep
      obtain ⟨d, hd, rfl⟩ := hdecl
      rw [List.mem_singleton.mp hu]
      exact Module.contains_iff.mpr ⟨d, Module.mem_decls_iff.mp hd⟩
    | edge v w =>
      have hedge : (ofModule m).Edge v w := by rwa [ofModule_eq_build, Digraph.edge_build]
      have hknown := (edge_ofModule_iff.mp hedge).contains
      simp only [Digraph.Addition.ends, List.mem_cons, List.not_mem_nil, or_false] at hu
      rcases hu with rfl | rfl
      · exact hknown.1
      · exact hknown.2
  · intro h
    cases u with
    | head id => exact (edge_signature h).mem_vertices.2
    | body id => exact (edge_signature h).mem_vertices.1

theorem isHead_of_path {m : Module} {u v : CheckUnit} (h : (ofModule m).Path u v)
    (hu : u.isHead = true) : v.isHead = true := by
  induction h with
  | refl => exact hu
  | tail _ hedge ih =>
    cases edge_ofModule_iff.mp hedge with
    | signature => cases ih
    | head => rfl
    | body => cases ih

theorem isHead_eq_of_mutual {m : Module} {u v : CheckUnit} (h : (ofModule m).Mutual u v) :
    u.isHead = v.isHead := by
  rw [Bool.eq_iff_iff]
  exact ⟨isHead_of_path h.1, isHead_of_path h.2⟩

end DependencyGraph

end ProofCore
