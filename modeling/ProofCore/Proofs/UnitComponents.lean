import ProofCore.Proofs.DependencyUnits

/-!
# Components of the units of a module

A signature depends on signatures only. So no component holds both signatures and bodies, a signature
comes in an earlier component than its own body, and what ties bodies together are the references
from body to body within the module.
-/
namespace ProofCore

/-- The body of `a` refers to `b`, which the module declares. -/
def Module.BodyRef (m : Module) (a b : DefId) : Prop :=
  ∃ d, m.get? a = some d ∧ b ∈ d.definition.bodyRefs ∧ m.contains b = true

theorem Module.BodyRef.declared {m : Module} {a b : DefId} (h : m.BodyRef a b) :
    m.contains a = true := by
  obtain ⟨d, hd, -⟩ := h
  exact contains_iff.mpr ⟨d, hd⟩

namespace DependencyGraph

variable {m : Module} {a b : DefId}

theorem edge_body_iff : (ofModule m).Edge (.body a) (.body b) ↔ m.BodyRef a b := by
  rw [edge_ofModule_iff]
  constructor
  · intro h
    cases h with
    | body hd href hknown => exact ⟨_, hd, href, hknown⟩
  · intro h
    obtain ⟨d, hd, href, hknown⟩ := h
    exact .body hd href hknown

theorem not_path_head_body : ¬ (ofModule m).Path (.head a) (.body b) := by
  intro h
  cases isHead_of_path h rfl

/-- A path between bodies never leaves the bodies, since no signature leads back to one. -/
theorem path_body_iff :
    (ofModule m).Path (.body a) (.body b) ↔ Relation.ReflTransGen m.BodyRef a b := by
  constructor
  · intro h
    generalize hu : CheckUnit.body a = u at h
    induction h using Relation.ReflTransGen.head_induction_on generalizing a with
    | refl =>
      cases hu
      exact .refl
    | @head _ v hedge hpath ih =>
      subst hu
      cases v with
      | head c => exact absurd hpath not_path_head_body
      | body c => exact .head (edge_body_iff.mp hedge) (ih rfl)
  · intro h
    induction h with
    | refl => exact .refl
    | tail _ href ih => exact ih.tail (edge_body_iff.mpr href)

theorem same_kind_of_mem {c : List CheckUnit} (hc : c ∈ (ofModule m).components) :
    (∀ u ∈ c, u.isHead = true) ∨ ∀ u ∈ c, u.isHead = false := by
  obtain ⟨r, -, hmem⟩ := Digraph.exists_root hc
  cases hr : r.isHead with
  | true => exact .inl fun u hu => hr ▸ (isHead_eq_of_mutual ((hmem u).mp hu)).symm
  | false => exact .inr fun u hu => hr ▸ (isHead_eq_of_mutual ((hmem u).mp hu)).symm

/-- A signature stands before its own body. -/
theorem position_head_lt {i j : ℕ} {c c' : List CheckUnit}
    (hi : (ofModule m).components[i]? = some c) (hj : (ofModule m).components[j]? = some c')
    (hhead : .head a ∈ c) (hbody : .body a ∈ c') : i < j := by
  have hmem := List.mem_of_getElem? hi
  have hknown : m.contains a = true :=
    mem_vertices_ofModule_iff.mp ((Digraph.component_sublist hmem).subset hhead)
  have hle : i ≤ j := Digraph.position_le_of_edge (edge_signature hknown) hj hi hbody hhead
  have hne : i ≠ j := by
    rintro rfl
    obtain rfl : c = c' := Option.some.inj (hi.symm.trans hj)
    have hmutual := (Digraph.mem_component_iff hmem hhead).mp hbody
    exact not_path_head_body hmutual.1
  omega

/-- Two bodies are checked together exactly if each refers to the other, directly or through the
bodies of further declarations. -/
theorem same_component_body_iff (hne : a ≠ b) :
    (∃ c ∈ (ofModule m).components, .body a ∈ c ∧ .body b ∈ c) ↔
      Relation.TransGen m.BodyRef a b ∧ Relation.TransGen m.BodyRef b a := by
  have htrans : ∀ {x y : DefId}, x ≠ y →
      ((ofModule m).Path (.body x) (.body y) ↔ Relation.TransGen m.BodyRef x y) := by
    intro x y hxy
    rw [path_body_iff, Relation.reflTransGen_iff_eq_or_transGen]
    exact or_iff_right hxy.symm
  rw [Digraph.mem_same_component_iff, mem_vertices_ofModule_iff, Digraph.Mutual, htrans hne,
    htrans hne.symm]
  refine and_iff_right_of_imp fun h => ?_
  obtain ⟨_, href, -⟩ := Relation.TransGen.head'_iff.mp h.1
  exact href.declared

/-- In the dependency graph of a module no body can be reached from a signature. So each component
consists of signatures or of bodies, the signature of a declaration comes in an earlier component
than its body, and two bodies share a component exactly if their declarations reach each other by
references between bodies of the module. -/
theorem components_homogeneous (m : Module) :
    (∀ a b, ¬ (ofModule m).Path (.head a) (.body b)) ∧
      (∀ c ∈ (ofModule m).components,
        (∀ u ∈ c, u.isHead = true) ∨ ∀ u ∈ c, u.isHead = false) ∧
      (∀ a, m.contains a = true → (∃ c ∈ (ofModule m).components, .head a ∈ c) ∧
        (∃ c ∈ (ofModule m).components, .body a ∈ c) ∧
        ∀ (i j : ℕ) (c c' : List CheckUnit), (ofModule m).components[i]? = some c →
          (ofModule m).components[j]? = some c' → .head a ∈ c → .body a ∈ c' → i < j) ∧
      ∀ a b, a ≠ b → ((∃ c ∈ (ofModule m).components, .body a ∈ c ∧ .body b ∈ c) ↔
        Relation.TransGen m.BodyRef a b ∧ Relation.TransGen m.BodyRef b a) := by
  refine ⟨fun a b => not_path_head_body, fun c hc => same_kind_of_mem hc, fun a ha => ?_,
    fun a b hne => same_component_body_iff hne⟩
  have hedge := edge_signature ha
  exact ⟨Digraph.exists_component hedge.mem_vertices.2,
    Digraph.exists_component hedge.mem_vertices.1,
    fun i j c c' hi hj hhead hbody => position_head_lt hi hj hhead hbody⟩

/-- A type with a constructor that mentions a function, and the function, which comes back to the type.
A third declaration refers to itself and to a definition from elsewhere. -/
def entangled : Module := .ofDecls
  [⟨.data ⟨⟨1⟩, "T", [], [⟨⟨10⟩, "c", ⟨1⟩, [⟨"x", .fnCall ⟨2⟩ 0 [], true⟩]⟩]⟩, false⟩,
    ⟨.fn ⟨⟨2⟩, "f", [], .dataCall ⟨1⟩ 0 [],
      .expr (.conCall ⟨1⟩ ⟨10⟩ 0 [] [.fnCall ⟨4⟩ 0 []])⟩, false⟩,
    ⟨.fn ⟨⟨3⟩, "g", [], .dataCall ⟨1⟩ 0 [], .expr (.app (.fnCall ⟨3⟩ 0 []) (.fnCall ⟨4⟩ 0 []))⟩,
      false⟩]

/-- The type and the function are tied together by their bodies alone, though the signature of the
function mentions the type. -/
theorem components_homogeneous_entangled :
    (ofModule entangled).components =
        [[.head ⟨1⟩], [.head ⟨2⟩], [.body ⟨1⟩, .body ⟨2⟩], [.head ⟨3⟩], [.body ⟨3⟩]] ∧
      entangled.contains ⟨2⟩ = true ∧ (⟨1⟩ : DefId) ≠ ⟨2⟩ ∧
      (∀ (i j : ℕ) (c c' : List CheckUnit), (ofModule entangled).components[i]? = some c →
        (ofModule entangled).components[j]? = some c' → .head ⟨2⟩ ∈ c → .body ⟨2⟩ ∈ c' → i < j) ∧
      Relation.TransGen entangled.BodyRef ⟨1⟩ ⟨2⟩ ∧
      Relation.TransGen entangled.BodyRef ⟨2⟩ ⟨1⟩ := by
  have hcomponents : (ofModule entangled).components =
      [[.head ⟨1⟩], [.head ⟨2⟩], [.body ⟨1⟩, .body ⟨2⟩], [.head ⟨3⟩], [.body ⟨3⟩]] := by
    decide +kernel
  have hknown : entangled.contains ⟨2⟩ = true := by decide
  have hne : (⟨1⟩ : DefId) ≠ ⟨2⟩ := by decide
  have hshared : ∃ c ∈ (ofModule entangled).components, .body ⟨1⟩ ∈ c ∧ .body ⟨2⟩ ∈ c := by
    rw [hcomponents]
    exact ⟨[.body ⟨1⟩, .body ⟨2⟩], by simp, by simp, by simp⟩
  obtain ⟨-, -, hordered, hbodies⟩ := components_homogeneous entangled
  exact ⟨hcomponents, hknown, hne, (hordered ⟨2⟩ hknown).2.2, (hbodies _ _ hne).mp hshared⟩

end DependencyGraph

end ProofCore
