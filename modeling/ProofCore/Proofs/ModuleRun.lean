import ProofCore.Proofs.ComponentCheck

/-!
# The definitions that a module check accepts

Components are checked in order, and a component is skipped if it depends on something that is not
acceptable. Either way the session knows the acceptable units among those dealt with, so the
definitions that are accepted in the end are the acceptable ones.
-/
namespace ProofCore

open DependencyGraph (ofModule)

/-- The session reflects what was dealt with, and the units that are not to be relied on are those
that are not acceptable. -/
structure Progress.Sound (fuel : ℕ) (m : Module) (done : List CheckUnit)
    (p : Progress ScopeState Shapes) : Prop where
  session : p.session.Reflects fuel m done
  poisoned : ∀ u, u ∈ p.poisoned ↔ u ∈ done ∧ ¬ m.Acceptable fuel u

namespace Progress.Sound

open CheckM Session Setup

variable {fuel stack : ℕ} {m : Module} {done group : List CheckUnit}
  {p p' : Progress ScopeState Shapes}

theorem poisoned_append (hp : p.Sound fuel m done) (hgroup : ∀ u ∈ group, ¬ m.Acceptable fuel u)
    (u : CheckUnit) : u ∈ p.poisoned ++ group ↔ u ∈ done ++ group ∧ ¬ m.Acceptable fuel u := by
  rw [List.mem_append, List.mem_append, hp.poisoned]
  constructor
  · intro hu
    rcases hu with hu | hu
    · exact ⟨.inl hu.1, hu.2⟩
    · exact ⟨.inr hu, hgroup u hu⟩
  · exact fun hu => hu.1.imp_left fun hdone => ⟨hdone, hu.2⟩

theorem dependsOnAny_iff (hp : p.Sound fuel m done) (stage : Stage m done group) :
    (ofModule m).dependsOnAny group p.poisoned = true ↔ ¬ Clear fuel m group := by
  simp only [DependencyGraph.dependsOnAny, List.any_eq_true, decide_eq_true_eq, hp.poisoned, Clear]
  push Not
  constructor
  · intro h
    obtain ⟨u, hu, v, huv, ⟨-, hv⟩, hout⟩ := h
    exact ⟨u, hu, v, huv, hout, hv⟩
  · intro h
    obtain ⟨u, hu, v, huv, hout, hv⟩ := h
    exact ⟨u, hu, v, huv, ⟨(stage.edge u hu v huv).resolve_right hout, hv⟩, hout⟩

/-- One component keeps the progress sound. -/
theorem step (hp : p.Sound fuel m done) (stage : Stage m done group)
    (h : (m.setup stack).step true p group = some p') : p'.Sound fuel m (done ++ group) := by
  unfold Setup.step at h
  by_cases hskip : (ofModule m).dependsOnAny group p.poisoned = true
  · have hcond : (true && (m.setup stack).graph.dependsOnAny group p.poisoned) = true := hskip
    rw [if_pos hcond] at h
    cases h
    have hgroup : ∀ u ∈ group, ¬ m.Acceptable fuel u := by
      intro u hu hacc
      apply (hp.dependsOnAny_iff stage).mp hskip
      intro w hw v hwv _
      exact (stage.acceptable_of_mem hu hw hacc).edge hwv
    exact ⟨hp.session.reject hgroup ⟨rfl, rfl, rfl, rfl, rfl⟩ hp.session.errors,
      hp.poisoned_append hgroup⟩
  · have hcond : ¬ (true && (m.setup stack).graph.dependsOnAny group p.poisoned) = true := hskip
    rw [if_neg hcond] at h
    have clear : Clear fuel m group := by
      by_contra hclear
      exact hskip ((hp.dependsOnAny_iff stage).mpr hclear)
    cases hcheck : (m.setup stack).checkComponent group p.session with
    | none => simp [hcheck] at h
    | some outcome =>
      obtain ⟨r, t⟩ := outcome
      rw [hcheck] at h
      obtain ⟨hsession, hverdict⟩ := stage.reflects_checkComponent clear hp.session hcheck
      rcases hverdict with ⟨haccept, rfl⟩ | ⟨hgroup, e, rfl⟩
      · cases h
        refine ⟨hsession, fun u => ?_⟩
        rw [hp.poisoned, List.mem_append]
        constructor
        · exact fun hu => ⟨.inl hu.1, hu.2⟩
        · exact fun hu => ⟨hu.1.resolve_right fun hmem => hu.2 (haccept u hmem), hu.2⟩
      · cases h
        exact ⟨hsession, hp.poisoned_append hgroup⟩

/-- Nothing was dealt with at the start of a check. -/
theorem start (fuel : ℕ) (m : Module) :
    Progress.Sound fuel m [] { session := m.freshSession fuel } := by
  have hfns : ∀ id, (∅ : Table DefId FnDef).get? id = none := fun _ => rfl
  refine ⟨⟨rfl, rfl, ?_, ?_, ?_, ?_⟩, ?_⟩ <;> simp [Module.freshSession, ScopeState.ofModule, hfns]

end Progress.Sound

namespace Module

variable {m : Module} {fuel stack : ℕ} {p : Progress ScopeState Shapes}

theorem sound_check (h : m.check fuel stack = some p) :
    p.Sound fuel m (ofModule m).components.flatten :=
  foldlM_of_stage Progress.Sound.step [] (Progress.Sound.start fuel m) (List.append_nil _).symm h

/-- A check accepts the acceptable definitions, but not those of examples. -/
theorem mem_accepted_iff (h : m.check fuel stack = some p) {d : Def} :
    d ∈ p.report.accepted ↔ m.Acceptable fuel (.body d.id) ∧ m.get? d.id = some ⟨d, false⟩ := by
  rw [Progress.report, (sound_check h).session.accepted, and_iff_right_iff_imp]
  intro hd
  rw [(ofModule m).perm_flatten_components.mem_iff, DependencyGraph.mem_vertices_ofModule_iff]
  exact hd.1.declared

end Module

end ProofCore
