import ProofCore.Checking.Report
import ProofCore.Proofs.DependencyUnits

/-!
# The turns of a module check

Every component of the dependency graph has one turn, in which it is checked or skipped. To skip a
component, the check looks at single edges to units that failed or were skipped before. As
components come after those that they depend on, this amounts to paths of any length to failed
components.
-/
namespace ProofCore

theorem Digraph.nodup_components {α : Type} [DecidableEq α] (g : Digraph α) :
    g.components.Nodup := by
  refine g.pairwise_disjoint_components.imp_of_mem ?_
  intro a b ha _ hdisjoint heq
  subst heq
  obtain ⟨v, hv⟩ := List.exists_mem_of_ne_nil a (Digraph.component_ne_nil ha)
  exact hdisjoint hv hv

/-- What became of a component. -/
inductive Outcome where
  | passed
  | failed (failure : Failure)
  | skipped
  deriving DecidableEq

namespace Setup

variable {κ ρ : Type} {c : Setup κ ρ} {skipDependents : Bool} {p q r : Progress κ ρ}

/-- The turn of one component. Nothing but the notice changes the session if it is skipped. -/
inductive Turn (c : Setup κ ρ) (skipDependents : Bool) (p : Progress κ ρ)
    (group : List CheckUnit) : Outcome → Progress κ ρ → Prop
  | passed {s : Session κ ρ}
      (clear : (skipDependents && c.graph.dependsOnAny group p.poisoned) = false)
      (checked : c.checkComponent group p.session = some (.ok (), s)) :
      Turn c skipDependents p group .passed { p with session := s }
  | failed {s : Session κ ρ} {failure : Failure}
      (clear : (skipDependents && c.graph.dependsOnAny group p.poisoned) = false)
      (checked : c.checkComponent group p.session = some (.error failure, s)) :
      Turn c skipDependents p group (.failed failure)
        { p with
          session := s
          poisoned := p.poisoned ++ group
          failed := p.failed ++ failure.units }
  | skipped (blocked : (skipDependents && c.graph.dependsOnAny group p.poisoned) = true) :
      Turn c skipDependents p group .skipped
        { p with
          session := p.session.report (c.skipNotice group)
          poisoned := p.poisoned ++ group
          skipped := p.skipped ++ group }

theorem turn_of_step {group : List CheckUnit} (h : c.step skipDependents p group = some q) :
    ∃ outcome, c.Turn skipDependents p group outcome q := by
  unfold step at h
  split at h
  · rename_i hblocked
    cases h
    exact ⟨.skipped, .skipped hblocked⟩
  · rename_i hclear
    rw [Bool.not_eq_true] at hclear
    obtain ⟨⟨result, s⟩, hchecked, hend⟩ := Option.bind_eq_some_iff.mp h
    cases result with
    | ok _ =>
      cases hend
      exact ⟨.passed, .passed hclear hchecked⟩
    | error failure =>
      cases hend
      exact ⟨.failed failure, .failed hclear hchecked⟩

/-- The turns of components, one after the other. -/
inductive Turns (c : Setup κ ρ) (skipDependents : Bool) :
    Progress κ ρ → List (List CheckUnit × Outcome) → Progress κ ρ → Prop
  | nil (p : Progress κ ρ) : Turns c skipDependents p [] p
  | cons {p q r : Progress κ ρ} {group : List CheckUnit} {outcome : Outcome}
      {later : List (List CheckUnit × Outcome)}
      (turn : c.Turn skipDependents p group outcome q) (rest : Turns c skipDependents q later r) :
      Turns c skipDependents p ((group, outcome) :: later) r

theorem turns_of_foldlM {groups : List (List CheckUnit)}
    (h : groups.foldlM (c.step skipDependents) p = some q) :
    ∃ turns, turns.map Prod.fst = groups ∧ c.Turns skipDependents p turns q := by
  induction groups generalizing p with
  | nil =>
    cases h
    exact ⟨[], rfl, .nil _⟩
  | cons group groups ih =>
    rw [List.foldlM_cons] at h
    obtain ⟨next, hstep, hrest⟩ := Option.bind_eq_some_iff.mp h
    obtain ⟨outcome, hturn⟩ := turn_of_step hstep
    obtain ⟨turns, hgroups, hturns⟩ := ih hrest
    exact ⟨(group, outcome) :: turns, by rw [List.map_cons, hgroups], .cons hturn hturns⟩

namespace Turns

variable {turns earlier later : List (List CheckUnit × Outcome)}

theorem exists_between {group : List CheckUnit} {outcome : Outcome}
    (h : c.Turns skipDependents p (earlier ++ (group, outcome) :: later) r) :
    ∃ q q', c.Turns skipDependents p earlier q ∧ c.Turn skipDependents q group outcome q' ∧
      c.Turns skipDependents q' later r := by
  induction earlier generalizing p with
  | nil =>
    cases h with
    | cons turn rest => exact ⟨p, _, .nil p, turn, rest⟩
  | cons x earlier ih =>
    cases h with
    | cons turn rest =>
      obtain ⟨q, q', hbefore, hturn, hafter⟩ := ih rest
      exact ⟨q, q', .cons turn hbefore, hturn, hafter⟩

/-- What is not to be relied on are the components that did not pass. -/
theorem mem_poisoned_iff (h : c.Turns skipDependents p turns q) {u : CheckUnit} :
    u ∈ q.poisoned ↔ u ∈ p.poisoned ∨ ∃ x ∈ turns, x.2 ≠ .passed ∧ u ∈ x.1 := by
  induction h with
  | nil => simp
  | cons turn rest ih =>
    rw [ih]
    cases turn <;> simp [or_assoc]

theorem skipped_eq (h : c.Turns skipDependents p turns q) :
    q.skipped = p.skipped ++ (turns.filter fun x => x.2 = .skipped).flatMap Prod.fst := by
  induction h with
  | nil => simp
  | cons turn rest ih =>
    rw [ih]
    cases turn <;> simp

/-- A component is skipped for an edge to an earlier one that did not pass. -/
theorem skipped_iff_edge {s : Session κ ρ} {x : List CheckUnit × Outcome}
    (h : c.Turns true { session := s } (earlier ++ x :: later) r) :
    x.2 = .skipped ↔ ∃ u ∈ x.1, ∃ v, c.graph.Edge u v ∧ v ∉ x.1 ∧
      ∃ y ∈ earlier, y.2 ≠ .passed ∧ v ∈ y.1 := by
  obtain ⟨q, q', hbefore, hturn, -⟩ := h.exists_between
  have hblocked : (true && c.graph.dependsOnAny x.1 q.poisoned) = true ↔ ∃ u ∈ x.1, ∃ v,
      c.graph.Edge u v ∧ v ∉ x.1 ∧ ∃ y ∈ earlier, y.2 ≠ .passed ∧ v ∈ y.1 := by
    simp only [Bool.true_and, DependencyGraph.dependsOnAny, List.any_eq_true, decide_eq_true_eq,
      hbefore.mem_poisoned_iff, List.not_mem_nil, false_or]
    refine exists_congr fun u => and_congr_right fun _ => exists_congr fun v => ?_
    exact and_congr_right fun _ => and_comm
  rw [← hblocked]
  obtain ⟨group, outcome⟩ := x
  cases hturn with
  | passed clear checked => simp [clear]
  | failed clear checked => simp [clear]
  | skipped blocked => simp [blocked]

end Turns

end Setup

namespace DependencyGraph

variable {g : DependencyGraph} {turns : List (List CheckUnit × Outcome)}
  {x y : List CheckUnit × Outcome} {v : CheckUnit} (hgroups : turns.map Prod.fst = g.components)
include hgroups

theorem turn_mem_components (hx : x ∈ turns) : x.1 ∈ g.components := by
  rw [← hgroups]
  exact List.mem_map_of_mem hx

theorem exists_turn (hv : v ∈ g.vertices) : ∃ x ∈ turns, v ∈ x.1 := by
  obtain ⟨group, hgroup, hmem⟩ := Digraph.exists_component hv
  rw [← hgroups] at hgroup
  obtain ⟨x, hx, rfl⟩ := List.mem_map.mp hgroup
  exact ⟨x, hx, hmem⟩

theorem pairwise_disjoint_turns : turns.Pairwise fun x y => List.Disjoint x.1 y.1 := by
  have hdisjoint := g.pairwise_disjoint_components
  rwa [← hgroups, List.pairwise_map] at hdisjoint

theorem turn_unique (hx : x ∈ turns) (hy : y ∈ turns) (hvx : v ∈ x.1) (hvy : v ∈ y.1) :
    x = y := by
  by_contra hne
  have hsymm : Std.Symm fun x y : List CheckUnit × Outcome => List.Disjoint x.1 y.1 :=
    ⟨fun _ _ hxy => hxy.symm⟩
  exact (pairwise_disjoint_turns hgroups).forall hx hy hne hvx hvy

end DependencyGraph

/-- The components had their turns in order, and each was skipped for an edge to an earlier one
that did not pass. -/
structure Propagates (g : DependencyGraph) (turns : List (List CheckUnit × Outcome)) : Prop where
  groups : turns.map Prod.fst = g.components
  skipped_iff_edge : ∀ earlier x later, turns = earlier ++ x :: later →
    (x.2 = .skipped ↔ ∃ u ∈ x.1, ∃ v, g.Edge u v ∧ v ∉ x.1 ∧
      ∃ y ∈ earlier, y.2 ≠ .passed ∧ v ∈ y.1)

namespace Propagates

variable {g : DependencyGraph} {turns : List (List CheckUnit × Outcome)}
  {x y : List CheckUnit × Outcome} {u v : CheckUnit}

theorem mem_components (h : Propagates g turns) (hx : x ∈ turns) : x.1 ∈ g.components :=
  DependencyGraph.turn_mem_components h.groups hx

theorem exists_turn (h : Propagates g turns) (hv : v ∈ g.vertices) : ∃ x ∈ turns, v ∈ x.1 :=
  DependencyGraph.exists_turn h.groups hv

theorem eq_of_mem (h : Propagates g turns) (hx : x ∈ turns) (hy : y ∈ turns) (hvx : v ∈ x.1)
    (hvy : v ∈ y.1) : x = y :=
  DependencyGraph.turn_unique h.groups hx hy hvx hvy

theorem eq_of_fst_eq (h : Propagates g turns) (hx : x ∈ turns) (hy : y ∈ turns)
    (heq : x.1 = y.1) : x = y := by
  have hne : x.1 ≠ [] := Digraph.component_ne_nil (h.mem_components hx)
  obtain ⟨v, hv⟩ := List.exists_mem_of_ne_nil _ hne
  exact h.eq_of_mem hx hy hv (heq ▸ hv)

theorem path_of_mem (h : Propagates g turns) (hx : x ∈ turns) (hu : u ∈ x.1) (hv : v ∈ x.1) :
    g.Path u v :=
  (Digraph.mem_same_component_iff.mp ⟨x.1, h.mem_components hx, hu, hv⟩).2.1

theorem skipped_of_edge (h : Propagates g turns) (hx : x ∈ turns) (hy : y ∈ turns)
    (hbad : y.2 ≠ .passed) (hne : y ≠ x) (hu : u ∈ x.1) (hv : v ∈ y.1) (huv : g.Edge u v) :
    x.2 = .skipped := by
  obtain ⟨earlier, later, rfl⟩ := List.append_of_mem hx
  have hout : v ∉ x.1 := fun hvx => hne (h.eq_of_mem hy hx hv hvx)
  have hsplit : g.components = (earlier.map Prod.fst ++ [x.1]) ++ later.map Prod.fst := by
    rw [← h.groups]
    simp
  have hreached := Digraph.mem_flatten_of_edge hsplit (by simp [hu]) huv
  rw [List.flatten_append, List.mem_append, List.flatten_singleton] at hreached
  obtain ⟨group, hgroup, hmem⟩ := List.mem_flatten.mp (hreached.resolve_right hout)
  obtain ⟨z, hz, rfl⟩ := List.mem_map.mp hgroup
  have hzy : z = y := h.eq_of_mem (List.mem_append_left _ hz) hy hmem hv
  subst hzy
  exact (h.skipped_iff_edge earlier x later rfl).mpr ⟨u, hu, v, huv, hout, z, hz, hbad, hv⟩

/-- Whatever lies on the way to a component that did not pass is skipped. -/
theorem skipped_of_path (h : Propagates g turns) (hy : y ∈ turns) (hbad : y.2 ≠ .passed)
    (hv : v ∈ y.1) (huv : g.Path u v) (hx : x ∈ turns) (hu : u ∈ x.1) (hne : y ≠ x) :
    x.2 = .skipped := by
  induction huv using Relation.ReflTransGen.head_induction_on generalizing x with
  | refl => exact absurd (h.eq_of_mem hy hx hv hu) hne
  | @head u w huw hwv ih =>
    obtain ⟨z, hz, hw⟩ := h.exists_turn huw.mem_vertices.2
    by_cases hzx : z = x
    · subst hzx
      exact ih hx hw hne
    · have hzbad : z.2 ≠ .passed := by
        by_cases hyz : y = z
        · exact hyz ▸ hbad
        · rw [ih hz hw hyz]
          simp
      exact h.skipped_of_edge hx hz hzbad hzx hu hw huw

/-- The induction is on the number of earlier turns: an edge to a component that was itself skipped
goes on to where that one leads. -/
theorem exists_failed_of_skipped (h : Propagates g turns)
    {earlier later : List (List CheckUnit × Outcome)} (hsplit : turns = earlier ++ x :: later)
    (hskipped : x.2 = .skipped) :
    ∃ u ∈ x.1, ∃ y ∈ turns, (∃ failure, y.2 = .failed failure) ∧
      ∃ v ∈ y.1, Relation.TransGen g.Edge u v := by
  induction hlength : earlier.length using Nat.strong_induction_on generalizing earlier x later with
  | _ n ih =>
    obtain ⟨u, hu, v, huv, -, y, hy, hbad, hv⟩ :=
      (h.skipped_iff_edge earlier x later hsplit).mp hskipped
    have hyturns : y ∈ turns := by
      rw [hsplit]
      exact List.mem_append_left _ hy
    cases houtcome : y.2 with
    | passed => exact absurd houtcome hbad
    | failed failure =>
      exact ⟨u, hu, y, hyturns, ⟨failure, houtcome⟩, v, hv, .single huv⟩
    | skipped =>
      obtain ⟨front, back, hfront⟩ := List.append_of_mem hy
      have hlt : front.length < n := by
        rw [← hlength, hfront, List.length_append, List.length_cons]
        omega
      have hsplit' : turns = front ++ y :: (back ++ x :: later) := by
        rw [hsplit, hfront, List.append_assoc, List.cons_append]
      obtain ⟨u', hu', z, hz, hfailed, w, hw, hpath⟩ := ih _ hlt hsplit' houtcome rfl
      have hinside : g.Path v u' := h.path_of_mem hyturns hv hu'
      exact ⟨u, hu, z, hz, hfailed, w, hw, .head' huv (hinside.trans hpath.to_reflTransGen)⟩

theorem skipped_iff (h : Propagates g turns) (hx : x ∈ turns) :
    x.2 = .skipped ↔ ∃ u ∈ x.1, ∃ y ∈ turns, (∃ failure, y.2 = .failed failure) ∧ y.1 ≠ x.1 ∧
      ∃ v ∈ y.1, Relation.TransGen g.Edge u v := by
  constructor
  · intro hskipped
    obtain ⟨earlier, later, hsplit⟩ := List.append_of_mem hx
    obtain ⟨u, hu, y, hy, hfailed, v, hv, hpath⟩ := h.exists_failed_of_skipped hsplit hskipped
    refine ⟨u, hu, y, hy, hfailed, fun heq => ?_, v, hv, hpath⟩
    obtain ⟨failure, hfailure⟩ := hfailed
    rw [h.eq_of_fst_eq hy hx heq, hskipped] at hfailure
    cases hfailure
  · intro hpath
    obtain ⟨u, hu, y, hy, ⟨failure, hfailed⟩, hne, v, hv, hpath⟩ := hpath
    refine h.skipped_of_path hy ?_ hv hpath.to_reflTransGen hx hu fun heq => hne (heq ▸ rfl)
    rw [hfailed]
    simp

end Propagates

namespace Setup

variable {κ ρ : Type} {c : Setup κ ρ} {s : Session κ ρ} {p : Progress κ ρ}

theorem Turns.propagates {turns : List (List CheckUnit × Outcome)}
    (h : c.Turns true { session := s } turns p)
    (hgroups : turns.map Prod.fst = c.graph.components) : Propagates c.graph turns := by
  refine ⟨hgroups, fun earlier x later hsplit => ?_⟩
  subst hsplit
  exact h.skipped_iff_edge

/-- In a run, every component has exactly one turn. It is skipped if and only if a path leads from
one of its members to another component that failed; all other components are checked. -/
theorem skipped_iff_path_to_failed (h : c.run true s = some p) :
    c.graph.components.Nodup ∧
      ∃ turns : List (List CheckUnit × Outcome), turns.map Prod.fst = c.graph.components ∧
        c.Turns true { session := s } turns p ∧
        p.skipped = (turns.filter fun x => x.2 = .skipped).flatMap Prod.fst ∧
        ∀ x ∈ turns, x.2 = .skipped ↔
          ∃ u ∈ x.1, ∃ y ∈ turns, (∃ failure, y.2 = .failed failure) ∧ y.1 ≠ x.1 ∧
            ∃ v ∈ y.1, Relation.TransGen c.graph.Edge u v := by
  obtain ⟨turns, hgroups, hturns⟩ := turns_of_foldlM h
  refine ⟨c.graph.nodup_components, turns, hgroups, hturns, hturns.skipped_eq, ?_⟩
  intro x hx
  exact (hturns.propagates hgroups).skipped_iff hx

/-- A constant with the given body. -/
def constant (id : DefId) (body : Term) : Decl where
  definition := .fn ⟨id, "c", [], .sort 0, .expr body⟩

/-- The first constant is faulty, the second and the third rest on it, the last does not. -/
def chained : Setup ScopeState Shapes where
  module := .ofDecls [constant ⟨1⟩ (.bound 0), constant ⟨2⟩ (.fnCall ⟨1⟩ 0 []),
    constant ⟨3⟩ (.fnCall ⟨2⟩ 0 []), constant ⟨4⟩ (.sort 0)]
  graph := .ofModule (.ofDecls [constant ⟨1⟩ (.bound 0), constant ⟨2⟩ (.fnCall ⟨1⟩ 0 []),
    constant ⟨3⟩ (.fnCall ⟨2⟩ 0 []), constant ⟨4⟩ (.sort 0)])
  checker := scopeChecker
  learn := Shapes.learn
  stack := 10

theorem skipped_iff_path_to_failed_chained :
    ∃ p, chained.run true { checker := {}, shapes := .empty } = some p ∧
      p.failed = [.body ⟨1⟩] ∧ p.skipped = [.body ⟨2⟩, .body ⟨3⟩] ∧
      chained.graph.components.Nodup ∧
        ∃ turns : List (List CheckUnit × Outcome), turns.map Prod.fst = chained.graph.components ∧
          chained.Turns true { session := { checker := {}, shapes := .empty } } turns p ∧
          p.skipped = (turns.filter fun x => x.2 = .skipped).flatMap Prod.fst ∧
          ∀ x ∈ turns, x.2 = .skipped ↔
            ∃ u ∈ x.1, ∃ y ∈ turns, (∃ failure, y.2 = .failed failure) ∧ y.1 ≠ x.1 ∧
              ∃ v ∈ y.1, Relation.TransGen chained.graph.Edge u v := by
  have hends : (chained.run true { checker := {}, shapes := .empty }).any (fun p =>
      p.failed = [.body ⟨1⟩] ∧ p.skipped = [.body ⟨2⟩, .body ⟨3⟩]) = true := by decide +kernel
  cases hrun : chained.run true { checker := {}, shapes := .empty } with
  | none => simp [hrun] at hends
  | some p =>
    rw [hrun, Option.any_some, decide_eq_true_eq] at hends
    exact ⟨p, rfl, hends.1, hends.2, skipped_iff_path_to_failed hrun⟩

end Setup

end ProofCore
