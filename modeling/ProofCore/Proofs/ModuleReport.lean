import ProofCore.Proofs.Deliveries
import ProofCore.Proofs.Turns

/-!
# The report of a module check

All that the report says can be read off the turns of the components: what is accepted comes from
those that passed, what failed is a part of those that failed, and what was skipped are those that
were skipped. As every unit of a module has its turn in exactly one component, the parts of the
report do not overlap, and if none failed or was skipped then nothing is missing.
-/
namespace ProofCore

open DependencyGraph (ofModule)

/-- The units that a component names if it fails. -/
def Outcome.blamed : Outcome → List CheckUnit
  | .failed failure => failure.units
  | _ => []

namespace Setup

variable {κ ρ : Type} {c : Setup κ ρ} {skipDependents : Bool} {p q : Progress κ ρ}
  {turns : List (List CheckUnit × Outcome)}

namespace Turns

theorem failed_eq (h : c.Turns skipDependents p turns q) :
    q.failed = p.failed ++ turns.flatMap fun x => x.2.blamed := by
  induction h with
  | nil => simp
  | cons turn rest ih =>
    rw [ih]
    cases turn <;> simp [Outcome.blamed]

theorem mem_failed_iff (h : c.Turns skipDependents p turns q) {u : CheckUnit} :
    u ∈ q.failed ↔ u ∈ p.failed ∨ ∃ x ∈ turns, u ∈ x.2.blamed := by
  rw [h.failed_eq, List.mem_append, List.mem_flatMap]

theorem mem_skipped_iff (h : c.Turns skipDependents p turns q) {u : CheckUnit} :
    u ∈ q.skipped ↔ u ∈ p.skipped ∨ ∃ x ∈ turns, x.2 = .skipped ∧ u ∈ x.1 := by
  rw [h.skipped_eq]
  simp [and_assoc]

theorem blameable (h : c.Turns skipDependents p turns q) {x : List CheckUnit × Outcome}
    (hx : x ∈ turns) {failure : Failure} (hfailed : x.2 = .failed failure) :
    c.Blameable x.1 failure.units := by
  induction h with
  | nil => cases hx
  | cons turn rest ih =>
    rcases List.mem_cons.mp hx with rfl | hx
    · cases turn with
      | failed clear checked =>
        cases hfailed
        exact blameable_of_checkComponent_error checked
      | passed clear checked => cases hfailed
      | skipped blocked => cases hfailed
    · exact ih hx

/-- What is accepted are the declarations of the components that passed. -/
theorem accepted_eq (hown : c.checker.ReturnsOwn) (h : c.Turns skipDependents p turns q) :
    q.session.accepted = p.session.accepted ++
      (turns.filter fun x => x.2 = .passed).flatMap fun x =>
        (c.exported x.1).map Decl.definition := by
  induction h with
  | nil => simp
  | cons turn rest ih =>
    rw [ih]
    cases turn with
    | passed clear checked => simp [accepted_of_checkComponent_ok hown checked]
    | failed clear checked =>
      obtain ⟨u, new, rfl, hlearns⟩ := exists_learns_of_checkComponent_error checked
      simp [Session.rollback, hlearns.accepted]
    | skipped blocked => simp [Session.report]

/-- Whatever the checker returns, an accepted definition was returned for a declaration of a
component that passed. -/
theorem exists_of_mem_accepted {P : Decl → Def → Prop} (hP : c.checker.Returns P)
    (h : c.Turns skipDependents p turns q) {f : Def} (hf : f ∈ q.session.accepted) :
    f ∈ p.session.accepted ∨ ∃ x ∈ turns, x.2 = .passed ∧
      ∃ e : Decl, e.id ∈ c.bodyIds x.1 ∧ c.module.get? e.id = some e ∧ P e f := by
  induction h with
  | nil => exact .inl hf
  | cons turn rest ih =>
    rcases ih hf with hf | ⟨x, hx, hpassed, hreturned⟩
    · cases turn with
      | passed clear checked =>
        obtain ⟨pending, hanswers, haccepted⟩ := exists_answers_of_checkComponent_ok hP checked
        rw [haccepted] at hf
        refine (List.mem_append.mp hf).imp_right fun hf => ?_
        obtain ⟨y, hy, rfl⟩ := List.mem_map.mp hf
        replace hy := List.mem_of_mem_filter hy
        have hid := List.mem_map_of_mem (f := fun x : Decl × Def => x.1.id) hy
        rw [hanswers.ids_eq] at hid
        exact ⟨_, List.mem_cons_self, rfl, y.1, hid, hanswers.declared y hy, hanswers.answer y hy⟩
      | failed clear checked =>
        obtain ⟨u, new, rfl, hlearns⟩ := exists_learns_of_checkComponent_error checked
        rw [← hlearns.accepted]
        exact .inl hf
      | skipped blocked => exact .inl hf
    · exact .inr ⟨x, List.mem_cons_of_mem _ hx, hpassed, hreturned⟩

end Turns

/-- The turns of a whole run over the dependency graph of the module, and what is reported of
them. -/
structure Chronicle (c : Setup κ ρ) (turns : List (List CheckUnit × Outcome)) (r : Report) :
    Prop where
  propagates : Propagates (ofModule c.module) turns
  accepted : r.accepted = (turns.filter fun x => x.2 = .passed).flatMap fun x =>
    (c.exported x.1).map Decl.definition
  failed : r.failed = turns.flatMap fun x => x.2.blamed
  skipped : r.skipped = (turns.filter fun x => x.2 = .skipped).flatMap Prod.fst
  exported : ∀ x ∈ turns, c.exported x.1 =
    (c.module.groupDecls x.1).filter fun d => !d.isExample || c.keepExamples
  blamed : ∀ x ∈ turns, x.2.blamed.Sublist x.1
  blamed_ne_nil : ∀ x ∈ turns, ∀ failure, x.2 = .failed failure → failure.units ≠ []

theorem exists_chronicle (hgraph : c.graph = ofModule c.module) (hown : c.checker.ReturnsOwn)
    {s : Session κ ρ} (hs : s.accepted = []) (h : c.run true s = some p) :
    ∃ turns, c.Chronicle turns p.report := by
  obtain ⟨turns, hgroups, hturns⟩ := turns_of_foldlM h
  have hpropagates : Propagates (ofModule c.module) turns := hgraph ▸ hturns.propagates hgroups
  have hstage : ∀ x ∈ turns, ∃ done, Stage c.module done x.1 := by
    intro x hx
    obtain ⟨done, rest, hsplit⟩ := List.append_of_mem (hpropagates.mem_components hx)
    exact ⟨_, stage_of_split hsplit⟩
  refine ⟨turns, hpropagates, ?_, hturns.failed_eq, hturns.skipped_eq, fun x hx => ?_,
    fun x hx => ?_, fun x hx failure hfailed => (hturns.blameable hx hfailed).1⟩
  · have haccepted := hturns.accepted_eq hown
    rwa [hs, List.nil_append] at haccepted
  · obtain ⟨done, stage⟩ := hstage x hx
    exact stage.exported_eq
  · obtain ⟨done, stage⟩ := hstage x hx
    cases houtcome : x.2 with
    | failed failure => exact stage.blamed_sublist (hturns.blameable hx houtcome)
    | passed => exact List.nil_sublist _
    | skipped => exact List.nil_sublist _

namespace Chronicle

variable {r : Report} {d : Def} {u v : CheckUnit} {x y : List CheckUnit × Outcome}
  (h : c.Chronicle turns r)
include h

theorem exists_turn (hu : c.module.contains u.id = true) : ∃ x ∈ turns, u ∈ x.1 :=
  h.propagates.exists_turn (DependencyGraph.mem_vertices_ofModule_iff.mpr hu)

theorem declared (hx : x ∈ turns) (hu : u ∈ x.1) : c.module.contains u.id = true := by
  have hcomponent := Digraph.component_sublist (h.propagates.mem_components hx)
  exact DependencyGraph.mem_vertices_ofModule_iff.mp (hcomponent.subset hu)

theorem mem_exported_iff (hx : x ∈ turns) {e : Decl} :
    e ∈ c.exported x.1 ↔ c.module.get? e.id = some e ∧ .body e.id ∈ x.1 ∧
      (e.isExample = true → c.keepExamples = true) := by
  rw [h.exported x hx, List.mem_filter, Module.mem_groupDecls_iff, and_assoc]
  cases e.isExample <;> simp

/-- An accepted definition is the module's own, and its component passed. -/
theorem exists_of_mem_accepted (hd : d ∈ r.accepted) :
    ∃ e, c.module.get? d.id = some e ∧ e.definition = d ∧
      ∃ x ∈ turns, x.2 = .passed ∧ .body d.id ∈ x.1 := by
  rw [h.accepted, List.mem_flatMap] at hd
  obtain ⟨x, hx, hd⟩ := hd
  obtain ⟨hx, hpassed⟩ := List.mem_filter.mp hx
  obtain ⟨e, he, rfl⟩ := List.mem_map.mp hd
  obtain ⟨hget, hmem, -⟩ := (h.mem_exported_iff hx).mp he
  exact ⟨e, hget, rfl, x, hx, of_decide_eq_true hpassed, hmem⟩

theorem definition_mem_accepted_iff {e : Decl} (he : c.module.get? e.id = some e)
    (hkept : e.isExample = true → c.keepExamples = true) (hx : x ∈ turns)
    (hmem : .body e.id ∈ x.1) : e.definition ∈ r.accepted ↔ x.2 = .passed := by
  constructor
  · intro haccepted
    obtain ⟨-, -, -, y, hy, hpassed, hmem'⟩ := h.exists_of_mem_accepted haccepted
    rwa [h.propagates.eq_of_mem hx hy hmem hmem']
  · intro hpassed
    rw [h.accepted, List.mem_flatMap]
    refine ⟨x, List.mem_filter.mpr ⟨hx, decide_eq_true hpassed⟩, List.mem_map.mpr ⟨e, ?_, rfl⟩⟩
    exact (h.mem_exported_iff hx).mpr ⟨he, hmem, hkept⟩

/-- Components do not overlap, and none has an edge into a later one. -/
theorem pairwise_turns : turns.Pairwise fun x y =>
    List.Disjoint x.1 y.1 ∧ ∀ u ∈ x.1, ∀ v ∈ y.1, ¬ (ofModule c.module).Edge u v := by
  have hdisjoint := (ofModule c.module).pairwise_disjoint_components
  have hedges := (ofModule c.module).pairwise_edge_components
  rw [← h.propagates.groups, List.pairwise_map] at hdisjoint hedges
  exact hdisjoint.and hedges

/-- No two accepted definitions have the same id, and one that refers to a later one is in a cycle
with it. -/
theorem pairwise_accepted : r.accepted.Pairwise fun a b => a.id ≠ b.id ∧
    ((ofModule c.module).Edge (.body a.id) (.body b.id) →
      (ofModule c.module).Mutual (.body a.id) (.body b.id)) := by
  rw [h.accepted, List.pairwise_flatMap]
  constructor
  · intro x hx
    replace hx := List.mem_of_mem_filter hx
    have hnodup : ((c.exported x.1).map Decl.id).Nodup := by
      rw [h.exported x hx]
      exact (c.module.nodup_groupDecls x.1).sublist (List.filter_sublist.map Decl.id)
    rw [List.Nodup, List.pairwise_map] at hnodup
    rw [List.pairwise_map]
    refine hnodup.imp_of_mem fun {a b} ha hb hne => ⟨hne, fun _ => ?_⟩
    have hmem := fun e (he : e ∈ c.exported x.1) => ((h.mem_exported_iff hx).mp he).2.1
    exact ⟨h.propagates.path_of_mem hx (hmem a ha) (hmem b hb),
      h.propagates.path_of_mem hx (hmem b hb) (hmem a ha)⟩
  · refine (h.pairwise_turns.sublist List.filter_sublist).imp_of_mem ?_
    intro x y hx hy hxy d hd d' hd'
    obtain ⟨a, ha, rfl⟩ := List.mem_map.mp hd
    obtain ⟨b, hb, rfl⟩ := List.mem_map.mp hd'
    have hax := ((h.mem_exported_iff (List.mem_of_mem_filter hx)).mp ha).2.1
    have hby := ((h.mem_exported_iff (List.mem_of_mem_filter hy)).mp hb).2.1
    refine ⟨fun heq => hxy.1 hax ?_, fun hedge => absurd hedge (hxy.2 _ hax _ hby)⟩
    have hid : a.id = b.id := heq
    rwa [hid]

theorem nodup_ids_accepted : (r.accepted.map Def.id).Nodup := by
  rw [List.Nodup, List.pairwise_map]
  exact h.pairwise_accepted.imp And.left

theorem nodup_flatten : (turns.flatMap Prod.fst).Nodup := by
  rw [List.flatMap_def, h.propagates.groups]
  exact (ofModule c.module).perm_flatten_components.nodup_iff.mpr (ofModule c.module).nodup_vertices

theorem nodup_failed : r.failed.Nodup := by
  rw [h.failed]
  exact h.nodup_flatten.sublist (List.Sublist.flatMap_right turns h.blamed)

theorem nodup_skipped : r.skipped.Nodup := by
  rw [h.skipped]
  exact h.nodup_flatten.sublist (List.filter_sublist.flatMap Prod.fst)

theorem exists_of_mem_failed (hu : u ∈ r.failed) :
    ∃ x ∈ turns, u ∈ x.1 ∧ ∃ failure, x.2 = .failed failure := by
  rw [h.failed, List.mem_flatMap] at hu
  obtain ⟨x, hx, hu⟩ := hu
  refine ⟨x, hx, (h.blamed x hx).subset hu, ?_⟩
  cases houtcome : x.2 with
  | failed failure => exact ⟨failure, rfl⟩
  | passed => simp [houtcome, Outcome.blamed] at hu
  | skipped => simp [houtcome, Outcome.blamed] at hu

theorem mem_skipped_iff : u ∈ r.skipped ↔ ∃ x ∈ turns, u ∈ x.1 ∧ x.2 = .skipped := by
  rw [h.skipped]
  simp only [List.mem_flatMap, List.mem_filter, decide_eq_true_eq]
  exact exists_congr fun x => by tauto

theorem disjoint_failed_skipped : r.failed.Disjoint r.skipped := by
  intro u hfailed hskipped
  obtain ⟨x, hx, hux, failure, houtcome⟩ := h.exists_of_mem_failed hfailed
  obtain ⟨y, hy, huy, hskip⟩ := h.mem_skipped_iff.mp hskipped
  rw [h.propagates.eq_of_mem hx hy hux huy, hskip] at houtcome
  cases houtcome

/-- A component that passed has no part in what failed or was skipped. -/
theorem notMem_of_passed (hx : x ∈ turns) (hpassed : x.2 = .passed) (hu : u ∈ x.1) :
    u ∉ r.failed ∧ u ∉ r.skipped := by
  constructor
  · intro hfailed
    obtain ⟨y, hy, huy, failure, houtcome⟩ := h.exists_of_mem_failed hfailed
    rw [← h.propagates.eq_of_mem hx hy hu huy, hpassed] at houtcome
    cases houtcome
  · intro hskipped
    obtain ⟨y, hy, huy, houtcome⟩ := h.mem_skipped_iff.mp hskipped
    rw [← h.propagates.eq_of_mem hx hy hu huy, hpassed] at houtcome
    cases houtcome

/-- A component that did not pass has a unit among those that failed or were skipped. -/
theorem exists_mem_of_not_passed (hx : x ∈ turns) (hbad : x.2 ≠ .passed) :
    ∃ u ∈ x.1, u ∈ r.failed ∨ u ∈ r.skipped := by
  cases houtcome : x.2 with
  | passed => exact absurd houtcome hbad
  | failed failure =>
    obtain ⟨u, hu⟩ := List.exists_mem_of_ne_nil _ (h.blamed_ne_nil x hx failure houtcome)
    have hblamed : u ∈ x.2.blamed := by rwa [houtcome]
    refine ⟨u, (h.blamed x hx).subset hblamed, .inl ?_⟩
    rw [h.failed, List.mem_flatMap]
    exact ⟨x, hx, hblamed⟩
  | skipped =>
    have hne := Digraph.component_ne_nil (h.propagates.mem_components hx)
    obtain ⟨u, hu⟩ := List.exists_mem_of_ne_nil _ hne
    exact ⟨u, hu, .inr (h.mem_skipped_iff.mpr ⟨x, hx, hu, houtcome⟩)⟩

theorem isSuccess_iff : r.isSuccess = true ↔ ∀ x ∈ turns, x.2 = .passed := by
  rw [Report.isSuccess, Bool.and_eq_true, List.isEmpty_iff, List.isEmpty_iff]
  constructor
  · intro hnone x hx
    by_contra hbad
    obtain ⟨u, -, hu⟩ := h.exists_mem_of_not_passed hx hbad
    simp [hnone.1, hnone.2] at hu
  · intro hall
    rw [List.eq_nil_iff_forall_not_mem, List.eq_nil_iff_forall_not_mem]
    constructor
    · intro u hfailed
      obtain ⟨x, hx, hu, -⟩ := h.exists_of_mem_failed hfailed
      exact (h.notMem_of_passed hx (hall x hx) hu).1 hfailed
    · intro u hskipped
      obtain ⟨x, hx, hu, -⟩ := h.mem_skipped_iff.mp hskipped
      exact (h.notMem_of_passed hx (hall x hx) hu).2 hskipped

/-- What a component that passed depends on has passed as well. -/
theorem passed_of_edge (hx : x ∈ turns) (hpassed : x.2 = .passed) (hu : u ∈ x.1)
    (huv : (ofModule c.module).Edge u v) (hy : y ∈ turns) (hv : v ∈ y.1) : y.2 = .passed := by
  by_contra hbad
  have hne : y ≠ x := fun heq => hbad (heq ▸ hpassed)
  have hskipped := h.propagates.skipped_of_edge hx hy hbad hne hu hv huv
  rw [hpassed] at hskipped
  cases hskipped

theorem passed_of_path (hx : x ∈ turns) (hpassed : x.2 = .passed) (hu : u ∈ x.1)
    (huv : (ofModule c.module).Path u v) (hy : y ∈ turns) (hv : v ∈ y.1) : y.2 = .passed := by
  induction huv generalizing y with
  | refl => rwa [← h.propagates.eq_of_mem hx hy hu hv]
  | tail _ hedge ih =>
    obtain ⟨z, hz, hmem⟩ := h.propagates.exists_turn hedge.mem_vertices.1
    exact h.passed_of_edge hz (ih hz hmem) hmem hedge hy hv

/-- If the bodies of all declarations passed, then all components did: a signature is needed by
the body of its declaration. -/
theorem passed_of_bodies (hbodies : ∀ e ∈ c.module.decls, ∃ x ∈ turns, x.2 = .passed ∧
    .body e.id ∈ x.1) (hy : y ∈ turns) : y.2 = .passed := by
  obtain ⟨u, hu⟩ := List.exists_mem_of_ne_nil _
    (Digraph.component_ne_nil (h.propagates.mem_components hy))
  obtain ⟨e, he⟩ := Module.contains_iff.mp (h.declared hy hu)
  have hid := Module.id_of_get? he
  rw [← hid] at he
  obtain ⟨x, hx, hpassed, hmem⟩ := hbodies e (Module.mem_decls_iff.mpr he)
  cases u with
  | body id =>
    cases hid
    rwa [← h.propagates.eq_of_mem hx hy hmem hu]
  | head id =>
    cases hid
    have hedge := DependencyGraph.edge_signature (Module.contains_iff.mpr ⟨e, he⟩)
    exact h.passed_of_edge hx hpassed hmem hedge hy hu

/-- With examples kept, success means that all definitions of the module were accepted. -/
theorem isSuccess_iff_perm (hkeep : c.keepExamples = true) :
    r.isSuccess = true ↔ r.accepted.Perm (c.module.decls.map Decl.definition) := by
  rw [h.isSuccess_iff]
  have haccepted : ∀ e ∈ c.module.decls, ∀ x ∈ turns, .body e.id ∈ x.1 →
      (e.definition ∈ r.accepted ↔ x.2 = .passed) := fun e he x hx hmem =>
    h.definition_mem_accepted_iff (Module.mem_decls_iff.mp he) (fun _ => hkeep) hx hmem
  have hturn : ∀ e ∈ c.module.decls, ∃ x ∈ turns, .body e.id ∈ x.1 := fun e he =>
    h.exists_turn (u := .body e.id) (Module.contains_iff.mpr ⟨e, Module.mem_decls_iff.mp he⟩)
  constructor
  · intro hall
    have hnodup : r.accepted.Nodup := h.nodup_ids_accepted.of_map
    have hnodup' : (c.module.decls.map Decl.definition).Nodup := by
      refine List.Nodup.of_map Def.id ?_
      rw [List.map_map]
      exact c.module.nodup_ids
    rw [List.perm_ext_iff_of_nodup hnodup hnodup']
    intro d
    rw [List.mem_map]
    constructor
    · intro hd
      obtain ⟨e, he, rfl, -⟩ := h.exists_of_mem_accepted hd
      exact ⟨e, Module.mem_decls_iff.mpr he, rfl⟩
    · intro hd
      obtain ⟨e, he, rfl⟩ := hd
      obtain ⟨x, hx, hmem⟩ := hturn e he
      exact (haccepted e he x hx hmem).mpr (hall x hx)
  · intro hperm x hx
    refine h.passed_of_bodies (fun e he => ?_) hx
    obtain ⟨y, hy, hmem⟩ := hturn e he
    have hdefinition : e.definition ∈ r.accepted :=
      hperm.mem_iff.mpr (List.mem_map_of_mem he)
    exact ⟨y, hy, (haccepted e he y hy hmem).mp hdefinition, hmem⟩

end Chronicle

end Setup

namespace Module

/-- The report of a check that keeps examples is consistent: each accepted definition is the
module's own and listed once, what failed and what was skipped are listed once and do not overlap
with each other or with what was accepted, and nothing failed or was skipped if and only if all
definitions of the module were accepted. -/
theorem report_consistent (m : Module) {ρ : Type} (learn : ρ → Def → ρ) (stack : ℕ) (shapes : ρ)
    (env : Env) {p : Progress ScopeState ρ}
    (h : Setup.run ⟨m, ofModule m, scopeChecker, learn, true, stack⟩ true
      { checker := .ofModule m, shapes := shapes, env := env } = some p) :
    (p.report.accepted.map Def.id).Nodup ∧
      (∀ d ∈ p.report.accepted, ∃ e, m.get? d.id = some e ∧ e.definition = d) ∧
      p.report.failed.Nodup ∧ p.report.skipped.Nodup ∧
      p.report.failed.Disjoint p.report.skipped ∧
      (∀ d ∈ p.report.accepted,
        .body d.id ∉ p.report.failed ∧ .body d.id ∉ p.report.skipped) ∧
      (p.report.isSuccess = true ↔ p.report.accepted.Perm (m.decls.map Decl.definition)) := by
  obtain ⟨turns, hturns⟩ := Setup.exists_chronicle rfl returnsOwn_scopeChecker rfl h
  refine ⟨hturns.nodup_ids_accepted, fun d hd => ?_, hturns.nodup_failed, hturns.nodup_skipped,
    hturns.disjoint_failed_skipped, fun d hd => ?_, hturns.isSuccess_iff_perm rfl⟩
  · obtain ⟨e, he, hdefinition, -⟩ := hturns.exists_of_mem_accepted hd
    exact ⟨e, he, hdefinition⟩
  · obtain ⟨-, -, -, x, hx, hpassed, hmem⟩ := hturns.exists_of_mem_accepted hd
    exact hturns.notMem_of_passed hx hpassed hmem

/-- An example, a faulty constant, a constant that rests on the faulty one, and a good one. -/
def mixed : Module :=
  ofDecls [{ Setup.constant ⟨1⟩ (.sort 0) with isExample := true },
    Setup.constant ⟨2⟩ (.bound 0), Setup.constant ⟨3⟩ (.fnCall ⟨2⟩ 0 []),
    Setup.constant ⟨4⟩ (.fnCall ⟨1⟩ 0 [])]

theorem report_consistent_mixed :
    ∃ p, Setup.run ⟨mixed, ofModule mixed, scopeChecker, Shapes.learn, true, 10⟩ true
        { checker := .ofModule mixed, shapes := .empty, env := {} } = some p ∧
      p.report.accepted.map Def.id = [⟨1⟩, ⟨4⟩] ∧ p.report.failed = [.body ⟨2⟩] ∧
      p.report.skipped = [.body ⟨3⟩] ∧
      (p.report.accepted.map Def.id).Nodup ∧
      (∀ d ∈ p.report.accepted, ∃ e, mixed.get? d.id = some e ∧ e.definition = d) ∧
      p.report.failed.Nodup ∧ p.report.skipped.Nodup ∧
      p.report.failed.Disjoint p.report.skipped ∧
      (∀ d ∈ p.report.accepted,
        .body d.id ∉ p.report.failed ∧ .body d.id ∉ p.report.skipped) ∧
      (p.report.isSuccess = true ↔
        p.report.accepted.Perm (mixed.decls.map Decl.definition)) := by
  have hends : (Setup.run ⟨mixed, ofModule mixed, scopeChecker, Shapes.learn, true, 10⟩ true
      { checker := .ofModule mixed, shapes := .empty, env := {} }).any (fun p =>
        p.report.accepted.map Def.id = [⟨1⟩, ⟨4⟩] ∧ p.report.failed = [.body ⟨2⟩] ∧
          p.report.skipped = [.body ⟨3⟩]) = true := by decide +kernel
  obtain ⟨p, hrun, hp⟩ := (Option.any_eq_true _ _).mp hends
  obtain ⟨haccepted, hfailed, hskipped⟩ := of_decide_eq_true hp
  exact ⟨p, hrun, haccepted, hfailed, hskipped,
    report_consistent mixed Shapes.learn 10 .empty {} hrun⟩

end Module

end ProofCore
