import ProofCore.Proofs.Grounding

/-!
# How often a declaration is reported

A declaration of a module is accepted, or its body is skipped, or its component names a member that
failed; just one of these. The member that failed need not be the declaration itself, so that it may
be missing from the report.

If the graph is not that of the module, then a component may have signatures and bodies. With
several members it is about the bodies of all of them, also of those whose signature alone belongs
to it. So a declaration can be accepted twice: once with its signature and once with its body.
-/
namespace ProofCore

open DependencyGraph (ofModule)

namespace Module

variable {m : Module} {fuel stack : ℕ} {p : Progress ScopeState Shapes}

/-- Two constants that rest on each other, of which the first has a variable that escapes. -/
def leaning : Module :=
  ofDecls [Setup.constant ⟨1⟩ (.app (.fnCall ⟨2⟩ 0 []) (.bound 0)),
    Setup.constant ⟨2⟩ (.fnCall ⟨1⟩ 0 [])]

theorem check_leaning : ∃ p, leaning.check 4096 10 = some p ∧ p.report.accepted = [] ∧
    p.report.failed = [.body ⟨1⟩] ∧ p.report.skipped = [] := by
  have hends : (leaning.check 4096 10).any (fun p => p.report.accepted.isEmpty ∧
      p.report.failed = [.body ⟨1⟩] ∧ p.report.skipped = []) = true := by decide +kernel
  obtain ⟨p, hcheck, hp⟩ := (Option.any_eq_true _ _).mp hends
  obtain ⟨haccepted, hfailed, hskipped⟩ := of_decide_eq_true hp
  exact ⟨p, hcheck, List.isEmpty_iff.mp haccepted, hfailed, hskipped⟩

/-- The body of the second constant is good by itself, and the report does not name it. -/
theorem exists_unreported :
    ¬ ∀ (m : Module) (fuel stack : ℕ) (p : Progress ScopeState Shapes),
      m.check fuel stack = some p → ∀ d, m.get? d.id = some d → d.isExample = false →
        d.definition ∈ p.report.accepted ∨ .body d.id ∈ p.report.failed ∨
          .body d.id ∈ p.report.skipped := by
  intro hcovers
  obtain ⟨p, hcheck, haccepted, hfailed, hskipped⟩ := check_leaning
  have hreported := hcovers leaning 4096 10 p hcheck (Setup.constant ⟨2⟩ (.fnCall ⟨1⟩ 0 [])) rfl rfl
  rw [haccepted, hfailed, hskipped] at hreported
  revert hreported
  decide

/-- A declaration that is no example is accepted, or its body is skipped, or a body failed that
depends on it and on which it depends. No two of these hold together. -/
theorem report_covers (h : m.check fuel stack = some p) {d : Decl} (hd : m.get? d.id = some d)
    (hexample : d.isExample = false) :
    (d.definition ∈ p.report.accepted ∧ .body d.id ∉ p.report.skipped ∧
        ¬ ∃ e, (ofModule m).Mutual (.body d.id) (.body e) ∧ .body e ∈ p.report.failed) ∨
      (d.definition ∉ p.report.accepted ∧ .body d.id ∈ p.report.skipped ∧
        ¬ ∃ e, (ofModule m).Mutual (.body d.id) (.body e) ∧ .body e ∈ p.report.failed) ∨
      (d.definition ∉ p.report.accepted ∧ .body d.id ∉ p.report.skipped ∧
        ∃ e, (ofModule m).Mutual (.body d.id) (.body e) ∧ .body e ∈ p.report.failed) := by
  obtain ⟨turns, hturns⟩ := exists_chronicle h
  obtain ⟨x, hx, hmem⟩ :=
    hturns.exists_turn (u := .body d.id) (contains_iff.mpr ⟨d, hd⟩)
  have hcomponent : ∀ v, v ∈ x.1 ↔ (ofModule m).Mutual (.body d.id) v := fun v =>
    Digraph.mem_component_iff (hturns.propagates.mem_components hx) hmem
  have haccepted : d.definition ∈ p.report.accepted ↔ x.2 = .passed :=
    hturns.definition_mem_accepted_iff hd (by simp [hexample]) hx hmem
  have hskipped : ∀ v ∈ x.1, v ∈ p.report.skipped ↔ x.2 = .skipped := by
    intro v hv
    rw [hturns.mem_skipped_iff]
    refine ⟨fun ⟨y, hy, hvy, hskip⟩ => ?_, fun hskip => ⟨x, hx, hv, hskip⟩⟩
    rwa [hturns.propagates.eq_of_mem hx hy hv hvy]
  rw [haccepted, hskipped _ hmem]
  cases houtcome : x.2 with
  | passed =>
    refine .inl ⟨rfl, by simp, fun ⟨e, hmutual, hfailed⟩ => ?_⟩
    exact (hturns.notMem_of_passed hx houtcome ((hcomponent _).mpr hmutual)).1 hfailed
  | skipped =>
    refine .inr (.inl ⟨by simp, rfl, fun ⟨e, hmutual, hfailed⟩ => ?_⟩)
    exact hturns.disjoint_failed_skipped hfailed
      ((hskipped _ ((hcomponent _).mpr hmutual)).mpr houtcome)
  | failed failure =>
    obtain ⟨u, hu, hreported⟩ := hturns.exists_mem_of_not_passed hx (by simp [houtcome])
    have hfailed : u ∈ p.report.failed := hreported.resolve_right fun hskip => by
      simp [(hskipped u hu).mp hskip] at houtcome
    have hmutual := (hcomponent u).mp hu
    refine .inr (.inr ⟨by simp, by simp, ?_⟩)
    cases u with
    | head e => cases DependencyGraph.isHead_eq_of_mutual hmutual
    | body e => exact ⟨e, hmutual, hfailed⟩

theorem report_covers_leaning :
    ∃ p, leaning.check 4096 10 = some p ∧ .body ⟨2⟩ ∉ p.report.failed ∧
      (Setup.constant ⟨2⟩ (.fnCall ⟨1⟩ 0 [])).definition ∉ p.report.accepted ∧
        .body ⟨2⟩ ∉ p.report.skipped ∧
        ∃ e, (ofModule leaning).Mutual (.body ⟨2⟩) (.body e) ∧ .body e ∈ p.report.failed := by
  obtain ⟨p, hcheck, haccepted, hfailed, hskipped⟩ := check_leaning
  refine ⟨p, hcheck, by simp [hfailed], ?_⟩
  have hcovers :=
    report_covers hcheck (d := Setup.constant ⟨2⟩ (.fnCall ⟨1⟩ 0 [])) rfl rfl
  rw [haccepted, hskipped] at hcovers ⊢
  rcases hcovers with ⟨hmem, -⟩ | ⟨-, hmem, -⟩ | hcovers
  · cases hmem
  · cases hmem
  · exact hcovers

end Module

namespace Setup

variable {κ ρ : Type} {c : Setup κ ρ} {group : List CheckUnit} {id : DefId}

theorem mem_exported_iff {e : Decl} : e ∈ c.exported group ↔
    c.module.get? e.id = some e ∧ e.id ∈ c.bodyIds group ∧
      (e.isExample = true → c.keepExamples = true) := by
  have hkept : (!e.isExample || c.keepExamples) = true ↔
      (e.isExample = true → c.keepExamples = true) := by
    cases e.isExample <;> simp
  rw [exported, List.mem_filter, List.mem_filterMap, hkept]
  constructor
  · rintro ⟨⟨id, hid, he⟩, hkeep⟩
    cases Module.id_of_get? he
    exact ⟨he, hid, hkeep⟩
  · rintro ⟨he, hid, hkeep⟩
    exact ⟨⟨e.id, hid, he⟩, hkeep⟩

theorem nodup_exported (c : Setup κ ρ) (group : List CheckUnit) :
    ((c.exported group).map Decl.id).Nodup := by
  have hdecls : (((c.bodyIds group).filterMap c.module.get?).map Decl.id).Nodup := by
    rw [List.map_filterMap]
    refine (c.nodup_bodyIds group).filterMap fun a b id ha hb => ?_
    obtain ⟨d, hd, rfl⟩ := Option.map_eq_some_iff.mp ha
    obtain ⟨e, he, heq⟩ := Option.map_eq_some_iff.mp hb
    rw [← Module.id_of_get? hd, ← Module.id_of_get? he, heq]
  exact hdecls.sublist (List.filter_sublist.map Decl.id)

/-- The turn accepts the declaration `id`, if it is not an example that is left out. -/
def Accepts (id : DefId) (x : List CheckUnit × Outcome) : Prop :=
  x.2 = .passed ∧ (.body id ∈ x.1 ∨ .head id ∈ x.1 ∧ 2 ≤ x.1.length)

instance (id : DefId) : DecidablePred (Accepts id) := fun x =>
  inferInstanceAs (Decidable (x.2 = .passed ∧ (.body id ∈ x.1 ∨ .head id ∈ x.1 ∧ 2 ≤ x.1.length)))

variable {skipDependents : Bool} {s : Session κ ρ} {p q : Progress κ ρ} {d : Decl}
  {turns : List (List CheckUnit × Outcome)}

theorem count_exported (hd : c.module.get? d.id = some d)
    (hkept : d.isExample = true → c.keepExamples = true)
    (hheads : (group.filter CheckUnit.isHead).length < 2) :
    ((c.exported group).map Decl.id).count d.id =
      if Accepts d.id (group, .passed) then 1 else 0 := by
  rw [(c.nodup_exported group).count]
  refine if_congr ?_ rfl rfl
  rw [Accepts, ← mem_bodyIds_iff (c := c) hheads, List.mem_map]
  constructor
  · rintro ⟨e, he, hid⟩
    exact ⟨rfl, hid ▸ (mem_exported_iff.mp he).2.1⟩
  · rintro ⟨-, hid⟩
    exact ⟨d, mem_exported_iff.mpr ⟨hd, hid, hkept⟩, rfl⟩

theorem Turns.count_accepted (hown : c.checker.ReturnsOwn) (hd : c.module.get? d.id = some d)
    (hkept : d.isExample = true → c.keepExamples = true)
    (h : c.Turns skipDependents p turns q) :
    (q.session.accepted.map Def.id).count d.id =
      (p.session.accepted.map Def.id).count d.id + turns.countP (Accepts d.id) := by
  induction h with
  | nil => simp
  | @cons p q r group outcome later turn rest ih =>
    rw [ih, List.countP_cons]
    cases turn with
    | @passed s clear checked =>
      -- With several signatures the component would have failed.
      have hheads : (group.filter CheckUnit.isHead).length < 2 := by
        by_contra hheads
        obtain ⟨t, hfails⟩ := checkComponent_of_heads (Nat.not_lt.mp hheads) p.session
        cases hfails.symm.trans checked
      have hcount : (s.accepted.map Def.id).count d.id =
          (p.session.accepted.map Def.id).count d.id +
            if Accepts d.id (group, .passed) then 1 else 0 := by
        rw [accepted_of_checkComponent_ok hown checked, List.map_append, List.count_append,
          List.map_map]
        exact congrArg _ (count_exported hd hkept hheads)
      simp only [hcount, decide_eq_true_eq]
      omega
    | failed clear checked =>
      obtain ⟨u, new, rfl, hlearns⟩ := exists_learns_of_checkComponent_error checked
      simp [Session.rollback, hlearns.accepted, Accepts]
    | skipped blocked => simp [Session.report, Accepts]

/-- An example that is left out is not accepted. -/
theorem Turns.kept_of_mem_accepted (hown : c.checker.ReturnsOwn) (hs : s.accepted = [])
    (hd : c.module.get? d.id = some d) (h : c.Turns skipDependents { session := s } turns q)
    (hmem : d.id ∈ q.session.accepted.map Def.id) :
    d.isExample = true → c.keepExamples = true := by
  rw [h.accepted_eq hown, hs, List.nil_append] at hmem
  obtain ⟨f, hf, hid⟩ := List.mem_map.mp hmem
  obtain ⟨x, -, hf⟩ := List.mem_flatMap.mp hf
  obtain ⟨e, he, rfl⟩ := List.mem_map.mp hf
  obtain ⟨hget, -, hkept⟩ := mem_exported_iff.mp he
  have heq : e.id = d.id := hid
  rw [heq, hd] at hget
  cases hget
  exact hkept

section Components

variable (h : c.Turns skipDependents { session := s } turns q)
  (hgroups : turns.map Prod.fst = c.graph.components)
include hgroups

theorem countP_turns_le_one {u : CheckUnit} {P : List CheckUnit × Outcome → Bool}
    (hP : ∀ x, P x = true → u ∈ x.1) : turns.countP P ≤ 1 := by
  have hdisjoint := (DependencyGraph.pairwise_disjoint_turns hgroups).filter P
  have hmem : ∀ x ∈ turns.filter P, u ∈ x.1 := fun x hx => hP x (List.mem_filter.mp hx).2
  rw [List.countP_eq_length_filter]
  generalize turns.filter P = found at hdisjoint hmem
  rcases found with _ | ⟨x, _ | ⟨y, rest⟩⟩
  · simp
  · simp
  · have hxy : List.Disjoint x.1 y.1 := List.rel_of_pairwise_cons hdisjoint (by simp)
    exact absurd (hmem y (by simp)) (hxy (hmem x (by simp)))

/-- The body has its turn in one component and the signature in one. -/
theorem countP_accepts (id : DefId) : turns.countP (Accepts id) ≤ 2 ∧
    (turns.countP (Accepts id) = 2 ↔ (∃ x ∈ turns, Accepts id x ∧ .body id ∈ x.1) ∧
      ∃ x ∈ turns, Accepts id x ∧ .body id ∉ x.1) := by
  -- A turn without the body accepts by the signature, so each of the two kinds occurs once at most.
  have hsplit := List.countP_eq_countP_filter_add turns (fun x => decide (Accepts id x))
    fun x => decide (.body id ∈ x.1)
  rw [List.countP_filter, List.countP_filter] at hsplit
  have hbody := countP_turns_le_one hgroups (u := .body id)
    (P := fun x => decide (Accepts id x) && decide (.body id ∈ x.1)) fun x hx => by
      rw [Bool.and_eq_true, decide_eq_true_eq, decide_eq_true_eq] at hx
      exact hx.2
  have hhead := countP_turns_le_one hgroups (u := .head id)
    (P := fun x => decide (Accepts id x) && !decide (.body id ∈ x.1)) fun x hx => by
      rw [Bool.and_eq_true, decide_eq_true_eq, Bool.not_eq_true', decide_eq_false_iff_not] at hx
      exact (hx.1.2.resolve_left hx.2).1
  have hbodies := List.countP_pos_iff (l := turns)
    (p := fun x => decide (Accepts id x) && decide (.body id ∈ x.1))
  have hheads := List.countP_pos_iff (l := turns)
    (p := fun x => decide (Accepts id x) && !decide (.body id ∈ x.1))
  simp only [Bool.and_eq_true, decide_eq_true_eq, Bool.not_eq_true', decide_eq_false_iff_not]
    at hbodies hheads
  rw [← hbodies, ← hheads]
  omega

include h

theorem Turns.passed_iff {x : List CheckUnit × Outcome} (hx : x ∈ turns) {u : CheckUnit}
    (hu : u ∈ x.1) : x.2 = .passed ↔ u ∉ q.poisoned := by
  rw [h.mem_poisoned_iff]
  constructor
  · rintro hpassed (hold | ⟨y, hy, hbad, huy⟩)
    · cases hold
    · rw [← DependencyGraph.turn_unique hgroups hx hy hu huy] at hbad
      exact hbad hpassed
  · intro hclear
    by_contra hbad
    exact hclear (.inr ⟨x, hx, hbad, hu⟩)

/-- The turn of the body accepts the declaration if it passes. -/
theorem Turns.exists_accepts_body_iff :
    (∃ x ∈ turns, Accepts id x ∧ .body id ∈ x.1) ↔
      .body id ∈ c.graph.vertices ∧ .body id ∉ q.poisoned := by
  constructor
  · rintro ⟨x, hx, ⟨hpassed, -⟩, hmem⟩
    have hcomponent := DependencyGraph.turn_mem_components hgroups hx
    exact ⟨(Digraph.component_sublist hcomponent).subset hmem,
      (h.passed_iff hgroups hx hmem).mp hpassed⟩
  · rintro ⟨hvertex, hclear⟩
    obtain ⟨x, hx, hmem⟩ := DependencyGraph.exists_turn hgroups hvertex
    exact ⟨x, hx, ⟨(h.passed_iff hgroups hx hmem).mpr hclear, .inl hmem⟩, hmem⟩

/-- Another turn accepts it if the signature is in a component with others. -/
theorem Turns.exists_accepts_head_iff :
    (∃ x ∈ turns, Accepts id x ∧ .body id ∉ x.1) ↔
      .head id ∉ q.poisoned ∧ ¬ c.graph.Mutual (.head id) (.body id) ∧
        ∃ u, u ≠ .head id ∧ c.graph.Mutual (.head id) u := by
  constructor
  · rintro ⟨x, hx, ⟨hpassed, hmem⟩, hbody⟩
    obtain ⟨hhead, hlength⟩ := hmem.resolve_left hbody
    have hcomponent := DependencyGraph.turn_mem_components hgroups hx
    have hmutual : ∀ v, v ∈ x.1 ↔ c.graph.Mutual (.head id) v := fun v =>
      Digraph.mem_component_iff hcomponent hhead
    obtain ⟨u, hu, hne⟩ := Digraph.exists_ne_of_component hcomponent hlength (.head id)
    exact ⟨(h.passed_iff hgroups hx hhead).mp hpassed, fun hm => hbody ((hmutual _).mpr hm),
      u, hne.symm, (hmutual u).mp hu⟩
  · rintro ⟨hclear, hapart, u, hne, hu⟩
    have hvertex : .head id ∈ c.graph.vertices := by
      obtain heq | ⟨v, hedge, -⟩ := hu.1.cases_head
      · exact absurd heq.symm hne
      · exact hedge.mem_vertices.1
    obtain ⟨x, hx, hhead⟩ := DependencyGraph.exists_turn hgroups hvertex
    have hmutual : ∀ v, v ∈ x.1 ↔ c.graph.Mutual (.head id) v := fun v =>
      Digraph.mem_component_iff (DependencyGraph.turn_mem_components hgroups hx) hhead
    have hlength : 2 ≤ x.1.length := by
      by_contra hshort
      have hone : x.1.length = 1 := by
        have := List.length_pos_of_mem hhead
        omega
      obtain ⟨v, hv⟩ := List.length_eq_one_iff.mp hone
      have humem := (hmutual u).mpr hu
      rw [hv, List.mem_singleton] at humem hhead
      exact hne (humem.trans hhead.symm)
    exact ⟨x, hx, ⟨(h.passed_iff hgroups hx hhead).mpr hclear, .inr ⟨hhead, hlength⟩⟩,
      fun hbody => hapart ((hmutual _).mp hbody)⟩

end Components

/-- Whatever the graph, no declaration is accepted more than twice. It is accepted twice if and only
if it is not an example that is left out, its signature and its body passed, and the signature is in
a component with other units, but not with the body. -/
theorem accepted_twice_iff (hown : c.checker.ReturnsOwn) (hs : s.accepted = [])
    (h : c.run skipDependents s = some p) (hd : c.module.get? d.id = some d) :
    (p.report.accepted.map Def.id).count d.id ≤ 2 ∧
      ((p.report.accepted.map Def.id).count d.id = 2 ↔
        (d.isExample = true → c.keepExamples = true) ∧
        (.body d.id ∈ c.graph.vertices ∧ .body d.id ∉ p.poisoned) ∧
        .head d.id ∉ p.poisoned ∧ ¬ c.graph.Mutual (.head d.id) (.body d.id) ∧
          ∃ u, u ≠ .head d.id ∧ c.graph.Mutual (.head d.id) u) := by
  obtain ⟨turns, hgroups, hturns⟩ := turns_of_foldlM h
  by_cases hkept : d.isExample = true → c.keepExamples = true
  · have hcount : (p.report.accepted.map Def.id).count d.id = turns.countP (Accepts d.id) := by
      have hall := hturns.count_accepted hown hd hkept
      rwa [hs, List.map_nil, List.count_nil, Nat.zero_add] at hall
    obtain ⟨hle, hiff⟩ := countP_accepts hgroups d.id
    rw [hcount, hiff, hturns.exists_accepts_body_iff hgroups,
      hturns.exists_accepts_head_iff hgroups]
    exact ⟨hle, fun hturn => ⟨hkept, hturn⟩, And.right⟩
  · have hnone : (p.report.accepted.map Def.id).count d.id = 0 :=
      List.count_eq_zero.mpr fun hmem => hkept (hturns.kept_of_mem_accepted hown hs hd hmem)
    exact ⟨by omega, by omega, fun hall => absurd hall.1 hkept⟩

/-- The signature of the first constant is in a cycle with the body of the second one. -/
def crossed : Setup ScopeState Shapes where
  module := .ofDecls [constant ⟨1⟩ (.sort 0), constant ⟨2⟩ (.sort 0)]
  graph := .build [.edge (.head ⟨1⟩) (.body ⟨2⟩), .edge (.body ⟨2⟩) (.head ⟨1⟩),
    .edge (.body ⟨1⟩) (.head ⟨1⟩)]
  checker := scopeChecker
  learn := Shapes.learn
  stack := 10

theorem run_crossed :
    ∃ p, crossed.run true { checker := .ofModule crossed.module, shapes := .empty } = some p ∧
      p.report.accepted.map Def.id = [⟨1⟩, ⟨2⟩, ⟨1⟩] := by
  have hends : (crossed.run true { checker := .ofModule crossed.module, shapes := .empty }).any
      (fun p => p.report.accepted.map Def.id = [⟨1⟩, ⟨2⟩, ⟨1⟩]) = true := by decide +kernel
  obtain ⟨p, hrun, hp⟩ := (Option.any_eq_true _ _).mp hends
  exact ⟨p, hrun, of_decide_eq_true hp⟩

/-- The first constant is accepted with its signature, and again with its body. -/
theorem exists_accepted_twice :
    ¬ ∀ (c : Setup ScopeState Shapes) (steps : List (Digraph.Addition CheckUnit)),
      c.graph = .build steps → (∀ step ∈ steps, ∀ u ∈ step.ends, c.module.contains u.id = true) →
      c.checker.ReturnsOwn → ∀ (skipDependents : Bool) (p : Progress ScopeState Shapes),
      c.run skipDependents { checker := .ofModule c.module, shapes := .empty } = some p →
        (p.report.accepted.map Def.id).Nodup := by
  intro honce
  obtain ⟨p, hrun, haccepted⟩ := run_crossed
  have hnodup := honce crossed _ rfl (by decide +kernel) returnsOwn_scopeChecker true p hrun
  rw [haccepted] at hnodup
  revert hnodup
  decide

theorem accepted_twice_crossed :
    ∃ p, crossed.run true { checker := .ofModule crossed.module, shapes := .empty } = some p ∧
      (p.report.accepted.map Def.id).count ⟨1⟩ = 2 ∧
      .body ⟨1⟩ ∉ p.poisoned ∧ .head ⟨1⟩ ∉ p.poisoned ∧
      ¬ crossed.graph.Mutual (.head ⟨1⟩) (.body ⟨1⟩) ∧
      ∃ u, u ≠ .head ⟨1⟩ ∧ crossed.graph.Mutual (.head ⟨1⟩) u := by
  obtain ⟨p, hrun, haccepted⟩ := run_crossed
  have htwice : (p.report.accepted.map Def.id).count ⟨1⟩ = 2 := by
    rw [haccepted]
    decide
  have hiff := (accepted_twice_iff returnsOwn_scopeChecker rfl hrun
    (d := constant ⟨1⟩ (.sort 0)) rfl).2
  obtain ⟨-, ⟨-, hbody⟩, hhead, hmixed⟩ := hiff.mp htwice
  exact ⟨p, hrun, htwice, hbody, hhead, hmixed⟩

end Setup

end ProofCore
