import ProofCore.Proofs.Isolation
import ProofCore.Proofs.ModuleReport

/-!
# What accepted definitions rest on

An accepted body rests on accepted definitions. Whatever it refers to was accepted before it or in
one group with it, examples apart. An accepted signature rests on accepted signatures and on no
more than that: signatures and bodies are checked apart, so a type that a signature mentions may
have been rejected for its constructors. If the body that goes with the signature depends on what
was rejected, then it is not accepted either.
-/
namespace ProofCore

open DependencyGraph (ofModule)

namespace Module

variable {m : Module} {fuel : ℕ}

namespace Acceptable

variable {id r : DefId} {d : Decl}

theorem signature (h : m.Acceptable fuel (.body id)) : m.Acceptable fuel (.head id) :=
  h.edge (DependencyGraph.edge_signature h.declared)

theorem wellScoped_body (h : m.Acceptable fuel (.body id)) (hd : m.get? id = some d) :
    WellScoped d.definition.bodyTerms := by
  cases h with
  | @body _ ds _ group _ wellScoped =>
    have hid := id_of_get? hd
    subst hid
    exact wellScoped d ((group.mem d).mpr ⟨hd, .refl, .refl⟩)

/-- A body refers only to what the module declares, in its group or outside. -/
theorem bodyRef (h : m.Acceptable fuel (.body id)) (hd : m.get? id = some d)
    (href : r ∈ d.definition.bodyRefs) :
    (ofModule m).Edge (.body id) (.body r) ∧ m.Acceptable fuel (.body r) := by
  have hknown : m.contains r = true := by
    cases h with
    | @body _ ds _ group _ _ refs =>
      have hid := id_of_get? hd
      subst hid
      by_cases hr : r ∈ ds.map Decl.id
      · obtain ⟨e, he, rfl⟩ := List.mem_map.mp hr
        exact contains_iff.mpr ⟨e, ((group.mem e).mp he).1⟩
      · exact (refs d ((group.mem d).mpr ⟨hd, .refl, .refl⟩) r href hr).declared
  have hedge : (ofModule m).Edge (.body id) (.body r) :=
    DependencyGraph.edge_ofModule_iff.mpr (.body hd href hknown)
  exact ⟨hedge, h.edge hedge⟩

end Acceptable

variable {stack : ℕ} {p : Progress ScopeState Shapes}

theorem exists_chronicle (h : m.check fuel stack = some p) :
    ∃ turns, (m.setup stack).Chronicle turns p.report :=
  Setup.exists_chronicle rfl returnsOwn_scopeChecker rfl h

/-- What is acceptable and no example is accepted. -/
theorem definition_mem_accepted (h : m.check fuel stack = some p) {id : DefId} {e : Decl}
    (he : m.get? id = some e) (hexample : e.isExample = false)
    (hacc : m.Acceptable fuel (.body id)) : e.definition ∈ p.report.accepted := by
  obtain ⟨definition, isExample⟩ := e
  have hid := id_of_get? he
  subst hid
  cases hexample
  exact (mem_accepted_iff h).mpr ⟨hacc, he⟩

/-- Wherever a definition stands among the accepted ones, no variable of it escapes its binders,
and whatever its body refers to is declared in the module, and is an example or was accepted: before
it, unless the two bodies depend on each other. -/
theorem accepted_grounded (h : m.check fuel stack = some p) {earlier later : List Def} {d : Def}
    (hsplit : p.report.accepted = earlier ++ d :: later) :
    WellScoped d.signatureTerms ∧ WellScoped d.bodyTerms ∧
      ∀ r ∈ d.bodyRefs, ∃ e, m.get? r = some e ∧
        (e.isExample = true ∨ e.definition ∈ earlier ∨
          e.definition ∈ p.report.accepted ∧
            (ofModule m).Mutual (.body d.id) (.body r)) := by
  have hd : d ∈ p.report.accepted := by simp [hsplit]
  obtain ⟨hacc, hget⟩ := (mem_accepted_iff h).mp hd
  refine ⟨((acceptable_head_iff hget).mp hacc.signature).1, hacc.wellScoped_body hget,
    fun r href => ?_⟩
  obtain ⟨hedge, hr⟩ := hacc.bodyRef hget href
  obtain ⟨e, he⟩ := contains_iff.mp hr.declared
  refine ⟨e, he, ?_⟩
  cases hexample : e.isExample with
  | true => exact .inl rfl
  | false =>
    have hmem := definition_mem_accepted h he hexample hr
    obtain ⟨turns, hturns⟩ := exists_chronicle h
    have hordered := hturns.pairwise_accepted
    rw [hsplit, List.pairwise_append, List.pairwise_cons] at hordered
    have hid : e.definition.id = r := id_of_get? he
    have hplace := hmem
    rw [hsplit, List.mem_append, List.mem_cons] at hplace
    rcases hplace with hearlier | rfl | hlater
    · exact .inr (.inl hearlier)
    · rw [hid]
      exact .inr (.inr ⟨hmem, .refl, .refl⟩)
    · -- A reference to what comes later stays within the group.
      have hmutual := (hordered.2.1.1 _ hlater).2
      rw [hid] at hmutual
      exact .inr (.inr ⟨hmem, hmutual hedge⟩)

/-- Each of two functions calls the other, and both match on a number: the type of numbers comes
first, and the second function is accepted after the first, which refers to it. -/
theorem accepted_grounded_alternation :
    ∃ p, alternation.check 4096 10 = some p ∧
      p.report.accepted = [numbers.definition] ++ (passOn ⟨2⟩ ⟨3⟩).definition ::
        [(passOn ⟨3⟩ ⟨2⟩).definition] ∧
      (passOn ⟨2⟩ ⟨3⟩).definition.bodyRefs = [⟨3⟩, ⟨1⟩] ∧
      WellScoped (passOn ⟨2⟩ ⟨3⟩).definition.signatureTerms ∧
      WellScoped (passOn ⟨2⟩ ⟨3⟩).definition.bodyTerms ∧
      ∀ r ∈ (passOn ⟨2⟩ ⟨3⟩).definition.bodyRefs, ∃ e, alternation.get? r = some e ∧
        (e.isExample = true ∨ e.definition ∈ [numbers.definition] ∨
          e.definition ∈ p.report.accepted ∧
            (ofModule alternation).Mutual (.body (passOn ⟨2⟩ ⟨3⟩).definition.id) (.body r)) := by
  have hends : (alternation.check 4096 10).any (fun p => p.report.accepted = [numbers.definition] ++
      (passOn ⟨2⟩ ⟨3⟩).definition :: [(passOn ⟨3⟩ ⟨2⟩).definition]) = true := by decide +kernel
  obtain ⟨p, hcheck, hp⟩ := (Option.any_eq_true _ _).mp hends
  have hsplit := of_decide_eq_true hp
  exact ⟨p, hcheck, hsplit, by decide +kernel, accepted_grounded hcheck hsplit⟩

/-- The identity function on a type. -/
def echo : Def :=
  .fn ⟨⟨2⟩, "f", [⟨"x", .dataCall ⟨1⟩ 0 [], true⟩], .dataCall ⟨1⟩ 0 [], .expr (.bound 0)⟩

/-- The type on which `echo` works has a constructor with an unbound variable. -/
def hollow : Module :=
  ofDecls [⟨.data ⟨⟨1⟩, "T", [], [⟨⟨11⟩, "C", ⟨1⟩, [⟨"x", .bound 3, true⟩]⟩]⟩, false⟩,
    ⟨echo, false⟩]

theorem accepted_hollow : ∃ p, hollow.check 4096 10 = some p ∧ p.report.accepted = [echo] := by
  have hends : (hollow.check 4096 10).any (fun p => p.report.accepted = [echo]) = true := by
    decide +kernel
  obtain ⟨p, hcheck, hp⟩ := (Option.any_eq_true _ _).mp hends
  exact ⟨p, hcheck, of_decide_eq_true hp⟩

/-- The signature of an accepted definition may mention a type that was rejected. -/
theorem exists_accepted_over_rejected :
    ¬ ∀ (m : Module) (fuel stack : ℕ) (p : Progress ScopeState Shapes),
      m.check fuel stack = some p → ∀ d ∈ p.report.accepted, ∀ r ∈ d.headerRefs, ∃ e, m.get? r = some e ∧
        (e.definition ∈ p.report.accepted ∨ e.isExample = true) := by
  intro hall
  obtain ⟨p, hcheck, hp⟩ := accepted_hollow
  obtain ⟨e, he, hkept⟩ := hall hollow 4096 10 p hcheck echo (by simp [hp]) ⟨1⟩ (by decide)
  have hrejected : (hollow.get? ⟨1⟩).all (fun e => e.definition ≠ echo ∧ e.isExample = false) =
      true := by decide +kernel
  simp_all

/-- What the signature of an accepted definition refers to is declared, and its signature was
accepted. It was accepted as a whole, or is an example, unless its group of bodies failed or was
skipped, and then the body of the accepted definition does not depend on it. -/
theorem accepted_signature_grounded (h : m.check fuel stack = some p) {d : Def}
    (hd : d ∈ p.report.accepted) {r : DefId} (href : r ∈ d.headerRefs) :
    ∃ e, m.get? r = some e ∧ WellScoped e.definition.signatureTerms ∧
      .head r ∉ p.report.failed ∧ .head r ∉ p.report.skipped ∧
      (e.isExample = true ∨ e.definition ∈ p.report.accepted ∨
        (∃ u, (ofModule m).Mutual (.body r) u ∧ (u ∈ p.report.failed ∨ u ∈ p.report.skipped)) ∧
          ¬ (ofModule m).Path (.body d.id) (.body r)) := by
  obtain ⟨hacc, hget⟩ := (mem_accepted_iff h).mp hd
  have hr : m.Acceptable fuel (.head r) := ((acceptable_head_iff hget).mp hacc.signature).2 r href
  obtain ⟨e, he⟩ := contains_iff.mp hr.declared
  obtain ⟨turns, hturns⟩ := exists_chronicle h
  obtain ⟨-, -, -, x, hx, hpassed, hbody⟩ := hturns.exists_of_mem_accepted hd
  -- The signature of `r` lies on the way from the accepted body.
  have hpath : (ofModule m).Path (.body d.id) (.head r) := by
    refine .tail (.single (DependencyGraph.edge_signature hacc.declared)) ?_
    exact DependencyGraph.edge_ofModule_iff.mpr (.head hget href hr.declared)
  obtain ⟨y, hy, hhead⟩ := hturns.exists_turn (u := .head r) hr.declared
  have hreported := hturns.notMem_of_passed hy
    (hturns.passed_of_path hx hpassed hbody hpath hy hhead) hhead
  refine ⟨e, he, ((acceptable_head_iff he).mp hr).1, hreported.1, hreported.2, ?_⟩
  cases hexample : e.isExample with
  | true => exact .inl rfl
  | false =>
    obtain ⟨z, hz, hmem⟩ := hturns.exists_turn (u := .body r) hr.declared
    have hid := id_of_get? he
    subst hid
    have hverdict := hturns.definition_mem_accepted_iff he (by simp [hexample]) hz hmem
    by_cases haccepted : e.definition ∈ p.report.accepted
    · exact .inr (.inl haccepted)
    · have hbad : z.2 ≠ .passed := fun hz => haccepted (hverdict.mpr hz)
      refine .inr (.inr ⟨?_, fun hdepends => hbad ?_⟩)
      · obtain ⟨u, hu, hlisted⟩ := hturns.exists_mem_of_not_passed hz hbad
        exact ⟨u, ⟨hturns.propagates.path_of_mem hz hmem hu,
          hturns.propagates.path_of_mem hz hu hmem⟩, hlisted⟩
      · exact hturns.passed_of_path hx hpassed hbody hdepends hz hmem

theorem accepted_signature_grounded_hollow :
    ∃ p, hollow.check 4096 10 = some p ∧ echo ∈ p.report.accepted ∧ ⟨1⟩ ∈ echo.headerRefs ∧
      ∃ e, hollow.get? ⟨1⟩ = some e ∧ WellScoped e.definition.signatureTerms ∧
        .head ⟨1⟩ ∉ p.report.failed ∧ .head ⟨1⟩ ∉ p.report.skipped ∧
        (e.isExample = true ∨ e.definition ∈ p.report.accepted ∨
          (∃ u, (ofModule hollow).Mutual (.body ⟨1⟩) u ∧
            (u ∈ p.report.failed ∨ u ∈ p.report.skipped)) ∧
            ¬ (ofModule hollow).Path (.body echo.id) (.body ⟨1⟩)) := by
  obtain ⟨p, hcheck, hp⟩ := accepted_hollow
  have hecho : echo ∈ p.report.accepted := by simp [hp]
  have href : ⟨1⟩ ∈ echo.headerRefs := by decide
  exact ⟨p, hcheck, hecho, href, accepted_signature_grounded hcheck hecho href⟩

end Module

end ProofCore
