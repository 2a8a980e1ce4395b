import ProofCore.Proofs.Discipline
import ProofCore.Proofs.ModuleReport

/-!
# Circular signatures

A signature that refers to itself, directly or through others, is never accepted, whatever the
checker would say of it. Its component fails as a whole or is skipped, and its body is skipped,
because it needs the signature. The checker is not even asked: it is asked about a signature only
after all that the signature refers to, so on a cycle there is none to begin with.
-/
namespace ProofCore

open DependencyGraph (ofModule)

namespace Module

variable {m : Module} {a b id : DefId}

/-- The signature of `a` refers to `b`. -/
def SignatureRef (m : Module) (a b : DefId) : Prop :=
  ∃ d, m.get? a = some d ∧ b ∈ d.definition.headerRefs

/-- The signature refers to itself, directly or through others. -/
def Circular (m : Module) (id : DefId) : Prop := Relation.TransGen m.SignatureRef id id

theorem SignatureRef.declared (h : m.SignatureRef a b) : m.contains a = true := by
  obtain ⟨d, hd, -⟩ := h
  exact contains_iff.mpr ⟨d, hd⟩

theorem SignatureRef.edge (h : m.SignatureRef a b) (hb : m.contains b = true) :
    (ofModule m).Edge (.head a) (.head b) := by
  obtain ⟨d, hd, href⟩ := h
  exact DependencyGraph.edge_ofModule_iff.mpr (.head hd href hb)

theorem Circular.declared (h : m.Circular id) : m.contains id = true := by
  obtain ⟨b, href, -⟩ := Relation.TransGen.head'_iff.mp h
  exact href.declared

theorem transGen_edge_head (h : Relation.TransGen m.SignatureRef a b)
    (hb : m.contains b = true) : Relation.TransGen (ofModule m).Edge (.head a) (.head b) := by
  induction h with
  | single href => exact .single (href.edge hb)
  | tail _ href ih => exact (ih href.declared).tail (href.edge hb)

theorem Circular.onCycle (h : m.Circular id) : (ofModule m).onCycle (.head id) = true := by
  rw [Digraph.onCycle, Digraph.reaches_iff_transGen]
  exact transGen_edge_head h h.declared

end Module

namespace Disciplined

variable {m : Module} {log earlier later : List Visit} {b id : DefId} {d : Decl}
  {reported : List Diagnostic} (h : Disciplined m log)
include h

theorem foundGood_of_ref (hsplit : log = earlier ++ .header d reported :: later)
    (href : m.SignatureRef d.id b) (hb : m.contains b = true) : FoundGood earlier b := by
  obtain ⟨e, he, href⟩ := href
  have hd : m.get? d.id = some d := h.declared (.header d reported) (by simp [hsplit])
  cases hd.symm.trans he
  exact h.prepared earlier _ later hsplit b href hb

/-- All that a visited signature leads to was visited before. -/
theorem foundGood_of_transGen (hsplit : log = earlier ++ .header d reported :: later)
    (hpath : Relation.TransGen m.SignatureRef d.id b) (hb : m.contains b = true) :
    FoundGood earlier b := by
  induction hpath with
  | single href => exact h.foundGood_of_ref hsplit href hb
  | tail _ href ih =>
    obtain ⟨e, reported', rfl, hmem, -⟩ := ih href.declared
    obtain ⟨front, back, rfl⟩ := List.append_of_mem hmem
    have hsplit' : log = front ++ .header e reported' :: (back ++ .header d reported :: later) := by
      simp [hsplit]
    exact (h.foundGood_of_ref hsplit' href hb).append _

theorem header_notMem (hcircular : m.Circular d.id) : Visit.header d reported ∉ log := by
  intro hmem
  obtain ⟨earlier, later, hsplit⟩ := List.append_of_mem hmem
  obtain ⟨e, reported', hid, hbefore, -⟩ :=
    h.foundGood_of_transGen hsplit hcircular hcircular.declared
  have honce := h.once
  rw [hsplit, List.map_append, List.nodup_append] at honce
  refine honce.2.2 _ (List.mem_map_of_mem hbefore) (.head d.id) (by simp [Visit.unit]) ?_
  simp [Visit.unit, hid]

/-- The first visit to a declaration on a cycle would have to come after another one. -/
theorem not_visited (hcircular : m.Circular id) : ∀ v ∈ log, v.decl.id ≠ id := by
  intro v hv hid
  subst hid
  cases v with
  | header d reported => exact h.header_notMem hcircular hv
  | body d reported =>
    obtain ⟨earlier, later, hsplit⟩ := List.append_of_mem hv
    obtain ⟨e, reported', hid, hbefore, -⟩ :=
      h.prepared earlier _ later hsplit d.id (by simp [Visit.needs]) hcircular.declared
    have hmem : Visit.header e reported' ∈ log := by simp [hsplit, hbefore]
    refine h.header_notMem ?_ hmem
    rw [hid]
    exact hcircular

end Disciplined

section Components

variable {κ ρ : Type} {c : Setup κ ρ} {id : DefId}

/-- A component with a circular signature fails, and all of its members are to blame. -/
theorem Stage.checkComponent_of_circular {done group : List CheckUnit}
    (stage : Stage c.module done group) (hgraph : c.graph = ofModule c.module)
    (hcircular : c.module.Circular id) (hid : .head id ∈ group) (s : Session κ ρ) :
    ∃ t, c.checkComponent group s = some (.error ⟨group⟩, t) := by
  by_cases hlength : 2 ≤ group.length
  · refine Setup.checkComponent_of_heads ?_ s
    have hheads : ∀ u ∈ group, u.isHead = true := fun u hu => stage.isHead_eq hu hid
    rwa [List.filter_eq_self.mpr hheads]
  · obtain ⟨u, rfl⟩ : ∃ u, group = [u] := by
      have hpositive := List.length_pos_iff.mpr stage.ne_nil
      exact List.length_eq_one_iff.mp (by omega)
    cases List.mem_singleton.mp hid
    obtain ⟨d, hd⟩ := Module.contains_iff.mp hcircular.declared
    have hcycle : c.graph.onCycle (.head id) = true := by
      rw [hgraph]
      exact hcircular.onCycle
    have hdecl := Setup.run_declOf (c := c) (u := .head id) hd { s with fresh := [] }
    simp only [Setup.checkComponent, Setup.checkMembers]
    rw [Setup.checkUnit_head, CheckM.run_bind_of_ok hdecl, if_pos hcycle]
    exact ⟨_, rfl⟩

theorem stage_of_turn {m : Module} {earlier later : List (List CheckUnit × Outcome)}
    {x : List CheckUnit × Outcome} {rest : List (List CheckUnit)}
    (hsplit : (ofModule m).components = (earlier ++ x :: later).map Prod.fst ++ rest) :
    Stage m (earlier.map Prod.fst).flatten x.1 := by
  have hsplit' : (ofModule m).components =
      earlier.map Prod.fst ++ x.1 :: (later.map Prod.fst ++ rest) := by
    simp [hsplit]
  exact stage_of_split hsplit'

namespace Setup.Turns

variable {s : Session κ ρ} {p : Progress κ ρ} {turns : List (List CheckUnit × Outcome)}
  {rest : List (List CheckUnit)} {x : List CheckUnit × Outcome}
  (h : c.Turns true { session := s } turns p) (hgraph : c.graph = ofModule c.module)
  (hsplit : (ofModule c.module).components = turns.map Prod.fst ++ rest)
  (hcircular : c.module.Circular id) (hx : x ∈ turns)
include h hgraph hsplit hcircular hx

theorem outcome_of_circular_head (hid : .head id ∈ x.1) :
    x.2 = .failed ⟨x.1⟩ ∨ x.2 = .skipped := by
  obtain ⟨earlier, later, rfl⟩ := List.append_of_mem hx
  have stage := stage_of_turn hsplit
  obtain ⟨q, q', -, hturn, -⟩ := h.exists_between
  obtain ⟨t, hfails⟩ := stage.checkComponent_of_circular hgraph hcircular hid q.session
  generalize x.2 = outcome at hturn
  cases hturn with
  | passed clear checked => simp [hfails] at checked
  | failed clear checked =>
    cases hfails.symm.trans checked
    exact .inl rfl
  | skipped blocked => exact .inr rfl

/-- The body comes after its signature, which has not passed. -/
theorem outcome_of_circular_body (hid : .body id ∈ x.1) : x.2 = .skipped := by
  obtain ⟨earlier, later, rfl⟩ := List.append_of_mem hx
  have stage := stage_of_turn hsplit
  have hedge := DependencyGraph.edge_signature hcircular.declared
  have hout : .head id ∉ x.1 := fun hhead => Bool.noConfusion (stage.isHead_eq hid hhead)
  obtain ⟨group, hgroup, hmem⟩ :=
    List.mem_flatten.mp ((stage.edge _ hid _ hedge).resolve_right hout)
  obtain ⟨y, hy, rfl⟩ := List.mem_map.mp hgroup
  have hbad : y.2 ≠ .passed := by
    rcases h.outcome_of_circular_head hgraph hsplit hcircular (List.mem_append_left _ hy) hmem
      with hy | hy <;> simp [hy]
  exact h.skipped_iff_edge.mpr ⟨_, hid, _, hgraph ▸ hedge, hout, y, hy, hbad, hmem⟩

end Setup.Turns

/-- What is accepted when a run passes through a session comes from the turns up to there. -/
theorem Setup.PassesThrough.exists_turns {skipDependents : Bool} {s t : Session κ ρ}
    (h : c.PassesThrough skipDependents s t) : ∃ turns rest q,
      c.graph.components = turns.map Prod.fst ++ rest ∧
        c.Turns skipDependents { session := s } turns q ∧ t.accepted = q.session.accepted := by
  cases h with
  | between split run =>
    obtain ⟨turns, rfl, hturns⟩ := turns_of_foldlM run
    exact ⟨turns, _, _, split, hturns, rfl⟩
  | within split run clear examined =>
    obtain ⟨turns, rfl, hturns⟩ := turns_of_foldlM run
    obtain ⟨new, hlearns⟩ := learns_of_moves (onlyMoves_examine _ _ _ _ examined)
    exact ⟨turns, _, _, split, hturns, hlearns.accepted⟩

/-- No accepted definition was returned for a declaration with a circular signature. -/
theorem Setup.PassesThrough.exists_of_mem_accepted {P : Decl → Def → Prop}
    (hP : c.checker.Returns P) (hgraph : c.graph = ofModule c.module)
    (hcircular : c.module.Circular id) {s t : Session κ ρ} (hs : s.accepted = [])
    (h : c.PassesThrough true s t) {f : Def} (hf : f ∈ t.accepted) :
    ∃ e, c.module.get? e.id = some e ∧ e.id ≠ id ∧ P e f := by
  obtain ⟨turns, rest, q, hsplit, hturns, haccepted⟩ := h.exists_turns
  rw [haccepted] at hf
  obtain hf | ⟨x, hx, hpassed, e, hid, he, hreturned⟩ := hturns.exists_of_mem_accepted hP hf
  · simp [hs] at hf
  · refine ⟨e, he, ?_, hreturned⟩
    rintro rfl
    rw [hgraph] at hsplit
    have hmem : x.1 ∈ (ofModule c.module).components := by
      rw [hsplit]
      exact List.mem_append_left _ (List.mem_map_of_mem hx)
    obtain ⟨done, later, hcomponents⟩ := List.append_of_mem hmem
    have stage := stage_of_split hcomponents
    rw [stage.bodyIds_eq, stage.mem_ids_iff] at hid
    have hskipped := hturns.outcome_of_circular_body hgraph hsplit hcircular hx hid
    rw [hpassed] at hskipped
    cases hskipped

end Components

namespace Module

/-- A declaration whose signature refers to itself, directly or through others, is rejected by
every checker. Wherever a run may stop, the checker was not asked about the declaration and nothing
that was returned for it was accepted. If the run ends, then the signature failed or was skipped,
and the body was skipped. -/
theorem circular_rejected (m : Module) {id : DefId} (hcircular : m.Circular id) {κ ρ : Type}
    (checker : Checker κ) (k : κ) (learn : ρ → Def → ρ) (keepExamples : Bool) (stack : ℕ)
    (shapes : ρ) (env : Env) :
    (∀ t, Setup.PassesThrough ⟨m, ofModule m, checker.logged, learn, keepExamples, stack⟩ true
        { checker := (k, []), shapes := shapes, env := env } t →
      (∀ v ∈ t.checker.2, v.decl.id ≠ id) ∧
        ∀ f ∈ t.accepted, ∃ e k', m.get? e.id = some e ∧ e.id ≠ id ∧
          (checker.body k' e).2.2 = some f) ∧
    ∀ p, Setup.run ⟨m, ofModule m, checker.logged, learn, keepExamples, stack⟩ true
        { checker := (k, []), shapes := shapes, env := env } = some p →
      (.head id ∈ p.report.failed ∨ .head id ∈ p.report.skipped) ∧
        .body id ∈ p.report.skipped := by
  have hreturns : checker.logged.Returns fun e f => ∃ k', (checker.body k' e).2.2 = some f :=
    fun k' e f hf => ⟨k'.1, hf⟩
  constructor
  · intro t ht
    constructor
    · obtain ⟨units, hconduct⟩ := ht.exists_conduct rfl
      exact (hconduct.recorded rfl rfl rfl).disciplined.not_visited hcircular
    · intro f hf
      obtain ⟨e, he, hne, k', hreturned⟩ :=
        ht.exists_of_mem_accepted hreturns rfl hcircular rfl hf
      exact ⟨e, k', he, hne, hreturned⟩
  · intro p hrun
    obtain ⟨turns, hgroups, hturns⟩ := Setup.turns_of_foldlM hrun
    have hsplit : (ofModule m).components = turns.map Prod.fst ++ [] := by
      rw [hgroups, List.append_nil]
    have hturn : ∀ u : CheckUnit, u.id = id → ∃ x ∈ turns, u ∈ x.1 := fun u hu =>
      (hturns.propagates hgroups).exists_turn
        (DependencyGraph.mem_vertices_ofModule_iff.mpr (hu ▸ hcircular.declared))
    constructor
    · obtain ⟨x, hx, hmem⟩ := hturn (.head id) rfl
      rcases hturns.outcome_of_circular_head rfl hsplit hcircular hx hmem with hfailed | hskipped
      · refine .inl (hturns.mem_failed_iff.mpr (.inr ⟨x, hx, ?_⟩))
        rwa [hfailed]
      · exact .inr (hturns.mem_skipped_iff.mpr (.inr ⟨x, hx, hskipped, hmem⟩))
    · obtain ⟨x, hx, hmem⟩ := hturn (.body id) rfl
      have hskipped := hturns.outcome_of_circular_body rfl hsplit hcircular hx hmem
      exact hturns.mem_skipped_iff.mpr (.inr ⟨x, hx, hskipped, hmem⟩)

/-- A constant of the type that is a call of another one. -/
def constantIn (id type : DefId) : Decl where
  definition := .fn ⟨id, "c", [], .fnCall type 0 [], .expr (.sort 0)⟩

/-- The first two constants are the types of each other, the third is of the first one. -/
def entangled : Module :=
  ofDecls [constantIn ⟨1⟩ ⟨2⟩, constantIn ⟨2⟩ ⟨1⟩, constantIn ⟨3⟩ ⟨1⟩, Setup.constant ⟨4⟩ (.sort 0)]

/-- A checker that has no objections. -/
def agreeable : Checker Unit where
  header := fun _ _ => ((), [])
  body := fun _ d => ((), [], some d.definition)

theorem circular_entangled : entangled.Circular ⟨1⟩ := by
  have hfirst : entangled.SignatureRef ⟨1⟩ ⟨2⟩ := ⟨constantIn ⟨1⟩ ⟨2⟩, rfl, by decide⟩
  have hsecond : entangled.SignatureRef ⟨2⟩ ⟨1⟩ := ⟨constantIn ⟨2⟩ ⟨1⟩, rfl, by decide⟩
  exact (Relation.TransGen.single hfirst).tail hsecond

theorem circular_rejected_entangled :
    ∃ p, Setup.run ⟨entangled, ofModule entangled, agreeable.logged, Shapes.learn, true, 10⟩ true
        { checker := ((), []), shapes := .empty } = some p ∧
      entangled.Circular ⟨1⟩ ∧ p.report.accepted.map Def.id = [⟨4⟩] ∧
      p.report.failed = [.head ⟨1⟩, .head ⟨2⟩] ∧
      ((∀ v ∈ p.session.checker.2, v.decl.id ≠ ⟨1⟩) ∧
        ∀ f ∈ p.session.accepted, ∃ e k', entangled.get? e.id = some e ∧ e.id ≠ ⟨1⟩ ∧
          (agreeable.body k' e).2.2 = some f) ∧
      (.head ⟨1⟩ ∈ p.report.failed ∨ .head ⟨1⟩ ∈ p.report.skipped) ∧
        .body ⟨1⟩ ∈ p.report.skipped := by
  have hends : (Setup.run
      ⟨entangled, ofModule entangled, agreeable.logged, Shapes.learn, true, 10⟩ true
        { checker := ((), []), shapes := .empty }).any (fun p =>
      p.report.accepted.map Def.id = [⟨4⟩] ∧ p.report.failed = [.head ⟨1⟩, .head ⟨2⟩]) = true := by
    decide +kernel
  obtain ⟨p, hrun, hp⟩ := (Option.any_eq_true _ _).mp hends
  obtain ⟨haccepted, hfailed⟩ := of_decide_eq_true hp
  obtain ⟨hnever, hreport⟩ :=
    circular_rejected entangled circular_entangled agreeable () Shapes.learn true 10 .empty {}
  exact ⟨p, hrun, circular_entangled, haccepted, hfailed,
    hnever _ (Setup.passesThrough_of_run hrun), hreport p hrun⟩

end Module

end ProofCore
