import ProofCore.Proofs.Isolation
import ProofCore.Proofs.MirroredChecks
import ProofCore.Proofs.Turns

/-!
# Keeping examples

A check that keeps the examples of a module and one that drops them report the same and accept the
same but for the examples, as long as recursion is not judged by what an example computes. Otherwise
they may part: an example that was dropped is unknown to evaluation, too.
-/
namespace ProofCore

open DependencyGraph (ofModule)

namespace Module

/-- Recursive units depend on no functions that are examples, but for those that they are recursive
with. -/
def SparesExamples (m : Module) : Prop :=
  ∀ d ∈ m.decls, d.isExample = true → d.definition.fn?.isSome = true →
    ∀ u ∈ (ofModule m).vertices, (ofModule m).onCycle u = true →
      (ofModule m).reaches u (.body d.id) = true → (ofModule m).reaches (.body d.id) u = true

instance (m : Module) : Decidable m.SparesExamples :=
  inferInstanceAs (Decidable (∀ d ∈ m.decls, d.isExample = true →
    d.definition.fn?.isSome = true → ∀ u ∈ (ofModule m).vertices, (ofModule m).onCycle u = true →
      (ofModule m).reaches u (.body d.id) = true → (ofModule m).reaches (.body d.id) u = true))

theorem SparesExamples.mutual {m : Module} (h : m.SparesExamples) {u : CheckUnit} {d : Decl}
    {f : FnDef} (hcycle : (ofModule m).onCycle u = true) (hpath : (ofModule m).Path u (.body d.id))
    (hget : m.get? d.id = some d) (hexample : d.isExample = true) (hfn : d.definition = .fn f) :
    (ofModule m).Mutual u (.body d.id) := by
  obtain ⟨v, huv, hvu⟩ := Digraph.reaches_iff.mp hcycle
  have hreaches : (ofModule m).reaches u (.body d.id) = true :=
    Digraph.reaches_iff.mpr ⟨v, huv, hvu.trans hpath⟩
  obtain ⟨w, hw, hwu⟩ := Digraph.reaches_iff.mp
    (h d (mem_decls_iff.mpr hget) hexample (by rw [hfn]; rfl) u huv.mem_vertices.1 hcycle hreaches)
  exact ⟨hpath, .head hw hwu⟩

end Module

namespace Stage

variable {κ ρ : Type} {m : Module} {done group : List CheckUnit} {s s' : Session κ ρ}

/-- As far as a recursive component depends on them, both sessions hold the same functions. -/
theorem agreesOn_of_mirrors (stage : Stage m done group) (hspares : m.SparesExamples)
    (hcycle : ∀ u ∈ group, (ofModule m).onCycle u = true) (hs : s.Mirrors m done s') :
    Env.AgreesOn (fun r => m.contains r = true → ∃ u ∈ group, (ofModule m).Path u (.body r))
      s.env s'.env where
  fuel := hs.fuel.symm
  fns id hid := by
    rw [hs.fns]
    split
    · rename_i hexample
      rw [Option.eq_none_iff_forall_ne_some]
      intro f hf
      obtain ⟨hdone, d, hget, hfn⟩ := hs.own id f hf
      obtain ⟨u, hu, hpath⟩ := hid (Module.contains_iff.mpr ⟨d, hget⟩)
      rw [Module.isExample_of_get? hget] at hexample
      have heq := Module.id_of_get? hget
      subst heq
      -- an example that the component depends on is one of its members, and these are not done
      have hmutual := hspares.mutual (hcycle u hu) hpath hget hexample hfn
      exact stage.new _ ((stage.together u hu _).mpr hmutual) hdone
    · rfl
  closed id f hid hf r href hr := by
    obtain ⟨-, d, hget, hfn⟩ := hs.own id f hf
    obtain ⟨u, hu, hpath⟩ := hid (Module.contains_iff.mpr ⟨d, hget⟩)
    exact ⟨u, hu, hpath.tail (DependencyGraph.edge_ofModule_iff.mpr (.body hget (hfn ▸ href) hr))⟩

theorem onCycle_of_several (stage : Stage m done group) (hlength : 2 ≤ group.length)
    {u : CheckUnit} (hu : u ∈ group) : (ofModule m).onCycle u = true := by
  obtain ⟨w, -, huw, hwu⟩ := stage.exists_edge hlength hu
  exact Digraph.reaches_iff.mpr ⟨w, huw, hwu⟩

end Stage

/-- Two checks of `m` that have come equally far, of which only the first one keeps examples. -/
structure Progress.Mirrors {κ ρ : Type} (m : Module) (done : List CheckUnit)
    (p p' : Progress κ ρ) : Prop where
  session : p.session.Mirrors m done p'.session
  poisoned : p'.poisoned = p.poisoned
  failed : p'.failed = p.failed
  skipped : p'.skipped = p.skipped

namespace Setup

open CheckM Session

variable {κ ρ : Type} {c : Setup κ ρ} {m : Module} {done group : List CheckUnit}

/-- The same settings, except that examples are dropped. -/
def dropExamples (c : Setup κ ρ) (stack : ℕ) : Setup κ ρ :=
  { c with keepExamples := false, stack := stack }

theorem parallel_checkTermination (stage : Stage m done group) (hspares : m.SparesExamples)
    (hcycle : ∀ u ∈ group, (ofModule m).onCycle u = true) {ds : List Def}
    (hnodup : (ds.map Def.id).Nodup)
    (hrefs : ∀ d ∈ ds, ∀ r ∈ d.bodyRefs, m.contains r = true →
      ∃ u ∈ group, (ofModule m).Path u (.body r)) (units : List CheckUnit) (stack : ℕ) :
    Parallel m done done (c.checkTermination ds units)
      ((c.dropExamples stack).checkTermination ds units) := by
  intro s s' t t' r r' hs h h'
  unfold checkTermination at h h'
  by_cases hfns : (ds.filterMap Def.fn?).isEmpty = true
  · rw [if_pos hfns] at h h'
    cases h
    cases h'
    exact ⟨rfl, hs⟩
  · rw [if_neg hfns] at h h'
    replace h := (CheckM.run_lift_bind _ _ s).symm.trans h
    replace h' := (CheckM.run_lift_bind _ _ s').symm.trans h'
    obtain ⟨calls, hcalls, hnext⟩ := Option.bind_eq_some_iff.mp h
    obtain ⟨calls', hcalls', hnext'⟩ := Option.bind_eq_some_iff.mp h'
    have hsame : calls' = calls :=
      callsAmong_unique (stage.agreesOn_of_mirrors hspares hcycle hs) hnodup hrefs hcalls hcalls'
    subst hsame
    replace hnext := (CheckM.run_lift_bind _ _ s).symm.trans hnext
    replace hnext' := (CheckM.run_lift_bind _ _ s').symm.trans hnext'
    obtain ⟨loops, hloops, hnext⟩ := Option.bind_eq_some_iff.mp hnext
    obtain ⟨loops', hloops', hnext'⟩ := Option.bind_eq_some_iff.mp hnext'
    obtain rfl : loops = loops' := Option.some.inj (hloops.symm.trans hloops')
    dsimp only at hnext hnext'
    split at hnext
    · rename_i hgood
      rw [if_pos hgood] at hnext'
      cases hnext
      cases hnext'
      exact ⟨rfl, hs⟩
    · rename_i hbad
      rw [if_neg hbad] at hnext'
      cases hnext
      cases hnext'
      exact ⟨rfl, hs.reportAll _⟩

/-- Accepting the answers for declarations of the module adds to both sessions, but for the
examples. -/
theorem parallel_commit (hkeep : c.keepExamples = true) (stack : ℕ) {pending : List (Decl × Def)}
    (hpending : ∀ x ∈ pending, m.get? x.1.id = some x.1 ∧ x.2 = x.1.definition ∧
      .body x.1.id ∈ done) :
    Parallel m done done (c.commit pending) ((c.dropExamples stack).commit pending) := by
  have haccept : ∀ s s' : Session κ ρ, s.Mirrors m done s' →
      (s.commitAll c.learn c.keepExamples pending).Mirrors m done
        (s'.commitAll c.learn false pending) := by
    induction pending with
    | nil => exact fun s s' hs => hs
    | cons x pending ih =>
      intro s s' hs
      obtain ⟨hget, hresult, hdone⟩ := hpending x (by simp)
      have hboth := hs.commit c.learn hget hdone
      have hrest := ih (fun y hy => hpending y (by simp [hy])) _ _ hboth
      rw [commitAll_cons, commitAll_cons, hkeep, hresult]
      rw [hkeep] at hrest
      simpa using hrest
  intro s s' t t' r r' hs h h'
  cases h
  cases h'
  exact ⟨rfl, haccept s s' hs⟩

section Conclusion

variable (stage : Stage c.module done group) (hspares : c.module.SparesExamples)
  (hkeep : c.keepExamples = true) {pending : List (Decl × Def)}
  (hpending : c.Answers (fun d result => result = d.definition) (c.bodyIds group) pending)
include stage hpending

theorem body_mem_of_answers {x : Decl × Def} (hx : x ∈ pending) : .body x.1.id ∈ group := by
  refine stage.mem_ids_iff.mp ?_
  rw [← stage.bodyIds_eq, ← hpending.ids_eq]
  exact List.mem_map_of_mem hx

include hkeep

theorem parallel_accept (stack : ℕ) :
    Parallel c.module done (done ++ group) (c.commit pending)
      ((c.dropExamples stack).commit pending) := by
  intro s s' t t' r r' hs
  refine parallel_commit hkeep stack
    (fun x hx => ⟨hpending.declared x hx, hpending.answer x hx, ?_⟩)
    (hs.mono (List.subset_append_left _ _))
  exact List.mem_append_right _ (body_mem_of_answers stage hpending hx)

include hspares

theorem parallel_recursion (hcycle : ∀ u ∈ group, (ofModule c.module).onCycle u = true)
    (units : List CheckUnit) (stack : ℕ) :
    Parallel c.module done (done ++ group)
      (c.checkTermination (pending.map Prod.snd) units >>= fun _ => c.commit pending)
      ((c.dropExamples stack).checkTermination (pending.map Prod.snd) units >>= fun _ =>
        (c.dropExamples stack).commit pending) := by
  have hnodup : ((pending.map Prod.snd).map Def.id).Nodup := by
    have hids : (pending.map Prod.snd).map Def.id = c.bodyIds group := by
      rw [← hpending.ids_eq, List.map_map]
      refine List.map_congr_left fun x hx => ?_
      rw [Function.comp_apply, hpending.answer x hx]
      rfl
    rw [hids]
    exact nodup_bodyIds c group
  have hrefs : ∀ d ∈ pending.map Prod.snd, ∀ r ∈ d.bodyRefs, c.module.contains r = true →
      ∃ u ∈ group, (ofModule c.module).Path u (.body r) := by
    intro d hd r href hr
    obtain ⟨x, hx, rfl⟩ := List.mem_map.mp hd
    rw [hpending.answer x hx] at href
    have hedge := DependencyGraph.edge_ofModule_iff.mpr (.body (hpending.declared x hx) href hr)
    exact ⟨_, body_mem_of_answers stage hpending hx, .single hedge⟩
  exact (parallel_checkTermination stage hspares hcycle hnodup hrefs units stack).bind_of
    (fun _ _ _ _ => trivial) (fun _ (_ : True) => parallel_accept stage hkeep hpending stack)
    (List.subset_append_left _ _)

theorem parallel_concludeUnit (hgraph : c.graph = ofModule c.module) {u : CheckUnit}
    (hcycle : (ofModule c.module).onCycle u = true →
      ∀ v ∈ group, (ofModule c.module).onCycle v = true) (stack : ℕ) :
    Parallel c.module done (done ++ group) (c.concludeUnit u pending)
      ((c.dropExamples stack).concludeUnit u pending) := by
  have hdropped : (c.dropExamples stack).graph = ofModule c.module := hgraph
  unfold concludeUnit
  rw [hgraph, hdropped]
  split
  · rename_i hrecursive
    have hall := hcycle ((Bool.and_eq_true _ _).mp hrecursive).2
    exact parallel_recursion stage hspares hkeep hpending hall [u] stack
  · exact parallel_accept stage hkeep hpending stack

theorem parallel_conclude (hgraph : c.graph = ofModule c.module) (stack : ℕ) :
    Parallel c.module done (done ++ group) (c.conclude group pending)
      ((c.dropExamples stack).conclude group pending) := by
  match group, stage, hpending with
  | [], stage, _ => exact absurd rfl stage.ne_nil
  | [u], stage, hpending =>
    refine parallel_concludeUnit stage hspares hkeep hpending hgraph (fun h v hv => ?_) stack
    rwa [List.mem_singleton.mp hv]
  | u :: v :: rest, stage, hpending =>
    have hcycle : ∀ w ∈ u :: v :: rest, (ofModule c.module).onCycle w = true := fun w hw =>
      stage.onCycle_of_several (by simp) hw
    simp only [conclude]
    have hids : (c.dropExamples stack).declIds (u :: v :: rest) = c.declIds (u :: v :: rest) := rfl
    rw [hids]
    split
    · exact parallel_concludeUnit stage hspares hkeep hpending hgraph (fun _ => hcycle) stack
    · exact parallel_recursion stage hspares hkeep hpending hcycle _ stack

end Conclusion

section Module

variable (hspares : c.module.SparesExamples) (hkeep : c.keepExamples = true)
  (hgraph : c.graph = ofModule c.module) (hown : c.checker.ReturnsOwn)
include hspares hkeep hgraph hown

theorem parallel_checkMembers (stage : Stage c.module done group) (stack : ℕ) :
    Parallel c.module done (done ++ group) (c.checkMembers group)
      ((c.dropExamples stack).checkMembers group) := by
  have hexamine : (c.dropExamples stack).examine group = c.examine group := rfl
  rw [checkMembers_eq, checkMembers_eq, hexamine]
  refine (parallel_examine group).bind_of (delivers_examine hown group).result
    (fun pending hpending => ?_) (List.subset_append_left _ _)
  exact parallel_conclude stage hspares hkeep hpending hgraph stack

theorem mirrors_checkComponent (stage : Stage c.module done group) {stack : ℕ}
    {s s' t t' : Session κ ρ} {r r' : Except Failure Unit} (hs : s.Mirrors c.module done s')
    (h : c.checkComponent group s = some (r, t))
    (h' : (c.dropExamples stack).checkComponent group s' = some (r', t')) :
    r' = r ∧ t.Mirrors c.module (done ++ group) t' := by
  obtain ⟨⟨r₁, t₁⟩, hrun, hend⟩ := Option.bind_eq_some_iff.mp h
  obtain ⟨⟨r₁', t₁'⟩, hrun', hend'⟩ := Option.bind_eq_some_iff.mp h'
  obtain ⟨rfl, ht₁⟩ :=
    parallel_checkMembers hspares hkeep hgraph hown stage stack hs.begin hrun hrun'
  cases r₁' with
  | ok _ =>
    cases hend
    cases hend'
    exact ⟨rfl, ht₁⟩
  | error failure =>
    cases hend
    cases hend'
    exact ⟨rfl, ht₁.rollback⟩

variable {skipDependents : Bool} {stack : ℕ} {p p' q q' : Progress κ ρ}

/-- Both checks skip the next component, or both accept it, or both fail with the same units. -/
theorem mirrors_step (stage : Stage c.module done group) (hp : p.Mirrors c.module done p')
    (h : c.step skipDependents p group = some q)
    (h' : (c.dropExamples stack).step skipDependents p' group = some q') :
    q.Mirrors c.module (done ++ group) q' := by
  have hguard : (c.dropExamples stack).graph.dependsOnAny group p'.poisoned =
      c.graph.dependsOnAny group p.poisoned := congrArg _ hp.poisoned
  have hpoisoned : p'.poisoned ++ group = p.poisoned ++ group := congrArg (· ++ group) hp.poisoned
  unfold step at h h'
  rw [hguard] at h'
  by_cases hskip : (skipDependents && c.graph.dependsOnAny group p.poisoned) = true
  · rw [if_pos hskip] at h h'
    cases h
    cases h'
    exact ⟨(hp.session.report _).mono (List.subset_append_left _ _), hpoisoned, hp.failed,
      congrArg (· ++ group) hp.skipped⟩
  · rw [if_neg hskip] at h h'
    obtain ⟨⟨r, t⟩, hchecked, hend⟩ := Option.bind_eq_some_iff.mp h
    obtain ⟨⟨r', t'⟩, hchecked', hend'⟩ := Option.bind_eq_some_iff.mp h'
    obtain ⟨rfl, ht⟩ :=
      mirrors_checkComponent hspares hkeep hgraph hown stage hp.session hchecked hchecked'
    cases r' with
    | ok _ =>
      cases hend
      cases hend'
      exact ⟨ht, hp.poisoned, hp.failed, hp.skipped⟩
    | error failure =>
      cases hend
      cases hend'
      exact ⟨ht, hpoisoned, congrArg (· ++ failure.units) hp.failed, hp.skipped⟩

theorem mirrors_foldlM (earlier : List (List CheckUnit)) {groups : List (List CheckUnit)}
    (hsplit : (ofModule c.module).components = earlier ++ groups)
    (hp : p.Mirrors c.module earlier.flatten p')
    (h : groups.foldlM (c.step skipDependents) p = some q)
    (h' : groups.foldlM ((c.dropExamples stack).step skipDependents) p' = some q') :
    q.Mirrors c.module (earlier ++ groups).flatten q' := by
  -- the induction is on the components to come, each of which is a stage after the earlier ones
  induction groups generalizing earlier p p' with
  | nil =>
    cases h
    cases h'
    rwa [List.append_nil]
  | cons group groups ih =>
    rw [List.foldlM_cons] at h h'
    obtain ⟨next, hnext, hrest⟩ := Option.bind_eq_some_iff.mp h
    obtain ⟨next', hnext', hrest'⟩ := Option.bind_eq_some_iff.mp h'
    have hkept := mirrors_step hspares hkeep hgraph hown (stage_of_split hsplit) hp hnext hnext'
    rw [← List.flatten_concat] at hkept
    rw [List.append_cons]
    exact ih _ (by simp [hsplit]) hkept hrest hrest'

/-- From sessions that mirror each other the whole checks go side by side. -/
theorem mirrors_run {s s' : Session κ ρ} (hs : s.Mirrors c.module [] s')
    (h : c.run skipDependents s = some q)
    (h' : (c.dropExamples stack).run skipDependents s' = some q') :
    q.Mirrors c.module (ofModule c.module).components.flatten q' := by
  have hdropped : (c.dropExamples stack).graph = ofModule c.module := hgraph
  unfold run at h h'
  rw [hgraph] at h
  rw [hdropped] at h'
  have hstart : Progress.Mirrors c.module [] { session := s } { session := s' } :=
    ⟨hs, rfl, rfl, rfl⟩
  exact mirrors_foldlM hspares hkeep hgraph hown [] rfl hstart h h'

end Module

end Setup

namespace Module

/-- A function that is an example: the successor of a number. -/
def successor : Decl where
  definition := .fn
    { id := ⟨2⟩
      name := "next"
      telescope := [⟨"n", .dataCall ⟨1⟩ 0 [], true⟩]
      result := .dataCall ⟨1⟩ 0 []
      body := .expr (.conCall ⟨1⟩ ⟨11⟩ 0 [] [.bound 0]) }
  isExample := true

/-- A recursive function that takes two off a number and has the example put one back. -/
def stepDown : Decl where
  definition := .fn
    { id := ⟨3⟩
      name := "f"
      telescope := [⟨"n", .dataCall ⟨1⟩ 0 [], true⟩]
      result := .sort 0
      body := .clauses [⟨[.con ⟨1⟩ ⟨11⟩ 0 []
          [.con ⟨1⟩ ⟨11⟩ 0 [] [.bind ⟨.supplied 0, "n"⟩ (.dataCall ⟨1⟩ 0 [])]]],
        .fnCall ⟨3⟩ 0 [.fnCall ⟨2⟩ 0 [.bound 0]]⟩] }

def borrowing : Module := ofDecls [numbers, successor, stepDown]

/-- The recursion is seen to end only by those who know the example. -/
theorem exists_example_relied_on :
    ¬ ∀ (m : Module) (skipDependents : Bool) (stack : ℕ) (p p' : Progress ScopeState Shapes),
      Setup.run ⟨m, ofModule m, scopeChecker, Shapes.learn, true, stack⟩ skipDependents
        { checker := .ofModule m, shapes := .empty } = some p →
      Setup.run ⟨m, ofModule m, scopeChecker, Shapes.learn, false, stack⟩ skipDependents
        { checker := .ofModule m, shapes := .empty } = some p' →
      p'.report.failed = p.report.failed ∧ p'.report.skipped = p.report.skipped ∧
        p'.report.accepted = p.report.accepted.filter fun d => !m.isExample d.id := by
  intro hsame
  have hkept : (Setup.run ⟨borrowing, ofModule borrowing, scopeChecker, Shapes.learn, true, 10⟩ true
      { checker := .ofModule borrowing, shapes := .empty }).any
        (fun p => p.report.failed = []) = true := by decide +kernel
  have hdropped : (Setup.run
      ⟨borrowing, ofModule borrowing, scopeChecker, Shapes.learn, false, 10⟩ true
      { checker := .ofModule borrowing, shapes := .empty }).any
        (fun p => p.report.failed = [.body ⟨3⟩]) = true := by decide +kernel
  obtain ⟨p, hrun, hp⟩ := (Option.any_eq_true _ _).mp hkept
  obtain ⟨p', hrun', hp'⟩ := (Option.any_eq_true _ _).mp hdropped
  have hfailed := (hsame borrowing true 10 p p' hrun hrun').1
  rw [of_decide_eq_true hp, of_decide_eq_true hp'] at hfailed
  cases hfailed

/-- If recursion depends on no examples but those that take part in it, then keeping the examples
changes nothing except that they are accepted: the same units fail, the same are skipped, the same
is reported, and the definitions that are not examples are accepted in the same order. -/
theorem keeping_examples_adds_them (m : Module) (hspares : m.SparesExamples) {ρ : Type}
    (learn : ρ → Def → ρ) (shapes : ρ) (skipDependents : Bool) (fuel stack stack' : ℕ)
    {p p' : Progress ScopeState ρ}
    (h : Setup.run ⟨m, ofModule m, scopeChecker, learn, true, stack⟩ skipDependents
      { checker := .ofModule m, shapes := shapes, env := { fuel := fuel } } = some p)
    (h' : Setup.run ⟨m, ofModule m, scopeChecker, learn, false, stack'⟩ skipDependents
      { checker := .ofModule m, shapes := shapes, env := { fuel := fuel } } = some p') :
    p'.report.failed = p.report.failed ∧ p'.report.skipped = p.report.skipped ∧
      p'.report.accepted = p.report.accepted.filter (fun d => !m.isExample d.id) ∧
      p'.session.reported = p.session.reported := by
  have hend := Setup.mirrors_run (c := ⟨m, ofModule m, scopeChecker, learn, true, stack⟩)
    hspares rfl rfl returnsOwn_scopeChecker (.start m _ shapes fuel) h h'
  exact ⟨hend.failed, hend.skipped, hend.session.accepted, hend.session.reported⟩

/-- Two functions that call each other, one of them an example, a faulty function, a constant that
rests on it, and two more examples, one of which uses the other. -/
def practice : Module :=
  ofDecls [numbers, passOn ⟨2⟩ ⟨3⟩, { passOn ⟨3⟩ ⟨2⟩ with isExample := true }, escaping,
    Setup.constant ⟨5⟩ (.fnCall ⟨4⟩ 0 []),
    { Setup.constant ⟨6⟩ (.lam (.fnCall ⟨2⟩ 0 [.bound 0])) with isExample := true },
    { Setup.constant ⟨7⟩ (.fnCall ⟨6⟩ 0 []) with isExample := true }]

theorem keeping_examples_adds_them_practice :
    practice.SparesExamples ∧ ∃ p p',
      Setup.run ⟨practice, ofModule practice, scopeChecker, Shapes.learn, true, 10⟩ true
        { checker := .ofModule practice, shapes := .empty, env := { fuel := 50 } } = some p ∧
      Setup.run ⟨practice, ofModule practice, scopeChecker, Shapes.learn, false, 12⟩ true
        { checker := .ofModule practice, shapes := .empty, env := { fuel := 50 } } = some p' ∧
      p.report.accepted.map Def.id = [⟨1⟩, ⟨2⟩, ⟨3⟩, ⟨6⟩, ⟨7⟩] ∧
      p.report.failed = [.body ⟨4⟩] ∧ p.report.skipped = [.body ⟨5⟩] ∧
      p'.report.failed = p.report.failed ∧ p'.report.skipped = p.report.skipped ∧
      p'.report.accepted = p.report.accepted.filter (fun d => !practice.isExample d.id) ∧
      p'.session.reported = p.session.reported := by
  have hspares : practice.SparesExamples := by decide +kernel
  have hkept : (Setup.run ⟨practice, ofModule practice, scopeChecker, Shapes.learn, true, 10⟩ true
      { checker := .ofModule practice, shapes := .empty, env := { fuel := 50 } }).any (fun p =>
        p.report.accepted.map Def.id = [⟨1⟩, ⟨2⟩, ⟨3⟩, ⟨6⟩, ⟨7⟩] ∧
          p.report.failed = [.body ⟨4⟩] ∧ p.report.skipped = [.body ⟨5⟩]) = true := by
    decide +kernel
  have hdropped : (Setup.run
      ⟨practice, ofModule practice, scopeChecker, Shapes.learn, false, 12⟩ true
      { checker := .ofModule practice, shapes := .empty, env := { fuel := 50 } }).isSome =
        true := by decide +kernel
  obtain ⟨p, hrun, hp⟩ := (Option.any_eq_true _ _).mp hkept
  obtain ⟨p', hrun'⟩ := Option.isSome_iff_exists.mp hdropped
  obtain ⟨haccepted, hfailed, hskipped⟩ := of_decide_eq_true hp
  exact ⟨hspares, p, p', hrun, hrun', haccepted, hfailed, hskipped,
    keeping_examples_adds_them practice hspares Shapes.learn .empty true 50 10 12 hrun hrun'⟩

end Module

end ProofCore
