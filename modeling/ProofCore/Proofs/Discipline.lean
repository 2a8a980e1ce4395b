import ProofCore.Proofs.Conduct

/-!
# Checking discipline

The record of a checker's uses shows that every unit is visited at most once, and only after the
signatures that it relies on were visited and found good. So the scope checker, which accepts a
reference if the signature was accepted before, complains only of references that the module does
not declare.
-/
namespace ProofCore

open DependencyGraph (ofModule)

namespace Visit

def decl : Visit → Decl
  | .header d _ => d
  | .body d _ => d

def unit : Visit → CheckUnit
  | .header d _ => .head d.id
  | .body d _ => .body d.id

/-- The signatures that must have been found good before. -/
def needs : Visit → List DefId
  | .header d _ => d.definition.headerRefs
  | .body d _ => d.id :: d.definition.headerRefs ++ d.definition.bodyRefs

end Visit

/-- The signature of `id` was visited without an error. -/
def FoundGood (log : List Visit) (id : DefId) : Prop :=
  ∃ d reported, d.id = id ∧ Visit.header d reported ∈ log ∧ Diagnostic.hasErrors reported = false

theorem FoundGood.append {log : List Visit} {id : DefId} (h : FoundGood log id) (vs : List Visit) :
    FoundGood (log ++ vs) id := by
  obtain ⟨d, reported, hd, hmem, hgood⟩ := h
  exact ⟨d, reported, hd, List.mem_append_left _ hmem, hgood⟩

/-- Only declarations of the module are visited, each signature and each body at most once, and
what a visit needs was found good before. -/
structure Disciplined (m : Module) (log : List Visit) : Prop where
  declared : ∀ v ∈ log, m.get? v.decl.id = some v.decl
  once : (log.map Visit.unit).Nodup
  prepared : ∀ earlier v later, log = earlier ++ v :: later →
    ∀ r ∈ v.needs, m.contains r = true → FoundGood earlier r

theorem Disciplined.concat {m : Module} {log : List Visit} (h : Disciplined m log) {v : Visit}
    (declared : m.get? v.decl.id = some v.decl) (new : v.unit ∉ log.map Visit.unit)
    (ready : ∀ r ∈ v.needs, m.contains r = true → FoundGood log r) :
    Disciplined m (log ++ [v]) := by
  refine ⟨fun w hw => ?_, ?_, fun earlier w later hsplit => ?_⟩
  · rcases List.mem_append.mp hw with hw | hw
    · exact h.declared w hw
    · rw [List.mem_singleton.mp hw]
      exact declared
  · rw [List.map_append, List.map_singleton, List.nodup_append]
    refine ⟨h.once, List.nodup_singleton _, fun u hu u' hu' => ?_⟩
    rw [List.mem_singleton.mp hu']
    exact fun heq => new (heq ▸ hu)
  · -- The last visit is the new one, and all others were there before.
    rcases List.eq_nil_or_concat later with rfl | ⟨front, last, rfl⟩
    · obtain ⟨rfl, hv⟩ := List.append_inj' hsplit rfl
      cases hv
      exact ready
    · rw [List.concat_eq_append, ← List.cons_append, ← List.append_assoc] at hsplit
      exact h.prepared earlier w front (List.append_inj' hsplit rfl).1

namespace Session

variable {κ ρ : Type}

theorem checker_ask (s : Session κ ρ) (k : κ) (ds : List Diagnostic) :
    (({ s with checker := k } : Session κ ρ).reportAll ds).checker = k :=
  ((SameState.refl _).reportAll ds).checker

/-- If nothing is counted after a report, there was no error in it. -/
theorem hasErrors_of_anyError {s : Session κ ρ} {ds : List Diagnostic}
    (h : (s.reportAll ds).tally.anyError = false) : Diagnostic.hasErrors ds = false := by
  have hzero : (Diagnostic.errors ds).length = 0 := by
    rw [Tally.anyError, decide_eq_false_iff_not, errors_reportAll] at h
    omega
  rw [List.length_eq_zero_iff, Diagnostic.errors, List.filter_eq_nil_iff] at hzero
  rw [Diagnostic.hasErrors, List.any_eq_false]
  exact hzero

end Session

namespace Setup

section Logged

variable {κ ρ : Type} {c : Setup (κ × List Visit) ρ} {checker : Checker κ}
  {s t : Session (κ × List Visit) ρ} {units : List CheckUnit}

theorem log_askHeader (hc : c.checker = checker.logged) (t : Session (κ × List Visit) ρ)
    (d : Decl) : (c.askHeader t d).checker.2 =
      t.checker.2 ++ [.header d (c.checker.header t.checker d).2] := by
  rw [askHeader, Session.checker_ask, hc]
  rfl

theorem log_askBody (hc : c.checker = checker.logged) (t : Session (κ × List Visit) ρ) (d : Decl) :
    (c.askBody t d).checker.2 = t.checker.2 ++ [.body d (c.checker.body t.checker d).2.1] := by
  rw [askBody, Session.checker_ask, hc]
  rfl

/-- The record shows the units in the order of the questions, and the known signatures as good. -/
structure Recorded (c : Setup (κ × List Visit) ρ) (units : List CheckUnit)
    (t : Session (κ × List Visit) ρ) : Prop where
  units_eq : t.checker.2.map Visit.unit = units
  known : ∀ id ∈ t.headers, FoundGood t.checker.2 id
  disciplined : Disciplined c.module t.checker.2

theorem Recorded.visit (h : c.Recorded units t) {v : Visit}
    {t' : Session (κ × List Visit) ρ} (hlog : t'.checker.2 = t.checker.2 ++ [v])
    (declared : c.module.get? v.decl.id = some v.decl) (once : v.unit ∉ units)
    (ready : c.Knows t v.needs) (hheaders : ∀ id ∈ t'.headers, id ∈ t.headers ∨
      FoundGood (t.checker.2 ++ [v]) id) : c.Recorded (units ++ [v.unit]) t' := by
  refine ⟨?_, fun id hid => ?_, ?_⟩
  · rw [hlog, List.map_append, h.units_eq, List.map_singleton]
  · rw [hlog]
    rcases hheaders id hid with hold | hnew
    · exact (h.known id hold).append [v]
    · exact hnew
  · rw [hlog]
    exact h.disciplined.concat declared (h.units_eq.symm ▸ once)
      fun r hr hcontains => h.known r (ready r hr hcontains)

theorem Conduct.recorded (hc : c.checker = checker.logged) (hlog : s.checker.2 = [])
    (hheaders : s.headers = []) (h : c.Conduct s units t) : c.Recorded units t := by
  induction h with
  | start =>
    refine ⟨by simp [hlog], by simp [hheaders], ?_⟩
    rw [hlog]
    exact ⟨by simp, by simp, fun earlier v later hsplit => by simp at hsplit⟩
  | report before diag other ih => exact ⟨ih.units_eq, ih.known, ih.disciplined⟩
  | rejectHeader before d declared once ready ih =>
    refine ih.visit (log_askHeader hc _ d) declared once ready fun id hid => .inl ?_
    rwa [headers_askHeader] at hid
  | @acceptHeader units t before d declared once ready good ih =>
    have hlog : ((c.askHeader t d).know d.id).checker.2 = _ := log_askHeader hc t d
    refine ih.visit hlog declared once ready fun id hid => ?_
    have hmem : id ∈ t.headers ++ [d.id] := by
      have hknow : ((c.askHeader t d).know d.id).headers = (c.askHeader t d).headers ++ [d.id] :=
        rfl
      rwa [hknow, headers_askHeader] at hid
    refine (List.mem_append.mp hmem).imp_right fun hid => ?_
    exact ⟨d, _, (List.mem_singleton.mp hid).symm, List.mem_append_right _ (by simp),
      Session.hasErrors_of_anyError good⟩
  | askBody before d declared once ready ih =>
    refine ih.visit (log_askBody hc _ d) declared once ready fun id hid => .inl ?_
    rwa [headers_askBody] at hid
  | settle before checker reported headers ih =>
    refine ⟨checker ▸ ih.units_eq, fun id hid => ?_, checker ▸ ih.disciplined⟩
    rw [checker]
    exact ih.known id (headers hid)

end Logged

section Scope

variable {ρ : Type} {c : Setup ScopeState ρ} {s t : Session ScopeState ρ} {units : List CheckUnit}

/-- A complaint about a reference that the module does not declare. -/
def Foreign (m : Module) (diag : Diagnostic) : Prop :=
  ∃ d ∈ m.decls, ∃ r ∈ d.definition.headerRefs ++ d.definition.bodyRefs,
    m.contains r = false ∧ diag = (Fault.notYetChecked d.name r.text).diagnostic

/-- The checker knows the signatures that the session knows, and complains of foreign references
only. -/
structure InScope (m : Module) (t : Session ScopeState ρ) : Prop where
  names : t.checker.names = (ScopeState.ofModule m).names
  known : t.headers ⊆ t.checker.headers
  foreign : ∀ diag ∈ t.reported, diag.code = some "E0305" → Foreign m diag

theorem nameOf_of_not_contains {m : Module} {k : ScopeState}
    (hnames : k.names = (ScopeState.ofModule m).names) {r : DefId} (hr : m.contains r = false) :
    k.nameOf r = r.text := by
  have hnone : m.table.get? r = none := Option.isNone_iff_eq_none.mp (by
    rw [← Option.not_isSome]
    exact congrArg (!·) hr)
  rw [ScopeState.nameOf, hnames, ScopeState.ofModule, Table.get?_mapEntries, hnone]
  rfl

/-- The faults that the scope checker finds when all declared references are known. -/
theorem foreign_of_mem_faults {m : Module} {k : ScopeState}
    (hnames : k.names = (ScopeState.ofModule m).names) {d : Decl} (hd : m.get? d.id = some d)
    {terms : List (ℕ × Term)} {refs : List DefId}
    (hrefs : refs ⊆ d.definition.headerRefs ++ d.definition.bodyRefs)
    (known : ∀ r ∈ refs, m.contains r = true → r ∈ k.headers) {f : Fault}
    (hf : f ∈ k.faults d terms refs) (hcode : f.diagnostic.code = some "E0305") :
    Foreign m f.diagnostic := by
  rw [ScopeState.faults, List.mem_append] at hf
  rcases hf with hf | hf
  · obtain ⟨term, -, hterm⟩ := List.mem_filterMap.mp hf
    obtain ⟨escape, -, rfl⟩ := Option.map_eq_some_iff.mp hterm
    simp [Fault.diagnostic, Fault.code] at hcode
  · obtain ⟨r, hr, rfl⟩ := List.mem_map.mp hf
    obtain ⟨hmem, hunknown⟩ := List.mem_filter.mp hr
    have hcontains : m.contains r = false := by
      rw [← Bool.not_eq_true]
      intro hcontains
      simp [ScopeState.knows, known r hmem hcontains] at hunknown
    exact ⟨d, Module.mem_decls_iff.mpr hd, r, hrefs hmem, hcontains, by
      rw [nameOf_of_not_contains hnames hcontains]⟩

theorem scopeChecker_header (k : ScopeState) (d : Decl) :
    (scopeChecker.header k d).1.names = k.names ∧
      k.headers ⊆ (scopeChecker.header k d).1.headers ∧
      (scopeChecker.header k d).2 = (k.headerFaults d).map Fault.diagnostic ∧
      (k.headerFaults d = [] → d.id ∈ (scopeChecker.header k d).1.headers) := by
  cases hfaults : k.headerFaults d <;> simp [scopeChecker, hfaults]

theorem scopeChecker_body (k : ScopeState) (d : Decl) :
    (scopeChecker.body k d).1 = k ∧
      (scopeChecker.body k d).2.1 = (k.bodyFaults d).map Fault.diagnostic := by
  cases hfaults : k.bodyFaults d <;> simp [scopeChecker, hfaults]

theorem InScope.ask {m : Module} (h : InScope m t) {k : ScopeState} {faults : List Fault}
    (hnames : k.names = t.checker.names) (hheaders : t.checker.headers ⊆ k.headers)
    (hfaults : ∀ f ∈ faults, f.diagnostic.code = some "E0305" → Foreign m f.diagnostic) :
    InScope m (({ t with checker := k } : Session ScopeState ρ).reportAll
      (faults.map Fault.diagnostic)) := by
  refine ⟨?_, ?_, fun diag hdiag hcode => ?_⟩
  · rw [Session.checker_ask]
    exact hnames.trans h.names
  · rw [Session.checker_ask, (t.learns_ask _ _).headers, List.append_nil]
    exact List.Subset.trans h.known hheaders
  · rw [Session.reported_reportAll] at hdiag
    rcases List.mem_append.mp hdiag with hdiag | hdiag
    · exact h.foreign diag hdiag hcode
    · obtain ⟨f, hf, rfl⟩ := List.mem_map.mp hdiag
      exact hfaults f hf hcode

theorem InScope.askHeader (hc : c.checker = scopeChecker) (h : InScope c.module t) {d : Decl}
    (declared : c.module.get? d.id = some d) (ready : c.Knows t d.definition.headerRefs) :
    InScope c.module (c.askHeader t d) := by
  obtain ⟨hnames, hheaders, hreported, -⟩ := scopeChecker_header t.checker d
  rw [Setup.askHeader, hc, hreported]
  refine h.ask hnames hheaders fun f hf hcode => ?_
  exact foreign_of_mem_faults h.names declared (List.subset_append_left _ _)
    (fun r hr hcontains => h.known (ready r hr hcontains)) hf hcode

theorem InScope.askBody (hc : c.checker = scopeChecker) (h : InScope c.module t) {d : Decl}
    (declared : c.module.get? d.id = some d)
    (ready : c.Knows t (d.id :: d.definition.headerRefs ++ d.definition.bodyRefs)) :
    InScope c.module (c.askBody t d) := by
  obtain ⟨hchecker, hreported⟩ := scopeChecker_body t.checker d
  rw [Setup.askBody, hc, hreported, hchecker]
  refine h.ask rfl (List.Subset.refl _) fun f hf hcode => ?_
  refine foreign_of_mem_faults h.names declared ?_ ?_ hf hcode
  · exact fun r hr => List.mem_append_right _ (List.mem_of_mem_filter hr)
  · intro r hr hcontains
    exact h.known (ready r (List.mem_append_right _ (List.mem_of_mem_filter hr)) hcontains)

/-- A signature that was accepted is known to the checker from then on. -/
theorem mem_headers_askHeader (hc : c.checker = scopeChecker) {d : Decl}
    (good : (c.askHeader t d).tally.anyError = false) :
    d.id ∈ (c.askHeader t d).checker.headers := by
  obtain ⟨-, -, hreported, hknown⟩ := scopeChecker_header t.checker d
  have hgood : Diagnostic.hasErrors (c.checker.header t.checker d).2 = false :=
    Session.hasErrors_of_anyError good
  rw [hc, hreported] at hgood
  have hnone : t.checker.headerFaults d = [] := by
    cases hfaults : t.checker.headerFaults d with
    | nil => rfl
    | cons f fs => simp [hfaults, Diagnostic.hasErrors, Diagnostic.isError, Fault.diagnostic] at hgood
  rw [Setup.askHeader, Session.checker_ask, hc]
  exact hknown hnone

theorem Conduct.inScope (hc : c.checker = scopeChecker) (hs : InScope c.module s)
    (h : c.Conduct s units t) : InScope c.module t := by
  induction h with
  | start => exact hs
  | report before diag other ih =>
    refine ⟨ih.names, ih.known, fun e he hcode => ?_⟩
    rcases List.mem_append.mp he with he | he
    · exact ih.foreign e he hcode
    · rw [List.mem_singleton.mp he] at hcode
      exact absurd hcode other
  | rejectHeader before d declared once ready ih => exact ih.askHeader hc declared ready
  | @acceptHeader units t before d declared once ready good ih =>
    have hasked := ih.askHeader hc declared ready
    refine ⟨hasked.names, fun id hid => ?_, hasked.foreign⟩
    rcases List.mem_append.mp hid with hid | hid
    · exact hasked.known hid
    · rw [List.mem_singleton.mp hid]
      exact mem_headers_askHeader hc good
  | askBody before d declared once ready ih => exact ih.askBody hc declared ready
  | settle before checker reported headers ih =>
    refine ⟨checker ▸ ih.names, ?_, reported ▸ ih.foreign⟩
    rw [checker]
    exact List.Subset.trans headers ih.known

end Scope

end Setup

namespace Module

/-- Whatever the checker answers, and wherever a run may stop, the signature and the body of a
declaration are visited at most once, a body only after its own signature and those of all
declarations that it refers to were found good. Hence the scope checker complains of a reference as
not yet checked only if the module does not declare it. -/
theorem disciplined_of_passesThrough (m : Module) {ρ : Type} (learn : ρ → Def → ρ)
    (keepExamples : Bool) (stack : ℕ) (shapes : ρ) (env : Env) :
    (∀ (κ : Type) (checker : Checker κ) (k : κ) (t : Session (κ × List Visit) ρ),
      Setup.PassesThrough ⟨m, ofModule m, checker.logged, learn, keepExamples, stack⟩ true
        { checker := (k, []), shapes := shapes, env := env } t → Disciplined m t.checker.2) ∧
    ∀ t : Session ScopeState ρ,
      Setup.PassesThrough ⟨m, ofModule m, scopeChecker, learn, keepExamples, stack⟩ true
        { checker := .ofModule m, shapes := shapes, env := env } t →
      ∀ diag ∈ t.reported, diag.code = some "E0305" →
        ∃ d ∈ m.decls, ∃ r ∈ d.definition.headerRefs ++ d.definition.bodyRefs,
          m.contains r = false ∧ diag = (Fault.notYetChecked d.name r.text).diagnostic := by
  constructor
  · intro κ checker k t h
    obtain ⟨units, hconduct⟩ := h.exists_conduct rfl
    exact (hconduct.recorded rfl rfl rfl).disciplined
  · intro t h
    obtain ⟨units, hconduct⟩ := h.exists_conduct rfl
    have hstart : Setup.InScope m
        ({ checker := .ofModule m, shapes := shapes, env := env } : Session ScopeState ρ) :=
      ⟨rfl, List.Subset.refl _, by simp⟩
    exact (hconduct.inScope rfl hstart).foreign

/-- The first constant rests on the second, which refers to something undeclared. -/
def dangling : Module :=
  ofDecls [Setup.constant ⟨1⟩ (.fnCall ⟨2⟩ 0 []), Setup.constant ⟨2⟩ (.fnCall ⟨9⟩ 0 [])]

theorem disciplined_of_passesThrough_dangling :
    (∃ p, Setup.run ⟨dangling, ofModule dangling, scopeChecker.logged, Shapes.learn, false, 10⟩ true
        { checker := (.ofModule dangling, []), shapes := .empty } = some p ∧
      p.session.checker.2.map Visit.unit = [.head ⟨1⟩, .head ⟨2⟩, .body ⟨2⟩] ∧
      Disciplined dangling p.session.checker.2) ∧
    ∃ p, Setup.run ⟨dangling, ofModule dangling, scopeChecker, Shapes.learn, false, 10⟩ true
        { checker := .ofModule dangling, shapes := .empty } = some p ∧
      (∃ diag ∈ p.session.reported, diag.code = some "E0305") ∧
      ∀ diag ∈ p.session.reported, diag.code = some "E0305" →
        ∃ d ∈ dangling.decls, ∃ r ∈ d.definition.headerRefs ++ d.definition.bodyRefs,
          dangling.contains r = false ∧
            diag = (Fault.notYetChecked d.name r.text).diagnostic := by
  have hvisits : (Setup.run
      ⟨dangling, ofModule dangling, scopeChecker.logged, Shapes.learn, false, 10⟩ true
        { checker := (.ofModule dangling, []), shapes := .empty }).any (fun p =>
      p.session.checker.2.map Visit.unit = [.head ⟨1⟩, .head ⟨2⟩, .body ⟨2⟩]) = true := by
    decide +kernel
  have hcomplains : (Setup.run
      ⟨dangling, ofModule dangling, scopeChecker, Shapes.learn, false, 10⟩ true
        { checker := .ofModule dangling, shapes := .empty }).any (fun p =>
      p.session.reported.any fun diag => diag.code = some "E0305") = true := by
    decide +kernel
  obtain ⟨hlogged, hscope⟩ :=
    disciplined_of_passesThrough dangling Shapes.learn false 10 .empty {}
  obtain ⟨p, hp, hunits⟩ := (Option.any_eq_true _ _).mp hvisits
  obtain ⟨q, hq, hdiag⟩ := (Option.any_eq_true _ _).mp hcomplains
  refine ⟨⟨p, hp, of_decide_eq_true hunits, ?_⟩, q, hq, ?_, ?_⟩
  · exact hlogged ScopeState scopeChecker (.ofModule dangling) _ (Setup.passesThrough_of_run hp)
  · obtain ⟨diag, hmem, hcode⟩ := List.any_eq_true.mp hdiag
    exact ⟨diag, hmem, of_decide_eq_true hcode⟩
  · exact hscope _ (Setup.passesThrough_of_run hq)

end Module

end ProofCore
