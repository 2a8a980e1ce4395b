import ProofCore.Proofs.ComponentPhases
import ProofCore.Proofs.Turns

/-!
# Errors and failures

Whether a component fails is decided by a count of errors that is read after each question to the
checker. The count is taken since the last failure, not since the component began. So it has to be
zero whenever a component begins, and then a component fails exactly if an error was reported
while it was checked.
-/
namespace ProofCore

theorem Diagnostic.hasErrors_iff_length {ds : List Diagnostic} :
    hasErrors ds = true ↔ 0 < (errors ds).length := by
  rw [List.length_pos_iff_exists_mem, hasErrors, List.any_eq_true]
  simp only [errors, List.mem_filter]

namespace Session

variable {κ ρ : Type} {s t u : Session κ ρ}

/-- From `s` to `t` the diagnostics `new` were passed on, and their errors counted. -/
structure PassesOn (s t : Session κ ρ) (new : List Diagnostic) : Prop where
  reported : t.reported = s.reported ++ new
  errors : t.tally.errors = s.tally.errors + (Diagnostic.errors new).length

namespace PassesOn

variable {new new' : List Diagnostic}

theorem refl (s : Session κ ρ) : s.PassesOn s [] := ⟨(List.append_nil _).symm, rfl⟩

theorem trans (h : s.PassesOn t new) (h' : t.PassesOn u new') : s.PassesOn u (new ++ new') := by
  constructor
  · rw [h'.reported, h.reported, List.append_assoc]
  · rw [h'.errors, h.errors, Diagnostic.errors, Diagnostic.errors, Diagnostic.errors,
      List.filter_append, List.length_append, Nat.add_assoc]

theorem anyError_iff (h : s.PassesOn t new) (hs : s.tally.errors = 0) :
    t.tally.anyError = true ↔ Diagnostic.hasErrors new = true := by
  rw [Tally.anyError, decide_eq_true_eq, h.errors, hs, Nat.zero_add,
    Diagnostic.hasErrors_iff_length]

theorem errors_eq_zero (h : s.PassesOn t new) (hs : s.tally.errors = 0)
    (hnew : Diagnostic.hasErrors new = false) : t.tally.errors = 0 := by
  rw [← Bool.not_eq_true, ← h.anyError_iff hs, Tally.anyError, decide_eq_true_eq] at hnew
  omega

end PassesOn

theorem passesOn_reportAll (s : Session κ ρ) (ds : List Diagnostic) :
    s.PassesOn (s.reportAll ds) ds :=
  ⟨s.reported_reportAll ds, s.errors_reportAll ds⟩

/-- What the checker has to say is passed on. -/
theorem passesOn_ask (s : Session κ ρ) (k : κ) (ds : List Diagnostic) :
    s.PassesOn (({ s with checker := k } : Session κ ρ).reportAll ds) ds :=
  ⟨reported_reportAll _ ds, errors_reportAll _ ds⟩

end Session

namespace CheckM

variable {κ ρ α β : Type}

/-- Begun with nothing counted, the check fails exactly if it reports an error. -/
def Accounted (x : CheckM κ ρ α) : Prop :=
  ∀ s r t, x.run s = some (r, t) → s.tally.errors = 0 →
    ∃ new, s.PassesOn t new ∧ ((∃ e, r = .error e) ↔ Diagnostic.hasErrors new = true)

namespace Accounted

theorem pure (a : α) : Accounted (Pure.pure a : CheckM κ ρ α) := by
  intro s r t h _
  cases h
  exact ⟨[], .refl s, by simp [Diagnostic.hasErrors]⟩

/-- The second check begins with nothing counted, since the first one has not failed. -/
theorem bind {x : CheckM κ ρ α} {f : α → CheckM κ ρ β} (hx : Accounted x)
    (hf : ∀ a, Accounted (f a)) : Accounted (x >>= f) := by
  intro s r t h hs
  rcases run_bind_cases h with ⟨a, t₀, hfirst, hnext⟩ | ⟨e, hfirst, rfl⟩
  · obtain ⟨new, hnew, hfails⟩ := hx s _ t₀ hfirst hs
    have hclean : Diagnostic.hasErrors new = false := by simpa using hfails
    obtain ⟨new', hnew', hfails'⟩ := hf a t₀ r t hnext (hnew.errors_eq_zero hs hclean)
    refine ⟨new ++ new', hnew.trans hnew', hfails'.trans ?_⟩
    rw [Diagnostic.hasErrors] at hclean
    simp [Diagnostic.hasErrors, hclean]
  · obtain ⟨new, hnew, hfails⟩ := hx s _ t hfirst hs
    exact ⟨new, hnew, iff_of_true ⟨e, rfl⟩ (hfails.mp ⟨e, rfl⟩)⟩

theorem mapM {f : α → CheckM κ ρ β} (hf : ∀ a, Accounted (f a)) (xs : List α) :
    Accounted (xs.mapM f) :=
  mapM_of_rel (R := fun x _ => Accounted x) pure bind (g := f) fun a _ => hf a

end Accounted

end CheckM

namespace Setup

open CheckM

variable {κ ρ : Type} {c : Setup κ ρ} {s t : Session κ ρ}

theorem accounted_fail {α : Type} (units : List CheckUnit) (f : Fault) :
    Accounted (fail units f : CheckM κ ρ α) := by
  intro s r t h _
  cases h
  refine ⟨[f.diagnostic], s.passesOn_reportAll [f.diagnostic], iff_of_true ⟨_, rfl⟩ ?_⟩
  simp [Diagnostic.hasErrors, Diagnostic.isError, Fault.diagnostic]

theorem accounted_declOf (u : CheckUnit) : Accounted (c.declOf u) := by
  unfold declOf
  split
  · exact .pure _
  · exact accounted_fail _ _

theorem accounted_checkHeader (u : CheckUnit) (d : Decl) : Accounted (c.checkHeader u d) := by
  intro s r t h hs
  have hasked : s.PassesOn (c.askHeader s d) (c.checker.header s.checker d).2 :=
    s.passesOn_ask _ _
  rcases checkHeader_cases h with
    ⟨-, rfl, rfl⟩ | ⟨-, hbad, rfl, rfl⟩ | ⟨-, hgood, rfl, rfl⟩
  · exact ⟨[], .refl t, by simp [Diagnostic.hasErrors]⟩
  · exact ⟨_, hasked, iff_of_true ⟨_, rfl⟩ ((hasked.anyError_iff hs).mp hbad)⟩
  · refine ⟨_, ⟨hasked.reported, hasked.errors⟩, iff_of_false (by simp) ?_⟩
    rw [← hasked.anyError_iff hs, hgood]
    exact Bool.false_ne_true

theorem accounted_checkBody (u : CheckUnit) (d : Decl) : Accounted (c.checkBody u d) := by
  intro s r t h hs
  have hasked : s.PassesOn (c.askBody s d) (c.checker.body s.checker d).2.1 :=
    s.passesOn_ask _ _
  rcases checkBody_cases h with
    ⟨hbad, rfl, rfl⟩ | ⟨hgood, result, -, rfl, rfl⟩ | ⟨-, rfl, rfl⟩
  · exact ⟨_, hasked, iff_of_true ⟨_, rfl⟩ ((hasked.anyError_iff hs).mp hbad)⟩
  · refine ⟨_, hasked, iff_of_false (by simp) ?_⟩
    rw [← hasked.anyError_iff hs, hgood]
    exact Bool.false_ne_true
  · -- The error is not the checker's: it found none, but returned no definition.
    have hfault : (c.askBody s d).PassesOn _ [(Fault.missingDefinition d.name).diagnostic] :=
      Session.passesOn_reportAll _ _
    refine ⟨_, hasked.trans hfault, iff_of_true ⟨_, rfl⟩ ?_⟩
    simp [Diagnostic.hasErrors, Diagnostic.isError, Fault.diagnostic]

theorem accounted_checkTermination (pending : List Def) (group : List CheckUnit) :
    Accounted (c.checkTermination pending group) := by
  intro s r t h _
  rcases run_checkTermination h with ⟨rfl, rfl⟩ | ⟨e, calls, ids, rfl, rfl, hids, -⟩
  · exact ⟨[], .refl t, by simp [Diagnostic.hasErrors]⟩
  · refine ⟨_, s.passesOn_reportAll _, iff_of_true ⟨e, rfl⟩ ?_⟩
    obtain ⟨id, hid⟩ := List.exists_mem_of_ne_nil ids hids
    rw [Diagnostic.hasErrors, List.any_eq_true]
    exact ⟨_, List.mem_map_of_mem hid, rfl⟩

theorem accounted_commit (pending : List (Decl × Def)) : Accounted (c.commit pending) := by
  intro s r t h _
  cases h
  obtain ⟨-, -, htally, hreported, -⟩ := s.commitAll_frame c.learn c.keepExamples pending
  refine ⟨[], ⟨?_, congrArg Tally.errors htally⟩, by simp [Diagnostic.hasErrors]⟩
  exact hreported.trans (List.append_nil _).symm

theorem accounted_checkUnit (u : CheckUnit) : Accounted (c.checkUnit u) := by
  cases u with
  | head id =>
    rw [checkUnit_head]
    refine (accounted_declOf _).bind fun d => ?_
    split
    · exact accounted_fail _ _
    · exact accounted_checkHeader _ d
  | body id =>
    rw [checkUnit_body]
    refine (accounted_declOf _).bind fun d => ?_
    split
    · exact accounted_fail _ _
    · refine (accounted_checkHeader _ d).bind fun _ => ?_
      refine (accounted_checkBody _ d).bind fun result => ?_
      split
      · exact (accounted_checkTermination _ _).bind fun _ => accounted_commit _
      · exact accounted_commit _

theorem accounted_checkGroup (ids : List DefId) (group : List CheckUnit) :
    Accounted (c.checkGroup ids group) := by
  refine Accounted.bind (.mapM (fun id => ?_) ids) fun decls =>
    Accounted.bind (.mapM (fun d => ?_) decls) fun pending => ?_
  · refine (accounted_declOf (.body id)).bind fun d => ?_
    exact (accounted_checkHeader (.body id) d).bind fun _ => .pure d
  · exact (accounted_checkBody (.body d.id) d).bind fun result => .pure (d, result)
  · exact (accounted_checkTermination _ group).bind fun _ => accounted_commit pending

theorem accounted_checkMembers (group : List CheckUnit) : Accounted (c.checkMembers group) := by
  unfold checkMembers
  split
  · exact .pure ()
  · exact accounted_checkUnit _
  · unfold checkMutual
    split
    · exact accounted_fail _ _
    · split
      · exact accounted_checkUnit _
      · exact accounted_checkGroup _ group

/-- A component that begins with nothing counted fails exactly if an error is reported, and leaves
nothing counted. -/
theorem accounted_checkComponent {group : List CheckUnit} {r : Except Failure Unit}
    (hs : s.tally.errors = 0) (h : c.checkComponent group s = some (r, t)) :
    t.tally.errors = 0 ∧ ∃ new, t.reported = s.reported ++ new ∧
      ((∃ failure, r = .error failure) ↔ Diagnostic.hasErrors new = true) := by
  obtain ⟨⟨r₀, t₀⟩, hrun, hend⟩ := Option.bind_eq_some_iff.mp h
  obtain ⟨new, hnew, hfails⟩ := accounted_checkMembers group { s with fresh := [] } r₀ t₀ hrun hs
  cases r₀ with
  | ok a =>
    cases hend
    have hclean : Diagnostic.hasErrors new = false := by simpa using hfails
    exact ⟨hnew.errors_eq_zero hs hclean, new, hnew.reported, hfails⟩
  | error e =>
    cases hend
    exact ⟨rfl, new, hnew.reported, iff_of_true ⟨e, rfl⟩ (hfails.mp ⟨e, rfl⟩)⟩

/-- The sessions that one comes to by checking any components, with reports of other diagnostics
than errors in between. Each component has a bound of its own on nested evaluation. -/
inductive Reached (c : Setup κ ρ) : Session κ ρ → Prop
  | start (k : κ) (shapes : ρ) (env : Env) :
      Reached c { checker := k, shapes := shapes, env := env }
  | report {s : Session κ ρ} (before : Reached c s) (diag : Diagnostic)
      (harmless : diag.isError = false) : Reached c (s.report diag)
  | check {s t : Session κ ρ} {group : List CheckUnit} {r : Except Failure Unit}
      (before : Reached c s) (stack : ℕ)
      (checked : ({ c with stack := stack } : Setup κ ρ).checkComponent group s = some (r, t)) :
      Reached c t

theorem Reached.errors_eq_zero (h : c.Reached s) : s.tally.errors = 0 := by
  induction h with
  | start k shapes env => rfl
  | @report s _ diag harmless ih =>
    refine (s.passesOn_reportAll [diag]).errors_eq_zero ih ?_
    simp [Diagnostic.hasErrors, harmless]
  | check _ stack checked ih => exact (accounted_checkComponent ih checked).1

/-- However a session was reached, and whatever the checker answers, a component fails if and only
if an error is passed on while it is checked, and no error stays counted. -/
theorem checkComponent_error_iff_reported {group : List CheckUnit} {r : Except Failure Unit}
    (hs : c.Reached s) (h : c.checkComponent group s = some (r, t)) :
    t.tally.errors = 0 ∧ ∃ new, t.reported = s.reported ++ new ∧
      ((∃ failure, r = .error failure) ↔ ∃ diag ∈ new, diag.level = .error) := by
  obtain ⟨hzero, new, hreported, hfails⟩ := accounted_checkComponent hs.errors_eq_zero h
  refine ⟨hzero, new, hreported, hfails.trans ?_⟩
  simp [Diagnostic.hasErrors, Diagnostic.isError]

/-- A checker that complains of the first signature it sees and warns of every body. -/
def hasty : Checker ℕ where
  header := fun k _ => (k + 1, if k = 0 then [{ level := .error, message := "too soon" }] else [])
  body := fun k d => (k, [{ level := .warning, message := "too short" }], some d.definition)

def hastily : Setup ℕ Unit where
  module := .ofDecls [constant ⟨1⟩ (.sort 0)]
  graph := .ofModule (.ofDecls [constant ⟨1⟩ (.sort 0)])
  checker := hasty
  learn := fun _ _ => ()
  stack := 10

/-- The error of the first attempt does not fail the second one, which only has a warning. -/
theorem checkComponent_error_iff_reported_hastily :
    ∃ s t, hastily.Reached s ∧ (∃ diag ∈ s.reported, diag.level = .error) ∧
      hastily.checkComponent [.body ⟨1⟩] s = some (.ok (), t) ∧
      t.tally.errors = 0 ∧ t.tally.warnings = 1 ∧ ∃ new, t.reported = s.reported ++ new ∧
        ((∃ failure, (.ok () : Except Failure Unit) = .error failure) ↔
          ∃ diag ∈ new, diag.level = .error) := by
  have hfirst : (hastily.checkComponent [.body ⟨1⟩] { checker := 0, shapes := () }).any
      (fun x => x.1.toOption.isNone ∧ x.2.reported.any (fun diag => diag.level = .error) = true ∧
        (hastily.checkComponent [.body ⟨1⟩] x.2).any (fun y => y.1.toOption.isSome ∧
          y.2.tally.warnings = 1) = true) = true := by
    decide +kernel
  obtain ⟨⟨r, s⟩, hcheck, hend⟩ := (Option.any_eq_true _ _).mp hfirst
  obtain ⟨-, herror, hsecond⟩ := of_decide_eq_true hend
  obtain ⟨⟨r', t⟩, hcheck', hend'⟩ := (Option.any_eq_true _ _).mp hsecond
  obtain ⟨hok, hwarned⟩ := of_decide_eq_true hend'
  have hreached : hastily.Reached s := .check (.start 0 () {}) 10 hcheck
  cases r' with
  | error e => simp [Except.toOption] at hok
  | ok _ =>
    obtain ⟨hzero, hrest⟩ := checkComponent_error_iff_reported hreached hcheck'
    refine ⟨s, t, hreached, ?_, hcheck', hzero, hwarned, hrest⟩
    obtain ⟨diag, hdiag, hlevel⟩ := List.any_eq_true.mp herror
    exact ⟨diag, hdiag, of_decide_eq_true hlevel⟩

end Setup

end ProofCore
