import ProofCore.Checking.Report
import ProofCore.Proofs.Acceptance

/-!
# What the parts of a component check decide

Checking a part either accepts it, which is the case exactly under a stated condition, or fails and
leaves no trace but diagnostics. The conditions of parts that are checked one after the other add
up.
-/
namespace ProofCore

namespace Session

variable {κ ρ : Type}

/-- The sessions differ at most in what was reported and counted. -/
structure SameState (s t : Session κ ρ) : Prop where
  checker : t.checker = s.checker
  env : t.env = s.env
  headers : t.headers = s.headers
  fresh : t.fresh = s.fresh
  accepted : t.accepted = s.accepted

theorem SameState.refl (s : Session κ ρ) : s.SameState s := ⟨rfl, rfl, rfl, rfl, rfl⟩

theorem SameState.trans {s t u : Session κ ρ} (h : s.SameState t) (h' : t.SameState u) :
    s.SameState u :=
  ⟨h'.checker.trans h.checker, h'.env.trans h.env, h'.headers.trans h.headers,
    h'.fresh.trans h.fresh, h'.accepted.trans h.accepted⟩

theorem SameState.reportAll {s t : Session κ ρ} (h : s.SameState t) (ds : List Diagnostic) :
    s.SameState (t.reportAll ds) := by
  induction ds generalizing t with
  | nil => exact h
  | cons d ds ih => exact ih (t := t.report d) ⟨h.checker, h.env, h.headers, h.fresh, h.accepted⟩

/-- A component that has accepted no signature has none to forget. -/
theorem SameState.rollback {s t : Session κ ρ} (h : s.SameState t) (hfresh : s.fresh = []) :
    s.SameState t.rollback := by
  have hnone : t.fresh = [] := h.fresh.trans hfresh
  refine ⟨h.checker, h.env, ?_, hfresh.symm, h.accepted⟩
  simp [Session.rollback, hnone, h.headers]

/-- A tally counts the errors among what is reported. -/
theorem errors_reportAll (s : Session κ ρ) (ds : List Diagnostic) :
    (s.reportAll ds).tally.errors = s.tally.errors + (Diagnostic.errors ds).length := by
  induction ds generalizing s with
  | nil => rfl
  | cons d ds ih =>
    refine (ih (s.report d)).trans ?_
    cases hlevel : d.level with
    | error =>
      simp [report, Tally.count, hlevel, Diagnostic.errors, Diagnostic.isError]
      omega
    | warning => simp [report, Tally.count, hlevel, Diagnostic.errors, Diagnostic.isError]
    | info => simp [report, Tally.count, hlevel, Diagnostic.errors, Diagnostic.isError]

theorem reported_reportAll (s : Session κ ρ) (ds : List Diagnostic) :
    (s.reportAll ds).reported = s.reported ++ ds := by
  induction ds generalizing s with
  | nil => exact (List.append_nil _).symm
  | cons d ds ih =>
    refine (ih (s.report d)).trans ?_
    simp [report]

section CommitAll

variable (s : Session κ ρ) (learn : ρ → Def → ρ) (keepExamples : Bool) (pending : List (Decl × Def))

theorem commitAll_cons (x : Decl × Def) :
    s.commitAll learn keepExamples (x :: pending) =
      (if x.1.isExample && !keepExamples then s else s.commit learn x.2).commitAll learn
        keepExamples pending := rfl

/-- Accepting definitions changes nothing but what was accepted, the shapes and the functions that
may be unfolded. -/
theorem commitAll_frame :
    (s.commitAll learn keepExamples pending).checker = s.checker ∧
      (s.commitAll learn keepExamples pending).headers = s.headers ∧
      (s.commitAll learn keepExamples pending).tally = s.tally ∧
      (s.commitAll learn keepExamples pending).reported = s.reported ∧
      (s.commitAll learn keepExamples pending).env.fuel = s.env.fuel := by
  induction pending generalizing s with
  | nil => exact ⟨rfl, rfl, rfl, rfl, rfl⟩
  | cons x pending ih =>
    rw [commitAll_cons]
    split
    · exact ih s
    · have hfuel : (s.commit learn x.2).env.fuel = s.env.fuel := by cases hdef : x.2 <;> rfl
      rw [← hfuel]
      exact ih (s.commit learn x.2)

theorem accepted_commitAll :
    (s.commitAll learn keepExamples pending).accepted = s.accepted ++
      (pending.filter fun x => !x.1.isExample || keepExamples).map Prod.snd := by
  induction pending generalizing s with
  | nil => exact (List.append_nil _).symm
  | cons x pending ih =>
    have hkept : (!x.1.isExample || keepExamples) = !(x.1.isExample && !keepExamples) := by simp
    rw [commitAll_cons, ih, List.filter_cons, hkept]
    cases x.1.isExample && !keepExamples <;> simp [commit]

end CommitAll

/-- The session with one more known signature. -/
def addHeader (s : Session ScopeState ρ) (id : DefId) : Session ScopeState ρ :=
  { s with
    checker := { s.checker with headers := s.checker.headers ++ [id] }
    headers := s.headers ++ [id]
    fresh := s.fresh ++ [id] }

end Session

namespace CheckM

variable {κ ρ α β : Type} {s t t' : Session κ ρ}

theorem run_bind (x : CheckM κ ρ α) (f : α → CheckM κ ρ β) (s : Session κ ρ) :
    (x >>= f).run s = (x.run s).bind fun
      | (.ok a, t) => (f a).run t
      | (.error e, t) => some (.error e, t) := by
  refine congrArg (Option.bind (x.run s)) (funext fun p => ?_)
  obtain ⟨r, t⟩ := p
  cases r <;> rfl

/-- A relation between checks that returning and sequencing keep is kept by going through a list. -/
theorem mapM_of_rel {R : {γ : Type} → CheckM κ ρ γ → CheckM κ ρ γ → Prop}
    (hpure : ∀ {γ : Type} (c : γ), R (pure c) (pure c))
    (hbind : ∀ {γ δ : Type} {x x' : CheckM κ ρ γ} {k k' : γ → CheckM κ ρ δ}, R x x' →
      (∀ c, R (k c) (k' c)) → R (x >>= k) (x' >>= k'))
    {f g : α → CheckM κ ρ β} {xs : List α} (hf : ∀ a ∈ xs, R (f a) (g a)) :
    R (xs.mapM f) (xs.mapM g) := by
  induction xs with
  | nil =>
    rw [List.mapM_nil, List.mapM_nil]
    exact hpure []
  | cons x xs ih =>
    rw [List.mapM_cons, List.mapM_cons]
    refine hbind (hf x (by simp)) fun y => ?_
    exact hbind (ih fun a ha => hf a (by simp [ha])) fun ys => hpure (y :: ys)

/-- Run in `s`, the check succeeds with `a` in `t` if `P` holds, and otherwise fails without a
trace; it may also not end. -/
def Judges (x : CheckM κ ρ α) (s : Session κ ρ) (P : Prop) (a : α) (t : Session κ ρ) : Prop :=
  ∀ r t', x.run s = some (r, t') →
    (P ∧ r = .ok a ∧ t' = t) ∨ (¬ P ∧ (∃ e, r = .error e) ∧ s.SameState t')

namespace Judges

theorem pure (a : α) (s : Session κ ρ) : Judges (Pure.pure a) s True a s := by
  intro r t' h
  cases h
  exact .inl ⟨trivial, rfl, rfl⟩

theorem congr {x : CheckM κ ρ α} {P Q : Prop} {a : α} (h : Judges x s P a t) (hPQ : P ↔ Q) :
    Judges x s Q a t := by
  intro r t' hr
  rw [← hPQ]
  exact h r t' hr

theorem bind {x : CheckM κ ρ α} {f : α → CheckM κ ρ β} {P Q : Prop} {a : α} {b : β}
    (hx : Judges x s P a s) (hf : P → Judges (f a) s Q b t) :
    Judges (x >>= f) s (P ∧ Q) b t := by
  intro r t' h
  rw [run_bind] at h
  obtain ⟨⟨r₀, t₀⟩, h₀, hnext⟩ := Option.bind_eq_some_iff.mp h
  rcases hx r₀ t₀ h₀ with ⟨hP, rfl, rfl⟩ | ⟨hP, ⟨e, rfl⟩, hsame⟩
  · rcases hf hP r t' hnext with ⟨hQ, hr⟩ | ⟨hQ, hr⟩
    · exact .inl ⟨⟨hP, hQ⟩, hr⟩
    · exact .inr ⟨fun hPQ => hQ hPQ.2, hr⟩
  · cases hnext
    exact .inr ⟨fun hPQ => hP hPQ.1, ⟨e, rfl⟩, hsame⟩

theorem seq {x : CheckM κ ρ α} {f : α → CheckM κ ρ β} {P : Prop} {a : α} {b : β}
    (hx : Judges x s True a s) (hf : Judges (f a) s P b t) : Judges (x >>= f) s P b t :=
  (hx.bind fun _ => hf).congr (by simp)

theorem mapM {f : α → CheckM κ ρ β} {g : α → β} {P : α → Prop} {xs : List α}
    (h : ∀ x ∈ xs, Judges (f x) s (P x) (g x) s) :
    Judges (xs.mapM f) s (∀ x ∈ xs, P x) (xs.map g) s := by
  induction xs with
  | nil =>
    rw [List.mapM_nil]
    exact (pure [] s).congr (by simp)
  | cons x xs ih =>
    have hrest := ih fun y hy => h y (List.mem_cons_of_mem _ hy)
    rw [List.mapM_cons]
    refine Judges.congr (P := P x ∧ (∀ y ∈ xs, P y) ∧ True) ?_ (by simp)
    exact (h x (by simp)).bind fun _ => hrest.bind fun _ => pure (g x :: xs.map g) s

theorem throw (e : Failure) (a : α) (s t : Session κ ρ) :
    Judges (MonadExcept.throw e : CheckM κ ρ α) s False a t := by
  intro r t' h
  cases h
  exact .inr ⟨id, ⟨e, rfl⟩, .refl s⟩

theorem set_bind {f : PUnit → CheckM κ ρ β} {P : Prop} {b : β} (hsame : s.SameState t)
    (h : Judges (f ⟨⟩) t P b t') : Judges (set t >>= f) s P b t' := by
  intro r t₁ hr
  rcases h r t₁ hr with hyes | ⟨hP, he, hsame'⟩
  · exact .inl hyes
  · exact .inr ⟨hP, he, hsame.trans hsame'⟩

theorem lift_bind {x : Option α} {f : α → CheckM κ ρ β} {P : Prop} {b : β}
    (h : ∀ a, x = some a → Judges (f a) s P b t) : Judges (liftM x >>= f) s P b t := by
  intro r t' hr
  rw [run_bind] at hr
  cases x with
  | none => cases hr
  | some a => exact h a rfl r t' hr

theorem get_bind {f : Session κ ρ → CheckM κ ρ β} {P : Prop} {b : β} (h : Judges (f s) s P b t) :
    Judges (get >>= f) s P b t := h

end Judges

end CheckM

namespace Setup

open CheckM

section Units

variable {κ ρ : Type} {c : Setup κ ρ}

theorem checkUnit_head (id : DefId) :
    c.checkUnit (.head id) = (do
      let d ← c.declOf (.head id)
      if c.graph.onCycle (.head id) then fail [.head id] (.selfReference d.name)
      else c.checkHeader (.head id) d) := rfl

theorem checkUnit_body (id : DefId) :
    c.checkUnit (.body id) = (do
      let d ← c.declOf (.body id)
      if c.graph.onCycle (.body id) && d.definition.isExprFn then
        fail [.body id] (.badRecursion d.name)
      else
        c.checkHeader (.body id) d
        let result ← c.checkBody (.body id) d
        if c.graph.onCycle (.body id) then
          c.checkTermination [result] [.body id]
          c.commit [(d, result)]
        else c.commit [(d, result)]) := rfl

end Units

variable {ρ : Type} {c : Setup ScopeState ρ} {s : Session ScopeState ρ}

theorem judges_fail {α : Type} (units : List CheckUnit) (f : Fault) (a : α)
    (t : Session ScopeState ρ) : Judges (fail units f) s False a t := by
  intro r t' h
  cases h
  exact .inr ⟨id, ⟨_, rfl⟩, rfl, rfl, rfl, rfl, rfl⟩

theorem judges_declOf {u : CheckUnit} {d : Decl} (hd : c.module.get? u.id = some d) :
    Judges (c.declOf u) s True d s := by
  rw [declOf, hd]
  exact .pure d s

theorem judges_checkHeader_of_known {u : CheckUnit} {d : Decl} (hd : d.id ∈ s.headers) :
    Judges (c.checkHeader u d) s True () s := by
  apply Judges.get_bind
  rw [if_pos hd]
  exact .pure () s

theorem anyError_eq_false (herrors : s.tally.errors = 0) : s.tally.anyError = false := by
  simp [Tally.anyError, herrors]

theorem anyError_reportAll (s : Session ScopeState ρ) (f : Fault) (fs : List Fault) :
    (s.reportAll ((f :: fs).map Fault.diagnostic)).tally.anyError = true := by
  have hfault : f.diagnostic.isError = true := rfl
  simp only [Tally.anyError, Session.errors_reportAll, Diagnostic.errors, List.map_cons,
    List.filter_cons_of_pos hfault, List.length_cons, decide_eq_true_eq]
  omega

/-- A new signature is accepted if it has no faults. -/
theorem judges_checkHeader (hc : c.checker = scopeChecker) (herrors : s.tally.errors = 0)
    {u : CheckUnit} {d : Decl} (hd : d.id ∉ s.headers) :
    Judges (c.checkHeader u d) s (s.checker.headerFaults d = []) () (s.addHeader d.id) := by
  apply Judges.get_bind
  rw [if_neg hd, hc]
  cases hfaults : s.checker.headerFaults d with
  | nil =>
    simp only [scopeChecker, hfaults]
    rw [if_neg (by simp [Session.reportAll, anyError_eq_false herrors])]
    intro r t h
    cases h
    exact .inl ⟨trivial, rfl, rfl⟩
  | cons f fs =>
    simp only [scopeChecker, hfaults]
    rw [if_pos (anyError_reportAll _ f fs)]
    refine Judges.congr (P := False) ?_ (by simp)
    exact Judges.set_bind ((Session.SameState.refl s).reportAll _) (.throw _ _ _ _)

theorem judges_checkBody (hc : c.checker = scopeChecker) (herrors : s.tally.errors = 0)
    (u : CheckUnit) (d : Decl) :
    Judges (c.checkBody u d) s (s.checker.bodyFaults d = []) d.definition s := by
  apply Judges.get_bind
  rw [hc]
  cases hfaults : s.checker.bodyFaults d with
  | nil =>
    simp only [scopeChecker, hfaults]
    refine Judges.set_bind (.refl s) ?_
    rw [if_neg (by simp [Session.reportAll, anyError_eq_false herrors])]
    exact (Judges.pure d.definition s).congr (by simp)
  | cons f fs =>
    simp only [scopeChecker, hfaults]
    refine Judges.congr (P := False) ?_ (by simp)
    refine Judges.set_bind ((Session.SameState.refl s).reportAll _) ?_
    rw [if_pos (anyError_reportAll _ f fs)]
    exact .throw _ _ _ _

/-- The recursion between definitions is accepted if it ends. -/
theorem judges_checkTermination {ids : DefId → Prop} {env : Env} {pending : List Def}
    (hagree : Env.AgreesOn ids s.env env) (hnodup : (pending.map Def.id).Nodup)
    (hrefs : ∀ d ∈ pending, ∀ r ∈ d.bodyRefs, ids r) (group : List CheckUnit) :
    Judges (c.checkTermination pending group) s (Terminating env pending) () s := by
  have hverdict : ∀ stack calls, callsAmong s.env stack pending = some calls →
      (calls.badRecursion = some [] ↔ Terminating env pending) := fun stack calls h =>
    badRecursion_eq_nil_iff_terminating hagree (.refl pending) hnodup hrefs h
  unfold checkTermination
  by_cases hfns : (pending.filterMap Def.fn?).isEmpty = true
  · rw [if_pos hfns]
    refine (Judges.pure () s).congr (iff_of_true trivial ?_)
    have hcalls : callsAmong s.env 0 pending = some .empty := by
      rw [callsAmong, List.isEmpty_iff.mp hfns]
      rfl
    exact (hverdict 0 _ hcalls).mp rfl
  · rw [if_neg hfns]
    refine Judges.get_bind (Judges.lift_bind fun calls hcalls => ?_)
    refine Judges.lift_bind fun loops hloops => ?_
    refine Judges.congr ?_ (hverdict c.stack calls hcalls)
    rw [hloops, Option.some.injEq]
    have hfailing : (loops.map CallMatrix.caller).eraseDups.isEmpty = true ↔ loops = [] := by
      rw [List.isEmpty_iff, List.eq_nil_iff_forall_not_mem, List.eq_nil_iff_forall_not_mem]
      simp
    by_cases hgood : loops = []
    · rw [if_pos (hfailing.mpr hgood)]
      exact (Judges.pure () s).congr (by simp [hgood])
    · rw [if_neg fun h => hgood (hfailing.mp h)]
      refine Judges.congr (P := False) ?_ (by simp [hgood])
      exact Judges.set_bind ((Session.SameState.refl s).reportAll _) (.throw _ _ _ _)

end Setup

end ProofCore
