import ProofCore.Proofs.RulesAdequacy

/-!
# Determined answers

An answer is determined if evaluation came to a head that says what the term is, or matching came
to a decision. Such an answer does not hang on the fuel: with more fuel it is the same, and as much
more is left. What is not determined stays so when it is evaluated once more with what is left.
-/
namespace ProofCore

/-- Whether the head of a term says what it is, however its variables are replaced. -/
def Term.isCanonical : Term → Bool
  | .lam _ | .tuple _ | .conCall _ _ _ _ _ | .numeral _ _ | .dataCall _ _ _ | .sort _ => true
  | _ => false

/-- The answer says which way evaluation goes on. -/
def Answer.Determined : Answer → Prop
  | .term t => t.isCanonical = true
  | .body t => t.isSome = true
  | .outcome r => r ≠ .stuck

theorem Term.isRedexFree_of_isCanonical {t : Term} (h : t.isCanonical = true) :
    t.isRedexFree = true := by
  cases t <;> first | rfl | cases h

theorem Term.isCanonical_of_conLike {t : Term} {built : DefId × List Term}
    (h : t.conLike? = some built) : t.isCanonical = true := by
  cases t <;> first | rfl | cases h

namespace Env

variable {env : Env} {task : Task} {a : Answer} {k k' : ℕ}

theorem Runs.fuel_le (h : env.Runs task k a k') : k' ≤ k := by
  induction h <;> omega

/-- A result without a canonical head does not get one by evaluating it once more: with some
amount of fuel, at least what is left, this does not lead to a canonical head either. -/
theorem Runs.stays_open {t u : Term} (h : env.Runs (.evaluate t) k (.term u) k')
    (hu : u.isCanonical = false) :
    ∃ l ≥ k', ∃ w l', env.Runs (.evaluate u) l (.term w) l' ∧ w.isCanonical = false := by
  generalize htask : Task.evaluate t = task at h
  generalize hanswer : Answer.term u = a at h
  induction h generalizing t u with
  | done hfree =>
    cases hanswer
    exact ⟨_, le_rfl, _, _, .done hfree, hu⟩
  | contract _ _ _ _ ihRest => exact ihRest hu rfl hanswer
  | item _ _ _ _ ihRest => exact ihRest hu rfl hanswer
  | unfold _ _ _ ihRest => exact ihRest hu rfl hanswer
  | @app k k₁ fn fn' arg _ hstuck ih =>
    cases hanswer
    cases hfn : fn'.isCanonical with
    | true =>
      have hstays : env.Runs (.evaluate fn') k₁ (.term fn') k₁ :=
        .done (Term.isRedexFree_of_isCanonical hfn)
      exact ⟨k₁, le_rfl, _, _, .app hstays hstuck, rfl⟩
    | false =>
      obtain ⟨l, hl, w, l', hw, hopen⟩ := ih hfn rfl rfl
      refine ⟨l, hl, _, _, .app hw fun hlam => ?_, rfl⟩
      cases w with
      | lam => cases hopen
      | _ => cases hlam
  | @proj k k₁ index whole whole' _ hstuck ih =>
    cases hanswer
    cases hwhole : whole'.isCanonical with
    | true =>
      have hstays : env.Runs (.evaluate whole') k₁ (.term whole') k₁ :=
        .done (Term.isRedexFree_of_isCanonical hwhole)
      exact ⟨k₁, le_rfl, _, _, .proj hstays hstuck, rfl⟩
    | false =>
      obtain ⟨l, hl, w, l', hw, hopen⟩ := ih hwhole rfl rfl
      refine ⟨l, hl, _, _, .proj hw ?_, rfl⟩
      rintro items rfl
      cases hopen
  | exhausted =>
    cases hanswer
    exact ⟨0, le_rfl, _, _, .exhausted, rfl⟩
  | @keep k k₁ lift fn args hstuck _ =>
    cases hanswer
    have hle := hstuck.fuel_le
    exact ⟨k + 1, by omega, _, _, .keep hstuck, rfl⟩
  | _ => cases htask

/-- Where matching a constructor is decided, the term has a canonical head. -/
theorem Runs.canonical_of_matchCon {data ctor : DefId} {lift : ℕ} {dataArgs : List Term}
    {ps : List Pattern} {t : Term} {r : MatchResult}
    (h : env.Runs (.matching (.con data ctor lift dataArgs ps) t) k (.outcome r) k')
    (hr : r ≠ .stuck) :
    ∃ w l, env.Runs (.evaluate t) k (.term w) l ∧ w.isCanonical = true := by
  cases h with
  | con hwhole hbuilt => exact ⟨_, _, hwhole, Term.isCanonical_of_conLike hbuilt⟩
  | conMismatch hwhole hbuilt => exact ⟨_, _, hwhole, Term.isCanonical_of_conLike hbuilt⟩
  | conStuck => exact (hr rfl).elim

theorem Runs.canonical_of_matchForm {value : ℕ} {shape : NatShape} {t : Term} {r : MatchResult}
    (h : env.Runs (.matching (Pattern.constructorForm value shape) t) k (.outcome r) k')
    (hr : r ≠ .stuck) :
    ∃ w l, env.Runs (.evaluate t) k (.term w) l ∧ w.isCanonical = true := by
  cases value with
  | zero => exact h.canonical_of_matchCon hr
  | succ n => exact h.canonical_of_matchCon hr

/-- A result has a canonical head if matching it against the constructor form of a numeral is
decided with what is left, and with any more fuel. -/
theorem Runs.canonical_of_decided {value : ℕ} {shape : NatShape} {t u : Term} {r : MatchResult}
    (h : env.Runs (.evaluate t) k (.term u) k') (hr : r ≠ .stuck)
    (hdecided : ∀ extra, ∃ l, env.Runs (.matching (Pattern.constructorForm value shape) u)
      (k' + extra) (.outcome r) l) : u.isCanonical = true := by
  by_contra hu
  obtain ⟨l, hl, w, l', hw, hopen⟩ := h.stays_open (by simpa using hu)
  obtain ⟨extra, rfl⟩ := Nat.exists_eq_add_of_le hl
  obtain ⟨_, hmatch⟩ := hdecided extra
  obtain ⟨w', _, hw', hcanonical⟩ := hmatch.canonical_of_matchForm hr
  cases (hw.unique hw').1
  rw [hopen] at hcanonical
  cases hcanonical

/-- More fuel does not change a determined answer, and is left. -/
theorem Runs.more_fuel (h : env.Runs task k a k') (ha : a.Determined) (extra : ℕ) :
    env.Runs task (k + extra) a (k' + extra) := by
  induction h generalizing extra with
  | done hfree => exact .done hfree
  | contract _ hopens _ ihFn ihRest => exact .contract (ihFn rfl extra) hopens (ihRest ha extra)
  | item _ hitem _ ihWhole ihRest => exact .item (ihWhole rfl extra) hitem (ihRest ha extra)
  | @unfold k _ _ _ _ _ _ _ _ _ ihUnfolds ihRest =>
    rw [Nat.add_right_comm]
    exact .unfold (ihUnfolds rfl extra) (ihRest ha extra)
  | app | proj | exhausted | keep => cases ha
  | unknown | noClause | blocked => cases ha
  | absurd | openHole | tupleStuck | conStuck => exact (ha rfl).elim
  | expr hf hfit hbody hopens => exact .expr hf hfit hbody hopens
  | clauses hf hfit hbody _ ih => exact .clauses hf hfit hbody (ih ha extra)
  | selected _ hopens ih => exact .selected (ih (by simp [Answer.Determined]) extra) hopens
  | passed _ _ ihMatch ihRest =>
    exact .passed (ihMatch (by simp [Answer.Determined]) extra) (ihRest ha extra)
  | bind => exact .bind
  | solved _ ih => exact .solved (ih ha extra)
  | tuple _ hfit _ ihWhole ihRest => exact .tuple (ihWhole rfl extra) hfit (ihRest ha extra)
  | con _ hbuilt hfit _ ihWhole ihRest =>
    exact .con (ihWhole (Term.isCanonical_of_conLike hbuilt) extra) hbuilt hfit (ihRest ha extra)
  | conMismatch _ hbuilt hunfit ihWhole =>
    exact .conMismatch (ihWhole (Term.isCanonical_of_conLike hbuilt) extra) hbuilt hunfit
  | @byValue k k₁ value v shape t u _ hvalue ihWhole =>
    have hu : u.isCanonical = true := by
      cases u <;> first | rfl | cases hvalue
    exact .byValue (ihWhole hu extra) hvalue
  | byForm hwhole hother _ ihWhole ihRest =>
    have hu := hwhole.canonical_of_decided ha fun extra => ⟨_, ihRest ha extra⟩
    exact .byForm (ihWhole hu extra) hother (ihRest ha extra)
  | noPatterns => exact .noPatterns
  | noTerms => exact .noTerms
  | both _ _ ihFirst ihOthers =>
    exact .both (ihFirst (by simp [Answer.Determined]) extra)
      (ihOthers (by simp [Answer.Determined]) extra)
  | firstFails _ hfailed ih => exact .firstFails (ih ha extra) hfailed
  | othersFail _ _ hfailed ihFirst ihOthers =>
    exact .othersFail (ihFirst (by simp [Answer.Determined]) extra) (ihOthers ha extra) hfailed

/-- Where a numeral pattern is matched in its constructor form with a decision, the term came to a
canonical head at once. -/
theorem Runs.canonical_of_byForm {value : ℕ} {shape : NatShape} {t u : Term} {r : MatchResult}
    {l : ℕ} (h : env.Runs (.evaluate t) k (.term u) k')
    (hrest : env.Runs (.matching (Pattern.constructorForm value shape) u) k' (.outcome r) l)
    (hr : r ≠ .stuck) : u.isCanonical = true :=
  h.canonical_of_decided hr fun extra => ⟨_, hrest.more_fuel hr extra⟩

end Env

end ProofCore
