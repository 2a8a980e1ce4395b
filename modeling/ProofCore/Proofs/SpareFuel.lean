import ProofCore.Proofs.RulesAdequacy
import ProofCore.Syntax.NatShape

/-!
# Evaluation that leaves fuel

Without fuel a call stays as it is, so that a match which needs its value is stuck and the clauses
after it are never tried. Fuel never grows, so none of this happened in an evaluation that leaves
some. With more fuel such an evaluation comes to the same answer and leaves as much more, and its
answer evaluates to itself.
-/
namespace ProofCore

namespace Simulation

/-- The fuel does not grow, and if the one computation leaves some, then the other one, given
`extra` more, yields the same and leaves `extra` more. -/
def sparing (extra : ℕ) : Simulation Eval Eval where
  rel Q x y := ∀ k a k', x k = some (a, k') →
    k' ≤ k ∧ Q a ∧ (0 < k' → y (k + extra) = some (a, k' + extra))
  pure := by
    intro α Q a ha k b k' h
    cases h
    exact ⟨le_rfl, ha, fun _ => rfl⟩
  bind := by
    intro α β P Q x y f g hxy hfg k b k' h
    obtain ⟨a, k₁, hx, hf⟩ := Eval.bind_eq_some h
    obtain ⟨hle, hP, hy⟩ := hxy k a k₁ hx
    obtain ⟨hle', hQ, hg⟩ := hfg a hP k₁ b k' hf
    refine ⟨by omega, hQ, fun hleft => ?_⟩
    have hbetween : 0 < k₁ := by omega
    exact (Eval.bind_of_some (hy hbetween)).trans (hg hleft)

theorem allowsEvaluation_sparing (extra : ℕ) : (sparing extra).AllowsEvaluation where
  exhausted := by
    intro α Q y k a k' h
    cases h
  lift := by
    intro α Q x y hxy k a k' h
    cases x with
    | none => cases h
    | some b =>
      cases h
      obtain ⟨hy, hQ⟩ := hxy a rfl
      exact ⟨le_rfl, hQ, fun _ => Eval.lift_of_some hy _⟩
  spend := by
    intro α Q a x y ha hxy k b k' h
    cases k with
    | zero =>
      -- a call that cannot be paid for leaves no fuel
      cases h
      exact ⟨le_rfl, ha, fun hleft => absurd hleft (lt_irrefl 0)⟩
    | succ k =>
      obtain ⟨hle, hQ, hy⟩ := hxy k b k' h
      refine ⟨by omega, hQ, fun hleft => ?_⟩
      rw [Nat.add_right_comm]
      exact hy hleft

end Simulation

namespace Env

variable {env : Env} {stack stack' k k₁ k' : ℕ} {t u : Term}

theorem evaluation_sparing (env : Env) (stack extra : ℕ) :
    (Simulation.sparing extra).Evaluation (Term.RefsIn fun _ => True) (env.whnf stack)
      (env.whnf stack) :=
  (AgreesOn.self env).evaluatesAlike.whnf (Simulation.allowsEvaluation_sparing extra) le_rfl

theorem unfold_fuel_le {fn : DefId} {args : List Term} {b : Option Term}
    (h : env.unfold (env.whnf stack) stack fn args k = some (b, k')) : k' ≤ k := by
  have hcall : (Term.fnCall fn 0 args).RefsIn fun _ => True := fun _ _ => trivial
  have hunfold := (AgreesOn.self env).evaluatesAlike.unfold (Simulation.allowsEvaluation_sparing 0)
    (env.evaluation_sparing stack 0) (le_refl stack) hcall
  exact (hunfold k b k' h).1

theorem whnf_fuel_le (h : env.whnf stack t k = some (u, k')) : k' ≤ k :=
  ((env.evaluation_sparing stack 0).eval t (fun _ _ => trivial) k u k' h).1

theorem whnf_add_fuel (h : env.whnf stack t k = some (u, k')) (hleft : 0 < k') (extra : ℕ) :
    env.whnf stack t (k + extra) = some (u, k' + extra) :=
  ((env.evaluation_sparing stack extra).eval t (fun _ _ => trivial) k u k' h).2.2 hleft

theorem whnf_of_le (hle : stack ≤ stack') (h : env.whnf stack t k = some (u, k')) :
    env.whnf stack' t k = some (u, k') :=
  (((AgreesOn.self env).evaluatesAlike.whnf Simulation.allowsEvaluation_budgeted hle).eval t
    (fun _ _ => trivial) k (u, k') h).1

/-- For every environment, fuel and room: more fuel does not change an answer, of evaluation or of
matching, that leaves some fuel, and is left as well. -/
theorem answer_of_more_fuel (env : Env) (stack k k' extra : ℕ) (hleft : 0 < k') :
    (∀ t u, env.whnf stack t k = some (u, k') →
      env.whnf stack t (k + extra) = some (u, k' + extra)) ∧
    ∀ (p : Pattern) (t : Term) (r : MatchResult), p.matchTerm (env.whnf stack) t k = some (r, k') →
      p.matchTerm (env.whnf stack) t (k + extra) = some (r, k' + extra) := by
  refine ⟨fun t u h => whnf_add_fuel h hleft extra, fun p t r h => ?_⟩
  have hmatch := (env.evaluation_sparing stack extra).matchTerm p (t := t) fun _ _ => trivial
  exact (hmatch k r k' h).2.2 hleft

/-- The predecessor of a natural number. -/
def predecessor : Env :=
  let nat : NatShape := ⟨⟨1⟩, ⟨2⟩, ⟨3⟩⟩
  Env.add {} (.fn ⟨⟨4⟩, "pred", [⟨"n", nat.type, true⟩], nat.type, .clauses [
    ⟨[.numeral 0 nat], .numeral 0 nat⟩,
    ⟨[nat.sucPattern (.bind ⟨.supplied 0, "n"⟩ nat.type)], .bound 0⟩]⟩)

/-- With six more units of fuel, the predecessor of a successor is stuck at the same call, and the
predecessor of a predecessor, which each clause evaluates anew, matches with the same bound term. -/
theorem answer_of_more_fuel_predecessor :
    let nat : NatShape := ⟨⟨1⟩, ⟨2⟩, ⟨3⟩⟩
    let stuck : Term := .fnCall ⟨4⟩ 0 [.free ⟨.supplied 1, "x"⟩]
    let nested : Term := .fnCall ⟨4⟩ 0 [.fnCall ⟨4⟩ 0 [.numeral 4 nat]]
    let successor : Pattern := nat.sucPattern (.bind ⟨.supplied 2, "m"⟩ nat.type)
    predecessor.whnf 9 (.fnCall ⟨4⟩ 0 [nat.sucTerm stuck]) 3 = some (stuck, 1) ∧
    predecessor.whnf 9 (.fnCall ⟨4⟩ 0 [nat.sucTerm stuck]) 9 = some (stuck, 7) ∧
    successor.matchTerm (predecessor.whnf 9) nested 4 = some (.matched [.numeral 1 nat], 1) ∧
    successor.matchTerm (predecessor.whnf 9) nested 10 = some (.matched [.numeral 1 nat], 7) := by
  intro nat stuck nested successor
  have heval : predecessor.whnf 9 (.fnCall ⟨4⟩ 0 [nat.sucTerm stuck]) 3 = some (stuck, 1) := by
    decide +kernel
  have hmatch : successor.matchTerm (predecessor.whnf 9) nested 4 =
      some (.matched [.numeral 1 nat], 1) := rfl
  exact ⟨heval, (answer_of_more_fuel predecessor 9 3 1 6 (by decide)).1 _ _ heval,
    hmatch, (answer_of_more_fuel predecessor 9 4 1 6 (by decide)).2 _ _ _ hmatch⟩

/-- The term evaluates to itself and leaves no less than `k'`. -/
def Stays (env : Env) (stack : ℕ) (u : Term) (k k' : ℕ) : Prop :=
  ∃ l ≥ k', env.whnf stack u k = some (u, l)

namespace Stays

/-- With more room and more fuel a term stays as it was. -/
theorem later (h : env.Stays stack u k₁ k') (hleft : 0 < k') (hle : k₁ ≤ k) :
    env.Stays (stack + 1) u k k' := by
  obtain ⟨l, hl, hu⟩ := h
  obtain ⟨extra, rfl⟩ := Nat.exists_eq_add_of_le hle
  refine ⟨l + extra, by omega, whnf_of_le (Nat.le_succ stack) ?_⟩
  exact whnf_add_fuel hu (by omega) extra

theorem app {fn arg : Term} (h : env.Stays stack fn k k') (hstuck : fn.form ≠ .abstraction) :
    env.Stays (stack + 1) (.app fn arg) k k' := by
  obtain ⟨l, hl, hfn⟩ := h
  refine ⟨l, hl, (Eval.bind_of_some hfn).trans ?_⟩
  cases fn with
  | lam body => exact absurd rfl hstuck
  | _ => rfl

theorem proj {whole : Term} {index : ℕ} (h : env.Stays stack whole k k')
    (hstuck : ∀ items, whole = .tuple items → items[index]? = none) :
    env.Stays (stack + 1) (.proj whole index) k k' := by
  obtain ⟨l, hl, hwhole⟩ := h
  refine ⟨l, hl, (Eval.bind_of_some hwhole).trans ?_⟩
  cases whole with
  | tuple items =>
    simp only [hstuck items rfl]
    rfl
  | _ => rfl

end Stays

/-- For every environment, term, fuel and room: if evaluation leaves some fuel, then what it came to
evaluates to itself, with the same fuel and room, and leaves no less. -/
theorem whnf_idempotent (h : env.whnf stack t k = some (u, k')) (hleft : 0 < k') :
    ∃ l ≥ k', env.whnf stack u k = some (u, l) := by
  change env.Stays stack u k k'
  induction stack generalizing t u k k' with
  | zero => cases h
  | succ stack ih =>
    cases t with
    | app fn arg =>
      obtain ⟨fn', k₁, hfn, hrest⟩ := Eval.bind_eq_some h
      cases fn' with
      | lam body =>
        obtain ⟨opened, -, hrest⟩ := Eval.lift_bind_eq_some hrest
        exact (ih hrest hleft).later hleft (whnf_fuel_le hfn)
      | _ =>
        cases hrest
        exact (ih hfn hleft).app (by simp [Term.form])
    | proj whole index =>
      obtain ⟨whole', k₁, hwhole, hrest⟩ := Eval.bind_eq_some h
      cases whole' with
      | tuple items =>
        cases hitem : items[index]? with
        | some item =>
          simp only [hitem] at hrest
          exact (ih hrest hleft).later hleft (whnf_fuel_le hwhole)
        | none =>
          simp only [hitem] at hrest
          cases hrest
          exact (ih hwhole hleft).proj (by simpa using hitem)
      | _ =>
        cases hrest
        exact (ih hwhole hleft).proj (by simp)
    | fnCall fn lift args =>
      cases k with
      | zero =>
        -- a call that cannot be paid for leaves no fuel
        cases h
        exact absurd hleft (lt_irrefl 0)
      | succ k =>
        have hcall := h
        rw [whnf_call] at hcall
        obtain ⟨b, k₁, hunfold, hrest⟩ := Eval.bind_eq_some hcall
        cases b with
        | some unfolded =>
          have hpaid : k₁ ≤ k + 1 := (unfold_fuel_le hunfold).trans (Nat.le_succ k)
          exact (ih hrest hleft).later hleft hpaid
        | none =>
          -- no clause was taken, and none would be if it were tried again
          cases hrest
          exact ⟨k', le_rfl, h⟩
    | _ =>
      cases h
      exact ⟨k, le_rfl, rfl⟩

/-- An application whose function comes to a stuck call evaluates to itself, for less fuel. -/
theorem whnf_idempotent_stuck :
    let nat : NatShape := ⟨⟨1⟩, ⟨2⟩, ⟨3⟩⟩
    let stuck : Term := .fnCall ⟨4⟩ 0 [.free ⟨.supplied 1, "x"⟩]
    let applied : Term := .app (.fnCall ⟨4⟩ 0 [nat.sucTerm stuck]) (.numeral 5 nat)
    predecessor.whnf 9 applied 4 = some (.app stuck (.numeral 5 nat), 2) ∧
    ∃ l ≥ 2, predecessor.whnf 9 (.app stuck (.numeral 5 nat)) 4 =
      some (.app stuck (.numeral 5 nat), l) := by
  intro nat stuck applied
  have heval : predecessor.whnf 9 applied 4 = some (.app stuck (.numeral 5 nat), 2) := by
    decide +kernel
  exact ⟨heval, whnf_idempotent heval (by decide)⟩

end Env

end ProofCore
