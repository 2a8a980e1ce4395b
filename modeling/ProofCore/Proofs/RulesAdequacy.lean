import ProofCore.Proofs.EvaluationRules

/-!
# The rules of evaluation are adequate

Evaluation within any bound on nested calls goes by the rules, and what the rules say is found
whenever the bound is large enough. So a task is answered in a certain way exactly if some bound
suffices for it, and the answer and the fuel that is left are determined.
-/
namespace ProofCore

open Filter (Eventually atTop)

namespace Env

/-- A call takes one unit of fuel and goes on with what it unfolds to. -/
theorem whnf_call {env : Env} {fn : DefId} {lift k : ℕ} {args : List Term} (stack : ℕ) :
    env.whnf (stack + 1) (.fnCall fn lift args) (k + 1) =
      (env.unfold (env.whnf stack) stack fn args >>= fun
        | some unfolded => env.whnf stack unfolded
        | none => return .fnCall fn lift args) k := rfl

section Soundness

variable {env : Env} {go : Term → Eval Term} {k k' : ℕ} {r : MatchResult}

/-- The answers of an evaluation are answers by the rules. -/
def Obeys (env : Env) (go : Term → Eval Term) : Prop :=
  ∀ t k u k', go t k = some (u, k') → env.Runs (.evaluate t) k (.term u) k'

theorem runs_of_matchCon (hgo : env.Obeys go) {ps : List Pattern}
    (hps : ∀ ts k r k', Pattern.matchList go ps ts k = some (r, k') →
      env.Runs (.matchingAll ps ts) k (.outcome r) k')
    {data ctor : DefId} {lift : ℕ} {dataArgs : List Term} {t : Term}
    (h : (Pattern.con data ctor lift dataArgs ps).matchTerm go t k = some (r, k')) :
    env.Runs (.matching (.con data ctor lift dataArgs ps) t) k (.outcome r) k' := by
  simp only [Pattern.matchTerm] at h
  obtain ⟨u, k₁, hu, h⟩ := Eval.bind_eq_some h
  cases hcon : u.conLike? with
  | none =>
    rw [hcon] at h
    cases h
    exact .conStuck (hgo _ _ _ _ hu) hcon
  | some c =>
    obtain ⟨ctor', ts⟩ := c
    rw [hcon] at h
    by_cases hfit : ctor' = ctor ∧ ts.length = ps.length
    · simp only [if_pos hfit] at h
      have hrest := hps _ _ _ _ h
      obtain ⟨rfl, hlen⟩ := hfit
      exact .con (hgo _ _ _ _ hu) hcon hlen hrest
    · simp only [if_neg hfit] at h
      cases h
      exact .conMismatch (hgo _ _ _ _ hu) hcon hfit

theorem runs_of_matchCons {p : Pattern} {ps : List Pattern}
    (hp : ∀ t k r k', p.matchTerm go t k = some (r, k') →
      env.Runs (.matching p t) k (.outcome r) k')
    (hps : ∀ ts k r k', Pattern.matchList go ps ts k = some (r, k') →
      env.Runs (.matchingAll ps ts) k (.outcome r) k') {ts : List Term}
    (h : Pattern.matchList go (p :: ps) ts k = some (r, k')) :
    env.Runs (.matchingAll (p :: ps) ts) k (.outcome r) k' := by
  cases ts with
  | nil =>
    rw [Pattern.matchList] at h
    · cases h
      exact .noTerms
    · simp
  | cons t ts =>
    rw [Pattern.matchList] at h
    obtain ⟨first, k₁, hfirst, h⟩ := Eval.bind_eq_some h
    have hfirst := hp _ _ _ _ hfirst
    cases first with
    | matched bound =>
      obtain ⟨others, k₂, hothers, h⟩ := Eval.bind_eq_some h
      have hothers := hps _ _ _ _ hothers
      cases others with
      | matched rest =>
        cases h
        exact .both hfirst hothers
      | mismatch | stuck =>
        cases h
        exact .othersFail hfirst hothers (by simp)
    | mismatch | stuck =>
      cases h
      exact .firstFails hfirst (by simp)

theorem runs_of_noPatterns {ts : List Term} (h : Pattern.matchList go [] ts k = some (r, k')) :
    env.Runs (.matchingAll [] ts) k (.outcome r) k' := by
  rw [Pattern.matchList] at h
  · cases h
    exact .noPatterns
  · simp

/-- The induction is on the value: the constructor form of a numeral holds the next smaller one. -/
theorem runs_of_matchNumeral (hgo : env.Obeys go) {shape : NatShape} {value : ℕ} {t : Term}
    (h : Pattern.matchNumeral go shape value t k = some (r, k')) :
    env.Runs (.matching (.numeral value shape) t) k (.outcome r) k' := by
  induction value generalizing t k r k' with
  | zero =>
    rw [Pattern.matchNumeral_eq] at h
    obtain ⟨u, k₁, hu, h⟩ := Eval.bind_eq_some h
    cases hvalue : Pattern.numeralValue? shape.data u with
    | some v =>
      rw [hvalue] at h
      cases h
      exact .byValue (hgo _ _ _ _ hu) hvalue
    | none =>
      rw [hvalue] at h
      exact .byForm (hgo _ _ _ _ hu) hvalue
        (runs_of_matchCon hgo (fun _ _ _ _ h => runs_of_noPatterns h) h)
  | succ n ih =>
    rw [Pattern.matchNumeral_eq] at h
    obtain ⟨u, k₁, hu, h⟩ := Eval.bind_eq_some h
    cases hvalue : Pattern.numeralValue? shape.data u with
    | some v =>
      rw [hvalue] at h
      cases h
      exact .byValue (hgo _ _ _ _ hu) hvalue
    | none =>
      rw [hvalue] at h
      refine .byForm (hgo _ _ _ _ hu) hvalue (runs_of_matchCon hgo (fun ts k r k' h => ?_) h)
      refine runs_of_matchCons (fun t k r k' h => ?_) (fun _ _ _ _ h => runs_of_noPatterns h) h
      simp only [Pattern.matchTerm] at h
      exact ih h

mutual

theorem runs_of_matchTerm (hgo : env.Obeys go) : ∀ (p : Pattern) {t : Term} {k k' : ℕ}
    {r : MatchResult}, p.matchTerm go t k = some (r, k') →
      env.Runs (.matching p t) k (.outcome r) k'
  | .bind _ _, t, k, k', r, h => by
    simp only [Pattern.matchTerm] at h
    cases h
    exact .bind
  | .absurd, t, k, k', r, h => by
    simp only [Pattern.matchTerm] at h
    cases h
    exact .absurd
  | .hole none _ _, t, k, k', r, h => by
    simp only [Pattern.matchTerm] at h
    cases h
    exact .openHole
  | .hole (some solution) _ _, t, k, k', r, h => by
    simp only [Pattern.matchTerm] at h
    exact .solved (runs_of_matchTerm hgo solution h)
  | .tuple items, t, k, k', r, h => by
    simp only [Pattern.matchTerm] at h
    obtain ⟨u, k₁, hu, h⟩ := Eval.bind_eq_some h
    cases u with
    | tuple ts =>
      by_cases hfit : ts.length = items.length
      · simp only [hfit, if_true] at h
        exact .tuple (hgo _ _ _ _ hu) hfit (runs_of_matchList hgo items h)
      · simp only [hfit, if_false] at h
        cases h
        exact .tupleStuck (hgo _ _ _ _ hu) (by simpa using hfit)
    | _ =>
      cases h
      exact .tupleStuck (hgo _ _ _ _ hu) (by simp)
  | .con _ _ _ _ args, t, k, k', r, h =>
    runs_of_matchCon hgo (fun _ _ _ _ h => runs_of_matchList hgo args h) h
  | .numeral value shape, t, k, k', r, h => by
    simp only [Pattern.matchTerm] at h
    exact runs_of_matchNumeral hgo h

theorem runs_of_matchList (hgo : env.Obeys go) : ∀ (ps : List Pattern) {ts : List Term}
    {k k' : ℕ} {r : MatchResult}, Pattern.matchList go ps ts k = some (r, k') →
      env.Runs (.matchingAll ps ts) k (.outcome r) k'
  | [], _, _, _, _, h => runs_of_noPatterns h
  | p :: ps, _, _, _, _, h => runs_of_matchCons (fun _ _ _ _ h => runs_of_matchTerm hgo p h)
      (fun _ _ _ _ h => runs_of_matchList hgo ps h) h

end

theorem runs_of_unfoldClauses (hgo : env.Obeys go) {stack : ℕ} {args : List Term}
    {cs : List Clause} {b : Option Term}
    (h : unfoldClauses go stack args cs k = some (b, k')) :
    env.Runs (.selecting cs args) k (.body b) k' := by
  induction cs generalizing k with
  | nil =>
    cases h
    exact .noClause
  | cons c cs ih =>
    obtain ⟨r, k₁, hr, h⟩ := Eval.bind_eq_some h
    have hr := runs_of_matchList hgo c.patterns hr
    cases r with
    | matched bound =>
      obtain ⟨u, hu, h⟩ := Eval.lift_bind_eq_some h
      cases h
      exact .selected hr (Term.opens_of_replaceFrom hu)
    | mismatch => exact .passed hr (ih h)
    | stuck =>
      cases h
      exact .blocked hr

theorem runs_of_unfold (hgo : env.Obeys go) {stack : ℕ} {fn : DefId} {args : List Term}
    {b : Option Term} (h : env.unfold go stack fn args k = some (b, k')) :
    env.Runs (.unfolding fn args) k (.body b) k' := by
  unfold Env.unfold at h
  cases hf : env.fns.get? fn with
  | none =>
    rw [hf] at h
    cases h
    exact .unknown (by simp [hf])
  | some f =>
    rw [hf] at h
    by_cases hfit : args.length = f.telescope.length
    · simp only [hfit, if_true] at h
      cases hbody : f.body with
      | expr body =>
        rw [hbody] at h
        obtain ⟨u, hu, h⟩ := Eval.lift_bind_eq_some h
        cases h
        exact .expr hf hfit hbody (Term.opens_of_replaceFrom hu)
      | clauses cs =>
        rw [hbody] at h
        exact .clauses hf hfit hbody (runs_of_unfoldClauses hgo h)
    · simp only [hfit, if_false] at h
      cases h
      exact .unknown (by simpa [hf] using hfit)

/-- Evaluation within a bound on nested calls goes by the rules. -/
theorem obeys_whnf (env : Env) (stack : ℕ) : env.Obeys (env.whnf stack) := by
  induction stack with
  | zero =>
    intro t k u k' h
    cases h
  | succ stack ih =>
    intro t k u k' h
    cases t with
    | app fn arg =>
      obtain ⟨fn', k₁, hfn, h⟩ := Eval.bind_eq_some h
      cases fn' with
      | lam body =>
        obtain ⟨opened, hopened, h⟩ := Eval.lift_bind_eq_some h
        exact .contract (ih _ _ _ _ hfn) (Term.opens_of_replaceFrom hopened) (ih _ _ _ _ h)
      | _ =>
        cases h
        exact .app (ih _ _ _ _ hfn) (by simp [Term.form])
    | proj whole index =>
      obtain ⟨whole', k₁, hwhole, h⟩ := Eval.bind_eq_some h
      cases whole' with
      | tuple items =>
        cases hitem : items[index]? with
        | some item =>
          simp only [hitem] at h
          exact .item (ih _ _ _ _ hwhole) hitem (ih _ _ _ _ h)
        | none =>
          simp only [hitem] at h
          cases h
          exact .proj (ih _ _ _ _ hwhole) (by simpa using hitem)
      | _ =>
        cases h
        exact .proj (ih _ _ _ _ hwhole) (by simp)
    | fnCall fn lift args =>
      cases k with
      | zero =>
        cases h
        exact .exhausted
      | succ k =>
        rw [whnf_call] at h
        obtain ⟨b, k₁, hb, h⟩ := Eval.bind_eq_some h
        have hb := runs_of_unfold ih hb
        cases b with
        | some unfolded => exact .unfold hb (ih _ _ _ _ h)
        | none =>
          cases h
          exact .keep hb
    | _ =>
      cases h
      exact .done rfl

end Soundness

/-- The task is done in this way within a bound on nested calls. -/
def Performs (env : Env) (stack : ℕ) : Task → ℕ → Answer → ℕ → Prop
  | .evaluate t, k, .term u, k' => env.whnf stack t k = some (u, k')
  | .unfolding fn args, k, .body b, k' =>
    env.unfold (env.whnf stack) stack fn args k = some (b, k')
  | .selecting cs args, k, .body b, k' =>
    unfoldClauses (env.whnf stack) stack args cs k = some (b, k')
  | .matching p t, k, .outcome r, k' => p.matchTerm (env.whnf stack) t k = some (r, k')
  | .matchingAll ps ts, k, .outcome r, k' =>
    Pattern.matchList (env.whnf stack) ps ts k = some (r, k')
  | _, _, _, _ => False

section Completeness

variable {env : Env} {task : Task} {a b : Answer} {k k' l : ℕ}

theorem matchList_cons_fails {go : Term → Eval Term} {p : Pattern} {ps : List Pattern} {t : Term}
    {ts : List Term} {r : MatchResult} (h : p.matchTerm go t k = some (r, k'))
    (hr : ∀ bound, r ≠ .matched bound) :
    Pattern.matchList go (p :: ps) (t :: ts) k = some (r, k') := by
  rw [Pattern.matchList]
  refine (Eval.bind_of_some h).trans ?_
  cases r with
  | matched bound => exact absurd rfl (hr bound)
  | _ => rfl

/-- What the rules say, evaluation finds whenever it may nest deep enough. -/
theorem Runs.eventually (h : env.Runs task k a k') :
    ∀ᶠ stack in atTop, env.Performs stack task k a k' := by
  induction h with
  | @done k t hfree =>
    refine Term.eventually_of_succ (.of_forall fun stack => ?_)
    cases t <;> first | rfl | cases hfree
  | contract _ hopens _ ihFn ihRest =>
    apply Term.eventually_of_succ
    filter_upwards [ihFn, hopens.eventually, ihRest] with stack hfn hopened hrest
    exact (Eval.bind_of_some hfn).trans
      ((Eval.bind_of_some (Eval.lift_of_some hopened _)).trans hrest)
  | @app k k₁ fn fn' arg _ hstuck ihFn =>
    apply Term.eventually_of_succ
    filter_upwards [ihFn] with stack hfn
    refine (Eval.bind_of_some hfn).trans ?_
    cases fn' with
    | lam body => exact (hstuck rfl).elim
    | _ => rfl
  | @item k k₁ k₂ index whole found u items _ hitem _ ihWhole ihRest =>
    apply Term.eventually_of_succ
    filter_upwards [ihWhole, ihRest] with stack hwhole hrest
    refine (Eval.bind_of_some hwhole).trans ?_
    simp only [hitem]
    exact hrest
  | @proj k k₁ index whole whole' _ hstuck ihWhole =>
    apply Term.eventually_of_succ
    filter_upwards [ihWhole] with stack hwhole
    refine (Eval.bind_of_some hwhole).trans ?_
    cases whole' with
    | tuple items =>
      simp only [hstuck items rfl]
      rfl
    | _ => rfl
  | exhausted => exact Term.eventually_of_succ (.of_forall fun _ => rfl)
  | unfold _ _ ihUnfolds ihRest =>
    apply Term.eventually_of_succ
    filter_upwards [ihUnfolds, ihRest] with stack hunfolds hrest
    exact (whnf_call stack).trans ((Eval.bind_of_some hunfolds).trans hrest)
  | keep _ ih =>
    apply Term.eventually_of_succ
    filter_upwards [ih] with stack hstuck
    exact (whnf_call stack).trans (Eval.bind_of_some hstuck)
  | @unknown k fn args hunfit =>
    refine .of_forall fun stack => ?_
    simp only [Performs, Env.unfold]
    cases hf : env.fns.get? fn with
    | none => rfl
    | some f => simp only [if_neg (hunfit f hf)]; rfl
  | expr hf hfit hbody hopens =>
    filter_upwards [hopens.eventually] with stack hopened
    simp only [Performs, Env.unfold, hf, hfit, if_true, hbody]
    exact Eval.bind_of_some (Eval.lift_of_some hopened _)
  | clauses hf hfit hbody _ ih =>
    filter_upwards [ih] with stack hselects
    simp only [Performs, Env.unfold, hf, hfit, if_true, hbody]
    exact hselects
  | noClause => exact .of_forall fun _ => rfl
  | selected _ hopens ih =>
    filter_upwards [ih, hopens.eventually] with stack hmatch hopened
    exact (Eval.bind_of_some hmatch).trans (Eval.bind_of_some (Eval.lift_of_some hopened _))
  | passed _ _ ihMatch ihRest =>
    filter_upwards [ihMatch, ihRest] with stack hmatch hrest
    exact (Eval.bind_of_some hmatch).trans hrest
  | blocked _ ih =>
    filter_upwards [ih] with stack hmatch
    exact Eval.bind_of_some hmatch
  | bind | absurd | openHole =>
    refine .of_forall fun stack => ?_
    simp only [Performs, Pattern.matchTerm]
    rfl
  | solved _ ih =>
    filter_upwards [ih] with stack hsolution
    simp only [Performs, Pattern.matchTerm]
    exact hsolution
  | @tuple k k₁ k₂ items t ts r _ hfit _ ihWhole ihRest =>
    filter_upwards [ihWhole, ihRest] with stack hwhole hrest
    simp only [Performs, Pattern.matchTerm]
    refine (Eval.bind_of_some hwhole).trans ?_
    simp only [if_pos hfit]
    exact hrest
  | @tupleStuck k k₁ items t u _ hunfit ihWhole =>
    filter_upwards [ihWhole] with stack hwhole
    simp only [Performs, Pattern.matchTerm]
    refine (Eval.bind_of_some hwhole).trans ?_
    cases u with
    | tuple ts => simp only [if_neg (hunfit ts rfl)]; rfl
    | _ => rfl
  | con _ hbuilt hfit _ ihWhole ihRest =>
    filter_upwards [ihWhole, ihRest] with stack hwhole hrest
    simp only [Performs, Pattern.matchTerm]
    refine (Eval.bind_of_some hwhole).trans ?_
    simp only [hbuilt, hfit, and_self, if_true]
    exact hrest
  | conMismatch _ hbuilt hunfit ihWhole =>
    filter_upwards [ihWhole] with stack hwhole
    simp only [Performs, Pattern.matchTerm]
    refine (Eval.bind_of_some hwhole).trans ?_
    simp only [hbuilt, if_neg hunfit]
    rfl
  | conStuck _ hstuck ihWhole =>
    filter_upwards [ihWhole] with stack hwhole
    simp only [Performs, Pattern.matchTerm]
    refine (Eval.bind_of_some hwhole).trans ?_
    simp only [hstuck]
    rfl
  | byValue _ hvalue ihWhole =>
    filter_upwards [ihWhole] with stack hwhole
    simp only [Performs, Pattern.matchTerm, Pattern.matchNumeral_eq]
    refine (Eval.bind_of_some hwhole).trans ?_
    simp only [hvalue]
    rfl
  | byForm _ hother _ ihWhole ihRest =>
    filter_upwards [ihWhole, ihRest] with stack hwhole hrest
    simp only [Performs, Pattern.matchTerm, Pattern.matchNumeral_eq]
    refine (Eval.bind_of_some hwhole).trans ?_
    simp only [hother]
    exact hrest
  | noPatterns =>
    refine .of_forall fun stack => ?_
    simp only [Performs]
    rw [Pattern.matchList]
    · rfl
    · simp
  | noTerms =>
    refine .of_forall fun stack => ?_
    simp only [Performs]
    rw [Pattern.matchList]
    · rfl
    · simp
  | both _ _ ihFirst ihOthers =>
    filter_upwards [ihFirst, ihOthers] with stack hfirst hothers
    simp only [Performs]
    rw [Pattern.matchList]
    exact (Eval.bind_of_some hfirst).trans (Eval.bind_of_some hothers)
  | firstFails _ hfailed ih =>
    filter_upwards [ih] with stack hfirst
    exact matchList_cons_fails hfirst hfailed
  | @othersFail k k₁ k₂ p ps t ts bound r _ _ hfailed ihFirst ihOthers =>
    filter_upwards [ihFirst, ihOthers] with stack hfirst hothers
    simp only [Performs]
    rw [Pattern.matchList]
    refine (Eval.bind_of_some hfirst).trans ((Eval.bind_of_some hothers).trans ?_)
    cases r with
    | matched rest => exact (hfailed rest rfl).elim
    | _ => rfl

theorem Performs.unique {stack : ℕ} (h : env.Performs stack task k a k')
    (h' : env.Performs stack task k b l) : a = b ∧ k' = l := by
  have hsame : ∀ {α : Type} {o : Option (α × ℕ)} {x y : α},
      o = some (x, k') → o = some (y, l) → x = y ∧ k' = l := by
    intro α o x y hx hy
    exact Prod.mk.inj (Option.some.inj (hx.symm.trans hy))
  cases task <;> cases a <;> cases b <;>
    first
      | cases h
      | cases h'
      | obtain ⟨rfl, rfl⟩ := hsame h h'
        exact ⟨rfl, rfl⟩

/-- A task has one answer, and leaves one amount of fuel. -/
theorem Runs.unique (h : env.Runs task k a k') (h' : env.Runs task k b l) : a = b ∧ k' = l := by
  obtain ⟨stack, hp, hp'⟩ := (h.eventually.and h'.eventually).exists
  exact hp.unique hp'

theorem runs_evaluate_iff {t u : Term} :
    env.Runs (.evaluate t) k (.term u) k' ↔ ∃ stack, env.whnf stack t k = some (u, k') :=
  ⟨fun h => h.eventually.exists, fun ⟨stack, h⟩ => env.obeys_whnf stack _ _ _ _ h⟩

theorem runs_matching_iff {p : Pattern} {t : Term} {r : MatchResult} :
    env.Runs (.matching p t) k (.outcome r) k' ↔
      ∃ stack, p.matchTerm (env.whnf stack) t k = some (r, k') :=
  ⟨fun h => h.eventually.exists, fun ⟨stack, h⟩ => runs_of_matchTerm (env.obeys_whnf stack) p h⟩

end Completeness

end Env

end ProofCore
