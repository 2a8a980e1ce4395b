import ProofCore.Proofs.DeterminedAnswers
import ProofCore.Proofs.Grafting

/-!
# Evaluation of instances

Evaluation is stable under putting a value in the place of a free variable. What came to a
canonical head comes to the corresponding head in the instance, and what matched or failed to match
does so there, with the same fuel left. Only what was left open may go another way.
-/
namespace ProofCore

open Filter (Eventually atTop)

namespace Term

/-- The value `v` in the place of the leaf `x`. -/
def leafInstance (x : Var) (v : Term) : Term → Term
  | .free y => if y = x then v else .free y
  | t => t

/-- Puts `v` in the place of the free variable `x`, except within holes. -/
def replaceFree (x : Var) (v : Term) : Term → Term := graft (leafInstance x v)

variable {x : Var} {v t : Term}

theorem grafts_leafInstance (hv : v.IsValue) : Grafts (leafInstance x v) := by
  intro t hleaf
  cases t with
  | free y =>
    by_cases hy : y = x
    · exact .inr ⟨rfl, by simpa [leafInstance, hy] using hv⟩
    · exact .inl (by simp [leafInstance, hy])
  | _ => exact .inl rfl

/-- A term without the variable is its own instance. -/
theorem replaceFree_eq_self (h : t.Everywhere (· ≠ .free x)) : replaceFree x v t = t := by
  refine graft_eq_self fun o ho _ => ?_
  have hne := h o ho
  cases hu : o.2 with
  | free y =>
    rw [hu] at hne
    exact if_neg fun hy => hne (congrArg _ hy)
  | _ => rfl

theorem numeral_replaceFree (n : ℕ) (shape : NatShape) :
    replaceFree x v (.numeral n shape) = .numeral n shape := graft_of_isLeaf rfl

theorem isRedexFree_replaceFree (h : t.isCanonical = true) :
    (replaceFree x v t).isRedexFree = true := by
  cases t with
  | lam | tuple | conCall | dataCall | numeral | sort =>
    first
      | rw [replaceFree, graft_of_not_isLeaf rfl]; rfl
      | rw [replaceFree, graft_of_isLeaf rfl]; rfl
  | _ => cases h

theorem conLike_replaceFree {ctor : DefId} {args : List Term}
    (h : t.conLike? = some (ctor, args)) :
    (replaceFree x v t).conLike? = some (ctor, args.map (replaceFree x v)) := by
  cases t with
  | conCall =>
    cases h
    rw [replaceFree, graft_conCall]
    rfl
  | numeral value shape =>
    rw [numeral_replaceFree, h]
    cases value with
    | zero =>
      cases h
      rfl
    | succ n =>
      cases h
      simp [numeral_replaceFree]
  | _ => cases h

theorem numeralValue_replaceFree (h : t.isCanonical = true) (data : DefId) :
    Pattern.numeralValue? data (replaceFree x v t) = Pattern.numeralValue? data t := by
  cases t with
  | numeral => rw [numeral_replaceFree]
  | lam | tuple | conCall | dataCall => rw [replaceFree, graft_of_not_isLeaf rfl]; rfl
  | sort => rw [replaceFree, graft_of_isLeaf rfl]; rfl
  | _ => cases h

end Term

namespace Env

/-- The free variable `x` does not occur in the body of a function. -/
def Avoids (env : Env) (x : Var) : Prop :=
  ∀ id f, env.fns.get? id = some f → ∀ body ∈ (Def.fn f).bodyTerms,
    body.2.Everywhere (· ≠ .free x)

variable {env : Env} {x : Var} {v : Term} {task : Task} {a : Answer} {k k' : ℕ}

theorem Avoids.uses (h : env.Avoids x) :
    env.Uses (fun t => t.Everywhere (· ≠ .free x)) fun _ => True := ⟨h, fun _ _ _ _ _ => trivial⟩

open Term in
/-- A determined answer to a task is, in the instance, the answer to the instance of the task. -/
theorem Runs.at_instance (hv : v.IsValue) (henv : env.Avoids x) (h : env.Runs task k a k')
    (htask : task.Uses (fun t => t.Everywhere (· ≠ .free x)) fun _ => True) (ha : a.Determined) :
    env.Runs (task.map (replaceFree x v)) k (a.map (replaceFree x v)) k' := by
  have hg : Grafts (leafInstance x v) := grafts_leafInstance hv
  induction h with
  | done => exact .done (isRedexFree_replaceFree ha)
  | contract _ hopens _ ihFn ihRest =>
    have hfn := ihFn trivial rfl
    simp only [Task.map, Answer.map, replaceFree, graft_lam, graft_app] at hfn ⊢
    exact .contract hfn (hopens.graft hg) (ihRest trivial ha)
  | item _ hitem _ ihWhole ihRest =>
    have hwhole := ihWhole trivial rfl
    simp only [Task.map, Answer.map, replaceFree, graft_tuple, graft_proj] at hwhole ⊢
    exact .item hwhole (by rw [List.getElem?_map, hitem]; rfl) (ihRest trivial ha)
  | unfold _ _ ihUnfolds ihRest =>
    simp only [Task.map, replaceFree, graft_fnCall]
    exact .unfold (ihUnfolds trivial rfl) (ihRest trivial ha)
  | app | proj | exhausted | keep => cases ha
  | unknown | noClause | blocked => cases ha
  | absurd | openHole | tupleStuck | conStuck => exact (ha rfl).elim
  | expr hf hfit hbody hopens =>
    have hopens := hopens.graft hg
    rw [← replaceFree, replaceFree_eq_self (henv.uses.expr hf hbody), List.map_reverse] at hopens
    exact .expr hf (by simpa using hfit) hbody hopens
  | clauses hf hfit hbody _ ih =>
    exact .clauses hf (by simpa using hfit) hbody (ih (henv.uses.clauses hf hbody _) ha)
  | @selected k k₁ args bound c cs u _ hopens ih =>
    have hopens := hopens.graft hg
    rw [← replaceFree, replaceFree_eq_self (htask c (by simp)).1, List.map_reverse] at hopens
    exact .selected (ih (fun _ _ => trivial) (by simp [Answer.Determined])) hopens
  | passed _ _ ihMatch ihRest =>
    exact .passed (ihMatch (fun _ _ => trivial) (by simp [Answer.Determined]))
      (ihRest (fun c hc => htask c (by simp [hc])) ha)
  | bind => exact .bind
  | solved _ ih => exact .solved (ih trivial ha)
  | tuple _ hfit _ ihWhole ihRest =>
    have hwhole := ihWhole trivial rfl
    simp only [Answer.map, replaceFree, graft_tuple] at hwhole
    exact .tuple hwhole (by simpa using hfit) (ihRest (fun _ _ => trivial) ha)
  | con _ hbuilt hfit _ ihWhole ihRest =>
    exact .con (ihWhole trivial (isCanonical_of_conLike hbuilt)) (conLike_replaceFree hbuilt)
      (by simpa using hfit) (ihRest (fun _ _ => trivial) ha)
  | conMismatch _ hbuilt hunfit ihWhole =>
    exact .conMismatch (ihWhole trivial (isCanonical_of_conLike hbuilt))
      (conLike_replaceFree hbuilt) (by simpa using hunfit)
  | @byValue k k₁ value n shape t u _ hvalue ihWhole =>
    have hu : u.isCanonical = true := by
      cases u <;> first | rfl | cases hvalue
    have hdecided : (if n = value then MatchResult.matched [] else .mismatch).map
        (replaceFree x v) = if n = value then .matched [] else .mismatch := by
      split <;> rfl
    simp only [Answer.map, hdecided]
    exact .byValue (ihWhole trivial hu) ((numeralValue_replaceFree hu _).trans hvalue)
  | byForm hwhole hother hrest ihWhole ihRest =>
    -- the result was canonical, since otherwise its second evaluation would not have decided
    have hu := hwhole.canonical_of_byForm hrest ha
    exact .byForm (ihWhole trivial hu) ((numeralValue_replaceFree hu _).trans hother)
      (ihRest trivial ha)
  | noPatterns => exact .noPatterns
  | noTerms => exact .noTerms
  | both _ _ ihFirst ihOthers =>
    simp only [Task.map, Answer.map, MatchResult.map, List.map_append, List.map_cons]
    exact .both (ihFirst trivial (by simp [Answer.Determined]))
      (ihOthers (fun _ _ => trivial) (by simp [Answer.Determined]))
  | @firstFails k k₁ p ps t ts r _ hfailed ih =>
    refine .firstFails (ih trivial ha) ?_
    cases r <;> simp_all [MatchResult.map]
  | @othersFail k k₁ k₂ p ps t ts bound r _ _ hfailed ihFirst ihOthers =>
    refine .othersFail (ihFirst trivial (by simp [Answer.Determined]))
      (ihOthers (fun _ _ => trivial) ha) ?_
    cases r <;> simp_all [MatchResult.map]

open Term in
/-- Evaluation is stable under putting a value in the place of a variable that no function body
mentions: a canonical result and a decided match are found in the instance as well, with the same
fuel left. -/
theorem stable_under_values (hv : v.IsValue) (henv : env.Avoids x) (t : Term) (stack k left : ℕ) :
    (∀ r, env.whnf stack t k = some (r, left) → r.isCanonical = true →
      ∀ᶠ room in atTop, env.whnf room (replaceFree x v t) k =
        some (replaceFree x v r, left)) ∧
    (∀ (p : Pattern) r, p.matchTerm (env.whnf stack) t k = some (r, left) → r ≠ .stuck →
      ∀ᶠ room in atTop, p.matchTerm (env.whnf room) (replaceFree x v t) k =
        some (r.map (replaceFree x v), left)) := by
  constructor
  · intro r hr hcanonical
    have hruns := runs_evaluate_iff.mpr ⟨stack, hr⟩
    exact (hruns.at_instance hv henv trivial hcanonical).eventually
  · intro p r hr hdecided
    have hruns := runs_matching_iff.mpr ⟨stack, hr⟩
    exact (hruns.at_instance hv henv trivial hdecided).eventually

/-- The function that doubles a number, by clauses. -/
def doubling : Env := Env.add {} (.fn ⟨⟨4⟩, "double", [⟨"n", .dataCall ⟨1⟩ 0 [], true⟩],
  .dataCall ⟨1⟩ 0 [], .clauses [
    ⟨[.con ⟨1⟩ ⟨2⟩ 0 [] []], .conCall ⟨1⟩ ⟨2⟩ 0 [] []⟩,
    ⟨[.con ⟨1⟩ ⟨3⟩ 0 [] [.bind ⟨.supplied 0, "n"⟩ (.dataCall ⟨1⟩ 0 [])]],
      .conCall ⟨1⟩ ⟨3⟩ 0 [] [.conCall ⟨1⟩ ⟨3⟩ 0 [] [.fnCall ⟨4⟩ 0 [.bound 0]]]⟩]⟩)

theorem avoids_doubling : doubling.Avoids ⟨.supplied 1, "x"⟩ := by
  intro id f hf
  rw [doubling, Env.add, Table.get?_insert] at hf
  split at hf
  · cases hf
    decide +kernel
  · cases hf

/-- Doubling the successor of a variable shows two successors at once, also where the variable
stands for two, and the result does not match the numeral one. -/
theorem stable_under_values_doubling :
    let x : Var := ⟨.supplied 1, "x"⟩
    let double (t : Term) : Term := .fnCall ⟨4⟩ 0 [t]
    let suc (t : Term) : Term := .conCall ⟨1⟩ ⟨3⟩ 0 [] [t]
    let two : Term := suc (.numeral 1 ⟨⟨1⟩, ⟨2⟩, ⟨3⟩⟩)
    doubling.whnf 9 (double (suc (.free x))) 9 = some (suc (suc (double (.free x))), 8) ∧
    (∃ room, doubling.whnf room (double (suc two)) 9 = some (suc (suc (double two)), 8)) ∧
    ∃ room, (Pattern.numeral 1 ⟨⟨1⟩, ⟨2⟩, ⟨3⟩⟩).matchTerm (doubling.whnf room)
      (double (suc two)) 9 = some (.mismatch, 8) := by
  intro x double suc two
  have hvalue : two.IsValue := by decide
  have heval : doubling.whnf 9 (double (suc (.free x))) 9 =
      some (suc (suc (double (.free x))), 8) := by decide +kernel
  have hmatch : (Pattern.numeral 1 ⟨⟨1⟩, ⟨2⟩, ⟨3⟩⟩).matchTerm (doubling.whnf 9)
      (double (suc (.free x))) 9 = some (.mismatch, 8) := by rfl
  have hstable := stable_under_values hvalue avoids_doubling (double (suc (.free x))) 9 9 8
  exact ⟨heval, (hstable.1 _ heval rfl).exists, (hstable.2 _ _ hmatch (by simp)).exists⟩

end Env

end ProofCore
