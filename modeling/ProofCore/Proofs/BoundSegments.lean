import ProofCore.Proofs.EvaluationRules

/-!
# What a clause binds

The patterns of a clause are matched from left to right, each against its own argument and with the
fuel that the one before has left. A pattern that matches binds as many terms as it lists variables,
a solved hole as many as its solution, and a numeral none, however it was matched. So the terms
that a clause binds fall into one segment for each pattern, and they are as many as the binders
that its body stands under.
-/
namespace ProofCore

namespace Pattern

/-- Each pattern matches its term with the fuel that the one before has left, and binds a segment
of its own. -/
inductive MatchedInTurn (go : Term → Eval Term) :
    List Pattern → List Term → ℕ → List (List Term) → ℕ → Prop
  | nil {ts : List Term} {k : ℕ} : MatchedInTurn go [] ts k [] k
  | cons {p : Pattern} {ps : List Pattern} {t : Term} {ts segment : List Term}
      {segments : List (List Term)} {k k₁ k₂ : ℕ}
      (first : p.matchTerm go t k = some (.matched segment, k₁))
      (others : MatchedInTurn go ps ts k₁ segments k₂) :
      MatchedInTurn go (p :: ps) (t :: ts) k (segment :: segments) k₂

variable {go : Term → Eval Term} {p : Pattern} {ps : List Pattern} {t : Term} {ts bound : List Term}
  {segments : List (List Term)} {k k' : ℕ}

/-- A match that succeeds binds one term for each variable, whatever evaluation does. -/
theorem length_of_matchTerm (h : p.matchTerm go t k = some (.matched bound, k')) :
    bound.length = p.bindings.length := by
  have hself : Simulation.budgeted.Evaluation (fun _ => True) go go :=
    ⟨Term.passesToParts_true, fun _ _ _ _ hr => ⟨hr, trivial⟩⟩
  obtain ⟨-, hlength, -⟩ := hself.matchTerm p trivial k _ h
  exact hlength

/-- Where there is a term for each pattern, none of the patterns is left out. -/
theorem exists_matchedInTurn (hfit : ps.length ≤ ts.length)
    (h : matchList go ps ts k = some (.matched bound, k')) :
    ∃ segments, MatchedInTurn go ps ts k segments k' ∧ bound = segments.flatten := by
  induction ps generalizing ts bound k with
  | nil =>
    rw [matchList] at h
    · cases h
      exact ⟨[], .nil, rfl⟩
    · simp
  | cons p ps ih =>
    cases ts with
    | nil => simp at hfit
    | cons t ts =>
      rw [matchList] at h
      obtain ⟨first, k₁, hfirst, h⟩ := Eval.bind_eq_some h
      cases first with
      | matched segment =>
        obtain ⟨others, k₂, hothers, h⟩ := Eval.bind_eq_some h
        cases others with
        | matched rest =>
          cases h
          obtain ⟨segments, hturns, rfl⟩ := ih (Nat.le_of_succ_le_succ hfit) hothers
          exact ⟨segment :: segments, .cons hfirst hturns, rfl⟩
        | mismatch | stuck => cases h
      | mismatch | stuck => cases h

theorem MatchedInTurn.forall₂_length (h : MatchedInTurn go ps ts k segments k') :
    List.Forall₂ (fun p segment => segment.length = p.bindings.length) ps segments := by
  induction h with
  | nil => exact .nil
  | cons first _ ih => exact .cons (length_of_matchTerm first) ih

theorem length_flatten_segments
    (h : List.Forall₂ (fun p (segment : List Term) => segment.length = p.bindings.length)
      ps segments) : segments.flatten.length = (listBindings ps).length := by
  induction h with
  | nil => rfl
  | cons hp _ ih => rw [List.flatten_cons, List.length_append, hp, ih, listBindings,
      List.length_append]

end Pattern

namespace Env

/-- If the patterns of a clause match their arguments, then each of them binds a segment of its own,
with one term for each of its variables; the segments follow one another in the order of the
patterns, and together they are as many terms as the body has binders. -/
theorem matched_segments_fit (env : Env) (stack : ℕ) {c : Clause} {args bound : List Term}
    {fuel left : ℕ} (hfit : c.patterns.length ≤ args.length)
    (h : Pattern.matchList (env.whnf stack) c.patterns args fuel = some (.matched bound, left)) :
    ∃ segments, bound = segments.flatten ∧
      Pattern.MatchedInTurn (env.whnf stack) c.patterns args fuel segments left ∧
      List.Forall₂ (fun p segment => segment.length = p.bindings.length) c.patterns segments ∧
      bound.length = c.bindingCount := by
  obtain ⟨segments, hturns, rfl⟩ := Pattern.exists_matchedInTurn hfit h
  have hlengths := hturns.forall₂_length
  exact ⟨segments, rfl, hturns, hlengths, Pattern.length_flatten_segments hlengths⟩

/-- A function without parameters that yields two, written out. -/
def constantTwo (nat : NatShape) : FnDef :=
  ⟨⟨4⟩, "two", [], .dataCall nat.data 0 [],
    .expr (.conCall nat.data nat.suc 0 [] [.conCall nat.data nat.suc 0 []
      [.conCall nat.data nat.zero 0 [] []]])⟩

/-- A hole that is solved by a successor, the numeral two, and a pair. -/
def mixedClause (nat : NatShape) : Clause :=
  let type : Term := .dataCall nat.data 0 []
  let var (index : ℕ) (name : String) : Pattern := .bind ⟨.supplied index, name⟩ type
  ⟨[.hole (some (.con nat.data nat.suc 0 [] [var 0 "n"])) "m" type, .numeral 2 nat,
    .tuple [var 1 "x", var 2 "y"]], .bound 2⟩

/-- A numeral matches the hole and a call the numeral, for one unit of fuel; one argument is left
over. -/
theorem matched_segments_fit_mixed :
    let nat : NatShape := ⟨⟨1⟩, ⟨2⟩, ⟨3⟩⟩
    let two : Term := .fnCall ⟨4⟩ 0 []
    let args : List Term := [.numeral 3 nat, two, .tuple [two, .sort 0], two]
    let bound : List Term := [.numeral 2 nat, two, .sort 0]
    Pattern.matchList (Env.whnf (Env.add {} (.fn (constantTwo nat))) 3)
        (mixedClause nat).patterns args 5 = some (.matched bound, 4) ∧
      (∃ segments : List (List Term), bound = segments.flatten ∧
        segments.map List.length = [1, 0, 2]) ∧ bound.length = (mixedClause nat).bindingCount := by
  intro nat two args bound
  have hmatch : Pattern.matchList (Env.whnf (Env.add {} (.fn (constantTwo nat))) 3)
      (mixedClause nat).patterns args 5 = some (.matched bound, 4) := by rfl
  obtain ⟨segments, hflat, -, hlengths, hcount⟩ := matched_segments_fit _ 3 (by decide) hmatch
  refine ⟨hmatch, ⟨segments, hflat, ?_⟩, hcount⟩
  rcases hlengths with _ | ⟨hhole, _ | ⟨hnumeral, _ | ⟨hpair, _ | _⟩⟩⟩
  simp [hhole, hnumeral, hpair, Pattern.bindings]

end Env

end ProofCore
