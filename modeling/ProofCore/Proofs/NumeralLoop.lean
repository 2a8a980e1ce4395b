import ProofCore.Proofs.ComparedNumerals

/-!
# Comparison with a numeral ends

Comparison with a numeral, turn by turn. A turn looks at one term, knows what is left of the numeral
and whether the term is what an evaluation came to; it takes one constructor off, has the term
evaluated, or takes one path application off. Evaluation may answer with any term, however large.
But a term that was evaluated is not evaluated again, and each new term to look at costs a
constructor, for which the numeral pays. So the loop ends, and the numeral bounds how often
evaluation is asked for.
-/
namespace ProofCore

namespace Pattern

/-- Where the loop stands: the term it looks at, what is left of the numeral, and whether the term is
what an evaluation came to. -/
structure Peeling where
  term : Term
  left : ℕ
  evaluated : Bool

namespace Peeling

/-- What a turn does if it does not answer. -/
inductive Move where
  | peel
  | evaluate (t : Term)
  | unwrap

def Move.isPeel : Move → Bool
  | .peel => true
  | .evaluate _ | .unwrap => false

/-- The term that a move hands to evaluation. -/
def Move.asked? : Move → Option Term
  | .evaluate t => some t
  | .peel | .unwrap => none

/-- One turn of the loop: an answer, or a move and where it leads. -/
def turn (whnf : Term → Term) (shape : NatShape) : Peeling → SizeRelation ⊕ Move × Peeling
  | ⟨.numeral k _, n, _⟩ => .inl (.ofOrdering (Ord.compare k n))
  | ⟨.conCall _ c _ _ args, 0, _⟩ =>
    .inl (if c = shape.zero ∧ args.length = 0 then .equal else .unknown)
  | ⟨.conCall _ c _ _ [pred], n + 1, _⟩ =>
    if c = shape.suc then .inr (.peel, ⟨pred, n, false⟩) else .inl .unknown
  | ⟨.conCall _ _ _ _ _, _ + 1, _⟩ => .inl .unknown
  | ⟨t, n, false⟩ => .inr (.evaluate t, ⟨whnf t, n, true⟩)
  | ⟨.pathApp fn _, n, true⟩ => .inr (.unwrap, ⟨fn, n, true⟩)
  | ⟨_, _, true⟩ => .inl .unknown

/-- The moves of the loop up to its answer. -/
inductive Runs (whnf : Term → Term) (shape : NatShape) :
    Peeling → List Move → SizeRelation → Prop
  | answer {s : Peeling} {r : SizeRelation} (stop : s.turn whnf shape = .inl r) :
      Runs whnf shape s [] r
  | move {s s' : Peeling} {move : Move} {moves : List Move} {r : SizeRelation}
      (go : s.turn whnf shape = .inr (move, s')) (rest : Runs whnf shape s' moves r) :
      Runs whnf shape s (move :: moves) r

/-- How often evaluation may still be asked for: once for the term in view, if that was not done, and
once for what is found under each constructor that the numeral pays for. -/
def chances (s : Peeling) : ℕ := s.left + if s.evaluated then 0 else 1

variable {whnf : Term → Term} {shape : NatShape} {s s' : Peeling} {move : Move}
  {moves : List Move} {r : SizeRelation}

/-- All that a move may be. -/
theorem turn_cases (h : s.turn whnf shape = .inr (move, s')) :
    (move = .peel ∧ s.left = s'.left + 1 ∧ s'.evaluated = false ∧
      ∃ data lift dataArgs, s.term = .conCall data shape.suc lift dataArgs [s'.term]) ∨
    (move = .evaluate s.term ∧ s.evaluated = false ∧ s.term.conLike? = none ∧
      s' = ⟨whnf s.term, s.left, true⟩) ∨
    (move = .unwrap ∧ s.evaluated = true ∧ s'.left = s.left ∧ s'.evaluated = true ∧
      ∃ arg, s.term = .pathApp s'.term arg) := by
  obtain ⟨t, n, evaluated⟩ := s
  cases t with
  | numeral => cases h
  | conCall data c lift dataArgs args =>
    cases n with
    | zero => cases h
    | succ n =>
      rcases args with _ | ⟨pred, _ | ⟨arg, args⟩⟩
      · cases h
      · by_cases hc : c = shape.suc
        · simp only [turn, hc, if_true] at h
          cases h
          exact .inl ⟨rfl, rfl, rfl, data, lift, dataArgs, by rw [hc]⟩
        · simp [turn, hc] at h
      · cases h
  | pathApp fn arg =>
    cases evaluated with
    | false =>
      cases h
      exact .inr (.inl ⟨rfl, rfl, rfl, rfl⟩)
    | true =>
      cases h
      exact .inr (.inr ⟨rfl, rfl, rfl, rfl, arg, rfl⟩)
  | _ =>
    cases evaluated with
    | false =>
      cases h
      exact .inr (.inl ⟨rfl, rfl, rfl, rfl⟩)
    | true => cases h

/-- The numeral counts first, then whether the term was evaluated, then the size of the term:
evaluation may make the term larger, and taking a constructor off forgets that it was evaluated. -/
theorem wellFounded_turn (whnf : Term → Term) (shape : NatShape) :
    WellFounded fun s' s : Peeling => ∃ move, s.turn whnf shape = .inr (move, s') := by
  let rank (s : Peeling) : ℕ ×ₗ ℕ ×ₗ ℕ :=
    toLex (s.left, toLex (if s.evaluated then 0 else 1, sizeOf s.term))
  refine Subrelation.wf ?_ (InvImage.wf rank wellFounded_lt)
  rintro s' s ⟨move, h⟩
  simp only [InvImage, rank, Prod.Lex.toLex_lt_toLex]
  rcases turn_cases h with ⟨-, hleft, -⟩ | ⟨-, hflag, -, rfl⟩ |
    ⟨-, hflag, hleft, hflag', arg, hterm⟩
  · exact .inl (by omega)
  · exact .inr ⟨rfl, .inl (by simp [hflag])⟩
  · have hsize : sizeOf s'.term < sizeOf s.term := by
      rw [hterm, Term.pathApp.sizeOf_spec]
      omega
    exact .inr ⟨hleft, .inr ⟨by rw [hflag, hflag'], hsize⟩⟩

theorem exists_runs (whnf : Term → Term) (shape : NatShape) (s : Peeling) :
    ∃ moves r, Runs whnf shape s moves r := by
  induction s using (wellFounded_turn whnf shape).induction with
  | _ s ih =>
    cases hturn : s.turn whnf shape with
    | inl r => exact ⟨[], r, .answer hturn⟩
    | inr next =>
      obtain ⟨moves, r, hrest⟩ := ih next.2 ⟨next.1, hturn⟩
      exact ⟨next.1 :: moves, r, .move hturn hrest⟩

theorem turn_left (h : s.turn whnf shape = .inr (move, s')) :
    s'.left + (if move.isPeel then 1 else 0) = s.left := by
  rcases turn_cases h with ⟨rfl, hleft, -⟩ | ⟨rfl, -, -, rfl⟩ | ⟨rfl, -, hleft, -⟩
  · exact hleft.symm
  · rfl
  · exact hleft

/-- Taking a constructor off gives a chance back, but one that the numeral had paid for. -/
theorem turn_chances (h : s.turn whnf shape = .inr (move, s')) :
    s'.chances + move.asked?.toList.length ≤ s.chances := by
  unfold chances
  rcases turn_cases h with ⟨rfl, hleft, hflag, -⟩ | ⟨rfl, hflag, -, rfl⟩ |
    ⟨rfl, hflag, hleft, hflag', -⟩
  · simp [hleft, hflag, Move.asked?]
  · simp [hflag, Move.asked?]
  · simp [hleft, hflag, hflag', Move.asked?]

theorem Runs.peels_le (h : Runs whnf shape s moves r) : moves.countP Move.isPeel ≤ s.left := by
  induction h with
  | answer => simp
  | move go _ ih =>
    have hleft := turn_left go
    rw [List.countP_cons]
    omega

theorem Runs.asked_le (h : Runs whnf shape s moves r) :
    (moves.filterMap Move.asked?).length ≤ s.chances := by
  induction h with
  | answer => simp
  | @move s s' move moves r go _ ih =>
    have hchances := turn_chances go
    have hasked : ((move :: moves).filterMap Move.asked?).length =
        move.asked?.toList.length + (moves.filterMap Move.asked?).length := by
      cases hmove : move.asked? with
      | none => simp [hmove]
      | some t => simp [hmove, Nat.add_comm]
    omega

section Resuming

variable {m : Type → Type} [Monad m] {ask : Term → m Term}

/-- What comparison has still to do when the loop stands here. -/
def resume (ask : Term → m Term) (shape : NatShape) (s : Peeling) : m SizeRelation :=
  if s.evaluated then
    if s.term.pathHead.conLike?.isSome then compareNumeral ask shape s.left s.term.pathHead
    else return .unknown
  else compareNumeral ask shape s.left s.term

theorem resume_of_conLike (hbuilt : s.term.conLike?.isSome = true) :
    resume ask shape s = compareNumeral ask shape s.left s.term := by
  have hhead : s.term.pathHead = s.term := by
    cases hterm : s.term with
    | pathApp => simp [hterm, Term.conLike?] at hbuilt
    | _ => rfl
  simp [resume, hhead, hbuilt]

variable [LawfulMonad m]

/-- Comparison goes by what a term shows, and nothing is known if that is no constructor. -/
theorem compareNumeral_eq_bind_expose (n : ℕ) (t : Term) :
    compareNumeral ask shape n t = expose ask t >>= fun u =>
      if u.conLike?.isSome then compareNumeral ask shape n u else pure .unknown := by
  cases n
  all_goals
    rw [compareNumeral]
    refine bind_congr fun u => ?_
    by_cases hbuilt : u.conLike?.isSome = true
    · rw [if_pos hbuilt, compareNumeral, expose_of_conLike ask hbuilt, pure_bind]
    · rw [if_neg hbuilt]
      cases u with
      | numeral k => cases k <;> exact (hbuilt rfl).elim
      | conCall => exact (hbuilt rfl).elim
      | _ => rfl

theorem compareNumeral_of_conLike_eq_none {t : Term} (h : t.conLike? = none) (n : ℕ) :
    compareNumeral ask shape n t = ask t >>= fun u => resume ask shape ⟨u, n, true⟩ := by
  have hshown : expose ask t = ask t >>= fun u => pure u.pathHead := by simp [expose, h]
  rw [compareNumeral_eq_bind_expose, hshown, bind_assoc]
  refine bind_congr fun u => ?_
  rw [pure_bind]
  rfl

theorem resume_of_answer (h : s.turn whnf shape = .inl r) : resume ask shape s = pure r := by
  obtain ⟨t, n, evaluated⟩ := s
  cases t with
  | numeral k =>
    cases h
    rw [resume_of_conLike (by cases k <;> rfl), compareNumeral_numeral]
  | conCall data c lift dataArgs args =>
    rw [resume_of_conLike rfl]
    cases n with
    | zero =>
      cases h
      exact compareNumeral_zero_conCall ask
    | succ n =>
      rcases args with _ | ⟨pred, _ | ⟨arg, args⟩⟩
      · cases h
        exact compareNumeral_of_not_suc ask (by simp)
      · by_cases hc : c = shape.suc
        · simp [turn, hc] at h
        · simp only [turn, hc, if_false] at h
          cases h
          exact compareNumeral_of_not_suc ask (by simp [hc])
      · cases h
        exact compareNumeral_of_not_suc ask (by simp)
  | pathApp => cases evaluated <;> cases h
  | _ =>
    cases evaluated with
    | false => cases h
    | true =>
      cases h
      rfl

end Resuming

/-- Evaluation that keeps a list of the terms it was asked for. -/
def logged (whnf : Term → Term) (t : Term) : StateM (List Term) Term := fun log =>
  (whnf t, log ++ [t])

theorem resume_of_move (h : s.turn whnf shape = .inr (move, s')) (log : List Term) :
    resume (logged whnf) shape s log =
      resume (logged whnf) shape s' (log ++ move.asked?.toList) := by
  rcases turn_cases h with ⟨rfl, hleft, hflag, data, lift, dataArgs, hterm⟩ |
    ⟨rfl, hflag, hterm, rfl⟩ | ⟨rfl, hflag, hleft, hflag', arg, hterm⟩
  · have hbuilt : s.term.conLike?.isSome = true := by
      rw [hterm]
      rfl
    rw [resume_of_conLike hbuilt, hterm, hleft, compareNumeral_suc]
    simp [resume, hflag, Move.asked?]
  · have hask : compareNumeral (logged whnf) shape s.left s.term =
        logged whnf s.term >>= fun u => resume (logged whnf) shape ⟨u, s.left, true⟩ :=
      compareNumeral_of_conLike_eq_none hterm s.left
    simp only [resume, hflag]
    exact congrFun hask log
  · simp [resume, hflag, hflag', hterm, hleft, Term.pathHead, Move.asked?]

theorem Runs.resume_eq (h : Runs whnf shape s moves r) (log : List Term) :
    resume (logged whnf) shape s log = (r, log ++ moves.filterMap Move.asked?) := by
  induction h generalizing log with
  | answer stop =>
    rw [resume_of_answer stop, List.filterMap_nil, List.append_nil]
    rfl
  | @move s s' move moves r go _ ih =>
    rw [resume_of_move go, ih, List.append_assoc]
    cases hmove : move.asked? <;> simp [hmove]

/-- Whatever evaluation answers, the loop that compares a term with the numeral `n` comes to an end.
On its way it takes off at most `n` constructors and asks for at most `n + 1` evaluations. Its
answer is that of comparison, which asks for the same evaluations in the same order. -/
theorem compareNumeral_loop_ends (whnf : Term → Term) (shape : NatShape) (n : ℕ) (t : Term) :
    ∃ (moves : List Move) (r : SizeRelation), Runs whnf shape ⟨t, n, false⟩ moves r ∧
      moves.countP Move.isPeel ≤ n ∧ (moves.filterMap Move.asked?).length ≤ n + 1 ∧
      ∀ log, compareNumeral (logged whnf) shape n t log =
        (r, log ++ moves.filterMap Move.asked?) := by
  obtain ⟨moves, r, hruns⟩ := exists_runs whnf shape ⟨t, n, false⟩
  exact ⟨moves, r, hruns, hruns.peels_le, hruns.asked_le, hruns.resume_eq⟩

/-- An evaluation that always finds one more constructor on top of the same call is asked for each
time: four times for three. -/
example :
    let nat : NatShape := ⟨⟨1⟩, ⟨2⟩, ⟨3⟩⟩
    let call : Term := .fnCall ⟨4⟩ 0 []
    compareNumeral (logged fun _ => .conCall ⟨1⟩ ⟨3⟩ 0 [] [call]) nat 3 call [] =
      (.unknown, [call, call, call, call]) := by
  rfl

end Peeling

end Pattern

end ProofCore
