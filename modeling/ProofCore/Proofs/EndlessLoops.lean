import ProofCore.Proofs.SizeChangePrinciple

/-!
# Bad recursion has an endless run

A sequence of calls that leads a definition back to itself can be repeated for ever. If it has the
relations of its own repetition and no parameter decreases, then no sequence of calls around the
cycle makes a parameter smaller than itself. The size of a parameter can then be the number of
places in the cycle that are reached from it with a decrease on the way: along a call that keeps
the size no place is gained, and along one that decreases it the place that is entered is lost.
-/
namespace ProofCore

namespace SizeRelation

theorem add_eq_lessThan_iff {r s : SizeRelation} :
    r + s = .lessThan ↔ r = .lessThan ∨ s = .lessThan := by
  cases r <;> cases s <;> decide

theorem mul_lessThan {r : SizeRelation} (h : r ≠ .unknown) : r * .lessThan = .lessThan := by
  cases r with
  | unknown => exact absurd rfl h
  | equal => rfl
  | lessThan => rfl

theorem sum_eq_lessThan_iff {ι : Type*} {s : Finset ι} {f : ι → SizeRelation} :
    ∑ i ∈ s, f i = .lessThan ↔ ∃ i ∈ s, f i = .lessThan := by
  classical
  induction s using Finset.induction_on with
  | empty => simp [show (0 : SizeRelation) = .unknown from rfl]
  | insert i s hi ih => rw [Finset.sum_insert hi, add_eq_lessThan_iff, ih, Finset.exists_mem_insert]

end SizeRelation

/-- Square matrices of size relations, which compose by multiplication. -/
abbrev RelationMatrix (n : ℕ) : Type := Matrix (Fin n) (Fin n) SizeRelation

namespace RelationMatrix

variable {n : ℕ}

theorem mul_apply_lessThan {a b : RelationMatrix n} {i j k : Fin n} (ha : a i j ≠ .unknown)
    (hb : b j k = .lessThan) : (a * b) i k = .lessThan := by
  rw [Matrix.mul_apply, SizeRelation.sum_eq_lessThan_iff]
  exact ⟨j, Finset.mem_univ j, by rw [hb, SizeRelation.mul_lessThan ha]⟩

theorem trace_eq_lessThan_iff {a : RelationMatrix n} :
    a.trace = .lessThan ↔ ∃ i, a i i = .lessThan := by
  rw [Matrix.trace, SizeRelation.sum_eq_lessThan_iff]
  simp

/-- The product of `m` matrices of a sequence, from the one at `t` on. -/
def window (M : ℕ → RelationMatrix n) : ℕ → ℕ → RelationMatrix n
  | _, 0 => 1
  | t, m + 1 => M t * window M (t + 1) m

variable {M : ℕ → RelationMatrix n} {p : ℕ}

theorem window_add (M : ℕ → RelationMatrix n) (t l m : ℕ) :
    window M t (l + m) = window M t l * window M (t + l) m := by
  induction l generalizing t with
  | zero => simp [window]
  | succ l ih =>
    rw [Nat.succ_add, window, window, ih, mul_assoc, Nat.add_right_comm t 1 l]
    rfl

theorem window_one (M : ℕ → RelationMatrix n) (t : ℕ) : window M t 1 = M t := mul_one _

theorem add_mul_period (hperiod : ∀ t, M (t + p) = M t) (t q : ℕ) : M (t + p * q) = M t := by
  induction q with
  | zero => rfl
  | succ q ih => rw [Nat.mul_succ, ← Nat.add_assoc, hperiod, ih]

theorem window_add_mul_period (hperiod : ∀ t, M (t + p) = M t) (t q m : ℕ) :
    window M (t + p * q) m = window M t m := by
  induction m generalizing t with
  | zero => rfl
  | succ m ih => rw [window, window, add_mul_period hperiod, Nat.add_right_comm, ih]

theorem window_mul_period (hperiod : ∀ t, M (t + p) = M t) (q : ℕ) :
    window M 0 (p * q) = window M 0 p ^ q := by
  induction q with
  | zero => rfl
  | succ q ih =>
    rw [Nat.mul_succ, window_add, ih, window_add_mul_period hperiod, pow_succ]

/-- Whole rounds of a cycle have the same trace wherever they start. -/
theorem trace_window (hperiod : ∀ t, M (t + p) = M t) (t q : ℕ) :
    (window M t (p * q)).trace = (window M 0 (p * q)).trace := by
  induction t with
  | zero => rfl
  | succ t ih =>
    rw [← ih]
    cases hm : p * q with
    | zero => rfl
    | succ m =>
      -- the first matrix of the one round is the last of the other
      have hlast : M (t + 1 + m) = M t := by
        rw [Nat.add_assoc, Nat.add_comm 1 m, ← hm, add_mul_period hperiod]
      rw [window_add, window_one, hlast, Matrix.trace_mul_comm, window]

theorem window_diagonal_ne (hperiod : ∀ t, M (t + p) = M t)
    (hround : ∀ q i, window M 0 (p * q) i i ≠ .lessThan) {t m : ℕ} (hmod : (t + m) % p = t % p)
    (i : Fin n) : window M t m i i ≠ .lessThan := by
  obtain ⟨q, rfl⟩ : p ∣ m := (Nat.modEq_zero_iff_dvd).mp (Nat.ModEq.add_left_cancel' t hmod)
  intro hi
  have htrace := trace_eq_lessThan_iff.mpr ⟨i, hi⟩
  rw [trace_window hperiod] at htrace
  obtain ⟨j, hj⟩ := trace_eq_lessThan_iff.mp htrace
  exact hround q j hj

/-- The places of a cycle that are reached with a decrease from the parameter `i` at time `t`. -/
def descents (M : ℕ → RelationMatrix n) (p t : ℕ) (i : Fin n) : Set (Fin p × Fin n) :=
  {v | ∃ m, (t + m) % p = v.1 ∧ window M t m i v.2 = .lessThan}

theorem descents_subset {t : ℕ} {i j : Fin n} (h : M t i j ≠ .unknown) :
    descents M p (t + 1) j ⊆ descents M p t i := by
  intro v hv
  obtain ⟨m, hmod, hlt⟩ := hv
  refine ⟨m + 1, ?_, mul_apply_lessThan h hlt⟩
  rw [← hmod, Nat.add_assoc, Nat.add_comm 1 m]

theorem descents_ssubset (hp : 0 < p) (hperiod : ∀ t, M (t + p) = M t)
    (hround : ∀ q i, window M 0 (p * q) i i ≠ .lessThan) {t : ℕ} {i j : Fin n}
    (h : M t i j = .lessThan) : descents M p (t + 1) j ⊂ descents M p t i := by
  have hknown : M t i j ≠ .unknown := by simp [h]
  refine (Set.ssubset_iff_of_subset (descents_subset hknown)).mpr ?_
  refine ⟨(⟨(t + 1) % p, Nat.mod_lt _ hp⟩, j), ⟨1, rfl, by rw [window_one, h]⟩, ?_⟩
  intro hself
  obtain ⟨m, hmod, hlt⟩ := hself
  exact window_diagonal_ne hperiod hround hmod j hlt

/-- Sizes that obey all relations of a cycle in which nothing decreases. -/
theorem holds_ncard_descents (hp : 0 < p) (hperiod : ∀ t, M (t + p) = M t)
    (hround : ∀ q i, window M 0 (p * q) i i ≠ .lessThan) (t : ℕ) (i j : Fin n) :
    (M t i j).Holds (descents M p (t + 1) j).ncard (descents M p t i).ncard := by
  refine ⟨fun h => ?_, fun h => ?_⟩
  · exact Set.ncard_lt_ncard (descents_ssubset hp hperiod hround h) (Set.toFinite _)
  · have hknown : M t i j ≠ .unknown := by simp [h]
    exact Set.ncard_le_ncard (descents_subset hknown) (Set.toFinite _)

theorem prod_eq_window {α : Type*} {f : α → RelationMatrix n} {xs : List α} {t : ℕ}
    (h : ∀ (i : ℕ) (hi : i < xs.length), M (t + i) = f xs[i]) :
    (xs.map f).prod = window M t xs.length := by
  induction xs generalizing t with
  | nil => rfl
  | cons x xs ih =>
    have hhead : M t = f x := h 0 (by simp)
    have htail : ∀ (i : ℕ) (hi : i < xs.length), M (t + 1 + i) = f xs[i] := by
      intro i hi
      rw [Nat.add_assoc, Nat.add_comm 1 i]
      exact h (i + 1) (Nat.succ_lt_succ hi)
    rw [List.map_cons, List.prod_cons, ih htail, List.length_cons, window, hhead]

end RelationMatrix

namespace CallMatrix

/-- The cells of a matrix as a part of a square one, in which the rest is unknown. -/
def padded (n : ℕ) (a : CallMatrix) : RelationMatrix n := fun i j => a.get i j

theorem padded_combine {a b c : CallMatrix} {n : ℕ} (h : a.combine b = .ok c)
    (hcols : a.cols ≤ n) : c.padded n = a.padded n * b.padded n := by
  ext i k
  rw [Matrix.mul_apply]
  change c.get i k = ∑ j : Fin n, a.get i j * b.get j k
  rw [Fin.sum_univ_eq_sum_range (fun j => a.get i j * b.get j k), get_combine h]
  refine Finset.sum_subset (Finset.range_subset_range.mpr hcols) fun j _ hj => ?_
  rw [get_of_cols_le (by simpa using hj)]
  exact SizeRelation.unknown_mul _

theorem padded_congr {a b : CallMatrix} (n : ℕ) (h : a.sameRelations b = true) :
    a.padded n = b.padded n := by
  ext i j
  exact ((sameRelations_iff a b).mp h).2.2.2.2 i j

end CallMatrix

/-- The calls of a sequence one by one; their product is the sequence. -/
theorem CallSequence.exists_path {g : CallGraph} {a : CallMatrix} (h : CallSequence g a) :
    ∃ (path : List CallMatrix) (hne : path ≠ []), (∀ b ∈ path, b ∈ g.matrices) ∧
      path.IsChain CallMatrix.LeadsTo ∧
      ((path.head hne).caller = a.caller ∧ (path.head hne).rows = a.rows) ∧
      ((path.getLast hne).callee = a.callee ∧ (path.getLast hne).cols = a.cols) ∧
      ∀ n, (∀ b ∈ g.matrices, b.cols ≤ n) → (path.map (CallMatrix.padded n)).prod = a.padded n := by
  induction h with
  | @single a ha =>
    exact ⟨[a], by simp, by simpa using ha, by simp, ⟨rfl, rfl⟩, ⟨rfl, rfl⟩, by simp⟩
  | @snoc prior b longer hprior hb hlink ih =>
    obtain ⟨path, hne, hmem, hchain, hhead, hlast, hprod⟩ := ih
    obtain ⟨hcallee, hcols, -, ecaller, ecallee, erows, ecols⟩ := CallMatrix.ends_of_combine hlink
    refine ⟨path ++ [b], by simp, ?_, ?_, ?_, ?_, ?_⟩
    · intro c hc
      rcases List.mem_append.mp hc with hc | hc
      · exact hmem c hc
      · rwa [List.mem_singleton.mp hc]
    · refine List.isChain_append.mpr ⟨hchain, by simp, fun c hc d hd => ?_⟩
      obtain rfl : b = d := by simpa using hd
      obtain rfl : path.getLast hne = c := by simpa [List.getLast?_eq_getLast_of_ne_nil hne] using hc
      exact ⟨hlast.1.trans hcallee, hlast.2.trans hcols⟩
    · rw [List.head_append_of_ne_nil hne]
      exact ⟨hhead.1.trans ecaller.symm, hhead.2.trans erows.symm⟩
    · rw [List.getLast_concat]
      exact ⟨ecallee.symm, ecols.symm⟩
    · intro n hn
      obtain ⟨_, _, last, hlast, -, -, -, ecols'⟩ := hprior.ends
      have hle : prior.cols ≤ n := ecols' ▸ hn last hlast
      rw [List.map_append, List.prod_append, hprod n hn, List.map_singleton, List.prod_singleton,
        CallMatrix.padded_combine hlink hle]

/-- Calls of a graph that follow one another in a circle. -/
structure CallCycle (g : CallGraph) where
  path : List CallMatrix
  ne_nil : path ≠ []
  recorded : ∀ a ∈ path, a ∈ g.matrices
  chained : path.IsChain CallMatrix.LeadsTo
  closed : (path.getLast ne_nil).LeadsTo (path.head ne_nil)

namespace CallCycle

variable {g : CallGraph} (cycle : CallCycle g)

def period : ℕ := cycle.path.length

theorem period_pos : 0 < cycle.period := List.length_pos_iff.mpr cycle.ne_nil

/-- The call at time `t` when the cycle is repeated for ever. -/
def call (t : ℕ) : CallMatrix := cycle.path.get ⟨t % cycle.period, Nat.mod_lt t cycle.period_pos⟩

theorem call_recorded (t : ℕ) : cycle.call t ∈ g.matrices :=
  cycle.recorded _ (List.get_mem ..)

theorem call_periodic (t : ℕ) : cycle.call (t + cycle.period) = cycle.call t := by
  simp [call]

theorem call_leadsTo (t : ℕ) : (cycle.call t).LeadsTo (cycle.call (t + 1)) := by
  have hpos := cycle.period_pos
  have hlt : t % cycle.period < cycle.period := Nat.mod_lt t hpos
  have hnext : (t + 1) % cycle.period = (t % cycle.period + 1) % cycle.period :=
    (Nat.mod_add_mod t cycle.period 1).symm
  by_cases hwrap : t % cycle.period + 1 < cycle.period
  · rw [Nat.mod_eq_of_lt hwrap] at hnext
    simp only [call, List.get_eq_getElem, hnext]
    exact List.isChain_iff_getElem.mp cycle.chained _ hwrap
  · have hlast : t % cycle.period = cycle.period - 1 := by omega
    have hzero : (t + 1) % cycle.period = 0 := by
      rw [hnext, hlast, Nat.sub_add_cancel hpos, Nat.mod_self]
    have hclosed := cycle.closed
    rw [List.getLast_eq_getElem, ← List.getElem_zero hpos] at hclosed
    simp only [call, List.get_eq_getElem, hlast, hzero]
    exact hclosed

/-- The cells of all calls of a cycle, in square matrices of one width. -/
def matrixAt (n t : ℕ) : RelationMatrix n := (cycle.call t).padded n

theorem matrixAt_periodic (n t : ℕ) :
    cycle.matrixAt n (t + cycle.period) = cycle.matrixAt n t := by
  rw [matrixAt, call_periodic, matrixAt]

theorem window_period (n : ℕ) :
    RelationMatrix.window (cycle.matrixAt n) 0 cycle.period =
      (cycle.path.map (CallMatrix.padded n)).prod := by
  refine (RelationMatrix.prod_eq_window fun i hi => ?_).symm
  rw [Nat.zero_add, matrixAt, call]
  simp [period, Nat.mod_eq_of_lt hi]

/-- A cycle that decreases nothing in any number of rounds has an endless run. -/
theorem nonempty_run {n : ℕ} (hroom : g.Roomy) (hrows : ∀ a ∈ g.matrices, a.rows ≤ n)
    (hround : ∀ q i, RelationMatrix.window (cycle.matrixAt n) 0 (cycle.period * q) i i ≠ .lessThan) :
    Nonempty (EndlessRun g) := by
  have hrow : ∀ t, (cycle.call t).rows ≤ n := fun t => hrows _ (cycle.call_recorded t)
  refine ⟨{
    call := cycle.call
    size := fun t i =>
      (RelationMatrix.descents (cycle.matrixAt n) cycle.period t (i.castLE (hrow t))).ncard
    recorded := cycle.call_recorded
    follows := fun t => CallMatrix.exists_combine (cycle.call_leadsTo t)
      (hroom _ _ (.single (cycle.call_recorded t)) (cycle.call_recorded (t + 1)))
    related := fun t i j => ?_ }⟩
  exact RelationMatrix.holds_ncard_descents cycle.period_pos (cycle.matrixAt_periodic n) hround t
    (i.castLE (hrow t)) (j.castLE (hrow (t + 1)))

end CallCycle

namespace CallGraph

/-- Bad recursion is real: some endless run obeys every relation of every call. -/
theorem nonempty_endlessRun (g : CallGraph) {loops : List CallMatrix}
    (h : g.badRecursion = some loops) (hne : loops ≠ []) : Nonempty (EndlessRun g) := by
  obtain ⟨a, hseq, hself, hidem, hdiag⟩ := (exists_badRecursion_iff h).mp hne
  have hroom : g.Roomy := roomy_of_badRecursion h
  obtain ⟨d, hd, hda⟩ := (CallMatrix.isIdempotent_iff a).mp hidem
  have hsquare := (CallMatrix.ends_of_combine hd).2.1
  obtain ⟨path, hne, hmem, hchain, hhead, hlast, hprod⟩ := hseq.exists_path
  have hclosed : (path.getLast hne).LeadsTo (path.head hne) := by
    constructor
    · rw [hlast.1, hhead.1, hself]
    · rw [hlast.2, hhead.2, hsquare]
  let cycle : CallCycle g := ⟨path, hne, hmem, hchain, hclosed⟩
  -- wide enough for every call
  let n := (g.matrices.map CallMatrix.rows).sum + (g.matrices.map CallMatrix.cols).sum
  have hrows : ∀ b ∈ g.matrices, b.rows ≤ n := fun b hb => (rows_le_sum hb).trans (by omega)
  have hcols : ∀ b ∈ g.matrices, b.cols ≤ n := fun b hb => (cols_le_sum hb).trans (by omega)
  have hcols_a : a.cols ≤ n := by
    obtain ⟨_, _, last, hlast, -, -, -, ecols⟩ := hseq.ends
    exact ecols ▸ hcols last hlast
  have hidempotent : IsIdempotentElem (a.padded n) := by
    rw [IsIdempotentElem, ← CallMatrix.padded_combine hd hcols_a, CallMatrix.padded_congr n hda]
  refine cycle.nonempty_run hroom hrows fun q i hlt => ?_
  rw [RelationMatrix.window_mul_period (cycle.matrixAt_periodic n), cycle.window_period,
    hprod n hcols] at hlt
  cases q with
  | zero => simp at hlt
  | succ q =>
    rw [hidempotent.pow_succ_eq] at hlt
    have hdecreasing := (CallMatrix.hasDecreasingDiagonal_iff a).mpr ⟨i, hlt⟩
    rw [hdiag] at hdecreasing
    cases hdecreasing

/-- Two definitions that call each other. The second parameter is smaller than the first, but it
is the second one that is handed on, so the decrease happens once. -/
def handedOn : CallGraph :=
  (CallGraph.empty.insert
    (.filled (.sort 0) ⟨1⟩ ⟨2⟩ 2 2 [[.unknown, .lessThan], [.unknown, .equal]]
      CallMatrix.two_mul_two_lt)).insert
    (.filled (.sort 0) ⟨2⟩ ⟨1⟩ 2 2 [[.equal, .unknown], [.unknown, .equal]]
      CallMatrix.two_mul_two_lt)

theorem nonempty_endlessRun_handedOn :
    ∃ loops, handedOn.badRecursion = some loops ∧ loops ≠ [] ∧ handedOn.matrices.length = 2 ∧
      Nonempty (EndlessRun handedOn) := by
  have hbad : handedOn.badRecursion.any (fun loops => !loops.isEmpty) = true := by decide +kernel
  obtain ⟨loops, hloops, hne⟩ : ∃ loops, handedOn.badRecursion = some loops ∧ loops ≠ [] := by
    simpa [Option.any_eq_true] using hbad
  exact ⟨loops, hloops, hne, by decide +kernel, nonempty_endlessRun handedOn hloops hne⟩

end CallGraph

end ProofCore
