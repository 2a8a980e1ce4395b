import ProofCore.Proofs.ClosureExact

/-!
# The size-change principle

If the closure of a call graph has no endless loop, then no infinite sequence of its calls can go
along with sizes that obey every relation of every call. The segments of an infinite sequence fall
into finitely many classes, so by Ramsey's argument it can be cut into segments that all have the
relations of one idempotent matrix; the parameter that decreases in it decreases for ever.
-/
namespace ProofCore

/-- Pairs of numbers in finitely many colours: an infinite set of numbers has pairs of one colour
only. -/
theorem exists_homogeneous {κ : Type*} [Finite κ] (color : ℕ → ℕ → κ) :
    ∃ (k : κ) (f : ℕ → ℕ), ∀ m n, m < n → f m < f n ∧ color (f m) (f n) = k := by
  have hconst : ∀ c : ℕ → κ, ∃ k, ∀ᶠ n in Filter.hyperfilter ℕ, c n = k := by
    intro c
    obtain ⟨k, -, hk⟩ := Ultrafilter.eq_pure_of_finite_mem (f := (Filter.hyperfilter ℕ).map c)
      Set.finite_univ Filter.univ_mem
    refine ⟨k, ?_⟩
    have hmem : {k} ∈ (Filter.hyperfilter ℕ).map c := by
      rw [hk]
      exact rfl
    exact hmem
  choose limit hlimit using fun m => hconst (color m)
  obtain ⟨k, hk⟩ := hconst limit
  have hstep : ∀ s : Finset ℕ, (∀ m ∈ s, limit m = k) →
      ∃ n, limit n = k ∧ ∀ m ∈ s, m < n ∧ color m n = k := by
    intro s hs
    have hlater : ∀ᶠ n in Filter.hyperfilter ℕ, ∀ m ∈ s, m < n ∧ color m n = k := by
      rw [Filter.eventually_all_finset]
      intro m hm
      have hgt : ∀ᶠ n in Filter.hyperfilter ℕ, m < n :=
        (Filter.eventually_gt_atTop m).filter_mono Nat.hyperfilter_le_atTop
      filter_upwards [hgt, hlimit m] with n hn hc
      exact ⟨hn, hc.trans (hs m hm)⟩
    exact (hk.and hlater).exists
  obtain ⟨f, -, hf⟩ := exists_seq_of_forall_finset_exists (fun m => limit m = k)
    (fun m n => m < n ∧ color m n = k) hstep
  exact ⟨k, f, hf⟩

namespace SizeRelation

/-- What a relation says about the sizes of an argument and of a parameter. -/
def Holds (r : SizeRelation) (argument parameter : ℕ) : Prop :=
  (r = .lessThan → argument < parameter) ∧ (r = .equal → argument ≤ parameter)

theorem holds_unknown (argument parameter : ℕ) : Holds .unknown argument parameter := by
  simp [Holds]

theorem Holds.mul {r s : SizeRelation} {x y z : ℕ} (hr : r.Holds y x) (hs : s.Holds z y) :
    (r * s).Holds z x := by
  cases r with
  | unknown => exact holds_unknown z x
  | equal =>
    have hyx : y ≤ x := hr.2 rfl
    cases s with
    | unknown => exact holds_unknown z x
    | equal => exact ⟨nofun, fun _ => (hs.2 rfl).trans hyx⟩
    | lessThan => exact ⟨fun _ => (hs.1 rfl).trans_le hyx, nofun⟩
  | lessThan =>
    have hyx : y < x := hr.1 rfl
    cases s with
    | unknown => exact holds_unknown z x
    | equal => exact ⟨fun _ => (hs.2 rfl).trans_lt hyx, nofun⟩
    | lessThan => exact ⟨fun _ => (hs.1 rfl).trans hyx, nofun⟩

theorem Holds.add {r s : SizeRelation} {x y : ℕ} (hr : r.Holds y x) (hs : s.Holds y x) :
    (r + s).Holds y x := by
  have hor : r + s = r ∨ r + s = s := by cases r <;> cases s <;> decide
  rcases hor with h | h
  · rwa [h]
  · rwa [h]

end SizeRelation

namespace CallMatrix

/-- Whether sizes before and after a call obey all its relations. -/
def Relates (a : CallMatrix) (before after : ℕ → ℕ) : Prop :=
  ∀ i j, (a.get i j).Holds (after j) (before i)

theorem Relates.combine {a b c : CallMatrix} {x y z : ℕ → ℕ} (h : a.combine b = .ok c)
    (ha : a.Relates x y) (hb : b.Relates y z) : c.Relates x z := by
  intro i k
  rw [get_combine h]
  refine Finset.sum_induction _ (fun r : SizeRelation => r.Holds (z k) (x i))
    (fun _ _ => SizeRelation.Holds.add) (SizeRelation.holds_unknown (z k) (x i)) fun j _ => ?_
  exact (ha i j).mul (hb j k)

end CallMatrix

/-- An infinite sequence of calls of `g`, each starting where the one before ends, with sizes of
the parameters at each call that obey its relations. -/
structure EndlessRun (g : CallGraph) where
  call : ℕ → CallMatrix
  size : (t : ℕ) → Fin (call t).rows → ℕ
  recorded : ∀ t, call t ∈ g.matrices
  follows : ∀ t, ∃ c, (call t).combine (call (t + 1)) = .ok c
  related : ∀ t (i : Fin (call t).rows) (j : Fin (call (t + 1)).rows),
    ((call t).get i j).Holds (size (t + 1) j) (size t i)

namespace EndlessRun

variable {g : CallGraph} (r : EndlessRun g)

theorem leadsTo (t : ℕ) : (r.call t).LeadsTo (r.call (t + 1)) := by
  obtain ⟨c, hc⟩ := r.follows t
  exact (CallMatrix.combine_eq_ok_iff.mp hc).1

/-- The sizes at a call, zero for places that are no parameters. -/
def sizeAt (t i : ℕ) : ℕ := if h : i < (r.call t).rows then r.size t ⟨i, h⟩ else 0

theorem relates_call (t : ℕ) : (r.call t).Relates (r.sizeAt t) (r.sizeAt (t + 1)) := by
  intro i j
  have hcols := (r.leadsTo t).2
  by_cases hi : i < (r.call t).rows
  · by_cases hj : j < (r.call (t + 1)).rows
    · rw [sizeAt, sizeAt, dif_pos hi, dif_pos hj]
      exact r.related t ⟨i, hi⟩ ⟨j, hj⟩
    · rw [CallMatrix.get_of_cols_le (by omega)]
      exact SizeRelation.holds_unknown _ _
  · rw [CallMatrix.get_of_rows_le (by omega)]
    exact SizeRelation.holds_unknown _ _

/-- The matrix of the `n + 1` calls from `start` on. -/
def segment (start : ℕ) : ℕ → Except CallMatrix.Obstacle CallMatrix
  | 0 => .ok (r.call start)
  | n + 1 => segment start n >>= fun c => c.combine (r.call (start + n + 1))

theorem exists_segment (hroom : g.Roomy) (start n : ℕ) :
    ∃ c, r.segment start n = .ok c ∧ CallSequence g c ∧
      c.callee = (r.call (start + n)).callee ∧ c.cols = (r.call (start + n)).cols ∧
      c.Relates (r.sizeAt start) (r.sizeAt (start + n + 1)) := by
  induction n with
  | zero => exact ⟨_, rfl, .single (r.recorded start), rfl, rfl, r.relates_call start⟩
  | succ n ih =>
    obtain ⟨c, hc, hseq, hcallee, hcols, hrel⟩ := ih
    have hlink := r.leadsTo (start + n)
    obtain ⟨d, hd⟩ : ∃ d, c.combine (r.call (start + n + 1)) = .ok d :=
      CallMatrix.exists_combine ⟨hcallee.trans hlink.1, hcols.trans hlink.2⟩
        (hroom c _ hseq (r.recorded _))
    obtain ⟨-, -, -, -, ecallee, -, ecols⟩ := CallMatrix.ends_of_combine hd
    refine ⟨d, CallMatrix.bind_eq_ok_iff.mpr ⟨c, hc, hd⟩, .snoc hseq (r.recorded _) hd,
      ecallee, ecols, ?_⟩
    exact hrel.combine hd (r.relates_call (start + n + 1))

/-- Two segments in a row compose to the segment of all their calls. -/
theorem segment_append {start m n : ℕ} {p q c : CallMatrix} (hp : r.segment start m = .ok p)
    (hq : r.segment (start + m + 1) n = .ok q) (hc : r.segment start (m + n + 1) = .ok c) :
    p.combine q = .ok c := by
  induction n generalizing q c with
  | zero =>
    cases hq
    rw [Nat.add_zero, segment, hp] at hc
    exact hc
  | succ n ih =>
    obtain ⟨q', hq', hq⟩ := CallMatrix.bind_eq_ok_iff.mp hq
    obtain ⟨c', hc', hc⟩ := CallMatrix.bind_eq_ok_iff.mp hc
    have hfront : p.combine q' = .ok c' := ih hq' hc'
    rw [show start + (m + (n + 1)) + 1 = start + m + 1 + n + 1 by omega] at hc
    -- the last call is moved from the right of the whole to the right of the second segment
    exact (CallMatrix.combine_combine hfront hq).symm.trans hc

end EndlessRun

namespace CallGraph

/-- The relations of the segments between infinitely many chosen calls are those of one matrix of
the closure, which is its own repetition. -/
theorem exists_idempotent_segments {g : CallGraph} (hroom : g.Roomy) (r : EndlessRun g) :
    ∃ e, CallSequence g e ∧ e.caller = e.callee ∧ e.isIdempotent = true ∧
      ∃ f : ℕ → ℕ, ∀ t, e.Relates (r.sizeAt (f t)) (r.sizeAt (f (t + 1))) := by
  have hclass : ∀ start n, ∃ e : {e // e ∈ g.closure.matrices}, ∃ c,
      r.segment start n = .ok c ∧ c.Relates (r.sizeAt start) (r.sizeAt (start + n + 1)) ∧
        e.1.sameRelations c = true := by
    intro start n
    obtain ⟨c, hc, hseq, -, -, hrel⟩ := r.exists_segment hroom start n
    obtain ⟨e, he, hsame⟩ := exists_mem_closure hseq
    exact ⟨⟨e, he⟩, c, hc, hrel, hsame⟩
  choose relations hclass using hclass
  have hfinite : Finite {e // e ∈ g.closure.matrices} := List.finite_toSet g.closure.matrices
  obtain ⟨⟨e, he⟩, f, hf⟩ := exists_homogeneous fun m n => relations m (n - m - 1)
  have hsegment : ∀ m n, m < n → ∃ c, r.segment (f m) (f n - f m - 1) = .ok c ∧
      c.Relates (r.sizeAt (f m)) (r.sizeAt (f n)) ∧ e.sameRelations c = true := by
    intro m n hmn
    obtain ⟨c, hc, hrel, hsame⟩ := hclass (f m) (f n - f m - 1)
    have hlt := (hf m n hmn).1
    rw [show f m + (f n - f m - 1) + 1 = f n by omega] at hrel
    rw [(hf m n hmn).2] at hsame
    exact ⟨c, hc, hrel, hsame⟩
  have hidem : ∃ d, e.combine e = .ok d ∧ d.sameRelations e = true := by
    obtain ⟨p, hp, -, hep⟩ := hsegment 0 1 (by omega)
    obtain ⟨q, hq, -, heq⟩ := hsegment 1 2 (by omega)
    obtain ⟨c, hc, -, hec⟩ := hsegment 0 2 (by omega)
    have h01 := (hf 0 1 (by omega)).1
    have h12 := (hf 1 2 (by omega)).1
    rw [show f 1 = f 0 + (f 1 - f 0 - 1) + 1 by omega] at hq
    rw [show f 2 - f 0 - 1 = f 1 - f 0 - 1 + (f 2 - (f 0 + (f 1 - f 0 - 1) + 1) - 1) + 1 by omega]
      at hc
    obtain ⟨d, hd, hcd⟩ := CallMatrix.combine_congr (CallMatrix.sameRelations_symm hep)
      (CallMatrix.sameRelations_symm heq) (r.segment_append hp hq hc)
    exact ⟨d, hd, CallMatrix.sameRelations_symm (CallMatrix.sameRelations_trans hec hcd)⟩
  obtain ⟨d, hd, hde⟩ := hidem
  refine ⟨e, sequence_of_mem_closure he, (CallMatrix.ends_of_combine hd).1.symm,
    (CallMatrix.isIdempotent_iff e).mpr ⟨d, hd, hde⟩, f, fun t i j => ?_⟩
  obtain ⟨c, -, hrel, hsame⟩ := hsegment t (t + 1) (by omega)
  rw [((CallMatrix.sameRelations_iff e c).mp hsame).2.2.2.2]
  exact hrel i j

/-- Without bad recursion there is no endless run. -/
theorem isEmpty_endlessRun (g : CallGraph) (h : g.badRecursion = some []) :
    IsEmpty (EndlessRun g) := by
  constructor
  intro r
  obtain ⟨hroom, hnone⟩ := badRecursion_eq_nil_iff.mp h
  obtain ⟨e, hseq, hself, hidem, f, hrel⟩ := exists_idempotent_segments hroom r
  have hdiag : e.hasDecreasingDiagonal = true := by
    by_contra hdiag
    exact hnone e ⟨hseq, hself, hidem, by simpa using hdiag⟩
  obtain ⟨i, hi⟩ := (CallMatrix.hasDecreasingDiagonal_iff e).mp hdiag
  have hdescent : StrictAnti fun t => r.sizeAt (f t) i :=
    strictAnti_nat_of_succ_lt fun t => (hrel t i i).1 hi
  exact not_strictAnti_of_wellFoundedLT _ hdescent

/-- Two parameters that change places, the second one decreasing on the way: only every second
call leaves a decrease in place. -/
def swapDescent : CallGraph :=
  CallGraph.empty.insert
    (.filled (.sort 0) ⟨1⟩ ⟨1⟩ 2 2 [[.unknown, .lessThan], [.equal, .unknown]]
      CallMatrix.two_mul_two_lt)

theorem badRecursion_swapDescent : swapDescent.badRecursion = some [] := by
  have hnil : swapDescent.badRecursion.any List.isEmpty = true := by decide +kernel
  cases h : swapDescent.badRecursion with
  | none => simp [h] at hnil
  | some loops => simpa [h] using hnil

theorem isEmpty_endlessRun_swapDescent :
    swapDescent.badRecursion = some [] ∧ swapDescent.matrices.length = 1 ∧
      IsEmpty (EndlessRun swapDescent) :=
  ⟨badRecursion_swapDescent, by decide +kernel,
    isEmpty_endlessRun swapDescent badRecursion_swapDescent⟩

end CallGraph

end ProofCore
