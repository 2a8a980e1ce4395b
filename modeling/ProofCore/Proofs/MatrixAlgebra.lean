import Mathlib
import ProofCore.SizeChange.CallMatrix

/-!
# Composition of calls as matrix multiplication

Size relations are a commutative semiring, so a composed cell is an ordinary sum of products. Summing
rows is linear in the weights, and composition is associative down to the lists that store a matrix,
as long as there is room for the matrices on the way.
Having the same relations is an equivalence that composition respects; the lists that store two
such matrices may differ.
-/
namespace ProofCore

namespace SizeRelation

instance : Zero SizeRelation := ⟨.unknown⟩
instance : One SizeRelation := ⟨.equal⟩

instance : CommSemiring SizeRelation where
  add_assoc := add_assoc
  zero_add := unknown_add
  add_zero := add_unknown
  add_comm r s := by cases r <;> cases s <;> rfl
  mul_assoc r s t := by cases r <;> cases s <;> cases t <;> rfl
  mul_comm r s := by cases r <;> cases s <;> rfl
  one_mul r := by cases r <;> rfl
  mul_one r := by cases r <;> rfl
  zero_mul := unknown_mul
  mul_zero := mul_unknown
  left_distrib r s t := by cases r <;> cases s <;> cases t <;> rfl
  right_distrib r s t := by cases r <;> cases s <;> cases t <;> rfl
  nsmul := nsmulRec

theorem sum_eq_listSum (rs : List SizeRelation) : sum rs = rs.sum := by
  induction rs with
  | nil => rfl
  | cons r rs ih => rw [sum_cons, List.sum_cons, ih]

end SizeRelation

namespace RelationRow

/-- Rows that list as many cells and have the same cells are the same list. -/
theorem eq_of_cells {row row' : RelationRow} (hlength : row.length = row'.length)
    (hcells : ∀ col, cell row col = cell row' col) : row = row' := by
  refine List.ext_getElem hlength fun col hcol hcol' => ?_
  simpa [cell, hcol, hcol'] using hcells col

theorem addScaled_addScaled (r s : SizeRelation) (row total total' : RelationRow) :
    addScaled r (addScaled s row total) total' =
      addScaled (r * s) row (addScaled r total total') := by
  apply eq_of_cells
  · simp only [length_addScaled, max_assoc]
  · intro col
    simp only [cell_addScaled]
    ring

theorem addScaled_mul_add (r s t : SizeRelation) (row total total' : RelationRow) :
    addScaled (r * s + t) row (addScaled r total total') =
      addScaled r (addScaled s row total) (addScaled t row total') := by
  apply eq_of_cells
  · simp only [length_addScaled]
    omega
  · intro col
    simp only [cell_addScaled]
    ring

/-- Summing rows is linear in the weights. -/
theorem weightedSum_addScaled (r : SizeRelation) (weights weights' : RelationRow)
    (rows : List RelationRow) :
    weightedSum (addScaled r weights weights') rows =
      addScaled r (weightedSum weights rows) (weightedSum weights' rows) := by
  fun_induction addScaled r weights weights' generalizing rows with
  | case1 weights' => simp [weightedSum, addScaled]
  | case2 s weights ih =>
    cases rows with
    | nil => simp [weightedSum, addScaled]
    | cons row rows => simp only [weightedSum, ih, addScaled_addScaled]
  | case3 s weights t weights' ih =>
    cases rows with
    | nil => simp [weightedSum, addScaled]
    | cons row rows => simp only [weightedSum, ih, addScaled_mul_add]

/-- The induction is on the rows that are summed first: linearity takes one of them out at a time. -/
theorem weightedSum_weightedSum (weights : RelationRow) (rows rows' : List RelationRow) :
    weightedSum (weightedSum weights rows) rows' =
      weightedSum weights (rows.map fun row => weightedSum row rows') := by
  fun_induction weightedSum weights rows with
  | case1 r weights row rows ih =>
    simp only [weightedSum_addScaled, ih, List.map_cons, weightedSum]
  | case2 weights rows hempty =>
    cases weights with
    | nil => simp [weightedSum]
    | cons r weights =>
      cases rows with
      | nil => simp [weightedSum]
      | cons row rows => exact (hempty r weights row rows rfl rfl).elim

end RelationRow

namespace CallMatrix

theorem combine_eq_ok_iff {a b c : CallMatrix} :
    a.combine b = .ok c ↔ a.LeadsTo b ∧ ∃ fits, a.product b fits = c := by
  by_cases hlink : a.LeadsTo b
  · by_cases fits : a.rows * b.cols < cellLimit <;> simp [combine, hlink, fits]
  · simp [combine, hlink]

theorem combine_eq_noRoom_iff {a b : CallMatrix} :
    a.combine b = .error .noRoom ↔ a.LeadsTo b ∧ cellLimit ≤ a.rows * b.cols := by
  by_cases hlink : a.LeadsTo b
  · by_cases fits : a.rows * b.cols < cellLimit
    · simp [combine, hlink, fits]
    · simp [combine, hlink, fits, Nat.le_of_not_lt fits]
  · simp [combine, hlink]

theorem combine_eq_apart_iff {a b : CallMatrix} :
    a.combine b = .error .apart ↔ ¬ a.LeadsTo b := by
  by_cases hlink : a.LeadsTo b
  · by_cases fits : a.rows * b.cols < cellLimit <;> simp [combine, hlink, fits]
  · simp [combine, hlink]

theorem toOption_combine_eq_some_iff {a b c : CallMatrix} :
    (a.combine b).toOption = some c ↔ a.combine b = .ok c := by
  cases a.combine b <;> simp [Except.toOption]

theorem ends_of_combine {a b c : CallMatrix} (h : a.combine b = .ok c) :
    a.callee = b.caller ∧ a.cols = b.rows ∧ c.call = a.call ∧ c.caller = a.caller ∧
      c.callee = b.callee ∧ c.rows = a.rows ∧ c.cols = b.cols := by
  obtain ⟨⟨hlink, hdim⟩, _, rfl⟩ := combine_eq_ok_iff.mp h
  exact ⟨hlink, hdim, rfl, rfl, rfl, rfl, rfl⟩

theorem exists_combine {a b : CallMatrix} (hlink : a.LeadsTo b)
    (hroom : a.combine b ≠ .error .noRoom) : ∃ c, a.combine b = .ok c := by
  have hfits : a.rows * b.cols < cellLimit := by
    by_contra hlarge
    exact hroom (combine_eq_noRoom_iff.mpr ⟨hlink, Nat.le_of_not_lt hlarge⟩)
  exact ⟨a.product b hfits, combine_eq_ok_iff.mpr ⟨hlink, hfits, rfl⟩⟩

theorem get_combine {a b c : CallMatrix} (h : a.combine b = .ok c) (i k : ℕ) :
    c.get i k = ∑ j ∈ Finset.range a.cols, a.get i j * b.get j k := by
  obtain ⟨-, _, rfl⟩ := combine_eq_ok_iff.mp h
  rw [get_product, SizeRelation.sum_eq_listSum]
  induction a.cols with
  | zero => rfl
  | succ n ih => rw [List.range_succ, List.map_append, List.sum_append, ih, Finset.sum_range_succ,
      List.map_singleton, List.sum_singleton]

theorem sameRelations_refl (a : CallMatrix) : a.sameRelations a = true := by
  rw [sameRelations_iff]
  exact ⟨rfl, rfl, rfl, rfl, fun _ _ => rfl⟩

theorem sameRelations_symm {a b : CallMatrix} (h : a.sameRelations b = true) :
    b.sameRelations a = true := by
  rw [sameRelations_iff] at h ⊢
  obtain ⟨hcaller, hcallee, hrows, hcols, hget⟩ := h
  exact ⟨hcaller.symm, hcallee.symm, hrows.symm, hcols.symm, fun i j => (hget i j).symm⟩

theorem sameRelations_trans {a b c : CallMatrix} (hab : a.sameRelations b = true)
    (hbc : b.sameRelations c = true) : a.sameRelations c = true := by
  rw [sameRelations_iff] at hab hbc ⊢
  obtain ⟨hcaller, hcallee, hrows, hcols, hget⟩ := hab
  obtain ⟨hcaller', hcallee', hrows', hcols', hget'⟩ := hbc
  exact ⟨hcaller.trans hcaller', hcallee.trans hcallee', hrows.trans hrows', hcols.trans hcols',
    fun i j => (hget i j).trans (hget' i j)⟩

/-- Composition depends on the relations of its parts only. -/
theorem combine_congr {a a' b b' c : CallMatrix} (ha : a.sameRelations a' = true)
    (hb : b.sameRelations b' = true) (h : a.combine b = .ok c) :
    ∃ c', a'.combine b' = .ok c' ∧ c.sameRelations c' = true := by
  rw [sameRelations_iff] at ha hb
  obtain ⟨hcaller, hcallee, hrows, hcols, hget⟩ := ha
  obtain ⟨hcaller', hcallee', hrows', hcols', hget'⟩ := hb
  obtain ⟨⟨hlink, hdim⟩, fits, rfl⟩ := combine_eq_ok_iff.mp h
  have fits' : a'.rows * b'.cols < cellLimit := hrows ▸ hcols' ▸ fits
  have h' : a'.combine b' = .ok (a'.product b' fits') :=
    combine_eq_ok_iff.mpr ⟨⟨hcallee ▸ hcaller' ▸ hlink, hcols ▸ hrows' ▸ hdim⟩, fits', rfl⟩
  refine ⟨_, h', (sameRelations_iff ..).mpr ⟨hcaller, hcallee', hrows, hcols', fun i k => ?_⟩⟩
  rw [get_combine h, get_combine h', hcols]
  exact Finset.sum_congr rfl fun j _ => by rw [hget, hget']

theorem combine_eq_noRoom_congr {a a' b b' : CallMatrix} (ha : a.sameRelations a' = true)
    (hb : b.sameRelations b' = true) (h : a.combine b = .error .noRoom) :
    a'.combine b' = .error .noRoom := by
  obtain ⟨-, hcallee, hrows, hcols, -⟩ := (sameRelations_iff a a').mp ha
  obtain ⟨hcaller', -, hrows', hcols', -⟩ := (sameRelations_iff b b').mp hb
  rw [combine_eq_noRoom_iff, LeadsTo] at h ⊢
  rwa [← hcallee, ← hrows, ← hcols, ← hcaller', ← hrows', ← hcols']

theorem product_product {a b c : CallMatrix} (hab : a.rows * b.cols < cellLimit)
    (hbc : b.rows * c.cols < cellLimit) (hac : a.rows * c.cols < cellLimit) :
    (a.product b hab).product c hac = a.product (b.product c hbc) hac := by
  simp [product, RelationRow.weightedSum_weightedSum, Function.comp_def]

/-- If both pairs of neighbours compose, it does not matter which of them is composed first. -/
theorem combine_combine {a b c ab bc : CallMatrix} (hab : a.combine b = .ok ab)
    (hbc : b.combine c = .ok bc) : ab.combine c = a.combine bc := by
  obtain ⟨hlink, fits, rfl⟩ := combine_eq_ok_iff.mp hab
  obtain ⟨hlink', fits', rfl⟩ := combine_eq_ok_iff.mp hbc
  by_cases hac : a.rows * c.cols < cellLimit
  · have hleft : (a.product b fits).combine c = .ok ((a.product b fits).product c hac) :=
      combine_eq_ok_iff.mpr ⟨hlink', hac, rfl⟩
    have hright : a.combine (b.product c fits') = .ok (a.product (b.product c fits') hac) :=
      combine_eq_ok_iff.mpr ⟨hlink, hac, rfl⟩
    rw [hleft, hright, product_product fits fits' hac]
  · have hleft : (a.product b fits).combine c = .error .noRoom :=
      combine_eq_noRoom_iff.mpr ⟨hlink', Nat.le_of_not_lt hac⟩
    have hright : a.combine (b.product c fits') = .error .noRoom :=
      combine_eq_noRoom_iff.mpr ⟨hlink, Nat.le_of_not_lt hac⟩
    rw [hleft, hright]

theorem bind_eq_noRoom_iff {x : Except Obstacle CallMatrix}
    {f : CallMatrix → Except Obstacle CallMatrix} :
    x >>= f = .error .noRoom ↔
      x = .error .noRoom ∨ ∃ a, x = .ok a ∧ f a = .error .noRoom := by
  cases x with
  | error e => simp [bind, Except.bind]
  | ok a => simp [bind, Except.bind]

theorem bind_eq_ok_iff {x : Except Obstacle CallMatrix}
    {f : CallMatrix → Except Obstacle CallMatrix} {c : CallMatrix} :
    x >>= f = .ok c ↔ ∃ a, x = .ok a ∧ f a = .ok c := by
  cases x with
  | error e => simp [bind, Except.bind]
  | ok a => simp [bind, Except.bind]

/-- A composition and what follows it find no room if there is none for the composition, or if what
follows finds none. -/
theorem combine_bind_eq_noRoom_iff {a b : CallMatrix} {f : CallMatrix → Except Obstacle CallMatrix}
    {P : Prop} (hf : ∀ fits, f (a.product b fits) = .error .noRoom ↔ P) :
    a.combine b >>= f = .error .noRoom ↔ a.LeadsTo b ∧ (cellLimit ≤ a.rows * b.cols ∨ P) := by
  rw [bind_eq_noRoom_iff, combine_eq_noRoom_iff]
  constructor
  · rintro (⟨hlink, hlarge⟩ | ⟨ab, hab, hfull⟩)
    · exact ⟨hlink, .inl hlarge⟩
    · obtain ⟨hlink, fits, rfl⟩ := combine_eq_ok_iff.mp hab
      exact ⟨hlink, .inr ((hf fits).mp hfull)⟩
  · rintro ⟨hlink, hlarge⟩
    by_cases fits : a.rows * b.cols < cellLimit
    · refine .inr ⟨a.product b fits, combine_eq_ok_iff.mpr ⟨hlink, fits, rfl⟩, (hf fits).mpr ?_⟩
      exact hlarge.resolve_left (Nat.not_le_of_lt fits)
    · exact .inl ⟨hlink, Nat.le_of_not_lt fits⟩

theorem leftFirst_eq_noRoom_iff (a b c : CallMatrix) :
    (a.combine b >>= fun ab => ab.combine c) = .error .noRoom ↔ a.LeadsTo b ∧
      (cellLimit ≤ a.rows * b.cols ∨ b.LeadsTo c ∧ cellLimit ≤ a.rows * c.cols) :=
  combine_bind_eq_noRoom_iff fun _ => combine_eq_noRoom_iff

theorem rightFirst_eq_noRoom_iff (a b c : CallMatrix) :
    (b.combine c >>= fun bc => a.combine bc) = .error .noRoom ↔ b.LeadsTo c ∧
      (cellLimit ≤ b.rows * c.cols ∨ a.LeadsTo b ∧ cellLimit ≤ a.rows * c.cols) :=
  combine_bind_eq_noRoom_iff fun _ => combine_eq_noRoom_iff

theorem leftFirst_eq_rightFirst {a b c : CallMatrix}
    (hleft : (a.combine b >>= fun ab => ab.combine c) ≠ .error .noRoom)
    (hright : (b.combine c >>= fun bc => a.combine bc) ≠ .error .noRoom) :
    (a.combine b >>= fun ab => ab.combine c) = b.combine c >>= fun bc => a.combine bc := by
  cases hab : a.combine b with
  | error obstacle =>
    cases obstacle with
    | noRoom => exact (hleft (by rw [hab]; rfl)).elim
    | apart =>
      cases hbc : b.combine c with
      | error obstacle =>
        cases obstacle with
        | noRoom => exact (hright (by rw [hbc]; rfl)).elim
        | apart => rfl
      | ok bc =>
        obtain ⟨-, fits, rfl⟩ := combine_eq_ok_iff.mp hbc
        have hapart : ¬ a.LeadsTo b := combine_eq_apart_iff.mp hab
        have hright : a.combine (b.product c fits) = .error .apart :=
          combine_eq_apart_iff.mpr hapart
        exact hright.symm
  | ok ab =>
    cases hbc : b.combine c with
    | error obstacle =>
      cases obstacle with
      | noRoom => exact (hright (by rw [hbc]; rfl)).elim
      | apart =>
        obtain ⟨-, fits, rfl⟩ := combine_eq_ok_iff.mp hab
        have hapart : ¬ b.LeadsTo c := combine_eq_apart_iff.mp hbc
        have hleft : (a.product b fits).combine c = .error .apart :=
          combine_eq_apart_iff.mpr hapart
        exact hleft
    | ok bc => exact combine_combine hab hbc

/-- A matrix of three calls in a row: it is made for the first of them, and a cell is the best of
all ways through the parameters in between. -/
structure IsTriple (a b c abc : CallMatrix) : Prop where
  leadsTo : a.LeadsTo b ∧ b.LeadsTo c
  ends : abc.call = a.call ∧ abc.caller = a.caller ∧ abc.callee = c.callee
  dimensions : abc.rows = a.rows ∧ abc.cols = c.cols
  cells : ∀ i l, abc.get i l = ∑ j ∈ Finset.range a.cols, ∑ k ∈ Finset.range b.cols,
    a.get i j * b.get j k * c.get k l

theorem isTriple_of_leftFirst {a b c abc : CallMatrix}
    (h : (a.combine b >>= fun ab => ab.combine c) = .ok abc) : IsTriple a b c abc := by
  obtain ⟨ab, hab, habc⟩ := bind_eq_ok_iff.mp h
  have hcells (i l : ℕ) : abc.get i l =
      ∑ j ∈ Finset.range a.cols, ∑ k ∈ Finset.range b.cols, a.get i j * b.get j k * c.get k l := by
    rw [Finset.sum_comm, get_combine habc, (ends_of_combine hab).2.2.2.2.2.2]
    exact Finset.sum_congr rfl fun k _ => by rw [get_combine hab, Finset.sum_mul]
  obtain ⟨hlink, _, rfl⟩ := combine_eq_ok_iff.mp hab
  obtain ⟨hlink', _, rfl⟩ := combine_eq_ok_iff.mp habc
  exact ⟨⟨hlink, hlink'⟩, ⟨rfl, rfl, rfl⟩, ⟨rfl, rfl⟩, hcells⟩

theorem isTriple_of_rightFirst {a b c abc : CallMatrix}
    (h : (b.combine c >>= fun bc => a.combine bc) = .ok abc) : IsTriple a b c abc := by
  obtain ⟨bc, hbc, habc⟩ := bind_eq_ok_iff.mp h
  have hcells (i l : ℕ) : abc.get i l =
      ∑ j ∈ Finset.range a.cols, ∑ k ∈ Finset.range b.cols, a.get i j * b.get j k * c.get k l := by
    rw [get_combine habc]
    refine Finset.sum_congr rfl fun j _ => ?_
    rw [get_combine hbc, Finset.mul_sum]
    exact Finset.sum_congr rfl fun k _ => (mul_assoc ..).symm
  obtain ⟨hlink', _, rfl⟩ := combine_eq_ok_iff.mp hbc
  obtain ⟨hlink, _, rfl⟩ := combine_eq_ok_iff.mp habc
  exact ⟨⟨hlink, hlink'⟩, ⟨rfl, rfl, rfl⟩, ⟨rfl, rfl⟩, hcells⟩

/-- In which order three calls are composed matters only where there is no room for the matrix of
two of them: the last two may compose to a small matrix although the first two do not. -/
theorem exists_leftFirst_noRoom :
    ∃ a b c abc : CallMatrix, (a.combine b >>= fun ab => ab.combine c) = .error .noRoom ∧
      (b.combine c >>= fun bc => a.combine bc) = .ok abc := by
  let a := filled (.sort 0) ⟨1⟩ ⟨2⟩ (2 ^ 32) 0 [] (by decide)
  let b := filled (.sort 0) ⟨2⟩ ⟨3⟩ 0 (2 ^ 32) [] (by decide)
  let c := filled (.sort 0) ⟨3⟩ ⟨4⟩ (2 ^ 32) 0 [] (by decide)
  refine ⟨a, b, c, a.product (b.product c (by decide)) (by decide), ?_, rfl⟩
  exact (leftFirst_eq_noRoom_iff a b c).mpr ⟨by decide, .inl (by decide)⟩

/-- Composition is associative as far as there is room. Which of two orders finds no room is
determined by the dimensions alone; if both find room, then either both fail, or both give one and
the same matrix, and this they do if each call starts where the one before it ends. -/
theorem combine_three_calls (a b c : CallMatrix) :
    let leftFirst := a.combine b >>= fun ab => ab.combine c
    let rightFirst := b.combine c >>= fun bc => a.combine bc
    (leftFirst = .error .noRoom ↔ a.LeadsTo b ∧
      (cellLimit ≤ a.rows * b.cols ∨ b.LeadsTo c ∧ cellLimit ≤ a.rows * c.cols)) ∧
    (rightFirst = .error .noRoom ↔ b.LeadsTo c ∧
      (cellLimit ≤ b.rows * c.cols ∨ a.LeadsTo b ∧ cellLimit ≤ a.rows * c.cols)) ∧
    (leftFirst ≠ .error .noRoom → rightFirst ≠ .error .noRoom →
      leftFirst = rightFirst ∧ ((∃ abc, leftFirst = .ok abc) ↔ a.LeadsTo b ∧ b.LeadsTo c)) ∧
    ∀ abc, leftFirst = .ok abc ∨ rightFirst = .ok abc → IsTriple a b c abc := by
  intro leftFirst rightFirst
  refine ⟨leftFirst_eq_noRoom_iff a b c, rightFirst_eq_noRoom_iff a b c, fun hleft hright => ?_, ?_⟩
  · refine ⟨leftFirst_eq_rightFirst hleft hright, fun h => ?_, fun h => ?_⟩
    · obtain ⟨abc, habc⟩ := h
      exact (isTriple_of_leftFirst habc).leadsTo
    · rw [ne_eq, leftFirst_eq_noRoom_iff] at hleft
      have hab : a.rows * b.cols < cellLimit :=
        Nat.lt_of_not_le fun hlarge => hleft ⟨h.1, .inl hlarge⟩
      have hac : a.rows * c.cols < cellLimit :=
        Nat.lt_of_not_le fun hlarge => hleft ⟨h.1, .inr ⟨h.2, hlarge⟩⟩
      exact ⟨(a.product b hab).product c hac, bind_eq_ok_iff.mpr ⟨a.product b hab,
        combine_eq_ok_iff.mpr ⟨h.1, hab, rfl⟩, combine_eq_ok_iff.mpr ⟨h.2, hac, rfl⟩⟩⟩
  · rintro abc (habc | habc)
    · exact isTriple_of_leftFirst habc
    · exact isTriple_of_rightFirst habc

theorem two_mul_two_lt : 2 * 2 < cellLimit := by decide

/-- Two parameters that change places, the first one decreasing on the way, then a call that hands
on the second of them, then one that hands on what it has. -/
theorem combine_three_calls_swap :
    let a := filled (.sort 1) ⟨1⟩ ⟨2⟩ 2 2 [[.unknown, .lessThan], [.equal, .unknown]] two_mul_two_lt
    let b := filled (.sort 2) ⟨2⟩ ⟨3⟩ 2 1 [[.unknown], [.equal]] (by decide)
    let c := filled (.sort 3) ⟨3⟩ ⟨4⟩ 1 1 [[.equal]] (by decide)
    ∃ abc, (a.combine b >>= fun ab => ab.combine c) = .ok abc ∧
      (b.combine c >>= fun bc => a.combine bc) = .ok abc ∧ IsTriple a b c abc ∧
      abc.get 0 0 = .lessThan ∧ abc.get 1 0 = .unknown := by
  intro a b c
  obtain ⟨hleft, hright, hsame, htriple⟩ := combine_three_calls a b c
  obtain ⟨heq, hok⟩ := hsame (hleft.not.mpr (by decide)) (hright.not.mpr (by decide))
  obtain ⟨abc, habc⟩ := hok.mpr (by decide)
  have habc' := htriple abc (.inl habc)
  refine ⟨abc, habc, heq ▸ habc, habc', ?_, ?_⟩
  · rw [habc'.cells]
    decide
  · rw [habc'.cells]
    decide

theorem isIdempotent_iff (a : CallMatrix) :
    a.isIdempotent = true ↔ ∃ c, a.combine a = .ok c ∧ c.sameRelations a = true := by
  simp only [isIdempotent, Option.any_eq_true, toOption_combine_eq_some_iff]

theorem isIdempotent_congr {a b : CallMatrix} (h : a.sameRelations b = true)
    (ha : a.isIdempotent = true) : b.isIdempotent = true := by
  obtain ⟨c, hc, hca⟩ := (isIdempotent_iff a).mp ha
  obtain ⟨d, hd, hcd⟩ := combine_congr h h hc
  have hdb : d.sameRelations b = true :=
    sameRelations_trans (sameRelations_symm hcd) (sameRelations_trans hca h)
  exact (isIdempotent_iff b).mpr ⟨d, hd, hdb⟩

theorem hasDecreasingDiagonal_congr {a b : CallMatrix} (h : a.sameRelations b = true) :
    a.hasDecreasingDiagonal = b.hasDecreasingDiagonal := by
  obtain ⟨-, -, -, -, hget⟩ := (sameRelations_iff a b).mp h
  rw [Bool.eq_iff_iff, hasDecreasingDiagonal_iff, hasDecreasingDiagonal_iff]
  simp only [hget]

end CallMatrix

end ProofCore
