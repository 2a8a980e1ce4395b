import ProofCore.SizeChange.Relation

/-!
# Rows of size relations

A row lists its leading cells, and every cell after them is unknown. So a row takes no more room
than what is known of it, however wide it is, and two lists may stand for the same row. `cell`
reads a row; each operation is described by what it does to the cells.
-/
namespace ProofCore

abbrev RelationRow := List SizeRelation

namespace RelationRow

def cell (row : RelationRow) (col : Nat) : SizeRelation := row.getD col .unknown

@[simp] theorem cell_nil (col : Nat) : cell [] col = .unknown := rfl

@[simp] theorem cell_cons_zero (r : SizeRelation) (row : RelationRow) : cell (r :: row) 0 = r := rfl

@[simp] theorem cell_cons_succ (r : SizeRelation) (row : RelationRow) (col : Nat) :
    cell (r :: row) (col + 1) = cell row col := by
  simp [cell]

theorem cell_of_length_le {row : RelationRow} {col : Nat} (h : row.length ≤ col) :
    cell row col = .unknown := by
  simp [cell, List.getElem?_eq_none h]

/-- Adds to `total` the row whose cells are those of `row` after `r`. -/
def addScaled (r : SizeRelation) : RelationRow → RelationRow → RelationRow
  | [], total => total
  | s :: row, [] => (r * s) :: addScaled r row []
  | s :: row, t :: total => (r * s + t) :: addScaled r row total

theorem cell_addScaled (r : SizeRelation) (row total : RelationRow) (col : Nat) :
    cell (addScaled r row total) col = r * cell row col + cell total col := by
  fun_induction addScaled r row total generalizing col with
  | case1 => simp
  | case2 s row ih => cases col <;> simp [ih]
  | case3 s row t total ih => cases col <;> simp [ih]

theorem length_addScaled (r : SizeRelation) (row total : RelationRow) :
    (addScaled r row total).length = max row.length total.length := by
  fun_induction addScaled r row total with
  | case1 => simp
  | case2 s row ih => simp [ih]
  | case3 s row t total ih => simp [ih, Nat.succ_max_succ]

/-- The sum of the rows, each taken after the relation at its place. -/
def weightedSum : RelationRow → List RelationRow → RelationRow
  | r :: weights, row :: rows => addScaled r row (weightedSum weights rows)
  | _, _ => []

theorem length_weightedSum_le {weights : RelationRow} {rows : List RelationRow} {n : Nat}
    (h : ∀ row ∈ rows, row.length ≤ n) : (weightedSum weights rows).length ≤ n := by
  fun_induction weightedSum weights rows with
  | case1 r weights row rows ih =>
    rw [length_addScaled]
    exact Nat.max_le.2 ⟨h row (by simp), ih fun row hrow => h row (by simp [hrow])⟩
  | case2 => simp

/-- Enough weights are summed if every row is, or if those left out are unknown. -/
theorem cell_weightedSum (weights : RelationRow) (rows : List RelationRow) (n col : Nat)
    (h : weights.length ≤ n) :
    cell (weightedSum weights rows) col =
      .sum ((List.range n).map fun j => cell weights j * cell (rows.getD j []) col) := by
  have blank : ∀ n, SizeRelation.sum ((List.range n).map fun _ => SizeRelation.unknown) =
      .unknown := by
    intro n
    induction n with
    | zero => rfl
    | succ n ih =>
      rw [List.range_succ_eq_map, List.map_cons, SizeRelation.sum_cons, List.map_map,
        SizeRelation.unknown_add]
      exact ih
  induction n generalizing weights rows with
  | zero => simp [List.length_eq_zero_iff.1 (Nat.le_zero.1 h), weightedSum]
  | succ n ih =>
    cases weights with
    | nil =>
      simp only [weightedSum, cell_nil, SizeRelation.unknown_mul]
      exact (blank (n + 1)).symm
    | cons r weights =>
      cases rows with
      | nil =>
        simp only [weightedSum, cell_nil, List.getD_nil, SizeRelation.mul_unknown]
        exact (blank (n + 1)).symm
      | cons row rows =>
        rw [weightedSum, cell_addScaled, ih weights rows (Nat.le_of_succ_le_succ h)]
        simp [List.range_succ_eq_map, Function.comp_def]

/-- Whether nothing is known of the row. -/
def isBlank (row : RelationRow) : Bool := row.all (· = .unknown)

theorem isBlank_iff (row : RelationRow) : row.isBlank = true ↔ ∀ col, cell row col = .unknown := by
  induction row with
  | nil => simp [isBlank]
  | cons r row ih =>
    simp only [isBlank, List.all_cons, Bool.and_eq_true, decide_eq_true_eq] at ih ⊢
    rw [ih]
    constructor
    · rintro ⟨rfl, h⟩ (_ | col)
      · rfl
      · exact h col
    · exact fun h => ⟨h 0, fun col => h (col + 1)⟩

/-- Whether two lists stand for the same row. -/
def agrees : RelationRow → RelationRow → Bool
  | [], row => row.isBlank
  | row, [] => row.isBlank
  | r :: row, s :: row' => r = s && agrees row row'

theorem agrees_iff (row row' : RelationRow) :
    agrees row row' = true ↔ ∀ col, cell row col = cell row' col := by
  fun_induction agrees row row' with
  | case1 row =>
    rw [isBlank_iff]
    exact ⟨fun h col => (h col).symm, fun h col => (h col).symm⟩
  | case2 row => simp [isBlank_iff]
  | case3 r row s row' ih =>
    rw [Bool.and_eq_true, decide_eq_true_eq, ih]
    constructor
    · rintro ⟨rfl, h⟩ (_ | col)
      · rfl
      · exact h col
    · exact fun h => ⟨h 0, fun col => h (col + 1)⟩

end RelationRow

end ProofCore
