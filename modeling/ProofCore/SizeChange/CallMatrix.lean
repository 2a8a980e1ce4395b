import ProofCore.SizeChange.RelationRow
import ProofCore.Syntax.Term

/-!
# Call matrices

A call matrix says, for one call or for a sequence of calls, how each argument of the callee
(column) relates to each parameter of the caller (row). Calls compose by matrix multiplication.
Two matrices count as the same if they agree in everything but the call they were made for.

Only the leading rows are listed, and of each its leading cells; the rest is unknown. `get` reads
a matrix, and what the operations do is stated through it.

There is room for a matrix only if it has fewer than `cellLimit` cells. A matrix of two calls in a
row may be too large although those of the calls are not.
-/
namespace ProofCore

/-- Replaces the item at a place by what `f` makes of it; items that are missing are `blank`. -/
def updateAt {α : Type} (blank : α) (f : α → α) : Nat → List α → List α
  | 0, [] => [f blank]
  | 0, x :: xs => f x :: xs
  | n + 1, [] => blank :: updateAt blank f n []
  | n + 1, x :: xs => x :: updateAt blank f n xs

theorem getD_updateAt {α : Type} (blank : α) (f : α → α) (n : Nat) (xs : List α) (i : Nat) :
    (updateAt blank f n xs).getD i blank =
      if i = n then f (xs.getD n blank) else xs.getD i blank := by
  fun_induction updateAt blank f n xs generalizing i with
  | case1 => cases i <;> simp
  | case2 x xs => cases i <;> simp
  | case3 n ih => cases i <;> simp_all
  | case4 n x xs ih => cases i <;> simp_all

theorem length_updateAt_le {α : Type} {blank : α} {f : α → α} {n m : Nat} {xs : List α}
    (hn : n < m) (hxs : xs.length ≤ m) : (updateAt blank f n xs).length ≤ m := by
  fun_induction updateAt blank f n xs generalizing m with
  | case1 => exact hn
  | case2 x xs => exact hxs
  | case3 n ih =>
    cases m with
    | zero => omega
    | succ m => exact Nat.succ_le_succ (ih (by omega) (Nat.zero_le m))
  | case4 n x xs ih =>
    cases m with
    | zero => omega
    | succ m => exact Nat.succ_le_succ (ih (by omega) (Nat.le_of_succ_le_succ hxs))

theorem mem_updateAt {α : Type} {blank y : α} {f : α → α} {n : Nat} {xs : List α}
    (h : y ∈ updateAt blank f n xs) :
    ∃ x, (x ∈ xs ∨ x = blank) ∧ (y = x ∨ y = f x) := by
  fun_induction updateAt blank f n xs with
  | case1 => exact ⟨blank, .inr rfl, .inr (List.mem_singleton.1 h)⟩
  | case2 x xs =>
    rcases List.mem_cons.1 h with h | h
    · exact ⟨x, .inl (by simp), .inr h⟩
    · exact ⟨y, .inl (List.mem_cons_of_mem _ h), .inl rfl⟩
  | case3 n ih =>
    rcases List.mem_cons.1 h with h | h
    · exact ⟨blank, .inr rfl, .inl h⟩
    · exact ih h
  | case4 n x xs ih =>
    rcases List.mem_cons.1 h with h | h
    · exact ⟨x, .inl (by simp), .inl h⟩
    · obtain ⟨z, hz, hy⟩ := ih h
      exact ⟨z, hz.imp_left (List.mem_cons_of_mem _), hy⟩

/-- The number of cells from which on there is no room for a matrix. -/
def CallMatrix.cellLimit : Nat := Nat.pow 2 63

structure CallMatrix where
  call : Term
  caller : DefId
  callee : DefId
  rows : Nat
  cols : Nat
  known : List RelationRow
  length_known : known.length ≤ rows
  length_row : ∀ row ∈ known, row.length ≤ cols
  fits : rows * cols < CallMatrix.cellLimit

namespace CallMatrix

/-- The matrix with the given cells; cells outside it are ignored. -/
def filled (call : Term) (caller callee : DefId) (rows cols : Nat) (cells : List RelationRow)
    (fits : rows * cols < cellLimit) : CallMatrix where
  call := call
  caller := caller
  callee := callee
  rows := rows
  cols := cols
  known := (cells.take rows).map (·.take cols)
  length_known := by
    rw [List.length_map]
    exact List.length_take_le ..
  length_row := by
    intro row h
    obtain ⟨cells, _, rfl⟩ := List.mem_map.1 h
    exact List.length_take_le ..
  fits := fits

/-- The matrix with the given cells, if there is room for it. -/
def ofCells (call : Term) (caller callee : DefId) (rows cols : Nat)
    (cells : List RelationRow) : Option CallMatrix :=
  if fits : rows * cols < cellLimit then
    some (filled call caller callee rows cols cells fits)
  else none

theorem ofCells_eq_some_iff {call : Term} {caller callee : DefId} {rows cols : Nat}
    {cells : List RelationRow} {a : CallMatrix} :
    ofCells call caller callee rows cols cells = some a ↔
      ∃ fits, filled call caller callee rows cols cells fits = a := by
  by_cases fits : rows * cols < cellLimit <;> simp [ofCells, fits]

/-- Nothing is known outside the matrix. -/
def get (a : CallMatrix) (row col : Nat) : SizeRelation :=
  RelationRow.cell (a.known.getD row []) col

/-- Sets a cell; a place outside the matrix is ignored. -/
def set (a : CallMatrix) (row col : Nat) (r : SizeRelation) : CallMatrix :=
  if h : row < a.rows ∧ col < a.cols then
    { a with
      known := updateAt [] (updateAt .unknown (fun _ => r) col) row a.known
      length_known := length_updateAt_le h.1 a.length_known
      length_row := by
        intro cells hcells
        obtain ⟨x, hx, hcells⟩ := mem_updateAt hcells
        have hlen : x.length ≤ a.cols :=
          hx.elim (a.length_row x) fun e => by simp [e]
        rcases hcells with rfl | rfl
        · exact hlen
        · exact length_updateAt_le h.2 hlen }
  else a

/-- Whether the call `b` starts where the call `a` ends. -/
def LeadsTo (a b : CallMatrix) : Prop := a.callee = b.caller ∧ a.cols = b.rows

instance (a b : CallMatrix) : Decidable (a.LeadsTo b) :=
  inferInstanceAs (Decidable (a.callee = b.caller ∧ a.cols = b.rows))

/-- Why two calls do not compose. -/
inductive Obstacle where
  /-- The second does not start where the first ends. -/
  | apart
  /-- The matrix of both is too large. -/
  | noRoom

/-- The matrix of `a` followed by `b`. -/
def product (a b : CallMatrix) (fits : a.rows * b.cols < cellLimit) : CallMatrix where
  call := a.call
  caller := a.caller
  callee := b.callee
  rows := a.rows
  cols := b.cols
  known := a.known.map fun row => RelationRow.weightedSum row b.known
  length_known := by simpa using a.length_known
  length_row := by
    intro row h
    obtain ⟨weights, _, rfl⟩ := List.mem_map.1 h
    exact RelationRow.length_weightedSum_le b.length_row
  fits := fits

/-- The call `a` followed by the call `b`. -/
def combine (a b : CallMatrix) : Except Obstacle CallMatrix :=
  if a.LeadsTo b then
    if fits : a.rows * b.cols < cellLimit then .ok (a.product b fits) else .error .noRoom
  else .error .apart

/-- Whether the calls would compose if there were room for the matrix. -/
def lacksRoom (a b : CallMatrix) : Bool :=
  match a.combine b with
  | .error .noRoom => true
  | _ => false

theorem lacksRoom_iff {a b : CallMatrix} :
    a.lacksRoom b = true ↔ a.combine b = .error .noRoom := by
  unfold lacksRoom
  split <;> simp_all

theorem get_of_rows_le {a : CallMatrix} {i : Nat} (h : a.rows ≤ i) (j : Nat) :
    a.get i j = .unknown := by
  simp [get, List.getElem?_eq_none (Nat.le_trans a.length_known h)]

theorem get_of_cols_le {a : CallMatrix} {j : Nat} (h : a.cols ≤ j) (i : Nat) :
    a.get i j = .unknown := by
  rw [get]
  refine RelationRow.cell_of_length_le (Nat.le_trans ?_ h)
  cases hi : a.known[i]? with
  | none => simp [hi]
  | some row => simpa [hi] using a.length_row row (List.mem_of_getElem? hi)

theorem get_filled (call : Term) (caller callee : DefId) (rows cols : Nat)
    (cells : List RelationRow) (fits : rows * cols < cellLimit) (i j : Nat) :
    (filled call caller callee rows cols cells fits).get i j =
      if i < rows ∧ j < cols then RelationRow.cell (cells.getD i []) j else .unknown := by
  by_cases hi : i < rows
  · by_cases hj : j < cols
    · cases hc : cells[i]? <;> simp [get, filled, RelationRow.cell, hi, hj, hc]
    · rw [get_of_cols_le (Nat.le_of_not_lt hj), if_neg fun h => hj h.2]
  · rw [get_of_rows_le (Nat.le_of_not_lt hi), if_neg fun h => hi h.1]

theorem get_set (a : CallMatrix) (row col : Nat) (r : SizeRelation) (i j : Nat) :
    (a.set row col r).get i j =
      if row < a.rows ∧ col < a.cols ∧ i = row ∧ j = col then r else a.get i j := by
  by_cases h : row < a.rows ∧ col < a.cols
  · simp only [set, h, and_self, dite_true, true_and, get, getD_updateAt]
    by_cases hi : i = row
    · subst hi
      simp only [if_true, true_and, RelationRow.cell, getD_updateAt]
    · simp [hi]
  · rw [set, dif_neg h, if_neg fun e => h ⟨e.1, e.2.1⟩]

theorem get_product (a b : CallMatrix) (fits : a.rows * b.cols < cellLimit) (i k : Nat) :
    (a.product b fits).get i k =
      .sum ((List.range a.cols).map fun j => a.get i j * b.get j k) := by
  have hrow : (a.known.getD i []).length ≤ a.cols := by
    cases hi : a.known[i]? with
    | none => simp [hi]
    | some row => simpa [hi] using a.length_row row (List.mem_of_getElem? hi)
  refine Eq.trans ?_ (RelationRow.cell_weightedSum _ b.known a.cols k hrow)
  cases hi : a.known[i]? <;> simp [get, product, hi, RelationRow.weightedSum]

/-- Whether the listed rows stand for the same cells. -/
def rowsAgree : List RelationRow → List RelationRow → Bool
  | [], rows => rows.all RelationRow.isBlank
  | rows, [] => rows.all RelationRow.isBlank
  | row :: rows, row' :: rows' => RelationRow.agrees row row' && rowsAgree rows rows'

theorem all_isBlank_iff (rows : List RelationRow) :
    rows.all RelationRow.isBlank = true ↔
      ∀ i j, RelationRow.cell (rows.getD i []) j = .unknown := by
  induction rows with
  | nil => simp
  | cons row rows ih =>
    rw [List.all_cons, Bool.and_eq_true, ih, RelationRow.isBlank_iff]
    constructor
    · rintro ⟨h, h'⟩ (_ | i)
      · exact h
      · exact h' i
    · exact fun h => ⟨h 0, fun i => h (i + 1)⟩

theorem rowsAgree_iff (rows rows' : List RelationRow) :
    rowsAgree rows rows' = true ↔
      ∀ i j, RelationRow.cell (rows.getD i []) j = RelationRow.cell (rows'.getD i []) j := by
  fun_induction rowsAgree rows rows' with
  | case1 rows =>
    rw [all_isBlank_iff]
    exact ⟨fun h i j => (h i j).symm, fun h i j => (h i j).symm⟩
  | case2 rows => exact all_isBlank_iff rows
  | case3 row rows row' rows' ih =>
    rw [Bool.and_eq_true, ih, RelationRow.agrees_iff]
    constructor
    · rintro ⟨h, h'⟩ (_ | i)
      · exact h
      · exact h' i
    · exact fun h => ⟨h 0, fun i => h (i + 1)⟩

/-- Whether the matrices have the same ends, dimensions and cells. -/
def sameRelations (a b : CallMatrix) : Bool :=
  a.caller = b.caller && a.callee = b.callee && a.rows = b.rows && a.cols = b.cols &&
    rowsAgree a.known b.known

theorem sameRelations_iff (a b : CallMatrix) :
    a.sameRelations b = true ↔
      a.caller = b.caller ∧ a.callee = b.callee ∧ a.rows = b.rows ∧ a.cols = b.cols ∧
        ∀ i j, a.get i j = b.get i j := by
  simp only [sameRelations, Bool.and_eq_true, decide_eq_true_eq, rowsAgree_iff, and_assoc, get]

def isIdempotent (a : CallMatrix) : Bool :=
  (a.combine a).toOption.any (·.sameRelations a)

/-- Whether some parameter is smaller after the call than before. -/
def hasDecreasingDiagonal (a : CallMatrix) : Bool :=
  a.known.zipIdx.any fun (row, i) => (RelationRow.cell row i).isDecreasing

theorem hasDecreasingDiagonal_iff (a : CallMatrix) :
    a.hasDecreasingDiagonal = true ↔ ∃ i, a.get i i = .lessThan := by
  simp only [hasDecreasingDiagonal, List.any_eq_true, SizeRelation.isDecreasing, decide_eq_true_eq]
  constructor
  · rintro ⟨⟨row, i⟩, h, hlt⟩
    refine ⟨i, ?_⟩
    simpa [get, List.mk_mem_zipIdx_iff_getElem?.1 h] using hlt
  · rintro ⟨i, h⟩
    cases hi : a.known[i]? with
    | none => simp [get, hi] at h
    | some row =>
      exact ⟨(row, i), List.mk_mem_zipIdx_iff_getElem?.2 hi, by simpa [get, hi] using h⟩

/-- One line for each row, cells separated by blanks. -/
def text (a : CallMatrix) : String :=
  "\n".intercalate ((a.known.rightpad a.rows []).map fun row =>
    " ".intercalate ((row.rightpad a.cols .unknown).map SizeRelation.symbol))

end CallMatrix

end ProofCore
