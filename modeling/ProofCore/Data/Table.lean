/-!
# Insertion-ordered tables

A finite map whose entries keep the order in which their keys were first inserted. Writing to a
key that is present replaces its value in place; a new key goes to the end. Both writing
operations are instances of `upsert`, so the order and lookup laws are stated for it once.
-/
namespace ProofCore

/-- The value of the first entry of `k`. -/
@[specialize] def lookupEntry {κ ν : Type} [DecidableEq κ] (k : κ) : List (κ × ν) → Option ν
  | [] => none
  | (k', v) :: rest => if k' = k then some v else lookupEntry k rest

/-- Places the value `f` gives for the entry of `k`, at the end if there is none. -/
@[specialize] def upsertEntry {κ ν : Type} [DecidableEq κ] (k : κ) (f : Option ν → ν) :
    List (κ × ν) → List (κ × ν)
  | [] => [(k, f none)]
  | (k', v) :: rest => if k' = k then (k', f (some v)) :: rest else (k', v) :: upsertEntry k f rest

theorem map_fst_upsertEntry {κ ν : Type} [DecidableEq κ] (k : κ) (f : Option ν → ν)
    (es : List (κ × ν)) :
    (upsertEntry k f es).map Prod.fst =
      if k ∈ es.map Prod.fst then es.map Prod.fst else es.map Prod.fst ++ [k] := by
  induction es with
  | nil => simp [upsertEntry]
  | cons e rest ih =>
    obtain ⟨k', v⟩ := e
    by_cases h : k' = k
    · simp [upsertEntry, h]
    · have h' : ¬ k = k' := fun e => h e.symm
      simp only [upsertEntry, h, if_false, List.map_cons, ih, List.mem_cons, h', false_or]
      split <;> simp

theorem lookupEntry_upsertEntry {κ ν : Type} [DecidableEq κ] (k x : κ) (f : Option ν → ν)
    (es : List (κ × ν)) :
    lookupEntry x (upsertEntry k f es) =
      if x = k then some (f (lookupEntry k es)) else lookupEntry x es := by
  induction es with
  | nil => by_cases h : k = x <;> simp [upsertEntry, lookupEntry, h, eq_comm]
  | cons e rest ih =>
    obtain ⟨k', v⟩ := e
    by_cases h : k' = k
    · by_cases hx : k = x
      · simp [upsertEntry, lookupEntry, h, hx]
      · have hk : x ≠ k := fun e => hx e.symm
        simp [upsertEntry, lookupEntry, h, hx, hk]
    · by_cases hx : k' = x
      · have hk : x ≠ k := fun e => h (hx.trans e)
        simp [upsertEntry, lookupEntry, hx, hk]
      · simp [upsertEntry, lookupEntry, h, hx, ih]

theorem mem_of_lookupEntry {κ ν : Type} [DecidableEq κ] {k : κ} {v : ν} {es : List (κ × ν)}
    (h : lookupEntry k es = some v) : (k, v) ∈ es := by
  fun_induction lookupEntry k es with
  | case1 => cases h
  | case2 v' rest => simp_all
  | case3 k' v' rest _ ih => exact List.mem_cons_of_mem _ (ih h)

theorem mem_upsertEntry {κ ν : Type} [DecidableEq κ] {k : κ} {f : Option ν → ν}
    {es : List (κ × ν)} {e : κ × ν} (h : e ∈ upsertEntry k f es) :
    (e.1 = k ∧ e.2 = f (lookupEntry k es)) ∨ e ∈ es := by
  induction es with
  | nil => simp_all [upsertEntry, lookupEntry]
  | cons e' rest ih =>
    obtain ⟨k', v⟩ := e'
    by_cases hk : k' = k
    · simp only [upsertEntry, hk, if_true, List.mem_cons] at h
      rcases h with rfl | h
      · simp [lookupEntry, hk]
      · exact .inr (List.mem_cons_of_mem _ h)
    · simp only [upsertEntry, hk, if_false, List.mem_cons] at h
      rw [lookupEntry, if_neg hk]
      rcases h with rfl | h
      · exact .inr (List.mem_cons_self ..)
      · exact (ih h).imp_right (List.mem_cons_of_mem _)

structure Table (κ ν : Type) where
  entries : List (κ × ν)
  nodup_keys : (entries.map Prod.fst).Nodup

namespace Table

variable {κ ν μ : Type}

def empty : Table κ ν := ⟨[], by simp⟩

instance : EmptyCollection (Table κ ν) := ⟨empty⟩
instance : Inhabited (Table κ ν) := ⟨empty⟩

def keys (t : Table κ ν) : List κ := t.entries.map Prod.fst

def values (t : Table κ ν) : List ν := t.entries.map Prod.snd

def size (t : Table κ ν) : Nat := t.entries.length

def isEmpty (t : Table κ ν) : Bool := t.entries.isEmpty

/-- Recomputes every value from its key and its old value. -/
def mapEntries (f : κ → ν → μ) (t : Table κ ν) : Table κ μ where
  entries := t.entries.map fun e => (e.1, f e.1 e.2)
  nodup_keys := by simpa [Function.comp_def] using t.nodup_keys

@[simp] theorem keys_mapEntries (f : κ → ν → μ) (t : Table κ ν) :
    (t.mapEntries f).keys = t.keys := by
  simp [keys, mapEntries, Function.comp_def]

variable [DecidableEq κ]

@[specialize] def get? (t : Table κ ν) (k : κ) : Option ν := lookupEntry k t.entries

@[specialize] def contains (t : Table κ ν) (k : κ) : Bool := (t.get? k).isSome

/-- Sets the value of `k` to what `f` makes of its present value, if it has one. -/
@[specialize] def upsert (t : Table κ ν) (k : κ) (f : Option ν → ν) : Table κ ν where
  entries := upsertEntry k f t.entries
  nodup_keys := by
    rw [map_fst_upsertEntry]
    have h := t.nodup_keys
    split
    · exact h
    · rename_i hk
      rw [List.nodup_append]
      refine ⟨h, by simp, fun a ha b hb e => ?_⟩
      rw [List.mem_singleton] at hb
      exact hk (hb ▸ e ▸ ha)

@[specialize] def insert (t : Table κ ν) (k : κ) (v : ν) : Table κ ν := t.upsert k fun _ => v

/-- Inserts the pairs one after the other, so that the last one of a key gives its value. -/
def ofList (es : List (κ × ν)) : Table κ ν := es.foldl (fun t e => t.insert e.1 e.2) empty

/-- How many keys stand before `k`. -/
def position? (t : Table κ ν) (k : κ) : Option Nat := t.keys.idxOf? k

@[simp] theorem get?_empty (k : κ) : (empty : Table κ ν).get? k = none := rfl

theorem get?_upsert (t : Table κ ν) (k x : κ) (f : Option ν → ν) :
    (t.upsert k f).get? x = if x = k then some (f (t.get? k)) else t.get? x :=
  lookupEntry_upsertEntry k x f t.entries

theorem get?_insert (t : Table κ ν) (k x : κ) (v : ν) :
    (t.insert k v).get? x = if x = k then some v else t.get? x :=
  get?_upsert t k x fun _ => v

theorem keys_upsert (t : Table κ ν) (k : κ) (f : Option ν → ν) :
    (t.upsert k f).keys = if k ∈ t.keys then t.keys else t.keys ++ [k] :=
  map_fst_upsertEntry k f t.entries

theorem mem_keys_upsert (t : Table κ ν) (k x : κ) (f : Option ν → ν) :
    x ∈ (t.upsert k f).keys ↔ x ∈ t.keys ∨ x = k := by
  rw [keys_upsert]
  split
  · rename_i h
    exact ⟨.inl, fun hx => hx.elim (fun h => h) fun e => e ▸ h⟩
  · simp

theorem mem_entries_of_get? {t : Table κ ν} {k : κ} {v : ν} (h : t.get? k = some v) :
    (k, v) ∈ t.entries :=
  mem_of_lookupEntry h

theorem mem_entries_upsert {t : Table κ ν} {k : κ} {f : Option ν → ν} {e : κ × ν}
    (h : e ∈ (t.upsert k f).entries) : (e.1 = k ∧ e.2 = f (t.get? k)) ∨ e ∈ t.entries :=
  mem_upsertEntry h

end Table

end ProofCore
