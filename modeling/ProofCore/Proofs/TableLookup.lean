import Mathlib
import ProofCore.Data.Table

/-!
# Lookup in tables

A table has one entry for each of its keys, so looking a key up and listing the entries tell the
same, and two tables with the same entries in any order answer alike.
-/
namespace ProofCore

theorem lookupEntry_eq_some_iff {κ ν : Type} [DecidableEq κ] {k : κ} {v : ν} {es : List (κ × ν)}
    (hkeys : (es.map Prod.fst).Nodup) : lookupEntry k es = some v ↔ (k, v) ∈ es := by
  refine ⟨mem_of_lookupEntry, fun hmem => ?_⟩
  induction es with
  | nil => cases hmem
  | cons e rest ih =>
    obtain ⟨k', v'⟩ := e
    have hrest := List.nodup_cons.mp hkeys
    rw [lookupEntry]
    rcases List.mem_cons.mp hmem with heq | hmem
    · cases heq
      exact if_pos rfl
    · have hne : k' ≠ k := by
        rintro rfl
        exact hrest.1 (List.mem_map.mpr ⟨_, hmem, rfl⟩)
      rw [if_neg hne]
      exact ih hrest.2 hmem

theorem lookupEntry_eq_none_iff {κ ν : Type} [DecidableEq κ] {k : κ} {es : List (κ × ν)} :
    lookupEntry k es = none ↔ k ∉ es.map Prod.fst := by
  induction es with
  | nil => simp [lookupEntry]
  | cons e rest ih =>
    obtain ⟨k', v'⟩ := e
    by_cases h : k' = k
    · simp [lookupEntry, h]
    · have h' : ¬ k = k' := fun e => h e.symm
      simp [lookupEntry, h, h', ih]

namespace Table

variable {κ ν μ ξ : Type}

theorem eq_of_entries {t t' : Table κ ν} (h : t.entries = t'.entries) : t = t' := by
  cases t
  cases t'
  cases h
  rfl

theorem mapEntries_mapEntries (t : Table κ ν) (f : κ → ν → μ) (f' : κ → μ → ξ) :
    (t.mapEntries f).mapEntries f' = t.mapEntries fun k v => f' k (f k v) :=
  eq_of_entries (by simp [mapEntries])

theorem mapEntries_congr {t : Table κ ν} {f f' : κ → ν → μ}
    (h : ∀ e ∈ t.entries, f e.1 e.2 = f' e.1 e.2) : t.mapEntries f = t.mapEntries f' :=
  eq_of_entries (List.map_congr_left fun e he => by rw [h e he])

theorem mapEntries_of_fixed {t : Table κ ν} {f : κ → ν → ν}
    (h : ∀ e ∈ t.entries, f e.1 e.2 = e.2) : t.mapEntries f = t := by
  have hid : t.mapEntries f = t.mapEntries fun _ v => v := mapEntries_congr h
  exact hid.trans (eq_of_entries (by simp [mapEntries]))

variable [DecidableEq κ]

theorem get?_eq_some_iff {t : Table κ ν} {k : κ} {v : ν} :
    t.get? k = some v ↔ (k, v) ∈ t.entries :=
  lookupEntry_eq_some_iff t.nodup_keys

theorem get?_eq_none_iff {t : Table κ ν} {k : κ} : t.get? k = none ↔ k ∉ t.keys :=
  lookupEntry_eq_none_iff

theorem contains_eq_true_iff {t : Table κ ν} {k : κ} : t.contains k = true ↔ k ∈ t.keys := by
  rw [contains, Option.isSome_iff_ne_none, Ne, get?_eq_none_iff, not_not]

theorem mem_keys_iff {t : Table κ ν} {k : κ} : k ∈ t.keys ↔ ∃ v, t.get? k = some v := by
  rw [← contains_eq_true_iff, contains, Option.isSome_iff_exists]

theorem mem_values_iff {t : Table κ ν} {v : ν} : v ∈ t.values ↔ ∃ k, t.get? k = some v := by
  simp only [values, List.mem_map, get?_eq_some_iff, Prod.exists, exists_eq_right]

theorem get?_mapEntries (f : κ → ν → μ) (t : Table κ ν) (k : κ) :
    (t.mapEntries f).get? k = (t.get? k).map (f k) := by
  cases h : t.get? k with
  | none =>
    rw [get?_eq_none_iff] at h
    rwa [Option.map_none, get?_eq_none_iff, keys_mapEntries]
  | some v =>
    rw [get?_eq_some_iff] at h
    rw [Option.map_some, get?_eq_some_iff]
    exact List.mem_map.mpr ⟨_, h, rfl⟩

theorem get?_foldl_insert {es : List (κ × ν)} (hnodup : (es.map Prod.fst).Nodup) (t : Table κ ν)
    (k : κ) (v : ν) :
    (es.foldl (fun t e => t.insert e.1 e.2) t).get? k = some v ↔
      (k, v) ∈ es ∨ k ∉ es.map Prod.fst ∧ t.get? k = some v := by
  induction es generalizing t with
  | nil => simp
  | cons e es ih =>
    rw [List.map_cons, List.nodup_cons] at hnodup
    rw [List.foldl_cons, ih hnodup.2, get?_insert]
    by_cases hk : k = e.1
    · subst hk
      have hmem : (e.1, v) ∉ es := fun h => hnodup.1 (List.mem_map.mpr ⟨_, h, rfl⟩)
      simp [hnodup.1, hmem, Prod.ext_iff, eq_comm]
    · simp [hk, Prod.ext_iff]

theorem get?_ofList {es : List (κ × ν)} (hnodup : (es.map Prod.fst).Nodup) {k : κ} {v : ν} :
    (ofList es).get? k = some v ↔ (k, v) ∈ es := by
  rw [ofList, get?_foldl_insert hnodup]
  simp

end Table

theorem upsertEntry_eq_map {κ ν : Type} [DecidableEq κ] {k : κ} (f : Option ν → ν)
    {es : List (κ × ν)} (hnodup : (es.map Prod.fst).Nodup) (hk : k ∈ es.map Prod.fst) :
    upsertEntry k f es = es.map fun e => (e.1, if e.1 = k then f (some e.2) else e.2) := by
  induction es with
  | nil => cases hk
  | cons e rest ih =>
    obtain ⟨k', v⟩ := e
    rw [List.map_cons, List.nodup_cons] at hnodup
    by_cases h : k' = k
    · -- the other entries have other keys and stay as they are
      have hrest : ∀ e ∈ rest, (e.1, if e.1 = k then f (some e.2) else e.2) = e := by
        intro e he
        have hne : e.1 ≠ k := fun heq => hnodup.1 (List.mem_map.mpr ⟨e, he, heq.trans h.symm⟩)
        rw [if_neg hne]
      rw [upsertEntry, if_pos h, List.map_cons, List.map_congr_left hrest, List.map_id']
      simp [h]
    · have hk' : k ∈ rest.map Prod.fst := by
        rcases List.mem_cons.mp hk with hk | hk
        · exact absurd hk.symm h
        · exact hk
      rw [upsertEntry, if_neg h, List.map_cons, ih hnodup.2 hk']
      simp [h]

end ProofCore
