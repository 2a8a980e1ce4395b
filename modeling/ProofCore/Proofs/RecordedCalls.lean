import ProofCore.Proofs.MatrixAlgebra
import ProofCore.Proofs.TableLookup
import ProofCore.SizeChange.CallGraph

/-!
# What a call graph records

The matrices of a graph are found under their caller and callee, no two of them have the same
relations, and recording a matrix adds it exactly if its relations are new.
-/
namespace ProofCore

theorem perm_flatten_upsertEntry {α : Type} (k : DefId) (a : α) (es : List (DefId × List α)) :
    ((upsertEntry k (fun group => group.getD [] ++ [a]) es).map Prod.snd).flatten.Perm
      (a :: (es.map Prod.snd).flatten) := by
  induction es with
  | nil => simp [upsertEntry]
  | cons e rest ih =>
    obtain ⟨k', group⟩ := e
    by_cases h : k' = k
    · simp only [upsertEntry, h, if_true, List.map_cons, List.flatten_cons, Option.getD_some,
        List.append_assoc, List.singleton_append]
      exact List.perm_middle
    · simp only [upsertEntry, h, if_false, List.map_cons, List.flatten_cons]
      exact (ih.append_left group).trans List.perm_middle

namespace Outgoing

theorem mem_matrices_iff {c : Outgoing} {a : CallMatrix} :
    a ∈ c.matrices ↔ ∃ callee group, (callee, group) ∈ c.groups.entries ∧ a ∈ group := by
  simp only [matrices, Table.values, List.mem_flatten, List.mem_map]
  constructor
  · rintro ⟨group, ⟨e, he, rfl⟩, ha⟩
    exact ⟨e.1, e.2, he, ha⟩
  · rintro ⟨callee, group, he, ha⟩
    exact ⟨group, ⟨_, he, rfl⟩, ha⟩

theorem mem_matricesTo_iff {c : Outgoing} {a : CallMatrix} {callee : DefId} :
    a ∈ c.matricesTo callee ↔ a ∈ c.matrices ∧ a.callee = callee := by
  rw [mem_matrices_iff]
  constructor
  · intro h
    have hends := (c.isCallGroup_matricesTo callee).ends a h
    unfold matricesTo at h
    cases hg : c.groups.get? callee with
    | none => simp [hg] at h
    | some group =>
      rw [hg, Option.getD_some] at h
      exact ⟨⟨callee, group, Table.get?_eq_some_iff.mp hg, h⟩, hends.2⟩
  · rintro ⟨⟨callee', group, hg, ha⟩, rfl⟩
    have hcallee : a.callee = callee' := ((c.grouped _ hg).ends a ha).2
    rw [matricesTo, Table.get?_eq_some_iff.mpr (hcallee ▸ hg)]
    exact ha

theorem caller_of_mem {c : Outgoing} {a : CallMatrix} (h : a ∈ c.matrices) :
    a.caller = c.caller := by
  obtain ⟨callee, group, hg, ha⟩ := mem_matrices_iff.mp h
  exact ((c.grouped _ hg).ends a ha).1

theorem contains_iff {c : Outgoing} {a : CallMatrix} :
    c.contains a = true ↔ ∃ b ∈ c.matrices, b.sameRelations a = true := by
  simp only [contains, List.any_eq_true, mem_matricesTo_iff]
  constructor
  · rintro ⟨b, ⟨hb, -⟩, hba⟩
    exact ⟨b, hb, hba⟩
  · rintro ⟨b, hb, hba⟩
    exact ⟨b, ⟨hb, ((CallMatrix.sameRelations_iff b a).mp hba).2.1⟩, hba⟩

/-- A matrix with the right caller and new relations is added, once. -/
theorem perm_matrices_insert {c : Outgoing} {a : CallMatrix} (hcaller : a.caller = c.caller)
    (hnew : c.contains a = false) : (c.insert a).matrices.Perm (a :: c.matrices) := by
  rw [insert, dif_pos ⟨hcaller, hnew⟩]
  exact perm_flatten_upsertEntry a.callee a c.groups.entries

/-- A matrix that is known or belongs elsewhere is not added. -/
theorem insert_of_ignored {c : Outgoing} {a : CallMatrix}
    (h : a.caller ≠ c.caller ∨ c.contains a = true) : c.insert a = c := by
  rw [insert, dif_neg]
  intro hnew
  rcases h with hne | hknown
  · exact hne hnew.1
  · rw [hnew.2] at hknown
    cases hknown

theorem insert_of_contains {c : Outgoing} {a : CallMatrix} (h : c.contains a = true) :
    c.insert a = c := insert_of_ignored (.inr h)

theorem contains_insert_iff {c : Outgoing} {a b : CallMatrix} (hcaller : a.caller = c.caller) :
    (c.insert a).contains b = true ↔ c.contains b = true ∨ a.sameRelations b = true := by
  cases hknown : c.contains a with
  | true =>
    rw [insert_of_contains hknown]
    refine ⟨.inl, fun h => h.elim id fun hab => ?_⟩
    obtain ⟨d, hd, hda⟩ := contains_iff.mp hknown
    exact contains_iff.mpr ⟨d, hd, CallMatrix.sameRelations_trans hda hab⟩
  | false =>
    have hperm := perm_matrices_insert hcaller hknown
    rw [contains_iff, contains_iff]
    simp only [hperm.mem_iff, List.mem_cons, exists_eq_or_imp]
    exact or_comm

@[simp] theorem matrices_empty (caller : DefId) : (empty caller).matrices = [] := rfl

@[simp] theorem matrices_cleared (c : Outgoing) : c.cleared.matrices = [] := by
  simp [matrices, cleared, Table.values, Table.mapEntries]

theorem pairwise_matrices (c : Outgoing) :
    c.matrices.Pairwise fun a b => a.sameRelations b = false := by
  rw [matrices, List.pairwise_flatten]
  constructor
  · intro group hgroup
    obtain ⟨e, he, rfl⟩ := List.mem_map.mp hgroup
    exact (c.grouped e he).distinct
  · have hkeys := List.pairwise_map.mp c.groups.nodup_keys
    rw [Table.values, List.pairwise_map]
    refine hkeys.imp_of_mem fun {e e'} he he' hne a ha b hb => ?_
    -- matrices of different groups differ in their callee
    by_contra hab
    have hcallee := ((CallMatrix.sameRelations_iff a b).mp (by simpa using hab)).2.1
    rw [((c.grouped e he).ends a ha).2, ((c.grouped e' he').ends b hb).2] at hcallee
    exact hne hcallee

end Outgoing

namespace CallGraph

theorem mem_matrices_iff {g : CallGraph} {a : CallMatrix} :
    a ∈ g.matrices ↔ ∃ caller c, g.calls.get? caller = some c ∧ a ∈ c.matrices := by
  simp only [matrices, List.mem_flatMap, Table.mem_values_iff]
  constructor
  · rintro ⟨c, ⟨caller, hc⟩, ha⟩
    exact ⟨caller, c, hc, ha⟩
  · rintro ⟨caller, c, hc, ha⟩
    exact ⟨c, ⟨caller, hc⟩, ha⟩

theorem mem_callsFrom_iff {g : CallGraph} {a : CallMatrix} {caller : DefId} :
    a ∈ g.callsFrom caller ↔ a ∈ g.matrices ∧ a.caller = caller := by
  rw [mem_matrices_iff]
  constructor
  · intro h
    have hcaller : a.caller = caller := (Outgoing.caller_of_mem h).trans (g.caller_outgoing caller)
    unfold callsFrom outgoing at h
    cases hc : g.calls.get? caller with
    | none => simp [hc] at h
    | some c =>
      rw [hc, Option.getD_some] at h
      exact ⟨⟨caller, c, hc, h⟩, hcaller⟩
  · rintro ⟨⟨caller', c, hc, ha⟩, rfl⟩
    have hcaller : a.caller = caller' :=
      (Outgoing.caller_of_mem ha).trans (g.caller_eq _ (Table.get?_eq_some_iff.mp hc))
    rw [callsFrom, outgoing, hcaller, hc]
    exact ha

theorem contains_iff {g : CallGraph} {a : CallMatrix} :
    g.contains a = true ↔ ∃ b ∈ g.matrices, b.sameRelations a = true := by
  rw [contains, Outgoing.contains_iff]
  constructor
  · rintro ⟨b, hb, hba⟩
    exact ⟨b, (mem_callsFrom_iff.mp hb).1, hba⟩
  · rintro ⟨b, hb, hba⟩
    have hcaller := ((CallMatrix.sameRelations_iff b a).mp hba).1
    exact ⟨b, mem_callsFrom_iff.mpr ⟨hb, hcaller⟩, hba⟩

/-- The graph with all of the matrices recorded, one after the other. -/
def insertAll (g : CallGraph) (as : List CallMatrix) : CallGraph := as.foldl insert g

end CallGraph

end ProofCore
