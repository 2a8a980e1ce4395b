import ProofCore.Data.Table
import ProofCore.SizeChange.CallMatrix

/-!
# The calls of one definition

The calls that one definition makes, or the sequences of calls that it starts, as call matrices
without repetition. They are kept by callee, each group at the place where its first member was
recorded.
-/
namespace ProofCore

/-- Different matrices that all lead from `caller` to `callee`. -/
structure IsCallGroup (caller callee : DefId) (group : List CallMatrix) : Prop where
  ends : ∀ a ∈ group, a.caller = caller ∧ a.callee = callee
  distinct : group.Pairwise fun a b => a.sameRelations b = false

theorem IsCallGroup.nil (caller callee : DefId) : IsCallGroup caller callee [] :=
  ⟨by simp, .nil⟩

theorem IsCallGroup.append {caller : DefId} {group : List CallMatrix} {a : CallMatrix}
    (h : IsCallGroup caller a.callee group) (hcaller : a.caller = caller)
    (new : group.any (·.sameRelations a) = false) :
    IsCallGroup caller a.callee (group ++ [a]) where
  ends := by
    intro b hb
    rcases List.mem_append.1 hb with hb | hb
    · exact h.ends b hb
    · simp [List.mem_singleton.1 hb, hcaller]
  distinct := by
    rw [List.pairwise_append]
    refine ⟨h.distinct, by simp, fun b hb c hc => ?_⟩
    rw [List.mem_singleton.1 hc]
    exact Bool.not_eq_true _ ▸ List.any_eq_false.1 new b hb

structure Outgoing where
  caller : DefId
  groups : Table DefId (List CallMatrix)
  grouped : ∀ h ∈ groups.entries, IsCallGroup caller h.1 h.2

namespace Outgoing

def empty (caller : DefId) : Outgoing := ⟨caller, .empty, by simp [Table.empty]⟩

/-- The matrices that lead to one callee, as they were recorded. -/
def matricesTo (c : Outgoing) (callee : DefId) : List CallMatrix :=
  (c.groups.get? callee).getD []

/-- All matrices, grouped by callee. -/
def matrices (c : Outgoing) : List CallMatrix := c.groups.values.flatten

/-- Whether a matrix with the same relations is recorded. -/
def contains (c : Outgoing) (a : CallMatrix) : Bool :=
  (c.matricesTo a.callee).any (·.sameRelations a)

theorem isCallGroup_matricesTo (c : Outgoing) (callee : DefId) :
    IsCallGroup c.caller callee (c.matricesTo callee) := by
  unfold matricesTo
  cases h : c.groups.get? callee with
  | none => exact .nil c.caller callee
  | some group => exact c.grouped _ (Table.mem_entries_of_get? h)

/-- Adds a matrix, unless it has another caller or its relations are known. -/
def insert (c : Outgoing) (a : CallMatrix) : Outgoing :=
  if new : a.caller = c.caller ∧ c.contains a = false then
    { c with
      groups := c.groups.upsert a.callee fun group => group.getD [] ++ [a]
      grouped := by
        intro h hh
        rcases Table.mem_entries_upsert hh with ⟨hcallee, hgroup⟩ | hh
        · rw [hcallee, hgroup]
          exact (c.isCallGroup_matricesTo a.callee).append new.1 new.2
        · exact c.grouped h hh }
  else c

@[simp] theorem caller_insert (c : Outgoing) (a : CallMatrix) : (c.insert a).caller = c.caller := by
  unfold insert
  split <;> rfl

/-- The groups in their order, without their matrices. -/
def cleared (c : Outgoing) : Outgoing where
  caller := c.caller
  groups := c.groups.mapEntries fun _ _ => []
  grouped := by
    intro h hh
    obtain ⟨h', _, rfl⟩ := List.mem_map.1 hh
    exact .nil c.caller h'.1

end Outgoing

end ProofCore
