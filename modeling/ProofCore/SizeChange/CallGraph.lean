import ProofCore.Data.StrongComponents
import ProofCore.SizeChange.Outgoing

/-!
# Call graphs

The calls between definitions, as call matrices without repetition, by caller and callee. Each
caller stands at the place where its first call was recorded.
-/
namespace ProofCore

structure CallGraph where
  calls : Table DefId Outgoing
  caller_eq : ∀ f ∈ calls.entries, f.2.caller = f.1

namespace CallGraph

def empty : CallGraph := ⟨.empty, by simp [Table.empty]⟩

instance : Inhabited CallGraph := ⟨empty⟩

/-- The calls that one definition makes. -/
def outgoing (g : CallGraph) (caller : DefId) : Outgoing :=
  (g.calls.get? caller).getD (.empty caller)

@[simp] theorem caller_outgoing (g : CallGraph) (caller : DefId) :
    (g.outgoing caller).caller = caller := by
  unfold outgoing
  cases h : g.calls.get? caller with
  | none => rfl
  | some c => exact g.caller_eq _ (Table.mem_entries_of_get? h)

/-- The matrices between two definitions, as they were recorded. -/
def matricesBetween (g : CallGraph) (caller callee : DefId) : List CallMatrix :=
  (g.outgoing caller).matricesTo callee

/-- The matrices of one caller, grouped by callee. -/
def callsFrom (g : CallGraph) (caller : DefId) : List CallMatrix := (g.outgoing caller).matrices

/-- All matrices, grouped by caller and callee. -/
def matrices (g : CallGraph) : List CallMatrix := g.calls.values.flatMap Outgoing.matrices

def size (g : CallGraph) : Nat := g.matrices.length

/-- Whether a matrix with the same relations is in the graph. -/
def contains (g : CallGraph) (a : CallMatrix) : Bool := (g.outgoing a.caller).contains a

/-- Adds a matrix unless its relations are known. -/
def insert (g : CallGraph) (a : CallMatrix) : CallGraph where
  calls := g.calls.upsert a.caller fun c => (c.getD (.empty a.caller)).insert a
  caller_eq := by
    intro f hf
    rcases Table.mem_entries_upsert hf with ⟨hcaller, hcalls⟩ | hf
    · rw [hcalls, Outgoing.caller_insert, hcaller]
      exact g.caller_outgoing a.caller
    · exact g.caller_eq f hf

/-- The definitions grouped by mutual recursion, callees first. -/
def components (g : CallGraph) : List (List DefId) :=
  (g.matrices.foldl (fun d a => d.addEdge a.caller a.callee) Digraph.empty).components

end CallGraph

end ProofCore
