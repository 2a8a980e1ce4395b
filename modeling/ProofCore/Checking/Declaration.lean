import ProofCore.Data.Table
import ProofCore.Syntax.Definition

/-!
# Declarations and modules

A module is a table of declarations by id, in source order. Declaring an id again replaces the
declaration in its place. An example is checked like any other declaration but not exported.
-/
namespace ProofCore

structure Decl where
  definition : Def
  isExample : Bool := false
  deriving DecidableEq

namespace Decl

def id (d : Decl) : DefId := d.definition.id

def name (d : Decl) : String := d.definition.name

end Decl

structure Module where
  table : Table DefId Decl
  id_eq : ∀ e ∈ table.entries, e.2.id = e.1

namespace Module

def empty : Module := ⟨.empty, by simp [Table.empty]⟩

instance : Inhabited Module := ⟨empty⟩

def add (m : Module) (d : Decl) : Module where
  table := m.table.insert d.id d
  id_eq := by
    intro e he
    rcases Table.mem_entries_upsert he with ⟨hk, hv⟩ | h
    · rw [hk, hv]
    · exact m.id_eq e h

def ofDecls (ds : List Decl) : Module := ds.foldl add empty

def decls (m : Module) : List Decl := m.table.values

def ids (m : Module) : List DefId := m.table.keys

def get? (m : Module) (id : DefId) : Option Decl := m.table.get? id

def contains (m : Module) (id : DefId) : Bool := m.table.contains id

def position? (m : Module) (id : DefId) : Option Nat := m.table.position? id

def size (m : Module) : Nat := m.table.size

/-- The name of a declaration, or the text of an id that the module does not declare. -/
def nameOf (m : Module) (id : DefId) : String :=
  match m.get? id with
  | some d => d.name
  | none => id.text

end Module

end ProofCore
