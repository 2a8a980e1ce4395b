/-!
# Names

Definitions are known by a 64-bit id, variables by an identity that no other variable has.
The display name of a variable is for the reader of its output.
-/
namespace ProofCore

structure DefId where
  val : UInt64
  deriving DecidableEq, Repr, Inhabited

namespace DefId

/-- The 64-bit FNV-1a hash of a list of bytes. -/
def hashBytes (bytes : List UInt8) : UInt64 :=
  bytes.foldl (fun hash byte => (hash ^^^ byte.toUInt64) * 1099511628211) 14695981039346656037

/-- The id of the definition called `name`, the hash of `def:` followed by the name. -/
def ofName (name : String) : DefId := ⟨hashBytes ("def:" ++ name).toUTF8.data.toList⟩

/-- How a message shows an id that has no name. -/
def text (id : DefId) : String := "DefId(" ++ toString id.val.toNat ++ ")"

end DefId

/-- Where a variable comes from, which is what tells it apart from all others. -/
inductive VarId where
  /-- The `index`-th variable drawn from the supply. -/
  | supplied (index : Nat)
  /-- Stands for a parameter of `fn` while its expression body is inspected; `copy` tells apart
  definitions that share an id. -/
  | param (fn : DefId) (copy index : Nat)
  deriving DecidableEq, Repr

/-- A variable; the supply and the telescopes give one name to each identity. -/
structure Var where
  id : VarId
  name : String
  deriving DecidableEq, Repr

end ProofCore
