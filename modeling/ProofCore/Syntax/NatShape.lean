import ProofCore.Syntax.Definition

/-!
# Types of natural numbers

A data type without parameters that has exactly two constructors, one without arguments and one
that takes a value of the type itself, is a type of natural numbers. Its values may be written
as numerals. `Shapes` keeps the types that were recognised, in order.
-/
namespace ProofCore

namespace NatShape

/-- Whether `t` is the data type `id` itself, applied to nothing. -/
def isSelf (id : DefId) : Term → Bool
  | .dataCall data _ [] => data = id
  | _ => false

/-- Whether a constructor of `id` takes exactly one argument, of the type itself. -/
def isSuc (id : DefId) (c : ConDef) : Bool :=
  match c.telescope with
  | [p] => isSelf id p.type
  | _ => false

def ofDataDef? (d : DataDef) : Option NatShape :=
  if d.telescope.isEmpty && d.constructors.length = 2 then do
    let zero ← d.constructors.find? fun c => c.telescope.isEmpty
    let suc ← d.constructors.find? (isSuc d.id)
    return ⟨d.id, zero.id, suc.id⟩
  else none

def ofDef? : Def → Option NatShape
  | .fn _ => none
  | .data d => ofDataDef? d

/-- The ids that a type of natural numbers called `name` has. -/
def named (name : String) : NatShape where
  data := .ofName name
  zero := .ofName (name ++ "::zero")
  suc := .ofName (name ++ "::suc")

def type (s : NatShape) : Term := .dataCall s.data 0 []

def zeroTerm (s : NatShape) : Term := .conCall s.data s.zero 0 [] []

def sucTerm (s : NatShape) (t : Term) : Term := .conCall s.data s.suc 0 [] [t]

def zeroPattern (s : NatShape) : Pattern := .con s.data s.zero 0 [] []

def sucPattern (s : NatShape) (p : Pattern) : Pattern := .con s.data s.suc 0 [] [p]

/-- The declaration of a type of natural numbers called `name`. -/
def definition (s : NatShape) (name : String) : DataDef where
  id := s.data
  name := name
  telescope := []
  constructors := [
    ⟨s.zero, "zero", s.data, []⟩,
    ⟨s.suc, "suc", s.data, [⟨"n", s.type, true⟩]⟩]

theorem ofDataDef?_definition (s : NatShape) (name : String) :
    ofDataDef? (s.definition name) = some s := by
  simp [ofDataDef?, definition, isSuc, isSelf, type]

end NatShape

/-- The recognised types of natural numbers. -/
structure Shapes where
  found : Table DefId NatShape

namespace Shapes

def empty : Shapes := ⟨∅⟩

/-- Keeps the shape of a definition that has one. -/
def learn (shapes : Shapes) (d : Def) : Shapes :=
  match NatShape.ofDef? d with
  | some shape => ⟨shapes.found.insert d.id shape⟩
  | none => shapes

def find? (shapes : Shapes) (data : DefId) : Option NatShape := shapes.found.get? data

/-- The numeral `n` of a recognised type. -/
def numeral? (shapes : Shapes) (data : DefId) (n : Nat) : Option Term :=
  (shapes.find? data).map (.numeral n)

def size (shapes : Shapes) : Nat := shapes.found.size

end Shapes

end ProofCore
