import ProofCore.Checking.Declaration
import ProofCore.Data.Digraph

/-!
# Dependencies between declarations

The signature and the body of a declaration are checked separately. A signature depends on the
signatures that it refers to, a body on its own signature and on the bodies that it refers to.
Only what the module declares counts.
-/
namespace ProofCore

/-- A part of a declaration that is checked as one. -/
inductive CheckUnit where
  | head (id : DefId)
  | body (id : DefId)
  deriving DecidableEq, Repr

namespace CheckUnit

def id : CheckUnit → DefId
  | .head id => id
  | .body id => id

def isHead : CheckUnit → Bool
  | .head _ => true
  | .body _ => false

def text : CheckUnit → String
  | .head id => "Head(" ++ id.text ++ ")"
  | .body id => "Body(" ++ id.text ++ ")"

end CheckUnit

abbrev DependencyGraph := Digraph CheckUnit

namespace DependencyGraph

/-- The units of a declaration, the body after the signature. -/
def addDecl (g : DependencyGraph) (d : Decl) : DependencyGraph :=
  (g.addVertex (.head d.id)).addEdge (.body d.id) (.head d.id)

/-- The edges for what a declaration of `m` refers to. -/
def addRefs (m : Module) (g : DependencyGraph) (d : Decl) : DependencyGraph :=
  let heads := (d.definition.headerRefs.filter m.contains).foldl
    (fun g r => g.addEdge (.head d.id) (.head r)) g
  (d.definition.bodyRefs.filter m.contains).foldl
    (fun g r => g.addEdge (.body d.id) (.body r)) heads

def ofModule (m : Module) : DependencyGraph :=
  m.decls.foldl (addRefs m) (m.decls.foldl addDecl .empty)

/-- Whether a member of the group has an edge to one of `units` outside the group. -/
def dependsOnAny (g : DependencyGraph) (group units : List CheckUnit) : Bool :=
  group.any fun u => (g.successors u).any fun v => v ∈ units ∧ v ∉ group

end DependencyGraph

end ProofCore
