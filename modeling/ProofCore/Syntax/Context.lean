import ProofCore.Data.Table
import ProofCore.Syntax.Term

/-!
# Contexts

The variables in scope with their types, in the order in which they came into scope.
-/
namespace ProofCore

abbrev Context := Table Var Term

namespace Context

/-- Puts the bindings into scope in order, with the types that `f` makes of theirs. -/
def store (ctx : Context) (f : Term → Term) (bindings : List (Var × Term)) : Context :=
  bindings.foldl (fun ctx b => ctx.insert b.1 (f b.2)) ctx

end Context

end ProofCore
