import ProofCore.Syntax.Context

/-!
# Patterns

What a pattern binds, which definitions it refers to, the term that it matches exactly, and the
removal of its holes. A solved hole counts as its solution.
-/
namespace ProofCore.Pattern

/-- The constructor pattern that a numeral pattern stands for, one constructor deep. -/
def constructorForm (value : Nat) (shape : NatShape) : Pattern :=
  match value with
  | 0 => .con shape.data shape.zero 0 [] []
  | n + 1 => .con shape.data shape.suc 0 [] [.numeral n shape]

/-- Replaces the immediate subpatterns and the types that a pattern carries. -/
def mapParts (onPattern : Pattern → Pattern) (onType : Term → Term) : Pattern → Pattern
  | .bind x type => .bind x (onType type)
  | .tuple items => .tuple (items.map onPattern)
  | .con data ctor lift dataArgs args => .con data ctor lift dataArgs (args.map onPattern)
  | .hole solution name type => .hole (solution.map onPattern) name (onType type)
  | .absurd => .absurd
  | .numeral value shape => .numeral value shape

mutual

/-- The variables that a pattern binds with their types, from left to right. -/
def bindings : Pattern → List (Var × Term)
  | .bind x type => [(x, type)]
  | .tuple items => listBindings items
  | .con _ _ _ _ args => listBindings args
  | .hole (some solution) _ _ => solution.bindings
  | .hole none _ _ | .absurd | .numeral _ _ => []

def listBindings : List Pattern → List (Var × Term)
  | [] => []
  | p :: ps => p.bindings ++ listBindings ps

end

@[simp] theorem listBindings_eq_flatMap (ps : List Pattern) :
    listBindings ps = ps.flatMap bindings := by
  induction ps with
  | nil => rfl
  | cons p ps ih => simp [listBindings, ih]

mutual

/-- The definitions a pattern refers to, with repetitions, in reading order. -/
def allRefs : Pattern → List DefId
  | .absurd => []
  | .bind _ type => type.allRefs
  | .tuple items => listAllRefs items
  | .con data _ _ _ args => data :: listAllRefs args
  | .numeral _ shape => [shape.data]
  | .hole (some solution) _ type => solution.allRefs ++ type.allRefs
  | .hole none _ type => type.allRefs

def listAllRefs : List Pattern → List DefId
  | [] => []
  | p :: ps => p.allRefs ++ listAllRefs ps

end

@[simp] theorem listAllRefs_eq_flatMap (ps : List Pattern) :
    listAllRefs ps = ps.flatMap allRefs := by
  induction ps with
  | nil => rfl
  | cons p ps ih => simp [listAllRefs, ih]

/-- The definitions a pattern refers to, each at its first place. -/
def refs (p : Pattern) : List DefId := p.allRefs.eraseDups

inductive ReadBackError where
  | absurd
  deriving DecidableEq, Repr

def ReadBackError.message : ReadBackError → String
  | .absurd => "absurd pattern has no term counterpart"

mutual

/-- The term that a pattern matches with every variable bound to itself. -/
def toTerm : Pattern → Except ReadBackError Term
  | .absurd => .error .absurd
  | .bind x _ => .ok (.free x)
  | .tuple items => do return .tuple (← toTermList items)
  | .con data ctor lift dataArgs args => do
    return .conCall data ctor lift dataArgs (← toTermList args)
  | .numeral value shape => .ok (.numeral value shape)
  | .hole solution name type => .ok (.hole (.hole solution name type))

def toTermList : List Pattern → Except ReadBackError (List Term)
  | [] => .ok []
  | p :: ps => do return (← p.toTerm) :: (← toTermList ps)

end

/-- The context that inlining adds to, and the supply it draws variables from. -/
structure Inlining where
  context : Context
  next : Nat

mutual

/-- Puts solutions in the place of solved holes and a new variable, which joins the context, in
the place of each open one. -/
def inline : Pattern → StateM Inlining Pattern
  | .hole (some solution) _ _ => solution.inline
  | .hole none name type => do
    let state ← get
    let x : Var := ⟨.supplied state.next, name⟩
    set (⟨state.context.insert x type, state.next + 1⟩ : Inlining)
    return .bind x type
  | .tuple items => return .tuple (← inlineList items)
  | .con data ctor lift dataArgs args => return .con data ctor lift dataArgs (← inlineList args)
  | .absurd => return .absurd
  | .bind x type => return .bind x type
  | .numeral value shape => return .numeral value shape

def inlineList : List Pattern → StateM Inlining (List Pattern)
  | [] => return []
  | p :: ps => return (← p.inline) :: (← inlineList ps)

end

end ProofCore.Pattern
