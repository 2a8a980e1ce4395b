import ProofCore.Checking.Component

/-!
# Checking a module

The components of the dependency graph are checked in order, dependencies first. A component
that depends on one that failed or was skipped is skipped in turn, unless that is switched off.
-/
namespace ProofCore

/-- The accepted definitions in the order of their acceptance, and the units that were not. -/
structure Report where
  accepted : List Def
  failed : List CheckUnit
  skipped : List CheckUnit

namespace Report

def isSuccess (r : Report) : Bool := r.failed.isEmpty && r.skipped.isEmpty

def names (r : Report) : List String := r.accepted.map Def.name

end Report

/-- How far the check of a module has come; `poisoned` are the units not to be relied on. -/
structure Progress (κ ρ : Type) where
  session : Session κ ρ
  poisoned : List CheckUnit := []
  failed : List CheckUnit := []
  skipped : List CheckUnit := []

namespace Progress

variable {κ ρ : Type}

def report (p : Progress κ ρ) : Report := ⟨p.session.accepted, p.failed, p.skipped⟩

end Progress

namespace Setup

variable {κ ρ : Type}

def skipNotice (c : Setup κ ρ) (group : List CheckUnit) : Diagnostic :=
  let names := group.map fun u => c.module.nameOf u.id
  { level := .warning
    code := some "W0301"
    message := "Skipped " ++ ", ".intercalate names ++ " because a dependency failed to check"
    decls := names }

/-- Skips or checks the next component. -/
def step (c : Setup κ ρ) (skipDependents : Bool) (p : Progress κ ρ) (group : List CheckUnit) :
    Option (Progress κ ρ) := do
  if skipDependents && c.graph.dependsOnAny group p.poisoned then
    return { p with
      session := p.session.report (c.skipNotice group)
      poisoned := p.poisoned ++ group
      skipped := p.skipped ++ group }
  else
    match ← c.checkComponent group p.session with
    | (.ok (), s) => return { p with session := s }
    | (.error failure, s) =>
      return { p with
        session := s
        poisoned := p.poisoned ++ group
        failed := p.failed ++ failure.units }

/-- Checks all components of the dependency graph. -/
def run (c : Setup κ ρ) (skipDependents : Bool) (s : Session κ ρ) : Option (Progress κ ρ) :=
  c.graph.components.foldlM (c.step skipDependents) { session := s }

end Setup

namespace Module

/-- The usual settings: the scope checker, and examples are checked but not kept. -/
def setup (m : Module) (stack : Nat) : Setup ScopeState Shapes where
  module := m
  graph := .ofModule m
  checker := scopeChecker
  learn := Shapes.learn
  stack := stack

/-- The session that the check of a module starts from; each evaluation may use `fuel` unfoldings. -/
def freshSession (fuel : Nat) (m : Module) : Session ScopeState Shapes where
  checker := .ofModule m
  shapes := .empty
  env := { fuel := fuel }

/-- Checks a module with the usual settings. -/
def check (fuel stack : Nat) (m : Module) : Option (Progress ScopeState Shapes) :=
  (m.setup stack).run true (m.freshSession fuel)

end Module

end ProofCore
