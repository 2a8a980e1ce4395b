import ProofCore.Proofs.ComponentPhases

/-!
# Failed components

However far the check of a component has come when it fails, nothing that was established before
is lost and nothing of the component stays. The moves of a check add signatures that were not
known, and note each of them as fresh, so that to forget the fresh ones is to go back to where the
check began.
-/
namespace ProofCore

namespace Session

variable {κ ρ : Type} {s t u : Session κ ρ}

/-- Nothing was accepted from `s` to `t`, and the signatures learned on the way are fresh. -/
structure Learns (s t : Session κ ρ) (new : List DefId) : Prop where
  accepted : t.accepted = s.accepted
  env : t.env = s.env
  shapes : t.shapes = s.shapes
  headers : t.headers = s.headers ++ new
  fresh : t.fresh = s.fresh ++ new
  new_notMem : ∀ id ∈ new, id ∉ s.headers

theorem Learns.refl (s : Session κ ρ) : s.Learns s [] :=
  ⟨rfl, rfl, rfl, (List.append_nil _).symm, (List.append_nil _).symm, by simp⟩

theorem Learns.trans {new new' : List DefId} (h : s.Learns t new) (h' : t.Learns u new') :
    s.Learns u (new ++ new') := by
  refine ⟨h'.accepted.trans h.accepted, h'.env.trans h.env, h'.shapes.trans h.shapes, ?_, ?_, ?_⟩
  · rw [h'.headers, h.headers, List.append_assoc]
  · rw [h'.fresh, h.fresh, List.append_assoc]
  · intro id hid
    rcases List.mem_append.mp hid with hid | hid
    · exact h.new_notMem id hid
    · intro hold
      apply h'.new_notMem id hid
      rw [h.headers]
      exact List.mem_append_left _ hold

theorem Learns.reportAll {new : List DefId} (h : s.Learns t new) (ds : List Diagnostic) :
    s.Learns (t.reportAll ds) new := by
  induction ds generalizing t with
  | nil => exact h
  | cons d ds ih =>
    exact ih (t := t.report d)
      ⟨h.accepted, h.env, h.shapes, h.headers, h.fresh, h.new_notMem⟩

/-- Asking the checker teaches no signature. -/
theorem learns_ask (s : Session κ ρ) (k : κ) (ds : List Diagnostic) :
    s.Learns (({ s with checker := k } : Session κ ρ).reportAll ds) [] := by
  have hasked : s.Learns { s with checker := k } [] :=
    ⟨rfl, rfl, rfl, (List.append_nil _).symm, (List.append_nil _).symm, by simp⟩
  exact hasked.reportAll ds

/-- A rollback forgets exactly what was learned since there was nothing fresh. -/
theorem Learns.headers_rollback {new : List DefId} (h : s.Learns t new) (hfresh : s.fresh = []) :
    t.rollback.headers = s.headers := by
  have hnew : t.fresh = new := by rw [h.fresh, hfresh, List.nil_append]
  have hold : s.headers.filter (· ∉ new) = s.headers := by
    rw [List.filter_eq_self]
    intro id hid
    rw [decide_eq_true_eq]
    exact fun hmem => h.new_notMem id hmem hid
  have hgone : new.filter (· ∉ new) = [] := by simp
  change t.headers.filter (· ∉ t.fresh) = s.headers
  rw [hnew, h.headers, List.filter_append, hold, hgone, List.append_nil]

end Session

namespace Setup

variable {κ ρ : Type} {c : Setup κ ρ} {s t : Session κ ρ}

theorem learns_know {d : Decl} (hnew : d.id ∉ s.headers) :
    s.Learns ((c.askHeader s d).know d.id) [d.id] := by
  have hasked : s.Learns (c.askHeader s d) [] := s.learns_ask _ _
  have hknows : (c.askHeader s d).Learns ((c.askHeader s d).know d.id) [d.id] := by
    refine ⟨rfl, rfl, rfl, rfl, rfl, ?_⟩
    rw [hasked.headers]
    simpa using hnew
  exact hasked.trans hknows

theorem Move.learns (h : c.Move s t) : ∃ new, s.Learns t new := by
  cases h with
  | report f => exact ⟨[], (Session.Learns.refl s).reportAll [f.diagnostic]⟩
  | rejectHeader d new bad => exact ⟨[], s.learns_ask _ _⟩
  | acceptHeader d new good => exact ⟨[d.id], learns_know new⟩
  | askBody d => exact ⟨[], s.learns_ask _ _⟩

theorem learns_of_moves (h : Relation.ReflTransGen c.Move s t) : ∃ new, s.Learns t new := by
  induction h with
  | refl => exact ⟨[], .refl s⟩
  | tail _ hmove ih =>
    obtain ⟨new, hnew⟩ := ih
    obtain ⟨new', hnew'⟩ := hmove.learns
    exact ⟨new ++ new', hnew.trans hnew'⟩

/-- What a failed component has learned is forgotten. -/
theorem exists_learns_of_checkComponent_error {group : List CheckUnit} {failure : Failure}
    (h : c.checkComponent group s = some (.error failure, t)) :
    ∃ u new, t = u.rollback ∧ ({ s with fresh := [] } : Session κ ρ).Learns u new := by
  rcases checkComponent_cases h with ⟨_, _, -, hr, -⟩ | ⟨_, r₀, t₀, calls, ids, hexamine, -, rfl⟩
  · cases hr
  · obtain ⟨new, hlearns⟩ := learns_of_moves (onlyMoves_examine group _ r₀ t₀ hexamine)
    exact ⟨_, new, rfl, hlearns.reportAll _⟩

/-- A component that fails leaves the accepted definitions, the functions to unfold, the shapes and
the known signatures as they were, and nothing counted. -/
theorem checkComponent_error_restores {group : List CheckUnit} {failure : Failure}
    (h : c.checkComponent group s = some (.error failure, t)) :
    t.accepted = s.accepted ∧ t.env = s.env ∧ t.shapes = s.shapes ∧ t.headers = s.headers ∧
      t.tally.errors = 0 ∧ t.tally.warnings = 0 := by
  obtain ⟨u, new, rfl, hlearns⟩ := exists_learns_of_checkComponent_error h
  have hheaders : u.rollback.headers = s.headers := hlearns.headers_rollback rfl
  exact ⟨hlearns.accepted, hlearns.env, hlearns.shapes, hheaders, rfl, rfl⟩

/-- A function that passes its argument on as it is. -/
def forwarding (id other : DefId) : Decl where
  definition := .fn
    { id := id
      name := "f"
      telescope := [⟨"x", .sort 0, true⟩]
      result := .sort 0
      body := .clauses [⟨[.bind ⟨.supplied 0, "x"⟩ (.sort 0)], .fnCall other 0 [.bound 0]⟩] }

/-- Two functions that call each other for ever. -/
def pingPong : Setup ScopeState Shapes where
  module := .ofDecls [forwarding ⟨2⟩ ⟨3⟩, forwarding ⟨3⟩ ⟨2⟩]
  graph := .ofModule (.ofDecls [forwarding ⟨2⟩ ⟨3⟩, forwarding ⟨3⟩ ⟨2⟩])
  checker := scopeChecker
  learn := Shapes.learn
  stack := 10

/-- Signatures and bodies are good, so it is only their recursion that fails. -/
theorem checkComponent_error_restores_pingPong :
    ∃ failure t,
      pingPong.checkComponent [.body ⟨2⟩, .body ⟨3⟩]
        ⟨{}, .empty, {}, [⟨1⟩], [], [(forwarding ⟨1⟩ ⟨1⟩).definition], ⟨0, 1⟩, []⟩ =
          some (.error failure, t) ∧
      t.accepted = [(forwarding ⟨1⟩ ⟨1⟩).definition] ∧ t.env = {} ∧ t.shapes = .empty ∧
      t.headers = [⟨1⟩] ∧ t.tally.errors = 0 ∧ t.tally.warnings = 0 := by
  have hfails : (pingPong.checkComponent [.body ⟨2⟩, .body ⟨3⟩]
      ⟨{}, .empty, {}, [⟨1⟩], [], [(forwarding ⟨1⟩ ⟨1⟩).definition], ⟨0, 1⟩, []⟩).any
        (fun p => p.1.toOption.isNone ∧ p.2.checker.headers = [⟨2⟩, ⟨3⟩] ∧
          p.2.reported.map Diagnostic.code = [some "E0304", some "E0304"]) = true := by
    decide +kernel
  match hcheck : pingPong.checkComponent [.body ⟨2⟩, .body ⟨3⟩]
      ⟨{}, .empty, {}, [⟨1⟩], [], [(forwarding ⟨1⟩ ⟨1⟩).definition], ⟨0, 1⟩, []⟩ with
  | none => simp [hcheck] at hfails
  | some (.ok _, t) => simp [hcheck, Except.toOption] at hfails
  | some (.error failure, t) => exact ⟨failure, t, rfl, checkComponent_error_restores hcheck⟩

end Setup

end ProofCore
