import ProofCore.Checking.Report
import ProofCore.Proofs.ReadBack
import ProofCore.Proofs.TermParts

/-!
# References of a pattern

A pattern refers to the data types of its constructors and numerals and to what the types of its
variables mention. The data arguments of its constructors do not count, but the term that is read
back from it contains them. So the pattern misses some references of the term, namely those that
stand in data arguments only, and a body that mentions a definition there does not depend on it.
-/
namespace ProofCore

namespace Pattern

mutual

/-- The data types of all constructors and numerals in a pattern. -/
def dataTypes : Pattern → List DefId
  | .tuple items => listDataTypes items
  | .con data _ _ _ args => data :: listDataTypes args
  | .numeral _ shape => [shape.data]
  | .hole (some solution) _ _ => solution.dataTypes
  | .hole none _ _ | .absurd | .bind _ _ => []

def listDataTypes : List Pattern → List DefId
  | [] => []
  | p :: ps => p.dataTypes ++ listDataTypes ps

end

@[simp] theorem listDataTypes_eq_flatMap (ps : List Pattern) :
    listDataTypes ps = ps.flatMap dataTypes := by
  induction ps with
  | nil => rfl
  | cons p ps ih => simp [listDataTypes, ih]

mutual

/-- The data arguments of all constructors in a pattern. -/
def dataArguments : Pattern → List Term
  | .tuple items => listDataArguments items
  | .con _ _ _ dataArgs args => dataArgs ++ listDataArguments args
  | .hole (some solution) _ _ => solution.dataArguments
  | .hole none _ _ | .absurd | .bind _ _ | .numeral _ _ => []

def listDataArguments : List Pattern → List Term
  | [] => []
  | p :: ps => p.dataArguments ++ listDataArguments ps

end

@[simp] theorem listDataArguments_eq_flatMap (ps : List Pattern) :
    listDataArguments ps = ps.flatMap dataArguments := by
  induction ps with
  | nil => rfl
  | cons p ps ih => simp [listDataArguments, ih]

section References

variable {p : Pattern} {t : Term} {id : DefId}

/-- The two ways to mention a definition, gathered from the parts. -/
theorem exists_mem_or_iff {α : Type} {ids : Pattern → List DefId} {terms : Pattern → List α}
    {Q : α → Prop} {ps : List Pattern} :
    (∃ q ∈ ps, id ∈ ids q ∨ ∃ a ∈ terms q, Q a) ↔
      id ∈ ps.flatMap ids ∨ ∃ a ∈ ps.flatMap terms, Q a := by
  simp only [List.mem_flatMap, and_or_left, exists_or]
  refine or_congr_right ⟨?_, ?_⟩
  · rintro ⟨q, hq, a, ha, hQ⟩
    exact ⟨a, ⟨q, hq, ha⟩, hQ⟩
  · rintro ⟨a, ⟨q, hq, ha⟩, hQ⟩
    exact ⟨q, hq, a, ha, hQ⟩

/-- Without holes, the references of a pattern are its data types and what the types of its
variables mention. -/
theorem HoleFree.mem_allRefs_iff (hp : p.HoleFree) :
    id ∈ p.allRefs ↔ id ∈ p.dataTypes ∨ ∃ b ∈ p.bindings, id ∈ b.2.allRefs := by
  induction hp with
  | @intro p hkind _ ih =>
    have hparts : id ∈ p.subpatterns.flatMap allRefs ↔ id ∈ p.subpatterns.flatMap dataTypes ∨
        ∃ b ∈ p.subpatterns.flatMap bindings, id ∈ b.2.allRefs := by
      rw [List.mem_flatMap, ← exists_mem_or_iff]
      exact exists_congr fun q => and_congr_right (ih q)
    cases p with
    | tuple items =>
      rw [allRefs, dataTypes, bindings, listAllRefs_eq_flatMap, listDataTypes_eq_flatMap,
        listBindings_eq_flatMap]
      exact hparts
    | con data ctor lift dataArgs args =>
      rw [allRefs, dataTypes, bindings, listAllRefs_eq_flatMap, listDataTypes_eq_flatMap,
        listBindings_eq_flatMap, List.mem_cons, List.mem_cons, or_assoc]
      exact or_congr_right hparts
    | absurd | bind | numeral => simp [allRefs, dataTypes, bindings]
    | hole => simp [kind] at hkind

theorem exists_mem_iff_of_forall₂ {P : Pattern → Prop} {Q : Term → Prop} {ps : List Pattern}
    {ts : List Term} (h : List.Forall₂ (fun p t => Q t ↔ P p) ps ts) :
    (∃ t ∈ ts, Q t) ↔ ∃ p ∈ ps, P p := by
  induction h with
  | nil => simp
  | cons hpt _ ih => simp [hpt, ih]

/-- Without holes, the references of the term that is read back are the data types of the pattern
and what its data arguments mention. -/
theorem HoleFree.mem_allRefs_toTerm_iff (hp : p.HoleFree) (ht : p.toTerm = .ok t) :
    id ∈ t.allRefs ↔ id ∈ p.dataTypes ∨ ∃ a ∈ p.dataArguments, id ∈ a.allRefs := by
  induction hp generalizing t with
  | @intro p hkind _ ih =>
    have hparts : ∀ ts : List Term, List.Forall₂ (fun p t => p.toTerm = .ok t) p.subpatterns ts →
        (id ∈ ts.flatMap Term.allRefs ↔ id ∈ p.subpatterns.flatMap dataTypes ∨
          ∃ a ∈ p.subpatterns.flatMap dataArguments, id ∈ a.allRefs) := by
      intro ts hts
      rw [List.mem_flatMap, ← exists_mem_or_iff]
      exact exists_mem_iff_of_forall₂ (forall₂_of_mem (fun q hq u => ih q hq) hts)
    rw [Term.allRefs_eq_append]
    cases p with
    | bind x type =>
      rw [toTerm] at ht
      cases ht
      simp [Term.headRef?, Term.children, dataTypes, dataArguments]
    | numeral value shape =>
      rw [toTerm] at ht
      cases ht
      simp [Term.headRef?, Term.children, dataTypes, dataArguments]
    | tuple items =>
      obtain ⟨ts, hts, rfl⟩ := toTerm_tuple_eq_ok.mp ht
      simpa [Term.headRef?, Term.children, dataTypes, dataArguments, subpatterns]
        using hparts ts hts
    | con data ctor lift dataArgs args =>
      obtain ⟨ts, hts, rfl⟩ := toTerm_con_eq_ok.mp ht
      -- The data arguments are children of the term but no parts of the pattern.
      calc
        _ ↔ id = data ∨ (∃ a ∈ dataArgs, id ∈ a.allRefs) ∨ id ∈ ts.flatMap Term.allRefs := by
          simp [Term.headRef?, Term.children]
        _ ↔ id = data ∨ (∃ a ∈ dataArgs, id ∈ a.allRefs) ∨ id ∈ args.flatMap dataTypes ∨
              ∃ a ∈ args.flatMap dataArguments, id ∈ a.allRefs :=
          or_congr_right (or_congr_right (hparts ts hts))
        _ ↔ id = data ∨ id ∈ args.flatMap dataTypes ∨ (∃ a ∈ dataArgs, id ∈ a.allRefs) ∨
              ∃ a ∈ args.flatMap dataArguments, id ∈ a.allRefs := by
          rw [or_left_comm (a := ∃ a ∈ dataArgs, id ∈ a.allRefs)]
        _ ↔ _ := by
          simp only [dataTypes, dataArguments, listDataTypes_eq_flatMap,
            listDataArguments_eq_flatMap, List.mem_cons, List.mem_append, or_and_right, exists_or,
            or_assoc]
    | absurd => cases ht
    | hole => simp [kind] at hkind

/-- A pattern without holes misses a reference of the term that is read back from it exactly if
one of its data arguments mentions the definition, which is none of its data types and which no
type of its variables mentions. A body with the pattern in a clause misses the reference exactly if
a data argument mentions it and neither the terms nor the patterns of the body refer to it. -/
theorem missed_refs_iff (hp : p.HoleFree) (ht : p.toTerm = .ok t) (id : DefId) :
    (id ∈ t.refs ∧ id ∉ p.refs ↔
        (∃ a ∈ p.dataArguments, id ∈ a.refs) ∧
          id ∉ p.dataTypes ∧ ∀ b ∈ p.bindings, id ∉ b.2.refs) ∧
      ∀ d : Def, p ∈ d.patterns →
        (id ∈ t.refs ∧ id ∉ d.bodyRefs ↔
          (∃ a ∈ p.dataArguments, id ∈ a.refs) ∧
            (∀ u ∈ d.bodyTerms, id ∉ u.2.refs) ∧ ∀ q ∈ d.patterns, id ∉ q.refs) := by
  have hterm : id ∈ t.allRefs ↔ id ∈ p.dataTypes ∨ ∃ a ∈ p.dataArguments, id ∈ a.allRefs :=
    hp.mem_allRefs_toTerm_iff ht
  have hpat : id ∈ p.allRefs ↔ id ∈ p.dataTypes ∨ ∃ b ∈ p.bindings, id ∈ b.2.allRefs :=
    hp.mem_allRefs_iff
  simp only [Term.refs, refs, Def.bodyRefs, List.mem_eraseDups, List.mem_append, List.mem_flatMap]
  constructor
  · grind
  · intro d hd
    grind

/-- The pattern for the empty list of the given element type. -/
def emptyListOf (element : Term) : Pattern := .con ⟨1⟩ ⟨10⟩ 0 [element] []

/-- An empty list beside a variable; the element type applies a function to the type of the
variable. -/
def besideVariable (x : Var) : Pattern :=
  .tuple [emptyListOf (.app (.fnCall ⟨2⟩ 0 []) (.dataCall ⟨4⟩ 0 [])), .bind x (.dataCall ⟨4⟩ 0 [])]

/-- Of the two definitions that the element type mentions only the function is missed. -/
theorem missed_refs_iff_besideVariable :
    let x : Var := ⟨.supplied 0, "x"⟩
    let element : Term := .app (.fnCall ⟨2⟩ 0 []) (.dataCall ⟨4⟩ 0 [])
    let t : Term := .tuple [.conCall ⟨1⟩ ⟨10⟩ 0 [element] [], .free x]
    (besideVariable x).HoleFree ∧ (besideVariable x).toTerm = .ok t ∧
      (⟨2⟩ ∈ t.refs ∧ ⟨2⟩ ∉ (besideVariable x).refs) ∧
      ¬ (⟨4⟩ ∈ t.refs ∧ ⟨4⟩ ∉ (besideVariable x).refs) := by
  intro x element t
  have hp : (besideVariable x).HoleFree := by simp [besideVariable, emptyListOf]
  have ht : (besideVariable x).toTerm = .ok t := rfl
  have helement : element ∈ (besideVariable x).dataArguments := List.mem_singleton_self element
  refine ⟨hp, ht, (missed_refs_iff hp ht ⟨2⟩).1.mpr ⟨⟨element, helement, ?_⟩, ?_⟩, fun hmissed => ?_⟩
  · decide
  · decide
  · have hfree := ((missed_refs_iff hp ht ⟨4⟩).1.mp hmissed).2.2
    exact hfree (x, .dataCall ⟨4⟩ 0 []) (List.mem_singleton_self _) (by decide)

/-- A function by one clause, for the empty list of an element type that another function gives. -/
def onEmptyList : Def :=
  .fn ⟨⟨3⟩, "f", [⟨"xs", .sort 0, true⟩], .sort 0,
    .clauses [⟨[emptyListOf (.fnCall ⟨2⟩ 0 [])], .sort 0⟩]⟩

/-- The function that gives the element type has an unbound variable in its body. -/
def unheeded : Module :=
  .ofDecls [⟨.data ⟨⟨1⟩, "List", [⟨"A", .sort 0, true⟩], [⟨⟨10⟩, "nil", ⟨1⟩, []⟩]⟩, false⟩,
    ⟨.fn ⟨⟨2⟩, "g", [], .sort 0, .expr (.bound 0)⟩, false⟩, ⟨onEmptyList, false⟩]

/-- A data argument of a clause's pattern mentions a function. The references of the pattern and of
the body lack it, and so the body is accepted although the function is rejected. -/
theorem exists_missed_ref :
    let p : Pattern := emptyListOf (.fnCall ⟨2⟩ 0 [])
    let t : Term := .conCall ⟨1⟩ ⟨10⟩ 0 [.fnCall ⟨2⟩ 0 []] []
    p.HoleFree ∧ p.toTerm = .ok t ∧ ⟨2⟩ ∈ t.refs ∧ ⟨2⟩ ∉ p.refs ∧
      p ∈ onEmptyList.patterns ∧ ⟨2⟩ ∉ onEmptyList.bodyRefs ∧
      ∃ r, unheeded.check 4096 10 = some r ∧ onEmptyList ∈ r.report.accepted ∧
        .body ⟨2⟩ ∈ r.report.failed := by
  intro p t
  have hends : (unheeded.check 4096 10).any (fun r => onEmptyList ∈ r.report.accepted ∧
      .body ⟨2⟩ ∈ r.report.failed) = true := by decide +kernel
  obtain ⟨r, hcheck, hr⟩ := (Option.any_eq_true _ _).mp hends
  exact ⟨by simp [p, emptyListOf], rfl, by decide, by decide, List.mem_singleton_self p, by decide,
    r, hcheck, of_decide_eq_true hr⟩

end References

end Pattern

end ProofCore
