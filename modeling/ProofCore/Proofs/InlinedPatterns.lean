import ProofCore.Proofs.ReadBack
import ProofCore.Proofs.TableLookup

/-!
# Patterns without their holes

Inlining draws one variable for each open hole, from left to right, and puts it into the context. It
leaves the variables that the pattern binds already in their order, with the new ones among them
(`Interleaves`). As all other variables were drawn before, the new ones can be told apart from them,
and taking them out of the bindings gives the bindings of the pattern back.
-/
namespace ProofCore

mutual

/-- The variables that occur in a term, also within its holes, with repetitions. -/
def Term.allVars : Term → List Var
  | .free x => [x]
  | .lam body => body.allVars
  | .app fn arg => fn.allVars ++ arg.allVars
  | .tuple items => Term.listAllVars items
  | .proj whole _ => whole.allVars
  | .pathApp fn arg => fn.allVars ++ arg.allVars
  | .fnCall _ _ args => Term.listAllVars args
  | .dataCall _ _ args => Term.listAllVars args
  | .conCall _ _ _ dataArgs args => Term.listAllVars dataArgs ++ Term.listAllVars args
  | .hole pattern => pattern.allVars
  | .bound _ | .numeral _ _ | .sort _ => []

def Term.listAllVars : List Term → List Var
  | [] => []
  | t :: ts => t.allVars ++ Term.listAllVars ts

/-- The variables that a pattern binds and those that its types and data arguments mention. -/
def Pattern.allVars : Pattern → List Var
  | .bind x type => x :: type.allVars
  | .tuple items => Pattern.listAllVars items
  | .con _ _ _ dataArgs args => Term.listAllVars dataArgs ++ Pattern.listAllVars args
  | .hole (some solution) _ type => solution.allVars ++ type.allVars
  | .hole none _ type => type.allVars
  | .absurd | .numeral _ _ => []

def Pattern.listAllVars : List Pattern → List Var
  | [] => []
  | p :: ps => p.allVars ++ Pattern.listAllVars ps

end

/-- The variables of a context and those that its types mention. -/
def Context.allVars (ctx : Context) : List Var := ctx.entries.flatMap fun e => e.1 :: e.2.allVars

/-- Whether a variable is none of those that the supply gives out from the `next`-th on. -/
def Var.drawnBefore (next : ℕ) (x : Var) : Bool :=
  match x.id with
  | .supplied index => index < next
  | .param _ _ _ => true

section Interleaving

variable {α : Type} {xs xs' ys ys' zs zs' : List α}

/-- The third list is made of the entries of the first two, each of which keeps its order. -/
inductive Interleaves : List α → List α → List α → Prop
  | nil : Interleaves [] [] []
  | left (x : α) {xs ys zs : List α} : Interleaves xs ys zs → Interleaves (x :: xs) ys (x :: zs)
  | right (y : α) {xs ys zs : List α} : Interleaves xs ys zs → Interleaves xs (y :: ys) (y :: zs)

theorem Interleaves.append (h : Interleaves xs ys zs) (h' : Interleaves xs' ys' zs') :
    Interleaves (xs ++ xs') (ys ++ ys') (zs ++ zs') := by
  induction h with
  | nil => exact h'
  | left x _ ih => exact .left x ih
  | right y _ ih => exact .right y ih

/-- What tells the two lists apart takes the second one out again. -/
theorem Interleaves.filter_eq {keep : α → Bool} (h : Interleaves xs ys zs)
    (hxs : ∀ x ∈ xs, keep x = true) (hys : ∀ y ∈ ys, keep y = false) : zs.filter keep = xs := by
  induction h with
  | nil => rfl
  | left x _ ih =>
    rw [List.forall_mem_cons] at hxs
    rw [List.filter_cons_of_pos hxs.1, ih hxs.2 hys]
  | right y _ ih =>
    rw [List.forall_mem_cons] at hys
    rw [List.filter_cons_of_neg (by simp [hys.1]), ih hxs hys.2]

end Interleaving

theorem upsertEntry_eq_append {κ ν : Type} [DecidableEq κ] {k : κ} (f : Option ν → ν)
    {es : List (κ × ν)} (hk : k ∉ es.map Prod.fst) : upsertEntry k f es = es ++ [(k, f none)] := by
  induction es with
  | nil => rfl
  | cons e rest ih =>
    obtain ⟨k', v⟩ := e
    rw [List.map_cons, List.mem_cons, not_or] at hk
    rw [upsertEntry, if_neg (Ne.symm hk.1), ih hk.2, List.cons_append]

/-- Bindings whose variables are new go to the end of a context. -/
theorem Context.entries_store {ctx : Context} {f : Term → Term} {bindings : List (Var × Term)}
    (hnodup : (bindings.map Prod.fst).Nodup) (hnew : ∀ b ∈ bindings, b.1 ∉ ctx.keys) :
    (ctx.store f bindings).entries = ctx.entries ++ bindings.map fun b => (b.1, f b.2) := by
  induction bindings generalizing ctx with
  | nil => simp [store]
  | cons b bindings ih =>
    rw [List.map_cons, List.nodup_cons] at hnodup
    rw [List.forall_mem_cons] at hnew
    have hentries : (ctx.insert b.1 (f b.2)).entries = ctx.entries ++ [(b.1, f b.2)] :=
      upsertEntry_eq_append _ hnew.1
    have hrest : ∀ c ∈ bindings, c.1 ∉ (ctx.insert b.1 (f b.2)).keys := by
      intro c hc hmem
      rw [Table.insert, Table.mem_keys_upsert] at hmem
      rcases hmem with hmem | heq
      · exact hnew.2 c hc hmem
      · exact hnodup.1 (heq ▸ List.mem_map_of_mem hc)
    have hstore := ih hnodup.2 hrest
    rw [hentries, List.append_assoc] at hstore
    exact hstore

namespace Pattern

mutual

/-- The names and types of the open holes of a pattern, from left to right. -/
def openHoles : Pattern → List (String × Term)
  | .hole none name type => [(name, type)]
  | .hole (some solution) _ _ => solution.openHoles
  | .tuple items => listOpenHoles items
  | .con _ _ _ _ args => listOpenHoles args
  | .absurd | .bind _ _ | .numeral _ _ => []

def listOpenHoles : List Pattern → List (String × Term)
  | [] => []
  | p :: ps => p.openHoles ++ listOpenHoles ps

end

@[simp] theorem listOpenHoles_eq_flatMap (ps : List Pattern) :
    listOpenHoles ps = ps.flatMap openHoles := by
  induction ps with
  | nil => rfl
  | cons p ps ih => simp [listOpenHoles, ih]

@[simp] theorem listAllVars_eq_flatMap (ps : List Pattern) :
    listAllVars ps = ps.flatMap allVars := by
  induction ps with
  | nil => rfl
  | cons p ps ih => simp [listAllVars, ih]

theorem mem_allVars_of_mem_bindings {p : Pattern} {b : Var × Term} (h : b ∈ p.bindings) :
    b.1 ∈ p.allVars := by
  induction p using subpatternInduction with
  | step p ih =>
    cases p with
    | bind x type =>
      rw [bindings, List.mem_singleton] at h
      simp [allVars, h]
    | tuple items =>
      rw [bindings, listBindings_eq_flatMap, List.mem_flatMap] at h
      obtain ⟨q, hq, hb⟩ := h
      rw [allVars, listAllVars_eq_flatMap, List.mem_flatMap]
      exact ⟨q, hq, ih q hq hb⟩
    | con data ctor lift dataArgs args =>
      rw [bindings, listBindings_eq_flatMap, List.mem_flatMap] at h
      obtain ⟨q, hq, hb⟩ := h
      rw [allVars, listAllVars_eq_flatMap, List.mem_append, List.mem_flatMap]
      exact .inr ⟨q, hq, ih q hq hb⟩
    | hole solution name type =>
      cases solution with
      | none => simp [bindings] at h
      | some q =>
        rw [bindings] at h
        rw [allVars, List.mem_append]
        exact .inl (ih q (by simp [subpatterns]) h)
    | absurd | numeral => simp [bindings] at h

/-- The variables that the supply gives for holes, the first one being the `next`-th. -/
def drawn (next : ℕ) : List (String × Term) → List (Var × Term)
  | [] => []
  | (name, type) :: holes => (⟨.supplied next, name⟩, type) :: drawn (next + 1) holes

section Drawing

variable {next : ℕ} {holes holes' : List (String × Term)}

theorem drawn_append :
    drawn next (holes ++ holes') = drawn next holes ++ drawn (next + holes.length) holes' := by
  induction holes generalizing next with
  | nil => rfl
  | cons hole holes ih => simp [drawn, ih, Nat.add_comm, Nat.add_left_comm]

theorem map_drawn : (drawn next holes).map (fun b => (b.1.name, b.2)) = holes := by
  induction holes generalizing next with
  | nil => rfl
  | cons hole holes ih => simp [drawn, ih]

theorem length_drawn : (drawn next holes).length = holes.length := by
  rw [← List.length_map, map_drawn]

theorem map_id_drawn :
    (drawn next holes).map (fun b => b.1.id) = (List.range' next holes.length).map .supplied := by
  induction holes generalizing next with
  | nil => rfl
  | cons hole holes ih => simp [drawn, ih, List.range'_succ]

theorem nodup_id_drawn : ((drawn next holes).map fun b => b.1.id).Nodup := by
  rw [map_id_drawn]
  exact (List.nodup_range').map fun i j h => VarId.supplied.inj h

theorem nodup_fst_drawn : ((drawn next holes).map Prod.fst).Nodup := by
  apply List.Nodup.of_map Var.id
  rw [List.map_map]
  exact nodup_id_drawn

/-- What was drawn before is not drawn again. -/
theorem id_notMem_drawn {x : Var} (hx : x.drawnBefore next = true) :
    x.id ∉ (drawn next holes).map fun b => b.1.id := by
  rw [map_id_drawn]
  intro hmem
  obtain ⟨i, hi, heq⟩ := List.mem_map.mp hmem
  rw [Var.drawnBefore, ← heq, decide_eq_true_eq] at hx
  have hle := (List.mem_range'_1.mp hi).1
  omega

/-- The context and the supply after one variable has been drawn for each of the holes. -/
def Inlining.draw (s : Inlining) (holes : List (String × Term)) : Inlining :=
  ⟨s.context.store id (drawn s.next holes), s.next + holes.length⟩

theorem Inlining.draw_append (s : Inlining) :
    s.draw (holes ++ holes') = (s.draw holes).draw holes' := by
  simp [draw, drawn_append, Context.store, List.foldl_append, Nat.add_assoc]

end Drawing

section Inlining

variable {p q : Pattern} {ps : List Pattern} {s : Inlining}

theorem inline_tuple (items : List Pattern) (s : Inlining) :
    (tuple items).inline s = (tuple (inlineList items s).1, (inlineList items s).2) := by
  rw [inline]
  rfl

theorem inline_con (data ctor : DefId) (lift : ℕ) (dataArgs : List Term) (args : List Pattern)
    (s : Inlining) :
    (con data ctor lift dataArgs args).inline s =
      (con data ctor lift dataArgs (inlineList args s).1, (inlineList args s).2) := by
  rw [inline]
  rfl

theorem inlineList_cons (p : Pattern) (ps : List Pattern) (s : Inlining) :
    inlineList (p :: ps) s =
      ((p.inline s).1 :: (inlineList ps (p.inline s).2).1, (inlineList ps (p.inline s).2).2) := by
  rw [inlineList]
  rfl

/-- What inlining makes of a pattern. -/
structure Inlined (p : Pattern) (s : Inlining) (r : Pattern × Inlining) : Prop where
  holeFree : r.1.HoleFree
  state : r.2 = s.draw p.openHoles
  bindings : Interleaves p.bindings (drawn s.next p.openHoles) r.1.bindings

/-- What inlining makes of patterns, one after the other. -/
structure InlinedList (ps : List Pattern) (s : Inlining) (r : List Pattern × Inlining) : Prop where
  holeFree : ∀ q ∈ r.1, q.HoleFree
  state : r.2 = s.draw (ps.flatMap openHoles)
  bindings : Interleaves (ps.flatMap Pattern.bindings) (drawn s.next (ps.flatMap openHoles))
    (r.1.flatMap Pattern.bindings)

theorem inlinedList (h : ∀ p ∈ ps, ∀ s, Inlined p s (p.inline s)) (s : Inlining) :
    InlinedList ps s (inlineList ps s) := by
  induction ps generalizing s with
  | nil => exact ⟨by simp [inlineList, pure, StateT.pure], rfl, .nil⟩
  | cons p ps ih =>
    rw [List.forall_mem_cons] at h
    have hp := h.1 s
    have hps := ih h.2 (p.inline s).2
    rw [inlineList_cons]
    constructor
    · exact List.forall_mem_cons.mpr ⟨hp.holeFree, hps.holeFree⟩
    · rw [hps.state, hp.state, List.flatMap_cons, Inlining.draw_append]
    · rw [List.flatMap_cons, List.flatMap_cons, List.flatMap_cons, drawn_append]
      apply hp.bindings.append
      have hnext : (p.inline s).2.next = s.next + p.openHoles.length := by rw [hp.state]; rfl
      exact hnext ▸ hps.bindings

theorem inlined (p : Pattern) (s : Inlining) : Inlined p s (p.inline s) := by
  induction p using subpatternInduction generalizing s with
  | step p ih =>
    cases p with
    | tuple items =>
      have hitems : InlinedList items s (inlineList items s) := inlinedList ih s
      rw [inline_tuple]
      exact ⟨by simpa using hitems.holeFree, by simpa [openHoles] using hitems.state,
        by simpa [openHoles, Pattern.bindings] using hitems.bindings⟩
    | con data ctor lift dataArgs args =>
      have hargs : InlinedList args s (inlineList args s) := inlinedList ih s
      rw [inline_con]
      exact ⟨by simpa using hargs.holeFree, by simpa [openHoles] using hargs.state,
        by simpa [openHoles, Pattern.bindings] using hargs.bindings⟩
    | hole solution name type =>
      cases solution with
      | none => exact ⟨madeOf_bind.mpr (by simp), rfl, .right _ .nil⟩
      | some q =>
        have hq := ih q (by simp [subpatterns]) s
        rw [inline]
        exact ⟨hq.holeFree, by simpa [openHoles] using hq.state,
          by simpa [openHoles, Pattern.bindings] using hq.bindings⟩
    | bind x type => exact ⟨madeOf_bind.mpr (by simp), rfl, .left _ .nil⟩
    | numeral value shape => exact ⟨madeOf_numeral.mpr (by simp), rfl, .nil⟩
    | absurd => exact ⟨madeOf_absurd.mpr (by simp), rfl, .nil⟩

theorem inlineList_eq (ps : List Pattern) (h : ∀ p ∈ ps, ∀ s, p.inline s = (p, s))
    (s : Inlining) : inlineList ps s = (ps, s) := by
  induction ps with
  | nil => rfl
  | cons p ps ih =>
    rw [List.forall_mem_cons] at h
    rw [inlineList_cons, h.1 s, ih h.2]

/-- Where there is no hole, inlining has nothing to do. -/
theorem HoleFree.inline_eq (h : p.HoleFree) (s : Inlining) : p.inline s = (p, s) := by
  induction h generalizing s with
  | @intro p hkind _ ih =>
    cases p with
    | tuple items => rw [inline_tuple, inlineList_eq items ih s]
    | con data ctor lift dataArgs args => rw [inline_con, inlineList_eq args ih s]
    | hole => simp [kind] at hkind
    | absurd | bind | numeral => rfl

/-- Inlining removes every hole and keeps the bindings. If all variables of the pattern and of the
context were drawn from the supply before, the context is extended by one new variable for each
open hole, with the name and the type of the hole, from left to right. The new variables differ from
each other and from all that occur in the pattern or the context. The pattern that results binds them
among what the given one binds, and inlining it changes nothing any more. -/
theorem inline_exact (p : Pattern) (ctx : Context) (next : ℕ)
    (hp : ∀ x ∈ p.allVars, x.drawnBefore next = true)
    (hctx : ∀ x ∈ ctx.allVars, x.drawnBefore next = true) :
    ∃ (q : Pattern) (ctx' : Context) (new : List (Var × Term)),
      p.inline ⟨ctx, next⟩ = (q, ⟨ctx', next + new.length⟩) ∧
        q.HoleFree ∧
        (q.bindings.filter fun b => b.1.id ∉ new.map fun n => n.1.id) = p.bindings ∧
        Interleaves p.bindings new q.bindings ∧ ctx'.entries = ctx.entries ++ new ∧
        new.map (fun n => (n.1.name, n.2)) = p.openHoles ∧
        (new.map fun n => n.1.id).Nodup ∧
        (∀ x ∈ p.allVars ++ ctx.allVars, x.id ∉ new.map fun n => n.1.id) ∧
        ∀ s, q.inline s = (q, s) := by
  obtain ⟨hfree, hstate, hbindings⟩ := inlined p ⟨ctx, next⟩
  have hold : ∀ x ∈ p.allVars ++ ctx.allVars,
      x.id ∉ (drawn next p.openHoles).map fun n => n.1.id := by
    intro x hx
    rcases List.mem_append.mp hx with hx | hx
    · exact id_notMem_drawn (hp x hx)
    · exact id_notMem_drawn (hctx x hx)
  refine ⟨_, ctx.store id (drawn next p.openHoles), drawn next p.openHoles, ?_, hfree, ?_,
    hbindings, ?_, map_drawn, nodup_id_drawn, hold, hfree.inline_eq⟩
  · rw [length_drawn]
    exact Prod.ext rfl hstate
  · apply hbindings.filter_eq
    · intro b hb
      have hmem := List.mem_append_left ctx.allVars (mem_allVars_of_mem_bindings hb)
      exact decide_eq_true (hold b.1 hmem)
    · intro b hb
      simpa using ⟨b.1, ⟨b.2, hb⟩, rfl⟩
  · have hkeys : ∀ b ∈ drawn next p.openHoles, b.1 ∉ ctx.keys := by
      intro b hb hmem
      obtain ⟨e, he, heq⟩ := List.mem_map.mp hmem
      have hvar : b.1 ∈ ctx.allVars := List.mem_flatMap.mpr ⟨e, he, by simp [heq]⟩
      exact hold b.1 (List.mem_append_right _ hvar) (List.mem_map_of_mem hb)
    rw [Context.entries_store nodup_fst_drawn hkeys]
    simp

/-- A pair of an open hole and a constructor, whose argument is a hole that was solved by a pair of
`x` and another open hole, whose type mentions `x`. -/
def nestedHoles (x : Var) : Pattern :=
  .tuple [.hole none "a" (.sort 0),
    .con ⟨1⟩ ⟨2⟩ 0 [] [.hole (some (.tuple [.bind x (.sort 0), .hole none "b" (.free x)])) "s"
      (.sort 1)]]

/-- The two open holes get the two next variables, and `x` is bound between them. -/
theorem inline_exact_nested :
    let x : Var := ⟨.supplied 1, "x"⟩
    let scope : Context := .ofList [(⟨.supplied 0, "b"⟩, .sort 0)]
    let new : List (Var × Term) := [(⟨.supplied 2, "a"⟩, .sort 0), (⟨.supplied 3, "b"⟩, .free x)]
    (∀ y ∈ (nestedHoles x).allVars, y.drawnBefore 2 = true) ∧
      (∀ y ∈ scope.allVars, y.drawnBefore 2 = true) ∧
      ∃ (q : Pattern) (ctx' : Context),
        (nestedHoles x).inline ⟨scope, 2⟩ = (q, ⟨ctx', 4⟩) ∧ ctx'.entries = scope.entries ++ new ∧
          (q.bindings.filter fun b => b.1.id ∉ new.map fun n => n.1.id) = [(x, .sort 0)] ∧
          ∀ s, q.inline s = (q, s) := by
  intro x scope new
  have hp : ∀ y ∈ (nestedHoles x).allVars, y.drawnBefore 2 = true := by decide
  have hscope : ∀ y ∈ scope.allVars, y.drawnBefore 2 = true := by decide
  obtain ⟨q, ctx', new', hinline, -, hkept, -, hentries, -, -, -, hagain⟩ :=
    inline_exact (nestedHoles x) scope 2 hp hscope
  have hcontext : ctx'.entries = scope.entries ++ new := by
    have hsame := congrArg (fun r => r.2.context.entries) hinline
    exact hsame.symm
  have hnew : new' = new := List.append_cancel_left (hentries.symm.trans hcontext)
  rw [hnew] at hinline hkept
  exact ⟨hp, hscope, q, ctx', hinline, hcontext, hkept, hagain⟩

end Inlining

end Pattern

end ProofCore
