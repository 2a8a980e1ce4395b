import ProofCore.Proofs.ClosureExact

/-!
# The closure as a loop over the whole graph

The plain way to close a call graph extends every known sequence by every call that can follow it,
round after round, until a round finds nothing new. `complete` goes caller by caller instead and
extends each sequence once. A sequence that was extended before has nothing new to give, and an
extension keeps its caller, so both record the same matrices at the same places in every round.
Hence the plain loop ends, and `complete` is what it ends with. Both give up if there is no room for
an extension.
-/
namespace ProofCore

namespace CallMatrix

/-- The calls of a path composed from left to right, if each starts where the one before ends. -/
def compose : List CallMatrix → Except Obstacle CallMatrix
  | [] => .error .apart
  | a :: rest => rest.foldlM combine a

theorem compose_concat {path : List CallMatrix} {c : CallMatrix} (h : compose path = .ok c)
    (a : CallMatrix) : compose (path ++ [a]) = c.combine a := by
  cases path with
  | nil => cases h
  | cons first rest =>
    rw [List.cons_append, compose, List.foldlM_append]
    rw [compose] at h
    rw [h]
    exact bind_pure (c.combine a)

end CallMatrix

theorem CallSequence.foldlM {g : CallGraph} {a c : CallMatrix} {rest : List CallMatrix}
    (ha : CallSequence g a) (hrest : ∀ b ∈ rest, b ∈ g.matrices)
    (h : rest.foldlM CallMatrix.combine a = .ok c) : CallSequence g c := by
  induction rest generalizing a with
  | nil =>
    cases h
    exact ha
  | cons b rest ih =>
    rw [List.foldlM_cons, CallMatrix.bind_eq_ok_iff] at h
    obtain ⟨ab, hab, h⟩ := h
    have hb : b ∈ g.matrices := hrest b (by simp)
    exact ih (.snoc ha hb hab) (fun b' hb' => hrest b' (by simp [hb'])) h

theorem CallSequence.not_roomy {g : CallGraph} {a : CallMatrix} {rest : List CallMatrix}
    (ha : CallSequence g a) (hrest : ∀ b ∈ rest, b ∈ g.matrices)
    (h : rest.foldlM CallMatrix.combine a = .error .noRoom) : ¬ g.Roomy := by
  induction rest generalizing a with
  | nil => cases h
  | cons b rest ih =>
    have hb : b ∈ g.matrices := hrest b (by simp)
    rw [List.foldlM_cons, CallMatrix.bind_eq_noRoom_iff] at h
    rcases h with hfull | ⟨ab, hab, h⟩
    · exact fun hroom => hroom a b ha hb hfull
    · exact ih (.snoc ha hb hab) (fun b' hb' => hrest b' (by simp [hb'])) h

theorem callSequence_iff {g : CallGraph} {c : CallMatrix} :
    CallSequence g c ↔
      ∃ path : List CallMatrix, (∀ a ∈ path, a ∈ g.matrices) ∧ CallMatrix.compose path = .ok c := by
  constructor
  · intro h
    induction h with
    | @single a ha => exact ⟨[a], by simpa using ha, rfl⟩
    | @snoc _ a _ _ ha hlink ih =>
      obtain ⟨path, hpath, hc⟩ := ih
      refine ⟨path ++ [a], ?_, by rw [CallMatrix.compose_concat hc, hlink]⟩
      intro b hb
      rcases List.mem_append.mp hb with hb | hb
      · exact hpath b hb
      · rwa [List.mem_singleton.mp hb]
  · intro h
    obtain ⟨path, hpath, hc⟩ := h
    cases path with
    | nil => cases hc
    | cons first rest =>
      have hfirst : CallSequence g first := .single (hpath first (by simp))
      exact hfirst.foldlM (fun b hb => hpath b (by simp [hb])) hc

namespace Outgoing

/-- Adds the matrices one after the other. -/
def insertAll (c : Outgoing) (as : List CallMatrix) : Outgoing := as.foldl insert c

theorem insertAll_append (c : Outgoing) (as bs : List CallMatrix) :
    c.insertAll (as ++ bs) = (c.insertAll as).insertAll bs := List.foldl_append

@[simp] theorem caller_insertAll (c : Outgoing) (as : List CallMatrix) :
    (c.insertAll as).caller = c.caller := by
  induction as generalizing c with
  | nil => rfl
  | cons a as ih => exact (ih (c.insert a)).trans (c.caller_insert a)

theorem contains_insert {c : Outgoing} {b : CallMatrix} (a : CallMatrix)
    (h : c.contains b = true) : (c.insert a).contains b = true := by
  by_cases hcaller : a.caller = c.caller
  · exact (contains_insert_iff hcaller).mpr (.inl h)
  · rwa [insert_of_ignored (.inl hcaller)]

theorem contains_insertAll {c : Outgoing} {b : CallMatrix} (as : List CallMatrix)
    (h : c.contains b = true) : (c.insertAll as).contains b = true := by
  induction as generalizing c with
  | nil => exact h
  | cons a as ih => exact ih (contains_insert a h)

theorem insertAll_of_ignored {c : Outgoing} {as : List CallMatrix}
    (h : ∀ a ∈ as, a.caller ≠ c.caller ∨ c.contains a = true) : c.insertAll as = c := by
  induction as with
  | nil => rfl
  | cons a as ih =>
    have hstep : c.insertAll (a :: as) = (c.insert a).insertAll as := rfl
    rw [hstep, insert_of_ignored (h a (by simp))]
    exact ih fun b hb => h b (by simp [hb])

/-- Leaving out parts that have nothing new to give changes nothing. -/
theorem insertAll_flatMap_sublist {xs ys : List CallMatrix} (hsub : xs.Sublist ys)
    (hnodup : ys.Nodup) (f : CallMatrix → List CallMatrix) (c : Outgoing)
    (hskip : ∀ y ∈ ys, y ∉ xs → ∀ q ∈ f y, c.contains q = true) :
    c.insertAll (xs.flatMap f) = c.insertAll (ys.flatMap f) := by
  induction hsub generalizing c with
  | slnil => rfl
  | @cons xs ys y hsub ih =>
    rw [List.nodup_cons] at hnodup
    have hy : y ∉ xs := fun h => hnodup.1 (hsub.subset h)
    have hnone : c.insertAll (f y) = c :=
      insertAll_of_ignored fun q hq => .inr (hskip y (by simp) hy q hq)
    rw [List.flatMap_cons, insertAll_append, hnone]
    exact ih hnodup.2 c fun z hz => hskip z (by simp [hz])
  | @cons_cons xs ys y hsub ih =>
    rw [List.nodup_cons] at hnodup
    rw [List.flatMap_cons, List.flatMap_cons, insertAll_append, insertAll_append]
    refine ih hnodup.2 _ fun z hz hzx q hq => contains_insertAll (f y) ?_
    refine hskip z (by simp [hz]) ?_ q hq
    intro h
    rcases List.mem_cons.mp h with rfl | h
    · exact hnodup.1 hz
    · exact hzx h

theorem nodup_matrices (c : Outgoing) : c.matrices.Nodup := by
  refine c.pairwise_matrices.imp fun {a b} hab heq => ?_
  rw [heq, CallMatrix.sameRelations_refl] at hab
  cases hab

/-- The groups are the same ones, and each group is a part of the other's. -/
def Within (part whole : Outgoing) : Prop :=
  List.Forall₂ (fun p w => p.1 = w.1 ∧ p.2.Sublist w.2) part.groups.entries whole.groups.entries

theorem Within.refl (c : Outgoing) : c.Within c :=
  List.forall₂_same.mpr fun _ _ => ⟨rfl, List.Sublist.refl _⟩

theorem within_cleared (c : Outgoing) : c.cleared.Within c := by
  unfold Within cleared Table.mapEntries
  rw [List.forall₂_map_left_iff]
  exact List.forall₂_same.mpr fun e _ => ⟨rfl, List.nil_sublist _⟩

theorem Within.sublist {part whole : Outgoing} (h : part.Within whole) :
    part.matrices.Sublist whole.matrices := by
  have hflatten : ∀ ps ws : List (DefId × List CallMatrix),
      List.Forall₂ (fun p w => p.1 = w.1 ∧ p.2.Sublist w.2) ps ws →
        (ps.map Prod.snd).flatten.Sublist (ws.map Prod.snd).flatten := by
    intro ps ws h
    induction h with
    | nil => exact List.Sublist.refl _
    | cons hgroup _ ih => exact hgroup.2.append ih
  exact hflatten _ _ h

theorem forall₂_upsertEntry {a : CallMatrix} {ps ws : List (DefId × List CallMatrix)}
    (h : List.Forall₂ (fun p w => p.1 = w.1 ∧ p.2.Sublist w.2) ps ws) :
    List.Forall₂ (fun p w => p.1 = w.1 ∧ p.2.Sublist w.2)
      (upsertEntry a.callee (fun group => group.getD [] ++ [a]) ps)
      (upsertEntry a.callee (fun group => group.getD [] ++ [a]) ws) := by
  induction h with
  | nil => exact .cons ⟨rfl, List.Sublist.refl _⟩ .nil
  | @cons p w ps ws hgroup hrest ih =>
    obtain ⟨k, part⟩ := p
    obtain ⟨k', whole⟩ := w
    obtain ⟨rfl, hsub⟩ := hgroup
    by_cases hk : k = a.callee
    · simp only [upsertEntry, hk, if_true]
      exact .cons ⟨rfl, hsub.append (List.Sublist.refl [a])⟩ hrest
    · simp only [upsertEntry, hk, if_false]
      exact .cons ⟨rfl, hsub⟩ ih

end Outgoing

namespace Exploration

theorem known_record (e : Exploration) (a : CallMatrix) :
    (e.record a).known = e.known.insert a := by
  unfold record
  split
  · rename_i h
    exact (Outgoing.insert_of_contains h).symm
  · rfl

theorem known_foldl_record (as : List CallMatrix) (e : Exploration) :
    (as.foldl record e).known = e.known.insertAll as := by
  induction as generalizing e with
  | nil => rfl
  | cons a as ih =>
    rw [List.foldl_cons, ih, known_record]
    rfl

/-- The fresh sequences are known, and they come in the same order. -/
structure Paired (e : Exploration) : Prop where
  caller_eq : e.fresh.caller = e.known.caller
  within : e.fresh.Within e.known

theorem Paired.record {e : Exploration} (h : e.Paired) (a : CallMatrix) : (e.record a).Paired := by
  unfold Exploration.record
  split
  · exact h
  · rename_i hknown
    refine ⟨by simp [h.caller_eq], ?_⟩
    have hfresh : ¬ e.fresh.contains a = true := by
      intro hc
      obtain ⟨b, hb, hba⟩ := Outgoing.contains_iff.mp hc
      exact hknown (Outgoing.contains_iff.mpr ⟨b, h.within.sublist.subset hb, hba⟩)
    by_cases hcaller : a.caller = e.known.caller
    · have hk : a.caller = e.known.caller ∧ e.known.contains a = false :=
        ⟨hcaller, by simpa using hknown⟩
      have hf : a.caller = e.fresh.caller ∧ e.fresh.contains a = false :=
        ⟨hcaller.trans h.caller_eq.symm, by simpa using hfresh⟩
      rw [Outgoing.insert, Outgoing.insert, dif_pos hk, dif_pos hf]
      exact Outgoing.forall₂_upsertEntry h.within
    · have hf : ¬ a.caller = e.fresh.caller := h.caller_eq ▸ hcaller
      rw [Outgoing.insert, Outgoing.insert, dif_neg fun hk => hcaller hk.1,
        dif_neg fun hk => hf hk.1]
      exact h.within

theorem Paired.recordAll {e : Exploration} (h : e.Paired) (as : List CallMatrix) :
    (as.foldl Exploration.record e).Paired := by
  induction as generalizing e with
  | nil => exact h
  | cons a as ih => exact ih (h.record a)

end Exploration

namespace CallGraph

/-- Extends every known sequence of one caller. -/
def extendFrom (g : CallGraph) (c : Outgoing) : Outgoing :=
  c.insertAll (c.matrices.flatMap g.extensions)

theorem foldl_extensions (g : CallGraph) (paths : List CallMatrix) (e : Exploration) :
    paths.foldl (fun e path => (g.extensions path).foldl .record e) e =
      (paths.flatMap g.extensions).foldl .record e := by
  induction paths generalizing e with
  | nil => rfl
  | cons path paths ih => rw [List.foldl_cons, ih, List.flatMap_cons, List.foldl_append]

theorem paired_explore (g : CallGraph) (e : Exploration) : (g.explore e).Paired := by
  rw [explore, foldl_extensions]
  have hstart : (⟨e.known, e.known.cleared⟩ : Exploration).Paired :=
    ⟨rfl, e.known.within_cleared⟩
  exact hstart.recordAll _

/-- A round of the exploration finds what extending every known sequence finds. -/
theorem known_explore {g : CallGraph} {c : Outgoing} {e : Exploration}
    (h : Exploration.Explored g c e) (hpaired : e.Paired) :
    (g.explore e).known = g.extendFrom e.known := by
  rw [explore, foldl_extensions, Exploration.known_foldl_record]
  exact Outgoing.insertAll_flatMap_sublist hpaired.within.sublist e.known.nodup_matrices
    g.extensions e.known h.extended

theorem extendFrom_of_isDone {g : CallGraph} {c : Outgoing} {e : Exploration}
    (h : Exploration.Explored g c e) (hdone : e.isDone = true) :
    g.extendFrom e.known = e.known := by
  refine Outgoing.insertAll_of_ignored fun q hq => .inr ?_
  obtain ⟨p, hp, hq⟩ := List.mem_flatMap.mp hq
  have hfresh : e.fresh.matrices = [] := by simpa [Exploration.isDone] using hdone
  exact h.extended p hp (by simp [hfresh]) q hq

theorem known_exploreFor {g : CallGraph} {c : Outgoing} {e : Exploration} (n : ℕ)
    (h : Exploration.Explored g c e) (hpaired : e.Paired) :
    (g.exploreFor n e).known = g.extendFrom^[n] e.known := by
  fun_induction exploreFor g n e with
  | case1 e => rfl
  | case2 n e hdone => exact (Function.iterate_fixed (extendFrom_of_isDone h hdone) _).symm
  | case3 n e _ ih =>
    rw [ih h.explore.1 (g.paired_explore e), known_explore h hpaired, Function.iterate_succ_apply]

theorem exploreFor_add (g : CallGraph) (m n : ℕ) (e : Exploration) :
    g.exploreFor (m + n) e = g.exploreFor n (g.exploreFor m e) := by
  induction m generalizing e with
  | zero => rw [Nat.zero_add, exploreFor]
  | succ m ih =>
    rw [Nat.succ_add, exploreFor, exploreFor]
    split
    · rename_i hdone
      exact (exploreFor_of_isDone n hdone).symm
    · exact ih (g.explore e)

theorem exploreDoubling_eq (g : CallGraph) (n rounds : ℕ) (e : Exploration) :
    g.exploreDoubling n rounds e = g.exploreFor (rounds * (2 ^ n - 1)) e := by
  induction n generalizing rounds e with
  | zero => simp [exploreDoubling, exploreFor]
  | succ n ih =>
    have hrounds : rounds * (2 ^ (n + 1) - 1) = rounds + 2 * rounds * (2 ^ n - 1) := by
      obtain ⟨k, hk⟩ : ∃ k, 2 ^ n = k + 1 := ⟨2 ^ n - 1, by have := Nat.two_pow_pos n; omega⟩
      have hk' : 2 ^ (n + 1) - 1 = 1 + 2 * k := by omega
      rw [hk', hk, Nat.add_sub_cancel]
      ring
    rw [hrounds, exploreFor_add, exploreDoubling]
    split
    · rename_i hdone
      exact (exploreFor_of_isDone _ hdone).symm
    · exact ih (2 * rounds) _

theorem sequences_eq_iterate {g : CallGraph} {c : Outgoing} (bits : ℕ)
    (hc : c.matrices ⊆ g.matrices) :
    g.sequences bits c = g.extendFrom^[2 ^ bits - 1] c := by
  rw [sequences, exploreDoubling_eq, Nat.one_mul]
  exact known_exploreFor _ (.initial hc) ⟨rfl, .refl c⟩

theorem eq_of_calls {g g' : CallGraph} (h : g.calls = g'.calls) : g = g' := by
  cases g
  cases g'
  cases h
  rfl

theorem calls_insert {g : CallGraph} {a : CallMatrix} (h : a.caller ∈ g.calls.keys) :
    (g.insert a).calls = g.calls.mapEntries fun _ c => c.insert a := by
  refine Table.eq_of_entries ((upsertEntry_eq_map _ g.calls.nodup_keys h).trans ?_)
  refine List.map_congr_left fun f hf => ?_
  by_cases hcaller : f.1 = a.caller
  · rw [if_pos hcaller, Option.getD_some]
  · -- the calls of other definitions do not take the matrix
    have hne : a.caller ≠ f.2.caller := fun heq => hcaller ((heq.trans (g.caller_eq f hf)).symm)
    rw [if_neg hcaller]
    exact congrArg (Prod.mk f.1) (Outgoing.insert_of_ignored (.inl hne)).symm

theorem calls_insertAll {g : CallGraph} {as : List CallMatrix}
    (h : ∀ a ∈ as, a.caller ∈ g.calls.keys) :
    (g.insertAll as).calls = g.calls.mapEntries fun _ c => c.insertAll as := by
  induction as generalizing g with
  | nil => exact (Table.mapEntries_of_fixed fun _ _ => rfl).symm
  | cons a as ih =>
    have hcalls := calls_insert (h a (by simp))
    have hkeys : (g.insert a).calls.keys = g.calls.keys := by rw [hcalls, Table.keys_mapEntries]
    have hstep : g.insertAll (a :: as) = (g.insert a).insertAll as := rfl
    rw [hstep, ih fun b hb => hkeys ▸ h b (by simp [hb]), hcalls, Table.mapEntries_mapEntries]
    rfl

/-- One round of the plain loop: extends every known sequence by every call of `g` that can
follow it. -/
def extendAll (g known : CallGraph) : CallGraph :=
  known.insertAll (known.matrices.flatMap g.extensions)

theorem caller_of_mem_extensions {g : CallGraph} {path a : CallMatrix}
    (h : a ∈ g.extensions path) : a.caller = path.caller := by
  obtain ⟨b, -, hlink⟩ := mem_extensions_iff.mp h
  exact (CallMatrix.ends_of_combine hlink).2.2.2.1

theorem caller_mem_keys {g : CallGraph} {a : CallMatrix} (h : a ∈ g.matrices) :
    a.caller ∈ g.calls.keys := by
  obtain ⟨caller, c, hc, ha⟩ := mem_matrices_iff.mp h
  have hcaller : a.caller = caller :=
    (Outgoing.caller_of_mem ha).trans (g.caller_eq _ (Table.get?_eq_some_iff.mp hc))
  exact hcaller ▸ Table.mem_keys_iff.mpr ⟨c, hc⟩

/-- Of all entries, only the one of its own caller has something to add to a table of calls. -/
theorem insertAll_flatMap_entries {caller : DefId} {c d : Outgoing}
    {es : List (DefId × Outgoing)} {f : Outgoing → List CallMatrix}
    (hnodup : (es.map Prod.fst).Nodup) (hmem : (caller, c) ∈ es) (hd : d.caller = caller)
    (hf : ∀ e ∈ es, ∀ a ∈ f e.2, a.caller = e.1) :
    d.insertAll (es.flatMap fun e => f e.2) = d.insertAll (f c) := by
  induction es generalizing d with
  | nil => cases hmem
  | cons e es ih =>
    rw [List.map_cons, List.nodup_cons] at hnodup
    rw [List.flatMap_cons, Outgoing.insertAll_append]
    rcases List.mem_cons.mp hmem with rfl | hmem'
    · refine Outgoing.insertAll_of_ignored fun a ha => .inl ?_
      obtain ⟨e', he', ha⟩ := List.mem_flatMap.mp ha
      have hmem' : e'.1 ∈ es.map Prod.fst := List.mem_map_of_mem he'
      rw [hf e' (by simp [he']) a ha, Outgoing.caller_insertAll, hd]
      exact fun heq => hnodup.1 (heq ▸ hmem')
    · have hother : d.insertAll (f e.2) = d := by
        refine Outgoing.insertAll_of_ignored fun a ha => .inl ?_
        rw [hf e (by simp) a ha, hd]
        have hkey : caller ∈ es.map Prod.fst := List.mem_map_of_mem hmem'
        exact fun heq => hnodup.1 (heq ▸ hkey)
      rw [hother]
      exact ih hnodup.2 hmem' hd fun e' he' => hf e' (by simp [he'])

/-- A round over the whole graph is a round for each caller. -/
theorem calls_extendAll (g known : CallGraph) :
    (g.extendAll known).calls = known.calls.mapEntries fun _ c => g.extendFrom c := by
  have hkeys : ∀ a ∈ known.matrices.flatMap g.extensions, a.caller ∈ known.calls.keys := by
    intro a ha
    obtain ⟨path, hpath, ha⟩ := List.mem_flatMap.mp ha
    rw [caller_of_mem_extensions ha]
    exact caller_mem_keys hpath
  rw [extendAll, calls_insertAll hkeys]
  refine Table.mapEntries_congr fun f hf => ?_
  have hmatrices : known.matrices.flatMap g.extensions =
      known.calls.entries.flatMap fun e => e.2.matrices.flatMap g.extensions := by
    rw [matrices, Table.values, List.flatMap_map, List.flatMap_assoc]
  rw [hmatrices]
  refine insertAll_flatMap_entries (f := fun c => c.matrices.flatMap g.extensions)
    known.calls.nodup_keys hf (known.caller_eq f hf) ?_
  intro e he a ha
  obtain ⟨path, hpath, ha⟩ := List.mem_flatMap.mp ha
  rw [caller_of_mem_extensions ha, Outgoing.caller_of_mem hpath, known.caller_eq e he]

theorem calls_iterate_extendAll (g known : CallGraph) (n : ℕ) :
    (g.extendAll^[n] known).calls = known.calls.mapEntries fun _ c => g.extendFrom^[n] c := by
  induction n with
  | zero => exact (Table.mapEntries_of_fixed fun _ _ => rfl).symm
  | succ n ih =>
    rw [Function.iterate_succ_apply', calls_extendAll, ih, Table.mapEntries_mapEntries]
    simp only [Function.iterate_succ_apply']

theorem closure_eq_iterate (g : CallGraph) :
    g.closure = g.extendAll^[2 ^ g.closureBits - 1] g := by
  apply eq_of_calls
  rw [calls_iterate_extendAll]
  change g.calls.mapEntries (fun _ c => g.sequences g.closureBits c) = _
  refine Table.mapEntries_congr fun f hf => ?_
  exact sequences_eq_iterate _ (subset_matrices (Table.get?_eq_some_iff.mpr hf))

/-- Whether every extension of a known sequence by a call of `g` is known. -/
def ClosedUnder (g known : CallGraph) : Prop :=
  ∀ path ∈ known.matrices, ∀ a ∈ g.extensions path, known.contains a = true

theorem closedUnder_closure (g : CallGraph) : g.ClosedUnder g.closure := by
  intro path hpath a ha
  obtain ⟨b, hb, hlink⟩ := mem_extensions_iff.mp ha
  exact contains_iff.mpr (exists_mem_closure (.snoc (sequence_of_mem_closure hpath) hb hlink))

theorem insert_of_contains {g : CallGraph} {a : CallMatrix} (h : g.contains a = true) :
    g.insert a = g := by
  obtain ⟨b, hb, hba⟩ := contains_iff.mp h
  have hkey : a.caller ∈ g.calls.keys := by
    rw [← ((CallMatrix.sameRelations_iff b a).mp hba).1]
    exact caller_mem_keys hb
  apply eq_of_calls
  rw [calls_insert hkey]
  refine Table.mapEntries_of_fixed fun f hf => ?_
  apply Outgoing.insert_of_ignored
  by_cases hcaller : a.caller = f.2.caller
  · refine .inr ?_
    have hget : g.calls.get? a.caller = some f.2 := by
      rw [hcaller, g.caller_eq f hf]
      exact Table.get?_eq_some_iff.mpr hf
    rwa [contains, outgoing, hget, Option.getD_some] at h
  · exact .inl hcaller

theorem insertAll_of_contains {g : CallGraph} {as : List CallMatrix}
    (h : ∀ a ∈ as, g.contains a = true) : g.insertAll as = g := by
  induction as with
  | nil => rfl
  | cons a as ih =>
    have hstep : g.insertAll (a :: as) = (g.insert a).insertAll as := rfl
    rw [hstep, insert_of_contains (h a (by simp))]
    exact ih fun b hb => h b (by simp [hb])

theorem extendAll_of_closed {g known : CallGraph} (h : g.ClosedUnder known) :
    g.extendAll known = known := by
  refine insertAll_of_contains fun a ha => ?_
  obtain ⟨path, hpath, ha⟩ := List.mem_flatMap.mp ha
  exact h path hpath a ha

/-- Whether there is no room for some extension of a known sequence by a call of `g`. -/
def Overflows (g known : CallGraph) : Prop :=
  ∃ path ∈ known.matrices, ∃ a ∈ g.matrices, path.combine a = .error .noRoom

/-- The plain loop, from the sequences it starts with to its outcome: rounds follow one another
until every extension is known, or until there is no room for one. -/
inductive Saturates (g : CallGraph) : CallGraph → Option CallGraph → Prop
  | noRoom {known : CallGraph} (full : g.Overflows known) : Saturates g known none
  | done {known : CallGraph} (room : ¬ g.Overflows known) (closed : g.ClosedUnder known) :
      Saturates g known (some known)
  | round {known : CallGraph} {outcome : Option CallGraph} (room : ¬ g.Overflows known)
      (new : ¬ g.ClosedUnder known) (rest : Saturates g (g.extendAll known) outcome) :
      Saturates g known outcome

theorem sequence_of_mem_iterate {g : CallGraph} {a : CallMatrix} (n : ℕ)
    (h : a ∈ (g.extendAll^[n] g).matrices) : CallSequence g a := by
  obtain ⟨caller, c', hc', ha⟩ := mem_matrices_iff.mp h
  rw [calls_iterate_extendAll, Table.get?_mapEntries] at hc'
  obtain ⟨c, hc, rfl⟩ := Option.map_eq_some_iff.mp hc'
  have hinitial : Exploration.Explored g c ⟨c, c⟩ := .initial (subset_matrices hc)
  rw [← known_exploreFor n hinitial ⟨rfl, .refl c⟩] at ha
  exact (hinitial.exploreFor n).1.sequence a ha

theorem not_roomy_of_overflows {g known : CallGraph}
    (hknown : ∀ a ∈ known.matrices, CallSequence g a) (h : g.Overflows known) : ¬ g.Roomy := by
  obtain ⟨path, hpath, a, ha, hfull⟩ := h
  exact fun hroom => hroom path a (hknown path hpath) ha hfull

theorem saturates_of_overflows {g : CallGraph} {m : ℕ} (h : g.Overflows (g.extendAll^[m] g)) :
    Saturates g (g.extendAll^[m] g) g.complete := by
  have hnone : g.complete = none :=
    complete_eq_none_iff.mpr (not_roomy_of_overflows (fun _ => sequence_of_mem_iterate m) h)
  rw [hnone]
  exact .noRoom h

theorem saturates_of_closedUnder {g : CallGraph} {m n : ℕ}
    (hroom : ¬ g.Overflows (g.extendAll^[m] g)) (hclosed : g.ClosedUnder (g.extendAll^[m] g))
    (h : g.extendAll^[m + n] g = g.closure) : Saturates g (g.extendAll^[m] g) g.complete := by
  rw [Nat.add_comm, Function.iterate_add_apply,
    Function.iterate_fixed (extendAll_of_closed hclosed)] at h
  have hsome : g.complete = some (g.extendAll^[m] g) := by
    refine complete_eq_some_iff.mpr ⟨hasRoom_closure_iff.mp (hasRoom_iff.mpr ?_), h.symm⟩
    exact fun path hpath a ha hlarge => hroom ⟨path, h ▸ hpath, a, ha, hlarge⟩
  rw [hsome]
  exact .done hroom hclosed

/-- The induction is on the number of rounds that are left until the closure is reached. -/
theorem saturates_complete {g : CallGraph} {m : ℕ} (n : ℕ)
    (h : g.extendAll^[m + n] g = g.closure) : Saturates g (g.extendAll^[m] g) g.complete := by
  induction n generalizing m with
  | zero =>
    by_cases hfull : g.Overflows (g.extendAll^[m] g)
    · exact saturates_of_overflows hfull
    · have hclosed : g.ClosedUnder (g.extendAll^[m] g) := by
        rw [Nat.add_zero] at h
        rw [h]
        exact g.closedUnder_closure
      exact saturates_of_closedUnder hfull hclosed h
  | succ n ih =>
    by_cases hfull : g.Overflows (g.extendAll^[m] g)
    · exact saturates_of_overflows hfull
    by_cases hclosed : g.ClosedUnder (g.extendAll^[m] g)
    · exact saturates_of_closedUnder hfull hclosed h
    · refine .round hfull hclosed ?_
      rw [← Function.iterate_succ_apply' g.extendAll]
      exact ih (by rw [← h, Nat.succ_add_eq_add_succ])

theorem pairwise_matrices (g : CallGraph) :
    g.matrices.Pairwise fun a b => a.sameRelations b = false := by
  rw [matrices, List.pairwise_flatMap]
  refine ⟨fun c _ => c.pairwise_matrices, ?_⟩
  have hkeys := List.pairwise_map.mp g.calls.nodup_keys
  rw [Table.values, List.pairwise_map]
  refine hkeys.imp_of_mem fun {e e'} he he' hne a ha b hb => ?_
  by_contra hab
  have hcaller := ((CallMatrix.sameRelations_iff a b).mp (by simpa using hab)).1
  rw [Outgoing.caller_of_mem ha, Outgoing.caller_of_mem hb, g.caller_eq e he,
    g.caller_eq e' he'] at hcaller
  exact hne hcaller

theorem complete_eq_none_iff_path {g : CallGraph} :
    g.complete = none ↔ ∃ path : List CallMatrix, (∀ a ∈ path, a ∈ g.matrices) ∧
      CallMatrix.compose path = .error .noRoom := by
  rw [complete_eq_none_iff]
  constructor
  · intro h
    simp only [Roomy, not_forall, not_not] at h
    obtain ⟨prior, a, hprior, ha, hfull⟩ := h
    obtain ⟨path, hpath, hc⟩ := callSequence_iff.mp hprior
    refine ⟨path ++ [a], ?_, by rw [CallMatrix.compose_concat hc, hfull]⟩
    intro b hb
    rcases List.mem_append.mp hb with hb | hb
    · exact hpath b hb
    · rwa [List.mem_singleton.mp hb]
  · rintro ⟨path, hpath, hfull⟩
    cases path with
    | nil => cases hfull
    | cons first rest =>
      have hfirst : CallSequence g first := .single (hpath first (by simp))
      exact hfirst.not_roomy (fun b hb => hpath b (by simp [hb])) hfull

/-- Two calls in a row: the first has many parameters and hands on none, the second has none and
hands on many. -/
def widening : CallGraph :=
  (CallGraph.empty.insert (.filled (.sort 0) ⟨1⟩ ⟨2⟩ (2 ^ 32) 0 [] (by decide))).insert
    (.filled (.sort 0) ⟨2⟩ ⟨3⟩ 0 (2 ^ 32) [] (by decide))

/-- There may be room for every call and none for a sequence of them. -/
theorem complete_widening : widening.matrices.length = 2 ∧ widening.complete = none :=
  ⟨by decide +kernel, by decide +kernel⟩

/-- The loop has the outcome of `complete`. It gives up if the calls along some path compose to a
matrix that there is no room for. Otherwise it ends with the relations of exactly the compositions
of calls along a path, each once. -/
theorem complete_exact (g : CallGraph) :
    Saturates g g g.complete ∧
      (g.complete = none ↔ ∃ path : List CallMatrix, (∀ a ∈ path, a ∈ g.matrices) ∧
        CallMatrix.compose path = .error .noRoom) ∧
      ∀ closure, g.complete = some closure →
        (∀ m : CallMatrix, (∃ b ∈ closure.matrices, b.sameRelations m = true) ↔
          ∃ path : List CallMatrix, (∀ a ∈ path, a ∈ g.matrices) ∧
            ∃ c, CallMatrix.compose path = .ok c ∧ c.sameRelations m = true) ∧
        closure.matrices.Pairwise fun a b => a.sameRelations b = false := by
  have hrounds : g.extendAll^[0 + (2 ^ g.closureBits - 1)] g = g.closure := by
    rw [Nat.zero_add, closure_eq_iterate]
  refine ⟨saturates_complete _ hrounds, complete_eq_none_iff_path, fun closure hclosure => ?_⟩
  obtain ⟨-, rfl⟩ := complete_eq_some_iff.mp hclosure
  refine ⟨fun m => ⟨?_, ?_⟩, g.closure.pairwise_matrices⟩
  · rintro ⟨b, hb, hbm⟩
    obtain ⟨path, hpath, hc⟩ := callSequence_iff.mp (sequence_of_mem_closure hb)
    exact ⟨path, hpath, b, hc, hbm⟩
  · rintro ⟨path, hpath, c, hc, hcm⟩
    obtain ⟨b, hb, hbc⟩ := exists_mem_closure (callSequence_iff.mpr ⟨path, hpath, hc⟩)
    exact ⟨b, hb, CallMatrix.sameRelations_trans hbc hcm⟩

/-- A call after which a parameter is smaller, and one that hands it on. -/
def relay : CallGraph :=
  (CallGraph.empty.insert (.filled (.sort 0) ⟨1⟩ ⟨2⟩ 1 1 [[.lessThan]] (by decide))).insert
    (.filled (.sort 0) ⟨2⟩ ⟨3⟩ 1 1 [[.equal]] (by decide))

theorem complete_exact_relay :
    ∃ closure, relay.complete = some closure ∧
      ∃ b ∈ closure.matrices,
        b.sameRelations (.filled (.sort 0) ⟨1⟩ ⟨3⟩ 1 1 [[.lessThan]] (by decide)) = true := by
  obtain ⟨closure, hclosure⟩ : ∃ closure, relay.complete = some closure :=
    Option.isSome_iff_exists.mp (by decide +kernel)
  refine ⟨closure, hclosure, ?_⟩
  obtain ⟨-, -, hexact⟩ := complete_exact relay
  rw [(hexact closure hclosure).1]
  refine ⟨relay.matrices, fun a ha => ha, _, rfl, by decide⟩

end CallGraph

end ProofCore
