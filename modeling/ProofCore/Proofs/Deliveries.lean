import ProofCore.Proofs.ComponentCheck
import ProofCore.Proofs.Rollback

/-!
# What a component check delivers

A component that passes has its definitions accepted, each of them once and in the order of the
module. A component that fails names units to blame: a part of itself that is not empty, or the
body of one of its declarations. In the dependency graph of a module, where a component has only
signatures or only bodies, the latter is a part of the component as well.
-/
namespace ProofCore

/-- Every definition that the checker returns for a declaration is as `P` says. -/
def Checker.Returns {κ : Type} (c : Checker κ) (P : Decl → Def → Prop) : Prop :=
  ∀ k d result, (c.body k d).2.2 = some result → P d result

/-- The checker returns the definition that it was asked about. -/
def Checker.ReturnsOwn {κ : Type} (c : Checker κ) : Prop :=
  c.Returns fun d result => result = d.definition

theorem returnsOwn_scopeChecker : scopeChecker.ReturnsOwn := by
  intro k d result h
  cases hfaults : k.bodyFaults d with
  | nil =>
    simp only [scopeChecker, hfaults, Option.some.injEq] at h
    exact h.symm
  | cons f fs => simp [scopeChecker, hfaults] at h

namespace CheckM

variable {κ ρ α β : Type}

/-- What the check returns has the property `Q`, what it fails with the property `E`. -/
structure Delivers (x : CheckM κ ρ α) (Q : α → Prop) (E : Failure → Prop) : Prop where
  result : ∀ s a t, x.run s = some (.ok a, t) → Q a
  failure : ∀ s e t, x.run s = some (.error e, t) → E e

namespace Delivers

variable {P : α → Prop} {Q : β → Prop} {E : Failure → Prop}

theorem pure {a : α} (h : P a) : Delivers (Pure.pure a : CheckM κ ρ α) P E := by
  constructor
  · intro s b t hrun
    cases hrun
    exact h
  · intro s e t hrun
    cases hrun

theorem bind {x : CheckM κ ρ α} {f : α → CheckM κ ρ β} (hx : Delivers x P E)
    (hf : ∀ a, P a → Delivers (f a) Q E) : Delivers (x >>= f) Q E := by
  constructor
  · intro s b t hrun
    rcases run_bind_cases hrun with ⟨a, t₀, hfirst, hnext⟩ | ⟨e, -, he⟩
    · exact (hf a (hx.result s a t₀ hfirst)).result t₀ b t hnext
    · cases he
  · intro s e t hrun
    rcases run_bind_cases hrun with ⟨a, t₀, hfirst, hnext⟩ | ⟨e', hfirst, he⟩
    · exact (hf a (hx.result s a t₀ hfirst)).failure t₀ e t hnext
    · cases he
      exact hx.failure s e t hfirst

/-- Results that tell what they are the results of. -/
theorem mapM {f : α → CheckM κ ρ β} {source : β → α} {xs : List α}
    (h : ∀ x ∈ xs, Delivers (f x) (fun y => source y = x ∧ Q y) E) :
    Delivers (xs.mapM f) (fun ys => ys.map source = xs ∧ ∀ y ∈ ys, Q y) E := by
  induction xs with
  | nil =>
    rw [List.mapM_nil]
    exact pure ⟨rfl, by simp⟩
  | cons x xs ih =>
    rw [List.mapM_cons]
    refine (h x (by simp)).bind fun y hy => ?_
    refine (ih fun x' hx' => h x' (by simp [hx'])).bind fun ys hys => pure ⟨?_, ?_⟩
    · rw [List.map_cons, hy.1, hys.1]
    · exact List.forall_mem_cons.mpr ⟨hy.2, hys.2⟩

end Delivers

end CheckM

namespace Setup

open CheckM

variable {κ ρ α : Type} {c : Setup κ ρ} {s t : Session κ ρ} {Q : α → Prop} {E : Failure → Prop}

theorem delivers_fail {units : List CheckUnit} (h : E ⟨units⟩) (f : Fault) :
    Delivers (fail units f : CheckM κ ρ α) Q E := by
  constructor
  · intro s a t hrun
    cases hrun
  · intro s e t hrun
    cases hrun
    exact h

theorem delivers_declOf {u : CheckUnit} (h : E ⟨[u]⟩) :
    Delivers (c.declOf u) (fun d => c.module.get? u.id = some d) E := by
  unfold declOf
  split
  · rename_i d hd
    exact .pure hd
  · exact delivers_fail h _

theorem delivers_checkHeader {u : CheckUnit} (h : E ⟨[u]⟩) (d : Decl) :
    Delivers (c.checkHeader u d) (fun _ => True) E := by
  refine ⟨fun _ _ _ _ => trivial, fun s e t hrun => ?_⟩
  rcases checkHeader_cases hrun with ⟨-, hr, -⟩ | ⟨-, -, hr, -⟩ | ⟨-, -, hr, -⟩
  · cases hr
  · cases hr
    exact h
  · cases hr

theorem delivers_checkBody {P : Decl → Def → Prop} (hP : c.checker.Returns P) {u : CheckUnit}
    (h : E ⟨[u]⟩) (d : Decl) : Delivers (c.checkBody u d) (P d) E := by
  constructor
  · intro s result t hrun
    rcases checkBody_cases hrun with ⟨-, hr, -⟩ | ⟨-, result', hresult, hr, -⟩ | ⟨-, hr, -⟩
    · cases hr
    · cases hr
      exact hP _ d _ hresult
    · cases hr
  · intro s e t hrun
    rcases checkBody_cases hrun with ⟨-, hr, -⟩ | ⟨-, _, -, hr, -⟩ | ⟨-, hr, -⟩
    · cases hr
      exact h
    · cases hr
    · cases hr
      exact h

theorem delivers_commit (pending : List (Decl × Def)) :
    Delivers (c.commit pending) (fun _ => True) E := by
  refine ⟨fun _ _ _ _ => trivial, fun s e t hrun => ?_⟩
  cases hrun

/-- After the examination only the recursion can fail. -/
theorem delivers_termination (pending : List (Decl × Def)) {group : List CheckUnit}
    (hgroup : group ≠ []) (h : ∀ units, units ≠ [] → units.Sublist group → E ⟨units⟩) :
    Delivers (c.checkTermination (pending.map Prod.snd) group >>= fun _ => c.commit pending)
      (fun _ => True) E := by
  refine Delivers.bind (P := fun _ => True) ⟨fun _ _ _ _ => trivial, fun s e t hrun => ?_⟩
    fun _ _ => delivers_commit pending
  rcases run_checkTermination hrun with ⟨hok, -⟩ | ⟨e', _, _, he, -, -, hpart, hnonempty⟩
  · cases hok
  · cases he
    exact h _ (hnonempty hgroup) hpart

/-- The declarations `ids` with what the checker returned for them. -/
structure Answers (c : Setup κ ρ) (P : Decl → Def → Prop) (ids : List DefId)
    (pending : List (Decl × Def)) : Prop where
  ids_eq : pending.map (fun x => x.1.id) = ids
  declared : ∀ x ∈ pending, c.module.get? x.1.id = some x.1
  answer : ∀ x ∈ pending, P x.1 x.2

section Examination

variable {P : Decl → Def → Prop} (hP : c.checker.Returns P)
include hP

theorem delivers_examineUnit {u : CheckUnit} (h : E ⟨[u]⟩) :
    Delivers (c.examineUnit u) (c.Answers P (if u.isHead then [] else [u.id])) E := by
  refine (delivers_declOf h).bind fun d hd => ?_
  have hid := Module.id_of_get? hd
  split
  · split
    · exact delivers_fail h _
    · exact (delivers_checkHeader h d).bind fun _ _ => .pure ⟨rfl, by simp, by simp⟩
  · split
    · exact delivers_fail h _
    · refine (delivers_checkHeader h d).bind fun _ _ => ?_
      refine (delivers_checkBody hP h d).bind fun result hresult => .pure ⟨?_, ?_, ?_⟩
      · simp [hid]
      · simp [hid, hd]
      · simpa using hresult

theorem delivers_examineGroup {ids : List DefId} (h : ∀ id ∈ ids, E ⟨[.body id]⟩) :
    Delivers (c.examineGroup ids) (c.Answers P ids) E := by
  have hdecls : Delivers (ids.mapM fun id => do
      let d ← c.declOf (.body id)
      c.checkHeader (.body id) d
      return d) (fun ds => ds.map Decl.id = ids ∧ ∀ d ∈ ds, c.module.get? d.id = some d) E := by
    refine Delivers.mapM fun id hid => (delivers_declOf (h id hid)).bind fun d hd => ?_
    refine (delivers_checkHeader (h id hid) d).bind fun _ _ => .pure ?_
    have hself := Module.id_of_get? hd
    subst hself
    exact ⟨rfl, hd⟩
  refine hdecls.bind fun ds hds => ?_
  have hblame : ∀ d ∈ ds, E ⟨[.body d.id]⟩ := fun d hd =>
    h d.id (hds.1 ▸ List.mem_map_of_mem hd)
  have hbodies : Delivers (ds.mapM fun d => return (d, ← c.checkBody (.body d.id) d) :
      CheckM κ ρ (List (Decl × Def))) (fun pending => pending.map Prod.fst = ds ∧
        ∀ x ∈ pending, P x.1 x.2) E := by
    refine Delivers.mapM fun d hd => ?_
    exact (delivers_checkBody hP (hblame d hd) d).bind fun result hresult => .pure ⟨rfl, hresult⟩
  refine ⟨fun s pending t hrun => ?_, hbodies.failure⟩
  obtain ⟨hfst, hanswer⟩ := hbodies.result s pending t hrun
  refine ⟨?_, fun x hx => ?_, hanswer⟩
  · rw [← hds.1, ← hfst, List.map_map]
    rfl
  · exact hds.2 x.1 (hfst ▸ List.mem_map_of_mem hx)

end Examination

/-- The declarations whose bodies a component is about. -/
def bodyIds (c : Setup κ ρ) : List CheckUnit → List DefId
  | [] => []
  | [u] => if u.isHead then [] else [u.id]
  | group => if 2 ≤ (group.filter CheckUnit.isHead).length then [] else c.declIds group

section Ids

variable {group : List CheckUnit} {id : DefId}

theorem mem_declIds_iff : id ∈ c.declIds group ↔ .body id ∈ group ∨ .head id ∈ group := by
  have hids : id ∈ (group.map CheckUnit.id).eraseDups ↔ .body id ∈ group ∨ .head id ∈ group := by
    rw [List.mem_eraseDups, List.mem_map]
    constructor
    · rintro ⟨u, hu, rfl⟩
      cases u with
      | head id => exact .inr hu
      | body id => exact .inl hu
    · rintro (hu | hu)
      · exact ⟨_, hu, rfl⟩
      · exact ⟨_, hu, rfl⟩
  simp only [declIds, List.mem_append, List.mem_filter, hids, decide_eq_true_eq]
  cases hknown : c.module.contains id with
  | true => simp [Table.contains_eq_true_iff.mp hknown, Module.ids]
  | false => simp

theorem nodup_declIds (c : Setup κ ρ) (group : List CheckUnit) : (c.declIds group).Nodup := by
  unfold declIds
  refine List.nodup_append.mpr ⟨(Digraph.nodup_eraseDups _).filter _,
    c.module.table.nodup_keys.filter _, fun id hid id' hid' heq => ?_⟩
  subst heq
  have hout := (List.mem_filter.mp hid).2
  have hin := (List.mem_filter.mp hid').1
  rw [Module.contains, Table.contains_eq_true_iff.mpr hin] at hout
  cases hout

theorem nodup_bodyIds (c : Setup κ ρ) (group : List CheckUnit) : (c.bodyIds group).Nodup := by
  rcases group with _ | ⟨u, _ | ⟨v, rest⟩⟩
  · exact List.nodup_nil
  · cases u <;> simp [bodyIds, CheckUnit.isHead]
  · simp only [bodyIds]
    split
    · exact List.nodup_nil
    · exact c.nodup_declIds _

/-- A component of several members is about the bodies of all declarations that belong to it with
any unit. -/
theorem mem_bodyIds_iff (hheads : (group.filter CheckUnit.isHead).length < 2) :
    id ∈ c.bodyIds group ↔ .body id ∈ group ∨ .head id ∈ group ∧ 2 ≤ group.length := by
  rcases group with _ | ⟨u, _ | ⟨v, rest⟩⟩
  · simp [bodyIds]
  · cases u <;> simp [bodyIds, CheckUnit.isHead, CheckUnit.id]
  · have hids : c.bodyIds (u :: v :: rest) = c.declIds (u :: v :: rest) :=
      if_neg (Nat.not_le.mpr hheads)
    rw [hids, mem_declIds_iff]
    simp

end Ids

theorem delivers_examine {P : Decl → Def → Prop} (hP : c.checker.Returns P)
    (group : List CheckUnit) :
    Delivers (c.examine group) (c.Answers P (c.bodyIds group)) (fun _ => True) := by
  rcases group with _ | ⟨u, _ | ⟨v, rest⟩⟩
  · exact .pure ⟨rfl, by simp, by simp⟩
  · exact delivers_examineUnit hP trivial
  · simp only [examine, bodyIds]
    split
    · exact delivers_fail trivial _
    · rcases c.declIds (u :: v :: rest) with _ | ⟨id, _ | ⟨id', ids⟩⟩
      · exact delivers_examineGroup hP fun _ _ => trivial
      · exact delivers_examineUnit hP trivial
      · exact delivers_examineGroup hP fun _ _ => trivial

/-- Units that a failure of the component may name. -/
def Blameable (c : Setup κ ρ) (group units : List CheckUnit) : Prop :=
  units ≠ [] ∧ (units.Sublist group ∨ ∃ id ∈ c.bodyIds group, units = [.body id])

/-- The checks of single units blame the unit. -/
theorem delivers_checkUnit {u : CheckUnit} (h : E ⟨[u]⟩) :
    Delivers (c.checkUnit u) (fun _ => True) E := by
  have hany : c.checker.Returns fun _ _ => True := fun _ _ _ _ => trivial
  rw [checkUnit_eq]
  refine (delivers_examineUnit hany h).bind fun pending _ => ?_
  unfold concludeUnit
  split
  · refine delivers_termination pending (List.cons_ne_nil _ _) fun units hne hpart => ?_
    rwa [(List.sublist_singleton.mp hpart).resolve_left hne]
  · exact delivers_commit pending

theorem delivers_checkGroup {ids : List DefId} {group : List CheckUnit} (hgroup : group ≠ [])
    (h : ∀ id ∈ ids, E ⟨[.body id]⟩)
    (hpart : ∀ units, units ≠ [] → units.Sublist group → E ⟨units⟩) :
    Delivers (c.checkGroup ids group) (fun _ => True) E := by
  have hany : c.checker.Returns fun _ _ => True := fun _ _ _ _ => trivial
  rw [checkGroup_eq]
  exact (delivers_examineGroup hany h).bind fun pending _ =>
    delivers_termination pending hgroup hpart

theorem delivers_checkMembers (group : List CheckUnit) :
    Delivers (c.checkMembers group) (fun _ => True) (fun e => c.Blameable group e.units) := by
  rcases group with _ | ⟨u, _ | ⟨v, rest⟩⟩
  · exact .pure trivial
  · exact delivers_checkUnit ⟨List.cons_ne_nil _ _, .inl (List.Sublist.refl _)⟩
  · simp only [checkMembers, checkMutual]
    split
    · exact delivers_fail ⟨List.cons_ne_nil _ _, .inl (List.Sublist.refl _)⟩ _
    · rename_i hheads
      have hids : c.bodyIds (u :: v :: rest) = c.declIds (u :: v :: rest) := if_neg hheads
      have hblame : ∀ id ∈ c.declIds (u :: v :: rest), c.Blameable (u :: v :: rest) [.body id] :=
        fun id hid => ⟨List.cons_ne_nil _ _, .inr ⟨id, hids ▸ hid, rfl⟩⟩
      have hpart : ∀ units, units ≠ [] → units.Sublist (u :: v :: rest) →
          c.Blameable (u :: v :: rest) units := fun _ hne hpart => ⟨hne, .inl hpart⟩
      clear hids
      generalize c.declIds (u :: v :: rest) = ids at hblame ⊢
      rcases ids with _ | ⟨id, _ | ⟨id', ids⟩⟩
      · exact delivers_checkGroup (List.cons_ne_nil _ _) hblame hpart
      · exact delivers_checkUnit (hblame id (by simp))
      · exact delivers_checkGroup (List.cons_ne_nil _ _) hblame hpart

/-- A failed component blames a part of itself, or the body of one of its declarations. -/
theorem blameable_of_checkComponent_error {group : List CheckUnit} {failure : Failure}
    (h : c.checkComponent group s = some (.error failure, t)) :
    c.Blameable group failure.units := by
  obtain ⟨⟨r, t'⟩, hrun, hend⟩ := Option.bind_eq_some_iff.mp h
  cases r with
  | ok a => cases hend
  | error e =>
    cases hend
    exact (delivers_checkMembers group).failure _ _ _ hrun

/-- The declarations that a component contributes to what is accepted. -/
def exported (c : Setup κ ρ) (group : List CheckUnit) : List Decl :=
  ((c.bodyIds group).filterMap c.module.get?).filter fun d => !d.isExample || c.keepExamples

/-- What a component that passes adds to the accepted definitions was returned for its
declarations. -/
theorem exists_answers_of_checkComponent_ok {P : Decl → Def → Prop} (hP : c.checker.Returns P)
    {group : List CheckUnit} (h : c.checkComponent group s = some (.ok (), t)) :
    ∃ pending, c.Answers P (c.bodyIds group) pending ∧ t.accepted = s.accepted ++
      (pending.filter fun x => !x.1.isExample || c.keepExamples).map Prod.snd := by
  rcases checkComponent_cases h with ⟨pending, t₀, hexamine, -, rfl⟩ | ⟨_, _, _, _, _, -, hr, -⟩
  · obtain ⟨new, hlearns⟩ := learns_of_moves (onlyMoves_examine group _ _ t₀ hexamine)
    refine ⟨pending, (delivers_examine hP group).result _ _ _ hexamine, ?_⟩
    rw [Session.accepted_commitAll, hlearns.accepted]
  · cases hr

/-- A component that passes has its declarations accepted, and nothing else. -/
theorem accepted_of_checkComponent_ok (hown : c.checker.ReturnsOwn) {group : List CheckUnit}
    (h : c.checkComponent group s = some (.ok (), t)) :
    t.accepted = s.accepted ++ (c.exported group).map Decl.definition := by
  obtain ⟨pending, hanswers, haccepted⟩ := exists_answers_of_checkComponent_ok hown h
  have hdecls : (c.bodyIds group).filterMap c.module.get? = pending.map Prod.fst := by
    rw [← hanswers.ids_eq, List.filterMap_map]
    exact List.filterMap_eq_map_iff_forall_eq_some.mpr hanswers.declared
  rw [haccepted, exported, hdecls, List.filter_map, List.map_map]
  refine congrArg _ (List.map_congr_left fun x hx => ?_)
  exact hanswers.answer x (List.mem_of_mem_filter hx)

/-- Several signatures in one component fail together, before anything is asked. -/
theorem checkComponent_of_heads {group : List CheckUnit}
    (hheads : 2 ≤ (group.filter CheckUnit.isHead).length) (s : Session κ ρ) :
    ∃ t, c.checkComponent group s = some (.error ⟨group⟩, t) := by
  rcases group with _ | ⟨u, _ | ⟨v, rest⟩⟩
  · simp at hheads
  · have hle := List.length_filter_le CheckUnit.isHead [u]
    simp only [List.length_singleton] at hle
    omega
  · simp only [checkComponent, checkMembers, checkMutual, if_pos hheads]
    exact ⟨_, rfl⟩

end Setup

namespace Stage

variable {κ ρ : Type} {c : Setup κ ρ} {done group : List CheckUnit}

theorem groupDecls_heads {m : Module} (hheads : ∀ u ∈ group, u.isHead = true) :
    m.groupDecls group = [] := by
  rw [List.eq_nil_iff_forall_not_mem]
  intro d hd
  cases hheads _ (Module.mem_groupDecls_iff.mp hd).2

/-- In the graph of a module, a component is about the bodies that belong to it. -/
theorem bodyIds_eq (stage : Stage c.module done group) :
    c.bodyIds group = (c.module.groupDecls group).map Decl.id := by
  obtain ⟨u, hu⟩ := List.exists_mem_of_ne_nil group stage.ne_nil
  have hsame : ∀ w ∈ group, w.isHead = u.isHead := fun w hw => stage.isHead_eq hw hu
  cases hhead : u.isHead with
  | true =>
    have hheads : ∀ w ∈ group, w.isHead = true := fun w hw => (hsame w hw).trans hhead
    rw [groupDecls_heads hheads]
    rcases group with _ | ⟨v, _ | ⟨w, rest⟩⟩
    · rfl
    · exact if_pos (hheads v (by simp))
    · refine if_pos ?_
      rw [List.filter_eq_self.mpr hheads]
      simp
  | false =>
    have hbody : ∀ w ∈ group, w.isHead = false := fun w hw => (hsame w hw).trans hhead
    have hids : (c.module.setup 0).declIds group = (c.module.groupDecls group).map Decl.id :=
      stage.declIds_eq hbody
    rcases group with _ | ⟨v, _ | ⟨w, rest⟩⟩
    · exact absurd rfl stage.ne_nil
    · cases v with
      | head id => cases hbody _ (List.mem_singleton_self _)
      | body id =>
        obtain ⟨d, rfl, hd⟩ : ∃ d : Decl, d.id = id ∧ c.module.get? d.id = some d :=
          stage.exists_decl (List.mem_singleton_self _)
        rw [Module.groupDecls_singleton hd]
        rfl
    · rw [← hids]
      refine if_neg ?_
      rw [List.filter_eq_nil_iff.mpr fun w hw => by simp [hbody w hw]]
      simp

theorem blamed_sublist (stage : Stage c.module done group) {units : List CheckUnit}
    (h : c.Blameable group units) : units.Sublist group := by
  rcases h.2 with hpart | ⟨id, hid, rfl⟩
  · exact hpart
  · rw [stage.bodyIds_eq] at hid
    exact List.singleton_sublist.mpr (stage.mem_ids_iff.mp hid)

theorem exported_eq (stage : Stage c.module done group) :
    c.exported group =
      (c.module.groupDecls group).filter fun d => !d.isExample || c.keepExamples := by
  have hdecls : (c.bodyIds group).filterMap c.module.get? = (c.module.groupDecls group).map id := by
    rw [stage.bodyIds_eq, List.filterMap_map]
    exact List.filterMap_eq_map_iff_forall_eq_some.mpr fun d hd =>
      (Module.mem_groupDecls_iff.mp hd).1
  rw [Setup.exported, hdecls, List.map_id]

end Stage

end ProofCore
