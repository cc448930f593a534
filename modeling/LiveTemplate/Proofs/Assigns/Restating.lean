import LiveTemplate.Proofs.Assigns.Tracking

/-!
Bindings that are set to what they hold. Values of equal content are told apart by no mark, so that
nothing is noted and nothing is bound.
-/

namespace LiveTemplate

set_option autoImplicit false

namespace Value

variable {P : Value → Prop} {a b : Value}

theorem changeMark_refl (a : Value) : changeMark a a = none := by
  by_cases hrecord : ∃ i p fs, a = .record i p fs
  · obtain ⟨i, p, fs, rfl⟩ := hrecord
    rw [changeMark_records, beq_self_eq_true]
    rfl
  · rw [changeMark_wholes fun i p fs _ _ _ ha _ => hrecord ⟨i, p, fs, ha⟩, deepEqual_refl]
    rfl

/-- As many names as another record has, all of them among its names, are all of its names. -/
theorem mem_keys_of_length {fs gs : List (String × Value)} (hf : (Assoc.keys fs).Nodup)
    (hlength : fs.length = gs.length) (hsub : Assoc.keys fs ⊆ Assoc.keys gs) :
    Assoc.keys gs ⊆ Assoc.keys fs := by
  have hkeys : (Assoc.keys gs).length = (Assoc.keys fs).length := by
    rw [Assoc.keys, Assoc.keys, List.length_map, List.length_map, hlength]
  exact ((List.subperm_of_subset hf hsub).perm_of_length_le (Nat.le_of_eq hkeys)).symm.subset

/-- Values of equal content are told apart by no mark. -/
theorem Stock.changeMark_of_deepEqual (hP : Stock P) (ha : P a) (hb : P b)
    (h : deepEqual a b = true) : changeMark a b = none := by
  induction hn : sizeOf a using Nat.strongRecOn generalizing a b with
  | ind n ih =>
    have hwhole : (∀ i p fs, a ≠ .record i p fs) → changeMark a b = none := by
      intro hrecord
      rw [changeMark_wholes fun i p fs _ _ _ ha _ => hrecord i p fs ha, h]
      rfl
    cases hP.equal ha hb h with
    | same => exact changeMark_refl a
    | numbers | lists | dates => exact hwhole fun _ _ _ hrecord => by cases hrecord
    | @records i j p q fs gs hp hq hlength hfields =>
      have hsub : Assoc.keys fs ⊆ Assoc.keys gs := by
        intro name hname
        obtain ⟨e, he, rfl⟩ := List.mem_map.mp hname
        obtain ⟨w, hw, -⟩ := hfields e he
        rw [Assoc.mem_keys_iff, hw]
        rfl
      have hnone : ∀ name, Assoc.get? (partMarks fs gs) name = none := by
        intro name
        rw [get?_partMarks gs (hP.names ha)]
        cases hf : Assoc.get? fs name with
        | some v =>
          have he := Assoc.mem_of_get? hf
          obtain ⟨w, hw, hequal⟩ := hfields (name, v) he
          dsimp only at hw hequal
          rw [hw]
          exact ih _ (hn ▸ sizeOf_field he) (hP.field ha he)
            (hP.field hb (Assoc.mem_of_get? hw)) hequal rfl
        | none =>
          cases hg : Assoc.get? gs name with
          | none => rfl
          | some w =>
            have hin : name ∈ Assoc.keys gs := Assoc.mem_keys_iff.mpr (by rw [hg]; rfl)
            have hin := mem_keys_of_length (hP.names ha) hlength hsub hin
            rw [Assoc.mem_keys_iff, hf] at hin
            cases hin
      have hparts : partMarks fs gs = [] := by
        refine List.eq_nil_iff_forall_not_mem.mpr fun m hm => ?_
        have hin : m.1 ∈ Assoc.keys (partMarks fs gs) := List.mem_map_of_mem hm
        rw [Assoc.mem_keys_iff, hnone] at hin
        cases hin
      rw [changeMark_records, hparts, hp, hq]
      cases i == j <;> rfl

end Value

theorem Assigning.leaves_compute_ok {x : Eval Value} {a b : Assigns} {v : Value}
    (h : (Assigns.compute x).Leaves a (.ok v) b) : ∃ n m, x.run.run n = (.ok v, m) := by
  obtain ⟨n, m, h⟩ := h
  refine ⟨n, (x.run.run n).2, Prod.ext ?_ rfl⟩
  have hresult : (x.run.run n).1.mapError AssignError.eval = .ok v :=
    congrArg (fun done => done.1.1) h
  cases hx : (x.run.run n).1 with
  | error e =>
    rw [hx] at hresult
    cases hresult
  | ok w =>
    rw [hx] at hresult
    cases hresult
    rfl

namespace Assigns

open Value (Stock)

variable {P : Value → Prop} {a b : Assigns}

/-- A call that sets bindings to values of the content they hold. What is there already is not set a
first time, and a value that cannot be computed is not set at all. -/
def Call.Restates (P : Value → Prop) (a : Assigns) : Call → Prop
  | assign entries => ∀ e ∈ entries, P e.2 ∧
      ∃ held, Assoc.get? a.values e.1 = some held ∧ Value.deepEqual held e.2 = true
  | assignNew key _ => a.has key = true
  | update key f => ∀ v n m, ((do f (← a.get key) a.record : Eval Value).run.run n) = (.ok v, m) →
      P v ∧ ∃ held, Assoc.get? a.values key = some held ∧ Value.deepEqual held v = true

theorem note_restated {held : Record Value} {entries : List (String × Value)} {next : Bindings}
    {r : Except AssignError Bindings} (hnone : ∀ e ∈ entries, markOf held e.1 e.2 = none)
    (h : (note held entries next).Leaves a r b) : b = a := by
  induction entries with
  | nil => exact (Assigning.leaves_pure h).2
  | cons e rest ih =>
    obtain ⟨name, value⟩ := e
    rw [List.forall_mem_cons] at hnone
    rw [note] at h
    split at h
    · obtain ⟨_, hthrow, -⟩ | ⟨_, _, hthrow, -⟩ := Assigning.leaves_bind h
      · exact (Assigning.leaves_throw hthrow).2
      · cases (Assigning.leaves_throw hthrow).1
    · dsimp only at h
      rw [hnone.1] at h
      exact ih hnone.2 h

theorem assignAll_restated (hP : Stock P) (ha : a.Within P) {entries : List (String × Value)}
    (hentries : (Call.assign entries).Restates P a) {r : Except AssignError Unit}
    (h : (assignAll entries).Leaves a r b) : b = a := by
  have hnone : ∀ e ∈ entries, markOf a.values e.1 e.2 = none := by
    intro e he
    obtain ⟨hvalue, held, hheld, hequal⟩ := hentries e he
    rw [markOf_eq, hheld]
    exact hP.changeMark_of_deepEqual (ha e.1 held hheld) hvalue hequal
  have hany : (entries.any fun e => (markOf a.values e.1 e.2).isSome) = false := by
    rw [List.any_eq_false]
    intro e he
    rw [hnone e he]
    exact Bool.false_ne_true
  rw [assignAll] at h
  replace h := Assigning.leaves_get_bind h
  dsimp only at h
  obtain ⟨_, hnote, -⟩ | ⟨made, c, hnote, hset⟩ := Assigning.leaves_bind h
  · exact note_restated hnone hnote
  · rw [hany, if_neg Bool.false_ne_true] at hset
    rw [(Assigning.leaves_pure hset).2]
    exact note_restated hnone hnote

/-- A call that restates what is held leaves everything as it is, whether it fails or not. -/
theorem call_restated (hP : Stock P) (ha : a.Within P) {call : Call} (hcall : call.Restates P a)
    {r : Except AssignError Unit} (h : call.run.Leaves a r b) : b = a := by
  cases call with
  | assign entries => exact assignAll_restated hP ha hcall h
  | assignNew key f =>
    rw [Call.run, assignNew] at h
    replace h := Assigning.leaves_get_bind h
    have hheld : a.has key = true := hcall
    rw [if_pos hheld] at h
    exact (Assigning.leaves_pure h).2
  | update key f =>
    rw [Call.run, update] at h
    replace h := Assigning.leaves_get_bind h
    dsimp only at h
    split at h
    · obtain ⟨_, hthrow, -⟩ | ⟨_, _, hthrow, -⟩ := Assigning.leaves_bind h
      · exact (Assigning.leaves_throw hthrow).2
      · cases (Assigning.leaves_throw hthrow).1
    · obtain ⟨_, hcompute, -⟩ | ⟨v, _, hcompute, hassign⟩ := Assigning.leaves_bind h
      · exact Assigning.leaves_compute hcompute
      · rw [Assigning.leaves_compute hcompute] at hassign
        obtain ⟨n, m, hrun⟩ := Assigning.leaves_compute_ok hcompute
        refine assignAll_restated hP ha (List.forall_mem_singleton.mpr ?_) hassign
        exact hcall v n m hrun

end Assigns

end LiveTemplate
