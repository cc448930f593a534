import LiveTemplate.Proofs.Assigns.Tracking

/-!
Calls that fail to set bindings. Nothing is bound by such a call. But entries are compared one by one,
and what was noted for those ahead of a reserved name stays noted: the changes then name bindings that
are as before.
-/

namespace LiveTemplate

set_option autoImplicit false

namespace Assigns

variable {a b : Assigns}

/-- Changes with a mark for each of the entries that differ from what is held. -/
def marked (held : Record Value) (entries : List (String × Value)) (changes : ChangedSet) :
    ChangedSet :=
  entries.foldl (fun noted e => (markOf held e.1 e.2).elim noted (noted.add e.1)) changes

/-- The entries ahead of the first reserved name. -/
def aheadOfReserved (entries : List (String × Value)) : List (String × Value) :=
  entries.takeWhile fun e => e.1 ∉ reservedNames

theorem marked_cons_none {held : Record Value} {name : String} {value : Value}
    {rest : List (String × Value)} {changes : ChangedSet} (h : markOf held name value = none) :
    marked held ((name, value) :: rest) changes = marked held rest changes := by
  rw [marked, List.foldl_cons, h]
  rfl

theorem marked_cons_some {held : Record Value} {name : String} {value : Value} {mark : Mark}
    {rest : List (String × Value)} {changes : ChangedSet} (h : markOf held name value = some mark) :
    marked held ((name, value) :: rest) changes = marked held rest (changes.add name mark) := by
  rw [marked, List.foldl_cons, h]
  rfl

theorem marked_eq_self {held : Record Value} {entries : List (String × Value)}
    (h : ∀ e ∈ entries, markOf held e.1 e.2 = none) (changes : ChangedSet) :
    marked held entries changes = changes := by
  induction entries with
  | nil => rfl
  | cons e rest ih =>
    rw [marked_cons_none (h e List.mem_cons_self)]
    exact ih fun e he => h e (List.mem_cons_of_mem _ he)

/-- Entries are noted up to the first reserved name, which is what makes noting fail. -/
theorem note_leaves {held : Record Value} {entries : List (String × Value)} {next : Bindings}
    {r : Except AssignError Bindings} (h : (note held entries next).Leaves a r b) :
    b = { a with changes := marked held (aheadOfReserved entries) a.changes } ∧
      ∀ e, r = .error e ↔
        ∃ entry, entries.find? (·.1 ∈ reservedNames) = some entry ∧ e = .reserved entry.1 := by
  induction entries generalizing next a with
  | nil =>
    obtain ⟨rfl, rfl⟩ := Assigning.leaves_pure h
    exact ⟨rfl, fun e => by simp⟩
  | cons entry rest ih =>
    obtain ⟨name, value⟩ := entry
    rw [note] at h
    split at h
    · rename_i hreserved
      obtain ⟨_, hthrow, rfl⟩ | ⟨_, _, hthrow, _⟩ := Assigning.leaves_bind h
      · obtain ⟨he, rfl⟩ := Assigning.leaves_throw hthrow
        cases he
        simp [aheadOfReserved, hreserved, marked, eq_comm]
      · cases (Assigning.leaves_throw hthrow).1
    · rename_i hfree
      have hahead : aheadOfReserved ((name, value) :: rest) = (name, value) :: aheadOfReserved rest :=
        List.takeWhile_cons_of_pos (decide_eq_true hfree)
      have hfind : ((name, value) :: rest).find? (·.1 ∈ reservedNames) =
          rest.find? (·.1 ∈ reservedNames) := List.find?_cons_of_neg (by simpa using hfree)
      rw [hahead, hfind]
      dsimp only at h
      split at h
      · rename_i hmark
        rw [marked_cons_none hmark]
        exact ih h
      · rename_i mark hmark
        obtain ⟨_, hmodify, -⟩ | ⟨_, c, hmodify, h⟩ := Assigning.leaves_bind h
        · cases (Assigning.leaves_modify hmodify).1
        obtain ⟨-, rfl⟩ := Assigning.leaves_modify hmodify
        rw [marked_cons_some hmark]
        exact ih h

/-- Once all entries are noted, nothing fails any more. -/
theorem assignAll_leaves {entries : List (String × Value)} {r : Except AssignError Unit}
    (h : (assignAll entries).Leaves a r b) :
    (∃ e, (note a.values entries { fields := a.values }).Leaves a (.error e) b ∧ r = .error e) ∨
      ∃ made c, (note a.values entries { fields := a.values }).Leaves a (.ok made) c ∧ r = .ok () := by
  rw [assignAll] at h
  replace h := Assigning.leaves_get_bind h
  dsimp only at h
  obtain ⟨e, hnote, rfl⟩ | ⟨made, c, hnote, hset⟩ := Assigning.leaves_bind h
  · exact .inl ⟨e, hnote, rfl⟩
  · refine .inr ⟨made, c, hnote, ?_⟩
    split at hset
    · obtain ⟨_, hfresh, -⟩ | ⟨id, _, hfresh, hbind⟩ := Assigning.leaves_bind hset
      · obtain ⟨i, hi⟩ := (Assigning.leaves_fresh hfresh).1
        cases hi
      · exact (Assigning.leaves_modify hbind).1
    · exact (Assigning.leaves_pure hset).1

/-- Setting bindings in turn fails exactly if a name is reserved, and then over the first such name. -/
theorem assignAll_error_iff {entries : List (String × Value)} {r : Except AssignError Unit}
    (h : (assignAll entries).Leaves a r b) (e : AssignError) :
    r = .error e ↔
      ∃ entry, entries.find? (·.1 ∈ reservedNames) = some entry ∧ e = .reserved entry.1 := by
  obtain ⟨e', hnote, rfl⟩ | ⟨made, c, hnote, rfl⟩ := assignAll_leaves h
  · rw [← (note_leaves hnote).2 e, Except.error.injEq, Except.error.injEq]
  · rw [← (note_leaves hnote).2 e]
    exact ⟨fun he => (by cases he), fun he => (by cases he)⟩

theorem assignAll_failed {entries : List (String × Value)} {e : AssignError}
    (h : (assignAll entries).Leaves a (.error e) b) :
    b = { a with changes := marked a.values (aheadOfReserved entries) a.changes } := by
  obtain ⟨_, hnote, -⟩ | ⟨_, _, -, hr⟩ := assignAll_leaves h
  · exact (note_leaves hnote).1
  · cases hr

/-- A single binding is set or it is not. -/
theorem assign_computed_failed {key : String} {x : Eval Value} {e : AssignError}
    (h : (compute x >>= assign key : Assigning Unit).Leaves a (.error e) b) : b = a := by
  obtain ⟨_, hcompute, -⟩ | ⟨v, _, hcompute, hassign⟩ := Assigning.leaves_bind h
  · exact Assigning.leaves_compute hcompute
  · rw [Assigning.leaves_compute hcompute] at hassign
    obtain ⟨entry, hentry, -⟩ := (assignAll_error_iff hassign e).mp rfl
    have hreserved : key ∈ reservedNames := by
      have hmem := List.mem_singleton.mp (List.mem_of_find?_eq_some hentry)
      have := List.find?_some hentry
      simpa [hmem] using this
    have hahead : aheadOfReserved [(key, v)] = [] :=
      List.takeWhile_cons_of_neg (by simpa using hreserved)
    rw [assignAll_failed hassign, hahead]
    rfl

/-- The entries that a call compares before it can fail. -/
def Call.compared : Call → List (String × Value)
  | assign entries => aheadOfReserved entries
  | assignNew _ _ | update _ _ => []

/-- A call that fails binds nothing. Of the changes it keeps what it has noted by then; they are as
before when no entry ahead of the reserved name differs from what is held. -/
theorem call_failed {call : Call} {e : AssignError} (h : call.run.Leaves a (.error e) b) :
    b = { a with changes := marked a.values call.compared a.changes } ∧
      ((∀ entry ∈ call.compared, markOf a.values entry.1 entry.2 = none) → b = a) := by
  have hfailed : b = { a with changes := marked a.values call.compared a.changes } := by
    cases call with
    | assign entries => exact assignAll_failed h
    | assignNew key f =>
      rw [Call.run, assignNew] at h
      replace h := Assigning.leaves_get_bind h
      split at h
      · cases (Assigning.leaves_pure h).1
      · exact assign_computed_failed h
    | update key f =>
      rw [Call.run, update] at h
      replace h := Assigning.leaves_get_bind h
      dsimp only at h
      split at h
      · obtain ⟨_, hthrow, -⟩ | ⟨_, _, hthrow, -⟩ := Assigning.leaves_bind h
        · exact (Assigning.leaves_throw hthrow).2
        · cases (Assigning.leaves_throw hthrow).1
      · exact assign_computed_failed h
  refine ⟨hfailed, fun hnone => ?_⟩
  rw [hfailed, marked_eq_self hnone]

/-- A title is compared before the reserved name: it is not bound, and yet noted as changed. -/
theorem call_failed_title :
    let a : Assigns := { bindings := { fields := [("title", .text "Hi")] } }
    let call : Call := .assign [("title", .text "Ho"), ("assigns", .null)]
    let b : Assigns := { a with changes := [("title", .whole)] }
    call.run.Leaves a (.error (.reserved "assigns")) b ∧
      b = { a with changes := marked a.values call.compared a.changes } := by
  intro a call b
  have h : call.run.Leaves a (.error (.reserved "assigns")) b := ⟨0, 0, rfl⟩
  exact ⟨h, (call_failed h).1⟩

end Assigns

end LiveTemplate
