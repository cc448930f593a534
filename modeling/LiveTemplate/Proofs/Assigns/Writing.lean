import LiveTemplate.Proofs.Assigns.Tracking
import LiveTemplate.Value.Bindings

/-!
Values written to records in turn. What is written under a name does not matter once the name is
written again; the last write stays.
-/

namespace LiveTemplate

set_option autoImplicit false

/-! ### Records that differ under one name -/

/-- Records that differ in no more than what they hold first under a name, which both hold. -/
inductive Record.SameBut (name : String) : Record Value → Record Value → Prop
  | here (v w : Value) (rest : Record Value) : SameBut name ((name, v) :: rest) ((name, w) :: rest)
  | there {f : String × Value} {fields more : Record Value} (hne : f.1 ≠ name)
      (h : SameBut name fields more) : SameBut name (f :: fields) (f :: more)

namespace Record.SameBut

variable {name : String} {fields more : Record Value}

theorem contains_self (h : SameBut name fields more) : Assoc.contains fields name = true := by
  induction h with
  | here v w rest => rw [Assoc.contains, Assoc.get?, if_pos rfl, Option.isSome_some]
  | there hne _ ih => rwa [Assoc.contains, Assoc.get?, if_neg hne]

theorem symm (h : SameBut name fields more) : SameBut name more fields := by
  induction h with
  | here v w rest => exact .here w v rest
  | there hne _ ih => exact .there hne ih

theorem contains_eq (h : SameBut name fields more) (key : String) :
    Assoc.contains fields key = Assoc.contains more key := by
  rw [Assoc.contains, Assoc.contains]
  induction h with
  | here v w rest =>
    rw [Assoc.get?, Assoc.get?]
    split <;> rfl
  | there _ _ ih =>
    rw [Assoc.get?, Assoc.get?]
    split
    · rfl
    · exact ih

theorem set_self (h : SameBut name fields more) (v : Value) :
    Assoc.set fields name v = Assoc.set more name v := by
  induction h with
  | here u w rest => rw [Assoc.set, Assoc.set, if_pos rfl, if_pos rfl]
  | there hne _ ih => rw [Assoc.set, Assoc.set, if_neg hne, if_neg hne, ih]

/-- Writing the name makes the records the same. -/
theorem insert_self (h : SameBut name fields more) (v : Value) :
    Record.insert fields name v = Record.insert more name v := by
  rw [Record.insert, Record.insert, if_pos h.contains_self, if_pos h.symm.contains_self, h.set_self]

section Other
variable (h : SameBut name fields more) {key : String} (hkey : key ≠ name) (v : Value)
include h hkey

theorem set : SameBut name (Assoc.set fields key v) (Assoc.set more key v) := by
  induction h with
  | here u w rest =>
    rw [Assoc.set, Assoc.set, if_neg hkey.symm, if_neg hkey.symm]
    exact .here u w _
  | @there f _ _ hne h ih =>
    rw [Assoc.set, Assoc.set]
    split
    · exact .there hkey h
    · exact .there hne ih

omit hkey in
theorem append : SameBut name (fields ++ [(key, v)]) (more ++ [(key, v)]) := by
  induction h with
  | here u w rest => exact .here u w _
  | there hne _ ih => exact .there hne ih

theorem place (n : Nat) : SameBut name (Record.place fields n key v) (Record.place more n key v) := by
  induction h with
  | here u w rest =>
    rw [Record.place, Record.place]
    cases Record.index? name with
    | none => exact .there hkey (.here u w rest)
    | some m =>
      dsimp only
      split
      · exact .here u w _
      · exact .there hkey (.here u w rest)
  | @there f _ _ hne h ih =>
    rw [Record.place, Record.place]
    cases Record.index? f.1 with
    | none => exact .there hkey (.there hne h)
    | some m =>
      dsimp only
      split
      · exact .there hne ih
      · exact .there hkey (.there hne h)

/-- Writing another name leaves the difference. -/
theorem insert : SameBut name (Record.insert fields key v) (Record.insert more key v) := by
  rw [Record.insert, Record.insert, h.contains_eq key]
  split
  · exact h.set hkey v
  · cases Record.index? key with
    | none => exact h.append v
    | some n => exact h.place hkey v n

end Other

theorem of_set (hname : Assoc.contains fields name = true) (v w : Value) :
    SameBut name (Assoc.set fields name v) (Assoc.set fields name w) := by
  induction fields with
  | nil => cases hname
  | cons f rest ih =>
    rw [Assoc.set, Assoc.set]
    split
    · exact .here v w rest
    · rename_i hne
      rw [Assoc.contains, Assoc.get?, if_neg hne] at hname
      exact .there hne (ih hname)

theorem of_append (hname : ¬ Assoc.contains fields name = true) (v w : Value) :
    SameBut name (fields ++ [(name, v)]) (fields ++ [(name, w)]) := by
  induction fields with
  | nil => exact .here v w []
  | cons f rest ih =>
    rw [Assoc.contains, Assoc.get?] at hname
    split at hname
    · exact absurd Option.isSome_some hname
    · rename_i hne
      exact .there hne (ih hname)

theorem of_place (hname : ¬ Assoc.contains fields name = true) (n : Nat) (v w : Value) :
    SameBut name (Record.place fields n name v) (Record.place fields n name w) := by
  induction fields with
  | nil => exact .here v w []
  | cons f rest ih =>
    rw [Assoc.contains, Assoc.get?] at hname
    split at hname
    · exact absurd Option.isSome_some hname
    · rename_i hne
      rw [Record.place, Record.place]
      cases Record.index? f.1 with
      | none => exact .here v w _
      | some m =>
        dsimp only
        split
        · exact .there hne (ih hname)
        · exact .here v w _

/-- Two values written under one name. -/
theorem of_insert (fields : Record Value) (name : String) (v w : Value) :
    SameBut name (Record.insert fields name v) (Record.insert fields name w) := by
  rw [Record.insert, Record.insert]
  split
  · exact of_set ‹_› v w
  · cases Record.index? name with
    | none => exact of_append ‹_› v w
    | some n => exact of_place ‹_› n v w

end Record.SameBut

/-! ### Writes that are overtaken -/

namespace Bindings

theorem assignAll_append (b : Bindings) (ws us : List (String × Value)) :
    b.assignAll (ws ++ us) = (b.assignAll ws).assignAll us := List.foldl_append

theorem assignAll_cons (b : Bindings) (w : String × Value) (ws : List (String × Value)) :
    b.assignAll (w :: ws) = (b.assign w.1 w.2).assignAll ws := rfl

theorem assign_of_ne {name : String} (hname : name ≠ parentName) (b : Bindings) (v : Value) :
    b.assign name v = { b with fields := Record.insert b.fields name v } :=
  if_neg fun h => hname h.1

section Overtaken
variable {name : String} (hname : name ≠ parentName)
include hname

omit hname in
/-- Bindings that differ under a name still do after another name is assigned. -/
theorem assign_sameBut {b c : Bindings} (hparent : b.parent = c.parent)
    (hfields : Record.SameBut name b.fields c.fields) {key : String} (hkey : key ≠ name) (v : Value) :
    (b.assign key v).parent = (c.assign key v).parent ∧
      Record.SameBut name (b.assign key v).fields (c.assign key v).fields := by
  have htakes : (b.record 0).takesParent = (c.record 0).takesParent := by
    have hcontains := hfields.contains_eq parentName
    rw [record, record, hparent]
    cases c.parent with
    | plain => exact congrArg (fun held => !held && true) hcontains
    | nothing => exact congrArg (fun held => !held && false) hcontains
    | value u => exact congrArg (fun held => !held && u.takesParent) hcontains
  unfold assign
  rw [htakes]
  split
  · cases v with
    | null => exact ⟨rfl, hfields⟩
    | _ =>
      dsimp only
      split
      · exact ⟨rfl, hfields⟩
      · exact ⟨hparent, hfields⟩
  · exact ⟨hparent, hfields.insert hkey v⟩

/-- What is held under a name does not matter if the name is written. -/
theorem assignAll_of_sameBut {ws : List (String × Value)} (hmem : name ∈ Assoc.keys ws)
    {b c : Bindings} (hparent : b.parent = c.parent)
    (hfields : Record.SameBut name b.fields c.fields) : b.assignAll ws = c.assignAll ws := by
  induction ws generalizing b c with
  | nil => cases hmem
  | cons w rest ih =>
    rw [assignAll_cons, assignAll_cons]
    -- The first write of the name takes the difference away, the writes before it keep it.
    by_cases hkey : w.1 = name
    · rw [hkey, assign_of_ne hname, assign_of_ne hname, hparent, hfields.insert_self]
    · rw [Assoc.keys, List.map_cons, List.mem_cons] at hmem
      obtain ⟨hparent, hfields⟩ := assign_sameBut hparent hfields hkey w.2
      exact ih (hmem.resolve_left (Ne.symm hkey)) hparent hfields

theorem assignAll_overtaken {ws : List (String × Value)} (hmem : name ∈ Assoc.keys ws)
    (b : Bindings) (v u : Value) : b.assignAll ((name, v) :: ws) = b.assignAll ((name, u) :: ws) := by
  rw [assignAll_cons, assignAll_cons, assign_of_ne hname, assign_of_ne hname]
  exact assignAll_of_sameBut hname hmem rfl (.of_insert b.fields name v u)

end Overtaken

end Bindings

/-- The same names written in turn, with the same values except where a name comes again, or is one
of those that come later in any case. -/
inductive Overtaken (more : List String) : List (String × Value) → List (String × Value) → Prop
  | nil : Overtaken more [] []
  | same {ws us : List (String × Value)} (w : String × Value) (h : Overtaken more ws us) :
      Overtaken more (w :: ws) (w :: us)
  | again {ws us : List (String × Value)} {name : String} (v u : Value) (hname : name ≠ parentName)
      (hagain : name ∈ Assoc.keys us ∨ name ∈ more) (h : Overtaken more ws us) :
      Overtaken more ((name, v) :: ws) ((name, u) :: us)

namespace Overtaken

variable {more : List String} {ws us : List (String × Value)}

theorem append_same (h : Overtaken more ws us) (ts : List (String × Value)) :
    Overtaken more (ts ++ ws) (ts ++ us) := by
  induction ts with
  | nil => exact h
  | cons t rest ih => exact .same t ih

/-- Such writes come to the same. -/
theorem assignAll_eq (h : Overtaken more ws us) {ts : List (String × Value)}
    (hmore : ∀ name ∈ more, name ∈ Assoc.keys ts) (b : Bindings) :
    b.assignAll (ws ++ ts) = b.assignAll (us ++ ts) := by
  induction h generalizing b with
  | nil => rfl
  | same w _ ih => exact ih (b.assign w.1 w.2)
  | @again ws us name v u hname hagain _ ih =>
    have hmem : name ∈ Assoc.keys (us ++ ts) := by
      rw [Assoc.keys, List.map_append, List.mem_append]
      exact hagain.imp_right (hmore name)
    calc b.assignAll ((name, v) :: (ws ++ ts))
        = (b.assign name v).assignAll (us ++ ts) := ih (b.assign name v)
      _ = b.assignAll ((name, u) :: (us ++ ts)) := Bindings.assignAll_overtaken hname hmem b v u

end Overtaken

/-! ### The last write -/

namespace Bindings

variable {name : String} (hname : name ≠ parentName)
include hname

theorem get?_assignAll_of_not_mem {ws : List (String × Value)} (hmem : name ∉ Assoc.keys ws)
    (b : Bindings) : Assoc.get? (b.assignAll ws).fields name = Assoc.get? b.fields name := by
  induction ws generalizing b with
  | nil => rfl
  | cons w rest ih =>
    rw [Assoc.keys, List.map_cons, List.mem_cons, not_or] at hmem
    rw [assignAll_cons, ih hmem.2, Assigns.get?_assign b w.1 w.2 hname, if_neg (Ne.symm hmem.1)]

theorem get?_assignAll_last {us : List (String × Value)} (hmem : name ∉ Assoc.keys us)
    (b : Bindings) (ws : List (String × Value)) (v : Value) :
    Assoc.get? (b.assignAll (ws ++ (name, v) :: us)).fields name = some v := by
  rw [assignAll_append, assignAll_cons, get?_assignAll_of_not_mem hname hmem,
    Assigns.get?_assign _ name v hname, if_pos rfl]

end Bindings

/-! ### Names held once -/

theorem Record.nodup_insert {α : Type} {fields : Record α} (h : (Assoc.keys fields).Nodup)
    (name : String) (v : α) : (Assoc.keys (Record.insert fields name v)).Nodup := by
  have hplace : ∀ n, (Assoc.keys (Record.place fields n name v)).Perm (name :: Assoc.keys fields) := by
    intro n
    clear h
    induction fields with
    | nil => exact .refl _
    | cons f rest ih =>
      rw [Record.place]
      cases Record.index? f.1 with
      | none => exact .refl _
      | some m =>
        dsimp only
        split
        · exact (ih.cons f.1).trans (.swap name f.1 _)
        · exact .refl _
  rw [Record.insert]
  split
  · rename_i hcontains
    rwa [Assoc.keys_set, if_pos (Assoc.mem_keys_iff.mpr hcontains)]
  · rename_i hcontains
    have hnew : (name :: Assoc.keys fields).Nodup :=
      List.nodup_cons.mpr ⟨fun hmem => hcontains (Assoc.mem_keys_iff.mp hmem), h⟩
    cases Record.index? name with
    | none =>
      rw [Assoc.keys, List.map_append]
      exact (List.perm_append_singleton name _).nodup_iff.mpr hnew
    | some n => exact (hplace n).nodup_iff.mpr hnew

theorem Bindings.nodup_assign {b : Bindings} (h : (Assoc.keys b.fields).Nodup) (name : String)
    (v : Value) : (Assoc.keys (b.assign name v).fields).Nodup := by
  unfold Bindings.assign
  split
  · cases v with
    | null => exact h
    | _ =>
      dsimp only
      split <;> exact h
  · exact Record.nodup_insert h name v

theorem Bindings.nodup_assignAll {b : Bindings} (h : (Assoc.keys b.fields).Nodup)
    (ws : List (String × Value)) : (Assoc.keys (b.assignAll ws).fields).Nodup := by
  induction ws generalizing b with
  | nil => exact h
  | cons w rest ih => exact ih (nodup_assign h w.1 w.2)

/-- A name held once splits a record in what comes before and after it. -/
theorem Record.exists_split {fields : Record Value} (h : (Assoc.keys fields).Nodup) {name : String}
    {v : Value} (hget : Assoc.get? fields name = some v) :
    ∃ before after, fields = before ++ (name, v) :: after ∧ name ∉ Assoc.keys after := by
  obtain ⟨before, after, rfl⟩ := List.append_of_mem (Assoc.mem_of_get? hget)
  rw [Assoc.keys, List.map_append, List.map_cons] at h
  exact ⟨before, after, rfl, (List.nodup_cons.mp (List.nodup_append.mp h).2.1).1⟩

end LiveTemplate
