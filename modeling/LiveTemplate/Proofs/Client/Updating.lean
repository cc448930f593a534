import LiveTemplate.Proofs.Client.View

/-!
How a client reads the message of a patch: the fields of the root by themselves, and each entry of a
component over what it holds under that number.
-/

namespace LiveTemplate

set_option autoImplicit false

/-- The fields of the root in a message. -/
def rootFields : Option TreePatch → List (String × Datum)
  | none => []
  | some (.full statics root slots) => fullFields statics root slots
  | some (.edit slots) => SlotPatch.encodePlaces slots

/-- The entry of a component in a message. -/
def componentEntry : Option TreePatch → Datum
  | some patch => patch.encode
  | none => .none

theorem Patch.encode_eq (p : Patch) : p.encode = .fields (rootFields p.root ++
    unlessEmpty "c" (fun cs => .fields (positions componentEntry cs)) p.components) := by
  have hentry : componentEntry = fun tree : Option TreePatch =>
      match tree with
      | some t => t.encode
      | none => .none := by
    funext tree
    cases tree <;> rfl
  rw [Patch.encode, hentry]
  cases p.root with
  | none => rfl
  | some patch =>
    cases patch with
    | full statics root slots => rw [Option.map_some, TreePatch.encode_full]; rfl
    | edit slots => rw [Option.map_some, TreePatch.encode]; rfl

theorem placeOf?_c : placeOf? "c" = none := by decide

theorem get?_rootFields_c (patch : Option TreePatch) : Assoc.get? (rootFields patch) "c" = none := by
  match patch with
  | none => rfl
  | some (.full statics root slots) => exact get?_fullFields (by decide) (by decide) placeOf?_c
  | some (.edit slots) => exact (placed_encodePlaces slots).get?_eq_none placeOf?_c

theorem fill_append_c (fields : List (String × Datum)) (d : Datum) (slots : List HeldSlot) :
    Wire.fill (fields ++ [("c", d)]) slots = Wire.fill fields slots := by
  induction fields generalizing slots with
  | nil => exact fill_cons_of_placeOf?_eq_none placeOf?_c
  | cons f rest ih =>
    rw [List.cons_append, Wire.fill, Wire.fill]
    cases placeOf? f.1 with
    | none => exact ih slots
    | some i => simp only [ih]

theorem intoTree_append_c (fields : List (String × Datum)) (d : Datum) (held : Option HeldTree) :
    Wire.intoTree (.fields (fields ++ [("c", d)])) held = Wire.intoTree (.fields fields) held := by
  rw [Wire.intoTree, Wire.intoTree, Wire.treeFrom, Wire.treeFrom, Assoc.get?_append]
  have hs : Assoc.get? [("c", d)] "s" = none := rfl
  rw [hs, Option.or_none, funext (fill_append_c fields d)]

theorem unlessEmpty_cons {α : Type} (name : String) (encode : List α → Datum) (x : α)
    (rest : List α) : unlessEmpty name encode (x :: rest) = [(name, encode (x :: rest))] := rfl

/-- A client reads a message by its two halves. -/
theorem Client.receive_encode (held : Option Client) (p : Patch) :
    Client.receive held p.encode =
      (Wire.intoTree (.fields (rootFields p.root)) (held.map Client.root)).bind fun root =>
        (Client.receiveComponents (positions componentEntry p.components)
          ((held.map Client.components).getD [])).map fun components => ⟨root, components⟩ := by
  rw [Patch.encode_eq, Client.receive]
  cases hc : p.components with
  | nil =>
    have hnothing : unlessEmpty "c" (fun cs => Datum.fields (positions componentEntry cs))
        ([] : List (Nat × Option TreePatch)) = [] := rfl
    rw [hnothing, List.append_nil, get?_rootFields_c]
    rfl
  | cons e rest =>
    rw [unlessEmpty_cons, intoTree_append_c, Assoc.get?_append, get?_rootFields_c]
    refine bind_congr fun root => ?_
    simp only [Assoc.get?, if_true, Option.none_or, Option.bind_eq_bind]
    cases Client.receiveComponents (positions componentEntry (e :: rest))
      ((held.map Client.components).getD []) <;> rfl

theorem TreePatch.encode_rootFields (p : TreePatch) : p.encode = .fields (rootFields (some p)) := by
  cases p with
  | full statics root slots => rw [TreePatch.encode_full, rootFields]
  | edit slots => rw [TreePatch.encode, rootFields]

theorem receiveComponents_some {cid : Nat} {p : TreePatch}
    {rest : List (Nat × Option TreePatch)} {table : Assoc Nat HeldTree} :
    Client.receiveComponents (positions componentEntry ((cid, some p) :: rest)) table =
      (Wire.intoTree p.encode (Assoc.get? table cid)).bind fun tree =>
        Client.receiveComponents (positions componentEntry rest) (Assoc.set table cid tree) := by
  rw [positions, List.map_cons, Client.receiveComponents, placeOf?_toString, componentEntry,
    TreePatch.encode_rootFields]
  rfl

theorem receiveComponents_none {cid : Nat} {rest : List (Nat × Option TreePatch)}
    {table : Assoc Nat HeldTree} :
    Client.receiveComponents (positions componentEntry ((cid, none) :: rest)) table =
      Client.receiveComponents (positions componentEntry rest) (Assoc.erase table cid) := by
  rw [positions, List.map_cons, Client.receiveComponents, placeOf?_toString]
  rfl

/-- Entries lead to a table if each leads to what the table has under its number, and the table is
right already where there is no entry. -/
theorem receiveComponents_entries {target : Nat → Option HeldTree}
    (entries : List (Nat × Option TreePatch)) {table : Assoc Nat HeldTree}
    (hn : (entries.map Prod.fst).Nodup) (ht : (Assoc.keys table).Nodup)
    (hsome : ∀ cid p, (cid, some p) ∈ entries →
      ∃ t, p.apply (Assoc.get? table cid) = some t ∧ target cid = some t)
    (hnone : ∀ cid, (cid, none) ∈ entries → target cid = none)
    (hrest : ∀ cid, cid ∉ entries.map Prod.fst → Assoc.get? table cid = target cid) :
    ∃ after, Client.receiveComponents (positions componentEntry entries) table = some after ∧
      (Assoc.keys after).Nodup ∧ ∀ cid, Assoc.get? after cid = target cid := by
  induction entries generalizing table with
  | nil => exact ⟨table, rfl, ht, fun cid => hrest cid List.not_mem_nil⟩
  | cons e rest ih =>
    obtain ⟨key, patch⟩ := e
    rw [List.map_cons, List.nodup_cons] at hn
    have hother : ∀ cid p, (cid, p) ∈ rest → key ≠ cid := by
      rintro cid p hm rfl
      exact hn.1 (List.mem_map.mpr ⟨(key, p), hm, rfl⟩)
    cases patch with
    | none =>
      rw [receiveComponents_none]
      refine ih hn.2 (Assoc.nodup_erase ht key) (fun cid p hm => ?_)
        (fun cid hm => hnone cid (List.mem_cons_of_mem _ hm)) fun cid hcid => ?_
      · rw [Assoc.get?_erase, if_neg (hother cid _ hm)]
        exact hsome cid p (List.mem_cons_of_mem _ hm)
      · rw [Assoc.get?_erase]
        split
        · rename_i hkey
          subst hkey
          exact (hnone key List.mem_cons_self).symm
        · rename_i hkey
          refine hrest cid fun hm => ?_
          rcases List.mem_cons.mp hm with h | h
          · exact hkey h.symm
          · exact hcid h
    | some p =>
      obtain ⟨t, happly, htarget⟩ := hsome key p List.mem_cons_self
      rw [receiveComponents_some, TreePatch.intoTree_encode p happly, Option.bind_some]
      refine ih hn.2 (Assoc.nodup_set ht key t) (fun cid p hm => ?_)
        (fun cid hm => hnone cid (List.mem_cons_of_mem _ hm)) fun cid hcid => ?_
      · rw [Assoc.get?_set_of_ne _ _ (hother cid _ hm)]
        exact hsome cid p (List.mem_cons_of_mem _ hm)
      · by_cases hkey : key = cid
        · subst hkey
          rw [Assoc.get?_set_self, htarget]
        · rw [Assoc.get?_set_of_ne _ _ hkey]
          refine hrest cid fun hm => ?_
          rcases List.mem_cons.mp hm with h | h
          · exact hkey h.symm
          · exact hcid h

/-- A client has no components beyond those it had and those it was sent. -/
theorem receiveComponents_cids {entries : List (Nat × Option TreePatch)}
    {table after : Assoc Nat HeldTree} {cid : Nat}
    (h : Client.receiveComponents (positions componentEntry entries) table = some after)
    (hcid : cid ∈ Assoc.keys after) :
    cid ∈ Assoc.keys table ∨ ∃ p, (cid, some p) ∈ entries := by
  induction entries generalizing table with
  | nil =>
    cases h
    exact .inl hcid
  | cons e rest ih =>
    obtain ⟨key, patch⟩ := e
    cases patch with
    | none =>
      rw [receiveComponents_none] at h
      rcases ih h with hin | ⟨p, hp⟩
      · exact .inl ((List.filter_sublist.map Prod.fst).subset hin)
      · exact .inr ⟨p, List.mem_cons_of_mem _ hp⟩
    | some q =>
      rw [receiveComponents_some] at h
      obtain ⟨t, -, h⟩ := Option.bind_eq_some_iff.mp h
      rcases ih h with hin | ⟨p, hp⟩
      · rw [Assoc.keys_set] at hin
        split at hin
        · exact .inl hin
        · rcases List.mem_append.mp hin with hin | hin
          · exact .inl hin
          · rw [List.mem_singleton] at hin
            subst hin
            exact .inr ⟨q, List.mem_cons_self⟩
      · exact .inr ⟨p, List.mem_cons_of_mem _ hp⟩

end LiveTemplate
