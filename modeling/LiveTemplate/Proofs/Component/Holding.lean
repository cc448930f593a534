import LiveTemplate.Proofs.Component.Applying
import Mathlib.Data.List.Nodup

/-!
What a component holds of what it is called with. What the caller passes is held under its name or
collected, and what the caller leaves out is filled in. For a caller that passes the collecting
attribute itself nothing is collected.
-/

namespace LiveTemplate

set_option autoImplicit false

/-! ### Lookups after writes -/

namespace Assoc

variable {κ α : Type} [DecidableEq κ]

theorem get?_eq_none_iff {xs : Assoc κ α} {key : κ} : get? xs key = none ↔ key ∉ keys xs := by
  rw [mem_keys_iff, Option.isSome_iff_ne_none, not_not]

/-- Where every key is held once, the order does not matter. -/
theorem get?_reverse {xs : Assoc κ α} (h : (keys xs).Nodup) (key : κ) :
    get? xs.reverse key = get? xs key := by
  have hreverse : (keys xs.reverse).Nodup := by
    rw [keys, List.map_reverse]
    exact List.nodup_reverse.mpr h
  cases hget : get? xs key with
  | none =>
    rw [get?_eq_none_iff] at hget ⊢
    rwa [keys, List.map_reverse, List.mem_reverse]
  | some v => exact get?_of_mem hreverse (List.mem_reverse.mpr (mem_of_get? hget))

/-- A lookup among the entries with some keys. -/
theorem get?_filter_keys (p : κ → Bool) (xs : Assoc κ α) (key : κ) :
    get? (xs.filter fun e => p e.1) key = if p key then get? xs key else none := by
  induction xs with
  | nil => simp
  | cons e rest ih =>
    by_cases hkey : e.1 = key
    · subst hkey
      cases hp : p e.1 with
      | true => simp [hp, get?]
      | false => simpa [hp] using ih
    · cases hp : p e.1 with
      | true => simp [hp, get?, hkey, ih]
      | false => simpa [hp, get?, hkey] using ih

end Assoc

/-- What is held after values are assigned in turn: the last value of the name, or what was held. -/
theorem Bindings.get?_assignAll {name : String} (hname : name ≠ parentName) (b : Bindings)
    (ws : List (String × Value)) : Assoc.get? (b.assignAll ws).fields name =
      (Assoc.get? ws.reverse name).or (Assoc.get? b.fields name) := by
  induction ws generalizing b with
  | nil => rfl
  | cons w rest ih =>
    rw [assignAll_cons, ih, Assigns.get?_assign b w.1 w.2 hname, List.reverse_cons,
      Assoc.get?_append, Option.or_assoc]
    congr 1
    by_cases hw : w.1 = name <;> simp [Assoc.get?, hw]

theorem Record.get?_merge (fields more : Record Value) (name : String) :
    Assoc.get? (merge fields more) name =
      (Assoc.get? more.reverse name).or (Assoc.get? fields name) := by
  induction more generalizing fields with
  | nil => rfl
  | cons e rest ih =>
    have hcons : merge fields (e :: rest) = merge (insert fields e.1 e.2) rest := rfl
    rw [hcons, ih, get?_insert, List.reverse_cons, Assoc.get?_append, Option.or_assoc]
    congr 1
    by_cases he : e.1 = name <;> simp [Assoc.get?, he]

/-! ### What a spec gives -/

/-- The default that an attribute gives when it is not passed. -/
def AttrSpec.default? (a : AttrSpec) : Option Value :=
  if a.required ∨ a.type = .rest then none else a.default

namespace ComponentSpec

variable {spec : ComponentSpec}

/-- The last attribute of a name that gives a default gives this one. -/
def GivesDefault (spec : ComponentSpec) (name : String) (v : Value) : Prop :=
  ∃ before a after, spec.attrs = before ++ a :: after ∧ a.name = name ∧ a.default? = some v ∧
    ∀ b ∈ after, b.name = name → b.default? = none

def HasOptionalSlot (spec : ComponentSpec) (name : String) : Prop :=
  ∃ s ∈ spec.slots, s.required = false ∧ s.name = name

theorem defaults_eq : spec.defaults = spec.attrs.filterMap fun a => a.default?.map (a.name, ·) := by
  refine congrArg (List.filterMap · spec.attrs) (funext fun a => ?_)
  rw [AttrSpec.default?]
  split <;> rfl

theorem get?_defaults_eq_none {attrs : List AttrSpec} {name : String} :
    Assoc.get? (attrs.filterMap fun a => a.default?.map (a.name, ·)).reverse name = none ↔
      ∀ b ∈ attrs, b.name = name → b.default? = none := by
  rw [Assoc.get?_eq_none_iff, Assoc.keys, List.map_reverse, List.mem_reverse]
  constructor
  · intro h b hb hname
    cases hdefault : b.default? with
    | none => rfl
    | some v =>
      refine absurd (List.mem_map.mpr ⟨(name, v), List.mem_filterMap.mpr ⟨b, hb, ?_⟩, rfl⟩) h
      rw [hdefault, hname]
      rfl
  · rintro h hmem
    obtain ⟨e, he, rfl⟩ := List.mem_map.mp hmem
    obtain ⟨b, hb, hdefault⟩ := List.mem_filterMap.mp he
    obtain ⟨v, hv, rfl⟩ := Option.map_eq_some_iff.mp hdefault
    exact absurd (hv.symm.trans (h b hb rfl)) (by simp)

theorem get?_defaults {name : String} {v : Value} :
    Assoc.get? spec.defaults.reverse name = some v ↔ spec.GivesDefault name v := by
  rw [defaults_eq, GivesDefault]
  generalize spec.attrs = attrs
  induction attrs with
  | nil => simp
  | cons a rest ih =>
    have hfirst : Assoc.get? (a.default?.map (a.name, ·)).toList.reverse name = some v ↔
        a.name = name ∧ a.default? = some v := by
      cases a.default? <;> simp [Assoc.get?, and_comm]
    have hsplit : (a :: rest).filterMap (fun a => a.default?.map (a.name, ·)) =
        (a.default?.map (a.name, ·)).toList ++
          rest.filterMap fun a => a.default?.map (a.name, ·) := by
      rw [List.filterMap_cons]
      cases a.default? <;> rfl
    rw [hsplit, List.reverse_append, Assoc.get?_append, Option.or_eq_some_iff, ih,
      get?_defaults_eq_none, hfirst]
    constructor
    · rintro (⟨before, b, after, rfl, hname, hv, hlast⟩ | ⟨hlast, hname, hv⟩)
      · exact ⟨a :: before, b, after, rfl, hname, hv, hlast⟩
      · exact ⟨[], a, rest, rfl, hname, hv, hlast⟩
    · rintro ⟨before, b, after, hattrs, hname, hv, hlast⟩
      cases before with
      | nil =>
        obtain ⟨rfl, rfl⟩ := List.cons.inj hattrs
        exact .inr ⟨hlast, hname, hv⟩
      | cons c before =>
        obtain ⟨rfl, rfl⟩ := List.cons.inj hattrs
        exact .inl ⟨before, b, after, rfl, hname, hv, hlast⟩

/-- An empty list for each slot that need not be given. -/
structure AreEmptySlots (spec : ComponentSpec) (slots : Record Value) : Prop where
  names : Assoc.keys slots = (spec.slots.filter fun s => !s.required).map SlotSpec.name
  empty : ∀ e ∈ slots, ∃ id, e.2 = .list id []

theorem maintains_emptySlots_held :
    Maintains (fun _ => True) spec.AreEmptySlots spec.emptySlots := by
  have hslots : Maintains (fun _ => True) (fun slots : Record Value => Assoc.keys slots =
      (spec.slots.filter fun s => !s.required).map SlotSpec.name ∧
        ∀ e ∈ slots, ∃ id, e.2 = .list id []) spec.emptySlots := by
    unfold emptySlots
    generalize spec.slots.filter (fun s => !s.required) = slots
    induction slots with
    | nil => exact .pure ⟨rfl, List.forall_mem_nil _⟩
    | cons s rest ih =>
      rw [List.mapM_cons]
      apply Maintains.bind (P := fun e : String × Value => e.1 = s.name ∧ ∃ id, e.2 = .list id [])
      · exact fun _ _ => ⟨⟨rfl, _, rfl⟩, trivial⟩
      · rintro e ⟨hname, hempty⟩
        refine ih.bind fun slots h => .pure ⟨?_, List.forall_mem_cons.mpr ⟨hempty, h.2⟩⟩
        rw [Assoc.keys, List.map_cons, List.map_cons, hname]
        exact congrArg _ h.1
  exact fun n hn => ⟨⟨(hslots n hn).1.1, (hslots n hn).1.2⟩, trivial⟩

namespace AreEmptySlots

variable {slots : Record Value} (h : spec.AreEmptySlots slots) {name : String}
include h

theorem get? {v : Value} (hv : Assoc.get? slots.reverse name = some v) : ∃ id, v = .list id [] :=
  h.empty _ (List.mem_reverse.mp (Assoc.mem_of_get? hv))

theorem isSome_get?_iff :
    (Assoc.get? slots.reverse name).isSome = true ↔ spec.HasOptionalSlot name := by
  rw [← Assoc.mem_keys_iff, Assoc.keys, List.map_reverse, List.mem_reverse, ← Assoc.keys, h.names]
  simp [HasOptionalSlot, and_assoc]

end AreEmptySlots

/-! ### What is held -/

/-- What is held under a name: what is collected there, what is passed, an empty slot, a default. -/
def held (spec : ComponentSpec) (slots values : Record Value) (id : Identity) (name : String) :
    Option Value :=
  let given := (Assoc.get? slots.reverse name).or (Assoc.get? spec.defaults.reverse name)
  match restAttr? spec.attrs with
  | none => (Assoc.get? values name).or given
  | some attr =>
    if attr.name = name ∧ Assoc.get? values name = none then
      some (.record id .plain
        (collected attr (values.filter fun e => !decide (e.1 ∈ spec.knownNames))))
    else if name ∈ spec.knownNames then (Assoc.get? values name).or given
    else none

/-- Only names that are known are given anything. -/
theorem given_eq_none {slots : Record Value} (h : spec.AreEmptySlots slots) {name : String}
    (hname : name ∉ spec.knownNames) :
    (Assoc.get? slots.reverse name).or (Assoc.get? spec.defaults.reverse name) = none := by
  have hslots : Assoc.get? slots.reverse name = none := by
    refine Option.not_isSome_iff_eq_none.mp fun hsome => hname ?_
    obtain ⟨s, hs, -, rfl⟩ := h.isSome_get?_iff.mp hsome
    exact List.mem_append_left _ (List.mem_append_right _ (List.mem_map_of_mem hs))
  have hdefaults : Assoc.get? spec.defaults.reverse name = none := by
    refine Assoc.get?_eq_none_iff.mpr fun hmem => hname ?_
    have hknown : ∀ f ∈ spec.defaults.reverse, f.1 ∈ spec.knownNames :=
      fun f hf => mem_knownNames_of_defaults (List.mem_reverse.mp hf)
    exact of_mem_keys hknown hmem
  rw [hslots, hdefaults, Option.or_none]

theorem apply_held (spec : ComponentSpec) {values : Record Value}
    (hvalues : (Assoc.keys values).Nodup) : Maintains (fun _ => True)
      (fun made : Bindings => ∃ slots id, spec.AreEmptySlots slots ∧ ∀ name, name ≠ parentName →
        Assoc.get? made.fields name = spec.held slots values id name) (spec.apply values) := by
  unfold apply
  apply maintains_emptySlots_held.bind
  intro slots hslots
  dsimp only
  generalize hgiven : ({} : Bindings).assignAll (spec.defaults ++ slots) = given
  have hgiven : ∀ name, name ≠ parentName → Assoc.get? given.fields name =
      (Assoc.get? slots.reverse name).or (Assoc.get? spec.defaults.reverse name) := by
    intro name hname
    rw [← hgiven, Bindings.get?_assignAll hname, List.reverse_append, Assoc.get?_append]
    exact Option.or_none
  split
  case h_1 hrest =>
    refine .pure ⟨slots, 0, hslots, fun name hname => ?_⟩
    rw [Bindings.get?_assignAll hname, hgiven name hname, Assoc.get?_reverse hvalues, held, hrest]
  case h_2 attr hrest =>
    rw [List.partition_eq_filter_filter]
    generalize hknown : given.assignAll _ = known
    have hknown : ∀ name, name ≠ parentName → Assoc.get? known.fields name =
        if name ∈ spec.knownNames then (Assoc.get? values name).or
          ((Assoc.get? slots.reverse name).or (Assoc.get? spec.defaults.reverse name))
        else none := by
      intro name hname
      have hfilter : (Assoc.keys (values.filter fun e => decide (e.1 ∈ spec.knownNames))).Nodup :=
        hvalues.sublist (List.filter_sublist.map Prod.fst)
      rw [← hknown, Bindings.get?_assignAll hname, hgiven name hname, Assoc.get?_reverse hfilter,
        Assoc.get?_filter_keys fun key => decide (key ∈ spec.knownNames)]
      by_cases hmem : name ∈ spec.knownNames
      · simp only [hmem, decide_true, if_true]
      · simp only [hmem, decide_false, Bool.false_eq_true, if_false, given_eq_none hslots hmem,
          Option.or_none]
    dsimp only
    split
    · rename_i hcontains
      refine .pure ⟨slots, 0, hslots, fun name hname => ?_⟩
      have hother : ¬ (attr.name = name ∧ Assoc.get? values name = none) := by
        rintro ⟨rfl, hnone⟩
        rw [Assoc.contains, hnone] at hcontains
        cases hcontains
      rw [hknown name hname, held, hrest]
      dsimp only
      rw [if_neg hother]
    · rename_i hcontains
      have hnone : Assoc.get? values attr.name = none :=
        Option.not_isSome_iff_eq_none.mp (by rwa [Assoc.contains] at hcontains)
      apply Maintains.bind (P := fun _ => True) fun _ _ => ⟨trivial, trivial⟩
      refine fun id _ => .pure ⟨slots, id, hslots, fun name hname => ?_⟩
      rw [Assigns.get?_assign known attr.name _ hname, hknown name hname, held, hrest]
      dsimp only
      by_cases hattr : attr.name = name
      · subst hattr
        rw [if_pos rfl, if_pos ⟨rfl, hnone⟩]
        rfl
      · have hother : ¬ (attr.name = name ∧ Assoc.get? values name = none) := fun h => hattr h.1
        rw [if_neg hattr, if_neg hother]

/-- What is collected is found among the fields of the record. -/
theorem get?_collected (attr : AttrSpec) {more : Record Value} (hmore : (Assoc.keys more).Nodup)
    {name : String} (hname : name ≠ parentName) {v : Value}
    (hv : Assoc.get? more name = some v) : Assoc.get? (collected attr more) name = some v := by
  have hfields : (Assoc.keys (({} : Bindings).assignAll more).fields).Nodup :=
    Bindings.nodup_assignAll (b := {}) List.nodup_nil more
  rw [collected, Record.get?_merge, Assoc.get?_reverse hfields, Bindings.get?_assignAll hname,
    Assoc.get?_reverse hmore, hv]
  rfl

/-- Where a value that is passed belongs: under its name, or with what is collected. -/
def Found (spec : ComponentSpec) (made : Record Value) (name : String) (v : Value) : Prop :=
  match restAttr? spec.attrs with
  | none => Assoc.get? made name = some v
  | some attr =>
    if name ∈ spec.knownNames then Assoc.get? made name = some v
    else ∃ id parent fields, Assoc.get? made attr.name = some (.record id parent fields) ∧
      Assoc.get? fields name = some v

/-- A name that is left to the spec: it is not passed, and nothing is collected under it. -/
structure LeavesOut (spec : ComponentSpec) (values : Record Value) (name : String) : Prop where
  unassignable : name ≠ parentName
  missing : Assoc.get? values name = none
  uncollected : ∀ attr, restAttr? spec.attrs = some attr → attr.name ≠ name

/-- What is made of the values that a caller passes. -/
structure Keeps (spec : ComponentSpec) (values made : Record Value) : Prop where
  /-- What is declared is found in any case, anything else unless the caller passes the collecting
  attribute itself. -/
  found : ∀ name v, name ≠ parentName → Assoc.get? values name = some v →
    (∀ attr, restAttr? spec.attrs = some attr → name ∈ spec.knownNames ∨
      (attr.name ≠ parentName ∧ Assoc.get? values attr.name = none)) → spec.Found made name v
  /-- With the collecting attribute passed, what is not declared is dropped. -/
  dropped : ∀ attr name, restAttr? spec.attrs = some attr →
    (Assoc.get? values attr.name).isSome = true → name ≠ parentName →
      name ∉ spec.knownNames → Assoc.get? made name = none
  defaults : ∀ name v, spec.LeavesOut values name → ¬ spec.HasOptionalSlot name →
    (Assoc.get? made name = some v ↔ spec.GivesDefault name v)
  slots : ∀ name, spec.LeavesOut values name → spec.HasOptionalSlot name →
    ∃ id, Assoc.get? made name = some (.list id [])

/-- A component is given every value that is passed to it, and defaults and empty slots for the
rest. -/
theorem apply_keeps (spec : ComponentSpec) {values : Record Value}
    (hvalues : (Assoc.keys values).Nodup) (n : Identity) :
    spec.Keeps values ((spec.apply values).run n).1.fields := by
  obtain ⟨⟨slots, id, hslots, hheld⟩, -⟩ := spec.apply_held hvalues n trivial
  generalize ((spec.apply values).run n).1.fields = made at hheld
  have hleft : ∀ name, spec.LeavesOut values name → Assoc.get? made name =
      (Assoc.get? slots.reverse name).or (Assoc.get? spec.defaults.reverse name) := by
    intro name h
    rw [hheld name h.unassignable, held, h.missing]
    split
    · rfl
    · rename_i attr hrest
      have hother : ¬ (attr.name = name ∧ (none : Option Value) = none) :=
        fun hattr => h.uncollected attr hrest hattr.1
      rw [if_neg hother]
      split_ifs with hmem
      · rfl
      · exact (given_eq_none hslots hmem).symm
  constructor
  case found =>
    intro name v hname hv hcollected
    cases hrest : restAttr? spec.attrs with
    | none =>
      rw [Found, hrest]
      dsimp only
      rw [hheld name hname, held, hrest, hv]
      rfl
    | some attr =>
      rw [Found, hrest]
      dsimp only
      split_ifs with hmem
      · rw [hheld name hname, held, hrest, hv]
        simp [hmem]
      · obtain ⟨hattr, hnone⟩ := (hcollected attr hrest).resolve_left hmem
        let more := values.filter fun e => !decide (e.1 ∈ spec.knownNames)
        have hrecord : Assoc.get? made attr.name =
            some (.record id .plain (collected attr more)) := by
          rw [hheld attr.name hattr, held, hrest]
          exact if_pos ⟨rfl, hnone⟩
        have hmore : Assoc.get? more name = some v := by
          rw [Assoc.get?_filter_keys (fun key => !decide (key ∈ spec.knownNames)), hv]
          simp [hmem]
        have hnodup : (Assoc.keys more).Nodup :=
          hvalues.sublist (List.filter_sublist.map Prod.fst)
        exact ⟨id, .plain, _, hrecord, get?_collected attr hnodup hname hmore⟩
  case dropped =>
    intro attr name hrest hpassed hname hunknown
    have hother : ¬ (attr.name = name ∧ Assoc.get? values name = none) := by
      rintro ⟨rfl, hnone⟩
      rw [hnone] at hpassed
      cases hpassed
    rw [hheld name hname, held, hrest]
    dsimp only
    rw [if_neg hother, if_neg hunknown]
  case defaults =>
    intro name v h hslot
    have hnone : Assoc.get? slots.reverse name = none :=
      Option.not_isSome_iff_eq_none.mp fun hsome => hslot (hslots.isSome_get?_iff.mp hsome)
    rw [hleft name h, hnone, Option.none_or, get?_defaults]
  case slots =>
    intro name h hslot
    obtain ⟨v, hv⟩ := Option.isSome_iff_exists.mp (hslots.isSome_get?_iff.mpr hslot)
    obtain ⟨id, rfl⟩ := hslots.get? hv
    exact ⟨id, by rw [hleft name h, hv, Option.some_or]⟩

def button : ComponentSpec where
  name := "button"
  attrs := [⟨"kind", .string, true, none, none⟩, ⟨"size", .string, false, some (.text "m"), none⟩,
    ⟨"rest", .rest, false, some (.record 0 .plain [("type", .text "button")]), none⟩]
  slots := [⟨"icon", false, [], none⟩]

theorem button_keeps :
    let values : Record Value := [("kind", .text "plain"), ("title", .text "Go")]
    (Assoc.keys values).Nodup ∧
      ((button.apply values).run 1).1.fields = [("size", .text "m"), ("icon", .list 1 []),
        ("kind", .text "plain"),
        ("rest", .record 2 .plain [("type", .text "button"), ("title", .text "Go")])] ∧
      button.Keeps values ((button.apply values).run 1).1.fields := by
  intro values
  have hvalues : (Assoc.keys values).Nodup := by decide
  exact ⟨hvalues, rfl, button.apply_keeps hvalues 1⟩

/-- With the collecting attribute passed, another value is not found. -/
theorem button_rest_not_found :
    let values : Record Value := [("rest", .record 0 .plain []), ("title", .text "Go")]
    (Assoc.keys values).Nodup ∧ ¬ ∀ name v, Assoc.get? values name = some v →
      button.Found ((button.apply values).run 1).1.fields name v := by
  intro values
  refine ⟨by decide, fun h => ?_⟩
  have hfound : ∃ id parent fields,
      Assoc.get? ((button.apply values).run 1).1.fields "rest" = some (.record id parent fields) ∧
        Assoc.get? fields "title" = some (.text "Go") := h "title" (.text "Go") rfl
  obtain ⟨id, parent, fields, hrest, htitle⟩ := hfound
  have hheld : Assoc.get? ((button.apply values).run 1).1.fields "rest" =
      some (.record 0 .plain []) := rfl
  rw [hheld] at hrest
  cases hrest
  cases htitle

end ComponentSpec

end LiveTemplate
