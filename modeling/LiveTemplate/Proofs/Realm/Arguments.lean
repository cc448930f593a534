import LiveTemplate.Proofs.Realm.Evaluation
import LiveTemplate.Render.Arguments

/-!
Calls of components within a realm. What a component gets from its caller and from its own spec, and
what a slot entry carries, lies within the realm of the caller's code.
-/

namespace LiveTemplate

set_option autoImplicit false

variable {R : Realm}

/-- What a realm needs for renders to stay within it. -/
structure Realm.Renders (R : Realm) : Prop where
  slots : R.slots
  reads : ∀ name, R.Reads name
  keys : ∀ name ∈ slotKeys, R.keys name

/-! ### Slot entries -/

/-- The content of a slot entry that may be rendered. -/
structure Block.Within (R : Realm) (block : Block) : Prop where
  body : block.body.Within R
  pattern : ∀ p ∈ block.pattern, (Phrase.pattern p).Within R
  scope : Scope.Within R block.caller.scope

def Entry.Within (R : Realm) (e : Entry) : Prop := ∀ block ∈ e.content, block.Within R

namespace Value

theorem Within.content {hold : Hold} {id : Identity} {content : Block}
    (h : Within R hold (.block id content)) (hslots : R.slots) : content.Within R := by
  cases h with
  | block _ hbody hpattern hscope => exact ⟨hbody hslots, hpattern hslots, hscope hslots⟩

/-- Whatever is at the end of the line of parents can be inherited from at least. -/
theorem Within.origin {hold : Hold} {v : Value} (h : v.Within R hold) :
    ∃ other, v.origin.Within R other := by
  fun_induction Value.origin v generalizing hold with
  | case1 id u fields ih => exact ih h.under
  | case2 v => exact ⟨hold, h⟩

theorem Within.entry (hslots : R.slots) {v : Value} (h : v.Within R .itself) {e : Entry}
    (he : v.entry? = some e) : e.Within R := by
  unfold Value.entry? at he
  obtain ⟨fields, hfields, he⟩ := Option.bind_eq_some_iff.mp he
  obtain ⟨slot, -, he⟩ := Option.bind_eq_some_iff.mp he
  split at he
  · obtain ⟨u, hu, he⟩ := Option.bind_eq_some_iff.mp he
    have hread : R.Reads innerBlock := Realm.reads_of_not_mem (by decide)
    have hu := ((h.fields? hfields) _ (Assoc.mem_of_get? hu)).value hread
    obtain ⟨other, horigin⟩ := hu.origin
    split at he
    · cases he
      intro block hblock
      cases hblock
    · rename_i id content horiginal
      cases he
      intro block hblock
      cases hblock
      rw [horiginal] at horigin
      exact horigin.content hslots
    · cases he
  · cases he

theorem Within.slotEntries (hslots : R.slots) {v : Value} (h : v.Within R .itself) (span : Span) :
    Yields R.Supply (fun es => ∀ e ∈ es, Entry.Within R e) (v.slotEntries span) := by
  have hall : ∀ (items : List Value) (es : List Entry), AllWithin R items →
      items.mapM Value.entry? = some es → ∀ e ∈ es, Entry.Within R e := by
    intro items
    induction items with
    | nil =>
      rintro es - hes
      cases hes
      exact fun _ he => absurd he List.not_mem_nil
    | cons item rest ih =>
      intro es hitems hes
      rw [List.mapM_cons] at hes
      obtain ⟨e, he, hes⟩ := Option.bind_eq_some_iff.mp hes
      obtain ⟨more, hmore, hes⟩ := Option.bind_eq_some_iff.mp hes
      cases hes
      rw [AllWithin, List.forall_mem_cons] at hitems
      exact List.forall_mem_cons.mpr ⟨hitems.1.entry hslots he, ih more hitems.2 hmore⟩
  unfold Value.slotEntries
  apply Yields.ite
  · exact fun _ => .pure fun _ he => absurd he List.not_mem_nil
  · intro _
    split
    · rename_i e he
      exact .pure (List.forall_mem_singleton.mpr (h.entry hslots he))
    · dsimp only
      split
      · rename_i es hes
        cases h with
        | list _ hitems => exact .pure (hall _ es hitems hes)
        | _ => cases hes
      · exact .fail _ _

theorem Within.spreadFields {v : Value} (h : v.Within R .itself) (span : Span) :
    Yields R.Supply (FieldsWithin R) (v.spreadFields span) := by
  unfold Value.spreadFields
  apply Yields.ite
  · exact fun _ => .pure (List.forall_mem_nil _)
  · intro _
    split
    · rename_i fields hfields
      exact .pure (h.fields? hfields)
    · exact .fail _ _

end Value

/-! ### Arguments -/

section Arguments
variable {frame : Frame} (hscope : Scope.Within R frame.scope)
include hscope

theorem Argument.yields_assign {a : Argument} (ha : a.Within R) {values : Bindings}
    (h : values.Within R) : Yields R.Supply (Bindings.Within R) (a.assign frame values) := by
  cases a with
  | named name value reads span =>
    apply (yields_eval ha.phrase hscope).bind
    intro v hv
    exact .pure (h.assign (fieldWithin (ha.key name rfl) hv))
  | spread value reads span =>
    apply (yields_eval ha.phrase hscope).bind
    intro v hv
    apply (hv.spreadFields span).bind
    intro fields hfields
    exact .pure (h.assignAll hfields)

omit hscope in
theorem Argument.within_held {held : Option (Record Value)}
    (hheld : ∀ fields ∈ held, FieldsWithin R fields) {a : Argument} {f : String × Value}
    (hf : a.held? frame held = some f) : FieldWithin R f := by
  cases a with
  | spread => cases hf
  | named name value reads span =>
    obtain ⟨values, hvalues, hf⟩ := Option.bind_eq_some_iff.mp hf
    obtain ⟨v, hv, hf⟩ := Option.bind_eq_some_iff.mp hf
    split at hf
    · cases hf
    · cases hf
      exact hheld values hvalues _ (Assoc.mem_of_get? hv)

theorem Argument.yields_assignAll {held : Option (Record Value)}
    (hheld : ∀ fields ∈ held, FieldsWithin R fields) {arguments : List Argument}
    (ha : ∀ a ∈ arguments, a.Within R) {values : Bindings} (h : values.Within R) :
    Yields R.Supply (Bindings.Within R) (Argument.assignAll frame held arguments values) := by
  induction arguments generalizing values with
  | nil => exact .pure h
  | cons a rest ih =>
    rw [List.forall_mem_cons] at ha
    rw [Argument.assignAll]
    split
    · rename_i name v hf
      exact ih ha.2 (h.assign (Argument.within_held hheld hf))
    · exact (Argument.yields_assign hscope ha.1 h).bind fun _ hvalues => ih ha.2 hvalues

end Arguments

/-! ### Slots -/

/-- The entries of slots, by the names of the slots. -/
def SlotsWithin (R : Realm) (slots : Assoc String (List Value)) : Prop :=
  ∀ s ∈ slots, R.keys s.1 ∧ AllWithin R s.2

section Slots
variable (hR : R.Renders) {frame : Frame} (hscope : Scope.Within R frame.scope)
include hR hscope

theorem SlotPlan.yields_entry (tracked : Bool) {slot : SlotPlan} (h : slot.Within R) :
    Yields R.Supply (Value.Within R .itself) (slot.entry frame tracked) := by
  have hmade : ∀ {attributes : Bindings} {content : Value}, attributes.Within R →
      content.Within R .itself → Yields R.Supply (Value.Within R .itself) (Eval.newRecord
        (Record.insert (Record.insert attributes.fields "__slot__" (.text slot.name)) innerBlock
          content)) := by
    intro attributes content hattributes hcontent
    have hname := fieldWithin (hR.keys "__slot__" (by decide)) (.text slot.name)
    have hinner := fieldWithin (hR.keys innerBlock (by decide)) hcontent
    apply Yields.freshId.bind
    intro id hid
    exact .pure (Value.within_record (fun _ => hid) nofun
      ((hattributes.fields.insert hname).insert hinner))
  unfold SlotPlan.entry
  apply (Argument.yields_assignAll hscope (fun _ hf => by cases hf) h.attributes .empty).bind
  intro attributes hattributes
  cases hbody : slot.body with
  | none => exact hmade hattributes .null
  | some body =>
    apply Yields.freshId.bind
    intro id hid
    exact hmade hattributes
      (.block (fun _ => hid) (fun _ => h.body body hbody) (fun _ => h.pattern) fun _ => hscope)

theorem SlotPlan.yields_entries (tracked : Bool) {plans : List SlotPlan}
    (h : ∀ plan ∈ plans, plan.Within R) {slots : Assoc String (List Value)}
    (hslots : SlotsWithin R slots) :
    Yields R.Supply (SlotsWithin R) (SlotPlan.entries frame tracked plans slots) := by
  induction plans generalizing slots with
  | nil => exact .pure hslots
  | cons plan rest ih =>
    rw [List.forall_mem_cons] at h
    rw [SlotPlan.entries]
    apply (SlotPlan.yields_entry hR hscope tracked h.1).bind
    intro e he
    apply ih h.2
    have hheld : AllWithin R ((Assoc.get? slots plan.name).getD []) := by
      cases hget : Assoc.get? slots plan.name with
      | none => exact allWithin_nil R
      | some held => exact (hslots _ (Assoc.mem_of_get? hget)).2
    intro s hs
    rcases mem_of_mem_set hs with rfl | hs
    · exact ⟨h.1.name, List.forall_mem_append.mpr ⟨hheld, List.forall_mem_singleton.mpr he⟩⟩
    · exact hslots s hs

end Slots

/-! ### Specs -/

structure ComponentSpec.Within (R : Realm) (spec : ComponentSpec) : Prop where
  attrs : ∀ a ∈ spec.attrs, R.keys a.name ∧ ∀ v ∈ a.default, v.Within R .itself
  slots : ∀ s ∈ spec.slots, R.keys s.name

theorem FieldsWithin.merge {fields more : Record Value} (h : FieldsWithin R fields)
    (hmore : FieldsWithin R more) : FieldsWithin R (Record.merge fields more) := by
  induction more generalizing fields with
  | nil => exact h
  | cons f rest ih =>
    rw [FieldsWithin, List.forall_mem_cons] at hmore
    exact ih (h.insert hmore.1) hmore.2

namespace ComponentSpec

variable {spec : ComponentSpec} (h : spec.Within R)
include h

theorem within_defaults : FieldsWithin R spec.defaults := by
  intro f hf
  obtain ⟨a, ha, hf⟩ := List.mem_filterMap.mp hf
  split at hf
  · cases hf
  · obtain ⟨v, hv, rfl⟩ := Option.map_eq_some_iff.mp hf
    exact fieldWithin (h.attrs a ha).1 ((h.attrs a ha).2 v hv)

theorem maintains_emptySlots :
    Maintains R.Supply (FieldsWithin R) spec.emptySlots := by
  have hslots : ∀ s ∈ spec.slots.filter (fun s => !s.required), R.keys s.name :=
    fun s hs => h.slots s (List.mem_filter.mp hs).1
  rw [emptySlots]
  generalize spec.slots.filter (fun s => !s.required) = slots at hslots
  induction slots with
  | nil => exact .pure nofun
  | cons s rest ih =>
    rw [List.forall_mem_cons] at hslots
    rw [List.mapM_cons]
    apply (maintains_freshId.bind fun id hid => Maintains.pure (P := FieldWithin R)
      (fieldWithin hslots.1 (.list (fun _ => hid) (allWithin_nil R)))).bind
    intro f hf
    apply (ih hslots.2).bind
    intro fields hfields
    exact .pure (List.forall_mem_cons.mpr ⟨hf, hfields⟩)

theorem within_collected {a : AttrSpec} (ha : a ∈ spec.attrs) {more : Record Value}
    (hmore : FieldsWithin R more) : FieldsWithin R (collected a more) := by
  apply FieldsWithin.merge
  · cases hdefault : a.default.bind Value.fields? with
    | none => exact nofun
    | some fields =>
      obtain ⟨v, hv, hfields⟩ := Option.bind_eq_some_iff.mp hdefault
      exact ((h.attrs a ha).2 v hv).fields? hfields
  · exact (Bindings.Within.empty.assignAll hmore).fields

theorem maintains_apply {values : Record Value} (hvalues : FieldsWithin R values) :
    Maintains R.Supply (Bindings.Within R) (spec.apply values) := by
  unfold apply
  apply (maintains_emptySlots h).bind
  intro slots hslots
  have hgiven : (({} : Bindings).assignAll (spec.defaults ++ slots)).Within R :=
    .assignAll .empty (List.forall_mem_append.mpr ⟨within_defaults h, hslots⟩)
  dsimp only
  split
  · exact .pure (hgiven.assignAll hvalues)
  · rename_i a ha
    have ha := List.mem_of_find?_eq_some ha
    rw [List.partition_eq_filter_filter]
    have hsome : ∀ p : String × Value → Bool, FieldsWithin R (values.filter p) :=
      fun _ f hf => hvalues f (List.mem_filter.mp hf).1
    have hknown := hgiven.assignAll (hsome fun e => e.1 ∈ spec.knownNames)
    split
    · exact .pure hknown
    · apply maintains_freshId.bind
      intro id hid
      refine .pure (hknown.assign (fieldWithin (h.attrs a ha).1 ?_))
      exact Value.within_record (fun _ => hid) (fun _ hv => by cases hv)
        (within_collected h ha (hsome _))

end ComponentSpec

/-! ### Calls -/

namespace ComponentPlan

variable {plan : ComponentPlan} (h : plan.Within R) {frame : Frame}
  (hscope : Scope.Within R frame.scope)
include h hscope

theorem yields_calleeAssigns (hR : R.Renders) {spec : ComponentSpec} (hspec : spec.Within R)
    {node : Option Instance} (hnode : ∀ n ∈ node, FieldsWithin R n.assigns) :
    Yields R.Supply (fun callee => callee.assigns.Within R)
      (plan.calleeAssigns frame spec node) := by
  unfold calleeAssigns
  dsimp only
  generalize hheld : (if frame.changed.isSome then node.map Instance.assigns else none) = held
  have hfields : ∀ fields ∈ held, FieldsWithin R fields := by
    rintro fields hmem
    rw [← hheld] at hmem
    split at hmem
    · obtain ⟨n, hn, rfl⟩ := Option.map_eq_some_iff.mp hmem
      exact hnode n hn
    · cases hmem
  apply (Argument.yields_assignAll hscope hfields h.attributes .empty).bind
  intro values hvalues
  apply (SlotPlan.yields_entries hR hscope held.isSome h.slots fun _ hs =>
    absurd hs List.not_mem_nil).bind
  intro slots hslots
  refine Yields.bind (P := FieldsWithin R) ?lists ?rest
  case lists =>
    refine Yields.mapM (P := fun s : String × List Value => R.keys s.1 ∧ AllWithin R s.2) hslots ?_
    intro s hs
    exact (yields_newList hs.2).bind fun v hv => .pure (fieldWithin hs.1 hv)
  intro lists hlists
  apply (Yields.lift (ComponentSpec.maintains_apply hspec (hvalues.assignAll hlists).fields)).bind
  intro assigns hassigns
  exact .pure hassigns

theorem yields_mountKey (name : String) :
    Yields R.Supply (fun _ => True) (plan.mountKey frame name) := by
  unfold mountKey
  dsimp only
  split
  · exact .pure trivial
  · rename_i value hvalue
    obtain ⟨a, ha, hfound⟩ := List.exists_of_findSome?_eq_some hvalue
    split at hfound
    · cases hfound
      apply (yields_eval (h.attributes _ ha).phrase hscope).bind
      intro v hv
      split
      · exact .pure trivial
      · exact .pure trivial
      · exact .pure trivial
      · exact (hv.toText within_call).bind fun _ _ => .pure trivial
    · cases hfound

end ComponentPlan

end LiveTemplate
