import LiveTemplate.Proofs.Eval.Yields
import LiveTemplate.Proofs.Expr.Phrases
import LiveTemplate.Proofs.Fragment.Fingerprints

/-!
Realms. A realm tells which identities, names and fields may be met during an evaluation or a
render, whether markup may, and whether fields are read that templates are to be kept from. Code
suits a realm when it looks up and makes nothing else by itself.
-/

namespace LiveTemplate

set_option autoImplicit false

/-- What may be met during an evaluation. -/
structure Realm where
  ids : Identity → Prop
  /-- Whether values may be markup. -/
  markup : Prop
  /-- Whether patterns may name the fields that templates never read. -/
  unblocked : Prop
  /-- The names that are looked up. -/
  names : String → Prop
  /-- The names of the fields of records. -/
  keys : String → Prop
  /-- Whether the contents of slots are rendered. -/
  slots : Prop
  /-- The static texts of fragments. -/
  statics : List String → Prop
  /-- What all values inherit from can be read along with the blocked fields. -/
  ids_of_unblocked : unblocked → ∀ i, ids i
  keys_index : ∀ i : Nat, keys (toString i)
  keys_markup : keys "html"

namespace Realm

/-- The identities given out from here on are of the realm. -/
abbrev Supply (R : Realm) : Identity → Prop := Supplies R.ids

/-- Whether fields of a name are read. -/
def Reads (R : Realm) (name : String) : Prop := R.unblocked ∨ name ∉ blockedFields

/-- A method that templates have no use for is met as a field of its name. -/
def Meets (R : Realm) : Method → Prop
  | .unused _ name => R.Reads name
  | _ => True

end Realm

/-! ### Phrases -/

namespace Phrase

/-- What a phrase looks up, reads and makes by itself. -/
def Suits (R : Realm) : Phrase → Prop
  | expr (.name name _) => R.names name
  | expr (.object fields _) => ∀ f ∈ fields, R.keys f.1
  | pattern (.object properties _) => ∀ f ∈ properties, R.Reads f.1
  | _ => True

/-- All phrases in a phrase suit a realm. -/
def Within (R : Realm) (p : Phrase) : Prop := ∀ q : Phrase, q.Occurs p → q.Suits R

theorem Within.suits {R : Realm} {p : Phrase} (h : p.Within R) : p.Suits R := h p .here

theorem Within.intro {R : Realm} {p : Phrase} (h : p.Suits R)
    (hchildren : ∀ c ∈ p.children, c.Within R) : p.Within R := by
  intro q hq
  cases hq with
  | here => exact h
  | inside hc hq => exact hchildren _ hc q hq

theorem Within.child {R : Realm} {p c : Phrase} (h : p.Within R) (hc : c ∈ p.children) :
    c.Within R := fun q hq => h q (.inside hc hq)

end Phrase

/-! ### Fragments -/

/-- The name that the value of an argument is given. -/
def Argument.name? : Argument → Option String
  | named name _ _ _ => some name
  | spread _ _ _ => none

def Argument.phrase : Argument → Phrase
  | named _ value _ _ | spread value _ _ => .expr value

namespace SlotPlan

def phrases (slot : SlotPlan) : List Phrase :=
  slot.pattern.toList.map .pattern ++ slot.attributes.map Argument.phrase

/-- The names of the fields that come with an entry. -/
def keys (slot : SlotPlan) : List String := slot.name :: slot.attributes.filterMap Argument.name?

end SlotPlan

namespace Plan

/-- What a plan evaluates, apart from the fragments in it. -/
def phrases : Plan → List Phrase
  | .body e _ _ | .attribute _ _ e _ _ | .spread e _ _ => [.expr e]
  | .slot s argument _ _ => .expr s :: argument.toList.map .expr
  | .conditional branches _ _ => branches.filterMap fun b => b.condition.map .expr
  | .comprehension header _ _ _ => [.header header]
  | .component call => call.attributes.map Argument.phrase ++ call.slots.flatMap SlotPlan.phrases

/-- The names under which a plan hands on or writes values. -/
def keys : Plan → List String
  | .attribute name _ _ _ _ => [name]
  | .component call =>
    call.attributes.filterMap Argument.name? ++ call.slots.flatMap SlotPlan.keys
  | _ => []

end Plan

namespace Fragment

variable {R : Realm}

/-- What a fragment holds beside the fragments in it. -/
structure Suits (R : Realm) (f : Fragment) : Prop where
  statics : R.statics f.statics
  phrases : ∀ plan ∈ f.plans, ∀ p ∈ plan.phrases, p.Within R
  keys : ∀ plan ∈ f.plans, ∀ name ∈ plan.keys, R.keys name

/-- A fragment and all fragments in it suit a realm. -/
def Within (R : Realm) (f : Fragment) : Prop := ∀ g ∈ f.all, g.Suits R

end Fragment

/-- A plan with the fragments in it. -/
structure Plan.Within (R : Realm) (plan : Plan) : Prop where
  phrases : ∀ p ∈ plan.phrases, p.Within R
  keys : ∀ name ∈ plan.keys, R.keys name
  fragments : ∀ f ∈ plan.fragments, f.Suits R

/-- An argument that suits a realm. -/
structure Argument.Within (R : Realm) (a : Argument) : Prop where
  phrase : a.phrase.Within R
  key : ∀ name ∈ a.name?, R.keys name

/-- A slot plan that suits a realm. -/
structure SlotPlan.Within (R : Realm) (slot : SlotPlan) : Prop where
  name : R.keys slot.name
  pattern : ∀ p ∈ slot.pattern, (Phrase.pattern p).Within R
  attributes : ∀ a ∈ slot.attributes, a.Within R
  body : ∀ body ∈ slot.body, body.Within R

/-- A call of a component that suits a realm. -/
structure ComponentPlan.Within (R : Realm) (plan : ComponentPlan) : Prop where
  attributes : ∀ a ∈ plan.attributes, a.Within R
  slots : ∀ slot ∈ plan.slots, slot.Within R

section Parts
variable {R : Realm}

theorem Fragment.Within.suits {f : Fragment} (h : f.Within R) : f.Suits R := h f f.self_mem_all

theorem Fragment.Within.plan {f : Fragment} (h : f.Within R) {plan : Plan}
    (hplan : plan ∈ f.plans) : plan.Within R where
  phrases := h.suits.phrases plan hplan
  keys := h.suits.keys plan hplan
  fragments g hg := by
    obtain ⟨statics, plans, fingerprint, root, reads⟩ := f
    apply h
    rw [Fragment.all]
    exact List.mem_cons_of_mem _ (Plan.mem_allFragments.mpr ⟨plan, hplan, hg⟩)

namespace Plan.Within

theorem branch {branches : List BranchPlan} {reads : Reads} {span : Span}
    (h : (Plan.conditional branches reads span).Within R) {branch : BranchPlan}
    (hb : branch ∈ branches) :
    (∀ e ∈ branch.condition, (Phrase.expr e).Within R) ∧ branch.body.Within R := by
  constructor
  · intro e he
    apply h.phrases
    exact List.mem_filterMap.mpr ⟨branch, hb, Option.map_eq_some_iff.mpr ⟨e, he, rfl⟩⟩
  · intro f hf
    apply h.fragments
    rw [Plan.fragments]
    exact BranchPlan.mem_allFragments.mpr ⟨branch, hb, hf⟩

theorem loop {header : ForHeader} {body : Fragment} {reads : Reads} {span : Span}
    (h : (Plan.comprehension header body reads span).Within R) :
    (Phrase.pattern header.pattern).Within R ∧ (Phrase.expr header.items).Within R ∧
      body.Within R := by
  have hheader : (Phrase.header header).Within R := h.phrases _ (List.mem_singleton_self _)
  refine ⟨hheader.child List.mem_cons_self,
    hheader.child (List.mem_cons_of_mem _ List.mem_cons_self), ?_⟩
  intro f hf
  apply h.fragments
  rwa [Plan.fragments]

theorem call {plan : ComponentPlan} (h : (Plan.component plan).Within R) : plan.Within R := by
  obtain ⟨tag, target, attributes, slots, call, reads, span⟩ := plan
  have hslot : ∀ slot ∈ slots, ∀ p ∈ slot.phrases, p.Within R := fun slot hslot p hp =>
    h.phrases p (List.mem_append_right _ (List.mem_flatMap.mpr ⟨slot, hslot, hp⟩))
  have hkeys : ∀ slot ∈ slots, ∀ name ∈ slot.keys, R.keys name := fun slot hslot name hname =>
    h.keys name (List.mem_append_right _ (List.mem_flatMap.mpr ⟨slot, hslot, hname⟩))
  constructor
  · intro a ha
    constructor
    · exact h.phrases _ (List.mem_append_left _ (List.mem_map_of_mem ha))
    · intro name hname
      exact h.keys name (List.mem_append_left _ (List.mem_filterMap.mpr ⟨a, ha, hname⟩))
  · intro slot hin
    constructor
    · exact hkeys slot hin _ List.mem_cons_self
    · intro p hp
      apply hslot slot hin
      exact List.mem_append_left _ (List.mem_map_of_mem (Option.mem_toList.mpr hp))
    · intro a ha
      constructor
      · exact hslot slot hin _ (List.mem_append_right _ (List.mem_map_of_mem ha))
      · intro name hname
        exact hkeys slot hin name
          (List.mem_cons_of_mem _ (List.mem_filterMap.mpr ⟨a, ha, hname⟩))
    · intro body hbody f hf
      apply h.fragments
      rw [Plan.fragments]
      exact SlotPlan.mem_allFragments.mpr ⟨slot, hin, body, hbody, hf⟩

end Plan.Within

end Parts

end LiveTemplate
