import LiveTemplate.Proofs.Eval.Content
import LiveTemplate.Proofs.Node.Calls
import LiveTemplate.Proofs.Realm.Code

/-!
The plans of components. Each component of a template is planned once, wherever it stands, so the
calls that a template records are those of the plans in its fragment.
-/

namespace LiveTemplate

set_option autoImplicit false

open Node (allComponents branchComponents innerComponents slotComponents bodyComponents)

def Plan.component? : Plan → Option ComponentPlan
  | .component plan => some plan
  | _ => none

/-- The plans of components that stand in some fragments themselves. -/
def Fragment.ownComponents (fs : List Fragment) : List ComponentPlan :=
  fs.flatMap fun f => f.plans.filterMap Plan.component?

/-- The plans of components in a fragment and in the fragments inside it. -/
def Fragment.componentPlans (f : Fragment) : List ComponentPlan := ownComponents f.all

def Piece.componentPlans : Piece → List ComponentPlan
  | text _ => []
  | hole plan => plan.component?.toList ++ Fragment.ownComponents plan.fragments

@[simp] theorem Fragment.ownComponents_append (fs gs : List Fragment) :
    ownComponents (fs ++ gs) = ownComponents fs ++ ownComponents gs := List.flatMap_append

theorem Fragment.componentPlans_ofPieces (source : Source) (ps : List Piece) (root trimmed : Bool) :
    (ofPieces source ps root trimmed).componentPlans.Perm (ps.flatMap Piece.componentPlans) := by
  have hall : (ofPieces source ps root trimmed).componentPlans =
      (Piece.plans ps).filterMap Plan.component? ++ ownComponents (ps.flatMap Piece.fragments) := by
    rw [componentPlans, ofPieces, Fragment.all, Plan.allFragments_plans]
    rfl
  rw [hall]
  clear hall
  induction ps with
  | nil => exact .refl _
  | cons p rest ih =>
    cases p with
    | text content => exact ih
    | hole plan =>
      have hplans : (Piece.plans (.hole plan :: rest)).filterMap Plan.component? =
          plan.component?.toList ++ (Piece.plans rest).filterMap Plan.component? := by
        change (plan :: Piece.plans rest).filterMap Plan.component? = _
        rw [List.filterMap_cons]
        cases plan.component? <;> rfl
      rw [List.flatMap_cons, List.flatMap_cons, ownComponents_append, hplans, Piece.componentPlans,
        List.append_assoc, List.append_assoc]
      refine List.Perm.append_left _ ?_
      exact (List.perm_append_comm_assoc ..).trans (List.Perm.append_left _ ih)

/-- The plans are those of the components, each made where some names are local. -/
def Planned (ctx : Fragment.Context) (cs : List ComponentNode) (plans : List ComponentPlan) :
    Prop :=
  ∃ made, plans.Perm made ∧
    List.Forall₂ (fun c plan => ∃ locals, plan = Fragment.componentPlan ctx locals c) cs made

namespace Planned

variable {ctx : Fragment.Context} {cs ds : List ComponentNode} {plans more : List ComponentPlan}

theorem nil : Planned ctx [] [] := ⟨[], .refl _, .nil⟩

theorem append (h : Planned ctx cs plans) (h' : Planned ctx ds more) :
    Planned ctx (cs ++ ds) (plans ++ more) := by
  obtain ⟨made, hperm, hmade⟩ := h
  obtain ⟨made', hperm', hmade'⟩ := h'
  exact ⟨made ++ made', hperm.append hperm', List.rel_append hmade hmade'⟩

theorem cons {c : ComponentNode} (locals : List String) (h : Planned ctx cs plans) :
    Planned ctx (c :: cs) (Fragment.componentPlan ctx locals c :: plans) := by
  obtain ⟨made, hperm, hmade⟩ := h
  exact ⟨_, hperm.cons _, .cons ⟨locals, rfl⟩ hmade⟩

theorem of_perm (h : Planned ctx cs plans) (hperm : more.Perm plans) : Planned ctx cs more := by
  obtain ⟨made, hplans, hmade⟩ := h
  exact ⟨made, hperm.trans hplans, hmade⟩

/-- A fragment holds the plans of its pieces. -/
theorem fragment {ps : List Piece} (h : Planned ctx cs (ps.flatMap Piece.componentPlans))
    (root trimmed : Bool) :
    Planned ctx cs (Fragment.ofPieces ctx.source ps root trimmed).componentPlans :=
  h.of_perm (Fragment.componentPlans_ofPieces ..)

end Planned

/-! ### Parts of a parse tree -/

section Nodes
variable (ctx : Fragment.Context)

/-- The plans in the bodies of slot plans. -/
def SlotPlan.inner (plans : List SlotPlan) : List ComponentPlan :=
  Fragment.ownComponents (SlotPlan.allFragments plans)

/-- The plans in branches. -/
def BranchPlan.inner (plans : List BranchPlan) : List ComponentPlan :=
  Fragment.ownComponents (BranchPlan.allFragments plans)

/-- Wherever a part of a parse tree stands, its components are planned. -/
def NodePart.Planned : NodePart → Prop
  | .node n => ∀ locals, LiveTemplate.Planned ctx n.components
      ((Fragment.pieces ctx locals n).flatMap Piece.componentPlans)
  | .entry s => ∀ locals, LiveTemplate.Planned ctx (bodyComponents s.body)
      (SlotPlan.inner (Fragment.slotPlans ctx locals [s]))
  | .content nodes slots =>
    (∀ locals, LiveTemplate.Planned ctx (allComponents nodes)
      ((Fragment.allPieces ctx locals nodes).flatMap Piece.componentPlans)) ∧
    ∀ locals, LiveTemplate.Planned ctx (slotComponents slots)
      (SlotPlan.inner (Fragment.slotPlans ctx locals slots))
  | .branches bs => ∀ locals, LiveTemplate.Planned ctx (branchComponents bs)
      (BranchPlan.inner (Fragment.branchPlans ctx locals bs))

/-- Attributes of elements hold no components. -/
theorem attributePieces_componentPlans (locals : List String) (a : ElementAttribute) :
    (Fragment.attributePieces ctx locals a).flatMap Piece.componentPlans = [] := by
  have hattribute : ∀ name form value reads span,
      Piece.componentPlans (.hole (.attribute name form value reads span)) = [] :=
    fun _ _ _ _ _ => rfl
  have htext : ∀ content, Piece.componentPlans (.text content) = [] := fun _ => rfl
  have hparts : ∀ name parts,
      (Fragment.templatePieces ctx locals name parts).flatMap Piece.componentPlans = [] := by
    intro name parts
    induction parts with
    | nil => rfl
    | cons part rest ih => simpa [Fragment.templatePieces, hattribute, htext] using ih
  unfold Fragment.attributePieces
  split
  case h_4 => rfl
  case h_5 => simp [Fragment.quotedText, htext, hparts]
  case h_6 =>
    dsimp only
    split_ifs <;> simp [Fragment.quotedText, htext, hattribute]
  all_goals simp [htext]

theorem allPieces_append (locals : List String) (nodes more : List Node) :
    Fragment.allPieces ctx locals (nodes ++ more) =
      Fragment.allPieces ctx locals nodes ++ Fragment.allPieces ctx locals more := by
  induction nodes with
  | nil => rfl
  | cons n rest ih =>
    rw [List.cons_append, Fragment.allPieces, Fragment.allPieces, ih, List.append_assoc]

theorem allPieces_single (locals : List String) (n : Node) :
    Fragment.allPieces ctx locals [n] = Fragment.pieces ctx locals n := by
  rw [Fragment.allPieces, Fragment.allPieces, List.append_nil]

theorem slotPlans_cons (locals : List String) (s : SlotEntry) (rest : List SlotEntry) :
    Fragment.slotPlans ctx locals (s :: rest) =
      Fragment.slotPlans ctx locals [s] ++ Fragment.slotPlans ctx locals rest := by
  obtain ⟨name, pattern, attributes, body, span⟩ := s
  cases body <;> rfl

theorem slotPlans_append (locals : List String) (slots more : List SlotEntry) :
    Fragment.slotPlans ctx locals (slots ++ more) =
      Fragment.slotPlans ctx locals slots ++ Fragment.slotPlans ctx locals more := by
  induction slots with
  | nil => rfl
  | cons s rest ih =>
    rw [List.cons_append, slotPlans_cons, slotPlans_cons ctx locals s rest, ih, List.append_assoc]

theorem branchPlans_append (locals : List String) (bs more : List Branch) :
    Fragment.branchPlans ctx locals (bs ++ more) =
      Fragment.branchPlans ctx locals bs ++ Fragment.branchPlans ctx locals more := by
  induction bs with
  | nil => rfl
  | cons b rest ih =>
    obtain ⟨condition, body, span⟩ := b
    rw [List.cons_append, Fragment.branchPlans, Fragment.branchPlans, ih, List.cons_append]

theorem SlotPlan.inner_append (plans more : List SlotPlan) :
    inner (plans ++ more) = inner plans ++ inner more := by
  rw [inner, SlotPlan.allFragments_append, Fragment.ownComponents_append]
  rfl

theorem SlotPlan.inner_single (slot : SlotPlan) :
    inner [slot] = (slot.body.map Fragment.componentPlans).getD [] := by
  obtain ⟨name, pattern, attributes, body, reads, span⟩ := slot
  cases body with
  | none => rfl
  | some body => exact congrArg Fragment.ownComponents (List.append_nil body.all)

theorem BranchPlan.inner_append (plans more : List BranchPlan) :
    inner (plans ++ more) = inner plans ++ inner more := by
  induction plans with
  | nil => rfl
  | cons plan rest ih =>
    obtain ⟨condition, body⟩ := plan
    have hcons : ∀ bs, inner (⟨condition, body⟩ :: bs) = body.componentPlans ++ inner bs :=
      fun bs => Fragment.ownComponents_append body.all (allFragments bs)
    rw [List.cons_append, hcons, hcons, ih, List.append_assoc]

theorem BranchPlan.inner_single (plan : BranchPlan) : inner [plan] = plan.body.componentPlans := by
  obtain ⟨condition, body⟩ := plan
  exact congrArg Fragment.ownComponents (List.append_nil body.all)

/-- The slots of a component are planned after its body, which is planned unless it is blank. -/
theorem componentPlan_slots (locals : List String) (c : ComponentNode) :
    (∃ nodes inner, c.body = some nodes ∧ nodes.all Node.isBlank = false ∧
      inner.name = innerBlock ∧ inner.body = some (Fragment.ofPieces ctx.source
        (Fragment.allPieces ctx (locals ++ (c.pattern.map Pattern.boundNames).getD []) nodes)
        (Node.isRoot nodes) false) ∧
      (Fragment.componentPlan ctx locals c).slots =
        inner :: Fragment.slotPlans ctx locals c.slots) ∨
    ((c.body.getD []).all Node.isBlank = true ∧
      (Fragment.componentPlan ctx locals c).slots = Fragment.slotPlans ctx locals c.slots) := by
  obtain ⟨tag, target, pattern, attributes, slots, body, call, span⟩ := c
  cases body with
  | none => exact .inr ⟨rfl, rfl⟩
  | some nodes =>
    let f := Fragment.ofPieces ctx.source
      (Fragment.allPieces ctx (locals ++ (pattern.map Pattern.boundNames).getD []) nodes)
      (Node.isRoot nodes) false
    let reads := Fragment.slotReads (ctx.scope locals) pattern [] (some f)
    cases hblank : nodes.all Node.isBlank with
    | true =>
      refine .inr ⟨hblank, ?_⟩
      simp only [Fragment.componentPlan, if_pos hblank, List.nil_append]
    | false =>
      refine .inl ⟨nodes, ⟨innerBlock, pattern, [], some f, reads, span⟩, rfl, hblank, rfl, rfl, ?_⟩
      simp only [Fragment.componentPlan, hblank, if_neg Bool.false_ne_true, List.cons_append,
        List.nil_append, f, reads]

theorem allComponents_of_blank {nodes : List Node} (h : nodes.all Node.isBlank = true) :
    allComponents nodes = [] := by
  induction nodes with
  | nil => rfl
  | cons n rest ih =>
    rw [List.all_cons, Bool.and_eq_true] at h
    rw [allComponents, ih h.2, List.append_nil]
    cases n with
    | text => rfl
    | code | element | loop | conditional | component => cases h.1

variable {ctx}

/-- A body is planned as the fragment that its pieces make. -/
theorem planned_body {nodes : List Node} (h : (NodePart.content nodes []).Planned ctx)
    (locals : List String) (root : Bool) : Planned ctx (allComponents nodes)
      (Fragment.ofPieces ctx.source (Fragment.allPieces ctx locals nodes) root
        false).componentPlans :=
  (h.1 locals).fragment root false

theorem planned_loop {nodes : List Node} (h : (NodePart.content nodes []).Planned ctx)
    (header : ForHeader) (span : Span) : (NodePart.node (.loop header nodes span)).Planned ctx := by
  intro locals
  have hbody := planned_body h (locals ++ header.pattern.boundNames) (Node.isRoot nodes)
  rw [Fragment.pieces, List.flatMap_singleton]
  exact hbody

theorem planned_element {nodes : List Node} (h : (NodePart.content nodes []).Planned ctx)
    (name : String) (void : Bool) (attributes : List ElementAttribute) (span : Span)
    (hvoid : void = true → nodes = []) :
    (NodePart.node (.element name void attributes nodes span)).Planned ctx := by
  intro locals
  have htext : ∀ content, Piece.componentPlans (.text content) = [] := fun _ => rfl
  have hattributes : (attributes.flatMap (Fragment.attributePieces ctx locals)).flatMap
      Piece.componentPlans = [] := by
    rw [List.flatMap_assoc]
    exact List.flatMap_eq_nil_iff.2 fun a _ => attributePieces_componentPlans ctx locals a
  rw [Fragment.pieces, List.flatMap_append, List.flatMap_cons, List.flatMap_cons, hattributes,
    htext, htext]
  cases void with
  | true =>
    obtain rfl := hvoid rfl
    exact .nil
  | false =>
    have hbody := h.1 locals
    rw [if_neg Bool.false_ne_true, List.flatMap_append, List.flatMap_singleton, htext,
      List.append_nil, List.nil_append, List.nil_append, List.append_nil]
    exact hbody

theorem planned_inLoop {n : Node} (h : (NodePart.node n).Planned ctx) (loop : Option ForHeader) :
    (NodePart.node (NodeTree.inLoop loop n)).Planned ctx := by
  cases loop with
  | none => exact h
  | some header =>
    refine planned_loop ⟨fun locals => ?_, fun _ => .nil⟩ header n.span
    rw [Node.allComponents_single, allPieces_single]
    exact h locals

theorem planned_component {c : ComponentNode}
    (h : (NodePart.content (c.body.getD []) c.slots).Planned ctx) :
    (NodePart.node (.component c)).Planned ctx := by
  intro locals
  have hpieces : (Fragment.pieces ctx locals (.component c)).flatMap Piece.componentPlans =
      Fragment.componentPlan ctx locals c ::
        SlotPlan.inner (Fragment.componentPlan ctx locals c).slots := by
    rw [Fragment.pieces, List.flatMap_singleton]
    cases Fragment.componentPlan ctx locals c
    rfl
  have hbody : bodyComponents c.body = allComponents (c.body.getD []) := by
    cases c.body <;> rfl
  rw [hpieces, Node.components, Node.innerComponents_eq, hbody]
  refine .cons locals ?_
  obtain ⟨nodes, inner, hnodes, -, -, hinner, hslots⟩ | ⟨hblank, hslots⟩ :=
    componentPlan_slots ctx locals c
  · rw [hnodes] at h ⊢
    rw [hslots, ← List.singleton_append, SlotPlan.inner_append, SlotPlan.inner_single, hinner]
    exact (planned_body ⟨h.1, fun _ => .nil⟩ _ _).append (h.2 locals)
  · rw [hslots, allComponents_of_blank hblank]
    exact h.2 locals

/-- What a parse tree is made of is planned throughout. -/
theorem Spells.planned {source : Source} {ts : List Token} {part : NodePart}
    (h : Spells source ts part) : part.Planned ctx := by
  induction h with
  | nothing => exact ⟨fun _ => .nil, fun _ => .nil⟩
  | more _ _ ihBefore ihHere =>
    refine ⟨fun locals => ?_, ihBefore.2⟩
    rw [Node.allComponents_append, Node.allComponents_single, allPieces_append, allPieces_single,
      List.flatMap_append]
    exact (ihBefore.1 locals).append (ihHere locals)
  | moreSlots _ _ ihBefore ihHere =>
    refine ⟨ihBefore.1, fun locals => ?_⟩
    rw [Node.slotComponents_append, Node.slotComponents_single, slotPlans_append,
      SlotPlan.inner_append]
    exact (ihBefore.2 locals).append (ihHere locals)
  | text content span => exact fun _ => .nil
  | code hrole hvalue =>
    intro locals
    rw [Fragment.pieces, Fragment.codePlan]
    split <;> exact .nil
  | loneElement =>
    exact planned_inLoop (planned_element ⟨fun _ => .nil, fun _ => .nil⟩ _ _ _ _ fun _ => rfl) _
  | element _ _ _ _ ih =>
    exact planned_inLoop (planned_element ih _ false _ _ fun h => absurd h Bool.false_ne_true) _
  | @loneComponent tag c _ _ _ hslots hbody _ =>
    refine planned_component ?_
    rw [hslots, hbody]
    exact ⟨fun _ => .nil, fun _ => .nil⟩
  | @component tag c _ _ _ _ _ _ _ _ hbody _ ih =>
    refine planned_component ?_
    rw [hbody]
    exact ih
  | @loneSlot tag s _ _ _ hbody _ =>
    intro locals
    obtain ⟨name, pattern, attributes, body, span⟩ := s
    obtain rfl : body = none := hbody
    exact .nil
  | @slot tag s _ children _ _ _ _ _ _ hbody _ ih =>
    intro locals
    obtain ⟨name, pattern, attributes, body, span⟩ := s
    obtain rfl : body = some children := hbody
    rw [Fragment.slotPlans, Fragment.slotPlans, SlotPlan.inner_single]
    exact planned_body ih _ _
  | loop _ _ _ ih => exact planned_loop ih _ _
  | noBranch => exact fun _ => .nil
  | @branch _ _ _ _ bs b _ _ _ ihBefore ihInner =>
    intro locals
    obtain ⟨condition, body, span⟩ := b
    rw [Node.branchComponents_append, Node.branchComponents_single, branchPlans_append,
      BranchPlan.inner_append, Fragment.branchPlans, Fragment.branchPlans, BranchPlan.inner_single]
    exact (ihBefore locals).append (planned_body ihInner _ _)
  | conditional _ _ ih =>
    intro locals
    have hbranches := ih locals
    rw [Fragment.pieces, List.flatMap_singleton]
    exact hbranches

end Nodes

/-! ### Plans and the calls they stand for -/

/-- A plan has the arguments and the slot entries that its call tells. -/
structure ComponentPlan.Told (plan : ComponentPlan) : Prop where
  attributes : plan.attributes.filterMap Argument.name? =
    plan.call.attributes.map RecordedAttribute.name
  named : plan.call.hasSpread = false → ∀ arg ∈ plan.attributes, arg.name?.isSome = true
  slots : plan.slots.map SlotPlan.name =
    (if plan.call.hasInnerBlock then [innerBlock] else []) ++ plan.call.slots.map RecordedSlot.name

section Told
variable (ctx : Fragment.Context) (locals : List String)

theorem componentPlan_call (c : ComponentNode) :
    (Fragment.componentPlan ctx locals c).call = c.call := by
  cases c
  rfl

theorem componentPlan_attributes (c : ComponentNode) :
    (Fragment.componentPlan ctx locals c).attributes =
      c.attributes.map (Fragment.argument ctx locals) := by
  cases c
  rfl

theorem slotPlans_names (slots : List SlotEntry) :
    (Fragment.slotPlans ctx locals slots).map SlotPlan.name = slots.map SlotEntry.name := by
  induction slots with
  | nil => rfl
  | cons s rest ih =>
    rw [slotPlans_cons, List.map_append, ih, List.map_cons]
    obtain ⟨name, pattern, attributes, body, span⟩ := s
    cases body <;> rfl

theorem ComponentNode.Told.plan {c : ComponentNode} (h : c.Told) :
    (Fragment.componentPlan ctx locals c).Told := by
  constructor
  · rw [componentPlan_attributes, componentPlan_call, h.attributes, List.filterMap_map,
      List.map_filterMap]
    congr 1
    funext a
    cases a <;> rfl
  · rw [componentPlan_attributes, componentPlan_call, h.hasSpread]
    intro hnone arg harg
    obtain ⟨a, ha, rfl⟩ := List.mem_map.1 harg
    cases a with
    | named => rfl
    | spread => exact absurd rfl (List.any_eq_false.1 hnone _ ha)
  · rw [componentPlan_call, h.slots, h.hasInnerBlock, List.map_map]
    have hnames : c.slots.map (RecordedSlot.name ∘ SlotEntry.record) = c.slots.map SlotEntry.name :=
      rfl
    rw [hnames]
    obtain ⟨nodes, inner, hnodes, hblank, hname, -, hslots⟩ | ⟨hblank, hslots⟩ :=
      componentPlan_slots ctx locals c
    · have hany : ((c.body.getD []).any fun n => !n.isBlank) = true := by
        rw [hnodes]
        simpa using hblank
      rw [hslots, List.map_cons, slotPlans_names, hname, hany]
      rfl
    · have hany : ((c.body.getD []).any fun n => !n.isBlank) = false := by
        simpa using hblank
      rw [hslots, slotPlans_names, hany]
      rfl

end Told

/-- What holds of the plans of all components holds of what is planned. -/
theorem Planned.forall_mem {ctx : Fragment.Context} {cs : List ComponentNode}
    {plans : List ComponentPlan} (h : Planned ctx cs plans) {P : ComponentPlan → Prop}
    (hP : ∀ c ∈ cs, ∀ locals, P (Fragment.componentPlan ctx locals c)) :
    ∀ plan ∈ plans, P plan := by
  obtain ⟨made, hperm, hmade⟩ := h
  intro plan hplan
  replace hplan := hperm.mem_iff.1 hplan
  clear hperm
  induction hmade with
  | nil => cases hplan
  | cons hfirst _ ih =>
    rw [List.forall_mem_cons] at hP
    obtain rfl | hplan := List.mem_cons.1 hplan
    · obtain ⟨locals, rfl⟩ := hfirst
      exact hP.1 locals
    · exact ih hP.2 hplan

theorem Planned.calls_perm {ctx : Fragment.Context} {cs : List ComponentNode}
    {plans : List ComponentPlan} (h : Planned ctx cs plans) :
    (cs.map ComponentNode.call).Perm (plans.map ComponentPlan.call) := by
  obtain ⟨made, hperm, hmade⟩ := h
  refine List.Perm.trans (.of_eq ?_) (hperm.map _).symm
  refine map_eq_map_of_forall₂ hmade ?_
  rintro c plan ⟨locals, rfl⟩
  rw [componentPlan_call]

/-- The calls that a template records are those of its plans, and each plan has what its call tells.
-/
theorem Template.calls_perm {source : Source} {helpers : Assoc String Value} {unit : Option Nat}
    {trimmed : Bool} {t : Template} (h : ofSource source helpers unit trimmed = .ok t) :
    t.calls.Perm (t.fragment.componentPlans.map ComponentPlan.call) ∧
      ∀ plan ∈ t.fragment.componentPlans, plan.Told := by
  obtain ⟨tree, htree, h⟩ := bind_eq_ok.1 h
  obtain rfl := Except.ok.inj h
  obtain ⟨tokens, -, htokens⟩ := bind_eq_ok.1 htree
  obtain ⟨cs, hcs, hcalls, htold⟩ := NodeTree.ofTokens_told htokens
  let ctx : Fragment.Context := ⟨source, Assoc.keys helpers⟩
  have hplanned : Planned ctx (allComponents tree.children)
      (Fragment.ofTree tree source (Assoc.keys helpers) trimmed).componentPlans :=
    ((NodeTree.ofTokens_spells htokens).planned.1 []).fragment tree.root trimmed
  refine ⟨?_, hplanned.forall_mem fun c hc locals => (htold c (hcs.mem_iff.2 hc)).plan ctx locals⟩
  have hperm := hplanned.calls_perm
  rw [hcalls]
  exact (hcs.map _).trans hperm

end LiveTemplate
