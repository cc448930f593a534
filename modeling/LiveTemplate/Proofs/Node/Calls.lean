import LiveTemplate.Proofs.Node.Laying
import Mathlib.Algebra.Order.Group.Multiset
import Mathlib.Data.List.Pairwise

/-!
The calls that a parse records. A call is recorded by the token that ends its component, so the
calls stand in the order in which the components of the template end, and a component comes after
all that stand in its body and in its slot entries.
-/

namespace LiveTemplate

set_option autoImplicit false

mutual

/-- The components of a node, each with those in it. -/
def Node.components : Node → List ComponentNode
  | .text .. | .code .. => []
  | .element _ _ _ children _ => allComponents children
  | .loop _ body _ => allComponents body
  | .conditional branches _ => branchComponents branches
  | .component c => c :: innerComponents c

def Node.allComponents : List Node → List ComponentNode
  | [] => []
  | node :: rest => Node.components node ++ allComponents rest

def Node.branchComponents : List Branch → List ComponentNode
  | [] => []
  | ⟨_, body, _⟩ :: rest => allComponents body ++ branchComponents rest

/-- The components in the body and in the slot entries of a component. -/
def Node.innerComponents : ComponentNode → List ComponentNode
  | ⟨_, _, _, _, slots, body, _, _⟩ => bodyComponents body ++ slotComponents slots

def Node.slotComponents : List SlotEntry → List ComponentNode
  | [] => []
  | ⟨_, _, _, body, _⟩ :: rest => bodyComponents body ++ slotComponents rest

def Node.bodyComponents : Option (List Node) → List ComponentNode
  | none => []
  | some nodes => allComponents nodes

end

open Node (allComponents branchComponents innerComponents slotComponents bodyComponents)

@[simp] theorem Node.allComponents_append (nodes more : List Node) :
    allComponents (nodes ++ more) = allComponents nodes ++ allComponents more := by
  induction nodes with
  | nil => rfl
  | cons n rest ih => rw [List.cons_append, allComponents, allComponents, ih, List.append_assoc]

@[simp] theorem Node.allComponents_single (n : Node) : allComponents [n] = n.components := by
  rw [allComponents, allComponents, List.append_nil]

theorem Node.slotComponents_cons (s : SlotEntry) (rest : List SlotEntry) :
    slotComponents (s :: rest) = bodyComponents s.body ++ slotComponents rest := by
  cases s
  rfl

@[simp] theorem Node.slotComponents_append (slots more : List SlotEntry) :
    slotComponents (slots ++ more) = slotComponents slots ++ slotComponents more := by
  induction slots with
  | nil => rfl
  | cons s rest ih => simp [slotComponents_cons, ih]

@[simp] theorem Node.slotComponents_single (s : SlotEntry) :
    slotComponents [s] = bodyComponents s.body := by
  rw [slotComponents_cons, slotComponents, List.append_nil]

theorem Node.branchComponents_cons (b : Branch) (rest : List Branch) :
    branchComponents (b :: rest) = allComponents b.body ++ branchComponents rest := by
  cases b
  rfl

@[simp] theorem Node.branchComponents_append (branches more : List Branch) :
    branchComponents (branches ++ more) = branchComponents branches ++ branchComponents more := by
  induction branches with
  | nil => rfl
  | cons b rest ih => simp [branchComponents_cons, ih]

@[simp] theorem Node.branchComponents_single (b : Branch) :
    branchComponents [b] = allComponents b.body := by
  rw [branchComponents_cons, branchComponents, List.append_nil]

theorem Node.innerComponents_eq (c : ComponentNode) :
    innerComponents c = bodyComponents c.body ++ slotComponents c.slots := by
  cases c
  rfl

@[simp] theorem inLoop_components (loop : Option ForHeader) (n : Node) :
    (NodeTree.inLoop loop n).components = n.components := by
  cases loop with
  | none => rfl
  | some header => simp [NodeTree.inLoop, Node.components]

/-! ### What one token records -/

/-- The components in what stands in an open node so far. -/
def OpenNode.components : OpenNode → List ComponentNode
  | .tag _ children _ slots _ => allComponents children ++ slotComponents slots
  | .conditional before current _ => branchComponents (before ++ [current])
  | .loop _ children _ => allComponents children

/-- The components read so far, in no order. -/
def ParseState.components (state : ParseState) : Multiset ComponentNode :=
  state.stack.flatMap OpenNode.components + allComponents state.nodes

/-- The call of a component tells what verification keeps of its attributes, its slot entries and
its body. -/
structure ComponentNode.Told (c : ComponentNode) : Prop where
  attributes : c.call.attributes = c.attributes.filterMap ComponentAttribute.record?
  slots : c.call.slots = c.slots.map SlotEntry.record
  hasSpread : c.call.hasSpread = c.attributes.any ComponentAttribute.isSpread
  hasInnerBlock : c.call.hasInnerBlock = (c.body.getD []).any fun n => !n.isBlank

/-- What a token at a span records: at most one call, of a component that ends there. -/
inductive ParseState.Records (span : Span) (state after : ParseState) : Prop where
  | nothing (calls : after.calls = state.calls) (components : after.components = state.components)
  | call (c : ComponentNode) (calls : after.calls = state.calls ++ [c.call])
      (components : after.components = state.components + {c})
      (start : c.call.span.start = c.span.start) (stop : c.span.stop = span.stop) (told : c.Told)

namespace ParseState

variable {source : Source} {ts : List Token} {state after : ParseState} {tag : OpenTag}
  {span : Span}

theorem components_push (state : ParseState) (n : Node) :
    (NodeTree.push state n).components = state.components + n.components := by
  obtain ⟨stack, nodes, calls⟩ := state
  cases stack with
  | nil => simp [NodeTree.push, components]
  | cons top rest =>
    have hattach : (↑(NodeTree.attach n top).components : Multiset ComponentNode) =
        top.components + n.components := by
      cases top <;>
        simp [NodeTree.attach, OpenNode.components, ← Multiset.coe_add, add_right_comm, add_assoc]
    simp only [NodeTree.push, components, List.flatMap_cons, ← Multiset.coe_add, hattach]
    ac_rfl

theorem calls_push (state : ParseState) (n : Node) :
    (NodeTree.push state n).calls = state.calls := by
  obtain ⟨stack, nodes, calls⟩ := state
  cases stack <;> rfl

theorem components_enter (state : ParseState) (o : OpenNode) :
    (NodeTree.enter state o).components = state.components + o.components := by
  simp only [NodeTree.enter, components, List.flatMap_cons, ← Multiset.coe_add]
  ac_rfl

/-- What is closed takes its components with it. -/
theorem components_cons (o : OpenNode) (rest : List OpenNode) (nodes : List Node)
    (calls : List ComponentCall) : components ⟨o :: rest, nodes, calls⟩ =
      components ⟨rest, nodes, calls⟩ + o.components :=
  components_enter ⟨rest, nodes, calls⟩ o

theorem components_addSlot (state : ParseState) (s : SlotEntry)
    (hinside : NodeTree.insideComponent state = true) :
    (NodeTree.addSlot state s).components = state.components + bodyComponents s.body := by
  obtain ⟨stack, nodes, calls⟩ := state
  rcases stack with _ | ⟨top, rest⟩
  · cases hinside
  cases top with
  | conditional | loop => cases hinside
  | tag =>
    simp only [NodeTree.addSlot, components_cons, OpenNode.components, ← Multiset.coe_add,
      Node.slotComponents_append, Node.slotComponents_single]
    ac_rfl

theorem calls_addSlot (state : ParseState) (s : SlotEntry) :
    (NodeTree.addSlot state s).calls = state.calls := by
  unfold NodeTree.addSlot
  split <;> rfl

theorem closeComponent_call {outer : ParseState} {slots : List SlotEntry}
    {body : Option (List Node)} {whole : Span}
    (h : NodeTree.closeComponent source outer tag slots body whole = .ok after) :
    ∃ c : ComponentNode, c.slots = slots ∧ c.body = body ∧ c.span = whole ∧
      c.call.span = tag.span ∧ c.Told ∧
      after = NodeTree.push { outer with calls := outer.calls ++ [c.call] } (.component c) := by
  obtain ⟨⟨attributes, binding⟩, -, h⟩ := bind_eq_ok.1 h
  obtain ⟨⟨⟩, -, h⟩ := bind_eq_ok.1 h
  obtain rfl := Except.ok.inj h
  exact ⟨_, rfl, rfl, rfl, rfl, ⟨rfl, rfl, rfl, rfl⟩, rfl⟩

/-- Closing a component records its call. -/
theorem Records.closeComponent {outer : ParseState} {slots : List SlotEntry}
    {body : Option (List Node)} {whole : Span}
    (hclose : NodeTree.closeComponent source outer tag slots body whole = .ok after)
    (hcalls : outer.calls = state.calls)
    (hcomponents : state.components =
      outer.components + (bodyComponents body ++ slotComponents slots : List ComponentNode))
    (hstart : whole.start = tag.span.start) (hstop : whole.stop = span.stop) :
    Records span state after := by
  obtain ⟨c, rfl, rfl, rfl, hcall, htold, rfl⟩ := closeComponent_call hclose
  refine .call c ?_ ?_ (by rw [hcall, hstart]) hstop htold
  · rw [calls_push, hcalls]
  · have houter : components { outer with calls := outer.calls ++ [c.call] } = outer.components :=
      rfl
    rw [components_push, houter, hcomponents, Node.components, Node.innerComponents_eq,
      ← Multiset.cons_coe, ← Multiset.singleton_add]
    ac_rfl

/-- A node that takes the place of what was open records nothing. -/
theorem Records.push {outer : ParseState} {n : Node} (hcalls : outer.calls = state.calls)
    (hcomponents : state.components = outer.components + n.components) :
    Records span state (NodeTree.push outer n) :=
  .nothing (by rw [calls_push, hcalls]) (by rw [components_push, hcomponents])

/-- A slot entry that takes its place in its component records nothing. -/
theorem Records.addSlot {outer : ParseState} {s : SlotEntry} (hcalls : outer.calls = state.calls)
    (hinside : NodeTree.insideComponent outer = true)
    (hcomponents : state.components = outer.components + bodyComponents s.body) :
    Records span state (NodeTree.addSlot outer s) :=
  .nothing (by rw [calls_addSlot, hcalls]) (by rw [components_addSlot outer s hinside, hcomponents])

/-- What is opened holds no component yet. -/
theorem Records.enter {o : OpenNode} (ho : o.components = []) :
    Records span state (NodeTree.enter state o) :=
  .nothing rfl (by rw [components_enter, ho, Multiset.coe_nil, add_zero])

theorem Records.openSlot (hkind : tag.kind = .slot)
    (hopen : NodeTree.openSlot source state tag = .ok after) : Records tag.span state after := by
  unfold NodeTree.openSlot at hopen
  split_ifs at hopen with _ hinside
  · obtain ⟨s, hs, hopen⟩ := bind_eq_ok.1 hopen
    obtain rfl := Except.ok.inj hopen
    obtain ⟨-, hbody, -⟩ := Parsed.slotEntry_ok hkind hs
    exact .addSlot rfl (by simpa using hinside) (by simp [hbody, bodyComponents])
  · obtain rfl := Except.ok.inj hopen
    exact .enter rfl

theorem Records.openElement (hopen : NodeTree.openElement source state tag = .ok after) :
    Records tag.span state after := by
  obtain ⟨⟨attributes, loop⟩, -, hopen⟩ := bind_eq_ok.1 hopen
  dsimp only at hopen
  split_ifs at hopen
  · obtain rfl := Except.ok.inj hopen
    exact .push rfl (by simp [Node.components, allComponents])
  · obtain rfl := Except.ok.inj hopen
    exact .enter rfl

theorem Records.openTag (hopen : NodeTree.openTag source state tag = .ok after) :
    Records tag.span state after := by
  have hcomponent (hopen : (if tag.selfClosing then
        NodeTree.closeComponent source state tag [] none tag.span
        else .ok (NodeTree.enter state (.tag tag [] [] [] none))) = .ok after) :
      Records tag.span state after := by
    split_ifs at hopen
    · exact .closeComponent hopen rfl (by simp [bodyComponents, slotComponents]) rfl rfl
    · obtain rfl := Except.ok.inj hopen
      exact .enter rfl
  unfold NodeTree.openTag at hopen
  split at hopen
  case h_1 hkind => exact .openSlot hkind hopen
  case h_2 | h_3 => exact hcomponent hopen
  case h_4 | h_5 => exact .openElement hopen

theorem Records.closeTag {name : String} (h : Parsed source ts state.stack state.nodes)
    (hclose : NodeTree.closeTag source state name span = .ok after) : Records span state after := by
  obtain ⟨stack, nodes, calls⟩ := state
  cases h with
  | root | loop | conditional => simp [NodeTree.closeTag] at hclose
  | @element _ _ _ _ _ _ _ rest outer hkind =>
    simp only [NodeTree.closeTag, hkind] at hclose
    split_ifs at hclose
    obtain rfl := Except.ok.inj hclose
    refine .push rfl ?_
    rw [components_cons, inLoop_components]
    simp [OpenNode.components, Node.components, slotComponents]
  | @component _ _ tag children _ slots _ _ rest outer hkind =>
    simp only [NodeTree.closeTag] at hclose
    split_ifs at hclose
    have hclose : NodeTree.closeComponent source ⟨rest, nodes, calls⟩ tag slots (some children)
        (tag.span.join span) = .ok after := by
      cases htag : tag.kind <;> simp only [htag, TagKind.isComponent] at hkind hclose
      · cases hkind
      · cases hkind
      · exact hclose
      · exact hclose
      · cases hkind
    exact .closeComponent hclose rfl (components_cons ..) rfl rfl
  | slot outer houter hkind =>
    simp only [NodeTree.closeTag, hkind] at hclose
    split_ifs at hclose
    obtain ⟨s, hs, hclose⟩ := bind_eq_ok.1 hclose
    obtain rfl := Except.ok.inj hclose
    obtain ⟨-, hbody, -⟩ := Parsed.slotEntry_ok hkind hs
    refine .addSlot rfl houter ?_
    rw [components_cons, hbody]
    simp [OpenNode.components, bodyComponents, slotComponents]

theorem Records.endBlock (hend : NodeTree.endBlock state span = .ok after) :
    Records span state after := by
  obtain ⟨stack, nodes, calls⟩ := state
  unfold NodeTree.endBlock at hend
  split at hend
  · rename_i hstack
    obtain rfl : stack = _ := hstack
    obtain rfl := Except.ok.inj hend
    exact .push rfl (components_cons ..)
  · rename_i hstack
    obtain rfl : stack = _ := hstack
    obtain rfl := Except.ok.inj hend
    exact .push rfl (components_cons ..)
  · cases hend
  · cases hend

theorem Records.nextBranch {condition : Except SyntaxError (Option Expr)}
    (hnext : NodeTree.nextBranch state condition span = .ok after) : Records span state after := by
  obtain ⟨stack, nodes, calls⟩ := state
  unfold NodeTree.nextBranch at hnext
  split at hnext
  · rename_i hstack
    obtain rfl : stack = _ := hstack
    split_ifs at hnext
    obtain ⟨c, -, hnext⟩ := bind_eq_ok.1 hnext
    obtain rfl := Except.ok.inj hnext
    refine .nothing rfl ?_
    rw [components_cons, components_cons, OpenNode.components, OpenNode.components,
      Node.branchComponents_append _ [_], Node.branchComponents_single, allComponents,
      List.append_nil]
  all_goals cases hnext

theorem Records.code {mark : CodeMark} {slice : CodeSlice}
    (hcode : NodeTree.code state mark slice span = .ok after) : Records span state after := by
  simp only [NodeTree.code] at hcode
  split_ifs at hcode
  · unfold NodeTree.control at hcode
    split_ifs at hcode
    · exact .endBlock hcode
    · exact .nextBranch hcode
    · split at hcode
      · exact .nextBranch hcode
      · cases hcode
  · obtain ⟨condition, -, hcode⟩ := bind_eq_ok.1 hcode
    obtain rfl := Except.ok.inj hcode
    exact .enter rfl
  · obtain ⟨header, -, hcode⟩ := bind_eq_ok.1 hcode
    obtain rfl := Except.ok.inj hcode
    exact .enter rfl
  · obtain ⟨value, -, hcode⟩ := bind_eq_ok.1 hcode
    obtain rfl := Except.ok.inj hcode
    exact .push rfl (by simp [Node.components])

/-- Reading one token records at most one call. -/
theorem Records.step {t : Token} (h : Parsed source ts state.stack state.nodes)
    (hstep : NodeTree.step source state t = .ok after) : Records t.span state after := by
  cases t with
  | text content span =>
    obtain rfl := Except.ok.inj hstep
    exact .push rfl (by simp [Node.components])
  | openTag tag => exact .openTag hstep
  | closeTag name kind span => exact .closeTag h hstep
  | code mark slice span => exact .code hstep

/-- The components whose calls a parse has recorded so far, in the order of the calls. -/
structure Recorded (ts : List Token) (state : ParseState) (cs : List ComponentNode) : Prop where
  components : (cs : Multiset ComponentNode) = state.components
  calls : state.calls = cs.map ComponentNode.call
  start : ∀ c ∈ cs, c.call.span.start = c.span.start
  stop : ∀ c ∈ cs, ∃ t ∈ ts, c.span.stop = t.span.stop
  ordered : cs.Pairwise fun c d => c.span.stop < d.span.stop

theorem Recorded.step {cs : List ComponentNode} {t : Token} (h : Recorded ts state cs)
    (horder : Token.InOrder (ts ++ [t])) (hrecords : Records t.span state after) :
    ∃ ds, Recorded (ts ++ [t]) after ds := by
  have hstop : ∀ c ∈ cs, ∃ u ∈ ts ++ [t], c.span.stop = u.span.stop := by
    intro c hc
    obtain ⟨u, hu, hstop⟩ := h.stop c hc
    exact ⟨u, List.mem_append_left _ hu, hstop⟩
  cases hrecords with
  | nothing hcalls hcomponents =>
    exact ⟨cs, hcomponents ▸ h.components, hcalls ▸ h.calls, h.start, hstop, h.ordered⟩
  | call d hcalls hcomponents hstart hend =>
    refine ⟨cs ++ [d], ?_, ?_, ?_, ?_, ?_⟩
    · rw [hcomponents, ← h.components, ← Multiset.coe_add, Multiset.coe_singleton]
    · rw [hcalls, h.calls, List.map_append, List.map_singleton]
    · simpa [or_imp, forall_and] using ⟨h.start, hstart⟩
    · intro c hc
      rcases List.mem_append.1 hc with hc | hc
      · exact hstop c hc
      · rw [List.mem_singleton.1 hc]
        exact ⟨t, by simp, hend⟩
    · refine List.pairwise_append.2 ⟨h.ordered, List.pairwise_singleton _ _, fun c hc e he => ?_⟩
      rw [List.mem_singleton.1 he, hend]
      -- what ended before the token begins ended before the token ends
      obtain ⟨u, hu, hstop⟩ := h.stop c hc
      have hbefore : u.span.stop ≤ t.span.start :=
        (List.pairwise_append.1 horder.ordered).2.2 u hu t List.mem_cons_self
      have hnonempty := horder.nonempty t (by simp)
      omega

theorem Recorded.steps {cs : List ComponentNode} {more : List Token} (h : Recorded ts state cs)
    (hparsed : Parsed source ts state.stack state.nodes) (horder : Token.InOrder (ts ++ more))
    (hsteps : more.foldlM (NodeTree.step source) state = .ok after) :
    ∃ ds, Recorded (ts ++ more) after ds := by
  induction more generalizing ts state cs with
  | nil =>
    obtain rfl := Except.ok.inj hsteps
    exact ⟨cs, by simpa using h⟩
  | cons t more ih =>
    rw [List.foldlM_cons] at hsteps
    obtain ⟨between, hstep, hsteps⟩ := bind_eq_ok.1 hsteps
    rw [← List.singleton_append, ← List.append_assoc] at horder ⊢
    obtain ⟨ds, hds⟩ := h.step (horder.sublist (List.sublist_append_left _ _)) (.step hparsed hstep)
    exact ih hds (hparsed.step hstep) horder hsteps

/-- Whatever the order, reading tokens records the calls of the components that are read, and each
call tells its component. -/
theorem steps_told {more : List Token} (hparsed : Parsed source ts state.stack state.nodes)
    (hsteps : more.foldlM (NodeTree.step source) state = .ok after) :
    ∃ cs : List ComponentNode, after.calls = state.calls ++ cs.map ComponentNode.call ∧
      after.components = state.components + cs ∧ ∀ c ∈ cs, c.Told := by
  induction more generalizing ts state with
  | nil =>
    obtain rfl := Except.ok.inj hsteps
    exact ⟨[], by simp, by simp, by simp⟩
  | cons t more ih =>
    rw [List.foldlM_cons] at hsteps
    obtain ⟨between, hstep, hsteps⟩ := bind_eq_ok.1 hsteps
    obtain ⟨cs, hcalls, hcomponents, htold⟩ := ih (hparsed.step hstep) hsteps
    cases Records.step hparsed hstep with
    | nothing hnone hsame => exact ⟨cs, hnone ▸ hcalls, hsame ▸ hcomponents, htold⟩
    | call c hone hmore _ _ hc =>
      refine ⟨c :: cs, ?_, ?_, List.forall_mem_cons.2 ⟨hc, htold⟩⟩
      · rw [hcalls, hone, List.append_assoc]
        rfl
      · rw [hcomponents, hmore, ← Multiset.cons_coe, ← Multiset.singleton_add, add_assoc]

end ParseState

/-- The calls of a tree tell its components. -/
theorem NodeTree.ofTokens_told {source : Source} {tokens : List Token} {tree : NodeTree}
    (h : ofTokens tokens source = .ok tree) : ∃ cs : List ComponentNode,
      cs.Perm (allComponents tree.children) ∧ tree.calls = cs.map ComponentNode.call ∧
        ∀ c ∈ cs, c.Told := by
  obtain ⟨state, hsteps, hfinish⟩ := bind_eq_ok.1 h
  obtain ⟨cs, hcalls, hcomponents, htold⟩ :=
    ParseState.steps_told (.root .nothing) hsteps
  unfold finish at hfinish
  split at hfinish
  case h_1 hstack =>
    obtain rfl := Except.ok.inj hfinish
    refine ⟨cs, ?_, hcalls, htold⟩
    have hread : state.components = allComponents state.nodes := by
      rw [ParseState.components, hstack]
      exact zero_add _
    have hstart : ParseState.components ⟨[], [], []⟩ = 0 := rfl
    rw [hread, hstart, zero_add] at hcomponents
    exact Multiset.coe_eq_coe.1 hcomponents.symm
  all_goals cases hfinish

/-! ### How components stand in a template -/

/-- How some components stand over some tokens. -/
structure ComponentNode.Stand (ts : List Token) (cs : List ComponentNode) : Prop where
  within : ∀ c ∈ cs, c.span.Within ts
  nonempty : ∀ c ∈ cs, c.span.start < c.span.stop
  closed : ∀ c ∈ cs, ∀ d ∈ innerComponents c, d ∈ cs
  /-- What stands in a component begins after it and ends before it. -/
  nested : ∀ c ∈ cs, ∀ d ∈ innerComponents c,
    c.span.start < d.span.start ∧ d.span.stop < c.span.stop
  /-- Unless one stands in another, they stand beside each other. -/
  beside : (∀ c ∈ cs, innerComponents c = []) →
    cs.Pairwise fun c d => c.span.Before d.span ∨ d.span.Before c.span

namespace ComponentNode.Stand

variable {ts us : List Token} {cs ds : List ComponentNode}

theorem nil (ts : List Token) : Stand ts [] := ⟨by simp, by simp, by simp, by simp, fun _ => .nil⟩

theorem mono (h : Stand ts cs) (hsub : ∀ t ∈ ts, t ∈ us) : Stand us cs :=
  { h with within := fun c hc => (h.within c hc).mono hsub }

theorem perm (h : Stand ts cs) (hperm : cs.Perm ds) : Stand ts ds where
  within c hc := h.within c (hperm.mem_iff.2 hc)
  nonempty c hc := h.nonempty c (hperm.mem_iff.2 hc)
  closed c hc d hd := hperm.mem_iff.1 (h.closed c (hperm.mem_iff.2 hc) d hd)
  nested c hc := h.nested c (hperm.mem_iff.2 hc)
  beside hflat := (hperm.pairwise_iff Or.symm).1
    (h.beside fun c hc => hflat c (hperm.mem_iff.1 hc))

theorem append (h : Stand ts cs) (h' : Stand us ds) (horder : Token.InOrder (ts ++ us)) :
    Stand (ts ++ us) (cs ++ ds) where
  within c hc := (List.mem_append.1 hc).elim
    (fun hc => (h.within c hc).mono fun _ => List.mem_append_left us)
    (fun hc => (h'.within c hc).mono fun _ => List.mem_append_right ts)
  nonempty c hc := (List.mem_append.1 hc).elim (h.nonempty c) (h'.nonempty c)
  closed c hc d hd := List.mem_append.2 ((List.mem_append.1 hc).imp
    (fun hc => h.closed c hc d hd) (fun hc => h'.closed c hc d hd))
  nested c hc := (List.mem_append.1 hc).elim (h.nested c) (h'.nested c)
  beside hflat := by
    rw [List.forall_mem_append] at hflat
    refine List.pairwise_append.2 ⟨h.beside hflat.1, h'.beside hflat.2, fun c hc d hd => .inl ?_⟩
    exact (h.within c hc).before (h'.within d hd) horder

/-- A component that is written with one tag. -/
theorem lone {c : ComponentNode} {t : Token} (hspan : c.span = t.span)
    (hinner : innerComponents c = []) (horder : Token.InOrder [t]) : Stand [t] [c] where
  within := by
    simpa [hspan] using (Span.Over.token t).within
  nonempty := by
    simpa [hspan] using horder.nonempty t (by simp)
  closed := by simp [hinner]
  nested := by simp [hinner]
  beside _ := List.pairwise_singleton _ _

/-- What is written between the two tags of a component stands in it. -/
theorem around {c : ComponentNode} {t u : Token} (h : Stand ts (innerComponents c))
    (hspan : c.span = t.span.join u.span) (horder : Token.InOrder (t :: ts ++ [u])) :
    Stand (t :: ts ++ [u]) (c :: innerComponents c) where
  within := by
    refine List.forall_mem_cons.2 ⟨hspan ▸ (Span.Over.joined t u ts).within, fun d hd => ?_⟩
    exact (h.within d hd).mono fun v hv => List.mem_append_left _ (List.mem_cons_of_mem t hv)
  nonempty := by
    refine List.forall_mem_cons.2 ⟨?_, h.nonempty⟩
    have hfirst := horder.nonempty t (by simp)
    have hlast := horder.nonempty u (by simp)
    have hbefore : t.span.stop ≤ u.span.start :=
      (List.pairwise_cons.1 horder.ordered).1 u (by simp)
    rw [hspan, Span.join]
    dsimp only
    omega
  closed := List.forall_mem_cons.2 ⟨fun _ => List.mem_cons_of_mem c, fun d hd e he =>
    List.mem_cons_of_mem c (h.closed d hd e he)⟩
  nested := by
    refine List.forall_mem_cons.2 ⟨fun d hd => ?_, h.nested⟩
    obtain ⟨⟨a, ha, hstart⟩, ⟨b, hb, hstop⟩⟩ := h.within d hd
    have hfirst := horder.nonempty t (by simp)
    have hlast := horder.nonempty u (by simp)
    have hopen : t.span.stop ≤ a.span.start :=
      (List.pairwise_cons.1 horder.ordered).1 a (List.mem_append_left _ ha)
    have hclose : b.span.stop ≤ u.span.start :=
      (List.pairwise_append.1 horder.ordered).2.2 b (List.mem_cons_of_mem t hb) u (by simp)
    rw [hspan, hstart, hstop, Span.join]
    dsimp only
    omega
  beside hflat := by
    rw [hflat c List.mem_cons_self]
    exact List.pairwise_singleton _ _

end ComponentNode.Stand

/-- The components of a part of a tree. -/
def NodePart.components : NodePart → List ComponentNode
  | .node n => n.components
  | .entry s => bodyComponents s.body
  | .content nodes slots => allComponents nodes ++ slotComponents slots
  | .branches bs => branchComponents bs

theorem NodePart.components_content (nodes : List Node) :
    (NodePart.content nodes []).components = allComponents nodes :=
  List.append_nil _

/-- The components of a part that is spelt stand over the tokens that spell it. -/
theorem Spells.components_stand {source : Source} {ts : List Token} {part : NodePart}
    (h : Spells source ts part) (horder : Token.InOrder ts) :
    ComponentNode.Stand ts part.components := by
  induction h with
  | nothing | noBranch | text | code => exact .nil _
  | more _ _ ihBefore ihHere =>
    have before := ihBefore (horder.sublist (List.sublist_append_left _ _))
    have here := ihHere (horder.sublist (List.sublist_append_right _ _))
    refine (before.append here horder).perm ?_
    -- the node comes after the slot entries that were read before it
    rw [NodePart.components, NodePart.components, NodePart.components, Node.allComponents_append,
      Node.allComponents_single, List.append_assoc, List.append_assoc]
    exact List.perm_append_comm.append_left _
  | moreSlots _ _ ihBefore ihHere =>
    have before := ihBefore (horder.sublist (List.sublist_append_left _ _))
    have here := ihHere (horder.sublist (List.sublist_append_right _ _))
    rw [NodePart.components, Node.slotComponents_append, Node.slotComponents_single,
      ← List.append_assoc]
    exact before.append here horder
  | loneElement =>
    rw [NodePart.components, inLoop_components]
    exact .nil _
  | element _ _ _ _ ih =>
    rw [NodePart.components, inLoop_components, Node.components, ← NodePart.components_content]
    exact (ih (horder.sublist (by simp))).mono fun v hv => by simp [hv]
  | @loneComponent tag c _ _ _ hslots hbody hspan =>
    have hinner : innerComponents c = [] := by
      rw [Node.innerComponents_eq, hslots, hbody]
      rfl
    rw [NodePart.components, Node.components, hinner]
    exact .lone hspan hinner horder
  | @component tag c ts children kind span _ _ _ _ hbody hspan ih =>
    have hinner : innerComponents c = (NodePart.content children c.slots).components := by
      rw [Node.innerComponents_eq, hbody]
      rfl
    exact .around (hinner ▸ ih (horder.sublist (by simp))) hspan horder
  | loneSlot _ _ _ hbody =>
    rw [NodePart.components, hbody]
    exact .nil _
  | slot _ _ _ _ hbody _ ih =>
    rw [NodePart.components, hbody, bodyComponents, ← NodePart.components_content]
    exact (ih (horder.sublist (by simp))).mono fun v hv => by simp [hv]
  | loop _ _ _ ih =>
    rw [NodePart.components, Node.components, ← NodePart.components_content]
    exact (ih (horder.sublist (by simp))).mono fun v hv => by simp [hv]
  | branch _ _ _ ihBefore ihInner =>
    have before := ihBefore (horder.sublist (List.sublist_append_left _ _))
    have inner := ihInner (horder.sublist (by simp))
    rw [NodePart.components_content] at inner
    rw [NodePart.components, Node.branchComponents_append, Node.branchComponents_single]
    exact before.append (inner.mono fun v => List.mem_cons_of_mem _) horder
  | conditional _ _ ih =>
    exact (ih (horder.sublist (by simp))).mono fun v hv => by simp [hv]

/-- Components in the order in which they end are in the order in which they begin just when none of
them stands in another. -/
theorem ComponentNode.Stand.ordered_iff {ts : List Token} {cs : List ComponentNode}
    (h : Stand ts cs) (hordered : cs.Pairwise fun c d => c.span.stop < d.span.stop) :
    (cs.Pairwise fun c d => c.span.start < d.span.start) ↔ ∀ c ∈ cs, innerComponents c = [] := by
  constructor
  · intro hstarts c hc
    refine List.eq_nil_iff_forall_not_mem.2 fun d hd => ?_
    obtain ⟨hstart, hstop⟩ := h.nested c hc d hd
    have hends :
        cs.Pairwise fun c d => c.span.start < d.span.start → c.span.stop ≤ d.span.stop := by
      refine hordered.imp ?_
      exact fun hlt _ => Int.le_of_lt hlt
    have hbegins : cs.Pairwise
        (flip fun c d => c.span.start < d.span.start → c.span.stop ≤ d.span.stop) :=
      hstarts.imp fun hlt hgt => absurd hlt (Int.lt_asymm hgt)
    have hle := hends.forall_of_forall_of_flip (fun _ _ _ => Int.le_refl _) hbegins hc
      (h.closed c hc d hd) hstart
    omega
  · intro hflat
    refine (hordered.and (h.beside hflat)).imp_of_mem ?_
    rintro c d hc hd ⟨hstop, hbefore | hbefore⟩
    · have hnonempty := h.nonempty c hc
      exact Int.lt_of_lt_of_le hnonempty hbefore
    · have hnonempty := h.nonempty c hc
      have hafter : d.span.stop ≤ c.span.start := hbefore
      omega

/-- How the calls of a tree stand for its components. -/
structure NodeTree.Records (tree : NodeTree) (cs : List ComponentNode) : Prop where
  /-- One call for each component of the tree, wherever it stands. -/
  each : cs.Perm (allComponents tree.children)
  calls : tree.calls = cs.map ComponentNode.call
  start : ∀ c ∈ cs, c.call.span.start = c.span.start
  /-- A call is recorded when its component ends. -/
  ending : cs.Pairwise fun c d => c.span.stop < d.span.stop
  /-- The calls begin one after another just when no component stands in another. -/
  beginning : (tree.calls.Pairwise fun a b => a.span.start < b.span.start) ↔
    ∀ c ∈ allComponents tree.children, innerComponents c = []

/-- A template records its calls in the order in which its components end. -/
theorem NodeTree.ofSource_calls {source : Source} {tree : NodeTree}
    (h : ofSource source = .ok tree) : ∃ cs, tree.Records cs := by
  obtain ⟨tokens, htokens, htree⟩ := bind_eq_ok.1 h
  have horder := Token.ofSource_inOrder htokens
  have hstand := (ofTokens_spells htree).components_stand horder
  rw [NodePart.components_content] at hstand
  obtain ⟨state, hsteps, hfinish⟩ := bind_eq_ok.1 htree
  have hstart : ParseState.Recorded [] ⟨[], [], []⟩ [] := ⟨rfl, rfl, by simp, by simp, .nil⟩
  obtain ⟨cs, hcs⟩ := hstart.steps (.root .nothing) horder hsteps
  unfold finish at hfinish
  split at hfinish
  case h_1 hstack =>
    obtain rfl := Except.ok.inj hfinish
    have hperm : cs.Perm (allComponents state.nodes) := by
      rw [← Multiset.coe_eq_coe, hcs.components, ParseState.components, hstack]
      exact zero_add _
    refine ⟨cs, hperm, hcs.calls, hcs.start, hcs.ordered, ?_⟩
    have hiff := (hstand.perm hperm.symm).ordered_iff hcs.ordered
    simp only [hperm.mem_iff] at hiff
    rw [hcs.calls, List.pairwise_map, ← hiff]
    apply List.Pairwise.iff_of_mem
    intro c d hc hd
    rw [hcs.start c hc, hcs.start d hd]
  all_goals cases hfinish

/-- A component comes after those in its slot entries and its body. -/
theorem NodeTree.ofSource_card_calls :
    let source : Source := ⟨"<.card><:head><.icon/></:head><.body/></.card><.foot/>", "card"⟩
    ∃ tree, NodeTree.ofSource source = .ok tree ∧
      tree.calls.map (fun call => (call.target.name, call.span.start)) =
        [("icon", 14), ("body", 30), ("card", 0), ("foot", 46)] ∧
      ∃ cs, tree.Records cs := by
  intro source
  have hcalls : (NodeTree.ofSource source).toOption.map (fun tree =>
      tree.calls.map fun call => (call.target.name, call.span.start)) =
        some [("icon", 14), ("body", 30), ("card", 0), ("foot", 46)] := by decide +kernel
  obtain ⟨tree, htree, hcalls⟩ := Option.map_eq_some_iff.1 hcalls
  have htree := toOption_eq_some.1 htree
  exact ⟨tree, htree, hcalls, NodeTree.ofSource_calls htree⟩

end LiveTemplate
