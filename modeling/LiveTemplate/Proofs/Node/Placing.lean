import LiveTemplate.Proofs.Expr.Placing
import LiveTemplate.Proofs.Node.Phrases

/-!
The phrases of a parse tree are placed in its source. Every piece of code is read from where it stands,
and while the parser runs, what is open holds placed phrases only.
-/

namespace LiveTemplate

set_option autoImplicit false

namespace NodeTree

variable {source : Source} {state after : ParseState} {tag : OpenTag} {slice : CodeSlice}

theorem placed_eq_ok {α : Type} {place : CodePlace} {x : Except ExprError α} {a : α}
    (h : placed place x = .ok a) : x = .ok a := by
  cases x with
  | error e => cases h
  | ok b =>
    obtain rfl := Except.ok.inj h
    rfl

theorem readExpr_placed {code : List Char} {base : Int} {e : Expr} (hat : source.HasAt code base)
    (h : readExpr code base = .ok e) : (Phrase.expr e).Placed source :=
  Expr.ofChars_placed hat (placed_eq_ok h)

theorem readSlice_placed {e : Expr} (hslice : slice.StandsIn source)
    (h : readSlice slice = .ok e) : (Phrase.expr e).Placed source :=
  readExpr_placed hslice h

theorem elementAttributes_placed {as : List TagAttribute} {loop : Option (ForHeader × Span)}
    {attributes : List ElementAttribute} {loop' : Option ForHeader}
    (hstands : ∀ a ∈ as, ∀ slice, a.code? = some slice → slice.StandsIn source)
    (hloop : AllPlaced source ((loop.map Prod.fst).toList.map .header))
    (h : elementAttributes source as loop = .ok (attributes, loop')) :
    AllPlaced source (attributes.flatMap ElementAttribute.phrases) ∧
      AllPlaced source (loop'.toList.map .header) := by
  induction as generalizing loop attributes loop' with
  | nil =>
    obtain ⟨rfl, rfl⟩ := Prod.mk.inj (Except.ok.inj h)
    exact ⟨by simp, hloop⟩
  | cons a as ih =>
    rw [List.forall_mem_cons] at hstands
    obtain ⟨hfirst, hstands⟩ := hstands
    -- an attribute that gives no loop header, and the attributes after it
    have hnext {attr : ElementAttribute} {more : List ElementAttribute} {last : Option ForHeader}
        (hattr : AllPlaced source attr.phrases)
        (hmore : elementAttributes source as loop = .ok (more, last)) :
        AllPlaced source ((attr :: more).flatMap ElementAttribute.phrases) ∧
          AllPlaced source (last.toList.map .header) := by
      obtain ⟨hrest, hlast⟩ := ih hstands hloop hmore
      exact ⟨by simpa using ⟨hattr, hrest⟩, hlast⟩
    cases a with
    | spread slice span =>
      obtain ⟨value, hvalue, h⟩ := bind_eq_ok.1 h
      obtain ⟨⟨more, last⟩, hmore, h⟩ := bind_eq_ok.1 h
      obtain ⟨rfl, rfl⟩ := Prod.mk.inj (Except.ok.inj h)
      have hplaced := readSlice_placed (hfirst slice rfl) hvalue
      exact hnext (by simpa [ElementAttribute.phrases] using hplaced) hmore
    | named name value span =>
      simp only [elementAttributes] at h
      split_ifs at h
      · split at h
        · cases h
        · rename_i slice
          obtain ⟨header, hheader, h⟩ := bind_eq_ok.1 h
          have hplaced := ForHeader.ofChars_placed (hfirst slice rfl) (placed_eq_ok hheader)
          exact ih hstands (by simpa using hplaced) h
        · cases h
      · split at h
        · obtain ⟨attr, hattr, h⟩ := bind_eq_ok.1 h
          obtain ⟨⟨more, last⟩, hmore, h⟩ := bind_eq_ok.1 h
          obtain ⟨rfl, rfl⟩ := Prod.mk.inj (Except.ok.inj h)
          obtain rfl := Except.ok.inj hattr
          exact hnext .nil hmore
        · obtain ⟨attr, hattr, h⟩ := bind_eq_ok.1 h
          obtain ⟨⟨more, last⟩, hmore, h⟩ := bind_eq_ok.1 h
          obtain ⟨rfl, rfl⟩ := Prod.mk.inj (Except.ok.inj h)
          obtain rfl := Except.ok.inj hattr
          exact hnext .nil hmore
        · rename_i slice
          obtain ⟨value, hvalue, h⟩ := bind_eq_ok.1 h
          obtain ⟨attr, hattr, h⟩ := bind_eq_ok.1 h
          obtain ⟨⟨more, last⟩, hmore, h⟩ := bind_eq_ok.1 h
          obtain ⟨rfl, rfl⟩ := Prod.mk.inj (Except.ok.inj h)
          obtain rfl := Except.ok.inj hattr
          have hplaced := readSlice_placed (hfirst slice rfl) hvalue
          exact hnext (by simpa [ElementAttribute.phrases] using hplaced) hmore

theorem componentAttribute_placed {name : String} {value : AttributeValue} {span : Span}
    {attr : ComponentAttribute}
    (hstands : ∀ slice, value = .code slice → slice.StandsIn source)
    (h : componentAttribute name value span = .ok attr) : AllPlaced source attr.phrases := by
  cases value with
  | literal | none =>
    obtain rfl := Except.ok.inj h
    simpa [ComponentAttribute.phrases] using .leaf trivial rfl
  | code slice =>
    obtain ⟨value, hvalue, h⟩ := bind_eq_ok.1 h
    obtain rfl := Except.ok.inj h
    simpa [ComponentAttribute.phrases] using readSlice_placed (hstands slice rfl) hvalue

theorem componentAttributes_placed {place : TagPlace} {as : List TagAttribute}
    {binding binding' : Option (Pattern × Span)} {attributes : List ComponentAttribute}
    (hstands : ∀ a ∈ as, ∀ slice, a.code? = some slice → slice.StandsIn source)
    (hbinding : AllPlaced source ((binding.map Prod.fst).toList.map .pattern))
    (h : componentAttributes source place as binding = .ok (attributes, binding')) :
    AllPlaced source (attributes.flatMap ComponentAttribute.phrases) ∧
      AllPlaced source ((binding'.map Prod.fst).toList.map .pattern) := by
  induction as generalizing binding attributes binding' with
  | nil =>
    obtain ⟨rfl, rfl⟩ := Prod.mk.inj (Except.ok.inj h)
    exact ⟨by simp, hbinding⟩
  | cons a as ih =>
    rw [List.forall_mem_cons] at hstands
    obtain ⟨hfirst, hstands⟩ := hstands
    cases a with
    | spread slice span =>
      obtain ⟨value, hvalue, h⟩ := bind_eq_ok.1 h
      obtain ⟨⟨more, last⟩, hmore, h⟩ := bind_eq_ok.1 h
      obtain ⟨rfl, rfl⟩ := Prod.mk.inj (Except.ok.inj h)
      obtain ⟨hrest, hlast⟩ := ih hstands hbinding hmore
      have hplaced := readSlice_placed (hfirst slice rfl) hvalue
      exact ⟨by simpa [ComponentAttribute.phrases] using ⟨hplaced, hrest⟩, hlast⟩
    | named name value span =>
      simp only [componentAttributes] at h
      split_ifs at h
      · split at h
        · cases h
        · rename_i slice
          obtain ⟨pattern, hpattern, h⟩ := bind_eq_ok.1 h
          have hplaced := Pattern.ofChars_placed (hfirst slice rfl) (placed_eq_ok hpattern)
          exact ih hstands (by simpa using hplaced) h
        · cases h
      · obtain ⟨attr, hattr, h⟩ := bind_eq_ok.1 h
        obtain ⟨⟨more, last⟩, hmore, h⟩ := bind_eq_ok.1 h
        obtain ⟨rfl, rfl⟩ := Prod.mk.inj (Except.ok.inj h)
        obtain ⟨hrest, hlast⟩ := ih hstands hbinding hmore
        have hplaced : AllPlaced source attr.phrases := by
          refine componentAttribute_placed (fun slice hslice => hfirst slice ?_) hattr
          rw [hslice]
          rfl
        exact ⟨by simpa using ⟨hplaced, hrest⟩, hlast⟩

end NodeTree

/-- The phrases of what stands in an open node so far. -/
def OpenNode.phrases : OpenNode → List Phrase
  | .tag _ children attributes slots around =>
    around.toList.map .header ++ attributes.flatMap ElementAttribute.phrases ++
      Node.allPhrases children ++ Node.slotPhrases slots
  | .conditional before current _ => Node.branchPhrases (before ++ [current])
  | .loop header children _ => .header header :: Node.allPhrases children

/-- The attributes of an open tag are read again when it is closed. -/
def OpenNode.StandsIn (source : Source) : OpenNode → Prop
  | .tag t .. => t.StandsIn source
  | .conditional .. | .loop .. => True

/-- What was read so far is placed. -/
structure ParseState.Placed (source : Source) (state : ParseState) : Prop where
  tags : ∀ o ∈ state.stack, o.StandsIn source
  unfinished : AllPlaced source (state.stack.flatMap OpenNode.phrases)
  finished : AllPlaced source (Node.allPhrases state.nodes)

namespace ParseState.Placed

variable {source : Source} {state after : ParseState} {tag : OpenTag} {slice : CodeSlice}
  {n : Node} {o : OpenNode} {rest : List OpenNode}

theorem attach_phrases (n : Node) (o : OpenNode) :
    AllPlaced source (NodeTree.attach n o).phrases ↔
      AllPlaced source o.phrases ∧ AllPlaced source n.phrases := by
  cases o <;> simp [NodeTree.attach, OpenNode.phrases, Node.branchPhrases, and_assoc, and_comm,
    and_left_comm]

theorem push (h : state.Placed source) (hn : AllPlaced source n.phrases) :
    (NodeTree.push state n).Placed source := by
  obtain ⟨stack, nodes, calls⟩ := state
  cases stack with
  | nil => exact ⟨h.tags, h.unfinished, by simpa [NodeTree.push] using ⟨h.finished, hn⟩⟩
  | cons top rest =>
    obtain ⟨htags, hunfinished, hfinished⟩ := h
    rw [List.forall_mem_cons] at htags
    rw [List.flatMap_cons, AllPlaced.append_iff] at hunfinished
    refine ⟨?_, ?_, hfinished⟩
    · refine List.forall_mem_cons.2 ⟨?_, htags.2⟩
      cases top <;> exact htags.1
    · simp only [NodeTree.push, List.flatMap_cons, AllPlaced.append_iff, attach_phrases]
      exact ⟨⟨hunfinished.1, hn⟩, hunfinished.2⟩

theorem enter (h : state.Placed source) (ho : o.StandsIn source)
    (hphrases : AllPlaced source o.phrases) : (NodeTree.enter state o).Placed source where
  tags := List.forall_mem_cons.2 ⟨ho, h.tags⟩
  unfinished := by
    simpa [NodeTree.enter] using ⟨hphrases, h.unfinished⟩
  finished := h.finished

theorem leave {nodes : List Node} {calls : List ComponentCall}
    (h : ParseState.Placed source ⟨o :: rest, nodes, calls⟩) :
    ParseState.Placed source ⟨rest, nodes, calls⟩ ∧ o.StandsIn source ∧
      AllPlaced source o.phrases := by
  obtain ⟨htags, hunfinished, hfinished⟩ := h
  rw [List.forall_mem_cons] at htags
  rw [List.flatMap_cons, AllPlaced.append_iff] at hunfinished
  exact ⟨⟨htags.2, hunfinished.2, hfinished⟩, htags.1, hunfinished.1⟩

theorem inLoop_placed {loop : Option ForHeader} (hloop : AllPlaced source (loop.toList.map .header))
    (hn : AllPlaced source n.phrases) : AllPlaced source (NodeTree.inLoop loop n).phrases := by
  cases loop with
  | none => exact hn
  | some header => simpa [NodeTree.inLoop, Node.phrases] using ⟨by simpa using hloop, hn⟩

theorem closeComponent {slots : List SlotEntry} {body : Option (List Node)} {span : Span}
    (h : state.Placed source) (htag : tag.StandsIn source)
    (hslots : AllPlaced source (Node.slotPhrases slots))
    (hbody : AllPlaced source (Node.bodyPhrases body))
    (hclose : NodeTree.closeComponent source state tag slots body span = .ok after) :
    after.Placed source := by
  obtain ⟨⟨attributes, binding⟩, hattributes, hclose⟩ := bind_eq_ok.1 hclose
  obtain ⟨⟨⟩, -, hclose⟩ := bind_eq_ok.1 hclose
  obtain rfl := Except.ok.inj hclose
  obtain ⟨hattributes, hbinding⟩ := NodeTree.componentAttributes_placed htag .nil hattributes
  refine push ⟨h.tags, h.unfinished, h.finished⟩ ?_
  simp only [Node.phrases_component, AllPlaced.append_iff]
  exact ⟨⟨⟨hbinding, hattributes⟩, hbody⟩, hslots⟩

theorem slotEntry_placed {body : Option (List Node)} {span : Span} {s : SlotEntry}
    (htag : tag.StandsIn source) (hbody : AllPlaced source (Node.bodyPhrases body))
    (hentry : NodeTree.slotEntry source tag body span = .ok s) :
    AllPlaced source (Node.slotPhrases [s]) := by
  obtain ⟨⟨attributes, binding⟩, hattributes, hentry⟩ := bind_eq_ok.1 hentry
  obtain ⟨⟨⟩, -, hentry⟩ := bind_eq_ok.1 hentry
  obtain rfl := Except.ok.inj hentry
  obtain ⟨hattributes, hbinding⟩ := NodeTree.componentAttributes_placed htag .nil hattributes
  simp only [Node.slotPhrases, AllPlaced.append_iff]
  exact ⟨⟨⟨hbinding, hattributes⟩, hbody⟩, .nil⟩

theorem addSlot {s : SlotEntry} (h : state.Placed source)
    (hs : AllPlaced source (Node.slotPhrases [s])) :
    (NodeTree.addSlot state s).Placed source := by
  obtain ⟨stack, nodes, calls⟩ := state
  unfold NodeTree.addSlot
  split
  · rename_i t children attributes slots loop rest hstack
    obtain rfl : stack = _ := hstack
    obtain ⟨hrest, htag, hphrases⟩ := h.leave
    refine hrest.enter htag ?_
    simp only [OpenNode.phrases, Node.slotPhrases_append, AllPlaced.append_iff] at hphrases ⊢
    exact ⟨hphrases.1, hphrases.2, hs⟩
  · exact h

theorem openElement (h : state.Placed source) (htag : tag.StandsIn source)
    (hopen : NodeTree.openElement source state tag = .ok after) : after.Placed source := by
  obtain ⟨⟨attributes, loop⟩, hattributes, hopen⟩ := bind_eq_ok.1 hopen
  obtain ⟨hattributes, hloop⟩ := NodeTree.elementAttributes_placed htag .nil hattributes
  dsimp only at hopen
  split_ifs at hopen
  · obtain rfl := Except.ok.inj hopen
    exact h.push (inLoop_placed hloop (by simpa [Node.phrases, Node.allPhrases] using hattributes))
  · obtain rfl := Except.ok.inj hopen
    refine h.enter htag ?_
    simp only [OpenNode.phrases, Node.allPhrases, Node.slotPhrases, List.append_nil,
      AllPlaced.append_iff]
    exact ⟨hloop, hattributes⟩

/-- A tag that is opened with nothing in it yet. -/
theorem enterTag (h : state.Placed source) (htag : tag.StandsIn source) :
    (NodeTree.enter state (.tag tag [] [] [] none)).Placed source :=
  h.enter htag (by simp [OpenNode.phrases, Node.allPhrases, Node.slotPhrases])

theorem openTag (h : state.Placed source) (htag : tag.StandsIn source)
    (hopen : NodeTree.openTag source state tag = .ok after) : after.Placed source := by
  have hcomponent (hopen : (if tag.selfClosing then
        NodeTree.closeComponent source state tag [] none tag.span
        else .ok (NodeTree.enter state (.tag tag [] [] [] none))) = .ok after) :
      after.Placed source := by
    split_ifs at hopen
    · exact h.closeComponent htag .nil .nil hopen
    · obtain rfl := Except.ok.inj hopen
      exact h.enterTag htag
  unfold NodeTree.openTag at hopen
  split at hopen
  case h_1 =>
    unfold NodeTree.openSlot at hopen
    split_ifs at hopen
    · obtain ⟨s, hs, hopen⟩ := bind_eq_ok.1 hopen
      obtain rfl := Except.ok.inj hopen
      exact h.addSlot (slotEntry_placed htag .nil hs)
    · obtain rfl := Except.ok.inj hopen
      exact h.enterTag htag
  case h_2 | h_3 => exact hcomponent hopen
  case h_4 | h_5 => exact h.openElement htag hopen

theorem closeTag {name : String} {span : Span} (h : state.Placed source)
    (hclose : NodeTree.closeTag source state name span = .ok after) : after.Placed source := by
  obtain ⟨stack, nodes, calls⟩ := state
  unfold NodeTree.closeTag at hclose
  split at hclose
  · rename_i t children attributes slots loop rest hstack
    obtain rfl : stack = _ := hstack
    obtain ⟨hrest, htag, hphrases⟩ := h.leave
    simp only [OpenNode.phrases, AllPlaced.append_iff] at hphrases
    obtain ⟨⟨⟨hloop, hattributes⟩, hchildren⟩, hslots⟩ := hphrases
    have hbody : AllPlaced source (Node.bodyPhrases (some children)) := hchildren
    split_ifs at hclose
    dsimp only at hclose
    split at hclose
    case h_1 =>
      obtain ⟨s, hs, hclose⟩ := bind_eq_ok.1 hclose
      obtain rfl := Except.ok.inj hclose
      exact hrest.addSlot (slotEntry_placed htag hbody hs)
    case h_2 | h_3 => exact hrest.closeComponent htag hslots hbody hclose
    case h_4 | h_5 =>
      obtain rfl := Except.ok.inj hclose
      exact hrest.push (inLoop_placed hloop (by simpa [Node.phrases] using ⟨hattributes, hchildren⟩))
  · cases hclose

theorem endBlock {span : Span} (h : state.Placed source)
    (hend : NodeTree.endBlock state span = .ok after) : after.Placed source := by
  obtain ⟨stack, nodes, calls⟩ := state
  unfold NodeTree.endBlock at hend
  split at hend
  · rename_i hstack
    obtain rfl : stack = _ := hstack
    obtain rfl := Except.ok.inj hend
    obtain ⟨hrest, -, hphrases⟩ := h.leave
    exact hrest.push hphrases
  · rename_i hstack
    obtain rfl : stack = _ := hstack
    obtain rfl := Except.ok.inj hend
    obtain ⟨hrest, -, hphrases⟩ := h.leave
    exact hrest.push hphrases
  · cases hend
  · cases hend

theorem nextBranch {condition : Except SyntaxError (Option Expr)} {span : Span}
    (h : state.Placed source)
    (hcondition : ∀ c, condition = .ok c → AllPlaced source (c.toList.map .expr))
    (hnext : NodeTree.nextBranch state condition span = .ok after) : after.Placed source := by
  obtain ⟨stack, nodes, calls⟩ := state
  unfold NodeTree.nextBranch at hnext
  split at hnext
  · rename_i hstack
    obtain rfl : stack = _ := hstack
    split_ifs at hnext
    obtain ⟨c, hc, hnext⟩ := bind_eq_ok.1 hnext
    obtain rfl := Except.ok.inj hnext
    obtain ⟨hrest, -, hphrases⟩ := h.leave
    refine hrest.enter trivial ?_
    rw [OpenNode.phrases, Node.branchPhrases_append, AllPlaced.append_iff]
    refine ⟨hphrases, ?_⟩
    simpa [Node.branchPhrases, Node.allPhrases] using hcondition c hc
  all_goals cases hnext

theorem control {code : List Char} {base : Int} {span : Span} (h : state.Placed source)
    (hat : source.HasAt code base)
    (hcontrol : NodeTree.control state code base span = .ok after) : after.Placed source := by
  unfold NodeTree.control at hcontrol
  split_ifs at hcontrol
  · exact h.endBlock hcontrol
  · refine h.nextBranch ?_ hcontrol
    rintro _ ⟨⟩
    exact .nil
  · split at hcontrol
    · rename_i condition n helse
      refine h.nextBranch ?_ hcontrol
      intro c hc
      obtain ⟨e, he, rfl⟩ := map_eq_ok.1 hc
      simpa using NodeTree.readExpr_placed (hat.afterElseIf helse) he
    · cases hcontrol

theorem code {mark : CodeMark} {span : Span} (h : state.Placed source)
    (hslice : slice.StandsIn source)
    (hcode : NodeTree.code state mark slice span = .ok after) : after.Placed source := by
  have htrim := Source.HasAt.trim hslice
  simp only [NodeTree.code] at hcode
  split_ifs at hcode with hcontrol hif hfor
  · exact h.control htrim hcode
  · obtain ⟨condition, hcondition, hcode⟩ := bind_eq_ok.1 hcode
    obtain rfl := Except.ok.inj hcode
    refine h.enter trivial ?_
    have hplaced := NodeTree.readExpr_placed (htrim.afterWord hif.2) hcondition
    simpa [OpenNode.phrases, Node.branchPhrases, Node.allPhrases] using hplaced
  · obtain ⟨header, hheader, hcode⟩ := bind_eq_ok.1 hcode
    obtain rfl := Except.ok.inj hcode
    refine h.enter trivial ?_
    have hplaced := ForHeader.ofChars_placed (htrim.afterWord hfor.2)
      (NodeTree.placed_eq_ok hheader)
    simpa [OpenNode.phrases, Node.allPhrases] using hplaced
  · obtain ⟨value, hvalue, hcode⟩ := bind_eq_ok.1 hcode
    obtain rfl := Except.ok.inj hcode
    exact h.push (by simpa [Node.phrases] using NodeTree.readSlice_placed hslice hvalue)

/-- Reading one token keeps the phrases placed. -/
theorem step {t : Token} (h : state.Placed source) (ht : t.StandsIn source)
    (hstep : NodeTree.step source state t = .ok after) : after.Placed source := by
  cases t with
  | text content span =>
    obtain rfl := Except.ok.inj hstep
    exact h.push .nil
  | openTag tag => exact h.openTag ht hstep
  | closeTag name kind span => exact h.closeTag hstep
  | code mark slice span => exact h.code ht hstep

theorem steps {tokens : List Token} (h : state.Placed source)
    (ht : ∀ t ∈ tokens, t.StandsIn source)
    (hsteps : tokens.foldlM (NodeTree.step source) state = .ok after) : after.Placed source := by
  induction tokens generalizing state with
  | nil =>
    obtain rfl := Except.ok.inj hsteps
    exact h
  | cons t tokens ih =>
    rw [List.forall_mem_cons] at ht
    rw [List.foldlM_cons] at hsteps
    obtain ⟨between, hstep, hsteps⟩ := bind_eq_ok.1 hsteps
    exact ih (h.step ht.1 hstep) ht.2 hsteps

end ParseState.Placed

/-- In every template that is read, each name of an expression, loop header or pattern is what the
template holds at the name's span, and each phrase lies within the phrase it is part of. -/
theorem NodeTree.ofSource_placed {source : Source} {tree : NodeTree}
    (h : ofSource source = .ok tree) : ∀ p ∈ tree.phrases, p.Placed source := by
  obtain ⟨tokens, htokens, h⟩ := bind_eq_ok.1 h
  obtain ⟨state, hsteps, h⟩ := bind_eq_ok.1 h
  have hstart : ParseState.Placed source ⟨[], [], []⟩ := ⟨by simp, .nil, .nil⟩
  have hplaced := hstart.steps (Token.ofSource_standsIn htokens) hsteps
  unfold finish at h
  split at h
  · obtain rfl := Except.ok.inj h
    exact hplaced.finished
  all_goals cases h

theorem NodeTree.ofSource_nested_placed :
    let source : Source :=
      ⟨"😀<p :for=\x7b[k = 1] of xs\x7d /><%= if p %>\x7b(\x7bp, q: [x]\x7d)\x7d<% else  if p.q %>" ++
        "<%= `a$\x7b`b$\x7bx => x\x7d`\x7d` %><% end %>", "nested"⟩
    ∃ tree, NodeTree.ofSource source = .ok tree ∧ tree.phrases.length = 5 ∧
      ∀ p ∈ tree.phrases, p.Placed source := by
  intro source
  have hphrases : ((NodeTree.ofSource source).map fun tree => tree.phrases.length).toOption = some 5 := by
    decide +kernel
  obtain ⟨tree, htree, hlength⟩ := map_eq_ok.1 (toOption_eq_some.1 hphrases)
  exact ⟨tree, htree, hlength, NodeTree.ofSource_placed htree⟩

end LiveTemplate
