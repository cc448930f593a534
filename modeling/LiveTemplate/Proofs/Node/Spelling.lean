import LiveTemplate.Node.Parsing
import LiveTemplate.Proofs.Markup.Tiling
import LiveTemplate.Proofs.Result
import Mathlib.Tactic.SplitIfs

/-!
The grammar of parse trees: which tokens spell a node. A token stands for places, such as the start of
an element or the end of a block. Tags are closed under the name they were opened with, and what stands
between an opening and its closing token is whole. A parse that succeeds is a derivation in this
grammar, since what is read of every open tag and block is one at any time.
-/

namespace LiveTemplate

set_option autoImplicit false

/-- A place in a parse tree that a token accounts for. -/
inductive Place where
  | text (content : String) (span : Span)
  | code (span : Span)
  /-- The start of an element, component or slot entry. -/
  | tagStart (name : String) (offset : Int)
  | tagStop (offset : Int)
  /-- The marker that begins a branch of a conditional. -/
  | branch (span : Span)
  | loopStart (offset : Int)
  /-- The end of a conditional or loop. -/
  | blockStop (offset : Int)
deriving DecidableEq, Repr

/-- What a marker does to blocks. -/
inductive BlockRole where
  | conditional | otherwise | loop | stop
deriving DecidableEq, Repr

/-- What embedded code does to blocks; code that does nothing to them is a value. -/
def CodeSlice.blockRole? (slice : CodeSlice) (mark : CodeMark) : Option BlockRole :=
  let trimmed := Text.trim slice.text.toList
  match mark with
  | .body => none
  | .output =>
    if NodeTree.startsWord ['i', 'f'] trimmed then some .conditional
    else if NodeTree.startsWord ['f', 'o', 'r'] trimmed then some .loop
    else none
  | .control => if trimmed = ['e', 'n', 'd'] then some .stop else some .otherwise

/-- Elements and components have the name of their tag, slot entries have it without its colon. -/
def OpenTag.given (tag : OpenTag) : String :=
  if tag.kind = .slot then String.ofList (tag.name.toList.drop 1) else tag.name

/-- Whether a tag has no content. -/
def OpenTag.isLone (tag : OpenTag) : Bool := tag.selfClosing || tag.kind = .void

/-- The places that a token accounts for. -/
def Token.places : Token → List Place
  | text content span => [.text content span]
  | openTag tag =>
    .tagStart tag.given tag.span.start :: if tag.isLone then [.tagStop tag.span.stop] else []
  | closeTag _ _ span => [.tagStop span.stop]
  | code mark slice span =>
    match slice.blockRole? mark with
    | none => [.code span]
    | some .conditional | some .otherwise => [.branch span]
    | some .loop => [.loopStart span.start]
    | some .stop => [.blockStop span.stop]

mutual

/-- The places of a node. A loop that stands where its only node stands is written on the tag of that
node and has no markers. -/
def Node.places : Node → List Place
  | .text content span => [.text content span]
  | .code _ span => [.code span]
  | .element name _ _ children span =>
    .tagStart name span.start :: allPlaces children ++ [.tagStop span.stop]
  | .loop _ body span =>
    if body.map Node.span = [span] then allPlaces body
    else .loopStart span.start :: allPlaces body ++ [.blockStop span.stop]
  | .conditional branches span => branchPlaces branches ++ [.blockStop span.stop]
  | .component c => componentPlaces c

def Node.allPlaces : List Node → List Place
  | [] => []
  | node :: rest => Node.places node ++ allPlaces rest

def Node.branchPlaces : List Branch → List Place
  | [] => []
  | ⟨_, body, span⟩ :: rest => .branch span :: allPlaces body ++ branchPlaces rest

def Node.componentPlaces : ComponentNode → List Place
  | ⟨tag, _, _, _, slots, body, _, span⟩ =>
    .tagStart tag span.start :: bodyPlaces body ++ slotPlaces slots ++ [.tagStop span.stop]

def Node.slotPlaces : List SlotEntry → List Place
  | [] => []
  | ⟨name, _, _, body, span⟩ :: rest =>
    .tagStart name span.start :: bodyPlaces body ++ .tagStop span.stop :: slotPlaces rest

def Node.bodyPlaces : Option (List Node) → List Place
  | none => []
  | some nodes => allPlaces nodes

end

/-- A part of a parse tree: one node, a slot entry, what stands in a tag or block so far, or the
branches so far. -/
inductive NodePart where
  | node (n : Node)
  | entry (s : SlotEntry)
  | content (nodes : List Node) (slots : List SlotEntry)
  | branches (bs : List Branch)

open NodeTree

/-- The tokens spell the part of a parse tree. -/
inductive Spells (source : Source) : List Token → NodePart → Prop where
  | nothing : Spells source [] (.content [] [])
  | more {ts us : List Token} {nodes : List Node} {slots : List SlotEntry} {n : Node}
      (before : Spells source ts (.content nodes slots)) (here : Spells source us (.node n)) :
      Spells source (ts ++ us) (.content (nodes ++ [n]) slots)
  | moreSlots {ts us : List Token} {nodes : List Node} {slots : List SlotEntry} {s : SlotEntry}
      (before : Spells source ts (.content nodes slots)) (here : Spells source us (.entry s)) :
      Spells source (ts ++ us) (.content nodes (slots ++ [s]))
  | text (content : String) (span : Span) :
      Spells source [.text content span] (.node (.text content span))
  | code {mark : CodeMark} {slice : CodeSlice} {span : Span} {value : Expr}
      (hrole : slice.blockRole? mark = none) (hvalue : readSlice slice = .ok value) :
      Spells source [.code mark slice span] (.node (.code value span))
  | loneElement {tag : OpenTag} {attributes : List ElementAttribute} {loop : Option ForHeader}
      (hkind : tag.kind = .element ∨ tag.kind = .void) (hlone : tag.isLone = true)
      (hattributes : elementAttributes source tag.attributes none = .ok (attributes, loop)) :
      Spells source [.openTag tag] (.node (inLoop loop
        (.element tag.name (tag.kind = .void) attributes [] tag.span)))
  | element {tag : OpenTag} {attributes : List ElementAttribute} {loop : Option ForHeader}
      {ts : List Token} {children : List Node} {kind : TagKind} {span : Span}
      (hkind : tag.kind = .element) (hopen : tag.isLone = false)
      (hattributes : elementAttributes source tag.attributes none = .ok (attributes, loop))
      (inner : Spells source ts (.content children [])) :
      Spells source (.openTag tag :: ts ++ [.closeTag tag.name kind span]) (.node (inLoop loop
        (.element tag.name false attributes children (tag.span.join span))))
  | loneComponent {tag : OpenTag} {c : ComponentNode} (hkind : tag.kind.isComponent = true)
      (hlone : tag.isLone = true) (htag : c.tag = tag.name) (hslots : c.slots = [])
      (hbody : c.body = none) (hspan : c.span = tag.span) :
      Spells source [.openTag tag] (.node (.component c))
  | component {tag : OpenTag} {c : ComponentNode} {ts : List Token} {children : List Node}
      {kind : TagKind} {span : Span} (hkind : tag.kind.isComponent = true)
      (hopen : tag.isLone = false) (inner : Spells source ts (.content children c.slots))
      (htag : c.tag = tag.name) (hbody : c.body = some children)
      (hspan : c.span = tag.span.join span) :
      Spells source (.openTag tag :: ts ++ [.closeTag tag.name kind span]) (.node (.component c))
  | loneSlot {tag : OpenTag} {s : SlotEntry} (hkind : tag.kind = .slot) (hlone : tag.isLone = true)
      (hname : s.name = tag.given) (hbody : s.body = none) (hspan : s.span = tag.span) :
      Spells source [.openTag tag] (.entry s)
  | slot {tag : OpenTag} {s : SlotEntry} {ts : List Token} {children : List Node} {kind : TagKind}
      {span : Span} (hkind : tag.kind = .slot) (hopen : tag.isLone = false)
      (inner : Spells source ts (.content children [])) (hname : s.name = tag.given)
      (hbody : s.body = some children) (hspan : s.span = tag.span.join span) :
      Spells source (.openTag tag :: ts ++ [.closeTag tag.name kind span]) (.entry s)
  | loop {mark mark' : CodeMark} {slice slice' : CodeSlice} {span span' : Span} {ts : List Token}
      {header : ForHeader} {children : List Node} (hopen : slice.blockRole? mark = some .loop)
      (inner : Spells source ts (.content children []))
      (hstop : slice'.blockRole? mark' = some .stop) :
      Spells source (.code mark slice span :: ts ++ [.code mark' slice' span'])
        (.node (.loop header children (span.join span')))
  | noBranch : Spells source [] (.branches [])
  | branch {mark : CodeMark} {slice : CodeSlice} {ts us : List Token} {bs : List Branch} {b : Branch}
      (before : Spells source ts (.branches bs))
      (hbegins : slice.blockRole? mark = some (if bs = [] then .conditional else .otherwise))
      (inner : Spells source us (.content b.body [])) :
      Spells source (ts ++ .code mark slice b.span :: us) (.branches (bs ++ [b]))
  | conditional {mark : CodeMark} {slice : CodeSlice} {span : Span} {ts : List Token} {b : Branch}
      {bs : List Branch} (inner : Spells source ts (.branches (b :: bs)))
      (hstop : slice.blockRole? mark = some .stop) :
      Spells source (ts ++ [.code mark slice span])
        (.node (.conditional (b :: bs) (b.span.join span)))

/-- The tokens read so far, with what is open and the nodes outside of it: what was read since an
opening token spells what is open so far. -/
inductive Parsed (source : Source) : List Token → List OpenNode → List Node → Prop where
  | root {ts : List Token} {nodes : List Node} (inner : Spells source ts (.content nodes [])) :
      Parsed source ts [] nodes
  | element {ts us : List Token} {tag : OpenTag} {children nodes : List Node}
      {attributes : List ElementAttribute} {loop : Option ForHeader} {stack : List OpenNode}
      (outer : Parsed source ts stack nodes) (hkind : tag.kind = .element)
      (hopen : tag.isLone = false)
      (hattributes : elementAttributes source tag.attributes none = .ok (attributes, loop))
      (inner : Spells source us (.content children [])) :
      Parsed source (ts ++ .openTag tag :: us) (.tag tag children attributes [] loop :: stack) nodes
  | component {ts us : List Token} {tag : OpenTag} {children nodes : List Node}
      {slots : List SlotEntry} {attributes : List ElementAttribute} {loop : Option ForHeader}
      {stack : List OpenNode} (outer : Parsed source ts stack nodes)
      (hkind : tag.kind.isComponent = true) (hopen : tag.isLone = false)
      (inner : Spells source us (.content children slots)) :
      Parsed source (ts ++ .openTag tag :: us) (.tag tag children attributes slots loop :: stack)
        nodes
  | slot {ts us : List Token} {tag outerTag : OpenTag} {children outerChildren nodes : List Node}
      {slots : List SlotEntry} {attributes outerAttributes : List ElementAttribute}
      {loop outerLoop : Option ForHeader} {stack : List OpenNode}
      (outer : Parsed source ts
        (.tag outerTag outerChildren outerAttributes slots outerLoop :: stack) nodes)
      (houter : outerTag.kind.isComponent = true) (hkind : tag.kind = .slot)
      (hopen : tag.isLone = false) (inner : Spells source us (.content children [])) :
      Parsed source (ts ++ .openTag tag :: us) (.tag tag children attributes [] loop ::
        .tag outerTag outerChildren outerAttributes slots outerLoop :: stack) nodes
  | loop {ts us : List Token} {mark : CodeMark} {slice : CodeSlice} {span : Span}
      {header : ForHeader} {children nodes : List Node} {stack : List OpenNode}
      (outer : Parsed source ts stack nodes) (hopen : slice.blockRole? mark = some .loop)
      (inner : Spells source us (.content children [])) :
      Parsed source (ts ++ .code mark slice span :: us) (.loop header children span.start :: stack)
        nodes
  | conditional {ts us vs : List Token} {mark : CodeMark} {slice : CodeSlice} {bs : List Branch}
      {b : Branch} {start : Int} {nodes : List Node} {stack : List OpenNode}
      (outer : Parsed source ts stack nodes) (before : Spells source us (.branches bs))
      (hbegins : slice.blockRole? mark = some (if bs = [] then .conditional else .otherwise))
      (hstart : start = (bs.headD b).span.start)
      (inner : Spells source vs (.content b.body [])) :
      Parsed source (ts ++ (us ++ .code mark slice b.span :: vs)) (.conditional bs b start :: stack)
        nodes

namespace Parsed

variable {source : Source} {ts us : List Token} {state after : ParseState} {n : Node} {s : SlotEntry}

/-- A whole node takes its place in what is open. -/
theorem push (state : ParseState) (h : Parsed source ts state.stack state.nodes)
    (here : Spells source us (.node n)) :
    Parsed source (ts ++ us) (push state n).stack (push state n).nodes := by
  obtain ⟨stack, nodes, calls⟩ := state
  cases h with
  | root inner => exact .root (.more inner here)
  | element outer hkind hopen hattributes inner =>
    rw [List.append_assoc]
    exact .element outer hkind hopen hattributes (.more inner here)
  | component outer hkind hopen inner =>
    rw [List.append_assoc]
    exact .component outer hkind hopen (.more inner here)
  | slot outer houter hkind hopen inner =>
    rw [List.append_assoc]
    exact .slot outer houter hkind hopen (.more inner here)
  | loop outer hopen inner =>
    rw [List.append_assoc]
    exact .loop outer hopen (.more inner here)
  | @conditional _ _ _ _ _ bs b _ _ _ outer before hbegins hstart inner =>
    -- only the current branch grows; its marker, and so where the block starts, stays
    rw [List.append_assoc, List.append_assoc]
    refine .conditional (b := { b with body := b.body ++ [n] }) outer before hbegins ?_
      (.more inner here)
    cases bs <;> exact hstart

/-- A slot entry takes its place in the component that is open. -/
theorem addSlot (state : ParseState) (h : Parsed source ts state.stack state.nodes)
    (hinside : insideComponent state = true) (here : Spells source us (.entry s)) :
    Parsed source (ts ++ us) (addSlot state s).stack (addSlot state s).nodes := by
  obtain ⟨stack, nodes, calls⟩ := state
  cases h with
  | root | loop | conditional => cases hinside
  | element _ hkind | slot _ _ hkind => simp [insideComponent, hkind, TagKind.isComponent] at hinside
  | component outer hkind hopen inner =>
    rw [List.append_assoc]
    exact .component outer hkind hopen (.moreSlots inner here)

theorem closeComponent_ok {tag : OpenTag} {slots : List SlotEntry} {body : Option (List Node)}
    {span : Span} (h : closeComponent source state tag slots body span = .ok after) :
    ∃ c calls, c.tag = tag.name ∧ c.slots = slots ∧ c.body = body ∧ c.span = span ∧
      after = NodeTree.push { state with calls } (.component c) := by
  obtain ⟨⟨attributes, binding⟩, -, h⟩ := bind_eq_ok.1 h
  obtain ⟨⟨⟩, -, h⟩ := bind_eq_ok.1 h
  obtain rfl := Except.ok.inj h
  exact ⟨_, _, rfl, rfl, rfl, rfl, rfl⟩

theorem slotEntry_ok {tag : OpenTag} {body : Option (List Node)} {span : Span}
    (hkind : tag.kind = .slot) (h : slotEntry source tag body span = .ok s) :
    s.name = tag.given ∧ s.body = body ∧ s.span = span := by
  obtain ⟨⟨attributes, binding⟩, -, h⟩ := bind_eq_ok.1 h
  obtain ⟨⟨⟩, -, h⟩ := bind_eq_ok.1 h
  obtain rfl := Except.ok.inj h
  exact ⟨by rw [OpenTag.given, if_pos hkind], rfl, rfl⟩

theorem openSlot {tag : OpenTag} (h : Parsed source ts state.stack state.nodes)
    (hkind : tag.kind = .slot) (hopen : NodeTree.openSlot source state tag = .ok after) :
    Parsed source (ts ++ [.openTag tag]) after.stack after.nodes := by
  unfold NodeTree.openSlot at hopen
  split_ifs at hopen with _ hinside hlone
  · obtain ⟨s, hs, hopen⟩ := bind_eq_ok.1 hopen
    obtain rfl := Except.ok.inj hopen
    obtain ⟨hname, hbody, hspan⟩ := slotEntry_ok hkind hs
    exact h.addSlot state (by simpa using hinside)
      (.loneSlot hkind (by simp [OpenTag.isLone, hlone]) hname hbody hspan)
  · obtain rfl := Except.ok.inj hopen
    obtain ⟨stack, nodes, calls⟩ := state
    have hlone : tag.isLone = false := by simp [OpenTag.isLone, hlone, hkind]
    -- what is open is a component, to which the entry will be added when it is closed
    cases h with
    | root | loop | conditional => simp [insideComponent] at hinside
    | element _ houter | slot _ _ houter =>
      simp [insideComponent, houter, TagKind.isComponent] at hinside
    | component outer houter houterOpen inner =>
      exact .slot (.component outer houter houterOpen inner) houter hkind hlone .nothing

theorem openElement {tag : OpenTag} (h : Parsed source ts state.stack state.nodes)
    (hkind : tag.kind = .element ∨ tag.kind = .void)
    (hopen : NodeTree.openElement source state tag = .ok after) :
    Parsed source (ts ++ [.openTag tag]) after.stack after.nodes := by
  obtain ⟨⟨attributes, loop⟩, hattributes, hopen⟩ := bind_eq_ok.1 hopen
  dsimp only at hopen
  split_ifs at hopen with hlone
  · obtain rfl := Except.ok.inj hopen
    exact h.push state (.loneElement hkind (by simpa [OpenTag.isLone] using hlone) hattributes)
  · obtain rfl := Except.ok.inj hopen
    rw [not_or] at hlone
    have hopen : tag.isLone = false := by simpa [OpenTag.isLone] using hlone
    exact .element h (hkind.resolve_right hlone.2) hopen hattributes .nothing

theorem openTag {tag : OpenTag} (h : Parsed source ts state.stack state.nodes)
    (hopen : NodeTree.openTag source state tag = .ok after) :
    Parsed source (ts ++ [.openTag tag]) after.stack after.nodes := by
  -- both kinds of component are opened alike
  have hcomponent (hkind : tag.kind.isComponent = true)
      (hopen : (if tag.selfClosing then closeComponent source state tag [] none tag.span
        else .ok (enter state (.tag tag [] [] [] none))) = .ok after) :
      Parsed source (ts ++ [.openTag tag]) after.stack after.nodes := by
    have hvoid : tag.kind ≠ .void := by
      intro hvoid
      simp [hvoid, TagKind.isComponent] at hkind
    split_ifs at hopen with hlone
    · obtain ⟨c, calls, htag, hslots, hbody, hspan, rfl⟩ := closeComponent_ok hopen
      exact push { state with calls } h
        (.loneComponent hkind (by simp [OpenTag.isLone, hlone]) htag hslots hbody hspan)
    · obtain rfl := Except.ok.inj hopen
      exact .component h hkind (by simp [OpenTag.isLone, hlone, hvoid]) .nothing
  unfold NodeTree.openTag at hopen
  split at hopen
  case h_1 hkind => exact h.openSlot hkind hopen
  case h_2 hkind => exact hcomponent (by simp [hkind, TagKind.isComponent]) hopen
  case h_3 hkind => exact hcomponent (by simp [hkind, TagKind.isComponent]) hopen
  case h_4 hkind => exact h.openElement (.inl hkind) hopen
  case h_5 hkind => exact h.openElement (.inr hkind) hopen

theorem closeTag {name : String} {kind : TagKind} {span : Span}
    (h : Parsed source ts state.stack state.nodes)
    (hclose : NodeTree.closeTag source state name span = .ok after) :
    Parsed source (ts ++ [.closeTag name kind span]) after.stack after.nodes := by
  obtain ⟨stack, nodes, calls⟩ := state
  cases h with
  | root | loop | conditional => simp [NodeTree.closeTag] at hclose
  | @element _ _ _ _ _ _ _ rest outer hkind hopen hattributes inner =>
    simp only [NodeTree.closeTag, hkind] at hclose
    split_ifs at hclose with hname
    obtain rfl := Except.ok.inj hclose
    subst hname
    rw [List.append_assoc]
    exact push ⟨rest, nodes, calls⟩ outer (.element hkind hopen hattributes inner)
  | @component _ _ tag children _ slots _ _ rest outer hkind hopen inner =>
    simp only [NodeTree.closeTag] at hclose
    split_ifs at hclose with hname
    subst hname
    have hclose : closeComponent source ⟨rest, nodes, calls⟩ tag slots (some children)
        (tag.span.join span) = .ok after := by
      cases htag : tag.kind <;> simp only [htag, TagKind.isComponent] at hkind hclose
      · cases hkind
      · cases hkind
      · exact hclose
      · exact hclose
      · cases hkind
    obtain ⟨c, calls, htag, hslots, hbody, hspan, rfl⟩ := closeComponent_ok hclose
    rw [List.append_assoc]
    exact push ⟨rest, nodes, calls⟩ outer
      (.component hkind hopen (hslots ▸ inner) htag hbody hspan)
  | slot outer houter hkind hopen inner =>
    simp only [NodeTree.closeTag, hkind] at hclose
    split_ifs at hclose with hname
    subst hname
    obtain ⟨s, hs, hclose⟩ := bind_eq_ok.1 hclose
    obtain rfl := Except.ok.inj hclose
    obtain ⟨hname, hbody, hspan⟩ := slotEntry_ok hkind hs
    rw [List.append_assoc]
    exact addSlot ⟨_ :: _, nodes, calls⟩ outer houter
      (.slot hkind hopen inner hname hbody hspan)

theorem endBlock {mark : CodeMark} {slice : CodeSlice} {span : Span}
    (h : Parsed source ts state.stack state.nodes) (hrole : slice.blockRole? mark = some .stop)
    (hend : NodeTree.endBlock state span = .ok after) :
    Parsed source (ts ++ [.code mark slice span]) after.stack after.nodes := by
  obtain ⟨stack, nodes, calls⟩ := state
  cases h with
  | root | element | component | slot => simp [NodeTree.endBlock] at hend
  | @loop _ _ _ _ _ _ _ _ rest outer hopen inner =>
    obtain rfl := Except.ok.inj hend
    rw [List.append_assoc]
    exact push ⟨rest, nodes, calls⟩ outer (.loop hopen inner hrole)
  | @conditional _ us vs mark' slice' bs b start _ rest outer before hbegins hstart inner =>
    obtain rfl := Except.ok.inj hend
    have hbranches := Spells.branch before hbegins inner
    have hwhole : Spells source ((us ++ .code mark' slice' b.span :: vs) ++ [.code mark slice span])
        (.node (.conditional (bs ++ [b]) ⟨start, span.stop⟩)) := by
      rw [hstart]
      cases bs with
      | nil => exact .conditional hbranches hrole
      | cons first more => exact .conditional hbranches hrole
    rw [List.append_assoc]
    exact push ⟨rest, nodes, calls⟩ outer hwhole

theorem nextBranch {mark : CodeMark} {slice : CodeSlice} {span : Span}
    {condition : Except SyntaxError (Option Expr)}
    (h : Parsed source ts state.stack state.nodes) (hrole : slice.blockRole? mark = some .otherwise)
    (hnext : NodeTree.nextBranch state condition span = .ok after) :
    Parsed source (ts ++ [.code mark slice span]) after.stack after.nodes := by
  obtain ⟨stack, nodes, calls⟩ := state
  cases h with
  | root | element | component | slot | loop => simp [NodeTree.nextBranch] at hnext
  | @conditional ts us vs _ _ bs b _ _ rest outer before hbegins hstart inner =>
    simp only [NodeTree.nextBranch] at hnext
    split_ifs at hnext
    obtain ⟨c, -, hnext⟩ := bind_eq_ok.1 hnext
    obtain rfl := Except.ok.inj hnext
    rw [List.append_assoc]
    refine .conditional (b := ⟨c, [], span⟩) outer (.branch before hbegins inner) ?_ ?_ .nothing
    · simpa using hrole
    · cases bs <;> exact hstart

theorem code {mark : CodeMark} {slice : CodeSlice} {span : Span}
    (h : Parsed source ts state.stack state.nodes)
    (hcode : NodeTree.code state mark slice span = .ok after) :
    Parsed source (ts ++ [.code mark slice span]) after.stack after.nodes := by
  simp only [NodeTree.code] at hcode
  split_ifs at hcode with hcontrol hif hfor
  · have hrole : slice.blockRole? mark =
        if Text.trim slice.text.toList = ['e', 'n', 'd'] then some .stop else some .otherwise := by
      rw [hcontrol]
      rfl
    unfold NodeTree.control at hcode
    split_ifs at hcode hrole with hend helse
    · exact h.endBlock hrole hcode
    · exact h.nextBranch hrole hcode
    · split at hcode
      · exact h.nextBranch hrole hcode
      · cases hcode
  · obtain ⟨condition, -, hcode⟩ := bind_eq_ok.1 hcode
    obtain rfl := Except.ok.inj hcode
    have hrole : slice.blockRole? mark = some .conditional := by simp [CodeSlice.blockRole?, hif]
    exact .conditional (b := ⟨some condition, [], span⟩) h .noBranch hrole rfl .nothing
  · obtain ⟨header, -, hcode⟩ := bind_eq_ok.1 hcode
    obtain rfl := Except.ok.inj hcode
    have hrole : slice.blockRole? mark = some .loop := by
      obtain ⟨rfl, hfor⟩ := hfor
      simp only [true_and] at hif
      simp [CodeSlice.blockRole?, hif, hfor]
    exact .loop h hrole .nothing
  · obtain ⟨value, hvalue, hcode⟩ := bind_eq_ok.1 hcode
    obtain rfl := Except.ok.inj hcode
    have hrole : slice.blockRole? mark = none := by
      cases mark with
      | body => rfl
      | control => exact absurd rfl hcontrol
      | output =>
        simp only [true_and] at hif hfor
        simp [CodeSlice.blockRole?, hif, hfor]
    exact h.push state (.code hrole hvalue)

/-- Reading one token keeps what was read and takes the token in. -/
theorem step {t : Token} (h : Parsed source ts state.stack state.nodes)
    (hstep : NodeTree.step source state t = .ok after) :
    Parsed source (ts ++ [t]) after.stack after.nodes := by
  cases t with
  | text content span =>
    obtain rfl := Except.ok.inj hstep
    exact h.push state (.text content span)
  | openTag tag => exact h.openTag hstep
  | closeTag name kind span => exact h.closeTag hstep
  | code mark slice span => exact h.code hstep

theorem steps {more : List Token} (h : Parsed source ts state.stack state.nodes)
    (hsteps : more.foldlM (NodeTree.step source) state = .ok after) :
    Parsed source (ts ++ more) after.stack after.nodes := by
  induction more generalizing ts state with
  | nil =>
    obtain rfl := Except.ok.inj hsteps
    simpa using h
  | cons t more ih =>
    rw [List.foldlM_cons] at hsteps
    obtain ⟨between, hstep, hsteps⟩ := bind_eq_ok.1 hsteps
    simpa using ih (h.step hstep) hsteps

end Parsed

/-- A parse that succeeds derives its tree from all of its tokens. -/
theorem NodeTree.ofTokens_spells {source : Source} {tokens : List Token} {tree : NodeTree}
    (h : ofTokens tokens source = .ok tree) : Spells source tokens (.content tree.children []) := by
  obtain ⟨state, hsteps, h⟩ := bind_eq_ok.1 h
  have hparsed := Parsed.steps (.root .nothing) hsteps
  unfold finish at h
  split at h
  · rename_i hstack
    obtain rfl := Except.ok.inj h
    rw [hstack] at hparsed
    cases hparsed with
    | root inner => exact inner
  all_goals cases h

end LiveTemplate
