import LiveTemplate.Proofs.Expr.Faults
import LiveTemplate.Proofs.Markup.Faults
import LiveTemplate.Proofs.Node.Phrases
import LiveTemplate.Proofs.Text.Lines
import LiveTemplate.Template

/-!
Errors of the parser point into the source. What the parser refuses is a token, an attribute, a tag
that is still open, a block from where it began, or a fault in code that stands in the source; so an
error that keeps a template from being compiled points into it, or is the one that the lexer places
behind a slash at its end.
-/

namespace LiveTemplate

set_option autoImplicit false

variable {source : Source}

theorem Source.HasAt.between {cs : List Char} {offset : Int} (h : source.HasAt cs offset) :
    0 ≤ offset ∧ offset + Text.width cs ≤ source.width := by
  obtain ⟨before, after, htext, rfl⟩ := h
  rw [Source.width, htext, Text.width_append, Text.width_append]
  omega

/-- What is refused points into a source. -/
abbrev Points {α : Type} (source : Source) (x : Except SyntaxError α) : Prop :=
  Ends (fun e => e.span.Between 0 source.width) (fun _ => True) x

/-- A tag and its attributes stand in a source. -/
structure OpenTag.FitsIn (source : Source) (tag : OpenTag) : Prop where
  span : tag.span.Between 0 source.width
  attributes : ∀ a ∈ tag.attributes, a.span.Between 0 source.width
  code : tag.StandsIn source

/-- A token stands in a source, with its attributes and its code. -/
def Token.FitsIn (source : Source) : Token → Prop
  | .openTag tag => tag.FitsIn source
  | .code _ slice span => span.Between 0 source.width ∧ slice.StandsIn source
  | .text _ span | .closeTag _ _ span => span.Between 0 source.width

theorem Token.ofSource_fitsIn {tokens : List Token} (h : Token.ofSource source = .ok tokens) :
    ∀ t ∈ tokens, t.FitsIn source := by
  have htiled := Source.TiledBy.of_tiling (Token.ofSource_tiling h)
  have hstands := Token.ofSource_standsIn h
  intro t ht
  have hspan : t.span.Between 0 source.width := by
    obtain ⟨hlt, hlo, hhi⟩ := htiled.inside t ht
    exact ⟨hlo, Int.le_of_lt hlt, hhi⟩
  cases t with
  | text | closeTag => exact hspan
  | code mark slice span => exact ⟨hspan, hstands _ ht⟩
  | openTag tag =>
    refine ⟨hspan, fun a ha => ?_, hstands _ ht⟩
    obtain ⟨hlt, hlo, hhi⟩ := (htiled.attributes tag ht).2 a ha
    exact ⟨Int.le_trans hspan.1 hlo, Int.le_of_lt hlt, Int.le_trans hhi hspan.2.2⟩

namespace NodeTree

theorem placed_points {α : Type} {place : CodePlace} {x : Except ExprError α} {cs : List Char}
    {base : Int} (hat : source.HasAt cs base)
    (hx : Ends (fun e => e.span.Between base (base + Text.width cs)) (fun _ => True) x) :
    Points source (placed place x) := by
  have hbetween := hat.between
  cases x with
  | error e => exact Span.Between.mono hx hbetween.1 hbetween.2
  | ok a => trivial

theorem readExpr_points {code : List Char} {base : Int} (hat : source.HasAt code base) :
    Points source (readExpr code base) :=
  placed_points hat (Expr.ofChars_ends code base)

theorem readSlice_points {slice : CodeSlice} (hslice : slice.StandsIn source) :
    Points source (readSlice slice) :=
  readExpr_points hslice

theorem elementAttributes_points {as : List TagAttribute} (loop : Option (ForHeader × Span))
    (hspans : ∀ a ∈ as, a.span.Between 0 source.width)
    (hstands : ∀ a ∈ as, ∀ slice, a.code? = some slice → slice.StandsIn source) :
    Points source (elementAttributes source as loop) := by
  induction as generalizing loop with
  | nil => trivial
  | cons a as ih =>
    rw [List.forall_mem_cons] at hspans hstands
    -- the attributes after one that is read
    have hmore {α : Type} (loop : Option (ForHeader × Span))
        (f : List ElementAttribute × Option ForHeader → α) :
        Points source (elementAttributes source as loop >>= fun read => .ok (f read)) :=
      (ih loop hspans.2 hstands.2).bind fun _ _ _ => trivial
    cases a with
    | spread slice span =>
      apply (readSlice_points (hstands.1 slice rfl)).bind
      rintro value - -
      exact hmore loop _
    | named name value span =>
      simp only [elementAttributes]
      split_ifs
      · split
        · exact hspans.1
        · rename_i slice
          apply (placed_points (hstands.1 slice rfl) (ForHeader.ofChars_ends ..)).bind
          rintro header - -
          exact ih _ hspans.2 hstands.2
        · exact hspans.1
      · exact hspans.1
      · split
        · exact hmore loop _
        · exact hmore loop _
        · rename_i slice
          apply (readSlice_points (hstands.1 slice rfl)).bind
          rintro value - -
          exact hmore loop _

theorem componentAttribute_points {name : String} {value : AttributeValue} {span : Span}
    (hstands : ∀ slice, value = .code slice → slice.StandsIn source) :
    Points source (componentAttribute name value span) := by
  cases value with
  | literal | none => trivial
  | code slice =>
    apply (readSlice_points (hstands slice rfl)).bind
    rintro value - -
    trivial

/-- What is read of the attributes of a component is a pattern at an attribute of it. -/
theorem componentAttributes_ends {place : TagPlace} {as : List TagAttribute}
    {binding : Option (Pattern × Span)}
    (hspans : ∀ a ∈ as, a.span.Between 0 source.width)
    (hstands : ∀ a ∈ as, ∀ slice, a.code? = some slice → slice.StandsIn source)
    (hbinding : ∀ b ∈ binding, b.2.Between 0 source.width) :
    Ends (fun e => e.span.Between 0 source.width)
      (fun read => ∀ b ∈ read.2, b.2.Between 0 source.width)
      (componentAttributes source place as binding) := by
  induction as generalizing binding with
  | nil => exact hbinding
  | cons a as ih =>
    rw [List.forall_mem_cons] at hspans hstands
    cases a with
    | spread slice span =>
      apply (readSlice_points (hstands.1 slice rfl)).bind
      rintro value - -
      apply (ih hspans.2 hstands.2 hbinding).bind
      rintro ⟨more, binding⟩ - hbinding
      exact hbinding
    | named name value span =>
      simp only [componentAttributes]
      split_ifs
      · split
        · exact hspans.1
        · rename_i slice
          apply (placed_points (hstands.1 slice rfl) (Pattern.ofChars_ends ..)).bind
          rintro pattern - -
          refine ih hspans.2 hstands.2 fun b hb => ?_
          obtain rfl := Option.some.inj hb
          exact hspans.1
        · exact hspans.1
      · exact hspans.1
      · refine (componentAttribute_points fun slice hslice => hstands.1 slice ?_).bind ?_
        · rw [hslice]
          rfl
        · rintro attr - -
          apply (ih hspans.2 hstands.2 hbinding).bind
          rintro ⟨more, binding⟩ - hbinding
          exact hbinding

theorem requireContent_points {place : TagPlace} {binding : Option (Pattern × Span)}
    {body : Option (List Node)} (hbinding : ∀ b ∈ binding, b.2.Between 0 source.width) :
    Points source (requireContent place binding body) := by
  unfold requireContent
  split
  · exact hbinding _ rfl
  · trivial

theorem tagAttributes_ends (place : TagPlace) {tag : OpenTag} (htag : tag.FitsIn source) :
    Ends (fun e => e.span.Between 0 source.width)
      (fun read => ∀ b ∈ read.2, b.2.Between 0 source.width)
      (componentAttributes source place tag.attributes none) :=
  componentAttributes_ends htag.attributes htag.code (by simp)

end NodeTree

/-- An open tag stands in the source, an open block began in it. -/
def OpenNode.FitsIn (source : Source) : OpenNode → Prop
  | .tag t .. => t.FitsIn source
  | .conditional _ _ start | .loop _ _ start => 0 ≤ start ∧ start ≤ source.width

/-- Everything that is open stands in the source. -/
def ParseState.FitsIn (source : Source) (state : ParseState) : Prop :=
  ∀ o ∈ state.stack, o.FitsIn source

/-- A step of the parser points into the source when it is refused, and keeps what is open in it. -/
abbrev Steps (source : Source) (x : Except SyntaxError ParseState) : Prop :=
  Ends (fun e => e.span.Between 0 source.width) (fun after => after.FitsIn source) x

namespace ParseState.FitsIn

variable {state : ParseState} {tag : OpenTag} {o : OpenNode} {rest : List OpenNode}

theorem push (h : state.FitsIn source) (n : Node) : (NodeTree.push state n).FitsIn source := by
  obtain ⟨stack, nodes, calls⟩ := state
  cases stack with
  | nil => exact h
  | cons top rest =>
    obtain ⟨htop, hrest⟩ := List.forall_mem_cons.1 h
    refine List.forall_mem_cons.2 ⟨?_, hrest⟩
    cases top <;> exact htop

theorem enter (h : state.FitsIn source) (ho : o.FitsIn source) :
    (NodeTree.enter state o).FitsIn source :=
  List.forall_mem_cons.2 ⟨ho, h⟩

theorem addSlot (h : state.FitsIn source) (entry : SlotEntry) :
    (NodeTree.addSlot state entry).FitsIn source := by
  obtain ⟨stack, nodes, calls⟩ := state
  unfold NodeTree.addSlot
  split
  · rename_i hstack
    obtain rfl : stack = _ := hstack
    obtain ⟨htop, hrest⟩ := List.forall_mem_cons.1 h
    exact List.forall_mem_cons.2 ⟨htop, hrest⟩
  · exact h

/-- Calls are only recorded. -/
theorem called (h : state.FitsIn source) (calls : List ComponentCall) :
    ParseState.FitsIn source { state with calls := calls } := h

theorem closeComponent (h : state.FitsIn source) (htag : tag.FitsIn source)
    (slots : List SlotEntry) (body : Option (List Node)) (span : Span) :
    Steps source (NodeTree.closeComponent source state tag slots body span) := by
  apply (NodeTree.tagAttributes_ends _ htag).bind
  rintro ⟨attributes, binding⟩ - hbinding
  apply (NodeTree.requireContent_points hbinding).bind
  rintro ⟨⟩ - -
  exact (h.called _).push _

theorem slotEntry_points (htag : tag.FitsIn source) (body : Option (List Node)) (span : Span) :
    Points source (NodeTree.slotEntry source tag body span) := by
  apply (NodeTree.tagAttributes_ends _ htag).bind
  rintro ⟨attributes, binding⟩ - hbinding
  apply (NodeTree.requireContent_points hbinding).bind
  rintro ⟨⟩ - -
  trivial

theorem openSlot (h : state.FitsIn source) (htag : tag.FitsIn source) :
    Steps source (NodeTree.openSlot source state tag) := by
  unfold NodeTree.openSlot
  split_ifs
  · exact htag.span
  · exact htag.span
  · apply (slotEntry_points htag none tag.span).bind
    rintro entry - -
    exact h.addSlot entry
  · exact h.enter htag

theorem openElement (h : state.FitsIn source) (htag : tag.FitsIn source) :
    Steps source (NodeTree.openElement source state tag) := by
  apply (NodeTree.elementAttributes_points none htag.attributes htag.code).bind
  rintro ⟨attributes, loop⟩ - -
  dsimp only
  split_ifs
  · exact h.push _
  · exact h.enter htag

theorem openTag (h : state.FitsIn source) (htag : tag.FitsIn source) :
    Steps source (NodeTree.openTag source state tag) := by
  have hcomponent : Steps source (if tag.selfClosing then
      NodeTree.closeComponent source state tag [] none tag.span
      else .ok (NodeTree.enter state (.tag tag [] [] [] none))) := by
    split_ifs
    · exact h.closeComponent htag [] none tag.span
    · exact h.enter htag
  unfold NodeTree.openTag
  split
  case h_1 => exact h.openSlot htag
  case h_2 | h_3 => exact hcomponent
  case h_4 | h_5 => exact h.openElement htag

theorem closeTag (h : state.FitsIn source) (name : String) {span : Span}
    (hspan : span.Between 0 source.width) :
    Steps source (NodeTree.closeTag source state name span) := by
  obtain ⟨stack, nodes, calls⟩ := state
  unfold NodeTree.closeTag
  split
  · rename_i tag children attributes slots loop rest hstack
    obtain rfl : stack = _ := hstack
    obtain ⟨htag, hrest⟩ := List.forall_mem_cons.1 h
    have houter : ParseState.FitsIn source ⟨rest, nodes, calls⟩ := hrest
    split_ifs
    · dsimp only
      split
      case h_1 =>
        apply (slotEntry_points htag (some children) (tag.span.join span)).bind
        rintro entry - -
        exact houter.addSlot entry
      case h_2 | h_3 => exact houter.closeComponent htag slots (some children) _
      case h_4 | h_5 => exact houter.push _
    · exact hspan
  · exact hspan

theorem endBlock (h : state.FitsIn source) {span : Span} (hspan : span.Between 0 source.width) :
    Steps source (NodeTree.endBlock state span) := by
  obtain ⟨stack, nodes, calls⟩ := state
  unfold NodeTree.endBlock
  split
  · rename_i hstack
    obtain rfl : stack = _ := hstack
    have houter : ParseState.FitsIn source ⟨_, nodes, calls⟩ := (List.forall_mem_cons.1 h).2
    exact houter.push _
  · rename_i hstack
    obtain rfl : stack = _ := hstack
    have houter : ParseState.FitsIn source ⟨_, nodes, calls⟩ := (List.forall_mem_cons.1 h).2
    exact houter.push _
  · rename_i hstack
    obtain rfl : stack = _ := hstack
    exact (List.forall_mem_cons.1 h).1.span
  · exact hspan

theorem nextBranch (h : state.FitsIn source) {condition : Except SyntaxError (Option Expr)}
    {span : Span} (hspan : span.Between 0 source.width) (hcondition : Points source condition) :
    Steps source (NodeTree.nextBranch state condition span) := by
  obtain ⟨stack, nodes, calls⟩ := state
  unfold NodeTree.nextBranch
  split
  · rename_i hstack
    obtain rfl : stack = _ := hstack
    obtain ⟨htop, hrest⟩ := List.forall_mem_cons.1 h
    split_ifs
    · exact hspan
    · apply hcondition.bind
      rintro c - -
      exact List.forall_mem_cons.2 ⟨htop, hrest⟩
  · exact hspan
  · rename_i hstack
    obtain rfl : stack = _ := hstack
    exact (List.forall_mem_cons.1 h).1.span
  · exact hspan

theorem control (h : state.FitsIn source) {code : List Char} {base : Int} {span : Span}
    (hat : source.HasAt code base) (hspan : span.Between 0 source.width) :
    Steps source (NodeTree.control state code base span) := by
  unfold NodeTree.control
  split_ifs
  · exact h.endBlock hspan
  · exact h.nextBranch hspan trivial
  · split
    · rename_i condition n helse
      exact h.nextBranch hspan (NodeTree.readExpr_points (hat.afterElseIf helse)).map
    · exact hspan

theorem code (h : state.FitsIn source) (mark : CodeMark) {slice : CodeSlice} {span : Span}
    (hslice : slice.StandsIn source) (hspan : span.Between 0 source.width) :
    Steps source (NodeTree.code state mark slice span) := by
  have htrim := Source.HasAt.trim hslice
  have hstart : 0 ≤ span.start ∧ span.start ≤ source.width :=
    ⟨hspan.1, Int.le_trans hspan.2.1 hspan.2.2⟩
  simp only [NodeTree.code]
  split_ifs with hcontrol hif hfor
  · exact h.control htrim hspan
  · apply (NodeTree.readExpr_points (htrim.afterWord hif.2)).bind
    rintro condition - -
    exact h.enter hstart
  · apply (NodeTree.placed_points (htrim.afterWord hfor.2) (ForHeader.ofChars_ends ..)).bind
    rintro header - -
    exact h.enter hstart
  · apply (NodeTree.readSlice_points hslice).bind
    rintro value - -
    exact h.push _

/-- Reading one token points into the source when it fails, and keeps what is open in it. -/
theorem step (h : state.FitsIn source) {t : Token} (ht : t.FitsIn source) :
    Steps source (NodeTree.step source state t) := by
  cases t with
  | text content span => exact h.push _
  | openTag tag => exact h.openTag ht
  | closeTag name kind span => exact h.closeTag name ht
  | code mark slice span => exact h.code mark ht.2 ht.1

theorem steps (h : state.FitsIn source) {tokens : List Token}
    (ht : ∀ t ∈ tokens, t.FitsIn source) :
    Steps source (tokens.foldlM (NodeTree.step source) state) := by
  induction tokens generalizing state with
  | nil => exact h
  | cons t tokens ih =>
    rw [List.forall_mem_cons] at ht
    rw [List.foldlM_cons]
    apply (h.step ht.1).bind
    rintro between - hbetween
    exact ih hbetween ht.2

theorem finish (h : state.FitsIn source) : Points source (NodeTree.finish source state) := by
  obtain ⟨stack, nodes, calls⟩ := state
  unfold NodeTree.finish
  split
  · trivial
  all_goals
    rename_i hstack
    obtain rfl : stack = _ := hstack
    obtain ⟨htop, -⟩ := List.forall_mem_cons.1 h
  · exact htop.span
  · exact ⟨htop.1, htop.2, Int.le_refl _⟩
  · exact ⟨htop.1, htop.2, Int.le_refl _⟩

end ParseState.FitsIn

theorem NodeTree.ofSource_ends (source : Source) :
    Ends (fun e => e.FoundIn 0 source.width source.chars) (fun _ => True)
      (NodeTree.ofSource source) := by
  apply (Token.ofSource_ends source).bind
  rintro tokens htokens -
  have hstart : ParseState.FitsIn source ⟨[], [], []⟩ := fun _ ho => absurd ho List.not_mem_nil
  refine Ends.imp (P := fun e => e.span.Between 0 source.width) ?_ (fun _ he => .inl he)
    fun _ h => h
  apply (hstart.steps (Token.ofSource_fitsIn htokens)).bind
  rintro state - hstate
  exact hstate.finish

/-- When a template is not compiled, the error points into its source, and its position is that of
the span's start by the line ends before it. One span reaches over the end of the source: that of the
stray character behind a slash that ends it. -/
theorem Template.error_points {helpers : Assoc String Value} {unit : Option Nat} {trimmed : Bool}
    {e : SyntaxError} (h : Template.ofSource source helpers unit trimmed = .error e) :
    (e.span.Between 0 source.width ∨
      ['<', '/'] <:+ source.chars ∧ e = .behindSlash source.width) ∧
    ∃ p, (e.diagnostic source).position = some p ∧ source.Locates e.span.start.toNat p := by
  have hends := NodeTree.ofSource_ends source
  have htree : NodeTree.ofSource source = .error e := map_eq_error.1 h
  rw [htree] at hends
  refine ⟨hends, _, rfl, ?_⟩
  have hstart : 0 ≤ e.span.start ∧ e.span.start ≤ source.width := by
    rcases hends with hbetween | ⟨-, rfl⟩
    · exact ⟨hbetween.1, Int.le_trans hbetween.2.1 hbetween.2.2⟩
    · exact ⟨Int.natCast_nonneg _, Int.le_refl _⟩
  have hle : e.span.start.toNat ≤ source.width := by omega
  have hlocates := source.locates_positionAt hle
  rwa [Int.toNat_of_nonneg hstart.1] at hlocates

/-- A fault in a substitution, two lines down: a carriage return and a line feed end one line, the
line feed behind them another. -/
theorem Template.nested_error_points :
    let source : Source := ⟨"a\x0d\n\n\x7b`b$\x7bc d\x7d`\x7d", "nested"⟩
    let e : SyntaxError := ⟨.badCode .expression .afterExpression, ⟨11, 12⟩⟩
    Template.ofSource source [] none false = .error e ∧ e.span.Between 0 source.width ∧
      (e.diagnostic source).position = some ⟨3, 8⟩ ∧ source.Locates 11 ⟨3, 8⟩ := by
  intro source e
  have h : Template.ofSource source [] none false = .error e :=
    (map_eq_error (f := fun _ => ())).1 (by decide +kernel)
  have hposition : (e.diagnostic source).position = some ⟨3, 8⟩ := by decide +kernel
  obtain ⟨hspan, p, hp, hlocates⟩ := Template.error_points h
  obtain rfl : p = ⟨3, 8⟩ := Option.some.inj (hp.symm.trans hposition)
  refine ⟨h, hspan.resolve_right fun hslash => ?_, hposition, hlocates⟩
  exact absurd hslash.1 (by decide +kernel)

/-- The span behind a slash at the end reaches over the end of the source. -/
example : (Template.ofSource ⟨"</", "nofile"⟩ [] none false).map (fun _ => ()) =
    .error ⟨.strayCharacter .tagName "\x22\x22", ⟨2, 3⟩⟩ := by
  decide +kernel

end LiveTemplate
