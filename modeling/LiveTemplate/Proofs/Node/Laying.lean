import LiveTemplate.Proofs.Markup.Tokens
import LiveTemplate.Proofs.Node.Spelling

/-!
How the nodes of a parse tree lie in the source. A node reaches from the start of its opening token to
the end of its closing token, and what stands in it lies in its span, one after another.
-/

namespace LiveTemplate

set_option autoImplicit false

namespace Span

/-- Two rows of spans, each in the order of the source; no two spans of them overlap. -/
structure Rows (spans more : List Span) : Prop where
  ordered : spans.Pairwise Before
  orderedMore : more.Pairwise Before
  apart : ∀ s ∈ spans, ∀ t ∈ more, s.Before t ∨ t.Before s

/-- Two rows of spans within another. -/
structure Encloses (outer : Span) (spans more : List Span) : Prop extends Rows spans more where
  inside : ∀ s ∈ spans ++ more, s.Inside outer

namespace Rows

variable {spans more : List Span} {t : Span}

theorem single (h : spans.Pairwise Before) : Rows spans [] := ⟨h, .nil, by simp⟩

theorem snoc (h : Rows spans more) (ht : ∀ s ∈ spans ++ more, s.Before t) :
    Rows (spans ++ [t]) more where
  ordered := List.pairwise_append.2 ⟨h.ordered, List.pairwise_singleton _ _, fun s hs u hu => by
    rw [List.mem_singleton.1 hu]
    exact ht s (List.mem_append_left _ hs)⟩
  orderedMore := h.orderedMore
  apart := by
    intro s hs u hu
    rcases List.mem_append.1 hs with hs | hs
    · exact h.apart s hs u hu
    · rw [List.mem_singleton.1 hs]
      exact .inr (ht u (List.mem_append_right _ hu))

theorem symm (h : Rows spans more) : Rows more spans :=
  ⟨h.orderedMore, h.ordered, fun s hs t ht => (h.apart t ht s hs).symm⟩

theorem snocMore (h : Rows spans more) (ht : ∀ s ∈ spans ++ more, s.Before t) :
    Rows spans (more ++ [t]) :=
  (h.symm.snoc fun s hs => ht s (by simpa [or_comm] using hs)).symm

end Rows

end Span

/-- The marker of a branch and the nodes in it. -/
def Branch.spans (b : Branch) : List Span := b.span :: b.body.map Node.span

/-- What stands in a node lies in its span, without overlaps, and so on below. -/
inductive Node.Laid : Node → Prop where
  | text (content : String) (span : Span) : Laid (.text content span)
  | code (value : Expr) (span : Span) : Laid (.code value span)
  | element {name : String} {void : Bool} {attributes : List ElementAttribute} {children : List Node}
      {span : Span} (encloses : span.Encloses (children.map Node.span) [])
      (below : ∀ n ∈ children, Laid n) : Laid (.element name void attributes children span)
  | loop {header : ForHeader} {body : List Node} {span : Span}
      (encloses : span.Encloses (body.map Node.span) []) (below : ∀ n ∈ body, Laid n) :
      Laid (.loop header body span)
  | conditional {branches : List Branch} {span : Span}
      (encloses : span.Encloses (branches.flatMap Branch.spans) [])
      (below : ∀ b ∈ branches, ∀ n ∈ b.body, Laid n) : Laid (.conditional branches span)
  | component {c : ComponentNode}
      (encloses : c.span.Encloses ((c.body.getD []).map Node.span) (c.slots.map SlotEntry.span))
      (below : ∀ n ∈ c.body.getD [], Laid n)
      (slots : ∀ s ∈ c.slots, s.span.Encloses ((s.body.getD []).map Node.span) [])
      (slotsBelow : ∀ s ∈ c.slots, ∀ n ∈ s.body.getD [], Laid n) : Laid (.component c)

/-- The same for a slot entry. -/
structure SlotEntry.Laid (s : SlotEntry) : Prop where
  encloses : s.span.Encloses ((s.body.getD []).map Node.span) []
  below : ∀ n ∈ s.body.getD [], n.Laid

/-- Tokens in the order of their source. -/
structure Token.InOrder (ts : List Token) : Prop where
  ordered : ts.Pairwise fun t u => t.span.Before u.span
  nonempty : ∀ t ∈ ts, t.span.start < t.span.stop

/-- A span from the start of one token to the end of another. -/
structure Span.Within (s : Span) (ts : List Token) : Prop where
  start : ∃ t ∈ ts, s.start = t.span.start
  stop : ∃ t ∈ ts, s.stop = t.span.stop

/-- The span from the start of the first token to the end of the last. -/
structure Span.Over (s : Span) (ts : List Token) : Prop where
  start : ∃ t rest, ts = t :: rest ∧ s.start = t.span.start
  stop : ∃ front t, ts = front ++ [t] ∧ s.stop = t.span.stop

namespace Span

variable {s t : Span} {ts us : List Token} {u : Token}

theorem Over.token (u : Token) : u.span.Over [u] := ⟨⟨u, [], rfl, rfl⟩, ⟨[], u, rfl, rfl⟩⟩

/-- A span that is joined from those of an opening and a closing token. -/
theorem Over.joined (t u : Token) (ts : List Token) : (t.span.join u.span).Over (t :: ts ++ [u]) :=
  ⟨⟨t, ts ++ [u], rfl, rfl⟩, ⟨t :: ts, u, rfl, rfl⟩⟩

theorem Over.within (h : s.Over ts) : s.Within ts := by
  obtain ⟨⟨t, rest, rfl, hstart⟩, ⟨front, u, hts, hstop⟩⟩ := h
  exact ⟨⟨t, List.mem_cons_self, hstart⟩, ⟨u, by simp [hts], hstop⟩⟩

theorem Within.mono (h : s.Within ts) (hsub : ∀ t ∈ ts, t ∈ us) : s.Within us := by
  obtain ⟨⟨t, ht, hstart⟩, ⟨u, hu, hstop⟩⟩ := h
  exact ⟨⟨t, hsub t ht, hstart⟩, ⟨u, hsub u hu, hstop⟩⟩

theorem Within.before (h : s.Within ts) (h' : t.Within us) (horder : Token.InOrder (ts ++ us)) :
    s.Before t := by
  obtain ⟨-, ⟨a, ha, hstop⟩⟩ := h
  obtain ⟨⟨b, hb, hstart⟩, -⟩ := h'
  rw [Before, hstop, hstart]
  exact (List.pairwise_append.1 horder.ordered).2.2 a ha b hb

theorem Over.holds (h : s.Over ts) (horder : Token.InOrder ts) (hu : u ∈ ts) : u.span.Inside s := by
  obtain ⟨⟨first, rest, hfirst, hstart⟩, ⟨front, last, hlast, hstop⟩⟩ := h
  have hle : ∀ t ∈ ts, t.span.start ≤ t.span.stop := fun t ht => Int.le_of_lt (horder.nonempty t ht)
  have hordered := horder.ordered
  constructor
  · rw [hstart]
    rw [hfirst, List.pairwise_cons] at hordered
    rcases List.mem_cons.1 (hfirst ▸ hu) with rfl | hu
    · exact Int.le_refl _
    · exact Int.le_trans (hle first (by simp [hfirst])) (hordered.1 u hu)
  · rw [hstop]
    rw [hlast, List.pairwise_append] at hordered
    rcases List.mem_append.1 (hlast ▸ hu) with hu | hu
    · exact Int.le_trans (hordered.2.2 u hu last (by simp)) (hle last (by simp [hlast]))
    · exact Int.le_of_eq (by rw [List.mem_singleton.1 hu])

theorem Within.inside (h : s.Within ts) (h' : t.Over ts) (horder : Token.InOrder ts) :
    s.Inside t := by
  obtain ⟨⟨a, ha, hstart⟩, ⟨b, hb, hstop⟩⟩ := h
  rw [Inside, hstart, hstop]
  exact ⟨(h'.holds horder ha).1, (h'.holds horder hb).2⟩

end Span

theorem Token.InOrder.sublist {ts us : List Token} (h : Token.InOrder us) (hsub : ts.Sublist us) :
    Token.InOrder ts :=
  ⟨h.ordered.sublist hsub, fun t ht => h.nonempty t (hsub.subset ht)⟩

theorem Token.ofSource_inOrder {source : Source} {tokens : List Token}
    (h : Token.ofSource source = .ok tokens) : Token.InOrder tokens where
  ordered := (Source.TiledBy.of_tiling (ofSource_tiling h)).ordered
  nonempty t ht := ((Source.TiledBy.of_tiling (ofSource_tiling h)).inside t ht).1

/-- Nodes and slot entries that stand beside each other over some tokens. -/
structure Siblings (ts : List Token) (nodes : List Node) (slots : List SlotEntry) : Prop where
  rows : Span.Rows (nodes.map Node.span) (slots.map SlotEntry.span)
  within : ∀ s ∈ nodes.map Node.span ++ slots.map SlotEntry.span, s.Within ts
  laid : ∀ n ∈ nodes, n.Laid
  slotsLaid : ∀ s ∈ slots, s.Laid

/-- Branches that stand one after another over some tokens. -/
structure Branching (ts : List Token) (bs : List Branch) : Prop where
  none : bs = [] → ts = []
  first : ∀ b rest, bs = b :: rest → ∃ t more, ts = t :: more ∧ b.span.start = t.span.start
  ordered : (bs.flatMap Branch.spans).Pairwise Span.Before
  within : ∀ s ∈ bs.flatMap Branch.spans, s.Within ts
  laid : ∀ b ∈ bs, ∀ n ∈ b.body, n.Laid

/-- How a part of a tree stands over its tokens. -/
def NodePart.Laid (ts : List Token) : NodePart → Prop
  | .node n => n.span.Over ts ∧ n.Laid
  | .entry s => s.span.Over ts ∧ s.Laid
  | .content nodes slots => Siblings ts nodes slots
  | .branches bs => Branching ts bs

namespace Siblings

variable {ts us : List Token} {nodes : List Node} {slots : List SlotEntry}

/-- What is spelt by tokens that come later comes later. -/
theorem before (h : Siblings ts nodes slots) (horder : Token.InOrder (ts ++ us)) {t : Span}
    (ht : t.Over us) : ∀ s ∈ nodes.map Node.span ++ slots.map SlotEntry.span, s.Before t :=
  fun s hs => (h.within s hs).before ht.within horder

theorem within_append (h : Siblings ts nodes slots) (us : List Token) :
    ∀ s ∈ nodes.map Node.span ++ slots.map SlotEntry.span, s.Within (ts ++ us) :=
  fun s hs => (h.within s hs).mono fun _ => List.mem_append_left us

theorem more (h : Siblings ts nodes slots) (horder : Token.InOrder (ts ++ us)) {n : Node}
    (hover : n.span.Over us) (hlaid : n.Laid) : Siblings (ts ++ us) (nodes ++ [n]) slots where
  rows := by
    rw [List.map_append]
    exact h.rows.snoc (h.before horder hover)
  within := by
    intro s hs
    rw [List.map_append, List.mem_append, List.mem_append] at hs
    rcases hs with (hs | hs) | hs
    · exact h.within_append us s (List.mem_append_left _ hs)
    · rw [List.mem_singleton.1 hs]
      exact hover.within.mono fun _ => List.mem_append_right ts
    · exact h.within_append us s (List.mem_append_right _ hs)
  laid := by
    intro m hm
    rcases List.mem_append.1 hm with hm | hm
    · exact h.laid m hm
    · rw [List.mem_singleton.1 hm]
      exact hlaid
  slotsLaid := h.slotsLaid

theorem moreSlots (h : Siblings ts nodes slots) (horder : Token.InOrder (ts ++ us)) {s : SlotEntry}
    (hover : s.span.Over us) (hlaid : s.Laid) : Siblings (ts ++ us) nodes (slots ++ [s]) where
  rows := by
    rw [List.map_append]
    exact h.rows.snocMore (h.before horder hover)
  within := by
    intro u hu
    rw [List.map_append, ← List.append_assoc, List.mem_append] at hu
    rcases hu with hu | hu
    · exact h.within_append us u hu
    · rw [List.mem_singleton.1 hu]
      exact hover.within.mono fun _ => List.mem_append_right ts
  laid := h.laid
  slotsLaid := by
    intro u hu
    rcases List.mem_append.1 hu with hu | hu
    · exact h.slotsLaid u hu
    · rw [List.mem_singleton.1 hu]
      exact hlaid

/-- What is spelt between two tokens lies in the span from the first to the second. -/
theorem enclosed (h : Siblings ts nodes slots) {t u : Token}
    (horder : Token.InOrder (t :: ts ++ [u])) :
    (t.span.join u.span).Encloses (nodes.map Node.span) (slots.map SlotEntry.span) where
  toRows := h.rows
  inside := by
    intro s hs
    have hwithin : s.Within (t :: ts ++ [u]) :=
      (h.within s hs).mono fun v hv => List.mem_append_left _ (List.mem_cons_of_mem t hv)
    exact hwithin.inside (.joined t u ts) horder

end Siblings

theorem Branching.branch {ts us : List Token} {bs : List Branch} {b : Branch} {t : Token}
    (h : Branching ts bs) (hspan : t.span = b.span) (horder : Token.InOrder (ts ++ t :: us))
    (inner : Siblings us b.body []) : Branching (ts ++ t :: us) (bs ++ [b]) := by
  have hmark : b.span.Within [t] := hspan ▸ (Span.Over.token t).within
  have hbody : ∀ s ∈ b.body.map Node.span, s.Within us := fun s hs =>
    inner.within s (List.mem_append_left _ hs)
  have hnew : ∀ s ∈ b.spans, s.Within (t :: us) := by
    intro s hs
    rcases List.mem_cons.1 hs with rfl | hs
    · exact hmark.mono fun u hu => List.mem_singleton.1 hu ▸ List.mem_cons_self
    · exact (hbody s hs).mono fun _ => List.mem_cons_of_mem t
  have hspans : (bs ++ [b]).flatMap Branch.spans = bs.flatMap Branch.spans ++ b.spans := by simp
  constructor
  case none => simp
  case first =>
    intro first rest hfirst
    cases bs with
    | nil =>
      obtain ⟨rfl, -⟩ := List.cons.inj hfirst
      rw [h.none rfl]
      exact ⟨t, us, rfl, by rw [hspan]⟩
    | cons other more =>
      obtain ⟨rfl, -⟩ := List.cons.inj hfirst
      obtain ⟨u, more, rfl, hstart⟩ := h.first _ _ rfl
      exact ⟨u, _, rfl, hstart⟩
  case ordered =>
    rw [hspans, List.pairwise_append, Branch.spans, List.pairwise_cons]
    refine ⟨h.ordered, ⟨fun s hs => ?_, inner.rows.ordered⟩, fun s hs u hu => ?_⟩
    · exact hmark.before (hbody s hs) (horder.sublist (List.sublist_append_right ts _))
    · exact (h.within s hs).before (hnew u hu) horder
  case within =>
    intro s hs
    rw [hspans, List.mem_append] at hs
    rcases hs with hs | hs
    · exact (h.within s hs).mono fun _ => List.mem_append_left _
    · exact (hnew s hs).mono fun _ => List.mem_append_right _
  case laid =>
    intro c hc
    rcases List.mem_append.1 hc with hc | hc
    · exact h.laid c hc
    · rw [List.mem_singleton.1 hc]
      exact inner.laid

theorem inLoop_span (loop : Option ForHeader) (n : Node) :
    (NodeTree.inLoop loop n).span = n.span := by
  cases loop <;> rfl

theorem inLoop_laid {n : Node} (h : n.Laid) (loop : Option ForHeader) :
    (NodeTree.inLoop loop n).Laid := by
  cases loop with
  | none => exact h
  | some header =>
    refine .loop ⟨.single (List.pairwise_singleton _ _), ?_⟩ (by simpa using h)
    intro s hs
    rw [List.append_nil, List.map_singleton, List.mem_singleton] at hs
    exact ⟨Int.le_of_eq (by rw [hs]), Int.le_of_eq (by rw [hs])⟩

theorem Span.Encloses.nil (outer : Span) : outer.Encloses [] [] := ⟨.single .nil, by simp⟩

/-- A part that is spelt lies over the tokens that spell it. -/
theorem Spells.laid {source : Source} {ts : List Token} {part : NodePart} (h : Spells source ts part)
    (horder : Token.InOrder ts) : part.Laid ts := by
  induction h with
  | nothing => exact ⟨.single .nil, by simp, by simp, by simp⟩
  | more _ _ ihBefore ihHere =>
    obtain ⟨hover, hlaid⟩ := ihHere (horder.sublist (List.sublist_append_right _ _))
    exact (ihBefore (horder.sublist (List.sublist_append_left _ _))).more horder hover hlaid
  | moreSlots _ _ ihBefore ihHere =>
    obtain ⟨hover, hlaid⟩ := ihHere (horder.sublist (List.sublist_append_right _ _))
    exact (ihBefore (horder.sublist (List.sublist_append_left _ _))).moreSlots horder hover hlaid
  | text content span => exact ⟨.token (.text content span), .text content span⟩
  | @code mark slice span value => exact ⟨.token (.code mark slice span), .code value span⟩
  | @loneElement tag =>
    refine ⟨?_, inLoop_laid (.element (.nil _) (by simp)) _⟩
    rw [inLoop_span]
    exact .token (.openTag tag)
  | @element tag _ _ ts _ kind span _ _ _ _ ih =>
    have inner := ih (horder.sublist (by simp))
    refine ⟨?_, inLoop_laid (.element (inner.enclosed horder) inner.laid) _⟩
    rw [inLoop_span]
    exact .joined (.openTag tag) (.closeTag tag.name kind span) ts
  | @loneComponent tag c _ _ _ hslots hbody hspan =>
    constructor
    · rw [Node.span, hspan]
      exact .token (.openTag tag)
    · apply Node.Laid.component <;> simp [hslots, hbody, Span.Encloses.nil]
  | @component tag c ts children kind span _ _ _ _ hbody hspan ih =>
    have inner := ih (horder.sublist (by simp))
    constructor
    · rw [Node.span, hspan]
      exact .joined (.openTag tag) (.closeTag tag.name kind span) ts
    · refine .component ?_ ?_ (fun s hs => (inner.slotsLaid s hs).encloses) fun s hs =>
        (inner.slotsLaid s hs).below
      · rw [hbody, hspan]
        exact inner.enclosed horder
      · rw [hbody]
        exact inner.laid
  | @loneSlot tag s _ _ _ hbody hspan =>
    constructor
    · rw [hspan]
      exact .token (.openTag tag)
    · constructor <;> simp [hbody, Span.Encloses.nil]
  | @slot tag s ts children kind span _ _ _ _ hbody hspan ih =>
    have inner := ih (horder.sublist (by simp))
    constructor
    · rw [hspan]
      exact .joined (.openTag tag) (.closeTag tag.name kind span) ts
    · constructor
      · rw [hbody, hspan]
        exact inner.enclosed horder
      · rw [hbody]
        exact inner.laid
  | @loop mark mark' slice slice' span span' ts _ _ _ _ _ ih =>
    have inner := ih (horder.sublist (by simp))
    exact ⟨.joined (.code mark slice span) (.code mark' slice' span') ts,
      .loop (inner.enclosed horder) inner.laid⟩
  | noBranch => exact ⟨fun _ => rfl, by simp, .nil, by simp, by simp⟩
  | @branch mark slice ts us bs b _ _ _ ihBefore ihInner =>
    have before := ihBefore (horder.sublist (List.sublist_append_left _ _))
    exact before.branch rfl horder (ihInner (horder.sublist (by simp)))
  | @conditional mark slice span ts b bs _ _ ih =>
    have inner := ih (horder.sublist (List.sublist_append_left _ _))
    -- the marker of the first branch opens the block
    obtain ⟨t, more, rfl, hstart⟩ := inner.first b bs rfl
    have hover : (b.span.join span).Over (t :: more ++ [.code mark slice span]) :=
      ⟨⟨t, _, rfl, hstart⟩, ⟨_, _, rfl, rfl⟩⟩
    refine ⟨hover, .conditional ⟨.single inner.ordered, fun s hs => ?_⟩ inner.laid⟩
    rw [List.append_nil] at hs
    exact ((inner.within s hs).mono fun _ => List.mem_append_left _).inside hover horder

end LiveTemplate
