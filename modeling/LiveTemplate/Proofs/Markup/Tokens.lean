import LiveTemplate.Proofs.Markup.Readers

/-!
The tokens of a template tile it. Segments tile the template but for comment markers and the last
character of escaped marks, and the tokens of each text segment tile the segment.
-/

namespace LiveTemplate

set_option autoImplicit false

namespace Segment

/-- The spans a template leaves out of its tokens: comment markers, and the last character of an
escaped mark. Inside other markers nothing is left out. -/
def leftOut (cs : List Char) (offset : Nat) : List Span :=
  match cs with
  | [] => []
  | '<' :: '%' :: '%' :: rest => ⟨offset + 2, offset + 3⟩ :: leftOut rest (offset + 3)
  | '<' :: '%' :: rest =>
    match _h : Text.cut? ['%', '>'] rest with
    | none => []
    | some (inside, tail) =>
      let stop := offset + 2 + Text.width inside + 2
      if inside.head? = some '#' then ⟨offset, stop⟩ :: leftOut tail stop else leftOut tail stop
  | c :: rest => leftOut rest (offset + Text.units c)
termination_by cs.length
decreasing_by
  · simp; omega
  · have hshorter := Text.length_of_cut? _h
    simp; omega
  · have hshorter := Text.length_of_cut? _h
    simp; omega
  · simp

/-- A segment reads the text it stands over. -/
def Reads (segment : Segment) (offset : Nat) (cs : List Char) : Prop :=
  match segment with
  | .text content start => content = cs ∧ start = offset
  | .marker _ code codeStart start stop =>
    start = offset ∧ stop = offset + Text.width cs ∧
      ∃ before after, cs = before ++ (code ++ after) ∧ before ≠ [] ∧
        codeStart = offset + Text.width before

theorem flush_tile (pending : List Char) (start : Nat) :
    Tiling Reads start pending.reverse (flush pending start) [] := by
  unfold flush
  split
  · rename_i hpending
    subst hpending
    exact .nil _
  · exact .single ⟨rfl, rfl⟩

theorem ofMarker_tile (inside : List Char) (offset : Nat) :
    Tiling Reads offset (['<', '%'] ++ (inside ++ ['%', '>'])) (ofMarker inside offset)
      (if inside.head? = some '#' then [⟨offset, offset + 2 + Text.width inside + 2⟩] else []) := by
  have hstop : offset + 2 + Text.width inside + 2 =
      offset + Text.width (['<', '%'] ++ (inside ++ ['%', '>'])) := by
    simp [Text.units]; omega
  unfold ofMarker
  split
  · rename_i rest
    simp only [List.head?_cons, if_true]
    have hgap : Tiling Reads offset (['<', '%'] ++ ('#' :: rest ++ ['%', '>'])) [] _ :=
      Tiling.blank offset _
    rwa [Span.along, ← Int.natCast_add, ← hstop] at hgap
  · rename_i code
    exact .single ⟨rfl, hstop, ['<', '%', '='], ['%', '>'], by simp, by simp, rfl⟩
  · rename_i hno _
    have hhead : inside.head? ≠ some '#' := by
      cases inside with
      | nil => simp
      | cons c rest =>
        rintro ⟨⟩
        exact hno _ rfl
    rw [if_neg hhead]
    exact .single ⟨rfl, hstop, ['<', '%'], ['%', '>'], by simp, by simp, rfl⟩

theorem split_tile {cs : List Char} {offset : Nat} {pending : List Char} {start : Nat}
    {segments : List Segment} (h : split cs offset pending start = .ok segments)
    (hoffset : offset = start + Text.width pending.reverse) :
    Tiling Reads start (pending.reverse ++ cs) segments (leftOut cs offset) := by
  induction cs, offset, pending, start using split.induct generalizing segments with
  | case1 offset pending start =>
    simp only [split, Except.ok.injEq] at h
    rw [← h, leftOut, List.append_nil]
    exact flush_tile pending start
  | case2 offset pending start rest ih =>
    simp only [split] at h
    obtain ⟨more, hmore, h⟩ := bind_eq_ok.1 h
    simp only [Except.ok.injEq] at h
    rw [← h, leftOut]
    have htext : pending.reverse ++ '<' :: '%' :: '%' :: rest =
        ('%' :: '<' :: pending).reverse ++ (['%'] ++ rest) := by simp
    have hmark : start + Text.width ('%' :: '<' :: pending).reverse = offset + 2 := by
      simp [hoffset, Text.units]; omega
    rw [htext]
    apply (flush_tile ('%' :: '<' :: pending) start).append_solid
    rw [hmark]
    exact .gap ['%'] (ih hmore rfl)
  | case3 offset pending start rest hno hcut =>
    simp only [split] at h
    split at h <;> simp_all
  | case4 offset pending start rest hno inside tail hcut stop =>
    rename_i ih
    simp only [split] at h
    split at h
    · simp_all
    · rename_i inside' tail' hcut'
      obtain ⟨rfl, rfl⟩ : inside = inside' ∧ tail = tail' := by simpa [hcut] using hcut'
      obtain ⟨more, hmore, h⟩ := bind_eq_ok.1 h
      simp only [Except.ok.injEq] at h
      have htext : '<' :: '%' :: rest = (['<', '%'] ++ (inside ++ ['%', '>'])) ++ tail := by
        simp [Text.eq_of_cut? hcut]
      have hleft : leftOut ('<' :: '%' :: rest) offset =
          [] ++ ((if inside.head? = some '#' then [⟨offset, stop⟩] else []) ++ leftOut tail stop) := by
        rw [leftOut]
        split
        · simp_all
        · rename_i hcut''
          obtain ⟨rfl, rfl⟩ := Prod.mk.inj (Option.some.inj (hcut.symm.trans hcut''))
          split <;> simp [stop]
        · exact hno
      rw [← h, hleft, htext, List.append_assoc (flush pending start)]
      apply (flush_tile pending start).append
      rw [← hoffset]
      apply (ofMarker_tile inside offset).append
      have hstop : stop = offset + Text.width (['<', '%'] ++ (inside ++ ['%', '>'])) := by
        simp [stop, Text.units]; omega
      rw [← hstop]
      simpa using ih hmore rfl
  | case5 offset pending start c rest _ hno ih =>
    simp only [split] at h
    simp only [leftOut]
    have hmore := ih h (by simp [hoffset]; omega)
    simpa using hmore

end Segment

theorem Lexer.segments_tile {cs : List Char} {offset : Nat} {segments : List Segment}
    {gaps : List Span} (hsegments : Tiling Segment.Reads offset cs segments gaps)
    {state after_ : LexState} {tokens : List Token}
    (h : Lexer.segments segments state = .ok (tokens, after_)) :
    Tiling Token.Reads offset cs tokens gaps := by
  induction hsegments generalizing state after_ tokens with
  | nil o =>
    simp only [Lexer.segments, Except.ok.injEq, Prod.mk.injEq] at h
    rw [← h.1]
    exact .nil o
  | @piece o xs ys segment rest gaps hreads _ ih =>
    cases segment with
    | text content start =>
      obtain ⟨rfl, rfl⟩ := hreads
      obtain ⟨⟨first, state'⟩, hfirst, h⟩ := bind_eq_ok.1 h
      obtain ⟨⟨more, state''⟩, hmore, h⟩ := bind_eq_ok.1 h
      simp only [Except.ok.injEq, Prod.mk.injEq] at h
      rw [← h.1]
      exact (chunk_tile hfirst).append (ih hmore)
    | marker kind code codeStart start stop =>
      obtain ⟨rfl, rfl, before, after, rfl, hne, rfl⟩ := hreads
      obtain ⟨⟨more, state'⟩, hmore, h⟩ := bind_eq_ok.1 h
      simp only [Except.ok.injEq, Prod.mk.injEq] at h
      rw [← h.1]
      apply Tiling.piece _ (ih hmore)
      refine ⟨by simp [hne], by simp [Token.ofMarker, Token.span, Span.along], before, after, ?_, ?_⟩
      · rw [String.toList_ofList]
      · simp [Span.along]
  | gap xs _ ih => exact .gap xs (ih h)

/-- The spans of a source that no token covers. -/
def Source.leftOut (source : Source) : List Span := Segment.leftOut source.chars 0

/-- The span of a whole source. -/
def Source.span (source : Source) : Span := ⟨0, source.width⟩

/-- How tokens stand in a source: in order, over all of it but what is left out, each holding what
is written where its spans say. -/
structure Source.TiledBy (source : Source) (tokens : List Token) : Prop where
  ordered : tokens.Pairwise fun t u => t.span.Before u.span
  inside : ∀ t ∈ tokens, t.span.start < t.span.stop ∧ t.span.Inside source.span
  covered : ∀ i, source.span.Holds i →
    ((∃ t ∈ tokens, t.span.Holds i) ↔ ¬ ∃ s ∈ source.leftOut, s.Holds i)
  text : ∀ content span, .text content span ∈ tokens → content = source.slice span
  code : ∀ mark slice span, .code mark slice span ∈ tokens →
    slice.text = source.slice slice.span ∧ slice.span.Inside span
  attributes : ∀ tag, .openTag tag ∈ tokens →
    (tag.attributes.Pairwise fun a b => a.span.Before b.span) ∧
    ∀ a ∈ tag.attributes, a.span.start < a.span.stop ∧ a.span.Inside tag.span
  attributeCode : ∀ tag, .openTag tag ∈ tokens → ∀ a ∈ tag.attributes, ∀ slice,
    a.code? = some slice → slice.text = source.slice slice.span ∧ slice.span.Inside a.span

/-- Code that is written in a part of a source is the slice of its span. -/
theorem CodeSlice.WrittenIn.slice_eq {source : Source} {slice : CodeSlice}
    {before part after : List Char} (htext : source.chars = before ++ (part ++ after))
    (h : slice.WrittenIn (Text.width before) part) :
    slice.text = source.slice slice.span ∧ slice.span.Inside (Span.along (Text.width before) part) := by
  obtain ⟨front, back, rfl, hspan⟩ := h
  rw [hspan]
  refine ⟨?_, Span.inside_along ..⟩
  have hsource : source.chars = (before ++ front) ++ (slice.text.toList ++ (back ++ after)) := by
    simp [htext]
  rw [← Text.width_append, Source.slice_along hsource, String.ofList_toList]

theorem Token.ofSource_tiling {source : Source} {tokens : List Token}
    (h : Token.ofSource source = .ok tokens) :
    Tiling Token.Reads 0 source.chars tokens source.leftOut := by
  obtain ⟨segments, hsegments, h⟩ := bind_eq_ok.1 h
  obtain ⟨⟨tokens', state⟩, htokens, h⟩ := bind_eq_ok.1 h
  obtain ⟨⟨⟩, -, h⟩ := bind_eq_ok.1 h
  simp only [Except.ok.injEq] at h
  subst h
  exact Lexer.segments_tile (Segment.split_tile hsegments rfl) htokens

theorem Token.Reads.spans (t : Token) (offset : Nat) (cs : List Char) (h : t.Reads offset cs) :
    t.span = Span.along offset cs := h.span_eq

theorem TagAttribute.Reads.spans (a : TagAttribute) (offset : Nat) (cs : List Char)
    (h : a.Reads offset cs) : a.span = Span.along offset cs := h.span_eq

theorem Source.TiledBy.of_tiling {source : Source} {tokens : List Token}
    (htiling : Tiling Token.Reads 0 source.chars tokens source.leftOut) :
    source.TiledBy tokens := by
  have hsource : source.span = Span.along 0 source.chars := by
    simp [Source.span, Span.along, Source.width]
  have hplace : ∀ t ∈ tokens, ∃ before part after,
      source.chars = before ++ (part ++ after) ∧ t.Reads (Text.width before) part := by
    intro t ht
    simpa using htiling.exists_reads ht
  constructor
  case ordered => exact htiling.ordered Token.Reads.spans
  case inside =>
    intro t ht
    constructor
    · obtain ⟨before, part, after, -, hreads⟩ := hplace t ht
      rw [hreads.span_eq]
      exact Span.along_nonempty hreads.nonempty
    · rw [hsource]
      exact htiling.piece_inside Token.Reads.spans ht
  case covered =>
    intro i hi
    rw [hsource] at hi
    exact htiling.covered Token.Reads.spans hi
  case text =>
    intro content span ht
    obtain ⟨before, part, after, htext, hreads⟩ := hplace _ ht
    have hspan : span = _ := hreads.span_eq
    have hcontent : content.toList = part := hreads.holds
    rw [hspan, Source.slice_along htext, ← hcontent, String.ofList_toList]
  case code =>
    intro mark slice span ht
    obtain ⟨before, part, after, htext, hreads⟩ := hplace _ ht
    have hspan : span = _ := hreads.span_eq
    rw [hspan]
    exact CodeSlice.WrittenIn.slice_eq htext hreads.holds
  case attributes =>
    intro tag htag
    obtain ⟨before, part, after, -, hreads⟩ := hplace _ htag
    obtain ⟨blanks, htile⟩ := hreads.holds
    refine ⟨htile.ordered TagAttribute.Reads.spans, fun a ha => ⟨?_, ?_⟩⟩
    · obtain ⟨front, written, back, -, ha⟩ := htile.exists_reads ha
      rw [ha.span_eq]
      exact Span.along_nonempty ha.nonempty
    · have hspan : tag.span = _ := hreads.span_eq
      rw [hspan]
      exact htile.piece_inside TagAttribute.Reads.spans ha
  case attributeCode =>
    intro tag htag a ha slice hslice
    obtain ⟨before, part, after, htext, hreads⟩ := hplace _ htag
    obtain ⟨blanks, htile⟩ := hreads.holds
    obtain ⟨front, written, back, rfl, ha⟩ := htile.exists_reads ha
    have hsource : source.chars = (before ++ front) ++ (written ++ (back ++ after)) := by
      simp [htext]
    rw [ha.span_eq, ← Text.width_append]
    apply CodeSlice.WrittenIn.slice_eq hsource
    rw [Text.width_append]
    exact ha.code slice hslice

/-- The tokens of a template tile it. -/
theorem Token.ofSource_tiled {source : Source} {tokens : List Token}
    (h : Token.ofSource source = .ok tokens) : source.TiledBy tokens :=
  .of_tiling (ofSource_tiling h)

theorem Token.ofSource_mixed_tiled :
    let source : Source := ⟨"a<%%<b c={d}/><%#e%>{f}", "mixed"⟩
    let tokens := [.text "a<%" ⟨0, 3⟩,
      .openTag ⟨"b", .element, [.named "c" (.code ⟨"d", ⟨10, 11⟩⟩) ⟨7, 12⟩], true, ⟨4, 14⟩⟩,
      .code .body ⟨"f", ⟨21, 22⟩⟩ ⟨20, 23⟩]
    Token.ofSource source = .ok tokens ∧ source.TiledBy tokens := by
  intro source tokens
  have htokens : Token.ofSource source = .ok tokens := toOption_eq_some.1 (by decide +kernel)
  exact ⟨htokens, Token.ofSource_tiled htokens⟩

end LiveTemplate
