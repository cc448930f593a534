import LiveTemplate.Markup.Lexer
import LiveTemplate.Proofs.Markup.Tiling
import LiveTemplate.Proofs.Result
import Mathlib.Tactic.SplitIfs

/-!
What each reader of the lexer takes is read by what it makes: a token reads the text its span stands
over, code is written inside it, and the attributes of a tag tile the tag. So the tokens of a chunk
tile it without gaps.
-/

namespace LiveTemplate

set_option autoImplicit false

/-- Code that is written in the text at an offset, where its span says. -/
def CodeSlice.WrittenIn (slice : CodeSlice) (offset : Nat) (cs : List Char) : Prop :=
  ∃ before after, cs = before ++ (slice.text.toList ++ after) ∧
    slice.span = Span.along (offset + Text.width before) slice.text.toList

theorem CodeSlice.WrittenIn.around {slice : CodeSlice} {offset : Nat} {before cs : List Char}
    (after : List Char) (h : slice.WrittenIn (offset + Text.width before) cs) :
    slice.WrittenIn offset (before ++ (cs ++ after)) := by
  obtain ⟨front, back, rfl, hspan⟩ := h
  refine ⟨before ++ front, back ++ after, by simp, ?_⟩
  simpa [Nat.add_assoc] using hspan

namespace TagAttribute

def span : TagAttribute → Span
  | named _ _ s => s
  | spread _ s => s

/-- The code of an attribute that is given by an expression. -/
def code? : TagAttribute → Option CodeSlice
  | named _ (.code slice) _ => some slice
  | spread slice _ => some slice
  | _ => none

/-- An attribute reads the text its span stands over, and its code is written there. -/
structure Reads (a : TagAttribute) (offset : Nat) (cs : List Char) : Prop where
  nonempty : cs ≠ []
  span_eq : a.span = Span.along offset cs
  code : ∀ slice, a.code? = some slice → slice.WrittenIn offset cs

end TagAttribute

/-- What a token of each kind holds of the text it reads. -/
def Token.Holds (offset : Nat) (cs : List Char) : Token → Prop
  | .text content _ => content.toList = cs
  | .openTag tag => ∃ blanks, Tiling TagAttribute.Reads offset cs tag.attributes blanks
  | .closeTag .. => True
  | .code _ slice _ => slice.WrittenIn offset cs

/-- A token reads the text its span stands over. -/
structure Token.Reads (t : Token) (offset : Nat) (cs : List Char) : Prop where
  nonempty : cs ≠ []
  span_eq : t.span = Span.along offset cs
  holds : t.Holds offset cs

namespace Lexer

variable {cs rest : List Char} {offset n : Nat}

theorem after_cons (offset : Nat) (c : Char) (cs : List Char) (n : Nat) :
    after offset (c :: cs) (n + 1) = after (offset + Text.units c) cs n := by
  simp [after, Nat.add_assoc]

theorem after_width (offset : Nat) (cs : List Char) (n : Nat) :
    after offset cs n + Text.width (cs.drop n) = offset + Text.width cs := by
  rw [after, Nat.add_assoc, ← Text.width_append, List.take_append_drop]

/-- The span up to the offset after some characters stands over what was read before and them. -/
theorem span_after (front : List Char) (offset : Nat) (cs : List Char) (n : Nat) :
    (⟨offset, after (offset + Text.width front) cs n⟩ : Span) =
      Span.along offset (front ++ cs.take n) := by
  simp [after, Span.along, Int.add_assoc]

theorem codeAt_written {rest : List Char} {open_ stop n : Nat} {slice : CodeSlice}
    (h : codeAt rest open_ stop = .ok (slice, n)) :
    0 < n ∧ slice.WrittenIn open_ ('{' :: rest.take n) := by
  unfold codeAt at h
  split at h
  · simp at h
  · rename_i m hclose
    simp only [Except.ok.injEq, Prod.mk.injEq] at h
    obtain ⟨rfl, rfl⟩ := h
    have hpos := Text.closeLength_pos hclose
    refine ⟨hpos, ['{'], (rest.drop (m - 1)).take 1, ?_, ?_⟩
    · rw [String.toList_ofList, ← List.take_add, Nat.sub_add_cancel hpos]
      rfl
    · simp [Span.along, Text.units]

theorem valueAt_written {ctx : TagContext} {name : String} {slice : CodeSlice}
    (h : valueAt ctx name cs offset = .ok (.code slice, n)) :
    slice.WrittenIn offset (cs.take n) := by
  unfold valueAt at h
  split at h
  · simp at h
  · rename_i rest
    obtain ⟨⟨code, m⟩, hcode, h⟩ := bind_eq_ok.1 h
    simp only [Except.ok.injEq, Prod.mk.injEq, AttributeValue.code.injEq] at h
    obtain ⟨rfl, rfl⟩ := h
    exact (codeAt_written hcode).2
  · split at h
    · split at h <;> simp at h
    · simp only [stray] at h
      split at h <;> simp at h

theorem attributeAt_reads {ctx : TagContext} {c : Char} {a : TagAttribute}
    (h : attributeAt ctx c rest offset = .ok (a, n)) : a.Reads offset (c :: rest.take n) := by
  simp only [attributeAt, stray] at h
  -- the name is not empty, so the characters taken begin with `c`
  have htake : ∀ {k : Nat}, k ≠ 0 → c :: rest.take (k - 1) = (c :: rest).take k := by
    intro k hk
    obtain ⟨k, rfl⟩ := Nat.exists_eq_succ_of_ne_zero hk
    rfl
  split at h
  · simp at h
  · rename_i hname
    split at h
    · simp at h
    · split at h
      · obtain ⟨⟨value, m⟩, hvalue, h⟩ := bind_eq_ok.1 h
        simp only [Except.ok.injEq, Prod.mk.injEq] at h
        obtain ⟨rfl, rfl⟩ := h
        rw [htake (by omega)]
        refine ⟨by simp, span_after [] .., fun slice hslice => ?_⟩
        cases value with
        | code code =>
          simp only [TagAttribute.code?, Option.some.injEq] at hslice
          subst hslice
          have hcode := valueAt_written hvalue
          rw [List.take_add]
          simpa using CodeSlice.WrittenIn.around [] hcode
        | literal | none => simp [TagAttribute.code?] at hslice
      · simp only [Except.ok.injEq, Prod.mk.injEq] at h
        obtain ⟨rfl, rfl⟩ := h
        rw [htake hname]
        exact ⟨by simp; omega, span_after [] .., by simp [TagAttribute.code?]⟩

/-- Blanks, an attribute and what is tiled by the attributes after it. -/
theorem tile_attribute {c : Char} {a : TagAttribute} {more : List TagAttribute}
    {blanks : List Span} {b m : Nat} (hdrop : cs.drop b = c :: rest)
    (ha : a.Reads (after offset cs b) (c :: rest.take m))
    (hmore : Tiling TagAttribute.Reads (after (after offset cs b) (c :: rest) (m + 1))
      ((rest.drop m).take n) more blanks) :
    Tiling TagAttribute.Reads offset (cs.take (b + 1 + m + n)) (a :: more)
      (Span.along offset (cs.take b) :: blanks) := by
  have htake : cs.take (b + 1 + m + n) =
      cs.take b ++ ((c :: rest.take m) ++ (rest.drop m).take n) := by
    rw [show b + 1 + m + n = b + (m + n + 1) by omega, List.take_add, hdrop, List.take_succ_cons,
      List.take_add]
    rfl
  rw [htake]
  apply Tiling.gap
  apply Tiling.piece ha
  simpa [after] using hmore

theorem attributesAt_tile {ctx : TagContext} {attributes : List TagAttribute} {selfClosing : Bool}
    (h : attributesAt ctx cs offset = .ok (attributes, selfClosing, n)) :
    ∃ blanks, Tiling TagAttribute.Reads offset (cs.take n) attributes blanks := by
  induction hlen : cs.length using Nat.strongRecOn
    generalizing cs offset attributes selfClosing n with
  | ind k ih =>
    -- what is left after an attribute is shorter
    have hleft : ∀ {b m : Nat} {c : Char} {rest : List Char}, cs.drop b = c :: rest →
        (rest.drop m).length < k := by
      intro b m c rest hdrop
      have := congrArg List.length hdrop
      simp only [List.length_drop, List.length_cons] at this ⊢
      omega
    unfold attributesAt at h
    simp only at h
    split at h
    · simp at h
    · simp only [Except.ok.injEq, Prod.mk.injEq] at h
      obtain ⟨rfl, rfl, rfl⟩ := h
      exact ⟨_, .blank ..⟩
    · simp only [Except.ok.injEq, Prod.mk.injEq] at h
      obtain ⟨rfl, rfl, rfl⟩ := h
      exact ⟨_, .blank ..⟩
    · rename_i rest hdrop
      obtain ⟨⟨slice, m⟩, hcode, h⟩ := bind_eq_ok.1 h
      obtain ⟨⟨more, closing, l⟩, hmore, h⟩ := bind_eq_ok.1 h
      simp only [Except.ok.injEq, Prod.mk.injEq] at h
      obtain ⟨rfl, rfl, rfl⟩ := h
      obtain ⟨blanks, hmore⟩ := ih _ (hleft hdrop) hmore rfl
      rw [show after (after offset cs (count isTagBlank cs) + 1) rest m =
        after (after offset cs (count isTagBlank cs)) ('{' :: rest) (m + 1) from
        (after_cons _ '{' rest m).symm] at hmore
      refine ⟨_, tile_attribute hdrop ⟨by simp, ?_, ?_⟩ hmore⟩
      · exact span_after ['{'] ..
      · rintro _ ⟨⟩
        exact (codeAt_written hcode).2
    · rename_i c rest _ _ _ hdrop
      obtain ⟨⟨a, m⟩, ha, h⟩ := bind_eq_ok.1 h
      obtain ⟨⟨more, closing, l⟩, hmore, h⟩ := bind_eq_ok.1 h
      simp only [Except.ok.injEq, Prod.mk.injEq] at h
      obtain ⟨rfl, rfl, rfl⟩ := h
      obtain ⟨blanks, hmore⟩ := ih _ (hleft hdrop) hmore rfl
      exact ⟨_, tile_attribute hdrop (attributeAt_reads ha) hmore⟩

theorem openTagAt_reads {tag : OpenTag} {start stop : Nat}
    (h : openTagAt rest start stop = .ok (tag, n)) :
    Token.Reads (.openTag tag) start ('<' :: rest.take n) := by
  unfold openTagAt at h
  obtain ⟨kind, _, h⟩ := bind_eq_ok.1 h
  dsimp only at h
  split_ifs at h
  · obtain ⟨⟨attributes, closing, m⟩, hattributes, h⟩ := bind_eq_ok.1 h
    simp only [Except.ok.injEq, Prod.mk.injEq] at h
    obtain ⟨rfl, rfl⟩ := h
    obtain ⟨blanks, htile⟩ := attributesAt_tile hattributes
    refine ⟨by simp, span_after ['<'] .., ?_⟩
    rw [Token.Holds, List.take_add]
    exact ⟨_, .gap ('<' :: rest.take _) (by simpa [after, Text.units, Nat.add_assoc] using htile)⟩
  · simp [stray] at h

theorem closeTagAt_reads {t : Token} {start stop : Nat}
    (h : closeTagAt rest start stop = .ok (t, n)) :
    t.Reads start ('<' :: '/' :: rest.take n) := by
  simp only [closeTagAt, stray] at h
  split at h
  · simp at h
  · split at h
    · simp at h
    · obtain ⟨kind, _, h⟩ := bind_eq_ok.1 h
      simp only [Except.ok.injEq, Prod.mk.injEq] at h
      obtain ⟨rfl, rfl⟩ := h
      exact ⟨by simp, span_after ['<', '/'] .., trivial⟩
    · simp at h

theorem flush_tile (pending : List Char) {start stop : Nat}
    (h : stop = start + Text.width pending.reverse) :
    Tiling Token.Reads start pending.reverse (flush pending start stop) [] := by
  unfold flush
  split
  · rename_i hpending
    subst hpending
    exact .nil _
  · rename_i hpending
    apply Tiling.single
    refine ⟨by simpa using hpending, ?_, String.toList_ofList⟩
    simp [Token.span, Span.along, h]

theorem flush_whole {stop : Nat} (h : stop = offset + Text.width cs) :
    Tiling Token.Reads offset cs (flush cs.reverse offset stop) [] := by
  have hall : Tiling Token.Reads offset cs.reverse.reverse (flush cs.reverse offset stop) [] :=
    flush_tile cs.reverse (by rwa [List.reverse_reverse])
  rwa [List.reverse_reverse] at hall

/-- Text that is flushed whole, and what follows it. -/
theorem flush_before {front : List Char} {stop : Nat} {tokens : List Token}
    (hstop : stop = offset + Text.width front) (h : Tiling Token.Reads stop cs tokens []) :
    Tiling Token.Reads offset (front ++ cs) (flush front.reverse offset stop ++ tokens) [] := by
  apply (flush_whole hstop).append_solid
  rwa [← hstop]

/-- What is no small letter is the small form of itself only. -/
theorem eq_of_toLower {c d : Char} (hd : d.isLower = false) (h : c.toLower = d) : c = d := by
  subst h
  by_cases hc : c.val ≥ 'A'.val ∧ c.val ≤ 'Z'.val
  · have hval : c.toLower.val = c.val + ('a'.val - 'A'.val) := congrArg Char.val (dif_pos hc)
    have hsmall : (decide (c.toLower.val ≥ 'a'.val) && decide (c.toLower.val ≤ 'z'.val)) = false := hd
    simp only [ge_iff_le, UInt32.le_iff_toNat_le, Char.reduceVal, UInt32.reduceToNat] at hc
    simp only [hval, ge_iff_le, UInt32.le_iff_toNat_le, UInt32.toNat_add, Char.reduceVal,
      UInt32.reduceSub, UInt32.reduceToNat, Bool.and_eq_false_iff, decide_eq_false_iff_not] at hsmall
    omega
  · have hsame : c.toLower = c := dif_neg hc
    exact hsame.symm

theorem closesRaw_mark {tag : String} (h : closesRaw tag cs = true) :
    ∃ rest, cs = '<' :: '/' :: rest := by
  simp only [closesRaw, Bool.and_eq_true, beq_iff_eq] at h
  obtain ⟨h, -⟩ := h
  match cs with
  | [] | [_] => simp at h
  | c :: d :: rest =>
    simp only [List.length_cons, List.take_succ_cons, List.map_cons, List.cons.injEq] at h
    obtain ⟨hc, hd, -⟩ := h
    obtain rfl : c = '<' := eq_of_toLower rfl hc
    obtain rfl : d = '/' := eq_of_toLower rfl hd
    exact ⟨rest, rfl⟩

theorem rawLength_mark {tag : String} (h : rawLength tag cs = some n) :
    ∃ rest, cs.drop n = '<' :: '/' :: rest := by
  induction cs generalizing n with
  | nil => simp [rawLength] at h
  | cons c cs ih =>
    simp only [rawLength] at h
    split at h
    · rename_i hclose
      simp only [Option.some.injEq] at h
      subst h
      exact closesRaw_mark hclose
    · obtain ⟨m, hm, rfl⟩ := Option.map_eq_some_iff.1 h
      exact ih hm

theorem rawTextAt_tile {tag : String} {stop : Nat} {tokens : List Token}
    (h : rawTextAt tag cs offset stop = .ok (some (tokens, n))) :
    Tiling Token.Reads offset (cs.take n) tokens [] := by
  unfold rawTextAt at h
  split at h
  · simp at h
  · rename_i m hm
    obtain ⟨⟨close, l⟩, hclose, h⟩ := bind_eq_ok.1 h
    simp only [Except.ok.injEq, Option.some.injEq, Prod.mk.injEq] at h
    obtain ⟨rfl, rfl⟩ := h
    obtain ⟨rest, hrest⟩ := rawLength_mark hm
    have hleft : cs.drop (m + 2) = rest := by rw [← List.drop_drop, hrest]; rfl
    have htake : cs.take (m + 2 + l) = cs.take m ++ ('<' :: '/' :: rest.take l) := by
      rw [Nat.add_assoc, List.take_add, hrest, Nat.add_comm 2 l]
      rfl
    rw [htake]
    apply (flush_whole rfl).append_solid
    apply Tiling.single
    rw [hleft] at hclose
    exact closeTagAt_reads hclose

/-- Pending text, and what follows it. -/
theorem flush_append (pending : List Char) {start : Nat} {tokens : List Token}
    (hoffset : offset = start + Text.width pending.reverse)
    (h : Tiling Token.Reads offset cs tokens []) :
    Tiling Token.Reads start (pending.reverse ++ cs) (flush pending start offset ++ tokens) [] := by
  apply (flush_tile pending hoffset).append_solid
  rwa [← hoffset]

/-- A token that reads the front of a text, and what follows it. -/
theorem tile_token (front : List Char) {t : Token} {tokens : List Token}
    (ht : t.Reads offset (front ++ rest.take n))
    (h : Tiling Token.Reads (after (offset + Text.width front) rest n) (rest.drop n) tokens []) :
    Tiling Token.Reads offset (front ++ rest) (t :: tokens) [] := by
  have htext : front ++ rest = (front ++ rest.take n) ++ rest.drop n := by
    rw [List.append_assoc, List.take_append_drop]
  rw [htext]
  apply Tiling.piece ht
  simpa [after, Nat.add_assoc] using h

/-- Running text is tiled without gaps, from the start of the pending text on. -/
theorem text_tile {stop : Nat} {pending : List Char} {start : Nat} {tokens : List Token}
    {state : LexState} (h : text stop cs offset pending start = .ok (tokens, state))
    (hoffset : offset = start + Text.width pending.reverse)
    (hstop : stop = offset + Text.width cs) :
    Tiling Token.Reads start (pending.reverse ++ cs) tokens [] := by
  induction cs, offset, pending, start using text.induct generalizing tokens state with
  | case1 offset pending start =>
    simp only [text, Except.ok.injEq, Prod.mk.injEq] at h
    rw [← h.1, List.append_nil]
    exact flush_tile pending hoffset
  | case2 offset pending start rest hcut =>
    -- a comment that goes on past the chunk
    simp only [text] at h
    split at h
    · simp only [Except.ok.injEq, Prod.mk.injEq] at h
      rw [← h.1]
      exact flush_append pending hoffset (flush_whole hstop)
    · simp_all
  | case3 offset pending start rest inside tail hcut next =>
    rename_i ih
    simp only [text] at h
    split at h
    · simp_all
    · rename_i inside' tail' hcut'
      obtain ⟨rfl, rfl⟩ : inside = inside' ∧ tail = tail' := by simpa [hcut] using hcut'
      obtain ⟨⟨more, state'⟩, hmore, h⟩ := bind_eq_ok.1 h
      simp only [Except.ok.injEq, Prod.mk.injEq] at h
      obtain ⟨rfl, -⟩ := h
      have htext : '<' :: '!' :: '-' :: '-' :: rest =
          (['<', '!', '-', '-'] ++ inside ++ ['-', '-', '>']) ++ tail := by
        simp [Text.eq_of_cut? hcut]
      rw [htext] at hstop ⊢
      have hnext : next = offset + Text.width (['<', '!', '-', '-'] ++ inside ++ ['-', '-', '>']) := by
        simp [next, Text.units]; omega
      have hend : stop = next + Text.width tail := by
        rw [hstop, Text.width_append, hnext]
        omega
      rw [List.append_assoc (flush pending start offset)]
      apply flush_append pending hoffset
      exact flush_before hnext (ih hmore rfl hend)
  | case4 offset pending start rest hno hcut =>
    simp only [text] at h
    split at h <;> simp_all
  | case5 offset pending start rest hno inside tail hcut ih =>
    simp only [text] at h
    split at h
    · simp at h
    · rename_i inside' tail' hcut'
      obtain ⟨rfl, rfl⟩ : inside = inside' ∧ tail = tail' := by simpa [hcut] using hcut'
      have htext := Text.eq_of_cut? hcut
      have hmore := ih h (by simp [hoffset, Text.units]; omega)
        (by simp [hstop, htext, Text.units]; omega)
      simpa [htext] using hmore
  | case6 offset pending start rest ih =>
    simp only [text] at h
    obtain ⟨⟨close, n⟩, hclose, h⟩ := bind_eq_ok.1 h
    obtain ⟨⟨more, state'⟩, hmore, h⟩ := bind_eq_ok.1 h
    simp only [Except.ok.injEq, Prod.mk.injEq] at h
    rw [← h.1]
    apply flush_append pending hoffset
    apply tile_token ['<', '/'] (closeTagAt_reads hclose)
    exact ih _ hmore rfl (by rw [after_width, hstop]; simp [Text.units]; omega)
  | case7 offset pending start rest _ _ _ hname ih ihraw =>
    simp only [text, hname, if_true] at h
    obtain ⟨⟨tag, n⟩, htag, h⟩ := bind_eq_ok.1 h
    have hend : stop = after (offset + 1) rest n + Text.width (rest.drop n) := by
      rw [after_width, hstop]
      simp [Text.units]; omega
    dsimp only at h
    split at h
    · obtain ⟨⟨more, state'⟩, hmore, h⟩ := bind_eq_ok.1 h
      simp only [Except.ok.injEq, Prod.mk.injEq, List.append_assoc] at h
      rw [← h.1]
      apply flush_append pending hoffset
      apply tile_token ['<'] (openTagAt_reads htag)
      exact ih _ hmore rfl hend
    · obtain ⟨raw, hraw, h⟩ := bind_eq_ok.1 h
      cases raw with
      | none =>
        -- raw text that goes on past the chunk
        simp only [Except.ok.injEq, Prod.mk.injEq, List.append_assoc] at h
        rw [← h.1]
        apply flush_append pending hoffset
        apply tile_token ['<'] (openTagAt_reads htag)
        exact flush_whole hend
      | some raw =>
        obtain ⟨inner, m⟩ := raw
        obtain ⟨⟨more, state'⟩, hmore, h⟩ := bind_eq_ok.1 h
        simp only [Except.ok.injEq, Prod.mk.injEq, List.append_assoc] at h
        rw [← h.1]
        apply flush_append pending hoffset
        apply tile_token ['<'] (openTagAt_reads htag)
        rw [← List.take_append_drop m (rest.drop n)]
        apply (rawTextAt_tile hraw).append_solid
        exact ihraw _ _ hmore rfl (by rw [after_width, hend])
  | case8 offset pending start rest _ _ _ hname ih =>
    simp only [text, hname] at h
    have hmore := ih h (by simp [hoffset, Text.units]; omega) (by simp [hstop, Text.units]; omega)
    simpa using hmore
  | case9 offset pending start rest ih =>
    simp only [text] at h
    obtain ⟨⟨slice, n⟩, hcode, h⟩ := bind_eq_ok.1 h
    obtain ⟨⟨more, state'⟩, hmore, h⟩ := bind_eq_ok.1 h
    simp only [Except.ok.injEq, Prod.mk.injEq] at h
    rw [← h.1]
    apply flush_append pending hoffset
    apply tile_token ['{']
    · exact ⟨by simp, span_after ['{'] .., (codeAt_written hcode).2⟩
    · exact ih _ hmore rfl (by rw [after_width, hstop]; simp [Text.units]; omega)
  | case10 offset pending start c rest _ _ _ hlt hbrace ih =>
    simp only [text] at h
    have hmore := ih h (by simp [hoffset]; omega) (by simp [hstop]; omega)
    simpa using hmore

theorem chunk_tile {state after_ : LexState} {tokens : List Token}
    (h : chunk cs state offset = .ok (tokens, after_)) :
    Tiling Token.Reads offset cs tokens [] := by
  unfold chunk at h
  cases state with
  | text => simpa using text_tile h rfl rfl
  | comment start =>
    dsimp only at h
    split at h
    · simp only [Except.ok.injEq, Prod.mk.injEq] at h
      rw [← h.1]
      exact flush_whole rfl
    · rename_i inside tail hcut
      obtain ⟨⟨more, state'⟩, hmore, h⟩ := bind_eq_ok.1 h
      simp only [Except.ok.injEq, Prod.mk.injEq] at h
      obtain ⟨rfl, -⟩ := h
      have htext := Text.eq_of_cut? hcut
      rw [← List.append_assoc] at htext
      rw [htext] at hmore ⊢
      have hnext : offset + Text.width inside + 3 =
          offset + Text.width (inside ++ ['-', '-', '>']) := by
        simp [Text.units]; omega
      apply flush_before hnext
      simpa using text_tile hmore rfl (by rw [Text.width_append, hnext]; omega)
  | rawText tag =>
    obtain ⟨raw, hraw, h⟩ := bind_eq_ok.1 h
    cases raw with
    | none =>
      simp only [Except.ok.injEq, Prod.mk.injEq] at h
      rw [← h.1]
      exact flush_whole rfl
    | some raw =>
      obtain ⟨inner, m⟩ := raw
      obtain ⟨⟨more, state'⟩, hmore, h⟩ := bind_eq_ok.1 h
      simp only [Except.ok.injEq, Prod.mk.injEq] at h
      obtain ⟨rfl, -⟩ := h
      rw [← List.take_append_drop m cs]
      apply (rawTextAt_tile hraw).append_solid
      simpa [after] using text_tile hmore rfl (by rw [after_width])

end Lexer

end LiveTemplate
