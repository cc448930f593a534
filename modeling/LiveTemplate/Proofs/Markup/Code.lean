import LiveTemplate.Proofs.Expr.Passing
import LiveTemplate.Proofs.Markup.Running

/-!
Code between braces. The lexer looks for the brace that closes another and knows nothing of
expressions, yet it finds the end of every expression whose template texts hold no bare back quote.
-/

namespace LiveTemplate

set_option autoImplicit false

/-- A template text that holds no back quote but behind a backslash, so no template is nested in it. -/
def Lexeme.isFlat : Lexeme → Bool
  | template raw => Text.quoteless '\x60' raw
  | _ => true

namespace Stream

/-- Whether no template of a stream nests another. -/
def isFlat : Stream → Bool
  | next t rest => t.lexeme.isFlat && rest.isFlat
  | done _ | bad _ => true

theorem isFlat_next {t : ExprToken} {s : Stream} (h : (next t s).isFlat = true) :
    t.lexeme.isFlat = true ∧ s.isFlat = true := by
  simpa [isFlat] using h

variable {cs : List Char} {base : Int} {s : Stream}

theorem isQuiet_of_blank {c : Char} (h : Text.isBlank c = true) : Text.isQuiet c = true :=
  Lexeme.isQuiet_of_class (by decide) h

/-- The text of a token stands behind blanks. -/
theorem ofText_next {t : ExprToken} (h : ofText cs base = .next t s)
    (hflat : t.lexeme.isFlat = true) :
    ∃ blanks front back base', cs = blanks ++ (front ++ back) ∧ s = ofText back base' ∧
      Text.Balanced blanks ∧ t.lexeme.Takes front := by
  induction cs, base using ofText.induct with
  | case1 base => simp [ofText] at h
  | case2 base c rest hblank ih =>
    rw [ofText, if_pos hblank] at h
    obtain ⟨blanks, front, back, base', rfl, hs, hblanks, hfront⟩ := ih h
    exact ⟨c :: blanks, front, back, base', rfl, hs, hblanks.cons (isQuiet_of_blank hblank), hfront⟩
  | case3 base c rest hblank f hread =>
    rw [ofText, if_neg hblank, hread] at h
    simp at h
  | case4 base c rest hblank lexeme n hread stop ih =>
    rw [ofText, if_neg hblank, hread] at h
    obtain ⟨rfl, rfl⟩ := Stream.next.inj h
    refine ⟨[], c :: rest.take n, rest.drop n, _, ?_, rfl, .nil, Lexeme.read_takes hread ?_⟩
    · simp
    · rintro raw rfl
      exact hflat

theorem ofText_done {stop : Int} (h : ofText cs base = .done stop) : Text.Balanced cs := by
  induction cs, base using ofText.induct with
  | case1 base => exact .nil
  | case2 base c rest hblank ih =>
    rw [ofText, if_pos hblank] at h
    exact (ih h).cons (isQuiet_of_blank hblank)
  | case3 base c rest hblank f hread =>
    rw [ofText, if_neg hblank, hread] at h
    simp at h
  | case4 base c rest hblank lexeme n hread stop ih =>
    rw [ofText, if_neg hblank, hread] at h
    simp at h

/-- Tokens whose braces match stand in balanced text. -/
theorem Passes.balanced {s s' : Stream} (h : s.Passes s') (hs : s = ofText cs base) (hflat : s.isFlat = true) :
    ∃ front back base', cs = front ++ back ∧ s' = ofText back base' ∧ s'.isFlat = true ∧
      Text.Balanced front := by
  induction h generalizing cs base with
  | refl s => exact ⟨[], cs, base, rfl, hs, hflat, .nil⟩
  | token ht _ ih =>
    obtain ⟨blanks, front, back, base', rfl, hrest, hblanks, hfront⟩ := ofText_next hs.symm (isFlat_next hflat).1
    obtain ⟨more, last, base'', rfl, hs', hflat', hmore⟩ := ih hrest (isFlat_next hflat).2
    refine ⟨blanks ++ (front ++ more), last, base'', by simp, hs', hflat',
      hblanks.append (.append ?_ hmore)⟩
    exact hfront.balanced ht
  | braces hin _ ihin ih =>
    obtain ⟨blanks, front, back, base', rfl, hrest, hblanks, hfront⟩ := ofText_next hs.symm (isFlat_next hflat).1
    obtain rfl := hfront.eq_openBrace
    obtain ⟨inside, last, base₁, rfl, hclose, hflat₁, hinside⟩ := ihin hrest (isFlat_next hflat).2
    obtain ⟨gap, front, back, base₂, rfl, hafter, hgap, hfront⟩ := ofText_next hclose.symm (isFlat_next hflat₁).1
    obtain rfl := hfront.eq_closeBrace
    obtain ⟨more, last, base₃, rfl, hs', hflat', hmore⟩ := ih hafter (isFlat_next hflat₁).2
    refine ⟨blanks ++ ('{' :: ((inside ++ gap) ++ ['}']) ++ more), last, base₃, by simp, hs', hflat', ?_⟩
    exact hblanks.append ((hinside.append hgap).braces.append hmore)

end Stream

/-- An expression without nested templates is balanced text. -/
theorem Expr.ofChars_balanced {code : List Char} {base : Int} {e : Expr}
    (h : Expr.ofChars code base = .ok e) (hflat : (Stream.ofText code base).isFlat = true) :
    Text.Balanced code := by
  obtain ⟨stop, hpasses⟩ := Expr.ofChars_passes h
  obtain ⟨front, back, base', rfl, hdone, -, hfront⟩ := hpasses.balanced rfl hflat
  exact hfront.append (Stream.ofText_done hdone.symm)

namespace Lexer

variable {code : List Char}

theorem codeAt_balanced (h : Text.Balanced code) (back : List Char) (open_ stop : Nat) :
    codeAt (code ++ '}' :: back) open_ stop =
      .ok (⟨String.ofList code, Span.along (open_ + 1) code⟩, code.length + 1) := by
  simp only [codeAt, h.closes back, Nat.add_sub_cancel, List.take_left]
  simp [Span.along]

theorem valueAt_balanced (h : Text.Balanced code) (ctx : TagContext) (name : String)
    (back : List Char) (offset : Nat) :
    valueAt ctx name ('{' :: (code ++ '}' :: back)) offset =
      .ok (.code ⟨String.ofList code, Span.along (offset + 1) code⟩, code.length + 2) := by
  simp only [valueAt, codeAt_balanced h]
  rfl

/-- Code between braces in running text is one token. -/
theorem chunk_balanced (h : Text.Balanced code) (offset : Nat) :
    chunk ('{' :: (code ++ ['}'])) .text offset =
      .ok ([.code .body ⟨String.ofList code, Span.along (offset + 1) code⟩
        (Span.along offset ('{' :: (code ++ ['}'])))], .text) := by
  have hnext : after (offset + 1) (code ++ ['}']) (code.length + 1) =
      offset + Text.width ('{' :: (code ++ ['}'])) := by
    rw [after, List.take_of_length_le (by simp)]
    simp [Text.units]
    omega
  have hdone : (code ++ ['}']).drop (code.length + 1) = [] := List.drop_of_length_le (by simp)
  simp only [chunk, text, codeAt_balanced h, bind, Except.bind, hnext, hdone]
  simp [flush, Span.along]

theorem count_append_cons {p : Char → Bool} {front back : List Char} {c : Char}
    (hfront : ∀ d ∈ front, p d = true) (hc : p c = false) :
    count p (front ++ c :: back) = front.length := by
  rw [count, List.takeWhile_append_of_pos hfront, List.takeWhile_cons_of_neg (by simp [hc]),
    List.append_nil]

theorem attributeAt_balanced (h : Text.Balanced code) {c : Char} {name : List Char}
    (hname : ∀ d ∈ c :: name, isAttributeNameChar d = true) (ctx : TagContext) (back : List Char)
    (offset : Nat) :
    attributeAt ctx c (name ++ '=' :: '{' :: (code ++ '}' :: back)) offset =
      .ok (.named (String.ofList (c :: name)) (.code ⟨String.ofList code,
        Span.along (offset + Text.width (c :: name) + 2) code⟩)
        (Span.along offset (c :: name ++ '=' :: '{' :: (code ++ ['}']))),
        name.length + code.length + 3) := by
  have htake : (c :: (name ++ '=' :: '{' :: (code ++ '}' :: back))).take (name.length + 1) =
      c :: name := by
    rw [← List.length_cons, ← List.cons_append, List.take_left]
  have hdrop : (c :: (name ++ '=' :: '{' :: (code ++ '}' :: back))).drop (name.length + 1) =
      '=' :: '{' :: (code ++ '}' :: back) := by
    rw [← List.length_cons, ← List.cons_append, List.drop_left]
  have hdropOne : (c :: (name ++ '=' :: '{' :: (code ++ '}' :: back))).drop (name.length + 1 + 1) =
      '{' :: (code ++ '}' :: back) := by
    rw [← List.drop_drop, hdrop, List.drop_succ_cons, List.drop_zero]
  have hat : NameAt (c :: (name ++ '=' :: '{' :: (code ++ '}' :: back))) (name.length + 1) 0 :=
    ⟨count_append_cons hname rfl, by simp, by rw [hdrop]; rfl, by rw [hdrop]; rfl⟩
  have hafter : after offset (c :: (name ++ '=' :: '{' :: (code ++ '}' :: back))) (name.length + 1 + 1) =
      offset + Text.width (c :: name) + 1 := by
    rw [after, List.take_add, htake, hdrop]
    simp [Text.units]
    omega
  have hend : after offset (c :: (name ++ '=' :: '{' :: (code ++ '}' :: back)))
      (name.length + 1 + 1 + (code.length + 2)) =
        offset + Text.width (c :: name ++ '=' :: '{' :: (code ++ ['}'])) := by
    have hcode : (code ++ '}' :: back).take (code.length + 1) = code ++ ['}'] :=
      List.take_length_add_append 1
    rw [after, Nat.add_assoc, List.take_add, htake, hdrop, Nat.add_comm 1, List.take_succ_cons,
      List.take_succ_cons, hcode]
  have hread := attributeAt_value (l := 0) (m := code.length + 2) ctx hat hdrop
    (by rw [Nat.add_zero, hdropOne]; rfl)
    (by rw [Nat.add_zero, Nat.add_zero, hdropOne, hafter]; exact valueAt_balanced h ..)
  have htaken : name.length + 1 + 1 + (code.length + 2) - 1 = name.length + code.length + 3 := by omega
  rw [hread, htake, Nat.add_zero, Nat.add_zero, hend, htaken]
  simp [Span.along, Nat.add_assoc]

/-- A tag with one attribute, whose value is code. -/
def tagAround (tag name code : List Char) : List Char :=
  '<' :: (tag ++ ' ' :: (name ++ '=' :: '{' :: (code ++ ['}', '>'])))

/-- What such a tag at an offset is read as. -/
def tagHolding (tag name code : List Char) (offset : Nat) : OpenTag :=
  ⟨String.ofList tag, TagKind.ofName (String.ofList tag),
    [.named (String.ofList name)
      (.code ⟨String.ofList code, Span.along (offset + Text.width tag + Text.width name + 4) code⟩)
      (Span.along (offset + Text.width tag + 2) (name ++ '=' :: '{' :: (code ++ ['}'])))],
    false, Span.along offset (tagAround tag name code)⟩

theorem isAttributeNameChar_not {c : Char} (h : isAttributeNameChar c = true) :
    isTagBlank c = false ∧ c ≠ '>' ∧ c ≠ '/' ∧ c ≠ '{' := by
  simp only [isAttributeNameChar, Bool.and_eq_true, Bool.not_eq_true'] at h
  obtain ⟨hblank, hbreaker⟩ := h
  refine ⟨hblank, ?_, ?_, ?_⟩ <;> rintro rfl <;> exact absurd hbreaker (by decide)

/-- The only attribute of a tag and the end of the tag. -/
theorem attributesAt_balanced (h : Text.Balanced code) {name : List Char} (ctx : TagContext)
    (hname : ∀ d ∈ name, isAttributeNameChar d = true) (hne : name ≠ []) (offset : Nat) :
    attributesAt ctx (' ' :: (name ++ '=' :: '{' :: (code ++ ['}', '>']))) offset =
      .ok ([.named (String.ofList name)
        (.code ⟨String.ofList code, Span.along (offset + Text.width name + 3) code⟩)
        (Span.along (offset + 1) (name ++ '=' :: '{' :: (code ++ ['}'])))],
        false, name.length + code.length + 5) := by
  obtain ⟨c, name, rfl⟩ := List.exists_cons_of_ne_nil hne
  obtain ⟨hblank, hend, hslash, hbrace⟩ := isAttributeNameChar_not (hname c List.mem_cons_self)
  have hcount : count isTagBlank (' ' :: (c :: name ++ '=' :: '{' :: (code ++ ['}', '>']))) = 1 := by
    rw [count, List.takeWhile_cons_of_pos (by rfl), List.cons_append,
      List.takeWhile_cons_of_neg (by simp [hblank])]
    rfl
  have hdrop : (' ' :: (c :: name ++ '=' :: '{' :: (code ++ ['}', '>']))).drop 1 =
      c :: (name ++ '=' :: '{' :: (code ++ ['}', '>'])) := rfl
  have hlast : (name ++ '=' :: '{' :: (code ++ ['}', '>'])).drop (name.length + code.length + 3) =
      ['>'] := by
    rw [Nat.add_assoc, List.drop_length_add_append, List.drop_succ_cons, List.drop_succ_cons,
      List.drop_length_add_append]
    rfl
  have hhere : after offset (' ' :: (c :: name ++ '=' :: '{' :: (code ++ ['}', '>']))) 1 = offset + 1 := rfl
  rw [attributesAt_named ctx (by rw [hcount, hdrop]) hend (fun _ hc => absurd hc hslash) hbrace, hcount,
    hhere, bind_eq_ok]
  refine ⟨_, attributeAt_balanced h hname ctx ['>'] (offset + 1), ?_⟩
  rw [bind_eq_ok]
  refine ⟨([], false, 1), ?_, ?_⟩
  · rw [hlast]
    exact attributesAt_end ctx rfl
  · have htaken : 1 + 1 + (name.length + code.length + 3) + 1 = (c :: name).length + code.length + 5 := by
      rw [List.length_cons]
      omega
    have hoffset : offset + 1 + Text.width (c :: name) + 2 = offset + Text.width (c :: name) + 3 := by
      omega
    simp only [htaken, hoffset]

/-- A tag with code as the value of its attribute is one token that holds the code. -/
theorem chunk_tagAround (h : Text.Balanced code) {tag name : List Char} (offset : Nat)
    (htag : ∀ d ∈ tag, isTagNameChar d = true) (hstarts : startsName tag = true)
    (hkind : (TagKind.ofName (String.ofList tag)).admits tag = true)
    (hname : ∀ d ∈ name, isAttributeNameChar d = true) (hne : name ≠ []) :
    chunk (tagAround tag name code) .text offset =
      .ok ([.openTag (tagHolding tag name code offset)],
        (rawTextOf (tagHolding tag name code offset)).elim .text .rawText) := by
  have hcount : count isTagNameChar (tag ++ ' ' :: (name ++ '=' :: '{' :: (code ++ ['}', '>']))) =
      tag.length := count_append_cons htag rfl
  have hlength : (tag ++ ' ' :: (name ++ '=' :: '{' :: (code ++ ['}', '>']))).length =
      tag.length + (name.length + code.length + 5) := by
    simp only [List.length_append, List.length_cons, List.length_nil]
    omega
  have hopen : ∀ stop, openTagAt (tag ++ ' ' :: (name ++ '=' :: '{' :: (code ++ ['}', '>']))) offset
      stop = .ok (tagHolding tag name code offset, tag.length + (name.length + code.length + 5)) := by
    intro stop
    simp only [openTagAt, hcount, List.take_left, List.drop_left, kindOf, hkind, if_true]
    rw [bind_eq_ok]
    refine ⟨_, rfl, ?_⟩
    rw [if_pos (by rfl), bind_eq_ok]
    refine ⟨_, attributesAt_balanced h _ hname hne _, ?_⟩
    have hhere : after (offset + 1) (tag ++ ' ' :: (name ++ '=' :: '{' :: (code ++ ['}', '>']))) tag.length =
        offset + Text.width tag + 1 := by
      rw [after, List.take_left]
      omega
    have hend : after (offset + 1) (tag ++ ' ' :: (name ++ '=' :: '{' :: (code ++ ['}', '>'])))
        (tag.length + (name.length + code.length + 5)) =
          offset + Text.width (tagAround tag name code) := by
      rw [← hlength, after, List.take_length]
      simp [tagAround, Text.units]
      omega
    have hcode : offset + Text.width tag + 1 + Text.width name + 3 =
        offset + Text.width tag + Text.width name + 4 := by
      omega
    simp only [hhere, hend, hcode]
    simp [tagHolding, Span.along, Nat.add_assoc]
  have hdrop : (tag ++ ' ' :: (name ++ '=' :: '{' :: (code ++ ['}', '>']))).drop
      (tag.length + (name.length + code.length + 5)) = [] :=
    List.drop_of_length_le (Nat.le_of_eq hlength)
  have hname := startsName_append (' ' :: (name ++ '=' :: '{' :: (code ++ ['}', '>']))) hstarts
  cases hraw : rawTextOf (tagHolding tag name code offset) with
  | none =>
    rw [chunk, tagAround, text_open [] hname (hopen _) hraw, hdrop, text]
    rfl
  | some raw =>
    rw [chunk, tagAround, text_open_raw [] hname (hopen _) hraw rfl, hdrop]
    rfl

/-- Code is recovered whole where it stands between braces: in running text as one token, and as the
value of an attribute, whatever comes after it. -/
structure Recovers (code : List Char) : Prop where
  body : ∀ offset, chunk ('{' :: (code ++ ['}'])) .text offset =
    .ok ([.code .body ⟨String.ofList code, Span.along (offset + 1) code⟩
      (Span.along offset ('{' :: (code ++ ['}'])))], .text)
  value : ∀ ctx name back offset, valueAt ctx name ('{' :: (code ++ '}' :: back)) offset =
    .ok (.code ⟨String.ofList code, Span.along (offset + 1) code⟩, code.length + 2)
  tag : ∀ tag name offset, (∀ d ∈ tag, isTagNameChar d = true) → startsName tag = true →
    (TagKind.ofName (String.ofList tag)).admits tag = true →
    (∀ d ∈ name, isAttributeNameChar d = true) → name ≠ [] →
    chunk (tagAround tag name code) .text offset =
      .ok ([.openTag (tagHolding tag name code offset)],
        (rawTextOf (tagHolding tag name code offset)).elim .text .rawText)

end Lexer

/-- Between braces the lexer finds every expression that nests no templates. -/
theorem Expr.recovered {code : List Char} {base : Int} {e : Expr}
    (h : Expr.ofChars code base = .ok e) (hflat : (Stream.ofText code base).isFlat = true) :
    Lexer.Recovers code := by
  have hcode := Expr.ofChars_balanced h hflat
  constructor
  case body => exact Lexer.chunk_balanced hcode
  case value => exact Lexer.valueAt_balanced hcode
  case tag =>
    intro tag name offset htag hstarts hkind hname hne
    exact Lexer.chunk_tagAround hcode offset htag hstarts hkind hname hne

theorem Expr.braces_recovered :
    let code := "f(\x7ba: \x22\x7d\x22, b: \x60\x7b\\\x60$\x7bg(\x7b\x7d)\x7d\x60\x7d)".toList
    (∃ e, Expr.ofChars code 0 = .ok e) ∧ (Stream.ofText code 0).isFlat = true ∧
      Lexer.Recovers code := by
  intro code
  have hread : ((Expr.ofChars code 0).toOption).isSome = true := by decide +kernel
  obtain ⟨e, he⟩ := Option.isSome_iff_exists.1 hread
  have hflat : (Stream.ofText code 0).isFlat = true := by decide +kernel
  exact ⟨⟨e, toOption_eq_some.1 he⟩, hflat, Expr.recovered (toOption_eq_some.1 he) hflat⟩

end LiveTemplate
