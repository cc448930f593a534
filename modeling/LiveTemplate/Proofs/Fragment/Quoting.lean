import LiveTemplate.Fingerprint
import LiveTemplate.Value.Json
import Mathlib.Data.List.Forall2
import Mathlib.Tactic.SplitIfs

/-!
The text behind a fingerprint can be read back. A quoted text ends at its quote and a list in
brackets at its bracket, so what is written can be told from what follows it. This text is the
interchange text of a list of lists: of the static texts, and of a pair for each hole. It determines
them, however they spell the quotes, brackets and commas around them, and so do its bytes.
-/

namespace LiveTemplate

set_option autoImplicit false

/-- Written forms that can be told apart with anything after them. -/
def SelfDelimiting {α : Type} (write : α → List Char) : Prop :=
  ∀ a b x y, write a ++ x = write b ++ y → a = b ∧ x = y

namespace Text.Quoted

/-- The number a hexadecimal digit stands for. -/
def digitValue (c : Char) : Nat :=
  if c.toNat < 'a'.toNat then c.toNat - '0'.toNat else c.toNat - 'a'.toNat + 10

/-- The character at the front of the body of a quoted text, and what is left of the text. -/
def unescape : List Char → Option (Char × List Char)
  | '\\' :: 'u' :: _ :: _ :: high :: low :: rest =>
    some (Char.ofNat (16 * digitValue high + digitValue low), rest)
  | '\\' :: 'b' :: rest => some ('\x08', rest)
  | '\\' :: 't' :: rest => some ('\t', rest)
  | '\\' :: 'n' :: rest => some ('\n', rest)
  | '\\' :: 'f' :: rest => some ('\x0c', rest)
  | '\\' :: 'r' :: rest => some ('\x0d', rest)
  | '\\' :: c :: rest => some (c, rest)
  | c :: rest => some (c, rest)
  | [] => none

theorem digitValue_hexDigit : ∀ n < 16, digitValue (hexDigit n) = n := by decide

theorem unescape_escape (c : Char) (rest : List Char) :
    unescape (escape c ++ rest) = some (c, rest) := by
  unfold escape
  split_ifs with h₁ h₂ h₃ h₄ h₅ h₆ h₇ hcontrol
  · subst h₁; rfl
  · subst h₂; rfl
  · subst h₃; rfl
  · subst h₄; rfl
  · subst h₅; rfl
  · subst h₆; rfl
  · subst h₇; rfl
  · -- the code of a control character has two digits
    have hhigh : digitValue (hexDigit (c.toNat / 16 % 16)) = c.toNat / 16 % 16 :=
      digitValue_hexDigit _ (Nat.mod_lt _ (by decide))
    have hlow : digitValue (hexDigit (c.toNat % 16)) = c.toNat % 16 :=
      digitValue_hexDigit _ (Nat.mod_lt _ (by decide))
    have hcode : 16 * (c.toNat / 16 % 16) + c.toNat % 16 = c.toNat := by omega
    rw [hex4, List.cons_append, List.cons_append, List.cons_append, List.cons_append,
      List.cons_append, List.cons_append, List.nil_append, unescape, hhigh, hlow, hcode,
      Char.ofNat_toNat]
  · simp [unescape, h₂]

theorem escape_selfDelimiting : SelfDelimiting escape := by
  intro c d x y h
  have hread := congrArg unescape h
  rw [unescape_escape, unescape_escape] at hread
  simpa using hread

/-- No written form of a character begins with a quote. -/
theorem escape_head (c : Char) (rest : List Char) : (escape c ++ rest).head? ≠ some '\x22' := by
  unfold escape
  split_ifs <;> simp_all

/-- The body of a quoted text ends at the first quote that stands by itself. -/
theorem encode_eq {cs ds x y : List Char}
    (h : encode cs ++ '\x22' :: x = encode ds ++ '\x22' :: y) : cs = ds ∧ x = y := by
  induction cs generalizing ds with
  | nil =>
    cases ds with
    | nil => simpa [encode] using h
    | cons d ds =>
      have hhead := escape_head d (encode ds ++ '\x22' :: y)
      simp only [encode, List.flatMap_nil, List.nil_append, List.flatMap_cons,
        List.append_assoc] at h hhead
      rw [← h] at hhead
      simp at hhead
  | cons c cs ih =>
    cases ds with
    | nil =>
      have hhead := escape_head c (encode cs ++ '\x22' :: x)
      simp only [encode, List.flatMap_nil, List.nil_append, List.flatMap_cons,
        List.append_assoc] at h hhead
      rw [h] at hhead
      simp at hhead
    | cons d ds =>
      simp only [encode, List.flatMap_cons, List.append_assoc] at h
      obtain ⟨rfl, hrest⟩ := escape_selfDelimiting c d _ _ h
      obtain ⟨rfl, rfl⟩ := ih hrest
      exact ⟨rfl, rfl⟩

end Text.Quoted

namespace Fingerprint

theorem quoted_selfDelimiting : SelfDelimiting quoted := by
  intro s t x y h
  simp only [quoted, List.cons_append, List.append_assoc, List.cons.injEq, true_and,
    List.nil_append] at h
  obtain ⟨hst, hxy⟩ := Text.Quoted.encode_eq h
  exact ⟨String.toList_inj.1 hst, hxy⟩

/-- What follows the first item of a list in brackets. -/
def bracketTail (items : List (List Char)) : List Char :=
  items.flatMap (fun item => ',' :: item) ++ [']']

theorem bracket_cons (item : List Char) (items : List (List Char)) :
    bracket (item :: items) = '[' :: item ++ bracketTail items := by
  induction items generalizing item with
  | nil => simp [bracket, bracketTail, List.intercalate_singleton]
  | cons next more ih =>
    have hmore := ih next
    simp only [bracket, List.cons_append, List.cons.injEq, true_and] at hmore ⊢
    rw [List.intercalate_cons_cons, List.append_assoc, List.append_assoc, hmore]
    simp [bracketTail]

section Brackets
variable {α : Type} {write : α → List Char} (hwrite : SelfDelimiting write)
include hwrite

theorem bracketTail_eq {as bs : List α} {x y : List Char}
    (h : bracketTail (as.map write) ++ x = bracketTail (bs.map write) ++ y) : as = bs ∧ x = y := by
  induction as generalizing bs with
  | nil =>
    cases bs with
    | nil => simpa [bracketTail] using h
    | cons b bs => simp [bracketTail] at h
  | cons a as ih =>
    cases bs with
    | nil => simp [bracketTail] at h
    | cons b bs =>
      simp only [bracketTail, List.map_cons, List.flatMap_cons, List.cons_append,
        List.append_assoc, List.cons.injEq, true_and] at h
      obtain ⟨rfl, hrest⟩ := hwrite a b _ _ h
      simp only [bracketTail, List.append_assoc] at ih
      obtain ⟨rfl, rfl⟩ := ih hrest
      exact ⟨rfl, rfl⟩

/-- Lists in brackets can be told apart if their items can, and no item begins with a bracket that
closes. -/
theorem bracket_selfDelimiting (hhead : ∀ a x, (write a ++ x).head? ≠ some ']') :
    SelfDelimiting fun as : List α => bracket (as.map write) := by
  intro as bs x y h
  cases as with
  | nil =>
    cases bs with
    | nil => simpa [bracket] using h
    | cons b bs =>
      exfalso
      have hb := hhead b (bracketTail (bs.map write) ++ y)
      simp only [List.map_nil, List.map_cons, bracket_cons, List.cons_append, List.append_assoc] at h
      simp only [bracket, List.intercalate_nil, List.nil_append, List.cons_append,
        List.cons.injEq, true_and] at h
      rw [← h] at hb
      simp at hb
  | cons a as =>
    cases bs with
    | nil =>
      exfalso
      have ha := hhead a (bracketTail (as.map write) ++ x)
      simp only [List.map_nil, List.map_cons, bracket_cons, List.cons_append, List.append_assoc] at h
      simp only [bracket, List.intercalate_nil, List.nil_append, List.cons_append,
        List.cons.injEq, true_and] at h
      rw [h] at ha
      simp at ha
    | cons b bs =>
      simp only [List.map_cons, bracket_cons, List.cons_append, List.append_assoc,
        List.cons.injEq, true_and] at h
      obtain ⟨rfl, hrest⟩ := hwrite a b _ _ h
      obtain ⟨rfl, rfl⟩ := bracketTail_eq hwrite hrest
      exact ⟨rfl, rfl⟩

end Brackets

/-- A list in brackets begins with the bracket that opens. -/
theorem bracket_head (items : List (List Char)) (x : List Char) :
    (bracket items ++ x).head? ≠ some ']' := by
  simp [bracket]

theorem quotedList_selfDelimiting :
    SelfDelimiting fun texts : List String => bracket (texts.map quoted) :=
  bracket_selfDelimiting quoted_selfDelimiting fun s x => by simp [quoted]

theorem pair_selfDelimiting :
    SelfDelimiting fun p : String × String => bracket [quoted p.1, quoted p.2] := by
  intro p q x y h
  obtain ⟨hpq, hxy⟩ := quotedList_selfDelimiting [p.1, p.2] [q.1, q.2] x y h
  simp only [List.cons.injEq, and_true] at hpq
  exact ⟨Prod.ext hpq.1 hpq.2, hxy⟩

theorem pairList_selfDelimiting : SelfDelimiting fun parts : List (String × String) =>
    bracket (parts.map fun p => bracket [quoted p.1, quoted p.2]) :=
  bracket_selfDelimiting pair_selfDelimiting fun _ _ => bracket_head _ _

/-- The text that is digested can be read back. -/
theorem parts_of_text_eq {statics statics' : List String} {parts parts' : List (String × String)}
    (h : text statics parts = text statics' parts') : statics = statics' ∧ parts = parts' := by
  rw [text, text, bracket_cons, bracket_cons] at h
  simp only [List.cons_append, List.cons.injEq, true_and] at h
  obtain ⟨hstatics, hparts⟩ := quotedList_selfDelimiting statics statics' _ _ h
  simp only [bracketTail, List.flatMap_cons, List.flatMap_nil, List.append_nil, List.cons_append,
    List.cons.injEq, true_and] at hparts
  exact ⟨hstatics, (pairList_selfDelimiting parts parts' _ _ hparts).1⟩

end Fingerprint

/-! ### Interchange texts -/

namespace Value

/-- A value has one interchange text, whatever key it stands under. -/
def Interchanges (call : Call) (depth : Nat) (v : Value) (cs : List Char) : Prop :=
  ∀ key, v.jsonWithin call depth key = pure (some (String.ofList cs))

variable {call : Call} {depth : Nat}

theorem interchanges_text (s : String) :
    Interchanges call (depth + 1) (.text s) (Fingerprint.quoted s) := fun _ => rfl

/-- Items are written one after the other, each under its index. -/
theorem mapM_interchanges {values : List Value} {texts : List (List Char)}
    (h : List.Forall₂ (Interchanges call depth) values texts) (start : Nat) :
    (values.zipIdx start).mapM (fun item => jsonWithin call depth (toString item.2) item.1) =
      pure (texts.map fun cs => some (String.ofList cs)) := by
  induction h generalizing start with
  | nil => rfl
  | cons hfirst _ ih =>
    rw [List.zipIdx_cons, List.mapM_cons, hfirst (toString start), ih (start + 1)]
    rfl

theorem jsonWithin_list (key : String) (id : Identity) (values : List Value) :
    jsonWithin call (depth + 1) key (.list id values) = (do
      let texts ← values.zipIdx.mapM fun item => jsonWithin call depth (toString item.2) item.1
      return some ("[" ++ String.intercalate "," (texts.map fun t => t.getD "null") ++ "]")) := rfl

/-- The texts of items in brackets. -/
theorem ofList_bracket (items : List (List Char)) :
    "[" ++ String.intercalate "," (items.map String.ofList) ++ "]" =
      String.ofList (Fingerprint.bracket items) := by
  rw [← String.toList_inj]
  have hitems : String.toList ∘ String.ofList = id := funext fun _ => String.toList_ofList
  simp only [String.toList_append, String.toList_intercalate, List.map_map, hitems, List.map_id,
    String.toList_ofList, Fingerprint.bracket]
  rfl

/-- A list is written as its items are, in brackets. -/
theorem interchanges_list {values : List Value} {texts : List (List Char)} (id : Identity)
    (h : List.Forall₂ (Interchanges call depth) values texts) :
    Interchanges call (depth + 1) (.list id values) (Fingerprint.bracket texts) := by
  intro key
  rw [jsonWithin_list, mapM_interchanges h, pure_bind, List.map_map, ← ofList_bracket]
  rfl

theorem interchanges_map {α : Type} {f : α → Value} {write : α → List Char} (items : List α)
    (h : ∀ a, Interchanges call depth (f a) (write a)) :
    List.Forall₂ (Interchanges call depth) (items.map f) (items.map write) := by
  rw [List.forall₂_map_left_iff, List.forall₂_map_right_iff, List.forall₂_same]
  exact fun a _ => h a

end Value

namespace Fingerprint

/-- The lists that are digested, as one value. -/
def value (id : Identity) (statics : List String) (parts : List (String × String)) : Value :=
  .list id [.list id (statics.map .text),
    .list id (parts.map fun p => .list id [.text p.1, .text p.2])]

theorem json_value (call : Call) (id : Identity) (statics : List String)
    (parts : List (String × String)) :
    (value id statics parts).json call = pure (String.ofList (text statics parts)) := by
  have hstatics : Value.Interchanges call 2999 (.list id (statics.map .text))
      (bracket (statics.map quoted)) :=
    Value.interchanges_list id (Value.interchanges_map statics Value.interchanges_text)
  have hpair : ∀ p : String × String, Value.Interchanges call 2998
      (.list id [.text p.1, .text p.2]) (bracket [quoted p.1, quoted p.2]) := fun p =>
    Value.interchanges_list id
      (.cons (Value.interchanges_text p.1) (.cons (Value.interchanges_text p.2) .nil))
  have hparts := Value.interchanges_list id (Value.interchanges_map parts hpair)
  have hboth : Value.Interchanges call Value.jsonDepth (value id statics parts)
      (text statics parts) :=
    Value.interchanges_list id (.cons hstatics (.cons hparts .nil))
  rw [Value.json, hboth ""]
  rfl

/-- The interchange text of the static texts and of the kinds and sources of the holes determines
them, and so do the bytes of it that are digested. -/
theorem text_determines (statics statics' : List String) (parts parts' : List (String × String)) :
    (∀ (call : Call) (id : Identity),
      (value id statics parts).json call = pure (String.ofList (text statics parts))) ∧
    (text statics parts = text statics' parts' ↔ statics = statics' ∧ parts = parts') ∧
    ((String.ofList (text statics parts)).toUTF8 = (String.ofList (text statics' parts')).toUTF8 ↔
      statics = statics' ∧ parts = parts') := by
  have htext : text statics parts = text statics' parts' ↔ statics = statics' ∧ parts = parts' := by
    refine ⟨parts_of_text_eq, ?_⟩
    rintro ⟨rfl, rfl⟩
    rfl
  refine ⟨fun call id => json_value call id statics parts, htext, ?_⟩
  rw [← htext]
  exact String.toByteArray_inj.trans String.ofList_inj

end Fingerprint

end LiveTemplate
