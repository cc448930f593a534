import LiveTemplate.Proofs.Html.Encoding

/-!
Escaped text can be read back. An ampersand is written only at the front of an entity, so that
reading the entities from left to right finds the characters that were written, whatever the text
itself spells. Texts are escaped piece by piece.
-/

namespace LiveTemplate.Html

set_option autoImplicit false

/-- What an ampersand in an escaped text begins. -/
def entities : List (List Char) :=
  [['&', 'a', 'm', 'p', ';'], ['&', 'l', 't', ';'], ['&', 'g', 't', ';'],
    ['&', 'q', 'u', 'o', 't', ';'], ['&', '#', '3', '9', ';']]

/-- Reads the entities of a text from left to right; all else stands for itself. -/
def unescapeChars : List Char → List Char
  | '&' :: 'a' :: 'm' :: 'p' :: ';' :: rest => '&' :: unescapeChars rest
  | '&' :: 'l' :: 't' :: ';' :: rest => '<' :: unescapeChars rest
  | '&' :: 'g' :: 't' :: ';' :: rest => '>' :: unescapeChars rest
  | '&' :: 'q' :: 'u' :: 'o' :: 't' :: ';' :: rest => '\x22' :: unescapeChars rest
  | '&' :: '#' :: '3' :: '9' :: ';' :: rest => '\x27' :: unescapeChars rest
  | c :: rest => c :: unescapeChars rest
  | [] => []

def unescape (s : String) : String := String.ofList (unescapeChars s.toList)

theorem unescapeChars_cons {c : Char} (h : c ≠ '&') (rest : List Char) :
    unescapeChars (c :: rest) = c :: unescapeChars rest := by
  conv_lhs => unfold unescapeChars
  split <;> simp_all

/-- A character is written as an entity, or it is no ampersand and is written as it is. -/
theorem entity_cases (c : Char) :
    (entity c ∈ entities ∧
      ∀ rest, unescapeChars (entity c ++ rest) = c :: unescapeChars rest) ∨
      entity c = [c] ∧ c ≠ '&' := by
  unfold entity
  split
  · rename_i h
    exact .inl ⟨by decide, fun rest => by rw [h]; rfl⟩
  · rename_i hamp
    split
    · rename_i h
      exact .inl ⟨by decide, fun rest => by rw [h]; rfl⟩
    split
    · rename_i h
      exact .inl ⟨by decide, fun rest => by rw [h]; rfl⟩
    split
    · rename_i h
      exact .inl ⟨by decide, fun rest => by rw [h]; rfl⟩
    split
    · rename_i h
      exact .inl ⟨by decide, fun rest => by rw [h]; rfl⟩
    · exact .inr ⟨rfl, hamp⟩

theorem unescapeChars_entity (c : Char) (rest : List Char) :
    unescapeChars (entity c ++ rest) = c :: unescapeChars rest := by
  rcases entity_cases c with ⟨-, h⟩ | ⟨h, hamp⟩
  · exact h rest
  · rw [h, List.singleton_append, unescapeChars_cons hamp]

theorem unescapeChars_escapeChars (cs : List Char) : unescapeChars (escapeChars cs) = cs := by
  induction cs with
  | nil => rfl
  | cons c cs ih =>
    rw [escapeChars, List.flatMap_cons, unescapeChars_entity, ← escapeChars, ih]

theorem unescape_escape (s : String) : unescape (escape s) = s := by
  rw [unescape, escape, String.toList_ofList, unescapeChars_escapeChars, String.ofList_toList]

theorem escape_inj {s t : String} : escape s = escape t ↔ s = t := by
  refine ⟨fun h => ?_, congrArg escape⟩
  rw [← unescape_escape s, h, unescape_escape]

theorem escape_append (s t : String) : escape (s ++ t) = escape s ++ escape t := by
  rw [escape, escape, escape, ← String.ofList_append, String.toList_append, escapeChars,
    List.flatMap_append]
  rfl

/-! ### Ampersands -/

/-- Every ampersand begins an entity. -/
def AmpersandsRead (cs : List Char) : Prop :=
  ∀ front back, cs = front ++ '&' :: back → ∃ e ∈ entities, e <+: '&' :: back

theorem ampersandsRead_nil : AmpersandsRead [] := by
  intro front back h
  simp at h

/-- The only ampersand of an entity is the one it begins with. -/
theorem entities_split : ∀ e ∈ entities, ∃ more, e = '&' :: more ∧ '&' ∉ more := by
  simp [entities]

theorem AmpersandsRead.cons {c : Char} {cs : List Char} (hc : c ≠ '&') (h : AmpersandsRead cs) :
    AmpersandsRead (c :: cs) := by
  intro front back heq
  cases front with
  | nil => exact absurd (List.cons.inj heq).1 hc
  | cons d front => exact h front back (List.cons.inj heq).2

theorem AmpersandsRead.append_quiet {front cs : List Char} (hfront : '&' ∉ front)
    (h : AmpersandsRead cs) : AmpersandsRead (front ++ cs) := by
  induction front with
  | nil => exact h
  | cons c front ih =>
    rw [List.mem_cons, not_or] at hfront
    exact AmpersandsRead.cons (Ne.symm hfront.1) (ih hfront.2)

theorem AmpersandsRead.entity {e cs : List Char} (he : e ∈ entities) (h : AmpersandsRead cs) :
    AmpersandsRead (e ++ cs) := by
  obtain ⟨more, rfl, hmore⟩ := entities_split e he
  intro front back heq
  cases front with
  | nil =>
    refine ⟨_, he, ?_⟩
    rw [List.nil_append] at heq
    rw [← heq]
    exact List.prefix_append _ cs
  | cons d front => exact h.append_quiet hmore front back (List.cons.inj heq).2

theorem ampersandsRead_escapeChars (cs : List Char) : AmpersandsRead (escapeChars cs) := by
  induction cs with
  | nil => exact ampersandsRead_nil
  | cons c cs ih =>
    rw [escapeChars, List.flatMap_cons, ← escapeChars]
    rcases entity_cases c with ⟨h, -⟩ | ⟨h, hamp⟩
    · exact ih.entity h
    · rw [h, List.singleton_append]
      exact ih.cons hamp

theorem ampersandsRead_escape (s : String) : AmpersandsRead (escape s).toList := by
  rw [escape, String.toList_ofList]
  exact ampersandsRead_escapeChars s.toList

/-! ### Filling in -/

theorem pure_inj {s t : String} : (pure s : Eval String) = pure t ↔ s = t := by
  refine ⟨fun h => ?_, congrArg pure⟩
  have hrun := congrArg (fun x : Eval String => (x.run.run 0).1) h
  exact Except.ok.inj hrun

/-- Texts are filled in escaped, between tags and in attributes. -/
theorem text_escaped (call : Call) (s : String) :
    text call (.text s) = (pure (escape s) : Eval String) ∧
      attributeValue call (.text s) = (pure (escape s) : Eval String) := ⟨rfl, rfl⟩

/-- An escaped text reads back as it was; every ampersand of it begins an entity and no mark is in
it; it is put together as the text is. So different texts are never filled in alike. -/
theorem escape_reads_back (s t : String) :
    unescape (escape s) = s ∧
      AmpersandsRead (escape s).toList ∧
      Unmarked (escape s) ∧
      escape (s ++ t) = escape s ++ escape t ∧
      (escape s = escape t ↔ s = t) ∧
      ∀ call : Call, (text call (.text s) = text call (.text t) ↔ s = t) ∧
        (attributeValue call (.text s) = attributeValue call (.text t) ↔ s = t) := by
  refine ⟨unescape_escape s, ampersandsRead_escape s, unmarked_escape s, escape_append s t,
    escape_inj, fun call => ?_⟩
  obtain ⟨hs, hs'⟩ := text_escaped call s
  obtain ⟨ht, ht'⟩ := text_escaped call t
  rw [hs, ht, hs', ht', pure_inj, escape_inj]
  exact ⟨Iff.rfl, Iff.rfl⟩

/-- A text that spells an entity is not taken for the character. -/
example : escape "&lt;" = "&amp;lt;" ∧ escape "<" = "&lt;" ∧ unescape "&amp;lt;" = "&lt;" := by
  decide

end LiveTemplate.Html
