import LiveTemplate.Proofs.Eval.Yields
import LiveTemplate.Render

/-!
What becomes of values in a page. A value that shows no markup is written without a character that
delimits tags or the values of attributes, whatever it is and however its text is come by; around it
stand the quotes of its attribute alone. The names of attributes are written as they are.
-/

namespace LiveTemplate.Html

set_option autoImplicit false

/-! ### Texts without marks -/

/-- The characters that delimit tags and the values of attributes. -/
def marks : List Char := ['<', '>', '\x22', '\x27']

/-- What holds of the characters of a list is told by going through the list, not by trying all
characters there are. -/
instance (priority := high) decidableForallChars (P : Char → Prop) [DecidablePred P]
    (cs : List Char) : Decidable (∀ c ∈ cs, P c) := List.decidableBAll P cs

def Unmarked (s : String) : Prop := ∀ c ∈ s.toList, c ∉ marks

instance (s : String) : Decidable (Unmarked s) :=
  inferInstanceAs (Decidable (∀ c ∈ s.toList, c ∉ marks))

theorem unmarked_empty : Unmarked "" := by decide

theorem unmarked_append {s t : String} : Unmarked (s ++ t) ↔ Unmarked s ∧ Unmarked t := by
  rw [Unmarked, String.toList_append, List.forall_mem_append]
  rfl

theorem unmarked_join {texts : List String} (h : ∀ s ∈ texts, Unmarked s) :
    Unmarked (String.join texts) := by
  induction texts with
  | nil => exact unmarked_empty
  | cons s rest ih =>
    rw [List.forall_mem_cons] at h
    rw [String.join_cons, unmarked_append]
    exact ⟨h.1, ih h.2⟩

theorem unmarked_intercalate {separator : String} (hs : Unmarked separator) {texts : List String}
    (h : ∀ s ∈ texts, Unmarked s) : Unmarked (String.intercalate separator texts) := by
  induction texts with
  | nil => exact unmarked_empty
  | cons s rest ih =>
    rw [List.forall_mem_cons] at h
    cases rest with
    | nil => simpa using h.1
    | cons t rest =>
      rw [String.intercalate_cons_cons, unmarked_append, unmarked_append]
      exact ⟨⟨h.1, hs⟩, ih h.2⟩

/-- Every character is written without a mark. -/
theorem entity_unmarked (c : Char) : ∀ d ∈ entity c, d ∉ marks := by
  unfold entity
  split
  · decide
  split
  · decide
  split
  · decide
  split
  · decide
  split
  · decide
  · rename_i hlt hgt hquote happos
    intro d hd
    cases List.mem_singleton.mp hd
    simp [marks, hlt, hgt, hquote, happos]

theorem unmarked_escape (s : String) : Unmarked (escape s) := by
  intro d hd
  rw [escape, String.toList_ofList, escapeChars] at hd
  obtain ⟨c, -, hd⟩ := List.mem_flatMap.mp hd
  exact entity_unmarked c d hd

/-! ### Values that show no markup -/

/-- No item of a value, however deep in lists, is markup. -/
def ShowsNoMarkup (v : Value) : Prop := ∀ u ∈ leaves v, u.markup? = none

mutual

theorem leaves_of_mem : ∀ (v : Value) {u : Value}, u ∈ leaves v → leaves u = [u]
  | .list _ items, u, h => leaves_of_mem_all items h
  | .undefined, _, h | .null, _, h | .flag _, _, h | .number _, _, h | .text _, _, h
  | .record _ _ _, _, h | .map _ _, _, h | .set _ _, _, h | .date _ _, _, h | .html _ _, _, h
  | .method _, _, h | .helper _, _, h | .closure _ _ _ _, _, h | .block _ _, _, h => by
    cases List.mem_singleton.mp h
    rfl

theorem leaves_of_mem_all : ∀ (items : List Value) {u : Value}, u ∈ allLeaves items → leaves u = [u]
  | [], _, h => absurd h List.not_mem_nil
  | v :: rest, _, h => by
    rcases List.mem_append.mp h with h | h
    · exact leaves_of_mem v h
    · exact leaves_of_mem_all rest h

end

theorem ShowsNoMarkup.of_mem_leaves {v u : Value} (h : ShowsNoMarkup v) (hu : u ∈ leaves v) :
    ShowsNoMarkup u := by
  intro t ht
  rw [leaves_of_mem v hu] at ht
  cases List.mem_singleton.mp ht
  exact h u hu

theorem showsNoMarkup_list {id : Identity} {items : List Value} :
    ShowsNoMarkup (.list id items) ↔ ∀ v ∈ items, ShowsNoMarkup v := by
  change (∀ u ∈ allLeaves items, u.markup? = none) ↔ _
  induction items with
  | nil => exact ⟨fun _ _ h => absurd h List.not_mem_nil, fun _ _ h => absurd h List.not_mem_nil⟩
  | cons v rest ih =>
    rw [allLeaves, List.forall_mem_append, List.forall_mem_cons, ih]
    rfl

theorem ShowsNoMarkup.markup? {v : Value} (h : ShowsNoMarkup v)
    (hv : ∀ id items, v ≠ .list id items) : v.markup? = none := by
  refine h v ?_
  cases v with
  | list id items => exact absurd rfl (hv id items)
  | _ => exact List.mem_singleton_self _

/-! ### Encoding -/

/-- Whatever text an evaluation comes to has a property. -/
abbrev Writes (P : String → Prop) (x : Eval String) : Prop := Yields (fun _ => True) P x

variable (call : Call)

theorem writes_plain {v : Value} (h : v.markup? = none) : Writes Unmarked (plain call v) := by
  rw [plain, h]
  exact (Yields.unseen (v.toText call)).bind fun s _ => .pure (unmarked_escape s)

theorem writes_empty : Writes Unmarked (return "") := .pure unmarked_empty

mutual

theorem writes_text : ∀ v : Value, ShowsNoMarkup v → Writes Unmarked (text call v)
  | .list _ items, h => writes_texts items (showsNoMarkup_list.mp h)
  | .undefined, _ | .null, _ | .flag false, _ => writes_empty
  | .flag true, h | .number _, h | .text _, h | .record _ _ _, h | .map _ _, h | .set _ _, h
  | .date _ _, h | .html _ _, h | .method _, h | .helper _, h | .closure _ _ _ _, h
  | .block _ _, h => writes_plain call (h.markup? fun _ _ he => by cases he)

theorem writes_texts : ∀ items : List Value, (∀ v ∈ items, ShowsNoMarkup v) →
    Writes Unmarked (texts call items)
  | [], _ => writes_empty
  | v :: rest, h => by
    rw [List.forall_mem_cons] at h
    rw [texts]
    exact (writes_text v h.1).bind fun s hs => (writes_texts rest h.2).bind fun t ht =>
      .pure (unmarked_append.mpr ⟨hs, ht⟩)

end

mutual

theorem writes_attributeValue : ∀ v : Value, ShowsNoMarkup v →
    Writes Unmarked (attributeValue call v)
  | .list _ items, h => writes_attributeValues items (showsNoMarkup_list.mp h)
  | .undefined, h | .null, h | .flag _, h | .number _, h | .text _, h | .record _ _ _, h
  | .map _ _, h | .set _ _, h | .date _ _, h | .html _ _, h | .method _, h | .helper _, h
  | .closure _ _ _ _, h | .block _ _, h => writes_plain call (h.markup? fun _ _ he => by cases he)

theorem writes_attributeValues : ∀ items : List Value, (∀ v ∈ items, ShowsNoMarkup v) →
    Writes Unmarked (attributeValues call items)
  | [], _ => writes_empty
  | v :: rest, h => by
    rw [List.forall_mem_cons] at h
    rw [attributeValues]
    exact (writes_attributeValue v h.1).bind fun s hs =>
      (writes_attributeValues rest h.2).bind fun t ht => .pure (unmarked_append.mpr ⟨hs, ht⟩)

end

/-- Classes and styles are joined with what holds no mark. -/
theorem writes_joined {separator : String} (hs : Unmarked separator) {v : Value}
    (h : ShowsNoMarkup v) : Writes Unmarked (joined separator call v) := by
  have hvalue := writes_attributeValue call v h
  cases v with
  | undefined | null | flag => exact writes_empty
  | list id items =>
    have hkept : ∀ u ∈ (allLeaves items).filter (fun u => !isDropped u), ShowsNoMarkup u :=
      fun u hu => h.of_mem_leaves (List.mem_filter.mp hu |>.1)
    exact (Yields.mapM hkept fun u hu => writes_attributeValue call u hu).bind fun texts ht =>
      .pure (unmarked_intercalate hs ht)
  | _ => exact hvalue

/-! ### Attributes -/

/-- Texts in which marks stand around the values of attributes alone. -/
inductive Delimited : List Char → Prop
  | nil : Delimited []
  | plain {c : Char} {rest : List Char} (hc : c ∉ marks) (h : Delimited rest) :
      Delimited (c :: rest)
  | value {value rest : List Char} (hv : ∀ c ∈ value, c ∉ marks) (h : Delimited rest) :
      Delimited ('=' :: '\x22' :: value ++ '\x22' :: rest)

namespace Delimited

theorem of_unmarked {cs : List Char} (h : ∀ c ∈ cs, c ∉ marks) : Delimited cs := by
  induction cs with
  | nil => exact .nil
  | cons c rest ih =>
    rw [List.forall_mem_cons] at h
    exact .plain h.1 (ih h.2)

theorem append {cs ds : List Char} (h : Delimited cs) (h' : Delimited ds) :
    Delimited (cs ++ ds) := by
  induction h with
  | nil => exact h'
  | plain hc _ ih => exact .plain hc ih
  | @value value rest hv _ ih =>
    rw [List.append_assoc, List.cons_append, List.cons_append, List.cons_append, ← List.cons_append]
    exact .value hv ih

/-- No tag begins or ends in such a text. -/
theorem no_angle {cs : List Char} (h : Delimited cs) : '<' ∉ cs ∧ '>' ∉ cs := by
  have hmark : ∀ {c : Char}, c ∉ marks → c ≠ '<' ∧ c ≠ '>' := fun hc => by
    simp only [marks, List.mem_cons, not_or] at hc
    exact ⟨hc.1, hc.2.1⟩
  induction h with
  | nil => simp
  | plain hc _ ih =>
    have hne := hmark hc
    simp [ih, hne.1.symm, hne.2.symm]
  | value hv _ ih =>
    have hlt : '<' ∉ _ := fun h => (hmark (hv '<' h)).1 rfl
    have hgt : '>' ∉ _ := fun h => (hmark (hv '>' h)).2 rfl
    simp [ih, hlt, hgt]

end Delimited

/-- A whole attribute is a space, its name, and its value between quotes. -/
theorem writes_namedAttribute {name : String} (hname : Unmarked name) {v : Value}
    (h : ShowsNoMarkup v) :
    Writes (fun s => Delimited s.toList) (namedAttribute call name v) := by
  have hspace : Delimited (" " ++ name).toList :=
    .of_unmarked (unmarked_append.mpr ⟨by decide, hname⟩)
  have hquoted : Writes (fun s => Delimited s.toList) (do
      let value ← if name = "class" then classes call v else attributeValue call v
      return " " ++ name ++ "=\"" ++ value ++ "\"") := by
    refine Yields.ite_bind (P := Unmarked) (fun _ => writes_joined call (by decide) h)
      (fun _ => writes_attributeValue call v h) fun s hs => .pure ?_
    have happend := hspace.append (.value hs .nil)
    simpa using happend
  cases v with
  | undefined | null => exact .pure .nil
  | flag b =>
    cases b with
    | true => exact .pure hspace
    | false => exact .pure .nil
  | _ => exact hquoted

theorem delimited_join {texts : List String} (h : ∀ s ∈ texts, Delimited s.toList) :
    Delimited (String.join texts).toList := by
  induction texts with
  | nil => exact .nil
  | cons s rest ih =>
    rw [List.forall_mem_cons] at h
    rw [String.join_cons, String.toList_append]
    exact h.1.append (ih h.2)

theorem writes_attributes {fields : Record Value}
    (h : ∀ a ∈ fields.flatMap grouped, Unmarked a.1 ∧ ShowsNoMarkup a.2) :
    Writes (fun s => Delimited s.toList) (attributes call fields) :=
  (Yields.mapM h fun _ ha => writes_namedAttribute call ha.1 ha.2).bind fun _ ht =>
    .pure (delimited_join ht)

/-! ### Holes -/

/-- What a hole of a template is filled with. -/
inductive Hole where
  /-- Between tags. -/
  | text (v : Value)
  | named (form : AttributeForm) (name : String) (v : Value)
  | spread (fields : Record Value)

namespace Hole

/-- The text that fills a hole. -/
def encode : Hole → Eval String
  | text v => Html.text Value.call v
  | named form name v => form.encode name v
  | spread fields => attributes Value.call fields

/-- The names that are written along with a hole, and the values that are. -/
def written : Hole → List (String × Value)
  | text v => [("", v)]
  | named .whole name v => [(name, v)]
  | named _ _ v => [("", v)]
  | spread fields => fields.flatMap grouped

/-- Where the marks in the text of a hole may stand: around values, if it has attributes. -/
def Allows : Hole → String → Prop
  | named .whole _ _, s | spread _, s => Delimited s.toList
  | _, s => Unmarked s

theorem Allows.delimited {hole : Hole} {s : String} (h : hole.Allows s) : Delimited s.toList := by
  match hole, h with
  | .named .whole _ _, h | .spread _, h => exact h
  | .text _, h | .named .value _ _, h | .named .classes _ _, h | .named .styles _ _, h =>
    exact .of_unmarked h

/-- Values that show no markup bring none into a page, as long as the names they are written under
hold no marks. -/
theorem writes_encode (hole : Hole) (h : ∀ a ∈ hole.written, Unmarked a.1 ∧ ShowsNoMarkup a.2) :
    Writes hole.Allows hole.encode := by
  cases hole with
  | text v => exact writes_text Value.call v (h _ (List.mem_singleton_self _)).2
  | spread fields => exact writes_attributes Value.call h
  | named form name v =>
    cases form with
    | whole =>
      obtain ⟨hname, hv⟩ := h _ (List.mem_singleton_self _)
      exact writes_namedAttribute Value.call hname hv
    | value => exact writes_attributeValue Value.call v (h _ (List.mem_singleton_self _)).2
    | classes =>
      exact writes_joined Value.call (by decide) (h _ (List.mem_singleton_self _)).2
    | styles => exact writes_joined Value.call (by decide) (h _ (List.mem_singleton_self _)).2

example : ((spread [("title", .text "\"><b"), ("hidden", .flag true)]).encode.run.run 0).1 =
    .ok " title=\"&quot;&gt;&lt;b\" hidden" := rfl

end Hole

end LiveTemplate.Html
