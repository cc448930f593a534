import LiveTemplate.Expr
import LiveTemplate.Proofs.Expr.Lexemes
import LiveTemplate.Proofs.Markup.Tiling

/-!
Phrases and their places. A phrase is an expression, a binding pattern or a loop header. It is placed
in a source when every name in it is what the source holds at the name's span, and every phrase in it
lies within the phrase around it. What a reader of phrases gets is a stream of tokens that lie in the
source one after another.
-/

namespace LiveTemplate

set_option autoImplicit false

inductive Phrase where
  | expr (e : Expr)
  | pattern (p : Pattern)
  | header (h : ForHeader)

namespace Phrase

def span : Phrase → Span
  | expr e => e.span
  | pattern p => p.span
  | header h => h.span

/-- The phrases that a phrase is directly made of. -/
def children : Phrase → List Phrase
  | expr (.literal _ _) | expr (.name _ _) | pattern (.name _ _) => []
  | expr (.template _ parts _) => parts.map fun part => expr part.1
  | expr (.member target _ _ _) => [expr target]
  | expr (.keyed target key _ _) => [expr target, expr key]
  | expr (.call callee args _ _) => expr callee :: args.map expr
  | expr (.unary _ operand _) => [expr operand]
  | expr (.binary _ left right _) => [expr left, expr right]
  | expr (.conditional condition yes no _) => [expr condition, expr yes, expr no]
  | expr (.array elements _) => elements.map expr
  | expr (.object fields _) => fields.map fun field => expr field.2
  | expr (.arrow params body _) => params.map pattern ++ [expr body]
  | pattern (.array elements _) => elements.filterMap fun element => element.map pattern
  | pattern (.object properties _) => properties.map fun property => pattern property.2
  | pattern (.fallback target value _) => [pattern target, expr value]
  | header h => [pattern h.pattern, expr h.items]

/-- A phrase occurs in another: it is that phrase or occurs in a phrase the other is made of. -/
inductive Occurs (p : Phrase) : Phrase → Prop where
  | here : Occurs p p
  | inside {c q : Phrase} (hc : c ∈ q.children) (h : Occurs p c) : Occurs p q

/-- A name, in an expression or bound by a pattern, is what the source holds at its span. -/
def Spelled (source : Source) : Phrase → Prop
  | expr (.name name span) | pattern (.name name span) => source.slice span = name
  | _ => True

/-- Where the phrases that occur in a phrase stand. -/
structure Placed (source : Source) (p : Phrase) : Prop where
  spelled : ∀ q : Phrase, q.Occurs p → q.Spelled source
  nested : ∀ q : Phrase, q.Occurs p → ∀ c ∈ q.children, c.span.Inside q.span

theorem Placed.intro {source : Source} {p : Phrase} (hspelled : p.Spelled source)
    (hchildren : ∀ c ∈ p.children, c.Placed source ∧ c.span.Inside p.span) : p.Placed source where
  spelled q hq := by
    cases hq with
    | here => exact hspelled
    | inside hc hq => exact (hchildren _ hc).1.spelled q hq
  nested q hq := by
    cases hq with
    | here => exact fun c hc => (hchildren c hc).2
    | inside hc hq => exact (hchildren _ hc).1.nested q hq

theorem Placed.leaf {source : Source} {p : Phrase} (hspelled : p.Spelled source)
    (hchildren : p.children = []) : p.Placed source :=
  .intro hspelled (by simp [hchildren])

end Phrase

/-! ### Text in a source -/

/-- A text stands at an offset of a source. -/
def Source.HasAt (source : Source) (cs : List Char) (offset : Int) : Prop :=
  ∃ before after, source.chars = before ++ (cs ++ after) ∧ offset = Text.width before

namespace Source.HasAt

variable {source : Source} {xs ys : List Char} {offset : Int}

theorem front (ys : List Char) (h : source.HasAt (xs ++ ys) offset) : source.HasAt xs offset := by
  obtain ⟨before, after, htext, rfl⟩ := h
  exact ⟨before, ys ++ after, by simp [htext], rfl⟩

theorem back (xs : List Char) (h : source.HasAt (xs ++ ys) offset) :
    source.HasAt ys (offset + Text.width xs) := by
  obtain ⟨before, after, htext, rfl⟩ := h
  exact ⟨before ++ xs, after, by simp [htext], by simp⟩

theorem take (n : Nat) (h : source.HasAt xs offset) : source.HasAt (xs.take n) offset :=
  front (xs.drop n) (by rwa [List.take_append_drop])

theorem drop (n : Nat) (h : source.HasAt xs offset) :
    source.HasAt (xs.drop n) (offset + Text.width (xs.take n)) :=
  back (xs.take n) (by rwa [List.take_append_drop])

theorem slice_eq (h : source.HasAt xs offset) :
    source.slice ⟨offset, offset + Text.width xs⟩ = String.ofList xs := by
  obtain ⟨before, after, htext, rfl⟩ := h
  exact slice_along htext

end Source.HasAt

/-! ### Tokens in a source -/

/-- A name is what the source holds at its span, and a template text stands between its quotes. -/
def Lexeme.StandsAt (source : Source) (span : Span) : Lexeme → Prop
  | .ident name => source.slice span = name
  | .template raw =>
    source.HasAt raw (span.start + 1) ∧ span.start + 1 + Text.width raw ≤ span.stop
  | _ => True

/-- The tokens lie one after another between two offsets of the source, each where its span says. -/
def Stream.Laid (source : Source) (stop : Int) : Int → Stream → Prop
  | p, done _ | p, bad _ => p ≤ stop
  | p, next t rest =>
    p ≤ t.span.start ∧ t.span.start ≤ t.span.stop ∧ t.lexeme.StandsAt source t.span ∧
      Laid source stop t.span.stop rest

namespace Stream

variable {source : Source} {stop p : Int} {s : Stream}

theorem Laid.mono (h : s.Laid source stop p) {p' : Int} (hle : p' ≤ p) :
    s.Laid source stop p' := by
  cases s with
  | done | bad => exact Int.le_trans hle h
  | next t rest => exact ⟨Int.le_trans hle h.1, h.2⟩

theorem Laid.le_stop (h : s.Laid source stop p) : p ≤ stop := by
  induction s generalizing p with
  | done | bad => exact h
  | next t rest ih => exact Int.le_trans h.1 (Int.le_trans h.2.1 (ih h.2.2.2))

theorem lastStop_le {cs : List Char} {base : Int} (hp : p ≤ base) :
    (ofText cs base).lastStop p ≤ base + Text.width cs := by
  induction cs, base using ofText.induct generalizing p with
  | case1 base =>
    rw [ofText]
    simpa [lastStop] using hp
  | case2 base c rest hblank ih =>
    have hrest : (ofText rest (base + Text.units c)).lastStop p ≤ _ := ih (by omega)
    rw [ofText, if_pos hblank, Text.width_cons]
    omega
  | case3 base c rest hblank f hread =>
    rw [ofText, if_neg hblank, hread]
    simp only [lastStop]
    omega
  | case4 base c rest hblank lexeme n hread stop =>
    rename_i ih
    have hwidth : Text.width (c :: rest) =
        Text.width (c :: rest.take n) + Text.width (rest.drop n) := by
      rw [← Text.width_append, List.cons_append, List.take_append_drop]
    rw [ofText, if_neg hblank, hread, hwidth]
    apply Int.le_trans (ih (Int.le_refl _))
    simp only [stop]
    omega

end Stream

namespace Lexeme

variable {source : Source} {c : Char} {rest : List Char} {n : Nat} {base : Int}

theorem takeWhile_take {p : Char → Bool} (cs : List Char) :
    cs.take (cs.takeWhile p).length = cs.takeWhile p :=
  (List.prefix_iff_eq_take.1 (List.takeWhile_prefix p)).symm

/-- A lexeme stands over the characters it was read from. -/
theorem read_standsAt {lexeme : Lexeme} (h : read c rest = .ok (lexeme, n))
    (hat : source.HasAt (c :: rest) base) :
    lexeme.StandsAt source ⟨base, base + Text.width (c :: rest.take n)⟩ := by
  simp only [read] at h
  split_ifs at h with hident hnumber hstring htemplate
  · split at h
    · obtain ⟨rfl, rfl⟩ := Prod.mk.inj (Except.ok.inj h)
      trivial
    · obtain ⟨rfl, rfl⟩ := Prod.mk.inj (Except.ok.inj h)
      rw [takeWhile_take]
      have hname : source.HasAt (c :: rest.takeWhile isIdentPart) base := by
        apply Source.HasAt.front (rest.dropWhile isIdentPart)
        rwa [List.cons_append, List.takeWhile_append_dropWhile]
      exact hname.slice_eq
  · split at h
    · simp at h
    · obtain ⟨rfl, rfl⟩ := Prod.mk.inj (Except.ok.inj h)
      trivial
  · split at h
    · obtain ⟨rfl, rfl⟩ := Prod.mk.inj (Except.ok.inj h)
      trivial
    · simp at h
  · subst htemplate
    split at h
    · rename_i m hm
      obtain ⟨rfl, rfl⟩ := Prod.mk.inj (Except.ok.inj h)
      obtain ⟨raw, back, rfl, rfl⟩ := templateLength_quoted hm
      have hraw : source.HasAt raw (base + 1) :=
        (Source.HasAt.back ['\x60'] hat).front ('\x60' :: back)
      have htake : (raw ++ '\x60' :: back).take (raw.length + 1) = raw ++ ['\x60'] :=
        List.take_length_add_append 1
      rw [Nat.add_sub_cancel, List.take_left]
      refine ⟨hraw, ?_⟩
      rw [htake]
      simp [Text.units]
      omega
    · simp at h
    · simp at h
  · split at h
    · obtain ⟨rfl, rfl⟩ := Prod.mk.inj (Except.ok.inj h)
      trivial
    · simp at h

end Lexeme

/-- The tokens of a text that stands in a source. -/
theorem Stream.ofText_laid {source : Source} {cs : List Char} {base p : Int}
    (hat : source.HasAt cs base) (hp : p ≤ base) :
    (ofText cs base).Laid source ((ofText cs base).lastStop p) p := by
  induction cs, base using ofText.induct generalizing p with
  | case1 base =>
    rw [ofText]
    exact Int.le_refl _
  | case2 base c rest hblank ih =>
    rw [ofText, if_pos hblank]
    have hrest := hat.back [c]
    exact ih (by simpa using hrest) (by omega)
  | case3 base c rest hblank f hread =>
    rw [ofText, if_neg hblank, hread]
    exact Int.le_refl _
  | case4 base c rest hblank lexeme n hread stop =>
    rename_i ih
    rw [ofText, if_neg hblank, hread]
    refine ⟨hp, ?_, Lexeme.read_standsAt hread hat, ih ?_ (Int.le_refl _)⟩
    · dsimp only
      omega
    · exact hat.drop (n + 1)

end LiveTemplate
