import LiveTemplate.Source

/-!
Pieces of a text that stand one after another. A tiling cuts a text into the pieces of a list, each
of which reads its part, and into gaps that no piece reads. What a piece reads is a parameter:
segments tile a template, tokens tile a template, and the attributes of a tag tile the tag.
-/

namespace LiveTemplate

set_option autoImplicit false

namespace Span

/-- The span of a text that stands at an offset. -/
def along (offset : Nat) (cs : List Char) : Span := ⟨offset, offset + Text.width cs⟩

def Holds (s : Span) (i : Int) : Prop := s.start ≤ i ∧ i < s.stop

def Before (s t : Span) : Prop := s.stop ≤ t.start

def Inside (s t : Span) : Prop := t.start ≤ s.start ∧ s.stop ≤ t.stop

@[simp] theorem along_start (offset : Nat) (cs : List Char) : (along offset cs).start = offset := rfl

@[simp] theorem along_stop (offset : Nat) (cs : List Char) :
    (along offset cs).stop = offset + Text.width cs := rfl

theorem along_nonempty {offset : Nat} {cs : List Char} (h : cs ≠ []) :
    (along offset cs).start < (along offset cs).stop := by
  have := List.length_pos_iff.2 h
  have := Text.length_le_width cs
  simp only [along_start, along_stop]
  omega

theorem holds_along_append {offset : Nat} {xs ys : List Char} {i : Int} :
    (along offset (xs ++ ys)).Holds i ↔
      (along offset xs).Holds i ∨ (along (offset + Text.width xs) ys).Holds i := by
  simp only [Holds, along_start, along_stop, Text.width_append]
  omega

theorem not_holds_both {offset : Nat} {xs ys : List Char} {i : Int}
    (h : (along offset xs).Holds i) : ¬ (along (offset + Text.width xs) ys).Holds i := by
  simp only [Holds, along_start, along_stop] at h ⊢
  omega

theorem Inside.trans {s t u : Span} (hst : s.Inside t) (htu : t.Inside u) : s.Inside u :=
  ⟨Int.le_trans htu.1 hst.1, Int.le_trans hst.2 htu.2⟩

theorem Inside.holds {s t : Span} {i : Int} (h : s.Inside t) (hi : s.Holds i) : t.Holds i :=
  ⟨Int.le_trans h.1 hi.1, Int.lt_of_lt_of_le hi.2 h.2⟩

theorem inside_along (offset : Nat) (xs ys zs : List Char) :
    (along (offset + Text.width xs) ys).Inside (along offset (xs ++ (ys ++ zs))) := by
  simp only [Inside, along_start, along_stop, Text.width_append]
  omega

end Span

/-- The slice over a middle part of a source is that part. -/
theorem Source.slice_along {source : Source} {xs ys zs : List Char}
    (h : source.chars = xs ++ (ys ++ zs)) :
    source.slice (Span.along (Text.width xs) ys) = String.ofList ys := by
  have hwidth : source.width = Text.width xs + (Text.width ys + Text.width zs) := by
    simp [Source.width, h]
  have hstart : source.resolveOffset (Text.width xs : Nat) = Text.width xs := by
    simp only [resolveOffset, hwidth]
    split <;> omega
  have hstop : source.resolveOffset (Text.width xs + Text.width ys : Nat) =
      Text.width xs + Text.width ys := by
    simp only [resolveOffset, hwidth]
    split <;> omega
  rw [Source.slice, Span.along_start, Span.along_stop, ← Int.natCast_add, hstart, hstop, h,
    Text.slice_middle]

/-- The pieces read parts of the text that stands at an offset, the gaps are what is between. -/
inductive Tiling {α : Type} (Reads : α → Nat → List Char → Prop) :
    Nat → List Char → List α → List Span → Prop where
  | nil (o : Nat) : Tiling Reads o [] [] []
  | piece {o : Nat} {xs ys : List Char} {p : α} {ps : List α} {gaps : List Span} :
      Reads p o xs → Tiling Reads (o + Text.width xs) ys ps gaps →
      Tiling Reads o (xs ++ ys) (p :: ps) gaps
  | gap {o : Nat} (xs : List Char) {ys : List Char} {ps : List α} {gaps : List Span} :
      Tiling Reads (o + Text.width xs) ys ps gaps →
      Tiling Reads o (xs ++ ys) ps (Span.along o xs :: gaps)

namespace Tiling

variable {α : Type} {Reads : α → Nat → List Char → Prop} {o : Nat} {xs ys : List Char}
  {ps qs : List α} {gaps more : List Span}

theorem single {p : α} (h : Reads p o xs) : Tiling Reads o xs [p] [] := by
  simpa using piece h (.nil _)

theorem blank (o : Nat) (xs : List Char) : Tiling Reads o xs [] [Span.along o xs] := by
  have hnil : Tiling Reads (o + Text.width xs) [] [] [] := .nil _
  simpa using gap xs hnil

theorem append (h : Tiling Reads o xs ps gaps)
    (h' : Tiling Reads (o + Text.width xs) ys qs more) :
    Tiling Reads o (xs ++ ys) (ps ++ qs) (gaps ++ more) := by
  induction h with
  | nil => simpa using h'
  | piece hp _ ih =>
    rw [List.append_assoc]
    apply piece hp
    apply ih
    simpa [Nat.add_assoc] using h'
  | gap xs _ ih =>
    rw [List.append_assoc]
    apply gap xs
    apply ih
    simpa [Nat.add_assoc] using h'

/-- What has no gaps may come before. -/
theorem append_solid (h : Tiling Reads o xs ps [])
    (h' : Tiling Reads (o + Text.width xs) ys qs more) :
    Tiling Reads o (xs ++ ys) (ps ++ qs) more := h.append h'

/-- Every piece reads a part of the text, at the offset where the part stands. -/
theorem exists_reads (h : Tiling Reads o xs ps gaps) {p : α} (hp : p ∈ ps) :
    ∃ before part after, xs = before ++ (part ++ after) ∧
      Reads p (o + Text.width before) part := by
  induction h with
  | nil => simp at hp
  | @piece o xs ys q ps gaps hq _ ih =>
    rcases List.mem_cons.1 hp with rfl | hp
    · exact ⟨[], xs, ys, rfl, hq⟩
    · obtain ⟨before, part, after, rfl, hr⟩ := ih hp
      refine ⟨xs ++ before, part, after, by simp, ?_⟩
      simpa [Nat.add_assoc] using hr
  | @gap o xs ys ps gaps _ ih =>
    obtain ⟨before, part, after, rfl, hr⟩ := ih hp
    refine ⟨xs ++ before, part, after, by simp, ?_⟩
    simpa [Nat.add_assoc] using hr

theorem gap_inside (h : Tiling Reads o xs ps gaps) {g : Span} (hg : g ∈ gaps) :
    g.Inside (Span.along o xs) := by
  induction h with
  | nil => simp at hg
  | @piece o xs ys q ps gaps _ _ ih =>
    apply (ih hg).trans
    simpa using Span.inside_along o xs ys []
  | @gap o xs ys ps gaps _ ih =>
    rcases List.mem_cons.1 hg with rfl | hg
    · simpa using Span.inside_along o [] xs ys
    · apply (ih hg).trans
      simpa using Span.inside_along o xs ys []

section Spans

variable {span : α → Span} (spans : ∀ p o xs, Reads p o xs → span p = Span.along o xs)
include spans

theorem piece_inside (h : Tiling Reads o xs ps gaps) {p : α} (hp : p ∈ ps) :
    (span p).Inside (Span.along o xs) := by
  obtain ⟨before, part, after, rfl, hr⟩ := h.exists_reads hp
  rw [spans _ _ _ hr]
  exact Span.inside_along o before part after

/-- The pieces come in the order of the text and do not overlap. -/
theorem ordered (h : Tiling Reads o xs ps gaps) :
    ps.Pairwise fun p q => (span p).Before (span q) := by
  induction h with
  | nil => exact .nil
  | piece hp h ih =>
    refine List.pairwise_cons.2 ⟨fun q hq => ?_, ih⟩
    have hq := (h.piece_inside spans hq).1
    rw [spans _ _ _ hp]
    simpa [Span.Before] using hq
  | gap _ _ ih => exact ih

/-- An offset of the text lies in a piece exactly if it lies in no gap. -/
theorem covered (h : Tiling Reads o xs ps gaps) {i : Int} (hi : (Span.along o xs).Holds i) :
    (∃ p ∈ ps, (span p).Holds i) ↔ ¬ ∃ g ∈ gaps, g.Holds i := by
  induction h with
  | nil o => simp only [Span.Holds, Span.along_start, Span.along_stop, Text.width_nil] at hi; omega
  | @piece o xs ys p ps gaps hp h ih =>
    rcases Span.holds_along_append.1 hi with hx | hy
    · have hhere : (span p).Holds i := by rwa [spans _ _ _ hp]
      have hgaps : ∀ g ∈ gaps, ¬ g.Holds i := fun g hg hold =>
        Span.not_holds_both hx ((h.gap_inside hg).holds hold)
      simpa [hhere] using hgaps
    · have hnot : ¬ (span p).Holds i := by
        rw [spans _ _ _ hp]
        exact fun hx => Span.not_holds_both hx hy
      simpa [hnot] using ih hy
  | @gap o xs ys ps gaps h ih =>
    rcases Span.holds_along_append.1 hi with hx | hy
    · have hps : ∀ p ∈ ps, ¬ (span p).Holds i := fun p hp hold =>
        Span.not_holds_both hx ((h.piece_inside spans hp).holds hold)
      simpa [hx] using hps
    · have hnot : ¬ (Span.along o xs).Holds i := fun hx => Span.not_holds_both hx hy
      simpa [hnot] using ih hy

end Spans

end Tiling

end LiveTemplate
