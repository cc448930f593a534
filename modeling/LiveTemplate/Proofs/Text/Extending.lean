import LiveTemplate.Text.Braces
import LiveTemplate.Text.Cut

/-!
Cuts and matching braces in a text that goes on. The first occurrence of a mark and the brace that
closes another are found in a text as soon as they are in its front.
-/

namespace LiveTemplate

set_option autoImplicit false

theorem lt_length_of_drop {α : Type} {cs : List α} {n : Nat} (h : cs.drop n ≠ []) :
    n < cs.length := by
  simpa using h

theorem drop_nonempty_of_le {α : Type} {cs : List α} {k n : Nat} (hle : k ≤ n) (h : cs.drop n ≠ []) :
    cs.drop k ≠ [] := by
  simp only [ne_eq, List.drop_eq_nil_iff] at h ⊢
  omega

theorem drop_append_left {α : Type} {cs : List α} {n : Nat} (ds : List α) (h : cs.drop n ≠ []) :
    (cs ++ ds).drop n = cs.drop n ++ ds :=
  List.drop_append_of_le_length (Nat.le_of_lt (lt_length_of_drop h))

theorem take_append_left {α : Type} {cs : List α} {n : Nat} (ds : List α) (h : cs.drop n ≠ []) :
    (cs ++ ds).take n = cs.take n :=
  List.take_append_of_le_length (Nat.le_of_lt (lt_length_of_drop h))

namespace Text

variable {mark cs inside tail : List Char}

theorem isPrefixOf_append (ds : List Char) (h : mark.length ≤ cs.length) :
    mark.isPrefixOf (cs ++ ds) = mark.isPrefixOf cs := by
  rw [Bool.eq_iff_iff, List.isPrefixOf_iff_prefix, List.isPrefixOf_iff_prefix]
  constructor
  · intro hmark
    exact List.prefix_of_prefix_length_le hmark (List.prefix_append cs ds) h
  · intro hmark
    exact hmark.trans (List.prefix_append cs ds)

/-- The first occurrence of a mark stays the first. -/
theorem cut?_append (ds : List Char) (h : cut? mark cs = some (inside, tail)) :
    cut? mark (cs ++ ds) = some (inside, tail ++ ds) := by
  induction cs generalizing inside with
  | nil =>
    simp only [cut?] at h
    split at h
    · rename_i hmark
      obtain ⟨rfl, rfl⟩ := Prod.mk.inj (Option.some.inj h)
      cases ds <;> simp [cut?, hmark]
    · simp at h
  | cons c cs ih =>
    have hlength := length_of_cut? h
    have hmark : mark.length ≤ (c :: cs).length := by omega
    simp only [cut?, List.cons_append] at h ⊢
    rw [← List.cons_append, isPrefixOf_append ds hmark]
    split at h
    · obtain ⟨rfl, rfl⟩ := Prod.mk.inj (Option.some.inj h)
      rw [if_pos ‹_›, List.drop_append_of_le_length hmark]
    · obtain ⟨⟨before, after⟩, hcut, he⟩ := Option.map_eq_some_iff.1 h
      obtain ⟨rfl, rfl⟩ := Prod.mk.inj he
      rw [if_neg ‹_›, ih hcut]
      rfl

/-- A text without a mark, no part of which stands at its end, is passed over. -/
theorem cut?_append_none (ds : List Char) (h : cut? mark cs = none)
    (hend : ∀ part, part <+: mark → part <:+ cs → part = []) :
    cut? mark (cs ++ ds) = (cut? mark ds).map fun cut => (cs ++ cut.1, cut.2) := by
  induction cs with
  | nil => simp
  | cons c cs ih =>
    have hno : ¬ mark.isPrefixOf (c :: (cs ++ ds)) := by
      intro hmark
      rw [List.isPrefixOf_iff_prefix, ← List.cons_append] at hmark
      rcases List.prefix_or_prefix_of_prefix hmark (List.prefix_append (c :: cs) ds) with hin | hout
      · rw [← List.isPrefixOf_iff_prefix] at hin
        simp [cut?, hin] at h
      · exact absurd (hend _ hout List.suffix_rfl) (by simp)
    have hrest : cut? mark cs = none := by
      simp only [cut?] at h
      split at h <;> simp_all
    rw [List.cons_append, cut?, if_neg hno,
      ih hrest fun part hpart hback => hend part hpart (hback.trans (List.suffix_cons c cs))]
    simp [Function.comp_def]

/-- A text without a mark does not end with it. -/
theorem not_suffix_of_cut? (h : cut? mark cs = none) : ¬ mark <:+ cs := by
  induction cs with
  | nil =>
    rw [List.suffix_nil]
    rintro rfl
    simp [cut?] at h
  | cons c cs ih =>
    simp only [cut?] at h
    split at h
    · simp at h
    · rename_i hno
      rw [List.suffix_cons_iff]
      rintro (rfl | hback)
      · simp at hno
      · exact ih (by simpa using h) hback

/-! ### Quoted runs -/

attribute [local simp] quotedLength

theorem quotedLength_pair (quote c : Char) (cs : List Char) :
    quotedLength quote ('\\' :: c :: cs) = 2 + quotedLength quote cs := by
  simp

theorem quotedLength_single {quote c : Char} (cs : List Char) (h : c ≠ '\\') :
    quotedLength quote (c :: cs) = if c = quote then 1 else 1 + quotedLength quote cs := by
  rw [quotedLength]
  · intro hc
    exact absurd hc h
  · intro _ _ hc
    exact absurd hc h

/-- A quoted run that leaves something over has come to its closing quote. -/
theorem quotedLength_append {quote : Char} (ds : List Char)
    (h : cs.drop (quotedLength quote cs) ≠ []) :
    quotedLength quote (cs ++ ds) = quotedLength quote cs := by
  induction cs using quotedLength.induct quote with
  | case1 => simp at h
  | case2 => simp at h
  | case3 c cs ih =>
    rw [quotedLength_pair, Nat.add_comm] at h
    simp only [List.cons_append, quotedLength_pair, ih h]
  | case4 cs hlast hpair =>
    have hquote : quote ≠ '\\' := by
      intro he
      cases cs with
      | nil => exact hlast he rfl
      | cons c cs => exact hpair c cs he rfl
    simp only [List.cons_append, quotedLength_single _ hquote, if_true]
  | case5 c cs hlast hpair hne ih =>
    have hquote : c ≠ '\\' := by
      intro he
      cases cs with
      | nil => exact hlast he rfl
      | cons c cs => exact hpair c cs he rfl
    rw [quotedLength_single _ hquote, if_neg hne, Nat.add_comm] at h
    simp only [List.cons_append, quotedLength_single _ hquote, if_neg hne, ih h]

/-! ### Braces -/

theorem closeLength_quote {c : Char} (depth : Nat) (cs : List Char) (h : isQuote c = true) :
    closeLength depth (c :: cs) =
      (closeLength depth (cs.drop (quotedLength c cs))).map (1 + quotedLength c cs + ·) := by
  rw [closeLength.eq_def]
  exact if_pos h

theorem closeLength_open (depth : Nat) (cs : List Char) :
    closeLength depth ('{' :: cs) = (closeLength (depth + 1) cs).map (1 + ·) := by
  rw [closeLength.eq_def]
  rfl

theorem closeLength_last (cs : List Char) : closeLength 0 ('}' :: cs) = some 1 := by
  rw [closeLength.eq_def]
  rfl

theorem closeLength_close (depth : Nat) (cs : List Char) :
    closeLength (depth + 1) ('}' :: cs) = (closeLength depth cs).map (1 + ·) := by
  rw [closeLength.eq_def]
  rfl

theorem closeLength_other {c : Char} (depth : Nat) (cs : List Char) (hquote : ¬ isQuote c)
    (hopen : c ≠ '{') (hclose : c ≠ '}') :
    closeLength depth (c :: cs) = (closeLength depth cs).map (1 + ·) := by
  rw [closeLength.eq_def]
  simp only [hquote, hopen, hclose, if_false, Bool.false_eq_true]

theorem closeLength_append {depth n : Nat} (ds : List Char) (h : closeLength depth cs = some n) :
    closeLength depth (cs ++ ds) = some n := by
  induction depth, cs using closeLength.induct generalizing n with
  | case1 depth => simp [closeLength] at h
  | case2 depth c cs hquote ih =>
    rw [closeLength_quote _ _ hquote] at h
    obtain ⟨m, hm, rfl⟩ := Option.map_eq_some_iff.1 h
    have hleft : cs.drop (quotedLength c cs) ≠ [] := by
      intro hnil
      simp [hnil, closeLength] at hm
    rw [List.cons_append, closeLength_quote _ _ hquote, quotedLength_append ds hleft,
      drop_append_left ds hleft, ih hm]
    rfl
  | case3 depth cs _ ih =>
    rw [closeLength_open] at h
    obtain ⟨m, hm, rfl⟩ := Option.map_eq_some_iff.1 h
    rw [List.cons_append, closeLength_open, ih hm]
    rfl
  | case4 cs =>
    rw [closeLength_last] at h
    rw [List.cons_append, closeLength_last, h]
  | case5 cs depth _ _ ih =>
    rw [closeLength_close] at h
    obtain ⟨m, hm, rfl⟩ := Option.map_eq_some_iff.1 h
    rw [List.cons_append, closeLength_close, ih hm]
    rfl
  | case6 depth c cs hquote hopen hclose ih =>
    rw [closeLength_other _ _ hquote hopen hclose] at h
    obtain ⟨m, hm, rfl⟩ := Option.map_eq_some_iff.1 h
    rw [List.cons_append, closeLength_other _ _ hquote hopen hclose, ih hm]
    rfl

theorem closeLength_le {depth n : Nat} (h : closeLength depth cs = some n) : n ≤ cs.length := by
  induction depth, cs using closeLength.induct generalizing n with
  | case1 depth => simp [closeLength] at h
  | case2 depth c cs hquote ih =>
    rw [closeLength_quote _ _ hquote] at h
    obtain ⟨m, hm, rfl⟩ := Option.map_eq_some_iff.1 h
    have hle := ih hm
    have hpos := closeLength_pos hm
    simp only [List.length_drop, List.length_cons] at hle ⊢
    omega
  | case3 depth cs _ ih =>
    rw [closeLength_open] at h
    obtain ⟨m, hm, rfl⟩ := Option.map_eq_some_iff.1 h
    simpa [Nat.add_comm] using ih hm
  | case4 cs =>
    rw [closeLength_last] at h
    simp [← Option.some.inj h]
  | case5 cs depth _ _ ih =>
    rw [closeLength_close] at h
    obtain ⟨m, hm, rfl⟩ := Option.map_eq_some_iff.1 h
    simpa [Nat.add_comm] using ih hm
  | case6 depth c cs hquote hopen hclose ih =>
    rw [closeLength_other _ _ hquote hopen hclose] at h
    obtain ⟨m, hm, rfl⟩ := Option.map_eq_some_iff.1 h
    simpa [Nat.add_comm] using ih hm

end Text

end LiveTemplate
