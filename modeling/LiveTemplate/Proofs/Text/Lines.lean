import LiveTemplate.Source
import Mathlib.Data.List.Perm.Subperm

/-!
Lines of a source, said without walking through it: where a line ends, and which line and column an
offset has by the line ends before it. The walk that finds a position agrees with that. There are no
fewer line ends before a later offset, so positions follow each other as the offsets do.
-/

namespace LiveTemplate

set_option autoImplicit false

/-- A line ends at an offset: behind a line feed, or behind a carriage return that no line feed
follows. -/
def Source.EndsLineAt (source : Source) (k : Nat) : Prop :=
  ∃ before after, source.chars = before ++ after ∧ k = Text.width before ∧
    (before.getLast? = some '\n' ∨ before.getLast? = some '\x0d' ∧ after.head? ≠ some '\n')

/-- The position of an offset by the line ends at or before it: the line is one more than their
number, the column counts from the last of them. -/
def Source.Locates (source : Source) (offset : Nat) (p : Position) : Prop :=
  ∃ ends : List Nat, ends.Pairwise (· < ·) ∧
    (∀ k, k ∈ ends ↔ source.EndsLineAt k ∧ k ≤ offset) ∧
    p.line = ends.length + 1 ∧ p.column + ends.getLast?.getD 0 = offset + 1

/-! ### Offsets of characters -/

namespace Text

/-- Two fronts of a text: the shorter one is a front of the other. -/
theorem append_of_width_le {xs ys xs' ys' : List Char} (h : xs ++ ys = xs' ++ ys')
    (hle : width xs ≤ width xs') : ∃ zs, xs' = xs ++ zs ∧ ys = zs ++ ys' := by
  rcases List.append_eq_append_iff.mp h with ⟨zs, hxs, hys⟩ | ⟨zs, rfl, rfl⟩
  · exact ⟨zs, hxs, hys⟩
  · have hlen := length_le_width zs
    rw [width_append] at hle
    have hzs : zs = [] := List.length_eq_zero_iff.mp (by omega)
    exact ⟨[], by simp [hzs], by simp [hzs]⟩

end Text

namespace Source

variable {source : Source} {before after : List Char} {c : Char} {rest : List Char}

theorem endsLineAt_iff (h : source.chars = before ++ after) :
    source.EndsLineAt (Text.width before) ↔
      before.getLast? = some '\n' ∨ before.getLast? = some '\x0d' ∧ after.head? ≠ some '\n' := by
  constructor
  · rintro ⟨xs, ys, hxs, hwidth, hends⟩
    obtain ⟨zs, rfl, rfl⟩ := Text.append_of_width_le (hxs.symm.trans h) (Nat.le_of_eq hwidth.symm)
    have hlen := Text.length_le_width zs
    rw [Text.width_append] at hwidth
    have hzs : zs = [] := List.length_eq_zero_iff.mp (by omega)
    simpa [hzs] using hends
  · exact fun hends => ⟨before, after, h, rfl, hends⟩

theorem endsLineAt_behind (h : source.chars = before ++ c :: rest) :
    source.EndsLineAt (Text.width before + Text.units c) ↔
      c = '\n' ∨ c = '\x0d' ∧ rest.head? ≠ some '\n' := by
  have hsplit : source.chars = (before ++ [c]) ++ rest := by simp [h]
  have hwidth : Text.width (before ++ [c]) = Text.width before + Text.units c := by simp
  rw [← hwidth, endsLineAt_iff hsplit]
  simp

theorem not_endsLineAt_pair (h : source.chars = before ++ '\x0d' :: '\n' :: rest) :
    ¬ source.EndsLineAt (Text.width before + 1) := by
  intro hends
  simpa using (endsLineAt_behind h).mp hends

/-- Between the offsets before and after a character no line ends. -/
theorem not_endsLineAt_inside (h : source.chars = before ++ c :: rest) {k : Nat}
    (hlo : Text.width before < k) (hhi : k < Text.width before + Text.units c) :
    ¬ source.EndsLineAt k := by
  rintro ⟨xs, ys, hxs, rfl, -⟩
  obtain ⟨zs, rfl, hzs⟩ := Text.append_of_width_le (h.symm.trans hxs) (Nat.le_of_lt hlo)
  rw [Text.width_append] at hlo hhi
  cases zs with
  | nil =>
    rw [Text.width_nil] at hlo
    omega
  | cons d zs =>
    obtain ⟨rfl, -⟩ := List.cons.inj hzs
    rw [Text.width_cons] at hhi
    omega

/-! ### Steps of a walk -/

variable {offset n : Nat} {p : Position}

theorem locates_start (source : Source) : source.Locates 0 ⟨1, 1⟩ := by
  refine ⟨[], .nil, fun k => ⟨fun hk => absurd hk List.not_mem_nil, ?_⟩, rfl, rfl⟩
  rintro ⟨⟨xs, ys, -, rfl, hends⟩, hle⟩
  have hlen := Text.length_le_width xs
  have hxs : xs = [] := List.length_eq_zero_iff.mp (by omega)
  simp [hxs] at hends

/-- A step within a line. -/
theorem Locates.along (h : source.Locates offset p)
    (hno : ∀ k, offset < k → k ≤ offset + n → ¬ source.EndsLineAt k) :
    source.Locates (offset + n) ⟨p.line, p.column + n⟩ := by
  obtain ⟨ends, hsorted, hmem, hline, hcolumn⟩ := h
  refine ⟨ends, hsorted, fun k => ?_, hline, by simp only; omega⟩
  rw [hmem]
  constructor
  · exact fun ⟨hk, hle⟩ => ⟨hk, Nat.le_add_right_of_le hle⟩
  · rintro ⟨hk, hle⟩
    exact ⟨hk, Nat.le_of_not_lt fun hlt => hno k hlt hle hk⟩

/-- A step over the end of a line. -/
theorem Locates.newLine (h : source.Locates offset p) (hn : 0 < n)
    (hno : ∀ k, offset < k → k < offset + n → ¬ source.EndsLineAt k)
    (hends : source.EndsLineAt (offset + n)) :
    source.Locates (offset + n) ⟨p.line + 1, 1⟩ := by
  obtain ⟨ends, hsorted, hmem, hline, -⟩ := h
  refine ⟨ends ++ [offset + n], ?_, fun k => ?_, by simp [hline], by simp [Nat.add_comm]⟩
  · refine List.pairwise_append.mpr ⟨hsorted, List.pairwise_singleton _ _, ?_⟩
    intro a ha b hb
    have hle := ((hmem a).mp ha).2
    rw [List.mem_singleton.mp hb]
    omega
  · rw [List.mem_append, List.mem_singleton, hmem]
    constructor
    · rintro (⟨hk, hle⟩ | rfl)
      · exact ⟨hk, by omega⟩
      · exact ⟨hends, Nat.le_refl _⟩
    · rintro ⟨hk, hle⟩
      rcases Nat.lt_or_ge offset k with hlt | hge
      · rcases Nat.lt_or_eq_of_le hle with hlt' | heq
        · exact absurd hk (hno k hlt hlt')
        · exact .inr heq
      · exact .inl ⟨hk, hge⟩

/-- The walk from the offset of a front finds the position of every offset behind it. -/
theorem locates_advance (h : source.chars = before ++ rest)
    (hp : source.Locates (Text.width before) p) (hn : n ≤ Text.width rest) :
    source.Locates (Text.width before + n) (Position.advance rest n p) := by
  fun_induction Position.advance rest n p generalizing before with
  | case1 n p =>
    obtain rfl : n = 0 := Nat.le_zero.mp hn
    exact hp
  | case2 cs p => exact hp
  | case3 rest n p ih =>
    have hfirst := not_endsLineAt_pair h
    have hnext : source.chars = (before ++ ['\x0d']) ++ '\n' :: rest := by simp [h]
    have hlast : source.EndsLineAt (Text.width before + 2) := by
      have hends := (endsLineAt_behind hnext).mpr (.inl rfl)
      rwa [Text.width_append] at hends
    have hline := hp.newLine (by omega) (fun k hlo hhi => ?_) hlast
    · have hwidth : Text.width (before ++ ['\x0d', '\n']) = Text.width before + 2 := by
        simp [Text.units]
      have hleft : n ≤ Text.width rest := by
        simp [Text.units] at hn
        omega
      have hrest := @ih (before ++ ['\x0d', '\n']) (by simp [h]) (by rwa [hwidth]) hleft
      rwa [hwidth, Nat.add_assoc, Nat.add_comm 2 n] at hrest
    · obtain rfl : k = Text.width before + 1 := by omega
      exact hfirst
  | case4 rest p =>
    have hfirst := not_endsLineAt_pair h
    refine hp.along fun k hlo hhi => ?_
    obtain rfl : k = Text.width before + 1 := by omega
    exact hfirst
  | case5 c rest n p hpair hsingle hend ih =>
    have hunits : Text.units c = 1 := by rcases hend with rfl | rfl <;> rfl
    have hends : source.EndsLineAt (Text.width before + 1) := by
      rw [← hunits, endsLineAt_behind h]
      refine hend.imp_right fun hc => ⟨hc, fun hhead => ?_⟩
      obtain ⟨tail, rfl⟩ := List.head?_eq_some_iff.mp hhead
      cases n with
      | zero => exact hsingle tail hc rfl rfl
      | succ n => exact hpair tail n hc rfl rfl
    have hline := hp.newLine (by omega) (fun k hlo hhi => by omega) hends
    have hwidth : Text.width (before ++ [c]) = Text.width before + 1 := by simp [hunits]
    have hleft : n ≤ Text.width rest := by
      rw [Text.width_cons, hunits] at hn
      omega
    have hrest := @ih (before ++ [c]) (by simp [h]) (by rwa [hwidth]) hleft
    rwa [hwidth, Nat.add_assoc, Nat.add_comm 1 n] at hrest
  | case6 c rest n p hpair hsingle hend hfits ih =>
    have hnone : ∀ k, Text.width before < k → k ≤ Text.width before + Text.units c →
        ¬ source.EndsLineAt k := by
      intro k hlo hhi
      rcases Nat.lt_or_eq_of_le hhi with hlt | rfl
      · exact not_endsLineAt_inside h hlo hlt
      · rw [endsLineAt_behind h]
        exact fun hc => hend (hc.imp_right And.left)
    have hwidth : Text.width (before ++ [c]) = Text.width before + Text.units c := by simp
    have hleft : n + 1 - Text.units c ≤ Text.width rest := by
      rw [Text.width_cons] at hn
      omega
    have hrest := @ih (before ++ [c]) (by simp [h]) (by rw [hwidth]; exact hp.along hnone) hleft
    have hsum : Text.width before + Text.units c + (n + 1 - Text.units c) =
        Text.width before + (n + 1) := by omega
    rwa [hwidth, hsum] at hrest
  | case7 c rest n p hpair hsingle hend hfits =>
    refine hp.along fun k hlo hhi => not_endsLineAt_inside h hlo ?_
    omega

/-- The position that is found is the one by the line ends. -/
theorem locates_positionAt (source : Source) {offset : Nat} (h : offset ≤ source.width) :
    source.Locates offset (source.positionAt offset) := by
  have hfront : source.chars = [] ++ source.chars := rfl
  have hstart := locates_advance hfront (locates_start source) h
  rw [Text.width_nil, Nat.zero_add] at hstart
  rwa [positionAt, Int.toNat_natCast, Nat.min_eq_left h]

end Source

/-- A position on an earlier line, or further to the left on the same line. -/
def Position.Before (p q : Position) : Prop :=
  p.line < q.line ∨ p.line = q.line ∧ p.column < q.column

theorem Position.Before.ne {p q : Position} (h : p.Before q) : p ≠ q := by
  rintro rfl
  rcases h with hline | ⟨-, hcolumn⟩
  · exact Nat.lt_irrefl _ hline
  · exact Nat.lt_irrefl _ hcolumn

/-- Of two rising rows of offsets, one within the other, the outer one is longer or they are one. -/
theorem length_lt_or_eq_of_subset {xs ys : List Nat} (hxs : xs.Pairwise (· < ·))
    (hys : ys.Pairwise (· < ·)) (hsub : xs ⊆ ys) : xs.length < ys.length ∨ xs = ys := by
  have hnodup : xs.Nodup := hxs.imp Nat.ne_of_lt
  have hsubperm : xs.Subperm ys := List.subperm_of_subset hnodup hsub
  rcases Nat.lt_or_ge xs.length ys.length with hlt | hge
  · exact .inl hlt
  · have hperm : xs.Perm ys := hsubperm.perm_of_length_le hge
    refine .inr (hperm.eq_of_pairwise ?_ hxs hys)
    intro x y _ _ hxy hyx
    exact absurd hyx (Nat.lt_asymm hxy)

namespace Source

variable {source : Source} {a b offset : Nat} {p q : Position}

theorem Locates.unique (h : source.Locates offset p) (h' : source.Locates offset q) : p = q := by
  obtain ⟨ends, hsorted, hmem, hline, hcolumn⟩ := h
  obtain ⟨others, hsorted', hmem', hline', hcolumn'⟩ := h'
  have hsub : ends ⊆ others := fun k hk => (hmem' k).mpr ((hmem k).mp hk)
  have hsub' : others ⊆ ends := fun k hk => (hmem k).mpr ((hmem' k).mp hk)
  have hends : ends = others := by
    rcases length_lt_or_eq_of_subset hsorted hsorted' hsub with hlt | heq
    · rcases length_lt_or_eq_of_subset hsorted' hsorted hsub' with hlt' | heq
      · exact absurd hlt' (Nat.lt_asymm hlt)
      · exact heq.symm
    · exact heq
  subst hends
  cases p
  cases q
  simp only [Position.mk.injEq] at *
  omega

/-- Either a line ends between two offsets, or they are on one line. -/
theorem Locates.before (h : source.Locates a p) (h' : source.Locates b q) (hlt : a < b) :
    p.Before q := by
  obtain ⟨ends, hsorted, hmem, hline, hcolumn⟩ := h
  obtain ⟨others, hsorted', hmem', hline', hcolumn'⟩ := h'
  have hsub : ends ⊆ others := by
    intro k hk
    obtain ⟨hends, hle⟩ := (hmem k).mp hk
    exact (hmem' k).mpr ⟨hends, Nat.le_trans hle (Nat.le_of_lt hlt)⟩
  rcases length_lt_or_eq_of_subset hsorted hsorted' hsub with hlonger | rfl
  · exact .inl (by omega)
  · exact .inr ⟨by omega, by omega⟩

/-- An offset outside of a text has the position of the end that is nearest to it. -/
theorem positionAt_outside (source : Source) (offset : Int) :
    (offset < 0 → source.positionAt offset = source.positionAt 0) ∧
      (source.width < offset → source.positionAt offset = source.positionAt source.width) := by
  constructor
  · intro hlt
    have hzero : offset.toNat = (0 : Int).toNat := by omega
    rw [positionAt, positionAt, hzero]
  · intro hlt
    have hmin : min offset.toNat source.width = min (source.width : Int).toNat source.width := by
      omega
    rw [positionAt, positionAt, hmin]

theorem positionAt_before {a b : Int} (ha : 0 ≤ a) (hlt : a < b) (hb : b ≤ source.width) :
    (source.positionAt a).Before (source.positionAt b) := by
  obtain ⟨m, rfl⟩ := Int.eq_ofNat_of_zero_le ha
  obtain ⟨n, rfl⟩ := Int.eq_ofNat_of_zero_le (by omega : 0 ≤ b)
  have hm := source.locates_positionAt (by omega : m ≤ source.width)
  have hn := source.locates_positionAt (by omega : n ≤ source.width)
  exact hm.before hn (by omega)

/-- Positions are those by the line ends before an offset, in the order of the offsets, and none is
that of two offsets in the text. -/
theorem positionAt_exact (source : Source) :
    (∀ (offset : Nat) (p : Position), offset ≤ source.width →
      (source.positionAt offset = p ↔ source.Locates offset p)) ∧
    (∀ a b : Int, 0 ≤ a → a < b → b ≤ source.width →
      (source.positionAt a).Before (source.positionAt b)) ∧
    (∀ a b : Int, 0 ≤ a → a ≤ source.width → 0 ≤ b → b ≤ source.width →
      source.positionAt a = source.positionAt b → a = b) ∧
    ∀ offset : Int, (offset < 0 → source.positionAt offset = source.positionAt 0) ∧
      (source.width < offset → source.positionAt offset = source.positionAt source.width) := by
  refine ⟨fun offset p hle => ?_, fun a b => positionAt_before, ?_, source.positionAt_outside⟩
  · have hlocates := source.locates_positionAt hle
    exact ⟨fun h => h ▸ hlocates, hlocates.unique⟩
  · intro a b ha hale hb hble heq
    rcases Int.lt_trichotomy a b with hlt | heq' | hlt
    · exact absurd heq (positionAt_before ha hlt hble).ne
    · exact heq'
    · exact absurd heq.symm (positionAt_before hb hlt hale).ne

/-- A carriage return with its line feed is one line end, and between the two the line goes on; a
carriage return at the end of the text stands by itself. -/
theorem positionAt_exact_returns :
    let source : Source := ⟨"a\x0d\n\n😀\x0d", "returns"⟩
    source.width = 7 ∧ source.positionAt 2 = ⟨1, 3⟩ ∧ source.positionAt 7 = ⟨4, 1⟩ ∧
      source.Locates 2 ⟨1, 3⟩ ∧ source.Locates 7 ⟨4, 1⟩ ∧
      (⟨1, 3⟩ : Position).Before ⟨4, 1⟩ ∧ source.positionAt 8 = ⟨4, 1⟩ := by
  intro source
  have hwidth : source.width = 7 := by decide +kernel
  have hinner : source.positionAt 2 = ⟨1, 3⟩ := by decide +kernel
  have hlast : source.positionAt 7 = ⟨4, 1⟩ := by decide +kernel
  obtain ⟨hexact, hbefore, -, houtside⟩ := source.positionAt_exact
  have hlocates := (hexact 2 ⟨1, 3⟩ (by omega)).mp hinner
  have hlocates' := (hexact 7 ⟨4, 1⟩ (by omega)).mp hlast
  have horder := hbefore 2 7 (by omega) (by omega) (by omega)
  have hbehind := (houtside 8).2 (by omega)
  rw [hinner, hlast] at horder
  rw [hwidth] at hbehind
  exact ⟨hwidth, hinner, hlast, hlocates, hlocates', horder, hbehind.trans hlast⟩

end Source

end LiveTemplate
