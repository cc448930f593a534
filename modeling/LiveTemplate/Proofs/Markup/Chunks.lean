import LiveTemplate.Proofs.Markup.Running

/-!
Reading in chunks. A text that is cut where no mark is split is read chunk by chunk as it is read at
once: each chunk starts from the state the one before it left, and only texts may be cut in two.
-/

namespace LiveTemplate

set_option autoImplicit false

/-- A chunk that leaves a state may end with a text: it does not end within the mark that the state
looks for. -/
def LexState.MayEndAt : LexState → List Char → Prop
  | .text, cs => ¬ ['<'] <:+ cs
  | .comment _, cs => ¬ ['-'] <:+ cs
  | .rawText tag, cs => ∀ part, part ≠ [] → part <+: '<' :: '/' :: tag.toList → ∀ back, back <:+ cs →
      back.map Char.toLower ≠ part.map Char.toLower

theorem LexState.MayEndAt.suffix {state : LexState} {cs tail : List Char} (h : state.MayEndAt cs)
    (htail : tail <:+ cs) : state.MayEndAt tail := by
  cases state with
  | text => exact fun hmark => h (hmark.trans htail)
  | comment => exact fun hmark => h (hmark.trans htail)
  | rawText tag => exact fun part hne hpart back hback => h part hne hpart back (hback.trans htail)

namespace Lexer

open Token

variable {cs ds : List Char} {offset start stop : Nat}

/-- What is pending when a text is read only comes before what is read. -/
theorem running_pending {pending front : List Char} {first : Nat} {tokens : List Token}
    {state : LexState} (h : running cs offset pending start = .ok (tokens, state))
    (hstart : start = first + Text.width front.reverse)
    (hoffset : offset = start + Text.width pending.reverse) :
    join (running cs offset (pending ++ front) first) =
      join (.ok (flush front first start ++ tokens, state)) := by
  induction hlen : cs.length using Nat.strongRecOn generalizing cs offset pending with
  | ind k ih =>
    have hflush : ∀ ts : List Token, joined (flush (pending ++ front) first offset ++ ts) =
        joined (flush front first start ++ (flush pending start offset ++ ts)) := by
      intro ts
      rw [← List.append_assoc]
      exact joined_append_left (joined_flush pending front hstart hoffset) ts
    rw [← behind_ok, ← h]
    -- what is pending is flushed before the first piece, or where the text ends
    cases text_begins h with
    | done hcs =>
      subst hcs
      simpa [running, text, join, Except.map] using hflush []
    | mark hcs =>
      subst hcs
      rw [running_mark, running_mark, behind_ok]
      have hmark := joined_flush ('<' :: pending) front hstart (c := offset + 1)
        (by simp [hoffset, Text.units]; omega)
      simpa [join, Except.map] using hmark
    | plain before rest hne hcs hplain =>
      have hp := hplain []
      simp only [List.append_nil] at hp
      rw [hp] at h ⊢
      have hlength : rest.length < k := by
        have := List.length_pos_iff.2 hne
        rw [← hlen, hcs, List.length_append]
        omega
      rw [hp, h, behind_ok, ← List.append_assoc]
      exact ih _ hlength h (by simp [hoffset]; omega) rfl
    | piece before rest ts hne hcs hpiece =>
      have hp := hpiece []
      simp only [List.append_nil] at hp
      rw [hp, hp, behind_behind]
      exact join_behind_left (hflush ts) _
    | enters before rest ts state hcs hstays henters =>
      have hp := henters []
      simp only [List.append_nil] at hp
      rw [hp, join_behind_right _ (hp pending start), behind_behind]
      exact join_behind_left (hflush ts) _

/-- A chunk that goes on in a comment does not end within its closing mark. -/
theorem no_part_of_mark {as : List Char} (h : Text.cut? ['-', '-', '>'] as = none)
    (hcut : ¬ ['-'] <:+ as) (part : List Char) (hpart : part <+: ['-', '-', '>'])
    (hback : part <:+ as) : part = [] := by
  simp only [List.prefix_cons_iff, List.prefix_nil] at hpart
  rcases hpart with rfl | ⟨_, rfl, rfl | ⟨_, rfl, rfl | ⟨_, rfl, rfl⟩⟩⟩
  · rfl
  · exact absurd hback hcut
  · exact absurd ((List.suffix_cons '-' ['-']).trans hback) hcut
  · exact absurd hback (Text.not_suffix_of_cut? h)

theorem after_through (as bs : List Char) (offset n : Nat) :
    after offset (as ++ bs) (as.length + n) = after (offset + Text.width as) bs n := by
  rw [after, List.take_length_add_append, Text.width_append, ← Nat.add_assoc, after]

/-- Text that stays in a state is the front of what is read from it. -/
theorem chunk_through {as : List Char} {state : LexState} (bs : List Char) (offset : Nat)
    (hstays : Stays as state) (hcut : state.MayEndAt as) :
    join (chunk (as ++ bs) state offset) =
      join (behind (flush as.reverse offset (offset + Text.width as))
        (chunk bs state (offset + Text.width as))) := by
  have hmiddle : offset + Text.width as = offset + Text.width as.reverse.reverse := by simp
  have hwidth : offset + Text.width (as ++ bs) = offset + Text.width as + Text.width bs := by
    rw [Text.width_append, Nat.add_assoc]
  cases state with
  | text => exact absurd hstays id
  | comment start =>
    have hall := Text.cut?_append_none bs hstays (no_part_of_mark hstays hcut)
    cases hback : Text.cut? ['-', '-', '>'] bs with
    | none =>
      rw [hback] at hall
      have hflush := joined_flush bs.reverse as.reverse hmiddle
        (c := offset + Text.width as + Text.width bs) (by simp)
      simp only [chunk, hall, hback, hwidth, Option.map_none]
      simpa [join, behind, Except.map] using hflush
    | some cut =>
      obtain ⟨inside, tail⟩ := cut
      simp only [hback, Option.map_some] at hall
      have hflush := joined_flush (inside ++ ['-', '-', '>']).reverse as.reverse hmiddle
        (c := offset + Text.width as + Text.width inside + 3) (by simp [Text.units]; omega)
      simp only [chunk, hall, hback, bind_behind, behind_behind, Text.width_append,
        ← Nat.add_assoc]
      apply join_behind_left
      simpa using hflush
  | rawText tag =>
    have hall := rawLength_append_none bs hstays hcut
    cases hback : rawLength tag bs with
    | none =>
      rw [hback, Option.map_none] at hall
      have hflush := joined_flush bs.reverse as.reverse hmiddle
        (c := offset + Text.width as + Text.width bs) (by simp)
      rw [chunk_stays (show Stays (as ++ bs) (.rawText tag) from hall),
        chunk_stays (show Stays bs (.rawText tag) from hback), hwidth]
      simpa [join, behind, Except.map] using hflush
    | some n =>
      rw [hback, Option.map_some] at hall
      have hflush := joined_flush (bs.take n).reverse as.reverse hmiddle
        (c := after (offset + Text.width as) bs n) (by simp [after])
      have hdrop : (as ++ bs).drop (as.length + n + 2) = bs.drop (n + 2) := by
        rw [Nat.add_assoc, List.drop_length_add_append]
      simp only [chunk, rawTextAt, hall, hback, hwidth, after_through, hdrop,
        List.take_length_add_append]
      cases closeTagAt (bs.drop (n + 2)) (after (offset + Text.width as) bs n)
        (offset + Text.width as + Text.width bs) with
      | error => rfl
      | ok read =>
        simp only [bind, Except.bind, Nat.add_assoc as.length, after_through,
          List.drop_length_add_append]
        cases text (offset + Text.width as + Text.width bs) _ _ [] _ with
        | error => rfl
        | ok more =>
          have hmore := joined_append_left hflush (read.1 :: more.1)
          simpa [join, behind, Except.map] using hmore

theorem running_append {as bs : List Char} {pending : List Char} {t₁ t₂ : List Token}
    {s₁ s₂ : LexState} (ha : running as offset pending start = .ok (t₁, s₁)) (hcut : s₁.MayEndAt as)
    (hb : chunk bs s₁ (offset + Text.width as) = .ok (t₂, s₂))
    (hoffset : offset = start + Text.width pending.reverse) :
    join (running (as ++ bs) offset pending start) = join (.ok (t₁ ++ t₂, s₂)) := by
  induction hlen : as.length using Nat.strongRecOn generalizing as offset pending start t₁ with
  | ind k ih =>
    -- what is left is read on from the same place
    have hnext : ∀ {front rest : List Char}, as = front ++ rest →
        chunk bs s₁ (offset + Text.width front + Text.width rest) = .ok (t₂, s₂) := by
      intro front rest has
      rwa [Nat.add_assoc, ← Text.width_append, ← has]
    have hlength : ∀ {front rest : List Char}, front ≠ [] → as = front ++ rest → rest.length < k := by
      intro front rest hne has
      have := List.length_pos_iff.2 hne
      rw [← hlen, has, List.length_append]
      omega
    cases text_begins ha with
    | done has =>
      subst has
      simp only [running, text, Except.ok.injEq, Prod.mk.injEq] at ha
      obtain ⟨rfl, rfl⟩ := ha
      have hpending : offset = offset + Text.width ([] : List Char).reverse := rfl
      exact running_pending hb hoffset hpending
    | mark has =>
      -- the first chunk would end within a mark
      subst has
      rw [running_mark] at ha
      simp only [Except.ok.injEq, Prod.mk.injEq] at ha
      obtain ⟨-, rfl⟩ := ha
      exact absurd List.suffix_rfl hcut
    | plain before rest hne has hplain =>
      have hrest := hplain [] pending start
      simp only [List.append_nil] at hrest
      rw [hplain]
      rw [hrest] at ha
      exact ih _ (hlength hne has) ha (hcut.suffix (has ▸ List.suffix_append _ _)) (hnext has)
        (by simp [hoffset]; omega) rfl
    | piece before rest ts hne has hpiece =>
      have hrest := hpiece [] pending start
      simp only [List.append_nil] at hrest
      rw [hrest] at ha
      obtain ⟨more, hmore, rfl⟩ := behind_eq_ok ha
      rw [hpiece, List.append_assoc, ← behind_ok]
      exact join_behind_right _ (ih _ (hlength hne has) hmore
        (hcut.suffix (has ▸ List.suffix_append _ _)) (hnext has) (by simp) rfl)
    | enters before rest ts state has hstays henters =>
      have hrest := henters [] pending start
      simp only [List.append_nil, ha, chunk_stays hstays, behind_ok] at hrest
      obtain ⟨us, hus, hjoined⟩ := join_eq_ok hrest
      obtain ⟨rfl, rfl⟩ := Prod.mk.inj (Except.ok.inj hus)
      have hthrough := chunk_through bs (offset + Text.width before) hstays
        (hcut.suffix (has ▸ List.suffix_append _ _))
      rw [hnext has] at hthrough
      rw [henters, join_behind_right _ hthrough, behind_behind, behind_ok, ← behind_ok, ← behind_ok]
      exact join_behind_left hjoined.symm _

/-- A state that is left in a chunk is left for running text, whatever comes after the chunk. -/
theorem chunk_leaves {s s' : LexState} {tokens : List Token}
    (h : chunk cs s offset = .ok (tokens, s')) (hleaves : ¬ Stays cs s) :
    ∃ front rest ts, cs = front ++ rest ∧ ∀ ds, chunk (cs ++ ds) s offset =
      behind ts (running (rest ++ ds) (offset + Text.width front) [] (offset + Text.width front)) := by
  cases s with
  | text => exact ⟨[], cs, [], rfl, fun ds => by simp [chunk, running]⟩
  | comment start =>
    obtain ⟨⟨inside, tail⟩, hcut⟩ := Option.ne_none_iff_exists'.1 hleaves
    have htext := Text.eq_of_cut? hcut
    rw [← List.append_assoc] at htext
    refine ⟨_, tail, flush (inside ++ ['-', '-', '>']).reverse offset
      (offset + Text.width inside + 3), htext, fun ds => ?_⟩
    have hnext : offset + Text.width (inside ++ ['-', '-', '>']) = offset + Text.width inside + 3 := by
      simp [Text.units]
      omega
    have hstop : offset + Text.width (cs ++ ds) =
        offset + Text.width inside + 3 + Text.width (tail ++ ds) := by
      rw [htext, List.append_assoc, Text.width_append, ← Nat.add_assoc, hnext]
    simp only [chunk, Text.cut?_append ds hcut, bind_behind, hstop, hnext, running]
  | rawText tag =>
    obtain ⟨raw, hraw, -⟩ := bind_eq_ok.1 h
    cases raw with
    | none => exact absurd (stays_of_rawTextAt hraw) hleaves
    | some raw =>
      obtain ⟨ts, n⟩ := raw
      refine ⟨cs.take n, cs.drop n, ts, (List.take_append_drop n cs).symm, fun ds => ?_⟩
      exact chunk_raw hraw ds

/-- A text that is cut where no mark is split is read in two chunks as it is read at once. -/
theorem chunk_append {as bs : List Char} {s s₁ s₂ : LexState} {t₁ t₂ : List Token}
    (ha : chunk as s offset = .ok (t₁, s₁))
    (hb : chunk bs s₁ (offset + Text.width as) = .ok (t₂, s₂)) (hcut : s₁.MayEndAt as) :
    ∃ ts, chunk (as ++ bs) s offset = .ok (ts, s₂) ∧ joined ts = joined (t₁ ++ t₂) := by
  apply join_eq_ok
  by_cases hstays : Stays as s
  · -- the first chunk is text all through
    rw [chunk_stays hstays] at ha
    obtain ⟨rfl, rfl⟩ := Prod.mk.inj (Except.ok.inj ha)
    rw [chunk_through bs offset hstays hcut, hb, behind_ok]
  · obtain ⟨front, rest, ts, has, hchunk⟩ := chunk_leaves ha hstays
    have hrest := hchunk []
    simp only [List.append_nil, ha] at hrest
    obtain ⟨more, hmore, rfl⟩ := behind_eq_ok hrest.symm
    rw [hchunk, List.append_assoc, ← behind_ok]
    refine join_behind_right _ (running_append hmore (hcut.suffix (has ▸ List.suffix_append _ _))
      ?_ (by simp))
    rwa [Nat.add_assoc, ← Text.width_append, ← has]

theorem chunk_append_comment :
    let front := "<p title=a>b<!-- c".toList
    let back := "d -->e<br>".toList
    let before := [.openTag ⟨"p", .element, [.named "title" (.literal "a" none) ⟨10, 17⟩], false,
      ⟨7, 18⟩⟩, .text "b" ⟨18, 19⟩, .text "<!-- c" ⟨19, 25⟩]
    let behind := [.text "d -->" ⟨25, 30⟩, .text "e" ⟨30, 31⟩,
      .openTag ⟨"br", .void, [], false, ⟨31, 35⟩⟩]
    chunk front .text 7 = .ok (before, .comment 19) ∧
    chunk back (.comment 19) (7 + Text.width front) = .ok (behind, .text) ∧
    ∃ ts, chunk (front ++ back) .text 7 = .ok (ts, .text) ∧ joined ts = joined (before ++ behind) := by
  intro front back before behind
  have hfront : chunk front .text 7 = .ok (before, .comment 19) :=
    toOption_eq_some.1 (by decide +kernel)
  have hback : chunk back (.comment 19) (7 + Text.width front) = .ok (behind, .text) :=
    toOption_eq_some.1 (by decide +kernel)
  exact ⟨hfront, hback, chunk_append hfront hback (show ¬ ['-'] <:+ front by decide +kernel)⟩

end Lexer

end LiveTemplate
