import LiveTemplate.Proofs.Expr.Faults
import LiveTemplate.Proofs.Markup.Extending
import LiveTemplate.Proofs.Markup.Tokens

/-!
Faults that the lexer finds lie within the chunk it reads, from the start of the tag or mark that is
at fault. There is one exception: a chunk that ends behind the slash of a closing tag is said to hold
a stray character behind its end.
-/

namespace LiveTemplate

set_option autoImplicit false

/-- The fault of a closing tag with nothing behind its slash. -/
def SyntaxError.behindSlash (stop : Nat) : SyntaxError :=
  ⟨.strayCharacter .tagName (Text.quoteHead []), ⟨stop, stop + 1⟩⟩

/-- A fault between two offsets, or behind a slash that ends the text read up to the second. -/
def SyntaxError.FoundIn (lo hi : Nat) (cs : List Char) (e : SyntaxError) : Prop :=
  e.span.Between lo hi ∨ ['<', '/'] <:+ cs ∧ e = behindSlash hi

theorem SyntaxError.FoundIn.mono {lo lo' hi : Nat} {cs cs' : List Char} {e : SyntaxError}
    (h : e.FoundIn lo hi cs) (hlo : lo' ≤ lo) (hcs : cs <:+ cs') : e.FoundIn lo' hi cs' := by
  rcases h with h | ⟨hslash, h⟩
  · exact .inl (h.mono (Int.ofNat_le.mpr hlo) (Int.le_refl _))
  · exact .inr ⟨hslash.trans hcs, h⟩

namespace Lexer

variable {cs rest : List Char} {offset start stop : Nat} {ctx : TagContext}

/-- What a reader refuses lies between two offsets. -/
abbrev Stops {α : Type} (lo hi : Nat) (x : Except SyntaxError α) : Prop :=
  Ends (fun e => e.span.Between lo hi) (fun _ => True) x

theorem stray_stops {α : Type} (place : NamePlace) (hne : cs ≠ [])
    (hstop : offset + Text.width cs = stop) (hlo : start ≤ offset) :
    Stops start stop (stray (α := α) place cs offset) := by
  have hlen := List.length_pos_iff.2 hne
  have hwidth := Text.length_le_width cs
  simp only [stray, Ends, Span.Between]
  omega

theorem kindOf_stops {name : List Char} (h : start + name.length + 1 ≤ stop) :
    Stops start stop (kindOf name start) := by
  unfold kindOf
  dsimp only
  split
  · trivial
  · simp only [Ends, Span.Between]
    omega

theorem codeAt_stops (hlo : start ≤ offset) (hhi : offset ≤ stop) :
    Stops start stop (codeAt rest offset stop) := by
  unfold codeAt
  split
  · simp only [Ends, Span.Between]
    omega
  · trivial

theorem valueAt_stops (name : String) (hlo : ctx.start ≤ offset)
    (hstop : offset + Text.width cs = ctx.stop) :
    Stops ctx.start ctx.stop (valueAt ctx name cs offset) := by
  unfold valueAt
  split
  · simp only [Ends, Span.Between]
    omega
  · apply (codeAt_stops hlo (by omega)).bind
    rintro ⟨slice, n⟩ - -
    trivial
  · split_ifs
    · split
      · trivial
      · simp only [Ends, Span.Between]
        omega
    · dsimp only
      split_ifs
      · exact stray_stops _ (List.cons_ne_nil _ _) hstop hlo
      · trivial

theorem attributeAt_stops (c : Char) (hlo : ctx.start ≤ offset)
    (hstop : offset + Text.width (c :: rest) = ctx.stop) :
    Stops ctx.start ctx.stop (attributeAt ctx c rest offset) := by
  have hafter (n : Nat) : after offset (c :: rest) n + Text.width ((c :: rest).drop n) = ctx.stop :=
    (after_width offset _ n).trans hstop
  have hle (n : Nat) : ctx.start ≤ after offset (c :: rest) n := Nat.le_add_right_of_le hlo
  unfold attributeAt
  dsimp only
  split_ifs with hnone hends
  · exact stray_stops _ (List.cons_ne_nil _ _) hstop hlo
  · refine stray_stops _ (fun hnil => ?_) (hafter _) (hle _)
    rw [hnil] at hends
    exact absurd hends (by decide)
  · split
    · apply (valueAt_stops _ (hle _) (hafter _)).bind
      rintro ⟨value, m⟩ - -
      trivial
    · trivial

theorem attributesAt_stops (hlo : ctx.start ≤ offset) (hstop : offset + Text.width cs = ctx.stop) :
    Stops ctx.start ctx.stop (attributesAt ctx cs offset) := by
  induction hlen : cs.length using Nat.strongRecOn generalizing cs offset with
  | ind k ih =>
    have hhere : ctx.start ≤ after offset cs (count isTagBlank cs) := Nat.le_add_right_of_le hlo
    -- what stands behind the blanks
    have hrest : after offset cs (count isTagBlank cs) +
        Text.width (cs.drop (count isTagBlank cs)) = ctx.stop := (after_width ..).trans hstop
    have hleft : ∀ {b m : Nat} {c : Char} {rest : List Char}, cs.drop b = c :: rest →
        (rest.drop m).length < k := by
      intro b m c rest hdrop
      have := congrArg List.length hdrop
      simp only [List.length_drop, List.length_cons] at this ⊢
      omega
    unfold attributesAt
    dsimp only
    split
    · simp only [Ends, Span.Between]
      omega
    · trivial
    · trivial
    · rename_i rest hdrop
      rw [hdrop] at hrest
      apply (codeAt_stops hhere (by omega)).bind
      rintro ⟨slice, m⟩ - -
      dsimp only
      have hbrace : Text.width ('{' :: rest) = 1 + Text.width rest := rfl
      have hnext : after (after offset cs (count isTagBlank cs) + 1) rest m +
          Text.width (rest.drop m) = ctx.stop := (after_width ..).trans (by omega)
      apply (ih _ (hleft hdrop) (Nat.le_add_right_of_le (Nat.le_succ_of_le hhere)) hnext rfl).bind
      rintro ⟨more, selfClosing, l⟩ - -
      trivial
    · rename_i c rest _ _ _ hdrop
      rw [hdrop] at hrest
      apply (attributeAt_stops c hhere hrest).bind
      rintro ⟨attr, m⟩ - -
      have hnext := after_width (after offset cs (count isTagBlank cs)) (c :: rest) (m + 1)
      apply (ih _ (hleft hdrop) (Nat.le_add_right_of_le hhere) (hnext.trans hrest) rfl).bind
      rintro ⟨more, selfClosing, l⟩ - -
      trivial

theorem openTagAt_stops (hstop : start + 1 + Text.width rest = stop) :
    Stops start stop (openTagAt rest start stop) := by
  have hafter (n : Nat) : after (start + 1) rest n + Text.width (rest.drop n) = stop :=
    (after_width _ _ n).trans hstop
  have hle (n : Nat) : start ≤ after (start + 1) rest n :=
    Nat.le_trans (Nat.le_succ _) (Nat.le_add_right _ _)
  have hname (n : Nat) : start + (rest.take n).length + 1 ≤ stop := by
    have := Text.length_le_width rest
    have := List.length_take_le' n rest
    omega
  unfold openTagAt
  dsimp only
  apply (kindOf_stops (hname _)).bind
  rintro kind - -
  split_ifs with hends
  · apply (attributesAt_stops (hle _) (hafter _)).bind
    rintro ⟨attributes, selfClosing, m⟩ - -
    trivial
  · refine stray_stops _ (fun hnil => ?_) (hafter _) (hle _)
    rw [hnil] at hends
    exact hends rfl

theorem closeTagAt_ends (hstop : start + 2 + Text.width rest = stop) :
    Ends (fun e => e.FoundIn start stop ('<' :: '/' :: rest)) (fun _ => True)
      (closeTagAt rest start stop) := by
  have hafter (n : Nat) : after (start + 2) rest n + Text.width (rest.drop n) = stop :=
    (after_width _ _ n).trans hstop
  have hle (n : Nat) : start ≤ after (start + 2) rest n :=
    Nat.le_trans (Nat.le_add_right _ 2) (Nat.le_add_right _ _)
  unfold closeTagAt
  dsimp only
  split_ifs with hnone
  · cases rest with
    | nil =>
      obtain rfl : start + 2 = stop := hstop
      exact .inr ⟨List.suffix_refl _, rfl⟩
    | cons c rest =>
      exact (stray_stops .tagName (List.cons_ne_nil c rest) hstop (Nat.le_add_right _ _)).imp
        (fun _ he => .inl he) fun _ _ => trivial
  · generalize hdrop : rest.drop _ = tail
    split
    · refine .inl ?_
      simp only [Span.Between]
      omega
    · refine Ends.imp (P := fun e => e.span.Between start stop) ?_ (fun _ he => .inl he)
        fun _ h => h
      have hname : start + (rest.take (count isTagNameChar rest)).length + 1 ≤ stop := by
        have := Text.length_le_width rest
        have := List.length_take_le' (count isTagNameChar rest) rest
        omega
      apply (kindOf_stops hname).bind
      rintro kind - -
      trivial
    · rename_i hne _
      rw [← hdrop] at hne ⊢
      exact (stray_stops _ hne (hafter _) (hle _)).imp (fun _ he => .inl he) fun _ _ => trivial

theorem rawTextAt_ends (tag : String) (hstop : offset + Text.width cs = stop) :
    Ends (fun e => e.FoundIn offset stop cs) (fun _ => True) (rawTextAt tag cs offset stop) := by
  unfold rawTextAt
  split
  · trivial
  · rename_i n hraw
    obtain ⟨rest, hrest⟩ := rawLength_mark hraw
    have hleft : cs.drop (n + 2) = rest := by rw [← List.drop_drop, hrest]; rfl
    have hclose : after offset cs n + 2 + Text.width (cs.drop (n + 2)) = stop := by
      have hstart := after_width offset cs n
      have hmark : Text.width ('<' :: '/' :: rest) = 1 + (1 + Text.width rest) := rfl
      rw [hrest] at hstart
      rw [hleft]
      omega
    have hsuffix : '<' :: '/' :: cs.drop (n + 2) <:+ cs := by
      rw [hleft, ← hrest]
      exact List.drop_suffix n cs
    have hfault := (closeTagAt_ends hclose).imp
      (fun _ he => he.mono (Nat.le_add_right offset _) hsuffix) fun _ h => h
    apply hfault.bind
    rintro ⟨close, m⟩ - -
    trivial

end Lexer

/-- A comment that is still open began at or before an offset. -/
def LexState.BeginsBy (stop : Nat) : LexState → Prop
  | .comment start => start ≤ stop
  | .text | .rawText _ => True

namespace Lexer

variable {cs rest : List Char} {offset stop : Nat}

/-- What running text ends with: a fault in it, or tokens and a comment that began in it. -/
abbrev Runs {α : Type} (offset stop : Nat) (cs : List Char)
    (x : Except SyntaxError (α × LexState)) : Prop :=
  Ends (fun e => e.FoundIn offset stop cs) (fun read => read.2.BeginsBy stop) x

/-- What a rest of the text ends with, the whole text does. -/
theorem Runs.back {α : Type} {tail : List Char} {next : Nat} {x : Except SyntaxError (α × LexState)}
    (h : Runs next stop tail x) (hle : offset ≤ next) (htail : tail <:+ cs) :
    Runs offset stop cs x :=
  h.imp (fun _ he => he.mono hle htail) fun _ hs => hs

theorem suffix_of_cut? {mark inside tail : List Char} (h : Text.cut? mark cs = some (inside, tail)) :
    tail <:+ cs :=
  ⟨inside ++ mark, by rw [Text.eq_of_cut? h, List.append_assoc]⟩

theorem text_ends {pending : List Char} {start : Nat} (hstop : offset + Text.width cs = stop) :
    Runs offset stop cs (text stop cs offset pending start) := by
  induction cs, offset, pending, start using text.induct with
  | case1 offset pending start =>
    rw [text]
    trivial
  | case2 offset pending start rest hcut =>
    simp only [text]
    split
    · exact Nat.le_of_add_right_le (Nat.le_of_eq hstop)
    · simp_all
  | case3 offset pending start rest inside tail hcut next =>
    rename_i ih
    simp only [text]
    split
    · simp_all
    · rename_i inside' tail' hcut'
      obtain ⟨rfl, rfl⟩ : inside = inside' ∧ tail = tail' := by simpa [hcut] using hcut'
      have hnext : next + Text.width tail = stop := by
        rw [← hstop, Text.eq_of_cut? hcut]
        simp [next, Text.units]
        omega
      have htail : tail <:+ '<' :: '!' :: '-' :: '-' :: rest :=
        (suffix_of_cut? hcut).trans (List.suffix_append ['<', '!', '-', '-'] rest)
      apply ((ih hnext).back (by simp only [next]; omega) htail).bind
      rintro ⟨more, state⟩ - hstate
      exact hstate
  | case4 offset pending start rest hno hcut =>
    simp only [text]
    split
    · refine .inl ?_
      simp only [Span.Between]
      omega
    · simp_all
  | case5 offset pending start rest hno inside tail hcut ih =>
    simp only [text]
    split
    · simp_all
    · rename_i inside' tail' hcut'
      obtain ⟨rfl, rfl⟩ : inside = inside' ∧ tail = tail' := by simpa [hcut] using hcut'
      have hnext : offset + 2 + Text.width inside + 1 + Text.width tail = stop := by
        rw [← hstop, Text.eq_of_cut? hcut]
        simp [Text.units]
        omega
      exact (ih hnext).back (by omega)
        ((suffix_of_cut? hcut).trans (List.suffix_append ['<', '!'] rest))
  | case6 offset pending start rest ih =>
    have hrest : offset + 2 + Text.width rest = stop := by
      rw [← hstop]
      simp [Text.units]
      omega
    simp only [text]
    apply (closeTagAt_ends hrest).bind
    rintro ⟨close, n⟩ - -
    have htail : rest.drop n <:+ '<' :: '/' :: rest :=
      (List.drop_suffix n rest).trans (List.suffix_append ['<', '/'] rest)
    apply ((ih n ((after_width ..).trans hrest)).back
      (Nat.le_add_right_of_le (Nat.le_add_right _ 2)) htail).bind
    rintro ⟨more, state⟩ - hstate
    exact hstate
  | case7 offset pending start rest _ _ _ hname ih ihraw =>
    have hrest : offset + 1 + Text.width rest = stop := by
      rw [← hstop]
      simp [Text.units]
      omega
    simp only [text, hname, if_true]
    refine Ends.bind (Q := fun _ => True) ((openTagAt_stops hrest).imp (fun _ he => .inl he)
      fun _ h => h) ?_
    rintro ⟨tag, n⟩ - -
    dsimp only
    have hnext : after (offset + 1) rest n + Text.width (rest.drop n) = stop :=
      (after_width ..).trans hrest
    have hle : offset ≤ after (offset + 1) rest n := Nat.le_add_right_of_le (Nat.le_succ offset)
    have htail : rest.drop n <:+ '<' :: rest :=
      (List.drop_suffix n rest).trans (List.suffix_cons '<' rest)
    split
    · apply ((ih n hnext).back hle htail).bind
      rintro ⟨more, state⟩ - hstate
      exact hstate
    · rename_i name _
      refine Ends.bind (Q := fun _ => True) ((rawTextAt_ends name hnext).imp
        (fun _ he => he.mono hle htail) fun _ h => h) ?_
      rintro (_ | ⟨inner, m⟩) - -
      · trivial
      · apply ((ihraw n m ((after_width ..).trans hnext)).back
          (Nat.le_add_right_of_le hle) ((List.drop_suffix m _).trans htail)).bind
        rintro ⟨more, state⟩ - hstate
        exact hstate
  | case8 offset pending start rest _ _ _ hname ih =>
    have hrest : offset + 1 + Text.width rest = stop := by
      rw [← hstop]
      simp [Text.units]
      omega
    simp only [text, hname]
    exact (ih hrest).back (Nat.le_succ offset) (List.suffix_cons '<' rest)
  | case9 offset pending start rest ih =>
    have hrest : offset + 1 + Text.width rest = stop := by
      rw [← hstop]
      simp [Text.units]
      omega
    simp only [text]
    refine Ends.bind (Q := fun _ => True) ((codeAt_stops (Nat.le_refl offset) (by omega)).imp
      (fun _ he => .inl he) fun _ h => h) ?_
    rintro ⟨slice, n⟩ - -
    have htail : rest.drop n <:+ '{' :: rest :=
      (List.drop_suffix n rest).trans (List.suffix_cons '{' rest)
    apply ((ih n ((after_width ..).trans hrest)).back
      (Nat.le_add_right_of_le (Nat.le_succ offset)) htail).bind
    rintro ⟨more, state⟩ - hstate
    exact hstate
  | case10 offset pending start c rest _ _ _ hlt hbrace ih =>
    have hrest : offset + Text.units c + Text.width rest = stop := by
      rw [← hstop, Text.width_cons]
      omega
    simp only [text]
    exact (ih hrest).back (Nat.le_add_right _ _) (List.suffix_cons c rest)

/-- A chunk has its faults in it, and a comment that is open behind it began before or in it. -/
theorem chunk_ends {state : LexState} (hstate : state.BeginsBy offset) :
    Runs offset (offset + Text.width cs) cs (chunk cs state offset) := by
  unfold chunk
  cases state with
  | text => exact text_ends rfl
  | comment start =>
    dsimp only
    split
    · exact Nat.le_add_right_of_le hstate
    · rename_i inside tail hcut
      have hnext : offset + Text.width inside + 3 + Text.width tail = offset + Text.width cs := by
        rw [Text.eq_of_cut? hcut]
        simp [Text.units]
        omega
      apply ((text_ends hnext).back (by omega) (suffix_of_cut? hcut)).bind
      rintro ⟨more, state⟩ - hstate
      exact hstate
  | rawText tag =>
    refine Ends.bind (rawTextAt_ends tag rfl) ?_
    rintro (_ | ⟨inner, m⟩) - -
    · trivial
    · apply ((text_ends (after_width offset cs m)).back (Nat.le_add_right _ _)
        (List.drop_suffix m cs)).bind
      rintro ⟨more, state⟩ - hstate
      exact hstate

end Lexer

/-! ### Whole sources -/

theorem LexState.BeginsBy.mono {state : LexState} {m n : Nat} (h : state.BeginsBy m) (hle : m ≤ n) :
    state.BeginsBy n := by
  cases state with
  | comment start => exact Nat.le_trans h hle
  | text | rawText => trivial

/-- A fault in the front of a text: a slash at its end has the rest of the text behind it. -/
theorem SyntaxError.FoundIn.front {lo offset : Nat} {xs ys : List Char} {e : SyntaxError}
    (h : e.FoundIn lo (offset + Text.width xs) xs) (hlo : lo ≤ offset) :
    e.FoundIn lo (offset + Text.width (xs ++ ys)) (xs ++ ys) := by
  rw [Text.width_append]
  rcases h with h | ⟨hslash, rfl⟩
  · exact .inl (h.mono (Int.le_refl _) (by omega))
  · cases ys with
    | nil => exact .inr ⟨by simpa using hslash, by simp⟩
    | cons c ys =>
      have hpos := Text.units_pos c
      refine .inl ?_
      simp only [behindSlash, Span.Between, Text.width_cons]
      omega

theorem Segment.split_ends {cs : List Char} {offset stop : Nat} {pending : List Char} {start : Nat}
    (hstop : offset + Text.width cs = stop) :
    Lexer.Stops 0 stop (split cs offset pending start) := by
  induction cs, offset, pending, start using split.induct with
  | case1 offset pending start =>
    rw [split]
    trivial
  | case2 offset pending start rest ih =>
    have hrest : offset + 3 + Text.width rest = stop := by
      rw [← hstop]
      simp [Text.units]
      omega
    simp only [split]
    apply (ih hrest).bind
    rintro more - -
    trivial
  | case3 offset pending start rest hno hcut =>
    simp only [split]
    split
    · simp only [Ends, Span.Between]
      omega
    · simp_all
  | case4 offset pending start rest hno inside tail hcut stop =>
    rename_i ih
    simp only [split]
    split
    · simp_all
    · rename_i inside' tail' hcut'
      obtain ⟨rfl, rfl⟩ : inside = inside' ∧ tail = tail' := by simpa [hcut] using hcut'
      rw [Text.eq_of_cut? hcut] at hstop
      apply (ih (by simp [stop, Text.units] at hstop ⊢; omega)).bind
      rintro more - -
      trivial
  | case5 offset pending start c rest _ hno ih =>
    simp only [split]
    exact ih (by rw [← hstop, Text.width_cons]; omega)

theorem Lexer.segments_ends {cs : List Char} {offset : Nat} {segments : List Segment}
    {gaps : List Span} (hsegments : Tiling Segment.Reads offset cs segments gaps) {state : LexState}
    (hstate : state.BeginsBy offset) :
    Runs offset (offset + Text.width cs) cs (Lexer.segments segments state) := by
  induction hsegments generalizing state with
  | nil o => exact hstate
  | @piece o xs ys segment rest gaps hreads _ ih =>
    have hback {α : Type} {x : Except SyntaxError (α × LexState)}
        (hx : Runs (o + Text.width xs) (o + Text.width xs + Text.width ys) ys x) :
        Runs o (o + Text.width (xs ++ ys)) (xs ++ ys) x := by
      rw [Text.width_append, ← Nat.add_assoc]
      exact hx.back (Nat.le_add_right _ _) (List.suffix_append xs ys)
    cases segment with
    | text content start =>
      obtain ⟨rfl, rfl⟩ := hreads
      refine Ends.bind ((chunk_ends hstate).imp (fun _ he => he.front (Nat.le_refl _))
        fun _ h => h) ?_
      rintro ⟨tokens, state⟩ - hstate
      apply (hback (ih hstate)).bind
      rintro ⟨more, state⟩ - hstate
      exact hstate
    | marker kind code codeStart start stop =>
      apply (hback (ih (hstate.mono (Nat.le_add_right _ _)))).bind
      rintro ⟨more, state⟩ - hstate
      exact hstate
  | @gap o xs ys pieces gaps _ ih =>
    rw [Text.width_append, ← Nat.add_assoc]
    exact (ih (hstate.mono (Nat.le_add_right _ _))).back (Nat.le_add_right _ _)
      (List.suffix_append xs ys)

/-- Faults of the lexer lie in the source, but for one behind a slash at its end. -/
theorem Token.ofSource_ends (source : Source) :
    Ends (fun e => e.FoundIn 0 source.width source.chars) (fun _ => True)
      (Token.ofSource source) := by
  have hwidth : 0 + Text.width source.chars = source.width := Nat.zero_add _
  refine Ends.bind (Q := fun _ => True) ((Segment.split_ends hwidth).imp (fun _ he => .inl he)
    fun _ h => h) ?_
  rintro segments hsegments -
  have hstart : LexState.BeginsBy 0 .text := trivial
  have hruns := Lexer.segments_ends (Segment.split_tile hsegments rfl) hstart
  rw [List.reverse_nil, List.nil_append, hwidth] at hruns
  apply hruns.bind
  rintro ⟨tokens, state⟩ - hstate
  dsimp only
  refine Ends.bind (Q := fun _ => True) ?_ fun _ _ _ => trivial
  unfold Lexer.finish
  split
  · refine .inl ?_
    simp only [Span.Between]
    exact ⟨Int.natCast_nonneg _, Int.ofNat_le.mpr hstate, Int.le_refl _⟩
  · trivial

end LiveTemplate
