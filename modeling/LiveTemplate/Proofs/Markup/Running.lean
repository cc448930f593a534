import LiveTemplate.Proofs.Markup.Extending
import LiveTemplate.Proofs.Markup.Readers

/-!
What running text begins with. A text that is read begins with more pending text, with a piece that
is done, or with a comment or raw text that it does not close, and it does so whatever comes after it.
Neighbouring texts may come in one token or in several, so tokens are compared with such texts joined.
-/

namespace LiveTemplate

set_option autoImplicit false

/-! ### Joined texts -/

namespace Token

/-- Puts a token before others. Two texts become one. -/
def joinTo : Token → List Token → List Token
  | .text content span, .text more stop :: rest => .text (content ++ more) (span.join stop) :: rest
  | t, rest => t :: rest

/-- Tokens with neighbouring texts joined. -/
def joined : List Token → List Token
  | [] => []
  | t :: rest => joinTo t (joined rest)

theorem joinTo_joinTo (a b : String) (s t : Span) (rest : List Token) :
    joinTo (.text a s) (joinTo (.text b t) rest) = joinTo (.text (a ++ b) (s.join t)) rest := by
  match rest with
  | [] => rfl
  | .text c u :: rest => simp [joinTo, Span.join, String.append_assoc]
  | .openTag _ :: _ | .closeTag .. :: _ | .code .. :: _ => rfl

theorem joined_joinTo_append (t : Token) (rest us : List Token) :
    joined (joinTo t rest ++ us) = joinTo t (joined (rest ++ us)) := by
  cases t with
  | text content span =>
    match rest with
    | [] => rfl
    | .text more stop :: rest => exact (joinTo_joinTo ..).symm
    | .openTag _ :: _ | .closeTag .. :: _ | .code .. :: _ => rfl
  | openTag | closeTag | code => rfl

theorem joined_joined_append (ts us : List Token) : joined (joined ts ++ us) = joined (ts ++ us) := by
  induction ts with
  | nil => rfl
  | cons t rest ih => rw [joined, joined_joinTo_append, ih, List.cons_append, joined]

/-- What comes first does not matter for what comes after. -/
theorem joined_append_right (ts : List Token) {us vs : List Token} (h : joined us = joined vs) :
    joined (ts ++ us) = joined (ts ++ vs) := by
  induction ts with
  | nil => exact h
  | cons t rest ih => rw [List.cons_append, List.cons_append, joined, joined, ih]

theorem joined_append_left {ts us : List Token} (h : joined ts = joined us) (vs : List Token) :
    joined (ts ++ vs) = joined (us ++ vs) := by
  rw [← joined_joined_append, h, joined_joined_append]

end Token
namespace Lexer

open Token

/-- What reading gives, with neighbouring texts joined. -/
def join (r : Except SyntaxError (List Token × LexState)) :
    Except SyntaxError (List Token × LexState) :=
  r.map fun read => (joined read.1, read.2)

/-- What reading gives, behind tokens that are read already. -/
def behind (ts : List Token) (r : Except SyntaxError (List Token × LexState)) :
    Except SyntaxError (List Token × LexState) :=
  r.map fun read => (ts ++ read.1, read.2)

@[simp] theorem behind_nil (r : Except SyntaxError (List Token × LexState)) : behind [] r = r := by
  cases r <;> rfl

@[simp] theorem behind_behind (ts us : List Token)
    (r : Except SyntaxError (List Token × LexState)) :
    behind ts (behind us r) = behind (ts ++ us) r := by
  cases r <;> simp [behind, Except.map]

@[simp] theorem behind_ok (ts us : List Token) (state : LexState) :
    behind ts (.ok (us, state)) = .ok (ts ++ us, state) := rfl

theorem behind_eq_ok {ts us : List Token} {state : LexState}
    {r : Except SyntaxError (List Token × LexState)} (h : behind ts r = .ok (us, state)) :
    ∃ vs, r = .ok (vs, state) ∧ us = ts ++ vs := by
  match r with
  | .ok (vs, state') =>
    simp only [behind_ok, Except.ok.injEq, Prod.mk.injEq] at h
    exact ⟨vs, by rw [h.2], h.1.symm⟩
  | .error _ => simp [behind, Except.map] at h

theorem join_behind_right (ts : List Token) {r r' : Except SyntaxError (List Token × LexState)}
    (h : join r = join r') : join (behind ts r) = join (behind ts r') := by
  match r, r' with
  | .ok (us, state), .ok (vs, state') =>
    simp only [join, Except.map, Except.ok.injEq, Prod.mk.injEq] at h
    simp [join, behind, Except.map, joined_append_right ts h.1, h.2]
  | .error _, .error _ => simpa [join, behind, Except.map] using h
  | .ok _, .error _ | .error _, .ok _ => simp [join, Except.map] at h

theorem join_behind_left {ts us : List Token} (h : joined ts = joined us)
    (r : Except SyntaxError (List Token × LexState)) : join (behind ts r) = join (behind us r) := by
  cases r with
  | error => rfl
  | ok read => simp [join, behind, Except.map, joined_append_left h]

theorem join_eq_ok {r : Except SyntaxError (List Token × LexState)} {ts : List Token}
    {state : LexState} (h : join r = join (.ok (ts, state))) :
    ∃ us, r = .ok (us, state) ∧ joined us = joined ts := by
  match r with
  | .ok (us, state') =>
    simp only [join, Except.map, Except.ok.injEq, Prod.mk.injEq] at h
    exact ⟨us, by rw [h.2], h.1⟩
  | .error _ => simp [join, Except.map] at h

theorem behind_token (front : List Token) (t : Token)
    (r : Except SyntaxError (List Token × LexState)) :
    behind (front ++ [t]) r = (do
      let (more, state) ← r
      .ok (front ++ t :: more, state)) := by
  cases r with
  | error => rfl
  | ok read => simp [behind, Except.map, bind, Except.bind]

theorem bind_behind (ts : List Token) (r : Except SyntaxError (List Token × LexState)) :
    (do let (more, state) ← r; .ok (ts ++ more, state)) = behind ts r := by
  cases r <;> rfl

/-! ### Running text -/

open Token

variable {cs ds : List Char} {offset start stop : Nat}

/-- Pending text may be flushed in two parts. -/
theorem joined_flush (pending front : List Char) {a b c : Nat} (hb : b = a + Text.width front.reverse)
    (hc : c = b + Text.width pending.reverse) :
    joined (flush (pending ++ front) a c) = joined (flush front a b ++ flush pending b c) := by
  by_cases hfront : front = []
  · subst hfront
    obtain rfl : b = a := by simpa using hb
    simp [flush]
  · by_cases hpending : pending = []
    · subst hpending
      obtain rfl : c = b := by simpa using hc
      simp [flush]
    · simp [flush, hfront, hpending, joined, joinTo, Span.join, String.ofList_append]

/-- Running text up to its end. -/
def running (cs : List Char) (offset : Nat) (pending : List Char) (start : Nat) :
    Except SyntaxError (List Token × LexState) :=
  text (offset + Text.width cs) cs offset pending start

/-- A state that is not left before the text ends. -/
def Stays (cs : List Char) : LexState → Prop
  | .text => False
  | .comment _ => Text.cut? ['-', '-', '>'] cs = none
  | .rawText tag => rawLength tag cs = none

theorem chunk_stays {state : LexState} (h : Stays cs state) :
    chunk cs state offset = .ok (flush cs.reverse offset (offset + Text.width cs), state) := by
  cases state with
  | text => exact absurd h id
  | comment => simp only [chunk, show Text.cut? _ cs = none from h]
  | rawText tag =>
    simp only [chunk, rawTextAt, show rawLength tag cs = none from h]
    rfl

theorem stays_of_rawTextAt {tag : String} (h : rawTextAt tag cs offset stop = .ok none) :
    Stays cs (.rawText tag) := by
  simp only [rawTextAt] at h
  split at h
  · assumption
  · obtain ⟨_, -, h⟩ := bind_eq_ok.1 h
    simp at h

/-- What running text begins with, whatever comes after it: more pending text, a piece that is done,
or a comment or raw text that is left open. -/
inductive Begins (cs : List Char) (offset : Nat) : Prop where
  | done (h : cs = [])
  | mark (h : cs = ['<'])
  | plain (front rest : List Char) (hne : front ≠ []) (hcs : cs = front ++ rest)
      (h : ∀ ds pending start, running (cs ++ ds) offset pending start =
        running (rest ++ ds) (offset + Text.width front) (front.reverse ++ pending) start)
  | piece (front rest : List Char) (ts : List Token) (hne : front ≠ []) (hcs : cs = front ++ rest)
      (h : ∀ ds pending start, running (cs ++ ds) offset pending start =
        behind (flush pending start offset ++ ts)
          (running (rest ++ ds) (offset + Text.width front) [] (offset + Text.width front)))
  | enters (front rest : List Char) (ts : List Token) (state : LexState) (hcs : cs = front ++ rest)
      (hstays : Stays rest state)
      (h : ∀ ds pending start, join (running (cs ++ ds) offset pending start) =
        join (behind (flush pending start offset ++ ts)
          (chunk (rest ++ ds) state (offset + Text.width front))))

theorem text_comment {rest inside tail : List Char} (pending : List Char)
    (h : Text.cut? ['-', '-', '>'] rest = some (inside, tail)) :
    text stop ('<' :: '!' :: '-' :: '-' :: rest) offset pending start =
      behind (flush pending start offset ++ flush (['<', '!', '-', '-'] ++ inside ++ ['-', '-', '>']).reverse
          offset (offset + 4 + Text.width inside + 3))
        (text stop tail (offset + 4 + Text.width inside + 3) [] (offset + 4 + Text.width inside + 3)) := by
  simp only [text]
  split
  · simp_all
  · rename_i inside' tail' hcut
    obtain ⟨rfl, rfl⟩ : inside = inside' ∧ tail = tail' := by simpa [h] using hcut
    cases text stop tail _ [] _ <;> rfl

/-- What is read after a chunk that stays in a comment goes on with it. -/
theorem text_open_comment {rest : List Char} (pending : List Char) (start : Nat) :
    join (running ('<' :: '!' :: '-' :: '-' :: rest) offset pending start) =
      join (behind (flush pending start offset ++ flush ['-', '-', '!', '<'] offset (offset + 4))
        (chunk rest (.comment offset) (offset + 4))) := by
  have hmark : offset + 4 = offset + Text.width ['<', '!', '-', '-'] := rfl
  have hstop : offset + Text.width ('<' :: '!' :: '-' :: '-' :: rest) =
      offset + 4 + Text.width rest := by
    simp [Text.units]
    omega
  rw [running, hstop]
  cases hcut : Text.cut? ['-', '-', '>'] rest with
  | none =>
    have hflush := joined_flush rest.reverse ['-', '-', '!', '<'] hmark
      (c := offset + 4 + Text.width rest) (by simp)
    simp only [text, chunk, hcut, behind_ok, List.append_assoc]
    split
    · exact congrArg (fun ts => Except.ok (ts, LexState.comment offset))
        (joined_append_right _ (by simpa using hflush))
    · simp_all
  | some cut =>
    obtain ⟨inside, tail⟩ := cut
    have hflush := joined_flush (inside ++ ['-', '-', '>']).reverse ['-', '-', '!', '<'] hmark
      (c := offset + 4 + Text.width inside + 3) (by simp [Text.units]; omega)
    have hchunk : chunk rest (.comment offset) (offset + 4) =
        behind (flush (inside ++ ['-', '-', '>']).reverse (offset + 4)
            (offset + 4 + Text.width inside + 3))
          (text (offset + 4 + Text.width rest) tail (offset + 4 + Text.width inside + 3) []
            (offset + 4 + Text.width inside + 3)) := by
      simp only [chunk, hcut]
      rfl
    rw [text_comment pending hcut, hchunk, behind_behind]
    apply join_behind_left
    rw [List.append_assoc (flush pending start offset), List.append_assoc ['<', '!', '-', '-']]
    exact joined_append_right _ (by simpa using hflush)

theorem begins_comment (rest : List Char) (offset : Nat) :
    Begins ('<' :: '!' :: '-' :: '-' :: rest) offset := by
  cases hcut : Text.cut? ['-', '-', '>'] rest with
  | none =>
    exact .enters ['<', '!', '-', '-'] rest (flush ['-', '-', '!', '<'] offset (offset + 4))
      (.comment offset) rfl hcut fun ds pending start => text_open_comment pending start
  | some cut =>
    obtain ⟨inside, tail⟩ := cut
    have htext : '<' :: '!' :: '-' :: '-' :: rest =
        (['<', '!', '-', '-'] ++ inside ++ ['-', '-', '>']) ++ tail := by
      simp [Text.eq_of_cut? hcut]
    refine .piece _ tail (flush (['<', '!', '-', '-'] ++ inside ++ ['-', '-', '>']).reverse offset
        (offset + 4 + Text.width inside + 3)) (by simp) htext fun ds pending start => ?_
    have hnext : offset + Text.width (['<', '!', '-', '-'] ++ inside ++ ['-', '-', '>']) =
        offset + 4 + Text.width inside + 3 := by
      simp [Text.units]
      omega
    rw [running, running, List.cons_append, List.cons_append, List.cons_append, List.cons_append,
      text_comment pending (Text.cut?_append ds hcut), hnext]
    rw [Text.eq_of_cut? hcut]
    congr 2
    simp [Text.units]
    omega

theorem begins_declaration {rest inside tail : List Char} (offset : Nat)
    (hno : ∀ more, rest ≠ '-' :: '-' :: more) (hcut : Text.cut? ['>'] rest = some (inside, tail)) :
    Begins ('<' :: '!' :: rest) offset := by
  have htext : '<' :: '!' :: rest = ('<' :: '!' :: (inside ++ ['>'])) ++ tail := by
    simp [Text.eq_of_cut? hcut]
  refine .plain _ tail (by simp) htext fun ds pending start => ?_
  have hno' : ∀ more, rest ++ ds = '-' :: '-' :: more → False := by
    intro more hmore
    match rest, hno with
    | [], _ => simp [Text.cut?] at hcut
    | [c], _ =>
      obtain ⟨rfl, -⟩ := List.cons.inj hmore
      simp [Text.cut?] at hcut
    | c :: d :: rest, hno =>
      simp only [List.cons_append, List.cons.injEq] at hmore
      obtain ⟨rfl, rfl, -⟩ := hmore
      exact hno _ rfl
  have hwidth : offset + Text.width ('<' :: '!' :: rest ++ ds) =
      offset + Text.width ('<' :: '!' :: (inside ++ ['>'])) + Text.width (tail ++ ds) := by
    rw [htext]
    simp
    omega
  rw [running, hwidth, running, List.cons_append, List.cons_append, text]
  · split
    · rename_i hnone
      simp [Text.cut?_append ds hcut] at hnone
    · rename_i inside' tail' hcut'
      obtain ⟨rfl, rfl⟩ : inside = inside' ∧ tail ++ ds = tail' := by
        simpa [Text.cut?_append ds hcut] using hcut'
      congr 1
      · simp [Text.units]
        omega
      · simp
  · exact hno'

/-- A piece that a mark and the characters after it make up. -/
theorem begins_piece {rest : List Char} {n : Nat} (front : List Char) (ts : List Token)
    (hne : front ≠ []) (hn : n ≤ rest.length)
    (h : ∀ ds stop pending start, text stop (front ++ (rest ++ ds)) offset pending start =
      let next := after (offset + Text.width front) (rest ++ ds) n
      behind (flush pending start offset ++ ts) (text stop ((rest ++ ds).drop n) next [] next)) :
    Begins (front ++ rest) offset := by
  have htext : front ++ rest = (front ++ rest.take n) ++ rest.drop n := by simp
  refine .piece _ _ ts (by simp [hne]) htext fun ds pending start => ?_
  have hnext : after (offset + Text.width front) (rest ++ ds) n =
      offset + Text.width (front ++ rest.take n) := by
    rw [after_append ds hn]
    simp [after, Nat.add_assoc]
  have hstop : offset + Text.width (front ++ rest ++ ds) =
      offset + Text.width (front ++ rest.take n) + Text.width (rest.drop n ++ ds) := by
    conv => lhs; rw [htext]
    simp only [Text.width_append, Nat.add_assoc]
  rw [running, hstop, running, List.append_assoc, h, hnext, List.drop_append_of_le_length hn]

theorem begins_close {rest : List Char} {offset stop n : Nat} {t : Token}
    (h : closeTagAt rest offset stop = .ok (t, n)) : Begins ('<' :: '/' :: rest) offset := by
  refine begins_piece ['<', '/'] [t] (by simp) (closeTagAt_append [] stop h).2
    fun ds stop pending start => ?_
  simp only [List.cons_append, List.nil_append, text, (closeTagAt_append ds stop h).1, behind_token]
  rfl

theorem begins_code {rest : List Char} {offset stop n : Nat} {slice : CodeSlice}
    (h : codeAt rest offset stop = .ok (slice, n)) : Begins ('{' :: rest) offset := by
  refine begins_piece ['{'] [.code .body slice ⟨offset, after (offset + 1) rest n⟩] (by simp)
    (codeAt_le h) fun ds stop pending start => ?_
  simp only [List.cons_append, List.nil_append, text, codeAt_append ds stop h, behind_token]
  rw [← after_append ds (codeAt_le h)]
  rfl

theorem startsName_append {rest : List Char} (ds : List Char) (h : startsName rest = true) :
    startsName (rest ++ ds) = true := by
  match rest with
  | c :: rest => exact h

theorem startsName_mark {rest : List Char} (h : startsName rest = true) :
    (∀ more, rest = '!' :: more → False) ∧ ∀ more, rest = '/' :: more → False := by
  constructor
  · rintro more rfl
    exact Bool.noConfusion h
  · rintro more rfl
    exact Bool.noConfusion h

/-- An opening tag that running text follows. -/
theorem text_open {rest : List Char} {n : Nat} {tag : OpenTag} (pending : List Char)
    (hname : startsName rest) (htag : openTagAt rest offset stop = .ok (tag, n))
    (hraw : rawTextOf tag = none) :
    text stop ('<' :: rest) offset pending start =
      behind (flush pending start offset ++ [.openTag tag])
        (text stop (rest.drop n) (after (offset + 1) rest n) [] (after (offset + 1) rest n)) := by
  obtain ⟨hbang, hslash⟩ := startsName_mark hname
  rw [text]
  · rw [if_pos hname, htag]
    simp only [bind, Except.bind, hraw]
    cases text stop _ _ [] _ <;> rfl
  · exact fun more => hbang _
  · exact hbang
  · exact hslash

/-- An opening tag that raw text follows. -/
theorem text_open_raw {rest : List Char} {n : Nat} {tag : OpenTag} {name : String}
    (pending : List Char) (hname : startsName rest)
    (htag : openTagAt rest offset stop = .ok (tag, n)) (hraw : rawTextOf tag = some name)
    (hstop : stop = offset + Text.width ('<' :: rest)) :
    text stop ('<' :: rest) offset pending start =
      behind (flush pending start offset ++ [.openTag tag])
        (chunk (rest.drop n) (.rawText name) (after (offset + 1) rest n)) := by
  obtain ⟨hbang, hslash⟩ := startsName_mark hname
  have hend : stop = after (offset + 1) rest n + Text.width (rest.drop n) := by
    rw [after_width, hstop]
    simp [Text.units]
    omega
  rw [text]
  · rw [if_pos hname, htag]
    simp only [bind, Except.bind, hraw, chunk, ← hend]
    cases rawTextAt name (rest.drop n) (after (offset + 1) rest n) stop with
    | error => rfl
    | ok raw =>
      cases raw with
      | none => rfl
      | some raw =>
        dsimp only
        cases text stop _ _ [] _ with
        | error => rfl
        | ok read => simp [behind, Except.map]
  · exact fun more => hbang _
  · exact hbang
  · exact hslash

/-- Raw text that ends is read to its end, and running text behind it. -/
theorem chunk_raw {tag : String} {tokens : List Token} {n : Nat}
    (h : rawTextAt tag cs offset stop = .ok (some (tokens, n))) (ds : List Char) :
    chunk (cs ++ ds) (.rawText tag) offset =
      behind tokens (running (cs.drop n ++ ds) (after offset cs n) [] (after offset cs n)) := by
  obtain ⟨hraw, hn⟩ := rawTextAt_append ds (offset + Text.width (cs ++ ds)) h
  have hend : offset + Text.width (cs ++ ds) = after offset cs n + Text.width (cs.drop n ++ ds) := by
    have hwidth := after_width offset cs n
    simp only [Text.width_append]
    omega
  simp only [chunk, hraw, running, ← hend, after_append ds hn, List.drop_append_of_le_length hn, bind,
    Except.bind]
  cases text (offset + Text.width (cs ++ ds)) _ _ [] _ <;> rfl

theorem begins_open {rest : List Char} {offset stop n : Nat} {tag : OpenTag}
    (hname : startsName rest) (htag : openTagAt rest offset stop = .ok (tag, n))
    (hraw : ∀ name, rawTextOf tag = some name → ∃ r, rawTextAt name (rest.drop n)
      (after (offset + 1) rest n) stop = .ok r) :
    Begins ('<' :: rest) offset := by
  have hn := (openTagAt_append [] stop htag).2
  cases hkind : rawTextOf tag with
  | none =>
    refine begins_piece ['<'] [.openTag tag] (by simp) hn fun ds stop pending start => ?_
    exact text_open pending (startsName_append ds hname) (openTagAt_append ds stop htag).1 hkind
  | some name =>
    obtain ⟨raw, hraw⟩ := hraw name hkind
    have htext : '<' :: rest = ('<' :: rest.take n) ++ rest.drop n := by simp
    have hnext : after (offset + 1) rest n = offset + Text.width ('<' :: rest.take n) := by
      simp [after, Text.units, Nat.add_assoc]
    have hopen : ∀ ds pending start, running ('<' :: rest ++ ds) offset pending start =
        behind (flush pending start offset ++ [.openTag tag])
          (chunk (rest.drop n ++ ds) (.rawText name) (offset + Text.width ('<' :: rest.take n))) := by
      intro ds pending start
      rw [running, List.cons_append, text_open_raw pending (startsName_append ds hname)
        (openTagAt_append ds _ htag).1 hkind rfl, List.drop_append_of_le_length hn,
        after_append ds hn, hnext]
    -- the raw text may end after the text that is read here
    cases raw with
    | none =>
      refine .enters _ (rest.drop n) [.openTag tag] (.rawText name) htext ?_ fun ds pending start => ?_
      · exact stays_of_rawTextAt hraw
      · rw [hopen]
    | some raw =>
      obtain ⟨tokens, m⟩ := raw
      have hm := (rawTextAt_append [] stop hraw).2
      have htail : '<' :: rest =
          ('<' :: rest.take n ++ (rest.drop n).take m) ++ (rest.drop n).drop m := by
        rw [List.append_assoc, List.take_append_drop, ← htext]
      refine .piece _ _ ([.openTag tag] ++ tokens) (by simp) htail fun ds pending start => ?_
      rw [hnext] at hraw
      rw [hopen, chunk_raw hraw, behind_behind, List.append_assoc, after, Nat.add_assoc,
        ← Text.width_append]

theorem begins_char {c : Char} {rest : List Char} (offset : Nat) (hc : c ≠ '<') (hbrace : c ≠ '{') :
    Begins (c :: rest) offset := by
  refine .plain [c] rest (by simp) rfl fun ds pending start => ?_
  have hstop : offset + Text.width (c :: rest ++ ds) =
      offset + Text.width [c] + Text.width (rest ++ ds) := by
    simp
    omega
  rw [running, hstop, running, List.cons_append, text]
  · simp
  all_goals simp_all

/-- A mark that begins no tag is text. -/
theorem text_mark {rest : List Char} (pending : List Char) (hname : ¬ startsName rest)
    (hbang : ∀ more, rest ≠ '!' :: more) (hslash : ∀ more, rest ≠ '/' :: more) :
    text stop ('<' :: rest) offset pending start =
      text stop rest (offset + 1) ('<' :: pending) start := by
  generalize hafter : text stop rest (offset + 1) ('<' :: pending) start = r
  rw [text]
  · rw [if_neg hname, hafter]
  · exact fun more => hbang _
  · exact hbang
  · exact hslash

theorem begins_mark {rest : List Char} (offset : Nat) (hname : ¬ startsName rest)
    (hbang : ∀ more, rest ≠ '!' :: more) (hslash : ∀ more, rest ≠ '/' :: more) :
    Begins ('<' :: rest) offset := by
  match rest with
  | [] => exact .mark rfl
  | c :: rest =>
    refine .plain ['<'] (c :: rest) (by simp) rfl fun ds pending start => ?_
    have hstop : offset + Text.width ('<' :: c :: rest ++ ds) =
        offset + Text.width ['<'] + Text.width (c :: rest ++ ds) := by
      simp
      omega
    rw [running, hstop, running]
    exact text_mark pending hname (fun more h => hbang rest (by rw [(List.cons.inj h).1]))
      fun more h => hslash rest (by rw [(List.cons.inj h).1])

/-- Running text that is read begins with text or a piece of its own. -/
theorem text_begins {pending : List Char} {tokens : List Token} {state : LexState}
    (h : text stop cs offset pending start = .ok (tokens, state)) : Begins cs offset := by
  unfold text at h
  split at h
  · exact .done rfl
  · exact begins_comment ..
  · rename_i rest hno
    split at h
    · simp at h
    · exact begins_declaration offset (fun more hmore => hno more hmore) ‹_›
  · obtain ⟨⟨close, n⟩, hclose, -⟩ := bind_eq_ok.1 h
    exact begins_close hclose
  · rename_i rest _ hbang hslash
    split_ifs at h with hname
    · obtain ⟨⟨tag, n⟩, htag, h⟩ := bind_eq_ok.1 h
      apply begins_open hname htag
      intro name hname
      simp only [hname] at h
      obtain ⟨raw, hraw, -⟩ := bind_eq_ok.1 h
      exact ⟨raw, hraw⟩
    · exact begins_mark offset hname hbang hslash
  · obtain ⟨⟨slice, n⟩, hcode, -⟩ := bind_eq_ok.1 h
    exact begins_code hcode
  · rename_i c rest _ _ _ hlt hbrace
    exact begins_char offset (fun h => hlt h) (fun h => hbrace h)

theorem running_mark (pending : List Char) (start : Nat) :
    running ['<'] offset pending start = .ok (flush ('<' :: pending) start (offset + 1), .text) := by
  rw [running, text_mark pending (by decide) (by simp) (by simp), text]

end Lexer

end LiveTemplate
