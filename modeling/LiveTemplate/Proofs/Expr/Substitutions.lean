import LiveTemplate.Expr.Reading
import LiveTemplate.Proofs.Expr.Lexemes
import LiveTemplate.Proofs.Expr.Spacing
import LiveTemplate.Proofs.Result
import Mathlib.Data.List.Forall2

/-!
Substitutions in template texts are looked for twice: by the scanner, which walks the whole text to
find the closing back quote, and by the reader of expressions, which walks the raw text alone. No
step of the first walk depends on what stands behind the text it passes, so that the second finds
the same substitutions, and each brace that opens one is closed.
-/

namespace LiveTemplate

set_option autoImplicit false

namespace Text

variable {cs : List Char}

/-- What begins neither an escaped pair nor a last backslash is no backslash. -/
theorem ne_backslash {c : Char} (hlast : c = '\\' → cs = [] → False)
    (hpair : ∀ d tail, c = '\\' → cs = d :: tail → False) : c ≠ '\\' := by
  rintro rfl
  cases cs with
  | nil => exact hlast rfl rfl
  | cons d tail => exact hpair d tail rfl rfl

/-- A quoted run that leaves something over ends at its quote. -/
theorem quotedLength_closed {quote : Char} (h : cs.drop (quotedLength quote cs) ≠ []) :
    ∃ inside back, cs = inside ++ quote :: back ∧ quoteless quote inside = true := by
  induction cs using quotedLength.induct quote with
  | case1 => simp at h
  | case2 => simp [quotedLength] at h
  | case3 c cs ih =>
    rw [quotedLength_pair, Nat.add_comm] at h
    obtain ⟨inside, back, rfl, hinside⟩ := ih h
    exact ⟨'\\' :: c :: inside, back, rfl, by simpa [quoteless] using hinside⟩
  | case4 cs => exact ⟨[], cs, rfl, rfl⟩
  | case5 c cs hlast hpair hne ih =>
    have hc : c ≠ '\\' := ne_backslash hlast hpair
    rw [quotedLength_single _ hc, if_neg hne, Nat.add_comm] at h
    obtain ⟨inside, back, rfl, hinside⟩ := ih h
    refine ⟨c :: inside, back, rfl, ?_⟩
    rw [quoteless]
    · simp [hne, hinside]
    · exact fun h _ => hc h
    · exact fun _ _ h _ => hc h

/-- The search for a closing brace ends at one, and does not depend on what stands behind it. -/
theorem closeLength_closed {depth n : Nat} (h : closeLength depth cs = some n) :
    ∃ inside back, cs = inside ++ '}' :: back ∧ n = inside.length + 1 ∧
      ∀ back', closeLength depth (inside ++ '}' :: back') = some n := by
  induction depth, cs using closeLength.induct generalizing n with
  | case1 depth => simp [closeLength] at h
  | case2 depth c cs hquote ih =>
    rw [closeLength_quote _ _ hquote] at h
    obtain ⟨m, hm, rfl⟩ := Option.map_eq_some_iff.1 h
    have hleft : cs.drop (quotedLength c cs) ≠ [] := by
      intro hnil
      simp [hnil, closeLength] at hm
    have hc : c ≠ '\\' := by
      rintro rfl
      exact absurd hquote (by decide)
    obtain ⟨run, rest, rfl, hrun⟩ := quotedLength_closed hleft
    have hlength := quotedLength_of_quoteless hrun hc
    rw [hlength, List.drop_length_add_append, List.drop_succ_cons, List.drop_zero] at hm
    rw [hlength, List.drop_length_add_append, List.drop_succ_cons, List.drop_zero] at ih
    obtain ⟨inside, back, rfl, rfl, hany⟩ := ih hm
    refine ⟨c :: (run ++ c :: inside), back, by simp, ?_, fun back' => ?_⟩
    · rw [hlength]
      simp only [List.length_cons, List.length_append]
      omega
    · rw [List.cons_append, List.append_assoc, List.cons_append, closeLength_quote _ _ hquote,
        hlength, hlength, List.drop_length_add_append, List.drop_succ_cons, List.drop_zero, hany]
      rfl
  | case3 depth cs _ ih =>
    rw [closeLength_open] at h
    obtain ⟨m, hm, rfl⟩ := Option.map_eq_some_iff.1 h
    obtain ⟨inside, back, rfl, rfl, hany⟩ := ih hm
    refine ⟨'{' :: inside, back, rfl, Nat.add_comm _ _, fun back' => ?_⟩
    rw [List.cons_append, closeLength_open, hany]
    rfl
  | case4 cs =>
    rw [closeLength_last] at h
    exact ⟨[], cs, rfl, (Option.some.inj h).symm, fun back' => h ▸ closeLength_last back'⟩
  | case5 cs depth _ _ ih =>
    rw [closeLength_close] at h
    obtain ⟨m, hm, rfl⟩ := Option.map_eq_some_iff.1 h
    obtain ⟨inside, back, rfl, rfl, hany⟩ := ih hm
    refine ⟨'}' :: inside, back, rfl, Nat.add_comm _ _, fun back' => ?_⟩
    rw [List.cons_append, closeLength_close, hany]
    rfl
  | case6 depth c cs hquote hopen hclose ih =>
    rw [closeLength_other _ _ hquote hopen hclose] at h
    obtain ⟨m, hm, rfl⟩ := Option.map_eq_some_iff.1 h
    obtain ⟨inside, back, rfl, rfl, hany⟩ := ih hm
    refine ⟨c :: inside, back, rfl, Nat.add_comm _ _, fun back' => ?_⟩
    rw [List.cons_append, closeLength_other _ _ hquote hopen hclose, hany]
    rfl

end Text

/-- A template text cut at its substitutions: the piece ahead of the first one, and the source of
each with the piece behind it, all as they are written. -/
structure TemplateText where
  head : List Char
  holes : List (List Char × List Char)
deriving DecidableEq, Repr

namespace TemplateText

open Text Grammar

/-- The characters of a template text. -/
def chars (t : TemplateText) : List Char :=
  t.head ++ t.holes.flatMap fun hole => '$' :: '{' :: hole.1 ++ '}' :: hole.2

/-- The pieces around the substitutions. -/
def pieces (t : TemplateText) : List (List Char) := t.head :: t.holes.map Prod.snd

/-- With characters in front. -/
def behind (cs : List Char) (t : TemplateText) : TemplateText := ⟨cs ++ t.head, t.holes⟩

/-- With a substitution in front. -/
def behindHole (source : List Char) (t : TemplateText) : TemplateText :=
  ⟨[], (source, t.head) :: t.holes⟩

theorem chars_behind (cs : List Char) (t : TemplateText) : (t.behind cs).chars = cs ++ t.chars := by
  simp [chars, behind]

theorem chars_behindHole (source : List Char) (t : TemplateText) :
    (t.behindHole source).chars = '$' :: '{' :: (source ++ '}' :: t.chars) := by
  simp [chars, behindHole]

/-! ### The two walks -/

/-- What the scanner passes up to the closing back quote, and how many characters it takes with it;
none where the text or a substitution stays open. -/
def scan? : List Char → Option (TemplateText × Nat)
  | [] => none
  | ['\\'] => none
  | '\\' :: c :: cs => (scan? cs).map fun (t, n) => (t.behind ['\\', c], 2 + n)
  | '$' :: '{' :: cs =>
    match closeLength 0 cs with
    | none => none
    | some n => (scan? (cs.drop n)).map fun (t, m) => (t.behindHole (cs.take (n - 1)), 2 + n + m)
  | c :: cs =>
    if c = '\x60' then some (⟨[], []⟩, 1)
    else (scan? cs).map fun (t, n) => (t.behind [c], 1 + n)
termination_by cs => cs.length

/-- What the reader of expressions finds in a raw text; none where the brace of a substitution is
not closed. -/
def walk? : List Char → Option TemplateText
  | [] => some ⟨[], []⟩
  | ['\\'] => some ⟨['\\'], []⟩
  | '\\' :: c :: cs => (walk? cs).map (behind ['\\', c])
  | '$' :: '{' :: cs =>
    match closeLength 0 cs with
    | none => none
    | some n => (walk? (cs.drop n)).map (behindHole (cs.take (n - 1)))
  | c :: cs => (walk? cs).map (behind [c])
termination_by raw => raw.length

section Steps
variable {c : Char} {cs inside : List Char}

theorem scan?_single (hc : c ≠ '\\') (hopen : ∀ tail, c = '$' → cs ≠ '{' :: tail) :
    scan? (c :: cs) = if c = '\x60' then some (⟨[], []⟩, 1)
      else (scan? cs).map fun (t, n) => (t.behind [c], 1 + n) := by
  rw [scan?]
  · exact fun h _ => hc h
  · exact fun _ _ h _ => hc h
  · exact fun tail h htail => hopen tail h htail

theorem walk?_single (hc : c ≠ '\\') (hopen : ∀ tail, c = '$' → cs ≠ '{' :: tail) :
    walk? (c :: cs) = (walk? cs).map (behind [c]) := by
  rw [walk?]
  · exact fun h _ => hc h
  · exact fun _ _ h _ => hc h
  · exact fun tail h htail => hopen tail h htail

theorem scan?_hole (h : closeLength 0 (inside ++ '}' :: cs) = some (inside.length + 1)) :
    scan? ('$' :: '{' :: (inside ++ '}' :: cs)) =
      (scan? cs).map fun (t, n) => (t.behindHole inside, inside.length + 3 + n) := by
  rw [scan?, h]
  dsimp only
  rw [List.drop_length_add_append, List.drop_succ_cons, List.drop_zero, Nat.add_sub_cancel,
    List.take_left, Nat.add_comm 2]

theorem walk?_hole (h : closeLength 0 (inside ++ '}' :: cs) = some (inside.length + 1)) :
    walk? ('$' :: '{' :: (inside ++ '}' :: cs)) = (walk? cs).map (behindHole inside) := by
  rw [walk?, h]
  dsimp only
  rw [List.drop_length_add_append, List.drop_succ_cons, List.drop_zero, Nat.add_sub_cancel,
    List.take_left]

end Steps

theorem toOption_later (n : Nat) (r : Except Lexeme.OpenTemplate Nat) :
    (Lexeme.templateLength.later n r).toOption = r.toOption.map (n + ·) := by
  match r with
  | .ok m => rfl
  | .error .text => rfl
  | .error (.substitution m) => rfl

/-- The scanner takes what it passes. -/
theorem toOption_templateLength (cs : List Char) :
    (Lexeme.templateLength cs).toOption = (scan? cs).map Prod.snd := by
  induction cs using scan?.induct with
  | case1 => simp [Lexeme.templateLength, scan?, Except.toOption]
  | case2 => simp [Lexeme.templateLength, scan?, Except.toOption]
  | case3 c cs ih =>
    rw [Lexeme.templateLength, scan?, toOption_later, ih, Option.map_map, Option.map_map]
    rfl
  | case4 cs hclose =>
    rw [Lexeme.templateLength, scan?, hclose]
    rfl
  | case5 cs n hclose ih =>
    rw [Lexeme.templateLength, scan?, hclose]
    dsimp only
    rw [toOption_later, ih, Option.map_map, Option.map_map]
    rfl
  | case6 cs hlast hpair hopen =>
    rw [Lexeme.templateLength_single (by decide) fun h => absurd h (by decide),
      scan?_single (by decide) fun _ h => absurd h (by decide), if_pos rfl, if_pos rfl]
    rfl
  | case7 c cs hlast hpair hopen hne ih =>
    have hc : c ≠ '\\' := ne_backslash hlast hpair
    rw [Lexeme.templateLength_single hc fun h tail htail => hopen tail h htail,
      scan?_single hc hopen, if_neg hne, if_neg hne, toOption_later, ih, Option.map_map,
      Option.map_map]
    rfl

/-- Whatever stands behind a text that the scanner passes, it passes the same, and the reader
finds it in the text alone. -/
theorem walk?_of_scan? {cs : List Char} {t : TemplateText} {n : Nat} (h : scan? cs = some (t, n)) :
    ∃ raw back, cs = raw ++ '\x60' :: back ∧ n = raw.length + 1 ∧ walk? raw = some t ∧
      ∀ back', scan? (raw ++ '\x60' :: back') = some (t, n) := by
  induction cs using scan?.induct generalizing t n with
  | case1 => simp [scan?] at h
  | case2 => simp [scan?] at h
  | case3 c cs ih =>
    rw [scan?] at h
    obtain ⟨⟨t, m⟩, hm, he⟩ := Option.map_eq_some_iff.1 h
    obtain ⟨rfl, rfl⟩ := Prod.mk.inj he
    obtain ⟨raw, back, rfl, rfl, hwalk, hany⟩ := ih hm
    refine ⟨'\\' :: c :: raw, back, rfl, Nat.add_comm 2 _, ?_, fun back' => ?_⟩
    · rw [walk?, hwalk]
      rfl
    · rw [List.cons_append, List.cons_append, scan?, hany]
      rfl
  | case4 cs hclose =>
    rw [scan?, hclose] at h
    simp at h
  | case5 cs n hclose ih =>
    obtain ⟨inside, rest, rfl, rfl, hclosed⟩ := closeLength_closed hclose
    rw [List.drop_length_add_append, List.drop_succ_cons, List.drop_zero] at ih
    rw [scan?_hole hclose] at h
    obtain ⟨⟨t, m⟩, hm, he⟩ := Option.map_eq_some_iff.1 h
    obtain ⟨rfl, rfl⟩ := Prod.mk.inj he
    obtain ⟨raw, back, rfl, rfl, hwalk, hany⟩ := ih hm
    refine ⟨'$' :: '{' :: (inside ++ '}' :: raw), back, by simp, ?_, ?_, fun back' => ?_⟩
    · simp only [List.length_cons, List.length_append]
      omega
    · rw [walk?_hole (hclosed raw), hwalk]
      rfl
    · rw [List.cons_append, List.cons_append, List.append_assoc, List.cons_append,
        scan?_hole (hclosed _), hany]
      rfl
  | case6 cs hlast hpair hopen =>
    rw [scan?_single (by decide) fun _ h => absurd h (by decide), if_pos rfl] at h
    obtain ⟨rfl, rfl⟩ := Prod.mk.inj (Option.some.inj h)
    refine ⟨[], cs, rfl, rfl, by rw [walk?], fun back' => ?_⟩
    rw [List.nil_append, scan?_single (by decide) fun _ h => absurd h (by decide), if_pos rfl]
  | case7 c cs hlast hpair hopen hne ih =>
    have hc : c ≠ '\\' := ne_backslash hlast hpair
    rw [scan?_single hc hopen, if_neg hne] at h
    obtain ⟨⟨t, m⟩, hm, he⟩ := Option.map_eq_some_iff.1 h
    obtain ⟨rfl, rfl⟩ := Prod.mk.inj he
    obtain ⟨raw, back, rfl, rfl, hwalk, hany⟩ := ih hm
    have hraw : ∀ tail, c = '$' → raw ≠ '{' :: tail := by
      rintro tail hdollar rfl
      exact hopen _ hdollar rfl
    have hraw' : ∀ back' tail, c = '$' → raw ++ '\x60' :: back' ≠ '{' :: tail := by
      intro back' tail hdollar hbrace
      cases raw with
      | nil => exact absurd (List.cons.inj hbrace).1 (by decide)
      | cons d raw => exact hraw raw hdollar (congrArg (· :: raw) (List.cons.inj hbrace).1)
    refine ⟨c :: raw, back, rfl, Nat.add_comm 1 _, ?_, fun back' => ?_⟩
    · rw [walk?_single hc hraw, hwalk]
      rfl
    · rw [List.cons_append, scan?_single hc (hraw' back'), if_neg hne, hany]
      rfl

/-- What is found in a raw text is all of it, in order. -/
theorem chars_of_walk? {raw : List Char} {t : TemplateText} (h : walk? raw = some t) :
    t.chars = raw := by
  induction raw using walk?.induct generalizing t with
  | case1 =>
    rw [walk?] at h
    obtain rfl := Option.some.inj h
    rfl
  | case2 =>
    rw [walk?] at h
    obtain rfl := Option.some.inj h
    rfl
  | case3 c cs ih =>
    rw [walk?] at h
    obtain ⟨t, ht, rfl⟩ := Option.map_eq_some_iff.1 h
    rw [chars_behind, ih ht]
    rfl
  | case4 cs hclose =>
    rw [walk?, hclose] at h
    simp at h
  | case5 cs n hclose ih =>
    obtain ⟨inside, rest, rfl, rfl, -⟩ := closeLength_closed hclose
    rw [List.drop_length_add_append, List.drop_succ_cons, List.drop_zero] at ih
    rw [walk?_hole hclose] at h
    obtain ⟨t, ht, rfl⟩ := Option.map_eq_some_iff.1 h
    rw [chars_behindHole, ih ht]
  | case6 c cs hlast hpair hopen ih =>
    rw [walk?_single (ne_backslash hlast hpair) hopen] at h
    obtain ⟨t, ht, rfl⟩ := Option.map_eq_some_iff.1 h
    rw [chars_behind, ih ht]
    rfl

/-- The brace that closes a substitution is found whatever stands behind it. -/
theorem closeLength_of_walk? {raw : List Char} {t : TemplateText} (h : walk? raw = some t) :
    ∀ hole ∈ t.holes, ∀ back,
      closeLength 0 (hole.1 ++ '}' :: back) = some (hole.1.length + 1) := by
  induction raw using walk?.induct generalizing t with
  | case1 =>
    rw [walk?] at h
    obtain rfl := Option.some.inj h
    simp
  | case2 =>
    rw [walk?] at h
    obtain rfl := Option.some.inj h
    simp
  | case3 c cs ih =>
    rw [walk?] at h
    obtain ⟨t, ht, rfl⟩ := Option.map_eq_some_iff.1 h
    simpa [behind] using ih ht
  | case4 cs hclose =>
    rw [walk?, hclose] at h
    simp at h
  | case5 cs n hclose ih =>
    obtain ⟨inside, rest, rfl, rfl, hclosed⟩ := closeLength_closed hclose
    rw [List.drop_length_add_append, List.drop_succ_cons, List.drop_zero] at ih
    rw [walk?_hole hclose] at h
    obtain ⟨t, ht, rfl⟩ := Option.map_eq_some_iff.1 h
    exact List.forall_mem_cons.2 ⟨hclosed, ih ht⟩
  | case6 c cs hlast hpair hopen ih =>
    rw [walk?_single (ne_backslash hlast hpair) hopen] at h
    obtain ⟨t, ht, rfl⟩ := Option.map_eq_some_iff.1 h
    simpa [behind] using ih ht

/-! ### What is read -/

/-- What a piece reads as: each backslash and the character behind it stand for one character. -/
def cook : List Char → List Char
  | [] => []
  | ['\\'] => []
  | '\\' :: c :: cs => Lexeme.unescape c :: cook cs
  | c :: cs => c :: cook cs

theorem cook_single {c : Char} (hc : c ≠ '\\') (cs : List Char) :
    cook (c :: cs) = c :: cook cs := by
  rw [cook]
  · exact fun h _ => hc h
  · exact fun _ _ h _ => hc h

/-- Reads the sources of substitutions, the first of which begins at an offset, and the pieces
behind them. -/
def readHoles (r : Rules) :
    List (List Char × List Char) → Int → Except ExprError (List (Expr × String))
  | [], _ => .ok []
  | (source, piece) :: rest, base => do
    let e ← wholeExpr r (.ofText source (base + 2))
    let parts ← readHoles r rest (base + 3 + width source + width piece)
    .ok ((e, String.ofList (cook piece)) :: parts)

/-- Reads a template text that begins at an offset. -/
def read (r : Rules) (t : TemplateText) (base : Int) :
    Except ExprError (List Char × List (Expr × String)) := do
  let parts ← readHoles r t.holes (base + width t.head)
  .ok (cook t.head, parts)

theorem read_behind (r : Rules) (t : TemplateText) (base : Int) {cs : List Char}
    (cooked : List Char) (hcook : cook (cs ++ t.head) = cooked ++ cook t.head) :
    (t.behind cs).read r base =
      (t.read r (base + width cs)).map (Prod.map (cooked ++ ·) id) := by
  have hbase : base + width (cs ++ t.head) = base + width cs + width t.head := by
    rw [width_append]
    omega
  rw [read, read, behind, hbase, hcook]
  cases readHoles r t.holes (base + width cs + width t.head) <;> rfl

theorem read_behindHole (r : Rules) (t : TemplateText) (base : Int) (source : List Char) :
    (t.behindHole source).read r base = (do
      let e ← wholeExpr r (.ofText source (base + 2))
      let (head, parts) ← t.read r (base + 3 + width source)
      .ok ([], (e, String.ofList head) :: parts)) := by
  rw [read, behindHole]
  simp only [readHoles, width_nil, Int.natCast_zero, Int.add_zero]
  cases wholeExpr r (.ofText source (base + 2)) with
  | error e => rfl
  | ok e =>
    rw [read]
    cases readHoles r t.holes (base + 3 + width source + width t.head) <;> rfl

/-- The reader of expressions reads what its walk finds. -/
theorem templateParts_eq_read (r : Rules) {raw : List Char} {t : TemplateText}
    (h : walk? raw = some t) (base : Int) : templateParts r raw base = t.read r base := by
  induction raw, base using templateParts.induct generalizing t with
  | case1 base =>
    rw [walk?] at h
    obtain rfl := Option.some.inj h
    rw [templateParts]
    rfl
  | case2 base =>
    rw [walk?] at h
    obtain rfl := Option.some.inj h
    rw [templateParts]
    rfl
  | case3 base c cs ih =>
    rw [walk?] at h
    obtain ⟨t, ht, rfl⟩ := Option.map_eq_some_iff.1 h
    rw [templateParts, ih ht, read_behind r t base [Lexeme.unescape c] rfl]
    cases t.read r (base + width ['\\', c]) <;> rfl
  | case4 base cs hclose =>
    rw [walk?, hclose] at h
    simp at h
  | case5 base cs n hclose ih =>
    obtain ⟨inside, rest, rfl, rfl, -⟩ := closeLength_closed hclose
    rw [List.drop_length_add_append, List.drop_succ_cons, List.drop_zero] at ih
    rw [walk?_hole hclose] at h
    obtain ⟨t, ht, rfl⟩ := Option.map_eq_some_iff.1 h
    have hbase : base + 2 + width ((inside ++ '}' :: rest).take (inside.length + 1)) =
        base + 3 + width inside := by
      rw [List.take_length_add_append, width_append]
      simp [units]
      omega
    rw [hbase] at ih
    rw [templateParts, hclose]
    dsimp only
    rw [hbase, List.drop_length_add_append, List.drop_succ_cons, List.drop_zero,
      Nat.add_sub_cancel, List.take_left, ih ht, read_behindHole]
  | case6 base c cs hlast hpair hopen ih =>
    have hc : c ≠ '\\' := ne_backslash hlast hpair
    rw [walk?_single hc hopen] at h
    obtain ⟨t, ht, rfl⟩ := Option.map_eq_some_iff.1 h
    rw [templateParts.eq_5 _ _ _ _ hlast hpair hopen, ih ht,
      read_behind r t base [c] (cook_single hc t.head), width_cons, width_nil, Nat.add_zero]
    cases t.read r (base + units c) <;> rfl

/-- What the reader of expressions gets through, its walk finds substitutions in. -/
theorem walk?_of_templateParts {r : Rules} {raw : List Char} {base : Int}
    {result : List Char × List (Expr × String)} (h : templateParts r raw base = .ok result) :
    ∃ t, walk? raw = some t := by
  induction raw, base using templateParts.induct generalizing result with
  | case1 base => exact ⟨⟨[], []⟩, by rw [walk?]⟩
  | case2 base => exact ⟨⟨['\\'], []⟩, by rw [walk?]⟩
  | case3 base c cs ih =>
    rw [templateParts] at h
    obtain ⟨_, hrest, -⟩ := bind_eq_ok.1 h
    obtain ⟨t, ht⟩ := ih hrest
    exact ⟨t.behind ['\\', c], by rw [walk?, ht]; rfl⟩
  | case4 base cs hclose =>
    rw [templateParts, hclose] at h
    cases h
  | case5 base cs n hclose ih =>
    rw [templateParts, hclose] at h
    obtain ⟨_, -, h⟩ := bind_eq_ok.1 h
    obtain ⟨_, hrest, -⟩ := bind_eq_ok.1 h
    obtain ⟨t, ht⟩ := ih hrest
    exact ⟨t.behindHole (cs.take (n - 1)), by rw [walk?, hclose]; simp only [ht]; rfl⟩
  | case6 base c cs hlast hpair hopen ih =>
    rw [templateParts.eq_5 _ _ _ _ hlast hpair hopen] at h
    obtain ⟨_, hrest, -⟩ := bind_eq_ok.1 h
    obtain ⟨t, ht⟩ := ih hrest
    exact ⟨t.behind [c], by rw [walk?_single (ne_backslash hlast hpair) hopen, ht]; rfl⟩

/-- A raw text is read just where its braces are closed, by the substitutions found in it. -/
theorem templateParts_eq_ok {r : Rules} {raw : List Char} {base : Int}
    {result : List Char × List (Expr × String)} :
    templateParts r raw base = .ok result ↔
      ∃ t, walk? raw = some t ∧ t.read r base = .ok result := by
  constructor
  · intro h
    obtain ⟨t, ht⟩ := walk?_of_templateParts h
    exact ⟨t, ht, templateParts_eq_read r ht base ▸ h⟩
  · rintro ⟨t, ht, h⟩
    rw [templateParts_eq_read r ht, h]

/-- Substitutions are read one by one, and fail by one of them. -/
theorem readHoles_ends (r : Rules) (holes : List (List Char × List Char)) (base : Int) :
    Ends (fun e => ∃ hole ∈ holes, ∃ start, wholeExpr r (.ofText hole.1 start) = .error e)
      (List.Forall₂ (fun hole part => part.2 = String.ofList (cook hole.2) ∧
        ∃ start, wholeExpr r (.ofText hole.1 start) = .ok part.1) holes)
      (readHoles r holes base) := by
  induction holes generalizing base with
  | nil => exact .nil
  | cons hole rest ih =>
    obtain ⟨source, piece⟩ := hole
    rw [readHoles]
    cases he : wholeExpr r (.ofText source (base + 2)) with
    | error e => exact ⟨(source, piece), List.mem_cons_self, base + 2, he⟩
    | ok e =>
      change Ends _ _ (readHoles r rest (base + 3 + width source + width piece) >>= fun parts =>
        .ok ((e, String.ofList (cook piece)) :: parts))
      refine Ends.bind ((ih _).imp ?_ fun _ hparts => hparts) ?_
      · rintro e ⟨hole, hmem, hfails⟩
        exact ⟨hole, List.mem_cons_of_mem _ hmem, hfails⟩
      · intro parts _ hparts
        exact .cons ⟨rfl, base + 2, he⟩ hparts

/-- A template text fails by one of its substitutions. Each of them is read, with one piece more. -/
theorem read_ends (r : Rules) (t : TemplateText) (base : Int) :
    Ends (fun e => ∃ hole ∈ t.holes, ∃ start, wholeExpr r (.ofText hole.1 start) = .error e)
      (fun (head, parts) =>
        String.ofList head :: parts.map Prod.snd = t.pieces.map (String.ofList <| cook ·) ∧
        List.Forall₂ (fun hole e => ∃ start, wholeExpr r (.ofText hole.1 start) = .ok e)
          t.holes (parts.map Prod.fst))
      (t.read r base) := by
  refine (readHoles_ends r t.holes _).bind fun parts _ hparts => ⟨?_, ?_⟩
  · have hpieces : t.holes.map (String.ofList <| cook ·.2) = parts.map Prod.snd := by
      rw [← List.forall₂_eq_eq_eq, List.forall₂_map_left_iff, List.forall₂_map_right_iff]
      exact hparts.imp fun _ _ hpart => hpart.1.symm
    rw [← hpieces, pieces, List.map_cons, List.map_map]
    rfl
  · rw [List.forall₂_map_right_iff]
    exact hparts.imp fun _ _ hpart => hpart.2

end TemplateText

/-! ### Tokens -/

/-- Only a back quote begins a template text. -/
theorem Lexeme.read_eq_template {c : Char} {cs raw : List Char} {n : Nat} :
    read c cs = .ok (.template raw, n) ↔
      c = '\x60' ∧ templateLength cs = .ok n ∧ raw = cs.take (n - 1) := by
  constructor
  · intro h
    simp only [read] at h
    split_ifs at h with hident hnumber hstring htemplate
    · split at h <;> cases h
    · split at h <;> cases h
    · split at h <;> cases h
    · split at h
      · rename_i m hm
        obtain ⟨he, rfl⟩ := Prod.mk.inj (Except.ok.inj h)
        exact ⟨htemplate, hm, (Lexeme.template.inj he).symm⟩
      · cases h
      · cases h
    · split at h <;> cases h
  · rintro ⟨rfl, hlength, rfl⟩
    simp only [read]
    rw [if_neg (by decide), if_neg (by simp), if_neg (by decide), if_pos trivial, hlength]

namespace Stream

open Text Grammar

/-- Where a template text among the tokens of a source stands. -/
theorem ofText_template {cs raw : List Char} {base : Int} {span : Span} {rest : Stream}
    {before : List ExprToken}
    (h : ofText cs base = (next ⟨.template raw, span⟩ rest).after before) :
    ∃ front back, cs = front ++ '\x60' :: (raw ++ '\x60' :: back) ∧
      span = ⟨base + width front, base + width front + width raw + 2⟩ ∧
      Lexeme.templateLength (raw ++ '\x60' :: back) = .ok (raw.length + 1) := by
  induction cs, base using ofText.induct generalizing before with
  | case1 base =>
    rw [ofText] at h
    cases before <;> cases h
  | case2 base c cs hblank ih =>
    rw [ofText, if_pos hblank] at h
    obtain ⟨front, back, rfl, rfl, hlength⟩ := ih h
    refine ⟨c :: front, back, rfl, ?_, hlength⟩
    rw [width_cons]
    congr 1 <;> omega
  | case3 base c cs hblank f hread =>
    rw [ofText, if_neg hblank, hread] at h
    cases before <;> cases h
  | case4 base c cs hblank lexeme n hread stop =>
    rename_i ih
    rw [ofText, if_neg hblank, hread] at h
    cases before with
    | nil =>
      obtain ⟨ht, -⟩ := Stream.next.inj h
      obtain ⟨rfl, rfl⟩ := ExprToken.mk.inj ht
      obtain ⟨rfl, hlength, rfl⟩ := Lexeme.read_eq_template.1 hread
      obtain ⟨raw, back, rfl, rfl⟩ := Lexeme.templateLength_quoted hlength
      rw [Nat.add_sub_cancel, List.take_left]
      refine ⟨[], back, rfl, ?_, hlength⟩
      have hstop : width ('\x60' :: (raw ++ '\x60' :: back).take (raw.length + 1)) =
          width raw + 2 := by
        rw [List.take_length_add_append, width_cons, width_append]
        simp [units]
        omega
      simp only [hstop, width_nil]
      congr 1 <;> omega
    | cons t before =>
      obtain ⟨-, h⟩ := Stream.next.inj h
      obtain ⟨front, back, hcs, rfl, hlength⟩ := ih h
      refine ⟨c :: cs.take n ++ front, back, ?_, ?_, hlength⟩
      · rw [List.append_assoc, ← hcs, List.cons_append, List.take_append_drop]
      · simp only [stop, width_append]
        congr 1 <;> omega

/-- A template text among the tokens of a source is walked alike by the scanner, whatever stands
behind it, and by the reader of expressions. The substitutions they find are closed, make up the
text with the pieces around them, and are all that the reading of the text can fail by. -/
theorem template_walks_agree {cs raw : List Char} {base : Int} {span : Span} {rest : Stream}
    {before : List ExprToken}
    (h : ofText cs base = (next ⟨.template raw, span⟩ rest).after before) :
    ∃ t : TemplateText,
      (∃ front back, cs = front ++ '\x60' :: (raw ++ '\x60' :: back) ∧
        span = ⟨base + width front, base + width front + width raw + 2⟩) ∧
      (∀ back, Lexeme.templateLength (raw ++ '\x60' :: back) = .ok (raw.length + 1) ∧
        TemplateText.scan? (raw ++ '\x60' :: back) = some (t, raw.length + 1)) ∧
      TemplateText.walk? raw = some t ∧ t.chars = raw ∧
      (∀ hole ∈ t.holes, ∀ back,
        closeLength 0 (hole.1 ++ '}' :: back) = some (hole.1.length + 1)) ∧
      ∀ r : Rules,
        templateParts r raw (span.start + 1) = t.read r (span.start + 1) ∧
        Ends (fun e => ∃ hole ∈ t.holes, ∃ start, wholeExpr r (ofText hole.1 start) = .error e)
          (fun (e, left) => left = rest ∧ ∃ head parts, e = .template head parts span ∧
            head :: parts.map Prod.snd = t.pieces.map (String.ofList <| TemplateText.cook ·) ∧
            (head :: parts.map Prod.snd).length = (parts.map Prod.fst).length + 1 ∧
            List.Forall₂ (fun hole e => ∃ start, wholeExpr r (ofText hole.1 start) = .ok e)
              t.holes (parts.map Prod.fst))
          (primary r (next ⟨.template raw, span⟩ rest)) := by
  obtain ⟨front, back, hcs, hspan, hlength⟩ := ofText_template h
  have hscan := TemplateText.toOption_templateLength (raw ++ '\x60' :: back)
  rw [hlength] at hscan
  obtain ⟨⟨t, n⟩, hscan, rfl⟩ := Option.map_eq_some_iff.1 hscan.symm
  obtain ⟨raw', back', hraw, hn, hwalk, hany⟩ := TemplateText.walk?_of_scan? hscan
  obtain ⟨rfl, -⟩ := List.append_inj hraw (Nat.succ.inj hn)
  refine ⟨t, ⟨front, back, hcs, hspan⟩, fun back => ⟨?_, hany back⟩, hwalk,
    TemplateText.chars_of_walk? hwalk, TemplateText.closeLength_of_walk? hwalk, fun r => ⟨?_, ?_⟩⟩
  · rw [← toOption_eq_some, TemplateText.toOption_templateLength, hany back]
    rfl
  · exact TemplateText.templateParts_eq_read r hwalk _
  · have hread := TemplateText.read_ends r t (span.start + 1)
    rw [← TemplateText.templateParts_eq_read r hwalk] at hread
    refine hread.bind ?_
    rintro ⟨head, parts⟩ - ⟨hpieces, hexprs⟩
    exact ⟨rfl, String.ofList head, parts, rfl, hpieces, by simp, hexprs⟩

/-- A substitution with a closing brace in quotes, before an escaped back quote. -/
theorem template_walks_agree_quoted :
    let raw := "a$\x7bf('\x7d')\x7d\\\x60".toList
    ofText ('\x60' :: (raw ++ ['\x60'])) 0 = next ⟨.template raw, ⟨0, 14⟩⟩ (done 14) ∧
    ∀ back, TemplateText.scan? (raw ++ '\x60' :: back) =
      some (⟨['a'], [("f('\x7d')".toList, "\\\x60".toList)]⟩, raw.length + 1) := by
  intro raw
  have hlength : Lexeme.templateLength (raw ++ ['\x60']) = .ok 13 :=
    toOption_eq_some.1 (by decide +kernel)
  have htext : ofText ('\x60' :: (raw ++ ['\x60'])) 0 =
      (next ⟨.template raw, ⟨0, 14⟩⟩ (done 14)).after [] := by
    rw [ofText, if_neg (by decide), Lexeme.read_eq_template.2 ⟨rfl, hlength, rfl⟩]
    change next ⟨.template raw, ⟨0, 14⟩⟩ (ofText [] 14) = _
    rw [ofText]
    rfl
  obtain ⟨t, -, hscan, hwalk, -⟩ := template_walks_agree htext
  have hfound : TemplateText.walk? raw = some ⟨['a'], [("f('\x7d')".toList, "\\\x60".toList)]⟩ := by
    decide +kernel
  obtain rfl := Option.some.inj (hwalk.symm.trans hfound)
  exact ⟨htext, fun back => (hscan back).2⟩

end Stream

end LiveTemplate
