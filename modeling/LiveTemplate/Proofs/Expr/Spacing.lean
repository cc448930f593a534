import LiveTemplate.Proofs.Expr.Lexemes
import LiveTemplate.Proofs.Text.Extending

/-!
Blanks between tokens. No token goes on over a blank, so the tokens of a text stay what they are when
a blank and more text follow.
-/

namespace LiveTemplate

set_option autoImplicit false

namespace Lexeme

open Text

variable {b c : Char} {cs rest : List Char} {n : Nat}

theorem ne_of_isBlank {d : Char} (hb : isBlank b = true) (hd : isBlank d = false) : b ≠ d := by
  rintro rfl
  rw [hb] at hd
  cases hd

theorem isIdentPart_of_isBlank (hb : isBlank b = true) : isIdentPart b = false := by
  have hunderscore := ne_of_isBlank hb (show isBlank '_' = false from rfl)
  have hdollar := ne_of_isBlank hb (show isBlank '$' = false from rfl)
  simp only [isBlank, Bool.or_eq_true, Bool.and_eq_true, beq_iff_eq, decide_eq_true_eq] at hb
  unfold isIdentPart isIdentStart Char.isAlpha Char.isUpper Char.isLower Char.isDigit
  simp only [Bool.or_eq_false_iff, Bool.and_eq_false_iff, decide_eq_false_iff_not, ge_iff_le,
    UInt32.le_iff_toNat_le, hunderscore, hdollar, not_false_eq_true, and_true]
  have hcode : b.toNat = b.val.toNat := rfl
  have hcodes : 'A'.val.toNat = 65 ∧ 'Z'.val.toNat = 90 ∧ 'a'.val.toNat = 97 ∧
      'z'.val.toNat = 122 ∧ '0'.val.toNat = 48 ∧ '9'.val.toNat = 57 := by decide
  omega

theorem isIdentStart_of_isBlank (hb : isBlank b = true) : isIdentStart b = false := by
  have h := isIdentPart_of_isBlank hb
  rw [isIdentPart, Bool.or_eq_false_iff] at h
  exact h.1

theorem isDigit_of_isBlank (hb : isBlank b = true) : b.isDigit = false := by
  have h := isIdentPart_of_isBlank hb
  rw [isIdentPart, Bool.or_eq_false_iff] at h
  exact h.2

/-- A run of a class that has no blanks ends before a blank. -/
theorem takeWhile_append_blank {p : Char → Bool} (hp : p b = false) (cs more : List Char) :
    (cs ++ b :: more).takeWhile p = cs.takeWhile p := by
  induction cs with
  | nil => rw [List.nil_append, List.takeWhile_cons_of_neg (by simp [hp]), List.takeWhile_nil]
  | cons c cs ih => rw [List.cons_append, List.takeWhile_cons, List.takeWhile_cons, ih]

/-! ### Numbers -/

theorem digitsLength_append_blank (hb : isBlank b = true) (cs more : List Char) :
    digitsLength (cs ++ b :: more) = digitsLength cs := by
  rw [digitsLength, takeWhile_append_blank (isDigit_of_isBlank hb), digitsLength]

theorem digitsLength_le (cs : List Char) : digitsLength cs ≤ cs.length :=
  (List.takeWhile_prefix _).length_le

/-- The length of the sign in front of an exponent's digits. -/
def signLength : List Char → Nat
  | '+' :: _ | '-' :: _ => 1
  | _ => 0

theorem signLength_cons (d : Char) (cs : List Char) :
    signLength (d :: cs) = if d = '+' ∨ d = '-' then 1 else 0 := by
  unfold signLength
  split
  · rename_i heq
    rw [(List.cons.inj heq).1, if_pos (.inl rfl)]
  · rename_i heq
    rw [(List.cons.inj heq).1, if_pos (.inr rfl)]
  · rename_i hplus hminus
    rw [if_neg]
    rintro (rfl | rfl)
    · exact hplus _ rfl
    · exact hminus _ rfl

theorem signLength_append_blank (hb : isBlank b = true) (cs more : List Char) :
    signLength (cs ++ b :: more) = signLength cs := by
  cases cs with
  | nil =>
    have hsign : ¬ (b = '+' ∨ b = '-') := not_or.mpr ⟨ne_of_isBlank hb rfl, ne_of_isBlank hb rfl⟩
    rw [List.nil_append, signLength_cons, if_neg hsign]
    rfl
  | cons d cs => rw [List.cons_append, signLength_cons, signLength_cons]

theorem signLength_le (cs : List Char) : signLength cs ≤ cs.length := by
  cases cs with
  | nil => exact Nat.le_refl 0
  | cons d cs =>
    rw [signLength_cons, List.length_cons]
    split <;> omega

theorem exponentLength_cons (e : Char) (cs : List Char) :
    exponentLength (e :: cs) =
      if e = 'e' ∨ e = 'E' then
        if digitsLength (cs.drop (signLength cs)) = 0 then 0
        else 1 + signLength cs + digitsLength (cs.drop (signLength cs))
      else 0 := rfl

theorem exponentLength_append_blank (hb : isBlank b = true) (cs more : List Char) :
    exponentLength (cs ++ b :: more) = exponentLength cs := by
  cases cs with
  | nil =>
    have hmark : ¬ (b = 'e' ∨ b = 'E') := not_or.mpr ⟨ne_of_isBlank hb rfl, ne_of_isBlank hb rfl⟩
    rw [List.nil_append, exponentLength_cons, if_neg hmark]
    rfl
  | cons e cs =>
    rw [List.cons_append, exponentLength_cons, exponentLength_cons, signLength_append_blank hb,
      List.drop_append_of_le_length (signLength_le cs), digitsLength_append_blank hb]

theorem exponentLength_le (cs : List Char) : exponentLength cs ≤ cs.length := by
  cases cs with
  | nil => exact Nat.le_refl 0
  | cons e cs =>
    have hdigits := digitsLength_le (cs.drop (signLength cs))
    have hsign := signLength_le cs
    rw [List.length_drop] at hdigits
    rw [exponentLength_cons, List.length_cons]
    split_ifs <;> omega

/-- The length of a fraction with its point. -/
def fractionLength : List Char → Nat
  | '.' :: rest => 1 + digitsLength rest
  | _ => 0

theorem fractionLength_cons (d : Char) (cs : List Char) :
    fractionLength (d :: cs) = if d = '.' then 1 + digitsLength cs else 0 := by
  unfold fractionLength
  split
  · rename_i heq
    obtain ⟨rfl, rfl⟩ := List.cons.inj heq
    rw [if_pos rfl]
  · rename_i hpoint
    rw [if_neg]
    rintro rfl
    exact hpoint _ rfl

theorem fractionLength_append_blank (hb : isBlank b = true) (cs more : List Char) :
    fractionLength (cs ++ b :: more) = fractionLength cs := by
  cases cs with
  | nil =>
    rw [List.nil_append, fractionLength_cons, if_neg (ne_of_isBlank hb rfl)]
    rfl
  | cons d cs =>
    rw [List.cons_append, fractionLength_cons, fractionLength_cons, digitsLength_append_blank hb]

theorem fractionLength_le (cs : List Char) : fractionLength cs ≤ cs.length := by
  cases cs with
  | nil => exact Nat.le_refl 0
  | cons d cs =>
    have hdigits := digitsLength_le cs
    rw [fractionLength_cons, List.length_cons]
    split_ifs <;> omega

theorem numberLength_eq (cs : List Char) :
    numberLength cs = digitsLength cs + fractionLength (cs.drop (digitsLength cs)) +
      exponentLength (cs.drop (digitsLength cs + fractionLength (cs.drop (digitsLength cs)))) := rfl

theorem numberLength_le (cs : List Char) : numberLength cs ≤ cs.length := by
  have hwhole := digitsLength_le cs
  have hfraction := fractionLength_le (cs.drop (digitsLength cs))
  have hexponent := exponentLength_le
    (cs.drop (digitsLength cs + fractionLength (cs.drop (digitsLength cs))))
  rw [List.length_drop] at hfraction hexponent
  rw [numberLength_eq]
  omega

theorem numberLength_append_blank (hb : isBlank b = true) (cs more : List Char) :
    numberLength (cs ++ b :: more) = numberLength cs := by
  have hwhole := digitsLength_le cs
  have hfraction := fractionLength_le (cs.drop (digitsLength cs))
  rw [List.length_drop] at hfraction
  rw [numberLength_eq, digitsLength_append_blank hb, List.drop_append_of_le_length hwhole,
    fractionLength_append_blank hb, List.drop_append_of_le_length (by omega),
    exponentLength_append_blank hb, ← numberLength_eq]

/-! ### Quoted texts -/

/-- A string that ends is the same whatever follows. -/
theorem textBody_append {quote : Char} {value : List Char} (ds : List Char)
    (h : textBody quote cs = some (value, n)) :
    n ≤ cs.length ∧ textBody quote (cs ++ ds) = some (value, n) := by
  induction cs using quotedLength.induct quote generalizing value n with
  | case1 => simp [textBody] at h
  | case2 => simp [textBody] at h
  | case3 c cs ih =>
    simp only [textBody] at h
    obtain ⟨⟨more, m⟩, hm, he⟩ := Option.map_eq_some_iff.1 h
    obtain ⟨rfl, rfl⟩ := Prod.mk.inj he
    obtain ⟨hle, happend⟩ := ih hm
    refine ⟨by simp only [List.length_cons]; omega, ?_⟩
    simp only [List.cons_append, textBody, happend, Option.map_some]
  | case4 cs hlast hpair =>
    have hquote : quote ≠ '\\' := by
      rintro rfl
      cases cs with
      | nil => exact hlast rfl rfl
      | cons c cs => exact hpair c cs rfl rfl
    rw [textBody_single cs hquote, if_pos rfl] at h
    obtain ⟨rfl, rfl⟩ := Prod.mk.inj (Option.some.inj h)
    rw [List.cons_append, textBody_single _ hquote, if_pos rfl]
    exact ⟨by simp, rfl⟩
  | case5 c cs hlast hpair hne ih =>
    have hc : c ≠ '\\' := by
      rintro rfl
      cases cs with
      | nil => exact hlast rfl rfl
      | cons d cs => exact hpair d cs rfl rfl
    rw [textBody_single cs hc, if_neg hne] at h
    obtain ⟨⟨more, m⟩, hm, he⟩ := Option.map_eq_some_iff.1 h
    obtain ⟨rfl, rfl⟩ := Prod.mk.inj he
    obtain ⟨hle, happend⟩ := ih hm
    rw [List.cons_append, textBody_single _ hc, if_neg hne, happend]
    exact ⟨by simp only [List.length_cons]; omega, rfl⟩

theorem templateLength_single (hc : c ≠ '\\') (hopen : c = '$' → ∀ tail, cs ≠ '{' :: tail) :
    templateLength (c :: cs) =
      if c = '\x60' then .ok 1 else templateLength.later 1 (templateLength cs) := by
  rw [templateLength]
  · intro h
    exact absurd h hc
  · intro _ _ h
    exact absurd h hc
  · intro tail h htail
    exact hopen h tail htail

/-- A template text that ends is the same whatever follows. -/
theorem templateLength_append (ds : List Char) (h : templateLength cs = .ok n) :
    templateLength (cs ++ ds) = .ok n := by
  induction cs using templateLength.induct generalizing n with
  | case1 => simp [templateLength] at h
  | case2 => simp [templateLength] at h
  | case3 c cs ih =>
    rw [templateLength] at h
    obtain ⟨k, hk, rfl⟩ := later_eq_ok h
    simp only [List.cons_append, templateLength, ih hk, templateLength.later]
  | case4 cs hclose =>
    rw [templateLength] at h
    split at h <;> simp_all
  | case5 cs m hclose ih =>
    rw [templateLength, hclose] at h
    dsimp only at h
    obtain ⟨k, hk, rfl⟩ := later_eq_ok h
    rw [List.cons_append, List.cons_append, templateLength, closeLength_append ds hclose]
    dsimp only
    rw [List.drop_append_of_le_length (closeLength_le hclose), ih hk, templateLength.later]
  | case6 cs hlast hpair hopen =>
    have hopen' : '\x60' = '$' → ∀ tail, cs ≠ '{' :: tail := fun h => absurd h (by decide)
    have hopen'' : '\x60' = '$' → ∀ tail, cs ++ ds ≠ '{' :: tail := fun h => absurd h (by decide)
    rw [templateLength_single (by decide) hopen', if_pos rfl] at h
    rw [List.cons_append, templateLength_single (by decide) hopen'', if_pos rfl, h]
  | case7 c cs hlast hpair hopen hne ih =>
    have hc : c ≠ '\\' := by
      rintro rfl
      cases cs with
      | nil => exact hlast rfl rfl
      | cons d cs => exact hpair d cs rfl rfl
    rw [templateLength_single hc fun h tail htail => hopen tail h htail, if_neg hne] at h
    obtain ⟨k, hk, rfl⟩ := later_eq_ok h
    have hopen' : c = '$' → ∀ tail, cs ++ ds ≠ '{' :: tail := by
      intro hdollar tail htail
      cases cs with
      | nil => simp [templateLength] at hk
      | cons d cs =>
        obtain ⟨rfl, -⟩ := List.cons.inj htail
        exact hopen cs hdollar rfl
    rw [List.cons_append, templateLength_single hc hopen', if_neg hne, ih hk, templateLength.later]

/-! ### Marks -/

/-- A text that begins with no such mark does not begin with one before a blank either. -/
theorem append_blank_ne_cons {d : Char} (hb : isBlank b = true) (hd : isBlank d = false)
    (h : ∀ tail, cs = d :: tail → False) (more tail : List Char) : cs ++ b :: more ≠ d :: tail := by
  intro heq
  cases cs with
  | nil => exact ne_of_isBlank hb hd (List.cons.inj heq).1
  | cons c cs =>
    obtain ⟨rfl, -⟩ := List.cons.inj heq
    exact h cs rfl

theorem read?_append_blank {p : Punct} (hb : isBlank b = true) (more : List Char)
    (h : Punct.read? cs = some (p, n)) :
    n < cs.length ∧ Punct.read? (cs ++ b :: more) = some (p, n) := by
  have hpair : ∀ {d : Char} {tail : List Char}, isBlank d = false →
      (∀ rest, tail = d :: rest → False) → ∀ rest, tail ++ b :: more ≠ d :: rest :=
    fun hd hne => append_blank_ne_cons hb hd hne more
  unfold Punct.read? at h
  split at h
  case h_32 => cases h
  case h_11 =>
    rename_i c tail
    rw [show Punct.read? ('?' :: '.' :: c :: tail ++ b :: more) =
      if c.isDigit then some (.question, 0) else some (.questionDot, 1) from rfl]
    refine ⟨?_, h⟩
    split_ifs at h <;> obtain ⟨rfl, rfl⟩ := Prod.mk.inj (Option.some.inj h) <;> simp
  all_goals
    obtain ⟨rfl, rfl⟩ := Prod.mk.inj (Option.some.inj h)
    refine ⟨by simp, ?_⟩
  case h_12 =>
    rw [show Punct.read? (['?', '.'] ++ b :: more) =
      if b.isDigit then some (.question, 0) else some (.questionDot, 1) from rfl,
      isDigit_of_isBlank hb]
    rfl
  case h_22 tail hquestion hdigit hpoint =>
    have hnone : ∀ rest, tail = '.' :: rest → False := by
      rintro rest rfl
      cases rest with
      | nil => exact hpoint rfl
      | cons d rest => exact hdigit d rest rfl
    rw [List.cons_append, Punct.read?]
    · exact hpair rfl hquestion
    · exact fun d rest => hpair rfl hnone (d :: rest)
    · exact hpair rfl hnone []
  case h_3 hne | h_4 hne | h_30 hne | h_31 hne =>
    simp only [List.cons_append]
    rw [Punct.read?]
    exact hpair rfl hne
  case h_23 hdouble hequals hangle =>
    simp only [List.cons_append]
    rw [Punct.read?]
    · exact fun rest => hpair rfl hequals ('=' :: rest)
    · exact hpair rfl hequals
    · exact hpair rfl hangle
  case h_29 hdouble hequals =>
    simp only [List.cons_append]
    rw [Punct.read?]
    · exact fun rest => hpair rfl hequals ('=' :: rest)
    · exact hpair rfl hequals
  all_goals rfl

/-- A lexeme lies within its text, and is the same where a blank and more text follow. -/
theorem read_append_blank {lexeme : Lexeme} (hb : isBlank b = true) (more : List Char)
    (h : read c rest = .ok (lexeme, n)) :
    n ≤ rest.length ∧ read c (rest ++ b :: more) = .ok (lexeme, n) := by
  have hfirst : ((rest ++ b :: more).head?.map Char.isDigit).getD false =
      (rest.head?.map Char.isDigit).getD false := by
    cases rest with
    | nil => simp [isDigit_of_isBlank hb]
    | cons d rest => rfl
  have hnumber := numberLength_append_blank hb (c :: rest) more
  have hle := numberLength_le (c :: rest)
  simp only [read, hfirst, takeWhile_append_blank (isIdentPart_of_isBlank hb)] at h ⊢
  rw [List.cons_append] at hnumber
  split_ifs at h ⊢ with hident hdigit hstring htemplate
  · refine ⟨?_, h⟩
    have htail := (List.takeWhile_prefix (l := rest) isIdentPart).length_le
    split at h <;> obtain ⟨-, rfl⟩ := Prod.mk.inj (Except.ok.inj h) <;> exact htail
  · rw [hnumber, ← List.cons_append, List.drop_append_of_le_length hle,
      List.take_append_of_le_length hle]
    have hstart : ∀ left : List Char, (left ++ b :: more).head?.map isIdentStart = some true →
        left.head?.map isIdentStart = some true := by
      intro left hleft
      cases left with
      | nil => simp [isIdentStart_of_isBlank hb] at hleft
      | cons d left => exact hleft
    split at h
    · cases h
    · rename_i hnone
      obtain ⟨rfl, rfl⟩ := Prod.mk.inj (Except.ok.inj h)
      refine ⟨Nat.sub_le_of_le_add hle, ?_⟩
      split
      · rename_i hsome
        exact absurd (hstart _ hsome) hnone
      · rfl
  · split at h
    · rename_i value m hbody
      obtain ⟨rfl, rfl⟩ := Prod.mk.inj (Except.ok.inj h)
      obtain ⟨hlength, happend⟩ := textBody_append (b :: more) hbody
      rw [happend]
      exact ⟨hlength, rfl⟩
    · cases h
  · split at h
    · rename_i m hm
      obtain ⟨rfl, rfl⟩ := Prod.mk.inj (Except.ok.inj h)
      obtain ⟨raw, back, rfl, rfl⟩ := templateLength_quoted hm
      rw [templateLength_append (b :: more) hm]
      refine ⟨by simp, ?_⟩
      simp
    · cases h
    · cases h
  · split at h
    · rename_i p m hp
      obtain ⟨rfl, rfl⟩ := Prod.mk.inj (Except.ok.inj h)
      obtain ⟨hlength, happend⟩ := read?_append_blank hb more hp
      rw [← List.cons_append, happend]
      exact ⟨Nat.le_of_lt_succ hlength, rfl⟩
    · cases h

end Lexeme

namespace Stream

open Text

/-- A stream behind tokens. -/
def after (ts : List ExprToken) (s : Stream) : Stream := ts.foldr next s

@[simp] theorem after_nil (s : Stream) : s.after [] = s := rfl

@[simp] theorem after_cons (t : ExprToken) (ts : List ExprToken) (s : Stream) :
    s.after (t :: ts) = next t (s.after ts) := rfl

theorem after_append (ts us : List ExprToken) (s : Stream) :
    s.after (ts ++ us) = (s.after us).after ts := List.foldr_append

theorem after_snoc (ts : List ExprToken) (t : ExprToken) (s : Stream) :
    s.after (ts ++ [t]) = (next t s).after ts := after_append ts [t] s

theorem after_append_cons (ts : List ExprToken) (t : ExprToken) (us : List ExprToken) (s : Stream) :
    s.after (ts ++ t :: us) = (next t (s.after us)).after ts := after_append ts (t :: us) s

/-- A text that is one token. -/
theorem ofText_token {c : Char} {rest : List Char} {lexeme : Lexeme} (hc : isBlank c = false)
    (hread : Lexeme.read c rest = .ok (lexeme, rest.length)) (base : Int) :
    ∃ span stop, ofText (c :: rest) base = (done stop).after [⟨lexeme, span⟩] := by
  rw [ofText, if_neg (Bool.eq_false_iff.mp hc), hread]
  dsimp only
  rw [List.drop_length, ofText]
  exact ⟨_, _, rfl⟩

/-- Blanks in front of a text are passed over. -/
theorem ofText_blanks {blanks : List Char} (hblanks : ∀ b ∈ blanks, isBlank b = true)
    (cs : List Char) (base : Int) :
    ofText (blanks ++ cs) base = ofText cs (base + width blanks) := by
  induction blanks generalizing base with
  | nil => simp
  | cons b blanks ih =>
    obtain ⟨hb, hblanks⟩ := List.forall_mem_cons.mp hblanks
    rw [List.cons_append, ofText, if_pos hb, ih hblanks, width_cons, Int.natCast_add, Int.add_assoc]

/-- The tokens of a text without a fault are the same where a blank and more text follow, and the
tokens of the rest come after them. -/
theorem ofText_append_blank {b : Char} (hb : isBlank b = true) (more : List Char) {cs : List Char}
    {base stop : Int} {ts : List ExprToken} (h : ofText cs base = (done stop).after ts) :
    ofText (cs ++ b :: more) base = (ofText (b :: more) (base + width cs)).after ts := by
  induction cs, base using ofText.induct generalizing ts with
  | case1 base =>
    rw [ofText] at h
    cases ts with
    | nil => simp
    | cons t ts => cases h
  | case2 base c rest hblank ih =>
    rw [ofText, if_pos hblank] at h
    rw [List.cons_append, ofText, if_pos hblank, ih h, width_cons, Int.natCast_add, Int.add_assoc]
  | case3 base c rest hblank f hread =>
    rw [ofText, if_neg hblank, hread] at h
    cases ts <;> cases h
  | case4 base c rest hblank lexeme n hread stop =>
    rename_i ih
    rw [ofText, if_neg hblank, hread] at h
    obtain ⟨hle, happend⟩ := Lexeme.read_append_blank hb more hread
    cases ts with
    | nil => cases h
    | cons t ts =>
      obtain ⟨rfl, hrest⟩ := Stream.next.inj h
      have hwidth : width (c :: rest) = width (c :: rest.take n) + width (rest.drop n) := by
        rw [← width_append, List.cons_append, List.take_append_drop]
      rw [List.cons_append, ofText, if_neg hblank, happend]
      dsimp only
      rw [List.take_append_of_le_length hle, List.drop_append_of_le_length hle, ih hrest, hwidth,
        Int.natCast_add, ← Int.add_assoc, after_cons]

end Stream

end LiveTemplate
