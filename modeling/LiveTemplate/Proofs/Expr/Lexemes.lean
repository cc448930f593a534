import LiveTemplate.Expr.Token
import LiveTemplate.Proofs.Text.Extending
import Mathlib.Data.List.TakeWhile
import Mathlib.Tactic.SplitIfs

/-!
What lexemes take of a text. A text is balanced when the brace that closes another is found behind it
as if it were not there: every brace in it that counts is closed in it, and every quoted run too. Every
token of an expression but a brace takes balanced text, so the search for a closing brace passes over
it.
-/

namespace LiveTemplate

set_option autoImplicit false

namespace Text

/-- Text that the search for a closing brace passes over at every depth. -/
def Balanced (front : List Char) : Prop :=
  ∀ depth back, closeLength depth (front ++ back) =
    (closeLength depth back).map (front.length + ·)

theorem Balanced.nil : Balanced [] := by
  intro depth back
  simp

theorem Balanced.append {front more : List Char} (hfront : Balanced front) (hmore : Balanced more) :
    Balanced (front ++ more) := by
  intro depth back
  rw [List.append_assoc, hfront, hmore, Option.map_map, List.length_append]
  simp only [Function.comp_def, Nat.add_assoc]

/-- A character that neither quotes nor is a brace. -/
def isQuiet (c : Char) : Bool := !isQuote c && c != '{' && c != '}'

theorem Balanced.cons {c : Char} {front : List Char} (hc : isQuiet c = true)
    (hfront : Balanced front) : Balanced (c :: front) := by
  simp only [isQuiet, Bool.and_eq_true, Bool.not_eq_true', bne_iff_ne] at hc
  obtain ⟨⟨hquote, hopen⟩, hclose⟩ := hc
  intro depth back
  rw [List.cons_append, closeLength_other _ _ (by simp [hquote]) hopen hclose, hfront,
    Option.map_map, List.length_cons]
  congr 1
  funext n
  simp only [Function.comp_apply]
  omega

theorem balanced_of_quiet {front : List Char} (h : ∀ c ∈ front, isQuiet c = true) :
    Balanced front := by
  induction front with
  | nil => exact Balanced.nil
  | cons c front ih =>
    rw [List.forall_mem_cons] at h
    exact Balanced.cons h.1 (ih h.2)

theorem Balanced.braces {inside : List Char} (h : Balanced inside) :
    Balanced ('{' :: (inside ++ ['}'])) := by
  intro depth back
  rw [List.cons_append, List.append_assoc, closeLength_open, h, List.singleton_append,
    closeLength_close]
  simp only [Option.map_map, Function.comp_def, List.length_cons, List.length_append]
  congr 1
  funext n
  simp only [List.length_nil]
  omega

/-- A balanced text stands between the braces that are found to match around it. -/
theorem Balanced.closes {inside : List Char} (h : Balanced inside) (back : List Char) :
    closeLength 0 (inside ++ '}' :: back) = some (inside.length + 1) := by
  rw [h, closeLength_last, Option.map_some]

/-! ### Quoted runs -/

/-- Whether a text holds no quote but behind a backslash. -/
def quoteless (quote : Char) : List Char → Bool
  | [] => true
  | ['\\'] => false
  | '\\' :: _ :: cs => quoteless quote cs
  | c :: cs => c != quote && quoteless quote cs

theorem quotedLength_of_quoteless {quote : Char} {inside : List Char}
    (h : quoteless quote inside = true) (hquote : quote ≠ '\\') (back : List Char) :
    quotedLength quote (inside ++ quote :: back) = inside.length + 1 := by
  induction inside using quoteless.induct with
  | case1 => rw [List.nil_append, quotedLength_single _ hquote, if_pos rfl, List.length_nil]
  | case2 => simp [quoteless] at h
  | case3 c cs ih =>
    simp only [quoteless] at h
    rw [List.cons_append, List.cons_append, quotedLength_pair, ih h]
    simp only [List.length_cons]
    omega
  | case4 c cs hlast hpair ih =>
    simp only [quoteless, Bool.and_eq_true, bne_iff_ne] at h
    have hc : c ≠ '\\' := by
      rintro rfl
      cases cs with
      | nil => exact hlast rfl rfl
      | cons d cs => exact hpair d cs rfl rfl
    rw [List.cons_append, quotedLength_single _ hc, if_neg h.1, ih h.2, List.length_cons]
    omega

/-- A quoted run is passed over, whatever it holds. -/
theorem balanced_quoted {quote : Char} {inside : List Char} (hquote : isQuote quote = true)
    (h : quoteless quote inside = true) : Balanced (quote :: (inside ++ [quote])) := by
  intro depth back
  have hback : quote ≠ '\\' := by
    rintro rfl
    exact absurd hquote (by decide)
  rw [List.cons_append, List.append_assoc, List.singleton_append, closeLength_quote _ _ hquote,
    quotedLength_of_quoteless h hback, List.drop_length_add_append]
  simp only [List.drop_succ_cons, List.drop_zero, List.length_cons, List.length_append,
    List.length_nil]
  congr 1
  funext n
  omega

end Text

namespace Lexeme

open Text

variable {c : Char} {cs rest : List Char} {n : Nat}

theorem textBody_single {quote : Char} (cs : List Char) (h : c ≠ '\\') :
    textBody quote (c :: cs) =
      if c = quote then some ([], 1)
      else (textBody quote cs).map fun (value, n) => (c :: value, n + 1) := by
  rw [textBody]
  · intro hc
    exact absurd hc h
  · intro _ _ hc
    exact absurd hc h

/-- A string that ends takes its characters and the closing quote. -/
theorem textBody_quoted {quote : Char} {value : List Char} (hquote : quote ≠ '\\')
    (h : textBody quote cs = some (value, n)) :
    ∃ inside, cs.take n = inside ++ [quote] ∧ quoteless quote inside = true := by
  induction cs using quotedLength.induct quote generalizing value n with
  | case1 => simp [textBody] at h
  | case2 => simp [textBody] at h
  | case3 c cs ih =>
    simp only [textBody] at h
    obtain ⟨⟨more, m⟩, hm, he⟩ := Option.map_eq_some_iff.1 h
    obtain ⟨-, rfl⟩ := Prod.mk.inj he
    obtain ⟨inside, htake, hinside⟩ := ih hm
    exact ⟨'\\' :: c :: inside, by simp [htake], by simpa [quoteless] using hinside⟩
  | case4 cs hlast hpair =>
    rw [textBody_single cs hquote, if_pos rfl] at h
    obtain ⟨-, rfl⟩ := Prod.mk.inj (Option.some.inj h)
    exact ⟨[], rfl, rfl⟩
  | case5 c cs hlast hpair hne ih =>
    have hc : c ≠ '\\' := by
      rintro rfl
      cases cs with
      | nil => exact hlast rfl rfl
      | cons d cs => exact hpair d cs rfl rfl
    rw [textBody_single cs hc, if_neg hne] at h
    obtain ⟨⟨more, m⟩, hm, he⟩ := Option.map_eq_some_iff.1 h
    obtain ⟨-, rfl⟩ := Prod.mk.inj he
    obtain ⟨inside, htake, hinside⟩ := ih hm
    refine ⟨c :: inside, by simp [htake], ?_⟩
    rw [quoteless]
    · simp [hne, hinside]
    · exact fun h _ => hc h
    · exact fun _ _ h _ => hc h

theorem later_eq_ok {m : Nat} {r : Except OpenTemplate Nat}
    (h : templateLength.later m r = .ok n) : ∃ k, r = .ok k ∧ n = m + k := by
  match r with
  | .ok k => exact ⟨k, rfl, (Except.ok.inj h).symm⟩
  | .error .text => simp [templateLength.later] at h
  | .error (.substitution k) => simp [templateLength.later] at h

/-- A template text that ends takes its characters and the closing back quote. -/
theorem templateLength_quoted (h : templateLength cs = .ok n) :
    ∃ raw back, cs = raw ++ '\x60' :: back ∧ n = raw.length + 1 := by
  induction cs using templateLength.induct generalizing n with
  | case1 => simp [templateLength] at h
  | case2 => simp [templateLength] at h
  | case3 c cs ih =>
    rw [templateLength] at h
    obtain ⟨k, hk, rfl⟩ := later_eq_ok h
    obtain ⟨raw, back, rfl, rfl⟩ := ih hk
    exact ⟨'\\' :: c :: raw, back, rfl, by simp only [List.length_cons]; omega⟩
  | case4 cs hclose =>
    rw [templateLength] at h
    split at h <;> simp_all
  | case5 cs m hclose ih =>
    rw [templateLength] at h
    split at h
    · simp at h
    · rename_i m' hclose'
      obtain rfl : m = m' := by simpa [hclose] using hclose'
      have hle := closeLength_le hclose
      obtain ⟨k, hk, rfl⟩ := later_eq_ok h
      obtain ⟨raw, back, hdrop, rfl⟩ := ih hk
      refine ⟨'$' :: '{' :: (cs.take m ++ raw), back, ?_, ?_⟩
      · rw [List.cons_append, List.cons_append, List.append_assoc, ← hdrop, List.take_append_drop]
      · simp only [List.length_cons, List.length_append, List.length_take]
        omega
  | case6 cs hlast hpair hopen =>
    rw [templateLength.eq_5 _ _ hlast hpair hopen, if_pos rfl] at h
    obtain rfl := Except.ok.inj h
    exact ⟨[], cs, rfl, rfl⟩
  | case7 c cs hlast hpair hopen hne ih =>
    rw [templateLength.eq_5 _ _ hlast hpair hopen, if_neg hne] at h
    obtain ⟨k, hk, rfl⟩ := later_eq_ok h
    obtain ⟨raw, back, rfl, rfl⟩ := ih hk
    exact ⟨c :: raw, back, rfl, by simp only [List.length_cons]; omega⟩

def isBrace : Lexeme → Bool
  | .punct .openBrace | .punct .closeBrace => true
  | _ => false

/-- What a lexeme takes of a text, with its first character. -/
inductive Takes : Lexeme → List Char → Prop where
  | openBrace : Takes (.punct .openBrace) ['{']
  | closeBrace : Takes (.punct .closeBrace) ['}']
  | other {lexeme : Lexeme} {front : List Char} (hbrace : lexeme.isBrace = false)
      (h : Balanced front) : Takes lexeme front

theorem Takes.balanced {lexeme : Lexeme} {front : List Char} (h : lexeme.Takes front)
    (hbrace : lexeme.isBrace = false) : Balanced front := by
  cases h with
  | openBrace | closeBrace => simp [isBrace] at hbrace
  | other _ h => exact h

theorem Takes.eq_openBrace {front : List Char} (h : (Lexeme.punct .openBrace).Takes front) :
    front = ['{'] := by
  cases h with
  | openBrace => rfl
  | other hbrace => simp [isBrace] at hbrace

theorem Takes.eq_closeBrace {front : List Char} (h : (Lexeme.punct .closeBrace).Takes front) :
    front = ['}'] := by
  cases h with
  | closeBrace => rfl
  | other hbrace => simp [isBrace] at hbrace

/-- The quotes and braces are in no class that holds none of them. -/
theorem isQuiet_of_class {p : Char → Bool}
    (hp : (['\x22', '\x27', '\x60', '{', '}'].all fun d => !p d) = true) (hc : p c = true) :
    isQuiet c = true := by
  simp only [List.all_cons, List.all_nil, Bool.and_true, Bool.and_eq_true, Bool.not_eq_true'] at hp
  obtain ⟨hdouble, hsingle, hback, hopen, hclose⟩ := hp
  simp only [isQuiet, isQuote, Bool.and_eq_true, Bool.not_eq_true', Bool.or_eq_false_iff,
    decide_eq_false_iff_not, bne_iff_ne]
  refine ⟨⟨⟨⟨?_, ?_⟩, ?_⟩, ?_⟩, ?_⟩ <;> rintro rfl <;> simp_all

theorem take_takeWhile_quiet {p : Char → Bool} (cs : List Char)
    (hp : (['\x22', '\x27', '\x60', '{', '}'].all fun d => !p d) = true) :
    ∀ d ∈ cs.take (cs.takeWhile p).length, isQuiet d = true := by
  intro d hd
  rw [← List.prefix_iff_eq_take.1 (List.takeWhile_prefix p)] at hd
  exact isQuiet_of_class hp (List.mem_takeWhile_imp hd)

theorem digits_quiet (cs : List Char) : ∀ d ∈ cs.take (digitsLength cs), isQuiet d = true :=
  take_takeWhile_quiet cs (by decide)

theorem exponent_quiet (cs : List Char) :
    ∀ d ∈ cs.take (exponentLength cs), isQuiet d = true := by
  intro d hd
  unfold exponentLength at hd
  split at hd
  · rename_i e cs
    split_ifs at hd with he
    · dsimp only at hd
      split_ifs at hd with hnone
      · simp at hd
      · rw [Nat.add_assoc, Nat.add_comm 1, List.take_succ_cons, List.take_add, List.mem_cons,
          List.mem_append] at hd
        rcases hd with rfl | hsign | hdigit
        · rcases he with rfl | rfl <;> rfl
        · split at hsign
          · obtain rfl := List.mem_singleton.1 hsign
            rfl
          · obtain rfl := List.mem_singleton.1 hsign
            rfl
          · simp at hsign
        · exact digits_quiet _ d hdigit
    · simp at hd
  · simp at hd

theorem number_quiet (cs : List Char) : ∀ d ∈ cs.take (numberLength cs), isQuiet d = true := by
  intro d hd
  simp only [numberLength] at hd
  rw [List.take_add, List.take_add, List.mem_append, List.mem_append] at hd
  rcases hd with (hd | hd) | hd
  · exact digits_quiet cs d hd
  · split at hd
    · rename_i rest hrest
      rw [hrest, Nat.add_comm, List.take_succ_cons, List.mem_cons] at hd
      rcases hd with rfl | hd
      · rfl
      · exact digits_quiet rest d hd
    · simp at hd
  · exact exponent_quiet _ d hd

theorem takes_of_quiet {lexeme : Lexeme} {front : List Char}
    (hbrace : lexeme.isBrace = false) (h : ∀ d ∈ front, isQuiet d = true) : lexeme.Takes front :=
  .other hbrace (balanced_of_quiet h)

theorem punct_takes {p : Punct} (h : Punct.read? cs = some (p, n)) :
    (Lexeme.punct p).Takes (cs.take (n + 1)) := by
  unfold Punct.read? at h
  split at h
  case h_11 =>
    -- a question mark and a point
    split_ifs at h <;> obtain ⟨rfl, rfl⟩ := Prod.mk.inj (Option.some.inj h) <;>
      exact takes_of_quiet rfl (by simp [isQuiet, isQuote])
  all_goals first
    | simp at h
      done
    | obtain ⟨rfl, rfl⟩ := Prod.mk.inj (Option.some.inj h)
      first
        | exact .openBrace
        | exact .closeBrace
        | exact takes_of_quiet rfl (by simp [isQuiet, isQuote])

theorem read_takes {lexeme : Lexeme} (h : read c rest = .ok (lexeme, n))
    (hplain : ∀ raw, lexeme = .template raw → quoteless '\x60' raw = true) :
    lexeme.Takes (c :: rest.take n) := by
  simp only [read] at h
  split_ifs at h with hident hnumber hstring htemplate
  · have hquiet : ∀ d ∈ c :: rest.take (rest.takeWhile isIdentPart).length, isQuiet d = true := by
      rw [List.forall_mem_cons]
      exact ⟨isQuiet_of_class (by decide) hident, take_takeWhile_quiet rest (by decide)⟩
    split at h <;> obtain ⟨rfl, rfl⟩ := Prod.mk.inj (Except.ok.inj h) <;>
      exact takes_of_quiet rfl hquiet
  · split at h
    · simp at h
    · obtain ⟨rfl, rfl⟩ := Prod.mk.inj (Except.ok.inj h)
      refine takes_of_quiet rfl ?_
      rw [List.forall_mem_cons]
      constructor
      · simp only [Bool.or_eq_true, Bool.and_eq_true, decide_eq_true_eq] at hnumber
        rcases hnumber with hdigit | ⟨rfl, -⟩
        · exact isQuiet_of_class (by decide) hdigit
        · rfl
      · intro d hd
        apply number_quiet (c :: rest)
        cases hn : numberLength (c :: rest) with
        | zero => simp [hn] at hd
        | succ m =>
          rw [hn] at hd
          exact List.mem_cons_of_mem c hd
  · split at h
    · rename_i value m hbody
      obtain ⟨rfl, rfl⟩ := Prod.mk.inj (Except.ok.inj h)
      obtain ⟨inside, htake, hinside⟩ := textBody_quoted (by rcases hstring with rfl | rfl <;> decide) hbody
      refine .other rfl ?_
      rw [htake]
      exact balanced_quoted (by rcases hstring with rfl | rfl <;> decide) hinside
    · simp at h
  · subst htemplate
    split at h
    · rename_i m hm
      obtain ⟨rfl, rfl⟩ := Prod.mk.inj (Except.ok.inj h)
      obtain ⟨raw, back, rfl, rfl⟩ := templateLength_quoted hm
      have hraw := hplain _ rfl
      rw [Nat.add_sub_cancel, List.take_left] at hraw
      refine .other rfl ?_
      rw [List.take_length_add_append]
      exact balanced_quoted (by decide) hraw
    · simp at h
    · simp at h
  · split at h
    · rename_i p m hp
      obtain ⟨rfl, rfl⟩ := Prod.mk.inj (Except.ok.inj h)
      exact punct_takes hp
    · simp at h

end Lexeme

end LiveTemplate
