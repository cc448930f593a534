import LiveTemplate.Expr.Reading
import LiveTemplate.Proofs.Expr.Spacing

/-!
Streams by what is at their head. Where no expression goes on at the heads of two streams, a rule has
no more to read of the one than of the other. Tokens whose parentheses match stand in front of an
arrow's search without an effect.
-/

namespace LiveTemplate

set_option autoImplicit false

/-! ### Weights -/

/-- The weight of a lexeme: the text that a template holds counts with it. -/
def Lexeme.weight : Lexeme → Nat
  | .template raw => raw.length + 1
  | _ => 1

theorem Lexeme.weight_pos (lexeme : Lexeme) : 0 < lexeme.weight := by
  cases lexeme <;> simp [weight]

/-- A lexeme weighs no more than the characters it takes. -/
theorem Lexeme.read_weight_le {c : Char} {rest : List Char} {n : Nat} {lexeme : Lexeme}
    (h : read c rest = .ok (lexeme, n)) : lexeme.weight ≤ n + 1 := by
  simp only [read] at h
  split_ifs at h
  · split at h <;> obtain ⟨rfl, rfl⟩ := Prod.mk.inj (Except.ok.inj h) <;> simp [weight]
  · split at h
    · cases h
    · obtain ⟨rfl, rfl⟩ := Prod.mk.inj (Except.ok.inj h)
      simp [weight]
  · split at h
    · obtain ⟨rfl, rfl⟩ := Prod.mk.inj (Except.ok.inj h)
      simp [weight]
    · cases h
  · split at h
    · rename_i m hm
      obtain ⟨rfl, rfl⟩ := Prod.mk.inj (Except.ok.inj h)
      obtain ⟨raw, back, rfl, rfl⟩ := templateLength_quoted hm
      simp [weight]
    · cases h
    · cases h
  · split at h
    · obtain ⟨rfl, rfl⟩ := Prod.mk.inj (Except.ok.inj h)
      simp [weight]
    · cases h

namespace Stream

variable {s s' u : Stream}

def weight : Stream → Nat
  | done _ | bad _ => 0
  | next t rest => t.lexeme.weight + rest.weight

theorem weight_lt_next (t : ExprToken) (s : Stream) : s.weight < (next t s).weight := by
  have := t.lexeme.weight_pos
  simp only [weight]
  omega

theorem weight_le_after (ts : List ExprToken) (s : Stream) : s.weight ≤ (s.after ts).weight := by
  induction ts with
  | nil => exact Nat.le_refl _
  | cons t ts ih => exact Nat.le_trans ih (Nat.le_of_lt (weight_lt_next t _))

theorem weight_lt_after_next (ts : List ExprToken) (t : ExprToken) (s : Stream) :
    s.weight < ((next t s).after ts).weight :=
  Nat.lt_of_lt_of_le (weight_lt_next t s) (weight_le_after ts _)

theorem weight_ofText_le (cs : List Char) (base : Int) : (ofText cs base).weight ≤ cs.length := by
  induction cs, base using ofText.induct with
  | case1 base => simp [ofText, weight]
  | case2 base c rest hblank ih =>
    rw [ofText, if_pos hblank, List.length_cons]
    omega
  | case3 base c rest hblank f hread =>
    rw [ofText, if_neg hblank, hread]
    exact Nat.zero_le _
  | case4 base c rest hblank lexeme n hread stop =>
    rename_i ih
    have hweight := Lexeme.read_weight_le hread
    have hle := (Lexeme.read_append_blank (b := ' ') rfl [] hread).1
    rw [ofText, if_neg hblank, hread]
    simp only [weight, List.length_cons]
    simp only [stop, List.length_drop] at ih
    omega

theorem size_after (ts : List ExprToken) (s : Stream) : (s.after ts).size = ts.length + s.size := by
  induction ts with
  | nil => simp
  | cons t ts ih =>
    rw [after_cons, size, ih, List.length_cons]
    omega

/-! ### Streams that go on alike -/

/-- The marks at which no expression goes on. -/
def closing : List Punct := [.closeParen, .closeBracket, .closeBrace, .comma, .colon]

/-- Whether no expression goes on at the head of a stream. -/
def closes : Stream → Bool
  | done _ => true
  | next ⟨.punct p, _⟩ _ => p ∈ closing
  | _ => false

/-- Streams that begin with one token, or with none by which an expression goes on. -/
inductive Alike : Stream → Stream → Prop where
  | same (t : ExprToken) (rest rest' : Stream) : Alike (next t rest) (next t rest')
  | closed {s u : Stream} (hs : s.closes = true) (hu : u.closes = true) : Alike s u

theorem Alike.symm (h : s.Alike u) : u.Alike s := by
  cases h with
  | same t rest rest' => exact .same t rest' rest
  | closed hs hu => exact .closed hu hs

theorem Alike.after (h : s.Alike u) (ts : List ExprToken) : (s.after ts).Alike (u.after ts) := by
  cases ts with
  | nil => exact h
  | cons t ts => exact .same t _ _

/-- A mark by which an expression goes on is at the head of both streams. -/
theorem Alike.of_punct {p : Punct} {span : Span} {rest : Stream}
    (h : s.Alike (next ⟨.punct p, span⟩ rest)) (hp : p ∉ closing) :
    ∃ rest', s = next ⟨.punct p, span⟩ rest' := by
  cases h with
  | same t rest' rest => exact ⟨rest', rfl⟩
  | closed hs hu => exact absurd (of_decide_eq_true hu) hp

/-- Streams that begin with one token. -/
def SameHead (s u : Stream) : Prop := ∃ t rest rest', s = next t rest ∧ u = next t rest'

/-- Behind the same tokens, a stream begins with no other mark than one with the same head does. -/
theorem after_next_ne {ts : List ExprToken} {t : ExprToken} {rest : Stream} {p : Punct}
    (h : ∀ span rest', (next t rest).after ts = next ⟨.punct p, span⟩ rest' → False)
    (rest'' : Stream) (span : Span) (rest' : Stream) :
    (next t rest'').after ts = next ⟨.punct p, span⟩ rest' → False := by
  intro heq
  cases ts with
  | nil =>
    obtain ⟨rfl, -⟩ := next.inj heq
    exact h span rest rfl
  | cons t' ts =>
    obtain ⟨rfl, -⟩ := next.inj heq
    exact h span _ rfl

theorem Alike.ne_bad {e : ExprError} (h : s.Alike u) : u ≠ bad e := by
  rintro rfl
  cases h with
  | closed hs hu => cases hu

end Stream

namespace Grammar

variable {s s' u : Stream} {ts us : List ExprToken} {span : Span}

theorem settle_alike {α : Type} (x : α) (h : s.Alike u) : settle x u = .ok (x, u) := by
  cases u with
  | bad e => exact absurd rfl h.ne_bad
  | done | next => rfl

/-! ### Parentheses -/

def isParen : Lexeme → Bool
  | .punct .openParen | .punct .closeParen => true
  | _ => false

/-- Tokens whose parentheses match: the search for an arrow passes over them. -/
def ParensMatch (ts : List ExprToken) : Prop :=
  ∀ depth u, arrowAfterParen depth (u.after ts) = arrowAfterParen depth u

theorem ParensMatch.nil : ParensMatch [] := fun _ _ => rfl

theorem ParensMatch.append (h : ParensMatch ts) (h' : ParensMatch us) : ParensMatch (ts ++ us) := by
  intro depth u
  rw [Stream.after_append, h, h']

theorem arrowAfterParen_next {t : ExprToken} (ht : isParen t.lexeme = false) (depth : Nat)
    (u : Stream) : arrowAfterParen depth (.next t u) = arrowAfterParen depth u := by
  obtain ⟨lexeme, span⟩ := t
  cases lexeme with
  | punct p => cases p <;> first | (cases depth <;> rfl) | cases ht
  | ident | keyword | text | number | template => cases depth <;> rfl

theorem parensMatch_cons {t : ExprToken} (ht : isParen t.lexeme = false) :
    ParensMatch (t :: ts) ↔ ParensMatch ts :=
  forall_congr' fun depth => forall_congr' fun u => by
    rw [Stream.after_cons, arrowAfterParen_next ht]

theorem ParensMatch.cons {t : ExprToken} (ht : isParen t.lexeme = false) (h : ParensMatch ts) :
    ParensMatch (t :: ts) := (parensMatch_cons ht).mpr h

theorem ParensMatch.snoc {t : ExprToken} (h : ParensMatch ts) (ht : isParen t.lexeme = false) :
    ParensMatch (ts ++ [t]) := h.append (.cons ht .nil)

/-- Tokens that end with the parenthesis closing one opened before them. -/
inductive ClosesParen : List ExprToken → Prop where
  | intro {inner : List ExprToken} (h : ParensMatch inner) (span : Span) :
      ClosesParen (inner ++ [⟨.punct .closeParen, span⟩])

theorem ClosesParen.single (span : Span) : ClosesParen [⟨.punct .closeParen, span⟩] :=
  .intro .nil span

theorem ClosesParen.behind (h : ClosesParen us) (h' : ParensMatch ts) : ClosesParen (ts ++ us) := by
  cases h with
  | intro h span =>
    rw [← List.append_assoc]
    exact .intro (h'.append h) span

theorem ClosesParen.ne_nil (h : ClosesParen ts) : ts ≠ [] := by
  cases h
  simp

theorem ClosesParen.parens (h : ClosesParen ts) (span : Span) :
    ParensMatch (⟨.punct .openParen, span⟩ :: ts) := by
  cases h with
  | intro h stop =>
    intro depth u
    have hin : arrowAfterParen (depth + 1) (u.after (_ ++ [⟨.punct .closeParen, stop⟩])) = _ :=
      (congrArg _ (Stream.after_append _ _ u)).trans (h (depth + 1) _)
    exact hin

def isArrow : Stream → Bool
  | .next ⟨.punct .arrow, _⟩ _ => true
  | _ => false

theorem ClosesParen.arrowAfterParen_eq (h : ClosesParen ts) (u : Stream) :
    arrowAfterParen 0 (u.after ts) = isArrow u := by
  cases h with
  | intro h span =>
    rw [Stream.after_append, h]
    rfl

theorem eq_of_isArrow (h : isArrow s = true) : ∃ span rest, s = .next ⟨.punct .arrow, span⟩ rest := by
  unfold isArrow at h
  split at h
  · exact ⟨_, _, rfl⟩
  · cases h

theorem isArrow_alike (h : s.Alike u) : isArrow u = isArrow s := by
  rw [Bool.eq_iff_iff]
  constructor <;> intro harrow <;> obtain ⟨span, rest, rfl⟩ := eq_of_isArrow harrow
  · obtain ⟨rest', rfl⟩ := h.of_punct (by decide)
    rfl
  · obtain ⟨rest', rfl⟩ := h.symm.of_punct (by decide)
    rfl

end Grammar

end LiveTemplate
