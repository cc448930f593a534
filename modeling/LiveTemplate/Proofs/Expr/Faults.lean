import LiveTemplate.Expr.Reading
import LiveTemplate.Proofs.Expr.Lexemes
import LiveTemplate.Proofs.Result

/-!
Faults in the text of an expression, a binding pattern or a loop header lie within the text. Every
token of a stream lies between the ends of its text, and so does whatever a rule of the grammar
refuses; the text of a substitution lies within the template text around it.
-/

namespace LiveTemplate

set_option autoImplicit false

/-- The ends of a span, in order, between two offsets. -/
def Span.Between (lo hi : Int) (s : Span) : Prop := lo ≤ s.start ∧ s.start ≤ s.stop ∧ s.stop ≤ hi

theorem Span.Between.mono {lo hi lo' hi' : Int} {s : Span} (h : s.Between lo hi) (hlo : lo' ≤ lo)
    (hhi : hi ≤ hi') : s.Between lo' hi' :=
  ⟨Int.le_trans hlo h.1, h.2.1, Int.le_trans h.2.2 hhi⟩

/-- The raw characters of a template text lie between its quotes. -/
def ExprToken.Quotes (t : ExprToken) : Prop :=
  ∀ raw, t.lexeme = .template raw → t.span.start + 1 + Text.width raw ≤ t.span.stop

/-- All tokens, and the end or the fault, lie between two offsets. -/
def Stream.Between (lo hi : Int) : Stream → Prop
  | done p => lo ≤ p ∧ p ≤ hi
  | bad e => e.span.Between lo hi
  | next t rest => t.span.Between lo hi ∧ t.Quotes ∧ rest.Between lo hi

theorem Stream.Between.mono {lo hi lo' hi' : Int} {s : Stream} (h : s.Between lo hi)
    (hlo : lo' ≤ lo) (hhi : hi ≤ hi') : s.Between lo' hi' := by
  induction s with
  | done p => exact ⟨Int.le_trans hlo h.1, Int.le_trans h.2 hhi⟩
  | bad e => exact Span.Between.mono h hlo hhi
  | next t rest ih => exact ⟨h.1.mono hlo hhi, h.2.1, ih h.2.2⟩

theorem Text.width_take_le (n : Nat) (cs : List Char) : width (cs.take n) ≤ width cs := by
  have hsplit := width_append (cs.take n) (cs.drop n)
  rw [List.take_append_drop] at hsplit
  omega

/-! ### Tokens -/

namespace Lexeme

variable {c : Char} {rest : List Char}

/-- A fault lies within the text it is found in. -/
theorem read_fault {f : Fault} (h : read c rest = .error f) :
    f.start ≤ f.stop ∧ f.stop ≤ Text.width (c :: rest) := by
  have hpos := Text.units_pos c
  have hwidth : Text.width (c :: rest) = Text.units c + Text.width rest := rfl
  simp only [read] at h
  split_ifs at h with hident hnumber hstring htemplate
  · split at h <;> cases h
  · split at h
    · rename_i hhead
      obtain rfl := Except.error.inj h
      refine ⟨Nat.zero_le _, ?_⟩
      have hlen : numberLength (c :: rest) < (c :: rest).length := by
        by_contra hge
        rw [List.drop_eq_nil_of_le (Nat.le_of_not_lt hge)] at hhead
        simp at hhead
      exact Nat.le_trans hlen (Text.length_le_width _)
    · cases h
  · split at h
    · cases h
    · obtain rfl := Except.error.inj h
      exact ⟨Nat.zero_le _, Nat.le_refl _⟩
  · split at h
    · cases h
    · obtain rfl := Except.error.inj h
      exact ⟨Nat.zero_le _, Nat.le_refl _⟩
    · rename_i m hm
      obtain rfl := Except.error.inj h
      refine ⟨?_, Nat.le_refl _⟩
      exact Nat.add_le_add_left (Text.width_take_le m rest) _
  · split at h
    · cases h
    · obtain rfl := Except.error.inj h
      exact ⟨Nat.zero_le _, by simp only; omega⟩

theorem read_quotes {lexeme : Lexeme} {n : Nat} {base : Int}
    (h : read c rest = .ok (lexeme, n)) :
    ExprToken.Quotes ⟨lexeme, ⟨base, base + Text.width (c :: rest.take n)⟩⟩ := by
  intro raw hraw
  obtain rfl : lexeme = .template raw := hraw
  simp only [read] at h
  split_ifs at h with hident hnumber hstring htemplate
  · split at h <;> simp at h
  · split at h <;> simp at h
  · split at h <;> simp at h
  · subst htemplate
    split at h
    · rename_i m hm
      obtain ⟨hraw, rfl⟩ := Prod.mk.inj (Except.ok.inj h)
      obtain ⟨raw', back, rfl, rfl⟩ := templateLength_quoted hm
      obtain rfl := Lexeme.template.inj hraw
      rw [Nat.add_sub_cancel, List.take_left]
      have htake : (raw' ++ '\x60' :: back).take (raw'.length + 1) = raw' ++ ['\x60'] :=
        List.take_length_add_append 1
      rw [htake]
      simp [Text.units]
      omega
    · simp at h
    · simp at h
  · split at h <;> simp at h

end Lexeme

/-- The tokens of a text lie between its ends. -/
theorem Stream.ofText_between (cs : List Char) (base : Int) :
    (Stream.ofText cs base).Between base (base + Text.width cs) := by
  induction cs, base using ofText.induct with
  | case1 base =>
    rw [ofText]
    exact ⟨Int.le_refl _, by simp⟩
  | case2 base c rest hblank ih =>
    rw [ofText, if_pos hblank, Text.width_cons]
    rw [Int.natCast_add, ← Int.add_assoc]
    exact ih.mono (by omega) (Int.le_refl _)
  | case3 base c rest hblank f hread =>
    rw [ofText, if_neg hblank, hread]
    have hfault := Lexeme.read_fault hread
    exact ⟨by simp only; omega, by simp only; omega, by simp only; omega⟩
  | case4 base c rest hblank lexeme n hread stop =>
    rename_i ih
    rw [ofText, if_neg hblank, hread]
    have hwidth : Text.width (c :: rest) =
        Text.width (c :: rest.take n) + Text.width (rest.drop n) := by
      rw [← Text.width_append, List.cons_append, List.take_append_drop]
    refine ⟨⟨Int.le_refl _, ?_, ?_⟩, Lexeme.read_quotes hread, ?_⟩
    · simp only
      omega
    · simp only
      omega
    · rw [hwidth, Int.natCast_add, ← Int.add_assoc]
      exact ih.mono (by simp only [stop]; omega) (Int.le_refl _)

/-! ### Rules of the grammar -/

/-- What a rule reads leaves tokens between two offsets, and what it refuses lies there. -/
abbrev Stays {α : Type} (lo hi : Int) (x : Except ExprError (WithRest α)) : Prop :=
  Ends (fun e => e.span.Between lo hi) (fun read => read.2.Between lo hi) x

/-- The rules that nested brackets lead back to keep to where their tokens lie. -/
structure Rules.Stay (r : Rules) : Prop where
  expr : ∀ {lo hi : Int} {s : Stream}, s.Between lo hi → Stays lo hi (r.expr s)
  pattern : ∀ {lo hi : Int} {s : Stream}, s.Between lo hi → Stays lo hi (r.pattern s)

namespace Grammar

variable {r : Rules} {lo hi : Int} {s : Stream}

theorem headSpan_between (hs : s.Between lo hi) : s.headSpan.Between lo hi := by
  cases s with
  | done p => exact ⟨hs.1, Int.le_refl _, hs.2⟩
  | bad e => exact hs
  | next t rest => exact hs.1

theorem reject_ends {α : Type} {Q : α → Prop} (fault : ExprFault) (hs : s.Between lo hi) :
    Ends (fun e : ExprError => e.span.Between lo hi) Q (reject fault s) := by
  cases s with
  | bad e => exact hs
  | done | next => exact headSpan_between hs

theorem settle_stays {α : Type} (x : α) (hs : s.Between lo hi) : Stays lo hi (settle x s) := by
  cases s with
  | bad e => exact hs
  | done | next => exact hs

theorem propertyName_stays (operator : String) (hs : s.Between lo hi) :
    Stays lo hi (propertyName operator s) := by
  unfold propertyName
  split
  · exact hs.2.2
  · exact hs.2.2
  · exact reject_ends _ hs

theorem keyTail_stays (hr : r.Stay) (hs : s.Between lo hi) : Stays lo hi (keyTail r s) := by
  apply (hr.expr hs).bind
  rintro ⟨key, s⟩ - hs
  dsimp only
  split
  · exact hs.2.2
  · exact reject_ends _ hs

theorem moreArguments_stays (hr : r.Stay) (n : Nat) (hs : s.Between lo hi) :
    Stays lo hi (moreArguments r n s) := by
  induction n generalizing s with
  | zero => exact reject_ends _ hs
  | succ n ih =>
    apply (hr.expr hs).bind
    rintro ⟨arg, s⟩ - hs
    dsimp only
    split
    · exact hs.2.2
    · apply (ih hs.2.2).bind
      rintro ⟨⟨args, span⟩, s⟩ - hs
      exact hs
    · exact reject_ends _ hs

theorem arguments_stays (hr : r.Stay) (hs : s.Between lo hi) : Stays lo hi (arguments r s) := by
  unfold arguments
  split
  · exact hs.2.2
  · exact moreArguments_stays hr _ hs

theorem suffixes_stays (hr : r.Stay) (n : Nat) (e : Expr) (hs : s.Between lo hi) :
    Stays lo hi (suffixes r n e s) := by
  induction n generalizing s e with
  | zero => exact settle_stays e hs
  | succ n ih =>
    unfold suffixes
    split
    · apply (propertyName_stays "." hs.2.2).bind
      rintro ⟨⟨name, span⟩, s⟩ - hs
      exact ih _ hs
    · apply (arguments_stays hr hs.2.2.2.2).bind
      rintro ⟨⟨args, span⟩, s⟩ - hs
      exact ih _ hs
    · apply (keyTail_stays hr hs.2.2.2.2).bind
      rintro ⟨⟨key, span⟩, s⟩ - hs
      exact ih _ hs
    · apply (propertyName_stays "?." hs.2.2).bind
      rintro ⟨⟨name, span⟩, s⟩ - hs
      exact ih _ hs
    · apply (keyTail_stays hr hs.2.2).bind
      rintro ⟨⟨key, span⟩, s⟩ - hs
      exact ih _ hs
    · apply (arguments_stays hr hs.2.2).bind
      rintro ⟨⟨args, span⟩, s⟩ - hs
      exact ih _ hs
    · exact settle_stays e hs

theorem elements_stays (hr : r.Stay) (n : Nat) (hs : s.Between lo hi) :
    Stays lo hi (elements r n s) := by
  induction n generalizing s with
  | zero => exact reject_ends _ hs
  | succ n ih =>
    unfold elements
    split
    · exact hs.2.2
    · apply (hr.expr hs).bind
      rintro ⟨e, s⟩ - hs
      dsimp only
      split
      · apply (ih hs.2.2).bind
        rintro ⟨⟨es, span⟩, s⟩ - hs
        exact hs
      · exact hs.2.2
      · exact reject_ends _ hs

theorem fieldValue_stays (hr : r.Stay) (key : ExprToken) (name : String) (hs : s.Between lo hi) :
    Stays lo hi (fieldValue r key name s) := by
  unfold fieldValue
  split
  · exact hr.expr hs.2.2
  · dsimp only
    split_ifs
    · exact hs
    · exact reject_ends _ hs

theorem fields_stays (hr : r.Stay) (n : Nat) (hs : s.Between lo hi) :
    Stays lo hi (fields r n s) := by
  induction n generalizing s with
  | zero => exact reject_ends _ hs
  | succ n ih =>
    unfold fields
    split
    · exact hs.2.2
    · split
      · exact reject_ends _ hs
      · apply (fieldValue_stays hr _ _ hs.2.2).bind
        rintro ⟨value, s⟩ - hs
        dsimp only
        split
        · apply (ih hs.2.2).bind
          rintro ⟨⟨more, span⟩, s⟩ - hs
          exact hs
        · exact hs.2.2
        · exact reject_ends _ hs
    · exact reject_ends _ hs

/-- A whole text, of which nothing is left. -/
theorem wholeExpr_ends (hr : r.Stay) (hs : s.Between lo hi) :
    Ends (fun e => e.span.Between lo hi) (fun _ => True) (wholeExpr r s) := by
  unfold wholeExpr
  split
  · apply (hr.expr hs).bind
    rintro ⟨e, rest⟩ - hrest
    dsimp only
    split
    · trivial
    · exact reject_ends _ hrest
  · exact reject_ends _ hs

/-- Substitutions are read where they stand in the text. -/
theorem templateParts_ends (hr : r.Stay) (raw : List Char) (base : Int) (hlo : lo ≤ base)
    (hhi : base + Text.width raw ≤ hi) :
    Ends (fun e => e.span.Between lo hi) (fun _ => True) (templateParts r raw base) := by
  have hdollar : Text.units '$' = 1 := rfl
  have hbrace : Text.units '{' = 1 := rfl
  induction raw, base using templateParts.induct with
  | case1 base | case2 base =>
    rw [templateParts]
    trivial
  | case3 base c cs ih =>
    rw [templateParts]
    simp only [Text.width_cons, Text.width_nil] at ih hhi
    apply (ih (by omega) (by omega)).bind
    rintro ⟨head, parts⟩ - -
    trivial
  | case4 base cs hclose =>
    rw [templateParts, hclose]
    simp only [Ends, Span.Between, Text.width_cons, hdollar, hbrace] at hhi ⊢
    omega
  | case5 base cs n hclose ih =>
    rw [templateParts, hclose]
    simp only [Text.width_cons, hdollar, hbrace] at hhi
    have hcs : Text.width cs = Text.width (cs.take n) + Text.width (cs.drop n) := by
      rw [← Text.width_append, List.take_append_drop]
    have hcode := Text.width_take_le (n - 1) cs
    have hs := Stream.ofText_between (cs.take (n - 1)) (base + 2)
    apply (wholeExpr_ends hr (hs.mono (by omega) (by omega))).bind
    rintro e - -
    apply (ih (by omega) (by omega)).bind
    rintro ⟨head, parts⟩ - -
    trivial
  | case6 base c cs hend hescape hopen ih =>
    rw [templateParts]
    · simp only [Text.width_cons] at hhi
      apply (ih (by omega) (by omega)).bind
      rintro ⟨head, parts⟩ - -
      trivial
    all_goals assumption

theorem arrowFollows_ends (hs : s.Between lo hi) :
    Ends (fun e => e.span.Between lo hi) (fun _ => True) (arrowFollows s) := by
  unfold arrowFollows
  split
  · exact hs
  · trivial
  · trivial

theorem parameters_stays (hr : r.Stay) (n : Nat) (hs : s.Between lo hi) :
    Stays lo hi (parameters r n s) := by
  induction n generalizing s with
  | zero => exact reject_ends _ hs
  | succ n ih =>
    unfold parameters
    split
    · exact hs.2.2
    · apply (hr.pattern hs).bind
      rintro ⟨p, s⟩ - hs
      dsimp only
      split
      · apply (ih hs.2.2).bind
        rintro ⟨ps, s⟩ - hs
        exact hs
      · exact hs.2.2
      · exact reject_ends _ hs

theorem arrowTail_stays (hr : r.Stay) (start : Int) (params : List Pattern)
    (hs : s.Between lo hi) : Stays lo hi (arrowTail r start params s) := by
  unfold arrowTail
  split
  · apply (hr.expr hs.2.2).bind
    rintro ⟨body, s⟩ - hs
    exact hs
  · exact reject_ends _ hs

theorem parenTail_stays (hr : r.Stay) (hs : s.Between lo hi) : Stays lo hi (parenTail r s) := by
  apply (hr.expr hs).bind
  rintro ⟨e, s⟩ - hs
  dsimp only
  split
  · exact hs.2.2
  · exact reject_ends _ hs

theorem primary_stays (hr : r.Stay) (hs : s.Between lo hi) : Stays lo hi (primary r s) := by
  unfold primary
  split
  · rename_i lexeme span rest
    obtain ⟨hspan, hquotes, hrest⟩ := hs
    split
    case h_1 =>
      apply (arrowFollows_ends hrest).bind
      rintro follows - -
      split
      · exact arrowTail_stays hr _ _ hrest
      · exact hrest
    case h_8 =>
      rename_i raw
      have hwithin := hquotes raw rfl
      have hlo : lo ≤ span.start + 1 := Int.le_trans hspan.1 (Int.le_add_one (Int.le_refl _))
      have hparts := templateParts_ends hr raw _ hlo (Int.le_trans hwithin hspan.2.2)
      apply hparts.bind
      rintro ⟨head, parts⟩ - -
      exact hrest
    case h_9 =>
      apply (elements_stays hr _ hrest).bind
      rintro ⟨⟨es, stop⟩, s⟩ - hs
      exact hs
    case h_10 =>
      apply (fields_stays hr _ hrest).bind
      rintro ⟨⟨fs, stop⟩, s⟩ - hs
      exact hs
    case h_11 =>
      split
      · apply (parameters_stays hr _ hrest).bind
        rintro ⟨params, s⟩ - hs
        exact arrowTail_stays hr _ _ hs
      · exact parenTail_stays hr hrest
    case h_12 => exact reject_ends _ ⟨hspan, hquotes, hrest⟩
    all_goals exact hrest
  · exact reject_ends _ hs

theorem postfixed_stays (hr : r.Stay) (hs : s.Between lo hi) : Stays lo hi (postfixed r s) := by
  apply (primary_stays hr hs).bind
  rintro ⟨e, s⟩ - hs
  exact suffixes_stays hr _ e hs

theorem unary_stays (hr : r.Stay) (hs : s.Between lo hi) : Stays lo hi (unary r s) := by
  induction s with
  | done | bad => exact postfixed_stays hr hs
  | next t rest ih =>
    unfold unary
    split
    · apply (ih hs.2.2).bind
      rintro ⟨e, s⟩ - hs
      exact hs
    · exact postfixed_stays hr hs

theorem operatorAt_between {level : Nat} {op : BinaryOp} {rest : Stream}
    (hs : s.Between lo hi) (h : operatorAt level s = some (op, rest)) : rest.Between lo hi := by
  unfold operatorAt at h
  split at h
  · split at h
    · split_ifs at h
      obtain ⟨-, rfl⟩ := Prod.mk.inj (Option.some.inj h)
      exact hs.2.2
    · cases h
  · cases h

theorem chain_stays {operand : Stream → Except ExprError (WithRest Expr)}
    (hoperand : ∀ {s : Stream}, s.Between lo hi → Stays lo hi (operand s)) (level n : Nat)
    (left : Expr) (hs : s.Between lo hi) : Stays lo hi (chain operand level n left s) := by
  induction n generalizing s left with
  | zero => exact settle_stays left hs
  | succ n ih =>
    unfold chain
    split
    · rename_i hop
      apply (hoperand (operatorAt_between hs hop)).bind
      rintro ⟨right, s⟩ - hs
      exact ih _ hs
    · exact settle_stays left hs

theorem binary_stays (hr : r.Stay) (k : Nat) (hs : s.Between lo hi) :
    Stays lo hi (binary r k s) := by
  induction k generalizing s with
  | zero => exact unary_stays hr hs
  | succ k ih =>
    apply (ih hs).bind
    rintro ⟨left, s⟩ - hs
    exact chain_stays ih _ _ _ hs

theorem conditional_stays (hr : r.Stay) (hs : s.Between lo hi) :
    Stays lo hi (conditional r s) := by
  apply (binary_stays hr 7 hs).bind
  rintro ⟨condition, s⟩ - hs
  dsimp only
  split
  · apply (hr.expr hs.2.2).bind
    rintro ⟨yes, s⟩ - hs
    dsimp only
    split
    · apply (hr.expr hs.2.2).bind
      rintro ⟨no, s⟩ - hs
      exact hs
    · exact reject_ends _ hs
  · exact hs

theorem patternElements_stays (hr : r.Stay) (n : Nat) (hs : s.Between lo hi) :
    Stays lo hi (patternElements r n s) := by
  induction n generalizing s with
  | zero => exact reject_ends _ hs
  | succ n ih =>
    unfold patternElements
    split
    · exact hs.2.2
    · apply (ih hs.2.2).bind
      rintro ⟨⟨ps, span⟩, s⟩ - hs
      exact hs
    · apply (hr.pattern hs).bind
      rintro ⟨p, s⟩ - hs
      dsimp only
      split
      · apply (ih hs.2.2).bind
        rintro ⟨⟨ps, span⟩, s⟩ - hs
        exact hs
      · exact hs.2.2
      · exact reject_ends _ hs

theorem propertyValue_stays (hr : r.Stay) {key : ExprToken} {rest : Stream}
    (hs : (Stream.next key rest).Between lo hi) : Stays lo hi (propertyValue r key rest) := by
  unfold propertyValue
  split
  · exact hs.2.2
  · exact hr.pattern hs.2.2.2.2
  · split
    · exact hr.pattern hs
    · exact hs.1

theorem properties_stays (hr : r.Stay) (n : Nat) (hs : s.Between lo hi) :
    Stays lo hi (properties r n s) := by
  induction n generalizing s with
  | zero => exact reject_ends _ hs
  | succ n ih =>
    unfold properties
    split
    · exact hs.2.2
    · split
      · exact reject_ends _ hs
      · apply (propertyValue_stays hr hs).bind
        rintro ⟨p, s⟩ - hs
        dsimp only
        split
        · apply (ih hs.2.2).bind
          rintro ⟨⟨more, span⟩, s⟩ - hs
          exact hs
        · exact hs.2.2
        · exact reject_ends _ hs
    · exact reject_ends _ hs

theorem plainPattern_stays (hr : r.Stay) (hs : s.Between lo hi) :
    Stays lo hi (plainPattern r s) := by
  unfold plainPattern
  split
  · exact hs.2.2
  · apply (patternElements_stays hr _ hs.2.2).bind
    rintro ⟨⟨ps, stop⟩, s⟩ - hs
    exact hs
  · apply (properties_stays hr _ hs.2.2).bind
    rintro ⟨⟨ps, stop⟩, s⟩ - hs
    exact hs
  · exact reject_ends _ hs

theorem pattern_stays (hr : r.Stay) (hs : s.Between lo hi) : Stays lo hi (pattern r s) := by
  apply (plainPattern_stays hr hs).bind
  rintro ⟨target, s⟩ - hs
  dsimp only
  split
  · apply (hr.expr hs.2.2).bind
    rintro ⟨value, s⟩ - hs
    exact hs
  · exact settle_stays target hs

end Grammar

theorem Rules.upTo_stay (n : Nat) : (Rules.upTo n).Stay := by
  induction n with
  | zero => exact ⟨Grammar.reject_ends _, Grammar.reject_ends _⟩
  | succ n ih => exact ⟨Grammar.conditional_stays ih, Grammar.pattern_stays ih⟩

section

variable (cs : List Char) (base : Int)

theorem Expr.ofChars_ends :
    Ends (fun e => e.span.Between base (base + Text.width cs)) (fun _ => True)
      (Expr.ofChars cs base) :=
  Grammar.wholeExpr_ends (Rules.upTo_stay _) (Stream.ofText_between cs base)

theorem Pattern.ofChars_ends :
    Ends (fun e => e.span.Between base (base + Text.width cs)) (fun _ => True)
      (Pattern.ofChars cs base) := by
  have hs := Stream.ofText_between cs base
  unfold Pattern.ofChars
  dsimp only
  split
  · rename_i hstream
    apply ((Rules.upTo_stay _).pattern hs).bind
    rintro ⟨p, rest⟩ - hrest
    dsimp only
    split
    · trivial
    · exact Grammar.reject_ends _ hrest
  · exact Grammar.reject_ends _ hs

theorem ForHeader.ofChars_ends :
    Ends (fun e => e.span.Between base (base + Text.width cs)) (fun _ => True)
      (ForHeader.ofChars cs base) := by
  have hs := Stream.ofText_between cs base
  have hr := Rules.upTo_stay (cs.length + 1)
  unfold ForHeader.ofChars
  dsimp only
  split
  · apply (Grammar.plainPattern_stays hr hs).bind
    rintro ⟨p, rest⟩ - hrest
    dsimp only
    split
    · apply (hr.expr hrest.2.2).bind
      rintro ⟨items, rest⟩ - hrest
      dsimp only
      split
      · trivial
      · exact Grammar.reject_ends _ hrest
    · exact Grammar.reject_ends _ hrest
  · exact Grammar.reject_ends _ hs

end

end LiveTemplate
