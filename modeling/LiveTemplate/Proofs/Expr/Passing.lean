import LiveTemplate.Expr.Reading
import LiveTemplate.Proofs.Expr.Lexemes
import LiveTemplate.Proofs.Result

/-!
The grammar passes over braces in pairs: what any of its rules takes of a stream holds a closing brace
for every opening one, in order.
-/

namespace LiveTemplate

set_option autoImplicit false

/-- A stream leads to another over tokens whose braces match. -/
inductive Stream.Passes : Stream → Stream → Prop where
  | refl (s : Stream) : Passes s s
  | token {t : ExprToken} {rest s : Stream} (ht : t.lexeme.isBrace = false) (h : Passes rest s) :
      Passes (.next t rest) s
  | braces {start stop : Span} {rest after s : Stream}
      (hin : Passes rest (.next ⟨.punct .closeBrace, stop⟩ after)) (h : Passes after s) :
      Passes (.next ⟨.punct .openBrace, start⟩ rest) s

namespace Stream.Passes

variable {s s' s'' : Stream}

theorem trans (h : s.Passes s') (h' : s'.Passes s'') : s.Passes s'' := by
  induction h with
  | refl => exact h'
  | token ht _ ih => exact .token ht (ih h')
  | braces hin _ _ ih => exact .braces hin (ih h')

/-- A token that is no brace after what is passed over. -/
theorem snoc {t : ExprToken} (h : s.Passes (.next t s')) (ht : t.lexeme.isBrace = false) :
    s.Passes s' :=
  h.trans (.token ht (.refl s'))

end Stream.Passes

/-- The rules that nested brackets lead back to pass over braces in pairs. -/
structure Rules.Pass (r : Rules) : Prop where
  expr : ∀ {s s' : Stream} {e : Expr}, r.expr s = .ok (e, s') → s.Passes s'
  pattern : ∀ {s s' : Stream} {p : Pattern}, r.pattern s = .ok (p, s') → s.Passes s'

namespace Grammar

variable {r : Rules} {s s' : Stream} {span : Span}

theorem reject_ne_ok {α : Type} {fault : ExprFault} {x : α} : reject fault s ≠ .ok x := by
  cases s <;> simp [reject]

theorem settle_eq_ok {α : Type} {x y : α} (h : settle x s = .ok (y, s')) : s' = s := by
  cases s with
  | bad => simp [settle] at h
  | done | next => exact (Prod.mk.inj (Except.ok.inj h)).2.symm

theorem propertyName_passes {operator name : String}
    (h : propertyName operator s = .ok ((name, span), s')) : s.Passes s' := by
  unfold propertyName at h
  split at h
  · obtain ⟨-, rfl⟩ := Prod.mk.inj (Except.ok.inj h)
    exact .token rfl (.refl _)
  · obtain ⟨-, rfl⟩ := Prod.mk.inj (Except.ok.inj h)
    exact .token rfl (.refl _)
  · exact absurd h reject_ne_ok

theorem keyTail_passes (hr : r.Pass) {key : Expr} (h : keyTail r s = .ok ((key, span), s')) :
    s.Passes s' := by
  obtain ⟨⟨e, s₁⟩, he, h⟩ := bind_eq_ok.1 h
  dsimp only at h
  split at h
  · obtain ⟨-, rfl⟩ := Prod.mk.inj (Except.ok.inj h)
    exact (hr.expr he).snoc rfl
  · exact absurd h reject_ne_ok

theorem moreArguments_passes (hr : r.Pass) {n : Nat} {args : List Expr}
    (h : moreArguments r n s = .ok ((args, span), s')) : s.Passes s' := by
  induction n generalizing s args span s' with
  | zero => exact absurd h reject_ne_ok
  | succ n ih =>
    obtain ⟨⟨arg, s₁⟩, harg, h⟩ := bind_eq_ok.1 h
    dsimp only at h
    split at h
    · obtain ⟨-, rfl⟩ := Prod.mk.inj (Except.ok.inj h)
      exact (hr.expr harg).snoc rfl
    · obtain ⟨⟨⟨more, stop⟩, s₂⟩, hmore, h⟩ := bind_eq_ok.1 h
      obtain ⟨-, rfl⟩ := Prod.mk.inj (Except.ok.inj h)
      exact ((hr.expr harg).snoc rfl).trans (ih hmore)
    · exact absurd h reject_ne_ok

theorem arguments_passes (hr : r.Pass) {args : List Expr}
    (h : arguments r s = .ok ((args, span), s')) : s.Passes s' := by
  unfold arguments at h
  split at h
  · obtain ⟨-, rfl⟩ := Prod.mk.inj (Except.ok.inj h)
    exact .token rfl (.refl _)
  · exact moreArguments_passes hr h

theorem suffixes_passes (hr : r.Pass) {n : Nat} {e e' : Expr}
    (h : suffixes r n e s = .ok (e', s')) : s.Passes s' := by
  induction n generalizing s e with
  | zero =>
    obtain rfl := settle_eq_ok h
    exact .refl _
  | succ n ih =>
    unfold suffixes at h
    split at h
    · obtain ⟨⟨⟨name, stop⟩, s₁⟩, hname, h⟩ := bind_eq_ok.1 h
      exact .token rfl ((propertyName_passes hname).trans (ih h))
    · obtain ⟨⟨⟨args, stop⟩, s₁⟩, hargs, h⟩ := bind_eq_ok.1 h
      exact .token rfl (.token rfl ((arguments_passes hr hargs).trans (ih h)))
    · obtain ⟨⟨⟨key, stop⟩, s₁⟩, hkey, h⟩ := bind_eq_ok.1 h
      exact .token rfl (.token rfl ((keyTail_passes hr hkey).trans (ih h)))
    · obtain ⟨⟨⟨name, stop⟩, s₁⟩, hname, h⟩ := bind_eq_ok.1 h
      exact .token rfl ((propertyName_passes hname).trans (ih h))
    · obtain ⟨⟨⟨key, stop⟩, s₁⟩, hkey, h⟩ := bind_eq_ok.1 h
      exact .token rfl ((keyTail_passes hr hkey).trans (ih h))
    · obtain ⟨⟨⟨args, stop⟩, s₁⟩, hargs, h⟩ := bind_eq_ok.1 h
      exact .token rfl ((arguments_passes hr hargs).trans (ih h))
    · obtain rfl := settle_eq_ok h
      exact .refl _

theorem elements_passes (hr : r.Pass) {n : Nat} {es : List Expr}
    (h : elements r n s = .ok ((es, span), s')) : s.Passes s' := by
  induction n generalizing s es span s' with
  | zero => exact absurd h reject_ne_ok
  | succ n ih =>
    unfold elements at h
    split at h
    · obtain ⟨-, rfl⟩ := Prod.mk.inj (Except.ok.inj h)
      exact .token rfl (.refl _)
    · obtain ⟨⟨e, s₁⟩, he, h⟩ := bind_eq_ok.1 h
      dsimp only at h
      split at h
      · obtain ⟨⟨⟨more, stop⟩, s₂⟩, hmore, h⟩ := bind_eq_ok.1 h
        obtain ⟨-, rfl⟩ := Prod.mk.inj (Except.ok.inj h)
        exact ((hr.expr he).snoc rfl).trans (ih hmore)
      · obtain ⟨-, rfl⟩ := Prod.mk.inj (Except.ok.inj h)
        exact (hr.expr he).snoc rfl
      · exact absurd h reject_ne_ok

theorem fieldValue_passes (hr : r.Pass) {key : ExprToken} {name : String} {e : Expr}
    (h : fieldValue r key name s = .ok (e, s')) : s.Passes s' := by
  unfold fieldValue at h
  split at h
  · exact .token rfl (hr.expr h)
  · dsimp only at h
    split_ifs at h
    · obtain ⟨-, rfl⟩ := Prod.mk.inj (Except.ok.inj h)
      exact .refl _
    · exact absurd h reject_ne_ok

/-- No brace names a field. -/
theorem isBrace_of_fieldName {lexeme : Lexeme} {name : String} (h : fieldName? lexeme = some name) :
    lexeme.isBrace = false := by
  cases lexeme with
  | punct p => simp [fieldName?] at h
  | ident | keyword | text | number | template => rfl

/-- Fields pass over everything up to the closing brace. -/
theorem fields_passes (hr : r.Pass) {n : Nat} {fs : List (String × Expr)}
    (h : fields r n s = .ok ((fs, span), s')) :
    s.Passes (.next ⟨.punct .closeBrace, span⟩ s') := by
  induction n generalizing s fs span s' with
  | zero => exact absurd h reject_ne_ok
  | succ n ih =>
    unfold fields at h
    split at h
    · simp only [Except.ok.injEq, Prod.mk.injEq] at h
      obtain ⟨⟨-, rfl⟩, rfl⟩ := h
      exact .refl _
    · split at h
      · exact absurd h reject_ne_ok
      · rename_i name hname
        obtain ⟨⟨value, s₁⟩, hvalue, h⟩ := bind_eq_ok.1 h
        apply Stream.Passes.token (isBrace_of_fieldName hname)
        have hfirst := fieldValue_passes hr hvalue
        dsimp only at h
        split at h
        · obtain ⟨⟨⟨more, stop⟩, s₂⟩, hmore, h⟩ := bind_eq_ok.1 h
          simp only [Except.ok.injEq, Prod.mk.injEq] at h
          obtain ⟨⟨-, rfl⟩, rfl⟩ := h
          exact (hfirst.snoc rfl).trans (ih hmore)
        · simp only [Except.ok.injEq, Prod.mk.injEq] at h
          obtain ⟨⟨-, rfl⟩, rfl⟩ := h
          exact hfirst
        · exact absurd h reject_ne_ok
    · exact absurd h reject_ne_ok

theorem parameters_passes (hr : r.Pass) {n : Nat} {ps : List Pattern}
    (h : parameters r n s = .ok (ps, s')) : s.Passes s' := by
  induction n generalizing s ps with
  | zero => exact absurd h reject_ne_ok
  | succ n ih =>
    unfold parameters at h
    split at h
    · obtain ⟨-, rfl⟩ := Prod.mk.inj (Except.ok.inj h)
      exact .token rfl (.refl _)
    · obtain ⟨⟨p, s₁⟩, hp, h⟩ := bind_eq_ok.1 h
      dsimp only at h
      split at h
      · obtain ⟨⟨more, s₂⟩, hmore, h⟩ := bind_eq_ok.1 h
        obtain ⟨-, rfl⟩ := Prod.mk.inj (Except.ok.inj h)
        exact ((hr.pattern hp).snoc rfl).trans (ih hmore)
      · obtain ⟨-, rfl⟩ := Prod.mk.inj (Except.ok.inj h)
        exact (hr.pattern hp).snoc rfl
      · exact absurd h reject_ne_ok

theorem arrowTail_passes (hr : r.Pass) {start : Int} {params : List Pattern} {e : Expr}
    (h : arrowTail r start params s = .ok (e, s')) : s.Passes s' := by
  unfold arrowTail at h
  split at h
  · obtain ⟨⟨body, s₁⟩, hbody, h⟩ := bind_eq_ok.1 h
    obtain ⟨-, rfl⟩ := Prod.mk.inj (Except.ok.inj h)
    exact .token rfl (hr.expr hbody)
  · exact absurd h reject_ne_ok

theorem parenTail_passes (hr : r.Pass) {e : Expr} (h : parenTail r s = .ok (e, s')) :
    s.Passes s' := by
  obtain ⟨⟨e₁, s₁⟩, he, h⟩ := bind_eq_ok.1 h
  dsimp only at h
  split at h
  · obtain ⟨-, rfl⟩ := Prod.mk.inj (Except.ok.inj h)
    exact (hr.expr he).snoc rfl
  · exact absurd h reject_ne_ok

theorem primary_passes (hr : r.Pass) {e : Expr} (h : primary r s = .ok (e, s')) : s.Passes s' := by
  unfold primary at h
  split at h
  · rename_i lexeme start rest
    split at h
    · obtain ⟨follows, -, h⟩ := bind_eq_ok.1 h
      split_ifs at h
      · exact .token rfl (arrowTail_passes hr h)
      · obtain ⟨-, rfl⟩ := Prod.mk.inj (Except.ok.inj h)
        exact .token rfl (.refl _)
    case h_8 =>
      obtain ⟨parts, -, h⟩ := bind_eq_ok.1 h
      obtain ⟨-, rfl⟩ := Prod.mk.inj (Except.ok.inj h)
      exact .token rfl (.refl _)
    case h_9 =>
      obtain ⟨⟨⟨es, stop⟩, s₁⟩, hes, h⟩ := bind_eq_ok.1 h
      obtain ⟨-, rfl⟩ := Prod.mk.inj (Except.ok.inj h)
      exact .token rfl (elements_passes hr hes)
    case h_10 =>
      obtain ⟨⟨⟨fs, stop⟩, s₁⟩, hfs, h⟩ := bind_eq_ok.1 h
      obtain ⟨-, rfl⟩ := Prod.mk.inj (Except.ok.inj h)
      exact .braces (fields_passes hr hfs) (.refl _)
    case h_11 =>
      split_ifs at h
      · obtain ⟨⟨ps, s₁⟩, hps, h⟩ := bind_eq_ok.1 h
        exact .token rfl ((parameters_passes hr hps).trans (arrowTail_passes hr h))
      · exact .token rfl (parenTail_passes hr h)
    case h_12 => exact absurd h reject_ne_ok
    all_goals
      obtain ⟨-, rfl⟩ := Prod.mk.inj (Except.ok.inj h)
      exact .token rfl (.refl _)
  · exact absurd h reject_ne_ok

theorem postfixed_passes (hr : r.Pass) {e : Expr} (h : postfixed r s = .ok (e, s')) :
    s.Passes s' := by
  obtain ⟨⟨e₁, s₁⟩, he, h⟩ := bind_eq_ok.1 h
  exact (primary_passes hr he).trans (suffixes_passes hr h)

theorem isBrace_of_unaryOp {lexeme : Lexeme} {op : UnaryOp} (h : unaryOp? lexeme = some op) :
    lexeme.isBrace = false := by
  cases lexeme with
  | punct p => cases p <;> first | rfl | simp [unaryOp?] at h
  | ident | keyword | text | number | template => rfl

theorem unary_passes (hr : r.Pass) {e : Expr} (h : unary r s = .ok (e, s')) : s.Passes s' := by
  induction s generalizing e with
  | next t rest ih =>
    simp only [unary] at h
    split at h
    · rename_i op hop
      obtain ⟨⟨e₁, s₁⟩, he, h⟩ := bind_eq_ok.1 h
      obtain ⟨-, rfl⟩ := Prod.mk.inj (Except.ok.inj h)
      exact .token (isBrace_of_unaryOp hop) (ih he)
    · exact postfixed_passes hr h
  | done | bad => exact postfixed_passes hr h

theorem operatorAt_passes {level : Nat} {op : BinaryOp} (h : operatorAt level s = some (op, s')) :
    s.Passes s' := by
  unfold operatorAt at h
  split at h
  · rename_i p span rest
    split at h
    · rename_i hop
      split_ifs at h
      obtain ⟨-, rfl⟩ := Prod.mk.inj (Option.some.inj h)
      refine .token ?_ (.refl _)
      cases p <;> first | rfl | simp [binaryOp?] at hop
    · simp at h
  · simp at h

theorem chain_passes {operand : Stream → Except ExprError (WithRest Expr)} {level n : Nat}
    (hoperand : ∀ {s s' : Stream} {e : Expr}, operand s = .ok (e, s') → s.Passes s')
    {left e : Expr} (h : chain operand level n left s = .ok (e, s')) : s.Passes s' := by
  induction n generalizing s left with
  | zero =>
    obtain rfl := settle_eq_ok h
    exact .refl _
  | succ n ih =>
    unfold chain at h
    split at h
    · rename_i hop
      obtain ⟨⟨right, s₁⟩, hright, h⟩ := bind_eq_ok.1 h
      exact (operatorAt_passes hop).trans ((hoperand hright).trans (ih h))
    · obtain rfl := settle_eq_ok h
      exact .refl _

theorem binary_passes (hr : r.Pass) {k : Nat} {e : Expr} (h : binary r k s = .ok (e, s')) :
    s.Passes s' := by
  induction k generalizing s s' e with
  | zero => exact unary_passes hr h
  | succ k ih =>
    obtain ⟨⟨left, s₁⟩, hleft, h⟩ := bind_eq_ok.1 h
    exact (ih hleft).trans (chain_passes ih h)

theorem conditional_passes (hr : r.Pass) {e : Expr} (h : conditional r s = .ok (e, s')) :
    s.Passes s' := by
  obtain ⟨⟨condition, s₁⟩, hcondition, h⟩ := bind_eq_ok.1 h
  have hfirst := binary_passes hr hcondition
  dsimp only at h
  split at h
  · obtain ⟨⟨yes, s₂⟩, hyes, h⟩ := bind_eq_ok.1 h
    dsimp only at h
    split at h
    · obtain ⟨⟨no, s₃⟩, hno, h⟩ := bind_eq_ok.1 h
      obtain ⟨-, rfl⟩ := Prod.mk.inj (Except.ok.inj h)
      exact ((hfirst.snoc rfl).trans (hr.expr hyes)).snoc rfl |>.trans (hr.expr hno)
    · exact absurd h reject_ne_ok
  · obtain ⟨-, rfl⟩ := Prod.mk.inj (Except.ok.inj h)
    exact hfirst

/-! ### Patterns -/

theorem patternElements_passes (hr : r.Pass) {n : Nat} {ps : List (Option Pattern)}
    (h : patternElements r n s = .ok ((ps, span), s')) : s.Passes s' := by
  induction n generalizing s ps span s' with
  | zero => exact absurd h reject_ne_ok
  | succ n ih =>
    unfold patternElements at h
    split at h
    · obtain ⟨-, rfl⟩ := Prod.mk.inj (Except.ok.inj h)
      exact .token rfl (.refl _)
    · obtain ⟨⟨⟨more, stop⟩, s₂⟩, hmore, h⟩ := bind_eq_ok.1 h
      obtain ⟨-, rfl⟩ := Prod.mk.inj (Except.ok.inj h)
      exact .token rfl (ih hmore)
    · obtain ⟨⟨p, s₁⟩, hp, h⟩ := bind_eq_ok.1 h
      dsimp only at h
      split at h
      · obtain ⟨⟨⟨more, stop⟩, s₂⟩, hmore, h⟩ := bind_eq_ok.1 h
        obtain ⟨-, rfl⟩ := Prod.mk.inj (Except.ok.inj h)
        exact ((hr.pattern hp).snoc rfl).trans (ih hmore)
      · obtain ⟨-, rfl⟩ := Prod.mk.inj (Except.ok.inj h)
        exact (hr.pattern hp).snoc rfl
      · exact absurd h reject_ne_ok

theorem propertyValue_passes (hr : r.Pass) {key : ExprToken} {name : String} {p : Pattern}
    (hkey : fieldName? key.lexeme = some name)
    (h : propertyValue r key s = .ok (p, s')) : (Stream.next key s).Passes s' := by
  have hbrace := isBrace_of_fieldName hkey
  unfold propertyValue at h
  split at h
  · simp at h
  · exact .token hbrace (.token rfl (hr.pattern h))
  · split at h
    · exact hr.pattern h
    · simp at h

/-- Properties pass over everything up to the closing brace. -/
theorem properties_passes (hr : r.Pass) {n : Nat} {ps : List (String × Pattern)}
    (h : properties r n s = .ok ((ps, span), s')) :
    s.Passes (.next ⟨.punct .closeBrace, span⟩ s') := by
  induction n generalizing s ps span s' with
  | zero => exact absurd h reject_ne_ok
  | succ n ih =>
    unfold properties at h
    split at h
    · simp only [Except.ok.injEq, Prod.mk.injEq] at h
      obtain ⟨⟨-, rfl⟩, rfl⟩ := h
      exact .refl _
    · split at h
      · exact absurd h reject_ne_ok
      · rename_i name hname
        obtain ⟨⟨p, s₁⟩, hp, h⟩ := bind_eq_ok.1 h
        have hfirst := propertyValue_passes hr hname hp
        dsimp only at h
        split at h
        · obtain ⟨⟨⟨more, stop⟩, s₂⟩, hmore, h⟩ := bind_eq_ok.1 h
          simp only [Except.ok.injEq, Prod.mk.injEq] at h
          obtain ⟨⟨-, rfl⟩, rfl⟩ := h
          exact (hfirst.snoc rfl).trans (ih hmore)
        · simp only [Except.ok.injEq, Prod.mk.injEq] at h
          obtain ⟨⟨-, rfl⟩, rfl⟩ := h
          exact hfirst
        · exact absurd h reject_ne_ok
    · exact absurd h reject_ne_ok

theorem plainPattern_passes (hr : r.Pass) {p : Pattern} (h : plainPattern r s = .ok (p, s')) :
    s.Passes s' := by
  unfold plainPattern at h
  split at h
  · obtain ⟨-, rfl⟩ := Prod.mk.inj (Except.ok.inj h)
    exact .token rfl (.refl _)
  · obtain ⟨⟨⟨ps, stop⟩, s₁⟩, hps, h⟩ := bind_eq_ok.1 h
    obtain ⟨-, rfl⟩ := Prod.mk.inj (Except.ok.inj h)
    exact .token rfl (patternElements_passes hr hps)
  · obtain ⟨⟨⟨ps, stop⟩, s₁⟩, hps, h⟩ := bind_eq_ok.1 h
    obtain ⟨-, rfl⟩ := Prod.mk.inj (Except.ok.inj h)
    exact .braces (properties_passes hr hps) (.refl _)
  · exact absurd h reject_ne_ok

theorem pattern_passes (hr : r.Pass) {p : Pattern} (h : pattern r s = .ok (p, s')) :
    s.Passes s' := by
  obtain ⟨⟨target, s₁⟩, htarget, h⟩ := bind_eq_ok.1 h
  have hfirst := plainPattern_passes hr htarget
  dsimp only at h
  split at h
  · obtain ⟨⟨value, s₂⟩, hvalue, h⟩ := bind_eq_ok.1 h
    obtain ⟨-, rfl⟩ := Prod.mk.inj (Except.ok.inj h)
    exact (hfirst.snoc rfl).trans (hr.expr hvalue)
  · obtain rfl := settle_eq_ok h
    exact hfirst

end Grammar

theorem Rules.upTo_pass (n : Nat) : (Rules.upTo n).Pass := by
  induction n with
  | zero => exact ⟨fun h => absurd h Grammar.reject_ne_ok, fun h => absurd h Grammar.reject_ne_ok⟩
  | succ n ih => exact ⟨Grammar.conditional_passes ih, Grammar.pattern_passes ih⟩

/-- The tokens of a text that is an expression end with the text, and their braces match. -/
theorem Expr.ofChars_passes {cs : List Char} {base : Int} {e : Expr}
    (h : Expr.ofChars cs base = .ok e) : ∃ stop, (Stream.ofText cs base).Passes (.done stop) := by
  unfold Expr.ofChars Grammar.wholeExpr at h
  split at h
  · obtain ⟨⟨e₁, s₁⟩, he, h⟩ := bind_eq_ok.1 h
    dsimp only at h
    split at h
    · exact ⟨_, (Rules.upTo_pass _).expr he⟩
    · exact absurd h Grammar.reject_ne_ok
  · exact absurd h Grammar.reject_ne_ok

end LiveTemplate
