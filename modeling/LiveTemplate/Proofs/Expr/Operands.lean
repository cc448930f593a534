import LiveTemplate.Proofs.Expr.Carrying

/-!
The operands of an expression, as a grammar of tokens: names, literals and parenthesised expressions,
with members, keys and calls after them and operators in front of them. An operand is read the same
at the end of a text and before an operator.
-/

namespace LiveTemplate

set_option autoImplicit false

namespace Grammar

/-- Tokens that a rule reads to their end. -/
def ReadToEnd (rule : Rules → Stream → Except ExprError (WithRest Expr)) (ts : List ExprToken) :
    Prop :=
  ∃ n stop e, rule (.upTo n) ((Stream.done stop).after ts) = .ok (e, .done stop)

/-- One expression or more, with commas between them. -/
inductive ArgumentList : List ExprToken → Prop where
  | one {ts : List ExprToken} (h : ReadToEnd Rules.expr ts) : ArgumentList ts
  | more {ts us : List ExprToken} (h : ReadToEnd Rules.expr ts) (comma : Span)
      (hmore : ArgumentList us) : ArgumentList (ts ++ ⟨.punct .comma, comma⟩ :: us)

/-- A key in its brackets, or the arguments of a call in their parentheses. -/
inductive Bracketed : List ExprToken → Prop where
  | key {ts : List ExprToken} (h : ReadToEnd Rules.expr ts) (start stop : Span) :
      Bracketed (⟨.punct .openBracket, start⟩ :: (ts ++ [⟨.punct .closeBracket, stop⟩]))
  | noArguments (start stop : Span) :
      Bracketed [⟨.punct .openParen, start⟩, ⟨.punct .closeParen, stop⟩]
  | arguments {ts : List ExprToken} (h : ArgumentList ts) (start stop : Span) :
      Bracketed (⟨.punct .openParen, start⟩ :: (ts ++ [⟨.punct .closeParen, stop⟩]))

/-- A member, a key or a call after an expression. -/
inductive Suffix : List ExprToken → Prop where
  | member {t : ExprToken} (ht : isWord t.lexeme = true) (dot : Span) :
      Suffix [⟨.punct .dot, dot⟩, t]
  | optionalMember {t : ExprToken} (ht : isWord t.lexeme = true) (dot : Span) :
      Suffix [⟨.punct .questionDot, dot⟩, t]
  | bracketed {ts : List ExprToken} (h : Bracketed ts) : Suffix ts
  | optional {ts : List ExprToken} (h : Bracketed ts) (dot : Span) :
      Suffix (⟨.punct .questionDot, dot⟩ :: ts)

/-- A name, a literal or an expression in parentheses. -/
inductive Primary : List ExprToken → Prop where
  | name (name : String) (span : Span) : Primary [⟨.ident name, span⟩]
  | literal {t : ExprToken} {ts : List ExprToken} (ht : beginsLiteral t.lexeme = true)
      (h : ReadToEnd primary (t :: ts)) : Primary (t :: ts)
  | paren {ts : List ExprToken} (h : ReadToEnd Rules.expr ts) (start stop : Span) :
      Primary (⟨.punct .openParen, start⟩ :: (ts ++ [⟨.punct .closeParen, stop⟩]))

/-- What may stand between two operators: a name, a literal or an expression in parentheses, with
suffixes after it and operators in front of it. -/
inductive Operand : List ExprToken → Prop where
  | plain {front : List ExprToken} {backs : List (List ExprToken)} (h : Primary front)
      (hs : ∀ back ∈ backs, Suffix back) : Operand (front ++ backs.flatten)
  | behind {t : ExprToken} {ts : List ExprToken} {op : UnaryOp} (ht : unaryOp? t.lexeme = some op)
      (h : Operand ts) : Operand (t :: ts)

/-! ### Reading to the end of tokens -/

/-- The weight of tokens. -/
def weight : List ExprToken → Nat
  | [] => 0
  | t :: ts => t.lexeme.weight + weight ts

@[simp] theorem weight_nil : weight [] = 0 := rfl

@[simp] theorem weight_cons (t : ExprToken) (ts : List ExprToken) :
    weight (t :: ts) = t.lexeme.weight + weight ts := rfl

@[simp] theorem weight_append (ts us : List ExprToken) :
    weight (ts ++ us) = weight ts + weight us := by
  induction ts with
  | nil => exact (Nat.zero_add _).symm
  | cons t ts ih => rw [List.cons_append, weight_cons, weight_cons, ih, Nat.add_assoc]

theorem weight_after (ts : List ExprToken) (s : Stream) :
    (s.after ts).weight = weight ts + s.weight := by
  induction ts with
  | nil => exact (Nat.zero_add _).symm
  | cons t ts ih => rw [Stream.after_cons, Stream.weight, ih, weight_cons, Nat.add_assoc]

theorem after_done_inj {ts us : List ExprToken} {stop : Int}
    (h : (Stream.done stop).after ts = (Stream.done stop).after us) : ts = us := by
  induction ts generalizing us with
  | nil => cases us <;> first | rfl | cases h
  | cons t ts ih =>
    cases us with
    | nil => cases h
    | cons t' us =>
      obtain ⟨rfl, hrest⟩ := Stream.next.inj h
      rw [ih hrest]

variable {ts : List ExprToken} {span : Span}

/-- An expression is read the same wherever no expression goes on behind it. -/
theorem ReadToEnd.expr (h : ReadToEnd Rules.expr ts) : ∃ e, ∀ m, weight ts < m →
    ParensMatch ts ∧ ∀ u, u.closes = true → (Rules.upTo m).expr (u.after ts) = .ok (e, u) := by
  obtain ⟨n, stop, e, he⟩ := h
  refine ⟨e, fun m hm => ?_⟩
  obtain ⟨us, hus, hparens, hread⟩ :=
    (Rules.upTo_carries n m).expr (by rwa [weight_after]) he
  obtain rfl := after_done_inj hus
  exact ⟨hparens, fun u hu => hread _ u (Nat.le_refl _) (.closed rfl hu)⟩

/-- A literal is read the same wherever it stands. -/
theorem ReadToEnd.literal {t : ExprToken} (ht : beginsLiteral t.lexeme = true)
    (h : ReadToEnd primary (t :: ts)) :
    ∃ e, ∀ m, weight (t :: ts) ≤ m → ∀ u, primary (.upTo m) (u.after (t :: ts)) = .ok (e, u) := by
  obtain ⟨n, stop, e, he⟩ := h
  refine ⟨e, fun m hm u => ?_⟩
  obtain ⟨us, hus, -, hread⟩ :=
    literal_carried (Rules.upTo_carries n m) ((weight_after (t :: ts) (.done stop)).trans_le hm) ht he
  obtain rfl : t :: ts = us := after_done_inj hus
  exact hread _ u (Nat.le_refl _) trivial

/-! ### Suffixes -/

theorem keyTail_read (h : ReadToEnd Rules.expr ts) (stop : Span) : ∃ e, ∀ m, weight ts < m →
    ParensMatch ts ∧ ∀ u,
      keyTail (.upTo m) (u.after (ts ++ [⟨.punct .closeBracket, stop⟩])) = .ok ((e, stop), u) := by
  obtain ⟨e, he⟩ := h.expr
  refine ⟨e, fun m hm => ⟨(he m hm).1, fun u => ?_⟩⟩
  rw [Stream.after_snoc]
  exact bind_eq_ok.2 ⟨_, (he m hm).2 _ rfl, rfl⟩

theorem moreArguments_read (h : ArgumentList ts) (stop : Span) : ∃ args, ∀ m, weight ts < m →
    ParensMatch ts ∧ ∀ n u, ts.length ≤ n →
      moreArguments (.upTo m) (n + 1) (u.after (ts ++ [⟨.punct .closeParen, stop⟩])) =
        .ok ((args, stop), u) := by
  induction h with
  | one h =>
    obtain ⟨e, he⟩ := h.expr
    refine ⟨[e], fun m hm => ⟨(he m hm).1, fun n u _ => ?_⟩⟩
    rw [Stream.after_snoc]
    exact bind_eq_ok.2 ⟨_, (he m hm).2 _ rfl, rfl⟩
  | more h comma hmore ih =>
    obtain ⟨e, he⟩ := h.expr
    obtain ⟨args, hargs⟩ := ih
    refine ⟨e :: args, fun m hm => ?_⟩
    simp only [weight_append, weight_cons] at hm
    obtain ⟨hparens, hread⟩ := he m (by omega)
    obtain ⟨hparens', hread'⟩ := hargs m (by omega)
    refine ⟨hparens.append (.cons rfl hparens'), fun n u hn => ?_⟩
    obtain ⟨n, rfl, hle⟩ := exists_steps _ hn
    rw [List.append_assoc, List.cons_append, Stream.after_append_cons]
    refine bind_eq_ok.2 ⟨_, hread _ rfl, ?_⟩
    exact bind_eq_ok.2 ⟨_, hread' n u hle, rfl⟩

/-- An expression begins, and with something else than a closing parenthesis. -/
theorem ReadToEnd.head (h : ReadToEnd Rules.expr ts) :
    ∃ t us, ts = t :: us ∧ t.lexeme ≠ .punct .closeParen := by
  obtain ⟨n, stop, e, he⟩ := h
  cases ts with
  | nil => cases n <;> cases he
  | cons t us =>
    refine ⟨t, us, rfl, ?_⟩
    obtain ⟨lexeme, span⟩ := t
    rintro rfl
    cases n <;> cases he

theorem ArgumentList.head (h : ArgumentList ts) :
    ∃ t us, ts = t :: us ∧ t.lexeme ≠ .punct .closeParen := by
  cases h with
  | one h => exact h.head
  | more h =>
    obtain ⟨t, us, rfl, ht⟩ := h.head
    exact ⟨t, _, rfl, ht⟩

theorem arguments_read (h : ArgumentList ts) (stop : Span) : ∃ args, ∀ m, weight ts < m →
    ParensMatch ts ∧ ∀ u,
      arguments (.upTo m) (u.after (ts ++ [⟨.punct .closeParen, stop⟩])) = .ok ((args, stop), u) := by
  obtain ⟨args, hargs⟩ := moreArguments_read h stop
  refine ⟨args, fun m hm => ?_⟩
  obtain ⟨hparens, hread⟩ := hargs m hm
  obtain ⟨t, us, rfl, ht⟩ := h.head
  refine ⟨hparens, fun u => ?_⟩
  have hsize := Stream.size_after (t :: us ++ [⟨.punct .closeParen, stop⟩]) u
  rw [List.length_append] at hsize
  rw [arguments]
  · exact hread _ u (by omega)
  · intro span rest heq
    obtain ⟨rfl, -⟩ := Stream.next.inj heq
    exact ht rfl

/-- A key or a call goes on from any expression, also as an optional one. -/
theorem Bracketed.continues (h : Bracketed ts) : ∃ make : Bool → Expr → Expr, ∀ m, weight ts ≤ m →
    ∀ e, Continues (.upTo m) ts e (make false e) ∧
      ∀ dot, Continues (.upTo m) (⟨.punct .questionDot, dot⟩ :: ts) e (make true e) := by
  cases h with
  | key h start stop =>
    obtain ⟨key, hkey⟩ := keyTail_read h stop
    refine ⟨fun optional e => .keyed e key optional (e.span.join stop), fun m hm e => ?_⟩
    simp only [weight_cons, weight_append, Lexeme.weight] at hm
    obtain ⟨hparens, hread⟩ := hkey m (by omega)
    exact ⟨.keyed (hparens.snoc rfl) hread start,
      fun dot => .optionalKeyed (hparens.snoc rfl) hread dot start⟩
  | noArguments start stop =>
    refine ⟨fun optional e => .call e [] optional (e.span.join stop), fun m _ e => ?_⟩
    exact ⟨.call (.single stop) (fun _ => rfl) start,
      fun dot => .optionalCall (.single stop) (fun _ => rfl) dot start⟩
  | arguments h start stop =>
    obtain ⟨args, hargs⟩ := arguments_read h stop
    refine ⟨fun optional e => .call e args optional (e.span.join stop), fun m hm e => ?_⟩
    simp only [weight_cons, weight_append, Lexeme.weight] at hm
    obtain ⟨hparens, hread⟩ := hargs m (by omega)
    exact ⟨.call (.intro hparens stop) hread start,
      fun dot => .optionalCall (.intro hparens stop) hread dot start⟩

theorem Suffix.continues (h : Suffix ts) :
    ∃ make : Expr → Expr, ∀ m, weight ts ≤ m → ∀ e, Continues (.upTo m) ts e (make e) := by
  cases h with
  | member ht dot =>
    obtain ⟨name, hname⟩ := propertyName_word ht "."
    exact ⟨fun e => .member e name false _, fun m _ e => .member ht hname dot⟩
  | optionalMember ht dot =>
    obtain ⟨name, hname⟩ := propertyName_word ht "?."
    exact ⟨fun e => .member e name true _, fun m _ e => .optionalMember ht hname dot⟩
  | bracketed h =>
    obtain ⟨make, hmake⟩ := h.continues
    exact ⟨make false, fun m hm e => (hmake m hm e).1⟩
  | optional h dot =>
    obtain ⟨make, hmake⟩ := h.continues
    refine ⟨make true, fun m hm e => (hmake m ?_ e).2 dot⟩
    rw [weight_cons] at hm
    omega

theorem Suffix.ne_nil (h : Suffix ts) : ts ≠ [] := by
  cases h with
  | member | optionalMember | optional => exact List.cons_ne_nil _ _
  | bracketed h => cases h <;> exact List.cons_ne_nil _ _

/-- No arrow begins a suffix. -/
theorem Suffix.arrowFollows (h : Suffix ts) (u : Stream) : arrowFollows (u.after ts) = .ok false := by
  cases h with
  | member | optionalMember | optional => rfl
  | bracketed h => cases h <;> rfl

theorem suffixes_read {backs : List (List ExprToken)} (hs : ∀ back ∈ backs, Suffix back) (e : Expr) :
    ∃ e', ∀ m, weight backs.flatten ≤ m → ∀ n u,
      suffixes (.upTo m) (n + backs.length) e (u.after backs.flatten) = suffixes (.upTo m) n e' u := by
  induction backs generalizing e with
  | nil => exact ⟨e, fun _ _ _ _ => rfl⟩
  | cons back backs ih =>
    obtain ⟨hback, hbacks⟩ := List.forall_mem_cons.mp hs
    obtain ⟨make, hmake⟩ := hback.continues
    obtain ⟨e', he'⟩ := ih hbacks (make e)
    refine ⟨e', fun m hm n u => ?_⟩
    rw [List.flatten_cons, weight_append] at hm
    rw [List.flatten_cons, Stream.after_append, List.length_cons, ← Nat.add_assoc,
      (hmake m (by omega) e).step, he' m (by omega)]

theorem length_le_flatten {backs : List (List ExprToken)} (hs : ∀ back ∈ backs, Suffix back) :
    backs.length ≤ backs.flatten.length := by
  induction backs with
  | nil => exact Nat.le_refl 0
  | cons back backs ih =>
    obtain ⟨hback, hbacks⟩ := List.forall_mem_cons.mp hs
    have hpos := List.length_pos_iff.mpr hback.ne_nil
    have := ih hbacks
    rw [List.flatten_cons, List.length_append, List.length_cons]
    omega

theorem arrowFollows_flatten {backs : List (List ExprToken)} (hs : ∀ back ∈ backs, Suffix back)
    {u : Stream} (hu : arrowFollows u = .ok false) :
    arrowFollows (u.after backs.flatten) = .ok false := by
  cases backs with
  | nil => exact hu
  | cons back backs =>
    rw [List.flatten_cons, Stream.after_append]
    exact (hs back List.mem_cons_self).arrowFollows _

/-! ### Operands -/

/-- A primary expression is read the same wherever no arrow follows. -/
theorem Primary.read (h : Primary ts) : ∃ e, ∀ m, weight ts ≤ m → ∀ u,
    arrowFollows u = .ok false → primary (.upTo m) (u.after ts) = .ok (e, u) := by
  cases h with
  | name name span =>
    refine ⟨.name name span, fun m _ u hu => ?_⟩
    exact bind_eq_ok.2 ⟨false, hu, rfl⟩
  | literal ht h =>
    obtain ⟨e, he⟩ := h.literal ht
    exact ⟨e, fun m hm u _ => he m hm u⟩
  | @paren ts h start stop =>
    obtain ⟨e, he⟩ := h.expr
    refine ⟨e, fun m hm u hu => ?_⟩
    simp only [weight_cons, weight_append, Lexeme.weight] at hm
    obtain ⟨hparens, hread⟩ := he m (by omega)
    have harrow : ¬ arrowAfterParen 0 (u.after (ts ++ [⟨.punct .closeParen, stop⟩])) = true := by
      rw [(ClosesParen.intro hparens stop).arrowAfterParen_eq, ← arrowFollows_eq_ok hu]
      exact Bool.false_ne_true
    rw [Stream.after_cons, primary]
    dsimp only
    rw [if_neg harrow, Stream.after_snoc]
    exact bind_eq_ok.2 ⟨_, hread _ rfl, rfl⟩

/-- No operator begins a primary expression. -/
theorem Primary.head (h : Primary ts) : ∃ t us, ts = t :: us ∧ unaryOp? t.lexeme = none := by
  cases h with
  | name | paren => exact ⟨_, _, rfl, rfl⟩
  | @literal t us ht =>
    refine ⟨t, us, rfl, ?_⟩
    obtain ⟨lexeme, span⟩ := t
    cases lexeme with
    | keyword k => cases k <;> first | rfl | cases ht
    | punct p => cases p <;> first | rfl | cases ht
    | ident | text | number | template => rfl

/-- Whether an operand ends at the head of a stream: at its end, or before an operator. -/
def endsOperand : Stream → Bool
  | .done _ => true
  | .next ⟨.punct p, _⟩ _ => (binaryOp? p).isSome
  | _ => false

theorem arrowFollows_of_endsOperand {u : Stream} (hu : endsOperand u = true) :
    arrowFollows u = .ok false := by
  unfold endsOperand at hu
  split at hu
  · rfl
  · rename_i p span rest
    cases p <;> first | rfl | cases hu
  · cases hu

theorem suffixes_of_endsOperand {u : Stream} (hu : endsOperand u = true) (r : Rules) (n : Nat)
    (e : Expr) : suffixes r n e u = .ok (e, u) := by
  unfold endsOperand at hu
  split at hu
  · exact suffixes_settle rfl r n e
  · rename_i p span rest
    have hsuffix : beginsSuffix (.next ⟨.punct p, span⟩ rest) = false := by
      cases p <;> first | rfl | cases hu
    exact suffixes_settle hsuffix r n e
  · cases hu

/-- An operand is read the same at the end of a text and before an operator. -/
theorem Operand.read (h : Operand ts) : ∃ e, ∀ m, weight ts ≤ m → ∀ u, endsOperand u = true →
    unary (.upTo m) (u.after ts) = .ok (e, u) := by
  induction h with
  | @plain front backs h hs =>
    obtain ⟨first, hfirst⟩ := h.read
    obtain ⟨e, he⟩ := suffixes_read hs first
    obtain ⟨t, us, rfl, ht⟩ := h.head
    refine ⟨e, fun m hm u hu => ?_⟩
    rw [weight_append] at hm
    have hprimary := hfirst m (by omega) (u.after backs.flatten)
      (arrowFollows_flatten hs (arrowFollows_of_endsOperand hu))
    -- a suffix takes a token at least, so that there are steps enough for all of them
    have hsize := Stream.size_after backs.flatten u
    have hlength := length_le_flatten hs
    obtain ⟨n, hn⟩ : ∃ n, (u.after backs.flatten).size + 1 = n + backs.length :=
      ⟨_, (Nat.sub_add_cancel (by omega)).symm⟩
    rw [Stream.after_append, unary_eq_postfixed]
    · refine bind_eq_ok.2 ⟨_, hprimary, ?_⟩
      dsimp only
      rw [hn, he m (by omega), suffixes_of_endsOperand hu]
    · intro t' rest heq
      obtain ⟨rfl, -⟩ := Stream.next.inj heq
      exact ht
  | @behind t ts op ht h ih =>
    obtain ⟨e, he⟩ := ih
    refine ⟨.unary op e (t.span.join e.span), fun m hm u hu => ?_⟩
    rw [weight_cons] at hm
    simp only [Stream.after_cons, unary, ht]
    exact bind_eq_ok.2 ⟨_, he m (by omega) u hu, rfl⟩

/-- An operand has a token at its head. -/
theorem Operand.ne_nil (h : Operand ts) : ts ≠ [] := by
  cases h with
  | plain h =>
    obtain ⟨t, us, rfl, -⟩ := h.head
    exact List.cons_ne_nil _ _
  | behind => exact List.cons_ne_nil _ _

end Grammar

end LiveTemplate
