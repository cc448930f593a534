import LiveTemplate.Expr.Reading

/-!
Reading goes by what a text says and not by where it stands. Further on in a template, a text is
read as the same expression, pattern or loop header with every span moved, or is refused with the
same fault at a moved place. Tokens move with their text, every rule of the grammar commutes with
moving its tokens, and a substitution is read at an offset that moves with the template text around
it.
-/

namespace LiveTemplate

set_option autoImplicit false

mutual

/-- Moves every span of an expression. -/
def Expr.shift (d : Int) : Expr → Expr
  | .literal value span => .literal value (span.shift d)
  | .template head parts span => .template head (Expr.shiftParts d parts) (span.shift d)
  | .name name span => .name name (span.shift d)
  | .member object name optional span => .member (object.shift d) name optional (span.shift d)
  | .keyed object key optional span =>
    .keyed (object.shift d) (key.shift d) optional (span.shift d)
  | .call callee args optional span =>
    .call (callee.shift d) (Expr.shiftAll d args) optional (span.shift d)
  | .unary op operand span => .unary op (operand.shift d) (span.shift d)
  | .binary op left right span => .binary op (left.shift d) (right.shift d) (span.shift d)
  | .conditional condition yes no span =>
    .conditional (condition.shift d) (yes.shift d) (no.shift d) (span.shift d)
  | .array elements span => .array (Expr.shiftAll d elements) (span.shift d)
  | .object fields span => .object (Expr.shiftFields d fields) (span.shift d)
  | .arrow params body span => .arrow (Pattern.shiftAll d params) (body.shift d) (span.shift d)

def Expr.shiftAll (d : Int) : List Expr → List Expr
  | [] => []
  | e :: rest => e.shift d :: Expr.shiftAll d rest

def Expr.shiftParts (d : Int) : List (Expr × String) → List (Expr × String)
  | [] => []
  | (e, piece) :: rest => (e.shift d, piece) :: Expr.shiftParts d rest

def Expr.shiftFields (d : Int) : List (String × Expr) → List (String × Expr)
  | [] => []
  | (name, e) :: rest => (name, e.shift d) :: Expr.shiftFields d rest

/-- Moves every span of a pattern. -/
def Pattern.shift (d : Int) : Pattern → Pattern
  | .name name span => .name name (span.shift d)
  | .array elements span => .array (Pattern.shiftElements d elements) (span.shift d)
  | .object properties span => .object (Pattern.shiftProperties d properties) (span.shift d)
  | .fallback target value span => .fallback (target.shift d) (value.shift d) (span.shift d)

def Pattern.shiftAll (d : Int) : List Pattern → List Pattern
  | [] => []
  | p :: rest => p.shift d :: Pattern.shiftAll d rest

def Pattern.shiftElements (d : Int) : List (Option Pattern) → List (Option Pattern)
  | [] => []
  | none :: rest => none :: Pattern.shiftElements d rest
  | some p :: rest => some (p.shift d) :: Pattern.shiftElements d rest

def Pattern.shiftProperties (d : Int) : List (String × Pattern) → List (String × Pattern)
  | [] => []
  | (name, p) :: rest => (name, p.shift d) :: Pattern.shiftProperties d rest

end

def ForHeader.shift (d : Int) (h : ForHeader) : ForHeader :=
  ⟨h.pattern.shift d, h.items.shift d, h.span.shift d⟩

def ExprToken.shift (d : Int) (t : ExprToken) : ExprToken := ⟨t.lexeme, t.span.shift d⟩

def Stream.shift (d : Int) : Stream → Stream
  | .done p => .done (p + d)
  | .bad e => .bad (e.shift d)
  | .next t rest => .next (t.shift d) (rest.shift d)

variable {d : Int}

@[simp] theorem Expr.span_shift (e : Expr) : (e.shift d).span = e.span.shift d := by
  cases e <;> simp only [Expr.shift, Expr.span]

theorem Expr.join_shift (e : Expr) (span : Span) :
    (e.span.join span).shift d = (e.shift d).span.join (span.shift d) := by
  rw [Expr.span_shift]
  rfl

@[simp] theorem Pattern.span_shift (p : Pattern) : (p.shift d).span = p.span.shift d := by
  cases p <;> simp only [Pattern.shift, Pattern.span]

namespace Stream

@[simp] theorem size_shift (s : Stream) : (s.shift d).size = s.size := by
  induction s with
  | done | bad => rfl
  | next t rest ih => simp only [shift, size, ih]

theorem headSpan_shift (s : Stream) : (s.shift d).headSpan = s.headSpan.shift d := by
  cases s <;> rfl

theorem lastStop_shift (s : Stream) (p : Int) :
    (s.shift d).lastStop (p + d) = s.lastStop p + d := by
  induction s generalizing p with
  | done | bad => rfl
  | next t rest ih => exact ih t.span.stop

/-- The tokens of a text that stands further on are the same ones, moved. -/
theorem ofText_shift (cs : List Char) (base : Int) :
    ofText cs (base + d) = (ofText cs base).shift d := by
  induction cs, base using ofText.induct with
  | case1 base => simp only [ofText, shift]
  | case2 base c rest hblank ih =>
    rw [ofText, if_pos hblank, ofText, if_pos hblank, ← ih, Int.add_right_comm]
  | case3 base c rest hblank f hread =>
    rw [ofText, if_neg hblank, hread, ofText, if_neg hblank, hread]
    simp only [shift, ExprError.shift, Span.shift, Int.add_right_comm]
  | case4 base c rest hblank lexeme n hread stop ih =>
    rw [ofText, if_neg hblank, hread, ofText, if_neg hblank, hread]
    have hstop : base + d + Text.width (c :: rest.take n) = stop + d := Int.add_right_comm ..
    simp only [hstop, ih]
    rfl

/-- A mark does not stand at the head of a stream. -/
def NotAt (s : Stream) (p : Punct) : Prop := ∀ span rest, s = .next ⟨.punct p, span⟩ rest → False

theorem NotAt.shift {s : Stream} {p : Punct} (h : s.NotAt p) : (s.shift d).NotAt p := by
  intro span rest he
  cases s with
  | next t more =>
    obtain ⟨lexeme, place⟩ := t
    cases he
    exact h _ _ rfl
  | done | bad => cases he

end Stream

namespace Grammar

/-- What a reader gives, with all places moved: what it read by `f`, and otherwise the fault. -/
def moved {α : Type} (d : Int) (f : α → α) (x : Except ExprError α) : Except ExprError α :=
  (x.map f).mapError (ExprError.shift · d)

theorem moved_bind {α β : Type} {f : α → α} {g : β → β} {x x' : Except ExprError α}
    {k k' : α → Except ExprError β} (hx : x' = moved d f x)
    (hk : ∀ a, k' (f a) = moved d g (k a)) : (x' >>= k') = moved d g (x >>= k) := by
  subst hx
  cases x with
  | error e => rfl
  | ok a => exact hk a

/-- What a rule reads and the tokens it leaves, moved. -/
abbrev movedRest {α : Type} (d : Int) (f : α → α) :
    Except ExprError (WithRest α) → Except ExprError (WithRest α) :=
  moved d (Prod.map f (Stream.shift d))

end Grammar

/-- The rules that nested brackets lead back to read the same of moved tokens, moved. -/
structure Rules.Shifts (d : Int) (r : Rules) : Prop where
  expr : ∀ s, r.expr (s.shift d) = Grammar.movedRest d (Expr.shift d) (r.expr s)
  pattern : ∀ s, r.pattern (s.shift d) = Grammar.movedRest d (Pattern.shift d) (r.pattern s)

namespace Grammar

variable {r : Rules}

theorem reject_shift {α : Type} (f : α → α) (fault : ExprFault) (s : Stream) :
    reject fault (s.shift d) = moved d f (reject fault s) := by
  cases s <;> rfl

theorem settle_shift {α : Type} (f : α → α) (x : α) (s : Stream) :
    settle (f x) (s.shift d) = movedRest d f (settle x s) := by
  cases s <;> rfl

theorem propertyName_shift (operator : String) (s : Stream) :
    propertyName operator (s.shift d) =
      movedRest d (Prod.map id (Span.shift · d)) (propertyName operator s) := by
  rcases s with p | e | ⟨⟨lexeme, span⟩, rest⟩
  · rfl
  · rfl
  · cases lexeme <;> rfl

theorem keyTail_shift (hr : r.Shifts d) (s : Stream) :
    keyTail r (s.shift d) =
      movedRest d (Prod.map (Expr.shift d) (Span.shift · d)) (keyTail r s) := by
  refine moved_bind (hr.expr s) fun ⟨key, s⟩ => ?_
  rcases s with p | e | ⟨⟨lexeme, span⟩, rest⟩
  · rfl
  · rfl
  · cases lexeme with
    | punct p => cases p <;> rfl
    | _ => rfl

theorem moreArguments_shift (hr : r.Shifts d) (n : Nat) (s : Stream) :
    moreArguments r n (s.shift d) =
      movedRest d (Prod.map (Expr.shiftAll d) (Span.shift · d)) (moreArguments r n s) := by
  induction n generalizing s with
  | zero => exact reject_shift _ _ s
  | succ n ih =>
    refine moved_bind (hr.expr s) fun ⟨arg, s⟩ => ?_
    rcases s with p | e | ⟨⟨lexeme, span⟩, rest⟩
    · rfl
    · rfl
    · cases lexeme with
      | punct p =>
        cases p with
        | comma => exact moved_bind (ih rest) fun ⟨⟨args, span⟩, s⟩ => rfl
        | _ => rfl
      | _ => rfl

theorem arguments_shift (hr : r.Shifts d) (s : Stream) :
    arguments r (s.shift d) =
      movedRest d (Prod.map (Expr.shiftAll d) (Span.shift · d)) (arguments r s) := by
  by_cases h : ∃ span rest, s = .next ⟨.punct .closeParen, span⟩ rest
  · obtain ⟨span, rest, rfl⟩ := h
    rfl
  · have hs : s.NotAt .closeParen := fun span rest he => h ⟨span, rest, he⟩
    rw [arguments, arguments, Stream.size_shift]
    · exact moreArguments_shift hr _ s
    · exact hs
    · exact hs.shift

/-- The next access, key or call makes the expression longer. -/
theorem grown_shift {α : Type} {f : α → α} {n : Nat}
    {part part' : Except ExprError (WithRest (α × Span))}
    (ih : ∀ e s, suffixes r n (e.shift d) (s.shift d) =
      movedRest d (Expr.shift d) (suffixes r n e s))
    (grow : Expr → α → Span → Expr)
    (hgrow : ∀ e a span, (grow e a span).shift d = grow (e.shift d) (f a) (span.shift d))
    (hpart : part' = movedRest d (Prod.map f (Span.shift · d)) part) (e : Expr) :
    (part' >>= fun ((a, span), s) =>
        suffixes r n (grow (e.shift d) a ((e.shift d).span.join span)) s) =
      movedRest d (Expr.shift d) (part >>= fun ((a, span), s) =>
        suffixes r n (grow e a (e.span.join span)) s) := by
  refine moved_bind hpart fun ⟨⟨a, span⟩, s⟩ => ?_
  have h := ih (grow e a (e.span.join span)) s
  rwa [hgrow, Expr.join_shift] at h

theorem suffixes_shift (hr : r.Shifts d) (n : Nat) (e : Expr) (s : Stream) :
    suffixes r n (e.shift d) (s.shift d) = movedRest d (Expr.shift d) (suffixes r n e s) := by
  induction n generalizing e s with
  | zero => exact settle_shift _ e s
  | succ n ih =>
    have hmember := fun operator optional rest =>
      grown_shift ih (fun e name => .member e name optional) (fun _ _ _ => rfl)
        (propertyName_shift operator rest) e
    have hkey := fun optional rest =>
      grown_shift ih (fun e key => .keyed e key optional) (fun _ _ _ => rfl)
        (keyTail_shift hr rest) e
    have hcall := fun optional rest =>
      grown_shift ih (fun e args => .call e args optional) (fun _ _ _ => rfl)
        (arguments_shift hr rest) e
    rcases s with p | e | ⟨⟨lexeme, span⟩, rest⟩
    · rfl
    · rfl
    · cases lexeme with
      | punct p =>
        cases p with
        | dot => exact hmember "." false rest
        | openBracket => exact hkey false rest
        | openParen => exact hcall false rest
        | questionDot =>
          rcases rest with p | e | ⟨⟨lexeme, span⟩, rest⟩
          · rfl
          · rfl
          · cases lexeme with
            | punct p =>
              cases p with
              | openParen => exact hcall true rest
              | openBracket => exact hkey true rest
              | _ => rfl
            | ident name => exact hmember "?." true (.next ⟨.ident name, span⟩ rest)
            | keyword k => exact hmember "?." true (.next ⟨.keyword k, span⟩ rest)
            | _ => rfl
        | _ => rfl
      | _ => rfl

theorem elements_shift (hr : r.Shifts d) (n : Nat) (s : Stream) :
    elements r n (s.shift d) =
      movedRest d (Prod.map (Expr.shiftAll d) (Span.shift · d)) (elements r n s) := by
  induction n generalizing s with
  | zero => exact reject_shift _ _ s
  | succ n ih =>
    by_cases h : ∃ span rest, s = .next ⟨.punct .closeBracket, span⟩ rest
    · obtain ⟨span, rest, rfl⟩ := h
      rfl
    · have hs : s.NotAt .closeBracket := fun span rest he => h ⟨span, rest, he⟩
      rw [elements, elements]
      · refine moved_bind (hr.expr s) fun ⟨e, s⟩ => ?_
        rcases s with p | e | ⟨⟨lexeme, span⟩, rest⟩
        · rfl
        · rfl
        · cases lexeme with
          | punct p =>
            cases p with
            | comma => exact moved_bind (ih rest) fun ⟨⟨es, span⟩, s⟩ => rfl
            | _ => rfl
          | _ => rfl
      · exact hs
      · exact hs.shift

theorem fieldValue_shift (hr : r.Shifts d) (key : ExprToken) (name : String) (s : Stream) :
    fieldValue r (key.shift d) name (s.shift d) =
      movedRest d (Expr.shift d) (fieldValue r key name s) := by
  obtain ⟨word, place⟩ := key
  rcases s with p | e | ⟨⟨lexeme, span⟩, rest⟩
  · cases word <;> rfl
  · cases word <;> rfl
  · cases lexeme with
    | punct p =>
      cases p with
      | colon => exact hr.expr rest
      | _ => cases word <;> rfl
    | _ => cases word <;> rfl

theorem fields_shift (hr : r.Shifts d) (n : Nat) (s : Stream) :
    fields r n (s.shift d) =
      movedRest d (Prod.map (Expr.shiftFields d) (Span.shift · d)) (fields r n s) := by
  induction n generalizing s with
  | zero => exact reject_shift _ _ s
  | succ n ih =>
    rcases s with p | e | ⟨key, rest⟩
    · rfl
    · rfl
    · by_cases h : key.lexeme = .punct .closeBrace
      · obtain ⟨lexeme, span⟩ := key
        cases h
        rfl
      · rw [Stream.shift, fields, fields]
        · have hname : fieldName? (key.shift d).lexeme = fieldName? key.lexeme := rfl
          rw [hname]
          cases fieldName? key.lexeme with
          | none => rfl
          | some name =>
            refine moved_bind (fieldValue_shift hr key name rest) fun ⟨value, s⟩ => ?_
            rcases s with p | e | ⟨⟨lexeme, span⟩, rest⟩
            · rfl
            · rfl
            · cases lexeme with
              | punct p =>
                cases p with
                | comma => exact moved_bind (ih rest) fun ⟨⟨more, span⟩, s⟩ => rfl
                | _ => rfl
              | _ => rfl
        · rintro span rfl
          exact h rfl
        · intro span he
          exact h (congrArg ExprToken.lexeme he)

theorem wholeExpr_shift (hr : r.Shifts d) (s : Stream) :
    wholeExpr r (s.shift d) = moved d (Expr.shift d) (wholeExpr r s) := by
  cases s with
  | done | bad => rfl
  | next t rest =>
    refine moved_bind (hr.expr (.next t rest)) fun ⟨e, rest⟩ => ?_
    cases rest <;> rfl

/-- A substitution is read where it stands, so it moves with the template text around it. -/
theorem templateParts_shift (hr : r.Shifts d) (raw : List Char) (base : Int) :
    templateParts r raw (base + d) =
      moved d (Prod.map id (Expr.shiftParts d)) (templateParts r raw base) := by
  induction raw, base using templateParts.induct with
  | case1 base | case2 base =>
    rw [templateParts, templateParts]
    rfl
  | case3 base c cs ih =>
    rw [templateParts, templateParts, Int.add_right_comm]
    exact moved_bind ih fun ⟨head, parts⟩ => rfl
  | case4 base cs hclose =>
    rw [templateParts, templateParts, hclose]
    refine congrArg Except.error ?_
    simp only [ExprError.shift, Span.shift, Int.add_right_comm]
  | case5 base cs n hclose ih =>
    rw [templateParts, templateParts, hclose]
    have hcode := wholeExpr_shift hr (.ofText (cs.take (n - 1)) (base + 2))
    rw [← Stream.ofText_shift] at hcode
    simp only [Int.add_right_comm base d]
    refine moved_bind hcode fun e => ?_
    rw [Int.add_right_comm]
    exact moved_bind ih fun ⟨head, parts⟩ => rfl
  | case6 base c cs h h' h'' ih =>
    rw [templateParts, templateParts, Int.add_right_comm]
    · exact moved_bind ih fun ⟨head, parts⟩ => rfl
    all_goals assumption

theorem arrowFollows_shift (s : Stream) :
    arrowFollows (s.shift d) = moved d id (arrowFollows s) := by
  rcases s with p | e | ⟨⟨lexeme, span⟩, rest⟩
  · rfl
  · rfl
  · cases lexeme with
    | punct p => cases p <;> rfl
    | _ => rfl

theorem arrowAfterParen_shift (depth : Nat) (s : Stream) :
    arrowAfterParen depth (s.shift d) = arrowAfterParen depth s := by
  induction s generalizing depth with
  | done | bad => cases depth <;> rfl
  | next t rest ih =>
    obtain ⟨lexeme, span⟩ := t
    cases lexeme with
    | punct p =>
      cases p with
      | openParen => cases depth <;> exact ih _
      | closeParen =>
        cases depth with
        | zero =>
          rcases rest with p | e | ⟨⟨lexeme, span⟩, rest⟩
          · rfl
          · rfl
          · cases lexeme with
            | punct p => cases p <;> rfl
            | _ => rfl
        | succ depth => exact ih depth
      | _ => cases depth <;> exact ih _
    | _ => cases depth <;> exact ih _

theorem parameters_shift (hr : r.Shifts d) (n : Nat) (s : Stream) :
    parameters r n (s.shift d) = movedRest d (Pattern.shiftAll d) (parameters r n s) := by
  induction n generalizing s with
  | zero => exact reject_shift _ _ s
  | succ n ih =>
    by_cases h : ∃ span rest, s = .next ⟨.punct .closeParen, span⟩ rest
    · obtain ⟨span, rest, rfl⟩ := h
      rfl
    · have hs : s.NotAt .closeParen := fun span rest he => h ⟨span, rest, he⟩
      rw [parameters, parameters]
      · refine moved_bind (hr.pattern s) fun ⟨p, s⟩ => ?_
        rcases s with p | e | ⟨⟨lexeme, span⟩, rest⟩
        · rfl
        · rfl
        · cases lexeme with
          | punct p =>
            cases p with
            | comma => exact moved_bind (ih rest) fun ⟨ps, s⟩ => rfl
            | _ => rfl
          | _ => rfl
      · exact hs
      · exact hs.shift

theorem arrowTail_shift (hr : r.Shifts d) (start : Int) (params : List Pattern) (s : Stream) :
    arrowTail r (start + d) (Pattern.shiftAll d params) (s.shift d) =
      movedRest d (Expr.shift d) (arrowTail r start params s) := by
  rcases s with p | e | ⟨⟨lexeme, span⟩, rest⟩
  · rfl
  · rfl
  · cases lexeme with
    | punct p =>
      cases p with
      | arrow =>
        refine moved_bind (hr.expr rest) fun ⟨body, s⟩ => ?_
        simp only [Prod.map, Expr.span_shift]
        rfl
      | _ => rfl
    | _ => rfl

theorem parenTail_shift (hr : r.Shifts d) (s : Stream) :
    parenTail r (s.shift d) = movedRest d (Expr.shift d) (parenTail r s) := by
  refine moved_bind (hr.expr s) fun ⟨e, s⟩ => ?_
  rcases s with p | e | ⟨⟨lexeme, span⟩, rest⟩
  · rfl
  · rfl
  · cases lexeme with
    | punct p => cases p <;> rfl
    | _ => rfl

theorem primary_shift (hr : r.Shifts d) (s : Stream) :
    primary r (s.shift d) = movedRest d (Expr.shift d) (primary r s) := by
  rcases s with p | e | ⟨⟨lexeme, span⟩, rest⟩
  · rfl
  · rfl
  · cases lexeme with
    | ident name =>
      refine moved_bind (arrowFollows_shift rest) fun follows => ?_
      cases follows with
      | true => exact arrowTail_shift hr span.start [.name name span] rest
      | false => rfl
    | text | number => rfl
    | keyword k => cases k <;> rfl
    | template raw =>
      have hparts := templateParts_shift hr raw (span.start + 1)
      rw [Int.add_right_comm] at hparts
      exact moved_bind hparts fun ⟨head, parts⟩ => rfl
    | punct p =>
      rw [Stream.shift]
      cases p with
      | openBracket =>
        simp only [primary, ExprToken.shift, Stream.size_shift]
        exact moved_bind (elements_shift hr _ rest) fun ⟨⟨es, stop⟩, s⟩ => rfl
      | openBrace =>
        simp only [primary, ExprToken.shift, Stream.size_shift]
        exact moved_bind (fields_shift hr _ rest) fun ⟨⟨fs, stop⟩, s⟩ => rfl
      | openParen =>
        simp only [primary, ExprToken.shift, Stream.size_shift, arrowAfterParen_shift]
        cases arrowAfterParen 0 rest with
        | true =>
          exact moved_bind (parameters_shift hr _ rest) fun ⟨params, s⟩ =>
            arrowTail_shift hr span.start params s
        | false => exact parenTail_shift hr rest
      | _ => rfl

theorem postfixed_shift (hr : r.Shifts d) (s : Stream) :
    postfixed r (s.shift d) = movedRest d (Expr.shift d) (postfixed r s) := by
  refine moved_bind (primary_shift hr s) fun ⟨e, s⟩ => ?_
  dsimp only [Prod.map]
  rw [Stream.size_shift]
  exact suffixes_shift hr _ e s

theorem unary_shift (hr : r.Shifts d) (s : Stream) :
    unary r (s.shift d) = movedRest d (Expr.shift d) (unary r s) := by
  induction s with
  | done p => exact postfixed_shift hr (.done p)
  | bad e => exact postfixed_shift hr (.bad e)
  | next t rest ih =>
    rw [Stream.shift, unary, unary]
    have hop : unaryOp? (t.shift d).lexeme = unaryOp? t.lexeme := rfl
    rw [hop]
    cases unaryOp? t.lexeme with
    | none => exact postfixed_shift hr (.next t rest)
    | some op =>
      refine moved_bind ih fun ⟨e, s⟩ => ?_
      simp only [Prod.map, Expr.span_shift]
      rfl

theorem operatorAt_shift (level : Nat) (s : Stream) :
    operatorAt level (s.shift d) = (operatorAt level s).map (Prod.map id (Stream.shift d)) := by
  rcases s with p | e | ⟨⟨lexeme, span⟩, rest⟩
  · rfl
  · rfl
  · cases lexeme with
    | punct p =>
      rw [Stream.shift, ExprToken.shift, operatorAt, operatorAt]
      cases binaryOp? p with
      | none => rfl
      | some op =>
        by_cases h : op.level = level
        · simp only [h, if_true]
          rfl
        · simp only [h, if_false]
          rfl
    | _ => rfl

theorem chain_shift {operand : Stream → Except ExprError (WithRest Expr)}
    (hoperand : ∀ s, operand (s.shift d) = movedRest d (Expr.shift d) (operand s)) (level n : Nat)
    (left : Expr) (s : Stream) :
    chain operand level n (left.shift d) (s.shift d) =
      movedRest d (Expr.shift d) (chain operand level n left s) := by
  induction n generalizing left s with
  | zero => exact settle_shift _ left s
  | succ n ih =>
    rw [chain, chain, operatorAt_shift]
    cases operatorAt level s with
    | none => exact settle_shift _ left s
    | some found =>
      obtain ⟨op, rest⟩ := found
      refine moved_bind (hoperand rest) fun ⟨right, s⟩ => ?_
      have h := ih (.binary op left right (left.span.join right.span)) s
      rwa [Expr.shift, Expr.join_shift, ← Expr.span_shift] at h

theorem binary_shift (hr : r.Shifts d) (k : Nat) (s : Stream) :
    binary r k (s.shift d) = movedRest d (Expr.shift d) (binary r k s) := by
  induction k generalizing s with
  | zero => exact unary_shift hr s
  | succ k ih =>
    refine moved_bind (ih s) fun ⟨left, s⟩ => ?_
    dsimp only [Prod.map]
    rw [Stream.size_shift]
    exact chain_shift ih _ _ left s

theorem conditional_shift (hr : r.Shifts d) (s : Stream) :
    conditional r (s.shift d) = movedRest d (Expr.shift d) (conditional r s) := by
  refine moved_bind (binary_shift hr 7 s) fun ⟨condition, s⟩ => ?_
  rcases s with p | e | ⟨⟨lexeme, span⟩, rest⟩
  · rfl
  · rfl
  · cases lexeme with
    | punct p =>
      cases p with
      | question =>
        refine moved_bind (hr.expr rest) fun ⟨yes, s⟩ => ?_
        rcases s with p | e | ⟨⟨lexeme, span⟩, rest⟩
        · rfl
        · rfl
        · cases lexeme with
          | punct p =>
            cases p with
            | colon =>
              refine moved_bind (hr.expr rest) fun ⟨no, s⟩ => ?_
              simp only [Prod.map, Expr.span_shift]
              rfl
            | _ => rfl
          | _ => rfl
      | _ => rfl
    | _ => rfl

theorem patternElements_shift (hr : r.Shifts d) (n : Nat) (s : Stream) :
    patternElements r n (s.shift d) = movedRest d
      (Prod.map (Pattern.shiftElements d) (Span.shift · d)) (patternElements r n s) := by
  induction n generalizing s with
  | zero => exact reject_shift _ _ s
  | succ n ih =>
    by_cases h : ∃ span rest, s = .next ⟨.punct .closeBracket, span⟩ rest
    · obtain ⟨span, rest, rfl⟩ := h
      rfl
    by_cases h' : ∃ span rest, s = .next ⟨.punct .comma, span⟩ rest
    · obtain ⟨span, rest, rfl⟩ := h'
      exact moved_bind (ih rest) fun ⟨⟨ps, span⟩, s⟩ => rfl
    have hs : s.NotAt .closeBracket := fun span rest he => h ⟨span, rest, he⟩
    have hs' : s.NotAt .comma := fun span rest he => h' ⟨span, rest, he⟩
    rw [patternElements, patternElements]
    · refine moved_bind (hr.pattern s) fun ⟨p, s⟩ => ?_
      rcases s with p | e | ⟨⟨lexeme, span⟩, rest⟩
      · rfl
      · rfl
      · cases lexeme with
        | punct p =>
          cases p with
          | comma => exact moved_bind (ih rest) fun ⟨⟨ps, span⟩, s⟩ => rfl
          | _ => rfl
        | _ => rfl
    · exact hs
    · exact hs'
    · exact hs.shift
    · exact hs'.shift

theorem propertyValue_shift (hr : r.Shifts d) (key : ExprToken) (s : Stream) :
    propertyValue r (key.shift d) (s.shift d) =
      movedRest d (Pattern.shift d) (propertyValue r key s) := by
  have hshort : ∀ name place, r.pattern (.next ⟨.ident name, Span.shift place d⟩ (s.shift d)) =
      movedRest d (Pattern.shift d) (r.pattern (.next ⟨.ident name, place⟩ s)) :=
    fun name place => hr.pattern (.next ⟨.ident name, place⟩ s)
  obtain ⟨word, place⟩ := key
  rcases s with p | e | ⟨⟨lexeme, span⟩, rest⟩
  · cases word with
    | ident name => exact hshort name place
    | _ => rfl
  · rfl
  · cases lexeme with
    | punct p =>
      cases p with
      | colon => exact hr.pattern rest
      | _ => cases word with
        | ident name => exact hshort name place
        | _ => rfl
    | _ => cases word with
      | ident name => exact hshort name place
      | _ => rfl

theorem properties_shift (hr : r.Shifts d) (n : Nat) (s : Stream) :
    properties r n (s.shift d) =
      movedRest d (Prod.map (Pattern.shiftProperties d) (Span.shift · d)) (properties r n s) := by
  induction n generalizing s with
  | zero => exact reject_shift _ _ s
  | succ n ih =>
    rcases s with p | e | ⟨key, rest⟩
    · rfl
    · rfl
    · by_cases h : key.lexeme = .punct .closeBrace
      · obtain ⟨lexeme, span⟩ := key
        cases h
        rfl
      · rw [Stream.shift, properties, properties]
        · have hname : fieldName? (key.shift d).lexeme = fieldName? key.lexeme := rfl
          rw [hname]
          cases fieldName? key.lexeme with
          | none => rfl
          | some name =>
            refine moved_bind (propertyValue_shift hr key rest) fun ⟨p, s⟩ => ?_
            rcases s with p | e | ⟨⟨lexeme, span⟩, rest⟩
            · rfl
            · rfl
            · cases lexeme with
              | punct p =>
                cases p with
                | comma => exact moved_bind (ih rest) fun ⟨⟨more, span⟩, s⟩ => rfl
                | _ => rfl
              | _ => rfl
        · rintro span rfl
          exact h rfl
        · intro span he
          exact h (congrArg ExprToken.lexeme he)

theorem plainPattern_shift (hr : r.Shifts d) (s : Stream) :
    plainPattern r (s.shift d) = movedRest d (Pattern.shift d) (plainPattern r s) := by
  rcases s with p | e | ⟨⟨lexeme, span⟩, rest⟩
  · rfl
  · rfl
  · cases lexeme with
    | punct p =>
      rw [Stream.shift]
      cases p with
      | openBracket =>
        simp only [plainPattern, ExprToken.shift, Stream.size_shift]
        exact moved_bind (patternElements_shift hr _ rest) fun ⟨⟨ps, stop⟩, s⟩ => rfl
      | openBrace =>
        simp only [plainPattern, ExprToken.shift, Stream.size_shift]
        exact moved_bind (properties_shift hr _ rest) fun ⟨⟨ps, stop⟩, s⟩ => rfl
      | _ => rfl
    | _ => rfl

theorem pattern_shift (hr : r.Shifts d) (s : Stream) :
    pattern r (s.shift d) = movedRest d (Pattern.shift d) (pattern r s) := by
  refine moved_bind (plainPattern_shift hr s) fun ⟨target, s⟩ => ?_
  rcases s with p | e | ⟨⟨lexeme, span⟩, rest⟩
  · rfl
  · rfl
  · cases lexeme with
    | punct p =>
      cases p with
      | equals =>
        refine moved_bind (hr.expr rest) fun ⟨value, s⟩ => ?_
        simp only [Prod.map, Expr.span_shift, Pattern.span_shift]
        rfl
      | _ => rfl
    | _ => rfl

end Grammar

theorem Rules.upTo_shifts (d : Int) (n : Nat) : (Rules.upTo n).Shifts d := by
  induction n with
  | zero => exact ⟨Grammar.reject_shift _ _, Grammar.reject_shift _ _⟩
  | succ n ih => exact ⟨Grammar.conditional_shift ih, Grammar.pattern_shift ih⟩

theorem Expr.ofChars_shift (cs : List Char) (base d : Int) :
    Expr.ofChars cs (base + d) = Grammar.moved d (Expr.shift d) (Expr.ofChars cs base) := by
  rw [Expr.ofChars, Stream.ofText_shift]
  exact Grammar.wholeExpr_shift (Rules.upTo_shifts d _) _

theorem Pattern.ofChars_shift (cs : List Char) (base d : Int) :
    Pattern.ofChars cs (base + d) =
      Grammar.moved d (Pattern.shift d) (Pattern.ofChars cs base) := by
  rw [Pattern.ofChars, Pattern.ofChars, Stream.ofText_shift]
  cases Stream.ofText cs base with
  | done | bad => rfl
  | next t rest =>
    refine Grammar.moved_bind ((Rules.upTo_shifts d _).pattern (.next t rest)) fun ⟨p, rest⟩ => ?_
    cases rest <;> rfl

theorem ForHeader.ofChars_shift (cs : List Char) (base d : Int) :
    ForHeader.ofChars cs (base + d) =
      Grammar.moved d (ForHeader.shift d) (ForHeader.ofChars cs base) := by
  have hr := Rules.upTo_shifts d (cs.length + 1)
  rw [ForHeader.ofChars, ForHeader.ofChars, Stream.ofText_shift]
  cases Stream.ofText cs base with
  | done | bad => rfl
  | next t rest =>
    refine Grammar.moved_bind (Grammar.plainPattern_shift hr (.next t rest)) fun ⟨p, s⟩ => ?_
    dsimp only [Prod.map]
    split
    · rename_i place more heq
      cases s with
      | done | bad => cases heq
      | next u more =>
        obtain ⟨lexeme, span⟩ := u
        cases heq
        refine Grammar.moved_bind (hr.expr more) fun ⟨items, s⟩ => ?_
        cases s with
        | done =>
          have hstop := Stream.lastStop_shift (d := d) (.next t rest) base
          simp only [Prod.map, hstop]
          rfl
        | bad | next => rfl
    · rename_i h
      split
      · exact absurd rfl (h _ _)
      · exact Grammar.reject_shift _ _ _

/-- Reading commutes with moving the text. -/
theorem Grammar.reading_shift (text : String) (k : Int) :
    Expr.ofText text k = moved k (Expr.shift k) (Expr.ofText text 0) ∧
      Pattern.ofText text k = moved k (Pattern.shift k) (Pattern.ofText text 0) ∧
      ForHeader.ofText text k = moved k (ForHeader.shift k) (ForHeader.ofText text 0) := by
  have hexpr := Expr.ofChars_shift text.toList 0 k
  have hpattern := Pattern.ofChars_shift text.toList 0 k
  have hheader := ForHeader.ofChars_shift text.toList 0 k
  rw [Int.zero_add] at hexpr hpattern hheader
  exact ⟨hexpr, hpattern, hheader⟩

end LiveTemplate
