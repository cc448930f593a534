import LiveTemplate.Proofs.Expr.Alike
import LiveTemplate.Proofs.Expr.Passing
import LiveTemplate.Proofs.Expr.Placing

/-!
What a rule of the grammar reads depends on the tokens it takes and on one more. Where the same tokens
stand before a stream that goes on alike, rules for deeper nesting read the same and stop there.
-/

namespace LiveTemplate

set_option autoImplicit false

/-- What is read of `s` up to `s'` takes tokens of some shape, and a rule `g` reads the same of these
tokens before whatever may follow. Loops are given at least as many steps as there are tokens. -/
def Carried {α : Type} (shape : List ExprToken → Prop)
    (g : Nat → Stream → Except ExprError (WithRest α)) (follows : Stream → Prop) (x : α)
    (s s' : Stream) : Prop :=
  ∃ ts, s = s'.after ts ∧ shape ts ∧
    ∀ m u, ts.length ≤ m → follows u → g m (u.after ts) = .ok (x, u)

namespace Carried

variable {α β : Type} {shape : List ExprToken → Prop} {s s₁ s' : Stream} {x : α} {y : β}

theorem mono {g : Nat → Stream → Except ExprError (WithRest α)} {follows follows' : Stream → Prop}
    (h : Carried shape g follows x s s') (hf : ∀ u, follows' u → follows u) :
    Carried shape g follows' x s s' := by
  obtain ⟨ts, hs, hts, hread⟩ := h
  exact ⟨ts, hs, hts, fun m u hm hu => hread m u hm (hf u hu)⟩

/-- A loop that is given as many steps as its stream has tokens. -/
theorem sized {g : Nat → Stream → Except ExprError (WithRest α)} {follows : Stream → Prop}
    (h : Carried shape g follows x s s') {steps : Stream → Nat} (hsteps : ∀ v, v.size ≤ steps v) :
    Carried shape (fun _ v => g (steps v) v) follows x s s' := by
  obtain ⟨ts, hs, hts, hread⟩ := h
  refine ⟨ts, hs, hts, fun _ u _ hu => hread _ u ?_ hu⟩
  have hsize := Stream.size_after ts u
  have := hsteps (u.after ts)
  omega

/-- One rule after another. -/
theorem seq {f : Stream → Except ExprError (WithRest α)}
    {g : α → Stream → Except ExprError (WithRest β)}
    (hx : Carried Grammar.ParensMatch (fun _ => f) s₁.Alike x s s₁)
    (hy : Carried Grammar.ParensMatch (fun _ => g x) s'.Alike y s₁ s') :
    Carried Grammar.ParensMatch (fun _ v => f v >>= fun p => g p.1 p.2) s'.Alike y s s' := by
  obtain ⟨us, rfl, hus, hlater⟩ := hy
  obtain ⟨ts, rfl, hts, hread⟩ := hx
  refine ⟨ts ++ us, (Stream.after_append ts us s').symm, hts.append hus, fun _ u _ hu => ?_⟩
  rw [Stream.after_append]
  exact bind_eq_ok.2 ⟨_, hread _ _ (Nat.le_refl _) (hu.after us), hlater _ u (Nat.le_refl _) hu⟩

end Carried

/-- A loop that takes tokens has a step to begin with, and enough steps for the tokens after it. -/
theorem exists_steps (ts : List ExprToken) {us : List ExprToken} {t : ExprToken} {m : Nat}
    (h : (ts ++ t :: us).length ≤ m) : ∃ k, m = k + 1 ∧ us.length ≤ k := by
  rw [List.length_append, List.length_cons] at h
  exact ⟨m - 1, by omega, by omega⟩

/-- The rules `r'` read what the rules `r` read of streams lighter than `w`. -/
structure Rules.Carries (r r' : Rules) (w : Nat) : Prop where
  expr : ∀ {s s' : Stream} {e : Expr}, s.weight < w → r.expr s = .ok (e, s') →
    Carried Grammar.ParensMatch (fun _ => r'.expr) s'.Alike e s s'
  pattern : ∀ {s s' : Stream} {p : Pattern}, s.weight < w → r.pattern s = .ok (p, s') →
    Carried Grammar.ParensMatch (fun _ => r'.pattern) s'.Alike p s s'

namespace Grammar

variable {r r' : Rules} {w n : Nat} {s s' u : Stream} {span : Span}

/-- Whether a lexeme can name a member: a word, also one that is a keyword. -/
def isWord : Lexeme → Bool
  | .ident _ | .keyword _ => true
  | _ => false

theorem isParen_of_isWord {lexeme : Lexeme} (h : isWord lexeme = true) : isParen lexeme = false := by
  cases lexeme with
  | ident | keyword => rfl
  | punct | text | number | template => cases h

/-- A word after a point is taken by itself. -/
theorem propertyName_word {t : ExprToken} (ht : isWord t.lexeme = true) (operator : String) :
    ∃ name, ∀ u, propertyName operator (.next t u) = .ok ((name, t.span), u) := by
  obtain ⟨lexeme, span⟩ := t
  cases lexeme with
  | ident name => exact ⟨name, fun _ => rfl⟩
  | keyword k => exact ⟨k.text, fun _ => rfl⟩
  | punct | text | number | template => cases ht

theorem isParen_of_fieldName {lexeme : Lexeme} {name : String} (h : fieldName? lexeme = some name) :
    isParen lexeme = false := by
  cases lexeme with
  | punct p => cases h
  | ident | keyword | text | number | template => rfl

/-- What is read after a point is one word. -/
theorem propertyName_eq_ok {operator : String} {x : String × Span}
    (h : propertyName operator s = .ok (x, s')) :
    ∃ t, s = .next t s' ∧ isWord t.lexeme = true ∧
      ∀ u, propertyName operator (.next t u) = .ok (x, u) := by
  unfold propertyName at h
  split at h
  · cases h
    exact ⟨_, rfl, rfl, fun _ => rfl⟩
  · cases h
    exact ⟨_, rfl, rfl, fun _ => rfl⟩
  · exact absurd h reject_ne_ok

theorem keyTail_carried (hr : r.Carries r' w) (hs : s.weight < w) {x : Expr × Span}
    (h : keyTail r s = .ok (x, s')) :
    Carried ParensMatch (fun _ => keyTail r') (fun _ => True) x s s' := by
  obtain ⟨⟨e, s₁⟩, he, htail⟩ := bind_eq_ok.1 h
  obtain ⟨ts, rfl, hts, hread⟩ := hr.expr hs he
  dsimp only at htail
  split at htail
  · rename_i span rest
    cases htail
    refine ⟨ts ++ [⟨.punct .closeBracket, span⟩], (Stream.after_snoc ..).symm, hts.snoc rfl,
      fun m u _ _ => ?_⟩
    rw [Stream.after_snoc]
    exact bind_eq_ok.2 ⟨_, hread _ _ (Nat.le_refl _) (.same _ _ _), rfl⟩
  · exact absurd htail reject_ne_ok

theorem moreArguments_carried (hr : r.Carries r' w) (hs : s.weight < w) {x : List Expr × Span}
    (h : moreArguments r n s = .ok (x, s')) :
    Carried ClosesParen (moreArguments r') (fun _ => True) x s s' := by
  induction n generalizing s x s' with
  | zero => exact absurd h reject_ne_ok
  | succ n ih =>
    obtain ⟨⟨arg, s₁⟩, harg, htail⟩ := bind_eq_ok.1 h
    obtain ⟨ts, rfl, hts, hread⟩ := hr.expr hs harg
    dsimp only at htail
    split at htail
    · rename_i span rest
      cases htail
      refine ⟨ts ++ [⟨.punct .closeParen, span⟩], (Stream.after_snoc ..).symm, .intro hts span,
        fun m u hm _ => ?_⟩
      obtain ⟨m, rfl, -⟩ := exists_steps _ hm
      rw [Stream.after_snoc]
      exact bind_eq_ok.2 ⟨_, hread _ _ (Nat.le_refl _) (.same _ _ _), rfl⟩
    · rename_i span rest
      obtain ⟨⟨⟨more, stop⟩, s₂⟩, hmore, hlast⟩ := bind_eq_ok.1 htail
      cases hlast
      obtain ⟨us, rfl, hus, hreadMore⟩ :=
        ih (Nat.lt_trans (Stream.weight_lt_after_next ts _ _) hs) hmore
      refine ⟨ts ++ ⟨.punct .comma, span⟩ :: us, (Stream.after_append_cons ..).symm,
        (hus.behind (.cons rfl .nil)).behind hts, fun m u hm _ => ?_⟩
      obtain ⟨m, rfl, hle⟩ := exists_steps _ hm
      rw [Stream.after_append_cons]
      refine bind_eq_ok.2 ⟨_, hread _ _ (Nat.le_refl _) (.same _ _ _), ?_⟩
      exact bind_eq_ok.2 ⟨_, hreadMore m u hle trivial, rfl⟩
    · exact absurd htail reject_ne_ok

theorem arguments_carried (hr : r.Carries r' w) (hs : s.weight < w) {x : List Expr × Span}
    (h : arguments r s = .ok (x, s')) :
    Carried ClosesParen (fun _ => arguments r') (fun _ => True) x s s' := by
  unfold arguments at h
  split at h
  · cases h
    exact ⟨[_], rfl, .single _, fun _ _ _ _ => rfl⟩
  · rename_i hopen
    obtain ⟨ts, rfl, hts, hread⟩ := moreArguments_carried hr hs h
    refine ⟨ts, rfl, hts, fun m u _ _ => ?_⟩
    have hsize : ts.length ≤ (u.after ts).size + 1 := by
      rw [Stream.size_after]
      omega
    have hmore := hread _ u hsize trivial
    cases ts with
    | nil => exact absurd rfl hts.ne_nil
    | cons t ts =>
      change arguments r' _ = _
      rw [arguments]
      · exact hmore
      · intro span rest heq
        obtain ⟨rfl, -⟩ := Stream.next.inj heq
        exact hopen _ _ rfl

/-- Tokens by which one expression goes on to another. -/
structure Continues (r : Rules) (front : List ExprToken) (e e' : Expr) : Prop where
  parens : ParensMatch front
  nonempty : front ≠ []
  step : ∀ n u, suffixes r (n + 1) e (u.after front) = suffixes r n e' u

namespace Continues

variable {e : Expr} {t : ExprToken} {ts : List ExprToken} {stop : Span}

theorem member {name : String} (ht : isWord t.lexeme = true)
    (h : ∀ u, propertyName "." (.next t u) = .ok ((name, stop), u)) (span : Span) :
    Continues r [⟨.punct .dot, span⟩, t] e (.member e name false (e.span.join stop)) where
  parens := .cons rfl (.cons (isParen_of_isWord ht) .nil)
  nonempty := List.cons_ne_nil _ _
  step n u := by
    change (propertyName "." (.next t u) >>= _) = _
    rw [h]
    rfl

theorem optionalMember {name : String} (ht : isWord t.lexeme = true)
    (h : ∀ u, propertyName "?." (.next t u) = .ok ((name, stop), u)) (span : Span) :
    Continues r [⟨.punct .questionDot, span⟩, t] e (.member e name true (e.span.join stop)) where
  parens := .cons rfl (.cons (isParen_of_isWord ht) .nil)
  nonempty := List.cons_ne_nil _ _
  step n u := by
    have hstep : suffixes r (n + 1) e (.next ⟨.punct .questionDot, span⟩ (.next t u)) =
        propertyName "?." (.next t u) >>= fun x =>
          suffixes r n (.member e x.1.1 true (e.span.join x.1.2)) x.2 := by
      obtain ⟨lexeme, place⟩ := t
      cases lexeme with
      | ident | keyword => rfl
      | punct | text | number | template => cases ht
    rw [Stream.after_cons, Stream.after_cons, Stream.after_nil, hstep, h]
    rfl

theorem keyed {key : Expr} (hts : ParensMatch ts)
    (h : ∀ u, keyTail r (u.after ts) = .ok ((key, stop), u)) (span : Span) :
    Continues r (⟨.punct .openBracket, span⟩ :: ts) e (.keyed e key false (e.span.join stop)) where
  parens := .cons rfl hts
  nonempty := List.cons_ne_nil _ _
  step n u := by
    change (keyTail r (u.after ts) >>= _) = _
    rw [h]
    rfl

theorem optionalKeyed {key : Expr} (hts : ParensMatch ts)
    (h : ∀ u, keyTail r (u.after ts) = .ok ((key, stop), u)) (span start : Span) :
    Continues r (⟨.punct .questionDot, span⟩ :: ⟨.punct .openBracket, start⟩ :: ts) e
      (.keyed e key true (e.span.join stop)) where
  parens := .cons rfl (.cons rfl hts)
  nonempty := List.cons_ne_nil _ _
  step n u := by
    change (keyTail r (u.after ts) >>= _) = _
    rw [h]
    rfl

theorem call {args : List Expr} (hts : ClosesParen ts)
    (h : ∀ u, arguments r (u.after ts) = .ok ((args, stop), u)) (span : Span) :
    Continues r (⟨.punct .openParen, span⟩ :: ts) e (.call e args false (e.span.join stop)) where
  parens := hts.parens span
  nonempty := List.cons_ne_nil _ _
  step n u := by
    change (arguments r (u.after ts) >>= _) = _
    rw [h]
    rfl

theorem optionalCall {args : List Expr} (hts : ClosesParen ts)
    (h : ∀ u, arguments r (u.after ts) = .ok ((args, stop), u)) (span start : Span) :
    Continues r (⟨.punct .questionDot, span⟩ :: ⟨.punct .openParen, start⟩ :: ts) e
      (.call e args true (e.span.join stop)) where
  parens := .cons rfl (hts.parens start)
  nonempty := List.cons_ne_nil _ _
  step n u := by
    change (arguments r (u.after ts) >>= _) = _
    rw [h]
    rfl

theorem carried {front : List ExprToken} {e e₁ e' : Expr} (h : Continues r' front e e₁)
    (hrest : Carried ParensMatch (fun m => suffixes r' m e₁) s'.Alike e' s s') :
    Carried ParensMatch (fun m => suffixes r' m e) s'.Alike e' (s.after front) s' := by
  obtain ⟨us, rfl, hus, hread⟩ := hrest
  refine ⟨front ++ us, (Stream.after_append ..).symm, h.parens.append hus, fun m u hm hu => ?_⟩
  have hlength := List.length_pos_iff.mpr h.nonempty
  rw [List.length_append] at hm
  obtain ⟨m, rfl⟩ : ∃ k, m = k + 1 := Nat.exists_eq_add_one_of_ne_zero (by omega)
  rw [Stream.after_append]
  exact (h.step m _).trans (hread m u (by omega) hu)

end Continues

/-- Whether a member, a key or a call begins at the head of a stream. -/
def beginsSuffix : Stream → Bool
  | .next ⟨.punct .dot, _⟩ _ | .next ⟨.punct .questionDot, _⟩ _ => true
  | .next ⟨.punct .openBracket, _⟩ _ | .next ⟨.punct .openParen, _⟩ _ => true
  | _ => false

theorem beginsSuffix_alike (h : s.Alike u) (hs : beginsSuffix s = false) :
    beginsSuffix u = false := by
  cases h with
  | same t rest rest' =>
    obtain ⟨lexeme, span⟩ := t
    cases lexeme with
    | punct p => cases p <;> first | rfl | cases hs
    | ident | keyword | text | number | template => rfl
  | closed _ hu =>
    unfold Stream.closes at hu
    split at hu
    · rfl
    · rename_i p span rest
      cases p <;> first | rfl | cases hu
    · cases hu

theorem suffixes_settle (h : beginsSuffix s = false) (r : Rules) (n : Nat) (e : Expr) :
    suffixes r n e s = settle e s := by
  cases n with
  | zero => rfl
  | succ n =>
    unfold suffixes
    split <;> first | rfl | cases h

theorem suffixes_carried (hr : r.Carries r' w) (hs : s.weight ≤ w) (hn : s.size < n) {e e' : Expr}
    (h : suffixes r n e s = .ok (e', s')) :
    Carried ParensMatch (fun m => suffixes r' m e) s'.Alike e' s s' := by
  induction n generalizing s e with
  | zero => cases hn
  | succ n ih =>
    -- what a suffix leaves is lighter and shorter than what it stands in front of
    have hlater : ∀ {front : List ExprToken} {s₁ : Stream} {e₁ : Expr}, Continues r' front e e₁ →
        s = s₁.after front → suffixes r n e₁ s₁ = .ok (e', s') →
          Carried ParensMatch (fun m => suffixes r' m e) s'.Alike e' s s' := by
      rintro front s₁ e₁ hfront rfl hmore
      have hlength := List.length_pos_iff.mpr hfront.nonempty
      rw [Stream.size_after] at hn
      exact hfront.carried (ih (Nat.le_trans (Stream.weight_le_after front s₁) hs) (by omega) hmore)
    unfold suffixes at h
    split at h
    · rename_i span rest
      obtain ⟨⟨⟨name, stop⟩, s₁⟩, hname, hmore⟩ := bind_eq_ok.1 h
      obtain ⟨t, rfl, ht, hagain⟩ := propertyName_eq_ok hname
      exact hlater (.member ht hagain span) rfl hmore
    · rename_i span start rest
      obtain ⟨⟨⟨args, stop⟩, s₁⟩, hargs, hmore⟩ := bind_eq_ok.1 h
      simp only [Stream.weight, Lexeme.weight] at hs
      obtain ⟨ts, rfl, hts, hagain⟩ := arguments_carried hr (by omega) hargs
      exact hlater (.optionalCall hts (fun u => hagain _ u (Nat.le_refl _) trivial) span start) rfl hmore
    · rename_i span start rest
      obtain ⟨⟨⟨key, stop⟩, s₁⟩, hkey, hmore⟩ := bind_eq_ok.1 h
      simp only [Stream.weight, Lexeme.weight] at hs
      obtain ⟨ts, rfl, hts, hagain⟩ := keyTail_carried hr (by omega) hkey
      exact hlater (.optionalKeyed hts (fun u => hagain _ u (Nat.le_refl _) trivial) span start) rfl hmore
    · rename_i span rest _ _
      obtain ⟨⟨⟨name, stop⟩, s₁⟩, hname, hmore⟩ := bind_eq_ok.1 h
      obtain ⟨t, rfl, ht, hagain⟩ := propertyName_eq_ok hname
      exact hlater (.optionalMember ht hagain span) rfl hmore
    · rename_i span rest
      obtain ⟨⟨⟨key, stop⟩, s₁⟩, hkey, hmore⟩ := bind_eq_ok.1 h
      obtain ⟨ts, rfl, hts, hagain⟩ :=
        keyTail_carried hr (Nat.lt_of_lt_of_le (Stream.weight_lt_next _ rest) hs) hkey
      exact hlater (.keyed hts (fun u => hagain _ u (Nat.le_refl _) trivial) span) rfl hmore
    · rename_i span rest
      obtain ⟨⟨⟨args, stop⟩, s₁⟩, hargs, hmore⟩ := bind_eq_ok.1 h
      obtain ⟨ts, rfl, hts, hagain⟩ :=
        arguments_carried hr (Nat.lt_of_lt_of_le (Stream.weight_lt_next _ rest) hs) hargs
      exact hlater (.call hts (fun u => hagain _ u (Nat.le_refl _) trivial) span) rfl hmore
    · rename_i hdot _ _ hpoint hbracket hparen
      obtain rfl := settle_eq_ok h
      obtain rfl := settle_value h
      have hsuffix : beginsSuffix s' = false := by
        unfold beginsSuffix
        split
        · exact absurd rfl (hdot _ _)
        · exact absurd rfl (hpoint _ _)
        · exact absurd rfl (hbracket _ _)
        · exact absurd rfl (hparen _ _)
        · rfl
      refine ⟨[], rfl, .nil, fun m u _ hu => ?_⟩
      exact (suffixes_settle (beginsSuffix_alike hu hsuffix) r' m e').trans (settle_alike e' hu)

theorem elements_carried (hr : r.Carries r' w) (hs : s.weight < w) {x : List Expr × Span}
    (h : elements r n s = .ok (x, s')) :
    Carried ParensMatch (elements r') (fun _ => True) x s s' := by
  induction n generalizing s x s' with
  | zero => exact absurd h reject_ne_ok
  | succ n ih =>
    unfold elements at h
    split at h
    · rename_i span rest
      cases h
      refine ⟨[⟨.punct .closeBracket, span⟩], rfl, .cons rfl .nil, fun m u hm _ => ?_⟩
      obtain ⟨m, rfl, -⟩ := exists_steps [] hm
      rfl
    · rename_i hclose
      obtain ⟨⟨e, s₁⟩, he, htail⟩ := bind_eq_ok.1 h
      obtain ⟨ts, rfl, hts, hread⟩ := hr.expr hs he
      dsimp only at htail
      split at htail
      · rename_i span rest
        obtain ⟨⟨⟨more, stop⟩, s₂⟩, hmore, hlast⟩ := bind_eq_ok.1 htail
        cases hlast
        obtain ⟨us, rfl, hus, hreadMore⟩ :=
          ih (Nat.lt_trans (Stream.weight_lt_after_next ts _ _) hs) hmore
        refine ⟨ts ++ ⟨.punct .comma, span⟩ :: us, (Stream.after_append_cons ..).symm,
          hts.append (.cons rfl hus), fun m u hm _ => ?_⟩
        obtain ⟨m, rfl, hle⟩ := exists_steps _ hm
        rw [Stream.after_append_cons, elements]
        · refine bind_eq_ok.2 ⟨_, hread _ _ (Nat.le_refl _) (.same _ _ _), ?_⟩
          exact bind_eq_ok.2 ⟨_, hreadMore m u hle trivial, rfl⟩
        · exact Stream.after_next_ne hclose _
      · rename_i span rest
        cases htail
        refine ⟨ts ++ [⟨.punct .closeBracket, span⟩], (Stream.after_snoc ..).symm, hts.snoc rfl,
          fun m u hm _ => ?_⟩
        obtain ⟨m, rfl, -⟩ := exists_steps _ hm
        rw [Stream.after_snoc, elements]
        · exact bind_eq_ok.2 ⟨_, hread _ _ (Nat.le_refl _) (.same _ _ _), rfl⟩
        · exact Stream.after_next_ne hclose _
      · exact absurd htail reject_ne_ok

/-- The value of a field tells the marks after it apart. -/
theorem fieldValue_carried (hr : r.Carries r' w) (hs : s.weight ≤ w) {key : ExprToken}
    {name : String} {e : Expr} (h : fieldValue r key name s = .ok (e, s')) :
    Carried ParensMatch (fun _ => fieldValue r' key name) s'.SameHead e s s' := by
  unfold fieldValue at h
  split at h
  · rename_i span rest
    obtain ⟨ts, rfl, hts, hread⟩ :=
      hr.expr (Nat.lt_of_lt_of_le (Stream.weight_lt_next _ rest) hs) h
    refine ⟨⟨.punct .colon, span⟩ :: ts, rfl, .cons rfl hts, fun m u hm hu => ?_⟩
    obtain ⟨t, rest, rest', rfl, rfl⟩ := hu
    exact hread _ _ (Nat.le_refl _) (.same _ _ _)
  · dsimp only at h
    split_ifs at h with hshort
    · cases h
      refine ⟨[], rfl, .nil, fun m u hm hu => ?_⟩
      obtain ⟨t, rest, rest', rfl, rfl⟩ := hu
      obtain ⟨lexeme, span⟩ := key
      split at hshort
      · rename_i hname heq
        cases heq
        dsimp only at hname
        subst hname
        rfl
      · rename_i hname heq
        cases heq
        dsimp only at hname
        subst hname
        rfl
      · cases hshort
    · exact absurd h reject_ne_ok

theorem fields_carried (hr : r.Carries r' w) (hs : s.weight ≤ w) {x : List (String × Expr) × Span}
    (h : fields r n s = .ok (x, s')) :
    Carried ParensMatch (fields r') (fun _ => True) x s s' := by
  induction n generalizing s x s' with
  | zero => exact absurd h reject_ne_ok
  | succ n ih =>
    unfold fields at h
    split at h
    · rename_i span rest
      cases h
      refine ⟨[⟨.punct .closeBrace, span⟩], rfl, .cons rfl .nil, fun m u hm _ => ?_⟩
      obtain ⟨m, rfl, -⟩ := exists_steps [] hm
      rfl
    · rename_i key rest hclose
      split at h
      · exact absurd h reject_ne_ok
      · rename_i name hname
        obtain ⟨⟨value, s₁⟩, hvalue, htail⟩ := bind_eq_ok.1 h
        have hparen := isParen_of_fieldName hname
        obtain ⟨ts, rfl, hts, hread⟩ :=
          fieldValue_carried hr (Nat.le_trans (Nat.le_of_lt (Stream.weight_lt_next key rest)) hs) hvalue
        dsimp only at htail
        split at htail
        · rename_i span rest
          obtain ⟨⟨⟨more, stop⟩, s₂⟩, hmore, hlast⟩ := bind_eq_ok.1 htail
          cases hlast
          have hlater := Stream.weight_lt_after_next (key :: ts) ⟨.punct .comma, span⟩ rest
          obtain ⟨us, rfl, hus, hreadMore⟩ := ih (Nat.le_trans (Nat.le_of_lt hlater) hs) hmore
          refine ⟨key :: ts ++ ⟨.punct .comma, span⟩ :: us,
            (Stream.after_append_cons (key :: ts) _ us _).symm,
            (hts.cons hparen).append (.cons rfl hus), fun m u hm _ => ?_⟩
          obtain ⟨m, rfl, hle⟩ := exists_steps _ hm
          rw [Stream.after_append_cons, Stream.after_cons, fields.eq_3 _ _ _ _ hclose, hname]
          refine bind_eq_ok.2 ⟨_, hread _ _ (Nat.le_refl _) ⟨_, _, _, rfl, rfl⟩, ?_⟩
          exact bind_eq_ok.2 ⟨_, hreadMore m u hle trivial, rfl⟩
        · rename_i span rest
          cases htail
          refine ⟨key :: ts ++ [⟨.punct .closeBrace, span⟩], by rw [Stream.after_snoc]; rfl,
            (hts.cons hparen).snoc rfl, fun m u hm _ => ?_⟩
          obtain ⟨m, rfl, -⟩ := exists_steps _ hm
          rw [Stream.after_snoc, Stream.after_cons, fields.eq_3 _ _ _ _ hclose, hname]
          exact bind_eq_ok.2 ⟨_, hread _ _ (Nat.le_refl _) ⟨_, _, _, rfl, rfl⟩, rfl⟩
        · exact absurd htail reject_ne_ok
    · exact absurd h reject_ne_ok

theorem wholeExpr_carried (hr : r.Carries r' w) (hs : s.weight < w) {e : Expr}
    (h : wholeExpr r s = .ok e) : wholeExpr r' s = .ok e := by
  unfold wholeExpr at h
  split at h
  · obtain ⟨⟨e, s₁⟩, he, htail⟩ := bind_eq_ok.1 h
    obtain ⟨ts, heq, -, hread⟩ := hr.expr hs he
    dsimp only at htail
    split at htail
    · rename_i stop
      cases htail
      have hagain := hread _ (.done stop) (Nat.le_refl _) (.closed rfl rfl)
      rw [← heq] at hagain
      exact bind_eq_ok.2 ⟨_, hagain, rfl⟩
    · exact absurd htail reject_ne_ok
  · exact absurd h reject_ne_ok

theorem templateParts_carried (hr : r.Carries r' w) {raw : List Char} (hraw : raw.length ≤ w)
    {base : Int} {x : List Char × List (Expr × String)} (h : templateParts r raw base = .ok x) :
    templateParts r' raw base = .ok x := by
  induction raw, base using templateParts.induct generalizing x with
  | case1 | case2 =>
    rw [templateParts] at h ⊢
    exact h
  | case3 base c cs ih =>
    rw [templateParts] at h ⊢
    obtain ⟨more, hmore, hlast⟩ := bind_eq_ok.1 h
    simp only [List.length_cons] at hraw
    exact bind_eq_ok.2 ⟨more, ih (by omega) hmore, hlast⟩
  | case4 base cs hclose =>
    rw [templateParts, hclose] at h
    cases h
  | case5 base cs n hclose ih =>
    rw [templateParts, hclose] at h ⊢
    obtain ⟨e, he, htail⟩ := bind_eq_ok.1 h
    obtain ⟨more, hmore, hlast⟩ := bind_eq_ok.1 htail
    simp only [List.length_cons] at hraw
    have hweight := Stream.weight_ofText_le (cs.take (n - 1)) (base + 2)
    rw [List.length_take] at hweight
    refine bind_eq_ok.2 ⟨e, wholeExpr_carried hr (by omega) he, ?_⟩
    exact bind_eq_ok.2 ⟨more, ih (by rw [List.length_drop]; omega) hmore, hlast⟩
  | case6 base c cs hlast hpair hopen ih =>
    rw [templateParts.eq_5 _ _ _ _ hlast hpair hopen] at h ⊢
    obtain ⟨more, hmore, hdone⟩ := bind_eq_ok.1 h
    simp only [List.length_cons] at hraw
    exact bind_eq_ok.2 ⟨more, ih (by omega) hmore, hdone⟩

theorem parameters_carried (hr : r.Carries r' w) (hs : s.weight < w) {ps : List Pattern}
    (h : parameters r n s = .ok (ps, s')) :
    Carried ClosesParen (parameters r') (fun _ => True) ps s s' := by
  induction n generalizing s ps s' with
  | zero => exact absurd h reject_ne_ok
  | succ n ih =>
    unfold parameters at h
    split at h
    · rename_i span rest
      cases h
      refine ⟨[⟨.punct .closeParen, span⟩], rfl, .single span, fun m u hm _ => ?_⟩
      obtain ⟨m, rfl, -⟩ := exists_steps [] hm
      rfl
    · rename_i hclose
      obtain ⟨⟨p, s₁⟩, hp, htail⟩ := bind_eq_ok.1 h
      obtain ⟨ts, rfl, hts, hread⟩ := hr.pattern hs hp
      dsimp only at htail
      split at htail
      · rename_i span rest
        obtain ⟨⟨more, s₂⟩, hmore, hlast⟩ := bind_eq_ok.1 htail
        cases hlast
        obtain ⟨us, rfl, hus, hreadMore⟩ :=
          ih (Nat.lt_trans (Stream.weight_lt_after_next ts _ _) hs) hmore
        refine ⟨ts ++ ⟨.punct .comma, span⟩ :: us, (Stream.after_append_cons ..).symm,
          (hus.behind (.cons rfl .nil)).behind hts, fun m u hm _ => ?_⟩
        obtain ⟨m, rfl, hle⟩ := exists_steps _ hm
        rw [Stream.after_append_cons, parameters]
        · refine bind_eq_ok.2 ⟨_, hread _ _ (Nat.le_refl _) (.same _ _ _), ?_⟩
          exact bind_eq_ok.2 ⟨_, hreadMore m u hle trivial, rfl⟩
        · exact Stream.after_next_ne hclose _
      · rename_i span rest
        cases htail
        refine ⟨ts ++ [⟨.punct .closeParen, span⟩], (Stream.after_snoc ..).symm, .intro hts span,
          fun m u hm _ => ?_⟩
        obtain ⟨m, rfl, -⟩ := exists_steps _ hm
        rw [Stream.after_snoc, parameters]
        · exact bind_eq_ok.2 ⟨_, hread _ _ (Nat.le_refl _) (.same _ _ _), rfl⟩
        · exact Stream.after_next_ne hclose _
      · exact absurd htail reject_ne_ok

theorem arrowTail_carried (hr : r.Carries r' w) (hs : s.weight ≤ w) {start : Int}
    {params : List Pattern} {e : Expr} (h : arrowTail r start params s = .ok (e, s')) :
    Carried ParensMatch (fun _ => arrowTail r' start params) s'.Alike e s s' := by
  unfold arrowTail at h
  split at h
  · rename_i span rest
    obtain ⟨⟨body, s₁⟩, hbody, hlast⟩ := bind_eq_ok.1 h
    cases hlast
    obtain ⟨ts, rfl, hts, hread⟩ :=
      hr.expr (Nat.lt_of_lt_of_le (Stream.weight_lt_next _ rest) hs) hbody
    refine ⟨⟨.punct .arrow, span⟩ :: ts, rfl, hts.cons rfl, fun _ u _ hu => ?_⟩
    exact bind_eq_ok.2 ⟨_, hread _ u (Nat.le_refl _) hu, rfl⟩
  · exact absurd h reject_ne_ok

theorem parenTail_carried (hr : r.Carries r' w) (hs : s.weight < w) {e : Expr}
    (h : parenTail r s = .ok (e, s')) :
    Carried ClosesParen (fun _ => parenTail r') (fun _ => True) e s s' := by
  obtain ⟨⟨e, s₁⟩, he, htail⟩ := bind_eq_ok.1 h
  obtain ⟨ts, rfl, hts, hread⟩ := hr.expr hs he
  dsimp only at htail
  split at htail
  · rename_i span rest
    cases htail
    refine ⟨ts ++ [⟨.punct .closeParen, span⟩], (Stream.after_snoc ..).symm, .intro hts span,
      fun _ u _ _ => ?_⟩
    rw [Stream.after_snoc]
    exact bind_eq_ok.2 ⟨_, hread _ _ (Nat.le_refl _) (.same _ _ _), rfl⟩
  · exact absurd htail reject_ne_ok

/-- Whether a lexeme begins a literal: a constant, a text, a list or a record. -/
def beginsLiteral : Lexeme → Bool
  | .text _ | .number _ | .template _ => true
  | .keyword k => k ≠ .typeof
  | .punct p => p = .openBracket || p = .openBrace
  | .ident _ => false

/-- A literal is read without a look at what follows it. -/
theorem literal_carried (hr : r.Carries r' w) {t : ExprToken} {rest : Stream}
    (hs : (Stream.next t rest).weight ≤ w) (ht : beginsLiteral t.lexeme = true) {e : Expr}
    (h : primary r (.next t rest) = .ok (e, s')) :
    Carried ParensMatch (fun _ => primary r') (fun _ => True) e (.next t rest) s' := by
  obtain ⟨lexeme, span⟩ := t
  have hrest := Nat.lt_of_lt_of_le (Stream.weight_lt_next _ rest) hs
  unfold primary at h
  cases lexeme with
  | ident name => cases ht
  | text value | number x =>
    cases h
    exact ⟨[_], rfl, .cons rfl .nil, fun _ _ _ _ => rfl⟩
  | keyword k =>
    cases k <;> first
      | cases ht
        done
      | cases h
        exact ⟨[_], rfl, .cons rfl .nil, fun _ _ _ _ => rfl⟩
  | template raw =>
    obtain ⟨⟨head, parts⟩, hparts, hlast⟩ := bind_eq_ok.1 h
    cases hlast
    simp only [Stream.weight, Lexeme.weight] at hs
    have hagain := templateParts_carried hr (by omega) hparts
    exact ⟨[_], rfl, .cons rfl .nil, fun _ _ _ _ => bind_eq_ok.2 ⟨_, hagain, rfl⟩⟩
  | punct p =>
    cases p <;> first
      | cases ht
        done
      | skip
    case openBracket =>
      obtain ⟨⟨⟨es, stop⟩, s₁⟩, hes, hlast⟩ := bind_eq_ok.1 h
      cases hlast
      obtain ⟨ts, rfl, hts, hread⟩ := (elements_carried hr hrest hes).sized fun v => Nat.le_succ _
      exact ⟨⟨.punct .openBracket, span⟩ :: ts, rfl, hts.cons rfl, fun _ u _ _ =>
        bind_eq_ok.2 ⟨_, hread _ u (Nat.le_refl _) trivial, rfl⟩⟩
    case openBrace =>
      obtain ⟨⟨⟨fs, stop⟩, s₁⟩, hfs, hlast⟩ := bind_eq_ok.1 h
      cases hlast
      obtain ⟨ts, rfl, hts, hread⟩ :=
        (fields_carried hr (Nat.le_of_lt hrest) hfs).sized fun v => Nat.le_succ _
      exact ⟨⟨.punct .openBrace, span⟩ :: ts, rfl, hts.cons rfl, fun _ u _ _ =>
        bind_eq_ok.2 ⟨_, hread _ u (Nat.le_refl _) trivial, rfl⟩⟩

/-- A name is a name or the parameter of a function, which an arrow after it tells. -/
theorem arrowFollows_eq_ok {follows : Bool} (h : arrowFollows s = .ok follows) :
    follows = isArrow s := by
  unfold arrowFollows at h
  split at h
  · cases h
  · cases h
    rfl
  · rename_i harrow
    cases h
    rw [eq_comm, Bool.eq_false_iff]
    intro hs
    obtain ⟨span, rest, rfl⟩ := eq_of_isArrow hs
    exact harrow _ _ rfl

theorem arrowFollows_alike (h : s.Alike u) : arrowFollows u = .ok (isArrow s) := by
  rw [← isArrow_alike h]
  cases hu : arrowFollows u with
  | ok follows => rw [arrowFollows_eq_ok hu]
  | error e =>
    unfold arrowFollows at hu
    split at hu
    · exact absurd rfl h.ne_bad
    · cases hu
    · cases hu

theorem primary_carried (hr : r.Carries r' w) (hs : s.weight ≤ w) {e : Expr}
    (h : primary r s = .ok (e, s')) :
    Carried ParensMatch (fun _ => primary r') s'.Alike e s s' := by
  cases s with
  | done | bad =>
    unfold primary at h
    exact absurd h reject_ne_ok
  | next t rest =>
    by_cases hliteral : beginsLiteral t.lexeme = true
    · exact (literal_carried hr hs hliteral h).mono fun _ _ => trivial
    have hrest := Nat.lt_of_lt_of_le (Stream.weight_lt_next t rest) hs
    obtain ⟨lexeme, span⟩ := t
    unfold primary at h
    dsimp only at h
    split at h
    · rename_i name
      obtain ⟨follows, hfollows, hbody⟩ := bind_eq_ok.1 h
      obtain rfl := arrowFollows_eq_ok hfollows
      split_ifs at hbody with harrow
      · obtain ⟨ts, rfl, hts, hread⟩ := arrowTail_carried hr (Nat.le_of_lt hrest) hbody
        refine ⟨⟨.ident name, span⟩ :: ts, rfl, hts.cons rfl, fun _ u _ hu => ?_⟩
        refine bind_eq_ok.2 ⟨_, arrowFollows_alike (hu.after ts), ?_⟩
        rw [if_pos harrow]
        exact hread _ u (Nat.le_refl _) hu
      · cases hbody
        refine ⟨[_], rfl, .cons rfl .nil, fun _ u _ hu => ?_⟩
        refine bind_eq_ok.2 ⟨_, arrowFollows_alike hu, ?_⟩
        rw [if_neg harrow]
        rfl
    case h_11 =>
      split_ifs at h with harrow
      · obtain ⟨⟨ps, s₁⟩, hps, htail⟩ := bind_eq_ok.1 h
        obtain ⟨ts, rfl, hts, hread⟩ := (parameters_carried hr hrest hps).sized fun v => Nat.le_succ _
        have hweight := Nat.le_trans (Stream.weight_le_after ts s₁) (Nat.le_of_lt hrest)
        obtain ⟨us, rfl, hus, hlater⟩ := arrowTail_carried hr hweight htail
        rw [hts.arrowAfterParen_eq] at harrow
        refine ⟨⟨.punct .openParen, span⟩ :: ts ++ us,
          (Stream.after_append (⟨.punct .openParen, span⟩ :: ts) us s').symm,
          (hts.parens span).append hus, fun _ u _ hu => ?_⟩
        have harrow' : arrowAfterParen 0 ((u.after us).after ts) = true := by
          rw [hts.arrowAfterParen_eq, isArrow_alike (hu.after us), harrow]
        rw [Stream.after_append]
        change primary r' (.next ⟨.punct .openParen, span⟩ ((u.after us).after ts)) = _
        unfold primary
        dsimp only
        rw [if_pos harrow']
        exact bind_eq_ok.2 ⟨_, hread _ _ (Nat.le_refl _) trivial, hlater _ u (Nat.le_refl _) hu⟩
      · obtain ⟨ts, rfl, hts, hread⟩ := parenTail_carried hr hrest h
        rw [hts.arrowAfterParen_eq] at harrow
        refine ⟨⟨.punct .openParen, span⟩ :: ts, rfl, hts.parens span, fun _ u _ hu => ?_⟩
        have harrow' : ¬ arrowAfterParen 0 (u.after ts) = true := by
          rwa [hts.arrowAfterParen_eq, isArrow_alike hu]
        change primary r' (.next ⟨.punct .openParen, span⟩ (u.after ts)) = _
        unfold primary
        dsimp only
        rw [if_neg harrow']
        exact hread _ u (Nat.le_refl _) trivial
    case h_12 => exact absurd h reject_ne_ok
    all_goals exact absurd rfl hliteral

theorem postfixed_carried (hr : r.Carries r' w) (hs : s.weight ≤ w) {e : Expr}
    (h : postfixed r s = .ok (e, s')) :
    Carried ParensMatch (fun _ => postfixed r') s'.Alike e s s' := by
  obtain ⟨⟨first, s₁⟩, hfirst, hmore⟩ := bind_eq_ok.1 h
  have hprimary := primary_carried hr hs hfirst
  obtain ⟨ts, rfl, -, -⟩ := id hprimary
  have hlater := suffixes_carried hr (Nat.le_trans (Stream.weight_le_after ts s₁) hs)
    (Nat.lt_succ_self _) hmore
  exact hprimary.seq (g := fun e s => suffixes r' (s.size + 1) e s)
    (hlater.sized fun v => Nat.le_succ _)

theorem isParen_of_unaryOp {lexeme : Lexeme} {op : UnaryOp} (h : unaryOp? lexeme = some op) :
    isParen lexeme = false := by
  cases lexeme with
  | punct p => cases p <;> first | rfl | cases h
  | ident | keyword | text | number | template => rfl

theorem unary_eq_postfixed (h : ∀ t rest, s = .next t rest → unaryOp? t.lexeme = none) :
    unary r s = postfixed r s := by
  cases s with
  | done | bad => rfl
  | next t rest => rw [unary, h t rest rfl]

theorem unaryOp_alike (h : s.Alike u) (hs : ∀ t rest, s = .next t rest → unaryOp? t.lexeme = none) :
    ∀ t rest, u = .next t rest → unaryOp? t.lexeme = none := by
  rintro t rest rfl
  cases h with
  | same t rest' rest => exact hs t rest' rfl
  | closed _ hu =>
    obtain ⟨lexeme, span⟩ := t
    cases lexeme with
    | punct p => cases p <;> first | rfl | cases hu
    | ident | keyword | text | number | template => cases hu

/-- An operand without an operator in front of it. -/
theorem unary_carried_of_free (hr : r.Carries r' w) (hs : s.weight ≤ w)
    (hfree : ∀ t rest, s = .next t rest → unaryOp? t.lexeme = none) {e : Expr}
    (h : unary r s = .ok (e, s')) :
    Carried ParensMatch (fun _ => unary r') s'.Alike e s s' := by
  rw [unary_eq_postfixed hfree] at h
  obtain ⟨ts, rfl, hts, hread⟩ := postfixed_carried hr hs h
  refine ⟨ts, rfl, hts, fun m u hm hu => ?_⟩
  change unary r' (u.after ts) = _
  rw [unary_eq_postfixed (unaryOp_alike (hu.after ts) hfree)]
  exact hread m u hm hu

theorem unary_carried (hr : r.Carries r' w) (hs : s.weight ≤ w) {e : Expr}
    (h : unary r s = .ok (e, s')) :
    Carried ParensMatch (fun _ => unary r') s'.Alike e s s' := by
  induction s generalizing e with
  | done | bad => exact unary_carried_of_free hr hs (fun _ _ heq => by cases heq) h
  | next t rest ih =>
    cases hop : unaryOp? t.lexeme with
    | none =>
      refine unary_carried_of_free hr hs (fun _ _ heq => ?_) h
      obtain ⟨rfl, -⟩ := Stream.next.inj heq
      exact hop
    | some op =>
      simp only [unary, hop] at h
      obtain ⟨⟨inner, s₁⟩, hinner, hlast⟩ := bind_eq_ok.1 h
      cases hlast
      obtain ⟨ts, rfl, hts, hread⟩ :=
        ih (Nat.le_trans (Nat.le_of_lt (Stream.weight_lt_next t rest)) hs) hinner
      refine ⟨t :: ts, rfl, hts.cons (isParen_of_unaryOp hop), fun _ u _ hu => ?_⟩
      simp only [Stream.after_cons, unary, hop]
      exact bind_eq_ok.2 ⟨_, hread _ u (Nat.le_refl _) hu, rfl⟩

/-- An operator at the head of a stream is a mark that ends no expression. -/
theorem operatorAt_eq_some {level : Nat} {op : BinaryOp} {rest : Stream}
    (h : operatorAt level s = some (op, rest)) :
    ∃ p span, s = .next ⟨.punct p, span⟩ rest ∧ binaryOp? p = some op ∧ op.level = level := by
  unfold operatorAt at h
  split at h
  · rename_i p span rest
    split at h
    · rename_i hop
      split_ifs at h with hlevel
      cases h
      exact ⟨p, span, rfl, hop, hlevel⟩
    · cases h
  · cases h

theorem operatorAt_next {p : Punct} {op : BinaryOp} (hop : binaryOp? p = some op) (span : Span)
    (rest : Stream) : operatorAt op.level (.next ⟨.punct p, span⟩ rest) = some (op, rest) := by
  simp only [operatorAt, hop, if_true]

theorem not_closing_of_binaryOp {p : Punct} {op : BinaryOp} (hop : binaryOp? p = some op) :
    p ∉ Stream.closing := by
  cases p <;> first | decide | cases hop

theorem operatorAt_alike {level : Nat} (h : s.Alike u) (hs : operatorAt level s = none) :
    operatorAt level u = none := by
  cases hu : operatorAt level u with
  | none => rfl
  | some found =>
    obtain ⟨p, span, rfl, hop, rfl⟩ := operatorAt_eq_some hu
    obtain ⟨rest, rfl⟩ := h.of_punct (not_closing_of_binaryOp hop)
    rw [operatorAt_next hop] at hs
    cases hs

theorem chain_settles {f : Stream → Except ExprError (WithRest Expr)} {level : Nat}
    (h : operatorAt level s = none) (n : Nat) (left : Expr) : chain f level n left s = settle left s := by
  cases n with
  | zero => rfl
  | succ n => rw [chain, h]

/-- A chain that has come to its end. -/
theorem chain_carried_of_none {f' : Stream → Except ExprError (WithRest Expr)} {level : Nat}
    (hnone : operatorAt level s = none) {left e : Expr} (h : settle left s = .ok (e, s')) :
    Carried ParensMatch (fun m => chain f' level m left) s'.Alike e s s' := by
  obtain rfl := settle_eq_ok h
  obtain rfl := settle_value h
  refine ⟨[], rfl, .nil, fun m u _ hu => ?_⟩
  exact (chain_settles (operatorAt_alike hu hnone) m e).trans (settle_alike e hu)

theorem chain_carried {f g : Stream → Except ExprError (WithRest Expr)} {level : Nat}
    (hf : ∀ {s s' : Stream} {e : Expr}, s.weight ≤ w → f s = .ok (e, s') →
      Carried ParensMatch (fun _ => g) s'.Alike e s s')
    (hs : s.weight ≤ w) (hn : s.size ≤ n) {left e : Expr}
    (h : chain f level n left s = .ok (e, s')) :
    Carried ParensMatch (fun m => chain g level m left) s'.Alike e s s' := by
  induction n generalizing s left with
  | zero =>
    refine chain_carried_of_none ?_ h
    cases s with
    | next t rest => cases hn
    | done | bad => rfl
  | succ n ih =>
    cases hop : operatorAt level s with
    | none =>
      rw [chain_settles hop] at h
      exact chain_carried_of_none hop h
    | some found =>
      obtain ⟨op, rest⟩ := found
      rw [chain, hop] at h
      obtain ⟨⟨right, s₁⟩, hright, hmore⟩ := bind_eq_ok.1 h
      obtain ⟨p, span, rfl, hp, rfl⟩ := operatorAt_eq_some hop
      have hrest := Nat.le_trans (Nat.le_of_lt (Stream.weight_lt_next _ rest)) hs
      obtain ⟨ts, rfl, hts, hread⟩ := hf hrest hright
      have hsize := Stream.size_after ts s₁
      simp only [Stream.size] at hn
      obtain ⟨us, rfl, hus, hlater⟩ :=
        ih (Nat.le_trans (Stream.weight_le_after ts s₁) hrest) (by omega) hmore
      have hparen : isParen (.punct p) = false := by
        cases p <;> first | rfl | cases hp
      refine ⟨⟨.punct p, span⟩ :: ts ++ us, (Stream.after_append (⟨.punct p, span⟩ :: ts) us s').symm,
        (ParensMatch.cons hparen hts).append hus, fun m u hm hu => ?_⟩
      obtain ⟨m, rfl, hle⟩ := exists_steps [] hm
      rw [List.append_eq, List.length_append] at hle
      rw [Stream.after_append, Stream.after_cons]
      change chain g op.level (m + 1) left _ = _
      rw [chain, operatorAt_next hp]
      refine bind_eq_ok.2 ⟨_, hread _ _ (Nat.le_refl _) (hu.after us), hlater m u (by omega) hu⟩

theorem binary_carried (hr : r.Carries r' w) {k : Nat} (hs : s.weight ≤ w) {e : Expr}
    (h : binary r k s = .ok (e, s')) :
    Carried ParensMatch (fun _ => binary r' k) s'.Alike e s s' := by
  induction k generalizing s s' e with
  | zero => exact unary_carried hr hs h
  | succ k ih =>
    obtain ⟨⟨left, s₁⟩, hleft, hmore⟩ := bind_eq_ok.1 h
    have hfirst := ih hs hleft
    obtain ⟨ts, rfl, -, -⟩ := id hfirst
    have hlater := chain_carried (g := binary r' k) (fun hs h => ih hs h)
      (Nat.le_trans (Stream.weight_le_after ts s₁) hs) (Nat.le_refl _) hmore
    exact hfirst.seq (g := fun left s => chain (binary r' k) (7 - k) s.size left s)
      (hlater.sized fun v => Nat.le_refl _)

theorem conditional_carried (hr : r.Carries r' w) (hs : s.weight ≤ w) {e : Expr}
    (h : conditional r s = .ok (e, s')) :
    Carried ParensMatch (fun _ => conditional r') s'.Alike e s s' := by
  obtain ⟨⟨condition, s₁⟩, hcondition, htail⟩ := bind_eq_ok.1 h
  obtain ⟨ts, rfl, hts, hread⟩ := binary_carried hr hs hcondition
  dsimp only at htail
  split at htail
  · rename_i question rest
    obtain ⟨⟨yes, s₂⟩, hyes, hbranch⟩ := bind_eq_ok.1 htail
    have hrest := Nat.lt_of_lt_of_le (Stream.weight_lt_after_next ts _ rest) hs
    obtain ⟨us, rfl, hus, hreadYes⟩ := hr.expr hrest hyes
    dsimp only at hbranch
    split at hbranch
    · rename_i colon rest
      obtain ⟨⟨no, s₃⟩, hno, hlast⟩ := bind_eq_ok.1 hbranch
      cases hlast
      obtain ⟨vs, rfl, hvs, hreadNo⟩ :=
        hr.expr (Nat.lt_trans (Stream.weight_lt_after_next us _ rest) hrest) hno
      refine ⟨ts ++ ⟨.punct .question, question⟩ :: (us ++ ⟨.punct .colon, colon⟩ :: vs), ?_,
        hts.append (.cons rfl (hus.append (.cons rfl hvs))), fun _ u _ hu => ?_⟩
      · rw [Stream.after_append_cons, Stream.after_append_cons]
      · rw [Stream.after_append_cons, Stream.after_append_cons]
        refine bind_eq_ok.2 ⟨_, hread _ _ (Nat.le_refl _) (.same _ _ _), ?_⟩
        refine bind_eq_ok.2 ⟨_, hreadYes _ _ (Nat.le_refl _) (.same _ _ _), ?_⟩
        exact bind_eq_ok.2 ⟨_, hreadNo _ u (Nat.le_refl _) hu, rfl⟩
    · exact absurd hbranch reject_ne_ok
  · rename_i hquestion
    cases htail
    refine ⟨ts, rfl, hts, fun _ u _ hu => ?_⟩
    refine bind_eq_ok.2 ⟨_, hread _ u (Nat.le_refl _) hu, ?_⟩
    dsimp only
    split
    · obtain ⟨rest, rfl⟩ := hu.of_punct (by decide)
      exact absurd rfl (hquestion _ _)
    · rfl

/-! ### Patterns -/

theorem patternElements_carried (hr : r.Carries r' w) (hs : s.weight < w)
    {x : List (Option Pattern) × Span} (h : patternElements r n s = .ok (x, s')) :
    Carried ParensMatch (patternElements r') (fun _ => True) x s s' := by
  induction n generalizing s x s' with
  | zero => exact absurd h reject_ne_ok
  | succ n ih =>
    unfold patternElements at h
    split at h
    · rename_i span rest
      cases h
      refine ⟨[⟨.punct .closeBracket, span⟩], rfl, .cons rfl .nil, fun m u hm _ => ?_⟩
      obtain ⟨m, rfl, -⟩ := exists_steps [] hm
      rfl
    · rename_i span rest
      obtain ⟨⟨⟨more, stop⟩, s₂⟩, hmore, hlast⟩ := bind_eq_ok.1 h
      cases hlast
      obtain ⟨us, rfl, hus, hreadMore⟩ := ih (Nat.lt_trans (Stream.weight_lt_next _ rest) hs) hmore
      refine ⟨⟨.punct .comma, span⟩ :: us, rfl, .cons rfl hus, fun m u hm _ => ?_⟩
      obtain ⟨m, rfl, hle⟩ := exists_steps [] hm
      exact bind_eq_ok.2 ⟨_, hreadMore m u hle trivial, rfl⟩
    · rename_i hclose hcomma
      obtain ⟨⟨p, s₁⟩, hp, htail⟩ := bind_eq_ok.1 h
      obtain ⟨ts, rfl, hts, hread⟩ := hr.pattern hs hp
      dsimp only at htail
      split at htail
      · rename_i span rest
        obtain ⟨⟨⟨more, stop⟩, s₂⟩, hmore, hlast⟩ := bind_eq_ok.1 htail
        cases hlast
        obtain ⟨us, rfl, hus, hreadMore⟩ :=
          ih (Nat.lt_trans (Stream.weight_lt_after_next ts _ _) hs) hmore
        refine ⟨ts ++ ⟨.punct .comma, span⟩ :: us, (Stream.after_append_cons ..).symm,
          hts.append (.cons rfl hus), fun m u hm _ => ?_⟩
        obtain ⟨m, rfl, hle⟩ := exists_steps _ hm
        rw [Stream.after_append_cons, patternElements]
        · refine bind_eq_ok.2 ⟨_, hread _ _ (Nat.le_refl _) (.same _ _ _), ?_⟩
          exact bind_eq_ok.2 ⟨_, hreadMore m u hle trivial, rfl⟩
        · exact Stream.after_next_ne hclose _
        · exact Stream.after_next_ne hcomma _
      · rename_i span rest
        cases htail
        refine ⟨ts ++ [⟨.punct .closeBracket, span⟩], (Stream.after_snoc ..).symm, hts.snoc rfl,
          fun m u hm _ => ?_⟩
        obtain ⟨m, rfl, -⟩ := exists_steps _ hm
        rw [Stream.after_snoc, patternElements]
        · exact bind_eq_ok.2 ⟨_, hread _ _ (Nat.le_refl _) (.same _ _ _), rfl⟩
        · exact Stream.after_next_ne hclose _
        · exact Stream.after_next_ne hcomma _
      · exact absurd htail reject_ne_ok

/-- The pattern of a property: a key that stands for itself is read once more, as a pattern. -/
theorem propertyValue_carried (hr : r.Carries r' w) {key : ExprToken} {name : String}
    (hkey : fieldName? key.lexeme = some name) (hs : (Stream.next key s).weight < w)
    {p : Pattern} (hread : s' ≠ .next key s) (h : propertyValue r key s = .ok (p, s')) :
    Carried ParensMatch (fun _ => propertyValue r' key) s'.SameHead p s s' := by
  unfold propertyValue at h
  split at h
  · cases h
  · rename_i span more
    simp only [Stream.weight] at hs
    obtain ⟨ts, rfl, hts, hagain⟩ := hr.pattern (by omega) h
    refine ⟨⟨.punct .colon, span⟩ :: ts, rfl, .cons rfl hts, fun _ u _ hu => ?_⟩
    obtain ⟨t, rest, rest', rfl, rfl⟩ := hu
    exact hagain _ _ (Nat.le_refl _) (.same _ _ _)
  · rename_i hbad hcolon
    split at h
    · rename_i ident hident
      obtain ⟨ts, heq, hts, hagain⟩ := hr.pattern hs h
      cases ts with
      | nil => exact absurd heq.symm hread
      | cons t ts =>
        obtain ⟨rfl, rfl⟩ := Stream.next.inj heq
        rw [parensMatch_cons (isParen_of_fieldName hkey)] at hts
        refine ⟨ts, rfl, hts, fun _ u _ hu => ?_⟩
        obtain ⟨t, rest, rest', rfl, rfl⟩ := hu
        change propertyValue r' key _ = _
        rw [propertyValue, hident]
        · exact hagain _ _ (Nat.le_refl _) (.same _ _ _)
        · cases ts <;> exact fun _ heq => by cases heq
        · exact Stream.after_next_ne hcolon _
    · cases h

theorem properties_carried (hr : r.Carries r' w) (hs : s.weight < w)
    {x : List (String × Pattern) × Span} (h : properties r n s = .ok (x, s')) :
    Carried ParensMatch (properties r') (fun _ => True) x s s' := by
  induction n generalizing s x s' with
  | zero => exact absurd h reject_ne_ok
  | succ n ih =>
    unfold properties at h
    split at h
    · rename_i span rest
      cases h
      refine ⟨[⟨.punct .closeBrace, span⟩], rfl, .cons rfl .nil, fun m u hm _ => ?_⟩
      obtain ⟨m, rfl, -⟩ := exists_steps [] hm
      rfl
    · rename_i key front hclose
      split at h
      · exact absurd h reject_ne_ok
      · rename_i name hname
        obtain ⟨⟨p, s₁⟩, hp, htail⟩ := bind_eq_ok.1 h
        have hparen := isParen_of_fieldName hname
        dsimp only at htail
        split at htail
        · rename_i span rest
          have hread : Stream.next ⟨.punct .comma, span⟩ rest ≠ .next key front := by
            intro heq
            obtain ⟨rfl, -⟩ := Stream.next.inj heq
            cases hname
          obtain ⟨ts, rfl, hts, hread⟩ := propertyValue_carried hr hname hs hread hp
          obtain ⟨⟨⟨more, stop⟩, s₂⟩, hmore, hlast⟩ := bind_eq_ok.1 htail
          cases hlast
          have hlater := Stream.weight_lt_after_next (key :: ts) ⟨.punct .comma, span⟩ rest
          obtain ⟨us, rfl, hus, hreadMore⟩ := ih (Nat.lt_trans hlater hs) hmore
          refine ⟨key :: ts ++ ⟨.punct .comma, span⟩ :: us,
            (Stream.after_append_cons (key :: ts) _ us _).symm,
            (hts.cons hparen).append (.cons rfl hus), fun m u hm _ => ?_⟩
          obtain ⟨m, rfl, hle⟩ := exists_steps _ hm
          rw [Stream.after_append_cons, Stream.after_cons, properties.eq_3 _ _ _ _ hclose, hname]
          refine bind_eq_ok.2 ⟨_, hread _ _ (Nat.le_refl _) ⟨_, _, _, rfl, rfl⟩, ?_⟩
          exact bind_eq_ok.2 ⟨_, hreadMore m u hle trivial, rfl⟩
        · rename_i span rest
          have hread : Stream.next ⟨.punct .closeBrace, span⟩ rest ≠ .next key front := by
            intro heq
            obtain ⟨rfl, -⟩ := Stream.next.inj heq
            cases hname
          obtain ⟨ts, rfl, hts, hread⟩ := propertyValue_carried hr hname hs hread hp
          cases htail
          refine ⟨key :: ts ++ [⟨.punct .closeBrace, span⟩], by rw [Stream.after_snoc]; rfl,
            (hts.cons hparen).snoc rfl, fun m u hm _ => ?_⟩
          obtain ⟨m, rfl, -⟩ := exists_steps _ hm
          rw [Stream.after_snoc, Stream.after_cons, properties.eq_3 _ _ _ _ hclose, hname]
          exact bind_eq_ok.2 ⟨_, hread _ _ (Nat.le_refl _) ⟨_, _, _, rfl, rfl⟩, rfl⟩
        · exact absurd htail reject_ne_ok
    · exact absurd h reject_ne_ok

theorem plainPattern_carried (hr : r.Carries r' w) (hs : s.weight ≤ w) {p : Pattern}
    (h : plainPattern r s = .ok (p, s')) :
    Carried ParensMatch (fun _ => plainPattern r') (fun _ => True) p s s' := by
  unfold plainPattern at h
  split at h
  · cases h
    exact ⟨[_], rfl, .cons rfl .nil, fun _ _ _ _ => rfl⟩
  · rename_i span rest
    have hrest := Nat.lt_of_lt_of_le (Stream.weight_lt_next _ rest) hs
    obtain ⟨⟨⟨ps, stop⟩, s₁⟩, hps, hlast⟩ := bind_eq_ok.1 h
    cases hlast
    obtain ⟨ts, rfl, hts, hread⟩ := (patternElements_carried hr hrest hps).sized fun v => Nat.le_succ _
    exact ⟨⟨.punct .openBracket, span⟩ :: ts, rfl, hts.cons rfl, fun _ u _ _ =>
      bind_eq_ok.2 ⟨_, hread _ u (Nat.le_refl _) trivial, rfl⟩⟩
  · rename_i span rest
    have hrest := Nat.lt_of_lt_of_le (Stream.weight_lt_next _ rest) hs
    obtain ⟨⟨⟨ps, stop⟩, s₁⟩, hps, hlast⟩ := bind_eq_ok.1 h
    cases hlast
    obtain ⟨ts, rfl, hts, hread⟩ := (properties_carried hr hrest hps).sized fun v => Nat.le_succ _
    exact ⟨⟨.punct .openBrace, span⟩ :: ts, rfl, hts.cons rfl, fun _ u _ _ =>
      bind_eq_ok.2 ⟨_, hread _ u (Nat.le_refl _) trivial, rfl⟩⟩
  · exact absurd h reject_ne_ok

theorem pattern_carried (hr : r.Carries r' w) (hs : s.weight ≤ w) {p : Pattern}
    (h : pattern r s = .ok (p, s')) :
    Carried ParensMatch (fun _ => pattern r') s'.Alike p s s' := by
  obtain ⟨⟨target, s₁⟩, htarget, htail⟩ := bind_eq_ok.1 h
  obtain ⟨ts, rfl, hts, hread⟩ := plainPattern_carried hr hs htarget
  dsimp only at htail
  split at htail
  · rename_i span rest
    obtain ⟨⟨value, s₂⟩, hvalue, hlast⟩ := bind_eq_ok.1 htail
    cases hlast
    have hrest := Nat.lt_of_lt_of_le (Stream.weight_lt_after_next ts _ rest) hs
    obtain ⟨us, rfl, hus, hreadValue⟩ := hr.expr hrest hvalue
    refine ⟨ts ++ ⟨.punct .equals, span⟩ :: us, (Stream.after_append_cons ..).symm,
      hts.append (.cons rfl hus), fun _ u _ hu => ?_⟩
    rw [Stream.after_append_cons]
    refine bind_eq_ok.2 ⟨_, hread _ _ (Nat.le_refl _) trivial, ?_⟩
    exact bind_eq_ok.2 ⟨_, hreadValue _ u (Nat.le_refl _) hu, rfl⟩
  · rename_i hequals
    obtain rfl := settle_eq_ok htail
    obtain rfl := settle_value htail
    refine ⟨ts, rfl, hts, fun _ u _ hu => ?_⟩
    refine bind_eq_ok.2 ⟨_, hread _ u (Nat.le_refl _) trivial, ?_⟩
    dsimp only
    split
    · obtain ⟨rest, rfl⟩ := hu.of_punct (by decide)
      exact absurd rfl (hequals _ _)
    · exact settle_alike _ hu

end Grammar

/-- Rules of any depth read no more than rules as deep as the stream is heavy. -/
theorem Rules.upTo_carries (n m : Nat) : (Rules.upTo n).Carries (Rules.upTo m) m := by
  induction m generalizing n with
  | zero => exact ⟨fun hs => absurd hs (Nat.not_lt_zero _), fun hs => absurd hs (Nat.not_lt_zero _)⟩
  | succ m ih =>
    cases n with
    | zero =>
      exact ⟨fun _ h => absurd h Grammar.reject_ne_ok, fun _ h => absurd h Grammar.reject_ne_ok⟩
    | succ n =>
      exact ⟨fun hs h => Grammar.conditional_carried (ih n) (Nat.le_of_lt_succ hs) h,
        fun hs h => Grammar.pattern_carried (ih n) (Nat.le_of_lt_succ hs) h⟩

end LiveTemplate
