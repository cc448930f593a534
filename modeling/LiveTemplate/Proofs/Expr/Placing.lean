import LiveTemplate.Proofs.Expr.Passing
import LiveTemplate.Proofs.Expr.Phrases

/-!
Every rule of the grammar makes placed phrases out of tokens that lie in a source. What a rule reads
begins at or behind the tokens it is given, and the tokens it leaves lie behind what it read.
-/

namespace LiveTemplate

set_option autoImplicit false

/-- A phrase read from `p` on, and the tokens left. -/
structure Stream.ReadsOne (source : Source) (stop p : Int) (q : Phrase) (s : Stream) : Prop where
  placed : q.Placed source
  start : p ≤ q.span.start
  ordered : q.span.start ≤ q.span.stop
  rest : s.Laid source stop q.span.stop

/-- Phrases read between two offsets, and the tokens left. -/
structure Stream.ReadsAll (source : Source) (stop p : Int) (qs : List Phrase) (last : Int)
    (s : Stream) : Prop where
  placed : ∀ q ∈ qs, q.Placed source
  within : ∀ q ∈ qs, q.span.Inside ⟨p, last⟩
  ordered : p ≤ last
  rest : s.Laid source stop last

namespace Stream

variable {source : Source} {stop p p' last : Int} {q : Phrase} {qs : List Phrase} {s s' : Stream}

theorem ReadsOne.mono (h : ReadsOne source stop p q s) (hle : p' ≤ p) : ReadsOne source stop p' q s :=
  { h with start := Int.le_trans hle h.start }

/-- A phrase is read from its own start on. -/
theorem ReadsOne.own (h : ReadsOne source stop p q s) : ReadsOne source stop q.span.start q s :=
  { h with start := Int.le_refl _ }

theorem ReadsOne.le_stop (h : ReadsOne source stop p q s) : q.span.stop ≤ stop := h.rest.le_stop

/-- A leaf of the grammar: a phrase that is one token. -/
theorem ReadsOne.token {t : ExprToken} (h : (Stream.next t s).Laid source stop p)
    (hplaced : q.Placed source) (hspan : q.span = t.span) : ReadsOne source stop p q s := by
  obtain ⟨hstart, hle, -, hrest⟩ := h
  refine ⟨hplaced, ?_, ?_, ?_⟩ <;> rwa [hspan]

namespace ReadsAll

theorem nil (hle : p ≤ last) (h : s.Laid source stop last) : ReadsAll source stop p [] last s :=
  ⟨by simp, by simp, hle, h⟩

theorem cons (h : ReadsOne source stop p q s) (hle : q.span.stop ≤ p')
    (h' : ReadsAll source stop p' qs last s') : ReadsAll source stop p (q :: qs) last s' where
  placed := List.forall_mem_cons.2 ⟨h.placed, h'.placed⟩
  within := by
    have hstart : p ≤ p' := Int.le_trans h.start (Int.le_trans h.ordered hle)
    rw [List.forall_mem_cons]
    refine ⟨⟨h.start, Int.le_trans hle h'.ordered⟩, fun r hr => ?_⟩
    exact ⟨Int.le_trans hstart (h'.within r hr).1, (h'.within r hr).2⟩
  ordered := Int.le_trans h.start (Int.le_trans h.ordered (Int.le_trans hle h'.ordered))
  rest := h'.rest

/-- A row of phrases and one that is read behind it. -/
theorem snoc (h : ReadsAll source stop p qs last s) (hle : last ≤ p')
    (h' : ReadsOne source stop p' q s') : ReadsAll source stop p (qs ++ [q]) q.span.stop s' where
  placed := by
    rw [List.forall_mem_append, List.forall_mem_singleton]
    exact ⟨h.placed, h'.placed⟩
  within := by
    have hlast : last ≤ q.span.start := Int.le_trans hle h'.start
    rw [List.forall_mem_append, List.forall_mem_singleton]
    refine ⟨fun r hr => ⟨(h.within r hr).1, ?_⟩, Int.le_trans h.ordered hlast, Int.le_refl _⟩
    exact Int.le_trans (h.within r hr).2 (Int.le_trans hlast h'.ordered)
  ordered := Int.le_trans h.ordered (Int.le_trans hle (Int.le_trans h'.start h'.ordered))
  rest := h'.rest

/-- The last phrase of a row, and a token after it. -/
theorem closed {t : ExprToken} (h : ReadsOne source stop p q (.next t s)) :
    ReadsAll source stop p [q] t.span.stop s :=
  cons h (Int.le_trans h.rest.1 h.rest.2.1) (nil (Int.le_refl _) h.rest.2.2.2)

/-- A phrase at the end of what it is part of. -/
theorem single (h : ReadsOne source stop p q s) : ReadsAll source stop p [q] q.span.stop s :=
  cons h (Int.le_refl _) (nil (Int.le_refl _) h.rest)

theorem mono (h : ReadsAll source stop p qs last s) (hle : p' ≤ p) :
    ReadsAll source stop p' qs last s where
  placed := h.placed
  within r hr := ⟨Int.le_trans hle (h.within r hr).1, (h.within r hr).2⟩
  ordered := Int.le_trans hle h.ordered
  rest := h.rest

/-- A phrase that spells no name is placed around the phrases it is made of. -/
theorem node {start : Int} (h : ReadsAll source stop p' qs last s) (hspelled : q.Spelled source)
    (hchildren : q.children = qs) (hspan : q.span = ⟨start, last⟩) (hp : p ≤ start)
    (hstart : start ≤ p') : ReadsOne source stop p q s := by
  refine ⟨.intro hspelled fun c hc => ?_, ?_, ?_, ?_⟩
  · rw [hchildren] at hc
    rw [hspan]
    exact ⟨h.placed c hc, Int.le_trans hstart (h.within c hc).1, (h.within c hc).2⟩
  · rwa [hspan]
  · rw [hspan]
    exact Int.le_trans hstart h.ordered
  · rw [hspan]
    exact h.rest

end ReadsAll

/-- A phrase with no token behind it is all there is up to the end. -/
theorem ReadsOne.upToEnd {offset : Int} (h : ReadsOne source stop p q (.done offset)) :
    ReadsAll source stop p [q] stop (.done offset) := by
  have hdone : (Stream.done offset).Laid source stop stop := Int.le_refl stop
  exact .cons h h.le_stop (.nil (Int.le_refl stop) hdone)

end Stream

/-- The rules that nested brackets lead back to read placed phrases. -/
structure Rules.Place (r : Rules) (source : Source) : Prop where
  expr : ∀ {stop p : Int} {s s' : Stream} {e : Expr}, s.Laid source stop p →
    r.expr s = .ok (e, s') → Stream.ReadsOne source stop p (.expr e) s'
  pattern : ∀ {stop p : Int} {s s' : Stream} {b : Pattern}, s.Laid source stop p →
    r.pattern s = .ok (b, s') → Stream.ReadsOne source stop p (.pattern b) s'

namespace Grammar

variable {r : Rules} {source : Source} {stop p : Int} {s s' : Stream} {span : Span}

theorem settle_value {α : Type} {x y : α} (h : settle x s = .ok (y, s')) : y = x := by
  cases s with
  | bad => simp [settle] at h
  | done | next => exact (Prod.mk.inj (Except.ok.inj h)).1.symm

theorem propertyName_laid {operator name : String} (hs : s.Laid source stop p)
    (h : propertyName operator s = .ok ((name, span), s')) :
    p ≤ span.stop ∧ s'.Laid source stop span.stop := by
  unfold propertyName at h
  split at h
  · simp only [Except.ok.injEq, Prod.mk.injEq] at h
    obtain ⟨⟨-, rfl⟩, rfl⟩ := h
    exact ⟨Int.le_trans hs.1 hs.2.1, hs.2.2.2⟩
  · simp only [Except.ok.injEq, Prod.mk.injEq] at h
    obtain ⟨⟨-, rfl⟩, rfl⟩ := h
    exact ⟨Int.le_trans hs.1 hs.2.1, hs.2.2.2⟩
  · exact absurd h reject_ne_ok

theorem keyTail_placed (hr : r.Place source) {key : Expr} (hs : s.Laid source stop p)
    (h : keyTail r s = .ok ((key, span), s')) :
    Stream.ReadsAll source stop p [.expr key] span.stop s' := by
  obtain ⟨⟨e, s₁⟩, he, h⟩ := bind_eq_ok.1 h
  have hkey := hr.expr hs he
  dsimp only at h
  split at h
  · simp only [Except.ok.injEq, Prod.mk.injEq] at h
    obtain ⟨⟨rfl, rfl⟩, rfl⟩ := h
    exact .closed hkey
  · exact absurd h reject_ne_ok

theorem moreArguments_placed (hr : r.Place source) {n : Nat} {args : List Expr}
    (hs : s.Laid source stop p) (h : moreArguments r n s = .ok ((args, span), s')) :
    Stream.ReadsAll source stop p (args.map .expr) span.stop s' := by
  induction n generalizing s p args span s' with
  | zero => exact absurd h reject_ne_ok
  | succ n ih =>
    obtain ⟨⟨arg, s₁⟩, harg, h⟩ := bind_eq_ok.1 h
    have hfirst := hr.expr hs harg
    dsimp only at h
    split at h
    · simp only [Except.ok.injEq, Prod.mk.injEq] at h
      obtain ⟨⟨rfl, rfl⟩, rfl⟩ := h
      exact .closed hfirst
    · obtain ⟨⟨⟨more, last⟩, s₂⟩, hmore, h⟩ := bind_eq_ok.1 h
      simp only [Except.ok.injEq, Prod.mk.injEq] at h
      obtain ⟨⟨rfl, rfl⟩, rfl⟩ := h
      obtain ⟨hcomma, hle, -, hrest⟩ := hfirst.rest
      exact .cons hfirst (Int.le_trans hcomma hle) (ih hrest hmore)
    · exact absurd h reject_ne_ok

theorem arguments_placed (hr : r.Place source) {args : List Expr} (hs : s.Laid source stop p)
    (h : arguments r s = .ok ((args, span), s')) :
    Stream.ReadsAll source stop p (args.map .expr) span.stop s' := by
  unfold arguments at h
  split at h
  · simp only [Except.ok.injEq, Prod.mk.injEq] at h
    obtain ⟨⟨rfl, rfl⟩, rfl⟩ := h
    exact .nil (Int.le_trans hs.1 hs.2.1) hs.2.2.2
  · exact moreArguments_placed hr hs h

/-- A suffix after an expression: the node that the two make reaches to the end of the suffix. -/
theorem suffix_placed {e e' : Expr} {qs : List Phrase} {p' : Int}
    (he : Stream.ReadsOne source stop p (.expr e) s) (hle : e.span.stop ≤ p')
    (hqs : Stream.ReadsAll source stop p' qs span.stop s')
    (hspelled : (Phrase.expr e').Spelled source)
    (hchildren : (Phrase.expr e').children = .expr e :: qs)
    (hspan : e'.span = e.span.join span) : Stream.ReadsOne source stop p (.expr e') s' :=
  (Stream.ReadsAll.cons he.own hle hqs).node hspelled hchildren hspan he.start (Int.le_refl _)

theorem suffixes_placed (hr : r.Place source) {n : Nat} {e e' : Expr}
    (he : Stream.ReadsOne source stop p (.expr e) s) (h : suffixes r n e s = .ok (e', s')) :
    Stream.ReadsOne source stop p (.expr e') s' := by
  induction n generalizing s e with
  | zero =>
    obtain rfl := settle_value h
    obtain rfl := settle_eq_ok h
    exact he
  | succ n ih =>
    unfold suffixes at h
    split at h
    · obtain ⟨⟨⟨name, last⟩, s₁⟩, hname, h⟩ := bind_eq_ok.1 h
      obtain ⟨hdot, hle, -, hrest⟩ := he.rest
      obtain ⟨hlast, hs₁⟩ := propertyName_laid hrest hname
      refine ih ?_ h
      exact suffix_placed he (Int.le_trans hdot hle) (.nil hlast hs₁) trivial rfl rfl
    · obtain ⟨⟨⟨args, last⟩, s₁⟩, hargs, h⟩ := bind_eq_ok.1 h
      obtain ⟨hdot, hle, -, hparen, hle', -, hrest⟩ := he.rest
      have hall := (arguments_placed hr hrest hargs).mono (Int.le_trans hparen hle')
      refine ih ?_ h
      exact suffix_placed he (Int.le_trans hdot hle) hall trivial rfl rfl
    · obtain ⟨⟨⟨key, last⟩, s₁⟩, hkey, h⟩ := bind_eq_ok.1 h
      obtain ⟨hdot, hle, -, hbracket, hle', -, hrest⟩ := he.rest
      have hall := (keyTail_placed hr hrest hkey).mono (Int.le_trans hbracket hle')
      refine ih ?_ h
      exact suffix_placed he (Int.le_trans hdot hle) hall trivial rfl rfl
    · obtain ⟨⟨⟨name, last⟩, s₁⟩, hname, h⟩ := bind_eq_ok.1 h
      obtain ⟨hdot, hle, -, hrest⟩ := he.rest
      obtain ⟨hlast, hs₁⟩ := propertyName_laid hrest hname
      refine ih ?_ h
      exact suffix_placed he (Int.le_trans hdot hle) (.nil hlast hs₁) trivial rfl rfl
    · obtain ⟨⟨⟨key, last⟩, s₁⟩, hkey, h⟩ := bind_eq_ok.1 h
      obtain ⟨hbracket, hle, -, hrest⟩ := he.rest
      have hall := keyTail_placed hr hrest hkey
      refine ih ?_ h
      exact suffix_placed he (Int.le_trans hbracket hle) hall trivial rfl rfl
    · obtain ⟨⟨⟨args, last⟩, s₁⟩, hargs, h⟩ := bind_eq_ok.1 h
      obtain ⟨hparen, hle, -, hrest⟩ := he.rest
      have hall := arguments_placed hr hrest hargs
      refine ih ?_ h
      exact suffix_placed he (Int.le_trans hparen hle) hall trivial rfl rfl
    · obtain rfl := settle_value h
      obtain rfl := settle_eq_ok h
      exact he

theorem elements_placed (hr : r.Place source) {n : Nat} {es : List Expr}
    (hs : s.Laid source stop p) (h : elements r n s = .ok ((es, span), s')) :
    Stream.ReadsAll source stop p (es.map .expr) span.stop s' := by
  induction n generalizing s p es span s' with
  | zero => exact absurd h reject_ne_ok
  | succ n ih =>
    unfold elements at h
    split at h
    · simp only [Except.ok.injEq, Prod.mk.injEq] at h
      obtain ⟨⟨rfl, rfl⟩, rfl⟩ := h
      exact .nil (Int.le_trans hs.1 hs.2.1) hs.2.2.2
    · obtain ⟨⟨e, s₁⟩, he, h⟩ := bind_eq_ok.1 h
      have hfirst := hr.expr hs he
      dsimp only at h
      split at h
      · obtain ⟨⟨⟨more, last⟩, s₂⟩, hmore, h⟩ := bind_eq_ok.1 h
        simp only [Except.ok.injEq, Prod.mk.injEq] at h
        obtain ⟨⟨rfl, rfl⟩, rfl⟩ := h
        obtain ⟨hcomma, hle, -, hrest⟩ := hfirst.rest
        exact .cons hfirst (Int.le_trans hcomma hle) (ih hrest hmore)
      · simp only [Except.ok.injEq, Prod.mk.injEq] at h
        obtain ⟨⟨rfl, rfl⟩, rfl⟩ := h
        exact .closed hfirst
      · exact absurd h reject_ne_ok

theorem name_placed {name : String} (h : source.slice span = name) :
    (Phrase.expr (.name name span)).Placed source := .leaf h rfl

/-- The value of a field: a field without one binds the name that its key spells. -/
theorem fieldValue_placed (hr : r.Place source) {key : ExprToken} {name : String} {e : Expr}
    (hs : (Stream.next key s).Laid source stop p) (hname : fieldName? key.lexeme = some name)
    (h : fieldValue r key name s = .ok (e, s')) : Stream.ReadsOne source stop p (.expr e) s' := by
  unfold fieldValue at h
  split at h
  · obtain ⟨hkey, hle, -, hcolon, hle', -, hrest⟩ := hs
    exact (hr.expr hrest h).mono (by omega)
  · dsimp only at h
    split_ifs at h with hshort
    · obtain ⟨rfl, rfl⟩ := Prod.mk.inj (Except.ok.inj h)
      refine .token hs (name_placed ?_) rfl
      have hstands := hs.2.2.1
      obtain ⟨lexeme, span⟩ := key
      cases lexeme with
      | ident n =>
        obtain rfl := Option.some.inj hname
        exact hstands
      | keyword | text | number | template | punct => simp at hshort
    · exact absurd h reject_ne_ok

theorem fields_placed (hr : r.Place source) {n : Nat} {fs : List (String × Expr)}
    (hs : s.Laid source stop p) (h : fields r n s = .ok ((fs, span), s')) :
    Stream.ReadsAll source stop p (fs.map fun field => .expr field.2) span.stop s' := by
  induction n generalizing s p fs span s' with
  | zero => exact absurd h reject_ne_ok
  | succ n ih =>
    unfold fields at h
    split at h
    · simp only [Except.ok.injEq, Prod.mk.injEq] at h
      obtain ⟨⟨rfl, rfl⟩, rfl⟩ := h
      exact .nil (Int.le_trans hs.1 hs.2.1) hs.2.2.2
    · split at h
      · exact absurd h reject_ne_ok
      · rename_i name hname
        obtain ⟨⟨value, s₁⟩, hvalue, h⟩ := bind_eq_ok.1 h
        have hfirst := fieldValue_placed hr hs hname hvalue
        dsimp only at h
        split at h
        · obtain ⟨⟨⟨more, last⟩, s₂⟩, hmore, h⟩ := bind_eq_ok.1 h
          simp only [Except.ok.injEq, Prod.mk.injEq] at h
          obtain ⟨⟨rfl, rfl⟩, rfl⟩ := h
          obtain ⟨hcomma, hle, -, hrest⟩ := hfirst.rest
          exact .cons hfirst (Int.le_trans hcomma hle) (ih hrest hmore)
        · simp only [Except.ok.injEq, Prod.mk.injEq] at h
          obtain ⟨⟨rfl, rfl⟩, rfl⟩ := h
          exact .closed hfirst
        · exact absurd h reject_ne_ok
    · exact absurd h reject_ne_ok

theorem parameters_placed (hr : r.Place source) {n : Nat} {ps : List Pattern}
    (hs : s.Laid source stop p) (h : parameters r n s = .ok (ps, s')) :
    ∃ last, Stream.ReadsAll source stop p (ps.map .pattern) last s' := by
  induction n generalizing s p ps with
  | zero => exact absurd h reject_ne_ok
  | succ n ih =>
    unfold parameters at h
    split at h
    · obtain ⟨rfl, rfl⟩ := Prod.mk.inj (Except.ok.inj h)
      exact ⟨_, .nil (Int.le_trans hs.1 hs.2.1) hs.2.2.2⟩
    · obtain ⟨⟨b, s₁⟩, hb, h⟩ := bind_eq_ok.1 h
      have hfirst := hr.pattern hs hb
      dsimp only at h
      split at h
      · obtain ⟨⟨more, s₂⟩, hmore, h⟩ := bind_eq_ok.1 h
        obtain ⟨rfl, rfl⟩ := Prod.mk.inj (Except.ok.inj h)
        obtain ⟨hcomma, hle, -, hrest⟩ := hfirst.rest
        obtain ⟨last, hall⟩ := ih hrest hmore
        exact ⟨last, .cons hfirst (Int.le_trans hcomma hle) hall⟩
      · obtain ⟨rfl, rfl⟩ := Prod.mk.inj (Except.ok.inj h)
        exact ⟨_, .closed hfirst⟩
      · exact absurd h reject_ne_ok

theorem arrowTail_placed (hr : r.Place source) {start p' last : Int} {params : List Pattern}
    {e : Expr} (hparams : Stream.ReadsAll source stop p' (params.map .pattern) last s)
    (hp : p ≤ start) (hstart : start ≤ p') (h : arrowTail r start params s = .ok (e, s')) :
    Stream.ReadsOne source stop p (.expr e) s' := by
  unfold arrowTail at h
  split at h
  · obtain ⟨⟨body, s₁⟩, hbody, h⟩ := bind_eq_ok.1 h
    obtain ⟨rfl, rfl⟩ := Prod.mk.inj (Except.ok.inj h)
    obtain ⟨harrow, hle, -, hrest⟩ := hparams.rest
    have hlast := hr.expr hrest hbody
    exact (hparams.snoc (Int.le_trans harrow hle) hlast).node trivial rfl rfl hp hstart
  · exact absurd h reject_ne_ok

theorem wholeExpr_placed (hr : r.Place source) {e : Expr} (hs : s.Laid source stop p)
    (h : wholeExpr r s = .ok e) :
    (Phrase.expr e).Placed source ∧ e.span.Inside ⟨p, stop⟩ := by
  unfold wholeExpr at h
  split at h
  · obtain ⟨⟨e₁, s₁⟩, he, h⟩ := bind_eq_ok.1 h
    dsimp only at h
    split at h
    · obtain rfl := Except.ok.inj h
      have hread := hr.expr hs he
      exact ⟨hread.placed, hread.start, hread.le_stop⟩
    · exact absurd h reject_ne_ok
  · exact absurd h reject_ne_ok

theorem wholeText_placed (hr : r.Place source) {cs : List Char} {base : Int} {e : Expr}
    (hat : source.HasAt cs base) (h : wholeExpr r (Stream.ofText cs base) = .ok e) :
    (Phrase.expr e).Placed source ∧ e.span.Inside ⟨base, base + Text.width cs⟩ := by
  obtain ⟨hplaced, hinside⟩ := wholeExpr_placed hr (Stream.ofText_laid hat (Int.le_refl _)) h
  exact ⟨hplaced, hinside.1, Int.le_trans hinside.2 (Stream.lastStop_le (Int.le_refl _))⟩

/-- What lies within the front of a text lies within the text. -/
theorem inside_front {s : Span} {base : Int} {xs : List Char} (ys : List Char)
    (h : s.Inside ⟨base, base + Text.width xs⟩) :
    s.Inside ⟨base, base + Text.width (xs ++ ys)⟩ := by
  apply h.trans
  simp only [Span.Inside, Text.width_append]
  omega

/-- What lies within the rest of a text lies within the text. -/
theorem inside_rest {s : Span} {base : Int} (xs : List Char) {ys : List Char}
    (h : s.Inside ⟨base + Text.width xs, base + Text.width xs + Text.width ys⟩) :
    s.Inside ⟨base, base + Text.width (xs ++ ys)⟩ := by
  apply h.trans
  simp only [Span.Inside, Text.width_append]
  omega

/-- The substitutions of a template text are read where they stand in it. -/
theorem templateParts_placed (hr : r.Place source) {raw head : List Char} {base : Int}
    {parts : List (Expr × String)} (hat : source.HasAt raw base)
    (h : templateParts r raw base = .ok (head, parts)) :
    ∀ part ∈ parts, (Phrase.expr part.1).Placed source ∧
      part.1.span.Inside ⟨base, base + Text.width raw⟩ := by
  induction raw, base using templateParts.induct generalizing head parts with
  | case1 | case2 =>
    rw [templateParts] at h
    obtain ⟨-, rfl⟩ := Prod.mk.inj (Except.ok.inj h)
    simp
  | case3 base c cs ih =>
    rw [templateParts] at h
    obtain ⟨⟨front, more⟩, hmore, h⟩ := bind_eq_ok.1 h
    obtain ⟨-, rfl⟩ := Prod.mk.inj (Except.ok.inj h)
    have hrest := ih (hat.back ['\\', c]) hmore
    exact fun part hpart => ⟨(hrest part hpart).1, inside_rest ['\\', c] (hrest part hpart).2⟩
  | case4 base cs hclose =>
    rw [templateParts, hclose] at h
    simp at h
  | case5 base cs n hclose ih =>
    rw [templateParts, hclose] at h
    obtain ⟨e, he, h⟩ := bind_eq_ok.1 h
    obtain ⟨⟨front, more⟩, hmore, h⟩ := bind_eq_ok.1 h
    obtain ⟨-, rfl⟩ := Prod.mk.inj (Except.ok.inj h)
    have hcode : source.HasAt cs (base + 2) := hat.back ['$', '{']
    have hrest := ih (hcode.drop n) hmore
    obtain ⟨hplaced, hinside⟩ := wholeText_placed hr (hcode.take (n - 1)) he
    rw [List.forall_mem_cons]
    refine ⟨⟨hplaced, inside_rest ['$', '{'] ?_⟩,
      fun part hpart => ⟨(hrest part hpart).1, inside_rest ['$', '{'] ?_⟩⟩
    · have hin := inside_front (cs.drop (n - 1)) hinside
      rwa [List.take_append_drop] at hin
    · have hin := inside_rest (cs.take n) (hrest part hpart).2
      rwa [List.take_append_drop] at hin
  | case6 base c cs hlast hpair hopen ih =>
    rw [templateParts.eq_5 _ _ _ _ hlast hpair hopen] at h
    obtain ⟨⟨front, more⟩, hmore, h⟩ := bind_eq_ok.1 h
    obtain ⟨-, rfl⟩ := Prod.mk.inj (Except.ok.inj h)
    have hrest := ih (hat.back [c]) hmore
    exact fun part hpart => ⟨(hrest part hpart).1, inside_rest [c] (hrest part hpart).2⟩

theorem parenTail_placed (hr : r.Place source) {e : Expr} (hs : s.Laid source stop p)
    (h : parenTail r s = .ok (e, s')) : Stream.ReadsOne source stop p (.expr e) s' := by
  obtain ⟨⟨e₁, s₁⟩, he, h⟩ := bind_eq_ok.1 h
  have hread := hr.expr hs he
  dsimp only at h
  split at h
  · obtain ⟨rfl, rfl⟩ := Prod.mk.inj (Except.ok.inj h)
    obtain ⟨hparen, hle, -, hrest⟩ := hread.rest
    exact { hread with rest := hrest.mono (Int.le_trans hparen hle) }
  · exact absurd h reject_ne_ok

theorem primary_placed (hr : r.Place source) {e : Expr} (hs : s.Laid source stop p)
    (h : primary r s = .ok (e, s')) : Stream.ReadsOne source stop p (.expr e) s' := by
  unfold primary at h
  split at h
  · rename_i lexeme span rest
    have hstart := hs.1
    have hle := hs.2.1
    have hstands := hs.2.2.1
    have hrest := hs.2.2.2
    split at h
    · rename_i name
      obtain ⟨follows, -, h⟩ := bind_eq_ok.1 h
      split_ifs at h
      · have hparam : Stream.ReadsOne source stop p (.pattern (.name name span)) rest :=
          .token hs (.leaf hstands rfl) rfl
        exact arrowTail_placed hr (.single hparam.own) hstart (Int.le_refl _) h
      · obtain ⟨rfl, rfl⟩ := Prod.mk.inj (Except.ok.inj h)
        exact .token hs (name_placed hstands) rfl
    case h_8 =>
      obtain ⟨⟨head, parts⟩, hparts, h⟩ := bind_eq_ok.1 h
      obtain ⟨rfl, rfl⟩ := Prod.mk.inj (Except.ok.inj h)
      refine .token hs (.intro trivial ?_) rfl
      simp only [Phrase.children, List.forall_mem_map]
      intro part hpart
      obtain ⟨hplaced, hinside⟩ := templateParts_placed hr hstands.1 hparts part hpart
      exact ⟨hplaced, hinside.trans ⟨Int.le_add_of_nonneg_right (by decide), hstands.2⟩⟩
    case h_9 =>
      obtain ⟨⟨⟨es, last⟩, s₁⟩, hes, h⟩ := bind_eq_ok.1 h
      obtain ⟨rfl, rfl⟩ := Prod.mk.inj (Except.ok.inj h)
      exact (elements_placed hr hrest hes).node trivial rfl rfl hstart hle
    case h_10 =>
      obtain ⟨⟨⟨fs, last⟩, s₁⟩, hfs, h⟩ := bind_eq_ok.1 h
      obtain ⟨rfl, rfl⟩ := Prod.mk.inj (Except.ok.inj h)
      exact (fields_placed hr hrest hfs).node trivial rfl rfl hstart hle
    case h_11 =>
      split_ifs at h
      · obtain ⟨⟨ps, s₁⟩, hps, h⟩ := bind_eq_ok.1 h
        obtain ⟨last, hall⟩ := parameters_placed hr hrest hps
        exact arrowTail_placed hr hall hstart hle h
      · exact (parenTail_placed hr hrest h).mono (Int.le_trans hstart hle)
    case h_12 => exact absurd h reject_ne_ok
    all_goals
      obtain ⟨rfl, rfl⟩ := Prod.mk.inj (Except.ok.inj h)
      exact .token hs (.leaf trivial rfl) rfl
  · exact absurd h reject_ne_ok

theorem postfixed_placed (hr : r.Place source) {e : Expr} (hs : s.Laid source stop p)
    (h : postfixed r s = .ok (e, s')) : Stream.ReadsOne source stop p (.expr e) s' := by
  obtain ⟨⟨e₁, s₁⟩, he, h⟩ := bind_eq_ok.1 h
  exact suffixes_placed hr (primary_placed hr hs he) h

theorem unary_placed (hr : r.Place source) {e : Expr} (hs : s.Laid source stop p)
    (h : unary r s = .ok (e, s')) : Stream.ReadsOne source stop p (.expr e) s' := by
  induction s generalizing p e with
  | next t rest ih =>
    simp only [unary] at h
    split at h
    · obtain ⟨⟨e₁, s₁⟩, he, h⟩ := bind_eq_ok.1 h
      obtain ⟨rfl, rfl⟩ := Prod.mk.inj (Except.ok.inj h)
      obtain ⟨hstart, hle, -, hrest⟩ := hs
      exact (Stream.ReadsAll.single (ih hrest he)).node trivial rfl rfl hstart hle
    · exact postfixed_placed hr hs h
  | done | bad => exact postfixed_placed hr hs h

theorem operatorAt_laid {level : Nat} {op : BinaryOp} (hs : s.Laid source stop p)
    (h : operatorAt level s = some (op, s')) : s'.Laid source stop p := by
  unfold operatorAt at h
  split at h
  · split at h
    · split_ifs at h
      obtain ⟨-, rfl⟩ := Prod.mk.inj (Option.some.inj h)
      exact hs.2.2.2.mono (Int.le_trans hs.1 hs.2.1)
    · simp at h
  · simp at h

theorem chain_placed {operand : Stream → Except ExprError (WithRest Expr)} {level n : Nat}
    (hoperand : ∀ {p : Int} {s s' : Stream} {e : Expr}, s.Laid source stop p →
      operand s = .ok (e, s') → Stream.ReadsOne source stop p (.expr e) s')
    {left e : Expr} (hleft : Stream.ReadsOne source stop p (.expr left) s)
    (h : chain operand level n left s = .ok (e, s')) : Stream.ReadsOne source stop p (.expr e) s' := by
  induction n generalizing s left with
  | zero =>
    obtain rfl := settle_value h
    obtain rfl := settle_eq_ok h
    exact hleft
  | succ n ih =>
    unfold chain at h
    split at h
    · rename_i hop
      obtain ⟨⟨right, s₁⟩, hright, h⟩ := bind_eq_ok.1 h
      have hread := hoperand (operatorAt_laid hleft.rest hop) hright
      refine ih ?_ h
      exact (Stream.ReadsAll.cons hleft.own (Int.le_refl _) (.single hread)).node trivial rfl rfl
        hleft.start (Int.le_refl _)
    · obtain rfl := settle_value h
      obtain rfl := settle_eq_ok h
      exact hleft

theorem binary_placed (hr : r.Place source) {k : Nat} {e : Expr} (hs : s.Laid source stop p)
    (h : binary r k s = .ok (e, s')) : Stream.ReadsOne source stop p (.expr e) s' := by
  induction k generalizing p s s' e with
  | zero => exact unary_placed hr hs h
  | succ k ih =>
    obtain ⟨⟨left, s₁⟩, hleft, h⟩ := bind_eq_ok.1 h
    exact chain_placed ih (ih hs hleft) h

theorem conditional_placed (hr : r.Place source) {e : Expr} (hs : s.Laid source stop p)
    (h : conditional r s = .ok (e, s')) : Stream.ReadsOne source stop p (.expr e) s' := by
  obtain ⟨⟨condition, s₁⟩, hcondition, h⟩ := bind_eq_ok.1 h
  have hfirst := binary_placed hr hs hcondition
  dsimp only at h
  split at h
  · obtain ⟨⟨yes, s₂⟩, hyes, h⟩ := bind_eq_ok.1 h
    obtain ⟨hmark, hle, -, hrest⟩ := hfirst.rest
    have hsecond := hr.expr hrest hyes
    dsimp only at h
    split at h
    · obtain ⟨⟨no, s₃⟩, hno, h⟩ := bind_eq_ok.1 h
      obtain ⟨rfl, rfl⟩ := Prod.mk.inj (Except.ok.inj h)
      obtain ⟨hcolon, hle', -, hrest'⟩ := hsecond.rest
      have hlast := Stream.ReadsAll.single (hr.expr hrest' hno)
      have hboth := Stream.ReadsAll.cons hsecond (Int.le_trans hcolon hle') hlast
      exact (Stream.ReadsAll.cons hfirst.own (Int.le_trans hmark hle) hboth).node trivial rfl rfl
        hfirst.start (Int.le_refl _)
    · exact absurd h reject_ne_ok
  · obtain ⟨rfl, rfl⟩ := Prod.mk.inj (Except.ok.inj h)
    exact hfirst

/-! ### Patterns -/

theorem patternElements_placed (hr : r.Place source) {n : Nat} {ps : List (Option Pattern)}
    (hs : s.Laid source stop p) (h : patternElements r n s = .ok ((ps, span), s')) :
    Stream.ReadsAll source stop p (ps.filterMap fun b => b.map .pattern) span.stop s' := by
  induction n generalizing s p ps span s' with
  | zero => exact absurd h reject_ne_ok
  | succ n ih =>
    unfold patternElements at h
    split at h
    · simp only [Except.ok.injEq, Prod.mk.injEq] at h
      obtain ⟨⟨rfl, rfl⟩, rfl⟩ := h
      exact .nil (Int.le_trans hs.1 hs.2.1) hs.2.2.2
    · obtain ⟨⟨⟨more, last⟩, s₂⟩, hmore, h⟩ := bind_eq_ok.1 h
      simp only [Except.ok.injEq, Prod.mk.injEq] at h
      obtain ⟨⟨rfl, rfl⟩, rfl⟩ := h
      exact (ih hs.2.2.2 hmore).mono (Int.le_trans hs.1 hs.2.1)
    · obtain ⟨⟨b, s₁⟩, hb, h⟩ := bind_eq_ok.1 h
      have hfirst := hr.pattern hs hb
      dsimp only at h
      split at h
      · obtain ⟨⟨⟨more, last⟩, s₂⟩, hmore, h⟩ := bind_eq_ok.1 h
        simp only [Except.ok.injEq, Prod.mk.injEq] at h
        obtain ⟨⟨rfl, rfl⟩, rfl⟩ := h
        obtain ⟨hcomma, hle, -, hrest⟩ := hfirst.rest
        exact .cons hfirst (Int.le_trans hcomma hle) (ih hrest hmore)
      · simp only [Except.ok.injEq, Prod.mk.injEq] at h
        obtain ⟨⟨rfl, rfl⟩, rfl⟩ := h
        exact .closed hfirst
      · exact absurd h reject_ne_ok

theorem propertyValue_placed (hr : r.Place source) {key : ExprToken} {b : Pattern}
    (hs : (Stream.next key s).Laid source stop p)
    (h : propertyValue r key s = .ok (b, s')) : Stream.ReadsOne source stop p (.pattern b) s' := by
  unfold propertyValue at h
  split at h
  · simp at h
  · obtain ⟨hkey, hle, -, hcolon, hle', -, hrest⟩ := hs
    exact (hr.pattern hrest h).mono (by omega)
  · split at h
    · exact hr.pattern hs h
    · simp at h

theorem properties_placed (hr : r.Place source) {n : Nat} {ps : List (String × Pattern)}
    (hs : s.Laid source stop p) (h : properties r n s = .ok ((ps, span), s')) :
    Stream.ReadsAll source stop p (ps.map fun property => .pattern property.2) span.stop s' := by
  induction n generalizing s p ps span s' with
  | zero => exact absurd h reject_ne_ok
  | succ n ih =>
    unfold properties at h
    split at h
    · simp only [Except.ok.injEq, Prod.mk.injEq] at h
      obtain ⟨⟨rfl, rfl⟩, rfl⟩ := h
      exact .nil (Int.le_trans hs.1 hs.2.1) hs.2.2.2
    · split at h
      · exact absurd h reject_ne_ok
      · obtain ⟨⟨b, s₁⟩, hb, h⟩ := bind_eq_ok.1 h
        have hfirst := propertyValue_placed hr hs hb
        dsimp only at h
        split at h
        · obtain ⟨⟨⟨more, last⟩, s₂⟩, hmore, h⟩ := bind_eq_ok.1 h
          simp only [Except.ok.injEq, Prod.mk.injEq] at h
          obtain ⟨⟨rfl, rfl⟩, rfl⟩ := h
          obtain ⟨hcomma, hle, -, hrest⟩ := hfirst.rest
          exact .cons hfirst (Int.le_trans hcomma hle) (ih hrest hmore)
        · simp only [Except.ok.injEq, Prod.mk.injEq] at h
          obtain ⟨⟨rfl, rfl⟩, rfl⟩ := h
          exact .closed hfirst
        · exact absurd h reject_ne_ok
    · exact absurd h reject_ne_ok

theorem plainPattern_placed (hr : r.Place source) {b : Pattern} (hs : s.Laid source stop p)
    (h : plainPattern r s = .ok (b, s')) : Stream.ReadsOne source stop p (.pattern b) s' := by
  unfold plainPattern at h
  split at h
  · obtain ⟨rfl, rfl⟩ := Prod.mk.inj (Except.ok.inj h)
    exact .token hs (.leaf hs.2.2.1 rfl) rfl
  · obtain ⟨⟨⟨ps, last⟩, s₁⟩, hps, h⟩ := bind_eq_ok.1 h
    obtain ⟨rfl, rfl⟩ := Prod.mk.inj (Except.ok.inj h)
    exact (patternElements_placed hr hs.2.2.2 hps).node trivial rfl rfl hs.1 hs.2.1
  · obtain ⟨⟨⟨ps, last⟩, s₁⟩, hps, h⟩ := bind_eq_ok.1 h
    obtain ⟨rfl, rfl⟩ := Prod.mk.inj (Except.ok.inj h)
    exact (properties_placed hr hs.2.2.2 hps).node trivial rfl rfl hs.1 hs.2.1
  · exact absurd h reject_ne_ok

theorem pattern_placed (hr : r.Place source) {b : Pattern} (hs : s.Laid source stop p)
    (h : pattern r s = .ok (b, s')) : Stream.ReadsOne source stop p (.pattern b) s' := by
  obtain ⟨⟨target, s₁⟩, htarget, h⟩ := bind_eq_ok.1 h
  have hfirst := plainPattern_placed hr hs htarget
  dsimp only at h
  split at h
  · obtain ⟨⟨value, s₂⟩, hvalue, h⟩ := bind_eq_ok.1 h
    obtain ⟨rfl, rfl⟩ := Prod.mk.inj (Except.ok.inj h)
    obtain ⟨hmark, hle, -, hrest⟩ := hfirst.rest
    have hlast := Stream.ReadsAll.single (hr.expr hrest hvalue)
    exact (Stream.ReadsAll.cons hfirst.own (Int.le_trans hmark hle) hlast).node trivial rfl rfl
      hfirst.start (Int.le_refl _)
  · obtain rfl := settle_value h
    obtain rfl := settle_eq_ok h
    exact hfirst

end Grammar

theorem Rules.upTo_place (source : Source) (n : Nat) : (Rules.upTo n).Place source := by
  induction n with
  | zero =>
    exact ⟨fun _ h => absurd h Grammar.reject_ne_ok, fun _ h => absurd h Grammar.reject_ne_ok⟩
  | succ n ih => exact ⟨Grammar.conditional_placed ih, Grammar.pattern_placed ih⟩

section

variable {source : Source} {cs : List Char} {base : Int}

theorem Expr.ofChars_placed {e : Expr} (hat : source.HasAt cs base)
    (h : Expr.ofChars cs base = .ok e) : (Phrase.expr e).Placed source :=
  (Grammar.wholeText_placed (Rules.upTo_place source _) hat h).1

theorem Pattern.ofChars_placed {b : Pattern} (hat : source.HasAt cs base)
    (h : Pattern.ofChars cs base = .ok b) : (Phrase.pattern b).Placed source := by
  have hs := Stream.ofText_laid hat (Int.le_refl base)
  unfold Pattern.ofChars at h
  dsimp only at h
  split at h
  · rename_i hstream
    obtain ⟨⟨b₁, s₁⟩, hb, h⟩ := bind_eq_ok.1 h
    dsimp only at h
    split at h
    · obtain rfl := Except.ok.inj h
      exact ((Rules.upTo_place source _).pattern hs hb).placed
    · exact absurd h Grammar.reject_ne_ok
  · exact absurd h Grammar.reject_ne_ok

/-- A loop header reaches from the first token of its text to the last. -/
theorem ForHeader.ofChars_placed {header : ForHeader} (hat : source.HasAt cs base)
    (h : ForHeader.ofChars cs base = .ok header) : (Phrase.header header).Placed source := by
  have hs := Stream.ofText_laid hat (Int.le_refl base)
  have hr := Rules.upTo_place source (cs.length + 1)
  unfold ForHeader.ofChars at h
  dsimp only at h
  split at h
  · rename_i first rest hstream
    obtain ⟨⟨b, s₁⟩, hb, h⟩ := bind_eq_ok.1 h
    rw [hstream] at hs hb
    have hown : (Stream.next first rest).Laid source ((Stream.next first rest).lastStop base)
      first.span.start := ⟨Int.le_refl _, hs.2⟩
    have hfirst := Grammar.plainPattern_placed hr hown hb
    dsimp only at h
    split at h
    · obtain ⟨⟨items, s₂⟩, hitems, h⟩ := bind_eq_ok.1 h
      obtain ⟨hof, hle, -, hrest⟩ := hfirst.rest
      have hlast := hr.expr hrest hitems
      dsimp only at h
      split at h
      · obtain rfl := Except.ok.inj h
        rw [hstream]
        have hboth := Stream.ReadsAll.cons hfirst (Int.le_trans hof hle) hlast.upToEnd
        exact Stream.ReadsOne.placed (hboth.node trivial rfl rfl (Int.le_refl _) (Int.le_refl _))
      · exact absurd h Grammar.reject_ne_ok
    · exact absurd h Grammar.reject_ne_ok
  · exact absurd h Grammar.reject_ne_ok

end

end LiveTemplate
