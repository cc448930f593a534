import LiveTemplate.Markup.Lexer
import LiveTemplate.Proofs.Result
import LiveTemplate.Proofs.Text.Extending
import Mathlib.Tactic.SplitIfs

/-!
What a reader of the lexer has read is not changed by text that comes after: a reader that succeeds
has seen the end of what it reads. Names, unquoted values and blanks end only where another character
stands, so for them something has to be left of the text.
-/

namespace LiveTemplate

set_option autoImplicit false

namespace Lexer

variable {cs rest : List Char} {offset n : Nat}

theorem after_append (ds : List Char) (h : n ≤ cs.length) :
    after offset (cs ++ ds) n = after offset cs n := by
  rw [after, List.take_append_of_le_length h, after]

theorem count_append {p : Char → Bool} (ds : List Char) (h : cs.drop (count p cs) ≠ []) :
    count p (cs ++ ds) = count p cs := by
  have hlt := lt_length_of_drop h
  simp only [count] at hlt ⊢
  rw [List.takeWhile_append, if_neg (by omega)]

theorem codeAt_append {open_ stop : Nat} {slice : CodeSlice} (ds : List Char) (stop' : Nat)
    (h : codeAt rest open_ stop = .ok (slice, n)) :
    codeAt (rest ++ ds) open_ stop' = .ok (slice, n) := by
  unfold codeAt at h ⊢
  split at h
  · simp at h
  · rename_i m hclose
    have hle := Text.closeLength_le hclose
    rw [Text.closeLength_append ds hclose]
    simp only [List.take_append_of_le_length (show m - 1 ≤ rest.length by omega)]
    exact h

theorem codeAt_le {open_ stop : Nat} {slice : CodeSlice}
    (h : codeAt rest open_ stop = .ok (slice, n)) : n ≤ rest.length := by
  unfold codeAt at h
  split at h
  · simp at h
  · rename_i m hclose
    obtain ⟨rfl, rfl⟩ := Prod.mk.inj (Except.ok.inj h)
    exact Text.closeLength_le hclose

/-- A value ends with its quote or brace, or before the next character. -/
theorem valueAt_append {ctx : TagContext} {name : String} {value : AttributeValue}
    (ds : List Char) (ctx' : TagContext) (h : valueAt ctx name cs offset = .ok (value, n))
    (hleft : cs.drop n ≠ []) : valueAt ctx' name (cs ++ ds) offset = .ok (value, n) := by
  unfold valueAt at h
  split at h
  · simp at h
  · rename_i rest
    obtain ⟨⟨slice, m⟩, hcode, h⟩ := bind_eq_ok.1 h
    simp only [valueAt, List.cons_append, codeAt_append ds ctx'.stop hcode]
    exact h
  · rename_i c rest hbrace
    simp only [valueAt, List.cons_append]
    split_ifs at h with hquote
    · rw [if_pos hquote]
      split at h
      · rename_i value tail hcut
        simp only [Text.cut?_append ds hcut]
        exact h
      · simp at h
    · rw [if_neg hquote]
      dsimp only at h
      split_ifs at h with hnone
      · simp [stray] at h
      · obtain ⟨rfl, rfl⟩ := Prod.mk.inj (Except.ok.inj h)
        rw [← List.cons_append, count_append ds hleft, take_append_left ds hleft, if_neg hnone]

theorem valueAt_nonempty {ctx : TagContext} {name : String} {value : AttributeValue}
    (h : valueAt ctx name cs offset = .ok (value, n)) : cs ≠ [] := by
  rintro rfl
  simp [valueAt] at h

theorem endsName_append (ds : List Char) (h : cs ≠ []) (hends : endsName cs) :
    endsName (cs ++ ds) = true := by
  match cs with
  | ['/'] => simp [endsName] at hends
  | '/' :: c :: rest => simpa [endsName] using hends
  | c :: rest =>
    by_cases hc : c = '/'
    · subst hc
      cases rest with
      | nil => simp [endsName] at hends
      | cons d rest => simpa [endsName] using hends
    · simpa [endsName, hc] using hends

/-- A text begins with an attribute name of `k` characters and `j` blanks. -/
structure NameAt (cs : List Char) (k j : Nat) : Prop where
  name : count isAttributeNameChar cs = k
  nonempty : k ≠ 0
  ends : endsName (cs.drop k)
  blanks : count isTagBlank (cs.drop k) = j

theorem NameAt.append {k j : Nat} (ds : List Char) (h : NameAt cs k j)
    (hleft : cs.drop (k + j) ≠ []) : NameAt (cs ++ ds) k j := by
  have hk : cs.drop k ≠ [] := drop_nonempty_of_le (Nat.le_add_right k j) hleft
  constructor
  case name => rw [count_append ds (by rwa [h.name]), h.name]
  case nonempty => exact h.nonempty
  case ends =>
    rw [drop_append_left ds hk]
    exact endsName_append ds hk h.ends
  case blanks =>
    rw [drop_append_left ds hk, count_append ds (by rwa [h.blanks, List.drop_drop]), h.blanks]

/-- An attribute without a value: no equals sign stands behind its name. -/
theorem attributeAt_flag (ctx : TagContext) {c : Char} {k j : Nat} (hname : NameAt (c :: rest) k j)
    (hequals : ∀ tail, (c :: rest).drop (k + j) ≠ '=' :: tail) :
    attributeAt ctx c rest offset =
      .ok (.named (String.ofList ((c :: rest).take k)) .none
        ⟨offset, after offset (c :: rest) k⟩, k - 1) := by
  simp only [attributeAt, hname.name, hname.blanks, hname.ends, if_neg hname.nonempty, Bool.not_true,
    Bool.false_eq_true, if_false]

/-- An attribute with a value: its name, an equals sign and the value, with blanks between them. -/
theorem attributeAt_value (ctx : TagContext) {c : Char} {k j l m : Nat} {tail : List Char}
    {value : AttributeValue} (hname : NameAt (c :: rest) k j)
    (hequals : (c :: rest).drop (k + j) = '=' :: tail)
    (hmore : count isTagBlank ((c :: rest).drop (k + j + 1)) = l)
    (hvalue : valueAt ctx (String.ofList ((c :: rest).take k)) ((c :: rest).drop (k + j + 1 + l))
      (after offset (c :: rest) (k + j + 1 + l)) = .ok (value, m)) :
    attributeAt ctx c rest offset =
      .ok (.named (String.ofList ((c :: rest).take k)) value
        ⟨offset, after offset (c :: rest) (k + j + 1 + l + m)⟩, k + j + 1 + l + m - 1) := by
  simp only [attributeAt, hname.name, hname.blanks, hname.ends, if_neg hname.nonempty, Bool.not_true,
    Bool.false_eq_true, if_false, hequals, hmore, hvalue]
  rfl

/-- An attribute that is read has no value or has one. -/
theorem attributeAt_cases {ctx : TagContext} {c : Char} {a : TagAttribute}
    (h : attributeAt ctx c rest offset = .ok (a, n)) :
    ∃ k j, NameAt (c :: rest) k j ∧
      (((∀ tail, (c :: rest).drop (k + j) ≠ '=' :: tail) ∧ n = k - 1 ∧
          a = .named (String.ofList ((c :: rest).take k)) .none
            ⟨offset, after offset (c :: rest) k⟩) ∨
        ∃ tail l value m, (c :: rest).drop (k + j) = '=' :: tail ∧
          count isTagBlank ((c :: rest).drop (k + j + 1)) = l ∧
          valueAt ctx (String.ofList ((c :: rest).take k)) ((c :: rest).drop (k + j + 1 + l))
            (after offset (c :: rest) (k + j + 1 + l)) = .ok (value, m) ∧
          n = k + j + 1 + l + m - 1 ∧
          a = .named (String.ofList ((c :: rest).take k)) value
            ⟨offset, after offset (c :: rest) (k + j + 1 + l + m)⟩) := by
  simp only [attributeAt] at h
  split_ifs at h with hname hends
  · simp [stray] at h
  · simp [stray] at h
  · refine ⟨_, _, ⟨rfl, hname, by simpa using hends, rfl⟩, ?_⟩
    split at h
    · rename_i tail hequals
      obtain ⟨⟨value, m⟩, hvalue, h⟩ := bind_eq_ok.1 h
      obtain ⟨rfl, rfl⟩ := Prod.mk.inj (Except.ok.inj h)
      exact .inr ⟨tail, _, value, m, hequals, rfl, hvalue, rfl, rfl⟩
    · rename_i hequals
      obtain ⟨rfl, rfl⟩ := Prod.mk.inj (Except.ok.inj h)
      exact .inl ⟨hequals, rfl, rfl⟩

/-- The end of an attribute shows in the first character after it that is no blank. -/
theorem attributeAt_append {ctx : TagContext} {c : Char} {a : TagAttribute} (ds : List Char)
    (ctx' : TagContext) (h : attributeAt ctx c rest offset = .ok (a, n))
    (hleft : (rest.drop n).drop (count isTagBlank (rest.drop n)) ≠ []) :
    attributeAt ctx' c (rest ++ ds) offset = .ok (a, n) := by
  obtain ⟨k, j, hname, hcase⟩ := attributeAt_cases h
  rcases hcase with ⟨hequals, rfl, rfl⟩ | ⟨tail, l, value, m, hequals, hmore, hvalue, rfl, rfl⟩
  · have hrest : rest.drop (k - 1) = (c :: rest).drop k := by
      rw [← Nat.sub_add_cancel (Nat.pos_of_ne_zero hname.nonempty)]
      rfl
    rw [hrest, hname.blanks, List.drop_drop] at hleft
    have hk : (c :: rest).drop k ≠ [] := drop_nonempty_of_le (Nat.le_add_right k j) hleft
    have hname' : NameAt (c :: (rest ++ ds)) k j := hname.append ds hleft
    rw [attributeAt_flag ctx' hname', ← List.cons_append, take_append_left ds hk,
      after_append ds (Nat.le_of_lt (lt_length_of_drop hk))]
    intro tail
    rw [← List.cons_append, drop_append_left ds hleft]
    intro he
    obtain ⟨d, front, hd⟩ := List.exists_cons_of_ne_nil hleft
    rw [hd] at he
    obtain ⟨rfl, -⟩ := List.cons.inj he
    exact hequals front hd
  · have hj : (c :: rest).drop (k + j) ≠ [] := by simp [hequals]
    have hl : (c :: rest).drop (k + j + 1 + l) ≠ [] := valueAt_nonempty hvalue
    have hone : (c :: rest).drop (k + j + 1) ≠ [] := drop_nonempty_of_le (Nat.le_add_right _ l) hl
    have hm : (c :: rest).drop (k + j + 1 + l + m) ≠ [] := by
      intro hnil
      have hrest : rest.drop (k + j + 1 + l + m - 1) = (c :: rest).drop (k + j + 1 + l + m) := by
        rw [show k + j + 1 + l + m = (k + j + l + m) + 1 by omega]
        rfl
      simp [hrest, hnil] at hleft
    have hname' : NameAt (c :: (rest ++ ds)) k j := hname.append ds hj
    have hequals' : (c :: (rest ++ ds)).drop (k + j) = '=' :: (tail ++ ds) := by
      rw [← List.cons_append, drop_append_left ds hj, hequals, List.cons_append]
    have hmore' : count isTagBlank ((c :: (rest ++ ds)).drop (k + j + 1)) = l := by
      rw [← List.cons_append, drop_append_left ds hone,
        count_append ds (by rwa [hmore, List.drop_drop]), hmore]
    have htake : (c :: (rest ++ ds)).take k = (c :: rest).take k := by
      rw [← List.cons_append, take_append_left ds (drop_nonempty_of_le (Nat.le_add_right k j) hj)]
    have hvalue' : valueAt ctx' (String.ofList ((c :: (rest ++ ds)).take k))
        ((c :: (rest ++ ds)).drop (k + j + 1 + l)) (after offset (c :: (rest ++ ds)) (k + j + 1 + l)) =
          .ok (value, m) := by
      rw [htake, ← List.cons_append, drop_append_left ds hl,
        after_append ds (Nat.le_of_lt (lt_length_of_drop hl))]
      exact valueAt_append ds ctx' hvalue (by rwa [List.drop_drop])
    rw [attributeAt_value ctx' hname' hequals' hmore' hvalue', htake, ← List.cons_append,
      after_append ds (Nat.le_of_lt (lt_length_of_drop hm))]

theorem attributesAt_left {ctx : TagContext} {result : List TagAttribute × Bool × Nat}
    (h : attributesAt ctx cs offset = .ok result) : cs.drop (count isTagBlank cs) ≠ [] := by
  intro hnil
  rw [attributesAt] at h
  simp only at h
  split at h <;> simp_all

theorem attributesAt_end (ctx : TagContext) {tail : List Char}
    (h : cs.drop (count isTagBlank cs) = '>' :: tail) :
    attributesAt ctx cs offset = .ok ([], false, count isTagBlank cs + 1) := by
  rw [attributesAt]
  split <;> simp_all

theorem attributesAt_selfClosing (ctx : TagContext) {tail : List Char}
    (h : cs.drop (count isTagBlank cs) = '/' :: '>' :: tail) :
    attributesAt ctx cs offset = .ok ([], true, count isTagBlank cs + 2) := by
  rw [attributesAt]
  split <;> simp_all

theorem attributesAt_spread (ctx : TagContext) (h : cs.drop (count isTagBlank cs) = '{' :: rest) :
    attributesAt ctx cs offset = (do
      let here := after offset cs (count isTagBlank cs)
      let (slice, n) ← codeAt rest here ctx.stop
      let next := after (here + 1) rest n
      let (more, selfClosing, m) ← attributesAt ctx (rest.drop n) next
      .ok (.spread slice ⟨here, next⟩ :: more, selfClosing, count isTagBlank cs + 1 + n + m)) := by
  conv => lhs; rw [attributesAt]
  split <;> simp_all

theorem attributesAt_named (ctx : TagContext) {c : Char}
    (h : cs.drop (count isTagBlank cs) = c :: rest) (hend : c ≠ '>')
    (hself : ∀ tail, c = '/' → rest ≠ '>' :: tail) (hbrace : c ≠ '{') :
    attributesAt ctx cs offset = (do
      let here := after offset cs (count isTagBlank cs)
      let (attr, n) ← attributeAt ctx c rest here
      let (more, selfClosing, m) ←
        attributesAt ctx (rest.drop n) (after here (c :: rest) (n + 1))
      .ok (attr :: more, selfClosing, count isTagBlank cs + 1 + n + m)) := by
  conv => lhs; rw [attributesAt]
  split <;> rename_i heq <;> rw [h] at heq <;> simp_all

/-- A text whose attributes are read begins with blanks and the end of the tag, a spread or a name. -/
theorem attributesAt_cases {ctx : TagContext} {result : List TagAttribute × Bool × Nat}
    (h : attributesAt ctx cs offset = .ok result) :
    (∃ tail, cs.drop (count isTagBlank cs) = '>' :: tail) ∨
    (∃ tail, cs.drop (count isTagBlank cs) = '/' :: '>' :: tail) ∨
    (∃ rest, cs.drop (count isTagBlank cs) = '{' :: rest) ∨
    ∃ c rest, cs.drop (count isTagBlank cs) = c :: rest ∧ c ≠ '>' ∧
      (∀ tail, c = '/' → rest ≠ '>' :: tail) ∧ c ≠ '{' := by
  rw [attributesAt] at h
  simp only at h
  split at h
  · simp at h
  · exact .inl ⟨_, ‹_›⟩
  · exact .inr (.inl ⟨_, ‹_›⟩)
  · exact .inr (.inr (.inl ⟨_, ‹_›⟩))
  · exact .inr (.inr (.inr ⟨_, _, ‹_›, ‹_›, ‹_›, ‹_›⟩))

/-- The attributes of a tag end with the tag. -/
theorem attributesAt_append {ctx : TagContext} {attributes : List TagAttribute} {selfClosing : Bool}
    (ds : List Char) (ctx' : TagContext)
    (h : attributesAt ctx cs offset = .ok (attributes, selfClosing, n)) :
    attributesAt ctx' (cs ++ ds) offset = .ok (attributes, selfClosing, n) ∧ n ≤ cs.length := by
  induction hlen : cs.length using Nat.strongRecOn
    generalizing cs offset attributes selfClosing n with
  | ind k ih =>
    have hleft := attributesAt_left h
    have hcount := count_append ds hleft
    have hdrop : (cs ++ ds).drop (count isTagBlank (cs ++ ds)) = cs.drop (count isTagBlank cs) ++ ds := by
      rw [hcount, drop_append_left ds hleft]
    have hafter : after offset (cs ++ ds) (count isTagBlank cs) = after offset cs (count isTagBlank cs) :=
      after_append ds (Nat.le_of_lt (lt_length_of_drop hleft))
    rcases attributesAt_cases h with ⟨tail, htail⟩ | ⟨tail, htail⟩ | ⟨rest, htail⟩ |
      ⟨c, rest, htail, hend, hself, hbrace⟩
    all_goals
      simp only [htail, List.cons_append] at hdrop
      have hlength := congrArg List.length htail
      simp only [List.length_drop, List.length_cons] at hlength
    · rw [attributesAt_end ctx htail] at h
      rw [attributesAt_end ctx' hdrop, hcount]
      simp only [Except.ok.injEq, Prod.mk.injEq] at h
      obtain ⟨rfl, rfl, rfl⟩ := h
      exact ⟨rfl, by omega⟩
    · rw [attributesAt_selfClosing ctx htail] at h
      rw [attributesAt_selfClosing ctx' hdrop, hcount]
      simp only [Except.ok.injEq, Prod.mk.injEq] at h
      obtain ⟨rfl, rfl, rfl⟩ := h
      exact ⟨rfl, by omega⟩
    · rw [attributesAt_spread ctx htail] at h
      obtain ⟨⟨slice, m⟩, hcode, h⟩ := bind_eq_ok.1 h
      obtain ⟨⟨more, closing, l⟩, hmore, h⟩ := bind_eq_ok.1 h
      simp only [Except.ok.injEq, Prod.mk.injEq] at h
      obtain ⟨rfl, rfl, rfl⟩ := h
      have hm := codeAt_le hcode
      obtain ⟨hmore', hl⟩ := ih _ (by simp only [List.length_drop]; omega) hmore rfl
      constructor
      · rw [attributesAt_spread ctx' hdrop, hcount, hafter, bind_eq_ok]
        refine ⟨_, codeAt_append ds ctx'.stop hcode, ?_⟩
        rw [bind_eq_ok, List.drop_append_of_le_length hm, after_append ds hm]
        exact ⟨_, hmore', rfl⟩
      · simp only [List.length_drop] at hl
        omega
    · rw [attributesAt_named ctx htail hend hself hbrace] at h
      obtain ⟨⟨a, m⟩, ha, h⟩ := bind_eq_ok.1 h
      obtain ⟨⟨more, closing, l⟩, hmore, h⟩ := bind_eq_ok.1 h
      simp only [Except.ok.injEq, Prod.mk.injEq] at h
      obtain ⟨rfl, rfl, rfl⟩ := h
      have hblanks := attributesAt_left hmore
      have hm : m < rest.length := by
        apply lt_length_of_drop
        intro hnil
        simp [hnil] at hblanks
      obtain ⟨hmore', hl⟩ := ih _ (by simp only [List.length_drop]; omega) hmore rfl
      have hself' : ∀ tail, c = '/' → rest ++ ds ≠ '>' :: tail := by
        intro tail hc he
        have hne : rest ≠ [] := List.ne_nil_of_length_pos (by omega)
        obtain ⟨d, front, rfl⟩ := List.exists_cons_of_ne_nil hne
        obtain ⟨rfl, -⟩ := List.cons.inj he
        exact hself front hc rfl
      constructor
      · rw [attributesAt_named ctx' hdrop hend hself' hbrace, hcount, hafter, bind_eq_ok]
        refine ⟨_, attributeAt_append ds ctx' ha hblanks, ?_⟩
        have hnext : after (after offset cs (count isTagBlank cs)) (c :: (rest ++ ds)) (m + 1) =
            after (after offset cs (count isTagBlank cs)) (c :: rest) (m + 1) :=
          @after_append (c :: rest) _ _ ds (by simp only [List.length_cons]; omega)
        rw [bind_eq_ok, List.drop_append_of_le_length (by omega), hnext]
        exact ⟨_, hmore', rfl⟩
      · simp only [List.length_drop] at hl
        omega

theorem openTagAt_append {tag : OpenTag} {start stop : Nat} (ds : List Char) (stop' : Nat)
    (h : openTagAt rest start stop = .ok (tag, n)) :
    openTagAt (rest ++ ds) start stop' = .ok (tag, n) ∧ n ≤ rest.length := by
  unfold openTagAt at h
  obtain ⟨kind, hkind, h⟩ := bind_eq_ok.1 h
  dsimp only at h
  split_ifs at h with hends
  · obtain ⟨⟨attributes, closing, m⟩, hattributes, h⟩ := bind_eq_ok.1 h
    simp only [Except.ok.injEq, Prod.mk.injEq] at h
    obtain ⟨rfl, rfl⟩ := h
    have hleft : rest.drop (count isTagNameChar rest) ≠ [] := by
      intro hnil
      have hblanks := attributesAt_left hattributes
      simp [hnil] at hblanks
    have hlt := lt_length_of_drop hleft
    obtain ⟨hmore, hm⟩ := attributesAt_append ds
      ⟨String.ofList (rest.take (count isTagNameChar rest)), start, stop'⟩ hattributes
    simp only [List.length_drop] at hm
    have hlength : count isTagNameChar rest + m ≤ rest.length := by omega
    refine ⟨?_, hlength⟩
    obtain ⟨c, front, hfront⟩ := List.exists_cons_of_ne_nil hleft
    have hdrop : (rest ++ ds).drop (count isTagNameChar rest) = c :: (front ++ ds) := by
      rw [drop_append_left ds hleft, hfront, List.cons_append]
    rw [hfront] at hends hmore
    simp only [openTagAt, count_append ds hleft, take_append_left ds hleft, hdrop,
      after_append ds (Nat.le_of_lt hlt), hkind]
    rw [bind_eq_ok]
    refine ⟨kind, rfl, ?_⟩
    rw [if_pos hends, bind_eq_ok]
    refine ⟨_, hmore, ?_⟩
    rw [after_append ds hlength]
  · simp [stray] at h

theorem closeTagAt_append {t : Token} {start stop : Nat} (ds : List Char) (stop' : Nat)
    (h : closeTagAt rest start stop = .ok (t, n)) :
    closeTagAt (rest ++ ds) start stop' = .ok (t, n) ∧ n ≤ rest.length := by
  simp only [closeTagAt] at h
  split_ifs at h with hname
  · simp [stray] at h
  · split at h
    · simp at h
    · rename_i tail hdrop
      obtain ⟨kind, hkind, h⟩ := bind_eq_ok.1 h
      simp only [Except.ok.injEq, Prod.mk.injEq] at h
      obtain ⟨rfl, rfl⟩ := h
      have hleft : rest.drop (count isTagNameChar rest +
          count isTagBlank (rest.drop (count isTagNameChar rest))) ≠ [] := by simp [hdrop]
      have hfirst := drop_nonempty_of_le (Nat.le_add_right _ _) hleft
      have hlt := lt_length_of_drop hleft
      refine ⟨?_, hlt⟩
      simp only [closeTagAt, count_append ds hfirst, take_append_left ds hfirst,
        drop_append_left ds hfirst, if_neg hname]
      rw [count_append ds (by rwa [List.drop_drop]), drop_append_left ds hleft, hdrop]
      simp only [List.cons_append, hkind, after_append ds hlt]
      rfl
    · simp [stray] at h

/-! ### Raw text -/

variable {tag : String}

/-- Whether raw text ends where a text begins shows in the characters of the closing tag and one
more. -/
theorem closesRaw_append (ds : List Char) (h : tag.toList.length + 2 < cs.length) :
    closesRaw tag (cs ++ ds) = closesRaw tag cs := by
  have hleft : cs.drop ('<' :: '/' :: tag.toList).length ≠ [] := by
    simp only [ne_eq, List.drop_eq_nil_iff, List.length_cons]
    omega
  simp only [closesRaw, take_append_left ds hleft, drop_append_left ds hleft]
  obtain ⟨c, front, hfront⟩ := List.exists_cons_of_ne_nil hleft
  rw [hfront]
  rfl

theorem closesRaw_length (h : closesRaw tag cs = true) : tag.toList.length + 2 < cs.length := by
  simp only [closesRaw, Bool.and_eq_true] at h
  have hleft : cs.drop ('<' :: '/' :: tag.toList).length ≠ [] := by
    intro hnil
    rw [hnil] at h
    exact Bool.noConfusion h.2
  simpa using lt_length_of_drop hleft

theorem rawLength_append (ds : List Char) (h : rawLength tag cs = some n) :
    rawLength tag (cs ++ ds) = some n ∧ n + tag.toList.length + 2 < cs.length := by
  induction cs generalizing n with
  | nil => simp [rawLength] at h
  | cons c cs ih =>
    simp only [rawLength] at h
    split_ifs at h with hcloses
    · have hlength := closesRaw_length hcloses
      rw [List.cons_append, rawLength, ← List.cons_append, closesRaw_append ds hlength, if_pos hcloses]
      obtain rfl := Option.some.inj h
      exact ⟨rfl, by omega⟩
    · obtain ⟨m, hm, rfl⟩ := Option.map_eq_some_iff.1 h
      obtain ⟨hmore, hlength⟩ := ih hm
      have hlong : tag.toList.length + 2 < (c :: cs).length := by
        simp only [List.length_cons]
        omega
      rw [List.cons_append, rawLength, ← List.cons_append, closesRaw_append ds hlong, if_neg hcloses,
        hmore]
      refine ⟨rfl, ?_⟩
      simp only [List.length_cons]
      omega

/-- Text without the closing tag, no part of which stands at its end, is passed over. -/
theorem rawLength_append_none (ds : List Char) (h : rawLength tag cs = none)
    (hend : ∀ part, part ≠ [] → part <+: '<' :: '/' :: tag.toList → ∀ back, back <:+ cs →
      back.map Char.toLower ≠ part.map Char.toLower) :
    rawLength tag (cs ++ ds) = (rawLength tag ds).map (cs.length + ·) := by
  induction cs with
  | nil => simp
  | cons c cs ih =>
    simp only [rawLength] at h
    split_ifs at h with hcloses
    have hno : ¬ closesRaw tag (c :: (cs ++ ds)) = true := by
      intro hjoint
      rw [← List.cons_append] at hjoint
      by_cases hlong : tag.toList.length + 2 < (c :: cs).length
      · rw [closesRaw_append ds hlong] at hjoint
        exact hcloses hjoint
      · -- what is left begins the closing tag, which goes on behind it
        simp only [closesRaw, Bool.and_eq_true, beq_iff_eq] at hjoint
        have hpart := congrArg (List.take (c :: cs).length) hjoint.1
        have hshort : (c :: cs).length ≤ ('<' :: '/' :: tag.toList).length := by
          simp only [List.length_cons] at hlong ⊢
          omega
        rw [← List.map_take, ← List.map_take, List.take_take, Nat.min_eq_left hshort,
          List.take_left] at hpart
        exact hend _ (by simp) (List.take_prefix _ _) _ List.suffix_rfl hpart
    have hrest : rawLength tag cs = none := by simpa using h
    rw [List.cons_append, rawLength, if_neg hno,
      ih hrest fun part hne hpart back hback => hend part hne hpart back (hback.trans (List.suffix_cons c cs))]
    cases rawLength tag ds with
    | none => rfl
    | some m => simp; omega

theorem rawTextAt_append {stop : Nat} {tokens : List Token} (ds : List Char) (stop' : Nat)
    (h : rawTextAt tag cs offset stop = .ok (some (tokens, n))) :
    rawTextAt tag (cs ++ ds) offset stop' = .ok (some (tokens, n)) ∧ n ≤ cs.length := by
  unfold rawTextAt at h
  split at h
  · simp at h
  · rename_i m hm
    obtain ⟨⟨close, l⟩, hclose, h⟩ := bind_eq_ok.1 h
    simp only [Except.ok.injEq, Option.some.injEq, Prod.mk.injEq] at h
    obtain ⟨rfl, rfl⟩ := h
    obtain ⟨hraw, hlength⟩ := rawLength_append ds hm
    obtain ⟨hclose', hl⟩ := closeTagAt_append ds stop' hclose
    simp only [List.length_drop] at hl
    refine ⟨?_, by omega⟩
    simp only [rawTextAt, hraw, after_append ds (show m ≤ cs.length by omega),
      List.drop_append_of_le_length (show m + 2 ≤ cs.length by omega),
      List.take_append_of_le_length (show m ≤ cs.length by omega), hclose']
    rfl

end Lexer

end LiveTemplate
