import LiveTemplate.Proofs.Expr.Operands

/-!
Operators by precedence. Operands joined by operators are read as the one tree that has them in their
order and in which no operator binds less tightly than the one above it, with operators of one level
grouped to the left.
-/

namespace LiveTemplate

set_option autoImplicit false

/-- The seven levels of operators. -/
theorem BinaryOp.level_bounds (op : BinaryOp) : 1 ≤ op.level ∧ op.level ≤ 7 := by
  cases op <;> decide

/-- Operands joined by operators. -/
inductive OperatorTree where
  | operand (e : Expr)
  | node (op : BinaryOp) (left right : OperatorTree)

namespace OperatorTree

/-- The expression of a tree. -/
def expr : OperatorTree → Expr
  | operand e => e
  | node op left right => .binary op left.expr right.expr (left.expr.span.join right.expr.span)

/-- The operands and the operators of a tree from left to right. -/
def items : OperatorTree → List (Expr ⊕ BinaryOp)
  | operand e => [.inl e]
  | node op left right => left.items ++ .inr op :: right.items

/-- The operator at the top of a tree that is more than one operand. -/
def top? : OperatorTree → Option BinaryOp
  | operand _ => none
  | node op _ _ => some op

/-- Whether on the left of every operator stands no tree with a looser operator at its top, and on
its right none with a looser or an equal one. -/
def Leveled : OperatorTree → Prop
  | operand _ => True
  | node op left right =>
    (∀ top ∈ left.top?, op.level ≤ top.level) ∧ (∀ top ∈ right.top?, op.level < top.level) ∧
      left.Leveled ∧ right.Leveled

variable {tree other left right : OperatorTree} {op top : BinaryOp}

theorem mem_items_of_top (h : top ∈ tree.top?) : .inr top ∈ tree.items := by
  cases tree with
  | operand e => cases h
  | node op left right =>
    cases h
    exact List.mem_append_right _ List.mem_cons_self

theorem items_node_ne {e : Expr} : (node op left right).items ≠ [.inl e] := by
  intro h
  have hop : .inr op ∈ (node op left right).items := mem_items_of_top rfl
  rw [h, List.mem_singleton] at hop
  cases hop

/-- No operator of a tree is looser than the one at the top. -/
theorem Leveled.level_le_of_top (h : tree.Leveled) (htop : top ∈ tree.top?)
    (hop : .inr op ∈ tree.items) : top.level ≤ op.level := by
  induction tree generalizing top with
  | operand e => cases htop
  | node root left right ihLeft ihRight =>
    obtain ⟨hleft, hright, hl, hr⟩ := h
    cases htop
    rw [items, List.mem_append, List.mem_cons] at hop
    rcases hop with hop | hop | hop
    · cases left with
      | operand e => simp [items] at hop
      | node op' l r => exact (hleft op' rfl).trans (ihLeft hl rfl hop)
    · cases hop
      exact Nat.le_refl _
    · cases right with
      | operand e => simp [items] at hop
      | node op' l r => exact (hright op' rfl).le.trans (ihRight hr rfl hop)

theorem Leveled.left_le (h : (node top left right).Leveled) (hop : .inr op ∈ left.items) :
    top.level ≤ op.level :=
  h.level_le_of_top rfl (List.mem_append_left _ hop)

theorem Leveled.lt_right (h : (node top left right).Leveled) (hop : .inr op ∈ right.items) :
    top.level < op.level := by
  cases right with
  | operand e => simp [items] at hop
  | node op' l r => exact (h.2.1 op' rfl).trans_le (h.2.2.2.level_le_of_top rfl hop)

/-- Of two trees with the same items, the top of one is not within the left of the other's top. -/
theorem Leveled.not_within {left' right' : OperatorTree} {top' : BinaryOp}
    (h : (node top left right).Leveled) (h' : (node top' left' right').Leveled)
    {between : List (Expr ⊕ BinaryOp)} (hleft : left'.items = left.items ++ .inr top :: between)
    (hright : right.items = between ++ .inr top' :: right'.items) : False := by
  have hle : top'.level ≤ top.level := h'.left_le (by simp [hleft])
  have hlt : top.level < top'.level := h.lt_right (by simp [hright])
  omega

/-- The items of a tree determine it. -/
theorem Leveled.unique (h : tree.Leveled) (h' : other.Leveled) (hitems : other.items = tree.items) :
    other = tree := by
  induction tree generalizing other with
  | operand e =>
    cases other with
    | operand e' => cases hitems; rfl
    | node top left right => exact (items_node_ne hitems).elim
  | node top left right ihLeft ihRight =>
    cases other with
    | operand e => exact (items_node_ne hitems.symm).elim
    | node top' left' right' =>
      -- the two tops stand at the same place, or one of them within a side of the other
      rcases List.append_eq_append_iff.mp hitems with ⟨between, hl, hr⟩ | ⟨between, hl, hr⟩
      · cases between with
        | nil =>
          obtain ⟨hop, hright⟩ := List.cons.inj hr
          cases hop
          rw [List.append_nil] at hl
          rw [ihLeft h.2.2.1 h'.2.2.1 hl.symm, ihRight h.2.2.2 h'.2.2.2 hright]
        | cons item between =>
          obtain ⟨rfl, hright⟩ := List.cons.inj hr
          exact (h'.not_within h hl hright).elim
      · cases between with
        | nil =>
          obtain ⟨hop, hright⟩ := List.cons.inj hr
          cases hop
          rw [List.append_nil] at hl
          rw [ihLeft h.2.2.1 h'.2.2.1 hl, ihRight h.2.2.2 h'.2.2.2 hright.symm]
        | cons item between =>
          obtain ⟨rfl, hright⟩ := List.cons.inj hr
          exact (h.not_within h' hl hright).elim

end OperatorTree

namespace Grammar

/-- Operators with an operand after each, up to the end of a stream. -/
inductive Links (r : Rules) : List (BinaryOp × Expr) → Stream → Prop where
  | done (stop : Int) : Links r [] (.done stop)
  | next {p : Punct} {op : BinaryOp} {e : Expr} {ts : List ExprToken} {s : Stream}
      {links : List (BinaryOp × Expr)} (span : Span) (hop : binaryOp? p = some op)
      (h : unary r (s.after ts) = .ok (e, s)) (hmore : Links r links s) :
      Links r ((op, e) :: links) (.next ⟨.punct p, span⟩ (s.after ts))

def linkItems (links : List (BinaryOp × Expr)) : List (Expr ⊕ BinaryOp) :=
  links.flatMap fun link => [.inr link.1, .inl link.2]

/-- A tree made of the items in front and of the first of the links: it takes every operator up to one
that is looser than its level. -/
structure Climbs (r : Rules) (level : Nat) (front : List (Expr ⊕ BinaryOp))
    (links : List (BinaryOp × Expr)) (tree : OperatorTree) (rest : List (BinaryOp × Expr))
    (s : Stream) : Prop where
  left : Links r rest s
  shorter : rest.length ≤ links.length
  items : front ++ linkItems links = tree.items ++ linkItems rest
  leveled : tree.Leveled
  tight : ∀ {op}, .inr op ∈ tree.items → level ≤ op.level
  stops : ∀ link ∈ rest.head?, link.1.level < level

/-- A rule that reads an operand and the links after it as a tree down to a level. -/
def ClimbsTo (r : Rules) (level : Nat) (f : Stream → Except ExprError (WithRest Expr)) : Prop :=
  ∀ ⦃s s₁ : Stream⦄ ⦃e : Expr⦄ ⦃links : List (BinaryOp × Expr)⦄, unary r s = .ok (e, s₁) →
    Links r links s₁ → ∃ tree rest s',
      f s = .ok (tree.expr, s') ∧ Climbs r level [.inl e] links tree rest s'

variable {r : Rules} {s s₁ : Stream} {level n : Nat} {links : List (BinaryOp × Expr)}
  {left : OperatorTree}

theorem Links.operatorAt_eq_none (h : Links r links s)
    (hstops : ∀ link ∈ links.head?, link.1.level < level) : operatorAt level s = none := by
  cases h with
  | done stop => rfl
  | next span hop h hmore =>
    have hlevel := hstops _ rfl
    simp only [operatorAt, hop]
    rw [if_neg hlevel.ne]

theorem Links.settle {α : Type} (h : Links r links s) (x : α) : settle x s = .ok (x, s) := by
  cases h <;> rfl

/-- Every link takes a token. -/
theorem Links.length_le (h : Links r links s) : links.length ≤ s.size := by
  induction h with
  | done stop => exact Nat.le_refl 0
  | @next p op e ts s links span hop hunary hmore ih =>
    rw [List.length_cons, Stream.size, Stream.size_after]
    omega

theorem unary_climbsTo (r : Rules) : ClimbsTo r 8 (unary r) := by
  intro s s₁ e links h hlinks
  refine ⟨.operand e, links, s₁, h, hlinks, Nat.le_refl _, rfl, trivial, ?_, ?_⟩
  · intro op hop
    simp [OperatorTree.items] at hop
  · intro link _
    exact Nat.lt_succ_of_le link.1.level_bounds.2

/-- A chain ends before an operator that is looser than its level. -/
theorem chain_climbs_of_lower (f : Stream → Except ExprError (WithRest Expr)) (n : Nat)
    (hlinks : Links r links s) (hleveled : left.Leveled)
    (htight : ∀ {op}, .inr op ∈ left.items → level ≤ op.level)
    (hlower : ∀ link ∈ links.head?, link.1.level < level) :
    ∃ tree rest s', chain f level n left.expr s = .ok (tree.expr, s') ∧
      Climbs r level left.items links tree rest s' := by
  refine ⟨left, links, s, ?_, hlinks, Nat.le_refl _, rfl, hleveled, htight, hlower⟩
  rw [chain_settles (hlinks.operatorAt_eq_none hlower)]
  exact hlinks.settle _

/-- A chain of operators of one level takes each of them on top of what stands left of it. -/
theorem chain_climbs {f : Stream → Except ExprError (WithRest Expr)}
    (hf : ClimbsTo r (level + 1) f) (hlinks : Links r links s) (hleveled : left.Leveled)
    (htight : ∀ {op}, .inr op ∈ left.items → level ≤ op.level)
    (hstops : ∀ link ∈ links.head?, link.1.level < level + 1) (hn : links.length ≤ n) :
    ∃ tree rest s', chain f level n left.expr s = .ok (tree.expr, s') ∧
      Climbs r level left.items links tree rest s' := by
  induction n generalizing left links s with
  | zero =>
    obtain rfl := List.eq_nil_of_length_eq_zero (Nat.le_zero.mp hn)
    exact chain_climbs_of_lower f 0 hlinks hleveled htight fun _ h => by cases h
  | succ n ih =>
    by_cases hlower : ∀ link ∈ links.head?, link.1.level < level
    · exact chain_climbs_of_lower f (n + 1) hlinks hleveled htight hlower
    · cases hlinks with
      | done stop => exact absurd (fun _ h => by cases h) hlower
      | @next p op e ts s₁ links span hop hunary hmore =>
        -- an operator of this level has the tree so far on its left and a tighter one on its right
        have hle : op.level ≤ level := Nat.le_of_lt_succ (hstops _ rfl)
        have hlevel : op.level = level := by
          refine hle.antisymm (Nat.le_of_not_lt fun hlt => hlower fun link hlink => ?_)
          obtain rfl := Option.some.inj hlink
          exact hlt
        obtain ⟨right, rest₁, s₂, hright, hclimbs⟩ := hf hunary hmore
        have hnode : (OperatorTree.node op left right).Leveled :=
          ⟨fun top htop => hlevel.trans_le (htight (OperatorTree.mem_items_of_top htop)),
            fun top htop => hlevel.trans_lt (hclimbs.tight (OperatorTree.mem_items_of_top htop)),
            hleveled, hclimbs.leveled⟩
        have hnodeTight : ∀ {op'}, .inr op' ∈ (OperatorTree.node op left right).items →
            level ≤ op'.level :=
          fun hop' => hlevel.ge.trans (hnode.level_le_of_top rfl hop')
        have hshorter := hclimbs.shorter
        rw [List.length_cons] at hn
        obtain ⟨tree, rest₂, s₃, hchain, htree⟩ :=
          ih hclimbs.left hnode hnodeTight hclimbs.stops (by omega)
        refine ⟨tree, rest₂, s₃, ?_, { htree with shorter := ?_, items := ?_ }⟩
        · subst hlevel
          rw [chain, operatorAt_next hop]
          exact bind_eq_ok.2 ⟨_, hright, hchain⟩
        · have := htree.shorter
          rw [List.length_cons]
          omega
        · rw [← htree.items, OperatorTree.items, List.append_assoc, List.cons_append, ← hclimbs.items]
          rfl

theorem binary_climbsTo (r : Rules) {k : Nat} (hk : k ≤ 7) : ClimbsTo r (8 - k) (binary r k) := by
  induction k with
  | zero => exact unary_climbsTo r
  | succ k ih =>
    intro s s₁ e links h hlinks
    have hlevel : 8 - k = 7 - k + 1 := by omega
    have hf := ih (by omega)
    obtain ⟨left, rest, s₂, hleft, hclimbs⟩ := hf h hlinks
    rw [hlevel] at hf hclimbs
    obtain ⟨tree, rest', s₃, hchain, htree⟩ := chain_climbs hf hclimbs.left hclimbs.leveled
      (fun hop => Nat.le_of_succ_le (hclimbs.tight hop)) hclimbs.stops hclimbs.left.length_le
    refine ⟨tree, rest', s₃, bind_eq_ok.2 ⟨_, hleft, hchain⟩, ?_⟩
    rw [show 8 - (k + 1) = 7 - k by omega]
    exact { htree with
      shorter := htree.shorter.trans hclimbs.shorter
      items := hclimbs.items.trans htree.items }

/-- Operands and operators up to the end of a stream are read as a tree that has them all. -/
theorem conditional_eq_tree {e : Expr} (h : unary r s = .ok (e, s₁)) (hlinks : Links r links s₁) :
    ∃ tree stop, conditional r s = .ok (OperatorTree.expr tree, .done stop) ∧
      tree.items = .inl e :: linkItems links ∧ tree.Leveled := by
  obtain ⟨tree, rest, s', hbinary, hclimbs⟩ := binary_climbsTo r (Nat.le_refl 7) h hlinks
  cases hclimbs.left with
  | done stop =>
    refine ⟨tree, stop, bind_eq_ok.2 ⟨_, hbinary, rfl⟩, ?_, hclimbs.leveled⟩
    have hitems : .inl e :: linkItems links = tree.items ++ [] := hclimbs.items
    rw [List.append_nil] at hitems
    exact hitems.symm
  | @next p op e ts s links span hop hunary hmore =>
    exact absurd (hclimbs.stops _ rfl) (Nat.not_lt_of_le op.level_bounds.1)

end Grammar

/-! ### Texts -/

open Text

/-- An operator and the operand after it as they are written, with the blanks around the operator. -/
structure Link where
  before : List Char
  op : BinaryOp
  after : List Char
  operand : List Char

namespace Link

/-- The operator of a link with its blanks. -/
def lead (l : Link) : List Char := l.before ++ (l.op.text.toList ++ l.after)

/-- Blanks stand on both sides of the operator. -/
structure Spaced (l : Link) : Prop where
  before_ne : l.before ≠ []
  before : ∀ b ∈ l.before, isBlank b = true
  after_ne : l.after ≠ []
  after : ∀ b ∈ l.after, isBlank b = true

/-- The text of an operand with the links after it. -/
def join (first : List Char) : List Link → List Char
  | [] => first
  | l :: links => first ++ (l.lead ++ join l.operand links)

end Link

/-- A text is an operand where it stands. -/
def IsOperand (base : Int) (cs : List Char) : Prop :=
  ∃ ts stop, Stream.ofText cs base = (Stream.done stop).after ts ∧ Grammar.Operand ts

/-- A text and those of the links after it are operands where they stand. -/
def AreOperands (base : Int) (first : List Char) : List Link → Prop
  | [] => IsOperand base first
  | l :: links => IsOperand base first ∧ l.Spaced ∧
      AreOperands (base + width (first ++ l.lead)) l.operand links

/-- The operators of links, and what each operand reads as by itself where it stands. -/
def readItems (base : Int) (first : List Char) :
    List Link → Except ExprError (List (Expr ⊕ BinaryOp))
  | [] => do
    let e ← Expr.ofChars first base
    .ok [.inl e]
  | l :: links => do
    let e ← Expr.ofChars first base
    let items ← readItems (base + width (first ++ l.lead)) l.operand links
    .ok (.inl e :: .inr l.op :: items)

namespace Link

/-- An operator is written as the mark that stands for it. -/
theorem read_op (op : BinaryOp) : ∃ c rest p, op.text.toList = c :: rest ∧ isBlank c = false ∧
    Lexeme.read c rest = .ok (.punct p, rest.length) ∧ Grammar.binaryOp? p = some op := by
  cases op <;> exact ⟨_, _, _, rfl, rfl, rfl, rfl⟩

/-- The tokens of a text with an operator and more text after it. -/
theorem ofText_append_lead {l : Link} (hl : l.Spaced) {first : List Char} {base stop : Int}
    {ts : List ExprToken} (h : Stream.ofText first base = (Stream.done stop).after ts)
    (cs : List Char) : ∃ p span, Grammar.binaryOp? p = some l.op ∧
      Stream.ofText (first ++ (l.lead ++ cs)) base =
        (Stream.next ⟨.punct p, span⟩
          (Stream.ofText cs (base + width (first ++ l.lead)))).after ts := by
  obtain ⟨before, op, after, operand⟩ := l
  obtain ⟨hbefore_ne, hbefore, hafter_ne, hafter⟩ := hl
  dsimp only at hbefore_ne hbefore hafter_ne hafter
  obtain ⟨b, bs, rfl⟩ := List.exists_cons_of_ne_nil hbefore_ne
  obtain ⟨b', bs', rfl⟩ := List.exists_cons_of_ne_nil hafter_ne
  obtain ⟨c, rest, p, htext, hc, hread, hop⟩ := read_op op
  obtain ⟨span, stop', hmark⟩ := Stream.ofText_token hc hread (base + width first + width (b :: bs))
  refine ⟨p, span, hop, ?_⟩
  have hfirst := Stream.ofText_append_blank (hbefore b List.mem_cons_self)
    (bs ++ (c :: rest ++ b' :: (bs' ++ cs))) h
  have hlead := Stream.ofText_append_blank (hafter b' List.mem_cons_self) (bs' ++ cs) hmark
  have hwidth : base + width first + width (b :: bs) + width (c :: rest) + width (b' :: bs') =
      base + width (first ++ ((b :: bs) ++ (c :: rest ++ b' :: bs'))) := by
    simp only [width_append]
    omega
  calc Stream.ofText (first ++ (lead ⟨b :: bs, op, b' :: bs', operand⟩ ++ cs)) base
    _ = Stream.ofText (first ++ b :: (bs ++ (c :: rest ++ b' :: (bs' ++ cs)))) base := by
      rw [lead, htext]
      simp only [List.append_assoc, List.cons_append]
    _ = (Stream.ofText (b :: bs ++ (c :: rest ++ b' :: (bs' ++ cs))) (base + width first)).after ts :=
      hfirst
    _ = (Stream.ofText (c :: rest ++ b' :: (bs' ++ cs))
          (base + width first + width (b :: bs))).after ts := by
      rw [Stream.ofText_blanks hbefore]
    _ = (Stream.next ⟨.punct p, span⟩ (Stream.ofText (b' :: bs' ++ cs)
          (base + width first + width (b :: bs) + width (c :: rest)))).after ts := by
      rw [hlead]
      rfl
    _ = _ := by rw [Stream.ofText_blanks hafter, hwidth, lead, htext]

end Link

/-- A text of operands and operators is read as a tree that has them all. -/
theorem Grammar.ofChars_eq_tree {cs : List Char} {base : Int} {ts : List ExprToken} {s : Stream}
    {e : Expr} {links : List (BinaryOp × Expr)} (hne : ts ≠ [])
    (htext : Stream.ofText cs base = s.after ts)
    (h : unary (.upTo cs.length) (s.after ts) = .ok (e, s))
    (hlinks : Links (.upTo cs.length) links s) :
    ∃ tree : OperatorTree, Expr.ofChars cs base = .ok tree.expr ∧
      tree.items = .inl e :: linkItems links ∧ tree.Leveled := by
  obtain ⟨tree, stop, hread, hitems, hleveled⟩ := conditional_eq_tree h hlinks
  refine ⟨tree, ?_, hitems, hleveled⟩
  obtain ⟨t, ts, rfl⟩ := List.exists_cons_of_ne_nil hne
  rw [Expr.ofChars, htext]
  exact bind_eq_ok.2 ⟨_, hread, rfl⟩

/-- An operand reads as the same expression by itself and before an operator. -/
theorem IsOperand.read {base : Int} {cs : List Char} (h : IsOperand base cs) :
    ∃ ts stop e, ts ≠ [] ∧ Stream.ofText cs base = (Stream.done stop).after ts ∧
      Expr.ofChars cs base = .ok e ∧ ∀ m u, cs.length ≤ m → Grammar.endsOperand u = true →
        Grammar.unary (.upTo m) (u.after ts) = .ok (e, u) := by
  obtain ⟨ts, stop, hts, hoperand⟩ := h
  obtain ⟨e, he⟩ := hoperand.read
  have hweight : Grammar.weight ts ≤ cs.length := by
    have hle := Stream.weight_ofText_le cs base
    rw [hts, Grammar.weight_after] at hle
    exact Nat.le_of_add_right_le hle
  have hread : ∀ m u, cs.length ≤ m → Grammar.endsOperand u = true →
      Grammar.unary (.upTo m) (u.after ts) = .ok (e, u) :=
    fun m u hm hu => he m (hweight.trans hm) u hu
  refine ⟨ts, stop, e, hoperand.ne_nil, hts, ?_, hread⟩
  obtain ⟨tree, htree, hitems, hleveled⟩ := Grammar.ofChars_eq_tree hoperand.ne_nil hts
    (hread _ _ (Nat.le_refl _) rfl) (.done stop)
  have hsingle : (OperatorTree.operand e).Leveled := trivial
  obtain rfl := hsingle.unique hleveled hitems
  exact htree

/-- What the texts of operands and links have as their tokens, and what each operand reads as. -/
theorem AreOperands.read {base : Int} {first : List Char} {links : List Link}
    (h : AreOperands base first links) : ∃ e read ts s, ts ≠ [] ∧
      Stream.ofText (Link.join first links) base = s.after ts ∧
      readItems base first links = .ok (.inl e :: Grammar.linkItems read) ∧
      ∀ m, (Link.join first links).length ≤ m →
        Grammar.unary (.upTo m) (s.after ts) = .ok (e, s) ∧ Grammar.Links (.upTo m) read s := by
  induction links generalizing base first with
  | nil =>
    obtain ⟨ts, stop, e, hne, hts, he, hread⟩ := IsOperand.read h
    refine ⟨e, [], ts, .done stop, hne, hts, bind_eq_ok.2 ⟨e, he, rfl⟩, fun m hm => ?_⟩
    exact ⟨hread m _ hm rfl, .done stop⟩
  | cons l links ih =>
    obtain ⟨hfirst, hl, hlinks⟩ := h
    obtain ⟨ts, stop, e, hne, hts, he, hread⟩ := hfirst.read
    obtain ⟨e', read, us, s, -, hus, hitems, hlater⟩ := ih hlinks
    obtain ⟨p, span, hop, htext⟩ := Link.ofText_append_lead hl hts (Link.join l.operand links)
    rw [hus] at htext
    refine ⟨e, (l.op, e') :: read, ts, _, hne, htext, ?_, fun m hm => ?_⟩
    · exact bind_eq_ok.2 ⟨e, he, bind_eq_ok.2 ⟨_, hitems, rfl⟩⟩
    · simp only [Link.join, List.length_append] at hm
      obtain ⟨hunary, hmore⟩ := hlater m (by omega)
      refine ⟨hread m _ (by omega) ?_, .next span hop hunary hmore⟩
      rw [Grammar.endsOperand, hop]
      rfl

/-- Operands joined by operators with blanks around them are read as the tree that has them in their
order and in which operators of higher levels stand below those of lower ones, on the left also those
of the same level. There is no other such tree. -/
theorem Expr.ofChars_leveled {base : Int} {first : List Char} {links : List Link}
    (h : AreOperands base first links) :
    ∃ tree : OperatorTree, readItems base first links = .ok tree.items ∧
      Expr.ofChars (Link.join first links) base = .ok tree.expr ∧ tree.Leveled ∧
      ∀ other : OperatorTree, other.items = tree.items → other.Leveled → other = tree := by
  obtain ⟨e, read, ts, s, hne, hts, hitems, hread⟩ := h.read
  obtain ⟨hunary, hlinks⟩ := hread _ (Nat.le_refl _)
  obtain ⟨tree, htree, htreeItems, hleveled⟩ := Grammar.ofChars_eq_tree hne hts hunary hlinks
  exact ⟨tree, by rw [hitems, htreeItems], htree, hleveled,
    fun other hother hleveled' => hleveled.unique hleveled' hother⟩

namespace Link

open Grammar

/-- Links with operators of three levels, behind an operand of three characters. -/
def mixed : List Link :=
  [⟨[' '], .coalesce, [' '], "f(c)".toList⟩, ⟨[' '], .sub, [' '], "(d || e)".toList⟩,
    ⟨[' '], .mul, [' '], "!g".toList⟩]

theorem areOperands_mixed : AreOperands 0 "a.b".toList mixed := by
  have hspaced : ∀ op operand, Spaced ⟨[' '], op, [' '], operand⟩ := fun op operand =>
    ⟨List.cons_ne_nil _ _, List.forall_mem_singleton.mpr rfl, List.cons_ne_nil _ _,
      List.forall_mem_singleton.mpr rfl⟩
  have hmember : IsOperand 0 "a.b".toList := by
    refine ⟨[⟨.ident "a", ⟨0, 1⟩⟩, ⟨.punct .dot, ⟨1, 2⟩⟩, ⟨.ident "b", ⟨2, 3⟩⟩], 3,
      by with_unfolding_all rfl, ?_⟩
    exact .plain (.name "a" _) (List.forall_mem_singleton.mpr (.member rfl _))
  have hcall : IsOperand 7 "f(c)".toList := by
    refine ⟨[⟨.ident "f", ⟨7, 8⟩⟩, ⟨.punct .openParen, ⟨8, 9⟩⟩, ⟨.ident "c", ⟨9, 10⟩⟩,
      ⟨.punct .closeParen, ⟨10, 11⟩⟩], 11, by with_unfolding_all rfl, ?_⟩
    have harg : ReadToEnd Rules.expr [⟨.ident "c", ⟨9, 10⟩⟩] := ⟨1, 10, _, rfl⟩
    exact .plain (.name "f" _) (List.forall_mem_singleton.mpr
      (.bracketed (.arguments (.one harg) _ _)))
  have hparen : IsOperand 14 "(d || e)".toList := by
    refine ⟨[⟨.punct .openParen, ⟨14, 15⟩⟩, ⟨.ident "d", ⟨15, 16⟩⟩, ⟨.punct .bars, ⟨17, 19⟩⟩,
      ⟨.ident "e", ⟨20, 21⟩⟩, ⟨.punct .closeParen, ⟨21, 22⟩⟩], 22, by with_unfolding_all rfl, ?_⟩
    have hinner : ReadToEnd Rules.expr [⟨.ident "d", ⟨15, 16⟩⟩, ⟨.punct .bars, ⟨17, 19⟩⟩,
        ⟨.ident "e", ⟨20, 21⟩⟩] := ⟨1, 21, _, rfl⟩
    exact .plain (.paren hinner _ _) (List.forall_mem_nil _)
  have hunary : IsOperand 25 "!g".toList := by
    refine ⟨[⟨.punct .exclamation, ⟨25, 26⟩⟩, ⟨.ident "g", ⟨26, 27⟩⟩], 27,
      by with_unfolding_all rfl, ?_⟩
    exact .behind rfl (.plain (.name "g" _) (List.forall_mem_nil _))
  exact ⟨hmember, hspaced _ _, hcall, hspaced _ _, hparen, hspaced _ _, hunary⟩

theorem mixed_leveled : AreOperands 0 "a.b".toList mixed ∧
    join "a.b".toList mixed = "a.b ?? f(c) - (d || e) * !g".toList ∧
    ∃ tree : OperatorTree, readItems 0 "a.b".toList mixed = .ok tree.items ∧
      Expr.ofChars (join "a.b".toList mixed) 0 = .ok tree.expr ∧ tree.Leveled ∧
      ∀ other : OperatorTree, other.items = tree.items → other.Leveled → other = tree :=
  ⟨areOperands_mixed, by decide, Expr.ofChars_leveled areOperands_mixed⟩

end Link

end LiveTemplate
