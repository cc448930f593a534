import LiveTemplate.Node.Parsing
import LiveTemplate.Proofs.Expr.Phrases
import LiveTemplate.Proofs.Markup.Tokens

/-!
The phrases of a parse tree, and the code they are read from. The code of every token stands where
its span says; what is left of it when blanks and keywords are cut off stands behind them.
-/

namespace LiveTemplate

set_option autoImplicit false

/-! ### The phrases of a tree -/

def ElementAttribute.phrases : ElementAttribute → List Phrase
  | code _ value _ | spread value _ => [.expr value]
  | literal .. | flag .. => []

def ComponentAttribute.phrases : ComponentAttribute → List Phrase
  | named _ value _ _ _ | spread value _ => [.expr value]

mutual

/-- The expressions, loop headers and patterns that are written in a node, as wholes. -/
def Node.phrases : Node → List Phrase
  | .text _ _ => []
  | .code value _ => [.expr value]
  | .element _ _ attributes children _ =>
    attributes.flatMap ElementAttribute.phrases ++ allPhrases children
  | .loop header body _ => .header header :: allPhrases body
  | .conditional branches _ => branchPhrases branches
  | .component c => componentPhrases c

def Node.allPhrases : List Node → List Phrase
  | [] => []
  | node :: rest => Node.phrases node ++ allPhrases rest

def Node.branchPhrases : List Branch → List Phrase
  | [] => []
  | ⟨condition, body, _⟩ :: rest =>
    condition.toList.map .expr ++ allPhrases body ++ branchPhrases rest

def Node.componentPhrases : ComponentNode → List Phrase
  | ⟨_, _, pattern, attributes, slots, body, _, _⟩ =>
    pattern.toList.map .pattern ++ attributes.flatMap ComponentAttribute.phrases ++
      bodyPhrases body ++ slotPhrases slots

def Node.slotPhrases : List SlotEntry → List Phrase
  | [] => []
  | ⟨_, pattern, attributes, body, _⟩ :: rest =>
    pattern.toList.map .pattern ++ attributes.flatMap ComponentAttribute.phrases ++
      bodyPhrases body ++ slotPhrases rest

def Node.bodyPhrases : Option (List Node) → List Phrase
  | none => []
  | some nodes => allPhrases nodes

end

def NodeTree.phrases (tree : NodeTree) : List Phrase := Node.allPhrases tree.children

/-- Phrases that are all placed. -/
def AllPlaced (source : Source) (ps : List Phrase) : Prop := ∀ p ∈ ps, p.Placed source

section

variable {source : Source} {ps qs : List Phrase}

@[simp] theorem AllPlaced.nil : AllPlaced source [] := by simp [AllPlaced]

@[simp] theorem AllPlaced.cons_iff {p : Phrase} :
    AllPlaced source (p :: ps) ↔ p.Placed source ∧ AllPlaced source ps :=
  List.forall_mem_cons

@[simp] theorem AllPlaced.append_iff :
    AllPlaced source (ps ++ qs) ↔ AllPlaced source ps ∧ AllPlaced source qs :=
  List.forall_mem_append

end

@[simp] theorem Node.allPhrases_append (nodes more : List Node) :
    allPhrases (nodes ++ more) = allPhrases nodes ++ allPhrases more := by
  induction nodes with
  | nil => simp [allPhrases]
  | cons n nodes ih => simp [allPhrases, ih]

@[simp] theorem Node.allPhrases_single (n : Node) : allPhrases [n] = n.phrases := by
  simp [allPhrases]

@[simp] theorem Node.branchPhrases_cons (b : Branch) (rest : List Branch) :
    branchPhrases (b :: rest) =
      b.condition.toList.map .expr ++ allPhrases b.body ++ branchPhrases rest := by
  obtain ⟨condition, body, span⟩ := b
  rfl

@[simp] theorem Node.slotPhrases_cons (s : SlotEntry) (rest : List SlotEntry) :
    slotPhrases (s :: rest) = s.pattern.toList.map .pattern ++
      s.attributes.flatMap ComponentAttribute.phrases ++ bodyPhrases s.body ++ slotPhrases rest := by
  obtain ⟨name, pattern, attributes, body, span⟩ := s
  rfl

theorem Node.phrases_component (c : ComponentNode) : (Node.component c).phrases =
    c.pattern.toList.map .pattern ++ c.attributes.flatMap ComponentAttribute.phrases ++
      bodyPhrases c.body ++ slotPhrases c.slots := by
  obtain ⟨tag, target, pattern, attributes, slots, body, call, span⟩ := c
  rfl

@[simp] theorem Node.branchPhrases_append (branches more : List Branch) :
    branchPhrases (branches ++ more) = branchPhrases branches ++ branchPhrases more := by
  induction branches with
  | nil => simp [branchPhrases]
  | cons b branches ih => simp [ih]

@[simp] theorem Node.slotPhrases_append (slots more : List SlotEntry) :
    slotPhrases (slots ++ more) = slotPhrases slots ++ slotPhrases more := by
  induction slots with
  | nil => simp [slotPhrases]
  | cons s slots ih => simp [ih]

/-! ### Code as it stands in tokens -/

def CodeSlice.StandsIn (slice : CodeSlice) (source : Source) : Prop :=
  source.HasAt slice.text.toList slice.span.start

/-- The code of every attribute stands where its span says. -/
def OpenTag.StandsIn (tag : OpenTag) (source : Source) : Prop :=
  ∀ a ∈ tag.attributes, ∀ slice, a.code? = some slice → slice.StandsIn source

/-- The code of a token stands where its span says. -/
def Token.StandsIn (source : Source) : Token → Prop
  | .openTag tag => tag.StandsIn source
  | .code _ slice _ => slice.StandsIn source
  | .text .. | .closeTag .. => True

theorem CodeSlice.WrittenIn.standsIn {source : Source} {slice : CodeSlice}
    {before part after : List Char} (htext : source.chars = before ++ (part ++ after))
    (h : slice.WrittenIn (Text.width before) part) : slice.StandsIn source := by
  obtain ⟨front, back, rfl, hspan⟩ := h
  refine ⟨before ++ front, back ++ after, by simp [htext], ?_⟩
  simp [hspan]

theorem Token.ofSource_standsIn {source : Source} {tokens : List Token}
    (h : Token.ofSource source = .ok tokens) : ∀ t ∈ tokens, t.StandsIn source := by
  intro t ht
  obtain ⟨before, part, after, htext, hreads⟩ := (ofSource_tiling h).exists_reads ht
  rw [Nat.zero_add] at hreads
  have hholds := hreads.holds
  cases t with
  | text | closeTag => trivial
  | code mark slice span => exact CodeSlice.WrittenIn.standsIn htext hholds
  | openTag tag =>
    obtain ⟨blanks, htile⟩ := hholds
    intro a ha slice hslice
    obtain ⟨front, written, back, rfl, hwritten⟩ := htile.exists_reads ha
    have hsource : source.chars = (before ++ front) ++ (written ++ (back ++ after)) := by
      simp [htext]
    apply CodeSlice.WrittenIn.standsIn hsource
    rw [Text.width_append]
    exact hwritten.code slice hslice

/-! ### Blanks and keywords -/

namespace Text

theorem trimBack_front (cs : List Char) : ∃ blanks, cs = trimBack cs ++ blanks := by
  induction cs with
  | nil => exact ⟨[], rfl⟩
  | cons c cs ih =>
    obtain ⟨blanks, hcs⟩ := ih
    unfold trimBack
    split
    · rename_i hnone
      split
      · exact ⟨c :: cs, rfl⟩
      · exact ⟨cs, rfl⟩
    · rename_i d ds hsome
      refine ⟨blanks, ?_⟩
      rw [hsome] at hcs
      rw [hcs]
      rfl

theorem units_of_isBlank {c : Char} (h : isBlank c = true) : units c = 1 := by
  unfold units
  rw [if_pos]
  simp only [isBlank, Bool.or_eq_true, Bool.and_eq_true, decide_eq_true_eq, beq_iff_eq] at h
  omega

theorem width_of_blanks {cs : List Char} (h : ∀ c ∈ cs, isBlank c = true) :
    width cs = cs.length := by
  induction cs with
  | nil => rfl
  | cons c cs ih =>
    rw [List.forall_mem_cons] at h
    rw [width_cons, units_of_isBlank h.1, ih h.2, List.length_cons, Nat.add_comm]

end Text

namespace Source.HasAt

variable {source : Source} {cs : List Char} {offset : Int}

theorem trim (h : source.HasAt cs offset) :
    source.HasAt (Text.trim cs) (offset + Text.width (cs.takeWhile Text.isBlank)) := by
  rw [← List.takeWhile_append_dropWhile (p := Text.isBlank) (l := cs)] at h
  obtain ⟨blanks, hblanks⟩ := Text.trimBack_front (Text.trimFront cs)
  have hrest : source.HasAt (Text.trimFront cs) _ := h.back (cs.takeWhile Text.isBlank)
  rw [hblanks] at hrest
  exact hrest.front blanks

/-- What follows a word that a text begins with. -/
theorem afterWord {word : List Char} (h : source.HasAt cs offset)
    (hword : NodeTree.startsWord word cs = true) :
    source.HasAt (cs.drop word.length) (offset + Text.width word) := by
  simp only [NodeTree.startsWord, Bool.and_eq_true] at hword
  have htake : cs.take word.length = word :=
    (List.prefix_iff_eq_take.1 (List.isPrefixOf_iff_prefix.1 hword.1)).symm
  have hdrop := h.drop word.length
  rwa [htake] at hdrop

/-- The condition of an `else if`. -/
theorem afterElseIf {condition : List Char} {n : Nat} (h : source.HasAt cs offset)
    (helse : NodeTree.elseIf? cs = some (condition, n)) :
    source.HasAt condition (offset + n) := by
  simp only [NodeTree.elseIf?] at helse
  split_ifs at helse with hcond
  obtain ⟨hfront, -, hif⟩ := hcond
  obtain ⟨rfl, rfl⟩ := Prod.mk.inj (Option.some.inj helse)
  have htake : cs.take 4 = ['e', 'l', 's', 'e'] :=
    (List.prefix_iff_eq_take.1 (List.isPrefixOf_iff_prefix.1 hfront)).symm
  have htail := h.drop 4
  have hblanks : Text.width ((cs.drop 4).takeWhile Text.isBlank) =
      ((cs.drop 4).takeWhile Text.isBlank).length :=
    Text.width_of_blanks fun c hc => List.mem_takeWhile_imp hc
  have hword := htail.drop ((cs.drop 4).takeWhile Text.isBlank).length
  rw [Lexeme.takeWhile_take] at hword
  have hrest := hword.afterWord hif
  rw [List.drop_drop, htake, hblanks] at hrest
  have hoffset : offset + Text.width ['e', 'l', 's', 'e'] +
      ((cs.drop 4).takeWhile Text.isBlank).length + Text.width ['i', 'f'] =
      offset + (4 + ((cs.drop 4).takeWhile Text.isBlank).length + 2 : Nat) := by
    simp [Text.units]
    omega
  rwa [hoffset] at hrest

end Source.HasAt

end LiveTemplate
