import LiveTemplate.Proofs.Html.Encoding
import LiveTemplate.Proofs.Page.Faithful

/-!
Named and spread attributes. An attribute that is written with its name and one that comes from a
spread record go different ways into a page, yet come to the same text. What sets them apart is a
list given for the style: under its name it is joined as declarations, and where it is spread its
entries run together.
-/

namespace LiveTemplate

set_option autoImplicit false

namespace Html

variable (call : Call)

mutual

/-- The text of a value is that of its entries, however deep they stand in lists. -/
theorem attributeValue_leaves : ∀ v : Value,
    attributeValue call v = String.join <$> (leaves v).mapM (attributeValue call)
  | .list _ items => attributeValues_leaves items
  | .undefined | .null | .flag _ | .number _ | .text _ | .record _ _ _ | .map _ _ | .set _ _
  | .date _ _ | .html _ _ | .method _ | .helper _ | .closure _ _ _ _ | .block _ _ => by
    simp [leaves]

theorem attributeValues_leaves : ∀ items : List Value,
    attributeValues call items = String.join <$> (allLeaves items).mapM (attributeValue call)
  | [] => rfl
  | v :: rest => by
    rw [attributeValues, allLeaves, List.mapM_append, attributeValue_leaves v,
      attributeValues_leaves rest]
    simp

end

/-- A value whose entries need no separator: no list, or a list with one entry, which is kept. -/
def IsSingle (v : Value) : Prop :=
  (∀ id items, v ≠ .list id items) ∨ ∃ u, leaves v = [u] ∧ isDropped u = false

/-- A value that is written between the quotes of its attribute. -/
def IsQuoted (v : Value) : Prop := v.isAbsent = false ∧ ∀ b, v ≠ .flag b

theorem joined_single {v : Value} (separator : String) (hv : IsQuoted v) (h : IsSingle v) :
    joined separator call v = attributeValue call v := by
  cases v with
  | undefined | null => cases hv.1
  | flag b => exact absurd rfl (hv.2 b)
  | list id items =>
    obtain hlist | ⟨u, hleaves, hkept⟩ := h
    · exact absurd rfl (hlist id items)
    · have hitems : allLeaves items = [u] := hleaves
      rw [attributeValue_leaves, hleaves, joined, hitems]
      simp [hkept]
  | _ => rfl

theorem namedAttribute_quoted {v : Value} (name : String) (hv : IsQuoted v) :
    namedAttribute call name v = quotedAttribute name <$>
      if name = "class" then classes call v else attributeValue call v := by
  cases v with
  | undefined | null => cases hv.1
  | flag b => exact absurd rfl (hv.2 b)
  | _ =>
    simp only [namedAttribute]
    split_ifs <;> exact bind_pure_comp _ _

/-- A record with one field stands for one attribute. -/
theorem attributes_single {name : String} (v : Value) (hname : name ∉ groups) :
    attributes call [(name, v)] = namedAttribute call name v := by
  have hgrouped : grouped (name, v) = [(name, v)] := by
    unfold grouped
    split
    · exact if_neg hname
    · rfl
  simp [attributes, hgrouped]

end Html

namespace ElementAttribute

variable {scope : Scope} {name : String} {e e' : Expr} {v : Value} {id : Identity} {parent : Parent}

/-- What is written for `name={e}` where `e` has a value. -/
theorem interpret_code (span : Span) (hcode : ∀ head parts place, e ≠ .template head parts place)
    (he : e.eval scope = pure v) (hv : Html.IsQuoted v)
    (hstyle : name = "style" → Html.IsSingle v) :
    (code name e span).interpret scope = Html.namedAttribute Value.call name v := by
  rw [interpret, he, pure_bind]
  · rw [Html.namedAttribute_quoted Value.call name hv]
    split_ifs with hclass hstyled
    · simp
    · have hjoined := Html.joined_single Value.call "; " hv (hstyle hstyled)
      simp [Html.styles, hjoined]
    · simp
  · exact hcode

/-- What is written for a spread of a record with one field. -/
theorem interpret_spread (span : Span) (hparent : parent.isPlain = true)
    (he : e'.eval scope = pure (.record id parent [(name, v)])) (hname : name ∉ Html.groups) :
    (spread e' span).interpret scope = Html.namedAttribute Value.call name v := by
  rw [interpret, he, pure_bind]
  have hfields : (Value.record id parent [(name, v)]).spreadFields span = pure [(name, v)] := by
    simp [Value.spreadFields, Value.isAbsent, Value.fields?, hparent]
  rw [hfields, pure_bind, Html.attributes_single Value.call v hname]

end ElementAttribute

/-! ### Templates of one element -/

namespace Text

theorem trimBack_snoc (cs : List Char) {c : Char} (hc : isBlank c = false) :
    trimBack (cs ++ [c]) = cs ++ [c] := by
  induction cs with
  | nil => simp [trimBack, hc]
  | cons d cs ih =>
    rw [List.cons_append, trimBack, ih]
    cases cs <;> rfl

end Text

theorem trimLast_snoc (texts : List String) (last : String) :
    trimLast (texts ++ [last]) = texts ++ [String.ofList (Text.trimBack last.toList)] := by
  induction texts with
  | nil => rfl
  | cons s rest ih =>
    cases rest with
    | nil => rfl
    | cons t rest =>
      have hmore : s :: t :: rest ++ [last] = s :: t :: (rest ++ [last]) := rfl
      rw [hmore, trimLast]
      · exact congrArg (s :: ·) ih
      · simp

namespace Piece

theorem statics_cons_text (s : String) (ps : List Piece) :
    ∃ front rest, statics (text s :: ps) = (s ++ front) :: rest := by
  rw [statics]
  cases statics ps with
  | nil => exact ⟨"", [], by simp⟩
  | cons next more => exact ⟨next, more, rfl⟩

theorem statics_snoc_text (ps : List Piece) (s : String) :
    ∃ rest back, statics (ps ++ [text s]) = rest ++ [back ++ s] := by
  induction ps with
  | nil => exact ⟨[], "", by simp [statics]⟩
  | cons p ps ih =>
    obtain ⟨rest, back, hstatics⟩ := ih
    cases p with
    | hole plan => exact ⟨"" :: rest, back, by rw [List.cons_append, statics, hstatics]; rfl⟩
    | text content =>
      rw [List.cons_append, statics, hstatics]
      cases rest with
      | nil => exact ⟨[], content ++ back, by simp [String.append_assoc]⟩
      | cons next more => exact ⟨(content ++ next) :: more, back, rfl⟩

/-- Nothing is trimmed from what begins and ends with marks. -/
theorem trimEnds_statics {ps qs rs : List Piece} {s t : String}
    (hfront : ps = text s :: qs) (hs : s.toList.head? = some '<')
    (hback : ps = rs ++ [text t]) (ht : t.toList.getLast? = some '>') :
    trimEnds (statics ps) = statics ps := by
  obtain ⟨front, rest, hfirst⟩ := statics_cons_text s qs
  rw [← hfront] at hfirst
  have hstart : String.ofList (Text.trimFront (s ++ front).toList) = s ++ front := by
    obtain ⟨cs, hcs⟩ := List.head?_eq_some_iff.1 hs
    have htrim : Text.trimFront (s ++ front).toList = (s ++ front).toList := by
      rw [String.toList_append, hcs]
      rfl
    rw [htrim, String.ofList_toList]
  rw [hfirst, trimEnds, hstart, ← hfirst]
  obtain ⟨rest, back, hlast⟩ := statics_snoc_text rs t
  obtain ⟨cs, ht⟩ := List.getLast?_eq_some_iff.1 ht
  rw [hback, hlast, trimLast_snoc, String.toList_append, ht, ← List.append_assoc,
    Text.trimBack_snoc _ (by decide), List.append_assoc, ← ht, ← String.toList_append,
    String.ofList_toList]

end Piece

theorem Fragment.trimEnds_element (ctx : Context) (locals : List String) (name : String)
    (void : Bool) (attributes : List ElementAttribute) (children : List Node) (span : Span) :
    trimEnds (Piece.statics (pieces ctx locals (.element name void attributes children span))) =
      Piece.statics (pieces ctx locals (.element name void attributes children span)) := by
  rw [pieces]
  have hopen : ("<" ++ name).toList.head? = some '<' := by simp
  cases void with
  | true => exact Piece.trimEnds_statics rfl hopen rfl rfl
  | false =>
    have hclose : ("</" ++ name ++ ">").toList.getLast? = some '>' := by
      rw [String.toList_append, List.getLast?_append]
      rfl
    let front : List Piece := .text ("<" ++ name) ::
      attributes.flatMap (attributePieces ctx locals) ++ .text ">" :: allPieces ctx locals children
    have hback : .text ("<" ++ name) :: attributes.flatMap (attributePieces ctx locals) ++
        .text ">" :: (allPieces ctx locals children ++ [.text ("</" ++ name ++ ">")]) =
          front ++ [.text ("</" ++ name ++ ">")] := by simp [front]
    exact Piece.trimEnds_statics rfl hopen hback hclose

/-- A template of one element is compiled to the same whether it is trimmed or not. -/
theorem Fragment.ofTree_element {tree : NodeTree} {name : String} {void : Bool}
    {attributes : List ElementAttribute} {children : List Node} {span : Span}
    (htree : tree.children = [.element name void attributes children span]) (source : Source)
    (helpers : List String) (trimmed : Bool) :
    ofTree tree source helpers trimmed = ofPieces source
      (pieces ⟨source, helpers⟩ [] (.element name void attributes children span)) tree.root
        false := by
  have hpieces : allPieces ⟨source, helpers⟩ [] tree.children =
      pieces ⟨source, helpers⟩ [] (.element name void attributes children span) := by
    rw [htree, allPieces, allPieces, List.append_nil]
  rw [ofTree, hpieces, ofPieces, ofPieces, trimEnds_element]
  simp only [ite_self]

mutual

/-- What a node reads as does not depend on the source that it was parsed from. -/
theorem Node.interpret_withSource (source : Source) : ∀ (n : Node) (frame : Frame),
    n.interpret { frame with source } = n.interpret frame
  | .text .., frame | .component .., frame => by simp only [Node.interpret]
  | .code .., frame => by
    simp only [Node.interpret]
    rfl
  | .element _ _ _ children _, frame => by
    simp only [Node.interpret, Node.interpretAll_withSource source children frame]
    rfl
  | .loop header body _, frame => by
    have hbody := fun locals => Node.interpretAll_withSource source body { frame with locals }
    simp only [Node.interpret]
    simp only [← hbody]
    rfl
  | .conditional branches _, frame => by
    simp only [Node.interpret, Branch.interpretFirst_withSource source branches frame]

theorem Node.interpretAll_withSource (source : Source) : ∀ (nodes : List Node) (frame : Frame),
    Node.interpretAll { frame with source } nodes = Node.interpretAll frame nodes
  | [], frame => by simp only [Node.interpretAll]
  | n :: rest, frame => by
    simp only [Node.interpretAll, Node.interpret_withSource source n frame,
      Node.interpretAll_withSource source rest frame]

theorem Branch.interpretFirst_withSource (source : Source) :
    ∀ (branches : List Branch) (frame : Frame),
      Branch.interpretFirst { frame with source } branches = Branch.interpretFirst frame branches
  | [], frame => by simp only [Branch.interpretFirst]
  | ⟨none, body, _⟩ :: _, frame => by
    simp only [Branch.interpretFirst, Node.interpretAll_withSource source body frame]
  | ⟨some condition, body, _⟩ :: rest, frame => by
    simp only [Branch.interpretFirst, Node.interpretAll_withSource source body frame,
      Branch.interpretFirst_withSource source rest frame]
    rfl

end

/-- A template whose render follows an evaluation has the text of that evaluation for its page. -/
theorem Template.page_of_follows {t : Template} {resolve : Resolver} {assigns : Record Value}
    {journal : Journal} {y : Eval String}
    (h : Follows (PlacedFault t.source) Tree.Shows
      (t.render resolve (t.frame { fields := assigns } journal.nextId none 0) none) y) :
    ((t.page resolve assigns).run journal).1 =
      (y.run.run (journal.nextId + 1)).1.mapError (.placedIn t.source) := by
  let frame := t.frame { fields := assigns } journal.nextId none 0
  let start : RenderState := ⟨Mounts.start {} none, { journal with nextId := journal.nextId + 1 }⟩
  have hpage : ((t.page resolve assigns).run journal).1 =
      ((t.render resolve frame none).run.run start).1.bind fun root =>
        (((t.render resolve frame none).run.run start).2.mounts.snapshot 0 root).html.mapError
          .tree := rfl
  obtain ⟨hend, -⟩ := h start
  rw [hpage]
  clear hpage
  revert hend
  cases ((t.render resolve frame none).run.run start).1 with
  | error f =>
    cases (y.run.run start.journal.nextId).1 with
    | error e => exact fun hE => congrArg Except.error hE
    | ok text => exact False.elim
  | ok root =>
    cases (y.run.run start.journal.nextId).1 with
    | error e => exact False.elim
    | ok text =>
      intro hshows
      have hhtml : ∀ components, root.html components = .ok text := fun components => hshows _
      simp only [Except.bind, Mounts.snapshot, Snapshot.html, hhtml]
      rfl

/-- A template that is one element. -/
def Source.IsElement (source : Source) (name : String) (void : Bool)
    (attributes : List ElementAttribute) (children : List Node) : Prop :=
  ∃ tree span, NodeTree.ofSource source = .ok tree ∧
    tree.children = [.element name void attributes children span]

/-- The page of one element is what the element reads as, whether its template is trimmed or not. -/
theorem Template.page_element {source : Source} {helpers : Assoc String Value} {unit : Option Nat}
    {trimmed : Bool} {t : Template} {name : String} {void : Bool}
    {attributes : List ElementAttribute} {children : List Node}
    (ht : Template.ofSource source helpers unit trimmed = .ok t)
    (helement : source.IsElement name void attributes children)
    (hplain : Node.allPlain children = true) (resolve : Resolver) (assigns : Record Value)
    (journal : Journal) (span : Span) :
    ((t.page resolve assigns).run journal).1 =
      (((Node.element name void attributes children span).interpret
        (t.frame { fields := assigns } journal.nextId none 0)).run.run
          (journal.nextId + 1)).1.mapError (.placedIn source) := by
  obtain ⟨tree, place, htree, hchildren⟩ := helement
  obtain ⟨tree', htree', ht⟩ := bind_eq_ok.1 ht
  obtain rfl : tree' = tree := Except.ok.inj (htree'.symm.trans htree)
  rw [Fragment.ofTree_element hchildren] at ht
  obtain rfl := Except.ok.inj ht
  refine Template.page_of_follows ?_
  exact (pieces_write ⟨source, Assoc.keys helpers⟩ (.element name void attributes children place) []
    _ rfl hplain).tree source tree'.root

theorem ElementAttribute.interpretAll_congr {scope : Scope} {a b : ElementAttribute}
    (h : a.interpret scope = b.interpret scope) (before after : List ElementAttribute) :
    interpretAll scope (before ++ a :: after) = interpretAll scope (before ++ b :: after) := by
  induction before with
  | nil => rw [List.nil_append, List.nil_append, interpretAll, interpretAll, h]
  | cons first rest ih => rw [List.cons_append, List.cons_append, interpretAll, interpretAll, ih]

/-- An attribute that is given by its name and one that is spread come to the same page, or to the
same fault. -/
theorem Template.page_named_eq_spread {source source' : Source} {helpers : Assoc String Value}
    {unit : Option Nat} {trimmed : Bool} {t t' : Template} {tag name : String} {void : Bool}
    {before after : List ElementAttribute} {children : List Node} {e e' : Expr} {span span' : Span}
    {assigns : Record Value} {journal : Journal} {v : Value} {id : Identity} {parent : Parent}
    (ht : Template.ofSource source helpers unit trimmed = .ok t)
    (ht' : Template.ofSource source' helpers unit trimmed = .ok t')
    (hnamed : source.IsElement tag void (before ++ .code name e span :: after) children)
    (hspread : source'.IsElement tag void (before ++ .spread e' span' :: after) children)
    (hplain : Node.allPlain children = true)
    (hcode : ∀ head parts place, e ≠ .template head parts place)
    (he : e.eval (t.frame { fields := assigns } journal.nextId none 0).scope = pure v)
    (he' : e'.eval (t.frame { fields := assigns } journal.nextId none 0).scope =
      pure (.record id parent [(name, v)])) (hparent : parent.isPlain = true)
    (hname : name ∉ Html.groups) (hv : Html.IsQuoted v)
    (hstyle : name = "style" → Html.IsSingle v) (resolve : Resolver) :
    ∃ result : Except EvalError String,
      ((t.page resolve assigns).run journal).1 = result.mapError (.placedIn source) ∧
      ((t'.page resolve assigns).run journal).1 = result.mapError (.placedIn source') := by
  refine ⟨_, page_element ht hnamed hplain resolve assigns journal default, ?_⟩
  rw [page_element ht' hspread hplain resolve assigns journal default]
  let frame := t.frame { fields := assigns } journal.nextId none 0
  have hframe : t'.frame { fields := assigns } journal.nextId none 0 =
      { frame with source := source' } := by
    obtain ⟨tree, -, ht⟩ := bind_eq_ok.1 ht
    obtain ⟨tree', -, ht'⟩ := bind_eq_ok.1 ht'
    obtain rfl := Except.ok.inj ht
    obtain rfl := Except.ok.inj ht'
    rfl
  have hsame : (ElementAttribute.spread e' span').interpret frame.scope =
      (ElementAttribute.code name e span).interpret frame.scope := by
    rw [ElementAttribute.interpret_code span hcode he hv hstyle,
      ElementAttribute.interpret_spread span' hparent he' hname]
  rw [hframe, Node.interpret_withSource, Node.interpret, Node.interpret,
    ElementAttribute.interpretAll_congr hsame]

def labelNamed : Source := ⟨"<p class={c} id=x>{n}</p>", "label"⟩

/-- The code of the spread is padded, so what follows stands where it does beside the name. -/
def labelSpread : Source := ⟨"<p {a      } id=x>{n}</p>", "label"⟩

def labelClasses : Value := .list 0 [.text "a", .list 1 [.text "b", .null], .text ""]

def labelBindings : Record Value :=
  [("c", labelClasses), ("a", .record 2 .plain [("class", labelClasses)]), ("n", .text "A&B")]

/-- A template that is one of the labels, but for its first attribute. -/
def Source.IsLabel (source : Source) (first : ElementAttribute) : Prop :=
  source.IsElement "p" false ([] ++ first :: [.literal "id" "x" none ⟨13, 17⟩])
    [.code (.name "n" ⟨19, 20⟩) ⟨18, 21⟩]

/-- The first attribute of a label. -/
def NodeTree.labelled? (tree : NodeTree) : Option ElementAttribute :=
  match tree.children with
  | [.element tag void [first, .literal key text none span] [.code (.name x inner) outer] _] =>
    if (tag, key, text, x) = ("p", "id", "x", "n") ∧ void = false ∧
        [span, inner, outer] = [⟨13, 17⟩, ⟨19, 20⟩, ⟨18, 21⟩] then some first
    else none
  | _ => none

theorem Source.isLabel_of_labelled? {source : Source} {first : ElementAttribute}
    (h : (NodeTree.ofSource source).toOption.bind NodeTree.labelled? = some first) :
    source.IsLabel first := by
  obtain ⟨tree, htree, hfirst⟩ := Option.bind_eq_some_iff.1 h
  unfold NodeTree.labelled? at hfirst
  split at hfirst
  · split_ifs at hfirst with hrest
    obtain ⟨hnames, rfl, hplaces⟩ := hrest
    cases hnames
    cases hplaces
    cases hfirst
    exact ⟨tree, _, toOption_eq_some.1 htree, ‹_›⟩
  · cases hfirst

/-- The name that is the value of an attribute, after the attribute's own name if it has one. -/
def ElementAttribute.nameValue? : ElementAttribute → Option (Option String × String × Span × Span)
  | .code name (.name x place) span => some (some name, x, place, span)
  | .spread (.name x place) span => some (none, x, place, span)
  | _ => none

theorem labelNamed_isLabel : labelNamed.IsLabel (.code "class" (.name "c" ⟨10, 11⟩) ⟨3, 12⟩) := by
  have hvalue : ((NodeTree.ofSource labelNamed).toOption.bind NodeTree.labelled?).bind
      ElementAttribute.nameValue? = some (some "class", "c", ⟨10, 11⟩, ⟨3, 12⟩) := by
    decide +kernel
  obtain ⟨first, hfirst, hvalue⟩ := Option.bind_eq_some_iff.1 hvalue
  unfold ElementAttribute.nameValue? at hvalue
  split at hvalue <;> cases hvalue
  exact Source.isLabel_of_labelled? hfirst

theorem labelSpread_isLabel : labelSpread.IsLabel (.spread (.name "a" ⟨4, 5⟩) ⟨3, 12⟩) := by
  have hvalue : ((NodeTree.ofSource labelSpread).toOption.bind NodeTree.labelled?).bind
      ElementAttribute.nameValue? = some (none, "a", ⟨4, 5⟩, ⟨3, 12⟩) := by
    decide +kernel
  obtain ⟨first, hfirst, hvalue⟩ := Option.bind_eq_some_iff.1 hvalue
  unfold ElementAttribute.nameValue? at hvalue
  split at hvalue <;> cases hvalue
  exact Source.isLabel_of_labelled? hfirst

theorem label_named_eq_spread :
    ∃ t t', Template.ofSource labelNamed [] none true = .ok t ∧
      Template.ofSource labelSpread [] none true = .ok t' ∧
      ((t.page (fun _ _ => none) labelBindings).run {}).1 =
        .ok "<p class=\"a b\" id=x>A&amp;B</p>" ∧
      ∃ result : Except EvalError String,
        ((t.page (fun _ _ => none) labelBindings).run {}).1 =
          result.mapError (.placedIn labelNamed) ∧
        ((t'.page (fun _ _ => none) labelBindings).run {}).1 =
          result.mapError (.placedIn labelSpread) := by
  have htext : (Template.ofSource labelNamed [] none true).toOption.map (fun t =>
      ((t.page (fun _ _ => none) labelBindings).run {}).1.toOption) =
        some (some "<p class=\"a b\" id=x>A&amp;B</p>") := by decide +kernel
  have hcompiled : (Template.ofSource labelSpread [] none true).toOption.isSome := by
    decide +kernel
  obtain ⟨t, ht, htext⟩ := Option.map_eq_some_iff.1 htext
  obtain ⟨t', ht'⟩ := Option.isSome_iff_exists.1 hcompiled
  rw [toOption_eq_some] at ht ht' htext
  have hscope : (t.frame { fields := labelBindings } 0 none 0).scope =
      [⟨none, []⟩, ⟨none, [("assigns", .record 0 .plain labelBindings)]⟩, ⟨none, []⟩,
        ⟨none, labelBindings⟩] := by
    obtain ⟨tree, -, ht⟩ := bind_eq_ok.1 ht
    obtain rfl := Except.ok.inj ht
    rfl
  have hc : (Expr.name "c" ⟨10, 11⟩).eval (t.frame { fields := labelBindings } 0 none 0).scope =
      pure labelClasses := by
    rw [hscope]
    rfl
  have ha : (Expr.name "a" ⟨4, 5⟩).eval (t.frame { fields := labelBindings } 0 none 0).scope =
      pure (.record 2 .plain [("class", labelClasses)]) := by
    rw [hscope]
    rfl
  exact ⟨t, t', ht, ht', htext, Template.page_named_eq_spread ht ht' labelNamed_isLabel
    labelSpread_isLabel rfl (fun _ _ _ h => by cases h) hc ha rfl (by decide)
    ⟨rfl, fun _ h => by cases h⟩ (fun h => absurd h (by decide)) _⟩

end LiveTemplate
