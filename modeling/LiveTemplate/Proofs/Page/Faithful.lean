import LiveTemplate.Proofs.Page.Following
import LiveTemplate.Proofs.Page.Interpretation
import LiveTemplate.Proofs.Result
import Mathlib.Tactic.SplitIfs

/-!
The page of a compiled template is the text its parse tree reads as. Pieces are filled with the texts
of their holes in turn; a render of the plans of some pieces follows the interpretation of what the
pieces were made from.
-/

namespace LiveTemplate

set_option autoImplicit false

namespace Piece

/-- The text of pieces with a text in the place of each hole. -/
def fill : List Piece → List String → String
  | [], _ => ""
  | text s :: rest, texts => s ++ fill rest texts
  | hole _ :: rest, [] => fill rest []
  | hole _ :: rest, t :: texts => t ++ fill rest texts

theorem plans_append (ps qs : List Piece) : plans (ps ++ qs) = plans ps ++ plans qs :=
  List.filterMap_append

theorem plans_text (s : String) (ps : List Piece) : plans (text s :: ps) = plans ps := rfl

theorem plans_hole (plan : Plan) (ps : List Piece) :
    plans (hole plan :: ps) = plan :: plans ps := rfl

/-- Statics and texts in turn are the pieces with their holes filled. -/
theorem interleave_statics (ps : List Piece) (texts : List String)
    (h : texts.length = (plans ps).length) : interleave (statics ps) texts = fill ps texts := by
  induction ps generalizing texts with
  | nil =>
    obtain rfl : texts = [] := List.length_eq_zero_iff.1 h
    rfl
  | cons p rest ih =>
    cases p with
    | text s =>
      rw [plans_text] at h
      rw [fill, ← ih texts h, statics]
      split
      · next hnil =>
        have := length_statics rest
        rw [hnil] at this
        simp at this
      · next next more hstatics =>
        rw [hstatics]
        cases texts <;> simp [interleave, String.append_assoc]
    | hole plan =>
      rw [plans_hole] at h
      cases texts with
      | nil => simp at h
      | cons t texts =>
        rw [fill, statics, interleave, ih texts (by simpa using h), String.empty_append]

theorem fill_append (ps qs : List Piece) (texts more : List String)
    (h : texts.length = (plans ps).length) :
    fill (ps ++ qs) (texts ++ more) = fill ps texts ++ fill qs more := by
  induction ps generalizing texts with
  | nil =>
    obtain rfl : texts = [] := List.length_eq_zero_iff.1 h
    simp [fill]
  | cons p rest ih =>
    cases p with
    | text s =>
      rw [plans_text] at h
      simp only [List.cons_append, fill, ih texts h, String.append_assoc]
    | hole plan =>
      rw [plans_hole] at h
      cases texts with
      | nil => simp at h
      | cons t texts =>
        simp only [List.cons_append, fill, ih texts (by simpa using h), String.append_assoc]

end Piece

/-! ### Dynamics that show texts -/

/-- A content shows a text by itself, whatever components a page may have. -/
def Content.Shows (content : Content) (text : String) : Prop :=
  ∀ component, content.htmlWith component = .ok text

def Dynamic.Shows (d : Dynamic) (text : String) : Prop := d.content.Shows text

def Tree.Shows (tree : Tree) (text : String) : Prop :=
  ∀ component, tree.htmlWith component = .ok text

/-- A row that fits between statics and shows a text with them. -/
def Row.Shows (statics : List String) (row : Row) (text : String) : Prop :=
  row.dynamics.length + 1 = statics.length ∧ ∀ component, row.htmlWith component statics = .ok text

theorem Row.allHtmlWith_shown {statics : List String} {rows : List Row} {texts : List String}
    (h : List.Forall₂ (Row.Shows statics) rows texts) (component : Nat → Except TreeError String) :
    Row.allHtmlWith component statics rows = .ok texts := by
  induction h with
  | nil => rfl
  | cons hr _ ih =>
    rw [Row.allHtmlWith, hr.2 component, ih]
    rfl

/-- Rows that fit make a loop that shows their texts one after the other. -/
theorem Content.createRows_shown {statics : List String} {rows : List Row} {texts : List String}
    (h : List.Forall₂ (Row.Shows statics) rows texts) (fingerprint : String) :
    Content.createRows fingerprint statics rows = .ok (.rows fingerprint statics rows) ∧
      (Content.rows fingerprint statics rows).Shows (String.join texts) := by
  constructor
  · have hfit : (rows.find? fun r => r.dynamics.length + 1 ≠ statics.length) = none := by
      induction h with
      | nil => rfl
      | cons hr _ ih => simpa [hr.1] using ih
    rw [Content.createRows, hfit]
  · intro component
    rw [Content.htmlWith, Row.allHtmlWith_shown h component]
    rfl

theorem Dynamic.allHtmlWith_shown {ds : List Dynamic} {texts : List String}
    (h : List.Forall₂ Dynamic.Shows ds texts) (component : Nat → Except TreeError String) :
    Dynamic.allHtmlWith component ds = .ok texts := by
  induction h with
  | nil => rfl
  | @cons d t ds texts hd _ ih =>
    obtain ⟨id, content⟩ := d
    have hfirst : content.htmlWith component = .ok t := hd component
    rw [Dynamic.allHtmlWith, Dynamic.htmlWith, hfirst, ih]
    rfl

/-- Dynamics for the holes of pieces, and the text they fill the pieces to. -/
def Piece.Shown (ps : List Piece) (ds : List Dynamic) (text : String) : Prop :=
  ∃ texts, List.Forall₂ Dynamic.Shows ds texts ∧ texts.length = (Piece.plans ps).length ∧
    Piece.fill ps texts = text

theorem Piece.Shown.append {ps qs : List Piece} {ds es : List Dynamic} {s t : String}
    (hp : Shown ps ds s) (hq : Shown qs es t) : Shown (ps ++ qs) (ds ++ es) (s ++ t) := by
  obtain ⟨texts, hds, hlength, rfl⟩ := hp
  obtain ⟨more, hes, hmore, rfl⟩ := hq
  refine ⟨texts ++ more, List.rel_append hds hes, ?_, Piece.fill_append ps qs texts more hlength⟩
  rw [List.length_append, Piece.plans_append, List.length_append, hlength, hmore]

theorem Piece.Shown.length_eq {ps : List Piece} {ds : List Dynamic} {text : String}
    (h : Shown ps ds text) : ds.length = (Piece.plans ps).length := by
  obtain ⟨texts, hds, hlength, -⟩ := h
  rw [hds.length_eq, hlength]

/-- The statics of shown pieces around their dynamics. -/
theorem Piece.Shown.html {ps : List Piece} {ds : List Dynamic} {text : String}
    (h : Shown ps ds text) (component : Nat → Except TreeError String) :
    interleave (Piece.statics ps) <$> Dynamic.allHtmlWith component ds = .ok text := by
  obtain ⟨texts, hds, hlength, rfl⟩ := h
  rw [Dynamic.allHtmlWith_shown hds component, ← Piece.interleave_statics ps texts hlength]
  rfl

/-! ### Renders of pieces -/

section Renders

variable {around : Surroundings} {frame : Frame}

theorem Plan.renderAll_append (index : Nat) (ps qs : List Plan) :
    Plan.renderAll around frame index [] (ps ++ qs) = do
      let ds ← Plan.renderAll around frame index [] ps
      let es ← Plan.renderAll around frame (index + ps.length) [] qs
      return ds ++ es := by
  induction ps generalizing index with
  | nil => simp [Plan.renderAll]
  | cons plan rest ih =>
    have hindex : index + (plan :: rest).length = index + 1 + rest.length := by
      simp only [List.length_cons]
      omega
    rw [List.cons_append, Plan.renderAll, Plan.renderAll, hindex]
    simp only [List.tail_nil, ih]
    cases reusable? frame plan.reads ([] : List Dynamic).head? with
    | some before => simp
    | none => simp

/-- A render of the plans of pieces follows an evaluation of their text. -/
def Piece.Writes (around : Surroundings) (frame : Frame) (ps : List Piece) (y : Eval String) :
    Prop :=
  ∀ position index, Follows (PlacedFault frame.source) (Shown ps)
    (Plan.renderAll around { frame with position } index [] (plans ps)) y

namespace Piece.Writes

theorem nil : Writes around frame [] (pure "") := by
  intro position index
  rw [show plans [] = [] from rfl, Plan.renderAll]
  exact .pure ⟨[], .nil, rfl, rfl⟩

theorem append {ps qs : List Piece} {y z : Eval String} (hp : Writes around frame ps y)
    (hq : Writes around frame qs z) :
    Writes around frame (ps ++ qs) (do return (← y) ++ (← z)) := by
  intro position index
  rw [plans_append, Plan.renderAll_append]
  refine (hp position index).bind fun ds s hs => ?_
  refine (hq position _).bind fun es t ht => ?_
  exact .pure (hs.append ht)

theorem text (s : String) : Writes around frame [.text s] (pure s) := by
  intro position index
  rw [show plans [Piece.text s] = [] from rfl, Plan.renderAll]
  exact .pure ⟨[], .nil, rfl, by simp [fill]⟩

/-- Without tracked changes every plan is rendered. -/
theorem hole {plan : Plan} {y : Eval String} (hchanged : frame.changed = none)
    (h : ∀ position, Follows (Raised frame.source) Content.Shows
      (plan.render around { frame with position } none) y) :
    Writes around frame [.hole plan] y := by
  intro position index
  rw [show plans [Piece.hole plan] = [plan] from rfl, Plan.renderAll]
  have hfresh : reusable? { frame with position } plan.reads ([] : List Dynamic).head? = none := by
    simp [reusable?, hchanged]
  rw [hfresh]
  have hdynamic : Follows (Raised frame.source) Dynamic.Shows (do
      let content ← plan.render around { frame with position := position ++ "/" ++ toString index }
        none
      Render.newDynamic content) y := by
    rw [← bind_pure y]
    exact (h _).bind fun content t ht => .newDynamic fun _ => ht
  have hone : Follows (PlacedFault frame.source) (Shown [Piece.hole plan]) (do
      let d ← Render.placing frame.source (do
        let content ←
          plan.render around { frame with position := position ++ "/" ++ toString index } none
        Render.newDynamic content)
      return [d]) y := by
    rw [← bind_pure y]
    refine hdynamic.placing.bind fun d t ht => .pure ⟨[t], .cons ht .nil, rfl, ?_⟩
    simp [fill]
  simpa [Plan.renderAll] using hone

theorem congr {ps : List Piece} {y z : Eval String} (h : Writes around frame ps y) (hyz : y = z) :
    Writes around frame ps z := hyz ▸ h

theorem text_cons {ps : List Piece} {y : Eval String} (s : String)
    (h : Writes around frame ps y) :
    Writes around frame (.text s :: ps) (do return s ++ (← y)) := by
  apply ((text s).append h).congr
  simp

theorem hole_cons {plan : Plan} {ps : List Piece} {y z : Eval String}
    (hp : Writes around frame [.hole plan] y) (hz : Writes around frame ps z) :
    Writes around frame (.hole plan :: ps) (do return (← y) ++ (← z)) := hp.append hz

end Piece.Writes

/-! ### Attributes -/

/-- The text of an evaluated value, as a plan puts it in its place. -/
theorem Follows.encoded {source : Source} (e : Expr) (encode : Value → Eval String) :
    Follows (Raised source) Content.Shows (do
        let v ← Render.value frame e
        .text <$> Render.ofEval (encode v))
      (do
        let v ← e.eval frame.scope
        encode v) :=
  (Follows.value frame e).bind fun v _ h => h ▸ .ofEval_map (encode v) fun _ _ => rfl

theorem quotedText_writes (name : String) {ps : List Piece} {y : Eval String}
    (h : Piece.Writes around frame ps y) :
    Piece.Writes around frame (Fragment.quotedText name ps) (quotedAttribute name <$> y) := by
  have hquoted : quotedAttribute name = fun value => " " ++ (name ++ ("=\"" ++ (value ++ "\""))) := by
    funext value
    simp [quotedAttribute, String.append_assoc]
  apply ((h.append (.text "\"")).text_cons (" " ++ name ++ "=\"")).congr
  simp [hquoted, String.append_assoc]

section Attributes

variable (hchanged : frame.changed = none) (ctx : Fragment.Context) (locals : List String)
include hchanged

theorem attribute_writes (name : String) (form : AttributeForm) (value : Expr) (reads : Reads)
    (span : Span) :
    Piece.Writes around frame [.hole (.attribute name form value reads span)] (do
      let v ← value.eval frame.scope
      form.encode name v) :=
  .hole hchanged fun position => by
    rw [Plan.render]
    exact Follows.encoded value _

theorem templatePieces_write (name : String) (parts : List (Expr × String)) :
    Piece.Writes around frame (Fragment.templatePieces ctx locals name parts)
      (ElementAttribute.interpretParts frame.scope parts) := by
  induction parts with
  | nil => exact .nil
  | cons part rest ih =>
    obtain ⟨value, piece⟩ := part
    rw [Fragment.templatePieces, ElementAttribute.interpretParts]
    apply ((attribute_writes hchanged name .value value _ _).hole_cons
      (ih.text_cons (Html.escape piece))).congr
    simp [AttributeForm.encode, String.append_assoc]

theorem attributePieces_write (a : ElementAttribute) :
    Piece.Writes around frame (Fragment.attributePieces ctx locals a)
      (a.interpret frame.scope) := by
  match a with
  | .literal name value none _ => exact .text _
  | .literal name value (some q) _ => exact .text _
  | .flag name _ => exact .text _
  | .spread value span =>
    refine .hole hchanged fun position => ?_
    rw [Plan.render, ElementAttribute.interpret]
    refine (Follows.value frame value).bind fun v _ hv => ?_
    subst hv
    exact (Follows.ofEval _ _).bind fun fields _ hfields => hfields ▸ .ofEval_map _ fun _ _ => rfl
  | .code name value span =>
    by_cases htemplate : ∃ head parts place, value = .template head parts place
    · obtain ⟨head, parts, place, rfl⟩ := htemplate
      rw [Fragment.attributePieces, ElementAttribute.interpret]
      apply (quotedText_writes name
        ((templatePieces_write hchanged ctx locals name parts).text_cons (Html.escape head))).congr
      simp
    · have hother : ∀ head parts place, value = .template head parts place → False :=
        fun head parts place h => htemplate ⟨head, parts, place, h⟩
      rw [Fragment.attributePieces, ElementAttribute.interpret]
      dsimp only
      split_ifs
      · apply (quotedText_writes name (attribute_writes hchanged name .classes value _ _)).congr
        simp [AttributeForm.encode]
      · apply (quotedText_writes name (attribute_writes hchanged name .styles value _ _)).congr
        simp [AttributeForm.encode]
      · exact attribute_writes hchanged name .whole value _ _
      · exact hother
      · exact hother

theorem attributes_write (attributes : List ElementAttribute) :
    Piece.Writes around frame (attributes.flatMap (Fragment.attributePieces ctx locals))
      (ElementAttribute.interpretAll frame.scope attributes) := by
  induction attributes with
  | nil => exact .nil
  | cons a rest ih =>
    rw [List.flatMap_cons]
    exact (attributePieces_write hchanged ctx locals a).append ih

end Attributes

/-! ### Nodes -/

/-- A tree of pieces shows the text that the pieces are filled to. -/
theorem Piece.Writes.tree {ps : List Piece} {y : Eval String} (h : Piece.Writes around frame ps y)
    (source : Source) (root : Bool) :
    Follows (PlacedFault frame.source) Tree.Shows
      (Fragment.render around frame none (Fragment.ofPieces source ps root false)) y := by
  have hplans : Follows (PlacedFault frame.source) (Shown ps)
      (Plan.renderAll around frame 0 [] (plans ps)) y := by
    have hhere := h frame.position 0
    cases frame
    exact hhere
  rw [Fragment.ofPieces, Fragment.render, ← bind_pure y]
  refine hplans.bind fun ds text hds => .after .newPart fun id _ => ?_
  simp only [Bool.false_eq_true, if_false]
  have hfit : (statics ps).length = ds.length + 1 := by rw [length_statics, hds.length_eq]
  refine .ofTree (by rw [Tree.create, if_pos hfit]) fun component => ?_
  rw [Tree.htmlWith]
  exact hds.html component

/-- Where a fragment stands does not matter. -/
theorem Piece.Writes.at {ps : List Piece} {y : Eval String} (h : Piece.Writes around frame ps y)
    (position : String) : Piece.Writes around { frame with position } ps y :=
  fun place index => h place index

/-- A fragment built from pieces, in the place of a hole. -/
theorem Piece.Writes.nested {ps : List Piece} {y : Eval String} (h : Piece.Writes around frame ps y)
    (source : Source) (root : Bool) :
    Follows (Raised frame.source) Content.Shows
      (.nested <$> Fragment.render around frame none (Fragment.ofPieces source ps root false)) y := by
  have hnested : Follows (PlacedFault frame.source) Content.Shows
      (.nested <$> Fragment.render around frame none (Fragment.ofPieces source ps root false))
      (id <$> y) := (h.tree source root).map fun _ _ ht => ht
  rw [id_map] at hnested
  exact hnested.imp (fun _ _ => .inr) fun _ _ ht => ht

/-- The rows of a loop, one for each item. The scope of a row has the names its item is bound to. -/
theorem Piece.Writes.loop {ps : List Piece} {y : Assoc String Value → Eval String}
    (h : ∀ bound, Piece.Writes around { frame with locals := bound } ps (y bound))
    (pattern : Pattern) (items : List Value) (position fingerprint : String) :
    Follows (Raised frame.source) Content.Shows (do
        let rows ← items.zipIdx.mapM fun (item, i) => do
          let bound ← Render.ofEval (pattern.bindOver item frame.scope frame.locals)
          let place := position ++ ":" ++ toString i
          let before := (((none : Option (List Row)).getD [])[i]?.map Row.dynamics).getD []
          let dynamics ← Plan.renderAll around { frame with locals := bound, position := place } 0
            before (plans ps)
          let id ← Render.newPart
          return Row.mk id dynamics
        Render.emit (.comprehension position rows.length false)
        Render.ofTree (Content.createRows fingerprint (statics ps) rows))
      (do
        let texts ← items.mapM fun item => do
          let bound ← pattern.bindOver item frame.scope frame.locals
          y bound
        return String.join texts) := by
  have hitems : List.Forall₂ (fun (place : Value × Nat) item => place.1 = item) items.zipIdx
      items := by
    have hfst : List.Forall₂ Eq (items.zipIdx.map Prod.fst) items := by
      rw [List.zipIdx_map_fst]
      exact List.forall₂_refl items
    exact List.forall₂_map_left_iff.1 hfst
  refine (Follows.mapM (R := Row.Shows (statics ps)) hitems fun place item hitem => ?_).bind
    fun rows texts hrows => ?_
  · subst hitem
    refine (Follows.ofEval _ _).bind fun bound _ hbound => ?_
    subst hbound
    rw [← bind_pure (y bound)]
    have hplans : Follows (Raised frame.source) (Shown ps) _ (y bound) :=
      (h bound (position ++ ":" ++ toString place.2) 0).imp (fun _ _ => .inr) fun _ _ hds => hds
    refine hplans.bind fun ds text hds => .after .newPart fun id _ => .pure ⟨?_, ?_⟩
    · rw [length_statics, hds.length_eq]
    · exact hds.html
  · obtain ⟨hcreated, hshows⟩ := Content.createRows_shown hrows fingerprint
    exact .after (.emit _) fun _ _ => .ofTree hcreated hshows

theorem slotCall?_eq_none {locals : List String} {value : Expr}
    (h : (Fragment.slotCall? [] value).isNone = true) : Fragment.slotCall? locals value = none := by
  unfold Fragment.slotCall? at h ⊢
  split
  · split
    · simp_all
    · rfl
  · rfl

mutual

theorem pieces_write (ctx : Fragment.Context) : ∀ (node : Node) (locals : List String)
    (frame : Frame), frame.changed = none → node.isPlain = true →
      Piece.Writes around frame (Fragment.pieces ctx locals node) (node.interpret frame)
  | .text content span, locals, frame, hchanged, hplain => by
    rw [Fragment.pieces, Node.interpret]
    exact .text content
  | .code value span, locals, frame, hchanged, hplain => by
    rw [Fragment.pieces, Node.interpret, Fragment.codePlan, slotCall?_eq_none hplain]
    refine .hole hchanged fun position => ?_
    rw [Plan.render]
    exact Follows.encoded value _
  | .element name void attributes children span, locals, frame, hchanged, hplain => by
    rw [Fragment.pieces, Node.interpret]
    have hattributes : Piece.Writes around frame _ _ :=
      attributes_write hchanged ctx locals attributes
    have hstart := hattributes.text_cons ("<" ++ name)
    cases void with
    | true =>
      apply (hstart.append (.text ">")).congr
      simp [String.append_assoc]
    | false =>
      have hchildren := allPieces_write ctx children locals frame hchanged hplain
      apply (hstart.append ((hchildren.append (.text ("</" ++ name ++ ">"))).text_cons ">")).congr
      simp [String.append_assoc]
  | .loop header body span, locals, frame, hchanged, hplain => by
    rw [Fragment.pieces, Node.interpret]
    refine .hole hchanged fun position => ?_
    simp only [Fragment.ofPieces, Bool.false_eq_true, if_false]
    rw [Plan.render]
    refine (Follows.value frame header.items).bind fun source _ hsource => ?_
    subst hsource
    refine (Follows.ofEval _ _).bind fun items _ hitems => ?_
    subst hitems
    have hbody := fun bound => allPieces_write ctx body (locals ++ header.pattern.boundNames)
      { frame with locals := bound } hchanged hplain
    exact Piece.Writes.loop hbody header.pattern items position _
  | .conditional branches span, locals, frame, hchanged, hplain => by
    rw [Fragment.pieces, Node.interpret]
    refine .hole hchanged fun position => ?_
    rw [Plan.render]
    exact branchPlans_follow ctx branches locals frame position 0 hchanged hplain
  | .component call, locals, frame, hchanged, hplain => by
    simp [Node.isPlain] at hplain

theorem allPieces_write (ctx : Fragment.Context) : ∀ (nodes : List Node) (locals : List String)
    (frame : Frame), frame.changed = none → Node.allPlain nodes = true →
      Piece.Writes around frame (Fragment.allPieces ctx locals nodes) (Node.interpretAll frame nodes)
  | [], locals, frame, hchanged, hplain => by
    rw [Fragment.allPieces, Node.interpretAll]
    exact .nil
  | node :: rest, locals, frame, hchanged, hplain => by
    rw [Node.allPlain, Bool.and_eq_true] at hplain
    rw [Fragment.allPieces, Node.interpretAll]
    exact (pieces_write ctx node locals frame hchanged hplain.1).append
      (allPieces_write ctx rest locals frame hchanged hplain.2)

theorem branchPlans_follow (ctx : Fragment.Context) : ∀ (branches : List Branch)
    (locals : List String) (frame : Frame) (position : String) (index : Nat),
      frame.changed = none → Branch.allPlain branches = true →
      Follows (Raised frame.source) Content.Shows
        (BranchPlan.renderFirst around { frame with position } none index
          (Fragment.branchPlans ctx locals branches))
        (Branch.interpretFirst frame branches)
  | [], locals, frame, position, index, hchanged, hplain => by
    rw [Fragment.branchPlans, BranchPlan.renderFirst, Branch.interpretFirst]
    exact .pure fun _ => rfl
  | ⟨condition, body, span⟩ :: rest, locals, frame, position, index, hchanged, hplain => by
    rw [Branch.allPlain, Bool.and_eq_true] at hplain
    have hbody : Follows (Raised frame.source) Content.Shows
        (.nested <$> Fragment.render around
          { frame with position := position ++ "?" ++ toString index } none
          (Fragment.ofPieces ctx.source (Fragment.allPieces ctx locals body)
            (Node.isRoot body) false)) (Node.interpretAll frame body) :=
      ((allPieces_write ctx body locals frame hchanged hplain.1).at _).nested _ _
    rw [Fragment.branchPlans]
    unfold BranchPlan.renderFirst
    cases condition with
    | none =>
      rw [Branch.interpretFirst]
      exact hbody
    | some e =>
      rw [Branch.interpretFirst]
      have hrest := branchPlans_follow ctx rest locals frame position (index + 1) hchanged hplain.2
      have hholds : Follows (Raised frame.source) (fun holds v => holds = v.truthy)
          (Value.truthy <$> Render.value { frame with position } e) (e.eval frame.scope) :=
        .ofEval_map _ fun _ => rfl
      refine hholds.bind fun holds v hv => ?_
      subst hv
      cases v.truthy with
      | true => exact hbody
      | false => exact hrest

end

end Renders

/-- The page of a compiled template is what its parse tree reads as, with the same first fault. -/
theorem Template.page_eq_interpret {source : Source} {helpers : Assoc String Value}
    {unit : Option Nat} {t : Template} {tree : NodeTree}
    (hcompiled : Template.ofSource source helpers unit false = .ok t)
    (htree : NodeTree.ofSource source = .ok tree) (hplain : Node.allPlain tree.children = true)
    (resolve : Resolver) (assigns : Record Value) (journal : Journal) :
    ((t.page resolve assigns).run journal).1 =
      ((t.interpret tree.children assigns).run.run journal.nextId).1.mapError
        (.placedIn source) := by
  obtain ⟨tree', htree', hcompiled⟩ := bind_eq_ok.1 hcompiled
  obtain rfl : tree' = tree := Except.ok.inj (htree'.symm.trans htree)
  cases hcompiled
  let t : Template := ⟨source, helpers, unit,
    Fragment.ofTree tree' source (Assoc.keys helpers) false, tree'.calls⟩
  let frame := t.frame { fields := assigns } journal.nextId none 0
  let start : RenderState := ⟨Mounts.start {} none, { journal with nextId := journal.nextId + 1 }⟩
  have hfollows : Follows (PlacedFault source) Tree.Shows (t.render resolve frame none)
      (Node.interpretAll frame tree'.children) :=
    (allPieces_write ⟨source, Assoc.keys helpers⟩ tree'.children [] frame rfl hplain).tree source tree'.root
  obtain ⟨hend, -⟩ := hfollows start
  have hpage : ((t.page resolve assigns).run journal).1 =
      ((t.render resolve frame none).run.run start).1.bind fun root =>
        ((((t.render resolve frame none).run.run start).2.mounts.snapshot 0 root).html.mapError
          .tree) := rfl
  have hinterpret : ((t.interpret tree'.children assigns).run.run journal.nextId).1 =
      ((Node.interpretAll frame tree'.children).run.run start.journal.nextId).1 := rfl
  rw [hpage, hinterpret]
  clear hpage hinterpret
  revert hend
  cases ((t.render resolve frame none).run.run start).1 with
  | error f =>
    cases ((Node.interpretAll frame tree'.children).run.run start.journal.nextId).1 with
    | error e => exact fun hE => congrArg Except.error hE
    | ok text => exact False.elim
  | ok root =>
    cases ((Node.interpretAll frame tree'.children).run.run start.journal.nextId).1 with
    | error e => exact False.elim
    | ok text =>
      intro hshows
      have hhtml : ∀ components, root.html components = .ok text := fun components => hshows _
      simp only [Except.bind, Mounts.snapshot, Snapshot.html, hhtml]
      rfl

def greeting : Source := ⟨"<p class={kind}>{name}<%= if loud %>!<% end %></p>", "greeting"⟩

def greetingBindings : Record Value :=
  [("kind", .list 0 [.text "a", .text "b"]), ("name", .text "A&B"), ("loud", .flag true)]

theorem greeting_page_eq :
    ∃ t tree, Template.ofSource greeting [] none false = .ok t ∧
      NodeTree.ofSource greeting = .ok tree ∧ Node.allPlain tree.children = true ∧
      ((t.page (fun _ _ => none) greetingBindings).run {}).1 =
        ((t.interpret tree.children greetingBindings).run.run 0).1.mapError
          (.placedIn greeting) ∧
      ((t.page (fun _ _ => none) greetingBindings).run {}).1 =
        .ok "<p class=\"a b\">A&amp;B!</p>" := by
  have hplain : (NodeTree.ofSource greeting).toOption.any fun tree =>
      Node.allPlain tree.children := by decide +kernel
  have htext : (Template.ofSource greeting [] none false).toOption.map (fun t =>
      ((t.page (fun _ _ => none) greetingBindings).run {}).1.toOption) =
        some (some "<p class=\"a b\">A&amp;B!</p>") := by decide +kernel
  obtain ⟨tree, htree, hplain⟩ := (Option.any_eq_true _ _).1 hplain
  obtain ⟨t, ht, htext⟩ := Option.map_eq_some_iff.1 htext
  rw [toOption_eq_some] at htree ht htext
  exact ⟨t, tree, ht, htree, hplain,
    Template.page_eq_interpret ht htree hplain (fun _ _ => none) greetingBindings {}, htext⟩

end LiveTemplate
