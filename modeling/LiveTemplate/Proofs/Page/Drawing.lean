import LiveTemplate.Html.Encoding
import LiveTemplate.Proofs.Eval.Freshness
import LiveTemplate.Proofs.Fragment.Tracking
import LiveTemplate.Proofs.Render.Writes
import LiveTemplate.Proofs.Tree.Parts
import LiveTemplate.Render

/-!
What plans without components and slots put in their places when they are drawn anew: contents without
identities, from the names that are looked up alone. A plan whose lookups meet in two scopes is drawn
the same in both.
-/

namespace LiveTemplate

set_option autoImplicit false

/-! ### Texts of the page -/

/-- Alike values are lists of alike items, or no lists. -/
theorem Alike.nested {σ : Pairing} {P : Value → Value → Prop}
    (list : ∀ i j xs ys, List.Forall₂ P xs ys → P (.list i xs) (.list j ys))
    (other : ∀ v w, Alike σ v w → (∀ i xs, v ≠ .list i xs) → P v w) {v w : Value}
    (h : Alike σ v w) : P v w := by
  induction h with
  | list _ hlength _ ih => exact list _ _ _ _ (forall₂_of_zip hlength ih)
  | undefined => exact other _ _ .undefined nofun
  | null => exact other _ _ .null nofun
  | flag b => exact other _ _ (.flag b) nofun
  | number x => exact other _ _ (.number x) nofun
  | text s => exact other _ _ (.text s) nofun
  | record hid hsort hparent hnames hall => exact other _ _ (.record hid hsort hparent hnames hall) nofun
  | map hid hlength hkeys hvalues => exact other _ _ (.map hid hlength hkeys hvalues) nofun
  | set hid hlength hall => exact other _ _ (.set hid hlength hall) nofun
  | date t hid => exact other _ _ (.date t hid) nofun
  | html s hid => exact other _ _ (.html s hid) nofun
  | method m => exact other _ _ (.method m) nofun
  | helper f => exact other _ _ (.helper f) nofun
  | closure hid hlength hids hnames hinner houter houter' hfound hstep hend hknown hparams hbody =>
    exact other _ _ (.closure hid hlength hids hnames hinner houter houter' hfound hstep hend hknown
      hparams hbody) nofun
  | block content hid => exact other _ _ (.block content hid) nofun

section Html
variable {σ : Pairing} (hσ : σ.Exact) {call : Call} (hcall : Steady σ call)
include hσ hcall

theorem both_plain {v w : Value} (h : Alike σ v w) :
    Both σ Eq (Html.plain call v) (Html.plain call w) := by
  rw [Html.plain, Html.plain, markup?_alike h]
  cases w.markup? with
  | some markup => exact .pure rfl
  | none => exact (both_toText hσ hcall h).bind fun _ _ hst => .pure (congrArg Html.escape hst)

/-- Alike values become the same text between tags. -/
theorem both_text {v w : Value} (h : Alike σ v w) :
    Both σ Eq (Html.text call v) (Html.text call w) := by
  refine h.nested (P := fun v w => Both σ Eq (Html.text call v) (Html.text call w))
    (fun i j xs ys hall => ?_) fun v w h hlist => ?_
  · rw [Html.text, Html.text]
    induction hall with
    | nil => exact .pure rfl
    | cons hvw _ ih =>
      rw [Html.texts, Html.texts]
      exact hvw.bind fun _ _ hst => ih.bind fun _ _ hrest => .pure (by rw [hst, hrest])
  · have hplain := both_plain hσ hcall h
    cases h with
    | list => exact absurd rfl (hlist _ _)
    | undefined | null => exact .pure rfl
    | flag b =>
      cases b with
      | false => exact .pure rfl
      | true => exact hplain
    | _ => exact hplain

/-- So they do in an attribute. -/
theorem both_attributeValue {v w : Value} (h : Alike σ v w) :
    Both σ Eq (Html.attributeValue call v) (Html.attributeValue call w) := by
  refine h.nested (P := fun v w => Both σ Eq (Html.attributeValue call v) (Html.attributeValue call w))
    (fun i j xs ys hall => ?_) fun v w h hlist => ?_
  · rw [Html.attributeValue, Html.attributeValue]
    induction hall with
    | nil => exact .pure rfl
    | cons hvw _ ih =>
      rw [Html.attributeValues, Html.attributeValues]
      exact hvw.bind fun _ _ hst => ih.bind fun _ _ hrest => .pure (by rw [hst, hrest])
  · have hplain := both_plain hσ hcall h
    cases h with
    | list => exact absurd rfl (hlist _ _)
    | _ => exact hplain

omit hσ hcall in
theorem leaves_alike {v w : Value} (h : Alike σ v w) :
    List.Forall₂ (Alike σ) (Html.leaves v) (Html.leaves w) := by
  refine h.nested (P := fun v w => List.Forall₂ (Alike σ) (Html.leaves v) (Html.leaves w))
    (fun i j xs ys hall => ?_) fun v w h hlist => ?_
  · rw [Html.leaves, Html.leaves]
    induction hall with
    | nil => exact .nil
    | cons hvw _ ih =>
      rw [Html.allLeaves, Html.allLeaves]
      exact List.rel_append hvw ih
  · have hself : List.Forall₂ (Alike σ) [v] [w] := .cons h .nil
    cases h with
    | list => exact absurd rfl (hlist _ _)
    | _ => exact hself

omit hσ hcall in
theorem isDropped_alike {v w : Value} (h : Alike σ v w) : Html.isDropped v = Html.isDropped w := by
  cases h <;> rfl

theorem both_joined (separator : String) {v w : Value} (h : Alike σ v w) :
    Both σ Eq (Html.joined separator call v) (Html.joined separator call w) := by
  have hleaves := leaves_alike h
  have hvalue := both_attributeValue hσ hcall h
  cases h with
  | undefined | null | flag => exact .pure rfl
  | list =>
    rw [Html.leaves, Html.leaves] at hleaves
    have hkept := List.rel_filter (p := fun v => !Html.isDropped v) (q := fun v => !Html.isDropped v)
      (fun a b hab => iff_of_eq (congrArg (fun d => (!d) = true) (isDropped_alike hab))) hleaves
    refine (Both.mapM hkept fun _ _ hab => both_attributeValue hσ hcall hab).bind fun _ _ hts => ?_
    rw [List.forall₂_eq_eq_eq] at hts
    exact .pure (congrArg _ hts)
  | _ => exact hvalue

theorem both_namedAttribute (name : String) {v w : Value} (h : Alike σ v w) :
    Both σ Eq (Html.namedAttribute call name v) (Html.namedAttribute call name w) := by
  have hclasses := both_joined hσ hcall " " h
  have hvalue := both_attributeValue hσ hcall h
  have hquoted : Both σ Eq (do
        let value ← if name = "class" then Html.classes call v else Html.attributeValue call v
        return " " ++ name ++ "=\"" ++ value ++ "\"")
      (do
        let value ← if name = "class" then Html.classes call w else Html.attributeValue call w
        return " " ++ name ++ "=\"" ++ value ++ "\"") := by
    split
    · exact hclasses.bind fun _ _ hst => .pure (by rw [hst])
    · exact hvalue.bind fun _ _ hst => .pure (by rw [hst])
  cases h with
  | undefined | null => exact .pure rfl
  | flag b => cases b <;> exact .pure rfl
  | _ => exact hquoted

omit hσ hcall in
theorem grouped_alike {e f : String × Value} (h : e.1 = f.1 ∧ Alike σ e.2 f.2) :
    NamesAlike σ (Html.grouped e) (Html.grouped f) := by
  have hfields := h.2.fields?_rel
  rw [Html.grouped, Html.grouped, h.1]
  generalize e.2.fields? = a at hfields
  generalize f.2.fields? = b at hfields
  cases hfields with
  | none => exact .cons h .nil
  | some hfields =>
    dsimp only
    split
    · exact List.rel_map (fun _ _ he => ⟨congrArg (f.1 ++ "-" ++ ·) he.1, he.2⟩) hfields
    · exact .cons h .nil

theorem both_attributes {fs gs : Record Value} (h : NamesAlike σ fs gs) :
    Both σ Eq (Html.attributes call fs) (Html.attributes call gs) := by
  have hall : NamesAlike σ (fs.flatMap Html.grouped) (gs.flatMap Html.grouped) :=
    List.rel_flatMap h fun _ _ he => grouped_alike he
  rw [Html.attributes, Html.attributes]
  have hwritten := Both.mapM hall fun e f he =>
    (he.1 ▸ both_namedAttribute hσ hcall e.1 he.2 : Both σ Eq (Html.namedAttribute call e.1 e.2)
      (Html.namedAttribute call f.1 f.2))
  refine hwritten.bind fun _ _ hts => ?_
  rw [List.forall₂_eq_eq_eq] at hts
  exact .pure (congrArg _ hts)

end Html

/-- The items of a loop. -/
theorem both_items {σ : Pairing} (hσ : σ.Exact) {v w : Value} (h : Alike σ v w) (span : Span) :
    Both σ (List.Forall₂ (Alike σ)) (v.items Value.call span) (w.items Value.call span) := by
  have hfields := h.fields?_rel
  rw [Value.items, Value.items, isWalkable_alike h, h.isAbsent_eq, h.describe_eq]
  split
  · exact .pure .nil
  · split
    · exact both_walk hσ (steady_call hσ) h
    · generalize v.fields? = a at hfields
      generalize w.fields? = b at hfields
      cases hfields with
      | none => exact .fail _ span
      | some hfields => exact Both.mapM hfields fun _ _ he => both_newPair (he.1 ▸ .text _) he.2

theorem both_encode {σ : Pairing} (hσ : σ.Exact) (form : AttributeForm) (name : String) {v w : Value}
    (h : Alike σ v w) : Both σ Eq (form.encode name v) (form.encode name w) := by
  have hcall : Steady σ Value.call := steady_call hσ
  cases form with
  | whole => exact both_namedAttribute hσ hcall name h
  | value => exact both_attributeValue hσ hcall h
  | classes => exact both_joined hσ hcall " " h
  | styles => exact both_joined hσ hcall "; " h

/-! ### Names that meet -/

/-- Scopes in which lookups of known names, and along granted paths, meet. Nothing in them is still
being bound. -/
structure Scope.Meets (σ : Pairing) (granted : String → List String → Prop) (known : List String)
    (s s' : Scope) : Prop where
  plain : ∀ layer ∈ s, layer.id = none
  plain' : ∀ layer ∈ s', layer.id = none
  meet : ∀ x path, x ∈ known ∨ granted x path →
    Option.Rel (Value.Meet σ path) (s.lookup x) (s'.lookup x)

/-- Two layers over two others: a name is bound to alike values in both, or to what it was before. All
of certain names are bound in both. -/
structure Layer.Over (σ : Pairing) (before before' : List (String × Value)) (bound : List String)
    (a b : Layer) : Prop where
  plain : a.id = none
  plain' : b.id = none
  each : ∀ x, (∃ v w, Assoc.get? a.names x = some v ∧ Assoc.get? b.names x = some w ∧ Alike σ v w) ∨
    (x ∉ bound ∧ Assoc.get? a.names x = Assoc.get? before x ∧
      Assoc.get? b.names x = Assoc.get? before' x)

theorem Scope.lookup_cons_of_plain {layer : Layer} (h : layer.id = none) (rest : Scope)
    (x : String) : lookup (layer :: rest) x = (Assoc.get? layer.names x).or (lookup rest x) := by
  rw [lookup]
  cases Assoc.get? layer.names x with
  | none => rfl
  | some v => exact congrArg some (current_of_plain h v)

section Meets
variable {σ : Pairing} {granted : String → List String → Prop} {known : List String}

/-- What is confined to known names and granted paths evaluates alike where these meet. -/
theorem Scope.Meets.scopes {s s' : Scope} (h : Scope.Meets σ granted known s s') :
    Scopes σ (fun x path => x ∈ known ∨ granted x path) [] s s' :=
  ⟨[], [], s, s', rfl, rfl, .nil, h.plain, h.plain', fun hx => h.meet _ _ hx,
    fun _ hx => absurd hx List.not_mem_nil⟩

theorem allows_known (known : List String) :
    Allows granted (fun x path => x ∈ known ∨ granted x path) known [] := fun _ _ hx => .inr hx

theorem Layer.Over.start (before before' : List (String × Value)) :
    Layer.Over σ before before' [] ⟨none, before⟩ ⟨none, before'⟩ :=
  ⟨rfl, rfl, fun _ => .inr ⟨List.not_mem_nil, rfl, rfl⟩⟩

variable {before before' : List (String × Value)} {bound : List String} {a b : Layer}
  (hab : Layer.Over σ before before' bound a b)
include hab

theorem Layer.Over.put (name : String) {v w : Value} (hvw : Alike σ v w) :
    Layer.Over σ before before' (bound ++ [name]) (a.put name v) (b.put name w) := by
  refine ⟨hab.plain, hab.plain', fun x => ?_⟩
  rw [Layer.put, Layer.put]
  by_cases hx : x = name
  · subst hx
    exact .inl ⟨v, w, Assoc.get?_set_self _ _ _, Assoc.get?_set_self _ _ _, hvw⟩
  · rw [Assoc.get?_set_of_ne _ _ (Ne.symm hx), Assoc.get?_set_of_ne _ _ (Ne.symm hx)]
    refine (hab.each x).imp_right fun h => ⟨fun hmem => ?_, h.2⟩
    rw [List.mem_append, List.mem_singleton] at hmem
    exact hmem.elim h.1 hx

/-- Lookups under the names over those of before. -/
theorem Layer.Over.meet (hσ : σ.Exact) {outer outer' : Scope} {x : String} {path : List String}
    (h : x ∈ bound ∨ Option.Rel (Value.Meet σ path) (Scope.lookup (⟨none, before⟩ :: outer) x)
      (Scope.lookup (⟨none, before'⟩ :: outer') x)) :
    Option.Rel (Value.Meet σ path) (Scope.lookup (a :: outer) x) (Scope.lookup (b :: outer') x) := by
  rw [Scope.lookup_cons_of_plain hab.plain, Scope.lookup_cons_of_plain hab.plain']
  rcases hab.each x with ⟨v, w, hv, hw, hvw⟩ | ⟨hbound, ha, hb⟩
  · rw [hv, hw]
    exact .some (hvw.meet hσ path)
  · rw [ha, hb]
    have hmeet := h.resolve_left hbound
    rwa [Scope.lookup_cons_of_plain rfl, Scope.lookup_cons_of_plain rfl] at hmeet

omit hab in
theorem Scope.lookup_extend (s : Scope) (layer : Layer) (x : String) :
    (s.extend layer).lookup x = Scope.lookup (layer :: s) x := by
  rw [Scope.extend]
  split
  · rename_i hempty
    rw [Scope.lookup, List.isEmpty_iff.mp hempty, Assoc.get?_nil]
  · rfl

end Meets

/-! ### Drawing -/

section Loops
variable (pattern : Pattern) (outer : Scope) (locals : Assoc String Value)
  (body : Assoc String Value → Eval (List Dynamic))

/-- The row of a loop for an item, from what its body is drawn to with some local names. -/
def drawRow (item : Value) : Eval Row := do
  let names ← pattern.bindOver item (⟨none, locals⟩ :: outer) locals
  Row.mk 0 <$> body names

/-- The rows of a loop over a value. -/
def drawRows (span : Span) (source : Value) : Eval (List Row) := do
  let items ← source.items Value.call span
  items.mapM (drawRow pattern outer locals body)

end Loops

mutual

/-- What a plan puts in its place, in a scope with local names. Components and slots are not drawn. -/
def Plan.draw (outer : Scope) (locals : Assoc String Value) : Plan → Eval Content
  | .body e _ _ => do
    let v ← e.eval (⟨none, locals⟩ :: outer)
    .text <$> Html.text Value.call v
  | .attribute name form e _ _ => do
    let v ← e.eval (⟨none, locals⟩ :: outer)
    .text <$> form.encode name v
  | .spread e _ span => do
    let v ← e.eval (⟨none, locals⟩ :: outer)
    let fields ← v.spreadFields span
    .text <$> Html.attributes Value.call fields
  | .conditional branches _ _ => BranchPlan.drawFirst outer locals branches
  | .comprehension header ⟨statics, plans, fingerprint, _, _⟩ _ _ => do
    let source ← header.items.eval (⟨none, locals⟩ :: outer)
    .rows fingerprint statics <$> drawRows header.pattern outer locals
      (fun names => Plan.drawAll outer names plans) header.items.span source
  | .slot _ _ _ _ | .component _ => return .text ""

def Fragment.draw (outer : Scope) (locals : Assoc String Value) : Fragment → Eval Tree
  | ⟨statics, plans, fingerprint, root, _⟩ => do
    let dynamics ← Plan.drawAll outer locals plans
    return ⟨0, statics, dynamics, fingerprint, root⟩

def Plan.drawAll (outer : Scope) (locals : Assoc String Value) : List Plan → Eval (List Dynamic)
  | [] => return []
  | plan :: rest => do
    let content ← Plan.draw outer locals plan
    let dynamics ← Plan.drawAll outer locals rest
    return ⟨0, content⟩ :: dynamics

/-- The first branch whose condition holds; nothing if none does. -/
def BranchPlan.drawFirst (outer : Scope) (locals : Assoc String Value) :
    List BranchPlan → Eval Content
  | [] => return .text ""
  | ⟨none, body⟩ :: _ => .nested <$> Fragment.draw outer locals body
  | ⟨some e, body⟩ :: rest => do
    let v ← e.eval (⟨none, locals⟩ :: outer)
    if v.truthy then .nested <$> Fragment.draw outer locals body
    else BranchPlan.drawFirst outer locals rest

end

section Draws
variable {σ : Pairing} (hσ : σ.Exact) {granted : String → List String → Prop} {outer outer' : Scope}

/-- Names over others, in scopes that meet, bind alike values where lookups of defaults meet. -/
theorem Scope.Meets.binds {known : List String} {before before' : List (String × Value)}
    (hσ : σ.Exact) (h : Scope.Meets σ granted known (⟨none, before⟩ :: outer) (⟨none, before'⟩ :: outer')) :
    Binds σ (fun x path => x ∈ known ∨ granted x path) [] (⟨none, before⟩ :: outer)
      (⟨none, before'⟩ :: outer') (Layer.Over σ before before') where
  put hab name _ _ hvw := hab.put name hvw
  inner {bound a b} hab := by
    have htwice : ∀ (names : List (String × Value)) (rest : Scope) (x : String),
        Scope.lookup (⟨none, names⟩ :: ⟨none, names⟩ :: rest) x = Scope.lookup (⟨none, names⟩ :: rest) x := by
      intro names rest x
      rw [Scope.lookup_cons_of_plain rfl, Scope.lookup_cons_of_plain rfl, ← Option.or_assoc,
        Option.or_self]
    have hextend : ∀ {s : Scope} {layer : Layer}, layer.id = none → (∀ l ∈ s, l.id = none) →
        ∀ l ∈ s.extend layer, l.id = none := by
      intro s layer hlayer hs
      rw [Scope.extend]
      split
      · exact hs
      · exact List.forall_mem_cons.mpr ⟨hlayer, hs⟩
    refine ⟨[], [], Scope.extend _ a, Scope.extend _ b, rfl, rfl, .nil, hextend hab.plain h.plain,
      hextend hab.plain' h.plain',
      fun {x path} hx => ?_, fun _ hx => absurd hx List.not_mem_nil⟩
    rw [Scope.lookup_extend, Scope.lookup_extend]
    refine hab.meet hσ (.inr ?_)
    rw [htwice, htwice]
    exact h.meet x path hx

include hσ

theorem Scope.Meets.both_eval {known : List String} {s s' : Scope} (h : Scope.Meets σ granted known s s')
    {e : Expr} (hc : e.Confined granted known) : Both σ (Alike σ) (e.eval s) (e.eval s') :=
  both_settle (both_link hσ (steady_call hσ) h.scopes e (hc.imp (allows_known known)))

variable {known : List String} {before before' : List (String × Value)}
  (h : Scope.Meets σ granted known (⟨none, before⟩ :: outer) (⟨none, before'⟩ :: outer'))

include h

/-- The names of a confined pattern meet afterwards, besides those that met before. -/
theorem Scope.Meets.both_bindOver {p : Pattern} (hc : p.Confined granted known)
    (hfunction : p.makesFunction = false) {v w : Value} (hvw : Alike σ v w) :
    Both σ (fun ms ns => Scope.Meets σ granted (known ++ p.boundNames) (⟨none, ms⟩ :: outer)
      (⟨none, ns⟩ :: outer')) (p.bindOver v (⟨none, before⟩ :: outer) before)
        (p.bindOver w (⟨none, before'⟩ :: outer') before') := by
  have hbind := both_bind hσ (steady_call hσ) (h.binds hσ) p (hc.imp (allows_known known)) v w hvw
  have hstart : FreshBoth σ (Layer.Over σ before before' []) (Layer.over before p.makesFunction)
      (Layer.over before' p.makesFunction) := by
    rw [hfunction]
    exact .pure (Layer.Over.start before before')
  refine (both_names hbind hstart).imp ?_
  rintro _ _ ⟨⟨_, ms⟩, ⟨_, ns⟩, hab, rfl, rfl⟩
  obtain rfl := hab.plain
  obtain rfl := hab.plain'
  refine ⟨List.forall_mem_cons.mpr ⟨rfl, (List.forall_mem_cons.mp h.plain).2⟩,
    List.forall_mem_cons.mpr ⟨rfl, (List.forall_mem_cons.mp h.plain').2⟩, fun x path hx => ?_⟩
  refine hab.meet hσ ?_
  rw [List.mem_append] at hx
  rcases hx with (hx | hx) | hx
  · exact .inr (h.meet x path (.inl hx))
  · exact .inl hx
  · exact .inr (h.meet x path (.inr hx))

section Rows
variable {p : Pattern} (hc : p.Confined granted known) (hfunction : p.makesFunction = false)
  {body body' : List (String × Value) → Eval (List Dynamic)}
  (hbody : ∀ {ms ns : List (String × Value)}, Scope.Meets σ granted (known ++ p.boundNames)
    (⟨none, ms⟩ :: outer) (⟨none, ns⟩ :: outer') → Both σ Eq (body ms) (body' ns))
  {v w : Value} (hvw : Alike σ v w)
include hc hfunction hbody hvw

/-- Alike items give the same row, if the body is drawn the same where the bound names meet too. -/
theorem both_drawRow :
    Both σ Eq (drawRow p outer before body v) (drawRow p outer' before' body' w) :=
  (h.both_bindOver hσ hc hfunction hvw).bind fun _ _ hms =>
    (hbody hms).map fun _ _ hds => congrArg (Row.mk 0) hds

theorem both_drawRows (span : Span) :
    Both σ Eq (drawRows p outer before body span v) (drawRows p outer' before' body' span w) := by
  refine (both_items hσ hvw span).bind fun vs ws hvs => ?_
  refine (Both.mapM hvs fun a b hab => both_drawRow hσ h hc hfunction hbody hab).imp fun _ _ hrows => ?_
  rwa [List.forall₂_eq_eq_eq] at hrows

end Rows

section
omit h

set_option linter.unusedSectionVars false in
mutual

/-- A plan is drawn the same where its lookups meet. -/
theorem both_draw : ∀ (p : Plan) {known : List String} {before before' : List (String × Value)},
    p.Confined granted known →
      Scope.Meets σ granted known (⟨none, before⟩ :: outer) (⟨none, before'⟩ :: outer') →
        Both σ Eq (p.draw outer before) (p.draw outer' before')
  | .body e _ _, _, _, _, hc, h => by
    rw [Plan.Confined] at hc
    rw [Plan.draw, Plan.draw]
    exact (h.both_eval hσ hc).bind fun v w hvw =>
      (both_text hσ (steady_call hσ) hvw).map fun _ _ hst => congrArg Content.text hst
  | .attribute name form e _ _, _, _, _, hc, h => by
    rw [Plan.Confined] at hc
    rw [Plan.draw, Plan.draw]
    exact (h.both_eval hσ hc).bind fun v w hvw =>
      (both_encode hσ form name hvw).map fun _ _ hst => congrArg Content.text hst
  | .spread e _ span, _, _, _, hc, h => by
    rw [Plan.Confined] at hc
    rw [Plan.draw, Plan.draw]
    refine (h.both_eval hσ hc).bind fun v w hvw => ?_
    exact (Argument.both_spreadFields hvw span).bind fun fs gs hfs =>
      (both_attributes hσ (steady_call hσ) hfs).map fun _ _ hst => congrArg Content.text hst
  | .slot _ _ _ _, _, _, _, hc, _ => by
    rw [Plan.Confined] at hc
    exact hc.elim
  | .conditional branches _ _, _, _, _, hc, h => by
    rw [Plan.Confined] at hc
    rw [Plan.draw, Plan.draw]
    exact both_drawFirst branches hc h
  | .comprehension header ⟨statics, plans, fingerprint, _, _⟩ _ _, _, _, _, hc, h => by
    rw [Plan.Confined] at hc
    obtain ⟨hitems, hpattern, hfunction, hplans⟩ := hc
    rw [Plan.draw, Plan.draw]
    refine (h.both_eval hσ hitems).bind fun v w hvw => ?_
    exact (both_drawRows hσ h hpattern hfunction (both_drawAll plans hplans) hvw _).map
      fun _ _ hrows => congrArg _ hrows
  | .component _, _, _, _, hc, _ => by
    rw [Plan.Confined] at hc
    exact hc.elim

theorem both_drawAll : ∀ (plans : List Plan) {known : List String}
    {before before' : List (String × Value)}, Plan.AllConfined granted known plans →
      Scope.Meets σ granted known (⟨none, before⟩ :: outer) (⟨none, before'⟩ :: outer') →
        Both σ Eq (Plan.drawAll outer before plans) (Plan.drawAll outer' before' plans)
  | [], _, _, _, _, _ => by
    rw [Plan.drawAll, Plan.drawAll]
    exact .pure rfl
  | p :: rest, _, _, _, hc, h => by
    rw [Plan.AllConfined] at hc
    rw [Plan.drawAll, Plan.drawAll]
    exact (both_draw p hc.1 h).bind fun _ _ hcontent => (both_drawAll rest hc.2 h).bind
      fun _ _ hds => .pure (by rw [hcontent, hds])

theorem both_drawFirst : ∀ (branches : List BranchPlan) {known : List String}
    {before before' : List (String × Value)}, BranchPlan.AllConfined granted known branches →
      Scope.Meets σ granted known (⟨none, before⟩ :: outer) (⟨none, before'⟩ :: outer') →
        Both σ Eq (BranchPlan.drawFirst outer before branches)
          (BranchPlan.drawFirst outer' before' branches)
  | [], _, _, _, _, _ => by
    rw [BranchPlan.drawFirst, BranchPlan.drawFirst]
    exact .pure rfl
  | ⟨condition, ⟨statics, plans, fingerprint, root, _⟩⟩ :: rest, _, before, before', hc, h => by
    rw [BranchPlan.AllConfined] at hc
    obtain ⟨hcondition, hplans, hrest⟩ := hc
    have hbody : ∀ reads : Reads, Both σ Eq
        (Content.nested <$> Fragment.draw outer before ⟨statics, plans, fingerprint, root, reads⟩)
        (Content.nested <$> Fragment.draw outer' before' ⟨statics, plans, fingerprint, root, reads⟩) := by
      intro reads
      rw [Fragment.draw, Fragment.draw]
      refine Both.map (R := Eq) ((both_drawAll plans hplans h).bind fun _ _ hds => .pure ?_)
        fun _ _ htree => congrArg Content.nested htree
      rw [hds]
    cases condition with
    | none =>
      rw [BranchPlan.drawFirst, BranchPlan.drawFirst]
      exact hbody _
    | some e =>
      rw [BranchPlan.drawFirst, BranchPlan.drawFirst]
      refine (h.both_eval hσ (hcondition e rfl)).bind fun v w hvw => ?_
      exact Both.ite hvw.truthy_eq (fun _ => hbody _) fun _ => both_drawFirst rest hrest h

end

end

end Draws

/-! ### Drawing again, and after a change -/

theorem SameOutcome.eq {ε α : Type} {x y : Except ε α} (h : SameOutcome Eq x y) : x = y := by
  match x, y, h with
  | .ok _, .ok _, h => exact congrArg _ h
  | .error _, .error _, h => exact congrArg _ h

theorem Reads.clear_locals (r : Reads) : r.Clear [] r.locals where
  locals _ hx := hx
  all _ := rfl
  keys _ _ := by rw [ChangedSet.reaches, Assoc.get?_nil, Mark.reaches]

section Tracked
variable {scope : NameScope}

/-- Where no change reaches anything, a plan is confined to what it reads. -/
theorem Plan.Tracked.confined {p : Plan} (h : p.Tracked scope) :
    ∃ known, p.Confined (scope.Grants []) known :=
  ⟨_, (guards_plan ⟨fun _ hx => hx, rfl⟩ _ p h).holds p.reads.clear_locals⟩

theorem Plan.AllTracked.confined {plans : List Plan} (h : Plan.AllTracked scope plans) :
    ∃ known, Plan.AllConfined (scope.Grants []) known plans :=
  ⟨_, ((guards_plans ⟨fun _ hx => hx, rfl⟩ _ plans h (.empty trivial)).holds
    (Reads.clear_locals _)).2⟩

theorem BranchPlan.AllTracked.confined {branches : List BranchPlan}
    (h : BranchPlan.AllTracked scope branches) :
    ∃ known, BranchPlan.AllConfined (scope.Grants []) known branches := by
  obtain ⟨known, hc⟩ := Plan.Tracked.confined (p := .conditional branches _ default) ⟨h, rfl⟩
  rw [Plan.Confined] at hc
  exact ⟨known, hc⟩

end Tracked

section Again
variable {n : Identity} (hn : 0 < n) {outer : Scope} {locals : List (String × Value)}
  (hs : Scope.Given n (⟨none, locals⟩ :: outer)) (hplain : ∀ layer ∈ outer, layer.id = none)
include hn hs hplain

omit hn in
/-- Lookups in a scope meet themselves where what was given out before stands for itself. -/
theorem Scope.Given.meets {σ : Pairing} (hσ : σ.Exact) (hself : ∀ i < n, σ i i)
    (granted : String → List String → Prop) (known : List String) :
    Scope.Meets σ granted known (⟨none, locals⟩ :: outer) (⟨none, locals⟩ :: outer) := by
  have hlayers : List.Forall₂ (LayerAlike σ) (⟨none, locals⟩ :: outer) (⟨none, locals⟩ :: outer) :=
    hs.imp fun _ _ hl => hl.mono (Pairing.below_self hself)
  refine ⟨List.forall_mem_cons.mpr ⟨rfl, hplain⟩, List.forall_mem_cons.mpr ⟨rfl, hplain⟩,
    fun x path _ => ?_⟩
  exact rel_imp (lookup_alike hσ hlayers x) fun _ _ hvw => hvw.meet hσ path

/-- Wherever drawing starts, a plan is drawn the same. -/
theorem Plan.repeats_draw {scope : NameScope} {p : Plan} (ht : p.Tracked scope) :
    Repeats n n Eq (p.draw outer locals) (p.draw outer locals) := by
  obtain ⟨known, hc⟩ := ht.confined
  exact .of_both hn (P := fun _ => Eq)
    (fun _ hσ hself => both_draw hσ p hc (hs.meets hplain hσ hself _ _)) fun _ _ _ => id

theorem BranchPlan.repeats_drawFirst {scope : NameScope} {branches : List BranchPlan}
    (ht : BranchPlan.AllTracked scope branches) :
    Repeats n n Eq (drawFirst outer locals branches) (drawFirst outer locals branches) := by
  obtain ⟨known, hc⟩ := ht.confined
  exact .of_both hn (P := fun _ => Eq)
    (fun _ hσ hself => both_drawFirst hσ branches hc (hs.meets hplain hσ hself _ _)) fun _ _ _ => id

theorem Plan.advances_drawAll {scope : NameScope} {plans : List Plan}
    (ht : Plan.AllTracked scope plans) :
    Advances n (fun _ _ => True) (Plan.drawAll outer locals plans) := by
  obtain ⟨known, hc⟩ := ht.confined
  exact .of_both hn (R := fun _ => Eq)
    fun _ hσ hself => both_drawAll hσ plans hc (hs.meets hplain hσ hself _ _)

section Rows
variable {granted : String → List String → Prop} {known : List String} {p : Pattern}
  (hc : p.Confined granted known) (hfunction : p.makesFunction = false) {plans : List Plan}
  (hplans : Plan.AllConfined granted (known ++ p.boundNames) plans) {v : Value} (hv : v.Given n)
include hc hfunction hplans hv

theorem repeats_drawRow : Repeats n n Eq
    (drawRow p outer locals (fun names => Plan.drawAll outer names plans) v)
    (drawRow p outer locals (fun names => Plan.drawAll outer names plans) v) :=
  .of_both hn (P := fun _ => Eq) (fun _ hσ hself => both_drawRow hσ (hs.meets hplain hσ hself _ _) hc
    hfunction (both_drawAll hσ plans hplans) (hv.mono (Pairing.below_self hself))) fun _ _ _ => id

theorem repeats_drawRows (span : Span) : Repeats n n Eq
    (drawRows p outer locals (fun names => Plan.drawAll outer names plans) span v)
    (drawRows p outer locals (fun names => Plan.drawAll outer names plans) span v) :=
  .of_both hn (P := fun _ => Eq) (fun _ hσ hself => both_drawRows hσ (hs.meets hplain hσ hself _ _) hc
    hfunction (both_drawAll hσ plans hplans) (hv.mono (Pairing.below_self hself)) span) fun _ _ _ => id

end Rows

end Again

/-- The layers of a frame around its local names. -/
def Frame.outer (f : Frame) : Scope := f.scope.tail

theorem Frame.scope_eq (f : Frame) : f.scope = ⟨none, f.locals⟩ :: f.outer := rfl

theorem Frame.plain_outer (f : Frame) : ∀ layer ∈ f.outer, layer.id = none := by
  simp [Frame.outer, Frame.scope]

section Unaffected
variable {scope : NameScope} {changed : ChangedSet} {f g : Frame} {n m : Identity}
  (hdiffer : f.DifferBy changed g) (hold : f.Older changed g n m) (hscope : scope.Describes f)
include hdiffer hold hscope

/-- A plan that no change affects is drawn the same before and after the change. -/
theorem Plan.draw_eq_of_unaffected {p : Plan} (ht : p.Tracked scope)
    (h : p.reads.isAffected (some changed) = false) {i j : Identity} (hi : n ≤ i) (hj : m ≤ j) :
    ((p.draw f.outer f.locals).run.run i).1 = ((p.draw g.outer g.locals).run.run j).1 := by
  have hlater := hold.mono hi hj
  have hmeets : Scope.Meets (f.pairing changed g i j) (scope.Grants changed) []
      (⟨none, f.locals⟩ :: f.outer) (⟨none, g.locals⟩ :: g.outer) :=
    ⟨List.forall_mem_cons.mpr ⟨rfl, f.plain_outer⟩, List.forall_mem_cons.mpr ⟨rfl, g.plain_outer⟩,
      fun x path hx => meet_granted hdiffer hlater hscope (hx.resolve_left List.not_mem_nil)⟩
  exact (both_draw hlater.exact p (Plan.confined_of_unaffected ht h) hmeets i j
    Frame.pairing_ahead).1.eq

end Unaffected

end LiveTemplate
