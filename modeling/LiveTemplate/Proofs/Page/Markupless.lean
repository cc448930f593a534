import LiveTemplate.Proofs.Realm.Rendering
import LiveTemplate.Proofs.Snapshot.Skeleton
import LiveTemplate.Template

/-!
Pages without foreign markup. Where no value is markup, no code marks a text as markup, and no field
has a name with marks in it, the tags of a page begin and end in the static texts of its templates.
-/

namespace LiveTemplate

set_option autoImplicit false

/-- The realm of values that are no markup, of records whose fields have names without marks, and of
code that looks up some names between some statics. -/
def Realm.markupless (names : String → Prop) (statics : List String → Prop) : Realm where
  ids _ := True
  markup := False
  unblocked := True
  names := names
  keys := Html.Unmarked
  slots := True
  statics := statics
  ids_of_unblocked _ _ := trivial
  keys_index i c hc hmark := by
    have hdigit := isDigit_of_mem_toString hc
    simp only [Html.marks, List.mem_cons, List.not_mem_nil, or_false] at hmark
    rcases hmark with rfl | rfl | rfl | rfl <;> revert hdigit <;> decide
  keys_markup := by decide

/-! ### Values -/

section Values
variable {R : Realm} (hmarkup : ¬ R.markup)
include hmarkup

theorem Value.Within.markup? {hold : Hold} {v : Value} (h : v.Within R hold) :
    v.markup? = none := by
  obtain ⟨other, horigin⟩ := h.origin
  rw [Value.markup?]
  split
  · rename_i id text heq
    rw [heq] at horigin
    cases horigin with
    | html _ _ hm => exact absurd hm hmarkup
  · rfl

theorem Value.Within.showsNoMarkup {hold : Hold} {v : Value} (h : v.Within R hold) :
    Html.ShowsNoMarkup v := by
  induction h with
  | list hid hall ih => exact Html.showsNoMarkup_list.mpr ih
  | html text hid hm => exact absurd hm hmarkup
  | record hid hparent hkeys hread hheir =>
    intro u hu
    cases List.mem_singleton.mp hu
    exact Value.Within.markup? hmarkup (.record hid hparent hkeys hread hheir)
  | _ =>
    intro u hu
    cases List.mem_singleton.mp hu
    rfl

end Values

section Names
variable {names : String → Prop} {statics : List String → Prop}

/-- The names that a record of attributes is written under, and the values that are. -/
theorem FieldsWithin.grouped {fields : Record Value}
    (h : FieldsWithin (.markupless names statics) fields) :
    ∀ a ∈ fields.flatMap Html.grouped, Html.Unmarked a.1 ∧ Html.ShowsNoMarkup a.2 := by
  have hshows : ∀ {f : String × Value}, FieldWithin (.markupless names statics) f →
      Html.ShowsNoMarkup f.2 :=
    fun hf => (hf.value (.inl trivial)).showsNoMarkup id
  intro a ha
  obtain ⟨f, hf, ha⟩ := List.mem_flatMap.mp ha
  have hfield := h f hf
  rw [Html.grouped] at ha
  split at ha
  · rename_i nested hnested
    split at ha
    · obtain ⟨g, hg, rfl⟩ := List.mem_map.mp ha
      have hg := (hfield.value (.inl trivial)).fields? hnested g hg
      refine ⟨Html.unmarked_append.mpr ⟨Html.unmarked_append.mpr ⟨hfield.key, ?_⟩, hg.key⟩,
        hshows (f := g) hg⟩
      decide
    · cases List.mem_singleton.mp ha
      exact ⟨hfield.key, hshows hfield⟩
  · cases List.mem_singleton.mp ha
    exact ⟨hfield.key, hshows hfield⟩

theorem Html.Hole.Within.written {hole : Html.Hole} (h : hole.Within (.markupless names statics)) :
    ∀ a ∈ hole.written, Html.Unmarked a.1 ∧ Html.ShowsNoMarkup a.2 := by
  cases hole with
  | text v =>
    exact List.forall_mem_singleton.mpr ⟨Html.unmarked_empty, Value.Within.showsNoMarkup id h⟩
  | spread fields => exact FieldsWithin.grouped h
  | named form name v =>
    have hv := Value.Within.showsNoMarkup id h.2
    cases form with
    | whole => exact List.forall_mem_singleton.mpr ⟨h.1, hv⟩
    | _ => exact List.forall_mem_singleton.mpr ⟨Html.unmarked_empty, hv⟩

theorem slotKeys_unmarked : ∀ name ∈ slotKeys, Html.Unmarked name := by decide

/-- What is written for values that are no markup has marks around the values of attributes alone.
-/
theorem Realm.markupless_writes :
    (Realm.markupless names statics).Writes fun s => Html.Delimited s.toList where
  slots := trivial
  reads _ := .inl trivial
  keys := slotKeys_unmarked
  empty := .nil
  encode hole h := by
    intro n _
    obtain ⟨hwritten, -⟩ := Html.Hole.writes_encode hole h.written n trivial
    exact ⟨hwritten.imp fun _ hs => hs.delimited, fun _ => trivial⟩

end Names

/-! ### Pages -/

theorem Html.Delimited.brackets {s : String} (h : Html.Delimited s.toList) : brackets s = [] :=
  brackets_eq_nil h.no_angle.1 h.no_angle.2

theorem Part.Within.unbracketed {R : Realm} {p : Part}
    (h : p.Within R fun s => Html.Delimited s.toList) : p.Unbracketed := by
  match p, h with
  | .dynamic ⟨_, .text s⟩, h => exact h.brackets
  | .dynamic ⟨_, .component _⟩, _ | .dynamic ⟨_, .nested _⟩, _ | .dynamic ⟨_, .list _⟩, _
  | .dynamic ⟨_, .rows _ _ _⟩, _ | .row _, _ | .tree _, _ | .loop _ _ _, _ => trivial

/-- All parts of a snapshot are within a realm. -/
structure Snapshot.Within (R : Realm) (texts : String → Prop) (s : Snapshot) : Prop where
  root : (R.scene texts).Knows s.root.parts
  components : ∀ c ∈ s.components, (R.scene texts).Knows c.tree.parts

theorem Snapshot.Within.brackets {R : Realm} {s : Snapshot}
    (h : s.Within R fun s => Html.Delimited s.toList) : SameBrackets s.html s.skeleton.html :=
  Snapshot.html_skeleton (fun p hp => (h.root p hp).unbracketed)
    fun c hc p hp => (h.components c hc p hp).unbracketed

namespace Template

/-- What is shown of a template that can see values of a realm. -/
structure Within (R : Realm) (t : Template) : Prop where
  fragment : t.fragment.Within R
  helpers : NamesWithin R t.helpers

/-- The frame of a render before which nothing was rendered. -/
def firstFrame (t : Template) (assigns : Record Value) (journal : Journal) : Frame :=
  t.frame { fields := assigns } journal.nextId none 0

/-- The state that such a render starts from. -/
def firstState (journal : Journal) : RenderState :=
  ⟨Mounts.start {} none, { journal with nextId := journal.nextId + 1 }⟩

/-- The snapshot that a page shows. -/
def shown (t : Template) (resolve : Resolver) (assigns : Record Value) (journal : Journal) :
    Except RenderError Snapshot :=
  let start := firstState journal
  let rendered := (t.render resolve (t.firstFrame assigns journal) none).run.run start
  rendered.1.map (rendered.2.mounts.snapshot 0)

variable {R : Realm} {texts : String → Prop} {t : Template} {resolve : Resolver}
  {assigns : Record Value} {journal : Journal}

theorem page_eq_shown : ((t.page resolve assigns).run journal).1 =
    (t.shown resolve assigns journal).bind fun s => s.html.mapError .tree := by
  let start := firstState journal
  let rendered := (t.render resolve (t.firstFrame assigns journal) none).run.run start
  have hpage : ((t.page resolve assigns).run journal).1 =
      rendered.1.bind fun root => (rendered.2.mounts.snapshot 0 root).html.mapError .tree := rfl
  have hshown : t.shown resolve assigns journal =
      rendered.1.map (rendered.2.mounts.snapshot 0) := rfl
  rw [hpage, hshown]
  cases rendered.1 <;> rfl

theorem firstState_within (hsupply : R.Supply journal.nextId) :
    (firstState journal).Within R texts := by
  refine ⟨hsupply.next, fun render node hnode => ?_⟩
  match render, hnode with
  | 0, hnode | _ + 1, hnode => cases hnode

/-- What a template of the realm shows is within it. -/
theorem Within.shown (hR : R.Writes texts) (ht : t.Within R) (hresolve : Resolver.Within R resolve)
    (hassigns : FieldsWithin R assigns) (hsupply : R.Supply journal.nextId) {s : Snapshot}
    (hs : t.shown resolve assigns journal = .ok s) : s.Within R texts := by
  have hframe : Scope.Within R (t.firstFrame assigns journal).scope :=
    Scope.within_frame hR.toRenders (fun _ hf => absurd hf List.not_mem_nil) ht.helpers
      ⟨nofun, hassigns⟩ hsupply.here
  obtain ⟨hroot, hstate⟩ := yields_renderWithin hR hresolve renderDepth t.fragment ht.fragment _
    hframe none (fun _ ht => by cases ht) (firstState journal) (firstState_within hsupply)
  rw [Template.shown] at hs
  obtain ⟨root, hresult, rfl⟩ := map_eq_ok.1 hs
  change IfOk _ ((t.render resolve _ none).run.run (firstState journal)).1 at hroot
  rw [hresult] at hroot
  exact ⟨hroot, fun c hc => (hstate.mounts 0 c hc).parts⟩

end Template

/-- The template `<p {...rest}>{name}</p>`, which could mark texts as markup. -/
def card : Template where
  source := ⟨"<p \x7b...rest\x7d>\x7bname\x7d</p>", "card"⟩
  helpers := [("raw", .helper .raw)]
  unit := none
  fragment :=
    ⟨["<p", ">", "</p>"], [.spread (.name "rest" ⟨7, 11⟩) .empty ⟨3, 12⟩,
      .body (.name "name" ⟨14, 18⟩) .empty ⟨13, 19⟩], "card", true, .empty⟩
  calls := []

def cardBindings : Record Value :=
  [("name", .text "<b>"), ("rest", .record 7 .plain [("title", .text "\">")])]

def cardPage : String := "<p title=\"&quot;&gt;\">&lt;b&gt;</p>"

/-- All but what marks texts as markup can be looked up. -/
def cardRealm : Realm := .markupless (· ≠ "raw") (· = ["<p", ">", "</p>"])

end LiveTemplate
