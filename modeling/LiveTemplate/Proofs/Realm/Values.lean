import LiveTemplate.Proofs.Eval.Rebinding
import LiveTemplate.Proofs.Realm.Code

/-!
Values within a realm. A value lies within a realm when all that a template can get out of it does.
A template gets the fields of the parent of a record, but not the parent itself, and it gets nothing
from under a blocked field; only what is kept under the name of the parent can come to be one, of a
record made from the fields of another.
-/

namespace LiveTemplate

set_option autoImplicit false

/-- How a value is come by: as it is, or as the parent of a record, which shows its fields alone. -/
inductive Hold where
  | itself | parent

/-- Whatever a template can get out of a value is of a realm. -/
inductive Value.Within (R : Realm) : Hold → Value → Prop
  | undefined {hold : Hold} : Within R hold .undefined
  | null {hold : Hold} : Within R hold .null
  | flag {hold : Hold} (b : Bool) : Within R hold (.flag b)
  | number {hold : Hold} (x : Float) : Within R hold (.number x)
  | text {hold : Hold} (s : String) : Within R hold (.text s)
  | list {hold : Hold} {id : Identity} {items : List Value} (hid : hold = .itself → R.ids id)
      (hall : ∀ v ∈ items, Within R .itself v) : Within R hold (.list id items)
  | record {hold : Hold} {id : Identity} {parent : Parent} {fields : List (String × Value)}
      (hid : hold = .itself → R.ids id) (hparent : ∀ v, parent = .value v → Within R .parent v)
      (hkeys : ∀ f ∈ fields, R.keys f.1)
      (hread : ∀ f ∈ fields, R.Reads f.1 → Within R .itself f.2)
      (hheir : ∀ f ∈ fields, f.1 = parentName → Within R .parent f.2) :
      Within R hold (.record id parent fields)
  | map {hold : Hold} {id : Identity} {entries : List (Value × Value)}
      (hid : hold = .itself → R.ids id) (hkeys : ∀ e ∈ entries, Within R .itself e.1)
      (hvalues : ∀ e ∈ entries, Within R .itself e.2) : Within R hold (.map id entries)
  | set {hold : Hold} {id : Identity} {items : List Value} (hid : hold = .itself → R.ids id)
      (hall : ∀ v ∈ items, Within R .itself v) : Within R hold (.set id items)
  | date {hold : Hold} {id : Identity} (time : Option Int) (hid : hold = .itself → R.ids id) :
      Within R hold (.date id time)
  | html {hold : Hold} {id : Identity} (markup : String) (hid : hold = .itself → R.ids id)
      (hmarkup : R.markup) : Within R hold (.html id markup)
  | method {hold : Hold} (m : Method) (hm : R.Meets m) : Within R hold (.method m)
  | helper {hold : Hold} (h : Helper) (hraw : h = .raw → R.markup) : Within R hold (.helper h)
  | closure {hold : Hold} {id : Identity} {params : List Pattern} {body : Expr} {scope : List Layer}
      (hid : hold = .itself → R.ids id) (hparams : ∀ p ∈ params, (Phrase.pattern p).Within R)
      (hbody : (Phrase.expr body).Within R)
      (hscope : ∀ layer ∈ scope, ∀ e ∈ layer.names, R.names e.1 → Within R .itself e.2) :
      Within R hold (.closure id params body scope)
  | block {hold : Hold} {id : Identity} {content : Block} (hid : hold = .itself → R.ids id)
      (hbody : R.slots → content.body.Within R)
      (hpattern : R.slots → ∀ p ∈ content.pattern, (Phrase.pattern p).Within R)
      (hscope : R.slots → ∀ layer ∈ content.caller.scope, ∀ e ∈ layer.names, R.names e.1 →
        Within R .itself e.2) : Within R hold (.block id content)

/-- Names with their values, as far as they are looked up. -/
def NamesWithin (R : Realm) (names : List (String × Value)) : Prop :=
  ∀ e ∈ names, R.names e.1 → e.2.Within R .itself

def Scope.Within (R : Realm) (scope : Scope) : Prop := ∀ layer ∈ scope, NamesWithin R layer.names

/-- A field of a record, as far as it is read or inherited from. -/
structure FieldWithin (R : Realm) (f : String × Value) : Prop where
  key : R.keys f.1
  value : R.Reads f.1 → f.2.Within R .itself
  heir : f.1 = parentName → f.2.Within R .parent

abbrev FieldsWithin (R : Realm) (fields : List (String × Value)) : Prop :=
  ∀ f ∈ fields, FieldWithin R f

/-- Values that lie within a realm, one by one. -/
abbrev AllWithin (R : Realm) (vs : List Value) : Prop := ∀ v ∈ vs, v.Within R .itself

theorem allWithin_nil (R : Realm) : AllWithin R [] := fun _ h => absurd h List.not_mem_nil

namespace Value

variable {R : Realm}

/-- A value can be inherited from if it may be met. -/
theorem Within.inherited {v : Value} (h : v.Within R .itself) : v.Within R .parent := by
  cases h with
  | undefined => exact .undefined
  | null => exact .null
  | flag b => exact .flag b
  | number x => exact .number x
  | text s => exact .text s
  | list hid hall => exact .list nofun hall
  | record hid hparent hkeys hread hheir => exact .record nofun hparent hkeys hread hheir
  | map hid hkeys hvalues => exact .map nofun hkeys hvalues
  | set hid hall => exact .set nofun hall
  | date t hid => exact .date t nofun
  | html s hid hmarkup => exact .html s nofun hmarkup
  | method m hm => exact .method m hm
  | helper f hraw => exact .helper f hraw
  | closure hid hparams hbody hscope => exact .closure nofun hparams hbody hscope
  | block hid hbody hpattern hscope => exact .block nofun hbody hpattern hscope

/-- Where every identity may be met, so may what can be inherited from. -/
theorem Within.of_parent (hids : ∀ i, R.ids i) {v : Value} (h : v.Within R .parent) :
    v.Within R .itself := by
  cases h with
  | undefined => exact .undefined
  | null => exact .null
  | flag b => exact .flag b
  | number x => exact .number x
  | text s => exact .text s
  | list hid hall => exact .list (fun _ => hids _) hall
  | record hid hparent hkeys hread hheir =>
    exact .record (fun _ => hids _) hparent hkeys hread hheir
  | map hid hkeys hvalues => exact .map (fun _ => hids _) hkeys hvalues
  | set hid hall => exact .set (fun _ => hids _) hall
  | date t hid => exact .date t fun _ => hids _
  | html s hid hmarkup => exact .html s (fun _ => hids _) hmarkup
  | method m hm => exact .method m hm
  | helper f hraw => exact .helper f hraw
  | closure hid hparams hbody hscope => exact .closure (fun _ => hids _) hparams hbody hscope
  | block hid hbody hpattern hscope => exact .block (fun _ => hids _) hbody hpattern hscope

theorem within_record {hold : Hold} {id : Identity} {parent : Parent}
    {fields : List (String × Value)} (hid : hold = .itself → R.ids id)
    (hparent : ∀ v, parent = .value v → v.Within R .parent) (hfields : FieldsWithin R fields) :
    Within R hold (.record id parent fields) :=
  .record hid hparent (fun f hf => (hfields f hf).key) (fun f hf => (hfields f hf).value)
    fun f hf => (hfields f hf).heir

theorem Within.fields {hold : Hold} {id : Identity} {parent : Parent}
    {fields : List (String × Value)} (h : Within R hold (.record id parent fields)) :
    FieldsWithin R fields := by
  cases h with
  | record _ _ hkeys hread hheir => exact fun f hf => ⟨hkeys f hf, hread f hf, hheir f hf⟩

theorem Within.under {hold : Hold} {id : Identity} {v : Value} {fields : List (String × Value)}
    (h : Within R hold (.record id (.value v) fields)) : v.Within R .parent := by
  cases h with
  | record _ hparent _ _ _ => exact hparent v rfl

/-- The identity of a value that is met. -/
theorem Within.identity? {v : Value} (h : v.Within R .itself) {i : Identity}
    (hi : v.identity? = some i) : R.ids i := by
  cases h with
  | list hid _ => exact Option.some.inj hi ▸ hid rfl
  | record hid _ _ _ _ => exact Option.some.inj hi ▸ hid rfl
  | map hid _ _ => exact Option.some.inj hi ▸ hid rfl
  | set hid _ => exact Option.some.inj hi ▸ hid rfl
  | date _ hid => exact Option.some.inj hi ▸ hid rfl
  | html _ hid _ => exact Option.some.inj hi ▸ hid rfl
  | closure hid _ _ _ => exact Option.some.inj hi ▸ hid rfl
  | block hid _ _ _ => exact Option.some.inj hi ▸ hid rfl
  | _ => cases hi

/-! ### Replacing a layer -/

theorem mem_rebindScope {id : Identity} {layer other : Layer} {scope : Scope}
    (h : other ∈ rebindScope id layer scope) :
    other = layer ∨ other ∈ scope ∨
      ∃ l ∈ scope, other = ⟨l.id, rebindNames id layer l.names⟩ := by
  induction scope with
  | nil => cases h
  | cons first rest ih =>
    obtain ⟨i, names⟩ := first
    rw [rebindScope] at h
    split at h
    · rcases List.mem_cons.mp h with h | h
      · exact .inl h
      · exact .inr (.inl (List.mem_cons_of_mem _ h))
    · rcases List.mem_cons.mp h with h | h
      · exact .inr (.inr ⟨_, List.mem_cons_self, h⟩)
      · rcases ih h with h | h | ⟨l, hl, h⟩
        · exact .inl h
        · exact .inr (.inl (List.mem_cons_of_mem _ h))
        · exact .inr (.inr ⟨l, List.mem_cons_of_mem _ hl, h⟩)

/-- A value stays within a realm when a layer in it is replaced by one of the realm. -/
theorem Within.rebind {hold : Hold} {v : Value} (h : v.Within R hold) (id : Identity)
    {layer : Layer} (hlayer : NamesWithin R layer.names) : (v.rebind id layer).Within R hold := by
  induction h with
  | undefined => exact .undefined
  | null => exact .null
  | flag b => exact .flag b
  | number x => exact .number x
  | text s => exact .text s
  | date t hid => exact .date t hid
  | html s hid hmarkup => exact .html s hid hmarkup
  | method m hm => exact .method m hm
  | helper f hraw => exact .helper f hraw
  | block hid hbody hpattern hscope => exact .block hid hbody hpattern hscope
  | list hid hall ih =>
    rw [Value.rebind, rebindAll_eq]
    exact .list hid (List.forall_mem_map.mpr ih)
  | set hid hall ih =>
    rw [Value.rebind, rebindAll_eq]
    exact .set hid (List.forall_mem_map.mpr ih)
  | map hid hkeys hvalues ihk ihv =>
    rw [Value.rebind, rebindPairs_eq]
    exact .map hid (List.forall_mem_map.mpr ihk) (List.forall_mem_map.mpr ihv)
  | @record hold i parent fields hid hparent hkeys hread hheir ihp ihr ihh =>
    rw [Value.rebind, rebindNames_eq]
    refine .record hid ?_ (List.forall_mem_map.mpr hkeys) (List.forall_mem_map.mpr ihr)
      (List.forall_mem_map.mpr ihh)
    intro u hu
    cases parent with
    | value v =>
      cases hu
      exact ihp v rfl
    | _ => cases hu
  | closure hid hparams hbody hscope ih =>
    rw [Value.rebind]
    refine .closure hid hparams hbody fun other hother => ?_
    rcases mem_rebindScope hother with rfl | hother | ⟨l, hl, rfl⟩
    · exact hlayer
    · exact hscope other hother
    · rw [rebindNames_eq]
      exact List.forall_mem_map.mpr (ih l hl)

end Value

end LiveTemplate
