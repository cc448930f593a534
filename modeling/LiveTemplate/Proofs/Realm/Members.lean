import LiveTemplate.Proofs.Eval.Members
import LiveTemplate.Proofs.Realm.Values
import LiveTemplate.Value.Text

/-!
Members, texts and numbers of values within a realm. What is read of such a value lies within the
realm again, as long as calls stay there.
-/

namespace LiveTemplate

set_option autoImplicit false

variable {R : Realm}

/-! ### Names of fields -/

theorem Realm.reads_of_not_mem {name : String} (h : name ∉ blockedFields) : R.Reads name := .inr h

theorem isDigit_of_mem_toString {i : Nat} {c : Char} (h : c ∈ (toString i).toList) :
    c.isDigit = true := by
  change c ∈ (String.ofList (Nat.toDigits 10 i)).toList at h
  rw [String.toList_ofList] at h
  exact Nat.isDigit_of_mem_toDigits (by decide) (by decide) h

/-- No place of a list is a blocked field. -/
theorem Realm.reads_index (i : Nat) : R.Reads (toString i) := by
  refine reads_of_not_mem fun h => ?_
  have hdigits : (toString i).toList.all Char.isDigit = true :=
    List.all_eq_true.mpr fun _ => isDigit_of_mem_toString
  simp only [blockedFields, parentName, List.mem_cons, List.not_mem_nil, or_false] at h
  rcases h with h | h | h
  all_goals
    rw [h] at hdigits
    revert hdigits
    decide

namespace Value

/-! ### What comes with a kind -/

theorem unused_of_sharedMember? {kind name owner n : String}
    (h : sharedMember? kind name = some (.method (.unused owner n))) : n = name := by
  unfold sharedMember? at h
  split at h
  all_goals first | (cases h; done) | skip
  · cases h
    rfl
  · split at h
    · cases h
      rfl
    · cases h

theorem unused_of_conversion? {table : List (String × Conversion)} {name owner n : String}
    (h : conversion? table name = some (.method (.unused owner n))) : n = name := by
  obtain ⟨c, -, hc⟩ := Option.map_eq_some_iff.mp h
  cases hc

theorem unused_of_or {a b : Option Value} {name owner n : String}
    (h : a.or b = some (.method (.unused owner n)))
    (ha : a = some (.method (.unused owner n)) → n = name)
    (hb : b = some (.method (.unused owner n)) → n = name) : n = name := by
  cases a with
  | none => exact hb h
  | some v => exact ha h

/-- A method that templates have no use for goes by the name it is read under. -/
theorem unused_of_kindMember? {v : Value} {name owner n : String}
    (h : v.kindMember? name = some (.method (.unused owner n))) : n = name := by
  have hmap : ∀ {α : Type} {a : Option α} {f : α → Method}, (∀ x, f x ≠ .unused owner n) →
      (a.map fun m => Value.method (f m)) = some (.method (.unused owner n)) → n = name := by
    intro α a f hf h
    obtain ⟨x, -, hx⟩ := Option.map_eq_some_iff.mp h
    exact absurd (Value.method.inj hx) (hf x)
  cases v with
  | undefined | null => cases h
  | text _ =>
    exact unused_of_or h (fun h => unused_of_or h (hmap nofun) unused_of_conversion?)
      unused_of_sharedMember?
  | number _ =>
    exact unused_of_or h (fun h => unused_of_or h (hmap nofun) unused_of_conversion?)
      unused_of_sharedMember?
  | list _ _ =>
    exact unused_of_or h (fun h => unused_of_or h (hmap nofun) unused_of_conversion?)
      unused_of_sharedMember?
  | flag _ | date _ _ | html _ _ | method _ | helper _ | closure _ _ _ _ =>
    exact unused_of_or h unused_of_conversion? unused_of_sharedMember?
  | map _ _ | set _ _ =>
    simp only [kindMember?] at h
    split at h
    all_goals first | cases h | exact unused_of_sharedMember? h
  | record _ _ _ | block _ _ => exact unused_of_sharedMember? h

theorem Bare.within {u : Value} (h : u.Bare)
    (hm : ∀ owner n, u = .method (.unused owner n) → R.Reads n) : u.Within R .itself := by
  cases h with
  | number x => exact .number x
  | text s => exact .text s
  | method m =>
    refine .method m ?_
    cases m with
    | unused owner n => exact hm owner n rfl
    | _ => trivial

theorem within_kindMember? {v : Value} {name : String} (hname : R.Reads name) {u : Value}
    (h : v.kindMember? name = some u) : u.Within R .itself := by
  refine (bare_of_kindMember? h).within ?_
  rintro owner n rfl
  exact unused_of_kindMember? h ▸ hname

/-! ### Members -/

/-- A value other than lists and records holds numbers and texts alone. -/
theorem within_own? {v : Value} {name : String} (hlist : ∀ i items, v ≠ .list i items)
    (hrecord : ∀ i p fields, v ≠ .record i p fields) {u : Value} (h : v.own? name = some u) :
    u.Within R .itself := by
  refine (bare_of_own? hlist hrecord h).within ?_
  rintro owner n rfl
  cases v with
  | record i p fields => exact (hrecord _ _ _ rfl).elim
  | list i items => exact (hlist _ _ rfl).elim
  | html i markup =>
    simp only [own?] at h
    split at h <;> cases h
  | text s =>
    simp only [own?, unitAt?] at h
    split at h
    · cases h
    · cases hn : Record.index? name with
      | none =>
        rw [hn] at h
        cases h
      | some i =>
        rw [hn] at h
        dsimp only at h
        split at h <;> cases h
  | _ =>
    simp only [own?] at h
    split at h
    · obtain ⟨n, -, hn⟩ := Option.map_eq_some_iff.mp h
      cases hn
    · cases h

section Lookups
variable {hold : Hold} {v : Value} (h : v.Within R hold) {name : String} (hname : R.Reads name)
include h hname

theorem Within.own? {u : Value} (hu : v.own? name = some u) : u.Within R .itself := by
  cases h with
  | list hid hall =>
    simp only [Value.own?] at hu
    split at hu
    · obtain ⟨n, -, rfl⟩ := Option.map_eq_some_iff.mp hu
      exact .number _
    · cases hn : Record.index? name with
      | none =>
        rw [hn] at hu
        cases hu
      | some i =>
        rw [hn] at hu
        exact hall u (List.mem_of_getElem? hu)
  | record hid hparent hkeys hread hheir => exact hread _ (Assoc.mem_of_get? hu) hname
  | _ => exact within_own? (fun _ _ he => by cases he) (fun _ _ _ he => by cases he) hu

/-- What is found in a value or along the line of its parents. -/
theorem Within.lookup? {u : Value} (hu : v.lookup? name = some u) : u.Within R .itself := by
  induction v using parent_induction generalizing hold with
  | value i w fields ih =>
    rw [lookup?_record] at hu
    rcases Option.or_eq_some_iff.mp hu with hu | ⟨-, hu⟩
    · exact (h.fields _ (Assoc.mem_of_get? hu)).value hname
    · exact ih h.under hu
  | plain i fields =>
    rw [lookup?_record] at hu
    rcases Option.or_eq_some_iff.mp hu with hu | ⟨-, hu⟩
    · exact (h.fields _ (Assoc.mem_of_get? hu)).value hname
    · exact within_kindMember? hname hu
  | nothing i fields =>
    rw [lookup?_record] at hu
    rcases Option.or_eq_some_iff.mp hu with hu | ⟨-, hu⟩
    · exact (h.fields _ (Assoc.mem_of_get? hu)).value hname
    · cases hu
  | other v hv =>
    rw [lookup?_other hv] at hu
    rcases Option.or_eq_some_iff.mp hu with hu | ⟨-, hu⟩
    · exact h.own? hname hu
    · exact within_kindMember? hname hu

end Lookups

theorem within_getD {a : Option Value} (h : ∀ u, a = some u → u.Within R .itself) :
    (a.getD .undefined).Within R .itself := by
  cases a with
  | none => exact .undefined
  | some u => exact h u rfl

/-- The parent of a value, where identities do not matter. -/
theorem Within.parent (hids : ∀ i, R.ids i) {v : Value} (h : v.Within R .itself) :
    v.parent.Within R .itself := by
  have hempty : ∀ p : Parent, (∀ u, p ≠ .value u) →
      (Value.record 0 p []).Within R .itself := fun p hp =>
    .record (fun _ => hids 0) (fun u hu => absurd hu (hp u)) nofun nofun nofun
  cases v with
  | record i p fields =>
    cases p with
    | plain => exact hempty .nothing nofun
    | nothing => exact .undefined
    | value u => exact h.under.of_parent hids
  | undefined | null => exact .undefined
  | text s => exact .text ""
  | list i items => exact .list (fun _ => hids 0) (allWithin_nil R)
  | _ => exact hempty .plain nofun

theorem Within.member {v : Value} (h : v.Within R .itself) {name : String} (hname : R.Reads name) :
    Yields R.Supply (Within R .itself) (v.member name) := by
  rw [Value.member]
  refine Yields.ite (fun _ => .throw _) fun _ => Yields.ite (fun hparent => .pure ?_) fun _ =>
    .pure (within_getD fun u hu => h.lookup? hname hu)
  rcases hname with hopen | hblocked
  · exact h.parent (R.ids_of_unblocked hopen)
  · rw [Bool.and_eq_true, decide_eq_true_eq] at hparent
    exact absurd (hparent.1 ▸ by decide) hblocked

/-- Templates read fields within the realm alone: those that it is closed to are blocked. -/
theorem Within.read {v : Value} (h : v.Within R .itself) (name : String) (span : Span) :
    Yields R.Supply (Within R .itself) (v.read name span) := by
  rw [Value.read]
  exact Yields.ite (fun _ => .fail _ _) fun _ => Yields.ite (fun _ => .fail _ _) fun hname =>
    h.member (.inr hname)

end Value

/-! ### Plain values -/

/-- Calls stay within a realm. -/
def Call.Within (R : Realm) (call : Call) : Prop :=
  ∀ {f self : Value} {args : List Value}, f.Within R .itself → self.Within R .itself →
    AllWithin R args → Yields R.Supply (Value.Within R .itself) (call f self args)

namespace Value

section Plain
variable {call : Call} (hcall : call.Within R)
include hcall

theorem Within.askFor {v : Value} (h : v.Within R .itself) {names : List String}
    (hnames : ∀ name ∈ names, R.Reads name) :
    Yields R.Supply (Within R .itself) (Value.askFor call v names) := by
  induction names with
  | nil => exact .throw _
  | cons name rest ih =>
    rw [List.forall_mem_cons] at hnames
    rw [Value.askFor]
    refine (h.member hnames.1).bind fun f hf => ?_
    refine Yields.ite (fun _ => ?_) fun _ => ih hnames.2
    refine (hcall hf h (allWithin_nil R)).bind fun u hu => ?_
    exact Yields.ite (fun _ => ih hnames.2) fun _ => .pure hu

theorem Within.toPlain {v : Value} (h : v.Within R .itself) (purpose : Purpose) :
    Yields R.Supply (Within R .itself) (v.toPlain call purpose) := by
  refine Yields.ite (fun _ => h.askFor hcall fun name hname => ?_) fun _ => .pure h
  refine Realm.reads_of_not_mem ?_
  cases purpose
  all_goals
    simp only [Purpose.methods, List.mem_cons, List.not_mem_nil, or_false] at hname
    rcases hname with rfl | rfl <;> decide

theorem Within.toText {v : Value} (h : v.Within R .itself) :
    Yields R.Supply (fun _ => True) (v.toText call) :=
  (h.toPlain hcall .text).bind fun _ _ => .pure trivial

theorem Within.toNumber {v : Value} (h : v.Within R .itself) :
    Yields R.Supply (fun _ => True) (v.toNumber call) :=
  (h.toPlain hcall .number).bind fun _ _ => .pure trivial

theorem yields_itemTexts {vs : List Value} (h : AllWithin R vs) :
    Yields R.Supply (fun _ => True) (Value.itemTexts call vs) :=
  (Yields.mapM (Q := fun _ => True) h fun _ hv =>
    Yields.ite (fun _ => .pure trivial) fun _ => hv.toText hcall).any

theorem yields_looseEq {a b : Value} (ha : a.Within R .itself) (hb : b.Within R .itself) :
    Yields R.Supply (fun _ => True) (Value.looseEq call a b) :=
  Yields.ite (fun _ => .pure trivial) fun _ => Yields.ite (fun _ => .pure trivial) fun _ =>
    (ha.toPlain hcall _).bind fun _ _ => (hb.toPlain hcall _).bind fun _ _ => .pure trivial

theorem yields_difference {a b : Value} (ha : a.Within R .itself) (hb : b.Within R .itself) :
    Yields R.Supply (fun _ => True) (Value.difference call a b) := by
  unfold Value.difference
  split
  · split <;> exact .pure trivial
  · exact (ha.toNumber hcall).bind fun _ _ => (hb.toNumber hcall).bind fun _ _ => .pure trivial

end Plain

end Value

end LiveTemplate
