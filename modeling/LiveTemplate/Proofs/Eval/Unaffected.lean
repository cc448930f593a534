import LiveTemplate.Proofs.Eval.Content
import LiveTemplate.Proofs.Eval.Evaluation
import LiveTemplate.Proofs.Expr.Unaffected

/-!
An expression that no change affects evaluates the same before and after the change.
-/

namespace LiveTemplate

set_option autoImplicit false

/-! ### Marks and what they leave -/

/-- Whether a mark leads along a path to marks of parts. -/
def Mark.partsAt : Option Mark → List String → Bool
  | some (parts _), [] => true
  | some (parts fields), segment :: path => partsAt (Assoc.get? fields segment) path
  | _, _ => false

theorem Mark.partsAt_whole (path : List String) : Mark.partsAt (some .whole) path = false := by
  cases path <;> rfl

theorem Mark.partsAt_none (path : List String) : Mark.partsAt none path = false := by
  cases path <;> rfl

namespace Value

theorem follow_cons {v : Value} (hv : v.isAbsent = false) {name : String}
    (hname : name ∉ blockedFields) (path : List String) :
    v.follow (name :: path) = (v.member? name).bind fun u => u.follow path := by
  rw [follow, hv, if_neg (by simpa using hname)]

/-- A value is in step with itself. -/
theorem inStep_refl (path : List String) (v : Value) : InStep path v v := by
  induction path generalizing v with
  | nil => trivial
  | cons name path ih =>
    cases hv : v.isAbsent with
    | true => exact .inl ⟨hv, rfl⟩
    | false =>
      refine .inr ⟨hv, hv, .inr ?_⟩
      cases v.member? name with
      | none => trivial
      | some u => exact ih u

/-- What is read at the end of a path of fields that starts at a value which may be missing. -/
def readAt (start : Option Value) (path : List String) : Option Value :=
  start.bind fun v => v.follow path

/-- At the end of a path there is a value, and one that is neither undefined nor null. -/
def PresentAt (start : Option Value) (path : List String) : Prop :=
  ∃ v, readAt start path = some v ∧ v.isAbsent = false

theorem readAt_nil (start : Option Value) : readAt start [] = start := by
  cases start <;> rfl

/-- Two values, which may be missing, as a mark tells them apart: they are the same where it does not
reach, and present wherever it marks parts. -/
structure Marked (mark : Option Mark) (a b : Option Value) : Prop where
  same : ∀ path, Mark.reaches mark path = false → readAt a path = readAt b path
  shaped : ∀ path, Mark.partsAt mark path = true → PresentAt a path ∧ PresentAt b path

theorem readAt_cons {v : Value} (hv : v.isAbsent = false) {name : String}
    (hname : name ∉ blockedFields) (path : List String) :
    readAt (some v) (name :: path) = readAt (v.member? name) path := follow_cons hv hname path

theorem readAt_blocked (v : Value) {name : String} (hname : name ∈ blockedFields)
    (path : List String) : readAt (some v) (name :: path) = none := by
  rw [readAt, Option.bind_some, follow, if_pos (by simp [hname])]

/-! #### Making marks -/

/-- Without a mark, a value has to be the same. -/
theorem Marked.refl (a : Option Value) : Marked none a a :=
  ⟨fun _ _ => rfl, fun path h => absurd ((Mark.partsAt_none path).symm.trans h) Bool.noConfusion⟩

/-- A mark of the whole tells any two values apart. -/
theorem Marked.whole (a b : Option Value) : Marked (some .whole) a b :=
  ⟨fun path h => absurd ((Mark.reaches_whole path).symm.trans h) Bool.noConfusion,
    fun path h => absurd ((Mark.partsAt_whole path).symm.trans h) Bool.noConfusion⟩

/-- Marks of parts tell values apart by their members. -/
theorem Marked.parts {fields : List (String × Mark)} {v w : Value} (hv : v.isAbsent = false)
    (hw : w.isAbsent = false) (h : ∀ name, name ∉ blockedFields →
      Marked (Assoc.get? fields name) (v.member? name) (w.member? name))
    (hfields : ∀ name ∈ blockedFields, Assoc.get? fields name = none) :
    Marked (some (.parts fields)) (some v) (some w) := by
  refine ⟨fun path hpath => ?_, fun path hpath => ?_⟩
  · cases path with
    | nil => cases hpath
    | cons name path =>
      rw [Mark.reaches] at hpath
      by_cases hname : name ∈ blockedFields
      · rw [readAt_blocked v hname, readAt_blocked w hname]
      · rw [readAt_cons hv hname, readAt_cons hw hname]
        exact (h name hname).same path hpath
  · cases path with
    | nil => exact ⟨⟨v, rfl, hv⟩, ⟨w, rfl, hw⟩⟩
    | cons name path =>
      rw [Mark.partsAt] at hpath
      by_cases hname : name ∈ blockedFields
      · rw [hfields name hname, Mark.partsAt_none] at hpath
        cases hpath
      · rw [PresentAt, PresentAt, readAt_cons hv hname, readAt_cons hw hname]
        exact (h name hname).shaped path hpath

/-! #### Using marks -/

theorem Marked.isSome_eq {mark : Option Mark} {a b : Option Value} (h : Marked mark a b)
    {path : List String} (hpath : Mark.reaches mark path = false) : a.isSome = b.isSome := by
  match mark with
  | none =>
    have hab := h.same [] (by rw [Mark.reaches])
    rw [readAt_nil, readAt_nil] at hab
    rw [hab]
  | some .whole =>
    rw [Mark.reaches_whole] at hpath
    cases hpath
  | some (.parts fields) =>
    obtain ⟨⟨v, hv, -⟩, ⟨w, hw, -⟩⟩ := h.shaped [] rfl
    rw [readAt_nil] at hv hw
    rw [hv, hw]
    rfl

theorem Marked.member? {fields : List (String × Mark)} {v w : Value}
    (h : Marked (some (.parts fields)) (some v) (some w)) {name : String}
    (hname : name ∉ blockedFields) :
    Marked (Assoc.get? fields name) (v.member? name) (w.member? name) := by
  obtain ⟨⟨v', hv', hv⟩, ⟨w', hw', hw⟩⟩ := h.shaped [] rfl
  obtain rfl := Option.some.inj hv'
  obtain rfl := Option.some.inj hw'
  refine ⟨fun path hpath => ?_, fun path hpath => ?_⟩
  · rw [← readAt_cons hv hname, ← readAt_cons hw hname]
    exact h.same (name :: path) (by rwa [Mark.reaches])
  · rw [PresentAt, PresentAt, ← readAt_cons hv hname, ← readAt_cons hw hname]
    exact h.shaped (name :: path) (by rwa [Mark.partsAt])

/-- Where a mark does not reach, reads go on in step. -/
theorem Marked.inStep {path : List String} {mark : Option Mark} {a b : Option Value}
    (h : Marked mark a b) (hpath : Mark.reaches mark path = false) :
    Option.Rel (InStep path) a b := by
  refine rel_of_isSome_eq (h.isSome_eq hpath) ?_
  rintro v w rfl rfl
  induction path generalizing mark v w with
  | nil => trivial
  | cons name path ih =>
    match mark with
    | none =>
      have hvw : v = w := Option.some.inj (h.same [] (by rw [Mark.reaches]))
      exact hvw ▸ inStep_refl _ v
    | some .whole => cases hpath
    | some (.parts fields) =>
      obtain ⟨⟨v', hv', hv⟩, ⟨w', hw', hw⟩⟩ := h.shaped [] rfl
      obtain rfl := Option.some.inj hv'
      obtain rfl := Option.some.inj hw'
      refine .inr ⟨hv, hw, or_iff_not_imp_left.mpr fun hname => ?_⟩
      rw [Mark.reaches] at hpath
      have hmember := h.member? hname
      have hsome := hmember.isSome_eq hpath
      cases hu : v.member? name with
      | none =>
        cases ht : w.member? name with
        | none => trivial
        | some t =>
          rw [hu, ht] at hsome
          cases hsome
      | some u =>
        cases ht : w.member? name with
        | none =>
          rw [hu, ht] at hsome
          cases hsome
        | some t =>
          rw [hu, ht] at hmember
          exact ih hpath u t hmember

/-- Where a mark does not reach, reads meet at the same values if all on the left are alike to
themselves. -/
theorem Marked.meet {σ : Pairing} (hσ : σ.Exact) {path : List String} {mark : Option Mark}
    {a b : Option Value} (h : Marked mark a b) (hself : ∀ v, a = some v → Alike σ v v)
    (hpath : Mark.reaches mark path = false) : Option.Rel (Meet σ path) a b := by
  have hstep := h.inStep hpath
  refine rel_of_isSome_eq (h.isSome_eq hpath) ?_
  rintro v w rfl rfl
  refine ⟨?_, fun {u t} hu ht => ?_⟩
  · cases hstep with
    | some hstep => exact hstep
  · have hsame : v.follow path = w.follow path := h.same path hpath
    obtain rfl : u = t := Option.some.inj (hu.symm.trans (hsame.trans ht))
    exact ((hself v rfl).meet hσ path).alike hu hu

end Value

/-! ### Frames before and after a change -/

/-- What is read of a binding at the end of a path of fields. -/
def Frame.at? (f : Frame) (key : String) (path : List String) : Option Value :=
  Value.readAt (Assoc.get? f.assigns key) path

/-- Frames with the same local names, helpers and parent of their bindings, and with the same values
wherever a changed-set does not reach. -/
structure Frame.Agree (changed : ChangedSet) (f g : Frame) : Prop where
  locals : ∀ x, x ∈ Assoc.keys f.locals ↔ x ∈ Assoc.keys g.locals
  helpers : f.helpers = g.helpers
  parent : f.assignsParent = g.assignsParent
  same : ∀ key path, ChangedSet.reaches (some changed) key path = false →
    f.at? key path = g.at? key path

/-- Frames whose bindings differ as a changed-set tells. Where it marks parts of a value, that value
is present in both frames; if it is empty, the bindings are the same and in the same order. -/
structure Frame.DifferBy (changed : ChangedSet) (f g : Frame) : Prop
    extends Frame.Agree changed f g where
  shaped : ∀ key path, Mark.partsAt (Assoc.get? changed key) path = true →
    Value.PresentAt (Assoc.get? f.assigns key) path ∧ Value.PresentAt (Assoc.get? g.assigns key) path
  whole : changed = [] → f.assigns = g.assigns

section
variable (changed : ChangedSet) (f g : Frame) (n m : Identity)

/-- An identity that is older than what is made next in either of two frames. If nothing changed it
is not that of only one of the two records of all bindings. -/
def Frame.Shares (i : Identity) : Prop :=
  i < n ∧ i < m ∧ (changed = [] → (i = f.assignsId ↔ i = g.assignsId))

/-- The identities in the values of two frames are older than what is made next in either. If nothing
changed, a record of all bindings is not among the values, unless it is that of both frames. -/
structure Frame.Older : Prop where
  assigns : f.assignsId < n ∧ g.assignsId < m
  common : Shares changed f g n m 0
  bindings : Value.NamesUse (Shares changed f g n m) f.assigns
  parent : f.assignsParent.Uses (Shares changed f g n m)
  helpers : Value.NamesUse (Shares changed f g n m) f.helpers

end

/-- A scope of names tells which of them are local to a frame and which are its helpers. -/
structure NameScope.Describes (scope : NameScope) (f : Frame) : Prop where
  locals : ∀ x, x ∈ scope.locals ↔ x ∈ Assoc.keys f.locals
  helpers : ∀ x, x ∈ scope.helpers ↔ x ∈ Assoc.keys f.helpers

/-- Shared identities stand for themselves, what is made next in one frame for what is made next in
the other, and the records of all bindings for each other if nothing changed. -/
def Frame.pairing (changed : ChangedSet) (f g : Frame) (n m : Identity) : Pairing := fun i j =>
  (i = j ∧ f.Shares changed g n m i) ∨ (changed = [] ∧ i = f.assignsId ∧ j = g.assignsId) ∨
    ∃ k, i = n + k ∧ j = m + k

theorem Assoc.get?_eq_none_of_not_mem {α : Type} {names : List (String × α)} {x : String}
    (h : x ∉ Assoc.keys names) : Assoc.get? names x = none := by
  induction names with
  | nil => rfl
  | cons e rest ih =>
    rw [Assoc.keys, List.map_cons, List.mem_cons, not_or] at h
    rw [Assoc.get?, if_neg fun he => h.1 he.symm]
    exact ih h.2

section
variable {changed : ChangedSet} {f g : Frame} {n m : Identity}

theorem Frame.Older.exact (hold : f.Older changed g n m) : (f.pairing changed g n m).Exact where
  eq_iff := by
    have harith : ∀ (empty : Prop) (a b n m i j k l : Nat), a < n → b < m →
        (i = j ∧ i < n ∧ i < m ∧ (empty → (i = a ↔ i = b))) ∨ (empty ∧ i = a ∧ j = b) ∨
          (∃ d, i = n + d ∧ j = m + d) →
        (k = l ∧ k < n ∧ k < m ∧ (empty → (k = a ↔ k = b))) ∨ (empty ∧ k = a ∧ l = b) ∨
          (∃ d, k = n + d ∧ l = m + d) → (i = k ↔ j = l) := by
      intro empty a b n m i j k l ha hb hij hkl
      by_cases hempty : empty
      · simp only [hempty, true_and, true_implies] at hij hkl
        rcases hij with hij | hij | ⟨d, hi, hj⟩ <;> rcases hkl with hkl | hkl | ⟨e, hk, hl⟩ <;> omega
      · simp only [hempty, false_and, false_or, false_implies, and_true] at hij hkl
        rcases hij with hij | ⟨d, hi, hj⟩ <;> rcases hkl with hkl | ⟨e, hk, hl⟩ <;> omega
    exact fun {i j k l} hij hkl =>
      harith (changed = []) _ _ n m i j k l hold.assigns.1 hold.assigns.2 hij hkl
  shared := .inl ⟨rfl, hold.common⟩

theorem Frame.pairing_ahead : (f.pairing changed g n m).Ahead n m :=
  fun k => .inr (.inr ⟨k, rfl, rfl⟩)

theorem Frame.pairing_of_shares {i : Identity} (h : f.Shares changed g n m i) :
    f.pairing changed g n m i i := .inl ⟨rfl, h⟩

end

/-! ### Lookups in frames -/

/-- The bindings as one record. -/
def Frame.record (f : Frame) : Value := .record f.assignsId f.assignsParent f.assigns

theorem Frame.lookup_eq (f : Frame) (x : String) : f.scope.lookup x =
    (Assoc.get? f.locals x).or ((if x = "assigns" then some f.record else none).or
      ((Assoc.get? f.helpers x).or (Assoc.get? f.assigns x))) := by
  have hlayer : ∀ (names : List (String × Value)) (rest : Scope),
      Scope.lookup (⟨none, names⟩ :: rest) x = (Assoc.get? names x).or (rest.lookup x) := by
    intro names rest
    rw [Scope.lookup]
    cases Assoc.get? names x with
    | none => rfl
    | some v => rfl
  rw [Frame.scope, hlayer, hlayer, hlayer, hlayer, Scope.lookup, Option.or_none, Assoc.get?,
    Assoc.get?_nil]
  simp only [eq_comm (a := "assigns"), Frame.record]

namespace Value

section Record
variable (i : Identity) (p : Parent) (fields : List (String × Value)) {name : String}

theorem borrowsSize_record : (record i p fields).borrowsSize =
    (!Assoc.contains fields "size" && (record 0 p []).borrowsSize) := by
  cases p with
  | plain => exact (Bool.and_false _).symm
  | nothing => exact (Bool.and_false _).symm
  | value v => rw [borrowsSize_under, borrowsSize_under]; rfl

/-- A record takes a member from among its fields first; for what it inherits it does not matter
which record it is. -/
theorem member?_record (hname : name ∉ blockedFields) : (record i p fields).member? name =
    (Assoc.get? fields name).or ((record 0 p []).member? name) := by
  have hparent : ∀ v : Value, ¬ (decide (name = parentName) && v.takesParent) = true := by
    intro v
    rw [Bool.and_eq_true, decide_eq_true_iff]
    exact fun h => hname (h.1 ▸ List.mem_cons_self)
  rw [member?, member?, if_neg (hparent _), if_neg (hparent _), lookup?_record,
    lookup?_record 0 p [], Assoc.get?_nil, Option.none_or, borrowsSize_record]
  cases hget : Assoc.get? fields name with
  | some v =>
    rw [if_neg, Option.some_or, Option.some_or, Option.getD_some]
    rw [Bool.and_eq_true, Bool.and_eq_true, decide_eq_true_iff]
    rintro ⟨rfl, hcontains, -⟩
    rw [Assoc.contains, hget] at hcontains
    cases hcontains
  | none =>
    rw [Option.none_or, Option.none_or]
    by_cases hsize : name = "size"
    · subst hsize
      rw [Assoc.contains, hget, Option.isSome_none, Bool.not_false, Bool.true_and]
      cases p <;> rfl
    · rw [decide_eq_false hsize, Bool.false_and, Bool.false_and]
      cases p <;> rfl

end Record

/-- Reads meet from a field on if they meet from its values on, unless the field is never read. -/
theorem Meet.cons {σ : Pairing} {name : String} {path : List String} {v w : Value}
    (hv : v.isAbsent = false) (hw : w.isAbsent = false)
    (h : name ∉ blockedFields → Option.Rel (Meet σ path) (v.member? name) (w.member? name)) :
    Meet σ (name :: path) v w := by
  by_cases hname : name ∈ blockedFields
  · refine ⟨.inr ⟨hv, hw, .inl hname⟩, fun hu _ => ?_⟩
    rw [follow, hv, if_pos (by simpa using hname)] at hu
    cases hu
  · have hmember := h hname
    refine ⟨.inr ⟨hv, hw, .inr ?_⟩, fun {u t} hu ht => ?_⟩
    · generalize v.member? name = a at hmember
      generalize w.member? name = b at hmember
      cases hmember with
      | none => trivial
      | some hmeet => exact hmeet.inStep
    · rw [follow_cons hv hname] at hu
      rw [follow_cons hw hname] at ht
      generalize v.member? name = a at hmember hu
      generalize w.member? name = b at hmember ht
      cases hmember with
      | none => cases hu
      | some hmeet => exact hmeet.alike hu ht

end Value

section
variable {scope : NameScope} {changed : ChangedSet} {f g : Frame} {n m : Identity}

theorem self_alike {names : List (String × Value)}
    (hnames : Value.NamesUse (f.Shares changed g n m) names) {x : String} {v : Value}
    (h : Assoc.get? names x = some v) : Alike (f.pairing changed g n m) v v := by
  have hself := (namesAlike_refl (fun _ => Frame.pairing_of_shares) names hnames).get? x
  rw [h] at hself
  cases hself with
  | some hself => exact hself

variable (hdiffer : f.DifferBy changed g) (hold : f.Older changed g n m)
include hdiffer hold

theorem parents_alike : ParentAlike (f.pairing changed g n m) f.assignsParent g.assignsParent := by
  rw [← hdiffer.parent]
  exact parentAlike_refl (fun _ => Frame.pairing_of_shares) _ hold.parent

/-- Reads of a binding that the changed-set does not reach meet. -/
theorem meet_binding {key : String} {path : List String}
    (h : ChangedSet.reaches (some changed) key path = false) :
    Option.Rel (Value.Meet (f.pairing changed g n m) path) (Assoc.get? f.assigns key)
      (Assoc.get? g.assigns key) := by
  have hmarked : Value.Marked (Assoc.get? changed key) (Assoc.get? f.assigns key)
    (Assoc.get? g.assigns key) := ⟨hdiffer.same key, hdiffer.shaped key⟩
  exact hmarked.meet hold.exact (fun _ => self_alike hold.bindings) h

/-- So do its reads through the record of all bindings, and reads of what that inherits. -/
theorem meet_record {key : String} {path : List String}
    (h : ChangedSet.reaches (some changed) key path = false) :
    Value.Meet (f.pairing changed g n m) (key :: path) f.record g.record := by
  refine .cons rfl rfl fun hkey => ?_
  have hbare : Alike (f.pairing changed g n m) (.record 0 f.assignsParent [])
      (.record 0 g.assignsParent []) :=
    .of_record hold.exact.shared (parents_alike hdiffer hold) .nil
  have hinherited := hbare.member?_rel hold.exact key
  have hbinding := meet_binding hdiffer hold h
  rw [Frame.record, Frame.record, Value.member?_record _ _ f.assigns hkey,
    Value.member?_record _ _ g.assigns hkey]
  generalize Assoc.get? f.assigns key = a at hbinding
  generalize Assoc.get? g.assigns key = b at hbinding
  cases hbinding with
  | some hmeet => exact .some hmeet
  | none =>
    rw [Option.none_or, Option.none_or]
    generalize Value.member? _ key = a at hinherited ⊢
    generalize Value.member? _ key = b at hinherited ⊢
    cases hinherited with
    | none => exact .none
    | some halike => exact .some (halike.meet hold.exact path)

/-- What is granted is found in both frames or in neither, and reads of it meet. -/
theorem meet_granted (hscope : scope.Describes f) {x : String} {path : List String}
    (h : scope.Grants changed x path) :
    Option.Rel (Value.Meet (f.pairing changed g n m) path) (f.scope.lookup x) (g.scope.lookup x) := by
  obtain ⟨hlocal, h⟩ := h.elim
  have hf : Assoc.get? f.locals x = none :=
    Assoc.get?_eq_none_of_not_mem fun hx => hlocal ((hscope.locals x).mpr hx)
  have hg : Assoc.get? g.locals x = none :=
    Assoc.get?_eq_none_of_not_mem fun hx =>
      hlocal ((hscope.locals x).mpr ((hdiffer.locals x).mpr hx))
  rw [Frame.lookup_eq, Frame.lookup_eq, hf, hg, Option.none_or, Option.none_or]
  rcases h with ⟨rfl, rfl, hempty⟩ | ⟨key, rest, rfl, rfl, hreach⟩ | ⟨hx, hhelper⟩ |
    ⟨hx, hhelper, hreach⟩
  · rw [if_pos rfl, if_pos rfl]
    have hbindings : NamesAlike (f.pairing changed g n m) f.assigns g.assigns := by
      rw [← hdiffer.whole hempty]
      exact namesAlike_refl (fun _ => Frame.pairing_of_shares) _ hold.bindings
    exact .some (Value.Meet.nil_iff.mpr
      (.of_record (.inr (.inl ⟨hempty, rfl, rfl⟩)) (parents_alike hdiffer hold) hbindings))
  · rw [if_pos rfl, if_pos rfl]
    exact .some (meet_record hdiffer hold hreach)
  · obtain ⟨v, hv⟩ := Option.isSome_iff_exists.mp
      (get?_isSome_of_mem_keys ((hscope.helpers x).mp hhelper))
    rw [if_neg hx, if_neg hx, Option.none_or, Option.none_or, ← hdiffer.helpers, hv,
      Option.some_or, Option.some_or]
    exact .some ((self_alike hold.helpers hv).meet hold.exact path)
  · rw [if_neg hx, if_neg hx, Option.none_or, Option.none_or, ← hdiffer.helpers,
      Assoc.get?_eq_none_of_not_mem fun h => hhelper ((hscope.helpers x).mpr h), Option.none_or,
      Option.none_or]
    exact meet_binding hdiffer hold hreach

theorem scopes_alike (hscope : scope.Describes f) :
    Scopes (f.pairing changed g n m) (scope.Grants changed) [] f.scope g.scope := by
  have hplain : ∀ h : Frame, ∀ layer ∈ h.scope, layer.id = none := fun h => by
    simp [Frame.scope]
  exact ⟨[], [], f.scope, g.scope, rfl, rfl, .nil, hplain f, hplain g,
    meet_granted hdiffer hold hscope, fun _ hx => absurd hx List.not_mem_nil⟩

theorem Expr.both_eval_of_unaffected (hscope : scope.Describes f) {e : Expr}
    (hspelled : ∀ s ∈ e.spelled, Unseparated s)
    (hunaffected : (e.reads scope).isAffected (some changed) = false) :
    Both (f.pairing changed g n m) (Alike (f.pairing changed g n m)) (e.eval f.scope)
      (e.eval g.scope) :=
  both_settle (both_link hold.exact (steady_call hold.exact) (scopes_alike hdiffer hold hscope) e
    (Expr.confined_of_unaffected hspelled hunaffected))

/-- If no read of an expression is affected by how two frames differ, it evaluates in both to the
same error, or to values of the same content. -/
theorem Expr.eval_same_of_unaffected (hscope : scope.Describes f) {e : Expr}
    (hspelled : ∀ s ∈ e.spelled, Unseparated s)
    (hunaffected : (e.reads scope).isAffected (some changed) = false) :
    SameOutcome (fun v w => v.content = w.content) ((e.eval f.scope).run.run n).1
      ((e.eval g.scope).run.run m).1 := by
  have heval := Expr.both_eval_of_unaffected hdiffer hold hscope hspelled hunaffected
  exact (heval n m Frame.pairing_ahead).1.imp fun _ _ h => h.content_eq

end

/-! ### Frames at the root of a page -/

/-- A frame of bindings alone, with the standard helpers. -/
def Frame.holding (id : Identity) (bindings : List (String × Value)) : Frame where
  source := { text := "" }
  helpers := standardHelpers
  unit := none
  assigns := bindings
  assignsParent := .plain
  assignsId := id
  changed := none
  render := 0
  position := "root"
  cid := none
  locals := []
  owner := none

/-- The names that are not bindings in such frames. -/
def rootNames : NameScope := ⟨[], Assoc.keys standardHelpers⟩

theorem rootNames_describes (id : Identity) (bindings : List (String × Value)) :
    rootNames.Describes (.holding id bindings) := ⟨fun _ => .rfl, fun _ => .rfl⟩

/-- A user, as a record of which an age is known. -/
def user (id : Identity) (age : Float) : Value :=
  .record id .plain [("name", .text "Ada"), ("age", .number age)]

/-- Only the age of the user changed. -/
def aged : ChangedSet := [("user", .parts [("age", .whole)])]

theorem user_marked (i j : Identity) (before after : Float) :
    Value.Marked (some (.parts [("age", .whole)])) (some (user i before)) (some (user j after)) := by
  refine .parts rfl rfl (fun name hname => ?_) (by decide)
  rw [user, user, Value.member?_record i _ _ hname, Value.member?_record j _ _ hname]
  simp only [Assoc.get?]
  by_cases hfirst : "name" = name
  · subst hfirst
    exact .refl _
  · by_cases hage : "age" = name
    · subst hage
      exact .whole _ _
    · rw [if_neg hfirst, if_neg hfirst, if_neg hage, if_neg hage, if_neg hage]
      exact .refl _

theorem aged_differ (i j : Identity) (before after : Float) :
    (Frame.holding 2 [("user", user i before)]).DifferBy aged
      (.holding 4 [("user", user j after)]) := by
  have hmarked : ∀ key, Value.Marked (Assoc.get? aged key)
      (Assoc.get? [("user", user i before)] key) (Assoc.get? [("user", user j after)] key) := by
    intro key
    simp only [aged, Assoc.get?]
    split
    · exact user_marked i j before after
    · exact .refl none
  exact ⟨⟨fun _ => .rfl, rfl, rfl, fun key => (hmarked key).same⟩, fun key => (hmarked key).shaped,
    fun h => by cases h⟩

theorem aged_older :
    (Frame.holding 2 [("user", user 1 36)]).Older aged (.holding 4 [("user", user 3 37)]) 5 5 := by
  have hshares : ∀ i < 5, Frame.Shares aged (.holding 2 [("user", user 1 36)])
      (.holding 4 [("user", user 3 37)]) 5 5 i := fun i hi => ⟨hi, hi, fun h => by cases h⟩
  refine ⟨⟨by decide, by decide⟩, hshares 0 (by decide), ?_, trivial, ?_⟩
  · exact ⟨⟨hshares 1 (by decide), trivial, trivial, trivial, trivial⟩, trivial⟩
  · simp [Frame.holding, standardHelpers, Value.NamesUse, Value.Uses]

/-- A read of the name is the same when only the age of a user changed. -/
theorem eval_name_same : SameOutcome (fun v w => v.content = w.content)
    (((Expr.member (.name "user" ⟨0, 4⟩) "name" false ⟨0, 9⟩).eval
      (Frame.holding 2 [("user", user 1 36)]).scope).run.run 5).1
    (((Expr.member (.name "user" ⟨0, 4⟩) "name" false ⟨0, 9⟩).eval
      (Frame.holding 4 [("user", user 3 37)]).scope).run.run 5).1 :=
  Expr.eval_same_of_unaffected (aged_differ 1 3 36 37) aged_older (rootNames_describes _ _)
    (by decide) (by decide)

/-! ### What agreement alone leaves open

Frames may agree beyond a changed-set and yet evaluate differently: when it marks parts of a value
that is absent, which errors tell, and when it is empty but the bindings come in another order. -/

/-- The expression that reads `a.c`. -/
def fieldOfA : Expr := .member (.name "a" ⟨0, 1⟩) "c" false ⟨0, 3⟩

/-- A call of the helper that picks attributes, with a test that fails on the first name it is asked
about. -/
def pickedAttributes : Expr :=
  .call (.name "assignsToAttributes" ⟨0, 19⟩)
    [.name "assigns" ⟨20, 27⟩,
      .object [("includes", .arrow [.name "k" ⟨41, 42⟩]
        (.keyed (.literal .null ⟨46, 50⟩) (.name "k" ⟨51, 52⟩) false ⟨46, 53⟩) ⟨41, 53⟩)] ⟨29, 55⟩]
    false ⟨0, 56⟩

theorem absent_agree : (Frame.holding 1 [("a", .undefined)]).Agree [("a", .parts [("d", .whole)])]
    (.holding 2 [("a", .null)]) := by
  refine ⟨fun _ => .rfl, rfl, rfl, fun key path h => ?_⟩
  rw [ChangedSet.reaches, Assoc.get?, Assoc.get?_nil] at h
  simp only [Frame.at?, Frame.holding, Assoc.get?]
  split
  · rename_i hkey
    rw [if_pos hkey] at h
    cases path with
    | nil => cases h
    | cons name path => rfl
  · rfl

theorem reordered_agree : (Frame.holding 1 [("a", .number 1), ("b", .number 2)]).Agree []
    (.holding 2 [("b", .number 2), ("a", .number 1)]) := by
  refine ⟨fun _ => .rfl, rfl, rfl, fun key path _ => congrArg (Value.readAt · path) ?_⟩
  simp only [Frame.holding, Assoc.get?]
  by_cases ha : "a" = key
  · subst ha
    rfl
  · rw [if_neg ha, if_neg ha]

/-- Agreement beyond a changed-set is not enough for an expression that it does not affect. -/
theorem eval_differs_in_agreement :
    ((Frame.holding 1 [("a", .undefined)]).Agree [("a", .parts [("d", .whole)])]
        (.holding 2 [("a", .null)]) ∧
      (fieldOfA.reads rootNames).isAffected (some [("a", .parts [("d", .whole)])]) = false ∧
      ¬ SameOutcome (fun v w => v.content = w.content)
        ((fieldOfA.eval (Frame.holding 1 [("a", .undefined)]).scope).run.run 3).1
        ((fieldOfA.eval (Frame.holding 2 [("a", .null)]).scope).run.run 3).1) ∧
    ((Frame.holding 1 [("a", .number 1), ("b", .number 2)]).Agree []
        (.holding 2 [("b", .number 2), ("a", .number 1)]) ∧
      (pickedAttributes.reads rootNames).isAffected (some []) = false ∧
      ¬ SameOutcome (fun v w => v.content = w.content)
        ((pickedAttributes.eval
          (Frame.holding 1 [("a", .number 1), ("b", .number 2)]).scope).run.run 3).1
        ((pickedAttributes.eval
          (Frame.holding 2 [("b", .number 2), ("a", .number 1)]).scope).run.run 3).1) := by
  refine ⟨⟨absent_agree, by decide, fun h => ?_⟩, ⟨reordered_agree, by decide, fun h => ?_⟩⟩
  · have hcause : EvalError.failed (.absentRead "c" "undefined") ⟨0, 3⟩ =
        .failed (.absentRead "c" "null") ⟨0, 3⟩ := h
    exact absurd hcause (by decide)
  · have hcause : EvalError.failed (.absentRead "a" "null") ⟨46, 53⟩ =
        .failed (.absentRead "b" "null") ⟨46, 53⟩ := h
    exact absurd hcause (by decide)

end LiveTemplate
