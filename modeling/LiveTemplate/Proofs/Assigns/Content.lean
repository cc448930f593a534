import LiveTemplate.Value.Members
import LiveTemplate.Value.Sameness
import Mathlib.Data.List.Perm.Subperm

/-!
Equality of content among the values of a program. It is an equivalence there, since one and the same
value has one content, and it is kept by every read of a field or an item.
-/

namespace LiveTemplate

set_option autoImplicit false

namespace Value

/-- Values of one program: it holds every value without an identity and the parts of what it holds, a
record names each of its fields once, and one and the same value has one content. -/
structure Stock (P : Value → Prop) : Prop where
  scalar : ∀ {v}, v.identity? = none → P v
  item : ∀ {i items v}, P (.list i items) → v ∈ items → P v
  field : ∀ {i parent fields name v}, P (.record i parent fields) → (name, v) ∈ fields → P v
  names : ∀ {i parent fields}, P (.record i parent fields) → (Assoc.keys fields).Nodup
  once : ∀ {v w i}, P v → P w → v.identity? = some i → w.identity? = some i → v = w

variable {P : Value → Prop} {a b c : Value}

theorem same_refl (a : Value) : same a a = true := by
  cases a <;> simp [same, sameBy, Number.same_refl, identity?]

theorem deepEqual_refl (a : Value) : deepEqual a a = true := by
  cases a <;> simp [deepEqual, same_refl]

theorem itemsEqual_iff {xs ys : List Value} :
    itemsEqual xs ys = true ↔ List.Forall₂ (fun x y => deepEqual x y = true) xs ys := by
  induction xs generalizing ys with
  | nil => cases ys <;> simp [itemsEqual]
  | cons x xs ih => cases ys <;> simp [itemsEqual, ih]

theorem fieldsEqual_iff {fields others : List (String × Value)} :
    fieldsEqual fields others = true ↔
      ∀ e ∈ fields, ∃ w, Assoc.get? others e.1 = some w ∧ deepEqual e.2 w = true := by
  induction fields with
  | nil => simp [fieldsEqual]
  | cons e rest ih =>
    rw [List.forall_mem_cons, ← ih, fieldsEqual, Bool.and_eq_true]
    cases Assoc.get? others e.1 <;> simp

/-- What values of equal content have in common: they are the same value, or equal numbers, lists,
plain records or times. -/
inductive Equal : Value → Value → Prop where
  | same (a : Value) : Equal a a
  | numbers {x y : Float} (h : Number.same x y = true) : Equal (.number x) (.number y)
  | lists {i j : Identity} {xs ys : List Value}
      (h : List.Forall₂ (fun x y => deepEqual x y = true) xs ys) : Equal (.list i xs) (.list j ys)
  | records {i j : Identity} {p q : Parent} {fs gs : List (String × Value)} (hp : p.isPlain = true)
      (hq : q.isPlain = true) (hlength : fs.length = gs.length)
      (h : ∀ e ∈ fs, ∃ w, Assoc.get? gs e.1 = some w ∧ deepEqual e.2 w = true) :
      Equal (.record i p fs) (.record j q gs)
  | dates {i j : Identity} (t : Int) : Equal (.date i (some t)) (.date j (some t))

theorem Stock.equal_of_same (hP : Stock P) (ha : P a) (hb : P b) (h : same a b = true) :
    Equal a b := by
  unfold same sameBy at h
  split at h
  · exact .same _
  · exact .same _
  · obtain rfl := eq_of_beq h
    exact .same _
  · exact .numbers h
  · obtain rfl := eq_of_beq h
    exact .same _
  · obtain rfl := eq_of_beq h
    exact .same _
  · obtain rfl := eq_of_beq h
    exact .same _
  · split at h
    · rename_i i j hi hj
      obtain rfl := eq_of_beq h
      obtain rfl := hP.once ha hb hi hj
      exact .same _
    · simp at h

theorem Stock.equal (hP : Stock P) (ha : P a) (hb : P b) (h : deepEqual a b = true) :
    Equal a b := by
  unfold deepEqual at h
  split at h
  · rename_i i xs j ys
    rcases Bool.or_eq_true_iff.1 h with hi | hitems
    · obtain rfl := eq_of_beq hi
      rw [hP.once ha hb rfl rfl]
      exact .same _
    · exact .lists (itemsEqual_iff.1 hitems)
  · rename_i i p fs j q gs
    rcases Bool.or_eq_true_iff.1 h with hi | hfields
    · obtain rfl := eq_of_beq hi
      rw [hP.once ha hb rfl rfl]
      exact .same _
    · simp only [Bool.and_eq_true, beq_iff_eq] at hfields
      obtain ⟨⟨⟨hp, hq⟩, hlength⟩, hfields⟩ := hfields
      exact .records hp hq hlength (fieldsEqual_iff.1 hfields)
  · rename_i i t j u
    rcases Bool.or_eq_true_iff.1 h with hi | htime
    · obtain rfl := eq_of_beq hi
      rw [hP.once ha hb rfl rfl]
      exact .same _
    · simp only [Bool.and_eq_true, beq_iff_eq] at htime
      obtain ⟨hsome, rfl⟩ := htime
      obtain ⟨t, rfl⟩ := Option.isSome_iff_exists.1 hsome
      exact .dates t
  · exact hP.equal_of_same ha hb h

theorem Equal.deepEqual (h : Equal a b) : deepEqual a b = true := by
  cases h with
  | same => exact deepEqual_refl a
  | numbers h => exact h
  | lists h => simp [Value.deepEqual, itemsEqual_iff.2 h]
  | records hp hq hlength h => simp [Value.deepEqual, hp, hq, hlength, fieldsEqual_iff.2 h]
  | dates t => simp [Value.deepEqual]

theorem forall₂_trans {α : Type} {R : α → α → Prop} {xs ys zs : List α}
    (h : ∀ x ∈ xs, ∀ y ∈ ys, ∀ z ∈ zs, R x y → R y z → R x z) (hxy : List.Forall₂ R xs ys)
    (hyz : List.Forall₂ R ys zs) : List.Forall₂ R xs zs := by
  induction hxy generalizing zs with
  | nil => exact hyz
  | cons hx _ ih =>
    cases hyz with
    | cons hy hyz =>
      refine .cons (h _ List.mem_cons_self _ List.mem_cons_self _ List.mem_cons_self hx hy) (ih ?_ hyz)
      intro x hx y hy z hz
      exact h x (List.mem_cons_of_mem _ hx) y (List.mem_cons_of_mem _ hy) z (List.mem_cons_of_mem _ hz)

theorem sizeOf_field {i : Identity} {p : Parent} {fs : List (String × Value)} {e : String × Value}
    (he : e ∈ fs) : sizeOf e.2 < sizeOf (Value.record i p fs) := by
  have hlist := List.sizeOf_lt_of_mem he
  obtain ⟨name, v⟩ := e
  simp only [Prod.mk.sizeOf_spec, record.sizeOf_spec] at hlist ⊢
  omega

/-- Equality of content is transitive. -/
theorem Stock.deepEqual_trans (hP : Stock P) (ha : P a) (hb : P b) (hc : P c)
    (hab : deepEqual a b = true) (hbc : deepEqual b c = true) : deepEqual a c = true := by
  induction hn : sizeOf a using Nat.strongRecOn generalizing a b c with
  | ind n ih =>
    -- the second equality tells what the middle value is, the first one has to agree
    cases hP.equal hb hc hbc with
    | same => exact hab
    | numbers hyz =>
      cases hP.equal ha hb hab with
      | same => exact hbc
      | numbers hxy => exact Equal.deepEqual (.numbers (Number.same_trans hxy hyz))
    | lists hyz =>
      cases hP.equal ha hb hab with
      | same => exact hbc
      | @lists i j xs ys hxy =>
        refine Equal.deepEqual (.lists (forall₂_trans ?_ hxy hyz))
        intro x hx y hy z hz hxy hyz
        have hsize : sizeOf x < n := by
          have hlist := List.sizeOf_lt_of_mem hx
          rw [← hn, list.sizeOf_spec]
          omega
        exact ih _ hsize (hP.item ha hx) (hP.item hb hy) (hP.item hc hz) hxy hyz rfl
    | records _ hr hmore hyz =>
      cases hP.equal ha hb hab with
      | same => exact hbc
      | records hp _ hlength hxy =>
        refine Equal.deepEqual (.records hp hr (hlength.trans hmore) fun e he => ?_)
        obtain ⟨w, hw, hew⟩ := hxy e he
        have hmem := Assoc.mem_of_get? hw
        obtain ⟨u, hu, hwu⟩ := hyz _ hmem
        exact ⟨u, hu, ih _ (hn ▸ sizeOf_field he) (hP.field ha he) (hP.field hb hmem)
          (hP.field hc (Assoc.mem_of_get? hu)) hew hwu rfl⟩
    | dates t =>
      cases hP.equal ha hb hab with
      | same => exact hbc
      | dates => exact Equal.deepEqual (.dates t)

/-! ### Reading -/

/-- Equal content, or none on both sides. -/
abbrev SameContent (a b : Option Value) : Prop :=
  Option.Rel (fun v w => Value.deepEqual v w = true) a b

theorem SameContent.refl (a : Option Value) : SameContent a a := by
  cases a with
  | none => exact .none
  | some v => exact .some (deepEqual_refl v)

/-- What a record of equal content and as many fields does not hold either. -/
theorem get?_eq_none_of_fields {fs gs : List (String × Value)} {name : String}
    (hf : (Assoc.keys fs).Nodup) (hlength : fs.length = gs.length)
    (h : ∀ e ∈ fs, ∃ w, Assoc.get? gs e.1 = some w ∧ Value.deepEqual e.2 w = true)
    (hnone : Assoc.get? fs name = none) : Assoc.get? gs name = none := by
  have hsub : Assoc.keys fs ⊆ Assoc.keys gs := by
    intro key hkey
    obtain ⟨v, hv⟩ := Option.isSome_iff_exists.1 (Assoc.mem_keys_iff.1 hkey)
    obtain ⟨w, hw, -⟩ := h _ (Assoc.mem_of_get? hv)
    rw [Assoc.mem_keys_iff, hw, Option.isSome_some]
  have hperm := (List.subperm_of_subset hf hsub).perm_of_length_le (by simp [Assoc.keys, hlength])
  cases hget : Assoc.get? gs name with
  | none => rfl
  | some w =>
    have hmem : name ∈ Assoc.keys gs := by rw [Assoc.mem_keys_iff, hget, Option.isSome_some]
    have hsome := Assoc.mem_keys_iff.1 (hperm.mem_iff.2 hmem)
    simp [hnone] at hsome

theorem Stock.own (hP : Stock P) (ha : P a) {name : String} (h : a.own? name = some b) : P b := by
  unfold own? at h
  split at h
  · exact hP.field ha (Assoc.mem_of_get? h)
  · split at h
    · obtain rfl := Option.some.inj h
      exact hP.scalar rfl
    · simp at h
  · split at h
    · obtain ⟨n, -, rfl⟩ := Option.map_eq_some_iff.1 h
      exact hP.scalar rfl
    · split at h
      · unfold unitAt? at h
        split at h
        · obtain rfl := Option.some.inj h
          exact hP.scalar rfl
        · simp at h
      · exact hP.item ha (List.mem_of_getElem? h)
      · simp at h

theorem getElem?_same {xs ys : List Value}
    (h : List.Forall₂ (fun x y => Value.deepEqual x y = true) xs ys) (n : Nat) :
    SameContent xs[n]? ys[n]? := by
  induction h generalizing n with
  | nil => exact .none
  | cons hxy _ ih =>
    cases n with
    | zero => exact .some hxy
    | succ n => exact ih n

theorem Stock.own_same (hP : Stock P) (ha : P a) (hb : P b) (h : Value.deepEqual a b = true)
    (name : String) : SameContent (a.own? name) (b.own? name) := by
  cases hP.equal ha hb h with
  | same => exact .refl _
  | numbers | dates => simp [own?, length?, isFunction]
  | lists hitems =>
    simp only [own?, length?, hitems.length_eq]
    split
    · exact .refl _
    · cases Record.index? name with
      | none => exact .none
      | some k => exact getElem?_same hitems k
  | @records i j p q fs gs hp hq hlength hfields =>
    simp only [own?]
    cases hname : Assoc.get? fs name with
    | none =>
      rw [get?_eq_none_of_fields (hP.names ha) hlength hfields hname]
      exact .none
    | some v =>
      obtain ⟨w, hw, heq⟩ := hfields _ (Assoc.mem_of_get? hname)
      rw [hw]
      exact .some heq

/-- What is held at the end of a path of names. -/
def heldAt? : Option Value → List String → Option Value
  | a, [] => a
  | a, name :: path => heldAt? (a.bind (own? · name)) path

variable {x y z : Option Value}

theorem Stock.heldAt (hP : Stock P) {path : List String} (hx : ∀ v, x = some v → P v)
    (h : heldAt? x path = some a) : P a := by
  induction path generalizing x with
  | nil => exact hx a h
  | cons name path ih =>
    apply ih (x := x.bind (own? · name)) _ h
    intro v hv
    obtain ⟨w, hw, hv⟩ := Option.bind_eq_some_iff.1 hv
    exact hP.own (hx w hw) hv

/-- Reading keeps equality of content. -/
theorem Stock.heldAt_same (hP : Stock P) (hx : ∀ v, x = some v → P v) (hy : ∀ v, y = some v → P v)
    (h : SameContent x y) (path : List String) : SameContent (heldAt? x path) (heldAt? y path) := by
  induction path generalizing x y with
  | nil => exact h
  | cons name path ih =>
    cases h with
    | none => exact ih (by simp) (by simp) .none
    | some h =>
      exact ih (fun v => hP.own (hx _ rfl)) (fun v => hP.own (hy _ rfl))
        (hP.own_same (hx _ rfl) (hy _ rfl) h name)

theorem Stock.same_trans (hP : Stock P) (hx : ∀ v, x = some v → P v) (hy : ∀ v, y = some v → P v)
    (hz : ∀ v, z = some v → P v) (hxy : SameContent x y) (hyz : SameContent y z) : SameContent x z := by
  cases hxy with
  | none => exact hyz
  | some hxy =>
    cases hyz with
    | some hyz => exact .some (hP.deepEqual_trans (hx _ rfl) (hy _ rfl) (hz _ rfl) hxy hyz)

end Value

end LiveTemplate
