import LiveTemplate.Proofs.Assigns.Restating

/-!
The mark that tells two values apart is exact. There is none exactly if the values have equal content,
and below plain records it reaches exactly the paths at which they differ. The one exception are paths
through a field with the name of the parent, for which no mark is kept.
-/

namespace LiveTemplate

set_option autoImplicit false

theorem Assoc.get?_filter_self {α : Type} (xs : Assoc String α) (key : String) :
    get? (xs.filter fun e => e.1 ≠ key) key = none := by
  rw [← Option.not_isSome_iff_eq_none, ← mem_keys_iff]
  intro hmem
  obtain ⟨e, he, hkey⟩ := List.mem_map.mp hmem
  have hne : e.1 ≠ key := of_decide_eq_true (List.mem_filter.mp he).2
  exact hne hkey

namespace Value

variable {P : Value → Prop} {x y : Option Value} {name : String} {path : List String}

/-- All that a path leads through before its end are plain records. -/
def PlainAlong (x : Option Value) (path : List String) : Prop :=
  ∀ before, before <+: path → before ≠ path →
    ∃ v, heldAt? x before = some v ∧ v.fields?.isSome = true

theorem PlainAlong.head (h : PlainAlong x (name :: path)) :
    ∃ i p fs, x = some (.record i p fs) ∧ p.isPlain = true := by
  obtain ⟨v, rfl, hv⟩ := h [] List.nil_prefix (List.cons_ne_nil name path).symm
  unfold fields? at hv
  split at hv
  · rename_i i p fs
    split at hv
    · exact ⟨i, p, fs, rfl, ‹_›⟩
    · cases hv
  · cases hv

theorem PlainAlong.tail (h : PlainAlong x (name :: path)) :
    PlainAlong (x.bind (own? · name)) path := fun before hbefore hne =>
  h (name :: before) ((List.cons_prefix_cons).mpr ⟨rfl, hbefore⟩) fun heq => hne (List.cons.inj heq).2

theorem PlainAlong.nil : PlainAlong x [] := fun _ hbefore hne =>
  absurd (List.prefix_nil.mp hbefore) hne

theorem PlainAlong.cons {i : Identity} {p : Parent} {fs : List (String × Value)}
    (hp : p.isPlain = true) (h : PlainAlong (Assoc.get? fs name) path) :
    PlainAlong (some (.record i p fs)) (name :: path) := by
  intro before hbefore hne
  rcases List.prefix_cons_iff.mp hbefore with rfl | ⟨rest, rfl, hrest⟩
  · exact ⟨_, rfl, by rw [fields?, if_pos hp, Option.isSome_some]⟩
  · exact h rest hrest fun heq => hne (heq ▸ rfl)

/-- There is no mark exactly if the values have equal content. -/
theorem Stock.changeMark_eq_none_iff (hP : Stock P) {a b : Value} (ha : P a) (hb : P b) :
    changeMark a b = none ↔ deepEqual a b = true :=
  ⟨hP.deepEqual_of_changeMark ha hb, hP.changeMark_of_deepEqual ha hb⟩

/-- Where plain records differ, parts are marked. -/
theorem changeMark_plain {i j : Identity} {p q : Parent} {fs gs : List (String × Value)} {m : Mark}
    (hp : p.isPlain = true) (hq : q.isPlain = true)
    (h : changeMark (.record i p fs) (.record j q gs) = some m) :
    m = .parts ((partMarks fs gs).filter fun m => m.1 ≠ parentName) := by
  rw [changeMark_records, hp, hq] at h
  split_ifs at h with _ hplain
  · cases hplain
  · exact (Option.some.inj h).symm

/-- Below plain records a mark reaches the paths at which the values differ. -/
theorem Stock.reached_iff (hP : Stock P) (hx : ∀ v, x = some v → P v) (hy : ∀ v, y = some v → P v)
    (hpx : PlainAlong x path) (hpy : PlainAlong y path) :
    Mark.reaches (fieldMark x y) path = true ↔
      parentName ∉ path ∧ ¬ SameContent (heldAt? x path) (heldAt? y path) := by
  induction path generalizing x y with
  | nil =>
    rw [heldAt?, heldAt?, and_iff_right List.not_mem_nil]
    match x, y with
    | none, none => simp [fieldMark, Mark.reaches]
    | some v, some w =>
      rw [SameContent, Option.rel_some_some, ← hP.changeMark_eq_none_iff (hx v rfl) (hy w rfl), fieldMark]
      cases changeMark v w <;> simp [Mark.reaches]
    | none, some w => simp [fieldMark, Mark.reaches]
    | some v, none => simp [fieldMark, Mark.reaches]
  | cons name path ih =>
    obtain ⟨i, p, fs, rfl, hp⟩ := hpx.head
    obtain ⟨j, q, gs, rfl, hq⟩ := hpy.head
    rw [fieldMark]
    cases hmark : changeMark (.record i p fs) (.record j q gs) with
    | none =>
      have hequal := hP.deepEqual_of_changeMark (hx _ rfl) (hy _ rfl) hmark
      have hsame := hP.heldAt_same hx hy (.some hequal) (name :: path)
      rw [Mark.reaches]
      exact ⟨fun h => absurd h Bool.false_ne_true, fun h => absurd hsame h.2⟩
    | some m =>
      rw [changeMark_plain hp hq hmark, Mark.reaches, List.mem_cons, not_or]
      by_cases hname : name = parentName
      · rw [hname, Assoc.get?_filter_self, Mark.reaches]
        exact ⟨fun h => absurd h Bool.false_ne_true, fun h => absurd rfl h.1.1⟩
      · rw [Assoc.get?_filter_ne hname, get?_partMarks gs (hP.names (hx _ rfl)),
          and_iff_right (Ne.symm hname)]
        exact ih (fun v => hP.own (hx _ rfl)) (fun v => hP.own (hy _ rfl)) hpx.tail hpy.tail

/-- Marks are exact. A binding whose value has changed is marked, and so is each path below it at which
the values differ, whether or not something is there in both; only a field with the name of the parent
goes unmarked. -/
theorem changeMark_exact (hP : Stock P) {before after : Value} (hbefore : P before)
    (hafter : P after) :
    (changeMark before after = none ↔ deepEqual before after = true) ∧
      ∀ mark, changeMark before after = some mark → ∀ key path,
        PlainAlong (some before) path → PlainAlong (some after) path →
          (ChangedSet.reaches (some [(key, mark)]) key path = true ↔ parentName ∉ path ∧
            ¬ SameContent (heldAt? (some before) path) (heldAt? (some after) path)) := by
  refine ⟨hP.changeMark_eq_none_iff hbefore hafter, fun mark hmark key path hpx hpy => ?_⟩
  have hreaches : ChangedSet.reaches (some [(key, mark)]) key path =
      Mark.reaches (fieldMark (some before) (some after)) path := by
    rw [ChangedSet.reaches, Assoc.get?, if_pos rfl, fieldMark, hmark]
  rw [hreaches]
  exact hP.reached_iff (fun v hv => Option.some.inj hv ▸ hbefore)
    (fun v hv => Option.some.inj hv ▸ hafter) hpx hpy

/-- A visitor has moved: the address is marked, and it differs. -/
theorem changeMark_exact_visitor :
    let before := Assigns.visitor 1 "Rome"
    let after := Assigns.visitor 2 "Oslo"
    Stock Assigns.IsVisitor ∧ Assigns.IsVisitor before ∧ Assigns.IsVisitor after ∧
      changeMark before after = some (.parts [("address", .whole)]) ∧
      PlainAlong (some before) ["address"] ∧ PlainAlong (some after) ["address"] ∧
      (changeMark before after = none ↔ deepEqual before after = true) ∧
      (ChangedSet.reaches (some [("user", .parts [("address", .whole)])]) "user" ["address"] = true ↔
        parentName ∉ ["address"] ∧
          ¬ SameContent (heldAt? (some before) ["address"]) (heldAt? (some after) ["address"])) := by
  intro before after
  have hbefore : Assigns.IsVisitor before := .inr (.inl rfl)
  have hafter : Assigns.IsVisitor after := .inr (.inr rfl)
  have hmark : changeMark before after = some (.parts [("address", .whole)]) := rfl
  have halong : ∀ i address, PlainAlong (some (Assigns.visitor i address)) ["address"] :=
    fun _ _ => .cons rfl .nil
  obtain ⟨hnone, hreached⟩ := changeMark_exact Assigns.isVisitor_stock hbefore hafter
  exact ⟨Assigns.isVisitor_stock, hbefore, hafter, hmark, halong _ _, halong _ _, hnone,
    hreached _ hmark "user" ["address"] (halong _ _) (halong _ _)⟩

/-- Two records with nothing to inherit from hold different fields under the name of the parent. The
mark tells that they differ, but not where. -/
example : changeMark (.record 1 .nothing [(parentName, .flag true)])
    (.record 2 .nothing [(parentName, .flag false)]) = some (.parts []) := rfl

end Value

end LiveTemplate
