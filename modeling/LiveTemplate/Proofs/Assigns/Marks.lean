import LiveTemplate.Change
import LiveTemplate.Proofs.Assigns.Content
import Mathlib.Tactic.SplitIfs

/-!
What a mark leaves out is unchanged: the mark that tells two values apart reaches every path at which
they differ, and a mark that is merged with another reaches what either of them reaches. Paths are
those that no name for a parent is on; such a name is never marked.
-/

namespace LiveTemplate

set_option autoImplicit false

namespace Assoc

variable {α : Type} {xs : Assoc String α} {key : String}

theorem get?_filter_ne {other : String} (hkey : key ≠ other) :
    get? (xs.filter fun e => e.1 ≠ other) key = get? xs key := by
  induction xs with
  | nil => rfl
  | cons e rest ih =>
    rw [List.filter_cons, get?]
    split
    · rw [get?, ih]
    · rename_i he
      rw [ih, if_neg]
      rintro rfl
      exact he (by simpa using hkey)

end Assoc

namespace Value

variable {P : Value → Prop}

/-- How two fields that may be missing differ. -/
def fieldMark : Option Value → Option Value → Option Mark
  | none, none => none
  | some v, some w => changeMark v w
  | _, _ => some .whole

/-- The marks of the fields of two records. -/
def partMarks (fs gs : List (String × Value)) : List (String × Mark) :=
  fieldMarks fs gs ++ (gs.filter fun g => !Assoc.contains fs g.1).map fun g => (g.1, Mark.whole)

theorem fieldMarks_cons (name : String) (v : Value) (rest others : List (String × Value)) :
    fieldMarks ((name, v) :: rest) others =
      match fieldMark (some v) (Assoc.get? others name) with
      | some m => (name, m) :: fieldMarks rest others
      | none => fieldMarks rest others := by
  rw [fieldMarks]
  cases Assoc.get? others name <;> rfl

theorem get?_fieldMarks {fs : List (String × Value)} (gs : List (String × Value))
    (hn : (Assoc.keys fs).Nodup) (name : String) :
    Assoc.get? (fieldMarks fs gs) name =
      (Assoc.get? fs name).bind fun v => fieldMark (some v) (Assoc.get? gs name) := by
  induction fs with
  | nil => simp [fieldMarks]
  | cons e rest ih =>
    obtain ⟨key, v⟩ := e
    rw [Assoc.keys, List.map_cons, List.nodup_cons] at hn
    rw [fieldMarks_cons, Assoc.get?]
    by_cases hkey : key = name
    · subst hkey
      have hrest : Assoc.get? rest key = none := by
        cases hget : Assoc.get? rest key with
        | none => rfl
        | some w => exact absurd (Assoc.mem_keys_iff.2 (by rw [hget]; rfl)) hn.1
      cases hm : fieldMark (some v) (Assoc.get? gs key) with
      | none => simp [ih hn.2, hrest, hm]
      | some m => simp [Assoc.get?, hm]
    · cases fieldMark (some v) (Assoc.get? gs key) with
      | none => simp [ih hn.2, hkey]
      | some m => simp [Assoc.get?, ih hn.2, hkey]

theorem get?_added (fs gs : List (String × Value)) (name : String) :
    Assoc.get? ((gs.filter fun g => !Assoc.contains fs g.1).map fun g => (g.1, Mark.whole)) name =
      if Assoc.contains fs name then none else (Assoc.get? gs name).map fun _ => Mark.whole := by
  induction gs with
  | nil => simp
  | cons g rest ih =>
    rw [List.filter_cons, Assoc.get?]
    by_cases hg : Assoc.contains fs g.1 = true
    · rw [if_neg (by simp [hg]), ih]
      by_cases hname : g.1 = name
      · subst hname
        rw [if_pos hg, if_pos hg]
      · rw [if_neg hname]
    · rw [if_pos (by simp [hg]), List.map_cons, Assoc.get?]
      by_cases hname : g.1 = name
      · subst hname
        simp [hg]
      · rw [if_neg hname, if_neg hname, ih]

theorem get?_partMarks {fs : List (String × Value)} (gs : List (String × Value))
    (hn : (Assoc.keys fs).Nodup) (name : String) :
    Assoc.get? (partMarks fs gs) name = fieldMark (Assoc.get? fs name) (Assoc.get? gs name) := by
  rw [partMarks, Assoc.get?_append, get?_fieldMarks gs hn, get?_added, Assoc.contains]
  cases Assoc.get? fs name <;> cases Assoc.get? gs name <;> simp [fieldMark]

theorem changeMark_records (i j : Identity) (p q : Parent) (fs gs : List (String × Value)) :
    changeMark (.record i p fs) (.record j q gs) =
      if i == j then none
      else if !(p.isPlain && q.isPlain) then some .whole
      else if partMarks fs gs = [] then none
      else some (.parts ((partMarks fs gs).filter fun m => m.1 ≠ parentName)) := by
  rw [changeMark]
  rfl

/-- Values of which not both are records are compared as wholes. -/
theorem changeMark_wholes {a b : Value}
    (h : ∀ i p fs j q gs, a = .record i p fs → b = .record j q gs → False) :
    changeMark a b = if deepEqual a b then none else some .whole := by
  rw [changeMark]
  intro i p fs j q gs ha hb
  exact h i p fs j q gs ha hb

theorem length_eq_of_keys {fs gs : List (String × Value)} (hf : (Assoc.keys fs).Nodup)
    (hg : (Assoc.keys gs).Nodup)
    (h : ∀ name, Assoc.get? fs name = none ↔ Assoc.get? gs name = none) : fs.length = gs.length := by
  have hperm : (Assoc.keys fs).Perm (Assoc.keys gs) := by
    rw [List.perm_ext_iff_of_nodup hf hg]
    intro name
    rw [Assoc.mem_keys_iff, Assoc.mem_keys_iff, Option.isSome_iff_ne_none, Option.isSome_iff_ne_none]
    exact not_congr (h name)
  simpa [Assoc.keys] using hperm.length_eq

/-- Values that no mark tells apart have equal content. -/
theorem Stock.deepEqual_of_changeMark (hP : Stock P) {a b : Value} (ha : P a) (hb : P b)
    (h : changeMark a b = none) : deepEqual a b = true := by
  induction hn : sizeOf a using Nat.strongRecOn generalizing a b with
  | ind n ih =>
    by_cases hrecords : ∃ i p fs j q gs, a = .record i p fs ∧ b = .record j q gs
    · obtain ⟨i, p, fs, j, q, gs, rfl, rfl⟩ := hrecords
      rw [changeMark_records] at h
      split_ifs at h with hi hplain hnone
      · simp [deepEqual, hi]
      · -- no field is marked, so both records hold the same names
        have hmark : ∀ name, fieldMark (Assoc.get? fs name) (Assoc.get? gs name) = none := by
          intro name
          rw [← get?_partMarks gs (hP.names ha), hnone, Assoc.get?_nil]
        have hplain : p.isPlain = true ∧ q.isPlain = true := by simpa using hplain
        refine Equal.deepEqual (.records hplain.1 hplain.2 ?_ ?_)
        · apply length_eq_of_keys (hP.names ha) (hP.names hb)
          intro name
          have hname := hmark name
          cases hf : Assoc.get? fs name <;> cases hg : Assoc.get? gs name <;>
            simp_all [fieldMark]
        · intro e he
          have hf := Assoc.get?_of_mem (hP.names ha) he
          have hname := hmark e.1
          rw [hf] at hname
          cases hg : Assoc.get? gs e.1 with
          | none => simp [hg, fieldMark] at hname
          | some w =>
            rw [hg] at hname
            exact ⟨w, rfl, ih _ (hn ▸ sizeOf_field he) (hP.field ha he)
              (hP.field hb (Assoc.mem_of_get? hg)) hname rfl⟩
    · rw [changeMark_wholes fun i p fs j q gs ha hb => hrecords ⟨i, p, fs, j, q, gs, ha, hb⟩] at h
      split_ifs at h with hequal
      exact hequal

/-- Parts are marked where two plain records differ. -/
theorem parts_of_changeMark {a b : Value} {ms : List (String × Mark)}
    (h : changeMark a b = some (.parts ms)) :
    ∃ i p fs j q gs, a = .record i p fs ∧ b = .record j q gs ∧ p.isPlain = true ∧
      q.isPlain = true ∧ ms = (partMarks fs gs).filter fun m => m.1 ≠ parentName := by
  by_cases hrecords : ∃ i p fs j q gs, a = .record i p fs ∧ b = .record j q gs
  · obtain ⟨i, p, fs, j, q, gs, rfl, rfl⟩ := hrecords
    rw [changeMark_records] at h
    split_ifs at h with _ hplain
    · simp at h
    · rw [Bool.not_eq_true, Bool.not_eq_false', Bool.and_eq_true] at hplain
      exact ⟨i, p, fs, j, q, gs, rfl, rfl, hplain.1, hplain.2,
        (Mark.parts.inj (Option.some.inj h)).symm⟩
  · rw [changeMark_wholes fun i p fs j q gs ha hb => hrecords ⟨i, p, fs, j, q, gs, ha, hb⟩] at h
    split_ifs at h
    simp at h

/-- Where a mark does not reach, the fields that it tells apart have equal content. -/
theorem Stock.same_of_not_reached (hP : Stock P) {x y : Option Value} (hx : ∀ v, x = some v → P v)
    (hy : ∀ v, y = some v → P v) {path : List String} (hpath : parentName ∉ path)
    (h : Mark.reaches (fieldMark x y) path = false) :
    SameContent (heldAt? x path) (heldAt? y path) := by
  induction path generalizing x y with
  | nil =>
    match x, y with
    | none, none => exact .none
    | some v, some w =>
      cases hmark : changeMark v w with
      | none => exact .some (hP.deepEqual_of_changeMark (hx v rfl) (hy w rfl) hmark)
      | some m => simp [fieldMark, hmark, Mark.reaches] at h
    | none, some _ | some _, none => simp [fieldMark, Mark.reaches] at h
  | cons name path ih =>
    match x, y with
    | none, none => exact .refl _
    | some v, some w =>
      cases hmark : changeMark v w with
      | none =>
        have hequal := hP.deepEqual_of_changeMark (hx v rfl) (hy w rfl) hmark
        exact hP.heldAt_same hx hy (.some hequal) _
      | some m =>
        cases m with
        | whole => simp [fieldMark, hmark, Mark.reaches] at h
        | parts ms =>
          obtain ⟨i, p, fs, j, q, gs, rfl, rfl, -, -, rfl⟩ := parts_of_changeMark hmark
          rw [List.mem_cons, not_or] at hpath
          rw [fieldMark, hmark, Mark.reaches, Assoc.get?_filter_ne (Ne.symm hpath.1),
            get?_partMarks gs (hP.names (hx _ rfl))] at h
          exact ih (fun v => hP.own (hx _ rfl)) (fun v => hP.own (hy _ rfl)) hpath.2 h
    | none, some _ | some _, none => simp [fieldMark, Mark.reaches] at h

end Value

namespace Mark

mutual

/-- A merged mark reaches what either mark reaches. -/
theorem not_reached_of_merge (a : Mark) : ∀ (b : Mark) {path : List String}, parentName ∉ path →
    reaches (some (merge a b)) path = false →
    reaches (some a) path = false ∧ reaches (some b) path = false
  | .whole, path, _, h => by
    rw [merge, reaches_whole] at h
    cases h
  | .parts more, path, hpath, h => by
    cases a with
    | whole =>
      rw [merge, reaches_whole] at h
      cases h
    | parts fields =>
      cases path with
      | nil => simp [reaches] at h
      | cons name path =>
        rw [List.mem_cons, not_or] at hpath
        rw [merge, reaches] at h
        obtain ⟨hfields, hmore⟩ := not_reached_of_mergeFields more hpath.1 hpath.2 h
        refine ⟨hfields, ?_⟩
        rw [reaches]
        cases hget : Assoc.get? more name with
        | none => rw [reaches]
        | some m => exact hmore m (Assoc.mem_of_get? hget)
termination_by b => sizeOf b

theorem not_reached_of_mergeFields : ∀ (more : List (String × Mark)) {fields : List (String × Mark)}
    {name : String} {path : List String}, parentName ≠ name → parentName ∉ path →
    reaches (Assoc.get? (mergeFields fields more) name) path = false →
    reaches (Assoc.get? fields name) path = false ∧
      ∀ m, (name, m) ∈ more → reaches (some m) path = false
  | [], fields, name, path, _, _, h => by
    rw [mergeFields] at h
    exact ⟨h, by simp⟩
  | (key, mark) :: rest, fields, name, path, hname, hpath, h => by
    rw [mergeFields] at h
    -- the entry under the name, and those behind it
    have hall : (key = name → reaches (some mark) path = false) →
        (∀ m, (name, m) ∈ rest → reaches (some m) path = false) →
        ∀ m, (name, m) ∈ (key, mark) :: rest → reaches (some m) path = false := by
      intro hfirst hrest m hm
      rcases List.mem_cons.1 hm with he | hm
      · obtain ⟨rfl, rfl⟩ := Prod.mk.inj he
        exact hfirst rfl
      · exact hrest m hm
    split at h
    · rename_i old hold
      obtain ⟨hfields, hrest⟩ := not_reached_of_mergeFields rest hname hpath h
      rw [Record.get?_insert] at hfields
      split_ifs at hfields with hkey
      · obtain ⟨hbefore, hmark⟩ := not_reached_of_merge old mark hpath hfields
        rw [← hkey, hold]
        exact ⟨hbefore, hkey ▸ hall (fun _ => hmark) hrest⟩
      · exact ⟨hfields, hall (fun h => absurd h hkey) hrest⟩
    · rename_i hnone
      split_ifs at h with hparent
      · obtain ⟨hfields, hrest⟩ := not_reached_of_mergeFields rest hname hpath h
        exact ⟨hfields, hall (fun h => absurd (hparent.symm.trans h) hname) hrest⟩
      · obtain ⟨hfields, hrest⟩ := not_reached_of_mergeFields rest hname hpath h
        rw [Record.get?_insert] at hfields
        split_ifs at hfields with hkey
        · rw [← hkey, hnone, reaches]
          exact ⟨rfl, hkey ▸ hall (fun _ => hfields) hrest⟩
        · exact ⟨hfields, hall (fun h => absurd h hkey) hrest⟩
termination_by more => sizeOf more

end

end Mark

end LiveTemplate
