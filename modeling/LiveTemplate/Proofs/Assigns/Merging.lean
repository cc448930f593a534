import LiveTemplate.Proofs.Assigns.Writing
import Mathlib.Data.List.Nodup

/-!
Merged changed-sets are unions: a read meets a change in the merged set exactly if it meets one in
either set. So no read can tell in which order sets were merged, or how often. The set that is merged
into the other marks no name of a parent, under which nothing is kept.
-/

namespace LiveTemplate

set_option autoImplicit false

namespace Mark

/-- Marks whose fields are named once each, and of which none stands for a parent. -/
inductive Ordinary : Mark → Prop
  | whole : Ordinary whole
  | parts {fields : List (String × Mark)} (names : (Assoc.keys fields).Nodup)
      (parentless : parentName ∉ Assoc.keys fields) (each : ∀ e ∈ fields, Ordinary e.2) :
      Ordinary (parts fields)

section Fields
variable {more : List (String × Mark)} (hnames : (Assoc.keys more).Nodup)
  (hparent : parentName ∉ Assoc.keys more)
include hnames hparent

/-- Under each name stands what either set holds, merged if both hold it. -/
theorem get?_mergeFields (fields : List (String × Mark)) (name : String) :
    Assoc.get? (mergeFields fields more) name =
      Option.merge merge (Assoc.get? fields name) (Assoc.get? more name) := by
  induction more generalizing fields with
  | nil => rw [mergeFields, Assoc.get?_nil, Option.merge_none_right]
  | cons e rest ih =>
    obtain ⟨key, mark⟩ := e
    rw [Assoc.keys, List.map_cons, List.nodup_cons] at hnames
    rw [Assoc.keys, List.map_cons, List.mem_cons, not_or] at hparent
    have hrest : Assoc.get? rest key = none := by
      rw [← Option.not_isSome_iff_eq_none, ← Assoc.mem_keys_iff]
      exact hnames.1
    have hput : ∀ m, Option.merge merge (Assoc.get? fields key) (some mark) = some m →
        Assoc.get? (mergeFields (Record.insert fields key m) rest) name =
          Option.merge merge (Assoc.get? fields name) (Assoc.get? ((key, mark) :: rest) name) := by
      intro m hm
      rw [ih hnames.2 hparent.2, Record.get?_insert, Assoc.get?]
      by_cases hkey : key = name
      · subst hkey
        rw [if_pos rfl, if_pos rfl, hrest, hm, Option.merge_none_right]
      · rw [if_neg hkey, if_neg hkey]
    rw [mergeFields]
    cases hold : Assoc.get? fields key with
    | none =>
      rw [hold] at hput
      dsimp only
      rw [if_neg (Ne.symm hparent.1)]
      exact hput mark rfl
    | some old =>
      rw [hold] at hput
      exact hput (merge old mark) rfl

end Fields

theorem nodup_mergeFields {fields : List (String × Mark)} (h : (Assoc.keys fields).Nodup)
    (more : List (String × Mark)) : (Assoc.keys (mergeFields fields more)).Nodup := by
  induction more generalizing fields with
  | nil =>
    rw [mergeFields]
    exact h
  | cons e rest ih =>
    obtain ⟨key, mark⟩ := e
    rw [mergeFields]
    cases Assoc.get? fields key with
    | some old => exact ih (Record.nodup_insert h key _)
    | none =>
      dsimp only
      split
      · exact ih h
      · exact ih (Record.nodup_insert h key mark)

/-- A read meets a merged mark exactly if it meets one of the two. -/
theorem reaches_merge (a : Mark) {b : Mark} (hb : b.Ordinary) (path : List String) :
    reaches (some (merge a b)) path = (reaches (some a) path || reaches (some b) path) := by
  induction hb generalizing a path with
  | whole => rw [merge, reaches_whole, Bool.or_true]
  | @parts more hnames hparent _ ih =>
    cases a with
    | whole => rw [merge, reaches_whole, Bool.true_or]
    | parts fields =>
      rw [merge]
      cases path with
      | nil => rfl
      | cons name path =>
        rw [reaches, reaches, reaches, get?_mergeFields hnames hparent]
        cases hmore : Assoc.get? more name with
        | none => rw [Option.merge_none_right, reaches, Bool.or_false]
        | some mark =>
          cases Assoc.get? fields name with
          | none => rw [Option.merge_none_left, reaches, Bool.false_or]
          | some old => exact ih _ (Assoc.mem_of_get? hmore) old path

/-- Merging keeps marks ordinary. -/
theorem Ordinary.merge {a b : Mark} (ha : a.Ordinary) (hb : b.Ordinary) :
    (merge a b).Ordinary := by
  induction hb generalizing a with
  | whole =>
    rw [Mark.merge]
    exact .whole
  | @parts more hnames hparent heach ih =>
    cases ha with
    | whole =>
      rw [Mark.merge]
      exact .whole
    | @parts fields hfields hplain hold =>
      rw [Mark.merge]
      have hget := get?_mergeFields hnames hparent fields
      refine .parts (nodup_mergeFields hfields more) ?_ fun e he => ?_
      · rw [Assoc.mem_keys_iff, Option.not_isSome_iff_eq_none] at hplain hparent ⊢
        rw [hget, hplain, hparent]
        rfl
      · have hmark := Assoc.get?_of_mem (nodup_mergeFields hfields more) he
        rw [hget] at hmark
        cases hf : Assoc.get? fields e.1 with
        | none =>
          rw [hf, Option.merge_none_left] at hmark
          exact heach _ (Assoc.mem_of_get? hmark)
        | some old =>
          have hordinary := hold _ (Assoc.mem_of_get? hf)
          cases hm : Assoc.get? more e.1 with
          | none =>
            rw [hf, hm, Option.merge_none_right, Option.some.injEq] at hmark
            exact hmark ▸ hordinary
          | some mark =>
            rw [hf, hm] at hmark
            exact Option.some.inj hmark ▸ ih _ (Assoc.mem_of_get? hm) hordinary

end Mark

namespace ChangedSet

/-- A changed-set with ordinary marks. -/
def Ordinary (changed : ChangedSet) : Prop := (Mark.parts changed).Ordinary

/-- Changed-sets that no read can tell apart. -/
def ReadAlike (a b : ChangedSet) : Prop :=
  ∀ key path, reaches (some a) key path = reaches (some b) key path

theorem reaches_merge (a : ChangedSet) {b : ChangedSet} (hb : b.Ordinary) (key : String)
    (path : List String) :
    reaches (some (a.merge b)) key path = (reaches (some a) key path || reaches (some b) key path) := by
  have hmark := Mark.reaches_merge (.parts a) hb (key :: path)
  rw [Mark.merge] at hmark
  exact hmark

theorem Ordinary.merge {a b : ChangedSet} (ha : a.Ordinary) (hb : b.Ordinary) :
    (a.merge b).Ordinary := by
  have hmark := Mark.Ordinary.merge ha hb
  rw [Mark.merge] at hmark
  exact hmark

/-- Merging is union. To any read it is commutative, associative and idempotent. -/
theorem merge_union (a : ChangedSet) {b : ChangedSet} (hb : b.Ordinary) :
    (∀ key path, reaches (some (a.merge b)) key path = true ↔
      reaches (some a) key path = true ∨ reaches (some b) key path = true) ∧
    (a.Ordinary → ReadAlike (a.merge b) (b.merge a)) ∧
    (∀ c : ChangedSet, c.Ordinary → ReadAlike ((a.merge b).merge c) (a.merge (b.merge c))) ∧
    ReadAlike (b.merge b) b := by
  refine ⟨fun key path => ?_, fun ha key path => ?_, fun c hc key path => ?_, fun key path => ?_⟩
  · rw [reaches_merge a hb, Bool.or_eq_true]
  · rw [reaches_merge a hb, reaches_merge b ha, Bool.or_comm]
  · rw [reaches_merge _ hc, reaches_merge a hb, reaches_merge a (hb.merge hc), reaches_merge b hc,
      Bool.or_assoc]
  · rw [reaches_merge b hb, Bool.or_self]

/-- Fields of a user, merged with other fields and with the whole. -/
theorem merge_union_user :
    let a : ChangedSet := [("user", .parts [("email", .whole)])]
    let b : ChangedSet := [("user", .parts [("name", .parts [("first", .whole)])]), ("title", .whole)]
    let c : ChangedSet := [("user", .whole)]
    b.Ordinary ∧ a.Ordinary ∧ c.Ordinary ∧
      (∀ key path, reaches (some (a.merge b)) key path = true ↔
        reaches (some a) key path = true ∨ reaches (some b) key path = true) ∧
      ReadAlike (a.merge b) (b.merge a) ∧
      ReadAlike ((a.merge b).merge c) (a.merge (b.merge c)) ∧ ReadAlike (b.merge b) b := by
  intro a b c
  have hsingle : ∀ {name : String} {mark : Mark}, name ≠ parentName → mark.Ordinary →
      (Mark.parts [(name, mark)]).Ordinary := fun hname hmark =>
    .parts (List.nodup_singleton _) (fun h => hname (List.mem_singleton.mp h).symm) fun e he =>
      List.mem_singleton.mp he ▸ hmark
  have ha : a.Ordinary := hsingle (by decide) (hsingle (by decide) .whole)
  have hname : (Mark.parts [("name", .parts [("first", .whole)])]).Ordinary :=
    hsingle (by decide) (hsingle (by decide) .whole)
  have hb : b.Ordinary := by
    refine .parts (by decide) (by decide) fun e he => ?_
    rcases List.mem_pair.mp he with rfl | rfl
    · exact hname
    · exact .whole
  have hc : c.Ordinary := hsingle (by decide) .whole
  obtain ⟨hunion, hcomm, hassoc, hself⟩ := merge_union a hb
  exact ⟨hb, ha, hc, hunion, hcomm ha, hassoc c hc, hself⟩

/-- A mark under the name of a parent is dropped. -/
example : merge [] [(parentName, .whole)] = [] := rfl

end ChangedSet

end LiveTemplate
