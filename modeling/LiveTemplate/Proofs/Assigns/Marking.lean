import LiveTemplate.Proofs.Assigns.Merging
import LiveTemplate.Proofs.Assigns.Restating
import LiveTemplate.Proofs.Eval.Unaffected

/-!
Marks of changes tell bindings apart for all that reads them, not by their content alone, in a program
that shares its values: what did not change is the very same value. The marks of changes in turn,
merged, tell the first bindings from the last.
-/

namespace LiveTemplate

set_option autoImplicit false

namespace Value

/-- Values of a program that shares them: values of equal content are one value. The program holds the
parts of what it holds; its plain records inherit what all values have in common, and their fields can
be read. -/
structure Shared (P : Value → Prop) : Prop where
  item : ∀ {i items v}, P (.list i items) → v ∈ items → P v
  field : ∀ {i parent fields name v}, P (.record i parent fields) → (name, v) ∈ fields → P v
  names : ∀ {i parent fields}, P (.record i parent fields) → (Assoc.keys fields).Nodup
  readable : ∀ {i parent fields}, P (.record i parent fields) →
    ∀ name ∈ blockedFields, name ∉ Assoc.keys fields
  plain : ∀ {i parent fields}, P (.record i parent fields) → parent.isPlain = true → parent = .plain
  once : ∀ {v w i}, P v → P w → v.identity? = some i → w.identity? = some i → v = w
  one : ∀ {v w}, P v → P w → deepEqual v w = true → v = w

theorem filter_partMarks {fs gs : List (String × Value)}
    (h : parentName ∉ Assoc.keys (partMarks fs gs)) :
    (partMarks fs gs).filter (fun m => m.1 ≠ parentName) = partMarks fs gs := by
  rw [List.filter_eq_self]
  intro m hm
  exact decide_eq_true fun hname => h (hname ▸ List.mem_map_of_mem hm)

variable {P : Value → Prop} (hP : Shared P) {a b : Value}
include hP

theorem Shared.stock : Stock fun v => v.identity? = none ∨ P v where
  scalar := .inl
  item h hv := .inr (hP.item (h.resolve_left nofun) hv)
  field h hv := .inr (hP.field (h.resolve_left nofun) hv)
  names h := hP.names (h.resolve_left nofun)
  once hv hw hi hj :=
    hP.once (hv.resolve_left fun h => nomatch h.symm.trans hi)
      (hw.resolve_left fun h => nomatch h.symm.trans hj) hi hj

/-- Values that no mark tells apart are one value. -/
theorem Shared.eq_of_changeMark (ha : P a) (hb : P b) (h : changeMark a b = none) : a = b :=
  hP.one ha hb (hP.stock.deepEqual_of_changeMark (.inr ha) (.inr hb) h)

theorem Shared.own {i : Identity} {p : Parent} {fs : List (String × Value)} {name : String} {v : Value}
    (h : P (.record i p fs)) (hv : Assoc.get? fs name = some v) : P v :=
  hP.field h (Assoc.mem_of_get? hv)

/-- Fields that cannot be read are not marked. -/
theorem Shared.not_mem_partMarks {i j : Identity} {p q : Parent} {fs gs : List (String × Value)}
    (ha : P (.record i p fs)) (hb : P (.record j q gs)) {name : String} (hname : name ∈ blockedFields) :
    name ∉ Assoc.keys (partMarks fs gs) := by
  rw [Assoc.mem_keys_iff, get?_partMarks gs (hP.names ha),
    Assoc.get?_eq_none_of_not_mem (hP.readable ha name hname),
    Assoc.get?_eq_none_of_not_mem (hP.readable hb name hname)]
  exact Bool.false_ne_true

/-- A mark tells apart the two values that it was made of. -/
theorem Shared.marked (ha : P a) (hb : P b) : Marked (changeMark a b) (some a) (some b) := by
  induction hn : sizeOf a using Nat.strongRecOn generalizing a b with
  | ind n ih =>
    cases hmark : changeMark a b with
    | none =>
      rw [hP.eq_of_changeMark ha hb hmark]
      exact .refl _
    | some m =>
      cases m with
      | whole => exact .whole _ _
      | parts ms =>
        obtain ⟨i, p, fs, j, q, gs, rfl, rfl, hp, hq, rfl⟩ := parts_of_changeMark hmark
        obtain rfl := hP.plain ha hp
        obtain rfl := hP.plain hb hq
        have hparent := hP.not_mem_partMarks ha hb List.mem_cons_self
        rw [filter_partMarks hparent]
        refine .parts rfl rfl (fun name hname => ?_) fun name hname =>
          Assoc.get?_eq_none_of_not_mem (hP.not_mem_partMarks ha hb hname)
        · rw [get?_partMarks gs (hP.names ha), member?_record i _ fs hname,
            member?_record j _ gs hname]
          cases hf : Assoc.get? fs name with
          | none =>
            cases hg : Assoc.get? gs name with
            | none => exact .refl _
            | some w => exact .whole _ _
          | some v =>
            cases hg : Assoc.get? gs name with
            | none => exact .whole _ _
            | some w =>
              exact ih _ (hn ▸ sizeOf_field (Assoc.mem_of_get? hf)) (hP.own ha hf) (hP.own hb hg) rfl

omit hP in
theorem keys_fieldMarks_sublist (fs gs : List (String × Value)) :
    (Assoc.keys (fieldMarks fs gs)).Sublist (Assoc.keys fs) := by
  induction fs with
  | nil => exact .refl _
  | cons f rest ih =>
    rw [fieldMarks_cons]
    cases fieldMark (some f.2) (Assoc.get? gs f.1) with
    | none => exact ih.cons _
    | some m => exact ih.cons_cons _

omit hP in
theorem nodup_partMarks {fs gs : List (String × Value)} (hf : (Assoc.keys fs).Nodup)
    (hg : (Assoc.keys gs).Nodup) : (Assoc.keys (partMarks fs gs)).Nodup := by
  have hkeys : Assoc.keys (partMarks fs gs) = Assoc.keys (fieldMarks fs gs) ++
      Assoc.keys (gs.filter fun g => !Assoc.contains fs g.1) := by
    rw [Assoc.keys, partMarks, List.map_append, List.map_map]
    rfl
  rw [hkeys, List.nodup_append]
  refine ⟨hf.sublist (keys_fieldMarks_sublist fs gs), hg.sublist (List.filter_sublist.map _), ?_⟩
  rintro name hname _ hadded rfl
  obtain ⟨g, hin, rfl⟩ := List.mem_map.mp hadded
  have hheld := Assoc.mem_keys_iff.mp ((keys_fieldMarks_sublist fs gs).subset hname)
  have hnew := (List.mem_filter.mp hin).2
  rw [Assoc.contains, hheld] at hnew
  cases hnew

/-- Marks of what a program holds name each field once. -/
theorem Shared.ordinary (ha : P a) (hb : P b) {m : Mark} (h : changeMark a b = some m) :
    m.Ordinary := by
  induction hn : sizeOf a using Nat.strongRecOn generalizing a b m with
  | ind n ih =>
    cases m with
    | whole => exact .whole
    | parts ms =>
      obtain ⟨i, p, fs, j, q, gs, rfl, rfl, -, -, rfl⟩ := parts_of_changeMark h
      have hparent := hP.not_mem_partMarks ha hb List.mem_cons_self
      have hnames := nodup_partMarks (hP.names ha) (hP.names hb)
      rw [filter_partMarks hparent]
      refine .parts hnames hparent fun e he => ?_
      have hmark := Assoc.get?_of_mem hnames he
      rw [get?_partMarks gs (hP.names ha)] at hmark
      cases hf : Assoc.get? fs e.1 with
      | none =>
        cases hg : Assoc.get? gs e.1 with
        | none =>
          rw [hf, hg] at hmark
          cases hmark
        | some w =>
          rw [hf, hg] at hmark
          exact Option.some.inj hmark ▸ .whole
      | some v =>
        cases hg : Assoc.get? gs e.1 with
        | none =>
          rw [hf, hg] at hmark
          exact Option.some.inj hmark ▸ .whole
        | some w =>
          rw [hf, hg] at hmark
          exact ih _ (hn ▸ sizeOf_field (Assoc.mem_of_get? hf)) (hP.own ha hf) (hP.own hb hg) hmark rfl

end Value

/-! ### Marks in turn -/

namespace Mark

/-- A mark leaves what is at the end of a path as it is, or it leads to marks of parts there. -/
def PassesAt (m : Option Mark) (path : List String) : Prop :=
  reaches m path = false ∨ partsAt m path = true

/-- Where merged marks lead to marks of parts, each of them passes and one leads there. -/
theorem passesAt_of_merge (a : Mark) {b : Mark} (hb : b.Ordinary) {path : List String}
    (h : partsAt (some (merge a b)) path = true) : PassesAt (some a) path ∧ PassesAt (some b) path ∧
      (partsAt (some a) path = true ∨ partsAt (some b) path = true) := by
  induction hb generalizing a path with
  | whole =>
    rw [merge, partsAt_whole] at h
    cases h
  | @parts more hnames hparent _ ih =>
    cases a with
    | whole =>
      rw [merge, partsAt_whole] at h
      cases h
    | parts fields =>
      cases path with
      | nil => exact ⟨.inr rfl, .inr rfl, .inl rfl⟩
      | cons name path =>
        rw [merge, partsAt, get?_mergeFields hnames hparent] at h
        simp only [PassesAt, reaches, partsAt]
        cases hmore : Assoc.get? more name with
        | none =>
          rw [hmore, Option.merge_none_right] at h
          exact ⟨.inr h, .inl (by rw [reaches]), .inl h⟩
        | some mark =>
          cases hold : Assoc.get? fields name with
          | none =>
            rw [hmore, hold, Option.merge_none_left] at h
            exact ⟨.inl (by rw [reaches]), .inr h, .inr h⟩
          | some old =>
            rw [hmore, hold] at h
            exact ih _ (Assoc.mem_of_get? hmore) old h

end Mark

namespace Value

variable {m₁ m₂ : Option Mark} {a b c : Option Value}

theorem Marked.presentAt_of_passes (h : Marked m₁ a b) {path : List String}
    (hpasses : Mark.PassesAt m₁ path) : PresentAt a path ↔ PresentAt b path := by
  rcases hpasses with hmiss | hparts
  · rw [PresentAt, PresentAt, h.same path hmiss]
  · exact iff_of_true (h.shaped path hparts).1 (h.shaped path hparts).2

/-- Marks of two changes, merged, tell what was there before them from what is there after them. -/
theorem Marked.merge (hm : ∀ m ∈ m₂, m.Ordinary) (hab : Marked m₁ a b) (hbc : Marked m₂ b c) :
    Marked (Option.merge Mark.merge m₁ m₂) a c := by
  cases m₂ with
  | none =>
    have hsame : b = c := by
      have hread := hbc.same [] (by rw [Mark.reaches])
      rwa [readAt_nil, readAt_nil] at hread
    rw [Option.merge_none_right, ← hsame]
    exact hab
  | some n =>
    cases m₁ with
    | none =>
      have hsame : a = b := by
        have hread := hab.same [] (by rw [Mark.reaches])
        rwa [readAt_nil, readAt_nil] at hread
      rw [Option.merge_none_left, hsame]
      exact hbc
    | some m =>
      change Marked (some (m.merge n)) a c
      refine ⟨fun path hpath => ?_, fun path hpath => ?_⟩
      · rw [Mark.reaches_merge m (hm n rfl), Bool.or_eq_false_iff] at hpath
        exact (hab.same path hpath.1).trans (hbc.same path hpath.2)
      · obtain ⟨hfirst, hlast, hparts | hparts⟩ := Mark.passesAt_of_merge m (hm n rfl) hpath
        · have hpresent := hab.shaped path hparts
          exact ⟨hpresent.1, (hbc.presentAt_of_passes hlast).mp hpresent.2⟩
        · have hpresent := hbc.shaped path hparts
          exact ⟨(hab.presentAt_of_passes hfirst).mpr hpresent.1, hpresent.2⟩

/-- A mark tells nothing apart from itself either. -/
theorem Marked.left (h : Marked m₁ a b) : Marked m₁ a a :=
  ⟨fun _ _ => rfl, fun path hpath => ⟨(h.shaped path hpath).1, (h.shaped path hpath).1⟩⟩

end Value

/-! ### Bindings in turn -/

theorem ChangedSet.get?_add (changed : ChangedSet) {name : String} (hname : name ≠ parentName)
    (mark : Mark) (key : String) : Assoc.get? (changed.add name mark) key =
      if name = key then Option.merge Mark.merge (Assoc.get? changed key) (some mark)
      else Assoc.get? changed key := by
  have hnames : (Assoc.keys [(name, mark)]).Nodup := List.nodup_singleton name
  have hparent : parentName ∉ Assoc.keys [(name, mark)] := fun h => hname (List.mem_singleton.mp h).symm
  rw [add, Mark.get?_mergeFields hnames hparent, Assoc.get?, Assoc.get?_nil]
  split
  · rfl
  · rw [Option.merge_none_right]

namespace Assigns

open Value (Marked Shared)

/-- Changes of later bindings, next to those of earlier ones: whatever the earlier changes tell what
was held before from what is held, the later ones tell it from what is held later. -/
structure Tells (a b : Assigns) : Prop where
  marked : ∀ key since, Marked (Assoc.get? a.changes key) since (Assoc.get? a.values key) →
      Marked (Assoc.get? b.changes key) since (Assoc.get? b.values key)
  quiet : b.changes = [] → a.changes = [] ∧ b.values = a.values

variable {P : Value → Prop} {a b c : Assigns}

theorem Tells.refl (a : Assigns) : a.Tells a := ⟨fun _ _ h => h, fun h => ⟨h, rfl⟩⟩

theorem Tells.trans (hab : a.Tells b) (hbc : b.Tells c) : a.Tells c where
  marked key since h := hbc.marked key since (hab.marked key since h)
  quiet h :=
    ⟨(hab.quiet (hbc.quiet h).1).1, (hbc.quiet h).2.trans (hab.quiet (hbc.quiet h).1).2⟩

/-- Bindings to values of a program, which inherit what all values have in common. -/
structure Plain (P : Value → Prop) (a : Assigns) : Prop where
  within : a.Within P
  parent : a.bindings.parent = .plain

/-- A call that binds values of a program, none of them under the name of a parent. -/
def Call.Binds (P : Value → Prop) (a : Assigns) : Call → Prop
  | assign entries => ∀ e ∈ entries, e.1 ≠ parentName ∧ P e.2
  | assignNew key f => key ≠ parentName ∧ ∀ v n m, ((f a.record).run.run n) = (.ok v, m) → P v
  | update key f => key ≠ parentName ∧
      ∀ v n m, ((do f (← a.get key) a.record : Eval Value).run.run n) = (.ok v, m) → P v

/-- What it comes to that entries were compared with the held bindings: nothing is bound yet, and the
changes tell what was held from what is taken over. -/
structure Compared (P : Value → Prop) (held : Record Value) (next : Bindings) (a b : Assigns)
    (r : Except AssignError Bindings) : Prop where
  bindings : b.bindings = a.bindings
  widened : ∀ key since, Marked (Assoc.get? a.changes key) since (Assoc.get? held key) →
    Marked (Assoc.get? b.changes key) since (Assoc.get? held key)
  taken : ∀ made, r = .ok made → ∀ key,
    (Assoc.get? made.fields key = Assoc.get? next.fields key ∧
      Assoc.get? b.changes key = Assoc.get? a.changes key) ∨
    ∀ since, Marked (Assoc.get? a.changes key) since (Assoc.get? held key) →
      Marked (Assoc.get? b.changes key) since (Assoc.get? made.fields key)
  quiet : b.changes = [] → a.changes = [] ∧ ∀ made, r = .ok made → made = next
  made : ∀ made, r = .ok made → made.parent = next.parent ∧ ∀ key v,
    Assoc.get? made.fields key = some v → Assoc.get? next.fields key = some v ∨ P v

theorem Compared.still {held : Record Value} {next : Bindings} (e : AssignError) :
    Compared P held next a a (.error e) :=
  ⟨rfl, fun _ _ h => h, nofun, fun h => ⟨h, nofun⟩, nofun⟩

section Shared
variable (hP : Shared P)
include hP

/-- One entry that differs, and what is noted after it. -/
theorem Compared.entry {held : Record Value} (hheld : ∀ key v, Assoc.get? held key = some v → P v)
    {next : Bindings} {r : Except AssignError Bindings} {name : String} {value : Value} {mark : Mark}
    (hname : name ≠ parentName) (hvalue : P value) (hmark : markOf held name value = some mark)
    (h : Compared P held (next.assign name value) { a with changes := a.changes.add name mark } b r) :
    Compared P held next a b r := by
  rw [markOf_eq] at hmark
  have hmarked : mark.Ordinary ∧ Marked (some mark) (Assoc.get? held name) (some value) := by
    rw [← hmark]
    cases hbefore : Assoc.get? held name with
    | none =>
      rw [hbefore] at hmark
      exact ⟨Option.some.inj hmark ▸ .whole, .whole _ _⟩
    | some v =>
      rw [hbefore] at hmark
      exact ⟨hP.ordinary (hheld name v hbefore) hvalue hmark, hP.marked (hheld name v hbefore) hvalue⟩
  have hadd := ChangedSet.get?_add a.changes hname mark
  have hnoted : ∀ {u w : Option Value}, Marked (Assoc.get? a.changes name) u (Assoc.get? held name) →
      Marked (some mark) (Assoc.get? held name) w →
        Marked (Assoc.get? (a.changes.add name mark) name) u w := by
    intro u w hbefore hafter
    rw [hadd, if_pos rfl]
    exact hbefore.merge (fun m hm => Option.some.inj hm ▸ hmarked.1) hafter
  have hwidened : ∀ key since, Marked (Assoc.get? a.changes key) since (Assoc.get? held key) →
      Marked (Assoc.get? (a.changes.add name mark) key) since (Assoc.get? held key) := by
    intro key since hbefore
    by_cases hkey : name = key
    · subst hkey
      exact hnoted hbefore hmarked.2.left
    · rw [hadd, if_neg hkey]
      exact hbefore
  have hassign := Bindings.assign_of_ne hname next value
  refine ⟨h.bindings, fun key since hbefore => ?_, fun made hr key => ?_, fun hquiet => ?_,
    fun made hr => ?_⟩
  · exact h.widened key since (hwidened key since hbefore)
  · rcases h.taken made hr key with ⟨hsame, hchanges⟩ | hnew
    · rw [hassign, Record.get?_insert] at hsame
      dsimp only at hchanges
      by_cases hother : name = key
      · subst hother
        rw [if_pos rfl] at hsame
        refine .inr fun since hbefore => ?_
        rw [hchanges, hsame]
        exact hnoted hbefore hmarked.2
      · rw [if_neg hother] at hsame
        rw [hadd, if_neg hother] at hchanges
        exact .inl ⟨hsame, hchanges⟩
    · exact .inr fun since hbefore => hnew since (hwidened key since hbefore)
  · have hnone := hadd name
    have hempty : a.changes.add name mark = [] := (h.quiet hquiet).1
    rw [if_pos rfl, hempty, Assoc.get?_nil] at hnone
    exact absurd hnone.symm (by cases Assoc.get? a.changes name <;> exact Option.some_ne_none _)
  · obtain ⟨hparent, hfields⟩ := h.made made hr
    rw [hassign] at hparent hfields
    refine ⟨hparent, fun key v hv => ?_⟩
    rcases hfields key v hv with hbefore | hnew
    · rw [Record.get?_insert] at hbefore
      split_ifs at hbefore
      · exact .inr (Option.some.inj hbefore ▸ hvalue)
      · exact .inl hbefore
    · exact .inr hnew

theorem note_compared {held : Record Value} (hheld : ∀ key v, Assoc.get? held key = some v → P v)
    {entries : List (String × Value)} (hentries : ∀ e ∈ entries, e.1 ≠ parentName ∧ P e.2)
    {next : Bindings} {r : Except AssignError Bindings} (h : (note held entries next).Leaves a r b) :
    Compared P held next a b r := by
  induction entries generalizing next a with
  | nil =>
    obtain ⟨rfl, rfl⟩ := Assigning.leaves_pure h
    refine ⟨rfl, fun _ _ h => h, ?_, fun hquiet => ⟨hquiet, ?_⟩, ?_⟩
    · rintro made ⟨⟩ key
      exact .inl ⟨rfl, rfl⟩
    · rintro made ⟨⟩
      rfl
    · rintro made ⟨⟩
      exact ⟨rfl, fun _ _ => .inl⟩
  | cons e rest ih =>
    obtain ⟨name, value⟩ := e
    rw [List.forall_mem_cons] at hentries
    rw [note] at h
    split at h
    · obtain ⟨_, hthrow, rfl⟩ | ⟨_, _, hthrow, _⟩ := Assigning.leaves_bind h
      · obtain ⟨-, rfl⟩ := Assigning.leaves_throw hthrow
        exact .still _
      · cases (Assigning.leaves_throw hthrow).1
    · dsimp only at h
      split at h
      · exact ih hentries.2 h
      · rename_i mark hmark
        obtain ⟨_, hmodify, -⟩ | ⟨_, c, hmodify, h⟩ := Assigning.leaves_bind h
        · cases (Assigning.leaves_modify hmodify).1
        obtain ⟨-, rfl⟩ := Assigning.leaves_modify hmodify
        exact .entry hP hheld hentries.1.1 hentries.1.2 hmark (ih hentries.2 h)

theorem assignAll_tells (ha : a.Plain P) {entries : List (String × Value)}
    (hentries : ∀ e ∈ entries, e.1 ≠ parentName ∧ P e.2) {r : Except AssignError Unit}
    (h : (assignAll entries).Leaves a r b) : a.Tells b ∧ b.Plain P := by
  rw [assignAll] at h
  replace h := Assigning.leaves_get_bind h
  dsimp only at h
  have hnoted : ∀ {r : Except AssignError Bindings} {c : Assigns},
      (note a.values entries { fields := a.values }).Leaves a r c → a.Tells c ∧ c.Plain P := by
    intro r c hnote
    have hcompared := note_compared hP ha.within hentries hnote
    have hvalues : c.values = a.values := by rw [values, values, hcompared.bindings]
    refine ⟨⟨fun key since => ?_, fun hquiet => ⟨(hcompared.quiet hquiet).1, hvalues⟩⟩, ?_, ?_⟩
    · rw [hvalues]
      exact hcompared.widened key since
    · rw [Within, hvalues]
      exact ha.within
    · rw [hcompared.bindings]
      exact ha.parent
  obtain ⟨_, hnote, -⟩ | ⟨made, c, hnote, hset⟩ := Assigning.leaves_bind h
  · exact hnoted hnote
  have hcompared := note_compared hP ha.within hentries hnote
  split at hset
  · obtain ⟨_, hfresh, -⟩ | ⟨id, _, hfresh, hbind⟩ := Assigning.leaves_bind hset
    · obtain ⟨i, hi⟩ := (Assigning.leaves_fresh hfresh).1
      cases hi
    rw [(Assigning.leaves_fresh hfresh).2] at hbind
    obtain ⟨-, rfl⟩ := Assigning.leaves_modify hbind
    obtain ⟨hparent, hfields⟩ := hcompared.made made rfl
    refine ⟨⟨fun key since hbefore => ?_, fun hquiet => ?_⟩, fun key v hv => ?_, hparent⟩
    · change Marked (Assoc.get? c.changes key) since (Assoc.get? made.fields key)
      rcases hcompared.taken made rfl key with ⟨hsame, hchanges⟩ | hnew
      · rw [hsame, hchanges]
        exact hbefore
      · exact hnew since hbefore
    · obtain ⟨hchanges, hmade⟩ := hcompared.quiet hquiet
      refine ⟨hchanges, ?_⟩
      change made.fields = a.values
      rw [hmade made rfl]
    · rcases hfields key v hv with hbefore | hnew
      · exact ha.within key v hbefore
      · exact hnew
  · obtain ⟨-, rfl⟩ := Assigning.leaves_pure hset
    exact hnoted hnote

theorem assign_computed_tells (ha : a.Plain P) {key : String} (hkey : key ≠ parentName)
    {x : Eval Value} (hx : ∀ v n m, x.run.run n = (.ok v, m) → P v) {r : Except AssignError Unit}
    (h : (compute x >>= assign key : Assigning Unit).Leaves a r b) : a.Tells b ∧ b.Plain P := by
  obtain ⟨_, hcompute, -⟩ | ⟨v, _, hcompute, hassign⟩ := Assigning.leaves_bind h
  · rw [Assigning.leaves_compute hcompute]
    exact ⟨.refl a, ha⟩
  · rw [Assigning.leaves_compute hcompute] at hassign
    obtain ⟨n, m, hrun⟩ := Assigning.leaves_compute_ok hcompute
    exact assignAll_tells hP ha (List.forall_mem_singleton.mpr ⟨hkey, hx v n m hrun⟩) hassign

/-- One call, whether it fails or not. -/
theorem call_tells (ha : a.Plain P) {call : Call} (hcall : call.Binds P a)
    {r : Except AssignError Unit} (h : call.run.Leaves a r b) : a.Tells b ∧ b.Plain P := by
  cases call with
  | assign entries => exact assignAll_tells hP ha hcall h
  | assignNew key f =>
    rw [Call.run, assignNew] at h
    replace h := Assigning.leaves_get_bind h
    split at h
    · rw [(Assigning.leaves_pure h).2]
      exact ⟨.refl a, ha⟩
    · exact assign_computed_tells hP ha hcall.1 hcall.2 h
  | update key f =>
    rw [Call.run, update] at h
    replace h := Assigning.leaves_get_bind h
    dsimp only at h
    split at h
    · obtain ⟨_, hthrow, -⟩ | ⟨_, _, hthrow, -⟩ := Assigning.leaves_bind h
      · rw [(Assigning.leaves_throw hthrow).2]
        exact ⟨.refl a, ha⟩
      · cases (Assigning.leaves_throw hthrow).1
    · exact assign_computed_tells hP ha hcall.1 hcall.2 h

end Shared

end Assigns

end LiveTemplate
