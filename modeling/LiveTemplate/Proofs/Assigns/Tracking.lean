import LiveTemplate.Assigns
import LiveTemplate.Proofs.Assigns.Marks

/-!
Changes of bindings are tracked. However bindings are set, also by calls that fail, what the changes
do not reach is as it was when they were last forgotten. Paths on which a name for the parent stands
are left out, since no mark is kept under it.
-/

namespace LiveTemplate

set_option autoImplicit false

/-- `x`, run on the bindings `a`, comes to `r` and leaves `b`. -/
def Assigning.Leaves {α : Type} (x : Assigning α) (a : Assigns) (r : Except AssignError α)
    (b : Assigns) : Prop :=
  ∃ n m, (x.run.run a).run n = ((r, b), m)

namespace Assigning

variable {α β : Type} {a b : Assigns}

theorem leaves_pure {x : α} {r : Except AssignError α} (h : (pure x : Assigning α).Leaves a r b) :
    r = .ok x ∧ b = a := by
  obtain ⟨n, m, h⟩ := h
  cases h
  exact ⟨rfl, rfl⟩

theorem leaves_throw {e : AssignError} {r : Except AssignError α}
    (h : (throw e : Assigning α).Leaves a r b) : r = .error e ∧ b = a := by
  obtain ⟨n, m, h⟩ := h
  cases h
  exact ⟨rfl, rfl⟩

theorem leaves_modify {f : Assigns → Assigns} {r : Except AssignError Unit}
    (h : (modify f : Assigning Unit).Leaves a r b) : r = .ok () ∧ b = f a := by
  obtain ⟨n, m, h⟩ := h
  cases h
  exact ⟨rfl, rfl⟩

theorem leaves_bind {x : Assigning α} {f : α → Assigning β} {r : Except AssignError β}
    (h : (x >>= f).Leaves a r b) :
    (∃ e, x.Leaves a (.error e) b ∧ r = .error e) ∨
      ∃ v c, x.Leaves a (.ok v) c ∧ (f v).Leaves c r b := by
  obtain ⟨n, m, h⟩ := h
  change (StateT.run (StateT.run (ExceptT.bindCont f ((x.run.run a).run n).1.1)
    ((x.run.run a).run n).1.2) ((x.run.run a).run n).2) = _ at h
  cases hx : (x.run.run a).run n with
  | mk result k =>
    obtain ⟨result, c⟩ := result
    rw [hx] at h
    cases result with
    | error e =>
      cases h
      exact .inl ⟨e, ⟨n, k, hx⟩, rfl⟩
    | ok v => exact .inr ⟨v, c, ⟨n, k, hx⟩, k, m, h⟩

theorem leaves_get_bind {f : Assigns → Assigning β} {r : Except AssignError β}
    (h : (MonadState.get >>= f).Leaves a r b) : (f a).Leaves a r b := h

theorem leaves_fresh {r : Except AssignError Identity}
    (h : (liftM freshId : Assigning Identity).Leaves a r b) : (∃ i, r = .ok i) ∧ b = a := by
  obtain ⟨n, m, h⟩ := h
  cases h
  exact ⟨⟨_, rfl⟩, rfl⟩

theorem leaves_compute {x : Eval Value} {r : Except AssignError Value}
    (h : (Assigns.compute x).Leaves a r b) : b = a := by
  obtain ⟨n, m, h⟩ := h
  exact (congrArg (fun done => done.1.2) h).symm

end Assigning

namespace Assigns

open Value (SameContent Stock)

/-- What a binding holds at the end of a path. -/
def at? (a : Assigns) (key : String) (path : List String) : Option Value :=
  Value.heldAt? (Assoc.get? a.values key) path

/-- The changes do not reach a place. -/
def Misses (a : Assigns) (key : String) (path : List String) : Prop :=
  ChangedSet.reaches (some a.changes) key path = false

/-- What is bound are values of one program. -/
def Within (P : Value → Prop) (a : Assigns) : Prop := ∀ key v, Assoc.get? a.values key = some v → P v

variable {P : Value → Prop} {a b since now : Assigns}

theorem get?_assign (made : Bindings) (name : String) (v : Value) {key : String}
    (hkey : key ≠ parentName) : Assoc.get? (made.assign name v).fields key =
      if name = key then some v else Assoc.get? made.fields key := by
  unfold Bindings.assign
  split
  · rename_i hparent
    rw [if_neg (fun h => hkey (h.symm.trans hparent.1))]
    split
    · rfl
    · split <;> rfl
  · exact Record.get?_insert _ _ _ _

theorem markOf_eq (held : Record Value) (key : String) (v : Value) :
    markOf held key v = Value.fieldMark (Assoc.get? held key) (some v) := by
  unfold markOf
  cases Assoc.get? held key <;> rfl

/-- A mark that is added widens what the changes reach. -/
theorem misses_of_add {name key : String} {mark : Mark} {path : List String} (hkey : key ≠ parentName)
    (hpath : parentName ∉ path)
    (h : Misses { a with changes := a.changes.add name mark } key path) :
    a.Misses key path ∧ (name = key → Mark.reaches (some mark) path = false) := by
  obtain ⟨hbefore, hadded⟩ := Mark.not_reached_of_mergeFields _ hkey.symm hpath h
  refine ⟨hbefore, ?_⟩
  rintro rfl
  exact hadded mark List.mem_cons_self

/-- What it comes to that entries were compared with the held bindings: nothing is bound yet, the
changes reach no less than before, and whatever is taken over differs from what is held by no more
than they reach. -/
structure Noted (held : Record Value) (next : Bindings) (a b : Assigns)
    (r : Except AssignError Bindings) : Prop where
  bindings : b.bindings = a.bindings
  widened : ∀ key path, key ≠ parentName → parentName ∉ path → b.Misses key path →
    a.Misses key path
  taken : ∀ made, r = .ok made → ∀ key path, key ≠ parentName → parentName ∉ path →
    b.Misses key path → Assoc.get? made.fields key = Assoc.get? next.fields key ∨
      ∃ v, Assoc.get? made.fields key = some v ∧
        Mark.reaches (Value.fieldMark (Assoc.get? held key) (some v)) path = false

/-- One entry that differs, and what is noted after it. -/
theorem Noted.entry {held : Record Value} {next : Bindings} {r : Except AssignError Bindings}
    {name : String} {value : Value} {mark : Mark} (hmark : markOf held name value = some mark)
    (h : Noted held (next.assign name value) { a with changes := a.changes.add name mark } b r) :
    Noted held next a b r where
  bindings := h.bindings
  widened := fun key path hkey hpath hmiss =>
    (misses_of_add hkey hpath (h.widened key path hkey hpath hmiss)).1
  taken := by
    intro made hr key path hkey hpath hmiss
    have hadded := (misses_of_add hkey hpath (h.widened key path hkey hpath hmiss)).2
    have htaken := h.taken made hr key path hkey hpath hmiss
    rw [get?_assign next name value hkey] at htaken
    rcases htaken with hsame | hnew
    · split_ifs at hsame with hname
      · refine .inr ⟨value, hsame, ?_⟩
        rw [← hname, ← markOf_eq, hmark]
        exact hadded hname
      · exact .inl hsame
    · exact .inr hnew

theorem note_noted {held : Record Value} {entries : List (String × Value)} {next : Bindings}
    {r : Except AssignError Bindings} (h : (note held entries next).Leaves a r b) :
    Noted held next a b r := by
  induction entries generalizing next a with
  | nil =>
    obtain ⟨rfl, rfl⟩ := Assigning.leaves_pure h
    refine ⟨rfl, fun _ _ _ _ hmiss => hmiss, fun made hmade key _ _ _ _ => .inl ?_⟩
    rw [Except.ok.inj hmade]
  | cons e rest ih =>
    obtain ⟨name, value⟩ := e
    rw [note] at h
    split at h
    · obtain ⟨_, hthrow, rfl⟩ | ⟨_, _, hthrow, _⟩ := Assigning.leaves_bind h
      · obtain ⟨-, rfl⟩ := Assigning.leaves_throw hthrow
        exact ⟨rfl, fun _ _ _ _ hmiss => hmiss, fun made hmade => by cases hmade⟩
      · cases (Assigning.leaves_throw hthrow).1
    · dsimp only at h
      split at h
      · exact ih h
      · rename_i mark hmark
        obtain ⟨_, hmodify, -⟩ | ⟨_, c, hmodify, h⟩ := Assigning.leaves_bind h
        · cases (Assigning.leaves_modify hmodify).1
        obtain ⟨-, rfl⟩ := Assigning.leaves_modify hmodify
        exact .entry hmark (ih h)

/-- Between two states, whatever the changes of the later one miss is missed by those of the earlier
one, and it is the same in both. -/
def Kept (a b : Assigns) : Prop :=
  ∀ key path, key ≠ parentName → parentName ∉ path → b.Misses key path →
    a.Misses key path ∧ SameContent (a.at? key path) (b.at? key path)

theorem Kept.refl (a : Assigns) : Kept a a := fun _ _ _ _ hmiss => ⟨hmiss, .refl _⟩

/-- Changes are noted before anything is bound. -/
theorem Noted.kept {held : Record Value} {next : Bindings} {r : Except AssignError Bindings}
    (h : Noted held next a b r) : Kept a b := by
  intro key path hkey hpath hmiss
  refine ⟨h.widened key path hkey hpath hmiss, ?_⟩
  rw [at?, at?, values, values, h.bindings]
  exact .refl _

theorem assignAll_kept (hP : Stock P) (ha : a.Within P) (hb : b.Within P)
    {entries : List (String × Value)} {r : Except AssignError Unit}
    (h : (assignAll entries).Leaves a r b) : Kept a b := by
  rw [assignAll] at h
  replace h := Assigning.leaves_get_bind h
  dsimp only at h
  obtain ⟨_, hnote, -⟩ | ⟨made, c, hnote, hset⟩ := Assigning.leaves_bind h
  · exact (note_noted hnote).kept
  have hnoted := note_noted hnote
  split at hset
  · obtain ⟨_, hfresh, -⟩ | ⟨id, _, hfresh, hbind⟩ := Assigning.leaves_bind hset
    · obtain ⟨i, hi⟩ := (Assigning.leaves_fresh hfresh).1
      cases hi
    obtain ⟨-, rfl⟩ := Assigning.leaves_fresh hfresh
    obtain ⟨-, rfl⟩ := Assigning.leaves_modify hbind
    -- all entries were compared with what was held before any of them was bound
    intro key path hkey hpath hmiss
    refine ⟨hnoted.widened key path hkey hpath hmiss, ?_⟩
    rcases hnoted.taken made rfl key path hkey hpath hmiss with hsame | ⟨v, hv, hmark⟩
    · have hsame : Assoc.get? made.fields key = Assoc.get? a.values key := hsame
      simp only [at?, values] at hsame ⊢
      rw [hsame]
      exact .refl _
    · rw [← hv] at hmark
      exact hP.same_of_not_reached (ha key) (hb key) hpath hmark
  · obtain ⟨-, rfl⟩ := Assigning.leaves_pure hset
    exact hnoted.kept

theorem assign_computed_kept (hP : Stock P) (ha : a.Within P) (hb : b.Within P) {key : String}
    {x : Eval Value} {r : Except AssignError Unit}
    (h : (compute x >>= assign key : Assigning Unit).Leaves a r b) : Kept a b := by
  obtain ⟨_, hcompute, -⟩ | ⟨v, _, hcompute, hassign⟩ := Assigning.leaves_bind h
  · rw [Assigning.leaves_compute hcompute]
    exact .refl _
  · rw [Assigning.leaves_compute hcompute] at hassign
    exact assignAll_kept hP ha hb hassign

/-- A way to set bindings, with what it is called with. -/
inductive Call where
  | assign (entries : List (String × Value))
  | assignNew (key : String) (f : Value → Eval Value)
  | update (key : String) (f : Value → Value → Eval Value)

def Call.run : Call → Assigning Unit
  | assign entries => assignAll entries
  | assignNew key f => Assigns.assignNew key f
  | update key f => Assigns.update key f

/-- One call, whether it fails or not. -/
theorem call_kept (hP : Stock P) (ha : a.Within P) (hb : b.Within P) {call : Call}
    {r : Except AssignError Unit} (h : call.run.Leaves a r b) : Kept a b := by
  cases call with
  | assign entries => exact assignAll_kept hP ha hb h
  | assignNew key f =>
    rw [Call.run, assignNew] at h
    replace h := Assigning.leaves_get_bind h
    split at h
    · obtain ⟨-, rfl⟩ := Assigning.leaves_pure h
      exact .refl _
    · exact assign_computed_kept hP ha hb h
  | update key f =>
    rw [Call.run, update] at h
    replace h := Assigning.leaves_get_bind h
    dsimp only at h
    split at h
    · obtain ⟨_, hthrow, -⟩ | ⟨_, _, hthrow, -⟩ := Assigning.leaves_bind h
      · rw [(Assigning.leaves_throw hthrow).2]
        exact .refl _
      · cases (Assigning.leaves_throw hthrow).1
    · exact assign_computed_kept hP ha hb h

/-- Bindings as they were when no change was noted, and as they are now. -/
inductive Ran (P : Value → Prop) : Assigns → Assigns → Prop where
  | made {initial : Record Value} {a : Assigns} {n m : Nat}
      (h : (ofRecord initial).run.run n = (.ok a, m)) (ha : a.Within P) : Ran P a a
  | called {since a b : Assigns} (call : Call) {r : Except AssignError Unit} (h : Ran P since a)
      (hcall : call.run.Leaves a r b) (hb : b.Within P) : Ran P since b
  | forgot {since a : Assigns} (h : Ran P since a) : Ran P a.reset a.reset

theorem Ran.within (h : Ran P since now) : since.Within P ∧ now.Within P := by
  induction h with
  | made _ ha => exact ⟨ha, ha⟩
  | called _ _ _ hb ih => exact ⟨ih.1, hb⟩
  | forgot _ ih => exact ⟨ih.2, ih.2⟩

theorem Within.at? (hP : Stock P) (h : a.Within P) (key : String) (path : List String) :
    ∀ v, a.at? key path = some v → P v := fun _ => hP.heldAt (h key)

theorem Ran.kept (hP : Stock P) (h : Ran P since now) : Kept since now := by
  induction h with
  | made | forgot => exact .refl _
  | called call h hcall hb ih =>
    have ha := h.within
    intro key path hkey hpath hmiss
    obtain ⟨hbetween, hlast⟩ := call_kept hP ha.2 hb hcall key path hkey hpath hmiss
    obtain ⟨hbefore, hfirst⟩ := ih key path hkey hpath hbetween
    exact ⟨hbefore, hP.same_trans (ha.1.at? hP key path) (ha.2.at? hP key path) (hb.at? hP key path)
      hfirst hlast⟩

/-- A visitor with an address. -/
def visitor (id : Identity) (address : String) : Value :=
  .record id .plain [("name", .text "Ada"), ("address", .text address)]

/-- A visitor at two addresses, and all values without an identity. -/
def IsVisitor (v : Value) : Prop :=
  v.identity? = none ∨ v = visitor 1 "Rome" ∨ v = visitor 2 "Oslo"

theorem isVisitor_stock : Stock IsVisitor := by
  have hfield : ∀ address, ∀ e ∈ [("name", Value.text "Ada"), ("address", .text address)],
      IsVisitor e.2 := by
    intro address e he
    rcases List.mem_cons.1 he with rfl | he
    · exact .inl rfl
    · rw [List.mem_singleton.1 he]
      exact .inl rfl
  constructor
  case scalar => exact .inl
  case item => rintro i items v (h | h | h) <;> cases h
  case field =>
    rintro i parent fields name v (h | h | h) hv <;> cases h
    · exact hfield "Rome" _ hv
    · exact hfield "Oslo" _ hv
  case names => rintro i parent fields (h | h | h) <;> cases h <;> decide
  case once =>
    rintro v w i (hv | rfl | rfl) (hw | rfl | rfl) hi hj <;> try rfl
    all_goals first
      | cases hv.symm.trans hi
      | cases hw.symm.trans hj
      | cases hi.trans hj.symm

theorem within_isVisitor {v : Value} (hv : IsVisitor v) (ha : a.values = [("user", v)]) :
    a.Within IsVisitor := by
  intro key w hw
  rw [ha, Assoc.get?] at hw
  split at hw
  · obtain rfl := Option.some.inj hw
    exact hv
  · cases hw

/-- What the changes do not reach is as it was when they were last forgotten. -/
theorem same_of_missed (hP : Stock P) (h : Ran P since now) {key : String} {path : List String}
    (hkey : key ≠ parentName) (hpath : parentName ∉ path)
    (hmiss : ChangedSet.reaches (some now.changes) key path = false) :
    SameContent (since.at? key path) (now.at? key path) :=
  (h.kept hP key path hkey hpath hmiss).2

/-- A visitor moves, and a binding that is not there fails to be updated. -/
theorem same_of_missed_visitor :
    let since : Assigns := { bindings := { fields := [("user", visitor 1 "Rome")] } }
    let now : Assigns := {
      id := 3
      bindings := { fields := [("user", visitor 2 "Oslo")] }
      changes := [("user", .parts [("address", .whole)])] }
    Stock IsVisitor ∧ Ran IsVisitor since now ∧
      SameContent (since.at? "user" ["name"]) (now.at? "user" ["name"]) := by
  intro since now
  have hsince : since.Within IsVisitor := within_isVisitor (.inr (.inl rfl)) rfl
  have hnow : now.Within IsVisitor := within_isVisitor (.inr (.inr rfl)) rfl
  have hmade : Ran IsVisitor since since :=
    @Ran.made IsVisitor [("user", visitor 1 "Rome")] since 0 1 rfl hsince
  have hmoved : Ran IsVisitor since now :=
    .called (.update "user" fun _ _ => pure (visitor 2 "Oslo")) (r := .ok ()) hmade ⟨3, 4, rfl⟩ hnow
  have hran : Ran IsVisitor since now :=
    .called (.update "guest" fun v _ => pure v) (r := .error (.notAssigned "guest")) hmoved
      ⟨4, 4, rfl⟩ hnow
  exact ⟨isVisitor_stock, hran,
    same_of_missed isVisitor_stock hran (by decide) (by decide) rfl⟩

end Assigns

end LiveTemplate
