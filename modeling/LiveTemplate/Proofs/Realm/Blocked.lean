import LiveTemplate.Proofs.Realm.Evaluation

/-!
Fields that templates never read. What is kept under them, and what records inherit from, stays out
of the reach of code whose patterns do not name them: it is met neither as a result nor in one.
-/

namespace LiveTemplate

set_option autoImplicit false

/-- Whether a phrase is an object pattern that names a blocked field. -/
def Phrase.NamesBlocked : Phrase → Prop
  | pattern (.object properties _) => ∃ f ∈ properties, f.1 ∈ blockedFields
  | _ => False

/-- No object pattern in a phrase names a blocked field. -/
def Phrase.Unblocking (p : Phrase) : Prop := ∀ q : Phrase, q.Occurs p → ¬ q.NamesBlocked

theorem Phrase.Unblocking.intro {p : Phrase} (h : ¬ p.NamesBlocked)
    (hchildren : ∀ c ∈ p.children, c.Unblocking) : p.Unblocking := by
  intro q hq
  cases hq with
  | here => exact h
  | inside hc hq => exact hchildren _ hc q hq

/-- The realm of all values but those with certain identities, and of all code that names no blocked
field in a pattern. -/
def Realm.without (hidden : Identity → Prop) : Realm where
  ids i := ¬ hidden i
  markup := True
  unblocked := False
  names _ := True
  keys _ := True
  slots := False
  statics _ := True
  ids_of_unblocked := False.elim
  keys_index _ := trivial
  keys_markup := trivial

section
variable {hidden : Identity → Prop}

theorem Phrase.Unblocking.within {p : Phrase} (h : p.Unblocking) :
    p.Within (.without hidden) := by
  intro q hq
  match q with
  | .pattern (.object properties span) =>
    exact fun f hf => .inr fun hname => h _ hq ⟨f, hf, hname⟩
  | .expr (.name _ _) => trivial
  | .expr (.object _ _) => exact fun _ _ => trivial
  | .expr (.literal _ _) | .expr (.template _ _ _) | .expr (.member _ _ _ _)
  | .expr (.keyed _ _ _ _) | .expr (.call _ _ _ _) | .expr (.unary _ _ _)
  | .expr (.binary _ _ _ _) | .expr (.conditional _ _ _ _) | .expr (.array _ _)
  | .expr (.arrow _ _ _) | .pattern (.name _ _) | .pattern (.array _ _)
  | .pattern (.fallback _ _ _) | .header _ => trivial

/-! ### What stays hidden -/

/-- Neither a value nor what is read from it, along any path of fields, is hidden or is the
constructor of a kind of values. -/
def Value.Clear (hidden : Identity → Prop) (v : Value) : Prop :=
  ∀ (path : List String) (u : Value), v.follow path = some u →
    (∀ i, u.identity? = some i → ¬ hidden i) ∧
      ∀ owner name, u = .method (.unused owner name) → name ∉ blockedFields

theorem Value.Within.member? {R : Realm} {v : Value} (h : v.Within R .itself) {name : String}
    (hname : name ∉ blockedFields) {u : Value} (hu : v.member? name = some u) :
    u.Within R .itself := by
  rw [Value.member?] at hu
  split at hu
  · cases hu
  · split at hu
    · rename_i hparent
      rw [Bool.and_eq_true, decide_eq_true_eq] at hparent
      exact absurd (hparent.1 ▸ by decide) hname
    · cases hu
      exact within_getD fun t ht => h.lookup? (Realm.reads_of_not_mem hname) ht

theorem Value.Within.follow {R : Realm} {v : Value} (h : v.Within R .itself) {path : List String}
    {u : Value} (hu : v.follow path = some u) : u.Within R .itself := by
  induction path generalizing v with
  | nil =>
    cases hu
    exact h
  | cons name path ih =>
    rw [Value.follow] at hu
    split at hu
    · cases hu
    · rename_i hread
      obtain ⟨t, ht, hu⟩ := Option.bind_eq_some_iff.mp hu
      refine ih (h.member? (fun hname => hread ?_) ht) hu
      rw [Bool.or_eq_true, decide_eq_true_eq]
      exact .inr hname

theorem Value.Within.clear {v : Value} (h : v.Within (.without hidden) .itself) :
    v.Clear hidden := by
  intro path u hu
  have hwithin := h.follow hu
  refine ⟨fun i hi => hwithin.identity? hi, ?_⟩
  rintro owner name rfl
  cases hwithin with
  | method _ hmeets => exact hmeets.resolve_left id

/-- Reading a blocked field fails, whatever value holds it. -/
theorem read_blocked {name : String} (hname : name ∈ blockedFields) (v : Value) (span : Span) :
    ∃ cause, v.read name span = Eval.fail cause span := by
  rw [Value.read, if_pos hname]
  split <;> exact ⟨_, rfl⟩

end

/-- A user who inherits a name, and owns a field of a blocked name. -/
def guardedUser : Value :=
  .record 2 (.value (.record 6 .plain [("name", .text "Ada")]))
    [("constructor", .record 7 .plain [])]

/-- A team with its lead. -/
def guardedTeam : Value := .record 1 .plain [("lead", guardedUser)]

/-- `team["le" + "ad"]` -/
def leadByKey : Expr :=
  .keyed (.name "team" ⟨0, 4⟩)
    (.binary .add (.literal (.text "le") ⟨5, 9⟩) (.literal (.text "ad") ⟨12, 16⟩) ⟨5, 16⟩) false
    ⟨0, 17⟩

end LiveTemplate
