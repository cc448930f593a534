import LiveTemplate.Proofs.Expr.Confined
import Mathlib.Data.List.Basic

/-!
What an expression reads covers all that it looks up. If none of its reads is affected by a
changed-set, it is confined to what is not. Merged reads lose none of their readers, as long as no name
holds the separator that stands between the names of a read.
-/

namespace LiveTemplate

set_option autoImplicit false

/-! ### Names without the separator -/

/-- The character between the parts of the text by which reads are told apart. -/
def separator : Char := '\x00'

/-- A text in which the separator does not occur. -/
def Unseparated (s : String) : Prop := separator ∉ s.toList

instance : DecidablePred Unseparated := fun s => inferInstanceAs (Decidable (separator ∉ s.toList))

/-- A read whose names can be told apart. -/
def Read.Plain (r : Read) : Prop := ∀ s ∈ r.key :: r.path, Unseparated s

theorem Read.eq_of_id_eq {r t : Read} (hr : r.Plain) (ht : t.Plain) (h : r.id = t.id) : r = t := by
  have hsplit : ∀ u : Read, u.Plain →
      u.id.toList.splitOn separator = (u.key :: u.path).map String.toList := by
    intro u hu
    rw [Read.id, String.toList_intercalate]
    refine List.splitOn_intercalate separator ?_ (by simp)
    exact List.forall_mem_map.mpr hu
  have hlists := (hsplit r hr).symm.trans ((congrArg _ (congrArg _ h)).trans (hsplit t ht))
  have hnames := List.map_injective_iff.mpr (fun _ _ => String.toList_inj.mp) hlists
  obtain ⟨key, path⟩ := r
  obtain ⟨key', path'⟩ := t
  rw [List.cons.injEq] at hnames
  rw [Read.mk.injEq]
  exact hnames

section Spelled

/-- The field that a key names if it is a literal. -/
def Expr.literalField : Expr → List String
  | .literal value _ => value.fieldName?.toList
  | _ => []

mutual

/-- The names that an expression looks up and the fields it reads by name. -/
def Expr.spelled : Expr → List String
  | .literal _ _ => []
  | .template _ parts _ => Expr.partsSpelled parts
  | .name n _ => [n]
  | .member target field _ _ => field :: Expr.spelled target
  | .keyed target key _ _ => Expr.spelled target ++ (key.literalField ++ Expr.spelled key)
  | .call callee args _ _ => Expr.spelled callee ++ Expr.listSpelled args
  | .unary _ e _ => Expr.spelled e
  | .binary _ l r _ => Expr.spelled l ++ Expr.spelled r
  | .conditional c y n _ => Expr.spelled c ++ (Expr.spelled y ++ Expr.spelled n)
  | .array es _ => Expr.listSpelled es
  | .object fields _ => Expr.fieldsSpelled fields
  | .arrow params body _ => Pattern.allSpelled params ++ Expr.spelled body

def Expr.listSpelled : List Expr → List String
  | [] => []
  | e :: rest => Expr.spelled e ++ Expr.listSpelled rest

def Expr.partsSpelled : List (Expr × String) → List String
  | [] => []
  | (e, _) :: rest => Expr.spelled e ++ Expr.partsSpelled rest

def Expr.fieldsSpelled : List (String × Expr) → List String
  | [] => []
  | (_, e) :: rest => Expr.spelled e ++ Expr.fieldsSpelled rest

def Pattern.allSpelled : List Pattern → List String
  | [] => []
  | p :: rest => Pattern.spelled p ++ Pattern.allSpelled rest

/-- The names that the defaults of a pattern look up and the fields they read by name. -/
def Pattern.spelled : Pattern → List String
  | .name _ _ => []
  | .array elements _ => Pattern.elementsSpelled elements
  | .object properties _ => Pattern.propertiesSpelled properties
  | .fallback target value _ => Expr.spelled value ++ Pattern.spelled target

def Pattern.elementsSpelled : List (Option Pattern) → List String
  | [] => []
  | none :: rest => Pattern.elementsSpelled rest
  | some p :: rest => Pattern.spelled p ++ Pattern.elementsSpelled rest

def Pattern.propertiesSpelled : List (String × Pattern) → List String
  | [] => []
  | (_, p) :: rest => Pattern.spelled p ++ Pattern.propertiesSpelled rest

end

/-- A chain is made of names that its expression spells. -/
theorem Expr.spelled_of_chain? {root : String} (e : Expr) : ∀ {path : List String},
    e.chain? = some (root, path) → ∀ s ∈ root :: path, s ∈ e.spelled := by
  have hstep : ∀ {before names : List String} {field : String},
      (∀ s ∈ root :: before, s ∈ names) → ∀ s ∈ root :: (before ++ [field]), s ∈ names ∨ s = field :=
    fun hbefore s hs => by
      rw [← List.cons_append, List.mem_append, List.mem_singleton] at hs
      exact hs.imp_left (hbefore s)
  induction e using Expr.chain?.induct with
  | case1 n span =>
    intro path hchain
    rw [Expr.chain?, Option.some.injEq, Prod.mk.injEq] at hchain
    obtain ⟨rfl, rfl⟩ := hchain
    rw [Expr.spelled]
    exact fun _ hs => hs
  | case2 target field opt span ih =>
    intro path hchain s hs
    rw [Expr.chain?] at hchain
    obtain ⟨⟨root', before⟩, htarget, hpath⟩ := Option.bind_eq_some_iff.mp hchain
    rw [Option.some.injEq, Prod.mk.injEq] at hpath
    obtain ⟨rfl, rfl⟩ := hpath
    rw [Expr.spelled, List.mem_cons]
    exact (hstep (ih htarget) s hs).symm
  | case3 target value place opt span ih =>
    intro path hchain s hs
    rw [Expr.chain?] at hchain
    obtain ⟨field, hfield, hchain⟩ := Option.bind_eq_some_iff.mp hchain
    obtain ⟨⟨root', before⟩, htarget, hpath⟩ := Option.bind_eq_some_iff.mp hchain
    rw [Option.some.injEq, Prod.mk.injEq] at hpath
    obtain ⟨rfl, rfl⟩ := hpath
    rw [Expr.spelled, Expr.literalField, hfield, List.mem_append, List.mem_append]
    exact (hstep (ih htarget) s hs).imp_right fun h => .inl (List.mem_singleton.mpr h)
  | case4 e hname hmember hkeyed =>
    intro path hchain
    rw [Expr.chain?] at hchain
    · cases hchain
    · exact hname
    · exact hmember
    · exact hkeyed

end Spelled

/-! ### Reads that no change affects -/

namespace Reads

/-- Reads that no change affects, but for names that are known. -/
structure Clear (changed : ChangedSet) (known : List String) (r : Reads) : Prop where
  locals : ∀ x ∈ r.locals, x ∈ known
  all : r.all = true → changed = []
  keys : ∀ k ∈ r.keys, ChangedSet.reaches (some changed) k.key k.path = false

theorem isAffected_eq_false_iff {changed : ChangedSet} {r : Reads} :
    r.isAffected (some changed) = false ↔ r.Clear changed [] := by
  have hlocals : r.locals.isEmpty = true ↔ ∀ x ∈ r.locals, x ∈ ([] : List String) := by
    rw [List.isEmpty_iff, List.eq_nil_iff_forall_not_mem]
    exact forall₂_congr fun x hx => by simp
  have hkeys : (r.keys.any fun k => ChangedSet.reaches (some changed) k.key k.path) = false ↔
      ∀ k ∈ r.keys, ChangedSet.reaches (some changed) k.key k.path = false := by
    simp
  rw [isAffected, Bool.or_eq_false_iff, Bool.not_eq_false', hlocals]
  cases hall : r.all with
  | false =>
    rw [if_neg Bool.false_ne_true, hkeys]
    exact ⟨fun h => ⟨h.1, fun h' => absurd (hall.symm.trans h') Bool.false_ne_true, h.2⟩,
      fun h => ⟨h.locals, h.keys⟩⟩
  | true =>
    rw [if_pos rfl, Bool.not_eq_false', List.isEmpty_iff]
    refine ⟨fun h => ⟨h.1, fun _ => h.2, fun k _ => ?_⟩, fun h => ⟨h.locals, h.all hall⟩⟩
    obtain ⟨-, rfl⟩ := h
    rw [ChangedSet.reaches, Assoc.get?_nil, Mark.reaches]

/-! #### What is left of reads after they are merged -/

theorem mem_foldl_addLocal {as bs : List String} {x : String} :
    x ∈ bs.foldl addLocal as ↔ x ∈ as ∨ x ∈ bs := by
  induction bs generalizing as with
  | nil => simp
  | cons b rest ih =>
    have hadd : x ∈ addLocal as b ↔ x ∈ as ∨ x = b := by
      rw [addLocal]
      split
      · rename_i hb
        exact ⟨.inl, fun h => h.elim id fun hx => hx ▸ hb⟩
      · rw [List.mem_append, List.mem_singleton]
    rw [List.foldl_cons, ih, hadd, List.mem_cons, or_assoc]

theorem mem_addKey {ks : List Read} {k r : Read} (h : k ∈ addKey ks r) : k ∈ ks ∨ k = r := by
  rw [addKey] at h
  split at h
  · exact .inl h
  · rwa [List.mem_append, List.mem_singleton] at h

theorem mem_of_mem_foldl_addKey {as bs : List Read} {k : Read} (h : k ∈ bs.foldl addKey as) :
    k ∈ as ∨ k ∈ bs := by
  induction bs generalizing as with
  | nil => exact .inl h
  | cons b rest ih =>
    rcases ih h with h | h
    · exact (mem_addKey h).imp_right fun (hk : k = b) => hk ▸ List.mem_cons_self
    · exact .inr (List.mem_cons_of_mem _ h)

theorem mem_foldl_addKey {as : List Read} {k : Read} (h : k ∈ as) (bs : List Read) :
    k ∈ bs.foldl addKey as := by
  induction bs generalizing as with
  | nil => exact h
  | cons b rest ih =>
    refine ih ?_
    rw [addKey]
    split
    · exact h
    · exact List.mem_append_left _ h

/-- A read that is not added was there under the same text. -/
theorem exists_id_eq_of_mem (as : List Read) {bs : List Read} {k : Read} (h : k ∈ bs) :
    ∃ r ∈ bs.foldl addKey as, r.id = k.id := by
  induction bs generalizing as with
  | nil => cases h
  | cons b rest ih =>
    rcases List.mem_cons.mp h with rfl | h
    · suffices hadd : ∃ r ∈ addKey as k, r.id = k.id by
        obtain ⟨r, hr, hid⟩ := hadd
        exact ⟨r, mem_foldl_addKey hr rest, hid⟩
      rw [addKey]
      split
      · rename_i hany
        obtain ⟨r, hr, hid⟩ := List.any_eq_true.mp hany
        exact ⟨r, hr, of_decide_eq_true hid⟩
      · exact ⟨k, List.mem_append_right _ List.mem_cons_self, rfl⟩
    · exact ih (addKey as b) h

/-- Merged reads are clear exactly if all of them are, as long as their names can be told apart. -/
theorem clear_merge_iff {changed : ChangedSet} {known : List String} {a b : Reads}
    (ha : ∀ k ∈ a.keys, k.Plain) (hb : ∀ k ∈ b.keys, k.Plain) :
    (a.merge b).Clear changed known ↔ a.Clear changed known ∧ b.Clear changed known := by
  constructor
  · refine fun h => ⟨⟨fun x hx => ?_, fun hall => ?_, fun k hk => ?_⟩,
      ⟨fun x hx => ?_, fun hall => ?_, fun k hk => ?_⟩⟩
    · exact h.locals x (mem_foldl_addLocal.mpr (.inl hx))
    · exact h.all (by rw [merge, hall, Bool.true_or])
    · exact h.keys k (mem_foldl_addKey hk b.keys)
    · exact h.locals x (mem_foldl_addLocal.mpr (.inr hx))
    · exact h.all (by rw [merge, hall, Bool.or_true])
    · obtain ⟨r, hr, hid⟩ := exists_id_eq_of_mem a.keys hk
      have hplain := (mem_of_mem_foldl_addKey hr).elim (ha r) (hb r)
      obtain rfl := Read.eq_of_id_eq hplain (hb k hk) hid
      exact h.keys r hr
  · refine fun ⟨h, h'⟩ => ⟨fun x hx => ?_, fun hall => ?_, fun k hk => ?_⟩
    · exact (mem_foldl_addLocal.mp hx).elim (h.locals x) (h'.locals x)
    · exact (Bool.or_eq_true_iff.mp hall).elim h.all h'.all
    · exact (mem_of_mem_foldl_addKey hk).elim (h.keys k) (h'.keys k)

end Reads

/-! ### Guards -/

/-- Reads with names that can be told apart, from which a property follows if no change affects
them. -/
structure Reads.Guards (changed : ChangedSet) (known : List String) (r : Reads) (P : Prop) :
    Prop where
  plain : ∀ k ∈ r.keys, k.Plain
  holds : r.Clear changed known → P

namespace Reads.Guards

variable {changed : ChangedSet} {known : List String} {P Q : Prop}

theorem empty (h : P) : Reads.empty.Guards changed known P := ⟨fun _ hk => absurd hk List.not_mem_nil, fun _ => h⟩

theorem merge {a b : Reads} (ha : a.Guards changed known P) (hb : b.Guards changed known Q) :
    (a.merge b).Guards changed known (P ∧ Q) :=
  ⟨fun k hk => (mem_of_mem_foldl_addKey hk).elim (ha.plain k) (hb.plain k), fun h =>
    ((clear_merge_iff ha.plain hb.plain).mp h).imp ha.holds hb.holds⟩

theorem without {more names : List String} {r : Reads} (h : r.Guards changed (known ++ more) P)
    (hnames : ∀ x ∈ names, x ∈ more) : (r.without names).Guards changed known P :=
  ⟨h.plain, fun hclear => h.holds ⟨fun x hx => by
    rw [List.mem_append]
    by_cases hx' : x ∈ names
    · exact .inr (hnames x hx')
    · exact .inl (hclear.locals x (List.mem_filter.mpr ⟨hx, decide_eq_true hx'⟩)),
    hclear.all, hclear.keys⟩⟩

theorem imp {r : Reads} (h : r.Guards changed known P) (hPQ : P → Q) : r.Guards changed known Q :=
  ⟨h.plain, fun hclear => hPQ (h.holds hclear)⟩

end Reads.Guards

section
variable (scope : NameScope) (changed : ChangedSet)

/-- What a changed-set leaves to be read where no more than the names of a scope are local. -/
def NameScope.Grants (x : String) (path : List String) : Prop :=
  (Reads.ofName scope x path).isAffected (some changed) = false

/-- What is granted is not local. It is the record of all bindings if none has changed, a helper, or a
path from a binding that the changed-set does not reach. -/
theorem NameScope.Grants.elim {scope : NameScope} {changed : ChangedSet} {x : String}
    {path : List String} (h : scope.Grants changed x path) : x ∉ scope.locals ∧
      ((x = "assigns" ∧ path = [] ∧ changed = []) ∨
        (∃ key rest, x = "assigns" ∧ path = key :: rest ∧
          ChangedSet.reaches (some changed) key rest = false) ∨
        (x ≠ "assigns" ∧ x ∈ scope.helpers) ∨
        (x ≠ "assigns" ∧ x ∉ scope.helpers ∧
          ChangedSet.reaches (some changed) x path = false)) := by
  have hclear := Reads.isAffected_eq_false_iff.mp h
  rw [Reads.ofName.eq_def] at hclear
  split at hclear
  · exact absurd (hclear.locals x List.mem_cons_self) List.not_mem_nil
  · rename_i hlocal
    refine ⟨hlocal, ?_⟩
    split at hclear
    · rename_i hx
      cases path with
      | nil => exact .inl ⟨hx, rfl, hclear.all rfl⟩
      | cons key rest => exact .inr (.inl ⟨key, rest, hx, rfl, hclear.keys _ List.mem_cons_self⟩)
    · rename_i hx
      split at hclear
      · rename_i hhelper
        exact .inr (.inr (.inl ⟨hx, hhelper⟩))
      · rename_i hhelper
        exact .inr (.inr (.inr ⟨hx, hhelper, hclear.keys _ List.mem_cons_self⟩))

/-- A scope with more local names. -/
structure NameScope.Within (inner : NameScope) : Prop where
  locals : ∀ x ∈ scope.locals, x ∈ inner.locals
  helpers : inner.helpers = scope.helpers

end

section
variable {scope : NameScope} {changed : ChangedSet}

theorem NameScope.Within.bind {inner : NameScope} (h : scope.Within inner) (names : List String) :
    scope.Within (inner.bind names) :=
  ⟨fun x hx => List.mem_append_left _ (h.locals x hx), h.helpers⟩

/-- Of a name that is not local, the same is read in both scopes. -/
theorem guards_ofName {inner : NameScope} (h : scope.Within inner) {known : List String} {x : String}
    {path : List String} (hplain : ∀ s ∈ x :: path, Unseparated s) :
    (Reads.ofName inner x path).Guards changed known
      (x ∈ known ∨ scope.Grants changed x path) := by
  rw [List.forall_mem_cons] at hplain
  obtain ⟨hx, hpath⟩ := hplain
  by_cases hlocal : x ∈ inner.locals
  · rw [Reads.ofName.eq_def, if_pos hlocal]
    exact ⟨fun _ hk => absurd hk List.not_mem_nil,
      fun hclear => .inl (hclear.locals x List.mem_cons_self)⟩
  · have hsame : Reads.ofName scope x path = Reads.ofName inner x path := by
      rw [Reads.ofName.eq_def, Reads.ofName.eq_def inner, if_neg hlocal,
        if_neg fun hx => hlocal (h.locals x hx), h.helpers]
    have hlocals : (Reads.ofName inner x path).locals = [] := by
      rw [Reads.ofName.eq_def, if_neg hlocal]
      split
      · split <;> rfl
      · split <;> rfl
    refine ⟨fun k hk => ?_, fun hclear => .inr ?_⟩
    · rw [Reads.ofName.eq_def, if_neg hlocal] at hk
      split at hk
      · cases path with
        | nil => cases hk
        | cons key rest =>
          obtain rfl := List.mem_singleton.mp hk
          exact hpath
      · split at hk
        · cases hk
        · obtain rfl := List.mem_singleton.mp hk
          exact List.forall_mem_cons.mpr ⟨hx, hpath⟩
    · rw [NameScope.Grants, hsame, Reads.isAffected_eq_false_iff]
      exact ⟨fun x hx => hlocals ▸ hx, hclear.all, hclear.keys⟩

theorem guards_chain {inner : NameScope} (h : scope.Within inner) {known : List String} {e : Expr}
    (hplain : ∀ s ∈ e.spelled, Unseparated s) {root : String} {path : List String}
    (hchain : e.chain? = some (root, path)) : (Reads.ofName inner root path).Guards changed known
      (root ∈ known ∨ scope.Grants changed root path) :=
  guards_ofName h fun s hs => hplain s (e.spelled_of_chain? hchain s hs)

/-! ### Expressions -/

mutual

/-- If what an expression reads is not affected, it is confined to what is granted. -/
theorem guards_expr {inner : NameScope} (h : scope.Within inner) (known : List String) :
    ∀ e : Expr, (∀ s ∈ e.spelled, Unseparated s) → (e.reads inner).Guards changed known
      (e.Confined (scope.Grants changed) known)
  | .literal _ _, _ => by
    rw [Expr.reads, Expr.Confined]
    exact .empty trivial
  | .template _ parts _, hs => by
    rw [Expr.spelled] at hs
    rw [Expr.reads, Expr.Confined]
    exact guards_parts h known parts hs
  | .name n _, hs => by
    rw [Expr.spelled] at hs
    rw [Expr.reads, Expr.Confined]
    exact guards_ofName h hs
  | .member target field opt span, hs => by
    rw [Expr.reads, Expr.Confined]
    cases hchain : Expr.chain? (.member target field opt span) with
    | some p => exact guards_chain h hs hchain
    | none =>
      rw [Expr.spelled, List.forall_mem_cons] at hs
      exact guards_expr h known target hs.2
  | .keyed target key opt span, hs => by
    rw [Expr.reads, Expr.Confined]
    cases hchain : Expr.chain? (.keyed target key opt span) with
    | some p => exact guards_chain h hs hchain
    | none =>
      rw [Expr.spelled, List.forall_mem_append, List.forall_mem_append] at hs
      exact (guards_expr h known target hs.1).merge (guards_expr h known key hs.2.2)
  | .call callee args opt span, hs => by
    rw [Expr.spelled, List.forall_mem_append] at hs
    obtain ⟨hcallee, hargs⟩ := hs
    have hargs := guards_list h known args hargs
    have hother := guards_expr h known callee hcallee
    cases callee with
    | member target n chained place =>
      rw [Expr.spelled, List.forall_mem_cons] at hcallee
      rw [Expr.reads, Expr.Confined]
      exact (guards_expr h known target hcallee.2).merge hargs
    | keyed target key chained place =>
      rw [Expr.spelled, List.forall_mem_append, List.forall_mem_append] at hcallee
      rw [Expr.reads, Expr.Confined]
      exact (((guards_expr h known target hcallee.1).merge
        (guards_expr h known key hcallee.2.2)).merge hargs).imp and_assoc.mp
    | _ =>
      simp only [Expr.reads, Expr.Confined] at hother ⊢
      exact hother.merge hargs
  | .unary _ e _, hs => by
    rw [Expr.spelled] at hs
    rw [Expr.reads, Expr.Confined]
    exact guards_expr h known e hs
  | .binary _ l r _, hs => by
    rw [Expr.spelled, List.forall_mem_append] at hs
    rw [Expr.reads, Expr.Confined]
    exact (guards_expr h known l hs.1).merge (guards_expr h known r hs.2)
  | .conditional c y n _, hs => by
    rw [Expr.spelled, List.forall_mem_append, List.forall_mem_append] at hs
    rw [Expr.reads, Expr.Confined]
    exact (((guards_expr h known c hs.1).merge (guards_expr h known y hs.2.1)).merge
      (guards_expr h known n hs.2.2)).imp and_assoc.mp
  | .array es _, hs => by
    rw [Expr.spelled] at hs
    rw [Expr.reads, Expr.Confined]
    exact guards_list h known es hs
  | .object fields _, hs => by
    rw [Expr.spelled] at hs
    rw [Expr.reads, Expr.Confined]
    exact guards_fields h known fields hs
  | .arrow params body _, hs => by
    rw [Expr.spelled, List.forall_mem_append] at hs
    rw [Expr.reads, Expr.Confined]
    refine (guards_params h known params hs.1).merge ?_
    refine (guards_expr (h.bind _) _ body hs.2).without fun x hx => ?_
    exact (List.mem_filter.mp hx).1

theorem guards_list {inner : NameScope} (h : scope.Within inner) (known : List String) :
    ∀ es : List Expr, (∀ s ∈ Expr.listSpelled es, Unseparated s) →
      (Expr.listReads inner es).Guards changed known
        (Expr.ListConfined (scope.Grants changed) known es)
  | [], _ => by
    rw [Expr.listReads, Expr.ListConfined]
    exact .empty trivial
  | e :: rest, hs => by
    rw [Expr.listSpelled, List.forall_mem_append] at hs
    rw [Expr.listReads, Expr.ListConfined]
    exact (guards_expr h known e hs.1).merge (guards_list h known rest hs.2)

theorem guards_parts {inner : NameScope} (h : scope.Within inner) (known : List String) :
    ∀ parts : List (Expr × String), (∀ s ∈ Expr.partsSpelled parts, Unseparated s) →
      (Expr.partReads inner parts).Guards changed known
        (Expr.PartsConfined (scope.Grants changed) known parts)
  | [], _ => by
    rw [Expr.partReads, Expr.PartsConfined]
    exact .empty trivial
  | (e, _) :: rest, hs => by
    rw [Expr.partsSpelled, List.forall_mem_append] at hs
    rw [Expr.partReads, Expr.PartsConfined]
    exact (guards_expr h known e hs.1).merge (guards_parts h known rest hs.2)

theorem guards_fields {inner : NameScope} (h : scope.Within inner) (known : List String) :
    ∀ fields : List (String × Expr), (∀ s ∈ Expr.fieldsSpelled fields, Unseparated s) →
      (Expr.fieldReads inner fields).Guards changed known
        (Expr.FieldsConfined (scope.Grants changed) known fields)
  | [], _ => by
    rw [Expr.fieldReads, Expr.FieldsConfined]
    exact .empty trivial
  | (_, e) :: rest, hs => by
    rw [Expr.fieldsSpelled, List.forall_mem_append] at hs
    rw [Expr.fieldReads, Expr.FieldsConfined]
    exact (guards_expr h known e hs.1).merge (guards_fields h known rest hs.2)

theorem guards_params {inner : NameScope} (h : scope.Within inner) (known : List String) :
    ∀ params : List Pattern, (∀ s ∈ Pattern.allSpelled params, Unseparated s) →
      (Expr.paramReads inner params).Guards changed known
        (Pattern.AllConfined (scope.Grants changed) known params)
  | [], _ => by
    rw [Expr.paramReads, Pattern.AllConfined]
    exact .empty trivial
  | p :: rest, hs => by
    rw [Pattern.allSpelled, List.forall_mem_append] at hs
    rw [Expr.paramReads, Pattern.AllConfined]
    exact (guards_pattern h known p hs.1).merge (guards_params (h.bind _) known rest hs.2)

/-- If what the defaults of a pattern read is not affected, they are confined to what is granted. -/
theorem guards_pattern {inner : NameScope} (h : scope.Within inner) (known : List String) :
    ∀ p : Pattern, (∀ s ∈ p.spelled, Unseparated s) → (p.reads inner).Guards changed known
      (p.Confined (scope.Grants changed) known)
  | .name _ _, _ => by
    rw [Pattern.reads, Pattern.Confined]
    exact .empty trivial
  | .array elements _, hs => by
    rw [Pattern.spelled] at hs
    rw [Pattern.reads, Pattern.Confined]
    exact guards_elements h known elements hs
  | .object properties _, hs => by
    rw [Pattern.spelled] at hs
    rw [Pattern.reads, Pattern.Confined]
    exact guards_properties h known properties hs
  | .fallback target value _, hs => by
    rw [Pattern.spelled, List.forall_mem_append] at hs
    rw [Pattern.reads, Pattern.Confined]
    exact (guards_expr h known value hs.1).merge (guards_pattern h known target hs.2)

theorem guards_elements {inner : NameScope} (h : scope.Within inner) (known : List String) :
    ∀ elements : List (Option Pattern), (∀ s ∈ Pattern.elementsSpelled elements, Unseparated s) →
      (Pattern.elementReads inner elements).Guards changed known
        (Pattern.ElementsConfined (scope.Grants changed) known elements)
  | [], _ => by
    rw [Pattern.elementReads, Pattern.ElementsConfined]
    exact .empty trivial
  | none :: rest, hs => by
    rw [Pattern.elementsSpelled] at hs
    rw [Pattern.elementReads, Pattern.ElementsConfined]
    exact guards_elements h known rest hs
  | some p :: rest, hs => by
    rw [Pattern.elementsSpelled, List.forall_mem_append] at hs
    rw [Pattern.elementReads, Pattern.ElementsConfined]
    exact (guards_pattern h known p hs.1).merge (guards_elements h known rest hs.2)

theorem guards_properties {inner : NameScope} (h : scope.Within inner) (known : List String) :
    ∀ properties : List (String × Pattern),
      (∀ s ∈ Pattern.propertiesSpelled properties, Unseparated s) →
        (Pattern.propertyReads inner properties).Guards changed known
          (Pattern.PropertiesConfined (scope.Grants changed) known properties)
  | [], _ => by
    rw [Pattern.propertyReads, Pattern.PropertiesConfined]
    exact .empty trivial
  | (_, p) :: rest, hs => by
    rw [Pattern.propertiesSpelled, List.forall_mem_append] at hs
    rw [Pattern.propertyReads, Pattern.PropertiesConfined]
    exact (guards_pattern h known p hs.1).merge (guards_properties h known rest hs.2)

end

/-- An expression whose reads are not affected is confined to what is granted where it stands. -/
theorem Expr.confined_of_unaffected {e : Expr} (hs : ∀ s ∈ e.spelled, Unseparated s)
    (h : (e.reads scope).isAffected (some changed) = false) :
    e.Confined (scope.Grants changed) [] :=
  (guards_expr ⟨fun _ hx => hx, rfl⟩ [] e hs).holds (Reads.isAffected_eq_false_iff.mp h)

end

namespace Reads

/-- What expressions, or the defaults of a pattern, are found to read. None of their names and fields
holds the separator. -/
inductive Collected : Reads → Prop
  | expr (scope : NameScope) {e : Expr} (h : ∀ s ∈ e.spelled, Unseparated s) :
      Collected (e.reads scope)
  | list (scope : NameScope) {es : List Expr} (h : ∀ s ∈ Expr.listSpelled es, Unseparated s) :
      Collected (Expr.listReads scope es)
  | pattern (scope : NameScope) {p : Pattern} (h : ∀ s ∈ p.spelled, Unseparated s) :
      Collected (p.reads scope)

variable {changed : ChangedSet}

theorem Collected.plain {r : Reads} (h : r.Collected) : ∀ k ∈ r.keys, k.Plain := by
  have hwithin : ∀ scope : NameScope, scope.Within scope := fun _ => ⟨fun _ hx => hx, rfl⟩
  cases h with
  | expr scope h =>
    have hguards : Guards [] [] _ _ := guards_expr (hwithin scope) [] _ h
    exact hguards.plain
  | list scope h =>
    have hguards : Guards [] [] _ _ := guards_list (hwithin scope) [] _ h
    exact hguards.plain
  | pattern scope h =>
    have hguards : Guards [] [] _ _ := guards_pattern (hwithin scope) [] _ h
    exact hguards.plain

theorem clear_foldl_merge_iff {start : Reads} {all : List Reads} (hstart : ∀ k ∈ start.keys, k.Plain)
    (hall : ∀ d ∈ all, ∀ k ∈ d.keys, k.Plain) :
    (all.foldl merge start).Clear changed [] ↔
      start.Clear changed [] ∧ ∀ d ∈ all, d.Clear changed [] := by
  induction all generalizing start with
  | nil => simp
  | cons d rest ih =>
    rw [List.forall_mem_cons] at hall
    have hmerged : ∀ k ∈ (start.merge d).keys, k.Plain := fun k hk =>
      (mem_of_mem_foldl_addKey hk).elim (hstart k) (hall.1 k)
    rw [List.foldl_cons, ih hmerged hall.2, clear_merge_iff hstart hall.1, List.forall_mem_cons,
      and_assoc]

theorem clear_empty : empty.Clear changed [] where
  locals := fun _ hx => absurd hx List.not_mem_nil
  all := fun hall => absurd hall Bool.false_ne_true
  keys := fun _ hk => absurd hk List.not_mem_nil

/-- Merged reads are affected exactly if some of them are. With nothing known of the changes all reads
are affected, and there has to be one. -/
theorem mergeAll_affected_iff {all : List Reads} (hall : ∀ d ∈ all, d.Collected)
    {changed : Option ChangedSet} (hsome : all ≠ [] ∨ changed ≠ none) :
    (mergeAll all).isAffected changed = true ↔ ∃ d ∈ all, d.isAffected changed = true := by
  cases changed with
  | none =>
    obtain ⟨d, rest, rfl⟩ := List.exists_cons_of_ne_nil (hsome.resolve_right fun h => h rfl)
    exact ⟨fun _ => ⟨d, List.mem_cons_self, rfl⟩, fun _ => rfl⟩
  | some changed =>
    have hclear : (mergeAll all).isAffected (some changed) = false ↔
        ∀ d ∈ all, d.isAffected (some changed) = false := by
      simp only [isAffected_eq_false_iff]
      rw [mergeAll, clear_foldl_merge_iff (fun _ hk => absurd hk List.not_mem_nil)
        fun d hd => (hall d hd).plain]
      exact and_iff_right clear_empty
    rw [← Bool.not_eq_false, hclear]
    simp

/-- The name of a user read as a field, under a literal key and in a default, with one field of the
user changed. -/
theorem mergeAll_affected_userName :
    let user : Expr := .name "user" default
    let all := [(Expr.member user "name" false default).reads ⟨[], []⟩,
      Expr.listReads ⟨["row"], []⟩ [.keyed user (.literal (.text "name") default) false default],
      (Pattern.fallback (.name "n" default) user default).reads ⟨[], ["raw"]⟩]
    let changed : ChangedSet := [("user", .parts [("email", .whole)])]
    (∀ d ∈ all, d.Collected) ∧ (all ≠ [] ∨ some changed ≠ none) ∧
      ((mergeAll all).isAffected (some changed) = true ↔
        ∃ d ∈ all, d.isAffected (some changed) = true) := by
  intro user all changed
  have hall : ∀ d ∈ all, d.Collected := by
    simp only [all, List.forall_mem_cons, List.not_mem_nil, false_implies, implies_true, and_true]
    exact ⟨.expr _ (by decide), .list _ (by decide), .pattern _ (by decide)⟩
  exact ⟨hall, .inl (by decide), mergeAll_affected_iff hall (.inl (by decide))⟩

/-- Where a name holds the separator, the later of two reads is lost. -/
example : (mergeAll [⟨[⟨"a", ["b\x00c"]⟩], false, []⟩, ⟨[⟨"a", ["b", "c"]⟩], false, []⟩]).keys =
    [⟨"a", ["b\x00c"]⟩] := by decide

end Reads

end LiveTemplate
