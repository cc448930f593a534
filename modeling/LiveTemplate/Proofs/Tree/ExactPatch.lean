import LiveTemplate.Proofs.Tree.Comparison
import LiveTemplate.Proofs.Tree.Parts

/-!
Exact patches: on every level a patch lists what differs and nothing else. Edits are made along a
list, one for each item that does not stay as it is.
-/

namespace LiveTemplate

set_option autoImplicit false

/-! ### Exact patches -/

/-- Edits stand at certain places, each at a place of its own. -/
def Lists {β : Type} (edits : List (Nat × β)) (places : Nat → Prop) : Prop :=
  (edits.map Prod.fst).Pairwise (· < ·) ∧ ∀ i, i ∈ edits.map Prod.fst ↔ places i

/-- Items of two lists that stand at one place. -/
def Paired {α : Type} (before after : List α) (i : Nat) (x y : α) : Prop :=
  before[i]? = some x ∧ after[i]? = some y

/-- A row with the row that had its key before. -/
def PairedByKey (before after : List Row) (i : Nat) (r q : Row) : Prop :=
  r ∈ before ∧ after[i]? = some q ∧ r.key? = q.key?

/-- The places of paired items that are not the same. -/
def Changed {α : Type} (paired : Nat → α → α → Prop) (same : α → α → Prop) (i : Nat) : Prop :=
  ∃ x y, paired i x y ∧ ¬ same x y

mutual

/-- The patch between two trees lists the dynamics that differ; it is full when the shapes do. -/
def TreePatch.Exact : TreePatch → Tree → Tree → Prop
  | .full statics root slots, t, u =>
    t.fingerprint ≠ u.fingerprint ∧ TreePatch.full statics root slots = u.full
  | .edit slots, t, u =>
    t.fingerprint = u.fingerprint ∧
      Lists slots (Changed (Paired t.dynamics u.dynamics) Dynamic.Same) ∧
      SlotPatch.ExactAt slots t.dynamics u.dynamics

def SlotPatch.Exact : SlotPatch → Content → Content → Prop
  | .text s, _, c => c = .text s
  | .component cid, _, c => c = .component cid
  | .tree patch, b, c =>
    match b, c with
    | .nested t, .nested u => TreePatch.Exact patch t u
    | _, .nested u => patch = u.full
    | _, _ => False
  | .list patch, b, c =>
    match b, c with
    | .list ts, .list us => ListPatch.Exact patch ts us
    | _, .list us => patch = .full (Tree.allFull us)
    | _, _ => False
  | .rows patch, b, c =>
    match b, c with
    | .rows f _ rs, .rows f' s' qs =>
      if f = f' then RowsPatch.Exact patch rs qs else patch = .full (some s') (Row.allFull qs)
    | _, .rows _ s' qs => patch = .full (some s') (Row.allFull qs)
    | _, _ => False

/-- The patch between two lists lists the trees that differ; it is full when the shapes do. -/
def ListPatch.Exact : ListPatch → List Tree → List Tree → Prop
  | .full trees, before, after => sameShapes before after = false ∧ trees = Tree.allFull after
  | .edit trees, before, after =>
    sameShapes before after = true ∧ Lists trees (Changed (Paired before after) Tree.Same) ∧
      TreePatch.ExactAt trees before after

/-- The patch between the rows of one loop. A keyed one removes the rows whose key is gone, inserts
those whose key is new and changes those that are kept and differ. -/
def RowsPatch.Exact : RowsPatch → List Row → List Row → Prop
  | .full statics rows, before, after =>
    areKeyed before after = false ∧ before.length ≠ after.length ∧ statics = none ∧
      rows = Row.allFull after
  | .edit rows, before, after =>
    areKeyed before after = false ∧ before.length = after.length ∧
      Lists rows (Changed (Paired before after) Row.Same) ∧
      SlotPatch.ExactRows rows (Paired before after)
  | .keyed removes _ inserts updates, before, after =>
    areKeyed before after = true ∧
      removes.Pairwise (· < ·) ∧
      (∀ i, i ∈ removes ↔ ∃ r, before[i]? = some r ∧ ∀ q ∈ after, q.key? ≠ r.key?) ∧
      Lists inserts (fun i => ∃ q, after[i]? = some q ∧ ∀ r ∈ before, r.key? ≠ q.key?) ∧
      (∀ i row, (i, row) ∈ inserts → ∃ q, after[i]? = some q ∧ row = q.full) ∧
      Lists updates (Changed (PairedByKey before after) Row.Same) ∧
      SlotPatch.ExactRows updates (PairedByKey before after)

/-- Each edit is exact between the dynamics at its place. -/
def SlotPatch.ExactAt : List (Nat × SlotPatch) → List Dynamic → List Dynamic → Prop
  | [], _, _ => True
  | (i, patch) :: rest, before, after =>
    (∃ d e, Paired before after i d e ∧ SlotPatch.Exact patch d.content e.content) ∧
      SlotPatch.ExactAt rest before after

def TreePatch.ExactAt : List (Nat × TreePatch) → List Tree → List Tree → Prop
  | [], _, _ => True
  | (i, patch) :: rest, before, after =>
    (∃ t u, Paired before after i t u ∧ TreePatch.Exact patch t u) ∧
      TreePatch.ExactAt rest before after

def SlotPatch.ExactRows :
    List (Nat × List (Nat × SlotPatch)) → (Nat → Row → Row → Prop) → Prop
  | [], _ => True
  | (i, edits) :: rest, paired =>
    (∃ r q, paired i r q ∧ Lists edits (Changed (Paired r.dynamics q.dynamics) Dynamic.Same) ∧
      SlotPatch.ExactAt edits r.dynamics q.dynamics) ∧
      SlotPatch.ExactRows rest paired

end

/-- What a comparison of two trees must come to. -/
def TreePatch.ExactFor (patch : Option TreePatch) (t u : Tree) : Prop :=
  (patch = none ↔ t.Same u) ∧ ∀ p, patch = some p → p.Exact t u

def SlotPatch.ExactFor (patch : Option SlotPatch) (b c : Content) : Prop :=
  (patch = none ↔ b.Same c) ∧ ∀ p, patch = some p → p.Exact b c

/-! ### Lists of edits -/

/-- Edits of items from a place on: one for each item that does not stay, none for the others. -/
inductive EditsOf {α β : Type} (stays : α → Prop) (exact : α → β → Prop) :
    Nat → List α → List (Nat × β) → Prop where
  | nil (n : Nat) : EditsOf stays exact n [] []
  | keep {n : Nat} {x : α} {xs : List α} {edits : List (Nat × β)} (hx : stays x)
    (hr : EditsOf stays exact (n + 1) xs edits) : EditsOf stays exact n (x :: xs) edits
  | edit {n : Nat} {x : α} {xs : List α} {edit : β} {edits : List (Nat × β)} (hx : ¬ stays x)
    (he : exact x edit) (hr : EditsOf stays exact (n + 1) xs edits) :
    EditsOf stays exact n (x :: xs) ((n, edit) :: edits)

namespace EditsOf

variable {α β : Type} {stays : α → Prop} {exact : α → β → Prop} {n : Nat} {items : List α}
  {edits : List (Nat × β)}

theorem eq_nil_iff (h : EditsOf stays exact n items edits) :
    edits = [] ↔ ∀ x ∈ items, stays x := by
  induction h with
  | nil n => simp
  | keep hx _ ih => simp [ih, hx]
  | edit hx _ _ _ => simp [hx]

theorem of_mem (h : EditsOf stays exact n items edits) {i : Nat} {edit : β}
    (he : (i, edit) ∈ edits) :
    ∃ k x, i = n + k ∧ items[k]? = some x ∧ ¬ stays x ∧ exact x edit := by
  induction h with
  | nil n => cases he
  | keep _ _ ih =>
    obtain ⟨k, x, hi, hk, hx⟩ := ih he
    exact ⟨k + 1, x, by omega, by simpa using hk, hx⟩
  | edit hx hexact _ ih =>
    rcases List.mem_cons.mp he with heq | he
    · cases heq
      exact ⟨0, _, rfl, rfl, hx, hexact⟩
    · obtain ⟨k, x, hi, hk, hx⟩ := ih he
      exact ⟨k + 1, x, by omega, by simpa using hk, hx⟩

theorem mem_of_not_stays (h : EditsOf stays exact n items edits) {k : Nat} {x : α}
    (hk : items[k]? = some x) (hx : ¬ stays x) : n + k ∈ edits.map Prod.fst := by
  induction h generalizing k with
  | nil n => simp at hk
  | keep hy _ ih =>
    cases k with
    | zero => exact absurd (Option.some.inj hk ▸ hy) hx
    | succ k =>
      have := ih (k := k) (by simpa using hk)
      rwa [Nat.add_right_comm] at this
  | edit _ _ _ ih =>
    cases k with
    | zero => simp
    | succ k =>
      have := ih (k := k) (by simpa using hk)
      rw [Nat.add_right_comm] at this
      exact List.mem_cons_of_mem _ this

theorem sorted (h : EditsOf stays exact n items edits) :
    (edits.map Prod.fst).Pairwise (· < ·) := by
  induction h with
  | nil n => exact .nil
  | keep _ _ ih => exact ih
  | edit _ _ hr ih =>
    refine List.pairwise_cons.mpr ⟨?_, ih⟩
    intro i hi
    obtain ⟨⟨j, e⟩, hm, rfl⟩ := List.mem_map.mp hi
    obtain ⟨k, x, hj, -⟩ := hr.of_mem hm
    simp only at hj ⊢
    omega

theorem lists (h : EditsOf stays exact 0 items edits) :
    Lists edits fun i => ∃ x, items[i]? = some x ∧ ¬ stays x := by
  refine ⟨h.sorted, fun i => ⟨fun hi => ?_, ?_⟩⟩
  · obtain ⟨⟨j, e⟩, hm, rfl⟩ := List.mem_map.mp hi
    obtain ⟨k, x, hj, hk, hx, -⟩ := h.of_mem hm
    refine ⟨x, ?_, hx⟩
    simpa [hj] using hk
  · rintro ⟨x, hk, hx⟩
    simpa using h.mem_of_not_stays hk hx

theorem consEdit {x : α} {patch : Option β} (hnone : patch = none ↔ stays x)
    (hsome : ∀ p, patch = some p → exact x p) (hr : EditsOf stays exact (n + 1) items edits) :
    EditsOf stays exact n (x :: items) (LiveTemplate.consEdit n patch edits) := by
  cases patch with
  | none => exact .keep (hnone.mp rfl) hr
  | some p => exact .edit (fun hx => by simpa using hnone.mpr hx) (hsome p rfl) hr

theorem consEdits {γ : Type} {x : α} {exact : α → List γ → Prop} {edit : List γ}
    {edits : List (Nat × List γ)} (hnil : edit = [] ↔ stays x) (he : exact x edit)
    (hr : EditsOf stays exact (n + 1) items edits) :
    EditsOf stays exact n (x :: items) (if edit.isEmpty then edits else (n, edit) :: edits) := by
  split
  · rename_i h
    exact .keep (hnil.mp (List.isEmpty_iff.mp h)) hr
  · rename_i h
    exact .edit (fun hx => h (List.isEmpty_iff.mpr (hnil.mpr hx))) he hr

end EditsOf

theorem changed_paired_iff {α : Type} {before after : List α} {same : α → α → Prop} {i : Nat} :
    Changed (Paired before after) same i ↔
      ∃ x, (before.zip after)[i]? = some x ∧ ¬ same x.1 x.2 := by
  constructor
  · rintro ⟨x, y, hp, hs⟩
    exact ⟨(x, y), List.getElem?_zip_eq_some.mpr hp, hs⟩
  · rintro ⟨⟨x, y⟩, hz, hs⟩
    exact ⟨x, y, List.getElem?_zip_eq_some.mp hz, hs⟩

theorem forall_zip_iff {α β : Type} {f : α → β} {before after : List α}
    (hl : before.length = after.length) :
    (∀ x ∈ before.zip after, f x.1 = f x.2) ↔ before.map f = after.map f := by
  induction before generalizing after with
  | nil =>
    cases after with
    | nil => simp
    | cons y ys => simp at hl
  | cons x xs ih =>
    cases after with
    | nil => simp at hl
    | cons y ys =>
      have hrest : (∀ a b, (a, b) ∈ xs.zip ys → f a = f b) ↔ xs.map f = ys.map f := by
        simpa using ih (Nat.succ.inj hl)
      simp only [List.zip_cons_cons, List.mem_cons, forall_eq_or_imp, Prod.forall, hrest,
        List.map_cons, List.cons.injEq]

/-- Edits of items that are paired place by place. -/
abbrev EditsOfPairs {α β : Type} (same : α → α → Prop) (exact : β → α → α → Prop) (n : Nat)
    (before after : List α) (edits : List (Nat × β)) : Prop :=
  EditsOf (fun x : α × α => same x.1 x.2) (fun x p => exact p x.1 x.2) n (before.zip after) edits

theorem EditsOf.lists_pairs {α β : Type} {same : α → α → Prop} {exact : β → α → α → Prop}
    {before after : List α} {edits : List (Nat × β)}
    (h : EditsOfPairs same exact 0 before after edits) :
    Lists edits (Changed (Paired before after) same) :=
  ⟨h.lists.1, fun i => (h.lists.2 i).trans changed_paired_iff.symm⟩

theorem EditsOf.of_mem_pairs {α β : Type} {same : α → α → Prop} {exact : β → α → α → Prop}
    {before after : List α} {edits : List (Nat × β)}
    (h : EditsOfPairs same exact 0 before after edits) {i : Nat} {edit : β}
    (he : (i, edit) ∈ edits) : ∃ x y, Paired before after i x y ∧ exact edit x y := by
  obtain ⟨k, ⟨x, y⟩, hi, hk, -, hx⟩ := h.of_mem he
  rw [Nat.zero_add] at hi
  exact ⟨x, y, hi ▸ List.getElem?_zip_eq_some.mp hk, hx⟩

theorem SlotPatch.exactAt_of_mem {edits : List (Nat × SlotPatch)} {before after : List Dynamic}
    (h : ∀ {i p}, (i, p) ∈ edits →
      ∃ d e, Paired before after i d e ∧ SlotPatch.Exact p d.content e.content) :
    SlotPatch.ExactAt edits before after := by
  induction edits with
  | nil => trivial
  | cons edit rest ih =>
    exact ⟨h List.mem_cons_self, ih fun he => h (List.mem_cons_of_mem edit he)⟩

theorem TreePatch.exactAt_of_mem {edits : List (Nat × TreePatch)} {before after : List Tree}
    (h : ∀ {i p}, (i, p) ∈ edits → ∃ t u, Paired before after i t u ∧ TreePatch.Exact p t u) :
    TreePatch.ExactAt edits before after := by
  induction edits with
  | nil => trivial
  | cons edit rest ih =>
    exact ⟨h List.mem_cons_self, ih fun he => h (List.mem_cons_of_mem edit he)⟩

/-- What the edits of one row must be. -/
def SlotPatch.ExactRow (edits : List (Nat × SlotPatch)) (r q : Row) : Prop :=
  Lists edits (Changed (Paired r.dynamics q.dynamics) Dynamic.Same) ∧
    SlotPatch.ExactAt edits r.dynamics q.dynamics

theorem SlotPatch.exactRows_of_mem {edits : List (Nat × List (Nat × SlotPatch))}
    {paired : Nat → Row → Row → Prop}
    (h : ∀ {i row}, (i, row) ∈ edits → ∃ r q, paired i r q ∧ SlotPatch.ExactRow row r q) :
    SlotPatch.ExactRows edits paired := by
  induction edits with
  | nil => trivial
  | cons edit rest ih =>
    exact ⟨h List.mem_cons_self, ih fun he => h (List.mem_cons_of_mem edit he)⟩

end LiveTemplate
