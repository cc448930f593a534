import LiveTemplate.Proofs.Tree.Moves

/-!
No plan of moves is shorter. The piles hold the least ends of increasing subsequences, so that the
subsequence that is found is a longest one; and whatever is moved, the items that no move took out
stay in order, so that as many moves are needed as there are items outside of such a subsequence.
-/

namespace LiveTemplate.Move

set_option autoImplicit false

universe u v

/-! ### Longest increasing subsequences -/

/-- Each value of a list stands at or above the top in its place. -/
def Above : List Int → List Int → Prop
  | _, [] => True
  | [], _ :: _ => False
  | top :: tops, value :: values => top ≤ value ∧ Above tops values

theorem above_nil (tops : List Int) : Above tops [] := by
  cases tops <;> trivial

theorem Above.length_le {tops values : List Int} (h : Above tops values) :
    values.length ≤ tops.length := by
  induction values generalizing tops with
  | nil => exact Nat.zero_le _
  | cons value rest ih =>
    cases tops with
    | nil => exact h.elim
    | cons top tops => exact Nat.succ_le_succ (ih h.2)

/-- Placing a value lowers at most one top, and none below the value. -/
theorem Above.place {piles : Piles} {values : List Int} (value : Int) (index : Nat)
    (before : List Nat) (h : Above (piles.map Prod.fst) values) :
    Above ((Move.place value index before piles).map Prod.fst) values := by
  induction values generalizing before piles with
  | nil => exact above_nil _
  | cons other rest ih =>
    cases piles with
    | nil => exact h.elim
    | cons p piles =>
      unfold Move.place
      split
      · exact ⟨h.1, ih p.2 h.2⟩
      · rename_i hle
        exact ⟨Int.le_trans (Int.not_lt.mp hle) h.1, h.2⟩

/-- A value goes on the first pile that it can end behind smaller values. -/
theorem Above.place_behind {piles : Piles} {values : List Int} {value : Int} (index : Nat)
    (before : List Nat) (h : Above (piles.map Prod.fst) values) (hlt : ∀ x ∈ values, x < value) :
    Above ((Move.place value index before piles).map Prod.fst) (values ++ [value]) := by
  induction values generalizing before piles with
  | nil =>
    cases piles with
    | nil => exact ⟨Int.le_refl _, above_nil _⟩
    | cons p piles =>
      unfold Move.place
      split
      · rename_i hbelow
        exact ⟨Int.le_of_lt hbelow, above_nil _⟩
      · exact ⟨Int.le_refl _, above_nil _⟩
  | cons other rest ih =>
    cases piles with
    | nil => exact h.elim
    | cons p piles =>
      have hbelow : p.1 < value := Int.lt_of_le_of_lt h.1 (hlt other List.mem_cons_self)
      rw [Move.place, if_pos hbelow]
      exact ⟨h.1, ih p.2 h.2 fun x hx => hlt x (List.mem_cons_of_mem other hx)⟩

/-- No increasing subsequence of some values ends below the top of the pile of its length. -/
def Least (values : List Int) (piles : Piles) : Prop :=
  ∀ chosen : List Int, chosen.Sublist values → chosen.Pairwise (· < ·) →
    Above (piles.map Prod.fst) chosen

theorem Least.place {values : List Int} {piles : Piles} (h : Least values piles) (value : Int)
    (index : Nat) (before : List Nat) :
    Least (values ++ [value]) (Move.place value index before piles) := by
  intro chosen hsub hinc
  obtain ⟨front, last, rfl, hfront, hlast⟩ := List.sublist_append_iff.mp hsub
  have hinc' := List.pairwise_append.mp hinc
  rcases List.sublist_singleton.mp hlast with rfl | rfl
  · rw [List.append_nil]
    exact (h front hfront hinc'.1).place value index before
  · exact (h front hfront hinc'.1).place_behind index before fun x hx =>
      hinc'.2.2 x hx value List.mem_cons_self

theorem Least.pile {done : List Int} {piles : Piles} (h : Least done piles) (rest : List Int)
    (index : Nat) : Least (done ++ rest) (Move.pile rest index piles) := by
  induction rest generalizing done piles index with
  | nil => simpa [Move.pile] using h
  | cons value rest ih =>
    have hplaced := ih (h.place value index []) (index + 1)
    rwa [List.append_assoc, List.singleton_append] at hplaced

/-- The chains of piles are one longer from pile to pile. -/
def Rising : Nat → Piles → Prop
  | _, [] => True
  | n, p :: rest => p.2.length = n + 1 ∧ Rising (n + 1) rest

theorem Rising.place {n : Nat} {piles : Piles} {before : List Nat} (h : Rising n piles)
    (hb : before.length = n) (value : Int) (index : Nat) :
    Rising n (Move.place value index before piles) := by
  induction piles generalizing n before with
  | nil => exact ⟨congrArg (· + 1) hb, trivial⟩
  | cons p rest ih =>
    unfold Move.place
    split
    · exact ⟨h.1, ih h.2 h.1⟩
    · exact ⟨congrArg (· + 1) hb, h.2⟩

theorem Rising.pile {piles : Piles} (h : Rising 0 piles) (values : List Int) (index : Nat) :
    Rising 0 (Move.pile values index piles) := by
  induction values generalizing piles index with
  | nil => exact h
  | cons value rest ih => exact ih (h.place rfl value index) (index + 1)

theorem Rising.length_lastChain {piles : Piles} {n : Nat} (h : Rising n piles) (hne : piles ≠ []) :
    (lastChain piles).length = n + piles.length := by
  induction piles generalizing n with
  | nil => exact absurd rfl hne
  | cons p rest ih =>
    cases rest with
    | nil => simpa [lastChain] using h.1
    | cons q rest =>
      have hlast : lastChain (p :: q :: rest) = lastChain (q :: rest) := by simp [lastChain]
      rw [hlast, ih h.2 (by simp)]
      simp only [List.length_cons]
      omega

theorem length_longestIncreasing (values : List Int) :
    (longestIncreasing values).length = (pile values 0 []).length := by
  rw [longestIncreasing_eq, List.length_reverse]
  by_cases hne : pile values 0 [] = []
  · simp [hne, lastChain]
  · have hnil : Rising 0 [] := trivial
    rw [(hnil.pile values 0).length_lastChain hne, Nat.zero_add]

/-- No increasing subsequence is longer than the one that is found. -/
theorem length_le_longestIncreasing {values chosen : List Int} (hsub : chosen.Sublist values)
    (hinc : chosen.Pairwise (· < ·)) : chosen.length ≤ (longestIncreasing values).length := by
  have hnil : Least [] [] := by
    intro chosen hsub _
    rw [List.sublist_nil.mp hsub]
    exact above_nil _
  have habove := (hnil.pile values 0 chosen hsub hinc).length_le
  rwa [List.length_map, ← length_longestIncreasing] at habove

/-! ### The number of planned moves -/

section Keys
variable {κ : Type u} [DecidableEq κ]

/-- Every key that does not stay is moved once. -/
theorem length_planAfter (stable rest working : List κ) (before : Option κ) :
    (planAfter stable before rest working).length =
      (rest.filter (· ∉ stable)).length := by
  induction rest generalizing before working with
  | nil => rfl
  | cons key rest ih =>
    unfold planAfter
    split
    · rename_i hstays
      rw [ih, List.filter_cons_of_neg (by simpa using hstays)]
    · rename_i hmoves
      rw [List.length_cons, ih, List.filter_cons_of_pos (by simpa using hmoves), List.length_cons]

variable {current target : List κ}

theorem length_stableKeys :
    (stableKeys current target).length =
      (longestIncreasing (target.map fun key => lastIndexOf key current)).length := by
  have hall : ∀ i ∈ longestIncreasing (target.map fun key => lastIndexOf key current),
      (target[i]?).isSome := by
    intro i hi
    have hlt := longestIncreasing_lt _ i hi
    rw [List.length_map] at hlt
    simp [hlt]
  rw [stableKeys, List.length_filterMap_eq_countP, List.countP_eq_length.mpr hall]

/-- As many moves are planned as there are keys that do not stay. -/
theorem length_plan (hp : current.Perm target) (hn : target.Nodup) :
    (plan current target).length + (stableKeys current target).length = target.length := by
  have hs := stableKeys_increase (hp.nodup_iff.mpr hn) hn fun a ha => hp.mem_iff.mpr ha
  have hstays : target.filter (· ∈ stableKeys current target) = stableKeys current target :=
    filter_mem_eq hn (hs.imp fun h => h.1) fun a ha => mem_of_mem_stableKeys ha
  have hsplit := List.length_eq_length_filter_add (l := target)
    fun key => decide (key ∈ stableKeys current target)
  rw [hstays] at hsplit
  have hmoved : (plan current target).length =
      (target.filter fun key => !decide (key ∈ stableKeys current target)).length := by
    rw [plan, length_planAfter]
    simp
  omega

/-- Keys in one order in both lists are at most as many as the keys that stay. -/
theorem length_le_stableKeys {kept : List κ} (hp : current.Perm target) (hn : target.Nodup)
    (hc : kept.Sublist current) (ht : kept.Sublist target) :
    kept.length ≤ (stableKeys current target).length := by
  have hcn : current.Nodup := hp.nodup_iff.mpr hn
  have hinc : (kept.map fun key => lastIndexOf key current).Pairwise (· < ·) := by
    refine List.pairwise_map.mpr (List.Pairwise.imp_of_mem ?_ ((pairwise_idxOf hcn).sublist hc))
    intro a b ha hb hab
    rw [lastIndexOf_eq_idxOf hcn (hc.subset ha), lastIndexOf_eq_idxOf hcn (hc.subset hb)]
    exact Int.ofNat_lt.mpr hab
  have hlength : (kept.map fun key => lastIndexOf key current).length = kept.length :=
    List.length_map _
  rw [length_stableKeys, ← hlength]
  exact length_le_longestIncreasing (ht.map _) hinc

end Keys

/-! ### What moves leave in order -/

section Items
variable {α : Type v}

theorem sublist_putIn (i : Int) (item : α) (items : List α) :
    items.Sublist (putIn i item items) := by
  have h : (items.take (offset i items.length) ++ items.drop (offset i items.length)).Sublist
      (items.take (offset i items.length) ++ item :: items.drop (offset i items.length)) :=
    (List.Sublist.refl _).append (List.sublist_cons_self _ _)
  rwa [List.take_append_drop] at h

/-- Taking one item out costs items in order at most one of them. -/
theorem exists_sublist_eraseIdx {kept items : List α} (h : kept.Sublist items) (i : Nat) :
    ∃ left : List α, left.Sublist kept ∧ left.Sublist (items.eraseIdx i) ∧
      kept.length ≤ left.length + 1 := by
  induction h generalizing i with
  | slnil => exact ⟨[], .slnil, List.nil_sublist _, Nat.zero_le _⟩
  | @cons kept items item h ih =>
    cases i with
    | zero => exact ⟨kept, .refl _, h, Nat.le_succ _⟩
    | succ i =>
      obtain ⟨left, hk, hi, hlen⟩ := ih i
      exact ⟨left, hk, hi.cons item, hlen⟩
  | @cons_cons kept items item h ih =>
    cases i with
    | zero => exact ⟨kept, List.sublist_cons_self _ _, h, Nat.le_refl _⟩
    | succ i =>
      obtain ⟨left, hk, hi, hlen⟩ := ih i
      exact ⟨item :: left, hk.cons_cons item, hi.cons_cons item, Nat.succ_le_succ hlen⟩

theorem exists_sublist_apply {kept items : List α} (h : kept.Sublist items) (move : Move) :
    ∃ left : List α, left.Sublist kept ∧ left.Sublist (apply items move) ∧
      kept.length ≤ left.length + 1 := by
  unfold apply
  split
  · exact ⟨kept, .refl _, h, Nat.le_succ _⟩
  · rename_i item _
    obtain ⟨left, hk, hi, hlen⟩ := exists_sublist_eraseIdx h (offset move.source items.length)
    exact ⟨left, hk, hi.trans (sublist_putIn move.target item _), hlen⟩

/-- Of items in order, moves leave all in order but one for each move. -/
theorem exists_sublist_applyAll {kept items : List α} (h : kept.Sublist items)
    (moves : List Move) :
    ∃ left : List α, left.Sublist kept ∧ left.Sublist (applyAll items moves) ∧
      kept.length ≤ left.length + moves.length := by
  induction moves generalizing kept items with
  | nil => exact ⟨kept, .refl _, h, Nat.le_refl _⟩
  | cons move rest ih =>
    obtain ⟨once, hk, hi, hlen⟩ := exists_sublist_apply h move
    obtain ⟨left, hl, hr, hlen'⟩ := ih hi
    refine ⟨left, hl.trans hk, hr, ?_⟩
    rw [List.length_cons]
    omega

/-- A move that takes out an item that is there and puts it at a place of the list without it. -/
def Fits (items : List α) (move : Move) : Prop :=
  (0 ≤ move.source ∧ move.source < items.length) ∧ 0 ≤ move.target ∧ move.target < items.length

/-- Every move fits the list that the moves before it have made. -/
def AllFit : List α → List Move → Prop
  | _, [] => True
  | items, move :: rest => Fits items move ∧ AllFit (apply items move) rest

end Items

section Keys
variable {κ : Type u} [DecidableEq κ]

theorem indexOf_bounds (key : κ) (keys : List κ) :
    -1 ≤ indexOf key keys ∧ indexOf key keys < keys.length := by
  unfold indexOf
  split
  · rename_i i hi
    have hlt := (List.findIdx?_eq_some_iff_getElem.mp hi).1
    omega
  · omega

theorem allFit_planAfter {stable rest working : List κ} (before : Option κ)
    (hsub : ∀ key ∈ rest, key ∈ working) :
    AllFit working (planAfter stable before rest working) := by
  induction rest generalizing before working with
  | nil => trivial
  | cons key rest ih =>
    have hrest : ∀ a ∈ rest, a ∈ working := fun a ha => hsub a (List.mem_cons_of_mem key ha)
    unfold planAfter
    split
    · exact ih (some key) hrest
    · obtain ⟨left, right, rfl, hl⟩ := List.eq_append_cons_of_mem (hsub key List.mem_cons_self)
      simp only [indexOf_append_cons hl, takeOut_natCast]
      refine ⟨⟨?_, ?_⟩, ?_⟩
      · simp only [List.length_append, List.length_cons]
        omega
      · cases before with
        | none => exact ⟨Int.le_refl 0, by simp; omega⟩
        | some k =>
          have hb := indexOf_bounds k (left ++ right)
          rw [List.length_append] at hb
          simp only [List.length_append, List.length_cons]
          omega
      · rw [apply_natCast]
        refine ih (some key) fun a ha => (putIn_perm _ _ _).mem_iff.mpr ?_
        exact List.perm_middle.mem_iff.mp (hrest a ha)

/-- Planned moves lead to the target, each is made within the list at its time, and no moves
that lead there are fewer. -/
theorem plan_fewest {current target : List κ} (hp : current.Perm target) (hn : target.Nodup) :
    applyAll current (plan current target) = target ∧
      AllFit current (plan current target) ∧
      ∀ moves : List Move, applyAll current moves = target →
        (plan current target).length ≤ moves.length := by
  refine ⟨applyAll_plan hp hn, allFit_planAfter none fun key hk => hp.mem_iff.mpr hk, ?_⟩
  intro moves hmoves
  obtain ⟨left, hc, ht, hlen⟩ := exists_sublist_applyAll (List.Sublist.refl current) moves
  rw [hmoves] at ht
  have hstays := length_le_stableKeys hp hn hc ht
  have hplan := length_plan hp hn
  have hsame := hp.length_eq
  omega

/-- Two ends that change places cost two moves, and no fewer. -/
theorem swapped_ends_plan_fewest :
    plan [1, 2, 3, 4, 5] [5, 2, 3, 4, 1] = [⟨4, 0⟩, ⟨1, 4⟩] ∧
      ∀ moves : List Move, applyAll [1, 2, 3, 4, 5] moves = [5, 2, 3, 4, 1] → 2 ≤ moves.length := by
  have hplan : plan [1, 2, 3, 4, 5] [5, 2, 3, 4, 1] = [⟨4, 0⟩, ⟨1, 4⟩] := by decide
  have hperm : [1, 2, 3, 4, 5].Perm [5, 2, 3, 4, 1] := by decide
  have hfewest := plan_fewest hperm (by decide)
  rw [hplan] at hfewest
  exact ⟨hplan, hfewest.2.2⟩

end Keys

end LiveTemplate.Move
