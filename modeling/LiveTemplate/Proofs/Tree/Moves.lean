import LiveTemplate.Tree.Moves
import Mathlib.Data.List.Nodup
import Mathlib.Data.List.Perm.Basic

/-!
Planned moves do what they are planned for. Keys that stay form a common subsequence of both
orders; after each move the keys placed so far and the keys that stay are in their final order, so
that at the end all of them are.
-/

namespace LiveTemplate.Move

set_option autoImplicit false

universe u v

/-! ### Increasing subsequences -/

/-- Indices from the last to the first, with values that descend along them. -/
def Descends (values : List Int) (chain : List Nat) : Prop :=
  chain.Pairwise fun i j => j < i ∧ ∃ x y, values[i]? = some x ∧ values[j]? = some y ∧ y < x

/-- The chain of a pile ends in the value on its top. -/
def EndsIn (values : List Int) (top : Int) (chain : List Nat) : Prop :=
  ∃ i rest, chain = i :: rest ∧ values[i]? = some top ∧ Descends values chain

theorem descends_cons {values : List Int} {top value : Int} {chain : List Nat} {n : Nat}
    (hv : values[n]? = some value) (hc : EndsIn values top chain) (hlt : top < value)
    (hn : ∀ i ∈ chain, i < n) : Descends values (n :: chain) := by
  obtain ⟨i, rest, rfl, hi, hd⟩ := hc
  refine List.pairwise_cons.mpr ⟨?_, hd⟩
  intro j hj
  refine ⟨hn j hj, ?_⟩
  rcases List.mem_cons.mp hj with rfl | hj
  · exact ⟨value, top, hv, hi, hlt⟩
  · obtain ⟨-, x, y, hx, hy, hyx⟩ := (List.pairwise_cons.mp hd).1 j hj
    have hxt : top = x := Option.some.inj (hi.symm.trans hx)
    exact ⟨value, y, hv, hy, by omega⟩

/-- What holds of each pile while values are placed: its chain ends in its top, and all indices of
it have been placed. -/
def Sound (values : List Int) (n : Nat) (piles : Piles) : Prop :=
  ∀ p ∈ piles, EndsIn values p.1 p.2 ∧ ∀ i ∈ p.2, i < n

theorem endsIn_cons {values : List Int} {value : Int} {n : Nat} {before : List Nat}
    (hv : values[n]? = some value) (hb : ∀ i ∈ before, i < n) (hd : Descends values (n :: before)) :
    EndsIn values value (n :: before) ∧ ∀ i ∈ n :: before, i < n + 1 := by
  refine ⟨⟨n, before, rfl, hv, hd⟩, ?_⟩
  intro i hi
  rcases List.mem_cons.mp hi with rfl | hi
  · omega
  · exact Nat.lt_succ_of_lt (hb i hi)

theorem sound_succ {values : List Int} {n : Nat} {piles : Piles} (hp : Sound values n piles) :
    Sound values (n + 1) piles :=
  fun p hpm => ⟨(hp p hpm).1, fun i hi => Nat.lt_succ_of_lt ((hp p hpm).2 i hi)⟩

theorem sound_place {values : List Int} {value : Int} {n : Nat} {piles : Piles}
    (before : List Nat) (hv : values[n]? = some value) (hp : Sound values n piles)
    (hb : ∀ i ∈ before, i < n) (hd : Descends values (n :: before)) :
    Sound values (n + 1) (place value n before piles) := by
  induction piles generalizing before with
  | nil =>
    intro p hpm
    rw [List.mem_singleton.mp hpm]
    exact endsIn_cons hv hb hd
  | cons q rest ih =>
    have hq := hp q List.mem_cons_self
    have hrest : Sound values n rest := fun p hpm => hp p (List.mem_cons_of_mem q hpm)
    unfold place
    split
    · rename_i hlt
      intro p hpm
      rcases List.mem_cons.mp hpm with rfl | hpm
      · exact sound_succ hp _ List.mem_cons_self
      · exact ih q.2 hrest hq.2 (descends_cons hv hq.1 hlt hq.2) p hpm
    · intro p hpm
      rcases List.mem_cons.mp hpm with rfl | hpm
      · exact endsIn_cons hv hb hd
      · exact sound_succ hp p (List.mem_cons_of_mem q hpm)

theorem sound_pile {values rest : List Int} (done : List Int) {piles : Piles} (h : values = done ++ rest)
    (hp : Sound values done.length piles) :
    Sound values values.length (pile rest done.length piles) := by
  induction rest generalizing done piles with
  | nil => simpa [pile, h] using hp
  | cons value rest ih =>
    have hv : values[done.length]? = some value := by simp [h]
    have hd : Descends values [done.length] := List.pairwise_singleton _ _
    have hplaced := sound_place [] hv hp (by simp) hd
    have hlen : (done ++ [value]).length = done.length + 1 := by simp
    rw [← hlen] at hplaced
    rw [pile, ← hlen]
    exact ih (done ++ [value]) (by simp [h]) hplaced

/-- The indices found are indices of the list, and the values at them increase. -/
theorem longestIncreasing_increases (values : List Int) :
    (longestIncreasing values).Pairwise fun i j =>
      i < j ∧ ∃ x y, values[i]? = some x ∧ values[j]? = some y ∧ x < y := by
  have hs : Sound values values.length (pile values 0 []) :=
    sound_pile [] rfl (by simp [Sound])
  unfold longestIncreasing
  split
  · rename_i top chain hlast
    obtain ⟨⟨_, _, _, _, hd⟩, -⟩ := hs _ (List.mem_of_getLast? hlast)
    refine List.pairwise_reverse.mpr (hd.imp ?_)
    rintro i j ⟨hlt, x, y, hx, hy, hyx⟩
    exact ⟨hlt, y, x, hy, hx, hyx⟩
  · exact .nil

theorem longestIncreasing_lt (values : List Int) :
    ∀ i ∈ longestIncreasing values, i < values.length := by
  have hs : Sound values values.length (pile values 0 []) :=
    sound_pile [] rfl (by simp [Sound])
  unfold longestIncreasing
  split
  · rename_i top chain hlast
    intro i hi
    exact (hs _ (List.mem_of_getLast? hlast)).2 i (List.mem_reverse.mp hi)
  · simp

/-! ### Keys that stay -/

section Keys
variable {κ : Type u} [DecidableEq κ]

theorem indexOf_append_cons {key : κ} {left right : List κ} (h : key ∉ left) :
    indexOf key (left ++ key :: right) = left.length := by
  have hl : left.findIdx? (· = key) = none := by
    rw [List.findIdx?_eq_none_iff]
    intro x hx
    exact decide_eq_false fun he => h (he ▸ hx)
  simp [indexOf, List.findIdx?_append, hl, List.findIdx?_cons]

theorem lastIndexOf_append_cons {key : κ} {left right : List κ} (h : key ∉ right) :
    lastIndexOf key (left ++ key :: right) = left.length := by
  have hr : right.reverse.findIdx? (· = key) = none := by
    rw [List.findIdx?_eq_none_iff]
    intro x hx
    exact decide_eq_false fun he => h (he ▸ List.mem_reverse.mp hx)
  simp only [lastIndexOf, List.reverse_append, List.reverse_cons, List.append_assoc,
    List.singleton_append, List.findIdx?_append, hr, List.findIdx?_cons, decide_true, if_true,
    Option.map_some, Option.none_or, List.length_append, List.length_cons, List.length_reverse]
  push_cast
  omega

theorem lastIndexOf_eq_idxOf {key : κ} {keys : List κ} (hn : keys.Nodup) (hm : key ∈ keys) :
    lastIndexOf key keys = keys.idxOf key := by
  obtain ⟨left, right, rfl, hl⟩ := List.eq_append_cons_of_mem hm
  have hr : key ∉ right := (List.nodup_cons.mp (List.nodup_append.mp hn).2.1).1
  rw [lastIndexOf_append_cons hr, List.idxOf_append_of_notMem hl]
  simp

theorem pairwise_idxOf {keys : List κ} (hn : keys.Nodup) :
    keys.Pairwise fun a b => keys.idxOf a < keys.idxOf b := by
  refine List.pairwise_iff_getElem.mpr ?_
  intro i j hi hj hij
  rw [List.Nodup.idxOf_getElem hn, List.Nodup.idxOf_getElem hn]
  exact hij

/-- Keys that stand in the order of a list are all that is left when it is cut down to them. -/
theorem filter_mem_eq {keys chosen : List κ} (hn : keys.Nodup)
    (hc : chosen.Pairwise fun a b => keys.idxOf a < keys.idxOf b)
    (hsub : ∀ a ∈ chosen, a ∈ keys) : keys.filter (· ∈ chosen) = chosen := by
  have hcn : chosen.Nodup := hc.imp fun hab he => by simp [he] at hab
  have hperm : (keys.filter (· ∈ chosen)).Perm chosen := by
    refine (List.perm_ext_iff_of_nodup (hn.filter _) hcn).mpr fun a => ?_
    simp only [List.mem_filter, decide_eq_true_eq]
    exact ⟨fun h => h.2, fun h => ⟨hsub a h, h⟩⟩
  refine List.Perm.eq_of_pairwise ?_ ((pairwise_idxOf hn).filter _) hc hperm
  intro a b _ _ hab hba
  omega

variable {current target : List κ}

theorem mem_of_mem_stableKeys {key : κ} (h : key ∈ stableKeys current target) : key ∈ target := by
  obtain ⟨i, -, hi⟩ := List.mem_filterMap.mp h
  exact List.mem_of_getElem? hi

/-- Keys that stay stand in the order of the target and in the current order. -/
theorem stableKeys_increase (hc : current.Nodup) (ht : target.Nodup)
    (hsub : ∀ a ∈ target, a ∈ current) :
    (stableKeys current target).Pairwise fun a b =>
      target.idxOf a < target.idxOf b ∧ current.idxOf a < current.idxOf b := by
  refine List.pairwise_filterMap.mpr ((longestIncreasing_increases _).imp ?_)
  rintro i j ⟨hij, x, y, hx, hy, hxy⟩ a ha b hb
  have hxa : lastIndexOf a current = x := by simpa [List.getElem?_map, ha] using hx
  have hyb : lastIndexOf b current = y := by simpa [List.getElem?_map, hb] using hy
  rw [lastIndexOf_eq_idxOf hc (hsub a (List.mem_of_getElem? ha))] at hxa
  rw [lastIndexOf_eq_idxOf hc (hsub b (List.mem_of_getElem? hb))] at hyb
  obtain ⟨hi, rfl⟩ := List.getElem?_eq_some_iff.mp ha
  obtain ⟨hj, rfl⟩ := List.getElem?_eq_some_iff.mp hb
  rw [List.Nodup.idxOf_getElem ht, List.Nodup.idxOf_getElem ht]
  exact ⟨hij, by omega⟩

/-- The keys that stay stand in one order in both lists. -/
theorem filter_stableKeys (hc : current.Nodup) (ht : target.Nodup)
    (hsub : ∀ a ∈ target, a ∈ current) :
    current.filter (· ∈ stableKeys current target) =
      target.filter (· ∈ stableKeys current target) := by
  have hs := stableKeys_increase hc ht hsub
  rw [filter_mem_eq hc (hs.imp fun h => h.2) fun a ha => hsub a (mem_of_mem_stableKeys ha),
    filter_mem_eq ht (hs.imp fun h => h.1) fun a ha => mem_of_mem_stableKeys ha]

/-! ### Moving the others -/

theorem offset_natCast {n length : Nat} (h : n ≤ length) : offset (n : Int) length = n := by
  have hn : ¬ (n : Int) < 0 := by omega
  simp [offset, hn, h]

theorem takeOut_natCast {α : Type v} (left right : List α) (item : α) :
    takeOut (left.length : Int) (left ++ item :: right) = left ++ right := by
  rw [takeOut, offset_natCast (by simp), List.eraseIdx_append_of_length_le (Nat.le_refl _)]
  simp

theorem putIn_natCast {α : Type v} (left right : List α) (item : α) :
    putIn (left.length : Int) item (left ++ right) = left ++ item :: right := by
  rw [putIn, offset_natCast (by simp)]
  simp

theorem putIn_perm {α : Type v} (i : Int) (item : α) (items : List α) :
    (putIn i item items).Perm (item :: items) := by
  have h : (items.take (offset i items.length) ++ item :: items.drop (offset i items.length)).Perm
      (item :: (items.take (offset i items.length) ++ items.drop (offset i items.length))) :=
    List.perm_middle
  rwa [List.take_append_drop] at h

theorem map_takeOut {α β : Type v} (f : α → β) (i : Int) (items : List α) :
    (takeOut i items).map f = takeOut i (items.map f) := by
  simp [takeOut, List.eraseIdx_map]

theorem map_putIn {α β : Type v} (f : α → β) (i : Int) (item : α) (items : List α) :
    (putIn i item items).map f = putIn i (f item) (items.map f) := by
  simp [putIn, List.map_take, List.map_drop]

theorem map_applyAll {α β : Type v} (f : α → β) (moves : List Move) (items : List α) :
    (applyAll items moves).map f = applyAll (items.map f) moves := by
  induction moves generalizing items with
  | nil => rfl
  | cons move rest ih =>
    have happly : (apply items move).map f = apply (items.map f) move := by
      simp only [apply, List.length_map, List.getElem?_map]
      cases items[offset move.source items.length]? with
      | none => rfl
      | some item => simp only [Option.map_some, map_putIn, map_takeOut]
    rw [applyAll, List.foldl_cons, ← applyAll, ih, happly]
    rfl

theorem apply_natCast {α : Type v} (left right : List α) (item : α) (place : Int) :
    apply (left ++ item :: right) ⟨left.length, place⟩ = putIn place item (left ++ right) := by
  simp only [apply, offset_natCast (show left.length ≤ (left ++ item :: right).length by simp),
    takeOut_natCast]
  simp

theorem putIn_behind {key item : κ} {left right : List κ} (h : key ∉ left) :
    putIn (indexOf key (left ++ key :: right) + 1) item (left ++ key :: right) =
      left ++ key :: item :: right := by
  have hi : indexOf key (left ++ key :: right) + 1 = ((left ++ [key]).length : Int) := by
    simp [indexOf_append_cons h]
  have hl : left ++ key :: right = (left ++ [key]) ++ right := by simp
  rw [hi, hl, putIn_natCast]
  simp

/-- Whether a key stays or has been placed. -/
def isSettled (stable done : List κ) (key : κ) : Bool := key ∈ stable || key ∈ done

/-- The order of the settled keys once one more key is put behind the key before it. -/
theorem putIn_settled {stable done rest others : List κ} {key : κ} (hn : (done ++ key :: rest).Nodup)
    (ho : others.Nodup)
    (hs : others.filter (isSettled stable (done ++ [key])) = done ++ rest.filter (· ∈ stable)) :
    (putIn (match done.getLast? with | none => 0 | some k => indexOf k others + 1) key
      others).filter (isSettled stable (done ++ [key])) =
        done ++ key :: rest.filter (· ∈ stable) := by
  have hkey : isSettled stable (done ++ [key]) key = true := by simp [isSettled]
  rcases List.eq_nil_or_concat done with rfl | ⟨front, k, rfl⟩
  · have hp : putIn (0 : Int) key others = key :: others := putIn_natCast [] others key
    simp only [List.getLast?_nil, hp]
    rw [List.filter_cons_of_pos hkey, hs]
    rfl
  · rw [List.concat_eq_append] at hn hs hkey ⊢
    have hk : k ∈ others := by
      have : k ∈ others.filter (isSettled stable (front ++ [k] ++ [key])) := by
        rw [hs]
        simp
      exact (List.mem_filter.mp this).1
    obtain ⟨left, right, rfl, hl⟩ := List.eq_append_cons_of_mem hk
    have hr : k ∉ right := (List.nodup_cons.mp (List.nodup_append.mp ho).2.1).1
    have hkk : isSettled stable (front ++ [k] ++ [key]) k = true := by simp [isSettled]
    rw [List.filter_append, List.filter_cons_of_pos hkk] at hs
    have hfront : k ∉ front := fun h => by
      have := (List.nodup_append.mp (List.nodup_append.mp hn).1).2.2 k h k (by simp)
      exact this rfl
    have hrest : k ∉ rest.filter (· ∈ stable) := fun h => by
      have hm : k ∈ key :: rest := List.mem_cons_of_mem key (List.mem_of_mem_filter h)
      exact (List.nodup_append.mp hn).2.2 k (by simp) k hm rfl
    have hsplit : left.filter (isSettled stable (front ++ [k] ++ [key])) = front ∧ k = k ∧
        right.filter (isSettled stable (front ++ [k] ++ [key])) = rest.filter (· ∈ stable) := by
      refine (List.append_cons_inj_of_notMem ?_ ?_).mp (hs.trans (by simp))
      · exact fun h => hl (List.mem_of_mem_filter h)
      · exact fun h => hr (List.mem_of_mem_filter h)
    simp only [List.getLast?_append, List.getLast?_singleton, Option.some_or]
    rw [putIn_behind hl, List.filter_append, List.filter_cons_of_pos hkk,
      List.filter_cons_of_pos hkey, hsplit.1, hsplit.2.2]
    simp

/-- Moving the remaining keys leads to the target. The settled keys are in order all along, and in
the end every key is settled. -/
theorem applyAll_planAfter {stable rest working : List κ} (done : List κ) (hn : (done ++ rest).Nodup)
    (hp : working.Perm (done ++ rest))
    (hs : working.filter (isSettled stable done) = done ++ rest.filter (· ∈ stable)) :
    applyAll working (planAfter stable done.getLast? rest working) = done ++ rest := by
  induction rest generalizing done working with
  | nil =>
    have hall : working.filter (isSettled stable done) = working :=
      List.filter_eq_self.mpr fun a ha => by
        have : a ∈ done := by simpa using hp.mem_iff.mp ha
        simp [isSettled, this]
    simpa [planAfter, applyAll, hall] using hs
  | cons key rest ih =>
    have hlast : some key = (done ++ [key]).getLast? := by simp
    have happ : done ++ key :: rest = (done ++ [key]) ++ rest := by simp
    unfold planAfter
    split
    · rename_i hstable
      rw [hlast, happ]
      refine ih (done ++ [key]) (happ ▸ hn) (happ ▸ hp) ?_
      have hsame : isSettled stable (done ++ [key]) = isSettled stable done := by
        funext a
        by_cases ha : a = key <;> simp [isSettled, ha, hstable]
      rw [hsame, hs, List.filter_cons_of_pos (by simpa using hstable)]
      simp
    · rename_i hmoves
      have hkey : key ∈ working := hp.mem_iff.mpr (by simp)
      obtain ⟨left, right, rfl, hl⟩ := List.eq_append_cons_of_mem hkey
      have hwn : (left ++ key :: right).Nodup := hp.nodup_iff.mpr hn
      have hperm : (left ++ right).Perm (done ++ rest) :=
        (List.perm_cons key).mp
          (List.perm_middle.symm.trans (hp.trans List.perm_middle))
      have hothers : (left ++ right).Nodup := (List.nodup_middle.mp hwn).of_cons
      have hkeyo : key ∉ left ++ right := (List.nodup_cons.mp (List.nodup_middle.mp hwn)).1
      have hkd : key ∉ done := fun h => (List.nodup_append.mp hn).2.2 key h key (by simp) rfl
      have hso : (left ++ right).filter (isSettled stable (done ++ [key])) =
          done ++ rest.filter (· ∈ stable) := by
        have hnot : isSettled stable done key = false := by simp [isSettled, hmoves, hkd]
        have hold : (left ++ right).filter (isSettled stable done) =
            done ++ rest.filter (· ∈ stable) := by
          rw [List.filter_append, List.filter_cons_of_neg (by simp [hnot]), ← List.filter_append,
            List.filter_cons_of_neg (by simpa using hmoves)] at hs
          exact hs
        rw [← hold]
        refine List.filter_congr fun a ha => ?_
        have : a ≠ key := fun he => hkeyo (he ▸ ha)
        simp [isSettled, this]
      simp only [indexOf_append_cons hl, takeOut_natCast]
      rw [applyAll, List.foldl_cons, apply_natCast, hlast, happ]
      refine ih (done ++ [key]) (happ ▸ hn) ?_ ?_
      · refine (putIn_perm _ _ _).trans ?_
        rw [← happ]
        exact (hperm.cons key).trans List.perm_middle.symm
      · exact (putIn_settled hn hothers hso).trans (by simp)

/-- Planned moves turn one order into the other. -/
theorem applyAll_plan {current target : List κ} (hp : current.Perm target) (hn : target.Nodup) :
    applyAll current (plan current target) = target := by
  have hc : current.Nodup := hp.nodup_iff.mpr hn
  have hs := filter_stableKeys hc hn fun a ha => hp.mem_iff.mpr ha
  have hnone : isSettled (stableKeys current target) ([] : List κ) =
      fun a => decide (a ∈ stableKeys current target) := by
    funext a
    simp [isSettled]
  exact applyAll_planAfter [] hn hp (by rw [hnone, hs]; rfl)

/-! ### Orders that agree -/

theorem place_above {value : Int} {piles : Piles} (index : Nat) (before : List Nat)
    (h : ∀ p ∈ piles, p.1 < value) :
    place value index before piles =
      piles ++ [(value, index :: ((piles.getLast?.map Prod.snd).getD before))] := by
  induction piles generalizing before with
  | nil => rfl
  | cons p rest ih =>
    rw [place, if_pos (h p List.mem_cons_self),
      ih p.2 fun q hq => h q (List.mem_cons_of_mem p hq)]
    cases rest with
    | nil => rfl
    | cons q rest =>
      cases hl : (q :: rest).getLast? with
      | none => simp at hl
      | some r => simp [List.getLast?_cons_cons, hl]

def lastChain (piles : Piles) : List Nat := (piles.getLast?.map Prod.snd).getD []

theorem longestIncreasing_eq (values : List Int) :
    longestIncreasing values = (lastChain (pile values 0 [])).reverse := by
  unfold longestIncreasing lastChain
  cases (pile values 0 []).getLast? <;> rfl

/-- Increasing values all go on one chain. -/
theorem lastChain_pile {rest : List Int} (n : Nat) {piles : Piles} (hr : rest.Pairwise (· < ·))
    (hp : ∀ p ∈ piles, ∀ value ∈ rest, p.1 < value) (hl : lastChain piles = (List.range n).reverse) :
    lastChain (pile rest n piles) = (List.range (n + rest.length)).reverse := by
  induction rest generalizing n piles with
  | nil => simpa [pile] using hl
  | cons value rest ih =>
    have hv := List.pairwise_cons.mp hr
    have hplace := place_above n [] fun p hpm => hp p hpm value List.mem_cons_self
    have hchain : lastChain (place value n [] piles) = (List.range (n + 1)).reverse := by
      have hl' : (piles.getLast?.map Prod.snd).getD [] = (List.range n).reverse := hl
      rw [hplace, lastChain, List.getLast?_append, hl']
      simp [List.range_succ]
    rw [pile, ih (n + 1) hv.2 ?_ hchain]
    · congr 2
      simp only [List.length_cons]
      omega
    · intro p hpm w hw
      rw [hplace, List.mem_append, List.mem_singleton] at hpm
      rcases hpm with hpm | rfl
      · exact hp p hpm w (List.mem_cons_of_mem value hw)
      · exact hv.1 w hw

/-- Of increasing values every index is found. -/
theorem longestIncreasing_of_increasing {values : List Int} (h : values.Pairwise (· < ·)) :
    longestIncreasing values = List.range values.length := by
  rw [longestIncreasing_eq, lastChain_pile 0 h (by simp) rfl, List.reverse_reverse,
    Nat.zero_add]

theorem filterMap_getElem?_range {α : Type v} (items : List α) :
    (List.range items.length).filterMap (items[·]?) = items := by
  induction items with
  | nil => rfl
  | cons item rest ih =>
    rw [List.length_cons, List.range_succ_eq_map, List.filterMap_cons, List.filterMap_map]
    simpa [Function.comp_def] using ih

theorem stableKeys_self {keys : List κ} (hn : keys.Nodup) : stableKeys keys keys = keys := by
  have hinc : (keys.map fun key => lastIndexOf key keys).Pairwise (· < ·) := by
    refine List.pairwise_map.mpr (List.Pairwise.imp_of_mem ?_ (pairwise_idxOf hn))
    intro a b ha hb hab
    rw [lastIndexOf_eq_idxOf hn ha, lastIndexOf_eq_idxOf hn hb]
    exact Int.ofNat_lt.mpr hab
  rw [stableKeys, longestIncreasing_of_increasing hinc, List.length_map]
  exact filterMap_getElem?_range keys

theorem planAfter_of_stable {stable rest working : List κ} {before : Option κ}
    (h : ∀ key ∈ rest, key ∈ stable) : planAfter stable before rest working = [] := by
  induction rest generalizing before with
  | nil => rfl
  | cons key rest ih =>
    rw [planAfter, if_pos (h key List.mem_cons_self)]
    exact ih fun k hk => h k (List.mem_cons_of_mem key hk)

/-- Keys in one order all stay. -/
theorem plan_self {keys : List κ} (hn : keys.Nodup) : plan keys keys = [] := by
  rw [plan, stableKeys_self hn]
  exact planAfter_of_stable fun _ hk => hk

end Keys

end LiveTemplate.Move
