import LiveTemplate.Proofs.Tree.FewestMoves
import Mathlib.Data.List.GetD

/-!
Longest increasing subsequences, found two ways. The piles may carry their chains along, or only
the index on top of each is kept, the pile of a value is searched for by halves, and each index is
linked once to the one below it at its time. The links thread the same chains, although the tops
they lead through have been overwritten since.
-/

namespace LiveTemplate.Move

set_option autoImplicit false

/-! ### Search by halves -/

/-- The first place from `lo` on at which a test fails, found by halves; `hi` when it fails at none
before. -/
def firstFailing (test : Nat → Bool) (lo hi : Nat) : Nat :=
  if lo < hi then
    if test ((lo + hi) / 2) then firstFailing test ((lo + hi) / 2 + 1) hi
    else firstFailing test lo ((lo + hi) / 2)
  else lo
termination_by hi - lo

theorem firstFailing_eq {test : Nat → Bool} {lo hi k : Nat} (hlo : lo ≤ k) (hhi : k ≤ hi)
    (hbelow : ∀ i < k, test i = true) (habove : ∀ i < hi, k ≤ i → test i = false) :
    firstFailing test lo hi = k := by
  induction lo, hi using firstFailing.induct test with
  | case1 lo hi hlt hpass ih =>
    have hmid : (lo + hi) / 2 < k := by
      by_contra hle
      have hfail := habove ((lo + hi) / 2) (by omega) (by omega)
      simp [hfail] at hpass
    rw [firstFailing, if_pos hlt, if_pos hpass]
    exact ih hmid hhi habove
  | case2 lo hi hlt hfail ih =>
    have hmid : k ≤ (lo + hi) / 2 := by
      by_contra hgt
      exact hfail (hbelow _ (by omega))
    rw [firstFailing, if_pos hlt, if_neg hfail]
    exact ih hlo hmid fun i hi' => habove i (by omega)
  | case3 lo hi hle =>
    rw [firstFailing, if_neg hle]
    omega

/-! ### Linked piles -/

/-- The index on top of each pile, and for each index the one it was put behind. -/
structure Links where
  tops : List Nat
  before : List (Option Nat)

namespace Links

/-- Puts an index on the first pile whose top is not below it. -/
def add (values : List Int) (links : Links) (index : Nat) : Links :=
  let value := values.getD index 0
  let pile := firstFailing (fun k => values.getD (links.tops.getD k 0) 0 < value) 0
    links.tops.length
  ⟨links.tops.take pile ++ index :: links.tops.drop (pile + 1),
    links.before ++ [if pile = 0 then none else links.tops[pile - 1]?]⟩

/-- Follows at most so many links. -/
def follow (before : List (Option Nat)) : Nat → Option Nat → List Nat
  | n + 1, some index => index :: follow before n (before.getD index none)
  | _, _ => []

end Links

/-- The indices found by linked piles. -/
def linkedIncreasing (values : List Int) : List Nat :=
  let links := (List.range values.length).foldl (Links.add values) ⟨[], []⟩
  (Links.follow links.before values.length links.tops.getLast?).reverse

/-- From its first index on, a chain goes where the links lead. -/
def Threads (before : List (Option Nat)) : List Nat → Prop
  | [] => True
  | index :: rest => before[index]? = some rest.head? ∧ Threads before rest

theorem Threads.append {before : List (Option Nat)} {chain : List Nat} (h : Threads before chain)
    (more : List (Option Nat)) : Threads (before ++ more) chain := by
  induction chain with
  | nil => trivial
  | cons index rest ih =>
    obtain ⟨hlt, -⟩ := List.getElem?_eq_some_iff.mp h.1
    exact ⟨(List.getElem?_append_left hlt).trans h.1, ih h.2⟩

theorem Threads.follow {before : List (Option Nat)} {chain : List Nat} {n : Nat}
    (h : Threads before chain) (hn : chain.length ≤ n) :
    Links.follow before n chain.head? = chain := by
  induction chain generalizing n with
  | nil => cases n <;> rfl
  | cons index rest ih =>
    obtain ⟨n, rfl⟩ : ∃ m, n = m + 1 := ⟨n - 1, by simp only [List.length_cons] at hn; omega⟩
    rw [List.head?_cons, Links.follow, List.getD_eq_getElem?_getD, h.1, Option.getD_some,
      ih h.2 (Nat.le_of_succ_le_succ hn)]

/-- The indices on top of piles, and the values at them. -/
def Tops (values : List Int) (tops : List Nat) (piles : Piles) : Prop :=
  tops.map (fun i => (values.getD i 0, some i)) = piles.map fun p => (p.1, p.2.head?)

/-- The links of piles: they keep the tops, and thread the chains. -/
structure Linked (values : List Int) (links : Links) (piles : Piles) : Prop where
  tops : Tops values links.tops piles
  threads : ∀ p ∈ piles, Threads links.before p.2
  rising : piles.Pairwise fun p q => p.1 < q.1

theorem threads_lastChain {before : List (Option Nat)} {piles : Piles}
    (h : ∀ p ∈ piles, Threads before p.2) : Threads before (lastChain piles) := by
  unfold lastChain
  cases hlast : piles.getLast? with
  | none => trivial
  | some p => exact h p (List.mem_of_getLast? hlast)

/-- A value divides piles into those with tops below it and the others. -/
theorem exists_divided (value : Int) {piles : Piles} (h : piles.Pairwise fun p q => p.1 < q.1) :
    ∃ low high, piles = low ++ high ∧ (∀ p ∈ low, p.1 < value) ∧ ∀ p ∈ high, value ≤ p.1 := by
  induction piles with
  | nil => exact ⟨[], [], rfl, by simp, by simp⟩
  | cons p rest ih =>
    obtain ⟨hp, hrest⟩ := List.pairwise_cons.mp h
    by_cases hlt : p.1 < value
    · obtain ⟨low, high, rfl, hlow, hhigh⟩ := ih hrest
      exact ⟨p :: low, high, rfl, List.forall_mem_cons.mpr ⟨hlt, hlow⟩, hhigh⟩
    · refine ⟨[], p :: rest, rfl, by simp, List.forall_mem_cons.mpr ⟨Int.not_lt.mp hlt, ?_⟩⟩
      intro q hq
      exact Int.le_trans (Int.not_lt.mp hlt) (Int.le_of_lt (hp q hq))

/-- The value goes behind the last pile below it, in place of the top after that. -/
theorem place_divided {value : Int} {low high : Piles} (index : Nat) (before : List Nat)
    (hlow : ∀ p ∈ low, p.1 < value) (hhigh : ∀ p ∈ high, value ≤ p.1) :
    place value index before (low ++ high) =
      low ++ (value, index :: (low.getLast?.map Prod.snd).getD before) :: high.tail := by
  induction low generalizing before with
  | nil =>
    cases high with
    | nil => rfl
    | cons q high =>
      rw [List.nil_append, place, if_neg (Int.not_lt.mpr (hhigh q List.mem_cons_self))]
      rfl
  | cons p low ih =>
    rw [List.forall_mem_cons] at hlow
    rw [List.cons_append, place, if_pos hlow.1, ih p.2 hlow.2]
    cases low with
    | nil => rfl
    | cons q low => rw [List.getLast?_cons_cons, List.getLast?_cons]; rfl

section Adding
variable {values : List Int} {low high : Piles} {lows highs : List Nat} {value : Int}

theorem Tops.split {tops : List Nat} (h : Tops values tops (low ++ high)) :
    ∃ lows highs, tops = lows ++ highs ∧ Tops values lows low ∧ Tops values highs high :=
  List.map_eq_append_iff.mp (Eq.trans h List.map_append)

theorem Tops.tail (h : Tops values highs high) : Tops values highs.tail high.tail := by
  rw [Tops, List.map_tail, List.map_tail]
  exact congrArg List.tail h

/-- Halving finds the first pile that the value goes on. -/
theorem Tops.firstFailing_eq (hlow : Tops values lows low) (hvalue : ∀ p ∈ low, p.1 < value)
    (hvalue' : ∀ p ∈ high, value ≤ p.1) (hhigh : Tops values highs high) :
    firstFailing (fun k => values.getD ((lows ++ highs).getD k 0) 0 < value) 0
      (lows ++ highs).length = lows.length := by
  have hbelow : ∀ i ∈ lows, values.getD i 0 < value := by
    intro i hi
    obtain ⟨p, hp, he⟩ := List.mem_map.mp (hlow ▸ List.mem_map_of_mem hi)
    rw [← (Prod.mk.inj he).1]
    exact hvalue p hp
  have habove : ∀ i ∈ highs, ¬ values.getD i 0 < value := by
    intro i hi
    obtain ⟨p, hp, he⟩ := List.mem_map.mp (hhigh ▸ List.mem_map_of_mem hi)
    rw [← (Prod.mk.inj he).1]
    exact Int.not_lt.mpr (hvalue' p hp)
  refine Move.firstFailing_eq (Nat.zero_le _) (by simp) ?_ ?_
  · intro k hk
    refine decide_eq_true (hbelow _ ?_)
    rw [List.getD_append _ _ _ _ hk, List.getD_eq_getElem _ _ hk]
    exact List.getElem_mem hk
  · intro k hk hle
    refine decide_eq_false (habove _ ?_)
    have hk' : k - lows.length < highs.length := by
      rw [List.length_append] at hk
      omega
    rw [List.getD_append_right _ _ _ _ hle, List.getD_eq_getElem _ _ hk']
    exact List.getElem_mem hk'

theorem Tops.getLast? (h : Tops values lows low) : lows.getLast? = (lastChain low).head? := by
  have hlast := congrArg List.getLast? h
  rw [List.getLast?_map, List.getLast?_map] at hlast
  unfold lastChain
  cases hp : low.getLast? with
  | none => simpa [hp] using hlast
  | some p =>
    rw [hp, Option.map_some] at hlast
    obtain ⟨i, hi, he⟩ := Option.map_eq_some_iff.mp hlast
    rw [hi, (Prod.mk.inj he).2]
    rfl

/-- The pile to the left of a place, if there is one. -/
theorem getElem?_left (lows highs : List Nat) :
    (if lows.length = 0 then none else (lows ++ highs)[lows.length - 1]?) = lows.getLast? := by
  rcases List.eq_nil_or_concat lows with rfl | ⟨front, i, rfl⟩
  · rfl
  · rw [List.concat_eq_append, List.getLast?_concat]
    simp

end Adding

theorem Linked.add {values : List Int} {links : Links} {piles : Piles} {value : Int} {n : Nat}
    (h : Linked values links piles) (hn : links.before.length = n)
    (hvalue : values[n]? = some value) :
    Linked values (links.add values n) (place value n [] piles) := by
  obtain ⟨low, high, rfl, hlow, hhigh⟩ := exists_divided value h.rising
  obtain ⟨lows, highs, htops, hlows, hhighs⟩ := h.tops.split
  have hgetD : values.getD n 0 = value := by
    rw [List.getD_eq_getElem?_getD, hvalue, Option.getD_some]
  have hlength := hlows.firstFailing_eq hlow hhigh hhighs
  have hadd : links.add values n =
      ⟨lows ++ n :: highs.tail, links.before ++ [(lastChain low).head?]⟩ := by
    simp only [Links.add, htops, hgetD, hlength, getElem?_left, hlows.getLast?]
    rw [List.take_left, List.drop_length_add_append, List.drop_one]
  rw [hadd, place_divided n [] hlow hhigh]
  obtain ⟨hlowRising, hhighRising, hacross⟩ := List.pairwise_append.mp h.rising
  obtain ⟨hlowThreads, hhighThreads⟩ := List.forall_mem_append.mp h.threads
  refine ⟨?_, ?_, ?_⟩
  · have htop : (values.getD n 0, some n) = (value, (n :: lastChain low).head?) := by
      rw [hgetD, List.head?_cons]
    rw [Tops, List.map_append, List.map_append]
    exact congrArg₂ (· ++ ·) hlows (congrArg₂ List.cons htop hhighs.tail)
  · rw [List.forall_mem_append, List.forall_mem_cons]
    refine ⟨fun p hp => (hlowThreads p hp).append _, ⟨?_, (threads_lastChain hlowThreads).append _⟩,
      fun p hp => (hhighThreads p (List.mem_of_mem_tail hp)).append _⟩
    rw [← hn, List.getElem?_concat_length]
    rfl
  · refine List.pairwise_append.mpr ⟨hlowRising, List.pairwise_cons.mpr ⟨?_, hhighRising.tail⟩, ?_⟩
    · cases high with
      | nil => simp
      | cons q high =>
        intro p hp
        exact Int.lt_of_le_of_lt (hhigh q List.mem_cons_self)
          ((List.pairwise_cons.mp hhighRising).1 p hp)
    · intro p hp q hq
      rcases List.mem_cons.mp hq with rfl | hq
      · exact hlow p hp
      · exact hacross p hp q (List.mem_of_mem_tail hq)

theorem Linked.addAll {values rest : List Int} (done : List Int) {links : Links} {piles : Piles}
    (hvalues : values = done ++ rest) (h : Linked values links piles)
    (hn : links.before.length = done.length) :
    Linked values ((List.range' done.length rest.length).foldl (Links.add values) links)
      (pile rest done.length piles) := by
  induction rest generalizing done links piles with
  | nil => exact h
  | cons value rest ih =>
    have hvalue : values[done.length]? = some value := by simp [hvalues]
    have hadded := h.add hn hvalue
    have hlength : (done ++ [value]).length = done.length + 1 := by simp
    rw [pile, List.length_cons, List.range'_succ, List.foldl_cons, ← hlength]
    refine ih (done ++ [value]) (by simp [hvalues]) hadded ?_
    rw [hlength, ← hn]
    simp [Links.add]

theorem length_longestIncreasing_le (values : List Int) :
    (longestIncreasing values).length ≤ values.length := by
  have hnodup : (longestIncreasing values).Nodup :=
    (longestIncreasing_increases values).imp fun h => Nat.ne_of_lt h.1
  have hsub : longestIncreasing values ⊆ List.range values.length := fun i hi =>
    List.mem_range.mpr (longestIncreasing_lt values i hi)
  have hle := (List.subperm_of_subset hnodup hsub).length_le
  rwa [List.length_range] at hle

/-- Halving and links come to the chain that the last pile carries. -/
theorem linkedIncreasing_eq (values : List Int) :
    linkedIncreasing values = longestIncreasing values := by
  have hnil : Linked values ⟨[], []⟩ [] := ⟨rfl, by simp, .nil⟩
  have hlinked := Linked.addAll [] (List.nil_append values).symm hnil rfl
  have hle := length_longestIncreasing_le values
  rw [List.length_nil, ← List.range_eq_range'] at hlinked
  rw [longestIncreasing_eq, List.length_reverse] at hle
  rw [longestIncreasing_eq, linkedIncreasing, hlinked.tops.getLast?,
    (threads_lastChain hlinked.threads).follow hle]

/-- The values at the indices found. -/
theorem exists_found (values : List Int) :
    ∃ found : List Int, (longestIncreasing values).map (values[·]?) = found.map some ∧
      found.Pairwise (· < ·) := by
  refine ⟨(longestIncreasing values).map (values.getD · 0), ?_, ?_⟩
  · rw [List.map_map]
    refine List.map_congr_left fun i hi => ?_
    have hlt := longestIncreasing_lt values i hi
    rw [Function.comp_apply, List.getD_eq_getElem _ _ hlt, List.getElem?_eq_getElem hlt]
  · refine List.pairwise_map.mpr ((longestIncreasing_increases values).imp ?_)
    rintro i j ⟨-, x, y, hx, hy, hlt⟩
    rwa [List.getD_eq_getElem?_getD, List.getD_eq_getElem?_getD, hx, hy]

/-- The indices found rise and so do the values at them, and no increasing subsequence is longer. -/
theorem longestIncreasing_longest (values : List Int) :
    linkedIncreasing values = longestIncreasing values ∧
      (longestIncreasing values).Pairwise (· < ·) ∧
      (∃ found : List Int, (longestIncreasing values).map (values[·]?) = found.map some ∧
        found.Pairwise (· < ·)) ∧
      ∀ chosen : List Int, chosen.Sublist values → chosen.Pairwise (· < ·) →
        chosen.length ≤ (longestIncreasing values).length :=
  ⟨linkedIncreasing_eq values, (longestIncreasing_increases values).imp fun h => h.1,
    exists_found values, fun _ => length_le_longestIncreasing⟩

/-- Equal values are not chained. -/
example : longestIncreasing [2, 1, 2, 2, 3, 1] = [1, 3, 4] := by decide

end LiveTemplate.Move
