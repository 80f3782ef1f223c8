import OvaLib.Sorter.QuickSort

/-!
# Least, greatest and sought items

The methods of `sort.c` that read a list and leave it as it is. `collections_min_max` takes the
items in pairs and compares the smaller of a pair with the least so far, and the greater with the
greatest. Its counter steps by two, and at a list of `INT_MAX` items the bound check overflows.

## The contract

`collections_min` and `collections_max` return an item that none is less than, or greater than, and
`NULL` for an empty list. `collections_min_max` stores one of each. Which of several tied items it
is, is left open, and the two ways do differ in that. `collections_binary_search` returns an index
at which an item is tied with the one that is sought, or -1, and asks for a list in order.

## The overflow

The loop runs while `i + 1 < size`, and for an odd size `i` is odd. At `INT_MAX` items the last pair
ends at the index `INT_MAX - 1`, after which `i` is `INT_MAX` and `i + 1` wraps around to a negative
number, below the size. The model computes modulo `2 ^ 32`, and its loop then never ends; C leaves
such an overflow undefined. On shorter lists the methods do what they should, and
`queries_agree_iff` is the equivalence.

A loop that counts up to `size` takes the number of rounds; the other two take fuel, and `none` is a
loop that did not end.

## Main results

* `collectionsMin_spec`, `collectionsMax_spec`, `collectionsMinMax_spec` — the items are extreme
* `minMaxLoop_stuck` — the list of `INT_MAX` items
* `collectionsBinarySearch_spec` — the search finds a tied item if there is one
* `queries_agree_iff` — when all of them do what they should
-/

namespace OvaLib

namespace Sorter

open Foundation

variable {σ α : Type*}

section

variable (M : ListMethods σ α)

/-! ## The model -/

/-- The loop of `collections_max` and `collections_min`, for `n` indices from `i` on. -/
def extremeLoop (better : Option α → Option α → Bool) : ℕ → ℕ → Option α → σ → Option α × σ
  | 0, _, best, lst => (best, lst)
  | n + 1, i, best, lst =>
    let (current, lst) := M.get lst i
    extremeLoop better n (i + 1) (if better current best then current else best) lst

/-- What `collections_max` and `collections_min` share. -/
def collectionsExtreme (better : Option α → Option α → Bool) (lst : σ) : Option α × σ :=
  let size := M.size lst
  if size = 0 then (none, lst)
  else
    let (best, lst) := M.get lst 0
    extremeLoop M better (size - 1).toNat 1 best lst

/-- `collections_max`. -/
def collectionsMax (cmp : Option α → Option α → ℤ) : σ → Option α × σ :=
  collectionsExtreme M fun current maximum => cmp current maximum > 0

/-- `collections_min`. -/
def collectionsMin (cmp : Option α → Option α → ℤ) : σ → Option α × σ :=
  collectionsExtreme M fun current minimum => cmp current minimum < 0

end

/-- The minimum and the maximum after a pair. -/
def comparePair (cmp : Option α → Option α → ℤ) (first second minimum maximum : Option α) :
    Option α × Option α :=
  if cmp first second > 0 then
    (if cmp second minimum < 0 then second else minimum,
      if cmp first maximum > 0 then first else maximum)
  else
    (if cmp first minimum < 0 then first else minimum,
      if cmp second maximum > 0 then second else maximum)

section

variable (M : ListMethods σ α) (cmp : Option α → Option α → ℤ)

/-- The loop of `collections_min_max`, from the index `i` on. -/
def minMaxLoop (size : ℤ) : ℕ → ℤ → Option α × Option α → σ →
    Option ((Option α × Option α) × σ)
  | 0, _, _, _ => none
  | fuel + 1, i, (minimum, maximum), lst =>
    if int32 (i + 1) < size then
      let (first, lst) := M.get lst i
      let (second, lst) := M.get lst (int32 (i + 1))
      minMaxLoop size fuel (int32 (i + 2)) (comparePair cmp first second minimum maximum) lst
    else some ((minimum, maximum), lst)

/-- `collections_min_max`: what it stores in `*min` and `*max`. -/
def collectionsMinMax (fuel : ℕ) (lst : σ) : Option ((Option α × Option α) × σ) :=
  let size := M.size lst
  if size = 0 then some ((none, none), lst)
  else if size % 2 = 0 then
    let (a, lst) := M.get lst 0
    let (b, lst) := M.get lst 1
    minMaxLoop M cmp size fuel 2 (if cmp a b > 0 then (b, a) else (a, b)) lst
  else
    let (a, lst) := M.get lst 0
    minMaxLoop M cmp size fuel 1 (a, a) lst

/-- The loop of `collections_binary_search`. -/
def searchLoop (item : Option α) : ℕ → ℤ → ℤ → σ → Option (ℤ × σ)
  | 0, _, _, _ => none
  | fuel + 1, low, high, lst =>
    if low ≤ high then
      let mid := low + (high - low) / 2
      let (midItem, lst) := M.get lst mid
      let cmpResult := cmp midItem item
      if cmpResult = 0 then some (mid, lst)
      else if cmpResult < 0 then searchLoop item fuel (int32 (mid + 1)) high lst
      else searchLoop item fuel low (mid - 1) lst
    else some (-1, lst)

/-- `collections_binary_search`. -/
def collectionsBinarySearch (item : Option α) (fuel : ℕ) (lst : σ) : Option (ℤ × σ) :=
  searchLoop M cmp item fuel 0 (int32 (M.size lst - 1)) lst

end

/-! ## Least and greatest items -/

variable {M : ListMethods σ α} {Holds : σ → List (Option α) → Prop}
  {cmp : Option α → Option α → ℤ}

/-- The greatest items are the least ones of the comparator the other way round. -/
abbrev GreatestOf (cmp : Option α → Option α → ℤ) (x : Option α) (s : List (Option α)) : Prop :=
  LeastOf (fun y z => cmp z y) x s

theorem get_item (hM : ReadsSequence M Holds) {l : σ} {s : List (Option α)} (h : Holds l s) {i : ℕ}
    (hi : i < s.length) : (M.get l i).1 = s[i] ∧ Holds (M.get l i).2 s := by
  obtain ⟨hitem, hholds⟩ := hM.get_eq h hi
  rw [List.getElem?_eq_getElem hi, Option.join_some] at hitem
  exact ⟨hitem, hholds⟩

theorem take_one {β : Type*} {s : List β} (h : 0 < s.length) : s.take 1 = [s[0]] := by
  rw [List.take_succ_eq_append_getElem h, List.take_zero, List.nil_append]

theorem extremeLoop_spec (hM : ReadsSequence M Holds) (hcmp : IsComparator cmp)
    {better : Option α → Option α → Bool} (hbetter : ∀ x y, better x y = true ↔ cmp x y < 0) :
    ∀ {n i : ℕ} {best : Option α} {l : σ} {s : List (Option α)}, Holds l s → i + n = s.length →
      LeastOf cmp best (s.take i) → LeastOf cmp (extremeLoop M better n i best l).1 s
  | 0, i, best, l, s, _, hlen, hbest => by rwa [List.take_of_length_le (by omega)] at hbest
  | n + 1, i, best, l, s, h, hlen, hbest => by
    have hi : i < s.length := by omega
    obtain ⟨hitem, hget⟩ := get_item hM h hi
    rw [extremeLoop]
    refine extremeLoop_spec hM hcmp hbetter (i := i + 1) hget (by omega) ?_
    rw [hitem, List.take_succ_eq_append_getElem hi]
    simpa only [hbetter] using hbest.concat hcmp s[i]

/-- What `collections_min` and `collections_max` return. -/
theorem collectionsExtreme_spec (hM : ReadsSequence M Holds) (hcmp : IsComparator cmp)
    {better : Option α → Option α → Bool} (hbetter : ∀ x y, better x y = true ↔ cmp x y < 0)
    {l : σ} {s : List (Option α)} (h : Holds l s) :
    (s = [] → (collectionsExtreme M better l).1 = none) ∧
      (s ≠ [] → LeastOf cmp (collectionsExtreme M better l).1 s) := by
  have hsize := hM.size_eq h
  refine ⟨fun hnil => ?_, fun hne => ?_⟩
  · rw [collectionsExtreme, hsize, hnil, if_pos (by simp)]
  · have hpos := List.length_pos_of_ne_nil hne
    obtain ⟨hitem, hget⟩ := get_item hM h hpos
    rw [collectionsExtreme, hsize, if_neg (by omega)]
    refine extremeLoop_spec hM hcmp hbetter (i := 1) hget (by omega) ?_
    rw [show (M.get l 0).1 = s[0] from hitem, take_one hpos]
    exact .singleton hcmp _

/-- **`collections_min`** returns a least item. -/
theorem collectionsMin_spec (hM : ReadsSequence M Holds) (hcmp : IsComparator cmp) {l : σ}
    {s : List (Option α)} (h : Holds l s) : (s = [] → (collectionsMin M cmp l).1 = none) ∧
      (s ≠ [] → LeastOf cmp (collectionsMin M cmp l).1 s) :=
  collectionsExtreme_spec hM hcmp (fun _ _ => decide_eq_true_iff) h

/-- **`collections_max`** returns a greatest item. -/
theorem collectionsMax_spec (hM : ReadsSequence M Holds) (hcmp : IsComparator cmp) {l : σ}
    {s : List (Option α)} (h : Holds l s) : (s = [] → (collectionsMax M cmp l).1 = none) ∧
      (s ≠ [] → GreatestOf cmp (collectionsMax M cmp l).1 s) :=
  collectionsExtreme_spec hM hcmp.flip
    (fun x y => decide_eq_true_iff.trans (hcmp.neg_iff y x).symm) h

/-! ## Both at once -/

/-- A least and a greatest item. -/
def ExtremesOf (cmp : Option α → Option α → ℤ) (out : Option α × Option α)
    (s : List (Option α)) : Prop :=
  LeastOf cmp out.1 s ∧ GreatestOf cmp out.2 s

/-- The first pair of a list of even length. -/
theorem extremesOf_pair (hcmp : IsComparator cmp) (x y : Option α) :
    ExtremesOf cmp (if cmp x y > 0 then (y, x) else (x, y)) [x, y] := by
  have hboth : ∀ {cmp : Option α → Option α → ℤ} {z : Option α}, z ∈ [x, y] → cmp z x ≤ 0 →
      cmp z y ≤ 0 → LeastOf cmp z [x, y] := fun hz hx hy =>
    ⟨hz, List.forall_mem_cons.mpr ⟨hx, List.forall_mem_singleton.mpr hy⟩⟩
  split
  · next hgt =>
    have hle : cmp y x ≤ 0 := hcmp.le_of_nonneg (le_of_lt hgt)
    exact ⟨hboth (by simp) hle (hcmp.self y).le, hboth (by simp) (hcmp.self x).le hle⟩
  · next hle =>
    have hle : cmp x y ≤ 0 := not_lt.mp hle
    exact ⟨hboth (by simp) (hcmp.self x).le hle, hboth (by simp) hle (hcmp.self y).le⟩

/-- The item takes the place of the greatest if it is above it. -/
theorem greatestOf_concat (hcmp : IsComparator cmp) {x : Option α} {s : List (Option α)}
    (hx : GreatestOf cmp x s) (y : Option α) :
    GreatestOf cmp (if cmp y x > 0 then y else x) (s ++ [y]) := by
  simpa only [gt_iff_lt, hcmp.neg_iff x y] using hx.concat hcmp.flip y

/-- **A pair**: only the smaller can be a new least item, and only the greater a greatest. -/
theorem comparePair_spec (hcmp : IsComparator cmp) {out : Option α × Option α}
    {s : List (Option α)} (h : ExtremesOf cmp out s) (first second : Option α) :
    ExtremesOf cmp (comparePair cmp first second out.1 out.2) (s ++ [first, second]) := by
  have hmem : ∀ y, y ∈ first :: (s ++ [second]) ↔ y ∈ s ++ [first, second] := fun y => by
    simp only [List.mem_cons, List.mem_append, List.not_mem_nil, or_false]
    exact or_left_comm
  have hmem' : ∀ y, y ∈ second :: (s ++ [first]) ↔ y ∈ s ++ [first, second] := fun y => by
    simp only [List.mem_cons, List.mem_append, List.not_mem_nil, or_false]
    rw [or_left_comm, or_comm (a := y = second)]
  rw [comparePair]
  split
  · next hgt =>
    have hle : cmp second first ≤ 0 := hcmp.le_of_nonneg (le_of_lt hgt)
    constructor
    · exact ((h.1.concat hcmp second).cons hcmp List.mem_concat_self hle).congr hmem
    · exact ((greatestOf_concat hcmp h.2 first).cons hcmp.flip List.mem_concat_self hle).congr
        hmem'
  · next hle =>
    have hle : cmp first second ≤ 0 := not_lt.mp hle
    constructor
    · exact ((h.1.concat hcmp first).cons hcmp List.mem_concat_self hle).congr hmem'
    · exact ((greatestOf_concat hcmp h.2 second).cons hcmp.flip List.mem_concat_self hle).congr
        hmem

theorem minMaxLoop_spec (hM : ReadsSequence M Holds) (hcmp : IsComparator cmp) :
    ∀ {k i fuel : ℕ} {out : Option α × Option α} {l : σ} {s : List (Option α)}, Holds l s →
      s.length < intMax → i + 2 * k = s.length → k < fuel → ExtremesOf cmp out (s.take i) →
      ∃ out' l', minMaxLoop M cmp s.length fuel i out l = some (out', l') ∧ ExtremesOf cmp out' s
  | _, _, 0, _, _, _, _, _, _, hfuel, _ => absurd hfuel (Nat.not_lt_zero _)
  | 0, i, fuel + 1, out, l, s, h, hmax, hlen, _, hout => by
    rw [List.take_of_length_le (by omega)] at hout
    refine ⟨out, l, ?_, hout⟩
    rw [intMax] at hmax
    rw [minMaxLoop, int32_eq (by omega) (by omega), if_neg (by omega)]
  | k + 1, i, fuel + 1, out, l, s, h, hmax, hlen, hfuel, hout => by
    obtain ⟨hfirst, hget⟩ := get_item hM h (show i < s.length by omega)
    obtain ⟨hsecond, hget'⟩ := get_item hM hget (show i + 1 < s.length by omega)
    have hpair := comparePair_spec hcmp hout s[i] s[i + 1]
    have htake : s.take i ++ [s[i], s[i + 1]] = s.take (i + 2) := by
      rw [List.take_succ_eq_append_getElem (show i + 1 < s.length by omega),
        List.take_succ_eq_append_getElem (show i < s.length by omega), List.append_assoc]
      rfl
    rw [htake] at hpair
    obtain ⟨out', l', hrest, hout'⟩ :=
      minMaxLoop_spec hM hcmp (k := k) hget' hmax (by omega) (show k < fuel by omega) hpair
    refine ⟨out', l', ?_, hout'⟩
    have hi : int32 ((i : ℤ) + 1) = (i + 1 : ℕ) := by
      rw [intMax] at hmax
      exact int32_eq (by omega) (by omega)
    have hi' : int32 ((i : ℤ) + 2) = (i + 2 : ℕ) := by
      rw [intMax] at hmax
      exact int32_eq (by omega) (by omega)
    rw [minMaxLoop, hi, hi', if_pos (by omega)]
    dsimp only
    rw [hfirst, hsecond]
    exact hrest

/-- **`collections_min_max`** on a list of fewer than `INT_MAX` items. -/
theorem collectionsMinMax_spec (hM : ReadsSequence M Holds) (hcmp : IsComparator cmp) {l : σ}
    {s : List (Option α)} (h : Holds l s) (hmax : s.length < intMax) {fuel : ℕ}
    (hfuel : s.length < fuel) : ∃ out l', collectionsMinMax M cmp fuel l = some (out, l') ∧
      (s = [] → out = (none, none)) ∧ (s ≠ [] → ExtremesOf cmp out s) := by
  have hsize := hM.size_eq h
  by_cases hnil : s = []
  · refine ⟨(none, none), l, ?_, fun _ => rfl, fun hne => absurd hnil hne⟩
    rw [collectionsMinMax, hsize, hnil, if_pos (by simp)]
  have hpos := List.length_pos_of_ne_nil hnil
  obtain ⟨hfirst, hget⟩ := get_item hM h hpos
  have hone : ExtremesOf cmp (s[0], s[0]) (s.take 1) := by
    rw [take_one hpos]
    exact ⟨.singleton hcmp _, .singleton hcmp.flip _⟩
  rw [collectionsMinMax, hsize, if_neg (by omega)]
  rcases Nat.even_or_odd' s.length with ⟨k, hk | hk⟩
  · obtain ⟨hsecond, hget'⟩ := get_item hM hget (show 1 < s.length by omega)
    have hpair : ExtremesOf cmp (if cmp s[0] s[1] > 0 then (s[1], s[0]) else (s[0], s[1]))
        (s.take 2) := by
      have htwo : s.take 2 = [s[0], s[1]] := by
        rw [List.take_succ_eq_append_getElem (show 1 < s.length by omega), take_one hpos]
        rfl
      rw [htwo]
      exact extremesOf_pair hcmp s[0] s[1]
    obtain ⟨out, l', hloop, hout⟩ := minMaxLoop_spec hM hcmp hget' hmax
      (show 2 + 2 * (k - 1) = s.length by omega) (show k - 1 < fuel by omega) hpair
    refine ⟨out, l', ?_, fun h => absurd h hnil, fun _ => hout⟩
    rw [if_pos (by omega)]
    dsimp only
    rw [show (M.get l 0).1 = s[0] from hfirst, show (M.get (M.get l 0).2 1).1 = s[1] from hsecond]
    exact hloop
  · obtain ⟨out, l', hloop, hout⟩ := minMaxLoop_spec hM hcmp hget hmax
      (show 1 + 2 * k = s.length by omega) (show k < fuel by omega) hone
    refine ⟨out, l', ?_, fun h => absurd h hnil, fun _ => hout⟩
    rw [if_neg (by omega)]
    dsimp only
    rw [show (M.get l 0).1 = s[0] from hfirst]
    exact hloop

/-- **The counter wraps around** at a list of `INT_MAX` items: it stays odd, so the bound check
never fails. -/
theorem minMaxLoop_stuck : ∀ (fuel : ℕ) {i : ℤ} (out : Option α × Option α) (l : σ),
    i % 2 = 1 → minMaxLoop M cmp intMax fuel i out l = none
  | 0, _, _, _, _ => rfl
  | fuel + 1, i, out, l, hi => by
    have hlt : int32 (i + 1) < intMax := by
      rw [int32, intMax, Int.bmod_def]
      omega
    rw [minMaxLoop, if_pos hlt]
    refine minMaxLoop_stuck fuel _ _ ?_
    rw [int32, Int.bmod_def]
    omega

theorem collectionsMinMax_stuck (hM : ReadsSequence M Holds) {l : σ} {s : List (Option α)}
    (h : Holds l s) (hmax : s.length = intMax) (fuel : ℕ) :
    collectionsMinMax M cmp fuel l = none := by
  rw [collectionsMinMax, hM.size_eq h, hmax]
  exact minMaxLoop_stuck fuel _ _ (by decide)

/-! ## Searching

The window shrinks in every round. When it is empty, no item of the list is tied with the one that
is sought. -/

/-- The window of the search: the items before it are below, and those behind it above. -/
structure Window (cmp : Option α → Option α → ℤ) (item : Option α) (s : List (Option α))
    (low high : ℤ) : Prop where
  low_nonneg : 0 ≤ low
  low_le : low ≤ high + 1
  high_lt : high < s.length
  /-- Nothing before the window is tied with the item. -/
  below : ∀ ⦃k : ℕ⦄ ⦃x⦄, (k : ℤ) < low → s[k]? = some x → cmp x item < 0
  /-- Nothing behind it is either. -/
  above : ∀ ⦃k : ℕ⦄ ⦃x⦄, high < k → s[k]? = some x → 0 < cmp x item

/-- What the search returns. -/
def Found (cmp : Option α → Option α → ℤ) (item : Option α) (s : List (Option α)) (i : ℤ) : Prop :=
  (∃ (k : ℕ) (x : Option α), i = k ∧ s[k]? = some x ∧ cmp x item = 0) ∨
    i = -1 ∧ ∀ x ∈ s, cmp x item ≠ 0

/-- An empty window leaves nothing. -/
theorem Window.not_mem {item : Option α} {s : List (Option α)} {low high : ℤ}
    (h : Window cmp item s low high) (hempty : high < low) : ∀ x ∈ s, cmp x item ≠ 0 := by
  intro x hx htie
  obtain ⟨k, hk, rfl⟩ := List.getElem_of_mem hx
  have hread := List.getElem?_eq_getElem hk
  by_cases hkl : (k : ℤ) < low
  · have hlt := h.below hkl hread
    omega
  · have hgt := h.above (show high < k by omega) hread
    omega

theorem searchLoop_spec (hM : ReadsSequence M Holds) (hcmp : IsComparator cmp)
    (item : Option α) {s : List (Option α)} (hsorted : Ascends cmp s) (hmax : s.length ≤ intMax) :
    ∀ {fuel : ℕ} {low high : ℤ} {l : σ}, Holds l s → Window cmp item s low high →
      (high + 1 - low).toNat < fuel →
      ∃ i l', searchLoop M cmp item fuel low high l = some (i, l') ∧ Found cmp item s i
  | 0, _, _, _, _, _, hfuel => absurd hfuel (Nat.not_lt_zero _)
  | fuel + 1, low, high, l, h, hwin, hfuel => by
    rw [searchLoop]
    by_cases hle : low ≤ high
    · obtain ⟨hlow, -, hhigh, hbelow, habove⟩ := hwin
      obtain ⟨mid, hmid⟩ : ∃ mid : ℕ, (mid : ℤ) = low + (high - low) / 2 :=
        ⟨(low + (high - low) / 2).toNat, by omega⟩
      have hmlt : mid < s.length := by omega
      obtain ⟨hitem, hget⟩ := get_item hM h hmlt
      have hnext : int32 ((mid : ℤ) + 1) = mid + 1 := by
        rw [intMax] at hmax
        exact int32_eq (by omega) (by omega)
      have hread := List.getElem?_eq_getElem hmlt
      rw [if_pos hle, ← hmid]
      dsimp only
      rw [hitem, hnext]
      by_cases htie : cmp s[mid] item = 0
      · rw [if_pos htie]
        exact ⟨mid, _, rfl, .inl ⟨mid, _, rfl, hread, htie⟩⟩
      rw [if_neg htie]
      -- the order carries the comparison at `mid` to either side
      by_cases hlt : cmp s[mid] item < 0
      · rw [if_pos hlt]
        refine searchLoop_spec hM hcmp item hsorted hmax hget
          ⟨by omega, by omega, hhigh, fun k x hk hx => ?_, habove⟩ (by omega)
        rcases Nat.lt_or_eq_of_le (show k ≤ mid by omega) with hkm | rfl
        · exact hcmp.lt_of_le_of_lt (hsorted.le_of_getElem? hkm hx hread) hlt
        · rwa [Option.some.inj (hx.symm.trans hread)]
      · rw [if_neg hlt]
        refine searchLoop_spec hM hcmp item hsorted hmax hget
          ⟨hlow, by omega, by omega, hbelow, fun k x hk hx => ?_⟩ (by omega)
        have hgt : 0 < cmp s[mid] item := by omega
        rcases Nat.lt_or_eq_of_le (show mid ≤ k by omega) with hmk | rfl
        · have hgt' := (hcmp.neg_iff item s[mid]).mpr hgt
          exact (hcmp.neg_iff item x).mp
            (hcmp.lt_of_lt_of_le hgt' (hsorted.le_of_getElem? hmk hread hx))
        · rwa [Option.some.inj (hx.symm.trans hread)]
    · rw [if_neg hle]
      exact ⟨-1, l, rfl, .inr ⟨rfl, hwin.not_mem (not_le.mp hle)⟩⟩

/-- **`collections_binary_search`** on a list in order. -/
theorem collectionsBinarySearch_spec (hM : ReadsSequence M Holds) (hcmp : IsComparator cmp)
    (item : Option α) {l : σ} {s : List (Option α)} (h : Holds l s) (hsorted : Ascends cmp s)
    (hmax : s.length ≤ intMax) {fuel : ℕ} (hfuel : s.length < fuel) :
    ∃ i l', collectionsBinarySearch M cmp item fuel l = some (i, l') ∧ Found cmp item s i := by
  have hhigh : int32 ((s.length : ℤ) - 1) = s.length - 1 := by
    rw [intMax] at hmax
    exact int32_eq (by omega) (by omega)
  rw [collectionsBinarySearch, hM.size_eq h, hhigh]
  refine searchLoop_spec hM hcmp item hsorted hmax h ⟨le_refl 0, by omega, by omega, ?_, ?_⟩
    (by omega)
  · intro k x hk
    omega
  · intro k x hk hx
    obtain ⟨hlt, -⟩ := List.getElem?_eq_some_iff.mp hx
    omega

/-! ## All queries of a list -/

/-- What the callers of the methods rely on: the items that `min_max` stores are tied with those
that `min` and `max` return, and `binary_search` finds a tied item in a list in order. -/
def QueriesAgree (cmpList cmp : Option α → Option α → ℤ) (l : ListObject α) : Prop :=
  ∃ s, Shows l s ∧
    (∃ fuel out l', collectionsMinMax (listMethods cmpList) cmp fuel l = some (out, l') ∧
      (s = [] → out = (none, none)) ∧ (s ≠ [] → out.1 ∈ s ∧ out.2 ∈ s) ∧
      cmp out.1 (collectionsMin (listMethods cmpList) cmp l).1 = 0 ∧
      cmp out.2 (collectionsMax (listMethods cmpList) cmp l).1 = 0) ∧
    (Ascends cmp s → ∀ item, ∃ fuel i l',
      collectionsBinarySearch (listMethods cmpList) cmp item fuel l = some (i, l') ∧
      Found cmp item s i)

variable {cmpList : Option α → Option α → ℤ} {l : ListObject α} {s : List (Option α)}

theorem queriesAgree_of_lt (hcmp : IsComparator cmp) (h : l.Holds ListObject.allEqual s)
    (hmax : s.length < intMax) : QueriesAgree cmpList cmp l := by
  have hM := list_reads cmpList l.type
  have hl : l.Holds ListObject.allEqual s ∧ l.type = l.type := ⟨h, rfl⟩
  obtain ⟨out, l', hrun, hnone, hout⟩ :=
    collectionsMinMax_spec hM hcmp hl hmax (Nat.lt_succ_self s.length)
  obtain ⟨hminNone, hmin⟩ := collectionsMin_spec hM hcmp hl
  obtain ⟨hmaxNone, hmaxOut⟩ := collectionsMax_spec hM hcmp hl
  refine ⟨s, shows_of_holds h, ⟨s.length + 1, out, l', hrun, hnone, fun hne => ?_, ?_, ?_⟩,
    fun hsorted item => ⟨s.length + 1, collectionsBinarySearch_spec hM hcmp item hl hsorted
      (le_of_lt hmax) (Nat.lt_succ_self s.length)⟩⟩
  · exact ⟨(hout hne).1.1, (hout hne).2.1⟩
  · by_cases hnil : s = []
    · rw [hnone hnil, hminNone hnil]
      exact hcmp.self none
    · exact (hout hnil).1.tied hcmp (hmin hnil)
  · by_cases hnil : s = []
    · rw [hnone hnil, hmaxNone hnil]
      exact hcmp.self none
    · have htied := LeastOf.tied hcmp.flip (hout hnil).2 (hmaxOut hnil)
      exact hcmp.eq_symm htied

/-- A list of `INT_MAX` items. -/
theorem not_queriesAgree_of_eq (h : l.Holds ListObject.allEqual s) (hmax : s.length = intMax) :
    ¬QueriesAgree cmpList cmp l := by
  rintro ⟨-, -, ⟨fuel, out, l', hrun, -⟩, -⟩
  rw [collectionsMinMax_stuck (list_reads cmpList l.type) ⟨h, rfl⟩ hmax fuel] at hrun
  exact absurd hrun (by simp)

/-- A linked list that counted past `INT_MAX` shows no items. -/
theorem not_queriesAgree_of_wrapped (hwrap : l.Wrapped) : ¬QueriesAgree cmpList cmp l := by
  rintro ⟨s, ⟨hlen, -⟩, -⟩
  rw [hwrap.size_eq] at hlen
  omega

/-- **When the queries agree**, for every list that calls build and any total preorder: exactly when
the list counts fewer than `INT_MAX` items. -/
theorem queries_agree_iff (hcmp : IsComparator cmp) (h : l.Built cmpList) :
    QueriesAgree cmpList cmp l ↔ 0 ≤ l.size ∧ l.size < intMax := by
  rcases h.holds with ⟨s, hs, hmax⟩ | hwrap
  · have hsize := hs.size_eq
    rcases Nat.lt_or_eq_of_le hmax with hlt | heq
    · exact iff_of_true (queriesAgree_of_lt hcmp hs hlt) ⟨by omega, by omega⟩
    · exact iff_of_false (not_queriesAgree_of_eq hs heq) (by omega)
  · have hsize := hwrap.size_eq
    exact iff_of_false (not_queriesAgree_of_wrapped hwrap) (by omega)

/-- A list with two items. -/
theorem queries_agree_iff_two : ∃ l : ListObject ℤ, l.size = 2 ∧
    (QueriesAgree byValue byValue l ↔ 0 ≤ l.size ∧ l.size < intMax) := by
  obtain ⟨l, hbuilt, -, -, hsize⟩ := exists_array_two
  exact ⟨l, hsize, queries_agree_iff byValue_isComparator hbuilt⟩

/-- An array list of `INT_MAX` items, all of them `NULL`. -/
theorem queries_disagree : ∃ l : ListObject ℤ, l.Built byValue ∧ l.size = intMax ∧
    ¬QueriesAgree byValue byValue l := by
  obtain ⟨l₀, hcreate, hroom⟩ : ∃ l : ListObject ℤ,
      ListObject.createList .arrayList intMax .always = (some l, .always) ∧
        l.Holds ListObject.allEqual [] ∧ l.HasRoom intMax :=
    ⟨.array ⟨[], intMax, Nat.zero_le _, le_refl _⟩, rfl, rfl, Nat.le_of_eq (Nat.zero_add _)⟩
  obtain ⟨l, s, hbuilt, -, h, hlen⟩ :=
    exists_built_of_hasRoom byValue intMax (.create hcreate) hroom.1 hroom.2
  rw [List.length_nil, Nat.zero_add] at hlen
  exact ⟨l, hbuilt, by rw [h.size_eq, hlen], not_queriesAgree_of_eq h hlen⟩

end Sorter

end OvaLib
