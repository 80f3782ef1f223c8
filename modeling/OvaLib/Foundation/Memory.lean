import Mathlib.Data.List.Perm.Basic
import Mathlib.Data.List.Nodup
import Mathlib.Data.List.Pairwise
import Mathlib.Tactic.Ring

/-!
# Records in byte memory

Memory as bytes, words of several bytes in it, and the records that hang together by a pointer kept
in the first word of each. What writes to one range leaves alone is said once, for bytes; a chain of
records then survives every write that stays clear of their first words.

Addresses and sizes are natural numbers, and ranges are apart or they overlap; nothing is said of
types. A free list that lives in the memory it manages is a chain, and what its blocks hold
otherwise does not matter to it. Regions are cut into slots of one size side by side, and two slots
are apart if their regions are or their indices differ.

## Main results

* `load_store` — a word that was stored is read back
* `Chain.congr` — a chain only depends on the first words of its records
* `Chain.push`, `Chain.pop` — the first record of a chain comes and goes
* `slots_apart` — the slots cut out of disjoint regions are disjoint
-/

namespace Foundation

/-- Byte memory. -/
abbrev Bytes := ℕ → Fin 256

/-! ## Words -/

/-- The word of `n` bytes at an address, low byte first. -/
def load (m : Bytes) : ℕ → ℕ → ℕ
  | 0, _ => 0
  | n + 1, p => (m p : ℕ) + 256 * load m n (p + 1)

/-- A word of `n` bytes is written to an address. -/
def store (m : Bytes) (n p v : ℕ) : Bytes := fun q =>
  if p ≤ q ∧ q < p + n then Fin.ofNat 256 (v / 256 ^ (q - p)) else m q

/-- The byte 0. -/
def zeroByte : Fin 256 := 0

/-- `n` bytes from an address on are set to one value. -/
def fill (m : Bytes) (p n : ℕ) (b : Fin 256) : Bytes := fun q =>
  if p ≤ q ∧ q < p + n then b else m q

/-- The two memories agree on `n` bytes from an address on. -/
def AgreeOn (p n : ℕ) (m m' : Bytes) : Prop := ∀ q, p ≤ q → q < p + n → m q = m' q

/-- The ranges of `n` and of `k` bytes do not meet. -/
def RangesApart (p n q k : ℕ) : Prop := p + n ≤ q ∨ q + k ≤ p

theorem RangesApart.symm {p n q k : ℕ} (h : RangesApart p n q k) : RangesApart q k p n := Or.symm h

instance {n : ℕ} : Std.Symm fun p q => RangesApart p n q n := ⟨fun _ _ h => h.symm⟩

theorem RangesApart.mono {p n q k n' k' : ℕ} (h : RangesApart p n q k) (hn : n' ≤ n) (hk : k' ≤ k) :
    RangesApart p n' q k' := by
  rw [RangesApart] at *
  omega

theorem AgreeOn.trans {p n : ℕ} {m₁ m₂ m₃ : Bytes} (h : AgreeOn p n m₁ m₂)
    (h' : AgreeOn p n m₂ m₃) : AgreeOn p n m₁ m₃ := fun q hp hq => (h q hp hq).trans (h' q hp hq)

theorem agreeOn_store {p n q k : ℕ} (h : RangesApart p n q k) (m : Bytes) (v : ℕ) :
    AgreeOn p n m (store m k q v) := by
  intro r hp hr
  rw [RangesApart] at h
  rw [store, if_neg (by omega)]

theorem agreeOn_fill {p n q k : ℕ} (h : RangesApart p n q k) (m : Bytes) (b : Fin 256) :
    AgreeOn p n m (fill m q k b) := by
  intro r hp hr
  rw [RangesApart] at h
  rw [fill, if_neg (by omega)]

theorem load_congr {m m' : Bytes} : ∀ {n p : ℕ}, AgreeOn p n m m' → load m n p = load m' n p
  | 0, _, _ => rfl
  | n + 1, p, h => by
    have hrest : AgreeOn (p + 1) n m m' := fun q hp hq => h q (by omega) (by omega)
    rw [load, load, h p (Nat.le_refl _) (by omega), load_congr hrest]

/-- **A word that was stored is read back**, if it fits. -/
theorem load_store (m : Bytes) {n : ℕ} : ∀ {p v : ℕ}, v < 256 ^ n →
    load (store m n p v) n p = v := by
  induction n with
  | zero =>
    intro p v hv
    rw [pow_zero] at hv
    rw [load]
    omega
  | succ n ih =>
    intro p v hv
    have hrest : AgreeOn (p + 1) n (store m (n + 1) p v) (store m n (p + 1) (v / 256)) := by
      intro q hp hq
      have hpow : 256 ^ (q - p) = 256 * 256 ^ (q - (p + 1)) := by
        rw [← pow_succ']
        congr 1
        omega
      rw [store, store, if_pos (by omega), if_pos (by omega), hpow, Nat.div_div_eq_div_mul]
    have hfirst : ((store m (n + 1) p v p : Fin 256) : ℕ) = v % 256 := by
      rw [store, if_pos (by omega), Nat.sub_self, pow_zero, Nat.div_one, Fin.val_ofNat]
    rw [pow_succ] at hv
    rw [load, load_congr hrest, ih (by omega), hfirst]
    omega

/-! ## Chains of records -/

/-- The records at the given addresses, each with the address of the next in its first word; the
last one has 0 there. -/
inductive Chain (w : ℕ) (m : Bytes) : ℕ → List ℕ → Prop
  | nil : Chain w m 0 []
  | cons {p : ℕ} {l : List ℕ} : p ≠ 0 → Chain w m (load m w p) l → Chain w m p (p :: l)

variable {w : ℕ} {m m' : Bytes} {p : ℕ} {l : List ℕ}

/-- A chain only depends on the first words of its records. -/
theorem Chain.congr (h : Chain w m p l) (hagree : ∀ q ∈ l, AgreeOn q w m m') :
    Chain w m' p l := by
  induction h with
  | nil => exact .nil
  | cons hp _ ih =>
    rw [load_congr (hagree _ List.mem_cons_self)] at ih
    exact .cons hp (ih fun q hq => hagree q (List.mem_cons_of_mem _ hq))

/-- The first record comes off. -/
theorem Chain.pop (h : Chain w m p l) (hp : p ≠ 0) :
    ∃ l', l = p :: l' ∧ Chain w m (load m w p) l' := by
  cases h with
  | nil => exact absurd rfl hp
  | cons _ hrest => exact ⟨_, rfl, hrest⟩

theorem Chain.eq_nil (h : Chain w m 0 l) : l = [] := by
  cases h with
  | nil => rfl
  | cons hp _ => exact absurd rfl hp

/-- A record clear of the others goes to the front. -/
theorem Chain.push (h : Chain w m p l) {q : ℕ} (hq : q ≠ 0) (hp : p < 256 ^ w)
    (hapart : ∀ r ∈ l, RangesApart r w q w) : Chain w (store m w q p) q (q :: l) := by
  refine .cons hq ?_
  rw [load_store m hp]
  exact h.congr fun r hr => agreeOn_store (hapart r hr) m p

/-! ## Slots

A slot is the address of its first byte. -/

/-- The addresses of `count` slots of `stride` bytes each, side by side from `p` on. -/
def slots (stride : ℕ) : ℕ → ℕ → List ℕ
  | 0, _ => []
  | count + 1, p => p :: slots stride count (p + stride)

theorem mem_slots {stride p : ℕ} : ∀ {count base : ℕ}, p ∈ slots stride count base →
    base ≤ p ∧ p + stride ≤ base + count * stride
  | count + 1, base, h => by
    have hmul : (count + 1) * stride = count * stride + stride := Nat.succ_mul count stride
    rcases List.mem_cons.mp h with rfl | h
    · omega
    · have hrest := mem_slots h
      omega

theorem length_slots (stride : ℕ) : ∀ count base : ℕ, (slots stride count base).length = count
  | 0, _ => rfl
  | count + 1, base => congrArg (· + 1) (length_slots stride count (base + stride))

theorem slots_pairwise (stride : ℕ) : ∀ count base : ℕ,
    (slots stride count base).Pairwise fun p q => RangesApart p stride q stride
  | 0, _ => .nil
  | count + 1, base =>
    .cons (fun _ hq => .inl (mem_slots hq).1) (slots_pairwise stride count (base + stride))

/-- The slots cut out of disjoint regions are disjoint. -/
theorem slots_apart {header stride count bytes : ℕ} (hbytes : header + count * stride ≤ bytes)
    {bases : List ℕ} (h : bases.Pairwise fun c d => RangesApart c bytes d bytes) :
    (bases.flatMap fun c => slots stride count (c + header)).Pairwise
      fun p q => RangesApart p stride q stride := by
  rw [List.pairwise_flatMap]
  refine ⟨fun c _ => slots_pairwise _ _ _, h.imp ?_⟩
  intro c d hcd p hp q hq
  have hp := mem_slots hp
  have hq := mem_slots hq
  rw [RangesApart] at *
  omega

/-- There are fewer than `bound` distinct positive numbers below it. -/
theorem length_lt_of_nodup {bound : ℕ} {l : List ℕ} (hnodup : l.Nodup) (hbound : 0 < bound)
    (h : ∀ p ∈ l, 0 < p ∧ p < bound) : l.length < bound := by
  have hcons : (0 :: l).Nodup := List.nodup_cons.mpr ⟨fun h0 => by have := h 0 h0; omega, hnodup⟩
  have hsub : (0 :: l) ⊆ List.range bound := by
    intro p hp
    rw [List.mem_range]
    rcases List.mem_cons.mp hp with rfl | hp
    · exact hbound
    · exact (h p hp).2
  have hlen := (List.subperm_of_subset hcons hsub).length_le
  rwa [List.length_cons, List.length_range] at hlen

/-! ## Alignment -/

/-- Masking off the low bits rounds down. -/
theorem and_highBits {w k x : ℕ} (hk : k ≤ w) (hx : x < 2 ^ w) :
    x &&& (2 ^ w - 1 - (2 ^ k - 1)) = x / 2 ^ k * 2 ^ k := by
  have hmask : 2 ^ w - 1 - (2 ^ k - 1) = (2 ^ (w - k) - 1) <<< k := by
    have hpow : 2 ^ w = 2 ^ (w - k) * 2 ^ k := by rw [← pow_add, Nat.sub_add_cancel hk]
    have hpos : 0 < 2 ^ k := Nat.two_pow_pos k
    rw [Nat.shiftLeft_eq, Nat.sub_mul, ← hpow]
    omega
  rw [hmask, ← Nat.shiftLeft_eq, ← Nat.shiftRight_eq_div_pow]
  refine Nat.eq_of_testBit_eq fun i => ?_
  rw [Nat.testBit_and, Nat.testBit_shiftLeft, Nat.testBit_shiftLeft, Nat.testBit_shiftRight,
    Nat.testBit_two_pow_sub_one]
  by_cases hki : k ≤ i
  · rw [Nat.add_sub_cancel' hki]
    by_cases hiw : i < w
    · simp [hki, show i - k < w - k by omega]
    · rw [Nat.testBit_lt_two_pow (hx.trans_le (Nat.pow_le_pow_right (by decide) (by omega)))]
      simp
  · simp [hki]

end Foundation
