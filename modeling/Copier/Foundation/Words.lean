import Mathlib.Algebra.Order.Ring.Int

/-! Words of several bytes in a memory, the lowest byte first: reading back what was stored,
and what storing and moving leave alone. -/
namespace Copier.Words

/-- The number that `width` bytes make up. -/
def word (memory : ℕ → UInt8) (start : ℕ) : ℕ → ℕ
  | 0 => 0
  | width + 1 => (memory start).toNat + 256 * word memory (start + 1) width

def store (memory : ℕ → UInt8) (start width n : ℕ) : ℕ → UInt8 := fun a =>
  if start ≤ a ∧ a < start + width then UInt8.ofNat (n / 256 ^ (a - start)) else memory a

/-- `memmove`: as if what is moved were read before anything is written. -/
def move (memory : ℕ → UInt8) (dst src count : ℕ) : ℕ → UInt8 := fun a =>
  if dst ≤ a ∧ a < dst + count then memory (src + (a - dst)) else memory a

theorem word_congr {memory memory' : ℕ → UInt8} {start start' width : ℕ}
    (same : ∀ k < width, memory (start + k) = memory' (start' + k)) :
    word memory start width = word memory' start' width := by
  induction width generalizing start start' with
  | zero => rfl
  | succ width ih =>
    have first : memory start = memory' start' := same 0 (Nat.succ_pos width)
    have rest : word memory (start + 1) width = word memory' (start' + 1) width := by
      refine ih fun k low => ?_
      rw [Nat.add_assoc, Nat.add_assoc, Nat.add_comm 1 k]
      exact same (k + 1) (Nat.succ_lt_succ low)
    rw [word, word, first, rest]

theorem word_eq_mod {memory : ℕ → UInt8} {start width n : ℕ}
    (bytes : ∀ k < width, (memory (start + k)).toNat = n / 256 ^ k % 256) :
    word memory start width = n % 256 ^ width := by
  induction width generalizing start n with
  | zero => rw [word, Nat.pow_zero, Nat.mod_one]
  | succ width ih =>
    have first : (memory start).toNat = n % 256 := by
      have byte := bytes 0 (Nat.succ_pos width)
      rwa [Nat.add_zero, Nat.pow_zero, Nat.div_one] at byte
    have rest : word memory (start + 1) width = n / 256 % 256 ^ width := by
      refine ih fun k low => ?_
      have byte := bytes (k + 1) (Nat.succ_lt_succ low)
      rw [Nat.add_assoc, Nat.add_comm 1 k, byte, Nat.div_div_eq_div_mul, Nat.pow_succ']
    rw [word, first, rest, Nat.pow_succ', Nat.mod_mul]

/-- What is stored is read back, as far as it fits. -/
theorem word_store (memory : ℕ → UInt8) (start width n : ℕ) :
    word (store memory start width n) start width = n % 256 ^ width := by
  refine word_eq_mod fun k low => ?_
  have inside : start ≤ start + k ∧ start + k < start + width := by omega
  rw [store, if_pos inside, Nat.add_sub_cancel_left, UInt8.toNat_ofNat']

/-- Other words keep what they have. -/
theorem word_store_of_disjoint (memory : ℕ → UInt8) {start width start' width' : ℕ} (n : ℕ)
    (apart : start' + width' ≤ start ∨ start + width ≤ start') :
    word (store memory start width n) start' width' = word memory start' width' := by
  refine word_congr fun k low => ?_
  rw [store, if_neg]
  omega

/-- A word inside of what is moved. -/
theorem word_move (memory : ℕ → UInt8) {dst src count k width : ℕ} (inside : k + width ≤ count) :
    word (move memory dst src count) (dst + k) width = word memory (src + k) width := by
  refine word_congr fun j low => ?_
  rw [move, if_pos (by omega)]
  congr 1
  omega

theorem word_move_of_disjoint (memory : ℕ → UInt8) {dst src count start width : ℕ}
    (apart : start + width ≤ dst ∨ dst + count ≤ start) :
    word (move memory dst src count) start width = word memory start width := by
  refine word_congr fun k low => ?_
  rw [move, if_neg]
  omega

/-- A number between the bounds of a signed word of this size is read back with its sign. -/
theorem bmod_of_fits {width : ℕ} {v : ℤ} (positive : 0 < width)
    (low : -(256 ^ width / 2 : ℤ) ≤ v) (high : v < 256 ^ width / 2) :
    (((v % (256 ^ width : ℕ)).toNat % 256 ^ width : ℕ) : ℤ).bmod (256 ^ width) = v := by
  have pos : (0 : ℤ) < (256 ^ width : ℕ) := by exact_mod_cast Nat.pow_pos (by decide : 0 < 256)
  rw [Int.natCast_emod, Int.toNat_of_nonneg (Int.emod_nonneg v (Int.ne_of_gt pos)), Int.emod_emod,
    Int.emod_bmod]
  refine Int.bmod_eq_of_le ?_ ?_
  · push_cast
    exact low
  · push_cast
    obtain ⟨k, rfl⟩ : ∃ k, width = k + 1 := ⟨width - 1, by omega⟩
    rw [Int.pow_succ] at high ⊢
    omega

end Copier.Words
