import Mathlib.Data.Nat.Bitwise
import Mathlib.Tactic.Positivity

/-! Counting with the bits reversed. The number a word reverses to is its place:
words with the same low bits have their places next to each other. -/
namespace Copier.Reversed
variable {w p q : ℕ}

def place (x : BitVec w) : ℕ := x.reverse.toNat

theorem place_lt (x : BitVec w) : place x < 2 ^ w := x.reverse.isLt

theorem testBit_place (x : BitVec w) (i : ℕ) :
    (place x).testBit i = (decide (i < w) && x.toNat.testBit (w - 1 - i)) := by
  rw [place, BitVec.testBit_toNat, BitVec.getLsbD_reverse, BitVec.getMsbD_eq_getLsbD,
    ← BitVec.testBit_toNat]

theorem place_eq_zero {x : BitVec w} : place x = 0 ↔ x = 0 := by
  refine Iff.trans ?_ BitVec.reverse_eq_zero_iff
  rw [← BitVec.toNat_inj, BitVec.toNat_zero, place]

/-- The low `p` bits of a word are the high `p` bits of its place. -/
theorem same_low (within : p ≤ w) (x y : BitVec w) :
    x.toNat % 2 ^ p = y.toNat % 2 ^ p ↔ place x / 2 ^ (w - p) = place y / 2 ^ (w - p) := by
  constructor
  · intro same
    refine Nat.eq_of_testBit_eq fun i => ?_
    rw [Nat.testBit_div_two_pow, Nat.testBit_div_two_pow, testBit_place, testBit_place]
    by_cases inside : i + (w - p) < w
    · have bits := congrArg (Nat.testBit · (w - 1 - (i + (w - p)))) same
      simp only [Nat.testBit_mod_two_pow] at bits
      simpa [inside, show w - 1 - (i + (w - p)) < p by omega] using bits
    · simp [inside]
  · intro same
    refine Nat.eq_of_testBit_eq fun i => ?_
    rw [Nat.testBit_mod_two_pow, Nat.testBit_mod_two_pow]
    by_cases low : i < p
    · have bits := congrArg (Nat.testBit · (p - 1 - i)) same
      simp only [Nat.testBit_div_two_pow, testBit_place] at bits
      simpa [show p - 1 - i + (w - p) < w by omega,
        show w - 1 - (p - 1 - i + (w - p)) = i by omega, low] using bits
    · simp [low]

theorem or_ones (n t : ℕ) : n ||| (2 ^ t - 1) = 2 ^ t * (n / 2 ^ t) + (2 ^ t - 1) := by
  have positive : 0 < 2 ^ t := by positivity
  rw [Nat.two_pow_add_eq_or_of_lt (by omega)]
  refine Nat.eq_of_testBit_eq fun i => ?_
  rw [Nat.testBit_or, Nat.testBit_or, Nat.testBit_two_pow_mul, Nat.testBit_two_pow_sub_one,
    Nat.testBit_div_two_pow]
  by_cases low : i < t
  · simp [low]
  · simp [low, show t ≤ i by omega]

/-- The next word in reversed order, the bits beyond the low `p` not counted. -/
def next (p : ℕ) (x : BitVec w) : BitVec w :=
  ((x ||| ~~~(BitVec.ofNat w (2 ^ p - 1))).reverse + 1).reverse

theorem place_next (within : p ≤ w) (x : BitVec w) :
    place (next p x) = (2 ^ (w - p) * (place x / 2 ^ (w - p) + 1)) % 2 ^ w := by
  have ones : (x ||| ~~~(BitVec.ofNat w (2 ^ p - 1))).reverse.toNat =
      place x ||| (2 ^ (w - p) - 1) := by
    refine Nat.eq_of_testBit_eq fun i => ?_
    rw [Nat.testBit_or, testBit_place, Nat.testBit_two_pow_sub_one, BitVec.testBit_toNat,
      BitVec.getLsbD_reverse, BitVec.getMsbD_eq_getLsbD]
    by_cases inside : i < w
    · rw [BitVec.getLsbD_or, BitVec.getLsbD_not, BitVec.getLsbD_ofNat,
        Nat.testBit_two_pow_sub_one, BitVec.testBit_toNat]
      by_cases low : i < w - p
      · simp [inside, low, show w - 1 - i < w by omega, show p ≤ w - 1 - i by omega]
      · simp [inside, low, show w - 1 - i < p by omega]
    · simp [inside, show ¬ i < w - p by omega]
  have positive : 0 < 2 ^ (w - p) := by positivity
  rw [next, place, BitVec.reverse_reverse_eq, BitVec.toNat_add, ones, or_ones, Nat.mul_succ,
    show (1 : BitVec w).toNat = 1 % 2 ^ w from rfl, Nat.add_mod_mod]
  congr 1
  omega

theorem place_mod_eq_zero (low : p ≤ w) (x : BitVec w) :
    place x % 2 ^ (w - p) = 0 ↔ ∀ i, p ≤ i → i < w → x.getLsbD i = false := by
  constructor
  · intro zero i from_ inside
    have bits := congrArg (Nat.testBit · (w - 1 - i)) zero
    simp only [Nat.testBit_mod_two_pow, testBit_place, BitVec.testBit_toNat, Nat.zero_testBit] at bits
    simpa [show w - 1 - i < w - p by omega, show w - 1 - i < w by omega,
      show w - 1 - (w - 1 - i) = i by omega] using bits
  · intro zero
    refine Nat.eq_of_testBit_eq fun i => ?_
    rw [Nat.testBit_mod_two_pow, Nat.zero_testBit, testBit_place, BitVec.testBit_toNat]
    by_cases inside : i < w - p
    · rw [zero (w - 1 - i) (by omega) (by omega), Bool.and_false, Bool.and_false]
    · rw [decide_eq_false inside, Bool.false_and]

/-- Whether the bits from `p` to `q` are all zero, for a word without bits from `q` on. -/
theorem masked_zero (inner : p ≤ q) (within : q ≤ w) (x : BitVec w)
    (boundary : place x % 2 ^ (w - q) = 0) :
    x &&& (BitVec.ofNat w (2 ^ p - 1) ^^^ BitVec.ofNat w (2 ^ q - 1)) = 0 ↔
      place x % 2 ^ (w - p) = 0 := by
  have masked (i : ℕ) (inside : i < w) :
      (x &&& (BitVec.ofNat w (2 ^ p - 1) ^^^ BitVec.ofNat w (2 ^ q - 1))).getLsbD i =
        (x.getLsbD i && decide (p ≤ i) && decide (i < q)) := by
    rw [BitVec.getLsbD_and, BitVec.getLsbD_xor, BitVec.getLsbD_ofNat, BitVec.getLsbD_ofNat,
      Nat.testBit_two_pow_sub_one, Nat.testBit_two_pow_sub_one]
    by_cases low : i < p
    · simp [low, show i < q by omega]
    · simp [inside, low, show p ≤ i by omega]
  rw [place_mod_eq_zero within] at boundary
  rw [place_mod_eq_zero (inner.trans within)]
  constructor
  · intro zero i from_ inside
    rcases lt_or_ge i q with below | above
    · have bit := masked i inside
      rw [zero] at bit
      simpa [from_, below] using bit
    · exact boundary i above inside
  · intro zero
    refine BitVec.eq_of_getLsbD_eq fun i inside => ?_
    rw [masked i inside]
    by_cases from_ : p ≤ i
    · simp [zero i from_ inside]
    · simp [from_]

end Copier.Reversed
