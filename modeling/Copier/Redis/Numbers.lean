import Copier.Redis.Reply
import Mathlib.Data.List.Induction
import Mathlib.Tactic.IntervalCases

/-! Numbers as text: `ll2string` writes two digits at a time from the right, after
counting them, and `string2ll` reads exactly what it writes. -/
namespace Copier.Redis
open Reply (decimal ll2string)

/-! Decimal text. -/

theorem digitChar_byte {d : ℕ} (digit : d < 10) :
    UInt8.ofNat d.digitChar.toNat = UInt8.ofNat (48 + d) := by
  interval_cases d <;> rfl

/-- The last digit comes off the end. -/
theorem decimal_eq (n : ℕ) :
    decimal n = (if n < 10 then [] else decimal (n / 10)) ++ [UInt8.ofNat (48 + n % 10)] := by
  unfold decimal
  rw [Nat.toDigits_eq_if (by decide)]
  split
  · rename_i small
    rw [List.map_singleton, digitChar_byte small, Nat.mod_eq_of_lt small, List.nil_append]
  · rw [List.map_append, List.map_singleton, digitChar_byte (Nat.mod_lt n (by decide))]

theorem digit_toNat {d : ℕ} (digit : d < 10) : (UInt8.ofNat (48 + d)).toNat = 48 + d := by
  rw [UInt8.toNat_ofNat', Nat.mod_eq_of_lt (by omega)]

theorem decimal_length (n : ℕ) : (decimal n).length = if n < 10 then 1 else (decimal (n / 10)).length + 1 := by
  rw [decimal_eq]
  split <;> simp

theorem decimal_length_le (k : ℕ) : ∀ n, n < 10 ^ (k + 1) → (decimal n).length ≤ k + 1 := by
  induction k with
  | zero => exact fun n small => by rw [decimal_length, if_pos (by omega)]
  | succ k ih =>
    intro n small
    have rest := ih (n / 10) (Nat.div_lt_of_lt_mul (by rwa [← pow_succ']))
    rw [decimal_length]
    split <;> omega

/-- The number of digits, some of them cut off. -/
theorem decimal_length_div (k : ℕ) : ∀ n, 10 ^ k ≤ n →
    (decimal n).length = (decimal (n / 10 ^ k)).length + k := by
  induction k with
  | zero => exact fun n _ => by simp
  | succ k ih =>
    intro n large
    rw [pow_succ] at large
    have more : 10 ≤ n := le_trans (Nat.le_mul_of_pos_left 10 (by positivity)) large
    rw [decimal_length, if_neg (by omega), ih (n / 10) ((Nat.le_div_iff_mul_le (by decide)).mpr large),
      Nat.div_div_eq_div_mul, pow_succ, Nat.mul_comm 10, Nat.add_assoc]

/-- The value of digits that follow a number. -/
def digitsValue (v : ℕ) (s : Bytes) : ℕ := s.foldl (fun v b => v * 10 + (b.toNat - 48)) v

theorem digitsValue_append (v : ℕ) (s t : Bytes) :
    digitsValue v (s ++ t) = digitsValue (digitsValue v s) t := List.foldl_append

theorem digitsValue_ge (v : ℕ) (s : Bytes) : v ≤ digitsValue v s := by
  induction s generalizing v with
  | nil => exact le_rfl
  | cons b s ih => exact le_trans (by omega) (ih (v * 10 + (b.toNat - 48)))

/-- The digit loop reads what fits an unsigned number. -/
theorem digits_eq_some (s : Bytes) (v : ℕ) (fits : v ≤ ULLONG_MAX) :
    digits v s = some w ↔
      (∀ b ∈ s, isDigit b = true) ∧ digitsValue v s = w ∧ w ≤ ULLONG_MAX := by
  induction s generalizing v with
  | nil => simp only [digits, digitsValue, List.foldl_nil, Option.some.injEq]; grind
  | cons b s ih =>
    have grows := digitsValue_ge (v * 10 + (b.toNat - 48)) s
    have value : digitsValue v (b :: s) = digitsValue (v * 10 + (b.toNat - 48)) s := rfl
    rw [digits, List.forall_mem_cons, value]
    have unsigned : ULLONG_MAX = 18446744073709551615 := rfl
    split
    · rename_i digit
      simp only [isDigit, Bool.and_eq_true, decide_eq_true_eq] at digit
      split
      · simp only [reduceCtorEq, false_iff]
        omega
      · split
        · simp only [reduceCtorEq, false_iff]
          omega
        · rw [ih _ (by omega)]
          simp [isDigit, digit]
    · rename_i other
      simp [other]

/-- Text that `string2ll` takes for a positive number. -/
structure Canonical (s : Bytes) : Prop where
  some : s ≠ []
  first : 49 ≤ (s.headD NUL).toNat
  digits : ∀ b ∈ s, isDigit b = true

theorem positive_eq_some (s : Bytes) :
    positive s = some w ↔ Canonical s ∧ digitsValue 0 s = w ∧ w ≤ ULLONG_MAX := by
  cases s with
  | nil => exact ⟨nofun, fun known => absurd rfl known.1.some⟩
  | cons b s =>
    have unsigned : ULLONG_MAX = 18446744073709551615 := rfl
    have value : digitsValue 0 (b :: s) = digitsValue (b.toNat - 48) s := by
      simp [digitsValue]
    rw [positive, value]
    split
    · rename_i first
      rw [digits_eq_some s _ (by omega)]
      have digit : isDigit b = true := by
        simp only [isDigit, Bool.and_eq_true, decide_eq_true_eq]
        omega
      refine and_congr_left fun _ => ⟨fun rest => ⟨nofun, first.1, ?_⟩, fun canonical b member =>
        canonical.digits b (List.mem_cons_of_mem _ member)⟩
      exact List.forall_mem_cons.mpr ⟨digit, rest⟩
    · rename_i other
      simp only [reduceCtorEq, false_iff, not_and]
      intro canonical
      have digit := canonical.digits b List.mem_cons_self
      have first : 49 ≤ b.toNat := canonical.first
      simp only [isDigit, Bool.and_eq_true, decide_eq_true_eq] at digit
      omega

/-- The text of a positive number is canonical, and its value is the number. -/
theorem decimal_canonical (n : ℕ) (pos : 0 < n) :
    Canonical (decimal n) ∧ digitsValue 0 (decimal n) = n := by
  have digit : ∀ d < 10, isDigit (UInt8.ofNat (48 + d)) = true := by decide
  have last := digit_toNat (Nat.mod_lt n (show 0 < 10 by decide))
  rw [decimal_eq]
  split
  · rename_i small
    rw [Nat.mod_eq_of_lt small] at last
    refine ⟨⟨nofun, ?_, ?_⟩, ?_⟩
    · simp only [List.nil_append, List.headD_cons, Nat.mod_eq_of_lt small, last]
      omega
    · simpa [Nat.mod_eq_of_lt small] using digit n small
    · simp only [digitsValue, List.nil_append, List.foldl_cons, List.foldl_nil, Nat.mod_eq_of_lt small,
        last]
      omega
  · rename_i large
    obtain ⟨⟨some, first, digits⟩, value⟩ := decimal_canonical (n / 10) (by omega)
    refine ⟨⟨by simp, ?_, ?_⟩, ?_⟩
    · obtain ⟨b, s, eq⟩ := List.exists_cons_of_ne_nil some
      rwa [eq] at first ⊢
    · intro b member
      rcases List.mem_append.mp member with front | back
      · exact digits b front
      · rw [List.mem_singleton.mp back]
        exact digit _ (Nat.mod_lt n (by decide))
    · rw [digitsValue_append, value]
      simp only [digitsValue, List.foldl_cons, List.foldl_nil, last]
      omega
termination_by n

/-- The value of a canonical text has that text. -/
theorem decimal_digitsValue (canonical : Canonical s) : decimal (digitsValue 0 s) = s := by
  have byte : ∀ b : UInt8, isDigit b = true → UInt8.ofNat (48 + (b.toNat - 48)) = b := by
    intro b digit
    simp only [isDigit, Bool.and_eq_true, decide_eq_true_eq] at digit
    rw [show 48 + (b.toNat - 48) = b.toNat by omega, UInt8.ofNat_toNat]
  induction s using List.reverseRecOn with
  | nil => exact absurd rfl canonical.some
  | append_singleton s b ih =>
    have digit := canonical.digits b (by simp)
    have ten : b.toNat - 48 < 10 := by
      simp only [isDigit, Bool.and_eq_true, decide_eq_true_eq] at digit
      omega
    rw [digitsValue_append]
    simp only [digitsValue, List.foldl_cons, List.foldl_nil]
    change decimal (digitsValue 0 s * 10 + (b.toNat - 48)) = _
    rw [decimal_eq, show (digitsValue 0 s * 10 + (b.toNat - 48)) / 10 = digitsValue 0 s by omega,
      show (digitsValue 0 s * 10 + (b.toNat - 48)) % 10 = b.toNat - 48 by omega, byte b digit]
    congr 1
    cases s with
    | nil => rw [if_pos (by simpa [digitsValue] using ten)]
    | cons a s =>
      have front : Canonical (a :: s) :=
        ⟨nofun, canonical.first, fun c member => canonical.digits c (List.mem_append_left _ member)⟩
      have large : 0 < digitsValue 0 (a :: s) := by
        have first : 49 ≤ a.toNat := front.first
        exact lt_of_lt_of_le (by omega) (digitsValue_ge (0 * 10 + (a.toNat - 48)) s)
      rw [if_neg (by omega), ih front]

theorem positive_decimal (s : Bytes) :
    positive s = some w ↔ 0 < w ∧ w ≤ ULLONG_MAX ∧ s = decimal w := by
  rw [positive_eq_some]
  constructor
  · rintro ⟨canonical, rfl, fits⟩
    refine ⟨?_, fits, (decimal_digitsValue canonical).symm⟩
    obtain ⟨b, s, rfl⟩ := List.exists_cons_of_ne_nil canonical.some
    have first : 49 ≤ b.toNat := canonical.first
    exact lt_of_lt_of_le (by omega) (digitsValue_ge (0 * 10 + (b.toNat - 48)) s)
  · rintro ⟨pos, fits, rfl⟩
    obtain ⟨canonical, value⟩ := decimal_canonical w pos
    exact ⟨canonical, value, fits⟩

theorem decimal_head (n : ℕ) : ∃ b s, decimal n = b :: s ∧ 48 ≤ b.toNat ∧ (0 < n → 49 ≤ b.toNat) := by
  rcases Nat.eq_zero_or_pos n with rfl | pos
  · exact ⟨ZERO, [], rfl, by decide, nofun⟩
  · obtain ⟨canonical, -⟩ := decimal_canonical n pos
    obtain ⟨b, s, eq⟩ := List.exists_cons_of_ne_nil canonical.some
    have first := canonical.first
    rw [eq] at first
    exact ⟨b, s, eq, Nat.le_of_succ_le first, fun _ => first⟩

/-- `string2ll` takes exactly the texts of the numbers that fit. -/
theorem string2ll_eq_some (s : Bytes) (n : Int) :
    string2ll s = some n ↔ -(2 ^ 63) ≤ n ∧ n < 2 ^ 63 ∧ s = ll2string n := by
  have signed : LLONG_MAX = 9223372036854775807 := rfl
  have unsigned : ULLONG_MAX = 18446744073709551615 := rfl
  obtain ⟨c, more, text, low, first⟩ := decimal_head n.natAbs
  unfold ll2string
  rw [text]
  cases s with
  | nil => exact iff_of_false nofun fun known => by split at known <;> cases known.2.2
  | cons b rest =>
    simp only [string2ll]
    split
    · rename_i single
      rw [single, Option.some.injEq]
      constructor
      · rintro rfl
        refine ⟨by decide, by decide, ?_⟩
        rw [if_neg (by decide), ← text]
        rfl
      · rintro ⟨-, -, same⟩
        split at same <;> cases same
        by_contra other
        exact absurd (first (by omega)) (by decide)
    · rename_i other
      split
      · rename_i minus
        subst minus
        rw [Option.bind_eq_some_iff]
        constructor
        · rintro ⟨v, known, fits⟩
          obtain ⟨pos, -, rfl⟩ := (positive_decimal rest).mp known
          split at fits <;> cases fits
          rw [if_pos (by omega), ← text, Int.natAbs_neg, Int.natAbs_natCast]
          exact ⟨by omega, by omega, rfl⟩
        · rintro ⟨low', high, same⟩
          split at same
          · rw [← text] at same
            refine ⟨n.natAbs, (positive_decimal rest).mpr ⟨by omega, by omega, (List.cons.inj same).2⟩, ?_⟩
            rw [if_neg (by omega)]
            exact congrArg some (by omega)
          · cases same
            exact absurd low (by decide)
      · rename_i plus
        rw [Option.bind_eq_some_iff]
        constructor
        · rintro ⟨v, known, fits⟩
          obtain ⟨pos, -, same⟩ := (positive_decimal _).mp known
          split at fits <;> cases fits
          rw [if_neg (by omega), ← text, same]
          exact ⟨by omega, by omega, rfl⟩
        · rintro ⟨low', high, same⟩
          split at same
          · exact absurd (List.cons.inj same).1 plus
          · have pos : 0 < n.natAbs := by
              by_contra zero
              rw [Nat.eq_zero_of_not_pos zero] at text
              exact other (same.trans text.symm)
            refine ⟨n.natAbs, (positive_decimal _).mpr ⟨pos, by omega, same.trans text.symm⟩, ?_⟩
            rw [if_neg (by omega)]
            exact congrArg some (by omega)

/-! Writing. -/

namespace Util

def digits10 (v : ℕ) : ℕ :=
  if v < 10 then 1
  else if v < 100 then 2
  else if v < 1000 then 3
  else if v < 1000000000000 then
    if v < 100000000 then
      if v < 1000000 then
        if v < 10000 then 4 else 5 + if v ≥ 100000 then 1 else 0
      else 7 + if v ≥ 10000000 then 1 else 0
    else if v < 10000000000 then 9 + if v ≥ 1000000000 then 1 else 0
    else 11 + if v ≥ 100000000000 then 1 else 0
  else 12 + digits10 (v / 1000000000000)
termination_by v

def digitPairs : Bytes :=
  ascii "0001020304050607080910111213141516171819" ++
  ascii "2021222324252627282930313233343536373839" ++
  ascii "4041424344454647484950515253545556575859" ++
  ascii "6061626364656667686970717273747576777879" ++
  ascii "8081828384858687888990919293949596979899"

/-- The loop that writes two digits a round: the value left, the next place, the buffer. -/
def writePairs (value next : ℕ) (dst : Bytes) : ℕ × ℕ × Bytes :=
  if value < 100 then (value, next, dst)
  else
    let i := value % 100 * 2
    let dst := dst.set next (digitPairs.getD (i + 1) NUL)
    let dst := dst.set (next - 1) (digitPairs.getD i NUL)
    writePairs (value / 100) (next - 2) dst
termination_by value

/-- What it returns, and the buffer. -/
def ll2string (dst : Bytes) (dstlen : ℕ) (svalue : Int) : ℕ × Bytes :=
  let negative := svalue < 0
  let value : ℕ :=
    if svalue < 0 then
      if svalue ≠ -(LLONG_MAX : Int) - 1 then (-svalue).toNat else LLONG_MAX + 1
    else svalue.toNat
  let length := digits10 value + if negative then 1 else 0
  if dstlen ≤ length then (0, dst)
  else
    let dst := dst.set length NUL
    let (value, next, dst) := writePairs value (length - 1) dst
    let dst :=
      if value < 10 then dst.set next (UInt8.ofNat (48 + value))
      else
        let i := value * 2
        let dst := dst.set next (digitPairs.getD (i + 1) NUL)
        dst.set (next - 1) (digitPairs.getD i NUL)
    (length, if negative then dst.set 0 MINUS else dst)

theorem decimal_length_eq (k n : ℕ) (low : 10 ^ k ≤ n) (high : n < 10 ^ (k + 1)) :
    k + 1 = (decimal n).length := by
  have one : n / 10 ^ k < 10 := Nat.div_lt_of_lt_mul (by rwa [← pow_succ])
  rw [decimal_length_div k n low, decimal_length, if_pos one, Nat.add_comm]

theorem digits10_eq (v : ℕ) : digits10 v = (decimal v).length := by
  unfold digits10
  split
  · rename_i one
    rw [decimal_length, if_pos one]
  split
  · exact decimal_length_eq 1 v (by omega) (by omega)
  split
  · exact decimal_length_eq 2 v (by omega) (by omega)
  split
  · split
    · split
      · split
        · exact decimal_length_eq 3 v (by omega) (by omega)
        · split
          · exact decimal_length_eq 5 v (by omega) (by omega)
          · exact decimal_length_eq 4 v (by omega) (by omega)
      · split
        · exact decimal_length_eq 7 v (by omega) (by omega)
        · exact decimal_length_eq 6 v (by omega) (by omega)
    · split
      · split
        · exact decimal_length_eq 9 v (by omega) (by omega)
        · exact decimal_length_eq 8 v (by omega) (by omega)
      · split
        · exact decimal_length_eq 11 v (by omega) (by omega)
        · exact decimal_length_eq 10 v (by omega) (by omega)
  · have cut := decimal_length_div 12 v (by omega)
    rw [show 10 ^ 12 = 1000000000000 from rfl] at cut
    rw [digits10_eq (v / 1000000000000), cut, Nat.add_comm]
termination_by v

theorem digitPairs_eq : digitPairs = (List.range 100).flatMap fun r =>
    [UInt8.ofNat (48 + r / 10), UInt8.ofNat (48 + r % 10)] := by decide +kernel

theorem getD_pairs (f g : ℕ → UInt8) (l : List ℕ) (i : ℕ) (inside : i < l.length) :
    (l.flatMap fun r => [f r, g r]).getD (i * 2) NUL = f l[i] ∧
      (l.flatMap fun r => [f r, g r]).getD (i * 2 + 1) NUL = g l[i] := by
  induction l generalizing i with
  | nil => cases inside
  | cons r l ih =>
    cases i with
    | zero => exact ⟨rfl, rfl⟩
    | succ i => simpa [Nat.add_mul] using ih i (Nat.lt_of_succ_lt_succ inside)

theorem digitPairs_getD (r : ℕ) (two : r < 100) :
    digitPairs.getD (r * 2) NUL = UInt8.ofNat (48 + r / 10) ∧
      digitPairs.getD (r * 2 + 1) NUL = UInt8.ofNat (48 + r % 10) := by
  have inside : r < (List.range 100).length := by rwa [List.length_range]
  have pairs := getD_pairs (fun r => UInt8.ofNat (48 + r / 10)) (fun r => UInt8.ofNat (48 + r % 10))
    (List.range 100) r inside
  rwa [← digitPairs_eq, List.getElem_range] at pairs

/-- Two digits come off the end. -/
theorem decimal_pair (n : ℕ) (large : 100 ≤ n) :
    decimal n = decimal (n / 100) ++
      [digitPairs.getD (n % 100 * 2) NUL, digitPairs.getD (n % 100 * 2 + 1) NUL] := by
  obtain ⟨tens, ones⟩ := digitPairs_getD (n % 100) (Nat.mod_lt n (by decide))
  rw [tens, ones, decimal_eq n, if_neg (by omega), decimal_eq (n / 10), if_neg (by omega),
    Nat.div_div_eq_div_mul, List.append_assoc, show n % 100 / 10 = n / 10 % 10 by omega,
    show n % 100 % 10 = n % 10 by omega]
  rfl

theorem decimal_two (n : ℕ) (low : 10 ≤ n) (high : n < 100) :
    decimal n = [digitPairs.getD (n * 2) NUL, digitPairs.getD (n * 2 + 1) NUL] := by
  obtain ⟨tens, ones⟩ := digitPairs_getD n high
  rw [tens, ones, decimal_eq n, if_neg (by omega), decimal_eq (n / 10), if_pos (by omega),
    Nat.mod_eq_of_lt (show n / 10 < 10 by omega)]
  rfl

/-- The last two bytes of some, written. -/
theorem set_two {p tail : Bytes} {a b x y : UInt8} :
    ((p ++ [a, b] ++ tail).set (p.length + 1) y).set p.length x = p ++ [x, y] ++ tail := by
  simp

theorem last_two {l : Bytes} (two : 2 ≤ l.length) : ∃ p a b, l = p ++ [a, b] := by
  obtain rfl | ⟨q, b, rfl⟩ := List.eq_nil_or_concat l
  · cases two
  obtain rfl | ⟨p, a, rfl⟩ := List.eq_nil_or_concat q
  · simp at two
  · exact ⟨p, a, b, by simp⟩

/-- The loop leaves a number of one or two digits, and behind them has written the others. -/
theorem writePairs_eq (value : ℕ) : ∀ (space tail : Bytes), (decimal value).length ≤ space.length →
    ∃ left rest text, writePairs value (space.length - 1) (space ++ tail) =
        (left, rest.length - 1, rest ++ (text ++ tail)) ∧ left < 100 ∧
      decimal value = decimal left ++ text ∧ space = rest ++ space.drop rest.length ∧
        space.length = rest.length + text.length := by
  intro space tail room
  unfold writePairs
  split
  · rename_i small
    exact ⟨value, space, [], by simp, small, by simp, by simp, rfl⟩
  · rename_i large
    have pair := decimal_pair value (by omega)
    have long := congrArg List.length pair
    simp only [List.length_append, List.length_cons, List.length_nil] at long
    obtain ⟨p, a, b, rfl⟩ := last_two (l := space) (by omega)
    simp only [List.length_append, List.length_cons, List.length_nil] at room
    have next : (p ++ [a, b]).length - 1 = p.length + 1 := by simp
    dsimp only
    rw [next, Nat.add_sub_cancel, set_two, List.append_assoc p]
    obtain ⟨left, rest, text, eq, small, split, kept, count⟩ := writePairs_eq (value / 100) p
      ([digitPairs.getD (value % 100 * 2) NUL, digitPairs.getD (value % 100 * 2 + 1) NUL] ++ tail)
      (by omega)
    refine ⟨left, rest, text ++ [digitPairs.getD (value % 100 * 2) NUL,
      digitPairs.getD (value % 100 * 2 + 1) NUL], ?_, small, ?_, ?_, ?_⟩
    · rw [show p.length + 1 - 2 = p.length - 1 by omega, eq]
      simp only [List.append_assoc]
    · rw [pair, split, List.append_assoc]
    · have within : rest.length ≤ p.length := by omega
      rw [List.drop_append_of_le_length within, ← List.append_assoc, ← kept]
    · simp only [List.length_append, List.length_cons, List.length_nil]
      omega
termination_by value

/-- How `ll2string` goes on when the loop has ended. -/
theorem last_digits (left : ℕ) (two : left < 100) (r space text : Bytes)
    (length : space.length = (decimal left).length) :
    (if left < 10 then (r ++ space ++ text).set ((r ++ space).length - 1) (UInt8.ofNat (48 + left))
      else ((r ++ space ++ text).set ((r ++ space).length - 1) (digitPairs.getD (left * 2 + 1) NUL)).set
        ((r ++ space).length - 1 - 1) (digitPairs.getD (left * 2) NUL)) =
      r ++ decimal left ++ text := by
  split
  · rename_i one
    rw [decimal_eq, if_pos one, List.nil_append] at length ⊢
    obtain ⟨a, rfl⟩ := List.length_eq_one_iff.mp length
    simp [Nat.mod_eq_of_lt one]
  · rename_i more
    rw [decimal_two left (by omega) two] at length ⊢
    obtain ⟨p, a, b, rfl⟩ := last_two (l := space) (by rw [length]; exact Nat.le_refl 2)
    obtain rfl : p = [] := List.length_eq_zero_iff.mp (by simpa using length)
    simp

theorem magnitude (n : Int) :
    (if n < 0 then if n ≠ -(LLONG_MAX : Int) - 1 then (-n).toNat else LLONG_MAX + 1 else n.toNat) =
      n.natAbs := by
  have signed : LLONG_MAX = 9223372036854775807 := rfl
  split
  · split <;> omega
  · omega

theorem ll2string_length (n : Int) :
    digits10 n.natAbs + (if n < 0 then 1 else 0) = (Reply.ll2string n).length := by
  rw [digits10_eq, Reply.ll2string]
  split <;> rfl

/-- The text, a NUL behind it, and the rest of the buffer as it was. -/
theorem ll2string_written (dst : Bytes) (n : Int) (room : (Reply.ll2string n).length < dstlen)
    (within : dstlen ≤ dst.length) :
    ll2string dst dstlen n = ((Reply.ll2string n).length,
      Reply.ll2string n ++ NUL :: dst.drop ((Reply.ll2string n).length + 1)) := by
  unfold ll2string
  dsimp only
  rw [magnitude, ll2string_length, if_neg (by omega)]
  generalize length : (Reply.ll2string n).length = L at *
  have digits := (ll2string_length n).trans length
  rw [digits10_eq] at digits
  have ended : dst.set L NUL = dst.take L ++ NUL :: dst.drop (L + 1) := by
    rw [List.set_eq_take_append_cons_drop, if_pos (by omega)]
  have count : (dst.take L).length = L := by
    rw [List.length_take]
    omega
  obtain ⟨left, rest, text, eq, two, split, kept, spaces⟩ := writePairs_eq n.natAbs (dst.take L)
    (NUL :: dst.drop (L + 1)) (by rw [count]; omega)
  rw [count] at eq spaces
  have lengths := congrArg List.length split
  rw [List.length_append] at lengths
  -- Before the last digits there is room for a sign, if there is one.
  have signed : rest.length = (if n < 0 then 1 else 0) + (decimal left).length := by omega
  have written := last_digits left two (rest.take (if n < 0 then 1 else 0))
    (rest.drop (if n < 0 then 1 else 0)) (text ++ NUL :: dst.drop (L + 1))
    (by rw [List.length_drop]; omega)
  rw [List.take_append_drop] at written
  rw [ended, eq]
  dsimp only
  rw [written, List.append_assoc, ← List.append_assoc (decimal left), ← split, Reply.ll2string]
  split
  · rename_i negative
    obtain ⟨a, more, rfl⟩ := List.exists_cons_of_ne_nil (l := rest) (by
      rintro rfl
      simp only [List.length_nil, if_pos negative] at signed
      omega)
    simp
  · simp

theorem ll2string_refused (dst : Bytes) (n : Int) (full : dstlen ≤ (Reply.ll2string n).length) :
    ll2string dst dstlen n = (0, dst) := by
  unfold ll2string
  dsimp only
  rw [magnitude, ll2string_length, if_pos full]

/-- The text of a number that fits has at most twenty bytes. -/
theorem ll2string_short (n : Int) (low : -(2 ^ 63) ≤ n) (high : n < 2 ^ 63) :
    (Reply.ll2string n).length ≤ 20 := by
  have small := decimal_length_le 18 n.natAbs (by omega)
  rw [← ll2string_length, digits10_eq]
  split <;> omega

/-- `string2ll` reads a number from some text exactly if `ll2string` writes that text for
the number, into any buffer that holds every number. -/
theorem string2ll_reads_ll2string (s : Bytes) (n : Int) (dst : Bytes) (room : 21 ≤ dst.length) :
    string2ll s = some n ↔ -(2 ^ 63) ≤ n ∧ n < 2 ^ 63 ∧
      s = (ll2string dst dst.length n).2.take (ll2string dst dst.length n).1 := by
  rw [string2ll_eq_some]
  refine and_congr_right fun low => and_congr_right fun high => ?_
  have short := ll2string_short n low high
  rw [ll2string_written dst n (by omega) le_rfl, List.take_left]

theorem string2ll_reads_ll2string_least :
    let dst := List.replicate 21 NUL
    string2ll (ascii "-9223372036854775808") = some (-9223372036854775808) ↔
      -(2 ^ 63) ≤ (-9223372036854775808 : Int) ∧ (-9223372036854775808 : Int) < 2 ^ 63 ∧
        ascii "-9223372036854775808" = (ll2string dst dst.length (-9223372036854775808)).2.take
          (ll2string dst dst.length (-9223372036854775808)).1 :=
  string2ll_reads_ll2string _ _ _ (by decide)

end Util
end Copier.Redis
