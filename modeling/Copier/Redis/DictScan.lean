import Copier.Foundation.Reversed
import Copier.Redis.DictMap

/-! Iterating with a cursor over a dictionary that is used, resized and rehashed
between the calls. The cursor counts with its bits reversed, and what it has passed
in that order has been returned, whatever the tables are by then. -/
namespace Copier.Redis
open Buckets Reversed
variable {K V : Type} {m : K → Option V}

def revRounds : ℕ → ℕ → BitVec 64 → BitVec 64 → BitVec 64
  | 0, _, _, v => v
  | fuel + 1, s, mask, v =>
      let s := s / 2
      if s = 0 then v
      else
        let mask := mask ^^^ (mask <<< s)
        revRounds fuel s mask (((v >>> s) &&& mask) ||| ((v <<< s) &&& ~~~mask))

def rev (v : BitVec 64) : BitVec 64 := revRounds 7 64 (~~~0) v

namespace Dict

/-- Setting the unmasked bits, and incrementing the reversed cursor. -/
def increment (v m : BitVec 64) : BitVec 64 := rev (rev (v ||| ~~~m) + 1)

/-- The loop over the expansions of the cursor in the larger table. -/
def scanLarger (t1 : DictHt K V) (m0 m1 : BitVec 64) : ℕ → BitVec 64 →
    Option (BitVec 64 × List (K × V))
  | 0, _ => none
  | fuel + 1, v => do
      let de ← t1.table[(v &&& m1).toNat]?
      let v := increment v m1
      if v &&& (m0 ^^^ m1) = 0 then some (v, de)
      else
        let (v, more) ← scanLarger t1 m0 m1 fuel v
        some (v, de ++ more)

/-- The next cursor, and the entries `fn` is called with. -/
def dictScan (d : Dict K V) (v : BitVec 64) : Option (BitVec 64 × List (K × V)) :=
  if d.dictSize = 0 then some (0, [])
  else if ¬ d.dictIsRehashing then do
    let m0 := BitVec.ofNat 64 d.ht0.sizemask
    let de ← d.ht0.table[(v &&& m0).toNat]?
    some (increment v m0, de)
  else do
    let t0 := if d.ht1.size < d.ht0.size then d.ht1 else d.ht0
    let t1 := if d.ht1.size < d.ht0.size then d.ht0 else d.ht1
    let m0 := BitVec.ofNat 64 t0.sizemask
    let m1 := BitVec.ofNat 64 t1.sizemask
    let de ← t0.table[(v &&& m0).toNat]?
    let (v, more) ← scanLarger t1 m0 m1 t1.size v
    some (v, de ++ more)

end Dict

/-! `rev` reverses the bits: each round exchanges neighbours of one size. -/

/-- The mask of a round is what lets the bits through whose index has a zero there. -/
def Masks (mask : BitVec 64) (k : ℕ) : Prop :=
  ∀ i, i < 64 → mask.getLsbD i = !i.testBit k

theorem Masks.halve {mask : BitVec 64} (k : ℕ) (within : k < 6) (masks : Masks mask (k + 1)) :
    Masks (mask ^^^ (mask <<< 2 ^ k)) k := by
  have halves : ∀ k < 6, ∀ i < 64,
      ((!i.testBit (k + 1)) ^^ (!decide (i < 2 ^ k) && !(i - 2 ^ k).testBit (k + 1))) =
        !i.testBit k := by decide
  intro i inside
  rw [BitVec.getLsbD_xor, BitVec.getLsbD_shiftLeft, masks i inside,
    masks _ ((Nat.sub_le _ _).trans_lt inside),
    ← halves k within i inside, decide_eq_true inside, Bool.true_and]

theorem exchange {mask : BitVec 64} (k : ℕ) (within : k < 6) (masks : Masks mask k)
    (v : BitVec 64) (i : ℕ) (inside : i < 64) :
    (((v >>> 2 ^ k) &&& mask) ||| ((v <<< 2 ^ k) &&& ~~~mask)).getLsbD i =
      v.getLsbD (i ^^^ 2 ^ k) := by
  have neighbour : ∀ k < 6, ∀ i < 64,
      i ^^^ 2 ^ k = if i.testBit k then i - 2 ^ k else 2 ^ k + i := by decide
  have above : ∀ k < 6, ∀ i < 64, i.testBit k → ¬ i < 2 ^ k := by decide
  rw [BitVec.getLsbD_or, BitVec.getLsbD_and, BitVec.getLsbD_and, BitVec.getLsbD_not,
    BitVec.getLsbD_ushiftRight, BitVec.getLsbD_shiftLeft, masks i inside,
    neighbour k within i inside]
  cases bit : i.testBit k with
  | true => simp [inside, above k within i inside bit]
  | false => simp

theorem revRounds_bit (k : ℕ) (within : k ≤ 6) : ∀ {mask : BitVec 64}, Masks mask k →
    ∀ (v : BitVec 64) (i : ℕ), i < 64 →
    (revRounds (k + 1) (2 ^ k) mask v).getLsbD i = v.getLsbD (i ^^^ (2 ^ k - 1)) := by
  induction k with
  | zero => exact fun _ v i inside => by simp [revRounds]
  | succ k ih =>
    intro mask masks v i inside
    have half : 2 ^ (k + 1) / 2 = 2 ^ k := by rw [pow_succ, Nat.mul_div_cancel _ (by decide)]
    have ones : ∀ k < 6, ∀ i < 64,
        i ^^^ (2 ^ k - 1) < 64 ∧ i ^^^ (2 ^ k - 1) ^^^ 2 ^ k = i ^^^ (2 ^ (k + 1) - 1) := by decide
    obtain ⟨bound, eq⟩ := ones k (by omega) i inside
    have masks := masks.halve k (by omega)
    rw [revRounds, half]
    dsimp only
    rw [if_neg (by positivity), ih (by omega) masks _ i inside,
      exchange k (by omega) masks v _ bound, eq]

theorem rev_eq (v : BitVec 64) : rev v = v.reverse := by
  have last : ∀ i < 64, i ^^^ (2 ^ 6 - 1) = 63 - i := by decide
  have all : ∀ i < 64, (~~~0 : BitVec 64).getLsbD i = !i.testBit 6 := by decide
  refine BitVec.eq_of_getLsbD_eq fun i inside => ?_
  rw [BitVec.getLsbD_reverse, BitVec.getMsbD_eq_getLsbD, decide_eq_true inside, Bool.true_and,
    ← last i inside]
  exact revRounds_bit 6 le_rfl all v i inside

/-! One call. -/

namespace Dict
variable {type : DictType K} {d : Dict K V} {t : DictHt K V}

theorem increment_mask (p : ℕ) (v : BitVec 64) :
    increment v (BitVec.ofNat 64 (2 ^ p - 1)) = next p v := by
  rw [increment, rev_eq, rev_eq, next]

/-- Where the entry is in the order of the reversed cursor. -/
def at_ (type : DictType K) (e : K × V) : ℕ := place (type.hashFunction e.1)

/-- The bucket at a cursor has the entries in the same interval of the order. -/
theorem bucket_eq (ok : t.Ok type) (size : t.size = 2 ^ p) (fits : p ≤ 60) (v : BitVec 64) :
    BitVec.ofNat 64 t.sizemask = BitVec.ofNat 64 (2 ^ p - 1) ∧
      ∃ chain, t.table[(v &&& BitVec.ofNat 64 t.sizemask).toNat]? = some chain ∧
        (∀ e ∈ chain, e ∈ t.table.flatten) ∧
          ∀ e ∈ t.table.flatten, at_ type e / 2 ^ (64 - p) = place v / 2 ^ (64 - p) → e ∈ chain := by
  have less : 2 ^ p - 1 < 2 ^ 64 := by
    have := Nat.pow_le_pow_right (n := 2) (by decide) fits
    omega
  have index : (v &&& BitVec.ofNat 64 t.sizemask).toNat = v.toNat % 2 ^ p := by
    rw [BitVec.toNat_and, BitVec.toNat_ofNat, ok.mask, size, Nat.mod_eq_of_lt less,
      Nat.and_two_pow_sub_one_eq_mod]
  have inside : v.toNat % 2 ^ p < t.table.length := by
    rw [ok.length, size]
    exact Nat.mod_lt _ (by positivity)
  refine ⟨by rw [ok.mask, size], t.table[v.toNat % 2 ^ p], ?_, fun e member => ?_,
    fun e member same => ?_⟩
  · rw [index, List.getElem?_eq_getElem inside]
  · exact List.mem_flatten_of_mem (List.getElem_mem inside) member
  · have low := (same_low (by omega) (type.hashFunction e.1) v).mpr same
    obtain ⟨k, val⟩ := e
    refine (ok.placed.find ?_).mp member
    rw [ok.mask, size, Nat.and_two_pow_sub_one_eq_mod, low, List.getElem?_eq_getElem inside]

/-- From the cursor on, the loop returns all entries up to the end of the interval that
the bucket of the smaller table is. -/
theorem scanLarger_eq (ok : t.Ok type) (size : t.size = 2 ^ q) (fits : q ≤ 60) (inner : p ≤ q)
    (fuel : ℕ) : ∀ v : BitVec 64,
    2 ^ (q - p) * (place v / 2 ^ (64 - p) + 1) ≤ fuel + place v / 2 ^ (64 - q) →
    ∃ v' es, scanLarger t (BitVec.ofNat 64 (2 ^ p - 1)) (BitVec.ofNat 64 t.sizemask) fuel v =
        some (v', es) ∧
      place v' = 2 ^ (64 - p) * (place v / 2 ^ (64 - p) + 1) % 2 ^ 64 ∧
      (∀ e ∈ es, e ∈ t.table.flatten) ∧
        ∀ e ∈ t.table.flatten, place v ≤ at_ type e →
          at_ type e < 2 ^ (64 - p) * (place v / 2 ^ (64 - p) + 1) → e ∈ es := by
  have outer : 2 ^ (64 - p) = 2 ^ (64 - q) * 2 ^ (q - p) := by
    rw [← pow_add]
    congr 1
    omega
  have whole : 2 ^ 64 = 2 ^ (64 - q) * 2 ^ (q - p) * 2 ^ p := by
    rw [← pow_add, ← pow_add]
    congr 1
    omega
  have unit : 0 < 2 ^ (64 - q) := by positivity
  have part : 0 < 2 ^ (q - p) := by positivity
  rw [outer]
  generalize expansions : 2 ^ (q - p) = M at *
  induction fuel with
  | zero =>
    intro v enough
    rw [← Nat.div_div_eq_div_mul] at enough
    have := Nat.lt_mul_div_succ (place v / 2 ^ (64 - q)) part
    omega
  | succ fuel ih =>
    intro v enough
    obtain ⟨mask, de, found, inside, covers⟩ := bucket_eq ok size fits v
    have after := place_next (show q ≤ 64 by omega) v
    have below := place_lt v
    rw [← Nat.div_div_eq_div_mul] at enough ⊢
    -- The cursor is in unit `a`, and that in the interval `c` of `M` units.
    generalize here : place v / 2 ^ (64 - q) = a at *
    generalize interval : a / M = c at *
    have low : M * c ≤ a := interval ▸ Nat.mul_div_le a M
    have high : a < M * (c + 1) := interval ▸ Nat.lt_mul_div_succ a part
    have within : 2 ^ (64 - q) * (M * (c + 1)) ≤ 2 ^ 64 := by
      rw [whole, Nat.mul_assoc]
      refine Nat.mul_le_mul_left _ (Nat.mul_le_mul_left _ (Nat.succ_le_of_lt ?_))
      rw [whole] at below
      rw [← interval, ← here, Nat.div_div_eq_div_mul]
      exact Nat.div_lt_of_lt_mul below
    have first : ∀ e ∈ t.table.flatten, place v ≤ at_ type e →
        at_ type e < 2 ^ (64 - q) * (a + 1) → e ∈ de := fun e member from_ below => by
      refine covers e member (Nat.le_antisymm ?_ (here ▸ Nat.div_le_div_right from_))
      exact Nat.lt_succ_iff.mp (Nat.div_lt_of_lt_mul below)
    have boundary : place (next q v) % 2 ^ (64 - q) = 0 := by
      rw [after, Nat.mod_mod_of_dvd _ (pow_dvd_pow 2 (by omega)), Nat.mul_mod_right]
    have done := masked_zero inner (by omega) (next q v) boundary
    rw [outer] at done
    rw [scanLarger, found, Option.bind_eq_bind, Option.bind_some, mask, increment_mask]
    dsimp only
    rw [Nat.mul_assoc]
    rcases (Nat.succ_le_of_lt high).eq_or_lt with last | more
    · have end_ : a + 1 = M * (c + 1) := last
      have stops : place (next q v) % (2 ^ (64 - q) * M) = 0 := by
        rw [after, end_, ← Nat.mul_assoc, Nat.mod_mod_of_dvd _ ⟨2 ^ p, whole⟩, Nat.mul_mod_right]
      rw [if_pos (done.mpr stops)]
      exact ⟨_, de, rfl, by rw [after, end_], inside, fun e member from_ below =>
        first e member from_ (by rwa [end_])⟩
    · have small : 2 ^ (64 - q) * (a + 1) < 2 ^ 64 :=
        (Nat.mul_lt_mul_of_pos_left more unit).trans_le within
      rw [Nat.mod_eq_of_lt small] at after
      have unit' : place (next q v) / 2 ^ (64 - q) = a + 1 := by
        rw [after, Nat.mul_div_cancel_left _ unit]
      have interval' : (a + 1) / M = c := by
        refine Nat.div_eq_of_lt_le ?_ ?_
        · rw [Nat.mul_comm]
          omega
        · rw [Nat.mul_comm]
          exact more
      have goes : ¬ place (next q v) % (2 ^ (64 - q) * M) = 0 := by
        rw [after, Nat.mul_mod_mul_left]
        intro zero
        have := Nat.div_add_mod (a + 1) M
        rw [interval', (Nat.mul_eq_zero.mp zero).resolve_left unit.ne'] at this
        omega
      obtain ⟨v', es, eq, ends, inside', rest⟩ := ih (next q v) (by
        rw [← Nat.div_div_eq_div_mul, unit', interval']
        omega)
      rw [← Nat.div_div_eq_div_mul, unit', interval', Nat.mul_assoc] at ends rest
      rw [mask] at eq
      rw [if_neg (mt done.mp goes), eq, Option.bind_eq_bind, Option.bind_some]
      refine ⟨v', de ++ es, rfl, ends, fun e member => ?_, fun e member from_ below => ?_⟩
      · exact (List.mem_append.mp member).elim (inside e) (inside' e)
      · rcases lt_or_ge (at_ type e) (2 ^ (64 - q) * (a + 1)) with early | late
        · exact List.mem_append_left _ (first e member from_ early)
        · exact List.mem_append_right _ (rest e member (after ▸ late) below)

/-- The next cursor is at the end of an interval, and zero after the last one. -/
theorem next_cursor (v : BitVec 64) (fits : p ≤ 60) {v' : BitVec 64}
    (ends : place v' = 2 ^ (64 - p) * (place v / 2 ^ (64 - p) + 1) % 2 ^ 64) :
    v' = 0 ∧ 2 ^ (64 - p) * (place v / 2 ^ (64 - p) + 1) = 2 ^ 64 ∨
      place v' = 2 ^ (64 - p) * (place v / 2 ^ (64 - p) + 1) := by
  have whole : 2 ^ 64 = 2 ^ (64 - p) * 2 ^ p := by
    rw [← pow_add]
    congr 1
    omega
  have within : 2 ^ (64 - p) * (place v / 2 ^ (64 - p) + 1) ≤ 2 ^ 64 := by
    have below := place_lt v
    rw [whole] at below ⊢
    exact Nat.mul_le_mul_left _ (Nat.succ_le_of_lt (Nat.div_lt_of_lt_mul below))
  rcases within.eq_or_lt with last | more
  · rw [last, Nat.mod_self] at ends
    exact .inl ⟨place_eq_zero.mp ends, last⟩
  · exact .inr (ends.trans (Nat.mod_eq_of_lt more))

/-- A call returns what the tables have between the two cursors, and moves on by at least
a bucket of the first table. -/
structure Scanned (type : DictType K) (d : Dict K V) (v v' : BitVec 64) (es : List (K × V)) :
    Prop where
  sound : ∀ e ∈ es, e ∈ d.entries
  complete : ∀ e ∈ d.entries, place v ≤ at_ type e → v' = 0 ∨ at_ type e < place v' → e ∈ es
  moves : ∀ p, p ≤ 64 → d.ht0.size ≤ 2 ^ p → place v % 2 ^ (64 - p) = 0 → v' ≠ 0 →
    place v' % 2 ^ (64 - p) = 0 ∧ place v + 2 ^ (64 - p) ≤ place v'

theorem Scanned.of_interval {v' : BitVec 64} (v : BitVec 64) (fits : p ≤ 60)
    (size : 2 ^ p ≤ d.ht0.size)
    (ends : place v' = 2 ^ (64 - p) * (place v / 2 ^ (64 - p) + 1) % 2 ^ 64)
    (sound : ∀ e ∈ es, e ∈ d.entries)
    (complete : ∀ e ∈ d.entries, place v ≤ at_ type e →
      at_ type e < 2 ^ (64 - p) * (place v / 2 ^ (64 - p) + 1) → e ∈ es) :
    Scanned type d v v' es where
  sound := sound
  complete e member from_ before := by
    refine complete e member from_ ?_
    rcases next_cursor v fits ends with ⟨-, last⟩ | more
    · rw [last]
      exact place_lt _
    · rcases before with rfl | before
      · rw [place_eq_zero.mpr rfl] at more
        exact absurd more (by positivity)
      · rwa [← more]
  moves q within larger aligned some := by
    have more := (next_cursor v fits ends).resolve_left fun last => some last.1
    have inner : p ≤ q := (Nat.pow_le_pow_iff_right (by decide)).mp (size.trans larger)
    have divides : 2 ^ (64 - q) ∣ 2 ^ (64 - p) := pow_dvd_pow 2 (by omega)
    have boundary : 2 ^ (64 - q) ∣ place v' := more ▸ divides.mul_right _
    refine ⟨Nat.mod_eq_zero_of_dvd boundary, ?_⟩
    obtain ⟨a, here⟩ := Nat.dvd_of_mod_eq_zero aligned
    obtain ⟨b, there⟩ := boundary
    have beyond : place v < place v' := by
      rw [more]
      exact Nat.lt_mul_div_succ _ (by positivity)
    rw [here, there] at beyond
    rw [here, there, ← Nat.mul_succ]
    exact Nat.mul_le_mul_left _ (Nat.lt_of_mul_lt_mul_left beyond)

/-- Two tables, the smaller one first. -/
theorem scanBoth_eq {t0 t1 : DictHt K V} (ok0 : t0.Ok type) (ok1 : t1.Ok type)
    (size0 : t0.size = 2 ^ p) (size1 : t1.size = 2 ^ q) (inner : p ≤ q) (fits : q ≤ 60)
    (v : BitVec 64) :
    ∃ de v' more, t0.table[(v &&& BitVec.ofNat 64 t0.sizemask).toNat]? = some de ∧
      scanLarger t1 (BitVec.ofNat 64 t0.sizemask) (BitVec.ofNat 64 t1.sizemask) t1.size v =
        some (v', more) ∧
      place v' = 2 ^ (64 - p) * (place v / 2 ^ (64 - p) + 1) % 2 ^ 64 ∧
      (∀ e ∈ de ++ more, e ∈ t0.table.flatten ∨ e ∈ t1.table.flatten) ∧
        ∀ e, e ∈ t0.table.flatten ∨ e ∈ t1.table.flatten → place v ≤ at_ type e →
          at_ type e < 2 ^ (64 - p) * (place v / 2 ^ (64 - p) + 1) → e ∈ de ++ more := by
  obtain ⟨mask, de, found, inside, covers⟩ := bucket_eq ok0 size0 (inner.trans fits) v
  have enough : 2 ^ (q - p) * (place v / 2 ^ (64 - p) + 1) ≤
      t1.size + place v / 2 ^ (64 - q) := by
    have outer : 2 ^ (64 - p) = 2 ^ (64 - q) * 2 ^ (q - p) := by
      rw [← pow_add]
      congr 1
      omega
    have low := Nat.mul_div_le (place v / 2 ^ (64 - q)) (2 ^ (q - p))
    have room := Nat.pow_le_pow_right (n := 2) (by decide) (Nat.sub_le q p)
    rw [outer, ← Nat.div_div_eq_div_mul, Nat.mul_succ, size1]
    omega
  obtain ⟨v', more, eq, ends, inside', rest⟩ := scanLarger_eq ok1 size1 fits inner t1.size v enough
  refine ⟨de, v', more, found, mask ▸ eq, ends, fun e member => ?_, fun e member from_ below => ?_⟩
  · exact (List.mem_append.mp member).imp (inside e) (inside' e)
  · rcases member with first | second
    · refine List.mem_append_left _ (covers e first (Nat.le_antisymm ?_ (Nat.div_le_div_right from_)))
      exact Nat.lt_succ_iff.mp (Nat.div_lt_of_lt_mul below)
    · exact List.mem_append_right _ (rest e second from_ below)

theorem Inv.scan (inv : d.Inv type m) (v : BitVec 64) :
    ∃ v' es, dictScan d v = some (v', es) ∧ Scanned type d v v' es := by
  unfold dictScan
  split
  · rename_i unused
    have nothing : d.entries = [] := by
      rw [← List.length_eq_zero_iff, inv.rep.length, ← inv.size, unused]
    exact ⟨0, [], rfl, nofun, by simp [nothing], fun _ _ _ _ some => absurd rfl some⟩
  rename_i used
  have some0 := inv.table used
  obtain ⟨p, low0, fits0, size0⟩ := inv.ok0.size.resolve_left some0
  split
  · rename_i idle
    have still : d.rehashidx = none := by simpa [dictIsRehashing] using idle
    have only : d.entries = d.ht0.table.flatten := by
      rw [entries, inv.idle still, _dictReset, List.flatten_nil, List.append_nil]
    obtain ⟨mask, de, found, inside, covers⟩ := bucket_eq inv.ok0 size0 fits0 v
    dsimp only
    rw [found, Option.bind_eq_bind, Option.bind_some, mask, increment_mask]
    refine ⟨_, de, rfl, .of_interval v fits0 size0.ge (place_next (by omega) v) (by rwa [only])
      fun e member from_ before => ?_⟩
    rw [only] at member
    refine covers e member (Nat.le_antisymm ?_ (Nat.div_le_div_right from_))
    exact Nat.lt_succ_iff.mp (Nat.div_lt_of_lt_mul before)
  · rename_i rehashing
    obtain ⟨i, began⟩ := Option.isSome_iff_exists.mp (not_not.mp rehashing)
    obtain ⟨-, some1, -⟩ := inv.begun i began
    obtain ⟨q, low1, fits1, size1⟩ := inv.ok1.size.resolve_left some1
    dsimp only
    split
    · rename_i smaller
      have inner : q ≤ p := by
        rw [size0, size1] at smaller
        exact ((Nat.pow_lt_pow_iff_right (by decide)).mp smaller).le
      obtain ⟨de, v', more, found, eq, ends, sound, complete⟩ :=
        scanBoth_eq inv.ok1 inv.ok0 size1 size0 inner fits0 v
      rw [found, Option.bind_eq_bind, Option.bind_some, eq, Option.bind_eq_bind, Option.bind_some]
      exact ⟨v', _, rfl, .of_interval v fits1 (size1 ▸ smaller.le) ends
        (fun e member => List.mem_append.mpr (sound e member).symm)
        fun e member => complete e (List.mem_append.mp member).symm⟩
    · rename_i larger
      have inner : p ≤ q := by
        rw [size0, size1, not_lt] at larger
        exact (Nat.pow_le_pow_iff_right (by decide)).mp larger
      obtain ⟨de, v', more, found, eq, ends, sound, complete⟩ :=
        scanBoth_eq inv.ok0 inv.ok1 size0 size1 inner fits1 v
      rw [found, Option.bind_eq_bind, Option.bind_some, eq, Option.bind_eq_bind, Option.bind_some]
      exact ⟨v', _, rfl, .of_interval v fits0 size0.ge ends
        (fun e member => List.mem_append.mpr (sound e member))
        fun e member => complete e (List.mem_append.mp member)⟩

end Dict

/-! Iterations: calls, and between them whatever else is done with the dictionary. -/

structure Iteration (K V : Type) where
  can : DictResizeEnable
  dict : Dict K V
  cursor : BitVec 64
  calls : ℕ
  seen : List (K × V)

namespace Iteration
variable [DecidableEq K] {type : DictType K} {key : K}

def start (s : DictResizeEnable × Dict K V) : Iteration K V := ⟨s.1, s.2, 0, 0, []⟩

/-- The last call returned zero. -/
def finished (i : Iteration K V) : Prop := i.cursor = 0 ∧ 0 < i.calls

instance (i : Iteration K V) : Decidable i.finished := inferInstanceAs (Decidable (_ ∧ _))

inductive Event (K V : Type)
  | op (op : Dict.Op K V)
  | scan

def step (type : DictType K) (i : Iteration K V) : Event K V → Option (Iteration K V)
  | .op op => do
      let (s, _) ← Dict.step type (i.can, i.dict) op
      some { i with can := s.1, dict := s.2 }
  | .scan =>
      if i.finished then none
      else do
        let (cursor, es) ← i.dict.dictScan i.cursor
        some { i with cursor := cursor, calls := i.calls + 1, seen := i.seen ++ es }

def Sized (i : Iteration K V) : Prop := i.dict.dictSize < 2 ^ 60
def Holds (key : K) (i : Iteration K V) : Prop := key ∈ i.dict.entries.map Prod.fst

instance (i : Iteration K V) : Decidable i.Sized := inferInstanceAs (Decidable (_ < _))
instance (i : Iteration K V) : Decidable (i.Holds key) := inferInstanceAs (Decidable (_ ∈ _))

theorem built_inv {can : DictResizeEnable} {before : List (Dict.Op K V)}
    (fits : before.length ≤ 2 ^ 60)
    (built : Dict.answers type (can, dictCreate) before = some (s, replies)) :
    ∃ m, s.2.Inv type m := by
  have created : (dictCreate : Dict K V).Inv type fun _ => none := .create
  obtain ⟨s', eq, kept⟩ := Dict.answers_eq before can created
    (by rwa [show (dictCreate : Dict K V).dictSize = 0 from rfl, zero_add])
  cases built.symm.trans eq
  exact ⟨_, kept⟩

theorem step_inv {i j : Iteration K V} (inv : ∃ m, i.dict.Inv type m) (sized : i.Sized)
    (stepped : step type i l = some j) : ∃ m, j.dict.Inv type m := by
  obtain ⟨m, inv⟩ := inv
  cases l with
  | op op =>
    obtain ⟨s, eq, kept⟩ := Dict.step_eq i.can inv sized op
    rw [step, eq] at stepped
    cases stepped
    exact ⟨_, kept⟩
  | scan =>
    obtain ⟨v', es, eq, -⟩ := inv.scan i.cursor
    simp only [step, eq] at stepped
    split at stepped
    · cases stepped
    · cases stepped
      exact ⟨m, inv⟩

/-! Five keys of one bucket; while the table is rehashed, a sixth is added and the first
deleted. -/

def filling : List (Dict.Op (BitVec 64) ℕ) :=
  [.add 0 1, .add 4 2, .add 8 3, .add 12 4, .add 16 5]

def filled : DictResizeEnable × Dict (BitVec 64) ℕ :=
  ((Dict.answers ⟨id, none⟩ (.enable, dictCreate) filling).getD ((.enable, dictCreate), [])).1

def scanning : List (Event (BitVec 64) ℕ) :=
  [.scan, .op (.add 3 6), .scan, .op (.delete 0), .scan, .op (.find 3), .scan, .scan, .scan, .scan]

def scanned : Iteration (BitVec 64) ℕ :=
  (Runs.run (step ⟨id, none⟩) (start filled) scanning).getD (start filled)

/-- What the cursor has passed has been returned. -/
structure Covered (type : DictType K) (key : K) (i : Iteration K V) : Prop where
  inv : ∃ m, i.dict.Inv type m
  passed : i.finished ∨ place (type.hashFunction key) < place i.cursor →
    key ∈ i.seen.map Prod.fst

theorem Covered.step {i j : Iteration K V} (covered : Covered type key i) (sized : i.Sized)
    (holds : i.Holds key) (stepped : step type i l = some j) : Covered type key j := by
  refine ⟨step_inv covered.inv sized stepped, ?_⟩
  cases l with
  | op op =>
    obtain ⟨m, inv⟩ := covered.inv
    obtain ⟨s, eq, -⟩ := Dict.step_eq i.can inv sized op
    rw [Iteration.step, eq] at stepped
    cases stepped
    exact covered.passed
  | scan =>
    obtain ⟨m, inv⟩ := covered.inv
    obtain ⟨v', es, eq, scanned⟩ := inv.scan i.cursor
    simp only [Iteration.step, eq] at stepped
    split at stepped
    · cases stepped
    cases stepped
    intro reached
    rcases lt_or_ge (place (type.hashFunction key)) (place i.cursor) with before | after
    · rw [List.map_append]
      exact List.mem_append_left _ (covered.passed (.inr before))
    · obtain ⟨e, member, rfl⟩ := List.mem_map.mp holds
      refine List.mem_map_of_mem (List.mem_append_right _ (scanned.complete e member after ?_))
      exact reached.imp_left fun finished => finished.1

/-- An iteration returns every key that is in the dictionary throughout, whatever else
is added, deleted, resized and rehashed between its calls. -/
theorem scan_returns_all (type : DictType K) {can : DictResizeEnable} {before : List (Dict.Op K V)}
    (fits : before.length ≤ 2 ^ 60)
    (built : Dict.answers type (can, dictCreate) before = some (s, replies))
    (path : Runs.Path (step type) (fun i _ => i.Sized ∧ i.Holds key) (start s) ls i)
    (finished : i.finished) : key ∈ i.seen.map Prod.fst := by
  have initial : Covered type key (start s) := by
    refine ⟨built_inv fits built, fun reached => ?_⟩
    rcases reached with ⟨-, called⟩ | below
    · exact absurd called (by simp [start])
    · rw [show (start s).cursor = 0 from rfl, place_eq_zero.mpr rfl] at below
      omega
  have covered := path.invariant (Covered type key) initial
    fun covered guard stepped => covered.step guard.1 guard.2 stepped
  exact covered.passed (.inl finished)

theorem scan_returns_all_moving : scanned.finished ∧ (16 : BitVec 64) ∈ scanned.seen.map Prod.fst := by
  have built : Dict.answers ⟨id, none⟩ (.enable, dictCreate) filling =
      some (filled, List.replicate 5 (.status true)) := rfl
  have path : Runs.Path (step ⟨id, none⟩) (fun i _ => i.Sized ∧ i.Holds 16) (start filled)
      scanning scanned := .of_run rfl
  exact ⟨by decide, scan_returns_all ⟨id, none⟩ (by decide) built path (by decide)⟩

/-- As far as the cursor is, so many buckets of the largest first table there was. -/
structure Bounded (type : DictType K) (p : ℕ) (i : Iteration K V) : Prop where
  inv : ∃ m, i.dict.Inv type m
  aligned : place i.cursor % 2 ^ (64 - p) = 0
  calls : i.finished ∧ i.calls ≤ 2 ^ p ∨ ¬ i.finished ∧ i.calls * 2 ^ (64 - p) ≤ place i.cursor

omit [DecidableEq K] in
theorem Bounded.room {i : Iteration K V} (bounded : Bounded type p i) (within : p ≤ 64) :
    ¬ i.finished → i.calls + 1 ≤ 2 ^ p := by
  intro more
  have spent := (bounded.calls.resolve_left fun finished => more finished.1).2.trans_lt (place_lt i.cursor)
  have whole : 2 ^ 64 = 2 ^ p * 2 ^ (64 - p) := by
    rw [← pow_add]
    congr 1
    omega
  rw [whole] at spent
  exact Nat.succ_le_of_lt (Nat.lt_of_mul_lt_mul_right spent)

theorem Bounded.step {i j : Iteration K V} (bounded : Bounded type p i) (within : p ≤ 64)
    (sized : i.Sized) (small : i.dict.ht0.size ≤ 2 ^ p) (stepped : step type i l = some j) :
    Bounded type p j := by
  have kept := step_inv bounded.inv sized stepped
  obtain ⟨m, inv⟩ := bounded.inv
  cases l with
  | op op =>
    obtain ⟨s, eq, -⟩ := Dict.step_eq i.can inv sized op
    rw [Iteration.step, eq] at stepped
    cases stepped
    exact ⟨kept, bounded.aligned, bounded.calls⟩
  | scan =>
    obtain ⟨v', es, eq, scanned⟩ := inv.scan i.cursor
    simp only [Iteration.step, eq] at stepped
    split at stepped
    · cases stepped
    rename_i more
    cases stepped
    have room := bounded.room within more
    by_cases zero : v' = 0
    · refine ⟨kept, ?_, .inl ⟨⟨zero, Nat.succ_pos _⟩, room⟩⟩
      rw [zero, place_eq_zero.mpr rfl, Nat.zero_mod]
    · obtain ⟨aligned, moved⟩ := scanned.moves p within small bounded.aligned zero
      have spent := (bounded.calls.resolve_left fun finished => more finished.1).2
      refine ⟨kept, aligned, .inr ⟨fun finished => zero finished.1, ?_⟩⟩
      dsimp only
      rw [Nat.add_mul, Nat.one_mul]
      exact (Nat.add_le_add_right spent _).trans moved

/-- An iteration is over after at most as many calls as the first table ever had buckets,
and no call fails. -/
theorem scan_ends (type : DictType K) {can : DictResizeEnable} {before : List (Dict.Op K V)}
    (fits : before.length ≤ 2 ^ 60)
    (built : Dict.answers type (can, dictCreate) before = some (s, replies)) (within : p ≤ 64)
    (path : Runs.Path (step type) (fun i _ => i.Sized ∧ i.dict.ht0.size ≤ 2 ^ p) (start s) ls i) :
    i.calls ≤ 2 ^ p ∧ (i.finished ∨ ∃ j, step type i .scan = some j) := by
  have initial : Bounded type p (start s) := by
    refine ⟨built_inv fits built, ?_, .inr ⟨fun finished => absurd finished.2 (by simp [start]), ?_⟩⟩
    · rw [show (start s).cursor = 0 from rfl, place_eq_zero.mpr rfl, Nat.zero_mod]
    · rw [show (start s).calls = 0 from rfl, Nat.zero_mul]
      exact Nat.zero_le _
  have bounded := path.invariant (Bounded type p) initial
    fun bounded guard stepped => bounded.step within guard.1 guard.2 stepped
  obtain ⟨m, inv⟩ := bounded.inv
  by_cases finished : i.finished
  · exact ⟨(bounded.calls.resolve_right fun more => more.1 finished).2, .inl finished⟩
  · have room := bounded.room within finished
    obtain ⟨v', es, eq, -⟩ := inv.scan i.cursor
    refine ⟨by omega, .inr
      ⟨{ i with cursor := v', calls := i.calls + 1, seen := i.seen ++ es }, ?_⟩⟩
    rw [step, if_neg finished, eq]
    rfl

theorem scan_ends_moving : scanned.calls ≤ 2 ^ 3 ∧
    (scanned.finished ∨ ∃ j, step ⟨id, none⟩ scanned .scan = some j) := by
  have built : Dict.answers ⟨id, none⟩ (.enable, dictCreate) filling =
      some (filled, List.replicate 5 (.status true)) := rfl
  have path : Runs.Path (step ⟨id, none⟩) (fun i _ => i.Sized ∧ i.dict.ht0.size ≤ 2 ^ 3)
      (start filled) scanning scanned := .of_run rfl
  exact scan_ends ⟨id, none⟩ (by decide) built (by decide) path

end Iteration
end Copier.Redis
