import Copier.Foundation.Words
import Mathlib.Data.Finset.Sort
import Mathlib.Data.List.InsertIdx
import Mathlib.Tactic.NormNum

/-! The sets of integers of `intset.c`: sorted words, all of the size that the widest value
that was ever added needs. -/
namespace Copier.Redis.Intsets
open Words

inductive Encoding
  | int16
  | int32
  | int64
deriving DecidableEq

def Encoding.bytes : Encoding → ℕ
  | .int16 => 2
  | .int32 => 4
  | .int64 => 8

/-- `size` bytes are allocated for the contents. -/
structure Intset where
  encoding : Encoding
  length : ℕ
  size : ℕ
  contents : ℕ → UInt8

def intsetValueEncoding (v : ℤ) : Encoding :=
  if v < -2 ^ 31 ∨ v > 2 ^ 31 - 1 then .int64
  else if v < -2 ^ 15 ∨ v > 2 ^ 15 - 1 then .int32
  else .int16

namespace Intset

/-- `_intsetGetEncoded`; none for an access outside of what is allocated. -/
def getEncoded (is : Intset) (pos : ℤ) (enc : Encoding) : Option ℤ :=
  if 0 ≤ pos ∧ (pos + 1) * enc.bytes ≤ is.size then
    some ((word is.contents (pos.toNat * enc.bytes) enc.bytes : ℤ).bmod (256 ^ enc.bytes))
  else none

/-- `_intsetGet` -/
def get (is : Intset) (pos : ℤ) : Option ℤ := is.getEncoded pos is.encoding

/-- `_intsetSet` -/
def set (is : Intset) (pos value : ℤ) : Option Intset :=
  if 0 ≤ pos ∧ (pos + 1) * is.encoding.bytes ≤ is.size then
    some { is with
      contents := store is.contents (pos.toNat * is.encoding.bytes) is.encoding.bytes
        (value % (256 ^ is.encoding.bytes : ℕ)).toNat }
  else none

end Intset

def intsetNew : Intset := ⟨.int16, 0, 0, fun _ => 0⟩

/-- `fresh` is what `zrealloc` returns behind the old end. -/
def intsetResize (is : Intset) (len : ℕ) (fresh : ℕ → UInt8) : Intset :=
  { is with
    size := len * is.encoding.bytes
    contents := fun a => if a < is.size then is.contents a else fresh a }

/-- The loop of `intsetSearch` from `min`, `max`, `mid` and `cur` on; `min`, `mid` and `cur`
when it is left. -/
def searchLoop (is : Intset) (value : ℤ) : ℕ → ℤ → ℤ → ℤ → ℤ → Option (ℤ × ℤ × ℤ)
  | 0, _, _, _, _ => none
  | fuel + 1, min, max, mid, cur =>
      if max < min then some (min, mid, cur) else do
        let mid := (min + max) % 2 ^ 32 / 2
        let cur ← is.get mid
        if value > cur then searchLoop is value fuel (mid + 1) max mid cur
        else if value < cur then searchLoop is value fuel min (mid - 1) mid cur
        else some (min, mid, cur)

def intsetSearch (is : Intset) (value : ℤ) : Option (Bool × ℕ) := do
  let max := ((is.length : ℤ) - 1).bmod (2 ^ 32)
  if is.length = 0 then some (false, 0) else
    let last ← is.get max
    if value > last then some (false, is.length) else
      let first ← is.get 0
      if value < first then some (false, 0) else
        let (min, mid, cur) ← searchLoop is value (is.length + 1) 0 max (-1) (-1)
        some (if value = cur then (true, mid.toNat) else (false, min.toNat))

/-- Back to front, so that nothing is overwritten before it is read. -/
def upgradeLoop (curenc : Encoding) (prepend : ℕ) : ℕ → Intset → Option Intset
  | 0, is => some is
  | length + 1, is => do
      let value ← is.getEncoded length curenc
      let is ← is.set (length + prepend) value
      upgradeLoop curenc prepend length is

def intsetUpgradeAndAdd (is : Intset) (value : ℤ) (fresh : ℕ → UInt8) : Option Intset := do
  let curenc := is.encoding
  let length := is.length
  let prepend := if value < 0 then 1 else 0
  let is := intsetResize { is with encoding := intsetValueEncoding value } (length + 1) fresh
  let is ← upgradeLoop curenc prepend length is
  let is ← if prepend = 1 then is.set 0 value else is.set length value
  some { is with length := (length + 1) % 2 ^ 32 }

def intsetMoveTail (is : Intset) (src dst : ℕ) : Option Intset :=
  let width := is.encoding.bytes
  let bytes := (is.length - src) * width % 2 ^ 32
  if src * width + bytes ≤ is.size ∧ dst * width + bytes ≤ is.size then
    some { is with contents := move is.contents (dst * width) (src * width) bytes }
  else none

/-- The set afterwards and `success`. -/
def intsetAdd (is : Intset) (value : ℤ) (fresh : ℕ → UInt8) : Option (Intset × Bool) := do
  if (intsetValueEncoding value).bytes > is.encoding.bytes then
    let is ← intsetUpgradeAndAdd is value fresh
    some (is, true)
  else
    let (found, pos) ← intsetSearch is value
    if found then some (is, false) else
      let length := is.length
      let is := intsetResize is (length + 1) fresh
      let moved := if pos < length then intsetMoveTail is pos (pos + 1) else some is
      let is ← moved
      let is ← is.set pos value
      some ({ is with length := (length + 1) % 2 ^ 32 }, true)

def intsetRemove (is : Intset) (value : ℤ) (fresh : ℕ → UInt8) : Option (Intset × Bool) := do
  if (intsetValueEncoding value).bytes ≤ is.encoding.bytes then
    let (found, pos) ← intsetSearch is value
    if found then
      let len := is.length
      let moved := if pos < len - 1 then intsetMoveTail is (pos + 1) pos else some is
      let is ← moved
      some ({ intsetResize is (len - 1) fresh with length := len - 1 }, true)
    else some (is, false)
  else some (is, false)

def intsetFind (is : Intset) (value : ℤ) : Option Bool :=
  if (intsetValueEncoding value).bytes ≤ is.encoding.bytes then
    (intsetSearch is value).map Prod.fst
  else some false

/-- None inside when the position is out of range. -/
def intsetGet (is : Intset) (pos : ℕ) : Option (Option ℤ) :=
  if pos < is.length then (is.get pos).map some else some none

/-- The header has two 32-bit words. -/
def intsetBlobLen (is : Intset) : ℕ := 8 + is.length * is.encoding.bytes

/-! What the words say. -/

def slot (contents : ℕ → UInt8) (width i : ℕ) : ℤ :=
  (word contents (i * width) width : ℤ).bmod (256 ^ width)

def Encoding.Fits (e : Encoding) (v : ℤ) : Prop :=
  -(256 ^ e.bytes / 2) ≤ v ∧ v < 256 ^ e.bytes / 2

theorem Encoding.bytes_pos (e : Encoding) : 0 < e.bytes := by
  cases e <;> decide

/-- A signed 64-bit number. -/
def Int64 (v : ℤ) : Prop := -2 ^ 63 ≤ v ∧ v < 2 ^ 63

theorem valueEncoding_fits {v : ℤ} (int64 : Int64 v) : (intsetValueEncoding v).Fits v := by
  obtain ⟨low, high⟩ := int64
  rw [intsetValueEncoding, Encoding.Fits]
  split
  · norm_num [Encoding.bytes]
    omega
  · split
    · norm_num [Encoding.bytes]
      omega
    · norm_num [Encoding.bytes]
      omega

theorem Encoding.Fits.mono {e e' : Encoding} {v : ℤ} (fits : e.Fits v) (wider : e.bytes ≤ e'.bytes) :
    e'.Fits v := by
  obtain ⟨low, high⟩ := fits
  rw [Encoding.Fits]
  cases e <;> cases e' <;> norm_num [Encoding.bytes] at * <;> omega

/-- What fits does not need a wider encoding. -/
theorem Encoding.Fits.needs {e : Encoding} {v : ℤ} (fits : e.Fits v) :
    (intsetValueEncoding v).bytes ≤ e.bytes := by
  obtain ⟨low, high⟩ := fits
  rw [intsetValueEncoding]
  cases e <;> norm_num [Encoding.bytes] at low high <;> split <;> try split
  all_goals first | decide | omega

theorem room_of_lt {i n width size : ℕ} (inside : i < n) (room : n * width ≤ size) :
    (i + 1) * width ≤ size :=
  Nat.le_trans (Nat.mul_le_mul_right width inside) room

theorem getEncoded_eq (is : Intset) (enc : Encoding) {i n : ℕ} (inside : i < n)
    (room : n * enc.bytes ≤ is.size) :
    is.getEncoded i enc = some (slot is.contents enc.bytes i) := by
  have fits : (i + 1) * enc.bytes ≤ is.size := room_of_lt inside room
  rw [Intset.getEncoded, if_pos ⟨Int.natCast_nonneg i, by exact_mod_cast fits⟩, Int.toNat_natCast]
  rfl

theorem set_eq (is : Intset) (value : ℤ) {i n : ℕ} (inside : i < n)
    (room : n * is.encoding.bytes ≤ is.size) :
    is.set i value = some { is with
      contents := store is.contents (i * is.encoding.bytes) is.encoding.bytes
        (value % (256 ^ is.encoding.bytes : ℕ)).toNat } := by
  have fits : (i + 1) * is.encoding.bytes ≤ is.size := room_of_lt inside room
  rw [Intset.set, if_pos ⟨Int.natCast_nonneg i, by exact_mod_cast fits⟩, Int.toNat_natCast]

theorem slot_store (contents : ℕ → UInt8) {e : Encoding} {value : ℤ} (i : ℕ) (fits : e.Fits value) :
    slot (store contents (i * e.bytes) e.bytes (value % (256 ^ e.bytes : ℕ)).toNat) e.bytes i =
      value := by
  rw [slot, word_store]
  exact bmod_of_fits e.bytes_pos fits.1 fits.2

theorem slot_store_of_disjoint (contents : ℕ → UInt8) {i j width width' : ℕ} (n : ℕ)
    (apart : (j + 1) * width' ≤ i * width ∨ (i + 1) * width ≤ j * width') :
    slot (store contents (i * width) width n) width' j = slot contents width' j := by
  rw [slot, word_store_of_disjoint, slot]
  rw [Nat.succ_mul, Nat.succ_mul] at apart
  exact apart

theorem slot_store_of_ne (contents : ℕ → UInt8) {i j width : ℕ} (n : ℕ) (other : j ≠ i) :
    slot (store contents (i * width) width n) width j = slot contents width j := by
  refine slot_store_of_disjoint contents n ?_
  rcases Nat.lt_or_gt_of_ne other with before | behind
  · exact .inl (Nat.mul_le_mul_right width before)
  · exact .inr (Nat.mul_le_mul_right width behind)

theorem slot_resize (is : Intset) (len : ℕ) (fresh : ℕ → UInt8) {i width : ℕ}
    (kept : (i + 1) * width ≤ is.size) :
    slot (intsetResize is len fresh).contents width i = slot is.contents width i := by
  rw [slot, slot]
  congr 2
  refine word_congr fun k low => ?_
  rw [Nat.succ_mul] at kept
  dsimp only [intsetResize]
  rw [if_pos (by omega)]

/-- The words are this list. -/
structure Holds (is : Intset) (l : List ℤ) : Prop where
  length : is.length = l.length
  size : is.size = l.length * is.encoding.bytes
  sorted : l.Pairwise (· < ·)
  fits : ∀ v ∈ l, is.encoding.Fits v
  slots : ∀ i < l.length, l[i]? = some (slot is.contents is.encoding.bytes i)

variable {is is' : Intset} {l : List ℤ} {value : ℤ}

theorem Holds.get (holds : Holds is l) {i : ℕ} (inside : i < l.length) : is.get i = some l[i] := by
  rw [Intset.get, getEncoded_eq is _ inside (Nat.le_of_eq holds.size.symm), ← holds.slots i inside,
    List.getElem?_eq_getElem inside]

/-! Searching. -/

/-- The list is cut where the value belongs. -/
structure Cut (l : List ℤ) (value : ℤ) (pos : ℕ) : Prop where
  inside : pos ≤ l.length
  below : ∀ i (inside : i < l.length), i < pos → l[i] < value
  above : ∀ i (inside : i < l.length), pos ≤ i → value < l[i]

theorem sorted_le (sorted : l.Pairwise (· < ·)) {i j : ℕ} (order : i ≤ j) (inside : j < l.length) :
    l[i] ≤ l[j] := by
  rcases Nat.eq_or_lt_of_le order with rfl | before
  · exact Int.le_refl _
  · exact Int.le_of_lt (List.pairwise_iff_getElem.mp sorted i j _ inside before)

theorem searchLoop_spec (holds : Holds is l) (few : l.length < 2 ^ 31) (fuel lo : ℕ) (hi mid cur : ℤ)
    (enough : hi + 1 - lo < fuel) (order : lo ≤ hi + 1) (high : hi < l.length)
    (read : lo ≤ hi ∨ cur ≠ value)
    (below : ∀ i (inside : i < l.length), i < lo → l[i] < value)
    (above : ∀ i (inside : i < l.length), hi < i → value < l[i]) :
    ∃ min mid' cur', searchLoop is value fuel lo hi mid cur = some (min, mid', cur') ∧
      ((cur' = value ∧ ∃ i, ∃ inside : i < l.length, mid' = i ∧ l[i] = value) ∨
        (cur' ≠ value ∧ ∃ pos : ℕ, min = pos ∧ Cut l value pos)) := by
  induction fuel generalizing lo hi mid cur with
  | zero => omega
  | succ fuel ih =>
    rw [searchLoop]
    by_cases done : hi < lo
    · rw [if_pos done]
      refine ⟨lo, mid, cur, rfl, .inr ⟨by omega, lo, rfl, by omega, below, fun i inside behind => ?_⟩⟩
      exact above i inside (by omega)
    · rw [if_neg done]
      obtain ⟨m, mid_eq⟩ : ∃ m : ℕ, ((lo : ℤ) + hi) % 2 ^ 32 / 2 = m :=
        ⟨(((lo : ℤ) + hi) % 2 ^ 32 / 2).toNat, by omega⟩
      have between : lo ≤ m ∧ m ≤ hi := by omega
      have inside : m < l.length := by omega
      simp only [mid_eq, holds.get inside, Option.bind_eq_bind, Option.bind_some]
      split
      · rename_i greater
        refine ih (m + 1) hi m l[m] (by omega) (by omega) high (.inr (by omega))
          (fun i inside' before => ?_) above
        have := sorted_le holds.sorted (Nat.le_of_lt_succ before) inside
        omega
      · split
        · rename_i less
          refine ih lo (m - 1) m l[m] (by omega) (by omega) (by omega) (.inr (by omega)) below
            fun i inside' behind => ?_
          have := sorted_le holds.sorted (show m ≤ i by omega) inside'
          omega
        · exact ⟨lo, m, l[m], rfl, .inl ⟨by omega, m, inside, rfl, by omega⟩⟩

/-- `intsetSearch` finds a value or where it belongs. -/
theorem intsetSearch_spec (holds : Holds is l) (few : l.length < 2 ^ 31) (value : ℤ) :
    (∃ i, ∃ inside : i < l.length, l[i] = value ∧ intsetSearch is value = some (true, i)) ∨
      ∃ pos, Cut l value pos ∧ intsetSearch is value = some (false, pos) := by
  have length := holds.length
  rw [intsetSearch]
  by_cases empty : l.length = 0
  · refine .inr ⟨0, ⟨by omega, fun i inside => by omega, fun i inside => by omega⟩, ?_⟩
    rw [if_pos (by omega)]
  · have max_eq : ((is.length : ℤ) - 1).bmod (2 ^ 32) = ((l.length - 1 : ℕ) : ℤ) := by
      rw [Int.bmod_eq_of_le (by omega) (by omega)]
      omega
    have last : l.length - 1 < l.length := by omega
    rw [if_neg (by omega)]
    simp only [max_eq, holds.get last, Option.bind_eq_bind, Option.bind_some]
    split
    · rename_i greater
      refine .inr ⟨l.length, ⟨Nat.le_refl _, fun i inside _ => ?_, fun i inside => by omega⟩,
        by rw [length]⟩
      have := sorted_le holds.sorted (show i ≤ l.length - 1 by omega) last
      omega
    · have first : 0 < l.length := by omega
      have read : is.get 0 = some l[0] := holds.get first
      simp only [read, Option.bind_some]
      split
      · rename_i less
        refine .inr ⟨0, ⟨Nat.zero_le _, fun i inside => by omega, fun i inside _ => ?_⟩, rfl⟩
        have := sorted_le holds.sorted (Nat.zero_le i) inside
        omega
      · obtain ⟨min, mid, cur, found, what⟩ := searchLoop_spec holds few (is.length + 1) 0
          ((l.length - 1 : ℕ) : ℤ) (-1) (-1) (by omega) (by omega) (by omega) (.inl (by omega))
          (fun i inside => by omega) fun i inside => by omega
        rw [Nat.cast_zero] at found
        rw [found, Option.bind_some]
        rcases what with ⟨rfl, i, inside, rfl, here⟩ | ⟨other, pos, rfl, cut⟩
        · exact .inl ⟨i, inside, here, by rw [if_pos rfl, Int.toNat_natCast]⟩
        · exact .inr ⟨pos, cut, by rw [if_neg (Ne.symm other), Int.toNat_natCast]⟩

theorem Cut.not_mem {pos : ℕ} (cut : Cut l value pos) : value ∉ l := by
  intro member
  obtain ⟨i, inside, here⟩ := List.getElem_of_mem member
  rcases Nat.lt_or_ge i pos with before | behind
  · have := cut.below i inside before
    omega
  · have := cut.above i inside behind
    omega

theorem Cut.sorted {pos : ℕ} (cut : Cut l value pos) (sorted : l.Pairwise (· < ·)) :
    (l.insertIdx pos value).Pairwise (· < ·) := by
  have pairs := List.pairwise_iff_getElem.mp sorted
  refine List.pairwise_iff_getElem.mpr fun i j inside inside' order => ?_
  have length := List.length_insertIdx_of_le_length cut.inside value
  rw [length] at inside inside'
  rw [List.getElem_insertIdx, List.getElem_insertIdx]
  split
  · split
    · exact pairs i j _ _ order
    · split
      · exact cut.below i _ ‹_›
      · exact pairs i (j - 1) _ _ (by omega)
  · have behind : ¬ j < pos := by omega
    have apart : ¬ j = pos := by omega
    rw [dif_neg behind, dif_neg apart]
    split
    · exact cut.above (j - 1) (by omega) (by omega)
    · exact pairs (i - 1) (j - 1) _ _ (by omega)

/-- A value has been stored where it belongs, between words that stayed and words that moved. -/
theorem holds_insert {e : Encoding} {pos len size : ℕ} {old : ℕ → ℤ} {contents : ℕ → UInt8}
    (cut : Cut l value pos) (sorted : l.Pairwise (· < ·)) (fits : ∀ v ∈ l, e.Fits v)
    (own : e.Fits value) (slots : ∀ i < l.length, l[i]? = some (old i))
    (before : ∀ i < pos, slot contents e.bytes i = old i)
    (behind : ∀ k < l.length - pos, slot contents e.bytes (pos + 1 + k) = old (pos + k))
    (length : len = l.length + 1) (room : size = (l.length + 1) * e.bytes) :
    Holds ⟨e, len, size, store contents (pos * e.bytes) e.bytes
      (value % (256 ^ e.bytes : ℕ)).toNat⟩ (l.insertIdx pos value) := by
  have longer := List.length_insertIdx_of_le_length cut.inside value
  refine ⟨by rw [longer]; exact length, by rw [longer]; exact room, cut.sorted sorted, ?_, ?_⟩
  · intro v member
    rcases (List.mem_insertIdx cut.inside).mp member with rfl | there
    · exact own
    · exact fits v there
  · intro i inside
    rw [longer] at inside
    rw [List.getElem?_insertIdx]
    split
    · rename_i low
      have low' : i < l.length := Nat.lt_of_lt_of_le low cut.inside
      rw [slots i low', ← before i low]
      exact congrArg some (slot_store_of_ne _ _ (Nat.ne_of_lt low)).symm
    · split
      · rename_i same
        subst same
        rw [if_pos cut.inside]
        exact congrArg some (slot_store _ _ own).symm
      · obtain ⟨k, rfl⟩ : ∃ k, i = pos + 1 + k := ⟨i - pos - 1, by omega⟩
        have position : pos + 1 + k - 1 = pos + k := by omega
        rw [position, slots _ (by omega), ← behind k (by omega)]
        exact congrArg some (slot_store_of_ne _ _ (by omega)).symm

/-! Adding a value that needs wider words. -/

/-- Such a value belongs before or behind all that is there. -/
theorem Holds.cut_of_not_fits (holds : Holds is l) (outside : ¬ is.encoding.Fits value) :
    Cut l value (if value < 0 then 0 else l.length) := by
  have apart : ∀ v ∈ l, if value < 0 then value < v else v < value := by
    intro v member
    have fits := holds.fits v member
    rw [Encoding.Fits] at outside fits
    cases enc : is.encoding <;> norm_num [enc, Encoding.bytes] at outside fits <;> split <;> omega
  split
  · rename_i negative
    simp only [if_pos negative] at apart
    exact ⟨Nat.zero_le _, fun i inside low => by omega,
      fun i inside _ => apart _ (List.getElem_mem inside)⟩
  · rename_i positive
    simp only [if_neg positive] at apart
    exact ⟨Nat.le_refl _, fun i inside _ => apart _ (List.getElem_mem inside),
      fun i inside high => by omega⟩

theorem upgradeLoop_spec {curenc : Encoding} {prepend n : ℕ} (is : Intset) (f : ℕ → ℤ)
    (wider : curenc.bytes ≤ is.encoding.bytes)
    (room : (n + prepend) * is.encoding.bytes ≤ is.size)
    (old : ∀ i < n, slot is.contents curenc.bytes i = f i)
    (fits : ∀ i < n, is.encoding.Fits (f i)) :
    ∃ contents, upgradeLoop curenc prepend n is = some { is with contents := contents } ∧
      (∀ i < n, slot contents is.encoding.bytes (i + prepend) = f i) ∧
      ∀ j, n + prepend ≤ j → slot contents is.encoding.bytes j = slot is.contents is.encoding.bytes j := by
  induction n generalizing is with
  | zero => exact ⟨is.contents, rfl, fun i low => by omega, fun _ _ => rfl⟩
  | succ n ih =>
    have read : (n + 1) * curenc.bytes ≤ is.size :=
      Nat.le_trans (Nat.mul_le_mul (Nat.le_add_right _ _) wider) room
    have own := old n (Nat.lt_succ_self n)
    have position : ((n : ℤ) + prepend) = ((n + prepend : ℕ) : ℤ) := (Int.natCast_add n prepend).symm
    rw [upgradeLoop, getEncoded_eq is curenc (Nat.lt_succ_self n) read, own, position]
    simp only [Option.bind_eq_bind, Option.bind_some]
    rw [set_eq is (f n) (show n + prepend < n + 1 + prepend by omega) room, Option.bind_some]
    -- what is still to be read lies before what is written
    obtain ⟨contents, done, moved, rest⟩ := ih { is with
        contents := store is.contents ((n + prepend) * is.encoding.bytes) is.encoding.bytes
          (f n % (256 ^ is.encoding.bytes : ℕ)).toNat } wider
      (Nat.le_trans (Nat.mul_le_mul_right _ (by omega)) room)
      (fun i low => by
        have before : (i + 1) * curenc.bytes ≤ (n + prepend) * is.encoding.bytes :=
          Nat.mul_le_mul (by omega) wider
        exact (slot_store_of_disjoint _ _ (.inl before)).trans (old i (Nat.lt_succ_of_lt low)))
      fun i low => fits i (Nat.lt_succ_of_lt low)
    refine ⟨contents, done, fun i low => ?_, fun j behind => ?_⟩
    · rcases Nat.lt_succ_iff_lt_or_eq.mp low with before | rfl
      · exact moved i before
      · exact (rest _ (Nat.le_refl _)).trans (slot_store _ _ (fits i low))
    · exact (rest j (by omega)).trans (slot_store_of_ne _ _ (by omega))

theorem intsetUpgradeAndAdd_spec (holds : Holds is l) (int64 : Int64 value)
    (wide : is.encoding.bytes < (intsetValueEncoding value).bytes) (few : l.length + 1 < 2 ^ 32)
    (fresh : ℕ → UInt8) :
    ∃ is' pos, intsetUpgradeAndAdd is value fresh = some is' ∧
      is'.encoding = intsetValueEncoding value ∧ Cut l value pos ∧
      Holds is' (l.insertIdx pos value) := by
  have outside : ¬ is.encoding.Fits value := fun fits => Nat.not_le_of_gt wide fits.needs
  have length := holds.length
  set enc := intsetValueEncoding value with enc_eq
  have own : enc.Fits value := valueEncoding_fits int64
  let f := fun i : ℕ => l[i]?.getD 0
  have f_eq : ∀ i < l.length, l[i]? = some (f i) := by
    intro i inside
    simp only [f, List.getElem?_eq_getElem inside, Option.getD_some]
  let grown := intsetResize { is with encoding := enc } (is.length + 1) fresh
  have size : grown.size = (l.length + 1) * enc.bytes := by rw [← length]; rfl
  have old : ∀ i < is.length, slot grown.contents is.encoding.bytes i = f i := by
    intro i low
    have kept : (i + 1) * is.encoding.bytes ≤ is.size :=
      room_of_lt low (by rw [holds.size, length])
    refine (slot_resize { is with encoding := enc } _ fresh kept).trans (Option.some.inj ?_)
    rw [← f_eq i (length ▸ low)]
    exact (holds.slots i (length ▸ low)).symm
  have fits : ∀ v ∈ l, enc.Fits v := fun v member => (holds.fits v member).mono (Nat.le_of_lt wide)
  have fits' : ∀ i < is.length, enc.Fits (f i) := fun i low =>
    fits _ (List.mem_of_getElem? (f_eq i (length ▸ low)))
  have cut := holds.cut_of_not_fits outside
  have longer : (is.length + 1) % 2 ^ 32 = l.length + 1 := by omega
  rw [intsetUpgradeAndAdd, ← enc_eq]
  by_cases negative : value < 0
  · obtain ⟨contents, done, moved, -⟩ := @upgradeLoop_spec is.encoding 1 is.length grown f
      (Nat.le_of_lt wide) (by rw [size, length]; exact Nat.le_refl _) old fits'
    have first := @set_eq { grown with contents := contents } value 0 (l.length + 1)
      (Nat.succ_pos _) (Nat.le_of_eq size.symm)
    simp only [if_pos negative, if_true, Option.bind_eq_bind] at cut ⊢
    rw [done, Option.bind_some, show (0 : ℤ) = ((0 : ℕ) : ℤ) from rfl, first, Option.bind_some]
    refine ⟨_, 0, rfl, rfl, cut, ?_⟩
    refine holds_insert cut holds.sorted fits own f_eq (fun i low => by omega)
      (fun k low => ?_) longer size
    rw [Nat.zero_add, Nat.add_comm, Nat.zero_add]
    exact moved k (length ▸ low)
  · obtain ⟨contents, done, moved, -⟩ := @upgradeLoop_spec is.encoding 0 is.length grown f
      (Nat.le_of_lt wide)
      (by rw [size, length]; exact Nat.mul_le_mul_right _ (Nat.le_succ _)) old fits'
    have last := @set_eq { grown with contents := contents } value is.length (l.length + 1)
      (by omega) (Nat.le_of_eq size.symm)
    simp only [if_neg negative, Nat.zero_ne_one, if_false, Option.bind_eq_bind] at cut ⊢
    rw [done, Option.bind_some, last, Option.bind_some]
    rw [← length] at cut
    refine ⟨_, is.length, rfl, rfl, cut, ?_⟩
    exact holds_insert cut holds.sorted fits own f_eq (fun i low => moved i low)
      (fun k low => by omega) longer size

/-! Adding and removing values that fit. -/

/-- `intsetMoveTail` moves the words from `src` on. -/
theorem intsetMoveTail_spec (is : Intset) {src dst : ℕ} (inside : src ≤ is.length)
    (room : is.length * is.encoding.bytes ≤ is.size)
    (room' : (dst + (is.length - src)) * is.encoding.bytes ≤ is.size)
    (few : is.length * is.encoding.bytes < 2 ^ 32) :
    ∃ contents, intsetMoveTail is src dst = some { is with contents := contents } ∧
      (∀ i < dst, slot contents is.encoding.bytes i = slot is.contents is.encoding.bytes i) ∧
      ∀ k < is.length - src, slot contents is.encoding.bytes (dst + k) =
        slot is.contents is.encoding.bytes (src + k) := by
  have whole : src * is.encoding.bytes + (is.length - src) * is.encoding.bytes =
      is.length * is.encoding.bytes := by
    rw [← Nat.add_mul, Nat.add_sub_cancel' inside]
  have bytes : (is.length - src) * is.encoding.bytes % 2 ^ 32 =
      (is.length - src) * is.encoding.bytes := Nat.mod_eq_of_lt (by omega)
  rw [Nat.add_mul] at room'
  rw [intsetMoveTail]
  simp only [bytes]
  rw [if_pos ⟨by omega, room'⟩]
  refine ⟨_, rfl, fun i low => ?_, fun k low => ?_⟩
  · have before : (i + 1) * is.encoding.bytes ≤ dst * is.encoding.bytes :=
      Nat.mul_le_mul_right _ low
    rw [Nat.succ_mul] at before
    rw [slot, word_move_of_disjoint _ (.inl before), slot]
  · have moved : k * is.encoding.bytes + is.encoding.bytes ≤ (is.length - src) * is.encoding.bytes := by
      rw [← Nat.succ_mul]
      exact Nat.mul_le_mul_right _ low
    rw [slot, slot, Nat.add_mul, word_move _ moved, ← Nat.add_mul]

/-- The wider one. -/
def Encoding.widen (e e' : Encoding) : Encoding := if e'.bytes > e.bytes then e' else e

theorem Encoding.bytes_le (e : Encoding) : e.bytes ≤ 8 := by
  cases e <;> decide

theorem Holds.not_mem_of_wide (holds : Holds is l)
    (wide : (intsetValueEncoding value).bytes > is.encoding.bytes) : value ∉ l := fun member =>
  Nat.not_le_of_gt wide (holds.fits value member).needs

theorem fits_of_narrow {e : Encoding} (int64 : Int64 value)
    (narrow : ¬ (intsetValueEncoding value).bytes > e.bytes) : e.Fits value :=
  (valueEncoding_fits int64).mono (Nat.le_of_not_lt narrow)

theorem intsetAdd_spec (holds : Holds is l) (int64 : Int64 value)
    (few : l.length + 1 < 2 ^ 29) (fresh : ℕ → UInt8) :
    ∃ is' l', intsetAdd is value fresh = some (is', decide (value ∉ l)) ∧ Holds is' l' ∧
      is'.encoding = is.encoding.widen (intsetValueEncoding value) ∧
      ∀ v, v ∈ l' ↔ v = value ∨ v ∈ l := by
  have length := holds.length
  rw [intsetAdd, Encoding.widen]
  by_cases wide : (intsetValueEncoding value).bytes > is.encoding.bytes
  · obtain ⟨is', pos, done, encoding, cut, holds'⟩ :=
      intsetUpgradeAndAdd_spec holds int64 wide (by omega) fresh
    have absent := cut.not_mem
    rw [if_pos wide, if_pos wide, done]
    exact ⟨is', _, by simp [absent], holds', encoding, fun v => List.mem_insertIdx cut.inside⟩
  rw [if_neg wide, if_neg wide]
  rcases intsetSearch_spec holds (by omega) value with ⟨i, inside, here, found⟩ | ⟨pos, cut, found⟩
  · have member : value ∈ l := here ▸ List.getElem_mem inside
    refine ⟨is, l, by simp [found, member], holds, rfl, fun v => ?_⟩
    constructor
    · exact .inr
    · rintro (rfl | old)
      · exact member
      · exact old
  · have own := fits_of_narrow int64 wide
    have bytes := is.encoding.bytes_le
    have small : is.length * is.encoding.bytes < 2 ^ 32 :=
      Nat.lt_of_le_of_lt (Nat.mul_le_mul_left _ bytes) (by omega)
    let grown := intsetResize is (is.length + 1) fresh
    have size : grown.size = (is.length + 1) * is.encoding.bytes := rfl
    have kept : ∀ i < l.length, slot grown.contents is.encoding.bytes i =
        slot is.contents is.encoding.bytes i := fun i low =>
      slot_resize is _ fresh (room_of_lt low (Nat.le_of_eq holds.size.symm))
    obtain ⟨contents, moved, before, behind⟩ : ∃ contents,
        (if pos < is.length then intsetMoveTail grown pos (pos + 1) else some grown) =
          some { grown with contents := contents } ∧
        (∀ i < pos, slot contents is.encoding.bytes i = slot grown.contents is.encoding.bytes i) ∧
        ∀ k < l.length - pos, slot contents is.encoding.bytes (pos + 1 + k) =
          slot grown.contents is.encoding.bytes (pos + k) := by
      split
      · obtain ⟨contents, done, before, behind⟩ := @intsetMoveTail_spec grown pos (pos + 1)
          (length ▸ cut.inside) (by rw [size]; exact Nat.mul_le_mul_right _ (Nat.le_succ _))
          (by
            rw [size]
            refine Nat.mul_le_mul_right _ ?_
            change pos + 1 + (is.length - pos) ≤ is.length + 1
            omega) small
        refine ⟨contents, done, fun i low => before i (Nat.lt_succ_of_lt low), fun k low => ?_⟩
        exact behind k (by rw [← length] at low; exact low)
      · exact ⟨grown.contents, rfl, fun _ _ => rfl, fun k low => by omega⟩
    have stored := @set_eq { grown with contents := contents } value pos (is.length + 1)
      (by have := cut.inside; omega) (Nat.le_refl _)
    have absent := cut.not_mem
    refine ⟨{ grown with
        length := (is.length + 1) % 2 ^ 32
        contents := store contents (pos * is.encoding.bytes) is.encoding.bytes
          (value % (256 ^ is.encoding.bytes : ℕ)).toNat }, l.insertIdx pos value, ?_, ?_, rfl,
      fun v => List.mem_insertIdx cut.inside⟩
    · simp only [found, Option.bind_eq_bind, Option.bind_some, Bool.false_eq_true, if_false]
      rw [moved, Option.bind_some, stored, Option.bind_some, decide_eq_true absent]
      rfl
    · exact holds_insert cut holds.sorted holds.fits own
        (fun i low => (holds.slots i low).trans (congrArg some (kept i low).symm)) before behind
        (by omega) (by rw [size, length]; rfl)

theorem intsetRemove_spec (holds : Holds is l) (few : l.length < 2 ^ 29) (value : ℤ)
    (fresh : ℕ → UInt8) :
    ∃ is' l', intsetRemove is value fresh = some (is', decide (value ∈ l)) ∧ Holds is' l' ∧
      is'.encoding = is.encoding ∧ ∀ v, v ∈ l' ↔ v ≠ value ∧ v ∈ l := by
  have length := holds.length
  have same : value ∉ l → ∀ v, v ∈ l ↔ v ≠ value ∧ v ∈ l := fun absent v =>
    ⟨fun member => ⟨fun equal => absent (equal ▸ member), member⟩, And.right⟩
  rw [intsetRemove]
  by_cases narrow : (intsetValueEncoding value).bytes ≤ is.encoding.bytes
  · rw [if_pos narrow]
    rcases intsetSearch_spec holds (by omega) value with ⟨i, inside, here, found⟩ | ⟨pos, cut, found⟩
    · have bytes := is.encoding.bytes_le
      have small : is.length * is.encoding.bytes < 2 ^ 32 :=
        Nat.lt_of_le_of_lt (Nat.mul_le_mul_left _ bytes) (by omega)
      have size : is.length * is.encoding.bytes ≤ is.size := by rw [holds.size, length]
      obtain ⟨contents, moved, before, behind⟩ : ∃ contents,
          (if i < is.length - 1 then intsetMoveTail is (i + 1) i else some is) =
            some { is with contents := contents } ∧
          (∀ j < i, slot contents is.encoding.bytes j = slot is.contents is.encoding.bytes j) ∧
          ∀ k < l.length - (i + 1), slot contents is.encoding.bytes (i + k) =
            slot is.contents is.encoding.bytes (i + 1 + k) := by
        split
        · rw [← length]
          exact intsetMoveTail_spec is (by omega) size
            (Nat.le_trans (Nat.mul_le_mul_right _ (by omega)) size) small
        · exact ⟨is.contents, rfl, fun _ _ => rfl, fun k low => by omega⟩
      have kept : ∀ j < l.length - 1,
          slot (intsetResize { is with contents := contents } (is.length - 1) fresh).contents
            is.encoding.bytes j = slot contents is.encoding.bytes j := fun j low =>
        slot_resize { is with contents := contents } _ fresh
          (room_of_lt (show j < is.length by omega) size)
      have member : value ∈ l := here ▸ List.getElem_mem inside
      have nodup : l.Nodup := holds.sorted.imp Int.ne_of_lt
      refine ⟨{ intsetResize { is with contents := contents } (is.length - 1) fresh with
        length := is.length - 1 }, l.eraseIdx i, ?_, ⟨?_, ?_, ?_, ?_, ?_⟩, rfl, fun v => ?_⟩
      · simp only [found, Option.bind_eq_bind, Option.bind_some, if_true]
        rw [moved, Option.bind_some, decide_eq_true member]
      · rw [List.length_eraseIdx_of_lt inside, ← length]
      · rw [List.length_eraseIdx_of_lt inside, ← length]
        rfl
      · exact holds.sorted.sublist (List.eraseIdx_sublist l i)
      · exact fun v member => holds.fits v ((List.eraseIdx_sublist l i).subset member)
      · intro j low
        rw [List.length_eraseIdx_of_lt inside] at low
        refine Eq.trans ?_ (congrArg some (kept j low).symm)
        rw [List.getElem?_eraseIdx]
        split
        · rename_i low'
          rw [before j low', holds.slots j (by omega)]
        · obtain ⟨k, rfl⟩ : ∃ k, j = i + k := ⟨j - i, by omega⟩
          have position : i + k + 1 = i + 1 + k := by omega
          rw [behind k (by omega), position, holds.slots _ (by omega)]
      · rw [← nodup.erase_getElem i inside, here]
        exact nodup.mem_erase_iff
    · have absent := cut.not_mem
      exact ⟨is, l, by simp [found, absent], holds, rfl, same absent⟩
  · rw [if_neg narrow]
    have absent := holds.not_mem_of_wide (Nat.lt_of_not_le narrow)
    exact ⟨is, l, by rw [decide_eq_false absent], holds, rfl, same absent⟩

theorem intsetFind_spec (holds : Holds is l) (few : l.length < 2 ^ 31) (value : ℤ) :
    intsetFind is value = some (decide (value ∈ l)) := by
  rw [intsetFind]
  split
  · rcases intsetSearch_spec holds few value with ⟨i, inside, here, found⟩ | ⟨pos, cut, found⟩
    · have member : value ∈ l := here ▸ List.getElem_mem inside
      rw [found, Option.map_some, decide_eq_true member]
    · rw [found, Option.map_some, decide_eq_false cut.not_mem]
  · rename_i wide
    rw [decide_eq_false (holds.not_mem_of_wide (Nat.lt_of_not_le wide))]

theorem intsetGet_spec (holds : Holds is l) (pos : ℕ) : intsetGet is pos = some l[pos]? := by
  rw [intsetGet, holds.length]
  split
  · rename_i inside
    rw [holds.get inside, Option.map_some, List.getElem?_eq_getElem inside]
  · rename_i outside
    rw [List.getElem?_eq_none (Nat.le_of_not_lt outside)]

/-! Any sequence of calls. -/

inductive Op
  | add (value : ℤ) (fresh : ℕ → UInt8)
  | remove (value : ℤ) (fresh : ℕ → UInt8)
  | find (value : ℤ)
  | get (pos : ℕ)
  | blobLen

inductive Reply
  | success (b : Bool)
  | value (v : Option ℤ)
  | bytes (n : ℕ)
deriving DecidableEq

def step (is : Intset) : Op → Option (Intset × Reply)
  | .add value fresh => (intsetAdd is value fresh).map (Prod.map id .success)
  | .remove value fresh => (intsetRemove is value fresh).map (Prod.map id .success)
  | .find value => (intsetFind is value).map fun found => (is, .success found)
  | .get pos => (intsetGet is pos).map fun v => (is, .value v)
  | .blobLen => some (is, .bytes (intsetBlobLen is))

def replies (is : Intset) : List Op → Option (List Reply)
  | [] => some []
  | op :: ops => (step is op).bind fun p => (replies p.1 ops).map (p.2 :: ·)

/-- What it stands for; `encoding` is the widest that was ever needed. -/
structure Plain where
  elems : Finset ℤ
  encoding : Encoding

namespace Plain

def step (p : Plain) : Op → Plain × Reply
  | .add value _ => (⟨insert value p.elems, p.encoding.widen (intsetValueEncoding value)⟩,
      .success (decide (value ∉ p.elems)))
  | .remove value _ => ({ p with elems := p.elems.erase value }, .success (decide (value ∈ p.elems)))
  | .find value => (p, .success (decide (value ∈ p.elems)))
  | .get pos => (p, .value p.elems.sort[pos]?)
  | .blobLen => (p, .bytes (8 + p.elems.card * p.encoding.bytes))

def replies (p : Plain) : List Op → List Reply
  | [] => []
  | op :: ops => (p.step op).2 :: replies (p.step op).1 ops

theorem card_step (p : Plain) (op : Op) : (p.step op).1.elems.card ≤ p.elems.card + 1 := by
  cases op with
  | add value fresh => exact Finset.card_insert_le value p.elems
  | remove value fresh => exact Nat.le_succ_of_le Finset.card_erase_le
  | find value | get pos | blobLen => exact Nat.le_succ _

end Plain

def Op.Int64 : Op → Prop
  | .add value _ => Intsets.Int64 value
  | .remove .. | .find _ | .get _ | .blobLen => True

structure Represents (is : Intset) (p : Plain) (l : List ℤ) : Prop where
  holds : Holds is l
  elems : l.toFinset = p.elems
  encoding : is.encoding = p.encoding

theorem step_spec {p : Plain} {op : Op} (represents : Represents is p l) (int64 : op.Int64)
    (few : p.elems.card + 1 < 2 ^ 29) :
    ∃ is' l', step is op = some (is', (p.step op).2) ∧ Represents is' (p.step op).1 l' := by
  obtain ⟨holds, elems, encoding⟩ := represents
  have nodup : l.Nodup := holds.sorted.imp Int.ne_of_lt
  have card : l.length = p.elems.card := by rw [← elems, List.toFinset_card_of_nodup nodup]
  have mem : ∀ v, v ∈ p.elems ↔ v ∈ l := fun v => by rw [← elems, List.mem_toFinset]
  cases op with
  | add value fresh =>
    obtain ⟨is', l', done, holds', encoding', mem'⟩ := intsetAdd_spec holds int64 (by omega) fresh
    refine ⟨is', l', ?_, holds', ?_, encoding'.trans (by rw [encoding]; rfl)⟩
    · simp only [step, done, Option.map_some, Plain.step, mem]
      rfl
    · ext v
      simp only [Plain.step, List.mem_toFinset, mem', Finset.mem_insert, mem]
  | remove value fresh =>
    obtain ⟨is', l', done, holds', encoding', mem'⟩ := intsetRemove_spec holds (by omega) value fresh
    refine ⟨is', l', ?_, holds', ?_, encoding'.trans encoding⟩
    · simp only [step, done, Option.map_some, Plain.step, mem]
      rfl
    · ext v
      simp only [Plain.step, List.mem_toFinset, mem', Finset.mem_erase, mem]
  | find value =>
    refine ⟨is, l, ?_, holds, elems, encoding⟩
    simp only [step, intsetFind_spec holds (by omega) value, Option.map_some, Plain.step, mem]
  | get pos =>
    refine ⟨is, l, ?_, holds, elems, encoding⟩
    have sorted : p.elems.sort = l := by
      rw [← elems]
      exact (List.toFinset_sort _ nodup).mpr (holds.sorted.imp Int.le_of_lt)
    simp only [step, intsetGet_spec holds pos, Option.map_some, Plain.step, sorted]
  | blobLen =>
    refine ⟨is, l, ?_, holds, elems, encoding⟩
    simp only [step, intsetBlobLen, Plain.step, holds.length, card, encoding]

/-- Any sequence of calls stays inside of what is allocated and gives the replies of the finite
set; the words are as wide as the widest value that was ever added needs. -/
theorem intset_is_set {ops : List Op} (int64 : ∀ op ∈ ops, op.Int64) (few : ops.length < 2 ^ 29) :
    replies intsetNew ops = some (Plain.replies ⟨∅, .int16⟩ ops) := by
  suffices run : ∀ {is p l}, Represents is p l → p.elems.card + ops.length < 2 ^ 29 →
      replies is ops = some (p.replies ops) by
    have empty : Holds intsetNew [] := by
      refine ⟨rfl, rfl, List.Pairwise.nil, fun v member => ?_, fun i low => ?_⟩
      · cases member
      · cases low
    refine @run intsetNew ⟨∅, .int16⟩ [] ⟨empty, List.toFinset_nil, rfl⟩ ?_
    rw [Finset.card_empty, Nat.zero_add]
    exact few
  clear few
  induction ops with
  | nil => exact fun _ _ => rfl
  | cons op ops ih =>
    intro is p l represents few
    rw [List.length_cons] at few
    obtain ⟨own, others⟩ := List.forall_mem_cons.mp int64
    obtain ⟨is', l', stepped, represents'⟩ := step_spec represents own (by omega)
    have card := p.card_step op
    rw [replies, stepped, Option.bind_some, ih others represents' (by omega)]
    rfl

theorem intset_is_set_upgraded :
    let fresh : ℕ → UInt8 := fun _ => 255
    let ops : List Op := [.add 5 fresh, .add (-3) fresh, .add 70000 fresh, .add 5 fresh,
      .remove 5 fresh, .find 5, .find (-3), .blobLen]
    replies intsetNew ops = some [.success true, .success true, .success true, .success false,
      .success true, .success false, .success true, .bytes 16] := by
  intro fresh ops
  have int64 : ∀ op ∈ ops, op.Int64 := by simp [ops, Op.Int64, Int64]
  rw [intset_is_set int64 (by simp [ops])]
  decide

end Copier.Redis.Intsets
