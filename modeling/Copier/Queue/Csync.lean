import Copier.Foundation.Runs
import Mathlib.Algebra.Group.Int.Defs
import Mathlib.Algebra.Ring.Nat

/-! The synchronisation of three client libraries: a loop until the descriptor has reached the
last byte of a request. An `unsigned long` has 64 bits, and so has a `long`; the index of the
last byte is computed in the former, but kept in three different types. -/
namespace Copier.Queue.Csync

/-- What one turn does with the descriptor it sees. -/
abbrev Wait := Runs.Spin → BitVec 64 → Option Runs.Spin

namespace CopierSet

def smartInputDescriptorBufferGet (from_offset length : BitVec 64) : Wait :=
  let target : BitVec 64 := from_offset + length - 1
  Runs.spin fun bufferDescriptor => bufferDescriptor.toInt < target.toInt

end CopierSet

namespace Protobuf

/-- The `unsigned int` becomes a `long` where it is compared with one. -/
def smartInputDescriptorBufferGet (from_offset length : BitVec 64) : Wait :=
  let target : BitVec 32 := (from_offset + length - 1).setWidth 32
  Runs.spin fun bufferDescriptor => bufferDescriptor.toInt < (target.setWidth 64).toInt

end Protobuf

namespace MultiClient

/-- The target is cast to an `int64_t`. -/
def _csync (from_offset length : BitVec 64) : Wait :=
  Runs.spin fun descriptor => descriptor.toInt < (from_offset + length - 1).toInt

end MultiClient

inductive Library
  | copierSet
  | protobuf
  | multiClient
deriving DecidableEq

def Library.wait : Library → BitVec 64 → BitVec 64 → Wait
  | .copierSet => CopierSet.smartInputDescriptorBufferGet
  | .protobuf => Protobuf.smartInputDescriptorBufferGet
  | .multiClient => MultiClient._csync

/-- Before anything has arrived the descriptor is -1. -/
def Possible (d : BitVec 64) : Prop := -1 ≤ d.toInt

instance (d : BitVec 64) : Decidable (Possible d) := inferInstanceAs (Decidable (_ ≤ _))

/-- The descriptor is at the last byte of the request or behind it. -/
def Reached (from_offset length d : BitVec 64) : Prop :=
  (from_offset.toNat : Int) + length.toNat - 1 ≤ d.toInt

instance (from_offset length d : BitVec 64) : Decidable (Reached from_offset length d) :=
  inferInstanceAs (Decidable (_ ≤ _))

/-- What the request means in the library. -/
def Library.Means (lib : Library) (from_offset length : BitVec 64) (arrived : BitVec 64 → Prop) :
    Prop :=
  Runs.Waits (lib.wait from_offset length) Possible arrived

section Requests
variable (lib : Library) {from_offset length : BitVec 64}

theorem last_toInt (fits : from_offset.toNat + length.toNat ≤ 2 ^ 63) :
    (from_offset + length - 1).toInt = (from_offset.toNat : Int) + length.toNat - 1 := by
  have one : (1 : BitVec 64).toNat = 1 := rfl
  rw [BitVec.toInt_eq_toNat_cond, BitVec.toNat_sub, BitVec.toNat_add, one]
  split <;> omega

theorem narrowed_toInt (x : BitVec 64) : ((x.setWidth 32).setWidth 64).toInt = x.toInt % 2 ^ 32 := by
  have wide : ((x.setWidth 32).setWidth 64).toNat = x.toNat % 2 ^ 32 := by
    rw [BitVec.toNat_setWidth, BitVec.toNat_setWidth]
    omega
  rw [BitVec.toInt_eq_toNat_cond, BitVec.toInt_eq_toNat_cond, wide]
  split <;> split <;> omega

/-- The target as it is compared with the descriptor. -/
def Library.target (lib : Library) (from_offset length : BitVec 64) : Int :=
  let last := (from_offset.toNat : Int) + length.toNat - 1
  if lib = .protobuf then last % 2 ^ 32 else last

/-- The wait of every library is for a target of its own. -/
theorem Library.wait_eq (fits : from_offset.toNat + length.toNat ≤ 2 ^ 63) :
    lib.wait from_offset length = Runs.spin fun d => d.toInt < lib.target from_offset length := by
  have last := last_toInt fits
  have narrowed := narrowed_toInt (from_offset + length - 1)
  rw [last] at narrowed
  cases lib with
  | copierSet =>
    dsimp only [Library.wait, CopierSet.smartInputDescriptorBufferGet]
    rw [last]
    rfl
  | protobuf =>
    dsimp only [Library.wait, Protobuf.smartInputDescriptorBufferGet]
    rw [narrowed]
    rfl
  | multiClient =>
    dsimp only [Library.wait, MultiClient._csync]
    rw [last]
    rfl

theorem Library.returns_iff (fits : from_offset.toNat + length.toNat ≤ 2 ^ 63) (d : BitVec 64) :
    Runs.run (lib.wait from_offset length) .waiting [d] = some .returned ↔
      lib.target from_offset length ≤ d.toInt := by
  rw [lib.wait_eq fits, Runs.spin_one, Int.not_lt]

theorem Library.means_iff (fits : from_offset.toNat + length.toNat ≤ 2 ^ 63)
    {arrived : BitVec 64 → Prop} :
    lib.Means from_offset length arrived ↔
      ∀ d, Possible d → (lib.target from_offset length ≤ d.toInt ↔ arrived d) := by
  rw [Library.Means, lib.wait_eq fits, Runs.waits_spin_iff]
  refine forall₂_congr fun d _ => ?_
  rw [Int.not_lt]

theorem Library.target_bounds (fits : from_offset.toNat + length.toNat ≤ 2 ^ 63) :
    -1 ≤ lib.target from_offset length ∧ lib.target from_offset length < 2 ^ 63 := by
  dsimp only [Library.target]
  split_ifs <;> omega

/-- Two targets differ for some descriptor. -/
theorem targets_agree_iff {m n : Int} (low : -1 ≤ m) (high : m < 2 ^ 63) (low' : -1 ≤ n)
    (high' : n < 2 ^ 63) :
    (∀ d, Possible d → (m ≤ d.toInt ↔ n ≤ d.toInt)) ↔ m = n := by
  constructor
  · intro same
    have seen : ∀ k : Int, -1 ≤ k → k < 2 ^ 63 → (BitVec.ofInt 64 k).toInt = k := by
      intro k lower upper
      exact BitVec.toInt_ofInt_eq_self (by decide) (by omega) upper
    have atFirst := same (.ofInt 64 m) (by rwa [Possible, seen m low high])
    have atSecond := same (.ofInt 64 n) (by rwa [Possible, seen n low' high'])
    rw [seen m low high] at atFirst
    rw [seen n low' high'] at atSecond
    exact Int.le_antisymm (atSecond.mpr (Int.le_refl n)) (atFirst.mp (Int.le_refl m))
  · rintro rfl d -
    rfl

/-- The last byte is waited for if the target is its index. -/
theorem Library.means_reached_iff (fits : from_offset.toNat + length.toNat ≤ 2 ^ 63) :
    lib.Means from_offset length (Reached from_offset length) ↔
      lib.target from_offset length = (from_offset.toNat : Int) + length.toNat - 1 := by
  rw [lib.means_iff fits]
  obtain ⟨low, high⟩ := lib.target_bounds fits
  exact targets_agree_iff low high (by omega) (by omega)

/-- The two targets of 64 bits are never wrong. -/
theorem Library.means_reached (wide : lib ≠ .protobuf)
    (fits : from_offset.toNat + length.toNat ≤ 2 ^ 63) :
    lib.Means from_offset length (Reached from_offset length) := by
  rw [lib.means_reached_iff fits]
  exact if_neg wide

theorem protobuf_means_reached_iff (fits : from_offset.toNat + length.toNat ≤ 2 ^ 63) :
    Library.protobuf.Means from_offset length (Reached from_offset length) ↔
      1 ≤ from_offset.toNat + length.toNat ∧ from_offset.toNat + length.toNat ≤ 2 ^ 32 := by
  rw [Library.protobuf.means_reached_iff fits, Library.target, if_pos rfl]
  omega

/-- So it is the protobuf library that decides whether all three agree. -/
theorem all_means_reached_iff (fits : from_offset.toNat + length.toNat ≤ 2 ^ 63) :
    (∀ lib : Library, lib.Means from_offset length (Reached from_offset length)) ↔
      Library.protobuf.Means from_offset length (Reached from_offset length) := by
  constructor
  · intro means
    exact means .protobuf
  · intro narrow lib
    cases lib with
    | copierSet => exact Library.copierSet.means_reached (by decide) fits
    | protobuf => exact narrow
    | multiClient => exact Library.multiClient.means_reached (by decide) fits

/-- A request means the same in every library if it is for some of the first 2^32 bytes. -/
theorem csync_agrees_iff (fits : from_offset.toNat + length.toNat ≤ 2 ^ 63) :
    (∀ lib : Library, lib.Means from_offset length (Reached from_offset length)) ↔
      1 ≤ from_offset.toNat + length.toNat ∧ from_offset.toNat + length.toNat ≤ 2 ^ 32 := by
  rw [all_means_reached_iff fits]
  exact protobuf_means_reached_iff fits

/-- Other requests have no common meaning at all. -/
theorem common_meaning_iff (fits : from_offset.toNat + length.toNat ≤ 2 ^ 63) :
    (∃ arrived, ∀ lib : Library, lib.Means from_offset length arrived) ↔
      1 ≤ from_offset.toNat + length.toNat ∧ from_offset.toNat + length.toNat ≤ 2 ^ 32 := by
  rw [← protobuf_means_reached_iff fits, ← all_means_reached_iff fits]
  constructor
  · rintro ⟨arrived, means⟩
    have wide := (Library.copierSet.means_iff fits).mp (means .copierSet)
    have reached := (Library.copierSet.means_iff fits).mp
      (Library.copierSet.means_reached (by decide) fits)
    intro lib
    refine (lib.means_iff fits).mpr fun d possible => ?_
    have own := (lib.means_iff fits).mp (means lib)
    rw [own d possible, ← wide d possible, reached d possible]
  · intro means
    exact ⟨Reached from_offset length, means⟩

/-- A request for no byte is waited for all the same, except at the beginning of the buffer in the
libraries whose target has 64 bits. -/
theorem empty_passes_iff (fits : from_offset.toNat ≤ 2 ^ 63) :
    lib.Means from_offset 0 (fun _ => True) ↔ lib ≠ .protobuf ∧ from_offset = 0 := by
  have none_ : (0 : BitVec 64).toNat = 0 := rfl
  rw [lib.means_iff (by omega)]
  have start : (∀ d, Possible d → (lib.target from_offset 0 ≤ d.toInt ↔ True)) ↔
      lib.target from_offset 0 ≤ -1 := by
    constructor
    · intro passes
      have first : (-1#64).toInt = -1 := by decide
      have passed := passes (-1#64) (by decide)
      rw [first] at passed
      exact passed.mpr trivial
    · intro low d possible
      exact iff_true_intro (Int.le_trans low possible)
  rw [start, ← BitVec.toNat_inj]
  dsimp only [Library.target]
  split_ifs with narrow
  · simp only [narrow, ne_eq, not_true_eq_false, false_and, iff_false]
    omega
  · simp only [narrow, ne_eq, not_false_eq_true, true_and]
    omega

end Requests

theorem ten_bytes_agree : Library.copierSet.Means 4096 10 (Reached 4096 10) ∧
    Library.protobuf.Means 4096 10 (Reached 4096 10) ∧
    Library.multiClient.Means 4096 10 (Reached 4096 10) := by
  have agree : ∀ lib : Library, lib.Means 4096 10 (Reached 4096 10) :=
    (csync_agrees_iff (by decide)).mpr (by decide)
  exact ⟨agree .copierSet, agree .protobuf, agree .multiClient⟩

/-- The target of this request is 0. -/
theorem distant_byte_passed :
    Runs.run (Protobuf.smartInputDescriptorBufferGet 4294967296 1) .waiting [0] = some .returned ∧
      ¬ Reached 4294967296 1 0 := by
  constructor <;> decide

theorem distant_byte_not_waited : ¬ ∀ (lib : Library) (from_offset length : BitVec 64),
    from_offset.toNat + length.toNat ≤ 2 ^ 63 →
      lib.Means from_offset length (Reached from_offset length) := by
  intro agree
  obtain ⟨passed, missing⟩ := distant_byte_passed
  have possible : ∀ e ∈ [] ++ [(0 : BitVec 64)], Possible e := by
    intro e member
    rw [List.mem_singleton.mp member]
    decide
  exact missing (((agree .protobuf 4294967296 1 (by decide)).returns [] 0 possible).mp passed).2

end Copier.Queue.Csync
