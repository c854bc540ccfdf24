import Copier.Protobuf.Server
import Copier.Queue.Csync

/-! The stream that the parser takes a message from, under any use its interface allows. What
the consumer has taken, without what it backed up over and with what it skipped, is the
beginning of the array up to the position. A block is waited for by the loop of the library. -/
namespace Copier.Protobuf
open Deferred (Span)
open Queue.Csync (Library Possible Reached)

namespace ArrayInputStreamCopier

def ByteCount (s : ArrayInputStreamCopier) : Int := s.position_

/-- What `Skip` returns. -/
def skips (s : ArrayInputStreamCopier) (count : Int) : Bool := !decide (s.size_ - s.position_ < count)

end ArrayInputStreamCopier

/-- A consumer of the stream: the bytes it has taken, and how many the last call returned. -/
structure Consumer where
  stream : ArrayInputStreamCopier
  taken : Bytes
  last : ℕ
deriving DecidableEq

/-- A call, with the descriptor where it is waited for. -/
inductive Call
  | Next (bufferDescriptor : Int)
  | BackUp (count : Int)
  | Skip (count : Int)

namespace Consumer

def start (data : Bytes) (block_size : Int) : Consumer :=
  ⟨arrayInputStream data.length block_size, [], 0⟩

/-- What follows the bytes taken so far. -/
def following (x : Consumer) (data : Bytes) (count : ℕ) : Bytes :=
  (data.drop x.taken.length).take count

/-- A call by the rules of the interface: only what the call before returned is backed up
over, and the count is not negative. -/
def call (data : Bytes) (x : Consumer) : Call → Option Consumer
  | .Next bufferDescriptor => (x.stream.Next bufferDescriptor).map fun
      | (some b, s) => ⟨s, x.taken ++ (data.drop b.off).take b.len, b.len⟩
      | (none, s) => ⟨s, x.taken, 0⟩
  | .BackUp count =>
      if 0 ≤ count ∧ count ≤ x.last then
        some ⟨x.stream.BackUp count, x.taken.take (x.taken.length - count.toNat), 0⟩
      else none
  | .Skip count =>
      if 0 ≤ count then
        some ⟨x.stream.Skip count, x.taken ++ x.following data count.toNat, 0⟩
      else none

end Consumer

/-- The block size that the constructor settles on. -/
def blockSize (data : Bytes) (block_size : Int) : Int :=
  if 0 < block_size then block_size else data.length

/-- The stream stands behind what the consumer has taken. -/
structure Standing (data : Bytes) (block_size : Int) (x : Consumer) : Prop where
  array : x.stream.size_ = data.length
  block : x.stream.block_size_ = blockSize data block_size
  position : x.stream.position_ = x.taken.length
  taken : x.taken <+: data
  last : x.stream.last_returned_size_ = x.last
  behind : x.last ≤ x.taken.length

/-- What the interface promises of a stream over `data`. -/
structure Streams (data : Bytes) (block_size : Int) (x : Consumer) : Prop where
  position : 0 ≤ x.stream.position_ ∧ x.stream.position_ ≤ data.length
  taken : x.taken = data.take x.stream.ByteCount.toNat
  ends : ∀ d b s, x.stream.Next d = some (b, s) → (b = none ↔ x.stream.position_ = data.length)
  block : ∀ d b s, x.stream.Next d = some (some b, s) →
    0 < b.len ∧ (b.len : Int) ≤ blockSize data block_size ∧ ((b.off + b.len - 1 : ℕ) : Int) ≤ d
  skip : ∀ count, x.stream.skips count = false ↔ data.length - x.stream.position_ < count
  returns : ∀ d : Int, data.length ≤ d + 1 → (x.stream.Next d).isSome

section Calls
variable {data : Bytes} {block_size : Int} {x y : Consumer} {s s' : ArrayInputStreamCopier}

theorem toInt_eq (short : n < 2 ^ 31) : toInt n = n := by
  unfold toInt
  exact Int.bmod_eq_of_le (by omega) (by omega)

theorem Standing.start (short : data.length < 2 ^ 31) :
    Standing data block_size (.start data block_size) := by
  unfold Consumer.start arrayInputStream
  rw [toInt_eq short]
  constructor
  · rfl
  · rfl
  · rfl
  · exact List.nil_prefix
  · rfl
  · exact Nat.le_refl 0

theorem Standing.short (standing : Standing data block_size x) : x.taken.length ≤ data.length :=
  standing.taken.length_le

theorem Standing.positive (standing : Standing data block_size x)
    (more : x.stream.position_ < x.stream.size_) : 0 < x.stream.block_size_ := by
  have position := standing.position
  have array := standing.array
  have block := standing.block
  unfold blockSize at block
  split at block <;> omega

/-- A result of `Next`: the end, or the next bytes, waited for up to the last one. -/
theorem Standing.next_cases (standing : Standing data block_size x) (short : data.length < 2 ^ 31)
    {b : Option Span} (next : x.stream.Next d = some (b, s)) :
    (b = none ∧ x.taken.length = data.length ∧ s = { x.stream with last_returned_size_ := 0 }) ∨
      ∃ n, b = some ⟨buffer, x.taken.length, n⟩ ∧ 0 < n ∧ (n : Int) ≤ x.stream.block_size_ ∧
        x.taken.length + n ≤ data.length ∧ (x.taken.length + n - 1 : ℕ) ≤ d ∧
        s = { x.stream with position_ := (x.taken.length + n : ℕ), last_returned_size_ := n } := by
  have array := standing.array
  have position := standing.position
  have inside := standing.short
  simp only [ArrayInputStreamCopier.Next] at next
  split_ifs at next with more passed
  · cases next
    have block := standing.positive more
    obtain ⟨n, length⟩ : ∃ n : ℕ, min x.stream.block_size_ (x.stream.size_ - x.stream.position_) = n :=
      ⟨_, (Int.toNat_of_nonneg (by omega)).symm⟩
    simp only [smartInputDescriptorBufferGet, decide_eq_true_eq, length] at passed
    refine .inr ⟨n, ?_, by omega, by omega, by omega, by omega, ?_⟩
    · rw [length, position, Int.toNat_natCast, Int.toNat_natCast]
    · rw [length, position]
      simp
  · cases next
    exact .inl ⟨rfl, by omega, rfl⟩

theorem Standing.next (standing : Standing data block_size x) (short : data.length < 2 ^ 31)
    (called : x.call data (.Next d) = some y) : Standing data block_size y := by
  simp only [Consumer.call, Option.map_eq_some_iff, Prod.exists] at called
  obtain ⟨b, s, next, result⟩ := called
  rcases standing.next_cases short next with ⟨rfl, -, rfl⟩ | ⟨n, rfl, -, -, inside, -, rfl⟩
  · cases result
    exact ⟨standing.array, standing.block, standing.position, standing.taken, rfl, Nat.zero_le _⟩
  · cases result
    have more : (x.taken ++ (data.drop x.taken.length).take n).length = x.taken.length + n := by
      simp only [List.length_append, List.length_take, List.length_drop]
      omega
    refine ⟨standing.array, standing.block, ?_, ?_, rfl, ?_⟩
    · exact (congrArg Nat.cast more).symm
    · refine List.prefix_iff_eq_take.mpr ?_
      rw [more, List.take_add, ← List.prefix_iff_eq_take.mp standing.taken]
    · rw [more]
      exact Nat.le_add_left _ _

theorem Standing.backUp (standing : Standing data block_size x)
    (called : x.call data (.BackUp count) = some y) : Standing data block_size y := by
  simp only [Consumer.call, Option.ite_none_right_eq_some] at called
  obtain ⟨⟨low, high⟩, result⟩ := called
  cases result
  have behind := standing.behind
  have fewer : (x.taken.take (x.taken.length - count.toNat)).length = x.taken.length - count.toNat := by
    rw [List.length_take]
    omega
  refine ⟨standing.array, standing.block, ?_, ?_, rfl, Nat.zero_le _⟩
  · rw [fewer, ArrayInputStreamCopier.BackUp, standing.position]
    dsimp only
    omega
  · exact (List.take_prefix _ _).trans standing.taken

theorem Standing.skip (standing : Standing data block_size x)
    (called : x.call data (.Skip count) = some y) : Standing data block_size y := by
  simp only [Consumer.call, Option.ite_none_right_eq_some] at called
  obtain ⟨low, result⟩ := called
  cases result
  have array := standing.array
  have position := standing.position
  have inside := standing.short
  have more : (x.taken ++ x.following data count.toNat).length =
      x.taken.length + min count.toNat (data.length - x.taken.length) := by
    simp only [Consumer.following, List.length_append, List.length_take, List.length_drop]
  have grown : x.taken ++ x.following data count.toNat <+: data := by
    refine List.prefix_iff_eq_take.mpr ?_
    rw [more, List.take_add, ← List.prefix_iff_eq_take.mp standing.taken, Consumer.following]
    congr 1
    rw [← List.length_drop, List.take_eq_take_min]
  unfold ArrayInputStreamCopier.Skip
  split
  · exact ⟨array, standing.block, by rw [more]; dsimp only; omega, grown, rfl, Nat.zero_le _⟩
  · exact ⟨array, standing.block, by rw [more]; dsimp only; omega, grown, rfl, Nat.zero_le _⟩

theorem Standing.call {c : Call} (standing : Standing data block_size x) (short : data.length < 2 ^ 31)
    (called : x.call data c = some y) : Standing data block_size y := by
  cases c with
  | Next d => exact standing.next short called
  | BackUp count => exact standing.backUp called
  | Skip count => exact standing.skip called

theorem Standing.streams (standing : Standing data block_size x) (short : data.length < 2 ^ 31) :
    Streams data block_size x where
  position := by
    have position := standing.position
    have inside := standing.short
    omega
  taken := by
    rw [ArrayInputStreamCopier.ByteCount, standing.position, Int.toNat_natCast]
    exact List.prefix_iff_eq_take.mp standing.taken
  ends d b s next := by
    have position := standing.position
    rcases standing.next_cases short next with ⟨rfl, ended, -⟩ | ⟨n, rfl, some, -, inside, -, -⟩
    · exact iff_of_true rfl (by omega)
    · exact iff_of_false (Option.some_ne_none _) (by omega)
  block d b s next := by
    rcases standing.next_cases short next with ⟨none, -⟩ | ⟨n, same, some, small, -, waited, -⟩
    · cases none
    · cases same
      exact ⟨some, standing.block ▸ small, waited⟩
  skip count := by
    simp [ArrayInputStreamCopier.skips, standing.array]
  returns d arrived := by
    have array := standing.array
    have position := standing.position
    by_cases more : x.stream.position_ < x.stream.size_
    · have block := standing.positive more
      have waited : smartInputDescriptorBufferGet d x.stream.position_
          (min x.stream.block_size_ (x.stream.size_ - x.stream.position_)) = true := by
        simp only [smartInputDescriptorBufferGet, decide_eq_true_eq]
        omega
      simp [ArrayInputStreamCopier.Next, more, waited]
    · simp [ArrayInputStreamCopier.Next, more]

/-- The stream does what its interface promises, whatever calls were made. -/
theorem arrayInputStream_streams (short : data.length < 2 ^ 31) (block_size : Int)
    (ran : Runs.run (Consumer.call data) (.start data block_size) calls = some x) :
    Streams data block_size x :=
  ((Runs.Path.of_run_any ran).invariant (Standing data block_size) (.start short)
    fun standing _ called => standing.call short called).streams short

theorem five_bytes_streamed : ∃ x, Runs.run (Consumer.call [1, 2, 3, 4, 5]) (.start [1, 2, 3, 4, 5] 2)
    [.Next 1, .Next 4, .BackUp 1, .Skip 1, .Next 4] = some x ∧ x.taken = [1, 2, 3, 4, 5] ∧
      Streams [1, 2, 3, 4, 5] 2 x :=
  ⟨_, rfl, rfl, arrayInputStream_streams (by decide) 2
    (show Runs.run (Consumer.call [1, 2, 3, 4, 5]) (.start [1, 2, 3, 4, 5] 2)
      [.Next 1, .Next 4, .BackUp 1, .Skip 1, .Next 4] = some _ from rfl)⟩

end Calls

section Requests
variable (s : ArrayInputStreamCopier)

/-! What `Next` asks for: an `int` becomes an `unsigned long`. -/

def ArrayInputStreamCopier.from_offset : BitVec 64 := .ofInt 64 s.position_

def ArrayInputStreamCopier.length : BitVec 64 :=
  .ofInt 64 (min s.block_size_ (s.size_ - s.position_))

variable {s : ArrayInputStreamCopier} {size : ℕ} {x : World}

theorem converted_toInt (from_offset length : Int) :
    (BitVec.ofInt 64 from_offset + BitVec.ofInt 64 length - 1).toInt % 2 ^ 32 =
      (from_offset + length - 1) % 2 ^ 32 := by
  have sum : BitVec.ofInt 64 from_offset + BitVec.ofInt 64 length - 1 =
      BitVec.ofInt 64 (from_offset + length - 1) := by
    rw [Int.sub_eq_add_neg, BitVec.ofInt_add, BitVec.ofInt_add, BitVec.ofInt_neg,
      BitVec.sub_eq_add_neg]
    rfl
  have wrapped := @Int.bmod_emod (from_offset + length - 1) (2 ^ 64)
  rw [sum, BitVec.toInt_ofInt]
  omega

/-- `Next` has a result when the loop of the library is left. -/
theorem next_isSome_iff (more : s.position_ < s.size_) (d : BitVec 64) :
    (s.Next d.toInt).isSome = true ↔
      Runs.run (Library.protobuf.wait s.from_offset s.length) .waiting [d] = some .returned := by
  have left : Runs.run (Library.protobuf.wait s.from_offset s.length) .waiting [d] =
      some .returned ↔ smartInputDescriptorBufferGet d.toInt s.position_
        (min s.block_size_ (s.size_ - s.position_)) = true := by
    refine (Runs.spin_one d).trans ?_
    rw [Queue.Csync.narrowed_toInt, ArrayInputStreamCopier.from_offset,
      ArrayInputStreamCopier.length, converted_toInt, Int.not_lt, smartInputDescriptorBufferGet,
      decide_eq_true_eq]
  rw [left, ArrayInputStreamCopier.Next, if_pos more]
  dsimp only
  split_ifs with passed <;> simp [passed]

/-- A request of the parser ends within the first 2^31 bytes, and is not empty. -/
theorem ArrayInputStreamCopier.Fits.means (fits : s.Fits size) (more : s.position_ < s.size_) :
    Library.protobuf.Means s.from_offset s.length (Reached s.from_offset s.length) := by
  have int := fits.int
  have block := fits.block
  have last := fits.last
  have position := fits.position
  have unsigned : ∀ i : Int, 0 ≤ i → i < 2 ^ 31 → ((BitVec.ofInt 64 i).toNat : Int) = i := by
    intro i low high
    rw [BitVec.toNat_ofInt]
    omega
  have start : (s.from_offset.toNat : Int) = s.position_ := unsigned _ (by omega) (by omega)
  have count : (s.length.toNat : Int) = min s.block_size_ (s.size_ - s.position_) :=
    unsigned _ (by omega) (by omega)
  exact (Queue.Csync.protobuf_means_reached_iff (by omega)).mpr (by omega)

/-- So the server's parser gets a block exactly when its last byte has arrived. -/
theorem parser_waits_for_block (path : Runs.Path step Drained init ls x)
    (here : x.phase = .parsing s) (more : s.position_ < s.size_) {d : BitVec 64}
    (possible : Possible d) :
    (s.Next d.toInt).isSome = true ↔ Reached s.from_offset s.length d := by
  have inv : Inv x := path.invariant Inv .init fun inv drained stepped => inv.step drained stepped
  have placed := inv.placed
  simp only [World.Placed, here] at placed
  obtain ⟨-, -, fits⟩ := placed
  have once := (fits.means more).returns [] d (by simpa using possible)
  rw [next_isSome_iff more]
  simpa using once

end Requests
end Copier.Protobuf
