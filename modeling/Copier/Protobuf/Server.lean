import Copier.Foundation.Arrivals
import Copier.Foundation.Runs

/-! The key-value server of the Protobuf programs. The bytes that a receive returns come
later; the parser takes the message out of a stream whose blocks wait for the descriptor. -/
namespace Copier.Protobuf
open Deferred (Inbox Span contents)

abbrev Bytes := List UInt8

/-- The block of the array that every message is received into. -/
def buffer : ℕ := 0

/-- The stream, but for the pointers to the array and the descriptor. -/
structure ArrayInputStreamCopier where
  size_ : Int
  block_size_ : Int
  position_ : Int
  last_returned_size_ : Int
deriving DecidableEq

/-- An unsigned number as an `int`. -/
def toInt (n : ℕ) : Int := (n : Int).bmod (2 ^ 32)

/-- The constructor, whose `size` is an `int`. -/
def arrayInputStream (size : ℕ) (block_size : Int) : ArrayInputStreamCopier :=
  ⟨toInt size, if 0 < block_size then block_size else toInt size, 0, 0⟩

/-- Whether `smartInputDescriptorBufferGet` returns; its target is an `unsigned int`. -/
def smartInputDescriptorBufferGet (bufferDescriptor from_offset length : Int) : Bool :=
  (from_offset + length - 1) % 2 ^ 32 ≤ bufferDescriptor

namespace ArrayInputStreamCopier
variable (s : ArrayInputStreamCopier)

/-- The block that is returned, or none at the end of the array. There is no result yet while
the descriptor is waited for. -/
def Next (bufferDescriptor : Int) : Option (Option Span × ArrayInputStreamCopier) :=
  if s.position_ < s.size_ then
    let last_returned_size_ := min s.block_size_ (s.size_ - s.position_)
    if smartInputDescriptorBufferGet bufferDescriptor s.position_ last_returned_size_ then
      some (some ⟨buffer, s.position_.toNat, last_returned_size_.toNat⟩,
        { s with
          position_ := s.position_ + last_returned_size_
          last_returned_size_ := last_returned_size_ })
    else none
  else some (none, { s with last_returned_size_ := 0 })

def BackUp (count : Int) : ArrayInputStreamCopier :=
  { s with position_ := s.position_ - count, last_returned_size_ := 0 }

def Skip (count : Int) : ArrayInputStreamCopier :=
  if s.size_ - s.position_ < count then { s with position_ := s.size_, last_returned_size_ := 0 }
  else { s with position_ := s.position_ + count, last_returned_size_ := 0 }

end ArrayInputStreamCopier

inductive Phase
  | accepting
  | polling
  | receiving
  | parsing (s : ArrayInputStreamCopier)
deriving DecidableEq

/-- `message` is history: what was received of the message at hand. -/
structure World where
  inbox : Inbox UInt8
  messageLength : ℕ
  totalEpho : ℕ
  currentEpho : ℕ
  currentOffset : ℕ
  message : Bytes
  phase : Phase

def init : World where
  inbox := ⟨⟨fun _ _ => 0, 1, [buffer], []⟩, 0⟩
  messageLength := 0
  totalEpho := 0
  currentEpho := 0
  currentOffset := 0
  message := []
  phase := .accepting

/-- `poll` fails or times out, or tells whether there is input; a receive fails or brings
some bytes. -/
inductive Label
  | service
  | accept (messageLength totalEpho : ℕ)
  | poll (input : Option Bool)
  | recv (data : Option Bytes)
  | Next
  | BackUp (count : Int)
  | Skip (count : Int)
  | parsed

section Functions
variable (x : World)

def recvWithsmartInputDescriptorBufferRedis (offset : ℕ) (data : Bytes) : Inbox UInt8 :=
  x.inbox.receive buffer 0 offset data

/-- The head of the loop over the messages. -/
def World.loop : World :=
  { x with message := [], phase := if x.currentEpho < x.totalEpho then .polling else .accepting }

/-- The result of the receive is a `size_t`, as `currentOffset` is. -/
def receive (data : Option Bytes) : World :=
  let bytes_received := data.elim (2 ^ 64 - 1) List.length
  let currentOffset := (x.currentOffset + bytes_received) % 2 ^ 64
  let y := { x with
    inbox := recvWithsmartInputDescriptorBufferRedis x x.currentOffset (data.getD [])
    message := x.message ++ data.getD [] }
  if currentOffset = x.messageLength then
    { y with
      currentOffset := 0
      currentEpho := x.currentEpho + 1
      phase := .parsing (arrayInputStream x.messageLength 4096) }
  else { y with currentOffset := currentOffset }

end Functions

/-- No array has 2^63 bytes, and what is written beyond its end is not followed. The parser
goes back within the block it got, and does not skip backwards. -/
def step (x : World) (l : Label) : Option World :=
  match x.phase, l with
  | _, .service => x.inbox.serve.map fun inbox => { x with inbox := inbox }
  | .accepting, .accept messageLength totalEpho =>
      if messageLength < 2 ^ 63 then
        some { x with
          inbox := { x.inbox with descriptor := 0 }
          messageLength := messageLength
          totalEpho := totalEpho
          currentEpho := 0
          currentOffset := 0 }.loop
      else none
  | .polling, .poll none => some { x with phase := .accepting }
  | .polling, .poll (some input) => some (if input then { x with phase := .receiving } else x)
  | .receiving, .recv data =>
      if ∀ bytes ∈ data, bytes = [] ∨ x.currentOffset + bytes.length ≤ x.messageLength then
        some (receive x data)
      else none
  | .parsing s, .Next => (s.Next x.inbox.descriptor).map fun (_, s') => { x with phase := .parsing s' }
  | .parsing s, .BackUp count =>
      if 0 ≤ count ∧ count ≤ s.last_returned_size_ then
        some { x with phase := .parsing (s.BackUp count) }
      else none
  | .parsing s, .Skip count =>
      if 0 ≤ count then some { x with phase := .parsing (s.Skip count) } else none
  | .parsing _, .parsed => some x.loop
  | _, _ => none

/-- While a message is parsed, the bytes up to the descriptor are those of the message, and so
are those of the next block of the stream. -/
structure Faithful (x : World) (s : ArrayInputStreamCopier) : Prop where
  whole : x.message.length = x.messageLength
  passed : ∀ i, (bound : i < x.message.length) → (i : Int) ≤ x.inbox.descriptor →
    x.inbox.heap.mem buffer i = x.message.get ⟨i, bound⟩
  block : ∀ b s', s.Next x.inbox.descriptor = some (some b, s') → b.off + b.len ≤ x.message.length ∧
    contents x.inbox.heap.mem b = (x.message.drop b.off).take b.len

/-- A receive is made when everything before it has arrived, and does not fail. -/
def Drained (x : World) : Label → Prop
  | .recv data => x.inbox.heap.ring = [] ∧ data ≠ none
  | _ => True

/-- The position is in the array, or the array has no bytes left and nothing can be backed up. -/
structure ArrayInputStreamCopier.Fits (s : ArrayInputStreamCopier) (size : ℕ) : Prop where
  array : s.size_ ≤ size
  int : s.size_ < 2 ^ 31
  block : 0 < s.block_size_
  last : 0 ≤ s.last_returned_size_
  position : s.last_returned_size_ ≤ s.position_ ∨ s.last_returned_size_ = 0 ∧ s.size_ ≤ s.position_

section Stream
variable {s s' : ArrayInputStreamCopier} {size : ℕ}

theorem toInt_le (n : ℕ) : toInt n ≤ n := by
  have whole := Int.emod_add_mul_ediv n (2 ^ 32)
  have quotient : 0 ≤ (n : Int) / 2 ^ 32 := Int.ediv_nonneg (Int.natCast_nonneg _) (by omega)
  have narrowed := Int.bmod_eq_emod n (2 ^ 32)
  unfold toInt
  split at narrowed <;> omega

theorem toInt_lt (n : ℕ) : toInt n < 2 ^ 31 := by
  have below := Int.bmod_lt (x := n) (m := 2 ^ 32) (by omega)
  unfold toInt
  omega

theorem arrayInputStream_fits (size : ℕ) (positive : 0 < block_size) :
    (arrayInputStream size block_size).Fits size where
  array := by
    simpa only [arrayInputStream] using toInt_le size
  int := by
    simpa only [arrayInputStream] using toInt_lt size
  block := by
    unfold arrayInputStream
    rwa [if_pos positive]
  last := by
    unfold arrayInputStream
    exact Int.le_refl 0
  position := by
    unfold arrayInputStream
    exact .inl (Int.le_refl 0)

/-- A block is handed out when the descriptor has passed it. -/
theorem ArrayInputStreamCopier.Fits.next_block {b : Span} (fits : s.Fits size)
    (next : s.Next bufferDescriptor = some (some b, s')) :
    b.blk = buffer ∧ b.off + b.len ≤ size ∧ ((b.off + b.len : ℕ) : Int) ≤ bufferDescriptor + 1 := by
  have array := fits.array
  have int := fits.int
  have block := fits.block
  have last := fits.last
  have position := fits.position
  simp only [Next] at next
  split_ifs at next with more passed
  swap
  · cases next
  cases next
  simp only [smartInputDescriptorBufferGet, decide_eq_true_eq] at passed
  refine ⟨rfl, ?_, ?_⟩
  · dsimp only
    omega
  · dsimp only
    omega

theorem ArrayInputStreamCopier.Fits.next {b : Option Span} (fits : s.Fits size)
    (next : s.Next bufferDescriptor = some (b, s')) : s'.Fits size := by
  have block := fits.block
  have last := fits.last
  have position := fits.position
  simp only [Next] at next
  split_ifs at next with more passed
  · cases next
    exact ⟨fits.array, fits.int, block, by dsimp only; omega, by dsimp only; omega⟩
  · cases next
    exact ⟨fits.array, fits.int, block, Int.le_refl _, by dsimp only; omega⟩

theorem ArrayInputStreamCopier.Fits.backUp (fits : s.Fits size)
    (high : count ≤ s.last_returned_size_) : (s.BackUp count).Fits size := by
  have position := fits.position
  refine ⟨fits.array, fits.int, fits.block, Int.le_refl _, ?_⟩
  unfold BackUp
  dsimp only
  omega

theorem ArrayInputStreamCopier.Fits.skip (fits : s.Fits size) (low : 0 ≤ count) :
    (s.Skip count).Fits size := by
  have last := fits.last
  have position := fits.position
  unfold Skip
  split
  · exact ⟨fits.array, fits.int, fits.block, Int.le_refl _, .inr ⟨rfl, Int.le_refl _⟩⟩
  · refine ⟨fits.array, fits.int, fits.block, Int.le_refl _, ?_⟩
    dsimp only
    omega

end Stream

/-- What was received of the message at hand arrives in order. -/
def World.Arriving (x : World) : Prop :=
  x.message = [] ∨ ∃ arrived left, arrived ++ left = x.message ∧ x.inbox.Behind buffer 0 arrived left

/-- Where the program is with the message. -/
def World.Placed (x : World) : Prop :=
  match x.phase with
  | .accepting | .polling => x.message = [] ∧ x.currentOffset = 0
  | .receiving => x.currentOffset = x.message.length ∧ x.message.length ≤ x.messageLength
  | .parsing s => x.currentOffset = 0 ∧ x.message.length = x.messageLength ∧ s.Fits x.messageLength

structure Inv (x : World) : Prop where
  small : x.messageLength < 2 ^ 63
  arriving : x.Arriving
  placed : x.Placed

section Runs
variable {x x' : World} {s : ArrayInputStreamCopier}

theorem World.Arriving.drained (arriving : x.Arriving) (drained : x.inbox.heap.ring = []) :
    contents x.inbox.heap.mem ⟨buffer, 0, x.message.length⟩ = x.message := by
  rcases arriving with empty | ⟨arrived, left, same, behind⟩
  · rw [empty]
    rfl
  · rw [← same, behind.drained_iff.mp drained, List.append_nil]
    exact behind.bytes

theorem Inv.init : Inv Protobuf.init := ⟨by decide, .inl rfl, rfl, rfl⟩

theorem Inv.loop (small : x.messageLength < 2 ^ 63) (start : x.currentOffset = 0) : Inv x.loop where
  small := small
  arriving := .inl rfl
  placed := by
    simp only [World.loop, World.Placed]
    split_ifs <;> exact ⟨trivial, start⟩

theorem Inv.service {inbox : Inbox UInt8} (inv : Inv x) (served : x.inbox.serve = some inbox) :
    Inv { x with inbox := inbox } where
  small := inv.small
  arriving := by
    rcases inv.arriving with empty | ⟨arrived, left, same, behind⟩
    · exact .inl empty
    · obtain ⟨d, rest, rfl, after⟩ := behind.serve served
      exact .inr ⟨arrived ++ [d], rest, by simpa using same, after⟩
  placed := inv.placed

/-- The next receive of a message. -/
theorem Inv.receive {data : Bytes} (inv : Inv x) (here : x.phase = .receiving)
    (drained : x.inbox.heap.ring = [])
    (room : data = [] ∨ x.currentOffset + data.length ≤ x.messageLength) :
    Inv (receive x (some data)) := by
  have placed := inv.placed
  simp only [World.Placed, here] at placed
  obtain ⟨offset, short⟩ := placed
  have small := inv.small
  have total : (x.message ++ data).length ≤ x.messageLength := by
    rw [List.length_append]
    rcases room with rfl | room
    · exact short
    · omega
  have behind := Deferred.Inbox.receive_behind drained (inv.arriving.drained drained) (by omega) data
  have arriving : ∃ arrived left, arrived ++ left = x.message ++ data ∧
      (recvWithsmartInputDescriptorBufferRedis x x.currentOffset data).Behind buffer 0 arrived left := by
    rw [offset]
    exact ⟨x.message, data, rfl, behind⟩
  have advanced : (x.currentOffset + data.length) % 2 ^ 64 = (x.message ++ data).length := by
    rw [List.length_append] at total ⊢
    omega
  unfold Protobuf.receive
  simp only [Option.elim_some, Option.getD_some, advanced]
  split_ifs with complete
  · exact ⟨small, .inr arriving, rfl, complete, arrayInputStream_fits _ (by decide)⟩
  · refine ⟨small, .inr arriving, ?_⟩
    simp only [World.Placed, here]
    exact ⟨trivial, total⟩

theorem Inv.stream (inv : Inv x) (here : x.phase = .parsing s) {s' : ArrayInputStreamCopier}
    (fits : s.Fits x.messageLength → s'.Fits x.messageLength) :
    Inv { x with phase := .parsing s' } := by
  have placed := inv.placed
  simp only [World.Placed, here] at placed
  exact ⟨inv.small, inv.arriving, placed.1, placed.2.1, fits placed.2.2⟩

/-- One step. -/
theorem Inv.step {l : Label} (inv : Inv x) (drained : Drained x l) (stepped : step x l = some x') :
    Inv x' := by
  have placed := inv.placed
  unfold World.Placed at placed
  unfold Protobuf.step at stepped
  split at stepped
  · obtain ⟨inbox, served, rfl⟩ := Option.map_eq_some_iff.mp stepped
    exact inv.service served
  · split_ifs at stepped with small
    cases stepped
    exact .loop small rfl
  · rename_i here
    simp only [here] at placed
    cases stepped
    exact ⟨inv.small, inv.arriving, placed⟩
  · rename_i input here
    simp only [here] at placed
    cases stepped
    split
    · refine ⟨inv.small, inv.arriving, ?_⟩
      simp only [World.Placed, placed.1, placed.2]
      exact ⟨rfl, Nat.zero_le _⟩
    · exact inv
  · rename_i data here
    split_ifs at stepped with room
    cases stepped
    obtain ⟨empty, some_⟩ := drained
    obtain ⟨bytes, rfl⟩ := Option.ne_none_iff_exists'.mp some_
    exact inv.receive here empty (room bytes rfl)
  · rename_i s here
    obtain ⟨⟨block, s'⟩, next, rfl⟩ := Option.map_eq_some_iff.mp stepped
    exact inv.stream here fun fits => fits.next next
  · rename_i here
    split_ifs at stepped with allowed
    cases stepped
    exact inv.stream here fun fits => fits.backUp allowed.2
  · rename_i here
    split_ifs at stepped with allowed
    cases stepped
    exact inv.stream here fun fits => fits.skip allowed
  · rename_i here
    simp only [here] at placed
    cases stepped
    exact .loop inv.small placed.1
  · cases stepped

theorem Inv.faithful (inv : Inv x) (here : x.phase = .parsing s) : Faithful x s := by
  have placed := inv.placed
  simp only [World.Placed, here] at placed
  obtain ⟨-, whole, fits⟩ := placed
  refine ⟨whole, fun i bound passed => ?_, fun block s' next => ?_⟩
  · rcases inv.arriving with empty | ⟨arrived, left, same, behind⟩
    · simp [empty] at bound
    · have byte := behind.byte (same ▸ bound) passed
      rw [Nat.zero_add] at byte
      exact byte.trans (List.getElem_of_eq same _)
  · obtain ⟨blk, inside, passed⟩ := fits.next_block next
    refine ⟨whole ▸ inside, ?_⟩
    obtain ⟨b, off, len⟩ := block
    dsimp only at blk inside passed ⊢
    subst blk
    rcases inv.arriving with empty | ⟨arrived, left, same, behind⟩
    · have none_ : len = 0 := by
        simp only [empty, List.length_nil] at whole
        omega
      simp [none_, contents]
    · have descriptor := behind.descriptor
      have there : off + len ≤ arrived.length := by omega
      have slice := Deferred.contents_slice behind.bytes there
      rw [Nat.zero_add] at slice
      rw [slice, ← same, List.drop_append_of_le_length (by omega),
        List.take_append_of_le_length (by rw [List.length_drop]; omega)]

/-- In these runs the parser sees the message. -/
theorem messages_parsed {ls : List Label} (path : Runs.Path Protobuf.step Drained Protobuf.init ls x)
    (here : x.phase = .parsing s) : Faithful x s :=
  (path.invariant Inv .init fun inv drained stepped => inv.step drained stepped).faithful here

end Runs

instance (x : World) (l : Label) : Decidable (Drained x l) := by
  cases l <;> unfold Drained <;> infer_instance

/-- A message in two parts, and the next one at once. -/
def twoMessages : List Label :=
  [.accept 3 2, .poll (some true), .recv (some [1, 2]), .service, .service, .recv (some [3]), .service,
    .Next, .parsed, .poll (some true), .recv (some [4, 5, 6])]

theorem twoMessages_drained :
    (Runs.run (fun x l => if Drained x l then step x l else none) init twoMessages).map World.phase =
      some (.parsing (arrayInputStream 3 4096)) := by
  decide +kernel

theorem twoMessages_parsed : ∃ x, Runs.run step init twoMessages = some x ∧
    x.phase = .parsing (arrayInputStream 3 4096) ∧ Faithful x (arrayInputStream 3 4096) := by
  obtain ⟨x, ran, here⟩ := Option.map_eq_some_iff.mp twoMessages_drained
  have path : Runs.Path step Drained init twoMessages x := .of_run ran
  exact ⟨x, path.run_eq, here, messages_parsed path here⟩

/-- The last byte of a message is received by a call of its own. -/
def lastByte : List Label :=
  [.accept 4097 1, .poll (some true), .recv (some (List.replicate 4096 1)), .recv (some [2])]

theorem lastByte_descriptor : (Runs.run step init lastByte).map
    (fun x => (x.phase, x.inbox.descriptor,
      (contents x.inbox.heap.mem ⟨buffer, 0, 4096⟩).take 1, x.message.take 1)) =
      some (.parsing (arrayInputStream 4097 4096), 4095, [0], [1]) := by
  decide +kernel

/-- The stream hands out the first block before any of its bytes has come. -/
theorem block_before_arrival : ¬ ∀ ls x s, Runs.run step init ls = some x → x.phase = .parsing s →
    Faithful x s := by
  intro faithful
  obtain ⟨x, ran, seen⟩ := Option.map_eq_some_iff.mp lastByte_descriptor
  simp only [Prod.mk.injEq] at seen
  obtain ⟨here, descriptor, cell, first⟩ := seen
  have next : (arrayInputStream 4097 4096).Next x.inbox.descriptor =
      some (some ⟨buffer, 0, 4096⟩, ⟨4097, 4096, 4096, 4096⟩) := by
    rw [descriptor]
    decide +kernel
  have block := congrArg (List.take 1) ((faithful _ x _ ran here).block _ _ next).2
  have least : min 1 4096 = 1 := rfl
  dsimp only at block
  rw [List.drop_zero, List.take_take, least, first] at block
  rw [cell] at block
  exact absurd block (by decide)

end Copier.Protobuf
