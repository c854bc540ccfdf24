import Copier.Protobuf.Server

/-! The receive loop over the messages of a connection. Each receive asks for a whole message,
wherever the loop has got to, and what it returns is added unchecked. -/
namespace Copier.Protobuf
open Deferred (Mem Task contents)

/-- The loop over a message, the array, and what the client sends that is not received yet. -/
structure Receiver where
  currentOffset : ℕ
  mem : Mem UInt8
  rest : Bytes

namespace Receiver

/-- A receive and its bytes; one that fails returns -1. -/
def recv (x : Receiver) (result : Option ℕ) : Receiver where
  currentOffset := (x.currentOffset + result.getD (2 ^ 64 - 1)) % 2 ^ 64
  mem := (Task.recv 0 buffer x.currentOffset (x.rest.take (result.getD 0)) : Task UInt8 ℕ).apply x.mem
  rest := x.rest.drop (result.getD 0)

def after (results : ℕ → Option ℕ) (x : Receiver) : ℕ → Receiver
  | 0 => x
  | n + 1 => (after results x n).recv (results n)

/-- The next message. -/
def restart (x : Receiver) : Receiver := { x with currentOffset := 0 }

/-- The loop over the message ends with the `n`-th receive. -/
structure Leaves (messageLength : ℕ) (results : ℕ → Option ℕ) (x : Receiver) (n : ℕ) : Prop where
  received : 0 < n
  complete : (x.after results n).currentOffset = messageLength
  before : ∀ m, 0 < m → m < n → (x.after results m).currentOffset ≠ messageLength

/-- The loop ends, and has received the message and nothing else, within the array. -/
structure Framed (messageLength : ℕ) (results : ℕ → Option ℕ) (x : Receiver) (n : ℕ) : Prop
    extends Leaves messageLength results x n where
  inside : ∀ m < n, (x.after results m).currentOffset + messageLength ≤ messageLength
  handed : contents (x.after results n).mem ⟨buffer, 0, messageLength⟩ = x.rest.take messageLength
  left : (x.after results n).rest = x.rest.drop messageLength

/-- So it is for `count` messages in a row. -/
def Frames (messageLength : ℕ) : ℕ → Receiver → (ℕ → Option ℕ) → Prop
  | 0, _, _ => True
  | count + 1, x, results => ∃ n, Framed messageLength results x n ∧
      Frames messageLength count (x.after results n).restart fun i => results (i + n)

end Receiver

/-- What is left of the bytes before the `n`-th receive. -/
def unreceived (results : ℕ → Option ℕ) (bytes : Bytes) : ℕ → Bytes
  | 0 => bytes
  | n + 1 => (unreceived results bytes n).drop ((results n).getD 0)

/-- What the socket may answer: some of the bytes that are asked for and left, and none of
them only at the end of the stream. -/
def Answers (messageLength : ℕ) (bytes : Bytes) (results : ℕ → Option ℕ) : Prop :=
  ∀ i n, results i = some n → n ≤ messageLength ∧ n ≤ (unreceived results bytes i).length ∧
    (n = 0 → messageLength = 0 ∨ unreceived results bytes i = [])

/-- The loop goes on as the server's does. -/
theorem receive_offset (x : World) (mem : Mem UInt8) (rest : Bytes) (data : Option Bytes) :
    (receive x data).currentOffset =
      let next := ((Receiver.mk x.currentOffset mem rest).recv (data.map List.length)).currentOffset
      if next = x.messageLength then 0 else next := by
  have received : (data.map List.length).getD (2 ^ 64 - 1) = data.elim (2 ^ 64 - 1) List.length := by
    cases data <;> simp only [Option.map_none, Option.map_some, Option.getD_none, Option.getD_some,
      Option.elim_none, Option.elim_some]
  simp only [receive, Receiver.recv, received]
  split_ifs
  · simp only
  · simp only

section Loop
variable {messageLength count : ℕ} {bytes : Bytes} {results : ℕ → Option ℕ} {x : Receiver}

theorem unreceived_succ (results : ℕ → Option ℕ) (bytes : Bytes) (n : ℕ) :
    unreceived results bytes (n + 1) =
      unreceived (fun i => results (i + 1)) (bytes.drop ((results 0).getD 0)) n := by
  induction n with
  | zero => rfl
  | succ n ih =>
    rw [unreceived, ih]
    rfl

theorem Answers.tail (answers : Answers messageLength bytes results) :
    Answers messageLength (bytes.drop ((results 0).getD 0)) fun i => results (i + 1) := by
  intro i n result
  have answer := answers (i + 1) n result
  rwa [unreceived_succ] at answer

/-- A message that the first receive brings whole. -/
theorem Receiver.framed_of_whole (small : messageLength < 2 ^ 64)
    (answers : Answers messageLength x.rest results) (start : x.currentOffset = 0)
    (whole : results 0 = some messageLength) : x.Framed messageLength results 1 where
  received := Nat.one_pos
  complete := by
    simp only [Receiver.after, Receiver.recv, start, whole, Option.getD_some, Nat.zero_add]
    exact Nat.mod_eq_of_lt small
  before m low high := by omega
  inside m first := by
    have same : m = 0 := by omega
    rw [same, Receiver.after, start, Nat.zero_add]
  handed := by
    have enough := (answers 0 messageLength whole).2.1
    have length : (x.rest.take messageLength).length = messageLength :=
      List.length_take_of_le enough
    simp only [Receiver.after, Receiver.recv, start, whole, Option.getD_some]
    have held := Deferred.contents_recv x.mem 0 buffer 0 (x.rest.take messageLength)
    rwa [length] at held
  left := by
    simp only [Receiver.after, Receiver.recv, whole, Option.getD_some]

/-- Whatever the first receive brings otherwise, the loop goes on elsewhere in the array, or
for ever. -/
theorem Receiver.Framed.whole {n : ℕ} (framed : x.Framed messageLength results n)
    (small : messageLength < 2 ^ 64)
    (answers : Answers messageLength x.rest results) (start : x.currentOffset = 0) :
    results 0 = some messageLength ∧ n = 1 := by
  have enough : messageLength ≤ x.rest.length := by
    have length := congrArg List.length framed.handed
    rw [Deferred.length_contents, List.length_take] at length
    dsimp only at length
    omega
  have first : (x.after results 1).currentOffset = ((results 0).getD (2 ^ 64 - 1)) % 2 ^ 64 := by
    simp only [Receiver.after, Receiver.recv, start, Nat.zero_add]
  cases result : results 0 with
  | none =>
    exfalso
    rw [result, Option.getD_none] at first
    obtain ⟨m, rfl⟩ := Nat.exists_eq_succ_of_ne_zero (Nat.ne_of_gt framed.received)
    cases m with
    | zero =>
      have complete := framed.complete
      have left := congrArg List.length framed.left
      simp only [Receiver.after, Receiver.recv, result, Option.getD_none, List.drop_zero,
        List.length_drop] at left
      rw [first] at complete
      omega
    | succ m =>
      have inside := framed.inside 1 (by omega)
      omega
  | some k =>
    obtain ⟨asked, there, none⟩ := answers 0 k result
    have there : k ≤ x.rest.length := there
    rw [result, Option.getD_some] at first
    by_cases last : n = 1
    · subst last
      have complete := framed.complete
      have left := congrArg List.length framed.left
      simp only [Receiver.after, Receiver.recv, result, Option.getD_some, List.length_drop] at left
      exact ⟨congrArg some (by omega), rfl⟩
    · exfalso
      have received := framed.received
      have inside := framed.inside 1 (by omega)
      have going := framed.before 1 Nat.one_pos (by omega)
      have nothing : k = 0 := by omega
      rcases none nothing with zero | ended
      · omega
      · have ended : x.rest.length = 0 := congrArg List.length ended
        omega

/-- Messages are framed just when each is brought whole by the receive it begins with. -/
theorem frames_iff_whole (small : messageLength < 2 ^ 64)
    (answers : Answers messageLength x.rest results) (start : x.currentOffset = 0) (count : ℕ) :
    Receiver.Frames messageLength count x results ↔ ∀ i < count, results i = some messageLength := by
  induction count generalizing x results with
  | zero => exact ⟨fun _ i bound => absurd bound (Nat.not_lt_zero i), fun _ => trivial⟩
  | succ count ih =>
    have next : results 0 = some messageLength →
        (Receiver.Frames messageLength count (x.after results 1).restart (fun i => results (i + 1)) ↔
          ∀ i < count, results (i + 1) = some messageLength) := by
      intro whole
      refine ih ?_ rfl
      simpa only [Receiver.restart, Receiver.after, Receiver.recv] using answers.tail
    constructor
    · rintro ⟨n, framed, frames⟩ i bound
      obtain ⟨whole, rfl⟩ := framed.whole small answers start
      cases i with
      | zero => exact whole
      | succ i => exact (next whole).mp frames i (by omega)
    · intro each
      have whole := each 0 (Nat.succ_pos count)
      exact ⟨1, Receiver.framed_of_whole small answers start whole,
        (next whole).mpr fun i bound => each (i + 1) (by omega)⟩

end Loop

/-- A client that sends these bytes. -/
def sender (bytes : Bytes) : Receiver := ⟨0, fun _ _ => 0, bytes⟩

/-- Two messages of four bytes, received one by one. -/
def oneByOne (i : ℕ) : Option ℕ := if i < 2 then some 4 else some 0

theorem oneByOne_answers : Answers 4 [1, 2, 3, 4, 5, 6, 7, 8] oneByOne := by
  have ended : ∀ i, unreceived oneByOne [1, 2, 3, 4, 5, 6, 7, 8] (i + 2) = [] := by
    intro i
    induction i with
    | zero => rfl
    | succ i ih => rw [unreceived, ih, List.drop_nil]
  rintro (_ | _ | i) n result
  · cases result
    decide
  · cases result
    decide
  · have none : n = 0 := by
      rw [oneByOne, if_neg (by omega)] at result
      exact (Option.some.inj result).symm
    rw [ended, none]
    decide

theorem oneByOne_framed : (sender [1, 2, 3, 4, 5, 6, 7, 8]).Frames 4 2 oneByOne := by
  refine (frames_iff_whole (by decide) oneByOne_answers rfl 2).mpr fun i bound => ?_
  rw [oneByOne, if_pos bound]

/-- The same bytes, of which two come first. -/
def twoFirst (i : ℕ) : Option ℕ :=
  match i with
  | 0 => some 2
  | 1 => some 4
  | 2 => some 2
  | _ => some 0

theorem twoFirst_answers : Answers 4 [1, 2, 3, 4, 5, 6, 7, 8] twoFirst := by
  have ended : ∀ i, unreceived twoFirst [1, 2, 3, 4, 5, 6, 7, 8] (i + 3) = [] := by
    intro i
    induction i with
    | zero => rfl
    | succ i ih => rw [unreceived, ih, List.drop_nil]
  rintro (_ | _ | _ | i) n result
  · cases result
    decide
  · cases result
    decide
  · cases result
    decide
  · cases result
    rw [ended]
    decide

theorem pipelined_message_overrun : ¬ ∀ messageLength x results count, messageLength < 2 ^ 64 →
    Answers messageLength x.rest results → x.currentOffset = 0 →
    Receiver.Frames messageLength count x results := by
  intro frames
  obtain ⟨n, framed, -⟩ := frames 4 (sender [1, 2, 3, 4, 5, 6, 7, 8]) twoFirst 1 (by decide)
    twoFirst_answers rfl
  obtain ⟨whole, -⟩ := framed.whole (by decide) twoFirst_answers rfl
  exact absurd whole (by decide)

end Copier.Protobuf
