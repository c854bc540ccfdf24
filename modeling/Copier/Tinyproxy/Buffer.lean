import Copier.Foundation.Linked
import Copier.Foundation.Runs
import Mathlib.Algebra.Group.Int.Defs
import Mathlib.Algebra.Ring.Nat
import Mathlib.Data.List.GetD

/-! The line buffer of tinyproxy. Lines are nodes of a memory that `malloc` hands out
and `free` takes back; what the string of a line points to is left open. -/
namespace Copier.Tinyproxy
open Linked (Node Nodes Chain)

abbrev Bytes := List UInt8

def MAXBUFFSIZE : ℕ := 1024 * 1024
def READ_BUFFER_SIZE : ℕ := 1024 * 16
def ENOMEM : Int := 12

/-- What `bufline_s` holds besides the pointer to the next line. -/
structure Segment (σ : Type) where
  string : σ
  length : ℕ
  pos : ℕ

abbrev Bufline (σ : Type) := Node (Segment σ)

/-- `buffer_s`, and the lines that are allocated. -/
structure Buffer (σ : Type) where
  lines : Nodes (Segment σ)
  head : Option ℕ
  tail : Option ℕ
  size : ℕ

/-- What `recv` and `send` come back with: a number of bytes, EWOULDBLOCK or EINTR,
ENOBUFS or ENOMEM, or any other error. -/
inductive Received
  | bytes (data : Bytes)
  | again
  | error

def Received.data : Received → Bytes
  | .bytes data => data
  | _ => []

inductive Sent
  | bytes (n : ℕ)
  | again
  | nobufs
  | error

/-- No more was sent than `send` was given. -/
def Sent.fits {σ : Type} (s : Segment σ) : Sent → Prop
  | .bytes n => n ≤ s.length - s.pos
  | _ => True

instance {σ : Type} (s : Segment σ) (ret : Sent) : Decidable (ret.fits s) := by
  cases ret <;> unfold Sent.fits <;> infer_instance

section Functions
variable {σ : Type} (b : Buffer σ)

def new_buffer : Buffer σ := ⟨fun _ => none, none, none, 0⟩

/-- The sanity check of the functions that add lines. -/
def Buffer.sane : Bool := if b.head = none then b.size = 0 else 0 < b.size

/-- `makenewline` and `makenewlineCopier`, which differ in how the string is filled;
each pointer is what `malloc` returned. -/
def makenewline (newline : Option ℕ) (string : Option σ) (length : ℕ) : Option (ℕ × Bufline σ) :=
  newline.bind fun p => string.map fun s => (p, ⟨⟨s, length, 0⟩, none⟩)

/-- A result of none is a failed assertion or a pointer that leads nowhere. -/
def push (made : Option (ℕ × Bufline σ)) (length : ℕ) : Option (Int × Buffer σ) :=
  if length = 0 ∨ ¬ b.sane then none
  else match made with
    | none => some (-1, b)
    | some (p, newline) =>
        let lines := Function.update b.lines p (some newline)
        if b.size = 0 then
          some (0, { lines := lines, head := some p, tail := some p, size := b.size + length })
        else b.tail.bind fun t => (lines t).map fun last =>
          (0, { b with
            lines := Function.update lines t (some { last with next := some p })
            tail := some p
            size := b.size + length })

def add_to_buffer (newline : Option ℕ) (string : Option σ) (length : ℕ) : Option (Int × Buffer σ) :=
  push b (makenewline newline string length) length

def add_to_bufferCopier (newline : Option ℕ) (string : Option σ) (length : ℕ) :
    Option (Int × Buffer σ) :=
  push b (makenewline newline string length) length

def remove_from_buffer : Option (ℕ × Bufline σ × Buffer σ) :=
  b.head.bind fun p => (b.lines p).map fun line =>
    (p, line, { b with head := line.next, size := b.size - line.value.length })

def free_line (p : ℕ) : Buffer σ := { b with lines := Function.update b.lines p none }

/-- What is left to be sent of the first line. -/
def Buffer.outgoing : Option (Segment σ) :=
  if b.size = 0 then none else b.head.bind fun p => (b.lines p).map Node.value

/-- `write_buffer` and `write_buffer_lazy`, with the line that was freed. -/
def pop (ret : Sent) : Option (Int × Buffer σ × Option (Segment σ)) :=
  if b.size = 0 then some (0, b, none)
  else b.head.bind fun p => (b.lines p).bind fun line => match ret with
    | .bytes n =>
        let value := { line.value with pos := line.value.pos + n }
        let sent := { b with lines := Function.update b.lines p (some { line with value := value }) }
        if value.pos = value.length then
          (remove_from_buffer sent).map fun (q, removed, rest) =>
            (n, free_line rest q, some removed.value)
        else some (n, sent, none)
    | .again | .nobufs => some (0, b, none)
    | .error => some (-1, b, none)

def write_buffer (ret : Sent) : Option (Int × Buffer σ × Option (Segment σ)) := pop b ret

def write_buffer_lazy (ret : Sent) : Option (Int × Buffer σ × Option (Segment σ)) := pop b ret

/-- `read_buffer` and `read_buffer_lazy`, which differ in how the line is made; `buffer` is
whether there was memory to receive into. -/
def receive (add : Buffer σ → Option ℕ → Option σ → ℕ → Option (Int × Buffer σ)) (buffer : Bool)
    (newline : Option ℕ) (string : Option σ) (ret : Received) : Option (Int × Buffer σ) :=
  if MAXBUFFSIZE ≤ b.size then some (0, b)
  else if buffer then
    match ret with
    | .bytes [] => some (-1, b)
    | .bytes data => (add b newline string data.length).map fun (added, b') =>
        (if added < 0 then -1 else data.length, b')
    | .again => some (0, b)
    | .error => some (-1, b)
  else some (-ENOMEM, b)

def read_buffer (buffer : Bool) (newline : Option ℕ) (string : Option σ) (ret : Received) :
    Option (Int × Buffer σ) := receive b add_to_buffer buffer newline string ret

def read_buffer_lazy (buffer : Bool) (newline : Option ℕ) (string : Option σ) (ret : Received) :
    Option (Int × Buffer σ) := receive b add_to_bufferCopier buffer newline string ret

end Functions

theorem push_size {σ : Type} {b b' : Buffer σ} {made : Option (ℕ × Bufline σ)}
    (pushed : push b made length = some (ret, b')) : b.size ≤ b'.size := by
  unfold push at pushed
  split at pushed
  · cases pushed
  · split at pushed
    · cases pushed
      exact Nat.le_refl _
    · dsimp only at pushed
      split at pushed
      · cases pushed
        exact Nat.le_add_right _ _
      · simp only [Option.bind_eq_some_iff, Option.map_eq_some_iff, Prod.mk.injEq] at pushed
        obtain ⟨t, -, last, -, -, rfl⟩ := pushed
        exact Nat.le_add_right _ _

/-- Reading never shortens a buffer. -/
theorem receive_size {σ : Type} {b b' : Buffer σ} {newline : Option ℕ} {string : Option σ}
    (received : receive b add_to_buffer buffer newline string got = some (ret, b')) :
    b.size ≤ b'.size := by
  unfold receive at received
  split at received
  · cases received
    exact Nat.le_refl _
  · split at received
    · split at received
      · cases received
        exact Nat.le_refl _
      · simp only [Option.map_eq_some_iff, Prod.mk.injEq, Prod.exists] at received
        obtain ⟨added, b'', pushed, -, rfl⟩ := received
        exact push_size pushed
      · cases received
        exact Nat.le_refl _
      · cases received
        exact Nat.le_refl _
    · cases received
      exact Nat.le_refl _

/-- The lines of a buffer, from the first to the last. -/
structure Buffer.Holds {σ : Type} (b : Buffer σ) (ls : List (ℕ × Segment σ)) : Prop where
  chain : Chain b.lines b.head ls
  nodup : (ls.map Prod.fst).Nodup
  size : b.size = (ls.map fun line => line.2.length).sum
  tail : ∀ line ∈ ls.getLast?, b.tail = some line.1
  pos : ∀ line ∈ ls, line.2.pos < line.2.length

/-- The queue once `n` bytes of its first segment were sent. -/
def sendFirst {σ : Type} (n : ℕ) : List (ℕ × Segment σ) → List (ℕ × Segment σ)
  | [] => []
  | (p, s) :: ls => if s.pos + n = s.length then ls else (p, { s with pos := s.pos + n }) :: ls

section Holds
variable {σ : Type} {b : Buffer σ} {ls : List (ℕ × Segment σ)}

theorem new_buffer_holds : (new_buffer : Buffer σ).Holds [] :=
  ⟨.nil, List.nodup_nil, rfl, nofun, nofun⟩

theorem Buffer.Holds.size_zero (holds : b.Holds ls) : b.size = 0 ↔ ls = [] := by
  constructor
  · intro empty
    cases ls with
    | nil => rfl
    | cons line ls =>
      have first := holds.pos line List.mem_cons_self
      have size := holds.size
      simp only [List.map_cons, List.sum_cons] at size
      omega
  · rintro rfl
    exact holds.size

theorem Buffer.Holds.head_none (holds : b.Holds ls) : b.head = none ↔ ls = [] := by
  rw [holds.chain.head_eq]
  cases ls <;> simp

theorem Buffer.Holds.sane (holds : b.Holds ls) : b.sane := by
  have zero := holds.size_zero
  have empty := holds.head_none
  unfold Buffer.sane
  split
  · simp_all
  · simp only [decide_eq_true_eq]
    exact Nat.pos_of_ne_zero fun none => ‹¬ b.head = _› (empty.mpr (zero.mp none))

theorem Buffer.Holds.fresh (holds : b.Holds ls) (free : b.lines p = none) (value : Segment σ) :
    ((ls ++ [(p, value)]).map Prod.fst).Nodup := by
  rw [List.map_append, List.map_singleton]
  refine List.nodup_append.mpr ⟨holds.nodup, List.nodup_singleton _, ?_⟩
  rintro q listed _ new rfl
  cases List.mem_singleton.mp new
  exact holds.chain.fresh free listed

/-- A line is added at the end, wherever `malloc` puts it among what is free. -/
theorem push_holds (holds : b.Holds ls) (free : b.lines p = none) (string : σ) (positive : 0 < length) :
    ∃ b', push b (some (p, ⟨⟨string, length, 0⟩, none⟩)) length = some (0, b') ∧
      b'.Holds (ls ++ [(p, ⟨string, length, 0⟩)]) := by
  have size : b.size + length =
      ((ls ++ [(p, (⟨string, length, 0⟩ : Segment σ))]).map fun line => line.2.length).sum := by
    simp [holds.size]
  have pos : ∀ line ∈ ls ++ [(p, (⟨string, length, 0⟩ : Segment σ))], line.2.pos < line.2.length := by
    intro line member
    rcases List.mem_append.mp member with old | new
    · exact holds.pos line old
    · cases List.mem_singleton.mp new
      exact positive
  have nodup := holds.fresh free ⟨string, length, 0⟩
  have entered : ¬ (length = 0 ∨ ¬ b.sane) := by
    rw [not_or, not_not]
    exact ⟨Nat.ne_of_gt positive, holds.sane⟩
  unfold push
  rw [if_neg entered]
  cases last : ls.getLast? with
  | none =>
    have empty := List.getLast?_eq_none_iff.mp last
    subst empty
    simp only [holds.size_zero.mpr rfl, if_true]
    refine ⟨_, rfl, .cons (Function.update_self _ _ _) .nil, nodup, ?_, by simp, pos⟩
    simp
  | some line =>
    obtain ⟨t, value⟩ := line
    have some_ : b.size ≠ 0 := fun empty => by simp [holds.size_zero.mp empty] at last
    have apart : t ≠ p := by
      rintro rfl
      exact holds.chain.fresh free (List.mem_map.mpr ⟨_, List.mem_of_getLast? last, rfl⟩)
    obtain ⟨here, chain⟩ := holds.chain.append holds.nodup last free ⟨string, length, 0⟩
    simp only [if_neg some_, holds.tail _ last, Option.bind_some, Function.update_of_ne apart, here,
      Option.map_some]
    exact ⟨_, rfl, chain, nodup, size, by simp, pos⟩

/-- Without memory for the line nothing changes. -/
theorem push_failed (holds : b.Holds ls) (positive : 0 < length) : push b none length = some (-1, b) := by
  have entered : ¬ (length = 0 ∨ ¬ b.sane) := by
    rw [not_or, not_not]
    exact ⟨Nat.ne_of_gt positive, holds.sane⟩
  unfold push
  rw [if_neg entered]

theorem Buffer.Holds.first (holds : b.Holds ((p, s) :: ls)) :
    b.size ≠ 0 ∧ b.head = some p ∧ ∃ next, b.lines p = some ⟨s, next⟩ := by
  refine ⟨fun empty => ?_, ?_, holds.chain.allocated List.mem_cons_self⟩
  · cases holds.size_zero.mp empty
  · rw [holds.chain.head_eq]
    rfl

theorem Buffer.Holds.outgoing (holds : b.Holds ls) : b.outgoing = ls.head?.map Prod.snd := by
  unfold Buffer.outgoing
  cases ls with
  | nil => rw [if_pos (holds.size_zero.mpr rfl)]; rfl
  | cons line ls =>
    obtain ⟨p, s⟩ := line
    obtain ⟨some_, head, next, here⟩ := holds.first
    simp [some_, head, here]

theorem pop_empty (holds : b.Holds []) (ret : Sent) : pop b ret = some (0, b, none) := by
  unfold pop
  rw [if_pos (holds.size_zero.mpr rfl)]

/-- Nothing was sent. -/
theorem pop_refused (holds : b.Holds ls) :
    pop b .again = some (0, b, none) ∧ pop b .nobufs = some (0, b, none) ∧
      (pop b .error = some (0, b, none) ∨ pop b .error = some (-1, b, none)) := by
  cases ls with
  | nil => exact ⟨pop_empty holds _, pop_empty holds _, .inl (pop_empty holds _)⟩
  | cons line ls =>
    obtain ⟨p, s⟩ := line
    obtain ⟨some_, head, next, here⟩ := holds.first
    simp [pop, some_, head, here]

/-- The first line advances, and is freed when nothing is left of it. -/
theorem pop_holds (holds : b.Holds ((p, s) :: ls)) (fits : n ≤ s.length - s.pos) :
    ∃ b' : Buffer σ, pop b (.bytes n) =
        some ((n : Int), b', if s.pos + n = s.length then some { s with pos := s.pos + n } else none) ∧
      b'.Holds (sendFirst n ((p, s) :: ls)) := by
  obtain ⟨some_, head, next, here⟩ := holds.first
  have size := holds.size
  simp only [List.map_cons, List.sum_cons] at size
  have first := holds.pos _ List.mem_cons_self
  simp only [pop, if_neg some_, head, here, Option.bind_some, sendFirst]
  split
  · have chain := holds.chain
    rw [head] at chain
    simp only [remove_from_buffer, Option.bind_some, Function.update_self, Option.map_some, free_line,
      Function.update_idem]
    refine ⟨_, rfl, chain.remove holds.nodup here, (List.nodup_cons.mp holds.nodup).2, ?_, ?_, ?_⟩
    · dsimp only
      omega
    · intro line last
      refine holds.tail line ?_
      cases ls with
      | nil => cases last
      | cons => simpa using last
    · exact fun line member => holds.pos line (List.mem_cons_of_mem _ member)
  · have chain := holds.chain
    rw [head] at chain
    refine ⟨_, rfl, chain.replace holds.nodup here _, holds.nodup, ?_, ?_, ?_⟩
    · simpa using size
    · intro line last
      cases ls with
      | nil =>
        cases last
        exact holds.tail (p, s) rfl
      | cons => exact holds.tail line (by simpa using last)
    · intro line member
      rcases List.mem_cons.mp member with rfl | later
      · dsimp only at first ⊢
        omega
      · exact holds.pos line (List.mem_cons_of_mem _ later)

/-- All that adding a line can do. -/
theorem add_spec (holds : b.Holds ls) (free : ∀ p ∈ newline, b.lines p = none) (string : Option σ)
    (positive : 0 < length) :
    (newline = none ∨ string = none) ∧
        push b (makenewline newline string length) length = some (-1, b) ∨
      ∃ p s b', newline = some p ∧ string = some s ∧
        push b (makenewline newline string length) length = some (0, b') ∧
        b'.Holds (ls ++ [(p, ⟨s, length, 0⟩)]) := by
  cases newline with
  | none => exact .inl ⟨.inl rfl, push_failed holds positive⟩
  | some p =>
    cases string with
    | none => exact .inl ⟨.inr rfl, push_failed holds positive⟩
    | some s =>
      obtain ⟨b', added, after⟩ := push_holds holds (free p rfl) s positive
      exact .inr ⟨p, s, b', rfl, rfl, added, after⟩

/-- All that reading can do. -/
theorem receive_spec (holds : b.Holds ls) (free : ∀ p ∈ newline, b.lines p = none) (buffer : Bool)
    (string : Option σ) (ret : Received) :
    (∃ r, r ≤ 0 ∧ receive b add_to_buffer buffer newline string ret = some (r, b) ∧
      (MAXBUFFSIZE ≤ b.size ∨ buffer = false ∨ ret.data = [] ∨ newline = none ∨ string = none)) ∨
      ∃ data p s b', b.size < MAXBUFFSIZE ∧ buffer = true ∧ ret = .bytes data ∧ data ≠ [] ∧
        newline = some p ∧ string = some s ∧
        receive b add_to_buffer buffer newline string ret = some ((data.length : Int), b') ∧
        b'.Holds (ls ++ [(p, ⟨s, data.length, 0⟩)]) := by
  unfold receive
  split
  · exact .inl ⟨0, by omega, rfl, .inl ‹_›⟩
  · split
    · cases ret with
      | again => exact .inl ⟨0, by omega, rfl, .inr (.inr (.inl rfl))⟩
      | error => exact .inl ⟨-1, by omega, rfl, .inr (.inr (.inl rfl))⟩
      | bytes data =>
        cases data with
        | nil => exact .inl ⟨-1, by omega, rfl, .inr (.inr (.inl rfl))⟩
        | cons d data =>
          dsimp only [add_to_buffer]
          have positive : 0 < (d :: data).length := Nat.succ_pos _
          rcases add_spec holds free string positive with
            ⟨without, failed⟩ | ⟨p, s, b', allocated, filled, added, after⟩
          · exact .inl ⟨-1, by omega, by rw [failed]; rfl, .inr (.inr (.inr without))⟩
          · exact .inr ⟨d :: data, p, s, b', Nat.lt_of_not_le ‹_›, ‹_›, rfl, List.cons_ne_nil _ _,
              allocated, filled, by rw [added]; rfl, after⟩
    · exact .inl ⟨-ENOMEM, by decide, rfl, .inr (.inl (by simpa using ‹¬ buffer = true›))⟩

/-- All that writing can do, when `send` takes no more than it is given. -/
theorem pop_spec (holds : b.Holds ls) (ret : Sent) (fits : ∀ s ∈ b.outgoing, ret.fits s) :
    (∃ r, r ≤ 0 ∧ pop b ret = some (r, b, none) ∧ (ls = [] ∨ ∀ n, ret ≠ .bytes n)) ∨
      ∃ n p s rest b', ret = .bytes n ∧ ls = (p, s) :: rest ∧
        pop b ret =
          some ((n : Int), b', if s.pos + n = s.length then some { s with pos := s.pos + n } else none) ∧
        b'.Holds (sendFirst n ls) := by
  obtain ⟨again, nobufs, error⟩ := pop_refused holds
  cases ret with
  | again => exact .inl ⟨0, by omega, again, .inr nofun⟩
  | nobufs => exact .inl ⟨0, by omega, nobufs, .inr nofun⟩
  | error =>
    rcases error with same | failed
    · exact .inl ⟨0, by omega, same, .inr nofun⟩
    · exact .inl ⟨-1, by omega, failed, .inr nofun⟩
  | bytes n =>
    cases ls with
    | nil => exact .inl ⟨0, by omega, pop_empty holds _, .inl rfl⟩
    | cons line rest =>
      obtain ⟨p, s⟩ := line
      obtain ⟨b', sent, after⟩ := pop_holds (n := n) holds (fits s (by rw [holds.outgoing]; rfl))
      exact .inr ⟨n, p, s, rest, b', rfl, rfl, sent, after⟩

end Holds

end Copier.Tinyproxy
