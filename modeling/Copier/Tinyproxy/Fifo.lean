import Copier.Tinyproxy.Buffer

/-! The line buffer as a queue of bytes, when copies are complete as soon as they are
asked for. -/
namespace Copier.Tinyproxy.Fifo
open Linked (Chain)

/-- `added` and `sent` are history: what `recv` and the callers brought, and what `send`
took. `ret` is what the last call returned. -/
structure World where
  buffer : Buffer Bytes
  added : Bytes
  sent : Bytes
  ret : Int

def init : World := ⟨new_buffer, [], [], 0⟩

/-- `newline` is the pointer that `malloc` returns for a line; `buffer` and `string` are
whether there was memory to receive into and for the bytes of the line. -/
inductive Label
  | read_buffer (buffer : Bool) (newline : Option ℕ) (string : Bool) (ret : Received)
  | read_buffer_lazy (buffer : Bool) (newline : Option ℕ) (string : Bool) (ret : Received)
  | add_to_buffer (newline : Option ℕ) (string : Bool) (data : Bytes)
  | add_to_bufferCopier (newline : Option ℕ) (string : Bool) (data : Bytes)
  | write_buffer (ret : Sent)
  | write_buffer_lazy (ret : Sent)

/-- The string of a new line once the copy is complete. -/
def copied (string : Bool) (data : Bytes) : Option Bytes := if string then some data else none

def unsent (s : Segment Bytes) : Bytes := s.string.drop s.pos

def pending (ls : List (ℕ × Segment Bytes)) : Bytes := ls.flatMap fun line => unsent line.2

/-- What a call adds: `recv` is asked only below the limit and with memory to receive into,
and nothing is added without memory for the line. -/
def taken (w : World) : Label → Bytes
  | .read_buffer buffer newline string ret | .read_buffer_lazy buffer newline string ret =>
      if w.buffer.size < MAXBUFFSIZE ∧ buffer ∧ newline.isSome ∧ string then ret.data else []
  | .add_to_buffer newline string data | .add_to_bufferCopier newline string data =>
      if newline.isSome ∧ string then data else []
  | .write_buffer _ | .write_buffer_lazy _ => []

/-- What `send` takes are the first bytes of what it is given. -/
def given (w : World) : Label → Bytes
  | .write_buffer (.bytes n) | .write_buffer_lazy (.bytes n) =>
      (w.buffer.outgoing.elim [] unsent).take n
  | _ => []

def call (b : Buffer Bytes) : Label → Option (Int × Buffer Bytes)
  | .read_buffer buffer newline string ret =>
      read_buffer b buffer newline (copied string ret.data) ret
  | .read_buffer_lazy buffer newline string ret =>
      read_buffer_lazy b buffer newline (copied string ret.data) ret
  | .add_to_buffer newline string data =>
      add_to_buffer b newline (copied string data) data.length
  | .add_to_bufferCopier newline string data =>
      add_to_bufferCopier b newline (copied string data) data.length
  | .write_buffer ret => (write_buffer b ret).map fun (n, b', _) => (n, b')
  | .write_buffer_lazy ret => (write_buffer_lazy b ret).map fun (n, b', _) => (n, b')

def step (w : World) (l : Label) : Option World :=
  (call w.buffer l).map fun (ret, b) =>
    { buffer := b, added := w.added ++ taken w l, sent := w.sent ++ given w l, ret := ret }

/-- `malloc` hands out free memory, `add_to_buffer` is given some bytes, and `recv` and
`send` do not exceed what they are asked for. -/
def Valid (w : World) : Label → Prop
  | .read_buffer _ newline _ ret | .read_buffer_lazy _ newline _ ret =>
      (∀ p ∈ newline, w.buffer.lines p = none) ∧ ret.data.length ≤ READ_BUFFER_SIZE
  | .add_to_buffer newline _ data | .add_to_bufferCopier newline _ data =>
      (∀ p ∈ newline, w.buffer.lines p = none) ∧ data ≠ []
  | .write_buffer ret | .write_buffer_lazy ret => ∀ s ∈ w.buffer.outgoing, ret.fits s

/-- The lines, and the bytes that were added and are not sent. -/
structure Queued (w : World) (ls : List (ℕ × Segment Bytes)) : Prop where
  listed : Chain w.buffer.lines w.buffer.head ls
  size : w.buffer.size = (ls.map fun line => line.2.length).sum
  head : w.buffer.head = none ↔ w.buffer.size = 0
  tail : 0 < w.buffer.size → ∃ line, ls.getLast? = some line ∧ w.buffer.tail = some line.1
  pos : ∀ line ∈ ls, line.2.pos < line.2.length
  bytes : w.sent ++ pending ls = w.added

/-- What every call preserves. -/
structure Inv (w : World) (ls : List (ℕ × Segment Bytes)) : Prop where
  holds : w.buffer.Holds ls
  length : ∀ line ∈ ls, line.2.length = line.2.string.length
  bytes : w.sent ++ pending ls = w.added

section Runs
variable {w w' : World} {ls : List (ℕ × Segment Bytes)} {l : Label}

theorem Inv.init : Inv Fifo.init [] := ⟨new_buffer_holds, nofun, rfl⟩

theorem Inv.queued (inv : Inv w ls) : Queued w ls where
  listed := inv.holds.chain
  size := inv.holds.size
  head := inv.holds.head_none.trans inv.holds.size_zero.symm
  tail positive := by
    cases last : ls.getLast? with
    | none =>
      cases List.getLast?_eq_none_iff.mp last
      exact absurd (inv.holds.size_zero.mpr rfl) (Nat.ne_of_gt positive)
    | some line => exact ⟨line, rfl, inv.holds.tail line last⟩
  pos := inv.holds.pos
  bytes := inv.bytes

theorem pending_push (ls : List (ℕ × Segment Bytes)) (p : ℕ) (data : Bytes) :
    pending (ls ++ [(p, ⟨data, data.length, 0⟩)]) = pending ls ++ data := by
  simp [pending, unsent]

/-- Bytes are added at the end. -/
theorem Inv.push {b : Buffer Bytes} {data : Bytes} (inv : Inv w ls)
    (holds : b.Holds (ls ++ [(p, ⟨data, data.length, 0⟩)])) (ret : Int) :
    Inv ⟨b, w.added ++ data, w.sent, ret⟩ (ls ++ [(p, ⟨data, data.length, 0⟩)]) where
  holds := holds
  length line member := by
    rcases List.mem_append.mp member with old | new
    · exact inv.length line old
    · cases List.mem_singleton.mp new
      rfl
  bytes := by
    rw [pending_push, ← List.append_assoc, inv.bytes]

/-- Nothing changes but what was returned. -/
theorem Inv.keep (inv : Inv w ls) (ret : Int) : Inv { w with ret := ret } ls :=
  ⟨inv.holds, inv.length, inv.bytes⟩

theorem unsent_take (s : Segment Bytes) (n : ℕ) :
    (unsent s).take n ++ unsent { s with pos := s.pos + n } = unsent s := by
  simp only [unsent, ← List.drop_drop]
  exact List.take_append_drop n _

/-- What is sent leaves at the front. -/
theorem pending_send {p : ℕ} {s : Segment Bytes} (length : s.length = s.string.length) (n : ℕ)
    (rest : List (ℕ × Segment Bytes)) :
    (unsent s).take n ++ pending (sendFirst n ((p, s) :: rest)) = pending ((p, s) :: rest) := by
  have split := unsent_take s n
  simp only [sendFirst, pending, List.flatMap_cons]
  split_ifs with done
  · have nothing : unsent { s with pos := s.pos + n } = [] := by simp [unsent, done, length]
    rw [nothing, List.append_nil] at split
    rw [split]
  · rw [List.flatMap_cons, ← List.append_assoc, split]

theorem sendFirst_length (length : ∀ line ∈ ls, line.2.length = line.2.string.length) (n : ℕ) :
    ∀ line ∈ sendFirst n ls, line.2.length = line.2.string.length := by
  cases ls with
  | nil => exact length
  | cons first ls =>
    obtain ⟨p, s⟩ := first
    simp only [sendFirst]
    split
    · exact fun line member => length line (List.mem_cons_of_mem _ member)
    · intro line member
      rcases List.mem_cons.mp member with rfl | later
      · exact length (p, s) List.mem_cons_self
      · exact length line (List.mem_cons_of_mem _ later)

/-- The outcome of a valid call. -/
def Serves (w w' : World) : Prop := (∃ ls, Inv w' ls) ∧ (w'.ret < 0 → w'.buffer = w.buffer)

theorem step_eq {b : Buffer Bytes} (called : call w.buffer l = some (ret, b)) :
    step w l = some ⟨b, w.added ++ taken w l, w.sent ++ given w l, ret⟩ := by
  rw [step, called]
  rfl

/-- A call that neither takes nor gives any bytes, and changes nothing. -/
theorem Inv.idle (inv : Inv w ls) (called : call w.buffer l = some (r, w.buffer))
    (took : taken w l = []) (gave : given w l = []) : ∃ w', step w l = some w' ∧ Serves w w' := by
  refine ⟨_, step_eq called, ⟨ls, ?_⟩, fun _ => rfl⟩
  rw [took, gave, List.append_nil, List.append_nil]
  exact inv.keep r

/-- A call that takes bytes in. -/
theorem Inv.take {b : Buffer Bytes} {data : Bytes} (inv : Inv w ls)
    (called : call w.buffer l = some (r, b)) (positive : 0 ≤ r) (took : taken w l = data)
    (gave : given w l = []) (holds : b.Holds (ls ++ [(p, ⟨data, data.length, 0⟩)])) :
    ∃ w', step w l = some w' ∧ Serves w w' := by
  have pushed : ∃ ls, Inv ⟨b, w.added ++ taken w l, w.sent ++ given w l, r⟩ ls := by
    rw [took, gave, List.append_nil]
    exact ⟨_, inv.push holds r⟩
  exact ⟨_, step_eq called, pushed, fun failed => absurd failed (Int.not_lt.mpr positive)⟩

theorem Inv.reads {buffer string : Bool} {ret : Received} (inv : Inv w ls)
    (free : ∀ p ∈ newline, w.buffer.lines p = none)
    (called : call w.buffer l =
      receive w.buffer add_to_buffer buffer newline (copied string ret.data) ret)
    (took : taken w l =
      if w.buffer.size < MAXBUFFSIZE ∧ buffer ∧ newline.isSome ∧ string then ret.data else [])
    (gave : given w l = []) : ∃ w', step w l = some w' ∧ Serves w w' := by
  rcases receive_spec inv.holds free buffer (copied string ret.data) ret with
    ⟨r, -, kept, without⟩ | ⟨data, p, s, b', room, some_, rfl, -, rfl, filled, received, holds⟩
  · refine inv.idle (called.trans kept) (took.trans ?_) gave
    rcases without with full | none_ | nothing | unallocated | unfilled
    · exact if_neg fun all => absurd all.1 (Nat.not_lt.mpr full)
    · simp [none_]
    · simp [nothing]
    · simp [unallocated]
    · cases string with
      | false => simp
      | true => cases unfilled
  · cases string with
    | false => cases filled
    | true =>
      cases filled
      exact inv.take (called.trans received) (Int.natCast_nonneg _)
        (took.trans (if_pos ⟨room, some_, rfl, rfl⟩)) gave holds

theorem Inv.adds {data : Bytes} {string : Bool} (inv : Inv w ls)
    (free : ∀ p ∈ newline, w.buffer.lines p = none) (some_ : data ≠ [])
    (called : call w.buffer l = add_to_buffer w.buffer newline (copied string data) data.length)
    (took : taken w l = if newline.isSome ∧ string then data else []) (gave : given w l = []) :
    ∃ w', step w l = some w' ∧ Serves w w' := by
  rcases add_spec inv.holds free (copied string data) (List.length_pos_of_ne_nil some_) with
    ⟨without, failed⟩ | ⟨p, s, b', rfl, filled, added, holds⟩
  · refine inv.idle (called.trans failed) (took.trans ?_) gave
    rcases without with unallocated | unfilled
    · simp [unallocated]
    · cases string with
      | false => simp
      | true => cases unfilled
  · cases string with
    | false => cases filled
    | true =>
      cases filled
      exact inv.take (called.trans added) (Int.le_refl 0) (took.trans (if_pos ⟨rfl, rfl⟩)) gave holds

theorem Inv.writes {ret : Sent} (inv : Inv w ls) (fits : ∀ s ∈ w.buffer.outgoing, ret.fits s)
    (called : call w.buffer l = (pop w.buffer ret).map fun (n, b, _) => (n, b))
    (took : taken w l = [])
    (gave : given w l = match ret with
      | .bytes n => (w.buffer.outgoing.elim [] unsent).take n
      | _ => []) : ∃ w', step w l = some w' ∧ Serves w w' := by
  rcases pop_spec inv.holds ret fits with
    ⟨r, -, kept, nothing⟩ | ⟨n, p, s, rest, b', rfl, rfl, sent, holds⟩
  · refine inv.idle (r := r) (by rw [called, kept]; rfl) took (gave.trans ?_)
    rcases nothing with rfl | unsent_
    · cases ret <;> simp [inv.holds.outgoing]
    · cases ret with
      | bytes n => exact absurd rfl (unsent_ n)
      | again | nobufs | error => rfl
  · rw [sent] at called
    refine ⟨_, step_eq called, ⟨_, holds, sendFirst_length inv.length n, ?_⟩,
      fun failed => absurd failed (Int.not_lt.mpr (Int.natCast_nonneg n))⟩
    simp only [took, gave, inv.holds.outgoing, List.head?_cons, Option.map_some, Option.elim_some,
      List.append_nil]
    rw [List.append_assoc, pending_send (inv.length _ List.mem_cons_self), inv.bytes]

theorem Inv.step (inv : Inv w ls) (valid : Valid w l) : ∃ w', step w l = some w' ∧ Serves w w' := by
  cases l with
  | read_buffer buffer newline string ret => exact inv.reads valid.1 rfl rfl rfl
  | read_buffer_lazy buffer newline string ret => exact inv.reads valid.1 rfl rfl rfl
  | add_to_buffer newline string data => exact inv.adds valid.1 valid.2 rfl rfl rfl
  | add_to_bufferCopier newline string data => exact inv.adds valid.1 valid.2 rfl rfl rfl
  | write_buffer ret => exact inv.writes valid rfl rfl (by cases ret <;> rfl)
  | write_buffer_lazy ret => exact inv.writes valid rfl rfl (by cases ret <;> rfl)

/-- After any calls the buffer is a queue of the bytes added, and no call after them
fails an assertion, or changes anything when it fails. -/
theorem lines_queued (path : Runs.Path step Valid init calls w) :
    (∃ lines, Queued w lines) ∧
      ∀ l, Valid w l → ∃ w', step w l = some w' ∧ (w'.ret < 0 → w'.buffer = w.buffer) := by
  have inv : ∃ lines, Inv w lines := path.invariant (fun w => ∃ lines, Inv w lines) ⟨[], .init⟩
    fun ⟨_, inv⟩ valid stepped => by
      obtain ⟨w', same, serves, -⟩ := inv.step valid
      cases same.symm.trans stepped
      exact serves
  obtain ⟨lines, inv⟩ := inv
  refine ⟨⟨lines, inv.queued⟩, fun l valid => ?_⟩
  obtain ⟨w', stepped, -, failed⟩ := inv.step valid
  exact ⟨w', stepped, failed⟩

end Runs

instance (w : World) (l : Label) : Decidable (Valid w l) := by
  cases l <;> unfold Valid <;> infer_instance

/-- The buffer is emptied, and the next line comes to where the last one was. -/
def refilled : List Label :=
  [.read_buffer_lazy true (some 7) true (.bytes [65, 66]), .write_buffer_lazy (.bytes 1),
    .write_buffer_lazy (.bytes 1), .add_to_buffer (some 7) true [67],
    .read_buffer true (some 8) true .error]

theorem refilled_valid :
    (Runs.run (fun w l => if Valid w l then step w l else none) init refilled).isSome := by
  decide

theorem refilled_queued : ∃ w, Runs.run step init refilled = some w ∧
    (∃ lines, Queued w lines) ∧
      ∀ l, Valid w l → ∃ w', step w l = some w' ∧ (w'.ret < 0 → w'.buffer = w.buffer) := by
  obtain ⟨w, ran⟩ := Option.isSome_iff_exists.mp refilled_valid
  have path : Runs.Path step Valid init refilled w := .of_run ran
  exact ⟨w, path.run_eq, lines_queued path⟩

end Copier.Tinyproxy.Fifo
