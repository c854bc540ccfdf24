import Copier.Foundation.Recent
import Copier.Foundation.Runs
import Copier.Redis.Text

/-! The replication backlog: the last bytes of the replication stream, kept in a
circular buffer for the replicas that reconnect. -/
namespace Copier.Redis

/-- The fields of `server` that the backlog functions use. -/
structure Backlog where
  repl_backlog : Option Bytes
  repl_backlog_size : ℕ
  repl_backlog_histlen : ℕ
  repl_backlog_idx : ℕ
  repl_backlog_off : Int
  master_repl_offset : Int

def CONFIG_REPL_BACKLOG_MIN_SIZE : ℕ := 1024 * 16

namespace Backlog

/-- `zmalloc` leaves the buffer as it is; no byte is read before it was written. -/
def createReplicationBacklog (b : Backlog) : Backlog :=
  { b with
    repl_backlog := some (List.replicate b.repl_backlog_size NUL)
    repl_backlog_histlen := 0
    repl_backlog_idx := 0
    repl_backlog_off := b.master_repl_offset + 1 }

def resizeReplicationBacklog (b : Backlog) (newsize : ℕ) : Backlog :=
  let newsize := max newsize CONFIG_REPL_BACKLOG_MIN_SIZE
  if b.repl_backlog_size = newsize then b
  else
    let b := { b with repl_backlog_size := newsize }
    if b.repl_backlog.isSome then b.createReplicationBacklog else b

def freeReplicationBacklog (b : Backlog) : Backlog := { b with repl_backlog := none }

/-- The loop of `feedReplicationBacklog`: the buffer, the index and the length of the
history after it. Every round writes at least one byte. -/
def feedRounds (size : ℕ) : ℕ → Bytes → ℕ → ℕ → Bytes → Bytes × ℕ × ℕ
  | 0, cells, idx, histlen, _ => (cells, idx, histlen)
  | fuel + 1, cells, idx, histlen, p =>
      if p = [] then (cells, idx, histlen)
      else
        let thislen := min (size - idx) p.length
        feedRounds size fuel (Recent.overwrite cells idx (p.take thislen))
          (if idx + thislen = size then 0 else idx + thislen) (histlen + thislen) (p.drop thislen)

/-- Nothing is fed, and nothing counted, while there is no backlog. -/
def feedReplicationBacklog (b : Backlog) (p : Bytes) : Backlog :=
  match b.repl_backlog with
  | none => b
  | some cells =>
      let (cells, idx, histlen) :=
        feedRounds b.repl_backlog_size p.length cells b.repl_backlog_idx b.repl_backlog_histlen p
      let histlen := min histlen b.repl_backlog_size
      let master_repl_offset := b.master_repl_offset + p.length
      { b with
        repl_backlog := some cells
        repl_backlog_histlen := histlen
        repl_backlog_idx := idx
        repl_backlog_off := master_repl_offset - histlen + 1
        master_repl_offset := master_repl_offset }

/-- The loop of `addReplyReplicationBacklog`: the rest of the buffer, then its start. -/
def readRounds (size : ℕ) (cells : Bytes) : ℕ → ℕ → ℕ → Bytes
  | 0, _, _ => []
  | fuel + 1, j, len =>
      if len = 0 then []
      else
        let thislen := min (size - j) len
        (cells.drop j).take thislen ++ readRounds size cells fuel 0 (len - thislen)

/-- The bytes it adds to the client's output. -/
def addReplyReplicationBacklog (b : Backlog) (offset : Int) : Bytes :=
  match b.repl_backlog with
  | none => []
  | some cells =>
      if b.repl_backlog_histlen = 0 then []
      else
        let skip := (offset - b.repl_backlog_off).toNat
        let j := (b.repl_backlog_idx + (b.repl_backlog_size - b.repl_backlog_histlen)) %
          b.repl_backlog_size
        let len := b.repl_backlog_histlen - skip
        readRounds b.repl_backlog_size cells len ((j + skip) % b.repl_backlog_size) len

/-- Whether `masterTryPartialResynchronization` still has what is asked for. -/
def has (b : Backlog) (psync_offset : Int) : Bool :=
  b.repl_backlog.isSome && decide (b.repl_backlog_off ≤ psync_offset) &&
    decide (psync_offset ≤ b.repl_backlog_off + b.repl_backlog_histlen)

/-- The buffer was fed `s` since it was set up, and keeps the end of it. -/
structure Keeps (b : Backlog) (s : Bytes) : Prop where
  cells : ∃ cells, b.repl_backlog = some cells ∧ Recent.Keeps b.repl_backlog_size cells s
  size : 0 < b.repl_backlog_size
  histlen : b.repl_backlog_histlen = min s.length b.repl_backlog_size
  idx : b.repl_backlog_idx = s.length % b.repl_backlog_size
  off : b.repl_backlog_off = b.master_repl_offset - b.repl_backlog_histlen + 1

theorem create_keeps {b : Backlog} (size : 0 < b.repl_backlog_size) :
    b.createReplicationBacklog.Keeps [] where
  cells := ⟨_, rfl, .nil (by simp [createReplicationBacklog])⟩
  size := size
  histlen := by simp [createReplicationBacklog]
  idx := by simp [createReplicationBacklog]
  off := by simp [createReplicationBacklog]

/-- A new size leaves the offset as it is, and a backlog where there was one. -/
theorem resize_kept (b : Backlog) (newsize : ℕ) (size : 0 < b.repl_backlog_size) :
    0 < (b.resizeReplicationBacklog newsize).repl_backlog_size ∧
      (b.resizeReplicationBacklog newsize).master_repl_offset = b.master_repl_offset ∧
        (b.resizeReplicationBacklog newsize).repl_backlog.isSome = b.repl_backlog.isSome := by
  have positive : 0 < max newsize CONFIG_REPL_BACKLOG_MIN_SIZE := by
    dsimp only [CONFIG_REPL_BACKLOG_MIN_SIZE]
    omega
  unfold resizeReplicationBacklog
  dsimp only
  split
  · exact ⟨size, rfl, rfl⟩
  · split
    · rename_i had
      exact ⟨positive, rfl, had.symm⟩
    · exact ⟨positive, rfl, rfl⟩

theorem resize_keeps {b : Backlog} (keeps : b.Keeps s) (newsize : ℕ) :
    ∃ t, (b.resizeReplicationBacklog newsize).Keeps t ∧ t <:+ s := by
  obtain ⟨cells, some, -⟩ := keeps.cells
  unfold resizeReplicationBacklog
  dsimp only
  split
  · exact ⟨s, keeps, List.suffix_rfl⟩
  · rw [some, Option.isSome_some, if_pos rfl]
    exact ⟨[], create_keeps (by dsimp only [CONFIG_REPL_BACKLOG_MIN_SIZE]; omega), List.nil_suffix⟩

theorem feedRounds_keeps {size fuel : ℕ} {cells s p : Bytes} (keeps : Recent.Keeps size cells s)
    (positive : 0 < size) (enough : p.length ≤ fuel) (histlen : ℕ) :
    ∃ cells', feedRounds size fuel cells (s.length % size) histlen p =
        (cells', (s ++ p).length % size, histlen + p.length) ∧
      Recent.Keeps size cells' (s ++ p) := by
  induction fuel generalizing cells s p histlen with
  | zero =>
    have nothing := List.length_eq_zero_iff.mp (Nat.le_zero.mp enough)
    subst nothing
    exact ⟨cells, by simp [feedRounds], by simpa using keeps⟩
  | succ fuel ih =>
    have idx := Nat.mod_lt s.length positive
    rw [feedRounds]
    split_ifs with done
    · subst done
      exact ⟨cells, by simp, by simpa using keeps⟩
    have some := List.length_pos_iff.mpr done
    obtain ⟨thislen, this⟩ : ∃ n, n = min (size - s.length % size) p.length := ⟨_, rfl⟩
    have length : (p.take thislen).length = thislen := by
      rw [List.length_take]
      omega
    have written : Recent.Keeps size (Recent.overwrite cells (s.length % size) (p.take thislen))
        (s ++ p.take thislen) := keeps.overwrite (by omega)
    have next : (if s.length % size + thislen = size then 0 else s.length % size + thislen) =
        (s ++ p.take thislen).length % size := by
      rw [List.length_append, length]
      split_ifs with full
      · exact (Recent.slot_wrap s.length thislen full).symm
      · exact (Recent.slot_after s.length thislen (by omega)).symm
    obtain ⟨cells', fed, kept⟩ := ih (p := p.drop thislen) written
      (by rw [List.length_drop]; omega) (histlen + thislen)
    refine ⟨cells', ?_, ?_⟩
    · rw [← this]
      dsimp only
      rw [next, fed, List.append_assoc, List.take_append_drop, List.length_drop]
      congr 2
      omega
    · rwa [List.append_assoc, List.take_append_drop] at kept

theorem feed_keeps {b : Backlog} (keeps : b.Keeps s) (p : Bytes) :
    (b.feedReplicationBacklog p).Keeps (s ++ p) := by
  obtain ⟨cells, some, kept⟩ := keeps.cells
  obtain ⟨cells', fed, kept'⟩ :=
    feedRounds_keeps kept keeps.size (Nat.le_refl p.length) b.repl_backlog_histlen
  rw [← keeps.idx] at fed
  have same : b.feedReplicationBacklog p = { b with
      repl_backlog := Option.some cells'
      repl_backlog_histlen := min (b.repl_backlog_histlen + p.length) b.repl_backlog_size
      repl_backlog_idx := (s ++ p).length % b.repl_backlog_size
      repl_backlog_off := b.master_repl_offset + p.length -
        (min (b.repl_backlog_histlen + p.length) b.repl_backlog_size : ℕ) + 1
      master_repl_offset := b.master_repl_offset + p.length } := by
    simp only [feedReplicationBacklog, some, fed]
  have histlen := keeps.histlen
  rw [same]
  exact {
    cells := ⟨cells', rfl, kept'⟩
    size := keeps.size
    histlen := by simp only [List.length_append]; omega
    idx := rfl
    off := rfl }

theorem readRounds_eq {size fuel k : ℕ} {cells s : Bytes} (keeps : Recent.Keeps size cells s)
    (positive : 0 < size) (recent : s.length ≤ k + size) (within : k ≤ s.length)
    (enough : s.length - k ≤ fuel) :
    readRounds size cells fuel (k % size) (s.length - k) = s.drop k := by
  induction fuel generalizing k with
  | zero =>
    have nothing : s.drop k = [] := List.drop_eq_nil_of_le (by omega)
    rw [nothing, readRounds]
  | succ fuel ih =>
    have bound := Nat.mod_lt k positive
    rw [readRounds]
    split_ifs with done
    · exact (List.drop_eq_nil_of_le (by omega)).symm
    obtain ⟨thislen, this⟩ : ∃ n, n = min (size - k % size) (s.length - k) := ⟨_, rfl⟩
    have first := keeps.read (k := k) (n := thislen) recent (by omega) (by omega)
    have rest : readRounds size cells fuel 0 (s.length - k - thislen) = s.drop (k + thislen) := by
      rw [Nat.sub_sub]
      by_cases wraps : k % size + thislen = size
      · rw [← Recent.slot_wrap k thislen wraps]
        exact ih (by omega) (by omega) (by omega)
      · -- the end of the stream came before the end of the buffer
        have ended : s.length = k + thislen := by omega
        have last : s.drop (k + thislen) = [] := List.drop_eq_nil_of_le (by omega)
        rw [last, ← ended, Nat.sub_self]
        cases fuel <;> simp [readRounds]
    rw [← this]
    dsimp only
    rw [first, rest, ← List.drop_drop, List.take_append_drop]

/-- What is sent is all that was fed from the requested byte on. -/
theorem reply_eq {b : Backlog} (keeps : b.Keeps s) (available : b.has offset) :
    ∃ k, k ≤ s.length ∧ offset + (s.length - k : ℕ) = b.master_repl_offset + 1 ∧
      b.addReplyReplicationBacklog offset = s.drop k := by
  obtain ⟨cells, some, kept⟩ := keeps.cells
  have histlen := keeps.histlen
  have off := keeps.off
  have positive := keeps.size
  simp only [has, Bool.and_eq_true, decide_eq_true_eq] at available
  obtain ⟨⟨-, low⟩, high⟩ := available
  obtain ⟨skip, skipped⟩ : ∃ n : ℕ, n = (offset - b.repl_backlog_off).toNat := ⟨_, rfl⟩
  refine ⟨s.length - b.repl_backlog_histlen + skip, by omega, by omega, ?_⟩
  rw [addReplyReplicationBacklog, some]
  dsimp only
  rw [← skipped]
  split_ifs with empty
  · exact (List.drop_eq_nil_of_le (by omega)).symm
  -- the first byte of the history, then the one asked for
  have oldest : (b.repl_backlog_idx + (b.repl_backlog_size - b.repl_backlog_histlen)) %
      b.repl_backlog_size = (s.length - b.repl_backlog_histlen) % b.repl_backlog_size := by
    rw [keeps.idx, Nat.mod_add_mod]
    by_cases full : b.repl_backlog_histlen = b.repl_backlog_size
    · obtain ⟨k, whole⟩ := Nat.exists_eq_add_of_le (show b.repl_backlog_size ≤ s.length by omega)
      rw [full, whole, Nat.sub_self, Nat.add_zero, Nat.add_mod_left, Nat.add_sub_cancel_left]
    · have short : s.length = b.repl_backlog_histlen := by omega
      rw [← short, Nat.sub_self, Nat.zero_mod,
        Nat.add_sub_cancel' (show s.length ≤ b.repl_backlog_size by omega), Nat.mod_self]
  rw [oldest, Nat.mod_add_mod]
  have left : b.repl_backlog_histlen - skip =
      s.length - (s.length - b.repl_backlog_histlen + skip) := by omega
  rw [left]
  exact readRounds_eq kept positive (by omega) (by omega) (Nat.le_refl _)

/-- A byte that is there now is there after the next ones exactly when these leave room. -/
theorem has_feed_iff {b : Backlog} (keeps : b.Keeps s) (available : b.has offset) (p : Bytes) :
    (b.feedReplicationBacklog p).has offset ↔
      b.master_repl_offset + p.length + 1 - offset ≤ b.repl_backlog_size := by
  obtain ⟨cells, here, -⟩ := keeps.cells
  have fed := feed_keeps keeps p
  obtain ⟨cells', there, -⟩ := fed.cells
  have histlen := keeps.histlen
  have off := keeps.off
  have histlen' := fed.histlen
  have off' := fed.off
  have size : (b.feedReplicationBacklog p).repl_backlog_size = b.repl_backlog_size := by
    simp only [feedReplicationBacklog, here]
  have offset' : (b.feedReplicationBacklog p).master_repl_offset =
      b.master_repl_offset + p.length := by simp only [feedReplicationBacklog, here]
  rw [List.length_append, size] at histlen'
  rw [offset'] at off'
  simp only [has, here, there, Option.isSome_some, Bool.true_and, Bool.and_eq_true,
    decide_eq_true_eq] at available ⊢
  omega

inductive Op
  | create
  | resize (newsize : ℕ)
  | free
  | feed (p : Bytes)

/-- The backlog is created where there is none and fed where there is one. -/
def step (b : Backlog) : Op → Option Backlog
  | .create => if b.repl_backlog.isNone then some b.createReplicationBacklog else none
  | .resize newsize => some (b.resizeReplicationBacklog newsize)
  | .free => some b.freeReplicationBacklog
  | .feed p => if b.repl_backlog.isSome then some (b.feedReplicationBacklog p) else none

/-- The replication stream: all that was fed. -/
def stream : List Op → Bytes
  | [] => []
  | .feed p :: ops => p ++ stream ops
  | _ :: ops => stream ops

theorem stream_append (ops later : List Op) : stream (ops ++ later) = stream ops ++ stream later := by
  induction ops with
  | nil => rfl
  | cons op ops ih => cases op <;> simp [stream, ih]

/-- The offset counts the stream, and a backlog was fed the end of it. -/
structure Sound (start : Int) (s : Bytes) (b : Backlog) : Prop where
  size : 0 < b.repl_backlog_size
  offset : b.master_repl_offset = start + s.length
  keeps : b.repl_backlog.isSome → ∃ t, b.Keeps t ∧ t <:+ s

theorem step_sound {b b' : Backlog} {op : Op} (sound : Sound start s b)
    (stepped : b.step op = some b') : Sound start (s ++ stream [op]) b' := by
  cases op with
  | create =>
    simp only [step, Option.ite_none_right_eq_some, Option.some.injEq] at stepped
    obtain ⟨-, rfl⟩ := stepped
    simp only [stream, List.append_nil]
    exact ⟨sound.size, sound.offset, fun _ => ⟨[], create_keeps sound.size, List.nil_suffix⟩⟩
  | resize newsize =>
    cases stepped
    simp only [stream, List.append_nil]
    obtain ⟨size, offset, same⟩ := b.resize_kept newsize sound.size
    refine ⟨size, offset.trans sound.offset, fun some => ?_⟩
    obtain ⟨t, keeps, suffix⟩ := sound.keeps (same ▸ some)
    obtain ⟨t', keeps', suffix'⟩ := resize_keeps keeps newsize
    exact ⟨t', keeps', suffix'.trans suffix⟩
  | free =>
    cases stepped
    simp only [stream, List.append_nil]
    exact ⟨sound.size, sound.offset, fun some => nomatch some⟩
  | feed p =>
    simp only [step, Option.ite_none_right_eq_some, Option.some.injEq] at stepped
    obtain ⟨had, rfl⟩ := stepped
    obtain ⟨t, keeps, suffix⟩ := sound.keeps had
    have fed := feed_keeps keeps p
    obtain ⟨cells, here, -⟩ := keeps.cells
    have offset := sound.offset
    refine ⟨fed.size, ?_, fun _ => ⟨t ++ p, fed, ?_⟩⟩
    · simp only [feedReplicationBacklog, here, stream, List.length_append, List.append_nil]
      omega
    · simp only [stream, List.append_nil]
      obtain ⟨front, rfl⟩ := suffix
      exact ⟨front, (List.append_assoc _ _ _).symm⟩

theorem run_sound {b b' : Backlog} {ops : List Op} (sound : Sound start s b)
    (ran : Runs.run step b ops = some b') : Sound start (s ++ stream ops) b' := by
  induction ops generalizing b s with
  | nil =>
    cases ran
    simpa [stream] using sound
  | cons op ops ih =>
    simp only [Runs.run, Option.bind_eq_some_iff] at ran
    obtain ⟨mid, stepped, rest⟩ := ran
    have next := ih (step_sound sound stepped) rest
    rwa [List.append_assoc, ← stream_append, List.singleton_append] at next

/-- In every run of the backlog, what is sent to a replica that asks for an offset still
there is the stream from that offset on; and the offset stays there as long as what
was fed from it on fits the buffer. -/
theorem partial_resync_exact {b b' : Backlog} {ops : List Op} (none : b.repl_backlog = none)
    (size : 0 < b.repl_backlog_size) (ran : Runs.run step b ops = some b')
    (available : b'.has psync_offset) :
    (∃ k, k ≤ (stream ops).length ∧ psync_offset = b.master_repl_offset + 1 + k ∧
      b'.addReplyReplicationBacklog psync_offset = (stream ops).drop k) ∧
    ∀ p, (b'.feedReplicationBacklog p).has psync_offset ↔
      b'.master_repl_offset + p.length + 1 - psync_offset ≤ b'.repl_backlog_size := by
  have initial : Sound b.master_repl_offset [] b :=
    ⟨size, by simp, fun some => by simp [none] at some⟩
  have sound := run_sound initial ran
  rw [List.nil_append] at sound
  have some : b'.repl_backlog.isSome := by
    simp only [has, Bool.and_eq_true] at available
    exact available.1.1
  obtain ⟨t, keeps, front, whole⟩ := sound.keeps some
  refine ⟨?_, has_feed_iff keeps available⟩
  obtain ⟨k, short, counted, sent⟩ := reply_eq keeps available
  have offset := sound.offset
  have length := congrArg List.length whole
  rw [List.length_append] at length
  refine ⟨front.length + k, by omega, by omega, ?_⟩
  rw [sent, ← whole, List.drop_append]
  simp

def small : Backlog := ⟨none, 4, 0, 0, 1, 0⟩

def smallRun : List Op := [.create, .feed [1, 2, 3], .feed [4, 5, 6]]

/-- Six bytes went into four cells. -/
def wrapped : Backlog := ⟨some [5, 6, 3, 4], 4, 4, 2, 3, 6⟩

theorem partial_resync_wrapped :
    (∃ k, k ≤ (stream smallRun).length ∧ (5 : Int) = small.master_repl_offset + 1 + k ∧
      wrapped.addReplyReplicationBacklog 5 = (stream smallRun).drop k) ∧
    ((wrapped.feedReplicationBacklog [7, 8]).has 5 ↔
      wrapped.master_repl_offset + ([7, 8] : Bytes).length + 1 - 5 ≤ wrapped.repl_backlog_size) :=
  have ran : Runs.run step small smallRun = some wrapped := rfl
  have there : wrapped.has 5 := rfl
  ⟨(partial_resync_exact rfl (by decide) ran there).1,
    (partial_resync_exact rfl (by decide) ran there).2 [7, 8]⟩

end Backlog
end Copier.Redis
