import Mathlib.Algebra.Group.Int.Defs
import Mathlib.Algebra.Ring.Nat
import Mathlib.Data.List.Basic
import Mathlib.Tactic.SplitIfs

/-! Memory shared with a service that performs submitted copies later, in order,
reading the source as it is at that moment. The settled memory is what remains
once the service has caught up. An access by the submitting thread that meets no
pending task acts on the settled memory as a synchronous program would. -/
namespace Copier.Deferred
variable {β τ : Type}

/-- Contents by block and offset. -/
abbrev Mem (β : Type) := ℕ → ℕ → β

structure Span where
  blk : ℕ
  off : ℕ
  len : ℕ
deriving DecidableEq, Repr

namespace Span

def Has (s : Span) (b i : ℕ) : Prop := b = s.blk ∧ s.off ≤ i ∧ i < s.off + s.len

def Overlaps (s t : Span) : Prop :=
  s.blk = t.blk ∧ s.off < t.off + t.len ∧ t.off < s.off + s.len ∧ 0 < s.len ∧ 0 < t.len

instance (s : Span) (b i : ℕ) : Decidable (s.Has b i) := inferInstanceAs (Decidable (_ ∧ _ ∧ _))

instance (s t : Span) : Decidable (s.Overlaps t) :=
  inferInstanceAs (Decidable (_ ∧ _ ∧ _ ∧ _ ∧ _))

theorem Has.not_of_apart {s t : Span} (has : s.Has b i) (apart : ¬ s.Overlaps t) : ¬ t.Has b i := by
  rintro ⟨rfl, low, high⟩
  exact apart ⟨has.1.symm, by have := has.2; omega, by have := has.2; omega,
    by have := has.2; omega, by omega⟩

theorem not_overlaps_blk {s t : Span} (different : s.blk ≠ t.blk) : ¬ s.Overlaps t :=
  fun overlap => different overlap.1

end Span

/-- Cell `s.off + k` becomes `f k`; every other cell is unchanged. -/
def store (m : Mem β) (s : Span) (f : ℕ → β) : Mem β :=
  fun b i => if s.Has b i then f (i - s.off) else m b i

theorem store_at {m : Mem β} {s : Span} {f : ℕ → β} (has : s.Has b i) :
    store m s f b i = f (i - s.off) := if_pos has

theorem store_off {m : Mem β} {s : Span} {f : ℕ → β} (outside : ¬ s.Has b i) :
    store m s f b i = m b i := if_neg outside

theorem store_blk {m : Mem β} {s : Span} {f : ℕ → β} (other : b ≠ s.blk) :
    store m s f b i = m b i := store_off fun has => other has.1

/-- What a span holds. -/
def contents (m : Mem β) (s : Span) : List β := (List.range s.len).map fun k => m s.blk (s.off + k)

@[simp] theorem length_contents (m : Mem β) (s : Span) : (contents m s).length = s.len := by
  simp [contents]

theorem contents_congr {m n : Mem β} {s : Span} (same : ∀ i, s.Has s.blk i → m s.blk i = n s.blk i) :
    contents m s = contents n s :=
  List.map_congr_left fun _ member =>
    same _ ⟨rfl, Nat.le_add_right _ _, Nat.add_lt_add_left (List.mem_range.mp member) _⟩

theorem contents_split (m : Mem β) (b off : ℕ) (fits : n ≤ len) :
    contents m ⟨b, off, n⟩ ++ contents m ⟨b, off + n, len - n⟩ = contents m ⟨b, off, len⟩ := by
  obtain ⟨rest, rfl⟩ := Nat.exists_eq_add_of_le fits
  simp [contents, List.range_add, Nat.add_assoc, Function.comp_def]

theorem contents_cell {m : Mem β} {data : List β} (held : contents m ⟨b, base, data.length⟩ = data)
    (inside : i < data.length) : m b (base + i) = data[i] := by
  have cell := congrArg (·[i]?) held
  simpa only [contents, List.getElem?_map, List.getElem?_range inside, Option.map_some,
    List.getElem?_eq_getElem inside, Option.some.injEq] using cell

theorem contents_slice {m : Mem β} {data : List β} (held : contents m ⟨b, base, data.length⟩ = data)
    (fits : off + n ≤ data.length) : contents m ⟨b, base + off, n⟩ = (data.drop off).take n := by
  refine List.ext_getElem (by simp; omega) fun k bound inside => ?_
  simp only [length_contents] at bound
  have place : off + k < data.length := by omega
  simp [contents, Nat.add_assoc, contents_cell held place]

/-- A submitted copy, or a receive with the cells that have still to arrive. -/
inductive Task (β τ : Type)
  | copy (dst dstOff src srcOff len : ℕ)
  | recv (tag : τ) (dst off : ℕ) (data : List β)

namespace Task

def writes : Task β τ → Span
  | copy dst dstOff _ _ len => ⟨dst, dstOff, len⟩
  | recv _ dst off data => ⟨dst, off, data.length⟩

def reads : Task β τ → Span
  | copy _ _ src srcOff len => ⟨src, srcOff, len⟩
  | recv _ dst off _ => ⟨dst, off, 0⟩

def isCopy : Task β τ → Bool
  | copy .. => true
  | recv .. => false

/-- The cell is part of the source or the destination. -/
def Touches (t : Task β τ) (b i : ℕ) : Prop := t.writes.Has b i ∨ t.reads.Has b i

variable [Inhabited β]

/-- The value a task stores in the `k`-th cell it writes. -/
def value (m : Mem β) : Task β τ → ℕ → β
  | copy _ _ src srcOff _, k => m src (srcOff + k)
  | recv _ _ _ data, k => data.getD k default

def apply (t : Task β τ) (m : Mem β) : Mem β := store m t.writes (t.value m)

theorem apply_off {t : Task β τ} {m : Mem β} (outside : ¬ t.writes.Has b i) :
    t.apply m b i = m b i := store_off outside

theorem apply_at {t : Task β τ} {m : Mem β} (written : t.writes.Has b i) :
    t.apply m b i = t.value m (i - t.writes.off) := store_at written

theorem apply_copy_at {m : Mem β} (low : dstOff ≤ i) (high : i < dstOff + len) :
    (copy dst dstOff src srcOff len : Task β τ).apply m dst i = m src (srcOff + (i - dstOff)) :=
  store_at ⟨rfl, low, high⟩

theorem apply_recv_at {m : Mem β} {tag : τ} {data : List β} (low : off ≤ i)
    (high : i < off + data.length) :
    (recv tag dst off data).apply m dst i = data.getD (i - off) default :=
  store_at ⟨rfl, low, high⟩

/-- What a task stores depends on memory only through the cells it reads. -/
theorem value_congr {t : Task β τ} {m n : Mem β} (bound : k < t.writes.len)
    (same : ∀ b i, t.reads.Has b i → m b i = n b i) : t.value m k = t.value n k := by
  cases t with
  | recv => rfl
  | copy dst dstOff src srcOff len =>
    have bound : k < len := bound
    exact same _ _ ⟨rfl, Nat.le_add_right _ _, Nat.add_lt_add_left bound _⟩

theorem apply_store (t : Task β τ) (m : Mem β) (s : Span) (f : ℕ → β)
    (unwritten : ¬ t.writes.Overlaps s) (unread : ¬ t.reads.Overlaps s) :
    t.apply (store m s f) = store (t.apply m) s f := by
  funext b i
  by_cases written : t.writes.Has b i
  · rw [store_off (written.not_of_apart unwritten), apply_at written, apply_at written]
    exact value_congr (by have := written.2; omega)
      fun b i has => store_off (has.not_of_apart unread)
  · rw [apply_off written]
    by_cases has : s.Has b i
    · rw [store_at has, store_at has]
    · rw [store_off has, store_off has, apply_off written]

end Task

section
variable [Inhabited β]

theorem contents_apply_other {t : Task β τ} {s : Span} (m : Mem β) (other : s.blk ≠ t.writes.blk) :
    contents (t.apply m) s = contents m s :=
  contents_congr fun _ _ => store_blk other

theorem contents_recv (m : Mem β) (tag : τ) (dst off : ℕ) (data : List β) :
    contents ((Task.recv tag dst off data).apply m) ⟨dst, off, data.length⟩ = data := by
  refine List.ext_getElem (by simp) fun k bound inside => ?_
  simp only [length_contents] at bound
  simp only [contents, List.getElem_map, List.getElem_range]
  rw [Task.apply_recv_at (Nat.le_add_right _ _) (Nat.add_lt_add_left bound _), Nat.add_sub_cancel_left]
  simp [bound]

/-- Bytes received behind others. -/
theorem contents_grow {m : Mem β} {got : List β} (held : contents m ⟨dst, off, got.length⟩ = got)
    (tag : τ) (data : List β) :
    contents ((Task.recv tag dst (off + got.length) data).apply m)
      ⟨dst, off, got.length + data.length⟩ = got ++ data := by
  have kept : contents ((Task.recv tag dst (off + got.length) data).apply m)
      ⟨dst, off, got.length⟩ = got := by
    refine Eq.trans (contents_congr fun i has => Task.apply_off fun new => ?_) held
    have low := new.2.1
    have high := has.2.2
    simp only [Task.writes] at low high
    omega
  have split := contents_split ((Task.recv tag dst (off + got.length) data).apply m) dst off
    (Nat.le_add_right got.length data.length)
  rw [kept, Nat.add_sub_cancel_left, contents_recv] at split
  exact split.symm

theorem contents_copy (m : Mem β) (dst src off len : ℕ) :
    contents ((Task.copy dst 0 src off len : Task β τ).apply m) ⟨dst, 0, len⟩ =
      contents m ⟨src, off, len⟩ := by
  refine List.map_congr_left fun k member => ?_
  have bound := List.mem_range.mp member
  simp only [Nat.zero_add]
  rw [Task.apply_copy_at (Nat.zero_le _) (by simpa using bound), Nat.sub_zero]

end

/-- The memory once every listed task has been performed in order. -/
def settle [Inhabited β] (ts : List (Task β τ)) (m : Mem β) : Mem β :=
  ts.foldl (fun m t => t.apply m) m

section
variable [Inhabited β]

theorem settle_off {ts : List (Task β τ)} {m : Mem β}
    (outside : ∀ t ∈ ts, ¬ t.writes.Has b i) : settle ts m b i = m b i := by
  induction ts generalizing m with
  | nil => rfl
  | cons t ts ih =>
    exact (ih fun u member => outside u (List.mem_cons_of_mem _ member)).trans
      (Task.apply_off (outside t List.mem_cons_self))

theorem settle_store {ts : List (Task β τ)} {m : Mem β} {s : Span} {f : ℕ → β}
    (clear : ∀ t ∈ ts, ¬ t.writes.Overlaps s ∧ ¬ t.reads.Overlaps s) :
    settle ts (store m s f) = store (settle ts m) s f := by
  induction ts generalizing m with
  | nil => rfl
  | cons t ts ih =>
    obtain ⟨unwritten, unread⟩ := clear t List.mem_cons_self
    simp only [settle, List.foldl_cons, Task.apply_store t m s f unwritten unread]
    exact ih fun u member => clear u (List.mem_cons_of_mem _ member)

end

/-- Live blocks, their contents, and the tasks the service has not finished.
Blocks are named in the order of allocation and never named again. -/
structure Heap (β τ : Type) where
  mem : Mem β
  next : ℕ
  live : List ℕ
  ring : List (Task β τ)

/-- What a thread other than the service does to memory in one step. -/
inductive Access
  | read (s : Span)
  | write (s : Span)
  | free (blk : ℕ)
deriving DecidableEq

def Access.isRead : Access → Bool
  | .read _ => true
  | _ => false

def Access.blk : Access → ℕ
  | .read s => s.blk
  | .write s => s.blk
  | .free b => b

namespace Heap

/-- The access meets no pending task: nothing read is still to be written, and
nothing written or freed is an endpoint. -/
def Clear (h : Heap β τ) : Access → Prop
  | .read s => ∀ t ∈ h.ring, ¬ t.writes.Overlaps s
  | .write s => ∀ t ∈ h.ring, ¬ t.writes.Overlaps s ∧ ¬ t.reads.Overlaps s
  | .free b => ∀ t ∈ h.ring, t.writes.blk ≠ b ∧ t.reads.blk ≠ b

instance (h : Heap β τ) (a : Access) : Decidable (h.Clear a) := by
  cases a <;> exact List.decidableBAll _ _

theorem clear_drained {h : Heap β τ} (drained : h.ring = []) (access : Access) : h.Clear access := by
  cases access <;> simp [Clear, drained]

/-- No pending task has an endpoint in that block. -/
theorem clear_of_blk {h : Heap β τ} {access : Access}
    (apart : ∀ t ∈ h.ring, t.writes.blk ≠ access.blk ∧ t.reads.blk ≠ access.blk) :
    h.Clear access := by
  cases access with
  | read s => exact fun t pending => Span.not_overlaps_blk (apart t pending).1
  | write s => exact fun t pending => ⟨Span.not_overlaps_blk (apart t pending).1,
      Span.not_overlaps_blk (apart t pending).2⟩
  | free b => exact apart

/-- Every endpoint was allocated once. -/
def Named (h : Heap β τ) : Prop := ∀ t ∈ h.ring, t.writes.blk < h.next ∧ t.reads.blk < h.next

/-- The writes and frees among the accesses meet no pending task. -/
def Spares (h : Heap β τ) (accesses : List Access) : Prop :=
  ∀ access ∈ accesses, access.isRead = false → h.Clear access

instance (h : Heap β τ) (accesses : List Access) : Decidable (h.Spares accesses) :=
  inferInstanceAs (Decidable (∀ access ∈ accesses, _ → _))

structure Wf (h : Heap β τ) : Prop where
  named : ∀ b ∈ h.live, b < h.next
  dst : ∀ t ∈ h.ring, t.writes.blk ∈ h.live
  src : ∀ t ∈ h.ring, t.reads.blk ∈ h.live

def store (h : Heap β τ) (s : Span) (f : ℕ → β) : Heap β τ :=
  { h with mem := Deferred.store h.mem s f }

/-- Copies one span over another of its length, at once. -/
def memcpy (h : Heap β τ) (dst src : Span) : Heap β τ :=
  h.store dst fun k => h.mem src.blk (src.off + k)

def submit (h : Heap β τ) (t : Task β τ) : Heap β τ := { h with ring := h.ring ++ [t] }

/-- Allocates the block `h.next`. -/
def claim (h : Heap β τ) : Heap β τ := { h with next := h.next + 1, live := h.next :: h.live }

def release (h : Heap β τ) (bs : List ℕ) : Heap β τ :=
  { h with live := h.live.filter (· ∉ bs) }

/-- One step of the service on the oldest task: a whole copy, or the next cell
of a receive, whose index it then reports. -/
def serve [Inhabited β] (h : Heap β τ) : Option (Heap β τ × Option (τ × ℕ)) :=
  match h.ring with
  | [] => none
  | .copy dst dstOff src srcOff len :: rest =>
      some ({ h with
        mem := (Task.copy dst dstOff src srcOff len : Task β τ).apply h.mem
        ring := rest }, none)
  | .recv _ _ _ [] :: rest => some ({ h with ring := rest }, none)
  | .recv tag dst off (d :: data) :: rest =>
      some ({ h with
        mem := Deferred.store h.mem ⟨dst, off, 1⟩ fun _ => d
        ring := if data.isEmpty then rest else .recv tag dst (off + 1) data :: rest },
        some (tag, off))

/-- What a step of the service comes to: a copy, a receive of nothing, or a cell of one. -/
inductive Served [Inhabited β] (h : Heap β τ) : Heap β τ → Option (τ × ℕ) → Prop where
  | copied (dst dstOff src srcOff len rest) : h.ring = .copy dst dstOff src srcOff len :: rest →
      Served h { h with
        mem := (Task.copy dst dstOff src srcOff len : Task β τ).apply h.mem
        ring := rest } none
  | emptied (tag dst off rest) : h.ring = .recv tag dst off [] :: rest →
      Served h { h with ring := rest } none
  | delivered (tag dst off d data rest) : h.ring = .recv tag dst off (d :: data) :: rest →
      Served h { h with
        mem := Deferred.store h.mem ⟨dst, off, 1⟩ fun _ => d
        ring := if data.isEmpty then rest else .recv tag dst (off + 1) data :: rest }
        (some (tag, off))

theorem serve_served [Inhabited β] {h h' : Heap β τ} {report : Option (τ × ℕ)}
    (served : h.serve = some (h', report)) : Served h h' report := by
  unfold serve at served
  split at served <;> cases served <;> rename_i pending
  · exact .copied _ _ _ _ _ _ pending
  · exact .emptied _ _ _ _ pending
  · exact .delivered _ _ _ _ _ _ pending

section Wf
variable {h h' : Heap β τ}

theorem Wf.store (wf : h.Wf) (s : Span) (f : ℕ → β) : (h.store s f).Wf :=
  ⟨wf.named, wf.dst, wf.src⟩

theorem Wf.claim (wf : h.Wf) : h.claim.Wf where
  named b member := by
    rcases List.mem_cons.mp member with rfl | old
    · exact Nat.lt_succ_self _
    · exact Nat.lt_succ_of_lt (wf.named b old)
  dst t member := List.mem_cons_of_mem _ (wf.dst t member)
  src t member := List.mem_cons_of_mem _ (wf.src t member)

theorem Wf.submit (wf : h.Wf) {t : Task β τ} (dst : t.writes.blk ∈ h.live)
    (src : t.reads.blk ∈ h.live) : (h.submit t).Wf where
  named := wf.named
  dst u member := by
    rcases List.mem_append.mp member with old | new
    · exact wf.dst u old
    · exact List.mem_singleton.mp new ▸ dst
  src u member := by
    rcases List.mem_append.mp member with old | new
    · exact wf.src u old
    · exact List.mem_singleton.mp new ▸ src

theorem mem_release {bs : List ℕ} : b ∈ (h.release bs).live ↔ b ∈ h.live ∧ b ∉ bs := by
  simp [release]

theorem release_nil (h : Heap β τ) : h.release [] = h := by simp [release]

theorem Wf.release (wf : h.Wf) {bs : List ℕ} (clear : ∀ b ∈ bs, h.Clear (.free b)) :
    (h.release bs).Wf where
  named b member := wf.named b (mem_release.mp member).1
  dst t member := mem_release.mpr ⟨wf.dst t member, fun freed => (clear _ freed t member).1 rfl⟩
  src t member := mem_release.mpr ⟨wf.src t member, fun freed => (clear _ freed t member).2 rfl⟩

/-- No pending task knows a block that is still to be allocated. -/
theorem Named.clear_fresh (named : h.Named) (off len : ℕ) : h.Clear (.write ⟨h.next, off, len⟩) :=
  fun t member =>
    ⟨Span.not_overlaps_blk (Nat.ne_of_lt (named t member).1),
      Span.not_overlaps_blk (Nat.ne_of_lt (named t member).2)⟩

theorem Wf.endpoints (wf : h.Wf) : h.Named :=
  fun t member => ⟨wf.named _ (wf.dst t member), wf.named _ (wf.src t member)⟩

theorem Wf.clear_fresh (wf : h.Wf) (off len : ℕ) : h.Clear (.write ⟨h.next, off, len⟩) :=
  wf.endpoints.clear_fresh off len

/-- What the service has still to do, in cells and tasks. -/
def work (h : Heap β τ) : ℕ := (h.ring.map fun
  | .copy .. => 1
  | .recv _ _ _ data => data.length + 1).sum

theorem work_eq_zero {h : Heap β τ} (done : h.work = 0) : h.ring = [] := by
  unfold work at done
  cases ring : h.ring with
  | nil => rfl
  | cons t ts => cases t <;> simp [ring] at done

theorem serve_lowers [Inhabited β] {h : Heap β τ} (pending : 0 < h.work) :
    ∃ h' report, h.serve = some (h', report) ∧ h'.work < h.work := by
  unfold serve
  split
  · rename_i empty
    simp [work, empty] at pending
  · rename_i ring
    exact ⟨_, _, rfl, by simp [work, ring]⟩
  · rename_i ring
    exact ⟨_, _, rfl, by simp [work, ring]⟩
  · rename_i tag dst off d data rest ring
    refine ⟨_, _, rfl, ?_⟩
    cases data <;> simp [work, ring]

theorem serve_live [Inhabited β] {report : Option (τ × ℕ)}
    (served : h.serve = some (h', report)) : h'.next = h.next ∧ h'.live = h.live := by
  cases serve_served served <;> exact ⟨rfl, rfl⟩

/-- What is pending after a step of the service was pending before, perhaps with more
cells to deliver. -/
theorem serve_pending [Inhabited β] {report : Option (τ × ℕ)} (served : h.serve = some (h', report))
    (member : t ∈ h'.ring) :
    ∃ u ∈ h.ring, u.writes.blk = t.writes.blk ∧ u.reads.blk = t.reads.blk := by
  cases serve_served served with
  | copied _ _ _ _ _ rest pending | emptied _ _ _ rest pending =>
    exact ⟨t, pending ▸ List.mem_cons_of_mem _ member, rfl, rfl⟩
  | delivered tag dst off d data rest pending =>
    dsimp only at member
    split at member
    · exact ⟨t, pending ▸ List.mem_cons_of_mem _ member, rfl, rfl⟩
    · rcases List.mem_cons.mp member with rfl | old
      · exact ⟨.recv tag dst off (d :: data), pending ▸ List.mem_cons_self, rfl, rfl⟩
      · exact ⟨t, pending ▸ List.mem_cons_of_mem _ old, rfl, rfl⟩

/-- The newest task stays the newest while there is one. -/
theorem serve_last [Inhabited β] {report : Option (τ × ℕ)} (served : h.serve = some (h', report))
    (last : h'.ring.getLast? = some t) :
    ∃ u, h.ring.getLast? = some u ∧ u.writes.blk = t.writes.blk ∧ u.reads.blk = t.reads.blk := by
  have tail : ∀ {u : Task β τ} {us : List (Task β τ)}, us.getLast? = some t →
      (u :: us).getLast? = some t := by
    intro u us last
    cases us with
    | nil => cases last
    | cons v vs => simpa using last
  cases serve_served served with
  | copied _ _ _ _ _ rest pending | emptied _ _ _ rest pending =>
    exact ⟨t, pending ▸ tail last, rfl, rfl⟩
  | delivered tag dst off d data rest pending =>
    cases data with
    | nil => exact ⟨t, pending ▸ tail last, rfl, rfl⟩
    | cons e data =>
      cases rest with
      | nil =>
        cases last
        exact ⟨.recv tag dst off (d :: e :: data), by rw [pending]; rfl, rfl, rfl⟩
      | cons u us => exact ⟨t, pending ▸ tail (by simpa using last), rfl, rfl⟩

theorem Wf.serve [Inhabited β] {report : Option (τ × ℕ)} (wf : h.Wf)
    (served : h.serve = some (h', report)) : h'.Wf := by
  obtain ⟨next, live⟩ := serve_live served
  refine ⟨fun b member => ?_, fun t member => ?_, fun t member => ?_⟩
  · rw [next]
    exact wf.named b (live ▸ member)
  · obtain ⟨u, pending, dst, -⟩ := serve_pending served member
    exact live ▸ dst ▸ wf.dst u pending
  · obtain ⟨u, pending, -, src⟩ := serve_pending served member
    exact live ▸ src ▸ wf.src u pending

theorem Named.serve [Inhabited β] {report : Option (τ × ℕ)} (named : h.Named)
    (served : h.serve = some (h', report)) : h'.Named := by
  intro t member
  obtain ⟨u, pending, dst, src⟩ := serve_pending served member
  rw [(serve_live served).1, ← dst, ← src]
  exact named u pending

end Wf

/-- What became of the heap without harm to a pending task: none was dropped, and
the cells of their endpoints are allocated and filled as before. -/
structure Kept (h h' : Heap β τ) : Prop where
  queue : h.ring <+: h'.ring
  named : h.Named → h'.Named
  grown : h.next ≤ h'.next
  live : ∀ t ∈ h.ring, ∀ b i, t.Touches b i → b ∈ h.live → b ∈ h'.live
  bytes : ∀ t ∈ h.ring, ∀ b i, t.Touches b i → h'.mem b i = h.mem b i

section Kept
variable {h h' h'' : Heap β τ} {xs ys : List Access}

@[simp] theorem spares_nil : h.Spares [] := fun _ => nofun

@[simp] theorem spares_read {s : Span} : h.Spares (.read s :: xs) ↔ h.Spares xs := by
  simp [Spares, Access.isRead]

@[simp] theorem spares_write {s : Span} :
    h.Spares (.write s :: xs) ↔ h.Clear (.write s) ∧ h.Spares xs := by
  simp [Spares, Access.isRead]

@[simp] theorem spares_free {b : ℕ} : h.Spares (.free b :: xs) ↔ h.Clear (.free b) ∧ h.Spares xs := by
  simp [Spares, Access.isRead]

@[simp] theorem spares_append : h.Spares (xs ++ ys) ↔ h.Spares xs ∧ h.Spares ys := by
  simp [Spares, or_imp, forall_and]

/-- Only the queue matters. -/
theorem Spares.of_ring (spares : h.Spares xs) (ring : h'.ring = h.ring) : h'.Spares xs := by
  intro access member changes
  have clear := spares access member changes
  cases access <;> simpa only [Clear, ring] using clear

theorem Kept.refl (h : Heap β τ) : Kept h h :=
  ⟨List.prefix_rfl, id, Nat.le_refl _, fun _ _ _ _ _ => id, fun _ _ _ _ _ => rfl⟩

theorem Kept.trans (first : Kept h h') (second : Kept h' h'') : Kept h h'' where
  queue := first.queue.trans second.queue
  named named := second.named (first.named named)
  grown := Nat.le_trans first.grown second.grown
  live t member b i touches old :=
    second.live t (first.queue.subset member) b i touches (first.live t member b i touches old)
  bytes t member b i touches :=
    (second.bytes t (first.queue.subset member) b i touches).trans (first.bytes t member b i touches)

theorem Kept.claim (h : Heap β τ) : Kept h h.claim where
  queue := List.prefix_rfl
  named named t member :=
    ⟨Nat.lt_succ_of_lt (named t member).1, Nat.lt_succ_of_lt (named t member).2⟩
  grown := Nat.le_succ _
  live _ _ _ _ _ old := List.mem_cons_of_mem _ old
  bytes _ _ _ _ _ := rfl

theorem Kept.store {s : Span} (clear : h.Clear (.write s)) (f : ℕ → β) : Kept h (h.store s f) where
  queue := List.prefix_rfl
  named := id
  grown := Nat.le_refl _
  live _ _ _ _ _ := id
  bytes t member b i touches := by
    obtain ⟨unwritten, unread⟩ := clear t member
    rcases touches with written | read
    · exact store_off (written.not_of_apart unwritten)
    · exact store_off (read.not_of_apart unread)

theorem Kept.submit {t : Task β τ} (dst : t.writes.blk < h.next) (src : t.reads.blk < h.next) :
    Kept h (h.submit t) where
  queue := List.prefix_append _ _
  named named u member := by
    rcases List.mem_append.mp member with old | new
    · exact named u old
    · rw [List.mem_singleton.mp new]
      exact ⟨dst, src⟩
  grown := Nat.le_refl _
  live _ _ _ _ _ := id
  bytes _ _ _ _ _ := rfl

theorem Kept.release {bs : List ℕ} (clear : ∀ b ∈ bs, h.Clear (.free b)) : Kept h (h.release bs) where
  queue := List.prefix_rfl
  named := id
  grown := Nat.le_refl _
  live t member b i touches old := by
    refine mem_release.mpr ⟨old, fun freed => ?_⟩
    rcases touches with written | read
    · exact (clear b freed t member).1 written.1.symm
    · exact (clear b freed t member).2 read.1.symm
  bytes _ _ _ _ _ := rfl

end Kept

/-- The destinations of pending tasks were neither written nor freed. -/
structure Spared (h h' : Heap β τ) : Prop where
  queue : h.ring <+: h'.ring
  grown : h.next ≤ h'.next
  live : ∀ t ∈ h.ring, t.writes.blk ∈ h.live → t.writes.blk ∈ h'.live
  bytes : ∀ t ∈ h.ring, ∀ b i, t.writes.Has b i → h'.mem b i = h.mem b i

section Spared
variable {h h' h'' : Heap β τ}

theorem Spared.refl (h : Heap β τ) : Spared h h :=
  ⟨List.prefix_rfl, Nat.le_refl _, fun _ _ => id, fun _ _ _ _ _ => rfl⟩

theorem Spared.trans (first : Spared h h') (second : Spared h' h'') : Spared h h'' where
  queue := first.queue.trans second.queue
  grown := Nat.le_trans first.grown second.grown
  live t member old := second.live t (first.queue.subset member) (first.live t member old)
  bytes t member b i has :=
    (second.bytes t (first.queue.subset member) b i has).trans (first.bytes t member b i has)

theorem Spared.claim (h : Heap β τ) : Spared h h.claim :=
  ⟨List.prefix_rfl, Nat.le_succ _, fun _ _ => List.mem_cons_of_mem _, fun _ _ _ _ _ => rfl⟩

theorem Spared.store {s : Span} (apart : ∀ t ∈ h.ring, ¬ t.writes.Overlaps s) (f : ℕ → β) :
    Spared h (h.store s f) where
  queue := List.prefix_rfl
  grown := Nat.le_refl _
  live _ _ := id
  bytes t member _ _ has := store_off (has.not_of_apart (apart t member))

theorem Spared.submit (h : Heap β τ) (t : Task β τ) : Spared h (h.submit t) :=
  ⟨List.prefix_append _ _, Nat.le_refl _, fun _ _ => id, fun _ _ _ _ _ => rfl⟩

theorem Spared.release {bs : List ℕ} (apart : ∀ b ∈ bs, ∀ t ∈ h.ring, t.writes.blk ≠ b) :
    Spared h (h.release bs) where
  queue := List.prefix_rfl
  grown := Nat.le_refl _
  live t member old := mem_release.mpr ⟨old, fun freed => apart _ freed t member rfl⟩
  bytes _ _ _ _ _ := rfl

end Spared

variable [Inhabited β]

def settled (h : Heap β τ) : Mem β := settle h.ring h.mem

theorem settled_drained {h : Heap β τ} (drained : h.ring = []) : h.settled = h.mem := by
  rw [settled, drained]
  rfl

theorem recv_cons (tag : τ) (dst off : ℕ) (d : β) (data : List β) (m : Mem β) :
    (Task.recv tag dst off (d :: data)).apply m =
      (Task.recv tag dst (off + 1) data).apply (Deferred.store m ⟨dst, off, 1⟩ fun _ => d) := by
  funext b i
  by_cases outside : b = dst ∧ off ≤ i ∧ i < off + (data.length + 1)
  · obtain ⟨rfl, low, high⟩ := outside
    rw [Task.apply_recv_at low (by rw [List.length_cons]; exact high)]
    by_cases first : i = off
    · subst first
      rw [Task.apply_off (fun has => by have := has.2.1; simp only [Task.writes] at this; omega),
        store_at ⟨rfl, Nat.le_refl _, Nat.lt_succ_self _⟩]
      simp
    · have later : i - off = i - (off + 1) + 1 := by omega
      rw [Task.apply_recv_at (by omega) (by omega), later, List.getD_cons_succ]
  · rw [Task.apply_off (t := .recv tag dst off (d :: data)) outside, Task.apply_off, store_off]
    · rintro ⟨rfl, low, high⟩
      exact outside ⟨rfl, low, by simp only at low high; omega⟩
    · rintro ⟨rfl, low, high⟩
      exact outside ⟨rfl, by simp only [Task.writes] at low high; omega,
        by simp only [Task.writes] at low high; omega⟩

theorem recv_nil (tag : τ) (dst off : ℕ) (m : Mem β) :
    (Task.recv tag dst off []).apply m = m := by
  funext b i
  exact Task.apply_off fun has => by have := has.2; simp only [Task.writes, List.length_nil] at this; omega

theorem settled_store {h : Heap β τ} {s : Span} {f : ℕ → β} (clear : h.Clear (.write s)) :
    (h.store s f).settled = Deferred.store h.settled s f := settle_store clear

theorem settled_submit (h : Heap β τ) (t : Task β τ) :
    (h.submit t).settled = t.apply h.settled := by
  simp [settled, submit, settle]

@[simp] theorem settled_claim (h : Heap β τ) : h.claim.settled = h.settled := rfl

@[simp] theorem settled_release (h : Heap β τ) (bs : List ℕ) :
    (h.release bs).settled = h.settled := rfl

/-- The service never changes what memory will settle to. -/
theorem settled_serve {h h' : Heap β τ} {report : Option (τ × ℕ)}
    (served : h.serve = some (h', report)) : h'.settled = h.settled := by
  cases serve_served served with
  | copied _ _ _ _ _ rest pending => simp only [settled, pending, settle, List.foldl_cons]
  | emptied _ _ _ rest pending => simp only [settled, pending, settle, List.foldl_cons, recv_nil]
  | delivered tag dst off d data rest pending =>
    cases data with
    | nil => simp [settled, pending, settle, recv_cons, recv_nil]
    | cons e data => simp [settled, pending, settle, recv_cons]

theorem mem_eq_settled {h : Heap β τ} (unwritten : ∀ t ∈ h.ring, ¬ t.writes.Has b i) :
    h.mem b i = h.settled b i := (settle_off unwritten).symm

theorem mem_eq_settled_of_clear {h : Heap β τ} {s : Span} (clear : h.Clear (.read s))
    (has : s.Has b i) : h.mem b i = h.settled b i :=
  mem_eq_settled fun t member written => written.not_of_apart (clear t member) has

/-- The heap of a thread that performs every copy itself. -/
def settling (h : Heap β τ) : Heap β τ := { h with mem := h.settled, ring := [] }

section settling
variable {h h' : Heap β τ} {dst src : Span}

@[simp] theorem settling_claim : h.claim.settling = h.settling.claim := rfl

@[simp] theorem settling_release {bs : List ℕ} : (h.release bs).settling = h.settling.release bs := rfl

theorem settling_drained (drained : h.ring = []) : h.settling = h := by
  simp only [settling, settled_drained drained, ← drained]

theorem settling_store {f : ℕ → β} (clear : h.Clear (.write dst)) :
    (h.store dst f).settling = h.settling.store dst f := by
  rw [settling, settled_store clear]
  rfl

theorem settling_memcpy (written : h.Clear (.write dst)) (read : h.Clear (.read src))
    (len : src.len = dst.len) : (h.memcpy dst src).settling = h.settling.memcpy dst src := by
  rw [memcpy, settling_store written]
  have same : Deferred.store h.settled dst (fun k => h.mem src.blk (src.off + k)) =
      Deferred.store h.settled dst fun k => h.settled src.blk (src.off + k) := by
    funext b i
    by_cases has : dst.Has b i
    · obtain ⟨-, low, high⟩ := id has
      rw [store_at has, store_at has]
      exact mem_eq_settled_of_clear read ⟨rfl, Nat.le_add_right _ _, by omega⟩
    · rw [store_off has, store_off has]
  simp only [memcpy, store, settling, same]

/-- A submitted copy settles to one performed at once. -/
theorem settling_submit (h : Heap β τ) (dst src : Span) (len : src.len = dst.len) :
    (h.submit (.copy dst.blk dst.off src.blk src.off src.len)).settling =
      h.settling.memcpy dst src := by
  simp only [settling, settled_submit, len]
  rfl

theorem settling_serve {report : Option (τ × ℕ)} (served : h.serve = some (h', report)) :
    h'.settling = h.settling := by
  simp only [settling, settled_serve served, serve_live served]

end settling

end Heap
end Copier.Deferred
