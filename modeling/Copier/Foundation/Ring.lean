import Mathlib.Data.List.Range
import Mathlib.Logic.Function.Basic

/-! Circular buffers with a read and a write index and no element count. The
list of entries between the two indices is the abstract queue. A push appends
to it exactly while one slot stays free; the push that fills the last slot makes
the indices equal, and the queue looks empty. -/
namespace Copier

structure Ring (N : ℕ) (α : Type) where
  entries : ℕ → α
  readIndex : ℕ
  writeIndex : ℕ

namespace Ring
variable {N : ℕ} {α : Type}

def push (r : Ring N α) (x : α) : Ring N α where
  entries := Function.update r.entries r.writeIndex x
  readIndex := r.readIndex
  writeIndex := (r.writeIndex + 1) % N

/-- The consumer: nothing when the indices agree, else the entry at the read
index, which it then advances. -/
def pop (r : Ring N α) : Option (α × Ring N α) :=
  if r.readIndex = r.writeIndex then none
  else some (r.entries r.readIndex, { r with readIndex := (r.readIndex + 1) % N })

/-- Entries from the read index up to, not including, the write index. -/
def backlog (r : Ring N α) : ℕ :=
  if r.readIndex ≤ r.writeIndex then r.writeIndex - r.readIndex
  else r.writeIndex + N - r.readIndex

def slot (N start i : ℕ) : ℕ := if start + i < N then start + i else start + i - N

def contents (r : Ring N α) : List α :=
  (List.range r.backlog).map fun i => r.entries (slot N r.readIndex i)

structure Wf (r : Ring N α) : Prop where
  read : r.readIndex < N
  write : r.writeIndex < N

theorem next_eq (bound : i < N) : (i + 1) % N = if i + 1 = N then 0 else i + 1 := by
  split
  · simp [*]
  · exact Nat.mod_eq_of_lt (by omega)

theorem push_wf {r : Ring N α} (wf : r.Wf) (x : α) : (r.push x).Wf :=
  ⟨wf.read, Nat.mod_lt _ (by have := wf.read; omega)⟩

theorem pop_wf {r r' : Ring N α} (wf : r.Wf) (popped : r.pop = some (x, r')) : r'.Wf := by
  unfold pop at popped
  split at popped
  · contradiction
  · cases popped
    exact ⟨Nat.mod_lt _ (by have := wf.read; omega), wf.write⟩

theorem contents_length (r : Ring N α) : r.contents.length = r.backlog := by simp [contents]

theorem backlog_lt {r : Ring N α} (wf : r.Wf) : r.backlog < N := by
  have := wf.read
  have := wf.write
  unfold backlog
  split <;> omega

theorem backlog_eq_zero_iff {r : Ring N α} (wf : r.Wf) :
    r.backlog = 0 ↔ r.readIndex = r.writeIndex := by
  have := wf.read
  have := wf.write
  unfold backlog
  split <;> omega

theorem contents_eq_nil_iff {r : Ring N α} (wf : r.Wf) :
    r.contents = [] ↔ r.readIndex = r.writeIndex := by
  rw [← List.length_eq_zero_iff, contents_length, backlog_eq_zero_iff wf]

theorem pop_eq_none_iff {r : Ring N α} (wf : r.Wf) : r.pop = none ↔ r.contents = [] := by
  rw [contents_eq_nil_iff wf]
  unfold pop
  split <;> simp_all

theorem contents_push {r : Ring N α} (wf : r.Wf) (room : r.backlog + 1 < N) (x : α) :
    (r.push x).contents = r.contents ++ [x] := by
  have hr := wf.read
  have hw := wf.write
  have grown : (r.push x).backlog = r.backlog + 1 := by
    simp only [backlog, push, next_eq hw] at room ⊢
    split_ifs at room ⊢ <;> omega
  simp only [contents, grown, List.range_succ, List.map_append, List.map_cons, List.map_nil]
  congr 1
  · -- an older entry lies in another slot than the one written
    refine List.map_congr_left fun i member => ?_
    have older : slot N r.readIndex i ≠ r.writeIndex := by
      have := List.mem_range.mp member
      simp only [backlog] at this
      unfold slot
      split_ifs at this ⊢ <;> omega
    simp [push, older]
  · have newest : slot N r.readIndex r.backlog = r.writeIndex := by
      simp only [slot, backlog]
      split_ifs <;> omega
    simp [push, newest]

/-- The push that uses the last free slot empties the queue. -/
theorem contents_push_full {r : Ring N α} (wf : r.Wf) (full : r.backlog + 1 = N) (x : α) :
    (r.push x).contents = [] := by
  have hr := wf.read
  have hw := wf.write
  rw [contents_eq_nil_iff (push_wf wf x)]
  simp only [backlog, push, next_eq hw] at full ⊢
  split_ifs at full ⊢ <;> omega

theorem contents_pop {r r' : Ring N α} (wf : r.Wf) (popped : r.pop = some (x, r')) :
    r.contents = x :: r'.contents := by
  unfold pop at popped
  split at popped
  · contradiction
  rename_i different
  cases popped
  have hr := wf.read
  have hw := wf.write
  have shrunk : r.backlog =
      ({ r with readIndex := (r.readIndex + 1) % N } : Ring N α).backlog + 1 := by
    simp only [backlog, next_eq hr]
    split_ifs <;> omega
  simp only [contents, shrunk, List.range_succ_eq_map, List.map_cons, List.map_map]
  congr 1
  · simp [slot, hr]
  · refine List.map_congr_left fun i member => ?_
    have bound := List.mem_range.mp member
    have same : slot N r.readIndex (i + 1) = slot N ((r.readIndex + 1) % N) i := by
      simp only [backlog, next_eq hr] at bound
      simp only [slot, next_eq hr]
      split_ifs at bound ⊢ <;> omega
    simp [same]

end Ring
end Copier
