import Mathlib.Data.List.Basic

/-! A stream written round and round into a fixed number of cells. The cells keep
its last entries: each entry until the one `N` further on takes its place. -/
namespace Copier.Recent
variable {α : Type} {N : ℕ} {cells s data : List α}

/-- The cells from `i` on, overwritten by `data`. -/
def overwrite (cells : List α) (i : ℕ) (data : List α) : List α :=
  cells.take i ++ data ++ cells.drop (i + data.length)

/-- Entry `k` of the stream is in cell `k % N`, as long as it is among the last `N`. -/
structure Keeps (N : ℕ) (cells s : List α) : Prop where
  length : cells.length = N
  kept : ∀ k, k < s.length → s.length ≤ k + N → cells[k % N]? = s[k]?

theorem length_overwrite (fits : i + data.length ≤ cells.length) :
    (overwrite cells i data).length = cells.length := by
  simp only [overwrite, List.length_append, List.length_take, List.length_drop]
  omega

theorem getElem?_overwrite (fits : i + data.length ≤ cells.length) (k : ℕ) :
    (overwrite cells i data)[k]? =
      if k < i then cells[k]? else if k < i + data.length then data[k - i]? else cells[k]? := by
  have front : (cells.take i).length = i := by
    rw [List.length_take]
    omega
  rw [overwrite, List.append_assoc]
  split_ifs with before within
  · rw [List.getElem?_append_left (by omega), List.getElem?_take_of_lt before]
  · rw [List.getElem?_append_right (by omega), List.getElem?_append_left (by omega), front]
  · rw [List.getElem?_append_right (by omega), List.getElem?_append_right (by omega),
      List.getElem?_drop, front]
    congr 1
    omega

theorem Keeps.nil (length : cells.length = N) : Keeps N cells [] :=
  ⟨length, fun _ short => absurd short (Nat.not_lt_zero _)⟩

/-- The cell of the entry `d` places after the end of a stream of length `t`. -/
theorem slot_after (t d : ℕ) (fits : t % N + d < N) : (t + d) % N = t % N + d := by
  rw [Nat.add_mod, Nat.mod_eq_of_lt (show d < N by omega), Nat.mod_eq_of_lt fits]

theorem slot_wrap (t d : ℕ) (full : t % N + d = N) : (t + d) % N = 0 := by
  rw [← Nat.mod_add_mod, full, Nat.mod_self]

/-- The cell of the entry `d` places before the end, for one of the last `N`. -/
theorem slot_before (k t : ℕ) (older : k < t) (recent : t ≤ k + N) :
    k % N = if t - k ≤ t % N then t % N - (t - k) else t % N + N - (t - k) := by
  have below := Nat.mod_lt k (show 0 < N by omega)
  have split := Nat.div_add_mod k N
  have whole := Nat.div_add_mod t N
  have bound := Nat.mod_lt t (show 0 < N by omega)
  have apart : N * (t / N) = N * (k / N) ∨ N * (t / N) = N * (k / N) + N := by
    have lower : k / N ≤ t / N := Nat.div_le_div_right (by omega)
    have upper : t / N ≤ k / N + 1 := by
      rw [← Nat.add_div_right k (by omega)]
      exact Nat.div_le_div_right recent
    rcases (by omega : t / N = k / N ∨ t / N = k / N + 1) with same | next
    · exact .inl (by rw [same])
    · exact .inr (by rw [next, Nat.mul_succ])
  split_ifs with late <;> omega

/-- Writing the next entries where the stream stands, up to the last cell. -/
theorem Keeps.overwrite (keeps : Keeps N cells s) (fits : s.length % N + data.length ≤ N) :
    Keeps N (overwrite cells (s.length % N) data) (s ++ data) := by
  have room : s.length % N + data.length ≤ cells.length := by rwa [keeps.length]
  refine ⟨(length_overwrite room).trans keeps.length, fun k short recent => ?_⟩
  rw [List.length_append] at short recent
  rw [getElem?_overwrite room]
  by_cases new : s.length ≤ k
  · obtain ⟨d, rfl⟩ := Nat.exists_eq_add_of_le new
    have slot := slot_after (N := N) s.length d (by omega)
    rw [slot, if_neg (by omega), if_pos (by omega), List.getElem?_append_right (by omega)]
    simp only [Nat.add_sub_cancel_left]
  · have slot := slot_before (N := N) k s.length (by omega) (by omega)
    rw [List.getElem?_append_left (by omega), ← keeps.kept k (by omega) (by omega)]
    split_ifs at slot with late
    · rw [if_pos (by omega)]
    · rw [if_neg (by omega), if_neg (by omega)]

/-- The cells from where entry `k` is, up to the last cell or the end of the stream. -/
theorem Keeps.read (keeps : Keeps N cells s) (recent : s.length ≤ k + N)
    (within : k + n ≤ s.length) (fits : k % N + n ≤ N) :
    (cells.drop (k % N)).take n = (s.drop k).take n := by
  refine List.ext_getElem? fun i => ?_
  simp only [List.getElem?_take, List.getElem?_drop]
  split_ifs with inside
  · rw [← slot_after k i (by omega), keeps.kept (k + i) (by omega) (by omega)]
  · rfl

end Copier.Recent
