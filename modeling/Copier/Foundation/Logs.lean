import Mathlib.Data.List.Basic

/-! Logs that are written entry by entry and may be cut off anywhere. -/
namespace Copier.Logs
variable {α β : Type} {encode : α → List β} {entries : List α} {bytes part : List β} {n k : ℕ}

/-- Bytes that stop inside a log: so many whole entries, and a proper part of the next. -/
structure Cut (encode : α → List β) (entries : List α) (bytes : List β) (n : ℕ)
    (part : List β) : Prop where
  within : n ≤ entries.length
  spelled : bytes = (entries.take n).flatMap encode ++ part
  proper : part = [] ∨
    ∃ next, entries[n]? = some next ∧ part <+: encode next ∧ part.length < (encode next).length

theorem Cut.cons (cut : Cut encode entries bytes n part) (e : α) :
    Cut encode (e :: entries) (encode e ++ bytes) (n + 1) part where
  within := Nat.succ_le_succ cut.within
  spelled := by rw [List.take_succ_cons, List.flatMap_cons, List.append_assoc, ← cut.spelled]
  proper := cut.proper

theorem exists_cut (start : bytes <+: entries.flatMap encode) :
    ∃ n part, Cut encode entries bytes n part := by
  induction entries generalizing bytes with
  | nil =>
    rw [List.flatMap_nil, List.prefix_nil] at start
    exact ⟨0, [], Nat.le_refl 0, by rw [start]; rfl, .inl rfl⟩
  | cons e entries ih =>
    rw [List.flatMap_cons] at start
    by_cases short : bytes.length < (encode e).length
    · have inside : bytes <+: encode e :=
        List.prefix_of_prefix_length_le start (List.prefix_append _ _) (Nat.le_of_lt short)
      exact ⟨0, bytes, Nat.zero_le _, rfl, .inr ⟨e, rfl, inside, short⟩⟩
    · obtain ⟨more, rfl⟩ : encode e <+: bytes :=
        List.prefix_of_prefix_length_le (List.prefix_append _ _) start (Nat.le_of_not_lt short)
      obtain ⟨n, part, cut⟩ := ih ((List.prefix_append_right_inj _).mp start)
      exact ⟨n + 1, part, cut.cons e⟩

theorem length_take_flatMap_mono (encode : α → List β) (entries : List α) (upto : n ≤ k) :
    ((entries.take n).flatMap encode).length ≤ ((entries.take k).flatMap encode).length := by
  have start : entries.take n <+: entries.take k := List.take_prefix_take_left upto
  obtain ⟨more, whole⟩ := start
  rw [← whole, List.flatMap_append, List.length_append]
  exact Nat.le_add_right _ _

/-- Entries that have been written completely are whole in what is left. -/
theorem Cut.reaches (cut : Cut encode entries bytes n part) (inside : k ≤ entries.length)
    (some : ∀ e ∈ entries, encode e ≠ [])
    (written : ((entries.take k).flatMap encode).length ≤ bytes.length) : k ≤ n := by
  by_contra late
  have bound : n < entries.length := by omega
  have next : entries[n]? = Option.some entries[n] := List.getElem?_eq_getElem bound
  have grown : ((entries.take (n + 1)).flatMap encode).length =
      ((entries.take n).flatMap encode).length + (encode entries[n]).length := by
    rw [← List.take_append_getElem bound, List.flatMap_append, List.length_append,
      List.flatMap_singleton]
  have upto := length_take_flatMap_mono encode entries (by omega : n + 1 ≤ k)
  have length := congrArg List.length cut.spelled
  rw [List.length_append] at length
  have pos := List.length_pos_of_ne_nil (some _ (List.getElem_mem bound))
  rcases cut.proper with rfl | ⟨e, here, -, short⟩
  · rw [List.length_nil] at length
    omega
  · cases next.symm.trans here
    omega

end Copier.Logs
