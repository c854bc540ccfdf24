import Copier.Redis.Dict
import Copier.Foundation.Runs
import Mathlib.Tactic.IntervalCases

/-! The dictionary is a map: whatever its operations do to its two tables, they
answer as a map would, and no access is outside a table. -/
namespace Copier.Redis
open Buckets
variable {K V : Type} {m : K → Option V} {key : K} {val : V}

/-! Sizes. -/

namespace Dict

theorem nextPower_eq (size fuel j : ℕ) :
    ∃ p, nextPower size fuel (2 ^ j) = 2 ^ p ∧ j ≤ p ∧ p ≤ j + fuel ∧
      (size ≤ 2 ^ p ∨ p = j + fuel) ∧ ∀ b, j ≤ b → size ≤ 2 ^ b → p ≤ b := by
  induction fuel generalizing j with
  | zero => exact ⟨j, rfl, by omega, by omega, .inr rfl, fun _ below _ => below⟩
  | succ fuel ih =>
    unfold nextPower
    split_ifs with enough
    · exact ⟨j, rfl, by omega, by omega, .inl enough, fun _ below _ => below⟩
    · obtain ⟨p, eq, low, high, reached, least⟩ := ih (j + 1)
      refine ⟨p, by rw [← pow_succ, eq], by omega, by omega, ?_, fun b below bound => ?_⟩
      · exact reached.imp_right fun last => by omega
      · refine least b ?_ bound
        rcases below.lt_or_eq with less | rfl
        · exact less
        · exact absurd bound enough

/-- A power of two from the initial size on, and none smaller for what fits. -/
theorem _dictNextPower_eq (size : ℕ) :
    ∃ p, _dictNextPower size = 2 ^ p ∧ 2 ≤ p ∧ p ≤ 63 ∧
      (size ≤ 2 ^ 60 → size ≤ 2 ^ p ∧ p ≤ 60) := by
  unfold _dictNextPower
  split_ifs with large
  · exact ⟨63, rfl, by omega, by omega, fun small => by simp only [LONG_MAX] at large; omega⟩
  · obtain ⟨p, eq, low, high, reached, least⟩ := nextPower_eq size 61 2
    refine ⟨p, eq, low, high, fun small => ⟨?_, least 60 (by omega) small⟩⟩
    exact reached.resolve_right fun last => by
      have := least 60 (by omega) small
      omega

/-- The overflow check on the size in bytes. -/
theorem no_overflow {p : ℕ} (high : p ≤ 63) : ¬ 2 ^ p * 8 % 2 ^ 64 < 2 ^ p ↔ p ≤ 60 := by
  interval_cases p <;> simp

end Dict

/-! Tables. -/

namespace DictHt

structure Ok (type : DictType K) (t : DictHt K V) : Prop where
  length : t.table.length = t.size
  used : t.used = t.table.flatten.length
  size : t.size = 0 ∨ ∃ p, 2 ≤ p ∧ p ≤ 60 ∧ t.size = 2 ^ p
  mask : t.sizemask = t.size - 1
  placed : Placed (fun k => (type.hashFunction k).toNat &&& t.sizemask) t.table

variable {type : DictType K} {t : DictHt K V}

theorem Ok.reset : (_dictReset : DictHt K V).Ok type where
  length := rfl
  used := rfl
  size := .inl rfl
  mask := rfl
  placed := by simpa [_dictReset] using Placed.empty _ 0

theorem Ok.empty {p : ℕ} (low : 2 ≤ p) (high : p ≤ 60) :
    (⟨List.replicate (2 ^ p) [], 2 ^ p, 2 ^ p - 1, 0⟩ : DictHt K V).Ok type where
  length := List.length_replicate
  used := by simp
  size := .inr ⟨p, low, high, rfl⟩
  mask := rfl
  placed := .empty _ _

theorem Ok.masked (ok : t.Ok type) (h : BitVec 64) (some : t.size ≠ 0) :
    h.toNat &&& t.sizemask < t.size := by
  obtain none | ⟨p, -, -, eq⟩ := ok.size
  · exact absurd none some
  · rw [ok.mask, eq, Nat.and_two_pow_sub_one_eq_mod]
    exact Nat.mod_lt _ (by positivity)

theorem Ok.chain (ok : t.Ok type) (h : BitVec 64) (some : t.size ≠ 0) :
    ∃ chain, t.chain h = .some chain := by
  have inside := ok.masked h some
  rw [← ok.length] at inside
  exact ⟨_, List.getElem?_eq_getElem inside⟩

/-- A chain replaced by entries that belong there, and the count with it. -/
theorem Ok.setChain (ok : t.Ok type) {chain : List (K × V)} (other : List (K × V))
    (found : t.chain (type.hashFunction key) = .some chain)
    (here : ∀ e ∈ other, e.1 = key ∨ e ∈ chain)
    (count : n + chain.length = t.used + other.length) :
    ({ t.setChain (type.hashFunction key) other with used := n } : DictHt K V).Ok type := by
  obtain ⟨rest, whole, change⟩ := split_at found
  refine ⟨?_, ?_, ok.size, ok.mask, ok.placed.set fun e member => ?_⟩
  · exact List.length_set.trans ok.length
  · have before := whole.length_eq
    have after := (change other).length_eq
    have used := ok.used
    simp only [List.length_append] at before after
    simp only [DictHt.setChain]
    omega
  · obtain rfl | old := here e member
    · rfl
    · exact ok.placed _ _ found e old

end DictHt

/-! Chains. -/

section Chain
variable [DecidableEq K] {chain : List (K × V)} {e : K × V}

theorem find_key (found : chain.find? (fun he => he.1 = key) = some e) : e.1 = key := by
  simpa using List.find?_some found

theorem eraseP_perm (found : chain.find? (fun he => he.1 = key) = some e) :
    chain.Perm (e :: chain.eraseP fun he => he.1 = key) := by
  induction chain with
  | nil => cases found
  | cons a chain ih =>
    rw [List.find?_cons] at found
    rw [List.eraseP_cons]
    by_cases same : a.1 = key
    · simp only [same, decide_true, Option.some.injEq, cond_true] at found ⊢
      rw [found]
    · simp only [same, decide_false, cond_false] at found ⊢
      exact ((ih found).cons a).trans (.swap e a _)

theorem setVal_perm (found : chain.find? (fun he => he.1 = key) = some e) (val : V) :
    (setVal key val chain).Perm ((key, val) :: chain.eraseP fun he => he.1 = key) := by
  induction chain with
  | nil => cases found
  | cons a chain ih =>
    rw [List.find?_cons] at found
    rw [setVal, List.eraseP_cons]
    by_cases same : a.1 = key
    · simp only [same, decide_true, cond_true, if_pos]
      exact .refl _
    · simp only [same, decide_false, cond_false, if_false] at found ⊢
      exact ((ih found).cons a).trans (.swap _ a _)

end Chain

/-! The invariant. While nothing is rehashed the second table is not used; while
something is, the buckets before `rehashidx` have been moved. -/

namespace Dict

def entries (d : Dict K V) : List (K × V) := d.ht0.table.flatten ++ d.ht1.table.flatten

structure Inv (type : DictType K) (d : Dict K V) (m : K → Option V) : Prop where
  ok0 : d.ht0.Ok type
  ok1 : d.ht1.Ok type
  rep : Represents d.entries m
  idle : d.rehashidx = none → d.ht1 = _dictReset
  begun : ∀ i, d.rehashidx = some i → d.ht0.size ≠ 0 ∧ d.ht1.size ≠ 0 ∧
    ∀ j, j < i → d.ht0.table[j]? = some []

variable {type : DictType K} (can : DictResizeEnable) {d : Dict K V}

theorem Inv.create : (dictCreate : Dict K V).Inv type fun _ => none where
  ok0 := .reset
  ok1 := .reset
  rep := .nil
  idle _ := rfl
  begun _ began := nomatch began

theorem Inv.ok (inv : d.Inv type m) (second : Bool) : (d.ht second).Ok type := by
  cases second
  · exact inv.ok0
  · exact inv.ok1

theorem Inv.size (inv : d.Inv type m) : d.dictSize = {k | (m k).isSome}.ncard := by
  rw [← inv.rep.length, entries, List.length_append, ← inv.ok0.used, ← inv.ok1.used]
  rfl

/-- Only `pauserehash` may differ. -/
theorem Inv.of_tables {e : Dict K V} (inv : d.Inv type m) (ht0 : e.ht0 = d.ht0)
    (ht1 : e.ht1 = d.ht1) (idx : e.rehashidx = d.rehashidx) : e.Inv type m where
  ok0 := ht0 ▸ inv.ok0
  ok1 := ht1 ▸ inv.ok1
  rep := by
    rw [entries, ht0, ht1]
    exact inv.rep
  idle none := by rw [ht1, inv.idle (idx ▸ none)]
  begun i began := by
    rw [ht0, ht1]
    exact inv.begun i (idx ▸ began)

/-! Resizing. -/

theorem Inv.expand (inv : d.Inv type m) (size : ℕ) (allocated : Bool) :
    (_dictExpand d size allocated).1.Inv type m := by
  obtain ⟨p, power, low, high, -⟩ := _dictNextPower_eq size
  unfold _dictExpand
  rw [power]
  dsimp only
  split
  · exact inv
  rename_i busy
  split
  · exact inv
  rename_i overflow
  split
  · exact inv
  split
  · exact inv
  rw [not_or] at busy overflow
  have fits := (no_overflow high).mp overflow.2
  have still : d.rehashidx = none := by simpa [dictIsRehashing] using busy.1
  split
  · rename_i first
    have nothing := inv.rep
    rw [entries, first, List.flatten_nil, List.nil_append] at nothing
    exact {
      ok0 := .empty low fits
      ok1 := inv.ok1
      rep := by simpa only [entries, flatten_empty, List.nil_append] using nothing
      idle := inv.idle
      begun := fun i began => nomatch still.symm.trans began }
  · rename_i first
    have alone := inv.rep
    rw [entries, inv.idle still] at alone
    exact {
      ok0 := inv.ok0
      ok1 := .empty low fits
      rep := by simpa only [entries, flatten_empty, _dictReset, List.flatten_nil] using alone
      idle := fun none => nomatch none
      begun := by
        rintro i ⟨⟩
        refine ⟨?_, by positivity, fun j before => absurd before (by omega)⟩
        rw [← inv.ok0.length]
        exact fun zero => first (List.length_eq_zero_iff.mp zero) }

/-- A table that is not being rehashed is expanded to any larger size that fits. -/
theorem Inv.expand_larger (inv : d.Inv type m) (still : d.rehashidx = none)
    (larger : d.ht0.size < n) (holds : d.ht0.used ≤ n) (fits : n ≤ 2 ^ 60) :
    (dictExpand d n).1.Inv type m ∧ (dictExpand d n).1.ht0.size ≠ 0 ∧
      (dictExpand d n).2 = true := by
  refine ⟨inv.expand n true, ?_⟩
  obtain ⟨p, power, low, high, small⟩ := _dictNextPower_eq n
  obtain ⟨enough, fits⟩ := small fits
  have room := (no_overflow high).mpr fits
  have positive : 2 ^ p ≠ 0 := by positivity
  change (_dictExpand d n true).1.ht0.size ≠ 0 ∧ (_dictExpand d n true).2.1 = true
  unfold _dictExpand
  rw [if_neg (by simp only [dictIsRehashing, still]; simpa using holds), power,
    if_neg (by rw [not_or]; exact ⟨by omega, room⟩), if_neg (by omega), if_neg (by simp)]
  split
  · exact ⟨positive, rfl⟩
  · rename_i first
    refine ⟨?_, rfl⟩
    rw [← inv.ok0.length]
    exact fun zero => first (List.length_eq_zero_iff.mp zero)

theorem Inv.resize (inv : d.Inv type m) : (dictResize can d).1.Inv type m := by
  unfold dictResize
  split
  · exact inv
  · exact inv.expand _ true

/-- Before a key is added there is a table to put it in. -/
theorem Inv.expandIfNeeded (inv : d.Inv type m) (fits : d.ht0.used < 2 ^ 60) :
    (_dictExpandIfNeeded type can d).1.Inv type m ∧
      (_dictExpandIfNeeded type can d).1.ht0.size ≠ 0 ∧
        (_dictExpandIfNeeded type can d).2 = true := by
  unfold _dictExpandIfNeeded
  split
  · rename_i rehashing
    obtain ⟨i, began⟩ := Option.isSome_iff_exists.mp rehashing
    exact ⟨inv, (inv.begun i began).1, rfl⟩
  rename_i idle
  have still : d.rehashidx = none := by simpa [dictIsRehashing] using idle
  split
  · rename_i zero
    have nothing := List.length_eq_zero_iff.mp (inv.ok0.length.trans zero)
    have unused : d.ht0.used = 0 := by rw [inv.ok0.used, nothing, List.flatten_nil, List.length_nil]
    exact inv.expand_larger still (by rw [zero]; decide) (by omega) (by decide)
  rename_i some
  split
  · exact ⟨inv, some, rfl⟩
  split
  · rename_i full
    refine inv.expand_larger still ?_ (by omega) (by omega)
    rcases full with ⟨-, full⟩ | ⟨-, full⟩
    · omega
    · have ratio := Nat.mul_le_mul_left d.ht0.size (Nat.succ_le_of_lt full)
      have used := Nat.mul_div_le d.ht0.used d.ht0.size
      simp only [dict_force_resize_ratio] at ratio
      omega
  · exact ⟨inv, some, rfl⟩

/-! Rehashing. -/

theorem emptyVisits_eq {table : List (List (K × V))} {e : K × V} {chain : List (K × V)}
    (later : table[j]? = some (e :: chain)) (visits : ℕ) (before : idx ≤ j) :
    ∃ i left, emptyVisits table visits idx = some (i, left) ∧ idx ≤ i ∧
      (∀ k, idx ≤ k → k < i → table[k]? = some []) ∧
        (left ≠ 0 → ∃ e chain, table[i]? = some (e :: chain)) := by
  induction visits generalizing idx with
  | zero => exact ⟨idx, 0, rfl, le_rfl, fun k low high => absurd high (by omega), by simp⟩
  | succ visits ih =>
    obtain ⟨inside, -⟩ := List.getElem?_eq_some_iff.mp later
    obtain ⟨found, here⟩ : ∃ found, table[idx]? = some found :=
      ⟨_, List.getElem?_eq_getElem (by omega)⟩
    rw [emptyVisits, here]
    cases found with
    | nil =>
      have passed : idx ≠ j := by
        rintro rfl
        cases here.symm.trans later
      obtain ⟨i, left, eq, low, empties, stops⟩ := ih (Nat.succ_le_of_lt (before.lt_of_ne passed))
      refine ⟨i, left, eq, by omega, fun k from_ below => ?_, stops⟩
      rcases from_.lt_or_eq with more | rfl
      · exact empties k more below
      · exact here
    | cons e chain =>
      exact ⟨idx, _, rfl, le_rfl, fun k low high => absurd high (by omega), fun _ => ⟨e, chain, here⟩⟩

theorem moveKeys_eq {t1 : DictHt K V} (ok : t1.Ok type) (some1 : t1.size ≠ 0)
    (chain : List (K × V)) (t0 : DictHt K V) :
    ∃ t, moveKeys type chain t0 t1 = some ({ t0 with used := t0.used - chain.length }, t) ∧
      t.Ok type ∧ t.size = t1.size ∧ t.table.flatten.Perm (chain ++ t1.table.flatten) := by
  induction chain generalizing t0 t1 with
  | nil => exact ⟨t1, rfl, ok, rfl, .refl _⟩
  | cons de nextde ih =>
    obtain ⟨chain, found⟩ := ok.chain (type.hashFunction de.1) some1
    have kept := ok.setChain (de :: chain) (n := t1.used + 1) found
      (fun e member => (List.mem_cons.mp member).imp (congrArg Prod.fst) id)
      (by rw [List.length_cons]; omega)
    obtain ⟨t, eq, ok', size, perm⟩ := ih kept some1 { t0 with used := t0.used - 1 }
    refine ⟨t, ?_, ok', size, ?_⟩
    · rw [moveKeys, found, Option.bind_eq_bind, Option.bind_some]
      simp only [List.length_cons, Nat.add_comm nextde.length, ← Nat.sub_sub]
      exact eq
    · refine perm.trans (((flatten_cons_at found de).append_left nextde).trans ?_)
      exact List.perm_middle

/-- A bucket moved: the tables hold the same entries. -/
theorem Inv.move (inv : d.Inv type m) (began : d.rehashidx = some i)
    (empties : ∀ k, i ≤ k → k < idx → d.ht0.table[k]? = some [])
    (found : d.ht0.table[idx]? = some chain) :
    ∃ t0 t1, moveKeys type chain d.ht0 d.ht1 = some (t0, t1) ∧
      Inv type
        { d with
          ht0 := { t0 with table := t0.table.set idx [] }
          ht1 := t1
          rehashidx := some (idx + 1) } m := by
  obtain ⟨some0, some1, moved⟩ := inv.begun i began
  obtain ⟨t1, eq, ok1, size1, perm1⟩ := moveKeys_eq inv.ok1 some1 chain d.ht0
  obtain ⟨rest, whole, change⟩ := split_at found
  have left := change []
  rw [List.nil_append] at left
  refine ⟨_, t1, eq, ⟨⟨?_, ?_, inv.ok0.size, inv.ok0.mask, ?_⟩, ok1, ?_, nofun, ?_⟩⟩
  · exact List.length_set.trans inv.ok0.length
  · have before := whole.length_eq
    have after := left.length_eq
    have used := inv.ok0.used
    rw [List.length_append] at before
    dsimp only
    omega
  · exact inv.ok0.placed.set fun e member => nomatch member
  · refine inv.rep.perm ((whole.append_right _).trans ?_)
    refine List.Perm.trans ?_ (left.symm.append_right _ |>.trans (perm1.symm.append_left _))
    rw [← List.append_assoc]
    exact List.perm_append_comm.append_right _
  · rintro _ ⟨⟩
    refine ⟨some0, size1 ▸ some1, fun j before => ?_⟩
    rw [List.getElem?_set]
    split_ifs with same inside
    · rfl
    · exact absurd (List.getElem?_eq_some_iff.mp found).1 inside
    · rcases lt_or_ge j i with early | late
      · exact moved j early
      · exact empties j late (by omega)

theorem Inv.rounds (n : ℕ) : ∀ (visits : ℕ) {d : Dict K V}, d.Inv type m → d.dictIsRehashing →
    ∃ e early, rehashRounds type n visits d = some (e, early) ∧ e.Inv type m ∧
      e.dictIsRehashing ∧ e.pauserehash = d.pauserehash := by
  induction n with
  | zero => exact fun _ d inv began => ⟨d, false, rfl, inv, began, rfl⟩
  | succ n ih =>
    intro visits d inv began
    unfold rehashRounds
    split
    · exact ⟨d, false, rfl, inv, began, rfl⟩
    rename_i used
    obtain ⟨i, began⟩ := Option.isSome_iff_exists.mp began
    obtain ⟨-, -, moved⟩ := inv.begun i began
    -- Some bucket has an entry, and it was not moved yet.
    obtain ⟨j, e, chain, later⟩ : ∃ j e chain, d.ht0.table[j]? = some (e :: chain) := by
      have some := mt List.length_eq_zero_iff.mpr (inv.ok0.used ▸ used)
      obtain ⟨e, member⟩ := List.exists_mem_of_ne_nil _ some
      obtain ⟨chain, inside, member⟩ := List.mem_flatten.mp member
      obtain ⟨j, found⟩ := List.getElem?_of_mem inside
      cases chain with
      | nil => cases member
      | cons a chain => exact ⟨j, a, chain, found⟩
    have before : i ≤ j := by
      by_contra less
      cases later.symm.trans (moved j (by omega))
    have inside := (List.getElem?_eq_some_iff.mp later).1
    rw [inv.ok0.length] at inside
    obtain ⟨idx, left, eq, low, empties, stops⟩ := emptyVisits_eq later visits before
    rw [began, Option.bind_eq_bind, Option.bind_some, if_neg (by omega), eq, Option.bind_eq_bind,
      Option.bind_some]
    dsimp only
    split
    · refine ⟨_, true, rfl, ⟨inv.ok0, inv.ok1, inv.rep, nofun, ?_⟩, rfl, rfl⟩
      rintro _ ⟨⟩
      obtain ⟨some0, some1, -⟩ := inv.begun i began
      refine ⟨some0, some1, fun k below => ?_⟩
      rcases lt_or_ge k i with early | late
      · exact moved k early
      · exact empties k late below
    · rename_i more
      obtain ⟨e, chain, found⟩ := stops more
      obtain ⟨t0, t1, eq, kept⟩ := inv.move began empties found
      rw [found, Option.bind_eq_bind, Option.bind_some, eq, Option.bind_eq_bind, Option.bind_some]
      obtain ⟨e, early, eq, kept, more, same⟩ := ih left kept rfl
      exact ⟨e, early, eq, kept, more, same⟩

theorem Inv.rehash (inv : d.Inv type m) (n : ℕ) :
    ∃ e more, dictRehash type can d n = some (e, more) ∧ e.Inv type m ∧
      e.pauserehash = d.pauserehash := by
  unfold dictRehash
  dsimp only
  split
  · exact ⟨d, false, rfl, inv, rfl⟩
  rename_i can
  split
  · exact ⟨d, false, rfl, inv, rfl⟩
  rw [not_or, not_not] at can
  obtain ⟨e, early, eq, kept, began, same⟩ := inv.rounds n (n * 10) can.2
  rw [eq, Option.bind_eq_bind, Option.bind_some]
  dsimp only
  split
  · exact ⟨e, true, rfl, kept, same⟩
  split
  · rename_i done
    refine ⟨_, false, rfl, ⟨kept.ok1, .reset, ?_, fun _ => rfl, nofun⟩, same⟩
    have nothing := List.length_eq_zero_iff.mp (kept.ok0.used ▸ done)
    have rep := kept.rep
    rw [entries, nothing, List.nil_append] at rep
    simpa only [entries, _dictReset, List.flatten_nil, List.append_nil] using rep
  · exact ⟨e, true, rfl, kept, same⟩

theorem Inv.rehashMilliseconds (rounds : ℕ) : ∀ {d : Dict K V}, d.Inv type m →
    ∃ e n, Dict.rehashMilliseconds type can rounds d = some (e, n) ∧ e.Inv type m := by
  induction rounds with
  | zero =>
    intro d inv
    obtain ⟨e, more, eq, kept, -⟩ := inv.rehash can 100
    exact ⟨e, _, by rw [Dict.rehashMilliseconds, eq]; rfl, kept⟩
  | succ rounds ih =>
    intro d inv
    obtain ⟨e, more, eq, kept, -⟩ := inv.rehash can 100
    obtain ⟨f, n, rest, last⟩ := ih kept
    rw [Dict.rehashMilliseconds, eq, Option.bind_eq_bind, Option.bind_some]
    dsimp only
    split
    · exact ⟨f, _, by rw [rest]; rfl, last⟩
    · exact ⟨e, 0, rfl, kept⟩

/-- The step of rehashing leaves an empty dictionary empty, and others with a table. -/
theorem Inv.beginStep (inv : d.Inv type m) :
    ∃ e, Dict.beginStep type can d = some e ∧ e.Inv type m := by
  unfold Dict.beginStep _dictRehashStep
  split
  · split
    · obtain ⟨e, more, eq, kept, -⟩ := inv.rehash can 1
      exact ⟨e, by rw [eq]; rfl, kept⟩
    · exact ⟨d, rfl, inv⟩
  · exact ⟨d, rfl, inv⟩

/-- A dictionary with entries has a table to look in. -/
theorem Inv.table (inv : d.Inv type m) (some : d.dictSize ≠ 0) : d.ht0.size ≠ 0 := by
  intro zero
  have nothing := List.length_eq_zero_iff.mp (inv.ok0.length.trans zero)
  have unused : d.ht0.used = 0 := by rw [inv.ok0.used, nothing, List.flatten_nil, List.length_nil]
  cases began : d.rehashidx with
  | none => exact some (by rw [dictSize, unused, inv.idle began]; rfl)
  | some i => exact (inv.begun i began).1 zero

/-! Operations on keys. -/

/-- A bucket changed in one of the tables. Only what rehashing has passed stays empty. -/
theorem Inv.setChain {m' : K → Option V} (inv : d.Inv type m)
    (found : (d.ht second).chain (type.hashFunction key) = some chain)
    (here : ∀ e ∈ other, e.1 = key ∨ e ∈ chain)
    (count : n + chain.length = (d.ht second).used + other.length)
    (passed : chain = [] → other = [] ∨ second = d.dictIsRehashing)
    (rep : ∀ rest, Represents (chain ++ rest) m → Represents (other ++ rest) m') :
    (d.setHt second
      { (d.ht second).setChain (type.hashFunction key) other with used := n }).Inv type m' := by
  have kept := (inv.ok second).setChain other found here count
  obtain ⟨rest, whole, change⟩ := split_at found
  cases second with
  | false =>
    refine ⟨kept, inv.ok1, ?_, inv.idle, fun i began => ?_⟩
    · have before := inv.rep.perm (whole.append_right _)
      rw [List.append_assoc] at before
      refine (rep _ before).perm ?_
      rw [← List.append_assoc]
      exact (change other).symm.append_right _
    · obtain ⟨some0, some1, moved⟩ := inv.begun i began
      refine ⟨some0, some1, fun j early => ?_⟩
      refine (List.getElem?_set (l := d.ht0.table) ..).trans ?_
      split_ifs with same inside
      · have old := moved j early
        rw [← same] at old
        cases found.symm.trans old
        obtain rfl | idle := passed rfl
        · rfl
        · rw [dictIsRehashing, show d.rehashidx = some i from began] at idle
          cases idle
      · have old := (List.getElem?_eq_some_iff.mp (moved j early)).1
        exact absurd old (by rwa [← same])
      · exact moved j early
  | true =>
    refine ⟨inv.ok0, kept, ?_, fun idle => ?_, inv.begun⟩
    · have before := inv.rep.perm ((whole.append_left _).trans List.perm_append_comm)
      rw [List.append_assoc] at before
      refine (rep _ before).perm ?_
      rw [← List.append_assoc]
      exact ((change other).symm.append_right _).trans List.perm_append_comm
    · have unused : d.ht true = _dictReset := inv.idle idle
      rw [unused] at found
      cases found

variable [DecidableEq K]

/-- The loop over the tables finds the entry of the map, in the bucket it is in. -/
theorem Inv.search (inv : d.Inv type m) (some0 : d.ht0.size ≠ 0) (key : K) :
    m key = none ∧ search type d key = some none ∨
      ∃ second val chain, m key = some val ∧
        search type d key = some (some (second, key, val)) ∧
          (d.ht second).chain (type.hashFunction key) = some chain ∧
            chain.find? (fun he => he.1 = key) = some (key, val) := by
  obtain ⟨chain, found⟩ := inv.ok0.chain (type.hashFunction key) some0
  unfold Dict.search
  dsimp only
  rw [found, Option.bind_eq_bind, Option.bind_some]
  cases here : chain.find? fun he => he.1 = key with
  | some e =>
    obtain ⟨k, val⟩ := e
    obtain rfl : k = key := find_key here
    have member := (inv.ok0.placed.find found).mpr (List.mem_of_find?_eq_some here)
    have value := (inv.rep.mem k val).mp (List.mem_append_left _ member)
    exact .inr ⟨false, val, chain, value, rfl, found, here⟩
  | none =>
    have not0 : ∀ val, (key, val) ∉ d.ht0.table.flatten := fun val member => by
      simpa using List.find?_eq_none.mp here _ ((inv.ok0.placed.find found).mp member)
    cases began : d.rehashidx with
    | none =>
      refine .inl ⟨inv.rep.absent.mp fun val member => ?_, by simp [dictIsRehashing, began]⟩
      rw [entries, inv.idle began] at member
      simp only [_dictReset, List.flatten_nil, List.append_nil] at member
      exact not0 val member
    | some i =>
      obtain ⟨-, some1, -⟩ := inv.begun i began
      obtain ⟨chain, found⟩ := inv.ok1.chain (type.hashFunction key) some1
      simp only [dictIsRehashing, began, Option.isSome_some, not_true_eq_false, if_false, found,
        Option.bind_some]
      cases here : chain.find? fun he => he.1 = key with
      | some e =>
        obtain ⟨k, val⟩ := e
        obtain rfl : k = key := find_key here
        have member := (inv.ok1.placed.find found).mpr (List.mem_of_find?_eq_some here)
        have value := (inv.rep.mem k val).mp (List.mem_append_right _ member)
        exact .inr ⟨true, val, chain, value, rfl, found, here⟩
      | none =>
        refine .inl ⟨inv.rep.absent.mp fun val member => ?_, rfl⟩
        rcases List.mem_append.mp member with first | second
        · exact not0 val first
        · simpa using List.find?_eq_none.mp here _ ((inv.ok1.placed.find found).mp second)

/-- An existing entry is left as it is, and the dictionary has a map's entries. -/
theorem Inv.addRaw (inv : d.Inv type m) (fits : d.dictSize < 2 ^ 60) (key : K) (val : V) :
    (m key = none ∧ ∃ e, dictAddRaw type can d key val = some (e, .entry) ∧
      e.Inv type (Function.update m key (some val))) ∨
    ∃ e second old chain, m key = some old ∧
      dictAddRaw type can d key val = some (e, .existing second (key, old)) ∧ e.Inv type m ∧
        (e.ht second).chain (type.hashFunction key) = some chain ∧
          chain.find? (fun he => he.1 = key) = some (key, old) := by
  obtain ⟨d', eq', inv'⟩ := inv.beginStep can
  have fits' : d'.ht0.used < 2 ^ 60 := by
    rw [inv.size, ← inv'.size, dictSize] at fits
    omega
  obtain ⟨kept, some0, expanded⟩ := inv'.expandIfNeeded can fits'
  unfold dictAddRaw
  rw [eq', Option.bind_eq_bind, Option.bind_some]
  revert kept some0 expanded
  generalize _dictExpandIfNeeded type can d' = step
  obtain ⟨e, _⟩ := step
  rintro kept some0 rfl
  dsimp only at kept some0 ⊢
  rw [if_neg (by simp)]
  obtain ⟨new, found⟩ | ⟨second, old, chain, value, found, place, here⟩ := kept.search some0 key
  · refine .inl ⟨new, ?_⟩
    have sized : (e.ht e.dictIsRehashing).size ≠ 0 := by
      cases began : e.rehashidx with
      | none => simpa [dictIsRehashing, began, ht] using some0
      | some i => simpa [dictIsRehashing, began, ht] using (kept.begun i began).2.1
    obtain ⟨chain, place⟩ := (kept.ok e.dictIsRehashing).chain (type.hashFunction key) sized
    rw [found, Option.bind_eq_bind, Option.bind_some]
    dsimp only
    rw [place, Option.bind_eq_bind, Option.bind_some]
    refine ⟨_, rfl, kept.setChain place (fun e member => ?_) ?_ (fun _ => .inr rfl) ?_⟩
    · exact (List.mem_cons.mp member).imp (congrArg Prod.fst) id
    · simp only [DictHt.setChain, List.length_cons]
      omega
    · exact fun rest rep => rep.push new
  · refine .inr ⟨e, second, old, chain, value, ?_, kept, place, here⟩
    rw [found, Option.bind_eq_bind, Option.bind_some]

theorem Inv.add (inv : d.Inv type m) (fits : d.dictSize < 2 ^ 60) (key : K) (val : V) :
    ∃ e, dictAdd type can d key val = some (e, (m key).isNone) ∧
      e.Inv type (if (m key).isNone then Function.update m key (some val) else m) := by
  unfold dictAdd
  obtain ⟨new, e, eq, kept⟩ | ⟨e, second, old, chain, value, eq, kept, -⟩ :=
    inv.addRaw can fits key val
  · exact ⟨e, by rw [eq, new]; rfl, by rwa [new]⟩
  · exact ⟨e, by rw [eq, value]; rfl, by rwa [value]⟩

theorem Inv.replace (inv : d.Inv type m) (fits : d.dictSize < 2 ^ 60) (key : K) (val : V) :
    ∃ e, dictReplace type can d key val = some (e, (m key).isNone) ∧
      e.Inv type (Function.update m key (some val)) := by
  unfold dictReplace
  obtain ⟨new, e, eq, kept⟩ | ⟨e, second, old, chain, value, eq, kept, place, here⟩ :=
    inv.addRaw can fits key val
  · exact ⟨e, by rw [eq, new]; rfl, kept⟩
  · rw [eq, value, Option.bind_eq_bind, Option.bind_some]
    dsimp only
    rw [place, Option.bind_eq_bind, Option.bind_some]
    have split := eraseP_perm here
    have changed := setVal_perm here val
    refine ⟨_, rfl, kept.setChain place (fun a member => ?_) ?_ (fun none => ?_) ?_⟩
    · rcases List.mem_cons.mp (changed.mem_iff.mp member) with rfl | old
      · exact .inl rfl
      · exact .inr (split.mem_iff.mpr (List.mem_cons_of_mem _ old))
    · have before := split.length_eq
      have after := changed.length_eq
      simp only [List.length_cons] at before after ⊢
      omega
    · exact .inl (by rw [none, setVal])
    · intro rest rep
      have rep := (rep.perm (split.append_right rest)).set val
      exact rep.perm (changed.symm.append_right rest)

theorem Inv.addOrFind (inv : d.Inv type m) (fits : d.dictSize < 2 ^ 60) (key : K) (val : V) :
    ∃ e, dictAddOrFind type can d key val = some (e, some (key, (m key).getD val)) ∧
      e.Inv type (Function.update m key (some ((m key).getD val))) := by
  unfold dictAddOrFind
  obtain ⟨new, e, eq, kept⟩ | ⟨e, second, old, chain, value, eq, kept, -⟩ :=
    inv.addRaw can fits key val
  · exact ⟨e, by rw [eq, new]; rfl, by rwa [new]⟩
  · refine ⟨e, by rw [eq, value]; rfl, ?_⟩
    rwa [value, Option.getD_some, ← value, Function.update_eq_self]

theorem Inv.delete (inv : d.Inv type m) (key : K) :
    ∃ e, dictGenericDelete type can d key = some (e, (m key).map (key, ·)) ∧
      e.Inv type (Function.update m key none) := by
  obtain ⟨e, eq, kept⟩ := inv.beginStep can
  unfold dictGenericDelete
  split
  · rename_i unused
    have nothing : d.entries = [] := by
      rw [entries, List.append_eq_nil_iff, ← List.length_eq_zero_iff, ← List.length_eq_zero_iff,
        ← inv.ok0.used, ← inv.ok1.used]
      exact unused
    have absent : m key = none := inv.rep.absent.mp (by simp [nothing])
    refine ⟨d, by rw [absent]; rfl, ?_⟩
    rwa [← absent, Function.update_eq_self]
  rename_i used
  have some0 : e.ht0.size ≠ 0 := kept.table (by
    rw [kept.size, ← inv.size, dictSize]
    omega)
  rw [eq, Option.bind_eq_bind, Option.bind_some]
  obtain ⟨absent, found⟩ | ⟨second, val, chain, value, found, place, here⟩ := kept.search some0 key
  · rw [found, Option.bind_eq_bind, Option.bind_some]
    refine ⟨e, by rw [absent]; rfl, ?_⟩
    rwa [← absent, Function.update_eq_self]
  · rw [found, Option.bind_eq_bind, Option.bind_some]
    dsimp only
    rw [place, Option.bind_eq_bind, Option.bind_some, value]
    have split := eraseP_perm here
    refine ⟨_, rfl, kept.setChain place (fun a member => ?_) ?_ (fun none => ?_) ?_⟩
    · exact .inr (List.mem_of_mem_eraseP member)
    · have before := split.length_eq
      have inside := (kept.ok second).used
      have some := List.length_pos_of_mem (List.mem_of_find?_eq_some here)
      have within : 0 < (e.ht second).used := by
        obtain ⟨rest, whole, -⟩ := split_at place
        have whole := whole.length_eq
        rw [List.length_append] at whole
        omega
      simp only [DictHt.setChain, List.length_cons] at before ⊢
      omega
    · exact .inl (by rw [none, List.eraseP_nil])
    · exact fun rest rep => (rep.perm (split.append_right rest)).pop

theorem Inv.find (inv : d.Inv type m) (key : K) :
    ∃ e, dictFind type can d key = some (e, (m key).map (key, ·)) ∧ e.Inv type m := by
  obtain ⟨e, eq, kept⟩ := inv.beginStep can
  unfold dictFind
  split
  · rename_i unused
    have nothing : d.entries = [] := by
      rw [← List.length_eq_zero_iff, inv.rep.length, ← inv.size, unused]
    have absent : m key = none := inv.rep.absent.mp (by simp [nothing])
    exact ⟨d, by rw [absent]; rfl, inv⟩
  rename_i used
  have some0 : e.ht0.size ≠ 0 := kept.table (by rwa [kept.size, ← inv.size])
  rw [eq, Option.bind_eq_bind, Option.bind_some]
  obtain ⟨absent, found⟩ | ⟨second, val, chain, value, found, -⟩ := kept.search some0 key
  · exact ⟨e, by rw [found, absent]; rfl, kept⟩
  · exact ⟨e, by rw [found, value]; rfl, kept⟩

/-! Runs of operations. -/

inductive Op (K V : Type)
  | add (key : K) (val : V)
  | replace (key : K) (val : V)
  | addOrFind (key : K) (val : V)
  | delete (key : K)
  | unlink (key : K)
  | find (key : K)
  | fetchValue (key : K)
  | size
  | empty
  | expand (size : ℕ)
  | tryExpand (size : ℕ) (allocated : Bool)
  | resize
  | rehashMilliseconds (rounds : ℕ)
  | pauseRehashing
  | resumeRehashing
  | setResizeEnabled (can : DictResizeEnable)

inductive Reply (K V : Type)
  | done
  | status (ok : Bool)
  | entry (he : Option (K × V))
  | value (val : Option V)
  | count (size : ℕ)

/-- The dictionary, and `dict_can_resize`. Operations that serve only the tables have no
reply. -/
def step (type : DictType K) : DictResizeEnable × Dict K V → Op K V →
    Option ((DictResizeEnable × Dict K V) × Reply K V)
  | (can, d), .add key val => do
      let (d, ok) ← dictAdd type can d key val
      some ((can, d), .status ok)
  | (can, d), .replace key val => do
      let (d, ok) ← dictReplace type can d key val
      some ((can, d), .status ok)
  | (can, d), .addOrFind key val => do
      let (d, he) ← dictAddOrFind type can d key val
      some ((can, d), .entry he)
  | (can, d), .delete key => do
      let (d, ok) ← dictDelete type can d key
      some ((can, d), .status ok)
  | (can, d), .unlink key => do
      let (d, he) ← dictUnlink type can d key
      some ((can, d), .entry he)
  | (can, d), .find key => do
      let (d, he) ← dictFind type can d key
      some ((can, d), .entry he)
  | (can, d), .fetchValue key => do
      let (d, val) ← dictFetchValue type can d key
      some ((can, d), .value val)
  | (can, d), .size => some ((can, d), .count d.dictSize)
  | (can, d), .empty => some ((can, d.dictEmpty), .done)
  | (can, d), .expand size => some ((can, (d.dictExpand size).1), .done)
  | (can, d), .tryExpand size allocated => some ((can, (d.dictTryExpand size allocated).1), .done)
  | (can, d), .resize => some ((can, (d.dictResize can).1), .done)
  | (can, d), .rehashMilliseconds rounds => do
      let (d, _) ← dictRehashMilliseconds type can d rounds
      some ((can, d), .done)
  | (can, d), .pauseRehashing => some ((can, d.dictPauseRehashing), .done)
  | (can, d), .resumeRehashing => some ((can, d.dictResumeRehashing), .done)
  | (_, d), .setResizeEnabled can => some ((can, d), .done)

def answers (type : DictType K) : DictResizeEnable × Dict K V → List (Op K V) →
    Option ((DictResizeEnable × Dict K V) × List (Reply K V))
  | s, [] => some (s, [])
  | s, op :: ops => do
      let (s, reply) ← step type s op
      let (s, replies) ← answers type s ops
      some (s, reply :: replies)

/-- What the operations are on a map. -/
noncomputable def mapStep (m : K → Option V) : Op K V → (K → Option V) × Reply K V
  | .add key val =>
      (if (m key).isNone then Function.update m key (some val) else m, .status (m key).isNone)
  | .replace key val => (Function.update m key (some val), .status (m key).isNone)
  | .addOrFind key val =>
      (Function.update m key (some ((m key).getD val)), .entry (some (key, (m key).getD val)))
  | .delete key => (Function.update m key none, .status (m key).isSome)
  | .unlink key => (Function.update m key none, .entry ((m key).map (key, ·)))
  | .find key => (m, .entry ((m key).map (key, ·)))
  | .fetchValue key => (m, .value (m key))
  | .size => (m, .count {k | (m k).isSome}.ncard)
  | .empty => (fun _ => none, .done)
  | _ => (m, .done)

noncomputable def mapAnswers (m : K → Option V) : List (Op K V) → (K → Option V) × List (Reply K V)
  | [] => (m, [])
  | op :: ops =>
      let (m, reply) := mapStep m op
      let (m, replies) := mapAnswers m ops
      (m, reply :: replies)

/-- No operation adds more than the key it is given. -/
theorem mapStep_grows (finite : {k | (m k).isSome}.Finite) (op : Op K V) :
    {k | ((mapStep m op).1 k).isSome}.ncard ≤ {k | (m k).isSome}.ncard + 1 := by
  have updated (key : K) (x : Option V) :
      {k | (Function.update m key x k).isSome}.ncard ≤ {k | (m k).isSome}.ncard + 1 := by
    have sub : {k | (Function.update m key x k).isSome} ⊆ insert key {k | (m k).isSome} := by
      intro k some
      by_cases same : k = key
      · exact .inl same
      · rw [Set.mem_ofPred_eq, Function.update_of_ne same] at some
        exact .inr some
    exact (Set.ncard_le_ncard sub (finite.insert key)).trans (Set.ncard_insert_le _ _)
  cases op with
  | add key val =>
    simp only [mapStep]
    split
    · exact updated key _
    · exact Nat.le_succ _
  | replace key val | addOrFind key val | delete key | unlink key => exact updated key _
  | empty => simp [mapStep]
  | _ => exact Nat.le_succ _

/-- An operation answers as the map's does, and leaves what the map's does. -/
theorem step_eq (inv : d.Inv type m) (fits : d.dictSize < 2 ^ 60) (op : Op K V) :
    ∃ s, step type (can, d) op = some (s, (mapStep m op).2) ∧ s.2.Inv type (mapStep m op).1 := by
  cases op with
  | add key val =>
    obtain ⟨e, eq, kept⟩ := inv.add can fits key val
    exact ⟨(can, e), by rw [step, eq]; rfl, kept⟩
  | replace key val =>
    obtain ⟨e, eq, kept⟩ := inv.replace can fits key val
    exact ⟨(can, e), by rw [step, eq]; rfl, kept⟩
  | addOrFind key val =>
    obtain ⟨e, eq, kept⟩ := inv.addOrFind can fits key val
    exact ⟨(can, e), by rw [step, eq]; rfl, kept⟩
  | delete key =>
    obtain ⟨e, eq, kept⟩ := inv.delete can key
    exact ⟨(can, e), by rw [step, dictDelete, eq, mapStep]; cases m key <;> rfl, kept⟩
  | unlink key =>
    obtain ⟨e, eq, kept⟩ := inv.delete can key
    exact ⟨(can, e), by rw [step, dictUnlink, eq]; rfl, kept⟩
  | find key =>
    obtain ⟨e, eq, kept⟩ := inv.find can key
    exact ⟨(can, e), by rw [step, eq]; rfl, kept⟩
  | fetchValue key =>
    obtain ⟨e, eq, kept⟩ := inv.find can key
    exact ⟨(can, e), by rw [step, dictFetchValue, eq, mapStep]; cases m key <;> rfl, kept⟩
  | size => exact ⟨(can, d), by rw [step, inv.size]; rfl, inv⟩
  | empty => exact ⟨_, rfl, Inv.create.of_tables rfl rfl rfl⟩
  | expand size => exact ⟨_, rfl, inv.expand size true⟩
  | tryExpand size allocated => exact ⟨_, rfl, inv.expand size allocated⟩
  | resize => exact ⟨_, rfl, inv.resize can⟩
  | rehashMilliseconds rounds =>
    simp only [step, dictRehashMilliseconds]
    split
    · exact ⟨_, rfl, inv⟩
    · obtain ⟨e, n, eq, kept⟩ := Inv.rehashMilliseconds can rounds inv
      exact ⟨(can, e), by rw [eq]; rfl, kept⟩
  | pauseRehashing => exact ⟨_, rfl, inv.of_tables rfl rfl rfl⟩
  | resumeRehashing => exact ⟨_, rfl, inv.of_tables rfl rfl rfl⟩
  | setResizeEnabled can => exact ⟨_, rfl, inv⟩

theorem answers_eq (ops : List (Op K V)) : ∀ (can : DictResizeEnable) {d : Dict K V}
    {m : K → Option V}, d.Inv type m → d.dictSize + ops.length ≤ 2 ^ 60 →
    ∃ s, answers type (can, d) ops = some (s, (mapAnswers m ops).2) ∧
      s.2.Inv type (mapAnswers m ops).1 := by
  induction ops with
  | nil => exact fun _ _ _ inv _ => ⟨_, rfl, inv⟩
  | cons op ops ih =>
    intro can d m inv fits
    rw [List.length_cons] at fits
    obtain ⟨⟨can', e⟩, eq, kept⟩ := step_eq can inv (by omega) op
    dsimp only at kept
    have grows : e.dictSize ≤ d.dictSize + 1 := by
      rw [kept.size, inv.size]
      exact mapStep_grows inv.rep.finite op
    obtain ⟨s, rest, last⟩ := ih can' kept (by omega)
    refine ⟨s, ?_, last⟩
    rw [answers, eq, Option.bind_eq_bind, Option.bind_some]
    dsimp only
    rw [rest]
    rfl

/-- Whatever is done with a new dictionary, it answers as a map, and the two tables
together hold the entries of that map, each once. -/
theorem dictionary_is_map (type : DictType K) (can : DictResizeEnable) (ops : List (Op K V))
    (fits : ops.length ≤ 2 ^ 60) :
    ∃ s, answers type (can, dictCreate) ops = some (s, (mapAnswers (fun _ => none) ops).2) ∧
      Represents s.2.entries (mapAnswers (fun _ => none) ops).1 := by
  have created : (dictCreate : Dict K V).Inv type fun _ => none := .create
  obtain ⟨s, eq, kept⟩ := answers_eq ops can created (by rwa [show (dictCreate : Dict K V).dictSize = 0 from rfl, zero_add])
  exact ⟨s, eq, kept.rep⟩

/-- Five keys of one bucket: the fifth starts a move to a larger table, and the keys are
found and deleted in the midst of it. -/
theorem dictionary_is_map_moving :
    let ops : List (Op (BitVec 64) ℕ) := [.add 0 1, .add 4 2, .add 8 3, .add 12 4, .add 16 5,
      .find 8, .replace 4 7, .delete 0, .fetchValue 4, .size]
    ∃ s, answers ⟨id, none⟩ (.enable, dictCreate) ops =
        some (s, (mapAnswers (fun _ => none) ops).2) ∧
      Represents s.2.entries (mapAnswers (fun _ => none) ops).1 :=
  dictionary_is_map _ _ _ (by decide)

end Dict
end Copier.Redis
