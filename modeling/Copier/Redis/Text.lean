import Mathlib.Algebra.Group.Int.Defs
import Mathlib.Algebra.Ring.Nat
import Mathlib.Data.List.Basic

/-! The C string functions the request parser calls, over a view of a
NUL-terminated buffer, and the two text parsers it applies to a line. -/
namespace Copier.Redis

abbrev Bytes := List UInt8

def NUL : UInt8 := 0
def LF : UInt8 := 10
def CR : UInt8 := 13
def QUOTE : UInt8 := 34
def DOLLAR : UInt8 := 36
def APOSTROPHE : UInt8 := 39
def STAR : UInt8 := 42
def MINUS : UInt8 := 45
def ZERO : UInt8 := 48
def BACKSLASH : UInt8 := 92

/-- ASCII text as bytes. -/
def ascii (s : String) : Bytes := s.toList.map fun c => UInt8.ofNat c.toNat

/-- Where a scan for `c` from `i` stops: at `c`, at a NUL, or after `fuel` bytes. -/
def scan (view : ℕ → UInt8) (c : UInt8) : ℕ → ℕ → ℕ
  | 0, i => i
  | fuel + 1, i => if view i = c ∨ view i = NUL then i else scan view c fuel (i + 1)

/-- `strchr(s + i, c)` as an index, reading at most `fuel` bytes. -/
def strchr (view : ℕ → UInt8) (c : UInt8) (fuel i : ℕ) : Option ℕ :=
  let stop := scan view c fuel i
  if stop < i + fuel ∧ view stop = c then some stop else none

/-- The bytes `lo ≤ i < hi` of the view. -/
def slice (view : ℕ → UInt8) (lo hi : ℕ) : Bytes := (List.range (hi - lo)).map fun k => view (lo + k)

theorem scan_le (view : ℕ → UInt8) (c : UInt8) (fuel i : ℕ) :
    i ≤ scan view c fuel i ∧ scan view c fuel i ≤ i + fuel := by
  induction fuel generalizing i with
  | zero => simp [scan]
  | succ fuel ih =>
    have rest := ih (i + 1)
    simp only [scan]
    split <;> omega

/-- A scan that stops in time depends only on the bytes up to where it stops. -/
theorem scan_congr {view other : ℕ → UInt8} {c : UInt8}
    (same : ∀ j, i ≤ j → j ≤ scan view c fuel i → view j = other j)
    (stops : scan view c fuel i < i + fuel) (enough : scan view c fuel i < i + budget) :
    scan other c budget i = scan view c fuel i := by
  induction fuel generalizing i budget with
  | zero => simp [scan] at stops
  | succ fuel ih =>
    have low := (scan_le view c (fuel + 1) i).1
    cases budget with
    | zero => omega
    | succ budget =>
      have here := same i (Nat.le_refl i) low
      simp only [scan, ← here] at same stops enough ⊢
      split
      · rfl
      · rename_i going
        rw [if_neg going] at same stops enough
        exact ih (fun j lower upper => same j (by omega) upper) (by omega) (by omega)

/-- A scan goes no further than a byte that ends it. -/
theorem scan_stops {view : ℕ → UInt8} {c : UInt8} (ends : view e = c ∨ view e = NUL) (low : i ≤ e) :
    scan view c fuel i ≤ e := by
  induction fuel generalizing i with
  | zero => exact low
  | succ fuel ih =>
    simp only [scan]
    split
    · exact low
    · rename_i going
      have later : i ≠ e := fun same => going (same ▸ ends)
      exact ih (by omega)

theorem scan_found {view : ℕ → UInt8} {c : UInt8} (stops : scan view c fuel i < i + fuel) :
    view (scan view c fuel i) = c ∨ view (scan view c fuel i) = NUL := by
  induction fuel generalizing i with
  | zero => exact absurd stops (Nat.lt_irrefl _)
  | succ fuel ih =>
    simp only [scan] at stops ⊢
    split
    · assumption
    · rename_i going
      rw [if_neg going] at stops
      exact ih (by omega)

theorem strchr_congr {view other : ℕ → UInt8} {c : UInt8}
    (same : ∀ j, i ≤ j → j ≤ scan view c fuel i → view j = other j)
    (stops : scan view c fuel i < i + fuel) (enough : scan view c fuel i < i + budget) :
    strchr other c budget i = strchr view c fuel i := by
  have stop := scan_congr same stops enough
  simp only [strchr, stop, same _ (scan_le view c fuel i).1 (Nat.le_refl _), stops, enough,
    true_and]

theorem strchr_some {view : ℕ → UInt8} {c : UInt8} (found : strchr view c fuel i = some j) :
    j = scan view c fuel i ∧ i ≤ j ∧ j < i + fuel ∧ view j = c := by
  simp only [strchr, Option.ite_none_right_eq_some] at found
  obtain ⟨⟨bound, here⟩, same⟩ := found
  cases same
  exact ⟨rfl, (scan_le view c fuel i).1, bound, here⟩

theorem slice_congr {view other : ℕ → UInt8} (same : ∀ j, lo ≤ j → j < hi → view j = other j) :
    slice other lo hi = slice view lo hi := by
  refine List.map_congr_left fun k member => ?_
  have bound := List.mem_range.mp member
  exact (same (lo + k) (by omega) (by omega)).symm

@[simp] theorem length_slice (view : ℕ → UInt8) (lo hi : ℕ) :
    (slice view lo hi).length = hi - lo := by simp [slice]

@[simp] theorem getElem_slice (view : ℕ → UInt8) (bound : k < (slice view lo hi).length) :
    (slice view lo hi)[k] = view (lo + k) := by simp [slice]

theorem getD_slice (view : ℕ → UInt8) (bound : k < hi - lo) :
    (slice view lo hi).getD k NUL = view (lo + k) := by
  simp [List.getD_eq_getElem?_getD, bound]

theorem drop_slice (view : ℕ → UInt8) (n : ℕ) :
    (slice view lo hi).drop n = slice view (lo + n) hi := by
  refine List.ext_getElem (by simp only [List.length_drop, length_slice]; omega) ?_
  intro k left right
  simp only [List.getElem_drop, getElem_slice, Nat.add_assoc]

theorem take_slice (view : ℕ → UInt8) (short : n ≤ hi - lo) :
    (slice view lo hi).take n = slice view lo (lo + n) := by
  refine List.ext_getElem (by simp only [List.length_take, length_slice]; omega) ?_
  intro k left right
  simp only [List.getElem_take, getElem_slice]

theorem slice_append (view : ℕ → UInt8) (low : lo ≤ mid) (high : mid ≤ hi) :
    slice view lo mid ++ slice view mid hi = slice view lo hi := by
  refine List.ext_getElem (by simp only [List.length_append, length_slice]; omega) ?_
  intro k left right
  rw [List.getElem_append]
  split
  · simp only [getElem_slice]
  · rename_i late
    have past := late
    simp only [length_slice] at past
    simp only [getElem_slice, length_slice]
    congr 1
    omega

theorem slice_shift (view : ℕ → UInt8) (pos n : ℕ) :
    slice (fun i => view (pos + i)) 0 n = slice view pos (pos + n) := by
  refine List.ext_getElem (by simp only [length_slice]; omega) ?_
  intro k left right
  simp only [getElem_slice, Nat.zero_add]

def ULLONG_MAX : ℕ := 2 ^ 64 - 1
def LLONG_MAX : ℕ := 2 ^ 63 - 1

def isDigit (b : UInt8) : Bool := 48 ≤ b.toNat && b.toNat ≤ 57

/-- The digit loop of `string2ll`: every remaining byte must be used, and each
step is checked against `ULLONG_MAX`. -/
def digits (v : ℕ) : Bytes → Option ℕ
  | [] => some v
  | b :: rest =>
      if isDigit b then
        if v > ULLONG_MAX / 10 then none
        else if v * 10 > ULLONG_MAX - (b.toNat - 48) then none
        else digits (v * 10 + (b.toNat - 48)) rest
      else none

def positive : Bytes → Option ℕ
  | [] => none
  | b :: rest => if 49 ≤ b.toNat ∧ b.toNat ≤ 57 then digits (b.toNat - 48) rest else none

def string2ll (s : Bytes) : Option Int :=
  match s with
  | [] => none
  | b :: rest =>
      if s = [ZERO] then some 0
      else if b = MINUS then
        (positive rest).bind fun v => if v > LLONG_MAX + 1 then none else some (-(v : Int))
      else (positive s).bind fun v => if v > LLONG_MAX then none else some (v : Int)

def isSpace (b : UInt8) : Bool := b.toNat = 32 || (9 ≤ b.toNat && b.toNat ≤ 13)

def hexDigit (b : UInt8) : Option ℕ :=
  if 48 ≤ b.toNat ∧ b.toNat ≤ 57 then some (b.toNat - 48)
  else if 97 ≤ b.toNat ∧ b.toNat ≤ 102 then some (b.toNat - 87)
  else if 65 ≤ b.toNat ∧ b.toNat ≤ 70 then some (b.toNat - 55)
  else none

/-- The escapes `\n \r \t \b \a`; any other escaped byte stands for itself. -/
def escape (b : UInt8) : UInt8 :=
  match b.toNat with
  | 110 => 10
  | 114 => 13
  | 116 => 9
  | 98 => 8
  | 97 => 7
  | _ => b

inductive Quoting
  | bare | double | single
deriving DecidableEq

/-- A closing quote must be followed by a space or nothing at all. -/
def closes (rest : Bytes) : Bool := rest.head?.all isSpace

/-- The byte `\xHH` that starts the text, if it starts with one. -/
def hexEscape (s : Bytes) : Option UInt8 :=
  if s.getD 0 NUL = BACKSLASH ∧ (s.getD 1 NUL).toNat = 120 then
    (hexDigit (s.getD 2 NUL)).bind fun high =>
      (hexDigit (s.getD 3 NUL)).map fun low => UInt8.ofNat (high * 16 + low)
  else none

/-- One token of `sdssplitargs` with what follows it; none on unbalanced quotes.
Every round uses at least one byte. -/
def token : ℕ → Quoting → Bytes → Bytes → Option (Bytes × Bytes)
  | 0, _, _, _ => none
  | fuel + 1, .double, current, s =>
      match hexEscape s, s with
      | some byte, s => token fuel .double (current ++ [byte]) (s.drop 4)
      | none, [] => none
      | none, b :: rest =>
          if b = BACKSLASH ∧ rest ≠ [] then
            token fuel .double (current ++ [escape (rest.headD NUL)]) rest.tail
          else if b = QUOTE then if closes rest then some (current, rest) else none
          else token fuel .double (current ++ [b]) rest
  | fuel + 1, .single, current, s =>
      match s with
      | [] => none
      | b :: rest =>
          if b = BACKSLASH ∧ rest.head? = some APOSTROPHE then
            token fuel .single (current ++ [APOSTROPHE]) rest.tail
          else if b = APOSTROPHE then if closes rest then some (current, rest) else none
          else token fuel .single (current ++ [b]) rest
  | fuel + 1, .bare, current, s =>
      match s with
      | [] => some (current, [])
      | b :: rest =>
          if b.toNat = 32 ∨ b = LF ∨ b = CR ∨ b.toNat = 9 then some (current, rest)
          else if b = QUOTE then token fuel .double current rest
          else if b = APOSTROPHE then token fuel .single current rest
          else token fuel .bare (current ++ [b]) rest

/-- `sdssplitargs`; every token uses at least one byte. -/
def splitFrom : ℕ → Bytes → Option (List Bytes)
  | 0, _ => none
  | fuel + 1, s =>
      match s.dropWhile isSpace with
      | [] => some []
      | b :: rest =>
          (token (rest.length + 2) .bare [] (b :: rest)).bind fun (arg, more) =>
            (splitFrom fuel more).map (arg :: ·)

def sdssplitargs (line : Bytes) : Option (List Bytes) := splitFrom (line.length + 1) line

end Copier.Redis
