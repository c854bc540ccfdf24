import Copier.Redis.AppendOnly

/-! What a server that starts reads out of the append only file: a command that is all
there as it was written, and a short read where one has been cut off. -/
namespace Copier.Redis.Aof
open Reply (decimal ll2string crlf)

/-! Numbers. -/

theorem digit_plain {b : UInt8} (digit : isDigit b = true) :
    isSpace b = false ∧ b ≠ 45 ∧ b ≠ 43 ∧ b ≠ LF ∧ b ≠ NUL := by
  simp only [isDigit, Bool.and_eq_true, decide_eq_true_eq] at digit
  refine ⟨?_, ?_, ?_, ?_, ?_⟩
  · simp only [isSpace, Bool.or_eq_false_iff, Bool.and_eq_false_iff, decide_eq_false_iff_not]
    omega
  all_goals
    rintro rfl
    exact absurd digit.1 (by decide)

theorem ll2string_digits (n : ℕ) : ∀ b ∈ ll2string n, isDigit b = true := by
  rw [ll2string, if_neg (by omega), Int.natAbs_natCast]
  rcases Nat.eq_zero_or_pos n with rfl | pos
  · intro b member
    have zero : b = ZERO := List.mem_singleton.mp member
    rw [zero]
    rfl
  · exact (decimal_canonical n pos).1.digits

theorem ll2string_value (n : ℕ) : digitsValue 0 (ll2string n) = n := by
  rw [ll2string, if_neg (by omega), Int.natAbs_natCast]
  rcases Nat.eq_zero_or_pos n with rfl | pos
  · rfl
  · exact (decimal_canonical n pos).2

theorem ll2string_cons (n : ℕ) : ∃ b s, ll2string n = b :: s ∧ (0 < n → 49 ≤ b.toNat) := by
  rw [ll2string, if_neg (by omega), Int.natAbs_natCast]
  obtain ⟨b, s, text, -, first⟩ := decimal_head n
  exact ⟨b, s, text, first⟩

theorem ll2string_length_le (n : ℕ) (fits : n < 2 ^ 63) : (ll2string n).length ≤ 19 := by
  rw [ll2string, if_neg (by omega), Int.natAbs_natCast]
  exact decimal_length_le 18 n (by omega)

theorem takeWhile_digits {s t : Bytes} (digits : ∀ b ∈ s, isDigit b = true)
    (stop : isDigit (t.headD NUL) = false) : (s ++ t).takeWhile isDigit = s := by
  rw [List.takeWhile_append_of_pos digits]
  cases t with
  | nil => exact List.append_nil s
  | cons b t => simpa [List.takeWhile_cons] using stop

/-- A text of digits, and whatever follows that is not one. -/
theorem strtol_digits {s t : Bytes} (digits : ∀ b ∈ s, isDigit b = true)
    (stop : isDigit (t.headD NUL) = false) (plain : s ≠ [] ∨ t = []) :
    strtol (s ++ t) = min (2 ^ 63 - 1) (digitsValue 0 s : Int) := by
  have value := congrArg (digitsValue 0) (takeWhile_digits digits stop)
  cases s with
  | nil =>
    cases plain.resolve_left (· rfl)
    rfl
  | cons b s =>
    obtain ⟨space, minus, plus, -⟩ := digit_plain (digits b List.mem_cons_self)
    rw [strtol, List.cons_append, List.dropWhile_cons_of_neg (by rw [space]; exact nofun)]
    split
    · rename_i same
      cases same
      exact absurd rfl minus
    · rename_i same
      cases same
      exact absurd rfl plus
    · rw [← List.cons_append, value]

theorem strtol_length {n : ℕ} (fits : n < 2 ^ 63) (rest : Bytes) :
    strtol (ll2string n ++ CR :: rest) = n := by
  have some : ll2string n ≠ [] := by
    obtain ⟨b, s, text, -⟩ := ll2string_cons n
    rw [text]
    exact nofun
  rw [strtol_digits (ll2string_digits n) rfl (.inl some), ll2string_value]
  omega

/-- The first digits of a length, and perhaps the CR behind it. -/
theorem strtol_start {n : ℕ} {s : Bytes} (start : s <+: ll2string n ++ [CR]) :
    0 ≤ strtol s ∧ strtol s ≤ n ∧ (s ≠ [] → 0 < n → 0 < strtol s) := by
  obtain ⟨b, text, spelled, first⟩ := ll2string_cons n
  obtain ⟨d, t, rfl, digits, stop, plain⟩ : ∃ d t, s = d ++ t ∧ d <+: ll2string n ∧
      isDigit (t.headD NUL) = false ∧ (d ≠ [] ∨ t = []) := by
    rcases List.prefix_concat_iff.mp start with rfl | inside
    · exact ⟨_, [CR], rfl, List.prefix_rfl, rfl, .inl (by rw [spelled]; exact nofun)⟩
    · exact ⟨s, [], (List.append_nil s).symm, inside, rfl, .inr rfl⟩
  have all : ∀ b ∈ d, isDigit b = true := fun b member =>
    ll2string_digits n b (digits.subset member)
  have whole : digitsValue 0 d ≤ n := by
    obtain ⟨more, rest⟩ := digits
    rw [← ll2string_value n, ← rest, digitsValue_append]
    exact digitsValue_ge _ _
  rw [strtol_digits all stop plain]
  refine ⟨by omega, by omega, fun some pos => ?_⟩
  cases d with
  | nil =>
    cases plain.resolve_left (· rfl)
    exact absurd rfl some
  | cons c d =>
    rw [spelled] at digits
    obtain rfl := (List.cons_prefix_cons.mp digits).1
    have low : 0 * 10 + (c.toNat - 48) ≤ digitsValue 0 (c :: d) := digitsValue_ge _ d
    have first := first pos
    omega

/-! Lines. -/

theorem lineLength_line {s : Bytes} (plain : LF ∉ s) (fits : s.length < size) (rest : Bytes) :
    lineLength size (s ++ LF :: rest) = s.length + 1 := by
  induction s generalizing size with
  | nil =>
    obtain ⟨size, rfl⟩ := Nat.exists_eq_add_of_le' fits
    rfl
  | cons b s ih =>
    obtain ⟨size, rfl⟩ := Nat.exists_eq_add_of_le' (Nat.lt_of_le_of_lt (Nat.zero_le _) fits)
    rw [List.mem_cons, not_or] at plain
    rw [List.length_cons] at fits ⊢
    rw [List.cons_append, lineLength, if_neg (Ne.symm plain.1), ih plain.2 (by omega)]

theorem lineLength_end {s : Bytes} (plain : LF ∉ s) (fits : s.length ≤ size) :
    lineLength size s = s.length := by
  induction s generalizing size with
  | nil => cases size <;> rfl
  | cons b s ih =>
    obtain ⟨size, rfl⟩ := Nat.exists_eq_add_of_le' (Nat.lt_of_lt_of_le (Nat.succ_pos _) fits)
    rw [List.mem_cons, not_or] at plain
    rw [List.length_cons] at fits ⊢
    rw [lineLength, if_neg (Ne.symm plain.1), ih plain.2 (by omega)]

section Header
variable {b : UInt8} {n : ℕ} {s : Bytes}

theorem header_plain (other : b ≠ LF) (n : ℕ) : LF ∉ b :: ll2string n ++ [CR] := by
  simp only [List.cons_append, List.mem_cons, List.mem_append, List.not_mem_nil, or_false, not_or]
  refine ⟨Ne.symm other, fun member => ?_, by decide⟩
  exact (digit_plain (ll2string_digits n _ member)).2.2.2.1 rfl

theorem fgets_header (other : b ≠ LF) (fits : n < 2 ^ 63) (rest : Bytes) :
    fgets 128 (b :: ll2string n ++ CR :: LF :: rest) =
      some (b :: ll2string n ++ CR :: [LF], rest) := by
  have short := ll2string_length_le n fits
  have line : lineLength 127 ((b :: ll2string n ++ [CR]) ++ LF :: rest) =
      (b :: ll2string n ++ [CR]).length + 1 :=
    lineLength_line (header_plain other n) (by simp; omega) rest
  have shape : b :: ll2string n ++ CR :: LF :: rest =
      (b :: ll2string n ++ CR :: [LF]) ++ rest := by simp
  have length : lineLength 127 (b :: ll2string n ++ CR :: LF :: rest) =
      (b :: ll2string n ++ CR :: [LF]).length := by
    rw [show b :: ll2string n ++ CR :: LF :: rest = (b :: ll2string n ++ [CR]) ++ LF :: rest by
      simp, line]
    simp
  rw [fgets, if_neg (by simp), List.splitAt_eq, length, shape, List.take_left, List.drop_left]

/-- A header that has been cut off is read to the end of the file. -/
theorem fgets_torn (other : b ≠ LF) (fits : n < 2 ^ 63) (start : s <+: b :: ll2string n ++ [CR])
    (some : s ≠ []) : fgets 128 s = Option.some (s, []) := by
  have short := ll2string_length_le n fits
  have bound := start.length_le
  simp only [List.length_append, List.length_cons, List.length_nil] at bound
  have plain : LF ∉ s := fun member => header_plain other n (start.subset member)
  rw [fgets, if_neg some, List.splitAt_eq, lineLength_end plain (by omega), List.take_length,
    List.drop_length]

end Header

/-! Commands. -/

/-- Lengths as the types of the server can hold them. -/
structure Fits (argv : List Bytes) : Prop where
  some : argv ≠ []
  argc : argv.length < 2 ^ 31
  lengths : ∀ arg ∈ argv, arg.length < 2 ^ 63

theorem prefix_split {α : Type} {part s t : List α} (start : part <+: s ++ t) :
    (part <+: s ∧ part.length < s.length) ∨ ∃ more, part = s ++ more ∧ more <+: t := by
  by_cases short : part.length < s.length
  · exact .inl ⟨List.prefix_of_prefix_length_le start (List.prefix_append _ _) (Nat.le_of_lt short),
      short⟩
  · obtain ⟨more, rfl⟩ : s <+: part :=
      List.prefix_of_prefix_length_le (List.prefix_append _ _) start (Nat.le_of_not_lt short)
    exact .inr ⟨more, rfl, (List.prefix_append_right_inj s).mp start⟩

theorem readArgs_bulk {arg : Bytes} (fits : arg.length < 2 ^ 63) (argc : ℕ) (argv : List Bytes)
    (rest : Bytes) :
    readArgs (argc + 1) argv (bulkArg arg ++ rest) = readArgs argc (argv ++ [arg]) rest := by
  have len : strtol (ll2string arg.length ++ CR :: [LF]) = arg.length := strtol_length fits [LF]
  rw [bulkArg_eq, readArgs, fgets_header (by decide) fits]
  dsimp only
  rw [if_neg (by simp)]
  simp only [List.cons_append, List.drop_succ_cons, List.drop_zero, len, Int.toNat_natCast]
  rw [if_neg (by omega), if_neg (by simp), if_neg (by simp [crlf]), List.take_left,
    ← List.drop_drop, List.drop_left]
  rfl

theorem readArgs_args {more : List Bytes} (fits : ∀ arg ∈ more, arg.length < 2 ^ 63)
    (argv : List Bytes) (rest : Bytes) :
    readArgs more.length argv (more.flatMap bulkArg ++ rest) = .command (argv ++ more) rest := by
  induction more generalizing argv with
  | nil => rw [List.append_nil]; rfl
  | cons arg more ih =>
    obtain ⟨first, fits⟩ := List.forall_mem_cons.mp fits
    rw [List.length_cons, List.flatMap_cons, List.append_assoc, readArgs_bulk first, ih fits,
      List.append_assoc, List.singleton_append]

theorem readArgs_torn {more : List Bytes} {part : Bytes} (fits : ∀ arg ∈ more, arg.length < 2 ^ 63)
    (argv : List Bytes) (start : part <+: more.flatMap bulkArg)
    (short : part.length < (more.flatMap bulkArg).length) :
    readArgs more.length argv part = .short := by
  induction more generalizing argv part with
  | nil => cases short
  | cons arg more ih =>
    obtain ⟨first, fits⟩ := List.forall_mem_cons.mp fits
    rw [List.flatMap_cons] at start short
    rcases prefix_split start with ⟨inside, less⟩ | ⟨more', rfl, behind⟩
    · rw [List.length_cons, readArgs]
      cases part with
      | nil => rfl
      | cons b part =>
        have whole : bulkArg arg = (DOLLAR :: ll2string arg.length ++ [CR]) ++
            (LF :: (arg ++ crlf)) := by
          simp [bulkArg, crlf]
        rw [whole] at inside less
        rcases prefix_split inside with ⟨header, -⟩ | ⟨tail, same, behind⟩
        · -- the length itself is cut off
          obtain ⟨rfl, digits⟩ := List.cons_prefix_cons.mp header
          rw [fgets_torn (by decide) first header (List.cons_ne_nil _ _)]
          obtain ⟨low, -⟩ := strtol_start digits
          dsimp only
          rw [if_neg (by simp), List.drop_succ_cons, List.drop_zero, if_neg (by omega)]
          split
          · rfl
          · rw [if_pos (by simp)]
        · rw [same] at less ⊢
          cases tail with
          | nil =>
            rw [List.append_nil, fgets_torn (by decide) first List.prefix_rfl (List.cons_ne_nil _ _)]
            obtain ⟨low, -⟩ := strtol_start (s := ll2string arg.length ++ [CR]) List.prefix_rfl
            dsimp only
            rw [if_neg (by simp), List.cons_append, List.drop_succ_cons, List.drop_zero,
              if_neg (by omega)]
            split
            · rfl
            · rw [if_pos (by simp)]
          | cons c tail =>
            obtain ⟨rfl, behind⟩ := List.cons_prefix_cons.mp behind
            have len : strtol (ll2string arg.length ++ CR :: [LF]) = arg.length :=
              strtol_length first [LF]
            rw [show DOLLAR :: ll2string arg.length ++ [CR] ++ LF :: tail =
              DOLLAR :: ll2string arg.length ++ CR :: LF :: tail by simp,
              fgets_header (by decide) first]
            dsimp only
            rw [if_neg (by simp)]
            simp only [List.cons_append, List.drop_succ_cons, List.drop_zero, len,
              Int.toNat_natCast]
            rw [if_neg (by omega)]
            simp only [List.length_append, List.length_cons, List.length_nil, crlf] at less
            split
            · rfl
            · rw [if_pos (by rw [List.length_drop]; omega)]
    · rw [List.length_append, List.length_append] at short
      rw [List.length_cons, readArgs_bulk first]
      exact ih fits _ behind (by omega)

theorem atoi_argc {n : ℕ} (fits : n < 2 ^ 31) (rest : Bytes) :
    atoi (ll2string n ++ CR :: rest) = n := by
  rw [atoi, strtol_length (by omega), Int.bmod_eq_of_le] <;> omega

theorem encode_shape (argv : List Bytes) : encode argv =
    (STAR :: ll2string argv.length ++ [CR]) ++ (LF :: argv.flatMap bulkArg) := by
  have shape := encode_eq argv []
  rw [List.append_nil, List.append_nil] at shape
  rw [shape]
  simp

/-- A command that is all there. -/
theorem readCommand_encode {argv : List Bytes} (fits : Fits argv) (rest : Bytes) :
    readCommand (encode argv ++ rest) = .command argv rest := by
  have pos := List.length_pos_of_ne_nil fits.some
  have argc := fits.argc
  have number : atoi (ll2string argv.length ++ CR :: [LF]) = argv.length := atoi_argc argc [LF]
  obtain ⟨b, s, text, -⟩ := ll2string_cons argv.length
  have digit := ll2string_digits argv.length b (by rw [text]; exact List.mem_cons_self)
  rw [encode_eq, readCommand, fgets_header (by decide) (by omega)]
  dsimp only
  rw [if_neg (by simp)]
  simp only [List.cons_append, List.getD_cons_succ, List.drop_succ_cons, List.drop_zero, number]
  rw [if_neg, if_neg (by omega), Int.toNat_natCast, readArgs_args fits.lengths, List.nil_append]
  rw [text]
  exact (digit_plain digit).2.2.2.2

/-- A command that has been cut off. -/
theorem readCommand_torn {argv : List Bytes} {part : Bytes} (fits : Fits argv)
    (start : part <+: encode argv) (short : part.length < (encode argv).length)
    (some : part ≠ []) : readCommand part = .short := by
  have pos := List.length_pos_of_ne_nil fits.some
  have argc := fits.argc
  rw [encode_shape] at start short
  have torn (header : part <+: STAR :: ll2string argv.length ++ [CR]) :
      readCommand part = .short := by
    rw [readCommand, fgets_torn (by decide) (by omega) header some]
    obtain ⟨b, part, rfl⟩ := List.exists_cons_of_ne_nil some
    obtain ⟨rfl, digits⟩ := List.cons_prefix_cons.mp header
    have bound := header.length_le
    have size := ll2string_length_le argv.length (by omega)
    simp only [List.length_append, List.length_cons, List.length_nil] at bound
    have plain : LF ∉ STAR :: part := fun member =>
      header_plain (by decide) argv.length (header.subset member)
    dsimp only
    rw [if_neg (by simp)]
    split
    · rw [if_pos ⟨by simp; omega, plain⟩]
    · rename_i more
      obtain ⟨low, high, first⟩ := strtol_start digits
      have some : part ≠ [] := by
        rintro rfl
        exact more rfl
      have first := first some pos
      have number : atoi part = strtol part := by
        rw [atoi, Int.bmod_eq_of_le] <;> omega
      rw [List.drop_succ_cons, List.drop_zero, number, if_neg (by omega)]
      obtain ⟨k, argc⟩ : ∃ k, (strtol part).toNat = k + 1 := ⟨(strtol part).toNat - 1, by omega⟩
      rw [argc]
      rfl
  rcases prefix_split start with ⟨header, -⟩ | ⟨tail, rfl, behind⟩
  · exact torn header
  · cases tail with
    | nil => exact torn (by simp)
    | cons c tail =>
      obtain ⟨rfl, inside⟩ := List.cons_prefix_cons.mp behind
      have number : atoi (ll2string argv.length ++ CR :: [LF]) = argv.length := atoi_argc argc [LF]
      obtain ⟨b, s, text, -⟩ := ll2string_cons argv.length
      have digit := ll2string_digits argv.length b (by rw [text]; exact List.mem_cons_self)
      rw [show STAR :: ll2string argv.length ++ [CR] ++ LF :: tail =
        STAR :: ll2string argv.length ++ CR :: LF :: tail by simp, readCommand,
        fgets_header (by decide) (by omega)]
      dsimp only
      rw [if_neg (by simp)]
      simp only [List.cons_append, List.getD_cons_succ, List.drop_succ_cons, List.drop_zero, number]
      rw [if_neg, if_neg (by omega), Int.toNat_natCast]
      · refine readArgs_torn fits.lengths [] inside ?_
        simp only [List.length_append, List.length_cons] at short
        omega
      · rw [text]
        exact (digit_plain digit).2.2.2.2

end Copier.Redis.Aof
