import Copier.OpenSSL.Records

/-! The decryption of a record in chunks, each of them after a wait for its first byte, beside
the decryption by a single call. -/
namespace Copier.OpenSSL
variable {κ : Type}

/-- How many of `n` bytes `AES_gcm_decrypt` processes. -/
def processed (n : ℕ) : ℕ := n / 96 * 96

/-- The bytes left over from the last block. -/
def leftover (mres : ℕ) : ℕ := (16 - mres) % 16

/-- `AES_gcm_decrypt`, from the counter and the hash to the counter and the hash; what it
returns is the length of its output. -/
abbrev Decryptor (κ : Type) := κ → Bytes → Bytes × κ

/-- Whole multiples of 96 bytes are processed, and consecutive calls compose. -/
structure Composes (AES_gcm_decrypt : Decryptor κ) : Prop where
  length : ∀ s xs, (AES_gcm_decrypt s xs).1.length = processed xs.length
  whole : ∀ s xs, AES_gcm_decrypt s xs = AES_gcm_decrypt s (xs.take (processed xs.length))
  append : ∀ s xs ys, 96 ∣ xs.length → 96 ∣ ys.length → AES_gcm_decrypt s (xs ++ ys) =
    ((AES_gcm_decrypt s xs).1 ++ (AES_gcm_decrypt (AES_gcm_decrypt s xs).2 ys).1,
      (AES_gcm_decrypt (AES_gcm_decrypt s xs).2 ys).2)

/-- A wait for the descriptor, or a byte of the record that is read. -/
inductive Look
  | wait (target : ℕ)
  | read (i : ℕ)
deriving DecidableEq

def reads (lo n : ℕ) : List Look := (List.range n).map fun k => .read (lo + k)

/-- The counter and the hash, and `len.u[1]`. -/
structure Gcm (κ : Type) where
  state : κ
  len : UInt64

/-- What the update has come to when only the last bytes are left. -/
structure Update (κ : Type) where
  plain : Bytes
  bulk : ℕ
  gcm : Gcm κ

/-- The loop: `current_in` and `current_out` are `bulk` bytes from the start. -/
structure Loop (κ : Type) where
  bulk : ℕ
  remaining_len : ℕ
  state : κ
  plain : Bytes
  looks : List Look

def chunkSize (remaining_len : ℕ) : ℕ :=
  if DECRYPT_CHUNK_SIZE ≤ remaining_len then DECRYPT_CHUNK_SIZE else remaining_len

section Functions
variable (AES_gcm_decrypt : Decryptor κ) (input : Bytes)

def Loop.chunk (x : Loop κ) : Bytes × κ :=
  AES_gcm_decrypt x.state ((input.drop x.bulk).take (chunkSize x.remaining_len))

def Loop.turn (x : Loop κ) : Loop κ where
  bulk := x.bulk + (x.chunk AES_gcm_decrypt input).1.length
  remaining_len := x.remaining_len - (x.chunk AES_gcm_decrypt input).1.length
  state := (x.chunk AES_gcm_decrypt input).2
  plain := x.plain ++ (x.chunk AES_gcm_decrypt input).1
  looks := x.looks ++ .wait x.bulk :: reads x.bulk (x.chunk AES_gcm_decrypt input).1.length

/-- A chunk that is not processed whole is the last one. -/
def Loop.run (x : Loop κ) : Loop κ :=
  if 0 < x.remaining_len then
    if chunkSize x.remaining_len = (x.chunk AES_gcm_decrypt input).1.length then
      (x.turn AES_gcm_decrypt input).run
    else x.turn AES_gcm_decrypt input
  else x
termination_by x.remaining_len
decreasing_by
  have size : 0 < chunkSize x.remaining_len := by
    unfold chunkSize DECRYPT_CHUNK_SIZE
    split <;> omega
  simp only [Loop.turn]
  omega

/-- The loop as it is entered. -/
def Loop.start (gcm : Gcm κ) (res : ℕ) : Loop κ := ⟨res, input.length - res, gcm.state, [], []⟩

def asyncUpdate (gcm : Gcm κ) (res : ℕ) : Update κ :=
  let x := (Loop.start input gcm res).run AES_gcm_decrypt input
  ⟨x.plain, x.bulk, ⟨x.state, gcm.len + UInt64.ofNat (x.bulk - res)⟩⟩

def directUpdate (gcm : Gcm κ) (res : ℕ) : Update κ :=
  let (plain, state) := AES_gcm_decrypt gcm.state (input.drop res)
  ⟨plain, plain.length + res, ⟨state, gcm.len + UInt64.ofNat plain.length⟩⟩

/-- What is looked at: the bytes left over by `CRYPTO_gcm128_decrypt`, the chunks, and the
last bytes by `CRYPTO_gcm128_decrypt_ctr32`. -/
def looks (gcm : Gcm κ) (res : ℕ) : List Look :=
  let x := (Loop.start input gcm res).run AES_gcm_decrypt input
  reads 0 res ++ x.looks ++ reads x.bulk (input.length - x.bulk)

end Functions

/-- What the loop looks at from `bulk` on, with so many bytes remaining. -/
inductive Turns : ℕ → ℕ → List Look → Prop where
  | done (bulk) : Turns bulk 0 []
  | last (bulk) : 0 < n → n < DECRYPT_CHUNK_SIZE → Turns bulk n (.wait bulk :: reads bulk (processed n))
  | more : Turns (bulk + DECRYPT_CHUNK_SIZE) n ls →
      Turns bulk (n + DECRYPT_CHUNK_SIZE) (.wait bulk :: reads bulk DECRYPT_CHUNK_SIZE ++ ls)

section Chunks
variable {AES_gcm_decrypt : Decryptor κ} {input : Bytes} {x : Loop κ}

theorem processed_le (n : ℕ) : processed n ≤ n := Nat.div_mul_le_self n 96

theorem processed_add (n : ℕ) : processed (DECRYPT_CHUNK_SIZE + n) = DECRYPT_CHUNK_SIZE + processed n := by
  unfold processed DECRYPT_CHUNK_SIZE
  omega

theorem Composes.then (composes : Composes AES_gcm_decrypt) (s : κ) {xs : Bytes} (ys : Bytes)
    (even : 96 ∣ xs.length) : AES_gcm_decrypt s (xs ++ ys) =
      ((AES_gcm_decrypt s xs).1 ++ (AES_gcm_decrypt (AES_gcm_decrypt s xs).2 ys).1,
        (AES_gcm_decrypt (AES_gcm_decrypt s xs).2 ys).2) := by
  obtain ⟨k, length⟩ := even
  have both : processed (xs ++ ys).length = xs.length + processed ys.length := by
    rw [List.length_append, length]
    unfold processed
    omega
  have front : (xs ++ ys).take (xs.length + processed ys.length) = xs ++ ys.take (processed ys.length) := by
    rw [List.take_append, List.take_of_length_le (by omega), Nat.add_sub_cancel_left]
  rw [composes.whole s (xs ++ ys), both, front, composes.append s xs _ ⟨k, length⟩,
    ← composes.whole]
  rw [List.length_take_of_le (processed_le _)]
  exact ⟨ys.length / 96, Nat.mul_comm _ _⟩

theorem Loop.run_stop (none : x.remaining_len = 0) : x.run AES_gcm_decrypt input = x := by
  rw [Loop.run, if_neg (by omega)]

theorem Loop.length_chunk (composes : Composes AES_gcm_decrypt)
    (fits : x.bulk + x.remaining_len = input.length) :
    (x.chunk AES_gcm_decrypt input).1.length = processed (chunkSize x.remaining_len) := by
  have size : chunkSize x.remaining_len ≤ x.remaining_len := by
    unfold chunkSize
    split <;> omega
  rw [Loop.chunk, composes.length, List.length_take_of_le]
  rw [List.length_drop]
  omega

theorem chunkSize_of_le (all : n ≤ DECRYPT_CHUNK_SIZE) : chunkSize n = n := by
  unfold chunkSize
  split
  · exact Nat.le_antisymm ‹_› all
  · rfl

/-- The last turn. -/
theorem Loop.run_last (some : 0 < x.remaining_len) (all : x.remaining_len ≤ DECRYPT_CHUNK_SIZE) :
    x.run AES_gcm_decrypt input = x.turn AES_gcm_decrypt input := by
  rw [Loop.run, if_pos some]
  split
  · rename_i whole
    refine Loop.run_stop ?_
    rw [Loop.turn, ← whole, chunkSize_of_le all, Nat.sub_self]
  · rfl

theorem Loop.length_full (composes : Composes AES_gcm_decrypt)
    (fits : x.bulk + x.remaining_len = input.length) (more : DECRYPT_CHUNK_SIZE ≤ x.remaining_len) :
    (x.chunk AES_gcm_decrypt input).1.length = DECRYPT_CHUNK_SIZE := by
  have size : chunkSize x.remaining_len = DECRYPT_CHUNK_SIZE := if_pos more
  rw [Loop.length_chunk composes fits, size]
  rfl

theorem Loop.run_more (composes : Composes AES_gcm_decrypt)
    (fits : x.bulk + x.remaining_len = input.length) (more : DECRYPT_CHUNK_SIZE ≤ x.remaining_len) :
    x.run AES_gcm_decrypt input = (x.turn AES_gcm_decrypt input).run AES_gcm_decrypt input := by
  have some : 0 < x.remaining_len := Nat.lt_of_lt_of_le (by decide) more
  have size : chunkSize x.remaining_len = DECRYPT_CHUNK_SIZE := if_pos more
  rw [Loop.run, if_pos some, if_pos]
  rw [Loop.length_full composes fits more, size]

/-- The loop has done to the remaining bytes what one call does. -/
structure Loop.Finished (AES_gcm_decrypt : Decryptor κ) (input : Bytes) (x y : Loop κ) : Prop where
  bulk : y.bulk = x.bulk + processed x.remaining_len
  plain : y.plain = x.plain ++ (AES_gcm_decrypt x.state (input.drop x.bulk)).1
  state : y.state = (AES_gcm_decrypt x.state (input.drop x.bulk)).2
  looks : ∃ ls, Turns x.bulk x.remaining_len ls ∧ y.looks = x.looks ++ ls

theorem Loop.turn_finished (composes : Composes AES_gcm_decrypt)
    (fits : x.bulk + x.remaining_len = input.length) (some : 0 < x.remaining_len)
    (all : x.remaining_len ≤ DECRYPT_CHUNK_SIZE) :
    Loop.Finished AES_gcm_decrypt input x (x.turn AES_gcm_decrypt input) := by
  have length := Loop.length_chunk composes fits
  have rest : x.chunk AES_gcm_decrypt input = AES_gcm_decrypt x.state (input.drop x.bulk) := by
    rw [Loop.chunk, chunkSize_of_le all, List.take_of_length_le]
    rw [List.length_drop]
    omega
  rw [chunkSize_of_le all] at length
  constructor
  · rw [Loop.turn, length]
  · rw [Loop.turn, rest]
  · rw [Loop.turn, rest]
  · rcases Nat.lt_or_eq_of_le all with short | full
    · refine ⟨_, .last x.bulk some short, ?_⟩
      rw [Loop.turn, length]
    · refine ⟨.wait x.bulk :: reads x.bulk DECRYPT_CHUNK_SIZE ++ [], ?_, ?_⟩
      · rw [full, ← Nat.zero_add DECRYPT_CHUNK_SIZE]
        exact .more (.done _)
      · rw [Loop.turn, length, full, List.append_nil]
        rfl

/-- A full chunk before the others. -/
theorem Loop.Finished.before {y : Loop κ} (composes : Composes AES_gcm_decrypt)
    (fits : x.bulk + x.remaining_len = input.length) (more : DECRYPT_CHUNK_SIZE ≤ x.remaining_len)
    (finished : Loop.Finished AES_gcm_decrypt input (x.turn AES_gcm_decrypt input) y) :
    Loop.Finished AES_gcm_decrypt input x y := by
  obtain ⟨n, remaining⟩ := Nat.exists_eq_add_of_le more
  have length := Loop.length_full composes fits more
  have size : chunkSize x.remaining_len = DECRYPT_CHUNK_SIZE := if_pos more
  have first : x.chunk AES_gcm_decrypt input =
      AES_gcm_decrypt x.state ((input.drop x.bulk).take DECRYPT_CHUNK_SIZE) := by
    rw [Loop.chunk, size]
  have next : (x.turn AES_gcm_decrypt input).remaining_len = n := by
    rw [Loop.turn, length, remaining, Nat.add_sub_cancel_left]
  have here : (x.turn AES_gcm_decrypt input).bulk = x.bulk + DECRYPT_CHUNK_SIZE := by
    rw [Loop.turn, length]
  have state : (x.turn AES_gcm_decrypt input).state =
      (AES_gcm_decrypt x.state ((input.drop x.bulk).take DECRYPT_CHUNK_SIZE)).2 := by
    rw [Loop.turn, first]
  have even : 96 ∣ ((input.drop x.bulk).take DECRYPT_CHUNK_SIZE).length := by
    rw [List.length_take_of_le (by rw [List.length_drop]; omega)]
    exact ⟨10, rfl⟩
  have both := composes.then x.state (input.drop (x.bulk + DECRYPT_CHUNK_SIZE)) even
  rw [← List.drop_drop, List.take_append_drop, List.drop_drop] at both
  obtain ⟨ls, turns, seen⟩ := finished.looks
  rw [next, here] at turns
  constructor
  · rw [finished.bulk, here, next, remaining, processed_add, Nat.add_assoc]
  · rw [finished.plain, here, state, both, Loop.turn, first, List.append_assoc]
  · rw [finished.state, here, state, both]
  · refine ⟨.wait x.bulk :: reads x.bulk DECRYPT_CHUNK_SIZE ++ ls, ?_, ?_⟩
    · rw [remaining, Nat.add_comm]
      exact .more turns
    · rw [seen, Loop.turn, length]
      simp only [List.append_assoc, List.cons_append]

theorem Loop.run_finished (composes : Composes AES_gcm_decrypt) (x : Loop κ)
    (fits : x.bulk + x.remaining_len = input.length) (some : 0 < x.remaining_len) :
    Loop.Finished AES_gcm_decrypt input x (x.run AES_gcm_decrypt input) := by
  by_cases all : x.remaining_len ≤ DECRYPT_CHUNK_SIZE
  · rw [Loop.run_last some all]
    exact Loop.turn_finished composes fits some all
  · have more : DECRYPT_CHUNK_SIZE ≤ x.remaining_len := by omega
    have length := Loop.length_full composes fits more
    have next : (x.turn AES_gcm_decrypt input).remaining_len = x.remaining_len - DECRYPT_CHUNK_SIZE := by
      rw [Loop.turn, length]
    have here : (x.turn AES_gcm_decrypt input).bulk = x.bulk + DECRYPT_CHUNK_SIZE := by
      rw [Loop.turn, length]
    rw [Loop.run_more composes fits more]
    refine .before composes fits more (Loop.run_finished composes _ ?_ ?_) <;> omega
termination_by x.remaining_len
decreasing_by
  rw [next]
  exact Nat.sub_lt some (by decide)

end Chunks

section Looks
variable {bulk n k : ℕ} {ls : List Look}

theorem mem_reads {lo : ℕ} {look : Look} : look ∈ reads lo n ↔ ∃ k < n, look = .read (lo + k) := by
  simp only [reads, List.mem_map, List.mem_range]
  exact ⟨fun ⟨k, bound, same⟩ => ⟨k, bound, same.symm⟩, fun ⟨k, bound, same⟩ => ⟨k, bound, same.symm⟩⟩

theorem read_mem_reads {lo : ℕ} : Look.read k ∈ reads lo n ↔ lo ≤ k ∧ k < lo + n := by
  rw [mem_reads]
  constructor
  · rintro ⟨j, bound, same⟩
    cases same
    omega
  · rintro ⟨low, high⟩
    exact ⟨k - lo, by omega, by rw [Nat.add_sub_cancel' low]⟩

theorem wait_not_mem_reads {lo : ℕ} : Look.wait k ∉ reads lo n := by
  rw [mem_reads]
  rintro ⟨j, -, same⟩
  cases same

/-- Every wait is for a byte of the record. -/
theorem Turns.wait_inside (turns : Turns bulk n ls) (waits : .wait k ∈ ls) :
    bulk ≤ k ∧ k < bulk + n := by
  induction turns with
  | done => cases waits
  | last bulk some short =>
    rcases List.mem_cons.mp waits with same | later
    · cases same
      omega
    · exact absurd later wait_not_mem_reads
  | more rest ih =>
    rw [List.cons_append, List.mem_cons, List.mem_append] at waits
    rcases waits with same | read | later
    · cases same
      exact ⟨Nat.le_refl _, Nat.lt_add_of_pos_right (Nat.add_pos_right _ (by decide))⟩
    · exact absurd read wait_not_mem_reads
    · have := ih later
      omega

theorem Turns.read_iff (turns : Turns bulk n ls) :
    .read k ∈ ls ↔ bulk ≤ k ∧ k < bulk + processed n := by
  induction turns with
  | done bulk =>
    have none : bulk + processed 0 = bulk := rfl
    rw [none]
    constructor
    · intro read
      cases read
    · intro bound
      omega
  | last bulk some short =>
    rw [List.mem_cons, read_mem_reads]
    exact ⟨fun read => read.resolve_left (by rintro ⟨⟩), .inr⟩
  | @more bulk n ls rest ih =>
    rw [List.cons_append, List.mem_cons, List.mem_append, read_mem_reads, ih, Nat.add_comm n,
      processed_add]
    constructor
    · rintro (same | read | later)
      · cases same
      · omega
      · omega
    · intro bound
      by_cases first : k < bulk + DECRYPT_CHUNK_SIZE
      · exact .inr (.inl ⟨bound.1, first⟩)
      · exact .inr (.inr ⟨by omega, by omega⟩)

/-- Unless a single byte is left over, no wait is for the last one. -/
theorem Turns.wait_before (turns : Turns bulk n ls) (several : n % DECRYPT_CHUNK_SIZE ≠ 1)
    (waits : .wait k ∈ ls) : k + 1 < bulk + n := by
  induction turns with
  | done => cases waits
  | @last n bulk some short =>
    have two : n ≠ 1 := by
      rintro rfl
      exact several rfl
    rcases List.mem_cons.mp waits with same | later
    · cases same
      omega
    · exact absurd later wait_not_mem_reads
  | @more bulk n ls rest ih =>
    rw [Nat.add_mod_right] at several
    rw [List.cons_append, List.mem_cons, List.mem_append] at waits
    rcases waits with same | read | later
    · cases same
      unfold DECRYPT_CHUNK_SIZE
      omega
    · exact absurd read wait_not_mem_reads
    · have := ih several later
      omega

/-- A single byte left over is waited for, after everything else was read. -/
theorem Turns.single (turns : Turns bulk n ls) (single : n % DECRYPT_CHUNK_SIZE = 1) :
    ∃ before, ls = before ++ [.wait (bulk + (n - 1))] ∧
      (∀ k, .wait k ∈ before → k + 2 < bulk + n) ∧
      ∀ k, .read k ∈ before ↔ bulk ≤ k ∧ k < bulk + (n - 1) := by
  induction turns with
  | done => exact absurd single (by decide)
  | @last n bulk some short =>
    rw [Nat.mod_eq_of_lt short] at single
    subst single
    refine ⟨[], rfl, by simp, fun k => ?_⟩
    constructor
    · intro read
      cases read
    · intro bound
      omega
  | @more bulk n ls rest ih =>
    rw [Nat.add_mod_right] at single
    obtain ⟨before, rfl, waits, read⟩ := ih single
    have some : 0 < n := by
      rcases Nat.eq_zero_or_pos n with rfl | some
      · exact absurd single (by decide)
      · exact some
    refine ⟨.wait bulk :: reads bulk DECRYPT_CHUNK_SIZE ++ before, ?_, fun k member => ?_, fun k => ?_⟩
    · have last : bulk + DECRYPT_CHUNK_SIZE + (n - 1) = bulk + (n + DECRYPT_CHUNK_SIZE - 1) := by omega
      rw [last, List.append_assoc]
    · rw [List.cons_append, List.mem_cons, List.mem_append] at member
      rcases member with same | earlier | later
      · cases same
        unfold DECRYPT_CHUNK_SIZE
        omega
      · exact absurd earlier wait_not_mem_reads
      · have := waits k later
        omega
    · rw [List.cons_append, List.mem_cons, List.mem_append, read_mem_reads, read]
      constructor
      · rintro (same | earlier | later)
        · cases same
        · omega
        · omega
      · intro bound
        by_cases first : k < bulk + DECRYPT_CHUNK_SIZE
        · exact .inr (.inl ⟨bound.1, first⟩)
        · exact .inr (.inr ⟨by omega, by omega⟩)

end Looks

/-- The loop over ciphertext up to the descriptor `d` ends, and as the single call does. -/
structure SameUpdate (AES_gcm_decrypt : Decryptor κ) (input : Bytes) (gcm : Gcm κ) (res : ℕ) (d : Int) :
    Prop where
  waits : ∀ target : ℕ, .wait target ∈ ((Loop.start input gcm res).run AES_gcm_decrypt input).looks →
    (target : Int) ≤ d
  update : asyncUpdate AES_gcm_decrypt input gcm res = directUpdate AES_gcm_decrypt input gcm res

/-- The descriptor, `d0` when the update begins, as it is at each look. -/
structure Arrival (d0 : Int) (ls : List Look) (d : ℕ → Int) : Prop where
  start : d0 ≤ d 0
  grows : ∀ i j, i ≤ j → d i ≤ d j
  waited : ∀ i (target : ℕ), ls[i]? = some (.wait target) → (target : Int) ≤ d i

def Arrived (ls : List Look) (d : ℕ → Int) : Prop :=
  ∀ i (k : ℕ), ls[i]? = some (.read k) → (k : Int) ≤ d i

/-- However the record arrives, only bytes that have arrived are read, and only those of the
record are waited for. -/
structure ReadsArrived (AES_gcm_decrypt : Decryptor κ) (input : Bytes) (gcm : Gcm κ) (res : ℕ) (d0 : Int) :
    Prop where
  reads : ∀ d, Arrival d0 (looks AES_gcm_decrypt input gcm res) d →
    Arrived (looks AES_gcm_decrypt input gcm res) d
  waits : ∀ target, .wait target ∈ looks AES_gcm_decrypt input gcm res → target < input.length

/-- How much has to be there: a last byte that is a chunk of its own is waited for. -/
def required (len res : ℕ) : ℕ := if (len - res) % DECRYPT_CHUNK_SIZE = 1 then len - 1 else len

section Update
variable {AES_gcm_decrypt : Decryptor κ} {input : Bytes} {gcm : Gcm κ} {res : ℕ} {d0 : Int}

theorem leftover_lt (cfg : Config) (reaches : cfg.AES_GCM_DEC_BYTES ≤ input.length) (mres : ℕ) :
    leftover mres < input.length := by
  have block := cfg.block
  unfold leftover
  omega

theorem start_finished (composes : Composes AES_gcm_decrypt) (gcm : Gcm κ) (inside : res < input.length) :
    Loop.Finished AES_gcm_decrypt input (Loop.start input gcm res)
      ((Loop.start input gcm res).run AES_gcm_decrypt input) :=
  Loop.run_finished composes _ (Nat.add_sub_cancel' (Nat.le_of_lt inside)) (Nat.sub_pos_of_lt inside)

theorem looks_split (composes : Composes AES_gcm_decrypt) (gcm : Gcm κ) (inside : res < input.length) :
    ∃ ls, Turns res (input.length - res) ls ∧ looks AES_gcm_decrypt input gcm res =
      reads 0 res ++ ls ++ reads (res + processed (input.length - res))
        (input.length - (res + processed (input.length - res))) := by
  have finished := start_finished composes gcm inside
  obtain ⟨ls, turns, seen⟩ := finished.looks
  have none : (Loop.start input gcm res).looks = [] := rfl
  rw [none, List.nil_append] at seen
  refine ⟨ls, turns, ?_⟩
  rw [looks, seen, finished.bulk]
  rfl

/-- The asynchronous branch leaves what the other one does. -/
theorem asyncUpdate_eq_directUpdate (cfg : Config) (composes : Composes AES_gcm_decrypt)
    (reaches : cfg.AES_GCM_DEC_BYTES ≤ input.length) (arrived : (input.length : Int) ≤ d + 1)
    (gcm : Gcm κ) (mres : ℕ) : SameUpdate AES_gcm_decrypt input gcm (leftover mres) d := by
  have inside := leftover_lt cfg reaches mres
  have finished := start_finished composes gcm inside
  have length : (AES_gcm_decrypt gcm.state (input.drop (leftover mres))).1.length =
      processed (input.length - leftover mres) := by
    rw [composes.length, List.length_drop]
  have bulk : ((Loop.start input gcm (leftover mres)).run AES_gcm_decrypt input).bulk =
      leftover mres + processed (input.length - leftover mres) := finished.bulk
  constructor
  · intro target waits
    obtain ⟨ls, turns, seen⟩ := finished.looks
    rw [seen] at waits
    have bound := turns.wait_inside waits
    simp only [Loop.start] at bound
    omega
  · unfold asyncUpdate directUpdate
    simp only [finished.plain, finished.state, bulk, length, Nat.add_sub_cancel_left]
    rw [Nat.add_comm]
    rfl

theorem read_mem_looks (composes : Composes AES_gcm_decrypt) (gcm : Gcm κ) (inside : res < input.length) :
    .read k ∈ looks AES_gcm_decrypt input gcm res ↔ k < input.length := by
  obtain ⟨ls, turns, split⟩ := looks_split composes gcm inside
  have part := processed_le (input.length - res)
  rw [split, List.mem_append, List.mem_append, read_mem_reads, turns.read_iff, read_mem_reads]
  omega

theorem wait_mem_looks (composes : Composes AES_gcm_decrypt) (gcm : Gcm κ) (inside : res < input.length)
    (waits : .wait k ∈ looks AES_gcm_decrypt input gcm res) :
    ∃ ls, Turns res (input.length - res) ls ∧ .wait k ∈ ls := by
  obtain ⟨ls, turns, split⟩ := looks_split composes gcm inside
  rw [split, List.mem_append, List.mem_append] at waits
  rcases waits with (first | loop) | last
  · exact absurd first wait_not_mem_reads
  · exact ⟨ls, turns, loop⟩
  · exact absurd last wait_not_mem_reads

/-- The descriptor does not move until it is waited for. -/
theorem ReadsArrived.enough (covered : ReadsArrived AES_gcm_decrypt input gcm res d0)
    (composes : Composes AES_gcm_decrypt) (inside : res < input.length)
    (several : (input.length - res) % DECRYPT_CHUNK_SIZE ≠ 1) : (input.length : Int) ≤ d0 + 1 := by
  refine Int.not_lt.mp fun late => ?_
  have still : Arrival d0 (looks AES_gcm_decrypt input gcm res) fun _ => input.length - 2 := by
    refine ⟨by omega, fun i j _ => Int.le_refl _, fun i target waits => ?_⟩
    obtain ⟨ls, turns, loop⟩ := wait_mem_looks composes gcm inside (List.mem_of_getElem? waits)
    have before := turns.wait_before several loop
    omega
  have last : Look.read (input.length - 1) ∈ looks AES_gcm_decrypt input gcm res :=
    (read_mem_looks composes gcm inside).mpr (by omega)
  obtain ⟨i, read⟩ := List.mem_iff_getElem?.mp last
  have there := covered.reads _ still i _ read
  omega

/-- With a single byte left over, it is waited for, but only when the others were read. -/
theorem looks_single (composes : Composes AES_gcm_decrypt) (gcm : Gcm κ) (inside : res < input.length)
    (single : (input.length - res) % DECRYPT_CHUNK_SIZE = 1) :
    ∃ front back, looks AES_gcm_decrypt input gcm res = front ++ .wait (input.length - 1) :: back ∧
      (∀ k, .wait k ∈ front → k + 2 < input.length) ∧ ∀ k, .read k ∈ front ↔ k < input.length - 1 := by
  obtain ⟨ls, turns, split⟩ := looks_split composes gcm inside
  obtain ⟨before, rfl, waits, read⟩ := turns.single single
  have last : res + (input.length - res - 1) = input.length - 1 := by omega
  have whole : res + (input.length - res) = input.length := by omega
  rw [last] at split read
  rw [whole] at waits
  refine ⟨reads 0 res ++ before, reads (res + processed (input.length - res))
    (input.length - (res + processed (input.length - res))), ?_, fun k member => ?_, fun k => ?_⟩
  · rw [split]
    simp only [List.append_assoc, List.singleton_append]
  · rcases List.mem_append.mp member with first | later
    · exact absurd first wait_not_mem_reads
    · exact waits k later
  · rw [List.mem_append, read_mem_reads, read]
    omega

theorem ReadsArrived.enough_single (covered : ReadsArrived AES_gcm_decrypt input gcm res d0)
    (composes : Composes AES_gcm_decrypt) (inside : res < input.length) (long : 1 < input.length)
    (single : (input.length - res) % DECRYPT_CHUNK_SIZE = 1) : (input.length : Int) - 1 ≤ d0 + 1 := by
  refine Int.not_lt.mp fun late => ?_
  obtain ⟨front, back, split, waits, read⟩ := looks_single composes gcm inside single
  have still : Arrival d0 (looks AES_gcm_decrypt input gcm res)
      fun i => if i < front.length then input.length - 3 else input.length - 1 := by
    refine ⟨?_, fun i j later => ?_, fun i target waited => ?_⟩
    · split <;> omega
    · split_ifs <;> omega
    · split_ifs with early
      · rw [split, List.getElem?_append_left early] at waited
        have before := waits target (List.mem_of_getElem? waited)
        omega
      · obtain ⟨ls, turns, loop⟩ := wait_mem_looks composes gcm inside (List.mem_of_getElem? waited)
        have bound := turns.wait_inside loop
        omega
  obtain ⟨i, first⟩ := List.mem_iff_getElem?.mp ((read (input.length - 2)).mpr (by omega))
  have early : i < front.length := (List.getElem?_eq_some_iff.mp first).1
  have there := covered.reads _ still i (input.length - 2)
    (by rw [split, List.getElem?_append_left early, first])
  rw [if_pos early] at there
  omega

theorem arrived_of_required (composes : Composes AES_gcm_decrypt) (inside : res < input.length)
    (there : (required input.length res : Int) ≤ d0 + 1) {d : ℕ → Int}
    (arrival : Arrival d0 (looks AES_gcm_decrypt input gcm res) d) :
    Arrived (looks AES_gcm_decrypt input gcm res) d := by
  intro i k read
  have bound := (read_mem_looks composes gcm inside).mp (List.mem_of_getElem? read)
  have start := Int.le_trans arrival.start (arrival.grows 0 i (Nat.zero_le i))
  unfold required at there
  split at there
  · rename_i single
    by_cases last : k = input.length - 1
    · obtain ⟨front, back, split, -, before⟩ := looks_single composes gcm inside single
      have late : front.length ≤ i := by
        refine Nat.le_of_not_lt fun early => ?_
        rw [split, List.getElem?_append_left early] at read
        have := (before k).mp (List.mem_of_getElem? read)
        omega
      have waited := arrival.waited front.length (input.length - 1) (by
        rw [split, List.getElem?_append_right (Nat.le_refl _), Nat.sub_self]
        rfl)
      have grown := arrival.grows _ _ late
      omega
    · omega
  · omega

/-- Only arrived ciphertext is read just when all of it is there from the start, but for a last
byte that is a chunk of its own. -/
theorem readsArrived_iff (cfg : Config) (composes : Composes AES_gcm_decrypt)
    (reaches : cfg.AES_GCM_DEC_BYTES ≤ input.length) (gcm : Gcm κ) (mres : ℕ) (d0 : Int) :
    ReadsArrived AES_gcm_decrypt input gcm (leftover mres) d0 ↔
      (required input.length (leftover mres) : Int) ≤ d0 + 1 := by
  have inside := leftover_lt cfg reaches mres
  have block := cfg.block
  constructor
  · intro covered
    unfold required
    split
    · rename_i single
      have enough := covered.enough_single composes inside (by omega) single
      omega
    · rename_i several
      exact covered.enough composes inside several
  · intro there
    refine ⟨fun d arrival => arrived_of_required composes inside there arrival, fun target waits => ?_⟩
    obtain ⟨ls, turns, loop⟩ := wait_mem_looks composes gcm inside waits
    have bound := turns.wait_inside loop
    omega

/-- The turns are those that decrypt the records of a connection. -/
theorem Loop.turn_decrypts {l : Loop κ} (composes : Composes AES_gcm_decrypt)
    (fits : l.bulk + l.remaining_len = input.length) (x : World) (start : ℕ) (got : Bytes)
    (waited : (l.bulk : Int) ≤ x.inbox.descriptor) :
    OpenSSL.AES_gcm_decrypt x start got l.bulk l.remaining_len (l.chunk AES_gcm_decrypt input).1.length =
      if chunkSize l.remaining_len = (l.chunk AES_gcm_decrypt input).1.length then
        some (x.decrypts start got (l.turn AES_gcm_decrypt input).bulk
          (l.turn AES_gcm_decrypt input).remaining_len)
      else some { x with asyncRecv := false, phase := .idle } := by
  have short : (l.chunk AES_gcm_decrypt input).1.length ≤ chunkSize l.remaining_len := by
    rw [Loop.length_chunk composes fits]
    exact processed_le _
  exact if_pos ⟨waited, short⟩

end Update

/-- A cipher that copies its input and counts units of 96 bytes. Like the real one it leaves a
shorter input alone. -/
def copying (s : ℕ) (xs : Bytes) : Bytes × ℕ := (xs.take (processed xs.length), s + xs.length / 96)

theorem copying_composes : Composes copying where
  length s xs := List.length_take_of_le (processed_le _)
  whole s xs := by
    have length : (xs.take (processed xs.length)).length = processed xs.length :=
      List.length_take_of_le (processed_le _)
    have again : processed (processed xs.length) = processed xs.length := by
      unfold processed
      omega
    have units : processed xs.length / 96 = xs.length / 96 := by
      unfold processed
      omega
    simp only [copying, length, again, units, List.take_take, Nat.min_self]
  append s xs ys left right := by
    have all : ∀ zs : Bytes, 96 ∣ zs.length → zs.take (processed zs.length) = zs := by
      rintro zs ⟨k, length⟩
      refine List.take_of_length_le ?_
      unfold processed
      omega
    have both : 96 ∣ (xs ++ ys).length := by
      rw [List.length_append]
      exact Nat.dvd_add left right
    have units : (xs ++ ys).length / 96 = xs.length / 96 + ys.length / 96 := by
      obtain ⟨k, length⟩ := left
      rw [List.length_append, length]
      omega
    simp only [copying, all xs left, all ys right, all _ both, units, Nat.add_assoc]

/-- Twenty bytes, of which four complete a block. -/
def shortRecord : Bytes := List.replicate 20 7

/-- Behind the first four bytes a full chunk and a short one, with bytes to spare. -/
def longRecord : Bytes := List.replicate 1200 7

theorem longRecord_length : longRecord.length = 1200 := List.length_replicate

theorem shortRecord_same : SameUpdate copying shortRecord ⟨0, 4⟩ (leftover 12) 19 ∧
    SameUpdate copying longRecord ⟨0, 4⟩ (leftover 12) 1199 := by
  constructor
  · exact asyncUpdate_eq_directUpdate small copying_composes (by decide) (by decide) ⟨0, 4⟩ 12
  · have reaches : small.AES_GCM_DEC_BYTES ≤ longRecord.length := by
      rw [longRecord_length]
      decide
    have arrived : (longRecord.length : Int) ≤ 1199 + 1 := by
      rw [longRecord_length]
      decide
    exact asyncUpdate_eq_directUpdate small copying_composes reaches arrived ⟨0, 4⟩ 12

theorem shortRecord_arrived : ReadsArrived copying shortRecord ⟨0, 4⟩ (leftover 12) 19 ∧
    ReadsArrived copying longRecord ⟨0, 4⟩ (leftover 12) 1199 := by
  constructor
  · exact (readsArrived_iff small copying_composes (by decide) ⟨0, 4⟩ 12 19).mpr (by decide)
  · have reaches : small.AES_GCM_DEC_BYTES ≤ longRecord.length := by
      rw [longRecord_length]
      decide
    refine (readsArrived_iff small copying_composes reaches ⟨0, 4⟩ 12 1199).mpr ?_
    rw [longRecord_length]
    decide

theorem shortRecord_outrun : ¬ ∀ (cfg : Config) (input : Bytes) (gcm : Gcm ℕ) mres d0,
    cfg.AES_GCM_DEC_BYTES ≤ input.length → -1 ≤ d0 →
    ReadsArrived copying input gcm (leftover mres) d0 := by
  intro holds
  have covered := holds small shortRecord ⟨0, 4⟩ 12 (-1) (by decide) (by decide)
  have enough := covered.enough copying_composes (by decide) (by decide)
  exact absurd enough (by decide)

end Copier.OpenSSL
