import Copier.Foundation.Logs
import Copier.Redis.AofReplay

/-! What a server makes of an append only file that may have been cut off anywhere: the
dataset of the entries that are all there, and a file it can go on with. -/
namespace Copier.Redis.Aof
open Logs (Cut)

section Steps
variable {σ : Type} (p : Commands σ) (opts : Options)

/-- The loader after some more commands, with so much of the file in front of them. -/
def Loader.steps (s : Loader σ) (pos : ℕ) : List (List Bytes) → Loader σ
  | [] => s
  | argv :: cs =>
      Loader.steps
        { fake := s.fake.run p argv
          valid_up_to := if opts.aof_load_truncated then pos + (encode argv).length else s.valid_up_to
          valid_before_multi := if p.lookupCommand (argv.headD []) = some .multi then s.valid_up_to
            else s.valid_before_multi } (pos + (encode argv).length) cs

variable {p : Commands σ} {opts : Options} {s : Loader σ} {pos : ℕ} {cs : List (List Bytes)}

theorem Loader.steps_append (cs more : List (List Bytes)) : s.steps p opts pos (cs ++ more) =
    (s.steps p opts pos cs).steps p opts (pos + (cs.flatMap encode).length) more := by
  induction cs generalizing s pos with
  | nil => rfl
  | cons argv cs ih =>
    rw [List.cons_append, Loader.steps, ih, Loader.steps, List.flatMap_cons, List.length_append,
      Nat.add_assoc]

theorem Loader.steps_fake (cs : List (List Bytes)) :
    (s.steps p opts pos cs).fake = cs.foldl (FakeClient.run p) s.fake := by
  induction cs generalizing s pos with
  | nil => rfl
  | cons argv cs ih => rw [Loader.steps, ih, List.foldl_cons]

theorem Loader.steps_valid (enabled : opts.aof_load_truncated = true) (start : s.valid_up_to = pos)
    (cs : List (List Bytes)) :
    (s.steps p opts pos cs).valid_up_to = pos + (cs.flatMap encode).length := by
  induction cs generalizing s pos with
  | nil => exact start
  | cons argv cs ih =>
    rw [Loader.steps, ih (if_pos enabled), List.flatMap_cons, List.length_append, Nat.add_assoc]

theorem Loader.steps_before (other : ∀ argv ∈ cs, p.lookupCommand (argv.headD []) ≠ some .multi) :
    (s.steps p opts pos cs).valid_before_multi = s.valid_before_multi := by
  induction cs generalizing s pos with
  | nil => rfl
  | cons argv cs ih =>
    obtain ⟨first, other⟩ := List.forall_mem_cons.mp other
    rw [Loader.steps, ih other, if_neg first]

/-- Where the MULTI of a transaction that is open stands. -/
theorem Loader.steps_multi (enabled : opts.aof_load_truncated = true) (start : s.valid_up_to = pos)
    (before queue : List (List Bytes))
    (other : ∀ argv ∈ queue, p.lookupCommand (argv.headD []) ≠ some .multi) :
    (s.steps p opts pos (before ++ [ascii "MULTI"] :: queue)).valid_before_multi =
      pos + (before.flatMap encode).length := by
  have looked : p.lookupCommand (([ascii "MULTI"] : List Bytes).headD []) = some .multi := rfl
  rw [Loader.steps_append, Loader.steps, Loader.steps_before other]
  simp only [looked, if_true]
  exact Loader.steps_valid enabled start before

theorem length_encode_pos (argv : List Bytes) : 0 < (encode argv).length := by
  rw [length_encode]
  omega

theorem length_commands_le (cs : List (List Bytes)) : cs.length ≤ (cs.flatMap encode).length := by
  induction cs with
  | nil => exact Nat.le_refl 0
  | cons argv cs ih =>
    have pos := length_encode_pos argv
    rw [List.flatMap_cons, List.length_append, List.length_cons]
    omega

theorem readCommands_steps (s : Loader σ) (pos : ℕ) (readable : ∀ argv ∈ cs, Readable p argv)
    (part : Bytes) (fuel size : ℕ) (whole : pos + ((cs.flatMap encode).length + part.length) = size) :
    readCommands p opts size (cs.length + fuel) s (cs.flatMap encode ++ part) =
      readCommands p opts size fuel (s.steps p opts pos cs) part := by
  induction cs generalizing s pos with
  | nil => rw [List.length_nil, Nat.zero_add]; rfl
  | cons argv cs ih =>
    obtain ⟨first, readable⟩ := List.forall_mem_cons.mp readable
    obtain ⟨kind, known⟩ := Option.isSome_iff_exists.mp first.known
    rw [List.flatMap_cons, List.length_append] at whole
    rw [List.length_cons, Nat.succ_add, List.flatMap_cons, List.append_assoc, readCommands,
      readCommand_encode first.fits]
    have behind : size - ((cs.flatMap encode).length + part.length) =
        pos + (encode argv).length := by omega
    simp only [known, List.length_append, behind]
    rw [ih _ (pos + (encode argv).length) readable (by omega), Loader.steps, known]
    simp only [Option.some.injEq]

/-- The last thing in the file: nothing more, or a command that has been cut off. -/
theorem readCommands_end {part : Bytes} {all : List (List Bytes)} {bytes : Bytes} {n : ℕ}
    (readable : ∀ argv ∈ all, Readable p argv) (cut : Cut encode all bytes n part) (size fuel : ℕ) :
    readCommands p opts size (fuel + 1) s part = some (s, decide (part ≠ [])) := by
  rcases cut.proper with rfl | ⟨next, there, start, short⟩
  · rfl
  · cases part with
    | nil => rfl
    | cons b part =>
      have fits := (readable next (List.mem_of_getElem? there)).fits
      rw [readCommands, readCommand_torn fits start short nofun]
      rfl

theorem preamble_none {file : Bytes} {all : List (List Bytes)} (start : file <+: all.flatMap encode) :
    preamble p file = some (p.empty, file) := by
  rw [preamble, if_neg]
  intro signature
  cases all with
  | nil =>
    rw [List.flatMap_nil, List.prefix_nil] at start
    rw [start] at signature
    exact absurd signature (by decide)
  | cons argv all =>
    rw [List.flatMap_cons, encode_shape] at start
    cases file with
    | nil => exact absurd signature (by decide)
    | cons b file =>
      obtain ⟨rfl, -⟩ := List.cons_prefix_cons.mp start
      rw [List.take_succ_cons] at signature
      exact absurd (List.cons.inj signature).1 (by decide)

def Loader.init (p : Commands σ) : Loader σ := ⟨⟨p.empty, 0, none⟩, 0, 0⟩

/-- The commands that are all there are run, and nothing else. -/
theorem scanFile_cut (opts : Options) {file part : Bytes} {all : List (List Bytes)} {n : ℕ}
    (readable : ∀ argv ∈ all, Readable p argv) (start : file <+: all.flatMap encode)
    (cut : Cut encode all file n part) : scanFile p opts file =
      some ((Loader.init p).steps p opts 0 (all.take n), decide (part ≠ [])) := by
  have spelled := cut.spelled
  have length := congrArg List.length spelled
  have few := length_commands_le (all.take n)
  rw [List.length_append] at length
  obtain ⟨fuel, enough⟩ : ∃ fuel, file.length + 1 = (all.take n).length + (fuel + 1) :=
    ⟨file.length - (all.take n).length, by omega⟩
  rw [scanFile, preamble_none start, Option.bind_some]
  dsimp only
  rw [enough]
  have whole : ∀ argv ∈ all.take n, Readable p argv := fun argv member =>
    readable argv (List.mem_of_mem_take member)
  have run : readCommands p opts file.length ((all.take n).length + (fuel + 1)) (Loader.init p)
      ((all.take n).flatMap encode ++ part) = _ :=
    readCommands_steps _ 0 whole part (fuel + 1) file.length (by omega)
  rw [← spelled] at run
  rw [← Loader.init, run]
  exact readCommands_end readable cut _ _

end Steps

/-! Records. -/

/-- What has been written at once: an entry, or a SELECT that was left of one. -/
structure Record where
  entry : Option Entry
  commands : List (List Bytes)

def spell (rs : List Record) : Bytes := (rs.flatMap Record.commands).flatMap encode

section Records
variable {σ : Type} (p : Commands σ)

/-- Records as a server writes them, one start after the other, and the database it has
selected. -/
inductive Written : List Record → Option ℕ → Prop where
  | nil : Written [] none
  | restart : Written rs sel → Written rs none
  | select : Written rs sel → d < p.dbnum → d < 2 ^ 31 →
      Written (rs ++ [⟨none, [selectArgv d]⟩]) none
  | entry : Written rs sel → e.Ok p →
      Written (rs ++ [⟨some e, e.commands sel⟩]) (selected sel e.feeds)

def entries (rs : List Record) : List Entry := rs.filterMap Record.entry

variable {p : Commands σ} {opts : Options} {rs : List Record} {sel : Option ℕ}

theorem Written.readable (written : Written p rs sel) :
    ∀ argv ∈ rs.flatMap Record.commands, Readable p argv := by
  induction written with
  | nil => exact nofun
  | restart _ ih => exact ih
  | select _ inside small ih =>
    rw [List.flatMap_append, List.forall_mem_append, List.flatMap_singleton]
    exact ⟨ih, List.forall_mem_singleton.mpr (readable_select small)⟩
  | entry _ ok ih =>
    rw [List.flatMap_append, List.forall_mem_append, List.flatMap_singleton]
    exact ⟨ih, readable_commands _ ok.feeds⟩

theorem Entry.commands_ne_nil (e : Entry) (sel : Option ℕ) : e.commands sel ≠ [] := by
  cases e with
  | single f => exact List.append_ne_nil_of_right_ne_nil _ nofun
  | transaction first more exec => exact List.append_ne_nil_of_right_ne_nil _ nofun

theorem Written.some (written : Written p rs sel) : ∀ r ∈ rs, r.commands ≠ [] := by
  induction written with
  | nil => exact nofun
  | restart _ ih => exact ih
  | select _ _ _ ih =>
    rw [List.forall_mem_append, List.forall_mem_singleton]
    exact ⟨ih, nofun⟩
  | entry _ _ ih =>
    rw [List.forall_mem_append, List.forall_mem_singleton]
    exact ⟨ih, Entry.commands_ne_nil _ _⟩

/-- Whole records give the dataset of their entries. -/
theorem Written.run (written : Written p rs sel) :
    ∃ db, (rs.flatMap Record.commands).foldl (FakeClient.run p) ⟨p.empty, 0, none⟩ =
      ⟨replay p (entries rs), db, none⟩ ∧ ∀ d, sel = Option.some d → db = d := by
  induction written with
  | nil => exact ⟨0, rfl, nofun⟩
  | restart _ ih =>
    obtain ⟨db, ran, -⟩ := ih
    exact ⟨db, ran, nofun⟩
  | @select rs sel d _ inside small ih =>
    obtain ⟨db, ran, -⟩ := ih
    refine ⟨d, ?_, nofun⟩
    rw [List.flatMap_append, List.foldl_append, ran, List.flatMap_singleton, List.foldl_cons,
      List.foldl_nil, run_selectArgv rfl inside small, entries, entries, List.filterMap_append]
    simp
  | @entry rs sel e _ ok ih =>
    obtain ⟨db, ran, here⟩ := ih
    obtain ⟨d, last, ran'⟩ := run_entry (f := ⟨replay p (entries rs), db, none⟩) ok rfl here
    refine ⟨d, ?_, fun d' same => Option.some.inj (last.symm.trans same)⟩
    rw [List.flatMap_append, List.foldl_append, ran, List.flatMap_singleton, ran', entries, entries,
      List.filterMap_append, replay, replay]
    simp

theorem Written.take (written : Written p rs sel) (n : ℕ) : ∃ sel, Written p (rs.take n) sel := by
  induction written with
  | nil => exact ⟨none, by rw [List.take_nil]; exact .nil⟩
  | restart _ ih => exact ih
  | @select rs sel d before inside small ih =>
    by_cases whole : n ≤ rs.length
    · rw [List.take_append_of_le_length whole]
      exact ih
    · rw [List.take_of_length_le (by simp; omega)]
      exact ⟨_, .select before inside small⟩
  | @entry rs sel e before ok ih =>
    by_cases whole : n ≤ rs.length
    · rw [List.take_append_of_le_length whole]
      exact ih
    · rw [List.take_of_length_le (by simp; omega)]
      exact ⟨_, .entry before ok⟩

/-- What a record may be cut down to. -/
theorem Written.begun {n : ℕ} {r : Record} (written : Written p rs sel) (there : rs[n]? = Option.some r)
    {cs : List (List Bytes)} (start : cs <+: r.commands) (short : cs.length < r.commands.length) :
    ∃ pre queue open_, Begun p cs pre queue open_ ∧ (open_ = true → ∃ first more exec,
      r.entry = Option.some (.transaction first more exec) ∧ queue <+: body first more exec) := by
  induction written with
  | nil => cases there
  | restart _ ih => exact ih there
  | @select rs sel d _ inside small ih =>
    rcases Nat.lt_trichotomy n rs.length with before | rfl | after
    · rw [List.getElem?_append_left before] at there
      exact ih there
    · rw [List.getElem?_concat_length] at there
      cases there
      have none := List.eq_nil_of_length_eq_zero (Nat.lt_one_iff.mp short)
      exact ⟨[], [], false, ⟨by rw [none]; rfl, .inl rfl, nofun⟩, nofun⟩
    · rw [List.getElem?_eq_none (by simp; omega)] at there
      cases there
  | @entry rs sel e _ ok ih =>
    rcases Nat.lt_trichotomy n rs.length with before | rfl | after
    · rw [List.getElem?_append_left before] at there
      exact ih there
    · rw [List.getElem?_concat_length] at there
      cases there
      obtain ⟨pre, queue, open_, begun, within⟩ := ok.begun start short
      refine ⟨pre, queue, open_, begun, fun opened => ?_⟩
      obtain ⟨first, more, exec, rfl, queued⟩ := within opened
      exact ⟨first, more, exec, rfl, queued⟩
    · rw [List.getElem?_eq_none (by simp; omega)] at there
      cases there

theorem spell_append (rs more : List Record) : spell (rs ++ more) = spell rs ++ spell more := by
  rw [spell, List.flatMap_append, List.flatMap_append, spell, spell]

/-- How far a file reaches into records: so many whole ones, of the next perhaps a SELECT or
the beginning of a transaction, and perhaps part of one more command. -/
structure Reaches (p : Commands σ) (opts : Options) (rs : List Record) (file : Bytes) (m : ℕ)
    (pre queue : List (List Bytes)) (open_ : Bool) (part : Bytes) : Prop where
  low : (spell (rs.take m)).length ≤ file.length
  high : m < rs.length → file.length < (spell (rs.take (m + 1))).length
  start : (rs.take m).flatMap Record.commands ++
    (pre ++ if open_ then [ascii "MULTI"] :: queue else []) <+: rs.flatMap Record.commands
  begun : Begun p (pre ++ if open_ then [ascii "MULTI"] :: queue else []) pre queue open_
  within : open_ = true → ∃ r first more exec, rs[m]? = some r ∧
    r.entry = some (.transaction first more exec) ∧ queue <+: body first more exec
  spelled : file = spell (rs.take m) ++
    ((pre ++ if open_ then [ascii "MULTI"] :: queue else []).flatMap encode ++ part)
  scanned : scanFile p opts file = Option.some ((Loader.init p).steps p opts 0
    ((rs.take m).flatMap Record.commands ++
      (pre ++ if open_ then [ascii "MULTI"] :: queue else [])), decide (part ≠ []))

theorem Written.reaches (written : Written p rs sel) (opts : Options) {file : Bytes} (start : file <+: spell rs) :
    ∃ m pre queue open_ part, m ≤ rs.length ∧ Reaches p opts rs file m pre queue open_ part := by
  obtain ⟨k, part, cut⟩ := Logs.exists_cut start
  obtain ⟨m, cs, within⟩ := Logs.exists_cut (List.take_prefix k (rs.flatMap Record.commands))
  have scanned := scanFile_cut opts written.readable start cut
  obtain ⟨pre, queue, open_, begun, next⟩ : ∃ pre queue open_, Begun p cs pre queue open_ ∧
      (open_ = true → ∃ r first more exec, rs[m]? = Option.some r ∧
        r.entry = Option.some (.transaction first more exec) ∧ queue <+: body first more exec) := by
    rcases within.proper with rfl | ⟨r, there, inside, short⟩
    · exact ⟨[], [], false, ⟨rfl, .inl rfl, nofun⟩, nofun⟩
    · obtain ⟨pre, queue, open_, begun, next⟩ := written.begun there inside short
      refine ⟨pre, queue, open_, begun, fun opened => ?_⟩
      obtain ⟨first, more, exec, entry, queued⟩ := next opened
      exact ⟨r, first, more, exec, there, entry, queued⟩
  have spelled := cut.spelled
  rw [within.spelled, List.flatMap_append, List.append_assoc, ← spell] at spelled
  have shape := begun.shape
  subst shape
  rw [within.spelled] at scanned
  refine ⟨m, pre, queue, open_, part, within.within, ?_, fun more => ?_, ?_, begun, next, spelled,
    scanned⟩
  · rw [spelled, List.length_append]
    exact Nat.le_add_right _ _
  · -- one more record would be one more command at least
    by_contra long
    have next : ((rs.take (m + 1)).flatMap Record.commands).flatMap encode =
        ((rs.flatMap Record.commands).take
          ((rs.take (m + 1)).flatMap Record.commands).length).flatMap encode := by
      have whole : (rs.take (m + 1)).flatMap Record.commands <+: rs.flatMap Record.commands := by
        obtain ⟨rest, whole⟩ := List.take_prefix (m + 1) rs
        exact ⟨rest.flatMap Record.commands, by rw [← List.flatMap_append, whole]⟩
      rw [← List.prefix_iff_eq_take.mp whole]
    have inside : ((rs.take (m + 1)).flatMap Record.commands).length ≤
        (rs.flatMap Record.commands).length := by
      have length := Logs.length_take_flatMap_mono Record.commands rs (Nat.succ_le_of_lt more)
      rwa [List.take_length] at length
    have reached := cut.reaches inside (fun argv _ =>
      List.ne_nil_of_length_pos (length_encode_pos argv)) (by rw [← next]; exact Nat.le_of_not_lt long)
    have least : ((rs.take (m + 1)).flatMap Record.commands).length ≤
        ((rs.flatMap Record.commands).take k).length := by
      rw [List.length_take]
      exact Nat.le_min.mpr ⟨reached, inside⟩
    exact absurd (within.reaches (Nat.succ_le_of_lt more) written.some least) (Nat.not_succ_le_self m)
  · rw [← within.spelled]
    exact List.take_prefix k _

section Reaches
variable {file part : Bytes} {m : ℕ} {pre queue : List (List Bytes)} {open_ : Bool}

/-- The loader has the dataset of the whole records. -/
theorem Reaches.fake (reaches : Reaches p opts rs file m pre queue open_ part)
    (written : Written p rs sel) : ∃ s, scanFile p opts file = Option.some (s, decide (part ≠ [])) ∧
      s.fake.data = replay p (entries (rs.take m)) ∧
        s.fake.multi = if open_ then Option.some queue else none := by
  obtain ⟨_, before⟩ := written.take m
  obtain ⟨db, ran, -⟩ := before.run
  obtain ⟨d, begun⟩ := reaches.begun.run (f := ⟨replay p (entries (rs.take m)), db, none⟩) rfl
  refine ⟨_, reaches.scanned, ?_⟩
  rw [Loader.steps_fake, List.foldl_append, Loader.init, ran, begun]
  exact ⟨rfl, rfl⟩

/-- Where it puts the end of the file, if it moves it. -/
theorem Reaches.valid (reaches : Reaches p opts rs file m pre queue open_ part)
    (enabled : opts.aof_load_truncated = true) :
    ∃ s, scanFile p opts file = Option.some (s, decide (part ≠ [])) ∧
      (open_ = false → s.valid_up_to = (spell (rs.take m) ++ pre.flatMap encode).length) ∧
        (open_ = true → s.valid_before_multi = (spell (rs.take m) ++ pre.flatMap encode).length) := by
  refine ⟨_, reaches.scanned, ?_, ?_⟩
  · rintro rfl
    have start : (Loader.init p).valid_up_to = 0 := rfl
    rw [if_neg nofun, List.append_nil, Loader.steps_valid enabled start, List.flatMap_append,
      Nat.zero_add, spell]
  · rintro rfl
    have other : ∀ argv ∈ queue, p.lookupCommand (argv.headD []) ≠ Option.some .multi := by
      intro argv member
      obtain ⟨kind, looked, -, other⟩ := reaches.begun.queue argv member
      rw [looked]
      exact fun same => other (Option.some.inj same)
    have start : (Loader.init p).valid_up_to = 0 := rfl
    rw [if_pos rfl, ← List.append_assoc, Loader.steps_multi enabled start _ _ other, Nat.zero_add,
      List.flatMap_append, spell]

end Reaches

/-- The file has been cut off inside a command of a transaction. -/
def torn (p : Commands σ) (opts : Options) (file : Bytes) : Bool :=
  match scanFile p opts file with
  | Option.some (s, short) => short && s.fake.multi.isSome
  | none => false

/-- What is loaded, and the file that is left, when it was not: whole records, and perhaps a
SELECT. -/
structure Recovered (p : Commands σ) (rs : List Record) (file : Bytes) (m : ℕ) (data : σ)
    (kept : Bytes) (extra : List Record) : Prop where
  data : data = replay p (entries (rs.take m))
  within : m ≤ rs.length
  low : (spell (rs.take m)).length ≤ file.length
  high : m < rs.length → file.length < (spell (rs.take (m + 1))).length
  plain : ∀ r ∈ extra, r.entry = none
  written : Written p (rs.take m ++ extra) none
  spelled : kept = spell (rs.take m ++ extra)
  shorter : kept.length ≤ file.length

theorem Begun.record {cs pre queue : List (List Bytes)} (begun : Begun p cs pre queue open_)
    (written : Written p rs sel) : ∃ extra, (∀ r ∈ extra, r.entry = none) ∧
      Written p (rs ++ extra) none ∧ pre.flatMap encode = spell extra := by
  rcases begun.select with rfl | ⟨d, inside, small, rfl⟩
  · exact ⟨[], nofun, by rw [List.append_nil]; exact .restart written, rfl⟩
  · refine ⟨[⟨none, [selectArgv d]⟩], ?_, .select written inside small, rfl⟩
    exact List.forall_mem_singleton.mpr rfl

theorem Written.recovered (written : Written p rs sel) {file kept : Bytes} {data : σ}
    {truncates : Bool} (start : file <+: spell rs) (whole : torn p opts file = false)
    (loaded : loadAppendOnlyFile p opts truncates file = Option.some (data, kept)) :
    ∃ m extra, Recovered p rs file m data kept extra := by
  obtain ⟨m, pre, queue, open_, part, within, reaches⟩ := written.reaches opts start
  obtain ⟨_, before⟩ := written.take m
  obtain ⟨extra, plain, behind, spelled⟩ := reaches.begun.record before
  obtain ⟨s, scanned, result, multi⟩ := reaches.fake written
  have file_eq := reaches.spelled
  have recovered (kept_eq : kept = spell (rs.take m) ++ pre.flatMap encode)
      (data_eq : data = s.fake.data) : Recovered p rs file m data kept extra := by
    have same : kept = spell (rs.take m ++ extra) := by rw [spell_append, ← spelled, kept_eq]
    refine ⟨data_eq.trans result, within, reaches.low, reaches.high, plain, behind, same, ?_⟩
    rw [kept_eq, file_eq, List.flatMap_append]
    simp only [List.length_append]
    omega
  have short : part ≠ [] → open_ = false := by
    intro more
    cases open_ with
    | false => rfl
    | true =>
      rw [torn, scanned] at whole
      simp only [multi, more, ne_eq, not_false_eq_true, decide_true, if_true, Option.isSome_some,
        Bool.and_self] at whole
      cases whole
  rw [loadAppendOnlyFile] at loaded
  split at loaded
  · -- an empty file
    rename_i empty
    cases loaded
    have none : spell (rs.take m) = [] ∧ pre.flatMap encode = [] := by
      rw [empty, List.flatMap_append] at file_eq
      have parts := List.append_eq_nil_iff.mp file_eq.symm
      exact ⟨parts.1, (List.append_eq_nil_iff.mp (List.append_eq_nil_iff.mp parts.2).1).1⟩
    refine ⟨m, extra, recovered (by rw [none.1, none.2]; rfl) ?_⟩
    have scanned' : scanFile p opts ([] : Bytes) = Option.some (Loader.init p, false) := rfl
    rw [empty, scanned'] at scanned
    rw [← (Prod.mk.inj (Option.some.inj scanned)).1]
    rfl
  · rw [scanned, Option.bind_some] at loaded
    dsimp only at loaded
    split at loaded
    · rename_i clean
      cases loaded
      have none : part = [] := by simpa using clean.1
      have closed : open_ = false := by
        cases open_ with
        | false => rfl
        | true =>
          rw [multi] at clean
          exact absurd clean.2 nofun
      refine ⟨m, extra, recovered ?_ rfl⟩
      rw [file_eq, none, closed, List.append_nil, if_neg nofun, List.append_nil]
    · split at loaded
      · rename_i cut
        cases loaded
        obtain ⟨s', scanned', upto, before⟩ := reaches.valid (Bool.and_eq_true _ _ ▸ cut).1
        cases scanned.symm.trans scanned'
        refine ⟨m, extra, recovered ?_ rfl⟩
        by_cases more : part = []
        · have opened : open_ = true := by
            by_contra closed
            rename_i unclean
            rw [multi, if_neg closed, more] at unclean
            exact unclean ⟨by simp, rfl⟩
          rw [if_neg (by simpa using more), before opened, file_eq, List.flatMap_append,
            List.append_assoc, ← List.append_assoc, List.take_left]
        · rw [if_pos (by simpa using more), upto (short more), file_eq, short more, if_neg nofun,
            List.append_nil, ← List.append_assoc, List.take_left]
      · cases loaded

/-- With `aof-load-truncated` the file can always be loaded. -/
theorem Written.loads (written : Written p rs sel) {file : Bytes} (start : file <+: spell rs)
    (enabled : opts.aof_load_truncated = true) :
    (loadAppendOnlyFile p opts true file).isSome = true := by
  obtain ⟨m, pre, queue, open_, part, -, reaches⟩ := written.reaches opts start
  obtain ⟨s, scanned, -⟩ := reaches.fake written
  rw [loadAppendOnlyFile, scanned, enabled]
  split
  · rfl
  · rw [Option.bind_some]
    dsimp only
    split <;> rfl

end Records
end Copier.Redis.Aof
