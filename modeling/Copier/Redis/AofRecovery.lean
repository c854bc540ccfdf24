import Copier.Foundation.Runs
import Copier.Redis.AofLoad

/-! Servers that execute, flush, crash at any byte of the file and start again, any number of
times. -/
namespace Copier.Redis.Aof

/-- A server and its file, with what it has executed and not lost: each entry with where it
ends in the file. `fresh` is whether something was executed since the start, and `acked` what
clients can know of, by the replies to their own commands or by what they have read. -/
structure World (σ : Type) where
  server : Appender
  data : σ
  log : List (Entry × ℕ)
  fresh : Bool
  acked : List Entry
deriving DecidableEq

/-- Replies leave in `beforeSleep`. `sync` is the disk taking more of the file on its own,
`crash` a loss of power that leaves at least what it has taken. -/
inductive Event
  | start (unixtime : ℕ) (truncates : Bool)
  | perform (e : Entry)
  | beforeSleep (ProcessingEventsWhileBlocked : Bool) (e : Flush)
  | flush (e : Flush)
  | sync (k : ℕ)
  | crash (k : ℕ)

def Appender.feed (s : Appender) (f : Feed) : Appender :=
  let fed := feedAppendOnlyFile s.aof_selected_db f
  { s with aof_buf := s.aof_buf ++ fed.1, aof_selected_db := fed.2 }

section Step
variable {σ : Type} (p : Commands σ) (opts : Options)

def World.init : World σ where
  server := ⟨false, [], none, [], 0, true, 0, 0, 0, 0⟩
  data := p.empty
  log := []
  fresh := false
  acked := []

/-- The server that has loaded its file. -/
def World.started (w : World σ) (unixtime : ℕ) (data : σ) (kept : Bytes) : World σ where
  server :=
    { running := true
      aof_buf := []
      aof_selected_db := none
      aof_file := kept
      aof_current_size := kept.length
      aof_last_write_status := true
      aof_flush_postponed_start := 0
      aof_fsync_offset := kept.length
      aof_last_fsync := unixtime
      synced := min w.server.synced kept.length }
  data := data
  log := w.log.takeWhile fun entry => entry.2 ≤ w.server.aof_file.length
  fresh := false
  acked := w.acked

/-- Commands take effect in the form they are written in: an expire time is taken at the
moment it is made absolute. -/
def World.performed (w : World σ) (e : Entry) : World σ :=
  let server := e.feeds.foldl Appender.feed w.server
  { server := server
    data := e.apply p w.data
    log := w.log ++ [(e, server.aof_file.length + server.aof_buf.length)]
    fresh := true
    acked := w.acked }

def World.flushed (w : World σ) (e : Flush) : World σ :=
  { w with server := flushAppendOnlyFile opts e w.server }

def step (w : World σ) : Event → Option (World σ)
  | .start unixtime truncates =>
      if w.server.running then none
      else match loadAppendOnlyFile p opts truncates w.server.aof_file with
        | none => some w
        | some (data, kept) => some (w.started unixtime data kept)
  | .perform e => if w.server.running then some (w.performed p e) else none
  | .flush e => if w.server.running then some (w.flushed opts e) else none
  | .beforeSleep ProcessingEventsWhileBlocked e =>
      if w.server.running then
        -- while a script or a loading blocks the server, replies leave without a flush
        let w := if ProcessingEventsWhileBlocked then w else w.flushed opts e
        some { w with acked := if w.server.running then w.log.map Prod.fst else w.acked }
      else none
  | .sync k =>
      if w.server.synced ≤ k ∧ k ≤ w.server.aof_file.length then
        some { w with server := { w.server with synced := k } }
      else none
  | .crash k =>
      if w.server.synced ≤ k ∧ k ≤ w.server.aof_file.length then
        some { w with
          server := { w.server with
            running := false
            aof_buf := []
            aof_file := w.server.aof_file.take k
            synced := k } }
      else none

/-- Commands are known and within the limits, and no file that is loaded has been cut off
inside a command of a transaction. -/
def Sensible (w : World σ) : Event → Prop
  | .perform e => e.Ok p
  | .start _ _ => torn p opts w.server.aof_file = false
  | _ => True

/-- Replies do not leave while the server is blocked, nor before something was executed
since a start unless all of the file that was loaded is on the disk. -/
def Prompt (w : World σ) : Event → Prop
  | .beforeSleep ProcessingEventsWhileBlocked _ => ProcessingEventsWhileBlocked = false ∧
      (w.fresh = true ∨ w.server.synced = w.server.aof_file.length)
  | _ => True

end Step

/-! Flushing. -/

theorem aofWrite_le {len tot t : ℕ} {writes : List (Option ℕ)}
    (wrote : aofWrite len writes tot = some t) : tot ≤ t ∧ t ≤ tot + len := by
  induction writes generalizing len tot with
  | nil =>
    cases len with
    | zero =>
      cases wrote
      exact ⟨Nat.le_refl _, Nat.le_refl _⟩
    | succ len =>
      simp only [aofWrite] at wrote
      split at wrote <;> cases wrote
      exact ⟨Nat.le_refl _, Nat.le_add_right _ _⟩
  | cons write writes ih =>
    cases len with
    | zero =>
      cases wrote
      exact ⟨Nat.le_refl _, Nat.le_refl _⟩
    | succ len =>
      cases write with
      | none => exact ih wrote
      | some n =>
        rw [aofWrite] at wrote
        have bound := ih wrote
        omega

/-- What a flush leaves alone, also one that ends the server. -/
structure Kept (s s' : Appender) : Prop where
  selected : s'.aof_selected_db = s.aof_selected_db
  longer : s.aof_file <+: s'.aof_file
  within : s'.aof_file <+: s.aof_file ++ s.aof_buf
  whole : s'.running = true → s'.aof_file ++ s'.aof_buf = s.aof_file ++ s.aof_buf
  size : s'.running = true → s'.aof_current_size = s'.aof_file.length
  synced : s.synced ≤ s'.synced
  bound : s'.synced ≤ s'.aof_file.length

/-- Under `appendfsync always` what is not lost is on the disk. -/
structure Options.Always (opts : Options) : Prop where
  fsync : opts.aof_fsync = .AOF_FSYNC_ALWAYS
  rewrite : opts.aof_no_fsync_on_rewrite = false

section Flush
variable {opts : Options} {e : Flush} {s : Appender} {busy : Bool}

theorem tryFsync_kept (size : s.aof_current_size = s.aof_file.length)
    (bound : s.synced ≤ s.aof_file.length) : Kept s (tryFsync opts e busy s) := by
  have same : Kept s s := ⟨rfl, List.prefix_rfl, List.prefix_append _ _, fun _ => rfl, fun _ => size,
    Nat.le_refl _, bound⟩
  unfold tryFsync
  repeat' split
  · exact same
  · exact ⟨rfl, List.prefix_rfl, List.prefix_append _ _, fun _ => rfl, fun _ => size, bound,
      Nat.le_refl _⟩
  · exact ⟨rfl, List.prefix_rfl, List.prefix_append _ _, nofun, nofun, Nat.le_refl _, bound⟩
  all_goals exact ⟨rfl, List.prefix_rfl, List.prefix_append _ _, fun _ => rfl, fun _ => size,
    Nat.le_refl _, bound⟩

theorem tryFsync_synced (always : opts.Always) (up : (tryFsync opts e busy s).running = true) :
    (tryFsync opts e busy s).synced = (tryFsync opts e busy s).aof_file.length ∧
      (tryFsync opts e busy s).aof_buf = s.aof_buf := by
  unfold tryFsync at up ⊢
  rw [always.rewrite, always.fsync] at up ⊢
  simp only [Bool.false_and, Bool.false_eq_true, if_false] at up ⊢
  split at up
  · rename_i done
    rw [if_pos done]
    exact ⟨rfl, rfl⟩
  · cases up

theorem Kept.trans {a b c : Appender} (first : Kept a b) (up : b.running = true) (second : Kept b c) :
    Kept a c where
  selected := second.selected.trans first.selected
  longer := first.longer.trans second.longer
  within := first.whole up ▸ second.within
  whole running := (second.whole running).trans (first.whole up)
  size := second.size
  synced := first.synced.trans second.synced
  bound := second.bound

theorem writeBuffer_kept (up : s.running = true) (size : s.aof_current_size = s.aof_file.length)
    (bound : s.synced ≤ s.aof_file.length) : Kept s (writeBuffer opts e busy s) := by
  have part (n : ℕ) : s.aof_file ++ s.aof_buf.take n <+: s.aof_file ++ s.aof_buf :=
    (List.prefix_append_right_inj _).mpr (List.take_prefix n _)
  unfold writeBuffer
  dsimp only
  split
  · rename_i all
    rw [all, Option.getD_some, List.take_length]
    refine Kept.trans (b := { s with
      aof_file := s.aof_file ++ s.aof_buf
      aof_flush_postponed_start := 0
      aof_last_write_status := true
      aof_current_size := s.aof_current_size + s.aof_buf.length
      aof_buf := [] }) ?_ up (tryFsync_kept ?_ ?_)
    · refine ⟨rfl, List.prefix_append _ _, List.prefix_rfl, fun _ => List.append_nil _, fun _ => ?_,
        Nat.le_refl _, ?_⟩
      · dsimp only
        rw [size, List.length_append]
      · dsimp only
        rw [List.length_append]
        omega
    · dsimp only
      rw [size, List.length_append]
    · dsimp only
      rw [List.length_append]
      omega
  · rename_i not_all
    -- how much a write that did not do everything has done
    have fits : (aofWrite s.aof_buf.length e.writes 0).getD 0 ≤ s.aof_buf.length := by
      cases wrote : aofWrite s.aof_buf.length e.writes 0 with
      | none => exact Nat.zero_le _
      | some t =>
        have bound := (aofWrite_le wrote).2
        rw [Option.getD_some]
        omega
    generalize (aofWrite s.aof_buf.length e.writes 0).getD 0 = t at fits ⊢
    have back : (s.aof_file ++ s.aof_buf.take t).take s.aof_current_size = s.aof_file := by
      rw [size, List.take_left]
    have least : min s.synced s.aof_current_size = s.synced := by omega
    have longer : (s.aof_file ++ s.aof_buf.take t).length = s.aof_file.length + t := by
      rw [List.length_append, List.length_take, Nat.min_eq_left fits]
    cases undone : (aofWrite s.aof_buf.length e.writes 0).isSome && e.ftruncates with
    | true =>
      simp only [if_true, back, least]
      split
      · exact ⟨rfl, List.prefix_rfl, List.prefix_append _ _, nofun, nofun, Nat.le_refl _, bound⟩
      · exact ⟨rfl, List.prefix_rfl, List.prefix_append _ _, fun _ => rfl, fun _ => size,
          Nat.le_refl _, bound⟩
    | false =>
      simp only [Bool.false_eq_true, if_false]
      split
      · refine ⟨rfl, List.prefix_append _ _, part t, nofun, nofun, Nat.le_refl _, ?_⟩
        dsimp only
        omega
      · refine ⟨rfl, List.prefix_append _ _, part t, fun _ => ?_, fun _ => ?_, Nat.le_refl _, ?_⟩
        · dsimp only
          rw [List.append_assoc, List.take_append_drop]
        · dsimp only
          omega
        · dsimp only
          omega

theorem writeBuffer_synced (always : opts.Always)
    (up : (writeBuffer opts e busy s).running = true) :
    (writeBuffer opts e busy s).synced = (writeBuffer opts e busy s).aof_file.length ∧
      (writeBuffer opts e busy s).aof_buf = [] := by
  unfold writeBuffer at up ⊢
  dsimp only at up ⊢
  split at up
  · rename_i all
    rw [if_pos all]
    exact tryFsync_synced always up
  · rw [if_pos always.fsync] at up
    cases up

theorem flush_kept (up : s.running = true) (size : s.aof_current_size = s.aof_file.length)
    (bound : s.synced ≤ s.aof_file.length) : Kept s (flushAppendOnlyFile opts e s) := by
  have same : Kept s s := ⟨rfl, List.prefix_rfl, List.prefix_append _ _, fun _ => rfl, fun _ => size,
    Nat.le_refl _, bound⟩
  unfold flushAppendOnlyFile
  dsimp only
  repeat' split
  · exact tryFsync_kept size bound
  · exact same
  · exact ⟨rfl, List.prefix_rfl, List.prefix_append _ _, fun _ => rfl, fun _ => size, Nat.le_refl _,
      bound⟩
  · exact same
  · exact writeBuffer_kept up size bound
  · exact writeBuffer_kept up size bound

/-- A flush that the server survives has put everything on the disk. -/
theorem flush_synced (always : opts.Always) (up : (flushAppendOnlyFile opts e s).running = true)
    (before : s.aof_buf = [] → s.synced = s.aof_file.length) :
    (flushAppendOnlyFile opts e s).synced = (flushAppendOnlyFile opts e s).aof_file.length ∧
      (flushAppendOnlyFile opts e s).aof_buf = [] := by
  have other : opts.aof_fsync ≠ .AOF_FSYNC_EVERYSEC := by
    rw [always.fsync]
    exact nofun
  unfold flushAppendOnlyFile at up ⊢
  dsimp only at up ⊢
  split at up
  · rename_i empty
    rw [if_pos empty, if_neg fun known => other known.1]
    exact ⟨before empty, empty⟩
  · rename_i some
    rw [if_neg some]
    rw [if_neg fun known => other known.1] at up ⊢
    exact writeBuffer_synced always up

end Flush

/-! Runs. -/

/-- The entries among records, each with where it ends. -/
def ends (pos : ℕ) : List Record → List (Entry × ℕ)
  | [] => []
  | r :: rs =>
      let upto := pos + (r.commands.flatMap encode).length
      (r.entry.map fun e => (e, upto)).toList ++ ends upto rs

section Ends
variable {rs : List Record} {pos : ℕ}

theorem spell_cons (r : Record) (rs : List Record) :
    spell (r :: rs) = r.commands.flatMap encode ++ spell rs := by
  rw [spell, List.flatMap_cons, List.flatMap_append, spell]

theorem ends_append (rs more : List Record) :
    ends pos (rs ++ more) = ends pos rs ++ ends (pos + (spell rs).length) more := by
  induction rs generalizing pos with
  | nil => rfl
  | cons r rs ih =>
    rw [List.cons_append, ends, ends, ih, spell_cons, List.length_append, List.append_assoc,
      Nat.add_assoc]

theorem ends_entries (rs : List Record) : (ends pos rs).map Prod.fst = entries rs := by
  induction rs generalizing pos with
  | nil => rfl
  | cons r rs ih =>
    have first : entries (r :: rs) = r.entry.toList ++ entries rs := by
      rw [entries, List.filterMap_cons]
      cases r.entry <;> rfl
    rw [ends, List.map_append, ih, first]
    cases r.entry <;> rfl

theorem ends_plain (plain : ∀ r ∈ rs, r.entry = none) : ends pos rs = [] := by
  induction rs generalizing pos with
  | nil => rfl
  | cons r rs ih =>
    obtain ⟨first, plain⟩ := List.forall_mem_cons.mp plain
    rw [ends, first, ih plain]
    rfl

theorem ends_high (rs : List Record) : ∀ x ∈ ends pos rs, pos ≤ x.2 := by
  induction rs generalizing pos with
  | nil => exact nofun
  | cons r rs ih =>
    rw [ends, List.forall_mem_append]
    refine ⟨?_, fun x member => (Nat.le_add_right _ _).trans (ih x member)⟩
    cases r.entry with
    | none => exact nofun
    | some e => exact List.forall_mem_singleton.mpr (Nat.le_add_right _ _)

theorem ends_low (rs : List Record) : ∀ x ∈ ends pos rs, x.2 ≤ pos + (spell rs).length := by
  induction rs generalizing pos with
  | nil => exact nofun
  | cons r rs ih =>
    rw [ends, List.forall_mem_append, spell_cons, List.length_append, ← Nat.add_assoc]
    refine ⟨?_, ih⟩
    cases r.entry with
    | none => exact nofun
    | some e => exact List.forall_mem_singleton.mpr (Nat.le_add_right _ _)

/-- The entries that are all there are those of the whole records. -/
theorem takeWhile_ends {m len : ℕ} (low : (spell (rs.take m)).length ≤ len)
    (high : m < rs.length → len < (spell (rs.take (m + 1))).length) :
    (ends 0 rs).takeWhile (fun entry => entry.2 ≤ len) = ends 0 (rs.take m) := by
  have inside : ∀ x ∈ ends 0 (rs.take m), decide (x.2 ≤ len) = true := fun x member =>
    decide_eq_true ((ends_low _ x member).trans (by omega))
  conv_lhs => rw [← List.take_append_drop m rs, ends_append]
  rw [List.takeWhile_append_of_pos inside]
  rcases Nat.lt_or_ge m rs.length with more | all
  · have late := high more
    rw [← List.take_append_getElem more, spell_append, List.length_append, spell_cons] at late
    have behind : ∀ x ∈ ends (0 + (spell (rs.take m)).length) (rs.drop m), ¬ x.2 ≤ len := by
      rw [List.drop_eq_getElem_cons more, ends, List.forall_mem_append]
      have size : (spell ([] : List Record)).length = 0 := rfl
      rw [List.length_append, size] at late
      refine ⟨?_, fun x member => ?_⟩
      · cases rs[m].entry with
        | none => exact nofun
        | some e =>
          refine List.forall_mem_singleton.mpr ?_
          dsimp only
          omega
      · have low := ends_high _ x member
        omega
    have none : (ends (0 + (spell (rs.take m)).length) (rs.drop m)).takeWhile
        (fun entry => entry.2 ≤ len) = [] := by
      cases rest : ends (0 + (spell (rs.take m)).length) (rs.drop m) with
      | nil => rfl
      | cons x rest' =>
        rw [List.takeWhile_cons_of_neg]
        have late := behind x (by rw [rest]; exact List.mem_cons_self)
        simpa using late
    rw [none, List.append_nil]
  · rw [List.drop_of_length_le all]
    exact List.append_nil _

end Ends

section Run
variable {σ : Type} {p : Commands σ} {opts : Options} {prompt : Prop} {w w' : World σ}
  {rs : List Record} {sel : Option ℕ}

/-- What the file and its buffer hold, in terms of what the server has executed; `prompt` is
whether replies have left as they should. -/
structure Inv (p : Commands σ) (opts : Options) (prompt : Prop) (w : World σ) (rs : List Record)
    (sel : Option ℕ) : Prop where
  written : Written p rs sel
  log : w.log = ends 0 rs
  bound : w.server.synced ≤ w.server.aof_file.length
  whole : w.server.running = true → w.server.aof_file ++ w.server.aof_buf = spell rs
  selected : w.server.running = true → w.server.aof_selected_db = sel
  size : w.server.running = true → w.server.aof_current_size = w.server.aof_file.length
  data : w.server.running = true → w.data = replay p (entries rs)
  down : w.server.running = false → w.server.aof_file <+: spell rs
  acked : opts.Always → prompt → ∃ j ≤ rs.length, w.acked <+: entries (rs.take j) ∧
    (spell (rs.take j)).length ≤ w.server.synced
  fresh : opts.Always → w.server.running = true → w.fresh = true → w.server.aof_buf = [] →
    w.server.synced = w.server.aof_file.length

theorem feeds_eq (feeds : List Feed) (s : Appender) : feeds.foldl Appender.feed s =
    { s with
      aof_buf := s.aof_buf ++ (commands s.aof_selected_db feeds).flatMap encode
      aof_selected_db := selected s.aof_selected_db feeds } := by
  induction feeds generalizing s with
  | nil =>
    rw [commands, List.flatMap_nil, List.append_nil]
    rfl
  | cons f feeds ih =>
    have behind : selected s.aof_selected_db (f :: feeds) = selected (some f.dictid) feeds := by
      rw [selected, selected, List.getLast?_cons]
      cases feeds.getLast? <;> rfl
    rw [List.foldl_cons, ih, behind]
    simp only [Appender.feed, feedAppendOnlyFile_eq, commands, List.flatMap_append,
      List.flatMap_cons, List.flatMap_nil, List.append_nil, List.append_assoc]

theorem Inv.file_start (inv : Inv p opts prompt w rs sel) : w.server.aof_file <+: spell rs := by
  cases up : w.server.running with
  | true => exact inv.whole up ▸ List.prefix_append _ _
  | false => exact inv.down up

theorem Inv.perform {e : Entry} (inv : Inv p opts prompt w rs sel) (up : w.server.running = true)
    (ok : e.Ok p) : Inv p opts prompt (w.performed p e) (rs ++ [⟨some e, e.commands sel⟩])
      (Aof.selected sel e.feeds) := by
  have whole := inv.whole up
  have selected := inv.selected up
  have spelled : spell (rs ++ [⟨some e, e.commands sel⟩]) =
      spell rs ++ (e.commands sel).flatMap encode := by
    rw [spell_append, spell_cons]
    exact congrArg _ (List.append_nil _)
  have server : (w.performed p e).server =
      { w.server with
        aof_buf := w.server.aof_buf ++ (e.commands sel).flatMap encode
        aof_selected_db := Aof.selected sel e.feeds } := by
    rw [World.performed, feeds_eq, selected]
    rfl
  refine ⟨.entry inv.written ok, ?_, ?_, fun _ => ?_, fun _ => ?_, fun _ => ?_, fun _ => ?_, ?_, ?_,
    ?_⟩
  · have behind : (spell rs).length + ((e.commands sel).flatMap encode).length =
        (w.performed p e).server.aof_file.length + (w.performed p e).server.aof_buf.length := by
      rw [server, ← whole]
      simp only [List.length_append]
      omega
    rw [ends_append, ← inv.log, Nat.zero_add, ends, ends, behind]
    rfl
  · rw [server]
    exact inv.bound
  · rw [server, spelled, ← whole]
    exact (List.append_assoc _ _ _).symm
  · rw [server]
  · rw [server]
    exact inv.size up
  · rw [entries, List.filterMap_append, replay, List.foldl_append, ← entries, ← replay,
      ← inv.data up]
    rfl
  · rw [server]
    intro stopped
    cases up.symm.trans stopped
  · intro always told
    obtain ⟨j, inside, acked, durable⟩ := inv.acked always told
    refine ⟨j, by rw [List.length_append]; omega, ?_, ?_⟩
    · rw [List.take_append_of_le_length inside]
      exact acked
    · rw [List.take_append_of_le_length inside, server]
      exact durable
  · intro _ _ _ empty
    rw [server] at empty
    have none := (List.append_eq_nil_iff.mp empty).2
    obtain ⟨argv, cs, shape⟩ := List.exists_cons_of_ne_nil (Entry.commands_ne_nil e sel)
    rw [shape, List.flatMap_cons] at none
    have pos := length_encode_pos argv
    rw [(List.append_eq_nil_iff.mp none).1] at pos
    cases pos

theorem Inv.flush {e : Flush} (inv : Inv p opts prompt w rs sel) (up : w.server.running = true) :
    Inv p opts prompt (w.flushed opts e) rs sel := by
  have kept : Kept w.server (w.flushed opts e).server := flush_kept up (inv.size up) inv.bound
  have whole := inv.whole up
  refine ⟨inv.written, inv.log, kept.bound, fun up => (kept.whole up).trans whole,
    fun _ => kept.selected.trans (inv.selected up), kept.size, fun _ => inv.data up, fun _ => ?_,
    fun always told => ?_, fun always running fresh _ => ?_⟩
  · rw [← whole]
    exact kept.within
  · obtain ⟨j, inside, acked, durable⟩ := inv.acked always told
    exact ⟨j, inside, acked, durable.trans kept.synced⟩
  · exact (flush_synced always running (inv.fresh always up fresh)).1

/-- Replies that leave, when what they tell of is on the disk. -/
theorem Inv.reply (inv : Inv p opts prompt w rs sel) (up : w.server.running = true)
    (durable : opts.Always → prompt → w.server.aof_buf = [] ∧ w.server.synced = w.server.aof_file.length) :
    Inv p opts prompt { w with acked := w.log.map Prod.fst } rs sel := by
  refine ⟨inv.written, inv.log, inv.bound, inv.whole, inv.selected, inv.size, inv.data, inv.down,
    fun always told => ?_, inv.fresh⟩
  obtain ⟨empty, synced⟩ := durable always told
  have all : w.log.map Prod.fst = entries (rs.take rs.length) := by
    rw [inv.log, ends_entries, List.take_length]
  refine ⟨rs.length, Nat.le_refl _, all ▸ List.prefix_rfl, ?_⟩
  rw [List.take_length, ← inv.whole up, empty, List.append_nil, synced]

theorem Inv.beforeSleep {e : Flush} {blocked : Bool} (inv : Inv p opts prompt w rs sel)
    (up : w.server.running = true) (told : prompt → Prompt w (.beforeSleep blocked e)) :
    let w' := if blocked then w else w.flushed opts e
    Inv p opts prompt
      { w' with acked := if w'.server.running then w'.log.map Prod.fst else w'.acked } rs sel := by
  cases blocked with
  | true =>
    intro w'
    have running : w'.server.running = true := up
    simp only [running, if_true]
    exact inv.reply up fun _ met => absurd (told met).1 nofun
  | false =>
    intro w'
    have flushed : Inv p opts prompt w' rs sel := inv.flush up
    split
    · rename_i running
      refine flushed.reply running fun always met => ?_
      have clean : w.server.aof_buf = [] → w.server.synced = w.server.aof_file.length := fun empty =>
        (told met).2.elim (fun fresh => inv.fresh always up fresh empty) id
      exact (flush_synced always running clean).symm
    · exact flushed

/-- A server that loads what is left of its file has the entries that are all there, and
all that clients have been told. -/
theorem Inv.start {data : σ} {kept : Bytes} {truncates : Bool} (inv : Inv p opts prompt w rs sel)
    (whole : torn p opts w.server.aof_file = false)
    (loaded : loadAppendOnlyFile p opts truncates w.server.aof_file = some (data, kept))
    (unixtime : ℕ) : ∃ rs, Inv p opts prompt (w.started unixtime data kept) rs none := by
  obtain ⟨m, extra, recovered⟩ := inv.written.recovered inv.file_start whole loaded
  have log : (w.started unixtime data kept).log = ends 0 (rs.take m ++ extra) := by
    rw [ends_append, ends_plain recovered.plain, List.append_nil]
    simp only [World.started]
    rw [inv.log]
    exact takeWhile_ends recovered.low recovered.high
  have same : entries (rs.take m ++ extra) = entries (rs.take m) := by
    rw [entries, List.filterMap_append, ← entries]
    have none : extra.filterMap Record.entry = [] := List.filterMap_eq_nil_iff.mpr recovered.plain
    rw [none, List.append_nil]
  refine ⟨rs.take m ++ extra, recovered.written, log, Nat.min_le_right _ _, fun _ => ?_, fun _ => rfl,
    fun _ => rfl, fun _ => ?_, (fun stopped => by cases stopped),
    fun always told => ?_, (fun _ _ fresh => by cases fresh)⟩
  · exact (List.append_nil _).trans recovered.spelled
  · rw [same]
    exact recovered.data
  · obtain ⟨j, inside, acked, durable⟩ := inv.acked always told
    have bound := inv.bound
    have reached : j ≤ m := by
      by_contra late
      have upto : (spell (rs.take (m + 1))).length ≤ (spell (rs.take j)).length := by
        have start : rs.take (m + 1) <+: rs.take j := List.take_prefix_take_left (by omega)
        obtain ⟨more, shape⟩ := start
        rw [← shape, spell_append, List.length_append]
        exact Nat.le_add_right _ _
      have high := recovered.high (by omega)
      omega
    have within := recovered.within
    have taken : (rs.take m ++ extra).take j = rs.take j := by
      rw [List.take_append_of_le_length (by rw [List.length_take]; omega), List.take_take,
        Nat.min_eq_left reached]
    have upto : (spell (rs.take j)).length ≤ kept.length := by
      rw [recovered.spelled]
      obtain ⟨more, shape⟩ : rs.take j <+: rs.take m ++ extra := taken ▸ List.take_prefix _ _
      rw [← shape, spell_append, List.length_append]
      exact Nat.le_add_right _ _
    refine ⟨j, ?_, ?_, ?_⟩
    · rw [List.length_append, List.length_take]
      omega
    · rw [taken]
      exact acked
    · rw [taken]
      exact Nat.le_min.mpr ⟨durable, upto⟩

theorem Inv.step {ev : Event} (inv : Inv p opts prompt w rs sel) (met : Sensible p opts w ev)
    (told : prompt → Prompt w ev) (stepped : step p opts w ev = some w') :
    ∃ rs sel, Inv p opts prompt w' rs sel := by
  cases ev with
  | start unixtime truncates =>
    simp only [Aof.step] at stepped
    split at stepped
    · cases stepped
    · split at stepped <;> cases stepped
      · exact ⟨rs, sel, inv⟩
      · rename_i loaded
        obtain ⟨rs, started⟩ := inv.start met loaded unixtime
        exact ⟨rs, none, started⟩
  | perform e =>
    simp only [Aof.step, Option.ite_none_right_eq_some] at stepped
    obtain ⟨up, performed⟩ := stepped
    cases performed
    exact ⟨_, _, inv.perform up met⟩
  | flush e =>
    simp only [Aof.step, Option.ite_none_right_eq_some] at stepped
    obtain ⟨up, flushed⟩ := stepped
    cases flushed
    exact ⟨rs, sel, inv.flush up⟩
  | beforeSleep blocked e =>
    simp only [Aof.step, Option.ite_none_right_eq_some] at stepped
    obtain ⟨up, slept⟩ := stepped
    cases slept
    exact ⟨rs, sel, inv.beforeSleep up told⟩
  | sync k =>
    simp only [Aof.step, Option.ite_none_right_eq_some] at stepped
    obtain ⟨⟨low, high⟩, synced⟩ := stepped
    cases synced
    refine ⟨rs, sel, inv.written, inv.log, high, inv.whole, inv.selected, inv.size, inv.data,
      inv.down, fun always told => ?_, fun always up fresh empty => ?_⟩
    · obtain ⟨j, inside, acked, durable⟩ := inv.acked always told
      exact ⟨j, inside, acked, durable.trans low⟩
    · have all := inv.fresh always up fresh empty
      rw [all] at low
      exact Nat.le_antisymm high low
  | crash k =>
    simp only [Aof.step, Option.ite_none_right_eq_some] at stepped
    obtain ⟨⟨low, high⟩, crashed⟩ := stepped
    cases crashed
    refine ⟨rs, sel, inv.written, inv.log, ?_, nofun, nofun, nofun, nofun, fun _ => ?_,
      fun always told => ?_, nofun⟩
    · exact Nat.le_of_eq (List.length_take_of_le high).symm
    · exact (List.take_prefix k _).trans inv.file_start
    · obtain ⟨j, inside, acked, durable⟩ := inv.acked always told
      exact ⟨j, inside, acked, durable.trans low⟩

theorem init_inv (p : Commands σ) (opts : Options) (prompt : Prop) :
    Inv p opts prompt (World.init p) [] none where
  written := .nil
  log := rfl
  bound := Nat.le_refl 0
  whole := nofun
  selected := nofun
  size := nofun
  data := nofun
  down _ := List.prefix_rfl
  acked _ _ := ⟨0, Nat.le_refl 0, List.prefix_rfl, Nat.le_refl 0⟩
  fresh := fun _ => nofun

theorem Inv.of_path (path : Runs.Path (Aof.step p opts)
    (fun w ev => Sensible p opts w ev ∧ (prompt → Prompt w ev)) (World.init p) evs w) :
    ∃ rs sel, Inv p opts prompt w rs sel :=
  path.invariant (fun w => ∃ rs sel, Inv p opts prompt w rs sel) ⟨[], none, init_inv p opts prompt⟩
    fun ⟨_, _, inv⟩ met stepped => inv.step met.1 met.2 stepped

theorem Inv.of_sensible (path : Runs.Path (Aof.step p opts) (Sensible p opts) (World.init p) evs w) :
    ∃ rs sel, Inv p opts False w rs sel :=
  Inv.of_path (path.mono fun _ _ met => ⟨met, False.elim⟩)

/-- Through any number of crashes and starts, the dataset is that of the entries the server
has kept, each as a whole; with `appendfsync always` these include all that clients can know
of, when replies leave as they should; and with `aof-load-truncated` no crash leaves a file
that cannot be loaded. -/
theorem recovers (path : Runs.Path (step p opts) (Sensible p opts) (World.init p) evs w) :
    (w.server.running = true → w.data = replay p (w.log.map Prod.fst)) ∧
      (opts.Always → Runs.Path (step p opts) Prompt (World.init p) evs w →
        w.acked <+: w.log.map Prod.fst) ∧
      (opts.aof_load_truncated = true →
        (loadAppendOnlyFile p opts true w.server.aof_file).isSome = true) := by
  obtain ⟨rs, sel, inv⟩ := Inv.of_sensible path
  refine ⟨fun up => ?_, fun always told => ?_, fun enabled => inv.written.loads inv.file_start enabled⟩
  · rw [inv.log, ends_entries]
    exact inv.data up
  · obtain ⟨rs, sel, inv⟩ : ∃ rs sel, Inv p opts True w rs sel :=
      Inv.of_path ((path.both told).mono fun _ _ met => ⟨met.1, fun _ => met.2⟩)
    obtain ⟨j, -, acked, -⟩ := inv.acked always trivial
    have start : entries (rs.take j) <+: entries rs := (List.take_prefix j rs).filterMap _
    rw [inv.log, ends_entries]
    exact acked.trans start

/-- A keyspace with nothing but SET. -/
def setOnly : Commands (List ((ℕ × Bytes) × Bytes)) where
  dbnum := 16
  known name := name == ascii "set"
  proc data db argv :=
    ((db, argv.getD 1 []), argv.getD 2 []) :: data.filter (·.1 ≠ (db, argv.getD 1 []))
  empty := []
  rdbLoadRio _ := none

def setFeed (db : ℕ) (key val : Bytes) : Feed := ⟨.setCommand, db, [ascii "SET", key, val], 0⟩

def execFeed (db : ℕ) : Feed := ⟨.otherCommand, db, [ascii "EXEC"], 0⟩

def always : Options := ⟨.AOF_FSYNC_ALWAYS, false, true⟩

/-- A flush of the whole buffer, and one that stops somewhere. -/
def flushing (writes : List (Option ℕ)) : Flush := ⟨false, false, false, 7, writes, false, true⟩

instance (kind : Kind) (f : Feed) : Decidable (f.Ok setOnly kind) :=
  decidable_of_iff (((f.dictid < setOnly.dbnum ∧ f.dictid < 2 ^ 31) ∧ (f.written ≠ [] ∧
    f.written.length < 2 ^ 31 ∧ ∀ arg ∈ f.written, arg.length < 2 ^ 63)) ∧
      setOnly.lookupCommand (f.written.headD []) = some kind)
    ⟨fun ⟨⟨db, nonempty, argc, lengths⟩, kind⟩ => ⟨db, ⟨nonempty, argc, lengths⟩, kind⟩,
      fun ok => ⟨⟨ok.db, ok.fits.some, ok.fits.argc, ok.fits.lengths⟩, ok.kind⟩⟩

instance : DecidablePred (Entry.Ok setOnly) := fun
  | .single f => inferInstanceAs (Decidable (f.Ok setOnly .other))
  | .transaction first more exec =>
      inferInstanceAs (Decidable ((∀ f ∈ first :: more, f.Ok setOnly .other) ∧ exec.Ok setOnly .exec))

instance (opts : Options) (w : World (List ((ℕ × Bytes) × Bytes))) :
    DecidablePred (Sensible setOnly opts w) := fun ev => by
  unfold Sensible
  split <;> infer_instance

instance (w : World (List ((ℕ × Bytes) × Bytes))) : DecidablePred (Prompt w) := fun ev => by
  unfold Prompt
  split <;> infer_instance

/-- The second flush stops behind the first command of the transaction. -/
def crashing : List Event :=
  [.start 1 true, .perform (.single (setFeed 0 (ascii "k") (ascii "v"))),
    .beforeSleep false (flushing [none, some 20, some 100]),
    .perform (.transaction (setFeed 1 (ascii "a") (ascii "b")) [setFeed 1 (ascii "c") (ascii "d")]
      (execFeed 1)),
    .beforeSleep false (flushing [some 65]), .crash 115, .start 2 true]

def restarted : World (List ((ℕ × Bytes) × Bytes)) :=
  (Runs.run (step setOnly always) (World.init setOnly) crashing).getD (World.init setOnly)

theorem recovers_restarted :
    restarted.data = replay setOnly [.single (setFeed 0 (ascii "k") (ascii "v"))] ∧
      restarted.acked <+: [.single (setFeed 0 (ascii "k") (ascii "v"))] ∧
      (loadAppendOnlyFile setOnly always true restarted.server.aof_file).isSome = true := by
  have path : Runs.Path (step setOnly always) (Sensible setOnly always) (World.init setOnly) crashing
      restarted := .of_run (by decide +kernel)
  have told : Runs.Path (step setOnly always) Prompt (World.init setOnly) crashing restarted :=
    .of_run (by decide +kernel)
  have log : restarted.log.map Prod.fst = [.single (setFeed 0 (ascii "k") (ascii "v"))] := by
    decide +kernel
  have recovered := recovers path
  rw [log] at recovered
  exact ⟨recovered.1 (by decide +kernel), recovered.2.1 ⟨rfl, rfl⟩ told, recovered.2.2 rfl⟩

/-! Files that have been cut off inside a command of a transaction. -/

/-- The transaction that is left open in the file. -/
theorem Reaches.torn {file part : Bytes} {m : ℕ} {pre queue : List (List Bytes)} {open_ : Bool}
    (reaches : Reaches p opts rs file m pre queue open_ part) (written : Written p rs sel)
    (cut : torn p opts file = true) : open_ = true ∧ part ≠ [] := by
  obtain ⟨s, scanned, -, multi⟩ := reaches.fake written
  rw [Aof.torn, scanned] at cut
  simp only [multi, Bool.and_eq_true, decide_eq_true_eq] at cut
  refine ⟨?_, cut.1⟩
  by_contra closed
  rw [if_neg closed] at cut
  cases cut.2

/-- What a start leaves of such a file. -/
theorem Reaches.left {file part kept : Bytes} {m : ℕ} {pre queue : List (List Bytes)} {data : σ}
    {truncates : Bool} (reaches : Reaches p opts rs file m pre queue true part)
    (written : Written p rs sel) (more : part ≠ [])
    (loaded : loadAppendOnlyFile p opts truncates file = some (data, kept)) :
    opts.aof_load_truncated = true ∧ data = replay p (entries (rs.take m)) ∧
      kept = ((rs.take m).flatMap Record.commands ++
        (pre ++ [ascii "MULTI"] :: queue)).flatMap encode := by
  obtain ⟨s, scanned, result, -⟩ := reaches.fake written
  have spelled := reaches.spelled
  have whole := reaches.scanned
  rw [if_pos rfl] at spelled whole
  rw [loadAppendOnlyFile] at loaded
  split at loaded
  · rename_i empty
    rw [empty] at spelled
    exact absurd (List.append_eq_nil_iff.mp (List.append_eq_nil_iff.mp spelled.symm).2).2 more
  · rw [scanned, Option.bind_some] at loaded
    dsimp only at loaded
    rw [if_neg fun clean => more (by simpa using clean.1)] at loaded
    split at loaded <;> cases loaded
    rename_i truncated
    have enabled := (Bool.and_eq_true _ _ ▸ truncated).1
    cases scanned.symm.trans whole
    have start : (Loader.init p).valid_up_to = 0 := rfl
    have front : file = ((rs.take m).flatMap Record.commands ++
        (pre ++ [ascii "MULTI"] :: queue)).flatMap encode ++ part := by
      rw [spelled, spell, ← List.append_assoc, ← List.flatMap_append]
    refine ⟨enabled, result, ?_⟩
    rw [if_pos (by simpa using more), Loader.steps_valid enabled start, Nat.zero_add, front,
      List.take_left]

/-- A file that ends within a transaction, though not within a command. -/
theorem Written.load_open {cs pre queue : List (List Bytes)} (written : Written p rs sel)
    (begun : Begun p cs pre queue true)
    (readable : ∀ argv ∈ rs.flatMap Record.commands ++ cs, Readable p argv)
    (enabled : opts.aof_load_truncated = true) :
    loadAppendOnlyFile p opts true ((rs.flatMap Record.commands ++ cs).flatMap encode) =
      Option.some (replay p (entries rs), (rs.flatMap Record.commands ++ pre).flatMap encode) := by
  have shape : cs = pre ++ [ascii "MULTI"] :: queue := begun.shape
  obtain ⟨db, ran, -⟩ := written.run
  obtain ⟨d, opened⟩ := begun.run (f := ⟨replay p (entries rs), db, none⟩) rfl
  have cut : Logs.Cut encode (rs.flatMap Record.commands ++ cs)
      ((rs.flatMap Record.commands ++ cs).flatMap encode) _ [] :=
    ⟨Nat.le_refl _, by rw [List.take_length, List.append_nil], .inl rfl⟩
  have scanned := scanFile_cut opts readable List.prefix_rfl cut
  rw [List.take_length] at scanned
  have fake : ((Loader.init p).steps p opts 0 (rs.flatMap Record.commands ++ cs)).fake =
      ⟨replay p (entries rs), d, Option.some queue⟩ := by
    rw [Loader.steps_fake, List.foldl_append, Loader.init, ran, opened, if_pos rfl]
  have other : ∀ argv ∈ queue, p.lookupCommand (argv.headD []) ≠ Option.some .multi := by
    intro argv member
    obtain ⟨kind, looked, -, other⟩ := begun.queue argv member
    rw [looked]
    exact fun same => other (Option.some.inj same)
  have start : (Loader.init p).valid_up_to = 0 := rfl
  have back := Loader.steps_multi enabled start (rs.flatMap Record.commands ++ pre) queue other
  rw [Nat.zero_add, List.append_assoc, ← shape] at back
  have nonempty : (rs.flatMap Record.commands ++ cs).flatMap encode ≠ [] := by
    intro none
    have few := length_commands_le (rs.flatMap Record.commands ++ cs)
    rw [none, shape] at few
    simp at few
  have front : (rs.flatMap Record.commands ++ cs).flatMap encode =
      (rs.flatMap Record.commands ++ pre).flatMap encode ++
        ([ascii "MULTI"] :: queue).flatMap encode := by
    rw [shape, ← List.append_assoc, List.flatMap_append]
  rw [loadAppendOnlyFile, if_neg nonempty, scanned, Option.bind_some]
  dsimp only
  rw [fake, if_neg (fun clean => by cases clean.2), enabled, Bool.and_self, if_pos rfl,
    if_neg (by simp), back, front, List.take_left]

/-- What a start makes of a file that was cut off inside a command of a transaction: the
dataset of the entries before it, and a file that ends with its MULTI and those of its commands
that are complete. -/
structure Dropped (p : Commands σ) (w : World σ) (data : σ) (kept : Bytes) (before : List Entry)
    (first : Feed) (more : List Feed) (exec : Feed) : Prop where
  log : before ++ [.transaction first more exec] <+: w.log.map Prod.fst
  loaded : data = replay p before
  cut : ∃ part, part ≠ [] ∧ w.server.aof_file = kept ++ part
  left : ∃ rs queue, Written p rs none ∧ entries rs = before ∧ queue <+: body first more exec ∧
    kept = spell rs ++ ([ascii "MULTI"] :: queue).flatMap encode

theorem Reaches.dropped {part kept : Bytes} {m : ℕ} {pre queue : List (List Bytes)} {data : σ}
    {truncates : Bool} (inv : Inv p opts prompt w rs sel)
    (reaches : Reaches p opts rs w.server.aof_file m pre queue true part) (more : part ≠ [])
    (loaded : loadAppendOnlyFile p opts truncates w.server.aof_file = some (data, kept)) :
    ∃ first others exec, Dropped p w data kept (entries (rs.take m)) first others exec := by
  obtain ⟨-, result, kept_eq⟩ := reaches.left inv.written more loaded
  obtain ⟨_, before⟩ := inv.written.take m
  obtain ⟨extra, plain, behind, spelled⟩ := reaches.begun.record before
  obtain ⟨r, first, others, exec, there, entry, queued⟩ := reaches.within rfl
  have file_eq := reaches.spelled
  rw [if_pos rfl, List.flatMap_append] at file_eq
  have front : kept = spell (rs.take m) ++ (pre.flatMap encode ++
      ([ascii "MULTI"] :: queue).flatMap encode) := by
    rw [kept_eq, List.flatMap_append, List.flatMap_append, spell]
  refine ⟨first, others, exec, ?_, result, ⟨part, more, ?_⟩,
    rs.take m ++ extra, queue, behind, ?_, queued, ?_⟩
  · obtain ⟨inside, rfl⟩ := List.getElem?_eq_some_iff.mp there
    have next : rs.take (m + 1) = rs.take m ++ [rs[m]] := (List.take_append_getElem inside).symm
    have entries_eq : entries (rs.take (m + 1)) =
        entries (rs.take m) ++ [.transaction first others exec] := by
      rw [next, entries, entries, List.filterMap_append, List.filterMap_cons, entry]
      rfl
    rw [inv.log, ends_entries, ← entries_eq]
    exact (List.take_prefix (m + 1) rs).filterMap Record.entry
  · simp only [file_eq, front, List.append_assoc]
  · have none_ : extra.filterMap Record.entry = [] := List.filterMap_eq_nil_iff.mpr plain
    rw [entries, List.filterMap_append, none_, List.append_nil, entries]
  · rw [front, spell_append, ← spelled, List.append_assoc]

/-- A file that was cut off inside a command of a transaction is loaded without it, but its
MULTI stays: whatever is then executed outside of transactions and written behind it, the
next start forgets all of it. -/
theorem torn_forgets {feeds : List Feed} {data : σ} {kept : Bytes} {truncates : Bool}
    (path : Runs.Path (step p opts) (Sensible p opts) (World.init p) evs w)
    (cut : torn p opts w.server.aof_file = true)
    (loaded : loadAppendOnlyFile p opts truncates w.server.aof_file = some (data, kept))
    (ok : ∀ f ∈ feeds, f.Ok p .other) :
    let server := feeds.foldl Appender.feed (w.started unixtime data kept).server
    (∃ before first more exec, Dropped p w data kept before first more exec) ∧
      ∃ kept', loadAppendOnlyFile p opts true (server.aof_file ++ server.aof_buf) =
        some (data, kept') ∧ kept' <+: kept := by
  obtain ⟨rs, sel, inv⟩ := Inv.of_sensible path
  obtain ⟨m, pre, queue, open_, part, -, reaches⟩ := inv.written.reaches opts inv.file_start
  obtain ⟨rfl, more⟩ := reaches.torn inv.written cut
  obtain ⟨enabled, result, kept_eq⟩ := reaches.left inv.written more loaded
  obtain ⟨_, before⟩ := inv.written.take m
  intro server
  have behind : Begun p (pre ++ [ascii "MULTI"] :: (queue ++ commands none feeds)) pre
      (queue ++ commands none feeds) true :=
    ⟨rfl, reaches.begun.select,
      List.forall_mem_append.mpr ⟨reaches.begun.queue, put_off_feeds none ok⟩⟩
  have all : server.aof_file ++ server.aof_buf = ((rs.take m).flatMap Record.commands ++
      (pre ++ [ascii "MULTI"] :: (queue ++ commands none feeds))).flatMap encode := by
    have both : server.aof_file ++ server.aof_buf =
        kept ++ (commands none feeds).flatMap encode := by
      simp only [server, feeds_eq]
      rfl
    rw [both, kept_eq, ← List.flatMap_append]
    simp
  have readable : ∀ argv ∈ (rs.take m).flatMap Record.commands ++
      (pre ++ [ascii "MULTI"] :: (queue ++ commands none feeds)), Readable p argv := by
    have first : ∀ argv ∈ (rs.take m).flatMap Record.commands ++ (pre ++ [ascii "MULTI"] :: queue),
        Readable p argv := fun argv member => inv.written.readable argv (reaches.start.subset member)
    have second : ∀ argv ∈ commands none feeds, Readable p argv :=
      readable_commands none fun f member => ⟨(ok f member).db.2, (ok f member).readable⟩
    simpa using List.forall_mem_append.mpr ⟨first, second⟩
  rw [all, before.load_open behind readable enabled]
  refine ⟨⟨_, reaches.dropped inv more loaded⟩, _, by rw [result], ?_⟩
  have front : kept = ((rs.take m).flatMap Record.commands ++ pre).flatMap encode ++
      ([ascii "MULTI"] :: queue).flatMap encode := by
    rw [kept_eq, ← List.append_assoc, List.flatMap_append]
  exact front ▸ List.prefix_append _ _

/-- The second flush stops inside the second command of the transaction. -/
def cutting : List Event := crashing.take 4 ++ [.beforeSleep false (flushing [some 75]), .crash 125]

def stopped : World (List ((ℕ × Bytes) × Bytes)) :=
  (Runs.run (step setOnly always) (World.init setOnly) cutting).getD (World.init setOnly)

def reopened : List ((ℕ × Bytes) × Bytes) × Bytes :=
  (loadAppendOnlyFile setOnly always true stopped.server.aof_file).getD ([], [])

theorem torn_forgets_later :
    let server := [setFeed 2 (ascii "x") (ascii "y")].foldl Appender.feed
      (stopped.started 3 reopened.1 reopened.2).server
    (∃ before first more exec,
      Dropped setOnly stopped reopened.1 reopened.2 before first more exec) ∧
    ∃ kept, loadAppendOnlyFile setOnly always true (server.aof_file ++ server.aof_buf) =
      some (reopened.1, kept) ∧ kept <+: reopened.2 := by
  have path : Runs.Path (step setOnly always) (Sensible setOnly always) (World.init setOnly) cutting
      stopped := .of_run (by decide +kernel)
  have cut : torn setOnly always stopped.server.aof_file = true := by decide +kernel
  have loaded : loadAppendOnlyFile setOnly always true stopped.server.aof_file =
      some (reopened.1, reopened.2) := by decide +kernel
  exact torn_forgets path cut loaded (by decide +kernel)

end Run
end Copier.Redis.Aof
