import Copier.Redis.Requests

/-! The append only file of `redis-6.2-original`: what commands are written as, how the
buffer gets into the file, and what a server that starts makes of the file. The effects
of the commands on the dataset are a parameter. -/
namespace Copier.Redis.Aof
open Reply (ll2string)

/-- `strtol` and `strtoll` to the base 10. -/
def strtol (s : Bytes) : Int :=
  match s.dropWhile isSpace with
  | 45 :: s => max (-(2 ^ 63)) (-(digitsValue 0 (s.takeWhile isDigit) : Int))
  | 43 :: s => min (2 ^ 63 - 1) (digitsValue 0 (s.takeWhile isDigit))
  | s => min (2 ^ 63 - 1) (digitsValue 0 (s.takeWhile isDigit))

def atoi (s : Bytes) : Int := (strtol s).bmod (2 ^ 32)

/-! Writing. -/

/-- The commands that `feedAppendOnlyFile` knows by their functions. -/
inductive Proc
  | expireCommand
  | pexpireCommand
  | expireatCommand
  | setexCommand
  | psetexCommand
  | setCommand
  | otherCommand
deriving DecidableEq

/-- A command as it is propagated: to which database and when. -/
structure Feed where
  proc : Proc
  dictid : ℕ
  argv : List Bytes
  mstime : Int
deriving DecidableEq

/-- The arguments that `catAppendOnlyExpireAtCommand` writes. -/
def expireAt (proc : Proc) (key seconds : Bytes) (mstime : Int) : List Bytes :=
  let when_ := strtol seconds
  let when_ := if proc = .expireCommand ∨ proc = .setexCommand ∨ proc = .expireatCommand then
    (when_ * 1000).bmod (2 ^ 64) else when_
  let when_ := if proc = .expireCommand ∨ proc = .pexpireCommand ∨ proc = .setexCommand ∨
      proc = .psetexCommand then (when_ + mstime).bmod (2 ^ 64) else when_
  [ascii "PEXPIREAT", key, ll2string when_]

def catAppendOnlyExpireAtCommand (buf : Bytes) (proc : Proc) (key seconds : Bytes)
    (mstime : Int) : Bytes :=
  catAppendOnlyGenericCommand buf (expireAt proc key seconds mstime)

/-- The arguments of a SET with a relative time, made absolute. -/
def setAt (argv : List Bytes) (mstime : Int) : List Bytes :=
  argv.take 3 ++
    [ascii "PXAT", ll2string ((strtol (argv.getD 4 []) + mstime).bmod (2 ^ 64))]

/-- What is left of `server.aof_buf` to append, and the database selected behind it. -/
def feedAppendOnlyFile (aof_selected_db : Option ℕ) (f : Feed) : Bytes × Option ℕ :=
  let seldb := ll2string f.dictid
  let buf := if aof_selected_db = some f.dictid then [] else
    ascii "*2\r\n$6\r\nSELECT\r\n$" ++ ll2string seldb.length ++ ascii "\r\n" ++ seldb ++
      ascii "\r\n"
  let buf :=
    if f.proc = .expireCommand ∨ f.proc = .pexpireCommand ∨ f.proc = .expireatCommand then
      catAppendOnlyExpireAtCommand buf f.proc (f.argv.getD 1 []) (f.argv.getD 2 []) f.mstime
    else if f.proc = .setCommand ∧ f.argv.length > 3 ∧ cString (f.argv.getD 3 []) = ascii "px" then
      catAppendOnlyGenericCommand buf (setAt f.argv f.mstime)
    else catAppendOnlyGenericCommand buf f.argv
  (buf, some f.dictid)

inductive Fsync
  | AOF_FSYNC_NO
  | AOF_FSYNC_ALWAYS
  | AOF_FSYNC_EVERYSEC
deriving DecidableEq

structure Options where
  aof_fsync : Fsync
  aof_no_fsync_on_rewrite : Bool
  aof_load_truncated : Bool

/-- The file and its buffer. `synced` is how much of the file survives a crash; `running` is
false once the server has exited. -/
structure Appender where
  running : Bool
  aof_buf : Bytes
  aof_selected_db : Option ℕ
  aof_file : Bytes
  aof_current_size : ℕ
  aof_last_write_status : Bool
  aof_flush_postponed_start : ℕ
  aof_fsync_offset : ℕ
  aof_last_fsync : ℕ
  synced : ℕ
deriving DecidableEq

/-- What a flush finds: for each `write` how much it writes (none where it is interrupted,
the list ending at the one that fails), and whether `ftruncate` and `fsync` succeed. -/
structure Flush where
  force : Bool
  fsyncInProgress : Bool
  activeChild : Bool
  unixtime : ℕ
  writes : List (Option ℕ)
  ftruncates : Bool
  fsyncs : Bool

/-- How much `aofWrite` writes of `len` bytes, `totwritten` before; none for -1. -/
def aofWrite : ℕ → List (Option ℕ) → ℕ → Option ℕ
  | 0, _, totwritten => some totwritten
  | _ + 1, [], totwritten => if totwritten = 0 then none else some totwritten
  | len + 1, none :: writes, totwritten => aofWrite (len + 1) writes totwritten
  | len + 1, some n :: writes, totwritten =>
      aofWrite (len + 1 - min n (len + 1)) writes (totwritten + min n (len + 1))

section Flush
variable (opts : Options) (e : Flush)

def tryFsync (sync_in_progress : Bool) (s : Appender) : Appender :=
  if opts.aof_no_fsync_on_rewrite && e.activeChild then s
  else match opts.aof_fsync with
    | .AOF_FSYNC_ALWAYS =>
        if e.fsyncs then
          { s with
            synced := s.aof_file.length
            aof_fsync_offset := s.aof_current_size
            aof_last_fsync := e.unixtime }
        else { s with running := false }
    | .AOF_FSYNC_EVERYSEC =>
        if e.unixtime > s.aof_last_fsync then
          { s with
            aof_fsync_offset := if sync_in_progress then s.aof_fsync_offset else s.aof_current_size
            aof_last_fsync := e.unixtime }
        else s
    | .AOF_FSYNC_NO => s

/-- The rest of `flushAppendOnlyFile` once it writes. -/
def writeBuffer (sync_in_progress : Bool) (s : Appender) : Appender :=
  let nwritten := aofWrite s.aof_buf.length e.writes 0
  let written := nwritten.getD 0
  let s := { s with
    aof_file := s.aof_file ++ s.aof_buf.take written
    aof_flush_postponed_start := 0 }
  if nwritten = some s.aof_buf.length then
    tryFsync opts e sync_in_progress { s with
      aof_last_write_status := true
      aof_current_size := s.aof_current_size + written
      aof_buf := [] }
  else
    let undone := nwritten.isSome && e.ftruncates
    let s := if undone then
        { s with
          aof_file := s.aof_file.take s.aof_current_size
          synced := min s.synced s.aof_current_size }
      else s
    let written := if undone then 0 else written
    if opts.aof_fsync = .AOF_FSYNC_ALWAYS then { s with running := false }
    else { s with
      aof_last_write_status := false
      aof_current_size := s.aof_current_size + written
      aof_buf := s.aof_buf.drop written }

def flushAppendOnlyFile (s : Appender) : Appender :=
  let sync_in_progress := opts.aof_fsync == .AOF_FSYNC_EVERYSEC && e.fsyncInProgress
  if s.aof_buf = [] then
    if opts.aof_fsync = .AOF_FSYNC_EVERYSEC ∧ s.aof_fsync_offset ≠ s.aof_current_size ∧
        e.unixtime > s.aof_last_fsync ∧ e.fsyncInProgress = false then tryFsync opts e false s
    else s
  else if opts.aof_fsync = .AOF_FSYNC_EVERYSEC ∧ e.force = false ∧ sync_in_progress = true then
    if s.aof_flush_postponed_start = 0 then { s with aof_flush_postponed_start := e.unixtime }
    else if e.unixtime - s.aof_flush_postponed_start < 2 then s
    else writeBuffer opts e sync_in_progress s
  else writeBuffer opts e sync_in_progress s

end Flush

/-! Loading. -/

/-- The length of a line of at most `size` bytes. -/
def lineLength : ℕ → Bytes → ℕ
  | 0, _ => 0
  | _, [] => 0
  | size + 1, b :: s => if b = LF then 1 else lineLength size s + 1

/-- The line `fgets` reads and what is behind it; none at the end of the file. -/
def fgets (size : ℕ) (rest : Bytes) : Option (Bytes × Bytes) :=
  if rest = [] then none
  else some (rest.splitAt (lineLength (size - 1) rest))

/-- A command out of the file; `short` is a read that meets the end of the file, `failed` one
that ends the program. -/
inductive Read
  | command (argv : List Bytes) (rest : Bytes)
  | eof
  | short
  | failed
deriving DecidableEq

/-- The arguments still to be read, with those that have been read. -/
def readArgs : ℕ → List Bytes → Bytes → Read
  | 0, argv, rest => .command argv rest
  | argc + 1, argv, rest =>
      match fgets 128 rest with
      | none => .short
      | some (buf, rest) =>
          if buf.headD NUL ≠ DOLLAR then .failed
          else
            let len := strtol (buf.drop 1)
            if len < 0 then .failed
            else if rest.length < len.toNat then .short
            else if (rest.drop len.toNat).length < 2 then .short
            else readArgs argc (argv ++ [rest.take len.toNat]) (rest.drop (len.toNat + 2))

def readCommand (rest : Bytes) : Read :=
  match fgets 128 rest with
  | none => .eof
  | some (buf, rest) =>
      if buf.headD NUL ≠ STAR then .failed
      else if buf.getD 1 NUL = NUL then
        if buf.length < 127 ∧ LF ∉ buf then .short else .failed
      else if atoi (buf.drop 1) < 1 then .failed
      else readArgs (atoi (buf.drop 1)).toNat [] rest

inductive Kind
  | select
  | multi
  | exec
  | other
deriving DecidableEq

/-- The commands of the server: their number of databases, which names there are besides the
three that matter here, what they do to the dataset, and the dataset in front of the file. -/
structure Commands (σ : Type) where
  dbnum : ℕ
  known : Bytes → Bool
  proc : σ → ℕ → List Bytes → σ
  empty : σ
  rdbLoadRio : Bytes → Option (σ × Bytes)

/-- The fake client, with the dataset its commands work on. -/
structure FakeClient (σ : Type) where
  data : σ
  db : ℕ
  multi : Option (List (List Bytes))

structure Loader (σ : Type) where
  fake : FakeClient σ
  valid_up_to : ℕ
  valid_before_multi : ℕ

section Load
variable {σ : Type} (p : Commands σ) (opts : Options)

def Commands.lookupCommand (name : Bytes) : Option Kind :=
  let name := name.map toLower
  if name = ascii "select" then some .select
  else if name = ascii "multi" then some .multi
  else if name = ascii "exec" then some .exec
  else if p.known name then some .other
  else none

def selectCommand (f : FakeClient σ) (argv : List Bytes) : FakeClient σ :=
  match string2ll (argv.getD 1 []) with
  | none => f
  | some id => if 0 ≤ id ∧ id < p.dbnum then { f with db := id.toNat } else f

/-- A command of a transaction that is executed. -/
def callQueued (f : FakeClient σ) (argv : List Bytes) : FakeClient σ :=
  match p.lookupCommand (argv.headD []) with
  | some .select => selectCommand p f argv
  | some .other => { f with data := p.proc f.data f.db argv }
  | _ => f

def execCommand (f : FakeClient σ) : FakeClient σ :=
  match f.multi with
  | none => f
  | some commands => { commands.foldl (callQueued p) f with multi := none }

def multiCommand (f : FakeClient σ) : FakeClient σ :=
  match f.multi with
  | none => { f with multi := some [] }
  | some _ => f

/-- A command in the context of the fake client. -/
def FakeClient.run (f : FakeClient σ) (argv : List Bytes) : FakeClient σ :=
  match f.multi, p.lookupCommand (argv.headD []) with
  | _, some .exec => execCommand p f
  | some commands, some _ => { f with multi := some (commands ++ [argv]) }
  | none, some .select => selectCommand p f argv
  | none, some .multi => multiCommand f
  | none, some .other => { f with data := p.proc f.data f.db argv }
  | _, none => f

/-- The loop over the commands of the file; none where the program ends, and whether it ends
by a short read. -/
def readCommands (size : ℕ) : ℕ → Loader σ → Bytes → Option (Loader σ × Bool)
  | 0, _, _ => none
  | fuel + 1, s, rest =>
      match readCommand rest with
      | .failed => none
      | .short => some (s, true)
      | .eof => some (s, false)
      | .command argv rest =>
          match p.lookupCommand (argv.headD []) with
          | none => none
          | some cmd =>
              readCommands size fuel
                { fake := s.fake.run p argv
                  valid_up_to := if opts.aof_load_truncated then size - rest.length else s.valid_up_to
                  valid_before_multi := if cmd = .multi then s.valid_up_to
                    else s.valid_before_multi } rest

/-- The dataset and the commands behind it, if the file starts with one. -/
def preamble (file : Bytes) : Option (σ × Bytes) :=
  if file.take 5 = ascii "REDIS" then p.rdbLoadRio file else some (p.empty, file)

/-- How the loop over the file ends. -/
def scanFile (file : Bytes) : Option (Loader σ × Bool) :=
  (preamble p file).bind fun (data, rest) =>
    readCommands p opts file.length (rest.length + 1) ⟨⟨data, 0, none⟩, 0, 0⟩ rest

/-- `loadAppendOnlyFile`: the dataset and what is left of the file, or none where the server
exits. -/
def loadAppendOnlyFile (truncates : Bool) (file : Bytes) : Option (σ × Bytes) :=
  if file = [] then some (p.empty, [])
  else (scanFile p opts file).bind fun (s, short) =>
    if short = false ∧ s.fake.multi = none then some (s.fake.data, file)
    else if opts.aof_load_truncated && truncates then
      some (s.fake.data, file.take (if short then s.valid_up_to else s.valid_before_multi))
    else none

end Load
end Copier.Redis.Aof
