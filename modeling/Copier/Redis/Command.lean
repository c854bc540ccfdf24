import Copier.Redis.Parser
import Copier.Redis.Script

/-! The commands as scripts over the strings they work on. SET and its like, GET, DEL and
QUIT are written out; what any other command reads, edits and replies is a script that the
environment chooses. -/
namespace Copier.Redis

/-- What the environment decides about one command: whether the server refuses it, and with
what reply, whether it blocks or drops the client, the clock, and what a command does that
is not written out here. -/
structure Outcome where
  refused : Bool
  blocked : Bool
  paused : Bool
  closing : Bool
  dead : Bool
  master : Bool
  authRequired : Bool
  resp3 : Bool
  luaTimedout : Bool
  mstime : Int
  reply : Bytes
  script : Script

/-- A command that is let through and leaves its client as it is. -/
def Outcome.plain : Outcome where
  refused := false
  blocked := false
  paused := false
  closing := false
  dead := false
  master := false
  authRequired := false
  resp3 := false
  luaTimedout := false
  mstime := 0
  reply := []
  script := .done []

inductive Command
  | set | setnx | setex | psetex | get | del | quit | other
deriving DecidableEq

def toLower (b : UInt8) : UInt8 := if 65 ≤ b.toNat ∧ b.toNat ≤ 90 then b + 32 else b

/-- The part of a string that C code sees. -/
def cString (s : Bytes) : Bytes := (s.takeWhile (· ≠ NUL)).map toLower

def lookupCommand (name : Bytes) : Command :=
  if cString name = ascii "quit" then .quit
  else if name.map toLower = ascii "set" then .set
  else if name.map toLower = ascii "setnx" then .setnx
  else if name.map toLower = ascii "setex" then .setex
  else if name.map toLower = ascii "psetex" then .psetex
  else if name.map toLower = ascii "get" then .get
  else if name.map toLower = ascii "del" then .del
  else .other

def Command.name : Command → String
  | set => "set"
  | setnx => "setnx"
  | setex => "setex"
  | psetex => "psetex"
  | get => "get"
  | del => "del"
  | quit => "quit"
  | other => ""

def Command.wrongArity (cmd : Command) : Bytes :=
  ascii "-ERR wrong number of arguments for '" ++ ascii cmd.name ++ ascii "' command\r\n"

def Command.invalidExpire (cmd : Command) : Bytes :=
  ascii "-ERR invalid expire time in " ++ ascii cmd.name ++ ascii "\r\n"

def null (resp3 : Bool) : Bytes := if resp3 then ascii "_\r\n" else ascii "$-1\r\n"

/-- `addReplyBulk`. -/
def bulk (s : Bytes) : Bytes :=
  ascii "$" ++ ascii (toString s.length) ++ ascii "\r\n" ++ s ++ ascii "\r\n"

def syntaxerr : Bytes := ascii "-ERR syntax error\r\n"
def notInteger : Bytes := ascii "-ERR value is not an integer or out of range\r\n"

inductive TimeUnit
  | seconds | milliseconds
deriving DecidableEq

structure SetOptions where
  nx : Bool
  xx : Bool
  get : Bool
  keepttl : Bool
  ex : Bool
  exat : Bool
  px : Bool
  pxat : Bool
  unit : TimeUnit
  expire : Option Bytes

def SetOptions.none : SetOptions :=
  ⟨false, false, false, false, false, false, false, false, .seconds, .none⟩

/-- `parseExtendedStringArgumentsOrReply` for SET; none where it replies with a
syntax error. -/
def parseSetOptions (f : SetOptions) : List Bytes → Option SetOptions
  | [] => some f
  | opt :: rest =>
      let opt := cString opt
      if opt = ascii "nx" ∧ ¬ f.xx ∧ ¬ f.get then parseSetOptions { f with nx := true } rest
      else if opt = ascii "xx" ∧ ¬ f.nx then parseSetOptions { f with xx := true } rest
      else if opt = ascii "get" ∧ ¬ f.nx then parseSetOptions { f with get := true } rest
      else if opt = ascii "keepttl" ∧ ¬ f.ex ∧ ¬ f.exat ∧ ¬ f.px ∧ ¬ f.pxat then
        parseSetOptions { f with keepttl := true } rest
      else match rest with
        | [] => .none
        | next :: more =>
            if opt = ascii "ex" ∧ ¬ f.keepttl ∧ ¬ f.exat ∧ ¬ f.px ∧ ¬ f.pxat then
              parseSetOptions { f with ex := true, expire := some next } more
            else if opt = ascii "px" ∧ ¬ f.keepttl ∧ ¬ f.ex ∧ ¬ f.exat ∧ ¬ f.pxat then
              parseSetOptions
                { f with px := true, unit := .milliseconds, expire := some next } more
            else if opt = ascii "exat" ∧ ¬ f.keepttl ∧ ¬ f.ex ∧ ¬ f.px ∧ ¬ f.pxat then
              parseSetOptions { f with exat := true, expire := some next } more
            else if opt = ascii "pxat" ∧ ¬ f.keepttl ∧ ¬ f.ex ∧ ¬ f.exat ∧ ¬ f.px then
              parseSetOptions
                { f with pxat := true, unit := .milliseconds, expire := some next } more
            else .none

/-- The checks on an expire argument; the error line if one fails. -/
def expireError (cmd : Command) (f : SetOptions) (mstime : Int) : Option Bytes :=
  match f.expire with
  | .none => .none
  | some expire =>
      match string2ll expire with
      | .none => some notInteger
      | some ms =>
          if ms ≤ 0 ∨ f.unit = .seconds ∧ ms > LLONG_MAX / 1000 then some cmd.invalidExpire
          else
            let ms := if f.unit = .seconds then ms * 1000 else ms
            let whenMs := if f.px ∨ f.ex then (ms + mstime).bmod (2 ^ 64) else ms
            if whenMs ≤ 0 then some cmd.invalidExpire else .none

/-- A blocking command, or the pause of any command, leaves the client blocked. -/
def Outcome.blocks (o : Outcome) (cmd : Command) : Bool :=
  o.blocked && (o.refused || cmd == .other)

/-- Whether `commandProcessed` resets the client. -/
def Outcome.resets (o : Outcome) (cmd : Command) : Bool := !o.blocks cmd && cmd != .quit

/-- The client's flags and parser after the command. -/
def Outcome.after (o : Outcome) (cmd : Command) (p : Parser) : Parser :=
  let q := { p with
    blocked := o.blocks cmd
    pendingCommand := o.blocks cmd && o.paused
    closing := p.closing || o.closing || cmd == .quit
    master := o.master
    authRequired := o.authRequired
    resp3 := o.resp3 }
  if o.resets cmd then q.reset else q

/-- `getGenericCommand`, with what is done after its reply. -/
def getGenericCommand (resp3 : Bool) (key : Bytes) (next : Bytes → Script) : Script :=
  .length (.value key) fun
    | none => next (null resp3)
    | some n => .read (.value key) 0 n fun value => next (bulk value)

/-- `setGenericCommand` of the argument `val`, with the replies for a value stored and not
stored. -/
def setGenericCommand (cmd : Command) (o : Outcome) (resp3 : Bool) (f : SetOptions) (key : Bytes)
    (val : ℕ) (ok abort : Bytes) : Script :=
  match expireError cmd f o.mstime with
  | some line => .done line
  | none => .length (.value key) fun old =>
      if f.nx ∧ old.isSome ∨ f.xx ∧ old.isNone then .done abort
      else if f.get then
        getGenericCommand resp3 key fun reply => .edit (.move (.arg val) key) (.done reply)
      else .edit (.move (.arg val) key) (.done ok)

def setOk : Bytes := ascii "+OK\r\n"

/-- `delGenericCommand` with `numdel` keys deleted so far. -/
def delGenericCommand (numdel : ℕ) : List Place → Script
  | [] => .done (ascii ":" ++ ascii (toString numdel) ++ ascii "\r\n")
  | place :: places => .whole place fun key => .length (.value key) fun old =>
      if old.isSome then .edit (.drop key) (delGenericCommand (numdel + 1) places)
      else delGenericCommand numdel places

/-- The arguments from the `i`-th on, of `argc`. -/
def argsFrom (i argc : ℕ) : List Place := (List.range' i (argc - i)).map .arg

/-- The call of a command that the server did not refuse. -/
def call (o : Outcome) (resp3 : Bool) (cmd : Command) (argc : ℕ) : Script :=
  match cmd with
  | .set =>
      if argc < 3 then .done cmd.wrongArity
      else .wholes (argsFrom 3 argc) fun opts =>
        match parseSetOptions .none opts with
        | none => .done syntaxerr
        | some f => .whole (.arg 1) fun key =>
            setGenericCommand cmd o resp3 f key 2 setOk (null resp3)
  | .setnx =>
      if argc ≠ 3 then .done cmd.wrongArity
      else .edit (.encode 2) (.whole (.arg 1) fun key =>
        setGenericCommand cmd o resp3 { SetOptions.none with nx := true } key 2
          (ascii ":1\r\n") (ascii ":0\r\n"))
  | .setex =>
      if argc ≠ 4 then .done cmd.wrongArity
      else .edit (.encode 3) (.whole (.arg 2) fun time => .whole (.arg 1) fun key =>
        setGenericCommand cmd o resp3
          { SetOptions.none with ex := true, expire := some time } key 3 setOk (null resp3))
  | .psetex =>
      if argc ≠ 4 then .done cmd.wrongArity
      else .edit (.encode 3) (.whole (.arg 2) fun time => .whole (.arg 1) fun key =>
        setGenericCommand cmd o resp3
          { SetOptions.none with px := true, unit := .milliseconds, expire := some time } key 3
          setOk (null resp3))
  | .get =>
      if argc ≠ 2 then .done cmd.wrongArity
      else .whole (.arg 1) fun key => getGenericCommand resp3 key .done
  | .del =>
      if argc < 2 then .done cmd.wrongArity else delGenericCommand 0 (argsFrom 1 argc)
  | .quit => .done setOk
  | .other => if o.blocked then o.script.sparing else o.script

/-- `processCommand` on a client with `argc` arguments. -/
def processCommand (o : Outcome) (resp3 : Bool) (cmd : Command) (argc : ℕ) : Script :=
  if argc = 0 then .done []
  else if o.refused ∧ cmd ≠ .quit then .done o.reply
  else call o resp3 cmd argc

/-- `addReplyLongLong`. -/
def integer (n : ℕ) : Bytes := ascii ":" ++ ascii (toString n) ++ ascii "\r\n"

/-- `addReplyLongLong` of the length of a key's string. -/
def replyLength (key : Bytes) : Script :=
  .length (.value key) fun n => .done (integer (n.getD 0))

/-- `checkStringLength`; false where it replies with an error. -/
def checkStringLength (cfg : Config) (master : Bool) (size append : ℕ) : Bool :=
  master || decide (size + append ≤ cfg.proto_max_bulk_len)

def stringTooLong : Bytes :=
  ascii "-ERR string exceeds maximum allowed size (proto-max-bulk-len)\r\n"

/-- `appendCommand`, one of the scripts that the environment may choose. -/
def appendCommand (cfg : Config) (master : Bool) : Script :=
  .whole (.arg 1) fun key => .length (.value key) fun
    | none => .edit (.encode 2) (.edit (.move (.arg 2) key) (replyLength key))
    | some size => .length (.arg 2) fun n =>
        if checkStringLength cfg master size (n.getD 0) then
          .whole (.arg 2) fun append => .edit (.append key append) (replyLength key)
        else .done stringTooLong

/-- `sdsgrowzero` of a key's string. -/
def growzero (key : Bytes) (curlen len : ℕ) (next : Script) : Script :=
  if len ≤ curlen then next else .edit (.append key (List.replicate (len - curlen) NUL)) next

/-- `setrangeCommand`, another. -/
def setrangeCommand (cfg : Config) (master : Bool) : Script :=
  .whole (.arg 2) fun offset => match string2ll offset with
    | none => .done notInteger
    | some offset =>
        if offset < 0 then .done (ascii "-ERR offset is out of range\r\n")
        else .whole (.arg 1) fun key => .length (.value key) fun old => .length (.arg 3) fun n =>
          if n.getD 0 = 0 then .done (integer (old.getD 0))
          else if checkStringLength cfg master offset.toNat (n.getD 0) then
            .whole (.arg 3) fun value =>
              let write := .edit (.overwrite key offset.toNat value) (replyLength key)
              match old with
              | none => .edit (.create key (List.replicate (offset.toNat + value.length) NUL)) write
              | some olen => growzero key olen (offset.toNat + value.length) write
          else .done stringTooLong

section Call
variable {s : Strings Bytes}

/-- APPEND adds its argument to what the key holds. -/
theorem append_run (cfg : Config) (master : Bool)
    (short : checkStringLength cfg master ((db key).getD []).length val.length) :
    ((appendCommand cfg master).run ⟨[name, key, val], db⟩).1.db =
      Function.update db key (some ((db key).getD [] ++ val)) := by
  cases found : db key with
  | none =>
    simp [appendCommand, Script.run_whole, replyLength, Edit.run, Strings.find, Strings.vacate,
      Strings.put, found]
  | some old =>
    rw [found] at short
    have fits : checkStringLength cfg master old.length val.length := short
    simp [appendCommand, Script.run_whole, replyLength, Edit.run, Strings.find, Strings.put, found,
      fits]

/-- SETRANGE writes its argument into what the key holds, with zeros up to where it ends. -/
theorem setrange_run (cfg : Config) (master : Bool) (n : ℕ) (parsed : string2ll off = some ↑n)
    (more : val ≠ []) (short : checkStringLength cfg master n val.length) :
    ((setrangeCommand cfg master).run ⟨[name, key, off, val], db⟩).1.db =
      let old := (db key).getD []
      let zeros := List.replicate (n + val.length - old.length) NUL
      Function.update db key (some (overwritten (old ++ zeros) n val)) := by
  have positive : ¬ (n : Int) < 0 := Int.not_lt.mpr (Int.natCast_nonneg n)
  cases found : db key with
  | none =>
    simp [setrangeCommand, Script.run_whole, replyLength, Edit.run, Strings.find, Strings.put,
      parsed, positive, more, short, found]
  | some old =>
    by_cases within : n + val.length ≤ old.length
    · have none_added : n + val.length - old.length = 0 := Nat.sub_eq_zero_of_le within
      simp [setrangeCommand, Script.run_whole, replyLength, growzero, Edit.run, Strings.find,
        Strings.put, parsed, positive, more, short, found, within, none_added]
    · simp [setrangeCommand, Script.run_whole, replyLength, growzero, Edit.run, Strings.find,
        Strings.put, parsed, positive, more, short, found, within]

/-- A command that leaves its client blocked, or QUIT, leaves it its arguments. -/
theorem processCommand_argv (o : Outcome) (resp3 : Bool) (cmd : Command) (argc : ℕ)
    (stays : o.resets cmd = false) : ((processCommand o resp3 cmd argc).run s).1.argv = s.argv := by
  unfold processCommand
  split
  · rfl
  · split
    · rfl
    · rename_i called
      cases cmd with
      | quit => rfl
      | other =>
        cases blocked : o.blocked <;> simp [Outcome.resets, Outcome.blocks, blocked] at stays
        simp only [call, blocked, if_true]
        exact Script.sparing_argv _
      | _ =>
        cases refused : o.refused
        · simp [Outcome.resets, Outcome.blocks, refused] at stays
        · exact absurd ⟨refused, by decide⟩ called

/-- The arguments a client is left with are those it had, or none. -/
theorem processCommand_left (o : Outcome) (resp3 : Bool) (cmd : Command) (argc : ℕ) :
    (if o.resets cmd then [] else ((processCommand o resp3 cmd argc).run s).1.argv) =
      if o.resets cmd then [] else s.argv := by
  cases stays : o.resets cmd
  · exact processCommand_argv o resp3 cmd argc stays
  · rfl

end Call
end Copier.Redis
