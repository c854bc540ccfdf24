import Copier.Redis.Text
import Mathlib.Data.List.AList
import Mathlib.Logic.Function.Basic

/-! Transactions of the server: MULTI, EXEC and WATCH, and what is done to the keys
around them. What a command does to the keys is any list of operations. -/
namespace Copier.Redis.Multi
variable {ι κ ν : Type}

/-- `watched_keys` has the clients that watch a key, a key nobody watches has no entry. -/
structure Db (ι ν : Type) where
  dict : Bytes → Option ν
  expires : Bytes → Option ℤ
  watched_keys : AList fun _ : Bytes => List ι

/-- The commands that are queued while a transaction is open. -/
inductive Queued (κ : Type)
  | select (id : ℤ)
  | unwatch
  | other (cmd : κ)
deriving DecidableEq

inductive Request (κ : Type)
  | multi
  | exec
  | discard
  | watch (keys : List Bytes)
  | reset
  | plain (cmd : Queued κ)

/-- `peer` stands for CLIENT_SLAVE, CLIENT_MASTER and CLIENT_MODULE. -/
structure Client (κ : Type) where
  db : ℕ
  peer : Bool
  multi : Bool
  dirty_cas : Bool
  dirty_exec : Bool
  commands : List (Queued κ)
  watched_keys : List (ℕ × Bytes)

inductive Reply
  | ok
  | queued
  | error
  | nullArray
  | execAborted
  | array (count : ℕ)
deriving DecidableEq

inductive Note (ι κ : Type)
  | called (c : ι) (cmd : κ)
  | replied (c : ι) (reply : Reply)
deriving DecidableEq

/-- `log` has the commands that were executed and the replies, in this order. `crashed` says
that an assertion failed or that a client was used after it was freed. -/
structure Server (ι κ ν : Type) where
  db : ℕ → Db ι ν
  dbnum : ℕ
  clients : ι → Option (Client κ)
  mstime : ℤ
  loading : Bool
  log : List (Note ι κ)
  crashed : Bool

/-- What is done to the keys: a key gets a value and perhaps an expire time or is deleted,
is signalled as modified, databases are emptied and swapped. -/
inductive Op (ν : Type)
  | write (db : ℕ) (key : Bytes) (entry : Option (ν × Option ℤ))
  | signal (db : ℕ) (key : Bytes)
  | empty (db : Option ℕ)
  | swap (id1 id2 : ℕ)

namespace Server
variable [DecidableEq ι]

def reply (s : Server ι κ ν) (c : ι) (r : Reply) : Server ι κ ν :=
  { s with log := s.log ++ [.replied c r] }

def setDb (s : Server ι κ ν) (d : ℕ) (db : Db ι ν) : Server ι κ ν :=
  { s with db := Function.update s.db d db }

/-- Changes a client through a pointer to it. -/
def modify (s : Server ι κ ν) (c : ι) (f : Client κ → Client κ) : Server ι κ ν :=
  match s.clients c with
  | none => { s with crashed := true }
  | some cl => { s with clients := Function.update s.clients c (some (f cl)) }

/-! Watched keys. -/

def watchForKey (s : Server ι κ ν) (c : ι) (key : Bytes) : Server ι κ ν :=
  match s.clients c with
  | none => { s with crashed := true }
  | some cl =>
    if (cl.db, key) ∈ cl.watched_keys then s else
      let db := s.db cl.db
      let clients := (db.watched_keys.lookup key).getD []
      (s.setDb cl.db { db with watched_keys := db.watched_keys.insert key (clients ++ [c]) }).modify c
        fun cl => { cl with watched_keys := cl.watched_keys ++ [(cl.db, key)] }

/-- Takes a client out of the list of one key; the list must be there, and the client in it. -/
def unwatchKey (c : ι) (s : Server ι κ ν) (wk : ℕ × Bytes) : Server ι κ ν :=
  let db := s.db wk.1
  match db.watched_keys.lookup wk.2 with
  | none => { s with crashed := true }
  | some clients =>
    if c ∈ clients then
      let clients := clients.erase c
      s.setDb wk.1 { db with
        watched_keys := if clients.length = 0 then db.watched_keys.erase wk.2 else
          db.watched_keys.insert wk.2 clients }
    else { s with crashed := true }

def unwatchAllKeys (s : Server ι κ ν) (c : ι) : Server ι κ ν :=
  match s.clients c with
  | none => { s with crashed := true }
  | some cl =>
    (cl.watched_keys.foldl (unwatchKey c) s).modify c fun cl => { cl with watched_keys := [] }

def keyIsExpired (s : Server ι κ ν) (wk : ℕ × Bytes) : Bool :=
  match (s.db wk.1).expires wk.2 with
  | none => false
  | some when_ => !decide (when_ < 0) && !s.loading && decide (when_ < s.mstime)

def isWatchedKeyExpired (s : Server ι κ ν) (cl : Client κ) : Bool :=
  cl.watched_keys.any s.keyIsExpired

/-- Sets CLIENT_DIRTY_CAS. -/
def markDirty (s : Server ι κ ν) (c : ι) : Server ι κ ν :=
  s.modify c fun cl => { cl with dirty_cas := true }

def touchWatchedKey (s : Server ι κ ν) (d : ℕ) (key : Bytes) : Server ι κ ν :=
  match (s.db d).watched_keys.lookup key with
  | none => s
  | some clients => clients.foldl markDirty s

def touchAllWatchedKeysInDb (s : Server ι κ ν) (emptied : ℕ) (replaced_with : Option ℕ) :
    Server ι κ ν :=
  (s.db emptied).watched_keys.entries.foldl (fun s e => e.2.foldl (fun s c =>
    if ((s.db emptied).dict e.1).isSome then s.markDirty c
    else if (replaced_with.bind fun d => (s.db d).dict e.1).isSome then s.markDirty c
    else s) s) s

/-! What is done to the keys. -/

def signalFlushedDb (s : Server ι κ ν) (dbid : Option ℕ) : Server ι κ ν :=
  match dbid with
  | none => (List.range s.dbnum).foldl (fun s j => s.touchAllWatchedKeysInDb j none) s
  | some d => s.touchAllWatchedKeysInDb d none

def emptyDbStructure (s : Server ι κ ν) (d : ℕ) : Server ι κ ν :=
  s.setDb d { s.db d with dict := fun _ => none, expires := fun _ => none }

def emptyDb (s : Server ι κ ν) (dbnum : Option ℕ) : Server ι κ ν :=
  match dbnum with
  | none => (List.range s.dbnum).foldl emptyDbStructure (s.signalFlushedDb none)
  | some d => if d < s.dbnum then (s.signalFlushedDb (some d)).emptyDbStructure d else s

def dbSwapDatabases (s : Server ι κ ν) (id1 id2 : ℕ) : Server ι κ ν :=
  if id1 < s.dbnum ∧ id2 < s.dbnum ∧ id1 ≠ id2 then
    let db1 := s.db id1
    let db2 := s.db id2
    let s := s.setDb id1 { db1 with dict := db2.dict, expires := db2.expires }
    let s := s.setDb id2 { db2 with dict := db1.dict, expires := db1.expires }
    (s.touchAllWatchedKeysInDb id1 (some id2)).touchAllWatchedKeysInDb id2 (some id1)
  else s

def perform (s : Server ι κ ν) : Op ν → Server ι κ ν
  | .write d key entry =>
      s.setDb d { s.db d with
        dict := Function.update (s.db d).dict key (entry.map Prod.fst)
        expires := Function.update (s.db d).expires key (entry.bind Prod.snd) }
  | .signal d key => s.touchWatchedKey d key
  | .empty d => s.emptyDb d
  | .swap id1 id2 => s.dbSwapDatabases id1 id2

/-! Transactions. -/

def discardTransaction (s : Server ι κ ν) (c : ι) : Server ι κ ν :=
  (s.modify c fun cl => { cl with
    commands := [], multi := false, dirty_cas := false, dirty_exec := false }).unwatchAllKeys c

def flagTransaction (s : Server ι κ ν) (c : ι) : Server ι κ ν :=
  s.modify c fun cl => if cl.multi then { cl with dirty_exec := true } else cl

def queueMultiCommand (s : Server ι κ ν) (c : ι) (cmd : Queued κ) : Server ι κ ν :=
  s.modify c fun cl =>
    if cl.dirty_exec then cl else { cl with commands := cl.commands ++ [cmd] }

/-- `call` for a command that can be queued; `ops` is what another command does to the keys. -/
def callQueued (s : Server ι κ ν) (c : ι) (ops : List (Op ν)) : Queued κ → Server ι κ ν
  | .select id =>
      if 0 ≤ id ∧ id < s.dbnum then
        (s.modify c fun cl => { cl with db := id.toNat }).reply c .ok
      else s.reply c .error
  | .unwatch =>
      ((s.unwatchAllKeys c).modify c fun cl => { cl with dirty_cas := false }).reply c .ok
  | .other cmd => ops.foldl perform { s with log := s.log ++ [.called c cmd] }

/-- The queued commands, each as far as the permissions of the client still allow it. -/
def execQueued (s : Server ι κ ν) (c : ι) (allowed : ℕ → Bool) (effect : ℕ → List (Op ν)) :
    ℕ → List (Queued κ) → Server ι κ ν
  | _, [] => s
  | j, cmd :: commands =>
      let s := if allowed j then s.callQueued c (effect j) cmd else s.reply c .error
      s.execQueued c allowed effect (j + 1) commands

def execCommand (s : Server ι κ ν) (c : ι) (cl : Client κ) (allowed : ℕ → Bool)
    (effect : ℕ → List (Op ν)) : Server ι κ ν :=
  if cl.multi = false then s.reply c .error else
    let dirty_cas := cl.dirty_cas || s.isWatchedKeyExpired cl
    if cl.dirty_exec then (s.reply c .execAborted).discardTransaction c
    else if dirty_cas then (s.reply c .nullArray).discardTransaction c
    else
      let s := s.unwatchAllKeys c
      let s := s.reply c (.array cl.commands.length)
      (s.execQueued c allowed effect 0 cl.commands).discardTransaction c

def resetCommand (s : Server ι κ ν) (c : ι) (cl : Client κ) : Server ι κ ν :=
  if cl.peer then s.reply c .error else
    ((s.modify c fun cl => { cl with db := 0 }).discardTransaction c).reply c .ok

def call (s : Server ι κ ν) (c : ι) (cl : Client κ) (allowed : ℕ → Bool)
    (effect : ℕ → List (Op ν)) : Request κ → Server ι κ ν
  | .multi =>
      if cl.multi then s.reply c .error
      else (s.modify c fun cl => { cl with multi := true }).reply c .ok
  | .exec => s.execCommand c cl allowed effect
  | .discard =>
      if cl.multi then (s.discardTransaction c).reply c .ok else s.reply c .error
  | .watch keys =>
      if cl.multi then s.reply c .error
      else (keys.foldl (fun s key => s.watchForKey c key) s).reply c .ok
  | .reset => s.resetCommand c cl
  | .plain cmd => s.callQueued c (effect 0) cmd

/-- What the checks of `processCommand` come to: a command may be redirected to another
node of a cluster, rejected with an error, or kept back (CLIENT PAUSE). -/
inductive Gate
  | accepted
  | redirected
  | rejected
  | postponed
deriving DecidableEq

def rejectCommand (s : Server ι κ ν) (c : ι) : Request κ → Server ι κ ν
  | .exec => ((s.flagTransaction c).discardTransaction c).reply c .execAborted
  | _ => (s.flagTransaction c).reply c .error

def redirectCommand (s : Server ι κ ν) (c : ι) : Request κ → Server ι κ ν
  | .exec => (s.discardTransaction c).reply c .error
  | _ => (s.flagTransaction c).reply c .error

def processCommand (s : Server ι κ ν) (c : ι) (cl : Client κ) (gate : Gate) (allowed : ℕ → Bool)
    (effect : ℕ → List (Op ν)) (req : Request κ) : Server ι κ ν :=
  match gate, cl.multi, req with
  | .postponed, _, _ => s
  | .rejected, _, req => s.rejectCommand c req
  | .redirected, _, req => s.redirectCommand c req
  | .accepted, true, .plain cmd => (s.queueMultiCommand c cmd).reply c .queued
  | .accepted, _, req => s.call c cl allowed effect req

def freeClient (s : Server ι κ ν) (c : ι) : Server ι κ ν :=
  let s := s.unwatchAllKeys c
  { s with clients := Function.update s.clients c none }

end Server

/-- What happens: `work` is what the server does to the keys on its own (expiry, eviction,
the commands of its master). -/
inductive Label (ι κ ν : Type)
  | connect (c : ι) (peer : Bool)
  | free (c : ι)
  | command (c : ι) (gate : Server.Gate) (allowed : ℕ → Bool) (effect : ℕ → List (Op ν))
      (req : Request κ)
  | work (ops : List (Op ν))
  | time (mstime : ℤ) (loading : Bool)

variable [DecidableEq ι]

def step (s : Server ι κ ν) : Label ι κ ν → Option (Server ι κ ν)
  | .connect c peer =>
      if (s.clients c).isNone then
        some { s with clients := Function.update s.clients c (some ⟨0, peer, false, false, false, [], []⟩) }
      else none
  | .free c => (s.clients c).map fun _ => s.freeClient c
  | .command c gate allowed effect req =>
      (s.clients c).map fun cl => s.processCommand c cl gate allowed effect req
  | .work ops => some (ops.foldl Server.perform s)
  | .time mstime loading => some { s with mstime := mstime, loading := loading }

def init (dbnum : ℕ) : Server ι κ ν :=
  ⟨fun _ => ⟨fun _ => none, fun _ => none, ∅⟩, dbnum, fun _ => none, 0, false, [], false⟩

end Copier.Redis.Multi
