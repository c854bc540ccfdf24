import Copier.Redis.Backlog
import Mathlib.Logic.Function.Basic

/-! Replication between any number of servers, each of which can be promoted and
demoted: full and partial resynchronizations, the stream from a master to its
replicas, and the acknowledgements that go back. A dataset is the stream of commands
it was built from. -/
namespace Copier.Redis.Psync

inductive SlaveState
  | waitBgsaveStart | waitBgsaveEnd | online
deriving DecidableEq

/-- A client that is a replica of this server; `output` is not yet written to it. -/
structure Slave where
  conn : ℕ
  replstate : SlaveState
  psync_initial_offset : Int
  repl_ack_off : Int
  output : Bytes

/-- A child that saves the dataset as it was, to disk or to the replicas' sockets. -/
structure Child where
  disk : Bool
  dataset : Bytes

/-- The client for the connection to the master. -/
structure Master (Id : Type) where
  replid : Id
  reploff : Int

/-- `repl_state`, with what the server keeps in that state: its master's host, the
connection to it, the master cached for a partial resynchronization, and the id and
offset of the dataset on its way. -/
inductive Upstream (ι Id : Type)
  | standalone
  | connect (masterhost : ι) (cached_master : Option (Master Id))
  | receivePsyncReply (masterhost : ι) (conn : ℕ) (cached_master : Option (Master Id))
  | transfer (masterhost : ι) (conn : ℕ) (master_replid : Id) (master_initial_offset : Int)
  | connected (masterhost : ι) (conn : ℕ) (master : Master Id)

/-- No second id stands for the forty zeros of `clearReplicationId2`. -/
structure Node (ι Id : Type) where
  replid : Id
  replid2 : Option Id
  second_replid_offset : Int
  backlog : Backlog
  slaves : List Slave
  child : Option Child
  upstream : Upstream ι Id
  dataset : Bytes

inductive Reply (Id : Type)
  | fullResync (replid : Id) (offset : Int)
  | resume (replid : Id)
  | tryLater
  | rdb (dataset : Bytes)

/-- A connection from a replica to its master: the PSYNC not yet read, the answers, the
stream behind them, and the acknowledged offsets. -/
structure Conn (ι Id : Type) where
  replica : ι
  master : ι
  request : Option (Option (Id × Int))
  replies : List (Reply Id)
  stream : Bytes
  acks : List Int

structure World (ι Id : Type) where
  nodes : ι → Node ι Id
  conns : ℕ → Option (Conn ι Id)

namespace Upstream
variable {ι Id : Type}

def masterhost : Upstream ι Id → Option ι
  | standalone => none
  | connect host _ | receivePsyncReply host _ _ | transfer host _ _ _ | connected host _ _ => some host

def conn : Upstream ι Id → Option ℕ
  | standalone | connect _ _ => none
  | receivePsyncReply _ c _ | transfer _ c _ _ | connected _ c _ => some c

/-- The client for the master, current or cached. -/
def master : Upstream ι Id → Option (Master Id)
  | standalone | transfer _ _ _ _ => none
  | connect _ cached | receivePsyncReply _ _ cached => cached
  | connected _ _ m => some m

/-- Whether it answers PSYNC. -/
def serves : Upstream ι Id → Bool
  | standalone | connected _ _ _ => true
  | _ => false

end Upstream

namespace Node
variable {ι Id : Type}

def disconnectSlaves (n : Node ι Id) : Node ι Id := { n with slaves := [] }

def changeReplicationId (n : Node ι Id) (new : Id) : Node ι Id := { n with replid := new }

def clearReplicationId2 (n : Node ι Id) : Node ι Id :=
  { n with replid2 := none, second_replid_offset := -1 }

def shiftReplicationId (n : Node ι Id) (new : Id) : Node ι Id :=
  { n with
    replid2 := some n.replid
    second_replid_offset := n.backlog.master_repl_offset + 1
    replid := new }

/-- `canFeedReplicaReplBuffer` and the reply to a replica. -/
def feed (buf : Bytes) (s : Slave) : Slave :=
  if s.replstate = .waitBgsaveStart then s else { s with output := s.output ++ buf }

/-- A command of a client, or of the master, that changes the dataset: `buf` is what
`replicationFeedSlaves` or `replicationFeedSlavesFromMasterStream` passes on. -/
def call (n : Node ι Id) (buf : Bytes) : Node ι Id :=
  { n with
    dataset := n.dataset ++ buf
    backlog := n.backlog.feedReplicationBacklog buf
    slaves := n.slaves.map (feed buf) }

section Psync
variable [DecidableEq Id]

/-- Whether `masterTryPartialResynchronization` accepts. -/
def accepts (n : Node ι Id) : Option (Id × Int) → Bool
  | none => false
  | some (replid, psync_offset) =>
      (replid == n.replid ||
        n.replid2 == some replid && decide (psync_offset ≤ n.second_replid_offset)) &&
      n.backlog.has psync_offset

/-- The first replica of a server without backlog begins a new history. -/
def withBacklog (n : Node ι Id) (new : Id) : Node ι Id :=
  if n.slaves = [] ∧ n.backlog.repl_backlog = none then
    { (n.changeReplicationId new).clearReplicationId2 with
      backlog := n.backlog.createReplicationBacklog }
  else n

/-- A full resynchronization. With a save to disk under way for another replica, and if
its capabilities allow it, the new one joins it and takes over its output. -/
def fullSync (n : Node ι Id) (c : ℕ) (capable : Bool) : Node ι Id × List (Reply Id) :=
  let saving := n.child.any Child.disk
  match n.slaves.find? fun s => s.replstate = .waitBgsaveEnd with
  | some s =>
      if saving && capable then
        ({ n with slaves := n.slaves ++
            [⟨c, .waitBgsaveEnd, s.psync_initial_offset, 0, s.output⟩] },
          [.fullResync n.replid s.psync_initial_offset])
      else ({ n with slaves := n.slaves ++ [⟨c, .waitBgsaveStart, 0, 0, []⟩] }, [])
  | none => ({ n with slaves := n.slaves ++ [⟨c, .waitBgsaveStart, 0, 0, []⟩] }, [])

def syncCommand (n : Node ι Id) (c : ℕ) (request : Option (Id × Int)) (capable : Bool) (new : Id) :
    Node ι Id × List (Reply Id) :=
  if n.upstream.serves then
    match n.accepts request, request with
    | true, some (_, psync_offset) =>
        ({ n with slaves := n.slaves ++
            [⟨c, .online, 0, 0, n.backlog.addReplyReplicationBacklog psync_offset⟩] },
          [.resume n.replid])
    | _, _ => (n.withBacklog new).fullSync c capable
  else (n, [.tryLater])

end Psync

/-- `replicationSetupSlaveForFullResync` for the replicas that wait for a save. -/
def setupSlave (offset : Int) (s : Slave) : Slave :=
  if s.replstate = .waitBgsaveStart then
    { s with replstate := .waitBgsaveEnd, psync_initial_offset := offset }
  else s

def startBgsaveForReplication (n : Node ι Id) (disk : Bool) : Node ι Id :=
  { n with
    child := some ⟨disk, n.dataset⟩
    slaves := n.slaves.map (setupSlave n.backlog.master_repl_offset) }

/-- The connections of the replicas in this state. -/
def connsIn (n : Node ι Id) (state : SlaveState) : List ℕ :=
  (n.slaves.filter fun s => s.replstate = state).map Slave.conn

def putOnline (s : Slave) : Slave :=
  if s.replstate = .waitBgsaveEnd then { s with replstate := .online } else s

/-- The replicas after the child ended; when it failed, those that waited are closed. -/
def updateSlavesWaitingBgsave (n : Node ι Id) (ok : Bool) : Node ι Id :=
  { n with
    child := none
    slaves := if ok then n.slaves.map putOnline
      else n.slaves.filter fun s => s.replstate ≠ .waitBgsaveEnd }

/-- What `writeToClient` writes to this connection, and the replicas after it. -/
def written (n : Node ι Id) (c k : ℕ) : Option (Bytes × List Slave) :=
  (n.slaves.find? fun s => s.conn = c ∧ s.replstate = .online).map fun s =>
    (s.output.take k, n.slaves.map fun t =>
      if t.conn = c then { t with output := t.output.drop k } else t)

/-- REPLCONF ACK. -/
def replconfAck (n : Node ι Id) (c : ℕ) (offset : Int) : Node ι Id :=
  { n with slaves := n.slaves.map fun s =>
      if s.conn = c then { s with repl_ack_off := max s.repl_ack_off offset } else s }

/-- What WAIT counts. -/
def acknowledges (offset : Int) (s : Slave) : Bool :=
  s.replstate = .online && decide (offset ≤ s.repl_ack_off)

def replicationCountAcksByOffset (n : Node ι Id) (offset : Int) : ℕ :=
  n.slaves.countP (acknowledges offset)

/-- The master cached when its connection is closed. It is not after a protocol error. -/
def Upstream.cache (u : Upstream ι Id) (keep : Bool) : Option (Master Id) :=
  match u with
  | .connected _ _ m => if keep then some m else none
  | u => u.master

/-- `replicationSetMaster`, unless that already is the master. A server that was a master
caches one with its own id and offset. -/
def replicaof [DecidableEq ι] (n : Node ι Id) (host : ι) (keep : Bool) : Node ι Id :=
  if n.upstream.masterhost = some host then n
  else
    let cached := match n.upstream with
      | .standalone => some ⟨n.replid, n.backlog.master_repl_offset⟩
      | u => Upstream.cache u keep
    { n.disconnectSlaves with upstream := .connect host cached }

def replicationUnsetMaster (n : Node ι Id) (new : Id) : Node ι Id :=
  match n.upstream with
  | .standalone => n
  | _ => { (n.shiftReplicationId new).disconnectSlaves with upstream := .standalone }

/-- The connection to the master is lost, or given up. -/
def lost (n : Node ι Id) (keep : Bool) : Node ι Id :=
  match n.upstream.masterhost with
  | none => n
  | some host => { n with upstream := .connect host (Upstream.cache n.upstream keep) }

/-- `createReplicationBacklog` where there is none. -/
def ensureBacklog (b : Backlog) : Backlog :=
  if b.repl_backlog = none then b.createReplicationBacklog else b

/-- `slaveTryPartialResynchronization` on the answer, and `readSyncBulkPayload` on the
dataset that follows a full one. -/
def readReply [DecidableEq Id] (n : Node ι Id) : Reply Id → Option (Node ι Id)
  | .fullResync replid offset =>
      match n.upstream with
      | .receivePsyncReply host c _ =>
          some { n.disconnectSlaves with
            backlog := n.backlog.freeReplicationBacklog
            upstream := .transfer host c replid offset }
      | _ => none
  | .resume replid =>
      match n.upstream with
      | .receivePsyncReply host c (some m) =>
          let n := if replid = m.replid then n else
            { n.disconnectSlaves with
              replid2 := some m.replid
              second_replid_offset := n.backlog.master_repl_offset + 1
              replid := replid }
          some { n with
            upstream := .connected host c ⟨replid, m.reploff⟩
            backlog := ensureBacklog n.backlog }
      | _ => none
  | .tryLater =>
      match n.upstream with
      | .receivePsyncReply host _ cached => some { n with upstream := .connect host cached }
      | _ => none
  | .rdb dataset =>
      match n.upstream with
      | .transfer host c replid offset =>
          some { n.clearReplicationId2 with
            replid := replid
            upstream := .connected host c ⟨replid, offset⟩
            backlog := ensureBacklog { n.backlog with master_repl_offset := offset }
            dataset := dataset }
      | _ => none

/-- The next bytes of the master's stream are applied and passed on. -/
def apply (n : Node ι Id) (buf : Bytes) : Node ι Id :=
  match n.upstream with
  | .connected host c m =>
      { n.call buf with upstream := .connected host c { m with reploff := m.reploff + buf.length } }
  | _ => n

end Node

inductive Label (ι Id : Type)
  | write (n : ι) (buf : Bytes)
  | connectWithMaster (r : ι) (c : ℕ)
  | syncCommand (c : ℕ) (capable : Bool) (new : Id)
  | startBgsaveForReplication (n : ι) (disk : Bool)
  | rdbSaveBackground (n : ι)
  | updateSlavesWaitingBgsave (n : ι) (ok : Bool)
  | writeToClient (n : ι) (c k : ℕ)
  | readReply (r : ι)
  | loadFailed (r : ι) (dataset : Bytes)
  | apply (r : ι) (k : ℕ)
  | replicationSendAck (r : ι)
  | replconfAck (c : ℕ)
  | lost (r : ι) (keep : Bool)
  | freeSlave (n : ι) (c : ℕ)
  | replicaof (r : ι) (host : ι) (keep : Bool)
  | replicationUnsetMaster (r : ι) (new : Id)
  | resizeReplicationBacklog (n : ι) (newsize : ℕ)
  | freeReplicationBacklog (n : ι) (new : Id)

section Step
variable {ι Id : Type} [DecidableEq ι] [DecidableEq Id]

def World.put (w : World ι Id) (n : ι) (x : Node ι Id) : World ι Id :=
  { w with nodes := Function.update w.nodes n x }

def World.set (w : World ι Id) (c : ℕ) (k : Conn ι Id) : World ι Id :=
  { w with conns := Function.update w.conns c (some k) }

/-- An answer on each of these connections. -/
def World.answer (w : World ι Id) (cs : List ℕ) (reply : Reply Id) : World ι Id :=
  { w with conns := fun c =>
      if c ∈ cs then (w.conns c).map fun k => { k with replies := k.replies ++ [reply] }
      else w.conns c }

/-- The connection of a replica to its master. -/
def World.link (w : World ι Id) (r : ι) : Option (ℕ × Conn ι Id) :=
  (w.nodes r).upstream.conn.bind fun c => (w.conns c).map fun k => (c, k)

/-- Every server starts as a master of its own, without replicas. -/
def init (ids : ι → Id) (size : ι → ℕ) (datasets : ι → Bytes) : World ι Id where
  nodes n := {
    replid := ids n
    replid2 := none
    second_replid_offset := -1
    backlog := ⟨none, size n, 0, 0, 0, 0⟩
    slaves := []
    child := none
    upstream := .standalone
    dataset := datasets n }
  conns _ := none

def step (w : World ι Id) : Label ι Id → Option (World ι Id)
  | .write n buf =>
      match (w.nodes n).upstream with
      | .standalone => some (w.put n ((w.nodes n).call buf))
      | _ => none
  | .connectWithMaster r c =>
      match (w.nodes r).upstream, w.conns c with
      | .connect host cached, none =>
          let request := cached.map fun m => (m.replid, m.reploff + 1)
          some ((w.put r { w.nodes r with upstream := .receivePsyncReply host c cached }).set c
            ⟨r, host, some request, [], [], []⟩)
      | _, _ => none
  | .syncCommand c capable new =>
      (w.conns c).bind fun k => k.request.map fun request =>
        let (n, replies) := (w.nodes k.master).syncCommand c request capable new
        (w.put k.master n).set c { k with request := none, replies := k.replies ++ replies }
  | .startBgsaveForReplication n disk =>
      let node := w.nodes n
      if node.child.isNone then
        some ((w.put n (node.startBgsaveForReplication disk)).answer (node.connsIn .waitBgsaveStart)
          (.fullResync node.replid node.backlog.master_repl_offset))
      else none
  | .rdbSaveBackground n =>
      let node := w.nodes n
      if node.child.isNone then some (w.put n { node with child := some ⟨true, node.dataset⟩ })
      else none
  | .updateSlavesWaitingBgsave n ok =>
      let node := w.nodes n
      node.child.map fun child =>
        let w' := w.put n (node.updateSlavesWaitingBgsave ok)
        if ok then w'.answer (node.connsIn .waitBgsaveEnd) (.rdb child.dataset) else w'
  | .writeToClient n c k =>
      (w.conns c).bind fun conn => ((w.nodes n).written c k).map fun (buf, slaves) =>
        (w.put n { w.nodes n with slaves := slaves }).set c { conn with stream := conn.stream ++ buf }
  | .readReply r =>
      (w.link r).bind fun (c, k) => match k.replies with
        | [] => none
        | reply :: replies => ((w.nodes r).readReply reply).map fun n =>
            (w.put r n).set c { k with replies := replies }
  | .loadFailed r dataset =>
      match (w.nodes r).upstream with
      | .transfer host _ _ _ =>
          some (w.put r { w.nodes r with upstream := .connect host none, dataset := dataset })
      | _ => none
  | .apply r len =>
      (w.link r).bind fun (c, k) => match (w.nodes r).upstream with
        | .connected _ _ _ =>
            if k.replies.isEmpty then
              some ((w.put r ((w.nodes r).apply (k.stream.take len))).set c
                { k with stream := k.stream.drop len })
            else none
        | _ => none
  | .replicationSendAck r =>
      (w.link r).bind fun (c, k) => match (w.nodes r).upstream with
        | .connected _ _ m => some (w.set c { k with acks := k.acks ++ [m.reploff] })
        | _ => none
  | .replconfAck c =>
      (w.conns c).bind fun k => match k.acks with
        | [] => none
        | offset :: acks =>
            some ((w.put k.master ((w.nodes k.master).replconfAck c offset)).set c
              { k with acks := acks })
  | .lost r keep => some (w.put r ((w.nodes r).lost keep))
  | .freeSlave n c =>
      let node := w.nodes n
      some (w.put n { node with slaves := node.slaves.filter fun s => s.conn ≠ c })
  | .replicaof r host keep => some (w.put r ((w.nodes r).replicaof host keep))
  | .replicationUnsetMaster r new => some (w.put r ((w.nodes r).replicationUnsetMaster new))
  | .resizeReplicationBacklog n newsize =>
      let node := w.nodes n
      some (w.put n { node with backlog := node.backlog.resizeReplicationBacklog newsize })
  | .freeReplicationBacklog n new =>
      let node := w.nodes n
      match node.upstream, node.slaves with
      | .standalone, [] =>
          if node.backlog.repl_backlog.isSome then
            some (w.put n { (node.changeReplicationId new).clearReplicationId2 with
              backlog := node.backlog.freeReplicationBacklog })
          else none
      | _, _ => none

end Step
end Copier.Redis.Psync
