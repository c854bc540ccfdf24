import Copier.Redis.Original

/-! The link from a replica to its master. What the replica reads from it is kept
in `pending_querybuf` until the commands in it were applied, and passed on to its own
replicas as it came. Here the original replica, whose reads are copied at once. -/
namespace Copier.Redis

/-- A replica of this server, fed from `psync_initial_offset` on. -/
structure Slave where
  psync_initial_offset : Int
  output : Bytes

/-- `server.master`. `start` and `forwarded` are history: the offset at which the link
began, and what was passed on since. -/
structure Master where
  client : ℕ
  pending_querybuf : Bytes
  read_reploff : Int
  reploff : Int
  start : Int
  forwarded : Bytes

/-- `backlog` is all that `feedReplicationBacklog` was given since the last full
synchronization. -/
structure Replication where
  master : Option Master
  cached_master : Option Int
  master_repl_offset : Int
  backlog : Bytes
  slaves : List Slave

namespace Replication

def init : Replication := ⟨none, none, 0, [], []⟩

/-- What `readQueryFromClient` does with the bytes it read from the master. -/
def readQueryFromClient (r : Replication) (c : ℕ) (data : Bytes) : Replication :=
  { r with master := r.master.map fun m =>
      if m.client = c then { m with
        pending_querybuf := m.pending_querybuf ++ data
        read_reploff := m.read_reploff + data.length }
      else m }

def replicationFeedSlavesFromMasterStream (r : Replication) (buf : Bytes) (buflen : ℕ) :
    Replication :=
  { r with
    master_repl_offset := r.master_repl_offset + buflen
    backlog := r.backlog ++ buf.take buflen
    slaves := r.slaves.map fun slave => { slave with output := slave.output ++ buf.take buflen } }

/-- `commandProcessed` for a client that was not blocked, with the length and position
of its query buffer and whether it is inside a transaction. -/
def commandProcessed (r : Replication) (c len qb_pos : ℕ) (multi : Bool) : Replication :=
  match r.master with
  | none => r
  | some m =>
      if m.client = c then
        let reploff := if multi then m.reploff else m.read_reploff - len + qb_pos
        let applied := (reploff - m.reploff).toNat
        if reploff - m.reploff = 0 then r
        else { r.replicationFeedSlavesFromMasterStream m.pending_querybuf applied with
          master := some { m with
            reploff := reploff
            pending_querybuf := m.pending_querybuf.drop applied
            forwarded := m.forwarded ++ m.pending_querybuf.take applied } }
      else r

/-- A master that is freed is cached with the offset applied so far. -/
def freeClient (r : Replication) (c : ℕ) : Replication :=
  match r.master with
  | none => r
  | some m =>
      if m.client = c then { r with master := none, cached_master := some m.reploff } else r

def Master.created (c : ℕ) (offset : Int) : Master := ⟨c, [], offset, offset, offset, []⟩

/-- After a full synchronization: own replicas were disconnected, the backlog is new. -/
def replicationCreateMasterClient (c : ℕ) (offset : Int) : Replication where
  master := some (Master.created c offset)
  cached_master := none
  master_repl_offset := offset
  backlog := []
  slaves := []

def replicationResurrectCachedMaster (r : Replication) (c : ℕ) (offset : Int) : Replication :=
  { r with master := some (Master.created c offset), cached_master := none }

def replicationSetupSlaveForFullResync (r : Replication) : Replication :=
  { r with slaves := r.slaves ++ [⟨r.master_repl_offset, []⟩] }

inductive Input
  | event (e : Event)
  | command (o : Outcome) (multi : Bool)
  | replicationCreateMasterClient (c : ℕ) (offset : Int)
  | replicationResurrectCachedMaster (c : ℕ)
  | replicationSetupSlaveForFullResync
  | freeSlave (i : ℕ)

/-- What the replica passed on is the start of the stream it was sent since the link
began, what is pending the rest, and the offsets count them. -/
structure Sound (r : Replication) (clients : ℕ → Option Original.Client) : Prop where
  stream : r.master = some m → ∃ cl, clients m.client = some cl ∧
    m.forwarded ++ m.pending_querybuf = cl.stream ∧ m.read_reploff = m.start + cl.stream.length ∧
      m.forwarded.length ≤ cl.base + cl.parser.qb_pos
  applied : r.master = some m → m.reploff = m.start + m.forwarded.length ∧
    r.master_repl_offset = m.reploff ∧ m.forwarded <:+ r.backlog
  cached : r.cached_master = some offset → r.master = none ∧ r.master_repl_offset = offset
  slaves : ∀ slave ∈ r.slaves, slave.output <:+ r.backlog ∧
    slave.psync_initial_offset + slave.output.length = r.master_repl_offset

end Replication

namespace Original

/-- What a step other than a read does to a client it keeps. -/
structure Client.Advances (cl cl' : Client) : Prop where
  stream : cl'.stream = cl.stream
  position : cl.base + cl.parser.qb_pos ≤ cl'.base + cl'.parser.qb_pos

namespace Replica

structure World where
  server : Original.World
  repl : Replication

def init : World := ⟨Original.init, .init⟩

def asMaster (w : Original.World) (c : ℕ) : Original.World :=
  { w with clients := Function.update w.clients c ((w.clients c).map fun cl =>
      { cl with parser := { cl.parser with master := true } }) }

def received (w : Original.World) (r : Replication) : Replication :=
  match w.site with
  | .receive c data => if data = [] then r else r.readQueryFromClient c data
  | _ => r

def closed (r : Replication) : Event → Replication
  | .disconnect c => r.freeClient c
  | _ => r

/-- The client whose command is executed. -/
def executing (w : Original.World) : Option (ℕ × Client) :=
  match w.site with
  | .running c _ => (w.clients c).map fun cl => (c, cl)
  | _ => none

def processed (w : Original.World) (o : Outcome) (multi : Bool) (r : Replication) : Replication :=
  match executing w with
  | some (c, cl) =>
      if o.dead then r.freeClient c
      else if o.resets (lookupCommand (cl.argv.headD [])) then
        r.commandProcessed c cl.querybuf.length cl.parser.qb_pos multi
      else r
  | none => r

inductive Label
  | internal
  | input (i : Replication.Input)

def Label.seen : Label → Option Replication.Input
  | internal => none
  | input i => some i

/-- No command changes the flag of the master's client. -/
def step (cfg : Config) (x : World) : Label → Option World
  | .internal => (Original.step cfg x.server .internal).map fun w => ⟨w, received x.server x.repl⟩
  | .input (.event e) =>
      (Original.step cfg x.server (.input (.event e))).map fun w => ⟨w, closed x.repl e⟩
  | .input (.command o multi) =>
      if (executing x.server).all fun (_, cl) => o.master == cl.parser.master then
        (Original.step cfg x.server (.input (.command o))).map fun w =>
          ⟨w, processed x.server o multi x.repl⟩
      else none
  | .input (.replicationCreateMasterClient c offset) =>
      if x.repl.master.isNone then
        (Original.step cfg x.server (.input (.event (.accept c false)))).map fun w =>
          ⟨asMaster w c, .replicationCreateMasterClient c offset⟩
      else none
  | .input (.replicationResurrectCachedMaster c) =>
      x.repl.cached_master.bind fun offset =>
        (Original.step cfg x.server (.input (.event (.accept c false)))).map fun w =>
          ⟨asMaster w c, x.repl.replicationResurrectCachedMaster c offset⟩
  | .input .replicationSetupSlaveForFullResync =>
      some { x with repl := x.repl.replicationSetupSlaveForFullResync }
  | .input (.freeSlave i) =>
      some { x with repl := { x.repl with slaves := x.repl.slaves.eraseIdx i } }

end Replica

section Advances
variable {w w' : World} {cl cl' : Client}

theorem Client.Advances.refl (cl : Client) : cl.Advances cl := ⟨rfl, Nat.le_refl _⟩

theorem put_advances (site : Site) (here : w.clients c = some cl) (advances : cl.Advances cl')
    (there : w.clients d = some dl) :
    ∃ dl', (w.put c cl' site).clients d = some dl' ∧ dl.Advances dl' := by
  by_cases own : d = c
  · subst own
    cases here.symm.trans there
    exact ⟨cl', Function.update_self .., advances⟩
  · exact ⟨dl, (Function.update_of_ne own ..).trans there, .refl dl⟩

theorem Client.Advances.trim (cl : Client) (pos : ℕ) (onward : cl.parser.qb_pos ≤ pos)
    (inside : pos ≤ cl.querybuf.length) : cl.Advances (cl.trim pos) where
  stream := rfl
  position := by
    simp only [Client.trim, Nat.min_eq_left inside]
    omega

theorem Client.Advances.take (bound : cl.parser.qb_pos ≤ cl.querybuf.length) (bulklen : ℕ) :
    cl.Advances (cl.take bulklen) := by
  unfold Client.take
  dsimp only
  split
  · exact ⟨rfl, by dsimp only; omega⟩
  · exact ⟨rfl, by dsimp only; omega⟩

theorem perform_advances {action : Action} (here : w.clients c = some cl) (own : cl.Sound)
    (within : action.Within cl.querybuf.length cl.parser) (onward : action.Onward cl.parser)
    (performed : perform cfg w c cl action = some w') (there : w.clients d = some dl) :
    ∃ dl', w'.clients d = some dl' ∧ dl.Advances dl' := by
  cases action with
  | go p pc =>
    cases performed
    exact put_advances _ here ⟨rfl, Nat.add_le_add_left onward _⟩ there
  | csync pc | assertFailed =>
    cases performed
    exact ⟨dl, there, .refl dl⟩
  | fail e =>
    cases performed
    exact put_advances (.running c .trim) here ⟨rfl, Nat.le_refl _⟩ there
  | bulkLength ll pos =>
    cases performed
    refine put_advances _ here ?_ there
    dsimp only
    split
    · have trimmed := Client.Advances.trim { cl with parser :=
        { cl.parser with qb_pos := pos, bulklen := some ll } } pos (Nat.le_refl _) within
      exact ⟨rfl, Nat.le_trans (Nat.add_le_add_left onward _) trimmed.position⟩
    · exact ⟨rfl, Nat.add_le_add_left onward _⟩
  | take bulklen =>
    cases performed
    exact put_advances _ here (.take own.bound bulklen) there
  | inlineArgs argv pos =>
    simp only [Original.perform] at performed
    split at performed <;> cases performed <;>
      exact put_advances _ here ⟨rfl, Nat.add_le_add_left onward _⟩ there
  | resetClient =>
    cases performed
    exact put_advances _ here ⟨rfl, Nat.le_refl _⟩ there
  | processCommand => cases performed
  | trimToPos =>
    simp only [Original.perform] at performed
    split at performed <;> cases performed
    · exact ⟨dl, there, .refl dl⟩
    · exact put_advances _ here (.trim _ _ (Nat.le_refl _) own.bound) there

/-- Between reads the server's own steps keep every client and go on in its stream. -/
theorem internal_advances (sound : w.Sound) (stepped : internal cfg w = some w')
    (quiet : ∀ c data, w.site ≠ .receive c data) (there : w.clients d = some dl) :
    ∃ dl', w'.clients d = some dl' ∧ dl.Advances dl' := by
  unfold internal at stepped
  split at stepped
  · rename_i c data site
    exact absurd site (quiet c data)
  · cases stepped
    exact ⟨dl, there, .refl dl⟩
  · simp only [Option.bind_eq_some_iff] at stepped
    obtain ⟨cl, here, performed⟩ := stepped
    have own := sound _ cl here
    exact perform_advances here own (cl.action_within cfg w own _) (control_onward ..) performed there
  · contradiction

/-- A read adds to the stream of its client. -/
theorem receive_advances (d : ℕ) (dl : Client) (stepped : internal cfg w = some w') (site : w.site = .receive c data)
    (there : w.clients d = some dl) : ∃ dl', w'.clients d = some dl' ∧
      (dl'.stream = if d = c then dl.stream ++ data else dl.stream) ∧
        dl'.base + dl'.parser.qb_pos = dl.base + dl.parser.qb_pos := by
  simp only [internal, site, Option.map_eq_some_iff] at stepped
  obtain ⟨cl, here, rfl⟩ := stepped
  split
  · rename_i none
    subst none
    exact ⟨dl, there, by simp, rfl⟩
  · by_cases own : d = c
    · subst own
      cases here.symm.trans there
      rw [if_pos rfl]
      split <;> exact ⟨_, Function.update_self .., rfl, rfl⟩
    · rw [if_neg own]
      split <;> exact ⟨dl, (Function.update_of_ne own ..).trans there, rfl, rfl⟩

theorem execute_advances {o : Outcome} (here : w.clients c = some cl) (there : w.clients d = some dl)
    (kept : ¬ (d = c ∧ o.dead)) :
    ∃ dl', (execute w c cl pc o).clients d = some dl' ∧ dl.Advances dl' := by
  by_cases own : d = c
  · subst own
    cases here.symm.trans there
    have alive : ¬ o.dead := fun dead => kept ⟨rfl, dead⟩
    simp only [execute, Function.update_self, alive, Bool.false_eq_true, if_false]
    exact ⟨_, rfl, rfl, by simp only [Outcome.after_qb_pos, Nat.le_refl]⟩
  · exact ⟨dl, (Function.update_of_ne own ..).trans there, .refl dl⟩

theorem event_advances {e : Event} (stepped : event w e = some w') (there : w.clients d = some dl)
    (kept : e ≠ .disconnect d) : ∃ dl', w'.clients d = some dl' ∧ dl.Advances dl' := by
  cases event_occurs stepped with
  | accept c authRequired absent =>
    have other : d ≠ c := by
      rintro rfl
      rw [absent] at there
      contradiction
    exact ⟨dl, (Function.update_of_ne other ..).trans there, .refl dl⟩
  | unblock c cl here =>
    refine put_advances _ here ⟨rfl, ?_⟩ there
    simp only [Client.unblock]
    split <;> exact Nat.le_refl _
  | reprocess c cl here =>
    unfold reprocess
    dsimp only
    split
    · exact put_advances _ here ⟨rfl, Nat.le_refl _⟩ there
    · split <;> exact put_advances _ here ⟨rfl, Nat.le_refl _⟩ there
  | disconnect c =>
    have other : d ≠ c := fun same => kept (same ▸ rfl)
    exact ⟨dl, (Function.update_of_ne other ..).trans there, .refl dl⟩
  | readable | cron | expire => exact ⟨dl, there, .refl dl⟩

end Advances
end Original

namespace Replication.Sound
variable {r : Replication} {clients clients' : ℕ → Option Original.Client}

theorem init (clients : ℕ → Option Original.Client) : Replication.init.Sound clients :=
  ⟨nofun, nofun, nofun, fun _ => nofun⟩

theorem advance (sound : r.Sound clients) (advances : ∀ m, r.master = some m → ∀ cl,
    clients m.client = some cl → ∃ cl', clients' m.client = some cl' ∧ cl.Advances cl') :
    r.Sound clients' where
  stream linked := by
    obtain ⟨cl, here, whole, read, position⟩ := sound.stream linked
    obtain ⟨cl', here', same, onward⟩ := advances _ linked cl here
    exact ⟨cl', here', same ▸ whole, same ▸ read, Nat.le_trans position onward⟩
  applied := sound.applied
  cached := sound.cached
  slaves := sound.slaves

theorem readQueryFromClient (sound : r.Sound clients) (data : Bytes)
    (advances : ∀ d cl, clients d = some cl → ∃ cl', clients' d = some cl' ∧
      (cl'.stream = if d = c then cl.stream ++ data else cl.stream) ∧
        cl'.base + cl'.parser.qb_pos = cl.base + cl.parser.qb_pos) :
    (r.readQueryFromClient c data).Sound clients' where
  stream linked := by
    simp only [Replication.readQueryFromClient, Option.map_eq_some_iff] at linked
    obtain ⟨m, linked, rfl⟩ := linked
    obtain ⟨cl, here, whole, read, position⟩ := sound.stream linked
    obtain ⟨cl', here', stream, same⟩ := advances _ cl here
    split
    · rename_i own
      rw [if_pos own] at stream
      refine ⟨cl', here', ?_, ?_, same ▸ position⟩
      · rw [stream, ← whole, List.append_assoc]
      · rw [stream, List.length_append]
        dsimp only
        omega
    · rename_i other
      rw [if_neg other] at stream
      exact ⟨cl', here', stream ▸ whole, stream ▸ read, same ▸ position⟩
  applied linked := by
    simp only [Replication.readQueryFromClient, Option.map_eq_some_iff] at linked
    obtain ⟨m, linked, rfl⟩ := linked
    have applied := sound.applied linked
    split <;> exact applied
  cached kept := by
    obtain ⟨unlinked, offset⟩ := sound.cached kept
    exact ⟨by simp [Replication.readQueryFromClient, unlinked], offset⟩
  slaves := sound.slaves

theorem suffix_append {a b : List α} (suffix : a <:+ b) (c : List α) : a ++ c <:+ b ++ c := by
  obtain ⟨front, rfl⟩ := suffix
  exact ⟨front, (List.append_assoc ..).symm⟩

/-- What is passed on is what the commands up to here took from the stream. -/
theorem commandProcessed (sound : r.Sound clients) (multi : Bool)
    (here : clients c = some cl) (own : cl.Sound) :
    (r.commandProcessed c cl.querybuf.length cl.parser.qb_pos multi).Sound clients := by
  unfold Replication.commandProcessed
  split
  · exact sound
  rename_i m linked
  split
  on_goal 2 => exact sound
  rename_i same
  subst same
  obtain ⟨cl', here', whole, read, position⟩ := sound.stream linked
  cases here.symm.trans here'
  obtain ⟨counted, offset, backlog⟩ := sound.applied linked
  have length := own.length
  have bound := own.bound
  cases multi with
  | true => simpa only [if_true, Int.sub_self] using sound
  | false =>
  simp only [Bool.false_eq_true, if_false]
  split
  · exact sound
  have consumed : ((m.read_reploff - cl.querybuf.length + cl.parser.qb_pos - m.reploff).toNat : Int) =
      cl.base + cl.parser.qb_pos - m.forwarded.length := by
    rw [read, counted]
    omega
  generalize (m.read_reploff - cl.querybuf.length + cl.parser.qb_pos - m.reploff).toNat = n at consumed
  have pending : n ≤ m.pending_querybuf.length := by
    have total := congrArg List.length whole
    rw [List.length_append] at total
    omega
  have taken : (m.pending_querybuf.take n).length = n := List.length_take_of_le pending
  have forwarded : ((m.forwarded ++ m.pending_querybuf.take n).length : Int) =
      cl.base + cl.parser.qb_pos := by
    rw [List.length_append, taken]
    omega
  refine ⟨fun linked => ?_, fun linked => ?_, fun kept => ?_, fun slave member => ?_⟩
  · cases linked
    refine ⟨cl, here, ?_, read, ?_⟩
    · rw [List.append_assoc, List.take_append_drop, whole]
    · dsimp only
      omega
  · cases linked
    dsimp only [replicationFeedSlavesFromMasterStream]
    refine ⟨?_, ?_, suffix_append backlog _⟩
    · omega
    · omega
  · rw [(sound.cached kept).1] at linked
    contradiction
  · simp only [replicationFeedSlavesFromMasterStream, List.mem_map] at member
    obtain ⟨old, member, rfl⟩ := member
    obtain ⟨suffix, count⟩ := sound.slaves old member
    refine ⟨suffix_append suffix _, ?_⟩
    simp only [replicationFeedSlavesFromMasterStream, List.length_append, taken]
    omega

theorem freeClient (sound : r.Sound clients) (c : ℕ) (advances : ∀ d cl, d ≠ c →
    clients d = some cl → ∃ cl', clients' d = some cl' ∧ cl.Advances cl') :
    (r.freeClient c).Sound clients' := by
  unfold Replication.freeClient
  split
  · rename_i unlinked
    exact sound.advance fun m linked => by rw [unlinked] at linked; contradiction
  rename_i m linked
  split
  · obtain ⟨-, offset, -⟩ := sound.applied linked
    exact ⟨nofun, nofun, fun kept => ⟨rfl, offset.trans (Option.some.inj kept)⟩, sound.slaves⟩
  · rename_i other
    refine sound.advance fun m' linked' cl here => advances _ cl ?_ here
    cases linked.symm.trans linked'
    exact other

theorem created (offset : Int) (here : clients c = some cl) (empty : cl.stream = []) :
    (Replication.replicationCreateMasterClient c offset).Sound clients where
  stream linked := by
    cases linked
    exact ⟨cl, here, by simp [Master.created, empty]⟩
  applied linked := by
    cases linked
    exact ⟨(Int.add_zero _).symm, rfl, List.suffix_refl _⟩
  cached := nofun
  slaves _ := nofun

theorem resurrected (sound : r.Sound clients) (kept : r.cached_master = some offset)
    (here : clients' c = some cl) (empty : cl.stream = []) :
    (r.replicationResurrectCachedMaster c offset).Sound clients' where
  stream linked := by
    cases linked
    exact ⟨cl, here, by simp [Master.created, empty]⟩
  applied linked := by
    cases linked
    exact ⟨(Int.add_zero _).symm, (sound.cached kept).2, List.nil_suffix⟩
  cached := nofun
  slaves := sound.slaves

theorem fewer (sound : r.Sound clients) (i : ℕ) :
    Replication.Sound { r with slaves := r.slaves.eraseIdx i } clients :=
  { sound with slaves := fun slave member => sound.slaves slave (List.mem_of_mem_eraseIdx member) }

theorem replicationSetupSlaveForFullResync (sound : r.Sound clients) :
    r.replicationSetupSlaveForFullResync.Sound clients where
  stream := sound.stream
  applied := sound.applied
  cached := sound.cached
  slaves slave member := by
    rcases List.mem_append.mp member with old | new
    · exact sound.slaves slave old
    · cases List.mem_singleton.mp new
      exact ⟨List.nil_suffix, Int.add_zero _⟩

end Replication.Sound

namespace Original.Replica
variable {x x' : World}

theorem asMaster_client (w : Original.World) (c d : ℕ) : (asMaster w c).clients d =
    (w.clients d).map fun cl =>
      if d = c then { cl with parser := { cl.parser with master := true } } else cl := by
  by_cases same : d = c
  · subst same
    simp [asMaster]
  · simp [asMaster, same]

theorem asMaster_sound {w : Original.World} (sound : w.Sound) (c : ℕ) : (asMaster w c).Sound := by
  intro d dl found
  rw [asMaster_client, Option.map_eq_some_iff] at found
  obtain ⟨cl, here, rfl⟩ := found
  have own := sound d cl here
  split
  · refine own.reparse ?_ cl.argv
    exact own.bound
  · exact own

theorem accepted_client {w w' : Original.World}
    (stepped : Original.step cfg w (.input (.event (.accept c false))) = some w') :
    ∃ cl, (asMaster w' c).clients c = some cl ∧ cl.stream = [] := by
  simp only [Original.step, Original.event, Option.ite_none_right_eq_some, Option.some.injEq]
    at stepped
  obtain ⟨-, -, rfl⟩ := stepped
  exact ⟨_, by rw [asMaster_client]; exact congrArg _ (Function.update_self ..), by simp⟩

structure World.Sound (x : World) : Prop where
  server : x.server.Sound
  repl : x.repl.Sound x.server.clients

theorem World.Sound.init : Replica.init.Sound := ⟨fun _ _ => nofun, .init _⟩

theorem World.Sound.received (sound : x.Sound)
    (stepped : Original.step cfg x.server .internal = some w') :
    (received x.server x.repl).Sound w'.clients := by
  unfold Replica.received
  split
  · rename_i c data site
    have advances := fun d cl there => receive_advances d cl stepped site there
    split
    · rename_i none
      refine sound.repl.advance fun m linked cl here => ?_
      obtain ⟨cl', here', stream, position⟩ := advances _ cl here
      exact ⟨cl', here', by simpa [none] using stream, Nat.le_of_eq position.symm⟩
    · exact sound.repl.readQueryFromClient data advances
  · rename_i quiet
    exact sound.repl.advance fun m linked cl here =>
      internal_advances sound.server stepped (fun c data site => quiet c data site) here

theorem World.Sound.closed (sound : x.Sound) {e : Event}
    (stepped : Original.event x.server e = some w') : (closed x.repl e).Sound w'.clients := by
  have others : ∀ c, (∀ d, e = .disconnect d → d = c) → ∀ d cl, d ≠ c →
      x.server.clients d = some cl → ∃ cl', w'.clients d = some cl' ∧ cl.Advances cl' :=
    fun c only d cl other here => event_advances stepped here fun same => other (only d same)
  cases e with
  | disconnect c => exact sound.repl.freeClient c (others c fun d same => by cases same; rfl)
  | _ => exact sound.repl.advance fun m linked cl here => event_advances stepped here nofun

theorem World.Sound.processed (sound : x.Sound) {o : Outcome} (multi : Bool)
    (stepped : Original.command cfg x.server o = some w') :
    (processed x.server o multi x.repl).Sound w'.clients := by
  unfold Original.command at stepped
  split at stepped
  on_goal 2 => contradiction
  rename_i c pc site
  simp only [Option.bind_eq_some_iff] at stepped
  obtain ⟨cl, here, executed⟩ := stepped
  split at executed
  on_goal 2 => contradiction
  cases executed
  simp only [Replica.processed, executing, site, here, Option.map_some]
  split
  · exact sound.repl.freeClient c fun d dl other there =>
      execute_advances here there fun same => other same.1
  · rename_i alive
    have advances : ∀ d dl, x.server.clients d = some dl →
        ∃ dl', (execute x.server c cl pc o).clients d = some dl' ∧ dl.Advances dl' :=
      fun d dl there => execute_advances here there fun same => alive same.2
    split
    · exact (sound.repl.commandProcessed multi here (sound.server c cl here)).advance
        fun m _ dl there => advances _ dl there
    · exact sound.repl.advance fun m _ dl there => advances _ dl there

theorem World.Sound.step {l : Label} (sound : x.Sound) (stepped : Replica.step cfg x l = some x') :
    x'.Sound := by
  cases l with
  | internal =>
    simp only [Replica.step, Option.map_eq_some_iff] at stepped
    obtain ⟨w, stepped, rfl⟩ := stepped
    exact ⟨sound.server.step stepped, sound.received stepped⟩
  | input i =>
    cases i with
    | event e =>
      simp only [Replica.step, Option.map_eq_some_iff] at stepped
      obtain ⟨w, stepped, rfl⟩ := stepped
      refine ⟨sound.server.step stepped, sound.closed ?_⟩
      exact (Option.ite_none_right_eq_some.mp stepped).2
    | command o multi =>
      simp only [Replica.step, Option.ite_none_right_eq_some, Option.map_eq_some_iff] at stepped
      obtain ⟨-, w, stepped, rfl⟩ := stepped
      exact ⟨sound.server.step stepped, sound.processed multi stepped⟩
    | replicationCreateMasterClient c offset =>
      simp only [Replica.step, Option.ite_none_right_eq_some, Option.map_eq_some_iff] at stepped
      obtain ⟨-, w, stepped, rfl⟩ := stepped
      obtain ⟨cl, here, empty⟩ := accepted_client stepped
      exact ⟨asMaster_sound (sound.server.step stepped) c, .created offset here empty⟩
    | replicationResurrectCachedMaster c =>
      simp only [Replica.step, Option.bind_eq_some_iff, Option.map_eq_some_iff] at stepped
      obtain ⟨offset, kept, w, stepped, rfl⟩ := stepped
      obtain ⟨cl, here, empty⟩ := accepted_client stepped
      exact ⟨asMaster_sound (sound.server.step stepped) c, sound.repl.resurrected kept here empty⟩
    | replicationSetupSlaveForFullResync =>
      cases stepped
      exact ⟨sound.server, sound.repl.replicationSetupSlaveForFullResync⟩
    | freeSlave i =>
      cases stepped
      exact ⟨sound.server, sound.repl.fewer i⟩

end Original.Replica
end Copier.Redis
