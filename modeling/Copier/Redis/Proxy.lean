import Copier.Redis.Commands
import Copier.Redis.Replication

/-! The replica on `redis-6.2-copier-multi-client`. It duplicates what it read from the
master when the syscall has returned, while the service is still to bring the bytes. As
long as they are there by then, and the parser is not disturbed, it passes on and stores
what the original replica does. -/
namespace Copier.Redis.Server.Replica
open Deferred (Mem Span Task Access)

/-- `appending` is the `sdscatlen` of a read that has returned: client, offset, length. -/
structure World where
  server : Server.World
  repl : Replication
  appending : Option (ℕ × ℕ × ℕ)

def init : World := ⟨Server.init, .init, none⟩

/-- A read from the master that the syscall will return. -/
def begun (x : World) : Option (ℕ × ℕ × ℕ) :=
  match x.server.site with
  | .receive c data =>
      if data ≠ [] ∧ x.repl.master.any (·.client = c) then
        (x.server.clients c).map fun cl => (c, cl.querybuf.len, data.length)
      else none
  | _ => none

def executing (w : Server.World) : Option (ℕ × Client) :=
  match w.site with
  | .running c _ => (w.clients c).map fun cl => (c, cl)
  | _ => none

def processed (w : Server.World) (o : Outcome) (multi : Bool) (r : Replication) : Replication :=
  match executing w with
  | some (c, cl) =>
      if o.dead then r.freeClient c
      else if o.resets (commandOf w cl) then
        r.commandProcessed c cl.querybuf.len cl.parser.qb_pos multi
      else r
  | none => r

inductive Label
  | service
  | internal (a : Allocation)
  | sdscatlen
  | input (a : Allocation) (i : Replication.Input)

def Label.seen : Label → Option Replication.Input
  | input _ i => some i
  | _ => none

def sdscatlen (x : World) : Option World :=
  x.appending.bind fun (c, off, n) => (x.server.clients c).map fun cl =>
    { x with
      repl := x.repl.readQueryFromClient c (slice (cl.view x.server.heap) off (off + n))
      appending := none }

def input (cfg : Config) (a : Allocation) (x : World) : Replication.Input → Option World
  | .event e =>
      (Server.step cfg .multiClient x.server (.input a (.event e))).map fun w =>
        { x with server := w, repl := Original.Replica.closed x.repl e }
  | .command o multi =>
      if (executing x.server).all fun (_, cl) => o.master == cl.parser.master then
        (Server.step cfg .multiClient x.server (.input a (.command o))).map fun w =>
          { x with server := w, repl := processed x.server o multi x.repl }
      else none
  | .replicationCreateMasterClient c offset =>
      if x.repl.master.isNone then
        (Server.step cfg .multiClient x.server (.input a (.event (.accept c false)))).map fun w =>
          { x with server := asMaster w c, repl := .replicationCreateMasterClient c offset }
      else none
  | .replicationResurrectCachedMaster c =>
      x.repl.cached_master.bind fun offset =>
        (Server.step cfg .multiClient x.server (.input a (.event (.accept c false)))).map fun w =>
          { x with
            server := asMaster w c
            repl := x.repl.replicationResurrectCachedMaster c offset }
  | .replicationSetupSlaveForFullResync =>
      some { x with repl := x.repl.replicationSetupSlaveForFullResync }
  | .freeSlave i => some { x with repl := { x.repl with slaves := x.repl.slaves.eraseIdx i } }

/-- Between a read from the master and its `sdscatlen` only the service works. -/
def step (cfg : Config) (x : World) : Label → Option World
  | .service => (Server.step cfg .multiClient x.server .service).map fun w => { x with server := w }
  | .sdscatlen => sdscatlen x
  | .internal a =>
      if x.appending.isSome then none
      else (Server.step cfg .multiClient x.server (.internal a)).map fun w =>
        { x with server := w, appending := begun x }
  | .input a i => if x.appending.isSome then none else input cfg a x i

/-- What the event loop does below the label. -/
def Label.acts : Label → Option Server.Label
  | service => some .service
  | internal a => some (.internal a)
  | sdscatlen => none
  | input a (.event e) => some (.input a (.event e))
  | input a (.command o _) => some (.input a (.command o))
  | input a (.replicationCreateMasterClient c _) => some (.input a (.event (.accept c false)))
  | input a (.replicationResurrectCachedMaster c) => some (.input a (.event (.accept c false)))
  | input _ _ => none

/-- What the step duplicates for its own replicas. -/
def duplicates (x : World) : Label → List Access
  | .sdscatlen => match x.appending with
    | some (c, off, n) => match x.server.clients c with
      | some cl => [.read ⟨cl.querybuf.blk, off, n⟩]
      | none => []
    | none => []
  | _ => []

/-- The server's own step is undisturbed, and what is duplicated has arrived. -/
structure Prompt (cfg : Config) (x : World) (l : Label) : Prop where
  undisturbed : ∀ k ∈ l.acts, Undisturbed cfg .multiClient x.server k
  delivered : ∀ access ∈ duplicates x l, x.server.heap.Clear access

instance (cfg : Config) (x : World) (l : Label) : Decidable (Prompt cfg x l) :=
  decidable_of_iff ((∀ k ∈ l.acts, Undisturbed cfg .multiClient x.server k) ∧
      ∀ access ∈ duplicates x l, x.server.heap.Clear access)
    ⟨fun ⟨undisturbed, delivered⟩ => ⟨undisturbed, delivered⟩,
      fun ⟨undisturbed, delivered⟩ => ⟨undisturbed, delivered⟩⟩

/-- The replication state once an outstanding `sdscatlen` has found its bytes. -/
def World.caughtUp (x : World) : Replication :=
  match x.appending with
  | none => x.repl
  | some (c, off, n) => match x.server.clients c with
    | some cl => x.repl.readQueryFromClient c
        (slice (x.server.heap.settled cl.querybuf.blk) off (off + n))
    | none => x.repl

/-- The original replica takes the same inputs and ends with the same dataset and the
same replication state, in which what was passed on is the stream as far as it was
applied. -/
structure Proxied (cfg : Config) (ls : List Label) (x : World) : Prop where
  follows : ∃ ks o, Runs.run (Original.Replica.step cfg) Original.Replica.init ks = some o ∧
    ks.filterMap Original.Replica.Label.seen = ls.filterMap Label.seen ∧
      (x.appending = none → o.repl = x.repl) ∧
        mapDb (Obj.bytes x.server.heap.settled) x.server.db = o.server.db
  stream : x.appending = none →
    x.repl.Sound fun c => (x.server.clients c).map (Client.settled x.server.heap.settled)

section Following
variable {cfg : Config} {x x' : World} {o : Original.Replica.World} {w w' : Server.World}
  {cl : Client} {r : Replication}

theorem caughtUp_idle (idle : x.appending = none) : x.caughtUp = x.repl := by
  simp only [World.caughtUp, idle]

/-- A read that is not the master's leaves the link alone. -/
theorem readQueryFromClient_other (other : ¬ r.master.any (·.client = c)) (data : Bytes) :
    r.readQueryFromClient c data = r := by
  have same : (r.readQueryFromClient c data).master = r.master := by
    unfold Replication.readQueryFromClient
    cases linked : r.master with
    | none => rfl
    | some m =>
      have own : ¬ m.client = c := by simpa [linked] using other
      simp [own]
  change { r with master := (r.readQueryFromClient c data).master } = r
  rw [same]

structure Follows (x : World) (o : Original.Replica.World) : Prop where
  server : Refines x.server o.server
  repl : o.repl = x.caughtUp

theorem Follows.init : Follows init Original.Replica.init := ⟨Refines.init, rfl⟩

theorem Follows.of_idle (idle : x.appending = none) (server : Refines x.server o.server)
    (repl : o.repl = x.repl) : Follows x o :=
  ⟨server, repl.trans (caughtUp_idle idle).symm⟩

theorem Follows.site (follows : Follows x o) : o.server.site = settledSite x.server.site := by
  rw [follows.server.settles]
  rfl

theorem Follows.client (follows : Follows x o) (c : ℕ) : o.server.clients c =
    (x.server.clients c).map (Client.settled x.server.heap.settled) := by
  rw [follows.server.settles]
  rfl

/-- Steps of the server that are no reads keep up with the original's. -/
theorem Follows.received (follows : Follows x o) (quiet : ∀ c data, x.server.site ≠ .receive c data)
    (idle : x.appending = none) :
    begun x = none ∧ Original.Replica.received o.server o.repl = x.repl := by
  have repl : o.repl = x.repl := follows.repl.trans (caughtUp_idle idle)
  have site := follows.site
  unfold begun Original.Replica.received
  rw [site, repl]
  cases there : x.server.site with
  | receive c data => exact absurd there (quiet c data)
  | _ => exact ⟨rfl, rfl⟩

/-- The bytes of a read stand behind what the buffer held, once settled. -/
theorem received_bytes (inv : Inv w') (here : w'.clients c = some cl)
    (stream : cl.stream = before ++ data) (long : cl.base + len = before.length)
    (buffer : cl.querybuf.len = len + data.length) :
    slice (w'.heap.settled cl.querybuf.blk) len (len + data.length) = data := by
  have tail : cl.querybuf.bytes w'.heap.settled = cl.stream.drop cl.base := inv.tail here
  rw [Sds.bytes, buffer, stream] at tail
  have behind := congrArg (List.drop len) tail
  rw [drop_slice, Nat.zero_add, List.drop_drop, long, List.drop_left] at behind
  exact behind

theorem receive_client (cfg : Config) (filled : data ≠ []) (w : Server.World) (c : ℕ) (cl : Client) :
    ∃ cl', (receive cfg .multiClient w c cl data).clients c = some cl' ∧
      cl'.querybuf = { cl.querybuf with len := cl.querybuf.len + data.length } ∧
        cl'.stream = cl.stream ++ data ∧ cl'.base = cl.base := by
  unfold receive
  dsimp only
  rw [if_neg filled]
  split <;> exact ⟨_, Function.update_self .., rfl, rfl, rfl⟩

/-- A read that returned: the original has its bytes, here they are on their way. -/
theorem Follows.read (follows : Follows x o) (idle : x.appending = none)
    (site : x.server.site = .receive c data) (here : x.server.clients c = some cl)
    (inv : Inv (receive cfg .multiClient x.server c cl data)) :
    Original.Replica.received o.server o.repl =
      World.caughtUp ⟨receive cfg .multiClient x.server c cl data, x.repl, begun x⟩ := by
  have repl : o.repl = x.repl := follows.repl.trans (caughtUp_idle idle)
  have there : o.server.site = .receive c data := by rw [follows.site, site]; rfl
  simp only [Original.Replica.received, there, repl, begun, site, here, Option.map_some]
  by_cases none : data = []
  · simp only [none, ne_eq, not_true_eq_false, false_and, if_false, if_true, World.caughtUp]
  · by_cases own : x.repl.master.any (·.client = c)
    · obtain ⟨cl', here', buffer, stream, base⟩ := receive_client cfg none x.server c cl
      have measured : cl.base + cl.querybuf.len = cl.stream.length :=
        follows.server.heard.measured c cl here
      have bytes := received_bytes inv here' stream (base ▸ measured) (by rw [buffer])
      rw [buffer] at bytes
      simp only [none, own, ne_eq, not_false_eq_true, and_self, if_true, if_false, World.caughtUp,
        here', buffer, bytes]
    · simp only [none, own, and_false, if_false, World.caughtUp, Bool.false_eq_true]
      exact readQueryFromClient_other own data

/-- `sdscatlen` and the service leave what the link will have caught up with. -/
theorem caughtUp_service (stepped : Server.service x.server = some w) :
    World.caughtUp { x with server := w } = x.caughtUp := by
  unfold World.caughtUp
  cases x.appending with
  | none => rfl
  | some pending =>
    obtain ⟨c, off, n⟩ := pending
    have settled : w.heap.settled = x.server.heap.settled := by
      simp only [Server.service, Option.map_eq_some_iff, Prod.exists] at stepped
      obtain ⟨h, report, served, rfl⟩ := stepped
      exact Deferred.Heap.settled_serve served
    dsimp only
    cases here : x.server.clients c with
    | none =>
      have gone : w.clients c = none := by
        cases found : w.clients c with
        | none => rfl
        | some cl' =>
          obtain ⟨cl, d, there, -⟩ := service_found stepped found
          cases here.symm.trans there
      simp only [gone]
    | some cl =>
      obtain ⟨-, d, there⟩ := service_client stepped here
      simp only [there, settled]

theorem Follows.sdscatlen (follows : Follows x o)
    (delivered : ∀ access ∈ duplicates x .sdscatlen, x.server.heap.Clear access)
    (stepped : sdscatlen x = some x') : Follows x' o := by
  simp only [Replica.sdscatlen, Option.bind_eq_some_iff, Option.map_eq_some_iff, Prod.exists]
    at stepped
  obtain ⟨c, off, n, pending, cl, here, rfl⟩ := stepped
  simp only [duplicates, pending, here, List.forall_mem_singleton] at delivered
  have read : slice (cl.view x.server.heap) off (off + n) =
      slice (x.server.heap.settled cl.querybuf.blk) off (off + n) :=
    slice_congr fun j low high =>
      (Deferred.Heap.mem_eq_settled_of_clear delivered ⟨rfl, low, high⟩).symm
  refine ⟨follows.server, follows.repl.trans ?_⟩
  simp only [World.caughtUp, pending, here, read]

theorem Follows.internal {a : Allocation} (follows : Follows x o) (idle : x.appending = none)
    (undisturbed : Undisturbed cfg .multiClient x.server (.internal a))
    (stepped : Server.step cfg .multiClient x.server (.internal a) = some w) :
    ∃ ks o', Runs.run (Original.Replica.step cfg) o ks = some o' ∧
      ks.filterMap Original.Replica.Label.seen = [] ∧ Follows ⟨w, x.repl, begun x⟩ o' := by
  obtain ⟨p, ran, refines, -⟩ := follows.server.step undisturbed stepped
  have once : matching x.server (.internal a) = [.internal] →
      Original.Replica.step cfg o .internal =
        some ⟨p, Original.Replica.received o.server o.repl⟩ := by
    intro same
    rw [same, Runs.run_one] at ran
    simp only [Original.Replica.step, ran, Option.map_some]
  have quiet : (∀ c data, x.server.site ≠ .receive c data) →
      World.caughtUp ⟨w, x.repl, begun x⟩ = o.repl ∧
        Original.Replica.received o.server o.repl = o.repl := by
    intro other
    obtain ⟨nothing, received⟩ := follows.received other idle
    have repl : o.repl = x.repl := follows.repl.trans (caughtUp_idle idle)
    rw [nothing]
    exact ⟨repl.symm, received.trans repl.symm⟩
  have still : matching x.server (.internal a) = [] → (∀ c data, x.server.site ≠ .receive c data) →
      ∃ ks o', Runs.run (Original.Replica.step cfg) o ks = some o' ∧
        ks.filterMap Original.Replica.Label.seen = [] ∧ Follows ⟨w, x.repl, begun x⟩ o' :=
    fun none other => by
      rw [none] at ran
      cases ran
      exact ⟨[], o, rfl, rfl, refines, (quiet other).1.symm⟩
  have moved : matching x.server (.internal a) = [.internal] →
      World.caughtUp ⟨w, x.repl, begun x⟩ = Original.Replica.received o.server o.repl →
      ∃ ks o', Runs.run (Original.Replica.step cfg) o ks = some o' ∧
        ks.filterMap Original.Replica.Label.seen = [] ∧ Follows ⟨w, x.repl, begun x⟩ o' :=
    fun same repl => ⟨[.internal], _, (Runs.run_one ..).trans (once same), rfl, refines, repl.symm⟩
  cases site : x.server.site with
  | wait c pc | terminate c =>
    exact still (by simp only [matching, site]) fun _ _ => by rw [site]; rintro ⟨⟩
  | receive c data =>
    refine moved (by simp only [matching, site]) ?_
    obtain ⟨cl, here, -, rfl⟩ := receive_stepped stepped site
    exact (follows.read idle site here refines.inv).symm
  | _ =>
    have other : ∀ c data, x.server.site ≠ .receive c data := fun _ _ => by rw [site]; rintro ⟨⟩
    obtain ⟨repl, received⟩ := quiet other
    exact moved (by simp only [matching, site]) (repl.trans received.symm)

/-- Marking the client of the link changes nothing in memory. -/
theorem marked_refines {o : Original.World} (refines : Refines w o) (idle : w.site = .idle)
    (here : w.clients c = some cl) :
    Refines (asMaster w c) (Original.Replica.asMaster o c) := by
  obtain ⟨inv, heard, sound, settles⟩ := refines
  have outside : ∀ d, w.site ≠ .terminate d := fun d => by rw [idle]; rintro ⟨⟩
  let marked := { cl with parser := { cl.parser with master := true } }
  have same : asMaster w c = w.put w.heap c marked .idle := by
    simp only [Server.asMaster, World.put, here, Option.map_some, ← idle]
    rfl
  have still : (w.put w.heap c marked .idle).settled o.handed =
      (w.settled o.handed).put c (marked.settled w.heap.settled) .idle :=
    still_settled inv here rfl rfl rfl (fun _ _ found => found) rfl
  rw [same]
  refine ⟨inv.still here rfl rfl rfl (fun _ _ found => found) outside (by rintro _ _ ⟨⟩),
    heard.evolves (.put (v := .multiClient) here (.refl _) (.same rfl rfl rfl rfl)),
    Original.Replica.asMaster_sound sound c, ?_⟩
  have handed : (Original.Replica.asMaster o c).handed = o.handed := rfl
  rw [handed, still]
  have site : o.site = .idle := by rw [settles]; simp only [World.settled, idle, settledSite]
  have there : o.clients c = some (cl.settled w.heap.settled) := by
    rw [settles]
    exact found_settled here
  simp only [Original.Replica.asMaster, there, Option.map_some, Original.World.put, ← settles, ← site]
  rfl

theorem Follows.executing (follows : Follows x o) (site : x.server.site = .running c pc)
    (here : x.server.clients c = some cl) :
    Original.Replica.executing o.server = some (c, cl.settled x.server.heap.settled) := by
  have there : o.server.site = .running c pc := by rw [follows.site, site]; rfl
  simp only [Original.Replica.executing, there, follows.client c, here, Option.map_some]

/-- The command is told by bytes that have arrived. -/
theorem Follows.processed (follows : Follows x o) (idle : x.appending = none)
    (site : x.server.site = .running c pc) (here : x.server.clients c = some cl)
    (landed : ∀ access ∈ (cl.argv.take 1).flatMap Obj.reads, x.server.heap.Clear access)
    (out : Outcome) (multi : Bool) : Original.Replica.processed o.server out multi o.repl =
      Replica.processed x.server out multi x.repl := by
  have repl : o.repl = x.repl := follows.repl.trans (caughtUp_idle idle)
  have running : Replica.executing x.server = some (c, cl) := by
    simp only [Replica.executing, site, here, Option.map_some]
  simp only [Original.Replica.processed, Replica.processed, running, follows.executing site here,
    repl, commandOf_settled landed, Client.settled_length, Client.settled_parser]

theorem Follows.command {a : Allocation} {out : Outcome} {multi : Bool} (follows : Follows x o)
    (idle : x.appending = none)
    (undisturbed : Undisturbed cfg .multiClient x.server (.input a (.command out)))
    (stepped : input cfg a x (.command out multi) = some x') :
    ∃ o', Original.Replica.step cfg o (.input (.command out multi)) = some o' ∧ Follows x' o' := by
  simp only [Replica.input, Option.ite_none_right_eq_some, Option.map_eq_some_iff] at stepped
  obtain ⟨kept, w, stepped, rfl⟩ := stepped
  obtain ⟨p, ran, refines, -⟩ := follows.server.step undisturbed stepped
  have landed := undisturbed.landed
  simp only [looks] at landed
  cases step_stepped stepped with
  | command c pc cl _ site here =>
    simp only [site, here, List.forall_mem_cons, executeLooks, List.forall_mem_append] at landed
    have running : Replica.executing x.server = some (c, cl) := by
      simp only [Replica.executing, site, here, Option.map_some]
    rw [running] at kept
    simp only [matching, Runs.run_one] at ran
    have repl := follows.processed idle site here landed.2.1 out multi
    refine ⟨⟨p, Original.Replica.processed o.server out multi o.repl⟩, ?_, .of_idle idle refines repl⟩
    simp only [Original.Replica.step, follows.executing site here, Option.all_some]
    refine (if_pos ?_).trans (by rw [ran, Option.map_some])
    exact kept

theorem Follows.link {a : Allocation} (follows : Follows x o)
    (undisturbed : Undisturbed cfg .multiClient x.server (.input a (.event (.accept c false))))
    (stepped : Server.step cfg .multiClient x.server (.input a (.event (.accept c false))) = some w) :
    ∃ p, Original.step cfg o.server (.input (.event (.accept c false))) = some p ∧
      Refines (asMaster w c) (Original.Replica.asMaster p c) := by
  obtain ⟨p, ran, refines, -⟩ := follows.server.step undisturbed stepped
  simp only [matching, Runs.run_one] at ran
  refine ⟨p, ran, ?_⟩
  simp only [Server.step, Server.event, Option.ite_none_right_eq_some, Option.some.injEq] at stepped
  obtain ⟨-, -, rfl⟩ := stepped
  exact marked_refines refines rfl (Function.update_self ..)

theorem Follows.input {a : Allocation} {i : Replication.Input} (follows : Follows x o)
    (idle : x.appending = none) (prompt : Prompt cfg x (.input a i))
    (stepped : input cfg a x i = some x') :
    ∃ o', Original.Replica.step cfg o (.input i) = some o' ∧ Follows x' o' := by
  have repl : o.repl = x.repl := follows.repl.trans (caughtUp_idle idle)
  cases i with
  | event e =>
    simp only [Replica.input, Option.map_eq_some_iff] at stepped
    obtain ⟨w, stepped, rfl⟩ := stepped
    obtain ⟨p, ran, refines, -⟩ := follows.server.step (prompt.undisturbed _ rfl) stepped
    simp only [matching, Runs.run_one] at ran
    refine ⟨⟨p, Original.Replica.closed o.repl e⟩, ?_, .of_idle idle refines ?_⟩
    · simp only [Original.Replica.step, ran, Option.map_some]
    · rw [repl]
  | command out multi => exact follows.command idle (prompt.undisturbed _ rfl) stepped
  | replicationCreateMasterClient c offset =>
    simp only [Replica.input, Option.ite_none_right_eq_some, Option.map_eq_some_iff] at stepped
    obtain ⟨unlinked, w, stepped, rfl⟩ := stepped
    obtain ⟨p, ran, refines⟩ := follows.link (prompt.undisturbed _ rfl) stepped
    refine ⟨⟨Original.Replica.asMaster p c, .replicationCreateMasterClient c offset⟩, ?_,
      .of_idle idle refines rfl⟩
    simp only [Original.Replica.step, repl, unlinked, if_true, ran, Option.map_some]
  | replicationResurrectCachedMaster c =>
    simp only [Replica.input, Option.bind_eq_some_iff, Option.map_eq_some_iff] at stepped
    obtain ⟨offset, kept, w, stepped, rfl⟩ := stepped
    obtain ⟨p, ran, refines⟩ := follows.link (prompt.undisturbed _ rfl) stepped
    refine ⟨⟨Original.Replica.asMaster p c, x.repl.replicationResurrectCachedMaster c offset⟩, ?_,
      .of_idle idle refines rfl⟩
    simp only [Original.Replica.step, repl, kept, Option.bind_some, ran, Option.map_some]
  | replicationSetupSlaveForFullResync | freeSlave i =>
    cases stepped
    refine ⟨_, rfl, .of_idle idle follows.server ?_⟩
    rw [repl]

theorem Follows.step {l : Label} (follows : Follows x o) (prompt : Prompt cfg x l)
    (stepped : step cfg x l = some x') :
    ∃ ks o', Runs.run (Original.Replica.step cfg) o ks = some o' ∧
      ks.filterMap Original.Replica.Label.seen = [l].filterMap Label.seen ∧ Follows x' o' := by
  cases l with
  | service =>
    simp only [Replica.step, Option.map_eq_some_iff] at stepped
    obtain ⟨w, stepped, rfl⟩ := stepped
    obtain ⟨p, still, refines, -⟩ := follows.server.step (undisturbed_service cfg _ _) stepped
    cases still
    exact ⟨[], o, rfl, rfl, refines, follows.repl.trans (caughtUp_service stepped).symm⟩
  | sdscatlen => exact ⟨[], o, rfl, rfl, follows.sdscatlen prompt.delivered stepped⟩
  | internal a =>
    simp only [Replica.step, Option.ite_none_left_eq_some, Option.map_eq_some_iff,
      Bool.not_eq_true, Option.isSome_eq_false_iff, Option.isNone_iff_eq_none] at stepped
    obtain ⟨idle, w, stepped, rfl⟩ := stepped
    exact follows.internal idle (prompt.undisturbed _ rfl) stepped
  | input a i =>
    simp only [Replica.step, Option.ite_none_left_eq_some, Bool.not_eq_true,
      Option.isSome_eq_false_iff, Option.isNone_iff_eq_none] at stepped
    obtain ⟨o', ran, follows'⟩ := follows.input stepped.1 prompt stepped.2
    exact ⟨[.input i], o', (Runs.run_one ..).trans ran, rfl, follows'⟩

/-- Runs in which the bytes from the master are there when they are duplicated, and no
step is disturbed: the replica passes on the stream it applies. -/
theorem stream_proxied (path : Runs.Path (step cfg) (Prompt cfg) init ls x) : Proxied cfg ls x := by
  obtain ⟨ks, o, ran, visible, follows⟩ := path.forward Follows
    (fun follows prompt stepped => follows.step prompt stepped) .init
  have sound : o.Sound := (Runs.Path.of_run_any ran).invariant _ .init
    fun sound _ stepped => sound.step stepped
  refine ⟨⟨ks, o, ran, visible, fun idle => follows.repl.trans (caughtUp_idle idle), ?_⟩,
    fun idle => ?_⟩
  · exact (congrArg Original.World.db follows.server.settles).symm
  · have same : o.repl = x.repl := follows.repl.trans (caughtUp_idle idle)
    have clients := congrArg Original.World.clients follows.server.settles
    have kept := sound.repl
    rw [same, clients] at kept
    exact kept

end Following

/-- The master sends a PING, of which the service has brought `n` bytes when they are
duplicated, and the rest before the replica reads on. -/
def pingLink (n : ℕ) : List Label :=
  [.input .exact (.replicationCreateMasterClient 0 0),
    .input .exact (.event (.readable 0 (request [ascii "PING"]))), .internal .exact] ++
  List.replicate n .service ++ .sdscatlen :: List.replicate (14 - n) .service ++
  List.replicate 10 (.internal .exact) ++
  [.input .exact (.command { Outcome.plain with master := true } false)]

theorem pingLink_prompt :
    (Runs.run (fun x l => if Prompt .default x l then step .default x l else none) init
      (pingLink 14)).isSome := by
  decide +kernel

theorem arrived_ping_proxied : ∃ x, Proxied .default (pingLink 14) x := by
  obtain ⟨x, ran⟩ := Option.isSome_iff_exists.mp pingLink_prompt
  exact ⟨x, stream_proxied (.of_run ran)⟩

/-- What was passed on and is pending, and the stream it should be. -/
def World.passed (x : World) : Option (Bytes × Option Bytes) :=
  x.repl.master.map fun m =>
    (m.forwarded ++ m.pending_querybuf, (x.server.clients m.client).map Client.stream)

theorem Proxied.passed (proxied : Proxied cfg ls x) (idle : x.appending = none)
    (link : x.passed = some (sent, got)) : got = some sent := by
  simp only [World.passed, Option.map_eq_some_iff, Prod.mk.injEq] at link
  obtain ⟨m, linked, rfl, rfl⟩ := link
  obtain ⟨ocl, here, whole, -⟩ := (proxied.stream idle).stream linked
  obtain ⟨cl, there, rfl⟩ := Option.map_eq_some_iff.mp here
  exact there ▸ congrArg some whole.symm

theorem pingLink_passed :
    (Runs.run (step .default) init (pingLink 0)).map (fun x => (x.appending, x.passed)) =
      some (none, some (List.replicate 14 NUL, some (request [ascii "PING"]))) := by
  decide +kernel

/-- Nothing has arrived when the PING is duplicated: zeros go to the replicas. -/
theorem missing_ping_forwarded :
    ¬ ∀ ls x, Runs.run (step .default) init ls = some x → Proxied .default ls x := by
  intro proxied
  obtain ⟨x, ran, seen⟩ := Option.map_eq_some_iff.mp pingLink_passed
  simp only [Prod.mk.injEq] at seen
  have same := (proxied _ x ran).passed seen.1 seen.2
  exact absurd same (by decide)

end Copier.Redis.Server.Replica
