import Copier.Redis.ReplyProgress
import Copier.Redis.Waits

/-! The queue of a client. `createClient` leaves `descriptor.ctx` as `zmalloc` found it
and only `acceptCommonHandler` assigns it; fake clients and the link to a master are
made elsewhere. In `redis-6.2-copier-get` a new reply block goes through it, in
`redis-6.2-copier-set` an argument to be copied and a trim that leaves something. -/
namespace Copier.Redis
open Deferred (Mem Span Task Access)

namespace Reply

/-- The last block has room for the reply. -/
def Client.roomy (cl : Client) (s : Span) : Bool :=
  decide (cl.has .CLIENT_CLOSE_AFTER_REPLY) ||
    decide (s.len ≤ (lastBlock cl.reply).elim 0 fun tail => tail.size - tail.used)

/-- What a client without a queue adds to its list fits into the last block. -/
def Roomy (w : World) : Label → Bool
  | .step _ => match w.todo with
    | .addReplyProtoToList c s :: _ => (w.clients c).all fun cl => cl.bound || cl.roomy s
    | _ => true
  | _ => true

/-- Where `_addReplyProtoToList` dereferences `descriptor.ctx`, it was assigned. -/
def Assigned (w : World) (l : Label) : Prop :=
  ∀ moved c s rest cl, l = .step moved → w.todo = .newBlock c s :: rest → w.clients c = some cl →
    cl.bound = true

/-- A step of a reply function neither makes clients nor binds them, and gets to a new
block only where a reply does not fit into the last one. -/
structure Quiet (w : World) (stmt : Stmt) (w' : World) : Prop where
  clients : w'.clients d = some dl' → ∃ dl, w.clients d = some dl ∧ dl'.bound = dl.bound
  blocks : .newBlock c s ∈ w'.todo → .newBlock c s ∈ w.todo ∨
    ∃ left cl, stmt = .addReplyProtoToList c left ∧ w.clients c = some cl ∧ cl.roomy left = false

section Queues
variable {cfg : Config} {v : Variant} {moved : Bool} {w w' : World} {rest : List Stmt}
  {cl cl' dl' : Client} {s : Span}

theorem put_bound (here : w.clients c = some cl)
    (there : Function.update w.clients c (some cl') d = some dl') (bound : cl'.bound = cl.bound) :
    ∃ dl, w.clients d = some dl ∧ dl'.bound = dl.bound := by
  rcases Runs.updated_found there with ⟨rfl, same⟩ | ⟨-, before⟩
  · cases same
    exact ⟨cl, here, bound⟩
  · exact ⟨dl', before, rfl⟩

@[simp] theorem freeClientAsync_bound (cl : Client) : (freeClientAsync cl).bound = cl.bound := by
  unfold freeClientAsync
  split <;> rfl

theorem checkClientOutputBufferLimits_bound (cl : Client) (cfg : Config) (now : ℕ) :
    (checkClientOutputBufferLimits cl cfg now).2.bound = cl.bound := by
  unfold checkClientOutputBufferLimits
  generalize cfg.client_obuf_limits _ = limit
  dsimp only
  split
  · split <;> rfl
  · rfl

@[simp] theorem closeClient_bound (cl : Client) (cfg : Config) (now : ℕ) :
    (closeClientOnOutputBufferLimitReached cl cfg now).bound = cl.bound := by
  have same := checkClientOutputBufferLimits_bound cl cfg now
  unfold closeClientOnOutputBufferLimitReached
  split
  · rfl
  · split
    · rfl
    · split <;> simp_all

section Quiet
variable {stmt : Stmt} {stmts : List Stmt}

theorem Quiet.resume (clients : w'.clients = w.clients)
    (todo : ∀ c s, .newBlock c s ∈ w'.todo → .newBlock c s ∈ w.todo) : Quiet w stmt w' :=
  ⟨fun there => ⟨_, clients ▸ there, rfl⟩, fun member => .inl (todo _ _ member)⟩

theorem Quiet.put {h : Heap} (here : w.clients c = some cl) (bound : cl'.bound = cl.bound)
    (todo : ∀ c s, .newBlock c s ∈ stmts → .newBlock c s ∈ w.todo) :
    Quiet w stmt (w.put h c cl' stmts) :=
  ⟨fun there => put_bound here there bound, fun member => .inl (todo _ _ member)⟩

theorem newBlocks_mem {d : ℕ} {s t : Span} (member : .newBlock d t ∈ newBlocks c s) :
    d = c ∧ s.len ≠ 0 := by
  unfold newBlocks at member
  split at member
  · cases member
  · cases List.mem_singleton.mp member
    exact ⟨rfl, ‹_›⟩

theorem addReplyProtoToList_quiet (todo : w.todo = .addReplyProtoToList c s :: rest)
    (here : w.clients c = some cl) :
    Quiet w (.addReplyProtoToList c s) (addReplyProtoToList w c cl s rest) := by
  have later : ∀ d t, .newBlock d t ∈ rest → .newBlock d t ∈ w.todo :=
    fun d t member => todo ▸ List.mem_cons_of_mem _ member
  unfold addReplyProtoToList
  split
  · exact .resume rfl later
  · rename_i open_
    have tight : ∀ {t : Span}, (lastBlock cl.reply).elim 0 (fun tail => tail.size - tail.used) < s.len →
        cl.roomy s = false := fun short => by simp [Client.roomy, open_, short]
    cases last : lastBlock cl.reply with
    | none =>
      refine ⟨fun there => ⟨_, there, rfl⟩, fun {d t} member => ?_⟩
      rcases List.mem_append.mp member with new | old
      · obtain ⟨rfl, some⟩ := newBlocks_mem new
        exact .inr ⟨s, cl, rfl, here, tight (t := t) (by simp [last]; omega)⟩
      · exact .inl (later d t old)
    | some tail =>
      refine ⟨fun there => put_bound here there rfl, fun {d t} member => ?_⟩
      rcases List.mem_append.mp member with new | old
      · obtain ⟨rfl, some⟩ := newBlocks_mem new
        refine .inr ⟨s, cl, rfl, here, tight (t := t) ?_⟩
        dsimp only at some
        simp only [last, Option.elim_some]
        omega
      · exact .inl (later d t old)

theorem later_cons (later : ∀ d t, .newBlock d t ∈ stmts → .newBlock d t ∈ w.todo)
    (other : ∀ d t, stmt ≠ .newBlock d t) :
    ∀ d t, .newBlock d t ∈ stmt :: stmts → .newBlock d t ∈ w.todo := by
  intro d t member
  rcases List.mem_cons.mp member with same | old
  · exact absurd same.symm (other d t)
  · exact later d t old

section Functions
variable (later : ∀ d t, .newBlock d t ∈ rest → .newBlock d t ∈ w.todo)
include later

theorem addReplyToBuffer_quiet (here : w.clients c = some cl) :
    Quiet w stmt (addReplyToBuffer w c cl s rest) := by
  unfold addReplyToBuffer
  split
  · exact .resume rfl later
  · split
    · exact .put here rfl later
    · exact .resume rfl (later_cons later (by rintro _ _ ⟨⟩))

theorem newBlock_quiet (here : w.clients c = some cl) :
    Quiet w stmt (newBlock cfg v w c cl s rest) := by
  unfold newBlock
  cases v with
  | original => exact .put here (closeClient_bound _ _ _) later
  | copierGet =>
    dsimp only
    split
    · exact .put here (closeClient_bound _ _ _) later
    · exact .resume rfl fun _ _ => id

theorem addReplyLongLongWithPrefix_quiet (c : ℕ) (ll : Int) (pre : UInt8) :
    Quiet w stmt (addReplyLongLongWithPrefix w c ll pre rest) := by
  unfold addReplyLongLongWithPrefix
  split
  · exact .resume rfl (later_cons later (by rintro _ _ ⟨⟩))
  · exact .resume rfl (later_cons (later_cons later (by rintro _ _ ⟨⟩)) (by rintro _ _ ⟨⟩))

theorem joinReply_quiet {d e : Client} (target : w.clients dst = some d)
    (origin : w.clients src = some e) : Quiet w stmt (joinReply cfg w dst src d e rest) := by
  unfold joinReply
  split
  · exact .resume rfl later
  · split
    · exact .resume rfl later
    · refine ⟨fun {x dl'} there => ?_, fun member => .inl (later _ _ member)⟩
      rcases updated_two there with ⟨rfl, rfl⟩ | ⟨rfl, rfl⟩ | there
      · exact ⟨e, origin, rfl⟩
      · exact ⟨d, target, closeClient_bound _ _ _⟩
      · exact ⟨dl', there, rfl⟩

theorem trimReplyUnusedTailSpace_quiet (here : w.clients c = some cl) :
    Quiet w stmt (trimReplyUnusedTailSpace cfg moved w c cl rest) := by
  unfold trimReplyUnusedTailSpace
  split
  · exact .resume rfl later
  · split
    · exact .put here rfl later
    · exact .resume rfl later

theorem setDeferredAggregateLen_quiet (c node length : ℕ) (pre : UInt8) :
    Quiet w stmt (setDeferredAggregateLen w c node length pre rest) := by
  unfold setDeferredAggregateLen
  split
  · exact .resume rfl (later_cons later (by rintro _ _ ⟨⟩))
  · exact .resume rfl (later_cons (later_cons later (by rintro _ _ ⟨⟩)) (by rintro _ _ ⟨⟩))

theorem setDeferredReply_quiet (here : w.clients c = some cl)
    (done : setDeferredReply w c cl node s rest = some w') : Quiet w stmt w' := by
  obtain ⟨sides, -, rfl⟩ := Option.map_eq_some_iff.mp done
  dsimp only
  split
  · exact .resume rfl (later_cons later (by rintro _ _ ⟨⟩))
  · split
    · split
      · exact .put here rfl later
      · exact .put here rfl (later_cons later (by rintro _ _ ⟨⟩))
    · exact .resume rfl (later_cons later (by rintro _ _ ⟨⟩))

theorem glueDeferred_quiet (here : w.clients c = some cl)
    (done : glueDeferred cfg w c cl node s rest = some w') : Quiet w stmt w' := by
  obtain ⟨sides, -, rfl⟩ := Option.map_eq_some_iff.mp done
  dsimp only
  split
  · exact .resume rfl (later_cons later (by rintro _ _ ⟨⟩))
  · exact .put here (closeClient_bound _ _ _) later

theorem fillDeferred_quiet (here : w.clients c = some cl)
    (done : fillDeferred w c cl node s rest = some w') : Quiet w stmt w' := by
  obtain ⟨sides, -, filled⟩ := Option.bind_eq_some_iff.mp done
  obtain ⟨next, -, rfl⟩ := Option.map_eq_some_iff.mp filled
  exact .put here rfl later

theorem copyClientOutputBuffer_quiet {d e : Client} (target : w.clients dst = some d) :
    Quiet w stmt (copyClientOutputBuffer w dst src d e rest) := by
  refine .put target rfl fun x t member => ?_
  rcases List.mem_append.mp member with dup | old
  · simp at dup
  · exact later_cons later (by rintro _ _ ⟨⟩) x t old

theorem write_quiet (here : w.clients c = some cl) (done : write w c tot cl rest = some w') :
    Quiet w stmt w' := by
  unfold write at done
  split at done
  · cases done
    exact .resume rfl (later_cons later (by rintro _ _ ⟨⟩))
  · split at done
    · contradiction
    · split at done
      · contradiction
      · cases done
        exact .resume rfl fun _ _ => id
      · split at done
        · cases done
          exact .put here rfl (later_cons later (by rintro _ _ ⟨⟩))
        · contradiction

theorem written_quiet (here : w.clients c = some cl) (failed : Bool) :
    Quiet w stmt (written w c cl failed rest) := by
  refine .put here ?_ later
  split
  · exact freeClientAsync_bound cl
  · split
    · rfl
    · split
      · exact freeClientAsync_bound _
      · rfl

end Functions

theorem exec_quiet (todo : w.todo = stmt :: rest)
    (executed : exec cfg v moved w rest stmt = some w') : Quiet w stmt w' := by
  have later : ∀ d t, .newBlock d t ∈ rest → .newBlock d t ∈ w.todo :=
    fun d t member => todo ▸ List.mem_cons_of_mem _ member
  cases exec_executed executed with
  | skipped | forgets => exact .resume rfl later
  | addReply | addReplyProto | addReplyNull =>
    exact .resume rfl (later_cons later (by rintro _ _ ⟨⟩))
  | addReplyInt | AddReplyFromClient =>
    exact .resume rfl (later_cons (later_cons later (by rintro _ _ ⟨⟩)) (by rintro _ _ ⟨⟩))
  | addReplyToBuffer c s here => exact addReplyToBuffer_quiet later here
  | addReplyProtoToList c s here => exact addReplyProtoToList_quiet todo here
  | newBlock c s here => exact newBlock_quiet later here
  | addReplyLongLongWithPrefix c ll pre => exact addReplyLongLongWithPrefix_quiet later c ll pre
  | addReplyBulkLongLong =>
    refine .resume rfl fun d t member => ?_
    rcases List.mem_append.mp member with bulk | old
    · simp [addReplyBulkCBuffer] at bulk
    · exact later_cons later (by rintro _ _ ⟨⟩) d t old
  | @abandoned _ d _ _ target => exact .put target (freeClientAsync_bound d) later
  | joinReply dst src target origin => exact joinReply_quiet later target origin
  | trimReplyUnusedTailSpace c here =>
    exact trimReplyUnusedTailSpace_quiet (later_cons later (by rintro _ _ ⟨⟩)) here
  | addReplyDeferredLen c here => exact .put here rfl later
  | setDeferredAggregateLen c node length pre =>
    exact setDeferredAggregateLen_quiet later c node length pre
  | setDeferredReply c node s here done => exact setDeferredReply_quiet later here done
  | glueDeferred c node s here done => exact glueDeferred_quiet later here done
  | fillDeferred c node s here done => exact fillDeferred_quiet later here done
  | copyClientOutputBuffer dst src target => exact copyClientOutputBuffer_quiet later target
  | copyBuffer dst src target => exact .put target rfl later
  | dupClientReplyValue dst n target =>
    cases n with
    | deferred => exact .resume rfl fun _ _ => id
    | block => exact .put target rfl later
  | write c tot here done => exact write_quiet later here done
  | written c failed here => exact written_quiet later here failed

end Quiet

/-- New blocks are only under way for clients with a queue. -/
def Queues (w : World) : Prop :=
  ∀ c s, .newBlock c s ∈ w.todo → ∀ cl, w.clients c = some cl → cl.bound = true

theorem Queues.exec {stmt : Stmt} (queues : Queues w) (todo : w.todo = stmt :: rest)
    (roomy : Roomy w (.step moved)) (executed : Reply.exec cfg v moved w rest stmt = some w') :
    Queues w' := by
  intro c s member cl' there
  have quiet := exec_quiet todo executed
  obtain ⟨cl, here, bound⟩ := quiet.clients there
  rw [bound]
  rcases quiet.blocks member with old | ⟨left, known, rfl, found, tight⟩
  · exact queues c s old cl here
  · cases here.symm.trans found
    simp only [Roomy, todo, here, Option.all_some, tight, Bool.or_false] at roomy
    exact roomy

/-- With nothing left to do there is no new block under way. -/
theorem Queues.of_idle {l : Label} (acted : idle w l = some w') : ∀ c s, .newBlock c s ∈ w'.todo →
    .newBlock c s ∈ w.todo := by
  intro c s member
  cases l with
  | call op =>
    simp only [Reply.idle, Option.ite_none_right_eq_some, Option.some.injEq] at acted
    obtain ⟨-, rfl⟩ := acted
    cases op with
    | addReplyBulkCString c s => cases s <;> simp [Op.body, Reply.addReplyBulkCBuffer] at member
    | _ => simp [Op.body, Reply.addReplyBulkCBuffer] at member
  | writeToClient c =>
    simp only [Reply.idle, Option.bind_eq_some_iff, Option.ite_none_right_eq_some,
      Option.some.injEq] at acted
    obtain ⟨cl, -, -, rfl⟩ := acted
    simp at member
  | acceptCommonHandler c | createClient c conn =>
    simp only [Reply.idle, Reply.createClient, Option.ite_none_right_eq_some,
      Option.some.injEq] at acted
    obtain ⟨-, rfl⟩ := acted
    cases member
  | configure c flags resp =>
    simp only [Reply.idle, Option.map_eq_some_iff] at acted
    obtain ⟨cl, -, rfl⟩ := acted
    cases member
  | freeClient c =>
    simp only [Reply.idle, Option.map_eq_some_iff] at acted
    obtain ⟨cl, -, rfl⟩ := acted
    exact member
  | create len fill | tick now =>
    cases acted
    exact member
  | overwrite s fill =>
    simp only [Reply.idle, Option.ite_none_right_eq_some, Option.some.injEq] at acted
    obtain ⟨-, rfl⟩ := acted
    exact member
  | delete b =>
    simp only [Reply.idle, Option.ite_none_right_eq_some, Option.some.injEq] at acted
    obtain ⟨-, rfl⟩ := acted
    cases member
  | _ => simp [Reply.idle] at acted

theorem advance_bound (cl : Client) (n : ℕ) : (cl.advance n).1.bound = cl.bound := by
  unfold Client.advance
  dsimp only
  split
  · split <;> rfl
  · split
    · rfl
    · rfl
    · split <;> rfl

theorem Queues.step {l : Label} (queues : Queues w) (roomy : Roomy w l)
    (stepped : Reply.step cfg v w l = some w') : Queues w' := by
  cases (step_iff.mp stepped).2 with
  | service served =>
    unfold service at served
    split at served
    · contradiction
    · split at served
      · simp only [Option.map_eq_some_iff, Prod.exists] at served
        obtain ⟨h, report, -, rfl⟩ := served
        exact queues
      · cases served
        exact queues
  | reuse known dead => exact queues
  | exec todo executed => exact queues.exec todo roomy executed
  | wrote todo here sent =>
    simp only [sends, Option.bind_eq_bind, Option.bind_eq_some_iff, Option.ite_none_right_eq_some,
      Option.some.injEq] at sent
    obtain ⟨span, -, -, rfl⟩ := sent
    intro c s member cl' there
    obtain ⟨cl, before, bound⟩ := put_bound here there (advance_bound _ _)
    refine bound ▸ queues c s ?_ cl before
    rcases List.mem_cons.mp member with new | old
    · split at new <;> cases new
    · exact todo ▸ List.mem_cons_of_mem _ old
  | refused todo here asked =>
    intro c s member
    rcases List.mem_cons.mp member with new | old
    · cases new
    · exact queues c s (todo ▸ List.mem_cons_of_mem _ old)
  | idle todo acted =>
    intro c s member
    have old := Queues.of_idle acted c s member
    rw [todo] at old
    cases old

theorem blocks_queued {ls : List Label} (path : Runs.Path (step cfg v) (fun w l => Roomy w l) init ls w) :
    Runs.Path (step cfg v) Assigned init ls w := by
  refine path.mono_invariant Queues (fun _ _ => nofun) (fun queues roomy stepped =>
    queues.step roomy stepped) fun queues _ moved c s rest cl _ todo here => ?_
  exact queues c s (todo ▸ List.mem_cons_self) cl here

end Queues

end Reply

namespace Context
open Server (Extends)

/-- The server beside what it takes a mapped queue from: which clients were accepted
on a connection, and so have `descriptor.ctx`, and which have a connection to read. -/
structure World where
  server : Server.World
  ctx : ℕ → Bool
  conn : ℕ → Bool

def init : World := ⟨Server.init, fun _ => false, fun _ => false⟩

inductive Label
  | serve (l : Server.Label)
  | acceptCommonHandler (a : Allocation) (c : ℕ) (authRequired : Bool)
  | createClient (a : Allocation) (c : ℕ) (authRequired master : Bool)

/-- What the event loop does with the clients there are. -/
def serves (x : World) : Server.Label → Bool
  | .input _ (.event (.accept _ _)) => false
  | .input _ (.event (.readable c _)) => x.conn c
  | _ => true

def step (cfg : Config) (x : World) : Label → Option World
  | .serve l =>
      if serves x l then (Server.step cfg .copierSet x.server l).map fun w => { x with server := w }
      else none
  | .acceptCommonHandler a c authRequired =>
      (Server.step cfg .copierSet x.server (.input a (.event (.accept c authRequired)))).map fun w =>
        ⟨w, Function.update x.ctx c true, Function.update x.conn c true⟩
  | .createClient a c authRequired master =>
      (Server.step cfg .copierSet x.server (.input a (.event (.accept c authRequired)))).map fun w =>
        ⟨if master then Server.asMaster w c else w, Function.update x.ctx c false,
          Function.update x.conn c master⟩

/-- The parser goes on without a queue: the argument is embedded or handed over, the
trim leaves nothing. -/
def unqueued (cl : Server.Client) : Action → Bool
  | .take bulklen =>
      decide (bulklen ≤ OBJ_ENCODING_EMBSTR_SIZE_LIMIT) ||
        handsOver cl.parser cl.querybuf.len bulklen
  | .trimToPos => decide (cl.parser.qb_pos = 0) || decide (cl.querybuf.len ≤ cl.parser.qb_pos)
  | _ => true

/-- A client without a queue sends nothing that needs one. -/
def Spare (cfg : Config) (x : World) : Label → Bool
  | .serve (.internal _) => match x.server.site with
    | .running c pc =>
        x.ctx c || (x.server.clients c).all fun cl => unqueued cl (cl.action cfg x.server pc)
    | _ => true
  | _ => true

/-- Where the parser submits a copy for its client, it has the client's queue. -/
def Assigned (cfg : Config) (x : World) (l : Label) : Prop :=
  ∀ a c pc y, l = .serve (.internal a) → x.server.site = .running c pc → step cfg x l = some y →
    y.server.heap.ring ≠ x.server.heap.ring → x.ctx c = true

section Submissions
variable {cfg : Config} {a : Allocation} {w w' : Server.World} {cl : Server.Client}

theorem take_ring (short : unqueued cl (.take bulklen)) :
    (cl.take a w.heap bulklen).1.ring = w.heap.ring := by
  simp only [unqueued, Bool.or_eq_true, decide_eq_true_eq] at short
  unfold Server.Client.take
  dsimp only
  split
  · rfl
  · rename_i copied
    rw [if_pos (short.resolve_right copied)]

theorem trimToPos_ring (c : ℕ) (short : unqueued cl .trimToPos) :
    (Server.trimToPos .copierSet w c cl).heap.ring = w.heap.ring := by
  simp only [unqueued, Bool.or_eq_true, decide_eq_true_eq] at short
  unfold Server.trimToPos
  dsimp only
  split
  · rfl
  · rename_i some
    have nothing : cl.querybuf.len - cl.parser.qb_pos = 0 :=
      Nat.sub_eq_zero_of_le (short.resolve_left some)
    split <;> rfl

/-- Only a copied argument and a trim that leaves something are submitted. -/
theorem perform_ring {action : Action} (short : unqueued cl action)
    (performed : Server.perform cfg .copierSet a w c cl action = some w') :
    w'.heap.ring = w.heap.ring := by
  cases action with
  | go p pc | resetClient | csync pc | assertFailed | fail e =>
    cases performed
    rfl
  | bulkLength ll pos =>
    simp only [Server.perform] at performed
    split at performed
    · cases performed
      simp only [Server.Client.trimForBigArg, Server.World.put, sdsMakeRoomFor_ring,
        Server.sdsrange_ring]
    · cases performed
      rfl
  | take bulklen =>
    cases performed
    exact take_ring short
  | inlineArgs argv pos =>
    simp only [Server.perform] at performed
    split at performed <;> cases performed <;> rfl
  | processCommand => cases performed
  | trimToPos =>
    cases performed
    exact trimToPos_ring c short

theorem Spare.assigned {x : World} {l : Label} (spare : Spare cfg x l) : Assigned cfg x l := by
  rintro a c pc y rfl site stepped grown
  simp only [step, Option.map_eq_some_iff, Option.ite_none_right_eq_some, Server.step,
    Server.internal, site, Option.bind_eq_some_iff] at stepped
  obtain ⟨-, w, ⟨cl, here, performed⟩, rfl⟩ := stepped
  simp only [Spare, site, here, Option.all_some, Bool.or_eq_true] at spare
  exact spare.resolve_right fun short => grown (perform_ring short performed)

end Submissions
end Context

/-- A queue is used once it was assigned, in both servers: as long as a client that
was not accepted on a connection gets no reply that needs a new block, and sends no
argument and no partial command that are copied. -/
theorem contexts_assigned {gets : List Reply.Label} {sets : List Context.Label} {w : Reply.World}
    {x : Context.World} (replies : Runs.Path (Reply.step cfg .copierGet)
      (fun w l => Reply.Roomy w l) Reply.init gets w)
    (requests : Runs.Path (Context.step cfg') (fun x l => Context.Spare cfg' x l) Context.init sets x) :
    Runs.Path (Reply.step cfg .copierGet) Reply.Assigned Reply.init gets w ∧
      Runs.Path (Context.step cfg') (Context.Assigned cfg') Context.init sets x :=
  ⟨Reply.blocks_queued replies, requests.mono fun _ _ spare => Context.Spare.assigned spare⟩

open Server (reads serves thinks request)

/-- A `SET` of 45 bytes, one more than an object embeds, up to its last argument. -/
def copiedSet (n : ℕ) : List Context.Label :=
  let data := request [ascii "SET", ascii "k", List.replicate 45 65]
  (reads 0 data ++ serves data.length ++ thinks n).map .serve

def acceptedSet (n : ℕ) : List Context.Label :=
  .acceptCommonHandler .exact 0 false :: copiedSet n

theorem acceptedSet_spare :
    (Runs.run (fun x l => if Context.Spare .default x l then Context.step .default x l else none)
      Context.init (acceptedSet 13)).isSome := by
  decide +kernel

theorem bigReply_roomy :
    (Runs.run (fun w l => if Reply.Roomy w l then Reply.step .default .copierGet w l else none)
      Reply.init Reply.bigReply).isSome := by
  decide +kernel

theorem accepted_client_assigned : ∃ w x,
    Runs.Path (Reply.step .default .copierGet) Reply.Assigned Reply.init Reply.bigReply w ∧
      Runs.Path (Context.step .default) (Context.Assigned .default) Context.init
        (acceptedSet 13) x := by
  obtain ⟨w, replied⟩ := Option.isSome_iff_exists.mp bigReply_roomy
  obtain ⟨x, requested⟩ := Option.isSome_iff_exists.mp acceptedSet_spare
  exact ⟨w, x, contexts_assigned (.of_run replied) (.of_run requested)⟩

/-- The Lua client is replied a value that does not fit into its static buffer. -/
def luaReply : List Reply.Label :=
  [.createClient 0 false, .configure 0 [.CLIENT_LUA] 2, .create 16385 fun _ => 65,
    .call (.addReplyProto 0 ⟨Reply.texts.length + 1, 0, 16385⟩)] ++ List.replicate 3 (.step false)

/-- The client of the link to a master, sent the same `SET`. -/
def masterSet (n : ℕ) : List Context.Label := .createClient .exact 0 false true :: copiedSet n

/-- The next block is for a client without a queue. -/
def unbound (w : Reply.World) : Bool :=
  match w.todo with
  | .newBlock c _ :: _ => (w.clients c).any fun cl => !cl.bound
  | _ => false

theorem luaReply_unbound :
    (Runs.run (Reply.step .default .copierGet) Reply.init luaReply).map unbound = some true := by
  decide +kernel

theorem unbound_unassigned {w : Reply.World} (unassigned : unbound w) :
    ¬ Reply.Assigned w (.step false) := by
  intro assigned
  unfold unbound at unassigned
  split at unassigned
  · rename_i c s rest todo
    cases here : w.clients c with
    | none => simp [here] at unassigned
    | some cl => simp [here, assigned false c s rest cl rfl todo here] at unassigned
  · exact Bool.noConfusion unassigned

theorem luaReply_crashed :
    (Runs.run (Reply.step .default .copierGet) Reply.init (luaReply ++ [.step false])).isSome := by
  decide +kernel

theorem masterSet_argument :
    (Runs.run (Context.step .default) Context.init (masterSet 12)).map (fun x =>
      (x.server.site, x.server.heap.ring.length, x.ctx 0)) =
      some (.running 0 .argument, 0, false) := by
  decide +kernel

theorem masterSet_submitted :
    (Runs.run (Context.step .default) Context.init (masterSet 13)).map (fun x =>
      x.server.heap.ring.length) = some 1 := by
  decide +kernel

theorem masterSet_snoc : masterSet 13 = masterSet 12 ++ [.serve (.internal .exact)] := by
  simp only [masterSet, copiedSet, thinks, List.replicate_succ', List.map_append, List.map_cons,
    List.map_nil, List.append_assoc, List.cons_append]

/-- In both servers some client has no queue where one is used. -/
theorem fake_client_unassigned :
    (¬ ∀ ls w, Runs.run (Reply.step .default .copierGet) Reply.init ls = some w →
      Runs.Path (Reply.step .default .copierGet) Reply.Assigned Reply.init ls w) ∧
    ¬ ∀ ls x, Runs.run (Context.step .default) Context.init ls = some x →
      Runs.Path (Context.step .default) (Context.Assigned .default) Context.init ls x := by
  constructor
  · intro assigned
    obtain ⟨w, ran⟩ := Option.isSome_iff_exists.mp luaReply_crashed
    obtain ⟨u, reached, met, -⟩ := (assigned _ _ ran).last
    obtain ⟨u', reached', seen⟩ := Option.map_eq_some_iff.mp luaReply_unbound
    cases reached.symm.trans reached'
    exact unbound_unassigned seen met
  · intro assigned
    obtain ⟨x, ran, after⟩ := Option.map_eq_some_iff.mp masterSet_submitted
    rw [masterSet_snoc] at ran
    obtain ⟨y, reached, met, stepped⟩ := (assigned _ _ ran).last
    obtain ⟨y', reached', seen⟩ := Option.map_eq_some_iff.mp masterSet_argument
    cases reached.symm.trans reached'
    simp only [Prod.mk.injEq] at seen
    obtain ⟨site, before, unbound⟩ := seen
    have bound := met .exact 0 .argument x rfl site stepped fun same => by
      rw [same, before] at after
      exact absurd after (by decide)
    rw [unbound] at bound
    exact Bool.noConfusion bound

end Copier.Redis
