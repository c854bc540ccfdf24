import Copier.Redis.Objects
import Copier.Redis.Original

/-! The servers that leave receives and large argument copies to the service:
`redis-6.2-copier-set`, whose trim is a submitted copy too, and
`redis-6.2-copier-multi-client`, which trims at once and resets the descriptor
before it drains the queue. Receives and copies share one queue. Between any two
steps the service may perform any part of what is pending. -/
namespace Copier.Redis
open Deferred (Mem Span Task Access)

inductive Variant
  | copierSet
  | multiClient
deriving DecidableEq

namespace Server

/-- `stream` and `base` are history, as in the original server; so is `lastWait`,
the descriptor as the last wait of this client found it. -/
structure Client where
  parser : Parser
  querybuf : Sds
  argv : List Obj
  descriptor : Int
  stream : Bytes
  base : ℕ
  lastWait : Int

structure World where
  heap : Heap
  clients : ℕ → Option Client
  db : Bytes → Option Obj
  luaTimedout : Bool
  site : Site
  handed : List (ℕ × List Bytes)
  output : List (ℕ × Bytes)

def init : World where
  heap := ⟨fun _ _ => NUL, 0, [], []⟩
  clients _ := none
  db _ := none
  luaTimedout := false
  site := .idle
  handed := []
  output := []

def World.put (w : World) (h : Heap) (c : ℕ) (cl : Client) (site : Site) : World :=
  { w with heap := h, clients := Function.update w.clients c (some cl), site := site }

theorem World.put_found {w : World} {site : Site} (found : (w.put h c cl site).clients d = some dl) :
    d = c ∧ dl = cl ∨ d ≠ c ∧ w.clients d = some dl :=
  (Runs.updated_found found).imp_left (And.imp_right fun same => (Option.some.inj same).symm)

def Client.view (cl : Client) (h : Heap) : ℕ → UInt8 := h.mem cl.querybuf.blk

/-- A string scan runs at most to the end of the allocation. -/
def Client.fuel (cl : Client) : ℕ := cl.querybuf.alloc + 1 - cl.parser.qb_pos

def Client.action (cfg : Config) (w : World) (cl : Client) (pc : Pc) : Action :=
  control cfg w.luaTimedout (cl.view w.heap) cl.fuel cl.querybuf.len cl.argv.length cl.parser pc

/-- The last byte a ten-byte wait is for. -/
def Client.target (cl : Client) : ℕ := cl.parser.qb_pos + 10 - 1

def argBlocks (objs : List Obj) : List ℕ := objs.flatMap Obj.blocks

/-- One more argument: the query buffer handed over, an embedded string copied at
once, or a string whose copy is submitted. -/
def Client.take (a : Allocation) (h : Heap) (cl : Client) (bulklen : ℕ) : Heap × Client :=
  let p := { cl.parser with bulklen := none, multibulklen := cl.parser.multibulklen - 1 }
  let p' := { p with qb_pos := cl.parser.qb_pos + bulklen + 2 }
  let s := cl.querybuf
  if handsOver cl.parser s.len bulklen then
    let (h', fresh) := sdsnewlenCleared a (h.store ⟨s.blk, bulklen, 1⟩ terminator) (bulklen + 2)
    (h', { cl with
      parser := p
      argv := cl.argv ++ [.sds { s with len := bulklen }]
      querybuf := fresh
      base := cl.base + s.len })
  else if bulklen ≤ OBJ_ENCODING_EMBSTR_SIZE_LIMIT then
    let arg := slice (cl.view h) cl.parser.qb_pos (cl.parser.qb_pos + bulklen)
    (h, { cl with parser := p', argv := cl.argv ++ [.value arg] })
  else
    let (h', o) := sdsnewlenCopyer a h s.blk cl.parser.qb_pos bulklen
    (h', { cl with parser := p', argv := cl.argv ++ [.sds o] })

/-- Before a big argument: trim at once, then make room for the argument. -/
def Client.trimForBigArg (a : Allocation) (h : Heap) (cl : Client) (ll pos : ℕ) : Heap × Client :=
  let (h₁, s₁) := sdsrange h cl.querybuf pos
  let (h₂, s₂) := sdsMakeRoomFor a h₁ s₁ (ll + 2 - s₁.len)
  (h₂, { cl with
    parser := { cl.parser with qb_pos := 0 }
    querybuf := s₂
    base := cl.base + min pos cl.querybuf.len })

/-- The trim at the end of `processInputBuffer`. Set: the move is submitted, and
the terminator stored in a step of its own, after which `csync_all`, whose loop
is commented out, returns at once. -/
def trimToPos (v : Variant) (w : World) (c : ℕ) (cl : Client) : World :=
  let s := cl.querybuf
  let pos := cl.parser.qb_pos
  let p := { cl.parser with qb_pos := 0 }
  let base := cl.base + min pos s.len
  if pos = 0 then { w with site := .idle }
  else match v with
    | .copierSet =>
        if s.len = 0 then { w with site := .idle }
        else
          let len := s.len - pos
          let h := if len = 0 then w.heap
            else w.heap.submit (.copy s.blk 0 s.blk pos (intLength len))
          w.put h c { cl with parser := p, querybuf := { s with len := len }, base := base }
            (.terminate c)
    | .multiClient =>
        let (h, s') := sdsrange w.heap s pos
        w.put h c { cl with parser := p, querybuf := s', base := base } .idle

def perform (cfg : Config) (v : Variant) (a : Allocation) (w : World) (c : ℕ) (cl : Client) :
    Action → Option World
  | .go p pc => some (w.put w.heap c { cl with parser := p } (.running c pc))
  | .csync pc => some { w with site := .wait c pc }
  | .fail e =>
      some { w.put w.heap c { cl with parser := { cl.parser with closing := true } }
          (.running c .trim) with
        output := w.output ++ [(c, e.reply)] }
  | .bulkLength ll pos =>
      let cl := { cl with parser := { cl.parser with qb_pos := pos, bulklen := some ll } }
      if trimsForBigArg ll cl.querybuf.len pos then
        let (h, cl) := cl.trimForBigArg a w.heap ll pos
        some (w.put h c cl (.running c .argument))
      else some (w.put w.heap c cl (.running c .argument))
  | .take bulklen =>
      let (h, cl) := cl.take a w.heap bulklen
      some (w.put h c cl (.running c .bulks))
  | .inlineArgs argv pos =>
      let p := { cl.parser with qb_pos := pos }
      if gopherRequest cfg argv then
        some (w.put w.heap c { cl with parser := { p.reset with closing := true }, argv := [] }
          (.running c .trim))
      else some (w.put w.heap c { cl with parser := p, argv := argv.map .value } (.running c .execute))
  | .resetClient =>
      some (w.put w.heap c { cl with parser := cl.parser.reset, argv := [] } (.running c .top))
  | .processCommand => none
  | .trimToPos => some (trimToPos v w c cl)
  | .assertFailed => some { w with site := .aborted }

/-- The receive syscall, once the queue is drained: it returns the byte count at
once and leaves the bytes to the service. -/
def receive (cfg : Config) (v : Variant) (w : World) (c : ℕ) (cl : Client) (data : Bytes) : World :=
  let s := cl.querybuf
  let cl := match v with
    | .copierSet => { cl with descriptor := (s.len : Int) - 1 }
    | .multiClient => cl
  if data = [] then w.put w.heap c cl .idle
  else
    let len := s.len + data.length
    let h := (w.heap.submit (.recv c s.blk s.len data)).store ⟨s.blk, len, 1⟩ terminator
    let cl := { cl with querybuf := { s with len := len }, stream := cl.stream ++ data }
    if len > cfg.client_max_querybuf_len then
      w.put h c { cl with parser := { cl.parser with closing := true } } .idle
    else w.put h c cl (.enter c)

def internal (cfg : Config) (v : Variant) (a : Allocation) (w : World) : Option World :=
  match w.site with
  | .receive c data => (w.clients c).bind fun cl =>
      if w.heap.ring.isEmpty then some (receive cfg v w c cl data) else none
  | .enter c => some { w with site := .running c .top }
  | .running c pc => (w.clients c).bind fun cl => perform cfg v a w c cl (cl.action cfg w pc)
  | .wait c pc => (w.clients c).bind fun cl =>
      if cl.descriptor < cl.target then none
      else some (w.put w.heap c { cl with lastWait := cl.descriptor } (.running c pc))
  | .terminate c => (w.clients c).map fun cl =>
      { w with
        heap := w.heap.store ⟨cl.querybuf.blk, cl.querybuf.len, 1⟩ terminator
        site := .idle }
  | _ => none

def commandOf (w : World) (cl : Client) : Command :=
  lookupCommand (((cl.argv.head?).map (Obj.bytes w.heap.mem)).getD [])

def scriptOf (w : World) (cl : Client) (o : Outcome) : Script :=
  processCommand o cl.parser.resp3 (commandOf w cl) cl.argv.length

/-- What a client's command works on. -/
def World.memory (w : World) (cl : Client) : Memory := ⟨w.heap, cl.argv, w.db⟩

/-- `processCommandAndResetClient`; the keyspace keeps the arguments that were moved there. -/
def execute (a : Allocation) (w : World) (c : ℕ) (cl : Client) (pc : Pc) (o : Outcome) : World :=
  let cmd := commandOf w cl
  let ran := (scriptOf w cl o).exec a (w.memory cl)
  let gone := if o.dead || o.resets cmd then argBlocks ran.1.strings.argv else []
  let buffer := if o.dead then [cl.querybuf.blk] else []
  let after := { cl with
    parser := o.after cmd cl.parser
    argv := if o.resets cmd then [] else ran.1.strings.argv }
  { heap := ran.1.heap.release (gone ++ buffer)
    clients := Function.update w.clients c (if o.dead then none else some after)
    db := ran.1.strings.db
    luaTimedout := o.luaTimedout
    site :=
      if o.dead then .idle
      else if pc = .pending then if cl.querybuf.len = 0 then .idle else .enter c
      else .running c .top
    handed := w.handed ++ [(c, cl.argv.map (Obj.bytes w.heap.mem))]
    output := w.output ++ [(c, ran.2)] }

def command (cfg : Config) (a : Allocation) (w : World) (o : Outcome) : Option World :=
  match w.site with
  | .running c pc => (w.clients c).bind fun cl =>
      match cl.action cfg w pc with
      | .processCommand => some (execute a w c cl pc o)
      | _ => none
  | _ => none

def Client.unblock (cl : Client) : Client :=
  let p := if cl.parser.pendingCommand then cl.parser else cl.parser.reset
  { cl with
    parser := { p with blocked := false, unblocked := true }
    argv := if cl.parser.pendingCommand then cl.argv else [] }

def Client.unblockFrees (cl : Client) : List ℕ :=
  if cl.parser.pendingCommand then [] else argBlocks cl.argv

def reprocess (w : World) (c : ℕ) (cl : Client) : World :=
  let p := { cl.parser with unblocked := false }
  if p.blocked then w.put w.heap c { cl with parser := p } .idle
  else if p.pendingCommand then
    w.put w.heap c { cl with parser := { p with pendingCommand := false } } (.running c .pending)
  else w.put w.heap c { cl with parser := p } (if cl.querybuf.len = 0 then .idle else .enter c)

/-- Whether `clientsCronResizeQueryBuffer` may shrink the buffer. -/
def resizes (s : Sds) : Bool :=
  decide (sdsHdrSize s.type + s.alloc + 1 > PROTO_MBULK_BIG_ARG) &&
    decide (s.alloc - s.len > 1024 * 4)

def event (v : Variant) (a : Allocation) (w : World) : Event → Option World
  | .accept c authRequired =>
      if (w.clients c).isNone then
        let (h, s) := sdsnewlenCleared a w.heap 0
        some (w.put h c ⟨.created authRequired, s, [], a.stale, [], 0, -1⟩ .idle)
      else none
  | .readable c data => (w.clients c).bind fun cl =>
      let readlen := cl.parser.readlen cl.querybuf.len
      if data.length ≤ readlen then
        let (h, s) := sdsMakeRoomFor a w.heap cl.querybuf readlen
        let cl := match v with
          | .copierSet => cl
          | .multiClient => { cl with descriptor := (s.len : Int) - 1 }
        some (w.put h c { cl with querybuf := s } (.receive c data))
      else none
  | .unblock c => (w.clients c).bind fun cl =>
      if cl.parser.blocked then some (w.put (w.heap.release cl.unblockFrees) c cl.unblock .idle)
      else none
  | .reprocess c => (w.clients c).bind fun cl =>
      if cl.parser.unblocked then some (reprocess w c cl) else none
  | .disconnect c => (w.clients c).map fun cl =>
      { w with
        heap := w.heap.release (cl.querybuf.blk :: argBlocks cl.argv)
        clients := Function.update w.clients c none }
  | .cron c => (w.clients c).map fun cl =>
      if resizes cl.querybuf then
        let (h, s) := sdsRemoveFreeSpace a w.heap cl.querybuf true
        w.put h c { cl with querybuf := s } .idle
      else w
  | .expire key =>
      some { w with
        heap := w.heap.release (argBlocks (w.db key).toList)
        db := Function.update w.db key none }

/-- `replicationCreateMasterClient` sets the flag. -/
def asMaster (w : World) (c : ℕ) : World :=
  { w with clients := Function.update w.clients c ((w.clients c).map fun cl =>
      { cl with parser := { cl.parser with master := true } }) }

/-- The service stores the index of each byte it delivers in the descriptor. -/
def raised (clients : ℕ → Option Client) : Option (ℕ × ℕ) → ℕ → Option Client
  | none => clients
  | some (c, i) =>
      Function.update clients c ((clients c).map fun cl => { cl with descriptor := i })

def service (w : World) : Option World :=
  (w.heap.serve).map fun (h, report) => { w with heap := h, clients := raised w.clients report }

inductive Label
  | service
  | internal (a : Allocation)
  | input (a : Allocation) (i : Input)

def Label.seen : Label → Option Input
  | service => none
  | internal _ => none
  | input _ i => some i

def step (cfg : Config) (v : Variant) (w : World) : Label → Option World
  | .service => service w
  | .internal a => internal cfg v a w
  | .input a (.command o) => command cfg a w o
  | .input a (.event e) => if w.site = .idle then event v a w e else none

/-- The client whose buffer was made room in. -/
def Client.grown (v : Variant) (cl : Client) (s : Sds) : Client :=
  match v with
  | .copierSet => { cl with querybuf := s }
  | .multiClient => { cl with descriptor := (s.len : Int) - 1, querybuf := s }

/-- What an event comes to. -/
inductive Occurs (v : Variant) (a : Allocation) (w : World) : Event → World → Prop where
  | accept (c authRequired) : w.clients c = none → Occurs v a w (.accept c authRequired)
      (w.put (sdsnewlenCleared a w.heap 0).1 c
        ⟨.created authRequired, (sdsnewlenCleared a w.heap 0).2, [], a.stale, [], 0, -1⟩ .idle)
  | readable (c cl data) : w.clients c = some cl → data.length ≤ cl.parser.readlen cl.querybuf.len →
      Occurs v a w (.readable c data)
        (w.put (sdsMakeRoomFor a w.heap cl.querybuf (cl.parser.readlen cl.querybuf.len)).1 c
          (cl.grown v (sdsMakeRoomFor a w.heap cl.querybuf (cl.parser.readlen cl.querybuf.len)).2)
          (.receive c data))
  | unblock (c cl) : w.clients c = some cl → cl.parser.blocked = true →
      Occurs v a w (.unblock c) (w.put (w.heap.release cl.unblockFrees) c cl.unblock .idle)
  | reprocess (c cl) : w.clients c = some cl → cl.parser.unblocked = true →
      Occurs v a w (.reprocess c) (reprocess w c cl)
  | disconnect (c cl) : w.clients c = some cl → Occurs v a w (.disconnect c)
      { w with
        heap := w.heap.release (cl.querybuf.blk :: argBlocks cl.argv)
        clients := Function.update w.clients c none }
  | resize (c cl) : w.clients c = some cl → resizes cl.querybuf = true →
      Occurs v a w (.cron c) (w.put (sdsRemoveFreeSpace a w.heap cl.querybuf true).1 c
        { cl with querybuf := (sdsRemoveFreeSpace a w.heap cl.querybuf true).2 } .idle)
  | keep (c cl) : w.clients c = some cl → resizes cl.querybuf = false → Occurs v a w (.cron c) w
  | expire (key) : Occurs v a w (.expire key)
      { w with
        heap := w.heap.release (argBlocks (w.db key).toList)
        db := Function.update w.db key none }

/-- What a step comes to. -/
inductive Stepped (cfg : Config) (v : Variant) (w : World) : Label → World → Prop where
  | service : service w = some w' → Stepped cfg v w .service w'
  | receive (c data cl) : w.site = .receive c data → w.clients c = some cl → w.heap.ring = [] →
      Stepped cfg v w (.internal a) (receive cfg v w c cl data)
  | enter (c) : w.site = .enter c → Stepped cfg v w (.internal a) { w with site := .running c .top }
  | running (c pc cl) : w.site = .running c pc → w.clients c = some cl →
      perform cfg v a w c cl (cl.action cfg w pc) = some w' → Stepped cfg v w (.internal a) w'
  | wait (c pc cl) : w.site = .wait c pc → w.clients c = some cl → ¬ cl.descriptor < cl.target →
      Stepped cfg v w (.internal a)
        (w.put w.heap c { cl with lastWait := cl.descriptor } (.running c pc))
  | terminate (c cl) : w.site = .terminate c → w.clients c = some cl → Stepped cfg v w (.internal a)
      { w with
        heap := w.heap.store ⟨cl.querybuf.blk, cl.querybuf.len, 1⟩ terminator
        site := .idle }
  | command (c pc cl o) : w.site = .running c pc → w.clients c = some cl →
      cl.action cfg w pc = .processCommand →
      Stepped cfg v w (.input a (.command o)) (execute a w c cl pc o)
  | event : w.site = .idle → event v a w e = some w' → Stepped cfg v w (.input a (.event e)) w'

section Steps
variable {cfg : Config} {v : Variant} {a : Allocation} {w w' : World} {c : ℕ}

theorem event_occurs {e : Event} (stepped : event v a w e = some w') : Occurs v a w e w' := by
  cases e with
  | accept c authRequired =>
    simp only [event, Option.ite_none_right_eq_some, Option.isNone_iff_eq_none,
      Option.some.injEq] at stepped
    obtain ⟨absent, rfl⟩ := stepped
    exact .accept c authRequired absent
  | readable c data =>
    simp only [event, Option.bind_eq_some_iff, Option.ite_none_right_eq_some,
      Option.some.injEq] at stepped
    obtain ⟨cl, here, short, rfl⟩ := stepped
    cases v <;> exact .readable c cl data here short
  | unblock c =>
    simp only [event, Option.bind_eq_some_iff, Option.ite_none_right_eq_some,
      Option.some.injEq] at stepped
    obtain ⟨cl, here, blocked, rfl⟩ := stepped
    exact .unblock c cl here blocked
  | reprocess c =>
    simp only [event, Option.bind_eq_some_iff, Option.ite_none_right_eq_some,
      Option.some.injEq] at stepped
    obtain ⟨cl, here, unblocked, rfl⟩ := stepped
    exact .reprocess c cl here unblocked
  | disconnect c =>
    simp only [event, Option.map_eq_some_iff] at stepped
    obtain ⟨cl, here, rfl⟩ := stepped
    exact .disconnect c cl here
  | cron c =>
    simp only [event, Option.map_eq_some_iff] at stepped
    obtain ⟨cl, here, rfl⟩ := stepped
    split
    · exact .resize c cl here ‹_›
    · exact .keep c cl here (Bool.eq_false_iff.mpr ‹_›)
  | expire key =>
    cases stepped
    exact .expire key

theorem internal_stepped (stepped : internal cfg v a w = some w') :
    Stepped cfg v w (.internal a) w' := by
  unfold internal at stepped
  split at stepped <;> rename_i site
  · simp only [Option.bind_eq_some_iff, Option.ite_none_right_eq_some, List.isEmpty_iff,
      Option.some.injEq] at stepped
    obtain ⟨cl, here, drained, rfl⟩ := stepped
    exact .receive _ _ cl site here drained
  · cases stepped
    exact .enter _ site
  · simp only [Option.bind_eq_some_iff] at stepped
    obtain ⟨cl, here, performed⟩ := stepped
    exact .running _ _ cl site here performed
  · simp only [Option.bind_eq_some_iff, Option.ite_none_left_eq_some, Option.some.injEq] at stepped
    obtain ⟨cl, here, reached, rfl⟩ := stepped
    exact .wait _ _ cl site here reached
  · simp only [Option.map_eq_some_iff] at stepped
    obtain ⟨cl, here, rfl⟩ := stepped
    exact .terminate _ cl site here
  · cases stepped

theorem step_stepped {l : Label} (stepped : step cfg v w l = some w') : Stepped cfg v w l w' := by
  cases l with
  | service => exact .service stepped
  | internal a => exact internal_stepped stepped
  | input a i =>
    cases i with
    | event e =>
      simp only [step, Option.ite_none_right_eq_some] at stepped
      exact .event stepped.1 stepped.2
    | command o =>
      simp only [step, command] at stepped
      split at stepped <;> rename_i site
      · simp only [Option.bind_eq_some_iff] at stepped
        obtain ⟨cl, here, executed⟩ := stepped
        split at executed
        · rename_i executes
          cases executed
          exact .command _ _ cl o site here executes
        · cases executed
      · cases stepped

theorem raised_delivered {clients : ℕ → Option Client} {cl' : Client}
    (found : raised clients (some (tag, off)) c = some cl') : ∃ cl, clients c = some cl ∧
      cl' = { cl with descriptor := if c = tag then (off : Int) else cl.descriptor } := by
  by_cases same : c = tag
  · subst same
    simp only [raised, Function.update_self, Option.map_eq_some_iff] at found
    obtain ⟨cl, there, rfl⟩ := found
    exact ⟨cl, there, by rw [if_pos rfl]⟩
  · simp only [raised, Function.update_of_ne same] at found
    exact ⟨cl', found, by rw [if_neg same]⟩

theorem raised_found {clients : ℕ → Option Client} {cl' : Client}
    (found : raised clients report c = some cl') :
    ∃ cl d, clients c = some cl ∧ cl' = { cl with descriptor := d } := by
  cases report with
  | none => exact ⟨cl', cl'.descriptor, found, rfl⟩
  | some delivered =>
    obtain ⟨cl, there, same⟩ := raised_delivered found
    exact ⟨cl, _, there, same⟩

/-- The service changes nothing of a client but its descriptor. -/
theorem service_found {cl' : Client} (stepped : service w = some w')
    (found : w'.clients c = some cl') :
    ∃ cl d, w.clients c = some cl ∧ cl' = { cl with descriptor := d } := by
  simp only [service, Option.map_eq_some_iff, Prod.exists] at stepped
  obtain ⟨h, report, -, rfl⟩ := stepped
  exact raised_found found

theorem execute_site (a : Allocation) (w : World) (c : ℕ) (cl : Client) (pc : Pc) (o : Outcome) :
    (execute a w c cl pc o).site = .idle ∨ (execute a w c cl pc o).site = .enter c ∨
      (execute a w c cl pc o).site = .running c .top := by
  simp only [execute]
  split
  · exact .inl rfl
  · split
    · split
      · exact .inl rfl
      · exact .inr (.inl rfl)
    · exact .inr (.inr rfl)

end Steps
end Server
end Copier.Redis
