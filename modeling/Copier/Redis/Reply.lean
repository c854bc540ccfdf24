import Copier.Foundation.Deferred
import Copier.Redis.Text

/-! Output buffers of `redis-6.2-original` and `redis-6.2-copier-get`. The two differ
in how a new reply block is filled: the original copies the reply into it at once,
the other submits the copy, which the service performs at any later time; a send
takes bytes only from a drained queue. A reply function runs as a list of steps
still to do, so that the service may act between any two of them. -/
namespace Copier.Redis.Reply
open Deferred (Span Task Access)

/-- Only copies are submitted, no receives. -/
abbrev Heap := Deferred.Heap UInt8 Empty

inductive Variant
  | original
  | copierGet
deriving DecidableEq

def PROTO_REPLY_CHUNK_BYTES : ℕ := 16 * 1024
def NET_MAX_WRITES_PER_EVENT : ℕ := 1024 * 1024 * 16
def OBJ_SHARED_BULKHDR_LEN : ℕ := 32
def OBJ_SHARED_HDR_STRLEN (len : ℕ) : ℕ := if len < 10 then 4 else 5

inductive Flag
  | CLIENT_LUA
  | CLIENT_MODULE
  | CLIENT_CLOSE_ASAP
  | CLIENT_CLOSE_AFTER_REPLY
  | CLIENT_REPLY_OFF
  | CLIENT_REPLY_SKIP
  | CLIENT_PUSHING
  | CLIENT_MASTER
  | CLIENT_MASTER_FORCE_REPLY
  | CLIENT_SLAVE
  | CLIENT_MONITOR
  | CLIENT_PUBSUB
deriving DecidableEq

inductive ClientType
  | normal
  | slave
  | pubsub
  | master
deriving DecidableEq

/-- `blk` is the memory behind the header. -/
structure ReplyBlock where
  blk : ℕ
  size : ℕ
  used : ℕ
deriving DecidableEq

/-- A node of a reply list: a block, or the NULL placeholder of a length that is not
known yet, called after the block of the list node. -/
inductive ReplyNode
  | block (o : ReplyBlock)
  | deferred (node : ℕ)
deriving DecidableEq

def ReplyNode.block? : ReplyNode → Option ReplyBlock
  | block o => some o
  | deferred _ => none

/-- The blocks of a reply list, without placeholders. -/
def blocksOf (reply : List ReplyNode) : List ReplyBlock := reply.filterMap ReplyNode.block?

def lastBlock (reply : List ReplyNode) : Option ReplyBlock := reply.getLast?.bind ReplyNode.block?

def firstBlock (reply : List ReplyNode) : Option ReplyBlock := reply.head?.bind ReplyNode.block?

/-- The lists before and after a placeholder. -/
def around (node : ℕ) : List ReplyNode → Option (List ReplyNode × List ReplyNode)
  | [] => none
  | n :: ns =>
      if n = .deferred node then some ([], ns)
      else (around node ns).map fun (before, after) => (n :: before, after)

/-- `bound`: `acceptCommonHandler` has set `descriptor.ctx`, which nothing else does. -/
structure Client where
  conn : Bool
  bound : Bool
  resp : ℕ
  flags : List Flag
  buf : ℕ
  bufpos : ℕ
  sentlen : ℕ
  reply : List ReplyNode
  reply_bytes : ℕ
  obuf_soft_limit_reached_time : ℕ

structure Limit where
  hard_limit_bytes : ℕ
  soft_limit_bytes : ℕ
  soft_limit_seconds : ℕ

/-- `usable n` is what `zmalloc_usable_size` grants a request for `n` bytes behind a
reply block's header. -/
structure Config where
  usable : ℕ → ℕ
  fits : ∀ n, n ≤ usable n
  client_obuf_limits : ClientType → Limit
  maxmemory : ℕ

def clientBufferLimitsDefaults : ClientType → Limit
  | .slave => ⟨1024 * 1024 * 256, 1024 * 1024 * 64, 60⟩
  | .pubsub => ⟨1024 * 1024 * 32, 1024 * 1024 * 8, 60⟩
  | _ => ⟨0, 0, 0⟩

def Config.default : Config := ⟨id, fun _ => Nat.le_refl _, clientBufferLimitsDefaults, 0⟩

section Client
variable (cl : Client)

def Client.has (f : Flag) : Prop := f ∈ cl.flags

instance (f : Flag) : Decidable (cl.has f) := inferInstanceAs (Decidable (_ ∈ _))

def getClientType : ClientType :=
  if cl.has .CLIENT_MASTER then .master
  else if cl.has .CLIENT_SLAVE ∧ ¬ cl.has .CLIENT_MONITOR then .slave
  else if cl.has .CLIENT_PUBSUB then .pubsub
  else .normal

/-- Whether replies may be queued; when they are written is up to the event loop. -/
def prepareClientToWrite : Bool :=
  if cl.has .CLIENT_LUA ∨ cl.has .CLIENT_MODULE then true
  else if cl.has .CLIENT_CLOSE_ASAP then false
  else if (cl.has .CLIENT_REPLY_OFF ∨ cl.has .CLIENT_REPLY_SKIP) ∧ ¬ cl.has .CLIENT_PUSHING then false
  else if cl.has .CLIENT_MASTER ∧ ¬ cl.has .CLIENT_MASTER_FORCE_REPLY then false
  else cl.conn

def clientHasPendingReplies : Bool := 0 < cl.bufpos || cl.reply ≠ []

def freeClientAsync : Client :=
  if cl.has .CLIENT_CLOSE_ASAP ∨ cl.has .CLIENT_LUA then cl
  else { cl with flags := .CLIENT_CLOSE_ASAP :: cl.flags }

def getClientOutputBufferMemoryUsage : ℕ :=
  let list_item_size := 24 + 16
  cl.reply_bytes + list_item_size * cl.reply.length

def checkClientOutputBufferLimits (cfg : Config) (now : ℕ) : Bool × Client :=
  let used_mem := getClientOutputBufferMemoryUsage cl
  let limit := cfg.client_obuf_limits (match getClientType cl with
    | .master => .normal
    | type => type)
  let hard : Bool := limit.hard_limit_bytes ≠ 0 && used_mem ≥ limit.hard_limit_bytes
  if limit.soft_limit_bytes ≠ 0 ∧ used_mem ≥ limit.soft_limit_bytes then
    if cl.obuf_soft_limit_reached_time = 0 then
      (hard, { cl with obuf_soft_limit_reached_time := now })
    else
      let elapsed := now - cl.obuf_soft_limit_reached_time
      (hard || limit.soft_limit_seconds < elapsed, cl)
  else (hard, { cl with obuf_soft_limit_reached_time := 0 })

/-- With `async` set, as the reply functions call it. -/
def closeClientOnOutputBufferLimitReached (cfg : Config) (now : ℕ) : Client :=
  if ¬ cl.conn then cl
  else if cl.reply_bytes = 0 ∨ cl.has .CLIENT_CLOSE_ASAP then cl
  else match checkClientOutputBufferLimits cl cfg now with
    | (true, checked) => freeClientAsync checked
    | (false, checked) => checked

end Client

/-! Texts that are never written or freed: shared objects and string literals. -/

def crlf : Bytes := [CR, LF]

def decimal (n : ℕ) : Bytes := (Nat.toDigits 10 n).map fun c => UInt8.ofNat c.toNat

def ll2string (n : Int) : Bytes :=
  if n < 0 then MINUS :: decimal n.natAbs else decimal n.natAbs

def PERCENT : UInt8 := 37
def TILDE : UInt8 := 126

/-- Prefixes of aggregate lengths that have shared headers. -/
def sharedPrefixes : Bytes := [STAR, DOLLAR, PERCENT, TILDE]

def texts : List Bytes :=
  [crlf, ascii "$-1\r\n", ascii "_\r\n"] ++ sharedPrefixes.flatMap fun pre =>
    (List.range OBJ_SHARED_BULKHDR_LEN).map fun j => pre :: decimal j ++ crlf

def sharedCrlf : Span := ⟨0, 0, 2⟩
def nullBulk : Span := ⟨1, 0, 5⟩
def nullResp3 : Span := ⟨2, 0, 3⟩

def sharedHeader (pre : UInt8) (ll : ℕ) : Span :=
  ⟨3 + OBJ_SHARED_BULKHDR_LEN * sharedPrefixes.idxOf pre + ll, 0, OBJ_SHARED_HDR_STRLEN ll⟩

inductive Obj
  | sds (s : Span)
  | int (n : Int)

def stringObjectLen : Obj → ℕ
  | .sds s => s.len
  | .int n => (ll2string n).length

/-- Steps of the reply functions and of `writeToClient`. `leave` ends the stack frame
of a function that wrote its reply into a buffer of its own. -/
inductive Stmt
  | addReply (c : ℕ) (obj : Obj)
  | addReplyProto (c : ℕ) (s : Span)
  | addReplyToBuffer (c : ℕ) (s : Span)
  | addReplyProtoToList (c : ℕ) (s : Span)
  | newBlock (c : ℕ) (s : Span)
  | addReplyLongLongWithPrefix (c : ℕ) (ll : Int) (pre : UInt8)
  | addReplyBulkLongLong (c : ℕ) (ll : Int)
  | addReplyNull (c : ℕ)
  | sdsfree (b : ℕ)
  | leave (b : ℕ)
  | AddReplyFromClient (dst src : ℕ)
  | joinReply (dst src : ℕ)
  | trimReplyUnusedTailSpace (c : ℕ)
  | addReplyDeferredLen (c : ℕ)
  | setDeferredAggregateLen (c : ℕ) (node : ℕ) (length : ℕ) (pre : UInt8)
  | setDeferredReply (c : ℕ) (node : ℕ) (s : Span)
  | glueDeferred (c : ℕ) (node : ℕ) (s : Span)
  | fillDeferred (c : ℕ) (node : ℕ) (s : Span)
  | copyClientOutputBuffer (dst src : ℕ)
  | dupClientReplyValue (dst : ℕ) (o : ReplyNode)
  | copyBuffer (dst src : ℕ)
  | write (c totwritten : ℕ)
  | written (c : ℕ) (failed : Bool)

/-- `values` holds the blocks of values, strings and stack buffers in use outside the
output buffers; `sent` what each client was sent. -/
structure World where
  heap : Heap
  clients : ℕ → Option Client
  values : List ℕ
  todo : List Stmt
  sent : ℕ → Bytes
  unixtime : ℕ
  stopped : Bool

def init : World where
  heap := ⟨fun b i => (texts.getD b []).getD i NUL, texts.length, List.range texts.length, []⟩
  clients _ := none
  values := []
  todo := []
  sent _ := []
  unixtime := 0
  stopped := false

def World.put (w : World) (h : Heap) (c : ℕ) (cl : Client) (todo : List Stmt) : World :=
  { w with heap := h, clients := Function.update w.clients c (some cl), todo := todo }

/-- A stack buffer of its own for the running function. -/
def World.spell (w : World) (text : Bytes) (todo : List Stmt) : World :=
  { w with
    heap := w.heap.claim.store ⟨w.heap.next, 0, text.length⟩ fun k => text.getD k NUL
    values := w.heap.next :: w.values
    todo := todo }

/-- The buffer `World.spell` fills. -/
def World.spelled (w : World) (text : Bytes) : Span := ⟨w.heap.next, 0, text.length⟩

def World.forget (w : World) (b : ℕ) (todo : List Stmt) : World :=
  { w with heap := w.heap.release [b], values := w.values.filter (· ≠ b), todo := todo }

/-- The reply goes into the static buffer. -/
def Client.buffers (cl : Client) (s : Span) : Bool :=
  !decide (cl.has .CLIENT_CLOSE_AFTER_REPLY) && cl.reply.isEmpty &&
    s.len ≤ PROTO_REPLY_CHUNK_BYTES - cl.bufpos

/-- `_addReplyToBuffer`, and `_addReplyProtoToList` when it does not take the reply. -/
def addReplyToBuffer (w : World) (c : ℕ) (cl : Client) (s : Span) (rest : List Stmt) : World :=
  if cl.has .CLIENT_CLOSE_AFTER_REPLY then { w with todo := rest }
  else if cl.buffers s then
    w.put (w.heap.memcpy ⟨cl.buf, cl.bufpos, s.len⟩ s) c { cl with bufpos := cl.bufpos + s.len } rest
  else { w with todo := .addReplyProtoToList c s :: rest }

/-- The part of a reply that is left for a new block. -/
def newBlocks (c : ℕ) (s : Span) : List Stmt := if s.len = 0 then [] else [.newBlock c s]

/-- `_addReplyProtoToList`, up to the copy into the tail. -/
def addReplyProtoToList (w : World) (c : ℕ) (cl : Client) (s : Span) (rest : List Stmt) : World :=
  if cl.has .CLIENT_CLOSE_AFTER_REPLY then { w with todo := rest }
  else match lastBlock cl.reply with
    | none => { w with todo := newBlocks c s ++ rest }
    | some tail =>
        let copy := min (tail.size - tail.used) s.len
        w.put (w.heap.memcpy ⟨tail.blk, tail.used, copy⟩ ⟨s.blk, s.off, copy⟩) c
          { cl with reply := cl.reply.dropLast ++ [.block { tail with used := tail.used + copy }] }
          (newBlocks c ⟨s.blk, s.off + copy, s.len - copy⟩ ++ rest)

/-- The new block of `_addReplyProtoToList`. An unbound client's queue is whatever
its uninitialised `descriptor.ctx` points to. -/
def newBlock (cfg : Config) (v : Variant) (w : World) (c : ℕ) (cl : Client) (s : Span)
    (rest : List Stmt) : World :=
  let size := cfg.usable (if s.len < PROTO_REPLY_CHUNK_BYTES then PROTO_REPLY_CHUNK_BYTES else s.len)
  let tail : ReplyBlock := ⟨w.heap.next, size, s.len⟩
  let cl' := closeClientOnOutputBufferLimitReached
    { cl with reply := cl.reply ++ [.block tail], reply_bytes := cl.reply_bytes + size } cfg w.unixtime
  match v with
  | .original => w.put (w.heap.claim.memcpy ⟨tail.blk, 0, s.len⟩ s) c cl' rest
  | .copierGet =>
      if cl.bound then
        w.put (w.heap.claim.submit (.copy tail.blk 0 s.blk s.off s.len)) c cl' rest
      else { w with stopped := true }

def addReplyBulkCBuffer (c : ℕ) (s : Span) : List Stmt :=
  [.addReplyLongLongWithPrefix c s.len DOLLAR, .addReplyProto c s, .addReply c (.sds sharedCrlf)]

def addReplyLongLongWithPrefix (w : World) (c : ℕ) (ll : Int) (pre : UInt8) (rest : List Stmt) :
    World :=
  if ll < OBJ_SHARED_BULKHDR_LEN ∧ 0 ≤ ll ∧ pre ∈ sharedPrefixes then
    { w with todo := .addReplyProto c (sharedHeader pre ll.toNat) :: rest }
  else
    let text := pre :: ll2string ll ++ crlf
    w.spell text (.addReplyProto c (w.spelled text) :: .leave w.heap.next :: rest)

/-- The rest of `AddReplyFromClient`, once the static buffer was added. -/
def joinReply (cfg : Config) (w : World) (dst src : ℕ) (d s : Client) (rest : List Stmt) : World :=
  if ¬ prepareClientToWrite d then { w with todo := rest }
  else if d.has .CLIENT_CLOSE_AFTER_REPLY then { w with todo := rest }
  else
    let joined := closeClientOnOutputBufferLimitReached
      { d with reply := d.reply ++ s.reply, reply_bytes := d.reply_bytes + s.reply_bytes }
      cfg w.unixtime
    let emptied := { s with reply := [], reply_bytes := 0, bufpos := 0 }
    { w with
      clients := Function.update (Function.update w.clients dst (some joined)) src (some emptied)
      todo := rest }

/-- The tail has much unused space and little else. -/
def ReplyBlock.wasteful (o : ReplyBlock) : Bool :=
  o.size / 4 < o.size - o.used && o.used < PROTO_REPLY_CHUNK_BYTES

/-- `moved`: whether `zrealloc` hands out another block. -/
def trimReplyUnusedTailSpace (cfg : Config) (moved : Bool) (w : World) (c : ℕ) (cl : Client)
    (rest : List Stmt) : World :=
  match lastBlock cl.reply with
  | none => { w with todo := rest }
  | some tail =>
      if tail.wasteful then
        let size := cfg.usable tail.used
        let blk := if moved then w.heap.next else tail.blk
        let h :=
          if moved then
            (w.heap.claim.memcpy ⟨blk, 0, tail.used⟩ ⟨tail.blk, 0, tail.used⟩).release [tail.blk]
          else w.heap
        w.put h c { cl with
          reply := cl.reply.dropLast ++ [.block ⟨blk, size, tail.used⟩]
          reply_bytes := cl.reply_bytes + size - tail.size } rest
      else { w with todo := rest }

/-- `addReplyDeferredLen`, once the tail was trimmed. -/
def addReplyDeferredLen (w : World) (c : ℕ) (cl : Client) (rest : List Stmt) : World :=
  w.put w.heap.claim c { cl with reply := cl.reply ++ [.deferred w.heap.next] } rest

def setDeferredAggregateLen (w : World) (c node length : ℕ) (pre : UInt8) (rest : List Stmt) : World :=
  if length < OBJ_SHARED_BULKHDR_LEN ∧ pre ∈ [STAR, PERCENT, TILDE] then
    { w with todo := .setDeferredReply c node (sharedHeader pre length) :: rest }
  else
    let text := pre :: decimal length ++ crlf
    w.spell text (.setDeferredReply c node (w.spelled text) :: .leave w.heap.next :: rest)

/-- `setDeferredReply`, up to the copy into the previous block. -/
def setDeferredReply (w : World) (c : ℕ) (cl : Client) (node : ℕ) (s : Span) (rest : List Stmt) :
    Option World :=
  (around node cl.reply).map fun (before, after) => match lastBlock before with
    | none => { w with todo := .glueDeferred c node s :: rest }
    | some prev =>
        if 0 < prev.size - prev.used then
          let copy := min (prev.size - prev.used) s.len
          let filled := before.dropLast ++ [.block { prev with used := prev.used + copy }]
          let left : Span := ⟨s.blk, s.off + copy, s.len - copy⟩
          let h := w.heap.memcpy ⟨prev.blk, prev.used, copy⟩ ⟨s.blk, s.off, copy⟩
          if left.len = 0 then w.put h c { cl with reply := filled ++ after } rest
          else w.put h c { cl with reply := filled ++ .deferred node :: after }
            (.glueDeferred c node left :: rest)
        else { w with todo := .glueDeferred c node s :: rest }

/-- The next block has room for a prefix, and not much to shift. -/
def ReplyBlock.takes (o : ReplyBlock) (length : ℕ) : Bool :=
  length ≤ o.size - o.used && o.used < PROTO_REPLY_CHUNK_BYTES * 4

/-- The rest of `setDeferredReply`: up to the shift of the next block, or all of it. -/
def glueDeferred (cfg : Config) (w : World) (c : ℕ) (cl : Client) (node : ℕ) (s : Span)
    (rest : List Stmt) : Option World :=
  (around node cl.reply).map fun (before, after) =>
    match (firstBlock after).filter (·.takes s.len) with
    | some next =>
        { w with
          heap := w.heap.memcpy ⟨next.blk, s.len, next.used⟩ ⟨next.blk, 0, next.used⟩
          todo := .fillDeferred c node s :: rest }
    | none =>
        let size := cfg.usable s.len
        let fresh : ReplyBlock := ⟨w.heap.next, size, s.len⟩
        let cl' := closeClientOnOutputBufferLimitReached
          { cl with reply := before ++ .block fresh :: after, reply_bytes := cl.reply_bytes + size }
          cfg w.unixtime
        w.put (w.heap.claim.memcpy ⟨fresh.blk, 0, s.len⟩ s) c cl' rest

/-- The prefix is copied before what was shifted. -/
def fillDeferred (w : World) (c : ℕ) (cl : Client) (node : ℕ) (s : Span) (rest : List Stmt) :
    Option World :=
  (around node cl.reply).bind fun (before, after) => (firstBlock after).map fun next =>
    w.put (w.heap.memcpy ⟨next.blk, 0, s.len⟩ s) c
      { cl with reply := before ++ .block { next with used := next.used + s.len } :: after.tail } rest

/-- `copyClientOutputBuffer`, up to the release of the old list. -/
def copyClientOutputBuffer (w : World) (dst src : ℕ) (d s : Client) (rest : List Stmt) : World :=
  w.put (w.heap.release ((blocksOf d.reply).map ReplyBlock.blk)) dst
    { d with reply := [], sentlen := 0 }
    (s.reply.map (Stmt.dupClientReplyValue dst) ++ .copyBuffer dst src :: rest)

/-- One node of `listDup`. A placeholder has no value to duplicate. -/
def dupClientReplyValue (w : World) (dst : ℕ) (d : Client) (rest : List Stmt) : ReplyNode → World
  | .deferred _ => { w with stopped := true }
  | .block o =>
      w.put (w.heap.claim.memcpy ⟨w.heap.next, 0, o.size⟩ ⟨o.blk, 0, o.size⟩) dst
        { d with reply := d.reply ++ [.block ⟨w.heap.next, o.size, o.used⟩] } rest

def copyBuffer (w : World) (dst : ℕ) (d s : Client) (rest : List Stmt) : World :=
  w.put (w.heap.memcpy ⟨d.buf, 0, s.bufpos⟩ ⟨s.buf, 0, s.bufpos⟩) dst
    { d with bufpos := s.bufpos, reply_bytes := s.reply_bytes } rest

/-- A turn of the loop of `writeToClient` that does not call `connWrite`. -/
def write (w : World) (c tot : ℕ) (cl : Client) (rest : List Stmt) : Option World :=
  if ¬ clientHasPendingReplies cl then some { w with todo := .written c false :: rest }
  else if 0 < cl.bufpos then none
  else match cl.reply with
    | [] => none
    | .deferred _ :: _ => some { w with stopped := true }
    | .block o :: os =>
        if o.used = 0 then
          some (w.put (w.heap.release [o.blk]) c
            { cl with reply := os, reply_bytes := cl.reply_bytes - o.size } (.write c tot :: rest))
        else none

/-- `writeToClient` after its loop. -/
def written (w : World) (c : ℕ) (cl : Client) (failed : Bool) (rest : List Stmt) : World :=
  let cl' :=
    if failed then freeClientAsync cl
    else if clientHasPendingReplies cl then cl
    else if cl.has .CLIENT_CLOSE_AFTER_REPLY then freeClientAsync { cl with sentlen := 0 }
    else { cl with sentlen := 0 }
  w.put w.heap c cl' rest

def exec (cfg : Config) (v : Variant) (moved : Bool) (w : World) (rest : List Stmt) :
    Stmt → Option World
  | .addReply c obj => (w.clients c).map fun cl =>
      if ¬ prepareClientToWrite cl then { w with todo := rest }
      else match obj with
        | .sds s => { w with todo := .addReplyToBuffer c s :: rest }
        | .int n =>
            let text := ll2string n
            w.spell text (.addReplyToBuffer c (w.spelled text) :: .leave w.heap.next :: rest)
  | .addReplyProto c s => (w.clients c).map fun cl =>
      if ¬ prepareClientToWrite cl then { w with todo := rest }
      else { w with todo := .addReplyToBuffer c s :: rest }
  | .addReplyToBuffer c s => (w.clients c).map fun cl => addReplyToBuffer w c cl s rest
  | .addReplyProtoToList c s => (w.clients c).map fun cl => addReplyProtoToList w c cl s rest
  | .newBlock c s => (w.clients c).map fun cl => newBlock cfg v w c cl s rest
  | .addReplyLongLongWithPrefix c ll pre => some (addReplyLongLongWithPrefix w c ll pre rest)
  | .addReplyBulkLongLong c ll =>
      let text := ll2string ll
      some (w.spell text (addReplyBulkCBuffer c (w.spelled text) ++ .leave w.heap.next :: rest))
  | .addReplyNull c => (w.clients c).map fun cl =>
      { w with todo := .addReplyProto c (if cl.resp = 2 then nullBulk else nullResp3) :: rest }
  | .sdsfree b => some (w.forget b rest)
  | .leave b => some (w.forget b rest)
  | .AddReplyFromClient dst src => (w.clients dst).bind fun d => (w.clients src).map fun s =>
      if s.has .CLIENT_CLOSE_ASAP then w.put w.heap dst (freeClientAsync d) rest
      else { w with todo := .addReplyProto dst ⟨s.buf, 0, s.bufpos⟩ :: .joinReply dst src :: rest }
  | .joinReply dst src => (w.clients dst).bind fun d => (w.clients src).map fun s =>
      joinReply cfg w dst src d s rest
  | .trimReplyUnusedTailSpace c => (w.clients c).map fun cl =>
      if ¬ prepareClientToWrite cl then { w with todo := rest }
      else trimReplyUnusedTailSpace cfg moved w c cl (.addReplyDeferredLen c :: rest)
  | .addReplyDeferredLen c => (w.clients c).map fun cl => addReplyDeferredLen w c cl rest
  | .setDeferredAggregateLen c node length pre =>
      some (setDeferredAggregateLen w c node length pre rest)
  | .setDeferredReply c node s => (w.clients c).bind fun cl => setDeferredReply w c cl node s rest
  | .glueDeferred c node s => (w.clients c).bind fun cl => glueDeferred cfg w c cl node s rest
  | .fillDeferred c node s => (w.clients c).bind fun cl => fillDeferred w c cl node s rest
  | .copyClientOutputBuffer dst src => (w.clients dst).bind fun d => (w.clients src).map fun s =>
      copyClientOutputBuffer w dst src d s rest
  | .dupClientReplyValue dst o => (w.clients dst).map fun d => dupClientReplyValue w dst d rest o
  | .copyBuffer dst src => (w.clients dst).bind fun d => (w.clients src).map fun s =>
      copyBuffer w dst d s rest
  | .write c tot => (w.clients c).bind fun cl => write w c tot cl rest
  | .written c failed => (w.clients c).map fun cl => written w c cl failed rest

/-- What `connWrite` is asked to send. -/
def Client.outgoing (cl : Client) : Option Span :=
  if 0 < cl.bufpos then some ⟨cl.buf, cl.sentlen, cl.bufpos - cl.sentlen⟩
  else match cl.reply with
    | [] | .deferred _ :: _ => none
    | .block o :: _ => if o.used = 0 then none else some ⟨o.blk, cl.sentlen, o.used - cl.sentlen⟩

/-- The client once `n` more bytes were sent, and the block that is then freed. -/
def Client.advance (cl : Client) (n : ℕ) : Client × List ℕ :=
  let sentlen := cl.sentlen + n
  if 0 < cl.bufpos then
    (if sentlen = cl.bufpos then { cl with bufpos := 0, sentlen := 0 }
      else { cl with sentlen := sentlen }, [])
  else match cl.reply with
    | [] | .deferred _ :: _ => (cl, [])
    | .block o :: os =>
        if sentlen = o.used then
          ({ cl with reply := os, reply_bytes := cl.reply_bytes - o.size, sentlen := 0 }, [o.blk])
        else ({ cl with sentlen := sentlen }, [])

/-- `connWrite` sent `n` bytes. -/
def sends (cfg : Config) (w : World) (c tot n used_memory : ℕ) (cl : Client) (rest : List Stmt) :
    Option World := do
  let from_ ← cl.outgoing
  if 0 < n ∧ n ≤ from_.len ∧ w.heap.ring.isEmpty then
    let (cl', freed) := cl.advance n
    let tot' := tot + n
    let more : Stmt :=
      if NET_MAX_WRITES_PER_EVENT < tot' ∧ (cfg.maxmemory = 0 ∨ used_memory < cfg.maxmemory) ∧
          ¬ cl.has .CLIENT_SLAVE then .written c false
      else .write c tot'
    some { w.put (w.heap.release freed) c cl' (more :: rest) with
      sent := Function.update w.sent c
        (w.sent c ++ slice (w.heap.mem from_.blk) from_.off (from_.off + n))
      stopped := cl'.reply.isEmpty && freed ≠ [] && cl'.reply_bytes ≠ 0 }
  else none

inductive Op
  | addReply (c : ℕ) (obj : Obj)
  | addReplySds (c : ℕ) (s : Span)
  | addReplyProto (c : ℕ) (s : Span)
  | addReplyLongLongWithPrefix (c : ℕ) (ll : Int) (pre : UInt8)
  | addReplyBulk (c : ℕ) (obj : Obj)
  | addReplyBulkCBuffer (c : ℕ) (s : Span)
  | addReplyBulkSds (c : ℕ) (s : Span)
  | addReplyBulkCString (c : ℕ) (s : Option Span)
  | addReplyBulkLongLong (c : ℕ) (ll : Int)
  | AddReplyFromClient (dst src : ℕ)
  | addReplyDeferredLen (c : ℕ)
  | setDeferredReply (c : ℕ) (node : Option ℕ) (s : Span)
  | setDeferredAggregateLen (c : ℕ) (node : Option ℕ) (length : ℕ) (pre : UInt8)
  | copyClientOutputBuffer (dst src : ℕ)

def Op.body : Op → List Stmt
  | addReply c obj => [.addReply c obj]
  | addReplySds c s => [.addReplyProto c s, .sdsfree s.blk]
  | addReplyProto c s => [.addReplyProto c s]
  | addReplyLongLongWithPrefix c ll pre => [.addReplyLongLongWithPrefix c ll pre]
  | addReplyBulk c obj =>
      [.addReplyLongLongWithPrefix c (stringObjectLen obj) DOLLAR, .addReply c obj,
        .addReply c (.sds sharedCrlf)]
  | addReplyBulkCBuffer c s => Reply.addReplyBulkCBuffer c s
  | addReplyBulkSds c s =>
      [.addReplyLongLongWithPrefix c s.len DOLLAR, .addReplyProto c s, .sdsfree s.blk,
        .addReply c (.sds sharedCrlf)]
  | addReplyBulkCString c none => [.addReplyNull c]
  | addReplyBulkCString c (some s) => Reply.addReplyBulkCBuffer c s
  | addReplyBulkLongLong c ll => [.addReplyBulkLongLong c ll]
  | AddReplyFromClient dst src => [.AddReplyFromClient dst src]
  | addReplyDeferredLen c => [.trimReplyUnusedTailSpace c]
  | setDeferredReply c node s => node.toList.map fun node => .setDeferredReply c node s
  | setDeferredAggregateLen c node length pre =>
      node.toList.map fun node => .setDeferredAggregateLen c node length pre
  | copyClientOutputBuffer dst src => [.copyClientOutputBuffer dst src]

/-- A caller replies with values in use, shared texts or numbers, and gives away only
strings of its own. -/
def Op.Allowed (w : World) : Op → Prop
  | addReply _ (.sds s) | addReplyBulk _ (.sds s) | addReplyProto _ s | addReplyBulkCBuffer _ s
  | addReplyBulkCString _ (some s) | setDeferredReply _ _ s => s.blk ∈ w.values ∨ s.blk < texts.length
  | addReplySds _ s | addReplyBulkSds _ s => s.blk ∈ w.values
  | AddReplyFromClient dst src | copyClientOutputBuffer dst src => dst ≠ src
  | _ => True

instance (w : World) (op : Op) : Decidable (op.Allowed w) := by
  unfold Op.Allowed
  split <;> infer_instance

/-- `reuse`: the next owner of freed memory, or of a stack frame that has ended, writes
into it. `create` is a new value or string, or the caller's own stack buffer.
`createClient` outside `acceptCommonHandler` makes fake clients and master links. -/
inductive Label
  | service
  | step (moved : Bool)
  | wrote (n used_memory : ℕ)
  | refused (failed : Bool)
  | call (op : Op)
  | writeToClient (c : ℕ)
  | acceptCommonHandler (c : ℕ)
  | createClient (c : ℕ) (conn : Bool)
  | configure (c : ℕ) (flags : List Flag) (resp : ℕ)
  | freeClient (c : ℕ)
  | create (len : ℕ) (fill : ℕ → UInt8)
  | overwrite (s : Span) (fill : ℕ → UInt8)
  | delete (b : ℕ)
  | reuse (s : Span) (fill : ℕ → UInt8)
  | tick (now : ℕ)

def Label.isService : Label → Bool
  | service => true
  | _ => false

/-- The service performs the oldest copy. Into freed memory it does harm that is not
followed any further. -/
def service (w : World) : Option World :=
  match w.heap.ring with
  | [] => none
  | t :: _ =>
      if t.writes.blk ∈ w.heap.live then w.heap.serve.map fun (h, _) => { w with heap := h }
      else some { w with stopped := true }

def createClient (w : World) (c : ℕ) (conn bound : Bool) : Option World :=
  if (w.clients c).isNone then
    some (w.put w.heap.claim c ⟨conn, bound, 2, [], w.heap.next, 0, 0, [], 0, 0⟩ [])
  else none

def freeClient (w : World) (c : ℕ) (cl : Client) : World :=
  { w with
    heap := w.heap.release (cl.buf :: (blocksOf cl.reply).map ReplyBlock.blk)
    clients := Function.update w.clients c none }

/-- What the event loop does between calls. -/
def idle (w : World) : Label → Option World
  | .call op => if op.Allowed w then some { w with todo := op.body } else none
  | .writeToClient c => (w.clients c).bind fun cl =>
      if cl.conn then some { w with todo := [.write c 0] } else none
  | .acceptCommonHandler c => createClient w c true true
  | .createClient c conn => createClient w c conn false
  | .configure c flags resp => (w.clients c).map fun cl =>
      w.put w.heap c { cl with flags := flags, resp := resp } []
  | .freeClient c => (w.clients c).map fun cl => freeClient w c cl
  | .create len fill => some { w with
      heap := w.heap.claim.store ⟨w.heap.next, 0, len⟩ fill
      values := w.heap.next :: w.values }
  | .overwrite s fill =>
      if s.blk ∈ w.values then some { w with heap := w.heap.store s fill } else none
  | .delete b => if b ∈ w.values then some (w.forget b []) else none
  | .tick now => some { w with unixtime := now }
  | _ => none

def step (cfg : Config) (v : Variant) (w : World) (l : Label) : Option World :=
  if w.stopped then none
  else match l, w.todo with
    | .service, _ => service w
    | .reuse s fill, _ =>
        if s.blk < w.heap.next ∧ s.blk ∉ w.heap.live then
          some { w with heap := w.heap.store s fill }
        else none
    | .step moved, stmt :: rest => exec cfg v moved w rest stmt
    | .wrote n used_memory, .write c tot :: rest =>
        (w.clients c).bind fun cl => sends cfg w c tot n used_memory cl rest
    | .refused failed, .write c _ :: rest => (w.clients c).bind fun cl =>
        if cl.outgoing.isSome then some { w with todo := .written c failed :: rest } else none
    | l, [] => idle w l
    | _, _ => none

end Copier.Redis.Reply
