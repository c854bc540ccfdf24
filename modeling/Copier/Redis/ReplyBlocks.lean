import Copier.Foundation.Runs
import Copier.Redis.Reply

/-! Reply blocks under copy. Blocks that pending copies are to fill and blocks they
read from never mix. Appending a reply writes behind what a block holds already, so
only a reallocation, a shift, a duplication or a free can disturb a block whose bytes
have yet to arrive. -/
namespace Copier.Redis.Reply
open Deferred (Span Task Access)

/-- A reply block in some client's list. -/
def World.Holds (w : World) (o : ReplyBlock) : Prop :=
  ∃ c cl, w.clients c = some cl ∧ .block o ∈ cl.reply

/-- A block that is not a reply block, and that no pending copy is to fill. -/
structure World.Plain (w : World) (b : ℕ) : Prop where
  known : b < w.heap.next
  held : w.Holds o → o.blk ≠ b
  unfilled : ∀ t ∈ w.heap.ring, t.writes.blk ≠ b

/-- Blocks outside the lists that a step reads from or gives back. -/
def Stmt.sources : Stmt → List ℕ
  | addReply _ (.sds s) | addReplyProto _ s | addReplyToBuffer _ s | addReplyProtoToList _ s
  | newBlock _ s | setDeferredReply _ _ s | glueDeferred _ _ s | fillDeferred _ _ s => [s.blk]
  | sdsfree b | leave b => [b]
  | _ => []

/-- What replies are taken from: values, static buffers, and what the running
function was handed. -/
inductive World.Source (w : World) (b : ℕ) : Prop where
  | value (member : b ∈ w.values)
  | buffer (here : w.clients c = some cl) (same : cl.buf = b)
  | todo (member : stmt ∈ w.todo) (used : b ∈ stmt.sources)

/-- The copy fills a live block, up to where it is used at most. -/
structure World.Fills (w : World) (t : Task UInt8 Empty) : Prop where
  known : t.writes.blk < w.heap.next
  live : t.writes.blk ∈ w.heap.live
  inside : w.Holds o → o.blk = t.writes.blk → t.writes.off + t.writes.len ≤ o.used

structure World.Inv (w : World) : Prop where
  blocks : w.Holds o → o.blk < w.heap.next
  fills : ∀ t ∈ w.heap.ring, w.Fills t
  reads : ∀ t ∈ w.heap.ring, w.Plain t.reads.blk
  texts : b < texts.length → w.Plain b
  sources : w.Source b → w.Plain b

def freed (blocks : List ReplyBlock) : List Access := blocks.map fun o => .free o.blk

def onClient (w : World) (c : ℕ) (f : Client → List Access) : List Access := (w.clients c).elim [] f

def onBlock (o : Option ReplyBlock) (f : ReplyBlock → List Access) : List Access := o.elim [] f

/-- How a step gets at reply blocks other than by adding to the end of one: a moving
`zrealloc`, a shift, a prefix, a duplication or a free. -/
def Stmt.edits (w : World) (moved : Bool) : Stmt → List Access
  | trimReplyUnusedTailSpace c => onClient w c fun cl =>
      if prepareClientToWrite cl && moved then
        onBlock ((lastBlock cl.reply).filter ReplyBlock.wasteful) fun tail =>
          [.read ⟨tail.blk, 0, tail.used⟩, .free tail.blk]
      else []
  | glueDeferred c node s => onClient w c fun cl =>
      onBlock (((around node cl.reply).bind fun sides => firstBlock sides.2).filter (·.takes s.len))
        fun next => [.read ⟨next.blk, 0, next.used⟩, .write ⟨next.blk, s.len, next.used⟩]
  | fillDeferred c node s => onClient w c fun cl =>
      onBlock ((around node cl.reply).bind fun sides => firstBlock sides.2)
        fun next => [.write ⟨next.blk, 0, s.len⟩]
  | copyClientOutputBuffer dst _ => onClient w dst fun cl => freed (blocksOf cl.reply)
  | dupClientReplyValue _ (.block o) => [.read ⟨o.blk, 0, o.size⟩]
  | write c _ => onClient w c fun cl =>
      onBlock ((firstBlock cl.reply).filter (·.used = 0)) fun o => freed [o]
  | _ => []

def edits (w : World) : Label → List Access
  | .step moved => w.todo.head?.elim [] (Stmt.edits w moved)
  | .freeClient c => onClient w c fun cl => freed (blocksOf cl.reply)
  | _ => []

/-- No block is edited into which a copy is still pending. -/
def Arrived (w : World) (l : Label) : Prop := ∀ a ∈ edits w l, w.heap.Clear a

instance (w : World) (l : Label) : Decidable (Arrived w l) :=
  inferInstanceAs (Decidable (∀ a ∈ _, _))

/-- What a step leaves of pending copies, and what blocks and sources it may add. -/
structure Evolves (w w' : World) : Prop where
  spared : w.heap.Spared w'.heap
  held : w'.Holds o → (∃ o', w.Holds o' ∧ o'.blk = o.blk ∧ o'.used ≤ o.used) ∨
    w.heap.next ≤ o.blk ∧ o.blk < w'.heap.next
  tasks : ∀ t ∈ w'.heap.ring, t ∈ w.heap.ring ∨
    w.heap.next ≤ t.writes.blk ∧ w'.Fills t ∧ w.Plain t.reads.blk
  sources : w'.Source b → w.Plain b ∨ w'.Plain b

section Evolves
variable {w w' : World} {b : ℕ}

theorem Evolves.plain (evolves : Evolves w w') (plain : w.Plain b) : w'.Plain b where
  known := Nat.lt_of_lt_of_le plain.known evolves.spared.grown
  held {o} holds same := by
    rcases evolves.held holds with ⟨o', old, blk, -⟩ | ⟨fresh, -⟩
    · exact plain.held old (blk.trans same)
    · exact absurd plain.known (by omega)
  unfilled t member same := by
    rcases evolves.tasks t member with old | ⟨fresh, -, -⟩
    · exact plain.unfilled t old same
    · exact absurd plain.known (by omega)

theorem Evolves.fills (evolves : Evolves w w') (inv : w.Inv) (member : t ∈ w'.heap.ring) :
    w'.Fills t := by
  rcases evolves.tasks t member with old | ⟨-, fills, -⟩
  · have before := inv.fills t old
    refine ⟨Nat.lt_of_lt_of_le before.known evolves.spared.grown,
      evolves.spared.live t old before.live, fun {o} holds same => ?_⟩
    rcases evolves.held holds with ⟨o', earlier, blk, used⟩ | ⟨fresh, -⟩
    · exact Nat.le_trans (before.inside earlier (blk.trans same)) used
    · exact absurd before.known (by omega)
  · exact fills

theorem Evolves.inv (evolves : Evolves w w') (inv : w.Inv) : w'.Inv where
  blocks {o} holds := by
    rcases evolves.held holds with ⟨o', old, blk, -⟩ | ⟨-, fresh⟩
    · exact blk ▸ Nat.lt_of_lt_of_le (inv.blocks old) evolves.spared.grown
    · exact fresh
  fills _ := evolves.fills inv
  reads t member := by
    rcases evolves.tasks t member with old | ⟨-, -, plain⟩
    · exact evolves.plain (inv.reads t old)
    · exact evolves.plain plain
  texts shared := evolves.plain (inv.texts shared)
  sources source := (evolves.sources source).elim evolves.plain id

end Evolves

/-- What a statement can do. -/
inductive Executed (cfg : Config) (v : Variant) (moved : Bool) (w : World) (rest : List Stmt) :
    Stmt → World → Prop
  | skipped (here : w.clients c = some cl) (closed : ¬ prepareClientToWrite cl)
      (prepares : (∃ obj, stmt = .addReply c obj) ∨ (∃ s, stmt = .addReplyProto c s) ∨
        stmt = .trimReplyUnusedTailSpace c) :
      Executed cfg v moved w rest stmt { w with todo := rest }
  | addReply (c s) (here : w.clients c = some cl) (allowed : prepareClientToWrite cl) :
      Executed cfg v moved w rest (.addReply c (.sds s))
        { w with todo := .addReplyToBuffer c s :: rest }
  | addReplyInt (c n) (here : w.clients c = some cl) (allowed : prepareClientToWrite cl) :
      Executed cfg v moved w rest (.addReply c (.int n))
        (w.spell (ll2string n)
          (.addReplyToBuffer c (w.spelled (ll2string n)) :: .leave w.heap.next :: rest))
  | addReplyProto (c s) (here : w.clients c = some cl) (allowed : prepareClientToWrite cl) :
      Executed cfg v moved w rest (.addReplyProto c s)
        { w with todo := .addReplyToBuffer c s :: rest }
  | addReplyToBuffer (c s) (here : w.clients c = some cl) :
      Executed cfg v moved w rest (.addReplyToBuffer c s) (addReplyToBuffer w c cl s rest)
  | addReplyProtoToList (c s) (here : w.clients c = some cl) :
      Executed cfg v moved w rest (.addReplyProtoToList c s) (addReplyProtoToList w c cl s rest)
  | newBlock (c s) (here : w.clients c = some cl) :
      Executed cfg v moved w rest (.newBlock c s) (newBlock cfg v w c cl s rest)
  | addReplyLongLongWithPrefix (c ll pre) :
      Executed cfg v moved w rest (.addReplyLongLongWithPrefix c ll pre)
        (addReplyLongLongWithPrefix w c ll pre rest)
  | addReplyBulkLongLong (c ll) :
      Executed cfg v moved w rest (.addReplyBulkLongLong c ll)
        (w.spell (ll2string ll)
          (addReplyBulkCBuffer c (w.spelled (ll2string ll)) ++ .leave w.heap.next :: rest))
  | addReplyNull (c) (here : w.clients c = some cl) :
      Executed cfg v moved w rest (.addReplyNull c)
        { w with todo := .addReplyProto c (if cl.resp = 2 then nullBulk else nullResp3) :: rest }
  | forgets (b) (disposed : stmt = .sdsfree b ∨ stmt = .leave b) :
      Executed cfg v moved w rest stmt (w.forget b rest)
  | abandoned (target : w.clients dst = some d) (origin : w.clients src = some e)
      (closing : e.has .CLIENT_CLOSE_ASAP) :
      Executed cfg v moved w rest (.AddReplyFromClient dst src)
        (w.put w.heap dst (freeClientAsync d) rest)
  | AddReplyFromClient (dst src) (target : w.clients dst = some d)
      (origin : w.clients src = some e) (open_ : ¬ e.has .CLIENT_CLOSE_ASAP) :
      Executed cfg v moved w rest (.AddReplyFromClient dst src)
        { w with todo := .addReplyProto dst ⟨e.buf, 0, e.bufpos⟩ :: .joinReply dst src :: rest }
  | joinReply (dst src) (target : w.clients dst = some d) (origin : w.clients src = some e) :
      Executed cfg v moved w rest (.joinReply dst src) (joinReply cfg w dst src d e rest)
  | trimReplyUnusedTailSpace (c) (here : w.clients c = some cl)
      (allowed : prepareClientToWrite cl) :
      Executed cfg v moved w rest (.trimReplyUnusedTailSpace c)
        (trimReplyUnusedTailSpace cfg moved w c cl (.addReplyDeferredLen c :: rest))
  | addReplyDeferredLen (c) (here : w.clients c = some cl) :
      Executed cfg v moved w rest (.addReplyDeferredLen c) (addReplyDeferredLen w c cl rest)
  | setDeferredAggregateLen (c node length pre) :
      Executed cfg v moved w rest (.setDeferredAggregateLen c node length pre)
        (setDeferredAggregateLen w c node length pre rest)
  | setDeferredReply (c node s) (here : w.clients c = some cl)
      (done : setDeferredReply w c cl node s rest = some w') :
      Executed cfg v moved w rest (.setDeferredReply c node s) w'
  | glueDeferred (c node s) (here : w.clients c = some cl)
      (done : glueDeferred cfg w c cl node s rest = some w') :
      Executed cfg v moved w rest (.glueDeferred c node s) w'
  | fillDeferred (c node s) (here : w.clients c = some cl)
      (done : fillDeferred w c cl node s rest = some w') :
      Executed cfg v moved w rest (.fillDeferred c node s) w'
  | copyClientOutputBuffer (dst src) (target : w.clients dst = some d)
      (origin : w.clients src = some e) :
      Executed cfg v moved w rest (.copyClientOutputBuffer dst src)
        (copyClientOutputBuffer w dst src d e rest)
  | dupClientReplyValue (dst n) (target : w.clients dst = some d) :
      Executed cfg v moved w rest (.dupClientReplyValue dst n) (dupClientReplyValue w dst d rest n)
  | copyBuffer (dst src) (target : w.clients dst = some d) (origin : w.clients src = some e) :
      Executed cfg v moved w rest (.copyBuffer dst src) (copyBuffer w dst d e rest)
  | write (c tot) (here : w.clients c = some cl) (done : write w c tot cl rest = some w') :
      Executed cfg v moved w rest (.write c tot) w'
  | written (c failed) (here : w.clients c = some cl) :
      Executed cfg v moved w rest (.written c failed) (written w c cl failed rest)

theorem exec_executed {cfg : Config} {v : Variant} {w w' : World} {stmt : Stmt}
    (executed : exec cfg v moved w rest stmt = some w') : Executed cfg v moved w rest stmt w' := by
  unfold exec at executed
  split at executed
  · obtain ⟨cl, here, rfl⟩ := Option.map_eq_some_iff.mp executed
    split_ifs with allowed
    · split
      · exact .addReply _ _ here allowed
      · exact .addReplyInt _ _ here allowed
    · exact .skipped here allowed (.inl ⟨_, rfl⟩)
  · obtain ⟨cl, here, rfl⟩ := Option.map_eq_some_iff.mp executed
    split_ifs with allowed
    · exact .addReplyProto _ _ here allowed
    · exact .skipped here allowed (.inr (.inl ⟨_, rfl⟩))
  · obtain ⟨cl, here, rfl⟩ := Option.map_eq_some_iff.mp executed
    exact .addReplyToBuffer _ _ here
  · obtain ⟨cl, here, rfl⟩ := Option.map_eq_some_iff.mp executed
    exact .addReplyProtoToList _ _ here
  · obtain ⟨cl, here, rfl⟩ := Option.map_eq_some_iff.mp executed
    exact .newBlock _ _ here
  · cases executed
    exact .addReplyLongLongWithPrefix _ _ _
  · cases executed
    exact .addReplyBulkLongLong _ _
  · obtain ⟨cl, here, rfl⟩ := Option.map_eq_some_iff.mp executed
    exact .addReplyNull _ here
  · cases executed
    exact .forgets _ (.inl rfl)
  · cases executed
    exact .forgets _ (.inr rfl)
  · obtain ⟨d, target, executed⟩ := Option.bind_eq_some_iff.mp executed
    obtain ⟨e, origin, rfl⟩ := Option.map_eq_some_iff.mp executed
    split_ifs with closing
    · exact .abandoned target origin closing
    · exact .AddReplyFromClient _ _ target origin closing
  · obtain ⟨d, target, executed⟩ := Option.bind_eq_some_iff.mp executed
    obtain ⟨e, origin, rfl⟩ := Option.map_eq_some_iff.mp executed
    exact .joinReply _ _ target origin
  · obtain ⟨cl, here, rfl⟩ := Option.map_eq_some_iff.mp executed
    split_ifs with allowed
    · exact .trimReplyUnusedTailSpace _ here allowed
    · exact .skipped here allowed (.inr (.inr rfl))
  · obtain ⟨cl, here, rfl⟩ := Option.map_eq_some_iff.mp executed
    exact .addReplyDeferredLen _ here
  · cases executed
    exact .setDeferredAggregateLen _ _ _ _
  · obtain ⟨cl, here, done⟩ := Option.bind_eq_some_iff.mp executed
    exact .setDeferredReply _ _ _ here done
  · obtain ⟨cl, here, done⟩ := Option.bind_eq_some_iff.mp executed
    exact .glueDeferred _ _ _ here done
  · obtain ⟨cl, here, done⟩ := Option.bind_eq_some_iff.mp executed
    exact .fillDeferred _ _ _ here done
  · obtain ⟨d, target, executed⟩ := Option.bind_eq_some_iff.mp executed
    obtain ⟨e, origin, rfl⟩ := Option.map_eq_some_iff.mp executed
    exact .copyClientOutputBuffer _ _ target origin
  · obtain ⟨d, target, rfl⟩ := Option.map_eq_some_iff.mp executed
    exact .dupClientReplyValue _ _ target
  · obtain ⟨d, target, executed⟩ := Option.bind_eq_some_iff.mp executed
    obtain ⟨e, origin, rfl⟩ := Option.map_eq_some_iff.mp executed
    exact .copyBuffer _ _ target origin
  · obtain ⟨cl, here, done⟩ := Option.bind_eq_some_iff.mp executed
    exact .write _ _ here done
  · obtain ⟨cl, here, rfl⟩ := Option.map_eq_some_iff.mp executed
    exact .written _ _ here

section Shapes
variable {w w' : World} {h : Heap} {cl cl' : Client} {stmts : List Stmt}

theorem World.put_found (found : (w.put h c cl stmts).clients d = some cl') :
    d = c ∧ cl' = cl ∨ d ≠ c ∧ w.clients d = some cl' :=
  (Runs.updated_found found).imp_left (And.imp_right fun same => (Option.some.inj same).symm)

theorem put_holds {o : ReplyBlock} (holds : (w.put h c cl stmts).Holds o) :
    .block o ∈ cl.reply ∨ w.Holds o := by
  obtain ⟨d, dl, found, member⟩ := holds
  rcases World.put_found found with ⟨-, rfl⟩ | ⟨-, there⟩
  · exact .inl member
  · exact .inr ⟨d, dl, there, member⟩

/-- Only the heap changes, and what is left to do. -/
theorem Evolves.fill (inv : w.Inv) (spared : w.heap.Spared h) (ring : h.ring = w.heap.ring)
    (todo : ∀ stmt ∈ stmts, ∀ b ∈ stmt.sources, w.Plain b) :
    Evolves w { w with heap := h, todo := stmts } where
  spared := spared
  held holds := .inl ⟨_, holds, rfl, Nat.le_refl _⟩
  tasks t member := .inl (ring ▸ member)
  sources source := by
    cases source with
    | value member => exact .inl (inv.sources (.value member))
    | buffer here same => exact .inl (inv.sources (.buffer here same))
    | todo member used => exact .inl (todo _ member _ used)

theorem Evolves.resume (inv : w.Inv) (todo : ∀ stmt ∈ stmts, ∀ b ∈ stmt.sources, w.Plain b) :
    Evolves w { w with todo := stmts } := .fill inv (.refl _) rfl todo

theorem put_sources (inv : w.Inv) (here : w.clients c = some cl) (buf : cl'.buf = cl.buf)
    (todo : ∀ stmt ∈ stmts, ∀ b ∈ stmt.sources, w.Plain b) {b : ℕ}
    (source : (w.put h c cl' stmts).Source b) : w.Plain b := by
  cases source with
  | value member => exact inv.sources (.value member)
  | @buffer d dl found same =>
    rcases World.put_found found with ⟨-, rfl⟩ | ⟨-, there⟩
    · rw [← same, buf]
      exact inv.sources (.buffer here rfl)
    · exact inv.sources (.buffer there same)
  | todo member used => exact todo _ member _ used

/-- One client and the heap change, and nothing is submitted. -/
theorem Evolves.put (inv : w.Inv) (here : w.clients c = some cl) (spared : w.heap.Spared h)
    (ring : h.ring = w.heap.ring) (buf : cl'.buf = cl.buf)
    (reply : ∀ o, .block o ∈ cl'.reply →
      (∃ o', .block o' ∈ cl.reply ∧ o'.blk = o.blk ∧ o'.used ≤ o.used) ∨
        w.heap.next ≤ o.blk ∧ o.blk < h.next)
    (todo : ∀ stmt ∈ stmts, ∀ b ∈ stmt.sources, w.Plain b) :
    Evolves w (w.put h c cl' stmts) where
  spared := spared
  held {o} holds := by
    rcases put_holds holds with own | old
    · rcases reply o own with ⟨o', member, same⟩ | fresh
      · exact .inl ⟨o', ⟨c, cl, here, member⟩, same⟩
      · exact .inr fresh
    · exact .inl ⟨o, old, rfl, Nat.le_refl _⟩
  tasks t member := .inl (ring ▸ member)
  sources source := .inl (put_sources inv here buf todo source)

/-- The reply list stays. -/
theorem Evolves.put_same (inv : w.Inv) (here : w.clients c = some cl) (spared : w.heap.Spared h)
    (ring : h.ring = w.heap.ring) (buf : cl'.buf = cl.buf) (reply : cl'.reply = cl.reply)
    (todo : ∀ stmt ∈ stmts, ∀ b ∈ stmt.sources, w.Plain b) : Evolves w (w.put h c cl' stmts) :=
  .put inv here spared ring buf (fun o member => .inl ⟨o, reply ▸ member, rfl, Nat.le_refl _⟩) todo

theorem World.Inv.unread (inv : w.Inv) (holds : w.Holds o) : ∀ t ∈ w.heap.ring, t.reads.blk ≠ o.blk :=
  fun t member same => (inv.reads t member).held holds same.symm

theorem World.Inv.named (inv : w.Inv) : w.heap.Named :=
  fun t member => ⟨(inv.fills t member).known, (inv.reads t member).known⟩

theorem World.Inv.source (inv : w.Inv) {stmt : Stmt} {rest : List Stmt} (todo : w.todo = stmt :: rest) :
    ∀ b ∈ stmt.sources, w.Plain b :=
  fun _ used => inv.sources (.todo (todo ▸ List.mem_cons_self) used)

theorem World.Inv.rest (inv : w.Inv) {stmt : Stmt} {rest : List Stmt} (todo : w.todo = stmt :: rest) :
    ∀ stmt ∈ rest, ∀ b ∈ stmt.sources, w.Plain b :=
  fun _ member _ used => inv.sources (.todo (todo ▸ List.mem_cons_of_mem _ member) used)

/-- A write to a plain block meets no pending destination. -/
theorem World.Plain.apart {b : ℕ} (plain : w.Plain b) (off len : ℕ) :
    ∀ t ∈ w.heap.ring, ¬ t.writes.Overlaps ⟨b, off, len⟩ :=
  fun t member => Deferred.Span.not_overlaps_blk (plain.unfilled t member)

/-- Nor does one behind what a reply block holds. -/
theorem World.Inv.apart_tail (inv : w.Inv) (holds : w.Holds o) (len : ℕ) :
    ∀ t ∈ w.heap.ring, ¬ t.writes.Overlaps ⟨o.blk, o.used, len⟩ := by
  rintro t pending ⟨same, low, high, -, -⟩
  have inside := (inv.fills t pending).inside holds same.symm
  dsimp only at low high
  omega

/-- Nor does one to a block that was just allocated. -/
theorem World.Inv.apart_fresh (inv : w.Inv) (off len : ℕ) :
    ∀ t ∈ w.heap.claim.ring, ¬ t.writes.Overlaps ⟨w.heap.next, off, len⟩ :=
  fun t member => Deferred.Span.not_overlaps_blk (Nat.ne_of_lt (inv.fills t member).known)

/-- A fresh block of the server's own, filled at once. -/
theorem World.Inv.spared_fresh (inv : w.Inv) (off len : ℕ) (f : ℕ → UInt8) :
    w.heap.Spared (w.heap.claim.store ⟨w.heap.next, off, len⟩ f) :=
  (Deferred.Heap.Spared.claim _).trans (.store (inv.apart_fresh off len) f)

/-- A stack buffer or a value is added. -/
theorem Evolves.keep (inv : w.Inv) (len : ℕ) (f : ℕ → UInt8)
    (todo : ∀ stmt ∈ stmts, ∀ b ∈ stmt.sources, b = w.heap.next ∨ w.Plain b) :
    Evolves w { w with
      heap := w.heap.claim.store ⟨w.heap.next, 0, len⟩ f
      values := w.heap.next :: w.values
      todo := stmts } := by
  have plain : World.Plain { w with
      heap := w.heap.claim.store ⟨w.heap.next, 0, len⟩ f
      values := w.heap.next :: w.values
      todo := stmts } w.heap.next :=
    ⟨Nat.lt_succ_self _, fun holds => Nat.ne_of_lt (inv.blocks holds),
      fun t member => Nat.ne_of_lt (inv.fills t member).known⟩
  refine ⟨inv.spared_fresh 0 len f, fun holds => .inl ⟨_, holds, rfl, Nat.le_refl _⟩,
    fun _ => .inl, fun source => ?_⟩
  cases source with
  | value member =>
    rcases List.mem_cons.mp member with rfl | old
    · exact .inr plain
    · exact .inl (inv.sources (.value old))
  | buffer here same => exact .inl (inv.sources (.buffer here same))
  | todo member used =>
    rcases todo _ member _ used with rfl | old
    · exact .inr plain
    · exact .inl old

theorem spell_evolves (inv : w.Inv) (text : Bytes)
    (todo : ∀ stmt ∈ stmts, ∀ b ∈ stmt.sources, b = w.heap.next ∨ w.Plain b) :
    Evolves w (w.spell text stmts) := .keep inv _ _ todo

theorem forget_evolves (inv : w.Inv) {b : ℕ} (plain : w.Plain b)
    (todo : ∀ stmt ∈ stmts, ∀ b ∈ stmt.sources, w.Plain b) : Evolves w (w.forget b stmts) where
  spared := .release fun d freed t member => List.mem_singleton.mp freed ▸ plain.unfilled t member
  held holds := .inl ⟨_, holds, rfl, Nat.le_refl _⟩
  tasks _ := .inl
  sources source := by
    cases source with
    | value member => exact .inl (inv.sources (.value (List.mem_of_mem_filter member)))
    | buffer here same => exact .inl (inv.sources (.buffer here same))
    | todo member used => exact .inl (todo _ member _ used)

end Shapes

section Lists
variable {reply before after : List ReplyNode} {node : ℕ} {o : ReplyBlock}

theorem lastBlock_mem (last : lastBlock reply = some o) : .block o ∈ reply := by
  simp only [lastBlock, Option.bind_eq_some_iff] at last
  obtain ⟨n, last, block⟩ := last
  cases n with
  | block => exact Option.some.inj block ▸ List.mem_of_getLast? last
  | deferred => cases block

theorem firstBlock_mem (first : firstBlock reply = some o) : .block o ∈ reply := by
  simp only [firstBlock, Option.bind_eq_some_iff] at first
  obtain ⟨n, first, block⟩ := first
  cases n with
  | block => exact Option.some.inj block ▸ List.mem_of_head? first
  | deferred => cases block

theorem around_eq (found : around node reply = some (before, after)) :
    reply = before ++ .deferred node :: after := by
  induction reply generalizing before with
  | nil => simp [around] at found
  | cons n ns ih =>
    simp only [around] at found
    split at found
    · rename_i here
      cases found
      rw [here]
      rfl
    · simp only [Option.map_eq_some_iff, Prod.exists, Prod.mk.injEq] at found
      obtain ⟨ms, rest, deeper, rfl, rfl⟩ := found
      rw [ih deeper]
      rfl

theorem mem_blocksOf : o ∈ blocksOf reply ↔ .block o ∈ reply := by
  simp only [blocksOf, List.mem_filterMap]
  constructor
  · rintro ⟨n, member, block⟩
    cases n with
    | block => exact Option.some.inj block ▸ member
    | deferred => cases block
  · exact fun member => ⟨_, member, rfl⟩

/-- A tail with more in it stands for the tail. -/
theorem grown_tail {more : ℕ} (last : lastBlock reply = some o) (p : ReplyBlock)
    (member : .block p ∈ reply.dropLast ++ [ReplyNode.block { o with used := o.used + more }]) :
    ∃ p', .block p' ∈ reply ∧ p'.blk = p.blk ∧ p'.used ≤ p.used := by
  rcases List.mem_append.mp member with old | new
  · exact ⟨p, List.dropLast_subset _ old, rfl, Nat.le_refl _⟩
  · cases List.mem_singleton.mp new
    exact ⟨o, lastBlock_mem last, rfl, Nat.le_add_right _ _⟩

theorem texts_length : texts.length = 3 + OBJ_SHARED_BULKHDR_LEN * sharedPrefixes.length := by
  simp [texts, OBJ_SHARED_BULKHDR_LEN, sharedPrefixes]

theorem sharedHeader_shared {pre : UInt8} {ll : ℕ} (shared : pre ∈ sharedPrefixes)
    (short : ll < OBJ_SHARED_BULKHDR_LEN) : (sharedHeader pre ll).blk < texts.length := by
  have place := List.idxOf_lt_length_of_mem shared
  rw [texts_length]
  simp only [sharedHeader, OBJ_SHARED_BULKHDR_LEN] at short ⊢
  omega

@[simp] theorem freeClientAsync_reply (cl : Client) : (freeClientAsync cl).reply = cl.reply := by
  unfold freeClientAsync
  split <;> rfl

@[simp] theorem freeClientAsync_buf (cl : Client) : (freeClientAsync cl).buf = cl.buf := by
  unfold freeClientAsync
  split <;> rfl

theorem checkClientOutputBufferLimits_same (cl : Client) (cfg : Config) (now : ℕ) :
    (checkClientOutputBufferLimits cl cfg now).2.reply = cl.reply ∧
      (checkClientOutputBufferLimits cl cfg now).2.buf = cl.buf := by
  unfold checkClientOutputBufferLimits
  generalize cfg.client_obuf_limits _ = limit
  dsimp only
  split
  · split <;> exact ⟨rfl, rfl⟩
  · exact ⟨rfl, rfl⟩

theorem closeClient_same (cl : Client) (cfg : Config) (now : ℕ) :
    (closeClientOnOutputBufferLimitReached cl cfg now).reply = cl.reply ∧
      (closeClientOnOutputBufferLimitReached cl cfg now).buf = cl.buf := by
  have same := checkClientOutputBufferLimits_same cl cfg now
  unfold closeClientOnOutputBufferLimitReached
  split
  · exact ⟨rfl, rfl⟩
  · split
    · exact ⟨rfl, rfl⟩
    · split <;> simp_all

end Lists

section Functions
variable {cfg : Config} {w w' : World} {cl cl' : Client} {s : Span} {rest : List Stmt} {node size : ℕ}
  {moved : Bool}

theorem addReplyToBuffer_evolves (inv : w.Inv) (here : w.clients c = some cl) (plain : w.Plain s.blk)
    (todo : ∀ stmt ∈ rest, ∀ b ∈ stmt.sources, w.Plain b) :
    Evolves w (addReplyToBuffer w c cl s rest) := by
  unfold addReplyToBuffer
  split
  · exact .resume inv todo
  · split
    · have buffer : w.Plain cl.buf := inv.sources (.buffer here rfl)
      exact .put_same inv here (.store (buffer.apart _ _) _) rfl rfl rfl todo
    · exact .resume inv (List.forall_mem_cons.mpr ⟨by simpa [Stmt.sources] using plain, todo⟩)

theorem newBlocks_sources {b : ℕ} {stmt : Stmt} (member : stmt ∈ newBlocks c s)
    (used : b ∈ stmt.sources) : b = s.blk := by
  unfold newBlocks at member
  split at member
  · cases member
  · cases List.mem_singleton.mp member
    exact List.mem_singleton.mp used

theorem newBlocks_plain (plain : w.Plain s.blk)
    (todo : ∀ stmt ∈ rest, ∀ b ∈ stmt.sources, w.Plain b) :
    ∀ stmt ∈ newBlocks c s ++ rest, ∀ b ∈ stmt.sources, w.Plain b := by
  intro stmt member b used
  rcases List.mem_append.mp member with new | old
  · exact newBlocks_sources new used ▸ plain
  · exact todo stmt old b used

theorem addReplyProtoToList_evolves (inv : w.Inv) (here : w.clients c = some cl)
    (plain : w.Plain s.blk) (todo : ∀ stmt ∈ rest, ∀ b ∈ stmt.sources, w.Plain b) :
    Evolves w (addReplyProtoToList w c cl s rest) := by
  unfold addReplyProtoToList
  split
  · exact .resume inv todo
  · cases last : lastBlock cl.reply with
    | none => exact .resume inv (newBlocks_plain plain todo)
    | some tail =>
      have holds : w.Holds tail := ⟨c, cl, here, lastBlock_mem last⟩
      exact .put inv here (.store (inv.apart_tail holds _) _) rfl rfl
        (fun o member => .inl (grown_tail last o member)) (newBlocks_plain plain todo)

theorem stop_evolves (inv : w.Inv) : Evolves w { w with stopped := true } where
  spared := .refl _
  held holds := .inl ⟨_, holds, rfl, Nat.le_refl _⟩
  tasks _ := .inl
  sources source := by
    cases source with
    | value member => exact .inl (inv.sources (.value member))
    | buffer here same => exact .inl (inv.sources (.buffer here same))
    | todo member used => exact .inl (inv.sources (.todo member used))

/-- A list with one more block, whose copy is submitted. -/
theorem submit_evolves (inv : w.Inv) (here : w.clients c = some cl) (plain : w.Plain s.blk)
    (buf : cl'.buf = cl.buf) (reply : cl'.reply = cl.reply ++ [.block ⟨w.heap.next, size, s.len⟩])
    (todo : ∀ stmt ∈ rest, ∀ b ∈ stmt.sources, w.Plain b) :
    Evolves w (w.put (w.heap.claim.submit (.copy w.heap.next 0 s.blk s.off s.len)) c cl' rest) := by
  have listed : ∀ o, .block o ∈ cl'.reply → .block o ∈ cl.reply ∨ o = ⟨w.heap.next, size, s.len⟩ := by
    intro o member
    rw [reply] at member
    rcases List.mem_append.mp member with old | new
    · exact .inl old
    · exact .inr (ReplyNode.block.inj (List.mem_singleton.mp new))
  refine ⟨(Deferred.Heap.Spared.claim _).trans (.submit _ _), fun {o} holds => ?_,
    fun t member => ?_, fun source => .inl (put_sources inv here buf todo source)⟩
  · rcases put_holds holds with own | old
    · rcases listed o own with old | rfl
      · exact .inl ⟨o, ⟨c, cl, here, old⟩, rfl, Nat.le_refl _⟩
      · exact .inr ⟨Nat.le_refl _, Nat.lt_succ_self _⟩
    · exact .inl ⟨o, old, rfl, Nat.le_refl _⟩
  · rcases List.mem_append.mp member with old | new
    · exact .inl old
    · cases List.mem_singleton.mp new
      refine .inr ⟨Nat.le_refl _, ⟨Nat.lt_succ_self _, List.mem_cons_self, fun {o} holds same => ?_⟩,
        plain⟩
      have fresh : o = ⟨w.heap.next, size, s.len⟩ := by
        rcases put_holds holds with own | old
        · refine (listed o own).resolve_left fun old => ?_
          exact Nat.ne_of_lt (inv.blocks ⟨c, cl, here, old⟩) same
        · exact absurd same (Nat.ne_of_lt (inv.blocks old))
      simp [Task.writes, fresh]

theorem newBlock_evolves (inv : w.Inv) (here : w.clients c = some cl) (plain : w.Plain s.blk)
    (todo : ∀ stmt ∈ rest, ∀ b ∈ stmt.sources, w.Plain b) :
    Evolves w (newBlock cfg .copierGet w c cl s rest) := by
  unfold newBlock
  dsimp only
  split
  · have same := closeClient_same
    exact submit_evolves inv here plain (same _ _ _).2 (same _ _ _).1 todo
  · exact stop_evolves inv

theorem updated_two {clients : ℕ → Option Client} {d e : Client}
    (there : Function.update (Function.update clients dst (some d)) src (some e) x = some cl) :
    x = src ∧ e = cl ∨ x = dst ∧ d = cl ∨ clients x = some cl := by
  rcases Runs.updated_found there with ⟨last, same⟩ | ⟨-, there⟩
  · exact .inl ⟨last, Option.some.inj same⟩
  · rcases Runs.updated_found there with ⟨first, same⟩ | ⟨-, before⟩
    · exact .inr (.inl ⟨first, Option.some.inj same⟩)
    · exact .inr (.inr before)

theorem joinReply_evolves {d e : Client} (inv : w.Inv) (target : w.clients dst = some d)
    (origin : w.clients src = some e) (todo : ∀ stmt ∈ rest, ∀ b ∈ stmt.sources, w.Plain b) :
    Evolves w (joinReply cfg w dst src d e rest) := by
  unfold joinReply
  split
  · exact .resume inv todo
  · split
    · exact .resume inv todo
    · dsimp only
      have joined := closeClient_same { d with
        reply := d.reply ++ e.reply, reply_bytes := d.reply_bytes + e.reply_bytes } cfg w.unixtime
      generalize closeClientOnOutputBufferLimitReached _ cfg w.unixtime = d' at joined ⊢
      refine ⟨.refl _, fun {o} holds => .inl ⟨o, ?_, rfl, Nat.le_refl _⟩, fun _ => .inl, fun source => .inl ?_⟩
      · obtain ⟨x, xl, there, member⟩ := holds
        rcases updated_two there with ⟨-, rfl⟩ | ⟨-, rfl⟩ | there
        · cases member
        · rw [joined.1] at member
          exact (List.mem_append.mp member).elim (fun own => ⟨dst, d, target, own⟩)
            fun moved => ⟨src, e, origin, moved⟩
        · exact ⟨x, xl, there, member⟩
      · cases source with
        | value member => exact inv.sources (.value member)
        | buffer there same =>
          rcases updated_two there with ⟨-, rfl⟩ | ⟨-, rfl⟩ | there
          · exact inv.sources (.buffer origin same)
          · exact inv.sources (.buffer target (joined.2 ▸ same))
          · exact inv.sources (.buffer there same)
        | todo member used => exact todo _ member _ used

theorem trimReplyUnusedTailSpace_evolves {moved : Bool} (inv : w.Inv) (here : w.clients c = some cl)
    (clear : moved → ∀ tail ∈ (lastBlock cl.reply).filter ReplyBlock.wasteful,
      w.heap.Clear (.free tail.blk)) (todo : ∀ stmt ∈ rest, ∀ b ∈ stmt.sources, w.Plain b) :
    Evolves w (trimReplyUnusedTailSpace cfg moved w c cl rest) := by
  unfold trimReplyUnusedTailSpace
  cases last : lastBlock cl.reply with
  | none => exact .resume inv todo
  | some tail =>
    dsimp only
    split
    · rename_i wasteful
      cases moved with
      | false =>
        refine .put inv here (.refl _) rfl rfl (fun o member => .inl ?_) todo
        rcases List.mem_append.mp member with old | new
        · exact ⟨o, List.dropLast_subset _ old, rfl, Nat.le_refl _⟩
        · cases List.mem_singleton.mp new
          exact ⟨tail, lastBlock_mem last, rfl, Nat.le_refl _⟩
      | true =>
        have apart := clear rfl tail (by simp [last, wasteful])
        have released : w.heap.Spared ((w.heap.claim.memcpy ⟨w.heap.next, 0, tail.used⟩
            ⟨tail.blk, 0, tail.used⟩).release [tail.blk]) :=
          (inv.spared_fresh 0 tail.used _).trans (.release fun b freed t member =>
            List.mem_singleton.mp freed ▸ (apart t member).1)
        refine .put inv here released rfl rfl (fun o member => ?_) todo
        rcases List.mem_append.mp member with old | new
        · exact .inl ⟨o, List.dropLast_subset _ old, rfl, Nat.le_refl _⟩
        · cases List.mem_singleton.mp new
          exact .inr ⟨Nat.le_refl _, Nat.lt_succ_self _⟩
    · exact .resume inv todo

theorem addReplyDeferredLen_evolves (inv : w.Inv) (here : w.clients c = some cl)
    (todo : ∀ stmt ∈ rest, ∀ b ∈ stmt.sources, w.Plain b) :
    Evolves w (addReplyDeferredLen w c cl rest) := by
  refine .put inv here (.claim _) rfl rfl (fun o member => .inl ?_) todo
  rcases List.mem_append.mp member with old | new
  · exact ⟨o, old, rfl, Nat.le_refl _⟩
  · cases List.mem_singleton.mp new

theorem setDeferredReply_evolves (inv : w.Inv) (here : w.clients c = some cl) (plain : w.Plain s.blk)
    (todo : ∀ stmt ∈ rest, ∀ b ∈ stmt.sources, w.Plain b)
    (done : setDeferredReply w c cl node s rest = some w') : Evolves w w' := by
  have later : ∀ left : Span, left.blk = s.blk →
      ∀ stmt ∈ Stmt.glueDeferred c node left :: rest, ∀ b ∈ stmt.sources, w.Plain b :=
    fun left same => List.forall_mem_cons.mpr ⟨by simpa [Stmt.sources, same] using plain, todo⟩
  simp only [setDeferredReply, Option.map_eq_some_iff, Prod.exists] at done
  obtain ⟨before, after, found, rfl⟩ := done
  have whole := around_eq found
  cases last : lastBlock before with
  | none => exact .resume inv (later s rfl)
  | some prev =>
    have member : .block prev ∈ cl.reply := whole ▸ List.mem_append_left _ (lastBlock_mem last)
    have spared := inv.apart_tail ⟨c, cl, here, member⟩ (min (prev.size - prev.used) s.len)
    have inside : ∀ o, .block o ∈ before → .block o ∈ cl.reply :=
      fun o => whole ▸ List.mem_append_left _
    have behind : ∀ o, .block o ∈ after → .block o ∈ cl.reply :=
      fun o old => whole ▸ List.mem_append_right _ (List.mem_cons_of_mem _ old)
    dsimp only
    split
    · split
      · refine .put inv here (.store spared _) rfl rfl (fun o member => .inl ?_) todo
        rcases List.mem_append.mp member with front | back
        · obtain ⟨o', old, same⟩ := grown_tail last o front
          exact ⟨o', inside o' old, same⟩
        · exact ⟨o, behind o back, rfl, Nat.le_refl _⟩
      · refine .put inv here (.store spared _) rfl rfl (fun o member => .inl ?_) (later _ rfl)
        rcases List.mem_append.mp member with front | back
        · obtain ⟨o', old, same⟩ := grown_tail last o front
          exact ⟨o', inside o' old, same⟩
        · rcases List.mem_cons.mp back with placeholder | back
          · cases placeholder
          · exact ⟨o, behind o back, rfl, Nat.le_refl _⟩
    · exact .resume inv (later s rfl)

theorem glueDeferred_evolves (inv : w.Inv) (here : w.clients c = some cl) (plain : w.Plain s.blk)
    (clear : ∀ a ∈ Stmt.edits w moved (.glueDeferred c node s), w.heap.Clear a)
    (todo : ∀ stmt ∈ rest, ∀ b ∈ stmt.sources, w.Plain b)
    (done : glueDeferred cfg w c cl node s rest = some w') : Evolves w w' := by
  simp only [glueDeferred, Option.map_eq_some_iff, Prod.exists] at done
  obtain ⟨before, after, found, rfl⟩ := done
  have whole := around_eq found
  simp only [Stmt.edits, onClient, here, Option.elim_some, found, Option.bind_some] at clear
  cases takes : (firstBlock after).filter (·.takes s.len) with
  | some next =>
    simp only [takes, onBlock, Option.elim_some, List.mem_cons, List.not_mem_nil, or_false,
      forall_eq_or_imp, forall_eq] at clear
    exact .fill inv (.store (fun t member => (clear.2 t member).1) _) rfl
      (List.forall_mem_cons.mpr ⟨by simpa [Stmt.sources] using plain, todo⟩)
  | none =>
    have same := closeClient_same
    refine .put inv here (inv.spared_fresh 0 s.len _) rfl (same _ _ _).2 (fun o member => ?_) todo
    rw [(same _ _ _).1] at member
    rcases List.mem_append.mp member with front | back
    · exact .inl ⟨o, whole ▸ List.mem_append_left _ front, rfl, Nat.le_refl _⟩
    · rcases List.mem_cons.mp back with new | back
      · cases new
        exact .inr ⟨Nat.le_refl _, Nat.lt_succ_self _⟩
      · exact .inl ⟨o, whole ▸ List.mem_append_right _ (List.mem_cons_of_mem _ back), rfl, Nat.le_refl _⟩

theorem fillDeferred_evolves (inv : w.Inv) (here : w.clients c = some cl)
    (clear : ∀ a ∈ Stmt.edits w moved (.fillDeferred c node s), w.heap.Clear a)
    (todo : ∀ stmt ∈ rest, ∀ b ∈ stmt.sources, w.Plain b)
    (done : fillDeferred w c cl node s rest = some w') : Evolves w w' := by
  simp only [fillDeferred, Option.bind_eq_some_iff, Option.map_eq_some_iff, Prod.exists] at done
  obtain ⟨before, after, found, next, first, rfl⟩ := done
  have whole := around_eq found
  simp only [Stmt.edits, onClient, here, found, Option.bind_some, first, onBlock, Option.elim_some,
    List.mem_singleton, forall_eq] at clear
  refine .put inv here (.store (fun t member => (clear t member).1) _) rfl rfl
    (fun o member => .inl ?_) todo
  rw [whole]
  rcases List.mem_append.mp member with front | back
  · exact ⟨o, List.mem_append_left _ front, rfl, Nat.le_refl _⟩
  · rcases List.mem_cons.mp back with grown | back
    · cases grown
      exact ⟨next, List.mem_append_right _ (List.mem_cons_of_mem _ (firstBlock_mem first)), rfl,
        Nat.le_add_right _ _⟩
    · exact ⟨o, List.mem_append_right _ (List.mem_cons_of_mem _ (List.mem_of_mem_tail back)), rfl,
        Nat.le_refl _⟩

theorem setDeferredAggregateLen_evolves (inv : w.Inv)
    (todo : ∀ stmt ∈ rest, ∀ b ∈ stmt.sources, w.Plain b) :
    Evolves w (setDeferredAggregateLen w c node length pre rest) := by
  unfold setDeferredAggregateLen
  split
  · rename_i shared
    have known : pre ∈ sharedPrefixes := by
      simp only [sharedPrefixes, List.mem_cons, List.not_mem_nil, or_false] at shared ⊢
      tauto
    refine .resume inv (List.forall_mem_cons.mpr ⟨?_, todo⟩)
    simpa [Stmt.sources] using inv.texts (sharedHeader_shared known shared.1)
  · refine spell_evolves inv _ ?_
    simpa [Stmt.sources, World.spelled] using fun stmt member b used => .inr (todo stmt member b used)

theorem addReplyLongLongWithPrefix_evolves {ll : Int} (inv : w.Inv)
    (todo : ∀ stmt ∈ rest, ∀ b ∈ stmt.sources, w.Plain b) :
    Evolves w (addReplyLongLongWithPrefix w c ll pre rest) := by
  unfold addReplyLongLongWithPrefix
  split
  · rename_i shared
    refine .resume inv (List.forall_mem_cons.mpr ⟨?_, todo⟩)
    simpa [Stmt.sources] using inv.texts (sharedHeader_shared shared.2.2 (by omega))
  · refine spell_evolves inv _ ?_
    simpa [Stmt.sources, World.spelled] using fun stmt member b used => .inr (todo stmt member b used)

theorem copyClientOutputBuffer_evolves {d e : Client} (inv : w.Inv) (target : w.clients dst = some d)
    (clear : ∀ o ∈ blocksOf d.reply, w.heap.Clear (.free o.blk))
    (todo : ∀ stmt ∈ rest, ∀ b ∈ stmt.sources, w.Plain b) :
    Evolves w (copyClientOutputBuffer w dst src d e rest) := by
  refine .put inv target (.release fun b freed t member => ?_) rfl rfl (fun o => nofun)
    fun stmt member b used => ?_
  · obtain ⟨o, listed, rfl⟩ := List.mem_map.mp freed
    exact (clear o listed t member).1
  · rcases List.mem_append.mp member with dup | later
    · obtain ⟨n, -, rfl⟩ := List.mem_map.mp dup
      cases used
    · rcases List.mem_cons.mp later with rfl | later
      · cases used
      · exact todo stmt later b used

theorem dupClientReplyValue_evolves {d : Client} {n : ReplyNode} (inv : w.Inv)
    (target : w.clients dst = some d) (todo : ∀ stmt ∈ rest, ∀ b ∈ stmt.sources, w.Plain b) :
    Evolves w (dupClientReplyValue w dst d rest n) := by
  cases n with
  | deferred => exact stop_evolves inv
  | block o =>
    refine .put inv target (inv.spared_fresh 0 o.size _) rfl rfl (fun p member => ?_) todo
    rcases List.mem_append.mp member with old | new
    · exact .inl ⟨p, old, rfl, Nat.le_refl _⟩
    · cases List.mem_singleton.mp new
      exact .inr ⟨Nat.le_refl _, Nat.lt_succ_self _⟩

theorem copyBuffer_evolves {d e : Client} (inv : w.Inv) (target : w.clients dst = some d)
    (todo : ∀ stmt ∈ rest, ∀ b ∈ stmt.sources, w.Plain b) : Evolves w (copyBuffer w dst d e rest) := by
  have buffer : w.Plain d.buf := inv.sources (.buffer target rfl)
  exact .put_same inv target (.store (buffer.apart 0 e.bufpos) _) rfl rfl rfl todo

theorem write_evolves (inv : w.Inv) (here : w.clients c = some cl)
    (clear : ∀ a ∈ Stmt.edits w moved (.write c tot), w.heap.Clear a)
    (todo : ∀ stmt ∈ rest, ∀ b ∈ stmt.sources, w.Plain b)
    (done : write w c tot cl rest = some w') : Evolves w w' := by
  have resumed : ∀ stmt : Stmt, stmt.sources = [] → ∀ st ∈ stmt :: rest, ∀ b ∈ st.sources, w.Plain b :=
    fun stmt none => List.forall_mem_cons.mpr ⟨by simp [none], todo⟩
  unfold write at done
  split at done
  · cases done
    exact .resume inv (resumed _ rfl)
  · split at done
    · contradiction
    · cases reply : cl.reply with
      | nil => simp [reply] at done
      | cons n os =>
        cases n with
        | deferred =>
          simp only [reply, Option.some.injEq] at done
          exact done ▸ stop_evolves inv
        | block o =>
          simp only [reply, Option.ite_none_right_eq_some, Option.some.injEq] at done
          obtain ⟨empty, rfl⟩ := done
          have gone : w.heap.Clear (.free o.blk) := clear _ (by
            simp [Stmt.edits, onClient, here, firstBlock, reply, ReplyNode.block?, onBlock, freed,
              Option.filter, empty])
          refine .put inv here (.release fun b freed t member => ?_) rfl rfl (fun p member => .inl ?_)
            (resumed _ rfl)
          · exact List.mem_singleton.mp freed ▸ (gone t member).1
          · exact ⟨p, reply ▸ List.mem_cons_of_mem _ member, rfl, Nat.le_refl _⟩

theorem written_evolves (inv : w.Inv) (here : w.clients c = some cl)
    (todo : ∀ stmt ∈ rest, ∀ b ∈ stmt.sources, w.Plain b) :
    Evolves w (written w c cl failed rest) := by
  refine .put_same inv here (.refl _) rfl ?_ ?_ todo
  all_goals
    split
    · simp
    · split
      · rfl
      · split <;> simp

theorem exec_evolves {stmt : Stmt} (inv : w.Inv) (todo : w.todo = stmt :: rest)
    (clear : ∀ a ∈ Stmt.edits w moved stmt, w.heap.Clear a)
    (executed : exec cfg .copierGet moved w rest stmt = some w') : Evolves w w' := by
  have plain := inv.source todo
  have later := inv.rest todo
  have resumed : ∀ stmt : Stmt, stmt.sources = [] → ∀ st ∈ stmt :: rest, ∀ b ∈ st.sources, w.Plain b :=
    fun stmt none => List.forall_mem_cons.mpr ⟨by simp [none], later⟩
  cases exec_executed executed with
  | skipped => exact .resume inv later
  | addReply | addReplyProto => exact .resume inv (List.forall_mem_cons.mpr ⟨plain, later⟩)
  | addReplyInt c n =>
    refine spell_evolves inv _ ?_
    simpa [Stmt.sources, World.spelled] using fun stmt member b used =>
      .inr (later stmt member b used)
  | addReplyToBuffer c s here =>
    exact addReplyToBuffer_evolves inv here (plain _ List.mem_cons_self) later
  | addReplyProtoToList c s here =>
    exact addReplyProtoToList_evolves inv here (plain _ List.mem_cons_self) later
  | newBlock c s here => exact newBlock_evolves inv here (plain _ List.mem_cons_self) later
  | addReplyLongLongWithPrefix => exact addReplyLongLongWithPrefix_evolves inv later
  | addReplyBulkLongLong c ll =>
    have shared := inv.texts (b := 0) (by rw [texts_length]; decide)
    refine spell_evolves inv _ ?_
    simp only [addReplyBulkCBuffer, List.cons_append, List.nil_append, List.forall_mem_cons,
      Stmt.sources, List.mem_singleton, forall_eq, World.spelled, sharedCrlf]
    exact ⟨fun _ => nofun, .inl trivial, .inr shared, .inl trivial,
      fun stmt member b used => .inr (later stmt member b used)⟩
  | addReplyNull c here =>
    refine .resume inv (List.forall_mem_cons.mpr ⟨fun b used => inv.texts ?_, later⟩)
    cases List.mem_singleton.mp used
    rw [texts_length]
    split <;> decide
  | forgets b disposed =>
    rcases disposed with rfl | rfl <;> exact forget_evolves inv (plain b List.mem_cons_self) later
  | @abandoned _ d _ _ target =>
    exact .put_same inv target (.refl _) rfl (freeClientAsync_buf d) (freeClientAsync_reply d) later
  | @AddReplyFromClient _ e dst src target origin =>
    have buffer : w.Plain e.buf := inv.sources (.buffer origin rfl)
    exact .resume inv (List.forall_mem_cons.mpr ⟨by simpa [Stmt.sources] using buffer, resumed _ rfl⟩)
  | joinReply dst src target origin => exact joinReply_evolves inv target origin later
  | @trimReplyUnusedTailSpace cl c here allowed =>
    refine trimReplyUnusedTailSpace_evolves inv here (fun moves tail wasteful => clear _ ?_)
      (resumed _ rfl)
    have wasteful : (lastBlock cl.reply).filter ReplyBlock.wasteful = some tail := wasteful
    simp [Stmt.edits, onClient, here, allowed, moves, wasteful, onBlock]
  | addReplyDeferredLen c here => exact addReplyDeferredLen_evolves inv here later
  | setDeferredAggregateLen => exact setDeferredAggregateLen_evolves inv later
  | setDeferredReply c node s here done =>
    exact setDeferredReply_evolves inv here (plain _ List.mem_cons_self) later done
  | glueDeferred c node s here done =>
    exact glueDeferred_evolves inv here (plain _ List.mem_cons_self) clear later done
  | fillDeferred c node s here done => exact fillDeferred_evolves inv here clear later done
  | copyClientOutputBuffer dst src target =>
    refine copyClientOutputBuffer_evolves inv target (fun o listed => clear _ ?_) later
    simp only [Stmt.edits, onClient, target, Option.elim_some]
    exact List.mem_map_of_mem listed
  | dupClientReplyValue dst n target => exact dupClientReplyValue_evolves inv target later
  | copyBuffer dst src target => exact copyBuffer_evolves inv target later
  | write c tot here done => exact write_evolves inv here clear later done
  | written c failed here => exact written_evolves inv here later

/-- What was sent, the clock and whether the server stopped do not matter. -/
theorem Evolves.observe (evolves : Evolves w w') (sent : ℕ → Bytes) (now : ℕ) (stopped : Bool) :
    Evolves w { w' with sent := sent, unixtime := now, stopped := stopped } where
  spared := evolves.spared
  held holds := evolves.held holds
  tasks t member := (evolves.tasks t member).imp id fun ⟨fresh, fills, plain⟩ =>
    ⟨fresh, ⟨fills.known, fills.live, fills.inside⟩, plain⟩
  sources source := by
    refine (evolves.sources ?_).imp id fun plain => ⟨plain.known, plain.held, plain.unfilled⟩
    cases source with
    | value member => exact .value member
    | buffer here same => exact .buffer here same
    | todo member used => exact .todo member used

theorem advance_same (cl : Client) (n : ℕ) :
    (cl.advance n).1.buf = cl.buf ∧ ∀ o, .block o ∈ (cl.advance n).1.reply → .block o ∈ cl.reply := by
  unfold Client.advance
  dsimp only
  split
  · split <;> exact ⟨rfl, fun _ => id⟩
  · cases reply : cl.reply with
    | nil => exact ⟨rfl, fun _ member => reply ▸ member⟩
    | cons n os =>
      cases n with
      | deferred => exact ⟨rfl, fun _ member => reply ▸ member⟩
      | block o =>
        dsimp only
        split
        · exact ⟨rfl, fun _ => List.mem_cons_of_mem _⟩
        · exact ⟨rfl, fun _ member => reply ▸ member⟩

theorem sends_evolves (inv : w.Inv) (here : w.clients c = some cl)
    (todo : ∀ stmt ∈ rest, ∀ b ∈ stmt.sources, w.Plain b)
    (sent : sends cfg w c tot n used_memory cl rest = some w') : Evolves w w' := by
  simp only [sends, Option.bind_eq_bind, Option.bind_eq_some_iff, Option.ite_none_right_eq_some,
    Option.some.injEq, List.isEmpty_iff] at sent
  obtain ⟨span, -, ⟨-, -, drained⟩, rfl⟩ := sent
  have same := advance_same cl n
  refine .observe (.put inv here (.release fun b _ t member => ?_) rfl same.1
    (fun o member => .inl ⟨o, same.2 o member, rfl, Nat.le_refl _⟩)
    (List.forall_mem_cons.mpr ⟨?_, todo⟩)) _ w.unixtime _
  · exact absurd (drained ▸ member) List.not_mem_nil
  · split <;> exact fun _ => nofun

theorem createClient_evolves {conn bound : Bool} (inv : w.Inv)
    (created : createClient w c conn bound = some w') : Evolves w w' := by
  simp only [createClient, Option.ite_none_right_eq_some, Option.some.injEq,
    Option.isNone_iff_eq_none] at created
  obtain ⟨absent, rfl⟩ := created
  have held : ∀ o, (w.put w.heap.claim c ⟨conn, bound, 2, [], w.heap.next, 0, 0, [], 0, 0⟩ []).Holds o →
      w.Holds o := by
    intro o holds
    rcases put_holds holds with own | old
    · cases own
    · exact old
  refine ⟨.claim _, fun {o} holds => .inl ⟨o, held o holds, rfl, Nat.le_refl _⟩, fun _ => .inl,
    fun source => ?_⟩
  cases source with
  | value member => exact .inl (inv.sources (.value member))
  | @buffer d dl found same =>
    rcases World.put_found found with ⟨-, rfl⟩ | ⟨-, there⟩
    · rw [← same]
      exact .inr ⟨Nat.lt_succ_self _, fun holds => Nat.ne_of_lt (inv.blocks (held _ holds)),
        fun t member => Nat.ne_of_lt (inv.fills t member).known⟩
    · exact .inl (inv.sources (.buffer there same))
  | todo member => cases member

theorem freeClient_evolves (inv : w.Inv) (here : w.clients c = some cl)
    (clear : ∀ o ∈ blocksOf cl.reply, w.heap.Clear (.free o.blk)) :
    Evolves w (freeClient w c cl) := by
  have older : ∀ d dl, (freeClient w c cl).clients d = some dl → w.clients d = some dl := by
    intro d dl found
    rcases Runs.updated_found found with ⟨-, gone⟩ | ⟨-, there⟩
    · cases gone
    · exact there
  refine ⟨.release fun b freed t member => ?_,
    fun {o} ⟨d, dl, there, member⟩ => .inl ⟨o, ⟨d, dl, older d dl there, member⟩, rfl, Nat.le_refl _⟩,
    fun _ => .inl, fun source => .inl ?_⟩
  · rcases List.mem_cons.mp freed with rfl | node
    · exact (inv.sources (.buffer here rfl)).unfilled t member
    · obtain ⟨o, listed, rfl⟩ := List.mem_map.mp node
      exact (clear o listed t member).1
  · cases source with
    | value member => exact inv.sources (.value member)
    | buffer there same => exact inv.sources (.buffer (older _ _ there) same)
    | todo member used => exact inv.sources (.todo member used)

/-- Every statement reads what is plain. -/
def Reads (w : World) (stmts : List Stmt) : Prop := ∀ stmt ∈ stmts, ∀ b ∈ stmt.sources, w.Plain b

theorem Reads.nil : Reads w [] := nofun

theorem Reads.quiet (none_ : stmt.sources = []) (rest : Reads w stmts) : Reads w (stmt :: stmts) := by
  refine List.forall_mem_cons.mpr ⟨fun b used => ?_, rest⟩
  rw [none_] at used
  cases used

theorem Reads.one (source : stmt.sources = [b]) (plain : w.Plain b) (rest : Reads w stmts) :
    Reads w (stmt :: stmts) := by
  refine List.forall_mem_cons.mpr ⟨fun c used => ?_, rest⟩
  rw [source] at used
  exact List.mem_singleton.mp used ▸ plain

theorem Reads.block {place : Option ℕ} {f : ℕ → Stmt} (plain : ∀ n, ∀ b ∈ (f n).sources, w.Plain b) :
    Reads w (place.toList.map f) := by
  intro stmt member
  obtain ⟨n, -, rfl⟩ := List.mem_map.mp member
  exact plain n

/-- Callers hand over what is plain. -/
theorem body_plain (inv : w.Inv) {op : Op} (allowed : op.Allowed w) : Reads w op.body := by
  have shared : w.Plain sharedCrlf.blk := inv.texts (by rw [texts_length]; decide)
  have usable : ∀ {b}, (b ∈ w.values ∨ b < texts.length) → w.Plain b :=
    fun held => held.elim (fun value => inv.sources (.value value)) inv.texts
  have owned : ∀ {b}, b ∈ w.values → w.Plain b := fun value => inv.sources (.value value)
  have crlf : ∀ {c}, Reads w [.addReply c (.sds sharedCrlf)] := .one rfl shared .nil
  have bulk : ∀ {c} {s : Span}, w.Plain s.blk → Reads w (addReplyBulkCBuffer c s) :=
    fun plain => .quiet rfl (.one rfl plain crlf)
  cases op with
  | addReply c obj =>
    cases obj with
    | sds s => exact .one rfl (usable allowed) .nil
    | int n => exact .quiet rfl .nil
  | addReplySds c s => exact .one rfl (owned allowed) (.one rfl (owned allowed) .nil)
  | addReplyProto c s => exact .one rfl (usable allowed) .nil
  | addReplyBulk c obj =>
    cases obj with
    | sds s => exact .quiet rfl (.one rfl (usable allowed) crlf)
    | int n => exact .quiet rfl (.quiet rfl crlf)
  | addReplyBulkCBuffer c s => exact bulk (usable allowed)
  | addReplyBulkSds c s =>
    exact .quiet rfl (.one rfl (owned allowed) (.one rfl (owned allowed) crlf))
  | addReplyBulkCString c s =>
    cases s with
    | none => exact .quiet rfl .nil
    | some s => exact bulk (usable allowed)
  | setDeferredReply c node s =>
    exact .block fun n b used => List.mem_singleton.mp used ▸ usable allowed
  | setDeferredAggregateLen c node length pre => exact .block fun n b => nofun
  | addReplyLongLongWithPrefix c ll pre | addReplyBulkLongLong c ll | AddReplyFromClient dst src
  | addReplyDeferredLen c | copyClientOutputBuffer dst src => exact .quiet rfl .nil

theorem idle_evolves {l : Label} (inv : w.Inv)
    (clear : ∀ a ∈ edits w l, w.heap.Clear a) (acted : idle w l = some w') : Evolves w w' := by
  have nothing : ∀ stmt ∈ w.todo, ∀ b ∈ stmt.sources, w.Plain b :=
    fun stmt member _ used => inv.sources (.todo member used)
  cases l with
  | call op =>
    simp only [Reply.idle, Option.ite_none_right_eq_some, Option.some.injEq] at acted
    obtain ⟨allowed, rfl⟩ := acted
    exact .resume inv (body_plain inv allowed)
  | writeToClient c =>
    simp only [Reply.idle, Option.bind_eq_some_iff, Option.ite_none_right_eq_some,
      Option.some.injEq] at acted
    obtain ⟨cl, here, conn, rfl⟩ := acted
    exact .resume inv (by simp [Stmt.sources])
  | acceptCommonHandler c | createClient c conn => exact createClient_evolves inv acted
  | configure c flags resp =>
    simp only [Reply.idle, Option.map_eq_some_iff] at acted
    obtain ⟨cl, here, rfl⟩ := acted
    exact .put_same inv here (.refl _) rfl rfl rfl (fun _ => nofun)
  | freeClient c =>
    simp only [Reply.idle, Option.map_eq_some_iff] at acted
    obtain ⟨cl, here, rfl⟩ := acted
    refine freeClient_evolves inv here fun o listed => clear _ ?_
    simp only [edits, onClient, here, Option.elim_some]
    exact List.mem_map_of_mem listed
  | create len fill =>
    cases acted
    exact .keep inv len fill fun stmt member b used => .inr (nothing stmt member b used)
  | overwrite s fill =>
    simp only [Reply.idle, Option.ite_none_right_eq_some, Option.some.injEq] at acted
    obtain ⟨owned, rfl⟩ := acted
    have plain : w.Plain s.blk := inv.sources (.value owned)
    exact .fill inv (.store (plain.apart s.off s.len) fill) rfl nothing
  | delete b =>
    simp only [Reply.idle, Option.ite_none_right_eq_some, Option.some.injEq] at acted
    obtain ⟨owned, rfl⟩ := acted
    exact forget_evolves inv (inv.sources (.value owned)) (fun _ => nofun)
  | tick now =>
    cases acted
    exact .observe (.resume inv nothing) w.sent now w.stopped
  | _ => simp [Reply.idle] at acted

end Functions

/-- The ways to take a step. -/
inductive Stepped (cfg : Config) (v : Variant) (w : World) : Label → World → Prop
  | service (served : Reply.service w = some w') : Stepped cfg v w .service w'
  | reuse (known : s.blk < w.heap.next) (dead : s.blk ∉ w.heap.live) :
      Stepped cfg v w (.reuse s fill) { w with heap := w.heap.store s fill }
  | exec (todo : w.todo = stmt :: rest) (executed : Reply.exec cfg v moved w rest stmt = some w') :
      Stepped cfg v w (.step moved) w'
  | wrote (todo : w.todo = .write c tot :: rest) (here : w.clients c = some cl)
      (sent : sends cfg w c tot n used_memory cl rest = some w') :
      Stepped cfg v w (.wrote n used_memory) w'
  | refused (todo : w.todo = .write c tot :: rest) (here : w.clients c = some cl)
      (asked : cl.outgoing.isSome) :
      Stepped cfg v w (.refused failed) { w with todo := .written c failed :: rest }
  | idle (todo : w.todo = []) (acted : Reply.idle w l = some w') : Stepped cfg v w l w'

theorem step_iff {cfg : Config} {v : Variant} {w w' : World} {l : Label} :
    step cfg v w l = some w' ↔ w.stopped = false ∧ Stepped cfg v w l w' := by
  constructor
  · intro stepped
    unfold step at stepped
    split at stepped
    · contradiction
    · rename_i running
      refine ⟨by simpa using running, ?_⟩
      split at stepped
      · exact .service stepped
      · simp only [Option.ite_none_right_eq_some, Option.some.injEq] at stepped
        obtain ⟨⟨known, dead⟩, rfl⟩ := stepped
        exact .reuse known dead
      · exact .exec ‹_› stepped
      · simp only [Option.bind_eq_some_iff] at stepped
        obtain ⟨cl, here, sent⟩ := stepped
        exact .wrote ‹_› here sent
      · simp only [Option.bind_eq_some_iff, Option.ite_none_right_eq_some, Option.some.injEq] at stepped
        obtain ⟨cl, here, asked, rfl⟩ := stepped
        exact .refused ‹_› here asked
      · exact .idle ‹_› stepped
      · contradiction
  · rintro ⟨running, stepped⟩
    unfold step
    rw [if_neg (by simp [running])]
    cases stepped with
    | service served => exact served
    | reuse known dead =>
      dsimp only
      exact if_pos (And.intro known dead)
    | exec todo executed =>
      simp only [todo]
      exact executed
    | wrote todo here sent =>
      simp only [todo, here, Option.bind_some]
      exact sent
    | refused todo here asked =>
      simp only [todo, here, Option.bind_some, asked, if_true]
    | idle todo acted =>
      rw [todo]
      cases l with
      | service | reuse => simp [Reply.idle] at acted
      | _ => exact acted

section Runs
variable {cfg : Config} {w w' : World} {l : Label}

theorem step_evolves (inv : w.Inv) (clear : Arrived w l) (other : l.isService = false)
    (stepped : step cfg .copierGet w l = some w') : Evolves w w' := by
  cases (step_iff.mp stepped).2 with
  | service => contradiction
  | @reuse s fill known dead =>
    refine .fill inv (.store (fun t member => Deferred.Span.not_overlaps_blk ?_) fill) rfl
      fun stmt member _ used => inv.sources (.todo member used)
    exact fun same => dead (same ▸ (inv.fills t member).live)
  | exec todo executed =>
    refine exec_evolves inv todo (fun a edit => clear a ?_) executed
    simp only [edits, todo, List.head?_cons, Option.elim_some]
    exact edit
  | wrote todo here sent => exact sends_evolves inv here (inv.rest todo) sent
  | refused todo here asked =>
    exact .resume inv (List.forall_mem_cons.mpr ⟨fun _ => nofun, inv.rest todo⟩)
  | idle todo acted => exact idle_evolves inv clear acted

/-- Without receives the service takes whole tasks off the queue. -/
theorem serve_tail {h h' : Heap} {report : Option (Empty × ℕ)} (served : h.serve = some (h', report)) :
    ∃ t, h.ring = t :: h'.ring := by
  cases Deferred.Heap.serve_served served with
  | copied _ _ _ _ _ rest pending => exact ⟨_, pending⟩
  | emptied tag => exact tag.elim
  | delivered tag => exact tag.elim

/-- The block that the service fills is live. -/
theorem service_serves (inv : w.Inv) (served : service w = some w') :
    ∃ h report, w.heap.serve = some (h, report) ∧ w' = { w with heap := h } := by
  unfold service at served
  split at served
  · contradiction
  · rename_i t ts pending
    rw [if_pos (inv.fills t (pending ▸ List.mem_cons_self)).live] at served
    simp only [Option.map_eq_some_iff, Prod.exists] at served
    obtain ⟨h, report, served, rfl⟩ := served
    exact ⟨h, report, served, rfl⟩

theorem service_inv (inv : w.Inv) (served : service w = some w') : w'.Inv := by
  obtain ⟨h, report, ran, rfl⟩ := service_serves inv served
  obtain ⟨u, ring⟩ := serve_tail ran
  obtain ⟨next, live⟩ := Deferred.Heap.serve_live ran
  have older : ∀ v ∈ h.ring, v ∈ w.heap.ring := fun v member => ring ▸ List.mem_cons_of_mem _ member
  have plain : ∀ {b}, w.Plain b → World.Plain { w with heap := h } b := fun before =>
    ⟨by simpa only [next] using before.known, before.held,
      fun v member => before.unfilled v (older v member)⟩
  refine ⟨fun holds => ?_, fun v member => ?_, fun v member => plain (inv.reads v (older v member)),
    fun shared => plain (inv.texts shared), fun source => plain (inv.sources ?_)⟩
  · simpa only [next] using inv.blocks holds
  · have before := inv.fills v (older v member)
    exact ⟨by simpa only [next] using before.known, by simpa only [live] using before.live,
      before.inside⟩
  · cases source with
    | value member => exact .value member
    | buffer here same => exact .buffer here same
    | todo member used => exact .todo member used

theorem init_holds {o : ReplyBlock} : ¬ Reply.init.Holds o := by
  rintro ⟨_, _, there, -⟩
  cases there

theorem World.Inv.init : Reply.init.Inv where
  blocks holds := (init_holds holds).elim
  fills _ := nofun
  reads _ := nofun
  texts shared := ⟨shared, fun holds => (init_holds holds).elim, fun _ => nofun⟩
  sources source := by
    cases source with
    | value member => cases member
    | buffer there => cases there
    | todo member => cases member

theorem World.Inv.step (inv : w.Inv) (clear : Arrived w l)
    (stepped : Reply.step cfg .copierGet w l = some w') : w'.Inv := by
  by_cases served : l.isService
  · cases l with
    | service =>
      cases (step_iff.mp stepped).2 with
      | service served => exact service_inv inv served
      | idle _ acted => simp [Reply.idle] at acted
    | _ => cases served
  · exact (step_evolves inv clear (by simpa using served) stepped).inv inv

/-- A step of the server's own leaves the blocks that pending copies are to fill in
place and as they are, and moves or duplicates only bytes that are there. -/
def Intact (cfg : Config) (w : World) (l : Label) : Prop :=
  l.isService = false → ∀ w', step cfg .copierGet w l = some w' →
    w.heap.Spared w'.heap ∧
      ∀ s, .read s ∈ edits w l → ∀ i, s.Has s.blk i → w.heap.mem s.blk i = w.heap.settled s.blk i

end Runs

end Copier.Redis.Reply
