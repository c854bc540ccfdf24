import Copier.Redis.Server

/-! What each step of the server thread does to memory that the service may
still be working on: the bytes it looks at, and the bytes it writes, moves or
frees. A step is steady when the latter meet no pending task, and undisturbed
when neither do. -/
namespace Copier.Redis.Server
open Deferred (Mem Span Task Access)

def Client.bigArgMoves (a : Allocation) (cl : Client) (ll pos : ℕ) : List Access :=
  let s := cl.querybuf
  if trimsForBigArg ll s.len pos then
    sdsrangeAccesses s pos ++
      sdsMakeRoomForAccesses a { s with len := s.len - pos } (ll + 2 - (s.len - pos))
  else []

def Client.trimMoves (v : Variant) (cl : Client) : List Access :=
  match v with
  | .copierSet => []
  | .multiClient =>
      if cl.parser.qb_pos = 0 then [] else sdsrangeAccesses cl.querybuf cl.parser.qb_pos

def Client.performMoves (v : Variant) (a : Allocation) (cl : Client) : Action → List Access
  | .bulkLength ll pos => cl.bigArgMoves a ll pos
  | .take bulklen =>
      if handsOver cl.parser cl.querybuf.len bulklen then [.write ⟨cl.querybuf.blk, bulklen, 1⟩]
      else []
  | .trimToPos => cl.trimMoves v
  | _ => []

/-- The blocks that `execute` frees once the command has run. -/
def releases (w : World) (cl : Client) (o : Outcome) (argv : List Obj) : List ℕ :=
  (if o.dead || o.resets (commandOf w cl) then argBlocks argv else []) ++
    if o.dead then [cl.querybuf.blk] else []

def executeMoves (a : Allocation) (w : World) (cl : Client) (o : Outcome) : List Access :=
  let script := scriptOf w cl o
  script.moves a (w.memory cl) ++
    freed (releases w cl o (script.exec a (w.memory cl)).1.strings.argv)

def eventMoves (a : Allocation) (w : World) : Event → List Access
  | .readable c _ => match w.clients c with
    | some cl => sdsMakeRoomForAccesses a cl.querybuf (cl.parser.readlen cl.querybuf.len)
    | none => []
  | .unblock c => match w.clients c with
    | some cl => freed cl.unblockFrees
    | none => []
  | .disconnect c => match w.clients c with
    | some cl => freed (cl.querybuf.blk :: argBlocks cl.argv)
    | none => []
  | .cron c => match w.clients c with
    | some cl => if resizes cl.querybuf then sdsRemoveFreeSpaceAccesses a cl.querybuf else []
    | none => []
  | .expire key => freed (argBlocks (w.db key).toList)
  | .accept _ _ => []
  | .reprocess _ => []

/-- What the step of that label writes and frees, and what it reads to move it. -/
def moves (cfg : Config) (v : Variant) (w : World) : Label → List Access
  | .service => []
  | .internal a => match w.site with
    | .running c pc => match w.clients c with
      | some cl => cl.performMoves v a (cl.action cfg w pc)
      | none => []
    | .terminate c => match w.clients c with
      | some cl => [.write ⟨cl.querybuf.blk, cl.querybuf.len, 1⟩]
      | none => []
    | _ => []
  | .input a (.command o) => match w.site with
    | .running c _ => match w.clients c with
      | some cl => executeMoves a w cl o
      | none => []
    | _ => []
  | .input a (.event e) => eventMoves a w e

/-- The part of the query buffer that the code at `pc` inspects. -/
def Client.inspects (h : Heap) (cl : Client) (pc : Pc) : Span :=
  ⟨cl.querybuf.blk, cl.parser.qb_pos, inspected (cl.view h) cl.fuel cl.parser pc⟩

/-- The argument that is copied at once, if the action is to take a short one. -/
def Client.copiesNow (cl : Client) : Action → Span
  | .take bulklen =>
      if handsOver cl.parser cl.querybuf.len bulklen then ⟨cl.querybuf.blk, 0, 0⟩
      else if bulklen ≤ OBJ_ENCODING_EMBSTR_SIZE_LIMIT then
        ⟨cl.querybuf.blk, cl.parser.qb_pos, bulklen⟩
      else ⟨cl.querybuf.blk, 0, 0⟩
  | _ => ⟨cl.querybuf.blk, 0, 0⟩

/-- The command's name, and what the command itself reads. -/
def executeLooks (a : Allocation) (w : World) (cl : Client) (o : Outcome) : List Access :=
  (cl.argv.take 1).flatMap Obj.reads ++ (scriptOf w cl o).looks a (w.memory cl)

/-- What the step of that label reads to act on it. -/
def looks (cfg : Config) (w : World) : Label → List Access
  | .internal _ => match w.site with
    | .running c pc => match w.clients c with
      | some cl => [.read (cl.inspects w.heap pc), .read (cl.copiesNow (cl.action cfg w pc))]
      | none => []
    | _ => []
  | .input a (.command o) => match w.site with
    | .running c pc => match w.clients c with
      | some cl => .read (cl.inspects w.heap pc) :: executeLooks a w cl o
      | none => []
    | _ => []
  | _ => []

/-- The length of the copy that a step submits, if it submits one. -/
def Client.submits (v : Variant) (cl : Client) : Action → ℕ
  | .take bulklen => if handsOver cl.parser cl.querybuf.len bulklen then 0 else bulklen
  | .trimToPos => match v with
    | .copierSet => cl.querybuf.len - cl.parser.qb_pos
    | .multiClient => 0
  | _ => 0

def submitted (cfg : Config) (v : Variant) (w : World) : Label → ℕ
  | .internal _ => match w.site with
    | .running c pc => match w.clients c with
      | some cl => cl.submits v (cl.action cfg w pc)
      | none => 0
    | _ => 0
  | _ => 0

/-- Nothing the step writes, moves or frees meets a pending task, and a copy it
submits has a length that fits the queue entry. -/
structure Steady (cfg : Config) (v : Variant) (w : World) (l : Label) : Prop where
  clear : ∀ access ∈ moves cfg v w l, w.heap.Clear access
  short : submitted cfg v w l < 2 ^ 31

/-- Moreover, nothing it looks at is still to be written. -/
structure Undisturbed (cfg : Config) (v : Variant) (w : World) (l : Label) : Prop
    extends Steady cfg v w l where
  landed : ∀ access ∈ looks cfg w l, w.heap.Clear access

instance (cfg : Config) (v : Variant) (w : World) (l : Label) : Decidable (Steady cfg v w l) :=
  decidable_of_iff ((∀ access ∈ moves cfg v w l, w.heap.Clear access) ∧
      submitted cfg v w l < 2 ^ 31)
    ⟨fun ⟨clear, short⟩ => ⟨clear, short⟩, fun ⟨clear, short⟩ => ⟨clear, short⟩⟩

instance (cfg : Config) (v : Variant) (w : World) (l : Label) :
    Decidable (Undisturbed cfg v w l) :=
  decidable_of_iff (Steady cfg v w l ∧ ∀ access ∈ looks cfg w l, w.heap.Clear access)
    ⟨fun ⟨steady, landed⟩ => ⟨steady, landed⟩, fun ⟨steady, landed⟩ => ⟨steady, landed⟩⟩

end Copier.Redis.Server
