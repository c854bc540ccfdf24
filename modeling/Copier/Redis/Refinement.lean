import Copier.Redis.Invariant

/-! Undisturbed steps do in the settled world what the original server does. The
parser sees the bytes it would see there, because none of those it inspects is
still on its way; what it submits settles to what the original copies at once. -/
namespace Copier.Redis.Server
open Deferred (Mem Span Task Access)

section Refinement
variable {cfg : Config} {v : Variant} {w w' : World} {h : Heap} {cl cl' : Client}
  {a : Allocation} {handed : List (ℕ × List Bytes)}

theorem settled_view
    (terminated : w.heap.settled cl.querybuf.blk cl.querybuf.len = NUL)
    (bound : i ≤ cl.querybuf.len) :
    (cl.settled w.heap.settled).view i = w.heap.settled cl.querybuf.blk i := by
  simp only [Client.settled, Original.Client.view]
  by_cases inside : i < cl.querybuf.len
  · rw [Sds.bytes, getD_slice _ (by omega), Nat.zero_add]
  · rw [show i = cl.querybuf.len by omega, terminated, List.getD_eq_getElem?_getD,
      List.getElem?_eq_none (Nat.le_of_eq (length_bytes _ _))]
    rfl

/-- Nothing beyond the terminator is inspected. -/
theorem inspected_bound
    (terminated : w.heap.settled cl.querybuf.blk cl.querybuf.len = NUL)
    (bound : cl.parser.qb_pos ≤ cl.querybuf.len)
    (landed : w.heap.Clear (.read (cl.inspects w.heap pc))) :
    cl.parser.qb_pos + inspected (cl.view w.heap) cl.fuel cl.parser pc ≤ cl.querybuf.len + 1 := by
  by_contra past
  have here : cl.view w.heap cl.querybuf.len = NUL := by
    have settled := Deferred.Heap.mem_eq_settled_of_clear landed (b := cl.querybuf.blk)
      (i := cl.querybuf.len) ⟨rfl, bound, by simp only [Client.inspects]; omega⟩
    exact settled.trans terminated
  cases sought : scannedFor cl.parser pc with
  | none =>
    unfold inspected at past
    rw [sought] at past
    dsimp only at past
    split at past <;> omega
  | some c =>
    have stop : scan (cl.view w.heap) c cl.fuel cl.parser.qb_pos ≤ cl.querybuf.len :=
      scan_stops (.inr here) bound
    rw [inspected_scan sought] at past
    omega

theorem action_settled (cfg : Config) (handed : List (ℕ × List Bytes)) (inv : Inv w) (here : w.clients c = some cl)
    (terminated : w.heap.settled cl.querybuf.blk cl.querybuf.len = NUL)
    (bound : cl.parser.qb_pos ≤ cl.querybuf.len)
    (landed : w.heap.Clear (.read (cl.inspects w.heap pc))) :
    (cl.settled w.heap.settled).action cfg (w.settled handed) pc = cl.action cfg w pc := by
  have fits := inv.layout.fits here
  have range := inspected_bound terminated bound landed
  have length : (cl.settled w.heap.settled).querybuf.length = cl.querybuf.len :=
    length_bytes _ _
  have argc : (cl.settled w.heap.settled).argv.length = cl.argv.length := List.length_map _
  have same : control cfg w.luaTimedout (cl.settled w.heap.settled).view
      (cl.querybuf.len + 1 - cl.parser.qb_pos) cl.querybuf.len cl.argv.length cl.parser pc =
      cl.action cfg w pc := by
    refine control_congr (e := cl.querybuf.len) cfg w.luaTimedout cl.querybuf.len cl.argv.length
      (fun j low high => ?_) ?_ bound (by simp only [Client.fuel]; omega) (by omega)
    · rw [settled_view terminated (by omega)]
      exact Deferred.Heap.mem_eq_settled_of_clear landed ⟨rfl, low, high⟩
    · rw [settled_view terminated (Nat.le_refl _), terminated]
  unfold Original.Client.action
  rw [length, argc]
  exact same

/-- Both sides hold the tail of the same stream from the same place. -/
theorem settled_eq {o : Original.Client} (tail : cl.Tail h) (sound : o.Sound)
    (parser : cl.parser = o.parser) (stream : cl.stream = o.stream) (base : cl.base = o.base)
    (argv : cl.argv.map (Obj.bytes h.settled) = o.argv) : cl.settled h.settled = o := by
  have buffer : cl.querybuf.bytes h.settled = o.querybuf := by
    rw [tail, sound.tail, stream, base]
  cases o
  simp only [Client.settled, parser, stream, base, argv, buffer]

theorem args_settled (inv : Inv w) (here : w.clients c = some cl)
    (shape : Reshaped w.heap h cl.querybuf t bytes) :
    cl.argv.map (Obj.bytes h.settled) = cl.argv.map (Obj.bytes w.heap.settled) :=
  List.map_congr_left fun _ member => Obj.bytes_congr fun _ same =>
    settled_held inv.layout here shape (.inl ⟨c, cl, here, same ▸ member⟩)

theorem take_fields (a : Allocation) (h : Heap) (cl : Client) (m : Mem UInt8) (bulklen : ℕ) :
    (cl.take a h bulklen).2.parser = ((cl.settled m).take bulklen).parser ∧
      (cl.take a h bulklen).2.stream = ((cl.settled m).take bulklen).stream ∧
      (cl.take a h bulklen).2.base = ((cl.settled m).take bulklen).base := by
  simp only [Client.take, Original.Client.take, Client.settled, length_bytes]
  split
  · exact ⟨rfl, rfl, rfl⟩
  · split <;> exact ⟨rfl, rfl, rfl⟩

theorem take_argv (a : Allocation) (h : Heap) (cl : Client) (bulklen : ℕ) :
    (cl.take a h bulklen).2.argv = cl.argv ++
      [if handsOver cl.parser cl.querybuf.len bulklen then .sds { cl.querybuf with len := bulklen }
        else if bulklen ≤ OBJ_ENCODING_EMBSTR_SIZE_LIMIT then
          .value (slice (cl.view h) cl.parser.qb_pos (cl.parser.qb_pos + bulklen))
        else .sds (sdsnewlenCopyer a h cl.querybuf.blk cl.parser.qb_pos bulklen).2] := by
  unfold Client.take
  dsimp only
  split
  · rfl
  · split <;> rfl

theorem take_heap (a : Allocation) (h : Heap) (cl : Client) (bulklen : ℕ) :
    (cl.take a h bulklen).1 =
      if handsOver cl.parser cl.querybuf.len bulklen then
        (sdsnewlenCleared a (h.store ⟨cl.querybuf.blk, bulklen, 1⟩ terminator) (bulklen + 2)).1
      else if bulklen ≤ OBJ_ENCODING_EMBSTR_SIZE_LIMIT then h
      else (sdsnewlenCopyer a h cl.querybuf.blk cl.parser.qb_pos bulklen).1 := by
  unfold Client.take
  dsimp only
  split
  · rfl
  · split <;> rfl

theorem original_take_argv (m : Mem UInt8) (cl : Client) (bulklen : ℕ) :
    ((cl.settled m).take bulklen).argv = cl.argv.map (Obj.bytes m) ++
      [if handsOver cl.parser cl.querybuf.len bulklen then (cl.querybuf.bytes m).take bulklen
        else slice (cl.settled m).view cl.parser.qb_pos (cl.parser.qb_pos + bulklen)] := by
  simp only [Original.Client.take, Client.settled, length_bytes]
  split <;> rfl

theorem take_args (inv : Inv w) (here : w.clients c = some cl)
    (terminated : w.heap.settled cl.querybuf.blk cl.querybuf.len = NUL)
    (clear : ∀ access ∈ cl.performMoves v a (.take bulklen), w.heap.Clear access)
    (short : cl.submits v (.take bulklen) < 2 ^ 31)
    (landed : w.heap.Clear (.read (cl.copiesNow (.take bulklen))))
    (within : cl.parser.qb_pos + bulklen + 2 ≤ cl.querybuf.len) :
    (cl.take a w.heap bulklen).2.argv.map (Obj.bytes (cl.take a w.heap bulklen).1.settled) =
      ((cl.settled w.heap.settled).take bulklen).argv := by
  have wf := inv.layout.wf
  have live := inv.layout.live here
  have named := wf.named _ live
  have old := args_settled inv here (take_moved (a := a) inv here terminated clear short).1.shape
  have sliced : slice (cl.settled w.heap.settled).view cl.parser.qb_pos
      (cl.parser.qb_pos + bulklen) =
      slice (w.heap.settled cl.querybuf.blk) cl.parser.qb_pos (cl.parser.qb_pos + bulklen) :=
    slice_congr fun i _ high => (settled_view terminated (by omega)).symm
  rw [original_take_argv, take_argv, List.map_append, old, sliced, take_heap, List.map_singleton]
  refine congrArg (fun arg => _ ++ [arg]) ?_
  simp only [Client.performMoves] at clear
  simp only [Client.submits] at short
  simp only [Client.copiesNow] at landed
  by_cases hands : handsOver cl.parser cl.querybuf.len bulklen
  · -- the terminator lies behind the argument, and the new buffer elsewhere
    simp only [hands, if_true, List.forall_mem_cons] at clear ⊢
    have fresh := sdsnewlenCleared_created (a := a)
      (wf.store ⟨cl.querybuf.blk, bulklen, 1⟩ terminator) (bulklen + 2)
    simp only [Obj.bytes, Sds.bytes]
    rw [take_slice _ (by omega), Nat.zero_add]
    refine slice_congr fun i _ high => ?_
    rw [fresh.frame _ named, Deferred.Heap.settled_store clear.1, Deferred.store_off]
    rintro ⟨-, low, -⟩
    exact Nat.not_le_of_lt high low
  · simp only [hands, if_false, Bool.false_eq_true] at short landed ⊢
    split
    · rename_i small
      rw [if_pos small] at landed
      refine slice_congr fun i low high => ?_
      exact (Deferred.Heap.mem_eq_settled_of_clear landed ⟨rfl, low, high⟩).symm
    · exact (sdsnewlenCopyer_created (a := a) cl.parser.qb_pos wf live short).reads

theorem take_settled (inv : Inv w) (here : w.clients c = some cl)
    (terminated : w.heap.settled cl.querybuf.blk cl.querybuf.len = NUL)
    (clear : ∀ access ∈ cl.performMoves v a (.take bulklen), w.heap.Clear access)
    (short : cl.submits v (.take bulklen) < 2 ^ 31)
    (landed : w.heap.Clear (.read (cl.copiesNow (.take bulklen))))
    (sound : (cl.settled w.heap.settled).Sound)
    (within : cl.parser.qb_pos + bulklen + 2 ≤ cl.querybuf.len) :
    (cl.take a w.heap bulklen).2.settled (cl.take a w.heap bulklen).1.settled =
      (cl.settled w.heap.settled).take bulklen := by
  have moved := (take_moved (a := a) inv here terminated clear short).1
  have length : (cl.settled w.heap.settled).querybuf.length = cl.querybuf.len := length_bytes _ _
  obtain ⟨parser, stream, base⟩ := take_fields a w.heap cl w.heap.settled bulklen
  exact settled_eq (moved.tail (inv.tail here)) (sound.take (by rw [length]; exact within)) parser
    stream base (take_args inv here terminated clear short landed within)

theorem trimForBigArg_settled {p : Parser} (inv : Inv w) (here : w.clients c = some cl)
    (terminated : w.heap.settled cl.querybuf.blk cl.querybuf.len = NUL)
    (trims : trimsForBigArg ll cl.querybuf.len pos = true)
    (clear : ∀ access ∈ cl.bigArgMoves a ll pos, w.heap.Clear access)
    (sound : (cl.settled w.heap.settled).Sound) (at_ : p.qb_pos = pos)
    (inside : pos ≤ cl.querybuf.len)
    (trimmed : Client.trimForBigArg a w.heap { cl with parser := p } ll pos = (h, cl')) :
    cl'.settled h.settled =
      Original.Client.trim { cl.settled w.heap.settled with parser := p } pos := by
  have moved := (trimForBigArg_moved p inv here terminated trims clear trimmed).1
  have bound : pos ≤ (cl.settled w.heap.settled).querybuf.length :=
    Nat.le_trans inside (Nat.le_of_eq (length_bytes _ _).symm)
  have kept := (sound.reparse (p := p) (at_ ▸ bound) (cl.settled w.heap.settled).argv).trim bound
  have args := args_settled inv here moved.shape
  have tail := moved.tail (inv.tail here)
  simp only [Client.trimForBigArg, Prod.mk.injEq] at trimmed
  obtain ⟨-, rfl⟩ := trimmed
  refine settled_eq tail kept rfl rfl ?_ args
  simp only [Original.Client.trim, Client.settled, length_bytes]

/-- A step on one client's strings that matches the original's. -/
theorem put_settled {o : Original.Client} (inv : Inv w) (here : w.clients c = some cl)
    (moved : Client.Moved w h cl cl') (same : cl'.settled h.settled = o) :
    (w.put h c cl' site).settled handed = (w.settled handed).put c o (settledSite site) := by
  rw [settled_put inv.layout here moved.shape, same]

theorem still_settled {o : Original.Client} (inv : Inv w) (here : w.clients c = some cl)
    (buffer : cl'.querybuf = cl.querybuf) (stream : cl'.stream = cl.stream)
    (base : cl'.base = cl.base) (args : cl.NoNewArgs cl')
    (same : cl'.settled w.heap.settled = o) :
    (w.put w.heap c cl' site).settled handed = (w.settled handed).put c o (settledSite site) :=
  put_settled inv here (.still inv here buffer stream base args) same

theorem trimmed_settled (inv : Inv w) (here : w.clients c = some cl)
    (moved : Client.Moved w h cl cl.trimmed) (sound : (cl.settled w.heap.settled).Sound) :
    cl.trimmed.settled h.settled = (cl.settled w.heap.settled).trim cl.parser.qb_pos := by
  have args := args_settled inv here moved.shape
  refine settled_eq (moved.tail (inv.tail here)) (sound.trim sound.bound) rfl rfl ?_ args
  simp only [Original.Client.trim, Client.trimmed, Client.settled, length_bytes]

theorem trimToPos_settled (inv : Inv w) (here : w.clients c = some cl)
    (running : ∀ d, w.site ≠ .terminate d)
    (clear : ∀ access ∈ cl.performMoves v a .trimToPos, w.heap.Clear access)
    (short : cl.submits v .trimToPos < 2 ^ 31) (sound : (cl.settled w.heap.settled).Sound)
    (bound : cl.parser.qb_pos ≤ cl.querybuf.len) :
    Original.perform cfg (w.settled handed) c (cl.settled w.heap.settled) .trimToPos =
      some ((trimToPos v w c cl).settled handed) := by
  have wf := inv.layout.wf
  have live := inv.layout.live here
  have terminated := inv.layout.terminated here (running c)
  unfold Server.trimToPos
  simp only [Original.perform]
  by_cases unread : cl.parser.qb_pos = 0
  · rw [if_pos unread]
    exact if_pos unread
  · rw [if_neg unread]
    refine (if_neg unread).trans (congrArg some (Eq.symm ?_))
    cases v with
    | copierSet =>
      simp only [Client.submits] at short
      dsimp only
      rw [if_neg (by omega)]
      have moved : Client.Moved w (if cl.querybuf.len - cl.parser.qb_pos = 0 then w.heap
          else w.heap.submit (.copy cl.querybuf.blk 0 cl.querybuf.blk cl.parser.qb_pos
            (intLength (cl.querybuf.len - cl.parser.qb_pos)))) cl cl.trimmed := by
        refine .trimmed inv here ?_
        split
        · exact empty_trim_reshaped wf live ‹_›
        · exact submit_trim_reshaped wf live bound short
      exact put_settled inv here moved (trimmed_settled inv here moved sound)
    | multiClient =>
      simp only [Client.performMoves, Client.trimMoves, unread, if_false] at clear
      have rewritten := sdsrange_rewritten wf live terminated clear
      rw [sdsrange_len] at rewritten
      have moved : Client.Moved w (sdsrange w.heap cl.querybuf cl.parser.qb_pos).1 cl cl.trimmed :=
        .trimmed inv here rewritten.toReshaped
      dsimp only
      rw [sdsrange_len]
      exact put_settled inv here moved (trimmed_settled inv here moved sound)

theorem perform_settled {action : Action} (inv : Inv w) (here : w.clients c = some cl)
    (running : ∀ d, w.site ≠ .terminate d)
    (clear : ∀ access ∈ cl.performMoves v a action, w.heap.Clear access)
    (short : cl.submits v action < 2 ^ 31)
    (landed : w.heap.Clear (.read (cl.copiesNow action)))
    (sound : (cl.settled w.heap.settled).Sound) (bound : cl.parser.qb_pos ≤ cl.querybuf.len)
    (within : action.Within cl.querybuf.len cl.parser)
    (performed : perform cfg v a w c cl action = some w') :
    Original.perform cfg (w.settled handed) c (cl.settled w.heap.settled) action =
      some (w'.settled handed) := by
  have terminated := inv.layout.terminated here (running c)
  cases action with
  | go p pc =>
    cases performed
    refine congrArg some (Eq.symm ?_)
    exact still_settled inv here rfl rfl rfl (fun _ _ found => found) rfl
  | csync pc =>
    cases performed
    rfl
  | fail e =>
    cases performed
    have same : (w.put w.heap c { cl with parser := { cl.parser with closing := true } }
        (.running c .trim)).settled handed = (w.settled handed).put c
          { cl.settled w.heap.settled with parser := { cl.parser with closing := true } }
          (.running c .trim) :=
      still_settled inv here rfl rfl rfl (fun _ _ found => found) rfl
    refine congrArg some ?_
    exact congrArg (fun o : Original.World =>
      { o with output := w.output ++ [(c, e.reply)] }) same.symm
  | bulkLength ll pos =>
    simp only [Server.perform] at performed
    have length : (cl.settled w.heap.settled).querybuf.length = cl.querybuf.len := length_bytes _ _
    simp only [Original.perform, length]
    split at performed
    · rename_i trims
      cases performed
      obtain ⟨moved, -⟩ := trimForBigArg_moved (a := a)
        { cl.parser with qb_pos := pos, bulklen := some ll } inv here terminated trims clear rfl
      rw [if_pos trims]
      refine congrArg some (Eq.symm ?_)
      exact put_settled inv here moved
        (trimForBigArg_settled inv here terminated trims clear sound rfl within rfl)
    · rename_i fits
      cases performed
      rw [if_neg fits]
      refine congrArg some (Eq.symm ?_)
      exact still_settled inv here rfl rfl rfl (fun _ _ found => found) rfl
  | take bulklen =>
    simp only [Server.perform, Option.some.injEq] at performed
    subst performed
    obtain ⟨moved, -⟩ := take_moved (a := a) inv here terminated clear short
    refine congrArg some (Eq.symm ?_)
    exact put_settled inv here moved
      (take_settled inv here terminated clear short landed sound within)
  | inlineArgs argv pos =>
    simp only [Server.perform] at performed
    simp only [Original.perform]
    split at performed
    · rename_i gopher
      cases performed
      rw [if_pos gopher]
      refine congrArg some (Eq.symm ?_)
      exact still_settled inv here rfl rfl rfl (fun _ _ found => by simp at found) rfl
    · rename_i plain
      cases performed
      rw [if_neg plain]
      have values : (argv.map Obj.value).map (Obj.bytes w.heap.settled) = argv := by
        rw [List.map_map]
        exact List.map_id _
      refine congrArg some (Eq.symm ?_)
      refine still_settled inv here rfl rfl rfl (fun i s found => ?_) ?_
      · obtain ⟨_, -, made⟩ := List.mem_map.mp (List.mem_of_getElem? found)
        cases made
      · simp only [Client.settled, values]
  | resetClient =>
    cases performed
    refine congrArg some (Eq.symm ?_)
    exact still_settled inv here rfl rfl rfl (fun _ _ found => by simp at found) rfl
  | processCommand => cases performed
  | trimToPos =>
    cases performed
    exact trimToPos_settled inv here running clear short sound bound
  | assertFailed =>
    cases performed
    rfl

theorem landed_bytes {o : Obj} (landed : ∀ access ∈ o.reads, h.Clear access) :
    o.bytes h.mem = o.bytes h.settled := by
  cases o with
  | value bytes => rfl
  | sds s =>
    refine slice_congr fun i _ high => Eq.symm ?_
    exact Deferred.Heap.mem_eq_settled_of_clear (landed _ (List.mem_singleton_self _))
      ⟨rfl, Nat.zero_le _, by simpa using high⟩

theorem bytes_eq_nil (m : Mem UInt8) (s : Sds) : s.bytes m = [] ↔ s.len = 0 := by
  rw [← List.length_eq_zero_iff, length_bytes]

theorem commandOf_settled (landed : ∀ access ∈ (cl.argv.take 1).flatMap Obj.reads,
    w.heap.Clear access) :
    commandOf w cl = lookupCommand ((cl.settled w.heap.settled).argv.headD []) := by
  unfold commandOf
  simp only [Client.settled]
  cases args : cl.argv with
  | nil => rfl
  | cons name rest =>
    have read := landed_bytes (o := name) fun access member => landed access (by simpa [args] using member)
    simp only [List.head?_cons, Option.map_some, Option.getD_some, List.map_cons, List.headD_cons,
      read]

/-- What a command works on will read as the original's arguments and keyspace. -/
theorem memory_settled (handed : List (ℕ × List Bytes)) (w : World) (cl : Client) :
    (w.memory cl).settled = ⟨(cl.settled w.heap.settled).argv, (w.settled handed).db⟩ := rfl

theorem scriptOf_settled (landed : ∀ access ∈ (cl.argv.take 1).flatMap Obj.reads,
    w.heap.Clear access) :
    scriptOf w cl o = processCommand o (cl.settled w.heap.settled).parser.resp3
      (lookupCommand ((cl.settled w.heap.settled).argv.headD []))
      (cl.settled w.heap.settled).argv.length := by
  rw [← commandOf_settled landed]
  simp only [scriptOf, Client.settled, List.length_map]

theorem execute_settled (inv : Inv w) (here : w.clients c = some cl)
    (clear : ∀ access ∈ executeMoves a w cl o, w.heap.Clear access)
    (landed : ∀ access ∈ executeLooks a w cl o, w.heap.Clear access) :
    Original.execute (w.settled handed) c (cl.settled w.heap.settled) pc o =
      (execute a w c cl pc o).settled
        (handed ++ [(c, (cl.settled w.heap.settled).argv)]) := by
  simp only [executeMoves, List.forall_mem_append] at clear
  simp only [executeLooks, List.forall_mem_append] at landed
  have sound := inv.memory here
  have ran := inv.ran here ((scriptOf w cl o).edited sound clear.1)
  have same := (scriptOf w cl o).exec_settled sound clear.1 landed.2
  have named := commandOf_settled landed.1
  rw [memory_settled handed] at same
  unfold Server.execute Original.execute
  dsimp only
  rw [← scriptOf_settled landed.1, ← named, same]
  generalize (scriptOf w cl o).exec a (w.memory cl) = result at ran ⊢
  have buffer : ∀ d dl, w.clients d = some dl → dl.querybuf.bytes result.1.heap.settled =
      dl.querybuf.bytes w.heap.settled :=
    fun d dl there => bytes_congr fun i _ => congrFun (ran.frame there).symm i
  have others : ∀ d dl, d ≠ c → w.clients d = some dl →
      dl.settled result.1.heap.settled = dl.settled w.heap.settled := by
    intro d dl other there
    refine Client.settled_congr (ran.frame there) fun s member => ?_
    obtain ⟨i, arg⟩ := List.getElem?_of_mem member
    exact ran.same (i := i) other (Option.bind_eq_some_iff.mpr ⟨dl, there, arg⟩)
  simp only [World.settled, Deferred.Heap.settled_release, Original.World.mk.injEq]
  refine ⟨?_, rfl, trivial, ?_, trivial, trivial⟩
  · funext d
    by_cases same : d = c
    · subst same
      rw [Function.update_self, Function.update_self]
      split
      · rfl
      · refine congrArg some ?_
        simp only [Client.settled, buffer d cl here]
        split <;> rfl
    · rw [Function.update_of_ne same, Function.update_of_ne same]
      cases there : w.clients d with
      | none => rfl
      | some dl => exact congrArg some (others d dl same there).symm
  · have empty := bytes_eq_nil w.heap.settled cl.querybuf
    simp only [Client.settled, empty]
    repeat' split
    all_goals rfl

/-- Writing a client back unchanged. -/
theorem put_same (here : w.clients c = some cl) (site : Site) :
    (w.settled handed).put c (cl.settled w.heap.settled) site =
      { w.settled handed with site := site } := by
  have same : Function.update (w.settled handed).clients c (some (cl.settled w.heap.settled)) =
      (w.settled handed).clients := by
    rw [Function.update_eq_self_iff]
    simp only [World.settled, here, Option.map_some]
  simp only [Original.World.put, same]

theorem receive_settled (inv : Inv w) (here : w.clients c = some cl)
    (site : w.site = .receive c data) (measured : cl.base + cl.querybuf.len = cl.stream.length)
    (drained : w.heap.ring = []) (sound : (cl.settled w.heap.settled).Sound) :
    Original.internal cfg (w.settled handed) =
      some ((receive cfg v w c cl data).settled handed) := by
  have found : (w.settled handed).clients c = some (cl.settled w.heap.settled) := by
    simp only [World.settled, here, Option.map_some]
  have at_ : (w.settled handed).site = .receive c data := by
    simp only [World.settled, site, settledSite]
  simp only [Original.internal, at_, found, Option.map_some]
  refine congrArg some ?_
  unfold Server.receive
  dsimp only
  by_cases empty : data = []
  · rw [if_pos empty, if_pos empty, ← put_same here]
    cases v <;> refine Eq.symm ?_ <;>
      exact still_settled inv here rfl rfl rfl (fun _ _ found => found) rfl
  · have length : (cl.settled w.heap.settled).querybuf.length = cl.querybuf.len := length_bytes _ _
    have grown := sound.receive data
    rw [if_neg empty, if_neg empty, List.length_append, length]
    have appended : ∀ (cl' : Client) (p : Parser) (s : Site), cl'.parser = p → p.qb_pos = cl.parser.qb_pos →
        cl'.argv = cl.argv →
        cl'.querybuf = { cl.querybuf with len := cl.querybuf.len + data.length } →
        cl'.stream = cl.stream ++ data → cl'.base = cl.base → settledSite s = s →
        (w.settled handed).put c { cl.settled w.heap.settled with
            parser := p
            querybuf := (cl.settled w.heap.settled).querybuf ++ data
            stream := cl.stream ++ data } s =
          (w.put ((w.heap.submit (.recv c cl.querybuf.blk cl.querybuf.len data)).store
            ⟨cl.querybuf.blk, cl.querybuf.len + data.length, 1⟩ terminator) c cl' s).settled
              handed := by
      intro cl' p s parser at_ argv buffer stream base plain
      have moved := Client.Moved.received inv here site measured drained argv buffer stream base
      have args := args_settled inv here moved.shape
      have same : (w.put ((w.heap.submit (.recv c cl.querybuf.blk cl.querybuf.len data)).store
          ⟨cl.querybuf.blk, cl.querybuf.len + data.length, 1⟩ terminator) c cl' s).settled handed =
          _ := put_settled inv here moved
        (settled_eq (moved.tail (inv.tail here))
          (grown.reparse (p := p) (at_ ▸ grown.bound) (cl.argv.map (Obj.bytes w.heap.settled)))
          parser stream base (argv ▸ args))
      rw [same, plain]
      rfl
    cases v <;> dsimp only <;> split
    all_goals exact appended _ _ _ rfl rfl rfl rfl rfl rfl rfl

theorem update_settled (m : Mem UInt8) (clients : ℕ → Option Client) (c : ℕ) (cl : Option Client) :
    (fun d => (Function.update clients c cl d).map (Client.settled m)) =
      Function.update (fun d => (clients d).map (Client.settled m)) c (cl.map (Client.settled m)) := by
  funext d
  by_cases same : d = c
  · subst same
    rw [Function.update_self, Function.update_self]
  · rw [Function.update_of_ne same, Function.update_of_ne same]

/-- Freeing changes nothing that is still read. -/
theorem release_settled (blocks : List ℕ) (c : ℕ) (cl : Client) (site : Site) :
    (w.put (w.heap.release blocks) c cl site).settled handed =
      (w.settled handed).put c (cl.settled w.heap.settled) (settledSite site) := by
  have clients := update_settled w.heap.settled w.clients c (some cl)
  simp only [World.settled, World.put, Original.World.put, Deferred.Heap.settled_release, clients,
    Option.map_some]

theorem accept_settled (inv : Inv w) (buffer : cl.querybuf = (sdsnewlenCleared a w.heap 0).2)
    (argv : cl.argv = []) (site : Site) :
    (w.put (sdsnewlenCleared a w.heap 0).1 c cl site).settled handed =
      (w.settled handed).put c ⟨cl.parser, [], [], cl.stream, cl.base⟩ (settledSite site) := by
  have fresh := sdsnewlenCleared_created (a := a) inv.layout.wf 0
  generalize sdsnewlenCleared a w.heap 0 = result at buffer fresh ⊢
  obtain ⟨h, s⟩ := result
  dsimp only at buffer fresh ⊢
  have own : cl.settled h.settled = ⟨cl.parser, [], [], cl.stream, cl.base⟩ := by
    simp only [Client.settled, buffer, argv, fresh.reads, List.map_nil]
  have values : mapDb (Obj.bytes h.settled) w.db = mapDb (Obj.bytes w.heap.settled) w.db :=
    db_congr fun s held => fresh.frame _ (inv.layout.named held)
  have others : (fun d => (w.clients d).map (Client.settled h.settled)) =
      fun d => (w.clients d).map (Client.settled w.heap.settled) := by
    funext d
    cases there : w.clients d with
    | none => rfl
    | some dl =>
      refine congrArg some (Client.settled_congr ?_ fun s member => ?_)
      · exact fresh.frame _ (inv.layout.wf.named _ (inv.layout.live there))
      · exact fresh.frame _ (inv.layout.named (.inl ⟨d, dl, there, member⟩))
  have clients := update_settled h.settled w.clients c (some cl)
  simp only [World.settled, World.put, Original.World.put, values, clients, others, Option.map_some,
    own]

/-- Moving a query buffer elsewhere changes nothing that is read. -/
theorem moved_settled (inv : Inv w) (here : w.clients c = some cl)
    (rewritten : Rewritten w.heap h cl.querybuf cl'.querybuf (cl.querybuf.bytes w.heap.settled))
    (parser : cl'.parser = cl.parser) (argv : cl'.argv = cl.argv) (stream : cl'.stream = cl.stream)
    (base : cl'.base = cl.base) :
    (w.put h c cl' site).settled handed = { w.settled handed with site := settledSite site } := by
  have args := args_settled inv here rewritten.toReshaped
  have same : cl'.settled h.settled = cl.settled w.heap.settled := by
    simp only [Client.settled, parser, argv, stream, base, rewritten.reads, args]
  rw [settled_put inv.layout here rewritten.toReshaped, same, put_same here]

theorem event_settled {e : Event} (inv : Inv w) (idle : w.site = .idle)
    (clear : ∀ access ∈ eventMoves a w e, w.heap.Clear access)
    (stepped : event v a w e = some w') :
    Original.event (w.settled handed) e = some (w'.settled handed) := by
  have running : ∀ d, w.site ≠ .terminate d := fun d => by simp [idle]
  have found : ∀ {c cl}, w.clients c = some cl →
      (w.settled handed).clients c = some (cl.settled w.heap.settled) := by
    intro _ _ here
    simp only [World.settled, here, Option.map_some]
  cases event_occurs stepped with
  | accept c _ absent =>
    have free : ((w.settled handed).clients c).isNone := by
      simp only [World.settled, absent, Option.map_none, Option.isNone_none]
    simp only [Original.event]
    rw [if_pos free]
    exact congrArg some (Eq.symm (accept_settled inv rfl rfl .idle))
  | readable c cl data here short =>
    simp only [eventMoves, here] at clear
    have rewritten := sdsMakeRoomFor_rewritten inv.layout.wf (inv.layout.live here)
      (inv.layout.terminated here (running c)) clear (inv.layout.fits here)
    simp only [Original.event, found here, Option.bind_some, Client.settled_parser,
      Client.settled_length]
    rw [if_pos short]
    refine congrArg some (Eq.symm ?_)
    cases v <;> exact moved_settled inv here rewritten rfl rfl rfl rfl
  | unblock c cl here blocked =>
    simp only [Original.event, found here, Option.bind_some]
    rw [Client.settled_parser, if_pos blocked, release_settled]
    refine congrArg some (congrArg (fun o => (w.settled handed).put c o .idle) ?_)
    cases pending : cl.parser.pendingCommand <;>
      simp [Original.Client.unblock, Client.unblock, Client.settled, pending]
  | reprocess c cl here unblocked =>
    simp only [Original.event, found here, Option.bind_some]
    rw [Client.settled_parser, if_pos unblocked]
    refine congrArg some (Eq.symm ?_)
    have empty : (cl.settled w.heap.settled).querybuf = [] ↔ cl.querybuf.len = 0 :=
      bytes_eq_nil _ _
    simp only [Original.reprocess, Server.reprocess, Client.settled_parser, empty]
    split
    · exact still_settled inv here rfl rfl rfl (fun _ _ found => found) rfl
    · split
      · exact still_settled inv here rfl rfl rfl (fun _ _ found => found) rfl
      · split <;> exact still_settled inv here rfl rfl rfl (fun _ _ found => found) rfl
  | disconnect c cl here =>
    simp only [Original.event, found here, Option.map_some]
    have clients := update_settled w.heap.settled w.clients c none
    simp only [World.settled, Deferred.Heap.settled_release, clients, Option.map_none]
  | resize c cl here wasteful =>
    simp only [Original.event, found here, Option.map_some]
    simp only [eventMoves, here] at clear
    rw [if_pos wasteful] at clear
    have rewritten := sdsRemoveFreeSpace_rewritten true inv.layout.wf
      (inv.layout.live here) (inv.layout.terminated here (running c)) clear
    have unchanged : { w.settled handed with site := settledSite .idle } = w.settled handed := by
      simp only [World.settled, idle]
    refine congrArg some (Eq.symm (Eq.trans ?_ unchanged))
    exact moved_settled inv here rewritten rfl rfl rfl rfl
  | keep c cl here => simp only [Original.event, found here, Option.map_some]
  | expire key =>
    refine congrArg some ?_
    simp only [World.settled, Deferred.Heap.settled_release, mapDb_update, Option.map_none]

/-- What the step hands to `processCommand`, as it will be once settled. -/
def handing (w : World) : Label → List (ℕ × List Bytes)
  | .input _ (.command _) => match w.site with
    | .running c _ => match w.clients c with
      | some cl => [(c, cl.argv.map (Obj.bytes w.heap.settled))]
      | none => []
    | _ => []
  | _ => []

/-- The label of the original that matches a step, where one does. -/
def matching (w : World) : Label → List Original.Label
  | .service => []
  | .internal _ => match w.site with
    | .wait _ _ => []
    | .terminate _ => []
    | _ => [.internal]
  | .input _ i => [.input i]

theorem matching_seen (w : World) (l : Label) :
    (matching w l).filterMap Original.Label.seen = [l].filterMap Label.seen := by
  cases l with
  | internal a =>
    simp only [matching]
    split <;> rfl
  | _ => rfl

theorem service_settled (stepped : service w = some w') : w'.settled handed = w.settled handed := by
  simp only [Server.service, Option.map_eq_some_iff, Prod.exists] at stepped
  obtain ⟨h, report, served, rfl⟩ := stepped
  have settled := Deferred.Heap.settled_serve served
  have clients : (fun d => (raised w.clients report d).map (Client.settled w.heap.settled)) =
      fun d => (w.clients d).map (Client.settled w.heap.settled) := by
    funext d
    cases report with
    | none => rfl
    | some delivered =>
      simp only [raised]
      by_cases same : d = delivered.1
      · subst same
        rw [Function.update_self, Option.map_map]
        rfl
      · rw [Function.update_of_ne same]
  simp only [World.settled, settled, clients]

theorem found_settled (here : w.clients c = some cl) :
    (w.settled handed).clients c = some (cl.settled w.heap.settled) := by
  simp only [World.settled, here, Option.map_some]

theorem running_settled (cfg : Config) (inv : Inv w) (here : w.clients c = some cl)
    (site : w.site = .running c pc) (sound : (w.settled handed).Sound)
    (landed : w.heap.Clear (.read (cl.inspects w.heap pc))) :
    (cl.settled w.heap.settled).action cfg (w.settled handed) pc = cl.action cfg w pc ∧
      (cl.action cfg w pc).Within cl.querybuf.len cl.parser := by
  have own := sound c _ (found_settled here)
  have bound : cl.parser.qb_pos ≤ cl.querybuf.len := by
    have bound := own.bound
    rwa [Client.settled_length] at bound
  have same := action_settled cfg handed inv here
    (inv.layout.terminated here (by simp [site])) bound landed
  have within := (cl.settled w.heap.settled).action_within cfg (w.settled handed) own pc
  rw [same, Client.settled_length] at within
  exact ⟨same, within⟩

theorem internal_settled (inv : Inv w)
    (measured : ∀ c cl, w.clients c = some cl → cl.base + cl.querybuf.len = cl.stream.length)
    (sound : (w.settled handed).Sound) (undisturbed : Undisturbed cfg v w (.internal a))
    (stepped : internal cfg v a w = some w') :
    Runs.run (Original.step cfg) (w.settled handed) (matching w (.internal a)) =
      some (w'.settled handed) := by
  have clear := undisturbed.clear
  have short := undisturbed.short
  have landed := undisturbed.landed
  have at_ : (w.settled handed).site = settledSite w.site := rfl
  cases internal_stepped stepped with
  | receive c data cl site here drained =>
    simp only [matching, site]
    rw [Runs.run_one]
    exact receive_settled inv here site (measured c cl here) drained
      (sound c _ (found_settled here))
  | enter c site =>
    simp only [matching, site]
    rw [Runs.run_one]
    simp only [Original.step, Original.internal, at_, site, settledSite]
    rfl
  | running c pc cl site here performed =>
    simp only [moves, site, here] at clear
    simp only [submitted, site, here] at short
    simp only [looks, site, here, List.forall_mem_cons] at landed
    obtain ⟨same, within⟩ := running_settled cfg inv here site sound landed.1
    have own := sound c _ (found_settled here)
    have bound : cl.parser.qb_pos ≤ cl.querybuf.len := by
      have bound := own.bound
      rwa [Client.settled_length] at bound
    simp only [matching, site]
    rw [Runs.run_one]
    simp only [Original.step, Original.internal, at_, site, settledSite, found_settled here,
      Option.bind_some, same]
    exact perform_settled inv here (by simp [site]) clear short landed.2.1 own bound within
      performed
  | wait c pc cl site here =>
    have same : (w.put w.heap c { cl with lastWait := cl.descriptor } (.running c pc)).settled
        handed = (w.settled handed).put c (cl.settled w.heap.settled) (.running c pc) :=
      still_settled inv here rfl rfl rfl (fun _ _ found => found) rfl
    simp only [matching, site]
    refine congrArg some (Eq.symm (same.trans ?_))
    rw [put_same here]
    simp only [World.settled, site, settledSite]
  | terminate c cl site here =>
    simp only [moves, site, here, List.forall_mem_cons] at clear
    have rewritten := terminate_rewritten inv here clear.1
    have unchanged : Function.update w.clients c (some cl) = w.clients := by
      rw [← here, Function.update_eq_self]
    have same : (w.put (w.heap.store ⟨cl.querybuf.blk, cl.querybuf.len, 1⟩ terminator) c cl
        .idle).settled handed = { w.settled handed with site := .idle } :=
      moved_settled inv here rewritten rfl rfl rfl rfl
    simp only [World.put, unchanged] at same
    simp only [matching, site]
    refine congrArg some (Eq.trans ?_ same.symm)
    simp only [World.settled, site, settledSite]

theorem step_settled {l : Label} (handed : List (ℕ × List Bytes)) (inv : Inv w)
    (measured : ∀ c cl, w.clients c = some cl → cl.base + cl.querybuf.len = cl.stream.length)
    (sound : (w.settled handed).Sound) (undisturbed : Undisturbed cfg v w l)
    (stepped : step cfg v w l = some w') :
    Runs.run (Original.step cfg) (w.settled handed) (matching w l) =
      some (w'.settled (handed ++ handing w l)) := by
  have still : ∀ a, l = .internal a → Runs.run (Original.step cfg) (w.settled handed)
      (matching w l) = some (w'.settled (handed ++ handing w l)) := by
    rintro a rfl
    refine Eq.trans ?_ (congrArg (fun hs => some (w'.settled hs)) (List.append_nil handed).symm)
    exact internal_settled inv measured sound undisturbed stepped
  have clear := undisturbed.clear
  have landed := undisturbed.landed
  cases step_stepped stepped with
  | service served => exact congrArg some ((List.append_nil handed).symm ▸ (service_settled served).symm)
  | receive | enter | running | wait | terminate => exact still _ rfl
  | event idle occurs =>
    have at_ : (w.settled handed).site = .idle := by simp only [World.settled, idle, settledSite]
    simp only [matching, Runs.run_one, Original.step, handing, List.append_nil]
    rw [if_pos at_]
    exact event_settled inv idle clear occurs
  | command c pc cl o site here executes =>
    simp only [moves, site, here] at clear
    simp only [looks, site, here, List.forall_mem_cons] at landed
    obtain ⟨same, -⟩ := running_settled cfg inv here site sound landed.1
    have at_ : (w.settled handed).site = .running c pc := by
      simp only [World.settled, site, settledSite]
    simp only [matching, Runs.run_one, Original.step, Original.command, at_, found_settled here,
      Option.bind_some, same, handing, site, here, executes]
    exact congrArg some (execute_settled inv here clear landed.2)

end Refinement
end Copier.Redis.Server
