import Copier.Redis.Heading
import Copier.Redis.Inspection
import Copier.Redis.Refinement

/-! The arguments of a command and the query buffer a big one is taken from. Before a big argument
the buffer is moved down and given room at once, and when it holds the argument and no more it
becomes the argument, while receives into it may be pending. An object reads what its client sent
behind the header until a command writes into it, whatever is done to query buffers and other
strings, as long as none of this meets a pending task. -/
namespace Copier.Redis
open Deferred (Mem Span Task Access)

/-- The value that an edit writes into. -/
def Edit.rewrites (m : Memory) : Edit → List ℕ
  | .append key _ => m.blocks (.value key)
  | .overwrite key _ _ => m.blocks (.value key)
  | _ => []

def Script.rewrites : Script → Allocation → Memory → List ℕ
  | .done _, _, _ => []
  | .length place next, a, m => (next ((m.strings.find place).map Obj.length)).rewrites a m
  | .read place off n next, a, m =>
      let bytes := ((m.strings.find place).map (Obj.bytes m.heap.mem)).getD []
      (next ((bytes.drop off).take n)).rewrites a m
  | .edit e next, a, m => e.rewrites m ++ next.rewrites a.later (e.exec a m)

section Rewrites
variable {m m' : Memory} {a : Allocation} {e : Edit} {accesses : List Access}

theorem Memory.blocks_found (found : m.strings.find place = some (.sds s)) :
    m.blocks place = [s.blk] := by
  simp only [Memory.blocks, found, Option.map_some, Option.getD_some, Obj.blocks]

theorem Edit.Does.frame (does : Edit.Does a m e accesses m') (sound : m.Sound)
    (clear : ∀ access ∈ accesses, m.heap.Clear access) (named : b < m.heap.next)
    (spared : b ∉ e.rewrites m) : m'.heap.settled b = m.heap.settled b := by
  cases does with
  | nothing | revalue => rfl
  | drop | create | move => exact congrFun (Deferred.Heap.settled_release _ _) b
  | encode found =>
    obtain ⟨live, fits, terminated⟩ := sound.sound found
    exact (sdsRemoveFreeSpace_relocated false sound.wf (sound.wf.named _ live) terminated
      clear).frame b named
  | append found =>
    obtain ⟨live, fits, terminated⟩ := sound.sound found
    simp only [Edit.rewrites, Memory.blocks_found found, List.mem_singleton] at spared
    exact (sdscatlen_rewritten sound.wf live terminated clear fits).frame b named spared
  | overwrite found =>
    obtain ⟨live, fits, terminated⟩ := sound.sound found
    simp only [Edit.rewrites, Memory.blocks_found found, List.mem_singleton] at spared
    exact (memcpyTo_rewritten sound.wf live terminated clear).frame b named spared

/-- What a script does not write into will hold what it would have. -/
theorem Script.exec_frame (script : Script) (sound : m.Sound)
    (clear : ∀ access ∈ script.moves a m, m.heap.Clear access) (named : b < m.heap.next)
    (spared : b ∉ script.rewrites a m) :
    (script.exec a m).1.heap.settled b = m.heap.settled b := by
  induction script generalizing a m with
  | done => rfl
  | length place next ih => exact ih _ sound clear named spared
  | read place off n next ih => exact ih _ sound clear named spared
  | edit e next ih =>
    simp only [Script.moves, List.forall_mem_append] at clear
    simp only [Script.rewrites, List.mem_append, not_or] at spared
    have first := (e.does a m).edited sound clear.1
    have rest := ih first.sound (forall_clear_of_ring first.ring clear.2)
      (Nat.lt_of_lt_of_le named first.grown) spared.2
    exact rest.trans ((e.does a m).frame sound clear.1 named spared.1)

end Rewrites

namespace Server

/-- The values that the step of that label writes into. -/
def rewritten (w : World) : Label → List ℕ
  | .input a (.command o) => match w.site with
    | .running c _ => match w.clients c with
      | some cl => (scriptOf w cl o).rewrites a (w.memory cl)
      | none => []
    | _ => []
  | _ => []

/-- A block that is or was allocated and is no query buffer. -/
structure World.Foreign (w : World) (b : ℕ) : Prop where
  named : b < w.heap.next
  outside : w.clients c = some cl → cl.querybuf.blk ≠ b

/-- What all of the memory but the query buffers and the blocks written into will hold stays
the same. -/
structure Frames (written : List ℕ) (w w' : World) : Prop where
  grown : w.heap.next ≤ w'.heap.next
  same : w.Foreign b → b ∉ written → w'.heap.settled b = w.heap.settled b

section Frames
variable {cfg : Config} {w w' : World} {h : Heap} {cl cl' : Client} {a : Allocation} {n : ℕ}
  {written : List ℕ}

theorem Frames.still (heap : w'.heap = w.heap) : Frames written w w' where
  grown := Nat.le_of_eq (congrArg _ heap.symm)
  same _ _ := by rw [heap]

theorem Frames.released (heap : w'.heap = w.heap.release blocks) : Frames written w w' where
  grown := by
    rw [heap]
    exact Nat.le_refl _
  same _ _ := by rw [heap, Deferred.Heap.settled_release]

theorem Frames.reshaped (here : w.clients c = some cl)
    (shape : Reshaped w.heap w'.heap cl.querybuf t bytes) : Frames written w w' where
  grown := shape.grown
  same foreign _ := shape.frame _ foreign.named (foreign.outside here).symm

theorem perform_frames {action : Action} (inv : Inv w) (here : w.clients c = some cl)
    (running : ∀ d, w.site ≠ .terminate d)
    (clear : ∀ access ∈ cl.performMoves .copierSet a action, w.heap.Clear access)
    (short : cl.submits .copierSet action < 2 ^ 31)
    (performed : perform cfg .copierSet a w c cl action = some w') : Frames written w w' := by
  have terminated := inv.layout.terminated here (running c)
  cases action with
  | go p pc | csync pc | fail e | resetClient | assertFailed =>
    cases performed
    exact .still rfl
  | bulkLength ll pos =>
    simp only [Server.perform] at performed
    split at performed
    · rename_i trims
      cases performed
      exact .reshaped here (trimForBigArg_moved (a := a) _ inv here terminated trims clear rfl).1.shape
    · cases performed
      exact .still rfl
  | take bulklen =>
    cases performed
    exact .reshaped here (take_moved (a := a) inv here terminated clear short).1.shape
  | inlineArgs argv pos =>
    simp only [Server.perform] at performed
    split at performed <;> cases performed <;> exact .still rfl
  | processCommand => cases performed
  | trimToPos =>
    cases performed
    unfold Server.trimToPos
    dsimp only
    split
    · exact .still rfl
    · split
      · exact .still rfl
      · refine .reshaped here (?_ : Reshaped w.heap _ cl.querybuf cl.trimmed.querybuf
          ((cl.querybuf.bytes w.heap.settled).drop cl.parser.qb_pos))
        simp only [World.put]
        split
        · exact empty_trim_reshaped inv.layout.wf (inv.layout.live here) ‹_›
        · exact submit_trim_reshaped inv.layout.wf (inv.layout.live here) (by omega) short

theorem event_frames {e : Event} (inv : Inv w) (idle : w.site = .idle)
    (clear : ∀ access ∈ eventMoves a w e, w.heap.Clear access)
    (stepped : event .copierSet a w e = some w') : Frames written w w' := by
  have running : ∀ d, w.site ≠ .terminate d := fun d => by simp [idle]
  cases event_occurs stepped with
  | accept =>
    have fresh := sdsnewlenCleared_created (a := a) inv.layout.wf 0
    exact ⟨Nat.le_of_lt (fresh.next ▸ Nat.lt_succ_self _), fun foreign _ => fresh.frame _ foreign.named⟩
  | readable c cl data here =>
    simp only [eventMoves, here] at clear
    exact .reshaped here (sdsMakeRoomFor_rewritten inv.layout.wf (inv.layout.live here)
      (inv.layout.terminated here (running c)) clear (inv.layout.fits here)).toReshaped
  | unblock | disconnect | expire => exact .released rfl
  | reprocess c cl =>
    unfold Server.reprocess
    dsimp only
    repeat' split
    all_goals exact .still rfl
  | resize c cl here wasteful =>
    simp only [eventMoves, here] at clear
    rw [if_pos wasteful] at clear
    exact .reshaped here (sdsRemoveFreeSpace_rewritten true inv.layout.wf (inv.layout.live here)
      (inv.layout.terminated here (running c)) clear).toReshaped
  | keep => exact .still rfl

theorem execute_frames (inv : Inv w) (here : w.clients c = some cl)
    (clear : ∀ access ∈ executeMoves a w cl o, w.heap.Clear access) :
    Frames ((scriptOf w cl o).rewrites a (w.memory cl)) w (execute a w c cl pc o) := by
  simp only [executeMoves, List.forall_mem_append] at clear
  have sound := inv.memory here
  refine ⟨((scriptOf w cl o).edited sound clear.1).grown, fun foreign spared => ?_⟩
  have same := (scriptOf w cl o).exec_frame sound clear.1 foreign.named spared
  simp only [Server.execute, Deferred.Heap.settled_release]
  exact same

theorem receive_frames (inv : Inv w) (here : w.clients c = some cl) (drained : w.heap.ring = []) :
    Frames written w (receive cfg .copierSet w c cl data) := by
  have shape := (receive_rewritten inv.layout.wf (inv.layout.live here) drained c data).toReshaped
  unfold Server.receive
  dsimp only
  split
  · exact .still rfl
  · split <;> exact .reshaped here shape

/-- A step that meets no pending task changes what query buffers and the values it writes into
will hold, and nothing else. -/
theorem step_frames {l : Label} (inv : Inv w) (steady : Steady cfg .copierSet w l)
    (stepped : step cfg .copierSet w l = some w') : Frames (rewritten w l) w w' := by
  have clear := steady.clear
  have short := steady.short
  cases step_stepped stepped with
  | service served =>
    simp only [Server.service, Option.map_eq_some_iff, Prod.exists] at served
    obtain ⟨h, report, served, rfl⟩ := served
    exact ⟨Nat.le_of_eq (Deferred.Heap.serve_live served).1.symm,
      fun _ _ => congrFun (Deferred.Heap.settled_serve served) _⟩
  | event idle occurs => exact event_frames inv idle clear occurs
  | command c pc cl o site here =>
    simp only [moves, site, here] at clear
    simp only [rewritten, site, here]
    exact execute_frames inv here clear
  | receive c data cl site here drained => exact receive_frames inv here drained
  | running c pc cl site here performed =>
    simp only [moves, site, here] at clear
    simp only [submitted, site, here] at short
    exact perform_frames inv here (fun d => by simp [site]) clear short performed
  | enter | wait => exact .still rfl
  | terminate c cl site here =>
    simp only [moves, site, here, List.forall_mem_cons] at clear
    exact .reshaped here (terminate_rewritten inv here clear.1).toReshaped

theorem put_block (here : w.clients c = some cl) (same : cl'.querybuf.blk = cl.querybuf.blk)
    (found : (w.put h c cl' site).clients d = some dl') :
    ∃ dl, w.clients d = some dl ∧ dl'.querybuf.blk = dl.querybuf.blk := by
  rcases World.put_found found with ⟨rfl, rfl⟩ | ⟨-, there⟩
  · exact ⟨cl, here, same⟩
  · exact ⟨dl', there, rfl⟩

theorem receive_block (here : w.clients c = some cl)
    (found : (receive cfg .copierSet w c cl data).clients d = some dl') :
    ∃ dl, w.clients d = some dl ∧ dl'.querybuf.blk = dl.querybuf.blk := by
  unfold Server.receive at found
  dsimp only at found
  split at found
  · exact put_block here (by rfl) found
  · split at found
    · exact put_block here (by rfl) found
    · exact put_block here (by rfl) found

/-- Query buffers stay in their blocks or get new ones. -/
theorem World.Foreign.step {l : Label} (foreign : w.Foreign b) (frames : Frames written w w')
    (stepped : step cfg .copierSet w l = some w') : w'.Foreign b := by
  refine ⟨Nat.lt_of_lt_of_le foreign.named frames.grown, fun {d dl'} found same => ?_⟩
  have apart : ∀ dl, w.clients d = some dl →
      dl'.querybuf.blk = dl.querybuf.blk ∨ w.heap.next ≤ dl'.querybuf.blk → False := by
    rintro dl there (old | fresh)
    · exact foreign.outside there (old.symm.trans same)
    · have := foreign.named
      omega
  have evolved : Evolves .copierSet w w' → False := by
    intro evolves
    rcases evolves.clients d dl' found with ⟨dl, there, shrunk⟩ | new
    · exact apart dl there shrunk.owner
    · have := foreign.named
      have := new.owner
      omega
  cases step_stepped stepped with
  | command | event => exact evolved (input_evolves stepped)
  | receive c data cl site here =>
    obtain ⟨dl, there, old⟩ := receive_block here found
    exact apart dl there (.inl old)
  | service served =>
    obtain ⟨dl, e, there, rfl⟩ := service_found served found
    exact apart dl there (.inl rfl)
  | enter c site | running c pc cl site | wait c pc cl site | terminate c cl site =>
    exact evolved (internal_evolves stepped (by simp [site]))

end Frames

/-- The argument that a client's parser is about to take. -/
structure Takes (cfg : Config) (w : World) (c : ℕ) (cl : Client) (n : ℕ) : Prop where
  here : w.clients c = some cl
  action : ∃ pc, w.site = .running c pc ∧ cl.action cfg w pc = .take n

/-- The object made of an argument reads in `t` what the client sent behind its header, and a
string is terminated; one that is big is a string. -/
structure StoredAs (cl : Client) (n : ℕ) (o : Obj) (t : World) : Prop where
  headed : cl.Headed n
  sent : n + 2 ≤ cl.unread.length
  bytes : o.bytes t.heap.mem = cl.unread.take n
  closed : ∀ s, o = .sds s → s.len = n ∧ t.heap.mem s.blk n = NUL
  big : PROTO_MBULK_BIG_ARG ≤ n → ∃ s, o = .sds s

/-- The step does not write into that object, as APPEND and SETRANGE write into a value. -/
def Unwritten (o : Obj) (w : World) (l : Label) : Prop := ∀ s, o = .sds s → s.blk ∉ rewritten w l

/-- An argument taken in the first step of a run is stored, if the service is idle at the end and
no command has written into the object; the parser goes on right behind it. -/
def StoresFirst (cfg : Config) (w : World) (ls : List Label) (c : ℕ) (cl : Client) (n : ℕ) : Prop :=
  ∀ a after w', ls = .internal a :: after → step cfg .copierSet w (.internal a) = some w' →
    ∃ cl' o, w'.clients c = some cl' ∧ cl'.argv = cl.argv ++ [o] ∧
      cl'.unread = cl.unread.drop (n + 2) ∧
      ∀ t, Runs.Path (step cfg .copierSet) (Unwritten o) w' after t → t.heap.ring = [] →
        StoredAs cl n o t

/-- Every big argument of a run is stored, and every argument behind one. -/
def BigArgumentsStored (cfg : Config) (ls : List Label) : Prop :=
  ∀ before rest w c cl n, ls = before ++ rest →
    Runs.run (step cfg .copierSet) init before = some w → Takes cfg w c cl n →
    PROTO_MBULK_BIG_ARG ≤ n →
    StoresFirst cfg w rest c cl n ∧
    ∀ between rest' w' cl' m, rest = between ++ rest' →
      Runs.run (step cfg .copierSet) w between = some w' → Takes cfg w' c cl' m →
      StoresFirst cfg w' rest' c cl' m

section Arguments
variable {cfg : Config} {w w' t : World} {h : Heap} {cl cl' : Client} {a : Allocation} {n : ℕ}
  {ls : List Label}

/-- What a run of delivered steps keeps. -/
structure Sound (w : World) : Prop where
  inv : Inv w
  heard : Heard w
  heading : Heading w

theorem Sound.init : Sound Server.init := ⟨.init, .init, .init⟩

theorem Sound.step {l : Label} (sound : Sound w) (delivered : Delivered cfg w l)
    (stepped : step cfg .copierSet w l = some w') : Sound w' where
  inv := sound.inv.step sound.heard.measured delivered.toSteady stepped
  heard := sound.heard.step stepped
  heading := sound.heading.step sound.inv sound.heard.measured delivered stepped

theorem Sound.run (sound : Sound w)
    (path : Runs.Path (Server.step cfg .copierSet) (Delivered cfg) w ls t) : Sound t :=
  path.invariant Sound sound fun sound delivered stepped => sound.step delivered stepped

/-- A block that is no query buffer and not written into will hold what it would have. -/
theorem Sound.frames (sound : Sound w)
    (path : Runs.Path (Server.step cfg .copierSet) (Delivered cfg) w ls t)
    (unwritten : Runs.Path (Server.step cfg .copierSet) (fun w l => b ∉ rewritten w l) w ls t)
    (foreign : w.Foreign b) : t.heap.settled b = w.heap.settled b := by
  have kept := (path.both unwritten).invariant
    (fun t => Sound t ∧ t.Foreign b ∧ t.heap.settled b = w.heap.settled b) ⟨sound, foreign, rfl⟩
    fun ⟨sound, foreign, same⟩ ⟨delivered, spared⟩ stepped => by
      have frames := step_frames sound.inv delivered.toSteady stepped
      exact ⟨sound.step delivered stepped, foreign.step frames stepped,
        (frames.same foreign spared).trans same⟩
  exact kept.2.2

/-- The object that an argument becomes. -/
def Client.taken (a : Allocation) (h : Heap) (cl : Client) (bulklen : ℕ) : Obj :=
  if handsOver cl.parser cl.querybuf.len bulklen then .sds { cl.querybuf with len := bulklen }
  else if bulklen ≤ OBJ_ENCODING_EMBSTR_SIZE_LIMIT then
    .value (slice (cl.view h) cl.parser.qb_pos (cl.parser.qb_pos + bulklen))
  else .sds (sdsnewlenCopyer a h cl.querybuf.blk cl.parser.qb_pos bulklen).2

theorem taken_len (taken : cl.taken a h n = .sds s) : s.len = n := by
  unfold Client.taken at taken
  split at taken
  · cases taken
    rfl
  · split at taken
    · contradiction
    · cases taken
      rfl

theorem taken_big (big : PROTO_MBULK_BIG_ARG ≤ n) : ∃ s, cl.taken a h n = .sds s := by
  have large : ¬ n ≤ OBJ_ENCODING_EMBSTR_SIZE_LIMIT := by
    simp only [PROTO_MBULK_BIG_ARG, OBJ_ENCODING_EMBSTR_SIZE_LIMIT] at *
    omega
  unfold Client.taken
  rw [if_neg large]
  split <;> exact ⟨_, rfl⟩

theorem take_unread (a : Allocation) (h : Heap) (cl : Client) :
    (cl.take a h n).2.unread = cl.unread.drop (n + 2) := by
  have place : (cl.take a h n).2.stream = cl.stream ∧
      (cl.take a h n).2.base + (cl.take a h n).2.parser.qb_pos =
        cl.base + cl.parser.qb_pos + (n + 2) := by
    unfold Client.take
    dsimp only
    split
    · rename_i hands
      simp only [handsOver, Bool.and_eq_true, beq_iff_eq, decide_eq_true_eq] at hands
      exact ⟨rfl, by dsimp only; omega⟩
    · split
      · exact ⟨rfl, by dsimp only; omega⟩
      · exact ⟨rfl, by dsimp only; omega⟩
  rw [Client.unread, Client.unread, List.drop_drop, place.1, place.2]

/-- Where the parser stands, the query buffer will hold what the client sent from there on. -/
theorem unread_take (inv : Inv w) (here : w.clients c = some cl)
    (within : cl.parser.qb_pos + n + 2 ≤ cl.querybuf.len) :
    slice (w.heap.settled cl.querybuf.blk) cl.parser.qb_pos (cl.parser.qb_pos + n) =
      cl.unread.take n := by
  have tail : cl.querybuf.bytes w.heap.settled = cl.stream.drop cl.base := inv.tail here
  rw [Client.unread, ← List.drop_drop, ← tail, Sds.bytes, drop_slice, take_slice _ (by omega),
    Nat.zero_add]

theorem taken_bytes (inv : Inv w) (here : w.clients c = some cl)
    (terminated : w.heap.settled cl.querybuf.blk cl.querybuf.len = NUL)
    (clear : ∀ access ∈ cl.performMoves .copierSet a (.take n), w.heap.Clear access)
    (short : cl.submits .copierSet (.take n) < 2 ^ 31)
    (landed : w.heap.Clear (.read (cl.copiesNow (.take n))))
    (within : cl.parser.qb_pos + n + 2 ≤ cl.querybuf.len) :
    (cl.taken a w.heap n).bytes (cl.take a w.heap n).1.settled = cl.unread.take n := by
  have args := take_args inv here terminated clear short landed within
  have place : slice (cl.settled w.heap.settled).view cl.parser.qb_pos (cl.parser.qb_pos + n) =
      cl.unread.take n := by
    rw [← unread_take inv here within]
    exact slice_congr fun i _ high => (settled_view terminated (by omega)).symm
  rw [original_take_argv, take_argv, List.map_append] at args
  have last := List.cons.inj (List.append_inj_right' args rfl)
  refine last.1.trans ?_
  split
  · rename_i hands
    simp only [handsOver, Bool.and_eq_true, beq_iff_eq, decide_eq_true_eq] at hands
    rw [← unread_take inv here within, Sds.bytes, take_slice _ (by omega), hands.1.1]
  · exact place

theorem Sound.stores (sound : Sound w) (takes : Takes cfg w c cl n)
    (path : Runs.Path (Server.step cfg .copierSet) (Delivered cfg) w ls t) :
    StoresFirst cfg w ls c cl n := by
  rintro a after w' rfl stepped
  obtain ⟨r, delivered, stepped', rest⟩ := path.head
  cases stepped.symm.trans stepped'
  obtain ⟨here, pc, site, action⟩ := takes
  have steers := cl.action_steers cfg w pc
  rw [action] at steers
  obtain ⟨-, waits, within⟩ := steers
  have inv := sound.inv
  have terminated := inv.layout.terminated here (by simp [site])
  have clear := delivered.clear
  have short := delivered.short
  have landed := delivered.landed
  simp only [moves, site, here, action] at clear
  simp only [submitted, site, here, action] at short
  simp only [parses, looks, site, here, action, List.forall_mem_cons] at landed
  have after := sound.step delivered stepped
  simp only [Server.step, Server.internal, site, here, Option.bind_some, action, Server.perform,
    Option.some.injEq] at stepped
  subst stepped
  have found : (w.put (cl.take a w.heap n).1 c (cl.take a w.heap n).2 (.running c .bulks)).clients c =
      some (cl.take a w.heap n).2 := by
    simp only [World.put, Function.update_self]
  have argv : (cl.take a w.heap n).2.argv = cl.argv ++ [cl.taken a w.heap n] := take_argv ..
  have held : ∀ s, cl.taken a w.heap n = .sds s →
      (w.put (cl.take a w.heap n).1 c (cl.take a w.heap n).2 (.running c .bulks)).Holds (.sds s) :=
    fun s same => .inl ⟨c, _, found, by rw [argv, same]; exact List.mem_append_right _ List.mem_cons_self⟩
  have bytes := taken_bytes inv here terminated clear short landed.2.1 within
  refine ⟨_, cl.taken a w.heap n, found, argv, take_unread a _ cl, fun t' unwritten drained => ?_⟩
  cases unwritten.run_eq.symm.trans rest.run_eq
  -- the object is no query buffer any more, or never was one
  have stays : ∀ s, cl.taken a w.heap n = .sds s →
      t.heap.mem s.blk = (cl.take a w.heap n).1.settled s.blk := by
    intro s same
    rw [← Deferred.Heap.settled_drained drained]
    exact after.frames rest (unwritten.mono fun _ _ spared => spared s same)
      ⟨after.inv.layout.named (held s same), fun there =>
        (after.inv.layout.outside (held s same) there).symm⟩
  refine ⟨(sound.heading.parsed here).headed waits, ?_, ?_, fun s same => ?_, taken_big⟩
  · rw [(sound.heard.measured c cl here).unread]
    omega
  · rw [← bytes]
    exact Obj.bytes_congr fun s same => stays s same
  · have len := taken_len same
    have closed := after.inv.layout.closed (held s same)
    rw [len] at closed
    exact ⟨len, (congrFun (stays s same) n).trans closed⟩

/-- In runs of delivered steps big arguments are stored, and what follows them. -/
theorem big_arguments_stored
    (path : Runs.Path (Server.step cfg .copierSet) (Delivered cfg) Server.init ls t) :
    BigArgumentsStored cfg ls := by
  rintro before rest w c cl n rfl ran takes _
  obtain ⟨r, first, path⟩ := path.split
  cases ran.symm.trans first.run_eq
  have sound := Sound.init.run first
  refine ⟨sound.stores takes path, ?_⟩
  rintro between rest' w' cl' m rfl ran' takes'
  obtain ⟨r, second, path⟩ := path.split
  cases ran'.symm.trans second.run_eq
  exact (sound.run second).stores takes' path

end Arguments

/-- A client stands at an argument of `n` bytes that is the last of its request. -/
def waiting (n : ℕ) : Parser :=
  { Parser.created false with
    reqtype := some .PROTO_REQ_MULTIBULK
    multibulklen := 1
    bulklen := some n }

/-- The server has nothing to do, and client `c` has sent some of an argument it waits for. -/
structure Awaiting (w : World) (c : ℕ) (cl : Client) (n : ℕ) : Prop where
  here : w.clients c = some cl
  calm : w.luaTimedout = false
  parser : cl.parser = waiting n
  room : n + 2 ≤ cl.querybuf.alloc

section Awaiting
variable {w t : World} {c n : ℕ} {cl : Client} {guard : World → Label → Prop} {data : Bytes}

theorem serve_recv (pending : w.heap.ring = [.recv c b off (x :: data)])
    (here : w.clients c = some cl) : ∃ t, step .default .copierSet w .service = some t ∧
      t.heap.ring = (if data.isEmpty then [] else [.recv c b (off + 1) data]) ∧ t.site = w.site ∧
      t.luaTimedout = w.luaTimedout ∧ t.heap.settled = w.heap.settled ∧
      t.clients c = some { cl with descriptor := off } := by
  have served : ∃ h, w.heap.serve = some (h, some (c, off)) ∧
      h.ring = if data.isEmpty then [] else [.recv c b (off + 1) data] := by
    unfold Deferred.Heap.serve
    rw [pending]
    exact ⟨_, rfl, rfl⟩
  obtain ⟨h, served, ring⟩ := served
  refine ⟨{ w with heap := h, clients := raised w.clients (some (c, off)) }, ?_, ring, rfl, rfl,
    Deferred.Heap.settled_serve served, ?_⟩
  · simp only [Server.step, Server.service, served, Option.map_some]
  · simp only [raised, Function.update_self, here, Option.map_some]

/-- The service performs a receive byte by byte. -/
theorem serves_recv (served : ∀ s, guard s .service) (pending : w.heap.ring = [.recv c b off data])
    (arrives : data ≠ []) (here : w.clients c = some cl) :
    ∃ t d, Runs.Path (step .default .copierSet) guard w (serves data.length) t ∧
      t.heap.ring = [] ∧ t.site = w.site ∧ t.luaTimedout = w.luaTimedout ∧
      t.heap.settled = w.heap.settled ∧ t.clients c = some { cl with descriptor := d } := by
  induction data generalizing w off cl with
  | nil => exact absurd rfl arrives
  | cons x rest ih =>
    obtain ⟨u, stepped, ring, site, calm, settled, there⟩ := serve_recv pending here
    cases rest with
    | nil => exact ⟨u, off, .cons (served w) stepped (.refl u), ring, site, calm, settled, there⟩
    | cons y rest =>
      obtain ⟨t, d, path, drained, site', calm', settled', there'⟩ :=
        ih ring (List.cons_ne_nil _ _) there
      exact ⟨t, d, .cons (served w) stepped path, drained, site'.trans site, calm'.trans calm,
        settled'.trans settled, there'⟩

theorem Awaiting.served (awaiting : Awaiting w c cl n) (calm : t.luaTimedout = w.luaTimedout)
    (here : t.clients c = some { cl with descriptor := d }) :
    Awaiting t c { cl with descriptor := d } n :=
  ⟨here, calm.trans awaiting.calm, awaiting.parser, awaiting.room⟩

theorem Awaiting.resite (awaiting : Awaiting w c cl n) (site : Site) :
    Awaiting { w with site := site } c cl n :=
  ⟨awaiting.here, awaiting.calm, awaiting.parser, awaiting.room⟩

/-- The client, some more of its argument received. -/
def Client.received (cl : Client) (data : Bytes) : Client :=
  { cl with
    descriptor := (cl.querybuf.len : Int) - 1
    querybuf := { cl.querybuf with len := cl.querybuf.len + data.length }
    stream := cl.stream ++ data }

/-- A read of no more than the argument still lacks. -/
theorem reads_awaiting (awaiting : Awaiting w c cl n) (idle : w.site = .idle)
    (drained : w.heap.ring = [])
    (free : ∀ s l, s.heap = w.heap → submitted .default .copierSet s l < 2 ^ 31 → guard s l)
    (some : data ≠ []) (asked : data.length ≤ (waiting n).readlen cl.querybuf.len)
    (lacks : cl.querybuf.len + (waiting n).readlen cl.querybuf.len ≤ n + 2)
    (limit : n + 2 ≤ Config.default.client_max_querybuf_len) :
    ∃ t, Runs.Path (step .default .copierSet) guard w (reads c data) t ∧ t.site = .enter c ∧
      t.heap = (w.heap.submit (.recv c cl.querybuf.blk cl.querybuf.len data)).store
        ⟨cl.querybuf.blk, cl.querybuf.len + data.length, 1⟩ terminator ∧
      Awaiting t c (cl.received data) n := by
  have room := awaiting.room
  have roomy : sdsMakeRoomFor .exact w.heap cl.querybuf ((waiting n).readlen cl.querybuf.len) =
      (w.heap, cl.querybuf) := by
    unfold sdsMakeRoomFor
    rw [if_pos (by omega)]
  have readable : step .default .copierSet w (.input .exact (.event (.readable c data))) =
      Option.some (w.put w.heap c cl (.receive c data)) := by
    rw [← awaiting.parser] at asked roomy
    simp only [Server.step, idle, if_true, Server.event, awaiting.here, Option.bind_some, asked, roomy]
  have here : (w.put w.heap c cl (.receive c data)).clients c = Option.some cl := by
    simp only [World.put, Function.update_self]
  have received : step .default .copierSet (w.put w.heap c cl (.receive c data)) (.internal .exact) =
      Option.some (receive .default .copierSet (w.put w.heap c cl (.receive c data)) c cl data) := by
    simp only [Server.step, Server.internal, World.put, Function.update_self, Option.bind_some, drained,
      List.isEmpty_nil, if_true]
  refine ⟨receive .default .copierSet (w.put w.heap c cl (.receive c data)) c cl data,
    .cons (free _ _ rfl (Nat.two_pow_pos 31)) readable
      (.cons (free _ _ rfl (Nat.two_pow_pos 31)) received (.refl _)), ?_⟩
  have within : ¬ cl.querybuf.len + data.length > Config.default.client_max_querybuf_len := by
    omega
  unfold Server.receive
  dsimp only
  rw [if_neg some, if_neg within]
  refine ⟨rfl, rfl, ?_, awaiting.calm, awaiting.parser, awaiting.room⟩
  simp only [World.put, Function.update_self]
  rfl

/-- The code that leaves the parser as it is. -/
theorem goes (here : w.clients c = some cl) (site : w.site = .running c pc)
    (action : cl.action .default w pc = .go cl.parser next)
    (free : ∀ s l, s.heap = w.heap → submitted .default .copierSet s l < 2 ^ 31 → guard s l) :
    guard w (.internal .exact) ∧
      step .default .copierSet w (.internal .exact) = some { w with site := .running c next } := by
  constructor
  · refine free _ _ rfl ?_
    simp only [submitted, site, here, action, Client.submits]
    exact Nat.two_pow_pos 31
  · have same : Function.update w.clients c (some cl) = w.clients := by
      rw [← here, Function.update_eq_self]
    simp only [Server.step, Server.internal, site, here, Option.bind_some, action, Server.perform,
      World.put, same]

/-- From the head of the loop to the argument. -/
theorem thinks_awaiting (awaiting : Awaiting w c cl n) (site : w.site = .enter c)
    (some : 0 < cl.querybuf.len)
    (free : ∀ s l, s.heap = w.heap → submitted .default .copierSet s l < 2 ^ 31 → guard s l) :
    Runs.Path (step .default .copierSet) guard w (thinks 4) { w with site := .running c .argument } := by
  obtain ⟨here, calm, parser, -⟩ := awaiting
  have enter : step .default .copierSet w (.internal .exact) =
      Option.some { w with site := .running c .top } := by
    simp only [Server.step, Server.internal, site]
  have top : cl.action .default w .top = .go cl.parser .multibulk := by
    simp [Client.action, control, loopHead, parser, waiting, Parser.created, some]
  have multibulk : cl.action .default w .multibulk = .go cl.parser .bulks := by
    simp [Client.action, control, processMultibulkBuffer, parser, waiting]
  have bulks : cl.action .default w .bulks = .go cl.parser .argument := by
    simp [Client.action, control, bulkLength, parser, waiting]
  have top := goes (w := { w with site := .running c .top }) here rfl top free
  have multibulk := goes (w := { w with site := .running c .multibulk }) here rfl multibulk free
  have bulks := goes (w := { w with site := .running c .bulks }) here rfl bulks free
  refine .cons (free _ _ rfl ?_) enter (.cons top.1 top.2 (.cons multibulk.1 multibulk.2
    (.cons bulks.1 bulks.2 (.refl _))))
  simp only [submitted, site]
  exact Nat.two_pow_pos 31

/-- The rest of the argument has still to be received. -/
theorem stops_awaiting (awaiting : Awaiting w c cl n) (site : w.site = .running c .argument)
    (lacks : cl.querybuf.len < n + 2) (short : n < 2 ^ 30)
    (free : ∀ s l, s.heap = w.heap → submitted .default .copierSet s l < 2 ^ 31 → guard s l) :
    Runs.Path (step .default .copierSet) guard w (thinks 2) { w with site := .idle } := by
  obtain ⟨here, -, parser, -⟩ := awaiting
  have waits : cl.action .default w .argument = .go cl.parser .trim := by
    simp [Client.action, control, bulkArgument, parser, waiting, Parser.created, lacks]
  have argument := goes here site waits free
  have stop : step .default .copierSet { w with site := .running c .trim } (.internal .exact) =
      some { w with site := .idle } := by
    simp [Server.step, Server.internal, here, Client.action, control, Server.perform,
      Server.trimToPos, parser, waiting, Parser.created]
  refine .cons argument.1 argument.2 (.cons (free { w with site := .running c .trim } _ rfl ?_) stop
    (.refl _))
  simp only [submitted, here, Client.action, control, Client.submits]
  omega

/-- The query buffer is the argument and no more. -/
theorem hands_awaiting (awaiting : Awaiting w c cl n) (site : w.site = .running c .argument)
    (whole : cl.querybuf.len = n + 2) (big : PROTO_MBULK_BIG_ARG ≤ n) :
    Takes .default w c cl n ∧ handsOver cl.parser cl.querybuf.len n = true ∧
      step .default .copierSet w (.internal .exact) = some (w.put (cl.take .exact w.heap n).1 c
        (cl.take .exact w.heap n).2 (.running c .bulks)) := by
  obtain ⟨here, -, parser, -⟩ := awaiting
  have action : cl.action .default w .argument = .take n := by
    simp [Client.action, control, bulkArgument, parser, waiting, Parser.created, whole]
  refine ⟨⟨here, .argument, site, action⟩, ?_, ?_⟩
  · simp [handsOver, parser, waiting, Parser.created, whole, big]
  · simp only [Server.step, Server.internal, site, here, Option.bind_some, action, Server.perform]

theorem drained_delivered (drained : w.heap.ring = [])
    (short : submitted .default .copierSet w l < 2 ^ 31) : Delivered .default w l :=
  ⟨⟨fun access _ => Deferred.Heap.clear_drained drained access, short⟩,
    fun access _ => Deferred.Heap.clear_drained drained access⟩

theorem drained_free {u : World} (drained : u.heap.ring = []) (s : World) (l : Label)
    (same : s.heap = u.heap) (short : submitted .default .copierSet s l < 2 ^ 31) :
    Delivered .default s l := drained_delivered (by rw [same, drained]) short

theorem service_delivered (w : World) : Delivered .default w .service :=
  ⟨⟨fun _ => nofun, Nat.two_pow_pos 31⟩, fun _ => nofun⟩

/-- More of the argument is received, and the service keeps up. -/
theorem keeps_up (awaiting : Awaiting w c cl n) (idle : w.site = .idle) (drained : w.heap.ring = [])
    (arrives : data ≠ []) (asked : data.length ≤ (waiting n).readlen cl.querybuf.len)
    (lacks : cl.querybuf.len + (waiting n).readlen cl.querybuf.len ≤ n + 2)
    (limit : n + 2 ≤ Config.default.client_max_querybuf_len) :
    ∃ t cl', Runs.Path (step .default .copierSet) (Delivered .default) w
        (reads c data ++ (serves data.length ++ thinks 4)) t ∧
      Awaiting t c cl' n ∧ t.site = .running c .argument ∧ t.heap.ring = [] ∧
      cl'.querybuf.len = cl.querybuf.len + data.length ∧ cl'.argv = cl.argv := by
  have positive := List.length_pos_iff.mpr arrives
  obtain ⟨t, received, site, heap, awaiting⟩ := reads_awaiting awaiting idle drained
    (drained_free drained) arrives asked lacks limit
  have ring : t.heap.ring = [.recv c cl.querybuf.blk cl.querybuf.len data] := by
    rw [heap]
    simp only [Deferred.Heap.store, Deferred.Heap.submit, drained, List.nil_append]
  obtain ⟨u, d, served, drained, site', calm', -, here⟩ :=
    serves_recv service_delivered ring arrives awaiting.here
  have awaiting := awaiting.served calm' here
  have goes := thinks_awaiting awaiting (site'.trans site)
    (Nat.lt_of_lt_of_le positive (Nat.le_add_left _ _)) (drained_free drained)
  exact ⟨_, _, received.trans (served.trans goes), awaiting.resite _, rfl, drained, rfl, rfl⟩

/-- More of the argument is received, and the service does nothing yet. -/
theorem lags (awaiting : Awaiting w c cl n) (idle : w.site = .idle) (drained : w.heap.ring = [])
    (arrives : data ≠ []) (asked : data.length ≤ (waiting n).readlen cl.querybuf.len)
    (lacks : cl.querybuf.len + (waiting n).readlen cl.querybuf.len ≤ n + 2)
    (limit : n + 2 ≤ Config.default.client_max_querybuf_len) :
    ∃ t cl', Runs.run (step .default .copierSet) w (reads c data ++ thinks 4) = some t ∧
      Awaiting t c cl' n ∧ t.site = .running c .argument ∧
      t.heap.ring = [.recv c cl'.querybuf.blk cl.querybuf.len data] ∧
      cl'.querybuf.len = cl.querybuf.len + data.length ∧ cl'.argv = cl.argv := by
  have positive := List.length_pos_iff.mpr arrives
  obtain ⟨t, received, site, heap, awaiting⟩ := reads_awaiting awaiting idle drained
    (fun _ _ _ _ => trivial) arrives asked lacks limit
  have ring : t.heap.ring = [.recv c cl.querybuf.blk cl.querybuf.len data] := by
    rw [heap]
    simp only [Deferred.Heap.store, Deferred.Heap.submit, drained, List.nil_append]
  have goes := thinks_awaiting awaiting site
    (Nat.lt_of_lt_of_le positive (Nat.le_add_left _ _)) (fun _ _ _ _ => trivial)
  exact ⟨_, _, (received.trans goes).run_eq, awaiting.resite _, rfl, ring, rfl, rfl⟩

/-- A cell that a receive still has to deliver. -/
theorem settled_recv {h : Heap} (pending : h.ring = [.recv c b off data]) (low : off ≤ i)
    (high : i < off + data.length) : h.settled b i = data.getD (i - off) default := by
  rw [Deferred.Heap.settled, pending]
  exact Task.apply_recv_at low high

/-- The terminator is stored before the byte that belongs there arrives. -/
theorem hands_early (awaiting : Awaiting w c cl n) (site : w.site = .running c .argument)
    (pending : w.heap.ring = [.recv c cl.querybuf.blk off data])
    (whole : cl.querybuf.len = n + 2) (big : PROTO_MBULK_BIG_ARG ≤ n)
    (low : off ≤ n) (high : n < off + data.length) :
    ∃ w' t cl', Takes .default w c cl n ∧
      step .default .copierSet w (.internal .exact) = some w' ∧
      Runs.Path (step .default .copierSet) (fun _ l => .service = l) w' (serves data.length) t ∧
      t.heap.ring = [] ∧
      w'.clients c = some cl' ∧ cl'.argv = cl.argv ++ [.sds { cl.querybuf with len := n }] ∧
      t.heap.mem cl.querybuf.blk n = data.getD (n - off) default := by
  obtain ⟨takes, hands, taken⟩ := hands_awaiting awaiting site whole big
  have heap := take_heap .exact w.heap cl n
  have argv := take_argv .exact w.heap cl n
  rw [if_pos hands] at heap argv
  have ring : (cl.take .exact w.heap n).1.ring = [.recv c cl.querybuf.blk off data] := by
    rw [heap]
    exact pending
  have arrives : data ≠ [] := List.ne_nil_of_length_pos (by omega)
  have here : (w.put (cl.take .exact w.heap n).1 c (cl.take .exact w.heap n).2
      (.running c .bulks)).clients c = some (cl.take .exact w.heap n).2 := by
    simp only [World.put, Function.update_self]
  obtain ⟨t, d, served, drained, -, -, settled, -⟩ := serves_recv (fun _ => rfl) ring arrives here
  refine ⟨_, t, _, takes, taken, served, drained, here, argv, ?_⟩
  rw [← Deferred.Heap.settled_drained drained, settled]
  exact settled_recv ring low high

end Awaiting

/-- The length of the smallest big argument behind its header. -/
def bigHeader : Bytes := ascii "*1\r\n$17825792\r\n"

def headerRun : List Label := accepts 0 :: reads 0 bigHeader ++ serves 15 ++ thinks 10

/-- What the reads that follow depend on. -/
def awaitingView (w : World) : Site × Bool × Option (Parser × ℕ × Bool) :=
  (w.site, w.heap.ring.isEmpty && !w.luaTimedout, (w.clients 0).map fun cl =>
    (cl.parser, cl.querybuf.len, cl.argv.isEmpty && decide (PROTO_MBULK_BIG_ARG + 2 ≤ cl.querybuf.alloc)))

theorem headerRun_view : (Runs.run (fun w l => if Delivered .default w l then
    step .default .copierSet w l else none) init headerRun).map awaitingView =
      some (.idle, true, some (waiting PROTO_MBULK_BIG_ARG, 0, true)) := by
  decide +kernel

theorem headerRun_awaits : ∃ w cl,
    Runs.Path (step .default .copierSet) (Delivered .default) init headerRun w ∧
      Awaiting w 0 cl PROTO_MBULK_BIG_ARG ∧ w.site = .idle ∧ w.heap.ring = [] ∧
      cl.querybuf.len = 0 ∧ cl.argv = [] := by
  obtain ⟨w, ran, view⟩ := Option.map_eq_some_iff.mp headerRun_view
  simp only [awaitingView, Prod.mk.injEq, Bool.and_eq_true, List.isEmpty_iff, Bool.not_eq_true',
    Option.map_eq_some_iff, decide_eq_true_eq] at view
  obtain ⟨idle, ⟨drained, calm⟩, cl, here, parser, len, argv, room⟩ := view
  exact ⟨w, cl, .of_run ran, ⟨here, calm, parser, room⟩, idle, drained, len, argv⟩

theorem sizes : 0 < PROTO_IOBUF_LEN ∧ PROTO_IOBUF_LEN < PROTO_MBULK_BIG_ARG ∧
    PROTO_MBULK_BIG_ARG + 2 < PROTO_IOBUF_LEN + PROTO_IOBUF_LEN ∧ PROTO_MBULK_BIG_ARG < 2 ^ 30 ∧
    PROTO_MBULK_BIG_ARG + 2 ≤ Config.default.client_max_querybuf_len := by
  simp only [PROTO_IOBUF_LEN, PROTO_MBULK_BIG_ARG, Config.default]
  omega

/-- As much of the argument as one read takes. -/
def firstPart : Bytes := List.replicate PROTO_IOBUF_LEN 120

def secondPart : Bytes := List.replicate (PROTO_MBULK_BIG_ARG - PROTO_IOBUF_LEN) 120 ++ [CR, LF]

/-- The service keeps up with the first part. -/
def firstRun : List Label :=
  headerRun ++ ((reads 0 firstPart ++ (serves firstPart.length ++ thinks 4)) ++ thinks 2)

theorem firstRun_awaits : ∃ w cl,
    Runs.Path (step .default .copierSet) (Delivered .default) init firstRun w ∧
      Awaiting w 0 cl PROTO_MBULK_BIG_ARG ∧ w.site = .idle ∧ w.heap.ring = [] ∧
      cl.querybuf.len = PROTO_IOBUF_LEN ∧ cl.argv = [] := by
  obtain ⟨w, cl, path, awaiting, idle, drained, len, argv⟩ := headerRun_awaits
  obtain ⟨positive, below, -, short, limit⟩ := sizes
  have length : firstPart.length = PROTO_IOBUF_LEN := by
    rw [firstPart, List.length_replicate]
  have asks : (waiting PROTO_MBULK_BIG_ARG).readlen cl.querybuf.len = PROTO_IOBUF_LEN := by
    simp only [Parser.readlen, waiting, len]
    exact if_neg (by omega)
  have arrives : firstPart ≠ [] := List.ne_nil_of_length_pos (by omega)
  obtain ⟨t, cl', received, awaiting, site, drained, len', argv'⟩ := keeps_up awaiting idle drained
    arrives (by rw [asks, length]) (by omega) limit
  have stops := stops_awaiting awaiting site (by omega) short (drained_free drained)
  exact ⟨_, cl', path.trans (received.trans stops), awaiting.resite .idle, rfl, drained,
    by omega, argv'.trans argv⟩

theorem secondPart_length : secondPart.length = PROTO_MBULK_BIG_ARG - PROTO_IOBUF_LEN + 2 := by
  have two : [CR, LF].length = 2 := rfl
  rw [secondPart, List.length_append, List.length_replicate, two]

/-- The second read asks for what the argument still lacks. -/
theorem asks_rest {cl : Client} (len : cl.querybuf.len = PROTO_IOBUF_LEN) :
    (waiting PROTO_MBULK_BIG_ARG).readlen cl.querybuf.len =
      PROTO_MBULK_BIG_ARG - PROTO_IOBUF_LEN + 2 := by
  obtain ⟨positive, below, above, -⟩ := sizes
  simp only [Parser.readlen, waiting, len]
  refine (if_pos ⟨Nat.one_ne_zero, Nat.le_refl _, by omega, by omega⟩).trans ?_
  omega

theorem secondPart_arrives : secondPart ≠ [] :=
  List.ne_nil_of_length_pos (by rw [secondPart_length]; omega)

/-- The service keeps up with all of a big argument. -/
def bigRun : List Label :=
  firstRun ++ (reads 0 secondPart ++ (serves secondPart.length ++ thinks 4))

theorem kept_up_argument_stored : ∃ w cl,
    Runs.run (step .default .copierSet) init bigRun = some w ∧
      Takes .default w 0 cl PROTO_MBULK_BIG_ARG ∧ BigArgumentsStored .default (bigRun ++ thinks 1) := by
  obtain ⟨w, cl, path, awaiting, idle, drained, len, -⟩ := firstRun_awaits
  obtain ⟨-, below, -, -, limit⟩ := sizes
  have length := secondPart_length
  have asks := asks_rest len
  obtain ⟨t, cl', received, awaiting, site, drained, len', -⟩ := keeps_up awaiting idle drained
    secondPart_arrives (by rw [asks, length]) (by omega) limit
  obtain ⟨takes, hands, taken⟩ := hands_awaiting awaiting site (by omega) (Nat.le_refl _)
  have whole := path.trans received
  refine ⟨t, cl', whole.run_eq, takes, big_arguments_stored (whole.snoc ?_ taken)⟩
  refine drained_delivered drained ?_
  obtain ⟨pc, site, action⟩ := takes.action
  simp only [submitted, site, takes.here, action, Client.submits, hands, if_true]
  exact Nat.two_pow_pos 31

/-- The service lags behind the second part, which ends with a CR and a LF. -/
def lateRun : List Label := firstRun ++ (reads 0 secondPart ++ thinks 4)

theorem getD_line_end (n : ℕ) (x d : UInt8) : (List.replicate n x ++ [CR, LF]).getD n d = CR := by
  simp [List.getD_eq_getElem?_getD]

/-- The byte behind a big argument is a CR, not the end of a string. -/
theorem late_argument_unterminated : ¬ ∀ ls t,
    Runs.run (step .default .copierSet) init ls = some t → BigArgumentsStored .default ls := by
  intro always
  obtain ⟨w, cl, path, awaiting, idle, drained, len, -⟩ := firstRun_awaits
  obtain ⟨-, below, -, -, limit⟩ := sizes
  have length := secondPart_length
  have asks := asks_rest len
  obtain ⟨u, dl, late, awaiting, site, ring, len', argv⟩ := lags awaiting idle drained
    secondPart_arrives (by rw [asks, length]) (by omega) limit
  obtain ⟨w', t, el, takes, taken, served, drained, there, args, cr⟩ := hands_early awaiting site ring
    (by omega) (Nat.le_refl _) (by omega) (by omega)
  have before : Runs.run (step .default .copierSet) init lateRun = some u := by
    rw [lateRun, Runs.run_append, path.run_eq, Option.bind_some, late]
  have whole : Runs.run (step .default .copierSet) init
      (lateRun ++ .internal .exact :: serves secondPart.length) = some t := by
    rw [Runs.run_append, before, Option.bind_some, Runs.run, taken, Option.bind_some, served.run_eq]
  have stores := (always _ t whole lateRun _ u 0 dl _ rfl before takes (Nat.le_refl _)).1
  obtain ⟨el', o, there', args', -, stored⟩ := stores .exact _ w' rfl taken
  cases there.symm.trans there'
  have same := List.cons.inj (List.append_cancel_left (args'.symm.trans args))
  have stored := stored t (served.mono fun _ _ serves => by simp [Unwritten, rewritten, ← serves]) drained
  have closed := (stored.closed _ same.1).2
  rw [cr, len, secondPart, getD_line_end] at closed
  exact absurd closed (by decide)

end Server
end Copier.Redis
