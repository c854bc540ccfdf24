import Copier.Redis.Layout

/-! Every steady step keeps the layout, and with it the place of each query
buffer in its client's stream: once settled, a buffer holds the bytes sent from
its base on. Whether the parser looked at the right bytes does not matter here. -/
namespace Copier.Redis.Server
open Deferred (Mem Span Task Access)

/-- The query buffer will hold what its client sent from `base` on. -/
def Client.Tail (h : Heap) (cl : Client) : Prop :=
  cl.querybuf.bytes h.settled = cl.stream.drop cl.base

structure Inv (w : World) : Prop where
  layout : Layout w
  tail : w.clients c = some cl → cl.Tail w.heap

/-- Each string among the arguments was there before. -/
def Client.NoNewArgs (cl cl' : Client) : Prop :=
  ∀ (i : ℕ) (s : Sds), cl'.argv[i]? = some (.sds s) → cl.argv[i]? = some (.sds s)

/-- What a step does to its client's strings. -/
structure Client.Moved (w : World) (h : Heap) (cl cl' : Client) : Prop where
  shape : Reshaped w.heap h cl.querybuf cl'.querybuf (cl'.querybuf.bytes h.settled)
  fits : cl'.querybuf.len ≤ cl'.querybuf.alloc
  placed : ∀ i s, cl'.argv[i]? = some (.sds s) → Placed w h cl cl' i s
  tail : cl.Tail w.heap → cl'.Tail h

section Moves
variable {w : World} {h : Heap} {cl cl' : Client} {a : Allocation} {v : Variant}

theorem Inv.put (inv : Inv w) (here : w.clients c = some cl) (moved : Client.Moved w h cl cl')
    (running : ∀ d, d ≠ c → w.site ≠ .terminate d)
    (terminated : site ≠ .terminate c → h.settled cl'.querybuf.blk cl'.querybuf.len = NUL)
    (room : ∀ d data, site = .receive d data →
      d = c ∧ cl'.querybuf.len + data.length ≤ cl'.querybuf.alloc) :
    Inv (w.put h c cl' site) where
  layout := inv.layout.put here moved.shape running moved.placed moved.fits terminated room
  tail {d dl} found := by
    rcases World.put_found found with ⟨-, rfl⟩ | ⟨other, there⟩
    · exact moved.tail (inv.tail here)
    · have same := settled_other inv.layout here moved.shape there other
      exact (bytes_congr fun i _ => (congrFun same i).symm).trans (inv.tail there)

/-- Nothing moves when the strings stay as they are. -/
theorem Client.Moved.still (inv : Inv w) (here : w.clients c = some cl)
    (buffer : cl'.querybuf = cl.querybuf) (stream : cl'.stream = cl.stream)
    (base : cl'.base = cl.base) (args : cl.NoNewArgs cl') :
    Client.Moved w w.heap cl cl' where
  shape := by
    rw [buffer]
    exact ⟨rfl, fun _ _ _ => rfl, .inl rfl, Nat.le_refl _, inv.layout.wf, inv.layout.live here,
      fun _ old _ => old⟩
  fits := buffer ▸ inv.layout.fits here
  placed i s found := .inl (args i s found)
  tail tail := by
    rw [Client.Tail, buffer, stream, base]
    exact tail

/-- A rewritten buffer beside arguments that were there already. -/
theorem Client.Moved.rewritten
    (rewritten : Rewritten w.heap h cl.querybuf cl'.querybuf bytes)
    (fits : cl'.querybuf.len ≤ cl'.querybuf.alloc)
    (args : cl.NoNewArgs cl')
    (tail : cl.Tail w.heap → bytes = cl'.stream.drop cl'.base) : Client.Moved w h cl cl' where
  shape := { rewritten with reads := rfl }
  fits := fits
  placed i s found := .inl (args i s found)
  tail old := rewritten.reads.trans (tail old)

theorem trimmed_tail (bytes stream : Bytes) (base pos : ℕ) (length : bytes.length = n)
    (tail : bytes = stream.drop base) : bytes.drop pos = stream.drop (base + min pos n) := by
  subst tail
  rw [List.drop_drop]
  by_cases inside : pos ≤ n
  · rw [Nat.min_eq_left inside]
  · rw [Nat.min_eq_right (by omega)]
    rw [List.length_drop] at length
    rw [List.drop_eq_nil_of_le (by omega), List.drop_eq_nil_of_le (by omega)]

theorem sdsrange_len (s : Sds) (pos : ℕ) : (sdsrange h s pos).2 = { s with len := s.len - pos } := by
  unfold sdsrange
  split
  · rename_i empty
    rw [show s.len - pos = s.len by omega]
  · rfl

theorem trimForBigArg_moved (p : Parser) (inv : Inv w) (here : w.clients c = some cl)
    (terminated : w.heap.settled cl.querybuf.blk cl.querybuf.len = NUL)
    (trims : trimsForBigArg ll cl.querybuf.len pos = true)
    (clear : ∀ access ∈ cl.bigArgMoves a ll pos, w.heap.Clear access)
    (trimmed : { cl with parser := p }.trimForBigArg a w.heap ll pos = (h, cl')) :
    Client.Moved w h cl cl' ∧ h.settled cl'.querybuf.blk cl'.querybuf.len = NUL := by
  have wf := inv.layout.wf
  have fits := inv.layout.fits here
  simp only [Client.bigArgMoves, trims, if_true, List.forall_mem_append] at clear
  have ranged := sdsrange_rewritten wf (inv.layout.live here) terminated clear.1
  have len := sdsrange_len (h := w.heap) cl.querybuf pos
  have ring : (sdsrange w.heap cl.querybuf pos).1.ring = w.heap.ring := by
    unfold sdsrange
    split <;> rfl
  generalize atFront : sdsrange w.heap cl.querybuf pos = front at ranged len ring
  have short : front.2.len ≤ front.2.alloc := by
    rw [len]
    exact Nat.le_trans (Nat.sub_le _ _) fits
  have quiet : ∀ access ∈ sdsMakeRoomForAccesses a front.2 (ll + 2 - front.2.len),
      front.1.Clear access := by
    intro access member
    rw [len] at member
    have before := clear.2 access member
    cases access <;> simpa only [Deferred.Heap.Clear, ring] using before
  have grown := sdsMakeRoomFor_rewritten ranged.wf ranged.live ranged.terminated quiet short
  have both := ranged.trans wf grown
  have room := sdsMakeRoomFor_room (h := front.1) (a := a) short (ll + 2 - front.2.len)
  simp only [Client.trimForBigArg, atFront, Prod.mk.injEq] at trimmed
  obtain ⟨rfl, rfl⟩ := trimmed
  refine ⟨.rewritten both ?_ (fun _ _ found => found) fun tail => ?_, both.terminated⟩
  · dsimp only
    omega
  · dsimp only
    rw [ranged.reads]
    exact trimmed_tail _ _ _ _ (length_bytes _ _) tail

/-- One more argument, which is no string or one in a block of its own. -/
theorem placed_snoc (inv : Inv w) (here : w.clients c = some cl)
    (argv : cl'.argv = cl.argv ++ [o])
    (new : ∀ s, o = .sds s → s.Sound h ∧ s.blk ≠ cl'.querybuf.blk ∧
      (s.blk = cl.querybuf.blk ∨ w.heap.next ≤ s.blk)) :
    ∀ i s, cl'.argv[i]? = some (.sds s) → Placed w h cl cl' i s := by
  intro i s found
  rw [argv, List.getElem?_append] at found
  split at found
  · exact .inl found
  · rename_i past
    obtain ⟨last, same⟩ := List.getElem?_eq_some_iff.mp found
    have last : i = cl.argv.length := by
      simp only [List.length_singleton] at last
      omega
    obtain ⟨sound, apart, place⟩ := new s (by simpa using same)
    refine .inr ⟨sound, apart, place, fun j t other same => ?_⟩
    rw [argv, List.getElem?_append] at other
    split at other
    · have held : w.Holds (.sds t) := .inl ⟨c, cl, here, List.mem_of_getElem? other⟩
      rcases place with buffer | fresh
      · exact absurd (same.trans buffer) (inv.layout.outside held here)
      · exact absurd (same ▸ inv.layout.named held) (Nat.not_lt_of_le fresh)
    · obtain ⟨bound, -⟩ := List.getElem?_eq_some_iff.mp other
      simp only [List.length_singleton] at bound
      omega

theorem take_moved (inv : Inv w) (here : w.clients c = some cl)
    (terminated : w.heap.settled cl.querybuf.blk cl.querybuf.len = NUL)
    (clear : ∀ access ∈ cl.performMoves v a (.take bulklen), w.heap.Clear access)
    (short : cl.submits v (.take bulklen) < 2 ^ 31) :
    Client.Moved w (cl.take a w.heap bulklen).1 cl (cl.take a w.heap bulklen).2 ∧
      (cl.take a w.heap bulklen).1.settled (cl.take a w.heap bulklen).2.querybuf.blk
        (cl.take a w.heap bulklen).2.querybuf.len = NUL := by
  have wf := inv.layout.wf
  have live := inv.layout.live here
  have named := wf.named _ live
  simp only [Client.performMoves] at clear
  simp only [Client.submits] at short
  unfold Client.take
  dsimp only
  split
  · -- the query buffer becomes the argument, a new one takes its place
    rename_i hands
    simp only [hands, if_true, List.forall_mem_cons] at clear
    have fresh := sdsnewlenCleared_created (a := a)
      (wf.store ⟨cl.querybuf.blk, bulklen, 1⟩ terminator) (bulklen + 2)
    have settled := Deferred.Heap.settled_store (f := terminator) clear.1
    have own : (w.heap.store ⟨cl.querybuf.blk, bulklen, 1⟩ terminator).settled cl.querybuf.blk
        bulklen = NUL := by
      rw [settled]
      exact Deferred.store_at ⟨rfl, Nat.le_refl _, Nat.lt_succ_self _⟩
    refine ⟨⟨⟨rfl, fun b old other => ?_, .inr (Nat.le_refl _), Nat.le_succ _, fresh.wf,
      List.mem_cons_self, fun b member _ => fresh.kept b member⟩, Nat.zero_le _, ?_, fun tail => ?_⟩,
      fresh.sound.terminated⟩
    · rw [fresh.frame b old, settled]
      funext i
      exact Deferred.store_blk other
    · refine placed_snoc inv here rfl fun s same => ?_
      cases same
      have room : bulklen ≤ cl.querybuf.alloc := by
        have fits := inv.layout.fits here
        simp only [handsOver, Bool.and_eq_true, beq_iff_eq] at hands
        omega
      exact ⟨⟨fresh.kept _ live, room, (congrFun (fresh.frame _ named) _).trans own⟩,
        Nat.ne_of_lt named, .inl rfl⟩
    · have length := length_bytes w.heap.settled cl.querybuf
      rw [tail, List.length_drop] at length
      exact fresh.reads.trans (List.drop_eq_nil_of_le (by dsimp only; omega)).symm
  · rename_i copies
    rw [if_neg copies] at short
    split
    · refine ⟨{ Client.Moved.still inv here rfl rfl rfl fun _ _ found => found with
        placed := placed_snoc inv here rfl fun s same => by cases same }, terminated⟩
    · have new := sdsnewlenCopyer_created (a := a) cl.parser.qb_pos wf live short
      have kept := new.rewritten wf live terminated
      have fits := inv.layout.fits here
      refine ⟨⟨{ kept.toReshaped with reads := rfl }, fits, placed_snoc inv here rfl fun s same => ?_,
        fun tail => kept.reads.trans tail⟩, kept.terminated⟩
      cases same
      refine ⟨new.sound, ?_, .inr (Nat.le_of_eq new.blk.symm)⟩
      rw [new.blk]
      exact Nat.ne_of_gt named

/-- The submitted move of a set trim. -/
theorem submit_trim_reshaped {s : Sds} (wf : w.heap.Wf) (live : s.blk ∈ w.heap.live) (inside : pos ≤ s.len)
    (short : s.len - pos < 2 ^ 31) :
    Reshaped w.heap (w.heap.submit (.copy s.blk 0 s.blk pos (intLength (s.len - pos)))) s
      { s with len := s.len - pos } ((s.bytes w.heap.settled).drop pos) where
  reads := by
    rw [Deferred.Heap.settled_submit, intLength_eq short, Sds.bytes, Sds.bytes, drop_slice,
      Nat.zero_add]
    have moved : slice (fun i => w.heap.settled s.blk (pos + i)) 0 (s.len - pos) =
        slice (w.heap.settled s.blk) pos s.len := by
      rw [slice_shift, Nat.add_sub_cancel' inside]
    rw [← moved]
    refine slice_congr fun j _ high => ?_
    have high : j < s.len - pos := high
    have copied : (Task.copy s.blk 0 s.blk pos (s.len - pos) : Task UInt8 ℕ).apply
        w.heap.settled s.blk j = w.heap.settled s.blk (pos + (j - 0)) :=
      Task.apply_copy_at (Nat.zero_le _) (by omega)
    rw [copied, Nat.sub_zero]
  frame b _ other := by
    rw [Deferred.Heap.settled_submit]
    funext i
    exact Task.apply_off fun has => other has.1
  owner := .inl rfl
  grown := Nat.le_refl _
  wf := wf.submit (t := .copy s.blk 0 s.blk pos (intLength (s.len - pos))) live live
  live := live
  kept b member _ := member

/-- An empty rest needs no move. -/
theorem empty_trim_reshaped (wf : w.heap.Wf) (live : s.blk ∈ w.heap.live)
    (empty : s.len - pos = 0) :
    Reshaped w.heap w.heap s { s with len := s.len - pos } ((s.bytes w.heap.settled).drop pos) where
  reads := by
    rw [List.drop_eq_nil_of_le (by rw [length_bytes]; omega)]
    simp [Sds.bytes, slice, empty]
  frame _ _ _ := rfl
  owner := .inl rfl
  grown := Nat.le_refl _
  wf := wf
  live := live
  kept _ member _ := member

theorem receive_clear (drained : w.heap.ring = []) (tag : ℕ) (s : Sds) (data : Bytes) :
    (w.heap.submit (.recv tag s.blk s.len data)).Clear (.write ⟨s.blk, s.len + data.length, 1⟩) := by
  intro t member
  simp only [Deferred.Heap.submit, drained, List.nil_append, List.mem_singleton] at member
  subst member
  refine ⟨fun overlap => ?_, fun overlap => ?_⟩
  · have := overlap.2.2.1
    simp only [Task.writes] at this
    omega
  · have := overlap.2.2.2.1
    simp only [Task.reads] at this
    omega

/-- A receive into the drained queue appends to the query buffer. -/
theorem receive_rewritten (wf : w.heap.Wf) (live : s.blk ∈ w.heap.live)
    (drained : w.heap.ring = []) (tag : ℕ) (data : Bytes) :
    Rewritten w.heap ((w.heap.submit (.recv tag s.blk s.len data)).store
        ⟨s.blk, s.len + data.length, 1⟩ terminator) s { s with len := s.len + data.length }
      (s.bytes w.heap.settled ++ data) := by
  have clear := receive_clear drained tag s data
  have settled : ((w.heap.submit (.recv tag s.blk s.len data)).store
      ⟨s.blk, s.len + data.length, 1⟩ terminator).settled =
      Deferred.store ((Task.recv tag s.blk s.len data : Task UInt8 ℕ).apply w.heap.settled)
        ⟨s.blk, s.len + data.length, 1⟩ terminator := by
    rw [Deferred.Heap.settled_store clear, Deferred.Heap.settled_submit]
  have below : ∀ i, i < s.len + data.length →
      ¬ (⟨s.blk, s.len + data.length, 1⟩ : Span).Has s.blk i := by
    intro i low has
    have := has.2.1
    simp only at this
    omega
  refine ⟨⟨?_, fun b _ other => ?_, .inl rfl, Nat.le_refl _, (wf.submit (t := .recv tag s.blk s.len data) live live).store _ _,
    live, fun b member _ => member⟩, ?_⟩
  · rw [settled, Sds.bytes, ← slice_append _ (Nat.zero_le s.len) (Nat.le_add_right _ _)]
    congr 1
    · refine slice_congr fun i _ low => ?_
      rw [Deferred.store_off (below i (by omega)), Task.apply_off]
      intro has
      have := has.2.1
      simp only [Task.writes] at this
      omega
    · refine List.ext_getElem (by simp only [length_slice]; omega) fun k left right => ?_
      have landed : (Task.recv tag s.blk s.len data : Task UInt8 ℕ).apply w.heap.settled s.blk
          (s.len + k) = data.getD (s.len + k - s.len) default :=
        Task.apply_recv_at (Nat.le_add_right _ _) (by omega)
      rw [getElem_slice, Deferred.store_off (below _ (by omega)), landed, Nat.add_sub_cancel_left,
        List.getD_eq_getElem?_getD, List.getElem?_eq_getElem right, Option.getD_some]
  · rw [settled]
    funext i
    rw [Deferred.store_blk other]
    exact Task.apply_off fun has => other has.1
  · rw [settled]
    exact Deferred.store_at ⟨rfl, Nat.le_refl _, Nat.lt_succ_self _⟩

theorem Inv.still (inv : Inv w) (here : w.clients c = some cl) (buffer : cl'.querybuf = cl.querybuf)
    (stream : cl'.stream = cl.stream) (base : cl'.base = cl.base)
    (args : cl.NoNewArgs cl') (running : ∀ d, w.site ≠ .terminate d)
    (room : ∀ d data, site ≠ .receive d data) : Inv (w.put w.heap c cl' site) :=
  inv.put here (.still inv here buffer stream base args) (fun d _ => running d)
    (fun _ => buffer ▸ inv.layout.terminated here (running c))
    (fun d data received => absurd received (room d data))

theorem slot_congr {w' : World} (clients : w'.clients = w.clients) (db : w'.db = w.db) (x : Slot) :
    w'.slot x = w.slot x := by
  cases x <;> simp only [World.slot, clients, db]

theorem Inv.reheap {w' : World} (inv : Inv w) (wf : w'.heap.Wf)
    (clients : ∀ d dl', w'.clients d = some dl' → ∃ dl, w.clients d = some dl ∧
      dl'.querybuf = dl.querybuf ∧ dl'.stream = dl.stream ∧ dl'.base = dl.base ∧
        dl.querybuf.blk ∈ w'.heap.live ∧
          w'.heap.settled dl.querybuf.blk = w.heap.settled dl.querybuf.blk)
    (sound : ∀ s, w'.Holds (.sds s) → s.Sound w'.heap)
    (outside : ∀ s, w'.Holds (.sds s) → ∀ d dl, w.clients d = some dl → s.blk ≠ dl.querybuf.blk)
    (sole : ∀ x s y t, w'.slot x = some (.sds s) → w'.slot y = some (.sds t) → s.blk = t.blk → x = y)
    (open_ : ∀ d, w'.site ≠ .terminate d → w.site ≠ .terminate d)
    (room : ∀ d data, w'.site = .receive d data → w.site = .receive d data) : Inv w' where
  layout := inv.layout.reheap wf
    (fun d dl' found => by
      obtain ⟨dl, there, buffer, -, -, live, same⟩ := clients d dl' found
      exact ⟨dl, there, buffer, live, same⟩) sound outside sole open_ room
  tail {d dl'} found := by
    obtain ⟨dl, there, buffer, stream, base, -, same⟩ := clients d dl' found
    rw [Client.Tail, buffer, stream, base]
    exact (bytes_congr fun i _ => (congrFun same i).symm).trans (inv.tail there)

/-- A step that changes no memory that is kept: no string is new or moved. -/
theorem Inv.kept {w' : World} (inv : Inv w) (wf : w'.heap.Wf)
    (frame : w'.heap.settled = w.heap.settled)
    (clients : ∀ d dl', w'.clients d = some dl' → ∃ dl, w.clients d = some dl ∧
      dl'.querybuf = dl.querybuf ∧ dl'.stream = dl.stream ∧ dl'.base = dl.base ∧
        dl.querybuf.blk ∈ w'.heap.live)
    (slots : ∀ x s, w'.slot x = some (.sds s) →
      w.slot x = some (.sds s) ∧ s.blk ∈ w'.heap.live)
    (open_ : ∀ d, w'.site ≠ .terminate d → w.site ≠ .terminate d)
    (room : ∀ d data, w'.site = .receive d data → w.site = .receive d data) : Inv w' := by
  refine inv.reheap wf (fun d dl' found => ?_) (fun s held => ?_) (fun s held d dl there => ?_)
    (fun x s y t found found' same => ?_) open_ room
  · obtain ⟨dl, there, buffer, stream, base, live⟩ := clients d dl' found
    exact ⟨dl, there, buffer, stream, base, live, by rw [frame]⟩
  · obtain ⟨x, found⟩ := held.slot
    obtain ⟨old, live⟩ := slots x s found
    obtain ⟨-, fits, terminated⟩ := inv.layout.sound (World.slot_holds old)
    exact ⟨live, fits, frame ▸ terminated⟩
  · obtain ⟨x, found⟩ := held.slot
    exact inv.layout.outside (World.slot_holds (slots x s found).1) there
  · exact inv.layout.sole (slots x s found).1 (slots y t found').1 same

theorem Inv.resite (inv : Inv w) (running : ∀ d, w.site ≠ .terminate d)
    (room : ∀ d data, site ≠ .receive d data) : Inv { w with site := site } := by
  refine inv.kept inv.layout.wf rfl
    (fun _ dl found => ⟨dl, found, rfl, rfl, rfl, inv.layout.live found⟩) (fun x s found => ?_)
    (fun d _ => running d) (fun d e received => absurd received (room d e))
  rw [slot_congr rfl rfl] at found
  exact ⟨found, (inv.layout.sound (World.slot_holds found)).live⟩

/-- A client whose query buffer lost what the parser consumed. -/
def Client.trimmed (cl : Client) : Client :=
  { cl with
    parser := { cl.parser with qb_pos := 0 }
    querybuf := { cl.querybuf with len := cl.querybuf.len - cl.parser.qb_pos }
    base := cl.base + min cl.parser.qb_pos cl.querybuf.len }

theorem Client.Moved.trimmed (inv : Inv w) (here : w.clients c = some cl)
    (shape : Reshaped w.heap h cl.querybuf cl.trimmed.querybuf
      ((cl.querybuf.bytes w.heap.settled).drop cl.parser.qb_pos)) :
    Client.Moved w h cl cl.trimmed where
  shape := { shape with reads := rfl }
  fits := Nat.le_trans (Nat.sub_le _ _) (inv.layout.fits here)
  placed _ _ found := .inl found
  tail tail := shape.reads.trans (trimmed_tail _ _ _ _ (length_bytes _ _) tail)

theorem Inv.trimToPos (inv : Inv w) (here : w.clients c = some cl)
    (running : ∀ d, w.site ≠ .terminate d)
    (clear : ∀ access ∈ cl.performMoves v a .trimToPos, w.heap.Clear access)
    (short : cl.submits v .trimToPos < 2 ^ 31) : Inv (trimToPos v w c cl) := by
  have wf := inv.layout.wf
  have live := inv.layout.live here
  have terminated := inv.layout.terminated here (running c)
  unfold Server.trimToPos
  dsimp only
  split
  · exact inv.resite running (fun _ _ => nofun)
  · rename_i consumed
    cases v with
    | copierSet =>
      simp only [Client.submits] at short
      dsimp only
      split
      · exact inv.resite running (fun _ _ => nofun)
      · refine inv.put here (.trimmed inv here ?_) (fun d _ => running d) (fun open_ => absurd rfl open_)
          (fun _ _ => nofun)
        split
        · exact empty_trim_reshaped wf live ‹_›
        · exact submit_trim_reshaped wf live (by omega) short
    | multiClient =>
      simp only [Client.performMoves, Client.trimMoves, consumed, if_false] at clear
      have rewritten := sdsrange_rewritten wf live terminated clear
      rw [sdsrange_len] at rewritten
      dsimp only
      rw [sdsrange_len]
      exact inv.put here (.trimmed inv here rewritten.toReshaped) (fun d _ => running d)
        (fun _ => rewritten.terminated) (fun _ _ => nofun)

theorem Inv.perform {action : Action} (inv : Inv w) (here : w.clients c = some cl)
    (running : ∀ d, w.site ≠ .terminate d)
    (clear : ∀ access ∈ cl.performMoves v a action, w.heap.Clear access)
    (short : cl.submits v action < 2 ^ 31)
    (performed : perform cfg v a w c cl action = some w') : Inv w' := by
  have terminated := inv.layout.terminated here (running c)
  cases action with
  | go p pc =>
    cases performed
    exact inv.still here rfl rfl rfl (fun _ _ found => found) running (fun _ _ => nofun)
  | csync pc =>
    cases performed
    exact inv.resite running (fun _ _ => nofun)
  | fail e =>
    cases performed
    have failed : Inv (w.put w.heap c
        { cl with parser := { cl.parser with closing := true } } (.running c .trim)) :=
      inv.still here rfl rfl rfl (fun _ _ found => found) running (fun _ _ => nofun)
    exact ⟨⟨failed.layout.wf, failed.layout.live, failed.layout.fits, failed.layout.terminated,
      failed.layout.apart, failed.layout.sound, failed.layout.outside, failed.layout.sole,
      failed.layout.room⟩, failed.tail⟩
  | bulkLength ll pos =>
    simp only [Server.perform] at performed
    split at performed
    · rename_i trims
      cases performed
      obtain ⟨moved, closed⟩ := trimForBigArg_moved (a := a) _ inv here terminated trims clear rfl
      exact inv.put here moved (fun d _ => running d) (fun _ => closed) (fun _ _ => nofun)
    · cases performed
      exact inv.still here rfl rfl rfl (fun _ _ found => found) running (fun _ _ => nofun)
  | take bulklen =>
    cases performed
    obtain ⟨moved, closed⟩ := take_moved (a := a) inv here terminated clear short
    exact inv.put here moved (fun d _ => running d) (fun _ => closed) (fun _ _ => nofun)
  | inlineArgs argv pos =>
    simp only [Server.perform] at performed
    split at performed
    · cases performed
      exact inv.still here rfl rfl rfl (fun _ _ found => by simp at found) running
        (fun _ _ => nofun)
    · cases performed
      refine inv.still here rfl rfl rfl (fun i s found => ?_) running (fun _ _ => nofun)
      obtain ⟨_, -, made⟩ := List.mem_map.mp (List.mem_of_getElem? found)
      cases made
  | resetClient =>
    cases performed
    exact inv.still here rfl rfl rfl (fun _ _ found => by simp at found) running (fun _ _ => nofun)
  | processCommand => cases performed
  | trimToPos =>
    cases performed
    exact inv.trimToPos here running clear short
  | assertFailed =>
    cases performed
    exact inv.resite running (fun _ _ => nofun)

theorem Client.Moved.received (inv : Inv w) (here : w.clients c = some cl)
    (site : w.site = .receive c data) (measured : cl.base + cl.querybuf.len = cl.stream.length)
    (drained : w.heap.ring = []) (argv : cl'.argv = cl.argv)
    (buffer : cl'.querybuf = { cl.querybuf with len := cl.querybuf.len + data.length })
    (stream : cl'.stream = cl.stream ++ data) (base : cl'.base = cl.base) :
    Client.Moved w ((w.heap.submit (.recv c cl.querybuf.blk cl.querybuf.len data)).store
      ⟨cl.querybuf.blk, cl.querybuf.len + data.length, 1⟩ terminator) cl cl' := by
  have rewritten := receive_rewritten inv.layout.wf (inv.layout.live here) drained c data
  have fits := inv.layout.room site here
  rw [← buffer] at rewritten
  refine .rewritten rewritten (buffer ▸ fits) (fun i s found => argv ▸ found) fun tail => ?_
  rw [tail, stream, base, List.drop_append_of_le_length (by omega)]

theorem Inv.receive (inv : Inv w) (here : w.clients c = some cl) (site : w.site = .receive c data)
    (measured : cl.base + cl.querybuf.len = cl.stream.length) (drained : w.heap.ring = []) :
    Inv (receive cfg v w c cl data) := by
  have running : ∀ d, w.site ≠ .terminate d := by
    intro d other
    rw [site] at other
    cases other
  have rewritten := receive_rewritten inv.layout.wf (inv.layout.live here) drained c data
  have appended : ∀ (cl' : Client) (site' : Site), cl'.argv = cl.argv →
      cl'.querybuf = { cl.querybuf with len := cl.querybuf.len + data.length } →
      cl'.stream = cl.stream ++ data → cl'.base = cl.base → (∀ d e, site' ≠ .receive d e) →
      Inv (w.put ((w.heap.submit (.recv c cl.querybuf.blk cl.querybuf.len data)).store
        ⟨cl.querybuf.blk, cl.querybuf.len + data.length, 1⟩ terminator) c cl' site') := by
    intro cl' site' argv buffer stream base room
    refine inv.put here (.received inv here site measured drained argv buffer stream base)
      (fun d _ => running d) (fun _ => ?_) (fun d e received => absurd received (room d e))
    rw [buffer]
    exact rewritten.terminated
  unfold Server.receive
  cases v <;> dsimp only <;> split
  · exact inv.still here rfl rfl rfl (fun _ _ found => found) running (fun _ _ => nofun)
  · split <;> exact appended _ _ rfl rfl rfl rfl (fun _ _ => nofun)
  · exact inv.still here rfl rfl rfl (fun _ _ found => found) running (fun _ _ => nofun)
  · split <;> exact appended _ _ rfl rfl rfl rfl (fun _ _ => nofun)

/-- Storing the terminator changes none of the bytes before it. -/
theorem terminate_rewritten (inv : Inv w) (here : w.clients c = some cl)
    (clear : w.heap.Clear (.write ⟨cl.querybuf.blk, cl.querybuf.len, 1⟩)) :
    Rewritten w.heap (w.heap.store ⟨cl.querybuf.blk, cl.querybuf.len, 1⟩ terminator) cl.querybuf
      cl.querybuf (cl.querybuf.bytes w.heap.settled) := by
  have closed : Deferred.store w.heap.settled ⟨cl.querybuf.blk, cl.querybuf.len, 1⟩ terminator
      cl.querybuf.blk cl.querybuf.len = NUL :=
    Deferred.store_at ⟨rfl, Nat.le_refl _, Nat.lt_succ_self _⟩
  have rewritten := store_rewritten rfl inv.layout.wf (inv.layout.live here) clear rfl closed
  have same : cl.querybuf.bytes (Deferred.store w.heap.settled
      ⟨cl.querybuf.blk, cl.querybuf.len, 1⟩ terminator) =
      cl.querybuf.bytes w.heap.settled :=
    bytes_congr fun i low => (Deferred.store_off fun has => by
      have := has.2.1
      simp only at this
      omega).symm
  exact same ▸ rewritten

theorem Inv.terminate (inv : Inv w) (here : w.clients c = some cl) (site : w.site = .terminate c)
    (clear : w.heap.Clear (.write ⟨cl.querybuf.blk, cl.querybuf.len, 1⟩)) :
    Inv (w.put (w.heap.store ⟨cl.querybuf.blk, cl.querybuf.len, 1⟩ terminator) c cl .idle) := by
  have rewritten := terminate_rewritten inv here clear
  refine inv.put here (.rewritten rewritten (inv.layout.fits here) (fun _ _ found => found)
    fun tail => tail) (fun d other running => ?_) (fun _ => rewritten.terminated)
    (fun _ _ => nofun)
  rw [site, Site.terminate.injEq] at running
  exact other running.symm

theorem mem_argBlocks {objs : List Obj} : b ∈ argBlocks objs ↔ ∃ s, .sds s ∈ objs ∧ s.blk = b := by
  simp only [argBlocks, List.mem_flatMap]
  constructor
  · rintro ⟨o, member, blk⟩
    cases o with
    | value bytes => cases blk
    | sds s => exact ⟨s, member, (List.mem_singleton.mp blk).symm⟩
  · rintro ⟨s, member, rfl⟩
    exact ⟨.sds s, member, List.mem_singleton_self _⟩

/-- A place of client `c`'s command in the world. -/
def Place.slot (c : ℕ) : Place → Slot
  | .arg i => .arg c i
  | .value key => .value key

theorem Place.slot_inj {p q : Place} (same : Place.slot c p = Place.slot c q) : p = q := by
  cases p <;> cases q <;> cases same <;> rfl

theorem memory_find (here : w.clients c = some cl) (p : Place) :
    (w.memory cl).strings.find p = w.slot (Place.slot c p) := by
  cases p with
  | arg i => simp only [World.memory, Strings.find, World.slot, Place.slot, here, Option.bind_some]
  | value key => rfl

theorem Inv.memory (inv : Inv w) (here : w.clients c = some cl) : (w.memory cl).Sound where
  wf := inv.layout.wf
  sound found := by
    rw [memory_find here] at found
    exact inv.layout.sound (World.slot_holds found)
  sole found found' same := by
    rw [memory_find here] at found found'
    exact Place.slot_inj (inv.layout.sole found found' same)

/-- A command that has run in memory: query buffers and the other clients' arguments are as
they were, and what it works on lies elsewhere. -/
structure Ran (w : World) (c : ℕ) (m : Memory) : Prop where
  sound : m.Sound
  ring : m.heap.ring = w.heap.ring
  live : w.clients d = some dl → dl.querybuf.blk ∈ m.heap.live
  frame : w.clients d = some dl → m.heap.settled dl.querybuf.blk = w.heap.settled dl.querybuf.blk
  outside : m.strings.find p = some (.sds s) → w.clients d = some dl → s.blk ≠ dl.querybuf.blk
  others : d ≠ c → w.slot (.arg d i) = some (.sds s) → s.Sound m.heap
  same : d ≠ c → w.slot (.arg d i) = some (.sds s) → m.heap.settled s.blk = w.heap.settled s.blk
  apart : d ≠ c → w.slot (.arg d i) = some (.sds s) → m.strings.find p = some (.sds t) → s.blk ≠ t.blk

theorem Inv.ran {m : Memory} (inv : Inv w) (here : w.clients c = some cl)
    (edited : (w.memory cl).Edited m) : Ran w c m := by
  have buffers : ∀ d dl, w.clients d = some dl → ¬ (w.memory cl).Owns dl.querybuf.blk := by
    rintro d dl there ⟨p, s, found, same⟩
    rw [memory_find here] at found
    exact inv.layout.outside (World.slot_holds found) there same
  have others : ∀ d i s, d ≠ c → w.slot (.arg d i) = some (.sds s) →
      ¬ (w.memory cl).Owns s.blk := by
    rintro d i s other found ⟨p, t, found', same⟩
    rw [memory_find here] at found'
    have eq := inv.layout.sole found found' same.symm
    cases p with
    | arg j => exact other (Slot.arg.inj eq).1
    | value key => cases eq
  have foreign : ∀ b, b ∈ w.heap.live → ¬ (w.memory cl).Owns b →
      ∀ p t, m.strings.find p = some (.sds t) → b ≠ t.blk := by
    rintro b live other p t found rfl
    rcases edited.owned ⟨p, t, found, rfl⟩ with owns | fresh
    · exact other owns
    · exact Nat.not_le_of_lt (inv.layout.wf.named _ live) fresh
  refine ⟨edited.sound, edited.ring, fun there => ?_, fun there => ?_, fun found there => ?_,
    fun other found => ?_, fun other found => ?_, fun other found found' => ?_⟩
  · exact edited.kept (inv.layout.live there) (buffers _ _ there)
  · exact edited.frame (inv.layout.wf.named _ (inv.layout.live there)) (buffers _ _ there)
  · exact (foreign _ (inv.layout.live there) (buffers _ _ there) _ _ found).symm
  · obtain ⟨live, fits, terminated⟩ := inv.layout.sound (World.slot_holds found)
    have same := edited.frame (inv.layout.wf.named _ live) (others _ _ _ other found)
    exact ⟨edited.kept live (others _ _ _ other found), fits, (congrFun same _).trans terminated⟩
  · exact edited.frame (inv.layout.named (World.slot_holds found)) (others _ _ _ other found)
  · have live := (inv.layout.sound (World.slot_holds found)).live
    exact foreign _ live (others _ _ _ other found) _ _ found'

/-- The strings a command leaves behind, and those of the other clients. -/
theorem execute_slot (found : (execute a w c cl pc o).slot x = some obj) :
    (∃ p, x = Place.slot c p ∧
      ((scriptOf w cl o).exec a (w.memory cl)).1.strings.find p = some obj ∧
        ((∃ i, p = .arg i) → o.dead = false ∧ o.resets (commandOf w cl) = false)) ∨
      ∃ d i, x = .arg d i ∧ d ≠ c ∧ w.slot (.arg d i) = some obj := by
  cases x with
  | value key => exact .inl ⟨.value key, rfl, found, fun ⟨_, same⟩ => by cases same⟩
  | arg d i =>
    obtain ⟨dl, there, arg⟩ := Option.bind_eq_some_iff.mp found
    rcases Runs.updated_found there with ⟨rfl, left⟩ | ⟨other, there⟩
    · split at left
      · contradiction
      · rename_i alive
        cases left
        dsimp only at arg
        split at arg
        · simp at arg
        · rename_i stays
          refine .inl ⟨.arg i, rfl, arg, fun _ => ⟨?_, ?_⟩⟩
          · simpa using alive
          · simpa using stays
    · exact .inr ⟨d, i, rfl, other, Option.bind_eq_some_iff.mpr ⟨dl, there, arg⟩⟩

/-- A command frees its own client's arguments, unless it keeps them, and the query buffer
when the client goes. -/
theorem mem_releases {o : Outcome} {argv : List Obj} (member : b ∈ releases w cl o argv) :
    (∃ (i : ℕ) (s : Sds), argv[i]? = some (.sds s) ∧ b = s.blk ∧
      ¬ (o.dead = false ∧ o.resets (commandOf w cl) = false)) ∨
      o.dead = true ∧ b = cl.querybuf.blk := by
  rcases List.mem_append.mp member with gone | gone
  · split at gone
    · rename_i leaves
      obtain ⟨s, arg, same⟩ := mem_argBlocks.mp gone
      obtain ⟨i, found⟩ := List.getElem?_of_mem arg
      refine .inl ⟨i, s, found, same.symm, fun ⟨alive, stays⟩ => ?_⟩
      simp [alive, stays] at leaves
    · cases gone
  · split at gone
    · rename_i dead
      exact .inr ⟨dead, List.mem_singleton.mp gone⟩
    · cases gone

theorem Inv.execute (inv : Inv w) (here : w.clients c = some cl)
    (running : ∀ d, w.site ≠ .terminate d)
    (clear : ∀ access ∈ executeMoves a w cl o, w.heap.Clear access) :
    Inv (execute a w c cl pc o) := by
  simp only [executeMoves, List.forall_mem_append] at clear
  obtain ⟨scripted, frees⟩ := clear
  have ran := inv.ran here ((scriptOf w cl o).edited (inv.memory here) scripted)
  have wf : (Server.execute a w c cl pc o).heap.Wf :=
    ran.sound.wf.release (clear_freed (forall_clear_of_ring ran.ring frees))
  have released : ∀ b, b ∈ ((scriptOf w cl o).exec a (w.memory cl)).1.heap.live →
      b ∉ releases w cl o ((scriptOf w cl o).exec a (w.memory cl)).1.strings.argv →
      b ∈ (Server.execute a w c cl pc o).heap.live :=
    fun b live kept => Deferred.Heap.mem_release.mpr ⟨live, kept⟩
  have settled : (Server.execute a w c cl pc o).heap.settled =
      ((scriptOf w cl o).exec a (w.memory cl)).1.heap.settled := Deferred.Heap.settled_release _ _
  refine inv.reheap wf (fun d dl' found => ?_) (fun s held => ?_) (fun s held d dl there => ?_)
    (fun x s y t found found' same => ?_) (fun d _ => running d) (fun d data received => ?_)
  · -- the client itself keeps its query buffer; the others keep everything
    have buffer : ∀ dl, w.clients d = some dl → (o.dead = true → d ≠ c) →
        dl.querybuf.blk ∈ (Server.execute a w c cl pc o).heap.live ∧
          (Server.execute a w c cl pc o).heap.settled dl.querybuf.blk =
            w.heap.settled dl.querybuf.blk := by
      intro dl there remains
      refine ⟨released _ (ran.live there) fun member => ?_, settled ▸ ran.frame there⟩
      rcases mem_releases member with ⟨i, s, arg, same, -⟩ | ⟨dead, same⟩
      · exact ran.outside (p := .arg i) arg there same.symm
      · exact inv.layout.apart there here (remains dead) same
    rcases Runs.updated_found found with ⟨rfl, left⟩ | ⟨other, there⟩
    · split at left
      · contradiction
      · rename_i alive
        cases left
        exact ⟨cl, here, rfl, rfl, rfl, buffer cl here fun dead => absurd dead alive⟩
    · exact ⟨dl', there, rfl, rfl, rfl, buffer dl' there fun _ => other⟩
  · obtain ⟨x, found⟩ := held.slot
    rcases execute_slot found with ⟨p, rfl, there, stays⟩ | ⟨d, i, rfl, other, there⟩
    · obtain ⟨live, fits, terminated⟩ := ran.sound.sound there
      refine ⟨released _ live fun member => ?_, fits, settled ▸ terminated⟩
      rcases mem_releases member with ⟨i, t, arg, same, leaves⟩ | ⟨-, same⟩
      · exact leaves (stays ⟨i, ran.sound.sole (q := .arg i) there arg same⟩)
      · exact ran.outside there here same
    · obtain ⟨live, fits, terminated⟩ := ran.others other there
      refine ⟨released _ live fun member => ?_, fits, settled ▸ terminated⟩
      rcases mem_releases member with ⟨i, t, arg, same, -⟩ | ⟨-, same⟩
      · exact ran.apart (p := .arg i) other there arg same
      · exact inv.layout.outside (World.slot_holds there) here same
  · obtain ⟨x, found⟩ := held.slot
    rcases execute_slot found with ⟨p, -, found, -⟩ | ⟨e, i, -, -, found⟩
    · exact ran.outside found there
    · exact inv.layout.outside (World.slot_holds found) there
  · rcases execute_slot found with ⟨p, rfl, there, -⟩ | ⟨d, i, rfl, other, there⟩
    · rcases execute_slot found' with ⟨q, rfl, there', -⟩ | ⟨e, j, rfl, other', there'⟩
      · exact congrArg _ (ran.sound.sole there there' same)
      · exact absurd same.symm (ran.apart other' there' there)
    · rcases execute_slot found' with ⟨q, rfl, there', -⟩ | ⟨e, j, rfl, other', there'⟩
      · exact absurd same (ran.apart other there there')
      · exact inv.layout.sole there there' same
  · simp only [Server.execute] at received
    split at received
    · cases received
    · split at received
      · split at received <;> cases received
      · cases received

/-- A step that only frees memory: no query buffer of a remaining client, and
the clients and values that remain are as they were but for flags and arguments. -/
theorem Inv.released {w' : World} {blocks : List ℕ} (inv : Inv w)
    (heap : w'.heap = w.heap.release blocks)
    (clear : ∀ access ∈ freed blocks, w.heap.Clear access)
    (clients : ∀ d dl', w'.clients d = some dl' → ∃ dl, w.clients d = some dl ∧
      dl'.querybuf = dl.querybuf ∧ dl'.stream = dl.stream ∧ dl'.base = dl.base ∧
        dl.querybuf.blk ∉ blocks)
    (slots : ∀ x s, w'.slot x = some (.sds s) → w.slot x = some (.sds s) ∧ s.blk ∉ blocks)
    (running : ∀ d, w.site ≠ .terminate d) (room : ∀ d data, w'.site ≠ .receive d data) :
    Inv w' := by
  refine inv.kept (heap ▸ inv.layout.wf.release (clear_freed clear)) (heap ▸ rfl)
    (fun d dl' found => ?_) (fun x s found => ?_) (fun d _ => running d)
    (fun d data received => absurd received (room d data))
  · obtain ⟨dl, there, buffer, stream, base, kept⟩ := clients d dl' found
    exact ⟨dl, there, buffer, stream, base, heap ▸
      Deferred.Heap.mem_release.mpr ⟨inv.layout.live there, kept⟩⟩
  · obtain ⟨old, kept⟩ := slots x s found
    exact ⟨old, heap ▸ Deferred.Heap.mem_release.mpr
      ⟨(inv.layout.sound (World.slot_holds old)).live, kept⟩⟩

theorem not_mem_args (inv : Inv w) (here : w.clients c = some cl) (there : w.clients d = some dl) :
    dl.querybuf.blk ∉ argBlocks cl.argv := by
  intro member
  obtain ⟨s, arg, blk⟩ := mem_argBlocks.mp member
  exact inv.layout.outside (.inl ⟨c, cl, here, arg⟩) there blk

/-- The strings outside a client's arguments lie in other blocks than these. -/
theorem slot_not_mem_args (inv : Inv w) (here : w.clients c = some cl)
    (found : w.slot x = some (.sds s)) (other : ∀ i, x ≠ .arg c i) : s.blk ∉ argBlocks cl.argv := by
  intro member
  obtain ⟨t, arg, blk⟩ := mem_argBlocks.mp member
  obtain ⟨i, arg⟩ := List.getElem?_of_mem arg
  have there : w.slot (.arg c i) = some (.sds t) := Option.bind_eq_some_iff.mpr ⟨cl, here, arg⟩
  exact other i (inv.layout.sole found there blk.symm)

theorem Inv.accept (inv : Inv w) (absent : w.clients c = none)
    (running : ∀ d, w.site ≠ .terminate d) (buffer : cl.querybuf = (sdsnewlenCleared a w.heap 0).2)
    (argv : cl.argv = []) (stream : cl.stream = []) :
    Inv (w.put (sdsnewlenCleared a w.heap 0).1 c cl .idle) := by
  have wf := inv.layout.wf
  have fresh := sdsnewlenCleared_created (a := a) wf 0
  have blk : cl.querybuf.blk = w.heap.next := by rw [buffer, fresh.blk]
  have closed : (sdsnewlenCleared a w.heap 0).1.settled cl.querybuf.blk cl.querybuf.len = NUL := by
    rw [buffer]
    exact fresh.sound.terminated
  have reads : cl.Tail (sdsnewlenCleared a w.heap 0).1 := by
    rw [Client.Tail, buffer, fresh.reads, stream, List.drop_nil]
  have older : ∀ {d dl}, w.clients d = some dl → dl.querybuf.blk < w.heap.next :=
    fun there => wf.named _ (inv.layout.live there)
  have slots : ∀ x s, (w.put (sdsnewlenCleared a w.heap 0).1 c cl .idle).slot x = some (.sds s) →
      w.slot x = some (.sds s) := by
    intro x s found
    rcases World.slot_put found with ⟨i, -, arg⟩ | ⟨old, -⟩
    · rw [argv] at arg
      simp at arg
    · exact old
  have held : ∀ s, (w.put (sdsnewlenCleared a w.heap 0).1 c cl .idle).Holds (.sds s) →
      w.Holds (.sds s) := by
    intro s holds
    obtain ⟨x, found⟩ := holds.slot
    exact World.slot_holds (slots x s found)
  refine ⟨⟨fresh.wf, ?_, ?_, ?_, ?_, fun {s} holds => ?_, ?_, fun {x s y t} found found' same => ?_,
    fun received => by cases received⟩, ?_⟩
  · intro d dl found
    rcases World.put_found found with ⟨rfl, rfl⟩ | ⟨other, there⟩
    · rw [blk]
      exact List.mem_cons_self
    · exact fresh.kept _ (inv.layout.live there)
  · intro d dl found
    rcases World.put_found found with ⟨rfl, rfl⟩ | ⟨other, there⟩
    · rw [buffer]
      exact Nat.zero_le _
    · exact inv.layout.fits there
  · intro d dl found _
    rcases World.put_found found with ⟨rfl, rfl⟩ | ⟨other, there⟩
    · exact closed
    · exact (congrFun (fresh.frame _ (older there)) _).trans
        (inv.layout.terminated there (running d))
  · intro d dl e el found found' different
    rcases World.put_found found with ⟨rfl, rfl⟩ | ⟨other, there⟩
    · rcases World.put_found found' with ⟨rfl, rfl⟩ | ⟨other', there'⟩
      · exact absurd rfl different
      · rw [blk]
        exact Nat.ne_of_gt (older there')
    · rcases World.put_found found' with ⟨rfl, rfl⟩ | ⟨other', there'⟩
      · rw [blk]
        exact Nat.ne_of_lt (older there)
      · exact inv.layout.apart there there' different
  · have old := inv.layout.sound (held s holds)
    have same := fresh.frame _ (inv.layout.named (held s holds))
    exact ⟨fresh.kept _ old.live, old.fits, (congrFun same _).trans old.terminated⟩
  · intro s d dl holds found
    rcases World.put_found found with ⟨rfl, rfl⟩ | ⟨other, there⟩
    · rw [blk]
      exact Nat.ne_of_lt (inv.layout.named (held s holds))
    · exact inv.layout.outside (held s holds) there
  · exact inv.layout.sole (slots x s found) (slots y t found') same
  · intro d dl found
    rcases World.put_found found with ⟨rfl, rfl⟩ | ⟨other, there⟩
    · exact reads
    · exact (bytes_congr fun i _ => (congrFun (fresh.frame _ (older there)) i).symm).trans
        (inv.tail there)

theorem Inv.event {e : Event} (inv : Inv w) (idle : w.site = .idle)
    (clear : ∀ access ∈ eventMoves a w e, w.heap.Clear access)
    (stepped : event v a w e = some w') : Inv w' := by
  have running : ∀ d, w.site ≠ .terminate d := fun d => by simp [idle]
  cases event_occurs stepped with
  | accept c _ absent =>
    exact inv.accept absent running rfl rfl rfl
  | readable c cl data here =>
    simp only [eventMoves, here] at clear
    have terminated := inv.layout.terminated here (running c)
    have fits := inv.layout.fits here
    have rewritten := sdsMakeRoomFor_rewritten inv.layout.wf (inv.layout.live here) terminated clear
      fits
    obtain ⟨len, room⟩ := sdsMakeRoomFor_room (h := w.heap) (a := a) fits
      (cl.parser.readlen cl.querybuf.len)
    have roomy : (sdsMakeRoomFor a w.heap cl.querybuf (cl.parser.readlen cl.querybuf.len)).2.len ≤
        (sdsMakeRoomFor a w.heap cl.querybuf (cl.parser.readlen cl.querybuf.len)).2.alloc := by
      omega
    cases v <;>
      refine inv.put here (.rewritten rewritten roomy (fun _ _ found => found)
        fun tail => tail) (fun d _ => running d) (fun _ => rewritten.terminated)
        (fun d e received => ?_) <;>
      cases received <;> exact ⟨rfl, by simp only [Client.grown]; omega⟩
  | unblock c cl here =>
    simp only [eventMoves, here] at clear
    have kept : ∀ d dl, w.clients d = some dl → dl.querybuf.blk ∉ cl.unblockFrees := by
      intro d dl there
      unfold Client.unblockFrees
      split
      · simp
      · exact not_mem_args inv here there
    refine inv.released rfl clear (fun d dl found => ?_) (fun x s found => ?_) running
      (by rintro _ _ ⟨⟩)
    · rcases World.put_found found with ⟨rfl, rfl⟩ | ⟨-, there⟩
      · exact ⟨cl, here, rfl, rfl, rfl, kept _ cl here⟩
      · exact ⟨dl, there, rfl, rfl, rfl, kept _ dl there⟩
    · unfold Client.unblockFrees
      rcases World.slot_put found with ⟨i, rfl, arg⟩ | ⟨old, other⟩
      · simp only [Client.unblock] at arg
        split at arg
        · rename_i pending
          rw [if_pos pending]
          exact ⟨Option.bind_eq_some_iff.mpr ⟨cl, here, arg⟩, by simp⟩
        · simp at arg
      · refine ⟨old, ?_⟩
        split
        · simp
        · exact slot_not_mem_args inv here old other
  | reprocess c cl here =>
    simp only [Server.reprocess]
    split
    · exact inv.still here rfl rfl rfl (fun _ _ found => found) running (by rintro _ _ ⟨⟩)
    · split
      · exact inv.still here rfl rfl rfl (fun _ _ found => found) running (by rintro _ _ ⟨⟩)
      · refine inv.still here rfl rfl rfl (fun _ _ found => found) running (fun d e => ?_)
        split <;> rintro ⟨⟩
  | disconnect c cl here =>
    simp only [eventMoves, here] at clear
    refine inv.released rfl clear (fun d dl found => ?_) (fun x s found => ?_) running
      (fun d data => by simp [idle])
    · rcases Runs.updated_found found with ⟨-, gone⟩ | ⟨other, there⟩
      · cases gone
      · refine ⟨dl, there, rfl, rfl, rfl, fun freed => ?_⟩
        rcases List.mem_cons.mp freed with own | arg
        · exact inv.layout.apart there here other own
        · exact not_mem_args inv here there arg
    · have old : w.slot x = some (.sds s) ∧ ∀ i, x ≠ .arg c i := by
        cases x with
        | value key => exact ⟨found, fun _ same => by cases same⟩
        | arg d i =>
          obtain ⟨dl, there, arg⟩ := Option.bind_eq_some_iff.mp found
          rcases Runs.updated_found there with ⟨-, gone⟩ | ⟨other, there⟩
          · cases gone
          · exact ⟨Option.bind_eq_some_iff.mpr ⟨dl, there, arg⟩,
              fun _ same => other (Slot.arg.inj same).1⟩
      refine ⟨old.1, fun freed => ?_⟩
      rcases List.mem_cons.mp freed with own | arg
      · exact inv.layout.outside (World.slot_holds old.1) here own
      · exact slot_not_mem_args inv here old.1 old.2 arg
  | resize c cl here wasteful =>
    simp only [eventMoves, here] at clear
    rw [if_pos wasteful] at clear
    have rewritten := sdsRemoveFreeSpace_rewritten true inv.layout.wf
      (inv.layout.live here) (inv.layout.terminated here (running c)) clear
    exact inv.put here (.rewritten rewritten
      (sdsRemoveFreeSpace_fits (inv.layout.fits here)) (fun _ _ found => found)
      fun tail => tail) (fun d _ => running d) (fun _ => rewritten.terminated) (by rintro _ _ ⟨⟩)
  | keep => exact inv
  | expire key =>
    simp only [eventMoves] at clear
    refine inv.released rfl clear (fun d dl found => ?_) (fun x s found => ?_) running
      (fun d data => by simp [idle])
    · refine ⟨dl, found, rfl, rfl, rfl, fun member => ?_⟩
      obtain ⟨s, stored, blk⟩ := mem_argBlocks.mp member
      exact inv.layout.outside (.inr ⟨key, Option.mem_toList.mp stored⟩) found blk
    · have old : w.slot x = some (.sds s) ∧ x ≠ .value key := by
        cases x with
        | arg d i => exact ⟨found, fun same => by cases same⟩
        | value other =>
          rcases Runs.updated_found found with ⟨-, gone⟩ | ⟨different, stored⟩
          · cases gone
          · exact ⟨stored, fun same => different (Slot.value.inj same)⟩
      refine ⟨old.1, fun member => ?_⟩
      obtain ⟨t, stored, blk⟩ := mem_argBlocks.mp member
      have there : w.slot (.value key) = some (.sds t) := Option.mem_toList.mp stored
      exact old.2 (inv.layout.sole old.1 there blk.symm)

theorem Inv.service (inv : Inv w) (stepped : service w = some w') : Inv w' := by
  simp only [Server.service, Option.map_eq_some_iff, Prod.exists] at stepped
  obtain ⟨h, report, served, rfl⟩ := stepped
  obtain ⟨next, live⟩ := Deferred.Heap.serve_live served
  refine inv.kept (inv.layout.wf.serve served) (Deferred.Heap.settled_serve served)
    (fun d dl' found => ?_) (fun x s found => ?_) (fun _ running => running)
    (fun _ _ received => received)
  · obtain ⟨dl, e, there, rfl⟩ := raised_found found
    exact ⟨dl, there, rfl, rfl, rfl, live ▸ inv.layout.live there⟩
  · have old : w.slot x = some (.sds s) := by
      cases x with
      | value key => exact found
      | arg d i =>
        obtain ⟨dl', raised, arg⟩ := Option.bind_eq_some_iff.mp found
        obtain ⟨dl, e, there, rfl⟩ := raised_found raised
        exact Option.bind_eq_some_iff.mpr ⟨dl, there, arg⟩
    exact ⟨old, live ▸ (inv.layout.sound (World.slot_holds old)).live⟩

theorem Inv.step {l : Label} (inv : Inv w)
    (measured : ∀ c cl, w.clients c = some cl → cl.base + cl.querybuf.len = cl.stream.length)
    (steady : Steady cfg v w l) (stepped : step cfg v w l = some w') : Inv w' := by
  have clear := steady.clear
  have short := steady.short
  cases step_stepped stepped with
  | service served => exact inv.service served
  | event idle occurs => exact inv.event idle clear occurs
  | command c pc cl o site here =>
    simp only [moves, site, here] at clear
    exact inv.execute here (fun d => by simp [site]) clear
  | receive c data cl site here drained => exact inv.receive here site (measured c cl here) drained
  | enter c site => exact inv.resite (fun d => by simp [site]) (by rintro _ _ ⟨⟩)
  | running c pc cl site here performed =>
    simp only [moves, site, here] at clear
    simp only [submitted, site, here] at short
    exact inv.perform here (fun d => by simp [site]) clear short performed
  | wait c pc cl site here =>
    exact inv.still here rfl rfl rfl (fun _ _ found => found) (fun d => by simp [site])
      (by rintro _ _ ⟨⟩)
  | terminate c cl site here =>
    simp only [moves, site, here, List.forall_mem_cons] at clear
    have closed := inv.terminate here site clear.1
    rwa [World.put, ← here, Function.update_eq_self] at closed

theorem Inv.init : Inv Server.init where
  layout :=
    { wf := ⟨fun _ => nofun, fun _ => nofun, fun _ => nofun⟩
      live := fun found => nomatch found
      fits := fun found => nomatch found
      terminated := fun found => nomatch found
      apart := fun found => nomatch found
      sound := fun held => by rcases held with ⟨c, cl, found, -⟩ | ⟨key, stored⟩ <;> contradiction
      outside := fun _ found => nomatch found
      sole := fun {x} {_} {_} {_} found => by cases x <;> cases found
      room := fun received => nomatch received }
  tail found := nomatch found

end Moves
end Copier.Redis.Server
