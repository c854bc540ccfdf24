import Copier.Redis.Waits

/-! The memory of pending tasks. A step that writes and frees only what no pending
task has as its source or destination leaves every such region in place and as it
was; so do, step by step, all runs of such steps, whatever the service is at. -/
namespace Copier.Redis.Server
open Deferred (Mem Span Task Access)

section Strings
variable {h h' : Heap} {s : Sds} {a : Allocation}

theorem sdsrange_kept (pos : ℕ) (spares : h.Spares (sdsrangeAccesses s pos)) :
    h.Kept (sdsrange h s pos).1 := by
  unfold sdsrangeAccesses at spares
  unfold sdsrange
  split
  · exact .refl h
  · rename_i some
    rw [if_neg some, Deferred.Heap.spares_read, Deferred.Heap.spares_write] at spares
    exact .store spares.1 _

theorem moved_kept (named : h.Named) (clear : h.Clear (.free s.blk)) (n : ℕ) :
    h.Kept (moved h s n) := by
  have fresh : h.claim.Clear (.write ⟨h.next, 0, n⟩) := named.clear_fresh 0 n
  have claimed : h.Kept (h.claim.store ⟨h.next, 0, n⟩ (h.mem s.blk)) :=
    (Deferred.Heap.Kept.claim h).trans (.store fresh _)
  exact claimed.trans (.release fun b freed => List.mem_singleton.mp freed ▸ clear)

theorem sdsMakeRoomFor_kept (addlen : ℕ) (named : h.Named)
    (spares : h.Spares (sdsMakeRoomForAccesses a s addlen)) :
    h.Kept (sdsMakeRoomFor a h s addlen).1 := by
  unfold sdsMakeRoomForAccesses at spares
  unfold sdsMakeRoomFor
  split
  · exact .refl h
  · rename_i full
    rw [if_neg full] at spares
    dsimp only
    split
    · exact .refl h
    · rename_i moves
      rw [if_neg moves, movedAccesses, Deferred.Heap.spares_read, Deferred.Heap.spares_free] at spares
      exact moved_kept named spares.1 _

theorem sdsMakeRoomFor_owned (addlen : ℕ) (owned : s.blk < h.next) :
    (sdsMakeRoomFor a h s addlen).2.blk < (sdsMakeRoomFor a h s addlen).1.next ∧
      ((sdsMakeRoomFor a h s addlen).2.blk = s.blk → s.alloc ≤ (sdsMakeRoomFor a h s addlen).2.alloc) := by
  unfold sdsMakeRoomFor
  split
  · exact ⟨owned, fun _ => Nat.le_refl _⟩
  · rename_i full
    dsimp only
    split
    · refine ⟨owned, fun _ => ?_⟩
      have room := le_usable (grownLen s addlen) (a.slack 0)
      have grown : s.len + addlen ≤ grownLen s addlen := by
        unfold grownLen
        split <;> omega
      dsimp only
      omega
    · refine ⟨Nat.lt_succ_self _, fun same => ?_⟩
      exact absurd same (Nat.ne_of_gt owned)

theorem sdsRemoveFreeSpace_kept (regrow : Bool) (named : h.Named)
    (spares : h.Spares (sdsRemoveFreeSpaceAccesses a s)) :
    h.Kept (sdsRemoveFreeSpace a h s regrow).1 := by
  unfold sdsRemoveFreeSpaceAccesses at spares
  unfold sdsRemoveFreeSpace
  split
  · exact .refl h
  · rename_i wasteful
    rw [if_neg wasteful] at spares
    split
    · rename_i inPlace
      rw [if_pos inPlace, Deferred.Heap.spares_write] at spares
      exact .store spares.1 _
    · rename_i moves
      rw [if_neg moves, movedAccesses, Deferred.Heap.spares_read, Deferred.Heap.spares_free] at spares
      have kept := moved_kept named spares.1 (s.len + 1)
      have fresh : (moved h s (s.len + 1)).Clear (.write ⟨h.next, s.len, 1⟩) :=
        named.clear_fresh s.len 1
      exact kept.trans (.store fresh _)

theorem sdsRemoveFreeSpace_owned (regrow : Bool) (owned : s.blk < h.next) :
    (sdsRemoveFreeSpace a h s regrow).2.blk < (sdsRemoveFreeSpace a h s regrow).1.next := by
  unfold sdsRemoveFreeSpace
  split
  · exact owned
  · split
    · exact owned
    · exact Nat.lt_succ_self _

/-- Cells that pending tasks use are not given back in place. -/
theorem sdsRemoveFreeSpace_room (regrow : Bool) (owned : s.blk < h.next)
    (spares : h.Spares (sdsRemoveFreeSpaceAccesses a s))
    (same : (sdsRemoveFreeSpace a h s regrow).2.blk = s.blk) {t : Task UInt8 ℕ} (pending : t ∈ h.ring)
    (touches : t.Touches s.blk i) (inside : i ≤ s.alloc) :
    i ≤ (sdsRemoveFreeSpace a h s regrow).2.alloc := by
  unfold sdsRemoveFreeSpaceAccesses at spares
  unfold sdsRemoveFreeSpace at same ⊢
  split
  · exact inside
  · rename_i wasteful
    rw [if_neg wasteful] at spares same
    split
    · rename_i inPlace
      rw [if_pos inPlace, Deferred.Heap.spares_write, Deferred.Heap.spares_write] at spares
      obtain ⟨unwritten, unread⟩ := spares.2.1 t pending
      by_contra past
      have past : s.len < i := Nat.lt_of_not_le past
      have tail : (⟨s.blk, s.len + 1, s.alloc - s.len⟩ : Span).Has s.blk i :=
        ⟨rfl, past, by dsimp only; omega⟩
      rcases touches with written | read
      · exact written.not_of_apart unwritten tail
      · exact read.not_of_apart unread tail
    · rename_i moves
      rw [if_neg moves] at same
      exact absurd same (Nat.ne_of_gt owned)

theorem sdsnewlenCleared_kept (a : Allocation) (named : h.Named) (size : ℕ) :
    h.Kept (sdsnewlenCleared a h size).1 := by
  have fresh : h.claim.Clear (.write ⟨h.next, 0, 1⟩) := named.clear_fresh 0 1
  exact (Deferred.Heap.Kept.claim h).trans (.store fresh _)

theorem sdsnewlenCopyer_kept (off n : ℕ) (named : h.Named) (owned : src < h.next) :
    h.Kept (sdsnewlenCopyer a h src off n).1 := by
  have submitted : h.claim.Kept (h.claim.submit (.copy h.next 0 src off (intLength n))) :=
    .submit (Nat.lt_succ_self _) (Nat.lt_succ_of_lt owned)
  have filled := sdsnewlenCopyer_clear named owned off n
  exact (Deferred.Heap.Kept.claim h).trans (submitted.trans (.store filled _))

theorem sdscatlen_kept (named : h.Named) (data : Bytes)
    (spares : h.Spares (sdscatlenAccesses a h s data)) : h.Kept (sdscatlen a h s data).1 := by
  simp only [sdscatlenAccesses, Deferred.Heap.spares_append, Deferred.Heap.spares_write] at spares
  have grown := sdsMakeRoomFor_kept data.length named spares.1
  have len := sdsMakeRoomFor_len (a := a) h s data.length
  have ring := sdsMakeRoomFor_ring (a := a) h s data.length
  have free := clear_of_ring spares.2.1 ring
  rw [← len] at free
  exact grown.trans (.store free _)

theorem memcpyTo_kept (off : ℕ) (data : Bytes) (spares : h.Spares (memcpyToAccesses s off data)) :
    h.Kept (memcpyTo h s off data) := by
  unfold memcpyToAccesses at spares
  unfold memcpyTo
  split
  · rename_i fits
    rw [if_pos fits, Deferred.Heap.spares_write] at spares
    exact .store spares.1 _
  · exact .refl h

theorem spares_freed {blocks : List ℕ} : h.Spares (freed blocks) ↔ ∀ b ∈ blocks, h.Clear (.free b) := by
  simp [Deferred.Heap.Spares, freed, Deferred.Access.isRead]

theorem edit_kept {m m' : Memory} (does : Edit.Does a m e accesses m')
    (named : m.heap.Named) (spares : m.heap.Spares accesses) : m.heap.Kept m'.heap := by
  cases does with
  | drop | create | move => exact .release (spares_freed.mp spares)
  | encode => exact sdsRemoveFreeSpace_kept false named spares
  | append => exact sdscatlen_kept named _ spares
  | overwrite => exact memcpyTo_kept _ _ spares
  | nothing | revalue => exact .refl _

theorem script_kept (script : Script) {m : Memory} (named : m.heap.Named)
    (spares : m.heap.Spares (script.moves a m)) : m.heap.Kept (script.exec a m).1.heap := by
  induction script generalizing a m with
  | done => exact .refl _
  | length place next ih => exact ih _ named spares
  | read place off n next ih => exact ih _ named spares
  | edit e next ih =>
    simp only [Script.moves, Deferred.Heap.spares_append] at spares
    have first := edit_kept (e.does a m) named spares.1
    exact first.trans (ih (first.named named) (spares.2.of_ring (e.does a m).ring))

end Strings

/-- Blocks of pending tasks and query buffers were allocated. -/
structure World.Named (w : World) : Prop where
  ring : w.heap.Named
  buffers : w.clients c = some cl → cl.querybuf.blk < w.heap.next

/-- What the step writes and frees meets no pending task. -/
def Spares (cfg : Config) (v : Variant) (w : World) (l : Label) : Prop :=
  w.heap.Spares (moves cfg v w l)

/-- The endpoints of pending tasks are neither freed nor written, and a query buffer
that holds some does not shrink below them. -/
structure Stable (w w' : World) : Prop where
  kept : w.heap.Kept w'.heap
  room : w.clients c = some cl → w'.clients c = some cl' → cl'.querybuf.blk = cl.querybuf.blk →
    ∀ t ∈ w.heap.ring, ∀ i, t.Touches cl.querybuf.blk i → i ≤ cl.querybuf.alloc →
      i ≤ cl'.querybuf.alloc

section Stable
variable {cfg : Config} {v : Variant} {w w' : World} {h : Heap} {cl cl' : Client} {a : Allocation}

/-- A stable step that allocates what it hands out. -/
structure Keeps (w w' : World) : Prop extends Stable w w' where
  named : w'.Named

theorem Keeps.resite (named : w.Named) (site : Site) : Keeps w { w with site := site } where
  kept := .refl _
  room here there same t _ i _ inside := by
    cases here.symm.trans there
    exact inside
  named := ⟨named.ring, named.buffers⟩

theorem Keeps.put (named : w.Named) (here : w.clients c = some cl) (kept : w.heap.Kept h)
    (owned : cl'.querybuf.blk < h.next)
    (room : cl'.querybuf.blk = cl.querybuf.blk → ∀ t ∈ w.heap.ring, ∀ i,
      t.Touches cl.querybuf.blk i → i ≤ cl.querybuf.alloc → i ≤ cl'.querybuf.alloc) :
    Keeps w (w.put h c cl' site) := by
  refine ⟨⟨kept, fun {d dl dl'} before after same => ?_⟩, kept.named named.ring,
    fun {d dl} found => ?_⟩
  · rcases World.put_found after with ⟨rfl, rfl⟩ | ⟨-, there⟩
    · cases here.symm.trans before
      exact room same
    · cases before.symm.trans there
      exact fun _ _ _ _ inside => inside
  · rcases World.put_found found with ⟨-, rfl⟩ | ⟨-, there⟩
    · exact owned
    · exact Nat.lt_of_lt_of_le (named.buffers there) kept.grown

/-- The query buffer stays, with its length or without. -/
theorem Keeps.same (named : w.Named) (here : w.clients c = some cl) (kept : w.heap.Kept h)
    (blk : cl'.querybuf.blk = cl.querybuf.blk) (alloc : cl'.querybuf.alloc = cl.querybuf.alloc) :
    Keeps w (w.put h c cl' site) := by
  refine .put named here kept ?_ fun _ _ _ _ _ inside => alloc ▸ inside
  rw [blk]
  exact Nat.lt_of_lt_of_le (named.buffers here) kept.grown

theorem take_keeps (named : w.Named) (here : w.clients c = some cl)
    (spares : w.heap.Spares (cl.performMoves v a (.take bulklen))) :
    Keeps w (w.put (cl.take a w.heap bulklen).1 c (cl.take a w.heap bulklen).2 site) := by
  have owned := named.buffers here
  simp only [Client.performMoves] at spares
  unfold Client.take
  dsimp only
  split
  · rename_i hands
    rw [if_pos hands, Deferred.Heap.spares_write] at spares
    have stored : w.heap.Kept (w.heap.store ⟨cl.querybuf.blk, bulklen, 1⟩ terminator) :=
      .store spares.1 _
    have cleared := sdsnewlenCleared_kept a (stored.named named.ring) (bulklen + 2)
    refine .put named here (stored.trans cleared) (Nat.lt_succ_self _) fun same => ?_
    exact absurd same (Nat.ne_of_gt owned)
  · split
    · exact .same named here (.refl _) rfl rfl
    · exact .same named here (sdsnewlenCopyer_kept (a := a) _ _ named.ring owned) rfl rfl

theorem trimForBigArg_keeps {p : Parser} (named : w.Named) (here : w.clients c = some cl)
    (trims : trimsForBigArg ll cl.querybuf.len pos = true)
    (spares : w.heap.Spares (cl.bigArgMoves a ll pos)) :
    Keeps w (w.put (Client.trimForBigArg a w.heap { cl with parser := p } ll pos).1 c
      (Client.trimForBigArg a w.heap { cl with parser := p } ll pos).2 site) := by
  simp only [Client.bigArgMoves, trims, if_true, Deferred.Heap.spares_append] at spares
  have first := sdsrange_kept pos spares.1
  have front := sdsrange_len (h := w.heap) cl.querybuf pos
  have owned : (sdsrange w.heap cl.querybuf pos).2.blk < (sdsrange w.heap cl.querybuf pos).1.next := by
    rw [front, sdsrange_next]
    exact named.buffers here
  have later : (sdsrange w.heap cl.querybuf pos).1.Spares (sdsMakeRoomForAccesses a
      (sdsrange w.heap cl.querybuf pos).2 (ll + 2 - (sdsrange w.heap cl.querybuf pos).2.len)) := by
    rw [front]
    exact spares.2.of_ring (sdsrange_ring _ _ _)
  have second := sdsMakeRoomFor_kept _ (first.named named.ring) later
  obtain ⟨owned', room⟩ := sdsMakeRoomFor_owned (a := a)
    (ll + 2 - (sdsrange w.heap cl.querybuf pos).2.len) owned
  have blk : (sdsrange w.heap cl.querybuf pos).2.blk = cl.querybuf.blk := by rw [front]
  have alloc : (sdsrange w.heap cl.querybuf pos).2.alloc = cl.querybuf.alloc := by rw [front]
  refine .put named here (first.trans second) owned' fun same t _ i _ inside => ?_
  have enough := room (same.trans blk.symm)
  rw [alloc] at enough
  exact Nat.le_trans inside enough

theorem trimToPos_keeps (named : w.Named) (here : w.clients c = some cl)
    (spares : w.heap.Spares (cl.performMoves v a .trimToPos)) : Keeps w (trimToPos v w c cl) := by
  have owned := named.buffers here
  simp only [Client.performMoves, Client.trimMoves] at spares
  unfold trimToPos
  dsimp only
  split
  · exact .resite named _
  · rename_i unread
    cases v with
    | copierSet =>
      dsimp only
      split
      · exact .resite named _
      · refine .same named here ?_ rfl rfl
        split
        · exact .refl _
        · exact .submit owned owned
    | multiClient =>
      simp only [unread, if_false] at spares
      refine .same named here (sdsrange_kept _ spares) ?_ ?_ <;> rw [sdsrange_len]

theorem perform_keeps {action : Action} (named : w.Named) (here : w.clients c = some cl)
    (spares : w.heap.Spares (cl.performMoves v a action))
    (performed : perform cfg v a w c cl action = some w') : Keeps w w' := by
  cases action with
  | go p pc | resetClient =>
    cases performed
    exact .same named here (.refl _) rfl rfl
  | csync pc | assertFailed =>
    cases performed
    exact .resite named _
  | fail e =>
    cases performed
    have failed : Keeps w (w.put w.heap c
        { cl with parser := { cl.parser with closing := true } } (.running c .trim)) :=
      .same named here (.refl _) rfl rfl
    exact ⟨⟨failed.kept, failed.room⟩, failed.named.ring, failed.named.buffers⟩
  | bulkLength ll pos =>
    simp only [Server.perform] at performed
    split at performed <;> cases performed
    · exact trimForBigArg_keeps named here ‹_› spares
    · exact .same named here (.refl _) rfl rfl
  | take bulklen =>
    simp only [Server.perform, Option.some.injEq] at performed
    subst performed
    exact take_keeps named here spares
  | inlineArgs argv pos =>
    simp only [Server.perform] at performed
    split at performed <;> cases performed <;> exact .same named here (.refl _) rfl rfl
  | processCommand => cases performed
  | trimToPos =>
    cases performed
    exact trimToPos_keeps named here spares

theorem receive_keeps (named : w.Named) (here : w.clients c = some cl) (drained : w.heap.ring = []) :
    Keeps w (receive cfg v w c cl data) := by
  have owned := named.buffers here
  have submitted : w.heap.Kept (w.heap.submit (.recv c cl.querybuf.blk cl.querybuf.len data)) :=
    .submit owned owned
  have arriving := submitted.trans (.store (receive_clear drained c cl.querybuf data) terminator)
  unfold receive
  dsimp only
  split
  · cases v <;> exact .same named here (.refl _) rfl rfl
  · cases v <;> dsimp only <;> split <;> exact .same named here arriving rfl rfl

theorem internal_keeps (named : w.Named) (spares : Spares cfg v w (.internal a))
    (stepped : internal cfg v a w = some w') : Keeps w w' := by
  cases internal_stepped stepped with
  | receive c data cl site here drained => exact receive_keeps named here drained
  | enter => exact .resite named _
  | running c pc cl site here performed =>
    simp only [Spares, moves, site, here] at spares
    exact perform_keeps named here spares performed
  | wait c pc cl site here => exact .same named here (.refl _) rfl rfl
  | terminate c cl site here =>
    simp only [Spares, moves, site, here, Deferred.Heap.spares_write] at spares
    have stored : Keeps w (w.put (w.heap.store ⟨cl.querybuf.blk, cl.querybuf.len, 1⟩ terminator) c cl
        .idle) := .same named here (.store spares.1 _) rfl rfl
    rwa [World.put, ← here, Function.update_eq_self] at stored

/-- Only one client's flags and arguments change, or it goes. -/
theorem Keeps.update (named : w.Named) (here : w.clients c = some cl) (kept : w.heap.Kept w'.heap)
    (clients : w'.clients = Function.update w.clients c after)
    (same : ∀ cl' ∈ after, cl'.querybuf = cl.querybuf) : Keeps w w' := by
  have older : ∀ d dl', w'.clients d = some dl' →
      ∃ dl, w.clients d = some dl ∧ dl'.querybuf = dl.querybuf := by
    intro d dl' found
    rw [clients] at found
    rcases Runs.updated_found found with ⟨rfl, left⟩ | ⟨-, there⟩
    · exact ⟨cl, here, same dl' left⟩
    · exact ⟨dl', there, rfl⟩
  refine ⟨⟨kept, fun {d dl dl'} before after _ _ _ i _ inside => ?_⟩, kept.named named.ring,
    fun {d dl'} found => ?_⟩
  · obtain ⟨el, there, buffer⟩ := older d dl' after
    cases before.symm.trans there
    exact buffer ▸ inside
  · obtain ⟨dl, there, buffer⟩ := older d dl' found
    rw [buffer]
    exact Nat.lt_of_lt_of_le (named.buffers there) kept.grown

theorem execute_keeps (named : w.Named) (here : w.clients c = some cl)
    (spares : w.heap.Spares (executeMoves a w cl o)) : Keeps w (execute a w c cl pc o) := by
  simp only [executeMoves, Deferred.Heap.spares_append, spares_freed] at spares
  have ran := script_kept (scriptOf w cl o) named.ring spares.1
  have ring := (scriptOf w cl o).exec_ring a (w.memory cl)
  refine .update named here (ran.trans (.release fun b member => ?_)) rfl fun cl' after => ?_
  · exact clear_of_ring (spares.2 b member) ring
  · simp only [Option.mem_def] at after
    split at after
    · contradiction
    · cases after
      rfl

theorem accept_keeps (named : w.Named) (absent : w.clients c = none)
    (buffer : cl.querybuf = (sdsnewlenCleared a w.heap 0).2) :
    Keeps w (w.put (sdsnewlenCleared a w.heap 0).1 c cl .idle) := by
  have kept := sdsnewlenCleared_kept a named.ring 0
  refine ⟨⟨kept, fun {d dl dl'} before after _ => ?_⟩, kept.named named.ring, fun {d dl} found => ?_⟩
  · rcases World.put_found after with ⟨rfl, -⟩ | ⟨-, there⟩
    · cases absent.symm.trans before
    · cases before.symm.trans there
      exact fun _ _ _ _ inside => inside
  · rcases World.put_found found with ⟨-, rfl⟩ | ⟨-, there⟩
    · rw [buffer]
      exact Nat.lt_succ_self _
    · exact Nat.lt_of_lt_of_le (named.buffers there) kept.grown

theorem event_keeps {e : Event} (named : w.Named) (spares : w.heap.Spares (eventMoves a w e))
    (stepped : event v a w e = some w') : Keeps w w' := by
  cases event_occurs stepped with
  | accept c _ absent => exact accept_keeps named absent rfl
  | readable c cl data here =>
    simp only [eventMoves, here] at spares
    have kept := sdsMakeRoomFor_kept _ named.ring spares
    obtain ⟨owned, room⟩ := sdsMakeRoomFor_owned (a := a) (cl.parser.readlen cl.querybuf.len)
      (named.buffers here)
    cases v <;> exact .put named here kept owned fun same _ _ _ _ inside =>
      Nat.le_trans inside (room same)
  | unblock c cl here =>
    simp only [eventMoves, here, spares_freed] at spares
    exact .same named here (.release spares) rfl rfl
  | reprocess c cl here =>
    simp only [Server.reprocess]
    split
    · exact .same named here (.refl _) rfl rfl
    · split <;> exact .same named here (.refl _) rfl rfl
  | disconnect c cl here =>
    simp only [eventMoves, here, spares_freed] at spares
    exact .update named here (.release spares) rfl (by rintro _ ⟨⟩)
  | resize c cl here wasteful =>
    simp only [eventMoves, here] at spares
    rw [if_pos wasteful] at spares
    have owned := named.buffers here
    exact .put named here (sdsRemoveFreeSpace_kept true named.ring spares)
      (sdsRemoveFreeSpace_owned true owned) fun same t pending i touches inside =>
        sdsRemoveFreeSpace_room true owned spares same pending touches inside
  | keep => exact .resite named w.site
  | expire key =>
    simp only [eventMoves, spares_freed] at spares
    have released : Keeps w { w with heap := w.heap.release (argBlocks (w.db key).toList) } :=
      ⟨⟨.release spares, fun before after _ _ _ _ _ inside => by
        cases before.symm.trans after
        exact inside⟩, named.ring, named.buffers⟩
    exact ⟨⟨released.kept, released.room⟩, released.named.ring, released.named.buffers⟩

theorem step_keeps {l : Label} (named : w.Named) (spares : Spares cfg v w l) (other : l ≠ .service)
    (stepped : step cfg v w l = some w') : Keeps w w' := by
  cases step_stepped stepped with
  | service => contradiction
  | receive | enter | running | wait | terminate => exact internal_keeps named spares stepped
  | event idle occurs => exact event_keeps named spares occurs
  | command c pc cl o site here =>
    simp only [Spares, moves, site, here] at spares
    exact execute_keeps named here spares

theorem World.Named.init : Server.init.Named := ⟨fun _ => nofun, fun found => nomatch found⟩

end Stable

end Copier.Redis.Server
