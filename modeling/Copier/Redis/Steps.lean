import Copier.Redis.Invariant

/-! What a step of the server thread other than a receive does to the queue and
to its clients, disturbed or not: it adds copies behind what is pending, and a
client's query buffer gets shorter at most, in its old block or in a new one. -/
namespace Copier.Redis.Server
open Deferred (Mem Span Task Access)

/-- Copies were submitted behind the pending tasks. -/
def Extends (h h' : Heap) : Prop :=
  ∃ ts : List (Task UInt8 ℕ), (∀ t ∈ ts, t.isCopy) ∧ h'.ring = h.ring ++ ts

/-- How much of its stream a client's buffer stands for. -/
def Client.Measured (cl : Client) : Prop := cl.base + cl.querybuf.len = cl.stream.length

def World.Measured (w : World) : Prop := ∀ c cl, w.clients c = some cl → cl.Measured

/-- What may become of a client; blocks from `next` on are new. -/
structure Client.Shrunk (v : Variant) (next : ℕ) (cl cl' : Client) : Prop where
  measured : cl.Measured → cl'.Measured
  short : cl'.querybuf.len ≤ cl.querybuf.len
  kept : cl'.descriptor = cl.descriptor ∨
    v = .multiClient ∧ (cl'.querybuf.len : Int) ≤ cl'.descriptor + 1
  owner : cl'.querybuf.blk = cl.querybuf.blk ∨ next ≤ cl'.querybuf.blk

/-- A client that has just connected. -/
structure Client.New (next : ℕ) (cl : Client) : Prop where
  measured : cl.Measured
  empty : cl.querybuf.len = 0
  owner : next ≤ cl.querybuf.blk

structure Evolves (v : Variant) (w w' : World) : Prop where
  queue : Extends w.heap w'.heap
  clients : ∀ c cl', w'.clients c = some cl' →
    (∃ cl, w.clients c = some cl ∧ cl.Shrunk v w.heap.next cl') ∨ cl'.New w.heap.next

section Evolves
variable {cfg : Config} {v : Variant} {w w' : World} {h : Heap} {cl cl' : Client} {a : Allocation}
  {next : ℕ}

theorem Extends.refl (h : Heap) : Extends h h := ⟨[], fun _ => nofun, (List.append_nil _).symm⟩

theorem Extends.of_ring {h' : Heap} (ring : h'.ring = h.ring) : Extends h h' :=
  ⟨[], fun _ => nofun, by rw [ring, List.append_nil]⟩

theorem Extends.copy (h : Heap) (dst dstOff src srcOff len : ℕ) :
    Extends h (h.submit (.copy dst dstOff src srcOff len)) :=
  ⟨[_], fun _ member => List.mem_singleton.mp member ▸ rfl, rfl⟩

/-- The receives that are pending stay the same. -/
theorem Extends.recv_iff {h' : Heap} (extends_ : Extends h h') :
    Task.recv c b off data ∈ h'.ring ↔ Task.recv c b off data ∈ h.ring := by
  obtain ⟨ts, copies, ring⟩ := extends_
  rw [ring, List.mem_append]
  refine ⟨fun member => member.resolve_right fun new => ?_, .inl⟩
  cases copies _ new

theorem Client.Shrunk.refl (v : Variant) (next : ℕ) (cl : Client) : cl.Shrunk v next cl :=
  ⟨id, Nat.le_refl _, .inl rfl, .inl rfl⟩

theorem Evolves.resite (v : Variant) (w : World) (site : Site) : Evolves v w { w with site := site } :=
  ⟨.refl _, fun _ cl' found => .inl ⟨cl', found, .refl v _ cl'⟩⟩

theorem Evolves.put (here : w.clients c = some cl) (queue : Extends w.heap h)
    (shrunk : cl.Shrunk v w.heap.next cl') : Evolves v w (w.put h c cl' site) := by
  refine ⟨queue, fun d dl' found => .inl ?_⟩
  rcases World.put_found found with ⟨rfl, rfl⟩ | ⟨-, there⟩
  · exact ⟨cl, here, shrunk⟩
  · exact ⟨dl', there, .refl v _ dl'⟩

/-- The buffer is as long as it was, in its old block or in a new one. -/
theorem Client.Shrunk.moved (len : cl'.querybuf.len = cl.querybuf.len)
    (owner : cl'.querybuf.blk = cl.querybuf.blk ∨ next ≤ cl'.querybuf.blk)
    (base : cl'.base = cl.base) (stream : cl'.stream = cl.stream)
    (descriptor : cl'.descriptor = cl.descriptor) : cl.Shrunk v next cl' where
  measured measured := by rw [Client.Measured, base, len, stream]; exact measured
  short := Nat.le_of_eq len
  kept := .inl descriptor
  owner := owner

theorem Client.Shrunk.same (buffer : cl'.querybuf = cl.querybuf) (base : cl'.base = cl.base)
    (stream : cl'.stream = cl.stream) (descriptor : cl'.descriptor = cl.descriptor) :
    cl.Shrunk v next cl' :=
  .moved (by rw [buffer]) (.inl (by rw [buffer])) base stream descriptor

theorem Client.Shrunk.cut (pos : ℕ) (len : cl'.querybuf.len = cl.querybuf.len - pos)
    (owner : cl'.querybuf.blk = cl.querybuf.blk ∨ next ≤ cl'.querybuf.blk)
    (base : cl'.base = cl.base + min pos cl.querybuf.len) (stream : cl'.stream = cl.stream)
    (descriptor : cl'.descriptor = cl.descriptor) : cl.Shrunk v next cl' where
  measured measured := by
    have measured : cl.base + cl.querybuf.len = cl.stream.length := measured
    rw [Client.Measured, base, len, stream]
    omega
  short := len ▸ Nat.sub_le _ _
  kept := .inl descriptor
  owner := owner

theorem sdsMakeRoomFor_owner (h : Heap) (s : Sds) (addlen : ℕ) :
    (sdsMakeRoomFor a h s addlen).2.blk = s.blk ∨
      h.next ≤ (sdsMakeRoomFor a h s addlen).2.blk := by
  unfold sdsMakeRoomFor
  split
  · exact .inl rfl
  · dsimp only
    split
    · exact .inl rfl
    · exact .inr (Nat.le_refl _)

theorem sdsRemoveFreeSpace_len (h : Heap) (s : Sds) (regrow : Bool) :
    (sdsRemoveFreeSpace a h s regrow).2.len = s.len := by
  unfold sdsRemoveFreeSpace
  split
  · rfl
  · split <;> rfl

theorem sdsRemoveFreeSpace_owner (h : Heap) (s : Sds) (regrow : Bool) :
    (sdsRemoveFreeSpace a h s regrow).2.blk = s.blk ∨
      h.next ≤ (sdsRemoveFreeSpace a h s regrow).2.blk := by
  unfold sdsRemoveFreeSpace
  split
  · exact .inl rfl
  · split
    · exact .inl rfl
    · exact .inr (Nat.le_refl _)

theorem sdsrange_ring (h : Heap) (s : Sds) (pos : ℕ) : (sdsrange h s pos).1.ring = h.ring := by
  unfold sdsrange
  split <;> rfl

theorem sdsrange_next (h : Heap) (s : Sds) (pos : ℕ) : (sdsrange h s pos).1.next = h.next := by
  unfold sdsrange
  split <;> rfl

theorem take_shrunk (v : Variant) (a : Allocation) (h : Heap) (cl : Client) (bulklen : ℕ) :
    cl.Shrunk v h.next (cl.take a h bulklen).2 ∧ Extends h (cl.take a h bulklen).1 := by
  unfold Client.take
  dsimp only
  split
  · exact ⟨.cut cl.querybuf.len (Nat.sub_self _).symm (.inr (Nat.le_refl _))
      (by rw [Nat.min_self]) rfl rfl, .of_ring rfl⟩
  · split
    · exact ⟨.same rfl rfl rfl rfl, .refl h⟩
    · exact ⟨.same rfl rfl rfl rfl, Extends.copy h.claim _ _ _ _ _⟩

theorem trimForBigArg_shrunk (v : Variant) (a : Allocation) (h : Heap) (cl : Client) (p : Parser)
    (ll pos : ℕ) :
    cl.Shrunk v h.next (Client.trimForBigArg a h { cl with parser := p } ll pos).2 ∧
      Extends h (Client.trimForBigArg a h { cl with parser := p } ll pos).1 := by
  refine ⟨.cut pos ?_ ?_ rfl rfl rfl, .of_ring ?_⟩
  · simp only [Client.trimForBigArg, sdsMakeRoomFor_len, sdsrange_len]
  · have owner := sdsMakeRoomFor_owner (a := a) (sdsrange h cl.querybuf pos).1
      (sdsrange h cl.querybuf pos).2 (ll + 2 - (sdsrange h cl.querybuf pos).2.len)
    rwa [sdsrange_next, show (sdsrange h cl.querybuf pos).2.blk = cl.querybuf.blk by
      rw [sdsrange_len]] at owner
  · simp only [Client.trimForBigArg, sdsMakeRoomFor_ring, sdsrange_ring]

theorem trimToPos_evolves (v : Variant) (here : w.clients c = some cl) :
    Evolves v w (trimToPos v w c cl) := by
  unfold Server.trimToPos
  dsimp only
  split
  · exact .resite v w _
  · cases v with
    | copierSet =>
      dsimp only
      split
      · exact .resite _ w _
      · refine .put here ?_ (.cut cl.parser.qb_pos rfl (.inl rfl) rfl rfl rfl)
        split
        · exact .refl _
        · exact .copy _ _ _ _ _ _
    | multiClient =>
      refine .put here (.of_ring (sdsrange_ring _ _ _)) (.cut cl.parser.qb_pos ?_ (.inl ?_) rfl rfl rfl)
      · rw [sdsrange_len]
      · rw [sdsrange_len]

theorem perform_evolves {action : Action} (here : w.clients c = some cl)
    (performed : perform cfg v a w c cl action = some w') : Evolves v w w' := by
  cases action with
  | go p pc | resetClient =>
    cases performed
    exact .put here (.refl _) (.same rfl rfl rfl rfl)
  | csync pc | assertFailed =>
    cases performed
    exact .resite v w _
  | fail e =>
    cases performed
    have failed : Evolves v w (w.put w.heap c
        { cl with parser := { cl.parser with closing := true } } (.running c .trim)) :=
      .put here (.refl _) (.same rfl rfl rfl rfl)
    exact ⟨failed.queue, failed.clients⟩
  | bulkLength ll pos =>
    simp only [Server.perform] at performed
    split at performed
    · cases performed
      obtain ⟨shrunk, queue⟩ := trimForBigArg_shrunk v a w.heap cl
        { cl.parser with qb_pos := pos, bulklen := some ll } ll pos
      exact .put here queue shrunk
    · cases performed
      exact .put here (.refl _) (.same rfl rfl rfl rfl)
  | take bulklen =>
    simp only [Server.perform, Option.some.injEq] at performed
    subst performed
    obtain ⟨shrunk, queue⟩ := take_shrunk v a w.heap cl bulklen
    exact .put here queue shrunk
  | inlineArgs argv pos =>
    simp only [Server.perform] at performed
    split at performed <;> cases performed <;>
      exact .put here (.refl _) (.same rfl rfl rfl rfl)
  | processCommand => cases performed
  | trimToPos =>
    cases performed
    exact trimToPos_evolves v here

theorem execute_evolves (v : Variant) (here : w.clients c = some cl) :
    Evolves v w (execute a w c cl pc o) := by
  unfold Server.execute
  dsimp only
  refine ⟨.of_ring (Script.exec_ring _ a (w.memory cl)), fun d dl' found => .inl ?_⟩
  dsimp only at found
  rcases Runs.updated_found found with ⟨rfl, left⟩ | ⟨-, there⟩
  · split at left
    · contradiction
    · cases left
      exact ⟨cl, here, .same rfl rfl rfl rfl⟩
  · exact ⟨dl', there, .refl v _ dl'⟩

theorem event_evolves {e : Event} (stepped : event v a w e = some w') : Evolves v w w' := by
  cases event_occurs stepped with
  | accept c =>
    refine ⟨.of_ring rfl, fun d dl' found => ?_⟩
    rcases World.put_found found with ⟨-, rfl⟩ | ⟨-, there⟩
    · exact .inr ⟨rfl, rfl, Nat.le_refl _⟩
    · exact .inl ⟨dl', there, .refl v _ dl'⟩
  | readable c cl data here =>
    have len := sdsMakeRoomFor_len (a := a) w.heap cl.querybuf
      (cl.parser.readlen cl.querybuf.len)
    have owner := sdsMakeRoomFor_owner (a := a) w.heap cl.querybuf
      (cl.parser.readlen cl.querybuf.len)
    refine .put here (.of_ring (sdsMakeRoomFor_ring _ _ _)) ?_
    cases v
    · exact .moved len owner rfl rfl rfl
    · refine ⟨fun measured => ?_, Nat.le_of_eq len, .inr ⟨rfl, ?_⟩, owner⟩
      · simpa only [Client.Measured, Client.grown, len] using measured
      · simp only [Client.grown]
        omega
  | unblock c cl here => exact .put here (.of_ring rfl) (.same rfl rfl rfl rfl)
  | reprocess c cl here =>
    simp only [Server.reprocess]
    split
    · exact .put here (.refl _) (.same rfl rfl rfl rfl)
    · split <;> exact .put here (.refl _) (.same rfl rfl rfl rfl)
  | disconnect c cl here =>
    refine ⟨.of_ring rfl, fun d dl' found => .inl ?_⟩
    dsimp only at found
    rcases Runs.updated_found found with ⟨-, gone⟩ | ⟨-, there⟩
    · cases gone
    · exact ⟨dl', there, .refl v _ dl'⟩
  | resize c cl here =>
    refine .put here (.of_ring (sdsRemoveFreeSpace_ring _ _)) (.moved ?_ ?_ rfl rfl rfl)
    · exact sdsRemoveFreeSpace_len w.heap cl.querybuf true
    · exact sdsRemoveFreeSpace_owner w.heap cl.querybuf true
  | keep => exact .resite v w w.site
  | expire key => exact ⟨.of_ring rfl, fun _ cl' found => .inl ⟨cl', found, .refl v _ cl'⟩⟩

theorem receive_stepped (stepped : internal cfg v a w = some w') (site : w.site = .receive c data) :
    ∃ cl, w.clients c = some cl ∧ w.heap.ring = [] ∧ w' = receive cfg v w c cl data := by
  cases internal_stepped stepped with
  | receive d bytes cl there here drained =>
    cases site.symm.trans there
    exact ⟨cl, here, drained, rfl⟩
  | enter d there | running d pc cl there | wait d pc cl there | terminate d cl there =>
    cases site.symm.trans there

/-- Every server step but a receive. -/
theorem internal_evolves (stepped : internal cfg v a w = some w')
    (other : ∀ c data, w.site ≠ .receive c data) : Evolves v w w' := by
  cases internal_stepped stepped with
  | receive c data cl site => exact absurd site (other c data)
  | enter => exact .resite v w _
  | running c pc cl site here performed => exact perform_evolves here performed
  | wait c pc cl site here => exact .put here (.refl _) (.same rfl rfl rfl rfl)
  | terminate c cl site here =>
    exact ⟨.of_ring rfl, fun _ cl' found => .inl ⟨cl', found, .refl v _ cl'⟩⟩

theorem input_evolves {i : Input} (stepped : step cfg v w (.input a i) = some w') :
    Evolves v w w' := by
  cases step_stepped stepped with
  | event idle occurs => exact event_evolves occurs
  | command c pc cl o site here => exact execute_evolves v here

theorem event_quiet {e : Event} (idle : w.site = .idle) (stepped : event v a w e = some w') :
    w'.handed = w.handed ∧ w'.site.Outside := by
  have still : w.site.Outside := by
    rw [idle]
    trivial
  cases event_occurs stepped with
  | accept | readable | unblock | resize => exact ⟨rfl, trivial⟩
  | reprocess c cl =>
    simp only [Server.reprocess]
    split
    · exact ⟨rfl, trivial⟩
    · split
      · exact ⟨rfl, rfl⟩
      · refine ⟨rfl, ?_⟩
        simp only [World.put]
        split <;> trivial
  | disconnect | keep | expire => exact ⟨rfl, still⟩

theorem trimToPos_quiet (v : Variant) (w : World) (c : ℕ) (cl : Client) :
    (trimToPos v w c cl).handed = w.handed ∧ ∀ d,
      (∀ pc, (trimToPos v w c cl).site ≠ .wait d pc) ∧ (trimToPos v w c cl).site ≠ .enter d := by
  unfold trimToPos
  dsimp only
  repeat' split
  all_goals exact ⟨rfl, fun _ => ⟨fun _ => nofun, nofun⟩⟩

/-- Of all actions only a wait leads to a wait, and none hands anything over. -/
theorem perform_quiet {action : Action} (performed : perform cfg v a w c cl action = some w') :
    w'.handed = w.handed ∧ (∀ d pc, w'.site = .wait d pc →
      action = .csync pc ∧ d = c ∧ w'.clients = w.clients) ∧ ∀ d, w'.site ≠ .enter d := by
  cases action with
  | csync next =>
    cases performed
    refine ⟨rfl, fun d pc waits => ?_, by rintro _ ⟨⟩⟩
    cases waits
    exact ⟨rfl, rfl, rfl⟩
  | trimToPos =>
    cases performed
    obtain ⟨same, moves⟩ := trimToPos_quiet v w c cl
    exact ⟨same, fun d pc waits => absurd waits ((moves d).1 pc), fun d => (moves d).2⟩
  | bulkLength ll pos =>
    simp only [perform] at performed
    split at performed <;> cases performed <;> exact ⟨rfl, by rintro _ _ ⟨⟩, by rintro _ ⟨⟩⟩
  | inlineArgs argv pos =>
    simp only [perform] at performed
    split at performed <;> cases performed <;> exact ⟨rfl, by rintro _ _ ⟨⟩, by rintro _ ⟨⟩⟩
  | take bulklen =>
    simp only [perform, Option.some.injEq] at performed
    subst performed
    exact ⟨rfl, by rintro _ _ ⟨⟩, by rintro _ ⟨⟩⟩
  | processCommand => cases performed
  | go p pc | fail e | resetClient | assertFailed =>
    cases performed
    exact ⟨rfl, by rintro _ _ ⟨⟩, by rintro _ ⟨⟩⟩

end Evolves
end Copier.Redis.Server
