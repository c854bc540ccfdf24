import Copier.Redis.Ownership
import Copier.Redis.ReplyProgress

/-! Replies of `redis-6.2-ZC`, which differs from the original server in `connSocketWrite`
alone: it sends with MSG_ZEROCOPY, looks at the error queue once and drops what it
finds there. Until its completion is on that queue, the kernel may read the pages of
a send at any time, and `writeToClient` goes on as after a send that copies. -/
namespace Copier.Redis.ZeroCopy
open Deferred (Span Access)

/-- A send whose completion has not come. `content` is history: what the buffer held at
the time of the call. -/
structure Flight where
  client : ℕ
  span : Span
  content : Bytes

/-- A byte that left the machine. -/
structure Departure where
  flight : Flight
  place : ℕ
  byte : UInt8

/-- `errqueue` counts the completions that wait on a connection's error queue; `ret` is
what `send` returned to a `connSocketWrite` that is still running. -/
structure World where
  server : Reply.World
  flights : List Flight
  errqueue : ℕ → ℕ
  ret : Option ℕ
  left : List Departure

def init : World := ⟨Reply.init, [], fun _ => 0, none, []⟩

inductive Label
  | serve (l : Reply.Label)
  | send (n : ℕ)
  | recvmsg (used_memory : ℕ)
  | transmit (i k : ℕ)
  | complete (i : ℕ)

/-- The client that `writeToClient` is writing to. -/
def writing (w : Reply.World) : Option ℕ :=
  match w.todo with
  | .write c _ :: _ => some c
  | _ => none

/-- The one look at the error queue. -/
def looked (x : World) : ℕ → ℕ :=
  match writing x.server with
  | some c => Function.update x.errqueue c (x.errqueue c - 1)
  | none => x.errqueue

def bytes (w : Reply.World) (s : Span) : Bytes := slice (w.heap.mem s.blk) s.off (s.off + s.len)

def send (x : World) (n : ℕ) : Option World :=
  if x.server.stopped then none
  else (writing x.server).bind fun c => (x.server.clients c).bind fun cl => cl.outgoing.bind fun s =>
    if 0 < n ∧ n ≤ s.len then
      let sent : Span := ⟨s.blk, s.off, n⟩
      some { x with flights := x.flights ++ [⟨c, sent, bytes x.server sent⟩], ret := some n }
    else none

def step (cfg : Reply.Config) (x : World) : Label → Option World
  | .serve l =>
      if x.ret.isSome then none
      else match l with
        | .wrote .. => none
        | .refused failed => (Reply.step cfg .original x.server (.refused failed)).map fun w =>
            { x with server := w, errqueue := looked x }
        | l => (Reply.step cfg .original x.server l).map fun w => { x with server := w }
  | .send n => if x.ret.isSome then none else send x n
  | .recvmsg used_memory => x.ret.bind fun n =>
      (Reply.step cfg .original x.server (.wrote n used_memory)).map fun w =>
        { x with server := w, errqueue := looked x, ret := none }
  | .transmit i k => x.flights[i]?.bind fun f =>
      if k < f.span.len then
        some { x with left := x.left ++ [⟨f, k, x.server.heap.mem f.span.blk (f.span.off + k)⟩] }
      else none
  | .complete i => x.flights[i]?.map fun f =>
      { x with
        flights := x.flights.eraseIdx i
        errqueue := Function.update x.errqueue f.client (x.errqueue f.client + 1) }

/-- What the server is about to write or free. -/
def hazards (x : World) : Label → List Access
  | .serve l => Reply.hazards x.server l
  | .recvmsg used_memory => x.ret.elim [] fun n => Reply.hazards x.server (.wrote n used_memory)
  | _ => []

def closes : Label → Option ℕ
  | .serve (.freeClient c) => some c
  | _ => none

/-- Completions come before the static buffer is filled anew, a block is edited or freed,
or the client is closed. -/
def Prompt (x : World) (l : Label) : Prop :=
  ∀ f ∈ x.flights, (∀ a ∈ hazards x l, ¬ Reply.Disturbs a f.span) ∧ closes l ≠ some f.client

instance (x : World) (l : Label) : Decidable (Prompt x l) :=
  inferInstanceAs (Decidable (∀ _ ∈ _, _))

/-- What leaves is what was to be sent, and what the kernel may still read is there. -/
structure Stable (x : World) : Prop where
  departed : ∀ d ∈ x.left, d.flight.content[d.place]? = some d.byte
  live : ∀ f ∈ x.flights, f.span.blk ∈ x.server.heap.live
  same : ∀ f ∈ x.flights, bytes x.server f.span = f.content
  open_ : ∀ f ∈ x.flights, (x.server.clients f.client).isSome

structure Inv (x : World) : Prop where
  owned : x.server.Owned
  filled : ∀ f ∈ x.flights, x.server.Filled f.span
  same : ∀ f ∈ x.flights, bytes x.server f.span = f.content
  open_ : ∀ f ∈ x.flights, (x.server.clients f.client).isSome
  departed : ∀ d ∈ x.left, d.flight.content[d.place]? = some d.byte

section Runs
variable {cfg : Reply.Config} {x y : World} {l : Label}

theorem Inv.init : Inv ZeroCopy.init where
  owned := .init
  filled _ := nofun
  same _ := nofun
  open_ _ := nofun
  departed _ := nofun

theorem Inv.stable (inv : Inv x) : Stable x where
  departed := inv.departed
  live f member := (inv.filled f member).owned.elim fun _ mine => inv.owned.live mine
  same := inv.same
  open_ := inv.open_

/-- A step of the original server between a send and its completion. -/
theorem Inv.served {w : Reply.World} {l : Reply.Label} (inv : Inv x)
    (undisturbed : ∀ f ∈ x.flights, Reply.Undisturbed (Reply.hazards x.server l) f.span)
    (kept : ∀ f ∈ x.flights, l ≠ .freeClient f.client)
    (stepped : Reply.step cfg .original x.server l = some w) (errqueue : ℕ → ℕ) (ret : Option ℕ) :
    Inv { x with server := w, errqueue := errqueue, ret := ret } := by
  have keeps := Reply.step_keeps inv.owned stepped
  refine ⟨keeps.owned, fun f member => keeps.filled (inv.filled f member) (undisturbed f member),
    fun f member => ?_, fun f member => ?_, inv.departed⟩
  · rw [← inv.same f member]
    refine slice_congr fun i low high => ?_
    exact (keeps.bytes (inv.filled f member) (undisturbed f member) ⟨rfl, low, high⟩).symm
  · obtain ⟨cl, here⟩ := Option.isSome_iff_exists.mp (inv.open_ f member)
    exact keeps.present here fun closing => kept f member (Reply.hazards_buf inv.owned here closing)

theorem Inv.sent (inv : Inv x) (sent : send x n = some y) : Inv y := by
  simp only [send, Option.ite_none_left_eq_some, Option.bind_eq_some_iff,
    Option.ite_none_right_eq_some, Option.some.injEq] at sent
  obtain ⟨-, c, -, cl, here, s, asked, ⟨nonzero, fits⟩, rfl⟩ := sent
  have new := Reply.outgoing_filled inv.owned here asked nonzero fits
  refine ⟨inv.owned, fun f member => ?_, fun f member => ?_, fun f member => ?_, inv.departed⟩
  all_goals rcases List.mem_append.mp member with old | last
  · exact inv.filled f old
  · cases List.mem_singleton.mp last
    exact new
  · exact inv.same f old
  · cases List.mem_singleton.mp last
    rfl
  · exact inv.open_ f old
  · cases List.mem_singleton.mp last
    exact Option.isSome_iff_exists.mpr ⟨cl, here⟩

theorem Inv.step (inv : Inv x) (prompt : Prompt x l) (stepped : ZeroCopy.step cfg x l = some y) :
    Inv y := by
  cases l with
  | serve l =>
    have undisturbed : ∀ f ∈ x.flights, Reply.Undisturbed (Reply.hazards x.server l) f.span :=
      fun f member => (prompt f member).1
    have kept : ∀ f ∈ x.flights, l ≠ .freeClient f.client := fun f member same =>
      (prompt f member).2 (by rw [same]; rfl)
    simp only [ZeroCopy.step, Option.ite_none_left_eq_some] at stepped
    obtain ⟨-, stepped⟩ := stepped
    split at stepped
    · contradiction
    · obtain ⟨w, served, rfl⟩ := Option.map_eq_some_iff.mp stepped
      exact inv.served undisturbed kept served _ x.ret
    · obtain ⟨w, served, rfl⟩ := Option.map_eq_some_iff.mp stepped
      exact inv.served undisturbed kept served x.errqueue x.ret
  | send n =>
    simp only [ZeroCopy.step, Option.ite_none_left_eq_some] at stepped
    exact inv.sent stepped.2
  | recvmsg used_memory =>
    simp only [ZeroCopy.step, Option.bind_eq_some_iff, Option.map_eq_some_iff] at stepped
    obtain ⟨n, sent, w, served, rfl⟩ := stepped
    refine inv.served (fun f member => ?_) (fun _ _ => Reply.Label.noConfusion) served _ none
    have clear := (prompt f member).1
    simp only [hazards, sent] at clear
    exact clear
  | transmit i k =>
    simp only [ZeroCopy.step, Option.bind_eq_some_iff, Option.ite_none_right_eq_some,
      Option.some.injEq] at stepped
    obtain ⟨f, flying, inside, rfl⟩ := stepped
    refine ⟨inv.owned, inv.filled, inv.same, inv.open_, fun d member => ?_⟩
    rcases List.mem_append.mp member with old | new
    · exact inv.departed d old
    · cases List.mem_singleton.mp new
      have bound : k < (bytes x.server f.span).length := by
        rw [bytes, length_slice]
        omega
      rw [← inv.same f (List.mem_of_getElem? flying), List.getElem?_eq_getElem bound]
      exact congrArg some (getElem_slice _ bound)
  | complete i =>
    simp only [ZeroCopy.step, Option.map_eq_some_iff] at stepped
    obtain ⟨f, -, rfl⟩ := stepped
    have older : ∀ g ∈ x.flights.eraseIdx i, g ∈ x.flights := fun g => List.mem_of_mem_eraseIdx
    exact ⟨inv.owned, fun g member => inv.filled g (older g member),
      fun g member => inv.same g (older g member), fun g member => inv.open_ g (older g member),
      inv.departed⟩

/-- In runs whose completions come in time, every send stays what it was. -/
theorem sends_stable (path : Runs.Path (step cfg) Prompt init ls x) : Stable x :=
  (path.invariant Inv .init fun inv prompt stepped => inv.step prompt stepped).stable

end Runs

/-- A client is sent one byte, and then another. -/
def twoReplies (first : List Label) : List Label :=
  let written : List Reply.Label := [.step false, .step false, .writeToClient 0]
  let second : List Reply.Label := [.step false, .step false, .create 1 fun _ => 66,
    .call (.addReplyProto 0 ⟨Reply.texts.length + 2, 0, 1⟩), .step false, .step false]
  (Reply.valueReply 1 ++ written).map .serve ++ [.send 1] ++ first ++ [.recvmsg 0] ++ second.map .serve

theorem twoReplies_prompt :
    (Runs.run (fun x l => if Prompt x l then step .default x l else none) init
      (twoReplies [.transmit 0 0, .complete 0])).isSome := by
  decide +kernel

theorem completed_reply_stable : ∃ x, Runs.run (step .default) init
    (twoReplies [.transmit 0 0, .complete 0]) = some x ∧ Stable x := by
  obtain ⟨x, ran⟩ := Option.isSome_iff_exists.mp twoReplies_prompt
  have path : Runs.Path (step .default) Prompt init (twoReplies [.transmit 0 0, .complete 0]) x :=
    .of_run ran
  exact ⟨x, path.run_eq, sends_stable path⟩

theorem twoReplies_late :
    (Runs.run (step .default) init (twoReplies [] ++ [.transmit 0 0])).map
      (fun x => x.left.map fun d => (d.flight.content, d.place, d.byte)) = some [([65], 0, 66)] := by
  decide +kernel

/-- The kernel comes to the first reply when the second has replaced it. -/
theorem recycled_buffer_sent : ¬ ∀ ls x, Runs.run (step .default) init ls = some x → Stable x := by
  intro stable
  obtain ⟨x, ran, left⟩ := Option.map_eq_some_iff.mp twoReplies_late
  have member : (([65], 0, 66) : Bytes × ℕ × UInt8) ∈
      x.left.map fun d => (d.flight.content, d.place, d.byte) := left ▸ List.mem_cons_self
  obtain ⟨d, departed, same⟩ := List.mem_map.mp member
  have sent := (stable _ x ran).departed d departed
  simp only [Prod.mk.injEq] at same
  rw [same.1, same.2.1, same.2.2] at sent
  exact absurd sent (by decide)

end Copier.Redis.ZeroCopy
