import Copier.Tinyproxy.Fifo

/-! `relay_connection` of the baseline and of the copier version. The baseline writes to
a peer that is reported writable; the copier version writes to a peer right after it
read from the other one, and only then. -/
namespace Copier.Tinyproxy.Relay

inductive Variant
  | baseline
  | copier

inductive Peer
  | client
  | server
deriving DecidableEq

def Peer.other : Peer → Peer
  | client => server
  | server => client

structure Revents where
  read : Bool
  write : Bool

/-- What the calls inside `read_buffer` come back with. -/
structure Reading where
  buffer : Bool
  newline : Option ℕ
  string : Bool
  ret : Received

/-- One turn of the loop: what is ready, what a read from each peer brings and how much a
write to each peer takes. -/
structure Round where
  revents : Peer → Revents
  reading : Peer → Reading
  sending : Peer → Sent

inductive Phase
  | relaying
  | flushing (p : Peer)
  | blocking
  | returned
deriving DecidableEq

/-- `queue p` is the buffer of what came from `p`: `sbuffer` or `cbuffer`. `attempted` lists
the peers that the last turn called `send` for. -/
structure World where
  queue : Peer → Fifo.World
  content_length : Int
  phase : Phase
  attempted : List Peer

/-- `content_length` is what the server announced, or a negative number. -/
def init (content_length : Int) : World := ⟨fun _ => Fifo.init, content_length, .relaying, []⟩

def World.size (x : World) (p : Peer) : ℕ := (x.queue p).buffer.size

/-- A call on a buffer, with results that the libraries can have. -/
def call (w : Fifo.World) (l : Fifo.Label) : Option Fifo.World :=
  if Fifo.Valid w l then Fifo.step w l else none

def readLabel (v : Variant) (rd : Reading) : Fifo.Label :=
  match v with
  | .baseline => .read_buffer rd.buffer rd.newline rd.string rd.ret
  | .copier => .read_buffer_lazy rd.buffer rd.newline rd.string rd.ret

def writeLabel (v : Variant) (ret : Sent) : Fifo.Label :=
  match v with
  | .baseline => .write_buffer ret
  | .copier => .write_buffer_lazy ret

def readFrom (v : Variant) (p : Peer) (rd : Reading) (x : World) : Option (Int × World) :=
  (call (x.queue p) (readLabel v rd)).map fun w =>
    (w.ret, { x with queue := Function.update x.queue p w })

/-- To `p` goes what came from the other peer. -/
def writeTo (v : Variant) (p : Peer) (ret : Sent) (x : World) : Option (Int × World) :=
  (call (x.queue p.other) (writeLabel v ret)).map fun w =>
    (w.ret, { x with
      queue := Function.update x.queue p.other w
      attempted := if 0 < x.size p.other then p :: x.attempted else x.attempted })

/-- A part of the loop's body, and whether it did not leave the loop. -/
abbrev Part := World → Option (World × Bool)

def thenPart (first second : Part) : Part := fun x =>
  (first x).bind fun (y, on) => if on then second y else some (y, false)

/-- A call whose failure leaves the loop. -/
def orBreak (f : World → Option (Int × World)) : Part := fun x =>
  (f x).map fun (ret, y) => (y, 0 ≤ ret)

def skip : Part := fun x => some (x, true)

/-- What comes from the server counts towards its content length. -/
def readServer (v : Variant) (rd : Reading) : Part := fun x =>
  (readFrom v .server rd x).map fun (bytes_received, y) =>
    if bytes_received < 0 then (y, false)
    else
      let left := y.content_length - bytes_received
      ({ y with content_length := left }, left ≠ 0)

/-- The body of the loop after `poll`. -/
def body (v : Variant) (r : Round) : Part :=
  match v with
  | .baseline =>
      thenPart (if (r.revents .server).read then readServer v (r.reading .server) else skip) <|
      thenPart (if (r.revents .client).read then orBreak (readFrom v .client (r.reading .client))
        else skip) <|
      thenPart (if (r.revents .server).write then orBreak (writeTo v .server (r.sending .server))
        else skip) <|
      if (r.revents .client).write then orBreak (writeTo v .client (r.sending .client)) else skip
  | .copier =>
      thenPart (if (r.revents .server).read then
          thenPart (readServer v (r.reading .server)) (orBreak (writeTo v .client (r.sending .client)))
        else skip) <|
      if (r.revents .client).read then
        thenPart (orBreak (readFrom v .client (r.reading .client)))
          (orBreak (writeTo v .server (r.sending .server)))
      else skip

/-- `poll` reports what it was asked for. -/
def polled (x : World) (r : Round) : Bool :=
  [Peer.client, .server].all fun p =>
    (!(r.revents p).read || x.size p < MAXBUFFSIZE) && (!(r.revents p).write || 0 < x.size p.other)

inductive Label
  | round (r : Round)
  | pollFailed
  | flush (ret : Sent)
  | socket_blocking (ok : Bool)

/-- Where the code goes on after it flushed what was left for a peer. -/
def flushed : Peer → Phase
  | .client => .blocking
  | .server => .returned

def step (v : Variant) (x : World) (l : Label) : Option World :=
  match x.phase, l with
  | .relaying, .round r =>
      if polled x r then
        (body v r { x with attempted := [] }).map fun (y, on) =>
          if on then y else { y with phase := .flushing .client }
      else none
  | .relaying, .pollFailed => some { x with phase := .returned }
  | .flushing p, .flush ret =>
      if 0 < x.size p.other then
        (writeTo v p ret x).map fun (ret, y) => if ret < 0 then { y with phase := flushed p } else y
      else some { x with phase := flushed p }
  | .blocking, .socket_blocking ok =>
      some { x with phase := if ok then .flushing .server else .returned }
  | _, _ => none

/-- A turn after which the loop goes on has called `send` for every peer that was reported
writable. -/
def Progress (v : Variant) (x : World) (l : Label) : Prop :=
  ∀ r, l = .round r → ∀ y, step v x l = some y → y.phase = .relaying →
    ∀ p, (r.revents p).write → 0 < x.size p.other → p ∈ y.attempted

/-- What is written to a peer comes with something to read from the other one. -/
def Fed (x : World) : Label → Prop
  | .round r => ∀ p, (r.revents p).write → 0 < x.size p.other → (r.revents p.other).read
  | _ => True

/-- Every buffer is a queue of bytes. -/
def Inv (x : World) : Prop := ∀ p, ∃ ls, Fifo.Inv (x.queue p) ls

section Calls
variable {v : Variant} {x y z : World} {p : Peer} {rd : Reading} {ret : Int} {on : Bool}

theorem Peer.other_other (p : Peer) : p.other.other = p := by cases p <;> rfl

theorem Peer.other_ne (p : Peer) : p.other ≠ p := by cases p <;> decide

theorem call_inv {w w' : Fifo.World} {l : Fifo.Label} (called : call w l = some w')
    (inv : ∃ ls, Fifo.Inv w ls) : ∃ ls, Fifo.Inv w' ls := by
  simp only [call, Option.ite_none_right_eq_some] at called
  obtain ⟨ls, inv⟩ := inv
  obtain ⟨w'', stepped, serves, -⟩ := inv.step called.1
  cases stepped.symm.trans called.2
  exact serves

theorem update_inv {w : Fifo.World} (inv : Inv x) (updated : ∃ ls, Fifo.Inv w ls) (p : Peer) :
    ∀ q, ∃ ls, Fifo.Inv (Function.update x.queue p w q) ls := by
  intro q
  by_cases same : q = p
  · subst same
    simpa using updated
  · simpa [same] using inv q

/-- What every part of a turn leaves as it is. -/
structure Goes (x y : World) : Prop where
  inv : Inv x → Inv y
  attempted : ∀ p ∈ x.attempted, p ∈ y.attempted
  phase : y.phase = x.phase

theorem Goes.refl (x : World) : Goes x x := ⟨id, fun _ => id, rfl⟩

theorem Goes.trans (first : Goes x y) (second : Goes y z) : Goes x z :=
  ⟨fun inv => second.inv (first.inv inv), fun p member => second.attempted p (first.attempted p member),
    second.phase.trans first.phase⟩

theorem readFrom_goes (read : readFrom v p rd x = some (ret, y)) : Goes x y := by
  simp only [readFrom, Option.map_eq_some_iff, Prod.mk.injEq] at read
  obtain ⟨w, called, -, rfl⟩ := read
  exact ⟨fun inv => update_inv inv (call_inv called (inv p)) p, fun _ => id, rfl⟩

theorem writeTo_goes {s : Sent} (written : writeTo v p s x = some (ret, y)) : Goes x y := by
  simp only [writeTo, Option.map_eq_some_iff, Prod.mk.injEq] at written
  obtain ⟨w, called, -, rfl⟩ := written
  refine ⟨fun inv => update_inv inv (call_inv called (inv p.other)) p.other, fun q member => ?_, rfl⟩
  dsimp only
  split
  · exact List.mem_cons_of_mem _ member
  · exact member

/-- What was read is added, and nothing else changes in size. -/
theorem readFrom_size (read : readFrom v p rd x = some (ret, y)) (q : Peer) : x.size q ≤ y.size q := by
  simp only [readFrom, Option.map_eq_some_iff, Prod.mk.injEq] at read
  obtain ⟨w, called, -, rfl⟩ := read
  by_cases same : q = p
  · subst same
    simp only [call, Option.ite_none_right_eq_some] at called
    simp only [World.size, Function.update_self]
    cases v with
    | baseline | copier =>
      simp only [readLabel, Fifo.step, Fifo.call, read_buffer, read_buffer_lazy,
        Option.map_eq_some_iff, Prod.exists] at called
      obtain ⟨-, r, b, received, rfl⟩ := called
      exact receive_size received
  · simp [World.size, same]

theorem writeTo_size {s : Sent} (written : writeTo v p s x = some (ret, y)) : y.size p = x.size p := by
  simp only [writeTo, Option.map_eq_some_iff, Prod.mk.injEq] at written
  obtain ⟨w, called, -, rfl⟩ := written
  simp [World.size, p.other_ne.symm]

theorem writeTo_attempted {s : Sent} (written : writeTo v p s x = some (ret, y))
    (some_ : 0 < x.size p.other) : p ∈ y.attempted := by
  simp only [writeTo, Option.map_eq_some_iff, Prod.mk.injEq] at written
  obtain ⟨w, called, -, rfl⟩ := written
  simp [some_]

end Calls

section Parts
variable {v : Variant} {x y z : World} {on : Bool} {first second : Part} {r : Round}

def Part.Sound (f : Part) : Prop := ∀ {x y on}, f x = some (y, on) → Goes x y

theorem thenPart_some (done : thenPart first second x = some (z, on)) :
    first x = some (z, false) ∧ on = false ∨ ∃ y, first x = some (y, true) ∧ second y = some (z, on) := by
  simp only [thenPart, Option.bind_eq_some_iff, Prod.exists] at done
  obtain ⟨y, went, one, two⟩ := done
  cases went with
  | false =>
    cases two
    exact .inl ⟨one, rfl⟩
  | true => exact .inr ⟨y, one, two⟩

theorem thenPart_sound (one : Part.Sound first) (two : Part.Sound second) :
    Part.Sound (thenPart first second) := by
  intro x z on done
  rcases thenPart_some done with ⟨broke, -⟩ | ⟨y, went, rest⟩
  · exact one broke
  · exact (one went).trans (two rest)

theorem skip_sound : Part.Sound skip := by
  intro x y on done
  cases done
  exact .refl x

theorem ite_sound (one : Part.Sound first) (c : Bool) : Part.Sound (if c then first else skip) := by
  cases c
  · exact skip_sound
  · exact one

theorem orBreak_some {f : World → Option (Int × World)} (done : orBreak f x = some (y, on)) :
    ∃ ret, f x = some (ret, y) := by
  simp only [orBreak, Option.map_eq_some_iff, Prod.mk.injEq, Prod.exists] at done
  obtain ⟨ret, y', called, rfl, -⟩ := done
  exact ⟨ret, called⟩

theorem read_sound (v : Variant) (p : Peer) (rd : Reading) : Part.Sound (orBreak (readFrom v p rd)) :=
  fun done => (orBreak_some done).elim fun _ => readFrom_goes

theorem write_sound (v : Variant) (p : Peer) (s : Sent) : Part.Sound (orBreak (writeTo v p s)) :=
  fun done => (orBreak_some done).elim fun _ => writeTo_goes

theorem readServer_some {rd : Reading} (done : readServer v rd x = some (y, on)) :
    ∃ ret y', readFrom v .server rd x = some (ret, y') ∧ y.queue = y'.queue ∧
      y.attempted = y'.attempted ∧ y.phase = y'.phase := by
  simp only [readServer, Option.map_eq_some_iff, Prod.exists] at done
  obtain ⟨ret, y', read, same⟩ := done
  refine ⟨ret, y', read, ?_⟩
  split at same <;> (cases same; exact ⟨rfl, rfl, rfl⟩)

theorem readServer_sound (v : Variant) (rd : Reading) : Part.Sound (readServer v rd) := by
  intro x y on done
  obtain ⟨ret, y', read, queue, attempted, phase⟩ := readServer_some done
  have goes := readFrom_goes read
  refine ⟨fun inv => ?_, fun p member => ?_, phase.trans goes.phase⟩
  · unfold Inv
    rw [queue]
    exact goes.inv inv
  · rw [attempted]
    exact goes.attempted p member

theorem body_sound (v : Variant) (r : Round) : Part.Sound (body v r) := by
  cases v with
  | baseline =>
    exact thenPart_sound (ite_sound (readServer_sound _ _) _)
      (thenPart_sound (ite_sound (read_sound _ _ _) _)
        (thenPart_sound (ite_sound (write_sound _ _ _) _) (ite_sound (write_sound _ _ _) _)))
  | copier =>
    exact thenPart_sound (ite_sound (thenPart_sound (readServer_sound _ _) (write_sound _ _ _)) _)
      (ite_sound (thenPart_sound (read_sound _ _ _) (write_sound _ _ _)) _)

/-- A part that reads from a peer and then writes on to the other one. -/
theorem attempts_after {read : Part} {p : Peer} {s : Sent}
    (keeps : ∀ y, read x = some (y, true) → x.size p.other ≤ y.size p.other)
    (done : thenPart read (orBreak (writeTo v p s)) x = some (z, true)) (some_ : 0 < x.size p.other) :
    p ∈ z.attempted := by
  rcases thenPart_some done with ⟨-, broke⟩ | ⟨y, went, rest⟩
  · cases broke
  · obtain ⟨ret, written⟩ := orBreak_some rest
    exact writeTo_attempted written (Nat.lt_of_lt_of_le some_ (keeps y went))

/-- A turn that goes on wrote to each peer whose counterpart was read from. -/
theorem copier_attempts (done : body .copier r x = some (z, true)) (p : Peer)
    (fed : (r.revents p.other).read) (some_ : 0 < x.size p.other) : p ∈ z.attempted := by
  rcases thenPart_some done with ⟨-, broke⟩ | ⟨y, went, rest⟩
  · cases broke
  cases p with
  | client =>
    have read : (r.revents .server).read := fed
    rw [if_pos read] at went
    have attempted : Peer.client ∈ y.attempted := by
      refine attempts_after (fun y' went' => ?_) went some_
      obtain ⟨ret, y'', read, queue, -⟩ := readServer_some went'
      have grown := readFrom_size read .server
      simp only [World.size, ← queue] at grown
      exact grown
    exact ((ite_sound (thenPart_sound (read_sound _ _ _) (write_sound _ _ _)) _) rest).attempted _ attempted
  | server =>
    have read : (r.revents .client).read := fed
    rw [if_pos read] at rest
    have kept : x.size .client ≤ y.size .client := by
      split at went
      · rcases thenPart_some went with ⟨-, broke⟩ | ⟨y', went', written⟩
        · cases broke
        · obtain ⟨ret, y'', read, queue, -⟩ := readServer_some went'
          obtain ⟨ret', written⟩ := orBreak_some written
          have same := writeTo_size written
          have grown := readFrom_size read .client
          simp only [World.size, queue] at same grown ⊢
          omega
      · cases went
        exact Nat.le_refl _
    refine attempts_after (fun y' went' => ?_) rest (Nat.lt_of_lt_of_le some_ kept)
    obtain ⟨ret, read⟩ := orBreak_some went'
    exact readFrom_size read .client

/-- The baseline writes to who is reported writable. -/
theorem baseline_attempts (done : body .baseline r x = some (z, true)) (p : Peer)
    (writable : (r.revents p).write) (some_ : 0 < x.size p.other) : p ∈ z.attempted := by
  rcases thenPart_some done with ⟨-, broke⟩ | ⟨y₁, fromServer, rest⟩
  · cases broke
  rcases thenPart_some rest with ⟨-, broke⟩ | ⟨y₂, fromClient, rest⟩
  · cases broke
  rcases thenPart_some rest with ⟨-, broke⟩ | ⟨y₃, toServer, toClient⟩
  · cases broke
  have first : ∀ q, x.size q ≤ y₁.size q := by
    intro q
    split at fromServer
    · obtain ⟨ret, y, read, queue, -⟩ := readServer_some fromServer
      simpa only [World.size, queue] using readFrom_size read q
    · cases fromServer
      exact Nat.le_refl _
  have second : ∀ q, y₁.size q ≤ y₂.size q := by
    intro q
    split at fromClient
    · obtain ⟨ret, read⟩ := orBreak_some fromClient
      exact readFrom_size read q
    · cases fromClient
      exact Nat.le_refl _
  have pending := Nat.lt_of_lt_of_le some_ (Nat.le_trans (first p.other) (second p.other))
  cases p with
  | server =>
    rw [if_pos writable] at toServer
    obtain ⟨ret, written⟩ := orBreak_some toServer
    exact ((ite_sound (write_sound _ _ _) _) toClient).attempted _ (writeTo_attempted written pending)
  | client =>
    rw [if_pos writable] at toClient
    have kept : y₃.size .server = y₂.size .server := by
      split at toServer
      · obtain ⟨ret, written⟩ := orBreak_some toServer
        exact writeTo_size written
      · cases toServer
        rfl
    obtain ⟨ret, written⟩ := orBreak_some toClient
    exact writeTo_attempted written (kept ▸ pending)

end Parts

section Runs
variable {v : Variant} {x y : World} {l : Label} {n : Int} {p : Peer} {on : Bool}

theorem Inv.init (n : Int) : Inv (Relay.init n) := fun _ => ⟨[], Fifo.Inv.init⟩

theorem step_inv (inv : Inv x) (stepped : step v x l = some y) : Inv y := by
  unfold step at stepped
  split at stepped
  · simp only [Option.ite_none_right_eq_some, Option.map_eq_some_iff, Prod.exists] at stepped
    obtain ⟨-, z, on, done, rfl⟩ := stepped
    have goes := body_sound _ _ done
    split <;> exact goes.inv inv
  · cases stepped
    exact inv
  · split at stepped
    · simp only [Option.map_eq_some_iff, Prod.exists] at stepped
      obtain ⟨ret, z, written, rfl⟩ := stepped
      split <;> exact (writeTo_goes written).inv inv
    · cases stepped
      exact inv
  · cases stepped
    exact inv
  · contradiction

/-- What goes on after a turn has run all of it. -/
theorem round_body {r : Round} (stepped : step v x (.round r) = some y) (on : y.phase = .relaying) :
    body v r { x with attempted := [] } = some (y, true) := by
  unfold step at stepped
  split at stepped
  · rename_i relaying again
    cases again
    simp only [Option.ite_none_right_eq_some, Option.map_eq_some_iff, Prod.exists] at stepped
    obtain ⟨-, z, went, done, rfl⟩ := stepped
    cases went with
    | true => exact done
    | false => cases on
  all_goals contradiction

theorem fed_progress (fed : Fed x l) : Progress .copier x l := by
  rintro r rfl y stepped on p writable some_
  exact copier_attempts (round_body stepped on) p (fed p writable some_) some_

theorem baseline_progress (x : World) (l : Label) : Progress .baseline x l := by
  rintro r rfl y stepped on p writable some_
  exact baseline_attempts (round_body stepped on) p writable some_

/-- A write to the client does not touch what came from it, nor the other way round. -/
theorem writeTo_same {s : Sent} {ret : Int} (written : writeTo v p s x = some (ret, y)) :
    y.queue p = x.queue p := by
  simp only [writeTo, Option.map_eq_some_iff, Prod.mk.injEq] at written
  obtain ⟨w, called, -, rfl⟩ := written
  exact Function.update_of_ne p.other_ne.symm _ _

theorem readFrom_same {rd : Reading} {ret : Int} (read : readFrom v p rd x = some (ret, y)) :
    y.queue p.other = x.queue p.other := by
  simp only [readFrom, Option.map_eq_some_iff, Prod.mk.injEq] at read
  obtain ⟨w, called, -, rfl⟩ := read
  exact Function.update_of_ne p.other_ne _ _

/-- What came from a peer that was not read from stays. -/
theorem copier_unread {r : Round} (done : body .copier r x = some (y, on)) (p : Peer)
    (unread : (r.revents p).read = false) : y.queue p = x.queue p := by
  cases p with
  | server =>
    simp only [body, unread] at done
    rcases thenPart_some done with ⟨went, -⟩ | ⟨z, went, rest⟩
    · cases went
    · cases went
      split at rest
      · rcases thenPart_some rest with ⟨read, -⟩ | ⟨z, read, written⟩
        · obtain ⟨ret, read⟩ := orBreak_some read
          exact readFrom_same read
        · obtain ⟨ret, read⟩ := orBreak_some read
          obtain ⟨ret', written⟩ := orBreak_some written
          exact (writeTo_same written).trans (readFrom_same read)
      · cases rest
        rfl
  | client =>
    simp only [body, unread] at done
    have first : ∀ z on, (if (r.revents .server).read then
        thenPart (readServer .copier (r.reading .server))
          (orBreak (writeTo .copier .client (r.sending .client)))
        else skip) x = some (z, on) → z.queue .client = x.queue .client := by
      intro z on went
      split at went
      · rcases thenPart_some went with ⟨read, -⟩ | ⟨z', read, written⟩
        · obtain ⟨ret, z'', read, queue, -⟩ := readServer_some read
          exact (congrFun queue _).trans (readFrom_same read)
        · obtain ⟨ret, z'', read, queue, -⟩ := readServer_some read
          obtain ⟨ret', written⟩ := orBreak_some written
          exact (writeTo_same written).trans ((congrFun queue _).trans (readFrom_same read))
      · cases went
        rfl
    rcases thenPart_some done with ⟨went, -⟩ | ⟨z, went, rest⟩
    · exact first y false went
    · cases rest
      exact first y true went

/-- A full buffer is not read into any more, so nothing is ever written from it. -/
theorem full_stuck {rounds : List Round} (full : MAXBUFFSIZE ≤ x.size p)
    (ran : Runs.run (step .copier) x (rounds.map .round) = some y) : y.queue p = x.queue p := by
  induction rounds generalizing x with
  | nil =>
    cases ran
    rfl
  | cons r rounds ih =>
    simp only [List.map_cons, Runs.run, Option.bind_eq_some_iff] at ran
    obtain ⟨z, stepped, ran⟩ := ran
    have kept : z.queue p = x.queue p := by
      unfold step at stepped
      split at stepped
      · rename_i again
        cases again
        simp only [Option.ite_none_right_eq_some, Option.map_eq_some_iff, Prod.exists] at stepped
        obtain ⟨asked, z', on, done, rfl⟩ := stepped
        have unread : (r.revents p).read = false := by
          have asked := List.all_eq_true.mp asked p (by cases p <;> simp)
          simp only [Bool.and_eq_true, Bool.or_eq_true, Bool.not_eq_true', decide_eq_true_eq] at asked
          exact asked.1.resolve_right (by omega)
        have same := copier_unread done p unread
        split <;> exact same
      all_goals contradiction
    have still : MAXBUFFSIZE ≤ z.size p := by rwa [World.size, kept]
    exact (ih still ran).trans kept

/-- The streams handed over by two relays that read the same bytes. -/
def Agrees (x o : World) : Prop :=
  ∀ p, ((x.queue p).sent <+: (o.queue p).sent ∨ (o.queue p).sent <+: (x.queue p).sent) ∧
    (x.size p = 0 → o.size p = 0 → (x.queue p).sent = (o.queue p).sent)

theorem Inv.drained (inv : Inv x) (p : Peer) (drained : x.size p = 0) :
    (x.queue p).sent = (x.queue p).added := by
  obtain ⟨ls, inv⟩ := inv p
  cases inv.holds.size_zero.mp drained
  simpa [Fifo.pending] using inv.bytes

theorem Inv.sent (inv : Inv x) (p : Peer) : (x.queue p).sent <+: (x.queue p).added :=
  (inv p).elim fun _ inv => ⟨_, inv.bytes⟩

theorem Inv.agrees {o : World} (inv : Inv x) (other : Inv o)
    (same : ∀ p, (o.queue p).added = (x.queue p).added) : Agrees x o := by
  intro p
  refine ⟨List.prefix_or_prefix_of_prefix (inv.sent p) (same p ▸ other.sent p), fun empty drained => ?_⟩
  rw [inv.drained p empty, other.drained p drained, same]

/-- In runs whose writable peers are always fed, each turn writes to them as the baseline
does, and both hand over the same bytes. -/
theorem relay_progress (path : Runs.Path (step .copier) Fed (init n) ls x) :
    Runs.Path (step .copier) (Progress .copier) (init n) ls x ∧
      ∀ m ms o, Runs.Path (step .baseline) (fun _ _ => True) (init m) ms o →
        Runs.Path (step .baseline) (Progress .baseline) (init m) ms o ∧
          ((∀ p, (o.queue p).added = (x.queue p).added) → Agrees x o) := by
  refine ⟨path.mono fun _ _ => fed_progress, fun m ms o other => ⟨other.mono fun x l _ =>
    baseline_progress x l, fun same => ?_⟩⟩
  have inv := path.invariant Inv (.init n) fun inv _ stepped => step_inv inv stepped
  have inv' := other.invariant Inv (.init m) fun inv _ stepped => step_inv inv stepped
  exact inv.agrees inv' same

end Runs

def Peer.pick {α : Type} (client server : α) : Peer → α
  | .client => client
  | .server => server

/-- The server sends two bytes, of which the client takes one. -/
def partial_ : Round where
  revents := Peer.pick ⟨false, false⟩ ⟨true, false⟩
  reading _ := ⟨true, some 0, true, .bytes [65, 66]⟩
  sending _ := .bytes 1

/-- Now the client could take the other, and the server sends more or not. -/
def writable (more : Bool) : Round where
  revents := Peer.pick ⟨false, true⟩ ⟨more, false⟩
  reading _ := ⟨true, some 1, true, .bytes [67]⟩
  sending _ := .bytes 1

instance (x : World) (l : Label) : Decidable (Fed x l) :=
  match l with
  | .round r => decidable_of_iff
      (∀ p ∈ [Peer.client, .server], (r.revents p).write → 0 < x.size p.other → (r.revents p.other).read)
      ⟨fun fed p => fed p (by cases p <;> simp), fun fed p _ => fed p⟩
  | .pollFailed | .flush _ | .socket_blocking _ => isTrue trivial

theorem writable_fed :
    (Runs.run (fun x l => if Fed x l then step .copier x l else none) (init (-1))
      [.round partial_, .round (writable true)]).isSome := by
  decide

theorem fed_relay_progress : ∃ x,
    Runs.Path (step .copier) (Progress .copier) (init (-1)) [.round partial_, .round (writable true)] x ∧
      ∀ m ms o, Runs.Path (step .baseline) (fun _ _ => True) (init m) ms o →
        Runs.Path (step .baseline) (Progress .baseline) (init m) ms o ∧
          ((∀ p, (o.queue p).added = (x.queue p).added) → Agrees x o) := by
  obtain ⟨x, ran⟩ := Option.isSome_iff_exists.mp writable_fed
  exact ⟨x, relay_progress (.of_run ran)⟩

theorem writable_idle :
    (Runs.run (step .copier) (init (-1)) [.round partial_, .round (writable false)]).map
      (fun x => (x.phase, x.attempted)) = some (.relaying, []) := by
  decide

theorem partial_left :
    (Runs.run (step .copier) (init (-1)) [.round partial_]).map (fun x => x.size .server) = some 2 := by
  decide

/-- The rest is not written while the server sends nothing. -/
theorem leftover_not_written : ¬ ∀ n ls x, Runs.run (step .copier) (init n) ls = some x →
    Runs.Path (step .copier) (Progress .copier) (init n) ls x := by
  intro progress
  obtain ⟨x, ran, idle⟩ := Option.map_eq_some_iff.mp writable_idle
  have path : Runs.Path (step .copier) (Progress .copier) (init (-1))
      ([.round partial_] ++ [.round (writable false)]) x := progress _ _ _ ran
  obtain ⟨before, reached, met, stepped⟩ := path.last
  obtain ⟨before', reached', pending⟩ := Option.map_eq_some_iff.mp partial_left
  cases reached.symm.trans reached'
  simp only [Prod.mk.injEq] at idle
  have attempted := met _ rfl x stepped idle.1 .client rfl (by
    have size : before.size .server = 2 := pending
    simp [Peer.other, size])
  rw [idle.2] at attempted
  cases attempted

end Copier.Tinyproxy.Relay
