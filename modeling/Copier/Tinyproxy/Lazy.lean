import Copier.Foundation.Deferred
import Copier.Tinyproxy.Relay

/-! The copier version with its copies as they are: `LazyRecv`, the copies of new lines and
`LazySend` are queued, and the service performs them in order at any later time. The
buffers they read and fill are freed or filled again as if they were done. -/
namespace Copier.Tinyproxy.Lazy
open Deferred (Mem Span Task contents)
open Relay (Peer)

abbrev Heap := Deferred.Heap UInt8 Peer

/-- Where the thread is. A buffer is `touched` once something was received into it. -/
inductive Pc
  | idle
  | adding (p : Peer) (buffer : ℕ) (data : Bytes)
  | freeing (buffer : ℕ) (touched : Bool)
  | freeLine (string : ℕ)
  | pulling (buffer length : ℕ) (touched : Bool)
  | forwarding (buffer off left length : ℕ)
deriving DecidableEq

/-- The memory that the running function is going to free, and whether it was used. -/
def Pc.uses : Pc → Option (ℕ × Bool)
  | idle => none
  | adding _ buffer _ => some (buffer, true)
  | freeing buffer touched => some (buffer, touched)
  | freeLine string => some (string, true)
  | pulling buffer _ touched => some (buffer, touched)
  | forwarding buffer .. => some (buffer, true)

/-- `buffer p` holds what came from `p`, its strings being blocks of the heap; `kernel p` is
where `LazySend` puts what goes to `p`. `came` is history: what was received from a peer
for the other one. A peer is `closed` once what it sends is given up. -/
structure World where
  heap : Heap
  buffer : Peer → Buffer ℕ
  kernel : Peer → List Span
  came : Peer → Bytes
  closed : Peer → Bool
  pc : Pc

def init : World where
  heap := ⟨fun _ _ => 0, 0, [], []⟩
  buffer _ := new_buffer
  kernel _ := []
  came _ := []
  closed _ := false
  pc := .idle

/-- `reuse`: the next owner of freed memory writes into it. `interrupted` tells EINTR from
EWOULDBLOCK. -/
inductive Label
  | service
  | reuse (s : Span) (fill : ℕ → UInt8)
  | read_buffer_lazy (p : Peer) (buffer : Bool) (ret : Received)
  | add_to_bufferCopier (newline : Option ℕ) (string : Bool)
  | safefree
  | write_buffer_lazy (p : Peer) (ret : Sent)
  | free_line
  | pull_client_data (length : ℕ) (buffer : Bool)
  | safe_read_copier (error_variables : Bool) (ret : Received) (interrupted : Bool)
  | safe_write_copier (ret : Sent) (interrupted : Bool)

section Functions
variable (x : World)

def World.close (p : Peer) (pc : Pc) : World :=
  { x with closed := Function.update x.closed p true, pc := pc }

/-- `LazyRecv` has returned; `read_buffer_lazy` goes on with its result. -/
def read_buffer_lazy (p : Peer) (buffer : Bool) (ret : Received) : World :=
  if MAXBUFFSIZE ≤ (x.buffer p).size then x
  else if buffer then
    let b := x.heap.next
    let y := { x with heap := x.heap.claim }
    match ret with
    | .bytes [] | .error => y.close p (.freeing b false)
    | .bytes data => { y with
        heap := y.heap.submit (.recv p b 0 data)
        came := Function.update x.came p (x.came p ++ data)
        pc := .adding p b data }
    | .again => { y with pc := .freeing b false }
  else x.close p .idle

/-- `makenewlineCopier` submits the copy into the string it allocated. -/
def add_to_bufferCopier (p : Peer) (buffer : ℕ) (data : Bytes) (newline : Option ℕ) (string : Bool) :
    Option World :=
  let s := x.heap.next
  (Tinyproxy.add_to_bufferCopier (x.buffer p) newline
    (if string then some s else none) data.length).map
    fun (added, b) =>
      if added < 0 then x.close p (.freeing buffer true)
      else { x with
        heap := x.heap.claim.submit (.copy s 0 buffer 0 data.length)
        buffer := Function.update x.buffer p b
        pc := .freeing buffer true }

/-- `LazySend` took these bytes. -/
def World.lazySend (p : Peer) (s : Span) (pc : Pc) : World :=
  if s.len = 0 then { x with pc := pc }
  else { x with
    heap := x.heap.claim.submit (.copy x.heap.next 0 s.blk s.off s.len)
    kernel := Function.update x.kernel p (x.kernel p ++ [⟨x.heap.next, 0, s.len⟩])
    pc := pc }

/-- `write_buffer_lazy`, up to `free_line`. -/
def write_buffer_lazy (p : Peer) (ret : Sent) : Option World :=
  (Tinyproxy.write_buffer_lazy (x.buffer p.other) ret).map fun (sent, b, freed) =>
    let from_ : Span := match (x.buffer p.other).outgoing with
      | some line => ⟨line.string, line.pos, sent.toNat⟩
      | none => ⟨0, 0, 0⟩
    let y := x.lazySend p from_ (match freed with
      | some line => .freeLine line.string
      | none => .idle)
    { y with buffer := Function.update y.buffer p.other b }

def pull_client_data (length : ℕ) (buffer : Bool) : World :=
  if buffer then { x with heap := x.heap.claim, pc := .pulling x.heap.next length false }
  else x.close .client .idle

/-- The loop of `pull_client_data` once its buffer is done with. -/
def pulled (buffer length : ℕ) : Pc :=
  if 0 < length then .pulling buffer length true else .freeing buffer true

def safe_read_copier (buffer length : ℕ) (touched error_variables : Bool) (ret : Received)
    (interrupted : Bool) : World :=
  match ret with
  | .bytes [] | .error => x.close .client (.freeing buffer touched)
  | .again => if interrupted then x else x.close .client (.freeing buffer touched)
  | .bytes data =>
      let y := { x with heap := x.heap.submit (.recv .client buffer 0 data) }
      if error_variables then { y with pc := pulled buffer (length - data.length) }
      else { y with
        came := Function.update x.came .client (x.came .client ++ data)
        pc := .forwarding buffer 0 data.length (length - data.length) }

def safe_write_copier (buffer off left length : ℕ) (ret : Sent) (interrupted : Bool) : World :=
  match ret with
  | .again => if interrupted then x else x.close .client (.freeing buffer true)
  | .nobufs | .error => x.close .client (.freeing buffer true)
  | .bytes n => x.lazySend .server ⟨buffer, off, n⟩
      (if n = left then pulled buffer length else .forwarding buffer (off + n) (left - n) length)

end Functions

/-- `pull_client_data` comes before the relay, and a peer that reading failed from is not
read from again. -/
def step (x : World) (l : Label) : Option World :=
  match x.pc, l with
  | _, .service => x.heap.serve.map fun (h, _) => { x with heap := h }
  | _, .reuse s fill =>
      if s.blk < x.heap.next ∧ s.blk ∉ x.heap.live then some { x with heap := x.heap.store s fill }
      else none
  | .idle, .read_buffer_lazy p buffer ret =>
      if x.closed p = false ∧ ret.data.length ≤ READ_BUFFER_SIZE then
        some (read_buffer_lazy x p buffer ret)
      else none
  | .adding p buffer data, .add_to_bufferCopier newline string =>
      if ∀ q ∈ newline, (x.buffer p).lines q = none then
        add_to_bufferCopier x p buffer data newline string
      else none
  | .freeing buffer _, .safefree => some { x with heap := x.heap.release [buffer], pc := .idle }
  | .idle, .write_buffer_lazy p ret =>
      if ∀ s ∈ (x.buffer p.other).outgoing, ret.fits s then write_buffer_lazy x p ret else none
  | .freeLine string, .free_line => some { x with heap := x.heap.release [string], pc := .idle }
  | .idle, .pull_client_data length buffer =>
      if 0 < length ∧ x.closed .client = false ∧ (x.buffer .client).size = 0 then
        some (pull_client_data x length buffer)
      else none
  | .pulling buffer length touched, .safe_read_copier error_variables ret interrupted =>
      if ret.data.length ≤ min MAXBUFFSIZE length then
        some (safe_read_copier x buffer length touched error_variables ret interrupted)
      else none
  | .forwarding buffer off left length, .safe_write_copier ret interrupted =>
      if ret.fits (⟨(), left, 0⟩ : Segment Unit) then
        some (safe_write_copier x buffer off left length ret interrupted)
      else none
  | _, _ => none

/-- The memory that is freed or handed to `LazyRecv` once more. -/
def disposes (x : World) (l : Label) : List ℕ :=
  match x.pc, l with
  | .freeing buffer _, .safefree => [buffer]
  | .freeLine string, .free_line => [string]
  | .pulling buffer _ _, .safe_read_copier _ (.bytes (_ :: _)) _ => [buffer]
  | _, _ => []

/-- No queued operation reads or fills what is freed or filled again. -/
def Spared (x : World) (l : Label) : Prop := ∀ b ∈ disposes x l, x.heap.Clear (.free b)

/-- The service has caught up whenever memory that was used is freed or filled again. -/
def Drained (x : World) (l : Label) : Prop :=
  disposes x l ≠ [] → (∃ b, x.pc.uses = some (b, true)) → x.heap.ring = []

/-- What a peer is sent, once the service has caught up. -/
def World.delivered (x : World) (p : Peer) : Bytes := (x.kernel p).flatMap (contents x.heap.settled)

/-- What is queued reads and fills allocated memory, and each peer is sent the bytes of the
other one, all of them when nothing waits in between and nothing was given up. -/
structure Faithful (x : World) : Prop where
  live : ∀ t ∈ x.heap.ring, t.writes.blk ∈ x.heap.live ∧ t.reads.blk ∈ x.heap.live
  order : ∀ p, x.delivered p.other <+: x.came p
  whole : ∀ p, x.pc = .idle → (x.buffer p).size = 0 → x.closed p = false →
    x.delivered p.other = x.came p

abbrev Lines := Peer → List (ℕ × Segment ℕ)

def strings (ls : List (ℕ × Segment ℕ)) : List ℕ := ls.map fun line => line.2.string

/-- What is left of a line. -/
def unsent (s : Segment ℕ) : Span := ⟨s.string, s.pos, s.length - s.pos⟩

/-- What the running function holds of what came from a peer. -/
def Pc.holds : Pc → Peer → List Span
  | .adding q buffer data, p => if p = q then [⟨buffer, 0, data.length⟩] else []
  | .forwarding buffer off left _, p => if p = .client then [⟨buffer, off, left⟩] else []
  | _, _ => []

/-- Where the bytes that came from a peer are, from the first to the last. -/
def World.spans (x : World) (lines : Lines) (p : Peer) : List Span :=
  x.kernel p.other ++ (lines p).map (fun line => unsent line.2) ++ x.pc.holds p

def queued (lines : Lines) : List ℕ := strings (lines .client) ++ strings (lines .server)

def World.owned (x : World) (lines : Lines) : List ℕ :=
  (x.pc.uses.map Prod.fst).toList ++ queued lines

/-- The memory the thread owns is allocated and shared with nobody. -/
structure Sound (h : Heap) (owned : List ℕ) (kernel : Peer → List Span) : Prop where
  wf : h.Wf
  nodup : owned.Nodup
  live : ∀ b ∈ owned, b ∈ h.live
  kernel : ∀ p, ∀ s ∈ kernel p, s.blk ∈ h.live ∧ s.blk ∉ owned

/-- The newest task is about memory that was used, and no task about memory that was not. -/
def Used (h : Heap) : Option (ℕ × Bool) → Prop
  | none => True
  | some (b, true) => ∀ t ∈ h.ring.getLast?, t.writes.blk = b ∨ t.reads.blk = b
  | some (b, false) => h.Clear (.free b)

/-- These spans will hold what came, but for what was lost when the peer was given up. -/
def Carried (m : Mem UInt8) (spans : List Span) (closed : Bool) (came : Bytes) : Prop :=
  ∃ lost, spans.flatMap (contents m) ++ lost = came ∧ (closed = false → lost = [])

/-- What the running function relies on. -/
def Pc.Fits (pc : Pc) (closed : Peer → Bool) (lines : Lines) : Prop :=
  match pc with
  | .adding p _ data => data ≠ [] ∧ closed p = false
  | .pulling .. => closed .client = false ∧ lines .client = []
  | .forwarding _ _ left _ => closed .client = false ∧ lines .client = [] ∧ 0 < left
  | _ => True

structure Inv (x : World) (lines : Lines) : Prop where
  holds : ∀ p, (x.buffer p).Holds (lines p)
  sound : Sound x.heap (x.owned lines) x.kernel
  used : Used x.heap x.pc.uses
  fits : x.pc.Fits x.closed lines
  carried : ∀ p, Carried x.heap.settled (x.spans lines p) (x.closed p) (x.came p)

section Sound
variable {h h' : Heap} {owned owned' : List ℕ} {kernel : Peer → List Span} {b : ℕ} {p : Peer}

theorem Sound.perm (sound : Sound h owned kernel) (perm : owned.Perm owned') :
    Sound h owned' kernel where
  wf := sound.wf
  nodup := perm.nodup_iff.mp sound.nodup
  live b member := sound.live b (perm.mem_iff.mpr member)
  kernel p s member :=
    ⟨(sound.kernel p s member).1, fun listed => (sound.kernel p s member).2 (perm.mem_iff.mpr listed)⟩

theorem Sound.serve {report : Option (Peer × ℕ)} (sound : Sound h owned kernel)
    (served : h.serve = some (h', report)) : Sound h' owned kernel := by
  have live := (Deferred.Heap.serve_live served).2
  refine ⟨sound.wf.serve served, sound.nodup, ?_, ?_⟩
  · rw [live]
    exact sound.live
  · rw [live]
    exact sound.kernel

theorem Sound.store (sound : Sound h owned kernel) (s : Span) (f : ℕ → UInt8) :
    Sound (h.store s f) owned kernel :=
  ⟨sound.wf.store s f, sound.nodup, sound.live, sound.kernel⟩

theorem Sound.claim (sound : Sound h owned kernel) : Sound h.claim (h.next :: owned) kernel where
  wf := sound.wf.claim
  nodup := by
    refine List.nodup_cons.mpr ⟨fun listed => ?_, sound.nodup⟩
    exact Nat.lt_irrefl _ (sound.wf.named _ (sound.live _ listed))
  live b member := by
    rcases List.mem_cons.mp member with rfl | old
    · exact List.mem_cons_self
    · exact List.mem_cons_of_mem _ (sound.live b old)
  kernel p s member := by
    obtain ⟨live, apart⟩ := sound.kernel p s member
    refine ⟨List.mem_cons_of_mem _ live, fun listed => ?_⟩
    rcases List.mem_cons.mp listed with new | old
    · exact Nat.lt_irrefl _ (new ▸ sound.wf.named _ live)
    · exact apart old

theorem Sound.submit (sound : Sound h owned kernel) {t : Deferred.Task UInt8 Peer}
    (dst : t.writes.blk ∈ owned)
    (src : t.reads.blk ∈ owned) : Sound (h.submit t) owned kernel :=
  ⟨sound.wf.submit (sound.live _ dst) (sound.live _ src), sound.nodup, sound.live, sound.kernel⟩

theorem Sound.release (sound : Sound h (b :: owned) kernel) (clear : h.Clear (.free b)) :
    Sound (h.release [b]) owned kernel where
  wf := sound.wf.release fun c member => List.mem_singleton.mp member ▸ clear
  nodup := (List.nodup_cons.mp sound.nodup).2
  live c member := by
    refine Deferred.Heap.mem_release.mpr
      ⟨sound.live c (List.mem_cons_of_mem _ member), fun freed => ?_⟩
    cases List.mem_singleton.mp freed
    exact (List.nodup_cons.mp sound.nodup).1 member
  kernel p s member := by
    obtain ⟨live, apart⟩ := sound.kernel p s member
    refine ⟨Deferred.Heap.mem_release.mpr ⟨live, fun freed => ?_⟩, fun listed => ?_⟩
    · exact apart (List.mem_singleton.mp freed ▸ List.mem_cons_self)
    · exact apart (List.mem_cons_of_mem _ listed)

/-- The kernel becomes the owner. -/
theorem Sound.give (sound : Sound h (b :: owned) kernel) (p : Peer) (off len : ℕ) :
    Sound h owned (Function.update kernel p (kernel p ++ [⟨b, off, len⟩])) where
  wf := sound.wf
  nodup := (List.nodup_cons.mp sound.nodup).2
  live c member := sound.live c (List.mem_cons_of_mem _ member)
  kernel q s member := by
    have old : ∀ q, ∀ s ∈ kernel q, s.blk ∈ h.live ∧ s.blk ∉ owned := fun q s member =>
      ⟨(sound.kernel q s member).1, fun listed =>
        (sound.kernel q s member).2 (List.mem_cons_of_mem _ listed)⟩
    by_cases same : q = p
    · subst same
      rw [Function.update_self] at member
      rcases List.mem_append.mp member with before | new
      · exact old q s before
      · cases List.mem_singleton.mp new
        exact ⟨sound.live b List.mem_cons_self, (List.nodup_cons.mp sound.nodup).1⟩
    · rw [Function.update_of_ne same] at member
      exact old q s member

/-- Only the queue matters. -/
theorem Used.of_ring {use : Option (ℕ × Bool)} (used : Used h use) (ring : h'.ring = h.ring) :
    Used h' use := by
  match use with
  | none => trivial
  | some (b, true) => exact fun t last => used t (ring ▸ last)
  | some (b, false) => exact fun t member => used t (ring ▸ member)

theorem Used.serve {report : Option (Peer × ℕ)} {use : Option (ℕ × Bool)} (used : Used h use)
    (served : h.serve = some (h', report)) : Used h' use := by
  match use with
  | none => trivial
  | some (b, true) =>
    intro t last
    obtain ⟨u, before, dst, src⟩ := Deferred.Heap.serve_last served last
    rw [← dst, ← src]
    exact used u before
  | some (b, false) =>
    intro t member
    obtain ⟨u, before, dst, src⟩ := Deferred.Heap.serve_pending served member
    rw [← dst, ← src]
    exact used u before

theorem Used.submit {t : Deferred.Task UInt8 Peer} (about : t.writes.blk = b ∨ t.reads.blk = b) :
    Used (h.submit t) (some (b, true)) := by
  intro u last
  simp only [Deferred.Heap.submit, List.getLast?_append, List.getLast?_singleton, Option.some_or,
    Option.mem_def, Option.some.injEq] at last
  exact last ▸ about

/-- With the newest task done, all are. -/
theorem Used.drained (used : Used h (some (b, true))) (clear : h.Clear (.free b)) : h.ring = [] := by
  cases last : h.ring.getLast? with
  | none => exact List.getLast?_eq_none_iff.mp last
  | some t =>
    obtain ⟨unwritten, unread⟩ := clear t (List.mem_of_getLast? last)
    rcases used t last with dst | src
    · exact absurd dst unwritten
    · exact absurd src unread

end Sound

section Carried
variable {m m' : Mem UInt8} {spans spans' : List Span} {closed : Bool} {came : Bytes}

theorem Carried.of_eq (carried : Carried m spans closed came)
    (same : spans'.flatMap (contents m') = spans.flatMap (contents m)) :
      Carried m' spans' closed came := by
  obtain ⟨lost, bytes, none_⟩ := carried
  exact ⟨lost, same ▸ bytes, none_⟩

theorem Carried.frame (carried : Carried m spans closed came)
    (same : ∀ s ∈ spans, contents m' s = contents m s) : Carried m' spans closed came :=
  carried.of_eq (List.flatMap_congr same)

theorem Carried.close (carried : Carried m (spans ++ spans') closed came) :
    Carried m spans true came := by
  obtain ⟨lost, bytes, -⟩ := carried
  exact ⟨spans'.flatMap (contents m) ++ lost, by simpa using bytes, nofun⟩

theorem Carried.grow (carried : Carried m spans false came) (s : Span) :
    Carried m (spans ++ [s]) false (came ++ contents m s) := by
  obtain ⟨lost, bytes, none_⟩ := carried
  cases none_ rfl
  exact ⟨[], by simpa using bytes, fun _ => rfl⟩

end Carried

section Steps
variable {x : World} {lines : Lines} {pc : Pc} {b : ℕ} {p : Peer} {s : Span}

theorem Inv.init : Inv init fun _ => [] where
  holds _ := new_buffer_holds
  sound := ⟨⟨nofun, nofun, nofun⟩, List.nodup_nil, nofun, fun _ => nofun⟩
  used := trivial
  fits := trivial
  carried _ := ⟨[], rfl, fun _ => rfl⟩

theorem Pc.holds_blk (member : s ∈ pc.holds p) : ∃ touched, pc.uses = some (s.blk, touched) := by
  cases pc <;>
    simp only [Pc.holds, List.mem_ite_nil_right, List.mem_singleton, List.not_mem_nil] at member
  all_goals
    rw [member.2]
    exact ⟨true, rfl⟩

theorem string_queued (member : line ∈ lines p) : line.2.string ∈ queued lines := by
  have listed := List.mem_map_of_mem (f := fun line : ℕ × Segment ℕ => line.2.string) member
  cases p with
  | client => exact List.mem_append_left _ listed
  | server => exact List.mem_append_right _ listed

theorem queued_perm (lines : Lines) (p : Peer) :
    (queued lines).Perm (strings (lines p) ++ strings (lines p.other)) := by
  cases p with
  | client => exact .refl _
  | server => exact List.perm_append_comm

/-- Who has the memory of a span. -/
theorem span_owner (member : s ∈ x.spans lines p) :
    s ∈ x.kernel p.other ∨ s.blk ∈ queued lines ∨ s ∈ x.pc.holds p := by
  rcases List.mem_append.mp member with before | running
  · rcases List.mem_append.mp before with given | line
    · exact .inl given
    · obtain ⟨line, listed, rfl⟩ := List.mem_map.mp line
      exact .inr (.inl (string_queued listed))
  · exact .inr (.inr running)

theorem Inv.span_live (inv : Inv x lines) (member : s ∈ x.spans lines p) : s.blk ∈ x.heap.live := by
  rcases span_owner member with given | queued | running
  · exact (inv.sound.kernel _ s given).1
  · exact inv.sound.live _ (List.mem_append_right _ queued)
  · obtain ⟨touched, uses⟩ := Pc.holds_blk running
    exact inv.sound.live _ (by simp [World.owned, uses])

/-- Bytes that are not in the memory of the running function are elsewhere. -/
theorem Inv.span_apart (inv : Inv x lines) (uses : x.pc.uses = some (b, touched))
    (none_ : x.pc.holds p = []) (member : s ∈ x.spans lines p) : s.blk ≠ b := by
  have owned : x.owned lines = b :: Lazy.queued lines := by simp [World.owned, uses]
  rcases span_owner member with given | queued | running
  · rintro rfl
    exact (inv.sound.kernel _ s given).2 (owned ▸ List.mem_cons_self)
  · rintro rfl
    exact (List.nodup_cons.mp (owned ▸ inv.sound.nodup)).1 queued
  · rw [none_] at running
    cases running

theorem Inv.fresh (inv : Inv x lines) (member : s ∈ x.spans lines p) : s.blk ≠ x.heap.next :=
  Nat.ne_of_lt (inv.sound.wf.named _ (inv.span_live member))

theorem Inv.service {h : Heap} {report : Option (Peer × ℕ)} (inv : Inv x lines)
    (served : x.heap.serve = some (h, report)) : Inv { x with heap := h } lines where
  holds := inv.holds
  sound := inv.sound.serve served
  used := inv.used.serve served
  fits := inv.fits
  carried p := (Deferred.Heap.settled_serve served).symm ▸ inv.carried p

theorem Inv.reuse (inv : Inv x lines) (freed : s.blk ∉ x.heap.live) (fill : ℕ → UInt8) :
    Inv { x with heap := x.heap.store s fill } lines where
  holds := inv.holds
  sound := inv.sound.store s fill
  used := inv.used.of_ring rfl
  fits := inv.fits
  carried p := by
    have clear : x.heap.Clear (.write s) := fun t member =>
      ⟨Span.not_overlaps_blk fun same => freed (same ▸ inv.sound.wf.dst t member),
        Span.not_overlaps_blk fun same => freed (same ▸ inv.sound.wf.src t member)⟩
    refine (inv.carried p).frame fun span member => Deferred.contents_congr fun i has => ?_
    rw [Deferred.Heap.settled_store clear]
    exact Deferred.store_blk fun same => freed (same ▸ inv.span_live member)

/-- Memory is allocated for the running function. -/
theorem Inv.claim (inv : Inv x lines) (idle : x.pc = .idle)
    (uses : pc.uses = some (x.heap.next, false))
    (none_ : ∀ p, pc.holds p = []) (fits : pc.Fits x.closed lines) :
    Inv { x with heap := x.heap.claim, pc := pc } lines where
  holds := inv.holds
  sound := by
    have before := inv.sound.claim
    have nothing : x.pc.uses = none := idle ▸ rfl
    simp only [World.owned, nothing, Option.map_none, Option.toList_none, List.nil_append] at before
    simpa [World.owned, uses] using before
  used := by
    have endpoints := inv.sound.wf.endpoints
    simp only [uses]
    exact fun t member =>
      ⟨Nat.ne_of_lt (endpoints t member).1, Nat.ne_of_lt (endpoints t member).2⟩
  fits := fits
  carried p := by
    have before := inv.carried p
    simp only [World.spans, idle, Pc.holds] at before
    simpa only [World.spans, none_, Deferred.Heap.settled_claim] using before

/-- What a peer sends is given up. -/
theorem Inv.close (inv : Inv x lines) (uses : pc.uses = x.pc.uses) (none_ : ∀ p, pc.holds p = [])
    (fits : ∀ closed lines, pc.Fits closed lines) (others : ∀ q, q ≠ p → x.pc.holds q = []) :
    Inv (x.close p pc) lines where
  holds := inv.holds
  sound := by
    simp only [World.owned, World.close, uses]
    exact inv.sound
  used := by
    simp only [World.close, uses]
    exact inv.used
  fits := fits _ _
  carried q := by
    have before := inv.carried q
    simp only [World.spans, World.close, none_, List.append_nil] at before ⊢
    by_cases same : q = p
    · subst same
      rw [Function.update_self]
      exact before.close
    · rw [Function.update_of_ne same]
      simpa only [others q same, List.append_nil] using before

variable (pc) in
/-- Bytes are received into the memory of the running function. -/
theorem Inv.fill (inv : Inv x lines) (uses : x.pc.uses = some (b, touched))
    (none_ : ∀ p, x.pc.holds p = [])
    (now : pc.uses = some (b, true)) (empty : ∀ p, pc.holds p = []) (fits : pc.Fits x.closed lines)
    (p : Peer) (data : Bytes) :
    Inv { x with heap := x.heap.submit (.recv p b 0 data), pc := pc } lines where
  holds := inv.holds
  sound := by
    have owned : b ∈ x.owned lines := by simp [World.owned, uses]
    simpa [World.owned, uses, now] using inv.sound.submit (t := .recv p b 0 data) owned owned
  used := by
    simp only [now]
    exact .submit (.inl rfl)
  fits := fits
  carried q := by
    have apart : ∀ s ∈ x.spans lines q, contents (x.heap.submit (.recv p b 0 data)).settled s =
        contents x.heap.settled s := by
      intro s member
      rw [Deferred.Heap.settled_submit]
      exact Deferred.contents_apply_other _ (inv.span_apart uses (none_ q) member)
    have before := (inv.carried q).frame apart
    simp only [World.spans, none_] at before
    simpa only [World.spans, empty] using before

/-- Bytes in the memory of the running function are for the other peer. -/
theorem Inv.take (inv : Inv x lines) (none_ : ∀ p, x.pc.holds p = []) (same : pc.uses = x.pc.uses)
    (held : pc.holds p = [s]) (others : ∀ q, q ≠ p → pc.holds q = []) (fits : pc.Fits x.closed lines)
    (opened : x.closed p = false) (filled : contents x.heap.settled s = data) :
    Inv { x with came := Function.update x.came p (x.came p ++ data), pc := pc } lines where
  holds := inv.holds
  sound := by
    have before := inv.sound
    simp only [World.owned] at before
    simpa only [World.owned, same] using before
  used := by
    simp only [same]
    exact inv.used
  fits := fits
  carried q := by
    have before := inv.carried q
    simp only [World.spans, none_, List.append_nil] at before ⊢
    by_cases q_eq : q = p
    · subst q_eq
      rw [Function.update_self, held, ← filled]
      rw [opened] at before ⊢
      exact before.grow s
    · rwa [Function.update_of_ne q_eq, others q q_eq, List.append_nil]

/-- The memory of the running function is freed. -/
theorem Inv.release (inv : Inv x lines) (uses : x.pc.uses = some (b, touched))
    (none_ : ∀ p, x.pc.holds p = [])
    (clear : x.heap.Clear (.free b)) :
    Inv { x with heap := x.heap.release [b], pc := .idle } lines where
  holds := inv.holds
  sound := by
    have before := inv.sound
    simp only [World.owned, uses, Option.map_some, Option.toList_some, List.singleton_append] at before
    exact before.release clear
  used := trivial
  fits := trivial
  carried p := by
    have before := inv.carried p
    simp only [World.spans, none_] at before
    simpa only [World.spans, Pc.holds, Deferred.Heap.settled_release] using before

theorem queued_update (lines : Lines) (p : Peer) (ls : List (ℕ × Segment ℕ)) :
    (queued (Function.update lines p ls)).Perm (strings ls ++ strings (lines p.other)) := by
  have perm := queued_perm (Function.update lines p ls) p
  rwa [Function.update_self, Function.update_of_ne (Relay.Peer.other_ne p)] at perm

/-- A line takes over what was received, as soon as its copy is submitted. -/
theorem Inv.add {b' : Buffer ℕ} {q : ℕ} {data : Bytes} (inv : Inv x lines)
    (adding : x.pc = .adding p b data)
    (holds : b'.Holds (lines p ++ [(q, ⟨x.heap.next, data.length, 0⟩)])) :
    Inv { x with
      heap := x.heap.claim.submit (.copy x.heap.next 0 b 0 data.length)
      buffer := Function.update x.buffer p b'
      pc := .freeing b true }
      (Function.update lines p (lines p ++ [(q, ⟨x.heap.next, data.length, 0⟩)])) where
  holds r := by
    by_cases same : r = p
    · subst same
      simpa only [Function.update_self] using holds
    · simpa only [Function.update_of_ne same] using inv.holds r
  sound := by
    have uses : x.pc.uses = some (b, true) := adding ▸ rfl
    have owned : x.owned lines = b :: Lazy.queued lines := by simp [World.owned, uses]
    have before := inv.sound.claim.submit (t := .copy x.heap.next 0 b 0 data.length) List.mem_cons_self
      (List.mem_cons_of_mem _ (owned ▸ List.mem_cons_self))
    refine before.perm ?_
    rw [owned]
    refine (List.Perm.swap _ _ _).trans (.cons _ ?_)
    refine .trans ?_ (queued_update lines p _).symm
    simp only [strings, List.map_append, List.map_singleton, List.append_assoc, List.singleton_append]
    exact (List.Perm.cons _ (queued_perm lines p)).trans List.perm_middle.symm
  used := .submit (.inr rfl)
  fits := trivial
  carried r := by
    have apart : ∀ s ∈ x.spans lines r,
        contents (x.heap.claim.submit (.copy x.heap.next 0 b 0 data.length)).settled s =
          contents x.heap.settled s := by
      intro s member
      rw [Deferred.Heap.settled_submit, Deferred.Heap.settled_claim]
      exact Deferred.contents_apply_other _ (inv.fresh member)
    have copied : contents (x.heap.claim.submit (.copy x.heap.next 0 b 0 data.length)).settled
        ⟨x.heap.next, 0, data.length⟩ = contents x.heap.settled ⟨b, 0, data.length⟩ := by
      rw [Deferred.Heap.settled_submit, Deferred.Heap.settled_claim]
      exact Deferred.contents_copy _ _ _ _ _
    refine (inv.carried r).of_eq ?_
    by_cases same : r = p
    · subst same
      simp only [World.spans, adding, Pc.holds, if_true, List.append_nil,
        Function.update_self] at apart ⊢
      have kept := List.flatMap_congr fun s member => apart s (List.mem_append_left _ member)
      simp only [List.map_append, List.map_singleton, ← List.append_assoc] at kept ⊢
      generalize x.kernel r.other ++ (lines r).map (fun line => unsent line.2) = before at kept ⊢
      simp only [List.flatMap_append, List.flatMap_singleton, kept, unsent, Nat.sub_zero, copied]
    · simp only [World.spans, adding, Pc.holds, if_neg same, Function.update_of_ne same] at apart ⊢
      exact List.flatMap_congr apart

/-- What `LazySend` does to the bytes, the memory and the queue. -/
structure Sends (x y : World) (p : Peer) (s : Span) (owned : List ℕ) (sent : List Span) : Prop where
  kernel : y.kernel = Function.update x.kernel p (x.kernel p ++ sent)
  bytes : sent.flatMap (contents y.heap.settled) = contents x.heap.settled s
  frame : ∀ t : Span, t.blk ∈ x.heap.live → contents y.heap.settled t = contents x.heap.settled t
  sound : Sound y.heap owned y.kernel
  used : Used x.heap (some (s.blk, true)) ∨ 0 < s.len → Used y.heap (some (s.blk, true))

theorem lazySend_sends {owned : List ℕ} (sound : Sound x.heap owned x.kernel)
    (member : s.blk ∈ owned) (p : Peer)
    (pc : Pc) : ∃ sent, Sends x (x.lazySend p s pc) p s owned sent := by
  unfold World.lazySend
  split
  · rename_i empty
    refine ⟨[], by simp, by simp [contents, empty], fun _ _ => rfl, sound, fun either => ?_⟩
    exact either.resolve_right (by simp [empty])
  · refine ⟨[⟨x.heap.next, 0, s.len⟩], rfl, ?_, ?_, ?_, fun _ => .submit (.inr rfl)⟩
    · simp only [List.flatMap_singleton, Deferred.Heap.settled_submit, Deferred.Heap.settled_claim]
      exact Deferred.contents_copy _ _ _ _ _
    · intro t live
      rw [Deferred.Heap.settled_submit, Deferred.Heap.settled_claim]
      exact Deferred.contents_apply_other _ (Nat.ne_of_lt (sound.wf.named _ live))
    · have before := sound.claim.submit (t := .copy x.heap.next 0 s.blk s.off s.len) List.mem_cons_self
        (List.mem_cons_of_mem _ member)
      exact before.give p 0 s.len

theorem lazySend_rest (x : World) (p : Peer) (s : Span) (pc : Pc) :
    (x.lazySend p s pc).pc = pc ∧ (x.lazySend p s pc).buffer = x.buffer ∧
      (x.lazySend p s pc).came = x.came ∧ (x.lazySend p s pc).closed = x.closed := by
  unfold World.lazySend
  split <;> exact ⟨rfl, rfl, rfl, rfl⟩

/-- What is sent leaves at the front. -/
theorem unsent_send (m : Mem UInt8) (q : ℕ) (s : Segment ℕ) (rest : List (ℕ × Segment ℕ)) {n : ℕ}
    (fits : n ≤ s.length - s.pos) :
    contents m ⟨s.string, s.pos, n⟩ ++
        ((sendFirst n ((q, s) :: rest)).map fun line => unsent line.2).flatMap (contents m) =
      (((q, s) :: rest).map fun line => unsent line.2).flatMap (contents m) := by
  have split := Deferred.contents_split m s.string s.pos fits
  rw [Nat.sub_sub] at split
  simp only [sendFirst, List.map_cons, List.flatMap_cons]
  split_ifs with done
  · rw [done, Nat.sub_self] at split
    have nothing : contents m ⟨s.string, s.length, 0⟩ = [] := rfl
    rw [nothing, List.append_nil] at split
    rw [split]
    rfl
  · rw [List.map_cons, List.flatMap_cons, ← List.append_assoc]
    exact congrArg (· ++ _) split

/-- The string of a line that was sent as a whole goes to the running function. -/
theorem sendFirst_strings (q : ℕ) (s : Segment ℕ) (rest : List (ℕ × Segment ℕ)) (n : ℕ) :
    (if s.pos + n = s.length then [s.string] else []) ++ strings (sendFirst n ((q, s) :: rest)) =
      strings ((q, s) :: rest) := by
  simp only [sendFirst]
  split_ifs <;> rfl

variable (pc) in
/-- The first line is sent, as far as `LazySend` takes it. -/
theorem Inv.write {b' : Buffer ℕ} {q n : ℕ} {seg : Segment ℕ} {rest : List (ℕ × Segment ℕ)}
    (inv : Inv x lines)
    (idle : x.pc = .idle) (first : lines p.other = (q, seg) :: rest) (fits : n ≤ seg.length - seg.pos)
    (holds : b'.Holds (sendFirst n (lines p.other)))
    (uses : pc.uses = if seg.pos + n = seg.length then some (seg.string, true) else none)
    (none_ : ∀ r, pc.holds r = []) (quiet : ∀ closed lines, pc.Fits closed lines) :
    Inv { x.lazySend p ⟨seg.string, seg.pos, n⟩ pc with
      buffer := Function.update (x.lazySend p ⟨seg.string, seg.pos, n⟩ pc).buffer p.other b' }
      (Function.update lines p.other (sendFirst n (lines p.other))) := by
  have nothing : x.pc.uses = none := idle ▸ rfl
  have quiet_before : ∀ r, x.pc.holds r = [] := idle ▸ fun _ => rfl
  have owned : x.owned lines = Lazy.queued lines := by simp [World.owned, nothing]
  have listed : seg.string ∈ Lazy.queued lines :=
    string_queued (p := p.other) (first ▸ List.mem_cons_self : (q, seg) ∈ lines p.other)
  obtain ⟨sent, sends⟩ := lazySend_sends (owned ▸ inv.sound) listed p pc
    (s := ⟨seg.string, seg.pos, n⟩)
  obtain ⟨pc_eq, buffer_eq, came_eq, closed_eq⟩ := lazySend_rest x p ⟨seg.string, seg.pos, n⟩ pc
  generalize x.lazySend p ⟨seg.string, seg.pos, n⟩ pc = y at sends pc_eq buffer_eq came_eq closed_eq ⊢
  rw [buffer_eq]
  refine ⟨fun r => ?_, ?_, ?_, ?_, fun r => ?_⟩
  · by_cases same : r = p.other
    · subst same
      simpa only [Function.update_self] using holds
    · simpa only [Function.update_of_ne same] using inv.holds r
  · refine sends.sound.perm ?_
    have moved := sendFirst_strings q seg rest n
    rw [← first] at moved
    have held : (pc.uses.map Prod.fst).toList =
        if seg.pos + n = seg.length then [seg.string] else [] := by
      rw [uses]
      split <;> rfl
    simp only [World.owned, pc_eq, held]
    refine (queued_perm lines p.other).trans ?_
    rw [← moved, List.append_assoc]
    exact (queued_update lines p.other _).symm.append_left _
  · dsimp only
    rw [pc_eq, uses]
    split
    · have position := (inv.holds p.other).pos (q, seg) (first ▸ List.mem_cons_self)
      exact sends.used (.inr (by dsimp only at position ⊢; omega))
    · trivial
  · dsimp only
    rw [pc_eq]
    exact quiet _ _
  · have frame : ∀ s ∈ x.spans lines r, contents y.heap.settled s = contents x.heap.settled s :=
      fun s member => sends.frame s (inv.span_live member)
    dsimp only
    rw [came_eq, closed_eq]
    refine (inv.carried r).of_eq ?_
    by_cases same : r = p.other
    · subst same
      simp only [World.spans, pc_eq, none_, quiet_before, List.append_nil, sends.kernel,
        Relay.Peer.other_other, Function.update_self] at frame ⊢
      have lines_kept := List.flatMap_congr fun s member => frame s (List.mem_append_right _ member)
      have kernel_kept := List.flatMap_congr fun s member => frame s (List.mem_append_left _ member)
      have taken := unsent_send y.heap.settled q seg rest fits
      rw [← first, lines_kept] at taken
      rw [List.flatMap_append, List.flatMap_append, List.flatMap_append, kernel_kept, sends.bytes,
        List.append_assoc, ← taken, sends.frame ⟨seg.string, seg.pos, n⟩
          (inv.sound.live _ (owned ▸ listed))]
    · have same_kernel : r.other ≠ p := by
        rintro rfl
        exact same (Relay.Peer.other_other r).symm
      simp only [World.spans, pc_eq, none_, quiet_before, sends.kernel, Function.update_of_ne same,
        Function.update_of_ne same_kernel] at frame ⊢
      exact List.flatMap_congr frame

/-- The client's bytes are sent on from where they were received. -/
theorem Inv.forward {off left length n : ℕ} (inv : Inv x lines)
    (here : x.pc = .forwarding b off left length)
    (fits : n ≤ left) :
    Inv (x.lazySend .server ⟨b, off, n⟩
      (if n = left then pulled b length else .forwarding b (off + n) (left - n) length)) lines := by
  have uses : x.pc.uses = some (b, true) := here ▸ rfl
  have owned : x.owned lines = b :: Lazy.queued lines := by simp [World.owned, uses]
  have relies := inv.fits
  simp only [here, Pc.Fits] at relies
  obtain ⟨opened, empty, positive⟩ := relies
  generalize next :
    (if n = left then pulled b length else Pc.forwarding b (off + n) (left - n) length) = pc
  have next_uses : pc.uses = some (b, true) := by
    rw [← next]
    unfold pulled
    split_ifs <;> rfl
  have next_fits : pc.Fits x.closed lines := by
    rw [← next]
    unfold pulled
    split_ifs with all more
    · exact ⟨opened, empty⟩
    · trivial
    · exact ⟨opened, empty, by omega⟩
  have next_server : pc.holds .server = [] := by
    rw [← next]
    unfold pulled
    split_ifs <;> rfl
  have next_client : ∀ m : Mem UInt8,
      (pc.holds .client).flatMap (contents m) = contents m ⟨b, off + n, left - n⟩ := by
    intro m
    rw [← next]
    unfold pulled
    split_ifs with all more
    · simp [Pc.holds, contents, all]
    · simp [Pc.holds, contents, all]
    · simp [Pc.holds]
  obtain ⟨sent, sends⟩ := lazySend_sends inv.sound (s := ⟨b, off, n⟩)
    (owned ▸ List.mem_cons_self) .server pc
  obtain ⟨pc_eq, buffer_eq, came_eq, closed_eq⟩ := lazySend_rest x .server ⟨b, off, n⟩ pc
  generalize x.lazySend .server ⟨b, off, n⟩ pc = y at sends pc_eq buffer_eq came_eq closed_eq ⊢
  refine ⟨buffer_eq ▸ inv.holds, ?_, ?_, ?_, fun r => ?_⟩
  · have sound := sends.sound
    rw [owned] at sound
    simpa [World.owned, pc_eq, next_uses] using sound
  · rw [pc_eq, next_uses]
    exact sends.used (.inl (uses ▸ inv.used))
  · rw [pc_eq, closed_eq]
    exact next_fits
  · have frame : ∀ s ∈ x.spans lines r, contents y.heap.settled s = contents x.heap.settled s :=
      fun s member => sends.frame s (inv.span_live member)
    rw [came_eq, closed_eq]
    refine (inv.carried r).of_eq ?_
    have live : b ∈ x.heap.live := inv.sound.live _ (owned ▸ List.mem_cons_self)
    cases r with
    | client =>
      have before : x.pc.holds .client = [⟨b, off, left⟩] := here ▸ rfl
      simp only [World.spans, pc_eq, before, empty, List.map_nil, List.append_nil, sends.kernel,
        Peer.other, Function.update_self, List.flatMap_append, next_client, List.flatMap_singleton,
        sends.bytes] at frame ⊢
      rw [List.flatMap_congr fun s member => frame s (List.mem_append_left _ member),
        List.append_assoc, ← sends.frame ⟨b, off, n⟩ live, Deferred.contents_split _ _ _ fits]
      rw [sends.frame ⟨b, off, left⟩ live]
    | server =>
      have before : x.pc.holds .server = [] := here ▸ rfl
      have apart : Peer.client ≠ .server := by decide
      simp only [World.spans, pc_eq, before, next_server, sends.kernel, Peer.other,
        Function.update_of_ne apart] at frame ⊢
      exact List.flatMap_congr frame

theorem Inv.read_buffer_lazy (inv : Inv x lines) (idle : x.pc = .idle) (opened : x.closed p = false)
    (buffer : Bool) (ret : Received) : Inv (read_buffer_lazy x p buffer ret) lines := by
  have nothing : ∀ q, q ≠ p → x.pc.holds q = [] := fun _ _ => idle ▸ rfl
  have allocated : Inv { x with heap := x.heap.claim, pc := .freeing x.heap.next false } lines :=
    inv.claim idle rfl (fun _ => rfl) trivial
  unfold Lazy.read_buffer_lazy
  split_ifs with full
  · exact inv
  · have failed :
        Inv (World.close { x with heap := x.heap.claim } p (.freeing x.heap.next false)) lines :=
      allocated.close rfl (fun _ => rfl) (fun _ _ => trivial) fun _ _ => rfl
    match ret with
    | .bytes [] => exact failed
    | .error => exact failed
    | .again => exact allocated
    | .bytes (d :: data) =>
      have filled := allocated.fill (.freeing x.heap.next true) rfl (fun _ => rfl) rfl (fun _ => rfl)
        trivial p (d :: data)
      refine filled.take (fun _ => rfl) rfl (if_pos rfl) (fun q other => if_neg other)
        ⟨List.cons_ne_nil _ _, opened⟩ opened ?_
      rw [Deferred.Heap.settled_submit]
      exact Deferred.contents_recv _ _ _ _ _
  · exact inv.close (idle ▸ rfl) (fun _ => rfl) (fun _ _ => trivial) nothing

theorem Inv.add_to_bufferCopier {data : Bytes} {newline : Option ℕ} {x' : World} (inv : Inv x lines)
    (adding : x.pc = .adding p b data) (free : ∀ q ∈ newline, (x.buffer p).lines q = none)
    (added : add_to_bufferCopier x p b data newline string = some x') : ∃ lines, Inv x' lines := by
  have relies := inv.fits
  simp only [adding, Pc.Fits] at relies
  have positive := List.length_pos_of_ne_nil relies.1
  simp only [Lazy.add_to_bufferCopier, Tinyproxy.add_to_bufferCopier] at added
  rcases add_spec (inv.holds p) free (if string then some x.heap.next else none) positive with
    ⟨-, failed⟩ | ⟨q, s, b', -, filled, pushed, holds⟩
  · rw [failed] at added
    cases added
    refine ⟨lines, inv.close (adding ▸ rfl) (fun _ => rfl) (fun _ _ => trivial) fun q other => ?_⟩
    rw [adding]
    exact if_neg other
  · rw [pushed] at added
    cases added
    split at filled
    · cases filled
      exact ⟨_, inv.add adding holds⟩
    · cases filled

theorem Inv.write_buffer_lazy {ret : Sent} {x' : World} (inv : Inv x lines) (idle : x.pc = .idle)
    (fits : ∀ s ∈ (x.buffer p.other).outgoing, ret.fits s)
    (written : write_buffer_lazy x p ret = some x') : ∃ lines, Inv x' lines := by
  have outgoing := (inv.holds p.other).outgoing
  simp only [Lazy.write_buffer_lazy, Tinyproxy.write_buffer_lazy] at written
  rcases pop_spec (inv.holds p.other) ret fits with
    ⟨r, none_, kept, -⟩ | ⟨n, q, seg, rest, b', rfl, listed, popped, holds⟩
  · have nothing : r.toNat = 0 := by omega
    rw [kept] at written
    cases written
    have same : { x with pc := .idle } = x := by rw [← idle]
    refine ⟨lines, ?_⟩
    cases (x.buffer p.other).outgoing <;>
      simpa [World.lazySend, nothing, Function.update_eq_self, same] using inv
  · rw [popped] at written
    cases written
    have room := fits seg (by rw [outgoing, listed]; rfl)
    rw [outgoing, listed]
    by_cases all : seg.pos + n = seg.length
    · simp only [if_pos all]
      exact ⟨_, inv.write (.freeLine seg.string) idle listed room holds (if_pos all).symm
        (fun _ => rfl)
        fun _ _ => trivial⟩
    · simp only [if_neg all]
      exact ⟨_, inv.write .idle idle listed room holds (if_neg all).symm
        (fun _ => rfl) fun _ _ => trivial⟩

theorem Inv.pull_client_data {length : ℕ} (inv : Inv x lines) (idle : x.pc = .idle)
    (opened : x.closed .client = false) (empty : (x.buffer .client).size = 0) (buffer : Bool) :
    Inv (pull_client_data x length buffer) lines := by
  unfold Lazy.pull_client_data
  split
  · exact inv.claim idle rfl (fun _ => rfl) ⟨opened, (inv.holds .client).size_zero.mp empty⟩
  · exact inv.close (idle ▸ rfl) (fun _ => rfl) (fun _ _ => trivial) fun _ _ => idle ▸ rfl

theorem Inv.safe_read_copier {length : ℕ} (inv : Inv x lines) (here : x.pc = .pulling b length touched)
    (error_variables : Bool) (ret : Received) (interrupted : Bool) :
    Inv (safe_read_copier x b length touched error_variables ret interrupted) lines := by
  have uses : x.pc.uses = some (b, touched) := here ▸ rfl
  have nothing : ∀ q, x.pc.holds q = [] := fun _ => here ▸ rfl
  have relies := inv.fits
  simp only [here, Pc.Fits] at relies
  have failed : Inv (x.close .client (.freeing b touched)) lines :=
    inv.close uses.symm (fun _ => rfl) (fun _ _ => trivial) fun q _ => nothing q
  match ret with
  | .bytes [] => exact failed
  | .error => exact failed
  | .again =>
    cases interrupted
    · exact failed
    · exact inv
  | .bytes (d :: data) =>
    simp only [Lazy.safe_read_copier]
    split
    · refine inv.fill _ uses nothing ?_ ?_ ?_ .client (d :: data)
      · unfold pulled
        split <;> rfl
      · unfold pulled
        split <;> exact fun _ => rfl
      · unfold pulled
        split
        · exact relies
        · trivial
    · have filled :=
        inv.fill (.freeing b true) uses nothing rfl (fun _ => rfl) trivial .client (d :: data)
      refine filled.take (s := ⟨b, 0, (d :: data).length⟩) (fun _ => rfl) rfl rfl
        (fun q other => if_neg other)
        ⟨relies.1, relies.2, Nat.succ_pos _⟩ relies.1 ?_
      rw [Deferred.Heap.settled_submit]
      exact Deferred.contents_recv _ _ _ _ _

theorem Inv.safe_write_copier {off left length : ℕ} {ret : Sent} (inv : Inv x lines)
    (here : x.pc = .forwarding b off left length) (fits : ret.fits (⟨(), left, 0⟩ : Segment Unit))
    (interrupted : Bool) : Inv (safe_write_copier x b off left length ret interrupted) lines := by
  have failed : Inv (x.close .client (.freeing b true)) lines := by
    refine inv.close (here ▸ rfl) (fun _ => rfl) (fun _ _ => trivial) fun q other => ?_
    rw [here]
    exact if_neg other
  match ret with
  | .error => exact failed
  | .nobufs => exact failed
  | .again =>
    cases interrupted
    · exact failed
    · exact inv
  | .bytes n => exact inv.forward here fits

/-- One step, when it leaves what is queued alone. -/
theorem Inv.step {l : Label} {x' : World} (inv : Inv x lines) (spared : Spared x l)
    (stepped : step x l = some x') : ∃ lines, Inv x' lines := by
  unfold Lazy.step at stepped
  split at stepped
  · simp only [Option.map_eq_some_iff, Prod.exists] at stepped
    obtain ⟨h, report, served, rfl⟩ := stepped
    exact ⟨lines, inv.service served⟩
  · split_ifs at stepped with freed
    cases stepped
    exact ⟨lines, inv.reuse freed.2 _⟩
  · rename_i idle
    split_ifs at stepped with allowed
    cases stepped
    exact ⟨lines, inv.read_buffer_lazy idle allowed.1 _ _⟩
  · rename_i adding
    split_ifs at stepped with free
    exact inv.add_to_bufferCopier adding free stepped
  · rename_i buffer touched here
    have uses : x.pc.uses = some (buffer, touched) := here ▸ rfl
    cases stepped
    refine ⟨lines, inv.release uses (fun _ => here ▸ rfl) (spared _ ?_)⟩
    simp [disposes, here]
  · rename_i idle
    split_ifs at stepped with fits
    exact inv.write_buffer_lazy idle fits stepped
  · rename_i string here
    have uses : x.pc.uses = some (string, true) := here ▸ rfl
    cases stepped
    refine ⟨lines, inv.release uses (fun _ => here ▸ rfl) (spared _ ?_)⟩
    simp [disposes, here]
  · rename_i idle
    split_ifs at stepped with allowed
    cases stepped
    exact ⟨lines, inv.pull_client_data idle allowed.2.1 allowed.2.2 _⟩
  · rename_i here
    split_ifs at stepped
    cases stepped
    exact ⟨lines, inv.safe_read_copier here _ _ _⟩
  · rename_i here
    split_ifs at stepped with fits
    cases stepped
    exact ⟨lines, inv.safe_write_copier here fits _⟩
  · cases stepped

theorem Inv.faithful (inv : Inv x lines) : Faithful x where
  live t member := ⟨inv.sound.wf.dst t member, inv.sound.wf.src t member⟩
  order p := by
    obtain ⟨lost, bytes, -⟩ := inv.carried p
    simp only [World.spans, List.flatMap_append, List.append_assoc] at bytes
    exact ⟨_, bytes⟩
  whole p idle empty opened := by
    obtain ⟨lost, bytes, none_⟩ := inv.carried p
    have nothing : x.pc.holds p = [] := idle ▸ rfl
    have lines_empty := (inv.holds p).size_zero.mp empty
    simpa [World.spans, World.delivered, nothing, lines_empty, none_ opened] using bytes

theorem disposes_uses {l : Label} (member : b ∈ disposes x l) :
    disposes x l = [b] ∧ ∃ touched, x.pc.uses = some (b, touched) := by
  unfold disposes at member ⊢
  split at member
  · rename_i here
    cases List.mem_singleton.mp member
    exact ⟨rfl, _, by rw [here]; rfl⟩
  · rename_i here
    cases List.mem_singleton.mp member
    exact ⟨rfl, _, by rw [here]; rfl⟩
  · rename_i here
    cases List.mem_singleton.mp member
    exact ⟨rfl, _, by rw [here]; rfl⟩
  · cases member

/-- The queue is in the order of the calls, and the newest is about what is freed. -/
theorem Inv.drained_iff {l : Label} (inv : Inv x lines) : Drained x l ↔ Spared x l := by
  have used := inv.used
  constructor
  · intro drained b member
    obtain ⟨disposed, touched, uses⟩ := disposes_uses member
    cases touched with
    | false =>
      rw [uses] at used
      exact used
    | true =>
      have empty := drained (List.ne_nil_of_mem member) ⟨b, uses⟩
      exact fun t pending => absurd (empty ▸ pending) (List.not_mem_nil)
  · rintro spared something ⟨b, uses⟩
    obtain ⟨c, member⟩ := List.exists_mem_of_ne_nil _ something
    obtain ⟨disposed, touched, same⟩ := disposes_uses member
    cases uses.symm.trans same
    rw [uses] at used
    exact used.drained (spared b member)

theorem spared_inv {ls : List Label} (path : Runs.Path Lazy.step Spared Lazy.init ls x) :
    ∃ lines, Inv x lines :=
  path.invariant (fun x => ∃ lines, Inv x lines) ⟨_, .init⟩ fun ⟨_, inv⟩ spared stepped =>
    inv.step spared stepped

/-- What is queued is left alone, and the peers get each other's bytes, in the runs in which
the service keeps up, and in no others. -/
theorem keeps_up_iff {ls : List Label} : Runs.Path Lazy.step Drained Lazy.init ls x ↔
    Runs.Path Lazy.step Spared Lazy.init ls x ∧ Faithful x := by
  constructor
  · intro path
    have spared : Runs.Path Lazy.step Spared Lazy.init ls x :=
      path.mono_invariant (fun x => ∃ lines, Inv x lines) ⟨_, .init⟩
        (fun ⟨_, inv⟩ drained stepped => inv.step (inv.drained_iff.mp drained) stepped)
        fun ⟨_, inv⟩ drained => inv.drained_iff.mp drained
    obtain ⟨lines, inv⟩ := spared_inv spared
    exact ⟨spared, inv.faithful⟩
  · rintro ⟨path, -⟩
    exact path.mono_invariant (fun x => ∃ lines, Inv x lines) ⟨_, .init⟩
      (fun ⟨_, inv⟩ spared stepped => inv.step spared stepped)
      fun ⟨_, inv⟩ spared => inv.drained_iff.mpr spared

end Steps

/-- The receive buffer is freed when its bytes came, but before they are copied, and is
written by its next owner. -/
def early : List Label :=
  [.read_buffer_lazy .client true (.bytes [65]), .service, .add_to_bufferCopier (some 7) true,
    .safefree, .reuse ⟨0, 0, 1⟩ (fun _ => 66), .write_buffer_lazy .server (.bytes 1), .free_line,
    .service, .service]

theorem early_delivers : (Runs.run step init early).map
    (fun x => (x.delivered .server, x.came .client)) =
    some ([66], [65]) := by
  decide +kernel

theorem buffer_freed_early : ¬ ∀ ls x, Runs.run step init ls = some x →
    Runs.Path step Spared init ls x ∧ Faithful x := by
  intro holds
  obtain ⟨x, ran, bytes⟩ := Option.map_eq_some_iff.mp early_delivers
  have order := (holds _ x ran).2.order .client
  simp only [Prod.mk.injEq] at bytes
  rw [Peer.other, bytes.1, bytes.2] at order
  exact absurd order (by decide)

end Copier.Tinyproxy.Lazy
