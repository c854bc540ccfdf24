import Copier.Queue.Csync
import Copier.Redis.Steps

/-! What every step keeps, disturbed or not: how much of its stream a client's
query buffer stands for, and that the receives still pending reach to its end.
So once the service has caught up, the descriptor covers the whole buffer, and a
wait ends if it is for a byte inside it. -/
namespace Copier.Redis.Server
open Deferred (Mem Span Task Access)

/-- The descriptor covers the query buffer, or will. -/
def Client.Covered (h : Heap) (c : ℕ) (cl : Client) : Prop :=
  (cl.querybuf.len : Int) ≤ cl.descriptor + 1 ∨
    ∃ b off data, Task.recv c b off data ∈ h.ring ∧ data ≠ []

structure Heard (w : World) : Prop where
  measured : w.Measured
  reach : w.clients c = some cl → Task.recv c b off data ∈ w.heap.ring →
    cl.querybuf.len ≤ off + data.length
  covered : w.clients c = some cl → 0 < cl.querybuf.len → cl.Covered w.heap c

section Heard
variable {cfg : Config} {v : Variant} {w w' : World} {h : Heap} {cl cl' : Client} {a : Allocation}

theorem Heard.evolves (heard : Heard w) (evolves : Evolves v w w') : Heard w' where
  measured d dl' found := by
    rcases evolves.clients d dl' found with ⟨dl, there, kept⟩ | new
    · exact kept.measured (heard.measured d dl there)
    · exact new.measured
  reach {d dl' b off data} found pending := by
    rcases evolves.clients d dl' found with ⟨dl, there, kept⟩ | new
    · exact Nat.le_trans kept.short (heard.reach there (evolves.queue.recv_iff.mp pending))
    · have := new.empty
      omega
  covered {d dl'} found some := by
    rcases evolves.clients d dl' found with ⟨dl, there, kept⟩ | new
    · rcases heard.covered there (Nat.lt_of_lt_of_le some kept.short) with
        spans | ⟨b, off, data, pending, rest⟩
      · refine .inl ?_
        rcases kept.kept with same | ⟨-, spans'⟩
        · have := kept.short
          omega
        · exact spans'
      · exact .inr ⟨b, off, data, evolves.queue.recv_iff.mpr pending, rest⟩
    · have := new.empty
      omega

/-- The queue is drained, so the new receive is the only one pending. -/
theorem Heard.receive (heard : Heard w) (here : w.clients c = some cl) (drained : w.heap.ring = []) :
    Heard (receive cfg v w c cl data) := by
  have measured : cl.base + cl.querybuf.len = cl.stream.length := heard.measured c cl here
  have appended : ∀ (cl' : Client) site, data ≠ [] →
      cl'.querybuf.len = cl.querybuf.len + data.length → cl'.stream = cl.stream ++ data →
      cl'.base = cl.base →
      Heard (w.put ((w.heap.submit (.recv c cl.querybuf.blk cl.querybuf.len data)).store
        ⟨cl.querybuf.blk, cl.querybuf.len + data.length, 1⟩ terminator) c cl' site) := by
    intro cl' site some buffer stream base
    have only : ∀ d b off bytes, Task.recv d b off bytes ∈
        (w.heap.submit (.recv c cl.querybuf.blk cl.querybuf.len data)).ring ↔
        d = c ∧ b = cl.querybuf.blk ∧ off = cl.querybuf.len ∧ bytes = data := by
      intro d b off bytes
      simp [Deferred.Heap.submit, drained]
    constructor
    · intro d dl found
      rcases World.put_found found with ⟨rfl, rfl⟩ | ⟨-, there⟩
      · rw [Client.Measured, base, buffer, stream, List.length_append, ← measured, Nat.add_assoc]
      · exact heard.measured d dl there
    · intro d dl b off bytes found pending
      obtain ⟨rfl, rfl, rfl, rfl⟩ := (only ..).mp pending
      rcases World.put_found found with ⟨-, rfl⟩ | ⟨other, -⟩
      · exact Nat.le_of_eq buffer
      · exact absurd rfl other
    · intro d dl found filled
      rcases World.put_found found with ⟨rfl, rfl⟩ | ⟨-, there⟩
      · exact .inr ⟨_, _, _, (only ..).mpr ⟨rfl, rfl, rfl, rfl⟩, some⟩
      · rcases heard.covered there filled with spans | ⟨b, off, bytes, pending, -⟩
        · exact .inl spans
        · rw [drained] at pending
          cases pending
  unfold Server.receive
  dsimp only
  split
  · refine heard.evolves (.put (v := .multiClient) here (.refl _) ?_)
    cases v
    · exact ⟨id, Nat.le_refl _, .inr ⟨rfl, by dsimp only; omega⟩, .inl rfl⟩
    · exact .refl _ _ cl
  · rename_i some
    cases v <;> dsimp only <;> split <;> exact appended _ _ some rfl rfl rfl

/-- The oldest task is done, and was not a receive with bytes to come. -/
theorem Heard.finished (heard : Heard w) {t : Task UInt8 ℕ} {rest : List (Task UInt8 ℕ)}
    (pending : w.heap.ring = t :: rest) (last : ∀ e b off data, t = .recv e b off data → data = [])
    (m : Mem UInt8) : Heard { w with heap := { w.heap with mem := m, ring := rest } } where
  measured := heard.measured
  reach {e el b off data} found older := by
    have older : Task.recv e b off data ∈ w.heap.ring := pending ▸ List.mem_cons_of_mem _ older
    exact heard.reach found older
  covered {e el} found filled := by
    rcases heard.covered found filled with spans | ⟨b, off, data, waiting, some⟩
    · exact .inl spans
    · rw [pending] at waiting
      have later := (List.mem_cons.mp waiting).resolve_left fun first =>
        some (last e b off data first.symm)
      exact .inr ⟨b, off, data, later, some⟩

theorem Heard.service (heard : Heard w) (stepped : service w = some w') : Heard w' := by
  simp only [Server.service, Option.map_eq_some_iff, Prod.exists] at stepped
  obtain ⟨h, report, served, rfl⟩ := stepped
  cases Deferred.Heap.serve_served served with
  | copied _ _ _ _ _ rest pending => exact heard.finished pending (by rintro _ _ _ _ ⟨⟩) _
  | emptied _ _ _ rest pending =>
    exact heard.finished pending (fun _ _ _ _ same => by cases same; rfl) _
  | delivered tag dst off d data rest pending =>
    have first : Task.recv tag dst off (d :: data) ∈ w.heap.ring := pending ▸ List.mem_cons_self
    constructor
    · intro e el' found
      obtain ⟨el, there, rfl⟩ := raised_delivered found
      exact heard.measured e el there
    · intro e el' b off' bytes found waiting
      obtain ⟨el, there, rfl⟩ := raised_delivered found
      dsimp only at waiting ⊢
      split at waiting
      · exact heard.reach there (pending ▸ List.mem_cons_of_mem _ waiting)
      · rcases List.mem_cons.mp waiting with same | later
        · cases same
          have reach := heard.reach there first
          rw [List.length_cons] at reach
          omega
        · exact heard.reach there (pending ▸ List.mem_cons_of_mem _ later)
    · intro e el' found filled
      obtain ⟨el, there, rfl⟩ := raised_delivered found
      rw [Client.Covered]
      dsimp only at filled ⊢
      by_cases own : e = tag
      · subst own
        cases data with
        | nil =>
          have reach := heard.reach there first
          refine .inl ?_
          simp only [List.length_singleton] at reach
          simp only [if_true]
          omega
        | cons next data => exact .inr ⟨dst, off + 1, next :: data, by simp, List.cons_ne_nil _ _⟩
      · rw [if_neg own]
        rcases heard.covered there filled with spans | ⟨b, off', bytes, waiting, some⟩
        · exact .inl spans
        · rw [pending] at waiting
          rcases List.mem_cons.mp waiting with same | later
          · cases same
            exact absurd rfl own
          · refine .inr ⟨b, off', bytes, ?_, some⟩
            split
            · exact later
            · exact List.mem_cons_of_mem _ later

theorem Heard.step {l : Label} (heard : Heard w) (stepped : step cfg v w l = some w') :
    Heard w' := by
  cases l with
  | service => exact heard.service stepped
  | input a i => exact heard.evolves (input_evolves stepped)
  | internal a =>
    cases site : w.site with
    | receive c data =>
      obtain ⟨cl, here, drained, rfl⟩ := receive_stepped stepped site
      exact heard.receive here drained
    | _ => exact heard.evolves (internal_evolves stepped (by simp [site]))

theorem Heard.init : Heard Server.init where
  measured _ _ := nofun
  reach found := nomatch found
  covered found := nomatch found

/-- A service step changes nothing of a client but its descriptor. -/
theorem service_client (stepped : service w = some w') (here : w.clients c = some cl) :
    w'.site = w.site ∧ ∃ d, w'.clients c = some { cl with descriptor := d } := by
  simp only [Server.service, Option.map_eq_some_iff, Prod.exists] at stepped
  obtain ⟨h, report, -, rfl⟩ := stepped
  refine ⟨rfl, ?_⟩
  cases report with
  | none => exact ⟨_, here⟩
  | some delivered =>
    by_cases same : c = delivered.1
    · subst same
      refine ⟨delivered.2, ?_⟩
      simp only [raised, Function.update_self, here, Option.map_some]
    · refine ⟨cl.descriptor, ?_⟩
      simp only [raised, Function.update_of_ne same, here]

/-- The service alone can always catch up. -/
theorem Heard.catches_up (heard : Heard w) (here : w.clients c = some cl) (cfg : Config)
    (v : Variant) : ∃ n t, Runs.run (Server.step cfg v) w (List.replicate n .service) = some t ∧
      (Heard t ∧ t.site = w.site ∧ ∃ d, t.clients c = some { cl with descriptor := d }) ∧
        t.heap.ring = [] := by
  obtain ⟨n, t, ran, kept, done⟩ := Runs.run_down (Server.step cfg v)
    (fun t => Heard t ∧ t.site = w.site ∧ ∃ d, t.clients c = some { cl with descriptor := d })
    (fun t => t.heap.work) .service (fun t kept pending => by
      obtain ⟨heard, site, d, there⟩ := kept
      obtain ⟨h, report, served, lower⟩ := Deferred.Heap.serve_lowers pending
      have stepped : Server.service t =
          some { t with heap := h, clients := raised t.clients report } := by
        simp only [Server.service, served, Option.map_some]
      obtain ⟨site', e, there'⟩ := service_client stepped there
      exact ⟨_, stepped, ⟨heard.service stepped, site'.trans site, e, there'⟩, lower⟩)
    ⟨heard, rfl, cl.descriptor, here⟩
  exact ⟨n, t, ran, kept, Deferred.Heap.work_eq_zero done⟩

theorem drains (cfg : Config) (v : Variant) (w : World) : ∃ n t,
    Runs.run (Server.step cfg v) w (List.replicate n .service) = some t ∧ t.heap.ring = [] := by
  obtain ⟨n, t, ran, -, done⟩ := Runs.run_down (Server.step cfg v) (fun _ => True)
    (fun t => t.heap.work) .service (fun t _ pending => by
      obtain ⟨h, report, served, lower⟩ := Deferred.Heap.serve_lowers pending
      exact ⟨{ t with heap := h, clients := raised t.clients report },
        by simp only [Server.step, Server.service, served, Option.map_some], trivial, lower⟩)
    trivial
  exact ⟨n, t, ran, Deferred.Heap.work_eq_zero done⟩

/-- The wait is for a byte already received, and the service brings it to an end. -/
def WaitEnds (cfg : Config) (v : Variant) (w : World) (c : ℕ) : Prop :=
  ∃ cl, w.clients c = some cl ∧ cl.target < cl.querybuf.len ∧
    ∃ n t, Runs.run (Server.step cfg v) w (List.replicate n .service) = some t ∧
      ∀ a, (Server.step cfg v t (.internal a)).isSome

def library : Variant → Queue.Csync.Library
  | .copierSet => .copierSet
  | .multiClient => .multiClient

/-- The ten-byte wait is the loop of the variant's library: it goes on where that loop is left. -/
theorem wait_isSome_iff (here : w.clients c = some cl) (site : w.site = .wait c pc)
    (fits : cl.parser.qb_pos + 10 ≤ 2 ^ 63) {d : BitVec 64} (seen : d.toInt = cl.descriptor) :
    (internal cfg v a w).isSome = true ↔
      Runs.run ((library v).wait (.ofNat 64 cl.parser.qb_pos) 10) .waiting [d] = some .returned := by
  have start : (BitVec.ofNat 64 cl.parser.qb_pos).toNat = cl.parser.qb_pos :=
    Nat.mod_eq_of_lt (by omega)
  have ten : (10 : BitVec 64).toNat = 10 := rfl
  have wide : library v ≠ .protobuf := by
    cases v <;> decide
  rw [(library v).returns_iff (by omega), Queue.Csync.Library.target, if_neg wide, start, ten, seen]
  simp only [internal, site, here, Option.bind_some]
  by_cases short : cl.descriptor < cl.target
  · rw [if_pos short]
    rw [Client.target] at short
    exact iff_of_false Bool.false_ne_true (by omega)
  · rw [if_neg short]
    rw [Client.target] at short
    exact iff_of_true rfl (by omega)

/-- What the client has sent and the parser has not used. -/
def Client.unread (cl : Client) : Bytes := cl.stream.drop (cl.base + cl.parser.qb_pos)

theorem Client.Measured.unread (measured : cl.Measured) :
    cl.unread.length = cl.querybuf.len - cl.parser.qb_pos := by
  have measured : cl.base + cl.querybuf.len = cl.stream.length := measured
  rw [Client.unread, List.length_drop]
  omega

theorem Heard.wait_ends (heard : Heard w) (here : w.clients c = some cl) (site : w.site = .wait c pc) :
    WaitEnds cfg v w c ↔ 10 ≤ cl.unread.length := by
  rw [(heard.measured c cl here).unread]
  constructor
  · rintro ⟨dl, there, bound, -⟩
    cases here.symm.trans there
    simp only [Client.target] at bound
    omega
  · intro enough
    have inside : cl.target < cl.querybuf.len := by
      simp only [Client.target]
      omega
    obtain ⟨n, t, ran, ⟨heard', site', d, there⟩, drained⟩ := heard.catches_up here cfg v
    refine ⟨cl, here, inside, n, t, ran, fun a => ?_⟩
    have covered : (cl.querybuf.len : Int) ≤ d + 1 := by
      rcases heard'.covered there (Nat.zero_lt_of_lt inside) with spans | ⟨b, off, data, pending, -⟩
      · exact spans
      · rw [drained] at pending
        cases pending
    have reached : ¬ d < ((Client.target { cl with descriptor := d } : ℕ) : Int) := by
      have same : Client.target { cl with descriptor := d } = cl.target := rfl
      omega
    simp only [Server.step, Server.internal, site', site, there, Option.bind_some, reached, if_false,
      Option.isSome_some]

theorem Heard.of_run (reached : Runs.run (Server.step cfg v) Server.init ls = some w) : Heard w :=
  (Runs.Path.of_run_any reached).invariant Heard Heard.init fun heard _ stepped => heard.step stepped

/-- A wait that is entered is for a byte already received, and ends, exactly when
the client has sent ten bytes from where its command starts. -/
theorem entered_wait_ends_iff (reached : Runs.run (Server.step cfg v) Server.init ls = some w)
    (here : w.clients c = some cl) (site : w.site = .running c pc)
    (waits : cl.action cfg w pc = .csync next)
    (stepped : Server.step cfg v w (.internal a) = some w') :
    WaitEnds cfg v w' c ↔ 10 ≤ cl.unread.length := by
  have heard := (Heard.of_run reached).step stepped
  simp only [Server.step, Server.internal, site, here, Option.bind_some, waits, Server.perform,
    Option.some.injEq] at stepped
  subst stepped
  exact heard.wait_ends here rfl

end Heard

/-- A client connects. -/
def accepts (c : ℕ) : Label := .input .exact (.event (.accept c false))

/-- A read, up to the moment its client's input is processed. -/
def reads (c : ℕ) (data : Bytes) : List Label :=
  [.input .exact (.event (.readable c data)), .internal .exact]

def thinks (n : ℕ) : List Label := List.replicate n (.internal .exact)

def serves (n : ℕ) : List Label := List.replicate n .service

@[simp] theorem seen_thinks (n : ℕ) : (thinks n).filterMap Label.seen = [] := by
  simp [thinks, Label.seen]

@[simp] theorem seen_serves (n : ℕ) : (serves n).filterMap Label.seen = [] := by
  simp [serves, Label.seen]

def executes : Label := .input .exact (.command .plain)

/-- A request of several arguments. -/
def request (args : List Bytes) : Bytes :=
  ascii "*" ++ ascii (toString args.length) ++ ascii "\r\n" ++ args.flatMap bulk

def echoRun : List Label := accepts 0 :: reads 0 (ascii "PING foo\r\n") ++ thinks 1

theorem echoRun_top :
    (Runs.run (step .default .copierSet) init echoRun).map (fun w =>
      (w.site, (w.clients 0).map fun cl =>
        (decide (cl.action .default w .top = .csync .reqtype), cl.unread.length))) =
      some (.running 0 .top, some (true, 10)) := by
  decide +kernel

theorem ten_byte_command_proceeds : ∃ w w', Runs.run (step .default .copierSet) init echoRun = some w ∧
    step .default .copierSet w (.internal .exact) = some w' ∧
      WaitEnds .default .copierSet w' 0 := by
  obtain ⟨w, reached, seen⟩ := Option.map_eq_some_iff.mp echoRun_top
  simp only [Prod.mk.injEq, Option.map_eq_some_iff, decide_eq_true_eq] at seen
  obtain ⟨site, cl, here, waits, unread⟩ := seen
  have stepped : step .default .copierSet w (.internal .exact) =
      some { w with site := .wait 0 .reqtype } := by
    simp only [step, internal, site, here, Option.bind_some, waits, perform]
  exact ⟨w, _, reached, stepped,
    (entered_wait_ends_iff reached here site waits stepped).mpr (Nat.le_of_eq unread.symm)⟩

/-- Every wait ends, whatever is sent and however it arrives. -/
def WaitsEnd (cfg : Config) (v : Variant) : Prop :=
  ∀ ls w c pc, Runs.run (step cfg v) init ls = some w → w.site = .wait c pc → WaitEnds cfg v w c

def pingRun : List Label := accepts 0 :: reads 0 (ascii "PING\r\n") ++ thinks 2

theorem pingRun_waits (v : Variant) :
    (Runs.run (step .default v) init pingRun).map (fun w =>
      (w.site, (w.clients 0).map fun cl => cl.unread.length)) =
      some (.wait 0 .reqtype, some 6) := by
  cases v <;> decide +kernel

theorem short_command_stalls :
    ¬ WaitsEnd .default .copierSet ∧ ¬ WaitsEnd .default .multiClient := by
  have stalls : ∀ v, ¬ WaitsEnd .default v := by
    intro v ends
    obtain ⟨w, reached, seen⟩ := Option.map_eq_some_iff.mp (pingRun_waits v)
    simp only [Prod.mk.injEq, Option.map_eq_some_iff] at seen
    obtain ⟨site, cl, here, unread⟩ := seen
    have ten := ((Heard.of_run reached).wait_ends here site).mp (ends _ w 0 _ reached site)
    omega
  exact ⟨stalls _, stalls _⟩

end Copier.Redis.Server
