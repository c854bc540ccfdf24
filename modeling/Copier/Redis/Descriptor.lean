import Copier.Redis.Steps
import Copier.Redis.Waits

/-! What the descriptor of the set variant says. Only the oldest task can be a
receive, since a receive waits for an empty queue, and it goes on right behind
its descriptor; so when a client's input is about to be processed, the bytes up
to the descriptor are those it sent, unless a trim of the buffer is pending. -/
namespace Copier.Redis.Server
open Deferred (Mem Span Task Access)

/-- No submitted trim of the query buffer is pending. -/
def Client.Trimmed (h : Heap) (cl : Client) : Prop :=
  ∀ t ∈ h.ring, t.isCopy → ¬ t.writes.Overlaps ⟨cl.querybuf.blk, 0, cl.querybuf.len⟩

structure Synced (w : World) : Prop where
  copies : ∀ t ∈ w.heap.ring.tail, t.isCopy
  behind : Task.recv e dst off data ∈ w.heap.ring → w.clients c = some cl →
    cl.querybuf.blk = dst → e = c ∧ cl.descriptor + 1 = off
  entered : w.site = .enter c → w.clients c = some cl → cl.Trimmed w.heap

/-- The client a step resumes without a receive. -/
def resumes (w : World) : Label → Option Client
  | .input _ (.event (.reprocess c)) => w.clients c
  | .input _ (.command _) => match w.site with
    | .running c .pending => w.clients c
    | _ => none
  | _ => none

/-- The step meets no pending task, and a client it resumes has no pending trim. -/
structure Resumable (cfg : Config) (w : World) (l : Label) : Prop
    extends Steady cfg .copierSet w l where
  trimmed : ∀ cl ∈ resumes w l, cl.Trimmed w.heap

instance (h : Heap) (cl : Client) : Decidable (cl.Trimmed h) := List.decidableBAll _ _

instance (cfg : Config) (w : World) (l : Label) : Decidable (Resumable cfg w l) :=
  decidable_of_iff (Steady cfg .copierSet w l ∧ ∀ cl ∈ resumes w l, cl.Trimmed w.heap)
    ⟨fun ⟨steady, trimmed⟩ => ⟨steady, trimmed⟩, fun ⟨steady, trimmed⟩ => ⟨steady, trimmed⟩⟩

section Synced
variable {cfg : Config} {w w' : World} {h : Heap} {cl cl' : Client} {a : Allocation}

/-- A client of the next state whose buffer lies in a block that is live now had
it before, with the same descriptor. -/
theorem Evolves.older (evolves : Evolves .copierSet w w') (found : w'.clients c = some cl')
    (old : cl'.querybuf.blk < w.heap.next) : ∃ cl, w.clients c = some cl ∧
      cl'.querybuf.blk = cl.querybuf.blk ∧ cl'.descriptor = cl.descriptor := by
  rcases evolves.clients c cl' found with ⟨cl, there, shrunk⟩ | new
  · refine ⟨cl, there, shrunk.owner.resolve_right (by omega), ?_⟩
    exact shrunk.kept.resolve_right fun multi => by cases multi.1
  · have := new.owner
    omega

theorem Synced.evolves (synced : Synced w) (wf : w.heap.Wf) (evolves : Evolves .copierSet w w')
    (entered : ∀ c cl, w'.site = .enter c → w'.clients c = some cl → cl.Trimmed w'.heap) :
    Synced w' where
  copies t member := by
    obtain ⟨ts, copies, ring⟩ := evolves.queue
    rw [ring] at member
    cases old : w.heap.ring with
    | nil =>
      rw [old, List.nil_append] at member
      exact copies t (List.mem_of_mem_tail member)
    | cons first rest =>
      rw [old, List.cons_append, List.tail_cons, List.mem_append] at member
      rcases member with before | new
      · exact synced.copies t (by rw [old]; exact before)
      · exact copies t new
  behind {e dst off data c cl'} pending found owner := by
    have pending := evolves.queue.recv_iff.mp pending
    have named := wf.named _ (wf.dst _ pending)
    obtain ⟨cl, there, blk, descriptor⟩ := evolves.older found (owner ▸ named)
    rw [descriptor]
    exact synced.behind pending there (blk ▸ owner)
  entered := entered _ _

theorem Synced.init : Synced Server.init where
  copies _ := nofun
  behind pending := nomatch pending
  entered site := nomatch site

theorem Synced.receive (layout : Layout w) (here : w.clients c = some cl)
    (drained : w.heap.ring = []) : Synced (receive cfg .copierSet w c cl data) := by
  have appended : ∀ (cl' : Client) site, cl'.querybuf.blk = cl.querybuf.blk →
      cl'.descriptor = (cl.querybuf.len : Int) - 1 →
      Synced (w.put ((w.heap.submit (.recv c cl.querybuf.blk cl.querybuf.len data)).store
        ⟨cl.querybuf.blk, cl.querybuf.len + data.length, 1⟩ terminator) c cl' site) := by
    intro cl' site blk descriptor
    have ring : (w.heap.submit (.recv c cl.querybuf.blk cl.querybuf.len data)).ring =
        [.recv c cl.querybuf.blk cl.querybuf.len data] := by
      simp only [Deferred.Heap.submit, drained, List.nil_append]
    constructor
    · intro t member
      have member : t ∈ (w.heap.submit (.recv c cl.querybuf.blk cl.querybuf.len data)).ring.tail :=
        member
      rw [ring] at member
      cases member
    · intro e dst off bytes d dl pending found owner
      have pending : Task.recv e dst off bytes ∈
          (w.heap.submit (.recv c cl.querybuf.blk cl.querybuf.len data)).ring := pending
      rw [ring, List.mem_singleton] at pending
      cases pending
      rcases World.put_found found with ⟨rfl, rfl⟩ | ⟨other, there⟩
      · exact ⟨rfl, by omega⟩
      · exact absurd owner (layout.apart there here other)
    · intro d dl _ _ t member copy
      have member : t ∈ (w.heap.submit (.recv c cl.querybuf.blk cl.querybuf.len data)).ring := member
      rw [ring, List.mem_singleton] at member
      subst member
      cases copy
  unfold Server.receive
  dsimp only
  split
  · refine ⟨fun t member => ?_, fun pending => ?_, fun site => ?_⟩
    · have member : t ∈ w.heap.ring.tail := member
      rw [drained] at member
      cases member
    · have none_ : w.heap.ring = [] := drained
      exact absurd (none_ ▸ pending) (by simp)
    · cases site
  · split <;> exact appended _ _ rfl rfl

/-- Only the oldest task can be a receive. -/
theorem Synced.rest_copies (synced : Synced w) (pending : w.heap.ring = t :: rest) :
    ∀ u ∈ rest, u.isCopy := fun u member => synced.copies u (by rw [pending]; exact member)

theorem Synced.service (synced : Synced w) (stepped : service w = some w') : Synced w' := by
  simp only [Server.service, Option.map_eq_some_iff, Prod.exists] at stepped
  obtain ⟨h, report, served, rfl⟩ := stepped
  have finished : ∀ (m : Mem UInt8) t rest, w.heap.ring = t :: rest →
      Synced { w with heap := { w.heap with mem := m, ring := rest } } := by
    intro m t rest pending
    refine ⟨fun u member => synced.rest_copies pending u (List.mem_of_mem_tail member),
      fun recv => ?_, fun site found u member copy => ?_⟩
    · cases synced.rest_copies pending _ recv
    · exact synced.entered site found u (pending ▸ List.mem_cons_of_mem _ member) copy
  cases Deferred.Heap.serve_served served with
  | copied _ _ _ _ _ rest pending | emptied _ _ _ rest pending => exact finished _ _ _ pending
  | delivered tag dst off d data rest pending =>
    have first : Task.recv tag dst off (d :: data) ∈ w.heap.ring := pending ▸ List.mem_cons_self
    have copies := synced.rest_copies pending
    refine ⟨fun u member => ?_, fun {e dst' off' bytes c cl'} waiting found owner => ?_,
      fun {c cl'} site found u member copy => ?_⟩
    · dsimp only at member
      split at member
      · exact copies u (List.mem_of_mem_tail member)
      · exact copies u member
    · obtain ⟨cl, there, rfl⟩ := raised_delivered found
      dsimp only at waiting
      have still : Task.recv e dst' off' bytes = .recv tag dst (off + 1) data := by
        split at waiting
        · cases copies _ waiting
        · exact (List.mem_cons.mp waiting).resolve_right fun later => by cases copies _ later
      cases still
      obtain ⟨rfl, -⟩ := synced.behind first there owner
      refine ⟨rfl, ?_⟩
      rw [if_pos rfl]
      rfl
    · obtain ⟨cl, there, rfl⟩ := raised_delivered found
      refine synced.entered site there u ?_ copy
      rw [pending]
      dsimp only at member
      split at member
      · exact List.mem_cons_of_mem _ member
      · rcases List.mem_cons.mp member with same | later
        · subst same
          cases copy
        · exact List.mem_cons_of_mem _ later

theorem event_enters {e : Event} (idle : w.site = .idle)
    (stepped : event .copierSet a w e = some w') (enters : w'.site = .enter c)
    (found : w'.clients c = some cl') :
    ∃ cl ∈ resumes w (.input a (.event e)), cl'.querybuf = cl.querybuf ∧
      w'.heap.ring = w.heap.ring := by
  have still : w.site ≠ .enter c := by simp [idle]
  cases event_occurs stepped with
  | accept | readable | unblock | resize => cases enters
  | disconnect | keep | expire => exact absurd enters still
  | reprocess d cl here =>
    simp only [Server.reprocess] at enters found ⊢
    split at enters
    · cases enters
    · rename_i free
      rw [if_neg free] at found ⊢
      split at enters
      · cases enters
      · rename_i ready
        rw [if_neg ready] at found ⊢
        simp only [World.put] at enters
        split at enters
        · cases enters
        · cases enters
          simp only [World.put, Function.update_self, Option.some.injEq] at found
          exact ⟨cl, here, by rw [← found], rfl⟩

/-- Where an input leads to a client's buffer, the client was resumed. -/
theorem input_enters {i : Input} (stepped : step cfg .copierSet w (.input a i) = some w')
    (enters : w'.site = .enter c) (found : w'.clients c = some cl') :
    ∃ cl ∈ resumes w (.input a i), cl'.querybuf = cl.querybuf ∧ w'.heap.ring = w.heap.ring := by
  cases step_stepped stepped with
  | event idle occurs => exact event_enters idle occurs enters found
  | command d pc cl o site here =>
    simp only [execute] at enters found ⊢
    split at enters
    · cases enters
    · rename_i alive
      split at enters
      · rename_i pending
        subst pending
        split at enters
        · cases enters
        · cases enters
          rw [Function.update_self, if_neg alive] at found
          cases found
          exact ⟨cl, by simp only [resumes, site]; exact here, rfl, Script.exec_ring ..⟩
      · cases enters

theorem internal_never_enters (stepped : internal cfg .copierSet a w = some w')
    (other : ∀ c data, w.site ≠ .receive c data) (c : ℕ) : w'.site ≠ .enter c := by
  cases internal_stepped stepped with
  | receive d data cl site => exact absurd site (other d data)
  | running d pc cl site here performed => exact (perform_quiet performed).2.2 c
  | enter | wait | terminate => rintro ⟨⟩

theorem Synced.step {l : Label} (synced : Synced w) (layout : Layout w)
    (resumable : Resumable cfg w l) (stepped : step cfg .copierSet w l = some w') : Synced w' := by
  cases l with
  | service => exact synced.service stepped
  | input a i =>
    refine synced.evolves layout.wf (input_evolves stepped) fun c cl' enters found => ?_
    obtain ⟨cl, resumed, buffer, ring⟩ := input_enters stepped enters found
    have trimmed := resumable.trimmed cl resumed
    simpa only [Client.Trimmed, buffer, ring] using trimmed
  | internal a =>
    by_cases receives : ∃ c data, w.site = .receive c data
    · obtain ⟨c, data, site⟩ := receives
      obtain ⟨cl, here, drained, rfl⟩ := receive_stepped stepped site
      exact .receive layout here drained
    · have other : ∀ c data, w.site ≠ .receive c data := fun c data site => receives ⟨c, data, site⟩
      refine synced.evolves layout.wf (internal_evolves stepped other) fun c cl' enters _ => ?_
      exact absurd enters (internal_never_enters stepped other c)

/-- In a client about to be examined, every byte up to the descriptor is the one
its client sent. -/
def DescriptorSound (w : World) : Prop :=
  ∀ c cl, w.site = .enter c → w.clients c = some cl →
    ∀ i : ℕ, i < cl.querybuf.len → (i : Int) ≤ cl.descriptor →
      cl.stream[cl.base + i]? = some (w.heap.mem cl.querybuf.blk i)

theorem Synced.sound (synced : Synced w) (inv : Inv w) (heard : Heard w) : DescriptorSound w := by
  intro c cl site here i inside landed
  have measured : cl.base + cl.querybuf.len = cl.stream.length := heard.measured c cl here
  have unwritten : ∀ t ∈ w.heap.ring, ¬ t.writes.Has cl.querybuf.blk i := by
    intro t pending written
    cases t with
    | copy dst dstOff src srcOff len =>
      have outside := synced.entered site here _ pending rfl
      exact written.not_of_apart outside ⟨rfl, Nat.zero_le _, by simpa using inside⟩
    | recv e dst off data =>
      obtain ⟨owner, low, high⟩ := written
      have behind := (synced.behind pending here owner).2
      simp only [Task.writes] at low
      omega
  have tail : cl.querybuf.bytes w.heap.settled = cl.stream.drop cl.base := inv.tail here
  rw [Deferred.Heap.mem_eq_settled unwritten, ← List.getElem?_drop, ← tail,
    List.getElem?_eq_getElem (by rw [length_bytes]; exact inside)]
  simp [Sds.bytes]

/-- Runs that resume no client while a trim of its buffer is pending, and meet no
pending task otherwise, keep the descriptor sound. -/
theorem descriptor_sound
    (path : Runs.Path (Server.step cfg .copierSet) (Resumable cfg) Server.init ls w) :
    DescriptorSound w := by
  have kept : Inv w ∧ Heard w ∧ Synced w :=
    path.invariant (fun w => Inv w ∧ Heard w ∧ Synced w) ⟨.init, .init, .init⟩
      fun {w l w'} ⟨inv, heard, synced⟩ resumable stepped =>
        ⟨inv.step heard.measured resumable.toSteady stepped, heard.step stepped,
          synced.step inv.layout resumable stepped⟩
  exact kept.2.2.sound kept.1 kept.2.1

end Synced

/-- A command that blocks its client, with another behind it. -/
def blockingPipeline : Bytes :=
  request [ascii "BLPOP", ascii "k", ascii "0"] ++ request [ascii "PING"]

/-- The first command blocks the client; it is unblocked and resumed. -/
def resumedRun (served : ℕ) : List Label :=
  accepts 0 :: reads 0 blockingPipeline ++ thinks 2 ++ serves blockingPipeline.length ++ thinks 12 ++
    [.input .exact (.command { Outcome.plain with blocked := true })] ++ thinks 3 ++
    serves served ++
    [.input .exact (.event (.unblock 0)), .input .exact (.event (.reprocess 0))]

/-- The site, the buffer's length, the descriptor, and whether the buffer's second
byte is the client's. -/
def resumedView (w : World) : Site × Option (ℕ × Int × Bool) :=
  (w.site, (w.clients 0).map fun cl => (cl.querybuf.len, cl.descriptor,
    cl.stream[cl.base + 1]? == some (w.heap.mem cl.querybuf.blk 1)))

theorem resumedRun_served :
    (Runs.run (fun w l => if Resumable .default w l then step .default .copierSet w l else none)
      init (resumedRun 1)).map resumedView =
      some (.enter 0, some (14, 42, true)) := by
  decide +kernel

theorem trimmed_resume_sound : ∃ w, resumedView w = (.enter 0, some (14, 42, true)) ∧
    DescriptorSound w := by
  obtain ⟨w, ran, seen⟩ := Option.map_eq_some_iff.mp resumedRun_served
  exact ⟨w, seen, descriptor_sound (.of_run ran)⟩

theorem resumedRun_unserved :
    (Runs.run (step .default .copierSet) init (resumedRun 0)).map resumedView =
      some (.enter 0, some (14, 42, false)) := by
  decide +kernel

theorem untrimmed_resume_unsound : ¬ ∀ ls w, Runs.run (step .default .copierSet) init ls = some w →
    DescriptorSound w := by
  intro sound
  obtain ⟨w, ran, seen⟩ := Option.map_eq_some_iff.mp resumedRun_unserved
  simp only [resumedView, Prod.mk.injEq, Option.map_eq_some_iff] at seen
  obtain ⟨site, cl, here, len, descriptor, wrong⟩ := seen
  have same := sound _ w ran 0 cl site here 1 (by omega) (by omega)
  simp [same] at wrong

end Copier.Redis.Server
