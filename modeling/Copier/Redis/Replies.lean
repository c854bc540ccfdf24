import Copier.Redis.ReplyBlocks

/-! What clients are sent. A deferred copy reads its source as it is when the service
gets to it, so the replies are those of the original server in every run that leaves
the sources of pending copies as they are, edits no block into which a copy is still
pending, and queues nothing for a client without a queue. -/
namespace Copier.Redis.Reply
open Deferred (Span Task Access)

/-- Writes to memory that a pending copy may have to read: an overwritten value, a
static buffer, or memory that has a new owner. -/
def rewrites (w : World) : Label → List Access
  | .step _ => match w.todo with
    | .addReplyToBuffer c s :: _ => onClient w c fun cl =>
        if cl.buffers s then [.write ⟨cl.buf, cl.bufpos, s.len⟩] else []
    | .copyBuffer dst src :: _ => onClient w dst fun d => onClient w src fun e =>
        [.write ⟨d.buf, 0, e.bufpos⟩]
    | _ => []
  | .overwrite s _ | .reuse s _ => [.write s]
  | _ => []

/-- The client of the next new block has a queue. -/
def queued (w : World) : Label → Bool
  | .step _ => match w.todo with
    | .newBlock c _ :: _ => (w.clients c).all Client.bound
    | _ => true
  | _ => true

structure Stable (w : World) (l : Label) : Prop where
  arrived : Arrived w l
  kept : ∀ a ∈ rewrites w l, w.heap.Clear a
  bound : queued w l

instance (w : World) (l : Label) : Decidable (Stable w l) :=
  decidable_of_iff (Arrived w l ∧ (∀ a ∈ rewrites w l, w.heap.Clear a) ∧ queued w l)
    ⟨fun ⟨arrived, kept, bound⟩ => ⟨arrived, kept, bound⟩,
      fun stable => ⟨stable.arrived, stable.kept, stable.bound⟩⟩

section Settling
variable {cfg : Config} {moved : Bool} {w w' : World} {cl : Client} {s : Span} {rest : List Stmt}
  {node : ℕ}

/-- The original server in the same state, with nothing left to copy. -/
def World.settling (w : World) : World := { w with heap := w.heap.settling }

theorem World.Plain.clear_read {b : ℕ} (plain : w.Plain b) (off len : ℕ) :
    w.heap.Clear (.read ⟨b, off, len⟩) :=
  fun t member => Deferred.Span.not_overlaps_blk (plain.unfilled t member)

/-- The end of a reply block meets no pending copy. -/
theorem World.Inv.clear_tail (inv : w.Inv) (holds : w.Holds o) (len : ℕ) :
    w.heap.Clear (.write ⟨o.blk, o.used, len⟩) := fun t pending =>
  ⟨inv.apart_tail holds len t pending, Deferred.Span.not_overlaps_blk (inv.unread holds t pending)⟩

/-- Nor does a block that was just allocated, nor does reading elsewhere change by that. -/
theorem settling_fresh (inv : w.Inv) (off len : ℕ) (f : ℕ → UInt8) :
    (w.heap.claim.store ⟨w.heap.next, off, len⟩ f).settling =
      w.heap.settling.claim.store ⟨w.heap.next, off, len⟩ f := by
  have fresh : w.heap.claim.Clear (.write ⟨w.heap.next, off, len⟩) := inv.named.clear_fresh _ _
  rw [Deferred.Heap.settling_store fresh, Deferred.Heap.settling_claim]

theorem settling_fresh_memcpy (inv : w.Inv) {src : Span} (clear : w.heap.Clear (.read src)) :
    (w.heap.claim.memcpy ⟨w.heap.next, 0, src.len⟩ src).settling =
      w.heap.settling.claim.memcpy ⟨w.heap.next, 0, src.len⟩ src := by
  have fresh : w.heap.claim.Clear (.write ⟨w.heap.next, 0, src.len⟩) := inv.named.clear_fresh _ _
  have arrived : w.heap.claim.Clear (.read src) := clear
  rw [Deferred.Heap.settling_memcpy fresh arrived rfl, Deferred.Heap.settling_claim]

theorem spell_settling (inv : w.Inv) (text : Bytes) (todo : List Stmt) :
    (w.spell text todo).settling = w.settling.spell text todo := by
  simp only [World.spell, World.settling, settling_fresh inv]
  rfl

theorem addReplyToBuffer_settling (plain : w.Plain s.blk)
    (clear : cl.buffers s → w.heap.Clear (.write ⟨cl.buf, cl.bufpos, s.len⟩)) :
    (addReplyToBuffer w c cl s rest).settling = addReplyToBuffer w.settling c cl s rest := by
  unfold addReplyToBuffer
  split
  · rfl
  · split
    · rename_i fits
      have copied := Deferred.Heap.settling_memcpy (clear fits) (plain.clear_read s.off s.len) rfl
      simp only [World.put, World.settling, copied]
    · rfl

theorem addReplyProtoToList_settling (inv : w.Inv) (here : w.clients c = some cl)
    (plain : w.Plain s.blk) :
    (addReplyProtoToList w c cl s rest).settling = addReplyProtoToList w.settling c cl s rest := by
  unfold addReplyProtoToList
  split
  · rfl
  · cases last : lastBlock cl.reply with
    | none => rfl
    | some tail =>
      have holds : w.Holds tail := ⟨c, cl, here, lastBlock_mem last⟩
      have copied := Deferred.Heap.settling_memcpy
        (inv.clear_tail holds (min (tail.size - tail.used) s.len))
        (plain.clear_read s.off (min (tail.size - tail.used) s.len)) rfl
      simp only [World.put, World.settling, copied]

theorem newBlock_settling (bound : cl.bound) :
    (newBlock cfg .copierGet w c cl s rest).settling =
      newBlock cfg .original w.settling c cl s rest := by
  have copied := Deferred.Heap.settling_submit w.heap.claim ⟨w.heap.next, 0, s.len⟩ s rfl
  simp only [newBlock, bound, if_true, World.put, World.settling, copied,
    Deferred.Heap.settling_claim]
  rfl

theorem addReplyLongLongWithPrefix_settling (inv : w.Inv) (c : ℕ) (ll : Int) (pre : UInt8) :
    (addReplyLongLongWithPrefix w c ll pre rest).settling =
      addReplyLongLongWithPrefix w.settling c ll pre rest := by
  unfold addReplyLongLongWithPrefix
  split
  · rfl
  · exact spell_settling inv _ _

theorem joinReply_settling {d e : Client} :
    (joinReply cfg w dst src d e rest).settling = joinReply cfg w.settling dst src d e rest := by
  unfold joinReply
  split
  · rfl
  · split <;> rfl

theorem trimReplyUnusedTailSpace_settling (inv : w.Inv)
    (clear : moved → ∀ tail ∈ (lastBlock cl.reply).filter ReplyBlock.wasteful,
      w.heap.Clear (.read ⟨tail.blk, 0, tail.used⟩)) :
    (trimReplyUnusedTailSpace cfg moved w c cl rest).settling =
      trimReplyUnusedTailSpace cfg moved w.settling c cl rest := by
  unfold trimReplyUnusedTailSpace
  cases last : lastBlock cl.reply with
  | none => rfl
  | some tail =>
    dsimp only
    split
    · rename_i wasteful
      cases moved with
      | false => rfl
      | true =>
        have copied := settling_fresh_memcpy inv (clear rfl tail (by simp [last, wasteful]))
        simp only [if_true, World.put, World.settling, Deferred.Heap.settling_release, copied]
        rfl
    · rfl

theorem setDeferredAggregateLen_settling (inv : w.Inv) :
    (setDeferredAggregateLen w c node length pre rest).settling =
      setDeferredAggregateLen w.settling c node length pre rest := by
  unfold setDeferredAggregateLen
  split
  · rfl
  · exact spell_settling inv _ _

theorem setDeferredReply_settling (inv : w.Inv) (here : w.clients c = some cl) (plain : w.Plain s.blk) :
    (setDeferredReply w c cl node s rest).map World.settling =
      setDeferredReply w.settling c cl node s rest := by
  unfold setDeferredReply
  cases found : around node cl.reply with
  | none => rfl
  | some sides =>
    obtain ⟨before, after⟩ := sides
    cases last : lastBlock before with
    | none => simp [World.settling, last]
    | some prev =>
      have member : .block prev ∈ cl.reply :=
        around_eq found ▸ List.mem_append_left _ (lastBlock_mem last)
      have copied := Deferred.Heap.settling_memcpy
        (inv.clear_tail ⟨c, cl, here, member⟩ (min (prev.size - prev.used) s.len))
        (plain.clear_read s.off (min (prev.size - prev.used) s.len)) rfl
      simp only [Option.map_some, last, Option.some.injEq]
      split
      · split <;> simp only [World.put, World.settling, copied]
      · rfl

theorem glueDeferred_settling (inv : w.Inv) (here : w.clients c = some cl) (plain : w.Plain s.blk)
    (clear : ∀ a ∈ Stmt.edits w moved (.glueDeferred c node s), w.heap.Clear a) :
    (glueDeferred cfg w c cl node s rest).map World.settling =
      glueDeferred cfg w.settling c cl node s rest := by
  unfold glueDeferred
  cases found : around node cl.reply with
  | none => rfl
  | some sides =>
    obtain ⟨before, after⟩ := sides
    simp only [Stmt.edits, onClient, here, Option.elim_some, found, Option.bind_some] at clear
    cases takes : (firstBlock after).filter (·.takes s.len) with
    | some next =>
      simp only [takes, onBlock, Option.elim_some, List.mem_cons, List.not_mem_nil, or_false,
        forall_eq_or_imp, forall_eq] at clear
      have shifted := Deferred.Heap.settling_memcpy clear.2 clear.1 rfl
      simp only [Option.map_some, takes, World.settling, shifted]
    | none =>
      have copied := settling_fresh_memcpy inv (plain.clear_read s.off s.len)
      simp only [Option.map_some, takes, World.settling, World.put, copied]
      rfl

theorem fillDeferred_settling (here : w.clients c = some cl) (plain : w.Plain s.blk)
    (clear : ∀ a ∈ Stmt.edits w moved (.fillDeferred c node s), w.heap.Clear a) :
    (fillDeferred w c cl node s rest).map World.settling = fillDeferred w.settling c cl node s rest := by
  unfold fillDeferred
  cases found : around node cl.reply with
  | none => rfl
  | some sides =>
    obtain ⟨before, after⟩ := sides
    cases first : firstBlock after with
    | none => simp [first]
    | some next =>
      simp only [Stmt.edits, onClient, here, found, Option.bind_some, first, onBlock,
        Option.elim_some, List.mem_singleton, forall_eq] at clear
      have copied := Deferred.Heap.settling_memcpy clear (plain.clear_read s.off s.len) rfl
      simp only [Option.bind_some, first, Option.map_some, World.put, World.settling, copied]

theorem dupClientReplyValue_settling {d : Client} {n : ReplyNode} (inv : w.Inv)
    (clear : ∀ a ∈ Stmt.edits w moved (.dupClientReplyValue dst n), w.heap.Clear a) :
    (dupClientReplyValue w dst d rest n).settling = dupClientReplyValue w.settling dst d rest n := by
  cases n with
  | deferred => rfl
  | block o =>
    have copied := settling_fresh_memcpy inv (clear _ List.mem_cons_self)
    simp only [dupClientReplyValue, World.put, World.settling, copied]
    rfl

theorem copyBuffer_settling {d e : Client} (plain : w.Plain e.buf)
    (clear : w.heap.Clear (.write ⟨d.buf, 0, e.bufpos⟩)) :
    (copyBuffer w dst d e rest).settling = copyBuffer w.settling dst d e rest := by
  have copied := Deferred.Heap.settling_memcpy clear (plain.clear_read 0 e.bufpos) rfl
  simp only [copyBuffer, World.put, World.settling, copied]

theorem write_settling (c tot : ℕ) :
    (write w c tot cl rest).map World.settling = write w.settling c tot cl rest := by
  unfold write
  split
  · rfl
  · split
    · rfl
    · cases cl.reply with
      | nil => rfl
      | cons n os =>
        cases n with
        | deferred => rfl
        | block o => dsimp only; split <;> rfl

theorem World.settling_drained (drained : w.heap.ring = []) : w.settling = w := by
  rw [World.settling, Deferred.Heap.settling_drained drained]

theorem sends_drained (sent : sends cfg w c tot n used_memory cl rest = some w') :
    w.heap.ring = [] ∧ w'.heap.ring = [] := by
  simp only [sends, Option.bind_eq_bind, Option.bind_eq_some_iff, Option.ite_none_right_eq_some,
    Option.some.injEq, List.isEmpty_iff] at sent
  obtain ⟨span, -, ⟨-, -, drained⟩, rfl⟩ := sent
  exact ⟨drained, drained⟩

theorem exec_settling {stmt : Stmt} (inv : w.Inv) (todo : w.todo = stmt :: rest)
    (stable : Stable w (.step moved)) (executed : exec cfg .copierGet moved w rest stmt = some w') :
    exec cfg .original moved w.settling rest stmt = some w'.settling := by
  have plain := inv.source todo
  have clear : ∀ a ∈ Stmt.edits w moved stmt, w.heap.Clear a := by
    have arrived := stable.arrived
    simp only [Arrived, edits, todo, List.head?_cons, Option.elim_some] at arrived
    exact arrived
  have kept := stable.kept
  cases exec_executed executed with
  | skipped here closed prepares =>
    rcases prepares with ⟨obj, rfl⟩ | ⟨s, rfl⟩ | rfl <;>
      simp only [exec, here, World.settling, Option.map_some, closed, Bool.false_eq_true,
        not_false_eq_true, if_true]
  | addReply c s here allowed | addReplyProto c s here allowed =>
    simp only [exec, here, World.settling, Option.map_some, allowed, not_true_eq_false, if_false]
  | addReplyInt c n here allowed =>
    simp only [exec, here, World.settling, Option.map_some, allowed, not_true_eq_false, if_false]
    exact congrArg some (spell_settling inv _ _).symm
  | @addReplyToBuffer cl c s here =>
    simp only [rewrites, todo, onClient, here, Option.elim_some] at kept
    simp only [exec, here, World.settling, Option.map_some]
    refine congrArg some (addReplyToBuffer_settling (plain _ List.mem_cons_self) fun fits => ?_).symm
    simpa [fits] using kept
  | addReplyProtoToList c s here =>
    simp only [exec, here, World.settling, Option.map_some]
    exact congrArg some (addReplyProtoToList_settling inv here (plain _ List.mem_cons_self)).symm
  | newBlock c s here =>
    have bound := stable.bound
    simp only [queued, todo, here, Option.all_some] at bound
    simp only [exec, here, World.settling, Option.map_some]
    exact congrArg some (newBlock_settling bound).symm
  | addReplyLongLongWithPrefix c ll pre =>
    exact congrArg some (addReplyLongLongWithPrefix_settling inv c ll pre).symm
  | addReplyBulkLongLong c ll => exact congrArg some (spell_settling inv _ _).symm
  | addReplyNull c here => simp only [exec, here, World.settling, Option.map_some]
  | addReplyDeferredLen c here | written c failed here =>
    simp only [exec, here, World.settling, Option.map_some]
    rfl
  | forgets b disposed => rcases disposed with rfl | rfl <;> rfl
  | abandoned target origin closing =>
    simp only [exec, target, origin, World.settling, Option.bind_some, Option.map_some, closing,
      if_true, World.put]
  | AddReplyFromClient dst src target origin open_ =>
    simp only [exec, target, origin, World.settling, Option.bind_some, Option.map_some, open_,
      if_false]
  | joinReply dst src target origin =>
    simp only [exec, target, origin, World.settling, Option.bind_some, Option.map_some]
    exact congrArg some joinReply_settling.symm
  | @trimReplyUnusedTailSpace cl c here allowed =>
    simp only [exec, here, World.settling, Option.map_some, allowed, not_true_eq_false, if_false]
    refine congrArg some
      (trimReplyUnusedTailSpace_settling inv fun moves tail wasteful => clear _ ?_).symm
    have wasteful : (lastBlock cl.reply).filter ReplyBlock.wasteful = some tail := wasteful
    simp [Stmt.edits, onClient, here, allowed, moves, wasteful, onBlock]
  | setDeferredAggregateLen => exact congrArg some (setDeferredAggregateLen_settling inv).symm
  | setDeferredReply c node s here done =>
    simp only [exec, here, World.settling, Option.bind_some]
    refine (setDeferredReply_settling inv here (plain _ List.mem_cons_self)).symm.trans ?_
    rw [done, Option.map_some, World.settling]
  | glueDeferred c node s here done =>
    simp only [exec, here, World.settling, Option.bind_some]
    refine (glueDeferred_settling inv here (plain _ List.mem_cons_self) clear).symm.trans ?_
    rw [done, Option.map_some, World.settling]
  | fillDeferred c node s here done =>
    simp only [exec, here, World.settling, Option.bind_some]
    refine (fillDeferred_settling here (plain _ List.mem_cons_self) clear).symm.trans ?_
    rw [done, Option.map_some, World.settling]
  | copyClientOutputBuffer dst src target origin =>
    simp only [exec, target, origin, World.settling, Option.bind_some, Option.map_some]
    rfl
  | dupClientReplyValue dst n target =>
    simp only [exec, target, World.settling, Option.map_some]
    exact congrArg some (dupClientReplyValue_settling inv clear).symm
  | copyBuffer dst src target origin =>
    simp only [rewrites, todo, onClient, target, origin, Option.elim_some, List.mem_singleton,
      forall_eq] at kept
    simp only [exec, target, origin, World.settling, Option.bind_some, Option.map_some]
    exact congrArg some (copyBuffer_settling (inv.sources (.buffer origin rfl)) kept).symm
  | write c tot here done =>
    simp only [exec, here, World.settling, Option.bind_some]
    refine (write_settling c tot).symm.trans ?_
    rw [done, Option.map_some, World.settling]

theorem idle_settling {l : Label} (inv : w.Inv) (stable : Stable w l)
    (stepped : idle w l = some w') : idle w.settling l = some w'.settling := by
  cases l with
  | create len fill =>
    cases stepped
    simp only [idle, World.settling, settling_fresh inv]
    rfl
  | overwrite s fill =>
    simp only [Reply.idle, Option.ite_none_right_eq_some, Option.some.injEq] at stepped
    obtain ⟨owned, rfl⟩ := stepped
    have clear := stable.kept _ List.mem_cons_self
    simp only [idle, World.settling, Deferred.Heap.settling_store clear]
    exact if_pos owned
  | call op =>
    simp only [Reply.idle, Option.ite_none_right_eq_some, Option.some.injEq] at stepped
    obtain ⟨allowed, rfl⟩ := stepped
    exact if_pos allowed
  | writeToClient c =>
    simp only [Reply.idle, Option.bind_eq_some_iff, Option.ite_none_right_eq_some,
      Option.some.injEq] at stepped
    obtain ⟨cl, here, conn, rfl⟩ := stepped
    simp [idle, World.settling, here, conn]
  | acceptCommonHandler c | createClient c conn =>
    simp only [Reply.idle, Reply.createClient, Option.ite_none_right_eq_some,
      Option.some.injEq] at stepped
    obtain ⟨absent, rfl⟩ := stepped
    exact if_pos absent
  | configure c flags resp | freeClient c =>
    simp only [Reply.idle, Option.map_eq_some_iff] at stepped
    obtain ⟨cl, here, rfl⟩ := stepped
    simp only [idle, World.settling, here, Option.map_some]
    rfl
  | delete b =>
    simp only [Reply.idle, Option.ite_none_right_eq_some, Option.some.injEq] at stepped
    obtain ⟨owned, rfl⟩ := stepped
    exact if_pos owned
  | tick now =>
    cases stepped
    rfl
  | _ => simp [Reply.idle] at stepped

/-- Every step but those of the service is the original server's. -/
theorem step_settling {l : Label} (inv : w.Inv) (stable : Stable w l) (other : l.isService = false)
    (stepped : step cfg .copierGet w l = some w') :
    step cfg .original w.settling l = some w'.settling := by
  obtain ⟨running, stepped⟩ := step_iff.mp stepped
  refine step_iff.mpr ⟨running, ?_⟩
  cases stepped with
  | service => contradiction
  | @reuse s fill known dead =>
    have clear := stable.kept _ List.mem_cons_self
    have same : World.settling { w with heap := w.heap.store s fill } =
        { w.settling with heap := w.settling.heap.store s fill } := by
      simp only [World.settling, Deferred.Heap.settling_store clear]
    rw [same]
    exact .reuse known dead
  | exec todo executed =>
    exact .exec todo (exec_settling inv todo stable executed)
  | wrote todo here sent =>
    obtain ⟨before, after⟩ := sends_drained sent
    rw [World.settling_drained before, World.settling_drained after]
    exact .wrote todo here sent
  | refused todo here asked => exact .refused todo here asked
  | idle todo acted => exact .idle todo (idle_settling inv stable acted)

/-- The service does nothing that was not done at once. -/
theorem service_settling (inv : w.Inv) (served : service w = some w') :
    w'.settling = w.settling := by
  obtain ⟨h, report, ran, rfl⟩ := service_serves inv served
  simp only [World.settling, Deferred.Heap.settling_serve ran]

end Settling

section Streams
variable {cfg : Config} {w : World} {ls : List Label}

/-- The operations of a run, without the service. -/
def operations (ls : List Label) : List Label := ls.filter fun l => !l.isService

/-- The original server gets from the same operations to the settled state. -/
theorem run_settling (path : Runs.Path (step cfg .copierGet) Stable init ls w) :
    w.Inv ∧ Runs.run (step cfg .original) init (operations ls) = some w.settling := by
  induction path with
  | refl => exact ⟨.init, congrArg some (World.settling_drained rfl).symm⟩
  | @snoc ls t l u before stable stepped ih =>
    obtain ⟨inv, ran⟩ := ih
    refine ⟨inv.step stable.arrived stepped, ?_⟩
    rw [operations, List.filter_append]
    by_cases served : l.isService
    · cases l with
      | service =>
        have same : u.settling = t.settling := by
          cases (step_iff.mp stepped).2 with
          | service served => exact service_settling inv served
          | idle _ acted => simp [Reply.idle] at acted
        rw [same]
        simpa [operations, Label.isService] using ran
      | _ => cases served
    · have other : l.isService = false := by simpa using served
      rw [List.filter_cons_of_pos (by simp [other]), List.filter_nil]
      exact Runs.run_snoc ran (step_settling inv stable other stepped)

/-- In runs that leave the sources of pending copies as they are, every client is sent
what the original server sends for the same operations. -/
theorem streams_preserved (path : Runs.Path (step cfg .copierGet) Stable init ls w) :
    ∃ o, Runs.run (step cfg .original) init (operations ls) = some o ∧ o.sent = w.sent :=
  ⟨w.settling, (run_settling path).2, rfl⟩

end Streams

/-- A string one byte too long for the static buffer is given away; its first byte is
overwritten by the next owner of its memory, and is sent. -/
def givenAway (early late : ℕ) : List Label :=
  [.acceptCommonHandler 0, .create 16385 fun _ => 65,
    .call (.addReplySds 0 ⟨texts.length + 1, 0, 16385⟩)] ++ List.replicate 4 (.step false) ++
  List.replicate early .service ++ [.step false, .reuse ⟨texts.length + 1, 0, 1⟩ fun _ => 66] ++
  List.replicate late .service ++ [.writeToClient 0, .wrote 1 0]

theorem givenAway_served :
    (Runs.run (fun w l => if Stable w l then step .default .copierGet w l else none) init
      (givenAway 1 0)).isSome := by
  decide +kernel

theorem served_string_sent : ∃ w o,
    Runs.run (step .default .copierGet) init (givenAway 1 0) = some w ∧
      Runs.run (step .default .original) init (operations (givenAway 1 0)) = some o ∧
      o.sent = w.sent := by
  obtain ⟨w, ran⟩ := Option.isSome_iff_exists.mp givenAway_served
  have path : Runs.Path (step .default .copierGet) Stable init (givenAway 1 0) w := .of_run ran
  obtain ⟨o, replayed, same⟩ := streams_preserved path
  exact ⟨w, o, path.run_eq, replayed, same⟩

theorem givenAway_behind :
    (Runs.run (step .default .copierGet) init (givenAway 0 1)).map (·.sent 0) = some [66] := by
  decide +kernel

theorem givenAway_original :
    (Runs.run (step .default .original) init (operations (givenAway 0 1))).map (·.sent 0) =
      some [65] := by
  decide +kernel

/-- The string is freed, and its memory written, while the copy is pending. -/
theorem given_away_string_lost : ¬ ∀ ls w, Runs.run (step .default .copierGet) init ls = some w →
    ∃ o, Runs.run (step .default .original) init (operations ls) = some o ∧ o.sent = w.sent := by
  intro preserved
  obtain ⟨w, ran, sent⟩ := Option.map_eq_some_iff.mp givenAway_behind
  obtain ⟨o, replayed, same⟩ := preserved _ _ ran
  have expected := givenAway_original
  rw [replayed, Option.map_some, same, sent] at expected
  exact absurd expected (by decide)

end Copier.Redis.Reply
