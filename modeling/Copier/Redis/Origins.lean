import Copier.Redis.Regions

/-! Whose the pending tasks are. Every receive and every copy is for the client whose query
buffer it fills or copies from, and what it fills is that buffer, one of that client's
arguments, or a value. So what a client's step writes or frees of its own strings is out of
the way of pending tasks once the service has done what was submitted for this client, and
regions stay as they are in every run in which it is given the time to. -/
namespace Copier.Redis.Server
open Deferred (Mem Span Task Access)

/-- The client whose query buffer a step rewrites, moves or frees, or whose arguments it frees. -/
def rewriting (cfg : Config) (w : World) : Label → Option Client
  | .service => none
  | .internal a => match w.site with
    | .running c pc => (w.clients c).filter fun cl =>
        !(cl.performMoves .copierSet a (cl.action cfg w pc)).isEmpty
    | _ => none
  | .input a (.command o) => match w.site with
    | .running c _ => (w.clients c).filter fun cl =>
        !(releases w cl o ((scriptOf w cl o).exec a (w.memory cl)).1.strings.argv).isEmpty
    | _ => none
  | .input a (.event e) => if (eventMoves a w e).isEmpty then none else match e with
    | .readable c _ => w.clients c
    | .unblock c => w.clients c
    | .disconnect c => w.clients c
    | .cron c => w.clients c
    | _ => none

/-- The step writes, moves or frees a value, or cuts down an argument. -/
def editing (w : World) : Label → Bool
  | .input a (.command o) => match w.site with
    | .running c _ => (w.clients c).any fun cl => !((scriptOf w cl o).moves a (w.memory cl)).isEmpty
    | _ => false
  | .input a (.event (.expire key)) => !(eventMoves a w (.expire key)).isEmpty
  | _ => false

/-- The client behind whose query buffer the step stores a terminator after a trim. -/
def terminating (w : World) : Label → Option Client
  | .internal _ => match w.site with
    | .terminate c => w.clients c
    | _ => none
  | _ => none

/-- The service has done what was submitted for that client. -/
def CaughtUp (w : World) (cl : Client) : Prop := ∀ t ∈ w.heap.ring, t.reads.blk ≠ cl.querybuf.blk

/-- The end of the query buffer lies outside of what is still to be copied from it or into it. -/
def Beside (w : World) (cl : Client) : Prop :=
  ∀ t ∈ w.heap.ring, t.reads.blk = cl.querybuf.blk → ∀ s ∈ [t.reads, t.writes],
    s.blk = cl.querybuf.blk → s.off + s.len ≤ cl.querybuf.len ∨ cl.querybuf.len < s.off

/-- The service is given time: for a client before its strings are rewritten or freed, for
everybody before values are. A terminator that follows a trim is stored where no copy has
bytes to fetch or to leave. -/
structure Prompt (cfg : Config) (w : World) (l : Label) : Prop where
  own : ∀ cl ∈ rewriting cfg w l, CaughtUp w cl
  all : editing w l = true → w.heap.ring = []
  beside : ∀ cl ∈ terminating w l, Beside w cl

instance (w : World) (cl : Client) : Decidable (CaughtUp w cl) :=
  inferInstanceAs (Decidable (∀ t ∈ w.heap.ring, _))

instance (w : World) (cl : Client) : Decidable (Beside w cl) :=
  inferInstanceAs (Decidable (∀ t ∈ w.heap.ring, _ → ∀ s ∈ [t.reads, t.writes], _ → _))

instance (cfg : Config) (w : World) (l : Label) : Decidable (Prompt cfg w l) :=
  decidable_of_iff ((∀ cl ∈ rewriting cfg w l, CaughtUp w cl) ∧
      (editing w l = true → w.heap.ring = []) ∧ ∀ cl ∈ terminating w l, Beside w cl)
    ⟨fun ⟨own, all, beside⟩ => ⟨own, all, beside⟩, fun ⟨own, all, beside⟩ => ⟨own, all, beside⟩⟩

/-- The block is new in `h`. -/
def Fresh (w : World) (h : Heap) (b : ℕ) : Prop := w.heap.next ≤ b ∧ b < h.next

/-- Whose the blocks are that pending tasks use. -/
structure Origins (w : World) : Prop extends World.Named w where
  args : w.clients c = some cl → .sds s ∈ cl.argv → s.blk < w.heap.next
  apart : w.clients c = some cl → w.clients d = some dl → cl.querybuf.blk = dl.querybuf.blk → c = d
  outside : w.clients c = some cl → .sds s ∈ cl.argv → w.clients d = some dl →
    s.blk ≠ dl.querybuf.blk
  source : t ∈ w.heap.ring → ∃ c cl, w.clients c = some cl ∧ t.reads.blk = cl.querybuf.blk
  own : t ∈ w.heap.ring → w.clients c = some cl → t.writes.blk = cl.querybuf.blk →
    t.reads.blk = cl.querybuf.blk
  sent : t ∈ w.heap.ring → w.clients c = some cl → .sds s ∈ cl.argv → t.writes.blk = s.blk →
    t.reads.blk = cl.querybuf.blk

/-- What a step does to its client: the query buffer goes elsewhere only when the service has
caught up, and what is submitted is taken from it. -/
structure Client.Handled (w : World) (h : Heap) (cl cl' : Client) : Prop where
  grown : w.heap.next ≤ h.next
  buffer : cl'.querybuf.blk = cl.querybuf.blk ∨ Fresh w h cl'.querybuf.blk ∧ CaughtUp w cl
  args : ∀ s, .sds s ∈ cl'.argv → (∃ t, .sds t ∈ cl.argv ∧ t.blk = s.blk) ∨
    Fresh w h s.blk ∧ s.blk ≠ cl'.querybuf.blk ∨
    s.blk = cl.querybuf.blk ∧ cl'.querybuf.blk ≠ cl.querybuf.blk
  tasks : ∀ t ∈ h.ring, t ∈ w.heap.ring ∨ t.reads.blk = cl'.querybuf.blk ∧
    (t.writes.blk = cl'.querybuf.blk ∨ Fresh w h t.writes.blk)

section Origins
variable {cfg : Config} {w w' : World} {h : Heap} {cl cl' : Client} {a : Allocation}

theorem not_fresh (old : b < w.heap.next) : ¬ Fresh w h b :=
  fun fresh => Nat.not_le_of_lt old fresh.1

namespace Client.Handled

theorem buffer_named (handled : Client.Handled w h cl cl') (origins : Origins w)
    (here : w.clients c = some cl) : cl'.querybuf.blk < h.next := by
  rcases handled.buffer with kept | ⟨fresh, -⟩
  · rw [kept]
    exact Nat.lt_of_lt_of_le (origins.buffers here) handled.grown
  · exact fresh.2

theorem args_named (handled : Client.Handled w h cl cl') (origins : Origins w)
    (here : w.clients c = some cl) (member : .sds s ∈ cl'.argv) : s.blk < h.next := by
  rcases handled.args s member with ⟨t, old, blk⟩ | ⟨fresh, -⟩ | ⟨given, -⟩
  · exact Nat.lt_of_lt_of_le (blk ▸ origins.args here old) handled.grown
  · exact fresh.2
  · exact Nat.lt_of_lt_of_le (given ▸ origins.buffers here) handled.grown

theorem tasks_named (handled : Client.Handled w h cl cl') (origins : Origins w)
    (here : w.clients c = some cl) (member : t ∈ h.ring) :
    t.writes.blk < h.next ∧ t.reads.blk < h.next := by
  have own := handled.buffer_named origins here
  rcases handled.tasks t member with old | ⟨reads, writes | fresh⟩
  · obtain ⟨writes, reads⟩ := origins.ring t old
    exact ⟨Nat.lt_of_lt_of_le writes handled.grown, Nat.lt_of_lt_of_le reads handled.grown⟩
  · exact ⟨writes ▸ own, reads ▸ own⟩
  · exact ⟨fresh.2, reads ▸ own⟩

/-- The client's query buffer is no other client's. -/
theorem alone (handled : Client.Handled w h cl cl') (origins : Origins w)
    (here : w.clients c = some cl) (other : d ≠ c) (there : w.clients d = some dl) :
    dl.querybuf.blk ≠ cl'.querybuf.blk := by
  intro same
  rcases handled.buffer with kept | ⟨fresh, -⟩
  · exact other (origins.apart there here (same.trans kept))
  · exact not_fresh (origins.buffers there) (same ▸ fresh)

/-- No argument of another client lies in it. -/
theorem clear (handled : Client.Handled w h cl cl') (origins : Origins w)
    (here : w.clients c = some cl) (there : w.clients d = some dl) (member : .sds s ∈ dl.argv) :
    s.blk ≠ cl'.querybuf.blk := by
  intro same
  rcases handled.buffer with kept | ⟨fresh, -⟩
  · exact origins.outside there member here (same.trans kept)
  · exact not_fresh (origins.args there member) (same ▸ fresh)

/-- Nor one of its own. -/
theorem clear_own (handled : Client.Handled w h cl cl') (origins : Origins w)
    (here : w.clients c = some cl) (member : .sds s ∈ cl'.argv) : s.blk ≠ cl'.querybuf.blk := by
  intro same
  rcases handled.args s member with ⟨t, old, blk⟩ | ⟨-, apart⟩ | ⟨given, moved⟩
  · exact handled.clear origins here here old (blk.trans same)
  · exact apart same
  · exact moved (same.symm.trans given)

/-- Its arguments lie in no other client's query buffer. -/
theorem foreign (handled : Client.Handled w h cl cl') (origins : Origins w)
    (here : w.clients c = some cl) (other : d ≠ c) (there : w.clients d = some dl)
    (member : .sds s ∈ cl'.argv) : s.blk ≠ dl.querybuf.blk := by
  intro same
  rcases handled.args s member with ⟨t, old, blk⟩ | ⟨fresh, -⟩ | ⟨given, -⟩
  · exact origins.outside here old there (blk.trans same)
  · exact not_fresh (origins.buffers there) (same ▸ fresh)
  · exact other (origins.apart there here (same.symm.trans given))

/-- A buffer that is still to be copied from stays where it is. -/
theorem unread (handled : Client.Handled w h cl cl') (pending : t ∈ w.heap.ring)
    (reads : t.reads.blk = cl.querybuf.blk) : cl'.querybuf.blk = cl.querybuf.blk := by
  rcases handled.buffer with kept | ⟨-, caught⟩
  · exact kept
  · exact absurd reads (caught t pending)

/-- What is to be written into the buffer is taken from it. -/
theorem own (handled : Client.Handled w h cl cl') (origins : Origins w)
    (here : w.clients c = some cl) (member : t ∈ h.ring)
    (writes : t.writes.blk = cl'.querybuf.blk) : t.reads.blk = cl'.querybuf.blk := by
  rcases handled.tasks t member with old | ⟨reads, -⟩
  · rcases handled.buffer with kept | ⟨fresh, -⟩
    · exact (origins.own old here (writes.trans kept)).trans kept.symm
    · exact absurd (writes ▸ fresh) (not_fresh (origins.ring t old).1)
  · exact reads

/-- What is to be written into an argument is taken from the buffer. -/
theorem sent (handled : Client.Handled w h cl cl') (origins : Origins w)
    (here : w.clients c = some cl) (member : t ∈ h.ring) (arg : .sds s ∈ cl'.argv)
    (writes : t.writes.blk = s.blk) : t.reads.blk = cl'.querybuf.blk := by
  rcases handled.tasks t member with old | ⟨reads, -⟩
  · rcases handled.args s arg with ⟨u, before, blk⟩ | ⟨fresh, -⟩ | ⟨given, moved⟩
    · have reads := origins.sent old here before (writes.trans blk.symm)
      exact reads.trans (handled.unread old reads).symm
    · exact absurd (writes ▸ fresh) (not_fresh (origins.ring t old).1)
    · have reads := origins.own old here (writes.trans given)
      exact absurd (handled.unread old reads) moved
  · exact reads

/-- What is new in the queue is written elsewhere than in strings that were there. -/
theorem elsewhere (handled : Client.Handled w h cl cl') (member : t ∈ h.ring)
    (old : b < w.heap.next) (apart : b ≠ cl'.querybuf.blk) (writes : t.writes.blk = b) :
    t ∈ w.heap.ring := by
  rcases handled.tasks t member with before | ⟨-, into | fresh⟩
  · exact before
  · exact absurd (writes.symm.trans into) apart
  · exact absurd (writes ▸ fresh) (not_fresh old)

end Client.Handled

/-- A step that handles one client so keeps the others' tasks and strings as they were. -/
theorem Origins.update (origins : Origins w) (here : w.clients c = some cl)
    (clients : w'.clients = Function.update w.clients c (some cl'))
    (handled : Client.Handled w w'.heap cl cl') : Origins w' := by
  have found : ∀ d dl, w'.clients d = some dl →
      d = c ∧ dl = cl' ∨ d ≠ c ∧ w.clients d = some dl := by
    intro d dl there
    rw [clients] at there
    rcases Runs.updated_found there with ⟨same, eq⟩ | other
    · exact .inl ⟨same, (Option.some.inj eq).symm⟩
    · exact .inr other
  have held : w'.clients c = some cl' := by rw [clients, Function.update_self]
  refine ⟨⟨fun t member => handled.tasks_named origins here member, fun {d dl} there => ?_⟩,
    fun {d dl s} there member => ?_, fun {d dl e el} there there' same => ?_,
    fun {d dl e el s} there member there' => ?_, fun {t} member => ?_,
    fun {t d dl} member there writes => ?_, fun {t d dl s} member there arg writes => ?_⟩
  · rcases found d dl there with ⟨-, rfl⟩ | ⟨-, there⟩
    · exact handled.buffer_named origins here
    · exact Nat.lt_of_lt_of_le (origins.buffers there) handled.grown
  · rcases found d dl there with ⟨-, rfl⟩ | ⟨-, there⟩
    · exact handled.args_named origins here member
    · exact Nat.lt_of_lt_of_le (origins.args there member) handled.grown
  · rcases found d dl there with ⟨rfl, rfl⟩ | ⟨other, there⟩
    · rcases found e el there' with ⟨rfl, -⟩ | ⟨other, there'⟩
      · rfl
      · exact absurd same.symm (handled.alone origins here other there')
    · rcases found e el there' with ⟨rfl, rfl⟩ | ⟨-, there'⟩
      · exact absurd same (handled.alone origins here other there)
      · exact origins.apart there there' same
  · rcases found e el there' with ⟨rfl, rfl⟩ | ⟨other', there'⟩
    · rcases found d dl there with ⟨rfl, rfl⟩ | ⟨-, there⟩
      · exact handled.clear_own origins here member
      · exact handled.clear origins here there member
    · rcases found d dl there with ⟨rfl, rfl⟩ | ⟨-, there⟩
      · exact handled.foreign origins here other' there' member
      · exact origins.outside there member there'
  · rcases handled.tasks t member with old | ⟨reads, -⟩
    · obtain ⟨d, dl, there, reads⟩ := origins.source old
      by_cases same : d = c
      · subst same
        cases here.symm.trans there
        exact ⟨d, cl', held, reads.trans (handled.unread old reads).symm⟩
      · refine ⟨d, dl, ?_, reads⟩
        rw [clients, Function.update_of_ne same]
        exact there
    · exact ⟨c, cl', held, reads⟩
  · rcases found d dl there with ⟨-, rfl⟩ | ⟨other, there⟩
    · exact handled.own origins here member writes
    · have old := handled.elsewhere member (origins.buffers there)
        (handled.alone origins here other there) writes
      exact origins.own old there writes
  · rcases found d dl there with ⟨-, rfl⟩ | ⟨-, there⟩
    · exact handled.sent origins here member arg writes
    · have old := handled.elsewhere member (origins.args there arg)
        (handled.clear origins here there arg) writes
      exact origins.sent old there arg writes

/-- A client goes with whom the service is done. -/
theorem Origins.drop (origins : Origins w) (here : w.clients c = some cl) (caught : CaughtUp w cl)
    (clients : w'.clients = Function.update w.clients c none) (ring : w'.heap.ring = w.heap.ring)
    (grown : w.heap.next ≤ w'.heap.next) : Origins w' := by
  have found : ∀ d dl, w'.clients d = some dl → w.clients d = some dl := by
    intro d dl there
    rw [clients] at there
    rcases Runs.updated_found there with ⟨-, gone⟩ | ⟨-, there⟩
    · cases gone
    · exact there
  refine ⟨⟨fun t member => ?_, fun there => ?_⟩, fun there member => ?_,
    fun there there' same => origins.apart (found _ _ there) (found _ _ there') same,
    fun there member there' => origins.outside (found _ _ there) member (found _ _ there'),
    fun {t} member => ?_, fun member there writes => ?_, fun member there arg writes => ?_⟩
  · obtain ⟨writes, reads⟩ := origins.ring t (ring ▸ member)
    exact ⟨Nat.lt_of_lt_of_le writes grown, Nat.lt_of_lt_of_le reads grown⟩
  · exact Nat.lt_of_lt_of_le (origins.buffers (found _ _ there)) grown
  · exact Nat.lt_of_lt_of_le (origins.args (found _ _ there) member) grown
  · rw [ring] at member
    obtain ⟨d, dl, there, reads⟩ := origins.source member
    refine ⟨d, dl, ?_, reads⟩
    rw [clients, Function.update_of_ne fun same => ?_]
    · exact there
    · subst same
      cases here.symm.trans there
      exact caught t member reads
  · exact origins.own (ring ▸ member) (found _ _ there) writes
  · exact origins.sent (ring ▸ member) (found _ _ there) arg writes

/-- What touches only its query buffer is out of the way. -/
theorem Origins.clear_own (origins : Origins w) (here : w.clients c = some cl)
    (caught : CaughtUp w cl) {access : Access} (own : access.blk = cl.querybuf.blk) :
    w.heap.Clear access := by
  refine Deferred.Heap.clear_of_blk fun t pending => ?_
  rw [own]
  exact ⟨fun writes => caught t pending (origins.own pending here writes), caught t pending⟩

/-- So is what frees one of its arguments. -/
theorem Origins.clear_arg (origins : Origins w) (here : w.clients c = some cl)
    (caught : CaughtUp w cl) (member : .sds s ∈ cl.argv) : w.heap.Clear (.free s.blk) := by
  refine Deferred.Heap.clear_of_blk fun t pending => ⟨fun writes => ?_, fun reads => ?_⟩
  · exact caught t pending (origins.sent pending here member writes)
  · obtain ⟨d, dl, there, source⟩ := origins.source pending
    exact origins.outside here member there (reads.symm.trans source)

theorem Origins.clear_args (origins : Origins w) (here : w.clients c = some cl)
    (caught : CaughtUp w cl) : ∀ b ∈ argBlocks cl.argv, w.heap.Clear (.free b) := by
  intro b member
  obtain ⟨s, arg, rfl⟩ := mem_argBlocks.mp member
  exact origins.clear_arg here caught arg

theorem Origins.clear_fresh (origins : Origins w) (new : w.heap.next ≤ b) :
    w.heap.Clear (.free b) := by
  refine Deferred.Heap.clear_of_blk fun t pending => ?_
  obtain ⟨writes, reads⟩ := origins.ring t pending
  exact ⟨Nat.ne_of_lt (Nat.lt_of_lt_of_le writes new), Nat.ne_of_lt (Nat.lt_of_lt_of_le reads new)⟩

section Accesses
variable {s : Sds}

theorem movedAccesses_own : ∀ access ∈ movedAccesses s, access.blk = s.blk := by
  simp [movedAccesses, Access.blk]

theorem sdsMakeRoomForAccesses_own (addlen : ℕ) :
    ∀ access ∈ sdsMakeRoomForAccesses a s addlen, access.blk = s.blk := by
  unfold sdsMakeRoomForAccesses
  split
  · simp
  · split
    · simp
    · exact movedAccesses_own

theorem sdsRemoveFreeSpaceAccesses_own :
    ∀ access ∈ sdsRemoveFreeSpaceAccesses a s, access.blk = s.blk := by
  unfold sdsRemoveFreeSpaceAccesses
  split
  · simp
  · split
    · simp [Access.blk]
    · exact movedAccesses_own

theorem performMoves_own (action : Action) :
    ∀ access ∈ cl.performMoves .copierSet a action, access.blk = cl.querybuf.blk := by
  cases action with
  | bulkLength ll pos =>
    simp only [Client.performMoves, Client.bigArgMoves]
    split
    · rw [List.forall_mem_append]
      refine ⟨?_, sdsMakeRoomForAccesses_own _⟩
      unfold sdsrangeAccesses
      split
      · simp
      · simp [Access.blk]
    · simp
  | take bulklen =>
    simp only [Client.performMoves]
    split
    · simp [Access.blk]
    · simp
  | _ => simp [Client.performMoves, Client.trimMoves]

/-- A string that is not moved stays in its block. -/
theorem sdsMakeRoomFor_quiet (h : Heap) (quiet : sdsMakeRoomForAccesses a s addlen = []) :
    (sdsMakeRoomFor a h s addlen).2.blk = s.blk := by
  unfold sdsMakeRoomForAccesses at quiet
  unfold sdsMakeRoomFor
  split
  · rfl
  · rename_i full
    rw [if_neg full] at quiet
    dsimp only
    split
    · rfl
    · rename_i moves
      rw [if_neg moves] at quiet
      cases quiet

theorem sdsMakeRoomFor_next (h : Heap) (s : Sds) (addlen : ℕ) :
    h.next ≤ (sdsMakeRoomFor a h s addlen).1.next := by
  unfold sdsMakeRoomFor
  split
  · exact Nat.le_refl _
  · dsimp only
    split
    · exact Nat.le_refl _
    · exact Nat.le_succ _

theorem sdsRemoveFreeSpace_next (h : Heap) (s : Sds) (regrow : Bool) :
    h.next ≤ (sdsRemoveFreeSpace a h s regrow).1.next := by
  unfold sdsRemoveFreeSpace
  split
  · exact Nat.le_refl _
  · split
    · exact Nat.le_refl _
    · exact Nat.le_succ _

theorem sdsRemoveFreeSpace_quiet (h : Heap) (regrow : Bool)
    (quiet : sdsRemoveFreeSpaceAccesses a s = []) :
    (sdsRemoveFreeSpace a h s regrow).2.blk = s.blk := by
  unfold sdsRemoveFreeSpaceAccesses at quiet
  unfold sdsRemoveFreeSpace
  split
  · rfl
  · rename_i wasteful
    rw [if_neg wasteful] at quiet
    split
    · rfl
    · rename_i moves
      rw [if_neg moves] at quiet
      cases quiet

theorem spares_quiet {h : Heap} {accesses : List Access} (drained : accesses ≠ [] → h.ring = []) :
    h.Spares accesses := by
  intro access member _
  exact Deferred.Heap.clear_drained (drained (List.ne_nil_of_mem member)) access

/-- An argument is where it was, or in a new block. -/
theorem edit_args {m m' : Memory} (does : Edit.Does a m e accesses m')
    (named : ∀ s, .sds s ∈ m.strings.argv → s.blk < m.heap.next)
    (member : .sds s ∈ m'.strings.argv) :
    (∃ t, .sds t ∈ m.strings.argv ∧ t.blk = s.blk) ∨
      m.heap.next ≤ s.blk ∧ s.blk < m'.heap.next := by
  cases does with
  | move found =>
    rename_i src o key
    refine .inl ⟨s, ?_, rfl⟩
    cases src with
    | value other => exact member
    | arg i =>
      simp only [Memory.store, Memory.vacate, Strings.put, Strings.vacate] at member
      rcases List.mem_or_eq_of_mem_set member with before | hole
      · exact before
      · cases hole
  | @encode i t found =>
    have there : .sds t ∈ m.strings.argv := List.mem_of_getElem? found
    rcases List.mem_or_eq_of_mem_set member with before | new
    · exact .inl ⟨s, before, rfl⟩
    · cases new
      rcases sdsRemoveFreeSpace_owner (a := a) m.heap t false with same | fresh
      · exact .inl ⟨t, there, same.symm⟩
      · exact .inr ⟨fresh, sdsRemoveFreeSpace_owned false (named t there)⟩
  | _ => exact .inl ⟨s, member, rfl⟩

theorem script_args (script : Script) {m : Memory} (ring : m.heap.Named)
    (named : ∀ s, .sds s ∈ m.strings.argv → s.blk < m.heap.next)
    (spares : m.heap.Spares (script.moves a m))
    (member : .sds s ∈ (script.exec a m).1.strings.argv) :
    (∃ t, .sds t ∈ m.strings.argv ∧ t.blk = s.blk) ∨
      m.heap.next ≤ s.blk ∧ s.blk < (script.exec a m).1.heap.next := by
  induction script generalizing a m with
  | done => exact .inl ⟨s, member, rfl⟩
  | length place next ih => exact ih _ ring named spares member
  | read place off n next ih => exact ih _ ring named spares member
  | edit e next ih =>
    simp only [Script.moves, Deferred.Heap.spares_append] at spares
    have first := edit_kept (e.does a m) ring spares.1
    have later := spares.2.of_ring (e.does a m).ring
    have below : ∀ t, .sds t ∈ (e.exec a m).strings.argv → t.blk < (e.exec a m).heap.next := by
      intro t there
      rcases edit_args (e.does a m) named there with ⟨u, old, same⟩ | ⟨-, bound⟩
      · exact Nat.lt_of_lt_of_le (same ▸ named u old) first.grown
      · exact bound
    have rest := script_kept next (first.named ring) later
    rcases ih (first.named ring) below later member with ⟨t, there, same⟩ | ⟨fresh, bound⟩
    · rw [← same]
      rcases edit_args (e.does a m) named there with old | ⟨fresh, bound⟩
      · exact .inl old
      · exact .inr ⟨fresh, Nat.lt_of_lt_of_le bound rest.grown⟩
    · exact .inr ⟨Nat.le_trans first.grown fresh, bound⟩

end Accesses

section Handled

/-- Nothing submitted, the buffer where it was, no argument new. -/
theorem Client.Handled.still (grown : w.heap.next ≤ h.next) (ring : h.ring = w.heap.ring)
    (buffer : cl'.querybuf.blk = cl.querybuf.blk)
    (args : ∀ s, .sds s ∈ cl'.argv → .sds s ∈ cl.argv) : Client.Handled w h cl cl' where
  grown := grown
  buffer := .inl buffer
  args s member := .inl ⟨s, args s member, rfl⟩
  tasks _ member := .inl (ring ▸ member)

/-- The buffer rewritten where it is, or moved. -/
theorem Client.Handled.moved (grown : w.heap.next ≤ h.next) (ring : h.ring = w.heap.ring)
    (buffer : cl'.querybuf.blk = cl.querybuf.blk ∨ Fresh w h cl'.querybuf.blk ∧ CaughtUp w cl)
    (argv : cl'.argv = cl.argv) : Client.Handled w h cl cl' where
  grown := grown
  buffer := buffer
  args s member := .inl ⟨s, argv ▸ member, rfl⟩
  tasks _ member := .inl (ring ▸ member)

theorem take_handled (origins : Origins w) (here : w.clients c = some cl)
    (caught : cl.performMoves .copierSet a (.take bulklen) ≠ [] → CaughtUp w cl) :
    Client.Handled w (cl.take a w.heap bulklen).1 cl (cl.take a w.heap bulklen).2 := by
  have owned := origins.buffers here
  simp only [Client.performMoves] at caught
  unfold Client.take
  dsimp only
  split
  · -- the buffer is the argument now
    rename_i hands
    simp only [hands, if_true] at caught
    refine ⟨Nat.le_succ _, .inr ⟨⟨Nat.le_refl _, Nat.lt_succ_self _⟩, caught (by simp)⟩,
      fun s member => ?_, fun _ member => .inl member⟩
    rcases List.mem_append.mp member with old | new
    · exact .inl ⟨s, old, rfl⟩
    · cases List.mem_singleton.mp new
      exact .inr (.inr ⟨rfl, Nat.ne_of_gt owned⟩)
  · split
    · refine ⟨Nat.le_refl _, .inl rfl, fun s member => ?_, fun _ member => .inl member⟩
      rcases List.mem_append.mp member with old | new
      · exact .inl ⟨s, old, rfl⟩
      · cases List.mem_singleton.mp new
    · have fresh : Fresh w (sdsnewlenCopyer a w.heap cl.querybuf.blk cl.parser.qb_pos bulklen).1
          w.heap.next := ⟨Nat.le_refl _, Nat.lt_succ_self _⟩
      refine ⟨Nat.le_succ _, .inl rfl, fun s member => ?_, fun t member => ?_⟩
      · rcases List.mem_append.mp member with old | new
        · exact .inl ⟨s, old, rfl⟩
        · cases List.mem_singleton.mp new
          exact .inr (.inl ⟨fresh, Nat.ne_of_gt owned⟩)
      · rcases List.mem_append.mp member with old | new
        · exact .inl old
        · cases List.mem_singleton.mp new
          exact .inr ⟨rfl, .inr fresh⟩

theorem trimForBigArg_handled {p : Parser} (origins : Origins w) (here : w.clients c = some cl)
    (caught : sdsMakeRoomForAccesses a { cl.querybuf with len := cl.querybuf.len - pos }
      (ll + 2 - (cl.querybuf.len - pos)) ≠ [] → CaughtUp w cl) :
    Client.Handled w (Client.trimForBigArg a w.heap { cl with parser := p } ll pos).1 cl
      (Client.trimForBigArg a w.heap { cl with parser := p } ll pos).2 := by
  have front := sdsrange_len (h := w.heap) cl.querybuf pos
  have next := sdsrange_next w.heap cl.querybuf pos
  have owned : (sdsrange w.heap cl.querybuf pos).2.blk < (sdsrange w.heap cl.querybuf pos).1.next := by
    rw [front, next]
    exact origins.buffers here
  have grown : ∀ n, (sdsrange w.heap cl.querybuf pos).1.next ≤ (sdsMakeRoomFor a
      (sdsrange w.heap cl.querybuf pos).1 (sdsrange w.heap cl.querybuf pos).2 n).1.next :=
    fun n => sdsMakeRoomFor_next _ _ _
  unfold Client.trimForBigArg
  dsimp only
  rw [front] at owned grown ⊢
  rw [next] at owned grown
  refine .moved (grown _) ((sdsMakeRoomFor_ring _ _ _).trans (sdsrange_ring _ _ _)) ?_ rfl
  by_cases quiet : sdsMakeRoomForAccesses a { cl.querybuf with len := cl.querybuf.len - pos }
      (ll + 2 - (cl.querybuf.len - pos)) = []
  · exact .inl (sdsMakeRoomFor_quiet _ quiet)
  · rcases sdsMakeRoomFor_owner (a := a) (sdsrange w.heap cl.querybuf pos).1
        { cl.querybuf with len := cl.querybuf.len - pos } (ll + 2 - (cl.querybuf.len - pos))
      with same | fresh
    · exact .inl same
    · rw [next] at fresh
      refine .inr ⟨⟨fresh, ?_⟩, caught quiet⟩
      exact (sdsMakeRoomFor_owned _ (next ▸ owned)).1

end Handled

theorem Origins.put (origins : Origins w) (here : w.clients c = some cl)
    (handled : Client.Handled w h cl cl') : Origins (w.put h c cl' site) :=
  origins.update here rfl handled

/-- Clients keep their strings, and what is pending was pending before. -/
theorem Origins.same (origins : Origins w) (next : w'.heap.next = w.heap.next)
    (clients : ∀ d dl', w'.clients d = some dl' → ∃ dl, w.clients d = some dl ∧
      dl'.querybuf = dl.querybuf ∧ dl'.argv = dl.argv)
    (kept : ∀ d dl, w.clients d = some dl → ∃ dl', w'.clients d = some dl' ∧
      dl'.querybuf = dl.querybuf)
    (tasks : ∀ t ∈ w'.heap.ring, ∃ u ∈ w.heap.ring,
      u.writes.blk = t.writes.blk ∧ u.reads.blk = t.reads.blk) : Origins w' := by
  refine ⟨⟨fun t member => ?_, fun {d dl} there => ?_⟩, fun {d dl s} there member => ?_,
    fun {d dl e el} there there' same => ?_, fun {d dl e el s} there member there' => ?_,
    fun {t} member => ?_, fun {t d dl} member there writes => ?_,
    fun {t d dl s} member there arg writes => ?_⟩
  · obtain ⟨u, pending, writes, reads⟩ := tasks t member
    rw [next, ← writes, ← reads]
    exact origins.ring u pending
  · obtain ⟨el, found, buffer, -⟩ := clients d dl there
    rw [next, buffer]
    exact origins.buffers found
  · obtain ⟨el, found, -, argv⟩ := clients d dl there
    rw [next]
    exact origins.args found (argv ▸ member)
  · obtain ⟨dl, found, buffer, -⟩ := clients d _ there
    obtain ⟨el, found', buffer', -⟩ := clients e _ there'
    exact origins.apart found found' (buffer ▸ buffer' ▸ same)
  · obtain ⟨dl, found, -, argv⟩ := clients d _ there
    obtain ⟨el, found', buffer, -⟩ := clients e _ there'
    rw [buffer]
    exact origins.outside found (argv ▸ member) found'
  · obtain ⟨u, pending, -, reads⟩ := tasks t member
    obtain ⟨d, dl, found, source⟩ := origins.source pending
    obtain ⟨dl', there, buffer⟩ := kept d dl found
    exact ⟨d, dl', there, by rw [buffer, ← reads, source]⟩
  · obtain ⟨u, pending, blk, reads⟩ := tasks t member
    obtain ⟨el, found, buffer, -⟩ := clients d dl there
    rw [buffer] at writes ⊢
    rw [← reads]
    exact origins.own pending found (blk.trans writes)
  · obtain ⟨u, pending, blk, reads⟩ := tasks t member
    obtain ⟨el, found, buffer, argv⟩ := clients d dl there
    rw [buffer, ← reads]
    exact origins.sent pending found (argv ▸ arg) (blk.trans writes)

theorem Origins.resite (origins : Origins w) (clients : w'.clients = w.clients)
    (ring : w'.heap.ring = w.heap.ring) (next : w'.heap.next = w.heap.next) : Origins w' :=
  origins.same next (fun _ dl found => ⟨dl, clients ▸ found, rfl, rfl⟩)
    (fun _ dl found => ⟨dl, clients ▸ found, rfl⟩) fun t member => ⟨t, ring ▸ member, rfl, rfl⟩

theorem perform_origins {action : Action} (origins : Origins w) (here : w.clients c = some cl)
    (caught : cl.performMoves .copierSet a action ≠ [] → CaughtUp w cl)
    (performed : perform cfg .copierSet a w c cl action = some w') : Origins w' := by
  cases action with
  | go p pc =>
    cases performed
    exact origins.put here (.still (Nat.le_refl _) rfl rfl fun _ member => member)
  | resetClient =>
    cases performed
    exact origins.put here (.still (Nat.le_refl _) rfl rfl fun _ member => by cases member)
  | csync pc | assertFailed =>
    cases performed
    exact origins.resite rfl rfl rfl
  | fail e =>
    cases performed
    exact origins.update here rfl (.still (Nat.le_refl _) rfl rfl fun _ member => member)
  | bulkLength ll pos =>
    simp only [Server.perform] at performed
    split at performed <;> cases performed
    · rename_i trims
      refine origins.put here (trimForBigArg_handled origins here fun moves => caught ?_)
      simp only [Client.performMoves, Client.bigArgMoves, trims, if_true]
      exact List.append_ne_nil_of_right_ne_nil _ moves
    · exact origins.put here (.still (Nat.le_refl _) rfl rfl fun _ member => member)
  | take bulklen =>
    simp only [Server.perform, Option.some.injEq] at performed
    subst performed
    exact origins.put here (take_handled origins here caught)
  | inlineArgs argv pos =>
    simp only [Server.perform] at performed
    split at performed <;> cases performed
    · exact origins.put here (.still (Nat.le_refl _) rfl rfl fun _ member => by cases member)
    · refine origins.put here (.still (Nat.le_refl _) rfl rfl fun s member => ?_)
      obtain ⟨_, -, made⟩ := List.mem_map.mp member
      cases made
  | processCommand => cases performed
  | trimToPos =>
    cases performed
    unfold Server.trimToPos
    dsimp only
    split
    · exact origins.resite rfl rfl rfl
    · split
      · exact origins.resite rfl rfl rfl
      · refine origins.put here ⟨?_, .inl rfl, fun s member => .inl ⟨s, member, rfl⟩,
          fun t member => ?_⟩
        · split <;> exact Nat.le_refl _
        · split at member
          · exact .inl member
          · rcases List.mem_append.mp member with old | new
            · exact .inl old
            · cases List.mem_singleton.mp new
              exact .inr ⟨rfl, .inl rfl⟩

theorem receive_origins (origins : Origins w) (here : w.clients c = some cl) :
    Origins (receive cfg .copierSet w c cl data) := by
  have arriving : ∀ (cl' : Client) (site : Site), cl'.querybuf.blk = cl.querybuf.blk →
      cl'.argv = cl.argv → Origins (w.put ((w.heap.submit (.recv c cl.querybuf.blk cl.querybuf.len
        data)).store ⟨cl.querybuf.blk, cl.querybuf.len + data.length, 1⟩ terminator) c cl' site) := by
    intro cl' site blk argv
    refine origins.put here ⟨Nat.le_refl _, .inl blk, fun s member => .inl ⟨s, argv ▸ member, rfl⟩,
      fun t member => ?_⟩
    rcases List.mem_append.mp member with old | new
    · exact .inl old
    · cases List.mem_singleton.mp new
      exact .inr ⟨blk.symm, .inl blk.symm⟩
  unfold Server.receive
  dsimp only
  split
  · exact origins.put here (.still (Nat.le_refl _) rfl rfl fun _ member => member)
  · split
    · exact arriving _ _ rfl rfl
    · exact arriving _ _ rfl rfl

theorem execute_origins (origins : Origins w) (here : w.clients c = some cl)
    (edits : (scriptOf w cl o).moves a (w.memory cl) ≠ [] → w.heap.ring = [])
    (frees : releases w cl o ((scriptOf w cl o).exec a (w.memory cl)).1.strings.argv ≠ [] →
      CaughtUp w cl) : Origins (execute a w c cl pc o) := by
  have ring := (scriptOf w cl o).exec_ring a (w.memory cl)
  have spares : (w.memory cl).heap.Spares ((scriptOf w cl o).moves a (w.memory cl)) :=
    spares_quiet edits
  have grown := (script_kept (scriptOf w cl o) origins.ring spares).grown
  by_cases dead : o.dead = true
  · have caught : CaughtUp w cl := frees (by simp [releases, dead])
    refine origins.drop here caught ?_ ring grown
    simp only [Server.execute, dead, if_true]
  · have owned := origins.buffers here
    have clients : (execute a w c cl pc o).clients = Function.update w.clients c (some { cl with
        parser := o.after (commandOf w cl) cl.parser
        argv := if o.resets (commandOf w cl) then []
          else ((scriptOf w cl o).exec a (w.memory cl)).1.strings.argv }) := by
      simp only [Server.execute, dead, Bool.false_eq_true, if_false]
    refine origins.update here clients ⟨grown, .inl rfl, fun s member => ?_, fun t member => ?_⟩
    · dsimp only at member
      split at member
      · cases member
      · rcases script_args (scriptOf w cl o) origins.ring
          (fun s member => origins.args here member) spares member with old | ⟨fresh, bound⟩
        · exact .inl old
        · exact .inr (.inl ⟨⟨fresh, bound⟩, Nat.ne_of_gt (Nat.lt_of_lt_of_le owned fresh)⟩)
    · exact .inl (ring ▸ member)

theorem accept_origins (origins : Origins w) (absent : w.clients c = none)
    (blk : cl.querybuf.blk = w.heap.next) (argv : cl.argv = []) :
    Origins (w.put (sdsnewlenCleared a w.heap 0).1 c cl site) := by
  have found : ∀ d dl, (w.put (sdsnewlenCleared a w.heap 0).1 c cl site).clients d = some dl →
      d = c ∧ dl = cl ∨ d ≠ c ∧ w.clients d = some dl := fun _ _ there => World.put_found there
  have older : ∀ d dl, w.clients d = some dl → dl.querybuf.blk ≠ cl.querybuf.blk :=
    fun d dl there => blk ▸ Nat.ne_of_lt (origins.buffers there)
  refine ⟨⟨fun t member => ?_, fun {d dl} after => ?_⟩, fun {d dl s} after member => ?_,
    fun {d dl e el} after after' same => ?_, fun {d dl e el s} after member after' => ?_,
    fun {t} member => ?_, fun {t d dl} member after writes => ?_,
    fun {t d dl s} member after arg writes => ?_⟩
  · obtain ⟨writes, reads⟩ := origins.ring t member
    exact ⟨Nat.lt_succ_of_lt writes, Nat.lt_succ_of_lt reads⟩
  · rcases found d dl after with ⟨-, rfl⟩ | ⟨-, there⟩
    · exact blk ▸ Nat.lt_succ_self _
    · exact Nat.lt_succ_of_lt (origins.buffers there)
  · rcases found d dl after with ⟨-, rfl⟩ | ⟨-, there⟩
    · rw [argv] at member
      cases member
    · exact Nat.lt_succ_of_lt (origins.args there member)
  · rcases found d dl after with ⟨rfl, rfl⟩ | ⟨-, there⟩
    · rcases found e el after' with ⟨rfl, -⟩ | ⟨-, there'⟩
      · rfl
      · exact absurd same.symm (older e el there')
    · rcases found e el after' with ⟨rfl, rfl⟩ | ⟨-, there'⟩
      · exact absurd same (older d dl there)
      · exact origins.apart there there' same
  · rcases found d dl after with ⟨-, rfl⟩ | ⟨-, there⟩
    · rw [argv] at member
      cases member
    · rcases found e el after' with ⟨-, rfl⟩ | ⟨-, there'⟩
      · exact blk ▸ Nat.ne_of_lt (origins.args there member)
      · exact origins.outside there member there'
  · obtain ⟨d, dl, there, reads⟩ := origins.source member
    have other : d ≠ c := by
      rintro rfl
      cases absent.symm.trans there
    exact ⟨d, dl, (Function.update_of_ne other _ _).trans there, reads⟩
  · rcases found d dl after with ⟨-, rfl⟩ | ⟨-, there⟩
    · exact absurd (writes.trans blk) (Nat.ne_of_lt (origins.ring t member).1)
    · exact origins.own member there writes
  · rcases found d dl after with ⟨-, rfl⟩ | ⟨-, there⟩
    · rw [argv] at arg
      cases arg
    · exact origins.sent member there arg writes

theorem event_origins {e : Event} (origins : Origins w)
    (prompt : Prompt cfg w (.input a (.event e)))
    (stepped : event .copierSet a w e = some w') : Origins w' := by
  have own := prompt.own
  simp only [rewriting] at own
  cases event_occurs stepped with
  | accept c _ absent => exact accept_origins origins absent rfl rfl
  | readable c cl data here =>
    refine origins.put here (.moved (sdsMakeRoomFor_next _ _ _) (sdsMakeRoomFor_ring _ _ _) ?_ rfl)
    by_cases quiet : sdsMakeRoomForAccesses a cl.querybuf (cl.parser.readlen cl.querybuf.len) = []
    · exact .inl (sdsMakeRoomFor_quiet _ quiet)
    · rcases sdsMakeRoomFor_owner (a := a) w.heap cl.querybuf (cl.parser.readlen cl.querybuf.len)
        with same | fresh
      · exact .inl same
      · refine .inr ⟨⟨fresh, (sdsMakeRoomFor_owned _ (origins.buffers here)).1⟩, own cl ?_⟩
        simp [eventMoves, here, quiet]
  | unblock c cl here =>
    refine origins.put here (.still (Nat.le_refl _) rfl rfl fun s member => ?_)
    simp only [Client.unblock] at member
    split at member
    · exact member
    · cases member
  | reprocess c cl here =>
    simp only [Server.reprocess]
    split
    · exact origins.put here (.still (Nat.le_refl _) rfl rfl fun _ member => member)
    · split <;> exact origins.put here (.still (Nat.le_refl _) rfl rfl fun _ member => member)
  | disconnect c cl here =>
    refine origins.drop here (own cl ?_) rfl rfl (Nat.le_refl _)
    simp [eventMoves, here, freed]
  | resize c cl here wasteful =>
    refine origins.put here (.moved (sdsRemoveFreeSpace_next _ _ _) (sdsRemoveFreeSpace_ring _ _)
      ?_ rfl)
    by_cases quiet : sdsRemoveFreeSpaceAccesses a cl.querybuf = []
    · exact .inl (sdsRemoveFreeSpace_quiet _ true quiet)
    · rcases sdsRemoveFreeSpace_owner (a := a) w.heap cl.querybuf true with same | fresh
      · exact .inl same
      · refine .inr ⟨⟨fresh, sdsRemoveFreeSpace_owned true (origins.buffers here)⟩, own cl ?_⟩
        simp [eventMoves, here, wasteful, quiet]
  | keep => exact origins
  | expire key => exact origins.resite rfl rfl rfl

theorem Origins.step {l : Label} (origins : Origins w) (prompt : Prompt cfg w l)
    (stepped : step cfg .copierSet w l = some w') : Origins w' := by
  have own := prompt.own
  have all := prompt.all
  cases step_stepped stepped with
  | service served =>
    simp only [Server.service, Option.map_eq_some_iff, Prod.exists] at served
    obtain ⟨h, report, served, rfl⟩ := served
    refine origins.same (Deferred.Heap.serve_live served).1 (fun d dl' found => ?_)
      (fun d dl there => ?_) fun t member => Deferred.Heap.serve_pending served member
    · obtain ⟨dl, e, there, rfl⟩ := raised_found found
      exact ⟨dl, there, rfl, rfl⟩
    · cases report with
      | none => exact ⟨dl, there, rfl⟩
      | some delivered =>
        dsimp only [raised]
        by_cases same : d = delivered.1
        · subst same
          rw [Function.update_self, there]
          exact ⟨_, rfl, rfl⟩
        · rw [Function.update_of_ne same]
          exact ⟨dl, there, rfl⟩
  | event idle occurs => exact event_origins origins prompt occurs
  | receive c data cl site here => exact receive_origins origins here
  | enter => exact origins.resite rfl rfl rfl
  | running c pc cl site here performed =>
    refine perform_origins origins here (fun moves => own cl ?_) performed
    simp [rewriting, site, here, moves]
  | wait c pc cl site here =>
    exact origins.put here (.still (Nat.le_refl _) rfl rfl fun _ member => member)
  | terminate => exact origins.resite rfl rfl rfl
  | command c pc cl o site here =>
    refine execute_origins origins here (fun edits => all ?_) (fun frees => own cl ?_)
    · simp [editing, site, here, edits]
    · simp [rewriting, site, here, frees]

/-- What the parser does and a terminator that is stored meet no pending task. -/
theorem internal_spares (prompt : Prompt cfg w (.internal a)) (origins : Origins w) :
    Spares cfg .copierSet w (.internal a) := by
  obtain ⟨own, -, beside⟩ := prompt
  unfold Spares
  simp only [moves]
  split
  · rename_i c pc site
    cases here : w.clients c with
    | none => exact Deferred.Heap.spares_nil
    | some cl =>
      intro access member _
      have caught : CaughtUp w cl := own cl (by
        simp [rewriting, site, here, List.ne_nil_of_mem member])
      exact origins.clear_own here caught (performMoves_own _ access member)
  · rename_i c site
    cases here : w.clients c with
    | none => exact Deferred.Heap.spares_nil
    | some cl =>
      have outside := beside cl (by simp [terminating, site, here])
      rw [Deferred.Heap.spares_write]
      refine ⟨fun t pending => ?_, Deferred.Heap.spares_nil⟩
      by_cases reads : t.reads.blk = cl.querybuf.blk
      · refine ⟨fun overlap => ?_, fun overlap => ?_⟩
        · have := outside t pending reads t.writes (by simp) overlap.1
          have := overlap.2
          simp only at this
          omega
        · have := outside t pending reads t.reads (by simp) overlap.1
          have := overlap.2
          simp only at this
          omega
      · exact ⟨Deferred.Span.not_overlaps_blk fun writes =>
          reads (origins.own pending here writes), Deferred.Span.not_overlaps_blk reads⟩
  · exact Deferred.Heap.spares_nil

/-- A command's edits find the queue empty, and what it frees of its client is done with. -/
theorem command_spares (prompt : Prompt cfg w (.input a (.command o))) (origins : Origins w) :
    Spares cfg .copierSet w (.input a (.command o)) := by
  obtain ⟨own, all, -⟩ := prompt
  unfold Spares
  simp only [moves]
  split
  · rename_i c pc site
    cases here : w.clients c with
    | none => exact Deferred.Heap.spares_nil
    | some cl =>
      simp only [executeMoves, Deferred.Heap.spares_append, spares_freed]
      have edits : (scriptOf w cl o).moves a (w.memory cl) ≠ [] → w.heap.ring = [] := by
        intro some
        apply all
        simp [editing, site, here, some]
      have spares : (w.memory cl).heap.Spares ((scriptOf w cl o).moves a (w.memory cl)) :=
        spares_quiet edits
      refine ⟨spares, fun b member => ?_⟩
      have caught : CaughtUp w cl := own cl (by
        simp [rewriting, site, here, List.ne_nil_of_mem member])
      rcases mem_releases member with ⟨i, s, arg, rfl, -⟩ | ⟨-, rfl⟩
      · rcases script_args (scriptOf w cl o) origins.ring
            (fun s member => origins.args here member) spares (List.mem_of_getElem? arg)
          with ⟨t, old, same⟩ | ⟨fresh, -⟩
        · exact same ▸ origins.clear_arg here caught old
        · exact origins.clear_fresh fresh
      · exact origins.clear_own here caught rfl
  · exact Deferred.Heap.spares_nil

theorem event_spares {e : Event} (prompt : Prompt cfg w (.input a (.event e)))
    (origins : Origins w) : Spares cfg .copierSet w (.input a (.event e)) := by
  obtain ⟨own, all, -⟩ := prompt
  unfold Spares
  cases e with
  | accept | reprocess => exact Deferred.Heap.spares_nil
  | expire key =>
    intro access member _
    have some := List.ne_nil_of_mem member
    simp only [moves] at some
    exact Deferred.Heap.clear_drained (all (by simp [editing, some])) access
  | readable c data =>
    simp only [moves, eventMoves]
    cases here : w.clients c with
    | none => exact Deferred.Heap.spares_nil
    | some cl =>
      intro access member _
      have caught : CaughtUp w cl := own cl (by
        simp [rewriting, eventMoves, here, List.ne_nil_of_mem member])
      exact origins.clear_own here caught (sdsMakeRoomForAccesses_own _ access member)
  | cron c =>
    simp only [moves, eventMoves]
    cases here : w.clients c with
    | none => exact Deferred.Heap.spares_nil
    | some cl =>
      dsimp only
      split
      · rename_i wasteful
        intro access member _
        have caught : CaughtUp w cl := own cl (by
          simp [rewriting, eventMoves, here, wasteful, List.ne_nil_of_mem member])
        exact origins.clear_own here caught (sdsRemoveFreeSpaceAccesses_own access member)
      · exact Deferred.Heap.spares_nil
  | unblock c =>
    simp only [moves, eventMoves]
    cases here : w.clients c with
    | none => exact Deferred.Heap.spares_nil
    | some cl =>
      refine spares_freed.mpr fun b member => ?_
      have caught : CaughtUp w cl := own cl (by
        simp [rewriting, eventMoves, here, freed, List.ne_nil_of_mem member])
      unfold Client.unblockFrees at member
      split at member
      · cases member
      · exact origins.clear_args here caught b member
  | disconnect c =>
    simp only [moves, eventMoves]
    cases here : w.clients c with
    | none => exact Deferred.Heap.spares_nil
    | some cl =>
      have caught : CaughtUp w cl := own cl (by simp [rewriting, eventMoves, here, freed])
      refine spares_freed.mpr fun b member => ?_
      rcases List.mem_cons.mp member with rfl | arg
      · exact origins.clear_own here caught rfl
      · exact origins.clear_args here caught b arg

/-- What a step writes and frees then meets no pending task. -/
theorem Prompt.spares {l : Label} (prompt : Prompt cfg w l) (origins : Origins w) :
    Spares cfg .copierSet w l := by
  cases l with
  | service => exact Deferred.Heap.spares_nil
  | internal a => exact internal_spares prompt origins
  | input a i =>
    cases i with
    | command o => exact command_spares prompt origins
    | event e => exact event_spares prompt origins

theorem Origins.init : Origins Server.init where
  toNamed := .init
  args found := nomatch found
  apart found := nomatch found
  outside found := nomatch found
  source member := nomatch member
  own member := nomatch member
  sent member := nomatch member

end Origins

def executed : Label := .input .exact (.command .plain)

end Copier.Redis.Server
