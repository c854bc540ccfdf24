import Copier.Redis.ReplyBlocks

/-! Schedules in which the service keeps up with the clients whose replies are edited. A
statement frees or moves blocks of one client's list and takes bytes from those of one other at
most, and the duplications it puts off are of blocks that the service was done with when it
began. So blocks stay intact as long as the copies into the lists of these clients are performed
before such a statement. -/
namespace Copier.Redis.Reply
open Deferred (Span Task Access)

/-- The client whose list a statement edits, if it edits any; an empty first block that
`writeToClient` drops does not count. -/
def Stmt.edited : Stmt → Option ℕ
  | trimReplyUnusedTailSpace c | glueDeferred c _ _ | fillDeferred c _ _ => some c
  | _ => none

/-- `copyClientOutputBuffer` goes on to duplicate the blocks of `src`. -/
def Stmt.rearranges (w : World) (moved : Bool) : Stmt → List ℕ
  | copyClientOutputBuffer dst src => [dst, src]
  | stmt => if stmt.edits w moved = [] then [] else stmt.edited.toList

def rearranges (w : World) : Label → List ℕ
  | .step moved => w.todo.head?.elim [] (Stmt.rearranges w moved)
  | .freeClient c => [c]
  | _ => []

/-- The service has performed the copies that were submitted for the client's replies. -/
def CaughtUp (w : World) (c : ℕ) : Prop :=
  ∀ t ∈ w.heap.ring, t.writes.blk ∉
    ((w.clients c).elim [] fun cl => (blocksOf cl.reply).map ReplyBlock.blk)

/-- The service keeps up with every client whose list is about to be edited. -/
def Performed (w : World) (l : Label) : Prop := ∀ c ∈ rearranges w l, CaughtUp w c

instance (w : World) (c : ℕ) : Decidable (CaughtUp w c) :=
  inferInstanceAs (Decidable (∀ t ∈ _, _))

instance (w : World) (l : Label) : Decidable (Performed w l) :=
  inferInstanceAs (Decidable (∀ c ∈ _, _))

section Performed
variable {cfg : Config} {w w' : World} {l : Label} {stmt : Stmt} {rest : List Stmt} {moved : Bool}

/-- A statement that neither submits a copy nor duplicates a block. -/
def Stmt.harmless : Stmt → Bool
  | newBlock _ _ | dupClientReplyValue _ _ => false
  | _ => true

/-- What a statement may put in front of the rest. -/
inductive Stmt.Follows (w : World) (stmt : Stmt) : Stmt → Prop
  | block (c : ℕ) (some_ : 0 < s.len) : Follows w stmt (.newBlock c s)
  | dup (started : stmt = .copyClientOutputBuffer dst src) (here : w.clients src = some cl)
      (listed : n ∈ cl.reply) : Follows w stmt (.dupClientReplyValue dst n)
  | other (x : Stmt) (harmless : x.harmless = true) : Follows w stmt x

theorem newBlocks_follows {x : Stmt} (member : x ∈ newBlocks c s) : Stmt.Follows w stmt x := by
  unfold newBlocks at member
  split at member
  · cases member
  · cases List.mem_singleton.mp member
    exact .block c (Nat.pos_of_ne_zero ‹_›)

theorem exec_todo {v : Variant} (todo : w.todo = stmt :: rest)
    (executed : Executed cfg v moved w rest stmt w') :
    ∀ x ∈ w'.todo, x ∈ w.todo ∨ Stmt.Follows w stmt x := by
  have later : ∀ x ∈ rest, x ∈ w.todo ∨ Stmt.Follows w stmt x :=
    fun x member => .inl (todo ▸ List.mem_cons_of_mem _ member)
  have before : ∀ first : List Stmt, (∀ x ∈ first, Stmt.Follows w stmt x) →
      ∀ x ∈ first ++ rest, x ∈ w.todo ∨ Stmt.Follows w stmt x := fun first follows =>
    List.forall_mem_append.mpr ⟨fun x member => .inr (follows x member), later⟩
  have next : ∀ first : Stmt, first.harmless = true → ∀ x ∈ first :: rest,
      x ∈ w.todo ∨ Stmt.Follows w stmt x := fun first harmless =>
    before [first] (List.forall_mem_singleton.mpr (.other first harmless))
  have two : ∀ first second : Stmt, first.harmless = true → second.harmless = true →
      ∀ x ∈ first :: second :: rest, x ∈ w.todo ∨ Stmt.Follows w stmt x :=
    fun first second one other => before [first, second]
      (List.forall_mem_cons.mpr ⟨.other first one, List.forall_mem_singleton.mpr (.other second other)⟩)
  have same : ∀ x ∈ w.todo, x ∈ w.todo ∨ Stmt.Follows w stmt x := fun x => .inl
  cases executed with
  | skipped | forgets | abandoned | written | addReplyDeferredLen | copyBuffer => exact later
  | addReply | addReplyProto | addReplyNull => exact next _ rfl
  | addReplyInt | AddReplyFromClient => exact two _ _ rfl rfl
  | addReplyToBuffer c s here =>
    unfold addReplyToBuffer
    split
    · exact later
    · split
      · exact later
      · exact next _ rfl
  | addReplyProtoToList c s here =>
    unfold addReplyProtoToList
    split
    · exact later
    · split <;> exact before _ fun x => newBlocks_follows
  | newBlock c s here =>
    unfold newBlock
    cases v with
    | original => exact later
    | copierGet =>
      dsimp only
      split
      · exact later
      · exact same
  | addReplyLongLongWithPrefix c ll pre =>
    unfold addReplyLongLongWithPrefix
    split
    · exact next _ rfl
    · exact two _ _ rfl rfl
  | addReplyBulkLongLong c ll =>
    refine List.forall_mem_append.mpr ⟨?_, next _ rfl⟩
    simp only [addReplyBulkCBuffer, List.forall_mem_cons]
    exact ⟨.inr (.other _ rfl), .inr (.other _ rfl), .inr (.other _ rfl),
      fun _ member => (List.not_mem_nil member).elim⟩
  | joinReply dst src target origin =>
    unfold joinReply
    split
    · exact later
    · split <;> exact later
  | trimReplyUnusedTailSpace c here =>
    unfold trimReplyUnusedTailSpace
    split
    · exact next _ rfl
    · split <;> exact next _ rfl
  | setDeferredAggregateLen c node length pre =>
    unfold setDeferredAggregateLen
    split
    · exact next _ rfl
    · exact two _ _ rfl rfl
  | setDeferredReply c node s here done =>
    simp only [setDeferredReply, Option.map_eq_some_iff, Prod.exists] at done
    obtain ⟨front, after, -, rfl⟩ := done
    split
    · exact next _ rfl
    · split
      · split
        · exact later
        · exact next _ rfl
      · exact next _ rfl
  | glueDeferred c node s here done =>
    simp only [glueDeferred, Option.map_eq_some_iff, Prod.exists] at done
    obtain ⟨front, after, -, rfl⟩ := done
    split
    · exact next _ rfl
    · exact later
  | fillDeferred c node s here done =>
    simp only [fillDeferred, Option.bind_eq_some_iff, Option.map_eq_some_iff, Prod.exists] at done
    obtain ⟨front, after, -, block, -, rfl⟩ := done
    exact later
  | copyClientOutputBuffer dst src target origin =>
    refine List.forall_mem_append.mpr ⟨fun x member => .inr ?_, next _ rfl⟩
    obtain ⟨n, listed, rfl⟩ := List.mem_map.mp member
    exact .dup rfl origin listed
  | dupClientReplyValue dst n target =>
    cases n with
    | deferred => exact same
    | block => exact later
  | write c tot here done =>
    unfold Reply.write at done
    split at done
    · cases done
      exact next _ rfl
    · split at done
      · cases done
      · split at done
        · cases done
        · cases done
          exact same
        · split at done <;> cases done
          exact next _ rfl

theorem exec_ring {v : Variant} (executed : Executed cfg v moved w rest stmt w') :
    w'.heap.ring = w.heap.ring ∨ ∃ c s, stmt = .newBlock c s ∧
      w'.heap.ring = w.heap.ring ++ [.copy w.heap.next 0 s.blk s.off s.len] := by
  cases executed with
  | newBlock c s here =>
    unfold newBlock
    cases v with
    | original => exact .inl rfl
    | copierGet =>
      dsimp only
      split
      · exact .inr ⟨c, s, rfl, rfl⟩
      · exact .inl rfl
  | skipped | forgets | abandoned | written | addReplyDeferredLen | copyBuffer | addReply
  | addReplyProto | addReplyNull | addReplyInt | AddReplyFromClient | addReplyBulkLongLong
  | copyClientOutputBuffer => exact .inl rfl
  | addReplyToBuffer c s here =>
    refine .inl ?_
    unfold addReplyToBuffer
    repeat' split
    all_goals rfl
  | addReplyProtoToList c s here =>
    refine .inl ?_
    unfold addReplyProtoToList
    repeat' split
    all_goals rfl
  | addReplyLongLongWithPrefix c ll pre =>
    refine .inl ?_
    unfold addReplyLongLongWithPrefix
    split <;> rfl
  | joinReply dst src target origin =>
    refine .inl ?_
    unfold joinReply
    repeat' split
    all_goals rfl
  | trimReplyUnusedTailSpace c here =>
    refine .inl ?_
    unfold trimReplyUnusedTailSpace
    split
    · rfl
    · dsimp only
      split
      · cases moved <;> rfl
      · rfl
  | setDeferredAggregateLen c node length pre =>
    refine .inl ?_
    unfold setDeferredAggregateLen
    split <;> rfl
  | setDeferredReply c node s here done =>
    simp only [setDeferredReply, Option.map_eq_some_iff, Prod.exists] at done
    obtain ⟨front, after, -, rfl⟩ := done
    refine .inl ?_
    repeat' split
    all_goals rfl
  | glueDeferred c node s here done =>
    simp only [glueDeferred, Option.map_eq_some_iff, Prod.exists] at done
    obtain ⟨front, after, -, rfl⟩ := done
    refine .inl ?_
    split <;> rfl
  | fillDeferred c node s here done =>
    simp only [fillDeferred, Option.bind_eq_some_iff, Option.map_eq_some_iff, Prod.exists] at done
    obtain ⟨front, after, -, block, -, rfl⟩ := done
    exact .inl rfl
  | dupClientReplyValue dst n target => cases n <;> exact .inl rfl
  | write c tot here done =>
    unfold Reply.write at done
    refine .inl ?_
    repeat' split at done
    all_goals cases done
    all_goals rfl

/-- Copies are not empty, and a block to be duplicated is there. -/
def Stmt.Orderly (w : World) : Stmt → Prop
  | newBlock _ s => 0 < s.len
  | dupClientReplyValue _ (.block o) =>
      o.blk < w.heap.next ∧ ∀ t ∈ w.heap.ring, t.writes.blk ≠ o.blk
  | _ => True

structure World.Orderly (w : World) : Prop where
  copies : ∀ t ∈ w.heap.ring, 0 < t.writes.len
  todo : ∀ x ∈ w.todo, x.Orderly w

theorem Stmt.Orderly.of_harmless {x : Stmt} (harmless : x.harmless = true) : x.Orderly w := by
  cases x with
  | newBlock | dupClientReplyValue => cases harmless
  | _ => trivial

theorem Stmt.Orderly.mono {x : Stmt} (orderly : x.Orderly w) (grown : w.heap.next ≤ w'.heap.next)
    (tasks : ∀ t ∈ w'.heap.ring, t ∈ w.heap.ring ∨ w.heap.next ≤ t.writes.blk) : x.Orderly w' := by
  cases x with
  | newBlock c s => exact orderly
  | dupClientReplyValue dst n =>
    cases n with
    | deferred => trivial
    | block o =>
      obtain ⟨known, apart⟩ := orderly
      refine ⟨Nat.lt_of_lt_of_le known grown, fun t member => ?_⟩
      rcases tasks t member with old | fresh
      · exact apart t old
      · omega
  | _ => trivial

/-- A step that submits nothing. -/
theorem World.Orderly.mono (orderly : w.Orderly) (grown : w.heap.next ≤ w'.heap.next)
    (ring : ∀ t ∈ w'.heap.ring, t ∈ w.heap.ring) (todo : ∀ x ∈ w'.todo, x ∈ w.todo ∨ x.harmless = true) :
    w'.Orderly where
  copies t member := orderly.copies t (ring t member)
  todo x member := (todo x member).elim
    (fun old => (orderly.todo x old).mono grown fun t member => .inl (ring t member)) .of_harmless

theorem body_harmless (op : Op) : ∀ x ∈ op.body, x.harmless = true := by
  cases op with
  | addReplyBulkCString c s => cases s <;> simp [Op.body, addReplyBulkCBuffer, Stmt.harmless]
  | setDeferredReply c node s | setDeferredAggregateLen c node length pre =>
    simp [Op.body, Stmt.harmless]
  | _ => simp [Op.body, Reply.addReplyBulkCBuffer, Stmt.harmless]

theorem World.Orderly.exec {v : Variant} (orderly : w.Orderly) (inv : w.Inv)
    (performed : Performed w (.step moved)) (todo : w.todo = stmt :: rest)
    (grown : w.heap.next ≤ w'.heap.next) (executed : Executed cfg v moved w rest stmt w') :
    w'.Orderly := by
  have tasks : ∀ t ∈ w'.heap.ring, t ∈ w.heap.ring ∨
      w.heap.next ≤ t.writes.blk ∧ 0 < t.writes.len := by
    intro t member
    rcases exec_ring executed with same | ⟨c, s, rfl, ring⟩
    · exact .inl (same ▸ member)
    · rw [ring] at member
      refine (List.mem_append.mp member).imp id fun new => ?_
      cases List.mem_singleton.mp new
      exact ⟨Nat.le_refl _, orderly.todo (.newBlock c s) (todo ▸ List.mem_cons_self)⟩
  refine ⟨fun t member => (tasks t member).elim (orderly.copies t) And.right, fun x member => ?_⟩
  rcases exec_todo todo executed x member with old | follows
  · exact (orderly.todo x old).mono grown fun t member => (tasks t member).imp id And.left
  · cases follows with
    | block c some_ => exact some_
    | other _ harmless => exact .of_harmless harmless
    | @dup dst src cl n started here listed =>
      cases n with
      | deferred => trivial
      | block o =>
        subst started
        have caught : CaughtUp w src := performed src (by simp [rearranges, todo, Stmt.rearranges])
        have ready : (Stmt.dupClientReplyValue dst (.block o)).Orderly w := by
          refine ⟨inv.blocks ⟨src, cl, here, listed⟩, fun t member same => caught t member ?_⟩
          rw [here]
          exact List.mem_map.mpr ⟨o, mem_blocksOf.mpr listed, same.symm⟩
        exact ready.mono grown fun t member => (tasks t member).imp id And.left

theorem idle_todo (acted : idle w l = some w') :
    w'.heap.ring = w.heap.ring ∧ ∀ x ∈ w'.todo, x ∈ w.todo ∨ x.harmless = true := by
  have created : ∀ {c conn bound}, createClient w c conn bound = some w' →
      w'.heap.ring = w.heap.ring ∧ ∀ x ∈ w'.todo, x ∈ w.todo ∨ x.harmless = true := by
    intro c conn bound created
    simp only [createClient, Option.ite_none_right_eq_some, Option.some.injEq] at created
    obtain ⟨-, rfl⟩ := created
    exact ⟨rfl, fun _ member => (List.not_mem_nil member).elim⟩
  cases l with
  | call op =>
    simp only [Reply.idle, Option.ite_none_right_eq_some, Option.some.injEq] at acted
    obtain ⟨-, rfl⟩ := acted
    exact ⟨rfl, fun x member => .inr (body_harmless op x member)⟩
  | writeToClient c =>
    simp only [Reply.idle, Option.bind_eq_some_iff, Option.ite_none_right_eq_some,
      Option.some.injEq] at acted
    obtain ⟨cl, -, -, rfl⟩ := acted
    exact ⟨rfl, List.forall_mem_singleton.mpr (.inr rfl)⟩
  | acceptCommonHandler c | createClient c conn => exact created acted
  | configure c flags resp =>
    simp only [Reply.idle, Option.map_eq_some_iff] at acted
    obtain ⟨cl, -, rfl⟩ := acted
    exact ⟨rfl, fun _ member => (List.not_mem_nil member).elim⟩
  | freeClient c =>
    simp only [Reply.idle, Option.map_eq_some_iff] at acted
    obtain ⟨cl, -, rfl⟩ := acted
    exact ⟨rfl, fun _ => .inl⟩
  | create len fill | tick now =>
    cases acted
    exact ⟨rfl, fun _ => .inl⟩
  | overwrite s fill =>
    simp only [Reply.idle, Option.ite_none_right_eq_some, Option.some.injEq] at acted
    obtain ⟨-, rfl⟩ := acted
    exact ⟨rfl, fun _ => .inl⟩
  | delete b =>
    simp only [Reply.idle, Option.ite_none_right_eq_some, Option.some.injEq] at acted
    obtain ⟨-, rfl⟩ := acted
    exact ⟨rfl, fun _ member => (List.not_mem_nil member).elim⟩
  | _ => simp [Reply.idle] at acted

theorem World.Orderly.init : Reply.init.Orderly where
  copies _ member := (List.not_mem_nil member).elim
  todo _ member := (List.not_mem_nil member).elim

theorem World.Orderly.step (orderly : w.Orderly) (inv : w.Inv) (performed : Performed w l)
    (arrived : Arrived w l) (stepped : Reply.step cfg .copierGet w l = some w') : w'.Orderly := by
  by_cases served : l.isService
  · cases l with
    | service =>
      cases (step_iff.mp stepped).2 with
      | service served =>
        obtain ⟨h, report, ran, rfl⟩ := service_serves inv served
        obtain ⟨u, ring⟩ := serve_tail ran
        refine orderly.mono (Nat.le_of_eq (Deferred.Heap.serve_live ran).1.symm)
          (fun t member => ring ▸ List.mem_cons_of_mem _ member) fun x => .inl
      | idle _ acted => simp [Reply.idle] at acted
    | _ => cases served
  have grown := (step_evolves inv arrived (by simpa using served) stepped).spared.grown
  cases (step_iff.mp stepped).2 with
  | service => exact absurd rfl served
  | reuse => exact orderly.mono grown (fun _ => id) fun _ => .inl
  | exec todo executed => exact orderly.exec inv performed todo grown (exec_executed executed)
  | wrote todo here sent =>
    simp only [sends, Option.bind_eq_bind, Option.bind_eq_some_iff, Option.ite_none_right_eq_some,
      Option.some.injEq] at sent
    obtain ⟨span, -, -, rfl⟩ := sent
    refine orderly.mono grown (fun _ => id) (List.forall_mem_cons.mpr ⟨.inr ?_, fun x later => .inl ?_⟩)
    · split <;> rfl
    · exact todo ▸ List.mem_cons_of_mem _ later
  | refused todo here asked =>
    exact orderly.mono grown (fun _ => id) (List.forall_mem_cons.mpr ⟨.inr rfl,
      fun x later => .inl (todo ▸ List.mem_cons_of_mem _ later)⟩)
  | idle todo acted =>
    obtain ⟨ring, harmless⟩ := idle_todo acted
    exact orderly.mono grown (fun t member => ring ▸ member) harmless

/-- An access to a block. -/
def Touches (b : ℕ) : Access → Prop
  | .read s | .write s => s.blk = b
  | .free b' => b' = b

theorem World.Inv.clear_caught {a : Access} (inv : w.Inv) (caught : CaughtUp w c)
    (here : w.clients c = some cl) (listed : .block o ∈ cl.reply) (touches : Touches o.blk a) :
    w.heap.Clear a := by
  have apart : ∀ t ∈ w.heap.ring, t.writes.blk ≠ o.blk := by
    intro t member same
    refine caught t member ?_
    rw [here]
    exact List.mem_map.mpr ⟨o, mem_blocksOf.mpr listed, same.symm⟩
  have unread := inv.unread ⟨c, cl, here, listed⟩
  cases a with
  | read s => exact fun t member => Span.not_overlaps_blk (touches ▸ apart t member)
  | write s =>
    exact fun t member => ⟨Span.not_overlaps_blk (touches ▸ apart t member),
      Span.not_overlaps_blk (touches ▸ unread t member)⟩
  | free b => exact fun t member => touches ▸ ⟨apart t member, unread t member⟩

theorem Performed.caught {a : Access} (performed : Performed w (.step moved))
    (todo : w.todo = stmt :: rest) (edit : a ∈ stmt.edits w moved) (edited : stmt.edited = some c) :
    CaughtUp w c := by
  refine performed c ?_
  have some_ : stmt.edits w moved ≠ [] := List.ne_nil_of_mem edit
  simp only [rearranges, todo, List.head?_cons, Option.elim_some]
  cases stmt with
  | trimReplyUnusedTailSpace | glueDeferred | fillDeferred =>
    cases edited
    simp only [Stmt.rearranges, if_neg some_]
    exact List.mem_singleton_self _
  | _ => cases edited

theorem mem_onClient {a : Access} {f : Client → List Access} (member : a ∈ onClient w c f) :
    ∃ cl, w.clients c = some cl ∧ a ∈ f cl := by
  unfold onClient at member
  cases here : w.clients c with
  | none =>
    rw [here] at member
    cases member
  | some cl =>
    rw [here] at member
    exact ⟨cl, rfl, member⟩

theorem mem_onBlock {a : Access} {block : Option ReplyBlock} {f : ReplyBlock → List Access}
    (member : a ∈ onBlock block f) : ∃ o, block = some o ∧ a ∈ f o := by
  cases block with
  | none => cases member
  | some o => exact ⟨o, rfl, member⟩

/-- A statement edits only blocks of lists that the service has caught up with, or that no
copy is to fill in any case. -/
theorem Performed.edits (inv : w.Inv) (orderly : w.Orderly) (performed : Performed w (.step moved))
    (todo : w.todo = stmt :: rest) : ∀ a ∈ stmt.edits w moved, w.heap.Clear a := by
  intro a edit
  have caught : ∀ c, stmt.edited = some c → CaughtUp w c :=
    fun c => performed.caught todo edit
  cases stmt with
  | trimReplyUnusedTailSpace c =>
    obtain ⟨cl, here, edit⟩ := mem_onClient edit
    split at edit
    · obtain ⟨tail, last, edit⟩ := mem_onBlock edit
      have listed := lastBlock_mem (Option.filter_eq_some_iff.mp last).1
      refine inv.clear_caught (caught c rfl) here listed ?_
      simp only [List.mem_cons, List.not_mem_nil, or_false] at edit
      rcases edit with rfl | rfl <;> rfl
    · cases edit
  | glueDeferred c node s =>
    obtain ⟨cl, here, edit⟩ := mem_onClient edit
    obtain ⟨next, first, edit⟩ := mem_onBlock edit
    obtain ⟨sides, found, first⟩ := Option.bind_eq_some_iff.mp (Option.filter_eq_some_iff.mp first).1
    have listed : .block next ∈ cl.reply := by
      rw [around_eq found]
      exact List.mem_append_right _ (List.mem_cons_of_mem _ (firstBlock_mem first))
    refine inv.clear_caught (caught c rfl) here listed ?_
    simp only [List.mem_cons, List.not_mem_nil, or_false] at edit
    rcases edit with rfl | rfl <;> rfl
  | fillDeferred c node s =>
    obtain ⟨cl, here, edit⟩ := mem_onClient edit
    obtain ⟨next, first, edit⟩ := mem_onBlock edit
    obtain ⟨sides, found, first⟩ := Option.bind_eq_some_iff.mp first
    have listed : .block next ∈ cl.reply := by
      rw [around_eq found]
      exact List.mem_append_right _ (List.mem_cons_of_mem _ (firstBlock_mem first))
    cases List.mem_singleton.mp edit
    exact inv.clear_caught (caught c rfl) here listed rfl
  | copyClientOutputBuffer dst src =>
    obtain ⟨cl, here, edit⟩ := mem_onClient edit
    obtain ⟨o, listed, rfl⟩ := List.mem_map.mp edit
    have caught : CaughtUp w dst := performed dst (by simp [rearranges, todo, Stmt.rearranges])
    exact inv.clear_caught caught here (mem_blocksOf.mp listed) rfl
  | dupClientReplyValue dst n =>
    cases n with
    | deferred => cases edit
    | block o =>
      cases List.mem_singleton.mp edit
      have ready := orderly.todo (.dupClientReplyValue dst (.block o)) (todo ▸ List.mem_cons_self)
      exact fun t member => Span.not_overlaps_blk (ready.2 t member)
  | write c tot =>
    obtain ⟨cl, here, edit⟩ := mem_onClient edit
    obtain ⟨o, first, edit⟩ := mem_onBlock edit
    obtain ⟨first, empty⟩ := Option.filter_eq_some_iff.mp first
    have holds : w.Holds o := ⟨c, cl, here, firstBlock_mem first⟩
    cases List.mem_singleton.mp edit
    refine fun t member => ⟨fun same => ?_, inv.unread holds t member⟩
    -- nothing is copied into a block that holds nothing
    have inside := (inv.fills t member).inside holds same.symm
    have some_ := orderly.copies t member
    simp only [decide_eq_true_eq] at empty
    omega
  | _ => cases edit

theorem Performed.arrived (inv : w.Inv) (orderly : w.Orderly) (performed : Performed w l) :
    Arrived w l := by
  intro a edit
  cases l with
  | step moved =>
    cases todo : w.todo with
    | nil =>
      simp only [Reply.edits, todo, List.head?_nil, Option.elim_none] at edit
      cases edit
    | cons stmt rest =>
      simp only [Reply.edits, todo, List.head?_cons, Option.elim_some] at edit
      exact Performed.edits inv orderly performed todo a edit
  | freeClient c =>
    obtain ⟨cl, here, edit⟩ := mem_onClient edit
    obtain ⟨o, listed, rfl⟩ := List.mem_map.mp edit
    exact inv.clear_caught (performed c (List.mem_singleton_self c)) here (mem_blocksOf.mp listed) rfl
  | _ => cases edit

/-- Runs in which the service has performed the copies for a client's replies whenever blocks
of its list are edited, whatever else they do. -/
theorem blocks_intact (path : Runs.Path (step cfg .copierGet) Performed init ls w) :
    Runs.Path (step cfg .copierGet) (Intact cfg) init ls w := by
  refine path.mono_invariant (fun w => w.Inv ∧ w.Orderly) ⟨.init, .init⟩
    (fun ⟨inv, orderly⟩ performed stepped => ?_) fun ⟨inv, orderly⟩ performed other w' stepped => ?_
  · have arrived := Performed.arrived inv orderly performed
    exact ⟨inv.step arrived stepped, orderly.step inv performed arrived stepped⟩
  · have arrived := Performed.arrived inv orderly performed
    refine ⟨(step_evolves inv arrived other stepped).spared, fun s read i has => ?_⟩
    exact Deferred.Heap.mem_eq_settled_of_clear (arrived _ read) has

end Performed

/-- A client is sent a value of `len` bytes, the block of its first own memory being the
one after its static buffer. -/
def valueReply (len : ℕ) : List Label :=
  [.acceptCommonHandler 0, .create len fun _ => 65,
    .call (.addReplyProto 0 ⟨texts.length + 1, 0, len⟩)]

/-- One byte too many for the static buffer, up to the submission of the copy. -/
def bigReply : List Label := valueReply 16385 ++ List.replicate 4 (.step false)

theorem bigReply_served :
    (Runs.run (fun w l => if Performed w l then step .default .copierGet w l else none) init
      (bigReply ++ [.service, .freeClient 0])).isSome := by
  decide +kernel

theorem copied_block_intact : ∃ w, Runs.Path (step .default .copierGet) (Intact .default) init
    (bigReply ++ [.service, .freeClient 0]) w := by
  obtain ⟨w, ran⟩ := Option.isSome_iff_exists.mp bigReply_served
  exact ⟨w, blocks_intact (.of_run ran)⟩

/-- What is to be filled, and whether it is allocated. -/
def blocksView (w : World) : List (Span × Bool) :=
  w.heap.ring.map fun t => (t.writes, decide (t.writes.blk ∈ w.heap.live))

theorem bigReply_behind :
    (Runs.run (step .default .copierGet) init bigReply).map blocksView =
      some [(⟨133, 0, 16385⟩, true)] := by
  decide +kernel

theorem bigReply_closed :
    (Runs.run (step .default .copierGet) init (bigReply ++ [.freeClient 0])).map blocksView =
      some [(⟨133, 0, 16385⟩, false)] := by
  decide +kernel

/-- The client is closed before the service comes to its reply. -/
theorem pending_block_freed : ¬ ∀ ls w, Runs.run (step .default .copierGet) init ls = some w →
    Runs.Path (step .default .copierGet) (Intact .default) init ls w := by
  intro intact
  obtain ⟨w, ran, after⟩ := Option.map_eq_some_iff.mp bigReply_closed
  obtain ⟨u, reached, met, stepped⟩ := (intact _ _ ran).last
  obtain ⟨u', reached', before⟩ := Option.map_eq_some_iff.mp bigReply_behind
  cases reached.symm.trans reached'
  obtain ⟨spared, -⟩ := met rfl w stepped
  obtain ⟨t, pending, same⟩ := List.mem_map.mp (before ▸ List.mem_singleton_self _)
  simp only [Prod.mk.injEq, decide_eq_true_eq] at same
  have live := spared.live t pending same.2
  have member := List.mem_map_of_mem (f := fun t => (t.writes, decide (t.writes.blk ∈ w.heap.live)))
    (spared.queue.subset pending)
  change _ ∈ blocksView w at member
  rw [after] at member
  simp [live] at member

end Copier.Redis.Reply
