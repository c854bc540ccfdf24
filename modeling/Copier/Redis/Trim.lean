import Copier.Redis.Waits

/-! The trim of the set server while copies of arguments out of the same buffer are pending.
The terminator is stored when the move is submitted, not when it is performed. -/
namespace Copier.Redis.Server
open Deferred (Mem Span Task settle)

/-- A string whose bytes are still to come, from offset `off` of the query buffer. -/
structure Argument where
  obj : Sds
  off : ℕ

namespace Argument

/-- What was submitted for it. -/
def task (b : ℕ) (x : Argument) : Task UInt8 ℕ := .copy x.obj.blk 0 b x.off (intLength x.obj.len)

/-- The bytes the source holds for it. -/
def source (m : Mem UInt8) (b : ℕ) (x : Argument) : Bytes := slice (m b) x.off (x.off + x.obj.len)

end Argument

/-- The argument `take` leaves to the service. -/
theorem take_submits (a : Allocation) (h : Heap) (cl : Client) (bulklen : ℕ)
    (kept : handsOver cl.parser cl.querybuf.len bulklen = false)
    (large : ¬ bulklen ≤ OBJ_ENCODING_EMBSTR_SIZE_LIMIT) :
    ∃ x : Argument, x.off = cl.parser.qb_pos ∧ x.obj.len = bulklen ∧ x.obj.blk = h.next ∧
      (cl.take a h bulklen).2.argv = cl.argv ++ [.sds x.obj] ∧
      (cl.take a h bulklen).1.ring = h.ring ++ [x.task cl.querybuf.blk] := by
  refine ⟨⟨(sdsnewlenCopyer a h cl.querybuf.blk cl.parser.qb_pos bulklen).2, cl.parser.qb_pos⟩,
    rfl, rfl, rfl, ?_⟩
  unfold Client.take
  rw [if_neg (by simp [kept]), if_neg large]
  exact ⟨rfl, rfl⟩

/-- The remaining bytes, as what is to be moved to the front. -/
def Client.rest (cl : Client) : Argument :=
  ⟨{ cl.querybuf with len := cl.querybuf.len - cl.parser.qb_pos }, cl.parser.qb_pos⟩

/-- Everything that is pending after the trim, in order. -/
def Client.moving (cl : Client) (args : List Argument) : List Argument :=
  args ++ if cl.rest.obj.len = 0 then [] else [cl.rest]

/-- `processInputBuffer` is about to trim, and copies of arguments are pending. -/
structure AtTrim (w : World) (c : ℕ) (cl : Client) (args : List Argument) : Prop where
  here : w.clients c = some cl
  site : w.site = .running c .trim
  ring : w.heap.ring = args.map (Argument.task cl.querybuf.blk)
  distinct : (args.map (·.obj.blk) ++ [cl.querybuf.blk]).Nodup
  consumed : ∀ x ∈ args, x.off + x.obj.len ≤ cl.parser.qb_pos
  pos : 0 < cl.parser.qb_pos
  inside : cl.parser.qb_pos ≤ cl.querybuf.len

/-- The trim, `j` steps of the service, the terminator, and `k` steps of the service. -/
def trims (a b : Allocation) (j k : ℕ) : List Label :=
  .internal a :: serves j ++ .internal b :: serves k

/-- The buffer is as `sdsrange` leaves it, and the arguments are those that were sent. -/
structure Trimmed (w w' : World) (c : ℕ) (cl : Client) (args : List Argument) : Prop where
  buffer : ∃ cl', w'.clients c = some cl' ∧ cl'.parser.qb_pos = 0 ∧
    cl'.querybuf.bytes w'.heap.mem =
      (sdsrange w.heap cl.querybuf cl.parser.qb_pos).2.bytes
        (sdsrange w.heap cl.querybuf cl.parser.qb_pos).1.mem ∧
    w'.heap.mem cl'.querybuf.blk cl'.querybuf.len = NUL
  args : ∀ x ∈ args, x.obj.bytes w'.heap.mem = x.source w.heap.mem cl.querybuf.blk

/-- No copy is cut short where it matters, and the byte the terminator falls on is a NUL or
not read by any copy behind the first `j`. -/
structure Survives (m : Mem UInt8) (b stop j : ℕ) (xs : List Argument) : Prop where
  whole : ∀ x ∈ xs, ∀ i, intLength x.obj.len ≤ i → i < x.obj.len →
    m x.obj.blk i = m b (x.off + i)
  unread : m b stop = NUL ∨ ∀ x ∈ xs.drop j, ¬ (x.task b).reads.Has b stop

section Settling
variable {m : Mem UInt8} {b stop : ℕ} {xs ys zs : List Argument} {x : Argument}

theorem settle_append (ts us : List (Task UInt8 ℕ)) (m : Mem UInt8) :
    settle (ts ++ us) m = settle us (settle ts m) := List.foldl_append

theorem settle_elsewhere {d : ℕ} (apart : d ∉ xs.map (·.obj.blk)) :
    settle (xs.map (Argument.task b)) m d = m d := by
  funext i
  refine Deferred.settle_off fun t member has => apart ?_
  obtain ⟨x, listed, rfl⟩ := List.mem_map.mp member
  exact has.1 ▸ List.mem_map.mpr ⟨x, listed, rfl⟩

theorem apply_task (i : ℕ) : (x.task b).apply m x.obj.blk i =
    if i < intLength x.obj.len then m b (x.off + i) else m x.obj.blk i := by
  by_cases copied : i < intLength x.obj.len
  · rw [if_pos copied, Argument.task,
      Task.apply_copy_at (Nat.zero_le i) (by omega), Nat.sub_zero]
  · rw [if_neg copied]
    refine Task.apply_off fun has => copied ?_
    have high := has.2.2
    simp only [Argument.task, Task.writes] at high
    omega

/-- One of several copies out of a block that those before it leave alone. -/
theorem settle_one (source : b ∉ ys.map (·.obj.blk))
    (distinct : ((ys ++ x :: zs).map (·.obj.blk)).Nodup) (i : ℕ) :
    settle ((ys ++ x :: zs).map (Argument.task b)) m x.obj.blk i =
      if i < intLength x.obj.len then m b (x.off + i) else m x.obj.blk i := by
  simp only [List.map_append, List.map_cons] at distinct ⊢
  obtain ⟨-, later, apart⟩ := List.nodup_append.mp distinct
  have before : x.obj.blk ∉ ys.map (·.obj.blk) :=
    fun member => apart _ member _ List.mem_cons_self rfl
  have after : x.obj.blk ∉ zs.map (·.obj.blk) := (List.nodup_cons.mp later).1
  have step : settle (x.task b :: zs.map (Argument.task b)) (settle (ys.map (Argument.task b)) m) =
      settle (zs.map (Argument.task b))
        ((x.task b).apply (settle (ys.map (Argument.task b)) m)) := rfl
  rw [settle_append, step, settle_elsewhere after, apply_task, settle_elsewhere source,
    settle_elsewhere before]

end Settling

section Runs
variable {cfg : Config} {w w' : World} {c : ℕ} {cl : Client} {args : List Argument}
  {a b : Allocation} {j k : ℕ}

/-- The service performs the oldest copies; nothing else changes. -/
theorem serves_copies {v : Variant} (copies : ∀ t ∈ w.heap.ring, t.isCopy = true)
    (ran : Runs.run (step cfg v) w (serves j) = some w') :
    w' = { w with heap := { w.heap with
      mem := settle (w.heap.ring.take j) w.heap.mem
      ring := w.heap.ring.drop j } } := by
  induction j generalizing w with
  | zero =>
    cases ran
    rfl
  | succ j ih =>
    simp only [serves, List.replicate_succ, Runs.run, Option.bind_eq_some_iff] at ran
    obtain ⟨u, served, rest⟩ := ran
    cases pending : w.heap.ring with
    | nil =>
      simp only [step, service, Deferred.Heap.serve, pending, Option.map_none] at served
      contradiction
    | cons t ts =>
      rw [pending] at copies
      cases t with
      | recv => exact absurd (copies _ List.mem_cons_self) (by simp [Task.isCopy])
      | copy dst dstOff src srcOff len =>
        simp only [step, service, Deferred.Heap.serve, pending, Option.map_some, raised,
          Option.some.injEq] at served
        subst served
        exact ih (fun u member => copies u (List.mem_cons_of_mem _ member)) rest

theorem AtTrim.copies (trim : AtTrim w c cl args) : ∀ t ∈ w.heap.ring, t.isCopy = true := by
  intro t member
  rw [trim.ring] at member
  obtain ⟨x, -, rfl⟩ := List.mem_map.mp member
  rfl

/-- The trim by itself only adds to the queue. -/
theorem AtTrim.submits (trim : AtTrim w c cl args) : trimToPos .copierSet w c cl =
    { w with
      heap := { w.heap with ring := (cl.moving args).map (Argument.task cl.querybuf.blk) }
      clients := Function.update w.clients c (some cl.trimmed)
      site := .terminate c } := by
  have pos := trim.pos
  have inside := trim.inside
  unfold trimToPos Client.moving
  simp only [if_neg (Nat.ne_of_gt pos), if_neg (show ¬ cl.querybuf.len = 0 by omega)]
  by_cases none : cl.rest.obj.len = 0
  · have none' : cl.querybuf.len - cl.parser.qb_pos = 0 := none
    rw [if_pos none, if_pos none', List.append_nil, ← trim.ring]
    rfl
  · have some' : ¬ cl.querybuf.len - cl.parser.qb_pos = 0 := none
    rw [if_neg none, if_neg some', List.map_append, ← trim.ring]
    rfl

/-- The whole trim, over memory. -/
theorem AtTrim.run (trim : AtTrim w c cl args)
    (ran : Runs.run (step cfg .copierSet) w (trims a b j k) = some w') :
    w'.clients c = some cl.trimmed ∧
      w'.heap.ring = (((cl.moving args).drop j).map (Argument.task cl.querybuf.blk)).drop k ∧
      w'.heap.mem = settle ((((cl.moving args).drop j).map (Argument.task cl.querybuf.blk)).take k)
        (Deferred.store (settle (((cl.moving args).take j).map (Argument.task cl.querybuf.blk)) w.heap.mem)
          ⟨cl.querybuf.blk, cl.rest.obj.len, 1⟩ terminator) := by
  have first : step cfg .copierSet w (.internal a) = some (trimToPos .copierSet w c cl) := by
    simp only [step, internal, trim.site, trim.here, Option.bind_some]
    rfl
  have copies : ∀ t ∈ (cl.moving args).map (Argument.task cl.querybuf.blk), t.isCopy = true := by
    intro t member
    obtain ⟨x, -, rfl⟩ := List.mem_map.mp member
    rfl
  rw [trims, List.cons_append, Runs.run, first, Option.bind_some, trim.submits, Runs.run_append,
    Option.bind_eq_some_iff] at ran
  obtain ⟨u, before, ran⟩ := ran
  cases serves_copies copies before
  simp only [Runs.run, step, internal, Function.update_self, Option.map_some, Option.bind_some] at ran
  cases serves_copies (fun t member => copies t (List.mem_of_mem_drop member)) ran
  simp only [Function.update_self, Deferred.Heap.store, List.map_take, List.map_drop]
  exact ⟨trivial, trivial, rfl⟩

theorem AtTrim.distinct_moving (trim : AtTrim w c cl args) :
    ((cl.moving args).map (·.obj.blk)).Nodup := by
  refine trim.distinct.sublist ?_
  rw [Client.moving, List.map_append]
  refine List.Sublist.append (List.Sublist.refl _) ?_
  split
  · exact List.nil_sublist _
  · exact List.Sublist.refl _

theorem AtTrim.foreign (trim : AtTrim w c cl args) : cl.querybuf.blk ∉ args.map (·.obj.blk) := by
  intro member
  obtain ⟨-, -, apart⟩ := List.nodup_append.mp trim.distinct
  exact apart _ member _ (List.mem_singleton.mpr rfl) rfl

/-- Only the last of the moves writes the buffer. -/
theorem AtTrim.before (trim : AtTrim w c cl args) (split : cl.moving args = ys ++ x :: zs) :
    cl.querybuf.blk ∉ ys.map (·.obj.blk) := by
  have front : ys <+: args := by
    have front : ys <+: cl.moving args := split ▸ List.prefix_append _ _
    refine List.prefix_of_prefix_length_le front (List.prefix_append _ _) ?_
    have length := congrArg List.length split
    have short : (if cl.rest.obj.len = 0 then [] else [cl.rest]).length ≤ 1 := by
      split <;> simp
    rw [Client.moving] at length
    simp only [List.length_append, List.length_cons] at length
    omega
  exact fun member => trim.foreign ((front.map _).subset member)

theorem AtTrim.own (trim : AtTrim w c cl args) (member : x ∈ cl.moving args)
    (same : x.obj.blk = cl.querybuf.blk) : x = cl.rest := by
  rcases List.mem_append.mp member with arg | rest
  · exact absurd (List.mem_map.mpr ⟨x, arg, same⟩) trim.foreign
  · split at rest
    · cases rest
    · exact List.mem_singleton.mp rest

/-- Memory once the queue is drained, for a terminator stored after `j` moves. -/
def Client.drained (cl : Client) (args : List Argument) (j : ℕ) (m : Mem UInt8) : Mem UInt8 :=
  settle (((cl.moving args).drop j).map (Argument.task cl.querybuf.blk))
    (Deferred.store (settle (((cl.moving args).take j).map (Argument.task cl.querybuf.blk)) m)
      ⟨cl.querybuf.blk, cl.rest.obj.len, 1⟩ terminator)

theorem store_terminator {m : Mem UInt8} {d e stop : ℕ} (other : e ≠ d ∨ i ≠ stop) :
    Deferred.store m ⟨d, stop, 1⟩ terminator e i = m e i := by
  refine Deferred.store_off ?_
  rintro ⟨same, low, high⟩
  simp only at same low high
  rcases other with block | cell
  · exact block same
  · omega

/-- A string moved before the terminator was stored. -/
theorem AtTrim.early (trim : AtTrim w c cl args) {m : Mem UInt8}
    (member : x ∈ (cl.moving args).take j) (bound : i < x.obj.len) :
    cl.drained args j m x.obj.blk i =
      if i < intLength x.obj.len then m cl.querybuf.blk (x.off + i) else m x.obj.blk i := by
  have listed : x ∈ cl.moving args := List.mem_of_mem_take member
  obtain ⟨ys, zs, split⟩ := List.append_of_mem member
  have distinct := trim.distinct_moving
  rw [← List.take_append_drop j (cl.moving args), List.map_append] at distinct
  obtain ⟨front, -, apart⟩ := List.nodup_append.mp distinct
  have later : x.obj.blk ∉ ((cl.moving args).drop j).map (·.obj.blk) :=
    fun there => apart _ (List.mem_map.mpr ⟨x, member, rfl⟩) _ there rfl
  have outside : x.obj.blk ≠ cl.querybuf.blk ∨ i ≠ cl.rest.obj.len := by
    by_cases same : x.obj.blk = cl.querybuf.blk
    · have := trim.own listed same ▸ bound
      exact .inr (by omega)
    · exact .inl same
  have whole : cl.moving args = ys ++ x :: (zs ++ (cl.moving args).drop j) := by
    rw [← List.cons_append, ← List.append_assoc, ← split, List.take_append_drop]
  rw [Client.drained, settle_elsewhere later, store_terminator outside, split,
    settle_one (trim.before whole) (split ▸ front)]

/-- A string moved after the terminator was stored. -/
theorem AtTrim.late (trim : AtTrim w c cl args) {m : Mem UInt8}
    (member : x ∈ (cl.moving args).drop j) (bound : i < x.obj.len) :
    cl.drained args j m x.obj.blk i =
      if i < intLength x.obj.len then
        if x.off + i = cl.rest.obj.len then NUL else m cl.querybuf.blk (x.off + i)
      else m x.obj.blk i := by
  have listed : x ∈ cl.moving args := List.mem_of_mem_drop member
  obtain ⟨ys, zs, split⟩ := List.append_of_mem member
  have whole : cl.moving args = ((cl.moving args).take j ++ ys) ++ x :: zs := by
    rw [List.append_assoc, ← split, List.take_append_drop]
  have front := trim.before whole
  rw [List.map_append, List.mem_append, not_or] at front
  have distinct := trim.distinct_moving
  rw [← List.take_append_drop j (cl.moving args), List.map_append] at distinct
  obtain ⟨-, back, apart⟩ := List.nodup_append.mp distinct
  have earlier : x.obj.blk ∉ ((cl.moving args).take j).map (·.obj.blk) :=
    fun there => apart _ there _ (List.mem_map.mpr ⟨x, member, rfl⟩) rfl
  rw [Client.drained, split, settle_one front.2 (split ▸ back)]
  split_ifs with copied here
  · rw [here, Deferred.store_at ⟨rfl, Nat.le_refl _, Nat.lt_succ_self _⟩]
    rfl
  · rw [store_terminator (.inr here), settle_elsewhere front.1]
  · have outside : x.obj.blk ≠ cl.querybuf.blk ∨ i ≠ cl.rest.obj.len := by
      by_cases same : x.obj.blk = cl.querybuf.blk
      · have := trim.own listed same ▸ bound
        exact .inr (by omega)
      · exact .inl same
    rw [store_terminator outside, settle_elsewhere earlier]

/-- Every string gets its bytes just when the terminator does no harm. -/
theorem AtTrim.arrived_iff (trim : AtTrim w c cl args) (j : ℕ) (m : Mem UInt8) :
    (∀ x ∈ cl.moving args, ∀ i, i < x.obj.len →
      cl.drained args j m x.obj.blk i = m cl.querybuf.blk (x.off + i)) ↔
      Survives m cl.querybuf.blk cl.rest.obj.len j (cl.moving args) := by
  constructor
  · intro arrived
    constructor
    · intro x member i cut bound
      have there := arrived x member i bound
      have short : ¬ i < intLength x.obj.len := by omega
      rw [← List.take_append_drop j (cl.moving args), List.mem_append] at member
      rcases member with early | late
      · rwa [trim.early early bound, if_neg short] at there
      · rwa [trim.late late bound, if_neg short] at there
    · by_cases nul : m cl.querybuf.blk cl.rest.obj.len = NUL
      · exact .inl nul
      · refine .inr fun x late reads => nul ?_
        obtain ⟨-, low, high⟩ := reads
        simp only [Argument.task, Task.reads] at low high
        have copied : cl.rest.obj.len - x.off < intLength x.obj.len := by omega
        have here : x.off + (cl.rest.obj.len - x.off) = cl.rest.obj.len := by omega
        have bound := Nat.lt_of_lt_of_le copied (intLength_le _)
        have there := arrived x (List.mem_of_mem_drop late) _ bound
        rw [trim.late late bound, if_pos copied, here, if_pos rfl] at there
        exact there.symm
  · intro survives x member i bound
    have cut := survives.whole x member i
    rw [← List.take_append_drop j (cl.moving args), List.mem_append] at member
    rcases member with early | late
    · rw [trim.early early bound]
      split_ifs with copied
      · rfl
      · exact cut (by omega) bound
    · rw [trim.late late bound]
      split_ifs with copied here
      · rcases survives.unread with nul | unread
        · exact here ▸ nul.symm
        · refine absurd ⟨rfl, ?_, ?_⟩ (unread x late) <;>
            simp only [Argument.task, Task.reads] <;> omega
      · rfl
      · exact cut (by omega) bound

theorem AtTrim.terminated (trim : AtTrim w c cl args) (j : ℕ) (m : Mem UInt8) :
    cl.drained args j m cl.querybuf.blk cl.rest.obj.len = NUL := by
  rw [Client.drained, Deferred.settle_off, Deferred.store_at ⟨rfl, Nat.le_refl _, Nat.lt_succ_self _⟩]
  · rfl
  · intro t member written
    obtain ⟨x, late, rfl⟩ := List.mem_map.mp member
    obtain ⟨same, -, high⟩ := written
    have own := trim.own (List.mem_of_mem_drop late) same.symm
    have cut := intLength_le x.obj.len
    simp only [Argument.task, Task.writes, own] at high cut
    omega

theorem sdsrange_bytes (h : Heap) (s : Sds) (inside : pos ≤ s.len) :
    (sdsrange h s pos).2.bytes (sdsrange h s pos).1.mem = slice (h.mem s.blk) pos s.len := by
  unfold sdsrange
  split
  · rename_i empty
    simp [Sds.bytes, slice, empty]
  · rw [Sds.bytes, ← Nat.add_sub_cancel' inside, ← slice_shift, Nat.add_sub_cancel_left]
    refine slice_congr fun i _ bound => ?_
    have bound : i < s.len - pos := bound
    simp only [Deferred.Heap.store]
    rw [Deferred.store_at ⟨rfl, Nat.zero_le i, by simp only; omega⟩]
    simp [bound]

/-- Bytes and source agree cell by cell. -/
theorem bytes_eq_source {m n : Mem UInt8} {b : ℕ} (x : Argument) :
    x.obj.bytes n = x.source m b ↔ ∀ i, i < x.obj.len → n x.obj.blk i = m b (x.off + i) := by
  rw [Sds.bytes, Argument.source, ← slice_shift]
  constructor
  · intro same i bound
    have cell := congrArg (·.getD i NUL) same
    simpa only [getD_slice _ (show i < x.obj.len - 0 from bound), Nat.zero_add] using cell
  · intro same
    exact slice_congr fun i _ bound => (same i bound).symm

/-- The trim leaves what `sdsrange` would just when no pending copy is to read the byte the
terminator replaces, unless that is a NUL. -/
theorem trimmed_iff_survives (trim : AtTrim w c cl args)
    (ran : Runs.run (step cfg .copierSet) w (trims a b j k) = some w') (drained : w'.heap.ring = []) :
    Trimmed w w' c cl args ↔
      Survives w.heap.mem cl.querybuf.blk cl.rest.obj.len j (cl.moving args) := by
  obtain ⟨here, ring, mem⟩ := trim.run ran
  rw [drained] at ring
  rw [List.take_of_length_le (List.drop_eq_nil_iff.mp ring.symm)] at mem
  have mem : w'.heap.mem = cl.drained args j w.heap.mem := mem
  have range := sdsrange_bytes w.heap cl.querybuf trim.inside
  have source : cl.rest.source w.heap.mem cl.querybuf.blk =
      slice (w.heap.mem cl.querybuf.blk) cl.parser.qb_pos cl.querybuf.len := by
    simp only [Argument.source, Client.rest, Nat.add_sub_cancel' trim.inside]
  rw [← trim.arrived_iff]
  constructor
  · intro trimmed x member
    rw [← mem, ← bytes_eq_source]
    rcases List.mem_append.mp member with arg | rest
    · exact trimmed.args x arg
    · split at rest
      · cases rest
      · cases List.mem_singleton.mp rest
        obtain ⟨cl', there, -, reads, -⟩ := trimmed.buffer
        cases here.symm.trans there
        rw [range, ← source] at reads
        exact reads
  · intro arrived
    refine ⟨⟨_, here, rfl, ?_, mem ▸ trim.terminated j w.heap.mem⟩, fun x arg => ?_⟩
    · rw [range, ← source]
      refine (bytes_eq_source cl.rest).mpr fun i bound => ?_
      refine mem ▸ arrived cl.rest (List.mem_append_right _ ?_) i bound
      rw [if_neg (show ¬ cl.rest.obj.len = 0 by omega)]
      exact List.mem_singleton.mpr rfl
    · exact (bytes_eq_source x).mpr fun i bound =>
        mem ▸ arrived x (List.mem_append_left _ arg) i bound

end Runs

/-- An argument of 45 bytes, and the beginning of the next one. -/
def twoArguments : Bytes := ascii "*3\r\n$45\r\n" ++ List.replicate 45 121 ++ ascii "\r\n$3\r\nab"

def secondPending : Client where
  parser := { Parser.created false with
    qb_pos := 60
    reqtype := some .PROTO_REQ_MULTIBULK
    multibulklen := 2
    bulklen := some 3 }
  querybuf := ⟨0, 62, 62, .SDS_TYPE_8⟩
  argv := [.sds ⟨1, 45, 45, .SDS_TYPE_8⟩]
  descriptor := 61
  stream := twoArguments
  base := 0
  lastWait := 61

def firstCopying : World :=
  init.put ⟨fun b i => if b = 0 then twoArguments.getD i NUL else NUL, 2, [1, 0], [.copy 1 0 0 9 45]⟩ 0
    secondPending (.running 0 .trim)

theorem firstCopying_trim : AtTrim firstCopying 0 secondPending [⟨⟨1, 45, 45, .SDS_TYPE_8⟩, 9⟩] where
  here := rfl
  site := rfl
  ring := rfl
  distinct := by decide
  consumed x member := by
    rw [List.mem_singleton.mp member]
    decide
  pos := by decide
  inside := by decide

theorem short_rest_survives : ∃ w',
    Runs.run (step .default .copierSet) firstCopying (trims .exact .exact 0 2) = some w' ∧
      Trimmed firstCopying w' 0 secondPending [⟨⟨1, 45, 45, .SDS_TYPE_8⟩, 9⟩] := by
  have drains : (Runs.run (step .default .copierSet) firstCopying (trims .exact .exact 0 2)).map
      (fun w => w.heap.ring.isEmpty) = some true := by decide
  obtain ⟨w', ran, drained⟩ := Option.map_eq_some_iff.mp drains
  refine ⟨w', ran, (trimmed_iff_survives firstCopying_trim ran (List.isEmpty_iff.mp drained)).mpr
    ⟨?_, .inr ?_⟩⟩
  · intro x member i cut bound
    have whole : ∀ x ∈ secondPending.moving [⟨⟨1, 45, 45, .SDS_TYPE_8⟩, 9⟩],
        intLength x.obj.len = x.obj.len := by decide
    have := whole x member
    omega
  · intro x member
    have unread : ∀ x ∈ secondPending.moving [⟨⟨1, 45, 45, .SDS_TYPE_8⟩, 9⟩],
        ¬ (x.task 0).reads.Has 0 2 := by decide
    exact unread x member

/-- A key of 64 bytes, of which 30 have arrived. -/
def splitGet : Bytes := ascii "*2\r\n$3\r\nGET\r\n$64\r\n" ++ List.replicate 30 120

def splitRun : List Label := accepts 0 :: reads 0 splitGet ++ serves 48 ++ thinks 11

theorem splitRun_trims : (Runs.run (step .default .copierSet) init splitRun).map (fun w =>
    (w.site, w.heap.ring.length, (w.clients 0).map fun cl =>
      (cl.parser.qb_pos, slice (cl.view w.heap) 18 cl.querybuf.len))) =
      some (.running 0 .trim, 0, some (18, List.replicate 30 120)) := by
  decide +kernel

theorem splitRun_torn : (Runs.run (step .default .copierSet) init
    (splitRun ++ trims .exact .exact 0 1)).map (fun w =>
      (w.heap.ring.isEmpty, (w.clients 0).map fun cl => cl.querybuf.bytes w.heap.mem)) =
      some (true, some (List.replicate 12 120 ++ NUL :: List.replicate 17 120)) := by
  decide +kernel

theorem split_key_torn : ¬ ∀ ls w c cl args a b j k w', Runs.run (step .default .copierSet) init ls = some w →
    AtTrim w c cl args → Runs.run (step .default .copierSet) w (trims a b j k) = some w' →
    w'.heap.ring = [] → Trimmed w w' c cl args := by
  intro holds
  obtain ⟨w, reached, seen⟩ := Option.map_eq_some_iff.mp splitRun_trims
  simp only [Prod.mk.injEq, Option.map_eq_some_iff, List.length_eq_zero_iff] at seen
  obtain ⟨site, ring, cl, here, pos, bytes⟩ := seen
  have len : cl.querybuf.len - 18 = 30 := by simpa using congrArg List.length bytes
  obtain ⟨w', reached', after⟩ := Option.map_eq_some_iff.mp splitRun_torn
  simp only [Prod.mk.injEq, Option.map_eq_some_iff, List.isEmpty_iff] at after
  obtain ⟨drained, cl', there, torn⟩ := after
  rw [Runs.run_append, reached, Option.bind_some] at reached'
  have trim : AtTrim w 0 cl [] :=
    ⟨here, site, ring, by simp, by simp, by omega, by omega⟩
  obtain ⟨dl, found, -, reads, -⟩ := (holds _ w 0 cl [] _ _ 0 1 w' reached trim reached' drained).buffer
  cases there.symm.trans found
  rw [torn, sdsrange_bytes _ _ trim.inside, pos] at reads
  have differ := reads.trans bytes
  exact absurd differ (by decide)

end Copier.Redis.Server
