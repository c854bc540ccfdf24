import Copier.Queue.Submission
import Copier.Redis.Server

/-! String objects, as the original server makes them from bytes it copies and as the set
server makes them from a copy it submits. -/
namespace Copier.Redis
open Deferred (Span Task)

def OBJ_STRING : ℕ := 0
def OBJ_ENCODING_RAW : ℕ := 0
def OBJ_ENCODING_EMBSTR : ℕ := 8

structure Robj where
  type : ℕ
  encoding : ℕ
  ptr : Sds
deriving DecidableEq

def createObject (type : ℕ) (ptr : Sds) : Robj := ⟨type, OBJ_ENCODING_RAW, ptr⟩

/-- A new block with a copy of `len` bytes and a terminator. -/
def copiedAtOnce (h : Heap) (src off len : ℕ) : Heap :=
  (h.claim.store ⟨h.next, 0, len⟩ fun i => h.mem src (off + i)).store ⟨h.next, len, 1⟩ terminator

/-- `_sdsnewlen`. -/
def sdsnewlen (a : Allocation) (h : Heap) (src off initlen : ℕ) : Heap × Sds :=
  (copiedAtOnce h src off initlen,
    ⟨h.next, initlen, usable (newlenType initlen) initlen (a.slack 0), newlenType initlen⟩)

def createEmbeddedStringObject (h : Heap) (src off len : ℕ) : Heap × Robj :=
  (copiedAtOnce h src off len, ⟨OBJ_STRING, OBJ_ENCODING_EMBSTR, ⟨h.next, len, len, .SDS_TYPE_8⟩⟩)

def createStringObject (a : Allocation) (h : Heap) (src off len : ℕ) : Heap × Robj :=
  if len ≤ OBJ_ENCODING_EMBSTR_SIZE_LIMIT then createEmbeddedStringObject h src off len
  else
    let (h, s) := sdsnewlen a h src off len
    (h, createObject OBJ_STRING s)

def createStringObjectCopyer (a : Allocation) (h : Heap) (base offset len : ℕ) : Heap × Robj :=
  if len ≤ OBJ_ENCODING_EMBSTR_SIZE_LIMIT then createEmbeddedStringObject h base offset len
  else
    let (h, s) := sdsnewlenCopyer a h base offset len
    (h, createObject OBJ_STRING s)

/-- Once the queue is drained, the object is the one that would have been made at once. -/
structure Agrees (a : Allocation) (h : Heap) (base offset len : ℕ) : Prop where
  type : (createStringObjectCopyer a h base offset len).2.type =
    (createStringObject a h base offset len).2.type
  encoding : (createStringObjectCopyer a h base offset len).2.encoding =
    (createStringObject a h base offset len).2.encoding
  header : (createStringObjectCopyer a h base offset len).2.ptr.type =
    (createStringObject a h base offset len).2.ptr.type
  length : (createStringObjectCopyer a h base offset len).2.ptr.len =
    (createStringObject a h base offset len).2.ptr.len
  bytes : (createStringObjectCopyer a h base offset len).2.ptr.bytes
      (createStringObjectCopyer a h base offset len).1.settled =
    (createStringObject a h base offset len).2.ptr.bytes (createStringObject a h base offset len).1.mem
  terminated : (createStringObjectCopyer a h base offset len).1.settled
    (createStringObjectCopyer a h base offset len).2.ptr.blk
    (createStringObjectCopyer a h base offset len).2.ptr.len = NUL
  covers : (createStringObjectCopyer a h base offset len).1.ring =
    if len ≤ OBJ_ENCODING_EMBSTR_SIZE_LIMIT then h.ring
    else h.ring ++ [.copy h.next 0 base offset len]

section Objects
variable {a : Allocation} {h : Heap} {base offset len : ℕ}

/-- The `int` of a queue entry, where it is not negative. -/
theorem intLength_toInt (n : ℕ) : intLength n = (Queue.toInt n).toNat := by
  rw [Queue.toInt, BitVec.toInt_eq_toNat_cond, BitVec.toNat_ofNat]
  unfold intLength
  split_ifs <;> omega

theorem intLength_eq_iff (n : ℕ) : intLength n = n ↔ n < 2 ^ 31 := by
  constructor
  · intro same
    unfold intLength at same
    split at same <;> omega
  · exact intLength_eq

theorem copiedAtOnce_at (off : ℕ) (bound : i < len) :
    (copiedAtOnce h src off len).mem h.next i = h.mem src (off + i) := by
  have outside : ¬ (⟨h.next, len, 1⟩ : Span).Has h.next i := by
    rintro ⟨-, low, -⟩
    simp only at low
    omega
  simp only [copiedAtOnce, Deferred.Heap.store]
  rw [Deferred.store_off outside, Deferred.store_at ⟨rfl, Nat.zero_le i, by simpa using bound⟩, Nat.sub_zero]

theorem copiedAtOnce_reads (off : ℕ) (alloc : ℕ) (type : SdsType) :
    Sds.bytes (copiedAtOnce h src off len).mem ⟨h.next, len, alloc, type⟩ =
      slice (h.mem src) off (off + len) := by
  rw [Sds.bytes, ← slice_shift]
  exact slice_congr fun i _ bound => (copiedAtOnce_at off bound).symm

/-- The new block is none of the service's. -/
theorem copiedAtOnce_settled (wf : h.Wf) (off : ℕ) (i : ℕ) :
    (copiedAtOnce h src off len).settled h.next i = (copiedAtOnce h src off len).mem h.next i := by
  refine (Deferred.Heap.mem_eq_settled fun t member has => ?_).symm
  exact Nat.ne_of_lt (wf.endpoints t member).1 has.1.symm

theorem createStringObject_reads (a : Allocation) (h : Heap) (base offset len : ℕ) :
    (createStringObject a h base offset len).2.ptr.bytes (createStringObject a h base offset len).1.mem =
      slice (h.mem base) offset (offset + len) := by
  unfold createStringObject
  split <;> exact copiedAtOnce_reads offset _ _

theorem embedded_agrees (wf : h.Wf) (small : len ≤ OBJ_ENCODING_EMBSTR_SIZE_LIMIT) :
    Agrees a h base offset len := by
  have same : createStringObjectCopyer a h base offset len = createEmbeddedStringObject h base offset len :=
    if_pos small
  have twin : createStringObject a h base offset len = createEmbeddedStringObject h base offset len :=
    if_pos small
  have settled : ∀ i, (copiedAtOnce h base offset len).settled h.next i =
      (copiedAtOnce h base offset len).mem h.next i := copiedAtOnce_settled wf offset
  constructor
  · rw [same, twin]
  · rw [same, twin]
  · rw [same, twin]
  · rw [same, twin]
  · rw [same, twin]
    exact bytes_congr fun i _ => (settled i).symm
  · rw [same]
    exact (settled len).trans (Deferred.store_at ⟨rfl, Nat.le_refl _, Nat.lt_succ_self _⟩)
  · rw [same, if_pos small]
    rfl

theorem submitted_agrees (wf : h.Wf) (live : base ∈ h.live) (stable : h.Clear (.read ⟨base, offset, len⟩))
    (large : ¬ len ≤ OBJ_ENCODING_EMBSTR_SIZE_LIMIT) (short : len < 2 ^ 31) :
    Agrees a h base offset len := by
  have same : createStringObjectCopyer a h base offset len =
      ((sdsnewlenCopyer a h base offset len).1,
        createObject OBJ_STRING (sdsnewlenCopyer a h base offset len).2) := if_neg large
  have twin : createStringObject a h base offset len =
      ((sdsnewlen a h base offset len).1, createObject OBJ_STRING (sdsnewlen a h base offset len).2) :=
    if_neg large
  have created := sdsnewlenCopyer_created (a := a) offset wf live short
  constructor
  · rw [same, twin]
    rfl
  · rw [same, twin]
    rfl
  · rw [same, twin]
    rfl
  · rw [same, twin]
    rfl
  · rw [createStringObject_reads, same]
    refine created.reads.trans (slice_congr fun i low high => ?_)
    exact Deferred.Heap.mem_eq_settled_of_clear stable ⟨rfl, low, high⟩
  · rw [same]
    exact created.sound.terminated
  · rw [same, if_neg large]
    simp only [sdsnewlenCopyer, intLength_eq short]
    rfl

/-- The two agree just when the length fits into the queue entry. -/
theorem createStringObjectCopyer_agrees_iff (a : Allocation) (wf : h.Wf) (live : base ∈ h.live)
    (stable : h.Clear (.read ⟨base, offset, len⟩)) : Agrees a h base offset len ↔ len < 2 ^ 31 := by
  by_cases small : len ≤ OBJ_ENCODING_EMBSTR_SIZE_LIMIT
  · refine ⟨fun _ => ?_, fun _ => embedded_agrees wf small⟩
    unfold OBJ_ENCODING_EMBSTR_SIZE_LIMIT at small
    omega
  · refine ⟨fun agrees => ?_, submitted_agrees wf live stable small⟩
    have covers := agrees.covers
    rw [createStringObjectCopyer, if_neg small, if_neg small] at covers
    have last := List.append_cancel_left covers
    simp only [List.cons.injEq, Task.copy.injEq] at last
    exact (intLength_eq_iff len).mp last.1.2.2.2.2

/-- The parser's arguments are made in this way. -/
theorem take_created (cl : Server.Client) (bulklen : ℕ)
    (kept : handsOver cl.parser cl.querybuf.len bulklen = false)
    (large : ¬ bulklen ≤ OBJ_ENCODING_EMBSTR_SIZE_LIMIT) :
    (cl.take a h bulklen).1 = (createStringObjectCopyer a h cl.querybuf.blk cl.parser.qb_pos bulklen).1 ∧
      (cl.take a h bulklen).2.argv = cl.argv ++
        [.sds (createStringObjectCopyer a h cl.querybuf.blk cl.parser.qb_pos bulklen).2.ptr] := by
  unfold Server.Client.take createStringObjectCopyer
  rw [if_neg (by simp [kept]), if_neg large, if_neg large]
  exact ⟨rfl, rfl⟩

end Objects

/-- A block of bytes, with nothing pending. -/
def sevens : Heap := ⟨fun _ _ => 7, 1, [0], []⟩

theorem sevens_wf : sevens.Wf where
  named b member := by
    rw [List.mem_singleton.mp member]
    decide
  dst t member := by cases member
  src t member := by cases member

theorem raw_object_agrees : Agrees .exact sevens 0 3 45 :=
  (createStringObjectCopyer_agrees_iff .exact sevens_wf List.mem_cons_self (by decide)).mpr (by decide)

theorem long_object_differs : ¬ ∀ a (h : Heap) base offset len, h.Wf → base ∈ h.live →
    h.Clear (.read ⟨base, offset, len⟩) → Agrees a h base offset len := by
  intro agrees
  have covers := (agrees .exact sevens 0 0 (2 ^ 31) sevens_wf List.mem_cons_self (by decide)).covers
  have large : ¬ 2 ^ 31 ≤ OBJ_ENCODING_EMBSTR_SIZE_LIMIT := by decide
  rw [createStringObjectCopyer, if_neg large, if_neg large] at covers
  have last := List.append_cancel_left covers
  simp only [List.cons.injEq, Task.copy.injEq] at last
  exact absurd last.1.2.2.2.2 (by decide)

end Copier.Redis
