import Copier.Foundation.Deferred
import Copier.Redis.Script

/-! The `sds` strings of the modified servers, over memory that a service is
still filling. Each operation is given with the accesses it makes; where these
meet no pending task, the string reads afterwards, once everything has settled,
as the operation on byte strings says. -/
namespace Copier.Redis
open Deferred (Mem Span Task Access)

/-- Pending receives carry the client whose descriptor they raise. -/
abbrev Heap := Deferred.Heap UInt8 ℕ

def SDS_MAX_PREALLOC : ℕ := 1024 * 1024

inductive SdsType
  | SDS_TYPE_5 | SDS_TYPE_8 | SDS_TYPE_16 | SDS_TYPE_32 | SDS_TYPE_64
deriving DecidableEq

def SdsType.rank : SdsType → ℕ
  | SDS_TYPE_5 => 0
  | SDS_TYPE_8 => 1
  | SDS_TYPE_16 => 2
  | SDS_TYPE_32 => 3
  | SDS_TYPE_64 => 4

def sdsHdrSize : SdsType → ℕ
  | .SDS_TYPE_5 => 1
  | .SDS_TYPE_8 => 3
  | .SDS_TYPE_16 => 5
  | .SDS_TYPE_32 => 9
  | .SDS_TYPE_64 => 17

/-- `sdsTypeMaxSize`, unlimited for 64 bits. -/
def sdsTypeMaxSize : SdsType → Option ℕ
  | .SDS_TYPE_5 => some (2 ^ 5 - 1)
  | .SDS_TYPE_8 => some (2 ^ 8 - 1)
  | .SDS_TYPE_16 => some (2 ^ 16 - 1)
  | .SDS_TYPE_32 => some (2 ^ 32 - 1)
  | .SDS_TYPE_64 => none

def sdsReqType (size : ℕ) : SdsType :=
  if size < 2 ^ 5 then .SDS_TYPE_5
  else if size < 2 ^ 8 then .SDS_TYPE_8
  else if size < 2 ^ 16 then .SDS_TYPE_16
  else if size < 2 ^ 32 then .SDS_TYPE_32
  else .SDS_TYPE_64

/-- The type for a string that will grow: never the smallest. -/
def growingType (size : ℕ) : SdsType :=
  if sdsReqType size = .SDS_TYPE_5 then .SDS_TYPE_8 else sdsReqType size

/-- The type `_sdsnewlen` picks. -/
def newlenType (size : ℕ) : SdsType :=
  if sdsReqType size = .SDS_TYPE_5 ∧ size = 0 then .SDS_TYPE_8 else sdsReqType size

structure Sds where
  blk : ℕ
  len : ℕ
  alloc : ℕ
  type : SdsType
deriving DecidableEq

/-- The allocator's answers, in the order it is asked: whether a block is resized where
it is, and how much more than asked for is usable; and what an uninitialised descriptor
holds. -/
structure Allocation where
  inPlace : ℕ → Bool
  slack : ℕ → ℕ
  stale : Int

/-- An allocator that gives what is asked for and resizes in place. -/
def Allocation.exact : Allocation := ⟨fun _ => true, fun _ => 0, 0⟩

/-- The answers after the first. -/
def Allocation.later (a : Allocation) : Allocation where
  inPlace n := a.inPlace (n + 1)
  slack n := a.slack (n + 1)
  stale := a.stale

def usable (type : SdsType) (size slack : ℕ) : ℕ :=
  match sdsTypeMaxSize type with
  | some most => min (size + slack) most
  | none => size + slack

theorem le_usable (size slack : ℕ) : size ≤ usable (growingType size) size slack := by
  unfold usable growingType sdsReqType
  split_ifs <;> simp_all [sdsTypeMaxSize] <;> omega

theorem le_usable_newlen (size slack : ℕ) : size ≤ usable (newlenType size) size slack := by
  unfold usable newlenType sdsReqType
  split_ifs <;> simp_all [sdsTypeMaxSize] <;> omega

/-- The bytes of a string. -/
def Sds.bytes (m : Mem UInt8) (s : Sds) : Bytes := slice (m s.blk) 0 s.len

@[simp] theorem length_bytes (m : Mem UInt8) (s : Sds) : (s.bytes m).length = s.len := by
  simp [Sds.bytes]

theorem bytes_congr {m n : Mem UInt8} {s : Sds} (same : ∀ i, i < s.len → m s.blk i = n s.blk i) :
    s.bytes n = s.bytes m := slice_congr fun j _ high => same j high

/-- The length field of a queue entry is an `int`; a negative one copies nothing. -/
def intLength (n : ℕ) : ℕ := if n % 2 ^ 32 < 2 ^ 31 then n % 2 ^ 32 else 0

theorem intLength_le (n : ℕ) : intLength n ≤ n := by
  unfold intLength
  split
  · exact Nat.mod_le _ _
  · exact Nat.zero_le _

theorem intLength_eq (short : n < 2 ^ 31) : intLength n = n := by
  unfold intLength
  rw [Nat.mod_eq_of_lt (by omega), if_pos short]

def terminator : ℕ → UInt8 := fun _ => NUL

/-- The first `n` bytes in a block of their own, the old one freed. -/
def moved (h : Heap) (s : Sds) (n : ℕ) : Heap :=
  (h.claim.store ⟨h.next, 0, n⟩ (h.mem s.blk)).release [s.blk]

/-- Bytes past the terminator are copied too, but carry no meaning. -/
def movedAccesses (s : Sds) : List Access := [.read ⟨s.blk, 0, s.len + 1⟩, .free s.blk]

def grownLen (s : Sds) (addlen : ℕ) : ℕ :=
  if s.len + addlen < SDS_MAX_PREALLOC then (s.len + addlen) * 2
  else s.len + addlen + SDS_MAX_PREALLOC

def growsInPlace (a : Allocation) (s : Sds) (addlen : ℕ) : Bool :=
  a.inPlace 0 && s.type == growingType (grownLen s addlen)

def sdsMakeRoomFor (a : Allocation) (h : Heap) (s : Sds) (addlen : ℕ) : Heap × Sds :=
  if s.alloc - s.len ≥ addlen then (h, s)
  else
    let newlen := grownLen s addlen
    let type := growingType newlen
    if growsInPlace a s addlen then (h, { s with alloc := usable type newlen (a.slack 0) })
    else (moved h s (s.alloc + 1), ⟨h.next, s.len, usable type newlen (a.slack 0), type⟩)

def sdsMakeRoomForAccesses (a : Allocation) (s : Sds) (addlen : ℕ) : List Access :=
  if s.alloc - s.len ≥ addlen then [] else if growsInPlace a s addlen then [] else movedAccesses s

/-- The header of a string cut down to its length: unchanged where `realloc` will do. -/
def resizedType (s : Sds) (would_regrow : Bool) : SdsType :=
  let type := if would_regrow then growingType s.len else sdsReqType s.len
  let useRealloc := s.type = type ∨ type.rank < s.type.rank ∧ type.rank > SdsType.SDS_TYPE_8.rank
  if useRealloc then s.type else type

/-- `sdsResize` down to the length. -/
def sdsRemoveFreeSpace (a : Allocation) (h : Heap) (s : Sds) (would_regrow : Bool) : Heap × Sds :=
  if s.alloc = s.len then (h, s)
  else if a.inPlace 0 then (h.store ⟨s.blk, s.len, 1⟩ terminator, { s with alloc := s.len })
  else
    ((moved h s (s.len + 1)).store ⟨h.next, s.len, 1⟩ terminator,
      ⟨h.next, s.len, s.len, resizedType s would_regrow⟩)

/-- In place the rest of the block is given back. -/
def sdsRemoveFreeSpaceAccesses (a : Allocation) (s : Sds) : List Access :=
  if s.alloc = s.len then []
  else if a.inPlace 0 then [.write ⟨s.blk, s.len, 1⟩, .write ⟨s.blk, s.len + 1, s.alloc - s.len⟩]
  else movedAccesses s

/-- `sdsrange(s, pos, -1)` with its `memmove`. -/
def sdsrange (h : Heap) (s : Sds) (pos : ℕ) : Heap × Sds :=
  if s.len = 0 then (h, s)
  else
    let newlen := s.len - pos
    (h.store ⟨s.blk, 0, newlen + 1⟩ fun i => if i < newlen then h.mem s.blk (pos + i) else NUL,
      { s with len := newlen })

def sdsrangeAccesses (s : Sds) (pos : ℕ) : List Access :=
  if s.len = 0 then []
  else [.read ⟨s.blk, pos, s.len - pos⟩, .write ⟨s.blk, 0, s.len - pos + 1⟩]

/-- `sdscatlen`. -/
def sdscatlen (a : Allocation) (h : Heap) (s : Sds) (t : Bytes) : Heap × Sds :=
  let (h, s) := sdsMakeRoomFor a h s t.length
  (h.store ⟨s.blk, s.len, t.length + 1⟩ fun i => t.getD i NUL, { s with len := s.len + t.length })

def sdscatlenAccesses (a : Allocation) (h : Heap) (s : Sds) (t : Bytes) : List Access :=
  let (_, room) := sdsMakeRoomFor a h s t.length
  sdsMakeRoomForAccesses a s t.length ++ [.write ⟨room.blk, s.len, t.length + 1⟩]

/-- `memcpy` into a string, where the bytes fit. -/
def memcpyTo (h : Heap) (s : Sds) (off : ℕ) (data : Bytes) : Heap :=
  if off + data.length ≤ s.len then h.store ⟨s.blk, off, data.length⟩ fun i => data.getD i NUL
  else h

def memcpyToAccesses (s : Sds) (off : ℕ) (data : Bytes) : List Access :=
  if off + data.length ≤ s.len then [.write ⟨s.blk, off, data.length⟩] else []

/-- An empty string in a new block with room for `size` bytes. -/
def sdsnewlenCleared (a : Allocation) (h : Heap) (size : ℕ) : Heap × Sds :=
  (h.claim.store ⟨h.next, 0, 1⟩ terminator,
    ⟨h.next, 0, usable (newlenType size) size (a.slack 0), newlenType size⟩)

/-- `_sdsnewlenCopyer`: the copy is submitted, the terminator stored at once. -/
def sdsnewlenCopyer (a : Allocation) (h : Heap) (src off initlen : ℕ) : Heap × Sds :=
  ((h.claim.submit (.copy h.next 0 src off (intLength initlen))).store ⟨h.next, initlen, 1⟩
      terminator,
    ⟨h.next, initlen, usable (newlenType initlen) initlen (a.slack 0), newlenType initlen⟩)

/-- A string that is allocated, with its bytes and terminator inside its block. -/
structure Sds.Sound (h : Heap) (s : Sds) : Prop where
  live : s.blk ∈ h.live
  fits : s.len ≤ s.alloc
  terminated : h.settled s.blk s.len = NUL

/-- `t` in `h'` is what `s` in `h` became: it will read `bytes`, and other
strings are as they were. -/
structure Reshaped (h h' : Heap) (s t : Sds) (bytes : Bytes) : Prop where
  reads : t.bytes h'.settled = bytes
  frame : ∀ b, b < h.next → b ≠ s.blk → h'.settled b = h.settled b
  owner : t.blk = s.blk ∨ h.next ≤ t.blk
  grown : h.next ≤ h'.next
  wf : h'.Wf
  live : t.blk ∈ h'.live
  kept : ∀ b ∈ h.live, b ≠ s.blk → b ∈ h'.live

structure Rewritten (h h' : Heap) (s t : Sds) (bytes : Bytes) : Prop
    extends Reshaped h h' s t bytes where
  terminated : h'.settled t.blk t.len = NUL

/-- `o` is a new string that will read `bytes`; all others are as they were. -/
structure Created (h h' : Heap) (o : Sds) (bytes : Bytes) : Prop where
  reads : o.bytes h'.settled = bytes
  sound : o.Sound h'
  blk : o.blk = h.next
  next : h'.next = h.next + 1
  frame : ∀ b, b < h.next → h'.settled b = h.settled b
  wf : h'.Wf
  kept : ∀ b ∈ h.live, b ∈ h'.live

/-- `t` is `s`, perhaps in a new block; no older block reads differently. -/
structure Relocated (h h' : Heap) (s t : Sds) : Prop where
  reads : t.bytes h'.settled = s.bytes h.settled
  terminated : h'.settled t.blk t.len = NUL
  frame : ∀ b, b < h.next → h'.settled b = h.settled b
  owner : t.blk = s.blk ∨ h.next ≤ t.blk
  named : t.blk < h'.next
  grown : h.next ≤ h'.next
  wf : h'.Wf
  kept : ∀ b ∈ h.live, b ≠ s.blk → b ∈ h'.live

section Rewriting
variable {h h' h'' : Heap} {s t u : Sds} {a : Allocation}

theorem Rewritten.refl (wf : h.Wf) (live : s.blk ∈ h.live)
    (terminated : h.settled s.blk s.len = NUL) : Rewritten h h s s (s.bytes h.settled) :=
  ⟨⟨rfl, fun _ _ _ => rfl, .inl rfl, Nat.le_refl _, wf, live, fun _ old _ => old⟩, terminated⟩

theorem Rewritten.trans (old : h.Wf) (first : Rewritten h h' s t bytes)
    (second : Rewritten h' h'' t u bytes') : Rewritten h h'' s u bytes' := by
  have apart : ∀ b, b < h.next → b ≠ s.blk → b ≠ t.blk := by
    intro b named other
    rcases first.owner with same | fresh
    · exact same ▸ other
    · omega
  refine ⟨⟨second.reads, fun b named other => ?_, ?_, Nat.le_trans first.grown second.grown,
    second.wf, second.live, fun b member other => ?_⟩, second.terminated⟩
  · rw [second.frame b (Nat.lt_of_lt_of_le named first.grown) (apart b named other),
      first.frame b named other]
  · rcases second.owner with same | fresh
    · exact same ▸ first.owner
    · exact .inr (Nat.le_trans first.grown fresh)
  · exact second.kept b (first.kept b member other) (apart b (old.named b member) other)

/-- A new string leaves an older one alone. -/
theorem Created.rewritten (new : Created h h' o bytes) (wf : h.Wf) (live : s.blk ∈ h.live)
    (terminated : h.settled s.blk s.len = NUL) : Rewritten h h' s s (s.bytes h.settled) where
  reads := bytes_congr fun i _ => (congrFun (new.frame s.blk (wf.named _ live)) i).symm
  terminated := (congrFun (new.frame s.blk (wf.named _ live)) s.len).trans terminated
  frame b old _ := new.frame b old
  owner := .inl rfl
  grown := new.next ▸ Nat.le_succ _
  wf := new.wf
  live := new.kept _ live
  kept b member _ := new.kept b member

/-- Storing inside the string's own block, away from pending tasks. -/
theorem store_rewritten {span : Span} {f : ℕ → UInt8} (own : span.blk = s.blk)
    (wf : h.Wf) (live : s.blk ∈ h.live) (clear : h.Clear (.write span)) (same : t.blk = s.blk)
    (terminated : Deferred.store h.settled span f s.blk t.len = NUL) :
    Rewritten h (h.store span f) s t (t.bytes (Deferred.store h.settled span f)) where
  reads := by rw [Deferred.Heap.settled_store clear]
  terminated := by rw [Deferred.Heap.settled_store clear, same]; exact terminated
  frame b _ other := by
    rw [Deferred.Heap.settled_store clear]
    funext i
    exact Deferred.store_blk (own ▸ other)
  owner := .inl same
  grown := Nat.le_refl _
  wf := wf.store _ _
  live := same ▸ live
  kept b member _ := member

theorem sdsrange_rewritten (wf : h.Wf) (live : s.blk ∈ h.live)
    (terminated : h.settled s.blk s.len = NUL)
    (clear : ∀ access ∈ sdsrangeAccesses s pos, h.Clear access) :
    Rewritten h (sdsrange h s pos).1 s (sdsrange h s pos).2 ((s.bytes h.settled).drop pos) := by
  unfold sdsrange
  split
  · rename_i empty
    have nothing : (s.bytes h.settled).drop pos = s.bytes h.settled := by
      simp [Sds.bytes, slice, empty]
    rw [nothing]
    exact .refl wf live terminated
  · rename_i some
    simp only [sdsrangeAccesses, some, if_false, List.forall_mem_cons] at clear
    obtain ⟨readable, writable, -⟩ := clear
    have rewritten := store_rewritten (t := { s with len := s.len - pos })
      (f := fun i => if i < s.len - pos then h.mem s.blk (pos + i) else NUL)
      rfl wf live writable rfl (by
        rw [Deferred.store_at ⟨rfl, Nat.zero_le _, by simp⟩]
        simp)
    have reads : Sds.bytes (Deferred.store h.settled ⟨s.blk, 0, s.len - pos + 1⟩
        fun i => if i < s.len - pos then h.mem s.blk (pos + i) else NUL)
        { s with len := s.len - pos } = (s.bytes h.settled).drop pos := by
      rw [Sds.bytes, Sds.bytes, drop_slice, Nat.zero_add]
      have moved : slice (fun i => h.settled s.blk (pos + i)) 0 (s.len - pos) =
          slice (h.settled s.blk) pos s.len := by
        rw [slice_shift]
        by_cases inside : pos ≤ s.len
        · rw [Nat.add_sub_cancel' inside]
        · simp [slice, show s.len - pos = 0 by omega]
      rw [← moved]
      refine slice_congr fun j _ high => ?_
      have kept := Deferred.Heap.mem_eq_settled_of_clear readable (b := s.blk) (i := pos + j)
        ⟨rfl, Nat.le_add_right _ _, Nat.add_lt_add_left high _⟩
      have high : j < s.len - pos := high
      rw [Deferred.store_at ⟨rfl, Nat.zero_le _, by simp only; omega⟩]
      simp [high, kept]
    exact reads ▸ rewritten

theorem settled_moved (wf : h.Wf) (n : ℕ) : (moved h s n).settled =
    Deferred.store h.settled ⟨h.next, 0, n⟩ (h.mem s.blk) := by
  simp only [moved, Deferred.Heap.settled_release]
  exact Deferred.Heap.settled_store (h := h.claim) (wf.clear_fresh 0 n)

theorem moved_copied (wf : h.Wf) (readable : h.Clear (.read ⟨s.blk, 0, s.len + 1⟩))
    (long : s.len < n) (low : i ≤ s.len) :
    (moved h s n).settled h.next i = h.settled s.blk i := by
  rw [settled_moved wf, Deferred.store_at ⟨rfl, Nat.zero_le _, by simp only; omega⟩]
  exact Deferred.Heap.mem_eq_settled_of_clear readable ⟨rfl, Nat.zero_le _, by simp only; omega⟩

theorem moved_relocated (wf : h.Wf)
    (terminated : h.settled s.blk s.len = NUL)
    (clear : ∀ access ∈ movedAccesses s, h.Clear access) (long : s.len < n)
    (place : t.blk = h.next) (same : t.len = s.len) : Relocated h (moved h s n) s t := by
  simp only [movedAccesses, List.forall_mem_cons] at clear
  obtain ⟨readable, freeable, -⟩ := clear
  constructor
  · rw [Sds.bytes, Sds.bytes, place, same]
    exact slice_congr fun j _ high => (moved_copied wf readable long (by omega)).symm
  · rw [place, same, moved_copied wf readable long (Nat.le_refl _), terminated]
  · intro b old
    rw [settled_moved wf]
    funext i
    exact Deferred.store_blk (Nat.ne_of_lt old)
  · exact .inr (Nat.le_of_eq place.symm)
  · rw [place]
    exact Nat.lt_succ_self _
  · exact Nat.le_succ _
  · exact (wf.claim.store _ _).release fun b freed => List.mem_singleton.mp freed ▸ freeable
  · exact fun b member other => Deferred.Heap.mem_release.mpr
      ⟨List.mem_cons_of_mem _ member, fun freed => other (List.mem_singleton.mp freed)⟩

/-- A relocation of a string that is still live. -/
theorem Relocated.rewritten (moved : Relocated h h' s t) (live : t.blk ∈ h'.live) :
    Rewritten h h' s t (s.bytes h.settled) :=
  ⟨⟨moved.reads, fun b old _ => moved.frame b old, moved.owner, moved.grown, moved.wf, live,
    moved.kept⟩, moved.terminated⟩

theorem moved_live (n : ℕ) (named : s.blk < h.next) : h.next ∈ (moved h s n).live :=
  Deferred.Heap.mem_release.mpr ⟨List.mem_cons_self, fun freed =>
    Nat.ne_of_gt named (List.mem_singleton.mp freed)⟩

theorem sdsMakeRoomFor_rewritten (wf : h.Wf) (live : s.blk ∈ h.live)
    (terminated : h.settled s.blk s.len = NUL)
    (clear : ∀ access ∈ sdsMakeRoomForAccesses a s addlen, h.Clear access) (fits : s.len ≤ s.alloc) :
    Rewritten h (sdsMakeRoomFor a h s addlen).1 s (sdsMakeRoomFor a h s addlen).2
      (s.bytes h.settled) := by
  unfold sdsMakeRoomForAccesses at clear
  unfold sdsMakeRoomFor
  split
  · exact .refl wf live terminated
  · rename_i full
    rw [if_neg full] at clear
    dsimp only
    split
    · exact ⟨⟨rfl, fun _ _ _ => rfl, .inl rfl, Nat.le_refl _, wf, live,
        fun _ old _ => old⟩, terminated⟩
    · rename_i moves
      rw [if_neg moves] at clear
      have relocated := moved_relocated
        (t := ⟨h.next, s.len, usable (growingType (grownLen s addlen)) (grownLen s addlen) (a.slack 0),
          growingType (grownLen s addlen)⟩) wf terminated clear (Nat.lt_succ_of_le fits) rfl rfl
      exact relocated.rewritten (moved_live (s.alloc + 1) (wf.named _ live))

/-- There is room for `addlen` more bytes afterwards. -/
theorem sdsMakeRoomFor_room (fits : s.len ≤ s.alloc) (addlen : ℕ) :
    (sdsMakeRoomFor a h s addlen).2.len = s.len ∧
      s.len + addlen ≤ (sdsMakeRoomFor a h s addlen).2.alloc := by
  have room : s.len + addlen ≤
      usable (growingType (grownLen s addlen)) (grownLen s addlen) (a.slack 0) := by
    refine Nat.le_trans ?_ (le_usable _ _)
    unfold grownLen
    split <;> omega
  unfold sdsMakeRoomFor
  split
  · exact ⟨rfl, by dsimp only; omega⟩
  · dsimp only
    split <;> exact ⟨rfl, room⟩

theorem sdsMakeRoomFor_len (h : Heap) (s : Sds) (addlen : ℕ) :
    (sdsMakeRoomFor a h s addlen).2.len = s.len := by
  unfold sdsMakeRoomFor
  split
  · rfl
  · dsimp only
    split <;> rfl

theorem sdsMakeRoomFor_ring (h : Heap) (s : Sds) (addlen : ℕ) :
    (sdsMakeRoomFor a h s addlen).1.ring = h.ring := by
  unfold sdsMakeRoomFor
  split
  · rfl
  · dsimp only
    split <;> rfl

theorem clear_of_ring {access : Access} (clear : h.Clear access) (ring : h'.ring = h.ring) :
    h'.Clear access := by
  cases access <;> simpa only [Deferred.Heap.Clear, ring] using clear

/-- Bytes stored behind those of a string. -/
theorem bytes_appended (m : Mem UInt8) (s : Sds) (t : Bytes) :
    Sds.bytes (Deferred.store m ⟨s.blk, s.len, t.length + 1⟩ fun i => t.getD i NUL)
      { s with len := s.len + t.length } = s.bytes m ++ t := by
  rw [Sds.bytes, Sds.bytes, ← slice_append _ (Nat.zero_le s.len) (Nat.le_add_right _ _)]
  congr 1
  · refine slice_congr fun i _ low => Eq.symm (Deferred.store_off fun has => ?_)
    exact Nat.not_le_of_lt low has.2.1
  · refine List.ext_getElem (by simp only [length_slice]; omega) fun k left right => ?_
    rw [getElem_slice, Deferred.store_at ⟨rfl, Nat.le_add_right _ _, by dsimp only; omega⟩,
      Nat.add_sub_cancel_left, List.getD_eq_getElem?_getD, List.getElem?_eq_getElem right,
      Option.getD_some]

theorem sdscatlen_rewritten (wf : h.Wf) (live : s.blk ∈ h.live)
    (terminated : h.settled s.blk s.len = NUL)
    (clear : ∀ access ∈ sdscatlenAccesses a h s data, h.Clear access) (fits : s.len ≤ s.alloc) :
    Rewritten h (sdscatlen a h s data).1 s (sdscatlen a h s data).2
      (s.bytes h.settled ++ data) := by
  simp only [sdscatlenAccesses, List.forall_mem_append, List.forall_mem_singleton] at clear
  obtain ⟨moves, writes⟩ := clear
  have grown := sdsMakeRoomFor_rewritten wf live terminated moves fits
  have len := sdsMakeRoomFor_len (a := a) h s data.length
  have ring := sdsMakeRoomFor_ring (a := a) h s data.length
  unfold sdscatlen
  generalize sdsMakeRoomFor a h s data.length = room at grown len ring writes
  obtain ⟨h', t⟩ := room
  dsimp only at grown len ring writes ⊢
  rw [← len] at writes
  have stored := store_rewritten (t := { t with len := t.len + data.length })
    (f := fun i => data.getD i NUL) rfl grown.wf grown.live (clear_of_ring writes ring) rfl (by
      rw [Deferred.store_at ⟨rfl, by dsimp only; omega, by dsimp only; omega⟩]
      simp)
  rw [bytes_appended, grown.reads] at stored
  exact grown.trans wf stored

/-- Bytes stored among those of a string. -/
theorem bytes_overwritten (m : Mem UInt8) (s : Sds) (fits : off + data.length ≤ s.len) :
    Sds.bytes (Deferred.store m ⟨s.blk, off, data.length⟩ fun i => data.getD i NUL) s =
      (s.bytes m).take off ++ data ++ (s.bytes m).drop (off + data.length) := by
  refine List.ext_getElem ?_ fun k left right => ?_
  · simp only [length_bytes, List.length_append, List.length_take, List.length_drop]
    omega
  · simp only [length_bytes] at left
    simp only [Sds.bytes, getElem_slice, Nat.zero_add]
    have short : min off s.len = off := by omega
    by_cases before : k < off
    · rw [Deferred.store_off fun has => Nat.not_le_of_lt before has.2.1]
      simp [short, before, getElem_slice]
    · by_cases inside : k < off + data.length
      · have bound : k - off < data.length := by omega
        rw [Deferred.store_at ⟨rfl, Nat.le_of_not_lt before, inside⟩]
        simp [List.getElem_append, short, before, bound]
      · have past : ¬ k - off < data.length := by omega
        have place : off + data.length + (k - off - data.length) = k := by omega
        rw [Deferred.store_off fun has => inside has.2.2]
        simp [List.getElem_append, short, before, past, getElem_slice, place]

theorem sdscatlen_fits (fits : s.len ≤ s.alloc) (data : Bytes) :
    (sdscatlen a h s data).2.len ≤ (sdscatlen a h s data).2.alloc := by
  obtain ⟨len, room⟩ := sdsMakeRoomFor_room (h := h) (a := a) fits data.length
  simp only [sdscatlen, len]
  exact room

theorem sdscatlen_ring (h : Heap) (s : Sds) (data : Bytes) :
    (sdscatlen a h s data).1.ring = h.ring := sdsMakeRoomFor_ring h s data.length

theorem memcpyTo_ring (h : Heap) (s : Sds) (off : ℕ) (data : Bytes) :
    (memcpyTo h s off data).ring = h.ring := by
  unfold memcpyTo
  split <;> rfl

theorem sdsRemoveFreeSpace_ring (s : Sds) (regrow : Bool) :
    (sdsRemoveFreeSpace a h s regrow).1.ring = h.ring := by
  unfold sdsRemoveFreeSpace
  split
  · rfl
  · split <;> rfl

theorem memcpyTo_rewritten (wf : h.Wf) (live : s.blk ∈ h.live)
    (terminated : h.settled s.blk s.len = NUL)
    (clear : ∀ access ∈ memcpyToAccesses s off data, h.Clear access) :
    Rewritten h (memcpyTo h s off data) s s (overwritten (s.bytes h.settled) off data) := by
  unfold memcpyToAccesses at clear
  unfold memcpyTo overwritten
  rw [length_bytes]
  split
  · rename_i fits
    rw [if_pos fits, List.forall_mem_singleton] at clear
    have closed : Deferred.store h.settled ⟨s.blk, off, data.length⟩ (fun i => data.getD i NUL)
        s.blk s.len = NUL := by
      rw [Deferred.store_off fun has => ?_, terminated]
      exact Nat.not_le_of_lt has.2.2 fits
    have stored := store_rewritten rfl wf live clear rfl closed
    rwa [bytes_overwritten _ _ fits] at stored
  · exact .refl wf live terminated

theorem Relocated.refl (wf : h.Wf) (named : s.blk < h.next)
    (terminated : h.settled s.blk s.len = NUL) : Relocated h h s s :=
  ⟨rfl, terminated, fun _ _ => rfl, .inl rfl, named, Nat.le_refl _, wf, fun _ old _ => old⟩

/-- Storing a terminator over the terminator. -/
theorem Relocated.terminate (moved : Relocated h h' s t) (same : u.blk = t.blk)
    (length : u.len = t.len) (clear : h'.Clear (.write ⟨t.blk, t.len, 1⟩)) :
    Relocated h (h'.store ⟨t.blk, t.len, 1⟩ terminator) s u := by
  have settled : (h'.store ⟨t.blk, t.len, 1⟩ terminator).settled = h'.settled := by
    rw [Deferred.Heap.settled_store clear]
    funext b i
    by_cases has : (⟨t.blk, t.len, 1⟩ : Span).Has b i
    · obtain ⟨rfl, low, high⟩ := has
      have here : i = t.len := by
        simp only at low high
        omega
      rw [Deferred.store_at ⟨rfl, low, high⟩, here, moved.terminated]
      rfl
    · exact Deferred.store_off has
  refine ⟨?_, ?_, ?_, ?_, ?_, moved.grown, moved.wf.store _ _, moved.kept⟩
  · rw [settled, Sds.bytes, same, length]
    exact moved.reads
  · rw [settled, same, length, moved.terminated]
  · rw [settled]
    exact moved.frame
  · rw [same]
    exact moved.owner
  · rw [same]
    exact moved.named

theorem sdsRemoveFreeSpace_relocated (regrow : Bool) (wf : h.Wf) (named : s.blk < h.next)
    (terminated : h.settled s.blk s.len = NUL)
    (clear : ∀ access ∈ sdsRemoveFreeSpaceAccesses a s, h.Clear access) :
    Relocated h (sdsRemoveFreeSpace a h s regrow).1 s (sdsRemoveFreeSpace a h s regrow).2 := by
  unfold sdsRemoveFreeSpaceAccesses at clear
  unfold sdsRemoveFreeSpace
  split
  · exact .refl wf named terminated
  · rename_i wasteful
    rw [if_neg wasteful] at clear
    split
    · rename_i inPlace
      rw [if_pos inPlace, List.forall_mem_cons] at clear
      exact (Relocated.refl wf named terminated).terminate rfl rfl clear.1
    · rename_i moves
      rw [if_neg moves] at clear
      have relocated := moved_relocated (t := ⟨h.next, s.len, s.len, resizedType s regrow⟩) wf
        terminated clear (Nat.lt_succ_self _) rfl rfl
      exact relocated.terminate rfl rfl fun t member => wf.clear_fresh s.len 1 t member

/-- A live string is live after it was cut down to its length. -/
theorem sdsRemoveFreeSpace_rewritten (regrow : Bool) (wf : h.Wf) (live : s.blk ∈ h.live)
    (terminated : h.settled s.blk s.len = NUL)
    (clear : ∀ access ∈ sdsRemoveFreeSpaceAccesses a s, h.Clear access) :
    Rewritten h (sdsRemoveFreeSpace a h s regrow).1 s (sdsRemoveFreeSpace a h s regrow).2
      (s.bytes h.settled) := by
  refine (sdsRemoveFreeSpace_relocated regrow wf (wf.named _ live) terminated clear).rewritten ?_
  unfold sdsRemoveFreeSpace
  split
  · exact live
  · split
    · exact live
    · exact moved_live (s.len + 1) (wf.named _ live)

theorem sdsRemoveFreeSpace_fits (fits : s.len ≤ s.alloc) :
    (sdsRemoveFreeSpace a h s regrow).2.len ≤ (sdsRemoveFreeSpace a h s regrow).2.alloc := by
  unfold sdsRemoveFreeSpace
  split
  · exact fits
  · split <;> exact Nat.le_refl _

/-- The terminator goes behind what the copy will fill. -/
theorem sdsnewlenCopyer_clear (named : h.Named) (owned : src < h.next) (off n : ℕ) :
    (h.claim.submit (.copy h.next 0 src off (intLength n))).Clear (.write ⟨h.next, n, 1⟩) := by
  intro t member
  rcases List.mem_append.mp member with old | new
  · exact named.clear_fresh n 1 t old
  · rw [List.mem_singleton.mp new]
    refine ⟨fun overlap => ?_, Deferred.Span.not_overlaps_blk (Nat.ne_of_lt owned)⟩
    have := overlap.2.2.1
    have := intLength_le n
    simp only [Task.writes] at *
    omega

theorem sdsnewlenCopyer_created (off : ℕ) (wf : h.Wf) (live : src ∈ h.live) (short : n < 2 ^ 31) :
    Created h (sdsnewlenCopyer a h src off n).1 (sdsnewlenCopyer a h src off n).2
      (slice (h.settled src) off (off + n)) := by
  have wf' : (h.claim.submit (.copy h.next 0 src off (intLength n))).Wf :=
    wf.claim.submit List.mem_cons_self (List.mem_cons_of_mem _ live)
  have clear := sdsnewlenCopyer_clear wf.endpoints (wf.named _ live) off n
  have settled : (sdsnewlenCopyer a h src off n).1.settled =
      Deferred.store ((Task.copy h.next 0 src off n : Task UInt8 ℕ).apply h.settled)
        ⟨h.next, n, 1⟩ terminator := by
    simp only [sdsnewlenCopyer]
    rw [Deferred.Heap.settled_store clear, Deferred.Heap.settled_submit,
      Deferred.Heap.settled_claim, intLength_eq short]
  refine ⟨?_, ?_, rfl, rfl, fun b named => ?_, wf'.store _ _,
    fun b member => List.mem_cons_of_mem _ member⟩
  · rw [Sds.bytes, settled, ← slice_shift]
    refine slice_congr fun i _ low => ?_
    have low : i < n := low
    have outside : ¬ (⟨h.next, n, 1⟩ : Span).Has h.next i := by
      intro has
      have := has.2.1
      simp only at this
      omega
    have copied : (Task.copy h.next 0 src off n : Task UInt8 ℕ).apply h.settled h.next i =
        h.settled src (off + (i - 0)) := Task.apply_copy_at (Nat.zero_le _) (by omega)
    simp only [sdsnewlenCopyer]
    rw [Deferred.store_off outside, copied, Nat.sub_zero]
  · refine ⟨List.mem_cons_self, le_usable_newlen n _, ?_⟩
    rw [settled]
    exact Deferred.store_at ⟨rfl, Nat.le_refl _, Nat.lt_succ_self _⟩
  · rw [settled]
    funext i
    rw [Deferred.store_blk (Nat.ne_of_lt named)]
    exact Task.apply_off fun has => Nat.ne_of_lt named has.1

theorem sdsnewlenCleared_settled (a : Allocation) (wf : h.Wf) (size : ℕ) :
    (sdsnewlenCleared a h size).1.settled = Deferred.store h.settled ⟨h.next, 0, 1⟩ terminator := by
  have clear : h.claim.Clear (.write ⟨h.next, 0, 1⟩) :=
    fun t member => wf.clear_fresh 0 1 t member
  exact Deferred.Heap.settled_store clear

theorem sdsnewlenCleared_created (wf : h.Wf) (size : ℕ) :
    Created h (sdsnewlenCleared a h size).1 (sdsnewlenCleared a h size).2 [] where
  reads := rfl
  sound := by
    refine ⟨List.mem_cons_self, Nat.zero_le _, ?_⟩
    rw [sdsnewlenCleared_settled a wf]
    exact Deferred.store_at ⟨rfl, Nat.le_refl _, Nat.lt_succ_self _⟩
  blk := rfl
  next := rfl
  frame b named := by
    rw [sdsnewlenCleared_settled a wf]
    funext i
    exact Deferred.store_blk (Nat.ne_of_lt named)
  wf := wf.claim.store _ _
  kept b member := List.mem_cons_of_mem _ member

end Rewriting
end Copier.Redis
