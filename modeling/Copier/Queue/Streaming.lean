import Copier.Foundation.Runs
import Mathlib.Algebra.Group.Int.Defs
import Mathlib.Algebra.Ring.Nat

/-! The streaming copy of `copier.c` and `copier.cc`, which have it word for word: bytes
are copied out of a buffer as far as its descriptor has come, until all are copied. -/
namespace Copier.Queue.Streaming

abbrev Bytes := ℕ → UInt8

/-- One look at the descriptor, with the buffer as it is then. -/
structure Observed where
  bufferDescriptor : BitVec 64
  src_io_base : Bytes

/-- What one `memcpy` reads, and the descriptor that was seen before it. -/
structure Chunk where
  from_offset : BitVec 32
  size : BitVec 32
  seen : BitVec 64

inductive Phase
  | waiting
  | copying
  | done
deriving DecidableEq

/-- The memory at `dst`, the locals, and the copies made so far as history. -/
structure World where
  dst : Bytes
  from_offset : BitVec 32
  to_addr : ℕ
  sizeRecord : BitVec 32
  chunks : List Chunk
  phase : Phase

section Function
variable (srcOffset n : BitVec 64)

def init (dst : Bytes) : World := ⟨dst, srcOffset.setWidth 32, 0, 0, [], .waiting⟩

def target_from_offset : BitVec 32 := (srcOffset + n - 1).setWidth 32

/-- `memcpy`, with what both branches do around it. -/
def World.memcpy (x : World) (o : Observed) (size : BitVec 32) : World :=
  { x with
    dst := fun i =>
      if x.to_addr ≤ i ∧ i < x.to_addr + size.toNat then
        o.src_io_base (x.from_offset.toNat + (i - x.to_addr))
      else x.dst i
    sizeRecord := x.sizeRecord + size
    chunks := x.chunks ++ [⟨x.from_offset, size, o.bufferDescriptor⟩] }

/-- One turn of the first or of the second loop. The descriptor is compared as a `long`, then
read as an `unsigned long`. -/
def smartInputDescriptorBufferMemcpyNoRedirect (x : World) (o : Observed) : Option World :=
  match x.phase with
  | .waiting =>
      if o.bufferDescriptor.toInt < (srcOffset.setWidth 32).toInt then some x
      else some { x with phase := .copying }
  | .copying =>
      let currentDescriptor := o.bufferDescriptor
      if (target_from_offset srcOffset n).toNat ≤ currentDescriptor.toNat then
        let size := target_from_offset srcOffset n - x.from_offset + 1
        some { x.memcpy o size with phase := .done }
      else
        let size := (currentDescriptor - x.from_offset.setWidth 64 + 1).setWidth 32
        some { x.memcpy o size with
          from_offset := x.from_offset + size
          to_addr := x.to_addr + size.toNat }
  | .done => none

end Function

/-- The bytes were there when they were copied. -/
def Chunk.Arrived (c : Chunk) : Prop :=
  ∀ i, c.from_offset.toNat ≤ i → i < c.from_offset.toNat + c.size.toNat → (i : Int) ≤ c.seen.toInt

/-- The first `m` bytes at `dst` are those from `srcOffset` on, the others as before. -/
structure Filled (bytes dst dst' : Bytes) (srcOffset m : ℕ) : Prop where
  inside : ∀ i < m, dst' i = bytes (srcOffset + i)
  outside : ∀ i, m ≤ i → dst' i = dst i

/-- The copy is complete. -/
structure Exact (bytes dst : Bytes) (srcOffset n : ℕ) (x : World) : Prop where
  filled : Filled bytes dst x.dst srcOffset n
  recorded : x.sizeRecord.toNat = n
  sizes : (x.chunks.map fun c => c.size.toNat).sum = n
  arrived : ∀ c ∈ x.chunks, c.Arrived

/-- `m` bytes are copied, and the descriptor was last seen behind them. -/
structure Copied (bytes dst : Bytes) (srcOffset m : ℕ) (last : Int) (x : World) : Prop
    extends Exact bytes dst srcOffset m x where
  from_offset : x.from_offset.toNat = srcOffset + m
  to_addr : x.to_addr = m
  seen : 0 ≤ last
  behind : ((srcOffset + m : ℕ) : Int) ≤ last + 1

def Inv (bytes dst : Bytes) (srcOffset n : BitVec 64) (last : Int) (x : World) : Prop :=
  match x.phase with
  | .waiting => x = init srcOffset dst
  | .copying => ∃ m < n.toNat, Copied bytes dst srcOffset.toNat m last x
  | .done => Exact bytes dst srcOffset.toNat n.toNat x

section Copy
variable {bytes dst : Bytes} {srcOffset n : BitVec 64} {last : Int} {x x' : World} {o : Observed}

/-- One more `memcpy`, of bytes that have arrived. -/
theorem Copied.memcpy {m off : ℕ} (copied : Copied bytes dst off m last x) (size : BitVec 32)
    (fits : m + size.toNat < 2 ^ 32)
    (there : ((off + m + size.toNat : ℕ) : Int) ≤ o.bufferDescriptor.toInt + 1)
    (source : ∀ i : ℕ, (i : Int) ≤ o.bufferDescriptor.toInt → o.src_io_base i = bytes i) :
    Exact bytes dst off (m + size.toNat) (x.memcpy o size) := by
  have place := copied.from_offset
  have start := copied.to_addr
  refine ⟨⟨?_, ?_⟩, ?_, ?_, ?_⟩
  · intro i bound
    simp only [World.memcpy, place, start]
    split_ifs with new
    · have same : off + m + (i - m) = off + i := by omega
      rw [same, source _ (by omega)]
    · exact copied.filled.inside i (by omega)
  · intro i beyond
    simp only [World.memcpy, start]
    rw [if_neg (by omega)]
    exact copied.filled.outside i (by omega)
  · simp only [World.memcpy, BitVec.toNat_add, copied.recorded]
    exact Nat.mod_eq_of_lt fits
  · simp [World.memcpy, copied.sizes]
  · intro c member
    rcases List.mem_append.mp member with old | new
    · exact copied.arrived c old
    · cases List.mem_singleton.mp new
      intro i low high
      simp only [place] at low high
      simp only
      omega

theorem target_toNat (positive : 1 ≤ n.toNat) (fits : srcOffset.toNat + n.toNat ≤ 2 ^ 31) :
    (target_from_offset srcOffset n).toNat = srcOffset.toNat + n.toNat - 1 := by
  have one : (1 : BitVec 64).toNat = 1 := rfl
  simp only [target_from_offset, BitVec.toNat_setWidth, BitVec.toNat_sub, BitVec.toNat_add, one]
  omega

theorem narrowed_toNat (fits : srcOffset.toNat < 2 ^ 31) :
    (srcOffset.setWidth 32).toNat = srcOffset.toNat ∧
      (srcOffset.setWidth 32).toInt = srcOffset.toNat := by
  have narrow : (srcOffset.setWidth 32).toNat = srcOffset.toNat := by
    rw [BitVec.toNat_setWidth]
    exact Nat.mod_eq_of_lt (by omega)
  refine ⟨narrow, ?_⟩
  rw [BitVec.toInt_eq_toNat_cond, narrow, if_pos (by omega)]

/-- The first loop is left when the first byte has arrived. -/
theorem Copied.start (fits : srcOffset.toNat < 2 ^ 31)
    (seen : ¬ last < (srcOffset.setWidth 32).toInt) :
    Copied bytes dst srcOffset.toNat 0 last { init srcOffset dst with phase := .copying } where
  filled := ⟨fun _ bound => absurd bound (Nat.not_lt_zero _), fun _ _ => rfl⟩
  recorded := rfl
  sizes := rfl
  arrived := by
    intro c member
    cases member
  from_offset := (narrowed_toNat fits).1
  to_addr := rfl
  seen := by
    rw [(narrowed_toNat fits).2] at seen
    omega
  behind := by
    rw [(narrowed_toNat fits).2] at seen
    omega

theorem toNat_of_nonneg {d : BitVec 64} (nonneg : 0 ≤ d.toInt) : (d.toNat : Int) = d.toInt := by
  rw [BitVec.toInt_eq_toNat_cond] at nonneg ⊢
  split at nonneg
  · rw [if_pos ‹_›]
  · have := d.isLt
    omega

/-- One turn. -/
theorem Inv.step (inv : Inv bytes dst srcOffset n last x) (positive : 1 ≤ n.toNat)
    (fits : srcOffset.toNat + n.toNat ≤ 2 ^ 31) (grows : last ≤ o.bufferDescriptor.toInt)
    (source : ∀ i : ℕ, (i : Int) ≤ o.bufferDescriptor.toInt → o.src_io_base i = bytes i)
    (stepped : smartInputDescriptorBufferMemcpyNoRedirect srcOffset n x o = some x') :
    Inv bytes dst srcOffset n o.bufferDescriptor.toInt x' := by
  have target := target_toNat positive fits
  unfold smartInputDescriptorBufferMemcpyNoRedirect at stepped
  cases phase : x.phase with
  | waiting =>
    simp only [Inv, phase] at inv stepped
    subst inv
    split_ifs at stepped with behind
    · cases stepped
      rfl
    · cases stepped
      exact ⟨0, by omega, .start (by omega) behind⟩
  | copying =>
    simp only [Inv, phase] at inv stepped
    obtain ⟨m, short, copied⟩ := inv
    have place := copied.from_offset
    have seen := copied.seen
    have behind := copied.behind
    have unsigned := toNat_of_nonneg (Int.le_trans seen grows)
    have one : (1 : BitVec 32).toNat = 1 := rfl
    split_ifs at stepped with reached
    · cases stepped
      have size : (target_from_offset srcOffset n - x.from_offset + 1).toNat = n.toNat - m := by
        simp only [BitVec.toNat_add, BitVec.toNat_sub, target, place, one]
        omega
      have all := copied.memcpy (o := o) (target_from_offset srcOffset n - x.from_offset + 1)
        (by omega) (by omega) source
      have total : m + (n.toNat - m) = n.toNat := by omega
      rw [size, total] at all
      exact ⟨all.filled, all.recorded, all.sizes, all.arrived⟩
    · cases stepped
      have size : ((o.bufferDescriptor - x.from_offset.setWidth 64 + 1).setWidth 32 : BitVec 32).toNat =
          o.bufferDescriptor.toNat + 1 - (srcOffset.toNat + m) := by
        have one : (1 : BitVec 64).toNat = 1 := rfl
        have wide : (x.from_offset.setWidth 64).toNat = srcOffset.toNat + m := by
          rw [BitVec.toNat_setWidth, place]
          exact Nat.mod_eq_of_lt (by omega)
        simp only [BitVec.toNat_setWidth, BitVec.toNat_add, BitVec.toNat_sub, wide, one]
        omega
      generalize ((o.bufferDescriptor - x.from_offset.setWidth 64 + 1).setWidth 32 : BitVec 32) = size'
        at size ⊢
      have more := copied.memcpy (o := o) size' (by omega) (by omega) source
      simp only [Inv, World.memcpy, phase]
      refine ⟨m + size'.toNat, by omega,
        ⟨more.filled, more.recorded, more.sizes, more.arrived⟩, ?_, ?_, ?_, ?_⟩
      · rw [BitVec.toNat_add, place, Nat.mod_eq_of_lt (by omega), Nat.add_assoc]
      · simp only [copied.to_addr]
      · omega
      · omega
  | done =>
    simp only [phase] at stepped
    cases stepped

/-- A turn is taken unless the copy is done, and looks at the descriptor. -/
theorem turn (srcOffset n : BitVec 64) (o : Observed) (more : x.phase ≠ .done) :
    ∃ x', smartInputDescriptorBufferMemcpyNoRedirect srcOffset n x o = some x' ∧
      (x'.phase = .waiting → x.phase = .waiting ∧
        o.bufferDescriptor.toInt < (srcOffset.setWidth 32).toInt) ∧
      (x'.phase = .copying → x.phase = .waiting ∨
        o.bufferDescriptor.toNat < (target_from_offset srcOffset n).toNat) := by
  unfold smartInputDescriptorBufferMemcpyNoRedirect
  cases phase : x.phase with
  | waiting =>
    dsimp only
    split_ifs with behind
    · exact ⟨x, rfl, fun _ => ⟨rfl, behind⟩, fun copying => by rw [phase] at copying; cases copying⟩
    · exact ⟨_, rfl, fun waiting => (by cases waiting), fun _ => .inl rfl⟩
  | copying =>
    dsimp only
    split_ifs with reached
    · exact ⟨_, rfl, fun waiting => (by cases waiting), fun copying => (by cases copying)⟩
    · refine ⟨_, rfl, fun waiting => ?_, fun _ => .inr (Nat.lt_of_not_le reached)⟩
      simp only [World.memcpy, phase] at waiting
      cases waiting
  | done => exact absurd phase more

section Sequence
variable {looks : ℕ → Observed}

/-- What is known after the first `k` looks, if the `j`-th one sees the last byte. -/
def Upto (bytes dst : Bytes) (srcOffset n : BitVec 64) (looks : ℕ → Observed) (j k : ℕ) : Prop :=
  ∃ x, Runs.run (smartInputDescriptorBufferMemcpyNoRedirect srcOffset n) (init srcOffset dst)
      ((List.range k).map looks) = some x ∧
    (∃ last, Inv bytes dst srcOffset n last x ∧ ∀ i, k ≤ i → last ≤ (looks i).bufferDescriptor.toInt) ∧
    (x.phase = .waiting → k ≤ j) ∧ (x.phase = .copying → k ≤ j + 1)

theorem Upto.next {j k : ℕ} (upto : Upto bytes dst srcOffset n looks j k) (positive : 1 ≤ n.toNat)
    (fits : srcOffset.toNat + n.toNat ≤ 2 ^ 31)
    (grows : ∀ i j, i ≤ j → (looks i).bufferDescriptor.toInt ≤ (looks j).bufferDescriptor.toInt)
    (source : ∀ k (i : ℕ), (i : Int) ≤ (looks k).bufferDescriptor.toInt →
      (looks k).src_io_base i = bytes i)
    (reaches : ((srcOffset.toNat + n.toNat : ℕ) : Int) ≤ (looks j).bufferDescriptor.toInt + 1) :
    (∃ x, Runs.run (smartInputDescriptorBufferMemcpyNoRedirect srcOffset n) (init srcOffset dst)
      ((List.range k).map looks) = some x ∧ x.phase = .done ∧
        Exact bytes dst srcOffset.toNat n.toNat x) ∨
    Upto bytes dst srcOffset n looks j (k + 1) := by
  obtain ⟨x, ran, ⟨last, inv, later⟩, waits, copies⟩ := upto
  by_cases done : x.phase = .done
  · refine .inl ⟨x, ran, done, ?_⟩
    simpa only [Inv, done] using inv
  · obtain ⟨x', stepped, waiting, copying⟩ := turn srcOffset n (looks k) done
    have longer : (List.range (k + 1)).map looks = (List.range k).map looks ++ [looks k] := by
      rw [List.range_succ, List.map_append, List.map_singleton]
    refine .inr ⟨x', longer ▸ Runs.run_snoc ran stepped, ⟨_,
      inv.step positive fits (later k (Nat.le_refl _)) (source k) stepped,
      fun i after => grows k i (by omega)⟩, ?_, ?_⟩
    · intro still
      obtain ⟨before, behind⟩ := waiting still
      have bound := waits before
      rw [(narrowed_toNat (by omega)).2] at behind
      have other : k ≠ j := by
        rintro rfl
        omega
      omega
    · intro going
      rcases copying going with before | behind
      · have bound := waits before
        omega
      · rw [target_toNat positive fits] at behind
        by_contra late
        have after := grows j k (by omega)
        have unsigned := toNat_of_nonneg (d := (looks k).bufferDescriptor) (by omega)
        omega

/-- The copy ends, and is exact, however the bytes arrive. -/
theorem streaming_copy_exact (positive : 1 ≤ n.toNat) (fits : srcOffset.toNat + n.toNat ≤ 2 ^ 31)
    (grows : ∀ i j, i ≤ j → (looks i).bufferDescriptor.toInt ≤ (looks j).bufferDescriptor.toInt)
    (source : ∀ k (i : ℕ), (i : Int) ≤ (looks k).bufferDescriptor.toInt →
      (looks k).src_io_base i = bytes i)
    (reaches : ∃ j, ((srcOffset.toNat + n.toNat : ℕ) : Int) ≤ (looks j).bufferDescriptor.toInt + 1) :
    ∃ k x, Runs.run (smartInputDescriptorBufferMemcpyNoRedirect srcOffset n) (init srcOffset dst)
        ((List.range k).map looks) = some x ∧ x.phase = .done ∧
      Exact bytes dst srcOffset.toNat n.toNat x := by
  obtain ⟨j, reaches⟩ := reaches
  by_contra unfinished
  have upto : ∀ k, Upto bytes dst srcOffset n looks j k := by
    intro k
    induction k with
    | zero =>
      refine ⟨init srcOffset dst, rfl,
        ⟨(looks 0).bufferDescriptor.toInt, rfl, fun i _ => grows 0 i (Nat.zero_le i)⟩, ?_, ?_⟩
      · exact fun _ => Nat.zero_le j
      · exact fun _ => Nat.zero_le (j + 1)
    | succ k ih =>
      rcases ih.next positive fits grows source reaches with ⟨x, finished⟩ | more
      · exact absurd ⟨k, x, finished⟩ unfinished
      · exact more
  obtain ⟨x, ran, ⟨last, inv, -⟩, waits, copies⟩ := upto (j + 2)
  cases phase : x.phase with
  | waiting =>
    have bound := waits phase
    omega
  | copying =>
    have bound := copies phase
    omega
  | done =>
    simp only [Inv, phase] at inv
    exact unfinished ⟨j + 2, x, ran, phase, inv⟩

end Sequence
end Copy

/-- Nothing has arrived, then two bytes, then ten, seen two looks at a time. -/
def slowly (k : ℕ) : Observed :=
  let arrived := if k < 2 then 0 else if k < 4 then 2 else 10
  ⟨BitVec.ofNat 64 arrived - 1, fun i => if i < arrived then 7 else 0⟩

theorem slowly_seen (k : ℕ) : (slowly k).bufferDescriptor.toInt =
    if k < 2 then -1 else if k < 4 then 1 else 9 := by
  unfold slowly
  split_ifs <;> rfl

theorem slowly_exact : ∃ k x,
    Runs.run (smartInputDescriptorBufferMemcpyNoRedirect 1 3) (init 1 fun _ => 0)
      ((List.range k).map slowly) = some x ∧ x.phase = .done ∧
    Exact (fun _ => 7) (fun _ => 0) 1 3 x := by
  refine streaming_copy_exact (by decide) (by decide) (fun i j before => ?_) (fun k i passed => ?_)
    ⟨4, by decide⟩
  · rw [slowly_seen, slowly_seen]
    split_ifs <;> omega
  · rw [slowly_seen] at passed
    simp only [slowly]
    split_ifs at passed ⊢ <;> first | rfl | omega

end Copier.Queue.Streaming
