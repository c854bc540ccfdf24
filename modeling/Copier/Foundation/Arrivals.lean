import Copier.Foundation.Deferred

/-! Bytes that arrive in a buffer after the call that receives them has returned. The
service keeps a descriptor: the index, from the start of the buffer that the receive named,
of the byte that arrived last. A receive sets it back to the byte before its first one, in
the 64 bits of a `size_t` that become a `long`. -/
namespace Copier.Deferred
variable {β : Type}

/-- A receive is tagged with the start of its buffer. -/
structure Inbox (β : Type) where
  heap : Heap β ℕ
  descriptor : Int

/-- No pending task is going to write this cell. -/
def Heap.Arrived {τ : Type} (h : Heap β τ) (b i : ℕ) : Prop := ∀ t ∈ h.ring, ¬ t.writes.Has b i

instance {τ : Type} (h : Heap β τ) (b i : ℕ) : Decidable (h.Arrived b i) := List.decidableBAll _ _

namespace Inbox

def receive (x : Inbox β) (blk base offset : ℕ) (data : List β) : Inbox β where
  heap := if data = [] then x.heap else x.heap.submit (.recv base blk (base + offset) data)
  descriptor := ((offset : Int) - 1).bmod (2 ^ 64)

def serve [Inhabited β] (x : Inbox β) : Option (Inbox β) :=
  x.heap.serve.map fun (h, report) => match report with
    | some (base, i) => ⟨h, (i : Int) - base⟩
    | none => ⟨h, x.descriptor⟩

/-- From `base` on these bytes are there, the last one where the descriptor says, and of the
others the service knows. -/
structure Behind (x : Inbox β) (blk base : ℕ) (arrived left : List β) : Prop where
  ring : x.heap.ring = if left = [] then [] else [.recv base blk (base + arrived.length) left]
  descriptor : x.descriptor + 1 = arrived.length
  bytes : contents x.heap.mem ⟨blk, base, arrived.length⟩ = arrived

section Behind
variable {x y : Inbox β} {blk base : ℕ} {arrived left : List β}

/-- A receive goes on where everything before has arrived. -/
theorem receive_behind (drained : x.heap.ring = [])
    (bytes : contents x.heap.mem ⟨blk, base, arrived.length⟩ = arrived)
    (small : arrived.length < 2 ^ 63)
    (data : List β) :
    (x.receive blk base arrived.length data).Behind blk base arrived data where
  ring := by
    by_cases none_ : data = []
    · simp [receive, none_, drained]
    · simp [receive, none_, Heap.submit, drained]
  descriptor := by
    have exact_ :=
      Int.bmod_eq_of_le (n := (arrived.length : Int) - 1) (m := 2 ^ 64) (by omega) (by omega)
    simp only [receive, exact_]
    omega
  bytes := by
    unfold receive
    dsimp only
    split <;> exact bytes

theorem Behind.serve [Inhabited β] (behind : x.Behind blk base arrived left)
    (served : x.serve = some y) :
    ∃ d rest, left = d :: rest ∧ y.Behind blk base (arrived ++ [d]) rest := by
  have ring := behind.ring
  cases left with
  | nil =>
    rw [if_pos rfl] at ring
    simp [Inbox.serve, Heap.serve, ring] at served
  | cons d rest =>
    rw [if_neg (List.cons_ne_nil _ _)] at ring
    simp only [Inbox.serve, Heap.serve, ring, Option.map_some, Option.some.injEq] at served
    subst served
    refine ⟨d, rest, rfl, ?_, ?_, ?_⟩
    · cases rest <;> simp [Nat.add_assoc]
    · simp only [List.length_append, List.length_singleton]
      omega
    · have grown := contents_grow behind.bytes base [d]
      rw [Heap.recv_cons, Heap.recv_nil] at grown
      rw [List.length_append]
      exact grown

theorem Behind.drained_iff (behind : x.Behind blk base arrived left) : x.heap.ring = [] ↔ left = [] := by
  rw [behind.ring]
  constructor
  · intro drained
    split at drained
    · assumption
    · cases drained
  · intro none_
    exact if_pos none_

/-- The descriptor is behind exactly the bytes that have arrived. -/
theorem Behind.arrived_iff (behind : x.Behind blk base arrived left)
    (bound : i < arrived.length + left.length) :
    (i : Int) ≤ x.descriptor ↔ x.heap.Arrived blk (base + i) := by
  have descriptor := behind.descriptor
  constructor
  · intro reached t member has
    rw [behind.ring] at member
    split at member
    · cases member
    · cases List.mem_singleton.mp member
      have low := has.2.1
      simp only [Task.writes] at low
      omega
  · intro there
    by_contra beyond
    have some_ : left ≠ [] := by
      rintro rfl
      simp only [List.length_nil] at bound
      omega
    refine there _ (by rw [behind.ring, if_neg some_]; exact List.mem_singleton_self _) ⟨rfl, ?_, ?_⟩
    · simp only [Task.writes]
      omega
    · simp only [Task.writes]
      omega

/-- What the descriptor has passed is there. -/
theorem Behind.byte (behind : x.Behind blk base arrived left) (bound : i < (arrived ++ left).length)
    (passed : (i : Int) ≤ x.descriptor) :
    x.heap.mem blk (base + i) = (arrived ++ left).get ⟨i, bound⟩ := by
  have descriptor := behind.descriptor
  have inside : i < arrived.length := by omega
  rw [contents_cell behind.bytes inside, List.get_eq_getElem, List.getElem_append_left inside]

/-- Once the last byte is there, all are. -/
theorem Behind.drained_of_last (behind : x.Behind blk base arrived left)
    (last : x.heap.Arrived blk (base + (arrived.length + left.length - 1))) : x.heap.ring = [] := by
  apply behind.drained_iff.mpr
  by_contra some_
  have more := List.length_pos_of_ne_nil some_
  have reached := (behind.arrived_iff (by omega)).mpr last
  have descriptor := behind.descriptor
  omega

end Behind
end Inbox
end Copier.Deferred
