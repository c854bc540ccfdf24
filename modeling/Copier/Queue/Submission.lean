import Copier.Foundation.Ring
import Copier.Foundation.Runs
import Mathlib.Algebra.Group.Int.Defs
import Mathlib.Algebra.Ring.Nat

/-! The submission of copies. Four functions store a copy in the slot at the
write index of a shared ring and advance that index; none looks at the read
index. The service performs the entry at the read index while the two differ.
Every ring has one submitting thread, or a mutex around the submission. -/
namespace Copier.Queue

/-- What a caller asks for; the length is a `size_t`. -/
structure Copy where
  dst : ℕ
  src : ℕ
  n : ℕ

/-- What the service copies. -/
structure Moved where
  dst : ℕ
  src : ℕ
  length : Int
deriving DecidableEq

def Copy.asked (c : Copy) : Moved := ⟨c.dst, c.src, c.n⟩

/-- A `size_t` stored in an `int`. -/
def toInt (n : ℕ) : Int := (BitVec.ofNat 32 n).toInt

/-- A `size_t` stored in a `long`. -/
def toLong (n : ℕ) : Int := (BitVec.ofNat 64 n).toInt

theorem toInt_eq_iff (n : ℕ) : toInt n = n ↔ n < 2 ^ 31 := by
  rw [toInt, BitVec.toInt_eq_toNat_cond, BitVec.toNat_ofNat]
  split <;> omega

theorem toLong_eq_iff (n : ℕ) : toLong n = n ↔ n < 2 ^ 63 := by
  rw [toLong, BitVec.toInt_eq_toNat_cond, BitVec.toNat_ofNat]
  split <;> omega

namespace CopierSet

def DEFUALT_CP_ENTRY_NUM : ℕ := 4096
def DEFUALT_CP_IN_ENTRY_NUM : ℕ := 4096
def TYPE_SIMPLE_COPY : ℕ := 5

structure CpEntry where
  from_va : ℕ
  to_va : ℕ
  length : Int
  type : ℕ

structure CpInEntry where
  from_va : ℕ
  to_va : ℕ
  length : Int
  type : ℕ

def smartInputDescriptorBufferMemcpyAsync (q : Ring DEFUALT_CP_ENTRY_NUM CpEntry)
    (dst src n : ℕ) : Ring DEFUALT_CP_ENTRY_NUM CpEntry :=
  q.push { type := TYPE_SIMPLE_COPY, length := toInt n, from_va := src, to_va := dst }

def smartInputDescriptorBufferMemcpyAsyncSend (q : Ring DEFUALT_CP_IN_ENTRY_NUM CpInEntry)
    (dst src n : ℕ) : Ring DEFUALT_CP_IN_ENTRY_NUM CpInEntry :=
  q.push { type := TYPE_SIMPLE_COPY, length := toLong n, from_va := src, to_va := dst }

end CopierSet

namespace MultiClient

def QUEUE_LEN : ℕ := 512
def TYPE_SIMPLE_COPY : ℕ := 4
def STATUS_WAITING : ℕ := 1

structure CpTask where
  from_va_base : ℕ
  from_va : ℕ
  to_va_base : ℕ
  to_va : ℕ
  from_offset : ℕ
  length : Int
  status : ℕ
  type : ℕ
  descriptor : ℕ
  skb : ℕ

def _amemcpy_no_sync (q : Ring QUEUE_LEN CpTask) (dst src_base src n : ℕ) :
    Ring QUEUE_LEN CpTask :=
  q.push { q.entries q.writeIndex with
    from_va_base := src_base
    from_va := src
    to_va_base := dst
    to_va := dst
    from_offset := 0
    length := toInt n
    status := STATUS_WAITING
    type := TYPE_SIMPLE_COPY
    descriptor := 0 }

end MultiClient

namespace Tinyproxy

def DEFUALT_CP_IN_ENTRY_NUM : ℕ := 4096
def TYPE_SIMPLE_COPY : ℕ := 5

structure CpInEntry where
  from_va : ℕ
  to_va : ℕ
  length : Int
  type : ℕ
  descriptor : ℕ
  status : ℕ

/-- Under `copier_queue_mutex`. -/
def smartInputDescriptorBufferMemcpyAsyncSend (q : Ring DEFUALT_CP_IN_ENTRY_NUM CpInEntry)
    (dst src n : ℕ) : Ring DEFUALT_CP_IN_ENTRY_NUM CpInEntry :=
  q.push { q.entries q.writeIndex with
    type := TYPE_SIMPLE_COPY
    length := toLong n
    from_va := src
    to_va := dst
    status := 1 }

end Tinyproxy

/-- A submission function: it pushes an entry that carries the copy, its length cut
down to the entry's field, which holds lengths below `limit`. -/
structure Producer where
  length : ℕ
  Entry : Type
  blank : Entry
  submit : Ring length Entry → Copy → Ring length Entry
  performs : Entry → Moved
  field : ℕ → Int
  limit : ℕ
  several : 1 < length
  exact_iff : ∀ n, field n = n ↔ n < limit
  pushes : ∀ q c, ∃ e, submit q c = q.push e ∧ performs e = ⟨c.dst, c.src, field c.n⟩

/-- The four places where copies are submitted. -/
inductive Source
  | copierSetRecv
  | copierSetSend
  | multiClient
  | tinyproxy

def Source.producer : Source → Producer
  | copierSetRecv => {
      length := CopierSet.DEFUALT_CP_ENTRY_NUM
      Entry := CopierSet.CpEntry
      blank := ⟨0, 0, 0, 0⟩
      submit := fun q c => CopierSet.smartInputDescriptorBufferMemcpyAsync q c.dst c.src c.n
      performs := fun e => ⟨e.to_va, e.from_va, e.length⟩
      field := toInt
      limit := 2 ^ 31
      several := by decide
      exact_iff := toInt_eq_iff
      pushes := fun _ _ => ⟨_, rfl, rfl⟩ }
  | copierSetSend => {
      length := CopierSet.DEFUALT_CP_IN_ENTRY_NUM
      Entry := CopierSet.CpInEntry
      blank := ⟨0, 0, 0, 0⟩
      submit := fun q c => CopierSet.smartInputDescriptorBufferMemcpyAsyncSend q c.dst c.src c.n
      performs := fun e => ⟨e.to_va, e.from_va, e.length⟩
      field := toLong
      limit := 2 ^ 63
      several := by decide
      exact_iff := toLong_eq_iff
      pushes := fun _ _ => ⟨_, rfl, rfl⟩ }
  | multiClient => {
      length := MultiClient.QUEUE_LEN
      Entry := MultiClient.CpTask
      blank := ⟨0, 0, 0, 0, 0, 0, 0, 0, 0, 0⟩
      submit := fun q c => MultiClient._amemcpy_no_sync q c.dst c.src c.src c.n
      performs := fun e => ⟨e.to_va, e.from_va, e.length⟩
      field := toInt
      limit := 2 ^ 31
      several := by decide
      exact_iff := toInt_eq_iff
      pushes := fun _ _ => ⟨_, rfl, rfl⟩ }
  | tinyproxy => {
      length := Tinyproxy.DEFUALT_CP_IN_ENTRY_NUM
      Entry := Tinyproxy.CpInEntry
      blank := ⟨0, 0, 0, 0, 0, 0⟩
      submit := fun q c => Tinyproxy.smartInputDescriptorBufferMemcpyAsyncSend q c.dst c.src c.n
      performs := fun e => ⟨e.to_va, e.from_va, e.length⟩
      field := toLong
      limit := 2 ^ 63
      several := by decide
      exact_iff := toLong_eq_iff
      pushes := fun _ _ => ⟨_, rfl, rfl⟩ }

structure World (p : Producer) where
  ring : Ring p.length p.Entry
  submitted : List Copy
  performed : List Moved

def init (p : Producer) : World p := ⟨⟨fun _ => p.blank, 0, 0⟩, [], []⟩

inductive Label
  | submit (c : Copy)
  | serve

def step (p : Producer) (w : World p) : Label → Option (World p)
  | .submit c => some { w with ring := p.submit w.ring c, submitted := w.submitted ++ [c] }
  | .serve => (w.ring.pop).map fun (e, r) =>
      { w with ring := r, performed := w.performed ++ [p.performs e] }

/-- When the service has caught up, it has performed what was submitted: every copy
once, in order, as it was asked for. -/
def Exact {p : Producer} (w : World p) : Prop :=
  ∃ n t, Runs.run (step p) w (List.replicate n .serve) = some t ∧ t.ring.pop = none ∧
    t.performed = w.submitted.map Copy.asked

/-- The step leads to a state that is exact. -/
def StaysExact (p : Producer) (w : World p) (l : Label) : Prop :=
  ∀ w', step p w l = some w' → Exact w'

/-- A submission finds two free slots and a length that its entry can hold. -/
def Fits (p : Producer) (w : World p) : Label → Prop
  | .submit c => w.ring.backlog + 1 < p.length ∧ c.n < p.limit
  | .serve => True

section Exact
variable {p : Producer} {w w' : World p}

/-- What the service has performed, and what it will perform next. -/
def World.all (w : World p) : List Moved := w.performed ++ w.ring.contents.map p.performs

theorem serve_all (wf : w.ring.Wf) (stepped : step p w .serve = some w') :
    w'.ring.Wf ∧ w'.submitted = w.submitted ∧ w'.all = w.all ∧
      w'.ring.backlog + 1 = w.ring.backlog := by
  simp only [step, Option.map_eq_some_iff, Prod.exists] at stepped
  obtain ⟨e, r, popped, rfl⟩ := stepped
  have contents := Ring.contents_pop wf popped
  refine ⟨Ring.pop_wf wf popped, rfl, ?_, ?_⟩
  · simp [World.all, contents]
  · rw [← Ring.contents_length, ← Ring.contents_length, contents, List.length_cons]

theorem serves_all (n : ℕ) (wf : w.ring.Wf)
    (ran : Runs.run (step p) w (List.replicate n .serve) = some w') :
    w'.ring.Wf ∧ w'.submitted = w.submitted ∧ w'.all = w.all := by
  induction n generalizing w with
  | zero =>
    cases ran
    exact ⟨wf, rfl, rfl⟩
  | succ n ih =>
    simp only [List.replicate_succ, Runs.run, Option.bind_eq_some_iff] at ran
    obtain ⟨u, stepped, rest⟩ := ran
    obtain ⟨wf', submitted, all, -⟩ := serve_all wf stepped
    obtain ⟨last, submitted', all'⟩ := ih wf' rest
    exact ⟨last, submitted'.trans submitted, all'.trans all⟩

theorem exact_iff (wf : w.ring.Wf) : Exact w ↔ w.all = w.submitted.map Copy.asked := by
  constructor
  · rintro ⟨n, t, ran, empty, performed⟩
    obtain ⟨wf', -, all⟩ := serves_all n wf ran
    rw [← all, ← performed, World.all, (Ring.pop_eq_none_iff wf').mp empty]
    simp
  · intro all
    obtain ⟨n, t, ran, wf', done⟩ := Runs.run_down (step p) (fun t => t.ring.Wf)
      (fun t => t.ring.backlog) .serve (fun t wf pending => by
        cases popped : t.ring.pop with
        | none =>
          have empty := (Ring.pop_eq_none_iff wf).mp popped
          rw [← Ring.contents_length, empty] at pending
          cases pending
        | some next =>
          obtain ⟨e, r⟩ := next
          have stepped : step p t .serve =
              some { t with ring := r, performed := t.performed ++ [p.performs e] } := by
            simp only [step, popped, Option.map_some]
          obtain ⟨wf', -, -, lower⟩ := serve_all wf stepped
          exact ⟨_, stepped, wf', by omega⟩) wf
    have empty : t.ring.contents = [] := List.eq_nil_of_length_eq_zero (by
      rw [Ring.contents_length]
      exact done)
    refine ⟨n, t, ran, (Ring.pop_eq_none_iff wf').mpr empty, ?_⟩
    have same := (serves_all n wf ran).2.2
    rw [all, World.all, empty] at same
    simpa using same

theorem step_wf {l : Label} (wf : w.ring.Wf) (stepped : step p w l = some w') : w'.ring.Wf := by
  cases l with
  | serve => exact (serve_all wf stepped).1
  | submit c =>
    cases stepped
    obtain ⟨e, pushed, -⟩ := p.pushes w.ring c
    exact pushed ▸ Ring.push_wf wf e

theorem submit_all (wf : w.ring.Wf) (room : w.ring.backlog + 1 < p.length)
    (stepped : step p w (.submit c) = some w') :
    w'.all = w.all ++ [⟨c.dst, c.src, p.field c.n⟩] := by
  cases stepped
  obtain ⟨e, pushed, performs⟩ := p.pushes w.ring c
  simp [World.all, pushed, Ring.contents_push wf room, performs]

/-- The copy that takes the last free slot hides all that are pending. -/
theorem submit_full (wf : w.ring.Wf) (full : w.ring.backlog + 1 = p.length)
    (stepped : step p w (.submit c) = some w') : w'.all = w.performed := by
  cases stepped
  obtain ⟨e, pushed, -⟩ := p.pushes w.ring c
  simp [World.all, pushed, Ring.contents_push_full wf full]

/-- After an exact state a step leads to an exact state if and only if it fits. -/
theorem stays_exact_iff (wf : w.ring.Wf) (exact_ : Exact w) (l : Label) :
    StaysExact p w l ↔ Fits p w l := by
  rw [exact_iff wf] at exact_
  cases l with
  | serve =>
    refine ⟨fun _ => trivial, fun _ w' stepped => ?_⟩
    obtain ⟨wf', submitted, all, -⟩ := serve_all wf stepped
    rw [exact_iff wf', all, submitted, exact_]
  | submit c =>
    have after := step_wf (l := .submit c) wf rfl
    constructor
    · intro stays
      have same := (exact_iff after).mp (stays _ rfl)
      rw [List.map_append, List.map_singleton] at same
      have room : w.ring.backlog + 1 < p.length := by
        by_contra none_
        have bound := Ring.backlog_lt wf
        rw [submit_full wf (by omega) rfl, ← exact_] at same
        have lengths := congrArg List.length same
        simp [World.all] at lengths
      refine ⟨room, (p.exact_iff c.n).mp ?_⟩
      rw [submit_all wf room rfl, exact_, List.append_cancel_left_eq] at same
      simpa [Copy.asked] using same
    · rintro ⟨room, short⟩ w' stepped
      rw [exact_iff (step_wf wf stepped), submit_all wf room stepped, exact_,
        (p.exact_iff c.n).mpr short]
      cases stepped
      simp [Copy.asked]

theorem init_wf : (init p).ring.Wf :=
  ⟨Nat.lt_trans Nat.zero_lt_one p.several, Nat.lt_trans Nat.zero_lt_one p.several⟩

theorem init_exact : Exact (init p) := by
  rw [exact_iff init_wf]
  rfl

end Exact

/-- In every state of a run the service performs exactly what was submitted, if and
only if every submission found two free slots and a length its entry can hold. -/
theorem submissions_performed (s : Source) (ls : List Label) (w : World s.producer) :
    Runs.Path (step s.producer) (StaysExact s.producer) (init s.producer) ls w ↔
      Runs.Path (step s.producer) (Fits s.producer) (init s.producer) ls w := by
  constructor
  · intro path
    refine path.mono_invariant (fun w => w.ring.Wf ∧ Exact w) ⟨init_wf, init_exact⟩ ?_ ?_
    · intro w l w' ⟨wf, _⟩ stays stepped
      exact ⟨step_wf wf stepped, stays w' stepped⟩
    · intro w l ⟨wf, exact_⟩ stays
      exact (stays_exact_iff wf exact_ l).mp stays
  · intro path
    refine path.mono_invariant (fun w => w.ring.Wf ∧ Exact w) ⟨init_wf, init_exact⟩ ?_ ?_
    · intro w l w' ⟨wf, exact_⟩ fits stepped
      exact ⟨step_wf wf stepped, (stays_exact_iff wf exact_ l).mpr fits w' stepped⟩
    · intro w l ⟨wf, exact_⟩ fits
      exact (stays_exact_iff wf exact_ l).mpr fits

/-- Submissions alone, one slot short of filling the ring. -/
theorem fills (p : Producer) (c : Copy) (below : k < p.length) :
    ∃ w, Runs.run (step p) (init p) (List.replicate k (.submit c)) = some w ∧ w.ring.Wf ∧
      w.ring.backlog = k ∧ w.performed = [] := by
  induction k with
  | zero => exact ⟨init p, rfl, init_wf, by simp [Ring.backlog, init], rfl⟩
  | succ k ih =>
    obtain ⟨w, ran, wf, backlog, performed⟩ := ih (by omega)
    have stepped : step p w (.submit c) =
        some { w with ring := p.submit w.ring c, submitted := w.submitted ++ [c] } := rfl
    refine ⟨_, ?_, step_wf wf stepped, ?_, performed⟩
    · rw [List.replicate_succ']
      exact Runs.run_snoc ran stepped
    · obtain ⟨e, pushed, -⟩ := p.pushes w.ring c
      rw [pushed, ← Ring.contents_length, Ring.contents_push wf (by omega), List.length_append,
        Ring.contents_length, backlog]
      rfl

/-- As many submissions as the ring has slots, and it looks empty again: none of the four is
exact in every run. -/
theorem full_ring_forgets : ¬ ∃ s : Source, ∀ ls (w : World s.producer),
    Runs.run (step s.producer) (init s.producer) ls = some w → Exact w := by
  rintro ⟨s, exact_⟩
  have several := s.producer.several
  obtain ⟨w, ran, wf, backlog, performed⟩ :=
    fills s.producer ⟨0, 0, 0⟩ (k := s.producer.length - 1) (by omega)
  have stepped : step s.producer w (.submit ⟨0, 0, 0⟩) = some { w with
      ring := s.producer.submit w.ring ⟨0, 0, 0⟩, submitted := w.submitted ++ [⟨0, 0, 0⟩] } := rfl
  have same := (exact_iff (step_wf wf stepped)).mp (exact_ _ _ (Runs.run_snoc ran stepped))
  rw [submit_full wf (by omega) stepped, performed] at same
  simp at same

end Copier.Queue
