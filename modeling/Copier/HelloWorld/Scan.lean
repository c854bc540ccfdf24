import Copier.Foundation.Runs
import Mathlib.Algebra.Group.Int.Defs
import Mathlib.Algebra.Ring.Nat
import Mathlib.Logic.Function.Basic

/-! The hello-world program: an array is copied by the service while its blocks are waited
for and scanned for the greatest element, sixteen elements at a time. -/
namespace Copier.HelloWorld

abbrev Bytes := ℕ → UInt8

def granularity : ℕ := 1024
def sizeof_ARRAY_TYPE : ℕ := 8
def block : ℕ := granularity / sizeof_ARRAY_TYPE

/-- An element of an array of `uint64_t`. -/
@[irreducible] def element (m : Bytes) (e : ℕ) : ℕ :=
  (List.range sizeof_ARRAY_TYPE).foldr (fun k n => (m (sizeof_ARRAY_TYPE * e + k)).toNat + 256 * n) 0

structure CpEntry where
  size : ℕ
  granularity : ℕ

inductive Phase
  | start
  | waiting (b : ℕ)
  | scanning (b i k : ℕ)
  | done
deriving DecidableEq

/-- The array that is copied to, the `uint16_t` descriptors, the queued entry and the locals. -/
structure World where
  to_ : Bytes
  descriptors : ℕ → ℕ
  cp_entry : Option CpEntry
  max : ℕ
  phase : Phase

/-- A round finds the array and the descriptors as the last one left them. -/
def init (to_ : Bytes) (descriptors : ℕ → ℕ) : World := ⟨to_, descriptors, none, 0, .start⟩

inductive Label
  | service (b : ℕ)
  | main
deriving DecidableEq

section Functions
variable (from_ : Bytes) (arrayLength : ℕ) (x : World)

def size : ℕ := arrayLength / sizeof_ARRAY_TYPE

/-- The service copies the next byte of a block, and counts it. -/
def serve (b : ℕ) : Option World :=
  x.cp_entry.bind fun e =>
    let i := b * e.granularity + x.descriptors b
    if x.descriptors b < e.granularity ∧ i < e.size then
      some { x with
        to_ := Function.update x.to_ i (from_ i)
        descriptors := Function.update x.descriptors b (x.descriptors b + 1) }
    else none

def memcpyAsync (n granularity : ℕ) : World := { x with cp_entry := some ⟨n, granularity⟩ }

/-- Whether `smartBufferGetAlignedOnlyWait` returns. -/
def smartBufferGetAlignedOnlyWait (blockNum length : ℕ) : Bool := length ≤ x.descriptors blockNum

/-- The head of the loop over the blocks. -/
def head (b : ℕ) : Phase := if b < size arrayLength / block then .waiting b else .done

/-- One of the sixteen comparisons, each of which takes the first element of the group. -/
def compare (b i k : ℕ) : World :=
  { x with
    max := if x.max < element x.to_ (i + k) then element x.to_ i else x.max
    phase :=
      if k + 1 < 16 then .scanning b i (k + 1)
      else if i + 16 < (b + 1) * block then .scanning b (i + 16) 0
      else head arrayLength (b + 1) }

/-- One step of a round. -/
def step : Label → Option World
  | .service b => serve from_ x b
  | .main => match x.phase with
    | .start =>
        some { memcpyAsync x arrayLength granularity with
          max := 0, descriptors := fun _ => 0, phase := head arrayLength 0 }
    | .waiting b =>
        if smartBufferGetAlignedOnlyWait x b granularity then
          some { x with phase := .scanning b (b * block) 0 }
        else some x
    | .scanning b i k => some (compare arrayLength x b i k)
    | .done => none

end Functions

/-- This round has copied the element. -/
def World.Copied (x : World) (e : ℕ) : Prop :=
  sizeof_ARRAY_TYPE * (e % block + 1) ≤ x.descriptors (e / block)

/-- Elements are read when they have been copied. -/
def Sound (x : World) (l : Label) : Prop :=
  match x.phase, l with
  | .scanning _ i k, .main => x.Copied i ∧ x.Copied (i + k)
  | _, _ => True

/-- The whole array has been copied. -/
def World.Complete (from_ : Bytes) (x : World) : Prop :=
  x.cp_entry ≠ none ∧ ∀ b, serve from_ x b = none

/-- The greatest of the elements and 0. -/
def maximum (a : ℕ → ℕ) : ℕ → ℕ
  | 0 => 0
  | p + 1 => Nat.max (maximum a p) (a p)

/-- A round reads what was copied, ends once all is copied, and finds the maximum. -/
def Correct (from_ : Bytes) (arrayLength : ℕ) (y : World) : Prop :=
  ∀ ls x, Runs.run (step from_ arrayLength) y ls = some x →
    Runs.Path (step from_ arrayLength) Sound y ls x ∧
    (x.Complete from_ → ∃ n z, Runs.run (step from_ arrayLength) x (List.replicate n .main) = some z ∧
      z.phase = .done) ∧
    (x.phase = .done → x.max = maximum (element from_) (size arrayLength))

section Scan
variable {a b : ℕ → ℕ}

/-- What is found in the first elements, when a greater one is taken for the first of its
group. -/
def scan (a : ℕ → ℕ) : ℕ → ℕ
  | 0 => 0
  | p + 1 => if scan a p < a p then a (p / 16 * 16) else scan a p

theorem le_maximum (bound : p < n) : a p ≤ maximum a n := by
  induction n with
  | zero => omega
  | succ n ih =>
    rw [maximum]
    rcases Nat.lt_succ_iff_lt_or_eq.mp bound with below | rfl
    · exact Nat.le_trans (ih below) (Nat.le_max_left _ _)
    · exact Nat.le_max_right _ _

/-- Something is found in the first place of a group. -/
theorem scan_head (a : ℕ → ℕ) (n : ℕ) : scan a n = 0 ∨ ∃ g, 16 * g < n ∧ scan a n = a (16 * g) := by
  induction n with
  | zero => exact .inl rfl
  | succ n ih =>
    rw [scan]
    split_ifs with greater
    · exact .inr ⟨n / 16, by omega, by rw [Nat.mul_comm]⟩
    · rcases ih with none_ | ⟨g, inside, found⟩
      · exact .inl none_
      · exact .inr ⟨g, by omega, found⟩

theorem scan_le (most : ∀ p, p < n → a p ≤ m) : scan a n ≤ m := by
  rcases scan_head a n with none_ | ⟨g, inside, found⟩
  · rw [none_]
    exact Nat.zero_le m
  · rw [found]
    exact most _ inside

/-- Once the greatest is found, nothing else is. -/
theorem scan_found (inside : 16 * g < n) (most : ∀ p, p < n → a p ≤ a (16 * g)) :
    scan a n = a (16 * g) := by
  induction n with
  | zero => omega
  | succ n ih =>
    have least : ∀ p, p < n → a p ≤ a (16 * g) := fun p below => most p (by omega)
    rw [scan]
    rcases Nat.lt_succ_iff_lt_or_eq.mp inside with before | rfl
    · have last := most n (by omega)
      rw [if_neg (by rw [ih before least]; omega), ih before least]
    · have same : 16 * g / 16 * 16 = 16 * g := by omega
      rw [same]
      split_ifs with greater
      · rfl
      · have below := scan_le least
        omega

/-- A group's first element must be the greatest. -/
theorem scan_eq_maximum_iff (fits : n ≤ total) :
    scan a n = maximum a total ↔ maximum a total = 0 ∨ ∃ g, 16 * g < n ∧ a (16 * g) = maximum a total := by
  constructor
  · intro found
    rcases scan_head a n with none_ | ⟨g, inside, head⟩
    · exact .inl (found ▸ none_)
    · exact .inr ⟨g, inside, head ▸ found⟩
  · rintro (none_ | ⟨g, inside, greatest⟩)
    · have below : scan a n ≤ 0 := scan_le fun p bound => none_ ▸ le_maximum (by omega)
      omega
    · rw [← greatest]
      exact scan_found inside fun p bound => greatest ▸ le_maximum (by omega)

end Scan

section Round
variable {from_ : Bytes} {arrayLength : ℕ} {x x' : World} {l : Label}

/-- The elements of whole blocks. -/
def scanned (arrayLength : ℕ) : ℕ := size arrayLength / block * block

/-- Where the program is, and what it has found. -/
def World.Placed (from_ : Bytes) (arrayLength : ℕ) (x : World) : Prop :=
  match x.phase with
  | .start => True
  | .waiting b => b < size arrayLength / block ∧ x.max = scan (element from_) (b * block)
  | .scanning b i k =>
      b < size arrayLength / block ∧ granularity ≤ x.descriptors b ∧
        (∃ g < 8, i = b * block + 16 * g) ∧ k < 16 ∧ x.max = scan (element from_) (i + k)
  | .done => x.max = scan (element from_) (scanned arrayLength)

/-- What was counted was copied. -/
structure World.Counted (from_ : Bytes) (arrayLength : ℕ) (x : World) : Prop where
  entry : x.cp_entry = some ⟨arrayLength, granularity⟩
  least : ∀ b, x.descriptors b ≤ granularity
  bytes : ∀ b j, j < x.descriptors b → x.to_ (b * granularity + j) = from_ (b * granularity + j)

structure Inv (from_ : Bytes) (arrayLength : ℕ) (x : World) : Prop where
  placed : x.Placed from_ arrayLength
  idle : x.phase = .start → x.cp_entry = none
  counted : x.phase ≠ .start → x.Counted from_ arrayLength

theorem World.Counted.element (counted : x.Counted from_ arrayLength) (copied : x.Copied e) :
    element x.to_ e = element from_ e := by
  unfold HelloWorld.element
  refine List.foldr_ext _ _ _ fun k member n => ?_
  have bound := List.mem_range.mp member
  have place : sizeof_ARRAY_TYPE * e + k =
      e / block * granularity + (sizeof_ARRAY_TYPE * (e % block) + k) := by
    simp only [sizeof_ARRAY_TYPE, block, granularity]
    omega
  have inside : sizeof_ARRAY_TYPE * (e % block) + k < x.descriptors (e / block) := by
    simp only [World.Copied, sizeof_ARRAY_TYPE] at copied bound ⊢
    omega
  rw [place, counted.bytes _ _ inside]

/-- The elements of a group are those of a block that is waited for. -/
theorem World.Placed.copied {b i k : ℕ} (waited : granularity ≤ x.descriptors b)
    (group : ∃ g < 8, i = b * block + 16 * g) (bound : k < 16) : x.Copied (i + k) := by
  obtain ⟨g, few, rfl⟩ := group
  have within : (b * block + 16 * g + k) / block = b := by
    simp only [block, granularity, sizeof_ARRAY_TYPE]
    omega
  simp only [World.Copied, within]
  simp only [block, granularity, sizeof_ARRAY_TYPE] at waited ⊢
  omega

theorem head_placed (from_ : Bytes) {y : World} (phase : y.phase = head arrayLength b)
    (found : y.max = scan (HelloWorld.element from_) (b * block)) (next : b ≤ size arrayLength / block) :
    y.Placed from_ arrayLength := by
  unfold World.Placed
  rw [phase, head]
  split_ifs with more
  · exact ⟨more, found⟩
  · have last : b = size arrayLength / block := by omega
    rw [found, last]
    rfl

/-- The service leaves what was counted as it is. -/
theorem Inv.serve {b : ℕ} (inv : Inv from_ arrayLength x) (served : serve from_ x b = some x') :
    Inv from_ arrayLength x' := by
  simp only [HelloWorld.serve, Option.bind_eq_some_iff] at served
  obtain ⟨e, entry, served⟩ := served
  split_ifs at served with room
  cases served
  refine ⟨?_, fun start => ?_, ?_⟩
  · have placed := inv.placed
    unfold World.Placed at placed ⊢
    dsimp only
    split
    · trivial
    · rename_i here
      simpa only [here] using placed
    · rename_i b' i k here
      simp only [here] at placed
      obtain ⟨blocks, waited, group, bound, found⟩ := placed
      refine ⟨blocks, ?_, group, bound, found⟩
      by_cases same : b' = b
      · subst same
        rw [Function.update_self]
        omega
      · rwa [Function.update_of_ne same]
    · rename_i here
      simpa only [here] using placed
  · rw [inv.idle start] at entry
    cases entry
  · intro begun
    have counted := inv.counted begun
    cases entry.symm.trans counted.entry
    dsimp only at room
    refine ⟨counted.entry, fun b' => ?_, fun b' j => ?_⟩
    · by_cases same : b' = b
      · subst same
        simp only [Function.update_self]
        omega
      · simpa only [Function.update_of_ne same] using counted.least b'
    · intro bound
      dsimp only at bound ⊢
      by_cases new : b' * granularity + j = b * granularity + x.descriptors b
      · rw [new, Function.update_self]
      · rw [Function.update_of_ne new]
        refine counted.bytes b' j ?_
        by_cases same : b' = b
        · subst same
          rw [Function.update_self] at bound
          omega
        · rwa [Function.update_of_ne same] at bound

/-- One comparison is one more element of the scan. -/
theorem Inv.compare {b i k : ℕ} (inv : Inv from_ arrayLength x) (here : x.phase = .scanning b i k) :
    (compare arrayLength x b i k).Placed from_ arrayLength := by
  have placed := inv.placed
  simp only [World.Placed, here] at placed
  obtain ⟨blocks, waited, group, bound, found⟩ := placed
  have counted := inv.counted (by rw [here]; simp)
  have first := counted.element (World.Placed.copied waited group (k := 0) (by omega))
  have this := counted.element (World.Placed.copied waited group bound)
  rw [Nat.add_zero] at first
  have more : (if x.max < element x.to_ (i + k) then element x.to_ i else x.max) =
      scan (element from_) (i + k + 1) := by
    obtain ⟨g, few, rfl⟩ := group
    have start : (b * block + 16 * g + k) / 16 * 16 = b * block + 16 * g := by
      simp only [block, granularity, sizeof_ARRAY_TYPE]
      omega
    rw [this, first, found, scan, start]
  obtain ⟨g, few, rfl⟩ := group
  have wide : (b + 1) * block = b * block + 128 := Nat.succ_mul b block
  by_cases inner : k + 1 < 16
  · simp only [World.Placed, HelloWorld.compare, if_pos inner]
    exact ⟨blocks, waited, ⟨g, few, rfl⟩, inner, more⟩
  · have whole : b * block + 16 * g + k + 1 = b * block + 16 * (g + 1) := by omega
    rw [whole] at more
    by_cases middle : b * block + 16 * g + 16 < (b + 1) * block
    · have next : b * block + 16 * (g + 1) = b * block + 16 * g + 16 := by omega
      have few : g + 1 < 8 := by omega
      simp only [World.Placed, HelloWorld.compare, if_neg inner, if_pos middle, Nat.add_zero]
      rw [next] at more
      exact ⟨blocks, waited, ⟨g + 1, few, next.symm⟩, Nat.succ_pos 15, more⟩
    · have last : b * block + 16 * (g + 1) = (b + 1) * block := by omega
      rw [last] at more
      refine head_placed from_ (b := b + 1) ?_ more blocks
      simp only [HelloWorld.compare, if_neg inner, if_neg middle]

theorem main_begun (stepped : step from_ arrayLength x .main = some x') : x'.phase ≠ .start := by
  simp only [step] at stepped
  split at stepped
  · cases stepped
    simp only [head]
    split_ifs <;> simp
  · split_ifs at stepped
    · cases stepped
      simp
    · cases stepped
      simp [*]
  · cases stepped
    simp only [compare, head]
    split_ifs <;> simp
  · cases stepped

theorem serve_phase {b : ℕ} (served : serve from_ x b = some x') : x'.phase = x.phase := by
  simp only [serve, Option.bind_eq_some_iff] at served
  obtain ⟨e, entry, served⟩ := served
  split_ifs at served
  cases served
  rfl

theorem Inv.main (inv : Inv from_ arrayLength x) (stepped : step from_ arrayLength x .main = some x') :
    Inv from_ arrayLength x' := by
  have placed := inv.placed
  have begun := main_begun stepped
  unfold World.Placed at placed
  simp only [step] at stepped
  split at stepped
  · cases stepped
    refine ⟨head_placed from_ rfl ?_ (Nat.zero_le _), fun start => absurd start begun,
      fun _ => ⟨rfl, fun _ => Nat.zero_le _, ?_⟩⟩
    · rw [Nat.zero_mul]
      rfl
    · intro b j bound
      exact absurd bound (Nat.not_lt_zero j)
  · rename_i b here
    simp only [here] at placed
    split_ifs at stepped with ready
    · cases stepped
      simp only [smartBufferGetAlignedOnlyWait, decide_eq_true_eq] at ready
      have counted := inv.counted (by rw [here]; simp)
      refine ⟨⟨placed.1, ready, ⟨0, Nat.succ_pos 7, ?_⟩, Nat.succ_pos 15, ?_⟩,
        fun start => absurd start begun, fun _ => ⟨counted.entry, counted.least, counted.bytes⟩⟩
      · rw [Nat.mul_zero, Nat.add_zero]
      · rw [Nat.add_zero]
        exact placed.2
    · cases stepped
      exact inv
  · rename_i b i k here
    cases stepped
    have counted := inv.counted (by rw [here]; simp)
    exact ⟨inv.compare here, fun start => absurd start begun, fun _ => ⟨counted.entry, counted.least, counted.bytes⟩⟩
  · cases stepped

theorem Inv.step (inv : Inv from_ arrayLength x) (stepped : step from_ arrayLength x l = some x') :
    Inv from_ arrayLength x' := by
  cases l with
  | service b => exact inv.serve stepped
  | main => exact inv.main stepped

theorem Inv.init (to_ : Bytes) (descriptors : ℕ → ℕ) :
    Inv from_ arrayLength (HelloWorld.init to_ descriptors) :=
  ⟨trivial, fun _ => rfl, fun begun => absurd rfl begun⟩

theorem Inv.sound (inv : Inv from_ arrayLength x) (l : Label) : Sound x l := by
  have placed := inv.placed
  unfold World.Placed at placed
  unfold Sound
  split
  · rename_i here
    simp only [here] at placed
    obtain ⟨-, waited, group, bound, -⟩ := placed
    exact ⟨World.Placed.copied waited group (k := 0) (by omega), World.Placed.copied waited group bound⟩
  · trivial

/-- The blocks that are scanned have been copied. -/
def World.Whole (arrayLength : ℕ) (x : World) : Prop :=
  ∀ b < size arrayLength / block, x.descriptors b = granularity

/-- Turns that are left. -/
def World.left (arrayLength : ℕ) (x : World) : ℕ :=
  match x.phase with
  | .start => 0
  | .waiting b => (size arrayLength / block - b) * (block + 1)
  | .scanning b i k => (size arrayLength / block - b) * (block + 1) - 1 - (i + k - b * block)
  | .done => 0

theorem Whole.next (inv : Inv from_ arrayLength x) (whole : x.Whole arrayLength)
    (more : 0 < x.left arrayLength) :
    ∃ x', step from_ arrayLength x .main = some x' ∧ x'.Whole arrayLength ∧
      x'.left arrayLength < x.left arrayLength := by
  have placed := inv.placed
  unfold World.Placed at placed
  unfold World.left at more
  cases phase : x.phase with
  | start => simp [phase] at more
  | done => simp [phase] at more
  | waiting b =>
    simp only [phase] at placed
    have ready : smartBufferGetAlignedOnlyWait x b granularity = true := by
      simp only [smartBufferGetAlignedOnlyWait, decide_eq_true_eq, whole b placed.1, Nat.le_refl]
    refine ⟨{ x with phase := .scanning b (b * block) 0 }, ?_, whole, ?_⟩
    · simp only [HelloWorld.step, phase, ready, if_true]
    · simp only [World.left, phase]
      have positive : 0 < size arrayLength / block - b := by omega
      have turns := Nat.le_mul_of_pos_left (block + 1) positive
      omega
  | scanning b i k =>
    simp only [phase] at placed
    obtain ⟨blocks, -, ⟨g, few, rfl⟩, bound, -⟩ := placed
    refine ⟨compare arrayLength x b (b * block + 16 * g) k, ?_, whole, ?_⟩
    · simp only [HelloWorld.step, phase]
    · have wide : (b + 1) * block = b * block + 128 := Nat.succ_mul b block
      have turn : size arrayLength / block - b = size arrayLength / block - (b + 1) + 1 := by omega
      have turns : (size arrayLength / block - b) * (block + 1) =
          (size arrayLength / block - (b + 1)) * (block + 1) + 129 := by
        rw [turn, Nat.succ_mul]
        rfl
      simp only [World.left, phase, HelloWorld.compare, head]
      split_ifs <;> dsimp only <;> omega

theorem left_done (inv : Inv from_ arrayLength x) (begun : x.phase ≠ .start)
    (none_ : x.left arrayLength = 0) : x.phase = .done := by
  have placed := inv.placed
  unfold World.Placed at placed
  unfold World.left at none_
  cases phase : x.phase with
  | start => exact absurd phase begun
  | done => rfl
  | waiting b =>
    simp only [phase] at placed none_
    have positive : 0 < size arrayLength / block - b := by omega
    have turns := Nat.le_mul_of_pos_left (block + 1) positive
    omega
  | scanning b i k =>
    simp only [phase] at placed none_
    obtain ⟨blocks, -, ⟨g, few, rfl⟩, bound, -⟩ := placed
    have positive : 0 < size arrayLength / block - b := by omega
    have turns := Nat.le_mul_of_pos_left (block + 1) positive
    have wide : block + 1 = 129 := rfl
    omega

/-- Once the blocks are copied, the round comes to its end. -/
theorem Whole.finishes (inv : Inv from_ arrayLength x) (whole : x.Whole arrayLength)
    (begun : x.phase ≠ .start) :
    ∃ n z, Runs.run (step from_ arrayLength) x (List.replicate n .main) = some z ∧ z.phase = .done := by
  obtain ⟨n, z, ran, ⟨inv, -, begun⟩, none_⟩ := Runs.run_down (step from_ arrayLength)
    (fun y => Inv from_ arrayLength y ∧ y.Whole arrayLength ∧ y.phase ≠ .start)
    (World.left arrayLength) .main (fun y kept more => by
      obtain ⟨inv, whole, begun⟩ := kept
      obtain ⟨y', stepped, whole', lower⟩ := Whole.next inv whole more
      exact ⟨y', stepped, ⟨inv.main stepped, whole', main_begun stepped⟩, lower⟩)
    ⟨inv, whole, begun⟩
  exact ⟨n, z, ran, left_done inv begun none_⟩

/-- All of the array is more than its whole blocks. -/
theorem World.Complete.whole (inv : Inv from_ arrayLength x) (complete : x.Complete from_)
    (begun : x.phase ≠ .start) : x.Whole arrayLength := by
  intro b blocks
  have counted := inv.counted begun
  have least := counted.least b
  have stopped := complete.2 b
  simp only [serve, counted.entry, Option.bind_some, ite_eq_right_iff, reduceCtorEq, imp_false,
    not_and_or] at stopped
  simp only [size, block, granularity, sizeof_ARRAY_TYPE] at blocks least stopped ⊢
  omega

theorem World.Counted.serve_next (counted : x.Counted from_ arrayLength)
    (blocks : b < size arrayLength / block) (more : x.descriptors b < granularity) :
    ∃ y, serve from_ x b = some y ∧
      y.descriptors = Function.update x.descriptors b (x.descriptors b + 1) := by
  have room : x.descriptors b < granularity ∧ b * granularity + x.descriptors b < arrayLength := by
    simp only [size, block, granularity, sizeof_ARRAY_TYPE] at blocks more ⊢
    omega
  simp only [serve, counted.entry, Option.bind_some, if_pos room]
  exact ⟨_, rfl, rfl⟩

/-- The service can copy one block after the other. -/
theorem fill (inv : Inv from_ arrayLength x) (begun : x.phase ≠ .start) (n : ℕ)
    (blocks : n ≤ size arrayLength / block) :
    ∃ ls y, Runs.run (step from_ arrayLength) x ls = some y ∧ Inv from_ arrayLength y ∧
      y.phase ≠ .start ∧ ∀ b < n, y.descriptors b = granularity := by
  induction n with
  | zero => exact ⟨[], x, rfl, inv, begun, fun b none_ => absurd none_ (Nat.not_lt_zero b)⟩
  | succ n ih =>
    obtain ⟨ls, y, ran, inv, begun, before⟩ := ih (by omega)
    obtain ⟨m, z, more, ⟨inv, begun, before⟩, last⟩ := Runs.run_down (step from_ arrayLength)
      (fun y => Inv from_ arrayLength y ∧ y.phase ≠ .start ∧ ∀ b < n, y.descriptors b = granularity)
      (fun y => granularity - y.descriptors n) (.service n) (fun y kept pending => by
        obtain ⟨inv, begun, before⟩ := kept
        obtain ⟨y', stepped, counts⟩ := (inv.counted begun).serve_next (b := n) (by omega) (by omega)
        refine ⟨y', stepped, ⟨inv.serve stepped, serve_phase stepped ▸ begun,
          fun b earlier => ?_⟩, ?_⟩
        · rw [counts, Function.update_of_ne (by omega)]
          exact before b earlier
        · rw [counts, Function.update_self]
          omega)
      ⟨inv, begun, before⟩
    refine ⟨ls ++ List.replicate m (.service n), z, ?_, inv, begun, fun b earlier => ?_⟩
    · rw [Runs.run_append, ran, Option.bind_some, more]
    · have least := (inv.counted begun).least n
      rcases Nat.lt_succ_iff_lt_or_eq.mp earlier with old | rfl
      · exact before b old
      · omega

theorem Inv.of_run {ls : List Label} {to_ : Bytes} {descriptors : ℕ → ℕ}
    (ran : Runs.run (HelloWorld.step from_ arrayLength) (HelloWorld.init to_ descriptors) ls = some x) :
    Inv from_ arrayLength x :=
  (Runs.Path.of_run_any ran).invariant (Inv from_ arrayLength) (.init to_ descriptors)
    fun inv _ stepped => inv.step stepped

/-- A round can come to its end. -/
theorem can_finish (from_ : Bytes) (arrayLength : ℕ) (to_ : Bytes) (descriptors : ℕ → ℕ) :
    ∃ ls z, Runs.run (step from_ arrayLength) (init to_ descriptors) ls = some z ∧ z.phase = .done := by
  obtain ⟨y, started⟩ : ∃ y, step from_ arrayLength (init to_ descriptors) .main = some y := ⟨_, rfl⟩
  have inv : Inv from_ arrayLength y := (Inv.init to_ descriptors).step started
  have begun := main_begun started
  obtain ⟨ls, z, filled, inv, begun, whole⟩ := fill inv begun _ (Nat.le_refl _)
  obtain ⟨n, t, ran, done⟩ := Whole.finishes inv whole begun
  refine ⟨.main :: ls ++ List.replicate n .main, t, ?_, done⟩
  rw [Runs.run_append, Runs.run, started, Option.bind_some, filled, Option.bind_some, ran]

theorem Correct.scan {to_ : Bytes} {descriptors : ℕ → ℕ}
    (correct : Correct from_ arrayLength (init to_ descriptors)) :
    scan (HelloWorld.element from_) (scanned arrayLength) =
      maximum (HelloWorld.element from_) (size arrayLength) := by
  obtain ⟨ls, z, ran, done⟩ := can_finish from_ arrayLength to_ descriptors
  have placed := (Inv.of_run ran).placed
  simp only [World.Placed, done] at placed
  rw [← placed]
  exact (correct ls z ran).2.2 done

/-- A round is right just when the greatest element begins a group of sixteen, or all are 0. -/
theorem correct_iff_head (from_ : Bytes) (arrayLength : ℕ) (to_ : Bytes) (descriptors : ℕ → ℕ) :
    Correct from_ arrayLength (init to_ descriptors) ↔
      maximum (element from_) (size arrayLength) = 0 ∨ ∃ g, 16 * g < scanned arrayLength ∧
        element from_ (16 * g) = maximum (element from_) (size arrayLength) := by
  have fits : scanned arrayLength ≤ size arrayLength := Nat.div_mul_le_self _ _
  rw [← scan_eq_maximum_iff fits]
  constructor
  · exact Correct.scan
  · intro found ls x ran
    refine ⟨?_, fun complete => ?_, fun done => ?_⟩
    · exact (Runs.Path.of_run_any ran).mono_invariant (Inv from_ arrayLength) (.init to_ descriptors)
        (fun inv _ stepped => inv.step stepped) fun inv _ => inv.sound _
    · have inv := Inv.of_run ran
      have begun : x.phase ≠ .start := fun start => complete.1 (inv.idle start)
      exact Whole.finishes inv (complete.whole inv begun) begun
    · have placed := (Inv.of_run ran).placed
      simp only [World.Placed, done] at placed
      rw [placed, found]

end Round

/-- An array whose second element alone is not 0. -/
def second : Bytes := fun i => if i = sizeof_ARRAY_TYPE then 1 else 0

theorem second_missed : ¬ ∀ from_ arrayLength to_ descriptors,
    Correct from_ arrayLength (init to_ descriptors) := by
  intro correct
  have found := (correct second 1024 (fun _ => 0) fun _ => 0).scan
  have scanned_ : scan (element second) (scanned 1024) = 0 := by decide +kernel
  have greatest : maximum (element second) (size 1024) = 1 := by decide +kernel
  rw [scanned_, greatest] at found
  cases found

end Copier.HelloWorld
