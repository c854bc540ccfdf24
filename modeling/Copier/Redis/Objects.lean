import Copier.Redis.Sds

/-! String objects in the memory of a modified server, and what scripts do to them there:
the accesses they make, and what they leave. Where these meet no pending task, a script
keeps every string in its own allocated block and, once everything has settled, does what
it does on plain strings. -/
namespace Copier.Redis
open Deferred (Mem Span Task Access)

/-- A string object: bytes no pending task can know of, embedded or made by the server
itself, or an `sds`. -/
inductive Obj
  | value (bytes : Bytes)
  | sds (s : Sds)
deriving DecidableEq

namespace Obj

def bytes (m : Mem UInt8) : Obj → Bytes
  | value bytes => bytes
  | sds s => s.bytes m

def length : Obj → ℕ
  | value bytes => bytes.length
  | sds s => s.len

def blocks : Obj → List ℕ
  | value _ => []
  | sds s => [s.blk]

def reads : Obj → List Access
  | value _ => []
  | sds s => [.read ⟨s.blk, 0, s.len⟩]

/-- Reading `n` bytes from `off` on. -/
def readsFrom (off n : ℕ) : Obj → List Access
  | value _ => []
  | sds s => [.read ⟨s.blk, off, min n (s.len - off)⟩]

end Obj

/-- `trimStringObjectIfNeeded`; shorter objects are embedded already. -/
def trimStringObjectIfNeeded (a : Allocation) (h : Heap) : Obj → Heap × Obj
  | .value bytes => (h, .value bytes)
  | .sds s =>
      if s.alloc - s.len > s.len / 10 then
        let (h, s) := sdsRemoveFreeSpace a h s false
        (h, .sds s)
      else (h, .sds s)

def trimAccesses (a : Allocation) : Obj → List Access
  | .value _ => []
  | .sds s => if s.alloc - s.len > s.len / 10 then sdsRemoveFreeSpaceAccesses a s else []

/-- The memory and the strings in it that a command works on. -/
structure Memory where
  heap : Heap
  strings : Strings Obj

def freed (blocks : List ℕ) : List Access := blocks.map .free

namespace Memory

def blocks (m : Memory) (place : Place) : List ℕ := ((m.strings.find place).map Obj.blocks).getD []

/-- A string stored under a key; what was there is freed. -/
def store (m : Memory) (key : Bytes) (o : Obj) : Memory where
  heap := m.heap.release (m.blocks (.value key))
  strings := m.strings.put (.value key) o

def vacate (m : Memory) (place : Place) : Memory :=
  { m with strings := m.strings.vacate (.value []) place }

/-- The strings as they will read. -/
def settled (m : Memory) : Strings Bytes := m.strings.map (Obj.bytes m.heap.settled)

end Memory

def Edit.exec (a : Allocation) (m : Memory) : Edit → Memory
  | .drop key => { m.vacate (.value key) with heap := m.heap.release (m.blocks (.value key)) }
  | .encode i =>
      match m.strings.argv[i]? with
      | some o =>
          let (h, o) := trimStringObjectIfNeeded a m.heap o
          ⟨h, m.strings.put (.arg i) o⟩
      | none => m
  | .move src key =>
      match m.strings.find src with
      | some o => (m.vacate src).store key o
      | none => m
  | .create key data => m.store key (.value data)
  | .append key data =>
      match m.strings.db key with
      | some (.sds s) =>
          let (h, s) := sdscatlen a m.heap s data
          ⟨h, m.strings.put (.value key) (.sds s)⟩
      | some (.value bytes) => { m with strings := m.strings.put (.value key) (.value (bytes ++ data)) }
      | none => m
  | .overwrite key off data =>
      match m.strings.db key with
      | some (.sds s) => { m with heap := memcpyTo m.heap s off data }
      | some (.value bytes) =>
          { m with strings := m.strings.put (.value key) (.value (overwritten bytes off data)) }
      | none => m

/-- What an edit writes, moves and frees. -/
def Edit.moves (a : Allocation) (m : Memory) : Edit → List Access
  | .drop key => freed (m.blocks (.value key))
  | .encode i =>
      match m.strings.argv[i]? with
      | some o => trimAccesses a o
      | none => []
  | .move src key =>
      match m.strings.find src with
      | some _ => freed ((m.vacate src).blocks (.value key))
      | none => []
  | .create key _ => freed (m.blocks (.value key))
  | .append key data =>
      match m.strings.db key with
      | some (.sds s) => sdscatlenAccesses a m.heap s data
      | _ => []
  | .overwrite key off data =>
      match m.strings.db key with
      | some (.sds s) => memcpyToAccesses s off data
      | _ => []

namespace Script

/-- The memory after a script and its reply. -/
def exec : Script → Allocation → Memory → Memory × Bytes
  | .done reply, _, m => (m, reply)
  | .length place next, a, m => (next ((m.strings.find place).map Obj.length)).exec a m
  | .read place off n next, a, m =>
      let bytes := ((m.strings.find place).map (Obj.bytes m.heap.mem)).getD []
      (next ((bytes.drop off).take n)).exec a m
  | .edit e next, a, m => next.exec a.later (e.exec a m)

def moves : Script → Allocation → Memory → List Access
  | .done _, _, _ => []
  | .length place next, a, m => (next ((m.strings.find place).map Obj.length)).moves a m
  | .read place off n next, a, m =>
      let bytes := ((m.strings.find place).map (Obj.bytes m.heap.mem)).getD []
      (next ((bytes.drop off).take n)).moves a m
  | .edit e next, a, m => e.moves a m ++ next.moves a.later (e.exec a m)

/-- What a script reads to act on it. -/
def looks : Script → Allocation → Memory → List Access
  | .done _, _, _ => []
  | .length place next, a, m => (next ((m.strings.find place).map Obj.length)).looks a m
  | .read place off n next, a, m =>
      let bytes := ((m.strings.find place).map (Obj.bytes m.heap.mem)).getD []
      ((m.strings.find place).map (Obj.readsFrom off n)).getD [] ++
        (next ((bytes.drop off).take n)).looks a m
  | .edit e next, a, m => next.looks a.later (e.exec a m)

end Script

/-- A place holds a string of that block. -/
def Memory.Owns (m : Memory) (b : ℕ) : Prop :=
  ∃ place s, m.strings.find place = some (.sds s) ∧ s.blk = b

/-- Every string lies in an allocated block of its own. -/
structure Memory.Sound (m : Memory) : Prop where
  wf : m.heap.Wf
  sound : m.strings.find place = some (.sds s) → s.Sound m.heap
  sole : m.strings.find p = some (.sds s) → m.strings.find q = some (.sds t) → s.blk = t.blk → p = q

/-- What a script may do to memory: other blocks stay allocated and as they were, and it
holds no block in the end but those it held and new ones. -/
structure Memory.Edited (m m' : Memory) : Prop where
  sound : m'.Sound
  ring : m'.heap.ring = m.heap.ring
  grown : m.heap.next ≤ m'.heap.next
  owned : m'.Owns b → m.Owns b ∨ m.heap.next ≤ b
  frame : b < m.heap.next → ¬ m.Owns b → m'.heap.settled b = m.heap.settled b
  kept : b ∈ m.heap.live → ¬ m.Owns b → b ∈ m'.heap.live

/-- What an edit comes to, with its accesses: each kind finds the string it is about, or
nothing happens. -/
inductive Edit.Does (a : Allocation) (m : Memory) : Edit → List Access → Memory → Prop
  | nothing (idle : e.run m.settled = m.settled) : Does a m e [] m
  | drop : Does a m (.drop key) (freed (m.blocks (.value key)))
      { m.vacate (.value key) with heap := m.heap.release (m.blocks (.value key)) }
  | create : Does a m (.create key data) (freed (m.blocks (.value key))) (m.store key (.value data))
  | move (found : m.strings.find src = some o) :
      Does a m (.move src key) (freed ((m.vacate src).blocks (.value key)))
        ((m.vacate src).store key o)
  | encode (found : m.strings.find (.arg i) = some (.sds s)) :
      Does a m (.encode i) (sdsRemoveFreeSpaceAccesses a s)
        ⟨(sdsRemoveFreeSpace a m.heap s false).1,
          m.strings.put (.arg i) (.sds (sdsRemoveFreeSpace a m.heap s false).2)⟩
  | append (found : m.strings.find (.value key) = some (.sds s)) :
      Does a m (.append key data) (sdscatlenAccesses a m.heap s data)
        ⟨(sdscatlen a m.heap s data).1,
          m.strings.put (.value key) (.sds (sdscatlen a m.heap s data).2)⟩
  | overwrite (found : m.strings.find (.value key) = some (.sds s)) :
      Does a m (.overwrite key off data) (memcpyToAccesses s off data)
        { m with heap := memcpyTo m.heap s off data }
  | revalue (made : e.run m.settled = m.settled.put (.value key) bytes) :
      Does a m e [] { m with strings := m.strings.put (.value key) (.value bytes) }

section Edits
variable {m m' m'' : Memory} {a : Allocation} {h : Heap} {s t : Sds} {place : Place} {o : Obj}
  {e : Edit} {accesses : List Access}

theorem clear_freed {blocks : List ℕ} (clear : ∀ access ∈ freed blocks, h.Clear access) :
    ∀ b ∈ blocks, h.Clear (.free b) :=
  fun _ member => clear _ (List.mem_map_of_mem member)

theorem Memory.mem_blocks (member : b ∈ m.blocks place) :
    ∃ s, m.strings.find place = some (.sds s) ∧ s.blk = b := by
  unfold Memory.blocks at member
  cases found : m.strings.find place with
  | none => simp [found] at member
  | some o =>
    cases o with
    | value bytes => simp [found, Obj.blocks] at member
    | sds s => exact ⟨s, rfl, by simpa [found, Obj.blocks, eq_comm] using member⟩

theorem Memory.Edited.refl (sound : m.Sound) : m.Edited m :=
  ⟨sound, rfl, Nat.le_refl _, .inl, fun _ _ => rfl, fun live _ => live⟩

theorem Memory.Edited.trans (old : m.Sound) (first : m.Edited m') (second : m'.Edited m'') :
    m.Edited m'' := by
  have foreign : ∀ b, b < m.heap.next → ¬ m.Owns b → ¬ m'.Owns b := by
    intro b named other owns
    rcases first.owned owns with before | fresh
    · exact other before
    · exact Nat.not_le_of_lt named fresh
  refine ⟨second.sound, second.ring.trans first.ring, Nat.le_trans first.grown second.grown,
    fun owns => ?_, fun {b} named other => ?_, fun {b} live other => ?_⟩
  · rcases second.owned owns with owns | fresh
    · exact first.owned owns
    · exact .inr (Nat.le_trans first.grown fresh)
  · rw [second.frame (Nat.lt_of_lt_of_le named first.grown) (foreign b named other),
      first.frame named other]
  · exact second.kept (first.kept live other) (foreign b (old.wf.named b live) other)

/-- Strings change places, and some are freed: `origin` tells where one was before. -/
theorem Memory.Edited.shuffled {strings : Strings Obj} {blocks : List ℕ} (sound : m.Sound)
    (origin : Place → Place)
    (came : ∀ p s, strings.find p = some (.sds s) → m.strings.find (origin p) = some (.sds s))
    (apart : ∀ p q s t, strings.find p = some (.sds s) → strings.find q = some (.sds t) →
      origin p = origin q → p = q)
    (clear : ∀ access ∈ freed blocks, m.heap.Clear access)
    (gone : ∀ b ∈ blocks, ∃ q t, m.strings.find q = some (.sds t) ∧ t.blk = b ∧
      ∀ p s, strings.find p = some (.sds s) → origin p ≠ q) :
    m.Edited ⟨m.heap.release blocks, strings⟩ := by
  have lives : ∀ p s, strings.find p = some (.sds s) → s.blk ∉ blocks := by
    intro p s found member
    obtain ⟨q, t, there, same, left⟩ := gone _ member
    exact left p s found (sound.sole (came p s found) there same.symm)
  refine ⟨⟨sound.wf.release (clear_freed clear), fun {p s} found => ?_,
    fun {p s q t} found found' same => ?_⟩, rfl, Nat.le_refl _, fun owned => ?_,
    fun _ _ => by rw [Deferred.Heap.settled_release], fun {b} live other => ?_⟩
  · obtain ⟨live, fits, terminated⟩ := sound.sound (came p s found)
    exact ⟨Deferred.Heap.mem_release.mpr ⟨live, lives p s found⟩, fits, terminated⟩
  · exact apart p q s t found found' (sound.sole (came p s found) (came q t found') same)
  · obtain ⟨p, s, found, blk⟩ := owned
    exact .inl ⟨origin p, s, came p s found, blk⟩
  · refine Deferred.Heap.mem_release.mpr ⟨live, fun member => other ?_⟩
    obtain ⟨q, t, there, same, -⟩ := gone b member
    exact ⟨q, t, there, same⟩

/-- A string is rewritten where it is or moved to a new block. -/
theorem Memory.Edited.rewritten (sound : m.Sound) (found : m.strings.find place = some (.sds s))
    (rewritten : Rewritten m.heap h s t bytes) (fits : t.len ≤ t.alloc)
    (ring : h.ring = m.heap.ring) : m.Edited ⟨h, m.strings.put place (.sds t)⟩ := by
  have others : ∀ p u, p ≠ place → m.strings.find p = some (.sds u) → u.blk ≠ s.blk ∧ u.blk ≠ t.blk := by
    intro p u different there
    have apart : u.blk ≠ s.blk := fun same => different (sound.sole there found same)
    refine ⟨apart, ?_⟩
    rcases rewritten.owner with same | fresh
    · exact same ▸ apart
    · exact Nat.ne_of_lt (Nat.lt_of_lt_of_le (sound.wf.named _ (sound.sound there).live) fresh)
  refine ⟨⟨rewritten.wf, fun {p u} after => ?_, fun {p u q v} after after' same => ?_⟩, ring,
    rewritten.grown, fun owned => ?_, fun {b} named other => ?_, fun {b} live other => ?_⟩
  · rcases Strings.find_put after with ⟨-, same⟩ | ⟨different, there⟩
    · cases same
      exact ⟨rewritten.live, fits, rewritten.terminated⟩
    · obtain ⟨live, fits, terminated⟩ := sound.sound there
      have apart := (others p u different there).1
      exact ⟨rewritten.kept _ live apart, fits,
        (congrFun (rewritten.frame _ (sound.wf.named _ live) apart) _).trans terminated⟩
  · rcases Strings.find_put after with ⟨rfl, eq⟩ | ⟨different, there⟩
    · rcases Strings.find_put after' with ⟨rfl, -⟩ | ⟨different, there⟩
      · rfl
      · cases eq
        exact absurd same.symm (others q v different there).2
    · rcases Strings.find_put after' with ⟨rfl, eq⟩ | ⟨different', there'⟩
      · cases eq
        exact absurd same (others p u different there).2
      · exact sound.sole there there' same
  · obtain ⟨p, u, after, rfl⟩ := owned
    rcases Strings.find_put after with ⟨-, same⟩ | ⟨-, there⟩
    · cases same
      rcases rewritten.owner with same | fresh
      · exact .inl ⟨place, s, found, same.symm⟩
      · exact .inr fresh
    · exact .inl ⟨p, u, there, rfl⟩
  · exact rewritten.frame b named fun same => other ⟨place, s, found, same.symm⟩
  · exact rewritten.kept b live fun same => other ⟨place, s, found, same.symm⟩

/-- The other strings read as before. -/
theorem Memory.settled_rewritten (sound : m.Sound) (found : m.strings.find place = some (.sds s))
    (rewritten : Rewritten m.heap h s t bytes) :
    (⟨h, m.strings.put place (.sds t)⟩ : Memory).settled = m.settled.put place bytes := by
  have reads : (Obj.sds t).bytes h.settled = bytes := rewritten.reads
  unfold Memory.settled
  rw [Strings.map_put, reads]
  refine Strings.put_congr bytes fun other o different there => ?_
  cases o with
  | value bytes => rfl
  | sds u =>
    have apart : u.blk ≠ s.blk := fun same => different (sound.sole there found same)
    have named := sound.wf.named _ (sound.sound there).live
    simp only [Obj.bytes, Sds.bytes, rewritten.frame _ named apart]

theorem Memory.Edited.drop (sound : m.Sound)
    (clear : ∀ access ∈ freed (m.blocks (.value key)), m.heap.Clear access) :
    m.Edited
      { m.vacate (.value key) with heap := m.heap.release (m.blocks (.value key)) } := by
  have left : ∀ p s, (m.strings.vacate (.value []) (.value key)).find p = some (.sds s) →
      p ≠ .value key ∧ m.strings.find p = some (.sds s) := by
    intro p s found
    rcases Strings.find_vacate found with hole | there
    · cases hole
    · exact there
  refine .shuffled sound id (fun p s found => (left p s found).2) (fun _ _ _ _ _ _ => id) clear ?_
  intro b member
  obtain ⟨t, there, same⟩ := Memory.mem_blocks member
  exact ⟨.value key, t, there, same, fun p s found => (left p s found).1⟩

theorem Memory.Edited.create (sound : m.Sound)
    (clear : ∀ access ∈ freed (m.blocks (.value key)), m.heap.Clear access) :
    m.Edited (m.store key (.value data)) := by
  have left : ∀ p s, (m.strings.put (.value key) (.value data)).find p = some (.sds s) →
      p ≠ .value key ∧ m.strings.find p = some (.sds s) := by
    intro p s found
    rcases Strings.find_put found with ⟨-, new⟩ | there
    · cases new
    · exact there
  refine .shuffled sound id (fun p s found => (left p s found).2) (fun _ _ _ _ _ _ => id) clear ?_
  intro b member
  obtain ⟨t, there, same⟩ := Memory.mem_blocks member
  exact ⟨.value key, t, there, same, fun p s found => (left p s found).1⟩

/-- A value that no task can know of is replaced by another. -/
theorem Memory.Edited.revalued (sound : m.Sound) (place : Place) (data : Bytes) :
    m.Edited { m with strings := m.strings.put place (.value data) } := by
  have left : ∀ p s, (m.strings.put place (.value data)).find p = some (.sds s) →
      m.strings.find p = some (.sds s) := by
    intro p s after
    rcases Strings.find_put after with ⟨-, new⟩ | ⟨-, there⟩
    · cases new
    · exact there
  have edited : m.Edited ⟨m.heap.release [], m.strings.put place (.value data)⟩ :=
    .shuffled sound id left (fun _ _ _ _ _ _ => id) (fun _ none => by cases none)
      (fun _ none => by cases none)
  rwa [Deferred.Heap.release_nil] at edited

theorem Memory.Edited.move (sound : m.Sound) (found : m.strings.find src = some o)
    (clear : ∀ access ∈ freed ((m.vacate src).blocks (.value key)), m.heap.Clear access) :
    m.Edited ((m.vacate src).store key o) := by
  have left : ∀ p s, ((m.strings.vacate (.value []) src).put (.value key) o).find p =
      some (.sds s) → p = .value key ∧ m.strings.find src = some (.sds s) ∨
        p ≠ .value key ∧ p ≠ src ∧ m.strings.find p = some (.sds s) := by
    intro p s after
    rcases Strings.find_put after with ⟨same, moved⟩ | ⟨other, there⟩
    · exact .inl ⟨same, moved ▸ found⟩
    · rcases Strings.find_vacate there with hole | there
      · cases hole
      · exact .inr ⟨other, there⟩
  refine .shuffled sound (fun p => if p = .value key then src else p) (fun p s after => ?_)
    (fun p q s t after after' same => ?_) clear fun b member => ?_
  · rcases left p s after with ⟨same, there⟩ | ⟨other, -, there⟩
    · rwa [if_pos same]
    · rwa [if_neg other]
  · rcases left p s after with ⟨rfl, -⟩ | ⟨other, apart, -⟩
    · rcases left q t after' with ⟨rfl, -⟩ | ⟨other, apart, -⟩
      · rfl
      · rw [if_pos rfl, if_neg other] at same
        exact absurd same.symm apart
    · rcases left q t after' with ⟨rfl, -⟩ | ⟨other', -, -⟩
      · rw [if_neg other, if_pos rfl] at same
        exact absurd same apart
      · rwa [if_neg other, if_neg other'] at same
  · obtain ⟨t, there, same⟩ := Memory.mem_blocks member
    rcases Strings.find_vacate there with hole | ⟨other, there⟩
    · cases hole
    refine ⟨.value key, t, there, same, fun p s after => ?_⟩
    rcases left p s after with ⟨rfl, -⟩ | ⟨different, -, -⟩
    · rw [if_pos rfl]
      exact other.symm
    · rwa [if_neg different]

theorem Memory.settled_find (found : m.strings.find place = some o) :
    m.settled.find place = some (o.bytes m.heap.settled) := by
  rw [Memory.settled, Strings.find_map, found, Option.map_some]

theorem Memory.settled_missing (missing : m.strings.find place = none) :
    m.settled.find place = none := by
  rw [Memory.settled, Strings.find_map, missing, Option.map_none]

theorem Edit.does (e : Edit) (a : Allocation) (m : Memory) :
    e.Does a m (e.moves a m) (e.exec a m) := by
  cases e with
  | drop key => exact .drop
  | create key data => exact .create
  | move src key =>
    simp only [Edit.moves, Edit.exec]
    cases found : m.strings.find src with
    | none =>
      apply Edit.Does.nothing
      simp only [Edit.run, Memory.settled_missing found]
    | some o => exact .move found
  | encode i =>
    have place : m.strings.find (.arg i) = m.strings.argv[i]? := rfl
    simp only [Edit.moves, Edit.exec]
    cases found : m.strings.argv[i]? with
    | none => exact .nothing rfl
    | some o =>
      rw [found] at place
      cases o with
      | value bytes =>
        simp only [trimAccesses, trimStringObjectIfNeeded, Strings.put_found place]
        exact .nothing rfl
      | sds s =>
        simp only [trimAccesses, trimStringObjectIfNeeded]
        split
        · exact .encode place
        · simp only [Strings.put_found place]
          exact .nothing rfl
  | append key data =>
    have place : m.strings.find (.value key) = m.strings.db key := rfl
    simp only [Edit.moves, Edit.exec]
    cases found : m.strings.db key with
    | none =>
      rw [found] at place
      have missing : m.settled.db key = none := Memory.settled_missing place
      apply Edit.Does.nothing
      simp only [Edit.run, missing]
    | some o =>
      rw [found] at place
      cases o with
      | sds s => exact .append place
      | value bytes =>
        have there : m.settled.db key = some bytes := Memory.settled_find place
        apply Edit.Does.revalue
        simp only [Edit.run, there]
  | overwrite key off data =>
    have place : m.strings.find (.value key) = m.strings.db key := rfl
    simp only [Edit.moves, Edit.exec]
    cases found : m.strings.db key with
    | none =>
      rw [found] at place
      have missing : m.settled.db key = none := Memory.settled_missing place
      apply Edit.Does.nothing
      simp only [Edit.run, missing]
    | some o =>
      rw [found] at place
      cases o with
      | sds s => exact .overwrite place
      | value bytes =>
        have there : m.settled.db key = some bytes := Memory.settled_find place
        apply Edit.Does.revalue
        simp only [Edit.run, there]

/-- An edit that meets no pending task. -/
theorem Edit.Does.edited (does : e.Does a m accesses m') (sound : m.Sound)
    (clear : ∀ access ∈ accesses, m.heap.Clear access) : m.Edited m' := by
  cases does with
  | nothing => exact .refl sound
  | drop => exact .drop sound clear
  | create => exact .create sound clear
  | move found => exact .move sound found clear
  | encode found =>
    obtain ⟨live, fits, terminated⟩ := sound.sound found
    exact .rewritten sound found (sdsRemoveFreeSpace_rewritten false sound.wf live terminated clear)
      (sdsRemoveFreeSpace_fits fits) (sdsRemoveFreeSpace_ring _ false)
  | append found =>
    obtain ⟨live, fits, terminated⟩ := sound.sound found
    exact .rewritten sound found (sdscatlen_rewritten sound.wf live terminated clear fits)
      (sdscatlen_fits fits _) (sdscatlen_ring m.heap _ _)
  | overwrite found =>
    obtain ⟨live, fits, terminated⟩ := sound.sound found
    have edited := Memory.Edited.rewritten sound found
      (memcpyTo_rewritten sound.wf live terminated clear) fits (memcpyTo_ring m.heap _ _ _)
    rwa [Strings.put_found found] at edited
  | revalue => exact .revalued sound _ _

/-- What an edit leaves reads as the edit of plain strings says. -/
theorem Edit.Does.settled (does : e.Does a m accesses m') (sound : m.Sound)
    (clear : ∀ access ∈ accesses, m.heap.Clear access) : m'.settled = e.run m.settled := by
  cases does with
  | nothing idle => exact idle.symm
  | drop => exact Strings.map_vacate _ (.value []) m.strings (.value _)
  | create => exact Strings.map_put _ m.strings (.value _) _
  | move found =>
    simp only [Edit.run, Memory.settled_find found]
    dsimp only [Memory.settled, Memory.store, Memory.vacate]
    rw [Deferred.Heap.settled_release, Strings.map_put, Strings.map_vacate]
    rfl
  | encode found =>
    obtain ⟨live, fits, terminated⟩ := sound.sound found
    have trimmed := sdsRemoveFreeSpace_rewritten false sound.wf live terminated clear
    exact (Memory.settled_rewritten sound found trimmed).trans
      (Strings.put_found (Memory.settled_find found))
  | @append key _ data found =>
    obtain ⟨live, fits, terminated⟩ := sound.sound found
    have there : m.settled.db key = some _ := Memory.settled_find found
    simp only [Edit.run, there]
    exact Memory.settled_rewritten sound found
      (sdscatlen_rewritten sound.wf live terminated clear fits)
  | @overwrite key _ off data found =>
    obtain ⟨live, fits, terminated⟩ := sound.sound found
    have there : m.settled.db key = some _ := Memory.settled_find found
    have written := Memory.settled_rewritten sound found
      (memcpyTo_rewritten sound.wf live terminated clear)
    simp only [Edit.run, there]
    rwa [Strings.put_found found] at written
  | revalue made => exact (Strings.map_put _ m.strings (.value _) _).trans made.symm

/-- What is read is what will be there. -/
theorem range_settled (landed : ∀ access ∈ o.readsFrom off n, h.Clear access) :
    ((o.bytes h.mem).drop off).take n = ((o.bytes h.settled).drop off).take n := by
  cases o with
  | value bytes => rfl
  | sds s =>
    have clear := landed _ (List.mem_singleton_self _)
    refine List.ext_getElem (by simp [Obj.bytes]) fun k left right => ?_
    simp only [Obj.bytes, List.length_take, List.length_drop, length_bytes] at left
    simp only [Obj.bytes, Sds.bytes, List.getElem_take, List.getElem_drop, getElem_slice,
      Nat.zero_add]
    exact Deferred.Heap.mem_eq_settled_of_clear clear
      ⟨rfl, Nat.le_add_right _ _, Nat.add_lt_add_left left _⟩

theorem Obj.length_bytes (m : Mem UInt8) (o : Obj) : (o.bytes m).length = o.length := by
  cases o with
  | value bytes => rfl
  | sds s => exact Copier.Redis.length_bytes m s

theorem Memory.settled_length (m : Memory) (place : Place) :
    (m.settled.find place).map List.length = (m.strings.find place).map Obj.length := by
  rw [Memory.settled, Strings.find_map, Option.map_map]
  exact congrFun (congrArg _ (funext fun o => Obj.length_bytes _ o)) _

theorem Memory.settled_range
    (landed : ∀ access ∈ ((m.strings.find place).map (Obj.readsFrom off n)).getD [],
      m.heap.Clear access) :
    (((m.settled.find place).getD []).drop off).take n =
      ((((m.strings.find place).map (Obj.bytes m.heap.mem)).getD []).drop off).take n := by
  cases found : m.strings.find place with
  | none => rw [Memory.settled_missing found, Option.map_none]
  | some o =>
    rw [found] at landed
    rw [Memory.settled_find found]
    exact (range_settled landed).symm

theorem forall_clear_of_ring {h' : Heap} {accesses : List Access} (ring : h'.ring = h.ring)
    (clear : ∀ access ∈ accesses, h.Clear access) : ∀ access ∈ accesses, h'.Clear access :=
  fun access member => clear_of_ring (clear access member) ring

/-- Edits submit nothing. -/
theorem Edit.Does.ring (does : e.Does a m accesses m') : m'.heap.ring = m.heap.ring := by
  cases does with
  | encode => exact sdsRemoveFreeSpace_ring _ false
  | append => exact sdscatlen_ring m.heap _ _
  | overwrite => exact memcpyTo_ring m.heap _ _ _
  | _ => rfl

theorem Script.exec_ring (script : Script) (a : Allocation) (m : Memory) :
    (script.exec a m).1.heap.ring = m.heap.ring := by
  induction script generalizing a m with
  | done => rfl
  | length place next ih => exact ih _ a m
  | read place off n next ih => exact ih _ a m
  | edit e next ih => exact (ih a.later (e.exec a m)).trans (e.does a m).ring

/-- A script that writes, moves and frees only what no pending task uses. -/
theorem Script.edited (script : Script) (sound : m.Sound)
    (clear : ∀ access ∈ script.moves a m, m.heap.Clear access) : m.Edited (script.exec a m).1 := by
  induction script generalizing a m with
  | done reply => exact .refl sound
  | length place next ih => exact ih _ sound clear
  | read place off n next ih => exact ih _ sound clear
  | edit e next ih =>
    simp only [Script.moves, List.forall_mem_append] at clear
    have first := (e.does a m).edited sound clear.1
    exact first.trans sound (ih first.sound (forall_clear_of_ring first.ring clear.2))

/-- If it also reads nothing that is still to be written, it does what it does on plain strings. -/
theorem Script.exec_settled (script : Script) (sound : m.Sound)
    (clear : ∀ access ∈ script.moves a m, m.heap.Clear access)
    (landed : ∀ access ∈ script.looks a m, m.heap.Clear access) :
    script.run m.settled = ((script.exec a m).1.settled, (script.exec a m).2) := by
  induction script generalizing a m with
  | done reply => rfl
  | length place next ih =>
    rw [Script.run_length, m.settled_length place]
    exact ih _ sound clear landed
  | read place off n next ih =>
    simp only [Script.looks, List.forall_mem_append] at landed
    rw [Script.run_read, Memory.settled_range landed.1]
    exact ih _ sound clear landed.2
  | edit e next ih =>
    simp only [Script.moves, List.forall_mem_append] at clear
    have first := (e.does a m).edited sound clear.1
    rw [Script.run_edit, ← (e.does a m).settled sound clear.1]
    exact ih first.sound (forall_clear_of_ring first.ring clear.2)
      (forall_clear_of_ring first.ring landed)

end Edits
end Copier.Redis
