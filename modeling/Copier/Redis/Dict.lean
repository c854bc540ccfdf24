import Copier.Foundation.Buckets

/-! The hash table of the key space: two tables, the entries of the first moved to
the second a bucket at a time, by the operations themselves. -/
namespace Copier.Redis

inductive DictResizeEnable
  | enable
  | avoid
  | forbid
deriving DecidableEq

/-- `expandAllowed` is given the ratio as its two numbers. -/
structure DictType (K : Type) where
  hashFunction : K → BitVec 64
  expandAllowed : Option (ℕ → ℕ × ℕ → Bool)

/-- A `table` without chains is NULL. -/
structure DictHt (K V : Type) where
  table : List (List (K × V))
  size : ℕ
  sizemask : ℕ
  used : ℕ

/-- A `rehashidx` of -1 is `none`. -/
structure Dict (K V : Type) where
  ht0 : DictHt K V
  ht1 : DictHt K V
  rehashidx : Option ℕ
  pauserehash : Int16

def DICT_HT_INITIAL_SIZE : ℕ := 4
def dict_force_resize_ratio : ℕ := 5
def LONG_MAX : ℕ := 2 ^ 63 - 1

variable {K V : Type}

def _dictReset : DictHt K V := ⟨[], 0, 0, 0⟩

def dictCreate : Dict K V := ⟨_dictReset, _dictReset, none, 0⟩

namespace DictHt

def chain (t : DictHt K V) (h : BitVec 64) : Option (List (K × V)) :=
  t.table[h.toNat &&& t.sizemask]?

def setChain (t : DictHt K V) (h : BitVec 64) (chain : List (K × V)) : DictHt K V :=
  { t with table := t.table.set (h.toNat &&& t.sizemask) chain }

end DictHt

/-- `dictSetVal` on the first entry of the key. -/
def setVal [DecidableEq K] (key : K) (val : V) : List (K × V) → List (K × V)
  | [] => []
  | e :: chain => if e.1 = key then (e.1, val) :: chain else e :: setVal key val chain

namespace Dict

def dictIsRehashing (d : Dict K V) : Bool := d.rehashidx.isSome
def dictSize (d : Dict K V) : ℕ := d.ht0.used + d.ht1.used
def dictPauseRehashing (d : Dict K V) : Dict K V := { d with pauserehash := d.pauserehash + 1 }
def dictResumeRehashing (d : Dict K V) : Dict K V := { d with pauserehash := d.pauserehash - 1 }

def ht (d : Dict K V) (second : Bool) : DictHt K V := if second then d.ht1 else d.ht0

def setHt (d : Dict K V) (second : Bool) (t : DictHt K V) : Dict K V :=
  if second then { d with ht1 := t } else { d with ht0 := t }

def nextPower (size : ℕ) : ℕ → ℕ → ℕ
  | 0, i => i
  | fuel + 1, i => if size ≤ i then i else nextPower size fuel (i * 2)

/-- Doubling the initial size 61 times gives `LONG_MAX + 1`. -/
def _dictNextPower (size : ℕ) : ℕ :=
  if LONG_MAX ≤ size then LONG_MAX + 1 else nextPower size 61 DICT_HT_INITIAL_SIZE

/-- What it returns, with `allocated` the success of `ztrycalloc`, and `malloc_failed`. -/
def _dictExpand (d : Dict K V) (size : ℕ) (allocated : Bool) : Dict K V × Bool × Bool :=
  if d.dictIsRehashing ∨ size < d.ht0.used then (d, false, false)
  else
    let realsize := _dictNextPower size
    if realsize < size ∨ realsize * 8 % 2 ^ 64 < realsize then (d, false, false)
    else if realsize = d.ht0.size then (d, false, false)
    else if ¬ allocated then (d, false, true)
    else
      let n : DictHt K V := ⟨List.replicate realsize [], realsize, realsize - 1, 0⟩
      if d.ht0.table = [] then ({ d with ht0 := n }, true, false)
      else ({ d with ht1 := n, rehashidx := some 0 }, true, false)

/-- `zcalloc` does not return without the memory. -/
def dictExpand (d : Dict K V) (size : ℕ) : Dict K V × Bool :=
  let (d, expanded, _) := _dictExpand d size true
  (d, expanded)

def dictTryExpand (d : Dict K V) (size : ℕ) (allocated : Bool) : Dict K V × Bool :=
  let (d, _, malloc_failed) := _dictExpand d size allocated
  (d, !malloc_failed)

def dictResize (can : DictResizeEnable) (d : Dict K V) : Dict K V × Bool :=
  if can ≠ .enable ∨ d.dictIsRehashing then (d, false)
  else dictExpand d (max d.ht0.used DICT_HT_INITIAL_SIZE)

/-! Rehashing. An access outside a table is `none`. -/

/-- The loop over the empty buckets: where it stops, and how many visits it has left. -/
def emptyVisits (table : List (List (K × V))) : ℕ → ℕ → Option (ℕ × ℕ)
  | 0, idx => some (idx, 0)
  | visits + 1, idx =>
      match table[idx]? with
      | none => none
      | some [] => emptyVisits table visits (idx + 1)
      | some (_ :: _) => some (idx, visits + 1)

section
variable (type : DictType K)

/-- The loop over the keys of a bucket, from the old table to the new one. -/
def moveKeys : List (K × V) → DictHt K V → DictHt K V → Option (DictHt K V × DictHt K V)
  | [], t0, t1 => some (t0, t1)
  | de :: nextde, t0, t1 => do
      let h := type.hashFunction de.1
      let chain ← t1.chain h
      let t1 := t1.setChain h (de :: chain)
      moveKeys nextde { t0 with used := t0.used - 1 } { t1 with used := t1.used + 1 }

/-- The rounds of `dictRehash`, and whether it returned from within. -/
def rehashRounds : ℕ → ℕ → Dict K V → Option (Dict K V × Bool)
  | 0, _, d => some (d, false)
  | n + 1, empty_visits, d =>
      if d.ht0.used = 0 then some (d, false)
      else do
        let rehashidx ← d.rehashidx
        if d.ht0.size ≤ rehashidx then none
        else
          let (idx, visits) ← emptyVisits d.ht0.table empty_visits rehashidx
          if visits = 0 then some ({ d with rehashidx := some idx }, true)
          else
            let chain ← d.ht0.table[idx]?
            let (t0, t1) ← moveKeys type chain d.ht0 d.ht1
            rehashRounds n visits
              { d with
                ht0 := { t0 with table := t0.table.set idx [] }
                ht1 := t1
                rehashidx := some (idx + 1) }

variable (can : DictResizeEnable)

def dictRehash (d : Dict K V) (n : ℕ) : Option (Dict K V × Bool) :=
  let s0 := d.ht0.size
  let s1 := d.ht1.size
  if can = .forbid ∨ ¬ d.dictIsRehashing then some (d, false)
  else if can = .avoid ∧ (s0 < s1 ∧ s1 / s0 < dict_force_resize_ratio ∨
      s1 < s0 ∧ s0 / s1 < dict_force_resize_ratio) then some (d, false)
  else do
    let (d, early) ← rehashRounds type n (n * 10) d
    if early then some (d, true)
    else if d.ht0.used = 0 then
      some ({ d with ht0 := d.ht1, ht1 := _dictReset, rehashidx := none }, false)
    else some (d, true)

/-- The time is up in the round after the given number of them. -/
def rehashMilliseconds : ℕ → Dict K V → Option (Dict K V × ℕ)
  | 0, d => do
      let (d, more) ← dictRehash type can d 100
      some (d, if more then 100 else 0)
  | rounds + 1, d => do
      let (d, more) ← dictRehash type can d 100
      if more then
        let (d, rehashes) ← rehashMilliseconds rounds d
        some (d, rehashes + 100)
      else some (d, 0)

def dictRehashMilliseconds (d : Dict K V) (rounds : ℕ) : Option (Dict K V × ℕ) :=
  if 0 < d.pauserehash then some (d, 0) else rehashMilliseconds type can rounds d

def _dictRehashStep (d : Dict K V) : Option (Dict K V) :=
  if d.pauserehash = 0 then (dictRehash type can d 1).map Prod.fst else some d

/-- The step of rehashing the operations begin with. -/
def beginStep (d : Dict K V) : Option (Dict K V) :=
  if d.dictIsRehashing then _dictRehashStep type can d else some d

def dictTypeExpandAllowed (d : Dict K V) : Bool :=
  match type.expandAllowed with
  | none => true
  | some allowed => allowed (_dictNextPower (d.ht0.used + 1) * 8) (d.ht0.used, d.ht0.size)

def _dictExpandIfNeeded (d : Dict K V) : Dict K V × Bool :=
  if d.dictIsRehashing then (d, true)
  else if d.ht0.size = 0 then dictExpand d DICT_HT_INITIAL_SIZE
  else if ¬ dictTypeExpandAllowed type d then (d, true)
  else if can = .enable ∧ d.ht0.size ≤ d.ht0.used ∨
      can ≠ .forbid ∧ dict_force_resize_ratio < d.ht0.used / d.ht0.size then
    dictExpand d (d.ht0.used + 1)
  else (d, true)

/-! Operations on keys. -/

variable [DecidableEq K]

/-- The loop over the two tables: the entry of the key, and the table it is in. -/
def search (d : Dict K V) (key : K) : Option (Option (Bool × K × V)) := do
  let h := type.hashFunction key
  let chain ← d.ht0.chain h
  match chain.find? fun he => he.1 = key with
  | some he => some (some (false, he))
  | none =>
      if ¬ d.dictIsRehashing then some none
      else do
        let chain ← d.ht1.chain h
        some ((chain.find? fun he => he.1 = key).map fun he => (true, he))

/-- What `dictAddRaw` returns: an entry, or none and what `*existing` is. -/
inductive Raw (K V : Type)
  | entry
  | existing (second : Bool) (he : K × V)
  | null

/-- The entry is given the value the caller sets it to. `_dictKeyIndex` gives the bucket
in the table searched last. -/
def dictAddRaw (d : Dict K V) (key : K) (val : V) : Option (Dict K V × Raw K V) := do
  let d ← beginStep type can d
  let (d, expanded) := _dictExpandIfNeeded type can d
  if ¬ expanded then some (d, .null)
  else
    let found ← search type d key
    match found with
    | some (second, he) => some (d, .existing second he)
    | none =>
        let h := type.hashFunction key
        let ht := d.ht d.dictIsRehashing
        let chain ← ht.chain h
        let ht := ht.setChain h ((key, val) :: chain)
        some (d.setHt d.dictIsRehashing { ht with used := ht.used + 1 }, .entry)

def dictAdd (d : Dict K V) (key : K) (val : V) : Option (Dict K V × Bool) := do
  let (d, raw) ← dictAddRaw type can d key val
  match raw with
  | .entry => some (d, true)
  | _ => some (d, false)

/-- Without an entry and without an existing one, `*existing` is a null pointer. -/
def dictReplace (d : Dict K V) (key : K) (val : V) : Option (Dict K V × Bool) := do
  let (d, raw) ← dictAddRaw type can d key val
  match raw with
  | .entry => some (d, true)
  | .null => none
  | .existing second _ =>
      let h := type.hashFunction key
      let chain ← (d.ht second).chain h
      some (d.setHt second ((d.ht second).setChain h (setVal key val chain)), false)

def dictAddOrFind (d : Dict K V) (key : K) (val : V) : Option (Dict K V × Option (K × V)) := do
  let (d, raw) ← dictAddRaw type can d key val
  match raw with
  | .entry => some (d, some (key, val))
  | .existing _ he => some (d, some he)
  | .null => some (d, none)

def dictGenericDelete (d : Dict K V) (key : K) : Option (Dict K V × Option (K × V)) :=
  if d.ht0.used = 0 ∧ d.ht1.used = 0 then some (d, none)
  else do
    let d ← beginStep type can d
    let found ← search type d key
    match found with
    | none => some (d, none)
    | some (second, he) =>
        let h := type.hashFunction key
        let ht := d.ht second
        let chain ← ht.chain h
        let ht := ht.setChain h (chain.eraseP fun he => he.1 = key)
        some (d.setHt second { ht with used := ht.used - 1 }, some he)

def dictDelete (d : Dict K V) (key : K) : Option (Dict K V × Bool) := do
  let (d, he) ← dictGenericDelete type can d key
  some (d, he.isSome)

def dictUnlink (d : Dict K V) (key : K) : Option (Dict K V × Option (K × V)) :=
  dictGenericDelete type can d key

def dictFind (d : Dict K V) (key : K) : Option (Dict K V × Option (K × V)) :=
  if d.dictSize = 0 then some (d, none)
  else do
    let d ← beginStep type can d
    let found ← search type d key
    some (d, found.map Prod.snd)

def dictFetchValue (d : Dict K V) (key : K) : Option (Dict K V × Option V) := do
  let (d, he) ← dictFind type can d key
  some (d, he.map Prod.snd)

end

def dictEmpty (d : Dict K V) : Dict K V :=
  { d with ht0 := _dictReset, ht1 := _dictReset, rehashidx := none, pauserehash := 0 }

end Dict
end Copier.Redis
