import Copier.Tinyproxy.Buffer

/-! The body of a request on its way from the client to the server, whole or in chunks. The
copier version differs in how it receives and sends, which is left open here, and in what it
does behind a body. -/
namespace Copier.Tinyproxy.Body

def SEGMENT_LEN : ℕ := 512
def MAXIMUM_BUFFER_LENGTH : ℕ := 128 * 1024
def CRLF : Bytes := [13, 10]

inductive Variant
  | baseline
  | copier
deriving DecidableEq

/-- What `recv`, `read` and `send` come back with, and their copying versions. -/
inductive Result
  | bytes (n : ℕ)
  | EINTR
  | EAGAIN
  | error
deriving DecidableEq

/-- The result of a call: memory comes with what it held before. -/
inductive Label
  | io (r : Result)
  | malloc (stale : Option (ℕ → UInt8))
  | fcntl (ok : Bool)

/-- The next call: in `readline`, in the write of a chunk header, in the loop over the body,
and behind the body. -/
inductive Phase
  | readline
  | peek (line : Bytes)
  | allocate (line : Bytes) (diff : ℕ) (found : Bool)
  | take (line : Bytes) (diff : ℕ) (found : Bool) (stale : ℕ → UInt8)
  | further (line : Bytes)
  | join (line : Bytes)
  | header (line left : Bytes)
  | buffer (length : Int)
  | read (length : Int)
  | write (length : Int) (left : Bytes)
  | nonblocking
  | peekTwo
  | blocking (len : Result)
  | readTwo
  | returned (ret : Int)

/-- What does not change: whether there are error variables, and the `iehack` of the call. -/
structure Call where
  error_variables : Bool
  iehack : Int

/-- `client` is what the client sends and nothing has read; `chunklen` is there for a chunked
body only. -/
structure World where
  client : Bytes
  forwarded : Bytes
  chunklen : Option Int
  phase : Phase

def pull_client_data (client : Bytes) (length : Int) : World := ⟨client, [], none, .buffer length⟩

def pull_client_data_chunked (client : Bytes) : World := ⟨client, [], some 0, .readline⟩

section Functions

def isspace (c : UInt8) : Bool := c = 32 || 9 ≤ c && c ≤ 13

def hexDigit (c : UInt8) : Option ℕ :=
  if 48 ≤ c ∧ c ≤ 57 then some (c.toNat - 48)
  else if 65 ≤ c ∧ c ≤ 70 then some (c.toNat - 55)
  else if 97 ≤ c ∧ c ≤ 102 then some (c.toNat - 87)
  else none

/-- A `0x` counts when a digit follows. -/
def afterRadix (s : Bytes) : Bytes :=
  match s with
  | 48 :: x :: d :: rest => if (x = 120 ∨ x = 88) ∧ (hexDigit d).isSome then d :: rest else s
  | _ => s

def hexValue (s : Bytes) : ℕ :=
  (s.takeWhile fun c => (hexDigit c).isSome).foldl (fun n c => n * 16 + (hexDigit c).getD 0) 0

/-- `strtol` to the base 16. -/
def strtol (s : Bytes) : Int :=
  match s.dropWhile isspace with
  | 45 :: s => max (-(2 ^ 63)) (-(hexValue (afterRadix s)))
  | 43 :: s => min (2 ^ 63 - 1) (hexValue (afterRadix s))
  | s => min (2 ^ 63 - 1) (hexValue (afterRadix s))

/-- A sum of `long` numbers. -/
def toLong (n : Int) : Int := n.bmod (2 ^ 64)

/-- How much of the body is asked for; a negative length is a large number. -/
def count (length : Int) : ℕ := min MAXBUFFSIZE (length % 2 ^ 64).toNat

/-- Fresh memory with some bytes received into it. -/
def overlay (stale : ℕ → UInt8) (got : Bytes) (len : ℕ) : Bytes :=
  (List.range len).map fun i => got.getD i (stale i)

variable (v : Variant) (c : Call) (x : World)

def World.go (phase : Phase) : World := { x with phase := phase }

/-- `pull_client_data` returns, to the loop over the chunks if there is one. -/
def World.pulled (ret : Int) : World :=
  match x.chunklen with
  | none => x.go (.returned ret)
  | some chunklen =>
      if ret < 0 then x.go (.returned (-1))
      else if chunklen = 0 then x.go (.returned 0)
      else x.go .readline

/-- The end of the loop over the body, behind which the copier version does nothing. -/
def World.behind : World :=
  match v with
  | .baseline => if c.iehack = 0 then x.pulled 0 else x.go .nonblocking
  | .copier => x.pulled 0

/-- A piece of the body is forwarded. -/
def World.passed (length : Int) : World := if 0 < length then x.go (.read length) else x.behind v c

/-- The header of a chunk is forwarded. -/
def World.headed (line : Bytes) : World :=
  { x with chunklen := some (strtol line), phase := .buffer (toLong (strtol line + 2)) }

/-- What `readline` makes of the bytes it may look at. -/
def World.peeked (line data : Bytes) : World :=
  let newline := data.findIdx? (· = 10)
  let diff := (newline.map (· + 1)).getD data.length
  if data = [] ∨ MAXIMUM_BUFFER_LENGTH < line.length + diff then x.go (.returned (-1))
  else x.go (.allocate line diff newline.isSome)

/-- Bytes of the client that a call of this size reads. -/
def World.reads (size n : ℕ) : Bytes := (x.client.take size).take n

def World.consumed (data : Bytes) : World := { x with client := x.client.drop data.length }

def World.sent (data : Bytes) : World := { x with forwarded := x.forwarded ++ data }

def step (l : Label) : Option World :=
  match x.phase, l with
  | .readline, .malloc stale => some (if stale.isSome then x.go (.peek []) else x.go (.returned (-1)))
  | .peek line, .io (.bytes n) => some (x.peeked line (x.reads SEGMENT_LEN n))
  | .peek _, .io _ => some (x.go (.returned (-1)))
  | .allocate line diff found, .malloc (some stale) => some (x.go (.take line diff found stale))
  | .allocate _ _ _, .malloc none => some (x.go (.returned (-1)))
  | .take line diff found stale, .io (.bytes n) =>
      let line := line ++ overlay stale (x.reads diff n) diff
      some ((x.consumed (x.reads diff n)).go (if found then .join line else .further line))
  | .take _ _ _ _, .io _ => some (x.go (.returned (-1)))
  | .further line, .malloc stale =>
      some (if stale.isSome then x.go (.peek line) else x.go (.returned (-1)))
  | .join line, .malloc stale =>
      some (if stale.isNone then x.go (.returned (-1))
        else if c.error_variables then x.headed line
        else x.go (.header line line))
  | .header line left, .io (.bytes n) =>
      let x := x.sent (left.take n)
      some (if left.drop n = [] then x.headed line else x.go (.header line (left.drop n)))
  | .header _ _, .io .EINTR => some x
  | .header _ _, .io _ => some (x.go (.returned (-1)))
  | .buffer length, .malloc stale => some (if stale.isSome then x.go (.read length) else x.pulled (-1))
  | .read length, .io (.bytes n) =>
      let data := x.reads (count length) n
      let left := toLong (length - data.length)
      some (if data = [] then x.pulled (-1)
        else if c.error_variables then (x.consumed data).passed v c left
        else (x.consumed data).go (.write left data))
  | .read _, .io .EINTR => some x
  | .read _, .io _ => some (x.pulled (-1))
  | .write length left, .io (.bytes n) =>
      let x := x.sent (left.take n)
      some (if left.drop n = [] then x.passed v c length else x.go (.write length (left.drop n)))
  | .write _ _, .io .EINTR => some x
  | .write _ _, .io _ => some (x.pulled (-1))
  | .nonblocking, .fcntl ok => some (if ok then x.go .peekTwo else x.pulled (-1))
  | .peekTwo, .io len => some (x.go (.blocking len))
  | .blocking len, .fcntl ok =>
      if ok then match len with
        | .bytes n => some (if x.reads 2 n = CRLF then x.go .readTwo else x.pulled 0)
        | .EAGAIN => some (x.pulled 0)
        | _ => some (x.pulled (-1))
      else some (x.pulled (-1))
  | .readTwo, .io (.bytes n) => some ((x.consumed (x.reads 2 n)).pulled 0)
  | .readTwo, .io _ => some (x.pulled 0)
  | _, _ => none

end Functions

/-- The calls whose end `relay_connection` follows; a chunk's has no `iehack`. -/
inductive Called (c : Call) : World → Prop where
  | whole (client length) : Called c (pull_client_data client length)
  | chunked (client) : c.iehack = 0 → Called c (pull_client_data_chunked client)

/-- Where the baseline returns, the copier version has returned the same, with the same bytes
forwarded and the same bytes of the client still to be read. -/
def Agrees (c : Call) (start : World) (ls : List Label) : Prop :=
  ∀ x ret, Runs.run (step .baseline c) start ls = some x → x.phase = .returned ret →
    ∃ pre y, pre <+: ls ∧ Runs.run (step .copier c) start pre = some y ∧ y.phase = .returned ret ∧
      y.forwarded = x.forwarded ∧ y.client = x.client

/-- Results behind a body that fail it, or that take a CRLF from the client. -/
inductive Spoils (client : Bytes) : List Label → Prop where
  | nonblocking : Spoils client [.fcntl false]
  | blocking (len) : Spoils client [.fcntl true, .io len, .fcntl false]
  | interrupted : Spoils client [.fcntl true, .io .EINTR, .fcntl true]
  | failed : Spoils client [.fcntl true, .io .error, .fcntl true]
  | crlf : (client.take 2).take n = CRLF → 0 < k →
      Spoils client [.fcntl true, .io (.bytes n), .fcntl true, .io (.bytes k)]

/-- If the baseline comes to what the copier version leaves out, it has no effect there. -/
def Harmless (c : Call) (start : World) (ls : List Label) : Prop :=
  ∀ pre rest x, ls = pre ++ rest → Runs.run (step .baseline c) start pre = some x →
    x.phase = .nonblocking → ¬ Spoils x.client rest

/-- The calls made for the header of a chunk. -/
def Phase.ofLine : Phase → Bool
  | .readline | .peek _ | .allocate .. | .take .. | .further _ | .join _ | .header .. => true
  | _ => false

/-- How far the calls behind a body are. -/
def Phase.rank : Phase → ℕ
  | .nonblocking => 1
  | .peekTwo => 2
  | .blocking _ => 3
  | .readTwo => 4
  | .returned _ => 5
  | _ => 0

/-- What a call comes to that is not made for the header of a chunk. -/
inductive World.Proceeds (v : Variant) (c : Call) (x : World) : World → Prop where
  | again : x.phase.rank = 0 → Proceeds v c x x
  | pulled (ret) : x.phase.rank < 5 → Proceeds v c x (x.pulled ret)
  | allocated : x.phase = .buffer length → Proceeds v c x (x.go (.read length))
  | passed : x.phase = .read length → data = x.reads (count length) n →
      Proceeds v c x ((x.consumed data).passed v c (toLong (length - data.length)))
  | filled : x.phase = .read length → data = x.reads (count length) n →
      Proceeds v c x ((x.consumed data).go (.write (toLong (length - data.length)) data))
  | forwarded : x.phase = .write length left → Proceeds v c x ((x.sent data).passed v c length)
  | partly : x.phase = .write length left → Proceeds v c x ((x.sent data).go (.write length rest))
  | nonblocking : x.phase = .nonblocking → Proceeds v c x (x.go .peekTwo)
  | peeked : x.phase = .peekTwo → Proceeds v c x (x.go (.blocking len))
  | blocking : x.phase = .blocking len → Proceeds v c x (x.go .readTwo)
  | taken : x.phase = .readTwo → Proceeds v c x ((x.consumed data).pulled 0)

/-- Only a body that is not chunked is followed by anything. -/
structure World.Plain (x : World) : Prop where
  chunklen : x.chunklen = none
  phase : x.phase.ofLine = false

section Steps
variable {v : Variant} {c : Call} {x x' y : World} {l : Label} {ls : List Label}

theorem pulled_plain (none : x.chunklen = none) (ret : Int) : x.pulled ret = x.go (.returned ret) := by
  simp only [World.pulled, none]

theorem plain_pulled (none : x.chunklen = none) (ret : Int) : (x.pulled ret).Plain := by
  rw [pulled_plain none]
  exact ⟨none, rfl⟩

theorem plain_passed (none : x.chunklen = none) (length : Int) : (x.passed v c length).Plain := by
  unfold World.passed World.behind
  split
  · exact ⟨none, rfl⟩
  · cases v with
    | copier => exact plain_pulled none 0
    | baseline =>
      dsimp only
      split
      · exact plain_pulled none 0
      · exact ⟨none, rfl⟩

theorem step_proceeds (body : x.phase.ofLine = false) (stepped : step v c x l = some x') :
    x.Proceeds v c x' := by
  have returns (ret) (here : x.phase.rank < 5) : x.Proceeds v c (x.pulled ret) := .pulled ret here
  unfold step at stepped
  split at stepped <;> rename_i here <;> simp only [here, Phase.ofLine, Bool.true_eq_false] at body
  all_goals simp only [here, Phase.rank, Nat.reduceLT, true_implies] at returns
  · cases stepped
    split
    · exact .allocated here
    · exact returns _
  · cases stepped
    split
    · exact returns _
    · split
      · exact .passed here rfl
      · exact .filled here rfl
  · cases stepped
    exact .again (by rw [here]; rfl)
  · cases stepped
    exact returns _
  · cases stepped
    split
    · exact .forwarded here
    · exact .partly here
  · cases stepped
    exact .again (by rw [here]; rfl)
  · cases stepped
    exact returns _
  · cases stepped
    split
    · exact .nonblocking here
    · exact returns _
  · cases stepped
    exact .peeked here
  · split at stepped
    · split at stepped <;> cases stepped
      · split
        · exact .blocking here
        · exact returns _
      · exact returns _
      · exact returns _
    · cases stepped
      exact returns _
  · cases stepped
    exact .taken here
  · cases stepped
    exact returns _
  · cases stepped

theorem World.Plain.step (plain : x.Plain) (stepped : step v c x l = some x') : x'.Plain := by
  obtain ⟨none, -⟩ := id plain
  cases step_proceeds plain.phase stepped with
  | again => exact plain
  | pulled ret => exact plain_pulled none ret
  | passed here same => exact plain_passed (x := x.consumed _) none _
  | forwarded => exact plain_passed (x := x.sent _) none _
  | taken => exact plain_pulled (x := x.consumed _) none _
  | allocated | filled | partly | nonblocking | peeked | blocking => exact ⟨none, rfl⟩

theorem step_returned (returned : x.phase = .returned ret) : step v c x l = none := by
  simp only [step, returned]

theorem rank_returned (late : x.phase.rank = 5) : ∃ ret, x.phase = .returned ret := by
  cases here : x.phase with
  | returned ret => exact ⟨ret, rfl⟩
  | _ => simp only [here, Phase.rank, OfNat.zero_ne_ofNat, OfNat.one_ne_ofNat, Nat.reduceEqDiff] at late

theorem pulled_rank (x : World) (ret : Int) :
    (x.pulled ret).phase.rank = 0 ∨ (x.pulled ret).phase.rank = 5 := by
  unfold World.pulled
  cases x.chunklen with
  | none => exact .inr rfl
  | some chunklen =>
    dsimp only
    split
    · exact .inr rfl
    · split
      · exact .inr rfl
      · exact .inl rfl

theorem peeked_rank (x : World) (line data : Bytes) :
    (x.peeked line data).phase.rank = 0 ∨ (x.peeked line data).phase.rank = 5 := by
  unfold World.peeked
  dsimp only
  split
  · exact .inr rfl
  · exact .inl rfl

theorem passed_rank (x : World) (length : Int) :
    (x.passed .copier c length).phase.rank = 0 ∨ (x.passed .copier c length).phase.rank = 5 := by
  unfold World.passed
  split
  · exact .inl rfl
  · exact pulled_rank x 0

/-- The copier version never makes a call of what follows a body. -/
theorem step_rank (early : x.phase.rank = 0) (stepped : step .copier c x l = some x') :
    x'.phase.rank = 0 ∨ x'.phase.rank = 5 := by
  unfold step at stepped
  split at stepped <;> rename_i here <;>
    simp only [here, Phase.rank, OfNat.ofNat_ne_zero, Nat.one_ne_zero] at early <;>
    cases stepped
  · split
    · exact .inl rfl
    · exact .inr rfl
  · exact peeked_rank x _ _
  · exact .inr rfl
  · exact .inl rfl
  · exact .inr rfl
  · split
    · exact .inl rfl
    · exact .inl rfl
  · exact .inr rfl
  · split
    · exact .inl rfl
    · exact .inr rfl
  · split
    · exact .inr rfl
    · split
      · exact .inl rfl
      · exact .inl rfl
  · split
    · exact .inl rfl
    · exact .inl rfl
  · exact .inl (by rw [here]; rfl)
  · exact .inr rfl
  · split
    · exact .inl rfl
    · exact pulled_rank x _
  · split
    · exact pulled_rank x _
    · split
      · exact passed_rank _ _
      · exact .inl rfl
  · exact .inl (by rw [here]; rfl)
  · exact pulled_rank x _
  · split
    · exact passed_rank _ _
    · exact .inl rfl
  · exact .inl (by rw [here]; rfl)
  · exact pulled_rank x _

/-- The versions differ behind a piece of a body. -/
theorem step_variants : step .baseline c x l = step .copier c x l ∨
    ∃ y length, y.chunklen = x.chunklen ∧ ∀ v, step v c x l = some (World.passed v c y length) := by
  unfold step
  split <;> try exact .inl rfl
  · rename_i length n _
    dsimp only
    generalize x.reads (count length) n = data
    by_cases empty : data = []
    · left
      rw [if_pos empty, if_pos empty]
    · by_cases error : c.error_variables
      · refine .inr ⟨x.consumed data, toLong (length - data.length), rfl, fun v => ?_⟩
        rw [if_neg empty, if_pos error]
      · left
        rw [if_neg empty, if_neg empty, if_neg error, if_neg error]
  · rename_i length left n _
    by_cases whole : left.drop n = []
    · refine .inr ⟨x.sent (left.take n), length, rfl, fun v => ?_⟩
      exact congrArg some (if_pos whole)
    · left
      dsimp only
      rw [if_neg whole, if_neg whole]

/-- Up to the end of a body both versions step the same; there only one of them returns. -/
theorem step_before (early : x.phase.rank = 0) (stepped : step .baseline c x l = some x') :
    (step .copier c x l = some x' ∧ (x'.phase.rank = 0 ∨ x'.phase.rank = 5)) ∨
    (c.iehack ≠ 0 ∧ x'.chunklen = x.chunklen ∧ x'.phase = .nonblocking ∧
      step .copier c x l = some (x'.pulled 0)) := by
  obtain same | ⟨y, length, chunklen, steps⟩ := step_variants (c := c) (x := x) (l := l)
  · rw [same] at stepped
    exact .inl ⟨stepped, step_rank early stepped⟩
  have copied := steps .copier
  rw [steps .baseline] at stepped
  cases stepped
  by_cases further : 0 < length
  · left
    rw [copied]
    simp only [World.passed, further, if_true, World.go, Phase.rank, true_or, and_self]
  by_cases hack : c.iehack = 0
  · left
    have same : y.passed .baseline c length = y.passed .copier c length := by
      simp only [World.passed, World.behind, further, hack, if_true]
    rw [copied, same]
    exact ⟨rfl, passed_rank y length⟩
  · right
    rw [copied]
    simp only [World.passed, World.behind, further, hack, if_false]
    exact ⟨hack, chunklen, rfl, rfl⟩

/-- What follows a body is run through once. -/
theorem step_late (plain : x.Plain) (late : 0 < x.phase.rank) (stepped : step v c x l = some x') :
    x.phase.rank < x'.phase.rank := by
  cases step_proceeds plain.phase stepped with
  | again early => omega
  | pulled ret below =>
    rw [pulled_plain plain.chunklen]
    exact below
  | allocated here | passed here | filled here | forwarded here | partly here =>
    rw [here] at late
    exact absurd late (Nat.lt_irrefl 0)
  | nonblocking here | peeked here | blocking here =>
    rw [here]
    exact Nat.lt_succ_self _
  | taken here =>
    rw [here, pulled_plain (x := x.consumed _) plain.chunklen]
    exact Nat.lt_succ_self 4

theorem run_late (plain : x.Plain) (late : 0 < x.phase.rank)
    (ran : Runs.run (step v c) x ls = some x') : x.phase.rank + ls.length ≤ x'.phase.rank := by
  induction ls generalizing x with
  | nil =>
    cases ran
    exact Nat.le_refl _
  | cons l rest ih =>
    obtain ⟨y, stepped, ran⟩ := Option.bind_eq_some_iff.mp ran
    have higher := step_late plain late stepped
    have rest := ih (plain.step stepped) (by omega) ran
    simp only [List.length_cons]
    omega

theorem run_cons (early : x.phase.rank < x'.phase.rank)
    (ran : Runs.run (step v c) x ls = some x') :
    ∃ l rest y, ls = l :: rest ∧ step v c x l = some y ∧ Runs.run (step v c) y rest = some x' := by
  cases ls with
  | nil =>
    cases ran
    exact absurd early (Nat.lt_irrefl _)
  | cons l rest =>
    obtain ⟨y, stepped, ran⟩ := Option.bind_eq_some_iff.mp ran
    exact ⟨l, rest, y, rfl, stepped, ran⟩

theorem run_returned (returned : x.phase = .returned ret)
    (ran : Runs.run (step v c) x ls = some x') : ls = [] ∧ x' = x := by
  cases ls with
  | nil =>
    cases ran
    exact ⟨rfl, rfl⟩
  | cons l rest =>
    obtain ⟨y, stepped, _⟩ := Option.bind_eq_some_iff.mp ran
    rw [step_returned returned] at stepped
    contradiction

theorem run_readTwo (none : x.chunklen = none) (here : x.phase = .readTwo)
    (ran : Runs.run (step v c) x ls = some x') (returned : x'.phase = .returned ret) :
    ret = 0 ∧ x'.forwarded = x.forwarded ∧
      (x'.client = x.client ∨ ∃ k, ls = [.io (.bytes k)] ∧ 0 < k) := by
  have early : x.phase.rank < x'.phase.rank := by
    rw [here, returned]
    exact Nat.lt_succ_self 4
  obtain ⟨l, rest, y, rfl, stepped, ran⟩ := run_cons early ran
  cases l with
  | malloc | fcntl => simp only [step, here, reduceCtorEq] at stepped
  | io r =>
    cases r with
    | bytes k =>
      simp only [step, here, Option.some.injEq] at stepped
      rw [pulled_plain (x := x.consumed _) none] at stepped
      subst stepped
      obtain ⟨rfl, rfl⟩ := run_returned rfl ran
      cases returned
      refine ⟨rfl, rfl, ?_⟩
      cases k with
      | zero => exact .inl rfl
      | succ k => exact .inr ⟨k + 1, rfl, Nat.succ_pos k⟩
    | EINTR | EAGAIN | error =>
      simp only [step, here, Option.some.injEq] at stepped
      rw [pulled_plain none] at stepped
      subst stepped
      obtain ⟨rfl, rfl⟩ := run_returned rfl ran
      cases returned
      exact ⟨rfl, rfl, .inl rfl⟩

theorem run_blocking (none : x.chunklen = none) (here : x.phase = .blocking len)
    (ran : Runs.run (step v c) x ls = some x') (returned : x'.phase = .returned ret) :
    Spoils x.client (.fcntl true :: .io len :: ls) ∨
      ret = 0 ∧ x'.forwarded = x.forwarded ∧ x'.client = x.client := by
  have early : x.phase.rank < x'.phase.rank := by
    rw [here, returned]
    exact Nat.lt_add_of_pos_right (Nat.succ_pos 1)
  obtain ⟨l, rest, y, rfl, stepped, ran⟩ := run_cons early ran
  have ends (ret') (same : y = x.pulled ret') : rest = [] ∧ ret = ret' ∧ x' = x.go (.returned ret') := by
    rw [pulled_plain none] at same
    obtain ⟨rfl, rfl⟩ := run_returned (congrArg World.phase same) ran
    subst same
    cases returned
    exact ⟨rfl, rfl, rfl⟩
  cases l with
  | io | malloc => simp only [step, here, reduceCtorEq] at stepped
  | fcntl ok =>
    simp only [step, here] at stepped
    cases ok with
    | false =>
      cases stepped
      obtain ⟨rfl, _, _⟩ := ends _ rfl
      exact .inl (.blocking len)
    | true =>
      cases len with
      | bytes n =>
        by_cases crlf : x.reads 2 n = CRLF
        · simp only [if_true, crlf, Option.some.injEq] at stepped
          subst stepped
          obtain ⟨rfl, forwarded, client | ⟨k, rfl, some⟩⟩ :=
            run_readTwo (x := x.go .readTwo) none rfl ran returned
          · exact .inr ⟨rfl, forwarded, client⟩
          · exact .inl (.crlf crlf some)
        · simp only [if_true, crlf, if_false, Option.some.injEq] at stepped
          obtain ⟨_, rfl, rfl⟩ := ends _ stepped.symm
          exact .inr ⟨rfl, rfl, rfl⟩
      | EAGAIN =>
        cases stepped
        obtain ⟨_, rfl, rfl⟩ := ends _ rfl
        exact .inr ⟨rfl, rfl, rfl⟩
      | EINTR =>
        cases stepped
        obtain ⟨rfl, _, _⟩ := ends _ rfl
        exact .inl .interrupted
      | error =>
        cases stepped
        obtain ⟨rfl, _, _⟩ := ends _ rfl
        exact .inl .failed

/-- What follows a body either spoils it or has no effect. -/
theorem run_nonblocking (none : x.chunklen = none) (here : x.phase = .nonblocking)
    (ran : Runs.run (step v c) x ls = some x') (returned : x'.phase = .returned ret) :
    Spoils x.client ls ∨ ret = 0 ∧ x'.forwarded = x.forwarded ∧ x'.client = x.client := by
  have early : x.phase.rank < x'.phase.rank := by
    rw [here, returned]
    exact Nat.lt_add_of_pos_right (Nat.succ_pos 3)
  obtain ⟨l, rest, y, rfl, stepped, behind⟩ := run_cons early ran
  cases l with
  | io | malloc => simp only [step, here, reduceCtorEq] at stepped
  | fcntl ok =>
    simp only [step, here, Option.some.injEq] at stepped
    cases ok with
    | false =>
      rw [pulled_plain none] at stepped
      obtain ⟨rfl, _⟩ := run_returned (congrArg World.phase stepped.symm) behind
      exact .inl .nonblocking
    | true =>
      subst stepped
      have early : (x.go .peekTwo).phase.rank < x'.phase.rank := by
        rw [returned]
        exact Nat.lt_add_of_pos_right (Nat.succ_pos 2)
      obtain ⟨l, rest, y, rfl, stepped, behind⟩ := run_cons early behind
      cases l with
      | malloc | fcntl => cases stepped
      | io len =>
        cases stepped
        exact run_blocking (x := x.go (.blocking len)) none rfl behind returned

theorem Spoils.runs (none : x.chunklen = none) (here : x.phase = .nonblocking)
    (spoils : Spoils x.client ls) : ∃ x' ret, Runs.run (step v c) x ls = some x' ∧
      x'.phase = .returned ret ∧ (ret ≠ 0 ∨ x'.client ≠ x.client) := by
  cases spoils with
  | nonblocking =>
    refine ⟨x.go (.returned (-1)), -1, ?_, rfl, .inl (by decide)⟩
    simp only [Runs.run, step, here, pulled_plain none, Option.bind_some, Bool.false_eq_true, if_false]
  | blocking len =>
    refine ⟨x.go (.returned (-1)), -1, ?_, rfl, .inl (by decide)⟩
    simp [Runs.run, step, here, World.go, pulled_plain, none]
  | interrupted =>
    refine ⟨x.go (.returned (-1)), -1, ?_, rfl, .inl (by decide)⟩
    simp [Runs.run, step, here, World.go, pulled_plain, none]
  | failed =>
    refine ⟨x.go (.returned (-1)), -1, ?_, rfl, .inl (by decide)⟩
    simp [Runs.run, step, here, World.go, pulled_plain, none]
  | @crlf n k crlf some =>
    refine ⟨(x.consumed (x.reads 2 k)).go (.returned 0), 0, ?_, rfl, .inr fun same => ?_⟩
    · simp [Runs.run, step, here, World.go, World.reads, World.consumed, pulled_plain, none, crlf]
    · have shorter := congrArg List.length same
      have two := congrArg List.length crlf
      simp only [World.go, World.consumed, World.reads, List.length_drop, List.length_take, CRLF,
        List.length_cons, List.length_nil] at shorter two
      omega

end Steps

section Agreement
variable {v : Variant} {c : Call} {start x y z : World} {ls pre rest tail : List Label}

theorem run_plain (called : Called c start) (ran : Runs.run (step v c) start ls = some x) :
    c.iehack = 0 ∨ x.Plain := by
  refine (Runs.Path.of_run_any ran).invariant (fun x => c.iehack = 0 ∨ x.Plain) ?_
    fun kept _ stepped => kept.imp_right fun plain => plain.step stepped
  cases called with
  | whole => exact .inr ⟨rfl, rfl⟩
  | chunked _ hack => exact .inl hack

theorem Called.rank (called : Called c start) : start.phase.rank = 0 := by
  cases called with
  | whole => rfl
  | chunked => rfl

/-- The copier version keeps up with the baseline, or has returned where that went on behind a
body. -/
theorem run_related (called : Called c start)
    (ran : Runs.run (step .baseline c) start ls = some x) :
    (Runs.run (step .copier c) start ls = some x ∧ (x.phase.rank = 0 ∨ x.phase.rank = 5)) ∨
    ∃ pre tail z, ls = pre ++ tail ∧ Runs.run (step .baseline c) start pre = some z ∧
      c.iehack ≠ 0 ∧ z.phase = .nonblocking ∧ z.Plain ∧
      Runs.run (step .copier c) start pre = some (z.go (.returned 0)) ∧
      Runs.run (step .baseline c) z tail = some x := by
  have path := Runs.Path.of_run_any ran
  clear ran
  induction path with
  | refl => exact .inl ⟨rfl, .inl called.rank⟩
  | snoc before _ stepped ih =>
    obtain ⟨copied, early | late⟩ | ⟨pre, tail, z, rfl, reached, hack, here, plain, copied, behind⟩ := ih
    · obtain ⟨same, rank⟩ | ⟨hack, chunklen, here, returns⟩ := step_before early stepped
      · exact .inl ⟨Runs.run_snoc copied same, rank⟩
      · right
        have reached := Runs.run_snoc before.run_eq stepped
        have plain := (run_plain called reached).resolve_left hack
        rw [pulled_plain plain.chunklen] at returns
        exact ⟨_, [], _, (List.append_nil _).symm, reached, hack, here, plain,
          Runs.run_snoc copied returns, rfl⟩
    · obtain ⟨ret, returned⟩ := rank_returned late
      rw [step_returned returned] at stepped
      contradiction
    · exact .inr ⟨pre, tail ++ [_], z, List.append_assoc .., reached, hack, here, plain, copied,
        Runs.run_snoc behind stepped⟩

/-- A run that returns takes no further steps. -/
theorem run_unique (first : Runs.run (step v c) start pre = some x)
    (second : Runs.run (step v c) start ls = some y) (returned : x.phase = .returned ret)
    (prefixed : pre <+: ls) : ls = pre ∧ y = x := by
  obtain ⟨rest, rfl⟩ := prefixed
  rw [Runs.run_append, first, Option.bind_some] at second
  obtain ⟨rfl, rfl⟩ := run_returned returned second
  exact ⟨List.append_nil _, rfl⟩

/-- The end of a body with `iehack`: where the copier version has returned. -/
theorem run_behind (called : Called c start) (ran : Runs.run (step .baseline c) start ls = some x)
    (here : x.phase = .nonblocking) :
    c.iehack ≠ 0 ∧ x.Plain ∧ Runs.run (step .copier c) start ls = some (x.go (.returned 0)) := by
  obtain ⟨_, rank⟩ | ⟨pre, tail, z, rfl, _, hack, here', plain, copied, behind⟩ := run_related called ran
  · rw [here] at rank
    simp only [Phase.rank, OfNat.one_ne_ofNat, Nat.one_ne_zero, or_self] at rank
  · have late := run_late plain (by rw [here']; exact Nat.one_pos) behind
    rw [here, here'] at late
    cases tail with
    | nil =>
      cases behind
      exact ⟨hack, plain, by rwa [List.append_nil]⟩
    | cons => simp only [Phase.rank, List.length_cons] at late; omega

/-- Nothing spoils a chunk, nor any body without `iehack`. -/
theorem Called.harmless (called : Called c start) (plain : c.iehack = 0) (ls : List Label) :
    Harmless c start ls := by
  intro pre rest x _ ran here _
  exact (run_behind called ran here).1 plain

/-- Both versions agree on a run unless what follows a body spoils it. -/
theorem agrees_iff_harmless (called : Called c start) (ls : List Label) :
    Agrees c start ls ↔ Harmless c start ls := by
  constructor
  · intro agrees pre rest x split ran here spoils
    subst split
    obtain ⟨_, plain, copied⟩ := run_behind called ran here
    obtain ⟨x', ret, behind, returned, differs⟩ := spoils.runs plain.chunklen here
    have whole : Runs.run (step .baseline c) start (pre ++ rest) = some x' := by
      rw [Runs.run_append, ran, Option.bind_some, behind]
    obtain ⟨pre', y, prefixed, copied', returned', _, client⟩ := agrees x' ret whole returned
    -- the copier version returns once
    have same : y = x.go (.returned 0) := by
      obtain first | second := List.prefix_or_prefix_of_prefix (List.prefix_append pre rest) prefixed
      · exact (run_unique copied copied' rfl first).2
      · exact (run_unique copied' copied returned' second).2.symm
    subst same
    cases returned'
    exact differs.elim (fun nonzero => nonzero rfl) fun moved => moved client.symm
  · intro harmless x ret ran returned
    obtain ⟨copied, _⟩ | ⟨pre, tail, z, rfl, reached, _, here, plain, copied, behind⟩ :=
      run_related called ran
    · exact ⟨ls, x, List.prefix_rfl, copied, returned, rfl, rfl⟩
    · have spoils := harmless pre tail z rfl reached here
      obtain ⟨rfl, forwarded, client⟩ :=
        (run_nonblocking plain.chunklen here behind returned).resolve_left spoils
      exact ⟨pre, _, List.prefix_append .., copied, rfl, forwarded.symm, client.symm⟩

/-- A body of one byte, and what is received and sent for it. -/
def oneByte (client : Bytes) : World := pull_client_data client 1

def oneByteMoved : List Label := [.malloc (some fun _ => 0), .io (.bytes 1), .io (.bytes 1)]

/-- Behind the body there is the next request. -/
theorem next_request_kept :
    Harmless ⟨false, 1⟩ (oneByte [65, 71, 69])
        (oneByteMoved ++ [.fcntl true, .io (.bytes 2), .fcntl true]) ∧
      Agrees ⟨false, 1⟩ (oneByte [65, 71, 69])
        (oneByteMoved ++ [.fcntl true, .io (.bytes 2), .fcntl true]) := by
  have agrees : Agrees ⟨false, 1⟩ (oneByte [65, 71, 69])
      (oneByteMoved ++ [.fcntl true, .io (.bytes 2), .fcntl true]) := by
    intro x ret ran returned
    cases ran
    cases returned
    exact ⟨oneByteMoved, _, List.prefix_append .., rfl, rfl, rfl, rfl⟩
  exact ⟨(agrees_iff_harmless (.whole [65, 71, 69] 1) _).mp agrees, agrees⟩

/-- Behind the body there are the two bytes that the baseline eats. -/
theorem crlf_left : ¬ Agrees ⟨false, 1⟩ (oneByte [65, 13, 10])
    (oneByteMoved ++ [.fcntl true, .io (.bytes 2), .fcntl true, .io (.bytes 2)]) := by
  intro agrees
  obtain ⟨pre, y, prefixed, copied, returned, _, client⟩ := agrees _ 0 rfl rfl
  have moved : Runs.run (step .copier ⟨false, 1⟩) (oneByte [65, 13, 10]) oneByteMoved =
      some ⟨[13, 10], [65], none, .returned 0⟩ := rfl
  have same : y = ⟨[13, 10], [65], none, .returned 0⟩ := by
    obtain first | second := List.prefix_or_prefix_of_prefix (List.prefix_append ..) prefixed
    · exact (run_unique moved copied rfl first).2
    · exact (run_unique copied moved returned second).2.symm
  rw [same] at client
  exact absurd client (by decide)

end Agreement

section Position
variable {v : Variant} {c : Call} {client : Bytes} {length : Int} {x x' : World} {l : Label}

theorem count_le (positive : 0 ≤ length) (small : length < 2 ^ 63) : (count length : Int) ≤ length := by
  unfold count
  omega

theorem toLong_small (positive : 0 ≤ length) (small : length < 2 ^ 63) : toLong length = length := by
  unfold toLong
  rw [Int.bmod_def]
  omega

/-- A body of which so much is still to be read. -/
def World.At (client : Bytes) (length left : Int) (x : World) : Prop :=
  0 ≤ left ∧ left ≤ length ∧ x.client = client.drop (length - left).toNat

/-- Where the client is while a body is read, and behind it. -/
def World.Reading (client : Bytes) (length : Int) (x : World) : Prop :=
  x.chunklen = none ∧ match x.phase with
    | .buffer left | .read left | .write left _ => x.At client length left
    | .nonblocking => x.At client length 0
    | .peekTwo | .blocking _ | .readTwo | .returned _ => True
    | _ => False

theorem World.Reading.pulled (none : x.chunklen = none) (ret : Int) :
    (x.pulled ret).Reading client length := by
  rw [pulled_plain none]
  exact ⟨none, trivial⟩

theorem World.At.passed (place : x.At client length left) (none : x.chunklen = none) :
    (x.passed v c left).Reading client length := by
  unfold World.passed World.behind
  split
  · exact ⟨none, place⟩
  · have ends : left = 0 := by
      have positive := place.1
      omega
    cases v with
    | copier => exact .pulled none 0
    | baseline =>
      dsimp only
      split
      · exact .pulled none 0
      · subst ends
        exact ⟨none, place⟩

theorem World.At.consumed (place : x.At client length left) (small : length < 2 ^ 63) (n : ℕ) :
    (x.consumed (x.reads (count left) n)).At client length
      (toLong (left - (x.reads (count left) n).length)) := by
  obtain ⟨positive, below, same⟩ := place
  have bound : ((x.reads (count left) n).length : Int) ≤ left := by
    have counted := count_le positive (by omega)
    simp only [World.reads, List.length_take]
    omega
  rw [toLong_small (by omega) (by omega)]
  refine ⟨by omega, by omega, ?_⟩
  simp only [World.consumed, same, List.drop_drop]
  congr 1
  omega

theorem World.Reading.plain (reading : x.Reading client length) : x.Plain := by
  obtain ⟨none, place⟩ := reading
  refine ⟨none, ?_⟩
  cases here : x.phase with
  | readline | peek | allocate | take | further | join | header => simp only [here] at place
  | _ => rfl

theorem World.Reading.step (small : length < 2 ^ 63) (reading : x.Reading client length)
    (stepped : step v c x l = some x') : x'.Reading client length := by
  obtain ⟨none, place⟩ := id reading
  cases step_proceeds reading.plain.phase stepped with
  | again => exact reading
  | pulled ret => exact .pulled none ret
  | allocated here =>
    rw [here] at place
    exact ⟨none, place⟩
  | passed here same =>
    rw [here] at place
    exact same ▸ (place.consumed small _).passed none
  | filled here same =>
    rw [here] at place
    exact ⟨none, same ▸ place.consumed small _⟩
  | forwarded here =>
    rw [here] at place
    exact World.At.passed (x := x.sent _) place none
  | partly here =>
    rw [here] at place
    exact ⟨none, place⟩
  | nonblocking | peeked | blocking => exact ⟨none, trivial⟩
  | taken => exact .pulled (x := x.consumed _) none 0

/-- Behind a body the client is where the body ends. -/
theorem client_behind (small : length < 2 ^ 63) (positive : 0 ≤ length)
    (ran : Runs.run (step v c) (pull_client_data client length) ls = some x)
    (here : x.phase = .nonblocking) : x.client = client.drop length.toNat := by
  have reading := (Runs.Path.of_run_any ran).invariant (World.Reading client length)
    ⟨rfl, positive, Int.le_refl _, by simp only [Int.sub_self]; rfl⟩
    fun kept _ stepped => kept.step small stepped
  simp only [World.Reading, here, World.At, Int.sub_zero] at reading
  exact reading.2.2.2

end Position
end Copier.Tinyproxy.Body
