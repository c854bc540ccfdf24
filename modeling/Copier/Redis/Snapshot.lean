import Copier.Redis.Commands

/-! `redisFork`. The child writes the dataset as the memory has it at the fork, and the
service goes on in the parent alone. Nothing is waited for: whether a value has come
depends on how far the service is. -/
namespace Copier.Redis

/-- `CHILD_TYPE_...`. -/
inductive ChildType
  | RDB | AOF | LDB | MODULE
deriving DecidableEq

def isMutuallyExclusiveChildType : ChildType → Bool
  | .LDB => false
  | _ => true

/-- The child whose pid is kept, and the datasets that forked children see. -/
structure Forks where
  child_type : Option ChildType
  datasets : List (Bytes → Option Bytes)

/-- `forked` is whether `fork` succeeded. -/
def Forks.redisFork (f : Forks) (purpose : ChildType) (forked : Bool)
    (dataset : Bytes → Option Bytes) : Forks :=
  if isMutuallyExclusiveChildType purpose && f.child_type.isSome then f
  else if forked then
    { child_type := if isMutuallyExclusiveChildType purpose then some purpose else f.child_type
      datasets := f.datasets ++ [dataset] }
  else f

/-- Where a command is executed. -/
def atCommand (argc : ℕ) : Pc → Bool
  | .execute => argc != 0
  | .pending => true
  | _ => false

namespace Original.Snapshot

structure World where
  server : Original.World
  forks : Forks

def init : World := ⟨Original.init, none, []⟩

inductive Label
  | serve (l : Original.Label)
  | redisFork (purpose : ChildType) (forked : Bool)
  | checkChildrenDone

/-- What comes from outside: inputs, forks and their ends. -/
inductive Seen
  | input (i : Input)
  | redisFork (purpose : ChildType) (forked : Bool)
  | checkChildrenDone

def Label.seen : Label → Option Seen
  | serve l => l.seen.map .input
  | redisFork purpose forked => some (.redisFork purpose forked)
  | checkChildrenDone => some .checkChildrenDone

/-- From cron or from a command. -/
def mayFork (w : Original.World) : Bool :=
  match w.site with
  | .idle => true
  | .running c pc => (w.clients c).any fun cl => atCommand cl.argv.length pc
  | _ => false

def step (cfg : Config) (x : World) : Label → Option World
  | .serve l => (Original.step cfg x.server l).map fun w => { x with server := w }
  | .redisFork purpose forked =>
      if mayFork x.server then
        some { x with forks := x.forks.redisFork purpose forked x.server.db }
      else none
  | .checkChildrenDone => some { x with forks := { x.forks with child_type := none } }

end Original.Snapshot

namespace Server.Snapshot
open Deferred (Mem Span Task Access)
open Original.Snapshot (Seen)

structure World where
  server : Server.World
  forks : Forks

def init : World := ⟨Server.init, ⟨none, []⟩⟩

inductive Label
  | serve (l : Server.Label)
  | redisFork (purpose : ChildType) (forked : Bool)
  | checkChildrenDone

def Label.seen : Label → Option Seen
  | serve l => l.seen.map .input
  | redisFork purpose forked => some (.redisFork purpose forked)
  | checkChildrenDone => some .checkChildrenDone

def mayFork (w : Server.World) : Bool :=
  match w.site with
  | .idle => true
  | .running c pc => (w.clients c).any fun cl => atCommand cl.argv.length pc
  | _ => false

def step (cfg : Config) (x : World) : Label → Option World
  | .serve l => (Server.step cfg .copierSet x.server l).map fun w => { x with server := w }
  | .redisFork purpose forked =>
      if mayFork x.server then
        let dataset := mapDb (Obj.bytes x.server.heap.mem) x.server.db
        some { x with forks := x.forks.redisFork purpose forked dataset }
      else none
  | .checkChildrenDone => some { x with forks := { x.forks with child_type := none } }

/-- No step is disturbed, and the service has emptied the queue when the server forks. -/
def Drained (cfg : Config) (x : World) : Label → Prop
  | .serve l => Undisturbed cfg .copierSet x.server l
  | .redisFork _ _ => x.server.heap.ring = []
  | .checkChildrenDone => True

instance (cfg : Config) (x : World) (l : Label) : Decidable (Drained cfg x l) := by
  cases l <;> unfold Drained <;> infer_instance

/-- At a fork no pending copy has its destination in a value. -/
def Landed (x : World) (l : Label) : Prop :=
  ∀ purpose forked, l = .redisFork purpose forked → ∀ key s, x.server.db key = some (.sds s) →
    ∀ t ∈ x.server.heap.ring, t.writes.blk ≠ s.blk

/-- The children write what those of the original do, forked at the same points. -/
structure Complete (cfg : Config) (ls : List Label) (x : World) : Prop where
  landed : Runs.Path (step cfg) Landed init ls x
  follows : ∃ ks o, Runs.run (Original.Snapshot.step cfg) Original.Snapshot.init ks = some o ∧
    ks.filterMap Original.Snapshot.Label.seen = ls.filterMap Label.seen ∧ o.forks = x.forks

section Forks
variable {cfg : Config} {x x' : World} {w w' : Server.World}

/-- The site, and whether a fork is due, are the original's. -/
theorem mayFork_settled {o : Original.World} (settles : o = w.settled o.handed) (may : mayFork w) :
    Original.Snapshot.mayFork o := by
  rw [settles]
  unfold mayFork at may
  unfold Original.Snapshot.mayFork
  simp only [World.settled]
  cases site : w.site with
  | idle => rfl
  | running c pc =>
    rw [site] at may
    simp only [settledSite]
    cases here : w.clients c with
    | none => simp [here] at may
    | some cl => simpa [here, Client.settled] using may
  | _ => simp [site] at may

/-- A step of the server is one here, and is seen as such. -/
theorem run_serve {x : Original.Snapshot.World} {ks : List Original.Label} {o : Original.World}
    (ran : Runs.run (Original.step cfg) x.server ks = some o) :
    Runs.run (Original.Snapshot.step cfg) x (ks.map .serve) = some { x with server := o } := by
  induction ks generalizing x with
  | nil =>
    cases ran
    rfl
  | cons k ks ih =>
    simp only [Runs.run, Option.bind_eq_some_iff] at ran
    obtain ⟨p, stepped, ran⟩ := ran
    simp only [List.map_cons, Runs.run, Original.Snapshot.step, stepped, Option.map_some,
      Option.bind_some]
    exact ih (x := { x with server := p }) ran

theorem seen_serve (ks : List Original.Label) :
    (ks.map Original.Snapshot.Label.serve).filterMap Original.Snapshot.Label.seen =
      (ks.filterMap Original.Label.seen).map Seen.input := by
  induction ks with
  | nil => rfl
  | cons k ks ih =>
    cases k with
    | internal => exact ih
    | input i => exact congrArg (.input i :: ·) ih

structure Follows (x : World) (o : Original.Snapshot.World) : Prop where
  server : Refines x.server o.server
  forks : o.forks = x.forks

theorem Follows.step {o : Original.Snapshot.World} {l : Label} (follows : Follows x o)
    (met : Drained cfg x l) (stepped : step cfg x l = some x') :
    ∃ ks o', Runs.run (Original.Snapshot.step cfg) o ks = some o' ∧
      ks.filterMap Original.Snapshot.Label.seen = [l].filterMap Label.seen ∧ Follows x' o' := by
  cases l with
  | serve l =>
    simp only [Snapshot.step, Option.map_eq_some_iff] at stepped
    obtain ⟨w, stepped, rfl⟩ := stepped
    obtain ⟨p, ran, refines, -⟩ := follows.server.step met stepped
    refine ⟨_, _, run_serve ran, ?_, refines, follows.forks⟩
    rw [seen_serve, matching_seen]
    cases l <;> rfl
  | redisFork purpose forked =>
    simp only [Snapshot.step, Option.ite_none_right_eq_some, Option.some.injEq] at stepped
    obtain ⟨may, rfl⟩ := stepped
    have due := mayFork_settled follows.server.settles may
    have dataset : mapDb (Obj.bytes x.server.heap.mem) x.server.db = o.server.db := by
      rw [← Deferred.Heap.settled_drained met]
      exact (congrArg Original.World.db follows.server.settles).symm
    refine ⟨[.redisFork purpose forked], ⟨o.server, o.forks.redisFork purpose forked o.server.db⟩,
      ?_, rfl, follows.server, ?_⟩
    · simp only [Runs.run_one, Original.Snapshot.step, due, if_true]
    · rw [← dataset, follows.forks]
  | checkChildrenDone =>
    cases stepped
    exact ⟨[.checkChildrenDone], ⟨o.server, { o.forks with child_type := none }⟩, rfl, rfl,
      follows.server, by rw [follows.forks]⟩

end Forks

/-- A SETRANGE of the value, and the copies performed before it and after. -/
def rangedSet (before after : ℕ) : List Label :=
  let pipeline := setCommand ++ request [ascii "SETRANGE", ascii "k", ascii "0", ascii "z"]
  let setrange := Server.Label.input .exact
    (.command { Outcome.plain with script := setrangeCommand .default false })
  (accepts 0 :: reads 0 pipeline ++ thinks 2 ++ serves pipeline.length ++ thinks 12 ++
    serves before ++ [executes] ++ thinks 15 ++ [setrange] ++ thinks 3 ++ serves after).map .serve

/-- The copy is performed over what SETRANGE wrote; the queue is empty at the fork, but the
value was rewritten while its copy was pending. -/
example :
    (Runs.run (step .default) init (rangedSet 0 1 ++ [.redisFork .RDB true])).map (fun x =>
      x.forks.datasets.map fun dataset => dataset (ascii "k")) = some [some largeValue] ∧
    (Runs.run (fun x l => if Drained .default x l then step .default x l else none) init
      (rangedSet 0 1)).isNone ∧
    (Runs.run (fun x l => if Drained .default x l then step .default x l else none) init
      (rangedSet 1 0 ++ [.redisFork .RDB true])).map (fun x =>
        x.forks.datasets.map fun dataset => dataset (ascii "k")) =
      some [some (122 :: largeValue.tail)] := by
  decide +kernel

/-- Whether an entry is pending for what a key holds. -/
def fills (x : World) (key : Bytes) : Bool :=
  match x.server.db key with
  | some (.sds s) => x.server.heap.ring.any fun t => t.writes.blk == s.blk
  | _ => false

end Server.Snapshot
end Copier.Redis
