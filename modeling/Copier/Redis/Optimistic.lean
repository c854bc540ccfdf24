import Copier.Foundation.Stamps
import Copier.Redis.Multi

/-! What WATCH and EXEC are for: a transaction is executed at once, and only if no key the
client watches has been touched since. Keys have stamps here, a client remembers those of
the keys it watches, and EXEC compares them. -/
noncomputable section
namespace Copier.Redis.Multi.Spec
open Stamps
variable {ι κ ν : Type} [DecidableEq ι]
attribute [local instance] Classical.propDecidable

/-- `queue` is none outside of transactions and `some none` in one that will fail. -/
@[ext]
structure Client (κ : Type) where
  db : ℕ
  peer : Bool
  queue : Option (Option (List (Queued κ)))
  watched : ℕ × Bytes → Option ℕ

/-- A key that is watched already keeps the stamp it had when it was watched first. -/
def Client.watch (cl : Client κ) (keys : List Bytes) (stamp : ℕ × Bytes → ℕ) : Client κ :=
  let seen := fun l => if l.1 = cl.db ∧ l.2 ∈ keys then some (stamp l) else none
  { cl with watched := fun l => (cl.watched l).or (seen l) }

structure World (ι κ ν : Type) where
  store : Store (ℕ × Bytes) (Option (ν × Option ℤ))
  dbnum : ℕ
  clients : ι → Option (Client κ)
  mstime : ℤ
  loading : Bool
  log : List (Note ι κ)

namespace World

def reply (w : World ι κ ν) (c : ι) (r : Reply) : World ι κ ν :=
  { w with log := w.log ++ [.replied c r] }

def set (w : World ι κ ν) (c : ι) (cl : Client κ) : World ι κ ν :=
  { w with clients := Function.update w.clients c (some cl) }

/-- The client has neither a transaction nor watched keys any more. -/
def leave (w : World ι κ ν) (c : ι) (cl : Client κ) : World ι κ ν :=
  w.set c { cl with queue := none, watched := fun _ => none }

def fail (w : World ι κ ν) (c : ι) (cl : Client κ) : World ι κ ν :=
  w.set c { cl with queue := cl.queue.map fun _ => none }

def Exists (w : World ι κ ν) (d : ℕ) (key : Bytes) : Prop := (w.store.content (d, key)).isSome

def Expired (w : World ι κ ν) (l : ℕ × Bytes) : Prop :=
  ∃ value when_, w.store.content l = some (value, some when_) ∧ 0 ≤ when_ ∧ w.loading = false ∧
    when_ < w.mstime

def perform (w : World ι κ ν) : Op ν → World ι κ ν
  | .write d key entry => { w with store := { w.store with
      content := Function.update w.store.content (d, key) entry } }
  | .signal d key => { w with store := w.store.touch (· = (d, key)) }
  | .empty d =>
      let gone := fun e => e < w.dbnum ∧ ∀ only, d = some only → e = only
      { w with store := { w.store.touch fun l => gone l.1 ∧ w.Exists l.1 l.2 with
        content := fun l => if gone l.1 then none else w.store.content l } }
  | .swap id1 id2 =>
      if id1 < w.dbnum ∧ id2 < w.dbnum ∧ id1 ≠ id2 then
        { w with store := { w.store.touch fun l =>
            (l.1 = id1 ∨ l.1 = id2) ∧ (w.Exists id1 l.2 ∨ w.Exists id2 l.2) with
          content := fun l => if l.1 = id1 then w.store.content (id2, l.2)
            else if l.1 = id2 then w.store.content (id1, l.2) else w.store.content l } }
      else w

def callQueued (w : World ι κ ν) (c : ι) (ops : List (Op ν)) (cmd : Queued κ) : World ι κ ν :=
  match cmd, w.clients c with
  | _, none => w
  | .select id, some cl =>
      if 0 ≤ id ∧ id < w.dbnum then (w.set c { cl with db := id.toNat }).reply c .ok
      else w.reply c .error
  | .unwatch, some cl => (w.set c { cl with watched := fun _ => none }).reply c .ok
  | .other cmd, some _ => ops.foldl perform { w with log := w.log ++ [.called c cmd] }

/-- All commands of a transaction, with nothing of another client in between. -/
def execQueued (w : World ι κ ν) (c : ι) (allowed : ℕ → Bool) (effect : ℕ → List (Op ν)) :
    ℕ → List (Queued κ) → World ι κ ν
  | _, [] => w
  | j, cmd :: commands =>
      let w := if allowed j then w.callQueued c (effect j) cmd else w.reply c .error
      w.execQueued c allowed effect (j + 1) commands

/-- A key the client watches has been touched since, or has expired. -/
def Stale (w : World ι κ ν) (cl : Client κ) : Prop :=
  ∃ l seen, cl.watched l = some seen ∧ (w.store.stamp l ≠ seen ∨ w.Expired l)

def exec (w : World ι κ ν) (c : ι) (cl : Client κ) (allowed : ℕ → Bool)
    (effect : ℕ → List (Op ν)) : World ι κ ν :=
  match cl.queue with
  | none => w.reply c .error
  | some none => (w.leave c cl).reply c .execAborted
  | some (some commands) =>
      if w.Stale cl then (w.leave c cl).reply c .nullArray
      else ((w.leave c cl).reply c (.array commands.length)).execQueued c allowed effect 0 commands

def call (w : World ι κ ν) (c : ι) (cl : Client κ) (allowed : ℕ → Bool)
    (effect : ℕ → List (Op ν)) : Request κ → World ι κ ν
  | .multi =>
      if cl.queue.isSome then w.reply c .error
      else (w.set c { cl with queue := some (some []) }).reply c .ok
  | .exec => w.exec c cl allowed effect
  | .discard => if cl.queue.isSome then (w.leave c cl).reply c .ok else w.reply c .error
  | .watch keys =>
      if cl.queue.isSome then w.reply c .error
      else (w.set c (cl.watch keys w.store.stamp)).reply c .ok
  | .reset =>
      if cl.peer then w.reply c .error else (w.leave c { cl with db := 0 }).reply c .ok
  | .plain cmd => w.callQueued c (effect 0) cmd

def processCommand (w : World ι κ ν) (c : ι) (cl : Client κ) (gate : Server.Gate)
    (allowed : ℕ → Bool) (effect : ℕ → List (Op ν)) (req : Request κ) : World ι κ ν :=
  match gate, cl.queue, req with
  | .postponed, _, _ => w
  | .rejected, _, .exec => (w.leave c cl).reply c .execAborted
  | .redirected, _, .exec => (w.leave c cl).reply c .error
  | .rejected, _, _ | .redirected, _, _ => (w.fail c cl).reply c .error
  | .accepted, some commands, .plain cmd =>
      (w.set c { cl with queue := some (commands.map (· ++ [cmd])) }).reply c .queued
  | .accepted, _, req => w.call c cl allowed effect req

end World

def step (w : World ι κ ν) : Label ι κ ν → Option (World ι κ ν)
  | .connect c peer =>
      if (w.clients c).isNone then some (w.set c ⟨0, peer, none, fun _ => none⟩) else none
  | .free c => (w.clients c).map fun _ => { w with clients := Function.update w.clients c none }
  | .command c gate allowed effect req =>
      (w.clients c).map fun cl => w.processCommand c cl gate allowed effect req
  | .work ops => some (ops.foldl World.perform w)
  | .time mstime loading => some { w with mstime := mstime, loading := loading }

def init (dbnum : ℕ) : World ι κ ν :=
  ⟨⟨fun _ => none, fun _ => 0⟩, dbnum, fun _ => none, 0, false, []⟩

end Copier.Redis.Multi.Spec
end
