import Copier.Redis.Text
import Mathlib.Logic.Function.Basic

/-! What a command does to strings, apart from where these lie: it asks for the
length of a string, reads bytes of it, edits, and replies. The same script runs on
plain byte strings and on objects whose bytes are still on their way. -/
namespace Copier.Redis

/-- Where a command finds a string. -/
inductive Place
  | arg (i : ℕ)
  | value (key : Bytes)
deriving DecidableEq

/-- What becomes of a string: `dbDelete`; `tryObjectEncoding` of an argument; an argument
or another key's value stored under a key, as by `setKey` and RENAME; a string of the
command's own making stored; `sdscatlen` to a value, also for the zeros of `sdsgrowzero`;
`memcpy` into a value. -/
inductive Edit
  | drop (key : Bytes)
  | encode (i : ℕ)
  | move (src : Place) (key : Bytes)
  | create (key data : Bytes)
  | append (key data : Bytes)
  | overwrite (key : Bytes) (off : ℕ) (data : Bytes)

/-- What a command does, with what it has learnt so far. -/
inductive Script
  | done (reply : Bytes)
  | length (place : Place) (next : Option ℕ → Script)
  | read (place : Place) (off n : ℕ) (next : Bytes → Script)
  | edit (e : Edit) (next : Script)

/-- The edit leaves its client the arguments. -/
def Edit.spares : Edit → Bool
  | .encode _ => false
  | .move (.arg _) _ => false
  | _ => true

/-- The script of a command that blocks: the arguments stay with the client. -/
def Script.sparing : Script → Script
  | .done reply => .done reply
  | .length place next => .length place fun n => (next n).sparing
  | .read place off n next => .read place off n fun bytes => (next bytes).sparing
  | .edit e next => if e.spares then .edit e next.sparing else next.sparing

/-- Reads a whole string; nothing where there is none. -/
def Script.whole (place : Place) (next : Bytes → Script) : Script :=
  .length place fun n => .read place 0 (n.getD 0) next

def Script.wholes : List Place → (List Bytes → Script) → Script
  | [], next => next []
  | place :: places, next =>
      whole place fun bytes => wholes places fun rest => next (bytes :: rest)

section Keyspace
variable {α β : Type}

def mapDb (f : α → β) (db : Bytes → Option α) : Bytes → Option β := fun key => (db key).map f

theorem mapDb_update (f : α → β) (db : Bytes → Option α) (key : Bytes) (v : Option α) :
    mapDb f (Function.update db key v) = Function.update (mapDb f db) key (v.map f) := by
  funext other
  by_cases same : other = key
  · subst same
    simp [mapDb]
  · simp [mapDb, same]

end Keyspace

/-- The strings a command works on: its client's arguments and the keyspace. -/
structure Strings (α : Type) where
  argv : List α
  db : Bytes → Option α

namespace Strings
variable {α β : Type}

def find (s : Strings α) : Place → Option α
  | .arg i => s.argv[i]?
  | .value key => s.db key

def put (s : Strings α) : Place → α → Strings α
  | .arg i, v => { s with argv := s.argv.set i v }
  | .value key, v => { s with db := Function.update s.db key (some v) }

/-- What is left where a string was taken from. -/
def vacate (hole : α) (s : Strings α) : Place → Strings α
  | .arg i => s.put (.arg i) hole
  | .value key => { s with db := Function.update s.db key none }

def map (f : α → β) (s : Strings α) : Strings β where
  argv := s.argv.map f
  db := mapDb f s.db

section Places
variable {s : Strings α} {f g : α → β} {place other : Place}

theorem find_map (f : α → β) (s : Strings α) (place : Place) :
    (s.map f).find place = (s.find place).map f := by
  cases place with
  | arg i => exact List.getElem?_map
  | value key => rfl

theorem map_put (f : α → β) (s : Strings α) (place : Place) (v : α) :
    (s.put place v).map f = (s.map f).put place (f v) := by
  cases place with
  | arg i => simp only [put, map, List.map_set]
  | value key => simp only [put, map, mapDb_update, Option.map_some]

theorem map_vacate (f : α → β) (hole : α) (s : Strings α) (place : Place) :
    (s.vacate hole place).map f = (s.map f).vacate (f hole) place := by
  cases place with
  | arg i => exact map_put f s _ hole
  | value key => simp only [vacate, map, mapDb_update, Option.map_none]

theorem find_put_of_ne (v : α) (different : other ≠ place) :
    (s.put place v).find other = s.find other := by
  cases place with
  | arg i =>
    cases other with
    | arg j => exact List.getElem?_set_ne fun same => different (congrArg Place.arg same.symm)
    | value key => rfl
  | value key =>
    cases other with
    | arg j => rfl
    | value key' =>
      exact Function.update_of_ne (fun same => different (congrArg Place.value same)) _ _

theorem find_put_self {u v : α} (found : (s.put place v).find place = some u) : u = v := by
  cases place with
  | arg i =>
    simp only [put, find, List.getElem?_set] at found
    split at found
    · split at found
      · exact (Option.some.inj found).symm
      · cases found
    · contradiction
  | value key =>
    simp only [put, find, Function.update_self] at found
    exact (Option.some.inj found).symm

/-- What is found is the string that was put there, or one that was there before. -/
theorem find_put {u v : α} (found : (s.put place v).find other = some u) :
    other = place ∧ u = v ∨ other ≠ place ∧ s.find other = some u := by
  by_cases same : other = place
  · subst same
    exact .inl ⟨rfl, find_put_self found⟩
  · rw [find_put_of_ne v same] at found
    exact .inr ⟨same, found⟩

theorem find_vacate {u hole : α} (found : (s.vacate hole place).find other = some u) :
    u = hole ∨ other ≠ place ∧ s.find other = some u := by
  cases place with
  | arg i => exact (find_put found).imp_left And.right
  | value key =>
    refine .inr ?_
    cases other with
    | arg j => exact ⟨fun same => (by cases same), found⟩
    | value key' =>
      by_cases same : key' = key
      · subst same
        simp only [vacate, find, Function.update_self] at found
        cases found
      · simp only [vacate, find, Function.update_of_ne same] at found
        exact ⟨fun eq => same (Place.value.inj eq), found⟩

/-- What is overwritten does not matter. -/
theorem put_congr (x : β) (same : ∀ other v, other ≠ place → s.find other = some v → f v = g v) :
    (s.map f).put place x = (s.map g).put place x := by
  cases place with
  | arg i =>
    have argv : (s.argv.map f).set i x = (s.argv.map g).set i x := by
      refine List.ext_getElem? fun j => ?_
      simp only [List.getElem?_set, List.length_map, List.getElem?_map]
      split
      · rfl
      · rename_i other
        cases found : s.argv[j]? with
        | none => rfl
        | some v =>
          exact congrArg some (same (.arg j) v (fun eq => other (Place.arg.inj eq).symm) found)
    have db : mapDb f s.db = mapDb g s.db := by
      funext key
      unfold mapDb
      cases found : s.db key with
      | none => rfl
      | some v => exact congrArg some (same (.value key) v (fun eq => by cases eq) found)
    simp only [put, map, argv, db]
  | value key =>
    have argv : s.argv.map f = s.argv.map g := by
      refine List.map_congr_left fun v member => ?_
      obtain ⟨i, found⟩ := List.getElem?_of_mem member
      exact same (.arg i) v (fun eq => by cases eq) found
    have db : Function.update (mapDb f s.db) key (some x) =
        Function.update (mapDb g s.db) key (some x) := by
      funext other
      by_cases here : other = key
      · subst here
        rw [Function.update_self, Function.update_self]
      · rw [Function.update_of_ne here, Function.update_of_ne here]
        unfold mapDb
        cases found : s.db other with
        | none => rfl
        | some v =>
          exact congrArg some (same (.value other) v (fun eq => here (Place.value.inj eq)) found)
    simp only [put, map, argv, db]

/-- Putting back what is there. -/
theorem put_found {v : α} (found : s.find place = some v) : s.put place v = s := by
  cases place with
  | arg i =>
    obtain ⟨bound, rfl⟩ := List.getElem?_eq_some_iff.mp found
    simp only [put, List.set_getElem_self]
  | value key =>
    have same : Function.update s.db key (some v) = s.db := by
      rw [← found]
      exact Function.update_eq_self _ _
    simp only [put, same]

end Places
end Strings

/-- `sdscatlen` and `memcpy` on a plain string; nothing is stored behind its end. -/
def overwritten (s : Bytes) (off : ℕ) (data : Bytes) : Bytes :=
  if off + data.length ≤ s.length then s.take off ++ data ++ s.drop (off + data.length) else s

/-- An edit of plain strings. -/
def Edit.run (s : Strings Bytes) : Edit → Strings Bytes
  | .drop key => s.vacate [] (.value key)
  | .encode _ => s
  | .move src key =>
      match s.find src with
      | some v => (s.vacate [] src).put (.value key) v
      | none => s
  | .create key data => s.put (.value key) data
  | .append key data =>
      match s.db key with
      | some v => s.put (.value key) (v ++ data)
      | none => s
  | .overwrite key off data =>
      match s.db key with
      | some v => s.put (.value key) (overwritten v off data)
      | none => s

/-- The strings after a script and its reply. -/
def Script.run : Script → Strings Bytes → Strings Bytes × Bytes
  | .done reply, s => (s, reply)
  | .length place next, s => (next ((s.find place).map List.length)).run s
  | .read place off n next, s => (next ((((s.find place).getD []).drop off).take n)).run s
  | .edit e next, s => next.run (e.run s)

section Runs
variable {s : Strings Bytes}

@[simp] theorem Script.run_done (reply : Bytes) : (Script.done reply).run s = (s, reply) := rfl

@[simp] theorem Script.run_length (place : Place) (next : Option ℕ → Script) :
    (Script.length place next).run s = (next ((s.find place).map List.length)).run s := rfl

@[simp] theorem Script.run_read (place : Place) (off n : ℕ) (next : Bytes → Script) :
    (Script.read place off n next).run s =
      (next ((((s.find place).getD []).drop off).take n)).run s := rfl

@[simp] theorem Script.run_edit (e : Edit) (next : Script) :
    (Script.edit e next).run s = next.run (e.run s) := rfl

theorem Script.run_whole (place : Place) (next : Bytes → Script) :
    (Script.whole place next).run s = (next ((s.find place).getD [])).run s := by
  cases found : s.find place <;> simp [Script.whole, found]

/-- A command that blocks keeps its arguments. -/
theorem Script.sparing_argv (script : Script) : (script.sparing.run s).1.argv = s.argv := by
  induction script generalizing s with
  | done => rfl
  | length place next ih => exact ih _
  | read place off n next ih => exact ih _
  | edit e next ih =>
    have kept : e.spares → (e.run s).argv = s.argv := by
      intro spares
      cases e with
      | encode => contradiction
      | drop | create => rfl
      | append key | overwrite key =>
        simp only [Edit.run]
        split <;> rfl
      | move src key =>
        cases src with
        | arg => contradiction
        | value other =>
          simp only [Edit.run]
          split <;> rfl
    unfold Script.sparing
    split
    · rename_i spares
      exact ih.trans (kept spares)
    · exact ih

end Runs
end Copier.Redis
