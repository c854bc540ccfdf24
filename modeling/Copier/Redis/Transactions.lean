import Copier.Foundation.Runs
import Copier.Redis.Optimistic
import Copier.Redis.WatchLists

/-! The lists of watching clients and the flags of `multi.c` do what stamps on the keys
would do. -/
namespace Copier.Redis.Multi
open Multi.Server Spec
variable {ι κ ν : Type} {s t : Server ι κ ν} {w : World ι κ ν} {c : ι}
  {cl : Multi.Client κ} {acl : Spec.Client κ} {running : Option ι} {stamp : ℕ × Bytes → ℕ}

/-- While EXEC executes what is queued the client has already left its transaction. -/
structure Client.Related (running : Prop) (cl : Multi.Client κ) (acl : Spec.Client κ)
    (stamp : ℕ × Bytes → ℕ) : Prop where
  db : acl.db = cl.db
  peer : acl.peer = cl.peer
  left : running → acl.queue = none ∧ acl.watched = fun _ => none
  queue : ¬ running → acl.queue =
    if cl.multi then some (if cl.dirty_exec then none else some cl.commands) else none
  idle : ¬ running → cl.multi = false → cl.commands = [] ∧ cl.dirty_exec = false
  watched : ∀ l, l ∈ cl.watched_keys ↔ (acl.watched l).isSome
  seen : ∀ l v, acl.watched l = some v → v ≤ stamp l
  dirty : cl.dirty_cas = true ↔ ∃ l v, acl.watched l = some v ∧ v ≠ stamp l

structure Related (running : Option ι) (s : Server ι κ ν) (w : World ι κ ν) : Prop where
  lists : Lists s
  crashed : s.crashed = false
  dict : ∀ l, (s.db l.1).dict l.2 = (w.store.content l).map Prod.fst
  expires : ∀ l, (s.db l.1).expires l.2 = (w.store.content l).bind Prod.snd
  dbnum : w.dbnum = s.dbnum
  mstime : w.mstime = s.mstime
  loading : w.loading = s.loading
  log : w.log = s.log
  absent : ∀ c, s.clients c = none → w.clients c = none
  client : ∀ c cl, s.clients c = some cl → ∃ acl, w.clients c = some acl ∧
    cl.Related (running = some c) acl w.store.stamp

theorem Related.reply (related : Related running s w) (r : Reply) :
    Related running (s.reply c r) (w.reply c r) :=
  { related with
    lists := related.lists.reply r
    log := congrArg (· ++ _) related.log }

/-- A client that has no transaction and watches nothing. -/
theorem Client.Related.fresh {running : Prop} (queue : acl.queue = none)
    (watched : acl.watched = fun _ => none) (db : acl.db = cl.db) (peer : acl.peer = cl.peer)
    (multi : cl.multi = false) (commands : cl.commands = []) (dirty_exec : cl.dirty_exec = false)
    (keys : cl.watched_keys = []) (dirty_cas : cl.dirty_cas = false) : cl.Related running acl stamp where
  db := db
  peer := peer
  left _ := ⟨queue, watched⟩
  queue _ := by rw [queue, multi]; rfl
  idle _ _ := ⟨commands, dirty_exec⟩
  watched l := by simp [keys, watched]
  seen l v some_ := by simp [watched] at some_
  dirty := by simp [dirty_cas, watched]

/-! What is done to the keys. -/

/-- Touched keys make the stamps differ from those their watchers have seen. -/
theorem Related.touch (related : Related running s w) (touched : ℕ × Bytes → Bool)
    (touched' : ℕ × Bytes → Prop) (same : ∀ l, touched l = true ↔ touched' l) :
    Related running (s.dirtied touched) { w with store := w.store.touch touched' } := by
  refine { related with
    lists := related.lists.dirtied touched, absent := fun c none => ?_, client := fun c cl here => ?_ }
  · rw [dirtied, Option.map_eq_none_iff] at none
    exact related.absent c none
  · obtain ⟨old, found, rfl⟩ := Option.map_eq_some_iff.mp here
    obtain ⟨acl, there, client⟩ := related.client c old found
    refine ⟨acl, there, { client with seen := fun l v some_ => ?_, dirty := ?_ }⟩
    · exact Nat.le_trans (client.seen l v some_) (Stamps.stamp_le_touch _ _ _)
    · rw [Bool.or_eq_true, client.dirty, List.any_eq_true]
      constructor
      · rintro (⟨l, v, some_, changed⟩ | ⟨l, watched, yes⟩)
        · refine ⟨l, v, some_, ?_⟩
          have low := client.seen l v some_
          have grown := Stamps.stamp_le_touch w.store touched' l
          exact Nat.ne_of_lt (Nat.lt_of_lt_of_le (Nat.lt_of_le_of_ne low changed) grown)
        · obtain ⟨v, some_⟩ := Option.isSome_iff_exists.mp ((client.watched l).mp watched)
          refine ⟨l, v, some_, ?_⟩
          have low := client.seen l v some_
          have grown := Stamps.touch_stamp_lt (s := w.store) ((same l).mp yes)
          exact Nat.ne_of_lt (Nat.lt_of_le_of_lt low grown)
      · rintro ⟨l, v, some_, changed⟩
        by_cases here : touched l = true
        · exact .inr ⟨l, (client.watched l).mpr (Option.isSome_iff_exists.mpr ⟨v, some_⟩), here⟩
        · rw [Stamps.touch_stamp_of_not (mt (same l).mpr here)] at changed
          exact .inl ⟨l, v, some_, changed⟩

/-- Keys have been changed without touching them. -/
theorem Related.rekey (related : Related running s w)
    {content : ℕ × Bytes → Option (ν × Option ℤ)}
    (rest : t = { s with db := t.db }) (watchers : ∀ wk, t.watchers wk = s.watchers wk)
    (dict : ∀ l, (t.db l.1).dict l.2 = (content l).map Prod.fst)
    (expires : ∀ l, (t.db l.1).expires l.2 = (content l).bind Prod.snd) :
    Related running t { w with store := { w.store with content := content } } := by
  have lists : Lists t := related.lists.congr watchers fun c => by rw [rest]
  rw [rest] at lists ⊢
  exact { related with lists := lists, dict := dict, expires := expires }

section
variable [DecidableEq ι]

theorem Related.touched_key (related : Related running s w) (d : ℕ) (key : Bytes) :
    Related running (s.touchWatchedKey d key)
      { w with store := w.store.touch (· = (d, key)) } := by
  rw [related.lists.touchWatchedKey]
  exact related.touch _ _ fun l => decide_eq_true_iff

omit [DecidableEq ι] in
theorem Related.exists_iff (related : Related running s w) (d : ℕ) (key : Bytes) :
    w.Exists d key ↔ ((s.db d).dict key).isSome = true := by
  have dict : (s.db d).dict key = _ := related.dict (d, key)
  rw [World.Exists, dict, Option.isSome_map]

theorem foldl_touchAll (lists : Lists s) (n : ℕ) :
    (List.range n).foldl (fun s j => s.touchAllWatchedKeysInDb j none) s =
      s.dirtied fun wk => decide (wk.1 < n) && ((s.db wk.1).dict wk.2).isSome := by
  induction n with
  | zero => simp [dirtied_false]
  | succ n ih =>
    rw [List.range_succ, List.foldl_append, ih, List.foldl_cons, List.foldl_nil,
      (lists.dirtied _).touchAllWatchedKeysInDb, dirtied_dirtied]
    congr 1
    funext wk
    simp only [Server.present, dirtied, Option.bind_none, Option.isSome_none, Bool.or_false]
    rcases Nat.lt_trichotomy wk.1 n with low | same | high
    · simp [low, Nat.lt_succ_of_lt low, Nat.ne_of_lt low]
    · simp [same]
    · simp [Nat.not_lt_of_gt high, Nat.ne_of_gt high, show ¬ wk.1 < n + 1 by omega]

omit [DecidableEq ι] in
theorem foldl_emptyDbStructure (s : Server ι κ ν) (n : ℕ) :
    (List.range n).foldl emptyDbStructure s = { s with db := fun d =>
      if d < n then { s.db d with dict := fun _ => none, expires := fun _ => none } else s.db d } := by
  induction n with
  | zero => simp
  | succ n ih =>
    rw [List.range_succ, List.foldl_append, ih, List.foldl_cons, List.foldl_nil, emptyDbStructure,
      setDb]
    congr 1
    funext d
    rcases Nat.lt_trichotomy d n with low | same | high
    · simp [Function.update_of_ne (Nat.ne_of_lt low), low, Nat.lt_succ_of_lt low]
    · subst same
      simp
    · simp [Function.update_of_ne (Nat.ne_of_gt high), Nat.not_lt_of_gt high,
        show ¬ d < n + 1 by omega]

theorem Related.emptyDb (related : Related running s w) (d : Option ℕ) :
    Related running (s.emptyDb d) (w.perform (.empty d)) := by
  cases d with
  | none =>
    rw [Server.emptyDb, signalFlushedDb, foldl_touchAll related.lists, foldl_emptyDbStructure]
    have touched := related.touch (fun wk => decide (wk.1 < s.dbnum) && ((s.db wk.1).dict wk.2).isSome)
      (fun l => (l.1 < w.dbnum ∧ ∀ only, none = some only → l.1 = only) ∧
        w.Exists l.1 l.2) (fun l => by simp [related.exists_iff, related.dbnum])
    refine touched.rekey rfl (fun wk => ?_) (fun l => ?_) fun l => ?_
    · simp only [Server.watchers]
      split <;> rfl
    · by_cases low : l.1 < s.dbnum
      · simp [low, related.dbnum]
      · simp [low, related.dbnum, related.dict, dirtied]
    · by_cases low : l.1 < s.dbnum
      · simp [low, related.dbnum]
      · simp [low, related.dbnum, related.expires, dirtied]
  | some d =>
    rw [Server.emptyDb]
    split
    · rename_i low
      rw [signalFlushedDb, related.lists.touchAllWatchedKeysInDb]
      have touched := related.touch (s.present d none)
        (fun l => (l.1 < w.dbnum ∧ ∀ only, some d = some only → l.1 = only) ∧
          w.Exists l.1 l.2) (fun l => by
            simp only [Server.present, Option.bind_none, Option.isSome_none, Bool.or_false,
              Bool.and_eq_true, decide_eq_true_eq, related.exists_iff, related.dbnum,
              Option.some.injEq, forall_eq']
            constructor
            · rintro ⟨rfl, there⟩
              exact ⟨⟨low, rfl⟩, there⟩
            · rintro ⟨⟨-, rfl⟩, there⟩
              exact ⟨rfl, there⟩)
      refine touched.rekey rfl (fun wk => ?_) (fun l => ?_) fun l => ?_
      · by_cases own : wk.1 = d
        · simp [Server.watchers, emptyDbStructure, setDb, own]
        · simp [Server.watchers, emptyDbStructure, setDb, own]
      · by_cases own : l.1 = d
        · simp [emptyDbStructure, setDb, own, related.dbnum, low]
        · simp [emptyDbStructure, setDb, own, related.dict, dirtied]
      · by_cases own : l.1 = d
        · simp [emptyDbStructure, setDb, own, related.dbnum, low]
        · simp [emptyDbStructure, setDb, own, related.expires, dirtied]
    · rename_i high
      have same : w.perform (.empty (some d)) = w := by
        have never : ∀ e, ¬ (e < w.dbnum ∧ ∀ only, some d = some only → e = only) := by
          rintro e ⟨low, only⟩
          rw [only d rfl, related.dbnum] at low
          exact high low
        simp only [World.perform, never, false_and, if_false]
        have touch : w.store.touch (fun _ => False) = w.store := by
          simp [Stamps.Store.touch]
        rw [touch]
      rw [same]
      exact related

theorem Related.swap (related : Related running s w) (id1 id2 : ℕ) :
    Related running (s.dbSwapDatabases id1 id2) (w.perform (.swap id1 id2)) := by
  rw [Server.dbSwapDatabases, World.perform]
  by_cases valid : id1 < s.dbnum ∧ id2 < s.dbnum ∧ id1 ≠ id2
  · rw [if_pos valid, if_pos (by rwa [related.dbnum])]
    obtain ⟨-, -, other⟩ := valid
    dsimp only
    let content := fun l : ℕ × Bytes => if l.1 = id1 then w.store.content (id2, l.2)
      else if l.1 = id2 then w.store.content (id1, l.2) else w.store.content l
    let u := (s.setDb id1 { s.db id1 with dict := (s.db id2).dict, expires := (s.db id2).expires }).setDb
      id2 { s.db id2 with dict := (s.db id1).dict, expires := (s.db id1).expires }
    have swapped : Related running u { w with store := { w.store with content := content } } := by
      refine related.rekey rfl (fun wk => ?_) (fun l => ?_) fun l => ?_
      · rcases eq_or_ne wk.1 id2 with same | apart
        · simp [u, Server.watchers, setDb, same]
        · rcases eq_or_ne wk.1 id1 with same | apart'
          · simp [u, Server.watchers, setDb, same, other]
          · simp [u, Server.watchers, setDb, apart, apart']
      · rcases eq_or_ne l.1 id2 with same | apart
        · simp [u, content, setDb, same, Ne.symm other, ← related.dict]
        · rcases eq_or_ne l.1 id1 with same | apart'
          · simp [u, content, setDb, same, other, ← related.dict]
          · simp [u, content, setDb, apart, apart', related.dict]
      · rcases eq_or_ne l.1 id2 with same | apart
        · simp [u, content, setDb, same, Ne.symm other, ← related.expires]
        · rcases eq_or_ne l.1 id1 with same | apart'
          · simp [u, content, setDb, same, other, ← related.expires]
          · simp [u, content, setDb, apart, apart', related.expires]
    have first := swapped.lists
    have marked : (u.touchAllWatchedKeysInDb id1 (some id2)).touchAllWatchedKeysInDb id2 (some id1) =
        u.dirtied fun wk => u.present id1 (some id2) wk || u.present id2 (some id1) wk := by
      rw [first.touchAllWatchedKeysInDb, (first.dirtied _).touchAllWatchedKeysInDb, dirtied_dirtied]
      rfl
    rw [marked]
    refine swapped.touch _ (fun l =>
      (l.1 = id1 ∨ l.1 = id2) ∧ (w.Exists id1 l.2 ∨ w.Exists id2 l.2)) fun l => ?_
    have one : (u.db id1).dict = (s.db id2).dict := by simp [u, setDb, other]
    have two : (u.db id2).dict = (s.db id1).dict := by simp [u, setDb]
    simp only [Server.present, Option.bind_some, one, two, Bool.or_eq_true, Bool.and_eq_true,
      decide_eq_true_eq, related.exists_iff]
    tauto
  · rw [if_neg valid, if_neg (by rwa [related.dbnum])]
    exact related

theorem Related.perform (related : Related running s w) (op : Op ν) :
    Related running (s.perform op) (w.perform op) := by
  cases op with
  | write d key entry =>
    refine related.rekey rfl (fun wk => ?_) ?_ ?_
    · by_cases own : wk.1 = d
      · simp [Server.perform, Server.watchers, setDb, own]
      · simp [Server.perform, Server.watchers, setDb, own]
    · rintro ⟨e, k⟩
      by_cases own : e = d
      · subst own
        by_cases here : k = key
        · simp [Server.perform, setDb, here]
        · simp [Server.perform, setDb, here, ← related.dict]
      · simp [Server.perform, setDb, own, ← related.dict]
    · rintro ⟨e, k⟩
      by_cases own : e = d
      · subst own
        by_cases here : k = key
        · simp [Server.perform, setDb, here]
        · simp [Server.perform, setDb, here, ← related.expires]
      · simp [Server.perform, setDb, own, ← related.expires]
  | signal d key => exact related.touched_key d key
  | empty d => exact related.emptyDb d
  | swap id1 id2 => exact related.swap id1 id2

theorem Related.performs (related : Related running s w) (ops : List (Op ν)) :
    Related running (ops.foldl Server.perform s) (ops.foldl World.perform w) := by
  induction ops generalizing s w with
  | nil => exact related
  | cons op ops ih => exact ih (related.perform op)

/-! Clients. -/

/-- A client has changed in both. -/
theorem Related.updated (related : Related running s w) (running' : Option ι)
    (acl : Spec.Client κ) (updated : Updated c cl s t) (client : cl.Related (running' = some c) acl w.store.stamp)
    (others : ∀ d, d ≠ c → (running' = some d ↔ running = some d)) :
    Related running' t (w.set c acl) := by
  have lists := updated.lists
  have keys := updated.keys
  rw [updated.rest] at lists ⊢
  refine { related with
    lists := lists
    dict := fun l => (congrFun (keys l.1).1 l.2).trans (related.dict l)
    expires := fun l => (congrFun (keys l.1).2 l.2).trans (related.expires l)
    absent := ?_, client := ?_ }
  · intro d none
    rcases eq_or_ne d c with rfl | other
    · simp at none
    · simp only [World.set, Function.update_of_ne other] at none ⊢
      exact related.absent d none
  · intro d cl' here
    rcases eq_or_ne d c with rfl | other
    · simp only [Function.update_self] at here
      cases here
      exact ⟨acl, Function.update_self _ _ _, client⟩
    · simp only [Function.update_of_ne other] at here
      obtain ⟨acl', there, client'⟩ := related.client d cl' here
      refine ⟨acl', (Function.update_of_ne other _ _).trans there, ?_⟩
      rw [others d other]
      exact client'

omit [DecidableEq ι] in
theorem Related.isSome_iff (related : Related running s w) :
    (w.clients c).isSome ↔ (s.clients c).isSome := by
  constructor
  · intro there
    by_contra absent
    rw [related.absent c (Option.not_isSome_iff_eq_none.mp absent)] at there
    cases there
  · intro here
    obtain ⟨cl, here⟩ := Option.isSome_iff_exists.mp here
    obtain ⟨acl, there, -⟩ := related.client c cl here
    exact Option.isSome_iff_exists.mpr ⟨acl, there⟩

theorem Related.callQueued (related : Related running s w) (here : s.clients c = some cl)
    (ops : List (Op ν)) (cmd : Queued κ) :
    Related running (s.callQueued c ops cmd) (w.callQueued c ops cmd) := by
  obtain ⟨acl, there, client⟩ := related.client c cl here
  cases cmd with
  | select id =>
    simp only [Server.callQueued, World.callQueued, there]
    by_cases valid : 0 ≤ id ∧ id < s.dbnum
    · rw [if_pos valid, if_pos (by rwa [related.dbnum])]
      have moved := related.lists.modified here (f := fun cl => { cl with db := id.toNat }) rfl
      exact (related.updated running { acl with db := id.toNat } moved { client with db := rfl }
        fun _ _ => .rfl).reply .ok
    · rw [if_neg valid, if_neg (by rwa [related.dbnum])]
      exact related.reply .error
  | unwatch =>
    simp only [Server.callQueued, World.callQueued, there]
    have unwatched := related.lists.unwatchAllKeys here
    have cleared := unwatched.trans
      (unwatched.lists.modified unwatched.here (f := fun cl => { cl with dirty_cas := false }) rfl)
    refine (related.updated running { acl with watched := fun _ => none } cleared { client with
      left := fun now => ⟨(client.left now).1, rfl⟩
      watched := fun l => by simp
      seen := fun l v some_ => by cases some_
      dirty := by simp } fun _ _ => .rfl).reply .ok
  | other cmd =>
    simp only [Server.callQueued, World.callQueued, there]
    refine Related.performs ?_ ops
    exact { related with
      lists := related.lists.congr (fun _ => rfl) fun _ => rfl
      log := congrArg (· ++ _) related.log }

omit [DecidableEq ι] in
theorem perform_clients (w : World ι κ ν) (ops : List (Op ν)) :
    (ops.foldl World.perform w).clients = w.clients := by
  induction ops generalizing w with
  | nil => rfl
  | cons op ops ih =>
    rw [List.foldl_cons, ih]
    cases op with
    | write d key entry => rfl
    | signal d key => rfl
    | empty d => rfl
    | swap id1 id2 =>
      rw [World.perform]
      split <;> rfl

theorem callQueued_isSome (w : World ι κ ν) (ops : List (Op ν)) (cmd : Queued κ)
    (there : (w.clients c).isSome) : ((w.callQueued c ops cmd).clients c).isSome := by
  obtain ⟨acl, there⟩ := Option.isSome_iff_exists.mp there
  cases cmd with
  | select id =>
    simp only [World.callQueued, there]
    split
    · simp [World.set, World.reply]
    · simp [World.reply, there]
  | unwatch => simp [World.callQueued, there, World.set, World.reply]
  | other cmd => simp [World.callQueued, there, perform_clients]

theorem Related.execQueued (related : Related running s w) (here : (s.clients c).isSome)
    (allowed : ℕ → Bool) (effect : ℕ → List (Op ν)) (j : ℕ) (commands : List (Queued κ)) :
    Related running (s.execQueued c allowed effect j commands)
        (w.execQueued c allowed effect j commands) ∧
      ((s.execQueued c allowed effect j commands).clients c).isSome := by
  induction commands generalizing s w j with
  | nil => exact ⟨related, here⟩
  | cons cmd commands ih =>
    rw [Server.execQueued, World.execQueued]
    obtain ⟨cl, found⟩ := Option.isSome_iff_exists.mp here
    cases allowed j with
    | true =>
      have called := related.callQueued found (effect j) cmd
      exact ih called (called.isSome_iff.mp
        (callQueued_isSome w (effect j) cmd (related.isSome_iff.mpr here))) (j + 1)
    | false => exact ih (related.reply .error) here (j + 1)

/-- The client leaves its transaction in both. -/
theorem Related.discard (related : Related none s w) (acl : Spec.Client κ) (updated : Updated c cl s t)
    (db : acl.db = cl.db) (peer : acl.peer = cl.peer) :
    Related none (t.discardTransaction c) (w.leave c acl) := by
  have discarded := updated.trans (updated.lists.discardTransaction updated.here)
  exact related.updated none { acl with queue := none, watched := fun _ => none } discarded
    (.fresh rfl rfl db peer rfl rfl rfl rfl rfl) fun _ _ => .rfl

omit [DecidableEq ι] in
theorem Related.expired_iff (related : Related running s w) (l : ℕ × Bytes) :
    w.Expired l ↔ s.keyIsExpired l = true := by
  rw [World.Expired, Server.keyIsExpired, related.expires, related.loading, related.mstime]
  rcases content : w.store.content l with _ | ⟨value, _ | when_⟩
  · simp
  · simp
  · simp [and_assoc]

omit [DecidableEq ι] in
/-- What `execCommand` finds is what the stamps say. -/
theorem Related.stale_iff (related : Related none s w)
    (client : cl.Related (none = some c) acl w.store.stamp) :
    w.Stale acl ↔ (cl.dirty_cas || s.isWatchedKeyExpired cl) = true := by
  rw [Bool.or_eq_true, client.dirty, isWatchedKeyExpired, List.any_eq_true]
  constructor
  · rintro ⟨l, v, some_, changed | expired⟩
    · exact .inl ⟨l, v, some_, fun same => changed same.symm⟩
    · refine .inr ⟨l, (client.watched l).mpr (Option.isSome_iff_exists.mpr ⟨v, some_⟩), ?_⟩
      exact (related.expired_iff l).mp expired
  · rintro (⟨l, v, some_, changed⟩ | ⟨l, watched, expired⟩)
    · exact ⟨l, v, some_, .inl fun same => changed same.symm⟩
    · obtain ⟨v, some_⟩ := Option.isSome_iff_exists.mp ((client.watched l).mp watched)
      exact ⟨l, v, some_, .inr ((related.expired_iff l).mpr expired)⟩

theorem World.set_self (w : World ι κ ν) (there : w.clients c = some acl) : w.set c acl = w := by
  rw [World.set, ← there, Function.update_eq_self]

theorem Related.exec (related : Related none s w) (here : s.clients c = some cl)
    (client : cl.Related (none = some c) acl w.store.stamp)
    (allowed : ℕ → Bool) (effect : ℕ → List (Op ν)) :
    Related none (s.execCommand c cl allowed effect) (w.exec c acl allowed effect) := by
  have queue := client.queue nofun
  have replied : ∀ r, Updated c cl (s.reply c r) (s.reply c r) := fun r =>
    ⟨by rw [Server.reply, ← here, Function.update_eq_self], fun _ => ⟨rfl, rfl⟩,
      related.lists.reply r⟩
  rw [Server.execCommand, World.exec]
  cases multi : cl.multi with
  | false =>
    simp only [multi, Bool.false_eq_true, if_false] at queue
    rw [queue]
    exact related.reply .error
  | true =>
    cases dirty_exec : cl.dirty_exec with
    | true =>
      simp only [multi, dirty_exec, if_true] at queue
      rw [queue]
      exact (related.reply .execAborted).discard acl (replied _) client.db client.peer
    | false =>
      simp only [multi, dirty_exec, if_true, Bool.false_eq_true, if_false] at queue
      rw [queue]
      simp only [Bool.false_eq_true, if_false, reduceCtorEq]
      by_cases stale : w.Stale acl
      · rw [if_pos stale, if_pos ((related.stale_iff client).mp stale)]
        exact (related.reply .nullArray).discard acl (replied _) client.db client.peer
      · rw [if_neg stale, if_neg (mt (related.stale_iff client).mpr stale)]
        have clean : cl.dirty_cas = false :=
          Bool.eq_false_iff.mpr fun dirty => stale ((related.stale_iff client).mpr (by simp [dirty]))
        -- the client has left its transaction for the others, but its flags are still set
        have entered := related.updated (some c)
          { acl with queue := none, watched := fun _ => none } (related.lists.unwatchAllKeys here)
          { db := client.db
            peer := client.peer
            left := fun _ => ⟨rfl, rfl⟩
            queue := fun other => absurd rfl other
            idle := fun other => absurd rfl other
            watched := fun l => by simp
            seen := fun l v some_ => by cases some_
            dirty := by simp [clean] }
          fun d other => by simp [Ne.symm other]
        obtain ⟨ran, left⟩ := (entered.reply (.array cl.commands.length)).execQueued
          (Option.isSome_iff_exists.mpr ⟨_, (related.lists.unwatchAllKeys here).here⟩) allowed effect 0
          cl.commands
        obtain ⟨last, found⟩ := Option.isSome_iff_exists.mp left
        obtain ⟨out, found', client'⟩ := ran.client c last found
        have done := ran.updated none out (ran.lists.discardTransaction found)
          (.fresh (client'.left rfl).1 (client'.left rfl).2 client'.db client'.peer rfl rfl rfl rfl
            rfl) fun d other => by simp [Ne.symm other]
        rw [World.set_self _ found'] at done
        exact done

theorem watch_nil (acl : Spec.Client κ) (stamp : ℕ × Bytes → ℕ) : acl.watch [] stamp = acl := by
  refine Spec.Client.ext rfl rfl rfl (funext fun l => ?_)
  simp [Spec.Client.watch]

theorem watch_cons (acl : Spec.Client κ) (key : Bytes) (keys : List Bytes)
    (stamp : ℕ × Bytes → ℕ) :
    (acl.watch [key] stamp).watch keys stamp = acl.watch (key :: keys) stamp := by
  refine Spec.Client.ext rfl rfl rfl (funext fun l => ?_)
  simp only [Spec.Client.watch, Option.or_assoc]
  congr 1
  by_cases db : l.1 = acl.db
  · by_cases first : l.2 = key <;> simp [db, first]
  · simp [db]

omit [DecidableEq ι] in
theorem Client.Related.watch (client : cl.Related (none = some c) acl stamp) (key : Bytes) :
    Client.Related (none = some c)
      { cl with watched_keys := if (cl.db, key) ∈ cl.watched_keys then cl.watched_keys
        else cl.watched_keys ++ [(cl.db, key)] } (acl.watch [key] stamp) stamp := by
  have one : ∀ l : ℕ × Bytes, l.1 = acl.db ∧ l.2 ∈ [key] ↔ l = (cl.db, key) := fun l => by
    simp [client.db, Prod.ext_iff]
  have some_iff : ∀ l v, (acl.watch [key] stamp).watched l = some v ↔ acl.watched l = some v ∨
      acl.watched l = none ∧ l = (cl.db, key) ∧ stamp l = v := by
    intro l v
    simp only [Spec.Client.watch, Option.or_eq_some_iff, one]
    split <;> simp_all
  exact { client with
    left := fun running => by cases running
    watched := fun l => by
      rw [Option.isSome_iff_exists]
      simp only [some_iff, exists_or, ← Option.isSome_iff_exists, ← client.watched]
      by_cases already : (cl.db, key) ∈ cl.watched_keys
      · rw [if_pos already]
        refine ⟨.inl, ?_⟩
        rintro (old | ⟨v, none, rfl, -⟩)
        · exact old
        · exact already
      · rw [if_neg already, List.mem_append, List.mem_singleton]
        refine or_congr_right ⟨?_, fun ⟨_, _, new, _⟩ => new⟩
        rintro rfl
        refine ⟨stamp (cl.db, key), ?_, rfl, rfl⟩
        exact Option.not_isSome_iff_eq_none.mp (mt (client.watched _).mpr already)
    seen := fun l v some_ => by
      rcases (some_iff l v).mp some_ with old | ⟨-, -, rfl⟩
      · exact client.seen l v old
      · exact Nat.le_refl _
    dirty := by
      rw [client.dirty]
      constructor
      · rintro ⟨l, v, some_, changed⟩
        exact ⟨l, v, (some_iff l v).mpr (.inl some_), changed⟩
      · rintro ⟨l, v, some_, changed⟩
        rcases (some_iff l v).mp some_ with old | ⟨-, -, rfl⟩
        · exact ⟨l, v, old, changed⟩
        · exact absurd rfl changed }

theorem Related.watchForKeys (related : Related none s w) (here : s.clients c = some cl)
    (there : w.clients c = some acl) (client : cl.Related (none = some c) acl w.store.stamp)
    (keys : List Bytes) :
    Related none (keys.foldl (fun s key => s.watchForKey c key) s)
      (w.set c (acl.watch keys w.store.stamp)) := by
  induction keys generalizing s w cl acl with
  | nil =>
    rw [watch_nil, World.set_self w there]
    exact related
  | cons key keys ih =>
    have watched := related.lists.watchForKey here key
    have first := related.updated none (acl.watch [key] w.store.stamp) watched (client.watch key)
      fun _ _ => .rfl
    have rest := ih first watched.here (Function.update_self _ _ _) (client.watch key)
    simp only [World.set, Function.update_idem, watch_cons] at rest
    exact rest

theorem Related.call (related : Related none s w) (here : s.clients c = some cl)
    (there : w.clients c = some acl) (client : cl.Related (none = some c) acl w.store.stamp)
    (allowed : ℕ → Bool) (effect : ℕ → List (Op ν)) (req : Request κ) :
    Related none (s.call c cl allowed effect req) (w.call c acl allowed effect req) := by
  have queue := client.queue nofun
  have open_ : acl.queue.isSome = cl.multi := by
    rw [queue]
    cases cl.multi <;> rfl
  have same : Updated c cl s s := by
    refine ⟨?_, fun _ => ⟨rfl, rfl⟩, related.lists⟩
    rw [← here, Function.update_eq_self]
  cases req with
  | multi =>
    simp only [Server.call, World.call, open_]
    cases multi : cl.multi with
    | true => exact related.reply .error
    | false =>
      obtain ⟨commands, dirty_exec⟩ := client.idle nofun multi
      have opened := related.lists.modified here (f := fun cl => { cl with multi := true }) rfl
      refine (related.updated none { acl with queue := some (some []) } opened { client with
        left := fun running => by cases running
        queue := fun _ => by simp [commands, dirty_exec]
        idle := fun _ off => by cases off } fun _ _ => .rfl).reply .ok
  | exec => exact related.exec here client allowed effect
  | discard =>
    simp only [Server.call, World.call, open_]
    cases cl.multi with
    | true => exact (related.discard acl same client.db client.peer).reply .ok
    | false => exact related.reply .error
  | watch keys =>
    simp only [Server.call, World.call, open_]
    cases cl.multi with
    | true => exact related.reply .error
    | false => exact (related.watchForKeys here there client keys).reply .ok
  | reset =>
    simp only [Server.call, World.call, resetCommand]
    by_cases peer : cl.peer = true
    · rw [if_pos peer, if_pos (client.peer.trans peer)]
      exact related.reply .error
    · rw [if_neg peer, if_neg (client.peer ▸ peer)]
      have moved := related.lists.modified here (f := fun cl => { cl with db := 0 }) rfl
      exact (related.discard { acl with db := 0 } moved rfl client.peer).reply .ok
  | plain cmd => exact related.callQueued here (effect 0) cmd

theorem Related.fail (related : Related none s w) (here : s.clients c = some cl)
    (client : cl.Related (none = some c) acl w.store.stamp) :
    Updated c (if cl.multi then { cl with dirty_exec := true } else cl) s (s.flagTransaction c) ∧
      Client.Related (none = some c) (if cl.multi then { cl with dirty_exec := true } else cl)
        { acl with queue := acl.queue.map fun _ => none } w.store.stamp := by
  have queue := client.queue nofun
  constructor
  · refine related.lists.modified here (f := fun cl =>
      if cl.multi then { cl with dirty_exec := true } else cl) ?_
    split <;> rfl
  · cases multi : cl.multi with
    | true => exact { client with
        left := fun running => by cases running
        queue := fun _ => by simp [queue, multi]
        idle := fun _ off => by
          cases off }
    | false =>
      have same : (acl.queue.map fun _ => none) = acl.queue := by
        rw [queue, multi]
        rfl
      rw [same]
      exact client

theorem Related.reject (related : Related none s w) (here : s.clients c = some cl)
    (client : cl.Related (none = some c) acl w.store.stamp) :
    Related none (s.flagTransaction c) (w.fail c acl) := by
  obtain ⟨flagged, client'⟩ := related.fail here client
  exact related.updated none _ flagged client' fun _ _ => .rfl

theorem Related.processCommand (related : Related none s w) (here : s.clients c = some cl)
    (there : w.clients c = some acl) (client : cl.Related (none = some c) acl w.store.stamp)
    (gate : Gate) (allowed : ℕ → Bool) (effect : ℕ → List (Op ν)) (req : Request κ) :
    Related none (s.processCommand c cl gate allowed effect req)
      (w.processCommand c acl gate allowed effect req) := by
  have same : Updated c cl s s := by
    refine ⟨?_, fun _ => ⟨rfl, rfl⟩, related.lists⟩
    rw [← here, Function.update_eq_self]
  obtain ⟨flagged, failed⟩ := related.fail here client
  have aborted : Related none ((s.flagTransaction c).discardTransaction c) (w.leave c acl) :=
    related.discard acl flagged failed.db failed.peer
  have rejected : Related none ((s.flagTransaction c).reply c .error)
      ((w.fail c acl).reply c .error) := (related.reject here client).reply .error
  cases gate with
  | postponed => exact related
  | rejected =>
    cases req with
    | exec => exact aborted.reply .execAborted
    | multi | discard | watch _ | reset | plain _ => exact rejected
  | redirected =>
    cases req with
    | exec => exact (related.discard acl same client.db client.peer).reply .error
    | multi | discard | watch _ | reset | plain _ => exact rejected
  | accepted =>
    have called := related.call here there client allowed effect req
    have queue := client.queue nofun
    cases multi : cl.multi with
    | false =>
      simp only [multi, Bool.false_eq_true, if_false] at queue
      simp only [Server.processCommand, World.processCommand, multi, queue]
      exact called
    | true =>
      simp only [multi, if_true] at queue
      cases req with
      | plain cmd =>
        simp only [Server.processCommand, World.processCommand, multi, queue]
        have queued := related.lists.modified here (f := fun cl =>
          if cl.dirty_exec then cl else { cl with commands := cl.commands ++ [cmd] })
          (by split <;> rfl)
        refine (related.updated none _ queued ?_ fun _ _ => .rfl).reply .queued
        cases dirty_exec : cl.dirty_exec with
        | true => exact { client with
            left := fun running => by cases running
            queue := fun _ => by simp [multi, dirty_exec]
            idle := fun _ off => by
              simp only [if_true, multi] at off
              cases off }
        | false => exact { client with
            left := fun running => by cases running
            queue := fun _ => by simp [multi]
            idle := fun _ off => by
              simp only [Bool.false_eq_true, if_false, multi] at off
              cases off }
      | multi | exec | discard | watch _ | reset =>
        simp only [Server.processCommand, World.processCommand, multi, queue]
        exact called

theorem Related.step {l : Label ι κ ν} (related : Related none s w)
    (stepped : Multi.step s l = some t) :
    ∃ u, Spec.step w l = some u ∧ Related none t u := by
  cases l with
  | connect c peer =>
    simp only [Multi.step, Option.isNone_iff_eq_none, Option.ite_none_right_eq_some] at stepped
    obtain ⟨free, stepped⟩ := stepped
    cases stepped
    refine ⟨_, by simp only [Spec.step, related.absent c free]; rfl, ?_⟩
    have added : Updated c ⟨0, peer, false, false, false, [], []⟩ s { s with
        clients := Function.update s.clients c (some ⟨0, peer, false, false, false, [], []⟩) } := by
      refine ⟨rfl, fun _ => ⟨rfl, rfl⟩, ⟨?_, related.lists.entry, ?_, ?_⟩⟩
      · intro d cl here
        rcases Runs.updated_found here with ⟨-, new⟩ | ⟨-, old⟩
        · cases new
          exact List.nodup_nil
        · exact related.lists.nodup d cl old
      · intro wk l found d member
        obtain ⟨cl, here, watched⟩ := related.lists.mem wk l found d member
        refine ⟨cl, ?_, watched⟩
        rcases eq_or_ne d c with rfl | other
        · cases free.symm.trans here
        · exact (Function.update_of_ne other _ _).trans here
      · intro d cl here wk watched
        rcases Runs.updated_found here with ⟨-, new⟩ | ⟨-, old⟩
        · cases new
          cases watched
        · exact related.lists.listed d cl old wk watched
    exact related.updated none ⟨0, peer, none, fun _ => none⟩ added
      (.fresh rfl rfl rfl rfl rfl rfl rfl rfl rfl) fun _ _ => .rfl
  | free c =>
    obtain ⟨cl, here, rfl⟩ := Option.map_eq_some_iff.mp stepped
    obtain ⟨acl, there, -⟩ := related.client c cl here
    refine ⟨{ w with clients := Function.update w.clients c none },
      by simp only [Spec.step, there, Option.map_some], ?_⟩
    have unwatched := related.lists.unwatchAllKeys here
    have lists := unwatched.free
    have rest : s.freeClient c = { s with
        db := (s.unwatchAllKeys c).db, clients := Function.update s.clients c none } := by
      rw [Server.freeClient, unwatched.rest]
      simp only [Function.update_idem]
    have same : s.freeClient c = { s.unwatchAllKeys c with
        clients := Function.update (s.unwatchAllKeys c).clients c none } := rfl
    rw [← same] at lists
    rw [rest] at lists ⊢
    refine { related with
      lists := lists
      dict := fun l => (congrFun (unwatched.keys l.1).1 l.2).trans (related.dict l)
      expires := fun l => (congrFun (unwatched.keys l.1).2 l.2).trans (related.expires l)
      absent := ?_, client := ?_ }
    · intro d none
      rcases eq_or_ne d c with rfl | other
      · exact Function.update_self _ _ _
      · simp only [Function.update_of_ne other] at none ⊢
        exact related.absent d none
    · intro d cl' here'
      rcases Runs.updated_found here' with ⟨-, new⟩ | ⟨other, old⟩
      · cases new
      · simp only [Function.update_of_ne other]
        exact related.client d cl' old
  | command c gate allowed effect req =>
    obtain ⟨cl, here, rfl⟩ := Option.map_eq_some_iff.mp stepped
    obtain ⟨acl, there, client⟩ := related.client c cl here
    exact ⟨_, by simp only [Spec.step, there, Option.map_some],
      related.processCommand here there client gate allowed effect req⟩
  | work ops =>
    cases stepped
    exact ⟨_, rfl, related.performs ops⟩
  | time mstime loading =>
    cases stepped
    exact ⟨_, rfl, { related with
      lists := related.lists.congr (fun _ => rfl) fun _ => rfl, mstime := rfl, loading := rfl }⟩

omit [DecidableEq ι] in
theorem Related.init (dbnum : ℕ) : Related none (Multi.init (ι := ι) (κ := κ) (ν := ν) dbnum)
    (Spec.init dbnum) where
  lists := ⟨nofun, nofun, nofun, nofun⟩
  crashed := rfl
  dict _ := rfl
  expires _ := rfl
  dbnum := rfl
  mstime := rfl
  loading := rfl
  log := rfl
  absent _ _ := rfl
  client := nofun

omit [DecidableEq ι] in
theorem Related.none_iff (related : Related none s w) : w.clients c = none ↔ s.clients c = none := by
  simp only [← Option.not_isSome_iff_eq_none, related.isSome_iff]

theorem Related.stuck {l : Label ι κ ν} (related : Related none s w) (stuck : Multi.step s l = none) :
    Spec.step w l = none := by
  cases l with
  | connect c peer =>
    simp only [Multi.step, Spec.step, Option.isNone_iff_eq_none, related.none_iff,
      ite_eq_right_iff, reduceCtorEq, imp_false] at stuck ⊢
    exact stuck
  | free c | command c gate allowed effect req =>
    exact Option.map_eq_none_iff.mpr (related.none_iff.mpr (Option.map_eq_none_iff.mp stuck))
  | work ops | time mstime loading => cases stuck

/-- What can be seen of the databases. -/
def Server.content (s : Server ι κ ν) (l : ℕ × Bytes) : Option ν × Option ℤ :=
  ((s.db l.1).dict l.2, (s.db l.1).expires l.2)

def Spec.World.content (w : World ι κ ν) (l : ℕ × Bytes) : Option ν × Option ℤ :=
  ((w.store.content l).map Prod.fst, (w.store.content l).bind Prod.snd)

omit [DecidableEq ι] in
theorem Related.content_eq (related : Related running s w) : w.content = s.content :=
  funext fun l => (Prod.ext (related.dict l) (related.expires l)).symm

/-- Every run of the server gives the replies, executes the commands and leaves the keys that
the stamps give, and neither fails an assertion nor uses a freed client. -/
theorem runs_as_stamped (dbnum : ℕ) (ls : List (Label ι κ ν)) :
    ((Runs.run Multi.step (Multi.init dbnum) ls).map fun s => (s.crashed, s.log, s.content)) =
      (Runs.run Spec.step (Spec.init dbnum) ls).map fun w => (false, w.log, w.content) := by
  suffices run : ∀ {s : Server ι κ ν} {w : World ι κ ν}, Related none s w →
      ((Runs.run Multi.step s ls).map fun s => (s.crashed, s.log, s.content)) =
        (Runs.run Spec.step w ls).map fun w => (false, w.log, w.content) from
    run (.init dbnum)
  induction ls with
  | nil =>
    intro s w related
    have content : w.content = s.content := related.content_eq
    rw [Runs.run, Runs.run, Option.map_some, Option.map_some, related.crashed, related.log, content]
  | cons l ls ih =>
    intro s w related
    rw [Runs.run, Runs.run]
    cases stepped : Multi.step s l with
    | none =>
      rw [related.stuck stepped]
      rfl
    | some t =>
      obtain ⟨u, stepped', related'⟩ := related.step stepped
      rw [stepped']
      exact ih related'

end

end Copier.Redis.Multi
