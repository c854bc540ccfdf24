import Copier.Redis.Transactions

/-! What EXEC may rely on: as long as commands signal the keys they change, a transaction
that is executed finds the keys its client watches as they were all the time. -/
namespace Copier.Redis.Multi
open Spec Stamps
variable {ι κ ν : Type} {w u : World ι κ ν} {c : ι} {l : ℕ × Bytes}

/-- Every key that is written is signalled. -/
def Signalled (ops : List (Op ν)) : Prop :=
  ∀ d key entry, .write d key entry ∈ ops → .signal d key ∈ ops

/-! What is done to the keys. -/

/-- Emptying a database stamps the keys it had. -/
theorem empty_tracks (w : World ι κ ν) (d : Option ℕ) :
    Tracks w.store (w.perform (.empty d)).store := by
  refine Tracks.touch fun l changed => ?_
  have gone : l.1 < w.dbnum ∧ ∀ only, d = some only → l.1 = only := by
    by_contra kept
    exact changed (if_neg kept)
  refine ⟨gone, ?_⟩
  by_contra none
  refine changed ((if_pos gone).trans ?_)
  exact (Option.not_isSome_iff_eq_none.mp none).symm

/-- Swapping databases stamps the keys that one of them has, in both. -/
theorem swap_tracks (w : World ι κ ν) (id1 id2 : ℕ) :
    Tracks w.store (w.perform (.swap id1 id2)).store := by
  rw [World.perform]
  split
  · refine Tracks.touch ?_
    rintro ⟨d, key⟩ changed
    by_contra untouched
    dsimp only at changed untouched
    by_cases first : d = id1
    · subst first
      simp only [true_or, true_and, not_or, World.Exists, Option.not_isSome_iff_eq_none] at untouched
      exact changed (by rw [if_pos rfl, untouched.1, untouched.2])
    · by_cases second : d = id2
      · subst second
        simp only [or_true, true_and, not_or, World.Exists, Option.not_isSome_iff_eq_none] at untouched
        exact changed (by rw [if_neg first, if_pos rfl, untouched.1, untouched.2])
      · exact changed (by rw [if_neg first, if_neg second])
  · exact .refl _

theorem stamp_le_perform (w : World ι κ ν) (op : Op ν) (l : ℕ × Bytes) :
    w.store.stamp l ≤ (w.perform op).store.stamp l := by
  cases op with
  | write d key entry => exact Nat.le_refl _
  | signal d key => exact stamp_le_touch _ _ _
  | empty d => exact (empty_tracks w d l).1
  | swap id1 id2 => exact (swap_tracks w id1 id2 l).1

theorem stamp_le_performs (w : World ι κ ν) (ops : List (Op ν)) (l : ℕ × Bytes) :
    w.store.stamp l ≤ (ops.foldl World.perform w).store.stamp l := by
  induction ops generalizing w with
  | nil => exact Nat.le_refl _
  | cons op ops ih => exact Nat.le_trans (stamp_le_perform w op l) (ih (w.perform op))

theorem signal_lt_performs {ops : List (Op ν)} (w : World ι κ ν)
    (member : .signal l.1 l.2 ∈ ops) :
    w.store.stamp l < (ops.foldl World.perform w).store.stamp l := by
  induction ops generalizing w with
  | nil => cases member
  | cons op ops ih =>
    rw [List.foldl_cons]
    rcases List.mem_cons.mp member with rfl | member
    · have touched : w.store.stamp l < (w.perform (.signal l.1 l.2)).store.stamp l :=
        touch_stamp_lt rfl
      exact Nat.lt_of_lt_of_le touched (stamp_le_performs _ ops l)
    · exact Nat.lt_of_le_of_lt (stamp_le_perform w op l) (ih (w.perform op) member)

theorem perform_content {op : Op ν} (quiet : ∀ entry, op ≠ .write l.1 l.2 entry)
    (same : (w.perform op).store.stamp l = w.store.stamp l) :
    (w.perform op).store.content l = w.store.content l := by
  cases op with
  | write d key entry =>
    refine Function.update_of_ne ?_ _ _
    rintro rfl
    exact quiet entry rfl
  | signal d key => rfl
  | empty d => exact (empty_tracks w d l).2 same
  | swap id1 id2 => exact (swap_tracks w id1 id2 l).2 same

theorem performs_content {ops : List (Op ν)} (quiet : ∀ entry, .write l.1 l.2 entry ∉ ops)
    (same : (ops.foldl World.perform w).store.stamp l = w.store.stamp l) :
    (ops.foldl World.perform w).store.content l = w.store.content l := by
  induction ops generalizing w with
  | nil => rfl
  | cons op ops ih =>
    have first := stamp_le_perform w op l
    have rest := stamp_le_performs (w.perform op) ops l
    rw [List.foldl_cons] at same ⊢
    have still : (w.perform op).store.stamp l = w.store.stamp l :=
      Nat.le_antisymm (same ▸ rest) first
    rw [ih (fun entry member => quiet entry (List.mem_cons_of_mem _ member)) (same.trans still.symm)]
    refine perform_content (fun entry equal => ?_) still
    exact quiet entry (equal ▸ List.mem_cons_self)

theorem performs_tracks {ops : List (Op ν)} (w : World ι κ ν) (signalled : Signalled ops) :
    Tracks w.store (ops.foldl World.perform w).store := by
  intro l
  refine ⟨stamp_le_performs w ops l, fun same => performs_content (fun entry member => ?_) same⟩
  have grown := signal_lt_performs w (signalled l.1 l.2 entry member)
  exact absurd same (Nat.ne_of_gt grown)

/-! What a step does to the stamps, and to the keys that clients watch. -/

/-- Keys have changed only with their stamps, and no client watches more than before. -/
structure Later (w u : World ι κ ν) : Prop where
  tracks : Tracks w.store u.store
  watched : ∀ c acl', u.clients c = some acl' → ∃ acl, w.clients c = some acl ∧
    ∀ l, acl'.watched l = acl.watched l ∨ acl'.watched l = none

theorem Later.refl (w : World ι κ ν) : Later w w :=
  ⟨.refl _, fun _ acl here => ⟨acl, here, fun _ => .inl rfl⟩⟩

theorem Later.trans {x : World ι κ ν} (first : Later w u) (second : Later u x) : Later w x := by
  refine ⟨first.tracks.trans second.tracks, fun c last here => ?_⟩
  obtain ⟨middle, there, fewer⟩ := second.watched c last here
  obtain ⟨old, before, fewer'⟩ := first.watched c middle there
  refine ⟨old, before, fun l => ?_⟩
  rcases fewer l with same | none
  · rw [same]
    exact fewer' l
  · exact .inr none

theorem Later.reply (later : Later w u) (c : ι) (r : Reply) : Later w (u.reply c r) :=
  ⟨later.tracks, later.watched⟩

section
variable [DecidableEq ι] {acl : Spec.Client κ}

theorem later_set (acl' : Spec.Client κ) (there : w.clients c = some acl)
    (fewer : ∀ l, acl'.watched l = acl.watched l ∨ acl'.watched l = none) :
    Later w (w.set c acl') := by
  refine ⟨.refl _, fun d last here => ?_⟩
  rcases Runs.updated_found here with ⟨rfl, new⟩ | ⟨-, old⟩
  · cases new
    exact ⟨acl, there, fewer⟩
  · exact ⟨last, old, fun _ => .inl rfl⟩

theorem later_leave (there : w.clients c = some acl) (db : ℕ) :
    Later w (w.leave c { acl with db := db }) :=
  later_set _ there fun _ => .inr rfl

theorem later_callQueued (w : World ι κ ν) (c : ι) {ops : List (Op ν)} (cmd : Queued κ)
    (signalled : Signalled ops) : Later w (w.callQueued c ops cmd) := by
  cases here : w.clients c with
  | none =>
    have stuck : w.callQueued c ops cmd = w := by simp only [World.callQueued, here]
    rw [stuck]
    exact .refl w
  | some acl =>
    cases cmd with
    | select id =>
      simp only [World.callQueued, here]
      split
      · exact (later_set { acl with db := id.toNat } here fun _ => .inl rfl).reply c .ok
      · exact (Later.refl w).reply c .error
    | unwatch =>
      simp only [World.callQueued, here]
      exact (later_set _ here fun _ => .inr rfl).reply c .ok
    | other cmd =>
      simp only [World.callQueued, here]
      refine ⟨performs_tracks { w with log := w.log ++ [.called c cmd] } signalled,
        fun d last found => ?_⟩
      rw [perform_clients] at found
      exact ⟨last, found, fun _ => .inl rfl⟩

theorem later_execQueued (w : World ι κ ν) (c : ι) (allowed : ℕ → Bool)
    {effect : ℕ → List (Op ν)} (signalled : ∀ j, Signalled (effect j)) (j : ℕ)
    (commands : List (Queued κ)) : Later w (w.execQueued c allowed effect j commands) := by
  induction commands generalizing w j with
  | nil => exact .refl w
  | cons cmd commands ih =>
    rw [World.execQueued]
    refine Later.trans ?_ (ih _ (j + 1))
    split
    · exact later_callQueued w c cmd (signalled j)
    · exact (Later.refl w).reply c .error

theorem later_exec (there : w.clients c = some acl) (allowed : ℕ → Bool)
    {effect : ℕ → List (Op ν)} (signalled : ∀ j, Signalled (effect j)) :
    Later w (w.exec c acl allowed effect) := by
  have left : Later w (w.leave c acl) := later_leave there acl.db
  rw [World.exec]
  split
  · exact (Later.refl w).reply c .error
  · exact left.reply c .execAborted
  · rename_i commands _
    split
    · exact left.reply c .nullArray
    · exact (left.reply c _).trans (later_execQueued _ c allowed signalled 0 commands)

/-- Keys have changed only with their stamps, and who still watches a key has not forgotten
the stamp it saw. -/
structure Follows (w u : World ι κ ν) : Prop where
  tracks : Tracks w.store u.store
  seen : ∀ c acl acl', w.clients c = some acl → u.clients c = some acl' →
    ∀ l n, acl.watched l = some n → acl'.watched l = some n ∨ acl'.watched l = none

omit [DecidableEq ι] in
theorem Later.follows (later : Later w u) : Follows w u := by
  refine ⟨later.tracks, fun c acl acl' before after l n some_ => ?_⟩
  obtain ⟨old, there, fewer⟩ := later.watched c acl' after
  cases before.symm.trans there
  rcases fewer l with same | none
  · exact .inl (same.trans some_)
  · exact .inr none

theorem follows_watch (there : w.clients c = some acl) (keys : List Bytes) :
    Follows w ((w.set c (acl.watch keys w.store.stamp)).reply c .ok) := by
  refine ⟨.refl _, fun d old last before after l n some_ => .inl ?_⟩
  rcases Runs.updated_found after with ⟨rfl, new⟩ | ⟨-, kept⟩
  · cases there.symm.trans before
    cases new
    simp only [Client.watch, some_, Option.some_or]
  · cases kept.symm.trans before
    exact some_

theorem follows_call (there : w.clients c = some acl) (allowed : ℕ → Bool)
    {effect : ℕ → List (Op ν)} (signalled : ∀ j, Signalled (effect j)) (req : Request κ) :
    Follows w (w.call c acl allowed effect req) := by
  cases req with
  | multi =>
    rw [World.call]
    split
    · exact ((Later.refl w).reply c .error).follows
    · exact ((later_set { acl with queue := some (some []) } there fun _ => .inl rfl).reply c
        .ok).follows
  | exec => exact (later_exec there allowed signalled).follows
  | discard =>
    rw [World.call]
    split
    · exact ((later_leave there acl.db).reply c .ok).follows
    · exact ((Later.refl w).reply c .error).follows
  | watch keys =>
    rw [World.call]
    split
    · exact ((Later.refl w).reply c .error).follows
    · exact follows_watch there keys
  | reset =>
    rw [World.call]
    split
    · exact ((Later.refl w).reply c .error).follows
    · exact ((later_leave there 0).reply c .ok).follows
  | plain cmd => exact (later_callQueued w c cmd (signalled 0)).follows

theorem follows_processCommand (there : w.clients c = some acl) (gate : Server.Gate)
    (allowed : ℕ → Bool) {effect : ℕ → List (Op ν)} (signalled : ∀ j, Signalled (effect j))
    (req : Request κ) : Follows w (w.processCommand c acl gate allowed effect req) := by
  have left : Later w (w.leave c acl) := later_leave there acl.db
  have failed : Later w (w.fail c acl) := later_set _ there fun _ => .inl rfl
  cases gate with
  | postponed => exact (Later.refl w).follows
  | rejected =>
    cases req with
    | exec => exact (left.reply c .execAborted).follows
    | multi | discard | watch _ | reset | plain _ => exact (failed.reply c .error).follows
  | redirected =>
    cases req with
    | exec => exact (left.reply c .error).follows
    | multi | discard | watch _ | reset | plain _ => exact (failed.reply c .error).follows
  | accepted =>
    have called := follows_call there allowed signalled req
    cases queue : acl.queue with
    | none =>
      simp only [World.processCommand, queue]
      exact called
    | some commands =>
      cases req with
      | plain cmd =>
        simp only [World.processCommand, queue]
        have queued := later_set { acl with queue := some (commands.map (· ++ [cmd])) } there
          fun _ => .inl rfl
        exact (queued.reply c .queued).follows
      | multi | exec | discard | watch _ | reset =>
        simp only [World.processCommand, queue]
        exact called

/-- What happens to the keys is signalled. -/
def Label.Signalled : Label ι κ ν → Prop
  | .command _ _ _ effect _ => ∀ j, Multi.Signalled (effect j)
  | .work ops => Multi.Signalled ops
  | .connect .. | .free _ | .time .. => True

theorem follows_step {e : Label ι κ ν} (signalled : e.Signalled) (stepped : Spec.step w e = some u) :
    Follows w u := by
  cases e with
  | connect c peer =>
    simp only [Spec.step, Option.isNone_iff_eq_none, Option.ite_none_right_eq_some] at stepped
    obtain ⟨free, stepped⟩ := stepped
    cases stepped
    refine ⟨.refl _, fun d acl acl' before after l n some_ => ?_⟩
    rcases Runs.updated_found after with ⟨rfl, -⟩ | ⟨-, kept⟩
    · cases free.symm.trans before
    · cases kept.symm.trans before
      exact .inl some_
  | free c =>
    obtain ⟨acl, there, rfl⟩ := Option.map_eq_some_iff.mp stepped
    refine ⟨.refl _, fun d acl acl' before after l n some_ => ?_⟩
    rcases Runs.updated_found after with ⟨-, new⟩ | ⟨-, kept⟩
    · cases new
    · cases kept.symm.trans before
      exact .inl some_
  | command c gate allowed effect req =>
    obtain ⟨acl, there, rfl⟩ := Option.map_eq_some_iff.mp stepped
    exact follows_processCommand there gate allowed signalled req
  | work ops =>
    cases stepped
    refine Later.follows ⟨performs_tracks w signalled, fun d last found => ?_⟩
    rw [perform_clients] at found
    exact ⟨last, found, fun _ => .inl rfl⟩
  | time mstime loading =>
    cases stepped
    exact Later.follows ⟨.refl _, fun _ acl here => ⟨acl, here, fun _ => .inl rfl⟩⟩

/-! Runs of the server in which a client watches a key all the time. -/

variable {s t x : Server ι κ ν}

def Server.Watches (s : Server ι κ ν) (c : ι) (l : ℕ × Bytes) : Prop :=
  ∃ cl, s.clients c = some cl ∧ l ∈ cl.watched_keys

/-- The client has watched the key since it had this stamp. -/
def Spec.World.Seen (w : World ι κ ν) (c : ι) (l : ℕ × Bytes) (n : ℕ) : Prop :=
  ∃ acl, w.clients c = some acl ∧ acl.watched l = some n

omit [DecidableEq ι] in
theorem Related.seen (related : Related none s w) (watches : s.Watches c l) : ∃ n, w.Seen c l n := by
  obtain ⟨cl, here, member⟩ := watches
  obtain ⟨acl, there, client⟩ := related.client c cl here
  obtain ⟨n, some_⟩ := Option.isSome_iff_exists.mp ((client.watched l).mp member)
  exact ⟨n, acl, there, some_⟩

omit [DecidableEq ι] in
theorem Follows.seen_back (follows : Follows w u) {m n : ℕ} (before : w.Seen c l m)
    (after : u.Seen c l n) : w.Seen c l n := by
  obtain ⟨acl, there, old⟩ := before
  obtain ⟨acl', there', new⟩ := after
  refine ⟨acl, there, ?_⟩
  rcases follows.seen c acl acl' there there' l m old with same | none
  · rw [old, ← same, new]
  · cases none.symm.trans new

/-- As long as a client watches a key, it compares it with the same stamp. -/
theorem Related.watching {ls : List (Label ι κ ν)} (related : Related none s w)
    (path : Runs.Path Multi.step (fun s e => s.Watches c l ∧ e.Signalled) s ls t) :
    ∃ u, Related none t u ∧ Tracks w.store u.store ∧ ∀ n, u.Seen c l n → w.Seen c l n := by
  induction path with
  | refl => exact ⟨w, related, .refl _, fun _ seen => seen⟩
  | snoc _ met stepped ih =>
    obtain ⟨u, related', tracks, back⟩ := ih
    obtain ⟨m, before⟩ := related'.seen met.1
    obtain ⟨u', stepped', related''⟩ := related'.step stepped
    have follows := follows_step met.2 stepped'
    exact ⟨u', related'', tracks.trans follows.tracks,
      fun n after => back n (follows.seen_back before after)⟩

/-- An EXEC that answers with an array has found nothing stale. -/
theorem exec_fresh {allowed : ℕ → Bool} {effect : ℕ → List (Op ν)} {count : ℕ}
    (executed : (w.exec c acl allowed effect).log[w.log.length]? =
      some (.replied c (.array count))) : ¬ w.Stale acl := by
  intro stale
  rw [World.exec] at executed
  split at executed
  · simp [World.reply] at executed
  · simp [World.reply, World.leave, World.set] at executed
  · rw [if_pos stale] at executed
    simp [World.reply, World.leave, World.set] at executed

theorem processCommand_exec (w : World ι κ ν) (c : ι) (acl : Spec.Client κ) (allowed : ℕ → Bool)
    (effect : ℕ → List (Op ν)) :
    w.processCommand c acl .accepted allowed effect .exec = w.exec c acl allowed effect := by
  cases queue : acl.queue with
  | none | some commands => simp only [World.processCommand, queue, World.call]

theorem Related.run {ls : List (Label ι κ ν)} (related : Related none s w)
    (ran : Runs.run Multi.step s ls = some t) : ∃ u, Related none t u := by
  refine Runs.Path.invariant (fun t => ∃ u, Related none t u) (Runs.Path.of_run_any ran)
    ⟨w, related⟩ fun {s l t} related _ stepped => ?_
  obtain ⟨w, related⟩ := related
  obtain ⟨u, -, related'⟩ := related.step stepped
  exact ⟨u, related'⟩

/-- As long as every key that is modified is signalled, as `db.c` asks for: a transaction that
EXEC executes finds each key its client watches as it was at any time since the WATCH, and
not expired. -/
theorem exec_finds_unchanged {dbnum count : ℕ} {ks ls : List (Label ι κ ν)}
    {allowed : ℕ → Bool} {effect : ℕ → List (Op ν)}
    (reached : Runs.run Multi.step (Multi.init dbnum) ks = some s)
    (path : Runs.Path Multi.step (fun s e => s.Watches c l ∧ e.Signalled) s ls t)
    (watches : t.Watches c l)
    (exec : Multi.step t (.command c .accepted allowed effect .exec) = some x)
    (executed : x.log[t.log.length]? = some (.replied c (.array count))) :
    t.content l = s.content l ∧ t.keyIsExpired l = false := by
  obtain ⟨w, related⟩ := (Related.init dbnum).run reached
  obtain ⟨u, related', tracks, back⟩ := related.watching path
  obtain ⟨n, acl, there, saw⟩ := related'.seen watches
  obtain ⟨y, stepped, related''⟩ := related'.step exec
  -- what EXEC has found
  have fresh : ¬ u.Stale acl := by
    simp only [Spec.step, there, Option.map_some, processCommand_exec, Option.some.injEq] at stepped
    rw [← related''.log, ← related'.log, ← stepped] at executed
    exact exec_fresh executed
  have stamp : u.store.stamp l = n := by
    by_contra changed
    exact fresh ⟨l, n, saw, .inl changed⟩
  have living : ¬ u.Expired l := fun expired => fresh ⟨l, n, saw, .inr expired⟩
  -- the stamp was the same at the beginning
  obtain ⟨old, before, saw'⟩ := back n ⟨acl, there, saw⟩
  have low : n ≤ w.store.stamp l := by
    cases here : s.clients c with
    | none => cases (related.absent c here).symm.trans before
    | some cl =>
      obtain ⟨acl', before', client⟩ := related.client c cl here
      cases before.symm.trans before'
      exact client.seen l n saw'
  have same : u.store.stamp l = w.store.stamp l := Nat.le_antisymm (stamp ▸ low) (tracks l).1
  constructor
  · rw [← related.content_eq, ← related'.content_eq, Spec.World.content, Spec.World.content,
      (tracks l).2 same]
  · exact Bool.eq_false_iff.mpr fun expired => living ((related'.expired_iff l).mpr expired)

theorem exec_finds_unchanged_beside :
    let watched : ℕ × Bytes := (0, [107])
    let other : Bytes := [108]
    ∃ s t x : Server ℕ Unit ℕ,
      Runs.run Multi.step (Multi.init 1) [.connect 0 false, .connect 1 false,
        .command 1 .accepted (fun _ => true)
          (fun _ => [.write 0 watched.2 (some (3, none)), .signal 0 watched.2]) (.plain (.other ())),
        .command 0 .accepted (fun _ => true) (fun _ => []) (.watch [watched.2])] = some s ∧
      s.content watched = (some 3, none) ∧
      Runs.run Multi.step s [.command 0 .accepted (fun _ => true) (fun _ => []) .multi,
        .command 1 .accepted (fun _ => true)
          (fun _ => [.write 0 other (some (5, none)), .signal 0 other]) (.plain (.other ())),
        .command 0 .accepted (fun _ => true) (fun _ => []) (.plain (.other ()))] = some t ∧
      Multi.step t (.command 0 .accepted (fun _ => true) (fun _ => []) .exec) = some x ∧
      x.log[t.log.length]? = some (.replied 0 (.array 1)) ∧
      t.content watched = s.content watched ∧ t.keyIsExpired watched = false := by
  intro watched other
  have run : ∃ s t x : Server ℕ Unit ℕ,
      Runs.run Multi.step (Multi.init 1) [.connect 0 false, .connect 1 false,
        .command 1 .accepted (fun _ => true)
          (fun _ => [.write 0 watched.2 (some (3, none)), .signal 0 watched.2]) (.plain (.other ())),
        .command 0 .accepted (fun _ => true) (fun _ => []) (.watch [watched.2])] = some s ∧
      s.content watched = (some 3, none) ∧
      Runs.Path Multi.step (fun s e => s.Watches 0 watched ∧ e.Signalled) s
        [.command 0 .accepted (fun _ => true) (fun _ => []) .multi,
          .command 1 .accepted (fun _ => true)
            (fun _ => [.write 0 other (some (5, none)), .signal 0 other]) (.plain (.other ())),
          .command 0 .accepted (fun _ => true) (fun _ => []) (.plain (.other ()))] t ∧
      t.Watches 0 watched ∧
      Multi.step t (.command 0 .accepted (fun _ => true) (fun _ => []) .exec) = some x ∧
      x.log[t.log.length]? = some (.replied 0 (.array 1)) := by
    have quiet : Signalled ([] : List (Op ℕ)) := fun _ _ _ member => by cases member
    have wrote : Signalled [.write 0 other (some (5, none)), .signal 0 other] := by
      intro d key entry member
      simp at member
      simp [member]
    refine ⟨_, _, _, rfl, rfl, .cons ⟨⟨_, rfl, .head _⟩, fun _ => quiet⟩ rfl
      (.cons ⟨⟨_, rfl, .head _⟩, fun _ => wrote⟩ rfl
        (.cons ⟨⟨_, rfl, .head _⟩, fun _ => quiet⟩ rfl (.refl _))), ⟨_, rfl, .head _⟩, rfl, rfl⟩
  obtain ⟨s, t, x, reached, stored, path, watches, exec, executed⟩ := run
  exact ⟨s, t, x, reached, stored, path.run_eq, exec, executed,
    exec_finds_unchanged reached path watches exec executed⟩

end

end Copier.Redis.Multi
