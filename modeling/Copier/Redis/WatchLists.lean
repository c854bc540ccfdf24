import Copier.Redis.Multi

/-! The two sides of WATCH, the keys of a client and the clients of a key, agree in every
state; touching a key then marks exactly the clients that watch it. -/
namespace Copier.Redis.Multi
variable {ι κ ν : Type} {s t : Server ι κ ν} {c : ι} {cl : Client κ}

namespace Server

def watchers (s : Server ι κ ν) (wk : ℕ × Bytes) : Option (List ι) :=
  (s.db wk.1).watched_keys.lookup wk.2

theorem modify_eq [DecidableEq ι] (f : Client κ → Client κ) (here : s.clients c = some cl) :
    s.modify c f = { s with clients := Function.update s.clients c (some (f cl)) } := by
  rw [modify, here]

end Server

open Multi.Server

structure Lists (s : Server ι κ ν) : Prop where
  nodup : ∀ c cl, s.clients c = some cl → cl.watched_keys.Nodup
  entry : ∀ wk l, s.watchers wk = some l → l ≠ [] ∧ l.Nodup
  mem : ∀ wk l, s.watchers wk = some l → ∀ c ∈ l,
    ∃ cl, s.clients c = some cl ∧ wk ∈ cl.watched_keys
  listed : ∀ c cl, s.clients c = some cl → ∀ wk ∈ cl.watched_keys,
    ∃ l, s.watchers wk = some l ∧ c ∈ l

/-- Only what is watched matters. -/
theorem Lists.congr (lists : Lists s) (watchers : ∀ wk, t.watchers wk = s.watchers wk)
    (keys : ∀ c, (t.clients c).map Client.watched_keys = (s.clients c).map Client.watched_keys) :
    Lists t := by
  have back : ∀ c cl, t.clients c = some cl →
      ∃ old, s.clients c = some old ∧ old.watched_keys = cl.watched_keys := by
    intro c cl here
    have same := keys c
    rw [here, Option.map_some] at same
    exact Option.map_eq_some_iff.mp same.symm
  constructor
  · intro c cl here
    obtain ⟨old, found, same⟩ := back c cl here
    exact same ▸ lists.nodup c old found
  · intro wk l found
    exact lists.entry wk l (watchers wk ▸ found)
  · intro wk l found c member
    obtain ⟨old, here, watched⟩ := lists.mem wk l (watchers wk ▸ found) c member
    have same := keys c
    rw [here, Option.map_some] at same
    obtain ⟨cl, here, same⟩ := Option.map_eq_some_iff.mp same
    exact ⟨cl, here, same ▸ watched⟩
  · intro c cl here wk watched
    obtain ⟨old, found, same⟩ := back c cl here
    rw [watchers wk]
    exact lists.listed c old found wk (same ▸ watched)

theorem Lists.reply (lists : Lists s) (r : Reply) : Lists (s.reply c r) :=
  lists.congr (fun _ => rfl) fun _ => rfl

theorem Lists.modify [DecidableEq ι] (lists : Lists s) (here : s.clients c = some cl) {f : Client κ → Client κ}
    (same : (f cl).watched_keys = cl.watched_keys) : Lists (s.modify c f) := by
  rw [modify_eq f here]
  refine lists.congr (fun _ => rfl) fun d => ?_
  by_cases own : d = c
  · subst own
    simp only [Function.update_self, here, Option.map_some, same]
  · simp only [Function.update_of_ne own]

/-! Marking clients. -/

/-- Marks the clients that watch a touched key. -/
def Server.dirtied (s : Server ι κ ν) (touched : ℕ × Bytes → Bool) : Server ι κ ν :=
  { s with clients := fun c => (s.clients c).map fun cl =>
    { cl with dirty_cas := cl.dirty_cas || cl.watched_keys.any touched } }

theorem Lists.dirtied (lists : Lists s) (touched : ℕ × Bytes → Bool) : Lists (s.dirtied touched) := by
  refine lists.congr (fun _ => rfl) fun c => ?_
  rw [Server.dirtied, Option.map_map]
  rfl

theorem dirtied_dirtied (s : Server ι κ ν) (touched more : ℕ × Bytes → Bool) :
    (s.dirtied touched).dirtied more = s.dirtied fun wk => touched wk || more wk := by
  simp only [Server.dirtied, Option.map_map]
  congr 1
  funext c
  refine congrArg (fun f => (s.clients c).map f) (funext fun cl => ?_)
  simp only [Function.comp, Bool.or_assoc]
  congr 2
  induction cl.watched_keys with
  | nil => rfl
  | cons wk wks ih =>
    simp only [List.any_cons, ← ih]
    ac_rfl

theorem dirtied_false (s : Server ι κ ν) : s.dirtied (fun _ => false) = s := by
  have same : ∀ cl : Client κ, (cl.watched_keys.any fun _ => false) = false := fun cl => by simp
  simp [Server.dirtied, same]

section
variable [DecidableEq ι]

theorem foldl_markDirty {l : List ι} (known : ∀ c ∈ l, (s.clients c).isSome) :
    l.foldl markDirty s = { s with clients := fun c => (s.clients c).map fun cl =>
      { cl with dirty_cas := cl.dirty_cas || decide (c ∈ l) } } := by
  induction l generalizing s with
  | nil => simp
  | cons d l ih =>
    obtain ⟨here, known⟩ := List.forall_mem_cons.mp known
    obtain ⟨old, here⟩ := Option.isSome_iff_exists.mp here
    have marked : s.markDirty d = { s with
        clients := Function.update s.clients d (some { old with dirty_cas := true }) } :=
      modify_eq _ here
    rw [List.foldl_cons, marked, ih]
    · congr 1
      funext c
      by_cases own : c = d
      · simp [own, here]
      · simp [own]
    · intro c member
      by_cases own : c = d
      · simp [own]
      · simpa [own] using known c member

omit [DecidableEq ι] in
theorem Lists.known (lists : Lists s) (found : s.watchers wk = some l) :
    ∀ c ∈ l, (s.clients c).isSome := by
  intro c member
  obtain ⟨cl, here, -⟩ := lists.mem wk l found c member
  exact Option.isSome_iff_exists.mpr ⟨cl, here⟩

/-- Whoever is in the lists of some keys watches one of them, and the other way round. -/
theorem Lists.marks (lists : Lists s) {l : List ι} {touched : ℕ × Bytes → Bool}
    (exact_ : ∀ c, c ∈ l ↔ ∃ wk own, touched wk = true ∧ s.watchers wk = some own ∧ c ∈ own) :
    l.foldl markDirty s = s.dirtied touched := by
  rw [foldl_markDirty, Server.dirtied]
  · congr 1
    funext c
    cases here : s.clients c with
    | none => rfl
    | some cl =>
      have same : decide (c ∈ l) = cl.watched_keys.any touched := by
        rw [Bool.eq_iff_iff, decide_eq_true_eq, exact_, List.any_eq_true]
        constructor
        · rintro ⟨wk, own, yes, found, member⟩
          obtain ⟨cl', here', watched⟩ := lists.mem wk own found c member
          cases here'.symm.trans here
          exact ⟨wk, watched, yes⟩
        · rintro ⟨wk, watched, yes⟩
          obtain ⟨own, found, member⟩ := lists.listed c cl here wk watched
          exact ⟨wk, own, yes, found, member⟩
      simp only [Option.map_some, same]
  · intro c member
    obtain ⟨wk, own, -, found, inside⟩ := (exact_ c).mp member
    exact lists.known found c inside

theorem Lists.touchWatchedKey (lists : Lists s) (d : ℕ) (key : Bytes) :
    s.touchWatchedKey d key = s.dirtied fun wk => decide (wk = (d, key)) := by
  unfold Server.touchWatchedKey
  split
  · rename_i unwatched
    refine (lists.marks (l := []) fun c => ⟨nofun, ?_⟩)
    rintro ⟨wk, own, same, found, -⟩
    rw [of_decide_eq_true same] at found
    cases unwatched.symm.trans found
  · rename_i clients found
    refine lists.marks fun c => ⟨fun member => ⟨(d, key), clients, by simp, found, member⟩, ?_⟩
    rintro ⟨wk, own, same, found', member⟩
    rw [of_decide_eq_true same] at found'
    cases found'.symm.trans found
    exact member

@[simp] theorem markDirty_db (s : Server ι κ ν) (c : ι) : (s.markDirty c).db = s.db := by
  rw [markDirty, Server.modify]
  split <;> rfl

@[simp] theorem foldl_markDirty_db (l : List ι) (s : Server ι κ ν) :
    (l.foldl markDirty s).db = s.db := by
  induction l generalizing s with
  | nil => rfl
  | cons c l ih => rw [List.foldl_cons, ih, markDirty_db]

/-- A key of the emptied database, or of the one in its place. -/
def Server.present (s : Server ι κ ν) (emptied : ℕ) (replaced_with : Option ℕ) (wk : ℕ × Bytes) :
    Bool :=
  decide (wk.1 = emptied) && (((s.db emptied).dict wk.2).isSome ||
    (replaced_with.bind fun d => (s.db d).dict wk.2).isSome)

theorem Lists.touchAllWatchedKeysInDb (lists : Lists s) (emptied : ℕ) (replaced_with : Option ℕ) :
    s.touchAllWatchedKeysInDb emptied replaced_with = s.dirtied (s.present emptied replaced_with) := by
  have inner : ∀ (key : Bytes) (l : List ι) (t : Server ι κ ν), t.db = s.db →
      l.foldl (fun t c => if ((t.db emptied).dict key).isSome then t.markDirty c
        else if (replaced_with.bind fun d => (t.db d).dict key).isSome then t.markDirty c
        else t) t =
      (if s.present emptied replaced_with (emptied, key) then l else []).foldl markDirty t := by
    intro key l
    induction l with
    | nil => intro t _; split <;> rfl
    | cons c l ih =>
      intro t same
      rw [List.foldl_cons, same]
      cases here : ((s.db emptied).dict key).isSome <;>
        cases there : (replaced_with.bind fun d => (s.db d).dict key).isSome <;>
        simp only [Bool.false_eq_true, if_true, if_false] <;>
        rw [ih _ (by simpa using same)] <;>
        simp [Server.present, here, there]
  have flat : ∀ (entries : List (Sigma fun _ : Bytes => List ι)) (t : Server ι κ ν), t.db = s.db →
      entries.foldl (fun t e => e.2.foldl (fun t c =>
        if ((t.db emptied).dict e.1).isSome then t.markDirty c
        else if (replaced_with.bind fun d => (t.db d).dict e.1).isSome then t.markDirty c
        else t) t) t =
      (entries.flatMap fun e => if s.present emptied replaced_with (emptied, e.1) then e.2
        else []).foldl markDirty t := by
    intro entries
    induction entries with
    | nil => exact fun _ _ => rfl
    | cons e entries ih =>
      intro t same
      rw [List.foldl_cons, List.flatMap_cons, List.foldl_append, inner e.1 e.2 t same]
      exact ih _ (by rw [foldl_markDirty_db, same])
  rw [Server.touchAllWatchedKeysInDb, flat _ s rfl]
  refine lists.marks fun c => ?_
  rw [List.mem_flatMap]
  constructor
  · rintro ⟨e, entry, member⟩
    split at member
    · rename_i present
      have found : s.watchers (emptied, e.1) = some e.2 := AList.mem_lookup_iff.mpr entry
      exact ⟨(emptied, e.1), e.2, present, found, member⟩
    · cases member
  · rintro ⟨⟨d, key⟩, own, present, found, member⟩
    have same : d = emptied := by
      simp only [Server.present, Bool.and_eq_true, decide_eq_true_eq] at present
      exact present.1
    subst same
    exact ⟨⟨key, own⟩, AList.mem_lookup_iff.mp found, by rwa [if_pos present]⟩

/-! Changes of one client. -/

/-- A client has changed, and with it the lists of those that watch a key, but no key. -/
structure Updated (c : ι) (cl : Client κ) (s t : Server ι κ ν) : Prop where
  rest : t = { s with db := t.db, clients := Function.update s.clients c (some cl) }
  keys : ∀ d, (t.db d).dict = (s.db d).dict ∧ (t.db d).expires = (s.db d).expires
  lists : Lists t

theorem Updated.here (updated : Updated c cl s t) : t.clients c = some cl := by
  rw [updated.rest]
  exact Function.update_self _ _ _

theorem Updated.trans (first : Updated c cl s t) (second : Updated c cl' t u) :
    Updated c cl' s u := by
  refine ⟨?_, fun d => ?_, second.lists⟩
  · rw [second.rest, first.rest, Function.update_idem]
  · obtain ⟨dict, expires⟩ := first.keys d
    obtain ⟨dict', expires'⟩ := second.keys d
    exact ⟨dict'.trans dict, expires'.trans expires⟩

theorem Lists.modified (lists : Lists s) (here : s.clients c = some cl) {f : Client κ → Client κ}
    (same : (f cl).watched_keys = cl.watched_keys) : Updated c (f cl) s (s.modify c f) :=
  ⟨by rw [modify_eq f here], fun _ => by rw [modify_eq f here]; exact ⟨rfl, rfl⟩,
    lists.modify here same⟩

/-- What taking a client out of the lists of some keys does. -/
structure Unlisted (c : ι) (wks : List (ℕ × Bytes)) (s t : Server ι κ ν) : Prop where
  rest : t = { s with db := t.db }
  keys : ∀ d, (t.db d).dict = (s.db d).dict ∧ (t.db d).expires = (s.db d).expires
  watchers : ∀ wk, t.watchers wk = if wk ∈ wks then
      (s.watchers wk).bind fun l => if (l.erase c).length = 0 then none else some (l.erase c)
    else s.watchers wk

theorem unwatchKey_unlisted {wk : ℕ × Bytes} (found : s.watchers wk = some l) (member : c ∈ l) :
    Unlisted c [wk] s (unwatchKey c s wk) := by
  have done : unwatchKey c s wk = s.setDb wk.1 { s.db wk.1 with
      watched_keys := if (l.erase c).length = 0 then (s.db wk.1).watched_keys.erase wk.2 else
        (s.db wk.1).watched_keys.insert wk.2 (l.erase c) } := by
    have found : (s.db wk.1).watched_keys.lookup wk.2 = some l := found
    simp only [unwatchKey, found, if_pos member]
  rw [done]
  refine ⟨rfl, fun d => ?_, fun other => ?_⟩
  · by_cases same : d = wk.1
    · simp [setDb, same]
    · simp [setDb, same]
  · by_cases same : other = wk
    · subst same
      rw [if_pos (List.mem_singleton.mpr rfl), found]
      simp only [Server.watchers, setDb, Function.update_self, Option.bind_some]
      split
      · rw [AList.lookup_erase]
      · rw [AList.lookup_insert]
    · rw [if_neg (mt List.mem_singleton.mp same)]
      by_cases db : other.1 = wk.1
      · have key : other.2 ≠ wk.2 := fun key => same (Prod.ext db key)
        simp only [Server.watchers, setDb, db, Function.update_self]
        split
        · rw [AList.lookup_erase_ne key]
        · rw [AList.lookup_insert_ne key]
      · simp only [Server.watchers, setDb, Function.update_of_ne db]

theorem unwatchKeys_unlisted {wks : List (ℕ × Bytes)} (nodup : wks.Nodup)
    (listed : ∀ wk ∈ wks, ∃ l, s.watchers wk = some l ∧ c ∈ l) :
    Unlisted c wks s (wks.foldl (unwatchKey c) s) := by
  induction wks generalizing s with
  | nil => exact ⟨rfl, fun _ => ⟨rfl, rfl⟩, fun wk => by rw [if_neg List.not_mem_nil]; rfl⟩
  | cons wk wks ih =>
    obtain ⟨new, nodup⟩ := List.nodup_cons.mp nodup
    obtain ⟨⟨l, found, member⟩, listed⟩ := List.forall_mem_cons.mp listed
    have first := unwatchKey_unlisted found member
    have rest := ih (s := unwatchKey c s wk) nodup (fun other inside => by
      rw [first.watchers, if_neg]
      · exact listed other inside
      · intro same
        exact new (List.mem_singleton.mp same ▸ inside))
    rw [List.foldl_cons]
    refine ⟨?_, fun d => ?_, fun other => ?_⟩
    · rw [rest.rest, first.rest]
    · exact ⟨(rest.keys d).1.trans (first.keys d).1, (rest.keys d).2.trans (first.keys d).2⟩
    · rw [rest.watchers, first.watchers]
      by_cases same : other = wk
      · subst same
        rw [if_neg new, if_pos (List.mem_singleton.mpr rfl), if_pos List.mem_cons_self]
      · rw [if_neg (mt List.mem_singleton.mp same)]
        simp only [List.mem_cons, same, false_or]

theorem Lists.unwatchAllKeys (lists : Lists s) (here : s.clients c = some cl) :
    Updated c { cl with watched_keys := [] } s (s.unwatchAllKeys c) := by
  have nodup := lists.nodup c cl here
  have unlisted := unwatchKeys_unlisted nodup (lists.listed c cl here)
  have same : (cl.watched_keys.foldl (unwatchKey c) s).clients = s.clients := by
    rw [unlisted.rest]
  have done : s.unwatchAllKeys c = { cl.watched_keys.foldl (unwatchKey c) s with
      clients := Function.update s.clients c (some { cl with watched_keys := [] }) } := by
    rw [Server.unwatchAllKeys, here]
    dsimp only
    rw [modify_eq _ (by rw [same]; exact here), same]
  rw [done]
  -- the lists that are left are those of the others
  have left : ∀ wk l, (cl.watched_keys.foldl (unwatchKey c) s).watchers wk = some l →
      ∃ l', s.watchers wk = some l' ∧ c ∉ l ∧ l ≠ [] ∧ l.Nodup ∧ ∀ d, d ∈ l ↔ d ≠ c ∧ d ∈ l' := by
    intro wk l found
    rw [unlisted.watchers] at found
    split at found
    · obtain ⟨l', found', erased⟩ := Option.bind_eq_some_iff.mp found
      split at erased
      · cases erased
      · rename_i some_
        cases erased
        have nodup := (lists.entry wk l' found').2
        exact ⟨l', found', nodup.not_mem_erase, fun none => some_ (by rw [none]; rfl), nodup.erase c,
          fun d => nodup.mem_erase_iff⟩
    · rename_i other
      have absent : c ∉ l := by
        intro member
        obtain ⟨cl', here', watched⟩ := lists.mem wk l found c member
        cases here'.symm.trans here
        exact other watched
      obtain ⟨some_, nodup⟩ := lists.entry wk l found
      exact ⟨l, found, absent, some_, nodup, fun d => ⟨fun member =>
        ⟨fun same => absent (same ▸ member), member⟩, And.right⟩⟩
  refine ⟨by rw [unlisted.rest], unlisted.keys, ⟨?_, ?_, ?_, ?_⟩⟩
  · intro d cl' found
    rcases eq_or_ne d c with rfl | other
    · simp only [Function.update_self] at found
      cases found
      exact List.nodup_nil
    · simp only [Function.update_of_ne other] at found
      exact lists.nodup d cl' found
  · intro wk l found
    obtain ⟨-, -, -, some_, nodup, -⟩ := left wk l found
    exact ⟨some_, nodup⟩
  · intro wk l found d member
    obtain ⟨l', found', -, -, -, others⟩ := left wk l found
    obtain ⟨other, inside⟩ := (others d).mp member
    simp only [Function.update_of_ne other]
    exact lists.mem wk l' found' d inside
  · intro d cl' found wk watched
    rcases eq_or_ne d c with rfl | other
    · simp only [Function.update_self] at found
      cases found
      cases watched
    · simp only [Function.update_of_ne other] at found
      obtain ⟨l', found', member⟩ := lists.listed d cl' found wk watched
      have kept : d ∈ l'.erase c := (List.mem_erase_of_ne other).mpr member
      have watchers := unlisted.watchers wk
      rw [found', Option.bind_some, if_neg (Nat.ne_of_gt (List.length_pos_of_mem kept))] at watchers
      split at watchers
      · exact ⟨_, watchers, kept⟩
      · exact ⟨_, watchers, member⟩

/-- A freed client is in no list any more. -/
theorem Updated.free (unwatched : Updated c { cl with watched_keys := [] } s t) :
    Lists { t with clients := Function.update t.clients c none } := by
  have clients : t.clients = Function.update s.clients c (some { cl with watched_keys := [] }) := by
    rw [unwatched.rest]
  have lists := unwatched.lists
  have others : ∀ d cl', Function.update t.clients c none d = some cl' →
      d ≠ c ∧ t.clients d = some cl' := by
    intro d cl' found
    rcases eq_or_ne d c with rfl | other
    · rw [Function.update_self] at found
      cases found
    · rw [Function.update_of_ne other] at found
      exact ⟨other, found⟩
  constructor
  · intro d cl' found
    exact lists.nodup d cl' (others d cl' found).2
  · exact lists.entry
  · intro wk l found d member
    obtain ⟨cl', here, watched⟩ := lists.mem wk l found d member
    refine ⟨cl', ?_, watched⟩
    rcases eq_or_ne d c with rfl | other
    · rw [clients, Function.update_self] at here
      cases here
      cases watched
    · exact (Function.update_of_ne other _ _).trans here
  · intro d cl' found
    exact lists.listed d cl' (others d cl' found).2

/-- A client has been added at the end of the list of a key it did not watch. -/
theorem Lists.added (lists : Lists s) (here : s.clients c = some cl) {wk : ℕ × Bytes}
    (new : wk ∉ cl.watched_keys) {cl' : Client κ}
    (keys : cl'.watched_keys = cl.watched_keys ++ [wk])
    (clients : t.clients = Function.update s.clients c (some cl'))
    (watchers : ∀ k, t.watchers k =
      if k = wk then some ((s.watchers wk).getD [] ++ [c]) else s.watchers k) : Lists t := by
  have own : t.clients c = some cl' := by rw [clients, Function.update_self]
  have others : ∀ d, d ≠ c → t.clients d = s.clients d := by
    intro d other
    rw [clients, Function.update_of_ne other]
  have absent : ∀ l, s.watchers wk = some l → c ∉ l := by
    intro l found member
    obtain ⟨old, here', watched⟩ := lists.mem wk l found c member
    cases here'.symm.trans here
    exact new watched
  have grown : ∀ k l, s.watchers k = some l → ∃ m, t.watchers k = some m ∧ ∀ d ∈ l, d ∈ m := by
    intro k l found
    rw [watchers]
    split
    · rename_i same
      subst same
      refine ⟨_, rfl, fun d member => List.mem_append_left _ ?_⟩
      rwa [found, Option.getD_some]
    · exact ⟨l, found, fun _ member => member⟩
  constructor
  · intro d last found
    rcases eq_or_ne d c with rfl | other
    · cases own.symm.trans found
      rw [keys]
      have kept := lists.nodup d cl here
      exact List.nodup_append'.mpr ⟨kept, List.nodup_singleton _, by simpa using new⟩
    · exact lists.nodup d last (others d other ▸ found)
  · intro k l found
    rw [watchers] at found
    split at found
    · cases found
      refine ⟨by simp, ?_⟩
      cases before : s.watchers wk with
      | none => exact List.nodup_singleton c
      | some old =>
        have kept := (lists.entry wk old before).2
        have apart := absent old before
        exact List.nodup_append'.mpr ⟨kept, List.nodup_singleton _, by simpa using apart⟩
    · exact lists.entry k l found
  · intro k l found d member
    rw [watchers] at found
    split at found
    · rename_i same
      subst same
      cases found
      rcases List.mem_append.mp member with old | last
      · cases before : s.watchers k with
        | none => simp [before] at old
        | some l =>
          rw [before, Option.getD_some] at old
          have other : d ≠ c := fun same => absent l before (same ▸ old)
          rw [others d other]
          exact lists.mem k l before d old
      · cases List.mem_singleton.mp last
        refine ⟨cl', own, ?_⟩
        rw [keys]
        exact List.mem_append_right _ (List.mem_singleton.mpr rfl)
    · obtain ⟨old, here', watched⟩ := lists.mem k l found d member
      rcases eq_or_ne d c with rfl | other
      · cases here'.symm.trans here
        refine ⟨cl', own, ?_⟩
        rw [keys]
        exact List.mem_append_left _ watched
      · exact ⟨old, (others d other).trans here', watched⟩
  · intro d last found k watched
    have listed : ∀ old, s.clients d = some old → k ∈ old.watched_keys →
        ∃ l, t.watchers k = some l ∧ d ∈ l := by
      intro old here' member
      obtain ⟨l, before, inside⟩ := lists.listed d old here' k member
      obtain ⟨m, after, more⟩ := grown k l before
      exact ⟨m, after, more d inside⟩
    rcases eq_or_ne d c with rfl | other
    · cases own.symm.trans found
      rw [keys] at watched
      rcases List.mem_append.mp watched with old | added
      · exact listed cl here old
      · cases List.mem_singleton.mp added
        rw [watchers, if_pos rfl]
        exact ⟨_, rfl, by simp⟩
    · exact listed last (others d other ▸ found) watched

theorem Lists.watchForKey (lists : Lists s) (here : s.clients c = some cl) (key : Bytes) :
    Updated c { cl with watched_keys := if (cl.db, key) ∈ cl.watched_keys then cl.watched_keys
      else cl.watched_keys ++ [(cl.db, key)] } s (s.watchForKey c key) := by
  by_cases already : (cl.db, key) ∈ cl.watched_keys
  · rw [Server.watchForKey, here]
    dsimp only
    rw [if_pos already, if_pos already]
    refine ⟨?_, fun _ => ⟨rfl, rfl⟩, lists⟩
    have same : Function.update s.clients c (some cl) = s.clients := by
      rw [← here, Function.update_eq_self]
    rw [same]
  · rw [if_neg already]
    have done : s.watchForKey c key = { s with
        db := Function.update s.db cl.db { s.db cl.db with
          watched_keys := (s.db cl.db).watched_keys.insert key
            ((s.watchers (cl.db, key)).getD [] ++ [c]) }
        clients := Function.update s.clients c
          (some { cl with watched_keys := cl.watched_keys ++ [(cl.db, key)] }) } := by
      rw [Server.watchForKey, here]
      dsimp only
      rw [if_neg already, modify_eq _ (show (setDb s _ _).clients c = some cl from here)]
      rfl
    rw [done]
    refine ⟨rfl, fun d => ?_, lists.added here already rfl rfl fun k => ?_⟩
    · rcases eq_or_ne d cl.db with rfl | other
      · simp
      · simp [other]
    · dsimp only [Server.watchers]
      by_cases db : k.1 = cl.db
      · by_cases same : k.2 = key
        · rw [if_pos (Prod.ext db same), db, Function.update_self, same, AList.lookup_insert]
        · rw [if_neg (fun equal => same (congrArg Prod.snd equal)), db, Function.update_self,
            AList.lookup_insert_ne same]
      · rw [if_neg (fun equal => db (congrArg Prod.fst equal)), Function.update_of_ne db]

theorem Lists.discardTransaction (lists : Lists s) (here : s.clients c = some cl) :
    Updated c { cl with
      commands := [], multi := false, dirty_cas := false, dirty_exec := false, watched_keys := [] }
      s (s.discardTransaction c) := by
  have cleared := lists.modified here (f := fun cl => { cl with
    commands := [], multi := false, dirty_cas := false, dirty_exec := false }) rfl
  exact cleared.trans (cleared.lists.unwatchAllKeys cleared.here)

end

end Copier.Redis.Multi
