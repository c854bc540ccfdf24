import Copier.Redis.Psync

/-! Replication ids. An id stands for one stream of commands that only grows, and an
offset for a place in it: whatever the order of writes, resynchronizations, lost
connections, promotions and demotions, a server's id and offset say exactly what
its dataset was built from. -/
namespace Copier.Redis.Psync

/-- The stream an id stands for, and the offset before its first byte. -/
structure History where
  base : Int
  log : Bytes

variable {ι Id : Type} {T T' : Id → History}

/-- The id still stands for what it stood for, and perhaps for more. -/
def Grows (T T' : Id → History) (id : Id) : Prop :=
  (T' id).base = (T id).base ∧ (T id).log <+: (T' id).log

theorem Grows.refl (T : Id → History) (id : Id) : Grows T T id := ⟨rfl, List.prefix_rfl⟩

theorem Grows.of_eq {id : Id} (same : T' id = T id) : Grows T T' id :=
  ⟨congrArg History.base same, same ▸ List.prefix_rfl⟩

/-- The id of a dataset on its way. -/
def Upstream.incoming : Upstream ι Id → Option Id
  | transfer _ _ replid _ => some replid
  | _ => none

def Reply.replid : Reply Id → Option Id
  | fullResync replid _ | resume replid => some replid
  | _ => none

/-- What the replica will hold when it has read the answers, with its id and offset. -/
def upcoming (r : Node ι Id) (replies : List (Reply Id)) : Option (Id × Int × Bytes) :=
  match r.upstream, replies with
  | .connected _ _ _, [] => some (r.replid, r.backlog.master_repl_offset, r.dataset)
  | .receivePsyncReply _ _ (some _), [.resume replid] =>
      some (replid, r.backlog.master_repl_offset, r.dataset)
  | .receivePsyncReply _ _ _, [.fullResync replid offset, .rdb dataset] =>
      some (replid, offset, dataset)
  | .transfer _ _ replid offset, [.rdb dataset] => some (replid, offset, dataset)
  | _, _ => none

/-- The id and offset of a dataset still to be sent. -/
def announced (u : Upstream ι Id) (replies : List (Reply Id)) : Option (Id × Int) :=
  match u, replies with
  | .receivePsyncReply _ _ _, [.fullResync replid offset] => some (replid, offset)
  | .transfer _ _ replid offset, [] => some (replid, offset)
  | _, _ => none

namespace Node

/-- Between the answer that announces a full resynchronization and the end of it. -/
def Adrift (n : Node ι Id) : Prop :=
  n.backlog.repl_backlog = none ∧ n.upstream.masterhost ≠ none ∧ n.upstream.master = none

/-- Without a backlog the offset is not counted, so nobody else may know the id. -/
def Lonely (n : Node ι Id) : Prop := n.backlog.repl_backlog = none ∧ ¬ n.Adrift

def Mentions (n : Node ι Id) (id : Id) : Prop :=
  n.replid = id ∨ n.replid2 = some id ∨ n.upstream.incoming = some id

/-- What holds of one server. Up to `second_replid_offset` its dataset is also what the
second id stands for. -/
structure Sound (T : Id → History) (n : Node ι Id) : Prop where
  size : 0 < n.backlog.repl_backlog_size
  dataset : ¬ n.Adrift → n.dataset <+: (T n.replid).log
  offset : ¬ n.Adrift → n.backlog.master_repl_offset = (T n.replid).base + n.dataset.length
  owned : n.upstream = .standalone → (T n.replid).log = n.dataset
  shared : n.backlog.repl_backlog.isSome → ∀ id, n.replid2 = some id → ∃ k, k ≤ n.dataset.length ∧
    n.second_replid_offset = (T id).base + k + 1 ∧ (T id).base = (T n.replid).base ∧
      n.dataset.take k <+: (T id).log
  master : ∀ m, n.upstream.master = some m →
    m.replid = n.replid ∧ m.reploff = n.backlog.master_repl_offset
  keeps : n.backlog.repl_backlog.isSome → ∃ s, n.backlog.Keeps s ∧ s <:+ n.dataset
  attached : n.slaves ≠ [] → n.backlog.repl_backlog.isSome
  transferring : ∀ host c id off, n.upstream = .transfer host c id off → n.backlog.repl_backlog = none
  connected : ∀ host c m, n.upstream = .connected host c m → n.backlog.repl_backlog.isSome
  starts : ∀ s ∈ n.slaves, s.replstate = .waitBgsaveStart → s.output = []
  ends : ∀ s ∈ n.slaves, s.replstate = .waitBgsaveEnd → ∃ child, n.child = some child ∧
    child.dataset ++ s.output = n.dataset ∧
      s.psync_initial_offset + s.output.length = n.backlog.master_repl_offset

theorem Sound.grows {n : Node ι Id} (sound : n.Sound T)
    (grows : ∀ id, n.Mentions id → Grows T T' id)
    (owned : n.upstream = .standalone → (T' n.replid).log = (T n.replid).log) : n.Sound T' := by
  obtain ⟨base, log⟩ := grows n.replid (.inl rfl)
  refine { sound with
    dataset := fun coherent => (sound.dataset coherent).trans log
    offset := fun coherent => by rw [base]; exact sound.offset coherent
    owned := fun alone => (owned alone).trans (sound.owned alone)
    shared := fun some id second => ?_ }
  obtain ⟨k, within, offset, same, isPrefix⟩ := sound.shared some id second
  obtain ⟨base', log'⟩ := grows _ (.inr (.inl second))
  exact ⟨k, within, by rw [base']; exact offset, by rw [base', base]; exact same,
    isPrefix.trans log'⟩

end Node

/-- A connection from replica `r` to server `n`, by what was sent on it so far. What the
replica will hold, what is under way and what is not yet written make up the
dataset of the server, as long as it counts the replica among its own. -/
inductive Link (T : Id → History) (r n : Node ι Id) (c : ℕ) (k : Conn ι Id) : Prop
  | asked : r.upstream = .receivePsyncReply host c cached →
      k.request = some (cached.map fun m => (m.replid, m.reploff + 1)) →
      k.replies = [] → k.stream = [] → k.acks = [] → Link T r n c k
  | refused : r.upstream = .receivePsyncReply host c cached → k.request = none →
      k.replies = [.tryLater] → (∀ s ∈ n.slaves, s.conn ≠ c) → Link T r n c k
  | waiting : r.upstream = .receivePsyncReply host c cached → k.request = none →
      k.replies = [] → k.stream = [] → k.acks = [] → k.master ≠ k.replica →
      (∀ s ∈ n.slaves, s.conn = c → s.replstate = .waitBgsaveStart ∧ s.repl_ack_off = 0) →
      Link T r n c k
  | announced {id : Id} {off : Int} : announced r.upstream k.replies = some (id, off) → k.request = none →
      k.stream = [] → k.acks = [] → k.master ≠ k.replica →
      (∀ s ∈ n.slaves, s.conn = c → s.replstate = .waitBgsaveEnd ∧ n.replid = id ∧
        s.psync_initial_offset = off ∧ s.repl_ack_off = 0) → Link T r n c k
  | flowing {id : Id} {off : Int} {d : Bytes} : upcoming r k.replies = some (id, off, d) → k.request = none →
      k.master ≠ k.replica → d ++ k.stream <+: (T id).log → off = (T id).base + d.length →
      (k.replies ≠ [] → k.acks = []) → (∀ a ∈ k.acks, a ≤ off) →
      (Reply.resume id ∈ k.replies → r.backlog.repl_backlog.isSome) →
      (∀ s ∈ n.slaves, s.conn = c → s.replstate = .online ∧ n.replid = id ∧
        n.dataset = d ++ k.stream ++ s.output ∧ s.repl_ack_off ≤ max 0 off ∧
          (k.replies ≠ [] → s.repl_ack_off = 0)) → Link T r n c k

/-- For the connection `c` the server only fed what it already fed. -/
def Serves (c : ℕ) (n n' : Node ι Id) : Prop :=
  ∀ s' ∈ n'.slaves, s'.conn = c → ∃ s ∈ n.slaves, s.conn = c ∧ s'.replstate = s.replstate ∧
    s'.psync_initial_offset = s.psync_initial_offset ∧ s'.repl_ack_off = s.repl_ack_off ∧
      n'.replid = n.replid ∧ ∃ buf, n'.dataset = n.dataset ++ buf ∧
        (s.replstate = .online → s'.output = s.output ++ buf)

theorem Serves.same {n n' : Node ι Id} (slaves : n'.slaves = n.slaves) (replid : n'.replid = n.replid)
    (dataset : n'.dataset = n.dataset) : Serves c n n' := by
  intro s member own
  exact ⟨s, slaves ▸ member, own, rfl, rfl, rfl, replid, [], by simp [dataset], by simp⟩

theorem Serves.none {n n' : Node ι Id} (slaves : n'.slaves = []) : Serves c n n' := by
  intro s member
  rw [slaves] at member
  cases member

theorem upcoming_mentions {r : Node ι Id} {replies : List (Reply Id)} {id : Id}
    (next : upcoming r replies = some (id, off, d)) :
    r.Mentions id ∨ ∃ reply ∈ replies, reply.replid = some id := by
  unfold upcoming at next
  split at next
  · simp only [Option.some.injEq, Prod.mk.injEq] at next
    exact .inl (.inl next.1)
  · simp only [Option.some.injEq, Prod.mk.injEq] at next
    exact .inr ⟨_, List.mem_cons_self, by simp [Reply.replid, next.1]⟩
  · simp only [Option.some.injEq, Prod.mk.injEq] at next
    exact .inr ⟨_, List.mem_cons_self, by simp [Reply.replid, next.1]⟩
  · rename_i here
    simp only [Option.some.injEq, Prod.mk.injEq] at next
    exact .inl (.inr (.inr (by simp [here, Upstream.incoming, next.1])))
  · contradiction

theorem Link.kept {r n n' : Node ι Id} {k : Conn ι Id} (link : Link T r n c k)
    (grows : ∀ id, r.Mentions id ∨ (∃ reply ∈ k.replies, reply.replid = some id) → Grows T T' id)
    (serves : Serves c n n') : Link T' r n' c k := by
  cases link with
  | asked here request replies stream acks => exact .asked here request replies stream acks
  | refused here request replies apart =>
    refine .refused here request replies fun s' member own => ?_
    obtain ⟨s, there, same, -⟩ := serves s' member own
    exact apart s there same
  | waiting here request replies stream acks other slaves =>
    refine .waiting here request replies stream acks other fun s' member own => ?_
    obtain ⟨s, there, same, state, -, ack, -⟩ := serves s' member own
    rw [state, ack]
    exact slaves s there same
  | announced here request stream acks other slaves =>
    refine .announced here request stream acks other fun s' member own => ?_
    obtain ⟨s, there, same, state, initial, ack, replid, -⟩ := serves s' member own
    rw [state, initial, ack, replid]
    exact slaves s there same
  | flowing next request other isPrefix offset quiet acks held slaves =>
    obtain ⟨base, log⟩ := grows _ (upcoming_mentions next)
    refine .flowing next request other (isPrefix.trans log) (by rw [base]; exact offset) quiet acks
      held fun s' member own => ?_
    obtain ⟨s, there, same, state, -, ack, replid, buf, dataset, output⟩ := serves s' member own
    obtain ⟨online, id, whole, acked, fresh⟩ := slaves s there same
    rw [state, ack, replid, dataset, output online, whole]
    exact ⟨online, id, by simp only [List.append_assoc], acked, fresh⟩

/-- What its link to the master depends on. -/
structure Alike (r r' : Node ι Id) : Prop where
  upstream : r'.upstream = r.upstream
  replid : r'.replid = r.replid
  dataset : r'.dataset = r.dataset
  offset : r'.backlog.master_repl_offset = r.backlog.master_repl_offset
  backlog : r.backlog.repl_backlog.isSome → r'.backlog.repl_backlog.isSome

theorem Link.alike {r r' n : Node ι Id} {k : Conn ι Id} (link : Link T r n c k)
    (alike : Alike r r') : Link T r' n c k := by
  obtain ⟨upstream, replid, dataset, offset, backlog⟩ := alike
  have next : upcoming r' k.replies = upcoming r k.replies := by
    simp only [upcoming, upstream, replid, dataset, offset]
  cases link with
  | asked here request replies stream acks =>
    exact .asked (upstream.trans here) request replies stream acks
  | refused here request replies apart =>
    exact .refused (upstream.trans here) request replies apart
  | waiting here request replies stream acks other slaves =>
    exact .waiting (upstream.trans here) request replies stream acks other slaves
  | announced here request stream acks other slaves =>
    exact .announced (by rw [upstream]; exact here) request stream acks other slaves
  | flowing here request other isPrefix off quiet acks held slaves =>
    exact .flowing (next.trans here) request other isPrefix off quiet acks
      (fun resume => backlog (held resume)) slaves

section World

/-- The ids a server keeps, or is told in an answer it has not read yet. -/
def World.Mentions (w : World ι Id) (j : ι) (id : Id) : Prop :=
  (w.nodes j).Mentions id ∨
    ∃ c k, w.link j = some (c, k) ∧ ∃ reply ∈ k.replies, reply.replid = some id

/-- No server knows this id. -/
def World.Fresh (w : World ι Id) (id : Id) : Prop := ∀ j, ¬ w.Mentions j id

structure Inv (T : Id → History) (w : World ι Id) : Prop where
  node : ∀ i, (w.nodes i).Sound T
  owners : ∀ i j, (w.nodes i).upstream = .standalone → (w.nodes j).upstream = .standalone →
    (w.nodes i).replid = (w.nodes j).replid → i = j
  hidden : ∀ i, (w.nodes i).Lonely → ∀ j, j ≠ i → ¬ w.Mentions j (w.nodes i).replid
  link : ∀ r c, (w.nodes r).upstream.conn = some c → ∃ k, w.conns c = some k ∧ k.replica = r ∧
    Link T (w.nodes r) (w.nodes k.master) c k
  slaves : ∀ i, ∀ s ∈ (w.nodes i).slaves, ∃ k, w.conns s.conn = some k ∧ k.master = i ∧
    k.request = none
  distinct : ∀ i, ((w.nodes i).slaves.map Slave.conn).Nodup

theorem link_eq_some {w : World ι Id} :
    w.link r = some (c, k) ↔ (w.nodes r).upstream.conn = some c ∧ w.conns c = some k := by
  simp only [World.link, Option.bind_eq_some_iff, Option.map_eq_some_iff, Prod.mk.injEq]
  constructor
  · rintro ⟨_, here, _, there, rfl, rfl⟩
    exact ⟨here, there⟩
  · rintro ⟨here, there⟩
    exact ⟨c, here, k, there, rfl, rfl⟩

@[simp] theorem set_nodes (w : World ι Id) (c : ℕ) (k : Conn ι Id) : (w.set c k).nodes = w.nodes := rfl

@[simp] theorem set_self (w : World ι Id) (c : ℕ) (k : Conn ι Id) : (w.set c k).conns c = some k :=
  Function.update_self _ _ _

theorem set_other {w : World ι Id} {k : Conn ι Id} (other : d ≠ c) :
    (w.set c k).conns d = w.conns d := Function.update_of_ne other _ _

theorem Mentions_of_link {w : World ι Id} {k : Conn ι Id} {id : Id}
    (here : (w.nodes r).upstream.conn = some c) (there : w.conns c = some k)
    (mentioned : (w.nodes r).Mentions id ∨ ∃ reply ∈ k.replies, reply.replid = some id) :
    w.Mentions r id :=
  mentioned.imp_right fun heard => ⟨c, k, link_eq_some.mpr ⟨here, there⟩, heard⟩

variable [DecidableEq ι]

@[simp] theorem put_self (w : World ι Id) (i : ι) (x : Node ι Id) : (w.put i x).nodes i = x :=
  Function.update_self _ _ _

theorem put_other {w : World ι Id} {x : Node ι Id} (other : j ≠ i) :
    (w.put i x).nodes j = w.nodes j := Function.update_of_ne other _ _

@[simp] theorem put_conns (w : World ι Id) (i : ι) (x : Node ι Id) : (w.put i x).conns = w.conns := rfl

/-- A step of server `i`: what has to be seen of it and of the connections it uses. -/
theorem Inv.step {w w' : World ι Id} (inv : Inv T w) (i : ι)
    (others : ∀ j, j ≠ i → w'.nodes j = w.nodes j)
    (conns : ∀ c k, w.conns c = some k → ∃ k', w'.conns c = some k' ∧ k'.master = k.master ∧
      (k.request = none → k'.request = none))
    (sound : (w'.nodes i).Sound T')
    (grows : ∀ j, j ≠ i → ∀ id, w.Mentions j id → Grows T T' id)
    (owned : ∀ j, j ≠ i → (w.nodes j).upstream = .standalone →
      (T' (w.nodes j).replid).log = (T (w.nodes j).replid).log)
    (owners : (w'.nodes i).upstream = .standalone → ∀ j, j ≠ i →
      (w.nodes j).upstream = .standalone → (w.nodes j).replid ≠ (w'.nodes i).replid)
    (hidden : (w'.nodes i).Lonely → ∀ j, j ≠ i → ¬ w'.Mentions j (w'.nodes i).replid)
    (mentions : ∀ j id, w'.Mentions j id → w.Mentions j id ∨
      ∀ l, l ≠ i → (w.nodes l).Lonely → (w.nodes l).replid ≠ id)
    (link : ∀ r c, (w'.nodes r).upstream.conn = some c → ∃ k, w'.conns c = some k ∧
      k.replica = r ∧ Link T' (w'.nodes r) (w'.nodes k.master) c k)
    (slaves : ∀ s ∈ (w'.nodes i).slaves, ∃ k, w'.conns s.conn = some k ∧ k.master = i ∧
      k.request = none)
    (distinct : ((w'.nodes i).slaves.map Slave.conn).Nodup) : Inv T' w' where
  node j := by
    by_cases own : j = i
    · exact own ▸ sound
    · rw [others j own]
      exact (inv.node j).grows (fun id there => grows j own id (.inl there)) (owned j own)
  owners j l alone alone' same := by
    by_cases own : j = i <;> by_cases own' : l = i
    · rw [own, own']
    · subst own
      rw [others l own'] at alone' same
      exact absurd same.symm (owners alone l own' alone')
    · subst own'
      rw [others j own] at alone same
      exact absurd same (owners alone' j own alone)
    · rw [others j own] at alone same
      rw [others l own'] at alone' same
      exact inv.owners j l alone alone' same
  hidden j lonely l other mentioned := by
    by_cases own : j = i
    · subst own
      exact hidden lonely l other mentioned
    · rw [others j own] at lonely mentioned
      rcases mentions l _ mentioned with before | new
      · exact inv.hidden j lonely l other before
      · exact new j own lonely rfl
  link := link
  slaves j := by
    by_cases own : j = i
    · exact own ▸ slaves
    · rw [others j own]
      intro s member
      obtain ⟨k, here, master, request⟩ := inv.slaves j s member
      obtain ⟨k', there, master', request'⟩ := conns _ k here
      exact ⟨k', there, master'.trans master, request' request⟩
  distinct j := by
    by_cases own : j = i
    · exact own ▸ distinct
    · rw [others j own]
      exact inv.distinct j

/-- A step that changes one server and no connection; the server may give up its own. -/
theorem Inv.put {w : World ι Id} (inv : Inv T w) (i : ι) {x : Node ι Id} (sound : x.Sound T')
    (grows : ∀ j, j ≠ i → ∀ id, w.Mentions j id → Grows T T' id)
    (owned : ∀ j, j ≠ i → (w.nodes j).upstream = .standalone →
      (T' (w.nodes j).replid).log = (T (w.nodes j).replid).log)
    (owners : x.upstream = .standalone → ∀ j, j ≠ i → (w.nodes j).upstream = .standalone →
      (w.nodes j).replid ≠ x.replid)
    (hidden : x.Lonely → ∀ j, j ≠ i → ¬ w.Mentions j x.replid)
    (mentions : ∀ id, x.Mentions id → w.Mentions i id ∨ w.Fresh id)
    (own : x.upstream.conn = none ∨ Alike (w.nodes i) x ∧ T' = T)
    (serves : ∀ c, Serves c (w.nodes i) x)
    (slaves : ∀ s ∈ x.slaves, ∃ s' ∈ (w.nodes i).slaves, s'.conn = s.conn)
    (distinct : (x.slaves.map Slave.conn).Nodup) : Inv T' (w.put i x) := by
  have conn : ∀ c, x.upstream.conn = some c → (w.nodes i).upstream.conn = some c := by
    intro c here
    rcases own with closed | ⟨alike, -⟩
    · rw [closed] at here
      cases here
    · rwa [alike.upstream] at here
  have mentioned : ∀ j id, (w.put i x).Mentions j id → w.Mentions j id ∨ w.Fresh id := by
    intro j id there
    by_cases same : j = i
    · subst same
      rcases there with kept | ⟨c, k, link, heard⟩
      · exact mentions id (by simpa using kept)
      · obtain ⟨here, there⟩ := link_eq_some.mp link
        rw [put_self] at here
        exact .inl (.inr ⟨c, k, link_eq_some.mpr ⟨conn c here, there⟩, heard⟩)
    · rcases there with kept | ⟨c, k, link, heard⟩
      · rw [put_other same] at kept
        exact .inl (.inl kept)
      · obtain ⟨here, there⟩ := link_eq_some.mp link
        rw [put_other same] at here
        exact .inl (.inr ⟨c, k, link_eq_some.mpr ⟨here, there⟩, heard⟩)
  refine inv.step i (fun j => put_other) (fun c k here => ⟨k, here, rfl, fun request => request⟩)
    (by simpa using sound) grows owned (by simpa using owners) ?_ ?_ ?_ ?_ (by simpa using distinct)
  · rw [put_self]
    intro lonely j other there
    refine hidden lonely j other ?_
    rcases there with kept | ⟨c, k, link, heard⟩
    · rw [put_other other] at kept
      exact .inl kept
    · obtain ⟨here, there⟩ := link_eq_some.mp link
      rw [put_other other] at here
      exact .inr ⟨c, k, link_eq_some.mpr ⟨here, there⟩, heard⟩
  · intro j id there
    refine (mentioned j id there).imp_right fun fresh l _ _ same => ?_
    exact fresh l (.inl (.inl same))
  · intro r c here
    have served : ∀ n, Serves c (w.nodes n) ((w.put i x).nodes n) := by
      intro n
      by_cases same : n = i
      · subst same
        rw [put_self]
        exact serves c
      · exact .same (by rw [put_other same]) (by rw [put_other same]) (by rw [put_other same])
    by_cases same : r = i
    · subst same
      rw [put_self] at here ⊢
      rcases own with closed | ⟨alike, rfl⟩
      · rw [closed] at here
        cases here
      obtain ⟨k, there, replica, link⟩ := inv.link r c (alike.upstream ▸ here)
      exact ⟨k, there, replica, (link.alike alike).kept (fun _ _ => .refl _ _) (served _)⟩
    · rw [put_other same] at here ⊢
      obtain ⟨k, there, replica, link⟩ := inv.link r c here
      exact ⟨k, there, replica, link.kept
        (fun id known => grows r same id (Mentions_of_link here there known)) (served _)⟩
  · rw [put_self]
    intro s member
    obtain ⟨s', member', same⟩ := slaves s member
    rw [← same]
    exact inv.slaves i s' member'

end World
end Copier.Redis.Psync
