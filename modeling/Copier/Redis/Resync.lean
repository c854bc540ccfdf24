import Copier.Redis.Histories
import Mathlib.Data.List.Nodup

/-! Every step of a network of servers keeps what ids and offsets stand for. -/
namespace Copier.Redis.Psync
variable {ι Id : Type} {T T' : Id → History}

namespace Node

@[simp] theorem feed_conn (buf : Bytes) (s : Slave) : (feed buf s).conn = s.conn := by
  unfold feed
  split <;> rfl

@[simp] theorem feed_replstate (buf : Bytes) (s : Slave) : (feed buf s).replstate = s.replstate := by
  unfold feed
  split <;> rfl

theorem feed_output {s : Slave} (fed : s.replstate ≠ .waitBgsaveStart) (buf : Bytes) :
    (feed buf s).output = s.output ++ buf := by
  rw [feed, if_neg fed]

theorem map_feed_conn (buf : Bytes) (slaves : List Slave) :
    (slaves.map (feed buf)).map Slave.conn = slaves.map Slave.conn := by
  rw [List.map_map]
  exact List.map_congr_left fun s _ => feed_conn buf s

theorem call_serves (n : Node ι Id) (buf : Bytes) (u : Upstream ι Id) (c : ℕ) :
    Serves c n { n.call buf with upstream := u } := by
  intro s' member own
  obtain ⟨s, there, rfl⟩ := List.mem_map.mp member
  refine ⟨s, there, by simpa using own, by simp, ?_, ?_, rfl, buf, rfl, fun online => ?_⟩
  · unfold feed
    split <;> rfl
  · unfold feed
    split <;> rfl
  · exact feed_output (by simp [online]) buf

theorem feed_offset {b : Backlog} (had : b.repl_backlog.isSome) (buf : Bytes) :
    (b.feedReplicationBacklog buf).master_repl_offset = b.master_repl_offset + buf.length ∧
      (b.feedReplicationBacklog buf).repl_backlog_size = b.repl_backlog_size ∧
      (b.feedReplicationBacklog buf).repl_backlog.isSome := by
  obtain ⟨cells, here⟩ := Option.isSome_iff_exists.mp had
  simp [Backlog.feedReplicationBacklog, here]

/-- New commands, of a client or of the master, on a server with a backlog. -/
theorem Sound.call {n : Node ι Id} {u : Upstream ι Id} (sound : n.Sound T)
    (had : n.backlog.repl_backlog.isSome) (coherent : ¬ n.Adrift)
    (grows : ∀ id, n.Mentions id → Grows T T' id)
    (log : n.dataset ++ buf <+: (T' n.replid).log)
    (owned : u = .standalone → (T' n.replid).log = n.dataset ++ buf)
    (master : ∀ m, u.master = some m →
      m.replid = n.replid ∧ m.reploff = n.backlog.master_repl_offset + buf.length)
    (settled : ∀ host c id off, u ≠ .transfer host c id off) :
    ({ n.call buf with upstream := u } : Node ι Id).Sound T' := by
  obtain ⟨offset, size, has⟩ := feed_offset had buf
  obtain ⟨base, -⟩ := grows n.replid (.inl rfl)
  refine {
    size := ?_
    dataset := fun _ => log
    offset := fun _ => ?_
    owned := owned
    shared := fun _ id second => ?_
    master := fun m here => ?_
    keeps := fun _ => ?_
    attached := fun _ => has
    transferring := fun _ _ _ _ here => absurd here (settled _ _ _ _)
    connected := fun _ _ _ _ => has
    starts := ?_
    ends := ?_ }
  · change 0 < (n.backlog.feedReplicationBacklog buf).repl_backlog_size
    rw [size]
    exact sound.size
  · change (n.backlog.feedReplicationBacklog buf).master_repl_offset =
      (T' n.replid).base + ((n.dataset ++ buf).length : ℕ)
    rw [offset, base, sound.offset coherent, List.length_append]
    omega
  · obtain ⟨k, within, second_offset, same, isPrefix⟩ := sound.shared had id second
    obtain ⟨base', log'⟩ := grows id (.inr (.inl second))
    refine ⟨k, ?_, ?_, ?_, ?_⟩
    · exact Nat.le_trans within (by simp [Node.call])
    · rw [base']
      exact second_offset
    · rw [base', same]
      exact base.symm
    · have front : (n.dataset ++ buf).take k = n.dataset.take k := List.take_append_of_le_length within
      exact front ▸ isPrefix.trans log'
  · obtain ⟨replid, reploff⟩ := master m here
    exact ⟨replid, reploff.trans offset.symm⟩
  · obtain ⟨s, keeps, front, whole⟩ := sound.keeps had
    refine ⟨s ++ buf, Backlog.feed_keeps keeps buf, front, ?_⟩
    rw [← List.append_assoc, whole]
    rfl
  · intro s' member state
    obtain ⟨s, there, rfl⟩ := List.mem_map.mp member
    rw [feed_replstate] at state
    rw [feed, if_pos state]
    exact sound.starts s there state
  · intro s' member state
    obtain ⟨s, there, rfl⟩ := List.mem_map.mp member
    rw [feed_replstate] at state
    obtain ⟨child, here, whole, initial⟩ := sound.ends s there state
    have output := feed_output (s := s) (by simp [state]) buf
    have psync : (feed buf s).psync_initial_offset = s.psync_initial_offset := by
      unfold feed
      split <;> rfl
    refine ⟨child, here, ?_, ?_⟩
    · rw [output, ← List.append_assoc, whole]
      rfl
    · change _ = (n.backlog.feedReplicationBacklog buf).master_repl_offset
      rw [output, psync, offset, ← initial, List.length_append]
      omega

theorem not_adrift {n : Node ι Id} (alone : n.upstream = .standalone) : ¬ n.Adrift := by
  rintro ⟨-, host, -⟩
  rw [alone] at host
  exact host rfl

theorem Sound.no_slaves {n : Node ι Id} (sound : n.Sound T) (none : n.backlog.repl_backlog = none) :
    n.slaves = [] := by
  by_contra some
  simpa [none] using sound.attached some

theorem call_unfed {n : Node ι Id} (sound : n.Sound T) (none : n.backlog.repl_backlog = none)
    (buf : Bytes) : n.call buf = { n with dataset := n.dataset ++ buf } := by
  simp [call, Backlog.feedReplicationBacklog, none, sound.no_slaves none]

theorem Sound.fewer {n : Node ι Id} {fewer : List Slave} (sound : n.Sound T)
    (among : ∀ s ∈ fewer, s ∈ n.slaves) : ({ n with slaves := fewer } : Node ι Id).Sound T :=
  { sound with
    attached := fun some => sound.attached fun none => some
      (List.eq_nil_iff_forall_not_mem.mpr fun s member => by simpa [none] using among s member)
    starts := fun s member => sound.starts s (among s member)
    ends := fun s member => sound.ends s (among s member) }

/-- Looking for a master, with one cached or without. -/
theorem Sound.seeking {n : Node ι Id} {u : Upstream ι Id} (sound : n.Sound T)
    (kind : (∃ host cached, u = .connect host cached) ∨
      ∃ host c cached, u = .receivePsyncReply host c cached)
    (coherent : ¬ ({ n with upstream := u } : Node ι Id).Adrift → ¬ n.Adrift)
    (master : ∀ m, u.master = some m →
      m.replid = n.replid ∧ m.reploff = n.backlog.master_repl_offset) :
    ({ n with upstream := u } : Node ι Id).Sound T :=
  { sound with
    dataset := fun calm => sound.dataset (coherent calm)
    offset := fun calm => sound.offset (coherent calm)
    owned := fun alone => by rcases kind with ⟨_, _, rfl⟩ | ⟨_, _, _, rfl⟩ <;> simp at alone
    master := master
    transferring := fun _ _ _ _ here => by
      rcases kind with ⟨_, _, rfl⟩ | ⟨_, _, _, rfl⟩ <;> simp at here
    connected := fun _ _ _ here => by
      rcases kind with ⟨_, _, rfl⟩ | ⟨_, _, _, rfl⟩ <;> simp at here }

theorem cache_master {u : Upstream ι Id} {m : Master Id} (cached : Upstream.cache u keep = some m) :
    u.master = some m := by
  unfold Upstream.cache at cached
  split at cached
  · split at cached
    · exact cached
    · cases cached
  · exact cached

/-- A master that is cached was there before, so what was coherent is. -/
theorem adrift_of_cache {n : Node ι Id} {host : ι} (adrift : n.Adrift) (keep : Bool) :
    ({ n with upstream := .connect host (Upstream.cache n.upstream keep) } : Node ι Id).Adrift := by
  obtain ⟨none, some, master⟩ := adrift
  refine ⟨none, by simp [Upstream.masterhost], ?_⟩
  change Upstream.cache n.upstream keep = Option.none
  cases cached : Upstream.cache n.upstream keep with
  | none => rfl
  | some m => cases master.symm.trans (cache_master cached)

/-- A replica that may resume: a new id of its master becomes its own, the old one is
kept up to its offset and its own replicas have to ask again. -/
structure Resumed (n x : Node ι Id) (new : Id) : Prop where
  backlog : x.backlog = n.backlog
  dataset : x.dataset = n.dataset
  child : x.child = n.child
  replid : x.replid = new
  slaves : x.slaves = [] ∨ x.slaves = n.slaves ∧ new = n.replid
  second : ∀ id, x.replid2 = some id →
    n.replid2 = some id ∧ new = n.replid ∧ x.second_replid_offset = n.second_replid_offset ∨
      id = n.replid ∧ x.second_replid_offset = n.backlog.master_repl_offset + 1

theorem readReply_resume [DecidableEq Id] {n x : Node ι Id} {replid : Id}
    (here : n.upstream = .receivePsyncReply host c (some m)) (named : m.replid = n.replid)
    (had : n.backlog.repl_backlog.isSome) (read : n.readReply (.resume replid) = some x) :
    n.Resumed x replid ∧ x.upstream = .connected host c ⟨replid, m.reploff⟩ := by
  have kept : ensureBacklog n.backlog = n.backlog := if_neg (Option.isSome_iff_ne_none.mp had)
  simp only [readReply, here, Option.some.injEq] at read
  split_ifs at read with same
  · cases read
    refine ⟨⟨kept, rfl, rfl, (same.trans named).symm, .inr ⟨rfl, same.trans named⟩, ?_⟩, rfl⟩
    exact fun id second => .inl ⟨second, same.trans named, rfl⟩
  · cases read
    refine ⟨⟨kept, rfl, rfl, rfl, .inl rfl, fun id second => .inr ⟨?_, rfl⟩⟩, rfl⟩
    exact (Option.some.inj second).symm.trans named

theorem Resumed.sound {n x : Node ι Id} {replid : Id} (resumed : n.Resumed x replid)
    (sound : n.Sound T) (had : n.backlog.repl_backlog.isSome)
    (up : x.upstream = .connected host c ⟨replid, n.backlog.master_repl_offset⟩)
    (log : n.dataset <+: (T replid).log)
    (offset : n.backlog.master_repl_offset = (T replid).base + n.dataset.length) : x.Sound T := by
  obtain ⟨backlog, dataset, child, rfl, slaves, second⟩ := resumed
  have coherent : ¬ n.Adrift := fun adrift => by simp [adrift.1] at had
  have among : ∀ s ∈ x.slaves, s ∈ n.slaves := by
    rcases slaves with none | ⟨same, -⟩
    · simp [none]
    · rw [same]
      exact fun _ member => member
  exact {
    size := backlog ▸ sound.size
    dataset := fun _ => dataset ▸ log
    offset := fun _ => by rw [backlog, dataset]; exact offset
    owned := fun alone => by simp [up] at alone
    shared := fun _ id named => by
      have old := sound.offset coherent
      rw [dataset]
      rcases second id named with ⟨before, same, at_⟩ | ⟨same, at_⟩
      · obtain ⟨k, within, second, base, isPrefix⟩ := sound.shared had id before
        exact ⟨k, within, at_.trans second, by rw [base, same], isPrefix⟩
      · subst same
        refine ⟨n.dataset.length, Nat.le_refl _, by omega, by omega, ?_⟩
        rw [List.take_length]
        exact sound.dataset coherent
    master := fun m same => by
      rw [up] at same
      cases same
      exact ⟨rfl, by rw [backlog]⟩
    keeps := fun _ => by rw [backlog, dataset]; exact sound.keeps had
    attached := fun _ => by rw [backlog]; exact had
    transferring := fun _ _ _ _ same => by simp [up] at same
    connected := fun _ _ _ _ => by rw [backlog]; exact had
    starts := fun s member => sound.starts s (among s member)
    ends := fun s member state => by
      rw [child, dataset, backlog]
      exact sound.ends s (among s member) state }

theorem Sound.attach {n : Node ι Id} (sound : n.Sound T) (had : n.backlog.repl_backlog.isSome)
    {s : Slave} (starts : s.replstate = .waitBgsaveStart → s.output = [])
    (ends : s.replstate = .waitBgsaveEnd → ∃ child, n.child = some child ∧
      child.dataset ++ s.output = n.dataset ∧
        s.psync_initial_offset + s.output.length = n.backlog.master_repl_offset) :
    ({ n with slaves := n.slaves ++ [s] } : Node ι Id).Sound T :=
  { sound with
    attached := fun _ => had
    starts := fun t member state => by
      rcases List.mem_append.mp member with old | new
      · exact sound.starts t old state
      · cases List.mem_singleton.mp new
        exact starts state
    ends := fun t member state => by
      rcases List.mem_append.mp member with old | new
      · exact sound.ends t old state
      · cases List.mem_singleton.mp new
        exact ends state }

/-- Of two servers that know the same id, the one with the smaller offset holds the start
of what the other one holds. A second id counts up to its offset. -/
theorem behind {r n : Node ι Id} (sound : r.Sound T) (other : n.Sound T) (coherent : ¬ r.Adrift)
    (calm : ¬ n.Adrift)
    (known : r.replid = n.replid ∨ n.backlog.repl_backlog.isSome ∧ n.replid2 = some r.replid ∧
      r.backlog.master_repl_offset + 1 ≤ n.second_replid_offset)
    (less : r.backlog.master_repl_offset ≤ n.backlog.master_repl_offset) :
    (T r.replid).base = (T n.replid).base ∧ r.dataset <+: n.dataset := by
  have offset := sound.offset coherent
  have offset' := other.offset calm
  rcases known with same | ⟨had, second, early⟩
  · refine ⟨by rw [same], ?_⟩
    have log := sound.dataset coherent
    rw [same] at log offset
    exact List.prefix_of_prefix_length_le log (other.dataset calm) (by omega)
  · obtain ⟨m, short, at_, base, isPrefix⟩ := other.shared had _ second
    refine ⟨base, List.IsPrefix.trans ?_ (List.take_prefix m n.dataset)⟩
    refine List.prefix_of_prefix_length_le (sound.dataset coherent) isPrefix ?_
    rw [List.length_take]
    omega

/-- Who is granted a partial resynchronization holds the start of the dataset, and is
sent exactly the rest. -/
theorem accepts_exact [DecidableEq Id] {r n : Node ι Id} (sound : r.Sound T) (other : n.Sound T)
    (coherent : ¬ r.Adrift)
    (accepted : n.accepts (some (r.replid, r.backlog.master_repl_offset + 1))) :
    n.backlog.repl_backlog.isSome ∧
      n.dataset = r.dataset ++
        n.backlog.addReplyReplicationBacklog (r.backlog.master_repl_offset + 1) ∧
      r.backlog.master_repl_offset = (T n.replid).base + r.dataset.length := by
  simp only [accepts, Bool.and_eq_true, Bool.or_eq_true, beq_iff_eq, decide_eq_true_eq] at accepted
  obtain ⟨named, available⟩ := accepted
  have had : n.backlog.repl_backlog.isSome := by
    simp only [Backlog.has, Bool.and_eq_true] at available
    exact available.1.1
  have calm : ¬ n.Adrift := fun adrift => by simp [adrift.1] at had
  obtain ⟨s, keeps, front, whole⟩ := other.keeps had
  obtain ⟨k, within, counted, sent⟩ := Backlog.reply_eq keeps available
  have offset := sound.offset coherent
  have offset' := other.offset calm
  have length := congrArg List.length whole
  rw [List.length_append] at length
  have known := named.imp_right fun second => And.intro had second
  obtain ⟨base, rest, same⟩ := behind sound other coherent calm known (by omega)
  refine ⟨had, ?_, by rw [← base]; exact offset⟩
  have place : front.length + k = r.dataset.length := by
    have total := congrArg List.length same
    rw [List.length_append] at total
    omega
  have tail : s.drop k = rest := calc
    s.drop k = (front ++ s).drop (front.length + k) := (List.drop_length_add_append k).symm
    _ = rest := by rw [whole, ← same, place, List.drop_left]
  rw [sent, tail, same]

end Node

section World
variable [DecidableEq ι] [DecidableEq Id] {w : World ι Id}

/-- A write of a master. Without a backlog its id comes to stand for a new stream,
which only the master itself notices. -/
theorem write_inv (inv : Inv T w) (alone : (w.nodes n).upstream = .standalone) (buf : Bytes) :
    ∃ T', Inv T' (w.put n ((w.nodes n).call buf)) := by
  have sound := inv.node n
  have coherent := Node.not_adrift alone
  have log := sound.owned alone
  have offset := sound.offset coherent
  obtain ⟨x, old⟩ : ∃ x, x = w.nodes n := ⟨_, rfl⟩
  rw [← old] at sound coherent log offset alone ⊢
  let T' := Function.update T x.replid
    ⟨(x.call buf).backlog.master_repl_offset - (x.dataset ++ buf).length, x.dataset ++ buf⟩
  have here : T' x.replid =
      ⟨(x.call buf).backlog.master_repl_offset - (x.dataset ++ buf).length, x.dataset ++ buf⟩ :=
    Function.update_self _ _ _
  have elsewhere : ∀ id, id ≠ x.replid → T' id = T id := fun id other =>
    Function.update_of_ne other _ _
  have fed : x.backlog.repl_backlog.isSome → Grows T T' x.replid := by
    intro had
    have counted : (x.call buf).backlog.master_repl_offset = _ := (Node.feed_offset had buf).1
    refine ⟨?_, ?_⟩
    · rw [here, counted, offset, List.length_append]
      dsimp only
      omega
    · rw [here, log]
      exact List.prefix_append _ _
  refine ⟨T', inv.put n ?_ ?_ ?_ ?_ ?_ ?_ (.inl (by simp [Node.call, alone, Upstream.conn])) ?_ ?_ ?_⟩
  · by_cases had : x.backlog.repl_backlog.isSome
    · refine Node.Sound.call (u := x.upstream) sound had coherent ?_ ?_ ?_ ?_ ?_
      · intro id _
        by_cases same : id = x.replid
        · exact same ▸ fed had
        · exact .of_eq (elsewhere id same)
      · exact here ▸ List.prefix_rfl
      · intro _
        rw [here]
      · intro m master
        simp [alone, Upstream.master] at master
      · intro _ _ _ _ other
        simp [alone] at other
    · have none := Option.not_isSome_iff_eq_none.mp had
      have unfed := Node.call_unfed sound none buf
      rw [unfed] at here ⊢
      exact {
        size := sound.size
        dataset := fun _ => here ▸ List.prefix_rfl
        offset := fun _ => by
          rw [here]
          dsimp only
          omega
        owned := fun _ => by rw [here]
        shared := fun had' => absurd had' had
        master := sound.master
        keeps := fun had' => absurd had' had
        attached := sound.attached
        transferring := sound.transferring
        connected := sound.connected
        starts := sound.starts
        ends := fun s member => by
          have empty : x.slaves = [] := sound.no_slaves none
          simp [empty] at member }
  · intro j other id mentioned
    by_cases same : id = x.replid
    · by_cases had : x.backlog.repl_backlog.isSome
      · exact same ▸ fed had
      · have lonely : (w.nodes n).Lonely := old ▸ ⟨Option.not_isSome_iff_eq_none.mp had, coherent⟩
        exact absurd (same ▸ mentioned) (old ▸ inv.hidden n lonely j other)
    · exact .of_eq (elsewhere id same)
  · intro j other alone'
    rw [elsewhere]
    exact fun same => other (inv.owners j n alone' (old ▸ alone) (old ▸ same))
  · intro _ j other alone' same
    exact other (inv.owners j n alone' (old ▸ alone) (old ▸ same))
  · intro lonely j other
    have none : x.backlog.repl_backlog = none := by
      by_contra some
      have had := Option.isSome_iff_ne_none.mpr some
      have fed' := (Node.feed_offset had buf).2.2
      exact Option.isSome_iff_ne_none.mp fed' lonely.1
    have lonely' : (w.nodes n).Lonely := old ▸ ⟨none, coherent⟩
    exact old ▸ inv.hidden n lonely' j other
  · intro id mentioned
    exact .inl (.inl (old ▸ mentioned))
  · intro c
    exact old ▸ Node.call_serves x buf x.upstream c
  · intro s' member
    obtain ⟨s, there, rfl⟩ := List.mem_map.mp member
    exact ⟨s, old ▸ there, (Node.feed_conn buf s).symm⟩
  · have distinct := inv.distinct n
    rw [← old] at distinct
    exact (Node.map_feed_conn buf x.slaves).symm ▸ distinct

omit [DecidableEq Id] in
/-- A step of one server that changes no id. -/
theorem Inv.edit (inv : Inv T w) (i : ι) {x : Node ι Id} (sound : x.Sound T)
    (alone : x.upstream = .standalone → (w.nodes i).upstream = .standalone)
    (lonely : x.Lonely → (w.nodes i).Lonely) (replid : x.replid = (w.nodes i).replid)
    (mentions : ∀ id, x.Mentions id → (w.nodes i).Mentions id)
    (own : x.upstream.conn = none ∨ Alike (w.nodes i) x) (serves : ∀ c, Serves c (w.nodes i) x)
    (slaves : ∀ s ∈ x.slaves, ∃ s' ∈ (w.nodes i).slaves, s'.conn = s.conn)
    (distinct : (x.slaves.map Slave.conn).Nodup) : Inv T (w.put i x) :=
  inv.put i sound (fun _ _ _ _ => .refl _ _) (fun _ _ _ => rfl)
    (fun here j other alone' same =>
      other (inv.owners j i alone' (alone here) (same.trans replid)))
    (fun here j other => replid ▸ inv.hidden i (lonely here) j other)
    (fun id mentioned => .inl (.inl (mentions id mentioned)))
    (own.imp_right fun alike => ⟨alike, rfl⟩) serves slaves distinct

omit [DecidableEq Id] in
theorem lost_inv (inv : Inv T w) (r : ι) (keep : Bool) : Inv T (w.put r ((w.nodes r).lost keep)) := by
  have sound := inv.node r
  unfold Node.lost
  split
  · exact inv.edit r sound id id rfl (fun _ => id) (.inr ⟨rfl, rfl, rfl, rfl, id⟩)
      (fun _ => .same rfl rfl rfl) (fun s member => ⟨s, member, rfl⟩) (inv.distinct r)
  rename_i host _
  refine inv.edit r ?_ nofun ?_ rfl ?_ (.inl rfl) (fun _ => .same rfl rfl rfl)
    (fun s member => ⟨s, member, rfl⟩) (inv.distinct r)
  · exact sound.seeking (.inl ⟨_, _, rfl⟩) (fun calm adrift => calm (Node.adrift_of_cache adrift keep))
      fun m cached => sound.master m (Node.cache_master cached)
  · exact fun lonely => ⟨lonely.1, fun adrift => lonely.2 (Node.adrift_of_cache adrift keep)⟩
  · intro id mentioned
    rcases mentioned with same | same | same
    · exact .inl same
    · exact .inr (.inl same)
    · cases same

omit [DecidableEq Id] in
theorem loadFailed_inv (inv : Inv T w) (here : (w.nodes r).upstream = .transfer host c replid offset)
    (dataset : Bytes) :
    Inv T (w.put r { w.nodes r with upstream := .connect host none, dataset := dataset }) := by
  have sound := inv.node r
  have absent := sound.transferring _ _ _ _ here
  have adrift : ({ w.nodes r with upstream := .connect host none, dataset := dataset } :
      Node ι Id).Adrift := ⟨absent, by simp [Upstream.masterhost], rfl⟩
  have empty : (w.nodes r).slaves = [] := sound.no_slaves absent
  refine inv.edit r ?_ nofun (fun lonely => absurd adrift lonely.2) rfl ?_ (.inl rfl)
    (fun _ => .none empty) (fun s member => ⟨s, member, rfl⟩) (inv.distinct r)
  · exact { sound with
      dataset := fun calm => absurd adrift calm
      offset := fun calm => absurd adrift calm
      owned := nofun
      shared := fun some => by simp [absent] at some
      master := nofun
      keeps := fun some => by simp [absent] at some
      transferring := nofun
      connected := nofun
      ends := fun s member => by simp [empty] at member }
  · intro id mentioned
    rcases mentioned with same | same | same
    · exact .inl same
    · exact .inr (.inl same)
    · cases same

omit [DecidableEq Id] in
theorem replicaof_inv (inv : Inv T w) (r host : ι) (keep : Bool) :
    Inv T (w.put r ((w.nodes r).replicaof host keep)) := by
  have sound := inv.node r
  unfold Node.replicaof
  split_ifs with already
  · exact inv.edit r sound id id rfl (fun _ => id) (.inr ⟨rfl, rfl, rfl, rfl, id⟩)
      (fun _ => .same rfl rfl rfl) (fun s member => ⟨s, member, rfl⟩) (inv.distinct r)
  dsimp only
  have apart : ({ w.nodes r with slaves := [] } : Node ι Id).Sound T := sound.fewer fun _ => nofun
  have unnamed : ∀ cached id, ({ w.nodes r with slaves := [], upstream := .connect host cached } :
      Node ι Id).Mentions id → (w.nodes r).Mentions id := by
    intro cached id mentioned
    rcases mentioned with same | same | same
    · exact .inl same
    · exact .inr (.inl same)
    · cases same
  split
  · rename_i alone
    refine inv.edit r ?_ nofun (fun lonely => ⟨lonely.1, Node.not_adrift alone⟩) rfl (unnamed _)
      (.inl rfl) (fun _ => .none rfl) (fun _ => nofun) List.nodup_nil
    refine apart.seeking (.inl ⟨_, _, rfl⟩) (fun _ => Node.not_adrift alone) fun m same => ?_
    cases same
    exact ⟨rfl, rfl⟩
  · refine inv.edit r ?_ nofun (fun lonely => ⟨lonely.1, fun adrift =>
        lonely.2 (Node.adrift_of_cache (n := { w.nodes r with slaves := [] }) adrift keep)⟩) rfl
      (unnamed _) (.inl rfl) (fun _ => .none rfl) (fun _ => nofun) List.nodup_nil
    exact apart.seeking (.inl ⟨_, _, rfl⟩)
      (fun calm adrift => calm (Node.adrift_of_cache adrift keep))
      fun m cached => sound.master m (Node.cache_master cached)

omit [DecidableEq Id] in
theorem freeSlave_inv (inv : Inv T w) (n : ι) (c : ℕ) :
    Inv T (w.put n { w.nodes n with
      slaves := (w.nodes n).slaves.filter fun s => s.conn ≠ c }) := by
  refine inv.edit n ((inv.node n).fewer fun s => List.mem_of_mem_filter) id id rfl (fun _ => id)
    (.inr ⟨rfl, rfl, rfl, rfl, id⟩) ?_ (fun s member => ⟨s, List.mem_of_mem_filter member, rfl⟩) ?_
  · intro d s member own
    exact ⟨s, List.mem_of_mem_filter member, own, rfl, rfl, rfl, rfl, [], by simp, by simp⟩
  · exact (inv.distinct n).sublist (List.filter_sublist.map _)

omit [DecidableEq Id] in
theorem resize_inv (inv : Inv T w) (n : ι) (newsize : ℕ) :
    Inv T (w.put n { w.nodes n with
      backlog := (w.nodes n).backlog.resizeReplicationBacklog newsize }) := by
  have sound := inv.node n
  obtain ⟨size, offset, same⟩ := (w.nodes n).backlog.resize_kept newsize sound.size
  have none : ((w.nodes n).backlog.resizeReplicationBacklog newsize).repl_backlog = none ↔
      (w.nodes n).backlog.repl_backlog = none := by
    rw [← Option.not_isSome_iff_eq_none, ← Option.not_isSome_iff_eq_none, same]
  have adrift : ({ w.nodes n with
      backlog := (w.nodes n).backlog.resizeReplicationBacklog newsize } : Node ι Id).Adrift ↔
      (w.nodes n).Adrift := and_congr_left fun _ => none
  refine inv.edit n ?_ id (fun lonely => ⟨none.mp lonely.1, fun back => lonely.2 (adrift.mpr back)⟩)
    rfl (fun _ => id) (.inr ⟨rfl, rfl, rfl, offset, fun some => same ▸ some⟩)
    (fun _ => .same rfl rfl rfl) (fun s member => ⟨s, member, rfl⟩) (inv.distinct n)
  exact {
    size := size
    dataset := fun calm => sound.dataset fun back => calm (adrift.mpr back)
    offset := fun calm => offset.trans (sound.offset fun back => calm (adrift.mpr back))
    owned := sound.owned
    shared := fun some => sound.shared (same ▸ some)
    master := fun m here => (sound.master m here).imp_right fun reploff => reploff.trans offset.symm
    keeps := fun some => by
      obtain ⟨s, keeps, suffix⟩ := sound.keeps (same ▸ some)
      obtain ⟨t, keeps', suffix'⟩ := Backlog.resize_keeps keeps newsize
      exact ⟨t, keeps', suffix'.trans suffix⟩
    attached := fun some => same ▸ sound.attached some
    transferring := fun _ _ _ _ here => none.mpr (sound.transferring _ _ _ _ here)
    connected := fun _ _ _ here => same ▸ sound.connected _ _ _ here
    starts := sound.starts
    ends := fun s member state => by
      obtain ⟨child, here, whole, initial⟩ := sound.ends s member state
      exact ⟨child, here, whole, initial.trans offset.symm⟩ }

omit [DecidableEq Id] in
theorem rdbSaveBackground_inv (inv : Inv T w) (none : (w.nodes n).child = none) :
    Inv T (w.put n { w.nodes n with child := some ⟨true, (w.nodes n).dataset⟩ }) := by
  refine inv.edit n ?_ id id rfl (fun _ => id) (.inr ⟨rfl, rfl, rfl, rfl, id⟩)
    (fun _ => .same rfl rfl rfl) (fun s member => ⟨s, member, rfl⟩) (inv.distinct n)
  refine { inv.node n with ends := fun s member state => ?_ }
  obtain ⟨child, here, -⟩ := (inv.node n).ends s member state
  cases none.symm.trans here

omit [DecidableEq Id] in
theorem bgsaveFailed_inv (inv : Inv T w) (n : ι) :
    Inv T (w.put n ((w.nodes n).updateSlavesWaitingBgsave false)) := by
  have among : ∀ s ∈ ((w.nodes n).updateSlavesWaitingBgsave false).slaves, s ∈ (w.nodes n).slaves :=
    fun s => List.mem_of_mem_filter
  refine inv.edit n ?_ id id rfl (fun _ => id) (.inr ⟨rfl, rfl, rfl, rfl, id⟩) ?_
    (fun s member => ⟨s, among s member, rfl⟩) ?_
  · refine { (inv.node n).fewer among with ends := fun s member state => ?_ }
    simp [Node.updateSlavesWaitingBgsave, state] at member
  · intro c s member own
    exact ⟨s, among s member, own, rfl, rfl, rfl, rfl, [], by simp [Node.updateSlavesWaitingBgsave],
      by simp⟩
  · exact (inv.distinct n).sublist (List.filter_sublist.map _)

/-- A master without replicas begins a new history under an id nobody knows. -/
theorem Inv.renew (inv : Inv T w) (i : ι) {x : Node ι Id} (fresh : w.Fresh x.replid)
    (alone : x.upstream = .standalone) (empty : x.slaves = [])
    (size : 0 < x.backlog.repl_backlog_size)
    (keeps : x.backlog.repl_backlog.isSome → ∃ s, x.backlog.Keeps s ∧ s <:+ x.dataset)
    (second : ∀ id, x.replid2 = some id → w.Mentions i id ∧ (x.backlog.repl_backlog.isSome →
      (T id).base = x.backlog.master_repl_offset - x.dataset.length ∧
        x.second_replid_offset = x.backlog.master_repl_offset + 1 ∧ x.dataset <+: (T id).log)) :
    ∃ T', Inv T' (w.put i x) := by
  let T' := Function.update T x.replid
    ⟨x.backlog.master_repl_offset - x.dataset.length, x.dataset⟩
  have here : T' x.replid = ⟨x.backlog.master_repl_offset - x.dataset.length, x.dataset⟩ :=
    Function.update_self _ _ _
  have known : ∀ j id, w.Mentions j id → T' id = T id := fun j id mentioned =>
    Function.update_of_ne (by rintro rfl; exact fresh j mentioned) _ _
  refine ⟨T', inv.put i ?_ ?_ ?_ ?_ ?_ ?_ (.inl (by rw [alone]; rfl)) ?_ ?_ ?_⟩
  · exact {
      size := size
      dataset := fun _ => here ▸ List.prefix_rfl
      offset := fun _ => by
        rw [here]
        dsimp only
        omega
      owned := fun _ => by rw [here]
      shared := fun had id same => by
        obtain ⟨mentioned, facts⟩ := second id same
        obtain ⟨base, offset, isPrefix⟩ := facts had
        rw [known i id mentioned, here]
        refine ⟨x.dataset.length, Nat.le_refl _, ?_, base, ?_⟩
        · omega
        · rwa [List.take_length]
      master := fun m same => by simp [alone, Upstream.master] at same
      keeps := keeps
      attached := fun some => absurd empty some
      transferring := fun _ _ _ _ same => by simp [alone] at same
      connected := fun _ _ _ same => by simp [alone] at same
      starts := fun s member => by simp [empty] at member
      ends := fun s member => by simp [empty] at member }
  · exact fun j _ id mentioned => .of_eq (known j id mentioned)
  · intro j _ _
    rw [known j _ (.inl (.inl rfl))]
  · exact fun _ j _ _ same => fresh j (.inl (.inl same))
  · exact fun _ j _ => fresh j
  · intro id mentioned
    rcases mentioned with same | same | same
    · exact .inr (same ▸ fresh)
    · exact .inl (second id same).1
    · simp [alone, Upstream.incoming] at same
  · exact fun c => .none empty
  · exact fun s member => by simp [empty] at member
  · rw [empty]
    exact List.nodup_nil

theorem unset_inv (inv : Inv T w) (r : ι) (fresh : w.Fresh new) :
    ∃ T', Inv T' (w.put r ((w.nodes r).replicationUnsetMaster new)) := by
  have sound := inv.node r
  unfold Node.replicationUnsetMaster
  split
  · exact ⟨T, inv.edit r sound id id rfl (fun _ => id) (.inr ⟨rfl, rfl, rfl, rfl, id⟩)
      (fun _ => .same rfl rfl rfl) (fun s member => ⟨s, member, rfl⟩) (inv.distinct r)⟩
  · refine inv.renew r fresh rfl rfl sound.size sound.keeps fun id same => ?_
    cases same
    refine ⟨.inl (.inl rfl), fun had => ?_⟩
    have coherent : ¬ (w.nodes r).Adrift := fun adrift => by
      simp only [Node.shiftReplicationId, Node.disconnectSlaves] at had
      simp [adrift.1] at had
    refine ⟨?_, rfl, sound.dataset coherent⟩
    have offset := sound.offset coherent
    simp only [Node.shiftReplicationId, Node.disconnectSlaves]
    omega

theorem freeBacklog_inv (inv : Inv T w) (alone : (w.nodes n).upstream = .standalone)
    (empty : (w.nodes n).slaves = []) (fresh : w.Fresh new) :
    ∃ T', Inv T' (w.put n { ((w.nodes n).changeReplicationId new).clearReplicationId2 with
      backlog := (w.nodes n).backlog.freeReplicationBacklog }) :=
  inv.renew n fresh alone empty (inv.node n).size nofun nofun

theorem withBacklog_inv (inv : Inv T w) (serves : (w.nodes n).upstream.serves)
    (fresh : w.Fresh new) : ∃ T', Inv T' (w.put n ((w.nodes n).withBacklog new)) := by
  have sound := inv.node n
  unfold Node.withBacklog
  split_ifs with first
  · obtain ⟨empty, absent⟩ := first
    have alone : (w.nodes n).upstream = .standalone := by
      cases here : (w.nodes n).upstream with
      | standalone => rfl
      | connected host c m =>
        have some := sound.connected _ _ _ here
        simp [absent] at some
      | connect | receivePsyncReply | transfer => simp [here, Upstream.serves] at serves
    exact inv.renew n fresh alone empty sound.size
      (fun _ => ⟨[], Backlog.create_keeps sound.size, List.nil_suffix⟩) nofun
  · exact ⟨T, inv.edit n sound id id rfl (fun _ => id) (.inr ⟨rfl, rfl, rfl, rfl, id⟩)
      (fun _ => .same rfl rfl rfl) (fun s member => ⟨s, member, rfl⟩) (inv.distinct n)⟩

end World
end Copier.Redis.Psync
