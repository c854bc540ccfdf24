import Copier.Redis.Exchange

/-! What replication promises in every run of every network of servers. -/
namespace Copier.Redis.Psync
variable {ι Id : Type} [DecidableEq ι] [DecidableEq Id] {w w' : World ι Id}

/-- A server that draws a replication id draws one that is not in use. -/
def Label.Fresh (w : World ι Id) : Label ι Id → Prop
  | .syncCommand _ _ new | .replicationUnsetMaster _ new | .freeReplicationBacklog _ new =>
      w.Fresh new
  | _ => True

theorem step_inv {T : Id → History} (inv : Inv T w) {l : Label ι Id} (fresh : l.Fresh w)
    (stepped : step w l = some w') : ∃ T', Inv T' w' := by
  cases l with
  | write n buf =>
    simp only [step] at stepped
    split at stepped
    · cases stepped
      exact write_inv inv ‹_› buf
    · cases stepped
  | connectWithMaster r c =>
    simp only [step] at stepped
    split at stepped
    · cases stepped
      exact ⟨T, connectWithMaster_inv inv ‹_› ‹_›⟩
    · cases stepped
  | syncCommand c capable new =>
    simp only [step, Option.bind_eq_some_iff, Option.map_eq_some_iff] at stepped
    obtain ⟨k, there, request, asks, rfl⟩ := stepped
    exact syncCommand_inv inv there asks fresh capable
  | startBgsaveForReplication n disk =>
    simp only [step, Option.ite_none_right_eq_some, Option.isNone_iff_eq_none] at stepped
    obtain ⟨idle, ⟨⟩⟩ := stepped
    exact ⟨T, startBgsave_inv inv idle disk⟩
  | rdbSaveBackground n =>
    simp only [step, Option.ite_none_right_eq_some, Option.isNone_iff_eq_none] at stepped
    obtain ⟨idle, ⟨⟩⟩ := stepped
    exact ⟨T, rdbSaveBackground_inv inv idle⟩
  | updateSlavesWaitingBgsave n ok =>
    simp only [step, Option.map_eq_some_iff] at stepped
    obtain ⟨child, saved, rfl⟩ := stepped
    cases ok with
    | true => exact ⟨T, bgsaveDone_inv inv saved⟩
    | false => exact ⟨T, bgsaveFailed_inv inv n⟩
  | writeToClient n c len =>
    simp only [step, Option.bind_eq_some_iff, Option.map_eq_some_iff] at stepped
    obtain ⟨k, there, ⟨buf, slaves⟩, written, rfl⟩ := stepped
    exact ⟨T, writeToClient_inv inv there written⟩
  | readReply r =>
    simp only [step, Option.bind_eq_some_iff] at stepped
    obtain ⟨⟨c, k⟩, link, stepped⟩ := stepped
    dsimp only at stepped
    split at stepped
    · cases stepped
    · obtain ⟨n, read, rfl⟩ := Option.map_eq_some_iff.mp stepped
      exact ⟨T, readReply_inv inv link ‹_› read⟩
  | loadFailed r dataset =>
    simp only [step] at stepped
    split at stepped
    · cases stepped
      exact ⟨T, loadFailed_inv inv ‹_› dataset⟩
    · cases stepped
  | apply r len =>
    simp only [step, Option.bind_eq_some_iff] at stepped
    obtain ⟨⟨c, k⟩, link, stepped⟩ := stepped
    dsimp only at stepped
    split at stepped
    · split at stepped
      · cases stepped
        exact ⟨T, apply_inv inv link ‹_› len⟩
      · cases stepped
    · cases stepped
  | replicationSendAck r =>
    simp only [step, Option.bind_eq_some_iff] at stepped
    obtain ⟨⟨c, k⟩, link, stepped⟩ := stepped
    dsimp only at stepped
    split at stepped
    · cases stepped
      exact ⟨T, sendAck_inv inv link ‹_›⟩
    · cases stepped
  | replconfAck c =>
    simp only [step, Option.bind_eq_some_iff] at stepped
    obtain ⟨k, there, stepped⟩ := stepped
    split at stepped
    · cases stepped
    · cases stepped
      exact ⟨T, replconfAck_inv inv there ‹_›⟩
  | lost r keep =>
    cases stepped
    exact ⟨T, lost_inv inv r keep⟩
  | freeSlave n c =>
    cases stepped
    exact ⟨T, freeSlave_inv inv n c⟩
  | replicaof r host keep =>
    cases stepped
    exact ⟨T, replicaof_inv inv r host keep⟩
  | replicationUnsetMaster r new =>
    cases stepped
    exact unset_inv inv r fresh
  | resizeReplicationBacklog n newsize =>
    cases stepped
    exact ⟨T, resize_inv inv n newsize⟩
  | freeReplicationBacklog n new =>
    simp only [step] at stepped
    split at stepped
    · simp only [Option.ite_none_right_eq_some] at stepped
      obtain ⟨-, ⟨⟩⟩ := stepped
      exact freeBacklog_inv inv ‹_› ‹_› fresh
    · cases stepped

/-- A network: how it starts, with an id of its own for each server. -/
structure Network (ι Id : Type) where
  ids : ι → Id
  size : ι → ℕ
  datasets : ι → Bytes
  distinct : Function.Injective ids
  positive : ∀ n, 0 < size n

open Classical in
omit [DecidableEq ι] [DecidableEq Id] in
theorem init_inv (net : Network ι Id) : ∃ T, Inv T (init net.ids net.size net.datasets) := by
  let T : Id → History := fun id =>
    if known : ∃ n, net.ids n = id then
      ⟨-((net.datasets known.choose).length : Int), net.datasets known.choose⟩
    else ⟨0, []⟩
  have here : ∀ n, T (net.ids n) = ⟨-((net.datasets n).length : Int), net.datasets n⟩ := by
    intro n
    have known : ∃ m, net.ids m = net.ids n := ⟨n, rfl⟩
    have same : known.choose = n := net.distinct known.choose_spec
    simp only [T, dif_pos known, same]
  refine ⟨T, ?_, ?_, ?_, nofun, fun _ _ => nofun, fun _ => List.nodup_nil⟩
  · intro n
    exact {
      size := net.positive n
      dataset := fun _ => by
        simp only [init, here]
        exact List.prefix_rfl
      offset := fun _ => by
        simp only [init, here]
        omega
      owned := fun _ => by rw [init, here]
      shared := nofun
      master := nofun
      keeps := nofun
      attached := fun some => absurd rfl some
      transferring := nofun
      connected := nofun
      starts := fun _ => nofun
      ends := fun _ => nofun }
  · exact fun n m _ _ same => net.distinct same
  · intro n _ m other known
    rcases known with (same | same | same) | ⟨c, k, link, -⟩
    · exact other (net.distinct same)
    · cases same
    · cases same
    · exact nomatch (link_eq_some.mp link).2

theorem run_inv (net : Network ι Id) {ls : List (Label ι Id)}
    (path : Runs.Path step Label.Fresh (init net.ids net.size net.datasets) ls w) : ∃ T, Inv T w :=
  path.invariant (fun w => ∃ T, Inv T w) (init_inv net) fun ⟨_, inv⟩ fresh stepped =>
    step_inv inv fresh stepped

section Pair

def Label.plain : Label ι Id → Bool
  | .syncCommand _ _ _ | .replicationUnsetMaster _ _ | .freeReplicationBacklog _ _ => false
  | _ => true

theorem plain_path {ls : List (Label ι Id)} (plain : ∀ l ∈ ls, l.plain)
    (ran : Runs.run step w ls = some w') : Runs.Path step Label.Fresh w ls w' := by
  induction ls generalizing w with
  | nil =>
    cases ran
    exact .refl _
  | cons l ls ih =>
    simp only [Runs.run, Option.bind_eq_some_iff] at ran
    obtain ⟨mid, stepped, rest⟩ := ran
    have met : l.Fresh w := by
      have here := plain l List.mem_cons_self
      cases l <;> trivial
    exact .cons met stepped (ih (fun l member => plain l (List.mem_cons_of_mem _ member)) rest)

/-- Two servers, `false` with a dataset of one byte and `true` without data. -/
def pair : Network Bool ℕ where
  ids n := if n then 1 else 0
  size _ := 8
  datasets n := if n then [] else [9]
  distinct := by
    intro n m same
    cases n <;> cases m <;> trivial
  positive _ := by decide

def pairAfter (ls : List (Label Bool ℕ)) : World Bool ℕ :=
  (Runs.run step (init pair.ids pair.size pair.datasets) ls).getD
    (init pair.ids pair.size pair.datasets)

def joining : List (Label Bool ℕ) := [.replicaof true false true, .connectWithMaster true 0]

/-- A full resynchronization, two bytes written and one of them applied. -/
def replicating : List (Label Bool ℕ) :=
  [.startBgsaveForReplication false true, .readReply true, .updateSlavesWaitingBgsave false true,
    .readReply true, .write false [5, 6], .writeToClient false 0 2, .apply true 1,
    .replicationSendAck true, .replconfAck 0]

/-- The replica loses its connection and asks again. -/
def returning : List (Label Bool ℕ) := [.lost true true, .connectWithMaster true 1]

def pairRun : List (Label Bool ℕ) := joining ++ .syncCommand 0 true 2 :: replicating

theorem pairRun_path : Runs.Path step Label.Fresh (init pair.ids pair.size pair.datasets) pairRun
    (pairAfter pairRun) := by
  have joined : Runs.Path step Label.Fresh (init pair.ids pair.size pair.datasets) joining
      (pairAfter joining) := plain_path (by decide) rfl
  have fresh : (pairAfter joining).Fresh 2 := by
    intro j known
    rcases known with kept | ⟨c, k, link, reply, member, named⟩
    · cases j <;> rcases kept with same | same | same <;> cases same
    · cases j with
      | false => cases link
      | true =>
        cases link
        cases member
  exact joined.trans (.cons fresh rfl (plain_path (by decide) rfl))

theorem returning_path : Runs.Path step Label.Fresh (init pair.ids pair.size pair.datasets)
    (pairRun ++ returning) (pairAfter (pairRun ++ returning)) :=
  pairRun_path.trans (plain_path (by decide) rfl)

/-- The connection of the replica when it has asked again. -/
def again : Conn Bool ℕ := ⟨true, false, some (some (2, 2)), [], [], []⟩

/-- The connection of the replica, with one byte still to be applied. -/
def running : Conn Bool ℕ := ⟨true, false, none, [], [6], []⟩

def counted : Slave := ⟨0, .online, 0, 1, []⟩

end Pair

section Promises
variable {ls : List (Label ι Id)} {r n m : ι} {c : ℕ} {k : Conn ι Id} {s : Slave}

/-- An id and an offset say what a dataset was built from: a server that is behind another
one that knows its id holds exactly the start of the other's dataset. -/
theorem offset_identifies_dataset (net : Network ι Id)
    (path : Runs.Path step Label.Fresh (init net.ids net.size net.datasets) ls w)
    (coherent : ¬ (w.nodes n).Adrift) (coherent' : ¬ (w.nodes m).Adrift)
    (known : (w.nodes n).replid = (w.nodes m).replid ∨
      (w.nodes m).backlog.repl_backlog.isSome ∧ (w.nodes m).replid2 = some (w.nodes n).replid ∧
        (w.nodes n).backlog.master_repl_offset + 1 ≤ (w.nodes m).second_replid_offset)
    (less : (w.nodes n).backlog.master_repl_offset ≤ (w.nodes m).backlog.master_repl_offset) :
    (w.nodes n).dataset <+: (w.nodes m).dataset ∧
      (w.nodes m).backlog.master_repl_offset - (w.nodes n).backlog.master_repl_offset =
        ((w.nodes m).dataset.length : Int) - (w.nodes n).dataset.length := by
  obtain ⟨T, inv⟩ := run_inv net path
  obtain ⟨base, isPrefix⟩ := Node.behind (inv.node n) (inv.node m) coherent coherent' known less
  have offset := (inv.node n).offset coherent
  have offset' := (inv.node m).offset coherent'
  exact ⟨isPrefix, by omega⟩

theorem offset_identifies_pair :
    ((pairAfter pairRun).nodes true).dataset <+: ((pairAfter pairRun).nodes false).dataset ∧
      ((pairAfter pairRun).nodes false).backlog.master_repl_offset -
          ((pairAfter pairRun).nodes true).backlog.master_repl_offset =
        (((pairAfter pairRun).nodes false).dataset.length : Int) -
          ((pairAfter pairRun).nodes true).dataset.length :=
  have coherent : ¬ ((pairAfter pairRun).nodes true).Adrift := fun adrift => by cases adrift.1
  have coherent' : ¬ ((pairAfter pairRun).nodes false).Adrift := fun adrift => by cases adrift.1
  offset_identifies_dataset pair pairRun_path coherent coherent' (.inl rfl) (by decide)

/-- Who is granted a partial resynchronization is sent exactly what it lacks. -/
theorem partial_resync_completes (net : Network ι Id)
    (path : Runs.Path step Label.Fresh (init net.ids net.size net.datasets) ls w)
    (link : w.link r = some (c, k)) (asks : k.request = some request)
    (accepted : (w.nodes k.master).accepts request) :
    ∃ replid psync_offset, request = some (replid, psync_offset) ∧
      (w.nodes k.master).dataset = (w.nodes r).dataset ++
        (w.nodes k.master).backlog.addReplyReplicationBacklog psync_offset := by
  obtain ⟨T, inv⟩ := run_inv net path
  obtain ⟨here, there⟩ := link_eq_some.mp link
  obtain ⟨k', found, mine, before⟩ := inv.link r c here
  cases found.symm.trans there
  cases before with
  | refused _ none | waiting _ none | announced _ none | flowing _ none =>
    cases none.symm.trans asks
  | @asked host cached handshake asked =>
    rw [asks, Option.some.injEq] at asked
    cases cached with
    | none =>
      subst asked
      cases accepted
    | some m =>
      obtain ⟨named, reploff⟩ := (inv.node r).master m (by rw [handshake]; rfl)
      rw [Option.map_some, named, reploff] at asked
      subst asked
      have coherent : ¬ (w.nodes r).Adrift := by
        rintro ⟨-, -, none⟩
        rw [handshake] at none
        cases none
      obtain ⟨-, whole, -⟩ := Node.accepts_exact (inv.node r) (inv.node k.master) coherent accepted
      exact ⟨_, _, rfl, whole⟩

theorem partial_resync_pair :
    ∃ replid psync_offset, (some (2, 2) : Option (ℕ × Int)) = some (replid, psync_offset) ∧
      ((pairAfter (pairRun ++ returning)).nodes again.master).dataset =
        ((pairAfter (pairRun ++ returning)).nodes true).dataset ++
          ((pairAfter (pairRun ++ returning)).nodes again.master).backlog.addReplyReplicationBacklog
            psync_offset :=
  have link : (pairAfter (pairRun ++ returning)).link true = some (1, again) := rfl
  partial_resync_completes pair returning_path link rfl (by decide)

/-- A replica and what is on its way to it make up the dataset of its master. -/
theorem replica_follows (net : Network ι Id)
    (path : Runs.Path step Label.Fresh (init net.ids net.size net.datasets) ls w)
    (up : (w.nodes r).upstream = .connected host c client) (there : w.conns c = some k)
    (member : s ∈ (w.nodes k.master).slaves) (own : s.conn = c) :
    (w.nodes k.master).dataset = (w.nodes r).dataset ++ k.stream ++ s.output ∧
      (w.nodes k.master).replid = (w.nodes r).replid ∧
      (w.nodes k.master).backlog.master_repl_offset =
        (w.nodes r).backlog.master_repl_offset + k.stream.length + s.output.length := by
  obtain ⟨T, inv⟩ := run_inv net path
  obtain ⟨k', found, mine, before⟩ := inv.link r c (by rw [up]; rfl)
  cases found.symm.trans there
  obtain ⟨-, -, -, -, -, slaves⟩ := before.up up
  obtain ⟨-, named, whole, -⟩ := slaves s member own
  have coherent : ¬ (w.nodes r).Adrift := fun adrift => by
    simpa [adrift.1] using (inv.node r).connected _ _ _ up
  have coherent' : ¬ (w.nodes k.master).Adrift := fun adrift => by
    simpa [adrift.1] using (inv.node k.master).attached (List.ne_nil_of_mem member)
  have offset := (inv.node r).offset coherent
  have offset' := (inv.node k.master).offset coherent'
  have length := congrArg List.length whole
  simp only [List.length_append] at length
  rw [named] at offset'
  exact ⟨whole, named, by omega⟩

theorem replica_follows_pair :
    ((pairAfter pairRun).nodes running.master).dataset =
        ((pairAfter pairRun).nodes true).dataset ++ running.stream ++ counted.output ∧
      ((pairAfter pairRun).nodes running.master).replid = ((pairAfter pairRun).nodes true).replid ∧
      ((pairAfter pairRun).nodes running.master).backlog.master_repl_offset =
        ((pairAfter pairRun).nodes true).backlog.master_repl_offset + running.stream.length +
          counted.output.length :=
  have there : (pairAfter pairRun).conns 0 = some running := rfl
  have member : counted ∈ ((pairAfter pairRun).nodes running.master).slaves := List.mem_singleton.mpr rfl
  replica_follows pair pairRun_path rfl there member rfl

/-- What WAIT counts for an offset holds every byte up to it. -/
theorem wait_counts_holders (net : Network ι Id)
    (path : Runs.Path step Label.Fresh (init net.ids net.size net.datasets) ls w)
    (link : w.link r = some (c, k)) (member : s ∈ (w.nodes k.master).slaves) (own : s.conn = c)
    (positive : 0 < offset) (counted : Node.acknowledges offset s) :
    offset ≤ (w.nodes r).backlog.master_repl_offset ∧
      (w.nodes k.master).dataset.take ((w.nodes k.master).dataset.length -
        ((w.nodes k.master).backlog.master_repl_offset - offset).toNat) <+: (w.nodes r).dataset := by
  obtain ⟨T, inv⟩ := run_inv net path
  obtain ⟨here, there⟩ := link_eq_some.mp link
  obtain ⟨k', found, mine, before⟩ := inv.link r c here
  cases found.symm.trans there
  simp only [Node.acknowledges, Bool.and_eq_true, decide_eq_true_eq] at counted
  obtain ⟨-, acked⟩ := counted
  cases before with
  | asked _ asks =>
    obtain ⟨k', found, -, none⟩ := inv.slaves _ s member
    rw [own, there] at found
    cases found
    cases none.symm.trans asks
  | refused _ _ _ apart => exact absurd own (apart s member)
  | waiting _ _ _ _ _ _ slaves =>
    have fresh := (slaves s member own).2
    omega
  | announced _ _ _ _ _ slaves =>
    have fresh := (slaves s member own).2.2.2
    omega
  | flowing next _ _ _ _ _ _ _ slaves =>
    obtain ⟨-, named, whole, low, fresh⟩ := slaves s member own
    have read : k.replies = [] := by
      by_contra unread
      have none := fresh unread
      omega
    rw [read] at next
    have up : ∃ host c m, (w.nodes r).upstream = .connected host c m := by
      cases u : (w.nodes r).upstream with
      | connected host d m => exact ⟨host, d, m, rfl⟩
      | receivePsyncReply host d cached => cases cached <;> simp [upcoming, u] at next
      | standalone | connect | transfer => simp [upcoming, u] at next
    obtain ⟨host, d, client, up⟩ := up
    obtain ⟨-, rfl, rfl, rfl⟩ := upcoming_connected up next
    have coherent : ¬ (w.nodes r).Adrift := fun adrift => by
      simpa [adrift.1] using (inv.node r).connected _ _ _ up
    have coherent' : ¬ (w.nodes k.master).Adrift := fun adrift => by
      simpa [adrift.1] using (inv.node k.master).attached (List.ne_nil_of_mem member)
    have at_ := (inv.node r).offset coherent
    have at' := (inv.node k.master).offset coherent'
    rw [named] at at'
    have length := congrArg List.length whole
    simp only [List.length_append] at length
    refine ⟨by omega, ?_⟩
    rw [whole, List.append_assoc, List.take_append_of_le_length (by simp only [List.length_append]; omega)]
    exact List.take_prefix _ _

theorem wait_counts_pair :
    (1 : Int) ≤ ((pairAfter pairRun).nodes true).backlog.master_repl_offset ∧
      ((pairAfter pairRun).nodes running.master).dataset.take
        (((pairAfter pairRun).nodes running.master).dataset.length -
          (((pairAfter pairRun).nodes running.master).backlog.master_repl_offset - 1).toNat) <+:
        ((pairAfter pairRun).nodes true).dataset :=
  have link : (pairAfter pairRun).link true = some (0, running) := rfl
  have member : counted ∈ ((pairAfter pairRun).nodes running.master).slaves := List.mem_singleton.mpr rfl
  wait_counts_holders pair pairRun_path link member rfl (by decide) (by decide)

end Promises

end Copier.Redis.Psync
