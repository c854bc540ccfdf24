import Copier.Redis.Resync

/-! Steps at the two ends of a connection: what is asked, answered, written, applied and
acknowledged on it. -/
namespace Copier.Redis.Psync
variable {ι Id : Type} {T : Id → History}

theorem upcoming_connected {r : Node ι Id} {replies : List (Reply Id)} {id : Id}
    (here : r.upstream = .connected host c m) (next : upcoming r replies = some (id, off, d)) :
    replies = [] ∧ id = r.replid ∧ off = r.backlog.master_repl_offset ∧ d = r.dataset := by
  cases replies with
  | nil =>
    simp only [upcoming, here, Option.some.injEq, Prod.mk.injEq] at next
    exact ⟨rfl, next.1.symm, next.2.1.symm, next.2.2.symm⟩
  | cons => simp [upcoming, here] at next

theorem upcoming_answer {r : Node ι Id} {replies : List (Reply Id)} {id : Id}
    (here : r.upstream = .receivePsyncReply host c cached)
    (next : upcoming r replies = some (id, off, d)) :
    (replies = [.resume id] ∧ off = r.backlog.master_repl_offset ∧ d = r.dataset) ∨
      replies = [.fullResync id off, .rdb d] := by
  unfold upcoming at next
  split at next
  · rename_i other
    cases here.symm.trans other
  · simp only [Option.some.injEq, Prod.mk.injEq] at next
    exact .inl ⟨by rw [next.1], next.2.1.symm, next.2.2.symm⟩
  · simp only [Option.some.injEq, Prod.mk.injEq] at next
    exact .inr (by rw [next.1, next.2.1, next.2.2])
  · rename_i other
    cases here.symm.trans other
  · cases next

theorem upcoming_transfer {r : Node ι Id} {replies : List (Reply Id)} {id id' : Id}
    (here : r.upstream = .transfer host c id' offset)
    (next : upcoming r replies = some (id, off, d)) :
    replies = [.rdb d] ∧ id' = id ∧ offset = off := by
  unfold upcoming at next
  split at next
  · rename_i other
    cases here.symm.trans other
  · rename_i other
    cases here.symm.trans other
  · rename_i other
    cases here.symm.trans other
  · rename_i other
    cases here.symm.trans other
    simp only [Option.some.injEq, Prod.mk.injEq] at next
    exact ⟨by rw [next.2.2], next.1, next.2.1⟩
  · cases next

/-- On a link that is up, the answers were read. -/
theorem Link.up {r n : Node ι Id} {k : Conn ι Id} (link : Link T r n c k)
    (here : r.upstream = .connected host d m) :
    k.replies = [] ∧ k.request = none ∧ k.master ≠ k.replica ∧
      r.dataset ++ k.stream <+: (T r.replid).log ∧
      (∀ a ∈ k.acks, a ≤ r.backlog.master_repl_offset) ∧
      ∀ s ∈ n.slaves, s.conn = c → s.replstate = .online ∧ n.replid = r.replid ∧
        n.dataset = r.dataset ++ k.stream ++ s.output ∧
          s.repl_ack_off ≤ max 0 r.backlog.master_repl_offset := by
  cases link with
  | asked other | refused other | waiting other => cases here.symm.trans other
  | announced other => simp [Psync.announced, here] at other
  | flowing next request other isPrefix offset quiet acks held slaves =>
    obtain ⟨replies, rfl, rfl, rfl⟩ := upcoming_connected here next
    refine ⟨replies, request, other, isPrefix, acks, fun s member own => ?_⟩
    obtain ⟨online, id, whole, acked, -⟩ := slaves s member own
    exact ⟨online, id, whole, acked⟩

theorem Link.of_up {r n : Node ι Id} {k : Conn ι Id} (here : r.upstream = .connected host c m)
    (replies : k.replies = []) (request : k.request = none) (other : k.master ≠ k.replica)
    (isPrefix : r.dataset ++ k.stream <+: (T r.replid).log)
    (offset : r.backlog.master_repl_offset = (T r.replid).base + r.dataset.length)
    (acks : ∀ a ∈ k.acks, a ≤ r.backlog.master_repl_offset)
    (slaves : ∀ s ∈ n.slaves, s.conn = c → s.replstate = .online ∧ n.replid = r.replid ∧
      n.dataset = r.dataset ++ k.stream ++ s.output ∧
        s.repl_ack_off ≤ max 0 r.backlog.master_repl_offset) : Link T r n c k := by
  have next : upcoming r k.replies = some (r.replid, r.backlog.master_repl_offset, r.dataset) := by
    simp only [upcoming, here, replies]
  refine .flowing next request other isPrefix offset (absurd replies) acks
    (fun member => by simp [replies] at member) fun s member own => ?_
  obtain ⟨online, id, whole, acked⟩ := slaves s member own
  exact ⟨online, id, whole, acked, absurd replies⟩

/-- Only the replica on connection `c` is changed. -/
theorem Serves.elsewhere {n : Node ι Id} {f : Slave → Slave} (conn : ∀ s, (f s).conn = s.conn)
    (other : d ≠ c) :
    Serves d n { n with slaves := n.slaves.map fun s => if s.conn = c then f s else s } := by
  intro s' member own
  obtain ⟨s, there, rfl⟩ := List.mem_map.mp member
  split_ifs at own ⊢ with this
  · exact absurd (own.symm.trans ((conn s).trans this)) other
  · exact ⟨s, there, own, rfl, rfl, rfl, rfl, [], by simp, by simp⟩

theorem map_conn {f : Slave → Slave} (conn : ∀ s, (f s).conn = s.conn) (slaves : List Slave)
    (c : ℕ) : (slaves.map fun s => if s.conn = c then f s else s).map Slave.conn =
      slaves.map Slave.conn := by
  rw [List.map_map]
  refine List.map_congr_left fun s _ => ?_
  simp only [Function.comp_apply]
  split_ifs
  · exact conn s
  · rfl

section World
variable [DecidableEq ι] [DecidableEq Id] {w : World ι Id}

omit [DecidableEq ι] [DecidableEq Id] in
theorem Inv.only (inv : Inv T w) (there : s ∈ (w.nodes n).slaves) (member : t ∈ (w.nodes n).slaves)
    (same : s.conn = t.conn) : s = t :=
  List.inj_on_of_nodup_map (inv.distinct n) there member same

omit [DecidableEq Id] in
/-- A step of one server on one connection, at either end of it. -/
theorem Inv.exchange (inv : Inv T w) (i : ι) {x : Node ι Id} {k k' : Conn ι Id}
    (there : w.conns c = some k) (ends : k'.replica = k.replica ∧ k'.master = k.master)
    (request : k.request = none → k'.request = none) (sound : x.Sound T)
    (alone : x.upstream = .standalone →
      (w.nodes i).upstream = .standalone ∧ x.replid = (w.nodes i).replid)
    (lonely : x.Lonely → (w.nodes i).Lonely ∧ x.replid = (w.nodes i).replid)
    (mentions : ∀ id, x.Mentions id → w.Mentions i id)
    (replies : ∀ reply ∈ k'.replies, ∀ id, reply.replid = some id →
      (∃ reply ∈ k.replies, reply.replid = some id) ∨ id = (w.nodes i).replid ∧ ¬ x.Lonely)
    (conn : ∀ d, x.upstream.conn = some d → (w.nodes i).upstream.conn = some d)
    (own : ∀ d, d ≠ c → x.upstream.conn = some d → Alike (w.nodes i) x)
    (serves : ∀ d, d ≠ c → Serves d (w.nodes i) x)
    (link : ∀ r, ((w.put i x).nodes r).upstream.conn = some c → k.replica = r →
      Link T (w.nodes r) (w.nodes k.master) c k →
      Link T ((w.put i x).nodes r) ((w.put i x).nodes k.master) c k')
    (slaves : ∀ s ∈ x.slaves, (∃ s' ∈ (w.nodes i).slaves, s'.conn = s.conn) ∨
      s.conn = c ∧ k.master = i ∧ k'.request = none)
    (distinct : (x.slaves.map Slave.conn).Nodup) : Inv T ((w.put i x).set c k') := by
  have upstream : ∀ j d, ((w.put i x).nodes j).upstream.conn = some d →
      (w.nodes j).upstream.conn = some d := by
    intro j d here
    by_cases same : j = i
    · subst same
      exact conn d (by simpa using here)
    · rwa [put_other same] at here
  have mentioned : ∀ j id, ((w.put i x).set c k').Mentions j id → w.Mentions j id ∨
      id = (w.nodes i).replid ∧ ¬ x.Lonely := by
    intro j id known
    rcases known with kept | ⟨d, l, link, reply, member, names⟩
    · by_cases same : j = i
      · subst same
        exact .inl (mentions id (by simpa using kept))
      · rw [set_nodes, put_other same] at kept
        exact .inl (.inl kept)
    · obtain ⟨here, found⟩ := link_eq_some.mp link
      have before := upstream j d here
      by_cases this : d = c
      · subst this
        rw [set_self] at found
        cases found
        refine (replies reply member id names).imp_left fun heard => ?_
        exact .inr ⟨d, k, link_eq_some.mpr ⟨before, there⟩, heard⟩
      · rw [set_other this] at found
        exact .inl (.inr ⟨d, l, link_eq_some.mpr ⟨before, found⟩, reply, member, names⟩)
  refine inv.step i (fun j other => by rw [set_nodes, put_other other]) ?_ (by simpa using sound)
    (fun _ _ _ _ => .refl _ _) (fun _ _ _ => rfl) ?_ ?_ ?_ ?_ ?_ (by simpa using distinct)
  · intro d l here
    by_cases this : d = c
    · subst this
      cases here.symm.trans there
      exact ⟨k', set_self _ _ _, ends.2, request⟩
    · exact ⟨l, by rwa [set_other this], rfl, fun none => none⟩
  · simp only [set_nodes, put_self]
    exact fun here j other alone' same =>
      other (inv.owners j i alone' (alone here).1 (same.trans (alone here).2))
  · simp only [set_nodes, put_self]
    intro here j other known
    rcases mentioned j _ known with before | ⟨-, not⟩
    · exact inv.hidden i (lonely here).1 j other ((lonely here).2 ▸ before)
    · exact not here
  · intro j id known
    refine (mentioned j id known).imp_right fun ⟨same, _⟩ l other lonely' equal => ?_
    exact inv.hidden l lonely' i (Ne.symm other) (.inl (.inl (same.symm.trans equal.symm)))
  · intro r d here
    simp only [set_nodes] at here ⊢
    obtain ⟨l, found, replica, before⟩ := inv.link r d (upstream r d here)
    by_cases this : d = c
    · subst this
      cases found.symm.trans there
      refine ⟨k', set_self _ _ _, ends.1.trans replica, ?_⟩
      rw [ends.2]
      exact link r here replica before
    · have served : ∀ n, Serves d (w.nodes n) ((w.put i x).nodes n) := by
        intro n
        by_cases same : n = i
        · subst same
          rw [put_self]
          exact serves d this
        · exact .same (by rw [put_other same]) (by rw [put_other same]) (by rw [put_other same])
      refine ⟨l, by rwa [set_other this], replica, ?_⟩
      refine Link.kept ?_ (fun _ _ => .refl _ _) (served _)
      by_cases same : r = i
      · subst same
        rw [put_self] at here ⊢
        exact before.alike (own d this here)
      · rwa [put_other same]
  · simp only [set_nodes, put_self]
    intro s member
    rcases slaves s member with ⟨s', before, same⟩ | ⟨same, master, none⟩
    · obtain ⟨l, found, master, none⟩ := inv.slaves i s' before
      rw [same] at found
      by_cases this : s.conn = c
      · rw [this, there] at found
        cases found
        exact ⟨k', by rw [this, set_self], ends.2.trans master, request none⟩
      · exact ⟨l, by rwa [set_other this], master, none⟩
    · exact ⟨k', by rw [same, set_self], ends.2.trans master, none⟩

omit [DecidableEq Id] in
theorem sendAck_inv (inv : Inv T w) (link : w.link r = some (c, k))
    (here : (w.nodes r).upstream = .connected host d m) :
    Inv T (w.set c { k with acks := k.acks ++ [m.reploff] }) := by
  obtain ⟨open_, there⟩ := link_eq_some.mp link
  have unchanged : w.put r (w.nodes r) = w := by simp [World.put, Function.update_eq_self]
  rw [← unchanged]
  refine inv.exchange r there ⟨rfl, rfl⟩ id (inv.node r) (fun alone => ⟨alone, rfl⟩)
    (fun lonely => ⟨lonely, rfl⟩) (fun _ known => .inl known)
    (fun reply member _ names => .inl ⟨reply, member, names⟩) (fun _ => id)
    (fun _ _ _ => ⟨rfl, rfl, rfl, rfl, id⟩) (fun _ _ => .same rfl rfl rfl) ?_
    (fun s member => .inl ⟨s, member, rfl⟩) (inv.distinct r)
  rw [unchanged]
  intro r' used replica before
  obtain ⟨k', found, mine, -⟩ := inv.link r c open_
  cases found.symm.trans there
  cases replica.symm.trans mine
  rw [here] at open_
  cases open_
  obtain ⟨replies, request, other, isPrefix, acks, slaves⟩ := before.up here
  have reploff := ((inv.node r).master m (by rw [here]; rfl)).2
  have coherent : ¬ (w.nodes r).Adrift := fun adrift => by
    simpa [adrift.1] using (inv.node r).connected _ _ _ here
  refine .of_up here replies request other isPrefix ((inv.node r).offset coherent) ?_ slaves
  intro a member
  rcases List.mem_append.mp member with old | new
  · exact acks a old
  · exact Int.le_of_eq ((List.mem_singleton.mp new).trans reploff)

omit [DecidableEq Id] in
theorem replconfAck_inv (inv : Inv T w) (there : w.conns c = some k) (next : k.acks = offset :: acks) :
    Inv T ((w.put k.master ((w.nodes k.master).replconfAck c offset)).set c
      { k with acks := acks }) := by
  have conn : ∀ s : Slave, ({ s with repl_ack_off := max s.repl_ack_off offset } : Slave).conn =
      s.conn := fun _ => rfl
  have among : ∀ s' ∈ ((w.nodes k.master).replconfAck c offset).slaves, ∃ s ∈ (w.nodes k.master).slaves,
      s'.conn = s.conn ∧ s'.replstate = s.replstate ∧ s'.output = s.output ∧
        s'.psync_initial_offset = s.psync_initial_offset ∧
        (s.conn = c → s'.repl_ack_off = max s.repl_ack_off offset) := by
    intro s' member
    obtain ⟨s, there, rfl⟩ := List.mem_map.mp member
    refine ⟨s, there, ?_⟩
    split_ifs with own
    · exact ⟨rfl, rfl, rfl, rfl, fun _ => rfl⟩
    · exact ⟨rfl, rfl, rfl, rfl, fun own' => absurd own' own⟩
  have sound := inv.node k.master
  refine inv.exchange k.master there ⟨rfl, rfl⟩ id ?_ (fun alone => ⟨alone, rfl⟩)
    (fun lonely => ⟨lonely, rfl⟩) (fun _ known => .inl known)
    (fun reply member _ names => .inl ⟨reply, member, names⟩) (fun _ => id)
    (fun _ _ _ => ⟨rfl, rfl, rfl, rfl, id⟩) (fun d other => .elsewhere conn other) ?_ ?_ ?_
  · exact { sound with
      attached := fun some => sound.attached fun none => some (by simp [Node.replconfAck, none])
      starts := fun s' member state => by
        obtain ⟨s, there, -, same, output, -⟩ := among s' member
        exact output.trans (sound.starts s there (same ▸ state))
      ends := fun s' member state => by
        obtain ⟨s, there, -, same, output, initial, -⟩ := among s' member
        rw [output, initial]
        exact sound.ends s there (same ▸ state) }
  · intro r used replica before
    have alike : ∀ j, Alike (w.nodes j)
        ((w.put k.master ((w.nodes k.master).replconfAck c offset)).nodes j) := by
      intro j
      by_cases same : j = k.master
      · subst same
        rw [put_self]
        exact ⟨rfl, rfl, rfl, rfl, id⟩
      · rw [put_other same]
        exact ⟨rfl, rfl, rfl, rfl, id⟩
    refine Link.alike ?_ (alike r)
    rw [put_self]
    cases before with
    | asked _ _ _ _ none | waiting _ _ _ _ none | announced _ _ _ none =>
      cases none.symm.trans next
    | refused here request replies apart =>
      refine .refused here request replies fun s' member own => ?_
      obtain ⟨s, there, same, -⟩ := among s' member
      exact apart s there (same.symm.trans own)
    | flowing here request other isPrefix off quiet bound held slaves =>
      have replies : k.replies = [] := by
        by_contra some
        cases (quiet some).symm.trans next
      have acked := bound offset (by simp [next])
      refine .flowing here request other isPrefix off (absurd replies)
        (fun a member => bound a (by rw [next]; exact List.mem_cons_of_mem _ member)) held ?_
      intro s' member own
      obtain ⟨s, there, same, state, output, -, ack⟩ := among s' member
      obtain ⟨online, id, whole, low, -⟩ := slaves s there (same.symm.trans own)
      rw [state, output, ack (same.symm.trans own)]
      exact ⟨online, id, whole, by omega, absurd replies⟩
  · intro s' member
    obtain ⟨s, there, same, -⟩ := among s' member
    exact .inl ⟨s, there, same.symm⟩
  · exact (map_conn conn _ _).symm ▸ inv.distinct k.master

omit [DecidableEq Id] in
theorem writeToClient_inv (inv : Inv T w) (there : w.conns c = some k)
    (written : (w.nodes n).written c len = some (buf, slaves)) :
    Inv T ((w.put n { w.nodes n with slaves := slaves }).set c
      { k with stream := k.stream ++ buf }) := by
  simp only [Node.written, Option.map_eq_some_iff, Prod.mk.injEq] at written
  obtain ⟨s, found, rfl, rfl⟩ := written
  have listed := List.mem_of_find?_eq_some found
  have chosen := List.find?_some found
  simp only [decide_eq_true_eq] at chosen
  obtain ⟨own, online⟩ := chosen
  obtain ⟨k', here, master, request⟩ := inv.slaves n s listed
  rw [own, there] at here
  cases here
  -- the only replica on this connection is the one written to
  have only : ∀ t ∈ (w.nodes n).slaves, t.conn = c → t = s := fun t member same =>
    inv.only member listed (same.trans own.symm)
  have conn : ∀ t : Slave, ({ t with output := t.output.drop len } : Slave).conn = t.conn :=
    fun _ => rfl
  have sound := inv.node n
  have unlike : ∀ t ∈ (w.nodes n).slaves, t.replstate ≠ .online → t.conn ≠ c := by
    rintro t member state same
    exact state (only t member same ▸ online)
  refine inv.exchange n there ⟨rfl, rfl⟩ (fun _ => request) ?_ (fun alone => ⟨alone, rfl⟩)
    (fun lonely => ⟨lonely, rfl⟩) (fun _ known => .inl known)
    (fun reply member _ names => .inl ⟨reply, member, names⟩) (fun _ => id)
    (fun _ _ _ => ⟨rfl, rfl, rfl, rfl, id⟩) (fun d other => .elsewhere conn other) ?_ ?_ ?_
  · exact { sound with
      attached := fun some => sound.attached fun none => some (by simp [none])
      starts := fun t' member state => by
        obtain ⟨t, before, rfl⟩ := List.mem_map.mp member
        split_ifs at state ⊢ with same
        · exact absurd same (unlike t before (by simp [show t.replstate = _ from state]))
        · exact sound.starts t before state
      ends := fun t' member state => by
        obtain ⟨t, before, rfl⟩ := List.mem_map.mp member
        split_ifs at state ⊢ with same
        · exact absurd same (unlike t before (by simp [show t.replstate = _ from state]))
        · exact sound.ends t before state }
  · intro r used replica before
    have alike : ∀ x, Alike (w.nodes r) ((w.put n { w.nodes n with slaves := x }).nodes r) := by
      intro x
      by_cases same : r = n
      · subst same
        rw [put_self]
        exact ⟨rfl, rfl, rfl, rfl, id⟩
      · rw [put_other same]
        exact ⟨rfl, rfl, rfl, rfl, id⟩
    refine Link.alike ?_ (alike _)
    rw [master, put_self]
    rw [master] at before
    cases before with
    | asked _ asks => cases request.symm.trans asks
    | refused _ _ _ apart => exact absurd own (apart s listed)
    | waiting _ _ _ _ _ _ slaves => cases online.symm.trans (slaves s listed own).1
    | announced _ _ _ _ _ slaves => cases online.symm.trans (slaves s listed own).1
    | flowing here request other isPrefix off quiet bound held slaves =>
      obtain ⟨-, id, whole, acked, fresh⟩ := slaves s listed own
      have isPrefix' : (w.nodes n).dataset <+: (T (w.nodes n).replid).log := by
        refine sound.dataset fun adrift => ?_
        simpa [adrift.1] using sound.attached (List.ne_nil_of_mem listed)
      rw [id] at isPrefix'
      refine .flowing here request (fun same => other (master.trans same)) ?_ off quiet bound held ?_
      · refine List.IsPrefix.trans ⟨s.output.drop len, ?_⟩ isPrefix'
        rw [whole]
        simp only [List.append_assoc, List.take_append_drop]
      · intro t' member same
        obtain ⟨t, before, rfl⟩ := List.mem_map.mp member
        split_ifs at same ⊢ with this
        · cases only t before this
          refine ⟨online, id, ?_, acked, fresh⟩
          rw [whole]
          simp only [List.append_assoc, List.take_append_drop]
        · exact absurd same this
  · intro t' member
    obtain ⟨t, before, rfl⟩ := List.mem_map.mp member
    refine .inl ⟨t, before, ?_⟩
    split_ifs <;> rfl
  · exact (map_conn conn _ _).symm ▸ inv.distinct n

omit [DecidableEq Id] in
theorem apply_inv (inv : Inv T w) (link : w.link r = some (c, k))
    (here : (w.nodes r).upstream = .connected host d m) (len : ℕ) :
    Inv T ((w.put r ((w.nodes r).apply (k.stream.take len))).set c
      { k with stream := k.stream.drop len }) := by
  obtain ⟨open_, there⟩ := link_eq_some.mp link
  obtain ⟨k', found, mine, before⟩ := inv.link r c open_
  cases found.symm.trans there
  rw [here] at open_
  cases open_
  obtain ⟨replies, request, other, isPrefix, acks, slaves⟩ := before.up here
  have sound := inv.node r
  have had := sound.connected _ _ _ here
  have coherent : ¬ (w.nodes r).Adrift := fun adrift => by simp [adrift.1] at had
  have offset := sound.offset coherent
  obtain ⟨buf, this⟩ : ∃ buf, buf = k.stream.take len := ⟨_, rfl⟩
  have split : k.stream = buf ++ k.stream.drop len := by rw [this, List.take_append_drop]
  have applied : (w.nodes r).apply buf = { (w.nodes r).call buf with
      upstream := .connected host c { m with reploff := m.reploff + buf.length } } := by
    simp only [Node.apply, here]
  have counted := (Node.feed_offset had buf).1
  rw [← this, applied]
  have fed : ({ (w.nodes r).call buf with
      upstream := .connected host c { m with reploff := m.reploff + buf.length } } :
      Node ι Id).Sound T := by
    refine sound.call had coherent (fun _ _ => .refl _ _) ?_ nofun ?_ (fun _ _ _ _ => nofun)
    · refine List.IsPrefix.trans ⟨k.stream.drop len, ?_⟩ isPrefix
      rw [List.append_assoc, ← split]
    · intro m' same
      cases same
      obtain ⟨replid, reploff⟩ := sound.master m (by rw [here]; rfl)
      exact ⟨replid, by rw [reploff]⟩
  have kept : ¬ (w.nodes r).Lonely := fun lonely => by simp [lonely.1] at had
  refine inv.exchange r there ⟨rfl, rfl⟩ id fed nofun ?_ ?_
    (fun reply member _ names => .inl ⟨reply, member, names⟩) ?_ ?_
    (fun d _ => Node.call_serves _ _ _ d) ?_ ?_ ?_
  · intro lonely
    have some := (Node.feed_offset had buf).2.2
    exact absurd lonely.1 (Option.isSome_iff_ne_none.mp some)
  · intro id known
    rcases known with same | same | same
    · exact .inl (.inl same)
    · exact .inl (.inr (.inl same))
    · cases same
  · intro d same
    rw [here]
    exact same
  · intro d away same
    cases same
    exact absurd rfl away
  · intro r' used replica before'
    cases replica.symm.trans mine
    rw [put_self, put_other (by rwa [mine] at other)]
    refine .of_up rfl replies request other ?_ (fed.offset fun adrift => ?_) ?_ ?_
    · change ((w.nodes r).dataset ++ buf) ++ k.stream.drop len <+: _
      rw [List.append_assoc, ← split]
      exact isPrefix
    · exact Option.isSome_iff_ne_none.mp (Node.feed_offset had buf).2.2 adrift.1
    · intro a member
      have low := acks a member
      change a ≤ ((w.nodes r).backlog.feedReplicationBacklog buf).master_repl_offset
      omega
    · intro s member own
      obtain ⟨online, id, whole, acked⟩ := slaves s member own
      refine ⟨online, id, ?_, ?_⟩
      · change _ = ((w.nodes r).dataset ++ buf) ++ k.stream.drop len ++ s.output
        rw [whole, List.append_assoc (w.nodes r).dataset buf, ← split]
      · change _ ≤ max 0 ((w.nodes r).backlog.feedReplicationBacklog buf).master_repl_offset
        omega
  · intro s' member
    obtain ⟨s, there, rfl⟩ := List.mem_map.mp member
    exact .inl ⟨s, there, (Node.feed_conn buf s).symm⟩
  · exact (Node.map_feed_conn buf _).symm ▸ inv.distinct r

/-- Where the replica does not know yet how it is resynchronized, or how it was. -/
theorem readReply_inv (inv : Inv T w) (link : w.link r = some (c, k))
    (next : k.replies = reply :: replies) (read : (w.nodes r).readReply reply = some x) :
    Inv T ((w.put r x).set c { k with replies := replies }) := by
  obtain ⟨open_, there⟩ := link_eq_some.mp link
  obtain ⟨k', found, mine, before⟩ := inv.link r c open_
  cases found.symm.trans there
  have sound := inv.node r
  have heard : ∀ id, reply.replid = some id → w.Mentions r id := fun id names =>
    .inr ⟨c, k, link, reply, by simp [next], names⟩
  have tail : ∀ reply' ∈ replies, ∀ id, reply'.replid = some id →
      (∃ reply ∈ k.replies, reply.replid = some id) ∨
        id = (w.nodes r).replid ∧ ¬ x.Lonely := fun reply' member id names =>
    .inl ⟨reply', by rw [next]; exact List.mem_cons_of_mem _ member, names⟩
  cases reply with
  | tryLater =>
    simp only [Node.readReply] at read
    split at read
    · rename_i host d cached here
      cases read
      refine inv.exchange r there ⟨rfl, rfl⟩ (fun none => none) ?_ (fun here => by cases here) ?_ ?_
        tail (fun _ here => by cases here) (fun _ _ here => by cases here)
        (fun _ _ => .same rfl rfl rfl) ?_ (fun s member => .inl ⟨s, member, rfl⟩) (inv.distinct r)
      · refine sound.seeking (.inl ⟨_, _, rfl⟩) ?_ fun m same => sound.master m (by rw [here]; exact same)
        rintro calm ⟨none, -, master⟩
        rw [here] at master
        exact calm ⟨none, by simp [Upstream.masterhost], master⟩
      · rintro ⟨none, calm⟩
        refine ⟨⟨none, ?_⟩, rfl⟩
        rintro ⟨-, -, master⟩
        rw [here] at master
        exact calm ⟨none, by simp [Upstream.masterhost], master⟩
      · intro id known
        rcases known with same | same | same
        · exact .inl (.inl same)
        · exact .inl (.inr (.inl same))
        · cases same
      · intro r' used replica
        cases replica.symm.trans mine
        rw [put_self] at used
        cases used
    · cases read
  | fullResync replid offset =>
    simp only [Node.readReply] at read
    split at read
    · rename_i host d cached here
      cases read
      have own : d = c := by simpa [here, Upstream.conn] using open_
      subst own
      have adrift : ({ (w.nodes r).disconnectSlaves with
          backlog := (w.nodes r).backlog.freeReplicationBacklog
          upstream := .transfer host d replid offset } : Node ι Id).Adrift :=
        ⟨rfl, by simp [Upstream.masterhost], rfl⟩
      refine inv.exchange r there ⟨rfl, rfl⟩ (fun none => none) ?_ (fun here => by cases here)
        (fun lonely => absurd adrift lonely.2) ?_ tail ?_ ?_ (fun _ _ => .none rfl) ?_
        (fun _ member => by cases member) List.nodup_nil
      · exact {
          size := sound.size
          dataset := fun calm => absurd adrift calm
          offset := fun calm => absurd adrift calm
          owned := fun here => by cases here
          shared := fun held => by cases held
          master := fun _ here => by cases here
          keeps := fun held => by cases held
          attached := fun some => absurd rfl some
          transferring := fun _ _ _ _ _ => rfl
          connected := fun _ _ _ here => by cases here
          starts := fun _ member => by cases member
          ends := fun _ member => by cases member }
      · intro id known
        rcases known with same | same | same
        · exact .inl (.inl same)
        · exact .inl (.inr (.inl same))
        · exact heard id same
      · exact fun e same => by rw [here]; exact same
      · intro e away same
        cases same
        exact absurd rfl away
      · intro r' used replica _
        cases replica.symm.trans mine
        rw [put_self]
        cases before with
        | asked _ _ none | waiting _ _ none => cases none.symm.trans next
        | refused _ _ only => cases only.symm.trans next
        | announced names request stream acks other slaves =>
          rw [put_other (by rwa [mine] at other)]
          rw [here, next] at names
          cases replies with
          | cons => simp [Psync.announced] at names
          | nil => exact .announced names request stream acks other slaves
        | flowing upcoming' request other isPrefix off quiet acks held slaves =>
          rw [put_other (by rwa [mine] at other)]
          rcases upcoming_answer here upcoming' with ⟨only, -⟩ | both
          · cases only.symm.trans next
          · cases both.symm.trans next
            have none := quiet (by simp [next])
            refine .flowing (by rfl) request other isPrefix off (fun _ => none) acks
              (fun member => by simp at member) fun s member own => ?_
            obtain ⟨online, id, whole, acked, fresh⟩ := slaves s member own
            exact ⟨online, id, whole, acked, fun _ => fresh (by simp [next])⟩
    · cases read
  | resume replid =>
    have answered := read
    simp only [Node.readReply] at read
    split at read
    swap
    · cases read
    rename_i host d m here
    have own : d = c := by simpa [here, Upstream.conn] using open_
    subst own
    cases before with
    | asked _ _ none | waiting _ _ none => cases none.symm.trans next
    | refused _ _ only => cases only.symm.trans next
    | announced names => simp [Psync.announced, here, next] at names
    | flowing upcoming' request other isPrefix off quiet acks held slaves =>
      rcases upcoming_answer here upcoming' with ⟨only, rfl, rfl⟩ | both
      swap
      · cases both.symm.trans next
      cases only.symm.trans next
      have had := held (by simp [next])
      obtain ⟨named, reploff⟩ := sound.master m (by rw [here]; rfl)
      obtain ⟨resumed, up⟩ := Node.readReply_resume here named had answered
      rw [reploff] at up
      have log : (w.nodes r).dataset <+: (T replid).log := (List.prefix_append _ _).trans isPrefix
      have calm := resumed.sound sound had up log off
      refine inv.exchange r there ⟨rfl, rfl⟩ (fun none => none) calm
        (fun alone => by simp [up] at alone) ?_ ?_ tail ?_ ?_ ?_ ?_ ?_ ?_
      · intro lonely
        have some := calm.connected _ _ _ up
        simp [lonely.1] at some
      · intro id known
        rcases known with same | same | same
        · exact heard id (by rw [← same, resumed.replid]; rfl)
        · rcases resumed.second id same with ⟨before, -⟩ | ⟨same', -⟩
          · exact .inl (.inr (.inl before))
          · exact .inl (.inl same'.symm)
        · simp [up, Upstream.incoming] at same
      · intro e same
        rw [up] at same
        rw [here]
        exact same
      · intro e away same
        rw [up] at same
        cases same
        exact absurd rfl away
      · intro e _
        rcases resumed.slaves with none | ⟨same, same'⟩
        · exact .none none
        · exact .same same (resumed.replid.trans same') resumed.dataset
      · intro r' used replica _
        cases replica.symm.trans mine
        rw [put_self, put_other (by rwa [mine] at other)]
        refine .of_up up rfl request other ?_ (calm.offset fun adrift => ?_) ?_ ?_
        · rw [resumed.dataset, resumed.replid]
          exact isPrefix
        · have absent := adrift.1
          rw [resumed.backlog] at absent
          simp [absent] at had
        · rw [resumed.backlog]
          exact acks
        · intro s member own
          obtain ⟨online, id, whole, acked, -⟩ := slaves s member own
          rw [resumed.replid, resumed.dataset, resumed.backlog]
          exact ⟨online, id, whole, acked⟩
      · rcases resumed.slaves with none | ⟨same, -⟩
        · simp [none]
        · rw [same]
          exact fun s member => .inl ⟨s, member, rfl⟩
      · rcases resumed.slaves with none | ⟨same, -⟩
        · simp [none]
        · rw [same]
          exact inv.distinct r
  | rdb dataset =>
    simp only [Node.readReply] at read
    split at read
    swap
    · cases read
    rename_i host d replid offset here
    have own : d = c := by simpa [here, Upstream.conn] using open_
    subst own
    cases read
    have absent := sound.transferring _ _ _ _ here
    have empty := sound.no_slaves absent
    cases before with
    | asked other | refused other | waiting other => cases here.symm.trans other
    | announced names => simp [Psync.announced, here, next] at names
    | flowing upcoming' request other isPrefix off quiet acks held slaves =>
      obtain ⟨only, rfl, rfl⟩ := upcoming_transfer here upcoming'
      cases only.symm.trans next
      have created : Node.ensureBacklog { (w.nodes r).backlog with master_repl_offset := offset } =
          ({ (w.nodes r).backlog with master_repl_offset := offset } :
            Backlog).createReplicationBacklog := if_pos absent
      have log : dataset <+: (T replid).log := (List.prefix_append _ _).trans isPrefix
      have calm : ({ (w.nodes r).clearReplicationId2 with
          replid := replid
          upstream := .connected host d ⟨replid, offset⟩
          backlog := Node.ensureBacklog { (w.nodes r).backlog with master_repl_offset := offset }
          dataset := dataset } : Node ι Id).Sound T := by
        rw [created]
        exact {
          size := sound.size
          dataset := fun _ => log
          offset := fun _ => off
          owned := fun here => by cases here
          shared := fun _ _ second => by cases second
          master := fun m same => by
            cases same
            exact ⟨rfl, rfl⟩
          keeps := fun _ => ⟨[], Backlog.create_keeps sound.size, List.nil_suffix⟩
          attached := fun _ => rfl
          transferring := fun _ _ _ _ here => by cases here
          connected := fun _ _ _ _ => rfl
          starts := fun s member => by
            have among : s ∈ (w.nodes r).slaves := member
            simp [empty] at among
          ends := fun s member => by
            have among : s ∈ (w.nodes r).slaves := member
            simp [empty] at among }
      refine inv.exchange r there ⟨rfl, rfl⟩ (fun none => none) calm (fun here => by cases here)
        ?_ ?_ tail ?_ ?_ (fun e _ => .none empty) ?_ (fun s member => .inl ⟨s, member, rfl⟩) (inv.distinct r)
      · intro lonely
        have had := calm.connected _ _ _ rfl
        exact absurd lonely.1 (Option.isSome_iff_ne_none.mp had)
      · intro id known
        rcases known with same | same | same
        · exact .inl (.inr (.inr (by rw [here, ← same]; rfl)))
        · cases same
        · cases same
      · intro e same
        rw [here]
        exact same
      · intro e away same
        cases same
        exact absurd rfl away
      · intro r' used replica _
        cases replica.symm.trans mine
        have counted : (Node.ensureBacklog
            { (w.nodes r).backlog with master_repl_offset := offset }).master_repl_offset = offset := by
          rw [created]
          rfl
        rw [put_self, put_other (by rwa [mine] at other)]
        refine .of_up rfl rfl request other isPrefix (counted.trans off) ?_ ?_
        · intro a member
          exact Int.le_trans (acks a member) (Int.le_of_eq counted.symm)
        · intro s member own
          obtain ⟨online, id, whole, acked, -⟩ := slaves s member own
          exact ⟨online, id, whole, by rw [counted]; exact acked⟩

omit [DecidableEq Id] in
theorem connectWithMaster_inv (inv : Inv T w) (here : (w.nodes r).upstream = .connect host cached)
    (free : w.conns c = none) :
    Inv T ((w.put r { w.nodes r with upstream := .receivePsyncReply host c cached }).set c
      ⟨r, host, some (cached.map fun m => (m.replid, m.reploff + 1)), [], [], []⟩) := by
  have sound := inv.node r
  have adrift : ({ w.nodes r with upstream := .receivePsyncReply host c cached } : Node ι Id).Adrift ↔
      (w.nodes r).Adrift := by
    simp only [Node.Adrift, here, Upstream.masterhost, Upstream.master]
  have used : ∀ d k, w.conns d = some k → d ≠ c := by
    rintro d k found rfl
    cases free.symm.trans found
  have known : ∀ j id, ((w.put r { w.nodes r with upstream := .receivePsyncReply host c cached }).set c
      ⟨r, host, some (cached.map fun m => (m.replid, m.reploff + 1)), [], [], []⟩).Mentions j id →
      w.Mentions j id := by
    intro j id known
    rcases known with kept | ⟨d, k, link, reply, member, names⟩
    · by_cases same : j = r
      · subst same
        rw [set_nodes, put_self] at kept
        rcases kept with same | same | same
        · exact .inl (.inl same)
        · exact .inl (.inr (.inl same))
        · cases same
      · rw [set_nodes, put_other same] at kept
        exact .inl kept
    · obtain ⟨open_, found⟩ := link_eq_some.mp link
      by_cases this : d = c
      · subst this
        rw [set_self] at found
        cases found
        cases member
      · rw [set_other this, put_conns] at found
        by_cases same : j = r
        · subst same
          rw [set_nodes, put_self] at open_
          exact absurd (Option.some.inj open_).symm this
        · rw [set_nodes, put_other same] at open_
          exact .inr ⟨d, k, link_eq_some.mpr ⟨open_, found⟩, reply, member, names⟩
  refine inv.step r (fun j other => by rw [set_nodes, put_other other]) ?_ ?_
    (fun _ _ _ _ => .refl _ _) (fun _ _ _ => rfl) ?_ ?_ (fun j id there => .inl (known j id there))
    ?_ ?_ ?_
  · intro d k found
    exact ⟨k, by rwa [set_other (used d k found)], rfl, fun none => none⟩
  · rw [set_nodes, put_self]
    exact sound.seeking (.inr ⟨_, _, _, rfl⟩) (fun calm back => calm (adrift.mpr back))
      fun m same => sound.master m (by rw [here]; exact same)
  · rw [set_nodes, put_self]
    intro here
    cases here
  · rw [set_nodes, put_self]
    intro lonely j other there
    exact inv.hidden r ⟨lonely.1, fun back => lonely.2 (adrift.mpr back)⟩ j other (known j _ there)
  · intro j d open_
    by_cases same : j = r
    · subst same
      rw [set_nodes, put_self] at open_ ⊢
      cases open_
      exact ⟨_, set_self _ _ _, rfl, .asked rfl rfl rfl rfl rfl⟩
    · rw [set_nodes, put_other same] at open_ ⊢
      obtain ⟨k, found, replica, before⟩ := inv.link j d open_
      refine ⟨k, by rwa [set_other (used d k found)], replica, before.kept (fun _ _ => .refl _ _) ?_⟩
      by_cases master : k.master = r
      · rw [master, put_self]
        exact .same rfl rfl rfl
      · rw [put_other master]
        exact .same rfl rfl rfl
  · rw [set_nodes, put_self]
    intro s member
    obtain ⟨k, found, facts⟩ := inv.slaves r s member
    exact ⟨k, by rwa [set_other (used _ k found)], facts⟩
  · rw [set_nodes, put_self]
    exact inv.distinct r

omit [DecidableEq Id] in
/-- The server that was asked makes the client one of its replicas, and answers. -/
theorem attach_inv (inv : Inv T w) (there : w.conns c = some k) (asks : k.request = some request)
    {s : Slave} (own : s.conn = c) (serves : (w.nodes k.master).upstream.serves)
    (had : (w.nodes k.master).backlog.repl_backlog.isSome) (replies : List (Reply Id))
    (starts : s.replstate = .waitBgsaveStart → s.output = [])
    (ends : s.replstate = .waitBgsaveEnd → ∃ child, (w.nodes k.master).child = some child ∧
      child.dataset ++ s.output = (w.nodes k.master).dataset ∧
        s.psync_initial_offset + s.output.length = (w.nodes k.master).backlog.master_repl_offset)
    (names : ∀ reply ∈ replies, ∀ id, reply.replid = some id → id = (w.nodes k.master).replid)
    (link : ∀ host cached, (w.nodes k.replica).upstream = .receivePsyncReply host c cached →
      k.request = some (cached.map fun m => (m.replid, m.reploff + 1)) → k.stream = [] →
      k.acks = [] → k.master ≠ k.replica →
      (∀ t ∈ (w.nodes k.master).slaves ++ [s], t.conn = c → t = s) →
      Link T (w.nodes k.replica) { w.nodes k.master with slaves := (w.nodes k.master).slaves ++ [s] } c
        { k with request := none, replies := replies }) :
    Inv T ((w.put k.master { w.nodes k.master with slaves := (w.nodes k.master).slaves ++ [s] }).set c
      { k with request := none, replies := k.replies ++ replies }) := by
  have unused : ∀ t ∈ (w.nodes k.master).slaves, t.conn ≠ c := by
    rintro t member same
    obtain ⟨k', found, -, none⟩ := inv.slaves _ t member
    rw [same, there] at found
    cases found
    cases none.symm.trans asks
  have only : ∀ t ∈ (w.nodes k.master).slaves ++ [s], t.conn = c → t = s := by
    intro t member same
    rcases List.mem_append.mp member with old | new
    · exact absurd same (unused t old)
    · exact List.mem_singleton.mp new
  refine inv.exchange k.master there ⟨rfl, rfl⟩ (fun _ => rfl)
    ((inv.node k.master).attach had starts ends) (fun alone => ⟨alone, rfl⟩)
    (fun lonely => ⟨lonely, rfl⟩) (fun _ known => .inl known) ?_ (fun _ same => same)
    (fun _ _ _ => ⟨rfl, rfl, rfl, rfl, fun some => some⟩) ?_ ?_ ?_ ?_
  · intro reply member id named
    rcases List.mem_append.mp member with old | new
    · exact .inl ⟨reply, old, named⟩
    · exact .inr ⟨names reply new id named, fun lonely =>
        absurd lonely.1 (Option.isSome_iff_ne_none.mp had)⟩
  · intro d other t member same
    rcases List.mem_append.mp member with old | new
    · exact ⟨t, old, same, rfl, rfl, rfl, rfl, [], by simp, by simp⟩
    · cases List.mem_singleton.mp new
      exact absurd (same.symm.trans own) other
  · intro r used replica before
    subst replica
    cases before with
    | asked here request' none stream acks =>
      have apart : k.master ≠ k.replica := by
        intro same
        rw [same, here] at serves
        cases serves
      rw [put_self, put_other (Ne.symm apart), none, List.nil_append]
      exact link _ _ here request' stream acks apart only
    | refused _ none | waiting _ none | announced _ none | flowing _ none =>
      cases none.symm.trans asks
  · intro t member
    rcases List.mem_append.mp member with old | new
    · exact .inl ⟨t, old, rfl⟩
    · cases List.mem_singleton.mp new
      exact .inr ⟨own, rfl, rfl⟩
  · rw [List.map_append, List.nodup_append]
    refine ⟨inv.distinct _, by simp, ?_⟩
    intro a before b after same
    obtain ⟨t, member, rfl⟩ := List.mem_map.mp before
    simp only [List.map_cons, List.map_nil, List.mem_singleton] at after
    exact unused t member (same.trans (after.trans own))

omit [DecidableEq Id] in
theorem refuse_inv (inv : Inv T w) (there : w.conns c = some k) (asks : k.request = some request) :
    Inv T ((w.put k.master (w.nodes k.master)).set c
      { k with request := none, replies := k.replies ++ [.tryLater] }) := by
  have unchanged : w.put k.master (w.nodes k.master) = w := by
    simp [World.put, Function.update_eq_self]
  refine inv.exchange k.master there ⟨rfl, rfl⟩ (fun _ => rfl) (inv.node _)
    (fun alone => ⟨alone, rfl⟩) (fun lonely => ⟨lonely, rfl⟩) (fun _ known => .inl known) ?_
    (fun _ same => same) (fun _ _ _ => ⟨rfl, rfl, rfl, rfl, fun some => some⟩)
    (fun _ _ => .same rfl rfl rfl) ?_ (fun s member => .inl ⟨s, member, rfl⟩) (inv.distinct _)
  · intro reply member id named
    rcases List.mem_append.mp member with old | new
    · exact .inl ⟨reply, old, named⟩
    · cases List.mem_singleton.mp new
      cases named
  · intro r used replica before
    rw [unchanged]
    cases before with
    | asked here request' none stream acks =>
      refine .refused here rfl (by rw [none, List.nil_append]) fun s member same => ?_
      obtain ⟨k', found, -, none⟩ := inv.slaves _ s member
      rw [same, there] at found
      cases found
      cases none.symm.trans asks
    | refused _ none | waiting _ none | announced _ none | flowing _ none =>
      cases none.symm.trans asks

/-- `syncCommand` on a server that answers: it grants a partial resynchronization, or the
replica waits for a save, its own or one that is under way. -/
theorem accept_inv {id : Id} (inv : Inv T w) (there : w.conns c = some k)
    (asks : k.request = some (some (id, psync_offset))) (serves : (w.nodes k.master).upstream.serves)
    (accepted : (w.nodes k.master).accepts (some (id, psync_offset))) :
    Inv T ((w.put k.master { w.nodes k.master with slaves := (w.nodes k.master).slaves ++
        [⟨c, .online, 0, 0,
          (w.nodes k.master).backlog.addReplyReplicationBacklog psync_offset⟩] }).set c
      { k with request := none, replies := k.replies ++ [.resume (w.nodes k.master).replid] }) := by
  have had : (w.nodes k.master).backlog.repl_backlog.isSome := by
    simp only [Node.accepts, Backlog.has, Bool.and_eq_true] at accepted
    exact accepted.2.1.1
  refine attach_inv inv there asks rfl serves had _ (fun here => by cases here)
    (fun here => by cases here) ?_ ?_
  · intro reply member id named
    cases List.mem_singleton.mp member
    exact (Option.some.inj named).symm
  · intro host cached here asked stream acks apart only
    rw [asks] at asked
    obtain ⟨m, rfl, same⟩ := Option.map_eq_some_iff.mp (Option.some.inj asked).symm
    have sound := inv.node k.replica
    obtain ⟨named, reploff⟩ := sound.master m (by rw [here]; rfl)
    rw [named, reploff] at same
    cases same
    have coherent : ¬ (w.nodes k.replica).Adrift := by
      rintro ⟨-, -, none⟩
      rw [here] at none
      cases none
    obtain ⟨-, whole, offset⟩ := Node.accepts_exact sound (inv.node k.master) coherent accepted
    -- without a backlog nobody else would know the id it asked for
    have held : (w.nodes k.replica).backlog.repl_backlog.isSome := by
      by_contra absent
      have lonely : (w.nodes k.replica).Lonely := ⟨Option.not_isSome_iff_eq_none.mp absent, coherent⟩
      simp only [Node.accepts, Bool.and_eq_true, Bool.or_eq_true, beq_iff_eq] at accepted
      refine inv.hidden k.replica lonely k.master apart (.inl ?_)
      rcases accepted.1 with same | ⟨second, -⟩
      · exact .inl same.symm
      · exact .inr (.inl second)
    have calm : ¬ (w.nodes k.master).Adrift := fun adrift => by simp [adrift.1] at had
    have next : upcoming (w.nodes k.replica) [.resume (w.nodes k.master).replid] =
        some ((w.nodes k.master).replid, (w.nodes k.replica).backlog.master_repl_offset,
          (w.nodes k.replica).dataset) := by simp only [upcoming, here]
    refine .flowing next rfl apart ?_ offset (fun _ => acks) (by simp [acks])
      (fun _ => held) ?_
    · rw [stream, List.append_nil]
      exact (whole ▸ List.prefix_append _ _ :
        (w.nodes k.replica).dataset <+: (w.nodes k.master).dataset).trans
          ((inv.node k.master).dataset calm)
    · intro t member own
      cases only t member own
      exact ⟨rfl, rfl, by rw [stream, List.append_nil]; exact whole, Int.le_max_left .., fun _ => rfl⟩

omit [DecidableEq Id] in
theorem fullSync_inv (inv : Inv T w) (there : w.conns c = some k) (asks : k.request = some request)
    (serves : (w.nodes k.master).upstream.serves)
    (had : (w.nodes k.master).backlog.repl_backlog.isSome) (capable : Bool) :
    Inv T ((w.put k.master ((w.nodes k.master).fullSync c capable).1).set c
      { k with
        request := none
        replies := k.replies ++ ((w.nodes k.master).fullSync c capable).2 }) := by
  have waits : Inv T ((w.put k.master { w.nodes k.master with
      slaves := (w.nodes k.master).slaves ++ [⟨c, .waitBgsaveStart, 0, 0, []⟩] }).set c
      { k with request := none, replies := k.replies ++ [] }) := by
    refine attach_inv inv there asks rfl serves had [] (fun _ => rfl) nofun nofun ?_
    intro host cached here asked stream acks apart only
    refine .waiting here rfl rfl stream acks apart fun t member own => ?_
    cases only t member own
    exact ⟨rfl, rfl⟩
  unfold Node.fullSync
  dsimp only
  split
  · rename_i s found
    split
    · have listed := List.mem_of_find?_eq_some found
      have state : s.replstate = .waitBgsaveEnd := by simpa using List.find?_some found
      refine attach_inv inv there asks rfl serves had _ nofun
        (fun _ => (inv.node k.master).ends s listed state) ?_ ?_
      · intro reply member id named
        cases List.mem_singleton.mp member
        exact (Option.some.inj named).symm
      · intro host cached here asked stream acks apart only
        have next : announced (w.nodes k.replica).upstream
            [.fullResync (w.nodes k.master).replid s.psync_initial_offset] =
            some ((w.nodes k.master).replid, s.psync_initial_offset) := by simp only [announced, here]
        refine .announced next rfl stream acks apart ?_
        intro t member own
        cases only t member own
        exact ⟨rfl, rfl, rfl, rfl⟩
    · exact waits
  · exact waits

theorem syncCommand_inv (inv : Inv T w) (there : w.conns c = some k)
    (asks : k.request = some request) (fresh : w.Fresh new) (capable : Bool) :
    ∃ T', Inv T' ((w.put k.master ((w.nodes k.master).syncCommand c request capable new).1).set c
      { k with
        request := none
        replies := k.replies ++ ((w.nodes k.master).syncCommand c request capable new).2 }) := by
  unfold Node.syncCommand
  split_ifs with serves
  · have full : ∃ T', Inv T' ((w.put k.master
        (((w.nodes k.master).withBacklog new).fullSync c capable).1).set c
        { k with
          request := none
          replies := k.replies ++ (((w.nodes k.master).withBacklog new).fullSync c capable).2 }) := by
      obtain ⟨T', inv'⟩ := withBacklog_inv inv serves fresh
      have self : (w.put k.master ((w.nodes k.master).withBacklog new)).nodes k.master =
          (w.nodes k.master).withBacklog new := put_self _ _ _
      have still : ((w.nodes k.master).withBacklog new).upstream.serves := by
        unfold Node.withBacklog
        split <;> exact serves
      have had : ((w.nodes k.master).withBacklog new).backlog.repl_backlog.isSome := by
        unfold Node.withBacklog
        split_ifs with first
        · rfl
        · by_contra absent
          have none := Option.not_isSome_iff_eq_none.mp absent
          exact first ⟨(inv.node _).no_slaves none, none⟩
      have next := fullSync_inv inv' there asks (by rw [self]; exact still) (by rw [self]; exact had)
        capable
      rw [self] at next
      refine ⟨T', ?_⟩
      have twice : ∀ x, (w.put k.master ((w.nodes k.master).withBacklog new)).put k.master x =
          w.put k.master x := fun x => by simp [World.put, Function.update_idem]
      rwa [twice] at next
    split
    · rename_i accepted
      exact ⟨T, accept_inv inv there asks serves accepted⟩
    · exact full
  · exact ⟨T, refuse_inv inv there asks⟩

omit [DecidableEq ι] [DecidableEq Id] in
theorem mem_connsIn {n : Node ι Id} {state : SlaveState} :
    c ∈ n.connsIn state ↔ ∃ s ∈ n.slaves, s.replstate = state ∧ s.conn = c := by
  simp [Node.connsIn, and_assoc]

omit [DecidableEq Id] in
/-- A step that answers all replicas of a server in one state, and moves them on. -/
theorem Inv.announce (inv : Inv T w) (n : ι) {x : Node ι Id} {f : Slave → Slave} {state : SlaveState}
    {reply : Reply Id} (sound : x.Sound T) (upstream : x.upstream = (w.nodes n).upstream)
    (replid : x.replid = (w.nodes n).replid) (second : x.replid2 = (w.nodes n).replid2)
    (dataset : x.dataset = (w.nodes n).dataset) (backlog : x.backlog = (w.nodes n).backlog)
    (slaves : x.slaves = (w.nodes n).slaves.map f) (conn : ∀ s, (f s).conn = s.conn)
    (others : ∀ s, s.replstate ≠ state → f s = s)
    (names : ∀ id, reply.replid = some id → id = (w.nodes n).replid)
    (link : ∀ r c k s, s ∈ (w.nodes n).slaves → s.replstate = state → s.conn = c →
      (∀ t' ∈ x.slaves, t'.conn = c → t' = f s) → k.request = none →
      Link T r (w.nodes n) c k → Link T r x c { k with replies := k.replies ++ [reply] }) :
    Inv T ((w.put n x).answer ((w.nodes n).connsIn state) reply) := by
  obtain ⟨cs, same⟩ : ∃ cs, cs = (w.nodes n).connsIn state := ⟨_, rfl⟩
  rw [← same]
  have answered : ∀ c, ((w.put n x).answer cs reply).conns c =
      if c ∈ cs then (w.conns c).map fun k => { k with replies := k.replies ++ [reply] }
      else w.conns c := fun _ => rfl
  have alike : Alike (w.nodes n) x :=
    ⟨upstream, replid, dataset, by rw [backlog], fun some => by rwa [backlog]⟩
  have alike' : ∀ j, Alike (w.nodes j) ((w.put n x).nodes j) := by
    intro j
    by_cases this : j = n
    · subst this
      rw [put_self]
      exact alike
    · rw [put_other this]
      exact ⟨rfl, rfl, rfl, rfl, fun some => some⟩
  have had : cs ≠ [] → (w.nodes n).backlog.repl_backlog.isSome := by
    intro some
    obtain ⟨c, member⟩ := List.exists_mem_of_ne_nil _ some
    obtain ⟨s, listed, -⟩ := mem_connsIn.mp (same ▸ member)
    exact (inv.node n).attached (List.ne_nil_of_mem listed)
  have lonely : x.Lonely → (w.nodes n).Lonely := by
    rintro ⟨none, calm⟩
    rw [backlog] at none
    refine ⟨none, fun adrift => calm ?_⟩
    obtain ⟨-, host, master⟩ := adrift
    exact ⟨by rw [backlog]; exact none, by rwa [upstream], by rwa [upstream]⟩
  have mentioned : ∀ j id, ((w.put n x).answer cs reply).Mentions j id → w.Mentions j id ∨
      id = (w.nodes n).replid ∧ ¬ x.Lonely := by
    intro j id known
    rcases known with kept | ⟨c, k, open_, reply', member, named⟩
    · refine .inl (.inl ?_)
      by_cases this : j = n
      · subst this
        change ((w.put j x).nodes j).Mentions id at kept
        rw [put_self] at kept
        simpa only [Node.Mentions, replid, second, upstream] using kept
      · change ((w.put n x).nodes j).Mentions id at kept
        rwa [put_other this] at kept
    · obtain ⟨here, found⟩ := link_eq_some.mp open_
      change ((w.put n x).nodes j).upstream.conn = some c at here
      rw [(alike' j).upstream] at here
      rw [answered] at found
      split_ifs at found with chosen
      · obtain ⟨l, there, rfl⟩ := Option.map_eq_some_iff.mp found
        rcases List.mem_append.mp member with old | new
        · exact .inl (.inr ⟨c, l, link_eq_some.mpr ⟨here, there⟩, reply', old, named⟩)
        · cases List.mem_singleton.mp new
          refine .inr ⟨names id named, fun lonely' => ?_⟩
          simpa [(lonely lonely').1] using had (List.ne_nil_of_mem chosen)
      · exact .inl (.inr ⟨c, k, link_eq_some.mpr ⟨here, found⟩, reply', member, named⟩)
  have distinct : (x.slaves.map Slave.conn) = (w.nodes n).slaves.map Slave.conn := by
    rw [slaves, List.map_map]
    exact List.map_congr_left fun s _ => conn s
  have conns : ∀ c k, w.conns c = some k → ∃ k', ((w.put n x).answer cs reply).conns c = some k' ∧
      k'.master = k.master ∧ (k.request = none → k'.request = none) := by
    intro c k found
    rw [answered, found]
    split_ifs
    · exact ⟨_, rfl, rfl, fun none => none⟩
    · exact ⟨k, rfl, rfl, fun none => none⟩
  refine inv.step n (fun j other => put_other other) conns ?_ (fun _ _ _ _ => .refl _ _)
    (fun _ _ _ => rfl) ?_ ?_ ?_ ?_ ?_ ?_
  · change ((w.put n x).nodes n).Sound T
    rwa [put_self]
  · change ((w.put n x).nodes n).upstream = _ → ∀ j, j ≠ n → _ → _ ≠ ((w.put n x).nodes n).replid
    rw [put_self, upstream, replid]
    exact fun alone j other alone' equal => other (inv.owners j n alone' alone equal)
  · change ((w.put n x).nodes n).Lonely → ∀ j, j ≠ n → ¬ World.Mentions _ j ((w.put n x).nodes n).replid
    rw [put_self, replid]
    intro alone j other known
    rcases mentioned j _ known with before | ⟨-, not⟩
    · exact inv.hidden n (lonely alone) j other before
    · exact not alone
  · intro j id known
    refine (mentioned j id known).imp_right fun ⟨equal, _⟩ l other lonely' equal' => ?_
    exact inv.hidden l lonely' n (Ne.symm other) (.inl (.inl (equal.symm.trans equal'.symm)))
  · intro r c here
    change ((w.put n x).nodes r).upstream.conn = some c at here
    change ∃ k, _ ∧ _ ∧ Link T ((w.put n x).nodes r) ((w.put n x).nodes k.master) c k
    rw [(alike' r).upstream] at here
    obtain ⟨k, found, replica, before⟩ := inv.link r c here
    rw [answered, found]
    split_ifs with chosen
    · obtain ⟨s, listed, state', own⟩ := mem_connsIn.mp (same ▸ chosen)
      obtain ⟨l, there, master, asked⟩ := inv.slaves n s listed
      rw [own, found] at there
      cases there
      have server : (w.put n x).nodes k.master = x := by rw [master, put_self]
      refine ⟨_, rfl, replica, Link.alike ?_ (alike' r)⟩
      dsimp only
      rw [server]
      rw [master] at before
      refine link _ c k s listed state' own (fun t' member own' => ?_) asked before
      rw [slaves] at member
      obtain ⟨t, member', rfl⟩ := List.mem_map.mp member
      rw [inv.only member' listed (((conn t).symm.trans own').trans own.symm)]
    · refine ⟨k, rfl, replica, Link.alike (before.kept (fun _ _ => .refl _ _) ?_) (alike' r)⟩
      by_cases master : k.master = n
      · rw [master, put_self]
        intro t' member own
        rw [slaves] at member
        obtain ⟨t, listed, rfl⟩ := List.mem_map.mp member
        rw [conn] at own
        have away : t.replstate ≠ state := fun state' =>
          chosen (same ▸ mem_connsIn.mpr ⟨t, listed, state', own⟩)
        rw [others t away]
        exact ⟨t, listed, own, rfl, rfl, rfl, replid, [], by simp [dataset], by simp⟩
      · rw [put_other master]
        exact .same rfl rfl rfl
  · change ∀ s ∈ ((w.put n x).nodes n).slaves, _
    rw [put_self, slaves]
    intro t' member
    obtain ⟨t, listed, rfl⟩ := List.mem_map.mp member
    obtain ⟨k, found, master, none⟩ := inv.slaves n t listed
    obtain ⟨k', there, master', none'⟩ := conns _ k found
    rw [conn]
    exact ⟨k', there, master'.trans master, none' none⟩
  · change (((w.put n x).nodes n).slaves.map Slave.conn).Nodup
    rw [put_self, distinct]
    exact inv.distinct n

omit [DecidableEq Id] in
theorem startBgsave_inv (inv : Inv T w) (none : (w.nodes n).child = none) (disk : Bool) :
    Inv T ((w.put n ((w.nodes n).startBgsaveForReplication disk)).answer
      ((w.nodes n).connsIn .waitBgsaveStart)
      (.fullResync (w.nodes n).replid (w.nodes n).backlog.master_repl_offset)) := by
  have sound := inv.node n
  have conn : ∀ offset s, (Node.setupSlave offset s).conn = s.conn := by
    intro offset s
    unfold Node.setupSlave
    split <;> rfl
  refine inv.announce n (f := Node.setupSlave (w.nodes n).backlog.master_repl_offset)
    ?_ rfl rfl rfl rfl rfl rfl (conn _) ?_ ?_ ?_
  · exact { sound with
      attached := fun some => sound.attached fun none =>
        some (by simp [Node.startBgsaveForReplication, none])
      starts := fun s' member state => by
        obtain ⟨s, listed, rfl⟩ := List.mem_map.mp member
        unfold Node.setupSlave at state ⊢
        split at state
        · cases state
        · rename_i not
          exact absurd state not
      ends := fun s' member state => by
        obtain ⟨s, listed, rfl⟩ := List.mem_map.mp member
        unfold Node.setupSlave at state ⊢
        split_ifs at state ⊢ with starting
        · have empty := sound.starts s listed starting
          exact ⟨_, rfl, by simp [empty, Node.startBgsaveForReplication],
            by simp [empty, Node.startBgsaveForReplication]⟩
        · obtain ⟨child, here, -⟩ := sound.ends s listed state
          cases none.symm.trans here }
  · exact fun s away => if_neg away
  · exact fun id named => (Option.some.inj named).symm
  · intro r c k s listed state own only asked before
    cases before with
    | asked _ asks => cases asked.symm.trans asks
    | refused _ _ _ apart => exact absurd own (apart s listed)
    | announced _ _ _ _ _ slaves => cases state.symm.trans (slaves s listed own).1
    | flowing _ _ _ _ _ _ _ _ slaves => cases state.symm.trans (slaves s listed own).1
    | waiting here request empty stream acks other slaves =>
      have next : announced r.upstream (k.replies ++
          [.fullResync (w.nodes n).replid (w.nodes n).backlog.master_repl_offset]) =
          some ((w.nodes n).replid, (w.nodes n).backlog.master_repl_offset) := by
        simp only [announced, here, empty, List.nil_append]
      refine .announced next request stream acks other fun t' member own' => ?_
      rw [only t' member own', Node.setupSlave, if_pos state]
      exact ⟨rfl, rfl, rfl, (slaves s listed own).2⟩

omit [DecidableEq Id] in
theorem bgsaveDone_inv (inv : Inv T w) (saved : (w.nodes n).child = some child) :
    Inv T ((w.put n ((w.nodes n).updateSlavesWaitingBgsave true)).answer
      ((w.nodes n).connsIn .waitBgsaveEnd) (.rdb child.dataset)) := by
  have sound := inv.node n
  have conn : ∀ s, (Node.putOnline s).conn = s.conn := by
    intro s
    unfold Node.putOnline
    split <;> rfl
  have moved : ∀ s, (Node.putOnline s).replstate ≠ .waitBgsaveEnd := by
    intro s
    unfold Node.putOnline
    split_ifs with here
    · simp
    · exact here
  refine inv.announce n (f := Node.putOnline) ?_ rfl rfl rfl rfl rfl rfl conn ?_ nofun ?_
  · exact { sound with
      attached := fun some => sound.attached fun none =>
        some (by simp [Node.updateSlavesWaitingBgsave, none])
      starts := fun s' member state => by
        obtain ⟨s, listed, rfl⟩ := List.mem_map.mp member
        unfold Node.putOnline at state ⊢
        split_ifs at state ⊢
        exact sound.starts s listed state
      ends := fun s' member state => by
        obtain ⟨s, listed, rfl⟩ := List.mem_map.mp member
        exact absurd state (moved s) }
  · exact fun s away => if_neg away
  · intro r c k s listed state own only asked before
    obtain ⟨child', saved', whole, initial⟩ := sound.ends s listed state
    cases saved.symm.trans saved'
    cases before with
    | asked _ asks => cases asked.symm.trans asks
    | refused _ _ _ apart => exact absurd own (apart s listed)
    | waiting _ _ _ _ _ _ slaves => cases state.symm.trans (slaves s listed own).1
    | flowing _ _ _ _ _ _ _ _ slaves => cases state.symm.trans (slaves s listed own).1
    | @announced id off names request stream acks other slaves =>
      obtain ⟨-, rfl, rfl, fresh⟩ := slaves s listed own
      have next : upcoming r (k.replies ++ [.rdb child.dataset]) =
          some ((w.nodes n).replid, s.psync_initial_offset, child.dataset) := by
        unfold announced at names
        split at names
        · rename_i here replies
          simp only [Option.some.injEq, Prod.mk.injEq] at names
          simp only [upcoming, here, replies, List.cons_append, List.nil_append, names.1, names.2]
        · rename_i here replies
          simp only [Option.some.injEq, Prod.mk.injEq] at names
          simp only [upcoming, here, replies, List.nil_append, names.1, names.2]
        · cases names
      have calm : ¬ (w.nodes n).Adrift := fun adrift => by
        simpa [adrift.1] using sound.attached (List.ne_nil_of_mem listed)
      have offset := sound.offset calm
      have length := congrArg List.length whole
      rw [List.length_append] at length
      refine .flowing next request other ?_ (by omega) (fun _ => acks) (by simp [acks]) ?_ ?_
      · rw [stream, List.append_nil]
        exact (whole ▸ List.prefix_append _ _ : child.dataset <+: (w.nodes n).dataset).trans
          (sound.dataset calm)
      · intro member
        unfold announced at names
        split at names <;> simp_all
      · intro t' member own'
        rw [only t' member own', Node.putOnline, if_pos state]
        refine ⟨rfl, rfl, ?_, ?_, fun _ => fresh⟩
        · rw [stream, List.append_nil]
          exact whole.symm
        · dsimp only
          omega

end World
end Copier.Redis.Psync
