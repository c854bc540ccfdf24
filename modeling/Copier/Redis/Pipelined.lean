import Copier.Redis.Requests

/-! Runs of the server, whatever other clients do: a client that sends requests one behind
the other, cut into reads anywhere, has each of them handed over once it is complete. -/
namespace Copier.Redis.Original

/-- What has been handed to `processCommand` for a client. -/
def World.handedTo (w : World) (c : ℕ) : List (List Bytes) :=
  w.handed.filterMap fun command => if command.1 = c then some command.2 else none

/-- The client is not replaced by another one, and no command is put off by a pause. -/
def Unpaused (c : ℕ) (_ : World) : Label → Prop
  | .input (.event (.accept d _)) => d ≠ c
  | .input (.command o) => o.paused = false
  | _ => True

instance (c : ℕ) (w : World) : DecidablePred (Unpaused c w) := fun l => by
  unfold Unpaused
  split <;> infer_instance

/-- How far the server has come with the requests of a client. -/
structure Progress (cmds earlier : List (List Bytes)) (c : ℕ) (w : World) (cl : Client)
    (done todo : List (List Bytes)) : Prop where
  split : cmds = done ++ todo
  handed : w.handedTo c = earlier ++ done
  arrived : (done.flatMap encode).length ≤ cl.stream.length
  plain : cl.parser.pendingCommand = false
  stands : cl.Stands (cmds.flatMap encode) todo (place c w.site)

/-- What holds of a client as long as it sends these requests. -/
def Follows (cmds earlier : List (List Bytes)) (c : ℕ) (w : World) : Prop :=
  ∀ cl, w.clients c = some cl → cl.stream <+: cmds.flatMap encode →
    ∃ done todo, Progress cmds earlier c w cl done todo

section Step
variable {cmds earlier : List (List Bytes)} {w w' : World} {cl : Client} {cfg : Config}

/-- A step that is not about the client. -/
theorem Follows.frame (follows : Follows cmds earlier c w) (same : w'.clients c = w.clients c)
    (handed : w'.handedTo c = w.handedTo c) (here : place c w'.site = place c w.site) :
    Follows cmds earlier c w' := by
  intro cl found sent
  obtain ⟨done, todo, progress⟩ := follows cl (same ▸ found) sent
  exact ⟨done, todo, progress.split, handed.trans progress.handed, progress.arrived,
    progress.plain, here ▸ progress.stands⟩

/-- A step that changes the client but hands nothing over. -/
theorem Follows.alter (follows : Follows cmds earlier c w) (before : w.clients c = some cl)
    (after : w'.clients c = some cl') (handed : w'.handedTo c = w.handedTo c)
    (longer : cl.stream <+: cl'.stream)
    (kept : cl'.stream <+: cmds.flatMap encode → cl.parser.pendingCommand = false →
      ∀ todo, (∀ argv ∈ todo, argv ∈ cmds) → cl.Stands (cmds.flatMap encode) todo (place c w.site) →
        cl'.parser.pendingCommand = false ∧
          cl'.Stands (cmds.flatMap encode) todo (place c w'.site)) : Follows cmds earlier c w' := by
  intro dl found sent
  cases after.symm.trans found
  obtain ⟨done, todo, progress⟩ := follows cl before (longer.trans sent)
  have among : ∀ argv ∈ todo, argv ∈ cmds := fun argv member =>
    progress.split ▸ List.mem_append_right done member
  obtain ⟨plain, stands⟩ := kept sent progress.plain todo among progress.stands
  exact ⟨done, todo, progress.split, handed.trans progress.handed,
    progress.arrived.trans longer.length_le, plain, stands⟩

theorem Follows.vanish (gone : w'.clients c = none) : Follows cmds earlier c w' := by
  intro cl found
  cases gone.symm.trans found

theorem place_elsewhere {c d : ℕ} (other : d ≠ c) (pc : Pc) : place c (.running d pc) = none :=
  if_neg other

theorem place_here (c : ℕ) (pc : Pc) : place c (.running c pc) = some pc := if_pos rfl

theorem perform_elsewhere {c d : ℕ} {action : Action}
    (performed : perform cfg w d cl action = some w') (other : d ≠ c) :
    w'.clients c = w.clients c ∧ place c w'.site = none := by
  have apart (dl : Client) : Function.update w.clients d (some dl) c = w.clients c :=
    Function.update_of_ne other.symm _ _
  unfold perform at performed
  repeat' split at performed
  all_goals cases performed
  all_goals
    first
    | exact ⟨apart _, place_elsewhere other _⟩
    | exact ⟨rfl, place_elsewhere other _⟩
    | exact ⟨apart _, rfl⟩
    | exact ⟨rfl, rfl⟩

/-- The parser leaves alone what the client has sent. -/
theorem perform_stream {c : ℕ} {action : Action} (there : w.clients c = some cl)
    (performed : perform cfg w c cl action = some w') :
    ∃ cl', w'.clients c = some cl' ∧ cl'.stream = cl.stream := by
  cases action with
  | go | fail | resetClient =>
    cases performed
    exact ⟨_, Function.update_self .., rfl⟩
  | csync | assertFailed =>
    cases performed
    exact ⟨cl, there, rfl⟩
  | bulkLength ll pos =>
    cases performed
    refine ⟨_, Function.update_self .., ?_⟩
    dsimp only
    split <;> rfl
  | take bulklen =>
    cases performed
    refine ⟨_, Function.update_self .., ?_⟩
    simp only [Client.take]
    split <;> rfl
  | inlineArgs argv pos =>
    simp only [perform] at performed
    split at performed <;> cases performed <;> exact ⟨_, Function.update_self .., rfl⟩
  | processCommand => cases performed
  | trimToPos =>
    simp only [perform] at performed
    split at performed <;> cases performed
    · exact ⟨cl, there, rfl⟩
    · exact ⟨_, Function.update_self .., rfl⟩

theorem internal_handedTo (stepped : internal cfg w = some w') (c : ℕ) :
    w'.handedTo c = w.handedTo c := by
  rw [World.handedTo, (internal_quiet stepped).handed, World.handedTo]

/-- The server's own steps. -/
theorem Follows.internal (follows : Follows cmds earlier c w) (ours : w.Sound)
    (nonempty : ∀ argv ∈ cmds, argv ≠ []) (stepped : internal cfg w = some w') :
    Follows cmds earlier c w' := by
  have handed := internal_handedTo stepped c
  unfold Original.internal at stepped
  split at stepped
  · rename_i d data site
    simp only [Option.map_eq_some_iff] at stepped
    obtain ⟨dl, there, rfl⟩ := stepped
    have nowhere : place c w.site = none := by rw [site]; rfl
    by_cases other : d = c
    · subst other
      split
      · exact follows.frame rfl rfl nowhere.symm
      · split
        · refine follows.alter there (Function.update_self ..) rfl (List.prefix_append _ _)
            fun _ plain todo _ _ => ⟨plain, ?_⟩
          exact .closed rfl (.inl rfl)
        · refine follows.alter there (Function.update_self ..) rfl (List.prefix_append _ _)
            fun _ plain todo _ stands => ⟨plain, ?_⟩
          rw [nowhere] at stands
          have started : place d (w.put d { dl with
              querybuf := dl.querybuf ++ data, stream := dl.stream ++ data } (.enter d)).site =
              some .top := if_pos rfl
          rw [started]
          exact Stands.restart stands _
    · have apart (dl : Client) : Function.update w.clients d (some dl) c = w.clients c :=
        Function.update_of_ne (Ne.symm other) _ _
      repeat' split
      · exact follows.frame rfl rfl nowhere.symm
      · exact follows.frame (apart _) rfl nowhere.symm
      · exact follows.frame (apart _) rfl ((if_neg other : place c (.enter d) = none).trans nowhere.symm)
  · rename_i d site
    cases stepped
    exact follows.frame rfl rfl (by rw [site]; rfl)
  · rename_i d pc site
    simp only [Option.bind_eq_some_iff] at stepped
    obtain ⟨dl, there, performed⟩ := stepped
    by_cases other : d = c
    · subst other
      obtain ⟨dl', after, same⟩ := perform_stream there performed
      refine follows.alter there after handed (same ▸ List.prefix_rfl)
        fun sent plain todo among stands => ?_
      rw [site, place_here] at stands
      obtain ⟨dl'', found, plain, -, stands⟩ := stands.perform (ours d dl there) plain (same ▸ sent)
        (fun argv member => nonempty argv (among argv member)) performed there
      cases after.symm.trans found
      exact ⟨plain, stands⟩
    · obtain ⟨same, left⟩ := perform_elsewhere performed other
      exact follows.frame same handed (by rw [left, site, place_elsewhere other])
  · contradiction

/-- A command takes the next request, and nothing else is handed over. -/
theorem Follows.command {o : Outcome} (follows : Follows cmds earlier c w) (ours : w.Sound)
    (nonempty : ∀ argv ∈ cmds, argv ≠ []) (unpaused : o.paused = false)
    (stepped : command cfg w o = some w') : Follows cmds earlier c w' := by
  obtain ⟨d, pc, dl, site, there, action, rfl⟩ := command_executes stepped
  by_cases other : d = c
  · subst other
    intro cl' found sent
    simp only [execute, Function.update_self] at found
    split at found
    · cases found
    rename_i alive
    cases found
    obtain ⟨done, todo, progress⟩ := follows dl there sent
    have own := ours d dl there
    have stands := progress.stands
    rw [site, place_here] at stands
    have leads := stands.leads own progress.plain sent
      (fun argv member => nonempty argv (progress.split ▸ List.mem_append_right done member)) cfg w
    rw [action] at leads
    obtain ⟨rest, rfl, spelled⟩ := leads
    have far : (upcoming (cmds.flatMap encode) dl).length ≥
        (cmds.flatMap encode).length - dl.stream.length := by
      have bound := own.bound
      have length := own.length
      rw [upcoming, List.length_drop]
      omega
    have whole : (cmds.flatMap encode).length = (done.flatMap encode).length +
        ((encode dl.argv).length + (rest.flatMap encode).length) := by
      rw [progress.split, List.flatMap_append, List.length_append, List.flatMap_cons,
        List.length_append]
    have longer := sent.length_le
    refine ⟨done ++ [dl.argv], rest, ?_, ?_, ?_, ?_, ?_⟩
    · rw [progress.split, List.append_assoc, List.singleton_append]
    · have handed := progress.handed
      rw [World.handedTo] at handed ⊢
      simp only [execute, List.filterMap_append, handed, List.filterMap_cons, if_true,
        List.filterMap_nil, List.append_assoc]
    · rw [List.flatMap_append, List.length_append, List.flatMap_singleton]
      rw [spelled] at far
      dsimp only
      omega
    · simp only [Outcome.after, unpaused, Bool.and_false]
      split <;> rfl
    · have executed := Stands.executed dl.unread dl.parser dl.argv spelled o (lookupCommand (dl.argv.headD []))
      simp only [Client.Stands, upcoming, Client.unread, Outcome.after_qb_pos] at executed ⊢
      have running : pc ≠ .pending := (Stands.nowhere stands).2
      simpa only [execute, processCommand_left, alive, running, if_false, place_here,
        Bool.false_eq_true] using executed
  · refine follows.frame (Function.update_of_ne (Ne.symm other) _ _) ?_ ?_
    · simp [World.handedTo, execute, other]
    · rw [site, place_elsewhere other]
      simp only [execute]
      split
      · rfl
      · split
        · split
          · rfl
          · exact if_neg other
        · exact if_neg other

/-- An event, while the server is idle. -/
theorem Follows.event {e : Event} (follows : Follows cmds earlier c w) (idle : w.site = .idle)
    (kept : ∀ auth, e ≠ .accept c auth) (occurs : Occurs w e w') : Follows cmds earlier c w' := by
  have nowhere : place c w.site = none := by rw [idle]; rfl
  cases occurs with
  | accept d auth =>
    have other : c ≠ d := fun same => kept auth (same ▸ rfl)
    exact follows.frame (Function.update_of_ne other _ _) rfl nowhere.symm
  | readable => exact follows.frame rfl rfl nowhere.symm
  | cron | expire => exact follows.frame rfl rfl rfl
  | unblock d dl there blocked =>
    by_cases other : c = d
    · subst other
      refine follows.alter there (Function.update_self ..) rfl List.prefix_rfl
        fun _ plain todo _ stands => ?_
      rw [nowhere] at stands
      simp only [Client.Stands, Client.unblock, World.put, upcoming, Client.unread, plain]
      exact ⟨plain, Stands.unblock stands blocked⟩
    · exact follows.frame (Function.update_of_ne other _ _) rfl nowhere.symm
  | reprocess d dl there =>
    by_cases other : c = d
    · subst other
      unfold Original.reprocess
      dsimp only
      split
      · rename_i blocked
        refine follows.alter there (Function.update_self ..) rfl List.prefix_rfl
          fun _ plain todo _ stands => ⟨plain, ?_⟩
        rw [nowhere] at stands
        exact (Stands.reprocess stands).1 blocked
      rename_i free
      split
      · rename_i pending
        refine follows.alter there (Function.update_self ..) rfl List.prefix_rfl
          fun _ plain => ?_
        cases plain.symm.trans pending
      split
      · rename_i empty
        refine follows.alter there (Function.update_self ..) rfl List.prefix_rfl
          fun _ plain todo _ stands => ⟨plain, ?_⟩
        rw [nowhere] at stands
        refine (Stands.reprocess stands).2.1 ?_ (Bool.not_eq_true _ ▸ free)
        simp [Client.unread, empty]
      · refine follows.alter there (Function.update_self ..) rfl List.prefix_rfl
          fun _ plain todo _ stands => ⟨plain, ?_⟩
        rw [nowhere] at stands
        have entered : place c (.enter c) = some .top := if_pos rfl
        simp only [World.put, entered]
        exact (Stands.reprocess stands).2.2
    · have apart (dl : Client) : Function.update w.clients d (some dl) c = w.clients c :=
        Function.update_of_ne other _ _
      unfold Original.reprocess
      dsimp only
      repeat' split
      all_goals refine follows.frame (apart _) rfl ?_
      · exact nowhere.symm
      · exact (place_elsewhere (Ne.symm other) _).trans nowhere.symm
      · exact nowhere.symm
      · exact (if_neg (Ne.symm other) : place c (.enter d) = none).trans nowhere.symm
  | disconnect d dl there =>
    by_cases other : c = d
    · subst other
      exact .vanish (Function.update_self ..)
    · exact follows.frame (Function.update_of_ne other _ _) rfl rfl

theorem Follows.step {l : Label} (follows : Follows cmds earlier c w) (ours : w.Sound)
    (nonempty : ∀ argv ∈ cmds, argv ≠ []) (met : Unpaused c w l)
    (stepped : step cfg w l = some w') : Follows cmds earlier c w' := by
  cases l with
  | internal => exact follows.internal ours nonempty stepped
  | input i =>
    cases i with
    | command o => exact follows.command ours nonempty met stepped
    | event e =>
      simp only [Original.step, Option.ite_none_right_eq_some] at stepped
      refine follows.event stepped.1 ?_ (event_occurs stepped.2)
      rintro auth rfl
      exact met rfl

end Step

/-! Whole runs. -/

/-- Nothing keeps the server from parsing what the client sends. -/
def Client.Ready (cl : Client) : Prop :=
  cl.parser.closing = false ∧ cl.parser.blocked = false ∧ cl.parser.unblocked = false ∧
    cl.parser.master = false

instance (cl : Client) : Decidable cl.Ready := inferInstanceAs (Decidable (_ ∧ _ ∧ _ ∧ _))

/-- A client that is ready only waits for what lacks of the next request. -/
theorem Stands.lacks (stands : Stands up n p argv (next :: rest) none) (open_ : p.closing = false)
    (free : p.blocked = false) (parsed : p.unblocked = false) (plain : p.master = false) :
    ∃ k, n < k ∧ up.length = k + (rest.flatMap encode).length := by
  have short {k : ℕ} (rests : Rests p n k none) : n < k := by
    obtain here | ⟨-, less | unblocked | master⟩ := rests
    · cases here
    · exact less
    · cases parsed.symm.trans unblocked
    · cases plain.symm.trans master
  cases stands with
  | closed closing => cases open_.symm.trans closing
  | held blocked => cases free.symm.trans blocked
  | between spelled _ _ _ _ place =>
    rcases place with rests | ⟨-, ⟨here, -⟩ | ⟨here | here, -⟩⟩
    · refine ⟨_, short rests, ?_⟩
      rw [spelled, List.flatMap_cons, List.length_append, need]
    all_goals cases here
  | arguments spelled _ _ _ _ among =>
    obtain here | ⟨-, here⟩ | ⟨-, rests | here⟩ := among
    · cases here
    · cases here
    · exact ⟨_, short rests, by rw [spelled, List.length_append]⟩
    · cases here
  | argument spelled _ _ _ _ within =>
    obtain rests | here | here | here := within
    · refine ⟨_, short rests, ?_⟩
      rw [spelled]
      simp only [Reply.crlf, List.length_append, List.length_cons, List.length_nil]
      omega
    all_goals cases here

/-- However the bytes of a client are cut into reads and whatever others do, what is handed
over for it are its requests, in order, and no sooner than they are complete. When the server
rests and the client is ready, they are all the complete ones. -/
theorem stream_hands_over {cmds : List (List Bytes)} {cfg : Config} {u v w : World} {cl : Client}
    (reached : Runs.run (step cfg) init ks = some u)
    (accepted : step cfg u (.input (.event (.accept c auth))) = some v)
    (path : Runs.Path (step cfg) (Unpaused c) v ls w) (here : w.clients c = some cl)
    (nonempty : ∀ argv ∈ cmds, argv ≠ []) (sent : cl.stream <+: cmds.flatMap encode) :
    ∃ n, w.handedTo c = v.handedTo c ++ cmds.take n ∧
      ((cmds.take n).flatMap encode).length ≤ cl.stream.length ∧
      (w.site = .idle → cl.Ready → n < cmds.length →
        cl.stream.length < ((cmds.take (n + 1)).flatMap encode).length) := by
  have ours : v.Sound := by
    refine World.Sound.step ?_ accepted
    exact (Runs.Path.of_run_any reached).invariant World.Sound (fun _ _ here => by cases here)
      fun kept _ => kept.step
  have fresh : Follows cmds (v.handedTo c) c v := by
    simp only [Original.step, Option.ite_none_right_eq_some] at accepted
    obtain ⟨-, accepted⟩ := accepted
    cases event_occurs accepted with
    | accept d auth _ =>
      intro cl found _
      simp only [World.put, Function.update_self] at found
      cases found
      refine ⟨[], cmds, rfl, (List.append_nil _).symm, Nat.zero_le _, rfl, ?_⟩
      refine .between rfl rfl rfl rfl (fun late => by cases late) (.inl (.inr ⟨.inl rfl, .inl ?_⟩))
      exact need_pos cmds
  have kept : w.Sound ∧ Follows cmds (v.handedTo c) c w :=
    path.invariant (fun w => w.Sound ∧ Follows cmds (v.handedTo c) c w) ⟨ours, fresh⟩
      fun both met stepped => ⟨both.1.step stepped, both.2.step both.1 nonempty met stepped⟩
  obtain ⟨done, todo, progress⟩ := kept.2 cl here sent
  have own := kept.1 c cl here
  have taken : cmds.take done.length = done := by rw [progress.split, List.take_left]
  refine ⟨done.length, by rw [taken, progress.handed], by rw [taken]; exact progress.arrived, ?_⟩
  rintro idle ⟨open_, free, parsed, plain⟩ more
  obtain ⟨next, rest, rfl⟩ : ∃ next rest, todo = next :: rest := by
    refine List.exists_cons_of_ne_nil fun none => ?_
    rw [progress.split, none, List.append_nil] at more
    exact Nat.lt_irrefl _ more
  have stands := progress.stands
  rw [idle] at stands
  obtain ⟨k, short, long⟩ := Stands.lacks stands open_ free parsed plain
  have grown : cmds.take (done.length + 1) = done ++ [next] := by
    rw [progress.split, List.take_length_add_append]
    rfl
  have whole : (cmds.flatMap encode).length = (done.flatMap encode).length +
      ((encode next).length + (rest.flatMap encode).length) := by
    rw [progress.split, List.flatMap_append, List.length_append, List.flatMap_cons,
      List.length_append]
  have length := own.length
  have bound := own.bound
  rw [upcoming, List.length_drop] at long
  rw [Client.unread] at short
  rw [grown, List.flatMap_append, List.length_append, List.flatMap_singleton]
  omega

def getAndSet : List (List Bytes) :=
  [[ascii "GET", ascii "k"], [ascii "SET", ascii "k", ascii "v"]]

/-- A read from the client, parsed as far as it goes. -/
def part (from_ upto turns : ℕ) : List Label :=
  .input (.event (.readable 0 (((getAndSet.flatMap encode).take upto).drop from_))) ::
    List.replicate turns .internal

def inParts : List Label :=
  part 0 11 9 ++ .input (.event (.accept 1 false)) :: part 11 33 9 ++
    .input (.command .plain) :: List.replicate 8 .internal ++
    .input (.event (.disconnect 1)) :: part 33 40 8

def connected : World := (step .default init (.input (.event (.accept 0 false)))).getD init

def partly : World := (Runs.run (step .default) connected inParts).getD init

theorem stream_hands_over_in_parts : partly.handedTo 0 = getAndSet.take 1 ∧
    ∃ n, partly.handedTo 0 = connected.handedTo 0 ++ getAndSet.take n ∧
      ((getAndSet.take n).flatMap encode).length ≤ 40 ∧
      (n < 2 → 40 < ((getAndSet.take (n + 1)).flatMap encode).length) := by
  have reached : Runs.run (step .default) init [] = some init := rfl
  have accepted : step .default init (.input (.event (.accept 0 false))) = some connected := rfl
  have path : Runs.Path (step .default) (Unpaused 0) connected inParts partly := .of_run rfl
  have there : (partly.clients 0).isSome = true := rfl
  have sent : ((partly.clients 0).get there).stream = (getAndSet.flatMap encode).take 40 := rfl
  obtain ⟨n, handed, arrived, all⟩ := stream_hands_over reached accepted path
    (Option.some_get there).symm (by decide) (sent ▸ List.take_prefix 40 _)
  have length : ((partly.clients 0).get there).stream.length = 40 := rfl
  rw [length] at arrived all
  exact ⟨rfl, n, handed, arrived, all rfl ⟨rfl, rfl, rfl, rfl⟩⟩

end Copier.Redis.Original
