import Copier.Foundation.Runs
import Copier.Redis.Command

/-! The unmodified server as a labelled machine. Receives, trims and argument
copies are synchronous, so a query buffer is a plain byte string. Two history
variables no step consults record what a client has sent and where in that
stream its query buffer starts. -/
namespace Copier.Redis

inductive Event
  | accept (c : ℕ) (authRequired : Bool)
  | readable (c : ℕ) (data : Bytes)
  | unblock (c : ℕ)
  | reprocess (c : ℕ)
  | disconnect (c : ℕ)
  | cron (c : ℕ)
  | expire (key : Bytes)

/-- What the server is told from outside: an event when idle, the outcome of a
command when it is about to execute one. -/
inductive Input
  | event (e : Event)
  | command (o : Outcome)

def gopherRequest (cfg : Config) (argv : List Bytes) : Bool :=
  cfg.gopher_enabled && match argv with
    | [] => true
    | [arg] => arg.head? == some 47
    | _ => false

/-- Whether the query buffer is trimmed before a big argument is read. -/
def trimsForBigArg (ll len pos : ℕ) : Bool :=
  decide (ll ≥ PROTO_MBULK_BIG_ARG) && decide (len - pos ≤ ll + 2)

/-- Whether the query buffer is just the argument, and becomes it. -/
def handsOver (p : Parser) (len bulklen : ℕ) : Bool :=
  p.qb_pos == 0 && decide (bulklen ≥ PROTO_MBULK_BIG_ARG) && len == bulklen + 2

namespace Original

structure Client where
  parser : Parser
  querybuf : Bytes
  argv : List Bytes
  stream : Bytes
  base : ℕ

structure World where
  clients : ℕ → Option Client
  db : Bytes → Option Bytes
  luaTimedout : Bool
  site : Site
  handed : List (ℕ × List Bytes)
  output : List (ℕ × Bytes)

def init : World where
  clients _ := none
  db _ := none
  luaTimedout := false
  site := .idle
  handed := []
  output := []

def Client.view (cl : Client) (i : ℕ) : UInt8 := cl.querybuf.getD i NUL

def Client.action (cfg : Config) (w : World) (cl : Client) (pc : Pc) : Action :=
  control cfg w.luaTimedout cl.view (cl.querybuf.length + 1 - cl.parser.qb_pos)
    cl.querybuf.length cl.argv.length cl.parser pc

def World.put (w : World) (c : ℕ) (cl : Client) (site : Site) : World :=
  { w with clients := Function.update w.clients c (some cl), site := site }

/-- `sdsrange(querybuf, pos, -1)`. -/
def Client.trim (cl : Client) (pos : ℕ) : Client :=
  { cl with
    querybuf := cl.querybuf.drop pos
    base := cl.base + min pos cl.querybuf.length
    parser := { cl.parser with qb_pos := 0 } }

/-- One more argument: the query buffer itself, or a copy out of it. -/
def Client.take (cl : Client) (bulklen : ℕ) : Client :=
  let p := { cl.parser with bulklen := none, multibulklen := cl.parser.multibulklen - 1 }
  if handsOver cl.parser cl.querybuf.length bulklen then
    { cl with
      parser := p
      argv := cl.argv ++ [cl.querybuf.take bulklen]
      querybuf := []
      base := cl.base + cl.querybuf.length }
  else
    { cl with
      parser := { p with qb_pos := cl.parser.qb_pos + bulklen + 2 }
      argv := cl.argv ++ [slice cl.view cl.parser.qb_pos (cl.parser.qb_pos + bulklen)] }

def perform (cfg : Config) (w : World) (c : ℕ) (cl : Client) : Action → Option World
  | .go p pc => some (w.put c { cl with parser := p } (.running c pc))
  | .csync pc => some { w with site := .running c pc }
  | .fail e =>
      some { w.put c { cl with parser := { cl.parser with closing := true } } (.running c .trim) with
        output := w.output ++ [(c, e.reply)] }
  | .bulkLength ll pos =>
      let cl := { cl with parser := { cl.parser with qb_pos := pos, bulklen := some ll } }
      some (w.put c (if trimsForBigArg ll cl.querybuf.length pos then cl.trim pos else cl)
        (.running c .argument))
  | .take bulklen => some (w.put c (cl.take bulklen) (.running c .bulks))
  | .inlineArgs argv pos =>
      let p := { cl.parser with qb_pos := pos }
      if gopherRequest cfg argv then
        some (w.put c { cl with parser := { p.reset with closing := true }, argv := [] }
          (.running c .trim))
      else some (w.put c { cl with parser := p, argv := argv } (.running c .execute))
  | .resetClient => some (w.put c { cl with parser := cl.parser.reset, argv := [] } (.running c .top))
  | .processCommand => none
  | .trimToPos =>
      if cl.parser.qb_pos = 0 then some { w with site := .idle }
      else some (w.put c (cl.trim cl.parser.qb_pos) .idle)
  | .assertFailed => some { w with site := .aborted }

/-- `processCommandAndResetClient`. -/
def execute (w : World) (c : ℕ) (cl : Client) (pc : Pc) (o : Outcome) : World :=
  let cmd := lookupCommand (cl.argv.headD [])
  let ran := (processCommand o cl.parser.resp3 cmd cl.argv.length).run ⟨cl.argv, w.db⟩
  let after := { cl with
    parser := o.after cmd cl.parser
    argv := if o.resets cmd then [] else ran.1.argv }
  { w with
    clients := Function.update w.clients c (if o.dead then none else some after)
    db := ran.1.db
    luaTimedout := o.luaTimedout
    site :=
      if o.dead then .idle
      else if pc = .pending then if cl.querybuf = [] then .idle else .enter c
      else .running c .top
    handed := w.handed ++ [(c, cl.argv)]
    output := w.output ++ [(c, ran.2)] }

def internal (cfg : Config) (w : World) : Option World :=
  match w.site with
  | .receive c data => (w.clients c).map fun cl =>
      if data = [] then { w with site := .idle }
      else
        let cl := { cl with querybuf := cl.querybuf ++ data, stream := cl.stream ++ data }
        if cl.querybuf.length > cfg.client_max_querybuf_len then
          w.put c { cl with parser := { cl.parser with closing := true } } .idle
        else w.put c cl (.enter c)
  | .enter c => some { w with site := .running c .top }
  | .running c pc => (w.clients c).bind fun cl => perform cfg w c cl (cl.action cfg w pc)
  | _ => none

def command (cfg : Config) (w : World) (o : Outcome) : Option World :=
  match w.site with
  | .running c pc => (w.clients c).bind fun cl =>
      match cl.action cfg w pc with
      | .processCommand => some (execute w c cl pc o)
      | _ => none
  | _ => none

/-- `unblockClient`. -/
def Client.unblock (cl : Client) : Client :=
  let p := if cl.parser.pendingCommand then cl.parser else cl.parser.reset
  { cl with
    parser := { p with blocked := false, unblocked := true }
    argv := if cl.parser.pendingCommand then cl.argv else [] }

/-- `processUnblockedClients` for one client of its list. -/
def reprocess (w : World) (c : ℕ) (cl : Client) : World :=
  let p := { cl.parser with unblocked := false }
  if p.blocked then w.put c { cl with parser := p } .idle
  else if p.pendingCommand then
    w.put c { cl with parser := { p with pendingCommand := false } } (.running c .pending)
  else w.put c { cl with parser := p } (if cl.querybuf = [] then .idle else .enter c)

def event (w : World) : Event → Option World
  | .accept c authRequired =>
      if (w.clients c).isNone then
        some (w.put c ⟨.created authRequired, [], [], [], 0⟩ .idle)
      else none
  | .readable c data => (w.clients c).bind fun cl =>
      if data.length ≤ cl.parser.readlen cl.querybuf.length then
        some { w with site := .receive c data }
      else none
  | .unblock c => (w.clients c).bind fun cl =>
      if cl.parser.blocked then some (w.put c cl.unblock .idle) else none
  | .reprocess c => (w.clients c).bind fun cl =>
      if cl.parser.unblocked then some (reprocess w c cl) else none
  | .disconnect c => (w.clients c).map fun _ =>
      { w with clients := Function.update w.clients c none }
  | .cron c => (w.clients c).map fun _ => w
  | .expire key => some { w with db := Function.update w.db key none }

inductive Label
  | internal
  | input (i : Input)

def Label.seen : Label → Option Input
  | internal => none
  | input i => some i

def step (cfg : Config) (w : World) : Label → Option World
  | .internal => internal cfg w
  | .input (.command o) => command cfg w o
  | .input (.event e) => if w.site = .idle then event w e else none

/-- What an event comes to. -/
inductive Occurs (w : World) : Event → World → Prop where
  | accept (c authRequired) : w.clients c = none → Occurs w (.accept c authRequired)
      (w.put c ⟨.created authRequired, [], [], [], 0⟩ .idle)
  | readable (c cl data) : w.clients c = some cl → data.length ≤ cl.parser.readlen cl.querybuf.length →
      Occurs w (.readable c data) { w with site := .receive c data }
  | unblock (c cl) : w.clients c = some cl → cl.parser.blocked = true →
      Occurs w (.unblock c) (w.put c cl.unblock .idle)
  | reprocess (c cl) : w.clients c = some cl → cl.parser.unblocked = true →
      Occurs w (.reprocess c) (reprocess w c cl)
  | disconnect (c cl) : w.clients c = some cl →
      Occurs w (.disconnect c) { w with clients := Function.update w.clients c none }
  | cron (c cl) : w.clients c = some cl → Occurs w (.cron c) w
  | expire (key) : Occurs w (.expire key)
      { w with db := Function.update w.db key none }

theorem event_occurs {w w' : World} {e : Event} (stepped : event w e = some w') : Occurs w e w' := by
  cases e with
  | accept c authRequired =>
    simp only [event, Option.ite_none_right_eq_some, Option.isNone_iff_eq_none,
      Option.some.injEq] at stepped
    obtain ⟨absent, rfl⟩ := stepped
    exact .accept c authRequired absent
  | readable c data =>
    simp only [event, Option.bind_eq_some_iff, Option.ite_none_right_eq_some,
      Option.some.injEq] at stepped
    obtain ⟨cl, here, short, rfl⟩ := stepped
    exact .readable c cl data here short
  | unblock c =>
    simp only [event, Option.bind_eq_some_iff, Option.ite_none_right_eq_some,
      Option.some.injEq] at stepped
    obtain ⟨cl, here, blocked, rfl⟩ := stepped
    exact .unblock c cl here blocked
  | reprocess c =>
    simp only [event, Option.bind_eq_some_iff, Option.ite_none_right_eq_some,
      Option.some.injEq] at stepped
    obtain ⟨cl, here, unblocked, rfl⟩ := stepped
    exact .reprocess c cl here unblocked
  | disconnect c =>
    obtain ⟨cl, here, rfl⟩ := Option.map_eq_some_iff.mp stepped
    exact .disconnect c cl here
  | cron c =>
    obtain ⟨cl, here, rfl⟩ := Option.map_eq_some_iff.mp stepped
    exact .cron c cl here
  | expire key =>
    cases stepped
    exact .expire key

theorem command_executes {w w' : World} {o : Outcome} (stepped : command cfg w o = some w') :
    ∃ c pc cl, w.site = .running c pc ∧ w.clients c = some cl ∧
      cl.action cfg w pc = .processCommand ∧ w' = execute w c cl pc o := by
  unfold command at stepped
  split at stepped
  · rename_i c pc site
    obtain ⟨cl, here, executed⟩ := Option.bind_eq_some_iff.mp stepped
    split at executed
    · rename_i action
      cases executed
      exact ⟨c, pc, cl, site, here, action, rfl⟩
    · cases executed
  · cases stepped

/-- The query buffer is the unconsumed tail of the stream. -/
structure Client.Sound (cl : Client) : Prop where
  bound : cl.parser.qb_pos ≤ cl.querybuf.length
  tail : cl.querybuf = cl.stream.drop cl.base
  low : cl.base ≤ cl.stream.length

def World.Sound (w : World) : Prop := ∀ c cl, w.clients c = some cl → cl.Sound

section Sound
variable {w w' : World} {cl cl' : Client}

theorem Client.Sound.length (sound : cl.Sound) : cl.base + cl.querybuf.length = cl.stream.length := by
  have low := sound.low
  have length := congrArg List.length sound.tail
  rw [List.length_drop] at length
  omega

theorem Client.Sound.trim (sound : cl.Sound) (inside : pos ≤ cl.querybuf.length) :
    (cl.trim pos).Sound := by
  have length := sound.length
  refine ⟨Nat.zero_le _, ?_, ?_⟩
  · simp only [Client.trim, Nat.min_eq_left inside]
    rw [← List.drop_drop, ← sound.tail]
  · simp only [Client.trim]
    omega

theorem Client.Sound.take (sound : cl.Sound)
    (inside : cl.parser.qb_pos + bulklen + 2 ≤ cl.querybuf.length) : (cl.take bulklen).Sound := by
  have length := sound.length
  simp only [Client.take]
  split
  · rename_i hands
    simp only [handsOver, Bool.and_eq_true, beq_iff_eq] at hands
    exact ⟨Nat.le_of_eq hands.1.1, (List.drop_eq_nil_of_le (by dsimp only; omega)).symm,
      by dsimp only; omega⟩
  · exact ⟨inside, sound.tail, sound.low⟩

theorem Client.Sound.receive (sound : cl.Sound) (data : Bytes) :
    Client.Sound { cl with querybuf := cl.querybuf ++ data, stream := cl.stream ++ data } where
  bound := by
    rw [List.length_append]
    exact Nat.le_trans sound.bound (Nat.le_add_right _ _)
  tail := by
    dsimp only
    rw [List.drop_append_of_le_length sound.low, ← sound.tail]
  low := by
    dsimp only
    rw [List.length_append]
    exact Nat.le_trans sound.low (Nat.le_add_right _ _)

theorem Client.Sound.reparse (sound : cl.Sound) {p : Parser}
    (bound : p.qb_pos ≤ cl.querybuf.length) (argv : List Bytes) :
    Client.Sound { cl with parser := p, argv := argv } := ⟨bound, sound.tail, sound.low⟩

theorem Client.view_end (cl : Client) : cl.view cl.querybuf.length = NUL := by
  simp [Client.view]

theorem Client.action_within (cfg : Config) (w : World) (sound : cl.Sound) (pc : Pc) :
    (cl.action cfg w pc).Within cl.querybuf.length cl.parser :=
  control_within sound.bound cl.view_end

theorem World.Sound.put (sound : w.Sound) (kept : cl.Sound) (site : Site) :
    (w.put c cl site).Sound := by
  intro d dl found
  rcases Runs.updated_found found with ⟨-, same⟩ | ⟨-, there⟩
  · cases same
    exact kept
  · exact sound d dl there

theorem World.Sound.perform {action : Action} (sound : w.Sound) (here : w.clients c = some cl)
    (within : action.Within cl.querybuf.length cl.parser)
    (performed : perform cfg w c cl action = some w') : w'.Sound := by
  have own := sound c cl here
  cases action with
  | go p pc =>
    cases performed
    exact sound.put (own.reparse within cl.argv) _
  | csync pc =>
    cases performed
    exact sound
  | fail e =>
    cases performed
    have failed : Client.Sound { cl with parser := { cl.parser with closing := true } } :=
      ⟨own.bound, own.tail, own.low⟩
    exact fun d dl found => sound.put failed (.running c .trim) d dl found
  | bulkLength ll pos =>
    cases performed
    refine sound.put ?_ _
    dsimp only
    split
    · exact Client.Sound.trim ⟨within, own.tail, own.low⟩ within
    · exact ⟨within, own.tail, own.low⟩
  | take bulklen =>
    cases performed
    exact sound.put (own.take within) _
  | inlineArgs argv pos =>
    simp only [Original.perform] at performed
    split at performed <;> cases performed
    · refine sound.put (own.reparse ?_ _) _
      exact within
    · refine sound.put (own.reparse ?_ _) _
      exact within
  | resetClient =>
    cases performed
    refine sound.put (own.reparse ?_ _) _
    exact own.bound
  | processCommand => cases performed
  | trimToPos =>
    simp only [Original.perform] at performed
    split at performed <;> cases performed
    · exact sound
    · exact sound.put (own.trim own.bound) _
  | assertFailed =>
    cases performed
    exact sound

theorem Outcome.after_qb_pos (o : Outcome) (cmd : Command) (p : Parser) :
    (o.after cmd p).qb_pos = p.qb_pos := by
  simp only [Outcome.after]
  split <;> rfl

theorem World.Sound.step {l : Label} (sound : w.Sound) (stepped : step cfg w l = some w') :
    w'.Sound := by
  cases l with
  | internal =>
    simp only [Original.step, Original.internal] at stepped
    split at stepped
    · simp only [Option.map_eq_some_iff] at stepped
      obtain ⟨cl, here, rfl⟩ := stepped
      have own := (sound _ cl here).receive
      split
      · exact sound
      · split
        · refine sound.put ((own _).reparse ?_ cl.argv) _
          exact (own _).bound
        · exact sound.put (own _) _
    · cases stepped
      exact sound
    · simp only [Option.bind_eq_some_iff] at stepped
      obtain ⟨cl, here, performed⟩ := stepped
      exact sound.perform here (cl.action_within cfg w (sound _ cl here) _) performed
    · contradiction
  | input i =>
    cases i with
    | command o =>
      obtain ⟨c, pc, cl, site, here, -, rfl⟩ := command_executes stepped
      have own := sound c cl here
      intro d dl found
      simp only [Original.execute] at found
      rcases Runs.updated_found found with ⟨-, left⟩ | ⟨-, there⟩
      · split at left
        · contradiction
        · cases left
          exact own.reparse ((Outcome.after_qb_pos o _ cl.parser).symm ▸ own.bound) _
      · exact sound d dl there
    | event e =>
      simp only [Original.step, Option.ite_none_right_eq_some] at stepped
      cases event_occurs stepped.2 with
      | accept c => exact sound.put ⟨Nat.le_refl _, rfl, Nat.le_refl _⟩ _
      | unblock c cl here =>
        have own := sound c cl here
        refine sound.put (own.reparse ?_ _) _
        split <;> exact own.bound
      | reprocess c cl here =>
        have own := sound c cl here
        simp only [Original.reprocess]
        split
        · refine sound.put (own.reparse ?_ _) _
          exact own.bound
        · split <;> refine sound.put (own.reparse ?_ _) _ <;> exact own.bound
      | disconnect c =>
        intro d dl found
        rcases Runs.updated_found found with ⟨-, gone⟩ | ⟨-, there⟩
        · cases gone
        · exact sound d dl there
      | readable | cron | expire => exact sound

end Sound

section Determinism
variable {w a b : World}

/-- The server takes an input only where it has no step of its own. -/
theorem input_exclusive (own : internal cfg w = some a) (i : Input) :
    step cfg w (.input i) = none := by
  cases i with
  | event e =>
    refine if_neg fun idle => ?_
    simp [internal, idle] at own
  | command o =>
    simp only [step, command]
    cases site : w.site with
    | running c pc =>
      simp only [internal, site, Option.bind_eq_some_iff] at own
      obtain ⟨cl, here, performed⟩ := own
      simp only [here, Option.bind_some]
      split
      · rename_i executes
        rw [executes] at performed
        cases performed
      · rfl
    | _ => rfl

theorem only_internal {ks : List Label} (unseen : ks.filterMap Label.seen = []) :
    ks = List.replicate ks.length .internal := by
  refine List.eq_replicate_of_mem fun k member => ?_
  cases k with
  | internal => rfl
  | input i =>
    have seen : i ∈ ks.filterMap Label.seen := List.mem_filterMap.mpr ⟨_, member, rfl⟩
    rw [unseen] at seen
    cases seen

/-- Two runs on the same inputs differ by steps of the server's own at the end. -/
theorem runs_join {ks ls : List Label} (first : Runs.run (step cfg) w ks = some a)
    (second : Runs.run (step cfg) w ls = some b)
    (same : ks.filterMap Label.seen = ls.filterMap Label.seen) :
    (∃ n, Runs.run (step cfg) a (List.replicate n .internal) = some b) ∨
      ∃ n, Runs.run (step cfg) b (List.replicate n .internal) = some a := by
  induction ks generalizing w ls with
  | nil =>
    cases first
    exact .inl ⟨ls.length, only_internal same.symm ▸ second⟩
  | cons k ks ih =>
    cases ls with
    | nil =>
      cases second
      exact .inr ⟨(k :: ks).length, only_internal same ▸ first⟩
    | cons l ls =>
      simp only [Runs.run, Option.bind_eq_some_iff] at first second
      obtain ⟨u, stepped, rest⟩ := first
      obtain ⟨v, stepped', rest'⟩ := second
      cases k with
      | internal =>
        cases l with
        | internal =>
          cases stepped.symm.trans stepped'
          exact ih rest rest' same
        | input i => simp [input_exclusive stepped i] at stepped'
      | input i =>
        cases l with
        | internal => simp [input_exclusive stepped' i] at stepped
        | input j =>
          simp only [Label.seen, List.filterMap_cons, List.cons.injEq] at same
          obtain ⟨rfl, same⟩ := same
          cases stepped.symm.trans stepped'
          exact ih rest rest' same

/-- The server's own steps hand nothing over, store nothing, and only add to the
output. -/
structure Quiet (w a : World) : Prop where
  handed : a.handed = w.handed
  db : a.db = w.db
  output : w.output <+: a.output

theorem Quiet.refl (w : World) : Quiet w w := ⟨rfl, rfl, List.prefix_rfl⟩

theorem internal_quiet (stepped : internal cfg w = some a) : Quiet w a := by
  unfold internal at stepped
  split at stepped
  · simp only [Option.map_eq_some_iff] at stepped
    obtain ⟨cl, -, rfl⟩ := stepped
    repeat' split
    all_goals exact ⟨rfl, rfl, List.prefix_rfl⟩
  · cases stepped
    exact ⟨rfl, rfl, List.prefix_rfl⟩
  · simp only [Option.bind_eq_some_iff] at stepped
    obtain ⟨cl, -, performed⟩ := stepped
    unfold perform at performed
    repeat' split at performed
    all_goals cases performed
    case h_3 => exact ⟨rfl, rfl, List.prefix_append _ _⟩
    all_goals exact ⟨rfl, rfl, List.prefix_rfl⟩
  · contradiction

theorem run_internal_quiet (n : ℕ)
    (ran : Runs.run (step cfg) w (List.replicate n .internal) = some a) : Quiet w a := by
  induction n generalizing w with
  | zero =>
    cases ran
    exact .refl _
  | succ n ih =>
    simp only [List.replicate_succ, Runs.run, Option.bind_eq_some_iff] at ran
    obtain ⟨u, stepped, rest⟩ := ran
    have first := internal_quiet stepped
    have later := ih rest
    exact ⟨later.handed.trans first.handed, later.db.trans first.db,
      first.output.trans later.output⟩

/-- The inputs determine what is handed to `processCommand` and what is stored,
at rest or not. -/
theorem inputs_determine {ks ls : List Label} (first : Runs.run (step cfg) w ks = some a)
    (second : Runs.run (step cfg) w ls = some b)
    (same : ks.filterMap Label.seen = ls.filterMap Label.seen) :
    a.handed = b.handed ∧ a.db = b.db := by
  rcases runs_join first second same with ⟨n, ran⟩ | ⟨n, ran⟩
  · have quiet := run_internal_quiet n ran
    exact ⟨quiet.handed.symm, quiet.db.symm⟩
  · have quiet := run_internal_quiet n ran
    exact ⟨quiet.handed, quiet.db⟩

end Determinism

section ReadBack
variable {w w' : World}

end ReadBack

end Original
end Copier.Redis
