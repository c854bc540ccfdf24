import Copier.Redis.Refinement
import Copier.Redis.Waits

/-! Whole runs. While no step is disturbed, a modified server does on its settled
memory what the original does on the same inputs: it executes the same commands,
stores the same values and sends the same replies. -/
namespace Copier.Redis.Server
open Deferred (Mem Span Task Access)

section Runs
variable {cfg : Config} {v : Variant} {w w' : World} {cl : Client} {a : Allocation}

/-- The original's world and a server's stand for each other. -/
structure Refines (w : World) (o : Original.World) : Prop where
  inv : Inv w
  heard : Heard w
  sound : o.Sound
  settles : o = w.settled o.handed

theorem Refines.init : Refines Server.init Original.init :=
  ⟨.init, .init, fun _ _ => nofun, rfl⟩

theorem Refines.step {o : Original.World} {l : Label} (refines : Refines w o)
    (undisturbed : Undisturbed cfg v w l) (stepped : Server.step cfg v w l = some w') :
    ∃ o', Runs.run (Original.step cfg) o (matching w l) = some o' ∧ Refines w' o' ∧
      o'.handed = o.handed ++ handing w l := by
  obtain ⟨inv, heard, sound, settles⟩ := refines
  have ran := step_settled o.handed inv heard.measured (settles ▸ sound) undisturbed
    stepped
  rw [← settles] at ran
  refine ⟨_, ran, ⟨inv.step heard.measured undisturbed.toSteady stepped, heard.step stepped, ?_, rfl⟩,
    rfl⟩
  exact (Runs.Path.of_run_any ran).invariant _ sound fun sound _ stepped => sound.step stepped

theorem Refines.run (path : Runs.Path (Server.step cfg v) (Undisturbed cfg v) Server.init ls w) :
    ∃ ks o, Runs.run (Original.step cfg) Original.init ks = some o ∧
      ks.filterMap Original.Label.seen = ls.filterMap Label.seen ∧ Refines w o :=
  path.forward Refines (fun {w l w' o} refines undisturbed stepped => by
    obtain ⟨o', ran, refines', -⟩ := Refines.step refines undisturbed stepped
    exact ⟨_, o', ran, matching_seen w l, refines'⟩) .init

/-- The arguments the step hands to `processCommand`. -/
def presented (w : World) : Label → List Access
  | .input _ (.command _) => match w.site with
    | .running c _ => match w.clients c with
      | some cl => cl.argv.flatMap Obj.reads
      | none => []
    | _ => []
  | _ => []

/-- How much is unread where the step enters a wait. -/
def awaiting (cfg : Config) (w : World) : Label → Option ℕ
  | .internal _ => match w.site with
    | .running c pc => (w.clients c).bind fun cl => match cl.action cfg w pc with
      | .csync _ => some cl.unread.length
      | _ => none
    | _ => none
  | _ => none

/-- The step meets no pending task, not even in arguments the command will not
look at, and a wait it enters finds ten bytes unread. -/
structure Faithful (cfg : Config) (v : Variant) (w : World) (l : Label) : Prop
    extends Undisturbed cfg v w l where
  shown : ∀ access ∈ presented w l, w.heap.Clear access
  fed : (awaiting cfg w l).all fun n => decide (10 ≤ n)

instance (cfg : Config) (v : Variant) (w : World) (l : Label) : Decidable (Faithful cfg v w l) :=
  decidable_of_iff (Undisturbed cfg v w l ∧ (∀ access ∈ presented w l, w.heap.Clear access) ∧
      (awaiting cfg w l).all fun n => decide (10 ≤ n))
    ⟨fun ⟨undisturbed, shown, fed⟩ => ⟨undisturbed, shown, fed⟩,
      fun ⟨undisturbed, shown, fed⟩ => ⟨undisturbed, shown, fed⟩⟩

theorem receive_quiet (v : Variant) (w : World) (c : ℕ) (cl : Client) (data : Bytes) :
    (receive cfg v w c cl data).handed = w.handed ∧
      ∀ d pc, (receive cfg v w c cl data).site ≠ .wait d pc := by
  unfold receive
  dsimp only
  split
  · exact ⟨rfl, fun _ _ => nofun⟩
  · split <;> exact ⟨rfl, fun _ _ => nofun⟩

/-- What is handed over reads as it will once settled. -/
theorem handed_step {l : Label} (shown : ∀ access ∈ presented w l, w.heap.Clear access)
    (stepped : step cfg v w l = some w') : w'.handed = w.handed ++ handing w l := by
  cases step_stepped stepped with
  | service served =>
    obtain ⟨_, -, rfl⟩ := Option.map_eq_some_iff.mp served
    exact (List.append_nil _).symm
  | receive c data cl => exact (receive_quiet v w c cl data).1.trans (List.append_nil _).symm
  | running c pc cl site here performed =>
    exact (perform_quiet performed).1.trans (List.append_nil _).symm
  | enter | wait | terminate => exact (List.append_nil _).symm
  | event idle occurs => exact (event_quiet idle occurs).1.trans (List.append_nil _).symm
  | command c pc cl o site here =>
    simp only [presented, site, here, List.mem_flatMap] at shown
    have read : cl.argv.map (Obj.bytes w.heap.mem) = cl.argv.map (Obj.bytes w.heap.settled) :=
      List.map_congr_left fun arg member =>
        landed_bytes fun access reads => shown access ⟨arg, member, reads⟩
    simp only [handing, site, here, execute, read]

/-- A client that is waited for has enough to read. -/
def World.Fed (w : World) : Prop :=
  ∀ c pc, w.site = .wait c pc → ∃ cl, w.clients c = some cl ∧ 10 ≤ cl.unread.length

theorem World.Fed.step {l : Label} (before : w.Fed)
    (fed : (awaiting cfg w l).all fun n => decide (10 ≤ n))
    (stepped : Server.step cfg v w l = some w') : w'.Fed := by
  intro d next waits
  cases step_stepped stepped with
  | service served =>
    have same : w'.site = w.site := by
      simp only [Server.service, Option.map_eq_some_iff] at served
      obtain ⟨_, -, rfl⟩ := served
      rfl
    obtain ⟨cl, here, enough⟩ := before d next (same ▸ waits)
    obtain ⟨-, e, there⟩ := service_client served here
    exact ⟨_, there, enough⟩
  | running c pc cl site here performed =>
    obtain ⟨action, rfl, clients⟩ := (perform_quiet performed).2.1 d next waits
    simp only [awaiting, site, here, Option.bind_some, action, Option.all_some,
      decide_eq_true_eq] at fed
    exact ⟨cl, clients ▸ here, fed⟩
  | receive c data cl site here => exact absurd waits ((receive_quiet v w c cl data).2 d next)
  | enter | wait | terminate => cases waits
  | event idle occurs =>
    have outside := (event_quiet idle occurs).2
    rw [waits] at outside
    cases outside
  | command c pc cl o =>
    rcases execute_site _ w c cl pc o with site | site | site <;> cases waits.symm.trans site

theorem Refines.run_faithful
    (path : Runs.Path (Server.step cfg v) (Faithful cfg v) Server.init ls w) :
    ∃ ks o, Runs.run (Original.step cfg) Original.init ks = some o ∧
      ks.filterMap Original.Label.seen = ls.filterMap Label.seen ∧
        Refines w o ∧ o.handed = w.handed ∧ w.Fed := by
  refine path.forward (fun w o => Refines w o ∧ o.handed = w.handed ∧ w.Fed)
    (fun {w l w' o} related faithful stepped => ?_) ⟨.init, rfl, fun _ _ => nofun⟩
  obtain ⟨refines, same, before⟩ := related
  obtain ⟨o', ran, refines', handed⟩ := refines.step faithful.toUndisturbed stepped
  have shown := handed_step faithful.shown stepped
  exact ⟨_, o', ran, matching_seen w l, refines', by rw [handed, shown, same],
    before.step faithful.fed stepped⟩

/-- The original takes the same inputs and hands over the same commands, however
it is run on them; and the server is not stuck in a wait. -/
structure CommandsPreserved (cfg : Config) (v : Variant) (ls : List Label) (w : World) : Prop where
  follows : ∃ ks o, Runs.run (Original.step cfg) Original.init ks = some o ∧
    ks.filterMap Original.Label.seen = ls.filterMap Label.seen
  agrees : ∀ ks o, Runs.run (Original.step cfg) Original.init ks = some o →
    ks.filterMap Original.Label.seen = ls.filterMap Label.seen → w.handed = o.handed
  proceeds : ∀ c pc, w.site = .wait c pc → WaitEnds cfg v w c

/-- Runs all of whose steps are faithful preserve the commands. -/
theorem commands_preserved
    (path : Runs.Path (Server.step cfg .copierSet) (Faithful cfg .copierSet) Server.init ls w) :
    CommandsPreserved cfg .copierSet ls w := by
  obtain ⟨ks, o, ran, visible, refines, handed, fed⟩ := Refines.run_faithful path
  refine ⟨⟨ks, o, ran, visible⟩, fun ms p ran' visible' => ?_, fun c pc waits => ?_⟩
  · rw [← handed]
    exact (Original.inputs_determine ran ran' (visible.trans visible'.symm)).1
  · obtain ⟨cl, here, enough⟩ := fed c pc waits
    exact (refines.heard.wait_ends here waits).mpr enough

theorem undisturbed_service (cfg : Config) (v : Variant) (w : World) :
    Undisturbed cfg v w .service :=
  ⟨⟨fun _ => nofun, Nat.two_pow_pos 31⟩, fun _ => nofun⟩

/-- While only the service runs, the original stands still. -/
theorem Refines.serves {o : Original.World} {n : ℕ} (refines : Refines w o)
    (ran : Runs.run (Server.step cfg v) w (List.replicate n .service) = some w') : Refines w' o := by
  induction n generalizing w with
  | zero =>
    cases ran
    exact refines
  | succ n ih =>
    simp only [List.replicate_succ, Runs.run, Option.bind_eq_some_iff] at ran
    obtain ⟨u, stepped, rest⟩ := ran
    obtain ⟨o', still, refines', -⟩ := refines.step (undisturbed_service cfg v w) stepped
    cases still
    exact ih refines' rest

/-- Arguments and values read in memory what the original has, and a query buffer
what its client has sent and the parser not used. -/
structure Stored (t : World) (o : Original.World) : Prop where
  args : ∀ c cl, t.clients c = some cl → ∃ ocl, o.clients c = some ocl ∧
    cl.argv.map (Obj.bytes t.heap.mem) = ocl.argv
  values : mapDb (Obj.bytes t.heap.mem) t.db = o.db
  rest : ∀ c cl, t.clients c = some cl →
    (cl.querybuf.bytes t.heap.mem).drop cl.parser.qb_pos = cl.unread

theorem Refines.stored {o : Original.World} (refines : Refines w o) (drained : w.heap.ring = []) :
    Stored w o := by
  have settled := Deferred.Heap.settled_drained drained
  refine ⟨fun c cl here => ⟨cl.settled w.heap.settled, ?_, ?_⟩, ?_, fun c cl here => ?_⟩
  · rw [refines.settles]
    exact found_settled here
  · rw [← settled]
    rfl
  · rw [refines.settles, ← settled]
    rfl
  · have tail : cl.querybuf.bytes w.heap.settled = cl.stream.drop cl.base := refines.inv.tail here
    rw [← settled, tail, List.drop_drop]
    rfl

end Runs

/-- A value just too long to be copied at once. -/
def largeValue : Bytes := List.replicate (OBJ_ENCODING_EMBSTR_SIZE_LIMIT + 1) 120

def setCommand : Bytes := request [ascii "SET", ascii "k", largeValue]

/-- A SET up to its execution, the service having delivered all that was received. -/
def setRun : List Label :=
  accepts 0 :: reads 0 setCommand ++ thinks 2 ++ serves setCommand.length ++ thinks 12

def originalSet : List Original.Label :=
  [.input (.event (.accept 0 false)), .input (.event (.readable 0 setCommand))] ++
    List.replicate 13 .internal ++ [.input (.command .plain)]

theorem setRun_served_hands :
    (Runs.run (fun w l => if Faithful .default .copierSet w l then step .default .copierSet w l
      else none) init (setRun ++ serves 1 ++ [executes])).map (·.handed) =
      some [(0, [ascii "SET", ascii "k", largeValue])] := by
  decide +kernel

theorem served_set_preserved : ∃ w, w.handed = [(0, [ascii "SET", ascii "k", largeValue])] ∧
    CommandsPreserved .default .copierSet (setRun ++ serves 1 ++ [executes]) w := by
  obtain ⟨w, ran, handed⟩ := Option.map_eq_some_iff.mp setRun_served_hands
  exact ⟨w, handed, commands_preserved (.of_run ran)⟩

theorem setRun_hands :
    (Runs.run (step .default .copierSet) init (setRun ++ [executes])).map (·.handed) =
      some [(0, [ascii "SET", ascii "k", largeValue.map fun _ => NUL])] := by
  decide +kernel

theorem originalSet_hands :
    (Runs.run (Original.step .default) Original.init originalSet).map (·.handed) =
      some [(0, [ascii "SET", ascii "k", largeValue])] := by
  decide +kernel

theorem unserved_set_diverges : ¬ ∀ ls w, Runs.run (step .default .copierSet) init ls = some w →
    CommandsPreserved .default .copierSet ls w := by
  intro preserved
  obtain ⟨w, ran, handed⟩ := Option.map_eq_some_iff.mp setRun_hands
  obtain ⟨o, ran', handed'⟩ := Option.map_eq_some_iff.mp originalSet_hands
  have agrees := (preserved _ w ran).agrees originalSet o ran' rfl
  rw [handed, handed'] at agrees
  exact absurd agrees (by decide)

/-- What a key reads in memory. -/
def World.reads (w : World) (key : Bytes) : Option Bytes := (w.db key).map (Obj.bytes w.heap.mem)

end Copier.Redis.Server
