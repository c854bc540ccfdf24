import Copier.Redis.Waits

/-! Which bytes of a query buffer the parser reads, against the descriptor as the
last wait of that client found it. The request type is always covered, because a
wait for ten bytes comes right before it. A line is covered exactly if it ends by
then, and a short argument exactly if its last byte is there by then; no wait
sees to either. -/
namespace Copier.Redis.Server
open Deferred (Mem Span Task Access)

/-- No byte the parser looks at in this step lies past the descriptor that the last
wait of its client found. -/
def ReadsWaited (cfg : Config) (w : World) (l : Label) : Prop :=
  ∀ a c pc cl, l = .internal a → w.site = .running c pc → w.clients c = some cl →
    ∀ s, Access.read s ∈ looks cfg w l → ∀ i, s.off ≤ i → i < s.off + s.len → (i : Int) ≤ cl.lastWait

/-- A line that is scanned ends by the last wait, unless the whole allocation does. -/
def Client.LineWaited (h : Heap) (cl : Client) (c : UInt8) : Prop :=
  cl.parser.qb_pos ≤ cl.querybuf.alloc → cl.lastWait < cl.querybuf.alloc →
    ∃ j < (cl.lastWait + 1).toNat, cl.parser.qb_pos ≤ j ∧ (cl.view h j = c ∨ cl.view h j = NUL)

/-- A short argument that is complete ends by the last wait. -/
def Client.ArgumentWaited (cl : Client) (bulklen : ℕ) : Prop :=
  cl.parser.qb_pos + bulklen + 2 ≤ cl.querybuf.len → 0 < bulklen →
    bulklen ≤ OBJ_ENCODING_EMBSTR_SIZE_LIMIT → ((cl.parser.qb_pos + bulklen : ℕ) : Int) ≤ cl.lastWait + 1

/-- The line or the short argument that the step is about to use. -/
def Client.ElementWaited (h : Heap) (cl : Client) (pc : Pc) : Prop :=
  (∀ c ∈ scannedFor cl.parser pc, cl.LineWaited h c) ∧
    (pc = .argument → ∀ bulklen ∈ cl.parser.bulklen, cl.ArgumentWaited bulklen)

def ElementsWaited (w : World) : Label → Prop
  | .internal _ => match w.site with
    | .running c pc => match w.clients c with
      | some cl => cl.ElementWaited w.heap pc
      | none => True
    | _ => True
  | _ => True

instance (h : Heap) (cl : Client) (c : UInt8) : Decidable (cl.LineWaited h c) :=
  inferInstanceAs (Decidable (_ → _ → _))

instance (cl : Client) (bulklen : ℕ) : Decidable (cl.ArgumentWaited bulklen) :=
  inferInstanceAs (Decidable (_ → _ → _ → _))

instance (h : Heap) (cl : Client) (pc : Pc) : Decidable (cl.ElementWaited h pc) :=
  inferInstanceAs (Decidable (_ ∧ _))

instance (w : World) (l : Label) : Decidable (ElementsWaited w l) := by
  unfold ElementsWaited
  repeat' split
  all_goals infer_instance

/-- The request type is read right behind a wait for it. -/
def TypeWaited (w : World) : Prop :=
  ∀ c cl, w.site = .running c .reqtype → w.clients c = some cl → (cl.target : Int) ≤ cl.lastWait

section Inspection
variable {cfg : Config} {v : Variant} {w w' : World} {h : Heap} {cl cl' : Client} {a : Allocation}

theorem Client.action_steers (cfg : Config) (w : World) (cl : Client) (pc : Pc) :
    (cl.action cfg w pc).Steers cl.querybuf.len cl.parser pc := control_steers ..

theorem inspected_waited_iff (sought : scannedFor cl.parser pc = some c) :
    (∀ i, cl.parser.qb_pos ≤ i →
      i < cl.parser.qb_pos + inspected (cl.view h) cl.fuel cl.parser pc →
        (i : Int) ≤ cl.lastWait) ↔ cl.LineWaited h c := by
  rw [inspected_scan sought]
  have range := scan_le (cl.view h) c cl.fuel cl.parser.qb_pos
  simp only [Client.fuel] at range ⊢
  constructor
  · intro waited start more
    have stops : scan (cl.view h) c (cl.querybuf.alloc + 1 - cl.parser.qb_pos) cl.parser.qb_pos <
        cl.parser.qb_pos + (cl.querybuf.alloc + 1 - cl.parser.qb_pos) := by
      by_contra runs
      have last := waited cl.querybuf.alloc start (by omega)
      omega
    have last := waited _ range.1 (by omega)
    exact ⟨_, by omega, range.1, scan_found stops⟩
  · intro ends i low high
    by_contra past
    obtain ⟨j, bound, above, found⟩ := ends (by omega) (by omega)
    have stop : scan (cl.view h) c (cl.querybuf.alloc + 1 - cl.parser.qb_pos) cl.parser.qb_pos ≤ j :=
      scan_stops found above
    omega

theorem copied_waited_iff (cfg : Config) (w : World) (cl : Client) (pc : Pc) :
    (∀ i, (cl.copiesNow (cl.action cfg w pc)).off ≤ i →
      i < (cl.copiesNow (cl.action cfg w pc)).off + (cl.copiesNow (cl.action cfg w pc)).len →
        (i : Int) ≤ cl.lastWait) ↔
      (pc = .argument → ∀ bulklen ∈ cl.parser.bulklen, cl.ArgumentWaited bulklen) := by
  constructor
  · rintro waited rfl bulklen known complete some short
    have takes : cl.action cfg w .argument = .take bulklen := by
      have known : cl.parser.bulklen = Option.some bulklen := known
      have enough : ¬ cl.querybuf.len - cl.parser.qb_pos < bulklen + 2 := by omega
      simp only [Client.action, control, bulkArgument, known, enough, if_false]
    have small : ¬ handsOver cl.parser cl.querybuf.len bulklen := by
      have : ¬ bulklen ≥ PROTO_MBULK_BIG_ARG := by
        simp only [PROTO_MBULK_BIG_ARG, OBJ_ENCODING_EMBSTR_SIZE_LIMIT] at short ⊢
        omega
      simp [handsOver, this]
    simp only [takes, Client.copiesNow, small, short, if_true, if_false, Bool.false_eq_true] at waited
    have last := waited (cl.parser.qb_pos + bulklen - 1) (by omega) (by omega)
    omega
  · intro waited i low high
    have steers := cl.action_steers cfg w pc
    cases action : cl.action cfg w pc with
    | take bulklen =>
      rw [action] at steers low high
      obtain ⟨at_, known, complete⟩ := steers
      by_cases hands : handsOver cl.parser cl.querybuf.len bulklen
      · simp only [Client.copiesNow, hands, if_true] at high
        omega
      · by_cases short : bulklen ≤ OBJ_ENCODING_EMBSTR_SIZE_LIMIT
        · simp only [Client.copiesNow, hands, short, if_true, if_false, Bool.false_eq_true] at low high
          have last := waited at_ bulklen known complete (by omega) short
          omega
        · simp only [Client.copiesNow, hands, short, if_false, Bool.false_eq_true] at high
          omega
    | _ =>
      rw [action] at high
      simp only [Client.copiesNow] at high
      omega

theorem reads_waited_step (cfg : Config) (a : Allocation) (waited : TypeWaited w)
    (site : w.site = .running c pc) (here : w.clients c = some cl) :
    ReadsWaited cfg w (.internal a) ↔ cl.ElementWaited w.heap pc := by
  have looked : looks cfg w (.internal a) =
      [.read (cl.inspects w.heap pc), .read (cl.copiesNow (cl.action cfg w pc))] := by
    simp only [looks, site, here]
  have both : ReadsWaited cfg w (.internal a) ↔
      (∀ i, cl.parser.qb_pos ≤ i →
        i < cl.parser.qb_pos + inspected (cl.view w.heap) cl.fuel cl.parser pc →
          (i : Int) ≤ cl.lastWait) ∧
      (∀ i, (cl.copiesNow (cl.action cfg w pc)).off ≤ i →
        i < (cl.copiesNow (cl.action cfg w pc)).off + (cl.copiesNow (cl.action cfg w pc)).len →
          (i : Int) ≤ cl.lastWait) := by
    constructor
    · intro reads
      have reads := reads a c pc cl rfl site here
      rw [looked] at reads
      exact ⟨reads (cl.inspects w.heap pc) (by simp),
        reads (cl.copiesNow (cl.action cfg w pc)) (by simp)⟩
    · rintro ⟨first, second⟩ b d pc' dl same site' there s read
      cases same
      rw [looked] at read
      cases site.symm.trans site'
      cases here.symm.trans there
      rcases List.mem_pair.mp read with eq | eq <;> cases eq
      · exact first
      · exact second
  rw [both, copied_waited_iff]
  refine and_congr_left fun _ => ?_
  cases sought : scannedFor cl.parser pc with
  | some b => simp [inspected_waited_iff sought]
  | none =>
    simp only [Option.mem_def, reduceCtorEq, false_implies, implies_true, iff_true]
    intro i low high
    simp only [inspected, sought] at high
    split at high
    · rename_i type
      subst type
      have target := waited c cl site here
      simp only [Client.target] at target
      omega
    · omega

theorem reads_waited_iff (waited : TypeWaited w) (l : Label) :
    ReadsWaited cfg w l ↔ ElementsWaited w l := by
  cases l with
  | internal a =>
    cases site : w.site with
    | running c pc =>
      cases here : w.clients c with
      | some cl =>
        simp only [ElementsWaited, site, here]
        exact reads_waited_step cfg a waited site here
      | none =>
        simp only [ElementsWaited, site, here, iff_true]
        rintro _ d pc' dl - site' there
        cases site.symm.trans site'
        cases here.symm.trans there
    | _ =>
      simp only [ElementsWaited, site, iff_true]
      rintro _ d pc' dl - site'
      cases site.symm.trans site'
  | service | input a i =>
    simp only [ElementsWaited, iff_true]
    exact fun _ _ _ _ same => nomatch same

/-- No action goes to the request type. -/
theorem perform_type {action : Action} (steers : action.Steers cl.querybuf.len cl.parser pc)
    (performed : perform cfg v a w c cl action = some w') (d : ℕ) : w'.site ≠ .running d .reqtype := by
  cases action with
  | go p next =>
    cases performed
    intro same
    cases same
    exact steers rfl
  | trimToPos =>
    cases performed
    unfold trimToPos
    dsimp only
    repeat' split
    all_goals rintro ⟨⟩
  | bulkLength ll pos =>
    simp only [perform] at performed
    split at performed <;> cases performed <;> rintro ⟨⟩
  | inlineArgs argv pos =>
    simp only [perform] at performed
    split at performed <;> cases performed <;> rintro ⟨⟩
  | take bulklen =>
    simp only [perform, Option.some.injEq] at performed
    subst performed
    rintro ⟨⟩
  | processCommand => cases performed
  | csync next | fail e | resetClient | assertFailed =>
    cases performed
    rintro ⟨⟩

theorem TypeWaited.init : TypeWaited Server.init := fun _ _ => nofun

theorem TypeWaited.step {l : Label} (waited : TypeWaited w) (stepped : step cfg v w l = some w') :
    TypeWaited w' := by
  intro d dl' site' found
  cases step_stepped stepped with
  | service served =>
    obtain ⟨dl, e, there, rfl⟩ := service_found served found
    exact waited d dl ((service_client served there).1 ▸ site') there
  | event idle occurs =>
    have outside := (event_quiet idle occurs).2
    rw [site'] at outside
    cases outside
  | command c pc cl o =>
    rcases execute_site _ w c cl pc o with site | site | site <;> cases site'.symm.trans site
  | wait c pc cl site here reached =>
    cases site'
    simp only [World.put, Function.update_self, Option.some.injEq] at found
    subst found
    exact Int.not_lt.mp reached
  | running c pc cl site here performed =>
    exact absurd site' (perform_type (cl.action_steers cfg w pc) performed d)
  | receive c data cl =>
    unfold receive at site'
    dsimp only at site'
    repeat' split at site'
    all_goals cases site'
  | enter | terminate => cases site'

/-- A run reads only bytes that a wait has covered exactly if the line or short
argument each of its steps uses ended by then. -/
theorem reads_waited (ls : List Label) (w : World) :
    Runs.Path (Server.step cfg .copierSet) (ReadsWaited cfg) Server.init ls w ↔
      Runs.Path (Server.step cfg .copierSet) ElementsWaited Server.init ls w := by
  constructor
  · intro path
    exact path.mono_invariant TypeWaited .init (fun waited _ stepped => waited.step stepped)
      fun waited met => (reads_waited_iff waited _).mp met
  · intro path
    exact path.mono_invariant TypeWaited .init (fun waited _ stepped => waited.step stepped)
      fun waited met => (reads_waited_iff waited _).mpr met

end Inspection

/-- One argument of ten bytes, up to where it is taken. -/
def argumentRun (served : ℕ) : List Label :=
  accepts 0 :: reads 0 (request [ascii "0123456789"]) ++ thinks 2 ++ serves served ++ thinks 6

/-- Where the server stands, what the last wait found, and what is to be copied. -/
def argumentView (w : World) : Site × Option (Int × ℕ × ℕ) :=
  (w.site, (w.clients 0).map fun cl => (cl.lastWait, (cl.copiesNow (cl.action .default w .argument)).off,
    (cl.copiesNow (cl.action .default w .argument)).len))

theorem argumentRun_served :
    (Runs.run (fun w l => if ElementsWaited w l then step .default .copierSet w l else none) init
      (argumentRun 21 ++ thinks 1)).isSome := by
  decide +kernel

theorem delivered_argument_waited : ∃ w,
    Runs.Path (step .default .copierSet) (ReadsWaited .default) init (argumentRun 21 ++ thinks 1) w := by
  obtain ⟨w, ran⟩ := Option.isSome_iff_exists.mp argumentRun_served
  exact ⟨w, (reads_waited _ _).mpr (.of_run ran)⟩

theorem argumentRun_behind :
    (Runs.run (step .default .copierSet) init (argumentRun 10)).map argumentView =
      some (.running 0 .argument, some (9, 9, 10)) := by
  decide +kernel

theorem argumentRun_taken :
    (Runs.run (step .default .copierSet) init (argumentRun 10 ++ thinks 1)).isSome := by
  decide +kernel

/-- Both waits are for the first ten bytes; the argument behind them is copied anyway. -/
theorem undelivered_argument_read : ¬ ∀ ls w, Runs.run (step .default .copierSet) init ls = some w →
    Runs.Path (step .default .copierSet) (ReadsWaited .default) init ls w := by
  intro waited
  obtain ⟨w, ran⟩ := Option.isSome_iff_exists.mp argumentRun_taken
  obtain ⟨t, reached, reads, -⟩ := (waited _ _ ran).last
  obtain ⟨u, reached', seen⟩ := Option.map_eq_some_iff.mp argumentRun_behind
  cases reached.symm.trans reached'
  simp only [argumentView, Prod.mk.injEq, Option.map_eq_some_iff] at seen
  obtain ⟨site, cl, here, last, off, len⟩ := seen
  have bound := reads _ 0 _ cl rfl site here (cl.copiesNow (cl.action .default t .argument))
    (by simp only [looks, site, here]; simp) 18 (by omega) (by omega)
  omega

end Copier.Redis.Server
