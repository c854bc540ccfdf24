import Copier.Queue.Submission

/-! The entry of the two receive functions. Receives go through the same ring as
copies, and while the service works on one it keeps the index of the last byte
copied in the buffer's descriptor. Before the syscall both functions wait until
the ring looks empty and set the descriptor back; they do so in different order,
and the service may take a step between any two of their statements. -/
namespace Copier.Queue.Handshake

inductive Receive
  | recvWithsmartInputDescriptorBufferRedis
  | arecv
deriving DecidableEq

def Receive.queueLength : Receive → ℕ
  | recvWithsmartInputDescriptorBufferRedis => CopierSet.DEFUALT_CP_ENTRY_NUM
  | arecv => MultiClient.QUEUE_LEN

inductive Statement
  | drain
  | reset
deriving DecidableEq

/-- What stands before the syscall. -/
def Receive.body : Receive → List Statement
  | recvWithsmartInputDescriptorBufferRedis => [.drain, .reset]
  | arecv => [.reset, .drain]

inductive Task
  | copy
  | recv (buffer offset len : ℕ)

/-- Where a receive into the buffer ends. -/
def Task.endIn (b : ℕ) : Task → Option ℕ
  | copy => none
  | recv buffer offset len => if buffer = b then some (offset + len) else none

/-- Where the last of the receives into the buffer ends. -/
def lastEnd (b : ℕ) : List Task → Option ℕ
  | [] => none
  | t :: ts => (lastEnd b ts).or (t.endIn b)

/-- Outside the function, or inside it with some statements to go before the syscall;
`late` is history: `lastEnd` of what was pending at the reset. -/
inductive Stage
  | idle
  | entry (buffer offset : ℕ) (left : List Statement) (late : Option ℕ)
deriving DecidableEq

/-- `progress` counts the bytes copied of the oldest task; `queued`, `served` and
`overruns` are history: tasks queued and completed, and those that took the last
free slot. -/
structure World (r : Receive) where
  ring : Ring r.queueLength Task
  progress : ℕ
  descriptor : ℕ → Int
  stage : Stage
  queued : ℕ
  served : ℕ
  overruns : ℕ

def init (r : Receive) (stale : ℕ → Int) : World r :=
  ⟨⟨fun _ => .copy, 0, 0⟩, 0, stale, .idle, 0, 0, 0⟩

def World.push {r : Receive} (w : World r) (t : Task) : World r :=
  { w with
    ring := w.ring.push t
    queued := w.queued + 1
    overruns := if w.ring.backlog + 1 < r.queueLength then w.overruns else w.overruns + 1 }

/-- Steps of the thread, and `serve`: the service copies `n + 1` bytes more of the
oldest task, or what is left of it. -/
inductive Label
  | submit
  | call (buffer offset : ℕ)
  | internal
  | syscall (received : ℕ)
  | csync (buffer target : ℕ)
  | serve (n : ℕ)

/-- The next statement of the receive function. -/
def internal {r : Receive} (w : World r) : Option (World r) :=
  match w.stage with
  | .entry b offset (.drain :: left) late =>
      if w.ring.readIndex = w.ring.writeIndex then
        some { w with stage := .entry b offset left late }
      else none
  | .entry b offset (.reset :: left) _ =>
      some { w with
        descriptor := Function.update w.descriptor b ((offset : Int) - 1)
        stage := .entry b offset left (lastEnd b w.ring.contents) }
  | _ => none

def serve {r : Receive} (w : World r) (n : ℕ) : Option (World r) :=
  (w.ring.pop).map fun
    | (.copy, rest) => { w with ring := rest, served := w.served + 1 }
    | (.recv b offset len, rest) =>
        if w.progress + n + 1 < len then
          { w with
            progress := w.progress + n + 1
            descriptor := Function.update w.descriptor b (offset + w.progress + n : ℕ) }
        else
          { w with
            ring := rest
            progress := 0
            served := w.served + 1
            descriptor := Function.update w.descriptor b ((offset + len : ℕ) - 1) }

def step (r : Receive) (w : World r) : Label → Option (World r)
  | .submit => match w.stage with
    | .idle => some (w.push .copy)
    | _ => none
  | .call b offset => match w.stage with
    | .idle => some { w with stage := .entry b offset r.body none }
    | _ => none
  | .internal => internal w
  | .syscall received => match w.stage with
    | .entry b offset [] _ =>
        let w := { w with stage := .idle }
        some (if received = 0 then w else w.push (.recv b offset received))
    | _ => none
  | .csync b target => match w.stage with
    | .idle => if w.descriptor b < target then none else some w
    | _ => none
  | .serve n => serve w n

/-- The service has taken no step, and submissions have left a slot free. -/
def Stalled (r : Receive) (w : World r) : Label → Prop
  | .serve _ => False
  | .submit => w.ring.backlog + 1 < r.queueLength
  | _ => True

/-- At the syscall the descriptor is set back and no earlier task is pending; and once
the syscall has queued a receive, no wait for one of its bytes ends before the
service has got to it. -/
structure Ready {r : Receive} (w : World r) (b offset : ℕ) : Prop where
  descriptor : w.descriptor b = (offset : Int) - 1
  drained : w.queued = w.served
  waits : ∀ received w₁, 0 < received → step r w (.syscall received) = some w₁ →
    ∀ ls w₂, Runs.Path (step r) (Stalled r) w₁ ls w₂ →
      ∀ target ≥ offset, step r w₂ (.csync b target) = none

/-- Once the descriptor of a buffer is set back to `offset - 1`, a receive into it that
was pending then, and ends at `late`, may still raise it. -/
def Settles (pending : Option ℕ) (descriptor : Int) (offset : ℕ) : Option ℕ → Prop
  | none => pending = none ∧ descriptor = offset - 1
  | some late => pending = some late ∨ pending = none ∧ descriptor = late - 1

/-- Inside a receive function, with `left` to go before the syscall. -/
structure Entered (r : Receive) (pending : List Task) (descriptor : ℕ → Int) (b offset : ℕ)
    (left : List Statement) (late : Option ℕ) : Prop where
  rest : left <:+ r.body
  drained : Statement.drain ∉ left → pending = []
  clean : r = .recvWithsmartInputDescriptorBufferRedis → late = none
  settles : Statement.reset ∉ left → Settles (lastEnd b pending) (descriptor b) offset late

/-- What holds wherever the thread and the service are. -/
structure Inv {r : Receive} (w : World r) : Prop where
  wf : w.ring.Wf
  count : w.queued = w.served + w.ring.backlog + r.queueLength * w.overruns
  entered : ∀ b offset left late, w.stage = .entry b offset left late →
    Entered r w.ring.contents w.descriptor b offset left late

section Inv
variable {r : Receive} {w w' : World r}

theorem queueLength_pos (r : Receive) : 1 < r.queueLength := by
  cases r <;> decide

theorem Inv.init (stale : ℕ → Int) : Inv (init r stale) where
  wf := by
    have several := queueLength_pos r
    exact ⟨Nat.zero_lt_of_lt several, Nat.zero_lt_of_lt several⟩
  count := by simp [Handshake.init, Ring.backlog]
  entered _ _ _ _ := nofun

theorem push_count (inv : Inv w) (t : Task) :
    (w.push t).queued = (w.push t).served + (w.push t).ring.backlog +
      r.queueLength * (w.push t).overruns := by
  have count := inv.count
  have bound := Ring.backlog_lt inv.wf
  have after := Ring.push_wf inv.wf t
  simp only [World.push]
  split
  · rename_i room
    have grown : (w.ring.push t).backlog = w.ring.backlog + 1 := by
      rw [← Ring.contents_length, Ring.contents_push inv.wf room, List.length_append,
        Ring.contents_length]
      rfl
    omega
  · have full : w.ring.backlog + 1 = r.queueLength := by omega
    have empty : (w.ring.push t).backlog = 0 := by
      rw [← Ring.contents_length, Ring.contents_push_full inv.wf full]
      rfl
    rw [empty, Nat.mul_add]
    omega

/-- Queuing a task outside the receive functions. -/
theorem Inv.push (inv : Inv w) (t : Task) (idle : w.stage = .idle) : Inv (w.push t) where
  wf := Ring.push_wf inv.wf t
  count := push_count inv t
  entered b offset left late entry := by
    have entry : w.stage = .entry b offset left late := entry
    cases idle.symm.trans entry

/-- The oldest task is done; if it was a receive, the descriptor shows it. -/
theorem Entered.served {descriptor descriptor' : ℕ → Int}
    (entered : Entered r (t :: ts) descriptor b offset left late)
    (reported : match t.endIn b with
      | none => descriptor' b = descriptor b
      | some e => descriptor' b = (e : Int) - 1) :
    Entered r ts descriptor' b offset left late where
  rest := entered.rest
  drained none_ := by cases entered.drained none_
  clean := entered.clean
  settles set := by
    have before := entered.settles set
    simp only [lastEnd] at before
    cases ended : t.endIn b with
    | none =>
      simp only [ended, Option.or_none] at before reported
      rwa [reported]
    | some e =>
      simp only [ended] at before reported
      cases late with
      | none =>
        cases later : lastEnd b ts <;> simp [Settles, later] at before
      | some late =>
        cases later : lastEnd b ts with
        | none =>
          simp only [Settles, later, Option.none_or, Option.some.injEq, reduceCtorEq, false_and,
            or_false] at before
          exact .inr ⟨rfl, before ▸ reported⟩
        | some f =>
          simp only [Settles, later, Option.some_or, Option.some.injEq, reduceCtorEq, false_and,
            or_false] at before
          exact .inl (congrArg some before)

/-- A receive that is not done keeps its place. -/
theorem Entered.progressed {descriptor descriptor' : ℕ → Int}
    (entered : Entered r (t :: ts) descriptor b offset left late)
    (others : t.endIn b = none → descriptor' b = descriptor b) :
    Entered r (t :: ts) descriptor' b offset left late where
  rest := entered.rest
  drained := entered.drained
  clean := entered.clean
  settles set := by
    have before := entered.settles set
    cases ended : t.endIn b with
    | none => rwa [others ended]
    | some e =>
      have pending : (lastEnd b (t :: ts)).isSome := by
        cases later : lastEnd b ts <;> simp [lastEnd, later, ended]
      cases late with
      | none => simp [before.1] at pending
      | some late =>
        rcases before with same | ⟨none_, -⟩
        · exact .inl same
        · simp [none_] at pending

theorem Inv.serve (inv : Inv w) (stepped : serve w n = some w') : Inv w' := by
  simp only [Handshake.serve, Option.map_eq_some_iff, Prod.exists] at stepped
  obtain ⟨t, rest, popped, stepped⟩ := stepped
  have contents := Ring.contents_pop inv.wf popped
  have wf := Ring.pop_wf inv.wf popped
  have backlog : w.ring.backlog = rest.backlog + 1 := by
    rw [← Ring.contents_length, contents, List.length_cons, Ring.contents_length]
  have count := inv.count
  have entered := inv.entered
  rw [contents] at entered
  cases t with
  | copy =>
    subst stepped
    refine ⟨wf, by dsimp only; omega, fun b offset left late entry => ?_⟩
    exact (entered b offset left late entry).served rfl
  | recv c start len =>
    dsimp only at stepped
    split at stepped <;> subst stepped
    · refine ⟨inv.wf, count, fun b offset left late entry => ?_⟩
      rw [contents]
      refine (entered b offset left late entry).progressed fun elsewhere => ?_
      have other : b ≠ c := fun same => by simp [Task.endIn, same] at elsewhere
      exact Function.update_of_ne other _ _
    · refine ⟨wf, by dsimp only; omega, fun b offset left late entry => ?_⟩
      refine (entered b offset left late entry).served ?_
      by_cases same : b = c
      · subst same
        simp [Task.endIn]
      · simp [Task.endIn, Ne.symm same, same]

theorem Receive.body_drains (r : Receive) : .drain ∈ r.body := by cases r <;> decide

theorem Receive.body_resets (r : Receive) : .reset ∈ r.body := by cases r <;> decide

/-- Set drains before it resets. -/
theorem reset_last (rest : .reset :: left <:+ Receive.recvWithsmartInputDescriptorBufferRedis.body) :
    left = [] := by
  have bound := rest.length_le
  simp only [Receive.body, List.suffix_cons_iff, List.cons.injEq, reduceCtorEq, false_and, false_or,
    true_and, List.suffix_nil, or_false] at rest
  exact rest

theorem Inv.internal (inv : Inv w) (stepped : internal w = some w') : Inv w' := by
  unfold Handshake.internal at stepped
  split at stepped
  · rename_i b offset left late site
    split at stepped
    · rename_i equal
      cases stepped
      have before := inv.entered _ _ _ _ site
      refine ⟨inv.wf, inv.count, fun c off todo late' entry => ?_⟩
      cases entry
      refine ⟨(List.suffix_cons _ _).trans before.rest, fun _ => ?_, before.clean, fun set => ?_⟩
      · exact (Ring.contents_eq_nil_iff inv.wf).mpr equal
      · exact before.settles (by simpa using set)
    · contradiction
  · rename_i b offset left late site
    cases stepped
    have before := inv.entered _ _ _ _ site
    refine ⟨inv.wf, inv.count, fun c off todo late' entry => ?_⟩
    cases entry
    refine ⟨(List.suffix_cons _ _).trans before.rest, fun none_ => ?_, fun set => ?_, fun _ => ?_⟩
    · exact before.drained (by simpa using none_)
    · subst set
      have last := reset_last before.rest
      rw [before.drained (by simp [last])]
      rfl
    · cases ends : lastEnd b w.ring.contents with
      | none => exact ⟨rfl, Function.update_self ..⟩
      | some e => exact .inl rfl
  · contradiction

theorem Inv.step {l : Label} (inv : Inv w) (stepped : step r w l = some w') : Inv w' := by
  cases l with
  | serve n => exact inv.serve stepped
  | internal => exact inv.internal stepped
  | submit =>
    simp only [Handshake.step] at stepped
    split at stepped
    · cases stepped
      exact inv.push _ ‹_›
    · contradiction
  | call b offset =>
    simp only [Handshake.step] at stepped
    split at stepped
    · cases stepped
      refine ⟨inv.wf, inv.count, fun c off left late entry => ?_⟩
      cases entry
      exact ⟨List.suffix_rfl, fun none_ => absurd r.body_drains none_, fun _ => rfl,
        fun none_ => absurd r.body_resets none_⟩
    · contradiction
  | syscall received =>
    simp only [Handshake.step] at stepped
    split at stepped
    · have idle : Inv { w with stage := .idle } := ⟨inv.wf, inv.count, fun _ _ _ _ => nofun⟩
      split at stepped <;> cases stepped
      · exact idle
      · exact idle.push _ rfl
    · contradiction
  | csync b target =>
    simp only [Handshake.step] at stepped
    split at stepped
    · split at stepped
      · contradiction
      · cases stepped
        exact inv
    · contradiction

/-- A receive into `b` is queued, and the service has not got to it. -/
structure Untouched (w : World r) (b offset : ℕ) : Prop where
  wf : w.ring.Wf
  pending : w.ring.contents ≠ []
  outside : w.stage = .idle → w.descriptor b = (offset : Int) - 1
  inside : ∀ c off left late, w.stage = .entry c off left late → .drain ∈ left

theorem Untouched.step {l : Label} (untouched : Untouched w b offset) (stalled : Stalled r w l)
    (stepped : step r w l = some w') : Untouched w' b offset := by
  cases l with
  | serve n => exact absurd stalled id
  | submit =>
    simp only [Handshake.step] at stepped
    split at stepped
    · rename_i idle
      cases stepped
      refine ⟨Ring.push_wf untouched.wf _, ?_, untouched.outside, untouched.inside⟩
      have grown := Ring.contents_push untouched.wf stalled Task.copy
      simp [World.push, grown]
    · contradiction
  | call c off =>
    simp only [Handshake.step] at stepped
    split at stepped
    · cases stepped
      refine ⟨untouched.wf, untouched.pending, nofun, fun _ _ _ _ entry => ?_⟩
      cases entry
      exact r.body_drains
    · contradiction
  | internal =>
    simp only [Handshake.step, Handshake.internal] at stepped
    split at stepped
    · split at stepped
      · rename_i equal
        exact absurd ((Ring.contents_eq_nil_iff untouched.wf).mpr equal) untouched.pending
      · contradiction
    · rename_i site
      cases stepped
      have before := untouched.inside _ _ _ _ site
      refine ⟨untouched.wf, untouched.pending, nofun, fun _ _ _ _ entry => ?_⟩
      cases entry
      simpa using before
    · contradiction
  | syscall received =>
    simp only [Handshake.step] at stepped
    split at stepped
    · rename_i site
      have before := untouched.inside _ _ _ _ site
      cases before
    · contradiction
  | csync c target =>
    simp only [Handshake.step] at stepped
    split at stepped
    · split at stepped
      · contradiction
      · cases stepped
        exact untouched
    · contradiction

theorem Untouched.waits (untouched : Untouched w b offset) (later : offset ≤ target) :
    Handshake.step r w (.csync b target) = none := by
  simp only [Handshake.step]
  split
  · rename_i idle
    have before := untouched.outside idle
    rw [if_pos (by omega)]
  · rfl

theorem issued_waits (inv : Inv w) (here : w.stage = .entry b offset [] late)
    (descriptor : w.descriptor b = (offset : Int) - 1) (some : 0 < received)
    (issued : step r w (.syscall received) = Option.some w')
    (path : Runs.Path (step r) (Stalled r) w' ls u) (target : ℕ) (later : offset ≤ target) :
    step r u (.csync b target) = none := by
  have drained := (inv.entered _ _ _ _ here).drained (by simp)
  simp only [Handshake.step, here] at issued
  rw [if_neg (Nat.ne_of_gt some)] at issued
  cases issued
  refine Untouched.waits ?_ later
  refine path.invariant (fun u => Untouched u b offset) ?_ fun untouched stalled stepped =>
    untouched.step stalled stepped
  have room : w.ring.backlog + 1 < r.queueLength := by
    have several := queueLength_pos r
    rw [← Ring.contents_length, drained]
    exact several
  refine ⟨Ring.push_wf inv.wf _, ?_, fun _ => descriptor, fun _ _ _ _ => nofun⟩
  have grown := Ring.contents_push inv.wf room (.recv b offset received)
  simp [World.push, grown]

/-- When the syscall is issued, all is set for it if and only if no task took the last
free slot before and, where the reset comes first, what was still pending into the
buffer ends where the new receive begins. -/
theorem ready_iff {stale : ℕ → Int} (reached : Runs.run (step r) (init r stale) ls = some w)
    (here : w.stage = .entry b offset [] late) :
    Ready w b offset ↔ w.overruns = 0 ∧ (r = .arecv → ∀ e ∈ late, e = offset) := by
  have inv : Inv w := (Runs.Path.of_run_any reached).invariant Inv (.init stale)
    fun inv _ stepped => inv.step stepped
  have entered := inv.entered _ _ _ _ here
  have drained := entered.drained (by simp)
  have settles := entered.settles (by simp)
  have several := queueLength_pos r
  have count := inv.count
  rw [← Ring.contents_length, drained] at count
  rw [drained] at settles
  constructor
  · intro ready
    refine ⟨?_, fun _ e pending => ?_⟩
    · by_contra overran
      have := Nat.mul_pos (Nat.zero_lt_of_lt several) (Nat.pos_of_ne_zero overran)
      have := ready.drained
      simp only [List.length_nil] at count
      omega
    · cases pending
      have raised := (settles.resolve_left nofun).2
      have := ready.descriptor
      omega
  · rintro ⟨none_, ends⟩
    have descriptor : w.descriptor b = (offset : Int) - 1 := by
      cases late with
      | none => exact settles.2
      | some e =>
        have raised := (settles.resolve_left nofun).2
        cases r with
        | recvWithsmartInputDescriptorBufferRedis => cases entered.clean rfl
        | arecv => rw [raised, ends rfl e rfl]
    refine ⟨descriptor, by simpa [none_] using count, ?_⟩
    intro received w₁ some issued ls w₂ path target later
    exact issued_waits inv here descriptor some issued path target later

end Inv

/-- A receive of 26 bytes, and a second one once 24 are there and four are left in the
buffer; `entry` tells when the last two arrive. -/
def secondReceive (entry : List Label) : List Label :=
  [.call 0 0, .internal, .internal, .syscall 26, .serve 23, .call 0 4] ++ entry

def entryView {r : Receive} (w : World r) : Stage × Int × ℕ := (w.stage, w.descriptor 0, w.overruns)

theorem drained_first : (Runs.run (step .recvWithsmartInputDescriptorBufferRedis)
    (init .recvWithsmartInputDescriptorBufferRedis fun _ => 0)
    (secondReceive [.serve 1, .internal, .internal])).map entryView =
      some (.entry 0 4 [] none, 3, 0) := by
  decide +kernel

theorem drained_first_ready : ∃ w, Runs.run (step .recvWithsmartInputDescriptorBufferRedis)
    (init .recvWithsmartInputDescriptorBufferRedis fun _ => 0)
    (secondReceive [.serve 1, .internal, .internal]) = some w ∧ Ready w 0 4 := by
  obtain ⟨w, ran, seen⟩ := Option.map_eq_some_iff.mp drained_first
  simp only [entryView, Prod.mk.injEq] at seen
  exact ⟨w, ran, (ready_iff ran seen.1).mpr ⟨seen.2.2, nofun⟩⟩

theorem reset_first : (Runs.run (step .arecv) (init .arecv fun _ => 0)
    (secondReceive [.internal, .serve 1, .internal])).map entryView =
      some (.entry 0 4 [] (some 26), 25, 0) := by
  decide +kernel

/-- What is still to arrive when the descriptor is reset raises it again. -/
theorem reset_first_raised : ¬ ∀ (r : Receive) stale ls (w : World r) b offset late,
    Runs.run (step r) (init r stale) ls = some w → w.stage = .entry b offset [] late →
      Ready w b offset := by
  intro ready
  obtain ⟨w, ran, seen⟩ := Option.map_eq_some_iff.mp reset_first
  simp only [entryView, Prod.mk.injEq] at seen
  have descriptor := (ready .arecv _ _ w 0 4 _ ran seen.1).descriptor
  rw [seen.2.1] at descriptor
  cases descriptor

end Copier.Queue.Handshake
