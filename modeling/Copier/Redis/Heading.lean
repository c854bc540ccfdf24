import Copier.Redis.Waits

/-! The parser waits for an argument only behind its header: whatever was received, trimmed and
moved in between, what the client sent up to where the parser stands ends with `$`, the length
and a CR, as long as the bytes the parser looks at have arrived. -/
namespace Copier.Redis

/-- What the parser is at when the code at `pc` runs. -/
def Pc.Fits (p : Parser) : Pc → Prop
  | .reqtype => p.reqtype = none
  | .header => p.reqtype = some .PROTO_REQ_MULTIBULK ∧ p.multibulklen = 0
  | .multibulk | .bulks | .argument => p.reqtype = some .PROTO_REQ_MULTIBULK
  | .inline => p.reqtype = some .PROTO_REQ_INLINE
  | .top | .execute | .pending | .trim => True

/-- An argument is waited for only in a multibulk request that lacks some. -/
def Parser.Counting (p : Parser) : Prop :=
  p.bulklen ≠ none → p.reqtype = some .PROTO_REQ_MULTIBULK ∧ p.multibulklen ≠ 0

/-- A length is found behind a `$` and before a CR, and the parser does not move while it waits
for an argument. -/
def Action.Heads (view : ℕ → UInt8) (fuel len : ℕ) (p : Parser) (pc : Pc) : Action → Prop
  | .go q next => next.Fits q ∧ q.Counting ∧
      (q.bulklen ≠ none → q.bulklen = p.bulklen ∧ q.qb_pos = p.qb_pos)
  | .csync next => next.Fits p
  | .bulkLength ll pos => p.reqtype = some .PROTO_REQ_MULTIBULK ∧ p.multibulklen ≠ 0 ∧
      scannedFor p pc = some CR ∧ ∃ newline, strchr view CR fuel p.qb_pos = some newline ∧
        pos = newline + 2 ∧ pos ≤ len ∧ view p.qb_pos = DOLLAR ∧
        string2ll (slice view (p.qb_pos + 1) newline) = some (ll : Int)
  | .inlineArgs _ _ => p.bulklen = none
  | .take _ => p.reqtype = some .PROTO_REQ_MULTIBULK
  | .resetClient | .processCommand | .trimToPos | .assertFailed | .fail _ => True

section Control
variable {cfg : Config} {view : ℕ → UInt8} {fuel len argc : ℕ} {p : Parser} {pc : Pc}

/-- To go on without moving. -/
theorem heads_go (counting : p.Counting) (fits : pc.Fits p) :
    (Action.go p pc).Heads view fuel len p at_ := ⟨fits, counting, fun _ => ⟨rfl, rfl⟩⟩

theorem loopHead_heads (luaTimedout : Bool) (counting : p.Counting) :
    (loopHead luaTimedout len p).Heads view fuel len p .top := by
  unfold loopHead
  repeat' split
  all_goals first | exact heads_go counting trivial | skip
  · assumption
  · exact heads_go counting ‹_›
  · exact heads_go counting ‹_›

theorem multibulkLength_heads (counting : p.Counting) (fits : Pc.header.Fits p) :
    (multibulkLength view fuel len p).Heads view fuel len p .header := by
  have unknown : p.bulklen = none := by
    by_contra known
    exact (counting known).2 fits.2
  unfold multibulkLength
  repeat' split
  all_goals first | trivial | exact heads_go counting trivial | skip
  · exact ⟨trivial, fun known => absurd unknown known, fun known => absurd unknown known⟩
  · exact ⟨fits.1, fun known => absurd unknown known, fun known => absurd unknown known⟩

theorem bulkLength_heads (counting : p.Counting) (fits : Pc.bulks.Fits p) :
    (bulkLength cfg view fuel len p).Heads view fuel len p .bulks := by
  unfold bulkLength
  split
  · exact heads_go counting trivial
  · rename_i more
    split
    · exact heads_go counting fits
    · rename_i unknown
      cases found : strchr view CR fuel p.qb_pos with
      | none =>
        dsimp only
        split
        · trivial
        · exact heads_go counting trivial
      | some newline =>
        dsimp only
        repeat' split
        all_goals first | trivial | exact heads_go counting trivial | skip
        rename_i inside dollar _ ll length range _
        refine ⟨fits, more, if_pos ⟨more, unknown⟩, newline, found, rfl, by omega, by simpa using dollar, ?_⟩
        rw [length]
        exact congrArg some (Int.toNat_of_nonneg (by omega)).symm

theorem control_heads (luaTimedout : Bool) (counting : p.Counting) (fits : pc.Fits p) :
    (control cfg luaTimedout view fuel len argc p pc).Heads view fuel len p pc := by
  cases pc with
  | top => exact loopHead_heads luaTimedout counting
  | header => exact multibulkLength_heads counting fits
  | bulks => exact bulkLength_heads counting fits
  | reqtype =>
    have idle : p.bulklen = none := by
      by_contra known
      exact absurd (fits.symm.trans (counting known).1) (by simp)
    simp only [control, requestType]
    split
    · exact ⟨rfl, fun known => absurd idle known, fun known => absurd idle known⟩
    · exact ⟨rfl, fun known => absurd idle known, fun known => absurd idle known⟩
  | multibulk =>
    simp only [control, processMultibulkBuffer]
    split
    · split
      · exact ⟨fits, ‹_›⟩
      · trivial
    · exact heads_go counting fits
  | argument =>
    simp only [control, bulkArgument]
    split
    · exact heads_go counting fits
    · split
      · exact heads_go counting trivial
      · exact fits
  | inline =>
    have idle : p.bulklen = none := by
      by_contra known
      exact absurd (fits.symm.trans (counting known).1) (by simp)
    simp only [control, processInlineBuffer]
    repeat' split
    all_goals first | exact idle | exact heads_go counting trivial | trivial
  | execute =>
    simp only [control]
    split <;> trivial
  | pending | trim => trivial

end Control

/-- The code that runs, or will when a wait is over. -/
def Site.code : Site → Option (ℕ × Pc)
  | .running c pc | .wait c pc => some (c, pc)
  | .idle | .receive _ _ | .enter _ | .terminate _ | .aborted => none

namespace Server
open Deferred (Mem Span Task Access)

/-- What the client sent up to where its parser stands ends with the header of an argument. -/
structure Client.Headed (cl : Client) (bulklen : ℕ) : Prop where
  inside : cl.base + cl.parser.qb_pos ≤ cl.stream.length
  header : ∃ length lf, string2ll length = some (bulklen : Int) ∧
    DOLLAR :: length ++ [CR, lf] <:+ cl.stream.take (cl.base + cl.parser.qb_pos)

structure Client.Parsed (cl : Client) : Prop where
  counting : cl.parser.Counting
  headed : cl.parser.bulklen = some bulklen → cl.Headed bulklen

/-- Every client's parser waits behind a header, and runs code that fits it. -/
structure Heading (w : World) : Prop where
  parsed : w.clients c = some cl → cl.Parsed
  fits : w.clients c = some cl → w.site.code = some (c, pc) → pc.Fits cl.parser

/-- What the parser and the copies made at once look at. -/
def parses (cfg : Config) (w : World) : Label → List Access
  | .internal a => looks cfg w (.internal a)
  | .service | .input _ _ => []

/-- Nothing the step writes, moves or frees meets a pending task, and nothing the parser looks at
is still to be written. -/
structure Delivered (cfg : Config) (w : World) (l : Label) : Prop
    extends Steady cfg .copierSet w l where
  landed : ∀ access ∈ parses cfg w l, w.heap.Clear access

instance (cfg : Config) (w : World) (l : Label) : Decidable (Delivered cfg w l) :=
  decidable_of_iff (Steady cfg .copierSet w l ∧ ∀ access ∈ parses cfg w l, w.heap.Clear access)
    ⟨fun ⟨steady, landed⟩ => ⟨steady, landed⟩, fun ⟨steady, landed⟩ => ⟨steady, landed⟩⟩

section Heading
variable {cfg : Config} {w w' : World} {h : Heap} {cl cl' : Client} {a : Allocation} {n : ℕ}

/-- The same place in the same stream. -/
theorem Client.Headed.move (headed : cl.Headed n) (stream : cl'.stream = cl.stream)
    (place : cl'.base + cl'.parser.qb_pos = cl.base + cl.parser.qb_pos) : cl'.Headed n := by
  obtain ⟨inside, header⟩ := headed
  refine ⟨?_, ?_⟩
  · rwa [place, stream]
  · rwa [place, stream]

theorem Client.Headed.append (headed : cl.Headed n) (stream : cl'.stream = cl.stream ++ data)
    (place : cl'.base + cl'.parser.qb_pos = cl.base + cl.parser.qb_pos) : cl'.Headed n := by
  obtain ⟨inside, header⟩ := headed
  refine ⟨?_, ?_⟩
  · rw [place, stream, List.length_append]
    omega
  · rwa [place, stream, List.take_append_of_le_length inside]

/-- A client whose parser waits for the same, in the same place. -/
theorem Client.Parsed.move (parsed : cl.Parsed) (counting : cl'.parser.Counting)
    (stream : cl'.stream = cl.stream)
    (waits : cl'.parser.bulklen ≠ none → cl'.parser.bulklen = cl.parser.bulklen ∧
      cl'.base + cl'.parser.qb_pos = cl.base + cl.parser.qb_pos) : cl'.Parsed where
  counting := counting
  headed known := by
    obtain ⟨same, place⟩ := waits (by simp [known])
    exact (parsed.headed (same.symm.trans known)).move stream place

theorem Client.Parsed.idle (idle : cl.parser.bulklen = none) : cl.Parsed where
  counting known := absurd idle known
  headed known := by simp [idle] at known

theorem Heading.set (heading : Heading w)
    (clients : w'.clients = Function.update w.clients c (some cl')) (parsed : cl'.Parsed)
    (code : w'.site.code = none ∨ ∃ next, w'.site.code = some (c, next) ∧ next.Fits cl'.parser) :
    Heading w' where
  parsed {d dl} found := by
    rw [clients] at found
    rcases Runs.updated_found found with ⟨-, same⟩ | ⟨-, there⟩
    · cases same
      exact parsed
    · exact heading.parsed there
  fits {d dl pc} found here := by
    rcases code with outside | ⟨next, inside, fits⟩
    · cases outside.symm.trans here
    · cases inside.symm.trans here
      simp only [clients, Function.update_self, Option.some.injEq] at found
      exact found ▸ fits

/-- Nothing happens to a parser, and the code that runs is what ran or was waited for. -/
theorem Heading.quiet (heading : Heading w)
    (clients : ∀ d dl', w'.clients d = some dl' → ∃ dl, w.clients d = some dl ∧
      dl'.parser = dl.parser ∧ dl'.base = dl.base ∧ dl'.stream = dl.stream)
    (code : ∀ d pc, w'.site.code = some (d, pc) → w.site.code = some (d, pc) ∨ ∀ p, pc.Fits p) :
    Heading w' where
  parsed {d dl'} found := by
    obtain ⟨dl, there, parser, base, stream⟩ := clients d dl' found
    have parsed := heading.parsed there
    exact parsed.move (parser ▸ parsed.counting) stream fun _ => ⟨by rw [parser], by rw [base, parser]⟩
  fits {d dl' pc} found here := by
    obtain ⟨dl, there, parser, -, -⟩ := clients d dl' found
    rw [parser]
    rcases code d pc here with old | any
    · exact heading.fits there old
    · exact any _

theorem Heading.resite (heading : Heading w) (outside : site.code = none) :
    Heading { w with site := site } :=
  heading.quiet (fun d dl found => ⟨dl, found, rfl, rfl, rfl⟩)
    fun d pc inside => by cases outside.symm.trans inside

theorem slice_one (view : ℕ → UInt8) (i : ℕ) : slice view i (i + 1) = [view i] := by
  simp [slice]

/-- A line that was found is the one the client sent. -/
theorem line_sent (inv : Inv w) (here : w.clients c = some cl)
    (landed : w.heap.Clear (.read (cl.inspects w.heap pc)))
    (sought : scannedFor cl.parser pc = some CR)
    (found : strchr (cl.view w.heap) CR cl.fuel cl.parser.qb_pos = some newline)
    (inside : newline + 2 ≤ cl.querybuf.len) (some : cl.parser.qb_pos < newline) :
    ∃ lf, cl.view w.heap cl.parser.qb_pos ::
        slice (cl.view w.heap) (cl.parser.qb_pos + 1) newline ++ [CR, lf] <:+
      cl.stream.take (cl.base + (newline + 2)) := by
  obtain ⟨stop, above, below, cr⟩ := strchr_some found
  have settled : ∀ j, cl.parser.qb_pos ≤ j → j ≤ newline →
      cl.view w.heap j = w.heap.settled cl.querybuf.blk j := by
    intro j low high
    refine Deferred.Heap.mem_eq_settled_of_clear landed ⟨rfl, low, ?_⟩
    simp only [Client.inspects, inspected_scan sought]
    omega
  have line : cl.view w.heap cl.parser.qb_pos ::
      slice (cl.view w.heap) (cl.parser.qb_pos + 1) newline ++
        [CR, w.heap.settled cl.querybuf.blk (newline + 1)] =
      slice (w.heap.settled cl.querybuf.blk) cl.parser.qb_pos (newline + 2) := by
    rw [← slice_append _ above (Nat.le_add_right newline 2),
      ← slice_append _ (Nat.le_succ cl.parser.qb_pos) some,
      ← slice_append _ (Nat.le_succ newline) (Nat.le_succ (newline + 1)), slice_one, slice_one,
      slice_one, ← settled _ (Nat.le_refl _) above, ← settled _ above (Nat.le_refl _), cr,
      slice_congr fun j low high => (settled j (by omega) (by omega)).symm]
    simp
  have tail := inv.tail here
  refine ⟨w.heap.settled cl.querybuf.blk (newline + 1), ?_⟩
  rw [line]
  refine ⟨cl.stream.take cl.base ++ slice (w.heap.settled cl.querybuf.blk) 0 cl.parser.qb_pos, ?_⟩
  rw [List.append_assoc, slice_append _ (Nat.zero_le _) (by omega), List.take_add, ← tail,
    Sds.bytes, take_slice _ (by omega), Nat.zero_add]

theorem Heading.perform {action : Action} (heading : Heading w) (inv : Inv w)
    (here : w.clients c = some cl) (measured : cl.Measured)
    (landed : w.heap.Clear (.read (cl.inspects w.heap pc)))
    (heads : action.Heads (cl.view w.heap) cl.fuel cl.querybuf.len cl.parser pc)
    (performed : perform cfg .copierSet a w c cl action = some w') : Heading w' := by
  have parsed := heading.parsed here
  cases action with
  | go p next =>
    cases performed
    obtain ⟨fits, counting, waits⟩ := heads
    refine heading.set rfl (parsed.move counting rfl fun known => ?_) (.inr ⟨next, rfl, fits⟩)
    exact ⟨(waits known).1, congrArg (cl.base + ·) (waits known).2⟩
  | csync next =>
    cases performed
    have same : w.clients = Function.update w.clients c (some cl) := by
      rw [← here, Function.update_eq_self]
    exact heading.set same parsed (.inr ⟨next, rfl, heads⟩)
  | fail e =>
    cases performed
    exact heading.set rfl (parsed.move parsed.counting rfl fun _ => ⟨rfl, rfl⟩)
      (.inr ⟨_, rfl, trivial⟩)
  | bulkLength ll pos =>
    obtain ⟨request, more, sought, newline, found, rfl, inside, dollar, length⟩ := heads
    obtain ⟨-, above, -, cr⟩ := strchr_some found
    have some : cl.parser.qb_pos < newline := by
      refine Nat.lt_of_le_of_ne above fun same => ?_
      rw [← same, dollar] at cr
      cases cr
    obtain ⟨lf, sent⟩ := line_sent inv here landed sought found inside some
    rw [dollar] at sent
    have measured : cl.base + cl.querybuf.len = cl.stream.length := measured
    have waits : ∀ cl' : Client, cl'.parser.reqtype = cl.parser.reqtype →
        cl'.parser.multibulklen = cl.parser.multibulklen → cl'.parser.bulklen = Option.some ll →
        cl'.stream = cl.stream → cl'.base + cl'.parser.qb_pos = cl.base + (newline + 2) →
        cl'.Parsed := by
      intro cl' request' more' known stream place
      refine ⟨fun _ => ⟨request'.trans request, more' ▸ more⟩, fun known' => ?_⟩
      cases known.symm.trans known'
      refine ⟨by rw [place, stream]; omega, _, lf, length, ?_⟩
      rwa [place, stream]
    simp only [Server.perform] at performed
    split at performed <;> cases performed
    · refine heading.set rfl (waits _ rfl rfl rfl rfl ?_) (.inr ⟨_, rfl, request⟩)
      simp only [Client.trimForBigArg, Nat.min_eq_left inside, Nat.add_zero]
    · exact heading.set rfl (waits _ rfl rfl rfl rfl rfl) (.inr ⟨_, rfl, request⟩)
  | take bulklen =>
    cases performed
    have after : (cl.take a w.heap bulklen).2.parser.bulklen = none ∧
        (cl.take a w.heap bulklen).2.parser.reqtype = cl.parser.reqtype := by
      unfold Client.take
      dsimp only
      split
      · exact ⟨rfl, rfl⟩
      · split <;> exact ⟨rfl, rfl⟩
    exact heading.set rfl (.idle after.1) (.inr ⟨_, rfl, after.2.trans heads⟩)
  | inlineArgs argv pos =>
    simp only [Server.perform] at performed
    split at performed <;> cases performed
    · exact heading.set rfl (.idle rfl) (.inr ⟨_, rfl, trivial⟩)
    · exact heading.set rfl (.idle heads) (.inr ⟨_, rfl, trivial⟩)
  | resetClient =>
    cases performed
    exact heading.set rfl (.idle rfl) (.inr ⟨_, rfl, trivial⟩)
  | processCommand => cases performed
  | trimToPos =>
    cases performed
    unfold trimToPos
    dsimp only
    split
    · exact heading.resite rfl
    · split
      · exact heading.resite rfl
      · refine heading.set rfl (parsed.move parsed.counting rfl fun known => ⟨rfl, ?_⟩) (.inl rfl)
        obtain ⟨n, waits⟩ := Option.ne_none_iff_exists'.mp known
        have inside := (parsed.headed waits).inside
        have measured : cl.base + cl.querybuf.len = cl.stream.length := measured
        rw [Nat.min_eq_left (by omega)]
        rfl
  | assertFailed =>
    cases performed
    exact heading.resite rfl

theorem Heading.receive (heading : Heading w) (here : w.clients c = some cl) :
    Heading (receive cfg .copierSet w c cl data) := by
  have parsed := heading.parsed here
  have kept : ∀ cl' : Client, cl'.parser.bulklen = cl.parser.bulklen →
      cl'.parser.reqtype = cl.parser.reqtype → cl'.parser.multibulklen = cl.parser.multibulklen →
      cl'.parser.qb_pos = cl.parser.qb_pos → cl'.base = cl.base →
      cl'.stream = cl.stream ++ data → cl'.Parsed := by
    intro cl' bulklen reqtype multibulklen qb_pos base stream
    refine ⟨fun known => ?_, fun known => ?_⟩
    · rw [reqtype, multibulklen]
      exact parsed.counting (bulklen ▸ known)
    · exact (parsed.headed (bulklen.symm.trans known)).append stream (by rw [base, qb_pos])
  unfold Server.receive
  dsimp only
  split
  · rename_i empty
    exact heading.set rfl (kept _ rfl rfl rfl rfl rfl (by simp [empty])) (.inl rfl)
  · split
    · exact heading.set rfl (kept _ rfl rfl rfl rfl rfl rfl) (.inl rfl)
    · exact heading.set rfl (kept _ rfl rfl rfl rfl rfl rfl) (.inl rfl)

/-- Resetting a parser or not, without moving it. -/
theorem Client.Parsed.reset (parsed : cl.Parsed) (base : cl'.base = cl.base)
    (stream : cl'.stream = cl.stream) (qb_pos : cl'.parser.qb_pos = cl.parser.qb_pos)
    (parser : cl'.parser.bulklen = none ∨ cl'.parser.bulklen = cl.parser.bulklen ∧
      cl'.parser.reqtype = cl.parser.reqtype ∧ cl'.parser.multibulklen = cl.parser.multibulklen) :
    cl'.Parsed := by
  rcases parser with idle | ⟨bulklen, reqtype, multibulklen⟩
  · exact .idle idle
  · refine parsed.move (fun known => ?_) stream fun _ => ⟨bulklen, by rw [base, qb_pos]⟩
    rw [reqtype, multibulklen]
    exact parsed.counting (bulklen ▸ known)

theorem after_parsed (o : Outcome) (cmd : Command) (parsed : cl.Parsed) (base : cl'.base = cl.base)
    (stream : cl'.stream = cl.stream) (parser : cl'.parser = o.after cmd cl.parser) : cl'.Parsed := by
  refine parsed.reset base stream (by rw [parser, Original.Outcome.after_qb_pos]) ?_
  rw [parser]
  unfold Outcome.after
  dsimp only
  split
  · exact .inl rfl
  · exact .inr ⟨rfl, rfl, rfl⟩

/-- A client goes; what is left of the others stays. -/
theorem Heading.drop (heading : Heading w) (clients : w'.clients = Function.update w.clients c none)
    (outside : w'.site.code = none) : Heading w' := by
  refine heading.quiet (fun d dl found => ⟨dl, ?_, rfl, rfl, rfl⟩) fun d pc inside => ?_
  · rw [clients] at found
    rcases Runs.updated_found found with ⟨-, gone⟩ | ⟨-, there⟩
    · cases gone
    · exact there
  · cases outside.symm.trans inside

theorem Heading.execute (heading : Heading w) (here : w.clients c = some cl) :
    Heading (execute a w c cl pc o) := by
  have after : Client.Parsed { cl with
      parser := o.after (commandOf w cl) cl.parser
      argv := if o.resets (commandOf w cl) then [] else
        ((scriptOf w cl o).exec a (w.memory cl)).1.strings.argv } :=
    after_parsed o (commandOf w cl) (heading.parsed here) rfl rfl rfl
  by_cases dead : o.dead
  · refine heading.drop (c := c) ?_ ?_
    · simp only [Server.execute, dead, if_true]
    · simp only [Server.execute, dead, if_true]
      rfl
  · refine heading.set (c := c) ?_ after ?_
    · simp only [Server.execute, dead, Bool.false_eq_true, if_false]
    · simp only [Server.execute, dead, Bool.false_eq_true, if_false]
      split
      · split <;> exact .inl rfl
      · exact .inr ⟨.top, rfl, trivial⟩

theorem Heading.event {e : Event} (heading : Heading w) (idle : w.site = .idle)
    (stepped : event .copierSet a w e = some w') : Heading w' := by
  cases event_occurs stepped with
  | accept => exact heading.set rfl (.idle rfl) (.inl rfl)
  | readable c cl data here =>
    have parsed := heading.parsed here
    exact heading.set rfl (parsed.move parsed.counting rfl fun _ => ⟨rfl, rfl⟩) (.inl rfl)
  | unblock c cl here =>
    refine heading.set rfl ((heading.parsed here).reset rfl rfl ?_ ?_) (.inl rfl)
    · simp only [Client.unblock]
      split <;> rfl
    · simp only [Client.unblock]
      split
      · exact .inr ⟨rfl, rfl, rfl⟩
      · exact .inl rfl
  | reprocess c cl here =>
    have parsed := heading.parsed here
    unfold Server.reprocess
    dsimp only
    split
    · exact heading.set rfl (parsed.move parsed.counting rfl fun _ => ⟨rfl, rfl⟩) (.inl rfl)
    · split
      · exact heading.set rfl (parsed.move parsed.counting rfl fun _ => ⟨rfl, rfl⟩)
          (.inr ⟨_, rfl, trivial⟩)
      · refine heading.set rfl (parsed.move parsed.counting rfl fun _ => ⟨rfl, rfl⟩) (.inl ?_)
        simp only [World.put]
        split <;> rfl
  | disconnect c => exact heading.drop (c := c) rfl (by rw [idle]; rfl)
  | resize c cl here =>
    have parsed := heading.parsed here
    exact heading.set rfl (parsed.move parsed.counting rfl fun _ => ⟨rfl, rfl⟩) (.inl rfl)
  | keep => exact heading
  | expire key => exact ⟨heading.parsed, heading.fits⟩

theorem Heading.service (heading : Heading w) (stepped : service w = some w') : Heading w' := by
  refine heading.quiet (fun d dl' found => ?_) fun d pc inside => .inl ?_
  · obtain ⟨dl, e, there, rfl⟩ := service_found stepped found
    exact ⟨dl, there, rfl, rfl, rfl⟩
  · simp only [Server.service, Option.map_eq_some_iff] at stepped
    obtain ⟨_, -, rfl⟩ := stepped
    exact inside

theorem Heading.step {l : Label} (heading : Heading w) (inv : Inv w) (measured : w.Measured)
    (delivered : Delivered cfg w l) (stepped : step cfg .copierSet w l = some w') : Heading w' := by
  cases step_stepped stepped with
  | service served => exact heading.service served
  | event idle occurs => exact heading.event idle occurs
  | command c pc cl o site here => exact heading.execute here
  | receive c data cl site here => exact heading.receive here
  | enter c site =>
    refine heading.quiet (fun d dl found => ⟨dl, found, rfl, rfl, rfl⟩) fun d pc inside => ?_
    cases inside
    exact .inr fun _ => trivial
  | running c pc cl site here performed =>
    have landed := delivered.landed
    simp only [parses, looks, site, here, List.forall_mem_cons] at landed
    have code : w.site.code = some (c, pc) := by rw [site]; rfl
    have heads : (cl.action cfg w pc).Heads (cl.view w.heap) cl.fuel cl.querybuf.len cl.parser pc :=
      control_heads w.luaTimedout (heading.parsed here).counting (heading.fits here code)
    exact heading.perform inv here (measured c cl here) landed.1 heads performed
  | wait c pc cl site here =>
    have parsed := heading.parsed here
    have fits : pc.Fits cl.parser := heading.fits here (by rw [site]; rfl)
    exact heading.set rfl (parsed.move parsed.counting rfl fun _ => ⟨rfl, rfl⟩)
      (.inr ⟨pc, rfl, fits⟩)
  | terminate c cl site here =>
    exact heading.quiet (fun d dl found => ⟨dl, found, rfl, rfl, rfl⟩) fun d pc inside => by
      cases inside

theorem Heading.init : Heading Server.init where
  parsed found := nomatch found
  fits found := nomatch found

end Heading
end Server
end Copier.Redis
