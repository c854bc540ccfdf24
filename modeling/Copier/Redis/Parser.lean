import Copier.Redis.Text

/-! The control of `processInputBuffer` and of the two parsers under it. Each
function reads the query buffer through a view and says what to do next; how
the buffer is kept, copied and trimmed is left to the server that runs it. -/
namespace Copier.Redis

def PROTO_INLINE_MAX_SIZE : ℕ := 1024 * 64
def PROTO_IOBUF_LEN : ℕ := 1024 * 1024 * 16
def PROTO_MBULK_BIG_ARG : ℕ := 1024 * 1024 * 17
def OBJ_ENCODING_EMBSTR_SIZE_LIMIT : ℕ := 44

structure Config where
  proto_max_bulk_len : ℕ
  client_max_querybuf_len : ℕ
  gopher_enabled : Bool

/-- The defaults of `config.c`. -/
def Config.default : Config where
  proto_max_bulk_len := 512 * 1024 * 1024
  client_max_querybuf_len := 1024 * 1024 * 1024
  gopher_enabled := false

inductive ReqType
  | PROTO_REQ_INLINE
  | PROTO_REQ_MULTIBULK
deriving DecidableEq

/-- The fields of `client` that steer the parser; `bulklen` is none where the
source has -1, and `closing` stands for either of the two close flags. -/
structure Parser where
  qb_pos : ℕ
  reqtype : Option ReqType
  multibulklen : ℕ
  bulklen : Option ℕ
  blocked : Bool
  unblocked : Bool
  pendingCommand : Bool
  closing : Bool
  master : Bool
  authRequired : Bool
  resp3 : Bool
deriving DecidableEq

/-- A client as `createClient` leaves it. -/
def Parser.created (authRequired : Bool) : Parser where
  qb_pos := 0
  reqtype := none
  multibulklen := 0
  bulklen := none
  blocked := false
  unblocked := false
  pendingCommand := false
  closing := false
  master := false
  authRequired := authRequired
  resp3 := false

/-- `resetClient`, but for the arguments. -/
def Parser.reset (p : Parser) : Parser :=
  { p with reqtype := none, multibulklen := 0, bulklen := none }

/-- How much `readQueryFromClient` asks for: no more than what a big argument
still lacks. -/
def Parser.readlen (p : Parser) (len : ℕ) : ℕ :=
  match p.reqtype, p.bulklen with
  | some .PROTO_REQ_MULTIBULK, some bulklen =>
      if p.multibulklen ≠ 0 ∧ bulklen ≥ PROTO_MBULK_BIG_ARG ∧ len < bulklen + 2 ∧
          bulklen + 2 - len < PROTO_IOBUF_LEN then bulklen + 2 - len
      else PROTO_IOBUF_LEN
  | _, _ => PROTO_IOBUF_LEN

inductive ProtocolError
  | tooBigInline
  | unbalancedQuotes
  | masterInline
  | tooBigMbulkCount
  | invalidMbulkCount
  | unauthMbulkCount
  | tooBigBulkCount
  | expectedDollar (got : UInt8)
  | invalidBulkLength
  | unauthBulkLength
deriving DecidableEq

/-- The line added by `addReplyError`; the inline error of a master is only logged. -/
def ProtocolError.reply : ProtocolError → Bytes
  | tooBigInline => ascii "-ERR Protocol error: too big inline request\r\n"
  | unbalancedQuotes => ascii "-ERR Protocol error: unbalanced quotes in request\r\n"
  | masterInline => []
  | tooBigMbulkCount => ascii "-ERR Protocol error: too big mbulk count string\r\n"
  | invalidMbulkCount => ascii "-ERR Protocol error: invalid multibulk length\r\n"
  | unauthMbulkCount => ascii "-ERR Protocol error: unauthenticated multibulk length\r\n"
  | tooBigBulkCount => ascii "-ERR Protocol error: too big bulk count string\r\n"
  | expectedDollar got => ascii "-ERR Protocol error: expected '$', got '" ++
      [if got = CR ∨ got = LF then 32 else got] ++ ascii "'\r\n"
  | invalidBulkLength => ascii "-ERR Protocol error: invalid bulk length\r\n"
  | unauthBulkLength => ascii "-ERR Protocol error: unauthenticated bulk length\r\n"

/-- Where the server thread stands inside `processInputBuffer`. -/
inductive Pc
  | top
  | reqtype
  | multibulk
  | header
  | bulks
  | argument
  | inline
  | execute
  | pending
  | trim
deriving DecidableEq

inductive Action
  | go (p : Parser) (pc : Pc)
  | csync (pc : Pc)
  | fail (e : ProtocolError)
  | bulkLength (ll pos : ℕ)
  | take (bulklen : ℕ)
  | inlineArgs (argv : List Bytes) (pos : ℕ)
  | resetClient
  | processCommand
  | trimToPos
  | assertFailed
deriving DecidableEq

/-- The head of the loop: leave it when the buffer is used up or the client is
in the middle of something, else dispatch on the request type. -/
def loopHead (luaTimedout : Bool) (len : ℕ) (p : Parser) : Action :=
  if ¬ p.qb_pos < len then .go p .trim
  else if p.blocked then .go p .trim
  else if p.pendingCommand then .go p .trim
  else if luaTimedout && p.master then .go p .trim
  else if p.closing then .go p .trim
  else match p.reqtype with
    | none => .csync .reqtype
    | some .PROTO_REQ_INLINE => .go p .inline
    | some .PROTO_REQ_MULTIBULK => .go p .multibulk

def requestType (view : ℕ → UInt8) (p : Parser) : Action :=
  if view p.qb_pos = STAR then .go { p with reqtype := some .PROTO_REQ_MULTIBULK } .multibulk
  else .go { p with reqtype := some .PROTO_REQ_INLINE } .inline

def processInlineBuffer (view : ℕ → UInt8) (fuel len : ℕ) (p : Parser) : Action :=
  match strchr view LF fuel p.qb_pos with
  | none => if len - p.qb_pos > PROTO_INLINE_MAX_SIZE then .fail .tooBigInline else .go p .trim
  | some newline =>
      let crlf := newline ≠ p.qb_pos ∧ view (newline - 1) = CR
      let stop := if crlf then newline - 1 else newline
      match sdssplitargs (slice view p.qb_pos stop) with
      | none => .fail .unbalancedQuotes
      | some argv =>
          if stop ≠ p.qb_pos ∧ p.master then .fail .masterInline
          else .inlineArgs argv (newline + 1)

/-- The entry of `processMultibulkBuffer`. -/
def processMultibulkBuffer (argc : ℕ) (p : Parser) : Action :=
  if p.multibulklen = 0 then if argc = 0 then .csync .header else .assertFailed
  else .go p .bulks

def multibulkLength (view : ℕ → UInt8) (fuel len : ℕ) (p : Parser) : Action :=
  match strchr view CR fuel p.qb_pos with
  | none => if len - p.qb_pos > PROTO_INLINE_MAX_SIZE then .fail .tooBigMbulkCount else .go p .trim
  | some newline =>
      if newline + 2 > len then .go p .trim
      else if view p.qb_pos ≠ STAR then .assertFailed
      else match string2ll (slice view (p.qb_pos + 1) newline) with
        | none => .fail .invalidMbulkCount
        | some ll =>
            if ll > 1024 * 1024 then .fail .invalidMbulkCount
            else if ll > 10 ∧ p.authRequired then .fail .unauthMbulkCount
            else if ll ≤ 0 then .go { p with qb_pos := newline + 2 } .execute
            else .go { p with qb_pos := newline + 2, multibulklen := ll.toNat } .bulks

/-- The loop over the arguments, up to the length of the next one. -/
def bulkLength (cfg : Config) (view : ℕ → UInt8) (fuel len : ℕ) (p : Parser) : Action :=
  if p.multibulklen = 0 then .go p .execute
  else match p.bulklen with
  | some _ => .go p .argument
  | none =>
      match strchr view CR fuel p.qb_pos with
      | none =>
          if len - p.qb_pos > PROTO_INLINE_MAX_SIZE then .fail .tooBigBulkCount else .go p .trim
      | some newline =>
          if newline + 2 > len then .go p .trim
          else if view p.qb_pos ≠ DOLLAR then .fail (.expectedDollar (view p.qb_pos))
          else match string2ll (slice view (p.qb_pos + 1) newline) with
            | none => .fail .invalidBulkLength
            | some ll =>
                if ll < 0 ∨ ¬ p.master ∧ ll > cfg.proto_max_bulk_len then .fail .invalidBulkLength
                else if ll > 16384 ∧ p.authRequired then .fail .unauthBulkLength
                else .bulkLength ll.toNat (newline + 2)

def bulkArgument (len : ℕ) (p : Parser) : Action :=
  match p.bulklen with
  | none => .go p .bulks
  | some bulklen => if len - p.qb_pos < bulklen + 2 then .go p .trim else .take bulklen

/-- What the code at `pc` does with a buffer of `len` bytes seen through `view`;
`fuel` bounds how far a string scan can run. -/
def control (cfg : Config) (luaTimedout : Bool) (view : ℕ → UInt8) (fuel len argc : ℕ)
    (p : Parser) : Pc → Action
  | .top => loopHead luaTimedout len p
  | .reqtype => requestType view p
  | .multibulk => processMultibulkBuffer argc p
  | .header => multibulkLength view fuel len p
  | .bulks => bulkLength cfg view fuel len p
  | .argument => bulkArgument len p
  | .inline => processInlineBuffer view fuel len p
  | .execute => if argc = 0 then .resetClient else .processCommand
  | .pending => .processCommand
  | .trim => .trimToPos

/-- The byte a scan looks for, where the code at `pc` scans. -/
def scannedFor (p : Parser) : Pc → Option UInt8
  | .header => some CR
  | .bulks => if p.multibulklen ≠ 0 ∧ p.bulklen = none then some CR else none
  | .inline => some LF
  | _ => none

/-- How many bytes from `qb_pos` on `control` reads. -/
def inspected (view : ℕ → UInt8) (fuel : ℕ) (p : Parser) (pc : Pc) : ℕ :=
  match scannedFor p pc with
  | some c => min (scan view c fuel p.qb_pos + 1 - p.qb_pos) fuel
  | none => if pc = .reqtype then 1 else 0

section Locality
variable {view other : ℕ → UInt8} {fuel budget e : ℕ} {p : Parser} {pc : Pc}

theorem inspected_scan (sought : scannedFor p pc = some c) :
    inspected view fuel p pc = min (scan view c fuel p.qb_pos + 1 - p.qb_pos) fuel := by
  simp only [inspected, sought]

/-- Two views that agree where one is inspected, the other being terminated,
give the same scan. -/
theorem strchr_agrees (sought : scannedFor p pc = some c)
    (same : ∀ j, p.qb_pos ≤ j → j < p.qb_pos + inspected view fuel p pc → view j = other j)
    (terminated : other e = NUL) (low : p.qb_pos ≤ e) (room : e < p.qb_pos + fuel)
    (budgeted : e < p.qb_pos + budget) :
    strchr other c budget p.qb_pos = strchr view c fuel p.qb_pos ∧
      ∀ j, p.qb_pos ≤ j → j ≤ scan view c fuel p.qb_pos → view j = other j := by
  rw [inspected_scan sought] at same
  have range := scan_le view c fuel p.qb_pos
  have stops : scan view c fuel p.qb_pos ≤ e := by
    by_contra late
    exact late (scan_stops (.inr ((same e low (by omega)).trans terminated)) low)
  have agree : ∀ j, p.qb_pos ≤ j → j ≤ scan view c fuel p.qb_pos → view j = other j :=
    fun j lower upper => same j lower (by omega)
  exact ⟨strchr_congr agree (by omega) (by omega), agree⟩

theorem control_congr (cfg : Config) (luaTimedout : Bool) (len argc : ℕ)
    (same : ∀ j, p.qb_pos ≤ j → j < p.qb_pos + inspected view fuel p pc → view j = other j)
    (terminated : other e = NUL) (low : p.qb_pos ≤ e) (room : e < p.qb_pos + fuel)
    (budgeted : e < p.qb_pos + budget) :
    control cfg luaTimedout other budget len argc p pc =
      control cfg luaTimedout view fuel len argc p pc := by
  cases pc with
  | top | multibulk | argument | execute | pending | trim => rfl
  | reqtype =>
    have here := same p.qb_pos (Nat.le_refl _) (by simp [inspected, scannedFor])
    simp only [control, requestType, here]
  | header =>
    obtain ⟨found, agree⟩ := strchr_agrees rfl same terminated low room budgeted
    simp only [control, multibulkLength, found]
    cases h : strchr view CR fuel p.qb_pos with
    | none => rfl
    | some newline =>
      obtain ⟨stop, above, -, -⟩ := strchr_some h
      have line : slice other (p.qb_pos + 1) newline = slice view (p.qb_pos + 1) newline :=
        slice_congr fun j lower upper => agree j (by omega) (by omega)
      simp only [line, ← agree p.qb_pos (Nat.le_refl _) (by omega)]
  | bulks =>
    simp only [control, bulkLength]
    by_cases complete : p.multibulklen = 0
    · simp only [complete, if_true]
    · cases unknown : p.bulklen with
      | some n => rfl
      | none =>
        have sought : scannedFor p .bulks = some CR := if_pos ⟨complete, unknown⟩
        obtain ⟨found, agree⟩ := strchr_agrees sought same terminated low room budgeted
        simp only [complete, if_false, found]
        cases h : strchr view CR fuel p.qb_pos with
        | none => rfl
        | some newline =>
          obtain ⟨stop, above, -, -⟩ := strchr_some h
          have line : slice other (p.qb_pos + 1) newline = slice view (p.qb_pos + 1) newline :=
            slice_congr fun j lower upper => agree j (by omega) (by omega)
          simp only [line, ← agree p.qb_pos (Nat.le_refl _) (by omega)]
  | inline =>
    obtain ⟨found, agree⟩ := strchr_agrees rfl same terminated low room budgeted
    simp only [control, processInlineBuffer, found]
    cases h : strchr view LF fuel p.qb_pos with
    | none => rfl
    | some newline =>
      obtain ⟨stop, above, -, -⟩ := strchr_some h
      by_cases first : newline = p.qb_pos
      · subst first
        simp [slice]
      · have before := agree (newline - 1) (by omega) (by omega)
        simp only [ne_eq, first, not_false_eq_true, true_and, ← before]
        have line : ∀ stop ≤ newline, slice other p.qb_pos stop = slice view p.qb_pos stop :=
          fun stop _ => slice_congr fun j lower upper => agree j lower (by omega)
        rw [line _ (by split <;> omega)]

end Locality

/-- The positions an action moves to lie inside the buffer. -/
def Action.Within (len : ℕ) (p : Parser) : Action → Prop
  | .go q _ => q.qb_pos ≤ len
  | .bulkLength _ pos => pos ≤ len
  | .take bulklen => p.qb_pos + bulklen + 2 ≤ len
  | .inlineArgs _ pos => pos ≤ len
  | _ => True

theorem control_within {cfg : Config} {luaTimedout : Bool} {view : ℕ → UInt8} {p : Parser}
    {pc : Pc} (low : p.qb_pos ≤ len) (terminated : view len = NUL) :
    (control cfg luaTimedout view (len + 1 - p.qb_pos) len argc p pc).Within len p := by
  cases pc with
  | top =>
    simp only [control, loopHead]
    repeat' split
    all_goals simp only [Action.Within, low]
  | reqtype =>
    simp only [control, requestType]
    split <;> exact low
  | multibulk =>
    simp only [control, processMultibulkBuffer]
    repeat' split
    all_goals simp only [Action.Within, low]
  | header =>
    simp only [control, multibulkLength]
    repeat' split
    all_goals simp only [Action.Within, low]
    all_goals omega
  | bulks =>
    simp only [control, bulkLength]
    repeat' split
    all_goals simp only [Action.Within, low]
    all_goals omega
  | argument =>
    simp only [control, bulkArgument]
    repeat' split
    all_goals simp only [Action.Within, low]
    all_goals omega
  | inline =>
    simp only [control, processInlineBuffer]
    cases found : strchr view LF (len + 1 - p.qb_pos) p.qb_pos with
    | none =>
      simp only
      split <;> simp only [Action.Within, low]
    | some newline =>
      obtain ⟨-, above, below, here⟩ := strchr_some found
      have inside : newline ≠ len := by
        rintro rfl
        rw [terminated] at here
        cases here
      simp only
      cases sdssplitargs _ with
      | none => trivial
      | some argv =>
        simp only
        repeat' split
        all_goals simp only [Action.Within]
        all_goals omega
  | execute =>
    simp only [control]
    split <;> trivial
  | pending | trim => trivial

/-- The positions an action moves to are not behind the parser's. -/
def Action.Onward (p : Parser) : Action → Prop
  | .go q _ => p.qb_pos ≤ q.qb_pos
  | .bulkLength _ pos => p.qb_pos ≤ pos
  | .inlineArgs _ pos => p.qb_pos ≤ pos
  | _ => True

theorem control_onward (cfg : Config) (luaTimedout : Bool) (view : ℕ → UInt8)
    (fuel len argc : ℕ) (p : Parser) (pc : Pc) :
    (control cfg luaTimedout view fuel len argc p pc).Onward p := by
  cases pc with
  | top =>
    simp only [control, loopHead]
    repeat' split
    all_goals simp only [Action.Onward, Nat.le_refl]
  | reqtype =>
    simp only [control, requestType]
    split <;> exact Nat.le_refl _
  | multibulk =>
    simp only [control, processMultibulkBuffer]
    repeat' split
    all_goals simp only [Action.Onward, Nat.le_refl]
  | header =>
    simp only [control, multibulkLength]
    cases found : strchr view CR fuel p.qb_pos with
    | none =>
      simp only
      split <;> simp only [Action.Onward, Nat.le_refl]
    | some newline =>
      have above := (strchr_some found).2.1
      simp only
      repeat' split
      all_goals simp only [Action.Onward, Nat.le_refl]
      all_goals omega
  | bulks =>
    simp only [control, bulkLength]
    cases found : strchr view CR fuel p.qb_pos with
    | none =>
      simp only
      repeat' split
      all_goals simp only [Action.Onward, Nat.le_refl]
    | some newline =>
      have above := (strchr_some found).2.1
      simp only
      repeat' split
      all_goals simp only [Action.Onward, Nat.le_refl]
      all_goals omega
  | argument =>
    simp only [control, bulkArgument]
    repeat' split
    all_goals simp only [Action.Onward, Nat.le_refl]
  | inline =>
    simp only [control, processInlineBuffer]
    cases found : strchr view LF fuel p.qb_pos with
    | none =>
      simp only
      split <;> simp only [Action.Onward, Nat.le_refl]
    | some newline =>
      have above := (strchr_some found).2.1
      simp only
      repeat' split
      all_goals simp only [Action.Onward]
      all_goals omega
  | execute =>
    simp only [control]
    split <;> trivial
  | pending | trim => trivial

/-- Only the code behind a length takes an argument, and nothing goes to the request
type but the end of a wait. -/
def Action.Steers (len : ℕ) (p : Parser) (pc : Pc) : Action → Prop
  | .go _ next => next ≠ .reqtype
  | .take bulklen => pc = .argument ∧ p.bulklen = some bulklen ∧ p.qb_pos + bulklen + 2 ≤ len
  | _ => True

theorem control_steers (cfg : Config) (luaTimedout : Bool) (view : ℕ → UInt8)
    (fuel len argc : ℕ) (p : Parser) (pc : Pc) :
    (control cfg luaTimedout view fuel len argc p pc).Steers len p pc := by
  cases pc with
  | argument =>
    simp only [control, bulkArgument]
    split
    · exact nofun
    · split
      · exact nofun
      · exact ⟨rfl, ‹_›, by omega⟩
  | top =>
    simp only [control, loopHead]
    repeat' split
    all_goals first | trivial | exact nofun
  | reqtype =>
    simp only [control, requestType]
    split <;> exact nofun
  | multibulk =>
    simp only [control, processMultibulkBuffer]
    repeat' split
    all_goals first | trivial | exact nofun
  | header =>
    simp only [control, multibulkLength]
    repeat' split
    all_goals first | trivial | exact nofun
  | bulks =>
    simp only [control, bulkLength]
    repeat' split
    all_goals first | trivial | exact nofun
  | inline =>
    simp only [control, processInlineBuffer]
    repeat' split
    all_goals first | trivial | exact nofun
  | execute =>
    simp only [control]
    split <;> trivial
  | pending | trim => trivial

/-- Server states that stop at the same events and commands. -/
inductive Site
  | idle
  | receive (c : ℕ) (data : Bytes)
  | enter (c : ℕ)
  | running (c : ℕ) (pc : Pc)
  | wait (c : ℕ) (pc : Pc)
  | terminate (c : ℕ)
  | aborted
deriving DecidableEq

/-- Where events leave the server: nowhere inside the parser. -/
def Site.Outside : Site → Prop
  | .running _ pc => pc = .pending
  | .wait _ _ => False
  | _ => True

end Copier.Redis
