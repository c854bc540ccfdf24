import Copier.Redis.Numbers
import Copier.Redis.Original

/-! Requests as the append only file and the replication stream spell them, and how the
server reads them back: however the stream is cut into reads, it hands over exactly
the requests that are complete. -/
namespace Copier.Redis
open Reply (decimal ll2string crlf)

/-! Spelling. -/

def bulkArg (arg : Bytes) : Bytes := DOLLAR :: ll2string arg.length ++ crlf ++ arg ++ crlf

def catAppendOnlyGenericCommand (dst : Bytes) (argv : List Bytes) : Bytes :=
  dst ++ (STAR :: ll2string argv.length ++ crlf) ++ argv.flatMap bulkArg

def encode (argv : List Bytes) : Bytes := catAppendOnlyGenericCommand [] argv

theorem encode_eq (argv : List Bytes) (rest : Bytes) : encode argv ++ rest =
    STAR :: ll2string argv.length ++ CR :: LF :: (argv.flatMap bulkArg ++ rest) := by
  simp [encode, catAppendOnlyGenericCommand, crlf]

theorem bulkArg_eq (arg rest : Bytes) : bulkArg arg ++ rest =
    DOLLAR :: ll2string arg.length ++ CR :: LF :: (arg ++ (crlf ++ rest)) := by
  simp [bulkArg, crlf]

theorem length_encode (argv : List Bytes) : (encode argv).length =
    (ll2string argv.length).length + 3 + (argv.flatMap bulkArg).length := by
  have length := congrArg List.length (encode_eq argv [])
  simp only [List.append_nil, List.length_append, List.length_cons] at length
  omega

theorem length_bulkArg (arg : Bytes) : (bulkArg arg).length =
    (ll2string arg.length).length + 3 + (arg.length + 2) := by
  simp only [bulkArg, crlf, List.length_append, List.length_cons, List.length_nil]
  omega

theorem ll2string_plain (n : ℕ) : ∀ b ∈ ll2string n, b ≠ CR ∧ b ≠ NUL := by
  have plain : ∀ b : UInt8, isDigit b = true → b ≠ CR ∧ b ≠ NUL := by
    intro b digit
    simp only [isDigit, Bool.and_eq_true, decide_eq_true_eq] at digit
    constructor <;> rintro rfl
    · exact absurd digit.1 (by decide)
    · exact absurd digit.1 (by decide)
  rw [ll2string, if_neg (by omega), Int.natAbs_natCast]
  intro b member
  rcases Nat.eq_zero_or_pos n with rfl | pos
  · exact plain b (by rw [List.mem_singleton.mp member]; decide)
  · exact plain b ((decimal_canonical n pos).1.digits b member)

/-- Reading a length back gives that length, or nothing if it is out of range. -/
theorem string2ll_length {v : Int} {n : ℕ} (read : string2ll (ll2string n) = some v) : v = n := by
  obtain ⟨-, -, same⟩ := (string2ll_eq_some _ v).mp read
  have value (n : ℕ) : digitsValue 0 (decimal n) = n := by
    rcases Nat.eq_zero_or_pos n with rfl | pos
    · rfl
    · exact (decimal_canonical n pos).2
  obtain ⟨b, s, text, low, -⟩ := decimal_head n
  rw [ll2string, if_neg (by omega), Int.natAbs_natCast, ll2string] at same
  split at same
  · rw [text] at same
    cases same
    exact absurd low (by decide)
  · have values := congrArg (digitsValue 0) same
    rw [value, value] at values
    omega

/-! Headers. -/

/-- `n` unread bytes from `pos` on are the first of what is still to be read. -/
structure Buffered (view : ℕ → UInt8) (pos n : ℕ) (up : Bytes) : Prop where
  within : n ≤ up.length
  bytes : ∀ i, i < n → view (pos + i) = up.getD i NUL
  ended : view (pos + n) = NUL

section Header
variable {view : ℕ → UInt8} {pos n : ℕ} {up text rest : Bytes} {b : UInt8}

theorem Buffered.header (buffered : Buffered view pos n up) (shape : up = b :: text ++ CR :: rest)
    (before : i < text.length + 1) (inside : i < n) : view (pos + i) ∈ b :: text := by
  rw [buffered.bytes i inside, shape, List.getD_eq_getElem?_getD,
    List.getElem?_append_left (by simpa using before)]
  have bound : i < (b :: text).length := by simpa using before
  rw [List.getElem?_eq_getElem bound]
  exact List.getElem_mem bound

/-- The CR of a header is found once it has arrived. -/
theorem Buffered.strchr (buffered : Buffered view pos n up) (shape : up = b :: text ++ CR :: rest)
    (plain : ∀ x ∈ b :: text, x ≠ CR ∧ x ≠ NUL) :
    strchr view CR (n + 1) pos =
      if text.length + 1 < n then some (pos + (text.length + 1)) else none := by
  split
  · rename_i arrived
    have here : view (pos + (text.length + 1)) = CR := by
      rw [buffered.bytes _ arrived, shape, List.getD_eq_getElem?_getD,
        List.getElem?_append_right (by simp)]
      simp
    have stops : scan view CR (n + 1) pos ≤ pos + (text.length + 1) :=
      scan_stops (.inl here) (Nat.le_add_right pos (text.length + 1))
    have low := (scan_le view CR (n + 1) pos).1
    have found : view (scan view CR (n + 1) pos) = CR ∨ view (scan view CR (n + 1) pos) = NUL :=
      scan_found (by omega)
    have stop : scan view CR (n + 1) pos = pos + (text.length + 1) := by
      by_contra other
      obtain ⟨i, at_⟩ := Nat.exists_eq_add_of_le low
      rw [at_] at found other stops
      have none := plain _ (buffered.header shape (i := i) (by omega) (by omega))
      exact found.elim none.1 none.2
    simp only [Redis.strchr, stop]
    rw [if_pos ⟨by omega, here⟩]
  · rename_i missing
    by_contra some
    obtain ⟨j, found⟩ := Option.ne_none_iff_exists'.mp some
    obtain ⟨-, low, high, here⟩ := strchr_some found
    obtain ⟨i, rfl⟩ := Nat.exists_eq_add_of_le low
    rcases (by omega : i < n ∨ i = n) with inside | rfl
    · exact (plain _ (buffered.header shape (by omega) inside)).1 here
    · rw [buffered.ended] at here
      cases here

theorem Buffered.slice (buffered : Buffered view pos n up) (within : i + k ≤ n) :
    slice view (pos + i) (pos + i + k) = (up.drop i).take k := by
  have long := buffered.within
  refine List.ext_getElem ?_ fun j left right => ?_
  · rw [length_slice, List.length_take, List.length_drop]
    omega
  · rw [length_slice] at left
    rw [getElem_slice, List.getElem_take, List.getElem_drop, Nat.add_assoc,
      buffered.bytes _ (by omega), List.getD_eq_getElem?_getD,
      List.getElem?_eq_getElem (by omega), Option.getD_some]

/-- The text between the first byte of a header and its CR. -/
theorem Buffered.heading (buffered : Buffered view pos n up)
    (shape : up = b :: text ++ CR :: rest) (arrived : text.length + 1 < n) :
    view pos = b ∧ Redis.slice view (pos + 1) (pos + (text.length + 1)) = text := by
  refine ⟨?_, ?_⟩
  · have first := buffered.bytes 0 (by omega)
    rw [shape] at first
    exact first
  · rw [show pos + (text.length + 1) = pos + 1 + text.length by omega,
      buffered.slice (by omega), shape]
    simp

end Header

/-! The parser between two reads. -/

namespace Original

/-- What is left of all the client will have sent. -/
def upcoming (S : Bytes) (cl : Client) : Bytes := S.drop (cl.base + cl.parser.qb_pos)

/-- The bytes received and not yet parsed. -/
def Client.unread (cl : Client) : ℕ := cl.querybuf.length - cl.parser.qb_pos

theorem Client.Sound.buffered {cl : Client} (sound : cl.Sound) (sent : cl.stream <+: S) :
    Buffered cl.view cl.parser.qb_pos cl.unread (upcoming S cl) := by
  have bound := sound.bound
  have length := sound.length
  have longer := sent.length_le
  refine ⟨?_, fun i inside => ?_, ?_⟩
  · rw [upcoming, List.length_drop, Client.unread]
    omega
  · rw [Client.unread] at inside
    obtain ⟨more, rfl⟩ := sent
    rw [Client.view, sound.tail, upcoming, List.getD_eq_getElem?_getD, List.getD_eq_getElem?_getD,
      List.getElem?_drop, List.getElem?_drop, ← Nat.add_assoc, List.getElem?_append_left (by omega)]
  · rw [Client.unread, Nat.add_sub_cancel' bound]
    exact cl.view_end

/-- Nothing more can be done with what has arrived, unless the client is a master or is to
be parsed again after it was blocked. -/
def Short (p : Parser) (n need : ℕ) : Prop := n < need ∨ p.unblocked = true ∨ p.master = true

/-- Where the code stands between two parsers: about to go on, or waiting for more. -/
def Rests (p : Parser) (n need : ℕ) (pc : Option Pc) : Prop :=
  pc = some .top ∨ (pc = none ∨ pc = some .trim) ∧ Short p n need

/-- The length of the first request, and of whatever may come when there is none. -/
def need : List (List Bytes) → ℕ
  | [] => 1
  | argv :: _ => (encode argv).length

/-- Where the code may be with the first request not begun. -/
def Between (p : Parser) (n : ℕ) (todo : List (List Bytes)) (pc : Option Pc) : Prop :=
  Rests p n (need todo) pc ∨ p.blocked = false ∧
    (pc = some .reqtype ∧ p.reqtype = none ∧ 0 < n ∨
      (pc = some .multibulk ∨ pc = some .header) ∧ p.reqtype = some .PROTO_REQ_MULTIBULK)

/-- Where it may be with some arguments left. -/
def Among (p : Parser) (n : ℕ) (more : List Bytes) (pc : Option Pc) : Prop :=
  pc = some .bulks ∨ more = [] ∧ pc = some .execute ∨
    more ≠ [] ∧ (Rests p n (more.flatMap bulkArg).length pc ∨ pc = some .multibulk)

/-- Where it may be with the length of an argument read. -/
def Within (p : Parser) (n : ℕ) (arg : Bytes) (more : List Bytes) (pc : Option Pc) : Prop :=
  Rests p n (arg.length + 2 + (more.flatMap bulkArg).length) pc ∨
    pc = some .multibulk ∨ pc = some .bulks ∨ pc = some .argument

/-- What the parser has of the first request that is not yet handed over. -/
inductive Stands (up : Bytes) (n : ℕ) (p : Parser) (argv : List Bytes) :
    List (List Bytes) → Option Pc → Prop where
  | closed : p.closing = true → pc = none ∨ pc = some .top ∨ pc = some .trim →
      Stands up n p argv todo pc
  | held : p.blocked = true → up = todo.flatMap encode →
      pc = none ∨ pc = some .top ∨ pc = some .trim → Stands up n p argv todo pc
  | between : up = todo.flatMap encode → argv = [] → p.bulklen = none → p.multibulklen = 0 →
      p.reqtype ≠ some .PROTO_REQ_INLINE → Between p n todo pc → Stands up n p argv todo pc
  | arguments : up = more.flatMap bulkArg ++ rest.flatMap encode → p.bulklen = none →
      p.multibulklen = more.length → p.reqtype = some .PROTO_REQ_MULTIBULK → p.blocked = false →
      Among p n more pc → Stands up n p argv ((argv ++ more) :: rest) pc
  | argument : up = arg ++ (crlf ++ (more.flatMap bulkArg ++ rest.flatMap encode)) →
      p.bulklen = some arg.length → p.multibulklen = more.length + 1 →
      p.reqtype = some .PROTO_REQ_MULTIBULK → p.blocked = false →
      Within p n arg more pc → Stands up n p argv ((argv ++ arg :: more) :: rest) pc

/-- What an action makes of it. -/
def Leads (up : Bytes) (n : ℕ) (p : Parser) (argv : List Bytes) (todo : List (List Bytes)) :
    Action → Prop
  | .go q pc => ∃ k, q.qb_pos = p.qb_pos + k ∧ q.pendingCommand = p.pendingCommand ∧
      Stands (up.drop k) (n - k) q argv todo (some pc)
  | .csync pc => Stands up n p argv todo (some pc)
  | .fail _ => True
  | .bulkLength ll pos => ∃ k, pos = p.qb_pos + k ∧ k ≤ n ∧
      Stands (up.drop k) (n - k) { p with bulklen := some ll } argv todo (some .argument)
  | .take k => k + 2 ≤ n ∧ Stands (up.drop (k + 2)) (n - (k + 2))
      { p with bulklen := none, multibulklen := p.multibulklen - 1 } (argv ++ [up.take k]) todo
        (some .bulks)
  | .processCommand => ∃ rest, todo = argv :: rest ∧ up = rest.flatMap encode
  | .trimToPos => Stands up n p argv todo none
  | .resetClient | .inlineArgs _ _ | .assertFailed => False

section Control
variable {up : Bytes} {n : ℕ} {p : Parser} {argv : List Bytes} {todo : List (List Bytes)}
  {view : ℕ → UInt8} {cfg : Config}

/-- Going on without having moved. -/
theorem Leads.go (stands : Stands up n p argv todo (some pc)) :
    Leads up n p argv todo (.go p pc) := ⟨0, rfl, rfl, stands⟩

theorem need_pos (todo : List (List Bytes)) : 0 < need todo := by
  cases todo with
  | nil => exact Nat.one_pos
  | cons argv rest =>
    rw [need, length_encode]
    omega

theorem length_arguments_pos {more : List Bytes} (some : more ≠ []) :
    0 < (more.flatMap bulkArg).length := by
  obtain ⟨arg, more, rfl⟩ := List.exists_cons_of_ne_nil some
  rw [List.flatMap_cons, List.length_append, length_bulkArg]
  omega

/-- The loop is left with nothing to do, or by a client that must wait. -/
theorem Stands.leave (stands : Stands up n p argv todo (some .top))
    (reason : n = 0 ∨ p.blocked = true ∨ p.master = true ∨ p.closing = true) :
    Stands up n p argv todo (some .trim) := by
  have short {k : ℕ} (pos : 0 < k) (open_ : p.closing = false) (free : p.blocked = false) :
      Rests p n k (some .trim) := by
    refine .inr ⟨.inr rfl, ?_⟩
    rcases reason with rfl | blocked | master | closing
    · exact .inl pos
    · cases free.symm.trans blocked
    · exact .inr (.inr master)
    · cases open_.symm.trans closing
  cases stands with
  | closed closing => exact .closed closing (.inr (.inr rfl))
  | held blocked spelled => exact .held blocked spelled (.inr (.inr rfl))
  | between spelled args len count kind =>
    cases closing : p.closing with
    | true => exact .closed closing (.inr (.inr rfl))
    | false =>
      cases blocked : p.blocked with
      | true => exact .held blocked spelled (.inr (.inr rfl))
      | false => exact .between spelled args len count kind (.inl (short (need_pos todo) closing blocked))
  | arguments spelled len count kind free among =>
    cases closing : p.closing with
    | true => exact .closed closing (.inr (.inr rfl))
    | false =>
      obtain here | ⟨-, here⟩ | ⟨some, -⟩ := among
      · cases here
      · cases here
      · exact .arguments spelled len count kind free
          (.inr (.inr ⟨some, .inl (short (length_arguments_pos some) closing free)⟩))
  | argument spelled len count kind free within =>
    cases closing : p.closing with
    | true => exact .closed closing (.inr (.inr rfl))
    | false => exact .argument spelled len count kind free (.inl (short (by omega) closing free))

theorem Stands.top (stands : Stands up n p argv todo (some .top)) (pending : p.pendingCommand = false)
    (luaTimedout : Bool) : Leads up n p argv todo (loopHead luaTimedout (p.qb_pos + n) p) := by
  unfold loopHead
  split
  · exact .go (stands.leave (.inl (by omega)))
  rename_i some
  split
  · exact .go (stands.leave (.inr (.inl ‹_›)))
  rename_i free
  rw [Bool.not_eq_true] at free
  split
  · rename_i waiting
    cases pending.symm.trans waiting
  split
  · rename_i master
    exact .go (stands.leave (.inr (.inr (.inl (Bool.and_eq_true_iff.mp master).2))))
  split
  · exact .go (stands.leave (.inr (.inr (.inr ‹_›))))
  rename_i closing
  cases stands with
  | closed closed => exact absurd closed closing
  | held blocked => cases free.symm.trans blocked
  | between spelled args len count kind =>
    split
    · rename_i fresh
      exact .between spelled args len count kind (.inr ⟨free, .inl ⟨rfl, fresh, by omega⟩⟩)
    · exact absurd ‹_› kind
    · rename_i begun
      exact .go (.between spelled args len count kind (.inr ⟨free, .inr ⟨.inl rfl, begun⟩⟩))
  | arguments spelled len count kind _ among =>
    obtain here | ⟨-, here⟩ | ⟨some, -⟩ := among
    · cases here
    · cases here
    · rw [kind]
      exact .go (.arguments spelled len count kind free (.inr (.inr ⟨some, .inr rfl⟩)))
  | argument spelled len count kind _ within =>
    rw [kind]
    exact .go (.argument spelled len count kind free (.inr (.inl rfl)))

theorem Stands.reqtype (stands : Stands up n p argv todo (some .reqtype))
    (buffered : Buffered view p.qb_pos n up) : Leads up n p argv todo (requestType view p) := by
  cases stands with
  | closed _ here => rcases here with here | here | here <;> cases here
  | held _ _ here => rcases here with here | here | here <;> cases here
  | between spelled args len count kind place =>
    rcases place with rest | ⟨free, ⟨-, fresh, some⟩ | ⟨here | here, -⟩⟩
    · rcases rest with here | ⟨here | here, -⟩ <;> cases here
    · have star : view p.qb_pos = STAR := by
        have within := buffered.within
        have first := buffered.bytes 0 some
        cases todo with
        | nil => simp [spelled] at within; omega
        | cons argv rest =>
          rw [spelled, List.flatMap_cons, encode_eq] at first
          exact first
      rw [requestType, if_pos star]
      exact ⟨0, rfl, rfl, .between spelled args len count (by simp) (.inr ⟨free, .inr ⟨.inl rfl, rfl⟩⟩)⟩
    · cases here
    · cases here
  | arguments _ _ _ _ _ among =>
    obtain here | ⟨-, here⟩ | ⟨-, (here | ⟨here | here, -⟩) | here⟩ := among <;> cases here
  | argument _ _ _ _ _ within =>
    obtain (here | ⟨here | here, -⟩) | here | here | here := within <;> cases here

theorem Stands.multibulk (stands : Stands up n p argv todo (some .multibulk)) :
    Leads up n p argv todo (processMultibulkBuffer argv.length p) := by
  unfold processMultibulkBuffer
  cases stands with
  | closed _ here => rcases here with here | here | here <;> cases here
  | held _ _ here => rcases here with here | here | here <;> cases here
  | between spelled args len count kind place =>
    rw [if_pos count, args, List.length_nil, if_pos rfl]
    rcases place with rest | ⟨free, ⟨here, -⟩ | ⟨-, begun⟩⟩
    · rcases rest with here | ⟨here | here, -⟩ <;> cases here
    · cases here
    · subst args
      exact .between spelled rfl len count kind (.inr ⟨free, .inr ⟨.inr rfl, begun⟩⟩)
  | arguments spelled len count kind free among =>
    obtain here | ⟨-, here⟩ | ⟨some, -⟩ := among
    · cases here
    · cases here
    · rw [if_neg (by rw [count]; exact mt List.length_eq_zero_iff.mp some)]
      exact .go (.arguments spelled len count kind free (.inl rfl))
  | argument spelled len count kind free within =>
    rw [if_neg (by omega)]
    exact .go (.argument spelled len count kind free (.inr (.inr (.inl rfl))))

theorem Stands.header (stands : Stands up n p argv todo (some .header))
    (buffered : Buffered view p.qb_pos n up) (nonempty : ∀ argv ∈ todo, argv ≠ []) :
    Leads up n p argv todo (multibulkLength view (n + 1) (p.qb_pos + n) p) := by
  cases stands with
  | closed _ here => rcases here with here | here | here <;> cases here
  | held _ _ here => rcases here with here | here | here <;> cases here
  | arguments _ _ _ _ _ among =>
    obtain here | ⟨-, here⟩ | ⟨-, (here | ⟨here | here, -⟩) | here⟩ := among <;> cases here
  | argument _ _ _ _ _ within =>
    obtain (here | ⟨here | here, -⟩) | here | here | here := within <;> cases here
  | between spelled args len count kind place =>
    obtain ⟨free, begun⟩ : p.blocked = false ∧ p.reqtype = some .PROTO_REQ_MULTIBULK := by
      rcases place with rest | ⟨free, ⟨here, -⟩ | ⟨-, begun⟩⟩
      · rcases rest with here | ⟨here | here, -⟩ <;> cases here
      · cases here
      · exact ⟨free, begun⟩
    have waits (short : n < need todo) : Leads up n p argv todo (.go p .trim) :=
      .go (.between spelled args len count kind (.inl (.inr ⟨.inr rfl, .inl short⟩)))
    unfold multibulkLength
    cases todo with
    | nil =>
      have none : n = 0 := by
        have within := buffered.within
        rw [spelled] at within
        exact Nat.le_zero.mp within
      have missing : strchr view CR (n + 1) p.qb_pos = Option.none := by
        by_contra found
        obtain ⟨j, found⟩ := Option.ne_none_iff_exists'.mp found
        obtain ⟨-, low, high, here⟩ := strchr_some found
        have ended := buffered.ended
        rw [show p.qb_pos + n = j by omega, here] at ended
        cases ended
      rw [missing]
      dsimp only
      split
      · trivial
      · exact waits (by rw [none]; exact need_pos _)
    | cons cmd rest =>
      have shape : up = STAR :: ll2string cmd.length ++
          CR :: LF :: (cmd.flatMap bulkArg ++ rest.flatMap encode) := by
        rw [spelled, List.flatMap_cons, encode_eq]
      have plain : ∀ x ∈ STAR :: ll2string cmd.length, x ≠ CR ∧ x ≠ NUL :=
        List.forall_mem_cons.mpr ⟨by decide, ll2string_plain cmd.length⟩
      have length : need (cmd :: rest) = (ll2string cmd.length).length + 3 +
          (cmd.flatMap bulkArg).length := length_encode cmd
      rw [buffered.strchr shape plain]
      generalize digits : (ll2string cmd.length).length = L at *
      split
      · rename_i missing
        split at missing
        · cases missing
        · split
          · trivial
          · exact waits (by omega)
      · rename_i newline found
        split at found <;> cases found
        rename_i arrived
        obtain ⟨star, text⟩ := buffered.heading shape (by omega)
        rw [digits] at text
        split
        · exact waits (by omega)
        rw [star, if_neg (not_not.mpr rfl), text]
        cases read : string2ll (ll2string cmd.length) with
        | none => trivial
        | some v =>
          obtain rfl := string2ll_length read
          dsimp only
          split
          · trivial
          split
          · trivial
          split
          · rename_i zero
            have some := List.length_pos_of_ne_nil (nonempty cmd List.mem_cons_self)
            omega
          · refine ⟨L + 3, by dsimp only; omega, rfl, ?_⟩
            have skipped : up.drop (L + 3) = cmd.flatMap bulkArg ++ rest.flatMap encode := by
              rw [shape, ← digits]
              simp [List.drop_append]
            subst args
            show Stands _ _ _ [] (([] ++ cmd) :: rest) _
            exact .arguments skipped len (by simp) begun free (.inl rfl)

/-- Looking for the length of the next argument, or done with them. -/
theorem Stands.bulks (stands : Stands up n p argv todo (some .bulks))
    (buffered : Buffered view p.qb_pos n up) :
    Leads up n p argv todo (bulkLength cfg view (n + 1) (p.qb_pos + n) p) := by
  cases stands with
  | closed _ here => rcases here with here | here | here <;> cases here
  | held _ _ here => rcases here with here | here | here <;> cases here
  | between _ _ _ _ _ place =>
    rcases place with (here | ⟨here | here, -⟩) | ⟨-, ⟨here, -⟩ | ⟨here | here, -⟩⟩ <;> cases here
  | argument spelled len count kind free within =>
    unfold bulkLength
    rw [if_neg (by omega), len]
    exact .go (.argument spelled len count kind free (.inr (.inr (.inr rfl))))
  | @arguments more _ rest spelled len count kind free among =>
    unfold bulkLength
    cases more with
    | nil =>
      rw [if_pos (count.trans List.length_nil)]
      exact .go (.arguments spelled len count kind free (.inr (.inl ⟨rfl, rfl⟩)))
    | cons arg more =>
      rw [if_neg (by rw [count]; exact Nat.succ_ne_zero _), len]
      dsimp only
      have waits (short : n < ((arg :: more).flatMap bulkArg).length) :
          Leads up n p argv ((argv ++ arg :: more) :: rest) (.go p .trim) :=
        .go (.arguments spelled len count kind free
          (.inr (.inr ⟨nofun, .inl (.inr ⟨.inr rfl, .inl short⟩)⟩)))
      have shape : up = DOLLAR :: ll2string arg.length ++
          CR :: LF :: (arg ++ (crlf ++ (more.flatMap bulkArg ++ rest.flatMap encode))) := by
        rw [spelled, List.flatMap_cons, List.append_assoc, bulkArg_eq]
      have plain : ∀ x ∈ DOLLAR :: ll2string arg.length, x ≠ CR ∧ x ≠ NUL :=
        List.forall_mem_cons.mpr ⟨by decide, ll2string_plain arg.length⟩
      have length : ((arg :: more).flatMap bulkArg).length =
          (ll2string arg.length).length + 3 + (arg.length + 2) + (more.flatMap bulkArg).length := by
        rw [List.flatMap_cons, List.length_append, length_bulkArg]
      rw [buffered.strchr shape plain]
      generalize digits : (ll2string arg.length).length = L at *
      split
      · rename_i missing
        split at missing
        · cases missing
        · split
          · trivial
          · exact waits (by omega)
      · rename_i newline found
        split at found <;> cases found
        rename_i arrived
        obtain ⟨dollar, text⟩ := buffered.heading shape (by omega)
        rw [digits] at text
        split
        · exact waits (by omega)
        rw [dollar, if_neg (not_not.mpr rfl), text]
        cases read : string2ll (ll2string arg.length) with
        | none => trivial
        | some v =>
          obtain rfl := string2ll_length read
          dsimp only
          split
          · trivial
          split
          · trivial
          · refine ⟨L + 3, by omega, by omega, ?_⟩
            have skipped : up.drop (L + 3) =
                arg ++ (crlf ++ (more.flatMap bulkArg ++ rest.flatMap encode)) := by
              rw [shape, ← digits]
              simp [List.drop_append]
            exact .argument skipped rfl (count.trans List.length_cons) kind free
              (.inr (.inr (.inr rfl)))

theorem Stands.take (stands : Stands up n p argv todo (some .argument)) :
    Leads up n p argv todo (bulkArgument (p.qb_pos + n) p) := by
  cases stands with
  | closed _ here => rcases here with here | here | here <;> cases here
  | held _ _ here => rcases here with here | here | here <;> cases here
  | between _ _ _ _ _ place =>
    rcases place with (here | ⟨here | here, -⟩) | ⟨-, ⟨here, -⟩ | ⟨here | here, -⟩⟩ <;> cases here
  | arguments _ _ _ _ _ among =>
    obtain here | ⟨-, here⟩ | ⟨-, (here | ⟨here | here, -⟩) | here⟩ := among <;> cases here
  | @argument arg more _ rest spelled len count kind free within =>
    unfold bulkArgument
    rw [len]
    dsimp only
    split
    · exact .go (.argument spelled len count kind free (.inl (.inr ⟨.inr rfl, .inl (by omega)⟩)))
    · refine ⟨by omega, ?_⟩
      have taken : up.take arg.length = arg := by rw [spelled, List.take_left]
      have skipped : up.drop (arg.length + 2) = more.flatMap bulkArg ++ rest.flatMap encode := by
        rw [spelled]
        simp [List.drop_append, crlf]
      have after : Stands (up.drop (arg.length + 2)) (n - (arg.length + 2))
          { p with bulklen := none, multibulklen := p.multibulklen - 1 } (argv ++ [arg])
            ((argv ++ [arg] ++ more) :: rest) (some .bulks) :=
        .arguments skipped rfl (by dsimp only; omega) kind free (.inl rfl)
      rw [taken]
      rwa [List.append_assoc, List.singleton_append] at after

theorem Stands.execute (stands : Stands up n p argv todo (some .execute))
    (nonempty : ∀ argv ∈ todo, argv ≠ []) :
    Leads up n p argv todo (if argv.length = 0 then .resetClient else .processCommand) := by
  cases stands with
  | closed _ here => rcases here with here | here | here <;> cases here
  | held _ _ here => rcases here with here | here | here <;> cases here
  | between _ _ _ _ _ place =>
    rcases place with (here | ⟨here | here, -⟩) | ⟨-, ⟨here, -⟩ | ⟨here | here, -⟩⟩ <;> cases here
  | argument _ _ _ _ _ within =>
    obtain (here | ⟨here | here, -⟩) | here | here | here := within <;> cases here
  | arguments spelled len count kind free among =>
    obtain here | ⟨rfl, -⟩ | ⟨-, (here | ⟨here | here, -⟩) | here⟩ := among
    · cases here
    · rw [List.append_nil] at nonempty ⊢
      have some := nonempty argv List.mem_cons_self
      rw [if_neg (mt List.length_eq_zero_iff.mp some)]
      exact ⟨_, rfl, spelled⟩
    · cases here
    · cases here
    · cases here
    · cases here

/-- Elsewhere the code only leaves the buffer as it is. -/
theorem Stands.trim (stands : Stands up n p argv todo (some .trim)) : Stands up n p argv todo none := by
  cases stands with
  | closed closing => exact .closed closing (.inl rfl)
  | held blocked spelled => exact .held blocked spelled (.inl rfl)
  | between spelled args len count kind place =>
    refine .between spelled args len count kind (.inl (.inr ⟨.inl rfl, ?_⟩))
    rcases place with (here | ⟨-, short⟩) | ⟨-, ⟨here, -⟩ | ⟨here | here, -⟩⟩
    · cases here
    · exact short
    all_goals cases here
  | arguments spelled len count kind free among =>
    obtain here | ⟨-, here⟩ | ⟨some, (here | ⟨-, short⟩) | here⟩ := among
    · cases here
    · cases here
    · cases here
    · exact .arguments spelled len count kind free
        (.inr (.inr ⟨some, .inl (.inr ⟨.inl rfl, short⟩)⟩))
    · cases here
  | argument spelled len count kind free within =>
    obtain (here | ⟨-, short⟩) | here | here | here := within
    · cases here
    · exact .argument spelled len count kind free (.inl (.inr ⟨.inl rfl, short⟩))
    all_goals cases here

/-- The code runs nowhere else. -/
theorem Stands.nowhere (stands : Stands up n p argv todo (some pc)) : pc ≠ .inline ∧ pc ≠ .pending := by
  cases stands with
  | closed _ here => rcases here with here | here | here <;> cases here <;> exact ⟨nofun, nofun⟩
  | held _ _ here => rcases here with here | here | here <;> cases here <;> exact ⟨nofun, nofun⟩
  | between _ _ _ _ _ place =>
    rcases place with (here | ⟨here | here, -⟩) | ⟨-, ⟨here, -⟩ | ⟨here | here, -⟩⟩ <;> cases here <;>
      exact ⟨nofun, nofun⟩
  | arguments _ _ _ _ _ among =>
    obtain here | ⟨-, here⟩ | ⟨-, (here | ⟨here | here, -⟩) | here⟩ := among <;> cases here <;>
      exact ⟨nofun, nofun⟩
  | argument _ _ _ _ _ within =>
    obtain (here | ⟨here | here, -⟩) | here | here | here := within <;> cases here <;>
      exact ⟨nofun, nofun⟩

theorem Stands.control (stands : Stands up n p argv todo (some pc))
    (buffered : Buffered view p.qb_pos n up) (pending : p.pendingCommand = false)
    (nonempty : ∀ argv ∈ todo, argv ≠ []) (cfg : Config) (luaTimedout : Bool) :
    Leads up n p argv todo
      (control cfg luaTimedout view (n + 1) (p.qb_pos + n) argv.length p pc) := by
  cases pc with
  | top => exact stands.top pending luaTimedout
  | reqtype => exact stands.reqtype buffered
  | multibulk => exact stands.multibulk
  | header => exact stands.header buffered nonempty
  | bulks => exact stands.bulks buffered
  | argument => exact stands.take
  | inline => exact absurd rfl stands.nowhere.1
  | execute => exact stands.execute nonempty
  | pending => exact absurd rfl stands.nowhere.2
  | trim => exact stands.trim

end Control

/-! From one step to the next. -/

/-- Where the server is in the parser of a client, if it is. -/
def place (c : ℕ) : Site → Option Pc
  | .enter d => if d = c then some .top else none
  | .running d pc => if d = c then some pc else none
  | _ => none

section Client
variable {S : Bytes} {cl : Client} {n k : ℕ} {p : Parser} {argv : List Bytes}
  {todo : List (List Bytes)} {cfg : Config} {w w' : World}

/-- How the parser of a client stands to what it will have sent. -/
def Client.Stands (S : Bytes) (cl : Client) (todo : List (List Bytes)) (pc : Option Pc) : Prop :=
  Original.Stands (upcoming S cl) cl.unread cl.parser cl.argv todo pc

/-- Where the parser stands is in terms of what is ahead. -/
theorem Stands.move (stands : Original.Stands up n p argv todo pc) (pos : ℕ) :
    Original.Stands up n { p with qb_pos := pos } argv todo pc := by
  cases stands with
  | closed closing place => exact .closed closing place
  | held blocked spelled place => exact .held blocked spelled place
  | between spelled args len count kind place => exact .between spelled args len count kind place
  | arguments spelled len count kind free place =>
    exact .arguments spelled len count kind free place
  | argument spelled len count kind free place => exact .argument spelled len count kind free place

/-- Whatever it waits for, the parser starts over. -/
theorem Stands.restart (stands : Original.Stands up n p argv todo none) (m : ℕ) :
    Original.Stands up m p argv todo (some .top) := by
  cases stands with
  | closed closing => exact .closed closing (.inr (.inl rfl))
  | held blocked spelled => exact .held blocked spelled (.inr (.inl rfl))
  | between spelled args len count kind =>
    exact .between spelled args len count kind (.inl (.inl rfl))
  | arguments spelled len count kind free among =>
    obtain here | ⟨-, here⟩ | ⟨some, -⟩ := among
    · cases here
    · cases here
    · exact .arguments spelled len count kind free (.inr (.inr ⟨some, .inl (.inl rfl)⟩))
  | argument spelled len count kind free =>
    exact .argument spelled len count kind free (.inl (.inl rfl))

/-- A client that was blocked has nothing left of its request. -/
theorem Stands.unblock (stands : Original.Stands up n p argv todo none) (blocked : p.blocked = true) :
    Original.Stands up n { p.reset with blocked := false, unblocked := true } [] todo none := by
  have fresh (spelled : up = todo.flatMap encode) :
      Original.Stands up n { p.reset with blocked := false, unblocked := true } [] todo none :=
    .between spelled rfl rfl rfl nofun (.inl (.inr ⟨.inl rfl, .inr (.inl rfl)⟩))
  cases stands with
  | closed closing => exact .closed closing (.inl rfl)
  | held _ spelled => exact fresh spelled
  | between spelled => exact fresh spelled
  | arguments _ _ _ _ free => cases free.symm.trans blocked
  | argument _ _ _ _ free => cases free.symm.trans blocked

/-- After `processUnblockedClients` the client waits again, or is parsed again. -/
theorem Stands.reprocess (stands : Original.Stands up n p argv todo none) :
    (p.blocked = true → Original.Stands up n { p with unblocked := false } argv todo none) ∧
      (n = 0 → p.blocked = false →
        Original.Stands up n { p with unblocked := false } argv todo none) ∧
      Original.Stands up n { p with unblocked := false } argv todo (some .top) := by
  cases stands with
  | closed closing =>
    exact ⟨fun _ => .closed closing (.inl rfl), fun _ _ => .closed closing (.inl rfl),
      .closed closing (.inr (.inl rfl))⟩
  | held blocked spelled =>
    exact ⟨fun _ => .held blocked spelled (.inl rfl), fun _ _ => .held blocked spelled (.inl rfl),
      .held blocked spelled (.inr (.inl rfl))⟩
  | between spelled args len count kind =>
    refine ⟨fun blocked => .held blocked spelled (.inl rfl), fun none _ => ?_,
      .between spelled args len count kind (.inl (.inl rfl))⟩
    exact .between spelled args len count kind
      (.inl (.inr ⟨.inl rfl, .inl (none ▸ need_pos todo)⟩))
  | arguments spelled len count kind free among =>
    obtain here | ⟨-, here⟩ | ⟨some, -⟩ := among
    · cases here
    · cases here
    refine ⟨fun blocked => absurd (free.symm.trans blocked) nofun, fun none _ => ?_,
      .arguments spelled len count kind free (.inr (.inr ⟨some, .inl (.inl rfl)⟩))⟩
    exact .arguments spelled len count kind free
      (.inr (.inr ⟨some, .inl (.inr ⟨.inl rfl, .inl (none ▸ length_arguments_pos some)⟩)⟩))
  | argument spelled len count kind free =>
    refine ⟨fun blocked => absurd (free.symm.trans blocked) nofun, fun none _ => ?_,
      .argument spelled len count kind free (.inl (.inl rfl))⟩
    exact .argument spelled len count kind free (.inl (.inr ⟨.inl rfl, .inl (by omega)⟩))

/-- What a command leaves behind: the client waits, is to be closed, or begins the
next request. -/
theorem Stands.executed (n : ℕ) (p : Parser) (argv : List Bytes) (spelled : up = todo.flatMap encode)
    (o : Outcome) (cmd : Command) :
    Original.Stands up n (o.after cmd p) (if o.resets cmd then [] else argv) todo (some .top) := by
  cases blocks : o.blocks cmd with
  | true =>
    have stays : o.resets cmd = false := by simp [Outcome.resets, blocks]
    simp only [Outcome.after, stays]
    exact .held blocks spelled (.inr (.inl rfl))
  | false =>
    by_cases quit : cmd = .quit
    · subst quit
      simp only [Outcome.after, Outcome.resets, bne_self_eq_false, Bool.and_false]
      exact .closed (by simp) (.inr (.inl rfl))
    · have resets : o.resets cmd = true := by simp [Outcome.resets, blocks, quit]
      simp only [Outcome.after, resets, if_true]
      exact .between spelled rfl rfl rfl (fun late => by cases late) (.inl (.inl rfl))

theorem upcoming_trim (inside : pos ≤ cl.querybuf.length) :
    upcoming S (cl.trim pos) = S.drop (cl.base + pos) := by
  rw [upcoming, Client.trim, Nat.min_eq_left inside]
  rfl

/-- What has been parsed of what has been received, when an argument is taken. -/
theorem Client.Stands.took (sound : cl.Sound) (sent : cl.stream <+: S) (inside : k + 2 ≤ cl.unread)
    (stands : Original.Stands ((upcoming S cl).drop (k + 2)) (cl.unread - (k + 2))
      { cl.parser with bulklen := none, multibulklen := cl.parser.multibulklen - 1 }
      (cl.argv ++ [(upcoming S cl).take k]) todo (some .bulks)) :
    (cl.take k).Stands S todo (some .bulks) := by
  have buffered := sound.buffered sent
  have bound := sound.bound
  rw [Client.unread] at inside
  unfold Client.take
  dsimp only
  split
  · rename_i hands
    simp only [handsOver, Bool.and_eq_true, beq_iff_eq] at hands
    obtain ⟨⟨start, -⟩, length⟩ := hands
    have taken : cl.querybuf.take k = (upcoming S cl).take k := by
      obtain ⟨more, rfl⟩ := sent
      rw [upcoming, start, Nat.add_zero, List.drop_append_of_le_length sound.low, ← sound.tail,
        List.take_append_of_le_length (by omega)]
    rw [← taken, upcoming, Client.unread, List.drop_drop, start, Nat.add_zero, ← length,
      Nat.sub_zero, Nat.sub_self] at stands
    simpa only [Client.Stands, upcoming, Client.unread, start, Nat.add_zero, List.length_nil,
      Nat.sub_zero] using stands
  · have taken : slice cl.view cl.parser.qb_pos (cl.parser.qb_pos + k) = (upcoming S cl).take k :=
      buffered.slice (i := 0) (by rw [Client.unread]; omega)
    rw [← taken, upcoming, List.drop_drop, Client.unread, Nat.sub_sub] at stands
    simpa only [Client.Stands, upcoming, Client.unread, Nat.add_assoc]
      using stands.move (cl.parser.qb_pos + (k + 2))

theorem Client.Stands.leads (stands : cl.Stands S todo (some pc)) (sound : cl.Sound)
    (plain : cl.parser.pendingCommand = false) (sent : cl.stream <+: S)
    (nonempty : ∀ argv ∈ todo, argv ≠ []) (cfg : Config) (w : World) :
    Leads (upcoming S cl) cl.unread cl.parser cl.argv todo (cl.action cfg w pc) := by
  have bound := sound.bound
  have inside : cl.querybuf.length = cl.parser.qb_pos + cl.unread := by
    rw [Client.unread]
    omega
  have leads := Original.Stands.control stands (sound.buffered sent) plain nonempty cfg
    w.luaTimedout
  rw [Client.action, Nat.sub_add_comm bound, ← Client.unread]
  rwa [← inside] at leads

/-- One action of the parser, on the client it runs for. -/
theorem Client.Stands.perform (stands : cl.Stands S todo (some pc)) (sound : cl.Sound)
    (plain : cl.parser.pendingCommand = false) (sent : cl.stream <+: S)
    (nonempty : ∀ argv ∈ todo, argv ≠ [])
    (performed : perform cfg w c cl (cl.action cfg w pc) = some w') (here : w.clients c = some cl) :
    ∃ cl', w'.clients c = some cl' ∧ cl'.parser.pendingCommand = false ∧
      cl'.stream = cl.stream ∧ cl'.Stands S todo (place c w'.site) := by
  have bound := sound.bound
  have leads := stands.leads sound plain sent nonempty cfg w
  generalize cl.action cfg w pc = act at leads performed
  have own (next : Pc) : place c (.running c next) = some next := if_pos rfl
  cases act with
  | go q next =>
    cases performed
    obtain ⟨k, moved, kept, leads⟩ := leads
    refine ⟨_, Function.update_self .., kept.trans plain, rfl, ?_⟩
    simpa only [Client.Stands, upcoming, Client.unread, moved, World.put, own, List.drop_drop,
      ← Nat.add_assoc, Nat.sub_sub] using leads
  | csync next =>
    cases performed
    exact ⟨cl, here, plain, rfl, (own next).symm ▸ leads⟩
  | fail e =>
    cases performed
    exact ⟨_, Function.update_self .., plain, rfl, (own .trim).symm ▸ .closed rfl (.inr (.inr rfl))⟩
  | bulkLength ll pos =>
    cases performed
    obtain ⟨k, rfl, within, leads⟩ := leads
    refine ⟨_, Function.update_self .., ?_, ?_, ?_⟩
    · dsimp only
      split <;> exact plain
    · dsimp only
      split <;> rfl
    · simp only [World.put, own]
      split
      · have fits : cl.parser.qb_pos + k ≤ cl.querybuf.length := by
          rw [Client.unread] at within
          omega
        simp only [Client.Stands]
        rw [upcoming_trim (by exact fits)]
        simpa only [upcoming, Client.unread, Client.trim, List.drop_drop, ← Nat.add_assoc,
          Nat.sub_sub, List.length_drop, Nat.sub_zero] using leads.move 0
      · simpa only [Client.Stands, upcoming, Client.unread, List.drop_drop, ← Nat.add_assoc,
          Nat.sub_sub] using leads.move (cl.parser.qb_pos + k)
  | take k =>
    cases performed
    refine ⟨_, Function.update_self .., ?_, ?_, ?_⟩
    · simp only [Client.take]
      split <;> exact plain
    · simp only [Client.take]
      split <;> rfl
    · simp only [World.put, own]
      exact Client.Stands.took sound sent leads.1 leads.2
  | trimToPos =>
    simp only [Original.perform] at performed
    split at performed <;> cases performed
    · exact ⟨cl, here, plain, rfl, leads⟩
    · refine ⟨_, Function.update_self .., plain, rfl, ?_⟩
      simp only [Client.Stands, World.put]
      rw [upcoming_trim bound]
      have idle : Original.Stands _ _ _ _ _ none := leads
      simpa only [upcoming, Client.unread, Client.trim, place, List.length_drop, Nat.sub_zero]
        using idle.move 0
  | processCommand => cases performed
  | resetClient | inlineArgs | assertFailed => exact leads.elim

end Client
end Original
end Copier.Redis
