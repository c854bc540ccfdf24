import Copier.Redis.AofRead

/-! What commands come to between the server that writes them to the append only file and
the one that loads it: single commands, and transactions that count as a whole. -/
namespace Copier.Redis.Aof
open Reply (decimal ll2string crlf)

/-! Feeding. -/

def selectArgv (dictid : ℕ) : List Bytes := [ascii "SELECT", ll2string dictid]

/-- The arguments a command is written with. -/
def Feed.written (f : Feed) : List Bytes :=
  if f.proc = .expireCommand ∨ f.proc = .pexpireCommand ∨ f.proc = .expireatCommand then
    expireAt f.proc (f.argv.getD 1 []) (f.argv.getD 2 []) f.mstime
  else if f.proc = .setCommand ∧ f.argv.length > 3 ∧ cString (f.argv.getD 3 []) = ascii "px" then
    setAt f.argv f.mstime
  else f.argv

def select (sel : Option ℕ) (dictid : ℕ) : List (List Bytes) :=
  if sel = some dictid then [] else [selectArgv dictid]

def commands (sel : Option ℕ) : List Feed → List (List Bytes)
  | [] => []
  | f :: feeds => select sel f.dictid ++ f.written :: commands (some f.dictid) feeds

/-- The database selected behind some commands. -/
def selected (sel : Option ℕ) (feeds : List Feed) : Option ℕ :=
  (feeds.getLast?.map Feed.dictid).or sel

theorem catAppendOnlyGenericCommand_eq (buf : Bytes) (argv : List Bytes) :
    catAppendOnlyGenericCommand buf argv = buf ++ encode argv := by
  simp [catAppendOnlyGenericCommand, encode]

theorem encode_selectArgv (dictid : ℕ) : encode (selectArgv dictid) =
    ascii "*2\r\n$6\r\nSELECT\r\n$" ++ ll2string (ll2string dictid).length ++ ascii "\r\n" ++
      ll2string dictid ++ ascii "\r\n" := by
  have head : ascii "*2\r\n$6\r\nSELECT\r\n$" = STAR :: ll2string (2 : ℕ) ++ crlf ++
      (DOLLAR :: ll2string (6 : ℕ) ++ crlf ++ ascii "SELECT" ++ crlf) ++ [DOLLAR] := by decide
  have name : (ascii "SELECT").length = 6 := by decide
  have line : ascii "\r\n" = crlf := by decide
  simp only [selectArgv, encode, catAppendOnlyGenericCommand, List.flatMap_cons, List.flatMap_nil,
    bulkArg, head, name, line, List.length_cons, List.length_nil]
  simp only [List.nil_append, List.append_nil, List.append_assoc, List.cons_append]

theorem feedAppendOnlyFile_eq (sel : Option ℕ) (f : Feed) : feedAppendOnlyFile sel f =
    ((select sel f.dictid ++ [f.written]).flatMap encode, some f.dictid) := by
  have chosen : (if sel = some f.dictid then [] else ascii "*2\r\n$6\r\nSELECT\r\n$" ++
      ll2string (ll2string f.dictid).length ++ ascii "\r\n" ++ ll2string f.dictid ++
        ascii "\r\n") = (select sel f.dictid).flatMap encode := by
    rw [← encode_selectArgv, select]
    split <;> simp
  simp only [feedAppendOnlyFile, chosen, catAppendOnlyExpireAtCommand,
    catAppendOnlyGenericCommand_eq, Feed.written, List.flatMap_append, List.flatMap_singleton]
  congr 1
  split
  · rfl
  · split <;> rfl

/-! Entries. -/

/-- What is executed at once: a command, or the commands of a transaction behind a MULTI and
in front of the EXEC that runs them. -/
inductive Entry
  | single (f : Feed)
  | transaction (first : Feed) (more : List Feed) (exec : Feed)
deriving DecidableEq

/-- The MULTI of `execCommandPropagateMulti`. -/
def multiFeed (dbid : ℕ) : Feed := ⟨.otherCommand, dbid, [ascii "MULTI"], 0⟩

def Entry.feeds : Entry → List Feed
  | single f => [f]
  | transaction first more exec => multiFeed first.dictid :: first :: more ++ [exec]

/-- The commands that change the dataset. -/
def Entry.effects : Entry → List Feed
  | single f => [f]
  | transaction first more _ => first :: more

def Entry.commands (sel : Option ℕ) (e : Entry) : List (List Bytes) := Aof.commands sel e.feeds

section Semantics
variable {σ : Type} (p : Commands σ)

/-- A command of the given kind, to a database there is, that the file can hold. -/
structure Feed.Ok (kind : Kind) (f : Feed) : Prop where
  db : f.dictid < p.dbnum ∧ f.dictid < 2 ^ 31
  fits : Fits f.written
  kind : p.lookupCommand (f.written.headD []) = some kind

def Entry.Ok : Entry → Prop
  | single f => f.Ok p .other
  | transaction first more exec => (∀ f ∈ first :: more, f.Ok p .other) ∧ exec.Ok p .exec

/-- What a command does to the dataset, and an entry. -/
def Feed.apply (data : σ) (f : Feed) : σ := p.proc data f.dictid f.written

def Entry.apply (data : σ) (e : Entry) : σ := e.effects.foldl (Feed.apply p) data

/-- The dataset after some entries. -/
def replay (log : List Entry) : σ := log.foldl (Entry.apply p) p.empty

/-- A command the loader can read and look up. -/
structure Readable (argv : List Bytes) : Prop where
  fits : Fits argv
  known : (p.lookupCommand (argv.headD [])).isSome = true

variable {p}

theorem lookup_select : p.lookupCommand ((selectArgv d).headD []) = some .select := rfl

theorem lookup_multi (dbid : ℕ) : p.lookupCommand ((multiFeed dbid).written.headD []) = some .multi :=
  rfl

theorem fits_select (small : d < 2 ^ 31) : Fits (selectArgv d) where
  some := nofun
  argc := by simp [selectArgv]
  lengths := by
    have short := ll2string_length_le d (by omega)
    simp only [selectArgv, List.forall_mem_cons, List.not_mem_nil, false_implies, implies_true,
      and_true]
    exact ⟨by decide, by omega⟩

theorem readable_select (small : d < 2 ^ 31) : Readable p (selectArgv d) := ⟨fits_select small, rfl⟩

theorem fits_multi (dbid : ℕ) : Fits (multiFeed dbid).written := by
  have written : (multiFeed dbid).written = [ascii "MULTI"] := rfl
  rw [written]
  exact ⟨nofun, by decide, by decide⟩

theorem Feed.Ok.readable {f : Feed} {kind : Kind} (ok : f.Ok p kind) : Readable p f.written :=
  ⟨ok.fits, by rw [ok.kind]; rfl⟩

theorem Entry.Ok.feeds {e : Entry} (ok : e.Ok p) :
    ∀ f ∈ e.feeds, f.dictid < 2 ^ 31 ∧ Readable p f.written := by
  cases e with
  | single f =>
    rw [Entry.feeds, List.forall_mem_singleton]
    exact ⟨ok.db.2, ok.readable⟩
  | transaction first more exec =>
    obtain ⟨all, last⟩ := ok
    rw [Entry.feeds, List.forall_mem_append, List.forall_mem_singleton, List.forall_mem_cons]
    have begun := (all first List.mem_cons_self).db.2
    exact ⟨⟨⟨begun, fits_multi _, rfl⟩, fun f member => ⟨(all f member).db.2, (all f member).readable⟩⟩,
      last.db.2, last.readable⟩

theorem readable_commands {feeds : List Feed} (sel : Option ℕ)
    (ok : ∀ f ∈ feeds, f.dictid < 2 ^ 31 ∧ Readable p f.written) :
    ∀ argv ∈ commands sel feeds, Readable p argv := by
  induction feeds generalizing sel with
  | nil => exact nofun
  | cons f feeds ih =>
    obtain ⟨⟨small, readable⟩, ok⟩ := List.forall_mem_cons.mp ok
    rw [Aof.commands, List.forall_mem_append, List.forall_mem_cons]
    refine ⟨fun argv member => ?_, readable, ih _ ok⟩
    rw [select] at member
    split at member
    · cases member
    · rw [List.mem_singleton.mp member]
      exact readable_select small

/-! Running. -/

theorem selectCommand_eq (f : FakeClient σ) (inside : d < p.dbnum) (small : d < 2 ^ 31) :
    selectCommand p f (selectArgv d) = { f with db := d } := by
  have read : string2ll (ll2string d) = some (d : Int) :=
    (string2ll_eq_some _ _).mpr ⟨by omega, by omega, rfl⟩
  rw [selectCommand]
  simp only [selectArgv, List.getD_cons_succ, List.getD_cons_zero, read]
  rw [if_pos (by omega), Int.toNat_natCast]

/-- The commands of a transaction, when they are run. -/
theorem queued_feeds {feeds : List Feed} (sel : Option ℕ) (f : FakeClient σ)
    (ok : ∀ g ∈ feeds, g.Ok p .other) (here : ∀ d, sel = some d → f.db = d) :
    (commands sel feeds).foldl (callQueued p) f =
      { f with
        data := feeds.foldl (Feed.apply p) f.data
        db := (selected sel feeds).getD f.db } := by
  induction feeds generalizing sel f with
  | nil =>
    cases sel with
    | none => rfl
    | some d =>
      rw [commands, List.foldl_nil, selected, List.getLast?_nil, ← here d rfl]
      rfl
  | cons g feeds ih =>
    obtain ⟨first, ok⟩ := List.forall_mem_cons.mp ok
    have there : (select sel g.dictid).foldl (callQueued p) f = { f with db := g.dictid } := by
      rw [select]
      split
      · rename_i same
        have same := here _ same
        rw [List.foldl_nil, ← same]
      · rw [List.foldl_cons, List.foldl_nil, callQueued, lookup_select,
          selectCommand_eq f first.db.1 first.db.2]
    rw [commands, List.foldl_append, there, List.foldl_cons, callQueued, first.kind,
      ih _ _ ok (fun d same => Option.some.inj same)]
    simp only [List.foldl_cons, Feed.apply, selected, List.getLast?_cons]
    cases feeds.getLast? <;> rfl

/-- Commands that are put off until EXEC. -/
theorem run_queued {cs : List (List Bytes)} {f : FakeClient σ} {queue : List (List Bytes)}
    (multi : f.multi = some queue)
    (put : ∀ argv ∈ cs, ∃ kind, p.lookupCommand (argv.headD []) = some kind ∧ kind ≠ .exec) :
    cs.foldl (FakeClient.run p) f = { f with multi := some (queue ++ cs) } := by
  induction cs generalizing f queue with
  | nil =>
    rw [List.append_nil, ← multi]
    rfl
  | cons argv cs ih =>
    obtain ⟨⟨kind, looked, other⟩, put⟩ := List.forall_mem_cons.mp put
    have queued : f.run p argv = { f with multi := some (queue ++ [argv]) } := by
      unfold FakeClient.run
      rw [looked, multi]
      cases kind with
      | exec => exact absurd rfl other
      | select | multi | other => rfl
    rw [List.foldl_cons, queued, ih rfl put, List.append_assoc, List.singleton_append]

theorem put_off_feeds {feeds : List Feed} (sel : Option ℕ) (ok : ∀ g ∈ feeds, g.Ok p .other) :
    ∀ argv ∈ commands sel feeds, ∃ kind, p.lookupCommand (argv.headD []) = some kind ∧
      kind ≠ .exec ∧ kind ≠ .multi := by
  induction feeds generalizing sel with
  | nil => exact nofun
  | cons f feeds ih =>
    obtain ⟨first, ok⟩ := List.forall_mem_cons.mp ok
    rw [commands, List.forall_mem_append, List.forall_mem_cons]
    refine ⟨fun argv member => ?_, ⟨.other, first.kind, nofun, nofun⟩, ih _ ok⟩
    rw [select] at member
    split at member
    · cases member
    · rw [List.mem_singleton.mp member]
      exact ⟨.select, rfl, nofun, nofun⟩

theorem commands_append (sel : Option ℕ) (feeds more : List Feed) :
    commands sel (feeds ++ more) = commands sel feeds ++ commands (selected sel feeds) more := by
  induction feeds generalizing sel with
  | nil => rfl
  | cons f feeds ih =>
    have behind : selected sel (f :: feeds) = selected (some f.dictid) feeds := by
      rw [selected, selected, List.getLast?_cons]
      cases feeds.getLast? <;> rfl
    rw [List.cons_append, commands, commands, ih, behind, List.append_assoc, List.cons_append]

theorem run_selectArgv {f : FakeClient σ} (free : f.multi = none) (inside : d < p.dbnum)
    (small : d < 2 ^ 31) : f.run p (selectArgv d) = { f with db := d } := by
  unfold FakeClient.run
  rw [lookup_select]
  simp only [free]
  rw [selectCommand_eq f inside small, free]

/-- A SELECT in front of a command, if one is due. -/
theorem run_select {f : FakeClient σ} {sel : Option ℕ} (free : f.multi = none)
    (here : ∀ d, sel = some d → f.db = d) (inside : d < p.dbnum) (small : d < 2 ^ 31) :
    (select sel d).foldl (FakeClient.run p) f = { f with db := d } := by
  rw [select]
  split
  · rename_i same
    have same := here d same
    rw [List.foldl_nil, ← same]
  · rw [List.foldl_cons, List.foldl_nil, run_selectArgv free inside small]

/-- The commands of a transaction between MULTI and EXEC, with the SELECTs among them. -/
def body (first : Feed) (more : List Feed) (exec : Feed) : List (List Bytes) :=
  commands (some first.dictid) (first :: more) ++
    select (selected (some first.dictid) (first :: more)) exec.dictid

theorem Entry.commands_transaction (sel : Option ℕ) (first : Feed) (more : List Feed) (exec : Feed) :
    (Entry.transaction first more exec).commands sel = select sel first.dictid ++
      (multiFeed first.dictid).written :: body first more exec ++ [exec.written] := by
  rw [Entry.commands, Entry.feeds, List.cons_append, List.cons_append, Aof.commands]
  rw [← List.cons_append, commands_append, body]
  simp only [Aof.commands, List.append_assoc, List.cons_append]
  rfl

theorem put_off_body {first exec : Feed} {more : List Feed}
    (ok : ∀ g ∈ first :: more, g.Ok p .other) :
    ∀ argv ∈ body first more exec, ∃ kind, p.lookupCommand (argv.headD []) = some kind ∧
      kind ≠ .exec ∧ kind ≠ .multi := by
  rw [body, List.forall_mem_append]
  refine ⟨put_off_feeds _ ok, fun argv member => ?_⟩
  rw [select] at member
  split at member
  · cases member
  · rw [List.mem_singleton.mp member]
    exact ⟨.select, rfl, nofun, nofun⟩

/-- An entry that is run as a whole. -/
theorem run_entry {e : Entry} {f : FakeClient σ} {sel : Option ℕ} (ok : e.Ok p)
    (free : f.multi = none) (here : ∀ d, sel = some d → f.db = d) :
    ∃ d, selected sel e.feeds = some d ∧ (e.commands sel).foldl (FakeClient.run p) f =
      { f with data := e.apply p f.data, db := d } := by
  cases e with
  | single g =>
    refine ⟨g.dictid, rfl, ?_⟩
    rw [Entry.commands, Entry.feeds, commands, commands, List.foldl_append,
      run_select free here ok.db.1 ok.db.2, List.foldl_cons, List.foldl_nil, FakeClient.run, ok.kind]
    simp only [free]
    rfl
  | transaction first more exec =>
    obtain ⟨all, last⟩ := ok
    have begun := (all first List.mem_cons_self).db
    refine ⟨exec.dictid, ?_, ?_⟩
    · rw [Entry.feeds, selected, List.getLast?_concat]
      rfl
    · rw [Entry.commands_transaction, List.append_assoc, List.foldl_append,
        run_select free here begun.1 begun.2, List.cons_append, List.foldl_cons]
      have opened : FakeClient.run p { f with db := first.dictid } (multiFeed first.dictid).written =
          { f with db := first.dictid, multi := some [] } := by
        unfold FakeClient.run
        rw [lookup_multi]
        simp only [free, multiCommand]
      have put : ∀ argv ∈ body first more exec, ∃ kind,
          p.lookupCommand (argv.headD []) = some kind ∧ kind ≠ .exec := fun argv member =>
        (put_off_body all argv member).imp fun _ known => ⟨known.1, known.2.1⟩
      rw [opened, List.foldl_append, run_queued rfl put, List.foldl_cons, List.foldl_nil,
        FakeClient.run, last.kind]
      simp only [execCommand, List.nil_append]
      have inside := queued_feeds (some first.dictid)
        { f with db := first.dictid, multi := some (body first more exec) } all
        fun d same => Option.some.inj same
      rw [body, List.foldl_append]
      rw [body] at inside
      rw [inside, select]
      split
      · rename_i same
        simp only [List.foldl_nil, same, Option.getD_some, free]
        rfl
      · rw [List.foldl_cons, List.foldl_nil, callQueued, lookup_select,
          selectCommand_eq _ last.db.1 last.db.2]
        simp only [free]
        rfl

/-- What is left of an entry whose last command is missing: perhaps a SELECT, or a
transaction that has begun. -/
structure Begun (p : Commands σ) (cs pre queue : List (List Bytes)) (open_ : Bool) : Prop where
  shape : cs = pre ++ (if open_ then [ascii "MULTI"] :: queue else [])
  select : pre = [] ∨ ∃ d, d < p.dbnum ∧ d < 2 ^ 31 ∧ pre = [selectArgv d]
  queue : ∀ argv ∈ queue, ∃ kind, p.lookupCommand (argv.headD []) = some kind ∧
    kind ≠ .exec ∧ kind ≠ .multi

theorem prefix_of_proper {α : Type} {part s : List α} {x : α} (start : part <+: s ++ [x])
    (short : part.length < (s ++ [x]).length) : part <+: s := by
  rcases List.prefix_concat_iff.mp start with rfl | inside
  · exact absurd short (Nat.lt_irrefl _)
  · exact inside

theorem prefix_select {part : List (List Bytes)} {sel : Option ℕ} (start : part <+: select sel d)
    (inside : d < p.dbnum) (small : d < 2 ^ 31) :
    part = [] ∨ ∃ d, d < p.dbnum ∧ d < 2 ^ 31 ∧ part = [selectArgv d] := by
  rw [select] at start
  split at start
  · exact .inl (List.prefix_nil.mp start)
  · rw [← List.nil_append [selectArgv d]] at start
    rcases List.prefix_concat_iff.mp start with rfl | none
    · exact .inr ⟨d, inside, small, rfl⟩
    · exact .inl (List.prefix_nil.mp none)

theorem Entry.Ok.begun {e : Entry} {sel : Option ℕ} {cs : List (List Bytes)} (ok : e.Ok p)
    (start : cs <+: e.commands sel) (short : cs.length < (e.commands sel).length) :
    ∃ pre queue open_, Begun p cs pre queue open_ ∧ (open_ = true → ∃ first more exec,
      e = .transaction first more exec ∧ queue <+: body first more exec) := by
  cases e with
  | single g =>
    rw [Entry.commands, Entry.feeds, Aof.commands, Aof.commands] at start short
    refine ⟨cs, [], false, ⟨(List.append_nil cs).symm, ?_, nofun⟩, nofun⟩
    exact prefix_select (prefix_of_proper start short) ok.db.1 ok.db.2
  | transaction first more exec =>
    obtain ⟨all, last⟩ := ok
    have db := (all first List.mem_cons_self).db
    rw [Entry.commands_transaction] at start short
    have inside := prefix_of_proper start short
    rcases prefix_split inside with ⟨before, -⟩ | ⟨tail, rfl, behind⟩
    · exact ⟨cs, [], false, ⟨(List.append_nil cs).symm, prefix_select before db.1 db.2, nofun⟩, nofun⟩
    · have chosen := prefix_select (p := p) (List.prefix_rfl (l := select sel first.dictid)) db.1 db.2
      cases tail with
      | nil => exact ⟨_, [], false, ⟨rfl, chosen, nofun⟩, nofun⟩
      | cons argv tail =>
        obtain ⟨rfl, queued⟩ := List.cons_prefix_cons.mp behind
        exact ⟨_, tail, true,
          ⟨rfl, chosen, fun argv member => put_off_body all argv (queued.subset member)⟩,
          fun _ => ⟨first, more, exec, rfl, queued⟩⟩

/-- None of it has touched the dataset. -/
theorem Begun.run {cs pre queue : List (List Bytes)} {f : FakeClient σ}
    (begun : Begun p cs pre queue open_) (free : f.multi = none) :
    ∃ d, cs.foldl (FakeClient.run p) f =
      { f with db := d, multi := if open_ then some queue else none } := by
  have before : ∃ d, pre.foldl (FakeClient.run p) f = { f with db := d } := by
    rcases begun.select with rfl | ⟨d, inside, small, rfl⟩
    · exact ⟨f.db, rfl⟩
    · exact ⟨d, by rw [List.foldl_cons, List.foldl_nil, run_selectArgv free inside small]⟩
  obtain ⟨d, before⟩ := before
  refine ⟨d, ?_⟩
  rw [begun.shape, List.foldl_append, before]
  cases open_ with
  | false =>
    rw [if_neg nofun, if_neg nofun, List.foldl_nil, ← free]
  | true =>
    have opened : FakeClient.run p { f with db := d } [ascii "MULTI"] =
        { f with db := d, multi := some [] } := by
      have looked : p.lookupCommand (([ascii "MULTI"] : List Bytes).headD []) = some .multi := rfl
      unfold FakeClient.run
      rw [looked]
      simp only [free, multiCommand]
    rw [if_pos rfl, if_pos rfl, List.foldl_cons, opened, run_queued rfl fun argv member =>
      (begun.queue argv member).imp fun _ known => ⟨known.1, known.2.1⟩]
    rfl

end Semantics
end Copier.Redis.Aof
