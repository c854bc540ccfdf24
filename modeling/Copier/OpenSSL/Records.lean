import Copier.Foundation.Arrivals
import Copier.Foundation.Runs

/-! The asynchronous receive of the OpenSSL server. The read callback of the BIO sets a flag
and a descriptor for the whole process; setting a tag and decrypting look at them. The
record layer asks for a header, then for what is missing of the body behind it, and either
interprets the body or sets the tag and decrypts. -/
namespace Copier.OpenSSL
open Deferred (Inbox contents)

abbrev Bytes := List UInt8

def DECRYPT_CHUNK_SIZE : ℕ := 960
def SSL3_RT_HEADER_LENGTH : ℕ := 5

/-- The block of the record layer's buffer. -/
def rbuf : ℕ := 0

/-- `AES_GCM_DEC_BYTES` depends on the platform. -/
structure Config where
  msg_size : Int
  AES_GCM_DEC_BYTES : ℕ
  block : 16 ≤ AES_GCM_DEC_BYTES

/-- What the record layer is doing, with where the record starts, the length of its body and
what was read of the part at hand. -/
inductive Phase
  | idle
  | header (start : ℕ) (got : Bytes)
  | body (start length : ℕ) (got : Bytes)
  | tagged (start : ℕ) (got : Bytes) (tag : ℕ)
  | decrypting (start : ℕ) (got : Bytes) (bulk remaining : ℕ)
deriving DecidableEq

/-- `records` and `raised` are history: how many records were begun, and for which of them
the flag was set last. -/
structure World where
  inbox : Inbox UInt8
  asyncRecv : Bool
  phase : Phase
  records : ℕ
  raised : ℕ

def init : World where
  inbox := ⟨⟨fun _ _ => 0, 1, [rbuf], []⟩, -1⟩
  asyncRecv := false
  phase := .idle
  records := 0
  raised := 0

/-- `length` is what the record layer makes of a header; `decrypted` and `asm` are what
`AES_gcm_decrypt` and `AES_GCM_ASM` return. -/
inductive Label
  | service
  | record (start : ℕ)
  | bio_read (data : Bytes)
  | length (n : ℕ)
  | interpret
  | EVP_CIPHER_CTX_ctrl (tag : ℕ)
  | generic_aes_gcm_cipher_update (asm : Bool) (mres : ℕ)
  | AES_gcm_decrypt (decrypted : ℕ)
  | SSL_write

section Functions
variable (cfg : Config) (x : World)

/-- The test of `bio_read`. -/
def Config.short (len : ℕ) : Bool := len < 16384 && (len : Int) < cfg.msg_size

/-- `recv` fills the buffer before it returns. -/
def recv (buf : ℕ) (data : Bytes) : Inbox UInt8 :=
  { x.inbox with heap := x.inbox.heap.store ⟨rbuf, buf, data.length⟩ fun k => data.getD k 0 }

def arecv (buf offset : ℕ) (data : Bytes) : Inbox UInt8 := x.inbox.receive rbuf buf offset data

def bio_read (buf len : ℕ) (data : Bytes) : World :=
  if cfg.short len then { x with asyncRecv := false, inbox := recv x buf data }
  else { x with asyncRecv := true, inbox := arecv x buf 0 data, raised := x.records }

/-- The record layer gives up when nothing comes. -/
def World.reads (buf len : ℕ) (data : Bytes) (phase : Phase) : Option World :=
  if 0 < len ∧ data.length ≤ len then
    some { bio_read cfg x buf len data with phase := if data = [] then .idle else phase }
  else none

/-- `csync` returns when these bytes are there. -/
def World.synced (off len : ℕ) : Prop := ∀ i < len, x.inbox.heap.Arrived rbuf (off + i)

instance (off len : ℕ) : Decidable (x.synced off len) :=
  inferInstanceAs (Decidable (∀ i < len, x.inbox.heap.Arrived rbuf (off + i)))

/-- The head of the waiting loop, and what follows it. -/
def World.decrypts (start : ℕ) (got : Bytes) (bulk remaining : ℕ) : World :=
  if 0 < remaining then { x with phase := .decrypting start got bulk remaining }
  else { x with asyncRecv := false, phase := .idle }

/-- Whether the update comes to the code that looks at the flag. -/
def Config.bulk (asm : Bool) (len : ℕ) : Bool := cfg.AES_GCM_DEC_BYTES ≤ len && asm

def generic_aes_gcm_cipher_update (start : ℕ) (got : Bytes) (tag : ℕ) (asm : Bool) (mres : ℕ) :
    World :=
  let len := got.length - tag
  if cfg.bulk asm len && x.asyncRecv then
    let res := (16 - mres) % 16
    x.decrypts start got res (len - res)
  else { x with phase := .idle }

def AES_gcm_decrypt (start : ℕ) (got : Bytes) (bulk remaining decrypted : ℕ) : Option World :=
  let chunk_size := if DECRYPT_CHUNK_SIZE ≤ remaining then DECRYPT_CHUNK_SIZE else remaining
  if (bulk : Int) ≤ x.inbox.descriptor ∧ decrypted ≤ chunk_size then
    if chunk_size = decrypted then
      some (x.decrypts start got (bulk + decrypted) (remaining - decrypted))
    else some { x with asyncRecv := false, phase := .idle }
  else none

end Functions

/-- One step. Only a tag that is set or got for a record at hand, or for one that is sent,
can meet the flag; for one that is sent nothing arrives. -/
def step (cfg : Config) (x : World) (l : Label) : Option World :=
  match x.phase, l with
  | _, .service => x.inbox.serve.map fun inbox => { x with inbox := inbox }
  | .idle, .record start => some { x with phase := .header start [], records := x.records + 1 }
  | .header start got, .bio_read data =>
      x.reads cfg (start + got.length) (SSL3_RT_HEADER_LENGTH - got.length) data
        (.header start (got ++ data))
  | .header start got, .length n =>
      if got.length = SSL3_RT_HEADER_LENGTH then some { x with phase := .body start n [] } else none
  | .body start n got, .bio_read data =>
      x.reads cfg (start + SSL3_RT_HEADER_LENGTH + got.length) (n - got.length) data
        (.body start n (got ++ data))
  | .body _ n got, .interpret => if got.length = n then some { x with phase := .idle } else none
  | .body start n got, .EVP_CIPHER_CTX_ctrl tag =>
      if got.length = n ∧ 0 < tag ∧ tag ≤ n ∧
          (x.asyncRecv → x.synced (start + SSL3_RT_HEADER_LENGTH + (n - tag)) tag) then
        some { x with phase := .tagged start got tag }
      else none
  | .tagged start got tag, .generic_aes_gcm_cipher_update asm mres =>
      some (generic_aes_gcm_cipher_update cfg x start got tag asm mres)
  | .decrypting start got bulk remaining, .AES_gcm_decrypt decrypted =>
      AES_gcm_decrypt x start got bulk remaining decrypted
  | .idle, .SSL_write => some x
  | _, _ => none

/-- No receive is outstanding for these bytes, and they are those that came. -/
def World.Quiet (x : World) (off : ℕ) (got : Bytes) : Prop :=
  x.synced off got.length ∧ contents x.inbox.heap.mem ⟨rbuf, off, got.length⟩ = got

/-- The descriptor counts the bytes from here, and those it has passed are those that came. -/
def World.Indexed (x : World) (off : ℕ) (got : Bytes) : Prop :=
  ∀ i, (bound : i < got.length) →
    ((i : Int) ≤ x.inbox.descriptor ↔ x.inbox.heap.Arrived rbuf (off + i)) ∧
    ((i : Int) ≤ x.inbox.descriptor → x.inbox.heap.mem rbuf (off + i) = got.get ⟨i, bound⟩)

/-- What is read outside the waiting loop has arrived, in the loop the descriptor is about
the record, and `csync` is for the record that is being received. -/
def Sound (cfg : Config) (x : World) (l : Label) : Prop :=
  match x.phase, l with
  | .header start got, .length _ => x.Quiet start got
  | .body start _ got, .interpret => x.Quiet (start + SSL3_RT_HEADER_LENGTH) got
  | .body start _ got, .EVP_CIPHER_CTX_ctrl _ =>
      if x.asyncRecv then x.raised = x.records else x.Quiet (start + SSL3_RT_HEADER_LENGTH) got
  | .tagged start got tag, .generic_aes_gcm_cipher_update asm _ =>
      (x.asyncRecv → x.Indexed (start + SSL3_RT_HEADER_LENGTH) got) ∧
        ((cfg.bulk asm (got.length - tag) && x.asyncRecv) = false →
          x.Quiet (start + SSL3_RT_HEADER_LENGTH) got)
  | .decrypting start got bulk remaining, _ =>
      bulk + remaining ≤ got.length ∧ x.Indexed (start + SSL3_RT_HEADER_LENGTH) got
  | .idle, .SSL_write => x.asyncRecv = false
  | _, _ => True

/-- Headers and records that are interpreted are short, a body that is long comes at once and
is decrypted in the loop. -/
def Whole (cfg : Config) (x : World) (l : Label) : Prop :=
  match x.phase, l with
  | .header .., .bio_read _ => cfg.short SSL3_RT_HEADER_LENGTH
  | .body _ n got, .bio_read data => cfg.short (n - got.length) ∨ data.length = n - got.length
  | .body _ n _, .interpret => cfg.short n
  | .tagged _ got tag, .generic_aes_gcm_cipher_update asm _ =>
      cfg.short got.length ∨ cfg.bulk asm (got.length - tag)
  | _, _ => True

/-- Nothing is outstanding. -/
structure World.Calm (x : World) : Prop where
  ring : x.inbox.heap.ring = []
  flag : x.asyncRecv = false

/-- These bytes were received at once. -/
structure World.Got (x : World) (off : ℕ) (got : Bytes) : Prop extends x.Calm where
  bytes : contents x.inbox.heap.mem ⟨rbuf, off, got.length⟩ = got

/-- These bytes, of the record at hand, were received as one and arrive in order. -/
structure World.Coming (x : World) (off : ℕ) (got : Bytes) : Prop where
  flag : x.asyncRecv = true
  raised : x.raised = x.records
  behind : ∃ arrived left, arrived ++ left = got ∧ x.inbox.Behind rbuf off arrived left

def Inv (cfg : Config) (x : World) : Prop :=
  match x.phase with
  | .idle => x.Calm
  | .header start got => x.Got start got
  | .body start n got =>
      x.Got (start + SSL3_RT_HEADER_LENGTH) got ∧ (cfg.short n ∨ got = []) ∨
        x.Coming (start + SSL3_RT_HEADER_LENGTH) got ∧ cfg.short n = false ∧ got.length = n
  | .tagged start got _ =>
      x.Got (start + SSL3_RT_HEADER_LENGTH) got ∧ cfg.short got.length ∨
        x.Coming (start + SSL3_RT_HEADER_LENGTH) got ∧ cfg.short got.length = false ∧
          x.inbox.heap.ring = []
  | .decrypting start got bulk remaining =>
      x.Coming (start + SSL3_RT_HEADER_LENGTH) got ∧ x.inbox.heap.ring = [] ∧
        bulk + remaining ≤ got.length

section Runs
variable {cfg : Config} {x x' : World} {off : ℕ} {got data : Bytes}

theorem short_mono (short : cfg.short n) (le : m ≤ n) : cfg.short m := by
  simp only [Config.short, Bool.and_eq_true, decide_eq_true_eq] at short ⊢
  omega

theorem synced_drained (drained : x.inbox.heap.ring = []) (off len : ℕ) : x.synced off len := by
  intro i bound t member
  rw [drained] at member
  cases member

theorem World.Got.quiet (held : x.Got off got) : x.Quiet off got := by
  exact ⟨synced_drained held.ring off got.length, held.bytes⟩

theorem World.Coming.quiet (coming : x.Coming off got) (drained : x.inbox.heap.ring = []) :
    x.Quiet off got := by
  obtain ⟨arrived, left, rfl, behind⟩ := coming.behind
  rw [behind.drained_iff.mp drained, List.append_nil]
  exact ⟨synced_drained drained off arrived.length, behind.bytes⟩

theorem World.Coming.indexed (coming : x.Coming off got) : x.Indexed off got := by
  obtain ⟨arrived, left, rfl, behind⟩ := coming.behind
  intro i bound
  exact ⟨behind.arrived_iff (by simpa using bound), behind.byte bound⟩

/-- The service goes on with the one receive there is. -/
theorem World.Coming.service {inbox : Inbox UInt8} (coming : x.Coming off got)
    (served : x.inbox.serve = some inbox) : World.Coming { x with inbox := inbox } off got := by
  obtain ⟨arrived, left, rfl, behind⟩ := coming.behind
  obtain ⟨d, rest, rfl, after⟩ := behind.serve served
  exact ⟨coming.flag, coming.raised, arrived ++ [d], rest, by simp, after⟩

theorem serve_drained (drained : x.inbox.heap.ring = []) : x.inbox.serve = none := by
  simp [Inbox.serve, Deferred.Heap.serve, drained]

/-- Once the tag is there, everything is. -/
theorem World.Coming.synced (coming : x.Coming off got) (positive : 0 < tag) (fits : tag ≤ got.length)
    (waited : x.synced (off + (got.length - tag)) tag) : x.inbox.heap.ring = [] := by
  obtain ⟨arrived, left, rfl, behind⟩ := coming.behind
  apply behind.drained_of_last
  have last := waited (tag - 1) (by omega)
  rw [List.length_append] at last fits
  have place : off + (arrived.length + left.length - tag) + (tag - 1) =
      off + (arrived.length + left.length - 1) := by omega
  rwa [place] at last

theorem World.Got.recv (held : x.Got off got) (short : cfg.short len) (data : Bytes) :
    (bio_read cfg x (off + got.length) len data).Got off (got ++ data) := by
  unfold bio_read
  rw [if_pos short]
  refine ⟨⟨held.ring, rfl⟩, ?_⟩
  rw [List.length_append]
  exact Deferred.contents_grow held.bytes 0 data

theorem World.Calm.arecv (calm : x.Calm) (long : cfg.short len = false) (off : ℕ) (data : Bytes) :
    (bio_read cfg x off len data).Coming off data := by
  unfold bio_read
  rw [if_neg (by simp [long])]
  have behind : (x.inbox.receive rbuf off ([] : Bytes).length data).Behind rbuf off [] data :=
    Deferred.Inbox.receive_behind calm.ring rfl (by decide) data
  exact ⟨rfl, rfl, [], data, rfl, behind⟩

theorem World.Calm.goto (calm : x.Calm) (phase : Phase) : World.Calm { x with phase := phase } :=
  ⟨calm.ring, calm.flag⟩

theorem World.Got.goto (held : x.Got off got) (phase : Phase) :
    World.Got { x with phase := phase } off got :=
  ⟨held.toCalm.goto phase, held.bytes⟩

theorem World.Coming.goto (coming : x.Coming off got) (phase : Phase) :
    World.Coming { x with phase := phase } off got :=
  ⟨coming.flag, coming.raised, coming.behind⟩

theorem Inv.init : Inv cfg OpenSSL.init := ⟨rfl, rfl⟩

theorem Inv.service {inbox : Inbox UInt8} (inv : Inv cfg x) (served : x.inbox.serve = some inbox) :
    Inv cfg { x with inbox := inbox } := by
  have pending : x.inbox.heap.ring ≠ [] := fun drained => by simp [serve_drained drained] at served
  unfold Inv at inv ⊢
  cases phase : x.phase with
  | idle =>
    rw [phase] at inv
    exact absurd inv.ring pending
  | header start got =>
    rw [phase] at inv
    exact absurd inv.ring pending
  | body start n got =>
    rw [phase] at inv
    rcases inv with ⟨held, -⟩ | ⟨coming, long⟩
    · exact absurd held.ring pending
    · exact .inr ⟨(coming.service served).goto _, long⟩
  | tagged start got tag =>
    rw [phase] at inv
    rcases inv with ⟨held, -⟩ | ⟨-, -, drained⟩
    · exact absurd held.ring pending
    · exact absurd drained pending
  | decrypting start got bulk remaining =>
    rw [phase] at inv
    exact absurd inv.2.1 pending

theorem reads_eq {buf len : ℕ} {phase : Phase} (reads : x.reads cfg buf len data phase = some x') :
    (0 < len ∧ data.length ≤ len) ∧
      { bio_read cfg x buf len data with phase := if data = [] then .idle else phase } = x' := by
  unfold World.reads at reads
  split at reads
  · exact ⟨‹_›, Option.some.inj reads⟩
  · cases reads

/-- A body is read, at once as far as it comes or later as a whole. -/
theorem Inv.read_body {start n : ℕ} (inv : Inv cfg x) (here : x.phase = .body start n got)
    (whole : cfg.short (n - got.length) ∨ data.length = n - got.length)
    (reads : x.reads cfg (start + SSL3_RT_HEADER_LENGTH + got.length) (n - got.length) data
      (.body start n (got ++ data)) = some x') : Inv cfg x' := by
  simp only [Inv, here] at inv
  obtain ⟨room, rfl⟩ := reads_eq reads
  rcases inv with ⟨held, first⟩ | ⟨-, -, full⟩
  · by_cases short : cfg.short (n - got.length)
    · have more := held.recv short data
      have either : cfg.short n ∨ got ++ data = [] := by
        rcases first with short | empty
        · exact .inl short
        · subst empty
          exact .inl short
      split_ifs with none_
      · exact more.toCalm.goto _
      · exact .inl ⟨more.goto _, either⟩
    · have all := whole.resolve_left short
      have empty : got = [] :=
        first.resolve_left fun short_ => short (short_mono short_ (Nat.sub_le _ _))
      subst empty
      simp only [Bool.not_eq_true] at short
      have some_ : data ≠ [] := by
        rintro rfl
        simp only [List.length_nil] at all room
        omega
      rw [if_neg some_]
      exact .inr ⟨(held.toCalm.arecv short _ data).goto _, short, all⟩
  · omega

theorem Inv.read_header {start : ℕ} (inv : Inv cfg x) (here : x.phase = .header start got)
    (short : cfg.short SSL3_RT_HEADER_LENGTH)
    (reads : x.reads cfg (start + got.length) (SSL3_RT_HEADER_LENGTH - got.length) data
      (.header start (got ++ data)) = some x') : Inv cfg x' := by
  simp only [Inv, here] at inv
  obtain ⟨room, rfl⟩ := reads_eq reads
  have more := inv.recv (short_mono short (Nat.sub_le _ got.length)) data
  split_ifs with none_
  · exact more.toCalm.goto _
  · exact more.goto _

/-- The loop goes on, or clears the flag. -/
theorem World.Coming.decrypts {start bulk remaining : ℕ}
    (coming : x.Coming (start + SSL3_RT_HEADER_LENGTH) got)
    (drained : x.inbox.heap.ring = []) (fits : bulk + remaining ≤ got.length) :
    Inv cfg (x.decrypts start got bulk remaining) := by
  unfold World.decrypts
  split_ifs
  · exact ⟨coming.goto _, drained, fits⟩
  · exact ⟨drained, rfl⟩

theorem bulk_enough (bulk : cfg.bulk asm len) : 16 ≤ len := by
  simp only [Config.bulk, Bool.and_eq_true, decide_eq_true_eq] at bulk
  exact Nat.le_trans cfg.block bulk.1

theorem Inv.decrypt {start tag mres : ℕ} (inv : Inv cfg x) (here : x.phase = .tagged start got tag)
    (whole : cfg.short got.length ∨ cfg.bulk asm (got.length - tag)) :
    Inv cfg (generic_aes_gcm_cipher_update cfg x start got tag asm mres) := by
  simp only [Inv, here] at inv
  unfold generic_aes_gcm_cipher_update
  rcases inv with ⟨held, -⟩ | ⟨coming, long, drained⟩
  · simp only [held.flag, Bool.and_false, Bool.false_eq_true, if_false]
    exact ⟨held.ring, rfl⟩
  · have bulk := whole.resolve_left (by simp [long])
    simp only [bulk, coming.flag, Bool.and_self, if_true]
    have enough := bulk_enough bulk
    exact coming.decrypts drained (by omega)

theorem Inv.loop {start bulk remaining decrypted : ℕ} (inv : Inv cfg x)
    (here : x.phase = .decrypting start got bulk remaining)
    (stepped : AES_gcm_decrypt x start got bulk remaining decrypted = some x') : Inv cfg x' := by
  simp only [Inv, here] at inv
  obtain ⟨coming, drained, fits⟩ := inv
  unfold AES_gcm_decrypt at stepped
  dsimp only at stepped
  have small : (if DECRYPT_CHUNK_SIZE ≤ remaining then DECRYPT_CHUNK_SIZE else remaining) ≤ remaining := by
    split
    · assumption
    · exact Nat.le_refl _
  generalize (if DECRYPT_CHUNK_SIZE ≤ remaining then DECRYPT_CHUNK_SIZE else remaining) = chunk
    at stepped small
  split_ifs at stepped with ready all
  · cases stepped
    exact coming.decrypts drained (by omega)
  · cases stepped
    exact ⟨drained, rfl⟩

/-- One step. -/
theorem Inv.step {l : Label} (inv : Inv cfg x) (whole : Whole cfg x l)
    (stepped : step cfg x l = some x') :
    Inv cfg x' := by
  unfold OpenSSL.step at stepped
  unfold Whole at whole
  split at stepped
  · obtain ⟨inbox, served, rfl⟩ := Option.map_eq_some_iff.mp stepped
    exact inv.service served
  · rename_i here
    cases stepped
    simp only [Inv, here] at inv
    exact ⟨⟨inv.ring, inv.flag⟩, rfl⟩
  · rename_i here
    simp only [here] at whole
    exact inv.read_header here whole stepped
  · rename_i here
    split at stepped
    · cases stepped
      simp only [Inv, here] at inv
      exact .inl ⟨⟨inv.toCalm.goto _, rfl⟩, .inr rfl⟩
    · cases stepped
  · rename_i here
    simp only [here] at whole
    exact inv.read_body here whole stepped
  · rename_i here
    simp only [here] at whole
    split at stepped
    · cases stepped
      simp only [Inv, here] at inv
      rcases inv with ⟨held, -⟩ | ⟨-, long, -⟩
      · exact held.toCalm.goto _
      · simp [long] at whole
    · cases stepped
  · rename_i here
    split at stepped
    · rename_i ready
      cases stepped
      obtain ⟨full, positive, fits, waited⟩ := ready
      simp only [Inv, here] at inv
      rcases inv with ⟨held, short | empty⟩ | ⟨coming, long, -⟩
      · exact .inl ⟨held.goto _, full ▸ short⟩
      · rw [empty] at full
        simp only [List.length_nil] at full
        omega
      · refine .inr ⟨coming.goto _, full ▸ long, coming.synced positive (full ▸ fits) ?_⟩
        rw [full]
        exact waited coming.flag
    · cases stepped
  · rename_i here
    simp only [here] at whole
    cases stepped
    exact inv.decrypt here whole
  · rename_i here
    exact inv.loop here stepped
  · rename_i here
    cases stepped
    exact inv
  · cases stepped

theorem Inv.sound {l : Label} (inv : Inv cfg x) (whole : Whole cfg x l) : Sound cfg x l := by
  unfold Inv at inv
  unfold Whole at whole
  unfold Sound
  split
  · rename_i here
    simp only [here] at inv
    exact inv.quiet
  · rename_i here
    simp only [here] at inv whole
    rcases inv with ⟨held, -⟩ | ⟨-, long, -⟩
    · exact held.quiet
    · simp [long] at whole
  · rename_i here
    simp only [here] at inv
    rcases inv with ⟨held, -⟩ | ⟨coming, -⟩
    · rw [if_neg (by simp [held.flag])]
      exact held.quiet
    · rw [if_pos coming.flag]
      exact coming.raised
  · rename_i here
    simp only [here] at inv
    rcases inv with ⟨held, -⟩ | ⟨coming, -, drained⟩
    · exact ⟨fun flag => by simp [held.flag] at flag, fun _ => held.quiet⟩
    · exact ⟨fun _ => coming.indexed, fun _ => coming.quiet drained⟩
  · rename_i here
    simp only [here] at inv
    exact ⟨inv.2.2, inv.1.indexed⟩
  · rename_i here
    simp only [here] at inv
    exact inv.flag
  · trivial

/-- In these runs the receives are waited for. -/
theorem records_arrived {ls : List Label}
    (path : Runs.Path (OpenSSL.step cfg) (Whole cfg) OpenSSL.init ls x) :
    Runs.Path (OpenSSL.step cfg) (Sound cfg) OpenSSL.init ls x ∧
      ∀ start got bulk remaining, x.phase = .decrypting start got bulk remaining →
        x.Indexed (start + SSL3_RT_HEADER_LENGTH) got := by
  have kept : ∀ {x l x'}, Inv cfg x → Whole cfg x l → OpenSSL.step cfg x l = some x' → Inv cfg x' :=
    fun inv whole stepped => inv.step whole stepped
  refine ⟨path.mono_invariant (Inv cfg) .init kept fun inv whole => inv.sound whole, ?_⟩
  intro start got bulk remaining here
  have inv := path.invariant (Inv cfg) .init kept
  simp only [Inv, here] at inv
  exact inv.1.indexed

end Runs

instance (cfg : Config) (x : World) (l : Label) : Decidable (Whole cfg x l) := by
  unfold Whole
  split <;> infer_instance

instance (x : World) (off : ℕ) (got : Bytes) : Decidable (x.Quiet off got) :=
  inferInstanceAs (Decidable (_ ∧ _))

def small : Config := ⟨16, 16, Nat.le_refl _⟩

/-- A record of 40 bytes arrives while the server waits for its tag, and is answered. -/
def answered : List Label :=
  [.record 0, .bio_read [23, 3, 3, 0, 40], .length 40, .bio_read (List.replicate 40 1)] ++
    List.replicate 40 .service ++
    [.EVP_CIPHER_CTX_ctrl 16, .generic_aes_gcm_cipher_update true 0, .AES_gcm_decrypt 24, .SSL_write]

theorem answered_whole : (Runs.run (fun x l => if Whole small x l then step small x l else none) init
    answered).isSome := by
  decide +kernel

theorem answered_arrived : ∃ x, Runs.Path (step small) (Sound small) init answered x ∧
    ∀ start got bulk remaining, x.phase = .decrypting start got bulk remaining →
      x.Indexed (start + SSL3_RT_HEADER_LENGTH) got := by
  obtain ⟨x, ran⟩ := Option.isSome_iff_exists.mp answered_whole
  exact ⟨x, records_arrived (.of_run ran)⟩

/-- A handshake record that is as long as a message. -/
def hello : List Label :=
  [.record 0, .bio_read [22, 3, 3, 0, 16], .length 16, .bio_read (List.replicate 16 1)]

theorem hello_pending : (Runs.run (step small) init hello).map
    (fun x => (x.phase, decide (x.Quiet 5 (List.replicate 16 1)))) =
      some (.body 0 16 (List.replicate 16 1), false) := by
  decide +kernel

theorem hello_interpreted : (Runs.run (step small) init (hello ++ [.interpret])).isSome := by
  decide +kernel

/-- It is interpreted before it is there. -/
theorem hello_interpreted_early : ¬ ∀ cfg ls x, Runs.run (step cfg) init ls = some x →
    Runs.Path (step cfg) (Sound cfg) init ls x := by
  intro sound
  obtain ⟨x, ran⟩ := Option.isSome_iff_exists.mp hello_interpreted
  obtain ⟨before, reached, met, -⟩ := (sound small _ x ran).last
  obtain ⟨before', reached', pending⟩ := Option.map_eq_some_iff.mp hello_pending
  cases reached.symm.trans reached'
  simp only [Prod.mk.injEq, decide_eq_false_iff_not] at pending
  simp only [Sound, pending.1] at met
  exact pending.2 met

end Copier.OpenSSL
