import Copier.Redis.ReplyBlocks

/-! Whose memory the replies of the original server lie in. A static buffer and a reply
block belong to one client at a time, and what functions give back on their own is
never either. A part of them that is being read is therefore disturbed by few steps. -/
namespace Copier.Redis.Reply
open Deferred (Span Task Access)

def blks (reply : List ReplyNode) : List ℕ := (blocksOf reply).map ReplyBlock.blk

/-- What `freeClient` gives back. -/
def Client.memory (cl : Client) : List ℕ := cl.buf :: blks cl.reply

def World.memory (w : World) (c : ℕ) : List ℕ := (w.clients c).elim [] Client.memory

/-- Given back by a function that is still running. -/
def Stmt.disposes : Stmt → List ℕ
  | sdsfree b | leave b => [b]
  | _ => []

/-- Replies are moved between different clients. -/
def Stmt.Proper : Stmt → Prop
  | AddReplyFromClient dst src | joinReply dst src => dst ≠ src
  | _ => True

inductive World.Loose (w : World) (b : ℕ) : Prop where
  | value (member : b ∈ w.values)
  | todo (member : stmt ∈ w.todo) (disposed : b ∈ stmt.disposes)

structure World.Owned (w : World) : Prop where
  nodup : ∀ c, (w.memory c).Nodup
  apart : c ≠ d → b ∈ w.memory c → b ∉ w.memory d
  live : b ∈ w.memory c → b ∈ w.heap.live
  known : b ∈ w.memory c → b < w.heap.next
  loose : w.Loose b → b < w.heap.next ∧ ∀ c, b ∉ w.memory c
  proper : ∀ stmt ∈ w.todo, stmt.Proper
  done : w.heap.ring = []

/-- Bytes that replies have filled, of somebody's static buffer or reply block. -/
structure World.Filled (w : World) (s : Span) : Prop where
  owned : ∃ c, s.blk ∈ w.memory c
  inside : w.Holds o → o.blk = s.blk → s.off + s.len ≤ o.used
  bytes : 0 < s.len

def Disturbs : Access → Span → Prop
  | .write t, s => s.Overlaps t
  | .free b, s => s.blk = b
  | .read _, _ => False

instance : (a : Access) → (s : Span) → Decidable (Disturbs a s)
  | .write t, s => inferInstanceAs (Decidable (s.Overlaps t))
  | .free b, s => inferInstanceAs (Decidable (s.blk = b))
  | .read _, _ => .isFalse id

/-- Where a statement may write to or free what a client still has to send. -/
def Stmt.hazards (w : World) (moved : Bool) : Stmt → List Access
  | addReplyToBuffer c s => onClient w c fun cl =>
      if cl.buffers s then [.write ⟨cl.buf, cl.bufpos, s.len⟩] else []
  | copyBuffer dst src => onClient w dst fun d => onClient w src fun e =>
      [.write ⟨d.buf, 0, e.bufpos⟩]
  | write .. => []
  | stmt => stmt.edits w moved

def hazards (w : World) : Label → List Access
  | .step moved => w.todo.head?.elim [] (Stmt.hazards w moved)
  | .wrote n _ => match w.todo with
    | .write c _ :: _ => onClient w c fun cl => (cl.advance n).2.map .free
    | _ => []
  | .freeClient c => onClient w c fun cl => cl.memory.map .free
  | _ => []

def Undisturbed (xs : List Access) (s : Span) : Prop := ∀ a ∈ xs, ¬ Disturbs a s

theorem Undisturbed.apart {s t : Span} (undisturbed : Undisturbed xs s) (member : .write t ∈ xs) :
    ¬ s.Overlaps t := undisturbed _ member

theorem Undisturbed.unfreed {s : Span} (undisturbed : Undisturbed xs s) (member : .free b ∈ xs) :
    s.blk ≠ b := undisturbed _ member

/-- What a step with these hazards leaves as it is. -/
structure Keeps (w w' : World) (xs : List Access) : Prop where
  owned : w'.Owned
  filled : w.Filled s → Undisturbed xs s → w'.Filled s
  bytes : w.Filled s → Undisturbed xs s → s.Has s.blk i → w'.heap.mem s.blk i = w.heap.mem s.blk i
  present : w.clients c = some cl → .free cl.buf ∉ xs → (w'.clients c).isSome

/-- A step allocates one block at most, and frees some. -/
structure Reshapes (h h' : Heap) (fresh freed : List ℕ) : Prop where
  single : fresh = [] ∨ fresh = [h.next]
  grown : h.next + fresh.length ≤ h'.next
  claimed : ∀ b ∈ fresh, b ∉ freed → b ∈ h'.live
  kept : ∀ b ∈ h.live, b ∉ freed → b ∈ h'.live
  ring : h'.ring = h.ring

section Reshapes
variable {h h' : Heap} {fresh freed : List ℕ}

theorem Reshapes.refl (h : Heap) : Reshapes h h [] [] :=
  ⟨.inl rfl, Nat.le_refl _, fun _ => nofun, fun _ live _ => live, rfl⟩

theorem Reshapes.store (reshaped : Reshapes h h' fresh freed) (s : Span) (f : ℕ → UInt8) :
    Reshapes h (h'.store s f) fresh freed :=
  ⟨reshaped.single, reshaped.grown, reshaped.claimed, reshaped.kept, reshaped.ring⟩

theorem Reshapes.claim (h : Heap) : Reshapes h h.claim [h.next] [] :=
  ⟨.inr rfl, Nat.le_refl _, fun _ own _ => List.mem_singleton.mp own ▸ List.mem_cons_self,
    fun _ live _ => List.mem_cons_of_mem _ live, rfl⟩

/-- The node of a placeholder is nobody's reply block. -/
theorem Reshapes.claim_node (h : Heap) : Reshapes h h.claim [] [] :=
  ⟨.inl rfl, Nat.le_succ _, fun _ => nofun, fun _ live _ => List.mem_cons_of_mem _ live, rfl⟩

theorem Reshapes.release (reshaped : Reshapes h h' fresh []) (bs : List ℕ) :
    Reshapes h (h'.release bs) fresh bs where
  single := reshaped.single
  grown := reshaped.grown
  claimed b own gone :=
    Deferred.Heap.mem_release.mpr ⟨reshaped.claimed b own List.not_mem_nil, gone⟩
  kept b live gone := Deferred.Heap.mem_release.mpr ⟨reshaped.kept b live List.not_mem_nil, gone⟩
  ring := reshaped.ring

theorem Reshapes.above (reshaped : Reshapes h h' fresh freed) {b : ℕ} (own : b ∈ fresh) :
    h.next ≤ b ∧ b < h'.next := by
  have grown := reshaped.grown
  rcases reshaped.single with rfl | rfl
  · cases own
  · cases List.mem_singleton.mp own
    simp only [List.length_singleton] at grown
    omega

theorem Reshapes.grows (reshaped : Reshapes h h' fresh freed) : h.next ≤ h'.next :=
  Nat.le_trans (Nat.le_add_right _ _) reshaped.grown

end Reshapes

/-- Statements that may be run next: what they dispose of is nobody's. -/
def World.Ready (w : World) (stmts : List Stmt) : Prop :=
  ∀ stmt ∈ stmts, stmt.Proper ∧ ∀ b ∈ stmt.disposes, w.Loose b

section Keeps
variable {w : World} {h : Heap} {fresh freed : List ℕ} {xs : List Access} {stmts : List Stmt}
  {cl cl' : Client} {owner : Option Client}

/-- One client is replaced, and the heap. -/
def World.replace (w : World) (h : Heap) (c : ℕ) (owner : Option Client) (todo : List Stmt) : World :=
  { w with heap := h, clients := Function.update w.clients c owner, todo := todo }

theorem replace_memory (w : World) (h : Heap) (c : ℕ) (owner : Option Client) (todo : List Stmt) :
    (w.replace h c owner todo).memory c = owner.elim [] Client.memory := by
  simp [World.memory, World.replace]

theorem replace_memory_other (w : World) (h : Heap) (owner : Option Client) (todo : List Stmt)
    (other : d ≠ c) : (w.replace h c owner todo).memory d = w.memory d := by
  simp [World.memory, World.replace, other]

theorem replace_loose (ready : w.Ready stmts)
    (after : (w.replace h c owner stmts).Loose b) : w.Loose b := by
  cases after with
  | value member => exact .value member
  | todo member disposed => exact (ready _ member).2 b disposed

theorem replace_owned (owned : w.Owned) (reshaped : Reshapes w.heap h fresh freed)
    (memory : (owner.elim [] Client.memory ++ freed).Perm (fresh ++ w.memory c))
    (ready : w.Ready stmts) :
    (w.replace h c owner stmts).Owned := by
  have whole : (fresh ++ w.memory c).Nodup := by
    refine List.nodup_append.mpr ⟨?_, owned.nodup c, ?_⟩
    · rcases reshaped.single with rfl | rfl <;> simp
    · rintro b own _ old rfl
      exact absurd (owned.known old) (by have := reshaped.above own; omega)
  have split := List.nodup_append.mp (memory.nodup_iff.mpr whole)
  have stays : ∀ b ∈ owner.elim [] Client.memory, b ∉ freed :=
    fun b own gone => split.2.2 b own b gone rfl
  have from_ : ∀ b ∈ owner.elim [] Client.memory, b ∈ fresh ∨ b ∈ w.memory c := fun b own =>
    List.mem_append.mp (memory.mem_iff.mp (List.mem_append_left _ own))
  have others : ∀ {d b}, d ≠ c → b ∈ w.memory d → b ∉ freed := fun other mine gone =>
    (List.mem_append.mp (memory.mem_iff.mp (List.mem_append_right _ gone))).elim
      (fun new => absurd (owned.known mine) (by have := reshaped.above new; omega))
      (owned.apart other mine)
  have unowned : ∀ {d b}, d ≠ c → b ∈ owner.elim [] Client.memory → b ∉ w.memory d :=
    fun other own mine => (from_ _ own).elim
      (fun new => absurd (owned.known mine) (by have := reshaped.above new; omega))
      (owned.apart other mine)
  constructor
  · intro d
    by_cases same : d = c
    · rw [same, replace_memory]
      exact split.1
    · rw [replace_memory_other _ _ _ _ same]
      exact owned.nodup d
  · intro d e b different mine
    by_cases first : d = c
    · subst first
      rw [replace_memory] at mine
      rw [replace_memory_other _ _ _ _ different.symm]
      exact unowned different.symm mine
    · rw [replace_memory_other _ _ _ _ first] at mine
      by_cases second : e = c
      · rw [second, replace_memory]
        exact fun own => unowned first own mine
      · rw [replace_memory_other _ _ _ _ second]
        exact owned.apart different mine
  · intro d b mine
    by_cases same : d = c
    · rw [same, replace_memory] at mine
      exact (from_ b mine).elim (reshaped.claimed b · (stays b mine)) fun old =>
        reshaped.kept b (owned.live old) (stays b mine)
    · rw [replace_memory_other _ _ _ _ same] at mine
      exact reshaped.kept b (owned.live mine) (others same mine)
  · intro d b mine
    by_cases same : d = c
    · rw [same, replace_memory] at mine
      exact (from_ b mine).elim (fun new => (reshaped.above new).2) fun old =>
        Nat.lt_of_lt_of_le (owned.known old) reshaped.grows
    · rw [replace_memory_other _ _ _ _ same] at mine
      exact Nat.lt_of_lt_of_le (owned.known mine) reshaped.grows
  · intro b after
    obtain ⟨known, nobody⟩ := owned.loose (replace_loose ready after)
    refine ⟨Nat.lt_of_lt_of_le known reshaped.grows, fun d mine => ?_⟩
    by_cases same : d = c
    · rw [same, replace_memory] at mine
      exact (from_ b mine).elim (fun new => absurd known (by have := reshaped.above new; omega))
        (nobody c)
    · rw [replace_memory_other _ _ _ _ same] at mine
      exact nobody d mine
  · exact fun stmt member => (ready stmt member).1
  · exact reshaped.ring.trans owned.done

/-- The client's memory is what it was, with what was allocated and without what was
freed; of blocks it still has, no less is in use. -/
theorem Keeps.replace (owned : w.Owned) (reshaped : Reshapes w.heap h fresh freed)
    (memory : (owner.elim [] Client.memory ++ freed).Perm (fresh ++ w.memory c))
    (reply : ∀ o, (∃ cl ∈ owner, .block o ∈ cl.reply) →
      (∃ o', w.Holds o' ∧ o'.blk = o.blk ∧ o'.used ≤ o.used) ∨ w.heap.next ≤ o.blk)
    (ready : w.Ready stmts)
    (spared : ∀ s, w.Filled s → Undisturbed xs s →
      s.blk ∉ freed ∧ ∀ i, s.Has s.blk i → h.mem s.blk i = w.heap.mem s.blk i)
    (present : owner = none → ∀ cl, w.clients c = some cl → .free cl.buf ∈ xs) :
    Keeps w (w.replace h c owner stmts) xs where
  owned := replace_owned owned reshaped memory ready
  filled {s} filled undisturbed := by
    obtain ⟨d, mine⟩ := filled.owned
    refine ⟨⟨d, ?_⟩, fun {o} holds same => ?_, filled.bytes⟩
    · by_cases own : d = c
      · subst own
        rw [replace_memory]
        have still := memory.mem_iff.mpr (List.mem_append_right _ mine)
        exact (List.mem_append.mp still).resolve_right (spared s filled undisturbed).1
      · rwa [replace_memory_other _ _ _ _ own]
    · have before : (∃ o', w.Holds o' ∧ o'.blk = o.blk ∧ o'.used ≤ o.used) ∨ w.heap.next ≤ o.blk := by
        obtain ⟨e, el, there, member⟩ := holds
        by_cases own : e = c
        · subst own
          simp only [World.replace, Function.update_self] at there
          exact reply o ⟨el, there, member⟩
        · simp only [World.replace, Function.update_of_ne own] at there
          exact .inl ⟨o, ⟨e, el, there, member⟩, rfl, Nat.le_refl _⟩
      rcases before with ⟨o', old, blk, used⟩ | new
      · exact Nat.le_trans (filled.inside old (blk.trans same)) used
      · exact absurd (owned.known mine) (by omega)
  bytes filled undisturbed has := (spared _ filled undisturbed).2 _ has
  present {d cl} here open_ := by
    by_cases own : d = c
    · subst own
      simp only [World.replace, Function.update_self]
      exact Option.isSome_iff_ne_none.mpr fun gone => open_ (present gone cl here)
    · simp [World.replace, own, here]

/-- A client that is there stays. -/
theorem Keeps.put (owned : w.Owned) (here : w.clients c = some cl)
    (reshaped : Reshapes w.heap h fresh freed)
    (memory : (cl'.memory ++ freed).Perm (fresh ++ cl.memory))
    (reply : ∀ o, .block o ∈ cl'.reply →
      (∃ o', .block o' ∈ cl.reply ∧ o'.blk = o.blk ∧ o'.used ≤ o.used) ∨ w.heap.next ≤ o.blk)
    (ready : w.Ready stmts)
    (spared : ∀ s, w.Filled s → Undisturbed xs s →
      s.blk ∉ freed ∧ ∀ i, s.Has s.blk i → h.mem s.blk i = w.heap.mem s.blk i) :
    Keeps w (w.put h c cl' stmts) xs := by
  refine .replace owned reshaped ?_ ?_ ready spared nofun
  · simpa [World.memory, here] using memory
  · rintro o ⟨el, there, member⟩
    cases Option.mem_some.mp there
    exact (reply o member).imp_left fun ⟨o', old, same⟩ => ⟨o', ⟨c, cl, here, old⟩, same⟩

/-- Only the heap changes, and what is left to do. -/
theorem Keeps.fill (owned : w.Owned) (reshaped : Reshapes w.heap h [] []) (ready : w.Ready stmts)
    (spared : ∀ s, w.Filled s → Undisturbed xs s →
      ∀ i, s.Has s.blk i → h.mem s.blk i = w.heap.mem s.blk i) :
    Keeps w { w with heap := h, todo := stmts } xs := by
  have replaced : Keeps w (w.replace h 0 (w.clients 0) stmts) xs := by
    refine .replace owned reshaped (by simp [World.memory]) ?_ ready
      (fun s filled undisturbed => ⟨List.not_mem_nil, spared s filled undisturbed⟩) ?_
    · rintro o ⟨cl, here, member⟩
      exact .inl ⟨o, ⟨0, cl, here, member⟩, rfl, Nat.le_refl _⟩
    · rintro absent cl here
      cases absent.symm.trans here
  rwa [World.replace, Function.update_eq_self] at replaced

theorem Keeps.resume (owned : w.Owned) (ready : w.Ready stmts) :
    Keeps w { w with todo := stmts } xs :=
  .fill owned (.refl _) ready fun _ _ _ _ _ => rfl

/-- A client changes in what is no memory of its own. -/
theorem Keeps.put_same (owned : w.Owned) (here : w.clients c = some cl)
    (reshaped : Reshapes w.heap h [] []) (buf : cl'.buf = cl.buf) (reply : cl'.reply = cl.reply)
    (ready : w.Ready stmts)
    (spared : ∀ s, w.Filled s → Undisturbed xs s →
      ∀ i, s.Has s.blk i → h.mem s.blk i = w.heap.mem s.blk i) : Keeps w (w.put h c cl' stmts) xs := by
  refine .put owned here reshaped ?_ (fun o member => .inl ⟨o, reply ▸ member, rfl, Nat.le_refl _⟩)
    ready fun s filled undisturbed => ⟨List.not_mem_nil, spared s filled undisturbed⟩
  simp [Client.memory, buf, reply]

theorem World.Filled.known (filled : w.Filled s) (owned : w.Owned) : s.blk < w.heap.next :=
  filled.owned.elim fun _ mine => owned.known mine

theorem World.Filled.not_loose (filled : w.Filled s) (owned : w.Owned) (loose : w.Loose b) :
    s.blk ≠ b := by
  rintro rfl
  obtain ⟨c, mine⟩ := filled.owned
  exact (owned.loose loose).2 c mine

theorem spared_store {s t : Span} {f : ℕ → UInt8} (apart : ¬ s.Overlaps t) (h : Heap) :
    ∀ i, s.Has s.blk i → (h.store t f).mem s.blk i = h.mem s.blk i :=
  fun _ has => Deferred.store_off (has.not_of_apart apart)

/-- The end of a reply block is not filled yet. -/
theorem World.Filled.apart_tail (filled : w.Filled s) (holds : w.Holds o) (len : ℕ) :
    ¬ s.Overlaps ⟨o.blk, o.used, len⟩ := by
  rintro ⟨same, low, high, -, -⟩
  have inside := filled.inside holds same.symm
  dsimp only at low high
  omega

theorem World.Filled.apart_fresh (filled : w.Filled s) (owned : w.Owned) (off len : ℕ) :
    ¬ s.Overlaps ⟨w.heap.next, off, len⟩ :=
  Deferred.Span.not_overlaps_blk (Nat.ne_of_lt (filled.known owned))

theorem World.Filled.spared_fresh (filled : w.Filled s) (owned : w.Owned) (len : ℕ) (src : Span) :
    ∀ i, s.Has s.blk i →
      (w.heap.claim.memcpy ⟨w.heap.next, 0, len⟩ src).mem s.blk i = w.heap.mem s.blk i :=
  spared_store (filled.apart_fresh owned 0 len) w.heap.claim

theorem World.Owned.ready (owned : w.Owned) : w.Ready w.todo :=
  fun stmt member => ⟨owned.proper stmt member, fun _ disposed => .todo member disposed⟩

theorem World.Owned.rest (owned : w.Owned) {stmt : Stmt} {rest : List Stmt}
    (todo : w.todo = stmt :: rest) : w.Ready rest :=
  fun stmt member => owned.ready stmt (todo ▸ List.mem_cons_of_mem _ member)

theorem World.Ready.nil : w.Ready [] := fun _ => nofun

theorem World.Ready.cons (ready : w.Ready stmts) {stmt : Stmt} (proper : stmt.Proper)
    (none : stmt.disposes = []) : w.Ready (stmt :: stmts) :=
  List.forall_mem_cons.mpr ⟨⟨proper, by simp [none]⟩, ready⟩

/-- A stack buffer or a value is added. -/
theorem Keeps.keep (owned : w.Owned) (len : ℕ) (f : ℕ → UInt8)
    (ready : ∀ stmt ∈ stmts, stmt.Proper ∧ ∀ b ∈ stmt.disposes, b = w.heap.next ∨ w.Loose b) :
    Keeps w { w with
      heap := w.heap.claim.store ⟨w.heap.next, 0, len⟩ f
      values := w.heap.next :: w.values
      todo := stmts } xs where
  owned := by
    refine ⟨owned.nodup, owned.apart, fun mine => List.mem_cons_of_mem _ (owned.live mine),
      fun mine => Nat.lt_succ_of_lt (owned.known mine), fun {b} after => ?_,
      fun stmt member => (ready stmt member).1, owned.done⟩
    have before : b = w.heap.next ∨ w.Loose b := by
      cases after with
      | value member => exact (List.mem_cons.mp member).imp_right .value
      | todo member disposed => exact (ready _ member).2 b disposed
    rcases before with rfl | old
    · exact ⟨Nat.lt_succ_self _, fun c mine => Nat.lt_irrefl _ (owned.known mine)⟩
    · exact (owned.loose old).imp_left Nat.lt_succ_of_lt
  filled filled _ := ⟨filled.owned, filled.inside, filled.bytes⟩
  bytes filled _ has := spared_store (filled.apart_fresh owned 0 len) w.heap.claim _ has
  present here _ := Option.isSome_iff_exists.mpr ⟨_, here⟩

/-- Something that is nobody's is given back. -/
theorem Keeps.forget (owned : w.Owned) (gone : w.Loose b) (ready : w.Ready stmts) :
    Keeps w (w.forget b stmts) xs where
  owned := by
    refine ⟨owned.nodup, owned.apart, fun mine => ?_, owned.known, fun after => owned.loose ?_,
      fun stmt member => (ready stmt member).1, owned.done⟩
    · refine Deferred.Heap.mem_release.mpr ⟨owned.live mine, fun same => ?_⟩
      cases List.mem_singleton.mp same
      exact (owned.loose gone).2 _ mine
    · cases after with
      | value member => exact .value (List.mem_of_mem_filter member)
      | todo member disposed => exact (ready _ member).2 _ disposed
  filled filled _ := ⟨filled.owned, filled.inside, filled.bytes⟩
  bytes _ _ _ := rfl
  present here _ := Option.isSome_iff_exists.mpr ⟨_, here⟩

/-- What was sent, the clock and whether the server stopped do not matter. -/
theorem Keeps.observe {w' : World} (keeps : Keeps w w' xs) (sent : ℕ → Bytes) (now : ℕ)
    (stopped : Bool) : Keeps w { w' with sent := sent, unixtime := now, stopped := stopped } xs where
  owned := ⟨keeps.owned.nodup, keeps.owned.apart, keeps.owned.live, keeps.owned.known,
    fun after => keeps.owned.loose (by
      cases after with
      | value member => exact .value member
      | todo member disposed => exact .todo member disposed), keeps.owned.proper, keeps.owned.done⟩
  filled filled undisturbed :=
    have after := keeps.filled filled undisturbed
    ⟨after.owned, after.inside, after.bytes⟩
  bytes := keeps.bytes
  present := keeps.present

end Keeps

section Lists
variable {reply before after : List ReplyNode} {o p : ReplyBlock} {node : ℕ}

theorem blks_append (xs ys : List ReplyNode) : blks (xs ++ ys) = blks xs ++ blks ys := by
  simp [blks, blocksOf]

@[simp] theorem blks_nil : blks [] = [] := rfl

@[simp] theorem blks_block (o : ReplyBlock) (ns : List ReplyNode) :
    blks (.block o :: ns) = o.blk :: blks ns := rfl

@[simp] theorem blks_deferred (node : ℕ) (ns : List ReplyNode) : blks (.deferred node :: ns) = blks ns := rfl

theorem lastBlock_eq (last : lastBlock reply = some o) : reply = reply.dropLast ++ [.block o] := by
  simp only [lastBlock, Option.bind_eq_some_iff] at last
  obtain ⟨n, last, block⟩ := last
  cases n with
  | block =>
    cases Option.some.inj block
    exact (List.dropLast_append_getLast? _ last).symm
  | deferred => cases block

theorem firstBlock_eq (first : firstBlock reply = some o) : reply = .block o :: reply.tail := by
  cases reply with
  | nil => cases first
  | cons n ns =>
    cases n with
    | block =>
      cases Option.some.inj first
      rfl
    | deferred => cases first

theorem blks_grown (last : lastBlock reply = some o) (same : p.blk = o.blk) :
    blks (reply.dropLast ++ [.block p]) = blks reply := by
  have whole := congrArg blks (lastBlock_eq last)
  rw [blks_append, blks_block, blks_nil] at whole ⊢
  rw [whole, same]

theorem blks_around (found : around node reply = some (before, after)) :
    blks reply = blks before ++ blks after := by
  rw [around_eq found, blks_append, blks_deferred]

end Lists

section Functions
variable {cfg : Config} {w w' : World} {cl : Client} {s : Span} {rest : List Stmt} {node : ℕ}
  {moved : Bool} {xs : List Access}

theorem spell_keeps (owned : w.Owned) (text : Bytes)
    (ready : ∀ stmt ∈ todo, stmt.Proper ∧ ∀ b ∈ stmt.disposes, b = w.heap.next ∨ w.Loose b) :
    Keeps w (w.spell text todo) xs := .keep owned _ _ ready

/-- A text of its own is added and its buffer left. -/
theorem spell_leave_keeps (owned : w.Owned) (ready : w.Ready rest) (text : Bytes) {stmt : Stmt}
    (proper : stmt.Proper) (none : stmt.disposes = []) :
    Keeps w (w.spell text (stmt :: .leave w.heap.next :: rest)) xs := by
  refine spell_keeps owned text (List.forall_mem_cons.mpr ⟨⟨proper, by simp [none]⟩,
    List.forall_mem_cons.mpr ⟨⟨trivial, fun b own => .inl (List.mem_singleton.mp own)⟩, ?_⟩⟩)
  exact fun stmt member => (ready stmt member).imp_right fun loose b disposed => .inr (loose b disposed)

theorem addReplyToBuffer_keeps (owned : w.Owned) (here : w.clients c = some cl)
    (ready : w.Ready rest) :
    Keeps w (addReplyToBuffer w c cl s rest) (Stmt.hazards w moved (.addReplyToBuffer c s)) := by
  unfold addReplyToBuffer
  split
  · exact .resume owned ready
  · split
    · rename_i fits
      refine .put_same owned here (.store (.refl _) _ _) rfl rfl ready
        fun t filled undisturbed => spared_store (undisturbed.apart ?_) _
      simp [Stmt.hazards, onClient, here, fits]
    · exact .resume owned (ready.cons trivial rfl)

theorem newBlocks_ready (ready : w.Ready rest) (c : ℕ) (s : Span) :
    w.Ready (newBlocks c s ++ rest) := by
  unfold newBlocks
  split
  · exact ready
  · exact ready.cons trivial rfl

theorem addReplyProtoToList_keeps (owned : w.Owned) (here : w.clients c = some cl)
    (ready : w.Ready rest) : Keeps w (addReplyProtoToList w c cl s rest) xs := by
  unfold addReplyProtoToList
  split
  · exact .resume owned ready
  · cases last : lastBlock cl.reply with
    | none => exact .resume owned (newBlocks_ready ready c s)
    | some tail =>
      refine .put owned here (.store (.refl _) _ _) ?_ (fun o member => .inl (grown_tail last o member))
        (newBlocks_ready ready c _) fun t filled _ => ⟨List.not_mem_nil, ?_⟩
      · simp [Client.memory, blks_grown last]
      · exact spared_store (filled.apart_tail ⟨c, cl, here, lastBlock_mem last⟩ _) _

theorem newBlock_keeps (owned : w.Owned) (here : w.clients c = some cl) (ready : w.Ready rest) :
    Keeps w (newBlock cfg .original w c cl s rest) xs := by
  have same := closeClient_same
  refine .put owned here (.store (.claim _) _ _) ?_ (fun o member => ?_) ready
    fun t filled _ => ⟨List.not_mem_nil, filled.spared_fresh owned s.len _⟩
  · simp only [Client.memory, (same _ _ _).1, (same _ _ _).2, blks_append, blks_block, blks_nil,
      List.append_nil]
    exact List.perm_append_singleton _ (cl.buf :: blks cl.reply)
  · rw [(same _ _ _).1] at member
    rcases List.mem_append.mp member with old | new
    · exact .inl ⟨o, old, rfl, Nat.le_refl _⟩
    · cases List.mem_singleton.mp new
      exact .inr (Nat.le_refl _)

theorem addReplyLongLongWithPrefix_keeps (owned : w.Owned) (ready : w.Ready rest) (c : ℕ)
    (ll : Int) (pre : UInt8) : Keeps w (addReplyLongLongWithPrefix w c ll pre rest) xs := by
  unfold addReplyLongLongWithPrefix
  split
  · exact .resume owned (ready.cons trivial rfl)
  · exact spell_leave_keeps owned ready _ trivial rfl

theorem setDeferredAggregateLen_keeps (owned : w.Owned) (ready : w.Ready rest) :
    Keeps w (setDeferredAggregateLen w c node length pre rest) xs := by
  unfold setDeferredAggregateLen
  split
  · exact .resume owned (ready.cons trivial rfl)
  · exact spell_leave_keeps owned ready _ trivial rfl

/-- The list of one client behind that of another. -/
def World.join (w : World) (dst src : ℕ) (d e : Client) (todo : List Stmt) : World :=
  { w with
    clients := Function.update (Function.update w.clients dst (some d)) src (some e)
    todo := todo }

theorem mem_join {d e : Client} (different : dst ≠ src) (joined : d.memory = w.memory dst ++ moving)
    (emptied : e.memory = [buf]) (todo : List Stmt) (x : ℕ) :
    b ∈ (w.join dst src d e todo).memory x ↔
      x = src ∧ b = buf ∨ x = dst ∧ (b ∈ w.memory dst ∨ b ∈ moving) ∨
        x ≠ src ∧ x ≠ dst ∧ b ∈ w.memory x := by
  by_cases last : x = src
  · subst last
    simp [World.memory, World.join, emptied, different.symm]
  · by_cases first : x = dst
    · subst first
      simp only [World.memory] at joined
      simp [World.memory, World.join, different, joined]
    · simp [World.memory, World.join, last, first]

theorem join_owned {d e : Client} (owned : w.Owned) (different : dst ≠ src)
    (joined : d.memory = w.memory dst ++ moving) (emptied : e.memory = [buf])
    (source : w.memory src = buf :: moving) (ready : w.Ready todo) :
    (w.join dst src d e todo).Owned := by
  have place : ∀ {b} x, _ := fun {b} x => mem_join (b := b) different joined emptied todo x
  have before := List.nodup_cons.mp (source ▸ owned.nodup src)
  have from_ : ∀ b, b ∈ w.memory src ↔ b = buf ∨ b ∈ moving := by
    intro b
    rw [source, List.mem_cons]
  have older : ∀ {b x}, b ∈ (w.join dst src d e todo).memory x → ∃ y, b ∈ w.memory y := by
    intro b x mine
    rcases (place x).mp mine with ⟨-, own⟩ | ⟨-, own | own⟩ | ⟨-, -, own⟩
    · exact ⟨src, (from_ b).mpr (.inl own)⟩
    · exact ⟨dst, own⟩
    · exact ⟨src, (from_ b).mpr (.inr own)⟩
    · exact ⟨x, own⟩
  refine ⟨fun x => ?_, fun {x y b} other mine theirs => ?_, fun mine => ?_, fun mine => ?_,
    fun {b} after => ?_, fun stmt member => (ready stmt member).1, owned.done⟩
  · by_cases last : x = src
    · subst last
      simp [World.memory, World.join, emptied]
    · by_cases first : x = dst
      · subst first
        have whole : (w.join x src d e todo).memory x = w.memory x ++ moving := by
          rw [← joined]
          simp [World.memory, World.join, different]
        rw [whole]
        refine List.nodup_append.mpr ⟨owned.nodup x, before.2, ?_⟩
        rintro b mine _ moved rfl
        exact owned.apart different mine ((from_ b).mpr (.inr moved))
      · have same : (w.join dst src d e todo).memory x = w.memory x := by
          simp [World.memory, World.join, last, first]
        exact same ▸ owned.nodup x
  · have apart := @owned.apart
    grind
  · exact (older mine).elim fun _ old => owned.live old
  · exact (older mine).elim fun _ old => owned.known old
  · obtain ⟨known, nobody⟩ := owned.loose (b := b) (by
      cases after with
      | value member => exact .value member
      | todo member disposed => exact (ready _ member).2 b disposed)
    exact ⟨known, fun x mine => (older mine).elim nobody⟩

theorem joinReply_keeps {d e : Client} (owned : w.Owned) (target : w.clients dst = some d)
    (origin : w.clients src = some e) (different : dst ≠ src) (ready : w.Ready rest) :
    Keeps w (joinReply cfg w dst src d e rest) xs := by
  unfold joinReply
  split
  · exact .resume owned ready
  · split
    · exact .resume owned ready
    · dsimp only
      have close := closeClient_same { d with
        reply := d.reply ++ e.reply, reply_bytes := d.reply_bytes + e.reply_bytes } cfg w.unixtime
      generalize closeClientOnOutputBufferLimitReached _ cfg w.unixtime = d' at close ⊢
      have joined : d'.memory = w.memory dst ++ blks e.reply := by
        simp [World.memory, target, Client.memory, close, blks_append]
      have emptied : Client.memory { e with reply := [], reply_bytes := 0, bufpos := 0 } = [e.buf] := rfl
      have source : w.memory src = e.buf :: blks e.reply := by simp [World.memory, origin, Client.memory]
      refine ⟨join_owned owned different joined emptied source ready, fun {s} filled _ => ?_,
        fun _ _ _ => rfl, fun {x xl} there _ => ?_⟩
      swap
      · by_cases last : x = src
        · simp [last]
        · by_cases first : x = dst
          · simp [first, different]
          · simp [last, first, there]
      refine ⟨?_, fun {o} ⟨x, xl, there, member⟩ same => filled.inside ?_ same, filled.bytes⟩
      · obtain ⟨x, mine⟩ := filled.owned
        have place := mem_join (b := s.blk) different joined emptied rest
        by_cases last : x = src
        · subst last
          rw [source] at mine
          exact (List.mem_cons.mp mine).elim (fun own => ⟨x, (place x).mpr (.inl ⟨rfl, own⟩)⟩)
            fun own => ⟨dst, (place dst).mpr (.inr (.inl ⟨rfl, .inr own⟩))⟩
        · by_cases first : x = dst
          · exact ⟨dst, (place dst).mpr (.inr (.inl ⟨rfl, .inl (first ▸ mine)⟩))⟩
          · exact ⟨x, (place x).mpr (.inr (.inr ⟨last, first, mine⟩))⟩
      · rcases updated_two there with ⟨-, rfl⟩ | ⟨-, rfl⟩ | there
        · cases member
        · rw [close.1] at member
          exact (List.mem_append.mp member).elim (fun own => ⟨dst, d, target, own⟩)
            fun moved => ⟨src, e, origin, moved⟩
        · exact ⟨x, xl, there, member⟩

theorem trimReplyUnusedTailSpace_keeps (owned : w.Owned) (here : w.clients c = some cl)
    (allowed : prepareClientToWrite cl) (ready : w.Ready rest) :
    Keeps w (trimReplyUnusedTailSpace cfg moved w c cl rest)
      (Stmt.hazards w moved (.trimReplyUnusedTailSpace c)) := by
  unfold trimReplyUnusedTailSpace
  cases last : lastBlock cl.reply with
  | none => exact .resume owned ready
  | some tail =>
    dsimp only
    split
    · rename_i wasteful
      cases moved with
      | false =>
        refine .put owned here (.refl _) ?_ (fun o member => .inl ?_) ready
          fun t _ _ => ⟨List.not_mem_nil, fun _ _ => rfl⟩
        · simp [Client.memory, blks_grown last]
        · rcases List.mem_append.mp member with old | new
          · exact ⟨o, List.dropLast_subset _ old, rfl, Nat.le_refl _⟩
          · cases List.mem_singleton.mp new
            exact ⟨tail, lastBlock_mem last, rfl, Nat.le_refl _⟩
      | true =>
        simp only [if_true]
        refine .put owned here (.release (.store (.claim _) _ _) _) ?_ (fun o member => ?_) ready
          fun t filled undisturbed => ⟨?_, filled.spared_fresh owned tail.used _⟩
        · have whole := congrArg blks (lastBlock_eq last)
          simp only [blks_append, blks_block, blks_nil] at whole
          simp only [Client.memory, blks_append, blks_block, blks_nil, whole]
          exact (List.perm_append_singleton w.heap.next (cl.buf :: blks cl.reply.dropLast)).append_right
            [tail.blk]
        · rcases List.mem_append.mp member with old | new
          · exact .inl ⟨o, List.dropLast_subset _ old, rfl, Nat.le_refl _⟩
          · cases List.mem_singleton.mp new
            exact .inr (Nat.le_refl _)
        · refine fun freed => undisturbed.unfreed ?_ (List.mem_singleton.mp freed)
          have kept : (lastBlock cl.reply).filter ReplyBlock.wasteful = some tail := by
            simp [last, Option.filter, wasteful]
          simp [Stmt.hazards, Stmt.edits, onClient, here, allowed, kept, onBlock]
    · exact .resume owned ready

theorem addReplyDeferredLen_keeps (owned : w.Owned) (here : w.clients c = some cl)
    (ready : w.Ready rest) : Keeps w (addReplyDeferredLen w c cl rest) xs := by
  refine .put owned here (.claim_node _) ?_ (fun o member => .inl ?_) ready
    fun t _ _ => ⟨List.not_mem_nil, fun _ _ => rfl⟩
  · simp [Client.memory, blks_append]
  · rcases List.mem_append.mp member with old | new
    · exact ⟨o, old, rfl, Nat.le_refl _⟩
    · cases List.mem_singleton.mp new

theorem setDeferredReply_keeps (owned : w.Owned) (here : w.clients c = some cl) (ready : w.Ready rest)
    (done : setDeferredReply w c cl node s rest = some w') : Keeps w w' xs := by
  have later : ∀ left, w.Ready (.glueDeferred c node left :: rest) := fun _ => ready.cons trivial rfl
  simp only [setDeferredReply, Option.map_eq_some_iff, Prod.exists] at done
  obtain ⟨before, after, found, rfl⟩ := done
  have whole := around_eq found
  cases last : lastBlock before with
  | none => exact .resume owned (later s)
  | some prev =>
    have member : .block prev ∈ cl.reply := whole ▸ List.mem_append_left _ (lastBlock_mem last)
    have apart : ∀ t, w.Filled t → ¬ t.Overlaps ⟨prev.blk, prev.used, min (prev.size - prev.used) s.len⟩ :=
      fun t filled => filled.apart_tail ⟨c, cl, here, member⟩ _
    have inside : ∀ o, .block o ∈ before → .block o ∈ cl.reply :=
      fun o => whole ▸ List.mem_append_left _
    have behind : ∀ o, .block o ∈ after → .block o ∈ cl.reply :=
      fun o old => whole ▸ List.mem_append_right _ (List.mem_cons_of_mem _ old)
    dsimp only
    split
    · split
      · refine .put owned here (.store (.refl _) _ _) ?_ (fun o member => .inl ?_) ready
          fun t filled _ => ⟨List.not_mem_nil, spared_store (apart t filled) _⟩
        · have same := blks_grown (p := { prev with used := prev.used + min (prev.size - prev.used) s.len })
            last rfl
          rw [List.append_nil, List.nil_append, Client.memory, Client.memory, blks_append, same,
            blks_around found]
        · rcases List.mem_append.mp member with front | back
          · obtain ⟨o', old, same⟩ := grown_tail last o front
            exact ⟨o', inside o' old, same⟩
          · exact ⟨o, behind o back, rfl, Nat.le_refl _⟩
      · refine .put owned here (.store (.refl _) _ _) ?_ (fun o member => .inl ?_) (later _)
          fun t filled _ => ⟨List.not_mem_nil, spared_store (apart t filled) _⟩
        · have same := blks_grown (p := { prev with used := prev.used + min (prev.size - prev.used) s.len })
            last rfl
          rw [List.append_nil, List.nil_append, Client.memory, Client.memory, blks_append, blks_deferred,
            same, blks_around found]
        · rcases List.mem_append.mp member with front | back
          · obtain ⟨o', old, same⟩ := grown_tail last o front
            exact ⟨o', inside o' old, same⟩
          · rcases List.mem_cons.mp back with placeholder | back
            · cases placeholder
            · exact ⟨o, behind o back, rfl, Nat.le_refl _⟩
    · exact .resume owned (later s)

theorem glueDeferred_keeps (owned : w.Owned) (here : w.clients c = some cl) (ready : w.Ready rest)
    (done : glueDeferred cfg w c cl node s rest = some w') :
    Keeps w w' (Stmt.hazards w moved (.glueDeferred c node s)) := by
  simp only [glueDeferred, Option.map_eq_some_iff, Prod.exists] at done
  obtain ⟨before, after, found, rfl⟩ := done
  have whole := around_eq found
  cases takes : (firstBlock after).filter (·.takes s.len) with
  | some next =>
    refine .fill owned (.store (.refl _) _ _) (ready.cons trivial rfl) fun t filled undisturbed =>
      spared_store (undisturbed.apart ?_) _
    simp [Stmt.hazards, Stmt.edits, onClient, here, found, takes, onBlock]
  | none =>
    have same := closeClient_same
    refine .put owned here (.store (.claim _) _ _) ?_ (fun o member => ?_) ready
      fun t filled _ => ⟨List.not_mem_nil, filled.spared_fresh owned s.len _⟩
    · simp only [Client.memory, (same _ _ _).1, (same _ _ _).2, blks_append, blks_block, List.append_nil,
        blks_around found]
      rw [← List.cons_append, ← List.cons_append]
      exact List.perm_middle
    · rw [(same _ _ _).1] at member
      rcases List.mem_append.mp member with front | back
      · exact .inl ⟨o, whole ▸ List.mem_append_left _ front, rfl, Nat.le_refl _⟩
      · rcases List.mem_cons.mp back with new | back
        · cases new
          exact .inr (Nat.le_refl _)
        · exact .inl ⟨o, whole ▸ List.mem_append_right _ (List.mem_cons_of_mem _ back), rfl, Nat.le_refl _⟩

theorem fillDeferred_keeps (owned : w.Owned) (here : w.clients c = some cl) (ready : w.Ready rest)
    (done : fillDeferred w c cl node s rest = some w') :
    Keeps w w' (Stmt.hazards w moved (.fillDeferred c node s)) := by
  simp only [fillDeferred, Option.bind_eq_some_iff, Option.map_eq_some_iff, Prod.exists] at done
  obtain ⟨before, after, found, next, first, rfl⟩ := done
  have whole := around_eq found
  have front := congrArg blks (firstBlock_eq first)
  refine .put owned here (.store (.refl _) _ _) ?_ (fun o member => .inl ?_) ready
    fun t filled undisturbed => ⟨List.not_mem_nil, spared_store (undisturbed.apart ?_) _⟩
  · rw [blks_block] at front
    simp [Client.memory, blks_append, blks_around found, front]
  · rw [whole]
    rcases List.mem_append.mp member with front | back
    · exact ⟨o, List.mem_append_left _ front, rfl, Nat.le_refl _⟩
    · rcases List.mem_cons.mp back with grown | back
      · cases grown
        exact ⟨next, List.mem_append_right _ (List.mem_cons_of_mem _ (firstBlock_mem first)), rfl,
          Nat.le_add_right _ _⟩
      · exact ⟨o, List.mem_append_right _ (List.mem_cons_of_mem _ (List.mem_of_mem_tail back)), rfl,
          Nat.le_refl _⟩
  · simp [Stmt.hazards, Stmt.edits, onClient, here, found, first, onBlock]

theorem copyClientOutputBuffer_keeps {d e : Client} (owned : w.Owned) (target : w.clients dst = some d)
    (ready : w.Ready rest) :
    Keeps w (copyClientOutputBuffer w dst src d e rest)
      (Stmt.hazards w moved (.copyClientOutputBuffer dst src)) := by
  refine .put owned target (.release (.refl _) _) ?_ (fun _ => nofun) (fun stmt member => ?_)
    fun t filled undisturbed => ⟨fun gone => undisturbed.unfreed ?_ rfl, fun _ _ => rfl⟩
  · exact .refl _
  · rcases List.mem_append.mp member with dup | later
    · obtain ⟨n, -, rfl⟩ := List.mem_map.mp dup
      exact ⟨trivial, fun _ => nofun⟩
    · rcases List.mem_cons.mp later with rfl | later
      · exact ⟨trivial, fun _ => nofun⟩
      · exact ready stmt later
  · obtain ⟨o, listed, same⟩ := List.mem_map.mp gone
    simp only [Stmt.hazards, Stmt.edits, onClient, target, Option.elim_some, freed]
    exact List.mem_map.mpr ⟨o, listed, congrArg Access.free same⟩

theorem dupClientReplyValue_keeps {d : Client} {n : ReplyNode} (owned : w.Owned)
    (target : w.clients dst = some d) (ready : w.Ready rest) :
    Keeps w (dupClientReplyValue w dst d rest n) xs := by
  cases n with
  | deferred => exact .observe (.resume owned owned.ready) w.sent w.unixtime true
  | block o =>
    refine .put owned target (.store (.claim _) _ _) ?_ (fun p member => ?_) ready
      fun t filled _ => ⟨List.not_mem_nil, filled.spared_fresh owned o.size _⟩
    · simp only [Client.memory, blks_append, blks_block, blks_nil, List.append_nil]
      exact List.perm_append_singleton _ (d.buf :: blks d.reply)
    · rcases List.mem_append.mp member with old | new
      · exact .inl ⟨p, old, rfl, Nat.le_refl _⟩
      · cases List.mem_singleton.mp new
        exact .inr (Nat.le_refl _)

theorem copyBuffer_keeps {d e : Client} (owned : w.Owned) (target : w.clients dst = some d)
    (origin : w.clients src = some e) (ready : w.Ready rest) :
    Keeps w (copyBuffer w dst d e rest) (Stmt.hazards w moved (.copyBuffer dst src)) := by
  refine .put_same owned target (.store (.refl _) _ _) rfl rfl ready
    fun t filled undisturbed => spared_store (undisturbed.apart ?_) _
  simp [Stmt.hazards, onClient, target, origin]

/-- A block that is freed empty has nothing in it. -/
theorem write_keeps (owned : w.Owned) (here : w.clients c = some cl) (ready : w.Ready rest)
    (done : write w c tot cl rest = some w') : Keeps w w' xs := by
  unfold write at done
  split at done
  · cases done
    exact .resume owned (ready.cons trivial rfl)
  · split at done
    · contradiction
    · cases reply : cl.reply with
      | nil => simp [reply] at done
      | cons n os =>
        cases n with
        | deferred =>
          simp only [reply, Option.some.injEq] at done
          exact done ▸ .observe (.resume owned owned.ready) w.sent w.unixtime true
        | block o =>
          simp only [reply, Option.ite_none_right_eq_some, Option.some.injEq] at done
          obtain ⟨empty, rfl⟩ := done
          refine .put owned here (.release (.refl _) _) ?_ (fun p member => .inl ?_)
            (ready.cons trivial rfl) fun t filled _ => ⟨fun gone => ?_, fun _ _ => rfl⟩
          · simp only [Client.memory, reply, blks_block, List.nil_append]
            exact (List.perm_append_singleton o.blk (blks os)).cons cl.buf
          · exact ⟨p, reply ▸ List.mem_cons_of_mem _ member, rfl, Nat.le_refl _⟩
          · have inside := filled.inside ⟨c, cl, here, reply ▸ List.mem_cons_self⟩
              (List.mem_singleton.mp gone).symm
            have bytes := filled.bytes
            omega

theorem written_keeps (owned : w.Owned) (here : w.clients c = some cl) (ready : w.Ready rest) :
    Keeps w (written w c cl failed rest) xs := by
  refine .put_same owned here (.refl _) ?_ ?_ ready fun _ _ _ _ _ => rfl
  all_goals
    split
    · simp
    · split
      · rfl
      · split <;> simp

theorem exec_keeps {stmt : Stmt} (owned : w.Owned) (todo : w.todo = stmt :: rest)
    (executed : exec cfg .original moved w rest stmt = some w') :
    Keeps w w' (Stmt.hazards w moved stmt) := by
  have ready := owned.rest todo
  have proper := owned.proper stmt (todo ▸ List.mem_cons_self)
  cases exec_executed executed with
  | skipped => exact .resume owned ready
  | addReply | addReplyProto | addReplyNull => exact .resume owned (ready.cons trivial rfl)
  | addReplyInt c n => exact spell_leave_keeps owned ready _ trivial rfl
  | addReplyToBuffer c s here => exact addReplyToBuffer_keeps owned here ready
  | addReplyProtoToList c s here => exact addReplyProtoToList_keeps owned here ready
  | newBlock c s here => exact newBlock_keeps owned here ready
  | addReplyLongLongWithPrefix c ll pre =>
    exact addReplyLongLongWithPrefix_keeps owned ready c ll pre
  | addReplyBulkLongLong c ll =>
    refine spell_keeps owned _ ?_
    simp only [addReplyBulkCBuffer, List.cons_append, List.nil_append, List.forall_mem_cons]
    exact ⟨⟨trivial, by rintro _ ⟨⟩⟩, ⟨trivial, by rintro _ ⟨⟩⟩, ⟨trivial, by rintro _ ⟨⟩⟩,
      ⟨trivial, fun b own => .inl (List.mem_singleton.mp own)⟩, fun stmt member =>
        (ready stmt member).imp_right fun loose b disposed => .inr (loose b disposed)⟩
  | forgets b disposed =>
    rcases disposed with rfl | rfl <;>
      exact .forget owned (.todo (todo ▸ List.mem_cons_self) List.mem_cons_self) ready
  | @abandoned _ d _ _ target =>
    exact .put_same owned target (.refl _) (freeClientAsync_buf d) (freeClientAsync_reply d) ready
      fun _ _ _ _ _ => rfl
  | AddReplyFromClient dst src =>
    have joins : Stmt.Proper (.joinReply dst src) := proper
    exact .resume owned ((ready.cons joins rfl).cons trivial rfl)
  | joinReply dst src target origin => exact joinReply_keeps owned target origin proper ready
  | trimReplyUnusedTailSpace c here allowed =>
    exact trimReplyUnusedTailSpace_keeps owned here allowed (ready.cons trivial rfl)
  | addReplyDeferredLen c here => exact addReplyDeferredLen_keeps owned here ready
  | setDeferredAggregateLen => exact setDeferredAggregateLen_keeps owned ready
  | setDeferredReply c node s here done => exact setDeferredReply_keeps owned here ready done
  | glueDeferred c node s here done => exact glueDeferred_keeps owned here ready done
  | fillDeferred c node s here done => exact fillDeferred_keeps owned here ready done
  | copyClientOutputBuffer dst src target => exact copyClientOutputBuffer_keeps owned target ready
  | dupClientReplyValue dst n target => exact dupClientReplyValue_keeps owned target ready
  | copyBuffer dst src target origin => exact copyBuffer_keeps owned target origin ready
  | write c tot here done => exact write_keeps owned here ready done
  | written c failed here => exact written_keeps owned here ready

theorem advance_memory (cl : Client) (n : ℕ) :
    ((cl.advance n).1.memory ++ (cl.advance n).2).Perm cl.memory := by
  unfold Client.advance
  dsimp only
  split
  · split <;> simp [Client.memory]
  · cases reply : cl.reply with
    | nil => simp [Client.memory, reply]
    | cons m os =>
      cases m with
      | deferred => simp [Client.memory, reply]
      | block o =>
        dsimp only
        split
        · simp only [Client.memory, reply, blks_block]
          exact (List.perm_append_singleton o.blk (blks os)).cons cl.buf
        · simp [Client.memory, reply]

theorem sends_keeps (owned : w.Owned) (todo : w.todo = .write c tot :: rest)
    (here : w.clients c = some cl) (sent : sends cfg w c tot n used_memory cl rest = some w') :
    Keeps w w' (hazards w (.wrote n used_memory)) := by
  simp only [sends, Option.bind_eq_bind, Option.bind_eq_some_iff, Option.ite_none_right_eq_some,
    Option.some.injEq] at sent
  obtain ⟨span, -, -, rfl⟩ := sent
  have ready := owned.rest todo
  refine .observe (.put owned here (.release (.refl _) _) (advance_memory cl n)
    (fun o member => .inl ⟨o, (advance_same cl n).2 o member, rfl, Nat.le_refl _⟩) ?_
    fun t filled undisturbed => ⟨fun gone => undisturbed.unfreed ?_ rfl, fun _ _ => rfl⟩) _ w.unixtime _
  · split <;> exact ready.cons trivial rfl
  · simpa [hazards, todo, onClient, here] using gone

theorem createClient_keeps {conn bound : Bool} (owned : w.Owned)
    (created : createClient w c conn bound = some w') : Keeps w w' xs := by
  simp only [createClient, Option.ite_none_right_eq_some, Option.some.injEq,
    Option.isNone_iff_eq_none] at created
  obtain ⟨absent, rfl⟩ := created
  refine .replace owned (.claim _) ?_ ?_ (by rintro _ ⟨⟩) (fun t _ _ => ⟨List.not_mem_nil, fun _ _ => rfl⟩)
    (by rintro ⟨⟩)
  · simp [World.memory, absent, Client.memory]
  · rintro o ⟨cl, made, member⟩
    cases Option.mem_some.mp made
    cases member

theorem freeClient_keeps (owned : w.Owned) (here : w.clients c = some cl) :
    Keeps w (freeClient w c cl) (hazards w (.freeClient c)) := by
  have replaced : Keeps w (w.replace (w.heap.release cl.memory) c none w.todo)
      (hazards w (.freeClient c)) := by
    refine .replace owned (.release (.refl _) _) ?_ ?_ owned.ready
      (fun t filled undisturbed => ⟨fun gone => undisturbed.unfreed ?_ rfl, fun _ _ => rfl⟩) ?_
    · simp [World.memory, here]
    · rintro o ⟨_, absent, -⟩
      cases absent
    · simpa [hazards, onClient, here] using gone
    · rintro - dl there
      cases here.symm.trans there
      simp [hazards, onClient, here, Client.memory]
  exact replaced

/-- What a caller starts disposes of its own values only. -/
theorem body_ready {op : Op} (allowed : op.Allowed w) : w.Ready op.body := by
  have handed : ∀ {node : Option ℕ} {f : ℕ → Stmt}, (∀ n, (f n).Proper ∧ (f n).disposes = []) →
      w.Ready (node.toList.map f) := by
    intro node f plain stmt member
    obtain ⟨n, -, rfl⟩ := List.mem_map.mp member
    exact ⟨(plain n).1, by simp [(plain n).2]⟩
  cases op with
  | setDeferredReply c node s => exact handed fun n => ⟨trivial, rfl⟩
  | setDeferredAggregateLen c node length pre => exact handed fun n => ⟨trivial, rfl⟩
  | addReplySds c s | addReplyBulkSds c s =>
    simp only [Op.body, World.Ready, List.forall_mem_cons, Stmt.Proper, Stmt.disposes]
    simpa using World.Loose.value allowed
  | addReplyBulkCString c s =>
    cases s <;> simp [Op.body, World.Ready, Stmt.Proper, Stmt.disposes, Reply.addReplyBulkCBuffer]
  | _ => simp_all [Op.body, Op.Allowed, World.Ready, Stmt.Proper, Stmt.disposes, Reply.addReplyBulkCBuffer]

theorem idle_keeps {l : Label} (owned : w.Owned) (acted : idle w l = some w') :
    Keeps w w' (hazards w l) := by
  cases l with
  | call op =>
    simp only [Reply.idle, Option.ite_none_right_eq_some, Option.some.injEq] at acted
    obtain ⟨allowed, rfl⟩ := acted
    exact .resume owned (body_ready allowed)
  | writeToClient c =>
    simp only [Reply.idle, Option.bind_eq_some_iff, Option.ite_none_right_eq_some,
      Option.some.injEq] at acted
    obtain ⟨cl, here, conn, rfl⟩ := acted
    exact .resume owned (World.Ready.nil.cons trivial rfl)
  | acceptCommonHandler c | createClient c conn => exact createClient_keeps owned acted
  | configure c flags resp =>
    simp only [Reply.idle, Option.map_eq_some_iff] at acted
    obtain ⟨cl, here, rfl⟩ := acted
    exact .put_same owned here (.refl _) rfl rfl .nil fun _ _ _ _ _ => rfl
  | freeClient c =>
    simp only [Reply.idle, Option.map_eq_some_iff] at acted
    obtain ⟨cl, here, rfl⟩ := acted
    exact freeClient_keeps owned here
  | create len fill =>
    cases acted
    exact .keep owned len fill fun stmt member =>
      (owned.ready stmt member).imp_right fun loose b disposed => .inr (loose b disposed)
  | overwrite s fill =>
    simp only [Reply.idle, Option.ite_none_right_eq_some, Option.some.injEq] at acted
    obtain ⟨value, rfl⟩ := acted
    exact .fill owned (.store (.refl _) _ _) owned.ready fun t filled _ =>
      spared_store (Deferred.Span.not_overlaps_blk (filled.not_loose owned (.value value))) _
  | delete b =>
    simp only [Reply.idle, Option.ite_none_right_eq_some, Option.some.injEq] at acted
    obtain ⟨value, rfl⟩ := acted
    exact .forget owned (.value value) .nil
  | tick now =>
    cases acted
    exact .observe (.resume owned owned.ready) w.sent now w.stopped
  | _ => simp [Reply.idle] at acted

/-- The original server's steps disturb what replies have filled nowhere else. -/
theorem step_keeps {l : Label} (owned : w.Owned) (stepped : step cfg .original w l = some w') :
    Keeps w w' (hazards w l) := by
  cases (step_iff.mp stepped).2 with
  | service served => simp [service, owned.done] at served
  | @reuse s fill known dead =>
    refine .fill owned (.store (.refl _) _ _) owned.ready fun t filled _ =>
      spared_store (Deferred.Span.not_overlaps_blk fun same => dead ?_) _
    obtain ⟨c, mine⟩ := filled.owned
    exact same ▸ owned.live mine
  | exec todo executed =>
    have keeps := exec_keeps owned todo executed
    simpa [hazards, todo] using keeps
  | wrote todo here sent => exact sends_keeps owned todo here sent
  | refused todo here asked => exact .resume owned ((owned.rest todo).cons trivial rfl)
  | idle todo acted => exact idle_keeps owned acted

end Functions

theorem World.Owned.init : Reply.init.Owned where
  nodup _ := List.nodup_nil
  apart _ := nofun
  live := nofun
  known := nofun
  loose loose := by
    cases loose with
    | value member => cases member
    | todo member => cases member
  proper _ := nofun
  done := rfl

theorem mem_blks {reply : List ReplyNode} {o : ReplyBlock} (member : .block o ∈ reply) :
    o.blk ∈ blks reply := List.mem_map_of_mem (mem_blocksOf.mpr member)

/-- Nobody else has a reply block of this client. -/
theorem World.Owned.held {w : World} {cl : Client} (owned : w.Owned) (here : w.clients c = some cl)
    (holds : w.Holds o) (mine : o.blk ∈ cl.memory) : .block o ∈ cl.reply := by
  obtain ⟨d, dl, there, member⟩ := holds
  by_cases own : d = c
  · subst own
    cases here.symm.trans there
    exact member
  · have first : o.blk ∈ w.memory c := by simpa [World.memory, here] using mine
    have second : o.blk ∈ w.memory d := by
      simpa [World.memory, there, Client.memory] using .inr (mem_blks member)
    exact (owned.apart own second first).elim

theorem World.Owned.buf_free {w : World} {cl : Client} (owned : w.Owned) (here : w.clients c = some cl) :
    cl.buf ∉ blks cl.reply := by
  have nodup := owned.nodup c
  simp only [World.memory, here, Option.elim_some] at nodup
  exact (List.nodup_cons.mp nodup).1

/-- Statements free reply blocks only. -/
theorem Stmt.hazards_held {w : World} {moved : Bool} {stmt : Stmt}
    (freed : .free b ∈ Stmt.hazards w moved stmt) : ∃ o, w.Holds o ∧ o.blk = b := by
  cases stmt with
  | addReplyToBuffer c s =>
    simp only [Stmt.hazards, onClient] at freed
    cases here : w.clients c with
    | none => simp [here] at freed
    | some cl =>
      rw [here, Option.elim_some] at freed
      split at freed <;> simp at freed
  | copyBuffer dst src =>
    simp only [Stmt.hazards, onClient] at freed
    cases target : w.clients dst with
    | none => simp [target] at freed
    | some d =>
      cases origin : w.clients src <;> simp [target, origin] at freed
  | trimReplyUnusedTailSpace c =>
    simp only [Stmt.hazards, Stmt.edits, onClient] at freed
    cases here : w.clients c with
    | none => simp [here] at freed
    | some cl =>
      rw [here, Option.elim_some] at freed
      split at freed
      · cases last : lastBlock cl.reply with
        | none => simp [last, onBlock] at freed
        | some tail =>
          refine ⟨tail, ⟨c, cl, here, lastBlock_mem last⟩, ?_⟩
          cases wasteful : tail.wasteful <;>
            simp_all [onBlock, Option.filter]
      · cases freed
  | glueDeferred c node s =>
    simp only [Stmt.hazards, Stmt.edits, onClient] at freed
    cases here : w.clients c with
    | none => simp [here] at freed
    | some cl =>
      rw [here, Option.elim_some, onBlock] at freed
      cases first : ((around node cl.reply).bind fun sides => firstBlock sides.2).filter (·.takes s.len) <;>
        simp [first] at freed
  | fillDeferred c node s =>
    simp only [Stmt.hazards, Stmt.edits, onClient] at freed
    cases here : w.clients c with
    | none => simp [here] at freed
    | some cl =>
      rw [here, Option.elim_some, onBlock] at freed
      cases first : (around node cl.reply).bind fun sides => firstBlock sides.2 <;>
        simp [first] at freed
  | copyClientOutputBuffer dst src =>
    simp only [Stmt.hazards, Stmt.edits, onClient] at freed
    cases target : w.clients dst with
    | none => simp [target] at freed
    | some d =>
      simp only [target, Option.elim_some, Reply.freed, List.mem_map, Access.free.injEq] at freed
      obtain ⟨o, listed, rfl⟩ := freed
      exact ⟨o, ⟨dst, d, target, mem_blocksOf.mp listed⟩, rfl⟩
  | dupClientReplyValue dst n => cases n <;> simp [Stmt.hazards, Stmt.edits] at freed
  | _ => simp [Stmt.hazards, Stmt.edits] at freed

theorem advance_freed {cl : Client} (freed : b ∈ (cl.advance n).2) :
    ∃ o, .block o ∈ cl.reply ∧ o.blk = b := by
  unfold Client.advance at freed
  dsimp only at freed
  split at freed
  · cases freed
  · cases reply : cl.reply with
    | nil => simp [reply] at freed
    | cons m os =>
      cases m with
      | deferred => simp [reply] at freed
      | block o =>
        simp only [reply] at freed
        split at freed
        · exact ⟨o, List.mem_cons_self, (List.mem_singleton.mp freed).symm⟩
        · cases freed

/-- Only `freeClient` frees a static buffer. -/
theorem hazards_buf {w : World} {cl : Client} {l : Label} (owned : w.Owned)
    (here : w.clients c = some cl) (closing : .free cl.buf ∈ hazards w l) : l = .freeClient c := by
  have held : ∀ o, w.Holds o → o.blk ≠ cl.buf := fun o holds same =>
    owned.buf_free here (same ▸ mem_blks (owned.held here holds (same ▸ List.mem_cons_self)))
  cases l with
  | step moved =>
    simp only [hazards] at closing
    cases todo : w.todo with
    | nil => simp [todo] at closing
    | cons stmt rest =>
      rw [todo] at closing
      obtain ⟨o, holds, same⟩ := Stmt.hazards_held closing
      exact absurd same (held o holds)
  | wrote n used_memory =>
    simp only [hazards] at closing
    split at closing
    · rename_i d _ _ _
      cases there : w.clients d with
      | none => simp [onClient, there] at closing
      | some dl =>
        simp only [onClient, there, Option.elim_some, List.mem_map, Access.free.injEq,
          exists_eq_right] at closing
        obtain ⟨o, member, same⟩ := advance_freed closing
        exact absurd same (held o ⟨d, dl, there, member⟩)
    · cases closing
  | freeClient d =>
    cases there : w.clients d with
    | none => simp [hazards, onClient, there] at closing
    | some dl =>
      simp only [hazards, onClient, there, Option.elim_some, List.mem_map, Access.free.injEq,
        exists_eq_right] at closing
      by_cases own : d = c
      · rw [own]
      · have first : cl.buf ∈ w.memory c := by simp [World.memory, here, Client.memory]
        have second : cl.buf ∈ w.memory d := by simpa [World.memory, there] using closing
        exact (owned.apart (Ne.symm own) first second).elim
  | _ => cases closing

/-- What `connWrite` is asked to send was filled by replies. -/
theorem outgoing_filled {w : World} {cl : Client} {span : Span} (owned : w.Owned)
    (here : w.clients c = some cl) (asked : cl.outgoing = some span) (nonzero : 0 < n)
    (fits : n ≤ span.len) : w.Filled ⟨span.blk, span.off, n⟩ := by
  have mine : w.memory c = cl.memory := by simp [World.memory, here]
  have nodup : cl.memory.Nodup := mine ▸ owned.nodup c
  unfold Client.outgoing at asked
  split at asked
  · cases asked
    refine ⟨⟨c, mine ▸ List.mem_cons_self⟩, fun {o} holds same => ?_, nonzero⟩
    have held := owned.held here holds (same ▸ List.mem_cons_self)
    have twice : cl.buf ∈ blks cl.reply := (show o.blk = cl.buf from same) ▸ mem_blks held
    exact absurd twice (List.nodup_cons.mp nodup).1
  · split at asked
    · contradiction
    · contradiction
    · rename_i o os reply
      split at asked
      · contradiction
      · cases asked
        have own : o.blk ∈ cl.memory := by simp [Client.memory, reply]
        refine ⟨⟨c, mine ▸ own⟩, fun {p} holds same => ?_, nonzero⟩
        have same : p.blk = o.blk := same
        have held := owned.held here holds (same ▸ own)
        rw [reply] at held
        rcases List.mem_cons.mp held with first | later
        · cases first
          dsimp only at fits ⊢
          omega
        · have distinct := (List.nodup_cons.mp nodup).2
          rw [reply, blks_block] at distinct
          exact absurd (same ▸ mem_blks later) (List.nodup_cons.mp distinct).1

end Copier.Redis.Reply
