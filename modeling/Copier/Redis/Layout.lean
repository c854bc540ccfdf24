import Copier.Redis.Accesses

/-! How a server's strings lie in memory, and the world they stand for: every
string read as it will be once the service has caught up. A step that rewrites
one query buffer changes that buffer's client and nothing else. -/
namespace Copier.Redis.Server
open Deferred (Mem Span Task Access)

def Client.settled (m : Mem UInt8) (cl : Client) : Original.Client where
  parser := cl.parser
  querybuf := cl.querybuf.bytes m
  argv := cl.argv.map (Obj.bytes m)
  stream := cl.stream
  base := cl.base

@[simp] theorem Client.settled_parser (m : Mem UInt8) (cl : Client) :
    (cl.settled m).parser = cl.parser := rfl

@[simp] theorem Client.settled_length (m : Mem UInt8) (cl : Client) :
    (cl.settled m).querybuf.length = cl.querybuf.len := length_bytes _ _

/-- Waiting and storing the terminator are not steps of the original. -/
def settledSite : Site → Site
  | .wait c pc => .running c pc
  | .terminate _ => .idle
  | site => site

/-- The world of the original that a server stands for; what was handed over was
read when it was, and is given apart. -/
def World.settled (w : World) (handed : List (ℕ × List Bytes)) : Original.World where
  clients c := (w.clients c).map (Client.settled w.heap.settled)
  db := mapDb (Obj.bytes w.heap.settled) w.db
  luaTimedout := w.luaTimedout
  site := settledSite w.site
  handed := handed
  output := w.output

/-- A string object of some client's arguments or of the keyspace. -/
def World.Holds (w : World) (o : Obj) : Prop :=
  (∃ c cl, w.clients c = some cl ∧ o ∈ cl.argv) ∨ ∃ key, w.db key = some o

/-- The places of string objects in a world. -/
inductive Slot
  | arg (c i : ℕ)
  | value (key : Bytes)

def World.slot (w : World) : Slot → Option Obj
  | .arg c i => (w.clients c).bind fun cl => cl.argv[i]?
  | .value key => w.db key

theorem World.slot_holds {w : World} (found : w.slot x = some o) : w.Holds o := by
  cases x with
  | arg c i =>
    obtain ⟨cl, here, arg⟩ := Option.bind_eq_some_iff.mp found
    exact .inl ⟨c, cl, here, List.mem_of_getElem? arg⟩
  | value key => exact .inr ⟨key, found⟩

theorem World.Holds.slot {w : World} (held : w.Holds o) : ∃ x, w.slot x = some o := by
  rcases held with ⟨c, cl, here, member⟩ | ⟨key, stored⟩
  · obtain ⟨i, found⟩ := List.getElem?_of_mem member
    exact ⟨.arg c i, Option.bind_eq_some_iff.mpr ⟨cl, here, found⟩⟩
  · exact ⟨.value key, stored⟩

/-- Query buffers are live, disjoint and terminated, except while a trim is about
to store its terminator; no string object lies in one, and each has a block of its own. -/
structure Layout (w : World) : Prop where
  wf : w.heap.Wf
  live : w.clients c = some cl → cl.querybuf.blk ∈ w.heap.live
  fits : w.clients c = some cl → cl.querybuf.len ≤ cl.querybuf.alloc
  terminated : w.clients c = some cl → w.site ≠ .terminate c →
    w.heap.settled cl.querybuf.blk cl.querybuf.len = NUL
  apart : w.clients c = some cl → w.clients d = some dl → c ≠ d →
    cl.querybuf.blk ≠ dl.querybuf.blk
  sound : w.Holds (.sds s) → s.Sound w.heap
  outside : w.Holds (.sds s) → w.clients c = some cl → s.blk ≠ cl.querybuf.blk
  sole : w.slot x = some (.sds s) → w.slot y = some (.sds t) → s.blk = t.blk → x = y
  room : w.site = .receive c data → w.clients c = some cl →
    cl.querybuf.len + data.length ≤ cl.querybuf.alloc

theorem Layout.named {w : World} (layout : Layout w) (held : w.Holds (.sds s)) :
    s.blk < w.heap.next := layout.wf.named _ (layout.sound held).live

theorem Layout.closed {w : World} (layout : Layout w) (held : w.Holds (.sds s)) :
    w.heap.settled s.blk s.len = NUL := (layout.sound held).terminated

theorem Obj.bytes_congr {m n : Mem UInt8} {o : Obj} (same : ∀ s, o = .sds s → m s.blk = n s.blk) :
    o.bytes m = o.bytes n := by
  cases o with
  | value bytes => rfl
  | sds s => simp only [Obj.bytes, Sds.bytes, same s rfl]

theorem Client.settled_congr {m n : Mem UInt8} {cl : Client}
    (buffer : m cl.querybuf.blk = n cl.querybuf.blk)
    (args : ∀ s, .sds s ∈ cl.argv → m s.blk = n s.blk) : cl.settled m = cl.settled n := by
  have argv : cl.argv.map (Obj.bytes m) = cl.argv.map (Obj.bytes n) :=
    List.map_congr_left fun o member => Obj.bytes_congr fun s same => args s (same ▸ member)
  simp only [Client.settled, argv, Sds.bytes, buffer]

theorem db_congr {w : World} {m n : Mem UInt8} (same : ∀ s, w.Holds (.sds s) → m s.blk = n s.blk) :
    mapDb (Obj.bytes m) w.db = mapDb (Obj.bytes n) w.db := by
  funext key
  unfold mapDb
  cases stored : w.db key with
  | none => rfl
  | some o =>
    exact congrArg some (Obj.bytes_congr fun s eq => same s (.inr ⟨key, eq ▸ stored⟩))

section Put
variable {w : World} {cl cl' : Client} {h : Heap}

/-- An argument after a step on a client: one that was there, or a new one in a block of
its own, clear of every query buffer. -/
def Placed (w : World) (h : Heap) (cl cl' : Client) (i : ℕ) (s : Sds) : Prop :=
  cl.argv[i]? = some (.sds s) ∨ s.Sound h ∧ s.blk ≠ cl'.querybuf.blk ∧
    (s.blk = cl.querybuf.blk ∨ w.heap.next ≤ s.blk) ∧
    ∀ j t, cl'.argv[j]? = some (.sds t) → t.blk = s.blk → j = i

theorem settled_held (layout : Layout w) (here : w.clients c = some cl)
    (shape : Reshaped w.heap h cl.querybuf t bytes) (held : w.Holds (.sds s)) :
    h.settled s.blk = w.heap.settled s.blk :=
  shape.frame _ (layout.named held) (layout.outside held here)

theorem settled_other (layout : Layout w) (here : w.clients c = some cl)
    (shape : Reshaped w.heap h cl.querybuf t bytes) (there : w.clients d = some dl)
    (other : d ≠ c) : h.settled dl.querybuf.blk = w.heap.settled dl.querybuf.blk :=
  shape.frame _ (layout.wf.named _ (layout.live there)) (layout.apart there here other)

theorem settled_put (layout : Layout w) (here : w.clients c = some cl)
    (shape : Reshaped w.heap h cl.querybuf t bytes) (handed : List (ℕ × List Bytes)) :
    (w.put h c cl' site).settled handed =
      (w.settled handed).put c (cl'.settled h.settled) (settledSite site) := by
  have others : ∀ d, d ≠ c → (w.clients d).map (Client.settled h.settled) =
      (w.clients d).map (Client.settled w.heap.settled) := by
    intro d other
    cases there : w.clients d with
    | none => rfl
    | some dl =>
      refine congrArg some (Client.settled_congr (settled_other layout here shape there other) ?_)
      exact fun s member => settled_held layout here shape (.inl ⟨d, dl, there, member⟩)
  have values : mapDb (Obj.bytes h.settled) w.db = mapDb (Obj.bytes w.heap.settled) w.db :=
    db_congr fun s held => settled_held layout here shape held
  have clients : (fun d => ((w.put h c cl' site).clients d).map (Client.settled h.settled)) =
      Function.update (fun d => (w.clients d).map (Client.settled w.heap.settled)) c
        (some (cl'.settled h.settled)) := by
    funext d
    by_cases other : d = c
    · subst other
      simp [World.put]
    · simp [World.put, other, others d other]
  simp only [World.settled, Original.World.put, ← clients, ← values]
  rfl

theorem World.slot_put {site : Site} (found : (w.put h c cl' site).slot x = some o) :
    (∃ i, x = .arg c i ∧ cl'.argv[i]? = some o) ∨ w.slot x = some o ∧ ∀ i, x ≠ .arg c i := by
  cases x with
  | arg d i =>
    obtain ⟨dl, there, arg⟩ := Option.bind_eq_some_iff.mp found
    rcases World.put_found there with ⟨rfl, rfl⟩ | ⟨other, there⟩
    · exact .inl ⟨i, rfl, arg⟩
    · refine .inr ⟨Option.bind_eq_some_iff.mpr ⟨dl, there, arg⟩, fun j same => other ?_⟩
      exact (Slot.arg.inj same).1
  | value key => exact .inr ⟨found, fun _ same => by cases same⟩

theorem Layout.put (layout : Layout w) (here : w.clients c = some cl)
    (shape : Reshaped w.heap h cl.querybuf cl'.querybuf bytes)
    (running : ∀ d, d ≠ c → w.site ≠ .terminate d)
    (placed : ∀ i s, cl'.argv[i]? = some (.sds s) → Placed w h cl cl' i s)
    (fits : cl'.querybuf.len ≤ cl'.querybuf.alloc)
    (terminated : site ≠ .terminate c → h.settled cl'.querybuf.blk cl'.querybuf.len = NUL)
    (room : ∀ d data, site = .receive d data →
      d = c ∧ cl'.querybuf.len + data.length ≤ cl'.querybuf.alloc) :
    Layout (w.put h c cl' site) := by
  have fresh_or_own : ∀ b, b < w.heap.next → b ≠ cl.querybuf.blk → b ≠ cl'.querybuf.blk := by
    intro b old other
    rcases shape.owner with same | fresh
    · exact same ▸ other
    · omega
  have own : ∀ d dl, w.clients d = some dl → d ≠ c → dl.querybuf.blk ≠ cl'.querybuf.blk :=
    fun d dl there other => fresh_or_own _ (layout.wf.named _ (layout.live there))
      (layout.apart there here other)
  -- a string is an old one, or a new argument in a block no other string has
  have slots : ∀ x s, (w.put h c cl' site).slot x = some (.sds s) → w.slot x = some (.sds s) ∨
      (∃ i, x = .arg c i) ∧ s.Sound h ∧ s.blk ≠ cl'.querybuf.blk ∧
        (s.blk = cl.querybuf.blk ∨ w.heap.next ≤ s.blk) ∧
        ∀ y t, (w.put h c cl' site).slot y = some (.sds t) → t.blk = s.blk → y = x := by
    intro x s found
    rcases World.slot_put found with ⟨i, rfl, arg⟩ | ⟨old, -⟩
    · rcases placed i s arg with before | ⟨sound, apart, place, alone⟩
      · exact .inl (Option.bind_eq_some_iff.mpr ⟨cl, here, before⟩)
      · refine .inr ⟨⟨i, rfl⟩, sound, apart, place, fun y t found' same => ?_⟩
        rcases World.slot_put found' with ⟨j, rfl, arg'⟩ | ⟨old, -⟩
        · rw [alone j t arg' same]
        · have held := World.slot_holds old
          rcases place with buffer | fresh
          · exact absurd (same.trans buffer) (layout.outside held here)
          · exact absurd (same ▸ layout.named held) (Nat.not_lt_of_le fresh)
    · exact .inl old
  refine ⟨shape.wf, ?_, ?_, ?_, ?_, ?_, ?_, ?_, ?_⟩
  · intro d dl found
    rcases World.put_found found with ⟨rfl, rfl⟩ | ⟨other, there⟩
    · exact shape.live
    · exact shape.kept _ (layout.live there) (layout.apart there here other)
  · intro d dl found
    rcases World.put_found found with ⟨rfl, rfl⟩ | ⟨other, there⟩
    · exact fits
    · exact layout.fits there
  · intro d dl found open_
    rcases World.put_found found with ⟨rfl, rfl⟩ | ⟨other, there⟩
    · exact terminated open_
    · exact (congrFun (settled_other layout here shape there other) _).trans
        (layout.terminated there (running d other))
  · intro d dl e el found found' different
    rcases World.put_found found with ⟨rfl, rfl⟩ | ⟨other, there⟩
    · rcases World.put_found found' with ⟨rfl, rfl⟩ | ⟨other', there'⟩
      · exact absurd rfl different
      · exact (own e el there' other').symm
    · rcases World.put_found found' with ⟨rfl, rfl⟩ | ⟨other', there'⟩
      · exact own d dl there other
      · exact layout.apart there there' different
  · intro s held
    obtain ⟨x, found⟩ := held.slot
    rcases slots x s found with old | ⟨-, sound, -⟩
    · have before := layout.sound (World.slot_holds old)
      have apart := layout.outside (World.slot_holds old) here
      have same := settled_held layout here shape (World.slot_holds old)
      exact ⟨shape.kept _ before.live apart, before.fits,
        (congrFun same _).trans before.terminated⟩
    · exact sound
  · intro s d dl held found
    obtain ⟨x, slot⟩ := held.slot
    rcases slots x s slot with old | ⟨-, -, apart, place, -⟩
    · have old := World.slot_holds old
      rcases World.put_found found with ⟨rfl, rfl⟩ | ⟨other, there⟩
      · exact fresh_or_own _ (layout.named old) (layout.outside old here)
      · exact layout.outside old there
    · rcases World.put_found found with ⟨rfl, rfl⟩ | ⟨other, there⟩
      · exact apart
      · rcases place with same | fresh
        · exact same ▸ (layout.apart there here other).symm
        · exact Nat.ne_of_gt (Nat.lt_of_lt_of_le (layout.wf.named _ (layout.live there)) fresh)
  · intro x s y t found found' same
    rcases slots x s found with old | ⟨-, -, -, -, alone⟩
    · rcases slots y t found' with old' | ⟨-, -, -, -, alone⟩
      · exact layout.sole old old' same
      · exact alone x s found same
    · exact (alone y t found' same.symm).symm
  · intro d data dl received found
    obtain ⟨rfl, bound⟩ := room d data received
    rcases World.put_found found with ⟨-, rfl⟩ | ⟨other, -⟩
    · exact bound
    · exact absurd rfl other

end Put

/-- A step that changes no query buffer: memory may be freed, string objects rewritten and
moved, clients and keys dropped. -/
theorem Layout.reheap {w w' : World} (layout : Layout w) (wf : w'.heap.Wf)
    (clients : ∀ d dl', w'.clients d = some dl' → ∃ dl, w.clients d = some dl ∧
      dl'.querybuf = dl.querybuf ∧ dl.querybuf.blk ∈ w'.heap.live ∧
        w'.heap.settled dl.querybuf.blk = w.heap.settled dl.querybuf.blk)
    (sound : ∀ s, w'.Holds (.sds s) → s.Sound w'.heap)
    (outside : ∀ s, w'.Holds (.sds s) → ∀ d dl, w.clients d = some dl → s.blk ≠ dl.querybuf.blk)
    (sole : ∀ x s y t, w'.slot x = some (.sds s) → w'.slot y = some (.sds t) → s.blk = t.blk → x = y)
    (open_ : ∀ d, w'.site ≠ .terminate d → w.site ≠ .terminate d)
    (room : ∀ d data, w'.site = .receive d data → w.site = .receive d data) : Layout w' := by
  refine ⟨wf, ?_, ?_, ?_, ?_, fun {s} => sound s, ?_, fun {x s y t} => sole x s y t, ?_⟩
  · intro d dl' found
    obtain ⟨dl, there, same, live, -⟩ := clients d dl' found
    exact same ▸ live
  · intro d dl' found
    obtain ⟨dl, there, same, -⟩ := clients d dl' found
    exact same ▸ layout.fits there
  · intro d dl' found running
    obtain ⟨dl, there, same, -, frame⟩ := clients d dl' found
    rw [same, frame]
    exact layout.terminated there (open_ d running)
  · intro d dl' e el' found found' different
    obtain ⟨dl, there, same, -⟩ := clients d dl' found
    obtain ⟨el, there', same', -⟩ := clients e el' found'
    rw [same, same']
    exact layout.apart there there' different
  · intro s d dl' held found
    obtain ⟨dl, there, same, -⟩ := clients d dl' found
    exact same ▸ outside s held d dl there
  · intro d data dl' received found
    obtain ⟨dl, there, same, -⟩ := clients d dl' found
    rw [same]
    exact layout.room (room d data received) there

end Copier.Redis.Server
