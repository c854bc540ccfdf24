import Mathlib.Data.List.Perm.Basic
import Mathlib.Data.Set.Card

/-! Tables of chains, each entry in the chain its key belongs to, and the map
that the entries of such tables are. -/
namespace Copier.Buckets
variable {K V : Type} {es fs : List (K × V)} {m : K → Option V} {k : K} {v w : V}

/-- The entries, in whatever order, are those of the map, each once. -/
structure Represents (es : List (K × V)) (m : K → Option V) : Prop where
  nodup : (es.map Prod.fst).Nodup
  mem : ∀ k v, (k, v) ∈ es ↔ m k = some v

theorem Represents.nil : Represents ([] : List (K × V)) fun _ => none :=
  ⟨List.nodup_nil, by simp⟩

theorem Represents.perm (rep : Represents es m) (perm : es.Perm fs) : Represents fs m :=
  ⟨(perm.map _).nodup_iff.mp rep.nodup, fun k v => perm.mem_iff.symm.trans (rep.mem k v)⟩

theorem Represents.absent (rep : Represents es m) : (∀ v, (k, v) ∉ es) ↔ m k = none := by
  simp only [rep.mem, Option.eq_none_iff_forall_ne_some, ne_eq]

theorem Represents.push [DecidableEq K] (rep : Represents es m) (new : m k = none) :
    Represents ((k, v) :: es) (Function.update m k (some v)) := by
  refine ⟨List.nodup_cons.mpr ⟨fun member => ?_, rep.nodup⟩, fun l w => ?_⟩
  · obtain ⟨⟨l, w⟩, found, rfl⟩ := List.mem_map.mp member
    exact rep.absent.mpr new w found
  · rw [List.mem_cons, Prod.mk.injEq, rep.mem]
    by_cases same : l = k
    · subst same
      rw [Function.update_self, new, Option.some.injEq]
      simp [eq_comm]
    · rw [Function.update_of_ne same]
      simp [same]

theorem Represents.pop [DecidableEq K] (rep : Represents ((k, v) :: es) m) :
    Represents es (Function.update m k none) := by
  obtain ⟨fresh, nodup⟩ := List.nodup_cons.mp rep.nodup
  refine ⟨nodup, fun l w => ?_⟩
  by_cases same : l = k
  · subst same
    rw [Function.update_self]
    exact iff_of_false (fun member => fresh (List.mem_map.mpr ⟨_, member, rfl⟩)) (by simp)
  · rw [Function.update_of_ne same, ← rep.mem, List.mem_cons, Prod.mk.injEq]
    simp [same]

theorem Represents.set [DecidableEq K] (rep : Represents ((k, v) :: es) m) (w : V) :
    Represents ((k, w) :: es) (Function.update m k (some w)) := by
  have popped := rep.pop.push (v := w) (Function.update_self k none m)
  rwa [Function.update_idem] at popped

theorem Represents.keys [DecidableEq K] (rep : Represents es m) :
    {k | (m k).isSome} = ((es.map Prod.fst).toFinset : Set K) := by
  ext k
  simp only [Set.mem_ofPred_eq, Option.isSome_iff_exists, ← rep.mem, List.coe_toFinset,
    List.mem_map, Prod.exists, exists_and_right, exists_eq_right]

theorem Represents.finite (rep : Represents es m) : {k | (m k).isSome}.Finite := by
  classical
  rw [rep.keys]
  exact Finset.finite_toSet _

theorem Represents.length (rep : Represents es m) :
    es.length = {k | (m k).isSome}.ncard := by
  classical
  rw [rep.keys, Set.ncard_coe_finset, List.toFinset_card_of_nodup rep.nodup, List.length_map]

/-! Chains. -/

/-- Every entry is in the chain at the place of its key. -/
def Placed (place : K → ℕ) (table : List (List (K × V))) : Prop :=
  ∀ i chain, table[i]? = some chain → ∀ e ∈ chain, place e.1 = i

theorem Placed.empty (place : K → ℕ) (n : ℕ) :
    Placed place (List.replicate n ([] : List (K × V))) := by
  intro i chain found e member
  rw [List.eq_of_mem_replicate (List.mem_of_getElem? found)] at member
  cases member

theorem Placed.set {place : K → ℕ} {table : List (List (K × V))} {chain : List (K × V)}
    (placed : Placed place table) (here : ∀ e ∈ chain, place e.1 = i) :
    Placed place (table.set i chain) := by
  intro j other found e member
  rw [List.getElem?_set] at found
  split_ifs at found with same inside
  · cases found
    exact same ▸ here e member
  · exact placed j other found e member

/-- An entry of the table is in the chain where its key belongs. -/
theorem Placed.find {place : K → ℕ} {table : List (List (K × V))} {chain : List (K × V)}
    (placed : Placed place table) (found : table[place k]? = some chain) :
    (k, v) ∈ table.flatten ↔ (k, v) ∈ chain := by
  refine ⟨fun member => ?_, fun member =>
    List.mem_flatten_of_mem (List.mem_of_getElem? found) member⟩
  obtain ⟨other, inside, member⟩ := List.mem_flatten.mp member
  obtain ⟨i, at_⟩ := List.getElem?_of_mem inside
  have := placed i other at_ _ member
  simp only at this
  rw [this, at_, Option.some.injEq] at found
  exact found ▸ member

/-- The entries of a table, one chain first, and what another chain there makes of them. -/
theorem split_at {table : List (List (K × V))} {chain : List (K × V)}
    (found : table[i]? = some chain) :
    ∃ rest, table.flatten.Perm (chain ++ rest) ∧
      ∀ other, (table.set i other).flatten.Perm (other ++ rest) := by
  obtain ⟨inside, rfl⟩ := List.getElem?_eq_some_iff.mp found
  refine ⟨(table.take i).flatten ++ (table.drop (i + 1)).flatten, ?_, fun other => ?_⟩
  · conv_lhs => rw [← List.take_append_drop i table, List.drop_eq_getElem_cons inside]
    rw [List.flatten_append, List.flatten_cons]
    exact List.perm_append_comm_assoc _ _ _
  · rw [List.set_eq_take_append_cons_drop, if_pos inside, List.flatten_append, List.flatten_cons]
    exact List.perm_append_comm_assoc _ _ _

/-- A chain that is replaced by one with the same entries but for its first. -/
theorem flatten_cons_at {table : List (List (K × V))} {chain : List (K × V)}
    (found : table[i]? = some chain) (e : K × V) :
    (table.set i (e :: chain)).flatten.Perm (e :: table.flatten) := by
  obtain ⟨rest, whole, change⟩ := split_at found
  exact (change _).trans (whole.symm.cons e)

theorem flatten_empty (n : ℕ) : (List.replicate n ([] : List (K × V))).flatten = [] := by
  simp

end Copier.Buckets
