import Mathlib.Data.List.Basic
import Mathlib.Data.List.Nodup
import Mathlib.Logic.Function.Basic

/-! Singly chain lists in a memory of nodes. A list is known by the addresses and
values it goes through; addresses that are not on it may be dangling. -/
namespace Copier.Linked
variable {α : Type}

structure Node (α : Type) where
  value : α
  next : Option ℕ

/-- What is allocated at each address. -/
abbrev Nodes (α : Type) := ℕ → Option (Node α)

/-- From this pointer on, the list goes through these nodes and ends. -/
inductive Chain (m : Nodes α) : Option ℕ → List (ℕ × α) → Prop
  | nil : Chain m none []
  | cons : m p = some ⟨a, next⟩ → Chain m next xs → Chain m (some p) ((p, a) :: xs)

namespace Chain
variable {m : Nodes α} {head : Option ℕ} {xs : List (ℕ × α)} {p : ℕ} {a b : α}

theorem head_none (chain : Chain m none xs) : xs = [] := by
  cases chain
  rfl

theorem head_eq (chain : Chain m head xs) : head = xs.head?.map Prod.fst := by
  cases chain <;> rfl

theorem allocated (chain : Chain m head xs) (member : (p, a) ∈ xs) :
    ∃ next, m p = some ⟨a, next⟩ := by
  induction chain with
  | nil => cases member
  | cons here _ ih =>
    rcases List.mem_cons.mp member with first | later
    · cases first
      exact ⟨_, here⟩
    · exact ih later

theorem fresh (chain : Chain m head xs) (free : m p = none) : p ∉ xs.map Prod.fst := by
  intro listed
  obtain ⟨⟨q, a⟩, member, rfl⟩ := List.mem_map.mp listed
  obtain ⟨next, here⟩ := chain.allocated member
  cases free.symm.trans here

/-- Other nodes do not matter. -/
theorem frame {m' : Nodes α} (chain : Chain m head xs)
    (same : ∀ p ∈ xs.map Prod.fst, m' p = m p) : Chain m' head xs := by
  induction chain with
  | nil => exact .nil
  | cons here _ ih =>
    refine .cons ((same _ List.mem_cons_self).trans here) (ih fun q listed => ?_)
    exact same q (List.mem_cons_of_mem _ listed)

theorem frame_update (chain : Chain m head xs) (other : p ∉ xs.map Prod.fst)
    (node : Option (Node α)) : Chain (Function.update m p node) head xs :=
  chain.frame fun q listed => Function.update_of_ne (by rintro rfl; exact other listed) _ _

/-- The last node is made to point to a new one. -/
theorem append {t : ℕ} (chain : Chain m head xs) (nodup : (xs.map Prod.fst).Nodup)
    (last : xs.getLast? = some (t, a)) (free : m p = none) (b : α) :
    m t = some ⟨a, none⟩ ∧
      Chain (Function.update (Function.update m p (some ⟨b, none⟩)) t (some ⟨a, some p⟩)) head
        (xs ++ [(p, b)]) := by
  induction chain with
  | nil => cases last
  | @cons q c next rest here chain ih =>
    obtain ⟨unlisted, distinct⟩ := List.nodup_cons.mp nodup
    cases rest with
    | nil =>
      cases last
      cases chain
      have apart : p ≠ t := by
        rintro rfl
        cases free.symm.trans here
      refine ⟨here, .cons (Function.update_self _ _ _) (.cons ?_ .nil)⟩
      rw [Function.update_of_ne apart, Function.update_self]
    | cons y ys =>
      have deeper : (y :: ys).getLast? = some (t, a) := by simpa using last
      obtain ⟨found, after⟩ := ih distinct deeper
      refine ⟨found, .cons ?_ after⟩
      have tail : t ≠ q := by
        rintro rfl
        exact unlisted (List.mem_map.mpr ⟨_, List.mem_of_getLast? deeper, rfl⟩)
      have new : p ≠ q := by
        rintro rfl
        cases free.symm.trans here
      rw [Function.update_of_ne tail.symm, Function.update_of_ne new.symm, here]

/-- The first node gets another value. -/
theorem replace {next : Option ℕ} (chain : Chain m (some p) ((p, a) :: xs))
    (nodup : (((p, a) :: xs).map Prod.fst).Nodup) (here : m p = some ⟨a, next⟩) (b : α) :
    Chain (Function.update m p (some ⟨b, next⟩)) (some p) ((p, b) :: xs) := by
  cases chain with
  | cons there rest =>
    cases here.symm.trans there
    exact .cons (Function.update_self _ _ _) (rest.frame_update (List.nodup_cons.mp nodup).1 _)

/-- The first node is freed. -/
theorem remove {next : Option ℕ} (chain : Chain m (some p) ((p, a) :: xs))
    (nodup : (((p, a) :: xs).map Prod.fst).Nodup) (here : m p = some ⟨a, next⟩) :
    Chain (Function.update m p none) next xs := by
  cases chain with
  | cons there rest =>
    cases here.symm.trans there
    exact rest.frame_update (List.nodup_cons.mp nodup).1 _

end Chain
end Copier.Linked
