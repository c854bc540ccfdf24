import Mathlib.Data.List.Basic

/-! Locations with stamps that grow whenever a location changes. Who finds the stamp it
has read before knows that nothing has happened to the location in between. -/
namespace Copier.Stamps
variable {lam α : Type}

structure Store (lam α : Type) where
  content : lam → α
  stamp : lam → ℕ

/-- What may have happened from one store to a later one. -/
def Tracks (s t : Store lam α) : Prop :=
  ∀ l, s.stamp l ≤ t.stamp l ∧ (t.stamp l = s.stamp l → t.content l = s.content l)

@[refl]
theorem Tracks.refl (s : Store lam α) : Tracks s s := fun _ => ⟨Nat.le_refl _, fun _ => rfl⟩

theorem Tracks.trans {s t u : Store lam α} (first : Tracks s t) (second : Tracks t u) :
    Tracks s u := by
  intro l
  obtain ⟨low, same⟩ := first l
  obtain ⟨low', same'⟩ := second l
  refine ⟨Nat.le_trans low low', fun equal => ?_⟩
  rw [same' (by omega), same (by omega)]

/-! Changing some locations and stamping some. -/

/-- Stamps the locations that satisfy `touched`. -/
noncomputable def Store.touch (s : Store lam α) (touched : lam → Prop) : Store lam α :=
  open Classical in { s with stamp := fun l => if touched l then s.stamp l + 1 else s.stamp l }

theorem touch_stamp_lt {s : Store lam α} {touched : lam → Prop} (here : touched l) :
    s.stamp l < (s.touch touched).stamp l := by
  simp [Store.touch, here]

theorem touch_stamp_of_not {s : Store lam α} {touched : lam → Prop} (other : ¬ touched l) :
    (s.touch touched).stamp l = s.stamp l := by
  simp [Store.touch, other]

theorem stamp_le_touch (s : Store lam α) (touched : lam → Prop) (l : lam) :
    s.stamp l ≤ (s.touch touched).stamp l := by
  by_cases here : touched l
  · exact Nat.le_of_lt (touch_stamp_lt here)
  · exact Nat.le_of_eq (touch_stamp_of_not here).symm

/-- A change of locations that are all stamped. -/
theorem Tracks.touch {s : Store lam α} {touched : lam → Prop} {content : lam → α}
    (all : ∀ l, content l ≠ s.content l → touched l) :
    Tracks s { s.touch touched with content := content } := by
  intro l
  refine ⟨stamp_le_touch s touched l, fun same => ?_⟩
  by_contra changed
  have grown := touch_stamp_lt (s := s) (all l changed)
  exact absurd same (Nat.ne_of_gt grown)

end Copier.Stamps
