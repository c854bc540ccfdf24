import Mathlib.Data.List.Basic

/-! Runs of a labelled machine whose steps may be disabled. A path is a run all
of whose steps met a guard in the state they started from; invariants and
forward simulations are proved for one guarded step and used for whole paths. -/
namespace Copier.Runs
variable {σ τ ε κ ν : Type}

/-- What is found in a table after one of its entries was set. -/
theorem updated_found [DecidableEq κ] {table : κ → Option ν} {x : Option ν}
    (found : Function.update table k x l = some e) :
    l = k ∧ x = some e ∨ l ≠ k ∧ table l = some e := by
  by_cases same : l = k
  · subst same
    rw [Function.update_self] at found
    exact .inl ⟨rfl, found⟩
  · rw [Function.update_of_ne same] at found
    exact .inr ⟨same, found⟩

/-- The state after performing the labels in order, if each was enabled. -/
def run (step : σ → ε → Option σ) : σ → List ε → Option σ
  | s, [] => some s
  | s, l :: ls => (step s l).bind fun t => run step t ls

theorem run_one (step : σ → ε → Option σ) (s : σ) (l : ε) : run step s [l] = step s l := by
  cases h : step s l <;> simp [run, h]

theorem run_append (step : σ → ε → Option σ) (s : σ) (ls ms : List ε) :
    run step s (ls ++ ms) = (run step s ls).bind fun t => run step t ms := by
  induction ls generalizing s with
  | nil => rfl
  | cons l ls ih => simp only [List.cons_append, run, ih, Option.bind_assoc]

theorem run_snoc {step : σ → ε → Option σ} (before : run step s ls = some t)
    (last : step t l = some u) : run step s (ls ++ [l]) = some u := by
  simp only [run_append, before, Option.bind_some, run, last]

/-- Repeating a label that lowers a rank, and can be taken while the rank is
positive, brings the rank down to zero. -/
theorem run_down (step : σ → ε → Option σ) (inv : σ → Prop) (rank : σ → ℕ) (l : ε)
    (lowers : ∀ s, inv s → 0 < rank s → ∃ t, step s l = some t ∧ inv t ∧ rank t < rank s)
    (initial : inv s) : ∃ n t, run step s (List.replicate n l) = some t ∧ inv t ∧ rank t = 0 := by
  by_cases zero : rank s = 0
  · exact ⟨0, s, rfl, initial, zero⟩
  · obtain ⟨t, stepped, kept, lower⟩ := lowers s initial (Nat.pos_of_ne_zero zero)
    obtain ⟨n, u, ran, last, done⟩ := run_down step inv rank l lowers kept
    refine ⟨n + 1, u, ?_, last, done⟩
    rw [List.replicate_succ, run, stepped, Option.bind_some, ran]
termination_by rank s

inductive Path (step : σ → ε → Option σ) (guard : σ → ε → Prop) : σ → List ε → σ → Prop where
  | refl (s) : Path step guard s [] s
  | snoc : Path step guard s ls t → guard t l → step t l = some u →
      Path step guard s (ls ++ [l]) u

namespace Path
variable {step : σ → ε → Option σ} {guard weaker : σ → ε → Prop}

theorem mono (path : Path step guard s ls t) (implied : ∀ s l, guard s l → weaker s l) :
    Path step weaker s ls t := by
  induction path with
  | refl => exact .refl _
  | snoc _ met stepped ih => exact .snoc ih (implied _ _ met) stepped

theorem run_eq (path : Path step guard s ls t) : run step s ls = some t := by
  induction path with
  | refl => rfl
  | snoc _ _ stepped ih => exact run_snoc ih stepped

theorem cons (met : guard s l) (stepped : step s l = some t) (path : Path step guard t ls u) :
    Path step guard s (l :: ls) u := by
  induction path with
  | refl => exact snoc (.refl _) met stepped
  | snoc _ met' stepped' ih =>
    rw [← List.cons_append]
    exact snoc ih met' stepped'

theorem trans (first : Path step guard s ls t) (second : Path step guard t ms u) :
    Path step guard s (ls ++ ms) u := by
  induction second with
  | refl => simpa using first
  | snoc _ met stepped ih =>
    rw [← List.append_assoc]
    exact .snoc ih met stepped

/-- Replays a concrete run, checking the guard before every step. -/
theorem of_run [∀ s l, Decidable (guard s l)]
    (replay : run (fun s l => if guard s l then step s l else none) s ls = some t) :
    Path step guard s ls t := by
  induction ls generalizing s with
  | nil => exact Option.some.inj replay ▸ .refl _
  | cons l ls ih =>
    simp only [run, Option.bind_eq_some_iff] at replay
    obtain ⟨u, first, rest⟩ := replay
    split at first
    · exact cons ‹_› first (ih rest)
    · contradiction

/-- The last step of a path met the guard. -/
theorem last (path : Path step guard s (ls ++ [l]) u) :
    ∃ t, run step s ls = some t ∧ guard t l ∧ step t l = some u := by
  generalize whole : ls ++ [l] = ms at path
  cases path with
  | refl => simp at whole
  | snoc before met stepped =>
    obtain ⟨same, last⟩ := List.append_inj' whole rfl
    cases last
    exact ⟨_, same ▸ before.run_eq, met, stepped⟩

theorem head (path : Path step guard s (l :: ls) u) :
    ∃ t, guard s l ∧ step s l = some t ∧ Path step guard t ls u := by
  generalize whole : l :: ls = ms at path
  induction path generalizing ls with
  | refl => cases whole
  | @snoc ks _ _ _ before met stepped ih =>
    cases ks with
    | nil =>
      cases whole
      cases before.run_eq
      exact ⟨_, met, stepped, .refl _⟩
    | cons j ks =>
      obtain ⟨rfl, rfl⟩ := List.cons.inj whole
      obtain ⟨t, met', stepped', rest⟩ := ih rfl
      exact ⟨t, met', stepped', .snoc rest met stepped⟩

theorem split (path : Path step guard s (ls ++ ms) u) :
    ∃ t, Path step guard s ls t ∧ Path step guard t ms u := by
  induction ls generalizing s with
  | nil => exact ⟨s, .refl s, path⟩
  | cons l ls ih =>
    obtain ⟨r, met, stepped, rest⟩ := head path
    obtain ⟨t, first, second⟩ := ih rest
    exact ⟨t, cons met stepped first, second⟩

/-- A run whose steps met two guards. -/
theorem both {other : σ → ε → Prop} (path : Path step guard s ls t) (second : Path step other s ls t) :
    Path step (fun s l => guard s l ∧ other s l) s ls t := by
  induction path with
  | refl => exact .refl _
  | snoc before met stepped ih =>
    obtain ⟨u, first, rest⟩ := split second
    cases before.run_eq.symm.trans first.run_eq
    obtain ⟨v, met', -, -⟩ := head rest
    exact .snoc (ih first) ⟨met, met'⟩ stepped

theorem of_run_any (replay : run step s ls = some t) : Path step (fun _ _ => True) s ls t :=
  of_run (by simpa using replay)

theorem invariant (inv : σ → Prop) (path : Path step guard s ls t) (initial : inv s)
    (preserved : ∀ {s l t}, inv s → guard s l → step s l = some t → inv t) : inv t := by
  induction path with
  | refl => exact initial
  | snoc _ met stepped ih => exact preserved ih met stepped

/-- A guard may be replaced by what it implies in the states a run can reach. -/
theorem mono_invariant (inv : σ → Prop) (path : Path step guard s ls t) (initial : inv s)
    (preserved : ∀ {s l t}, inv s → guard s l → step s l = some t → inv t)
    (implied : ∀ {s l}, inv s → guard s l → weaker s l) : Path step weaker s ls t := by
  induction path with
  | refl => exact .refl _
  | snoc before met stepped ih =>
    have kept := before.invariant inv initial preserved
    exact .snoc ih (implied kept met) stepped

/-- Forward simulation: every guarded step is matched by a run of the other
machine with the same visible labels. -/
theorem forward {other : τ → κ → Option τ} (related : σ → τ → Prop)
    {seen : ε → Option ν} {seen' : κ → Option ν}
    (matched : ∀ {s l t p}, related s p → guard s l → step s l = some t →
      ∃ ks q, run other p ks = some q ∧ ks.filterMap seen' = [l].filterMap seen ∧ related t q)
    (path : Path step guard s ls t) (initial : related s p) :
    ∃ ks q, run other p ks = some q ∧ ks.filterMap seen' = ls.filterMap seen ∧ related t q := by
  induction path with
  | refl => exact ⟨[], p, rfl, rfl, initial⟩
  | snoc _ met stepped ih =>
    obtain ⟨ks, q, ran, visible, rel⟩ := ih
    obtain ⟨ms, r, ran', visible', rel'⟩ := matched rel met stepped
    refine ⟨ks ++ ms, r, ?_, ?_, rel'⟩
    · simp only [run_append, ran, Option.bind_some, ran']
    · simp only [List.filterMap_append, visible, visible']

end Path

/-! Loops that do nothing but look at a value, again and again. -/

inductive Spin
  | waiting
  | returned
deriving DecidableEq

/-- A turn of `while (again e);`, where `e` is what it sees. -/
def spin (again : ε → Prop) [DecidablePred again] : Spin → ε → Option Spin
  | .waiting, e => some (if again e then .waiting else .returned)
  | .returned, _ => none

/-- The loop is left at the first value that has arrived, whatever `possible` values it sees. -/
structure Waits (step : Spin → ε → Option Spin) (possible arrived : ε → Prop) : Prop where
  waits : ∀ seen, (∀ e ∈ seen, possible e) →
    (run step .waiting seen = some .waiting ↔ ∀ e ∈ seen, ¬ arrived e)
  returns : ∀ seen last, (∀ e ∈ seen ++ [last], possible e) →
    (run step .waiting (seen ++ [last]) = some .returned ↔
      (∀ e ∈ seen, ¬ arrived e) ∧ arrived last)

section Spin
variable {again possible arrived : ε → Prop} [DecidablePred again]

theorem spin_one (e : ε) : run (spin again) .waiting [e] = some .returned ↔ ¬ again e := by
  rw [run_one, spin]
  split_ifs with more <;> simp [more]

theorem spin_waiting_iff (seen : List ε) :
    run (spin again) .waiting seen = some .waiting ↔ ∀ e ∈ seen, again e := by
  induction seen with
  | nil => simp [run]
  | cons e seen ih =>
    rw [List.forall_mem_cons, run, spin, Option.bind_some]
    split_ifs with more
    · simp only [more, true_and, ih]
    · cases seen <;> simp [run, spin, more]

theorem spin_returned_iff (seen : List ε) (last : ε) :
    run (spin again) .waiting (seen ++ [last]) = some .returned ↔
      (∀ e ∈ seen, again e) ∧ ¬ again last := by
  induction seen with
  | nil => simpa using spin_one last
  | cons e seen ih =>
    rw [List.forall_mem_cons, List.cons_append, run, spin, Option.bind_some]
    split_ifs with more
    · simp only [more, true_and, ih]
    · cases seen <;> simp [run, spin, more]

/-- A loop waits for what its condition says. -/
theorem waits_spin_iff :
    Waits (spin again) possible arrived ↔ ∀ e, possible e → (¬ again e ↔ arrived e) := by
  constructor
  · intro waits e can
    have once := waits.returns [] e (by simpa using can)
    rw [spin_returned_iff] at once
    simpa using once
  · intro same
    refine ⟨fun seen can => ?_, fun seen last can => ?_⟩
    · rw [spin_waiting_iff]
      refine forall₂_congr fun e member => ?_
      rw [← same e (can e member), not_not]
    · rw [spin_returned_iff, same last (can last (by simp))]
      refine and_congr_left fun _ => forall₂_congr fun e member => ?_
      rw [← same e (can e (by simp [member])), not_not]

end Spin
end Copier.Runs
