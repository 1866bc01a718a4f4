import Mathlib.Data.Nat.Count

/-!
# Trials under a budget

Tasks are done one after the other, each by trials. A trial that fails is repeated, but no task
is tried more than `budget` times again: then all is given up. `run` says where things stand
after `n` trials, and the two characterisations say it without running anything.
-/

namespace Trials

/-- The tasks done and the failures since, or nothing once all is given up. -/
abbrev State := Option (Nat × Nat)

/-- One trial, of which there are no more once `tasks` tasks are done. -/
def step (tasks budget : Nat) (success : Bool) : State → State
  | none => none
  | some (done, failed) =>
    if done = tasks then some (done, failed)
    else if success then some (done + 1, 0)
    else if failed < budget then some (done, failed + 1)
    else none

def run (tasks budget : Nat) (success : Nat → Bool) : Nat → State
  | 0 => some (0, 0)
  | n + 1 => step tasks budget (success n) (run tasks budget success n)

section
variable {tasks budget done failed : Nat}

theorem step_finished (success : Bool) :
    step tasks budget success (some (tasks, failed)) = some (tasks, failed) := if_pos rfl

theorem step_success (h : done ≠ tasks) :
    step tasks budget true (some (done, failed)) = some (done + 1, 0) := by
  rw [step, if_neg h, if_pos rfl]

theorem step_failure (h : done ≠ tasks) (hf : failed < budget) :
    step tasks budget false (some (done, failed)) = some (done, failed + 1) := by
  rw [step, if_neg h, if_neg (by decide), if_pos hf]

theorem step_last (h : done ≠ tasks) (hf : ¬ failed < budget) :
    step tasks budget false (some (done, failed)) = none := by
  rw [step, if_neg h, if_neg (by decide), if_neg hf]

end

/-- No more than `budget` trials in a row fail before the trial `n`. -/
def Steady (budget : Nat) (success : Nat → Bool) (n : Nat) : Prop :=
  ∀ k, k + budget < n → ∃ l, k ≤ l ∧ l ≤ k + budget ∧ success l = true

/-- From `k` on, one trial and all its repetitions fail. -/
def Exhausted (budget : Nat) (success : Nat → Bool) (k : Nat) : Prop :=
  ∀ l, k ≤ l → l ≤ k + budget → success l = false

/-- The successes among the first `n` trials. -/
abbrev successes (success : Nat → Bool) (n : Nat) : Nat := Nat.count (fun k => success k = true) n

section
variable {tasks budget : Nat} {success : Nat → Bool} {n done failed : Nat}

theorem Steady.not_exhausted (h : Steady budget success n) {k : Nat} (hk : k + budget < n) :
    ¬ Exhausted budget success k := by
  intro hex
  obtain ⟨l, hl, hl', hs⟩ := h k hk
  rw [hex l hl hl'] at hs
  cases hs

/-- What is known while tasks are left. -/
structure Underway (budget : Nat) (success : Nat → Bool) (n done failed : Nat) : Prop where
  done : successes success n = done
  le : failed ≤ n
  bounded : failed ≤ budget
  recent : ∀ l, n ≤ l + failed → l < n → success l = false
  before : failed = n ∨ ∃ l, l + failed + 1 = n ∧ success l = true
  steady : Steady budget success n

theorem Underway.zero : Underway budget success 0 0 0 where
  done := Nat.count_zero _
  le := Nat.le_refl 0
  bounded := Nat.zero_le budget
  recent l _ hl := by omega
  before := .inl rfl
  steady k hk := by omega

theorem Underway.succeed (h : Underway budget success n done failed) (hs : success n = true) :
    Underway budget success (n + 1) (done + 1) 0 where
  done := by
    rw [successes, Nat.count_succ, if_pos hs]
    exact congrArg (· + 1) h.done
  le := Nat.zero_le _
  bounded := Nat.zero_le _
  recent l hl hl' := by omega
  before := .inr ⟨n, rfl, hs⟩
  steady k hk := by
    by_cases hlast : k + budget < n
    · exact h.steady k hlast
    · exact ⟨n, by omega, by omega, hs⟩

/-- Within the budget, a window of that length reaches back to the last success. -/
theorem Underway.fail (h : Underway budget success n done failed) (hs : success n = false)
    (hf : failed < budget) : Underway budget success (n + 1) done (failed + 1) where
  done := by
    rw [successes, Nat.count_succ, if_neg (by simp [hs])]
    exact h.done
  le := by
    have := h.le
    omega
  bounded := hf
  recent l hl hl' := by
    by_cases heq : l = n
    · rw [heq]
      exact hs
    · exact h.recent l (by omega) (by omega)
  before := by
    obtain heq | ⟨l, hl, hsl⟩ := h.before
    · exact .inl (by omega)
    · exact .inr ⟨l, by omega, hsl⟩
  steady k hk := by
    by_cases hlast : k + budget < n
    · exact h.steady k hlast
    · obtain heq | ⟨l, hl, hsl⟩ := h.before
      · omega
      · exact ⟨l, by omega, by omega, hsl⟩

theorem Underway.exhausted (h : Underway budget success n done failed) (hs : success n = false)
    (hf : ¬ failed < budget) : Exhausted budget success (n - budget) := by
  intro l hl hl'
  have hle := h.le
  have hbounded := h.bounded
  by_cases heq : l = n
  · rw [heq]
    exact hs
  · exact h.recent l (by omega) (by omega)

/-- All tasks are done, with the last success at `j`. -/
structure Finished (tasks budget : Nat) (success : Nat → Bool) (n j : Nat) : Prop where
  lt : j < n
  last : success j = true
  earlier : successes success j + 1 = tasks
  steady : Steady budget success j

/-- One task was tried in vain, from `k` on. -/
structure GivenUp (tasks budget : Nat) (success : Nat → Bool) (n k : Nat) : Prop where
  lt : k + budget < n
  earlier : successes success k < tasks
  exhausted : Exhausted budget success k

theorem Finished.later {j m : Nat} (h : Finished tasks budget success n j) (hm : n ≤ m) :
    Finished tasks budget success m j := ⟨by have := h.lt; omega, h.last, h.earlier, h.steady⟩

theorem GivenUp.later {k m : Nat} (h : GivenUp tasks budget success n k) (hm : n ≤ m) :
    GivenUp tasks budget success m k :=
  ⟨by have := h.lt; omega, h.earlier, h.exhausted⟩

/-- What a state after `n` trials stands for. -/
def Stands (tasks budget : Nat) (success : Nat → Bool) (n : Nat) : State → Prop
  | none => ∃ k, GivenUp tasks budget success n k
  | some (done, failed) =>
    (done < tasks ∧ Underway budget success n done failed) ∨
      (done = tasks ∧ ∃ j, Finished tasks budget success n j)

theorem stands_step {s : State} (h : Stands tasks budget success n s) :
    Stands tasks budget success (n + 1) (step tasks budget (success n) s) := by
  match s, h with
  | none, ⟨k, hk⟩ => exact ⟨k, hk.later (Nat.le_succ n)⟩
  | some (done, failed), .inr ⟨hdone, j, hj⟩ =>
    subst hdone
    rw [step_finished]
    exact .inr ⟨rfl, j, hj.later (Nat.le_succ n)⟩
  | some (done, failed), .inl ⟨hlt, hu⟩ =>
    have hne : done ≠ tasks := by omega
    cases hs : success n with
    | true =>
      rw [step_success hne]
      by_cases hlast : done + 1 = tasks
      · exact .inr ⟨hlast, n, ⟨Nat.lt_succ_self n, hs, by rw [hu.done]; exact hlast, hu.steady⟩⟩
      · exact .inl ⟨by omega, hu.succeed hs⟩
    | false =>
      by_cases hf : failed < budget
      · rw [step_failure hne hf]
        exact .inl ⟨hlt, hu.fail hs hf⟩
      · rw [step_last hne hf]
        have hle := hu.le
        have hbounded := hu.bounded
        have hmono : successes success (n - budget) ≤ successes success n :=
          Nat.count_monotone _ (Nat.sub_le n budget)
        exact ⟨n - budget, by omega, by rw [hu.done] at hmono; omega, hu.exhausted hs hf⟩

theorem stands_run (htasks : 0 < tasks) (n : Nat) :
    Stands tasks budget success n (run tasks budget success n) := by
  induction n with
  | zero => exact .inl ⟨htasks, .zero⟩
  | succ n ih => exact stands_step ih

theorem Finished.not_givenUp {j k m : Nat} (h : Finished tasks budget success n j) :
    ¬ GivenUp tasks budget success m k := by
  intro hg
  by_cases hjk : j < k
  · have hmono : successes success (j + 1) ≤ successes success k := Nat.count_monotone _ hjk
    have hsucc : successes success (j + 1) = successes success j + 1 := by
      rw [successes, Nat.count_succ, if_pos h.last]
    have := h.earlier
    have := hg.earlier
    omega
  · by_cases hwindow : k + budget < j
    · exact h.steady.not_exhausted hwindow hg.exhausted
    · have hfail := hg.exhausted j (by omega) (by omega)
      rw [h.last] at hfail
      cases hfail

/-- All is given up exactly when one task is tried in vain. -/
theorem run_eq_none (htasks : 0 < tasks) :
    run tasks budget success n = none ↔ ∃ k, GivenUp tasks budget success n k := by
  have h : Stands tasks budget success n (run tasks budget success n) := stands_run htasks n
  constructor
  · intro hnone
    rw [hnone] at h
    exact h
  · rintro ⟨k, hk⟩
    cases hrun : run tasks budget success n with
    | none => rfl
    | some state =>
      rw [hrun] at h
      obtain ⟨_, hu⟩ | ⟨_, j, hj⟩ := h
      · exact absurd hk.exhausted (hu.steady.not_exhausted hk.lt)
      · exact absurd hk hj.not_givenUp

/-- All tasks are done exactly when the last success came before any trial was in vain. -/
theorem run_eq_tasks (htasks : 0 < tasks) :
    (∃ failed, run tasks budget success n = some (tasks, failed)) ↔
      ∃ j, Finished tasks budget success n j := by
  have h : Stands tasks budget success n (run tasks budget success n) := stands_run htasks n
  constructor
  · rintro ⟨failed, hrun⟩
    rw [hrun] at h
    obtain ⟨hlt, _⟩ | ⟨_, hj⟩ := h
    · exact absurd hlt (Nat.lt_irrefl _)
    · exact hj
  · rintro ⟨j, hj⟩
    cases hrun : run tasks budget success n with
    | none =>
      rw [hrun] at h
      obtain ⟨k, hk⟩ := h
      exact absurd hk hj.not_givenUp
    | some state =>
      rw [hrun] at h
      obtain ⟨hlt, hu⟩ | ⟨hdone, _⟩ := h
      · -- with a task left, the successes so far are too few
        have hmono : successes success (j + 1) ≤ successes success n :=
          Nat.count_monotone _ hj.lt
        have hsucc : successes success (j + 1) = successes success j + 1 := by
          rw [successes, Nat.count_succ, if_pos hj.last]
        have := hj.earlier
        have := hu.done
        omega
      · exact ⟨state.2, by rw [← hdone]⟩

end

end Trials
