import Mathlib.Data.List.Basic

/-!
# Backtracking

A step leads from a state to some others, and the first of these is tried first. The same may be written
with a success continuation, which gets what is tried if it does not succeed, and a failure continuation.
-/

namespace MitScheme.Backtracking

open List

variable {σ ρ : Type}

/-- The ways are tried in order. -/
def run (succeed : σ → ρ → ρ) (ways : List σ) (fail : ρ) : ρ := ways.foldr succeed fail

@[simp] theorem run_cons (succeed : σ → ρ → ρ) (s : σ) (ways : List σ) (fail : ρ) :
    run succeed (s :: ways) fail = succeed s (run succeed ways fail) := rfl

theorem run_append (succeed : σ → ρ → ρ) (ways ways' : List σ) (fail : ρ) :
    run succeed (ways ++ ways') fail = run succeed ways (run succeed ways' fail) := foldr_append

theorem run_flatMap (succeed : σ → ρ → ρ) (step : σ → List σ) (ways : List σ) (fail : ρ) :
    run succeed (ways.flatMap step) fail = run (fun s rest => run succeed (step s) rest) ways fail := by
  induction ways with
  | nil => rfl
  | cons s ways ih => rw [flatMap_cons, run_append, ih, run_cons]

theorem run_map (succeed : σ → ρ → ρ) (f : σ → σ) (ways : List σ) (fail : ρ) :
    run succeed (ways.map f) fail = run (fun s rest => succeed (f s) rest) ways fail := foldr_map

theorem run_congr {succeed succeed' : σ → ρ → ρ} {ways : List σ} {fail : ρ}
    (h : ∀ s ∈ ways, ∀ rest, succeed s rest = succeed' s rest) :
    run succeed ways fail = run succeed' ways fail := by
  induction ways with
  | nil => rfl
  | cons s ways ih =>
      rw [run_cons, run_cons, ih fun s' hs' => h s' (mem_cons_of_mem s hs'), h s mem_cons_self]

theorem run_const (result : σ → ρ) (ways : List σ) (fail : ρ) :
    run (fun s _ => result s) ways fail = (ways.head?.map result).getD fail := by
  cases ways <;> rfl

/-! ## Repetition -/

/-- More turns are tried before it is left at that, or after. -/
def prefer (shy : Bool) (more : List σ) (s : σ) : List σ := if shy then s :: more else more ++ [s]

variable {shy : Bool} {R : σ → σ → Prop} {step : σ → List σ}

theorem mem_prefer {more : List σ} {s s' : σ} : s' ∈ prefer shy more s ↔ s' ∈ more ∨ s' = s := by
  cases shy with
  | true => exact mem_cons.trans or_comm
  | false => exact mem_append.trans (or_congr_right mem_singleton)

/-- A number of turns. -/
def exactly (step : σ → List σ) : Nat → σ → List σ
  | 0, s => [s]
  | n + 1, s => (step s).flatMap (exactly step n)

/-- Turns up to a limit. -/
def upTo (shy : Bool) (step : σ → List σ) : Nat → σ → List σ
  | 0, s => [s]
  | limit + 1, s => prefer shy ((step s).flatMap (upTo shy step limit)) s

/-- Any number of turns, each of which consumes something of what is left. -/
def unlimited (shy : Bool) (left : σ → Nat) (step : σ → List σ) (s : σ) : List σ :=
  prefer shy ((step s).flatMap fun s' => if left s' < left s then unlimited shy left step s' else []) s
termination_by left s

theorem exactly_keeps (hrefl : ∀ s, R s s)
    (htrans : ∀ s s' s'', R s s' → R s' s'' → R s s'') (h : ∀ s, ∀ s' ∈ step s, R s s') (n : Nat) :
    ∀ s, ∀ s' ∈ exactly step n s, R s s' := by
  induction n with
  | zero =>
      intro s s' hs'
      rw [mem_singleton.mp hs']
      exact hrefl s
  | succ n ih =>
      intro s s' hs'
      obtain ⟨s1, hs1, hs'⟩ := mem_flatMap.mp hs'
      exact htrans s s1 s' (h s s1 hs1) (ih s1 s' hs')

theorem upTo_keeps (hrefl : ∀ s, R s s)
    (htrans : ∀ s s' s'', R s s' → R s' s'' → R s s'') (h : ∀ s, ∀ s' ∈ step s, R s s') (limit : Nat) :
    ∀ s, ∀ s' ∈ upTo shy step limit s, R s s' := by
  induction limit with
  | zero =>
      intro s s' hs'
      rw [mem_singleton.mp hs']
      exact hrefl s
  | succ limit ih =>
      intro s s' hs'
      rcases mem_prefer.mp hs' with hs' | rfl
      · obtain ⟨s1, hs1, hs'⟩ := mem_flatMap.mp hs'
        exact htrans s s1 s' (h s s1 hs1) (ih s1 s' hs')
      · exact hrefl s'

theorem unlimited_keeps {left : σ → Nat}
    (hrefl : ∀ s, R s s) (htrans : ∀ s s' s'', R s s' → R s' s'' → R s s'')
    (h : ∀ s, ∀ s' ∈ step s, R s s') (s : σ) : ∀ s' ∈ unlimited shy left step s, R s s' := by
  induction hleft : left s using Nat.strongRecOn generalizing s with
  | ind n ih =>
      subst hleft
      intro s' hs'
      rw [unlimited] at hs'
      rcases mem_prefer.mp hs' with hs' | rfl
      · obtain ⟨s1, hs1, hs'⟩ := mem_flatMap.mp hs'
        split at hs'
        · exact htrans s s1 s' (h s s1 hs1) (ih (left s1) (by assumption) s1 rfl s' hs')
        · cases hs'
      · exact hrefl s'

end MitScheme.Backtracking
