import Mathlib.Order.WellFounded

/-!
# Runs of a machine

The states a machine reaches from a state, when each action it performs is allowed in the
state it is performed in, and what an invariant says about them. Machines that perform no actions, but
go on by themselves until they stop, and when two of them stop with the same result.
-/

namespace MitScheme.Runs

variable {S A : Type}

/-- What is reached by allowed actions. An action that does not return reaches nothing. -/
inductive Reaches (step : S → A → Option S) (allowed : S → A → Prop) (start : S) : S → Prop
  | start : Reaches step allowed start start
  | next {s s' : S} {a : A} : Reaches step allowed start s → allowed s a → step s a = some s' →
      Reaches step allowed start s'

variable {I : S → Prop} {s start : S}

theorem Reaches.invariant {step : S → A → Option S} {allowed : S → A → Prop} (h : Reaches step allowed start s) (hstart : I start)
    (hstep : ∀ {s s' a}, I s → allowed s a → step s a = some s' → I s') : I s := by
  induction h with
  | start => exact hstart
  | next _ ha hs ih => exact hstep ih ha hs

/-! ## Machines that stop -/

variable {T O P : Type}

/-- What a step of a machine leads to: its next state, or the end with a result. -/
inductive Step (S O : Type)
  | next (s : S)
  | done (result : O)

/-- The step in other states, with other results. -/
def Step.map (f : S → T) (g : O → P) : Step S O → Step T P
  | .next s => .next (f s)
  | .done result => .done (g result)

/-- The result of a machine, if it stops within so many steps. -/
def run (step : S → Step S O) : Nat → S → Option O
  | 0, _ => none
  | fuel + 1, s =>
      match step s with
      | .next s => run step fuel s
      | .done result => some result

/-- The states that a machine is in when it is started in a state. -/
inductive Visits (step : S → Step S O) (start : S) : S → Prop
  | start : Visits step start start
  | next {s s' : S} : Visits step start s → step s = .next s' → Visits step start s'

variable {step : S → Step S O}

theorem Visits.invariant (h : Visits step start s)
    (hstart : I start) (hstep : ∀ {s s'}, I s → step s = .next s' → I s') : I s := by
  induction h with
  | start => exact hstart
  | next _ hs ih => exact hstep ih hs

theorem Visits.head {start' : S} (hstart : step start = .next start')
    (h : Visits step start' s) : Visits step start s := by
  induction h with
  | start => exact .next .start hstart
  | next _ hs ih => exact .next ih hs

theorem Visits.cases (h : Visits step start s) :
    s = start ∨ ∃ start', step start = .next start' ∧ Visits step start' s := by
  induction h with
  | start => exact .inl rfl
  | next _ hs ih =>
      rcases ih with rfl | ⟨start', hstart, hvisits⟩
      · exact .inr ⟨_, hs, .start⟩
      · exact .inr ⟨start', hstart, .next hvisits hs⟩

theorem Visits.of_run {result : O} : ∀ {fuel : Nat} {start : S},
    run step fuel start = some result → ∃ s, Visits step start s ∧ step s = .done result := by
  intro fuel
  induction fuel with
  | zero =>
      intro start h
      cases h
  | succ fuel ih =>
      intro start h
      rw [run] at h
      cases hs : step start with
      | done result' =>
          rw [hs] at h
          cases h
          exact ⟨start, .start, hs⟩
      | next start' =>
          rw [hs] at h
          obtain ⟨s, hvisits, hdone⟩ := ih h
          exact ⟨s, hvisits.head hs, hdone⟩

theorem run_map {step' : T → Step T P} (f : S → T) (g : O → P) :
    ∀ (fuel : Nat) {start : S}, (∀ s, Visits step start s → step' (f s) = (step s).map f g) →
      run step' fuel (f start) = (run step fuel start).map g := by
  intro fuel
  induction fuel with
  | zero => exact fun _ => rfl
  | succ fuel ih =>
      intro start h
      have hstart := h start .start
      cases hs : step start with
      | done result =>
          simp only [run, hstart, hs, Step.map, Option.map_some]
      | next start' =>
          simp only [run, hstart, hs, Step.map]
          exact ih fun s hv => h s (hv.head hs)

theorem run_stops {M : Type} {less : M → M → Prop} (hless : WellFounded less)
    (measured : S → M → Prop)
    (hstep : ∀ {s s' m}, measured s m → step s = .next s' → ∃ m', measured s' m' ∧ less m' m) {m : M}
    (hstart : measured start m) : ∃ fuel result, run step fuel start = some result := by
  induction m using hless.induction generalizing start with
  | h m ih =>
      cases hs : step start with
      | done result => exact ⟨1, result, by simp only [run, hs]⟩
      | next start' =>
          obtain ⟨m', hm', hlt⟩ := hstep hstart hs
          obtain ⟨fuel, result, hrun⟩ := ih m' hlt hm'
          exact ⟨fuel + 1, result, by simp only [run, hs, hrun]⟩

theorem run_none (hstep : ∀ s, I s → ∃ s', step s = .next s' ∧ I s') :
    ∀ (fuel : Nat) {start : S}, I start → run step fuel start = none := by
  intro fuel
  induction fuel with
  | zero => exact fun _ => rfl
  | succ fuel ih =>
      intro start h
      obtain ⟨s', hs, hI⟩ := hstep start h
      simp only [run, hs, ih hI]

/-! ## Stacks of ranks

What measures a machine that goes back to earlier states, which it keeps on a stack: the ranks of these states, the first
one first, and of the state it is in. -/

section

variable {R : Type} [LT R]

/-- A rank gets smaller, and those behind it are new. -/
inductive Lowers : List R → List R → Prop
  | here {x x' : R} {rest rest' : List R} : x' < x → Lowers (x' :: rest') (x :: rest)
  | behind {x : R} {ranks ranks' : List R} : Lowers ranks' ranks → Lowers (x :: ranks') (x :: ranks)

theorem Lowers.append (below : List R) {ranks ranks' : List R} (h : Lowers ranks' ranks) :
    Lowers (below ++ ranks') (below ++ ranks) := by
  induction below with
  | nil => exact h
  | cons x below ih => exact .behind ih

theorem Lowers.wellFounded [WellFoundedLT R] (room : Nat) :
    WellFounded fun ranks' ranks : List R => ranks'.length ≤ room ∧ Lowers ranks' ranks := by
  suffices h : ∀ ranks : List R, ranks.length ≤ room →
      Acc (fun ranks' ranks => ranks'.length ≤ room ∧ Lowers ranks' ranks) ranks from
    ⟨fun ranks => ⟨ranks, fun ranks' hlowers => h ranks' hlowers.1⟩⟩
  induction room with
  | zero =>
      intro ranks hlength
      rw [List.length_eq_zero_iff.mp (Nat.le_zero.mp hlength)]
      refine ⟨_, ?_⟩
      rintro ranks' ⟨-, hlowers⟩
      cases hlowers
  | succ room ih =>
      intro ranks hlength
      cases ranks with
      | nil =>
          refine ⟨_, ?_⟩
          rintro ranks' ⟨-, hlowers⟩
          cases hlowers
      | cons x ranks =>
          -- first on the rank at the bottom, then on those behind it
          induction x using WellFoundedLT.induction generalizing ranks with
          | ind x hx =>
              have hacc := ih ranks (Nat.le_of_succ_le_succ hlength)
              induction hacc with
              | intro ranks _ hranks =>
                  refine ⟨_, ?_⟩
                  rintro ranks' ⟨hlength', hlowers⟩
                  cases hlowers with
                  | here hlt => exact hx _ hlt _ hlength'
                  | behind hlowers =>
                      have hroom := Nat.le_of_succ_le_succ hlength'
                      exact hranks _ ⟨hroom, hlowers⟩ hlength'

end

end MitScheme.Runs
