import Mathlib.Data.Finset.Card

/-!
# Pursuit

A partial step function is followed from some start. Either there is a last place, or the walk
never ends; and if it never ends among finitely many places, it goes round. A pursuer that
takes two steps for each one of another then meets it, however long the way into the round is
and however long the round: of all indices from the way in on, some are one less than a
multiple of the length of the round.
-/

namespace MitScheme.Pursuit

variable {σ : Type}

/-- The place after so many steps, if there is one. -/
def follow (step : σ → Option σ) (start : σ) : Nat → Option σ
  | 0 => some start
  | n + 1 => (follow step start n).bind step

variable {step : σ → Option σ} {start x y last : σ} {i j k m n : Nat}

@[simp] theorem follow_zero : follow step start 0 = some start := rfl

theorem follow_succ : follow step start (n + 1) = (follow step start n).bind step := rfl

theorem follow_add (m n : Nat) :
    follow step start (m + n) = (follow step start m).bind fun x => follow step x n := by
  induction n with
  | zero =>
      rw [Nat.add_zero]
      cases follow step start m with
      | none => rfl
      | some x => rfl
  | succ n ih =>
      rw [← Nat.add_assoc, follow_succ, ih]
      cases follow step start m with
      | none => rfl
      | some x => rfl

theorem follow_add_of_eq (h : follow step start m = some x) (n : Nat) :
    follow step start (m + n) = follow step x n := by
  rw [follow_add, h, Option.bind_some]

theorem follow_next (h : follow step start n = some x) :
    follow step start (n + 1) = step x := by
  rw [follow_succ, h, Option.bind_some]

/-! ## Walks that end -/

/-- The walk takes so many steps, to a place that has none after it. -/
structure EndsAfter (step : σ → Option σ) (start : σ) (n : Nat) (last : σ) : Prop where
  reached : follow step start n = some last
  stops : step last = none

/-- The walk never ends. -/
def NeverEnds (step : σ → Option σ) (start : σ) : Prop :=
  ∀ n, ∃ x, follow step start n = some x

theorem EndsAfter.follow_eq_none (h : EndsAfter step start n last) (hk : n < k) :
    follow step start k = none := by
  obtain ⟨d, rfl⟩ := Nat.exists_eq_add_of_lt hk
  rw [Nat.add_assoc, follow_add_of_eq h.reached, Nat.add_comm d 1, follow_add]
  rw [follow_next (n := 0) follow_zero, h.stops, Option.bind_none]

theorem EndsAfter.exists_step (h : EndsAfter step start n last) (hk : k < n) :
    ∃ x y, follow step start k = some x ∧ step x = some y
      ∧ follow step start (k + 1) = some y := by
  have hreached := h.reached
  obtain ⟨d, rfl⟩ := Nat.exists_eq_add_of_lt hk
  rw [Nat.add_right_comm, follow_add] at hreached
  obtain ⟨y, hy, -⟩ := Option.bind_eq_some_iff.mp hreached
  obtain ⟨x, hx, hstep⟩ := Option.bind_eq_some_iff.mp (follow_succ ▸ hy)
  exact ⟨x, y, hx, hstep, hy⟩

theorem EndsAfter.unique {n' : Nat} {last' : σ} (h : EndsAfter step start n last)
    (h' : EndsAfter step start n' last') : n = n' ∧ last = last' := by
  have key : ∀ {n n' : Nat} {last last' : σ}, EndsAfter step start n last →
      EndsAfter step start n' last' → ¬ n < n' := by
    intro n n' last last' h h' hlt
    have hnone := h.follow_eq_none hlt
    rw [h'.reached] at hnone
    cases hnone
  have heq : n = n' := Nat.le_antisymm (Nat.le_of_not_lt (key h' h)) (Nat.le_of_not_lt (key h h'))
  subst heq
  exact ⟨rfl, Option.some.inj (h.reached.symm.trans h'.reached)⟩

theorem EndsAfter.not_neverEnds (h : EndsAfter step start n last) : ¬ NeverEnds step start := by
  intro hnever
  obtain ⟨x, hx⟩ := hnever (n + 1)
  rw [h.follow_eq_none (Nat.lt_succ_self n)] at hx
  cases hx

theorem endsAfter_or_neverEnds (step : σ → Option σ) (start : σ) :
    (∃ n last, EndsAfter step start n last) ∨ NeverEnds step start := by
  rcases Classical.em (∃ n last, EndsAfter step start n last) with h | h
  · exact Or.inl h
  · refine Or.inr fun n => ?_
    induction n with
    | zero => exact ⟨start, rfl⟩
    | succ n ih =>
        obtain ⟨x, hx⟩ := ih
        cases hstep : step x with
        | none => exact absurd ⟨n, x, hx, hstep⟩ h
        | some y => exact ⟨y, by rw [follow_next hx, hstep]⟩

theorem NeverEnds.exists_step (h : NeverEnds step start) (hk : follow step start k = some x) :
    ∃ y, step x = some y ∧ follow step start (k + 1) = some y := by
  obtain ⟨y, hy⟩ := h (k + 1)
  exact ⟨y, (follow_next hk).symm.trans hy, hy⟩

/-! ## Walks that go round -/

theorem follow_round (hij : follow step start i = follow step start (i + j)) (hi : i ≤ m) :
    follow step start (m + j) = follow step start m := by
  obtain ⟨d, rfl⟩ := Nat.exists_eq_add_of_le hi
  rw [Nat.add_right_comm, follow_add, ← hij, ← follow_add]

theorem follow_rounds (hij : follow step start i = follow step start (i + j)) (hi : i ≤ m)
    (q : Nat) : follow step start (m + j * q) = follow step start m := by
  induction q with
  | zero => rfl
  | succ q ih => rw [Nat.mul_succ, ← Nat.add_assoc, follow_round hij (by omega), ih]

theorem EndsAfter.follow_ne (h : EndsAfter step start n last) (hij : i < j) (hj : j ≤ n) :
    follow step start i ≠ follow step start j := by
  intro heq
  obtain ⟨d, rfl⟩ := Nat.exists_eq_add_of_lt hij
  rw [Nat.add_assoc] at heq
  -- one round further on there is a place past the last one
  have hround := follow_round heq (show i ≤ n by omega)
  rw [h.reached, h.follow_eq_none (by omega)] at hround
  cases hround

theorem EndsAfter.le_card {S : Finset σ} (h : EndsAfter step start n last)
    (hS : ∀ k < n, ∃ x ∈ S, follow step start k = some x) : n ≤ S.card := by
  refine Nat.le_of_not_lt fun hlt => ?_
  rw [← Finset.card_range n, ← Finset.card_map Function.Embedding.some] at hlt
  obtain ⟨i, hi, j, hj, hne, heq⟩ := Finset.exists_ne_map_eq_of_card_lt_of_maps_to hlt
    (f := follow step start) (fun k hk => by
      obtain ⟨x, hx, hfollow⟩ := hS k (Finset.mem_range.mp hk)
      rw [hfollow]
      exact Finset.mem_coe.mpr (Finset.mem_map_of_mem Function.Embedding.some hx))
  have hin := Finset.mem_range.mp hi
  have hjn := Finset.mem_range.mp hj
  rcases Nat.lt_or_gt_of_ne hne with hlt' | hlt'
  · exact h.follow_ne hlt' hjn.le heq
  · exact h.follow_ne hlt' hin.le heq.symm

/-- **The pursuer meets the pursued.** Among finitely many places, a walk that never ends has
some place that is met again after as many steps as led there, and one more. -/
theorem NeverEnds.exists_meeting {S : Finset σ} (h : NeverEnds step start)
    (hS : ∀ k x, follow step start k = some x → x ∈ S) :
    ∃ m < S.card, follow step start (2 * m + 1) = follow step start m := by
  have hcard : (S.map Function.Embedding.some).card < (Finset.range (S.card + 1)).card := by
    rw [Finset.card_map, Finset.card_range]
    exact Nat.lt_succ_self _
  obtain ⟨i, hi, j, hj, hne, heq⟩ := Finset.exists_ne_map_eq_of_card_lt_of_maps_to hcard
    (f := follow step start) (fun k _ => by
      obtain ⟨x, hx⟩ := h k
      rw [hx]
      exact Finset.mem_coe.mpr (Finset.mem_map_of_mem Function.Embedding.some (hS k x hx)))
  have key : ∀ {i j : Nat}, i < j → j ≤ S.card →
      follow step start i = follow step start j →
      ∃ m < S.card, follow step start (2 * m + 1) = follow step start m := by
    intro i j hij hj heq
    obtain ⟨d, rfl⟩ := Nat.exists_eq_add_of_lt hij
    rw [Nat.add_assoc] at heq
    -- the first multiple of the round past the way in
    have hq := Nat.div_add_mod i (d + 1)
    have hmod : i % (d + 1) < d + 1 := Nat.mod_lt i (Nat.succ_pos d)
    have hmul : (d + 1) * (i / (d + 1) + 1) = (d + 1) * (i / (d + 1)) + (d + 1) :=
      Nat.mul_succ _ _
    refine ⟨(d + 1) * (i / (d + 1) + 1) - 1, by omega, ?_⟩
    rw [← follow_rounds heq (m := (d + 1) * (i / (d + 1) + 1) - 1) (by omega)
      (i / (d + 1) + 1)]
    congr 1
    omega
  have hi' := Finset.mem_range.mp hi
  have hj' := Finset.mem_range.mp hj
  rcases Nat.lt_or_gt_of_ne hne with hlt | hlt
  · exact key hlt (by omega) heq
  · exact key hlt (by omega) heq.symm

end MitScheme.Pursuit
