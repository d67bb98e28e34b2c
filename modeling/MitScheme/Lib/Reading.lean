import Mathlib.Tactic.Common

/-!
# Computations that read by index

A computation that reads some elements of a sequence and comes to a result or fails, together
with the indices that it has read. What it has read is known whichever way it ends.
-/

namespace MitScheme

variable {ε α β : Type}

/-- What a computation has read, and what it has come to. -/
structure Reading (ε α : Type) where
  reads : List Nat
  result : Except ε α

namespace Reading

/-- The computation goes on, unless it has failed. -/
def andThen (x : Reading ε α) (f : α → Reading ε β) : Reading ε β :=
  match x.result with
  | .ok a => ⟨x.reads ++ (f a).reads, (f a).result⟩
  | .error e => ⟨x.reads, .error e⟩

instance : Monad (Reading ε) where
  pure a := ⟨[], .ok a⟩
  bind := andThen

/-- A failure, before anything is read. -/
def fail (e : ε) : Reading ε α := ⟨[], .error e⟩

@[simp] theorem result_pure (a : α) : (pure a : Reading ε α).result = .ok a := rfl

@[simp] theorem result_fail (e : ε) : (fail e : Reading ε α).result = .error e := rfl

theorem result_guard {c : Prop} [Decidable c] {e : ε} {a b : α} :
    (if c then pure a else fail e : Reading ε α).result = .ok b ↔ c ∧ a = b := by
  split
  · rename_i hc
    rw [result_pure, Except.ok.injEq, and_iff_right hc]
  · rename_i hc
    exact ⟨fun h => (nomatch h), fun h => absurd h.1 hc⟩

theorem result_bind (x : Reading ε α) (f : α → Reading ε β) :
    (x >>= f).result = x.result.bind fun a => (f a).result := by
  change (andThen x f).result = _
  unfold andThen
  cases x.result with
  | ok a => rfl
  | error e => rfl

variable {f : α → Reading ε β} {x : Reading ε α} {a : α}

theorem result_bind_eq_ok {b : β} :
    (x >>= f).result = .ok b ↔ ∃ a, x.result = .ok a ∧ (f a).result = .ok b := by
  rw [result_bind]
  cases x.result with
  | ok a | error e => simp [Except.bind]

theorem result_bind_of_ok (h : x.result = .ok a)
    (f : α → Reading ε β) : (x >>= f).result = (f a).result := by
  rw [result_bind, h]
  rfl

/-- Everything that was read has the property. -/
def Within (p : Nat → Prop) (x : Reading ε α) : Prop := ∀ i ∈ x.reads, p i

variable {p : Nat → Prop}

theorem within_pure (a : α) : Within p (pure a : Reading ε α) := fun _ hi => by cases hi

theorem within_fail (e : ε) : Within p (fail e : Reading ε α) := fun _ hi => by cases hi

theorem within_guard {c : Prop} [Decidable c] (a : α) (e : ε) :
    Within p (if c then pure a else fail e : Reading ε α) := by
  split
  · exact within_pure a
  · exact within_fail e

theorem Within.bind (hx : Within p x)
    (hf : ∀ a, x.result = .ok a → Within p (f a)) : Within p (x >>= f) := by
  intro i hi
  change i ∈ (andThen x f).reads at hi
  unfold andThen at hi
  cases hresult : x.result with
  | error e =>
      rw [hresult] at hi
      exact hx i hi
  | ok a =>
      rw [hresult] at hi
      rcases List.mem_append.mp hi with hi | hi
      · exact hx i hi
      · exact hf a hresult i hi

theorem Within.of_bind_left (h : Within p (x >>= f)) : Within p x := by
  intro i hi
  refine h i ?_
  change i ∈ (andThen x f).reads
  unfold andThen
  split
  · exact List.mem_append_left _ hi
  · exact hi

theorem Within.of_bind_right (h : Within p (x >>= f)) (ha : x.result = .ok a) : Within p (f a) := by
  intro i hi
  refine h i ?_
  change i ∈ (andThen x f).reads
  unfold andThen
  rw [ha]
  exact List.mem_append_right _ hi

theorem Within.mono {q : Nat → Prop} (h : Within p x) (hpq : ∀ i, p i → q i) :
    Within q x := fun i hi => hpq i (h i hi)

end Reading

end MitScheme
