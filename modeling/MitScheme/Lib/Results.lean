import Mathlib.Tactic.Common

/-!
# Computations that may fail

How a computation in `Except` comes to a result, and what can be said of one that fails only
in ways that are expected.
-/

namespace MitScheme

variable {ε α β : Type}

variable {x : Except ε α}

theorem bind_eq_ok {f : α → Except ε β} {b : β} :
    (x >>= f) = .ok b ↔ ∃ a, x = .ok a ∧ f a = .ok b := by
  cases x with
  | error e =>
      constructor
      · intro h
        cases h
      · rintro ⟨a, h, -⟩
        cases h
  | ok a =>
      constructor
      · intro h
        exact ⟨a, rfl, h⟩
      · rintro ⟨a', h, hf⟩
        cases h
        exact hf

/-- The computation fails as expected, or comes to a result that `Q` holds of. -/
def Ends (expected : ε → Prop) (Q : α → Prop) : Except ε α → Prop
  | .ok a => Q a
  | .error e => expected e

variable {expected : ε → Prop} {P : α → Prop} {Q : β → Prop}

theorem Ends.of_ok {a : α} (h : Ends expected P x) (hx : x = .ok a) : P a := by
  subst hx
  exact h

theorem Ends.of_error {e : ε} (h : Ends expected P x) (hx : x = .error e) : expected e := by
  subst hx
  exact h

theorem Ends.bind {f : α → Except ε β} (hx : Ends expected P x)
    (hf : ∀ a, P a → Ends expected Q (f a)) : Ends expected Q (x >>= f) := by
  cases x with
  | error e => exact hx
  | ok a => exact hf a hx

theorem Ends.mono {P' : α → Prop} (h : Ends expected P x)
    (hmono : ∀ a, P a → P' a) : Ends expected P' x := by
  cases x with
  | error e => exact h
  | ok a => exact hmono a h

theorem Ends.foldlM_from {f : α → β → Except ε α} (I : List β → α → Prop) :
    ∀ {done rest : List β} {a : α}, I done a →
      (∀ before b after a, done ++ rest = before ++ b :: after → I before a →
        Ends expected (I (before ++ [b])) (f a b)) →
      Ends expected (I (done ++ rest)) (rest.foldlM f a)
  | done, [], a, hstart, _ => by
      rw [List.append_nil]
      exact hstart
  | done, b :: rest, a, hstart, hstep => by
      refine Ends.bind (hstep done b rest a rfl hstart) fun a' ha' => ?_
      have h : Ends expected (I (done ++ [b] ++ rest)) (rest.foldlM f a') := by
        refine Ends.foldlM_from I ha' fun before b' after a'' hat hI => ?_
        refine hstep before b' after a'' ?_ hI
        rw [← hat, List.append_assoc, List.singleton_append]
      rwa [List.append_assoc] at h

theorem Ends.foldlM {f : α → β → Except ε α} (I : List β → α → Prop) {l : List β} {a : α}
    (hstart : I [] a)
    (hstep : ∀ before b after a, l = before ++ b :: after → I before a →
      Ends expected (I (before ++ [b])) (f a b)) :
    Ends expected (I l) (l.foldlM f a) :=
  Ends.foldlM_from I hstart hstep

end MitScheme
