import Mathlib.Data.List.Induction

/-!
# Moves between locations

A machine that can only copy the contents of one location to another. Moves made one after the
other do what they would do all at once as long as none of them reads what an earlier one has
written.
-/

namespace MitScheme.Moves

variable {L V : Type} [DecidableEq L]

/-- A copy of what is in one location into another. -/
structure Move (L : Type) where
  source : L
  target : L
deriving DecidableEq

/-- What is in the locations after a move. -/
def Move.execute (s : L → V) (m : Move L) : L → V := Function.update s m.target (s m.source)

/-- What is in the locations after some moves. -/
def run (moves : List (Move L)) (s : L → V) : L → V := moves.foldl Move.execute s

@[simp] theorem run_cons (m : Move L) (moves : List (Move L)) (s : L → V) :
    run (m :: moves) s = run moves (m.execute s) := rfl

theorem run_append (a b : List (Move L)) (s : L → V) : run (a ++ b) s = run b (run a s) :=
  List.foldl_append

theorem execute_of_ne {s : L → V} {m : Move L} {l : L} (h : l ≠ m.target) :
    m.execute s l = s l := by
  simp [Move.execute, h]

theorem run_of_not_target {moves : List (Move L)} : ∀ {s : L → V} {l : L},
    (∀ m ∈ moves, m.target ≠ l) → run moves s l = s l := by
  induction moves with
  | nil => exact fun _ => rfl
  | cons m moves ih =>
      intro s l h
      obtain ⟨hm, hmoves⟩ := List.forall_mem_cons.mp h
      rw [run_cons, ih hmoves, execute_of_ne hm.symm]

end MitScheme.Moves
