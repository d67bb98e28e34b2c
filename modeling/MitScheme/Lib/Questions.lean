import Mathlib.Logic.Relation
import Mathlib.Tactic.Common

/-!
# Questions that are answered by asking others

A question is answered yes or no after some others have been asked, and which ones these are depends on the answers.
Some questions cannot be answered at all. When asking comes to an end, a question stays without an answer just when
one that cannot be answered is reached from it.
-/

namespace MitScheme

universe u

/-- What is done to answer a question. -/
inductive Inquiry (Q : Type u) where
  | answer (b : Bool)
  | ask (q : Q) (next : Bool → Inquiry Q)

namespace Inquiry

variable {Q : Type u}

/-- The answer of one other question. -/
def pose (q : Q) : Inquiry Q := .ask q .answer

/-- The second inquiry is made only when the first one ends with yes. -/
def and : Inquiry Q → Inquiry Q → Inquiry Q
  | .answer b, y => if b then y else .answer false
  | .ask q next, y => .ask q fun b => (next b).and y

/-- The second inquiry is made only when the first one ends with no. -/
def or : Inquiry Q → Inquiry Q → Inquiry Q
  | .answer b, y => if b then .answer true else y
  | .ask q next, y => .ask q fun b => (next b).or y

/-- The questions are asked in turn, up to the first no. -/
def every (qs : List Q) : Inquiry Q := qs.foldr (fun q x => (pose q).and x) (.answer true)

/-- How an inquiry ends, given the answers to the questions. -/
def eval (f : Q → Option Bool) : Inquiry Q → Option Bool
  | .answer b => some b
  | .ask q next => (f q).bind fun b => (next b).eval f

/-- The questions that are asked, up to the first without an answer. -/
def asked (f : Q → Option Bool) : Inquiry Q → List Q
  | .answer _ => []
  | .ask q next => q :: (f q).elim [] fun b => (next b).asked f

/-- The property holds of every question that can be asked. -/
def All (P : Q → Prop) : Inquiry Q → Prop
  | .answer _ => True
  | .ask q next => P q ∧ ∀ b, (next b).All P

variable {f : Q → Option Bool} {P : Q → Prop}

@[simp] theorem eval_answer (b : Bool) : (answer b : Inquiry Q).eval f = some b := rfl

@[simp] theorem eval_pose (q : Q) : (pose q).eval f = f q := by
  rw [pose, eval]
  cases f q with
  | none => rfl
  | some b => rfl

@[simp] theorem eval_and (x y : Inquiry Q) : (x.and y).eval f = (x.eval f <&&> y.eval f) := by
  induction x with
  | answer b => cases b <;> rfl
  | ask q next ih =>
      rw [and, eval, eval]
      cases f q with
      | none => rfl
      | some b => exact ih b

@[simp] theorem eval_or (x y : Inquiry Q) : (x.or y).eval f = (x.eval f <||> y.eval f) := by
  induction x with
  | answer b => cases b <;> rfl
  | ask q next ih =>
      rw [or, eval, eval]
      cases f q with
      | none => rfl
      | some b => exact ih b

theorem eval_eq_none {x : Inquiry Q} : x.eval f = none ↔ ∃ q ∈ x.asked f, f q = none := by
  induction x with
  | answer b => simp [asked]
  | ask q next ih =>
      cases hq : f q with
      | none =>
          constructor
          · intro _
            exact ⟨q, List.mem_cons_self, hq⟩
          · intro _
            rw [eval, hq]
            rfl
      | some b =>
          rw [eval, asked, hq]
          simp only [Option.bind_some, Option.elim_some, ih, List.mem_cons]
          constructor
          · rintro ⟨q', hmem, hnone⟩
            exact ⟨q', Or.inr hmem, hnone⟩
          · rintro ⟨q', hmem, hnone⟩
            rcases hmem with rfl | hmem
            · rw [hq] at hnone
              cases hnone
            · exact ⟨q', hmem, hnone⟩

theorem All.asked {x : Inquiry Q} (h : x.All P) : ∀ q ∈ x.asked f, P q := by
  induction x with
  | answer b => intro q hq; cases hq
  | ask q next ih =>
      intro q' hq'
      rcases List.mem_cons.mp hq' with rfl | hq'
      · exact h.1
      · cases hq : f q with
        | none =>
            rw [hq] at hq'
            cases hq'
        | some b =>
            rw [hq] at hq'
            exact ih b (h.2 b) q' hq'

theorem All.mono {P' : Q → Prop} {x : Inquiry Q} (h : x.All P) (hP : ∀ q, P q → P' q) : x.All P' := by
  induction x with
  | answer b => trivial
  | ask q next ih => exact ⟨hP q h.1, fun b => ih b (h.2 b)⟩

@[simp] theorem all_answer (b : Bool) : (answer b : Inquiry Q).All P ↔ True := Iff.rfl

@[simp] theorem all_pose (q : Q) : (pose q).All P ↔ P q := ⟨fun h => h.1, fun h => ⟨h, fun _ => trivial⟩⟩

theorem All.and {x y : Inquiry Q} (hx : x.All P) (hy : y.All P) : (x.and y).All P := by
  induction x with
  | answer b =>
      cases b
      · trivial
      · exact hy
  | ask q next ih => exact ⟨hx.1, fun b => ih b (hx.2 b)⟩

theorem All.or {x y : Inquiry Q} (hx : x.All P) (hy : y.All P) : (x.or y).All P := by
  induction x with
  | answer b =>
      cases b
      · exact hy
      · trivial
  | ask q next ih => exact ⟨hx.1, fun b => ih b (hx.2 b)⟩

theorem All.every {qs : List Q} (h : ∀ q ∈ qs, P q) : (every qs).All P := by
  induction qs with
  | nil => trivial
  | cons q qs ih =>
      exact All.and ((all_pose q).mpr (h q List.mem_cons_self))
        (ih fun q' hq' => h q' (List.mem_cons_of_mem q hq'))

end Inquiry

/-- A way of answering questions: `method` says what is asked, and of a question that cannot be answered that nothing
is. -/
structure Answers {Q : Type u} (f : Q → Option Bool) (method : Q → Option (Inquiry Q)) (size : Q → Nat) : Prop where
  answered : ∀ q, f q = (method q).bind (Inquiry.eval f)
  smaller : ∀ {q x}, method q = some x → x.All fun q' => size q' < size q

namespace Answers

variable {Q : Type u} {f : Q → Option Bool} {method : Q → Option (Inquiry Q)} {size : Q → Nat}

/-- The first question is answered by asking the second one. -/
def Asks (f : Q → Option Bool) (method : Q → Option (Inquiry Q)) (q q' : Q) : Prop :=
  ∃ x, method q = some x ∧ q' ∈ x.asked f

/-- The second question is reached from the first one. -/
abbrev Reaches (f : Q → Option Bool) (method : Q → Option (Inquiry Q)) : Q → Q → Prop :=
  Relation.ReflTransGen (Asks f method)

theorem reaches_of_eq_none (h : Answers f method size) {q : Q} (hq : f q = none) :
    ∃ q', Reaches f method q q' ∧ method q' = none := by
  induction hn : size q using Nat.strongRecOn generalizing q with
  | ind n ih =>
      cases hx : method q with
      | none => exact ⟨q, Relation.ReflTransGen.refl, hx⟩
      | some x =>
          have heval : x.eval f = none := by
            rw [← hq, h.answered, hx]
            rfl
          obtain ⟨q₁, hasked, hnone⟩ := Inquiry.eval_eq_none.mp heval
          have hlt : size q₁ < n := hn ▸ (h.smaller hx).asked q₁ hasked
          obtain ⟨q', hreach, hstuck⟩ := ih (size q₁) hlt hnone rfl
          exact ⟨q', Relation.ReflTransGen.head ⟨x, hx, hasked⟩ hreach, hstuck⟩

theorem Asks.eq_none (h : Answers f method size) {q q' : Q} (ha : Asks f method q q') (hq' : f q' = none) :
    f q = none := by
  obtain ⟨x, hx, hasked⟩ := ha
  rw [h.answered, hx]
  exact Inquiry.eval_eq_none.mpr ⟨q', hasked, hq'⟩

/-- **A question has no answer just when it reaches one that cannot be answered.** -/
theorem eq_none_iff (h : Answers f method size) {q : Q} :
    f q = none ↔ ∃ q', Reaches f method q q' ∧ method q' = none := by
  constructor
  · exact h.reaches_of_eq_none
  · rintro ⟨q', hreach, hstuck⟩
    have hq' : f q' = none := by
      rw [h.answered, hstuck]
      rfl
    induction hreach using Relation.ReflTransGen.head_induction_on with
    | refl => exact hq'
    | head ha _ ih => exact ha.eq_none h ih

end Answers

end MitScheme
