import Mathlib.Data.List.Basic
import Mathlib.Data.List.Pairwise
import Mathlib.Order.Nat

/-!
# Inversion lists

A set of numbers is given by the boundaries at which membership changes: below the first boundary
nothing is in the set, from the first to the second everything, from the second to the third
nothing, and so on. `inside` counts the boundaries that a number has reached, so that it does not
depend on the order of the list, and two equal boundaries cancel each other. A list that is
increasing, of even length and has no boundary above the limit is `Canonical`, and two such lists
with the same members below the limit are the same.
-/

namespace MitScheme.InversionList

open List

variable {l l' : List Nat} {limit bound c : Nat}

/-- One of the ranges that the boundaries delimit, two by two, has the number. -/
def Covers : List Nat → Nat → Prop
  | start :: stop :: l, c => start ≤ c ∧ c < stop ∨ Covers l c
  | _, _ => False

/-- The number has reached an odd number of the boundaries. -/
def inside : List Nat → Nat → Bool
  | [], _ => false
  | b :: l, c => Bool.xor (decide (b ≤ c)) (inside l c)

@[simp] theorem inside_nil : inside [] c = false := rfl

theorem inside_cons (b : Nat) : inside (b :: l) c = Bool.xor (decide (b ≤ c)) (inside l c) := rfl

@[simp] theorem inside_append : inside (l ++ l') c = Bool.xor (inside l c) (inside l' c) := by
  induction l with
  | nil => simp
  | cons b l ih => simp [inside_cons, ih]

@[simp] theorem inside_reverse : inside l.reverse c = inside l c := by
  induction l with
  | nil => rfl
  | cons b l ih => simp [inside_cons, ih, Bool.xor_comm]

theorem inside_of_lt (h : ∀ b ∈ l, c < b) : inside l c = false := by
  induction l with
  | nil => rfl
  | cons b l ih =>
      have hb := h b mem_cons_self
      rw [inside_cons, ih fun b' hb' => h b' (mem_cons_of_mem b hb')]
      simp only [Nat.not_le.mpr hb, decide_false, Bool.xor_false]

theorem inside_range {start stop : Nat} (h : start ≤ stop) :
    inside (stop :: start :: l) c
      = Bool.xor (decide (start ≤ c ∧ c < stop)) (inside l c) := by
  have hrange : decide (start ≤ c ∧ c < stop)
      = Bool.xor (decide (stop ≤ c)) (decide (start ≤ c)) := by
    by_cases hstart : start ≤ c <;> by_cases hstop : stop ≤ c <;> simp [hstart, hstop] <;> omega
  rw [inside_cons, inside_cons, hrange, Bool.xor_assoc]

theorem inside_split {k : Nat} (hbelow : ∀ i b, i < k → l[i]? = some b → b ≤ c)
    (habove : ∀ i b, k ≤ i → l[i]? = some b → c < b) (hk : k ≤ l.length) :
    inside l c = decide (k % 2 = 1) := by
  induction l generalizing k with
  | nil => simp_all
  | cons b l ih =>
      cases k with
      | zero =>
          refine inside_of_lt fun b' hb' => ?_
          obtain ⟨i, hi⟩ := List.getElem?_of_mem hb'
          exact habove i b' (Nat.zero_le i) hi
      | succ k =>
          have hb : b ≤ c := hbelow 0 b (Nat.succ_pos k) rfl
          have hrest : inside l c = decide (k % 2 = 1) :=
            ih (fun i b' hi h => hbelow (i + 1) b' (by omega) h)
              (fun i b' hi h => habove (i + 1) b' (by omega) h) (by simpa using hk)
          rw [inside_cons, hrest, decide_eq_true hb, Bool.true_xor, ← decide_not]
          exact decide_eq_decide.mpr (by omega)

/-! ## Canonical lists -/

/-- The boundaries increase, each range has both of its ends, and none ends above the limit. -/
structure Canonical (limit : Nat) (l : List Nat) : Prop where
  increasing : l.Pairwise (· < ·)
  even : l.length % 2 = 0
  bounded : ∀ b ∈ l, b ≤ limit

theorem Canonical.nil : Canonical limit [] := ⟨.nil, rfl, fun _ h => nomatch h⟩

theorem Canonical.tail {b b' : Nat} (h : Canonical limit (b :: b' :: l)) : Canonical limit l where
  increasing := h.increasing.tail.tail
  even := by
    have := h.even
    simp only [length_cons] at this
    omega
  bounded c hc := h.bounded c (by simp [hc])

theorem covers_iff_inside (hincreasing : l.Pairwise (· < ·)) (heven : l.length % 2 = 0) :
    Covers l c ↔ inside l c = true := by
  induction l, c using Covers.induct with
  | case1 start stop l c ih =>
      obtain ⟨hstart, hrest⟩ := pairwise_cons.mp hincreasing
      obtain ⟨hstop, hl⟩ := pairwise_cons.mp hrest
      have hlt : start < stop := hstart stop mem_cons_self
      have heven' : l.length % 2 = 0 := by
        simp only [length_cons] at heven
        omega
      rw [Covers, ih hl heven', inside_cons, inside_cons]
      by_cases hc : stop ≤ c
      · simp [hc, show start ≤ c by omega, Nat.not_lt.mpr hc]
      · -- below the end of the first range no other range has begun
        rw [inside_of_lt fun b hb => by have := hstop b hb; omega]
        simp [hc]
        omega
  | case2 l c hne =>
      match l with
      | [] => simp [Covers]
      | [b] => simp at heven
      | b :: b' :: l => exact (hne b b' l rfl).elim

theorem Canonical.covers_iff (h : Canonical limit l) : Covers l c ↔ inside l c = true :=
  covers_iff_inside h.increasing h.even

private theorem boundary_lt (h : l.Pairwise (· < ·)) (hbounded : ∀ b ∈ l, b ≤ limit)
    (hlength : 2 ≤ l.length) : ∃ b l', l = b :: l' ∧ b < limit ∧ inside l b = true := by
  match l with
  | [] | [_] => simp at hlength
  | b :: b' :: l =>
      obtain ⟨hb, -⟩ := pairwise_cons.mp h
      refine ⟨b, b' :: l, rfl, (hb b' mem_cons_self).trans_le (hbounded b' (by simp)), ?_⟩
      rw [inside_cons, inside_of_lt hb, decide_eq_true (Nat.le_refl b), Bool.xor_false]

theorem eq_of_inside_eq (h : l.Pairwise (· < ·)) (h' : l'.Pairwise (· < ·))
    (hbounded : ∀ b ∈ l, b ≤ limit) (hbounded' : ∀ b ∈ l', b ≤ limit)
    (hlength : l.length % 2 = l'.length % 2) (hinside : ∀ c < limit, inside l c = inside l' c) :
    l = l' := by
  induction l generalizing l' with
  | nil =>
      by_contra hne
      have hpos := length_pos_iff.mpr (Ne.symm hne)
      have hlong : 2 ≤ l'.length := by simp only [length_nil] at hlength; omega
      obtain ⟨b, -, -, hb, hb'⟩ := boundary_lt h' hbounded' hlong
      have := hinside b hb
      simp [hb'] at this
  | cons b l ih =>
      cases l' with
      | nil =>
          have hlong : 2 ≤ (b :: l).length := by
            simp only [length_nil, length_cons] at hlength ⊢
            omega
          obtain ⟨b', -, -, hb, hb'⟩ := boundary_lt h hbounded hlong
          have := hinside b' hb
          simp [hb'] at this
      | cons b' l' =>
          obtain ⟨hb, hl⟩ := pairwise_cons.mp h
          obtain ⟨hb', hl'⟩ := pairwise_cons.mp h'
          have hle := hbounded b mem_cons_self
          have hle' := hbounded' b' mem_cons_self
          -- at the smaller of the two first boundaries the lists would differ
          have heq : b = b' := by
            rcases Nat.lt_trichotomy b b' with hlt | heq | hlt
            · have := hinside b (by omega)
              rw [inside_cons, inside_of_lt hb,
                inside_of_lt (l := b' :: l') (by simp; exact ⟨hlt, fun a ha => hlt.trans (hb' a ha)⟩)]
                at this
              simp at this
            · exact heq
            · have := hinside b' (by omega)
              rw [inside_cons (l := l'), inside_of_lt hb',
                inside_of_lt (l := b :: l) (by simp; exact ⟨hlt, fun a ha => hlt.trans (hb a ha)⟩)]
                at this
              simp at this
          subst heq
          rw [ih hl hl' (fun a ha => hbounded a (mem_cons_of_mem b ha))
            (fun a ha => hbounded' a (mem_cons_of_mem b ha))
            (by simp only [length_cons] at hlength; omega)
            fun c hc => by simpa [inside_cons] using hinside c hc]

theorem Canonical.ext (h : Canonical limit l) (h' : Canonical limit l')
    (hinside : ∀ c < limit, inside l c = inside l' c) : l = l' :=
  eq_of_inside_eq h.increasing h'.increasing h.bounded h'.bounded (h.even.trans h'.even.symm) hinside

/-- A list of ranges that is built by putting later ranges in front of it. -/
structure Descending (bound : Nat) (l : List Nat) : Prop where
  decreasing : l.Pairwise (· > ·)
  even : l.length % 2 = 0
  bounded : ∀ b ∈ l, b < bound

theorem Descending.nil : Descending bound [] := ⟨.nil, rfl, fun _ h => nomatch h⟩

theorem Descending.mono (h : Descending bound l) {bound' : Nat} (hle : bound ≤ bound') :
    Descending bound' l :=
  ⟨h.decreasing, h.even, fun b hb => (h.bounded b hb).trans_le hle⟩

theorem Descending.push (h : Descending bound l) {start stop bound' : Nat} (hbound : bound ≤ start)
    (hlt : start < stop) (hstop : stop < bound') : Descending bound' (stop :: start :: l) where
  decreasing := by
    have hl : ∀ b ∈ l, b < start := fun b hb => (h.bounded b hb).trans_le hbound
    refine pairwise_cons.mpr ⟨?_, pairwise_cons.mpr ⟨hl, h.decreasing⟩⟩
    intro b hb
    rcases mem_cons.mp hb with rfl | hb
    · exact hlt
    · exact (hl b hb).trans hlt
  even := by
    have := h.even
    simp only [length_cons]
    omega
  bounded b hb := by
    rcases mem_cons.mp hb with rfl | hb
    · exact hstop
    · rcases mem_cons.mp hb with rfl | hb
      · omega
      · have := h.bounded b hb
        omega

theorem Descending.extend {b start stop bound' : Nat} (h : Descending bound (b :: start :: l))
    (hle : b ≤ stop) (hstop : stop < bound') : Descending bound' (stop :: start :: l) := by
  obtain ⟨hb, hrest⟩ := pairwise_cons.mp h.decreasing
  obtain ⟨hstart, hl⟩ := pairwise_cons.mp hrest
  have hrest : Descending start l := by
    have := h.even
    exact ⟨hl, by simp only [length_cons] at this; omega, hstart⟩
  exact hrest.push (Nat.le_refl start) ((hb start mem_cons_self).trans_le hle) hstop

theorem Descending.canonical (h : Descending (limit + 1) l) : Canonical limit l.reverse where
  increasing := pairwise_reverse.mpr h.decreasing
  even := by rw [length_reverse, h.even]
  bounded b hb := Nat.le_of_lt_succ (h.bounded b (mem_reverse.mp hb))

end MitScheme.InversionList
