import MitScheme.Runtime.Msort
import Mathlib.Data.List.Induction

/-!
# Quick sort

`quick-sort!` partitions a part of its vector around the first element of the part, by scans from both ends
that exchange what they stop at.
-/

namespace MitScheme

open Sorting List Option

variable {α : Type} (pred : α → α → Bool)

/-- `increase-i`. It does not go back. -/
def increaseI (vector : List α) (lthElement : α) (r i : Int) : Option { k : Int // i ≤ k } :=
  if _h : i > r then some ⟨i, Int.le_refl i⟩
  else
    (vectorRef vector i).bind fun ith =>
      if pred lthElement ith then some ⟨i, Int.le_refl i⟩
      else (increaseI vector lthElement r (i + 1)).map fun k => ⟨k.1, by have := k.2; omega⟩
termination_by (r + 1 - i).toNat

/-- `decrease-j`. It stays at or above `l`. -/
def decreaseJ (vector : List α) (lthElement : α) (l j : Int) (hj : l ≤ j) :
    Option { k : Int // l ≤ k ∧ k ≤ j } :=
  if h : j ≤ l then some ⟨j, hj, Int.le_refl j⟩
  else
    (vectorRef vector j).bind fun jth =>
      if !pred lthElement jth then some ⟨j, hj, Int.le_refl j⟩
      else
        (decreaseJ vector lthElement l (j - 1) (by omega)).map fun k =>
          ⟨k.1, by have := k.2; omega, by have := k.2; omega⟩
termination_by (j - l).toNat

def exchange (vector : List α) (i j : Int) : Option (List α) := do
  let ithElement ← vectorRef vector i
  let jthElement ← vectorRef vector j
  let vector ← vectorSet vector i jthElement
  vectorSet vector j ithElement

/-- Where `inner-loop` ends. -/
structure Partition (α : Type) (l r : Int) where
  vector : List α
  j : Int
  lower : l ≤ j
  upper : j ≤ r

/-- `inner-loop`, up to the last exchange. -/
def innerLoop (lthElement : α) (l r : Int) (vector : List α) (i j : Int) (hi : l < i) (hj : l ≤ j) (hr : j ≤ r) :
    Option (Partition α l r) :=
  if h : i < j then
    (exchange vector i j).bind fun vector =>
      (increaseI pred vector lthElement r (i + 1)).bind fun i' =>
        (decreaseJ pred vector lthElement l (j - 1) (by omega)).bind fun j' =>
          innerLoop lthElement l r vector i'.1 j'.1 (by have := i'.2; omega) j'.2.1 (by have := j'.2.2; omega)
  else some ⟨vector, j, hj, hr⟩
termination_by (j - i).toNat
decreasing_by
  have := i'.2
  have := j'.2.2
  omega

def outerLoop (vector : List α) (l r : Int) : Option (List α) :=
  if h : r > l then
    if r = l + 1 then do
      let rth ← vectorRef vector r
      let lth ← vectorRef vector l
      if pred rth lth then exchange vector l r else some vector
    else
      (vectorRef vector l).bind fun lthElement =>
        (increaseI pred vector lthElement r (l + 1)).bind fun i =>
          (decreaseJ pred vector lthElement l r (Int.le_of_lt h)).bind fun j =>
            (innerLoop pred lthElement l r vector i.1 j.1 (by have := i.2; omega) j.2.1 j.2.2).bind fun p =>
              (if p.j > l then exchange p.vector p.j l else some p.vector).bind fun vector =>
                (outerLoop vector (p.j + 1) r).bind fun vector => outerLoop vector l (p.j - 1)
  else some vector
termination_by (r + 1 - l).toNat
decreasing_by
  · have := p.lower
    omega
  · have := p.upper
    omega

/-- `quick-sort!` -/
def quickSortInPlace (vector : Sequence α) : Option (Sequence α) :=
  match vector with
  | .vector v => (outerLoop pred v 0 (v.length - 1)).map .vector
  | .list _ => none

def quickSort (vector : Sequence α) : Option (Sequence α) :=
  match vector with
  | .vector v => quickSortInPlace pred (.vector v)
  | .list l => do
      let v ← quickSortInPlace pred (.vector l)
      some (.list v.elements)

variable {pred}

/-! ## The scans -/

theorem increaseI_eq {vector Q : List α} {pivot : α} {r : Int} (m : List α) :
    ∀ {P : List α} {i : Int}, (∀ x ∈ m, pred pivot x = false) → vector = P ++ (m ++ Q) → i = P.length →
      i + m.length ≤ r + 1 → (i + m.length > r ∨ ∃ x Q', Q = x :: Q' ∧ pred pivot x = true) →
      ∃ h, increaseI pred vector pivot r i = some ⟨i + m.length, h⟩ := by
  induction m with
  | nil =>
      intro P i _ hvector hi _ hstop
      rw [increaseI]
      split
      · simp
      · rename_i hr
        obtain ⟨x, Q', rfl, hx⟩ := hstop.resolve_left (by simpa using hr)
        rw [vectorRef_of_eq hvector hi, bind_some, if_pos hx]
        simp
  | cons x m ih =>
      intro P i hm hvector hi hle hstop
      rw [length_cons] at hle hstop
      obtain ⟨h, heq⟩ := @ih (P ++ [x]) (i + 1) (fun y hy => hm y (mem_cons_of_mem x hy))
        (by rw [hvector]; simp) (by rw [hi]; simp) (by omega)
        (hstop.imp (fun h => by omega) fun h => h)
      refine ⟨by omega, ?_⟩
      rw [increaseI, dif_neg (by omega), vectorRef_of_eq hvector hi, bind_some,
        if_neg (by rw [hm x mem_cons_self]; exact Bool.false_ne_true), heq]
      refine congrArg some (Subtype.ext ?_)
      show i + 1 + (m.length : Int) = i + ((x :: m).length : Int)
      rw [length_cons]
      omega

theorem decreaseJ_eq {vector P : List α} {pivot : α} {l : Int} (m : List α) :
    ∀ {Q : List α} {j : Int} (hj : l ≤ j), (∀ x ∈ m, pred pivot x = true) → vector = P ++ (m ++ Q) →
      j = P.length + m.length - 1 → l ≤ j - m.length →
      (j - m.length = l ∨ ∃ P' x, P = P' ++ [x] ∧ pred pivot x = false) →
      ∃ h, decreaseJ pred vector pivot l j hj = some ⟨j - m.length, h⟩ := by
  induction m using List.reverseRecOn with
  | nil =>
      intro Q j hj _ hvector hlen hle hstop
      refine ⟨by simpa using hj, ?_⟩
      rw [decreaseJ]
      split
      · simp
      · obtain ⟨P', x, rfl, hx⟩ := hstop.resolve_left (by simp at hle ⊢; omega)
        have hread : vectorRef vector j = some x := by
          refine @vectorRef_of_eq α vector P' Q x j (by rw [hvector]; simp) ?_
          rw [hlen, length_append, length_singleton, length_nil]
          omega
        rw [hread, bind_some, hx, Bool.not_false]
        simp
  | append_singleton m x ih =>
      intro Q j hj hm hvector hlen hle hstop
      rw [length_append, length_singleton] at hlen hle hstop
      obtain ⟨h, heq⟩ := @ih (x :: Q) (j - 1) (by omega)
        (fun y hy => hm y (mem_append_left _ hy)) (by rw [hvector]; simp) (by omega) (by omega)
        (hstop.imp (fun h => by omega) fun h => h)
      have hread : vectorRef vector j = some x := by
        refine @vectorRef_of_eq α vector (P ++ m) Q x j (by rw [hvector]; simp) ?_
        rw [length_append]
        omega
      refine ⟨by rw [length_append, length_singleton]; omega, ?_⟩
      rw [decreaseJ, dif_neg (by omega), hread, bind_some,
        hm x (mem_append_right _ mem_cons_self), heq]
      refine congrArg some (Subtype.ext ?_)
      show j - 1 - (m.length : Int) = j - ((m ++ [x]).length : Int)
      rw [length_append, length_singleton]
      omega

theorem exchange_eq (A M B : List α) (a b : α) {i j : Int} (hi : i = A.length) (hj : j = A.length + 1 + M.length) :
    exchange (A ++ a :: (M ++ b :: B)) i j = some (A ++ b :: (M ++ a :: B)) := by
  have hj' : j = (A ++ a :: M).length := by
    rw [length_append, length_cons]
    omega
  have hj'' : j = (A ++ b :: M).length := by
    rw [length_append, length_cons]
    omega
  rw [exchange, vectorRef_of_eq rfl hi, @vectorRef_of_eq α _ (A ++ a :: M) B b j (by simp) hj']
  simp only [bind_eq_bind, bind_some]
  rw [vectorSet_of_eq rfl hi, bind_some, @vectorSet_of_eq α _ (A ++ b :: M) B b j (by simp) hj'']
  simp

theorem exchange_symm_eq (A M B : List α) (a b : α) {i j : Int} (hi : i = A.length)
    (hj : j = A.length + 1 + M.length) :
    exchange (A ++ a :: (M ++ b :: B)) j i = some (A ++ b :: (M ++ a :: B)) := by
  have hj' : j = (A ++ a :: M).length := by
    rw [length_append, length_cons]
    omega
  rw [exchange, vectorRef_of_eq rfl hi, @vectorRef_of_eq α _ (A ++ a :: M) B b j (by simp) hj']
  simp only [bind_eq_bind, bind_some]
  rw [@vectorSet_of_eq α _ (A ++ a :: M) B b j (by simp) hj', bind_some,
    @vectorSet_of_eq α _ A (M ++ a :: B) a i (by simp) hi]

/-! ## The partition -/

theorem perm_exchange (x y : α) (l r : List α) : (y :: (l ++ x :: r)).Perm (x :: (l ++ y :: r)) :=
  calc y :: (l ++ x :: r)
    List.Perm _ (y :: x :: (l ++ r)) := perm_middle.cons y
    List.Perm _ (x :: y :: (l ++ r)) := .swap x y _
    List.Perm _ (x :: (l ++ y :: r)) := perm_middle.symm.cons x

/-- What is left to exchange: nothing, or something from an element that is to go up to one that is to go
down. -/
def Unpartitioned (pred : α → α → Bool) (pivot : α) (m : List α) : Prop :=
  m = [] ∨ ∃ x m' y, m = x :: (m' ++ [y]) ∧ pred pivot x = true ∧ pred pivot y = false

theorem exists_scanned (pred : α → α → Bool) (pivot : α) (m : List α) :
    ∃ down rest up, m = down ++ (rest ++ up) ∧ (∀ x ∈ down, pred pivot x = false)
      ∧ (∀ x ∈ up, pred pivot x = true) ∧ Unpartitioned pred pivot rest := by
  induction m with
  | nil => exact ⟨[], [], [], rfl, nofun, nofun, Or.inl rfl⟩
  | cons x m ih =>
      cases hx : pred pivot x with
      | false =>
          obtain ⟨down, rest, up, hm, hdown, hup, hrest⟩ := ih
          refine ⟨x :: down, rest, up, by rw [hm, cons_append], fun y hy => ?_, hup, hrest⟩
          rcases mem_cons.mp hy with rfl | hy
          · exact hx
          · exact hdown y hy
      | true =>
          -- the other scan goes back to the last element that is to go down
          have hback : ∀ m : List α, ∃ rest up, x :: m = rest ++ up ∧ (∀ y ∈ up, pred pivot y = true)
              ∧ Unpartitioned pred pivot rest := by
            intro m
            induction m using List.reverseRecOn with
            | nil =>
                refine ⟨[], [x], rfl, fun y hy => ?_, Or.inl rfl⟩
                rw [mem_singleton.mp hy, hx]
            | append_singleton m y ih =>
                cases hy : pred pivot y with
                | false => exact ⟨x :: (m ++ [y]), [], by simp, nofun, Or.inr ⟨x, m, y, rfl, hx, hy⟩⟩
                | true =>
                    obtain ⟨rest, up, hm, hup, hrest⟩ := ih
                    refine ⟨rest, up ++ [y], ?_, fun z hz => ?_, hrest⟩
                    · rw [← cons_append, hm, append_assoc]
                    · rcases mem_append.mp hz with hz | hz
                      · exact hup z hz
                      · rw [mem_singleton.mp hz, hy]
          obtain ⟨rest, up, hm, hup, hrest⟩ := hback m
          exact ⟨[], rest, up, hm, nofun, hup, hrest⟩

/-- **The two scans**, with what they have already passed on their sides. -/
theorem scans_eq {vector A down mid up B : List α} {pivot : α} {l r i j : Int}
    (hvector : vector = A ++ (pivot :: (down ++ (mid ++ (up ++ B)))))
    (hdown : ∀ x ∈ down, pred pivot x = false) (hup : ∀ x ∈ up, pred pivot x = true) (hl : l = A.length)
    (hi : i = l + 1 + down.length) (hj : j = l + down.length + mid.length) (hr : r = j + up.length) (hlj : l ≤ j) :
    ∃ down' mid' up', mid = down' ++ (mid' ++ up') ∧ (∀ x ∈ down', pred pivot x = false)
      ∧ (∀ x ∈ up', pred pivot x = true) ∧ Unpartitioned pred pivot mid'
      ∧ (∃ h, increaseI pred vector pivot r i = some ⟨i + down'.length, h⟩)
      ∧ ∃ h, decreaseJ pred vector pivot l j hlj = some ⟨j - up'.length, h⟩ := by
  obtain ⟨down', mid', up', hmid, hdown', hup', hmid'⟩ := exists_scanned pred pivot mid
  have hlen : mid.length = down'.length + (mid'.length + up'.length) := by
    rw [hmid, length_append, length_append]
  refine ⟨down', mid', up', hmid, hdown', hup', hmid', ?_, ?_⟩
  · refine @increaseI_eq α pred vector (mid' ++ (up' ++ (up ++ B))) pivot r down' (A ++ pivot :: down) i hdown'
      (by rw [hvector, hmid]; simp) (by rw [length_append, length_cons]; omega) (by omega) ?_
    rcases hmid' with rfl | ⟨x, m, y, rfl, hx, -⟩
    · cases up' with
      | nil =>
          cases up with
          | nil =>
              simp only [length_nil] at hlen hr
              exact Or.inl (by omega)
          | cons x up => exact Or.inr ⟨x, up ++ B, rfl, hup x mem_cons_self⟩
      | cons x up' => exact Or.inr ⟨x, up' ++ (up ++ B), rfl, hup' x mem_cons_self⟩
    · exact Or.inr ⟨x, _, rfl, hx⟩
  · refine @decreaseJ_eq α pred vector (A ++ pivot :: (down ++ (down' ++ mid'))) pivot l up' (up ++ B) j hlj hup'
      (by rw [hvector, hmid]; simp)
      (by rw [length_append, length_cons, length_append, length_append]; omega) (by omega) ?_
    rcases hmid' with rfl | ⟨x, m, y, rfl, -, hy⟩
    · rcases eq_nil_or_concat (down ++ down') with hnil | ⟨d, y, hd⟩
      · obtain ⟨rfl, rfl⟩ := append_eq_nil_iff.mp hnil
        simp only [length_nil] at hlen hj
        exact Or.inl (by omega)
      · refine Or.inr ⟨A ++ pivot :: d, y, ?_, ?_⟩
        · rw [append_nil, hd]
          simp
        · have hy : y ∈ down ++ down' := by
            rw [hd]
            simp
          rcases mem_append.mp hy with hy | hy
          · exact hdown y hy
          · exact hdown' y hy
    · exact Or.inr ⟨A ++ pivot :: (down ++ (down' ++ x :: m)), y, by simp, hy⟩

/-- What `inner-loop` leaves of a part: the pivot, what is to go down, what is to go up. -/
structure PartitionedAs (pred : α → α → Bool) (A B : List α) (pivot : α) (part : List α) {l r : Int}
    (p : Partition α l r) (down up : List α) : Prop where
  vector : p.vector = A ++ (pivot :: (down ++ (up ++ B)))
  index : p.j = l + down.length
  goesDown : ∀ x ∈ down, pred pivot x = false
  goesUp : ∀ x ∈ up, pred pivot x = true
  perm : (down ++ up).Perm part

/-- **The loop `inner-loop`**, by what has been exchanged and what is between. -/
theorem innerLoop_eq (n : Nat) :
    ∀ {vector A down mid up B : List α} {pivot : α} {l r i j : Int} (hi : l < i) (hj : l ≤ j) (hr : j ≤ r),
      mid.length = n → vector = A ++ (pivot :: (down ++ (mid ++ (up ++ B)))) →
      (∀ x ∈ down, pred pivot x = false) → (∀ x ∈ up, pred pivot x = true) → Unpartitioned pred pivot mid →
      l = A.length → i = l + 1 + down.length → j = l + down.length + mid.length → r = j + up.length →
      ∃ p down' up', innerLoop pred pivot l r vector i j hi hj hr = some p
        ∧ PartitionedAs pred A B pivot (down ++ (mid ++ up)) p down' up' := by
  induction n using Nat.strongRecOn with
  | ind n ih =>
      intro vector A down mid up B pivot l r i j hi hj hr hn hvector hdown hup hmid hl hi' hj' hr'
      rw [innerLoop]
      rcases hmid with rfl | ⟨x, m, y, rfl, hx, hy⟩
      · rw [length_nil] at hj'
        rw [dif_neg (by omega)]
        exact ⟨_, down, up, rfl, hvector, by show j = _; omega, hdown, hup, .refl _⟩
      · have hlen : (x :: (m ++ [y])).length = m.length + 2 := by simp
        have hexchange := exchange_eq (A ++ pivot :: down) m (up ++ B) x y (i := i) (j := j)
          (by rw [length_append, length_cons]; omega)
          (by rw [length_append, length_cons]; omega)
        have hvector' : vector = (A ++ pivot :: down) ++ x :: (m ++ y :: (up ++ B)) := by
          rw [hvector]
          simp
        obtain ⟨down', mid', up', hm, hdown', hup', hmid', ⟨hinc, hincrease⟩, hdec, hdecrease⟩ :=
          @scans_eq α pred ((A ++ pivot :: down) ++ y :: (m ++ x :: (up ++ B))) A (down ++ [y]) m (x :: up) B
            pivot l r (i + 1) (j - 1) (by simp)
            (fun z hz => by
              rcases mem_append.mp hz with hz | hz
              · exact hdown z hz
              · rw [mem_singleton.mp hz, hy])
            (fun z hz => by
              rcases mem_cons.mp hz with rfl | hz
              · exact hx
              · exact hup z hz)
            hl (by rw [length_append, length_singleton]; omega)
            (by rw [length_append, length_singleton]; omega) (by rw [length_cons]; omega) (by omega)
        have hlen' : m.length = down'.length + (mid'.length + up'.length) := by
          rw [hm, length_append, length_append]
        obtain ⟨p, down'', up'', hloop, hp⟩ := @ih mid'.length (by omega)
          ((A ++ pivot :: down) ++ y :: (m ++ x :: (up ++ B))) A (down ++ (y :: down')) mid' (up' ++ x :: up) B
          pivot l r (i + 1 + down'.length) (j - 1 - up'.length) (by omega) (by omega) (by omega) rfl
          (by rw [hm]; simp)
          (fun z hz => by
            rcases mem_append.mp hz with hz | hz
            · exact hdown z hz
            · rcases mem_cons.mp hz with rfl | hz
              · exact hy
              · exact hdown' z hz)
          (fun z hz => by
            rcases mem_append.mp hz with hz | hz
            · exact hup' z hz
            · rcases mem_cons.mp hz with rfl | hz
              · exact hx
              · exact hup z hz)
          hmid' hl (by rw [length_append, length_cons]; omega)
          (by rw [length_append, length_cons]; omega)
          (by rw [length_append, length_cons]; omega)
        refine ⟨p, down'', up'', ?_, hp.vector, hp.index, hp.goesDown, hp.goesUp, hp.perm.trans ?_⟩
        · rw [dif_pos (by omega), hvector', hexchange, bind_some, hincrease, bind_some, hdecrease,
            bind_some, hloop]
        · rw [hm]
          have hperm := (perm_exchange x y (down' ++ (mid' ++ up')) up).append_left down
          simpa using hperm

/-! ## Sorting -/

theorem Sorts.around (hlt : IsStrictWeakOrder α fun a b => pred a b = true) {pivot : α}
    {down up down' up' : List α} (hdown : ∀ x ∈ down, pred pivot x = false)
    (hup : ∀ x ∈ up, pred pivot x = true) (hd : Sorts pred down down') (hu : Sorts pred up up') :
    InOrder pred (down' ++ pivot :: up') := by
  have hdown' : ∀ x ∈ down', pred pivot x = false := fun x hx => hdown x (hd.perm.mem_iff.mp hx)
  have hup' : ∀ x ∈ up', pred x pivot = false := fun x hx => lt_asymm hlt (hup x (hu.perm.mem_iff.mp hx))
  refine hd.inOrder.append (pairwise_cons.mpr ⟨hup', hu.inOrder⟩) fun a ha b hb => ?_
  rcases mem_cons.mp hb with rfl | hb
  · exact hdown' a ha
  · exact not_lt_trans hlt (hdown' a ha) (hup' b hb)

theorem sorts_short {l : List α} (h : l.length ≤ 1) : Sorts pred l l := by
  refine ⟨.refl l, ?_⟩
  match l, h with
  | [], _ => exact InOrder.nil
  | [a], _ => exact InOrder.singleton a

/-- **The loop `outer-loop`** sorts its part of the vector. -/
theorem outerLoop_eq (hlt : IsStrictWeakOrder α fun a b => pred a b = true) (n : Nat) :
    ∀ {vector A B part : List α} {l r : Int}, part.length = n → vector = A ++ (part ++ B) → l = A.length →
      r = l + n - 1 →
      ∃ sorted, outerLoop pred vector l r = some (A ++ (sorted ++ B)) ∧ Sorts pred part sorted := by
  induction n using Nat.strongRecOn with
  | ind n ih =>
      intro vector A B part l r hn hvector hl hr
      rw [outerLoop]
      match part, hn with
      | [], hn =>
          rw [length_nil] at hn
          rw [dif_neg (by omega), hvector]
          exact ⟨[], rfl, sorts_short (Nat.zero_le _)⟩
      | [a], hn =>
          rw [length_singleton] at hn
          rw [dif_neg (by omega), hvector]
          exact ⟨[a], rfl, sorts_short (Nat.le_refl _)⟩
      | [a, b], hn =>
          have hn' : 2 = n := hn
          rw [dif_pos (by omega), if_pos (by omega), hvector,
            @vectorRef_of_eq α _ (A ++ [a]) B b r (by simp) (by rw [length_append, length_singleton]; omega),
            @vectorRef_of_eq α (A ++ ([a, b] ++ B)) A (b :: B) a l rfl hl]
          simp only [bind_eq_bind, bind_some]
          cases hba : pred b a with
          | true =>
              refine ⟨[b, a], ?_, .swap a b [], ?_⟩
              · exact exchange_eq A [] B a b hl (by rw [length_nil]; omega)
              · exact pairwise_pair.mpr (lt_asymm hlt hba)
          | false => exact ⟨[a, b], rfl, .refl _, pairwise_pair.mpr hba⟩
      | pivot :: b :: c :: part, hn =>
          simp only [length_cons] at hn
          generalize hmid : b :: c :: part = mid at hvector
          have hlen : mid.length + 1 = n := by
            rw [← hmid]
            exact hn
          rw [dif_pos (by omega), if_neg (by omega)]
          obtain ⟨down, rest, up, hm, hdown, hup, hrest, ⟨hinc, hincrease⟩, hdec, hdecrease⟩ :=
            @scans_eq α pred vector A [] mid [] B pivot l r (l + 1) r (by rw [hvector]; simp) nofun nofun hl
              (by simp) (by rw [length_nil]; omega) (by simp) (by omega)
          have hlen' : mid.length = down.length + (rest.length + up.length) := by
            rw [hm, length_append, length_append]
          obtain ⟨p, down', up', hloop, hp⟩ := @innerLoop_eq α pred rest.length vector A down rest up B pivot l r
            (l + 1 + down.length) (r - up.length) (by omega) (by omega) (by omega) rfl
            (by rw [hvector, hm]; simp) hdown hup hrest hl rfl (by omega) (by omega)
          have hsplit : down'.length + up'.length = mid.length := by
            rw [← length_append, hp.perm.length_eq, hm]
          have hindex := hp.index
          -- the pivot goes between the parts
          obtain ⟨left, hleft, hpivot⟩ : ∃ left, left.Perm down'
              ∧ (if p.j > l then exchange p.vector p.j l else some p.vector)
                = some (A ++ (left ++ pivot :: (up' ++ B))) := by
            rcases eq_nil_or_concat down' with hnil | ⟨u, y, hu⟩
            · refine ⟨[], by rw [hnil], ?_⟩
              rw [hnil, length_nil] at hindex
              rw [if_neg (by omega), hp.vector, hnil]
              rfl
            · refine ⟨y :: u, ?_, ?_⟩
              · rw [hu, concat_eq_append]
                exact (perm_append_singleton y u).symm
              · rw [hu, concat_eq_append, length_append, length_singleton] at hindex
                have hvector' : p.vector = A ++ pivot :: (u ++ y :: (up' ++ B)) := by
                  rw [hp.vector, hu]
                  simp
                rw [if_pos (by omega), hvector', exchange_symm_eq A u (up' ++ B) pivot y hl (by omega)]
                simp
          have hleftlen := hleft.length_eq
          obtain ⟨up'', hsortup, hup''⟩ := @ih up'.length (by omega) (A ++ (left ++ pivot :: (up' ++ B)))
            (A ++ (left ++ [pivot])) B up' (p.j + 1) r rfl (by simp)
            (by simp only [length_append, length_singleton]; omega) (by omega)
          obtain ⟨left', hsortleft, hleft'⟩ := @ih left.length (by omega)
            (A ++ (left ++ [pivot]) ++ (up'' ++ B)) A (pivot :: (up'' ++ B)) left l (p.j - 1) rfl (by simp) hl
            (by omega)
          refine ⟨left' ++ pivot :: up'', ?_, ?_, ?_⟩
          · rw [@vectorRef_of_eq α vector A (mid ++ B) pivot l (by rw [hvector]; simp) hl, bind_some,
              hincrease, bind_some, hdecrease, bind_some]
            rw [hloop, bind_some, hpivot, bind_some, hsortup, bind_some, hsortleft]
            simp
          · refine perm_middle.trans (.cons pivot ?_)
            rw [hm]
            exact ((hleft'.perm.trans hleft).append hup''.perm).trans hp.perm
          · exact Sorts.around hlt hp.goesDown hp.goesUp ⟨hleft'.perm.trans hleft, hleft'.inOrder⟩ hup''

/-- **Quick sort** sorts a vector or a list. -/
theorem quickSort_eq (hlt : IsStrictWeakOrder α fun a b => pred a b = true) (obj : Sequence α) :
    ∃ sorted, quickSort pred obj = some (obj.withElements sorted) ∧ Sorts pred obj.elements sorted := by
  obtain ⟨sorted, hsort, hsorts⟩ := @outerLoop_eq α pred hlt obj.elements.length obj.elements [] [] obj.elements 0
    (obj.elements.length - 1) rfl (by simp) rfl (by omega)
  rw [append_nil] at hsort
  refine ⟨sorted, ?_, hsorts⟩
  cases obj with
  | vector v =>
      rw [quickSort, quickSortInPlace, show v = (Sequence.vector v).elements from rfl, hsort]
      rfl
  | list l =>
      rw [quickSort, quickSortInPlace, show l = (Sequence.list l).elements from rfl, hsort]
      rfl

/-- **Sorting.** Merge sort, also under the name `sort`, returns a sequence of the same kind in order, with ties
as they were; quick sort returns one in order. Each of them comes to an end, and every index that it uses is one
of the vector. -/
theorem sorting (pred : α → α → Bool) (hlt : IsStrictWeakOrder α fun a b => pred a b = true) (obj : Sequence α) :
    (∃ sorted, mergeSort pred obj = some (obj.withElements sorted) ∧ StablySorts pred obj.elements sorted)
    ∧ (∃ sorted, mergeSortInPlace pred (.vector obj.elements) = some (.vector sorted)
        ∧ StablySorts pred obj.elements sorted)
    ∧ (∃ sorted, quickSort pred obj = some (obj.withElements sorted) ∧ Sorts pred obj.elements sorted)
    ∧ ∃ sorted, quickSortInPlace pred (.vector obj.elements) = some (.vector sorted)
        ∧ Sorts pred obj.elements sorted :=
  ⟨mergeSort_eq hlt obj, mergeSortInPlace_eq hlt obj.elements, quickSort_eq hlt obj,
    quickSort_eq hlt (.vector obj.elements)⟩

theorem sorting_pairs :
    ∃ sorted, mergeSort (fun a b : Nat × Nat => a.1 < b.1) (.list [(3, 1), (1, 1), (3, 2), (1, 2)])
        = some (.list sorted)
      ∧ StablySorts (fun a b : Nat × Nat => a.1 < b.1) [(3, 1), (1, 1), (3, 2), (1, 2)] sorted :=
  (sorting _ (strictWeak_of_key Prod.fst) (.list [(3, 1), (1, 1), (3, 2), (1, 2)])).1

/-- **On a linear order quick sort is merge sort.** Without ties there is one sorted sequence. -/
theorem quickSort_eq_mergeSort [LinearOrder α] (obj : Sequence α) :
    quickSort (fun a b => decide (a < b)) obj = mergeSort (fun a b => decide (a < b)) obj := by
  have hlt : IsStrictWeakOrder α fun a b => decide (a < b) = true := strictWeak_of_key id
  obtain ⟨quick, hquick, hsorts⟩ := quickSort_eq hlt obj
  obtain ⟨merged, hmerged, hstable⟩ := mergeSort_eq hlt obj
  have heq : quick = merged := by
    -- both are the elements in order, and neither of two ties can be told from the other
    refine (hsorts.perm.trans hstable.perm.symm).eq_of_pairwise ?_ hsorts.inOrder hstable.inOrder
    intro a b _ _ hab hba
    exact le_antisymm (not_lt.mp (of_decide_eq_false hab)) (not_lt.mp (of_decide_eq_false hba))
  rw [hquick, hmerged, heq]

end MitScheme
