import MitScheme.Lib.Pursuit
import Mathlib.Data.Fintype.Card

/-!
# Telling lists apart

`list?`, `dotted-list?`, `circular-list?` and their relatives of `list.scm`, on a heap of pairs that may
hold any structure, circular ones included. All of them are one loop, which goes two pairs on with `l1`
for each one with `l2`, and compares the two only between the two pairs.

A heap has finitely many pairs, and no more than there are fixnums, so that `fix:+` is addition.
-/

namespace MitScheme.Lists

open Pursuit Option

/-- The empty list, a pair by its place in the heap, or anything else. -/
inductive Object (size : Nat) (α : Type) where
  | empty
  | pair (address : Fin size)
  | other (value : α)
deriving DecidableEq

variable {size : Nat} {α β : Type}

/-- What the pairs hold, each a car and a cdr. -/
abbrev Heap (size : Nat) (α : Type) := Fin size → Object size α × Object size α

variable (heap : Heap size α)

/-- The car and the cdr of a pair; `none` of what is no pair. -/
def Heap.get : Object size α → Option (Object size α × Object size α)
  | .pair address => some (heap address)
  | _ => none

def Heap.cdr (object : Object size α) : Option (Object size α) := (heap.get object).map Prod.snd

/-- `null?` -/
def Object.isNull : Object size α → Bool
  | .empty => true
  | _ => false

variable [DecidableEq α]

/-- The loop that all the procedures below are: what they answer to a circular list, to an element that is
not accepted, and to the object after the last pair with the number of pairs before it. -/
def followCdrs (accept : Object size α → Bool) (circular refused : β) (ended : Object size α → Nat → β) :
    Nat → Object size α → Object size α → Nat → Option β
  | 0, _, _, _ => none
  | rounds + 1, l1, l2, length =>
      match heap.get l1 with
      | none => some (ended l1 length)
      | some (car, l1) =>
          if accept car = false then some refused
          else if l1 = l2 then some circular
          else
            match heap.get l1 with
            | none => some (ended l1 (length + 1))
            | some (car, l1) =>
                if accept car = false then some refused
                else do
                  let l2 ← heap.cdr l2
                  followCdrs accept circular refused ended rounds l1 l2 (length + 2)

/-- `list?` -/
def listP (rounds : Nat) (object : Object size α) : Option Bool :=
  followCdrs heap (fun _ => true) false false (fun l1 _ => l1.isNull) rounds object object 0

/-- `dotted-list?` -/
def dottedListP (rounds : Nat) (object : Object size α) : Option Bool :=
  followCdrs heap (fun _ => true) false false (fun l1 _ => !l1.isNull) rounds object object 0

/-- `circular-list?` -/
def circularListP (rounds : Nat) (object : Object size α) : Option Bool :=
  followCdrs heap (fun _ => true) true false (fun _ _ => false) rounds object object 0

/-- `list-of-type?` -/
def listOfTypeP (predicate : Object size α → Bool) (rounds : Nat) (object : Object size α) : Option Bool :=
  followCdrs heap predicate false false (fun l1 _ => l1.isNull) rounds object object 0

/-- `list?->length`, where `none` is `#f`. -/
def listToLength (rounds : Nat) (object : Object size α) : Option (Option Nat) :=
  followCdrs heap (fun _ => true) none none (fun l1 length => if l1.isNull then some length else none)
    rounds object object 0

/-- `list-of-type?->length`, where `none` is `#f`. -/
def listOfTypeToLength (predicate : Object size α → Bool) (rounds : Nat) (object : Object size α) :
    Option (Option Nat) :=
  followCdrs heap predicate none none (fun l1 length => if l1.isNull then some length else none)
    rounds object object 0

/-! ## The loop -/

/-- The cars of so many pairs. -/
def Heap.elements (heap : Heap size α) (object : Object size α) : Nat → List (Object size α)
  | 0 => []
  | n + 1 =>
      match heap.get object with
      | none => []
      | some (car, cdr) => car :: Heap.elements heap cdr n

variable {heap} {object l1 l2 last : Object size α} {accept : Object size α → Bool}
  {circular refused : β} {ended : Object size α → Nat → β} {i k m d rounds : Nat}

omit [DecidableEq α] in
theorem get_of_cdr {cdr : Object size α} (h : heap.cdr object = some cdr) :
    ∃ car, heap.get object = some (car, cdr) := by
  obtain ⟨⟨car, cdr'⟩, hget, rfl⟩ := map_eq_some_iff.mp h
  exact ⟨car, hget⟩

omit [DecidableEq α] in
theorem get_of_cdr_none (h : heap.cdr object = none) : heap.get object = none :=
  map_eq_none_iff.mp h

/-- **The loop on a chain of pairs that ends**, from any round on. -/
theorem followCdrs_ended (h : EndsAfter heap.cdr object k last) :
    ∀ {rounds i d : Nat} {l1 l2 : Object size α}, follow heap.cdr object (2 * i) = some l1 →
      follow heap.cdr object i = some l2 → k = 2 * i + d → d < 2 * rounds →
      followCdrs heap accept circular refused ended rounds l1 l2 (2 * i)
        = some (if (heap.elements l1 d).all accept then ended last k else refused)
  | 0, i, d, l1, l2, _, _, _, hr => by omega
  | rounds + 1, i, 0, l1, l2, h1, _, hk, _ => by
      -- `l1` is past the last pair
      subst hk
      rw [Nat.add_zero] at h ⊢
      obtain rfl : l1 = last := Option.some.inj (h1.symm.trans h.reached)
      rw [followCdrs, get_of_cdr_none h.stops]
      rfl
  | rounds + 1, i, d + 1, l1, l2, h1, h2, hk, hr => by
      obtain ⟨x, y, hx, hcdr, hy⟩ := h.exists_step (show 2 * i < k by omega)
      obtain rfl : l1 = x := Option.some.inj (h1.symm.trans hx)
      obtain ⟨car, hget⟩ := get_of_cdr hcdr
      have hne : y ≠ l2 := by
        intro heq
        refine h.follow_ne (show i < 2 * i + 1 by omega) (by omega) ?_
        rw [h2, hy, heq]
      rw [followCdrs, Heap.elements]
      simp only [hget, List.all_cons]
      cases haccept : accept car with
      | false => rfl
      | true =>
          simp only [Bool.true_eq_false, if_false, Bool.true_and, if_neg hne]
          cases d with
          | zero =>
              -- an odd number of pairs: the loop is left between the two steps
              obtain rfl : y = last := Option.some.inj (hy.symm.trans (hk ▸ h.reached))
              rw [get_of_cdr_none h.stops, hk]
              rfl
          | succ d =>
              obtain ⟨y', z, hy', hcdr', hz⟩ := h.exists_step (show 2 * i + 1 < k by omega)
              obtain rfl : y = y' := Option.some.inj (hy.symm.trans hy')
              obtain ⟨car', hget'⟩ := get_of_cdr hcdr'
              obtain ⟨x2, y2, hx2, hcdr2, hy2⟩ := h.exists_step (show i < k by omega)
              obtain rfl : l2 = x2 := Option.some.inj (h2.symm.trans hx2)
              rw [Heap.elements]
              simp only [hget', hcdr2, List.all_cons, bind_eq_bind, bind_some]
              cases haccept' : accept car' with
              | false => rfl
              | true =>
                  simp only [Bool.true_eq_false, if_false, Bool.true_and]
                  exact followCdrs_ended h (i := i + 1) hz hy2 (by omega) (by omega)

/-- **The loop on a chain that goes round**, up to the round in which the pointers meet. -/
theorem followCdrs_circular (h : NeverEnds heap.cdr object)
    (hmeet : follow heap.cdr object (2 * m + 1) = follow heap.cdr object m) :
    ∀ {rounds i : Nat} {l1 l2 : Object size α}, follow heap.cdr object (2 * i) = some l1 →
      follow heap.cdr object i = some l2 → i ≤ m → m < i + rounds →
      ∀ length, followCdrs heap accept circular refused ended rounds l1 l2 length = some circular
        ∨ followCdrs heap accept circular refused ended rounds l1 l2 length = some refused
          ∧ ∃ element, accept element = false
  | 0, i, l1, l2, _, _, hi, hr => by omega
  | rounds + 1, i, l1, l2, h1, h2, hi, hr => by
      intro length
      obtain ⟨y, hcdr, hy⟩ := h.exists_step h1
      obtain ⟨car, hget⟩ := get_of_cdr hcdr
      rw [followCdrs]
      simp only [hget]
      cases haccept : accept car with
      | false => exact Or.inr ⟨rfl, car, haccept⟩
      | true =>
          simp only [Bool.true_eq_false, if_false]
          split
          · exact Or.inl rfl
          · rename_i hne
            -- the pointers differ, so that the meeting is still to come
            have hlt : i < m := by
              refine Nat.lt_of_le_of_ne hi fun heq => hne ?_
              subst heq
              exact Option.some.inj (hy.symm.trans (hmeet.trans h2))
            obtain ⟨z, hcdr', hz⟩ := h.exists_step hy
            obtain ⟨car', hget'⟩ := get_of_cdr hcdr'
            obtain ⟨y2, hcdr2, hy2⟩ := h.exists_step h2
            simp only [hget', hcdr2, bind_eq_bind, bind_some]
            cases haccept' : accept car' with
            | false => exact Or.inr ⟨rfl, car', haccept'⟩
            | true =>
                exact followCdrs_circular h hmeet (i := i + 1) hz hy2 hlt (by omega) (length + 2)

/-! ## The procedures -/

omit [DecidableEq α] in
theorem exists_address {cdr : Object size α} (h : heap.cdr object = some cdr) :
    ∃ address, object = .pair address := by
  cases object with
  | empty => cases h
  | pair address => exact ⟨address, rfl⟩
  | other value => cases h

/-- The pairs of a heap, as objects. -/
def pairs (size : Nat) (α : Type) : Finset (Object size α) :=
  Finset.univ.map ⟨Object.pair, fun _ _ h => Object.pair.inj h⟩

theorem card_pairs (size : Nat) (α : Type) : (pairs size α).card = size := by
  rw [pairs, Finset.card_map, Finset.card_univ, Fintype.card_fin]

omit [DecidableEq α] in
theorem mem_pairs {cdr : Object size α} (h : heap.cdr object = some cdr) : object ∈ pairs size α := by
  obtain ⟨address, rfl⟩ := exists_address h
  exact Finset.mem_map_of_mem _ (Finset.mem_univ address)

omit [DecidableEq α] in
theorem length_le_size (h : EndsAfter heap.cdr object k last) : k ≤ size := by
  rw [← card_pairs size α]
  refine h.le_card fun n hn => ?_
  obtain ⟨x, y, hx, hcdr, -⟩ := h.exists_step hn
  exact ⟨x, mem_pairs hcdr, hx⟩

theorem followCdrs_of_endsAfter (h : EndsAfter heap.cdr object k last) (hr : size < rounds) :
    followCdrs heap accept circular refused ended rounds object object 0
      = some (if (heap.elements object k).all accept then ended last k else refused) := by
  have hle := length_le_size h
  exact followCdrs_ended h (i := 0) rfl rfl (by omega) (by omega)

theorem followCdrs_of_neverEnds (h : NeverEnds heap.cdr object) (hr : size < rounds) :
    followCdrs heap accept circular refused ended rounds object object 0 = some circular
      ∨ followCdrs heap accept circular refused ended rounds object object 0 = some refused
        ∧ ∃ element, accept element = false := by
  obtain ⟨m, hm, hmeet⟩ := h.exists_meeting (S := pairs size α) fun n x hx => by
    obtain ⟨y, hcdr, -⟩ := h.exists_step hx
    exact mem_pairs hcdr
  rw [card_pairs] at hm
  exact followCdrs_circular h hmeet (i := 0) rfl rfl (Nat.zero_le m) (by omega) 0

theorem followCdrs_circular_of_accepts (h : NeverEnds heap.cdr object) (hr : size < rounds) :
    followCdrs heap (fun _ => true) circular refused ended rounds object object 0 = some circular := by
  rcases followCdrs_of_neverEnds h hr with heq | ⟨-, element, hfalse⟩
  · exact heq
  · cases hfalse

omit [DecidableEq α] in
theorem isNull_iff : object.isNull = true ↔ object = .empty := by
  cases object with
  | empty => exact ⟨fun _ => rfl, fun _ => rfl⟩
  | pair address | other value => exact ⟨fun h => (by cases h), fun h => (by cases h)⟩

/-- What the answers of the three predicates say of an object. -/
structure Classified (heap : Heap size α) (object : Object size α) (list dotted circular : Bool) : Prop where
  list_iff : list = true ↔ ∃ k, EndsAfter heap.cdr object k .empty
  dotted_iff : dotted = true ↔ ∃ k last, EndsAfter heap.cdr object k last ∧ last ≠ .empty
  circular_iff : circular = true ↔ NeverEnds heap.cdr object
  one : [list, dotted, circular].count true = 1

omit [DecidableEq α] in
theorem classified_of_endsAfter (h : EndsAfter heap.cdr object k last) :
    Classified heap object last.isNull (!last.isNull) false where
  list_iff := by
    rw [isNull_iff]
    constructor
    · intro heq
      subst heq
      exact ⟨k, h⟩
    · rintro ⟨k', h'⟩
      exact (h.unique h').2
  dotted_iff := by
    rw [Bool.not_eq_true', ← Bool.not_eq_true, isNull_iff]
    constructor
    · intro hne
      exact ⟨k, last, h, hne⟩
    · rintro ⟨k', last', h', hne⟩ heq
      exact hne ((h'.unique h).2.trans heq)
  circular_iff := ⟨fun hfalse => (by cases hfalse), fun hnever => absurd hnever h.not_neverEnds⟩
  one := by cases last.isNull <;> rfl

omit [DecidableEq α] in
theorem classified_of_neverEnds (h : NeverEnds heap.cdr object) :
    Classified heap object false false true where
  list_iff := ⟨fun hfalse => (by cases hfalse), fun ⟨_, hends⟩ => absurd h hends.not_neverEnds⟩
  dotted_iff := ⟨fun hfalse => (by cases hfalse), fun ⟨_, _, hends, _⟩ => absurd h hends.not_neverEnds⟩
  circular_iff := ⟨fun _ => h, fun _ => rfl⟩
  one := rfl

/-- **Telling lists apart.** On every object of every heap, and whatever the number of rounds beyond the
number of pairs, each procedure answers. Exactly one of the three predicates holds, by where the cdrs lead;
the length is that of a list; and the type holds of a list whose elements are all of the type. -/
theorem list_classification (heap : Heap size α) (object : Object size α)
    (predicate : Object size α → Bool) (more : Nat) :
    ∃ list dotted circular typed length typedLength,
      listP heap (size + 1 + more) object = some list
      ∧ dottedListP heap (size + 1 + more) object = some dotted
      ∧ circularListP heap (size + 1 + more) object = some circular
      ∧ Classified heap object list dotted circular
      ∧ listToLength heap (size + 1 + more) object = some length
      ∧ (∀ n, length = some n ↔ EndsAfter heap.cdr object n .empty)
      ∧ listOfTypeP heap predicate (size + 1 + more) object = some typed
      ∧ (typed = true ↔ ∃ n, EndsAfter heap.cdr object n .empty
          ∧ ∀ element ∈ heap.elements object n, predicate element = true)
      ∧ listOfTypeToLength heap predicate (size + 1 + more) object = some typedLength
      ∧ ∀ n, typedLength = some n ↔ EndsAfter heap.cdr object n .empty
          ∧ ∀ element ∈ heap.elements object n, predicate element = true := by
  have hr : size < size + 1 + more := by omega
  rcases endsAfter_or_neverEnds heap.cdr object with ⟨k, last, h⟩ | h
  · -- the procedures all answer to the last object
    have hall : (heap.elements object k).all (fun _ => true) = true := by
      rw [List.all_eq_true]
      intro _ _
      rfl
    have hlength : ∀ n, (if last.isNull then some k else none) = some n
        ↔ EndsAfter heap.cdr object n .empty := by
      intro n
      constructor
      · intro heq
        split at heq
        · rename_i hnull
          cases heq
          rwa [isNull_iff.mp hnull] at h
        · cases heq
      · intro hn
        obtain ⟨rfl, rfl⟩ := h.unique hn
        rfl
    have htyped : ∀ n, EndsAfter heap.cdr object n .empty →
        ((∀ element ∈ heap.elements object n, predicate element = true)
          ↔ (heap.elements object k).all predicate = true) := by
      intro n hn
      rw [(h.unique hn).1, List.all_eq_true]
    refine ⟨_, _, _, _, _, _, ?_, ?_, ?_, classified_of_endsAfter h, ?_, hlength,
      followCdrs_of_endsAfter h hr, ?_, followCdrs_of_endsAfter h hr, ?_⟩
    · rw [listP, followCdrs_of_endsAfter h hr, if_pos hall]
    · rw [dottedListP, followCdrs_of_endsAfter h hr, if_pos hall]
    · rw [circularListP, followCdrs_of_endsAfter h hr, if_pos hall]
    · rw [listToLength, followCdrs_of_endsAfter h hr, if_pos hall]
    · split
      · rename_i hpred
        rw [isNull_iff]
        constructor
        · intro heq
          subst heq
          exact ⟨k, h, (htyped k h).mpr hpred⟩
        · rintro ⟨n, hn, -⟩
          exact (h.unique hn).2
      · rename_i hpred
        refine ⟨fun hfalse => (by cases hfalse), ?_⟩
        rintro ⟨n, hn, helements⟩
        exact absurd ((htyped n hn).mp helements) hpred
    · intro n
      split
      · rename_i hpred
        rw [hlength n]
        exact ⟨fun hn => ⟨hn, (htyped n hn).mpr hpred⟩, fun hn => hn.1⟩
      · rename_i hpred
        refine ⟨fun hfalse => (by cases hfalse), ?_⟩
        rintro ⟨hn, helements⟩
        exact absurd ((htyped n hn).mp helements) hpred
  · -- the pointers meet, or an element is refused before they do
    have hnone : ∀ n, ¬ EndsAfter heap.cdr object n .empty := fun n hn => hn.not_neverEnds h
    refine ⟨_, _, _, false, none, none, followCdrs_circular_of_accepts h hr,
      followCdrs_circular_of_accepts h hr, followCdrs_circular_of_accepts h hr,
      classified_of_neverEnds h, followCdrs_circular_of_accepts h hr, ?_, ?_, ?_, ?_, ?_⟩
    · intro n
      exact ⟨fun hfalse => (by cases hfalse), fun hn => absurd hn (hnone n)⟩
    · rcases followCdrs_of_neverEnds (β := Bool) h hr with heq | ⟨heq, -⟩
      · exact heq
      · exact heq
    · exact ⟨fun hfalse => (by cases hfalse), fun ⟨n, hn, _⟩ => absurd hn (hnone n)⟩
    · rcases followCdrs_of_neverEnds (β := Option Nat) h hr with heq | ⟨heq, -⟩
      · exact heq
      · exact heq
    · intro n
      exact ⟨fun hfalse => (by cases hfalse), fun hn => absurd hn.1 (hnone n)⟩

/-- Three pairs, of which the last goes back to the second. -/
example : circularListP (α := Nat)
    (fun address : Fin 3 => (.empty, .pair (if address = 1 then 2 else 1))) 4 (.pair 0) = some true := by
  decide

end MitScheme.Lists
