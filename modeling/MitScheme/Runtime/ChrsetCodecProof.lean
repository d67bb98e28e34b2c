import MitScheme.Runtime.ChrsetCodec
import MitScheme.Lib.Slices
import Mathlib.Data.Nat.Bitwise

/-!
# The bytes of a char-set stand for its inversion list

Whatever the limit between the low and the high bytevector, as long as it is a multiple of eight,
a canonical inversion list is read back as it was stored, and a code point is found in the bytes
exactly if it is inside of the list.
-/

namespace MitScheme.Chrset

open Codec InversionList List

variable {ilist result : List Nat} {low high : Bytevector} {limit c : Nat}

/-! ## The low bytevector -/

theorem bytevectorU8Ref_set {bytevector : Bytevector} {i j byte : Nat}
    (hi : i < bytevector.length) (hbyte : byte < 256) :
    bytevectorU8Ref (bytevectorU8Set bytevector i byte) j
      = if i = j then byte else bytevectorU8Ref bytevector j := by
  unfold bytevectorU8Ref bytevectorU8Set
  rw [getD_eq_getElem?_getD, List.getElem?_set]
  split
  · simp only [Option.getD_some, UInt8.toNat_ofNat', Nat.mod_eq_of_lt hbyte]
  · rfl

@[simp] theorem length_bytevectorU8Set (bytevector : Bytevector) (i byte : Nat) :
    (bytevectorU8Set bytevector i byte).length = bytevector.length := by
  rw [bytevectorU8Set, length_set]

theorem bytevectorU8Ref_lt (bytevector : Bytevector) (i : Nat) :
    bytevectorU8Ref bytevector i < 256 := UInt8.toNat_lt _

theorem lowRef_eq (low : Bytevector) (cp : Nat) :
    lowRef low cp = (bytevectorU8Ref low (cp / 8)).testBit (cp % 8) := by
  have hand : cp &&& 7 = cp % 8 := Nat.and_two_pow_sub_one_eq_mod cp 3
  have hshift : cp >>> 3 = cp / 8 := Nat.shiftRight_eq_div_pow cp 3
  rw [lowRef, hand, hshift, Nat.one_shiftLeft, Nat.and_two_pow]
  cases (bytevectorU8Ref low (cp / 8)).testBit (cp % 8) <;> simp

@[simp] theorem lowLimit_lowSet (low : Bytevector) (cp : Nat) :
    lowLimit (lowSet low cp) = lowLimit low := by
  rw [lowLimit, lowLimit, lowSet, length_bytevectorU8Set]

theorem lowRef_lowSet {cp : Nat} (h : cp < lowLimit low) :
    lowRef (lowSet low cp) c = (decide (cp = c) || lowRef low c) := by
  have hand : cp &&& 7 = cp % 8 := Nat.and_two_pow_sub_one_eq_mod cp 3
  have hshift : cp >>> 3 = cp / 8 := Nat.shiftRight_eq_div_pow cp 3
  have hlength : cp / 8 < low.length := by
    rw [lowLimit] at h
    omega
  have hbit : (1 : Nat) <<< (cp % 8) < 2 ^ 8 := by
    rw [Nat.one_shiftLeft]
    exact Nat.pow_lt_pow_right (by omega) (Nat.mod_lt cp (by omega))
  have hbyte := Nat.or_lt_two_pow (bytevectorU8Ref_lt low (cp / 8)) hbit
  rw [lowRef_eq, lowRef_eq, lowSet, hand, hshift, bytevectorU8Ref_set hlength hbyte]
  split
  · rename_i hindex
    rw [Nat.testBit_or, Nat.one_shiftLeft, Nat.testBit_two_pow, hindex, Bool.or_comm]
    congr 1
    exact decide_eq_decide.mpr (by omega)
  · rename_i hindex
    have hne : cp ≠ c := fun heq => hindex (heq ▸ rfl)
    simp only [hne, decide_false, Bool.false_or]

@[simp] theorem lowLimit_foldl (low : Bytevector) (cps : List Nat) :
    lowLimit (cps.foldl lowSet low) = lowLimit low := by
  induction cps generalizing low with
  | nil => rfl
  | cons cp cps ih => rw [foldl_cons, ih, lowLimit_lowSet]

@[simp] theorem lowLimit_setRange (low : Bytevector) (start stop : Nat) :
    lowLimit (setRange low start stop) = lowLimit low := lowLimit_foldl low _

theorem lowRef_foldl {cps : List Nat} (h : ∀ cp ∈ cps, cp < lowLimit low) :
    lowRef (cps.foldl lowSet low) c = true ↔ c ∈ cps ∨ lowRef low c = true := by
  induction cps generalizing low with
  | nil => simp
  | cons cp cps ih =>
      have hcp := h cp mem_cons_self
      have hcps : ∀ cp' ∈ cps, cp' < lowLimit (lowSet low cp) := fun cp' hcp' => by
        rw [lowLimit_lowSet]
        exact h cp' (mem_cons_of_mem cp hcp')
      rw [foldl_cons, ih hcps, lowRef_lowSet hcp, Bool.or_eq_true, decide_eq_true_eq,
        mem_cons, ← or_assoc, or_comm (a := c ∈ cps), eq_comm (a := cp)]

theorem lowRef_setRange {start stop : Nat} (h : stop ≤ lowLimit low) :
    lowRef (setRange low start stop) c = true
      ↔ (start ≤ c ∧ c < stop) ∨ lowRef low c = true := by
  have hrange : ∀ cp ∈ List.range' start (stop - start), cp < lowLimit low := fun cp hcp => by
    rw [mem_range'_1] at hcp
    omega
  rw [setRange, lowRef_foldl hrange, mem_range'_1]
  exact or_congr_left ⟨fun ⟨hle, hlt⟩ => ⟨hle, by omega⟩, fun ⟨hle, hlt⟩ => ⟨hle, by omega⟩⟩

theorem not_covers_of_lt (h : ∀ b ∈ ilist, c < b) : ¬ Covers ilist c := by
  induction ilist, c using Covers.induct with
  | case1 start stop ilist c ih =>
      intro hcovers
      rcases hcovers with ⟨hstart, -⟩ | hcovers
      · have := h start mem_cons_self
        omega
      · exact ih (fun b hb => h b (by simp [hb])) hcovers
  | case2 ilist c hne =>
      intro hcovers
      unfold Covers at hcovers
      split at hcovers
      · exact hne _ _ _ rfl
      · exact hcovers

@[simp] theorem lowLimit_inversionListToLowLoop (low : Bytevector) :
    lowLimit (inversionListToLowLoop limit low ilist) = lowLimit low := by
  fun_induction inversionListToLowLoop limit low ilist <;> simp_all

theorem lowRef_inversionListToLowLoop (hlimit : lowLimit low = limit)
    (hincreasing : ilist.Pairwise (· < ·)) (hc : c < limit) :
    lowRef (inversionListToLowLoop limit low ilist) c = true
      ↔ lowRef low c = true ∨ Covers ilist c := by
  fun_induction inversionListToLowLoop limit low ilist with
  | case1 low start stop ilist hstop ih =>
      have hrest := hincreasing.tail.tail
      rw [ih (by rw [lowLimit_setRange, hlimit]) hrest, lowRef_setRange (hlimit ▸ hstop), Covers,
        or_comm (a := start ≤ c ∧ c < stop), or_assoc]
  | case2 low start stop ilist hstop hstart =>
      -- the range reaches beyond the limit, so all later ones are above it
      have hnone : ¬ Covers ilist c := not_covers_of_lt fun b hb => by
        have := (pairwise_cons.mp hincreasing.tail).1 b hb
        omega
      rw [lowRef_setRange (Nat.le_of_eq hlimit.symm), Covers]
      simp only [hnone, or_false, hc, and_true, show c < stop by omega]
      exact or_comm
  | case3 low start stop ilist hstop hstart =>
      have hnone : ¬ Covers (start :: stop :: ilist) c := not_covers_of_lt fun b hb => by
        rcases mem_cons.mp hb with rfl | hb
        · omega
        · have := (pairwise_cons.mp hincreasing).1 b hb
          omega
      simp only [hnone, or_false]
  | case4 ilist low hne =>
      rcases ilist with _ | ⟨start, _ | ⟨stop, ilist⟩⟩
      · simp [Covers]
      · simp [Covers]
      · exact (hne start stop ilist rfl).elim

theorem lowLimit_inversionListToLow (hlimit : limit % 8 = 0) :
    lowLimit (inversionListToLow ilist limit) = limit := by
  rw [inversionListToLow, lowLimit_inversionListToLowLoop, makeLow, lowLimit, length_replicate,
    lowCpsPerByte]
  omega

theorem lowRef_inversionListToLow (hlimit : limit % 8 = 0)
    (h : ilist.Pairwise (· < ·)) (hc : c < limit) :
    lowRef (inversionListToLow ilist limit) c = true ↔ Covers ilist c := by
  have hmake : lowLimit (makeLow limit) = limit := by
    rw [makeLow, lowLimit, length_replicate, lowCpsPerByte]
    omega
  have hempty : lowRef (makeLow limit) c = false := by
    rw [lowRef_eq, bytevectorU8Ref, makeLow, getD_eq_getElem?_getD, List.getElem?_replicate]
    split <;> simp
  rw [inversionListToLow, lowRef_inversionListToLowLoop hmake h hc, hempty]
  simp only [Bool.false_eq_true, false_or]

/-! ## Reading the low bytevector -/

theorem decide_stretch {i left : Nat} :
    decide (i ≤ c ∧ c < i + (left + 1))
      = (decide (i = c) || decide (i + 1 ≤ c ∧ c < i + 1 + left)) := by
  rw [← Bool.decide_or]
  exact decide_eq_decide.mpr (by omega)

theorem inside_findStart (procedure : Nat → Bool) (left : Nat) :
    (∀ i result, inside (findStart procedure left i result) c
        = Bool.xor (decide (i ≤ c ∧ c < i + left) && procedure c) (inside result c))
      ∧ ∀ start i result, start ≤ i → inside (findEnd procedure left start i result) c
        = Bool.xor (decide (start ≤ c ∧ c < i) || (decide (i ≤ c ∧ c < i + left) && procedure c))
            (inside result c) := by
  induction left with
  | zero =>
      refine ⟨fun i result => ?_, fun start i result hle => ?_⟩
      · have hnone : ¬ (i ≤ c ∧ c < i + 0) := by omega
        rw [findStart, decide_eq_false hnone, Bool.false_and, Bool.false_xor]
      · have hnone : ¬ (i ≤ c ∧ c < i + 0) := by omega
        rw [findEnd, rcons, inside_range hle, decide_eq_false hnone, Bool.false_and, Bool.or_false]
  | succ left ih =>
      refine ⟨fun i result => ?_, fun start i result hle => ?_⟩
      · rw [findStart, decide_stretch, Bool.and_or_distrib_right]
        split
        · rename_i hi
          -- the range that begins here has one code point so far
          have hrange : (decide (i = c) && procedure c) = decide (i ≤ c ∧ c < i + 1) := by
            by_cases heq : i = c
            · subst heq
              rw [hi, Bool.and_true]
              exact decide_eq_decide.mpr (by omega)
            · rw [decide_eq_false heq]
              exact (decide_eq_false (by omega)).symm
          rw [ih.2 i (i + 1) result (Nat.le_succ i), hrange]
        · rename_i hi
          have hnone : (decide (i = c) && procedure c) = false := by
            by_cases heq : i = c
            · subst heq
              rw [Bool.eq_false_of_not_eq_true hi, Bool.and_false]
            · rw [decide_eq_false heq, Bool.false_and]
          rw [ih.1, hnone, Bool.false_or]
      · rw [findEnd, decide_stretch, Bool.and_or_distrib_right]
        split
        · rename_i hi
          -- the range that has begun gets one more code point
          have hrange : (decide (start ≤ c ∧ c < i) || (decide (i = c) && procedure c))
              = decide (start ≤ c ∧ c < i + 1) := by
            by_cases heq : i = c
            · subst heq
              rw [hi, Bool.and_true, decide_eq_true rfl, Bool.or_true]
              exact (decide_eq_true (by omega)).symm
            · rw [decide_eq_false heq, Bool.false_and, Bool.or_false]
              exact decide_eq_decide.mpr (by omega)
          rw [ih.2 start (i + 1) result (by omega), ← Bool.or_assoc, hrange]
        · rename_i hi
          have hnone : (decide (i = c) && procedure c) = false := by
            by_cases heq : i = c
            · subst heq
              rw [Bool.eq_false_of_not_eq_true hi, Bool.and_false]
            · rw [decide_eq_false heq, Bool.false_and]
          -- the range is over, and what follows it does not meet it
          have hapart : (decide (start ≤ c ∧ c < i)
                || (decide (i + 1 ≤ c ∧ c < i + 1 + left) && procedure c))
              = Bool.xor (decide (i + 1 ≤ c ∧ c < i + 1 + left) && procedure c)
                  (decide (start ≤ c ∧ c < i)) := by
            by_cases hrange : start ≤ c ∧ c < i
            · rw [decide_eq_true hrange, decide_eq_false (p := i + 1 ≤ c ∧ c < i + 1 + left)
                (by omega)]
              rfl
            · rw [decide_eq_false hrange, Bool.false_or, Bool.xor_false]
          rw [ih.1, rcons, inside_range hle, hnone, Bool.false_or, hapart, Bool.xor_assoc]

theorem descending_findStart (procedure : Nat → Bool) (left : Nat) :
    (∀ i result, Descending i result →
        Descending (i + left + 1) (findStart procedure left i result))
      ∧ ∀ start i result, Descending start result → start < i →
        Descending (i + left + 1) (findEnd procedure left start i result) := by
  induction left with
  | zero =>
      refine ⟨fun i result h => h.mono (by omega), fun start i result h hlt => ?_⟩
      exact h.push (Nat.le_refl start) hlt (by omega)
  | succ left ih =>
      refine ⟨fun i result h => ?_, fun start i result h hlt => ?_⟩
      · rw [findStart]
        split
        · exact (ih.2 i (i + 1) result h (Nat.lt_succ_self i)).mono (by omega)
        · exact (ih.1 (i + 1) result (h.mono (Nat.le_succ i))).mono (by omega)
      · rw [findEnd]
        split
        · exact (ih.2 start (i + 1) result h (by omega)).mono (by omega)
        · have hpush : Descending (i + 1) (rcons start i result) :=
            h.push (Nat.le_refl start) hlt (Nat.lt_succ_self i)
          exact (ih.1 (i + 1) _ hpush).mono (by omega)

theorem inside_lowToInversionList :
    inside (lowToInversionList low) c = (decide (c < lowLimit low) && lowRef low c) := by
  rw [lowToInversionList, (inside_findStart (lowRef low) (lowLimit low)).1]
  simp

theorem descending_lowToInversionList : Descending (lowLimit low + 1) (lowToInversionList low) := by
  have h := (descending_findStart (lowRef low) (lowLimit low)).1 0 [] .nil
  rwa [Nat.zero_add] at h

/-! ## The high bytevector -/

/-- The three bytes of a boundary. -/
def cpBytes (cp : Nat) : Bytevector :=
  [UInt8.ofNat (cp &&& 0xFF), UInt8.ofNat ((cp >>> 8) &&& 0xFF), UInt8.ofNat (cp >>> 16)]

/-- The bytes of all boundaries. -/
def ilistBytes (ilist : List Nat) : Bytevector := ilist.flatMap cpBytes

theorem length_ilistBytes (ilist : List Nat) :
    (ilistBytes ilist).length = ilist.length * 3 := by
  induction ilist with
  | nil => rfl
  | cons cp ilist ih =>
      rw [ilistBytes, flatMap_cons, length_append, ← ilistBytes, length_cons,
        cpBytes, length_cons, length_cons, length_cons, length_nil]
      omega

@[simp] theorem highLength_ilistBytes (ilist : List Nat) :
    highLength (ilistBytes ilist) = ilist.length := by
  rw [highLength, length_ilistBytes, highBytesPerCp]
  omega

theorem highSet_append {before rest : Bytevector} {i cp : Nat} {b0 b1 b2 : UInt8}
    (hi : before.length = i * 3) :
    highSet (before ++ b0 :: b1 :: b2 :: rest) i cp = before ++ cpBytes cp ++ rest := by
  simp only [highSet, bytevectorU8Set, highBytesPerCp, ← hi, cpBytes]
  simp

theorem setHigh_eq {before rest : Bytevector} {i : Nat} (hi : before.length = i * 3)
    (hrest : rest.length = ilist.length * 3) :
    setHigh (before ++ rest) i ilist = before ++ ilistBytes ilist := by
  induction ilist generalizing before rest i with
  | nil =>
      have hnil : rest = [] := length_eq_zero_iff.mp (by simpa using hrest)
      rw [hnil]
      rfl
  | cons cp ilist ih =>
      match rest with
      | [] | [_] | [_, _] =>
          simp only [length_cons, length_nil] at hrest
          omega
      | b0 :: b1 :: b2 :: rest =>
          have hi' : (before ++ cpBytes cp).length = (i + 1) * 3 := by
            rw [length_append, cpBytes, length_cons, length_cons,
              length_cons, length_nil]
            omega
          rw [setHigh, highSet_append hi, ih hi' (by simpa [Nat.add_mul] using hrest)]
          simp [ilistBytes]

theorem inversionListToHigh_eq (ilist : List Nat) (limit : Nat) :
    inversionListToHigh ilist limit = ilistBytes (skipLow limit ilist) := by
  have h := @setHigh_eq (skipLow limit ilist) [] (makeHigh (skipLow limit ilist).length) 0 rfl
    (by rw [makeHigh, allocateBytevector, length_replicate, highBytesPerCp])
  exact h

theorem highRef_cpBytes {cp : Nat} (h : cp < 2 ^ 24) (rest : Bytevector) :
    highRef (cpBytes cp ++ rest) 0 = cp := by
  have hand : ∀ n : Nat, n &&& 0xFF = n % 256 := fun n => Nat.and_two_pow_sub_one_eq_mod n 8
  simp only [highRef, bytevectorU8Ref, cpBytes, Nat.zero_mul, Nat.zero_add, cons_append,
    getD_cons_zero, getD_cons_succ, UInt8.toNat_ofNat', hand, Nat.shiftRight_eq_div_pow,
    Nat.shiftLeft_eq]
  omega

theorem highRef_succ (cp : Nat) (rest : Bytevector) (i : Nat) :
    highRef (cpBytes cp ++ rest) (i + 1) = highRef rest i := by
  have hi : (i + 1) * highBytesPerCp = i * highBytesPerCp + 1 + 1 + 1 := by
    rw [highBytesPerCp]
    omega
  have hskip : ∀ j, bytevectorU8Ref (cpBytes cp ++ rest) (j + 1 + 1 + 1) = bytevectorU8Ref rest j :=
    fun j => rfl
  rw [highRef, hi, hskip]
  rfl

theorem highRef_ilistBytes (h : ∀ b ∈ ilist, b < 2 ^ 24) {i b : Nat} (hb : ilist[i]? = some b) :
    highRef (ilistBytes ilist) i = b := by
  induction ilist generalizing i with
  | nil => simp at hb
  | cons cp ilist ih =>
      rw [ilistBytes, flatMap_cons]
      cases i with
      | zero =>
          cases hb
          exact highRef_cpBytes (h b mem_cons_self) _
      | succ i =>
          rw [highRef_succ]
          exact ih (fun b' hb' => h b' (mem_cons_of_mem cp hb')) hb

theorem highToInversionListLoop_eq (h : ∀ b ∈ ilist, b < 2 ^ 24) {left i : Nat}
    (hleft : i + left = ilist.length) :
    highToInversionListLoop (ilistBytes ilist) left i result
      = (ilist.drop i).reverse ++ result := by
  induction left generalizing i result with
  | zero => rw [drop_of_length_le (by omega)]; rfl
  | succ left ih =>
      have hi : i < ilist.length := by omega
      rw [highToInversionListLoop, ih (by omega),
        highRef_ilistBytes h (List.getElem?_eq_getElem hi), drop_eq_getElem_cons hi,
        reverse_cons, append_assoc]
      rfl

theorem skipLow_spec {bound : Nat} (h : Canonical bound ilist) :
    Canonical bound (skipLow limit ilist) ∧ (∀ b ∈ skipLow limit ilist, limit ≤ b)
      ∧ ∀ c, limit ≤ c → (Covers (skipLow limit ilist) c ↔ Covers ilist c) := by
  fun_induction skipLow limit ilist with
  | case1 start stop ilist hstop ih =>
      obtain ⟨hcanonical, hle, hcovers⟩ := ih h.tail
      refine ⟨hcanonical, hle, fun c hc => ?_⟩
      rw [hcovers c hc]
      exact (or_iff_right (by omega)).symm
  | case2 start stop ilist hstop hstart =>
      obtain ⟨-, hrest⟩ := pairwise_cons.mp h.increasing
      obtain ⟨hb, -⟩ := pairwise_cons.mp hrest
      have hlt : ∀ b ∈ stop :: ilist, limit < b := fun b hb' => by
        rcases mem_cons.mp hb' with rfl | hb'
        · omega
        · have := hb b hb'
          omega
      refine ⟨⟨pairwise_cons.mpr ⟨hlt, hrest⟩, h.even, fun b hb' => ?_⟩, fun b hb' => ?_,
        fun c hc => ?_⟩
      · rcases mem_cons.mp hb' with rfl | hb'
        · have := h.bounded stop (by simp)
          omega
        · exact h.bounded b (mem_cons_of_mem start hb')
      · rcases mem_cons.mp hb' with rfl | hb'
        · exact Nat.le_refl b
        · exact (hlt b hb').le
      · exact or_congr_left ⟨fun hrange => by omega, fun hrange => by omega⟩
  | case3 start stop ilist hstop hstart =>
      refine ⟨h, fun b hb => ?_, fun c _ => Iff.rfl⟩
      rcases mem_cons.mp hb with rfl | hb
      · omega
      · have := (pairwise_cons.mp h.increasing).1 b hb
        omega
  | case4 ilist hne =>
      refine ⟨.nil, fun b hb => absurd hb not_mem_nil, fun c _ => ?_⟩
      rcases ilist with _ | ⟨start, _ | ⟨stop, ilist⟩⟩
      · simp [Covers]
      · simp [Covers]
      · exact (hne start stop ilist rfl).elim

/-! ## The two bytevectors together -/

theorem highToInversionList_eq (h : ∀ b ∈ ilist, b < 2 ^ 24) :
    highToInversionList (ilistBytes ilist) result
      = if ilist ≠ [] ∧ ilist.head? = result.head? then ilist.tail.reverse ++ result.tail
        else ilist.reverse ++ result := by
  unfold highToInversionList
  dsimp only
  rw [highLength_ilistBytes]
  cases ilist with
  | nil => cases result <;> rfl
  | cons b ilist =>
      have hfirst : highRef (ilistBytes (b :: ilist)) 0 = b := highRef_ilistBytes h rfl
      have hall := @highToInversionListLoop_eq (b :: ilist) result h _ 0 (Nat.zero_add _)
      cases result with
      | nil =>
          rw [hall]
          simp
      | cons stop rest =>
          have htail := @highToInversionListLoop_eq (b :: ilist) rest h ((b :: ilist).length - 1) 1
            (by simp only [length_cons]; omega)
          dsimp only
          rw [hfirst, hall, htail]
          simp

theorem inside_highToInversionList (h : ∀ b ∈ ilist, b < 2 ^ 24) :
    inside (highToInversionList (ilistBytes ilist) result) c
      = Bool.xor (inside ilist c) (inside result c) := by
  rw [highToInversionList_eq h]
  split
  · -- the boundary that ends the low part and begins the high part is in neither
    rename_i hmerge
    obtain ⟨hne, hhead⟩ := hmerge
    match ilist, result with
    | b :: ilist, stop :: result =>
        cases hhead
        simp only [tail_cons, inside_append, inside_reverse, inside_cons]
        cases decide (b ≤ c) <;> simp
  · rw [inside_append, inside_reverse]

theorem canonical_highToInversionList {bound : Nat} (h : Canonical bound ilist)
    (hbound : bound < 2 ^ 24) (hresult : Descending (limit + 1) result)
    (hlimit : ∀ b ∈ ilist, limit ≤ b) :
    Canonical (max bound limit) (highToInversionList (ilistBytes ilist) result).reverse := by
  have hlt : ∀ b ∈ ilist, b < 2 ^ 24 := fun b hb => (h.bounded b hb).trans_lt hbound
  rw [highToInversionList_eq hlt]
  split
  · rename_i hmerge
    obtain ⟨hne, hhead⟩ := hmerge
    match ilist, result with
    | b :: ilist, stop :: result =>
        cases hhead
        obtain ⟨hb, hilist⟩ := pairwise_cons.mp h.increasing
        obtain ⟨hresult', hdecreasing⟩ := pairwise_cons.mp hresult.decreasing
        have heven := h.even
        have heven' := hresult.even
        simp only [length_cons, tail_cons] at heven heven' ⊢
        refine ⟨?_, ?_, fun b' hb' => ?_⟩
        · rw [reverse_append, reverse_reverse, pairwise_append]
          exact ⟨pairwise_reverse.mpr hdecreasing, hilist, fun a ha a' ha' =>
            (hresult' a (mem_reverse.mp ha)).trans (hb a' ha')⟩
        · simp only [length_reverse, length_append]
          omega
        · rcases mem_append.mp (mem_reverse.mp hb') with hb' | hb'
          · have := h.bounded b' (mem_cons_of_mem b (mem_reverse.mp hb'))
            omega
          · have := hresult.bounded b' (mem_cons_of_mem b hb')
            omega
  · rename_i hmerge
    refine ⟨?_, ?_, fun b' hb' => ?_⟩
    · rw [reverse_append, reverse_reverse, pairwise_append]
      refine ⟨pairwise_reverse.mpr hresult.decreasing, h.increasing, fun a ha a' ha' => ?_⟩
      -- the last of the low boundaries is not the first of the high ones
      have hle := hresult.bounded a (mem_reverse.mp ha)
      have hle' := hlimit a' ha'
      refine Nat.lt_of_le_of_ne (by omega) fun heq => hmerge ⟨ne_nil_of_mem ha', ?_⟩
      subst heq
      match ilist, result with
      | b :: ilist, stop :: result =>
          have hstop := hresult.bounded stop mem_cons_self
          have hb := hlimit b mem_cons_self
          have hstop' : a ≤ stop := by
            rcases mem_cons.mp (mem_reverse.mp ha) with rfl | ha
            · exact Nat.le_refl a
            · exact ((pairwise_cons.mp hresult.decreasing).1 a ha).le
          have hb' : b ≤ a := by
            rcases mem_cons.mp ha' with rfl | ha'
            · exact Nat.le_refl a
            · exact ((pairwise_cons.mp h.increasing).1 a ha').le
          exact congrArg some (by omega)
    · have heven := h.even
      have heven' := hresult.even
      simp only [length_reverse, length_append]
      omega
    · rcases mem_append.mp (mem_reverse.mp hb') with hb' | hb'
      · have := h.bounded b' (mem_reverse.mp hb')
        omega
      · have := hresult.bounded b' hb'
        omega

theorem charCodeLimit_lt : charCodeLimit < 2 ^ 24 := by decide

theorem bytesToInversionList_eq (h : Canonical charCodeLimit ilist) (hlimit : limit % 8 = 0) :
    bytesToInversionList (inversionListToLow ilist limit) (inversionListToHigh ilist limit)
      = ilist := by
  obtain ⟨hskip, hle, hcovers⟩ := @skipLow_spec ilist limit _ h
  have hlt : ∀ b ∈ skipLow limit ilist, b < 2 ^ 24 := fun b hb =>
    (hskip.bounded b hb).trans_lt charCodeLimit_lt
  have hlow := @descending_lowToInversionList (inversionListToLow ilist limit)
  rw [lowLimit_inversionListToLow hlimit] at hlow
  rw [inversionListToHigh_eq]
  have hread := canonical_highToInversionList hskip charCodeLimit_lt hlow hle
  have hmono : Canonical (max charCodeLimit limit) ilist :=
    ⟨h.increasing, h.even, fun b hb => (h.bounded b hb).trans (Nat.le_max_left _ _)⟩
  refine hread.ext hmono fun c _ => ?_
  rw [inside_reverse, inside_highToInversionList hlt, inside_lowToInversionList,
    lowLimit_inversionListToLow hlimit]
  by_cases hc : c < limit
  · rw [inside_of_lt fun b hb => Nat.lt_of_lt_of_le hc (hle b hb), decide_eq_true hc,
      Bool.false_xor]
    exact Bool.eq_iff_iff.mpr
      ((lowRef_inversionListToLow hlimit h.increasing hc).trans h.covers_iff)
  · rw [decide_eq_false hc, Bool.false_and, Bool.xor_false]
    exact Bool.eq_iff_iff.mpr
      (hskip.covers_iff.symm.trans ((hcovers c (by omega)).trans h.covers_iff))

/-! ## Finding a code point -/

theorem searchHigh_eq (h : Canonical charCodeLimit ilist) {fuel lower upper cp : Nat}
    (hlower : lower % 2 = 0) (hupper : upper % 2 = 0) (hle : lower ≤ upper)
    (hlength : upper ≤ ilist.length) (hfuel : upper ≤ lower + 2 * fuel)
    (hbelow : ∀ i b, i < lower → ilist[i]? = some b → b ≤ cp)
    (habove : ∀ i b, upper ≤ i → ilist[i]? = some b → cp < b) :
    searchHigh (ilistBytes ilist) cp fuel lower upper = inside ilist cp := by
  have hlt : ∀ b ∈ ilist, b < 2 ^ 24 := fun b hb => (h.bounded b hb).trans_lt charCodeLimit_lt
  -- an increasing list, read at two indices
  have hmono : ∀ {i j b b' : Nat}, i ≤ j → ilist[i]? = some b → ilist[j]? = some b' → b ≤ b' := by
    intro i j b b' hij hi hj
    obtain ⟨hi', rfl⟩ := List.getElem?_eq_some_iff.mp hi
    obtain ⟨hj', rfl⟩ := List.getElem?_eq_some_iff.mp hj
    rcases Nat.eq_or_lt_of_le hij with rfl | hij
    · exact Nat.le_refl _
    · exact (pairwise_iff_getElem.mp h.increasing i j hi' hj' hij).le
  induction fuel generalizing lower upper with
  | zero =>
      have hsplit := inside_split hbelow (fun i b hi => habove i b (by omega)) (hle.trans hlength)
      rw [hsplit, hlower]
      rfl
  | succ fuel ih =>
      rw [searchHigh]
      split
      · have hi : 2 * ((lower + upper) / 4) < ilist.length := by omega
        have hi' : 2 * ((lower + upper) / 4) + 1 < ilist.length := by omega
        generalize hindex : 2 * ((lower + upper) / 4) = index at hi hi'
        have hget := List.getElem?_eq_getElem hi
        have hget' := List.getElem?_eq_getElem hi'
        dsimp only
        rw [highRef_ilistBytes hlt hget, highRef_ilistBytes hlt hget']
        split
        · rename_i hcp
          exact ih hlower (by omega) (by omega) hi.le (by omega) hbelow fun i b hle hb =>
            hcp.trans_le (hmono hle hget hb)
        · split
          · rename_i hcp'
            refine ih (by omega) hupper (by omega) hlength (by omega) (fun i b hlt hb => ?_) habove
            exact (hmono (by omega) hb hget').trans hcp'
          · have hsplit := @inside_split ilist cp (index + 1)
              (fun i b hlt hb => (hmono (by omega) hb hget).trans (by omega))
              (fun i b hle hb => Nat.lt_of_lt_of_le (by omega) (hmono hle hget' hb)) (by omega)
            rw [hsplit, eq_comm, decide_eq_true_eq]
            omega
      · have hsplit := inside_split hbelow (fun i b hi => habove i b (by omega)) (hle.trans hlength)
        rw [hsplit, hlower]
        rfl

theorem codePointInBytes_eq (h : Canonical charCodeLimit ilist) (hlimit : limit % 8 = 0)
    (cp : Nat) :
    codePointInBytes cp (inversionListToLow ilist limit) (inversionListToHigh ilist limit)
      = inside ilist cp := by
  obtain ⟨hskip, hle, hcovers⟩ := @skipLow_spec ilist limit _ h
  rw [codePointInBytes, lowLimit_inversionListToLow hlimit]
  split
  · rename_i hcp
    exact Bool.eq_iff_iff.mpr
      ((lowRef_inversionListToLow hlimit h.increasing hcp).trans h.covers_iff)
  · rw [inversionListToHigh_eq, highLength_ilistBytes, searchHigh_eq hskip rfl hskip.even
      (Nat.zero_le _) (Nat.le_refl _) (by omega) (fun i b hi => nomatch hi) fun i b hi hb => ?_]
    · exact Bool.eq_iff_iff.mpr
        (hskip.covers_iff.symm.trans ((hcovers cp (by omega)).trans h.covers_iff))
    · rw [List.getElem?_eq_none hi] at hb
      cases hb

theorem chooseLowLimit_mod (ilist : List Nat) : chooseLowLimit ilist % 8 = 0 := by
  unfold chooseLowLimit
  have hloop : ∀ maxLowBytes fuel lowBytes best total,
      chooseLowLimitLoop ilist maxLowBytes fuel lowBytes best total % 8 = 0 := by
    intro maxLowBytes fuel lowBytes best total
    fun_induction chooseLowLimitLoop ilist maxLowBytes fuel lowBytes best total with
    | case1 | case4 => exact Nat.mul_mod_left _ _
    | case2 _ _ _ _ _ _ _ ih | case3 _ _ _ _ _ _ _ ih => exact ih
  exact hloop _ _ _ _ _

end MitScheme.Chrset
