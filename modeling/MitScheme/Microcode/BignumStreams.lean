import MitScheme.Microcode.IntegerProof
import MitScheme.Microcode.WordBits

/-!
# Digit streams

`digit_stream_to_bignum` reads an integer from its digits in some radix, and
`bignum_to_digit_stream` writes one. Both work in place on an array of digits: the reader scales it
up and adds a digit, the writer scales it down and hands the remainder on.

The reader allocates before it reads, from the number of digits and the length of the radix. The
product of the two is an `unsigned int`.
-/

namespace MitScheme

open BitCounts DigitList Bignum
open Option (bind_eq_bind bind_none bind_some)

variable (w : Word)

/-- The carry loop of `bignum_destructive_add`. It has no end of its own, and would go on past the
digits. -/
def destructiveAddCarry : List Nat → Option (List Nat)
  | [] => none
  | d :: ds => do
      let digit ← w.nat (d + 1)
      if digit < w.radix then
        some (digit :: ds)
      else
        let ds ← destructiveAddCarry ds
        some ((digit - w.radix) :: ds)

def bignumDestructiveAdd (digits : List Nat) (n : Nat) : Option (List Nat) :=
  match digits with
  | [] => none
  | d :: ds => do
      let digit ← w.nat (d + n)
      if digit < w.radix then
        some (digit :: ds)
      else
        let ds ← destructiveAddCarry w ds
        some ((digit - w.radix) :: ds)

/-- The length `digit_stream_to_bignum` allocates. -/
def digitStreamLength (nDigits radix : Nat) : Nat :=
  w.bitsToDigits (nDigits * ulongLengthInBits w radix % 2 ^ 32)

/-- The loop of `digit_stream_to_bignum`, over what the producer has left. -/
def digitStreamLoop (radix : Nat) : List Nat → List Nat → Option (List Nat)
  | [], result => some result
  | digit :: stream, result => do
      let result ← bignumDestructiveScaleUp w result radix
      let result ← bignumDestructiveAdd w result digit
      digitStreamLoop radix stream result

/-- `digit_stream_to_bignum`, of the digits the producer gives. -/
def digitStreamToBignum (stream : List Nat) (radix : Nat) (negative : Bool) : Option Bignum := do
  guard (1 < radix ∧ radix ≤ w.radixRoot)
  match stream with
  | [] => some makeZero
  | [digit] => some (longToBignum w (if negative then -(digit : Int) else digit))
  | _ => do
      let length := digitStreamLength w stream.length radix
      let result ← digitStreamLoop w radix stream (List.replicate length 0)
      some (trim ⟨negative, result⟩)

/-- The loop of `bignum_to_digit_stream`, with what it hands to the consumer. -/
def digitStreamScan (radix : Nat) : Nat → List Nat → Nat → Option (List Nat)
  | _, _, 0 => some []
  | 0, _, _ + 1 => none
  | fuel + 1, digits, scan + 1 =>
      if digits.getD scan 0 = 0 then
        digitStreamScan radix fuel digits scan
      else do
        let (digits, digit) ← bignumDestructiveScaleDown w digits radix
        let stream ← digitStreamScan radix fuel digits (scan + 1)
        some (digit :: stream)

/-- `bignum_to_digit_stream`, with the digits it hands to the consumer. -/
def bignumToDigitStream (fuel : Nat) (x : Bignum) (radix : Nat) : Option (List Nat) := do
  guard (1 < radix ∧ radix ≤ w.radixRoot)
  if x.zeroP then some []
  else digitStreamScan w radix fuel x.digits x.length

/-- The integer a digit stream denotes, its most significant digit first. -/
def streamValue (radix : Nat) (stream : List Nat) : Nat := Nat.ofDigits radix stream.reverse

/-- The integer a digit stream denotes fits in the length allocated for it. -/
def StreamFits (radix : Nat) (stream : List Nat) : Prop :=
  stream.length ≤ 1 ∨
    0 < digitStreamLength w stream.length radix ∧
      streamValue radix stream < w.radix ^ digitStreamLength w stream.length radix

/-- What an operation in place leaves in an array of so many digits that should hold a number:
the number, if it fits. -/
def InPlace (length n : Nat) (result : Option (List Nat)) : Prop :=
  if n < w.radix ^ length then
    ∃ ds, result = some ds ∧ Below w.radix ds ∧ ds.length = length ∧ w.value ds = n
  else result = none

variable {w}

theorem InPlace.none {length n : Nat} {result : Option (List Nat)} (h : InPlace w length n result)
    (hn : w.radix ^ length ≤ n) : result = Option.none := by
  rwa [InPlace, if_neg (by omega)] at h

theorem InPlace.some {length n : Nat} {result : Option (List Nat)} (h : InPlace w length n result)
    (hn : n < w.radix ^ length) :
    ∃ ds, result = Option.some ds ∧ Below w.radix ds ∧ ds.length = length ∧ w.value ds = n := by
  rwa [InPlace, if_pos hn] at h

/-! ## Reading -/

theorem inPlace_cons {length n digit : Nat} {result : Option (List Nat)} (hd : digit < w.radix)
    (h : InPlace w length n result) :
    InPlace w (length + 1) (digit + w.radix * n)
      (result.bind fun ds => Option.some (digit :: ds)) := by
  have hpow : w.radix ^ (length + 1) = w.radix * w.radix ^ length := by
    rw [Nat.pow_succ, Nat.mul_comm]
  by_cases hn : n < w.radix ^ length
  · obtain ⟨ds, rfl, hds, hlen, hval⟩ := h.some hn
    have hlt : digit + w.radix * n < w.radix ^ (length + 1) := by
      have := add_mul_lt hd hn
      rw [hpow]
      rwa [Nat.mul_comm n, Nat.mul_comm (w.radix ^ length)] at this
    rw [InPlace, if_pos hlt]
    exact ⟨_, rfl, below_cons.mpr ⟨hd, hds⟩, by rw [List.length_cons, hlen],
      by rw [value_cons, hval]⟩
  · have hge : w.radix ^ (length + 1) ≤ w.radix * n := by
      rw [hpow]
      exact Nat.mul_le_mul_left _ (by omega)
    rw [InPlace, if_neg (by omega), h.none (by omega), bind_none]

variable {ds stream : List Nat} {radix : Nat} {negative : Bool}

theorem inPlace_value (h : Below w.radix ds) :
    InPlace w ds.length (w.value ds) (Option.some ds) := by
  rw [InPlace, if_pos (value_lt h)]
  exact ⟨ds, rfl, h, rfl, rfl⟩

theorem destructiveAddCarry_spec (h : Below w.radix ds) :
    InPlace w ds.length (w.value ds + 1) (destructiveAddCarry w ds) := by
  induction ds with
  | nil => simp [InPlace, destructiveAddCarry]
  | cons d ds ih =>
      rw [below_cons] at h
      rw [destructiveAddCarry, w.nat_eq_of_lt (by omega)]
      simp only [bind_eq_bind, bind_some]
      split
      · rename_i hlt
        have hcons := inPlace_value (below_cons.mpr ⟨hlt, h.2⟩)
        rwa [value_cons, show d + w.radix * w.value ds + 1
          = d + 1 + w.radix * w.value ds by ring]
      · -- only the largest digit passes the carry on
        have hd : d + 1 - w.radix = 0 := by omega
        have hcons := inPlace_cons w.radix_pos (ih h.2)
        rw [hd]
        rwa [value_cons, show d + w.radix * w.value ds + 1
          = 0 + w.radix * (w.value ds + 1) by rw [Nat.mul_add]; omega]

theorem bignumDestructiveAdd_spec {n : Nat} (h : Below w.radix ds) (hne : ds ≠ [])
    (hn : n < w.radix) : InPlace w ds.length (w.value ds + n) (bignumDestructiveAdd w ds n) := by
  cases ds with
  | nil => exact absurd rfl hne
  | cons d ds =>
      rw [below_cons] at h
      rw [bignumDestructiveAdd, w.nat_eq_of_lt (by omega)]
      simp only [bind_eq_bind, bind_some]
      split
      · rename_i hlt
        have hcons := inPlace_value (below_cons.mpr ⟨hlt, h.2⟩)
        rwa [value_cons, show d + w.radix * w.value ds + n
          = d + n + w.radix * w.value ds by ring]
      · have hcons := @inPlace_cons w _ _ (d + n - w.radix) _ (by omega)
          (destructiveAddCarry_spec h.2)
        rwa [value_cons, show d + w.radix * w.value ds + n
          = d + n - w.radix + w.radix * (w.value ds + 1) by rw [Nat.mul_add]; omega]

theorem bignumDestructiveScaleUp_spec (h : Below w.radix ds)
    (hr : 1 < radix) (hrr : radix < w.radixRoot) :
    InPlace w ds.length (radix * w.value ds) (bignumDestructiveScaleUp w ds radix) := by
  obtain ⟨rs, out, hscale, hrs, hlen, hval⟩ :=
    scaleUpDigits_spec hrr h (Nat.zero_lt_of_lt hrr)
  have hlt := value_lt hrs
  rw [hlen] at hlt
  rw [Nat.add_zero] at hval
  have hguard : bignumDestructiveScaleUp w ds radix = if out = 0 then some rs else none := by
    rw [bignumDestructiveScaleUp, hscale]
    by_cases hout : out = 0 <;> simp [guard, hr, hrr, hout]
  rw [hguard]
  rcases Nat.eq_zero_or_pos out with rfl | hout
  · rw [InPlace, if_pos (hval ▸ hlt)]
    exact ⟨rs, if_pos rfl, hrs, hlen, hval⟩
  · have : w.radix ^ ds.length * 1 ≤ w.radix ^ ds.length * out := Nat.mul_le_mul_left _ hout
    rw [InPlace, if_neg (by omega), if_neg hout.ne']

@[simp] theorem streamValue_nil : streamValue radix [] = 0 := rfl

theorem streamValue_cons {d : Nat} :
    streamValue radix (d :: stream) = d * radix ^ stream.length + streamValue radix stream := by
  unfold streamValue
  rw [List.reverse_cons, Nat.ofDigits_append, Nat.ofDigits_singleton, List.length_reverse]
  ring

theorem streamValue_lt (hr : 1 < radix)
    (h : Below radix stream) : streamValue radix stream < radix ^ stream.length := by
  have hrev : Below radix stream.reverse := fun d hd => h d (List.mem_reverse.mp hd)
  have hlt := hrev.ofDigits_lt hr
  rwa [List.length_reverse] at hlt

/-- **The loop of `digit_stream_to_bignum`**: what has been read, with the rest of the stream after
it, as long as it fits. -/
theorem digitStreamLoop_spec (hr : 1 < radix)
    (hrr : radix < w.radixRoot) (hs : Below radix stream) (hds : Below w.radix ds) (hne : ds ≠ []) :
    InPlace w ds.length (w.value ds * radix ^ stream.length + streamValue radix stream)
      (digitStreamLoop w radix stream ds) := by
  induction stream generalizing ds with
  | nil =>
      rw [streamValue_nil, List.length_nil, Nat.pow_zero, Nat.mul_one]
      exact inPlace_value hds
  | cons d stream ih =>
      rw [below_cons] at hs
      have hpos : 1 ≤ radix ^ stream.length := Nat.pow_pos (by omega)
      have htotal : w.value ds * radix ^ (d :: stream).length + streamValue radix (d :: stream)
          = (radix * w.value ds + d) * radix ^ stream.length + streamValue radix stream := by
        rw [streamValue_cons, List.length_cons]
        ring
      have hle : radix * w.value ds + d
          ≤ (radix * w.value ds + d) * radix ^ stream.length := Nat.le_mul_of_pos_right _ hpos
      have hdr : d < w.radix := by
        have := w.radixRoot_pos
        have : w.radixRoot * 1 ≤ w.radixRoot * w.radixRoot := Nat.mul_le_mul_left _ this
        rw [w.radix_eq]
        omega
      have hup := bignumDestructiveScaleUp_spec hds hr hrr
      rw [htotal, digitStreamLoop]
      by_cases hscale : radix * w.value ds < w.radix ^ ds.length
      · obtain ⟨rs, hrs, hbelow, hlen, hval⟩ := hup.some hscale
        have hrne : rs ≠ [] := by
          intro h
          rw [h] at hlen
          exact hne (List.length_eq_zero_iff.mp hlen.symm)
        have hadd := bignumDestructiveAdd_spec hbelow hrne hdr
        rw [hlen, hval] at hadd
        rw [hrs]
        simp only [bind_eq_bind, bind_some]
        by_cases hfit : radix * w.value ds + d < w.radix ^ ds.length
        · obtain ⟨ts, hts, htbelow, htlen, htval⟩ := hadd.some hfit
          have htne : ts ≠ [] := by
            intro h
            rw [h] at htlen
            exact hne (List.length_eq_zero_iff.mp htlen.symm)
          have hrest := ih hs.2 htbelow htne
          rw [htlen, htval] at hrest
          rwa [hts]
        · rw [hadd.none (by omega), bind_none, InPlace, if_neg (by omega)]
      · rw [hup.none (by omega), bind_eq_bind, bind_none, InPlace,
          if_neg (by omega)]

theorem digitStreamLoop_nil {d : Nat} : digitStreamLoop w radix (d :: stream) [] = none := by
  rw [digitStreamLoop]
  cases h : bignumDestructiveScaleUp w [] radix with
  | none => rfl
  | some rs =>
      have hrs : rs = [] := by
        rw [bignumDestructiveScaleUp] at h
        simp only [scaleUpDigits, bind_eq_bind, bind_some] at h
        simp_all [Option.bind_eq_some_iff]
      rw [hrs]
      rfl

theorem ofSign_zero : Bignum.ofSign w negative 0 = makeZero := by
  rw [ofSign_eq]
  simp [makeZero]

theorem digitStreamToBignum_short
    (hr : 1 < radix) (hrr : radix < w.radixRoot) (hs : Below radix stream) (h : stream.length ≤ 1) :
    digitStreamToBignum w stream radix negative
      = some (Bignum.ofSign w negative (streamValue radix stream)) := by
  unfold digitStreamToBignum
  simp only [guard, hr, hrr.le, and_self, if_true]
  match stream, hs, h with
  | [], _, _ =>
      rw [streamValue_nil, ofSign_zero]
      rfl
  | [d], hs, _ =>
      have hd : d < radix := hs d (by simp)
      have hroot : w.radixRoot ≤ w.radix := by
        rw [w.radix_eq]
        exact Nat.le_mul_of_pos_right _ w.radixRoot_pos
      have hlimit := w.longLimit_eq
      have hvalue : streamValue radix [d] = d := by
        rw [streamValue_cons, streamValue_nil, List.length_nil, Nat.pow_zero, Nat.mul_one,
          Nat.add_zero]
      change some (longToBignum w _) = _
      rw [longToBignum_eq (by split <;> omega) (by split <;> omega)]
      rfl

theorem digitStreamToBignum_long
    (hr : 1 < radix) (hrr : radix < w.radixRoot) (hs : Below radix stream) (h : 1 < stream.length) :
    digitStreamToBignum w stream radix negative
      = if 0 < digitStreamLength w stream.length radix
            ∧ streamValue radix stream < w.radix ^ digitStreamLength w stream.length radix then
          some (Bignum.ofSign w negative (streamValue radix stream))
        else none := by
  have hbind : digitStreamToBignum w stream radix negative
      = (digitStreamLoop w radix stream
          (List.replicate (digitStreamLength w stream.length radix) 0)).bind fun result =>
            some (trim ⟨negative, result⟩) := by
    unfold digitStreamToBignum
    simp only [guard, hr, hrr.le, and_self, if_true]
    match stream, h with
    | _ :: _ :: _, _ => rfl
  rw [hbind]
  generalize digitStreamLength w stream.length radix = length
  rcases Nat.eq_zero_or_pos length with rfl | hpos
  · match stream, h with
    | d :: e :: rest, _ =>
        rw [List.replicate_zero, digitStreamLoop_nil, bind_none,
          if_neg (fun h => absurd h.1 (by omega))]
  · have hne : List.replicate length 0 ≠ [] := by
      rw [Ne, List.replicate_eq_nil_iff]
      omega
    have hzero : w.value (List.replicate length 0) = 0 := Nat.ofDigits_replicate_zero
    have hloop := digitStreamLoop_spec hr hrr hs (below_replicate_zero w.radix_pos length) hne
    rw [List.length_replicate, hzero, Nat.zero_mul, Nat.zero_add] at hloop
    by_cases hlt : streamValue radix stream < w.radix ^ length
    · obtain ⟨rs, hrs, hbelow, hlen, hval⟩ := hloop.some hlt
      have hrsne : rs ≠ [] := by
        intro h
        rw [h, List.length_nil] at hlen
        omega
      rw [hrs, bind_some, trim_eq hbelow hrsne, hval, if_pos ⟨hpos, hlt⟩]
    · rw [hloop.none (by omega), bind_none, if_neg (fun h => hlt h.2)]

/-- **`digit_stream_to_bignum`**: the integer, if it fits in the length allocated for it. -/
theorem digitStreamToBignum_eq {radix : Nat} {stream : List Nat} {negative : Bool} (hr : 1 < radix)
    (hrr : radix < w.radixRoot) (hs : Below radix stream) (h : StreamFits w radix stream) :
    digitStreamToBignum w stream radix negative
      = some (Bignum.ofSign w negative (streamValue radix stream)) := by
  by_cases hlen : stream.length ≤ 1
  · exact digitStreamToBignum_short hr hrr hs hlen
  · rw [digitStreamToBignum_long hr hrr hs (by omega), if_pos (h.resolve_left hlen)]

theorem digitStreamToBignum_eq_none
    (hr : 1 < radix) (hrr : radix < w.radixRoot) (hs : Below radix stream)
    (h : ¬ StreamFits w radix stream) : digitStreamToBignum w stream radix negative = none := by
  rw [StreamFits, not_or] at h
  rw [digitStreamToBignum_long hr hrr hs (by omega), if_neg h.2]

theorem streamFits_of_lt (hw : w.ByteSized) (hr : 1 < radix)
    (hrr : radix < w.radixRoot) (hs : Below radix stream)
    (h : stream.length * Nat.size radix < 2 ^ 32) : StreamFits w radix stream := by
  have hbits : ulongLengthInBits w radix = Nat.size radix := by
    refine ulongLengthInBits_eq hw ?_
    have : w.radixRoot ≤ 2 ^ w.objectLength :=
      Nat.pow_le_pow_right (by decide) (by unfold Word.objectLength Word.digitLength; omega)
    omega
  have hsize : 0 < Nat.size radix := Nat.size_pos.mpr (by omega)
  have hlength : digitStreamLength w stream.length radix
      = w.bitsToDigits (stream.length * Nat.size radix) := by
    rw [digitStreamLength, hbits, Nat.mod_eq_of_lt h]
  have hd : 0 < w.digitLength := by
    have := w.le_half
    unfold Word.digitLength
    omega
  by_cases hlen : stream.length ≤ 1
  · exact Or.inl hlen
  · right
    rw [hlength]
    have hbitsPos : 0 < stream.length * Nat.size radix := Nat.mul_pos (by omega) hsize
    have hcover : stream.length * Nat.size radix
        ≤ w.digitLength * w.bitsToDigits (stream.length * Nat.size radix) := by
      have := Nat.div_add_mod (stream.length * Nat.size radix + (w.digitLength - 1)) w.digitLength
      have := Nat.mod_lt (stream.length * Nat.size radix + (w.digitLength - 1)) hd
      unfold Word.bitsToDigits
      omega
    constructor
    · refine Nat.pos_of_ne_zero ?_
      intro h0
      rw [h0] at hcover
      omega
    · calc streamValue radix stream < radix ^ stream.length := streamValue_lt hr hs
        _ ≤ (2 ^ Nat.size radix) ^ stream.length :=
            Nat.pow_le_pow_left (Nat.lt_size_self radix).le _
        _ = 2 ^ (stream.length * Nat.size radix) := by rw [← Nat.pow_mul, Nat.mul_comm]
        _ ≤ 2 ^ (w.digitLength * w.bitsToDigits (stream.length * Nat.size radix)) :=
            Nat.pow_le_pow_right (by decide) hcover
        _ = w.radix ^ w.bitsToDigits (stream.length * Nat.size radix) := by
            rw [Nat.pow_mul]
            rfl

/-! ## Writing -/

theorem getD_eq_value (h : Below w.radix ds) (i : Nat) :
    ds.getD i 0 = w.value ds / w.radix ^ i % w.radix := by
  induction ds generalizing i with
  | nil => simp
  | cons d ds ih =>
      rw [below_cons] at h
      rw [value_cons]
      cases i with
      | zero =>
          rw [List.getD_cons_zero, Nat.pow_zero, Nat.div_one, Nat.add_mul_mod_self_left,
            Nat.mod_eq_of_lt h.1]
      | succ i =>
          rw [List.getD_cons_succ, ih h.2, Nat.pow_succ, Nat.mul_comm (w.radix ^ i),
            ← Nat.div_div_eq_div_mul, Nat.add_mul_div_left _ _ w.radix_pos,
            Nat.div_eq_of_lt h.1, Nat.zero_add]

/-- **The loop of `bignum_to_digit_stream`**: the digits in the radix of what is left. It ends, as a
round makes the number smaller or leaves out a digit. -/
theorem digitStreamScan_spec (hr : 1 < radix) (hrr : radix < w.radixRoot)
    {fuel : Nat} {scan : Nat} (hds : Below w.radix ds)
    (hscan : w.value ds < w.radix ^ scan) (hfuel : w.value ds + scan ≤ fuel) :
    digitStreamScan w radix fuel ds scan = some (Nat.digits radix (w.value ds)) := by
  induction fuel generalizing ds scan with
  | zero =>
      obtain ⟨hvalue, rfl⟩ : w.value ds = 0 ∧ scan = 0 := by omega
      rw [hvalue, Nat.digits_zero]
      rfl
  | succ fuel ih =>
      cases scan with
      | zero =>
          rw [Nat.pow_zero, Nat.lt_one_iff] at hscan
          rw [hscan, Nat.digits_zero]
          rfl
      | succ scan =>
          have htop : w.value ds / w.radix ^ scan < w.radix := by
            rw [Nat.div_lt_iff_lt_mul (Nat.pow_pos w.radix_pos), Nat.mul_comm]
            exact hscan
          have hdigit := getD_eq_value hds scan
          rw [Nat.mod_eq_of_lt htop] at hdigit
          rw [digitStreamScan, hdigit]
          split
          · -- the leading digit is used up
            rename_i h0
            refine ih hds ?_ (by omega)
            rcases Nat.div_eq_zero_iff.mp h0 with h0 | h0
            · exact absurd h0 (Nat.pow_pos w.radix_pos).ne'
            · exact h0
          · rename_i h0
            have hpos : 0 < w.value ds := by
              refine Nat.pos_of_ne_zero ?_
              intro hzero
              rw [hzero, Nat.zero_div] at h0
              exact h0 rfl
            obtain ⟨qs, hqs, hbelow, -, hval⟩ := scaleDownDigits_spec (by omega) hrr hds
            have hless : w.value ds / radix < w.value ds := Nat.div_lt_self hpos hr
            have hrest := @ih qs (scan + 1) hbelow (by omega) (by omega)
            have hdown : bignumDestructiveScaleDown w ds radix = some (qs, w.value ds % radix) := by
              rw [bignumDestructiveScaleDown, hqs]
              simp [guard, hr, hrr]
            rw [hdown]
            simp only [bind_eq_bind, bind_some]
            rw [hrest, bind_some, hval, Nat.digits_def' hr hpos]

theorem natAbs_toInt (b : Bignum) : (b.toInt w).natAbs = w.value b.digits := by
  unfold Bignum.toInt
  split <;> simp

/-- **`bignum_to_digit_stream`**: the digits of the magnitude, the least significant first. -/
theorem bignumToDigitStream_eq (hr : 1 < radix) (hrr : radix < w.radixRoot)
    {b : Bignum} (hb : b.WellFormed w) {fuel : Nat} (hfuel : w.value b.digits + b.length ≤ fuel) :
    bignumToDigitStream w fuel b radix = some (Nat.digits radix (b.toInt w).natAbs) := by
  unfold bignumToDigitStream
  simp only [guard, hr, hrr.le, and_self, if_true, bind_eq_bind]
  rw [natAbs_toInt]
  split
  · rename_i h0
    have hlen : b.length = 0 := by simpa [Bignum.zeroP] using h0
    have hnil : b.digits = [] := List.length_eq_zero_iff.mp hlen
    rw [hnil]
    simp [Word.value]
  · exact digitStreamScan_spec hr hrr hb.below (value_lt hb.below) hfuel

/-! ## The two together -/

theorem streamValue_digits_reverse (radix n : Nat) :
    streamValue radix (Nat.digits radix n).reverse = n := by
  rw [streamValue, List.reverse_reverse, Nat.ofDigits_digits]

theorem digits_streamValue (hr : 1 < radix) (hs : Below radix stream) :
    Nat.digits radix (streamValue radix stream) = (stream.dropWhile (· == 0)).reverse := by
  have hrev : Below radix stream.reverse := fun d hd => hs d (List.mem_reverse.mp hd)
  rw [streamValue, ← rdropWhile_eq_digits hr hrev, List.rdropWhile, List.reverse_reverse]

theorem ofSign_toInt {b : Bignum} (hb : b.WellFormed w) :
    Bignum.ofSign w b.negative (b.toInt w).natAbs = b := by
  obtain ⟨negative, digits⟩ := b
  have hnumeral : digits = Nat.digits w.radix (w.value digits) :=
    eq_digits w.one_lt_radix hb.below hb.leading
  rw [natAbs_toInt, ofSign_eq]
  by_cases h0 : w.value digits = 0
  · have hnil : digits = [] := by
      rw [hnumeral]
      exact Nat.digits_eq_nil_iff_eq_zero.mpr h0
    have hsign := hb.zero hnil
    simp only at hsign
    rw [h0, Nat.digits_zero, hnil, hsign]
    rfl
  · rw [← hnumeral, decide_eq_true h0, Bool.true_and]

end MitScheme
