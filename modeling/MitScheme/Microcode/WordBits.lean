import MitScheme.Lib.BitCounts
import MitScheme.Microcode.Word

/-!
# Counting the bits of a word

`bits.h`, at the type `unsigned long`: the number of one bits, by adding up neighbouring fields; the
length, by setting all bits below the highest and counting them; and the place of the lowest one bit.
The macros work for any type whose number of bits is below 256 and a power of two.
-/

namespace MitScheme

open BitCounts

/-- `CHAR_BIT * (sizeof (unsigned long))`, with a power of two for the number of bytes. -/
def Word.ByteSized (w : Word) : Prop := ∃ k, k ≤ 4 ∧ w.objectLength = 8 * 2 ^ k

theorem w64_byteSized : w64.ByteSized := ⟨3, by decide, by decide⟩

variable (w : Word)

/-- `~ ((unsigned long) 0)`. -/
def Word.ulongMax : Nat := 2 ^ w.objectLength - 1

/-- The loop of `DEFINE_BIT_COUNT`. As `i` doubles, it ends in fewer rounds than a word has bits. -/
def bitCountLoop : Nat → Nat → Nat → Nat
  | 0, _, x => x
  | fuel + 1, i, x =>
      if i < w.objectLength then
        bitCountLoop fuel (i <<< 1) ((x + (x >>> i)) % 2 ^ w.objectLength)
      else x

def ulongBitCount (x : Nat) : Nat :=
  let twoBitMask := w.ulongMax / (1 + (1 <<< 1))
  let fourBitMask := w.ulongMax / (1 + (1 <<< 2))
  let eightBitMask := w.ulongMax / (1 + (1 <<< 4))
  let finalMask := (w.objectLength <<< 1) - 1
  let x := x - ((x >>> 1) &&& twoBitMask)
  let x := (((x >>> 2) &&& fourBitMask) + (x &&& fourBitMask)) % 2 ^ w.objectLength
  let x := (((x >>> 4) + x) % 2 ^ w.objectLength) &&& eightBitMask
  let x := bitCountLoop w w.objectLength 8 x
  x &&& finalMask

/-- One of the unrolled steps of `DEFINE_LENGTH_IN_BITS`. -/
def smearStep (i x : Nat) : Nat := if i < w.objectLength then x ||| (x >>> i) else x

/-- The loop at the end of `DEFINE_LENGTH_IN_BITS`. -/
def smearLoop : Nat → Nat → Nat → Nat
  | 0, _, x => x
  | fuel + 1, i, x =>
      if i < w.objectLength then smearLoop fuel (i <<< 1) (x ||| (x >>> i)) else x

def ulongLengthInBits (x : Nat) : Nat :=
  let x := smearStep w 1 x
  let x := smearStep w 2 x
  let x := smearStep w 4 x
  let x := smearStep w 8 x
  let x := smearStep w 0x10 x
  let x := smearStep w 0x20 x
  ulongBitCount w (smearLoop w w.objectLength 0x40 x)

def ulongFirstSetBit (x : Nat) : Int :=
  if x = 0 then -1 else (ulongLengthInBits w ((x ^^^ (x - 1)) >>> 1) : Nat)

variable {w}

/-! ## The number of one bits -/

/-- The counts of the bytes of a word. -/
def byteCount (x j : Nat) : Nat := onesCount (x / 2 ^ (8 * j) % 2 ^ 8)

theorem byteCount_le (x j : Nat) : byteCount x j ≤ 8 :=
  onesCount_le (Nat.mod_lt _ (by decide))

theorem byteCount_of_le {x k j : Nat} (hx : x < 2 ^ (8 * k)) (hj : k ≤ j) : byteCount x j = 0 := by
  have hlt : x < 2 ^ (8 * j) := hx.trans_le (Nat.pow_le_pow_right (by decide) (by omega))
  rw [byteCount, Nat.div_eq_of_lt hlt, Nat.zero_mod, onesCount_zero]

theorem window_byteCount_le {k n : Nat} (hk : k ≤ 4) (hn : n ≤ 2 ^ k) (x j : Nat) :
    window (byteCount x) n j ≤ 8 * 2 ^ k ∧ 8 * 2 ^ k ≤ 128 := by
  have hle := window_le (byteCount_le x) n j
  have hpow : 2 ^ k ≤ 2 ^ 4 := Nat.pow_le_pow_right (by decide) hk
  omega

/-- **The loop of `DEFINE_BIT_COUNT`**, from sums of `2 ^ t` bytes on. -/
theorem bitCountLoop_eq {k : Nat} (hk : k ≤ 4) (hw : w.objectLength = 8 * 2 ^ k) {x : Nat}
    (hx : x < 2 ^ w.objectLength) :
    ∀ {fuel t : Nat}, t ≤ k → k - t ≤ fuel →
      bitCountLoop w fuel (8 * 2 ^ t) (row 8 (2 ^ k) (window (byteCount x) (2 ^ t)))
        = row 8 (2 ^ k) (window (byteCount x) (2 ^ k))
  | 0, t, ht, hfuel => by
      obtain rfl : t = k := by omega
      rfl
  | fuel + 1, t, ht, hfuel => by
      rw [bitCountLoop]
      rcases Nat.eq_or_lt_of_le ht with rfl | hlt
      · rw [if_neg (by omega)]
      · have hpow : 2 ^ t < 2 ^ k := Nat.pow_lt_pow_right (by decide) hlt
        have hdouble : 2 * 2 ^ t = 2 ^ (t + 1) := by omega
        have hsmall : ∀ s, s ≤ k → ∀ j, window (byteCount x) (2 ^ s) j < 2 ^ 8 := by
          intro s hs j
          have := window_byteCount_le hk (Nat.pow_le_pow_right (by decide) hs) x j
          omega
        have hfold := fold_window (m := 2 ^ k) (hsmall t ht) fun j hj =>
          byteCount_of_le (by rw [← hw]; exact hx) hj
        have hrow := row_lt (2 ^ k) (hsmall (t + 1) hlt)
        rw [if_pos (by omega), hfold, hdouble, hw, Nat.mod_eq_of_lt hrow, Nat.shiftLeft_eq,
          Nat.mul_assoc, Nat.mul_comm (2 ^ t), hdouble]
        exact bitCountLoop_eq hk hw hx hlt (by omega)

theorem ulongMax_div {g m : Nat} (h : w.objectLength = 2 * g * m) :
    w.ulongMax / (1 + (1 <<< g)) = pairMask g m := by
  rw [Word.ulongMax, h, Nat.one_shiftLeft, pairMask_eq]

theorem byteCounts_eq {k : Nat} (hw : w.objectLength = 8 * 2 ^ k) {x : Nat}
    (hx : x < 2 ^ w.objectLength) :
    let x₁ := x - ((x >>> 1) &&& pairMask 1 (2 * (2 * 2 ^ k)))
    let x₂ := (((x₁ >>> 2) &&& pairMask 2 (2 * 2 ^ k)) + (x₁ &&& pairMask 2 (2 * 2 ^ k)))
      % 2 ^ w.objectLength
    (((x₂ >>> 4) + x₂) % 2 ^ w.objectLength) &&& pairMask 4 (2 ^ k)
      = row 8 (2 ^ k) (window (byteCount x) 1) := by
  have hone : counts 1 (2 * (2 * (2 * 2 ^ k))) x = x := counts_one (by
    rw [show 2 * (2 * (2 * 2 ^ k)) = w.objectLength by omega]
    exact hx)
  have htwo : x - ((x >>> 1) &&& pairMask 1 (2 * (2 * 2 ^ k))) = counts 2 (2 * (2 * 2 ^ k)) x := by
    obtain ⟨hsplit, hsum⟩ := counts_and 1 (2 * (2 * 2 ^ k)) x
    rw [hone] at hsplit hsum
    rw [← hsum]
    omega
  have hfour : ((counts 2 (2 * (2 * 2 ^ k)) x >>> 2) &&& pairMask 2 (2 * 2 ^ k))
      + (counts 2 (2 * (2 * 2 ^ k)) x &&& pairMask 2 (2 * 2 ^ k)) = counts 4 (2 * 2 ^ k) x :=
    (counts_and 2 (2 * 2 ^ k) x).2
  have hlt4 : counts 4 (2 * 2 ^ k) x < 2 ^ w.objectLength := by
    have := counts_lt 4 (2 * 2 ^ k) x
    rwa [show 4 * (2 * 2 ^ k) = w.objectLength by omega] at this
  obtain ⟨hlt8, height⟩ := counts_add_and (g := 4) (by decide) (2 ^ k) x
  rw [show 2 * 4 * 2 ^ k = w.objectLength by omega] at hlt8
  dsimp only
  rw [htwo, hfour, Nat.mod_eq_of_lt hlt4, Nat.mod_eq_of_lt hlt8, height, counts_eq_row]
  refine congrArg (row 8 (2 ^ k)) (funext fun j => ?_)
  simp [window, byteCount]

theorem ulongBitCount_eq (hw : w.ByteSized) {x : Nat} (hx : x < 2 ^ w.objectLength) :
    ulongBitCount w x = onesCount x := by
  obtain ⟨k, hk, hlen⟩ := hw
  have hpos := Nat.two_pow_pos k
  have hbytes := byteCounts_eq hlen hx
  have hloop := @bitCountLoop_eq w k hk hlen x hx w.objectLength 0 (Nat.zero_le k) (by
    omega)
  have hmask : (w.objectLength <<< 1) - 1 = 2 ^ (k + 4) - 1 := by
    rw [Nat.pow_add]
    omega
  have hall : window (byteCount x) (2 ^ k) 0 = onesCount x := by
    have := window_counts 8 (2 ^ k) x
    rwa [← hlen, Nat.mod_eq_of_lt hx] at this
  have hle : onesCount x ≤ 8 * 2 ^ k := hlen ▸ onesCount_le hx
  unfold ulongBitCount
  rw [ulongMax_div (g := 1) (m := 2 * (2 * 2 ^ k)) (by omega),
    ulongMax_div (g := 2) (m := 2 * 2 ^ k) (by omega),
    ulongMax_div (g := 4) (m := 2 ^ k) (by omega)]
  dsimp only at hbytes ⊢
  rw [hbytes]
  refine (congrArg (· &&& _) hloop).trans ?_
  rw [hmask, Nat.and_two_pow_sub_one_eq_mod, row_mod hpos (by omega), hall,
    Nat.mod_eq_of_lt (by omega)]

theorem smearStep_smeared {x y n : Nat} (hx : x < 2 ^ w.objectLength) (h : Smeared x y n) :
    Smeared x (smearStep w n y) (2 * n) := by
  unfold smearStep
  split
  · exact h.step
  · exact h.wide hx (by omega)

/-- **The loop of `DEFINE_LENGTH_IN_BITS`** ends past the width of a word. -/
theorem smearLoop_eq {x : Nat} (hx : x < 2 ^ w.objectLength) :
    ∀ {fuel n y : Nat}, 0 < n → w.objectLength ≤ n + fuel → Smeared x y n →
      smearLoop w fuel n y = 2 ^ Nat.size x - 1
  | 0, n, y, _, hfuel, h => h.eq (hx.trans_le (Nat.pow_le_pow_right (by decide) hfuel))
  | fuel + 1, n, y, hn, hfuel, h => by
      rw [smearLoop]
      split
      · exact smearLoop_eq hx (by omega) (by omega) h.step
      · rename_i hle
        exact h.eq (hx.trans_le (Nat.pow_le_pow_right (by decide) (Nat.le_of_not_lt hle)))

theorem ulongLengthInBits_eq (hw : w.ByteSized) {x : Nat} (hx : x < 2 ^ w.objectLength) :
    ulongLengthInBits w x = Nat.size x := by
  have h64 := smearStep_smeared hx (smearStep_smeared hx (smearStep_smeared hx
    (smearStep_smeared hx (smearStep_smeared hx (smearStep_smeared hx (smeared_one x))))))
  have hloop := @smearLoop_eq w x hx w.objectLength _ _ (by decide) (by omega) h64
  have hsize : 2 ^ Nat.size x ≤ 2 ^ w.objectLength :=
    Nat.pow_le_pow_right (by decide) (Nat.size_le.mpr hx)
  unfold ulongLengthInBits
  refine (congrArg (ulongBitCount w) hloop).trans ?_
  rw [ulongBitCount_eq hw (by omega), onesCount_two_pow_sub_one]

theorem ulongFirstSetBit_eq (hw : w.ByteSized) {e q : Nat}
    (hx : 2 ^ e * (2 * q + 1) < 2 ^ w.objectLength) :
    ulongFirstSetBit w (2 ^ e * (2 * q + 1)) = e := by
  have hpos := Nat.two_pow_pos e
  have hle : 2 ^ e ≤ 2 ^ e * (2 * q + 1) := Nat.le_mul_of_pos_right _ (by omega)
  rw [ulongFirstSetBit, if_neg (by omega), xor_pred_shiftRight, ulongLengthInBits_eq hw (by omega),
    size_two_pow_sub_one]

end MitScheme
