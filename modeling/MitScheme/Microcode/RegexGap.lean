import MitScheme.Microcode.Regex

/-!
# The gap of the buffer

Matching in a buffer with a gap, and matching in the same text without one. The two run in lockstep: each place in the
text has an address in either, and only some tests that are made right at the gap, and a copy of a register that spans
it, tell them apart.
-/

namespace MitScheme.Regex

open MitScheme.Runs Option
open Buffer (addressToIndex gapLength textEnd textStart)

/-! ## The text without a gap -/

/-- The same text, stored without the gap. -/
def Buffer.close (buffer : Buffer) : Buffer where
  translation := buffer.translation
  syntaxTable := buffer.syntaxTable
  text address := if address < buffer.gapStart then buffer.text address else buffer.text (address + buffer.gapLength)
  textStartIndex := buffer.textStartIndex
  textEndIndex := buffer.textEndIndex - buffer.gapLength
  gapStart := buffer.gapStart
  gapEnd := buffer.gapStart
  start_le := buffer.start_le
  gap_le := Nat.le_refl _
  le_end := by
    have := buffer.gap_le
    have := buffer.le_end
    unfold gapLength
    omega

def MatchRange.close (buffer : Buffer) (range : MatchRange) : MatchRange where
  start := buffer.addressToIndex range.start
  stop := buffer.addressToIndex range.stop

/-- The same variables: addresses in the text are changed, and the pattern is what it was. -/
def Config.close (buffer : Buffer) (c : Config) : Config where
  code := c.code
  patternPc := c.patternPc
  matchPc := buffer.addressToIndex c.matchPc
  stack := c.stack.map (Option.map (Prod.map id buffer.addressToIndex))
  registerStart r := (c.registerStart r).map buffer.addressToIndex
  registerEnd r := (c.registerEnd r).map buffer.addressToIndex

/-- The assumption of `re_match` on the range, whose ends are not within the gap. -/
structure MatchRange.Assumed (range : MatchRange) (buffer : Buffer) : Prop where
  le : range.start ≤ range.stop
  start_outside : range.start ≤ buffer.gapStart ∨ buffer.gapEnd ≤ range.start
  stop_outside : range.stop ≤ buffer.gapStart ∨ buffer.gapEnd ≤ range.stop
  assumption : ¬(buffer.gapStart < buffer.gapEnd ∧ range.start < range.stop ∧
    (range.start = buffer.gapStart ∨ range.stop = buffer.gapEnd))

/-- The step is not one that tells the gap: it does not copy a register that spans the gap, and it does not look for a
word bound, or a line end, where it would read the gap, or the other side of the gap from where the text ends. -/
def Config.Harmless (buffer : Buffer) (c : Config) : Prop :=
  buffer.gapStart < buffer.gapEnd →
    match fetch c.code c.patternPc with
    | some (.duplicate (some register)) =>
        ∀ start ∈ c.registerStart register, ∀ stop ∈ c.registerEnd register,
          ¬(start ≤ buffer.gapStart ∧ buffer.gapEnd < stop)
    | some .lineEnd => c.matchPc = buffer.gapStart → buffer.textEndIndex = buffer.gapEnd
    | some (.wordBound _) =>
        (c.matchPc = buffer.gapStart → buffer.textStartIndex ≠ buffer.gapStart ∧ buffer.textEndIndex = buffer.gapEnd) ∧
        (c.matchPc = buffer.gapEnd → buffer.textStartIndex ≠ buffer.gapStart ∧ buffer.textEndIndex ≠ buffer.gapEnd)
    | _ => True

section

variable {buffer : Buffer} {range : MatchRange}

/-- An address that matching is at: only when there is nothing to match may it be where the gap starts. -/
def Place (buffer : Buffer) (range : MatchRange) (address : Nat) : Prop :=
  address < buffer.gapStart ∨ buffer.gapEnd ≤ address ∨
    (address = buffer.gapStart ∧ range.start = buffer.gapStart ∧ range.stop = buffer.gapStart)

/-- An address where a register ends. -/
def EndPlace (buffer : Buffer) (address : Nat) : Prop := address ≤ buffer.gapStart ∨ buffer.gapEnd < address

/-- All addresses are places in the text. -/
structure Config.Placed (buffer : Buffer) (range : MatchRange) (c : Config) : Prop where
  matchPc : Place buffer range c.matchPc
  stack : ∀ patternPc matchPc, some (patternPc, matchPc) ∈ c.stack → Place buffer range matchPc
  registerStart : ∀ register, ∀ start ∈ c.registerStart register, Place buffer range start
  registerEnd : ∀ register, ∀ stop ∈ c.registerEnd register, EndPlace buffer stop

theorem Place.skipGap {address : Nat} (h : address ≤ buffer.gapStart ∨ Place buffer range address) :
    Place buffer range (buffer.skipGap address) := by
  unfold Buffer.skipGap Place at *
  split <;> omega

variable {address matchPc matchPc' stop : Nat} {c : Config}

theorem Place.outside (hrange : range.Assumed buffer) (h : Place buffer range address)
    (hstop : address < range.stop) : address < buffer.gapStart ∨ buffer.gapEnd ≤ address := by
  unfold Place at h
  omega

theorem Place.succ (hrange : range.Assumed buffer) (h : Place buffer range address)
    (hstop : address < range.stop) : Place buffer range (buffer.skipGap (address + 1)) := by
  refine Place.skipGap ?_
  have := h.outside hrange hstop
  unfold Place
  omega

theorem Place.start (hrange : range.Assumed buffer) : Place buffer range range.start := by
  obtain ⟨hle, hstart, hstop, hassumption⟩ := hrange
  unfold Place
  omega

/-! ## Reading the text -/

theorem addressToIndex_of_le (h : address ≤ buffer.gapStart) :
    buffer.addressToIndex address = address := if_neg (by omega)

theorem addressToIndex_of_ge (h : buffer.gapEnd ≤ address) :
    buffer.addressToIndex address = address - (buffer.gapEnd - buffer.gapStart) := by
  unfold addressToIndex gapLength
  split <;> omega

@[simp] theorem close_gapStart : buffer.close.gapStart = buffer.gapStart := rfl

@[simp] theorem close_gapEnd : buffer.close.gapEnd = buffer.gapStart := rfl

@[simp] theorem close_gapLength : buffer.close.gapLength = 0 := Nat.sub_self _

@[simp] theorem close_addressToIndex (address : Nat) : buffer.close.addressToIndex address = address := by
  simp [addressToIndex]

@[simp] theorem close_skipGap (address : Nat) : buffer.close.skipGap address = address := by
  unfold Buffer.skipGap
  split
  · next h => exact h.symm
  · rfl

@[simp] theorem close_translateChar (ascii : Byte) : buffer.close.translateChar ascii = buffer.translateChar ascii := rfl

@[simp] theorem close_wordConstituentP (ascii : Byte) :
    buffer.close.wordConstituentP ascii = buffer.wordConstituentP ascii := rfl

@[simp] theorem close_stop : (range.close buffer).stop = buffer.addressToIndex range.stop := rfl

theorem close_textStart : buffer.close.textStart = buffer.addressToIndex buffer.textStart := by
  have := buffer.gap_le
  unfold textStart
  change (if buffer.textStartIndex = buffer.gapStart then buffer.gapStart else buffer.textStartIndex) = _
  split
  · rw [addressToIndex_of_ge (Nat.le_refl _)]
    omega
  · rw [addressToIndex_of_le buffer.start_le]

theorem close_textEnd : buffer.close.textEnd = buffer.addressToIndex buffer.textEnd := by
  have := buffer.gap_le
  have := buffer.le_end
  have hlength : buffer.close.textEndIndex = buffer.textEndIndex - (buffer.gapEnd - buffer.gapStart) := rfl
  unfold textEnd
  rw [hlength, close_gapEnd, close_gapStart]
  by_cases hend : buffer.textEndIndex = buffer.gapEnd
  · rw [if_pos hend, if_pos (by omega), addressToIndex_of_le (Nat.le_refl _)]
  · rw [if_neg hend, if_neg (by omega), addressToIndex_of_ge buffer.le_end]

theorem close_text (h : address < buffer.gapStart ∨ buffer.gapEnd ≤ address) :
    buffer.close.text (buffer.addressToIndex address : Nat) = buffer.text address := by
  have := buffer.gap_le
  simp only [Buffer.close, gapLength]
  rcases h with h | h
  · rw [addressToIndex_of_le (Nat.le_of_lt h), if_pos (by omega)]
  · rw [addressToIndex_of_ge h, if_neg (by omega)]
    congr 1
    omega

theorem Place.ge_stop_iff (hrange : range.Assumed buffer) (h : Place buffer range address) :
    buffer.addressToIndex address ≥ buffer.addressToIndex range.stop ↔ address ≥ range.stop := by
  obtain ⟨hle, hstart, hstop, hassumption⟩ := hrange
  have := buffer.gap_le
  unfold Place at h
  unfold addressToIndex gapLength
  split <;> split <;> omega

theorem addressToIndex_skipGap (address : Nat) :
    buffer.addressToIndex (buffer.skipGap address) = buffer.addressToIndex address := by
  unfold Buffer.skipGap
  split
  · next h =>
      have := buffer.gap_le
      rw [addressToIndex_of_ge (Nat.le_refl _), addressToIndex_of_le (by omega)]
      omega
  · rfl

theorem addressToIndex_succ (h : address < buffer.gapStart ∨ buffer.gapEnd ≤ address) :
    buffer.addressToIndex (buffer.skipGap (address + 1)) = buffer.addressToIndex address + 1 := by
  rw [addressToIndex_skipGap]
  rcases h with h | h
  · rw [addressToIndex_of_le h, addressToIndex_of_le (Nat.le_of_lt h)]
  · rw [addressToIndex_of_ge h, addressToIndex_of_ge (by omega)]
    omega

theorem readMatchChar_close (hrange : range.Assumed buffer) (h : Place buffer range matchPc) :
    readMatchChar buffer.close (range.close buffer) (buffer.addressToIndex matchPc) =
      (readMatchChar buffer range matchPc).map (Prod.map id buffer.addressToIndex) := by
  unfold readMatchChar
  by_cases hstop : matchPc ≥ range.stop
  · rw [if_pos hstop, close_stop, if_pos ((h.ge_stop_iff hrange).mpr hstop)]
    rfl
  · have hout := h.outside hrange (by omega)
    rw [if_neg hstop, close_stop, if_neg fun hge => hstop ((h.ge_stop_iff hrange).mp hge)]
    simp only [close_translateChar, close_skipGap, close_text hout, map_some, Prod.map_apply, id_eq,
      addressToIndex_succ hout]

theorem readMatchChar_place {ascii : Byte} (hrange : range.Assumed buffer)
    (h : Place buffer range matchPc) (hread : readMatchChar buffer range matchPc = some (ascii, matchPc')) :
    Place buffer range matchPc' := by
  unfold readMatchChar at hread
  split at hread
  · cases hread
  · next hstop =>
      obtain ⟨-, rfl⟩ := Prod.mk.inj (Option.some.inj hread)
      exact h.succ hrange (by omega)

theorem exactLoop_close (hrange : range.Assumed buffer) (chars : List Byte) : ∀ {matchPc : Nat},
    Place buffer range matchPc →
      exactLoop buffer.close (range.close buffer) chars (buffer.addressToIndex matchPc) =
        (exactLoop buffer range chars matchPc).map buffer.addressToIndex := by
  induction chars with
  | nil => exact fun _ => rfl
  | cons char chars ih =>
      intro matchPc h
      simp only [exactLoop, readMatchChar_close hrange h]
      cases hread : readMatchChar buffer range matchPc with
      | none => rfl
      | some result =>
          obtain ⟨ascii, matchPc'⟩ := result
          simp only [map_some, Prod.map_apply, id_eq]
          split
          · exact ih (readMatchChar_place hrange h hread)
          · rfl

theorem exactLoop_place (hrange : range.Assumed buffer) (chars : List Byte) : ∀ {matchPc matchPc' : Nat},
    Place buffer range matchPc → exactLoop buffer range chars matchPc = some matchPc' →
      Place buffer range matchPc' := by
  induction chars with
  | nil =>
      intro matchPc matchPc' h hloop
      cases hloop
      exact h
  | cons char chars ih =>
      intro matchPc matchPc' h hloop
      simp only [exactLoop] at hloop
      cases hread : readMatchChar buffer range matchPc with
      | none =>
          rw [hread] at hloop
          cases hloop
      | some result =>
          simp only [hread] at hloop
          split at hloop
          · exact ih (readMatchChar_place hrange h hread) hloop
          · cases hloop

/-! ## Copies of registers -/

theorem beqTranslate_add (scan1 scan2 : Nat) (length1 length2 : Nat) :
    beqTranslate buffer scan1 scan2 (length1 + length2) =
      (beqTranslate buffer scan1 scan2 length1 && beqTranslate buffer (scan1 + length1) (scan2 + length1) length2) := by
  induction length1 generalizing scan1 scan2 with
  | zero => simp [beqTranslate]
  | succ length1 ih =>
      rw [Nat.succ_add_eq_add_succ, Nat.add_succ]
      simp only [beqTranslate, ih, Bool.and_assoc, Nat.add_assoc, Nat.add_comm 1]

theorem beqTranslate_close (length : Nat) : ∀ {scan1 scan2 : Nat},
    (scan1 + length ≤ buffer.gapStart ∨ buffer.gapEnd ≤ scan1) →
    (scan2 + length ≤ buffer.gapStart ∨ buffer.gapEnd ≤ scan2) →
      beqTranslate buffer.close (buffer.addressToIndex scan1) (buffer.addressToIndex scan2) length =
        beqTranslate buffer scan1 scan2 length := by
  induction length with
  | zero => exact fun _ _ => rfl
  | succ length ih =>
      intro scan1 scan2 h1 h2
      have hsucc : ∀ {scan : Nat}, scan + (length + 1) ≤ buffer.gapStart ∨ buffer.gapEnd ≤ scan →
          buffer.addressToIndex scan + 1 = buffer.addressToIndex (scan + 1) := by
        intro scan h
        rcases h with h | h
        · rw [addressToIndex_of_le (by omega), addressToIndex_of_le (by omega)]
        · rw [addressToIndex_of_ge h, addressToIndex_of_ge (by omega)]
          omega
      have hchar1 : scan1 < buffer.gapStart ∨ buffer.gapEnd ≤ scan1 := by omega
      have hchar2 : scan2 < buffer.gapStart ∨ buffer.gapEnd ≤ scan2 := by omega
      have hrest1 : scan1 + 1 + length ≤ buffer.gapStart ∨ buffer.gapEnd ≤ scan1 + 1 := by omega
      have hrest2 : scan2 + 1 + length ≤ buffer.gapStart ∨ buffer.gapEnd ≤ scan2 + 1 := by omega
      simp only [beqTranslate, close_translateChar, hsucc h1, hsucc h2, ih hrest1 hrest2, close_text hchar1,
        close_text hchar2]

theorem duplicateEnd_gapless (hgap : buffer.gapEnd = buffer.gapStart) {start : Nat} (h : start < stop) :
    duplicateEnd buffer range matchPc start stop =
      if matchPc + (stop - start) > range.stop then none
      else if beqTranslate buffer matchPc start (stop - start) then some (matchPc + (stop - start))
      else none := by
  have hlength : buffer.gapLength = 0 := by
    rw [gapLength, hgap, Nat.sub_self]
  have hskip : ∀ address, buffer.skipGap address = address := by
    intro address
    unfold Buffer.skipGap
    split <;> omega
  unfold duplicateEnd
  simp only [hlength, hskip, hgap, Nat.add_zero]
  rw [if_neg (by omega)]
  split
  · rfl
  · split
    · -- the copy lies on both sides
      rw [show stop - start = buffer.gapStart - matchPc + (stop - start - (buffer.gapStart - matchPc)) by omega,
        beqTranslate_add, Nat.add_sub_cancel_left, Nat.add_sub_cancel' (by omega : matchPc ≤ buffer.gapStart)]
    · split
      · rw [show stop - start = buffer.gapStart - start + (stop - buffer.gapStart) by omega, beqTranslate_add,
          Nat.add_sub_cancel' (by omega)]
      · rfl

theorem duplicateEnd_whole {start : Nat} (h : start < stop)
    (hone : stop ≤ buffer.gapStart ∨ buffer.gapStart < start) :
    duplicateEnd buffer range matchPc start stop =
      if matchPc + (stop - start) > range.stop then none
      else if matchPc ≤ buffer.gapStart ∧ matchPc + (stop - start) > buffer.gapStart then
        if matchPc + (stop - start) + buffer.gapLength > range.stop then none
        else if beqTranslate buffer matchPc start (buffer.gapStart - matchPc) &&
            beqTranslate buffer buffer.gapEnd (start + (buffer.gapStart - matchPc))
              (stop - start - (buffer.gapStart - matchPc)) then
          some (buffer.skipGap (matchPc + (stop - start) + buffer.gapLength))
        else none
      else if beqTranslate buffer matchPc start (stop - start) then some (buffer.skipGap (matchPc + (stop - start)))
      else none := by
  unfold duplicateEnd
  rw [if_neg (by omega)]
  simp only [if_neg (show ¬(start ≤ buffer.gapStart ∧ stop > buffer.gapStart) by omega)]

theorem addressToIndex_sub {start : Nat} (h : start ≤ stop)
    (hone : stop ≤ buffer.gapStart ∨ buffer.gapEnd ≤ start) :
    buffer.addressToIndex stop = buffer.addressToIndex start + (stop - start) := by
  rcases hone with hone | hone
  · rw [addressToIndex_of_le hone, addressToIndex_of_le (by omega)]
    omega
  · rw [addressToIndex_of_ge hone, addressToIndex_of_ge (by omega)]
    omega

theorem addressToIndex_stop (hrange : range.Assumed buffer) :
    (range.stop ≤ buffer.gapStart ∧ buffer.addressToIndex range.stop = range.stop) ∨
      (buffer.gapEnd ≤ range.stop ∧ buffer.addressToIndex range.stop + buffer.gapLength = range.stop) := by
  rcases hrange.stop_outside with hstop | hstop
  · exact .inl ⟨hstop, addressToIndex_of_le hstop⟩
  · rw [addressToIndex_of_ge hstop, gapLength]
    omega

theorem beqTranslate_across (hgap : buffer.gapStart < buffer.gapEnd) {start length : Nat}
    (hbefore : matchPc ≤ buffer.gapStart) (hbehind : matchPc + length > buffer.gapStart)
    (hone : start + length ≤ buffer.gapStart ∨ buffer.gapEnd ≤ start) :
    beqTranslate buffer.close matchPc (buffer.addressToIndex start) length =
      (beqTranslate buffer matchPc start (buffer.gapStart - matchPc) &&
        beqTranslate buffer buffer.gapEnd (start + (buffer.gapStart - matchPc))
          (length - (buffer.gapStart - matchPc))) := by
  obtain ⟨length1, hlength1⟩ : ∃ length1, buffer.gapStart = matchPc + length1 := Nat.exists_eq_add_of_le hbefore
  obtain ⟨length2, rfl⟩ : ∃ length2, length = length1 + length2 := Nat.exists_eq_add_of_le (by omega)
  rw [show buffer.gapStart - matchPc = length1 by omega, Nat.add_sub_cancel_left, beqTranslate_add]
  have hmiddle : buffer.addressToIndex buffer.gapEnd = matchPc + length1 := by
    rw [addressToIndex_of_ge (Nat.le_refl _)]
    omega
  have hscan : buffer.addressToIndex start + length1 = buffer.addressToIndex (start + length1) := by
    have hone' : start + length1 ≤ buffer.gapStart ∨ buffer.gapEnd ≤ start := by omega
    have := addressToIndex_sub (Nat.le_add_right start length1) hone'
    omega
  congr 1
  · have hside : matchPc + length1 ≤ buffer.gapStart ∨ buffer.gapEnd ≤ matchPc := by omega
    have hone' : start + length1 ≤ buffer.gapStart ∨ buffer.gapEnd ≤ start := by omega
    have h := beqTranslate_close length1 hside hone'
    rwa [addressToIndex_of_le hbefore] at h
  · have hside : buffer.gapEnd + length2 ≤ buffer.gapStart ∨ buffer.gapEnd ≤ buffer.gapEnd := .inr (Nat.le_refl _)
    have hone' : start + length1 + length2 ≤ buffer.gapStart ∨ buffer.gapEnd ≤ start + length1 := by omega
    rw [hscan, ← hmiddle]
    exact beqTranslate_close length2 hside hone'

theorem duplicateEnd_close (hrange : range.Assumed buffer) (hgap : buffer.gapStart < buffer.gapEnd)
    {start : Nat} (hmatch : Place buffer range matchPc) (hstart : Place buffer range start)
    (hstop : EndPlace buffer stop) (hspan : ¬(start ≤ buffer.gapStart ∧ buffer.gapEnd < stop)) :
    duplicateEnd buffer.close (range.close buffer) (buffer.addressToIndex matchPc) (buffer.addressToIndex start)
        (buffer.addressToIndex stop) =
      (duplicateEnd buffer range matchPc start stop).map buffer.addressToIndex := by
  unfold EndPlace at hstop
  rcases Nat.lt_or_ge start stop with hlt | hle
  · have hone : stop ≤ buffer.gapStart ∨ buffer.gapEnd ≤ start := by
      unfold Place at hstart
      omega
    have hlength := addressToIndex_sub (Nat.le_of_lt hlt) hone
    have hend := addressToIndex_stop hrange
    rw [duplicateEnd_gapless rfl (by omega), duplicateEnd_whole hlt (by omega), hlength, close_stop]
    obtain ⟨length, rfl⟩ := Nat.exists_eq_add_of_le (Nat.le_of_lt hlt)
    simp only [Nat.add_sub_cancel_left]
    unfold Place at hmatch
    by_cases hcross : matchPc ≤ buffer.gapStart ∧ matchPc + length > buffer.gapStart
    · -- the copy spans the gap
      rw [addressToIndex_of_le hcross.1, if_pos hcross]
      have hfits : matchPc + length > buffer.addressToIndex range.stop ↔
          matchPc + length + buffer.gapLength > range.stop := by
        omega
      by_cases hout : matchPc + length + buffer.gapLength > range.stop
      · rw [if_pos (hfits.mpr hout), if_pos hout, ite_self]
        rfl
      · have hin : ¬matchPc + length > range.stop := by
          omega
        rw [if_neg (mt hfits.mp hout), beqTranslate_across hgap hcross.1 hcross.2 hone]
        split
        · simp only [map_some, Option.some.injEq]
          have hskip : buffer.skipGap (matchPc + length + buffer.gapLength) = matchPc + length + buffer.gapLength :=
            if_neg (by omega)
          rw [hskip, addressToIndex_of_ge (by unfold gapLength; omega), gapLength]
          omega
        · rfl
    · have hfits : buffer.addressToIndex matchPc + length > buffer.addressToIndex range.stop ↔
          matchPc + length > range.stop := by
        rcases hmatch with hbefore | hbehind | ⟨rfl, -, hempty⟩
        · rw [addressToIndex_of_le (Nat.le_of_lt hbefore)]
          unfold gapLength at hend
          omega
        · rw [addressToIndex_of_ge hbehind]
          unfold gapLength at hend
          omega
        · omega
      by_cases hout : matchPc + length > range.stop
      · rw [if_pos (hfits.mpr hout), if_pos hout]
        rfl
      · have hside : matchPc + length ≤ buffer.gapStart ∨ buffer.gapEnd ≤ matchPc := by omega
        rw [if_neg (mt hfits.mp hout), beqTranslate_close length hside hone]
        split
        · have hend' := addressToIndex_sub (Nat.le_add_right matchPc length) hside
          rw [map_some, addressToIndex_skipGap, hend', Nat.add_sub_cancel_left]
        · rfl
  · -- nothing is copied
    have hle' : buffer.addressToIndex stop ≤ buffer.addressToIndex start := by
      unfold Place at hstart
      rcases Nat.lt_or_ge buffer.gapStart stop with hbehind | hbefore
      · rw [addressToIndex_of_ge (by omega), addressToIndex_of_ge (by omega)]
        omega
      · rw [addressToIndex_of_le hbefore]
        unfold addressToIndex gapLength
        split <;> omega
    rw [duplicateEnd, if_pos hle', duplicateEnd, if_pos hle]
    rfl

theorem duplicateEnd_place {start : Nat} (hrange : range.Assumed buffer)
    (hmatch : Place buffer range matchPc) (h : duplicateEnd buffer range matchPc start stop = some matchPc') :
    Place buffer range matchPc' := by
  have hnew : ∀ newEnd, newEnd ≤ buffer.gapStart ∨ buffer.gapEnd ≤ newEnd →
      some (buffer.skipGap newEnd) = some matchPc' → Place buffer range matchPc' := by
    intro newEnd hnewEnd hsome
    rw [← Option.some.inj hsome]
    refine Place.skipGap ?_
    unfold Place
    omega
  unfold Place at hmatch
  simp only [duplicateEnd] at h
  split at h
  · exact Option.some.inj h ▸ hmatch
  · split at h
    · cases h
    · split at h
      · split at h
        · cases h
        · split at h
          · refine hnew _ ?_ h
            unfold gapLength
            omega
          · cases h
      · split at h
        · split at h
          · exact hnew _ (by omega) h
          · cases h
        · split at h
          · exact hnew _ (by omega) h
          · cases h

/-! ## Tests at a place -/

theorem atStart_close (matchPc : Nat) :
    atStart buffer.close (buffer.addressToIndex matchPc) = atStart buffer matchPc := by
  unfold atStart
  rw [close_addressToIndex, close_addressToIndex, close_textStart]

theorem atEnd_close (matchPc : Nat) : atEnd buffer.close (buffer.addressToIndex matchPc) = atEnd buffer matchPc := by
  unfold atEnd
  rw [close_addressToIndex, close_addressToIndex, close_textEnd]

theorem close_text_before (h : Place buffer range matchPc) (hgap : buffer.gapStart < buffer.gapEnd) :
    buffer.close.text ((buffer.addressToIndex matchPc : Nat) - 1) =
      buffer.text ((if matchPc = buffer.gapEnd then buffer.gapStart else matchPc : Nat) - 1) := by
  unfold Place at h
  simp only [Buffer.close, gapLength]
  rcases Nat.lt_or_ge buffer.gapStart matchPc with hbehind | hbefore
  · rw [addressToIndex_of_ge (by omega)]
    split
    · split
      · congr 1
        omega
      · omega
    · rw [if_neg (by omega)]
      congr 1
      omega
  · rw [addressToIndex_of_le hbefore, if_pos (by omega), if_neg (by omega)]

theorem ite_eq_of_self (address place : Nat) : (if address = place then place else address) = address := by
  split
  · next heq => exact heq.symm
  · rfl

theorem lineStartP_close (h : Place buffer range matchPc) (hgap : buffer.gapStart < buffer.gapEnd) :
    lineStartP buffer.close (buffer.addressToIndex matchPc) = lineStartP buffer matchPc := by
  unfold lineStartP
  rw [atStart_close, close_translateChar, ← close_text_before h hgap, close_gapEnd, close_gapStart, ite_eq_of_self]

theorem lineEndP_close (h : Place buffer range matchPc)
    (hend : matchPc = buffer.gapStart → buffer.textEndIndex = buffer.gapEnd) :
    lineEndP buffer.close (buffer.addressToIndex matchPc) = lineEndP buffer matchPc := by
  unfold lineEndP
  rw [atEnd_close, close_translateChar]
  by_cases hout : matchPc < buffer.gapStart ∨ buffer.gapEnd ≤ matchPc
  · rw [close_text hout]
  · -- the end of the text is on the other side of the gap
    have hplace : matchPc = buffer.gapStart := by
      unfold Place at h
      omega
    have hatEnd : atEnd buffer matchPc = true := by
      rw [atEnd, textEnd, if_pos (hend hplace), hplace]
      exact beq_self_eq_true _
    rw [hatEnd, Bool.true_or, Bool.true_or]

theorem wordBoundP_gapless (hgap : buffer.gapEnd = buffer.gapStart) (kind : WordBound) (matchPc : Nat) :
    wordBoundP buffer kind matchPc =
      kind.test
        (matchPc ≠ buffer.textStart && buffer.wordConstituentP (buffer.translateChar (buffer.text (matchPc - 1))))
        (matchPc ≠ buffer.textEnd && buffer.wordConstituentP (buffer.translateChar (buffer.text matchPc))) := by
  unfold wordBoundP
  simp only [hgap]
  split
  · next h => rw [h]
  · rfl

theorem eq_textStart_iff (h : Place buffer range matchPc) (hplace : matchPc ≠ buffer.gapEnd)
    (hbefore : matchPc = buffer.gapStart → buffer.textStartIndex ≠ buffer.gapStart) :
    buffer.addressToIndex matchPc = buffer.addressToIndex buffer.textStart ↔ matchPc = buffer.textStart := by
  have hstart := buffer.start_le
  unfold Place at h
  unfold textStart
  split
  · rw [addressToIndex_of_ge (Nat.le_refl _)]
    unfold addressToIndex gapLength
    split <;> omega
  · rw [addressToIndex_of_le hstart]
    unfold addressToIndex gapLength
    split <;> omega

theorem eq_textEnd_iff (h : Place buffer range matchPc) (hplace : matchPc ≠ buffer.gapEnd)
    (hbefore : matchPc = buffer.gapStart → buffer.textEndIndex = buffer.gapEnd) :
    buffer.addressToIndex matchPc = buffer.addressToIndex buffer.textEnd ↔ matchPc = buffer.textEnd := by
  have hend := buffer.le_end
  unfold Place at h
  unfold textEnd
  split
  · rw [addressToIndex_of_le (Nat.le_refl _)]
    unfold addressToIndex gapLength
    split <;> omega
  · rw [addressToIndex_of_ge hend]
    unfold addressToIndex gapLength
    split <;> omega

theorem wordBoundP_close (h : Place buffer range matchPc) (hgap : buffer.gapStart < buffer.gapEnd)
    (hbefore : matchPc = buffer.gapStart →
      buffer.textStartIndex ≠ buffer.gapStart ∧ buffer.textEndIndex = buffer.gapEnd)
    (hbehind : matchPc = buffer.gapEnd →
      buffer.textStartIndex ≠ buffer.gapStart ∧ buffer.textEndIndex ≠ buffer.gapEnd) (kind : WordBound) :
    wordBoundP buffer.close kind (buffer.addressToIndex matchPc) = wordBoundP buffer kind matchPc := by
  have hstart := buffer.start_le
  have hend := buffer.le_end
  rw [wordBoundP_gapless rfl, close_textStart, close_textEnd, close_wordConstituentP, close_wordConstituentP,
    close_translateChar, close_translateChar, close_text_before h hgap]
  unfold wordBoundP
  by_cases hplace : matchPc = buffer.gapEnd
  · -- right behind the gap, neither side of which is an end of the text
    obtain ⟨hfirst, hlast⟩ := hbehind hplace
    have hleft : buffer.addressToIndex matchPc ≠ buffer.addressToIndex buffer.textStartIndex := by
      rw [addressToIndex_of_ge (by omega), addressToIndex_of_le hstart]
      omega
    have hright : buffer.addressToIndex matchPc ≠ buffer.addressToIndex buffer.textEndIndex := by
      rw [addressToIndex_of_ge (by omega), addressToIndex_of_ge hend]
      omega
    have hfirst' : buffer.gapStart ≠ buffer.textStartIndex := fun heq => hfirst heq.symm
    have hlast' : buffer.gapEnd ≠ buffer.textEndIndex := fun heq => hlast heq.symm
    rw [textStart, textEnd, if_neg hfirst, if_neg hlast, if_pos hplace, if_pos hplace,
      close_text (.inr (by omega)), decide_eq_true hleft, decide_eq_true hright, decide_eq_true hfirst',
      decide_eq_true hlast', hplace]
  · rw [if_neg hplace, if_neg hplace]
    have hleft := eq_textStart_iff h hplace fun heq => (hbefore heq).1
    have hright := eq_textEnd_iff h hplace fun heq => (hbefore heq).2
    simp only [ne_eq, hleft, hright]
    by_cases hout : matchPc < buffer.gapStart ∨ buffer.gapEnd ≤ matchPc
    · rw [close_text hout]
    · -- the character on the right is not looked at
      have heq : matchPc = buffer.gapStart := by
        unfold Place at h
        omega
      have hatEnd : matchPc = buffer.textEnd := by
        rw [textEnd, if_pos (hbefore heq).2, heq]
      simp only [hatEnd, not_true_eq_false, decide_false, Bool.false_and]

/-! ## Steps -/

theorem failureLoop_close (c : Config) (stack : List FailurePoint) :
    failureLoop (c.close buffer) (stack.map (Option.map (Prod.map id buffer.addressToIndex))) =
      (failureLoop c stack).map (Config.close buffer) id := by
  induction stack with
  | nil => rfl
  | cons point stack ih =>
      rcases point with _ | ⟨patternPc, matchPc⟩
      · exact ih
      · rfl

theorem reMatchFail_close (c : Config) : reMatchFail (c.close buffer) = (reMatchFail c).map (Config.close buffer) id :=
  failureLoop_close c c.stack

theorem reMatchJump_close (c : Config) (target : Option Nat) :
    reMatchJump (c.close buffer) target = (reMatchJump c target).map (Config.close buffer) id := by
  cases target with
  | none => rfl
  | some target => rfl

theorem reMatchFinalizeJump_close (c : Config) (target : Option Nat) :
    reMatchFinalizeJump (c.close buffer) target = (reMatchFinalizeJump c target).map (Config.close buffer) id := by
  unfold reMatchFinalizeJump
  cases hstack : c.stack with
  | nil => simp only [Config.close, hstack, List.map_nil, Step.map, id_eq]
  | cons point stack =>
      have hclose : (c.close buffer).stack =
          point.map (Prod.map id buffer.addressToIndex) :: stack.map (Option.map (Prod.map id buffer.addressToIndex)) := by
        simp only [Config.close, hstack, List.map_cons]
      simp only [hclose]
      exact reMatchJump_close { c with stack } target

theorem matchTest_close (c : Config) {test test' : Bool} (h : test' = test) :
    matchTest (c.close buffer) test' = (matchTest c test).map (Config.close buffer) id := by
  subst h
  unfold matchTest
  split
  · rfl
  · exact reMatchFail_close c

theorem matchChar_close {α : Type} (hrange : range.Assumed buffer) (hc : Place buffer range c.matchPc)
    (size : Nat) (operand : Option α) (test : α → Byte → Bool) :
    matchChar buffer.close (range.close buffer) (c.close buffer) size operand test =
      (matchChar buffer range c size operand test).map (Config.close buffer) id := by
  unfold matchChar
  rw [show (c.close buffer).matchPc = buffer.addressToIndex c.matchPc from rfl, readMatchChar_close hrange hc]
  cases readMatchChar buffer range c.matchPc with
  | none => exact reMatchFail_close c
  | some result =>
      cases operand with
      | none => rfl
      | some operand =>
          obtain ⟨ascii, matchPc⟩ := result
          simp only [map_some, Prod.map_apply, id_eq]
          split
          · rfl
          · exact reMatchFail_close c

theorem pushFailurePoint_close (c : Config) (point : FailurePoint) (k : Config → Step)
    (h : ∀ c : Config, k (c.close buffer) = (k c).map (Config.close buffer) id) :
    pushFailurePoint (c.close buffer) (point.map (Prod.map id buffer.addressToIndex)) k =
      (pushFailurePoint c point k).map (Config.close buffer) id := by
  have hlength : (c.close buffer).stack.length = c.stack.length := List.length_map _
  unfold pushFailurePoint
  rw [hlength]
  split
  · rfl
  · exact h { c with stack := point :: c.stack }

theorem update_close (registers : Fin nregs → Option Nat) (register : Fin nregs) (address : Nat) :
    (fun r => (Function.update registers register (some address) r).map buffer.addressToIndex) =
      Function.update (fun r => (registers r).map buffer.addressToIndex) register
        (some (buffer.addressToIndex address)) := by
  funext r
  by_cases hr : r = register
  · subst hr
    simp only [Function.update_self, map_some]
  · simp only [Function.update_of_ne hr]

theorem succeed_close (c : Config) :
    succeed buffer.close (range.close buffer) (c.close buffer) = succeed buffer range c := by
  have hid : buffer.close.addressToIndex = id := by
    funext address
    exact close_addressToIndex address
  have hregisters : ∀ (registers : Fin nregs → Option Nat) (address : Nat),
      (fun r => (Function.update (fun r => (registers r).map buffer.addressToIndex) 0
          (some (buffer.addressToIndex address)) r).map buffer.close.addressToIndex) =
        fun r => (Function.update registers 0 (some address) r).map buffer.addressToIndex := by
    intro registers address
    rw [hid]
    simp only [Option.map_id_fun, id_eq]
    exact (update_close registers 0 address).symm
  unfold succeed
  rw [close_addressToIndex]
  congr 1
  · exact hregisters c.registerStart range.start
  · exact hregisters c.registerEnd c.matchPc

theorem duplicate_close (hrange : range.Assumed buffer) (hgap : buffer.gapStart < buffer.gapEnd)
    (hc : c.Placed buffer range) (register : Fin nregs)
    (hspan : ∀ start ∈ c.registerStart register, ∀ stop ∈ c.registerEnd register,
      ¬(start ≤ buffer.gapStart ∧ buffer.gapEnd < stop)) :
    execute buffer.close (range.close buffer) (c.close buffer) (.duplicate (some register)) =
      (execute buffer range c (.duplicate (some register))).map (Config.close buffer) id := by
  simp only [execute, Config.close]
  cases hstart : c.registerStart register with
  | none =>
      cases hstop : c.registerEnd register with
      | none => rfl
      | some stop => rfl
  | some start =>
      cases hstop : c.registerEnd register with
      | none => rfl
      | some stop =>
          simp only [map_some]
          rw [duplicateEnd_close hrange hgap hc.matchPc (hc.registerStart register start hstart)
            (hc.registerEnd register stop hstop) (hspan start hstart stop hstop)]
          cases duplicateEnd buffer range c.matchPc start stop with
          | none => exact reMatchFail_close c
          | some matchPc => rfl

theorem execute_close (hrange : range.Assumed buffer) (hgap : buffer.gapStart < buffer.gapEnd)
    (hc : c.Placed buffer range) {instruction : Instruction} (hfetch : fetch c.code c.patternPc = some instruction)
    (hharmless : c.Harmless buffer) :
    execute buffer.close (range.close buffer) (c.close buffer) instruction =
      (execute buffer range c instruction).map (Config.close buffer) id := by
  have hharmless := hharmless hgap
  rw [hfetch] at hharmless
  cases instruction with
  | unused | bad => rfl
  | exact1 char => exact matchChar_close hrange hc.matchPc 2 char _
  | exactN chars =>
      cases chars with
      | none => rfl
      | some chars =>
          simp only [execute]
          rw [show (c.close buffer).matchPc = buffer.addressToIndex c.matchPc from rfl,
            exactLoop_close hrange chars hc.matchPc]
          cases exactLoop buffer range chars c.matchPc with
          | none => exact reMatchFail_close c
          | some matchPc => rfl
  | lineStart => exact matchTest_close c (lineStartP_close hc.matchPc hgap)
  | lineEnd => exact matchTest_close c (lineEndP_close hc.matchPc hharmless)
  | jump target => exact reMatchJump_close c target
  | onFailureJump target =>
      cases target with
      | none => rfl
      | some target =>
          exact pushFailurePoint_close c (some (target, c.matchPc))
            (fun c => .next { c with patternPc := c.patternPc + 3 }) fun _ => rfl
  | finalizeJump target => exact reMatchFinalizeJump_close c target
  | maybeFinalizeJump target =>
      cases target with
      | none => rfl
      | some target =>
          simp only [execute]
          rw [show (c.close buffer).code = c.code from rfl, show (c.close buffer).patternPc = c.patternPc from rfl]
          cases finalizeP c.code (c.patternPc + 3) target with
          | finalize => exact reMatchFinalizeJump_close (c.rewrite 7) (some target)
          | dontFinalize => exact reMatchJump_close (c.rewrite 5) (some target)
          | unknown => rfl
  | dummyFailureJump target =>
      exact pushFailurePoint_close c none (fun c => reMatchJump c target) fun c => reMatchJump_close c target
  | anyChar => exact matchChar_close hrange hc.matchPc 1 (some ()) fun _ ascii => ascii != 10
  | charSet inverse set => exact matchChar_close hrange hc.matchPc _ set _
  | startMemory register =>
      cases register with
      | none => rfl
      | some register =>
          simp only [execute, Config.close, Step.map, update_close]
  | stopMemory register =>
      cases register with
      | none => rfl
      | some register =>
          have hend : buffer.addressToIndex (if c.matchPc = buffer.gapEnd then buffer.gapStart else c.matchPc) =
              buffer.addressToIndex c.matchPc := by
            split
            · next h => rw [h, ← addressToIndex_skipGap buffer.gapStart, Buffer.skipGap, if_pos rfl]
            · rfl
          have hclosed : (if (c.close buffer).matchPc = buffer.close.gapEnd then buffer.close.gapStart
              else (c.close buffer).matchPc) = buffer.addressToIndex c.matchPc := ite_eq_of_self _ _
          simp only [execute, hclosed]
          simp only [Config.close, Step.map, update_close, hend]
  | duplicate register =>
      cases register with
      | none => rfl
      | some register =>
          exact duplicate_close hrange hgap hc register hharmless
  | bufferStart => exact matchTest_close c (atStart_close c.matchPc)
  | bufferEnd => exact matchTest_close c (atEnd_close c.matchPc)
  | wordChar inverse =>
      exact matchChar_close hrange hc.matchPc 1 (some ()) fun _ ascii => buffer.wordConstituentP ascii != inverse
  | wordBound kind =>
      exact matchTest_close c (wordBoundP_close hc.matchPc hgap hharmless.1 hharmless.2 kind)
  | syntaxSpec inverse code => exact matchChar_close hrange hc.matchPc 2 code _

theorem step_close (hrange : range.Assumed buffer) (hgap : buffer.gapStart < buffer.gapEnd)
    (hc : c.Placed buffer range) (hharmless : c.Harmless buffer) :
    step buffer.close (range.close buffer) (c.close buffer) = (step buffer range c).map (Config.close buffer) id := by
  unfold step
  rw [show (c.close buffer).code = c.code from rfl, show (c.close buffer).patternPc = c.patternPc from rfl]
  cases hfetch : fetch c.code c.patternPc with
  | none => simp only [succeed_close, Step.map, id_eq]
  | some instruction => exact execute_close hrange hgap hc hfetch hharmless

/-! ## Runs -/

theorem Place.advances (hrange : range.Assumed buffer) (h : Place buffer range matchPc)
    (hadvances : Advances buffer range matchPc matchPc') : Place buffer range matchPc' := by
  rcases hadvances with ⟨chars, hloop⟩ | ⟨start, stop, hcopy⟩
  · exact exactLoop_place hrange chars h hloop
  · exact duplicateEnd_place hrange h hcopy

theorem Config.Placed.initial (hrange : range.Assumed buffer) (code : List Byte) :
    (initial range code).Placed buffer range where
  matchPc := .start hrange
  stack := by
    intro patternPc matchPc hmem
    cases hmem
  registerStart := by
    intro register start hmem
    cases hmem
  registerEnd := by
    intro register stop hmem
    cases hmem

theorem mem_update {registers : Fin nregs → Option Nat} {register r : Fin nregs} {x : Nat}
    (h : x ∈ Function.update registers register (some address) r) : x = address ∨ x ∈ registers r := by
  by_cases hr : r = register
  · subst hr
    rw [Function.update_self] at h
    exact .inl (Option.some.inj h).symm
  · rw [Function.update_of_ne hr] at h
    exact .inr h

theorem Config.Placed.next (hrange : range.Assumed buffer) {c c' : Config} {instruction : Instruction}
    (hc : c.Placed buffer range) (h : Next buffer range c instruction c') : c'.Placed buffer range := by
  obtain ⟨hmatch, hstack, hstart, hend⟩ := hc
  cases h with
  | fail _ hfail =>
      obtain ⟨patternPc, matchPc, dummies, stack', hsplit, -, rfl⟩ := failureLoop_next hfail
      have hplace := hstack patternPc matchPc (by rw [hsplit]; simp)
      exact ⟨hplace, fun patternPc matchPc hmem => hstack patternPc matchPc (by rw [hsplit]; simp [hmem]), hstart, hend⟩
  | advance matchPc _ hadvances => exact ⟨hmatch.advances hrange hadvances, hstack, hstart, hend⟩
  | jump target | dontFinalize target => exact ⟨hmatch, hstack, hstart, hend⟩
  | push target =>
      refine ⟨hmatch, ?_, hstart, hend⟩
      intro patternPc matchPc hmem
      rcases List.mem_cons.mp hmem with heq | hmem
      · cases heq
        exact hmatch
      · exact hstack patternPc matchPc hmem
  | pushDummy target =>
      refine ⟨hmatch, ?_, hstart, hend⟩
      intro patternPc matchPc hmem
      rcases List.mem_cons.mp hmem with heq | hmem
      · cases heq
      · exact hstack patternPc matchPc hmem
  | finalize target hsplit | maybeFinalize target hsplit =>
      exact ⟨hmatch, fun patternPc matchPc hmem => hstack patternPc matchPc (hsplit ▸ List.mem_cons_of_mem _ hmem),
        hstart, hend⟩
  | start register =>
      refine ⟨hmatch, hstack, ?_, hend⟩
      intro r start hmem
      rcases mem_update hmem with rfl | hmem
      · exact hmatch
      · exact hstart r start hmem
  | stop register =>
      refine ⟨hmatch, hstack, hstart, ?_⟩
      intro r stop hmem
      rcases mem_update hmem with rfl | hmem
      · unfold Place at hmatch
        unfold EndPlace
        split <;> omega
      · exact hend r stop hmem

theorem close_of_empty (hgap : buffer.gapEnd ≤ buffer.gapStart) :
    buffer.close = buffer ∧ range.close buffer = range := by
  have hlength : buffer.gapLength = 0 := Nat.sub_eq_zero_of_le hgap
  have hindex : ∀ address, buffer.addressToIndex address = address := by
    intro address
    rw [addressToIndex, hlength, Nat.sub_zero, ite_self]
  constructor
  · have htext : buffer.close.text = buffer.text := by
      simp only [Buffer.close, hlength, Int.natCast_zero, Int.add_zero, ite_self]
    have hend : buffer.close.textEndIndex = buffer.textEndIndex := by
      simp only [Buffer.close, hlength, Nat.sub_zero]
    have hgapEnd : buffer.close.gapEnd = buffer.gapEnd := Nat.le_antisymm buffer.gap_le hgap
    cases buffer
    simp only [Buffer.close, Buffer.mk.injEq, true_and] at *
    exact ⟨htext, hend, hgapEnd⟩
  · simp only [MatchRange.close, hindex]

end

/-- `abab` in a buffer with a gap before one of its characters. -/
def abab (gapStart : Nat) (h : gapStart ≤ 4) : Buffer where
  translation := none
  syntaxTable _ := 0
  text address :=
    let index := if address < gapStart then address else address - 3
    if index % 2 = 0 then 97 else 98
  textStartIndex := 0
  textEndIndex := 7
  gapStart := gapStart
  gapEnd := gapStart + 3
  start_le := Nat.zero_le _
  gap_le := Nat.le_add_right ..
  le_end := Nat.add_le_add_right h 3

/-- `\(ab\)\1` -/
def copyCode : List Byte := [13, 1, 2, 2, 97, 98, 14, 1, 15, 1]

end MitScheme.Regex
