import MitScheme.Runtime.ChrsetLists
import MitScheme.Runtime.ChrsetCodecProof

/-!
# What the operations on inversion lists do to membership

Each of them makes a canonical list, and says of each code point what it is meant to say. The list
that the combiner builds is reversed, and ends where the next stretch begins, so that a stretch that
continues the last range makes it longer instead of beginning a new one.
-/

namespace MitScheme.Chrset

open InversionList List
open Bool (false_xor not_eq_true' xor_assoc)

variable {ilist il1 il2 result : List Nat} {bound start stop c : Nat}

/-! ## The combiner -/

theorem and_one_eq (v : Nat) : (v &&& 1 == 1) = v.testBit 0 := by
  have h : v &&& 1 = (v.testBit 0).toNat * 1 := Nat.and_two_pow v 0
  rw [h]
  cases v.testBit 0 <;> rfl

theorem and_two_eq (v : Nat) : (v &&& 2 == 2) = v.testBit 1 := by
  have h : v &&& 2 = (v.testBit 1).toNat * 2 := Nat.and_two_pow v 1
  rw [h]
  cases v.testBit 1 <;> rfl

theorem stretch_split {x y z : Bool} (hstart : start ≤ stop) (hstop : stop ≤ bound)
    (hbelow : c < stop → x = y) (habove : stop ≤ c → x = z) :
    (decide (start ≤ c ∧ c < bound) && x)
      = Bool.xor (decide (stop ≤ c ∧ c < bound) && z) (decide (start ≤ c ∧ c < stop) && y) := by
  rcases Nat.lt_or_ge c stop with hc | hc
  · have hnone : ¬ (stop ≤ c ∧ c < bound) := by omega
    have hsome : (start ≤ c ∧ c < bound) ↔ (start ≤ c ∧ c < stop) := by omega
    rw [hbelow hc, decide_eq_false hnone, Bool.false_and, false_xor,
      decide_eq_decide.mpr hsome]
  · have hnone : ¬ (start ≤ c ∧ c < stop) := by omega
    have hsome : (start ≤ c ∧ c < bound) ↔ (stop ≤ c ∧ c < bound) := by omega
    rw [habove hc, decide_eq_false hnone, Bool.false_and, Bool.xor_false,
      decide_eq_decide.mpr hsome]

section Combiner

variable {combine : Bool → Bool → Bool} {v vi : Nat}

theorem inside_process :
    inside (process combine v start stop result) c
      = Bool.xor (decide (start ≤ c ∧ c < stop) && combine (v.testBit 0) (v.testBit 1))
          (inside result c) := by
  unfold process
  rw [and_one_eq, and_two_eq]
  split
  · rename_i h
    rw [h.2, Bool.and_true, ← inside_range h.1.le]
    split
    · split
      · -- the boundary that is taken out would have been there twice
        rename_i heq
        subst heq
        simp [rcons, inside_cons]
      · rfl
    · rfl
  · rename_i h
    rcases Decidable.not_and_iff_or_not.mp h with hlt | hcombine
    · rw [decide_eq_false (by omega), Bool.false_and, false_xor]
    · rw [Bool.eq_false_iff.mpr hcombine, Bool.and_false, false_xor]

theorem Descending.of_head {b : Nat} {rest : List Nat} (h : Descending (start + 1) (b :: rest))
    (hne : start ≠ b) : Descending start (b :: rest) := by
  refine ⟨h.decreasing, h.even, fun b' hb' => ?_⟩
  have hb := h.bounded b mem_cons_self
  rcases mem_cons.mp hb' with rfl | hb'
  · omega
  · have := (pairwise_cons.mp h.decreasing).1 b' hb'
    omega

theorem descending_process (h : Descending (start + 1) result) (hle : start ≤ stop) :
    Descending (stop + 1) (process combine v start stop result) := by
  unfold process
  split
  · rename_i hlt
    match result with
    | [] => exact Descending.nil.push (Nat.zero_le start) hlt.1 (Nat.lt_succ_self stop)
    | [b] =>
        have := h.even
        simp at this
    | b :: b' :: rest =>
        dsimp only
        split
        · rename_i heq
          subst heq
          exact h.extend hle (Nat.lt_succ_self stop)
        · rename_i hne
          exact (Descending.of_head h hne).push (Nat.le_refl start) hlt.1 (Nat.lt_succ_self stop)
  · exact h.mono (by omega)

theorem combinerTail_spec (hincreasing : ilist.Pairwise (· < ·))
    (hbounded : ∀ b ∈ ilist, start ≤ b ∧ b ≤ charCodeLimit) (hstart : start ≤ charCodeLimit)
    (hresult : Descending (start + 1) result) :
    Canonical charCodeLimit (combinerTail combine vi v start ilist result)
      ∧ ∀ c, inside (combinerTail combine vi v start ilist result) c
          = Bool.xor
              (decide (start ≤ c ∧ c < charCodeLimit)
                && combine (Bool.xor (v.testBit 0) (vi.testBit 0 && inside ilist c))
                    (Bool.xor (v.testBit 1) (vi.testBit 1 && inside ilist c)))
              (inside result c) := by
  induction ilist generalizing v start result with
  | nil =>
      have hprocess : Descending (charCodeLimit + 1) (process combine v start charCodeLimit result) :=
        descending_process hresult hstart
      rw [combinerTail]
      split
      · refine ⟨hprocess.canonical, fun c => ?_⟩
        rw [inside_reverse, inside_process]
        simp
      · refine ⟨(hresult.mono (by omega)).canonical, fun c => ?_⟩
        rw [decide_eq_false (by omega)]
        simp
  | cons stop ilist ih =>
      obtain ⟨hstop, hilist⟩ := pairwise_cons.mp hincreasing
      obtain ⟨hle, hle'⟩ := hbounded stop mem_cons_self
      have hrest : ∀ b ∈ ilist, stop ≤ b ∧ b ≤ charCodeLimit := fun b hb =>
        ⟨(hstop b hb).le, (hbounded b (mem_cons_of_mem stop hb)).2⟩
      have hprocess : Descending (stop + 1) (process combine v start stop result) :=
        descending_process hresult hle
      obtain ⟨hcanonical, hinside⟩ := ih (v := v ^^^ vi) hilist hrest hle' hprocess
      rw [combinerTail]
      refine ⟨hcanonical, fun c => ?_⟩
      rw [hinside c, inside_process, ← xor_assoc]
      congr 1
      refine (stretch_split hle hle' (fun hc => ?_) fun hc => ?_).symm
      · rw [inside_cons, inside_of_lt fun b hb => hc.trans (hstop b hb),
          decide_eq_false (by omega)]
        simp
      · rw [inside_cons, decide_eq_true hc, Nat.testBit_xor, Nat.testBit_xor]
        cases v.testBit 0 <;> cases v.testBit 1 <;> cases vi.testBit 0 <;> cases vi.testBit 1 <;>
          simp

theorem le_of_mem_of_increasing {b : Nat} (h : (b :: ilist).Pairwise (· < ·)) (hle : start ≤ b) :
    ∀ b' ∈ b :: ilist, start ≤ b' := by
  intro b' hb'
  rcases mem_cons.mp hb' with rfl | hb'
  · exact hle
  · exact hle.trans ((pairwise_cons.mp h).1 b' hb').le

theorem inside_turn {w : Nat} {il1' il2' all : List Nat} (hle : start ≤ stop)
    (hstop : stop ≤ charCodeLimit) (hbounded1 : ∀ b ∈ il1, stop ≤ b)
    (hbounded2 : ∀ b ∈ il2, stop ≤ b)
    (h1 : ∀ c, stop ≤ c → inside il1 c = Bool.xor (w.testBit 0) (inside il1' c))
    (h2 : ∀ c, stop ≤ c → inside il2 c = Bool.xor (w.testBit 1) (inside il2' c))
    (hall : ∀ c, inside all c
      = Bool.xor
          (decide (stop ≤ c ∧ c < charCodeLimit)
            && combine (Bool.xor ((v ^^^ w).testBit 0) (inside il1' c))
                (Bool.xor ((v ^^^ w).testBit 1) (inside il2' c)))
          (inside (process combine v start stop result) c)) :
    ∀ c, inside all c
      = Bool.xor
          (decide (start ≤ c ∧ c < charCodeLimit)
            && combine (Bool.xor (v.testBit 0) (inside il1 c))
                (Bool.xor (v.testBit 1) (inside il2 c)))
          (inside result c) := by
  intro c
  rw [hall c, inside_process, ← xor_assoc]
  congr 1
  refine (stretch_split hle hstop (fun hc => ?_) fun hc => ?_).symm
  · rw [inside_of_lt fun b hb => hc.trans_le (hbounded1 b hb),
      inside_of_lt fun b hb => hc.trans_le (hbounded2 b hb), Bool.xor_false, Bool.xor_false]
  · rw [h1 c hc, h2 c hc, Nat.testBit_xor, Nat.testBit_xor, xor_assoc, xor_assoc]

theorem combinerLoop_spec (h1 : il1.Pairwise (· < ·)) (h2 : il2.Pairwise (· < ·))
    (hbounded1 : ∀ b ∈ il1, start ≤ b ∧ b ≤ charCodeLimit)
    (hbounded2 : ∀ b ∈ il2, start ≤ b ∧ b ≤ charCodeLimit) (hstart : start ≤ charCodeLimit)
    (hresult : Descending (start + 1) result) :
    Canonical charCodeLimit (combinerLoop combine v start il1 il2 result)
      ∧ ∀ c, inside (combinerLoop combine v start il1 il2 result) c
          = Bool.xor
              (decide (start ≤ c ∧ c < charCodeLimit)
                && combine (Bool.xor (v.testBit 0) (inside il1 c))
                    (Bool.xor (v.testBit 1) (inside il2 c)))
              (inside result c) := by
  fun_induction combinerLoop combine v start il1 il2 result with
  | case1 v start result il2 =>
      obtain ⟨hcanonical, hinside⟩ := @combinerTail_spec _ _ _ combine v 2
        h2 hbounded2 hstart hresult
      refine ⟨hcanonical, fun c => ?_⟩
      rw [hinside c]
      simp [show Nat.testBit 2 0 = false from rfl, show Nat.testBit 2 1 = true from rfl]
  | case2 v start il1 result hne =>
      obtain ⟨hcanonical, hinside⟩ := @combinerTail_spec _ _ _ combine v 1
        h1 hbounded1 hstart hresult
      refine ⟨hcanonical, fun c => ?_⟩
      rw [hinside c]
      simp [show Nat.testBit 1 0 = true from rfl, show Nat.testBit 1 1 = false from rfl]
  | case3 v start result b1 il1 b2 il2 stop result' hlt ih =>
      -- the next boundary is one of the first list
      obtain ⟨hle, hle'⟩ := hbounded1 b1 mem_cons_self
      have hstop : stop = b1 := by omega
      have hfirst1 := le_of_mem_of_increasing h1 hstop.le
      have hfirst2 := le_of_mem_of_increasing h2 hlt.le
      obtain ⟨hcanonical, hinside⟩ := ih h1.tail h2
        (fun b hb => ⟨hfirst1 b (mem_cons_of_mem b1 hb),
          (hbounded1 b (mem_cons_of_mem b1 hb)).2⟩)
        (fun b hb => ⟨hfirst2 b hb, (hbounded2 b hb).2⟩) (by omega)
        (descending_process hresult (by omega))
      refine ⟨hcanonical, inside_turn (by omega) (by omega) hfirst1 hfirst2 (fun c hc => ?_)
        (fun c _ => ?_) hinside⟩
      · rw [inside_cons, decide_eq_true (hstop ▸ hc)]
        rfl
      · exact (false_xor _).symm
  | case4 v start result b1 il1 b2 il2 stop result' hlt hlt' ih =>
      -- it is one of the second list
      obtain ⟨hle, hle'⟩ := hbounded2 b2 mem_cons_self
      have hstop : stop = b2 := by omega
      have hfirst1 := le_of_mem_of_increasing h1 hlt'.le
      have hfirst2 := le_of_mem_of_increasing h2 hstop.le
      obtain ⟨hcanonical, hinside⟩ := ih h1 h2.tail
        (fun b hb => ⟨hfirst1 b hb, (hbounded1 b hb).2⟩)
        (fun b hb => ⟨hfirst2 b (mem_cons_of_mem b2 hb),
          (hbounded2 b (mem_cons_of_mem b2 hb)).2⟩) (by omega)
        (descending_process hresult (by omega))
      refine ⟨hcanonical, inside_turn (by omega) (by omega) hfirst1 hfirst2 (fun c _ => ?_)
        (fun c hc => ?_) hinside⟩
      · exact (false_xor _).symm
      · rw [inside_cons, decide_eq_true (hstop ▸ hc)]
        rfl
  | case5 v start result b1 il1 b2 il2 stop result' hlt hlt' ih =>
      -- it is one of both
      obtain ⟨hle, hle'⟩ := hbounded1 b1 mem_cons_self
      have hstop1 : stop = b1 := by omega
      have hstop2 : stop = b2 := by omega
      have hfirst1 := le_of_mem_of_increasing h1 hstop1.le
      have hfirst2 := le_of_mem_of_increasing h2 hstop2.le
      obtain ⟨hcanonical, hinside⟩ := ih h1.tail h2.tail
        (fun b hb => ⟨hfirst1 b (mem_cons_of_mem b1 hb),
          (hbounded1 b (mem_cons_of_mem b1 hb)).2⟩)
        (fun b hb => ⟨hfirst2 b (mem_cons_of_mem b2 hb),
          (hbounded2 b (mem_cons_of_mem b2 hb)).2⟩) (by omega)
        (descending_process hresult (by omega))
      refine ⟨hcanonical, inside_turn (by omega) (by omega) hfirst1 hfirst2 (fun c hc => ?_)
        (fun c hc => ?_) hinside⟩
      · rw [inside_cons, decide_eq_true (hstop1 ▸ hc)]
        rfl
      · rw [inside_cons, decide_eq_true (hstop2 ▸ hc)]
        rfl

theorem makeInversionListCombiner_spec (h1 : Canonical charCodeLimit il1)
    (h2 : Canonical charCodeLimit il2) :
    Canonical charCodeLimit (makeInversionListCombiner combine il1 il2)
      ∧ ∀ c, inside (makeInversionListCombiner combine il1 il2) c
          = (decide (c < charCodeLimit) && combine (inside il1 c) (inside il2 c)) := by
  obtain ⟨hcanonical, hinside⟩ := @combinerLoop_spec _ _ _ _ combine 0 h1.increasing
    h2.increasing (fun b hb => ⟨Nat.zero_le b, h1.bounded b hb⟩)
    (fun b hb => ⟨Nat.zero_le b, h2.bounded b hb⟩) (Nat.zero_le _) .nil
  refine ⟨hcanonical, fun c => ?_⟩
  rw [makeInversionListCombiner, hinside c]
  simp

end Combiner

/-! ## The inverse -/

theorem invertLoop_spec {inverse : List Nat} (h : Canonical charCodeLimit ilist)
    (hfirst : ∀ b ∈ ilist, start < b) (hstart : start ≤ charCodeLimit)
    (hinverse : Descending start inverse) :
    Canonical charCodeLimit (invertLoop start ilist inverse)
      ∧ ∀ c, inside (invertLoop start ilist inverse) c
          = Bool.xor (decide (start ≤ c ∧ c < charCodeLimit) && !inside ilist c)
              (inside inverse c) := by
  fun_induction invertLoop start ilist inverse with
  | case1 start stop start' ilist inverse ih =>
      obtain ⟨hstop, hrest⟩ := pairwise_cons.mp h.increasing
      obtain ⟨hstart', -⟩ := pairwise_cons.mp hrest
      have hlt := hfirst stop mem_cons_self
      have hlt' := hstop start' mem_cons_self
      have hle := h.bounded start' (by simp)
      obtain ⟨hcanonical, hinside⟩ := ih h.tail hstart' hle
        (hinverse.push (Nat.le_refl start) hlt hlt')
      refine ⟨hcanonical, fun c => ?_⟩
      -- from `stop` up to `start'` the code points are inside, so they are not in the inverse
      have hrange : (decide (start' ≤ c ∧ c < charCodeLimit) && !inside ilist c)
          = (decide (stop ≤ c ∧ c < charCodeLimit) && !inside (stop :: start' :: ilist) c) := by
        by_cases hc : start' ≤ c
        · simp [inside_cons, hc, show stop ≤ c by omega]
        · have hnone : inside (start' :: ilist) c = false :=
            inside_of_lt (le_of_mem_of_increasing hrest (Nat.lt_of_not_le hc))
          rw [inside_cons stop, hnone, decide_eq_false fun hrange => hc hrange.1]
          by_cases hc' : stop ≤ c <;> simp [hc']
      rw [hinside c, rcons, inside_range hlt.le, ← xor_assoc, hrange,
        ← Bool.and_true (decide (start ≤ c ∧ c < stop))]
      congr 1
      refine (stretch_split hlt.le (hlt'.le.trans hle) (fun hc => ?_) fun hc => rfl).symm
      rw [inside_of_lt (le_of_mem_of_increasing h.increasing hc)]
      rfl
  | case2 ilist start inverse hne =>
      have hnil : ilist = [] := by
        rcases ilist with _ | ⟨b, _ | ⟨b', ilist⟩⟩
        · rfl
        · have := h.even
          simp at this
        · exact (hne b b' ilist rfl).elim
      subst hnil
      split
      · rename_i hlt
        have hpush : Descending (charCodeLimit + 1) (rcons start charCodeLimit inverse) :=
          hinverse.push (Nat.le_refl start) hlt (Nat.lt_succ_self _)
        refine ⟨hpush.canonical, fun c => ?_⟩
        rw [inside_reverse, rcons, inside_range hlt.le]
        simp
      · refine ⟨(hinverse.mono (by omega)).canonical, fun c => ?_⟩
        rw [decide_eq_false (by omega)]
        simp

theorem inversionListInvert_spec (h : Canonical charCodeLimit ilist) :
    Canonical charCodeLimit (inversionListInvert ilist)
      ∧ ∀ c, inside (inversionListInvert ilist) c
          = (decide (ilist ≠ [] ∧ c < charCodeLimit) && !inside ilist c) := by
  unfold inversionListInvert
  split
  · rename_i start stop ilist
    obtain ⟨hstart, hrest⟩ := pairwise_cons.mp h.increasing
    obtain ⟨hstop, -⟩ := pairwise_cons.mp hrest
    split
    · rename_i hpos
      obtain ⟨hcanonical, hinside⟩ := invertLoop_spec h
        (le_of_mem_of_increasing h.increasing hpos) (Nat.zero_le _) .nil
      refine ⟨hcanonical, fun c => ?_⟩
      rw [hinside c]
      simp
    · have hzero' : start = 0 := by omega
      subst hzero'
      obtain ⟨hcanonical, hinside⟩ := invertLoop_spec h.tail hstop (h.bounded stop (by simp)) .nil
      refine ⟨hcanonical, fun c => ?_⟩
      rw [hinside c, inside_cons, inside_cons]
      by_cases hc : stop ≤ c
      · simp [hc]
      · rw [inside_of_lt fun b hb => (Nat.lt_of_not_le hc).trans (hstop b hb)]
        simp [hc]
  · rename_i hne
    have hnil : ilist = [] := by
      match ilist with
      | [] => rfl
      | [b] =>
          have := h.even
          simp at this
      | b :: b' :: ilist => exact (hne b b' ilist rfl).elim
    exact ⟨.nil, fun c => by simp [hnil]⟩

theorem computeInversionList_spec (procedure : Nat → Bool) :
    Canonical charCodeLimit (computeInversionList procedure)
      ∧ ∀ c, inside (computeInversionList procedure) c
          = (decide (c < charCodeLimit ∧ ¬ (0xD800 ≤ c ∧ c < 0xE000)) && procedure c) := by
  have hlimit : charCodeLimit = 0x110000 := rfl
  have hlow := (descending_findStart procedure 0xD800).1 0 [] .nil
  have hhigh := (descending_findStart procedure (0x110000 - 0xE000)).1 0xE000 _
    (hlow.mono (by omega))
  refine ⟨(hhigh.mono (by omega)).canonical, fun c => ?_⟩
  rw [computeInversionList, inside_reverse, (inside_findStart procedure _).1,
    (inside_findStart procedure _).1, inside_nil, Bool.xor_false]
  by_cases hc : c < 0xD800
  · have hnone : ¬ (0xE000 ≤ c ∧ c < 0xE000 + (0x110000 - 0xE000)) := by omega
    have hsome : c < charCodeLimit ∧ ¬ (0xD800 ≤ c ∧ c < 0xE000) := by omega
    rw [decide_eq_false hnone, decide_eq_true (p := 0 ≤ c ∧ c < 0 + 0xD800) (by omega),
      decide_eq_true hsome, Bool.false_and, false_xor]
  · rw [decide_eq_false (p := 0 ≤ c ∧ c < 0 + 0xD800) (by omega), Bool.false_and, Bool.xor_false]
    congr 1
    exact decide_eq_decide.mpr (by omega)

/-! ## Ranges of code points -/

namespace Range

/-- The code point is in the range. -/
def Has (range : Range) (cp : Nat) : Prop := range.start ≤ cp ∧ cp < range.stop

@[simp] theorem start_make {start stop : Nat} : (make start stop).start = start := by
  unfold make
  split <;> rfl

theorem stop_make {start stop : Nat} (h : start ≤ stop) : (make start stop).stop = stop := by
  unfold make
  split
  · simp only [Range.stop]
    omega
  · rfl

theorem not_less_trans {a b c : Range} (hab : (!b.less a) = true) (hbc : (!c.less b) = true) :
    (!c.less a) = true := by
  simp only [less, not_eq_true', Bool.or_eq_false_iff, Bool.and_eq_false_iff,
    decide_eq_false_iff_not, beq_eq_false_iff_ne] at *
  omega

theorem not_less_total (a b : Range) : ((!b.less a) || !a.less b) = true := by
  simp only [less, Bool.or_eq_true, not_eq_true', Bool.or_eq_false_iff, Bool.and_eq_false_iff,
    decide_eq_false_iff_not, beq_eq_false_iff_ne]
  omega

end Range

/-- Ranges in order that do not meet. -/
def Apart (ranges : List Range) : Prop :=
  ranges.Pairwise (fun range1 range2 => range1.stop < range2.start)
    ∧ ∀ range ∈ ranges, range.start < range.stop

theorem joinRanges_spec {ranges : List Range}
    (hsorted : ranges.Pairwise fun range1 range2 => range1.start ≤ range2.start)
    (hsome : ∀ range ∈ ranges, range.start < range.stop) :
    Apart (joinRanges ranges)
      ∧ (∀ cp, (∃ range ∈ joinRanges ranges, range.Has cp) ↔ ∃ range ∈ ranges, range.Has cp)
      ∧ (∀ bound, (∀ range ∈ ranges, bound ≤ range.start) →
          ∀ range ∈ joinRanges ranges, bound ≤ range.start)
      ∧ ∀ bound, (∀ range ∈ ranges, range.stop ≤ bound) →
          ∀ range ∈ joinRanges ranges, range.stop ≤ bound := by
  fun_induction joinRanges ranges with
  | case1 range1 range2 ranges hlt ih =>
      obtain ⟨hfirst, hrest⟩ := pairwise_cons.mp hsorted
      obtain ⟨⟨hpairwise, hsome'⟩, hhas, hstarts, hstops⟩ :=
        ih hrest fun range h => hsome range (mem_cons_of_mem range1 h)
      have hsecond : ∀ range ∈ range2 :: ranges, range2.start ≤ range.start := by
        intro range h
        rcases mem_cons.mp h with rfl | h
        · exact Nat.le_refl _
        · exact (pairwise_cons.mp hrest).1 range h
      refine ⟨⟨pairwise_cons.mpr ⟨fun range h => ?_, hpairwise⟩, fun range h => ?_⟩,
        fun cp => ?_, fun bound hbound range h => ?_, fun bound hbound range h => ?_⟩
      · exact hlt.trans_le (hstarts _ hsecond range h)
      · rcases mem_cons.mp h with rfl | h
        · exact hsome range mem_cons_self
        · exact hsome' range h
      · rw [exists_mem_cons_iff, hhas cp, exists_mem_cons_iff (l := range2 :: ranges)]
      · rcases mem_cons.mp h with rfl | h
        · exact hbound range mem_cons_self
        · exact hstarts bound (fun r hr => hbound r (mem_cons_of_mem range1 hr)) range h
      · rcases mem_cons.mp h with rfl | h
        · exact hbound range mem_cons_self
        · exact hstops bound (fun r hr => hbound r (mem_cons_of_mem range1 hr)) range h
  | case2 range1 range2 ranges hlt ih =>
      obtain ⟨hfirst, hrest⟩ := pairwise_cons.mp hsorted
      obtain ⟨-, hranges⟩ := pairwise_cons.mp hrest
      have hle := hfirst range2 mem_cons_self
      have hsome1 := hsome range1 mem_cons_self
      have hstop : (Range.make range1.start (max range1.stop range2.stop)).stop
          = max range1.stop range2.stop := Range.stop_make (by omega)
      obtain ⟨hapart, hhas, hstarts, hstops⟩ := ih
        (pairwise_cons.mpr ⟨fun range h => by
          rw [Range.start_make]
          exact hfirst range (mem_cons_of_mem range2 h), hranges⟩)
        fun range h => by
          rcases mem_cons.mp h with rfl | h
          · rw [Range.start_make]
            omega
          · exact hsome range (by simp [h])
      refine ⟨hapart, fun cp => ?_, fun bound hbound => hstarts bound fun range h => ?_,
        fun bound hbound => hstops bound fun range h => ?_⟩
      · rw [hhas cp, exists_mem_cons_iff, exists_mem_cons_iff, exists_mem_cons_iff,
          ← or_assoc]
        refine or_congr_left ?_
        unfold Range.Has
        rw [Range.start_make]
        omega
      · rcases mem_cons.mp h with rfl | h
        · rw [Range.start_make]
          exact hbound range1 mem_cons_self
        · exact hbound range (by simp [h])
      · rcases mem_cons.mp h with rfl | h
        · rw [hstop]
          exact Nat.max_le.mpr ⟨hbound range1 mem_cons_self, hbound range2 (by simp)⟩
        · exact hbound range (by simp [h])
  | case3 ranges hne =>
      have hpairwise : ranges.Pairwise fun range1 range2 => range1.stop < range2.start := by
        match ranges with
        | [] => exact .nil
        | [range] => exact pairwise_singleton _ _
        | range1 :: range2 :: ranges => exact (hne range1 range2 ranges rfl).elim
      exact ⟨⟨hpairwise, hsome⟩, fun _ => Iff.rfl, fun _ h => h, fun _ h => h⟩

theorem normalizeRanges_spec {ranges : List Range} :
    Apart (normalizeRanges ranges)
      ∧ (∀ cp, (∃ range ∈ normalizeRanges ranges, range.Has cp) ↔ ∃ range ∈ ranges, range.Has cp)
      ∧ ∀ bound, (∀ range ∈ ranges, range.stop ≤ bound) →
          ∀ range ∈ normalizeRanges ranges, range.stop ≤ bound := by
  have hsort := @pairwise_mergeSort Range (fun range1 range2 => !range2.less range1)
    (fun _ _ _ => Range.not_less_trans) Range.not_less_total ranges
  have hstarts := (hsort.imp (S := fun a b => a.start ≤ b.start) fun {a b} h => by
    simp only [Range.less, not_eq_true', Bool.or_eq_false_iff, decide_eq_false_iff_not] at h
    omega).filter fun range => range.start < range.stop
  obtain ⟨hapart, hhas, -, hstops⟩ := joinRanges_spec hstarts fun range h => by
    simpa using (mem_filter.mp h).2
  refine ⟨hapart, fun cp => ?_, fun bound hbound => hstops bound fun range h => ?_⟩
  · refine (hhas cp).trans ⟨fun ⟨range, h, hcp⟩ => ?_, fun ⟨range, h, hcp⟩ => ?_⟩
    · exact ⟨range, mem_mergeSort.mp (mem_filter.mp h).1, hcp⟩
    · exact ⟨range, mem_filter.mpr ⟨mem_mergeSort.mpr h,
        decide_eq_true (hcp.1.trans_lt hcp.2)⟩, hcp⟩
  · exact hbound range (mem_mergeSort.mp (mem_filter.mp h).1)

theorem rangesToInversionListLoop_eq (ranges : List Range) (ilist : List Nat) :
    rangesToInversionListLoop ranges ilist
      = ilist.reverse ++ ranges.flatMap fun range => [range.start, range.stop] := by
  induction ranges generalizing ilist with
  | nil => simp [rangesToInversionListLoop]
  | cons range ranges ih =>
      rw [rangesToInversionListLoop, ih, rcons, reverse_cons,
        reverse_cons, append_assoc, append_assoc]
      rfl

theorem covers_rangesToInversionList (ranges : List Range) (cp : Nat) :
    Covers (rangesToInversionList ranges) cp ↔ ∃ range ∈ ranges, range.Has cp := by
  rw [rangesToInversionList, rangesToInversionListLoop_eq, reverse_nil]
  induction ranges with
  | nil => simp [Covers]
  | cons range ranges ih =>
      rw [exists_mem_cons_iff, ← ih]
      rfl

theorem canonical_rangesToInversionList {ranges : List Range} (h : Apart ranges)
    (hbound : ∀ range ∈ ranges, range.stop ≤ charCodeLimit) :
    Canonical charCodeLimit (rangesToInversionList ranges) := by
  rw [rangesToInversionList, rangesToInversionListLoop_eq, reverse_nil, nil_append]
  refine ⟨?_, ?_, fun b hb => ?_⟩
  · refine pairwise_flatMap.mpr ⟨fun range hrange => ?_, h.1.imp_of_mem ?_⟩
    · have := h.2 range hrange
      simpa using this
    · intro range1 range2 h1 h2 hlt a ha b hb
      have := h.2 range1 h1
      have := h.2 range2 h2
      simp only [mem_cons, not_mem_nil, or_false] at ha hb
      omega
  · rw [length_flatMap]
    clear hbound h
    induction ranges with
    | nil => rfl
    | cons range ranges ih =>
        simp only [map_cons, sum_cons, length_cons, length_nil] at ih ⊢
        omega
  · obtain ⟨range, hrange, hb⟩ := mem_flatMap.mp hb
    have := h.2 range hrange
    have := hbound range hrange
    simp only [mem_cons, not_mem_nil, or_false] at hb
    omega

theorem rangesToInversionList_spec {ranges : List Range} (h : ∀ range ∈ ranges, range.IsRange) :
    Canonical charCodeLimit (rangesToInversionList (normalizeRanges ranges))
      ∧ ∀ cp, Covers (rangesToInversionList (normalizeRanges ranges)) cp
          ↔ ∃ range ∈ ranges, range.Has cp := by
  obtain ⟨hapart, hhas, hstops⟩ := @normalizeRanges_spec ranges
  have hbound : ∀ range ∈ ranges, range.stop ≤ charCodeLimit := fun range hrange => by
    cases range with
    | codePoint cp => exact h _ hrange
    | pair start stop => exact (h _ hrange).1
  exact ⟨canonical_rangesToInversionList hapart (hstops _ hbound),
    fun cp => (covers_rangesToInversionList _ cp).trans (hhas cp)⟩

end MitScheme.Chrset
