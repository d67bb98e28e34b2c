import MitScheme.Runtime.NormalizationProof

/-!
# Quick checks and normal forms

Composition leads back to the characters of a string that passes the quick check for NFC, so the check may
stand for the conversion, and what the normal forms of a string have in common follows.
-/

namespace MitScheme.Normalization

open Arranging List

variable {T : Tables}

/-! ## What passes the quick checks -/

variable {chars rest seconds starters : List Nat} {fc c c1 : Nat} {string : Str}

theorem nqcLoop_spec {cpLimit : Nat} {charNqc : Nat → Bool} {lastCcc : Nat}
    (hlow : ∀ c < cpLimit, T.ccc c = 0 ∧ charNqc c = true) (h : nqcLoop T cpLimit charNqc chars lastCcc = true) :
    (∀ c ∈ chars, charNqc c = true) ∧ Arranged T.ccc chars
      ∧ ∀ c ∈ chars.head?, T.ccc c = 0 ∨ lastCcc ≤ T.ccc c := by
  induction chars generalizing lastCcc with
  | nil => exact ⟨nofun, isChain_nil, nofun⟩
  | cons c chars ih =>
      rw [nqcLoop] at h
      by_cases hc : c < cpLimit
      · rw [if_pos hc] at h
        obtain ⟨hall, harranged, hhead⟩ := ih h
        refine ⟨fun x hx => ?_, harranged.cons fun x hx => ?_, fun x hx => ?_⟩
        · rcases mem_cons.mp hx with rfl | hx
          · exact (hlow x hc).2
          · exact hall x hx
        · exact .inr (by rw [(hlow c hc).1]; exact Nat.zero_le _)
        · cases hx
          exact .inl (hlow c hc).1
      · rw [if_neg hc, Bool.and_eq_true, Bool.and_eq_true, Bool.or_eq_true, decide_eq_true_iff,
          decide_eq_true_iff] at h
        obtain ⟨⟨hccc, hnqc⟩, hloop⟩ := h
        obtain ⟨hall, harranged, hhead⟩ := ih hloop
        refine ⟨fun x hx => ?_, harranged.cons hhead, fun x hx => ?_⟩
        · rcases mem_cons.mp hx with rfl | hx
          · exact hnqc
          · exact hall x hx
        · cases hx
          exact hccc

/-- A character that does not compose with what is before it. -/
def Inert (T : Tables) (c : Nat) : Prop :=
  (∀ c1 c', ¬Composes T c1 c c') ∧ jamoVowel c = false ∧ jamoTrailing c = false

/-- Some combining marks that do not compose with anything. -/
structure InertMarks (T : Tables) (marks : List Nat) : Prop where
  inert : ∀ c ∈ marks, T.ccc c ≠ 0 ∧ Inert T c
  sorted : marks.Pairwise fun x y => T.ccc x ≤ T.ccc y

/-- Where the next block of a string begins. -/
def Fresh (T : Tables) (rest : List Nat) : Prop := ∀ c ∈ rest.head?, T.ccc c = 0 ∧ Inert T c

theorem leadingRun_append {marks rest : List Nat} (h : ∀ c ∈ marks, T.ccc c ≠ 0)
    (hrest : ∀ c ∈ rest.head?, T.ccc c = 0) : leadingRun T (marks ++ rest) = marks := by
  induction marks with
  | nil =>
      cases rest with
      | nil => rfl
      | cons c rest => exact leadingRun_starter (hrest c rfl) rest
  | cons c marks ih =>
      rw [cons_append, leadingRun_cons (h c mem_cons_self), ih fun x hx => h x (mem_cons_of_mem c hx)]

theorem combinersLoop_passes (hT : T.WellFormed) {fcIndex : Nat} (hi : T.canonicalCm fc = some fcIndex)
    {marks : List Nat} (h : ∀ c ∈ marks, Inert T c) (passed cs : List (Nat × Nat)) (lastCcc : Nat) :
    ∃ lastCcc', (lastCcc' = lastCcc ∨ ∃ c ∈ marks, lastCcc' = T.ccc c)
      ∧ combinersLoop T fc fcIndex passed lastCcc (marks.map (withCcc T) ++ cs)
        = combinersLoop T fc fcIndex (passed ++ marks.map (withCcc T)) lastCcc' cs := by
  induction marks generalizing passed lastCcc with
  | nil => exact ⟨lastCcc, .inl rfl, by rw [map_nil, append_nil]; rfl⟩
  | cons c marks ih =>
      obtain ⟨lastCcc', hlast, heq⟩ := ih (fun x hx => h x (mem_cons_of_mem c hx)) (passed ++ [withCcc T c])
        (T.ccc c)
      refine ⟨lastCcc', .inr ?_, ?_⟩
      · rcases hlast with rfl | ⟨x, hx, rfl⟩
        · exact ⟨c, mem_cons_self, rfl⟩
        · exact ⟨x, mem_cons_of_mem c hx, rfl⟩
      · have hnone : (if lastCcc < (withCcc T c).2 then matchSecond T fcIndex (withCcc T c).1 else none) = none := by
          split
          · exact matchSecond_eq_none hT hi ((h c mem_cons_self).1 fc)
          · rfl
        rw [map_cons, cons_append, combinersLoop, hnone]
        rw [append_assoc] at heq
        exact heq

theorem scanCombiners_inert (hT : T.WellFormed) {fcIndex : Nat} (hi : T.canonicalCm fc = some fcIndex)
    {marks : List Nat} (h : ∀ c ∈ marks, Inert T c) :
    scanCombiners T fc fcIndex (marks.map (withCcc T)) = fc :: marks := by
  obtain ⟨lastCcc, -, heq⟩ := combinersLoop_passes hT hi h [] [] 0
  rw [append_nil] at heq
  rw [scanCombiners, heq, combinersLoop, doneMatching, nil_append, map_fst_withCcc]

theorem inert_run (hT : T.WellFormed) (hrest : Fresh T rest) {marks : List Nat}
    (h : InertMarks T marks) :
    (∀ fc, testFirstChar T fc (marks ++ rest) = fc :: (marks ++ scanForFirstChar T rest))
      ∧ scanForFirstChar T (marks ++ rest) = marks ++ scanForFirstChar T rest := by
  induction marks with
  | nil =>
      refine ⟨fun fc => ?_, rfl⟩
      rw [nil_append, nil_append]
      cases hi : T.canonicalCm fc with
      | none => exact testFirstChar_none hi rest
      | some i =>
          cases rest with
          | nil => rw [testFirstChar_nil, scanForFirstChar]
          | cons c rest =>
              obtain ⟨hc, hinert⟩ := hrest c rfl
              rw [testFirstChar_starter hi hc, matchSecond_eq_none hT hi (hinert.1 fc)]
  | cons c marks ih =>
      have hmarks : InertMarks T marks :=
        ⟨fun x hx => h.inert x (mem_cons_of_mem c hx), (pairwise_cons.mp h.sorted).2⟩
      have hscan : scanForFirstChar T (c :: marks ++ rest) = c :: marks ++ scanForFirstChar T rest := by
        rw [cons_append, scanForFirstChar_test, (ih hmarks).1]
        · rfl
        · intro _ v hv
          cases marks with
          | nil => exact (hrest v hv).2.2.1
          | cons x marks =>
              cases hv
              exact (hmarks.inert v mem_cons_self).2.2.1
      refine ⟨fun fc => ?_, hscan⟩
      cases hi : T.canonicalCm fc with
      | none => rw [testFirstChar_none hi, hscan]
      | some i =>
          have hrun : leadingRun T (c :: (marks ++ rest)) = c :: marks :=
            @leadingRun_append T (c :: marks) rest (fun x hx => (h.inert x hx).1) fun x hx => (hrest x hx).1
          have hinert : ∀ x ∈ c :: marks, Inert T x := fun x hx => (h.inert x hx).2
          have hdrop : ((c :: marks) ++ rest).drop (c :: marks).length = rest := drop_left
          rw [cons_append] at hdrop
          rw [cons_append, testFirstChar_marks hi (h.inert c mem_cons_self).1, getCombiners_eq, hrun, hdrop,
            scanCombiners_inert hT hi hinert, cons_append]

/-! ## Primary composites -/

/-- A character composes with some others, one after the other. -/
inductive Chain (T : Tables) : Nat → List Nat → Nat → Prop
  | nil (c : Nat) : Chain T c [] c
  | cons {c1 c2 c' c : Nat} {seconds : List Nat} (h : Composes T c1 c2 c') (hchain : Chain T c' seconds c) :
      Chain T c1 (c2 :: seconds) c

theorem Chain.concat {c2 c' : Nat} (h : Chain T c1 seconds c) (hc : Composes T c c2 c') :
    Chain T c1 (seconds ++ [c2]) c' := by
  induction h with
  | nil c => exact .cons hc (.nil c')
  | cons h _ ih => exact .cons h (ih hc)

/-- How a character that passes the quick check is composed again from what it decomposes into: from a
starter that nothing composes with, first with starters, then with marks. -/
structure Recomposes (T : Tables) (c first : Nat) (starters marks : List Nat) : Prop where
  decomposes : decomposeChar T c = first :: (starters ++ marks)
  inert : Inert T first
  leading : jamoLeading first = true → starters = [] ∧ marks = []
  chain : Chain T first (starters ++ marks) c
  starters_ccc : ∀ x ∈ starters, T.ccc x = 0
  marks_ccc : ∀ x ∈ marks, T.ccc x ≠ 0

theorem not_hangul (h : isHangul c = false) :
    jamoLeading c = false ∧ jamoVowel c = false ∧ jamoTrailing c = false ∧ jamoPrecomposed c = false := by
  rw [isHangul, Bool.or_eq_false_iff, Bool.or_eq_false_iff, Bool.or_eq_false_iff] at h
  exact ⟨h.1.1.1, h.1.1.2, h.1.2, h.2⟩

theorem Chain.eq_of_nil (h : Chain T c1 [] c) : c1 = c := by
  cases h
  rfl

theorem Recomposes.concat (hT : T.WellFormed) {c1 c2 c first : Nat} {starters marks : List Nat}
    (h : Recomposes T c1 first starters marks) (hc : Composes T c1 c2 c) :
    ∃ starters' marks', Recomposes T c first starters' marks' := by
  have hdecomposes : decomposeChar T c = first :: (starters ++ marks ++ [c2]) := by
    rw [decomposeChar_composes hT hc, h.decomposes, cons_append]
  have hleading : jamoLeading first ≠ true := by
    intro hl
    obtain ⟨rfl, rfl⟩ := h.leading hl
    obtain rfl := h.chain.eq_of_nil
    obtain ⟨-, -, -, hhangul, -⟩ := hT.composes _ _ _ hc
    rw [(not_hangul hhangul).1] at hl
    cases hl
  by_cases hzero : T.ccc c2 = 0
  · have hmarks : marks = [] := by
      rcases hT.composes_first c1 c2 c hc with hself | ⟨d1, d2, hd, hd2⟩
      · have hlist := h.decomposes
        rw [decomposeChar_self hself] at hlist
        exact (append_eq_nil_iff.mp (List.cons.inj hlist).2.symm).2
      · by_contra hne
        obtain ⟨marks', x, rfl⟩ := (eq_nil_or_concat marks).resolve_left hne
        have hlist := h.decomposes
        rw [concat_eq_append, decomposeChar_composes hT hd, ← append_assoc, ← cons_append] at hlist
        cases (append_inj' hlist rfl).2
        refine h.marks_ccc d2 ?_ (hd2 hzero)
        rw [concat_eq_append]
        exact mem_append_right _ (mem_singleton_self d2)
    subst hmarks
    refine ⟨starters ++ [c2], [], ?_, h.inert, fun hl => absurd hl hleading, ?_, fun x hx => ?_, nofun⟩
    · rw [hdecomposes, append_nil, append_nil]
    · have hchain := h.chain.concat hc
      rwa [append_nil] at hchain ⊢
    · rcases mem_append.mp hx with hx | hx
      · exact h.starters_ccc x hx
      · rwa [mem_singleton.mp hx]
  · refine ⟨starters, marks ++ [c2], ?_, h.inert, fun hl => absurd hl hleading, ?_, h.starters_ccc, fun x hx => ?_⟩
    · rw [hdecomposes, append_assoc]
    · have hchain := h.chain.concat hc
      rwa [append_assoc] at hchain
    · rcases mem_append.mp hx with hx | hx
      · exact h.marks_ccc x hx
      · rwa [mem_singleton.mp hx]

theorem recomposes (hT : T.WellFormed) (c : Nat) (hqc : T.nfcQuickCheck c = true)
    (hp : jamoPrecomposed c = false) : ∃ first starters marks, Recomposes T c first starters marks := by
  induction hn : T.depth c using Nat.strongRecOn generalizing c with
  | ind n ih =>
      subst hn
      obtain ⟨hnone, hv, ht, hself | ⟨c1, c2, hcomposes, hqc1⟩⟩ := hT.nfc c hqc
      · refine ⟨c, [], [], ?_, ⟨hnone, hv, ht⟩, fun _ => ⟨rfl, rfl⟩, .nil c, nofun, nofun⟩
        exact decomposeChar_self ⟨hp, hself⟩
      · obtain ⟨hdm, -, -, hhangul, -⟩ := hT.composes c1 c2 c hcomposes
        obtain ⟨-, -, -, hp1⟩ := not_hangul hhangul
        have hlt : T.depth c1 < T.depth c := by
          have h := T.depth_first c (by rw [hdm]; nofun)
          rwa [hdm] at h
        obtain ⟨first, starters, marks, h⟩ := ih _ hlt c1 hqc1 hp1 rfl
        exact ⟨first, h.concat hT hcomposes⟩

theorem Chain.split {l r : List Nat} (h : Chain T c1 (l ++ r) c) :
    ∃ c', Chain T c1 l c' ∧ Chain T c' r c := by
  induction l generalizing c1 with
  | nil => exact ⟨c1, .nil c1, h⟩
  | cons c2 l ih =>
      cases h with
      | cons hc hchain =>
          obtain ⟨c', hl, hr⟩ := ih hchain
          exact ⟨c', .cons hc hl, hr⟩

theorem Composes.canonicalCm {c1 c2 c : Nat} (h : Composes T c1 c2 c) : ∃ i, T.canonicalCm c1 = some i := by
  obtain ⟨i, -, hi, -⟩ := h
  exact ⟨i, hi⟩

theorem testFirstChar_chain (hT : T.WellFormed) (h : Chain T fc starters c)
    (hstarters : ∀ x ∈ starters, T.ccc x = 0) (rest : List Nat) :
    testFirstChar T fc (starters ++ rest) = testFirstChar T c rest := by
  induction h with
  | nil c => rfl
  | @cons c1 c2 c' c starters hc hchain ih =>
      obtain ⟨i, hi⟩ := hc.canonicalCm
      rw [cons_append, testFirstChar_starter hi (hstarters c2 mem_cons_self),
        (matchSecond_eq_some hT hi).mpr hc]
      exact ih fun x hx => hstarters x (mem_cons_of_mem c2 hx)

theorem scanCombiners_chain (hT : T.WellFormed) {i : Nat} {marks : List Nat} (h : Chain T fc marks c)
    (hi : T.canonicalCm fc = some i) (hmarks : ∀ x ∈ marks, T.ccc x ≠ 0)
    (hsorted : marks.Pairwise fun x y => T.ccc x ≤ T.ccc y) {others : List Nat} (hothers : ∀ x ∈ others, Inert T x) :
    scanCombiners T fc i ((marks.merge others fun x y => T.ccc x ≤ T.ccc y).map (withCcc T)) = c :: others := by
  induction h generalizing i with
  | nil c =>
      rw [nil_merge]
      exact scanCombiners_inert hT hi hothers
  | @cons c1 c2 c' c marks hc hchain ih =>
      obtain ⟨pre, post, rfl, hpre, hmerge, hmerge'⟩ := merge_cons hsorted others
      obtain ⟨lastCcc, hlast, heq⟩ := combinersLoop_passes hT hi
        (fun x hx => hothers x (mem_append_left post hx)) [] (withCcc T c2
          :: (marks.merge post fun x y => T.ccc x ≤ T.ccc y).map (withCcc T)) 0
      have hlt : lastCcc < T.ccc c2 := by
        rcases hlast with rfl | ⟨x, hx, rfl⟩
        · exact Nat.pos_of_ne_zero (hmarks c2 mem_cons_self)
        · exact hpre x hx
      have hmatch : (if lastCcc < (withCcc T c2).2 then matchSecond T i (withCcc T c2).1 else none) = some c' := by
        rw [withCcc, if_pos hlt]
        exact (matchSecond_eq_some hT hi).mpr hc
      rw [hmerge, map_append, map_cons, scanCombiners, heq, combinersLoop, hmatch, nil_append,
        ← map_append, ← hmerge']
      dsimp only
      cases hi' : T.canonicalCm c' with
      | some i' =>
          exact ih hi' (fun x hx => hmarks x (mem_cons_of_mem c2 hx)) (pairwise_cons.mp hsorted).2
      | none =>
          have hnil : marks = [] ∧ c' = c := by
            cases hchain with
            | nil => exact ⟨rfl, rfl⟩
            | cons hc' _ =>
                obtain ⟨i', hi''⟩ := hc'.canonicalCm
                rw [hi'] at hi''
                cases hi''
          obtain ⟨rfl, rfl⟩ := hnil
          rw [nil_merge]
          rw [doneMatching, map_fst_withCcc]

/-! ## Blocks -/

theorem InertMarks.arranged {marks : List Nat} (h : InertMarks T marks) : Arranged T.ccc marks :=
  arranged_of_pairwise h.sorted

theorem before_of_starter {x : Nat} (h : T.ccc c = 0) : Before T.ccc c x :=
  .inr (by rw [h]; exact Nat.zero_le _)

theorem arranged_starters {l : List Nat} (h : ∀ x ∈ starters, T.ccc x = 0) (hl : Arranged T.ccc l) :
    Arranged T.ccc (starters ++ l) := by
  induction starters with
  | nil => exact hl
  | cons c starters ih =>
      exact List.IsChain.cons (ih fun x hx => h x (mem_cons_of_mem c hx)) fun _ _ =>
        before_of_starter (h c mem_cons_self)

theorem Chain.first_starter (hT : T.WellFormed) {first : Nat} (h : Chain T first seconds c)
    (hc : T.ccc c = 0) : T.ccc first = 0 := by
  cases h with
  | nil => exact hc
  | cons hcomposes _ => exact (hT.composes _ _ _ hcomposes).2.1

theorem Recomposes.scan (hT : T.WellFormed) {first : Nat}
    (h : Recomposes T c first starters seconds) (hc : T.ccc c = 0) {marks : List Nat}
    (hmarks : InertMarks T marks) (hrest : Fresh T rest) :
    scanForFirstChar T (arrange T.ccc (decomposeChar T c ++ marks) ++ rest)
      = c :: (marks ++ scanForFirstChar T rest) := by
  have hordered := hT.ordered c
  rw [h.decomposes] at hordered
  have hsorted : seconds.Pairwise fun x y => T.ccc x ≤ T.ccc y := by
    refine Arranged.pairwise (List.IsChain.suffix hordered ?_) h.marks_ccc
    exact (suffix_append starters seconds).trans (suffix_cons first _)
  have hmerged : (seconds.merge marks fun x y => T.ccc x ≤ T.ccc y).Pairwise fun x y => T.ccc x ≤ T.ccc y := by
    have hle : (seconds.merge marks fun x y => T.ccc x ≤ T.ccc y).Pairwise
        fun x y => decide (T.ccc x ≤ T.ccc y) = true := by
      refine pairwise_merge (fun x y z hxy hyz => ?_) (fun x y => ?_) seconds marks ?_ ?_
      · exact decide_eq_true ((of_decide_eq_true hxy).trans (of_decide_eq_true hyz))
      · simpa using Nat.le_total (T.ccc x) (T.ccc y)
      · exact hsorted.imp decide_eq_true
      · exact hmarks.sorted.imp decide_eq_true
    exact hle.imp of_decide_eq_true
  have hzero : ∀ x ∈ seconds ++ marks, T.ccc x ≠ 0 := by
    intro x hx
    rcases mem_append.mp hx with hx | hx
    · exact h.marks_ccc x hx
    · exact (hmarks.inert x hx).1
  have hfirst := h.chain.first_starter hT hc
  have harrange : arrange T.ccc (decomposeChar T c ++ marks)
      = first :: (starters ++ seconds.merge marks fun x y => T.ccc x ≤ T.ccc y) := by
    rw [h.decomposes, cons_append, append_assoc]
    rw [(((Alike.refl starters).append (alike_merge hsorted hzero)).cons first).arrange_eq]
    refine arrange_of_arranged (List.IsChain.cons ?_ fun _ _ => before_of_starter hfirst)
    exact arranged_starters h.starters_ccc (arranged_of_pairwise hmerged)
  obtain ⟨c', hstarters, hseconds⟩ := h.chain.split
  have hleading : jamoLeading first = true →
      ∀ v ∈ ((starters ++ seconds.merge marks fun x y => T.ccc x ≤ T.ccc y) ++ rest).head?, jamoVowel v = false := by
    intro hl v hv
    obtain ⟨rfl, rfl⟩ := h.leading hl
    rw [nil_merge] at hv
    cases marks with
    | nil => exact (hrest v hv).2.2.1
    | cons x marks =>
        cases hv
        exact (hmarks.inert v mem_cons_self).2.2.1
  rw [harrange, cons_append, scanForFirstChar_test hleading, append_assoc,
    testFirstChar_chain hT hstarters h.starters_ccc]
  cases seconds with
  | nil =>
      obtain rfl := hseconds.eq_of_nil
      rw [nil_merge]
      exact (inert_run hT hrest hmarks).1 c'
  | cons x seconds =>
      obtain ⟨i, hi⟩ : ∃ i, T.canonicalCm c' = some i := by
        cases hseconds with
        | cons hcomposes _ => exact hcomposes.canonicalCm
      have hall : ∀ y ∈ (x :: seconds).merge marks (fun x y => T.ccc x ≤ T.ccc y), T.ccc y ≠ 0 := by
        intro y hy
        exact hzero y (mem_append.mpr (mem_merge.mp hy))
      have hcombiners := scanCombiners_chain hT hseconds hi h.marks_ccc hsorted fun y hy => (hmarks.inert y hy).2
      have hrun := leadingRun_append hall fun y hy => (hrest y hy).1
      cases hmerge : (x :: seconds).merge marks fun x y => T.ccc x ≤ T.ccc y with
      | nil =>
          have hlength := congrArg List.length hmerge
          rw [length_merge, length_cons, length_nil] at hlength
          omega
      | cons y merged =>
          rw [hmerge] at hall hcombiners hrun
          have hdrop : ((y :: merged) ++ rest).drop (y :: merged).length = rest := drop_left
          rw [cons_append] at hrun hdrop
          rw [cons_append, testFirstChar_marks hi (hall y mem_cons_self), getCombiners_eq, hrun, hcombiners,
            hdrop, cons_append]

theorem scan_block (hT : T.WellFormed) (hqc : T.nfcQuickCheck c = true) (hc : T.ccc c = 0)
    {marks : List Nat} (hmarks : InertMarks T marks) (hrest : Fresh T rest) :
    scanForFirstChar T (arrange T.ccc (decomposeChar T c ++ marks) ++ rest)
      = c :: (marks ++ scanForFirstChar T rest) := by
  have hhead : ∀ x ∈ (marks ++ rest).head?, Inert T x := by
    intro x hx
    cases marks with
    | nil => exact (hrest x hx).2
    | cons y marks =>
        cases hx
        exact (hmarks.inert x mem_cons_self).2
  cases hp : jamoPrecomposed c with
  | true =>
      obtain ⟨l, v, hl, hv, hcases⟩ := jamoDecompose_cases hp
      have hstarter : ∀ x, jamoLeading x = true ∨ jamoVowel x = true ∨ jamoTrailing x = true → T.ccc x = 0 := by
        intro x hx
        refine (hT.hangul x ?_).2
        rw [isHangul_eq_true]
        rcases hx with hx | hx | hx
        · exact .inl hx
        · exact .inr (.inl hx)
        · exact .inr (.inr (.inl hx))
      have hcons : ∀ x, T.ccc x = 0 → ∀ l : List Nat, Arranged T.ccc l → Arranged T.ccc (x :: l) :=
        fun x hx l hl => List.IsChain.cons hl fun y _ => before_of_starter hx
      have hl0 := hstarter l (.inl hl)
      have hv0 := hstarter v (.inr (.inl hv))
      rw [decomposeChar_precomposed hp]
      rcases hcases with ⟨heq, hcompose⟩ | ⟨t, ht, heq, hcompose⟩
      · rw [heq]
        change scanForFirstChar T (arrange T.ccc (l :: v :: marks) ++ rest) = _
        rw [arrange_of_arranged (hcons l hl0 _ (hcons v hv0 _ hmarks.arranged)), cons_append, cons_append]
        rw [scanForFirstChar_pair hl hv fun x hx => (hhead x hx).2.2, (inert_run hT hrest hmarks).2, hcompose]
      · have ht0 := hstarter t (.inr (.inr ht))
        rw [heq]
        change scanForFirstChar T (arrange T.ccc (l :: v :: t :: marks) ++ rest) = _
        rw [arrange_of_arranged (hcons l hl0 _ (hcons v hv0 _ (hcons t ht0 _ hmarks.arranged))), cons_append,
          cons_append, cons_append]
        rw [scanForFirstChar_triple hl hv ht, (inert_run hT hrest hmarks).2, hcompose]
  | false =>
      obtain ⟨first, starters, seconds, h⟩ := recomposes hT c hqc hp
      exact h.scan hT hc hmarks hrest

/-- The characters of a string that passes the quick check, and how they are arranged. -/
structure Passes (T : Tables) (chars : List Nat) : Prop where
  check : ∀ c ∈ chars, T.nfcQuickCheck c = true
  arranged : Arranged T.ccc chars

theorem Passes.suffix {l l' : List Nat} (h : Passes T l) (hsuffix : l' <:+ l) : Passes T l' :=
  ⟨fun c hc => h.check c (hsuffix.subset hc), List.IsChain.suffix h.arranged hsuffix⟩

theorem mark_decomposed (hT : T.WellFormed) (hqc : T.nfcQuickCheck c = true) (hc : T.ccc c ≠ 0) :
    Decomposed T c ∧ Inert T c := by
  obtain ⟨hnone, hv, ht, hself | ⟨c1, c2, hcomposes, -⟩⟩ := hT.nfc c hqc
  · refine ⟨⟨?_, hself⟩, hnone, hv, ht⟩
    rw [← Bool.not_eq_true]
    intro hp
    refine hc (hT.hangul c ?_).2
    rw [isHangul_eq_true]
    exact .inr (.inr (.inr hp))
  · exact absurd (hT.composes c1 c2 c hcomposes).2.2.1 hc

theorem Passes.marks (hT : T.WellFormed) (h : Passes T chars) :
    InertMarks T (leadingRun T chars) ∧ decompose T (leadingRun T chars) = leadingRun T chars := by
  have hzero : ∀ x ∈ leadingRun T chars, T.ccc x ≠ 0 := by
    intro x hx
    simpa using mem_takeWhile_imp hx
  have hmark : ∀ x ∈ leadingRun T chars, Decomposed T x ∧ Inert T x := fun x hx =>
    mark_decomposed hT (h.check x ((takeWhile_sublist _).subset hx)) (hzero x hx)
  refine ⟨⟨fun x hx => ⟨hzero x hx, (hmark x hx).2⟩, ?_⟩, decompose_self fun x hx => (hmark x hx).1⟩
  exact Arranged.pairwise (leadingRun_arranged h.arranged) hzero

theorem decomposeChar_fresh (hT : T.WellFormed) (hqc : T.nfcQuickCheck c = true) (hc : T.ccc c = 0) :
    ∃ first rest, decomposeChar T c = first :: rest ∧ T.ccc first = 0 ∧ Inert T first := by
  cases hp : jamoPrecomposed c with
  | true =>
      obtain ⟨l, v, hl, -, hcases⟩ := jamoDecompose_cases hp
      have hhangul : isHangul l = true := isHangul_eq_true.mpr (.inl hl)
      have hinert : Inert T l := by
        refine ⟨fun c1 c' h => ?_, ?_, ?_⟩
        · rw [(hT.composes c1 l c' h).2.2.2.2.1] at hhangul
          cases hhangul
        · rw [← Bool.not_eq_true, jamoVowel_iff]
          rw [jamoLeading_iff] at hl
          omega
        · rw [← Bool.not_eq_true, jamoTrailing_iff]
          rw [jamoLeading_iff] at hl
          omega
      rw [decomposeChar_precomposed hp]
      rcases hcases with ⟨heq, -⟩ | ⟨t, -, heq, -⟩
      · exact ⟨l, _, heq, (hT.hangul l hhangul).2, hinert⟩
      · exact ⟨l, _, heq, (hT.hangul l hhangul).2, hinert⟩
  | false =>
      obtain ⟨first, starters, seconds, h⟩ := recomposes hT c hqc hp
      exact ⟨first, _, h.decomposes, h.chain.first_starter hT hc, h.inert⟩

theorem leadingRun_rest (h : leadingRun T chars ++ rest = chars) :
    ∀ c ∈ rest.head?, T.ccc c = 0 := by
  induction chars generalizing rest with
  | nil =>
      obtain rfl := (append_eq_nil_iff.mp h).2
      exact nofun
  | cons c chars ih =>
      by_cases hc : T.ccc c = 0
      · rw [leadingRun_starter hc] at h
        subst h
        intro x hx
        cases hx
        exact hc
      · rw [leadingRun_cons hc] at h
        exact ih (List.cons.inj h).2

theorem arrange_decompose_append
    (h : rest ≠ [] → ∃ first r, decompose T rest = first :: r ∧ T.ccc first = 0 ∧ Inert T first) (l : List Nat) :
    arrange T.ccc (l ++ decompose T rest) = arrange T.ccc l ++ arrange T.ccc (decompose T rest)
      ∧ Fresh T (arrange T.ccc (decompose T rest)) := by
  cases rest with
  | nil =>
      rw [decompose, flatMap_nil, append_nil]
      refine ⟨(append_nil _).symm, ?_⟩
      intro c hc
      cases hc
  | cons x rest =>
      obtain ⟨first, r, hr, hzero, hinert⟩ := h (cons_ne_nil x rest)
      rw [hr]
      refine ⟨arrange_append hzero, fun y hy => ?_⟩
      rw [arrange_cons hzero] at hy
      cases hy
      exact ⟨hzero, hinert⟩

theorem scan_of_passes (hT : T.WellFormed) (chars : List Nat) (h : Passes T chars)
    (hstarter : ∀ c ∈ chars.head?, T.ccc c = 0) :
    scanForFirstChar T (arrange T.ccc (decompose T chars)) = chars
      ∧ (chars ≠ [] → ∃ first rest, decompose T chars = first :: rest ∧ T.ccc first = 0 ∧ Inert T first) := by
  induction hn : chars.length using Nat.strongRecOn generalizing chars with
  | ind n ih =>
      subst hn
      cases chars with
      | nil => exact ⟨by rw [decompose, flatMap_nil, arrange, foldl_nil, reverse_nil, scanForFirstChar],
          absurd rfl⟩
      | cons c chars =>
          have hqc := h.check c mem_cons_self
          have hc := hstarter c rfl
          have htail : Passes T chars := h.suffix (suffix_cons c chars)
          obtain ⟨hmarks, hself⟩ := htail.marks hT
          obtain ⟨rest, hrest⟩ : leadingRun T chars <+: chars := takeWhile_prefix _
          have hsuffix : rest <:+ chars := ⟨_, hrest⟩
          obtain ⟨hscan, hfirst⟩ := ih rest.length (Nat.lt_succ_of_le hsuffix.length_le) rest (htail.suffix hsuffix)
            (leadingRun_rest hrest) rfl
          obtain ⟨hsplit, hfresh⟩ := arrange_decompose_append hfirst (decomposeChar T c ++ leadingRun T chars)
          have hdecompose : decompose T (c :: chars)
              = (decomposeChar T c ++ leadingRun T chars) ++ decompose T rest := by
            rw [decompose_cons, append_assoc]
            conv_lhs => rw [← hrest]
            rw [decompose_append, hself]
          refine ⟨?_, fun _ => ?_⟩
          · rw [hdecompose, hsplit, scan_block hT hqc hc hmarks hfresh, hscan, hrest]
          · obtain ⟨first, r, hr, hzero, hinert⟩ := decomposeChar_fresh hT hqc hc
            exact ⟨first, r ++ decompose T chars, by rw [decompose_cons, hr, cons_append], hzero, hinert⟩

theorem composition_of_passes (hT : T.WellFormed) (h : Passes T chars) :
    canonicalComposition T (canonicalDecomposition T chars) = chars := by
  obtain ⟨hmarks, hself⟩ := h.marks hT
  obtain ⟨rest, hrest⟩ : leadingRun T chars <+: chars := takeWhile_prefix _
  obtain ⟨hscan, hfirst⟩ := scan_of_passes hT rest (h.suffix ⟨_, hrest⟩) (leadingRun_rest hrest)
  obtain ⟨hsplit, hfresh⟩ := arrange_decompose_append hfirst (leadingRun T chars)
  have hdecompose : decompose T chars = leadingRun T chars ++ decompose T rest := by
    conv_lhs => rw [← hrest]
    rw [decompose_append, hself]
  rw [canonicalComposition, canonicalDecomposition_eq, hdecompose, hsplit, arrange_of_arranged hmarks.arranged,
    (inert_run hT hfresh hmarks).2, hscan, hrest]

theorem passes_of_nfcQc (hT : T.WellFormed) (h : nfcQc T chars = true) : Passes T chars := by
  obtain ⟨hcheck, harranged, -⟩ := nqcLoop_spec hT.nfc_low h
  exact ⟨hcheck, harranged⟩

theorem decomposition_of_nfdQc (hT : T.WellFormed) (h : nfdQc T chars = true) :
    canonicalDecomposition T chars = chars := by
  have hlow : ∀ c < 0xC0, T.ccc c = 0 ∧ T.nfdQuickCheck c = true := fun c hc =>
    ⟨(hT.nfc_low c (by omega)).1, hT.nfd_low c hc⟩
  obtain ⟨hcheck, harranged, -⟩ := nqcLoop_spec hlow h
  exact canonicalDecomposition_self (fun c hc => hT.nfd c (hcheck c hc)) harranged

/-! ## Strings -/

/-- What holds of the strings that there are: what is stored in bytes is below 256, and flags are set on
what is in the normal form. -/
def Ustring.Valid (T : Tables) : Ustring → Prop
  | .legacy chars => ∀ c ∈ chars, c < 0x100
  | .ustring chars cpSize inNfc inNfd =>
      (cpSize = 1 → ∀ c ∈ chars, c < 0x100)
        ∧ (inNfc = true → canonicalComposition T (canonicalDecomposition T chars) = chars)
        ∧ (inNfd = true → canonicalDecomposition T chars = chars)

def Str.Valid (T : Tables) : Str → Prop
  | .ustring string => string.Valid T
  | .slice string start length => string.Valid T ∧ start + length ≤ string.chars.length

theorem nqcLoop_of_low {cpLimit : Nat} {charNqc : Nat → Bool} (h : ∀ c ∈ chars, c < cpLimit)
    (lastCcc : Nat) : nqcLoop T cpLimit charNqc chars lastCcc = true := by
  induction chars generalizing lastCcc with
  | nil => rfl
  | cons c chars ih =>
      rw [nqcLoop, if_pos (h c mem_cons_self)]
      exact ih (fun x hx => h x (mem_cons_of_mem c hx)) 0

theorem nfcQc_of_low (h : ∀ c ∈ chars, c < 0x300) : nfcQc T chars = true := nqcLoop_of_low h 0

theorem nfdQc_of_low (h : ∀ c ∈ chars, c < 0xC0) : nfdQc T chars = true := nqcLoop_of_low h 0

theorem composition_of_ustringNfcQc (hT : T.WellFormed) {string : Ustring} (hvalid : string.Valid T)
    {start stop : Nat} (h : ustringNfcQc T string start stop = true) :
    canonicalComposition T (canonicalDecomposition T (slice string.chars start stop))
      = slice string.chars start stop := by
  have hbytes : string.cpSize = 1 → ∀ c ∈ string.chars, c < 0x100 := by
    intro hsize
    cases string with
    | legacy chars => exact hvalid
    | ustring chars cpSize inNfc inNfd => exact hvalid.1 hsize
  rw [ustringNfcQc, Bool.or_eq_true, decide_eq_true_iff] at h
  refine composition_of_passes hT (passes_of_nfcQc hT ?_)
  rcases h with hsize | h
  · refine nfcQc_of_low fun c hc => ?_
    have := hbytes hsize c (mem_of_mem_drop (mem_of_mem_take hc))
    omega
  · exact h

theorem composition_of_stringInNfc (hT : T.WellFormed) (hvalid : string.Valid T)
    (h : stringInNfc T string = true) :
    canonicalComposition T (canonicalDecomposition T string.chars) = string.chars := by
  match string with
  | .ustring (.legacy chars) =>
      refine composition_of_passes hT (passes_of_nfcQc hT (nfcQc_of_low fun c hc => ?_))
      have : c < 0x100 := hvalid c hc
      omega
  | .ustring (.ustring chars cpSize inNfc inNfd) =>
      rw [stringInNfc] at h
      by_cases hsize : cpSize = 0
      · rw [if_pos hsize] at h
        have heq := @composition_of_ustringNfcQc T hT (.ustring chars cpSize inNfc inNfd) hvalid _ _ h
        rw [Ustring.chars, slice_all] at heq
        exact heq
      · rw [if_neg hsize] at h
        exact hvalid.2.1 h
  | .slice string start length => exact composition_of_ustringNfcQc hT hvalid.1 h

theorem decomposition_of_stringInNfd (hT : T.WellFormed) (hvalid : string.Valid T)
    (h : stringInNfd T string = true) : canonicalDecomposition T string.chars = string.chars := by
  match string with
  | .ustring (.legacy chars) =>
      rw [stringInNfd, ustringNfdQc, Ustring.chars, slice_all] at h
      exact decomposition_of_nfdQc hT h
  | .ustring (.ustring chars cpSize inNfc inNfd) =>
      rw [stringInNfd] at h
      by_cases hsize : cpSize = 0
      · rw [if_pos hsize, ustringNfdQc, Ustring.chars, slice_all] at h
        exact decomposition_of_nfdQc hT h
      · rw [if_neg hsize] at h
        exact hvalid.2.2 h
  | .slice string start length => exact decomposition_of_nfdQc hT h

theorem le_foldl_max (chars : List Nat) (n : Nat) : n ≤ chars.foldl max n ∧ ∀ c ∈ chars, c ≤ chars.foldl max n := by
  induction chars generalizing n with
  | nil => exact ⟨le_rfl, nofun⟩
  | cons c chars ih =>
      obtain ⟨hle, hall⟩ := ih (max n c)
      refine ⟨(Nat.le_max_left n c).trans hle, fun x hx => ?_⟩
      rcases mem_cons.mp hx with rfl | hx
      · exact (Nat.le_max_right n x).trans hle
      · exact hall x hx

theorem immutableUstring_valid (hT : T.WellFormed) (chars : List Nat) :
    (immutableUstring chars).Valid T ∧ (immutableUstring chars).chars = chars := by
  have hmax : ∀ limit, chars.foldl max 0 < limit → ∀ c ∈ chars, c < limit :=
    fun limit hlimit c hc => ((le_foldl_max chars 0).2 c hc).trans_lt hlimit
  have hnfc : chars.foldl max 0 < 0x300 →
      canonicalComposition T (canonicalDecomposition T chars) = chars := fun hlimit =>
    composition_of_passes hT (passes_of_nfcQc hT (nfcQc_of_low (hmax _ hlimit)))
  have hnfd : chars.foldl max 0 < 0xC0 → canonicalDecomposition T chars = chars := fun hlimit =>
    decomposition_of_nfdQc hT (nfdQc_of_low (hmax _ hlimit))
  rw [immutableUstring]
  by_cases h1 : chars.foldl max 0 < 0x100
  · rw [if_pos h1]
    exact ⟨⟨fun _ => hmax _ h1, fun _ => hnfc (by omega), fun h => hnfd (of_decide_eq_true h)⟩, rfl⟩
  · rw [if_neg h1]
    by_cases h2 : chars.foldl max 0 < 0x10000
    · rw [if_pos h2]
      exact ⟨⟨nofun, fun h => hnfc (of_decide_eq_true h), nofun⟩, rfl⟩
    · rw [if_neg h2]
      exact ⟨⟨nofun, nofun, nofun⟩, rfl⟩

theorem setInNfc_valid {string : Ustring} (h : string.Valid T)
    (hnfc : canonicalComposition T (canonicalDecomposition T string.chars) = string.chars) :
    string.setInNfc.Valid T ∧ string.setInNfc.chars = string.chars := by
  cases string with
  | legacy chars => exact ⟨h, rfl⟩
  | ustring chars cpSize inNfc inNfd => exact ⟨⟨h.1, fun _ => hnfc, h.2.2⟩, rfl⟩

theorem setInNfd_valid {string : Ustring} (h : string.Valid T)
    (hnfd : canonicalDecomposition T string.chars = string.chars) :
    string.setInNfd.Valid T ∧ string.setInNfd.chars = string.chars := by
  cases string with
  | legacy chars => exact ⟨h, rfl⟩
  | ustring chars cpSize inNfc inNfd => exact ⟨⟨h.1, h.2.1, fun _ => hnfd⟩, rfl⟩

theorem canonicalComposition_idem (hT : T.WellFormed) (chars : List Nat) :
    canonicalComposition T (canonicalDecomposition T (canonicalComposition T (canonicalDecomposition T chars)))
      = canonicalComposition T (canonicalDecomposition T chars) := by
  rw [canonicalDecomposition_canonicalComposition hT (ordered_canonicalDecomposition hT chars)]

theorem stringToNfc_spec (hT : T.WellFormed) {string : Str} (hvalid : string.Valid T) :
    (stringToNfc T string).Valid T
      ∧ (stringToNfc T string).chars = canonicalComposition T (canonicalDecomposition T string.chars) := by
  rw [stringToNfc]
  by_cases hflag : flaggedNfc string = true
  · rw [if_pos hflag]
    refine ⟨hvalid, ?_⟩
    match string with
    | .ustring (.legacy chars) => cases hflag
    | .ustring (.ustring chars cpSize inNfc inNfd) => exact (hvalid.2.1 hflag).symm
    | .slice string start length => cases hflag
  · rw [if_neg hflag]
    by_cases hnfc : stringInNfc T string = true
    · rw [if_pos hnfc]
      have heq := composition_of_stringInNfc hT hvalid hnfc
      obtain ⟨himmutable, hchars⟩ := immutableUstring_valid hT string.chars
      obtain ⟨hset, hchars'⟩ := setInNfc_valid himmutable (by rw [hchars]; exact heq)
      exact ⟨hset, by rw [heq]; exact hchars'.trans hchars⟩
    · have hdecomposed : (if stringInNfd T string = true then string.chars
          else canonicalDecomposition T string.chars) = canonicalDecomposition T string.chars := by
        split
        · rename_i hnfd
          exact (decomposition_of_stringInNfd hT hvalid hnfd).symm
        · rfl
      rw [if_neg hnfc, hdecomposed]
      obtain ⟨himmutable, hchars⟩ := immutableUstring_valid hT
        (canonicalComposition T (canonicalDecomposition T string.chars))
      obtain ⟨hset, hchars'⟩ := setInNfc_valid himmutable (by rw [hchars]; exact canonicalComposition_idem hT _)
      exact ⟨hset, hchars'.trans hchars⟩

theorem stringToNfd_spec (hT : T.WellFormed) (hvalid : string.Valid T) :
    (stringToNfd T string).Valid T ∧ (stringToNfd T string).chars = canonicalDecomposition T string.chars := by
  rw [stringToNfd]
  by_cases hflag : flaggedNfd string = true
  · rw [if_pos hflag]
    refine ⟨hvalid, ?_⟩
    match string with
    | .ustring (.legacy chars) => cases hflag
    | .ustring (.ustring chars cpSize inNfc inNfd) => exact (hvalid.2.2 hflag).symm
    | .slice string start length => cases hflag
  · rw [if_neg hflag]
    by_cases hnfd : stringInNfd T string = true
    · rw [if_pos hnfd]
      have heq := decomposition_of_stringInNfd hT hvalid hnfd
      obtain ⟨himmutable, hchars⟩ := immutableUstring_valid hT string.chars
      obtain ⟨hset, hchars'⟩ := setInNfd_valid himmutable (by rw [hchars]; exact heq)
      exact ⟨hset, by rw [heq]; exact hchars'.trans hchars⟩
    · rw [if_neg hnfd]
      obtain ⟨himmutable, hchars⟩ := immutableUstring_valid hT (canonicalDecomposition T string.chars)
      obtain ⟨hset, hchars'⟩ := setInNfd_valid himmutable (by rw [hchars]; exact canonicalDecomposition_idem hT _)
      exact ⟨hset, hchars'.trans hchars⟩

theorem syllable_composition (hT : T.WellFormed) (h : jamoPrecomposed c = true) :
    canonicalDecomposition T [c] = jamoDecompose c
      ∧ canonicalComposition T (canonicalDecomposition T [c]) = [c] := by
  obtain ⟨l, v, hl, hv, hcases⟩ := jamoDecompose_cases h
  have hjamo : ∀ x ∈ decomposeChar T c, T.ccc x = 0 := by
    intro x hx
    rw [decomposeChar_precomposed h] at hx
    have hhangul : isHangul x = true := by
      rw [isHangul_eq_true]
      rcases hcases with ⟨heq, -⟩ | ⟨t, ht, heq, -⟩
      · rw [heq, mem_cons, mem_singleton] at hx
        rcases hx with rfl | rfl
        · exact .inl hl
        · exact .inr (.inl hv)
      · rw [heq, mem_cons, mem_cons, mem_singleton] at hx
        rcases hx with rfl | rfl | rfl
        · exact .inl hl
        · exact .inr (.inl hv)
        · exact .inr (.inr (.inl ht))
    exact (hT.hangul x hhangul).2
  have hdecomposition : canonicalDecomposition T [c] = jamoDecompose c := by
    have harranged := arranged_starters hjamo (l := []) isChain_nil
    rw [append_nil] at harranged
    rw [canonicalDecomposition_eq, decompose, flatMap_singleton, arrange_of_arranged harranged,
      decomposeChar_precomposed h]
  refine ⟨hdecomposition, ?_⟩
  rw [hdecomposition, canonicalComposition]
  rcases hcases with ⟨heq, hcompose⟩ | ⟨t, ht, heq, hcompose⟩
  · rw [heq, scanForFirstChar_pair hl hv (fun t ht => by cases ht), hcompose, scanForFirstChar]
  · rw [heq, scanForFirstChar_triple hl hv ht, hcompose, scanForFirstChar]

/-- The conversions are idempotent, also on a copy of what they give, and each can be made after the other.
Strings have the same NFC if and only if they have the same NFD, Hangul syllables are composed again, and
what passes a quick check is not changed by the full conversion. -/
theorem normalization_laws (T : Tables) (hT : T.WellFormed) (s t : Str) (hs : s.Valid T) (ht : t.Valid T) :
    (∀ s', s'.Valid T → s'.chars = (stringToNfd T s).chars →
        (stringToNfd T s').chars = (stringToNfd T s).chars)
      ∧ (∀ s', s'.Valid T → s'.chars = (stringToNfc T s).chars →
        (stringToNfc T s').chars = (stringToNfc T s).chars)
      ∧ (stringToNfd T (stringToNfc T s)).chars = (stringToNfd T s).chars
      ∧ (stringToNfc T (stringToNfd T s)).chars = (stringToNfc T s).chars
      ∧ ((stringToNfc T s).chars = (stringToNfc T t).chars ↔ (stringToNfd T s).chars = (stringToNfd T t).chars)
      ∧ (∀ c, jamoPrecomposed c = true → s.chars = [c] →
        (stringToNfd T s).chars = jamoDecompose c ∧ (stringToNfc T (stringToNfd T s)).chars = [c])
      ∧ (stringInNfc T s = true → canonicalComposition T (canonicalDecomposition T s.chars) = s.chars)
      ∧ (stringInNfd T s = true → canonicalDecomposition T s.chars = s.chars) := by
  obtain ⟨hnfd, hnfd_chars⟩ := stringToNfd_spec hT hs
  obtain ⟨hnfc, hnfc_chars⟩ := stringToNfc_spec hT hs
  have hnfd_nfc : (stringToNfd T (stringToNfc T s)).chars = (stringToNfd T s).chars := by
    rw [(stringToNfd_spec hT hnfc).2, hnfc_chars, hnfd_chars,
      canonicalDecomposition_canonicalComposition hT (ordered_canonicalDecomposition hT _)]
  have hnfc_nfd : (stringToNfc T (stringToNfd T s)).chars = (stringToNfc T s).chars := by
    rw [(stringToNfc_spec hT hnfd).2, hnfd_chars, hnfc_chars, canonicalDecomposition_idem hT]
  refine ⟨fun s' hs' hchars => ?_, fun s' hs' hchars => ?_, hnfd_nfc, hnfc_nfd, ⟨fun h => ?_, fun h => ?_⟩,
    fun c hc hchars => ?_, composition_of_stringInNfc hT hs, decomposition_of_stringInNfd hT hs⟩
  · rw [(stringToNfd_spec hT hs').2, hchars, hnfd_chars, canonicalDecomposition_idem hT]
  · rw [(stringToNfc_spec hT hs').2, hchars, hnfc_chars, canonicalComposition_idem hT]
  · have hd := congrArg (canonicalDecomposition T) h
    rw [hnfc_chars, (stringToNfc_spec hT ht).2,
      canonicalDecomposition_canonicalComposition hT (ordered_canonicalDecomposition hT _),
      canonicalDecomposition_canonicalComposition hT (ordered_canonicalDecomposition hT _)] at hd
    rw [hnfd_chars, (stringToNfd_spec hT ht).2, hd]
  · rw [hnfd_chars, (stringToNfd_spec hT ht).2] at h
    rw [hnfc_chars, (stringToNfc_spec hT ht).2, h]
  · obtain ⟨hdecomposed, hcomposed⟩ := syllable_composition hT hc
    rw [hnfc_nfd, hnfd_chars, hnfc_chars, hchars]
    exact ⟨hdecomposed, hcomposed⟩

/-- The entries of the tables for the letter A with a ring, and for the sign that is written like it. -/
def angstromTables : Tables where
  ccc c := if c = 0x30A then 230 else 0
  canonicalDm c := if c = 0xC5 then .string 0x41 0x30A else if c = 0x212B then .char 0xC5 else .char c
  canonicalCm c := if c = 0x41 then some 0 else none
  secondKeys i := if i = 0 then [0x30A] else []
  secondValues i := if i = 0 then [0xC5] else []
  nfcQuickCheck c := c ≠ 0x30A ∧ c ≠ 0x212B ∧ jamoVowel c = false ∧ jamoTrailing c = false
  nfdQuickCheck c := c ≠ 0xC5 ∧ c ≠ 0x212B ∧ jamoPrecomposed c = false
  depth c := if c = 0x212B then 2 else if c = 0xC5 then 1 else 0
  depth_first c h := by
    by_cases h1 : c = 0xC5
    · subst h1
      decide
    · by_cases h2 : c = 0x212B
      · subst h2
        decide
      · rw [if_neg h1, if_neg h2] at h
        exact absurd rfl h

theorem angstromTables_composes {c2 : Nat} (h : Composes angstromTables c1 c2 c) :
    c1 = 0x41 ∧ c2 = 0x30A ∧ c = 0xC5 := by
  obtain ⟨i, m, hi, hkey, hvalue⟩ := h
  simp only [angstromTables] at hi hkey hvalue
  split at hi
  · rename_i hc1
    cases hi
    cases m with
    | zero =>
        cases hkey
        cases hvalue
        exact ⟨hc1, rfl, rfl⟩
    | succ m => cases hkey
  · cases hi

theorem angstromTables_decomposes (c : Nat) :
    (c = 0xC5 ∨ c = 0x212B) ∧ decomposeChar angstromTables c = [0x41, 0x30A]
      ∨ jamoPrecomposed c = true ∧ decomposeChar angstromTables c = jamoDecompose c
      ∨ Decomposed angstromTables c := by
  have hA : decomposeChar angstromTables 0x41 = [0x41] := decomposeChar_self ⟨rfl, rfl⟩
  have hring : decomposeChar angstromTables 0xC5 = [0x41, 0x30A] := by
    have hdm : angstromTables.canonicalDm 0xC5 = .string 0x41 0x30A := rfl
    rw [decomposeChar_string rfl hdm, hA]
    rfl
  by_cases h1 : c = 0xC5
  · subst h1
    exact .inl ⟨.inl rfl, hring⟩
  · by_cases h2 : c = 0x212B
    · subst h2
      have hdm : angstromTables.canonicalDm 0x212B = .char 0xC5 := rfl
      exact .inl ⟨.inr rfl, (decomposeChar_char rfl hdm (by decide)).trans hring⟩
    · by_cases h3 : jamoPrecomposed c = true
      · exact .inr (.inl ⟨h3, decomposeChar_precomposed h3⟩)
      · refine .inr (.inr ⟨Bool.eq_false_iff.mpr h3, ?_⟩)
        simp only [angstromTables, if_neg h1, if_neg h2]

theorem angstromTables_wellFormed : angstromTables.WellFormed where
  hangul c h := by
    rw [isHangul_eq_true, jamoLeading_iff, jamoVowel_iff, jamoTrailing_iff, jamoPrecomposed_iff] at h
    have h1 : c ≠ 0xC5 := by omega
    have h2 : c ≠ 0x212B := by omega
    have h3 : c ≠ 0x30A := by omega
    simp only [angstromTables, if_neg h1, if_neg h2, if_neg h3, and_self]
  second c c1 c2 h := by
    simp only [angstromTables] at h
    split at h
    · cases h
      exact ⟨rfl, rfl⟩
    · split at h <;> cases h
  ordered c := by
    rcases angstromTables_decomposes c with ⟨-, heq⟩ | ⟨hp, heq⟩ | hself
    · rw [heq]
      exact isChain_cons_cons.mpr ⟨.inr (Nat.zero_le _), isChain_singleton _⟩
    · have hzero : ∀ x ∈ jamoDecompose c, angstromTables.ccc x = 0 := by
        intro x hx
        refine if_neg ?_
        obtain ⟨l, v, hl, hv, ⟨heq, -⟩ | ⟨t, ht, heq, -⟩⟩ := jamoDecompose_cases hp
        · rw [jamoLeading_iff] at hl
          rw [jamoVowel_iff] at hv
          rw [heq, mem_cons, mem_singleton] at hx
          omega
        · rw [jamoLeading_iff] at hl
          rw [jamoVowel_iff] at hv
          rw [jamoTrailing_iff] at ht
          rw [heq, mem_cons, mem_cons, mem_singleton] at hx
          omega
      have harranged := arranged_starters hzero (l := []) isChain_nil
      rw [append_nil] at harranged
      rwa [heq]
    · rw [decomposeChar_self hself]
      exact isChain_singleton c
  keys_sorted i := by
    simp only [angstromTables]
    split
    · exact pairwise_singleton _ _
    · exact .nil
  composes c1 c2 c h := by
    obtain ⟨rfl, rfl, rfl⟩ := angstromTables_composes h
    decide
  composes_first c1 c2 c h := by
    obtain ⟨rfl, rfl, rfl⟩ := angstromTables_composes h
    exact .inl ⟨rfl, rfl⟩
  nfc c h := by
    have hcheck : c ≠ 0x30A ∧ c ≠ 0x212B ∧ jamoVowel c = false ∧ jamoTrailing c = false := of_decide_eq_true h
    obtain ⟨hring, hsign, hv, ht⟩ := hcheck
    refine ⟨fun c1 c' hc => hring (angstromTables_composes hc).2.1, hv, ht, ?_⟩
    by_cases h1 : c = 0xC5
    · subst h1
      exact .inr ⟨0x41, 0x30A, ⟨0, 0, rfl, rfl, rfl⟩, rfl⟩
    · exact .inl (by simp only [angstromTables, if_neg h1, if_neg hsign])
  nfd c h := by
    have hcheck : c ≠ 0xC5 ∧ c ≠ 0x212B ∧ jamoPrecomposed c = false := of_decide_eq_true h
    obtain ⟨h1, h2, hp⟩ := hcheck
    exact ⟨hp, by simp only [angstromTables, if_neg h1, if_neg h2]⟩
  nfc_low c hc := by
    have hv : jamoVowel c = false := by
      rw [← Bool.not_eq_true, jamoVowel_iff]
      omega
    have ht : jamoTrailing c = false := by
      rw [← Bool.not_eq_true, jamoTrailing_iff]
      omega
    exact ⟨if_neg (by omega), decide_eq_true ⟨by omega, by omega, hv, ht⟩⟩
  nfd_low c hc := by
    have hp : jamoPrecomposed c = false := by
      rw [← Bool.not_eq_true, jamoPrecomposed_iff]
      omega
    exact decide_eq_true ⟨by omega, by omega, hp⟩

theorem angstrom_nfc :
    canonicalComposition angstromTables (canonicalDecomposition angstromTables [0x41, 0x30A]) = [0xC5] := by
  have hring : decomposeChar angstromTables 0xC5 = [0x41, 0x30A] := by
    have hdm : angstromTables.canonicalDm 0xC5 = .string 0x41 0x30A := rfl
    rw [decomposeChar_string rfl hdm, decomposeChar_self ⟨rfl, rfl⟩]
    rfl
  have hself : decompose angstromTables [0x41, 0x30A] = decompose angstromTables [0xC5] := by
    have hsingle : decompose angstromTables [0xC5] = [0x41, 0x30A] := by
      rw [decompose_cons, hring]
      rfl
    rw [hsingle, decompose_cons, decompose_cons, decomposeChar_self ⟨rfl, rfl⟩, decomposeChar_self ⟨rfl, rfl⟩]
    rfl
  rw [canonicalDecomposition_eq, hself, ← canonicalDecomposition_eq]
  have hqc : nfcQc angstromTables [0xC5] = true := by decide
  exact composition_of_passes angstromTables_wellFormed (passes_of_nfcQc angstromTables_wellFormed hqc)

theorem normalization_laws_angstrom :
    (stringToNfc angstromTables (.ustring (.ustring [0x212B] 0 false false))).chars
        = (stringToNfc angstromTables (.ustring (.ustring [0x41, 0x30A] 0 false false))).chars
      ↔ (stringToNfd angstromTables (.ustring (.ustring [0x212B] 0 false false))).chars
        = (stringToNfd angstromTables (.ustring (.ustring [0x41, 0x30A] 0 false false))).chars :=
  (normalization_laws angstromTables angstromTables_wellFormed (.ustring (.ustring [0x212B] 0 false false))
    (.ustring (.ustring [0x41, 0x30A] 0 false false)) ⟨nofun, nofun, nofun⟩ ⟨nofun, nofun, nofun⟩).2.2.2.2.1

end MitScheme.Normalization
