import MitScheme.Lib.Arranging
import MitScheme.Runtime.Normalization
import Mathlib.Data.List.GetD
import Mathlib.Data.List.TakeWhile

/-!
# Decomposition and composition

What the tables have to be like, that canonical decomposition and ordering sorts the runs of what the
characters decompose into, and that composition does not change what a string decomposes into.
-/

namespace MitScheme.Normalization

open Arranging List

/-! ## Tables -/

/-- One of the characters that Hangul syllables are dealt with by. -/
def isHangul (char : Nat) : Bool :=
  jamoLeading char || jamoVowel char || jamoTrailing char || jamoPrecomposed char

/-- A character that decomposes into itself. -/
def Decomposed (T : Tables) (char : Nat) : Prop :=
  jamoPrecomposed char = false ∧ T.canonicalDm char = .char char

/-- An entry of the composition table. -/
def Composes (T : Tables) (c1 c2 c : Nat) : Prop :=
  ∃ i m : Nat, T.canonicalCm c1 = some i ∧ (T.secondKeys i)[m]? = some c2 ∧ (T.secondValues i)[m]? = some c

/-- What the generated tables are like. -/
structure Tables.WellFormed (T : Tables) : Prop where
  hangul : ∀ c, isHangul c = true → T.canonicalDm c = .char c ∧ T.ccc c = 0
  /-- The second character of a decomposition does not decompose. -/
  second : ∀ c c1 c2, T.canonicalDm c = .string c1 c2 → Decomposed T c2
  ordered : ∀ c, Arranged T.ccc (decomposeChar T c)
  keys_sorted : ∀ i, (T.secondKeys i).Pairwise (· < ·)
  /-- The composition table inverts decomposition, and leads from starters to starters. -/
  composes : ∀ c1 c2 c, Composes T c1 c2 c →
    T.canonicalDm c = .string c1 c2 ∧ T.ccc c1 = 0 ∧ T.ccc c = 0
      ∧ isHangul c1 = false ∧ isHangul c2 = false ∧ isHangul c = false
  /-- What begins a primary composite does not decompose, or it is one. A starter is not put after a
  combining mark. -/
  composes_first : ∀ c1 c2 c, Composes T c1 c2 c →
    Decomposed T c1 ∨ ∃ d1 d2, Composes T d1 d2 c1 ∧ (T.ccc c2 = 0 → T.ccc d2 = 0)
  /-- What passes the quick check for NFC does not compose with what is before it, and nor does what it
  decomposes into. It does not decompose, or it is a primary composite. -/
  nfc : ∀ c, T.nfcQuickCheck c = true →
    (∀ c1 c', ¬Composes T c1 c c') ∧ jamoVowel c = false ∧ jamoTrailing c = false
      ∧ (T.canonicalDm c = .char c ∨ ∃ c1 c2, Composes T c1 c2 c ∧ T.nfcQuickCheck c1 = true)
  nfd : ∀ c, T.nfdQuickCheck c = true → Decomposed T c
  /-- The characters that the quick checks pass over. -/
  nfc_low : ∀ c < 0x300, T.ccc c = 0 ∧ T.nfcQuickCheck c = true
  nfd_low : ∀ c < 0xC0, T.nfdQuickCheck c = true

variable {T : Tables}

variable {c sc c1 c2 i l v fc : Nat} {chars rest : List Nat}

theorem matchLoop_eq_some {keys values : List Nat} (h : keys.Pairwise (· < ·)) {start stop : Nat}
    (hstop : stop ≤ keys.length) :
    matchLoop keys values sc start stop = some c
      ↔ ∃ m, start ≤ m ∧ m < stop ∧ keys[m]? = some sc ∧ values[m]? = some c := by
  induction hn : stop - start using Nat.strongRecOn generalizing start stop with
  | ind n ih =>
      rw [matchLoop]
      by_cases hlt : start < stop
      · rw [if_pos hlt]
        have hm : (start + stop) / 2 < keys.length := by omega
        have hget : keys.getD ((start + stop) / 2) 0 = keys[(start + stop) / 2] := getD_eq_getElem _ _ hm
        have hkey : ∀ m, keys[m]? = some sc → ∃ hm : m < keys.length, keys[m] = sc := fun m =>
          List.getElem?_eq_some_iff.mp
        have hmono : ∀ i j (hi : i < keys.length) (hj : j < keys.length), i < j → keys[i] < keys[j] :=
          fun i j hi hj hij => pairwise_iff_getElem.mp h i j hi hj hij
        dsimp only
        rw [hget]
        rcases Nat.lt_trichotomy sc keys[(start + stop) / 2] with hsc | hsc | hsc
        · rw [if_pos hsc, ih _ (by omega) (by omega) rfl]
          refine ⟨fun ⟨m, h1, h2, h3⟩ => ⟨m, h1, by omega, h3⟩, fun ⟨m, h1, h2, h3⟩ => ⟨m, h1, ?_, h3⟩⟩
          obtain ⟨hm', hkey⟩ := hkey m h3.1
          by_contra hge
          rcases Nat.lt_or_ge ((start + stop) / 2) m with hgt | hle
          · have := hmono _ _ hm hm' hgt
            omega
          · have heq : m = (start + stop) / 2 := by omega
            subst heq
            omega
        · rw [if_neg (by omega), if_neg (by omega)]
          refine ⟨fun hc => ⟨_, by omega, by omega, ?_, hc⟩, fun ⟨m, h1, h2, h3, h4⟩ => ?_⟩
          · rw [List.getElem?_eq_getElem hm, hsc]
          · obtain ⟨hm', hkey⟩ := hkey m h3
            rcases Nat.lt_trichotomy m ((start + stop) / 2) with hlt' | rfl | hgt
            · have := hmono _ _ hm' hm hlt'
              omega
            · exact h4
            · have := hmono _ _ hm hm' hgt
              omega
        · rw [if_neg (by omega), if_pos hsc, ih _ (by omega) hstop rfl]
          refine ⟨fun ⟨m, h1, h2, h3⟩ => ⟨m, by omega, h2, h3⟩, fun ⟨m, h1, h2, h3⟩ => ⟨m, ?_, h2, h3⟩⟩
          obtain ⟨hm', hkey⟩ := hkey m h3.1
          by_contra hge
          rcases Nat.lt_or_ge m ((start + stop) / 2) with hlt' | hle
          · have := hmono _ _ hm' hm hlt'
            omega
          · have heq : m = (start + stop) / 2 := by omega
            subst heq
            omega
      · rw [if_neg hlt]
        exact ⟨nofun, fun ⟨m, h1, h2, _⟩ => by omega⟩

theorem matchSecond_eq_some (hT : T.WellFormed) (hi : T.canonicalCm c1 = some i) :
    matchSecond T i c2 = some c ↔ Composes T c1 c2 c := by
  rw [matchSecond, matchLoop_eq_some (hT.keys_sorted i) le_rfl]
  refine ⟨fun ⟨m, _, _, hkey, hvalue⟩ => ⟨i, m, hi, hkey, hvalue⟩, fun ⟨i', m, hi', hkey, hvalue⟩ => ?_⟩
  rw [hi] at hi'
  cases hi'
  exact ⟨m, Nat.zero_le m, (List.getElem?_eq_some_iff.mp hkey).1, hkey, hvalue⟩

theorem matchSecond_eq_none (hT : T.WellFormed) (hi : T.canonicalCm c1 = some i)
    (h : ∀ c, ¬Composes T c1 c2 c) : matchSecond T i c2 = none := by
  cases hmatch : matchSecond T i c2 with
  | none => rfl
  | some c => exact absurd ((matchSecond_eq_some hT hi).mp hmatch) (h c)

/-! ## Hangul -/

theorem jamoLeading_iff : jamoLeading c = true ↔ 0x1100 ≤ c ∧ c < 0x1113 := by
  rw [jamoLeading, Bool.and_eq_true, decide_eq_true_iff, decide_eq_true_iff]
  exact .rfl

theorem jamoVowel_iff : jamoVowel c = true ↔ 0x1161 ≤ c ∧ c < 0x1176 := by
  rw [jamoVowel, Bool.and_eq_true, decide_eq_true_iff, decide_eq_true_iff]
  exact .rfl

theorem jamoTrailing_iff : jamoTrailing c = true ↔ 0x11A8 ≤ c ∧ c < 0x11C3 := by
  rw [jamoTrailing, Bool.and_eq_true, decide_eq_true_iff, decide_eq_true_iff]
  exact .rfl

theorem jamoPrecomposed_iff : jamoPrecomposed c = true ↔ 0xAC00 ≤ c ∧ c < 0xD7A4 := by
  rw [jamoPrecomposed, Bool.and_eq_true, decide_eq_true_iff, decide_eq_true_iff]
  exact .rfl

theorem jamoDecompose_eq (c : Nat) :
    jamoDecompose c = [0x1100 + (c - 0xAC00) / 588, 0x1161 + (c - 0xAC00) % 588 / 28]
      ++ if (c - 0xAC00) % 28 > 0 then [0x11A7 + (c - 0xAC00) % 28] else [] := rfl

theorem jamoCompose_none (l v : Nat) :
    jamoCompose l v none = 0xAC00 + ((l - 0x1100) * 588 + (v - 0x1161) * 28 + 0) := rfl

theorem jamoCompose_some (l v t : Nat) :
    jamoCompose l v (some t) = 0xAC00 + ((l - 0x1100) * 588 + (v - 0x1161) * 28 + (t - 0x11A7)) := rfl

theorem jamoDecompose_cases (h : jamoPrecomposed c = true) :
    ∃ l v, jamoLeading l = true ∧ jamoVowel v = true
      ∧ ((jamoDecompose c = [l, v] ∧ jamoCompose l v none = c)
        ∨ ∃ t, jamoTrailing t = true ∧ jamoDecompose c = [l, v, t] ∧ jamoCompose l v (some t) = c) := by
  rw [jamoPrecomposed_iff] at h
  refine ⟨0x1100 + (c - 0xAC00) / 588, 0x1161 + (c - 0xAC00) % 588 / 28, ?_, ?_, ?_⟩
  · rw [jamoLeading_iff]
    omega
  · rw [jamoVowel_iff]
    omega
  · rw [jamoDecompose_eq]
    by_cases hti : (c - 0xAC00) % 28 > 0
    · rw [if_pos hti]
      refine .inr ⟨0x11A7 + (c - 0xAC00) % 28, ?_, rfl, ?_⟩
      · rw [jamoTrailing_iff]
        omega
      · rw [jamoCompose_some]
        omega
    · rw [if_neg hti, jamoCompose_none]
      exact .inl ⟨rfl, by omega⟩

theorem jamo_of_mem {x : Nat} (h : jamoPrecomposed c = true) (hx : x ∈ jamoDecompose c) :
    jamoLeading x = true ∨ jamoVowel x = true ∨ jamoTrailing x = true := by
  obtain ⟨l, v, hl, hv, ⟨heq, -⟩ | ⟨t, ht, heq, -⟩⟩ := jamoDecompose_cases h
  · rw [heq, mem_cons, mem_singleton] at hx
    rcases hx with rfl | rfl
    · exact .inl hl
    · exact .inr (.inl hv)
  · rw [heq, mem_cons, mem_cons, mem_singleton] at hx
    rcases hx with rfl | rfl | rfl
    · exact .inl hl
    · exact .inr (.inl hv)
    · exact .inr (.inr ht)

theorem jamoDecompose_jamoCompose (hl : jamoLeading l = true) (hv : jamoVowel v = true) :
    (jamoPrecomposed (jamoCompose l v none) = true ∧ jamoDecompose (jamoCompose l v none) = [l, v])
      ∧ ∀ t, jamoTrailing t = true → jamoPrecomposed (jamoCompose l v (some t)) = true
        ∧ jamoDecompose (jamoCompose l v (some t)) = [l, v, t] := by
  rw [jamoLeading_iff] at hl
  rw [jamoVowel_iff] at hv
  refine ⟨⟨?_, ?_⟩, fun t ht => ⟨?_, ?_⟩⟩
  · rw [jamoPrecomposed_iff, jamoCompose_none]
    omega
  · rw [jamoDecompose_eq, jamoCompose_none, if_neg (by omega), append_nil]
    congr 1
    · omega
    · congr 1
      omega
  · rw [jamoTrailing_iff] at ht
    rw [jamoPrecomposed_iff, jamoCompose_some]
    omega
  · rw [jamoTrailing_iff] at ht
    have hl' : 0x1100 + (jamoCompose l v (some t) - 0xAC00) / 588 = l := by
      rw [jamoCompose_some]
      omega
    have hv' : 0x1161 + (jamoCompose l v (some t) - 0xAC00) % 588 / 28 = v := by
      rw [jamoCompose_some]
      omega
    have ht' : (jamoCompose l v (some t) - 0xAC00) % 28 = t - 0x11A7 := by
      rw [jamoCompose_some]
      omega
    rw [jamoDecompose_eq, hl', hv', ht', if_pos (by omega), Nat.add_sub_cancel' (by omega)]
    rfl

/-! ## Decomposition -/

theorem decomposeChar_precomposed (h : jamoPrecomposed c = true) :
    decomposeChar T c = jamoDecompose c := by
  rw [decomposeChar, if_pos h]

theorem decomposeChar_self (h : Decomposed T c) : decomposeChar T c = [c] := by
  rw [decomposeChar, if_neg (by rw [h.1]; exact Bool.false_ne_true), dif_pos h.2]

theorem decomposeChar_char {c' : Nat} (h : jamoPrecomposed c = false) (hdm : T.canonicalDm c = .char c')
    (hne : T.canonicalDm c ≠ .char c) : decomposeChar T c = decomposeChar T c' := by
  rw [decomposeChar, if_neg (by rw [h]; exact Bool.false_ne_true), dif_neg hne]
  split
  · rename_i c'' hdm'
    rw [hdm] at hdm'
    cases hdm'
    rfl
  · rename_i c1 c2 hdm'
    rw [hdm] at hdm'
    cases hdm'

theorem decomposeChar_string (h : jamoPrecomposed c = false)
    (hdm : T.canonicalDm c = .string c1 c2) : decomposeChar T c = decomposeChar T c1 ++ [c2] := by
  rw [decomposeChar, if_neg (by rw [h]; exact Bool.false_ne_true), dif_neg (by rw [hdm]; nofun)]
  split
  · rename_i c' hdm'
    rw [hdm] at hdm'
    cases hdm'
  · rename_i c1' c2' hdm'
    rw [hdm] at hdm'
    cases hdm'
    rfl

theorem isHangul_eq_true : isHangul c = true ↔
    jamoLeading c = true ∨ jamoVowel c = true ∨ jamoTrailing c = true ∨ jamoPrecomposed c = true := by
  simp only [isHangul, Bool.or_eq_true, or_assoc]

theorem jamo_decomposed (hT : T.WellFormed)
    (h : jamoLeading c = true ∨ jamoVowel c = true ∨ jamoTrailing c = true) : Decomposed T c := by
  have hhangul : isHangul c = true := by
    rw [isHangul_eq_true]
    rcases h with h | h | h
    · exact .inl h
    · exact .inr (.inl h)
    · exact .inr (.inr (.inl h))
  refine ⟨?_, (hT.hangul c hhangul).1⟩
  rw [← Bool.not_eq_true, jamoPrecomposed_iff]
  rw [jamoLeading_iff, jamoVowel_iff, jamoTrailing_iff] at h
  omega

theorem decomposed_of_mem (hT : T.WellFormed) (c : Nat) : ∀ x ∈ decomposeChar T c, Decomposed T x := by
  induction c using decomposeChar.induct (T := T) with
  | case1 c h =>
      intro x hx
      rw [decomposeChar_precomposed h] at hx
      exact jamo_decomposed hT (jamo_of_mem h hx)
  | case2 c h hdm =>
      intro x hx
      rw [decomposeChar_self ⟨Bool.eq_false_iff.mpr h, hdm⟩, mem_singleton] at hx
      subst hx
      exact ⟨Bool.eq_false_iff.mpr h, hdm⟩
  | case3 c h hne c' hdm ih =>
      rw [decomposeChar_char (Bool.eq_false_iff.mpr h) hdm hne]
      exact ih
  | case4 c h hne c1 c2 hdm ih =>
      intro x hx
      rw [decomposeChar_string (Bool.eq_false_iff.mpr h) hdm] at hx
      rcases mem_append.mp hx with hx | hx
      · exact ih x hx
      · rw [mem_singleton.mp hx]
        exact hT.second c c1 c2 hdm

/-- What the characters of a string decompose into. -/
def decompose (T : Tables) (chars : List Nat) : List Nat := chars.flatMap (decomposeChar T)

theorem decompose_append (l r : List Nat) : decompose T (l ++ r) = decompose T l ++ decompose T r :=
  flatMap_append

theorem decompose_cons (c : Nat) (l : List Nat) : decompose T (c :: l) = decomposeChar T c ++ decompose T l :=
  flatMap_cons

theorem decompose_self (h : ∀ x ∈ chars, Decomposed T x) : decompose T chars = chars := by
  induction chars with
  | nil => rfl
  | cons c chars ih =>
      rw [decompose_cons, decomposeChar_self (h c mem_cons_self),
        ih fun x hx => h x (mem_cons_of_mem c hx), singleton_append]

theorem decomposed_of_mem_decompose (hT : T.WellFormed) (chars : List Nat) :
    ∀ x ∈ decompose T chars, Decomposed T x := by
  intro x hx
  obtain ⟨c, -, hx⟩ := mem_flatMap.mp hx
  exact decomposed_of_mem hT c x hx

/-! ## Ordering -/

/-- The run that some characters begin with. -/
def leadingRun (T : Tables) (done : List Nat) : List Nat := done.takeWhile fun c => T.ccc c ≠ 0

theorem leadingRun_starter (h : T.ccc c = 0) (done : List Nat) : leadingRun T (c :: done) = [] := by
  rw [leadingRun, takeWhile_cons_of_neg (by simpa using h)]

theorem leadingRun_cons (h : T.ccc c ≠ 0) (done : List Nat) :
    leadingRun T (c :: done) = c :: leadingRun T done := by
  rw [leadingRun, takeWhile_cons_of_pos (by simpa using h)]
  rfl

theorem set_length_append (l r : List Nat) (a b : Nat) : (l ++ a :: r).set l.length b = l ++ b :: r := by
  simp

theorem getD_length_append (l r : List Nat) (a b : Nat) : (l ++ a :: r).getD l.length b = a := by
  simp

theorem maybeTwiddle_eq (hc : T.ccc c ≠ 0) (done rest : List Nat) :
    maybeTwiddle (T.ccc c) ((leadingRun T done).map T.ccc) done.length (done.reverse ++ c :: rest)
      = ((leadingRun T (place T.ccc done c)).map T.ccc, (place T.ccc done c).reverse ++ rest) := by
  induction done generalizing rest with
  | nil =>
      rw [place_eq_cons nofun, leadingRun_cons hc]
      rfl
  | cons x done ih =>
      by_cases hx : T.ccc x = 0
      · rw [place_eq_cons fun y hy => by cases hy; exact .inr (by omega), leadingRun_cons hc,
          leadingRun_starter hx]
        simp [maybeTwiddle]
      · rw [leadingRun_cons hx, map_cons, maybeTwiddle]
        by_cases hlt : T.ccc c < T.ccc x
        · have hstring : (x :: done).reverse ++ c :: rest = done.reverse ++ x :: c :: rest := by simp
          have hlength : (x :: done).length - 1 = done.reverse.length := by simp
          have hlength' : (x :: done).length = (done.reverse ++ [c]).length := by simp
          have hget : (done.reverse ++ x :: c :: rest).getD (x :: done).length 0 = c := by
            have h := getD_length_append (done.reverse ++ [x]) rest c 0
            rw [append_assoc] at h
            rwa [length_append, length_reverse] at h
          have hswap : ((done.reverse ++ x :: c :: rest).set done.reverse.length c).set (x :: done).length x
              = done.reverse ++ c :: x :: rest := by
            have h := set_length_append (done.reverse ++ [c]) rest c x
            rw [append_assoc, append_assoc, singleton_append, singleton_append] at h
            rw [set_length_append, hlength', h]
          rw [if_pos hlt, hstring]
          dsimp only
          rw [hlength, hget, getD_length_append, hswap, length_reverse, ih (x :: rest), place_of_lt hc hlt,
            leadingRun_cons hx, reverse_cons, append_assoc]
          rfl
        · rw [if_neg hlt, place_eq_cons fun y hy => by cases hy; exact .inr (by omega), leadingRun_cons hc,
            leadingRun_cons hx]
          simp

theorem scan_eq (rest : List Nat) : ∀ done : List Nat,
    (leadingRun T done = [] → scanForNonStarter T done.length (done.reverse ++ rest) rest.length
      = (rest.foldl (place T.ccc) done).reverse)
    ∧ scanForNonStarterPair T ((leadingRun T done).map T.ccc) done.length (done.reverse ++ rest) rest.length
      = (rest.foldl (place T.ccc) done).reverse := by
  induction rest with
  | nil =>
      intro done
      rw [append_nil, length_nil]
      exact ⟨fun _ => by rfl, rfl⟩
  | cons c rest ih =>
      intro done
      have hget : (done.reverse ++ c :: rest).getD done.length 0 = c := by
        have h := getD_length_append done.reverse rest c 0
        rwa [length_reverse] at h
      have hnext : done.reverse ++ c :: rest = (c :: done).reverse ++ rest := by simp
      rw [foldl_cons, length_cons, scanForNonStarter, scanForNonStarterPair]
      rw [hget]
      by_cases hc : T.ccc c = 0
      · rw [if_pos hc, if_pos hc, place_of_zero hc, hnext]
        have h := (ih (c :: done)).1 (leadingRun_starter hc done)
        exact ⟨fun _ => h, h⟩
      · rw [if_neg hc, if_neg hc]
        refine ⟨fun hrun => ?_, ?_⟩
        · have hstay : place T.ccc done c = c :: done := by
            refine place_eq_cons fun x hx => .inr ?_
            cases done with
            | nil => cases hx
            | cons y done =>
                cases hx
                by_contra hlt
                rw [leadingRun_cons (by omega)] at hrun
                cases hrun
          have h := (ih (c :: done)).2
          rw [leadingRun_cons hc, hrun] at h
          rw [hstay, hnext]
          exact h
        · have h := (ih (place T.ccc done c)).2
          rw [(perm_place done c).length_eq] at h
          rw [maybeTwiddle_eq hc]
          exact h

theorem canonicalDecomposition_eq (chars : List Nat) :
    canonicalDecomposition T chars = arrange T.ccc (decompose T chars) :=
  (scan_eq (decompose T chars) []).1 rfl

theorem decomposed_of_mem_canonicalDecomposition (hT : T.WellFormed) (chars : List Nat) :
    ∀ x ∈ canonicalDecomposition T chars, Decomposed T x := by
  intro x hx
  rw [canonicalDecomposition_eq, mem_arrange] at hx
  exact decomposed_of_mem_decompose hT chars x hx

theorem canonicalDecomposition_self (h : ∀ x ∈ chars, Decomposed T x)
    (harranged : Arranged T.ccc chars) : canonicalDecomposition T chars = chars := by
  rw [canonicalDecomposition_eq, decompose_self h, arrange_of_arranged harranged]

theorem canonicalDecomposition_idem (hT : T.WellFormed) (chars : List Nat) :
    canonicalDecomposition T (canonicalDecomposition T chars) = canonicalDecomposition T chars := by
  refine canonicalDecomposition_self (decomposed_of_mem_canonicalDecomposition hT chars) ?_
  rw [canonicalDecomposition_eq]
  exact arranged_arrange _

/-! ## Composition -/

theorem decomposeChar_composes (hT : T.WellFormed) (h : Composes T c1 c2 c) :
    decomposeChar T c = decomposeChar T c1 ++ [c2] := by
  obtain ⟨hdm, -, -, -, -, hhangul⟩ := hT.composes c1 c2 c h
  refine decomposeChar_string ?_ hdm
  rw [isHangul, Bool.or_eq_false_iff] at hhangul
  exact hhangul.2

/-- A mark with its class. -/
def withCcc (T : Tables) (c : Nat) : Nat × Nat := (c, T.ccc c)

theorem map_fst_withCcc (marks : List Nat) : (marks.map (withCcc T)).map Prod.fst = marks := by
  rw [List.map_map]
  exact List.map_id marks

theorem getCombiners_eq (chars : List Nat) :
    getCombiners T chars = (leadingRun T chars).map (withCcc T) := by
  induction chars with
  | nil => rfl
  | cons c chars ih =>
      rw [getCombiners]
      by_cases hc : T.ccc c = 0
      · rw [if_pos hc, leadingRun_starter hc]
        rfl
      · rw [if_neg hc, leadingRun_cons hc, ih]
        rfl

/-- The combining marks after a character, in the order that they are in. -/
structure Marks (T : Tables) (combiners : List (Nat × Nat)) : Prop where
  ccc : ∀ p ∈ combiners, p.2 = T.ccc p.1 ∧ p.2 ≠ 0
  decomposed : ∀ p ∈ combiners, Decomposed T p.1
  sorted : combiners.Pairwise fun p q => p.2 ≤ q.2

theorem Marks.sublist {l l' : List (Nat × Nat)} (h : Marks T l) (hsub : l'.Sublist l) : Marks T l' :=
  ⟨fun p hp => h.ccc p (hsub.subset hp), fun p hp => h.decomposed p (hsub.subset hp), h.sorted.sublist hsub⟩

theorem decompose_doneMatching {combiners : List (Nat × Nat)} (h : Marks T combiners) :
    decompose T (doneMatching fc combiners) = decomposeChar T fc ++ combiners.map Prod.fst := by
  rw [doneMatching, decompose_cons, decompose_self]
  intro x hx
  obtain ⟨p, hp, rfl⟩ := List.mem_map.mp hx
  exact h.decomposed p hp

theorem composes_alike (hT : T.WellFormed) {fc' : Nat} {passed cs : List (Nat × Nat)} {c : Nat × Nat}
    (h : Marks T (passed ++ c :: cs)) (hlt : ∀ p ∈ passed, p.2 < c.2) (hcomposes : Composes T fc c.1 fc') :
    Alike T.ccc (decomposeChar T fc' ++ (passed ++ cs).map Prod.fst)
      (decomposeChar T fc ++ (passed ++ c :: cs).map Prod.fst) := by
  obtain ⟨hc, hzero⟩ := h.ccc c (mem_append_right _ mem_cons_self)
  have hmove : Alike T.ccc (passed.map Prod.fst ++ [c.1]) (c.1 :: passed.map Prod.fst) := by
    refine alike_move (hc ▸ hzero) fun x hx => ?_
    obtain ⟨p, hp, rfl⟩ := List.mem_map.mp hx
    obtain ⟨hp', hzero'⟩ := h.ccc p (mem_append_left _ hp)
    have := hlt p hp
    omega
  rw [decomposeChar_composes hT hcomposes, append_assoc, map_append, map_append, map_cons]
  refine (Alike.refl _).append ?_
  have hcut : passed.map Prod.fst ++ c.1 :: cs.map Prod.fst = (passed.map Prod.fst ++ [c.1]) ++ cs.map Prod.fst := by
    rw [append_assoc, singleton_append]
  rw [hcut]
  exact hmove.symm.append (.refl _)

theorem composes_of_match (hT : T.WellFormed) {fcIndex lastCcc fc' : Nat} {c : Nat × Nat}
    (hi : T.canonicalCm fc = some fcIndex)
    (h : (if lastCcc < c.2 then matchSecond T fcIndex c.1 else none) = some fc') :
    lastCcc < c.2 ∧ Composes T fc c.1 fc' := by
  by_cases hlt : lastCcc < c.2
  · rw [if_pos hlt] at h
    exact ⟨hlt, (matchSecond_eq_some hT hi).mp h⟩
  · rw [if_neg hlt] at h
    cases h

theorem combinersLoop_alike (hT : T.WellFormed) (fc fcIndex : Nat) (passed : List (Nat × Nat)) (lastCcc : Nat)
    (cs : List (Nat × Nat)) (hi : T.canonicalCm fc = some fcIndex) (h : Marks T (passed ++ cs))
    (hlast : ∀ p ∈ passed, p.2 ≤ lastCcc) :
    Alike T.ccc (decompose T (combinersLoop T fc fcIndex passed lastCcc cs))
      (decomposeChar T fc ++ (passed ++ cs).map Prod.fst) := by
  induction fc, fcIndex, passed, lastCcc, cs using combinersLoop.induct (T := T) with
  | case1 fc fcIndex passed lastCcc =>
      rw [append_nil] at h
      rw [combinersLoop, decompose_doneMatching h, append_nil]
      exact .refl _
  | case2 fc fcIndex passed lastCcc c cs fc' hmatch fcIndex' hi' ih =>
      rw [dite_eq_ite] at hmatch
      obtain ⟨hlt, hcomposes⟩ := composes_of_match hT hi hmatch
      have hmarks : Marks T (passed ++ cs) := h.sublist ((sublist_cons_self c cs).append_left passed)
      rw [combinersLoop, hmatch]
      dsimp only
      rw [hi']
      refine (ih hi' hmarks nofun).trans (composes_alike hT h (fun p hp => ?_) hcomposes)
      exact (hlast p hp).trans_lt hlt
  | case3 fc fcIndex passed lastCcc c cs fc' hmatch hi' =>
      rw [dite_eq_ite] at hmatch
      obtain ⟨hlt, hcomposes⟩ := composes_of_match hT hi hmatch
      have hmarks : Marks T (passed ++ cs) := h.sublist ((sublist_cons_self c cs).append_left passed)
      rw [combinersLoop, hmatch]
      dsimp only
      rw [hi']
      rw [decompose_doneMatching hmarks]
      exact composes_alike hT h (fun p hp => (hlast p hp).trans_lt hlt) hcomposes
  | case4 fc fcIndex passed lastCcc c cs hmatch ih =>
      have hcut : passed ++ c :: cs = (passed ++ [c]) ++ cs := by
        rw [append_assoc, singleton_append]
      rw [dite_eq_ite] at hmatch
      rw [combinersLoop, hmatch]
      rw [hcut] at h ⊢
      refine ih hi h fun p hp => ?_
      rcases mem_append.mp hp with hp | hp
      · have hsorted := h.sorted
        rw [append_assoc, pairwise_append] at hsorted
        exact hsorted.2.2 p hp c mem_cons_self
      · rw [mem_singleton.mp hp]

/-- Some characters as they are before composition. -/
structure Ordered (T : Tables) (chars : List Nat) : Prop where
  decomposed : ∀ x ∈ chars, Decomposed T x
  arranged : Arranged T.ccc chars

theorem Ordered.suffix {l l' : List Nat} (h : Ordered T l) (hsuffix : l' <:+ l) : Ordered T l' :=
  ⟨fun x hx => h.decomposed x (hsuffix.subset hx), h.arranged.suffix hsuffix⟩

theorem leadingRun_arranged (h : Arranged T.ccc chars) : Arranged T.ccc (leadingRun T chars) :=
  show List.IsChain _ _ from List.IsChain.prefix h (List.takeWhile_prefix _)

theorem Ordered.marks (h : Ordered T chars) : Marks T (getCombiners T chars) := by
  rw [getCombiners_eq]
  have hzero : ∀ x ∈ leadingRun T chars, T.ccc x ≠ 0 := by
    intro x hx
    simpa using mem_takeWhile_imp hx
  refine ⟨fun p hp => ?_, fun p hp => ?_, ?_⟩
  · obtain ⟨x, hx, rfl⟩ := List.mem_map.mp hp
    exact ⟨rfl, hzero x hx⟩
  · obtain ⟨x, hx, rfl⟩ := List.mem_map.mp hp
    exact h.decomposed x ((takeWhile_sublist _).subset hx)
  · rw [pairwise_map]
    exact Arranged.pairwise (leadingRun_arranged h.arranged) hzero

theorem testFirstChar_nil (fc : Nat) : testFirstChar T fc [] = [fc] := by
  rw [testFirstChar, scanForFirstChar]
  intro _ _ _ hcons
  cases hcons

theorem testFirstChar_none (h : T.canonicalCm fc = none) (rest : List Nat) :
    testFirstChar T fc rest = fc :: scanForFirstChar T rest := by
  rw [testFirstChar]
  intro _ _ _ _ hi
  rw [h] at hi
  cases hi

theorem testFirstChar_marks (hi : T.canonicalCm fc = some i) (hsc : T.ccc sc ≠ 0) (rest : List Nat) :
    testFirstChar T fc (sc :: rest) = scanCombiners T fc i (getCombiners T (sc :: rest))
      ++ scanForFirstChar T ((sc :: rest).drop (leadingRun T (sc :: rest)).length) := by
  have hcombiners : getCombiners T (sc :: rest) ≠ [] := by
    rw [getCombiners, if_neg hsc]
    exact cons_ne_nil _ _
  unfold testFirstChar
  rw [hi]
  dsimp only
  rw [if_pos hcombiners, getCombiners_eq, length_map]

theorem testFirstChar_starter (hi : T.canonicalCm fc = some i) (hsc : T.ccc sc = 0)
    (rest : List Nat) : testFirstChar T fc (sc :: rest)
      = match matchSecond T i sc with
        | some fc' => testFirstChar T fc' rest
        | none => fc :: scanForFirstChar T (sc :: rest) := by
  have hcombiners : getCombiners T (sc :: rest) = [] := by
    rw [getCombiners, if_pos hsc]
  conv_lhs => unfold testFirstChar
  rw [hi]
  refine (if_neg (not_not_intro hcombiners)).trans ?_
  cases matchSecond T i sc <;> rfl

theorem testFirstChar_alike (hT : T.WellFormed) (h : Ordered T rest)
    (hscan : ∀ l : List Nat, l.length ≤ rest.length → Ordered T l → Alike T.ccc (decompose T (scanForFirstChar T l)) l)
    (fc : Nat) : Alike T.ccc (decompose T (testFirstChar T fc rest)) (decomposeChar T fc ++ rest) := by
  induction rest generalizing fc with
  | nil =>
      rw [testFirstChar_nil, decompose]
      exact .refl _
  | cons sc rest ih =>
      have hdone : Alike T.ccc (decompose T (fc :: scanForFirstChar T (sc :: rest)))
          (decomposeChar T fc ++ sc :: rest) := by
        exact (Alike.refl _).append (hscan (sc :: rest) le_rfl h)
      cases hi : T.canonicalCm fc with
      | none =>
          rw [testFirstChar_none hi]
          exact hdone
      | some i =>
          by_cases hsc : T.ccc sc = 0
          · rw [testFirstChar_starter hi hsc]
            cases hmatch : matchSecond T i sc with
            | none => exact hdone
            | some fc' =>
                have hcomposes := (matchSecond_eq_some hT hi).mp hmatch
                have hrest : Ordered T rest := h.suffix (suffix_cons sc rest)
                have hih := ih hrest (fun l hl hordered => hscan l (hl.trans (Nat.le_succ _)) hordered) fc'
                rw [decomposeChar_composes hT hcomposes, append_assoc] at hih
                exact hih
          · rw [testFirstChar_marks hi hsc, decompose_append]
            have hmarks := combinersLoop_alike hT fc i [] 0 (getCombiners T (sc :: rest)) hi h.marks nofun
            have hdrop := hscan ((sc :: rest).drop (leadingRun T (sc :: rest)).length)
              (drop_sublist _ _).length_le (h.suffix (drop_suffix _ _))
            have hcombiners : ([] ++ getCombiners T (sc :: rest)).map Prod.fst = leadingRun T (sc :: rest) := by
              rw [nil_append, getCombiners_eq, map_fst_withCcc]
            have hcut : leadingRun T (sc :: rest) ++ (sc :: rest).drop (leadingRun T (sc :: rest)).length = sc :: rest := by
              have hprefix : leadingRun T (sc :: rest) <+: sc :: rest := takeWhile_prefix _
              rw [prefix_iff_eq_append.mp hprefix]
            rw [hcombiners] at hmarks
            have hall := hmarks.append hdrop
            rwa [append_assoc, hcut] at hall

theorem scanForFirstChar_test (h : jamoLeading fc = true → ∀ v ∈ rest.head?, jamoVowel v = false) :
    scanForFirstChar T (fc :: rest) = testFirstChar T fc rest := by
  cases rest with
  | nil => rw [scanForFirstChar.eq_def]
  | cons v rest =>
      have hneg : ¬(jamoLeading fc && jamoVowel v) = true := by
        rw [Bool.and_eq_true]
        rintro ⟨hl, hv⟩
        rw [h hl v rfl] at hv
        cases hv
      rw [scanForFirstChar.eq_def]
      dsimp only
      rw [if_neg hneg]

theorem scanForFirstChar_pair (hl : jamoLeading l = true) (hv : jamoVowel v = true)
    (h : ∀ t ∈ rest.head?, jamoTrailing t = false) :
    scanForFirstChar T (l :: v :: rest) = jamoCompose l v none :: scanForFirstChar T rest := by
  have hpos : (jamoLeading l && jamoVowel v) = true := by rw [hl, hv]; rfl
  rw [scanForFirstChar.eq_def]
  dsimp only
  rw [if_pos hpos]
  cases rest with
  | nil => rw [scanForFirstChar.eq_def]
  | cons t rest =>
      dsimp only
      rw [h t rfl, if_neg Bool.false_ne_true]

theorem scanForFirstChar_triple {t : Nat} (hl : jamoLeading l = true)
    (hv : jamoVowel v = true) (ht : jamoTrailing t = true) :
    scanForFirstChar T (l :: v :: t :: rest) = jamoCompose l v (some t) :: scanForFirstChar T rest := by
  have hpos : (jamoLeading l && jamoVowel v) = true := by rw [hl, hv]; rfl
  rw [scanForFirstChar.eq_def]
  dsimp only
  rw [if_pos hpos, if_pos ht]

theorem scanForFirstChar_alike (hT : T.WellFormed) (chars : List Nat) (h : Ordered T chars) :
    Alike T.ccc (decompose T (scanForFirstChar T chars)) chars := by
  induction hn : chars.length using Nat.strongRecOn generalizing chars with
  | ind n ih =>
      subst hn
      have htest : ∀ fc rest, chars = fc :: rest →
          Alike T.ccc (decompose T (testFirstChar T fc rest)) chars := by
        rintro fc rest rfl
        have hrest := h.suffix (suffix_cons fc rest)
        have halike := testFirstChar_alike hT hrest
          (fun l hl hordered => ih l.length (Nat.lt_succ_of_le hl) l hordered rfl) fc
        rwa [decomposeChar_self (h.decomposed fc mem_cons_self)] at halike
      rcases chars with _ | ⟨l, _ | ⟨v, rest⟩⟩
      · rw [scanForFirstChar]
        exact .refl _
      · rw [scanForFirstChar_test fun _ v hv => by cases hv]
        exact htest l [] rfl
      · cases hjamo : jamoLeading l && jamoVowel v with
        | false =>
            rw [scanForFirstChar_test]
            · exact htest l (v :: rest) rfl
            · intro hl v' hv'
              cases hv'
              rwa [hl] at hjamo
        | true =>
            rw [Bool.and_eq_true] at hjamo
            obtain ⟨⟨hp, hd⟩, htrailing⟩ := jamoDecompose_jamoCompose hjamo.1 hjamo.2
            have hrest : ∀ rest', rest' <:+ rest → Alike T.ccc (decompose T (scanForFirstChar T rest')) rest' := by
              intro rest' hsuffix
              have hlt : rest'.length < (l :: v :: rest).length := by
                have := hsuffix.length_le
                simp only [length_cons]
                omega
              refine ih _ hlt rest' (h.suffix ?_) rfl
              exact (hsuffix.trans (suffix_cons v rest)).trans (suffix_cons l _)
            by_cases ht : ∀ t ∈ rest.head?, jamoTrailing t = false
            · rw [scanForFirstChar_pair hjamo.1 hjamo.2 ht, decompose_cons, decomposeChar_precomposed hp, hd]
              exact ((hrest rest (suffix_refl rest)).cons v).cons l
            · cases rest with
              | nil =>
                  refine absurd ?_ ht
                  intro t hmem
                  cases hmem
              | cons t rest =>
                  have ht' : jamoTrailing t = true := by
                    by_contra hf
                    refine ht fun t' ht' => ?_
                    cases ht'
                    exact Bool.eq_false_iff.mpr hf
                  obtain ⟨hp', hd'⟩ := htrailing t ht'
                  rw [scanForFirstChar_triple hjamo.1 hjamo.2 ht', decompose_cons, decomposeChar_precomposed hp', hd']
                  exact (((hrest rest (suffix_cons t rest)).cons t).cons v).cons l

theorem canonicalDecomposition_canonicalComposition (hT : T.WellFormed) (h : Ordered T chars) :
    canonicalDecomposition T (canonicalComposition T chars) = chars := by
  rw [canonicalDecomposition_eq, canonicalComposition, (scanForFirstChar_alike hT chars h).arrange_eq,
    arrange_of_arranged h.arranged]

theorem ordered_canonicalDecomposition (hT : T.WellFormed) (chars : List Nat) :
    Ordered T (canonicalDecomposition T chars) := by
  refine ⟨decomposed_of_mem_canonicalDecomposition hT chars, ?_⟩
  rw [canonicalDecomposition_eq]
  exact arranged_arrange _

theorem alike_composition (hT : T.WellFormed) (chars : List Nat) :
    Alike T.ccc (decompose T (canonicalComposition T (canonicalDecomposition T chars))) (decompose T chars) := by
  refine (scanForFirstChar_alike hT _ (ordered_canonicalDecomposition hT chars)).trans ?_
  rw [canonicalDecomposition_eq]
  exact alike_arrange _

theorem composition_congr {chars' : List Nat} (h : Alike T.ccc (decompose T chars) (decompose T chars')) :
    canonicalComposition T (canonicalDecomposition T chars)
      = canonicalComposition T (canonicalDecomposition T chars') := by
  rw [canonicalDecomposition_eq, canonicalDecomposition_eq, h.arrange_eq]

/-!
## Canonical ordering

The exchanges that `canonical-decomposition&ordering` makes in its string sort each run of characters that are
not starters, and nothing else.
-/

open Sorting

/-- What canonical ordering is to do. A run begins at the start or after a starter, and it ends at the end or
before a starter. -/
structure CanonicallyOrders (T : Tables) (chars ordered : List Nat) : Prop where
  perm : ordered.Perm chars
  starters : ∀ i c : Nat, chars[i]? = some c → T.ccc c = 0 → ordered[i]? = some c
  runs : ∀ l m r : List Nat, chars = l ++ (m ++ r) → (∀ c ∈ l.getLast?, T.ccc c = 0) →
    (∀ c ∈ m, T.ccc c ≠ 0) → (∀ c ∈ r.head?, T.ccc c = 0) →
    StablySorts (lighter T.ccc) m ((ordered.drop l.length).take m.length)

theorem canonicallyOrders_arrange (chars : List Nat) : CanonicallyOrders T chars (arrange T.ccc chars) where
  perm := perm_arrange chars
  starters := by
    intro i c hget hc
    obtain ⟨hi, hc'⟩ := List.getElem?_eq_some_iff.mp hget
    have hsplit : chars = chars.take i ++ c :: chars.drop (i + 1) := by
      rw [← hc', List.getElem_cons_drop, List.take_append_drop]
    have hlen : (arrange T.ccc (chars.take i)).length = i := by
      rw [(perm_arrange _).length_eq, List.length_take_of_le hi.le]
    rw [hsplit, arrange_append hc, arrange_cons hc, List.getElem?_append_right hlen.le, hlen, Nat.sub_self]
    rfl
  runs := by
    intro l m r hchars hl hm hr
    have hlen : (arrange T.ccc l).length = l.length := (perm_arrange l).length_eq
    have hlen' : (arrange T.ccc m).length = m.length := (perm_arrange m).length_eq
    rw [hchars, arrange_run hl hr, List.drop_left' hlen, List.take_left' hlen']
    exact stablySorts_arrange hm

/-- **Canonical ordering** leaves the starters where they are and stably sorts each run between them. -/
theorem canonical_ordering (T : Tables) (chars : List Nat) :
    CanonicallyOrders T chars (scanForNonStarter T 0 chars chars.length) := by
  have hscan : scanForNonStarter T 0 chars chars.length = arrange T.ccc chars := (scan_eq chars []).1 rfl
  rw [hscan]
  exact canonicallyOrders_arrange chars

end MitScheme.Normalization
