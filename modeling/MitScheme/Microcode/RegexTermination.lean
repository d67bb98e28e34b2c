import Mathlib.Data.Prod.Lex
import MitScheme.Microcode.Regex

/-!
# Termination

The matcher comes to an end as long as each iteration of a loop that is finalized gets on. A rank is given to the place
that it is at, and to the failure points: first by what is left of the text, then by what is left of the pattern, where
a loop begins as late as it ends.
-/

namespace MitScheme.Regex

open MitScheme.Runs Option

/-- A jump back leads to the beginning of a loop: an `on_failure_jump`, to behind the jump. -/
def Loops (c : Config) (target exit : Nat) : Prop :=
  target + 3 ≤ c.patternPc ∧ fetch c.code target = some (.onFailureJump (some exit)) ∧ c.patternPc < exit

/-- The failure point that a finalizing jump discards is a dummy, or one from before the iteration, or else one that
leads to before the end of the loop. -/
def GetsOn (c : Config) (exit : Nat) : Prop :=
  ∃ point stack, c.stack = point :: stack ∧
    ∀ patternPc matchPc, point = some (patternPc, matchPc) →
      matchPc < c.matchPc ∨ matchPc = c.matchPc ∧ patternPc < exit

/-- The instruction at `pattern_pc` has its operands, and its jumps are those of a pattern that is laid out properly;
when it finalizes a loop, the iteration has got on. -/
def Config.Sound (c : Config) : Prop :=
  match fetch c.code c.patternPc with
  | none => True
  | some (.exact1 char) => char.isSome
  | some (.exactN chars) => chars.isSome
  | some (.jump target) => ∃ t, target = some t ∧ (c.patternPc < t ∨ ∃ exit, Loops c t exit)
  | some (.onFailureJump target) | some (.dummyFailureJump target) => ∃ t, target = some t ∧ c.patternPc < t
  | some (.finalizeJump target) => ∃ t exit, target = some t ∧ Loops c t exit ∧ GetsOn c exit
  | some (.maybeFinalizeJump target) =>
      ∃ t exit, target = some t ∧ Loops c t exit ∧ finalizeP c.code (c.patternPc + 3) t ≠ .unknown ∧
        (finalizeP c.code (c.patternPc + 3) t = .finalize → GetsOn c exit)
  | some (.charSet _ set) => set.isSome
  | some (.startMemory register) | some (.stopMemory register) => register.isSome
  | some (.duplicate register) =>
      ∃ r, register = some r ∧ (c.registerEnd r ≠ none → c.registerStart r ≠ none)
  | some (.syntaxSpec _ code) => code.isSome
  | some .bad => False
  | some _ => True

/-- A match, a failure, or an overflow of the stack. -/
def Outcome.Proper : Outcome → Prop
  | .matched _ _ _ | .failed | .overflow => True
  | .badPattern | .undefined => False

section

variable {buffer : Buffer} {range : MatchRange}

/-! ## Places in the text -/

/-- No place in the text is behind this one. -/
def bound (buffer : Buffer) (range : MatchRange) : Nat := max range.start (max range.stop buffer.gapEnd)

theorem le_skipGap (address : Nat) : address ≤ buffer.skipGap address := by
  have := buffer.gap_le
  unfold Buffer.skipGap
  split <;> omega

theorem skipGap_le {address : Nat} (h : address ≤ range.stop) : buffer.skipGap address ≤ bound buffer range := by
  unfold Buffer.skipGap bound
  split <;> omega

/-- The matcher goes on to a place further on, if it goes on at all. -/
def GoesOn (buffer : Buffer) (range : MatchRange) (matchPc matchPc' : Nat) : Prop :=
  matchPc' = matchPc ∨ matchPc < matchPc' ∧ matchPc < range.stop ∧ matchPc' ≤ bound buffer range

variable {matchPc matchPc' pc exit length : Nat} {code : List Byte} {target : Option Nat}
  {instruction : Instruction} {stack : List FailurePoint} {c c' : Config}

theorem readMatchChar_goesOn {ascii : Byte}
    (h : readMatchChar buffer range matchPc = some (ascii, matchPc')) : GoesOn buffer range matchPc matchPc' := by
  unfold readMatchChar at h
  split at h
  · cases h
  · next hstop =>
      obtain ⟨-, rfl⟩ := Prod.mk.inj (Option.some.inj h)
      have hle : matchPc + 1 ≤ buffer.skipGap (matchPc + 1) := le_skipGap _
      exact .inr ⟨by omega, by omega, skipGap_le (by omega)⟩

theorem exactLoop_goesOn (chars : List Byte) : ∀ {matchPc matchPc' : Nat},
    exactLoop buffer range chars matchPc = some matchPc' → GoesOn buffer range matchPc matchPc' := by
  induction chars with
  | nil =>
      intro matchPc matchPc' h
      cases h
      exact .inl rfl
  | cons char chars ih =>
      intro matchPc matchPc' h
      simp only [exactLoop] at h
      cases hread : readMatchChar buffer range matchPc with
      | none =>
          rw [hread] at h
          cases h
      | some result =>
          simp only [hread] at h
          split at h
          · have hfirst := readMatchChar_goesOn hread
            have hrest := ih h
            unfold GoesOn at *
            omega
          · cases h

theorem duplicateEnd_goesOn {start stop : Nat}
    (h : duplicateEnd buffer range matchPc start stop = some matchPc') : GoesOn buffer range matchPc matchPc' := by
  have hnew : ∀ newEnd, matchPc < newEnd → newEnd ≤ range.stop → some (buffer.skipGap newEnd) = some matchPc' →
      GoesOn buffer range matchPc matchPc' := by
    intro newEnd hlt hle hsome
    rw [← Option.some.inj hsome]
    exact .inr ⟨Nat.lt_of_lt_of_le hlt (le_skipGap _), by omega, skipGap_le hle⟩
  simp only [duplicateEnd] at h
  split at h
  · cases h
    exact .inl rfl
  · split at h
    · cases h
    · split at h
      · split at h
        · cases h
        · split at h
          · exact hnew _ (by omega) (by omega) h
          · cases h
      · split at h
        · split at h
          · exact hnew _ (by omega) (by omega) h
          · cases h
        · split at h
          · exact hnew _ (by omega) (by omega) h
          · cases h

theorem Advances.goesOn (h : Advances buffer range matchPc matchPc') :
    GoesOn buffer range matchPc matchPc' := by
  rcases h with ⟨chars, hloop⟩ | ⟨start, stop, hcopy⟩
  · exact exactLoop_goesOn chars hloop
  · exact duplicateEnd_goesOn hcopy

theorem decode_onFailureJump {opcode : Nat}
    (h : Instruction.decode code opcode pc = .onFailureJump target) :
    opcode = 6 ∧ target = readPatternOffset code pc := by
  unfold Instruction.decode at h
  split at h <;> first | cases h; done | skip
  cases h
  exact ⟨rfl, rfl⟩

theorem fetch_onFailureJump :
    fetch code pc = some (.onFailureJump target) ↔ code[pc]? = some 6 ∧ target = readPatternOffset code (pc + 1) := by
  unfold fetch
  rw [map_eq_some_iff]
  constructor
  · rintro ⟨opcode, hopcode, hdecode⟩
    obtain ⟨hsix, htarget⟩ := decode_onFailureJump hdecode
    have hbyte : opcode = 6 := UInt8.toNat_inj.mp hsix
    exact ⟨hbyte ▸ hopcode, htarget⟩
  · rintro ⟨hopcode, rfl⟩
    exact ⟨6, hopcode, rfl⟩

theorem fetch_set {place : Nat} (opcode : Byte) (hplace : pc + 3 ≤ place)
    (h : fetch code pc = some (.onFailureJump target)) :
    fetch (code.set place opcode) pc = some (.onFailureJump target) := by
  rw [fetch_onFailureJump] at h ⊢
  unfold readPatternOffset at h ⊢
  rwa [List.getElem?_set_ne (by omega), List.getElem?_set_ne (by omega), List.getElem?_set_ne (by omega),
    List.length_set]

theorem readPatternOffset_le {target : Nat} (h : readPatternOffset code pc = some target) :
    target ≤ code.length := by
  unfold readPatternOffset at h
  split at h
  · rw [ite_none_left_eq_some] at h
    obtain ⟨hin, heq⟩ := h
    rw [← Option.some.inj heq]
    omega
  · cases h

theorem exit_le (h : fetch code pc = some (.onFailureJump (some exit))) : exit ≤ code.length :=
  readPatternOffset_le (fetch_onFailureJump.mp h).2.symm

theorem lt_of_fetch (h : fetch code pc = some instruction) : pc < code.length := by
  unfold fetch at h
  rw [map_eq_some_iff] at h
  obtain ⟨opcode, hopcode, -⟩ := h
  exact (List.getElem?_eq_some_iff.mp hopcode).1

/-! ## Ranks -/

abbrev Rank := ℕ ×ₗ ℕ

/-- A rank: so much of the text is left, and so much of the pattern. -/
def rankOf (text pattern : Nat) : Rank := toLex (text, pattern)

theorem rankOf_lt_iff {text text' pattern pattern' : Nat} :
    rankOf text' pattern' < rankOf text pattern ↔ text' < text ∨ text' = text ∧ pattern' < pattern :=
  Prod.Lex.toLex_lt_toLex

/-- The rank of the place that the matcher is at. -/
def Config.rank (buffer : Buffer) (range : MatchRange) (c : Config) : Rank :=
  rankOf (bound buffer range - c.matchPc)
    (match fetch c.code c.patternPc with
      | some (.onFailureJump (some exit)) => 4 * (c.code.length - exit) + 2
      | _ => 4 * (c.code.length - c.patternPc))

/-- The rank of a failure point, in a pattern that is so long: above all that is reached from it. -/
def pointRank (buffer : Buffer) (range : MatchRange) (length patternPc matchPc : Nat) : Rank :=
  rankOf (bound buffer range - matchPc) (4 * (length - patternPc) + 1)

/-- The ranks of the failure points below a rank; that of a dummy is any that is above what comes next. -/
inductive Ranks (buffer : Buffer) (range : MatchRange) (length : Nat) : Rank → List FailurePoint → List Rank → Prop
  | nil {rank : Rank} : Ranks buffer range length rank [] []
  | point {rank : Rank} {patternPc matchPc : Nat} {stack : List FailurePoint} {ranks : List Rank} :
      matchPc ≤ bound buffer range →
      Ranks buffer range length (pointRank buffer range length patternPc matchPc) stack ranks →
        Ranks buffer range length rank (some (patternPc, matchPc) :: stack)
          (pointRank buffer range length patternPc matchPc :: ranks)
  | dummy {rank rank' : Rank} {stack : List FailurePoint} {ranks : List Rank} : rank < rank' →
      Ranks buffer range length rank' stack ranks → Ranks buffer range length rank (none :: stack) (rank' :: ranks)

theorem Ranks.mono {rank rank' : Rank} {ranks : List Rank}
    (h : Ranks buffer range length rank stack ranks) (hlt : rank' < rank) :
    Ranks buffer range length rank' stack ranks := by
  cases h with
  | nil => exact .nil
  | point hplace h => exact .point hplace h
  | dummy hrank h => exact .dummy (hlt.trans hrank) h

theorem Ranks.length_eq {rank : Rank} {ranks : List Rank}
    (h : Ranks buffer range length rank stack ranks) : ranks.length = stack.length := by
  induction h with
  | nil => rfl
  | point _ _ ih | dummy _ _ ih => simp only [List.length_cons, ih]

theorem Ranks.drop {dummies : List FailurePoint}
    (hdummies : ∀ point ∈ dummies, point = none) : ∀ {rank : Rank} {ranks : List Rank},
    Ranks buffer range length rank (dummies ++ stack) ranks →
      ∃ rank' above below, ranks = above ++ below ∧ Ranks buffer range length rank' stack below := by
  induction dummies with
  | nil => exact fun h => ⟨_, [], _, rfl, h⟩
  | cons point dummies ih =>
      obtain ⟨hpoint, hrest⟩ := List.forall_mem_cons.mp hdummies
      subst hpoint
      intro rank ranks h
      cases h with
      | dummy hrank h =>
          obtain ⟨rank', above, below, rfl, hbelow⟩ := ih hrest h
          exact ⟨rank', _ :: above, below, rfl, hbelow⟩

/-- What measures a match. -/
structure Measures (buffer : Buffer) (range : MatchRange) (length : Nat) (c : Config) (measure : List Rank) : Prop where
  code : c.code.length = length
  place : c.matchPc ≤ bound buffer range
  room : c.stack.length ≤ stackLimit
  ranks : ∃ ranks, Ranks buffer range length (c.rank buffer range) c.stack ranks ∧
    measure = ranks.reverse ++ [c.rank buffer range]

variable {measure : List Rank}

theorem Measures.length_le
    (h : Measures buffer range length c measure) : measure.length ≤ stackLimit + 1 := by
  obtain ⟨ranks, hranks, rfl⟩ := h.ranks
  have := hranks.length_eq
  have := h.room
  simp only [List.length_append, List.length_reverse, List.length_singleton]
  omega

theorem Measures.lower {below above : List Rank} {x : Rank}
    (hmeasure : measure = below.reverse ++ x :: above) (hcode : c'.code.length = length)
    (hplace : c'.matchPc ≤ bound buffer range) (hroom : c'.stack.length ≤ stackLimit)
    (hranks : Ranks buffer range length (c'.rank buffer range) c'.stack below) (hlt : c'.rank buffer range < x) :
    ∃ measure', Measures buffer range length c' measure' ∧ Lowers measure' measure := by
  refine ⟨_, ⟨hcode, hplace, hroom, below, hranks, rfl⟩, ?_⟩
  rw [hmeasure]
  exact .append _ (.here hlt)

theorem Measures.push {point : FailurePoint} {x : Rank}
    (h : Measures buffer range length c measure) (hcode : c'.code.length = length)
    (hplace : c'.matchPc ≤ bound buffer range) (hfull : c.stack.length ≠ stackLimit) (hstack : c'.stack = point :: c.stack)
    (hlt : x < c.rank buffer range) (hpoint : ∀ ranks, Ranks buffer range length x c.stack ranks →
      Ranks buffer range length (c'.rank buffer range) (point :: c.stack) (x :: ranks)) :
    ∃ measure', Measures buffer range length c' measure' ∧ Lowers measure' measure := by
  obtain ⟨ranks, hranks, rfl⟩ := h.ranks
  have hroom : c'.stack.length ≤ stackLimit := by
    have := h.room
    rw [hstack, List.length_cons]
    omega
  refine ⟨_, ⟨hcode, hplace, hroom, x :: ranks, hstack ▸ hpoint ranks (hranks.mono hlt), rfl⟩, ?_⟩
  rw [List.reverse_cons, List.append_assoc]
  exact .append _ (.here hlt)

theorem rankOf_le {text pattern pattern' : Nat} (h : pattern' ≤ pattern) : rankOf text pattern' ≤ rankOf text pattern := by
  rcases Nat.lt_or_eq_of_le h with hlt | rfl
  · exact le_of_lt (rankOf_lt_iff.mpr (.inr ⟨rfl, hlt⟩))
  · exact le_refl _

theorem Config.Sound.rank_le (h : c.Sound) :
    c.rank buffer range ≤ rankOf (bound buffer range - c.matchPc) (4 * (c.code.length - c.patternPc)) := by
  unfold Config.rank
  split
  · next exit hfetch =>
      unfold Config.Sound at h
      rw [hfetch] at h
      obtain ⟨target, htarget, hlt⟩ := h
      cases htarget
      have := lt_of_fetch hfetch
      exact rankOf_le (by omega)
  · exact le_refl _

theorem rank_eq (hfetch : fetch c.code c.patternPc = some instruction)
    (hinstruction : ∀ target, instruction ≠ .onFailureJump target) :
    c.rank buffer range = rankOf (bound buffer range - c.matchPc) (4 * (c.code.length - c.patternPc)) := by
  unfold Config.rank
  split
  · next exit hloop =>
      rw [hfetch] at hloop
      exact absurd (Option.some.inj hloop) (hinstruction _)
  · rfl

theorem rank_loop (hfetch : fetch c.code c.patternPc = some (.onFailureJump (some exit))) :
    c.rank buffer range = rankOf (bound buffer range - c.matchPc) (4 * (c.code.length - exit) + 2) := by
  simp only [Config.rank, hfetch]

theorem rank_forward (hsound' : c'.Sound)
    (hfetch : fetch c.code c.patternPc = some instruction) (hinstruction : ∀ target, instruction ≠ .onFailureJump target)
    (hcode : c'.code = c.code) (hpc : c.patternPc < c'.patternPc)
    (hmatch : GoesOn buffer range c.matchPc c'.matchPc) : c'.rank buffer range < c.rank buffer range := by
  refine lt_of_le_of_lt hsound'.rank_le ?_
  have hlt := lt_of_fetch hfetch
  rw [rank_eq hfetch hinstruction, rankOf_lt_iff, hcode]
  unfold GoesOn at hmatch
  omega

theorem rank_back {target : Nat}
    (hfetch : fetch c.code c.patternPc = some instruction) (hinstruction : ∀ target, instruction ≠ .onFailureJump target)
    (hloops : Loops c target exit) (hfetch' : fetch c'.code c'.patternPc = some (.onFailureJump (some exit)))
    (hlength : c'.code.length = c.code.length) (hmatch : c'.matchPc = c.matchPc) :
    c'.rank buffer range < c.rank buffer range := by
  have hlt := lt_of_fetch hfetch
  have hexit := hloops.2.2
  rw [rank_eq hfetch hinstruction, rank_loop hfetch', rankOf_lt_iff, hmatch]
  omega

theorem measures_finalize {target : Nat} {point : FailurePoint}
    (h : Measures buffer range length c measure) (hfetch : fetch c.code c.patternPc = some instruction)
    (hinstruction : ∀ target, instruction ≠ .onFailureJump target) (hloops : Loops c target exit)
    (hgetsOn : GetsOn c exit) (hstack : c.stack = point :: stack)
    (hfetch' : fetch c'.code c'.patternPc = some (.onFailureJump (some exit)))
    (hlength : c'.code.length = c.code.length) (hmatch : c'.matchPc = c.matchPc) (hstack' : c'.stack = stack) :
    ∃ measure', Measures buffer range length c' measure' ∧ Lowers measure' measure := by
  obtain ⟨ranks, hranks, hmeasure⟩ := h.ranks
  have hback : c'.rank buffer range < _ := rank_back hfetch hinstruction hloops hfetch' hlength hmatch
  have hcode : c'.code.length = length := hlength.trans h.code
  have hplace : c'.matchPc ≤ bound buffer range := hmatch ▸ h.place
  have hroom : c'.stack.length ≤ stackLimit := by
    have := h.room
    rw [hstack, List.length_cons] at this
    rw [hstack']
    omega
  rw [hstack] at hranks
  cases hranks with
  | @dummy _ rank' _ below hrank hbelow =>
      have hlt := hback.trans hrank
      have hmeasure' : measure = below.reverse ++ rank' :: [c.rank buffer range] := by
        rw [hmeasure, List.reverse_cons, List.append_assoc]
        rfl
      exact Measures.lower hmeasure' hcode hplace hroom (hstack' ▸ hbelow.mono hlt) hlt
  | @point _ patternPc matchPc _ below hpoint hbelow =>
      have hlt : c'.rank buffer range < pointRank buffer range length patternPc matchPc := by
        obtain ⟨point, stack', hsplit, hpoint'⟩ := hgetsOn
        obtain ⟨rfl, -⟩ := List.cons.inj (hstack.symm.trans hsplit)
        have hexit := exit_le hloops.2.1
        have hon := hpoint' patternPc matchPc rfl
        rw [rank_loop hfetch', pointRank, rankOf_lt_iff, hcode]
        omega
      have hmeasure' : measure =
          below.reverse ++ pointRank buffer range length patternPc matchPc :: [c.rank buffer range] := by
        rw [hmeasure, List.reverse_cons, List.append_assoc]
        rfl
      exact Measures.lower hmeasure' hcode hplace hroom (hstack' ▸ hbelow.mono hlt) hlt

theorem Measures.move (h : Measures buffer range length c measure)
    (hcode : c'.code.length = c.code.length) (hplace : c'.matchPc ≤ bound buffer range) (hstack : c'.stack = c.stack)
    (hlt : c'.rank buffer range < c.rank buffer range) :
    ∃ measure', Measures buffer range length c' measure' ∧ Lowers measure' measure := by
  obtain ⟨ranks, hranks, hmeasure⟩ := h.ranks
  exact Measures.lower hmeasure (hcode.trans h.code) hplace (hstack ▸ h.room) (hstack ▸ hranks.mono hlt) hlt

theorem measures_fail
    (h : Measures buffer range length c measure) (hsound' : c'.Sound) (hfail : reMatchFail c = .next c') :
    ∃ measure', Measures buffer range length c' measure' ∧ Lowers measure' measure := by
  obtain ⟨ranks, hranks, hmeasure⟩ := h.ranks
  obtain ⟨patternPc, matchPc, dummies, stack, hstack, hdummies, rfl⟩ := failureLoop_next hfail
  have hroom := h.room
  rw [hstack, List.length_append, List.length_cons] at hroom
  rw [hstack] at hranks
  obtain ⟨rank', above, ranks', hsplit, hranks'⟩ := hranks.drop hdummies
  cases hranks' with
  | @point _ _ _ _ below hplace hbelow =>
      have hlt := lt_of_le_of_lt hsound'.rank_le
        (rankOf_lt_iff.mpr (.inr ⟨rfl, Nat.lt_succ_self _⟩) :
          _ < pointRank buffer range c.code.length patternPc matchPc)
      rw [h.code] at hlt
      have hmeasure' : measure = below.reverse ++
          pointRank buffer range length patternPc matchPc :: (above.reverse ++ [c.rank buffer range]) := by
        rw [hmeasure, hsplit, List.reverse_append]
        simp
      have hroom' : stack.length ≤ stackLimit := by omega
      exact Measures.lower hmeasure' h.code hplace hroom' (hbelow.mono hlt) hlt

theorem measures_next
    (h : Measures buffer range length c measure) (hsound : c.Sound) (hsound' : c'.Sound)
    (hfetch : fetch c.code c.patternPc = some instruction) (hnext : Next buffer range c instruction c') :
    ∃ measure', Measures buffer range length c' measure' ∧ Lowers measure' measure := by
  have hplace := h.place
  unfold Config.Sound at hsound
  rw [hfetch] at hsound
  cases hnext with
  | fail hmatching hfail => exact measures_fail h hsound' hfail
  | advance matchPc hmatching hadvances =>
      have hon := hadvances.goesOn
      have hpc : c.patternPc < c.patternPc + instruction.size := by
        have := instruction.size_pos
        omega
      have hinstruction : ∀ target, instruction ≠ .onFailureJump target := by
        rintro target rfl
        cases hmatching
      refine h.move rfl ?_ rfl (rank_forward hsound' hfetch hinstruction rfl hpc hon)
      unfold GoesOn at hon
      change matchPc ≤ _
      omega
  | jump target =>
      obtain ⟨t, ht, hforward | ⟨exit, hloops⟩⟩ := hsound
      · cases ht
        refine h.move rfl hplace rfl (rank_forward hsound' hfetch ?_ rfl hforward (.inl rfl))
        intro target h
        cases h
      · cases ht
        refine h.move rfl hplace rfl (rank_back hfetch ?_ hloops hloops.2.1 rfl rfl)
        intro target h
        cases h
  | push target hfull =>
      obtain ⟨t, ht, hlt⟩ := hsound
      have hrank : pointRank buffer range length target c.matchPc < c.rank buffer range := by
        rw [rank_loop hfetch, pointRank, rankOf_lt_iff, h.code]
        omega
      exact h.push h.code hplace hfull rfl hrank fun ranks hranks => .point hplace hranks
  | pushDummy target hfull =>
      obtain ⟨t, ht, hlt⟩ := hsound
      cases ht
      -- the dummy is ranked just below the instruction
      have hpc := lt_of_fetch hfetch
      have hrank : rankOf (bound buffer range - c.matchPc) (4 * (c.code.length - c.patternPc) - 1) <
          c.rank buffer range := by
        have hinstruction : ∀ target', Instruction.dummyFailureJump (some target) ≠ .onFailureJump target' := by
          intro target' h
          cases h
        rw [rank_eq hfetch hinstruction, rankOf_lt_iff]
        omega
      refine h.push h.code hplace hfull rfl hrank fun ranks hranks => .dummy ?_ hranks
      refine lt_of_le_of_lt hsound'.rank_le (rankOf_lt_iff.mpr (.inr ⟨rfl, ?_⟩))
      change 4 * (c.code.length - target) < _
      omega
  | finalize target hstack =>
      obtain ⟨t, exit, ht, hloops, hgetsOn⟩ := hsound
      cases ht
      refine measures_finalize h hfetch ?_ hloops hgetsOn hstack hloops.2.1 rfl rfl rfl
      intro target h
      cases h
  | maybeFinalize target hstack hfinalize =>
      obtain ⟨t, exit, ht, hloops, -, hgetsOn⟩ := hsound
      cases ht
      refine measures_finalize h hfetch ?_ hloops (hgetsOn hfinalize) hstack (fetch_set 7 hloops.1 hloops.2.1)
        List.length_set rfl rfl
      intro target h
      cases h
  | dontFinalize target hfinalize =>
      obtain ⟨t, exit, ht, hloops, -, -⟩ := hsound
      cases ht
      refine h.move List.length_set hplace rfl
        (rank_back hfetch ?_ hloops (fetch_set 5 hloops.1 hloops.2.1) List.length_set rfl)
      intro target h
      cases h
  | start register | stop register =>
      refine h.move rfl hplace rfl (rank_forward hsound' hfetch ?_ rfl (Nat.lt_add_of_pos_right (by decide)) (.inl rfl))
      intro target h
      cases h

/-! ## Matches -/

/-- What ends the match is proper. -/
def EndsProperly (s : Step) : Prop := ∀ outcome, s = .done outcome → outcome.Proper

theorem failureLoop_endsProperly (c : Config) (stack : List FailurePoint) : EndsProperly (failureLoop c stack) := by
  intro outcome h
  induction stack with
  | nil =>
      cases h
      trivial
  | cons point stack ih =>
      rcases point with _ | ⟨patternPc, matchPc⟩
      · exact ih h
      · cases h

theorem matchChar_endsProperly {α : Type} (c : Config) (size : Nat) {operand : Option α} (hoperand : operand.isSome)
    (test : α → Byte → Bool) : EndsProperly (matchChar buffer range c size operand test) := by
  obtain ⟨operand, rfl⟩ := isSome_iff_exists.mp hoperand
  intro outcome h
  unfold matchChar at h
  split at h
  · exact failureLoop_endsProperly c c.stack outcome h
  · simp only at h
    split at h
    · cases h
    · exact failureLoop_endsProperly c c.stack outcome h

theorem matchTest_endsProperly (c : Config) (test : Bool) : EndsProperly (matchTest c test) := by
  intro outcome h
  unfold matchTest at h
  split at h
  · cases h
  · exact failureLoop_endsProperly c c.stack outcome h

theorem pushFailurePoint_endsProperly (c : Config) (point : FailurePoint) {k : Config → Step}
    (hk : ∀ c, EndsProperly (k c)) : EndsProperly (pushFailurePoint c point k) := by
  intro outcome h
  unfold pushFailurePoint at h
  split at h
  · cases h
    trivial
  · exact hk _ outcome h

theorem reMatchFinalizeJump_endsProperly (h : GetsOn c exit) (target : Nat) :
    EndsProperly (reMatchFinalizeJump c (some target)) := by
  obtain ⟨point, stack, hstack, -⟩ := h
  intro outcome h
  simp only [reMatchFinalizeJump, hstack, reMatchJump] at h
  cases h

theorem proper_of_step {outcome : Outcome} (hsound : c.Sound) (h : step buffer range c = .done outcome) :
    outcome.Proper := by
  unfold Config.Sound at hsound
  unfold step at h
  cases hfetch : fetch c.code c.patternPc with
  | none =>
      rw [hfetch] at h
      cases h
      trivial
  | some instruction =>
      rw [hfetch] at h hsound
      cases instruction with
      | unused => cases h
      | exact1 char | syntaxSpec inverse code => exact matchChar_endsProperly c 2 hsound _ outcome h
      | exactN chars =>
          obtain ⟨chars, rfl⟩ := isSome_iff_exists.mp hsound
          simp only [execute] at h
          split at h
          · cases h
          · exact failureLoop_endsProperly c c.stack outcome h
      | lineStart | lineEnd | bufferStart | bufferEnd | wordBound => exact matchTest_endsProperly c _ outcome h
      | jump target =>
          obtain ⟨t, rfl, -⟩ := hsound
          cases h
      | onFailureJump target | dummyFailureJump target =>
          obtain ⟨t, rfl, -⟩ := hsound
          simp only [execute] at h
          refine pushFailurePoint_endsProperly c _ ?_ outcome h
          intro c outcome h
          cases h
      | finalizeJump target =>
          obtain ⟨t, exit, rfl, -, hgetsOn⟩ := hsound
          exact reMatchFinalizeJump_endsProperly hgetsOn t outcome h
      | maybeFinalizeJump target =>
          obtain ⟨t, exit, rfl, -, hknown, hgetsOn⟩ := hsound
          simp only [execute] at h
          split at h
          · next hfinalize =>
              have hgetsOn' : GetsOn (c.rewrite 7) exit := hgetsOn hfinalize
              exact reMatchFinalizeJump_endsProperly hgetsOn' t outcome h
          · cases h
          · next hunknown => exact absurd hunknown hknown
      | anyChar | wordChar inverse =>
          simp only [execute] at h
          exact matchChar_endsProperly c 1 rfl _ outcome h
      | charSet inverse set => exact matchChar_endsProperly c _ hsound _ outcome h
      | startMemory register | stopMemory register =>
          obtain ⟨register, rfl⟩ := isSome_iff_exists.mp hsound
          cases h
      | duplicate register =>
          obtain ⟨register, rfl, hset⟩ := hsound
          simp only [execute] at h
          split at h
          · split at h
            · cases h
            · exact failureLoop_endsProperly c c.stack outcome h
          · next stop hstart hstop => exact absurd hstart (hset (hstop ▸ some_ne_none stop))
          · cases h
      | bad => exact hsound.elim

end

/-- `aa` in a buffer without a gap, or the first characters of it. -/
def aaBuffer (length : Nat) : Buffer where
  translation := none
  syntaxTable _ := 0
  text _ := 97
  textStartIndex := 0
  textEndIndex := length
  gapStart := length
  gapEnd := length
  start_le := Nat.zero_le _
  gap_le := Nat.le_refl _
  le_end := Nat.le_refl _

/-- `\(a*\)*` -/
def emptyLoopCode : List Byte := [13, 1, 6, 13, 0, 6, 5, 0, 1, 97, 8, 248, 255, 14, 1, 8, 240, 255]

/-- The same when its outer loop has been finalized. -/
def finalizedLoopCode : List Byte := [13, 1, 6, 13, 0, 6, 5, 0, 1, 97, 8, 248, 255, 14, 1, 7, 240, 255]

/-- Where the match of the empty text is, whatever is in the registers. -/
def EmptyLoop (c : Config) : Prop :=
  (c.code, c.patternPc, c.stack) ∈
    [(emptyLoopCode, 0, []), (emptyLoopCode, 2, []), (emptyLoopCode, 5, [some (18, 0)]),
      (emptyLoopCode, 8, [some (13, 0), some (18, 0)]), (emptyLoopCode, 13, [some (18, 0)]),
      (emptyLoopCode, 15, [some (18, 0)]), (finalizedLoopCode, 2, []), (finalizedLoopCode, 5, [some (18, 0)]),
      (finalizedLoopCode, 8, [some (13, 0), some (18, 0)]), (finalizedLoopCode, 13, [some (18, 0)]),
      (finalizedLoopCode, 15, [some (18, 0)])] ∧ c.matchPc = 0

/-- `a*` -/
def starCode : List Byte := [6, 5, 0, 1, 97, 8, 248, 255]

end MitScheme.Regex
