import MitScheme.Lib.Backtracking
import MitScheme.Lib.Slices
import MitScheme.Runtime.Regsexp
import Mathlib.Order.Nat

/-!
# What a regular s-expression matches

The ways in which a regular s-expression may match from an index on, in the order in which backtracking
comes to them, with the contents of the groups that were finished on the way, the last one first.
-/

namespace MitScheme.RegularSexpression

open Backtracking

variable {κ : Type} [DecidableEq κ]

/-- How far a match has come. -/
structure State (κ : Type) where
  index : Nat
  ended : List (κ × List Char)

variable (string : List Char) (start stop : Nat)

/-- The character before an index. -/
def before (index : Nat) : Option Char := if index > start then string[index - 1]? else none

/-- The character at an index. -/
def after (index : Nat) : Option Char := if index < stop then string[index]? else none

/-- One character that something holds of. -/
def one (predicate : Char → Bool) (s : State κ) : List (State κ) :=
  if (after string stop s.index).any predicate then [{ s with index := s.index + 1 }] else []

/-- Some characters, one after the other. -/
def literal (chars : List Char) (s : State κ) : List (State κ) :=
  if s.index + chars.length ≤ stop ∧ slice string s.index (s.index + chars.length) = chars then
    [{ s with index := s.index + chars.length }]
  else []

def at' (holds : Bool) (s : State κ) : List (State κ) := if holds then [s] else []

/-- The number of characters that are left. -/
def left (s : State κ) : Nat := stop - s.index

/-- The repetitions that `**` and `**?` stand for. -/
def repeated (shy : Bool) (limits : Limits) (step : State κ → List (State κ)) (s : State κ) :
    List (State κ) :=
  (exactly step limits.n s).flatMap
    (match limits.m with
      | some m => upTo shy step (m - limits.n)
      | none => unlimited shy (left stop) step)

mutual

/-- The ways of a regular s-expression. -/
def ways : Regsexp κ → State κ → List (State κ)
  | .char char, s => one string stop (fun c => c = char) s
  | .string chars, s => literal string stop chars s
  | .anyChar, s => one string stop (fun c => c ≠ '\n') s
  | .charSet charSet, s => one string stop charSet s
  | .inverseCharSet charSet, s => one string stop (fun c => !charSet c) s
  | .lineStart, s => at' ((before string start s.index).all fun c => c = '\n') s
  | .lineEnd, s => at' ((after string stop s.index).all fun c => c = '\n') s
  | .stringStart, s => at' (before string start s.index).isNone s
  | .stringEnd, s => at' (after string stop s.index).isNone s
  | .optional regsexp, s => ways regsexp s ++ [s]
  | .star regsexp, s => unlimited false (left stop) (fun s => ways regsexp s) s
  | .plus regsexp, s => repeated stop false .plus (fun s => ways regsexp s) s
  | .shyOptional regsexp, s => s :: ways regsexp s
  | .shyStar regsexp, s => unlimited true (left stop) (fun s => ways regsexp s) s
  | .shyPlus regsexp, s => repeated stop true .plus (fun s => ways regsexp s) s
  | .exactly n regsexp, s => repeated stop false (.same n) (fun s => ways regsexp s) s
  | .shyExactly n regsexp, s => repeated stop true (.same n) (fun s => ways regsexp s) s
  | .between limits regsexp, s => repeated stop false limits (fun s => ways regsexp s) s
  | .shyBetween limits regsexp, s => repeated stop true limits (fun s => ways regsexp s) s
  | .alt regsexps, s => altWays regsexps s
  | .seq regsexps, s => seqWays regsexps s
  | .group key regsexp, s => (ways regsexp s).map fun s' =>
      ⟨s'.index, (key, slice string s.index s'.index) :: s'.ended⟩
  | .groupRef key, s =>
      match assv key s.ended with
      | some chars => literal string stop chars s
      | none => [s]

/-- One of some regular s-expressions, from left to right. -/
def altWays : List (Regsexp κ) → State κ → List (State κ)
  | [], _ => []
  | regsexp :: regsexps, s => ways regsexp s ++ altWays regsexps s

/-- Some regular s-expressions, one after the other. -/
def seqWays : List (Regsexp κ) → State κ → List (State κ)
  | [], s => [s]
  | regsexp :: regsexps, s => (ways regsexp s).flatMap fun s => seqWays regsexps s

end

mutual

/-- No group is inside one with the same key, or referred to in itself. -/
def Regsexp.Nested (keys : List κ) : Regsexp κ → Prop
  | .char _ | .string _ | .anyChar | .charSet _ | .inverseCharSet _ => True
  | .lineStart | .lineEnd | .stringStart | .stringEnd => True
  | .optional regsexp | .star regsexp | .plus regsexp => regsexp.Nested keys
  | .shyOptional regsexp | .shyStar regsexp | .shyPlus regsexp => regsexp.Nested keys
  | .exactly _ regsexp | .shyExactly _ regsexp => regsexp.Nested keys
  | .between _ regsexp | .shyBetween _ regsexp => regsexp.Nested keys
  | .alt regsexps | .seq regsexps => nestedAll keys regsexps
  | .group key regsexp => key ∉ keys ∧ regsexp.Nested (key :: keys)
  | .groupRef key => key ∉ keys

def nestedAll (keys : List κ) : List (Regsexp κ) → Prop
  | [] => True
  | regsexp :: regsexps => regsexp.Nested keys ∧ nestedAll keys regsexps

end

/-- The first match of a regular s-expression, with its groups in the order in which they were finished. -/
def firstMatch (regsexp : Regsexp κ) (index : Nat) : Result κ :=
  match (ways string start stop regsexp ⟨index, []⟩).head? with
  | some s => .found index s.index s.ended.reverse
  | none => .notFound

/-!
## Matching in order

A linked instruction tries the ways of its regular s-expression, one after the other, and each time goes
on with its success continuation: the failure continuation of that is to try what is left.
-/

variable {κ : Type} {string : List Char} {start stop fuel : Nat}

/-! ## Indices -/

/-- A step does not go back, and not beyond the end. -/
def Forward (stop : Nat) (s s' : State κ) : Prop := s.index ≤ s'.index ∧ (s.index ≤ stop → s'.index ≤ stop)

theorem Forward.refl (s : State κ) : Forward stop s s := ⟨le_rfl, id⟩

theorem Forward.trans {s s' s'' : State κ} (h : Forward stop s s') (h' : Forward stop s' s'') :
    Forward stop s s'' := ⟨h.1.trans h'.1, fun hs => h'.2 (h.2 hs)⟩

theorem after_some {index : Nat} {char : Char} (h : after string stop index = some char) :
    index < stop ∧ string[index]? = some char := by
  rw [after] at h
  by_cases hlt : index < stop
  · rw [if_pos hlt] at h
    exact ⟨hlt, h⟩
  · rw [if_neg hlt] at h
    cases h

theorem forward_one {predicate : Char → Bool} (s : State κ) :
    ∀ s' ∈ one string stop predicate s, Forward stop s s' := by
  intro s' hs'
  rw [one] at hs'
  cases hafter : after string stop s.index with
  | none =>
      rw [hafter] at hs'
      cases hs'
  | some char =>
      have hlt := (after_some hafter).1
      split at hs'
      · rw [List.mem_singleton.mp hs']
        exact ⟨Nat.le_succ _, fun _ => hlt⟩
      · cases hs'

theorem forward_literal {chars : List Char} (s : State κ) :
    ∀ s' ∈ literal string stop chars s, Forward stop s s' := by
  intro s' hs'
  rw [literal] at hs'
  split at hs'
  · rename_i h
    rw [List.mem_singleton.mp hs']
    exact ⟨Nat.le_add_right _ _, fun _ => h.1⟩
  · cases hs'

theorem forward_at {holds : Bool} (s : State κ) : ∀ s' ∈ at' holds s, Forward stop s s' := by
  intro s' hs'
  rw [at'] at hs'
  split at hs'
  · rw [List.mem_singleton.mp hs']
    exact .refl s
  · cases hs'

theorem forward_repeated {shy : Bool} {limits : Limits} {step : State κ → List (State κ)}
    (h : ∀ s, ∀ s' ∈ step s, Forward stop s s') (s : State κ) :
    ∀ s' ∈ repeated stop shy limits step s, Forward stop s s' := by
  intro s' hs'
  obtain ⟨s1, hs1, hs'⟩ := List.mem_flatMap.mp hs'
  have hexactly := exactly_keeps Forward.refl (fun _ _ _ => Forward.trans) h limits.n s s1 hs1
  refine hexactly.trans ?_
  cases hm : limits.m with
  | none =>
      rw [hm] at hs'
      exact unlimited_keeps Forward.refl (fun _ _ _ => Forward.trans) h s1 s' hs'
  | some m =>
      rw [hm] at hs'
      exact upTo_keeps Forward.refl (fun _ _ _ => Forward.trans) h _ s1 s' hs'

variable [DecidableEq κ]

mutual

theorem forward_ways : (regsexp : Regsexp κ) → (s : State κ) →
    ∀ s' ∈ ways string start stop regsexp s, Forward stop s s'
  | .char _, s
  | .anyChar, s
  | .charSet _, s
  | .inverseCharSet _, s => by rw [ways]; exact forward_one s
  | .string _, s => by rw [ways]; exact forward_literal s
  | .lineStart, s
  | .lineEnd, s
  | .stringStart, s
  | .stringEnd, s => by rw [ways]; exact forward_at s
  | .optional regsexp, s => by
      rw [ways]
      intro s' hs'
      rcases List.mem_append.mp hs' with hs' | hs'
      · exact forward_ways regsexp s s' hs'
      · rw [List.mem_singleton.mp hs']
        exact .refl s
  | .shyOptional regsexp, s => by
      rw [ways]
      intro s' hs'
      rcases List.mem_cons.mp hs' with rfl | hs'
      · exact .refl s'
      · exact forward_ways regsexp s s' hs'
  | .star regsexp, s | .shyStar regsexp, s => by
      rw [ways]
      exact unlimited_keeps Forward.refl (fun _ _ _ => Forward.trans) (forward_ways regsexp) s
  | .plus regsexp, s
  | .shyPlus regsexp, s
  | .exactly _ regsexp, s
  | .shyExactly _ regsexp, s
  | .between _ regsexp, s
  | .shyBetween _ regsexp, s => by rw [ways]; exact forward_repeated (forward_ways regsexp) s
  | .alt regsexps, s => by rw [ways]; exact forward_altWays regsexps s
  | .seq regsexps, s => by rw [ways]; exact forward_seqWays regsexps s
  | .group _ regsexp, s => by
      rw [ways]
      intro s' hs'
      obtain ⟨s1, hs1, rfl⟩ := List.mem_map.mp hs'
      exact forward_ways regsexp s s1 hs1
  | .groupRef key, s => by
      rw [ways]
      cases assv key s.ended with
      | some chars => exact forward_literal s
      | none =>
          intro s' hs'
          rw [List.mem_singleton.mp hs']
          exact .refl s

theorem forward_altWays : (regsexps : List (Regsexp κ)) → (s : State κ) →
    ∀ s' ∈ altWays string start stop regsexps s, Forward stop s s'
  | [], s => by rw [altWays]; nofun
  | regsexp :: regsexps, s => by
      rw [altWays]
      intro s' hs'
      rcases List.mem_append.mp hs' with hs' | hs'
      · exact forward_ways regsexp s s' hs'
      · exact forward_altWays regsexps s s' hs'

theorem forward_seqWays : (regsexps : List (Regsexp κ)) → (s : State κ) →
    ∀ s' ∈ seqWays string start stop regsexps s, Forward stop s s'
  | [], s => by
      rw [seqWays]
      intro s' hs'
      rw [List.mem_singleton.mp hs']
      exact .refl s
  | regsexp :: regsexps, s => by
      rw [seqWays]
      intro s' hs'
      obtain ⟨s1, hs1, hs'⟩ := List.mem_flatMap.mp hs'
      exact (forward_ways regsexp s s1 hs1).trans (forward_seqWays regsexps s1 s' hs')

end

/-! ## Instructions -/

/-- An instruction tries the ways of a step, while some groups are unfinished. -/
def Tries (start stop : Nat) (keys : List κ) (insn : Insn κ Nat Unit) (step : State κ → List (State κ)) :
    Prop :=
  ∀ succeed index (started : List (κ × Nat)) ended fail, started.map Prod.fst = keys →
    start ≤ index → index ≤ stop →
      insn succeed index ⟨started, ended⟩ fail
        = run (fun s rest => succeed s.index ⟨started, s.ended⟩ rest) (step ⟨index, ended⟩) fail

section

omit [DecidableEq κ]

variable {keys : List κ} {insn insn' : Insn κ Nat Unit} {step step' : State κ → List (State κ)}

theorem tries_charMatching (predicate : Char → Bool) :
    Tries start stop keys (insnCharMatching (stringPositions string start stop) predicate)
      (one string stop predicate) := by
  intro succeed index started ended fail _ _ _
  funext state
  rw [one]
  change (if (after string stop index).any predicate then _ else _) = _
  split
  · rfl
  · rfl

theorem tries_test {test : Nat → Bool} :
    Tries start stop keys (insnTest test) fun s => at' (test s.index) s := by
  intro succeed index started ended fail _ _ _
  rw [insnTest]
  change _ = run _ (if test index then _ else _) fail
  split
  · rfl
  · rfl

theorem literal_cons (c : Char) (rest : List Char) (s : State κ) :
    literal string stop (c :: rest) s
      = (one string stop (fun char => char = c) s).flatMap (literal string stop rest) := by
  rw [literal, one, List.length_cons]
  have hcount : s.index + (rest.length + 1) = s.index + 1 + rest.length := by omega
  rw [hcount]
  cases hafter : after string stop s.index with
  | none =>
      rw [if_neg]
      · rfl
      · intro hboth
        have hget : string[s.index]? = some c := by
          have hslice : (slice string s.index (s.index + 1 + rest.length))[0]? = some c := by
            rw [hboth.2]
            rfl
          rw [getElem?_slice (by omega)] at hslice
          exact hslice
        rw [after, if_pos (by omega), hget] at hafter
        cases hafter
  | some char =>
      obtain ⟨hlt, hget⟩ := after_some hafter
      by_cases hchar : char = c
      · subst hchar
        have hone : (some char).any (fun c => c = char) = true := decide_eq_true rfl
        rw [if_pos hone, List.flatMap_singleton, literal, slice_cons hget (by omega)]
        simp only [List.cons.injEq, true_and]
      · have hone : ¬ (some char).any (fun c' => c' = c) = true := fun h => hchar (of_decide_eq_true h)
        rw [if_neg hone, if_neg]
        · rfl
        · intro hboth
          rw [slice_cons hget (by omega), List.cons.injEq] at hboth
          exact hchar hboth.2.1

theorem tries_stringLoop (chars : List Char) :
    Tries start stop keys (fun succeed => stringLoop (stringPositions string start stop) succeed chars)
      (literal string stop chars) := by
  induction chars with
  | nil =>
      intro succeed index started ended fail _ _ hstop
      rw [literal, if_pos ⟨hstop, slice_self string index⟩]
      rfl
  | cons c rest ih =>
      intro succeed index started ended fail hkeys hstart hstop
      funext state
      rw [literal_cons, run_flatMap, one]
      change (if (after string stop index).any (fun char => char = c) then
        stringLoop _ succeed rest (index + 1) _ fail state else fail state) = _
      cases hafter : after string stop index with
      | none => rfl
      | some char =>
          have hlt := (after_some hafter).1
          split
          · exact congrFun (ih succeed (index + 1) started ended fail hkeys (by omega) hlt) state
          · rfl

theorem tries_string (chars : List Char) :
    Tries start stop keys (insnString (stringPositions string start stop) chars)
      (literal string stop chars) := by
  cases chars with
  | nil => exact tries_stringLoop []
  | cons c rest =>
      cases rest with
      | nil => exact tries_stringLoop [c]
      | cons c' rest => exact tries_stringLoop (c :: c' :: rest)

theorem Tries.optional (h : Tries start stop keys insn step) :
    Tries start stop keys (insnOptional insn) fun s => step s ++ [s] := by
  intro succeed index started ended fail hkeys hstart hstop
  rw [insnOptional, failureChain, h _ _ _ _ _ hkeys hstart hstop, run_append]
  rfl

theorem Tries.shyOptional (h : Tries start stop keys insn step) :
    Tries start stop keys (insnShyOptional insn) fun s => s :: step s := by
  intro succeed index started ended fail hkeys hstart hstop
  rw [insnShyOptional, failureChain, h _ _ _ _ _ hkeys hstart hstop]
  rfl

theorem Tries.comp (h : Tries start stop keys insn step) (h' : Tries start stop keys insn' step')
    (hforward : ∀ s, ∀ s' ∈ step s, Forward stop s s') :
    Tries start stop keys (fun succeed => insn (insn' succeed)) fun s => (step s).flatMap step' := by
  intro succeed index started ended fail hkeys hstart hstop
  change insn (insn' succeed) index _ fail = _
  rw [h _ _ _ _ _ hkeys hstart hstop, run_flatMap]
  refine run_congr fun s hs rest => ?_
  obtain ⟨hle, hle'⟩ := hforward _ s hs
  exact h' succeed s.index started s.ended rest hkeys (hstart.trans hle) (hle' hstop)

theorem tries_always : Tries start stop keys alwaysSucceed fun s => [s] := fun _ _ _ _ _ _ _ _ => rfl

/-- More turns are tried first, or last. -/
def choose (shy : Bool) (more succeed : Linked κ Nat Unit) : Linked κ Nat Unit :=
  if shy then failureChain succeed more else failureChain more succeed

theorem choose_eq (shy : Bool) (more succeed : Linked κ Nat Unit) {index : Nat} {started : List (κ × Nat)}
    {ended : List (κ × List Char)} {fail : Run κ Unit} {ways : List (State κ)}
    (h : ∀ fail, more index ⟨started, ended⟩ fail
      = run (fun s rest => succeed s.index ⟨started, s.ended⟩ rest) ways fail) :
    choose shy more succeed index ⟨started, ended⟩ fail
      = run (fun s rest => succeed s.index ⟨started, s.ended⟩ rest) (prefer shy ways ⟨index, ended⟩) fail := by
  cases shy with
  | true =>
      rw [choose, if_pos rfl, failureChain, h]
      rfl
  | false =>
      rw [choose, if_neg (by decide), prefer, if_neg (by decide), failureChain, h, run_append]
      rfl

/-! ## Chains -/

theorem hybridChain_eq (limit : Nat) (preLinker : Linked κ Nat Unit → Insn κ Nat Unit) :
    hybridChain limit preLinker = immediateChain limit preLinker := by
  have hdelayed : delayedChain limit preLinker = immediateChain limit preLinker := by
    funext succeed
    induction limit with
    | zero => rfl
    | succ limit ih => exact congrArg (preLinker succeed) ih
  rw [hybridChain, hdelayed, ite_self]

theorem Tries.repeatExactly (h : Tries start stop keys insn step)
    (hforward : ∀ s, ∀ s' ∈ step s, Forward stop s s') (n : Nat) :
    Tries start stop keys (repeatExactly n insn) (exactly step n) := by
  rw [RegularSexpression.repeatExactly, hybridChain_eq]
  induction n with
  | zero => exact tries_always
  | succ n ih => exact h.comp ih hforward

theorem Tries.upTo (h : Tries start stop keys insn step)
    (hforward : ∀ s, ∀ s' ∈ step s, Forward stop s s') (shy : Bool) (limit : Nat) :
    Tries start stop keys (hybridChain limit fun succeed next => choose shy (insn next) succeed)
      (upTo shy step limit) := by
  rw [hybridChain_eq]
  induction limit with
  | zero => exact tries_always
  | succ limit ih =>
      intro succeed index started ended fail hkeys hstart hstop
      have hturn := h.comp ih hforward
      exact choose_eq shy (insn (immediateChain limit _ succeed)) succeed
        fun fail => hturn succeed index started ended fail hkeys hstart hstop

variable (string) in
/-- The loops of `*` and `*?`. -/
def turns (start stop : Nat) (shy : Bool) (insn : Insn κ Nat Unit) (succeed : Linked κ Nat Unit) :
    Nat → Linked κ Nat Unit
  | 0 => fun _ _ _ state => (.exhausted, state)
  | fuel + 1 => fun position groups fail =>
      choose shy
        (insn (afterTurn (stringPositions string start stop) (turns start stop shy insn succeed fuel) position))
        succeed position groups fail

theorem insnStar_eq (succeed : Linked κ Nat Unit) (fuel : Nat) :
    insnStar (stringPositions string start stop) insn succeed fuel
      = turns string start stop false insn succeed fuel := by
  induction fuel with
  | zero => rfl
  | succ fuel ih =>
      rw [insnStar, ih]
      rfl

theorem insnShyStar_eq (succeed : Linked κ Nat Unit) (fuel : Nat) :
    insnShyStar (stringPositions string start stop) insn succeed fuel
      = turns string start stop true insn succeed fuel := by
  induction fuel with
  | zero => rfl
  | succ fuel ih =>
      rw [insnShyStar, ih]
      rfl

theorem Tries.turns (h : Tries start stop keys insn step)
    (hforward : ∀ s, ∀ s' ∈ step s, Forward stop s s') (shy : Bool) {fuel : Nat}
    (hfuel : stop - start < fuel) :
    Tries start stop keys (fun succeed => turns string start stop shy insn succeed fuel)
      (unlimited shy (left stop) step) := by
  intro succeed index started ended fail hkeys hstart hstop
  have hless : stop - index < fuel := by omega
  clear hfuel
  induction fuel generalizing index ended fail with
  | zero => omega
  | succ fuel ih =>
      rw [unlimited]
      refine choose_eq shy _ succeed fun fail => ?_
      rw [h _ _ _ _ _ hkeys hstart hstop, run_flatMap]
      refine run_congr fun s hs rest => ?_
      obtain ⟨hle, hle'⟩ := hforward _ s hs
      have hstop' := hle' hstop
      dsimp only at hle
      change (if (s.index == index) = true then _ else _) = run _ (if stop - s.index < stop - index then _ else _) _
      by_cases hsame : s.index = index
      · rw [if_pos (beq_iff_eq.mpr hsame), if_neg (by omega)]
        rfl
      · rw [if_neg fun heq => hsame (beq_iff_eq.mp heq), if_pos (by omega)]
        exact ih s.index s.ended rest (by omega) hstop' (by omega)

theorem Tries.star (h : Tries start stop keys insn step)
    (hforward : ∀ s, ∀ s' ∈ step s, Forward stop s s') (hfuel : stop - start < fuel) :
    Tries start stop keys (fun succeed => insnStar (stringPositions string start stop) insn succeed fuel)
      (unlimited false (left stop) step) := by
  simp only [insnStar_eq]
  exact h.turns hforward false hfuel

theorem Tries.shyStar (h : Tries start stop keys insn step)
    (hforward : ∀ s, ∀ s' ∈ step s, Forward stop s s') (hfuel : stop - start < fuel) :
    Tries start stop keys (fun succeed => insnShyStar (stringPositions string start stop) insn succeed fuel)
      (unlimited true (left stop) step) := by
  simp only [insnShyStar_eq]
  exact h.turns hforward true hfuel

theorem Tries.between (h : Tries start stop keys insn step)
    (hforward : ∀ s, ∀ s' ∈ step s, Forward stop s s') (hfuel : stop - start < fuel) (limits : Limits) :
    Tries start stop keys (insnBetween (stringPositions string start stop) fuel limits insn)
      (repeated stop false limits step) := by
  have hexactly := h.repeatExactly hforward limits.n
  have hforward' := exactly_keeps Forward.refl (fun _ _ _ => Forward.trans) hforward limits.n
  obtain ⟨n, m, hle⟩ := limits
  cases m with
  | none =>
      have hstar : Tries start stop keys
          (fun succeed => insnStar (stringPositions string start stop) insn succeed fuel) _ :=
        h.star hforward hfuel
      exact hexactly.comp hstar hforward'
  | some m => exact hexactly.comp (h.upTo hforward false (m - n)) hforward'

theorem Tries.shyBetween (h : Tries start stop keys insn step)
    (hforward : ∀ s, ∀ s' ∈ step s, Forward stop s s') (hfuel : stop - start < fuel) (limits : Limits) :
    Tries start stop keys (insnShyBetween (stringPositions string start stop) fuel limits insn)
      (repeated stop true limits step) := by
  have hexactly := h.repeatExactly hforward limits.n
  have hforward' := exactly_keeps Forward.refl (fun _ _ _ => Forward.trans) hforward limits.n
  obtain ⟨n, m, hle⟩ := limits
  cases m with
  | none =>
      have hstar : Tries start stop keys
          (fun succeed => insnShyStar (stringPositions string start stop) insn succeed fuel) _ :=
        h.shyStar hforward hfuel
      exact hexactly.comp hstar hforward'
  | some m => exact hexactly.comp (h.upTo hforward true (m - n)) hforward'

theorem insnAlt_cons (insn : Insn κ Nat Unit) (insns : List (Insn κ Nat Unit)) :
    insnAlt (insn :: insns) = fun succeed => failureChain (insn succeed) (insnAlt insns succeed) := by
  cases insns with
  | nil => rfl
  | cons insn' insns => rfl

end

/-! ## Groups -/

theorem finishGroup_eq {i : Nat} (hi : start ≤ i) (fuel : Nat) {j : Nat} (hij : i ≤ j)
    (hj : j ≤ string.length) (hfuel : j - i < fuel) (chars : List Char) :
    finishGroup (κ := κ) (stringPositions string start stop) i fuel j chars = .ok (slice string i j ++ chars) := by
  induction fuel generalizing j chars with
  | zero => omega
  | succ fuel ih =>
      change (if (j == i) = true then _ else _) = _
      by_cases hsame : j = i
      · rw [if_pos (beq_iff_eq.mpr hsame), hsame, slice_self]
        rfl
      · rw [if_neg fun heq => hsame (beq_iff_eq.mp heq)]
        have hlt : j - 1 < string.length := by omega
        have hprev : (stringPositions string start stop).prevChar j = some string[j - 1] := by
          change (if j > start then string[j - 1]? else none) = _
          rw [if_pos (by omega), List.getElem?_eq_getElem hlt]
        have hback : (stringPositions string start stop).prevPosition j = some (j - 1) := rfl
        have hlast : slice string (j - 1) j = [string[j - 1]] := by
          rw [slice_cons (List.getElem?_eq_getElem hlt) (by omega), Nat.sub_add_cancel (by omega), slice_self]
        rw [hprev, hback]
        dsimp only
        rw [ih (by omega) (by omega) (by omega), ← slice_append string (by omega : i ≤ j - 1) (Nat.sub_le j 1),
          hlast, List.append_assoc]
        rfl

variable {keys : List κ} {insn : Insn κ Nat Unit} {step : State κ → List (State κ)}

omit [DecidableEq κ] in
theorem assv_eq_none [DecidableEq κ] {α : Type} {key : κ} {l : List (κ × α)} (h : key ∉ l.map Prod.fst) :
    assv key l = none := by
  rw [assv, Option.map_eq_none_iff, List.find?_eq_none]
  intro p hp heq
  exact h (of_decide_eq_true heq ▸ List.mem_map_of_mem hp)

theorem Tries.group {key : κ} (hlength : stop ≤ string.length) (hkey : key ∉ keys)
    (h : Tries start stop (key :: keys) insn step) (hforward : ∀ s, ∀ s' ∈ step s, Forward stop s s') :
    Tries start stop keys (insnGroup (stringPositions string start stop) key insn) fun s =>
      (step s).map fun s' => ⟨s'.index, (key, slice string s.index s'.index) :: s'.ended⟩ := by
  intro succeed index started ended fail hkeys hstart hstop
  have hstarted : Groups.startGroup ⟨started, ended⟩ key index = .ok ⟨(key, index) :: started, ended⟩ := by
    rw [Groups.startGroup, assv_eq_none (hkeys.symm ▸ hkey)]
    rfl
  have hkeys' : ((key, index) :: started).map Prod.fst = key :: keys := congrArg (key :: ·) hkeys
  rw [insnGroup]
  dsimp only
  rw [hstarted, orSignal, h _ _ _ _ _ hkeys' hstart hstop, run_map]
  refine run_congr fun s hs rest => ?_
  obtain ⟨hle, hle'⟩ := hforward _ s hs
  have hstop' := hle' hstop
  have hended : Groups.endGroup (stringPositions string start stop) ⟨(key, index) :: started, s.ended⟩ key
      s.index = .ok ⟨started, (key, slice string index s.index) :: s.ended⟩ := by
    rw [Groups.endGroup]
    dsimp only
    rw [if_pos rfl]
    have hfuel : s.index - index < (stringPositions string start stop).getIndex s.index + 1 :=
      Nat.lt_succ_of_le (Nat.sub_le s.index index)
    rw [finishGroup_eq hstart _ hle (hstop'.trans hlength) hfuel, List.append_nil]
    rfl
  rw [hended]
  rfl

theorem tries_groupRef {key : κ} (hkey : key ∉ keys) :
    Tries start stop keys (insnGroupRef (stringPositions string start stop) key) fun s =>
      match assv key s.ended with
      | some chars => literal string stop chars s
      | none => [s] := by
  intro succeed index started ended fail hkeys hstart hstop
  have hvalue : Groups.getValue ⟨started, ended⟩ key = .ok (assv key ended) := by
    rw [Groups.getValue, assv_eq_none (hkeys.symm ▸ hkey)]
    rfl
  rw [insnGroupRef, hvalue]
  dsimp only
  cases assv key ended with
  | none => rfl
  | some chars => exact tries_string chars succeed index started ended fail hkeys hstart hstop

/-! ## The compiler -/

section

variable (hlength : stop ≤ string.length) (hfuel : stop - start < fuel)

include hlength hfuel

mutual

theorem tries_compile : (regsexp : Regsexp κ) → (keys : List κ) → regsexp.Nested keys →
    Tries start stop keys (compile (stringPositions string start stop) fuel regsexp)
      (ways string start stop regsexp)
  | .char _, _, _ | .anyChar, _, _ | .charSet _, _, _ | .inverseCharSet _, _, _ => by
      simp only [compile, ways]
      exact tries_charMatching _
  | .string chars, _, _ => by
      simp only [compile, ways]
      exact tries_string chars
  | .lineStart, _, _ | .lineEnd, _, _ | .stringStart, _, _ | .stringEnd, _, _ => by
      simp only [compile, ways]
      exact tries_test
  | .optional regsexp, keys, h => by
      rw [Regsexp.Nested] at h
      simp only [compile, ways]
      exact (tries_compile regsexp keys h).optional
  | .shyOptional regsexp, keys, h => by
      rw [Regsexp.Nested] at h
      simp only [compile, ways]
      exact (tries_compile regsexp keys h).shyOptional
  | .star regsexp, keys, h => by
      rw [Regsexp.Nested] at h
      simp only [compile, ways]
      exact (tries_compile regsexp keys h).star (forward_ways regsexp) hfuel
  | .shyStar regsexp, keys, h => by
      rw [Regsexp.Nested] at h
      simp only [compile, ways]
      exact (tries_compile regsexp keys h).shyStar (forward_ways regsexp) hfuel
  | .plus regsexp, keys, h | .exactly n regsexp, keys, h | .between limits regsexp, keys, h => by
      rw [Regsexp.Nested] at h
      simp only [compile, ways]
      exact (tries_compile regsexp keys h).between (forward_ways regsexp) hfuel _
  | .shyPlus regsexp, keys, h
  | .shyExactly n regsexp, keys, h
  | .shyBetween limits regsexp, keys, h => by
      rw [Regsexp.Nested] at h
      simp only [compile, ways]
      exact (tries_compile regsexp keys h).shyBetween (forward_ways regsexp) hfuel _
  | .alt regsexps, keys, h => by
      rw [Regsexp.Nested] at h
      simp only [compile, ways]
      exact tries_alt regsexps keys h
  | .seq regsexps, keys, h => by
      rw [Regsexp.Nested] at h
      simp only [compile, ways]
      exact tries_seq regsexps keys h
  | .group key regsexp, keys, h => by
      rw [Regsexp.Nested] at h
      simp only [compile, ways]
      exact (tries_compile regsexp (key :: keys) h.2).group hlength h.1 (forward_ways regsexp)
  | .groupRef key, keys, h => by
      rw [Regsexp.Nested] at h
      simp only [compile, ways]
      exact tries_groupRef h

theorem tries_alt : (regsexps : List (Regsexp κ)) → (keys : List κ) → nestedAll keys regsexps →
    Tries start stop keys (insnAlt (compileAll (stringPositions string start stop) fuel regsexps))
      (altWays string start stop regsexps)
  | [], _, _ => by
      simp only [compileAll]
      intro succeed index started ended fail _ _ _
      rw [altWays]
      rfl
  | regsexp :: regsexps, keys, h => by
      rw [nestedAll] at h
      intro succeed index started ended fail hkeys hstart hstop
      rw [compileAll, insnAlt_cons, altWays, run_append]
      change compile _ fuel regsexp succeed index _ (insnAlt _ succeed index _ fail) = _
      rw [tries_alt regsexps keys h.2 _ _ _ _ _ hkeys hstart hstop,
        tries_compile regsexp keys h.1 _ _ _ _ _ hkeys hstart hstop]

theorem tries_seq : (regsexps : List (Regsexp κ)) → (keys : List κ) → nestedAll keys regsexps →
    Tries start stop keys (insnSeq (compileAll (stringPositions string start stop) fuel regsexps))
      (seqWays string start stop regsexps)
  | [], _, _ => by
      simp only [compileAll]
      intro succeed index started ended fail _ _ _
      rw [seqWays]
      rfl
  | regsexp :: regsexps, keys, h => by
      rw [nestedAll] at h
      simp only [compileAll]
      have hcomp := (tries_compile regsexp keys h.1).comp (tries_seq regsexps keys h.2) (forward_ways regsexp)
      intro succeed index started ended fail hkeys hstart hstop
      rw [seqWays]
      exact hcomp succeed index started ended fail hkeys hstart hstop

end

variable {index : Nat} {regsexp : Regsexp κ}

theorem topLevelMatch_eq (h : regsexp.Nested []) (hstart : start ≤ index) (hstop : index ≤ stop) :
    (topLevelMatch (compileRegsexp (stringPositions string start stop) fuel regsexp) index ()).1.startingAt index
      = firstMatch string start stop regsexp index := by
  rw [topLevelMatch, compileRegsexp, tries_compile hlength hfuel regsexp [] h _ _ _ _ _ rfl hstart hstop,
    run_const, firstMatch]
  cases (ways string start stop regsexp ⟨index, []⟩).head? with
  | none => rfl
  | some s => rfl

theorem searchForward_step (h : regsexp.Nested []) (count : Nat)
    (hstart : start ≤ index) (hstop : index + count = stop) :
    searchForward (stringPositions string start stop)
        (compileRegsexp (stringPositions string start stop) fuel regsexp) count index
      = if firstMatch string start stop regsexp index = .notFound then
          match count with
          | 0 => .notFound
          | count + 1 => searchForward (stringPositions string start stop)
              (compileRegsexp (stringPositions string start stop) fuel regsexp) count (index + 1)
        else firstMatch string start stop regsexp index := by
  have hmatch := topLevelMatch_eq hlength hfuel h hstart (by omega)
  have hindex : (stringPositions string start stop).getIndex index = index := rfl
  conv_lhs => unfold searchForward
  rw [hindex, hmatch]
  cases hfirst : firstMatch string start stop regsexp index with
  | notFound =>
      cases count with
      | zero => rfl
      | succ count =>
          have hchar : ((stringPositions string start stop).nextChar index).isSome = true := by
            change (if index < stop then string[index]? else none).isSome = true
            rw [if_pos (by omega), List.getElem?_eq_getElem (by omega)]
            rfl
          dsimp only
          rw [if_pos hchar]
          rfl
  | found _ _ _ | error _ | exhausted => cases count <;> rfl

theorem searchForward_eq (h : regsexp.Nested []) (count : Nat)
    (hstart : start ≤ index) (hstop : index + count = stop) :
    (searchForward (stringPositions string start stop)
        (compileRegsexp (stringPositions string start stop) fuel regsexp) count index = .notFound
      ∧ ∀ i, index ≤ i → i ≤ stop → firstMatch string start stop regsexp i = .notFound)
      ∨ ∃ i, index ≤ i ∧ i ≤ stop ∧ (∀ j, index ≤ j → j < i → firstMatch string start stop regsexp j = .notFound)
        ∧ firstMatch string start stop regsexp i ≠ .notFound
        ∧ searchForward (stringPositions string start stop)
          (compileRegsexp (stringPositions string start stop) fuel regsexp) count index
          = firstMatch string start stop regsexp i := by
  induction count generalizing index with
  | zero =>
      rw [searchForward_step hlength hfuel h 0 hstart hstop]
      by_cases hfirst : firstMatch string start stop regsexp index = .notFound
      · rw [if_pos hfirst]
        refine .inl ⟨rfl, fun i hle hle' => ?_⟩
        obtain rfl : i = index := by omega
        exact hfirst
      · rw [if_neg hfirst]
        exact .inr ⟨index, le_rfl, by omega, fun j hj hj' => by omega, hfirst, rfl⟩
  | succ count ih =>
      rw [searchForward_step hlength hfuel h (count + 1) hstart hstop]
      by_cases hfirst : firstMatch string start stop regsexp index = .notFound
      · rw [if_pos hfirst]
        have hless : ∀ j, index ≤ j → j < index + 1 → firstMatch string start stop regsexp j = .notFound := by
          intro j hj hj'
          obtain rfl : j = index := by omega
          exact hfirst
        rcases ih (by omega : start ≤ index + 1) (by omega) with ⟨hnone, hall⟩
          | ⟨i, hi, hi', hbefore, hfound, hresult⟩
        · refine .inl ⟨hnone, fun i hle hle' => ?_⟩
          rcases Nat.lt_or_ge i (index + 1) with hlt | hge
          · exact hless i hle hlt
          · exact hall i hge hle'
        · refine .inr ⟨i, by omega, hi', fun j hj hj' => ?_, hfound, hresult⟩
          rcases Nat.lt_or_ge j (index + 1) with hlt | hge
          · exact hless j hj hlt
          · exact hbefore j hge hj'
      · rw [if_neg hfirst]
        exact .inr ⟨index, le_rfl, by omega, fun j hj hj' => by omega, hfirst, rfl⟩

end

omit [DecidableEq κ] in
theorem withRange_eq {nfc : List Char → Bool} {caller : String} {string : List Char} {first last : Option Nat}
    {start stop : Nat} {result : Nat → Nat → Result κ} (hnfc : nfc string = true)
    (hlast : Codec.fixEndIndex last string.length caller = .ok stop)
    (hfirst : Codec.fixStartIndex first stop caller = .ok start) :
    withRange nfc caller string first last result = result start stop := by
  rw [withRange, hlast]
  dsimp only
  rw [hfirst]
  exact if_pos hnfc

theorem fixEndIndex_le {last : Option Nat} {length stop : Nat} {caller : String}
    (h : Codec.fixEndIndex last length caller = .ok stop) : stop ≤ length := by
  cases last with
  | none =>
      cases h
      exact le_rfl
  | some last =>
      rw [Codec.fixEndIndex] at h
      by_cases hle : last ≤ length
      · rw [if_pos hle] at h
        cases h
        exact hle
      · rw [if_neg hle] at h
        cases h

theorem fixStartIndex_le {first : Option Nat} {start stop : Nat} {caller : String}
    (h : Codec.fixStartIndex first stop caller = .ok start) : start ≤ stop := by
  cases first with
  | none =>
      cases h
      exact Nat.zero_le stop
  | some first =>
      rw [Codec.fixStartIndex] at h
      by_cases hle : first ≤ stop
      · rw [if_pos hle] at h
        cases h
        exact hle
      · rw [if_neg hle] at h
        cases h

/-- In a string in NFC, a match of a regular s-expression in which no group is referred to in itself is
found as backtracking finds it, with the groups that were finished on the way, and no error is signalled.
A search finds the match at the first index from which there is one. -/
theorem regsexp_matches_first (nfc : List Char → Bool) (regsexp : Regsexp κ) (hnested : regsexp.Nested [])
    (string : List Char) (hnfc : nfc string = true) (first last : Option Nat) (start stop fuel : Nat)
    (hlast : ∀ caller, Codec.fixEndIndex last string.length caller = .ok stop)
    (hfirst : ∀ caller, Codec.fixStartIndex first stop caller = .ok start) (hfuel : string.length < fuel) :
    regsexpMatchString nfc fuel regsexp string first last = firstMatch string start stop regsexp start
      ∧ ((regsexpSearchStringForward nfc fuel regsexp string first last = .notFound
          ∧ ∀ i, start ≤ i → i ≤ stop → firstMatch string start stop regsexp i = .notFound)
        ∨ ∃ i, start ≤ i ∧ i ≤ stop
          ∧ (∀ j, start ≤ j → j < i → firstMatch string start stop regsexp j = .notFound)
          ∧ firstMatch string start stop regsexp i ≠ .notFound
          ∧ regsexpSearchStringForward nfc fuel regsexp string first last
            = firstMatch string start stop regsexp i) := by
  have hlength : stop ≤ string.length := fixEndIndex_le (hlast "")
  have hle : start ≤ stop := fixStartIndex_le (hfirst "")
  have hfuel' : stop - start < fuel := by omega
  constructor
  · rw [regsexpMatchString, withRange_eq hnfc (hlast _) (hfirst _)]
    exact topLevelMatch_eq hlength hfuel' hnested le_rfl hle
  · rw [regsexpSearchStringForward, withRange_eq hnfc (hlast _) (hfirst _)]
    exact searchForward_eq hlength hfuel' hnested (stop - start) le_rfl (by omega)

theorem regsexp_matches_first_aab :
    regsexpMatchString (fun _ => true) 4
        (.seq [.group 1 (.star (.char 'a')), .alt [.string ['a', 'b'], .groupRef 1]])
        ['a', 'a', 'b'] none none
      = .found 0 3 [(1, ['a'])] := by
  have h := (regsexp_matches_first (fun _ => true)
    (.seq [.group 1 (.star (.char 'a')), .alt [.string ['a', 'b'], .groupRef 1]])
    (by simp [Regsexp.Nested, nestedAll]) ['a', 'a', 'b'] rfl none none 0 3 4 (fun _ => rfl) (fun _ => rfl)
    (by decide)).1
  decide +kernel

/-- A group that is referred to in itself is an error, and so is a string that is not in NFC. -/
theorem unfinished_group_is_error :
    regsexpMatchString (fun _ => true) 1 (.group 0 (.groupRef 0)) [] none none = .error (.unfinished 0)
      ∧ firstMatch [] 0 0 (.group 0 (.groupRef 0)) 0 = .found 0 0 [(0, [])]
      ∧ regsexpMatchString (fun string => string ≠ ['e', '\u0301']) 3 (.anyChar : Regsexp Nat) ['e', '\u0301']
          none none = .error (.notNfc "regsexp-match-string")
      ∧ firstMatch ['e', '\u0301'] 0 2 (.anyChar : Regsexp Nat) 0 = .found 0 1 [] := by
  decide +kernel

end MitScheme.RegularSexpression
