import MitScheme.Microcode.UuoLinks
import Mathlib.Tactic.IntervalCases

/-!
# Every link leads to the same frame

A frame is a list of objects on top of the stack, the first one on top. Whether the words of a frame are
moved to open a gap, moved over surplus arguments, or popped and pushed again by a trampoline, what is on
the stack then is the list that the parameters of the procedure ask for, on top of what was below the
arguments.
-/

namespace MitScheme.UuoLinks

open List Function Machine
open Outcome (toScheme)
open Function (update)

variable {m m' m'' : Machine} {nArgs nMin nOptional nMax : Nat} {restP : Bool} {object : Object}

theorem copyUp_apply (source target : Int) (n : Nat) (stack : Int → Object) (a : Int)
    (h : target ≤ source) : copyUp source target n stack a =
      if target ≤ a ∧ a < target + n then stack (a + (source - target)) else stack a := by
  induction n generalizing source target stack with
  | zero =>
      rw [copyUp, if_neg (by omega)]
  | succ n ih =>
      rw [copyUp, ih (source + 1) (target + 1) _ (by omega)]
      by_cases hin : target + 1 ≤ a ∧ a < target + 1 + n
      · rw [if_pos hin, if_pos (by omega), update_of_ne (by omega)]
        congr 1
        omega
      · rw [if_neg hin]
        by_cases ha : a = target
        · subst ha
          rw [update_self, if_pos (by omega)]
          congr 1
          omega
        · rw [update_of_ne ha, if_neg (by omega)]

theorem copyDown_apply (source target : Int) (n : Nat) (stack : Int → Object) (a : Int)
    (h : source ≤ target) : copyDown source target n stack a =
      if target - n ≤ a ∧ a < target then stack (a - (target - source)) else stack a := by
  induction n generalizing source target stack with
  | zero =>
      rw [copyDown, if_neg (by omega)]
  | succ n ih =>
      rw [copyDown, ih (source - 1) (target - 1) _ (by omega)]
      by_cases hin : target - 1 - n ≤ a ∧ a < target - 1
      · rw [if_pos hin, if_pos (by omega), update_of_ne (by omega)]
        congr 1
        omega
      · rw [if_neg hin]
        by_cases ha : a = target - 1
        · subst ha
          rw [update_self, if_pos (by omega)]
          congr 1
          omega
        · rw [update_of_ne ha, if_neg (by omega)]

theorem fillDefaults_apply (scan : Int) (n : Nat) (stack : Int → Object) (a : Int) :
    fillDefaults scan n stack a = if scan ≤ a ∧ a < scan + n then .default else stack a := by
  induction n generalizing scan stack with
  | zero => rw [fillDefaults, if_neg (by omega)]
  | succ n ih =>
      rw [fillDefaults, ih]
      by_cases hin : scan + 1 ≤ a ∧ a < scan + 1 + n
      · rw [if_pos hin, if_pos (by omega)]
      · rw [if_neg hin]
        by_cases ha : a = scan
        · subst ha
          rw [update_self, if_pos (by omega)]
        · rw [update_of_ne ha, if_neg (by omega)]

/-- The objects on top of the stack. -/
def Machine.arguments (m : Machine) (n : Nat) : List Object := (List.range n).map m.stackRef

@[simp] theorem arguments_length (m : Machine) (n : Nat) : (m.arguments n).length = n := by
  rw [arguments, length_map, length_range]

variable {n : Nat} {frame : List Object}

@[simp] theorem arguments_get (m : Machine) {j : Nat} (h : j < (m.arguments n).length) :
    (m.arguments n)[j] = m.stackRef j := by
  simp [arguments]

/-- A frame has taken the place of the arguments. -/
structure Framed (m m' : Machine) (nArgs : Nat) (frame : List Object) : Prop where
  pointer : m'.stackPointer = m.stackPointer + nArgs - frame.length
  frame : ∀ j (h : j < frame.length), m'.stackRef j = frame[j]
  below : ∀ a, m.stackPointer + nArgs ≤ a → m'.stack a = m.stack a

/-- The arguments with `DEFAULT_OBJECT` for each missing parameter. -/
def defaulted (m : Machine) (nArgs nNeeded : Nat) : List Object :=
  m.arguments nArgs ++ List.replicate (nNeeded - nArgs) .default

theorem openGap_spec (nArgs nNeeded : Nat) (m : Machine) :
    (∃ m', openGap nArgs nNeeded m = (true, m') ∧ m' = m.stackCheck (nNeeded - nArgs)
        ∧ m'.pendingInterrupts = true)
      ∨ ∃ m', openGap nArgs nNeeded m = (false, m') ∧ Framed m m' nArgs (defaulted m nArgs nNeeded)
        ∧ m'.heap = m.heap ∧ m'.free = m.free := by
  obtain ⟨m1, hm1⟩ : ∃ m1, m1 = m.stackCheck (nNeeded - nArgs) := ⟨_, rfl⟩
  have hsame : m1.stack = m.stack ∧ m1.stackPointer = m.stackPointer ∧ m1.heap = m.heap
      ∧ m1.free = m.free := by
    rw [hm1, Machine.stackCheck]
    split <;> exact ⟨rfl, rfl, rfl, rfl⟩
  obtain ⟨hstack, hpointer, hheap, hfree⟩ := hsame
  unfold openGap
  dsimp only
  rw [← hm1]
  cases hpending : m1.pendingInterrupts with
  | true =>
      exact .inl ⟨m1, rfl, rfl, hpending⟩
  | false =>
      refine .inr ⟨_, rfl, ⟨?_, fun j hj => ?_, fun a ha => ?_⟩, hheap, hfree⟩
      · simp only [openStackGap, defaulted, length_append, arguments_length, length_replicate, hpointer]
        omega
      · simp only [defaulted, length_append, arguments_length, length_replicate] at hj
        simp only [stackRef, openStackGap, fillDefaults_apply, hpointer, hstack]
        rw [copyUp_apply _ _ _ _ _ (by omega)]
        by_cases hlt : j < nArgs
        · rw [if_neg (by omega), if_pos (by omega)]
          simp only [defaulted]
          rw [getElem_append_left (by simpa using hlt), arguments_get]
          congr 1
          omega
        · rw [if_pos (by omega)]
          simp only [defaulted]
          rw [getElem_append_right (by simpa using hlt), getElem_replicate]
      · simp only [openStackGap, fillDefaults_apply, hpointer, hstack]
        rw [copyUp_apply _ _ _ _ _ (by omega), if_neg (by omega), if_neg (by omega)]

/-! ## Trampolines for an arity -/

/-- Objects are pushed, the last one first. -/
def Machine.pushes (m : Machine) (objects : List Object) : Machine :=
  objects.foldr (fun object m => m.push object) m

/-- Objects are popped. -/
def Machine.popped (m : Machine) (n : Nat) : Machine := { m with stackPointer := m.stackPointer + n }

theorem Framed.push {n : Nat} {frame : List Object} (h : Framed m m' n frame) (object : Object) :
    Framed m (m'.push object) n (object :: frame) := by
  refine ⟨?_, fun j hj => ?_, fun a ha => ?_⟩
  · change m'.stackPointer - 1 = _
    rw [h.pointer, length_cons]
    omega
  · change update m'.stack (m'.stackPointer - 1) object (m'.stackPointer - 1 + j) = _
    cases j with
    | zero => exact (update_apply ..).trans (if_pos (Int.add_zero _))
    | succ j =>
        rw [update_of_ne (by omega), getElem_cons_succ,
          ← h.frame j (by simpa using hj)]
        congr 1
        omega
  · change update m'.stack (m'.stackPointer - 1) object a = _
    rw [update_of_ne (by rw [h.pointer]; omega), h.below a ha]

theorem pushes_framed (m : Machine) (n : Nat) (frame : List Object) :
    Framed m ((m.popped n).pushes frame) n frame ∧ ((m.popped n).pushes frame).heap = m.heap
      ∧ ((m.popped n).pushes frame).free = m.free := by
  induction frame with
  | nil =>
      exact ⟨⟨(Int.sub_zero _).symm, fun j hj => absurd hj (Nat.not_lt_zero j), fun _ _ => rfl⟩, rfl, rfl⟩
  | cons object frame ih => exact ⟨ih.1.push object, ih.2⟩

@[simp] theorem popped_zero (m : Machine) : m.popped 0 = m := by
  rw [Machine.popped]
  congr 1
  omega

theorem pop_eq (m : Machine) : m.pop = m.popped 1 := rfl

@[simp] theorem popped_popped (m : Machine) (n k : Nat) : (m.popped n).popped k = m.popped (n + k) := by
  simp only [Machine.popped, Int.natCast_add, Int.add_assoc]

@[simp] theorem popped_stackRef (m : Machine) (n j : Nat) :
    (m.popped n).stackRef j = m.stackRef (n + j) := by
  simp only [stackRef, Machine.popped, Int.natCast_add, Int.add_assoc]

theorem arity_trampoline (procedure : CompiledEntry) (h : nArgs < nMax) (hmax : nMax ≤ trampolineTableSize)
    (m : Machine) :
    (Link.trampoline ⟨trampolineArityTable.getD ((nMax - 1) * trampolineTableSize + nArgs) .apply,
        procedure, 0⟩).call m
      = some (.toScheme procedure ((m.popped nArgs).pushes (defaulted m nArgs nMax))) := by
  have hmax' : nMax ≤ 4 := hmax
  have hrange : List.range 3 = [0, 1, 2] := rfl
  have hrange' : List.range 2 = [0, 1] := rfl
  interval_cases nMax <;> interval_cases nArgs
  · change some (toScheme procedure (operator_1_0_trap m)) = _
    simp [operator_1_0_trap, defaulted, arguments, pushes]
  · change some (toScheme procedure (operator_2_0_trap m)) = _
    simp [operator_2_0_trap, defaulted, arguments, pushes, List.replicate]
  · change some (toScheme procedure (operator_2_1_trap m)) = _
    simp [operator_2_1_trap, defaulted, arguments, pushes, pop_eq]
  · change some (toScheme procedure (operator_3_0_trap m)) = _
    simp [operator_3_0_trap, defaulted, arguments, pushes, List.replicate]
  · change some (toScheme procedure (operator_3_1_trap m)) = _
    simp [operator_3_1_trap, defaulted, arguments, pushes, List.replicate, pop_eq]
  · change some (toScheme procedure (operator_3_2_trap m)) = _
    simp [operator_3_2_trap, defaulted, arguments, pushes, hrange', pop_eq]
  · change some (toScheme procedure (operator_4_0_trap m)) = _
    simp [operator_4_0_trap, defaulted, arguments, pushes, List.replicate]
  · change some (toScheme procedure (operator_4_1_trap m)) = _
    simp [operator_4_1_trap, defaulted, arguments, pushes, List.replicate, pop_eq]
  · change some (toScheme procedure (operator_4_2_trap m)) = _
    simp [operator_4_2_trap, defaulted, arguments, pushes, List.replicate, hrange', pop_eq]
  · change some (toScheme procedure (operator_4_3_trap m)) = _
    simp [operator_4_3_trap, defaulted, arguments, pushes, hrange, pop_eq]

/-! ## Rest arguments -/

/-- A list in words of the heap from an address on. -/
def ListAt (heap : Nat → Object) (low : Nat) : Object → List Object → Prop
  | object, [] => object = .emptyList
  | object, x :: xs => ∃ a, low ≤ a ∧ object = .list a ∧ heap a = x ∧ ListAt heap low (heap (a + 1)) xs

theorem listAt_of_words {heap : Nat → Object} {low a : Nat} {xs : List Object} (hne : xs ≠ [])
    (hlow : low ≤ a) (hcar : ∀ i (h : i < xs.length), heap (a + 2 * i) = xs[i])
    (hcdr : ∀ i, i + 1 < xs.length → heap (a + 2 * i + 1) = .list (a + 2 * i + 2))
    (hlast : heap (a + 2 * xs.length - 1) = .emptyList) : ListAt heap low (.list a) xs := by
  induction xs generalizing a with
  | nil => exact absurd rfl hne
  | cons x xs ih =>
      refine ⟨a, hlow, rfl, hcar 0 (Nat.zero_lt_succ _), ?_⟩
      cases xs with
      | nil => exact hlast
      | cons y ys =>
          rw [show heap (a + 1) = .list (a + 2) from hcdr 0 (by simp)]
          refine ih (fun h => nomatch h) (by omega) (fun i hi => ?_) (fun i hi => ?_) ?_
          · have := hcar (i + 1) (by simpa using hi)
            rw [show a + 2 + 2 * i = a + 2 * (i + 1) by omega, this, getElem_cons_succ]
          · have := hcdr (i + 1) (by simpa using hi)
            rw [show a + 2 + 2 * i + 1 = a + 2 * (i + 1) + 1 by omega, this]
            congr 1
            omega
          · rw [← hlast]
            simp only [length_cons]
            congr 1
            omega

theorem consRest_spec (p1 : Int) (n : Nat) (m : Machine) :
    (consRest p1 n m).stack = m.stack ∧ (consRest p1 n m).stackPointer = m.stackPointer
      ∧ (consRest p1 n m).free = m.free + 2 * n
      ∧ (∀ a, a < m.free → (consRest p1 n m).heap a = m.heap a)
      ∧ ∀ i, i < n → (consRest p1 n m).heap (m.free + 2 * i) = m.stack (p1 + i)
        ∧ (consRest p1 n m).heap (m.free + 2 * i + 1) = .list (m.free + 2 * i + 2) := by
  induction n generalizing p1 m with
  | zero => exact ⟨rfl, rfl, rfl, fun _ _ => rfl, fun i hi => absurd hi (Nat.not_lt_zero i)⟩
  | succ n ih =>
      obtain ⟨hstack, hpointer, hfree, hheap, hwords⟩ := ih (p1 + 1)
        { m with
          heap := update (update m.heap m.free (m.stack p1)) (m.free + 1)
            (.list (m.free + 2))
          free := m.free + 2 }
      rw [consRest]
      refine ⟨hstack, hpointer, ?_, fun a ha => ?_, fun i hi => ?_⟩
      · rw [hfree]
        dsimp only
        omega
      · rw [hheap a (by dsimp only; omega)]
        dsimp only
        rw [update_of_ne (by omega), update_of_ne (by omega)]
      · cases i with
        | zero =>
            rw [hheap _ (by dsimp only; omega), hheap _ (by dsimp only; omega)]
            dsimp only
            refine ⟨?_, ?_⟩
            · rw [update_of_ne (by omega), Nat.add_zero, update_self]
              congr 1
              omega
            · rw [update_self]
        | succ i =>
            obtain ⟨hcar, hcdr⟩ := hwords i (by omega)
            dsimp only at hcar hcdr
            refine ⟨?_, ?_⟩
            · rw [show m.free + 2 * (i + 1) = m.free + 2 + 2 * i by omega, hcar]
              congr 1
              omega
            · rw [show m.free + 2 * (i + 1) + 1 = m.free + 2 + 2 * i + 1 by omega, hcdr]
              congr 1
              omega

/-! ## What is expected -/

/-- The parameter list accepts the number of arguments. -/
def Accepts (nMin nOptional : Nat) (restP : Bool) (nArgs : Nat) : Prop :=
  nMin ≤ nArgs ∧ (restP = true ∨ nArgs ≤ nMin + nOptional)

/-- The frame that a procedure is entered with. The surplus arguments are in a list that is new. -/
structure Entered (nMin nOptional : Nat) (restP : Bool) (nArgs : Nat) (m m' : Machine) : Prop where
  frame : ∃ rest, ListAt m'.heap m.free rest ((m.arguments nArgs).drop (nMin + nOptional))
    ∧ Framed m m' nArgs ((m.arguments nArgs).take (nMin + nOptional)
      ++ List.replicate (nMin + nOptional - nArgs) .default ++ if restP then [rest] else [])
  heap : ∀ a, a < m.free → m'.heap a = m.heap a

theorem arguments_take {k : Nat} (m : Machine) (h : k ≤ n) :
    (m.arguments n).take k = m.arguments k := by
  rw [arguments, ← map_take, take_range, Nat.min_eq_left h, arguments]

theorem arguments_drop_get (m : Machine) (n k : Nat) {i : Nat} (h : i < ((m.arguments n).drop k).length) :
    ((m.arguments n).drop k)[i] = m.stackRef (k + i) := by
  rw [getElem_drop, arguments_get]

theorem entered_of_defaulted (h : nArgs ≤ nMin + nOptional) (hheap : m'.heap = m.heap)
    (hframed : Framed m m' nArgs (defaulted m nArgs (nMin + nOptional)
      ++ if restP then [.emptyList] else [])) : Entered nMin nOptional restP nArgs m m' := by
  refine ⟨⟨.emptyList, ?_, ?_⟩, fun a _ => by rw [hheap]⟩
  · rw [drop_eq_nil_of_le (by rw [arguments_length]; exact h)]
    rfl
  · rw [take_of_length_le (by rw [arguments_length]; exact h)]
    exact hframed

theorem Framed.set {n k : Nat} {frame : List Object} (h : Framed m m' n frame) (hk : k < frame.length)
    (object : Object) :
    Framed m { m' with stack := update m'.stack (m'.stackPointer + k) object } n
      (frame.set k object) := by
  refine ⟨?_, fun j hj => ?_, fun a ha => ?_⟩
  · rw [length_set]
    exact h.pointer
  · rw [length_set] at hj
    change update m'.stack (m'.stackPointer + k) object (m'.stackPointer + j) = _
    rw [getElem_set]
    by_cases hkj : k = j
    · subst hkj
      rw [if_pos rfl, update_self]
    · rw [if_neg hkj, update_of_ne (by omega)]
      exact h.frame j hj
  · have := h.pointer
    change update m'.stack (m'.stackPointer + k) object a = _
    rw [update_of_ne (by omega), h.below a ha]

theorem defaulted_set (m : Machine) (h : nArgs ≤ nMax) :
    (defaulted m nArgs (nMax + 1)).set nMax .emptyList = defaulted m nArgs nMax ++ [.emptyList] := by
  have hlength : (defaulted m nArgs nMax).length = nMax := by
    rw [defaulted, length_append, arguments_length, length_replicate]
    omega
  have hsplit : defaulted m nArgs (nMax + 1) = defaulted m nArgs nMax ++ [.default] := by
    rw [defaulted, defaulted, append_assoc, ← replicate_succ', Nat.succ_sub h]
  rw [hsplit, set_append_right _ _ (Nat.le_of_eq hlength), hlength, Nat.sub_self]
  rfl

theorem setupRest_spec (m : Machine) (h : nMax < nArgs) : ∃ rest,
    let m1 := consRest (m.stackPointer + nMax) (nArgs - nMax) m
    let m2 := { m1 with
      heap := update m1.heap (m1.free - 1) .emptyList
      stack := copyDown (m.stackPointer + nMax) (m.stackPointer + nArgs - 1) nMax
        (update m1.stack (m.stackPointer + nArgs - 1) (.list m.free))
      stackPointer := m.stackPointer + nArgs - 1 - nMax }
    ListAt m2.heap m.free rest ((m.arguments nArgs).drop nMax)
      ∧ Framed m m2 nArgs (m.arguments nMax ++ [rest]) ∧ ∀ a, a < m.free → m2.heap a = m.heap a := by
  obtain ⟨hstack, -, hfree, hheap, hwords⟩ := consRest_spec (m.stackPointer + nMax) (nArgs - nMax) m
  have hlength : ((m.arguments nArgs).drop nMax).length = nArgs - nMax := by
    rw [length_drop, arguments_length]
  refine ⟨.list m.free, ?_, ⟨?_, fun j hj => ?_, fun a ha => ?_⟩, fun a ha => ?_⟩
  · refine listAt_of_words (ne_nil_of_length_pos (by omega)) (Nat.le_refl _) (fun i hi => ?_)
      (fun i hi => ?_) ?_
    · rw [hlength] at hi
      dsimp only
      rw [update_of_ne (by omega), (hwords i hi).1, arguments_drop_get]
      congr 1
      omega
    · dsimp only
      rw [update_of_ne (by omega), (hwords i (by omega)).2]
    · rw [hlength]
      dsimp only
      rw [hfree, update_self]
  · dsimp only
    rw [length_append, arguments_length, length_singleton]
    omega
  · rw [length_append, arguments_length, length_singleton] at hj
    dsimp only [stackRef]
    rw [copyDown_apply _ _ _ _ _ (by omega), hstack]
    by_cases hlt : j < nMax
    · rw [if_pos (by omega), update_of_ne (by omega),
        getElem_append_left (by rw [arguments_length]; exact hlt), arguments_get]
      congr 1
      omega
    · obtain rfl : j = nMax := by omega
      rw [if_neg (by omega), getElem_append_right (by rw [arguments_length])]
      simp only [arguments_length, Nat.sub_self, getElem_cons_zero]
      rw [show m.stackPointer + nArgs - 1 - j + j = m.stackPointer + nArgs - 1 by omega,
        update_self]
  · dsimp only
    rw [copyDown_apply _ _ _ _ _ (by omega), hstack, if_neg (by omega), update_of_ne (by omega)]
  · dsimp only
    rw [update_of_ne (by omega), hheap a ha]

/-- There is an interrupt, or no room for the rest argument. -/
def Interrupted (nNeeded nMax nArgs : Nat) (m m' : Machine) : Prop :=
  (m' = m.stackCheck (nNeeded - nArgs) ∧ m'.pendingInterrupts = true)
    ∨ (m' = m.requestGc ((nArgs - nMax) * 2) ∧ m.gcNeeded ((nArgs - nMax) * 2) = true)

theorem setupLexprInvocation_spec (procedure : Object) (nArgs : Nat) (m : Machine) :
    (∃ m', setupLexprInvocation procedure nArgs (nMin + nOptional) m = (.primDone, m')
        ∧ Entered nMin nOptional true nArgs m m')
      ∨ ∃ m', setupLexprInvocation procedure nArgs (nMin + nOptional) m
          = (.primApplyInterrupt, recoverFromApplyError procedure nArgs m')
        ∧ Interrupted (nMin + nOptional + 1) (nMin + nOptional) nArgs m m' := by
  rw [setupLexprInvocation]
  by_cases hle : nArgs ≤ nMin + nOptional
  · rw [if_pos hle]
    rcases openGap_spec nArgs (nMin + nOptional + 1) m with
      ⟨m', hgap, hm', hpending⟩ | ⟨m', hgap, hframed, hheap, hfree⟩
    · rw [hgap]
      exact .inr ⟨m', rfl, .inl ⟨hm', hpending⟩⟩
    · rw [hgap]
      refine .inl ⟨_, rfl, entered_of_defaulted hle hheap ?_⟩
      have hset := hframed.set (k := nMin + nOptional) (by
        rw [defaulted, length_append, arguments_length, length_replicate]
        omega) .emptyList
      rwa [defaulted_set m hle] at hset
  · rw [if_neg hle]
    dsimp only
    cases hgc : m.gcNeeded ((nArgs - (nMin + nOptional)) * 2) with
    | true =>
        exact .inr ⟨_, rfl, .inr ⟨rfl, hgc⟩⟩
    | false =>
        have hlt : nMin + nOptional < nArgs := by omega
        obtain ⟨rest, hlist, hframed, hheap⟩ := setupRest_spec m hlt
        obtain ⟨-, hpointer, -⟩ := consRest_spec (m.stackPointer + (nMin + nOptional : Nat))
          (nArgs - (nMin + nOptional)) m
        refine .inl ⟨_, rfl, ⟨rest, ?_, ?_⟩, ?_⟩
        · exact hlist
        · rw [arguments_take m (Nat.le_of_lt hlt), Nat.sub_eq_zero_of_le (Nat.le_of_lt hlt),
            replicate_zero, append_nil]
          rw [hpointer]
          exact hframed
        · exact hheap

/-! ## Frames that are left to the interpreter -/

/-- How many words a frame that is left to the interpreter takes the place of, and the continuation that
is put below it. A return to the interpreter is dropped, and other compiled code is to be reentered. -/
def continuation (m : Machine) (nArgs : Nat) : Nat × List Object :=
  if (m.stackRef nArgs).returnCodeP then (nArgs, [])
  else if m.stackRef nArgs = m.returnToInterpreter then (nArgs + 1, [])
  else (nArgs, [.returnCode reenterCompiledCode,
    .fixnum (m.lastReturnCode - (m.stackPointer + nArgs))])

/-- The arguments, under the procedure and a frame header, are on the stack as they were. -/
structure Recovered (procedure : Object) (nArgs : Nat) (m m' : Machine) : Prop where
  frame : Framed m m' (continuation m nArgs).1
    (.frameHeader (nArgs + 1) :: procedure :: m.arguments nArgs ++ (continuation m nArgs).2)
  heap : m'.heap = m.heap
  free : m'.free = m.free

theorem framed_arguments (m : Machine) (n : Nat) : Framed m m n (m.arguments n) := by
  refine ⟨?_, fun j hj => (arguments_get m hj).symm, fun _ _ => rfl⟩
  rw [arguments_length]
  omega

theorem Framed.close (h : Framed m m' n frame) (k : Nat) :
    Framed m (closeStackGap frame.length k m') (n + k) frame := by
  have hpointer := h.pointer
  refine ⟨?_, fun j hj => ?_, fun a ha => ?_⟩
  · change m'.stackPointer + k = _
    omega
  · dsimp only [stackRef, closeStackGap]
    rw [copyDown_apply _ _ _ _ _ (by omega), if_pos (by omega), ← h.frame j hj]
    congr 1
    omega
  · dsimp only [closeStackGap]
    rw [copyDown_apply _ _ _ _ _ (by omega), if_neg (by omega), h.below a (by omega)]

theorem Framed.reenter (h : Framed m m' n frame) (hlast : m'.lastReturnCode = m.lastReturnCode) :
    Framed m { saveLastReturnCode reenterCompiledCode
        { openStackGap frame.length continuationSize m' with
          stackPointer := (openStackGap frame.length continuationSize m').stackPointer
            + (frame.length + continuationSize : Nat) } with
        stackPointer := (openStackGap frame.length continuationSize m').stackPointer } n
      (frame ++ [.returnCode reenterCompiledCode,
        .fixnum (m.lastReturnCode - (m.stackPointer + n))]) := by
  have hpointer := h.pointer
  have htop : m'.stackPointer - (2 : Nat) + (frame.length + 2 : Nat) = m.stackPointer + n := by omega
  refine ⟨?_, fun j hj => ?_, fun a ha => ?_⟩
  · change m'.stackPointer - (2 : Nat) = _
    rw [length_append]
    simp only [length_cons, length_nil]
    omega
  · rw [length_append] at hj
    simp only [length_cons, length_nil] at hj
    simp only [stackRef, saveLastReturnCode, Machine.push, openStackGap, continuationSize, htop,
      update_apply, hlast]
    by_cases hlt : j < frame.length
    · rw [if_neg (by omega), if_neg (by omega), copyUp_apply _ _ _ _ _ (by omega), if_pos (by omega),
        getElem_append_left hlt, ← h.frame j hlt]
      congr 1
      omega
    · rcases (by omega : j = frame.length ∨ j = frame.length + 1) with rfl | rfl
      · rw [if_pos (by omega)]
        simp
      · rw [if_neg (by omega), if_pos (by omega)]
        simp
  · simp only [saveLastReturnCode, Machine.push, openStackGap, continuationSize, htop, update_apply]
    rw [if_neg (by omega), if_neg (by omega), copyUp_apply _ _ _ _ _ (by omega), if_neg (by omega),
      h.below a ha]

theorem recoverFromApplyError_spec (procedure : Object) (nArgs : Nat) (m : Machine) :
    Recovered procedure nArgs m (recoverFromApplyError procedure nArgs m) := by
  obtain ⟨m2, hm2⟩ : ∃ m2, m2 = (m.push procedure).push (.frameHeader (nArgs + 1)) := ⟨_, rfl⟩
  have hframed : Framed m m2 nArgs (.frameHeader (nArgs + 1) :: procedure :: m.arguments nArgs) :=
    hm2 ▸ ((framed_arguments m nArgs).push procedure).push _
  have hlength : (Object.frameHeader (nArgs + 1) :: procedure :: m.arguments nArgs).length = nArgs + 2 := by
    simp
  have hsize : applyFrameSize m2 = nArgs + 1 := by
    rw [applyFrameSize, hframed.frame 0 (by omega)]
    rfl
  have hbelow : m2.stackRef (1 + applyFrameSize m2) = m.stackRef nArgs := by
    have hpointer := hframed.pointer
    rw [stackRef, stackRef, ← hframed.below _ (Int.le_refl _)]
    congr 1
    omega
  have hsame : m2.returnToInterpreter = m.returnToInterpreter ∧ m2.lastReturnCode = m.lastReturnCode
      ∧ m2.heap = m.heap ∧ m2.free = m.free := by
    rw [hm2]
    exact ⟨rfl, rfl, rfl, rfl⟩
  obtain ⟨hreturn, hlast, hheap, hfree⟩ := hsame
  have hoffset : 1 + applyFrameSize m2
      = (Object.frameHeader (nArgs + 1) :: procedure :: m.arguments nArgs).length := by
    omega
  rw [recoverFromApplyError, ← hm2, guaranteeInterpReturn]
  rw [hbelow, hreturn, hoffset]
  by_cases hcode : (m.stackRef nArgs).returnCodeP = true
  · rw [if_pos hcode]
    refine ⟨?_, hheap, hfree⟩
    rw [continuation, if_pos hcode, append_nil]
    exact hframed
  · rw [if_neg hcode]
    by_cases hinterpreter : m.stackRef nArgs = m.returnToInterpreter
    · rw [if_pos hinterpreter]
      refine ⟨?_, hheap, hfree⟩
      rw [continuation, if_neg hcode, if_pos hinterpreter, append_nil]
      exact hframed.close 1
    · rw [if_neg hinterpreter]
      refine ⟨?_, hheap, hfree⟩
      rw [continuation, if_neg hcode, if_neg hinterpreter]
      exact hframed.reenter hlast

theorem Interrupted.recovered {nNeeded : Nat} {procedure : Object} (h : Interrupted nNeeded nMax nArgs m m') :
    Recovered procedure nArgs m (recoverFromApplyError procedure nArgs m') := by
  have hrequest : ∃ code space, m' = { m with intCode := code, gcSpaceNeeded := space } := by
    rcases h with ⟨rfl, -⟩ | ⟨rfl, -⟩
    · rw [Machine.stackCheck]
      split <;> exact ⟨_, _, rfl⟩
    · exact ⟨_, _, rfl⟩
  obtain ⟨⟨hpointer, hframe, hbelow⟩, hheap, hfree⟩ := recoverFromApplyError_spec procedure nArgs m'
  obtain ⟨code, space, rfl⟩ := hrequest
  exact ⟨⟨hpointer, hframe, hbelow⟩, hheap, hfree⟩

/-! ## Calls -/

/-- How a call may end. -/
inductive Ends (nMin nOptional : Nat) (restP : Bool) (procedure : CompiledEntry) (nArgs : Nat)
    (m : Machine) : Outcome → Prop
  /-- The procedure is entered. -/
  | entered {m' : Machine} (accepts : Accepts nMin nOptional restP nArgs)
      (frame : Entered nMin nOptional restP nArgs m m') :
      Ends nMin nOptional restP procedure nArgs m (.toScheme procedure m')
  /-- The procedure does not accept the number of arguments. -/
  | wrongNumber {m' : Machine} (accepts : ¬ Accepts nMin nOptional restP nArgs)
      (frame : Recovered procedure.object nArgs m m') :
      Ends nMin nOptional restP procedure nArgs m (.toC .errWrongNumberOfArguments m')
  /-- An interrupt is to be served before the procedure is applied again. -/
  | interrupted {m1 m' : Machine} {nNeeded : Nat} (accepts : Accepts nMin nOptional restP nArgs)
      (interrupted : Interrupted nNeeded (nMin + nOptional) nArgs m m1)
      (frame : Recovered procedure.object nArgs m m') :
      Ends nMin nOptional restP procedure nArgs m (.toC .primApplyInterrupt m')

theorem apply_ends (nMin nOptional : Nat) (restP : Bool) (object : Object) (nArgs : Nat) (m : Machine) :
    Ends nMin nOptional restP ⟨object, .procedure nMin nOptional restP⟩ nArgs m
      (apply ⟨object, .procedure nMin nOptional restP⟩ (nArgs + 1) m) := by
  rw [apply, Nat.add_sub_cancel, setupCompiledInvocation]
  dsimp only
  by_cases hmin : nArgs < nMin
  · rw [if_pos hmin]
    exact .wrongNumber (fun h => absurd h.1 (by omega)) (recoverFromApplyError_spec ..)
  · rw [if_neg hmin]
    cases restP with
    | true =>
        have haccepts : Accepts nMin nOptional true nArgs := ⟨by omega, .inl rfl⟩
        rcases setupLexprInvocation_spec object nArgs m with ⟨m', hsetup, hentered⟩ | ⟨m', hsetup, hinterrupted⟩
        · rw [hsetup]
          exact .entered haccepts hentered
        · rw [hsetup]
          exact .interrupted haccepts hinterrupted hinterrupted.recovered
    | false =>
        by_cases hmax : nArgs = nMin + nOptional
        · rw [if_pos hmax]
          refine .entered ⟨by omega, .inr (by omega)⟩ (entered_of_defaulted (Nat.le_of_eq hmax) rfl ?_)
          rw [defaulted, ← hmax]
          simpa using framed_arguments m nArgs
        · rw [if_neg hmax]
          by_cases hlt : nMin + nOptional < nArgs
          · rw [if_pos hlt]
            refine .wrongNumber (fun h => ?_) (recoverFromApplyError_spec ..)
            exact h.2.elim (fun h => nomatch h) fun h => by omega
          · rw [if_neg hlt]
            have haccepts : Accepts nMin nOptional false nArgs := ⟨by omega, .inr (by omega)⟩
            rcases openGap_spec nArgs (nMin + nOptional) m with
              ⟨m', hgap, hm', hpending⟩ | ⟨m', hgap, hframed, hheap, -⟩
            · rw [hgap]
              have hinterrupted : Interrupted (nMin + nOptional) (nMin + nOptional) nArgs m m' :=
                .inl ⟨hm', hpending⟩
              exact .interrupted haccepts hinterrupted hinterrupted.recovered
            · rw [hgap]
              refine .entered haccepts (entered_of_defaulted (by omega) hheap ?_)
              simpa using hframed

theorem makeUuoLink_cases {entrySize : Nat} {link : Link}
    (h : makeUuoLink entrySize ⟨object, .procedure nMin nOptional restP⟩ (nArgs + 1) m
      = (.primDone, some link, m')) :
    (link = .direct ⟨object, .procedure nMin nOptional restP⟩ ∧ restP = false ∧ nArgs = nMin + nOptional)
    ∨ (link = .trampoline ⟨trampolineArityTable.getD
          ((nMin + nOptional - 1) * trampolineTableSize + nArgs) .apply,
          ⟨object, .procedure nMin nOptional restP⟩, 0⟩
        ∧ restP = false ∧ nArgs < nMin + nOptional ∧ nMin ≤ nArgs ∧ nMin + nOptional ≤ trampolineTableSize)
    ∨ link = .trampoline ⟨.apply, ⟨object, .procedure nMin nOptional restP⟩, nArgs + 1⟩ := by
  have hmake : ∀ t nValues, makeTrampoline entrySize t nValues m = (.primDone, some link, m') →
      link = .trampoline t := by
    intro t nValues ht
    rw [makeTrampoline] at ht
    split at ht
    · cases ht
    · cases ht
      rfl
  rw [makeUuoLink] at h
  dsimp only at h
  split at h
  · exact .inr (.inr (hmake _ _ h))
  · rename_i hrest
    have hrest' : restP = false := by simpa using hrest
    split at h
    · rename_i hmax
      cases h
      exact .inl ⟨rfl, hrest', hmax⟩
    · split at h
      · rename_i hrange
        exact .inr (.inl ⟨hmake _ _ h, hrest', hrange.1, hrange.2.1, hrange.2.2.2⟩)
      · exact .inr (.inr (hmake _ _ h))

theorem Framed.unique (h : Framed m m' n frame) (h' : Framed m m'' n frame) :
    m''.stackPointer = m'.stackPointer ∧ ∀ a, m'.stackPointer ≤ a → m''.stack a = m'.stack a := by
  have hpointer : m''.stackPointer = m'.stackPointer := by rw [h.pointer, h'.pointer]
  refine ⟨hpointer, fun a ha => ?_⟩
  by_cases hbelow : m.stackPointer + n ≤ a
  · rw [h.below a hbelow, h'.below a hbelow]
  · have hsize := h.pointer
    obtain ⟨j, rfl⟩ : ∃ j : Nat, a = m'.stackPointer + j := ⟨(a - m'.stackPointer).toNat, by omega⟩
    have hj : j < frame.length := by omega
    have hframe := (h'.frame j hj).trans (h.frame j hj).symm
    rwa [stackRef, hpointer] at hframe

theorem setupCompiledInvocation_defaulted (hmin : nMin ≤ nArgs) (hlt : nArgs < nMin + nOptional)
    (h : setupCompiledInvocation ⟨object, .procedure nMin nOptional false⟩ nArgs m = (.primDone, m')) :
    Framed m m' nArgs (defaulted m nArgs (nMin + nOptional)) ∧ m'.heap = m.heap ∧ m'.free = m.free := by
  rw [setupCompiledInvocation] at h
  dsimp only at h
  rw [if_neg (by omega), if_neg Bool.false_ne_true, if_neg (by omega), if_neg (by omega)] at h
  rcases openGap_spec nArgs (nMin + nOptional) m with
    ⟨m1, hgap, -⟩ | ⟨m1, hgap, hframed⟩
  · rw [hgap] at h
    cases h
  · rw [hgap] at h
    cases h
    exact hframed

/-- A call through the link that `make_uuo_link` installs ends as the general code does, and where that
enters the procedure it finds the same stack. -/
theorem call_through_uuo_link {entrySize : Nat} {link : Link} {m0 m1 : Machine}
    (hlink : makeUuoLink entrySize ⟨object, .procedure nMin nOptional restP⟩ (nArgs + 1) m0
      = (.primDone, some link, m1)) (m : Machine) :
    (∃ outcome, link.call m = some outcome
      ∧ Ends nMin nOptional restP ⟨object, .procedure nMin nOptional restP⟩ nArgs m outcome)
    ∧ ∀ m', setupCompiledInvocation ⟨object, .procedure nMin nOptional restP⟩ nArgs m = (.primDone, m') →
      ∃ m'', link.call m = some (.toScheme ⟨object, .procedure nMin nOptional restP⟩ m'')
        ∧ m''.stackPointer = m'.stackPointer ∧ (∀ a, m'.stackPointer ≤ a → m''.stack a = m'.stack a)
        ∧ m''.heap = m'.heap ∧ m''.free = m'.free := by
  rcases makeUuoLink_cases hlink with ⟨rfl, rfl, rfl⟩ | ⟨rfl, rfl, hlt, hmin, hsize⟩ | rfl
  · -- the call is a jump
    refine ⟨⟨_, rfl, .entered ⟨by omega, .inr (Nat.le_refl _)⟩ (entered_of_defaulted (Nat.le_refl _) rfl ?_)⟩,
      fun m' hsetup => ⟨m, rfl, ?_⟩⟩
    · rw [defaulted]
      simpa using framed_arguments m (nMin + nOptional)
    · rw [setupCompiledInvocation] at hsetup
      dsimp only at hsetup
      rw [if_neg (by omega), if_pos rfl] at hsetup
      cases hsetup
      exact ⟨rfl, fun _ _ => rfl, rfl, rfl⟩
  · obtain ⟨hframed, hheap, hfree⟩ := pushes_framed m nArgs (defaulted m nArgs (nMin + nOptional))
    have hcall := arity_trampoline ⟨object, .procedure nMin nOptional false⟩ hlt hsize m
    refine ⟨⟨_, hcall, .entered ⟨hmin, .inr (Nat.le_of_lt hlt)⟩
      (entered_of_defaulted (Nat.le_of_lt hlt) hheap ?_)⟩, fun m' hsetup => ⟨_, hcall, ?_⟩⟩
    · simpa using hframed
    · obtain ⟨hframed', hheap', hfree'⟩ := setupCompiledInvocation_defaulted hmin hlt hsetup
      obtain ⟨hpointer, hstack⟩ := hframed'.unique hframed
      exact ⟨hpointer, hstack, hheap.trans hheap'.symm, hfree.trans hfree'.symm⟩
  · refine ⟨⟨_, rfl, apply_ends nMin nOptional restP object nArgs m⟩, fun m' hsetup => ⟨m', ?_, rfl,
      fun _ _ => rfl, rfl, rfl⟩⟩
    change some (apply _ (nArgs + 1) m) = _
    rw [apply, Nat.add_sub_cancel, hsetup]

def emptyMachine : Machine :=
  { stack := fun _ => .default, stackPointer := 0, stackGuard := -64, lastReturnCode := 0,
    heap := fun _ => .default, free := 16, heapStart := 16, heapAllocLimit := 80, gcSpaceNeeded := 0,
    intCode := 0, intMask := 15, returnToInterpreter := .other 0 }

theorem call_through_uuo_link_arity_2_1 :
    ∃ link m1, makeUuoLink 3 ⟨.compiledEntry 0, .procedure 1 1 false⟩ 2 emptyMachine
        = (.primDone, some link, m1)
      ∧ ∃ outcome, link.call (emptyMachine.push (.fixnum 1)) = some outcome
        ∧ Ends 1 1 false ⟨.compiledEntry 0, .procedure 1 1 false⟩ 1 (emptyMachine.push (.fixnum 1)) outcome :=
  have hlink : makeUuoLink 3 ⟨.compiledEntry 0, .procedure 1 1 false⟩ (1 + 1) emptyMachine
      = (.primDone, some (.trampoline ⟨.k_2_1, ⟨.compiledEntry 0, .procedure 1 1 false⟩, 0⟩),
        { emptyMachine with free := 22 }) := rfl
  ⟨_, _, hlink, (call_through_uuo_link hlink _).1⟩

end MitScheme.UuoLinks
