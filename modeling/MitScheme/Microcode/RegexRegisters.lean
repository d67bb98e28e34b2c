import MitScheme.Microcode.Regex

/-!
# Registers

The registers are written when the boundary of a group is passed, and a failure goes back to another place in the
pattern and in the text, but not to the registers of that place. The history of a match is what it has passed, on
branches that failed later as well, and what of it lies on the path that it is on.
-/

namespace MitScheme.Regex

open MitScheme.Runs List

/-! ## The history of a match -/

/-- `start_memory`, or `stop_memory` -/
inductive Boundary where
  | start
  | stop
deriving DecidableEq, Repr

/-- A boundary of a group is passed, after so many others. -/
structure Passage where
  order : Nat
  register : Fin nregs
  boundary : Boundary
  address : Nat
deriving DecidableEq, Repr

/-- What has been passed, the last first: in all, on the path, and on the path to each of the failure points. -/
structure History where
  passages : List Passage
  path : List Passage
  saved : List (List Passage)

namespace History

def initial : History := ⟨[], [], []⟩

def pass (register : Fin nregs) (boundary : Boundary) (address : Nat) (history : History) : History :=
  let passage : Passage := ⟨history.passages.length, register, boundary, address⟩
  { history with passages := passage :: history.passages, path := passage :: history.path }

/-- The path to the failure point that is left when so many are gone. -/
def back (count : Nat) (history : History) : History :=
  match history.saved.drop count with
  | [] => history
  | path :: saved => { history with path, saved }

/-- What a step of the matcher adds. -/
def after (buffer : Buffer) (c c' : Config) (history : History) : History :=
  match fetch c.code c.patternPc with
  | some (.startMemory (some register)) => history.pass register .start c.matchPc
  | some (.stopMemory (some register)) =>
      history.pass register .stop (if c.matchPc = buffer.gapEnd then buffer.gapStart else c.matchPc)
  | some (.onFailureJump _) | some (.dummyFailureJump _) => { history with saved := history.path :: history.saved }
  | some (.finalizeJump _) | some (.maybeFinalizeJump _) =>
      { history with saved := history.saved.drop (c.stack.length - c'.stack.length) }
  | _ =>
      -- on a failure, the failure points that are taken off the stack are the one to go back to and dummies above it
      match c.stack.length - c'.stack.length with
      | 0 => history
      | count + 1 => history.back count

/-- The passage is one of a boundary. -/
def passes (register : Fin nregs) (boundary : Boundary) (passage : Passage) : Bool :=
  passage.register = register ∧ passage.boundary = boundary

/-- The last passage of a boundary among some. -/
def last (register : Fin nregs) (boundary : Boundary) (passages : List Passage) : Option Passage :=
  passages.find? (passes register boundary)

end History

section

variable (buffer : Buffer) (range : MatchRange)

/-- A step of `re_match`, with its history. -/
def stepHistory (p : Config × History) : Runs.Step (Config × History) (Outcome × History) :=
  match step buffer range p.1 with
  | .next c => .next (c, p.2.after buffer p.1 c)
  | .done outcome => .done (outcome, p.2)

/-- `re_match`, in so many steps, with its history. -/
def reMatchHistory (fuel : Nat) (code : List Byte) : Option (Outcome × History) :=
  Runs.run (stepHistory buffer range) fuel (initial range code, .initial)

variable {buffer range}

/-! ## The registers of a match -/

/-- What is in a register, at one of its boundaries. -/
def Config.register (c : Config) (register : Fin nregs) : Boundary → Option Nat
  | .start => c.registerStart register
  | .stop => c.registerEnd register

/-- The registers hold what has been passed last, the path is a part of what has been passed, and there is a path to
each failure point. -/
structure History.Records (history : History) (c : Config) : Prop where
  registers : ∀ register boundary,
    c.register register boundary = (last register boundary history.passages).map Passage.address
  path : history.path.Sublist history.passages
  saved : ∀ path ∈ history.saved, path.Sublist history.passages
  saved_length : history.saved.length = c.stack.length
  order : history.passages.Pairwise fun passage passage' => passage'.order < passage.order
  order_lt : ∀ passage ∈ history.passages, passage.order < history.passages.length

theorem records_initial (code : List Byte) : History.initial.Records (initial range code) where
  registers := by
    intro register boundary
    cases boundary with
    | start => rfl
    | stop => rfl
  path := .refl _
  saved := by
    intro path hmem
    cases hmem
  saved_length := rfl
  order := .nil
  order_lt := by
    intro passage hmem
    cases hmem

namespace History

theorem last_pass (history : History) (register r : Fin nregs) (boundary b : Boundary) (address : Nat) :
    last r b (history.pass register boundary address).passages =
      if r = register ∧ b = boundary then some ⟨history.passages.length, register, boundary, address⟩
      else last r b history.passages := by
  unfold last pass passes
  rw [List.find?_cons]
  by_cases h : r = register ∧ b = boundary
  · rw [if_pos h, decide_eq_true ⟨h.1.symm, h.2.symm⟩]
  · rw [if_neg h, decide_eq_false fun heq => h ⟨heq.1.symm, heq.2.symm⟩]

theorem Records.pass {history : History} {c c' : Config} {register : Fin nregs} {boundary : Boundary} {address : Nat}
    (h : history.Records c) (hstack : c'.stack = c.stack)
    (hregister : ∀ r b, c'.register r b = if r = register ∧ b = boundary then some address else c.register r b) :
    (history.pass register boundary address).Records c' where
  registers := by
    intro r b
    rw [hregister, last_pass, h.registers]
    split
    · rfl
    · rfl
  path := h.path.cons_cons _
  saved := fun path hmem => (h.saved path hmem).cons _
  saved_length := by
    rw [hstack]
    exact h.saved_length
  order := pairwise_cons.mpr ⟨h.order_lt, h.order⟩
  order_lt := by
    intro passage hmem
    rcases mem_cons.mp hmem with rfl | hmem
    · exact Nat.lt_succ_self _
    · exact Nat.lt_succ_of_lt (h.order_lt passage hmem)

theorem Records.move {history history' : History} {c c' : Config} (h : history.Records c)
    (hregisters : c'.register = c.register) (hpassages : history'.passages = history.passages)
    (hpath : history'.path.Sublist history.passages) (hsaved : ∀ path ∈ history'.saved, path.Sublist history.passages)
    (hlength : history'.saved.length = c'.stack.length) : history'.Records c' where
  registers := by
    rw [hregisters, hpassages]
    exact h.registers
  path := hpassages ▸ hpath
  saved := hpassages ▸ hsaved
  saved_length := hlength
  order := hpassages ▸ h.order
  order_lt := hpassages ▸ h.order_lt

theorem after_matching {c c' : Config} {instruction : Instruction} (history : History)
    (hfetch : fetch c.code c.patternPc = some instruction) (hmatching : instruction.matching = true) :
    history.after buffer c c' =
      match c.stack.length - c'.stack.length with
      | 0 => history
      | count + 1 => history.back count := by
  unfold after
  rw [hfetch]
  cases instruction <;> first | rfl | cases hmatching

theorem back_of_drop {history : History} {count : Nat} {path : List Passage} {saved : List (List Passage)}
    (h : history.saved.drop count = path :: saved) : history.back count = { history with path, saved } := by
  unfold back
  rw [h]

end History

theorem records_next {history : History} {c c' : Config} {instruction : Instruction} (h : history.Records c)
    (hfetch : fetch c.code c.patternPc = some instruction) (hnext : Next buffer range c instruction c') :
    (history.after buffer c c').Records c' := by
  have hlength := h.saved_length
  cases hnext with
  | fail hmatching hfail =>
      rw [History.after_matching history hfetch hmatching]
      obtain ⟨patternPc, matchPc, dummies, stack, hstack, -, rfl⟩ := failureLoop_next hfail
      have hcount : c.stack.length - stack.length = dummies.length + 1 := by
        rw [hstack, length_append, length_cons]
        omega
      have hdrop : (history.saved.drop dummies.length).length = stack.length + 1 := by
        rw [length_drop, hlength, hstack, length_append, length_cons]
        omega
      obtain ⟨path, saved, hsaved⟩ := exists_cons_of_length_eq_add_one hdrop
      have hmem : ∀ p ∈ path :: saved, p.Sublist history.passages := fun p hp =>
        h.saved p (mem_of_mem_drop (hsaved ▸ hp))
      simp only [hcount, History.back_of_drop hsaved]
      rw [hsaved, length_cons, Nat.add_right_cancel_iff] at hdrop
      exact h.move rfl rfl (hmem path mem_cons_self) (fun p hp => hmem p (mem_cons_of_mem _ hp)) hdrop
  | advance matchPc hmatching hadvances =>
      rw [History.after_matching history hfetch hmatching, Nat.sub_self]
      exact h.move rfl rfl h.path h.saved hlength
  | jump target =>
      rw [History.after, hfetch]
      simp only [Nat.sub_self]
      exact h.move rfl rfl h.path h.saved hlength
  | push target | pushDummy target =>
      rw [History.after, hfetch]
      refine h.move rfl rfl h.path (forall_mem_cons.mpr ⟨h.path, h.saved⟩) ?_
      simp only [length_cons, hlength]
  | finalize target hstack | maybeFinalize target hstack =>
      rw [History.after, hfetch]
      refine h.move rfl rfl h.path (fun path hmem => h.saved path (mem_of_mem_drop hmem)) ?_
      simp only [length_drop, hlength, hstack, length_cons]
      omega
  | dontFinalize target =>
      rw [History.after, hfetch]
      refine h.move rfl rfl h.path (fun path hmem => h.saved path (mem_of_mem_drop hmem)) ?_
      simp only [length_drop, hlength, Config.rewrite, Nat.sub_self, Nat.sub_zero]
  | start register =>
      rw [History.after, hfetch]
      refine h.pass rfl ?_
      intro r b
      cases b with
      | start => simp only [Config.register, Function.update_apply, and_true]
      | stop => simp only [Config.register, reduceCtorEq, and_false, if_false]
  | stop register =>
      rw [History.after, hfetch]
      refine h.pass rfl ?_
      intro r b
      cases b with
      | start => simp only [Config.register, reduceCtorEq, and_false, if_false]
      | stop => simp only [Config.register, Function.update_apply, and_true]

theorem records_visits {code : List Byte} {p : Config × History}
    (h : Visits (stepHistory buffer range) (initial range code, .initial) p) : p.2.Records p.1 := by
  refine h.invariant (I := fun p => p.2.Records p.1) (records_initial code) ?_
  intro p p' hp hstep
  unfold stepHistory at hstep
  cases hstep' : step buffer range p.1 with
  | done outcome =>
      rw [hstep'] at hstep
      cases hstep
  | next c =>
      rw [hstep'] at hstep
      cases hstep
      obtain ⟨instruction, hfetch, hnext⟩ := step_next hstep'
      exact records_next hp hfetch hnext

theorem order_of_find? {passages : List Passage} {p : Passage → Bool} {first passage : Passage}
    (horder : passages.Pairwise fun passage passage' => passage'.order < passage.order)
    (hfirst : passages.find? p = some first) (hmem : passage ∈ passages) (hp : p passage = true) :
    passage = first ∨ passage.order < first.order := by
  induction passages with
  | nil => cases hmem
  | cons head passages ih =>
      obtain ⟨hhead, horder⟩ := pairwise_cons.mp horder
      rw [List.find?_cons] at hfirst
      cases hfound : p head with
      | true =>
          rw [hfound] at hfirst
          cases hfirst
          rcases mem_cons.mp hmem with heq | hmem
          · exact .inl heq
          · exact .inr (hhead passage hmem)
      | false =>
          rw [hfound] at hfirst
          rcases mem_cons.mp hmem with rfl | hmem
          · rw [hfound] at hp
            cases hp
          · exact ih horder hfirst hmem

theorem History.Records.last_path {history : History} {c : Config} (h : history.Records c) {register : Fin nregs}
    {boundary : Boundary} {passage : Passage} (hlast : last register boundary history.passages = some passage)
    (hpath : passage ∈ history.path) : last register boundary history.path = some passage := by
  have hp : passes register boundary passage = true := List.find?_some hlast
  obtain ⟨first, hfirst⟩ : ∃ first, last register boundary history.path = some first := by
    rw [← Option.isSome_iff_exists, last, List.find?_isSome]
    exact ⟨passage, hpath, hp⟩
  have hmem : first ∈ history.passages := h.path.subset (List.mem_of_find?_eq_some hfirst)
  rcases order_of_find? (h.order.sublist h.path) hfirst hpath hp with rfl | hlt
  · exact hfirst
  · have hpfirst : passes register boundary first = true := List.find?_some hfirst
    rcases order_of_find? h.order hlast hmem hpfirst with rfl | hgt
    · exact hfirst
    · omega

/-- What a boundary of a register is reported to be. -/
def reported (registerStart registerEnd : Fin nregs → Option Nat) (register : Fin nregs) : Boundary → Option Nat
  | .start => registerStart register
  | .stop => registerEnd register

/-- What a match reports of its history. Register 0 is the whole match; another register holds the places where its
boundaries were passed last, on whatever branch. These are where the path that succeeded passed them last, unless they
have been passed since on a branch that failed. -/
structure Reports (buffer : Buffer) (range : MatchRange) (index : Nat) (registerStart registerEnd : Fin nregs → Option Nat)
    (history : History) : Prop where
  match_start : registerStart 0 = some (buffer.addressToIndex range.start)
  match_end : registerEnd 0 = some index
  path : history.path.Sublist history.passages
  last : ∀ register boundary, register ≠ 0 →
    reported registerStart registerEnd register boundary =
      (History.last register boundary history.passages).map fun passage => buffer.addressToIndex passage.address
  last_path : ∀ register boundary passage, History.last register boundary history.passages = some passage →
    passage ∈ history.path → History.last register boundary history.path = some passage

end

/-- `ac`, in a buffer without a gap. -/
def acBuffer : Buffer where
  translation := none
  syntaxTable _ := 0
  text address := if address = 0 then 97 else 99
  textStartIndex := 0
  textEndIndex := 2
  gapStart := 2
  gapEnd := 2
  start_le := by decide
  gap_le := by decide
  le_end := by decide

/-- `\(a\)b\|ac` -/
def alternativeCode : List Byte := [6, 13, 0, 13, 1, 2, 1, 97, 14, 1, 2, 1, 98, 5, 4, 0, 2, 2, 97, 99]

end MitScheme.Regex
