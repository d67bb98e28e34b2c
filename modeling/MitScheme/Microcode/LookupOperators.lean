import MitScheme.Lib.Runs
import MitScheme.Microcode.LookupInstalled

/-!
# Clones and operator links

A compiled assignment writes into the cache it finds at its place, so a cache with operator
references must not be there: the clone is, whose value is the trap that makes the assignment
expensive. And a compiled call jumps to the link it finds at its place, so the link must be
the one for the current value of the variable.
-/

namespace MitScheme.Lookup

open Runs List

variable {V : Type}

/-! ## Clones -/

/-- What compiled code finds in the cache at a place. -/
inductive Contents (V : Type) where
  | object (value : Object V)
  /-- `EXPENSIVE_OBJECT`, with which `update_clone` makes every clone -/
  | expensive

/-- The value in the cache at a place. -/
def slotContents (σ : State V) (block : Block) (offset : Nat) : Option (Contents V) :=
  match σ.slots block offset with
  | .cache cache => some (.object (σ.caches cache).value)
  | .clone _ => some .expensive
  | _ => none

/-- References are added at places that have none: the linker goes through a block once. -/
def AddsAtNewPlace (σ : State V) : Operation V → Prop
  | .addReference _ _ block offset _ =>
      ∀ cache kind symbol, ¬ Recorded σ cache kind symbol block offset
  | _ => True

theorem keepsLinks_assignment {σ : State V} {operation : Operation V}
    (h : AddsAtNewPlace σ operation) : KeepsLinks (fun k _ => k ≠ .operator) σ operation := by
  cases operation with
  | define environment symbol value | assign environment symbol value | collectGarbage dead => trivial
  | link targetEnvironment targetSymbol sourceEnvironment sourceSymbol =>
      exact fun _ _ _ _ _ _ _ hP => absurd rfl hP
  | unbind environment symbol => exact fun _ _ _ _ _ _ _ hP => absurd rfl hP
  | addReference environment symbol block offset kind =>
      intro c k hp
      obtain ⟨s, hr⟩ := mem_places.mp hp
      exact h c k s hr

theorem sound_of_reaches {σ₀ σ : State V} (hinitial : Initial σ₀)
    (hrun : Reaches perform AddsAtNewPlace σ₀ σ) : Sound (fun k _ => k ≠ .operator) σ :=
  hrun.invariant (sound_initial hinitial _) fun hs hallowed hstep =>
    hs.perform (keepsLinks_assignment hallowed) hstep

/-- Nothing is bound, and there is no compiled code. -/
def startState : State V where
  cells _ := .unbound
  extensions _ := []
  traps _ := 0
  caches _ := { value := .unbound, clone := none, references := fun _ => [] }
  clones _ := 0
  slots _ _ := .empty
  free := 0

theorem initial_startState : Initial (startState : State V) :=
  ⟨fun _ => rfl, fun _ => rfl, fun _ _ => rfl, fun _ => rfl, fun _ _ => rfl⟩

/-- A block of compiled code in the global environment. -/
def globalBlock : Block := ⟨0, .global, by decide⟩

/-- A global variable with an assignment reference. -/
def assignedState : State Nat :=
  (addCacheReference startState .global "x" globalBlock 0 .assignment).state

/-- The variable is called, too. -/
def calledState : State Nat :=
  (addCacheReference assignedState .global "x" globalBlock 1 .operator).state

theorem reaches_calledState : Reaches perform AddsAtNewPlace startState calledState := by
  have h1 : Reaches perform AddsAtNewPlace startState assignedState := by
    refine .next (a := .addReference .global "x" globalBlock 0 .assignment) .start ?_ rfl
    rintro c k s ⟨l, he, -⟩
    cases he
  refine .next (a := .addReference .global "x" globalBlock 1 .operator) h1 ?_ rfl
  rintro c k s ⟨l, he, hr⟩
  have hsound := sound_of_reaches initial_startState h1
  have hlt : c < 2 := hsound.placed.place_lt (mem_places.mpr ⟨s, l, he, hr⟩)
  obtain rfl | rfl : c = 0 ∨ c = 1 := by omega
  · cases k with
    | lookup | operator => cases he
    | assignment =>
        cases mem_singleton.mp (show (s, l) ∈ [("x", [⟨some globalBlock, 0⟩])] from he)
        cases mem_singleton.mp hr
  · cases k with
    | lookup | operator | assignment => cases he

/-- The objects that `make_uuo_link` tells apart. -/
inductive Value where
  /-- `TC_COMPILED_ENTRY`, of a procedure -/
  | compiledEntry (address nRequired nOptional : Nat) (restP : Bool)
  /-- `TC_ENTITY`: whether it dispatches on arity and its vector has something for a frame size,
  and what -/
  | entity (address : Nat) (dispatches : Nat → Bool) (dispatch : Nat → Value)
  /-- `TC_PRIMITIVE`, with its arity unless it is a lexpr -/
  | primitive (address : Nat) (arity : Option Nat)
  | other (address : Nat)

/-- What is stored in an execute cache: a procedure, or one of the trampolines. -/
inductive UuoLink where
  | procedure (entry : Value)
  /-- `TRAMPOLINE_K_n_m` -/
  | defaulting (nmax nargs : Nat) (procedure : Value)
  /-- `TRAMPOLINE_K_PRIMITIVE` -/
  | primitive (procedure : Value)
  /-- `TRAMPOLINE_K_LEXPR_PRIMITIVE` -/
  | lexprPrimitive (procedure : Value) (frameSize : Nat)
  /-- `TRAMPOLINE_K_APPLY` -/
  | apply (procedure : Object Value) (frameSize : Nat)
  /-- `TRAMPOLINE_K_LOOKUP` -/
  | lookup (cache : Nat) (block : Block) (offset : Nat)

def trampolineTableSize : Nat := 4

/-- The loop of `make_uuo_link`. -/
def linkProcedure (frameSize : Nat) : Value → UuoLink
  | .compiledEntry address nRequired nOptional restP =>
      let procedure := .compiledEntry address nRequired nOptional restP
      let nargs := frameSize - 1
      let nmin := nRequired
      let nmax := nmin + nOptional
      if restP then .apply (.datum procedure) frameSize
      else if nargs = nmax then .procedure procedure
      else if nargs < nmax ∧ nmin ≤ nargs ∧ nmin < nmax ∧ nmax ≤ trampolineTableSize then
        .defaulting nmax nargs procedure
      else .apply (.datum procedure) frameSize
  | .entity address dispatches dispatch =>
      if dispatches frameSize then linkProcedure frameSize (dispatch frameSize)
      else .apply (.datum (.entity address dispatches dispatch)) frameSize
  | .primitive address arity =>
      let procedure := .primitive address arity
      match arity with
      | some arity =>
          if arity = frameSize - 1 then .primitive procedure
          else .apply (.datum procedure) frameSize
      | none => .lexprPrimitive procedure frameSize
  | .other address => .apply (.datum (.other address)) frameSize

/-- `make_uuo_link`, with `make_fake_uuo_link` -/
def makeUuoLink (frameSize : Nat) (value : Object Value) (cache : Nat) (block : Block)
    (offset : Nat) : UuoLink :=
  match value with
  | .datum procedure => linkProcedure frameSize procedure
  | .externalUnassigned => .apply .externalUnassigned frameSize
  | _ => .lookup cache block offset

/-- The link at a place, where a call has a frame of the size `frameSize block offset`. -/
def storedLink (frameSize : Block → Nat → Nat) (σ : State Value) (block : Block) (offset : Nat) :
    Option UuoLink :=
  match σ.slots block offset with
  | .link value cache => some (makeUuoLink (frameSize block offset) value cache block offset)
  | _ => none

/-- The operator that a call through a link applies. The trampoline for a trap looks it up. -/
def appliedOperator (σ : State Value) : UuoLink → Object Value
  | .procedure entry => .datum entry
  | .defaulting _ _ procedure => .datum procedure
  | .primitive procedure => .datum procedure
  | .lexprPrimitive procedure _ => .datum procedure
  | .apply procedure _ => procedure
  | .lookup cache _ _ => (σ.caches cache).value

/-- The operator that the application of an object comes to: an entity that dispatches on arity
passes the application on. -/
def dispatched (frameSize : Nat) : Value → Value
  | .entity address dispatches dispatch =>
      if dispatches frameSize then dispatched frameSize (dispatch frameSize)
      else .entity address dispatches dispatch
  | procedure => procedure

/-- What applying the value of a variable comes to. -/
def dispatchedValue (frameSize : Nat) : Object Value → Object Value
  | .datum procedure => .datum (dispatched frameSize procedure)
  | value => value

theorem appliedOperator_linkProcedure (σ : State Value) (frameSize : Nat) (procedure : Value) :
    appliedOperator σ (linkProcedure frameSize procedure)
      = .datum (dispatched frameSize procedure) := by
  induction procedure with
  | compiledEntry address nRequired nOptional restP =>
      unfold linkProcedure
      dsimp only
      split
      · rfl
      · split
        · rfl
        · split
          · rfl
          · rfl
  | entity address dispatches dispatch ih =>
      unfold linkProcedure dispatched
      split
      · exact ih frameSize
      · rfl
  | primitive address arity =>
      unfold linkProcedure
      cases arity with
      | none => rfl
      | some arity =>
          dsimp only
          split
          · rfl
          · rfl
  | other address => rfl

theorem appliedOperator_makeUuoLink (σ : State Value) (frameSize c : Nat) (b : Block) (o : Nat) :
    appliedOperator σ (makeUuoLink frameSize (σ.caches c).value c b o)
      = dispatchedValue frameSize (σ.caches c).value := by
  cases h : (σ.caches c).value with
  | datum procedure => exact appliedOperator_linkProcedure σ frameSize procedure
  | externalUnassigned => rfl
  | unassigned | unbound | macroBinding m | compilerCached t => exact h

/-- **The invariant of operator links**, in runs that change the value of a cache with live
operator references only by assignment. The link at the place of every live operator reference
is the one that `make_uuo_link` makes for the value of its cache, so a call applies that value. -/
theorem operator_links_invariant {σ₀ σ : State Value} (hinitial : Initial σ₀)
    (hrun : Reaches perform (KeepsLinks fun _ _ => True) σ₀ σ) (frameSize : Block → Nat → Nat)
    {c : Nat} {s : Symbol} {b : Block} {o : Nat} (ho : Recorded σ c .operator s b o) :
    ∃ link, storedLink frameSize σ b o = some link
      ∧ link = makeUuoLink (frameSize b o) (σ.caches c).value c b o
      ∧ appliedOperator σ link = dispatchedValue (frameSize b o) (σ.caches c).value := by
  have h : Sound (fun _ _ => True) σ := hrun.invariant (sound_initial hinitial _)
    fun hs hallowed hstep => hs.perform hallowed hstep
  have hslot : σ.slots b o = .link (σ.caches c).value c :=
    h.placed.installed trivial (mem_places.mpr ⟨s, ho⟩)
  refine ⟨_, ?_, rfl, appliedOperator_makeUuoLink σ _ c b o⟩
  unfold storedLink
  rw [hslot]

/-- Two compiled procedures without arguments. -/
def oldProcedure : Value := .compiledEntry 1 0 0 false

def newProcedure : Value := .compiledEntry 2 0 0 false

/-- A global variable `f` with an operator reference. -/
def linkedState : State Value :=
  (addCacheReference (startState.setCell (.global "f") (.datum oldProcedure)) .global "f"
    globalBlock 0 .operator).state

/-- Another global variable `g`. -/
def otherState : State Value :=
  linkedState.setCell (.global "g") (.datum newProcedure)

theorem perform_otherState (allowed : State Value → Operation Value → Prop)
    (hdefine : ∀ {σ : State Value} {e s v}, allowed σ (.define e s v))
    (hadd : allowed (startState.setCell (.global "f") (.datum oldProcedure))
      (.addReference .global "f" globalBlock 0 .operator)) :
    Reaches perform allowed startState otherState := by
  have h1 : Reaches perform allowed startState
      (startState.setCell (.global "f") (.datum oldProcedure)) :=
    .next (a := .define .global "f" ⟨.datum oldProcedure, trivial⟩) .start hdefine rfl
  have h2 : Reaches perform allowed startState linkedState := .next h1 hadd rfl
  exact .next (a := .define .global "g" ⟨.datum newProcedure, trivial⟩) h2 hdefine rfl

theorem recorded_otherState : Recorded otherState 0 .operator "f" globalBlock 0 :=
  ⟨[⟨some globalBlock, 0⟩], mem_singleton.mpr rfl, mem_singleton.mpr rfl⟩

theorem operator_links_invariant_otherState :
    ∃ link, storedLink (fun _ _ => 1) otherState globalBlock 0 = some link
      ∧ link = makeUuoLink 1 (otherState.caches 0).value 0 globalBlock 0
      ∧ appliedOperator otherState link = dispatchedValue 1 (otherState.caches 0).value := by
  refine operator_links_invariant initial_startState
    (perform_otherState _ trivial fun c k hp => ?_) (fun _ _ => 1) recorded_otherState
  cases hp

/-- Linking `f` to `g` gives the cache of `f` the value of `g`, but leaves the link as it was. -/
theorem operator_link_left_behind :
    ∃ σ : State Value, Reaches perform AddsAtNewPlace startState σ
      ∧ ∃ c s b o, Recorded σ c .operator s b o
        ∧ storedLink (fun _ _ => 1) σ b o ≠ some (makeUuoLink 1 (σ.caches c).value c b o)
        ∧ storedLink (fun _ _ => 1) σ b o = some (.procedure oldProcedure)
        ∧ (σ.caches c).value = .datum newProcedure := by
  have h1 : Reaches perform AddsAtNewPlace startState otherState :=
    perform_otherState _ trivial fun c k s ⟨l, he, _⟩ => by cases he
  refine ⟨_, .next (a := .link .global "f" .global "g") h1 trivial rfl, 0, "f", globalBlock, 0,
    ⟨[⟨some globalBlock, 0⟩], mem_singleton.mpr rfl, mem_singleton.mpr rfl⟩, ?_, rfl, rfl⟩
  intro heq
  cases heq

end MitScheme.Lookup
