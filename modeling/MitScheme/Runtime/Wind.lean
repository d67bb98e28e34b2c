import Mathlib.Data.List.Basic

/-!
# State spaces

The state points of `wind.scm` on one space. A thunk is only a name here: where the code calls a thunk, a
procedure is cut in two, and what it has to do afterwards is a frame. A thunk may use the space as it
likes before it returns, may never return, or may return again and again.
-/

namespace MitScheme.Wind

/-- What `to-nearer` and `from-nearer` may be. -/
inductive Field (τ : Type) where
  | false
  | space
  | thunk (t : τ)

structure Point (τ : Type) where
  nearerPoint : Option Nat
  toNearer : Field τ
  fromNearer : Field τ

/-- The points, which are numbered as they are made, and the `nearest-point` of the space. -/
structure State (τ : Type) where
  points : List (Point τ)
  nearestPoint : Nat

variable {τ : Type}

def makeStateSpace : State τ := ⟨[⟨none, .space, .false⟩], 0⟩

/-! ## Translating -/

/-- What a procedure does when it goes on: it returns, or calls a thunk. The chain is what is left of the
way to the point, from the point on that has just become the root. -/
inductive Outcome (τ : Type) where
  | returns (s : State τ)
  | calls (t : τ) (s : State τ) (chain : List Nat)

/-- The loop `find-nearest`, which returns the root. -/
def findNearest (points : List (Point τ)) : Nat → Nat → List Nat → Option (Nat × List Nat)
  | 0, _, _ => none
  | fuel + 1, point, chain => do
      let p ← points[point]?
      match p.nearerPoint with
      | some nearerPoint => findNearest points fuel nearerPoint (point :: chain)
      | none => some (point, chain)

/-- The root is moved to a point next to it, and the thunk that is to be called is returned. -/
def State.moveRoot (s : State τ) (oldRoot newRoot : Nat) : Option (τ × State τ) := do
  let p ← s.points[newRoot]?
  if oldRoot < s.points.length then
    match p.fromNearer with
    | .thunk t => some (t, ⟨(s.points.set oldRoot ⟨some newRoot, p.fromNearer, p.toNearer⟩).set newRoot
        ⟨none, .space, .false⟩, newRoot⟩)
    | _ => none
  else none

/-- The loop `traverse-chain`, up to the call of a thunk. -/
def State.traverseChain (s : State τ) (oldRoot : Nat) : List Nat → Option (Outcome τ)
  | [] => some (.returns s)
  | newRoot :: chain => (s.moveRoot oldRoot newRoot).map fun r => .calls r.1 r.2 (newRoot :: chain)

/-- `find-nearest`, and what comes after it. No way to the root is longer than two ways to the first
point. -/
def State.findAndTraverse (s : State τ) (point : Nat) (chain : List Nat) : Option (Outcome τ) := do
  let (root, chain) ← findNearest s.points (2 * s.points.length + 1) point chain
  let p ← s.points[root]?
  match p.toNearer with
  | .space => s.traverseChain root chain
  | _ => none

def State.translateToStatePoint (s : State τ) (point : Nat) : Option (Outcome τ) :=
  s.findAndTraverse point []

/-- The loop `find-root`, with which `%%translate-to-state-point` goes on when a thunk has returned. -/
def State.findRoot (s : State τ) : List Nat → Option (Outcome τ)
  | [] => none
  | point :: chain => do
      let p ← s.points[point]?
      match p.nearerPoint with
      | none => s.traverseChain point chain
      | some nearerPoint =>
          if chain.head? = some nearerPoint then s.findRoot chain
          else s.findAndTraverse nearerPoint (point :: chain)

/-- The root has a new point inside it, which becomes the root. -/
def State.enter (s : State τ) (oldRoot : Nat) (before after : τ) : Option (State τ) :=
  if oldRoot < s.points.length then
    some ⟨s.points.set oldRoot ⟨some s.points.length, .thunk before, .thunk after⟩
      ++ [⟨none, .space, .false⟩], s.points.length⟩
  else none

/-! ## Calls and returns -/

/-- What is to be done when a translation returns: nothing, or a new point is made, and `during` is
called. -/
inductive Goal (τ : Type) where
  | done
  | newPoint (oldRoot : Nat) (before after : τ)

/-- What is to be done when a thunk returns. -/
inductive Frame (τ : Type) where
  | before (oldRoot : Nat) (before after : τ)
  | moving (chain : List Nat) (goal : Goal τ)
  | during (oldRoot : Nat)

/-- A point with the thunks it was made with. -/
structure Winder (τ : Type) where
  point : Nat
  before : τ
  after : τ

/-- The state, the frames of all thunks that have been called, and, which the code does not keep, what
each point was made in: the winders of the points around it, innermost first, with its own one. -/
structure Config (τ : Type) where
  state : State τ
  frames : List (Frame τ)
  nests : List (List (Winder τ))

/-- No point has been made but the first one. -/
def start : Config τ := ⟨makeStateSpace, [], [[]]⟩

def Config.enter (c : Config τ) (oldRoot : Nat) (before after : τ) : Option (Config τ) := do
  let nest ← c.nests[oldRoot]?
  let s ← c.state.enter oldRoot before after
  some ⟨s, c.frames ++ [.during oldRoot], c.nests ++ [⟨c.nests.length, before, after⟩ :: nest]⟩

/-- A translation has come to a call or to its end. -/
def Config.continue (c : Config τ) (goal : Goal τ) : Outcome τ → Option (Config τ)
  | .calls _ s chain => some { c with state := s, frames := c.frames ++ [.moving chain goal] }
  | .returns s =>
      match goal with
      | .done => some { c with state := s }
      | .newPoint oldRoot before after => Config.enter { c with state := s } oldRoot before after

def Config.translate (c : Config τ) (point : Nat) (goal : Goal τ) : Option (Config τ) := do
  let outcome ← c.state.translateToStatePoint point
  c.continue goal outcome

/-- A thunk returns to its frame. -/
def Config.return (c : Config τ) : Frame τ → Option (Config τ)
  | .before oldRoot before after =>
      if oldRoot = c.state.nearestPoint then c.enter oldRoot before after
      else c.translate oldRoot (.newPoint oldRoot before after)
  | .moving chain goal => do
      let outcome ← c.state.findRoot chain
      c.continue goal outcome
  | .during oldRoot => c.translate oldRoot .done

/-- What programs do to a space, where a frame is known by its number. -/
inductive Event (τ : Type) where
  | translateToStatePoint (point : Nat)
  | executeAtNewStatePoint (before after : τ)
  | returns (frame : Nat)

/-- An event happens. Nothing happens without the point or the frame. -/
def Config.perform (c : Config τ) : Event τ → Option (Config τ)
  | .translateToStatePoint point =>
      if point < c.state.points.length then c.translate point .done else some c
  | .executeAtNewStatePoint before after =>
      some { c with frames := c.frames ++ [.before c.state.nearestPoint before after] }
  | .returns frame =>
      match c.frames[frame]? with
      | some f => c.return f
      | none => some c

def Config.performAll : List (Event τ) → Config τ → Option (Config τ)
  | [], c => some c
  | event :: events, c => do
      let c ← c.perform event
      Config.performAll events c

end MitScheme.Wind
