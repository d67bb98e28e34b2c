import MitScheme.Runtime.Bytevector

/-!
# Regular s-expressions

The compiler and the matcher of `regsexp.scm`. An instruction is a function from a success continuation to
one that does its work first, and a continuation comes to an answer from a state of what is read. To move
on from a position may change that state.

The loops of `*` and `*?` come with fuel for their turns.
-/

namespace MitScheme.RegularSexpression

/-- The arguments of `**` that `check-repeat-2-args` accepts. -/
structure Limits where
  n : Nat
  m : Option Nat
  le : ∀ k, m = some k → n ≤ k

/-- The regular s-expressions, with the group keys of a type. A set of characters is the predicate that it
is looked up with. -/
inductive Regsexp (κ : Type) where
  | char (char : Char)
  | string (string : List Char)
  | anyChar
  | charSet (charSet : Char → Bool)
  | inverseCharSet (charSet : Char → Bool)
  | lineStart
  | lineEnd
  | stringStart
  | stringEnd
  /-- `?` -/
  | optional (regsexp : Regsexp κ)
  /-- `*` -/
  | star (regsexp : Regsexp κ)
  /-- `+` -/
  | plus (regsexp : Regsexp κ)
  /-- `??` -/
  | shyOptional (regsexp : Regsexp κ)
  /-- `*?` -/
  | shyStar (regsexp : Regsexp κ)
  /-- `+?` -/
  | shyPlus (regsexp : Regsexp κ)
  /-- `**` with one number -/
  | exactly (n : Nat) (regsexp : Regsexp κ)
  /-- `**?` with one number -/
  | shyExactly (n : Nat) (regsexp : Regsexp κ)
  /-- `**` with two arguments -/
  | between (limits : Limits) (regsexp : Regsexp κ)
  /-- `**?` with two arguments -/
  | shyBetween (limits : Limits) (regsexp : Regsexp κ)
  | alt (regsexps : List (Regsexp κ))
  | seq (regsexps : List (Regsexp κ))
  | group (key : κ) (regsexp : Regsexp κ)
  | groupRef (key : κ)

/-- The errors that are signalled while a match is looked for. -/
inductive Error (κ : Type) where
  /-- "Incorrectly nested group:" -/
  | incorrectlyNested (key : κ)
  /-- "Can't refer to unfinished group:" -/
  | unfinished (key : κ)
  /-- There is no character before a position. -/
  | noChar
  /-- The argument is not in NFC. -/
  | notNfc (caller : String)
  | badIndex (e : Codec.Error)
deriving DecidableEq

/-- What a match comes to: where it ends, with the contents of the groups, or that there is none. -/
inductive Answer (κ : Type) where
  | found (stop : Nat) (groups : List (κ × List Char))
  | notFound
  | error (e : Error κ)
  | exhausted
deriving DecidableEq

/-- What a position can be asked for. -/
structure Positions (π σ : Type) where
  getIndex : π → Nat
  nextChar : π → Option Char
  nextPosition : π → σ → π × σ
  prevChar : π → Option Char
  prevPosition : π → Option π

/-- The positions that `make-string-position` makes. -/
def stringPositions (string : List Char) (start stop : Nat) : Positions Nat Unit where
  getIndex index := index
  nextChar index := if index < stop then string[index]? else none
  nextPosition index _ := (index + 1, ())
  prevChar index := if index > start then string[index - 1]? else none
  prevPosition index := some (index - 1)

/-- A position that `make-source-position` makes. -/
inductive SourcePosition where
  | atIndex (index : Nat) (nextChar prevChar : Option Char) (prevPosition : Option SourcePosition)

/-- `source`: the next character of a port is read. -/
def source (port : List Char) : Option Char × List Char := (port.head?, port.tail)

def sourcePositions : Positions SourcePosition (List Char) where
  getIndex | .atIndex index _ _ _ => index
  nextChar | .atIndex _ nextChar _ _ => nextChar
  nextPosition
    | .atIndex index nextChar prevChar prevPosition, port =>
        (.atIndex (index + 1) (source port).1 nextChar (some (.atIndex index nextChar prevChar prevPosition)),
          (source port).2)
  prevChar | .atIndex _ _ prevChar _ => prevChar
  prevPosition | .atIndex _ _ _ prevPosition => prevPosition

def makeSourcePosition (port : List Char) : SourcePosition × List Char :=
  (.atIndex 0 (source port).1 none none, (source port).2)

section

variable {κ π σ : Type} [DecidableEq κ] (P : Positions π σ)

/-- `same-positions?`, of two positions with the same marker. -/
def samePositions (p1 p2 : π) : Bool := P.getIndex p1 == P.getIndex p2

/-- The `state` of `make-groups`. -/
structure Groups (κ π : Type) where
  started : List (κ × π)
  ended : List (κ × List Char)

def assv {α : Type} (key : κ) (l : List (κ × α)) : Option α := (l.find? fun p => p.1 = key).map Prod.snd

/-- `start` -/
def Groups.startGroup (groups : Groups κ π) (key : κ) (position : π) : Except (Error κ) (Groups κ π) :=
  if (assv key groups.started).isSome then .error (.incorrectlyNested key)
  else .ok { groups with started := (key, position) :: groups.started }

/-- The loop in `finish-group`. No way back is longer than the index of the position. -/
def finishGroup (start : π) : Nat → π → List Char → Except (Error κ) (List Char)
  | 0, _, _ => .error .noChar
  | fuel + 1, position, chars =>
      if samePositions P position start then .ok chars
      else
        match P.prevChar position, P.prevPosition position with
        | some char, some position => finishGroup start fuel position (char :: chars)
        | _, _ => .error .noChar

/-- `end` -/
def Groups.endGroup (groups : Groups κ π) (key : κ) (position : π) : Except (Error κ) (Groups κ π) :=
  match groups.started with
  | (started, start) :: rest =>
      if started = key then do
        let chars ← finishGroup P start (P.getIndex position + 1) position []
        .ok ⟨rest, (key, chars) :: groups.ended⟩
      else .error (.incorrectlyNested key)
  | [] => .error (.incorrectlyNested key)

def Groups.getValue (groups : Groups κ π) (key : κ) : Except (Error κ) (Option (List Char)) :=
  if (assv key groups.started).isSome then .error (.unfinished key)
  else .ok (assv key groups.ended)

/-! ## Instructions -/

abbrev Run (κ σ : Type) := σ → Answer κ × σ

/-- A success continuation, or a linked instruction. -/
abbrev Linked (κ π σ : Type) := π → Groups κ π → Run κ σ → Run κ σ

abbrev Insn (κ π σ : Type) := Linked κ π σ → Linked κ π σ

variable {P}

def alwaysSucceed : Insn κ π σ := fun succeed => succeed

def alwaysFail : Insn κ π σ := fun _ _ _ fail => fail

/-- An instruction that looks at the position only. -/
def insnTest (test : π → Bool) : Insn κ π σ := fun succeed position groups fail =>
  if test position then succeed position groups fail else fail

variable (P)

def insnStringStart : Insn κ π σ := insnTest fun position => (P.prevChar position).isNone

def insnStringEnd : Insn κ π σ := insnTest fun position => (P.nextChar position).isNone

def insnLineStart : Insn κ π σ := insnTest fun position => (P.prevChar position).all fun char => char = '\n'

def insnLineEnd : Insn κ π σ := insnTest fun position => (P.nextChar position).all fun char => char = '\n'

def insnCharMatching (predicate : Char → Bool) : Insn κ π σ := fun succeed position groups fail state =>
  if (P.nextChar position).any predicate then
    let moved := P.nextPosition position state
    succeed moved.1 groups fail moved.2
  else fail state

def insnChar (char : Char) : Insn κ π σ := insnCharMatching P fun c => c = char

/-- The loop in `insn:string`. -/
def stringLoop (succeed : Linked κ π σ) : List Char → Linked κ π σ
  | [] => succeed
  | c :: rest => fun position groups fail state =>
      if (P.nextChar position).any fun char => char = c then
        let moved := P.nextPosition position state
        stringLoop succeed rest moved.1 groups fail moved.2
      else fail state

def insnString : List Char → Insn κ π σ
  | [] => alwaysSucceed
  | [char] => insnChar P char
  | string => fun succeed => stringLoop P succeed string

/-- An error is signalled, or the match goes on. -/
def orSignal {α : Type} (x : Except (Error κ) α) (run : α → Run κ σ) : Run κ σ :=
  match x with
  | .ok a => run a
  | .error e => fun state => (.error e, state)

def insnGroup (key : κ) (insn : Insn κ π σ) : Insn κ π σ := fun succeed =>
  let stop : Insn κ π σ := fun succeed position groups fail =>
    orSignal (groups.endGroup P key position) fun groups => succeed position groups fail
  let start : Insn κ π σ := fun succeed position groups fail =>
    orSignal (groups.startGroup key position) fun groups => succeed position groups fail
  start (insn (stop succeed))

def insnGroupRef (key : κ) : Insn κ π σ := fun succeed position groups fail =>
  orSignal (groups.getValue key) fun value =>
    match value with
    | some value => insnString P value succeed position groups fail
    | none => succeed position groups fail

variable {P}

def insnSeq (insns : List (Insn κ π σ)) : Insn κ π σ := fun succeed =>
  insns.foldr (fun insn next => insn next) succeed

def failureChain (s1 s2 : Linked κ π σ) : Linked κ π σ := fun position groups fail =>
  s1 position groups (s2 position groups fail)

def insnAlt : List (Insn κ π σ) → Insn κ π σ
  | [] => alwaysFail
  | [insn] => insn
  | insn :: rest => fun succeed => failureChain (insn succeed) (insnAlt rest succeed)

/-- `insn:?` -/
def insnOptional (insn : Insn κ π σ) : Insn κ π σ := fun succeed => failureChain (insn succeed) succeed

/-- `insn:??` -/
def insnShyOptional (insn : Insn κ π σ) : Insn κ π σ := fun succeed => failureChain succeed (insn succeed)

variable (P)

/-- The continuation of a turn of `insn:*` or `insn:*?`. -/
def afterTurn (loop : Linked κ π σ) (position : π) : Linked κ π σ := fun position' groups' fail' =>
  if samePositions P position' position then fail' else loop position' groups' fail'

/-- `insn:*` -/
def insnStar (insn : Insn κ π σ) (succeed : Linked κ π σ) : Nat → Linked κ π σ
  | 0 => fun _ _ _ state => (.exhausted, state)
  | fuel + 1 => fun position groups fail =>
      failureChain (insn (afterTurn P (insnStar insn succeed fuel) position)) succeed position groups fail

/-- `insn:*?` -/
def insnShyStar (insn : Insn κ π σ) (succeed : Linked κ π σ) : Nat → Linked κ π σ
  | 0 => fun _ _ _ state => (.exhausted, state)
  | fuel + 1 => fun position groups fail =>
      failureChain succeed (insn (afterTurn P (insnShyStar insn succeed fuel) position)) position groups fail

variable {P}

/-- `%immediate-chain`, where the loop counts what is left of the limit. -/
def immediateChain (limit : Nat) (preLinker : Linked κ π σ → Insn κ π σ) : Insn κ π σ := fun succeed =>
  let rec loop : Nat → Linked κ π σ
    | 0 => succeed
    | n + 1 => preLinker succeed (loop n)
  loop limit

/-- `%delayed-chain`, where the loop counts what is left of the limit. -/
def delayedChain (limit : Nat) (preLinker : Linked κ π σ → Insn κ π σ) : Insn κ π σ := fun succeed =>
  let rec loop : Nat → Linked κ π σ
    | 0 => succeed
    | n + 1 => fun position groups fail => preLinker succeed (loop n) position groups fail
  loop limit

def hybridChain (limit : Nat) (preLinker : Linked κ π σ → Insn κ π σ) : Insn κ π σ :=
  if limit ≤ 8 then immediateChain limit preLinker else delayedChain limit preLinker

def repeatExactly (n : Nat) (insn : Insn κ π σ) : Insn κ π σ := hybridChain n fun _ => insn

/-- `%repeat` -/
def insnRepeat (limits : Limits) (insn : Insn κ π σ) (repeatLimited : Nat → Insn κ π σ → Insn κ π σ)
    (repeatUnlimited : Insn κ π σ → Insn κ π σ) : Insn κ π σ := fun succeed =>
  let insn1 := repeatExactly limits.n insn
  let insn2 :=
    match limits.m with
    | some m => repeatLimited (m - limits.n) insn
    | none => repeatUnlimited insn
  insn1 (insn2 succeed)

variable (P)

/-- `insn:**` -/
def insnBetween (fuel : Nat) (limits : Limits) (insn : Insn κ π σ) : Insn κ π σ :=
  insnRepeat limits insn
    (fun limit insn =>
      hybridChain limit fun succeed next => failureChain (insn next) succeed)
    fun insn succeed => insnStar P insn succeed fuel

/-- `insn:**?` -/
def insnShyBetween (fuel : Nat) (limits : Limits) (insn : Insn κ π σ) : Insn κ π σ :=
  insnRepeat limits insn
    (fun limit insn =>
      hybridChain limit fun succeed next => failureChain succeed (insn next))
    fun insn succeed => insnShyStar P insn succeed fuel

/-- `n` and `m` are the same number. -/
def Limits.same (n : Nat) : Limits := ⟨n, some n, fun k h => by cases h; exact Nat.le_refl n⟩

/-- At least one, without an upper limit. -/
def Limits.plus : Limits := ⟨1, none, nofun⟩

mutual

/-- `%compile-regsexp` -/
def compile (fuel : Nat) : Regsexp κ → Insn κ π σ
  | .char char => insnChar P char
  | .string string => insnString P string
  | .anyChar => insnCharMatching P fun char => char ≠ '\n'
  | .charSet charSet => insnCharMatching P charSet
  | .inverseCharSet charSet => insnCharMatching P fun char => !charSet char
  | .lineStart => insnLineStart P
  | .lineEnd => insnLineEnd P
  | .stringStart => insnStringStart P
  | .stringEnd => insnStringEnd P
  | .optional regsexp => insnOptional (compile fuel regsexp)
  | .star regsexp => fun succeed => insnStar P (compile fuel regsexp) succeed fuel
  | .plus regsexp => insnBetween P fuel .plus (compile fuel regsexp)
  | .shyOptional regsexp => insnShyOptional (compile fuel regsexp)
  | .shyStar regsexp => fun succeed => insnShyStar P (compile fuel regsexp) succeed fuel
  | .shyPlus regsexp => insnShyBetween P fuel .plus (compile fuel regsexp)
  | .exactly n regsexp => insnBetween P fuel (.same n) (compile fuel regsexp)
  | .shyExactly n regsexp => insnShyBetween P fuel (.same n) (compile fuel regsexp)
  | .between limits regsexp => insnBetween P fuel limits (compile fuel regsexp)
  | .shyBetween limits regsexp => insnShyBetween P fuel limits (compile fuel regsexp)
  | .alt regsexps => insnAlt (compileAll fuel regsexps)
  | .seq regsexps => insnSeq (compileAll fuel regsexps)
  | .group key regsexp => insnGroup P key (compile fuel regsexp)
  | .groupRef key => insnGroupRef P key

def compileAll (fuel : Nat) : List (Regsexp κ) → List (Insn κ π σ)
  | [] => []
  | regsexp :: regsexps => compile fuel regsexp :: compileAll fuel regsexps

end

def compileRegsexp (fuel : Nat) (regsexp : Regsexp κ) : Linked κ π σ :=
  compile P fuel regsexp fun position groups _ state =>
    (.found (P.getIndex position) groups.ended.reverse, state)

/-- `top-level-match`, without the index of the start. -/
def topLevelMatch (crsexp : Linked κ π σ) (startPosition : π) : Run κ σ :=
  crsexp startPosition ⟨[], []⟩ fun state => (.notFound, state)

end

variable {κ : Type} [DecidableEq κ]

/-- What a procedure returns: where the match starts and where it ends, with the contents of the groups,
or `#f`. -/
inductive Result (κ : Type) where
  | found (start stop : Nat) (groups : List (κ × List Char))
  | notFound
  | error (e : Error κ)
  | exhausted
deriving DecidableEq

/-- The index of the start is put in front. -/
def Answer.startingAt (start : Nat) : Answer κ → Result κ
  | .found stop groups => .found start stop groups
  | .notFound => .notFound
  | .error e => .error e
  | .exhausted => .exhausted

/-- The range of a string, which has to be in NFC. -/
def withRange (nfc : List Char → Bool) (caller : String) (string : List Char) (start stop : Option Nat)
    (result : Nat → Nat → Result κ) : Result κ :=
  match Codec.fixEndIndex stop string.length caller with
  | .error e => .error (.badIndex e)
  | .ok stop =>
      match Codec.fixStartIndex start stop caller with
      | .error e => .error (.badIndex e)
      | .ok start => if nfc string then result start stop else .error (.notNfc caller)

def regsexpMatchString (nfc : List Char → Bool) (fuel : Nat) (regsexp : Regsexp κ) (string : List Char)
    (start stop : Option Nat) : Result κ :=
  withRange nfc "regsexp-match-string" string start stop fun start stop =>
    let P := stringPositions string start stop
    (topLevelMatch (compileRegsexp P fuel regsexp) start ()).1.startingAt start

/-- The loop in `regsexp-search-string-forward`, with the number of characters that are left. -/
def searchForward (P : Positions Nat Unit) (crsexp : Linked κ Nat Unit) : Nat → Nat → Result κ
  | left, position =>
      match (topLevelMatch crsexp position ()).1.startingAt (P.getIndex position), left with
      | .notFound, left + 1 =>
          if (P.nextChar position).isSome then
            searchForward P crsexp left (P.nextPosition position ()).1
          else .notFound
      | result, _ => result

def regsexpSearchStringForward (nfc : List Char → Bool) (fuel : Nat) (regsexp : Regsexp κ)
    (string : List Char) (start stop : Option Nat) : Result κ :=
  withRange nfc "regsexp-search-string-forward" string start stop fun start stop =>
    let P := stringPositions string start stop
    searchForward P (compileRegsexp P fuel regsexp) (stop - start) start

def regsexpMatchInputPort (fuel : Nat) (regsexp : Regsexp κ) (port : List Char) : Result κ :=
  let start := makeSourcePosition port
  (topLevelMatch (compileRegsexp sourcePositions fuel regsexp) start.1 start.2).1.startingAt 0

end MitScheme.RegularSexpression
