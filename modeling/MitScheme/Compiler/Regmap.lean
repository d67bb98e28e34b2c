import MitScheme.Lib.Moves
import Mathlib.Data.List.Perm.Basic

/-!
# Register allocator

`regmap.scm`. A register map is a cache of the pseudo registers: its entries say which machine
registers, the aliases, hold the contents of which pseudo register, and whether the home of the
pseudo register has it too. The other machine registers that may be allocated are free.

Registers are natural numbers. What the allocator returns as instructions are moves between
machine registers and homes: how a machine encodes them is not looked at. An entry is found in
a list by comparing all of it where the source compares addresses, which is the same as long as
no two entries share an alias.
-/

namespace MitScheme.Regmap

open Moves

/-- What `machines/*/lapgen.scm` says of the machine registers. -/
structure Machine (RegisterType : Type) where
  registerType : Nat → RegisterType
  valueClassWord : Nat → Bool
  float : RegisterType
  availableMachineRegisters : List Nat
  available_nodup : availableMachineRegisters.Nodup
  sortMachineRegisters : List Nat → List Nat
  sort_perm : ∀ registers, (sortMachineRegisters registers).Perm registers

variable {RegisterType : Type} [DecidableEq RegisterType] (machine : Machine RegisterType)

/-- `register-type?`, where no type stands for any register of the word class. -/
def Machine.registerTypeP (register : Nat) (type : Option RegisterType) : Bool :=
  match type with
  | some type => decide (type = machine.registerType register)
  | none => machine.valueClassWord register

/-- `register-types-compatible?`, with a type that may be false. -/
def Machine.registerTypesCompatible (type1 type2 : Option RegisterType) : Bool :=
  decide (type1 = some machine.float) == decide (type2 = some machine.float)

/-- Where a value can be: in a machine register, or in the home of a pseudo register. -/
inductive Location where
  | register (register : Nat)
  | home (pseudoRegister : Nat)
deriving DecidableEq

/-- `register->register-transfer` -/
def registerToRegisterTransfer (source target : Nat) : List (Move Location) :=
  [⟨.register source, .register target⟩]

/-- `home->register-transfer` -/
def homeToRegisterTransfer (source target : Nat) : List (Move Location) :=
  [⟨.home source, .register target⟩]

/-- `register->home-transfer` -/
def registerToHomeTransfer (source target : Nat) : List (Move Location) :=
  [⟨.register source, .home target⟩]

variable {Label : Type} [DecidableEq Label]

/-- `make-map-entry` -/
structure MapEntry (Label : Type) where
  home : Option Nat
  savedIntoHome : Bool
  aliases : List Nat
  label : Option Label
deriving DecidableEq

namespace MapEntry

variable (entry : MapEntry Label)

/-- `map-entry:any-alias` -/
def anyAlias : Nat := entry.aliases.headD 0

/-- `map-entry:find-alias` -/
def findAlias (type : Option RegisterType) (neededRegisters : List Nat) : Option Nat :=
  entry.aliases.find? fun register =>
    machine.registerTypeP register type && !neededRegisters.contains register

/-- `map-entry:add-alias` -/
def addAlias (register : Nat) : MapEntry Label := { entry with aliases := register :: entry.aliases }

/-- `map-entry:delete-alias` -/
def deleteAlias (register : Nat) : MapEntry Label :=
  { entry with aliases := entry.aliases.erase register }

/-- `map-entry:replace-alias` -/
def replaceAlias (old new : Nat) : MapEntry Label :=
  { entry with aliases := entry.aliases.replace old new }

/-- `pseudo-register-entry->temporary-entry` -/
def toTemporary : MapEntry Label := { entry with home := none, savedIntoHome := true }

end MapEntry

/-! ## Register maps -/

/-- `make-register-map` -/
structure RegisterMap (Label : Type) where
  entries : List (MapEntry Label)
  registers : List Nat
deriving DecidableEq

def emptyRegisterMap : RegisterMap Label := ⟨[], machine.availableMachineRegisters⟩

/-- `map-entries:search`, from the end of the list. -/
def mapEntriesSearch {β : Type} (procedure : MapEntry Label → Option β) :
    List (MapEntry Label) → Option β
  | [] => none
  | entry :: entries => mapEntriesSearch procedure entries <|> procedure entry

namespace RegisterMap

variable (map : RegisterMap Label)

/-- `map-entries:find-home` -/
def findHome (pseudoRegister : Nat) : Option (MapEntry Label) :=
  map.entries.find? fun entry => decide (entry.home = some pseudoRegister)

/-- `map-entries:find-alias` -/
def findAlias (register : Nat) : Option (MapEntry Label) :=
  map.entries.find? fun entry => decide (register ∈ entry.aliases)

/-- `map-entries:replace&touch` -/
def replaceAndTouch (old new : MapEntry Label) : List (MapEntry Label) :=
  new :: map.entries.erase old

/-- `register-map:add-home` -/
def addHome (home : Option Nat) (register : Nat) (savedIntoHome : Bool) : RegisterMap Label :=
  ⟨{ home, savedIntoHome, aliases := [register], label := none } :: map.entries,
    map.registers.erase register⟩

/-- `register-map:add-alias` -/
def addAlias (entry : MapEntry Label) (register : Nat) : RegisterMap Label :=
  ⟨map.replaceAndTouch entry (entry.addAlias register), map.registers.erase register⟩

/-- `register-map:replace-alias` -/
def replaceAlias (entry : MapEntry Label) (old new : Nat) : RegisterMap Label :=
  ⟨map.replaceAndTouch entry (entry.replaceAlias old new), map.registers.erase new⟩

/-- `register-map:save-entry` -/
def saveEntry (entry : MapEntry Label) : RegisterMap Label :=
  ⟨map.replaceAndTouch entry { entry with savedIntoHome := true }, map.registers⟩

/-- `register-map:delete-alias` -/
def deleteAlias (entry : MapEntry Label) (register : Nat) : RegisterMap Label :=
  ⟨if entry.aliases.tail = [] then map.entries.erase entry
    else map.entries.replace entry (entry.deleteAlias register),
    machine.sortMachineRegisters (register :: map.registers)⟩

/-- `register-map:entry->temporary` -/
def entryToTemporary (entry : MapEntry Label) : RegisterMap Label :=
  ⟨map.replaceAndTouch entry entry.toTemporary, map.registers⟩

/-- `register-map:delete-entry` -/
def deleteEntry (entry : MapEntry Label) : RegisterMap Label :=
  ⟨map.entries.erase entry, machine.sortMachineRegisters (entry.aliases ++ map.registers)⟩

end RegisterMap

/-! ## Register allocator -/

structure AllocatorValues (Label : Type) where
  register : Nat
  map : RegisterMap Label
  instructions : List (Move Location)

def saveIntoHomeInstruction (entry : MapEntry Label) : List (Move Location) :=
  match entry.home with
  | some home => registerToHomeTransfer entry.anyAlias home
  | none => []

variable (map : RegisterMap Label) (type : Option RegisterType) (neededRegisters : List Nat)

/-- `reallocate-alias`, within `find-free-register`. -/
def reallocateAlias (entry : MapEntry Label) : Option (AllocatorValues Label) := do
  let register ← entry.findAlias machine type neededRegisters
  return ⟨register, map.deleteAlias machine entry register, []⟩

def findFreeRegister : Option (AllocatorValues Label) :=
  ((map.registers.find? fun register =>
      machine.registerTypeP register type && !neededRegisters.contains register).map
    fun register => ⟨register, map, []⟩)
  <|> mapEntriesSearch (fun entry =>
      if entry.home = none ∧ entry.label = none then
        reallocateAlias machine map type neededRegisters entry
      else none) map.entries
  <|> mapEntriesSearch (fun entry =>
      if entry.aliases.tail ≠ [] then reallocateAlias machine map type neededRegisters entry
      else none) map.entries
  <|> mapEntriesSearch (fun entry =>
      if entry.home ≠ none ∧ entry.savedIntoHome then
        reallocateAlias machine map type neededRegisters entry
      else none) map.entries

/-- A register of some other type takes over the value of an alias. -/
def stashAlias (entry : MapEntry Label) (register : Nat) : Option (AllocatorValues Label) := do
  let type ← type
  let values ← findFreeRegister machine map
    (if machine.registerTypesCompatible (some type) none then none else some type)
    (register :: neededRegisters)
  return ⟨register, values.map.replaceAlias entry register values.register,
    values.instructions ++ registerToRegisterTransfer register values.register⟩

/-- The second search of `make-free-register`: a register whose value has to be saved. -/
def recycleEntry (entry : MapEntry Label) : Option (AllocatorValues Label) :=
  if entry.home ≠ none ∧ entry.savedIntoHome = false then do
    let register ← entry.findAlias machine type neededRegisters
    stashAlias machine map type neededRegisters entry register
      <|> some ⟨register, map.deleteAlias machine entry register, saveIntoHomeInstruction entry⟩
  else none

/-- The third search of `make-free-register`: a register that holds a label. -/
def recycleLabel (entry : MapEntry Label) : Option (AllocatorValues Label) :=
  if entry.label ≠ none ∧ entry.home = none then do
    let register ← entry.findAlias machine type neededRegisters
    return ⟨register, map.deleteAlias machine entry register, []⟩
  else none

/-- `make-free-register`. Without a result the source signals an error. -/
def makeFreeRegister : Option (AllocatorValues Label) :=
  findFreeRegister machine map type neededRegisters
  <|> mapEntriesSearch (recycleEntry machine map type neededRegisters) map.entries
  <|> mapEntriesSearch (recycleLabel machine map type neededRegisters) map.entries

/-! ## Allocator operations -/

/-- The alias that `load-alias-register` finds. -/
def findLoadedAlias (home : Nat) : Option Nat := do
  let entry ← map.findHome home
  entry.aliases.find? fun register => machine.registerTypeP register type

def loadAliasRegister (home : Nat) : Option (AllocatorValues Label) :=
  match findLoadedAlias machine map type home with
  | some register => some ⟨register, map, []⟩
  | none => do
      let ⟨register, map, instructions⟩ ← makeFreeRegister machine map type neededRegisters
      match map.findHome home with
      | some entry =>
          return ⟨register, map.addAlias entry register,
            instructions ++ registerToRegisterTransfer entry.anyAlias register⟩
      | none =>
          return ⟨register, map.addHome (some home) register true,
            instructions ++ homeToRegisterTransfer home register⟩

/-- `allocate-alias-register`: "used when about to modify `home`'s contents. It is assumed that
no entry exists for `home`." -/
def allocateAliasRegister (home : Nat) : Option (AllocatorValues Label) := do
  let ⟨register, map, instructions⟩ ← makeFreeRegister machine map type neededRegisters
  return ⟨register, map.addHome (some home) register false, instructions⟩

def allocateTemporaryRegister : Option (AllocatorValues Label) := do
  let ⟨register, map, instructions⟩ ← makeFreeRegister machine map type neededRegisters
  return ⟨register, map.addHome none register true, instructions⟩

def saveMachineRegister (register : Nat) : RegisterMap Label × List (Move Location) :=
  match map.findAlias register with
  | some entry =>
      if entry.savedIntoHome = false ∧ entry.aliases.tail = [] then
        (map.saveEntry entry, saveIntoHomeInstruction entry)
      else (map, [])
  | none => (map, [])

def savePseudoRegister (register : Nat) : RegisterMap Label × List (Move Location) :=
  match map.findHome register with
  | some entry =>
      if entry.savedIntoHome = false then (map.saveEntry entry, saveIntoHomeInstruction entry)
      else (map, [])
  | none => (map, [])

def deleteMachineRegister (register : Nat) : RegisterMap Label :=
  match map.findAlias register with
  | some entry => map.deleteAlias machine entry register
  | none => map

def deletePseudoRegister (register : Nat) : RegisterMap Label × List Nat :=
  match map.findHome register with
  | none => (map, [])
  | some entry =>
      if entry.label = none then (map.deleteEntry machine entry, entry.aliases)
      else (map.entryToTemporary entry, entry.aliases)

/-- `input-loop`, in front of the instructions after it. -/
def inputLoop : List (MapEntry Label) → List (Move Location) → List (Move Location)
  | [], tail => tail
  | entry :: entries, tail =>
      if entry.savedIntoHome then inputLoop entries tail
      else saveIntoHomeInstruction entry ++ inputLoop entries tail

def clearMapInstructions : List (Move Location) := inputLoop map.entries []

end MitScheme.Regmap
