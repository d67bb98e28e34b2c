import MitScheme.Runtime.HashTable

/-!
# Weak hash tables

The hash tables of `hashtb.scm` once more, with entries that the garbage collector may break. Entries
are known by their addresses, and a chain is the list of the addresses of its entries: what is linked
where is as for strong tables. Before each access a collection may run, as the schedule has it. It moves
the objects, breaks entries, and sets `needs-rehash?` of the tables that are recorded.

A procedure that is given to `modify!` may change the table before it returns.
-/

namespace MitScheme.WeakHashTable

open Programs
open HashTable (RehashSize minimumSize defaultRehashSize computeShrinkSize growLoop shrinkLoop primesLoop)

/-- An entry. When it is broken its key and its datum can no longer be fetched. -/
structure Entry (κ δ : Type) where
  key : κ
  datum : δ
  broken : Bool

/-- `hash-table-type`. Strong tables have no method `clean!`, and the others have one that asks if an
entry is valid. -/
structure TableType (κ δ P : Type) extends HashTable.TableType κ P where
  cleans : Bool
  entryValid : Entry κ δ → Bool

/-- A collection: where the objects are then, and which entries it breaks. -/
structure Collection (κ δ P : Type) where
  placement : P
  breaks : Nat → Entry κ δ → Bool

/-- A table, without the flag `needs-rehash?`. -/
structure Table where
  rehashThreshold : Int → Int
  rehashSize : RehashSize
  count : Int
  growSize : Int
  shrinkSize : Int
  buckets : List (List Nat)
  primes : Nat
  initialSizeInEffect : Bool

/-- The entries by their addresses, the tables, which are numbered as they are made, where the objects
are, the collections to come, `address-hash-tables`, and `needs-rehash?` of each table. -/
structure State (κ δ P : Type) where
  entries : List (Entry κ δ)
  tables : List Table
  placement : P
  schedule : List (Option (Collection κ δ P))
  recorded : List Nat
  needsRehash : Nat → Bool

variable {κ δ P α : Type}

/-- A garbage collection, if there is to be one now, with `mark-address-hash-tables!`. -/
def State.collect (s : State κ δ P) : State κ δ P :=
  match s.schedule with
  | [] => s
  | none :: rest => { s with schedule := rest }
  | some collection :: rest =>
      { s with
        entries := s.entries.mapIdx fun p e => { e with broken := e.broken || collection.breaks p e }
        placement := collection.placement
        schedule := rest
        needsRehash := fun i => s.recorded.contains i || s.needsRehash i }

abbrev M (κ δ P α : Type) := Program (State κ δ P) α

/-- An access, before which a collection may run. -/
def access (f : State κ δ P → Option (α × State κ δ P)) : M κ δ P α := fun s => f s.collect

def readTable (i : Nat) : M κ δ P Table := access fun s => (s.tables[i]?).map (·, s)

def writeTable (i : Nat) (f : Table → Table) : M κ δ P Unit := access fun s =>
  if i < s.tables.length then some ((), { s with tables := s.tables.modify i f }) else none

def tableNeedsRehash (i : Nat) : M κ δ P Bool := access fun s => some (s.needsRehash i, s)

def setTableNeedsRehash (i : Nat) (flag : Bool) : M κ δ P Unit := access fun s =>
  some ((), { s with needsRehash := Function.update s.needsRehash i flag })

/-- `(vector-ref (table-buckets table) hash)` -/
def bucketRef (i hash : Nat) : M κ δ P (List Nat) := access fun s => do
  let t ← s.tables[i]?
  let ps ← t.buckets[hash]?
  some (ps, s)

/-- The chain of a bucket is linked anew. -/
def bucketModify (i hash : Nat) (f : List Nat → List Nat) : M κ δ P Unit := access fun s => do
  let t ← s.tables[i]?
  if hash < t.buckets.length then
    some ((), { s with
      tables := s.tables.modify i fun t => { t with buckets := t.buckets.modify hash f } })
  else none

def incrementTableCount (i : Nat) : M κ δ P Unit :=
  writeTable i fun t => { t with count := t.count + 1 }

def decrementTableCount (i : Nat) : M κ δ P Unit :=
  writeTable i fun t => { t with count := t.count - 1 }

def makeEntry (key : κ) (datum : δ) : M κ δ P Nat := access fun s =>
  some (s.entries.length, { s with entries := s.entries ++ [⟨key, datum, false⟩] })

def entryRef (p : Nat) : M κ δ P (Entry κ δ) := access fun s => (s.entries[p]?).map (·, s)

/-- `call-with-entry-key&datum`, and `call-with-entry-key`: nothing for an entry that is broken. -/
def entryKeyAndDatum (p : Nat) : M κ δ P (Option (κ × δ)) := do
  let e ← entryRef p
  pure (if e.broken then none else some (e.key, e.datum))

/-- `set-entry-datum!`. The barrier after it keeps the entry from being broken before. -/
def setEntryDatum (p : Nat) (datum : δ) : M κ δ P Unit := access fun s =>
  if p < s.entries.length then
    some ((), { s with entries := s.entries.modify p fun e => { e with datum := datum } })
  else none

variable (type : TableType κ δ P)

def keyHash (key : κ) (modulus : Nat) : M κ δ P Nat := access fun s =>
  some (type.keyHash s.placement key modulus, s)

/-! ## Resizing -/

def resetShrinkSize (i : Nat) : M κ δ P Unit := do
  let t ← readTable i
  writeTable i fun t' => { t' with shrinkSize := computeShrinkSize t.rehashSize t.growSize }

def resetTable (i : Nat) : M κ δ P Unit := do
  resetShrinkSize i
  let t ← readTable i
  let size := t.rehashThreshold t.growSize
  let primes ← StateT.lift (primesLoop size (size.toNat + 1) (if size < t.primes then 2 else t.primes))
  writeTable i fun t => { t with primes := primes }
  writeTable i fun t => { t with buckets := List.replicate primes [] }

/-- The method `rehash!`, for a number of buckets. An entry that is broken is dropped. -/
def rehashLoop (i buckets : Nat) : List Nat → M κ δ P Unit
  | [] => pure ()
  | p :: entries => do
      match ← entryKeyAndDatum p with
      | some (key, _) => do
          let hash ← keyHash type key buckets
          bucketModify i hash fun chain => p :: chain
      | none => decrementTableCount i
      rehashLoop i buckets entries

def rehash (i : Nat) (entries : List Nat) : M κ δ P Unit := do
  let t ← readTable i
  rehashLoop type i t.buckets.length entries

/-- The loop of `new-size!` over the old buckets. -/
def rehashBuckets (i : Nat) : List (List Nat) → M κ δ P Unit
  | [] => pure ()
  | entries :: oldBuckets => do
      rehash type i entries
      rehashBuckets i oldBuckets

/-- `new-size!`, with what `maybe-shrink-table!` does in the end. -/
def newSizeThen (maybeShrinkTable : M κ δ P Unit) (i : Nat) (size : Int) : M κ δ P Unit := do
  writeTable i fun t => { t with growSize := size }
  let t ← readTable i
  resetTable i
  setTableNeedsRehash i false
  rehashBuckets type i t.buckets
  maybeShrinkTable

def maybeShrinkTable (i : Nat) : Nat → M κ δ P Unit
  | 0 => fun _ => none
  | fuel + 1 => do
      let t ← readTable i
      if t.count < t.shrinkSize ∧ t.initialSizeInEffect = false then
        let size ← StateT.lift (shrinkLoop t.rehashSize t.count (t.growSize.toNat + 1) t.growSize)
        newSizeThen type (maybeShrinkTable i fuel) i size
      else pure ()

/-- `maybe-shrink-table!` has no more turns than there are smaller sizes. -/
def maybeShrink (i : Nat) : M κ δ P Unit := fun s =>
  maybeShrinkTable type i (((s.tables[i]?).map fun t => t.growSize.toNat + 1).getD 0) s

def newSize (i : Nat) (size : Int) : M κ δ P Unit := newSizeThen type (maybeShrink type i) i size

def maybeGrowTable (i : Nat) : M κ δ P Unit := do
  let t ← readTable i
  if t.growSize < t.count then do
    let size ← StateT.lift
      (growLoop t.rehashSize t.count ((t.count - t.growSize).toNat + 1) t.growSize)
    newSize type i size
    writeTable i fun t => { t with initialSizeInEffect := false }
  else pure ()

/-- The loop of `extract-table-entries!` over the buckets from an index on, of which there are some
left. -/
def extractLoop (i : Nat) : Nat → Nat → List Nat → M κ δ P (List Nat)
  | 0, _, entries => pure entries
  | left + 1, k, entries => do
      let p ← bucketRef i k
      bucketModify i k fun _ => []
      extractLoop i left (k + 1) (p ++ entries)

def extractTableEntries (i : Nat) : M κ δ P (List Nat) := do
  let t ← readTable i
  extractLoop i t.buckets.length 0 []

def rehashTable (i : Nat) : M κ δ P Unit := do
  let entries ← extractTableEntries i
  setTableNeedsRehash i false
  rehash type i entries
  maybeShrink type i

/-- `compute-address-hash` tries again after each collection. -/
def computeAddressHash (i : Nat) (key : κ) : Nat → M κ δ P Nat
  | 0 => fun _ => none
  | fuel + 1 => do
      let t ← readTable i
      let hash ← keyHash type key t.buckets.length
      if ← tableNeedsRehash i then
        rehashTable type i
        computeAddressHash i key fuel
      else pure hash

def computeNonAddressHash (i : Nat) (key : κ) : M κ δ P Nat := do
  let t ← readTable i
  keyHash type key t.buckets.length

def computeHash (i : Nat) (key : κ) : M κ δ P Nat :=
  if type.rehashAfterGc then
    fun s => computeAddressHash type i key (s.schedule.length + 2) s
  else computeNonAddressHash type i key

/-! ## Methods -/

/-- The loop of a method along a chain: the first entry with the key, and its datum. -/
def findLoop (key : κ) : List Nat → M κ δ P (Option (Nat × δ))
  | [] => pure none
  | p :: chain => do
      match ← entryKeyAndDatum p with
      | some (key', datum) => if type.keyEq key' key then pure (some (p, datum)) else findLoop key chain
      | none => findLoop key chain

/-- The loops of the methods start at the bucket that the key hashes to. -/
def find (i : Nat) (key : κ) : M κ δ P (Nat × Option (Nat × δ)) := do
  let hash ← computeHash type i key
  let chain ← bucketRef i hash
  let found ← findLoop type key chain
  pure (hash, found)

/-- A new entry at the end of a chain. -/
def addEntry (i hash : Nat) (key : κ) (datum : δ) : M κ δ P Unit := do
  let r ← makeEntry key datum
  bucketModify i hash fun chain => chain ++ [r]
  incrementTableCount i
  maybeGrowTable type i

/-- `hash-table-ref`, where nothing stands for the call of `get-default`. -/
def hashTableRef (i : Nat) (key : κ) : M κ δ P (Option δ) := do
  let (_, found) ← find type i key
  pure (found.map Prod.snd)

def hashTableSet (i : Nat) (key : κ) (datum : δ) : M κ δ P Unit := do
  match ← find type i key with
  | (_, some (p, _)) => setEntryDatum p datum
  | (hash, none) => addEntry type i hash key datum

def hashTableDelete (i : Nat) (key : κ) : M κ δ P Unit := do
  match ← find type i key with
  | (hash, some (p, _)) => do
      bucketModify i hash fun chain => chain.erase p
      decrementTableCount i
      maybeShrink type i
  | (_, none) => pure ()

/-- The grow size is the minimum one again, unless the initial size is in effect. -/
def resetGrowSize (i : Nat) (initialSizeInEffect : Bool) : M κ δ P Unit :=
  if initialSizeInEffect then pure () else writeTable i fun t => { t with growSize := minimumSize }

def hashTableClear (i : Nat) : M κ δ P Unit := do
  let t ← readTable i
  resetGrowSize i t.initialSizeInEffect
  writeTable i fun t => { t with count := 0 }
  resetTable i

/-- A change that a procedure makes. -/
inductive Change (κ δ : Type) where
  | set (key : κ) (datum : δ)
  | delete (key : κ)
  | clear

def performChange (i : Nat) : Change κ δ → M κ δ P Unit
  | .set key datum => hashTableSet type i key datum
  | .delete key => hashTableDelete type i key
  | .clear => hashTableClear i

def performChanges (i : Nat) : List (Change κ δ) → M κ δ P Unit
  | [] => pure ()
  | change :: changes => do
      performChange type i change
      performChanges i changes

/-- A procedure: the changes that it makes to the table when it is applied to a datum, and what it
returns. -/
abbrev Procedure (κ δ : Type) := δ → List (Change κ δ) × δ

/-- A procedure is applied. -/
def applyProcedure (i : Nat) (procedure : Procedure κ δ) (datum : δ) : M κ δ P δ := do
  performChanges type i (procedure datum).1
  pure (procedure datum).2

/-- The part of `modify!` after an entry has been found. -/
def modifyEntry (i : Nat) (procedure : Procedure κ δ) (p : Nat) (datum : δ) : M κ δ P δ := do
  let datum' ← applyProcedure type i procedure datum
  setEntryDatum p datum'
  pure datum'

/-- `hash-table/modify!`. After the procedure has been applied to the default it starts again. -/
def hashTableModify (i : Nat) (key : κ) (default : δ) (procedure : Procedure κ δ) : M κ δ P δ := do
  match ← find type i key with
  | (_, some (p, datum)) => modifyEntry type i procedure p datum
  | (_, none) => do
      let value ← applyProcedure type i procedure default
      match ← find type i key with
      | (_, some (p, datum)) => modifyEntry type i procedure p datum
      | (hash, none) => do
          addEntry type i hash key value
          pure value

/-- `hash-table-update!`, where `get-default` returns a value. It returns the value that is set. -/
def hashTableUpdate (i : Nat) (key : κ) (default : δ) (procedure : Procedure κ δ) : M κ δ P δ := do
  let datum ← hashTableRef type i key
  let value ← applyProcedure type i procedure (datum.getD default)
  hashTableSet type i key value
  pure value

/-- The method `clean!` along a chain. -/
def cleanLoop (i k : Nat) : List Nat → M κ δ P Unit
  | [] => pure ()
  | p :: chain => do
      let e ← entryRef p
      if type.entryValid e then pure ()
      else do
        decrementTableCount i
        bucketModify i k fun chain => chain.erase p
      cleanLoop i k chain

/-- The method `clean!` over the buckets from an index on. -/
def cleanBuckets (i : Nat) : Nat → Nat → M κ δ P Unit
  | 0, _ => pure ()
  | left + 1, k => do
      let chain ← bucketRef i k
      cleanLoop type i k chain
      cleanBuckets i left (k + 1)

/-- The method `clean!`, or `no-clean!`. -/
def clean (i : Nat) : M κ δ P Unit :=
  if type.cleans then do
    let t ← readTable i
    cleanBuckets type i t.buckets.length 0
  else pure ()

def hashTableClean (i : Nat) : M κ δ P Unit := do
  clean type i
  maybeShrink type i

/-- `hash-table-count` rehashes the table if it has to. -/
def hashTableCount (i : Nat) : Nat → M κ δ P Int
  | 0 => fun _ => none
  | fuel + 1 => do
      let t ← readTable i
      if ← tableNeedsRehash i then
        rehashTable type i
        hashTableCount i fuel
      else pure t.count

def setHashTableRehashThreshold (i : Nat) (threshold : Int → Int) : M κ δ P Unit := do
  writeTable i fun t => { t with rehashThreshold := threshold }
  let t ← readTable i
  newSize type i t.growSize

def setHashTableRehashSize (i : Nat) (size : RehashSize) : M κ δ P Unit := do
  writeTable i fun t => { t with rehashSize := size }
  resetShrinkSize i
  maybeShrink type i

/-! ## Making tables -/

def makeTable : M κ δ P Nat := access fun s =>
  some (s.tables.length, { s with
    tables := s.tables ++ [⟨id, defaultRehashSize, 0, minimumSize, 0, [], 2, false⟩]
    needsRehash := Function.update s.needsRehash s.tables.length false })

def recordAddressHashTable (i : Nat) : M κ δ P Unit := access fun s =>
  some ((), { s with recorded := i :: s.recorded })

def recordIfAddressHash (i : Nat) : M κ δ P Unit :=
  if type.rehashAfterGc then recordAddressHashTable i else pure ()

def setInitialSize (i : Nat) : Option Nat → M κ δ P Unit
  | none => pure ()
  | some initialSize =>
      if minimumSize < initialSize then do
        writeTable i fun t => { t with growSize := initialSize }
        writeTable i fun t => { t with initialSizeInEffect := true }
      else pure ()

def makeHashTable (initialSize : Option Nat) : M κ δ P Unit := do
  let i ← makeTable
  setInitialSize i initialSize
  resetTable i
  recordIfAddressHash type i

def copyTable (i : Nat) : M κ δ P Nat := access fun s => do
  let t ← s.tables[i]?
  some (s.tables.length, { s with
    tables := s.tables ++ [t]
    needsRehash := Function.update s.needsRehash s.tables.length (s.needsRehash i) })

/-- The method `copy-bucket`. What is broken is not copied. -/
def copyBucket : List Nat → M κ δ P (List Nat)
  | [] => pure []
  | p :: chain => do
      match ← entryKeyAndDatum p with
      | some (key, datum) => do
          let p' ← makeEntry key datum
          let chain' ← copyBucket chain
          pure (p' :: chain')
      | none => copyBucket chain

/-- `(vector-map copy-bucket buckets)` -/
def copyBuckets : List (List Nat) → M κ δ P (List (List Nat))
  | [] => pure []
  | chain :: buckets => do
      let chain' ← copyBucket chain
      let buckets' ← copyBuckets buckets
      pure (chain' :: buckets')

def hashTableCopy (i : Nat) : M κ δ P Unit := do
  let j ← copyTable i
  let t ← readTable i
  let buckets ← copyBuckets t.buckets
  writeTable j fun t => { t with buckets := buckets }
  recordIfAddressHash type j

inductive Operation (κ δ : Type) where
  | make (initialSize : Option Nat)
  | set (table : Nat) (key : κ) (datum : δ)
  | ref (table : Nat) (key : κ)
  | modify (table : Nat) (key : κ) (default : δ) (procedure : Procedure κ δ)
  | update (table : Nat) (key : κ) (default : δ) (procedure : Procedure κ δ)
  | delete (table : Nat) (key : κ)
  | clean (table : Nat)
  | clear (table : Nat)
  | count (table : Nat)
  | copy (table : Nat)
  | setRehashThreshold (table : Nat) (threshold : Int → Int)
  | setRehashSize (table : Nat) (size : RehashSize)

/-- A procedure on a table. If there is no such table it signals an error before it does anything. -/
def onTable (i : Nat) (procedure : M κ δ P α) : M κ δ P Unit := fun s =>
  if i < s.tables.length then (procedure s).map fun r => ((), r.2) else some ((), s)

/-- An operation, of which only counts what it leaves. -/
def perform : Operation κ δ → M κ δ P Unit
  | .make initialSize => makeHashTable type initialSize
  | .set i key datum => onTable i (hashTableSet type i key datum)
  | .ref i key => onTable i (hashTableRef type i key)
  | .modify i key default procedure => onTable i (hashTableModify type i key default procedure)
  | .update i key default procedure => onTable i (hashTableUpdate type i key default procedure)
  | .delete i key => onTable i (hashTableDelete type i key)
  | .clean i => onTable i (hashTableClean type i)
  | .clear i => onTable i (hashTableClear i)
  | .count i => onTable i fun s => hashTableCount type i (s.schedule.length + 2) s
  | .copy i => onTable i (hashTableCopy type i)
  | .setRehashThreshold i threshold => onTable i (setHashTableRehashThreshold type i threshold)
  | .setRehashSize i size => onTable i (setHashTableRehashSize type i size)

def performs : List (Operation κ δ) → M κ δ P Unit
  | [] => pure ()
  | operation :: operations => do
      perform type operation
      performs operations

/-- No tables. -/
def start (placement : P) (schedule : List (Option (Collection κ δ P))) : State κ δ P :=
  ⟨[], [], placement, schedule, [], fun _ => false⟩

end MitScheme.WeakHashTable
