import MitScheme.Lib.Programs
import MitScheme.Lib.Chains

/-!
# Hash tables

The strong hash tables of `hashtb.scm`. The pairs of the chains are cells in a heap, each with an entry
as its car, and are linked anew in place. Before each access to the heap, to a table or to the hash of
a key a garbage collection may run, as the schedule has it: it moves the objects, and sets
`needs-rehash?` of the tables that are recorded. Nothing is said of weak entries.
-/

namespace MitScheme.HashTable

open Programs Chains

/-- What a table needs to know about its keys (`hash-table-type`). Where the objects are is a parameter
of the hash function, which is to return an index below the modulus, and the same one for keys that
`key=?` identifies. Without `rehash-after-gc?` it does not depend on where they are. -/
structure TableType (κ P : Type) where
  keyHash : P → κ → Nat → Nat
  keyEq : κ → κ → Bool
  rehashAfterGc : Bool
  keyHash_lt : ∀ p key {modulus}, 0 < modulus → keyHash p key modulus < modulus
  keyEq_refl : ∀ a, keyEq a a = true
  keyEq_symm : ∀ {a b}, keyEq a b = true → keyEq b a = true
  keyEq_trans : ∀ {a b c}, keyEq a b = true → keyEq b c = true → keyEq a c = true
  keyHash_congr : ∀ p {a b} modulus, keyEq a b = true → keyHash p a modulus = keyHash p b modulus
  keyHash_fixed : rehashAfterGc = false → ∀ p p' key modulus,
    keyHash p key modulus = keyHash p' key modulus

def minimumSize : Int := 4

/-- The rehash size is an exact integer, or another real number, of which only counts what
`round->exact` makes of its product with a size and of the quotient. -/
inductive RehashSize where
  | integer (n : Nat) (positive : 0 < n)
  | real (times dividedBy : Int → Int)

/-- `(round->exact (/ n 2.))` -/
def roundHalf (n : Int) : Int := if n % 4 = 3 then (n + 1) / 2 else n / 2

/-- `2.` -/
def defaultRehashSize : RehashSize := .real (2 * ·) roundHalf

def incrementSize (rehashSize : RehashSize) (size : Int) : Int :=
  match rehashSize with
  | .integer n _ => size + n
  | .real times _ => if size < times size then times size else size + 1

def decrementSize (rehashSize : RehashSize) (size : Int) : Int :=
  match rehashSize with
  | .integer n _ => size - n
  | .real _ dividedBy => if dividedBy size < size then dividedBy size else size - 1

def computeShrinkSize (rehashSize : RehashSize) (size : Int) : Int :=
  if size ≤ minimumSize then 0
  else max 0 (decrementSize rehashSize (decrementSize rehashSize size))

/-- The loop of `maybe-grow-table!`. -/
def growLoop (rehashSize : RehashSize) (count : Int) : Nat → Int → Option Int
  | 0, _ => none
  | fuel + 1, size =>
      if size < count then growLoop rehashSize count fuel (incrementSize rehashSize size)
      else some size

/-- The loop of `maybe-shrink-table!`. -/
def shrinkLoop (rehashSize : RehashSize) (count : Int) : Nat → Int → Option Int
  | 0, _ => none
  | fuel + 1, size =>
      if size ≤ minimumSize then some minimumSize
      else if count < computeShrinkSize rehashSize size then
        shrinkLoop rehashSize count fuel (decrementSize rehashSize size)
      else some size

def isPrime (n : Nat) : Bool := 2 ≤ n && (List.range n).all fun d => d < 2 || n % d != 0

/-- The next element of `prime-numbers-stream`, which is not above the double. -/
def nextPrime (p : Nat) : Nat := ((List.range' (p + 1) p).find? isPrime).getD (p + 1)

/-- The loop of `reset-table!`. A stream of primes is known by its first element. -/
def primesLoop (size : Int) : Nat → Nat → Option Nat
  | 0, _ => none
  | fuel + 1, primes =>
      if size ≤ primes then some primes else primesLoop size fuel (nextPrime primes)

/-! ## The state -/

/-- A table, without the flag `needs-rehash?`. Of the rehash threshold only counts what
`round->exact` makes of the quotient of a size and it. -/
structure Table where
  rehashThreshold : Int → Int
  rehashSize : RehashSize
  count : Int
  growSize : Int
  shrinkSize : Int
  buckets : List Link
  primes : Nat
  initialSizeInEffect : Bool

/-- Where the objects are, the collections to come, `address-hash-tables`, and `needs-rehash?` of each
table. The schedule says for each access if a collection runs before it, and where the objects are
then. -/
structure Collector (P : Type) where
  placement : P
  schedule : List (Option P)
  recorded : List Nat
  needsRehash : Nat → Bool

/-- A garbage collection, if there is to be one now, with `mark-address-hash-tables!`. -/
def Collector.collect {P : Type} (gc : Collector P) : Collector P :=
  match gc.schedule with
  | [] => gc
  | none :: rest => { gc with schedule := rest }
  | some placement :: rest =>
      { gc with
        placement := placement
        schedule := rest
        needsRehash := fun i => gc.recorded.contains i || gc.needsRehash i }

/-- The pairs of the chains, the first address that has not been given out, and the tables, which are
numbered as they are made. -/
structure State (κ δ P : Type) where
  pairs : Cells (κ × δ)
  next : Nat
  tables : List Table
  gc : Collector P

abbrev M (κ δ P α : Type) := Program (State κ δ P) α

variable {κ δ P α : Type}

/-- An access, before which a collection may run. -/
def access (f : State κ δ P → Option (α × State κ δ P)) : M κ δ P α := fun s =>
  f { s with gc := s.gc.collect }

/-- A chain is no longer than the number of pairs that were made. -/
def withPairs (loop : Nat → M κ δ P α) : M κ δ P α := fun s => loop (s.next + 1) s

def readTable (i : Nat) : M κ δ P Table := access fun s => (s.tables[i]?).map (·, s)

def writeTable (i : Nat) (f : Table → Table) : M κ δ P Unit := access fun s =>
  if i < s.tables.length then some ((), { s with tables := s.tables.modify i f }) else none

def tableNeedsRehash (i : Nat) : M κ δ P Bool := access fun s => some (s.gc.needsRehash i, s)

def Collector.setNeedsRehash (gc : Collector P) (i : Nat) (flag : Bool) : Collector P :=
  { gc with needsRehash := Function.update gc.needsRehash i flag }

def setTableNeedsRehash (i : Nat) (flag : Bool) : M κ δ P Unit := access fun s =>
  some ((), { s with gc := s.gc.setNeedsRehash i flag })

/-- `(vector-ref (table-buckets table) hash)` -/
def bucketRef (i hash : Nat) : M κ δ P Link := access fun s => do
  let t ← s.tables[i]?
  let p ← t.buckets[hash]?
  some (p, s)

/-- `(vector-set! (table-buckets table) hash p)` -/
def bucketSet (i hash : Nat) (p : Link) : M κ δ P Unit := access fun s => do
  let t ← s.tables[i]?
  if hash < t.buckets.length then
    some ((), { s with
      tables := s.tables.modify i fun t => { t with buckets := t.buckets.set hash p } })
  else none

def incrementTableCount (i : Nat) : M κ δ P Unit :=
  writeTable i fun t => { t with count := t.count + 1 }

def decrementTableCount (i : Nat) : M κ δ P Unit :=
  writeTable i fun t => { t with count := t.count - 1 }

/-- A new pair with a new entry, and nothing after it. -/
def consEntry (key : κ) (datum : δ) : M κ δ P Nat := access fun s =>
  some (s.next, { s with
    pairs := Function.update s.pairs s.next (some ((key, datum), none))
    next := s.next + 1 })

/-- The entry and the cdr of a pair. -/
def pairRef (p : Nat) : M κ δ P ((κ × δ) × Link) := access fun s => (s.pairs p).map (·, s)

def setCdr (p : Nat) (l : Link) : M κ δ P Unit := access fun s =>
  (s.pairs p).map fun cell => ((), { s with pairs := Function.update s.pairs p (some (cell.1, l)) })

def setEntryDatum (p : Nat) (datum : δ) : M κ δ P Unit := access fun s =>
  (s.pairs p).map fun cell =>
    ((), { s with pairs := Function.update s.pairs p (some ((cell.1.1, datum), cell.2)) })

variable (type : TableType κ P)

def keyHash (key : κ) (modulus : Nat) : M κ δ P Nat := access fun s =>
  some (type.keyHash s.gc.placement key modulus, s)

/-! ## Resizing -/

def resetShrinkSize (i : Nat) : M κ δ P Unit := do
  let t ← readTable i
  writeTable i fun t' => { t' with shrinkSize := computeShrinkSize t.rehashSize t.growSize }

def resetTable (i : Nat) : M κ δ P Unit := do
  resetShrinkSize i
  let t ← readTable i
  let size := t.rehashThreshold t.growSize
  let primes ← StateT.lift (primesLoop size (size.toNat + 1) (if size < t.primes then 2 else t.primes))
  writeTable i fun t => { t with primes := primes }
  writeTable i fun t => { t with buckets := List.replicate primes none }

/-- The method `rehash!`, for a number of buckets. -/
def rehashLoop (i buckets : Nat) : Nat → Link → M κ δ P Unit
  | 0, _ => fun _ => none
  | _ + 1, none => pure ()
  | fuel + 1, some p => do
      let (entry, q) ← pairRef p
      let hash ← keyHash type entry.1 buckets
      let chain ← bucketRef i hash
      setCdr p chain
      bucketSet i hash (some p)
      rehashLoop i buckets fuel q

def rehash (i : Nat) (entries : Link) : M κ δ P Unit := do
  let t ← readTable i
  withPairs fun fuel => rehashLoop type i t.buckets.length fuel entries

/-- The loop of `new-size!` over the old buckets. -/
def rehashBuckets (i : Nat) : List Link → M κ δ P Unit
  | [] => pure ()
  | p :: oldBuckets => do
      rehash type i p
      rehashBuckets i oldBuckets

/-- `new-size!`, with what `maybe-shrink-table!` does in the end. -/
def newSizeThen (maybeShrinkTable : M κ δ P Unit) (i : Nat) (size : Int) : M κ δ P Unit := do
  writeTable i fun t => { t with growSize := size }
  let t ← readTable i
  resetTable i
  setTableNeedsRehash i false
  rehashBuckets type i t.buckets
  maybeShrinkTable

def maybeShrinkTable (i : Nat) : Nat → M κ δ P Unit
  | 0 => fun _ => none
  | fuel + 1 => do
      let t ← readTable i
      if t.count < t.shrinkSize ∧ t.initialSizeInEffect = false then
        let size ← StateT.lift (shrinkLoop t.rehashSize t.count (t.growSize.toNat + 1) t.growSize)
        newSizeThen type (maybeShrinkTable i fuel) i size
      else pure ()

/-- `maybe-shrink-table!` has no more turns than there are smaller sizes. -/
def maybeShrink (i : Nat) : M κ δ P Unit := fun s =>
  maybeShrinkTable type i (((s.tables[i]?).map fun t => t.growSize.toNat + 1).getD 0) s

def newSize (i : Nat) (size : Int) : M κ δ P Unit := newSizeThen type (maybeShrink type i) i size

def maybeGrowTable (i : Nat) : M κ δ P Unit := do
  let t ← readTable i
  if t.growSize < t.count then do
    let size ← StateT.lift
      (growLoop t.rehashSize t.count ((t.count - t.growSize).toNat + 1) t.growSize)
    newSize type i size
    writeTable i fun t => { t with initialSizeInEffect := false }
  else pure ()

/-- The walk of `append!` to the last pair. -/
def appendLoop (entries : Link) : Nat → Nat → M κ δ P Unit
  | 0, _ => fun _ => none
  | fuel + 1, p => do
      let (_, next) ← pairRef p
      match next with
      | none => setCdr p entries
      | some q => appendLoop entries fuel q

def append (p entries : Link) : M κ δ P Link :=
  match p with
  | none => pure entries
  | some a => do
      withPairs fun fuel => appendLoop entries fuel a
      pure p

/-- The loop of `extract-table-entries!` over the buckets from an index on, of which there are some
left. -/
def extractLoop (i : Nat) : Nat → Nat → Link → M κ δ P Link
  | 0, _, entries => pure entries
  | left + 1, k, entries => do
      let p ← bucketRef i k
      bucketSet i k none
      let entries ← append p entries
      extractLoop i left (k + 1) entries

def extractTableEntries (i : Nat) : M κ δ P Link := do
  let t ← readTable i
  extractLoop i t.buckets.length 0 none

def rehashTable (i : Nat) : M κ δ P Unit := do
  let entries ← extractTableEntries i
  setTableNeedsRehash i false
  rehash type i entries
  maybeShrink type i

/-- `compute-address-hash` tries again after each collection. -/
def computeAddressHash (i : Nat) (key : κ) : Nat → M κ δ P Nat
  | 0 => fun _ => none
  | fuel + 1 => do
      let t ← readTable i
      let hash ← keyHash type key t.buckets.length
      if ← tableNeedsRehash i then
        rehashTable type i
        computeAddressHash i key fuel
      else pure hash

def computeNonAddressHash (i : Nat) (key : κ) : M κ δ P Nat := do
  let t ← readTable i
  keyHash type key t.buckets.length

def computeHash (i : Nat) (key : κ) : M κ δ P Nat :=
  if type.rehashAfterGc then
    fun s => computeAddressHash type i key (s.gc.schedule.length + 2) s
  else computeNonAddressHash type i key

/-! ## Methods -/

/-- The loop of the method `get`, which returns nothing where there is no entry. -/
def getLoop (key : κ) : Nat → Link → M κ δ P (Option δ)
  | 0, _ => fun _ => none
  | _ + 1, none => pure none
  | fuel + 1, some p => do
      let (entry, next) ← pairRef p
      if type.keyEq entry.1 key then pure (some entry.2) else getLoop key fuel next

/-- `hash-table-ref`, where nothing stands for the call of `get-default`. -/
def hashTableRef (i : Nat) (key : κ) : M κ δ P (Option δ) := do
  let hash ← computeHash type i key
  let p ← bucketRef i hash
  withPairs fun fuel => getLoop type key fuel p

/-- The end of a chain, or the bucket, is linked to a pair. -/
def linkAfter (i hash : Nat) (q : Link) (l : Link) : M κ δ P Unit :=
  match q with
  | some q => setCdr q l
  | none => bucketSet i hash l

/-- The loop of the method `put!`. -/
def putLoop (i hash : Nat) (key : κ) (datum : δ) : Nat → Link → Link → M κ δ P Unit
  | 0, _, _ => fun _ => none
  | _ + 1, none, q => do
      let r ← consEntry key datum
      linkAfter i hash q (some r)
      incrementTableCount i
      maybeGrowTable type i
  | fuel + 1, some p, q => do
      let (entry, next) ← pairRef p
      if type.keyEq entry.1 key then setEntryDatum p datum
      else putLoop i hash key datum fuel next (some p)

def hashTableSet (i : Nat) (key : κ) (datum : δ) : M κ δ P Unit := do
  let hash ← computeHash type i key
  let p ← bucketRef i hash
  withPairs fun fuel => putLoop type i hash key datum fuel p none

/-- The loop of the method `remove!`. -/
def removeLoop (i hash : Nat) (key : κ) : Nat → Link → Link → M κ δ P Unit
  | 0, _, _ => fun _ => none
  | _ + 1, none, _ => pure ()
  | fuel + 1, some p, q => do
      let (entry, next) ← pairRef p
      if type.keyEq entry.1 key then do
        linkAfter i hash q next
        decrementTableCount i
        maybeShrink type i
      else removeLoop i hash key fuel next (some p)

def hashTableDelete (i : Nat) (key : κ) : M κ δ P Unit := do
  let hash ← computeHash type i key
  let p ← bucketRef i hash
  withPairs fun fuel => removeLoop type i hash key fuel p none

/-- `hash-table-clean!`, where the method `clean!` has nothing to do. -/
def hashTableClean (i : Nat) : M κ δ P Unit := maybeShrink type i

/-- The grow size is the minimum one again, unless the initial size is in effect. -/
def resetGrowSize (i : Nat) (initialSizeInEffect : Bool) : M κ δ P Unit :=
  if initialSizeInEffect then pure () else writeTable i fun t => { t with growSize := minimumSize }

def hashTableClear (i : Nat) : M κ δ P Unit := do
  let t ← readTable i
  resetGrowSize i t.initialSizeInEffect
  writeTable i fun t => { t with count := 0 }
  resetTable i

def setHashTableRehashThreshold (i : Nat) (threshold : Int → Int) : M κ δ P Unit := do
  writeTable i fun t => { t with rehashThreshold := threshold }
  let t ← readTable i
  newSize type i t.growSize

def setHashTableRehashSize (i : Nat) (size : RehashSize) : M κ δ P Unit := do
  writeTable i fun t => { t with rehashSize := size }
  resetShrinkSize i
  maybeShrink type i

/-! ## Making tables -/

def makeTable : M κ δ P Nat := access fun s =>
  some (s.tables.length, { s with
    tables := s.tables ++ [⟨id, defaultRehashSize, 0, minimumSize, 0, [], 2, false⟩]
    gc := s.gc.setNeedsRehash s.tables.length false })

def recordAddressHashTable (i : Nat) : M κ δ P Unit := access fun s =>
  some ((), { s with gc := { s.gc with recorded := i :: s.gc.recorded } })

def recordIfAddressHash (i : Nat) : M κ δ P Unit :=
  if type.rehashAfterGc then recordAddressHashTable i else pure ()

def setInitialSize (i : Nat) : Option Nat → M κ δ P Unit
  | none => pure ()
  | some initialSize =>
      if minimumSize < initialSize then do
        writeTable i fun t => { t with growSize := initialSize }
        writeTable i fun t => { t with initialSizeInEffect := true }
      else pure ()

def makeHashTable (initialSize : Option Nat) : M κ δ P Unit := do
  let i ← makeTable
  setInitialSize i initialSize
  resetTable i
  recordIfAddressHash type i

def copyTable (i : Nat) : M κ δ P Nat := access fun s => do
  let t ← s.tables[i]?
  some (s.tables.length, { s with
    tables := s.tables ++ [t]
    gc := s.gc.setNeedsRehash s.tables.length (s.gc.needsRehash i) })

/-- The inner loop of the method `copy-bucket`. -/
def copyLoop : Nat → Link → Nat → M κ δ P Unit
  | 0, _, _ => fun _ => none
  | _ + 1, none, _ => pure ()
  | fuel + 1, some p, previous => do
      let (entry, next) ← pairRef p
      let p' ← consEntry entry.1 entry.2
      setCdr previous (some p')
      copyLoop fuel next p'

/-- The method `copy-bucket`. -/
def copyBucket : Link → M κ δ P Link
  | none => pure none
  | some p => do
      let (entry, next) ← pairRef p
      let head ← consEntry entry.1 entry.2
      withPairs fun fuel => copyLoop fuel next head
      pure (some head)

/-- `(vector-map copy-bucket buckets)` -/
def copyBuckets : List Link → M κ δ P (List Link)
  | [] => pure []
  | p :: buckets => do
      let p' ← copyBucket p
      let buckets' ← copyBuckets buckets
      pure (p' :: buckets')

/-- `hash-table-copy` from `copy-table` on, up to the recording of the copy. -/
def fillCopy (i j : Nat) : M κ δ P Unit := do
  let t ← readTable i
  let buckets ← copyBuckets t.buckets
  writeTable j fun t => { t with buckets := buckets }

def hashTableCopy (i : Nat) : M κ δ P Unit := do
  let j ← copyTable i
  fillCopy i j
  recordIfAddressHash type j

inductive Operation (κ δ : Type) where
  | make (initialSize : Option Nat)
  | set (table : Nat) (key : κ) (datum : δ)
  | delete (table : Nat) (key : κ)
  | ref (table : Nat) (key : κ)
  | clear (table : Nat)
  | clean (table : Nat)
  | copy (table : Nat)
  | setRehashThreshold (table : Nat) (threshold : Int → Int)
  | setRehashSize (table : Nat) (size : RehashSize)

/-- A procedure on a table. If there is no such table it signals an error before it does anything. -/
def onTable (i : Nat) (procedure : M κ δ P α) : M κ δ P (Option α) := fun s =>
  if i < s.tables.length then (procedure.map some) s else some (none, s)

/-- An operation, with the answer of a lookup. -/
def perform : Operation κ δ → M κ δ P (Option (Option δ))
  | .make initialSize => do
      makeHashTable type initialSize
      pure none
  | .set i key datum => do
      let _ ← onTable i (hashTableSet type i key datum)
      pure none
  | .delete i key => do
      let _ ← onTable i (hashTableDelete type i key)
      pure none
  | .ref i key => onTable i (hashTableRef type i key)
  | .clear i => do
      let _ ← onTable i (hashTableClear i)
      pure none
  | .clean i => do
      let _ ← onTable i (hashTableClean type i)
      pure none
  | .copy i => do
      let _ ← onTable i (hashTableCopy type i)
      pure none
  | .setRehashThreshold i threshold => do
      let _ ← onTable i (setHashTableRehashThreshold type i threshold)
      pure none
  | .setRehashSize i size => do
      let _ ← onTable i (setHashTableRehashSize type i size)
      pure none

/-- The operations, one after the other, with their answers. -/
def performAll : List (Operation κ δ) → M κ δ P (List (Option (Option δ)))
  | [] => pure []
  | operation :: operations => do
      let answer ← perform type operation
      let answers ← performAll operations
      pure (answer :: answers)

/-- No tables. -/
def start (placement : P) (schedule : List (Option P)) : State κ δ P :=
  ⟨fun _ => none, 0, [], ⟨placement, schedule, [], fun _ => false⟩⟩

end MitScheme.HashTable
