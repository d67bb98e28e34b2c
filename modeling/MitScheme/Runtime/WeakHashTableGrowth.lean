import MitScheme.Lib.Runs
import MitScheme.Runtime.WeakHashTableRuns

/-!
# Growth of a table over runs

The count of a table stays within its grow size and above its shrink size. Growing out of the initial size is the one
step after which `maybe-shrink-table!` does not look at the table, which matters when entries are broken.
-/

namespace MitScheme.WeakHashTable

open Programs Runs
open HashTable (RehashSize growLoop shrinkLoop growLoop_returns shrinkLoop_returns)

variable {κ δ P : Type} {type : TableType κ δ P} {i : Nat} {s s' : State κ δ P} {t : Table}

/-- What is done to a table. -/
inductive Action (κ δ : Type) where
  | set (key : κ) (datum : δ)
  | delete (key : κ)
  | setRehashSize (size : RehashSize)
  | setRehashThreshold (threshold : Int → Int)

def performAction (type : TableType κ δ P) (i : Nat) : Action κ δ → M κ δ P Unit
  | .set key datum => hashTableSet type i key datum
  | .delete key => hashTableDelete type i key
  | .setRehashSize size => setHashTableRehashSize type i size
  | .setRehashThreshold threshold => setHashTableRehashThreshold type i threshold

/-- One action, with the collections that may run meanwhile. -/
def act (type : TableType κ δ P) (i : Nat) (s : State κ δ P) (a : List (Option (Collection κ δ P)) × Action κ δ) :
    Option (State κ δ P) :=
  (performAction type i a.2 { s with schedule := a.1 }).map Prod.snd

/-- The actions after which the sizes are right: a rehash size is one that is accepted, and when an entry is put into a
table that is full with its initial size in effect, no entry of the table is or gets broken. -/
def Allowed (i : Nat) (s : State κ δ P) (a : List (Option (Collection κ δ P)) × Action κ δ) : Prop :=
  match a.2 with
  | .set _ _ => ∀ t, s.tables[i]? = some t → t.initialSizeInEffect = true → t.count = t.growSize →
      Unbroken { s with schedule := a.1 } t
  | .setRehashSize size => Accepted size
  | _ => True

/-- A table is as it should be between actions. -/
def Regular (type : TableType κ δ P) (i : Nat) (s : State κ δ P) : Prop :=
  ∃ t, Sound type s i t ∧ Sized t ∧ Accepted t.rehashSize

theorem Sound.reschedule (h : Sound type s i t) (schedule : List (Option (Collection κ δ P))) :
    Sound type { s with schedule } i t :=
  ⟨⟨h.owns.table, h.owns.count, h.owns.nodup, h.owns.bounded, h.owns.positive, h.owns.recorded⟩, h.primes, h.shrink⟩

theorem act_spec (h : Regular type i s) (a : List (Option (Collection κ δ P)) × Action κ δ) :
    ∃ s', act type i s a = some s' ∧ (Allowed i s a → Regular type i s') := by
  obtain ⟨t, hsound, hsized, haccepted⟩ := h
  obtain ⟨schedule, action⟩ := a
  have h := hsound.reschedule schedule
  suffices hreturns : Completes (performAction type i action) { s with schedule } fun _ s' =>
      Allowed i s (schedule, action) → Regular type i s' by
    obtain ⟨u, s', hrun, hregular⟩ := hreturns
    refine ⟨s', ?_, hregular⟩
    rw [act, hrun]
    rfl
  cases action with
  | set key datum =>
      refine Completes.mono (hashTableSet_spec h key datum) fun _ s' hr hallowed => ?_
      obtain ⟨-, t', houtcome, -, hrehash, hsized'⟩ := hr
      refine ⟨t', houtcome.sound, hsized' hsized haccepted fun hinitial hfull => ?_, hrehash ▸ haccepted⟩
      exact hallowed t hsound.owns.table hinitial (le_antisymm hsized.count hfull)
  | delete key =>
      refine Completes.mono (hashTableDelete_spec h key) fun _ s' hr _ => ?_
      obtain ⟨-, t', houtcome, -, hrehash, hsized'⟩ := hr
      exact ⟨t', houtcome.sound, hsized' hsized, hrehash ▸ haccepted⟩
  | setRehashSize size =>
      refine Completes.mono (setHashTableRehashSize_spec h size) fun _ s' hr hallowed => ?_
      obtain ⟨-, t', hr', hrehash, hsized'⟩ := hr
      exact ⟨t', hr'.sound, hsized' hsized, hrehash.symm ▸ hallowed⟩
  | setRehashThreshold threshold =>
      refine Completes.mono (setHashTableRehashThreshold_spec h threshold) fun _ s' hr _ => ?_
      obtain ⟨-, t', hr', hrehash, hsized'⟩ := hr
      exact ⟨t', hr'.sound, hsized' hsized, hrehash ▸ haccepted⟩

theorem makeHashTable_regular {initialSize : Option Nat} (h : makeHashTable type initialSize s = some ((), s')) :
    Regular type s.tables.length s' := by
  have hspec : Completes (makeHashTable type initialSize) s fun _ s' => Made type False s s' ∧ _ :=
    makeHashTable_spec initialSize
  obtain ⟨hmade, hsized⟩ := hspec.of_eq h
  have hlt : s.tables.length < s'.tables.length := by
    rw [hmade.length]
    exact Nat.lt_succ_self _
  have hget := List.getElem?_eq_getElem hlt
  exact ⟨_, (hmade.sound _ hget).1, hsized _ hget⟩

/-- Five entries in a table for five, and then one more. Before it is put there a collection breaks the first five. -/
def fillAndBreak : List (List (Option (Collection Nat Nat (Nat → Nat))) × Action Nat Nat) :=
  [([], .set 1 1), ([], .set 2 2), ([], .set 3 3), ([], .set 4 4), ([], .set 5 5),
    ([none, none, none, none, some ⟨id, fun p _ => p < 5⟩], .set 6 6)]

end MitScheme.WeakHashTable
