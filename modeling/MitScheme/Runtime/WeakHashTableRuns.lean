import MitScheme.Runtime.HashTableRuns
import MitScheme.Runtime.WeakHashTableModify
import Mathlib.Data.List.Nodup

/-!
# Counts of weak tables over runs

After any operations on any number of tables, with collections at any points between the accesses, the
count of each table is the number of the entries in its buckets, if no table is copied that holds a broken
entry: a copy has the count of its original, but no entry for one that is broken.
-/

namespace MitScheme.WeakHashTable

open Programs List
open HashTable (computeShrinkSize minimumSize RehashSize)

variable {κ δ P α : Type} {type : TableType κ δ P} {s s' s'' : State κ δ P} {i j : Nat}
  {t t' : Table} {kept : Prop} {touched : Nat → Prop} {key : κ} {k p : Nat}

/-! ## Cleaning -/

theorem cleanLoop_spec {chain ps : List Nat} (h : Sound type s i t) (hps : t.buckets[k]? = some ps)
    (hchain : ∀ p ∈ chain, p ∈ ps) (hnodup : chain.Nodup) :
    Does i True nothing (cleanLoop type i k chain) s fun _ s' => ∃ t', Outcome type i s t s' t'
      ∧ t'.buckets.length = t.buckets.length := by
  induction chain generalizing s t ps with
  | nil => exact .pure ⟨t, ⟨h, fun _ hp => .inl hp, id⟩, rfl⟩
  | cons p chain ih =>
      obtain ⟨hnot, hnodup⟩ := nodup_cons.mp hnodup
      have hp := hchain p mem_cons_self
      have hmem := mem_cells.mpr ⟨k, ps, hps, hp⟩
      refine Does.bind (entryRef_spec (h.owns.bounded p (mem_append_left _ hmem)))
        fun e s1 hlater1 hr => ?_
      have htable1 : s1.tables[i]? = some t := hr.2 ▸ h.owns.table
      have h1 := h.later hlater1 htable1
      have houtcome1 := (h.reorganized hlater1 htable1).outcome h hlater1
      cases type.entryValid e with
      | true =>
          refine (ih h1 hps (fun q hq => hchain q (mem_cons_of_mem p hq)) hnodup).mono
            fun _ s' _ hr => ?_
          obtain ⟨t', houtcome, hlength⟩ := hr
          exact ⟨t', houtcome1.trans hlater1 houtcome, hlength⟩
      | false =>
          refine Does.bind (writeTable_spec htable1 _) fun _ s2 hlater2 htable2 => ?_
          have hk : k < t.buckets.length := (List.getElem?_eq_some_iff.mp hps).1
          refine Does.bind (bucketModify_spec htable2 hk (·.erase p)) fun _ s3 hlater3 htable3 => ?_
          have hdrop : Outcome type i s1 t s3 (t.drop k p) :=
            h1.drop_outcome hps hp (hlater2.trans hlater3) htable3
          have hps' : (t.drop k p).buckets[k]? = some (ps.erase p) := by
            change (t.buckets.modify k _)[k]? = _
            rw [List.getElem?_modify_eq, hps]
            rfl
          have hchain' : ∀ q ∈ chain, q ∈ ps.erase p := fun q hq =>
            (mem_erase_of_ne fun h : q = p => hnot (h ▸ hq)).mpr (hchain q (mem_cons_of_mem p hq))
          refine (ih hdrop.sound hps' hchain' hnodup).mono fun _ s' _ hr => ?_
          obtain ⟨t', houtcome, hlength⟩ := hr
          have houtcome3 := houtcome1.trans hlater1 hdrop
          exact ⟨t', houtcome3.trans (hlater1.trans (hlater2.trans hlater3)) houtcome,
            hlength.trans (drop_length ..)⟩

theorem cleanBuckets_spec (left k : Nat) (h : Sound type s i t) (hlength : k + left = t.buckets.length) :
    Does i True nothing (cleanBuckets type i left k) s fun _ s' => ∃ t', Outcome type i s t s' t' := by
  induction left generalizing s t k with
  | zero => exact .pure ⟨t, h, fun _ hp => .inl hp, id⟩
  | succ left ih =>
      have hk : k < t.buckets.length := by omega
      have hget := List.getElem?_eq_getElem hk
      refine Does.bind (bucketRef_spec h.owns.table hget) fun chain s1 hlater1 hr => ?_
      obtain ⟨rfl, htables1⟩ := hr
      have htable1 : s1.tables[i]? = some t := htables1 ▸ h.owns.table
      have h1 := h.later hlater1 htable1
      have hnodup : t.buckets[k].Nodup := by
        have := h.owns.nodup
        rw [append_nil, Table.cells, nodup_flatten] at this
        exact this.1 _ (getElem_mem hk)
      refine Does.bind (cleanLoop_spec h1 hget (fun _ hp => hp) hnodup) fun _ s2 hlater2 hr => ?_
      obtain ⟨t2, houtcome2, hlength2⟩ := hr
      refine (ih (k + 1) houtcome2.sound (by omega)).mono fun _ s3 _ hr => ?_
      obtain ⟨t3, houtcome3⟩ := hr
      have houtcome1 := (h.reorganized hlater1 htable1).outcome h hlater1
      exact ⟨t3, (houtcome1.trans hlater1 houtcome2).trans (hlater1.trans hlater2) houtcome3⟩

theorem hashTableClean_spec (h : Sound type s i t) :
    Does i False (fun _ => True) (hashTableClean type i) s fun _ s' => ∃ t', Outcome type i s t s' t' := by
  have hclean : Does i True nothing (clean type i) s fun _ s1 => ∃ t1, Outcome type i s t s1 t1 := by
    rw [clean]
    split
    · refine Does.bind (readTable_spec h.owns.table) fun r s1 hlater1 hr => ?_
      obtain ⟨rfl, htables1, -⟩ := hr
      have htable1 : s1.tables[i]? = some t := htables1 ▸ h.owns.table
      refine (cleanBuckets_spec t.buckets.length 0 (h.later hlater1 htable1) (Nat.zero_add _)).mono
        fun _ s2 _ hr => ?_
      obtain ⟨t2, houtcome2⟩ := hr
      exact ⟨t2, ((h.reorganized hlater1 htable1).outcome h hlater1).trans hlater1 houtcome2⟩
    · exact .pure ⟨t, h, fun _ hp => .inl hp, id⟩
  refine Does.bind hclean.quiet fun _ s1 _ hr => ?_
  obtain ⟨hlater1, t1, houtcome1⟩ := hr
  refine (maybeShrink_spec houtcome1.sound).loosen.mono fun _ s2 _ hr => ?_
  obtain ⟨hlater2, t2, hr2, -⟩ := hr
  exact ⟨t2, houtcome1.trans hlater1 (hr2.outcome houtcome1.sound hlater2)⟩

theorem hashTableCount_spec (fuel : Nat) (h : Sound type s i t) (hfuel : Fueled s i fuel) :
    Does i False nothing (hashTableCount type i fuel) s fun _ s' => ∃ t', Reorganized type i s t s' t' := by
  induction fuel generalizing s t with
  | zero =>
      rw [Fueled] at hfuel
      omega
  | succ fuel ih =>
      refine Does.bind (readTable_spec h.owns.table).quiet fun r s1 _ hr => ?_
      obtain ⟨hlater1, rfl, htables1, hschedule⟩ := hr
      refine Does.bind tableNeedsRehash_spec.quiet fun flag s2 _ hr => ?_
      obtain ⟨hlater2, rfl, htables2⟩ := hr
      have hlater := hlater1.trans hlater2
      have hr2 := h.reorganized hlater (htables2 ▸ htables1 ▸ h.owns.table)
      cases hflag : s2.needsRehash i with
      | false =>
          exact .pure ⟨t, hr2⟩
      | true =>
          refine Does.bind (rehashTable_spec hr2.sound) fun _ s3 hlater3 hr => ?_
          obtain ⟨t3, hr3, -, -, hidle⟩ := hr
          have hfuel3 := hfuel.next hlater (hschedule ▸ hlater2.schedule.length_le) hflag hlater3 hidle
          refine (ih hr3.sound hfuel3).mono fun _ s4 hlater4 hr => ?_
          obtain ⟨t4, hr4⟩ := hr
          exact ⟨t4, (hr2.trans hlater3 hr3).trans hlater4 hr4⟩

theorem setHashTableRehashThreshold_spec (h : Sound type s i t) (threshold : Int → Int) :
    Does i False nothing (setHashTableRehashThreshold type i threshold) s fun _ s' => ∃ t',
      Reorganized type i s t s' t' ∧ t'.rehashSize = t.rehashSize ∧ (Sized t → Sized t') := by
  refine Does.bind (writeTable_spec h.owns.table _).quiet fun _ s1 _ hr => ?_
  obtain ⟨hlater1, htable1⟩ := hr
  refine Does.bind (readTable_spec htable1).quiet fun r s2 _ hr => ?_
  obtain ⟨hlater2, rfl, htables2, -⟩ := hr
  have hlater := hlater1.trans hlater2
  have h2 : Reorganized type i s t s2 { t with rehashThreshold := threshold } :=
    ⟨⟨h.owns.moved hlater (htables2 ▸ htable1) rfl rfl (List.Perm.refl _), h.primes, h.shrink⟩,
      fun _ hp => hp, fun _ hp hlost => absurd hp hlost, fun _ hlaid => hlaid.later h.owns hlater⟩
  refine (newSize_spec h2.sound.owns h2.sound.primes_pos _).mono fun _ s3 hlater3 hr => ?_
  obtain ⟨t3, hr3, -, t1, hregrown, hshrunk⟩ := hr
  exact ⟨t3, h2.trans hlater3 hr3, hshrunk.rehashSize.trans hregrown.rehashSize,
    fun hsized => hshrunk.sized (hregrown.fits hsized.count)⟩

theorem setHashTableRehashSize_spec (h : Sound type s i t) (size : RehashSize) :
    Does i False nothing (setHashTableRehashSize type i size) s fun _ s' => ∃ t',
      Reorganized type i s t s' t' ∧ t'.rehashSize = size ∧ (Sized t → Sized t') := by
  refine Does.bind (writeTable_spec h.owns.table _).quiet fun _ s1 _ hr => ?_
  obtain ⟨hlater1, htable1⟩ := hr
  refine Does.bind (resetShrinkSize_spec htable1).quiet fun _ s2 _ hr => ?_
  obtain ⟨hlater2, htable2⟩ := hr
  have hlater := hlater1.trans hlater2
  have h2 : Reorganized type i s t s2 { t with
      rehashSize := size, shrinkSize := computeShrinkSize size t.growSize } :=
    ⟨⟨h.owns.moved hlater htable2 rfl rfl (List.Perm.refl _), h.primes, rfl⟩,
      fun _ hp => hp, fun _ hp hlost => absurd hp hlost, fun _ hlaid => hlaid.later h.owns hlater⟩
  refine (maybeShrink_spec h2.sound).mono fun _ s3 hlater3 hr => ?_
  obtain ⟨t3, hr3, hshrunk⟩ := hr
  exact ⟨t3, h2.trans hlater3 hr3, hshrunk.rehashSize, fun hsized => hshrunk.sized ⟨hsized.count, hsized.room⟩⟩

/-! ## Other tables -/

/-- A table that is left alone while something is done to another one. -/
structure Apart (s s' : State κ δ P) (j : Nat) : Prop where
  recorded : s.recorded ⊆ s'.recorded
  still : Still s s' j
  table : s'.tables[j]? = s.tables[j]?
  entries : ∀ (p : Nat) e, s.entries[p]? = some e →
    ∃ e', s'.entries[p]? = some e' ∧ e'.key = e.key ∧ (e.broken = true → e'.broken = true)

theorem Apart.trans (h : Apart s s' j) (h' : Apart s' s'' j) : Apart s s'' j := by
  refine ⟨fun _ hmem => h'.recorded (h.recorded hmem), h.still.trans h.recorded h'.still,
    h'.table.trans h.table, fun p e he => ?_⟩
  obtain ⟨e', he', hkey, hbroken⟩ := h.entries p e he
  obtain ⟨e'', he'', hkey', hbroken'⟩ := h'.entries p e' he'
  exact ⟨e'', he'', hkey'.trans hkey, fun hb => hbroken' (hbroken hb)⟩

theorem Later.apart (h : Later i kept touched s s') (hj : j ≠ i) : Apart s s' j := by
  refine ⟨h.subset, h.still j fun h => absurd h hj, h.others j hj,
    fun p e he => ?_⟩
  obtain ⟨e', he', haged⟩ := h.entries p e he
  exact ⟨e', he', haged.key, haged.broken⟩

theorem Apart.sound (h : Apart s s' j) (hsound : Sound type s j t) : Sound type s' j t := by
  refine ⟨⟨h.table.trans hsound.owns.table, hsound.owns.count, hsound.owns.nodup, fun p hp => ?_,
    hsound.owns.positive, fun hrehash => h.recorded (hsound.owns.recorded hrehash)⟩,
    hsound.primes, hsound.shrink⟩
  obtain ⟨e', he', -⟩ := h.entries p _ (List.getElem?_eq_getElem (hsound.owns.bounded p hp))
  exact (List.getElem?_eq_some_iff.mp he').1

theorem Apart.under (h : Apart s s' j) (hp : p < s.entries.length) (hunder : Under type s' key p) :
    Under type s key p := by
  obtain ⟨e', he', hb, hkey⟩ := hunder
  obtain ⟨e1, he1, hkey1, hbroken⟩ := h.entries p _ (List.getElem?_eq_getElem hp)
  rw [he1] at he'
  cases he'
  refine ⟨_, List.getElem?_eq_getElem hp, ?_, hkey1 ▸ hkey⟩
  by_contra hnot
  rw [hbroken (by simpa using hnot)] at hb
  cases hb

theorem Apart.tidy (h : Apart s s' j) (hsound : Sound type s j t) (htidy : Tidy type s j t) :
    Tidy type s' j t := by
  have hbefore : ∀ p ∈ t.cells, ∀ key, Under type s' key p → Under type s key p := fun p hp key =>
    h.under (hsound.owns.bounded p (mem_append_left _ hp))
  refine ⟨fun key hsettled p hp hunder => ?_, fun p hp q hq key hunder hunder' =>
    htidy.lone p hp q hq key (hbefore p hp key hunder) (hbefore q hq key hunder')⟩
  have hlaid := htidy.laid key (fun hrehash => (h.still (hsettled hrehash)).1) p hp
    (hbefore p hp key hunder)
  have hhash : type.keyHash s'.placement key t.buckets.length
      = type.keyHash s.placement key t.buckets.length := by
    cases hrehash : type.rehashAfterGc with
    | true => rw [(h.still (hsettled hrehash)).2 (hsound.owns.recorded hrehash)]
    | false => exact type.keyHash_fixed hrehash _ _ key _
  rwa [hhash]

/-- Each table has the count of its entries. Those that are no copies are tidy. -/
def Counted (type : TableType κ δ P) (tidy : Prop) (s : State κ δ P) : Prop :=
  ∀ (j : Nat) t, s.tables[j]? = some t → Sound type s j t ∧ (tidy → Tidy type s j t)

variable {tidy : Prop}

theorem Counted.update (h : Counted type tidy s) (ht : s.tables[i]? = some t)
    (hlater : Later i kept touched s s') (houtcome : Outcome type i s t s' t') : Counted type tidy s' := by
  intro j u hu
  by_cases hj : j = i
  · subst hj
    rw [houtcome.sound.owns.table] at hu
    cases hu
    exact ⟨houtcome.sound, fun htidy => houtcome.tidy ((h j t ht).2 htidy)⟩
  · have hapart := hlater.apart hj
    obtain ⟨hsound, htidy⟩ := h j u (hapart.table ▸ hu)
    exact ⟨hapart.sound hsound, fun h => hapart.tidy hsound (htidy h)⟩

/-- There is one more table. -/
structure Made (type : TableType κ δ P) (tidy : Prop) (s s' : State κ δ P) : Prop where
  length : s'.tables.length = s.tables.length + 1
  apart : ∀ j, j < s.tables.length → Apart s s' j
  sound : ∀ t, s'.tables[s.tables.length]? = some t → Sound type s' s.tables.length t
    ∧ (tidy → Tidy type s' s.tables.length t)

theorem Counted.made (h : Counted type tidy s) (hmade : Made type tidy s s') : Counted type tidy s' := by
  intro j u hu
  have hj : j < s'.tables.length := (List.getElem?_eq_some_iff.mp hu).1
  rw [hmade.length] at hj
  rcases Nat.lt_succ_iff_lt_or_eq.mp hj with hlt | rfl
  · have hapart := hmade.apart j hlt
    obtain ⟨hsound, htidy⟩ := h j u (hapart.table ▸ hu)
    exact ⟨hapart.sound hsound, fun h => hapart.tidy hsound (htidy h)⟩
  · exact hmade.sound u hu

/-! ## Making tables -/

/-- A table is added, with its flag. -/
def State.push (s : State κ δ P) (t : Table) (flag : Bool) : State κ δ P :=
  { s with tables := s.tables ++ [t], needsRehash := Function.update s.needsRehash s.tables.length flag }

theorem push_get (s : State κ δ P) (t : Table) (flag : Bool) :
    (s.push t flag).tables[s.tables.length]? = some t := List.getElem?_concat_length ..

theorem apart_push (s : State κ δ P) (t : Table) (flag : Bool) (hj : j < s.tables.length) :
    Apart s (s.collect.push t flag) j := by
  have hcollect : Later s.tables.length True nothing s s.collect := .collect s
  have hne : j ≠ s.collect.tables.length := by
    rw [collect_tables]
    exact Nat.ne_of_lt hj
  refine (hcollect.apart (Nat.ne_of_lt hj)).trans ⟨List.Subset.refl _, fun hflag => ⟨?_, fun _ => rfl⟩,
    List.getElem?_append_left (by rw [collect_tables]; exact hj), fun p e he => ⟨e, he, rfl, id⟩⟩
  exact (Function.update_of_ne hne _ _).symm.trans hflag

theorem recordIfAddressHash_spec (i : Nat) :
    Completes (recordIfAddressHash type i) s fun _ s' => (∀ j, Apart s s' j) ∧ s'.tables = s.tables
      ∧ (type.rehashAfterGc = true → i ∈ s'.recorded) := by
  rw [recordIfAddressHash]
  cases hrehash : type.rehashAfterGc with
  | true =>
      refine ⟨(), _, rfl, fun j => ?_, collect_tables s, fun _ => mem_cons_self⟩
      have hcollect : Later (j + 1) True nothing s s.collect := .collect s
      refine (hcollect.apart (Nat.ne_of_lt (Nat.lt_succ_self j))).trans
        ⟨subset_cons_self _ _, fun hflag => ⟨hflag, fun _ => rfl⟩, rfl, fun p e he => ⟨e, he, rfl, id⟩⟩
  | false =>
      exact ⟨(), s, rfl, fun j => ⟨List.Subset.refl _, .refl s j, rfl, fun p e he => ⟨e, he, rfl, id⟩⟩, rfl,
        fun h => (nomatch h)⟩

theorem made_of {s1 s2 : State κ δ P} {t0 : Table} {flag : Bool} (hpush : s1 = s.collect.push t0 flag)
    (hlater : Later s.tables.length kept nothing s1 s2) (htable : s2.tables[s.tables.length]? = some t)
    (hcount : t.count = t.cells.length) (hnodup : t.cells.Nodup)
    (hbounded : ∀ p ∈ t.cells, p < s2.entries.length) (hpositive : 0 < t.buckets.length)
    (hprimes : t.primes = t.buckets.length) (hshrink : t.shrinkSize = computeShrinkSize t.rehashSize t.growSize)
    (htidy : tidy → t.cells = []) :
    Completes (recordIfAddressHash type s.tables.length) s2 fun _ s3 =>
      Made type tidy s s3 ∧ s3.tables = s2.tables := by
  refine (recordIfAddressHash_spec s.tables.length).mono fun _ s3 hr => ?_
  obtain ⟨hapart, htables, hrecorded⟩ := hr
  refine ⟨⟨?_, fun j hj => ?_, fun u hu => ?_⟩, htables⟩
  · rw [htables, hlater.length, hpush, State.push, length_append, collect_tables]
    rfl
  · have hstart := apart_push s t0 flag hj
    rw [← hpush] at hstart
    exact (hstart.trans (hlater.apart (Nat.ne_of_lt hj))).trans (hapart j)
  · rw [htables, htable] at hu
    cases hu
    have hbounded3 : ∀ p ∈ t.cells, p < s3.entries.length := fun p hp => by
      obtain ⟨e, he, -⟩ := (hapart 0).entries p _ (List.getElem?_eq_getElem (hbounded p hp))
      exact (List.getElem?_eq_some_iff.mp he).1
    refine ⟨⟨⟨htables ▸ htable, ?_, ?_, fun p hp => hbounded3 p ?_, hpositive, hrecorded⟩, hprimes, hshrink⟩,
      fun h => ⟨fun _ _ p hp => ?_, fun p hp => ?_⟩⟩
    · rw [append_nil]
      exact hcount
    · rw [append_nil]
      exact hnodup
    · rwa [append_nil] at hp
    · rw [htidy h] at hp
      cases hp
    · rw [htidy h] at hp
      cases hp

theorem setInitialSize_spec (h : s.tables[i]? = some t) (initialSize : Option Nat) :
    Does i kept touched (setInitialSize i initialSize) s fun _ s' => ∃ size flag,
      s'.tables[i]? = some { t with growSize := size, initialSizeInEffect := flag }
        ∧ (size = t.growSize ∨ 0 ≤ size ∧ flag = true) := by
  cases initialSize with
  | none => exact .pure ⟨t.growSize, t.initialSizeInEffect, h, .inl rfl⟩
  | some size =>
      rw [setInitialSize]
      split
      · refine Does.bind (writeTable_spec h _) fun _ s1 _ htable1 => ?_
        exact (writeTable_spec htable1 _).mono fun _ _ _ htable2 => ⟨_, _, htable2, .inr ⟨Int.natCast_nonneg size, rfl⟩⟩
      · exact .pure ⟨t.growSize, t.initialSizeInEffect, h, .inl rfl⟩

theorem makeHashTable_spec (initialSize : Option Nat) :
    Completes (makeHashTable type initialSize) s fun _ s' => Made type tidy s s'
      ∧ ∀ t, s'.tables[s.tables.length]? = some t → Sized t ∧ Accepted t.rehashSize := by
  obtain ⟨t0, ht0⟩ : ∃ t0 : Table, t0 = ⟨id, HashTable.defaultRehashSize, 0, minimumSize, 0, [], 2, false⟩ :=
    ⟨_, rfl⟩
  have hget : (s.collect.push t0 false).tables[s.tables.length]? = some t0 := by
    rw [← collect_tables s]
    exact push_get ..
  have hmake : makeTable s = some (s.tables.length, s.collect.push t0 false) := by
    rw [← collect_tables s, ht0]
    rfl
  have hbody : Does s.tables.length True nothing (do
      setInitialSize s.tables.length initialSize
      resetTable s.tables.length) (s.collect.push t0 false) fun _ s' => ∃ (size : Int) (flag : Bool) (n : Nat), 0 < n
        ∧ size ≤ n ∧ (size = minimumSize ∨ 0 ≤ size ∧ flag = true) ∧ s'.tables[s.tables.length]? = some { t0 with
          growSize := size, initialSizeInEffect := flag,
          shrinkSize := computeShrinkSize t0.rehashSize size, primes := n,
          buckets := List.replicate n [] } := by
    refine Does.bind (setInitialSize_spec hget initialSize) fun _ s1 _ hr => ?_
    obtain ⟨size, flag, htable1, hsize⟩ := hr
    rw [ht0] at hsize
    refine (resetTable_spec htable1 ?_).mono fun _ s2 _ hr => ?_
    · rw [ht0]
      exact Nat.zero_lt_two
    · obtain ⟨n, hn, hroom, htable2⟩ := hr
      rw [ht0] at hroom
      exact ⟨size, flag, n, hn, hroom, hsize, htable2⟩
  have hnil : ∀ n : Nat, (List.replicate n ([] : List Nat)).flatten = [] := by
    simp
  have hall : Completes ((do
      setInitialSize s.tables.length initialSize
      resetTable s.tables.length) >>= fun _ => recordIfAddressHash type s.tables.length)
      (s.collect.push t0 false) fun _ s' => Made type tidy s s'
        ∧ ∀ t, s'.tables[s.tables.length]? = some t → Sized t ∧ Accepted t.rehashSize := by
    refine Completes.bind hbody fun _ s2 hr => ?_
    obtain ⟨hlater, size, flag, n, hn, hroom, hsize, htable⟩ := hr
    have hrecord : Completes (recordIfAddressHash type s.tables.length) s2 fun _ s3 =>
        Made type tidy s s3 ∧ s3.tables = s2.tables := by
      refine made_of rfl hlater htable ?_ ?_ (fun p hp => ?_) ?_ ?_ rfl fun _ => hnil n
      · rw [Table.cells, hnil, ht0]
        rfl
      · rw [Table.cells, hnil]
        exact nodup_nil
      · rw [Table.cells, hnil] at hp
        cases hp
      · exact length_replicate.symm ▸ hn
      · exact length_replicate.symm
    refine hrecord.mono fun _ s3 hr => ⟨hr.1, fun u hu => ?_⟩
    rw [hr.2, htable, ht0] at hu
    cases hu
    have hmin : minimumSize = 4 := rfl
    refine ⟨⟨⟨?_, ?_⟩, fun hinitial => ?_⟩, accepted_defaultRehashSize⟩
    · dsimp only
      omega
    · dsimp only
      rw [length_replicate]
      exact hroom
    · dsimp only at hinitial ⊢
      rcases hsize with rfl | ⟨-, hflag⟩
      · exact le_of_eq (if_pos (le_refl _))
      · rw [hflag] at hinitial
        cases hinitial
  rw [bind_assoc] at hall
  obtain ⟨a, s', hm, hq⟩ := hall
  refine ⟨a, s', ?_, hq⟩
  change (makeTable s >>= fun r => _) = _
  rw [hmake]
  exact hm

/-! ## Copying tables -/

/-- After a number of points at which a collection may run. -/
def State.collects (s : State κ δ P) : Nat → State κ δ P
  | 0 => s
  | n + 1 => (s.collects n).collect

/-- A state after a number of accesses that only add entries. -/
structure Adds (n : Nat) (s s' : State κ δ P) : Prop where
  schedule : s'.schedule = (s.collects n).schedule
  entries : (s.collects n).entries <+: s'.entries

variable {n : Nat} {chain xs ys : List Nat}

theorem Adds.collect (h : Adds n s s') : Adds (n + 1) s s'.collect := by
  refine ⟨?_, ?_⟩
  · rw [collect_schedule, h.schedule, State.collects, collect_schedule]
  · obtain ⟨added, hadded⟩ := h.entries
    rw [State.collects]
    unfold State.collect
    rw [h.schedule]
    split
    · exact h.entries
    · exact h.entries
    · rw [← hadded, mapIdx_append]
      exact prefix_append ..

theorem collects_length (s : State κ δ P) (n : Nat) : (s.collects n).entries.length = s.entries.length := by
  induction n with
  | zero => rfl
  | succ n ih =>
      rw [State.collects, ← ih]
      unfold State.collect
      split <;> simp

/-- None of some entries is broken when it is read: two points after the one before, beginning after
`n + 1` points. -/
def Sturdy (s : State κ δ P) (n : Nat) (ps : List Nat) : Prop :=
  ∀ (k p : Nat), ps[k]? = some p → ∀ e, (s.collects (n + 2 * k + 1)).entries[p]? = some e → e.broken = false

theorem Sturdy.append (h : Sturdy s n (xs ++ ys)) : Sturdy s n xs ∧ Sturdy s (n + 2 * xs.length) ys := by
  refine ⟨fun k p hp => h k p (List.getElem?_append_left (List.getElem?_eq_some_iff.mp hp).1 ▸ hp),
    fun k p hp => ?_⟩
  have hget : (xs ++ ys)[xs.length + k]? = some p := by
    rw [List.getElem?_append_right (Nat.le_add_right ..), Nat.add_sub_cancel_left, hp]
  have := h (xs.length + k) p hget
  rwa [Nat.mul_add, ← Nat.add_assoc] at this

/-- The entries of a copy are new, and as many as those that are copied. -/
structure Copied (i n : Nat) (ps : List Nat) (s s0 s' : State κ δ P) (ps' : List Nat) : Prop where
  adds : Adds (n + 2 * ps.length) s s'
  later : Later i True nothing s0 s'
  tables : s'.tables = s0.tables
  length : ps'.length = ps.length
  nodup : ps'.Nodup
  bounded : ∀ p ∈ ps', s0.entries.length ≤ p ∧ p < s'.entries.length

theorem Copied.trans {s0 s1 s2 : State κ δ P} {xs' ys' : List Nat} (h : Copied i n xs s s0 s1 xs')
    (h' : Copied i (n + 2 * xs.length) ys s s1 s2 ys') :
    Copied i n (xs ++ ys) s s0 s2 (xs' ++ ys') := by
  refine ⟨?_, h.later.trans h'.later, h'.tables.trans h.tables, ?_, ?_, fun p hp => ?_⟩
  · rw [length_append, Nat.mul_add, ← Nat.add_assoc]
    exact h'.adds
  · rw [length_append, length_append, h.length, h'.length]
  · refine nodup_append.mpr ⟨h.nodup, h'.nodup, fun p hp q hq hpq => ?_⟩
    have := h.bounded p hp
    have := h'.bounded q hq
    omega
  · have := h.later.entries_le
    have := h'.later.entries_le
    rcases mem_append.mp hp with hp | hp
    · have := h.bounded p hp
      omega
    · have := h'.bounded p hp
      omega

variable {s0 : State κ δ P} {m : M κ δ P α} {operations : List (Operation κ δ)}

theorem copyEntry_spec (h : Adds n s s0) (hsturdy : Sturdy s n [p])
    (hp : p < s.entries.length) : ∃ key datum, Completes (entryKeyAndDatum p) s0 fun r s1 =>
      r = some (key, datum) ∧ Completes (makeEntry key datum) s1 fun q s2 => Copied i n [p] s s0 s2 [q] := by
  have hlt : p < (s.collects (n + 1)).entries.length := by
    rw [collects_length]
    exact hp
  have hget := List.getElem?_eq_getElem hlt
  have hbroken := hsturdy 0 p rfl _ hget
  obtain ⟨e, he⟩ : ∃ e, e = (s.collects (n + 1)).entries[p] := ⟨_, rfl⟩
  rw [← he] at hget hbroken
  have h1 := h.collect
  have hget1 : s0.collect.entries[p]? = some e := by
    obtain ⟨added, hadded⟩ := h1.entries
    rw [← hadded, List.getElem?_append_left hlt, hget]
  have hread : entryKeyAndDatum p s0 = some (some (e.key, e.datum), s0.collect) := by
    have href : entryRef p s0 = some (e, s0.collect) := by
      change (s0.collect.entries[p]?).map _ = _
      rw [hget1]
      rfl
    change (entryRef p s0 >>= fun r => _) = _
    rw [href]
    change some (if e.broken = true then none else some (e.key, e.datum), s0.collect) = _
    rw [hbroken]
    rfl
  refine ⟨e.key, e.datum, some (e.key, e.datum), s0.collect, hread, rfl, ?_⟩
  have hcollect : Later i True nothing s0 s0.collect := .collect s0
  have hnew : Does i True nothing (makeEntry e.key e.datum) s0.collect _ :=
    makeEntry_spec e.key e.datum
  obtain ⟨q, s2, hmake, hlater2, hq, hget2, htables2⟩ := hnew
  refine ⟨q, s2, hmake, ?_, hcollect.trans hlater2, htables2.trans (collect_tables s0), rfl,
    nodup_singleton q, fun q' hq' => ?_⟩
  · have h2 := h1.collect
    cases hmake
    exact ⟨h2.schedule, h2.entries.trans (prefix_append ..)⟩
  · rw [mem_singleton.mp hq', hq]
    refine ⟨hcollect.entries_le, ?_⟩
    rw [← hq]
    exact (List.getElem?_eq_some_iff.mp hget2).1

theorem copyBucket_spec (h : Adds n s s0) (hsturdy : Sturdy s n chain)
    (hbounded : ∀ p ∈ chain, p < s.entries.length) :
    Completes (copyBucket chain) s0 fun chain' s' => Copied i n chain s s0 s' chain' := by
  induction chain generalizing n s0 with
  | nil =>
      exact .pure ⟨h, .refl s0, rfl, rfl, nodup_nil, fun _ hp => (nomatch hp)⟩
  | cons p chain ih =>
      obtain ⟨hfirst, hrest⟩ := Sturdy.append (show Sturdy s n ([p] ++ chain) from hsturdy)
      obtain ⟨key, datum, hread⟩ := copyEntry_spec (i := i) h hfirst (hbounded p mem_cons_self)
      refine Completes.bind hread fun r s1 hr => ?_
      obtain ⟨rfl, hmake⟩ := hr
      refine Completes.bind hmake fun q s2 hcopied => ?_
      refine Completes.bind (ih hcopied.adds hrest fun p' hp' => hbounded p' (mem_cons_of_mem p hp'))
        fun chain' s3 hcopied' => ?_
      exact .pure (hcopied.trans hcopied')

theorem copyBuckets_spec {buckets : List (List Nat)} (h : Adds n s s0)
    (hsturdy : Sturdy s n buckets.flatten) (hbounded : ∀ p ∈ buckets.flatten, p < s.entries.length) :
    Completes (copyBuckets buckets) s0 fun buckets' s' => buckets'.length = buckets.length
      ∧ Copied i n buckets.flatten s s0 s' buckets'.flatten := by
  induction buckets generalizing n s0 with
  | nil =>
      exact .pure ⟨rfl, h, .refl s0, rfl, rfl, nodup_nil, fun _ hp => (nomatch hp)⟩
  | cons chain buckets ih =>
      obtain ⟨hfirst, hrest⟩ := hsturdy.append
      refine Completes.bind (copyBucket_spec (i := i) h hfirst fun p hp =>
        hbounded p (mem_append_left _ hp)) fun chain' s1 hcopied => ?_
      refine Completes.bind (ih hcopied.adds hrest fun p hp => hbounded p (mem_append_right _ hp))
        fun buckets' s2 hr => ?_
      refine .pure ⟨by rw [length_cons, length_cons, hr.1], ?_⟩
      exact hcopied.trans hr.2

/-- None of the entries of a table is broken when `copy-bucket` reads it. There are two accesses before
the first entry is read. -/
def Intact (s : State κ δ P) (t : Table) : Prop := Sturdy s 2 t.cells

theorem hashTableCopy_spec (h : Sound type s i t) (hintact : Intact s t) :
    Completes (hashTableCopy type i) s fun _ s' => Made type False s s' := by
  have hpush : copyTable i s = some (s.tables.length, s.collect.push t (s.collect.needsRehash i)) := by
    change (s.collect.tables[i]? >>= fun _ => _) = _
    rw [collect_tables, h.owns.table, ← collect_tables s]
    rfl
  obtain ⟨s1, hs1⟩ : ∃ s1, s1 = s.collect.push t (s.collect.needsRehash i) := ⟨_, rfl⟩
  rw [← hs1] at hpush
  have hi := (List.getElem?_eq_some_iff.mp h.owns.table).1
  have htables1 : s1.tables = s.tables ++ [t] := by
    rw [hs1, State.push, collect_tables]
  have hadds1 : Adds 1 s s1 := by
    rw [hs1]
    exact ⟨rfl, prefix_refl _⟩
  have hread : readTable i s1 = some (t, s1.collect) := by
    change (s1.collect.tables[i]?).map _ = _
    rw [collect_tables, htables1, List.getElem?_append_left hi, h.owns.table]
    rfl
  have hcells : ∀ p ∈ t.cells, p < s.entries.length := fun p hp =>
    h.owns.bounded p (mem_append_left _ hp)
  have hpush' : Completes (copyTable i) s fun j s' => s.tables.length = j ∧ s1 = s' :=
    ⟨_, _, hpush, rfl, rfl⟩
  have hread' : Completes (readTable i) s1 fun t' s' => t = t' ∧ s1.collect = s' :=
    ⟨_, _, hread, rfl, rfl⟩
  refine Completes.bind hpush' fun j s1' hr => ?_
  obtain ⟨rfl, rfl⟩ := hr
  refine Completes.bind hread' fun t' s2 hr => ?_
  obtain ⟨rfl, rfl⟩ := hr
  refine Completes.bind (copyBuckets_spec (i := s.tables.length) hadds1.collect hintact hcells)
    fun buckets' s3 hr => ?_
  obtain ⟨hlength, hcopied⟩ := hr
  have hget3 : s3.tables[s.tables.length]? = some t := by
    rw [hcopied.tables, collect_tables, htables1]
    exact List.getElem?_concat_length ..
  have hlater3 : Later s.tables.length True nothing s1 s3 := (Later.collect s1).trans hcopied.later
  have hwrite : Does s.tables.length True nothing (writeTable s.tables.length fun t =>
      { t with buckets := buckets' }) s3 fun _ s' => s'.tables[s.tables.length]? = some
        { t with buckets := buckets' } := writeTable_spec hget3 _
  refine Completes.bind hwrite fun _ s4 hr => ?_
  obtain ⟨hlater4, hget4⟩ := hr
  have hcount := h.owns.count
  rw [append_nil] at hcount
  have hrecord : Completes (recordIfAddressHash type s.tables.length) s4 fun _ s5 =>
      Made type False s s5 ∧ s5.tables = s4.tables := by
    refine made_of hs1 (hlater3.trans hlater4) hget4 ?_ hcopied.nodup (fun p hp => ?_) ?_ ?_ h.shrink
      fun h => h.elim
    · rw [Table.cells, hcopied.length]
      exact hcount
    · exact hlater4.lt (hcopied.bounded p hp).2
    · exact hlength.symm ▸ h.owns.positive
    · exact h.primes.trans hlength.symm
  exact hrecord.mono fun _ _ hr => hr.1

/-! ## Operations -/

/-- A copied table holds no broken entry. -/
def Operation.Intact (s : State κ δ P) : Operation κ δ → Prop
  | .copy i => ∀ t, s.tables[i]? = some t → WeakHashTable.Intact s t
  | _ => True

/-- It makes no copy, if the tables are to be tidy. -/
def Operation.Keeps (tidy : Prop) : Operation κ δ → Prop
  | .copy _ => ¬ tidy
  | _ => True

theorem onTable_spec (h : Counted type tidy s)
    (hm : ∀ t, Sound type s i t → Completes m s fun _ s' => Counted type tidy s') :
    Completes (onTable i m) s fun _ s' => Counted type tidy s' := by
  by_cases hi : i < s.tables.length
  · obtain ⟨a, s', hs', hq⟩ := hm _ (h i _ (List.getElem?_eq_getElem hi)).1
    exact ⟨(), s', by rw [onTable, if_pos hi, hs']; rfl, hq⟩
  · exact ⟨(), s, if_neg hi, h⟩

theorem Counted.outcome {Q : α → State κ δ P → Prop} (h : Counted type tidy s)
    (hsound : Sound type s i t)
    (hm : Does i False touched m s Q) (hq : ∀ a s', Q a s' → ∃ t', Outcome type i s t s' t') :
    Completes m s fun _ s' => Counted type tidy s' :=
  Completes.mono hm fun a s' ⟨hlater, hr⟩ =>
    (hq a s' hr).elim fun _ houtcome => h.update hsound.owns.table hlater houtcome

theorem Counted.resized {Q : α → State κ δ P → Prop} (h : Counted type tidy s)
    (hsound : Sound type s i t)
    (hm : Does i False nothing m s Q) (hq : ∀ a s', Q a s' → ∃ t', Reorganized type i s t s' t') :
    Completes m s fun _ s' => Counted type tidy s' :=
  Completes.mono hm fun a s' ⟨hlater, hr⟩ => (hq a s' hr).elim fun _ hreorganized =>
    h.update hsound.owns.table hlater (hreorganized.outcome hsound hlater)

theorem perform_spec (h : Counted type tidy s) (operation : Operation κ δ)
    (hintact : operation.Intact s) (hkeeps : operation.Keeps tidy) :
    Completes (perform type operation) s fun _ s' => Counted type tidy s' := by
  cases operation with
  | make initialSize => exact (makeHashTable_spec initialSize).mono fun _ _ hr => h.made hr.1
  | set i key datum =>
      exact onTable_spec h fun t hsound => h.outcome hsound (hashTableSet_spec hsound key datum)
        fun _ _ ⟨t', houtcome, _⟩ => ⟨t', houtcome⟩
  | ref i key =>
      exact onTable_spec h fun t hsound => h.resized hsound (hashTableRef_spec hsound key)
        fun _ _ ⟨t', hreorganized, _⟩ => ⟨t', hreorganized⟩
  | modify i key default procedure =>
      exact onTable_spec h fun t hsound => h.outcome hsound
        (hashTableModify_spec hsound key default procedure) fun _ _ ⟨t', houtcome, _⟩ => ⟨t', houtcome⟩
  | update i key default procedure =>
      exact onTable_spec h fun t hsound => h.outcome hsound
        (hashTableUpdate_spec hsound key default procedure) fun _ _ ⟨t', houtcome, _⟩ => ⟨t', houtcome⟩
  | delete i key =>
      exact onTable_spec h fun t hsound => h.outcome hsound (hashTableDelete_spec hsound key)
        fun _ _ ⟨t', houtcome, _⟩ => ⟨t', houtcome⟩
  | clean i =>
      exact onTable_spec h fun t hsound => h.outcome hsound (hashTableClean_spec hsound) fun _ _ hr => hr
  | clear i =>
      exact onTable_spec h fun t hsound => h.outcome hsound (hashTableClear_spec hsound)
        fun _ _ ⟨t', houtcome, _⟩ => ⟨t', houtcome⟩
  | count i =>
      exact onTable_spec h fun t hsound => h.resized hsound
        (hashTableCount_spec (s.schedule.length + 2) hsound (.inl (Nat.le_refl _))) fun _ _ hr => hr
  | copy i =>
      refine onTable_spec h fun t hsound => ?_
      refine (hashTableCopy_spec hsound (hintact t hsound.owns.table)).mono fun _ s' hmade => ?_
      exact h.made ⟨hmade.length, hmade.apart, fun u hu => ⟨(hmade.sound u hu).1, fun htidy => absurd htidy hkeeps⟩⟩
  | setRehashThreshold i threshold =>
      exact onTable_spec h fun t hsound => h.resized hsound
        (setHashTableRehashThreshold_spec hsound threshold) fun _ _ ⟨t', hr, _⟩ => ⟨t', hr⟩
  | setRehashSize i size =>
      exact onTable_spec h fun t hsound => h.resized hsound
        (setHashTableRehashSize_spec hsound size) fun _ _ ⟨t', hr, _⟩ => ⟨t', hr⟩

/-- None of the operations copies a table with a broken entry. -/
def AllIntact (type : TableType κ δ P) : List (Operation κ δ) → State κ δ P → Prop
  | [], _ => True
  | operation :: operations, s => operation.Intact s
      ∧ ∀ s', perform type operation s = some ((), s') → AllIntact type operations s'

theorem performs_spec (h : Counted type tidy s)
    (hintact : AllIntact type operations s) (hkeeps : ∀ operation ∈ operations, operation.Keeps tidy) :
    Completes (performs type operations) s fun _ s' => Counted type tidy s' := by
  induction operations generalizing s with
  | nil => exact .pure h
  | cons operation operations ih =>
      obtain ⟨a, s1, hs1, h1⟩ := perform_spec h operation hintact.1 (hkeeps _ mem_cons_self)
      have hrest := ih h1 (hintact.2 s1 hs1) fun op hop => hkeeps op (mem_cons_of_mem _ hop)
      exact Completes.bind ⟨a, s1, hs1, rfl⟩ fun _ s' (hr : s1 = s') => hr ▸ hrest

theorem counted_start (placement : P) (schedule : List (Option (Collection κ δ P))) :
    Counted type tidy (start placement schedule : State κ δ P) := fun j t ht => by
  cases ht

theorem tidy_of_run (placement : P) (schedule : List (Option (Collection κ δ P))) (hcopies : ∀ operation ∈ operations, operation.Keeps True)
    (hrun : performs type operations (start placement schedule) = some ((), s))
    (ht : s.tables[i]? = some t) : Sound type s i t ∧ Tidy type s i t := by
  have hintact : ∀ s : State κ δ P, AllIntact type operations s := by
    clear hrun
    induction operations with
    | nil => exact fun _ => trivial
    | cons operation operations ih =>
        refine fun s => ⟨?_, fun s' _ => ih (fun op hop => hcopies op (mem_cons_of_mem _ hop)) s'⟩
        have := hcopies operation mem_cons_self
        cases operation with
        | copy i => exact absurd trivial this
        | _ => exact trivial
  have hspec := performs_spec (counted_start placement schedule) (hintact _) hcopies
  obtain ⟨hsound, htidy⟩ := hspec.of_eq hrun i t ht
  exact ⟨hsound, htidy trivial⟩

/-- `key-weak-eq-hash-table-type`, with numbers for keys. -/
def keyWeakEqHashTableType : TableType Nat Nat (Nat → Nat) where
  toTableType := HashTable.eqHashTableType
  cleans := true
  entryValid e := !e.broken

/-- A table with one entry is copied. -/
def setAndCopy : List (Operation Nat Nat) := [.make none, .set 0 3 7, .copy 0]

theorem collects_of_nil (h : s.schedule = []) (n : Nat) : s.collects n = s := by
  induction n with
  | zero => rfl
  | succ n ih => rw [State.collects, ih, State.collect, h]

theorem performs_cons {operation : Operation κ δ} (h : perform type operation s = some ((), s')) :
    performs type (operation :: operations) s = performs type operations s' := by
  change (perform type operation s >>= fun r => performs type operations r.2) = _
  rw [h]
  rfl

theorem map_of_run {β : Type} {r : Option (Unit × State κ δ P)} (h : r = some ((), s)) (f : State κ δ P → β)
    {b : β} (hb : r.map (fun r => f r.2) = some b) : f s = b := by
  subst h
  exact Option.some.inj hb

theorem setAndCopy_state : (performs keyWeakEqHashTableType [.make none, .set 0 3 7] (start id [])).map
    (fun r => (r.2.schedule.length, r.2.entries.map Entry.broken)) = some (0, [false]) := by
  decide +kernel

theorem setAndCopy_allIntact : AllIntact keyWeakEqHashTableType setAndCopy (start id []) := by
  refine ⟨trivial, fun s1 hs1 => ⟨trivial, fun s2 hs2 => ⟨fun t _ k p _ e he => ?_, fun _ _ => trivial⟩⟩⟩
  have hrun : performs keyWeakEqHashTableType [.make none, .set 0 3 7] (start id []) = some ((), s2) := by
    rw [performs_cons hs1, performs_cons hs2]
    rfl
  have hstate := map_of_run hrun (fun s => (s.schedule.length, s.entries.map Entry.broken)) setAndCopy_state
  obtain ⟨hnil, hunbroken⟩ := Prod.mk.inj hstate
  rw [collects_of_nil (length_eq_zero_iff.mp hnil)] at he
  have hmem : e.broken ∈ s2.entries.map Entry.broken := List.mem_map_of_mem (mem_of_getElem? he)
  rw [hunbroken] at hmem
  exact mem_singleton.mp hmem

variable {t t' : Table}
  {touched : Nat → Prop} {key : κ}

/-- The datum of the unbroken entry under a key. -/
def held (type : TableType κ δ P) (s : State κ δ P) (t : Table) (key : κ) : Option δ :=
  t.cells.findSome? fun p => (s.entries[p]?).bind fun e =>
    if e.broken = false ∧ type.keyEq e.key key = true then some e.datum else none

theorem Tidy.tracks (h : Tidy type s i t) (hspares : ∀ key', type.keyEq key' key = true →
    Spares s.schedule key') : ∃ entry, Tracks type s i t key entry ∧ entry.map Prod.snd = held type s t key := by
  cases hheld : held type s t key with
  | none =>
      refine ⟨none, ⟨h.laid key, hspares, fun _ _ hentry => (nomatch hentry), fun p hp hunder => ?_⟩, rfl⟩
      obtain ⟨e, he, hb, hkey⟩ := hunder
      have hp' := List.findSome?_eq_none_iff.mp hheld p hp
      rw [he, Option.bind_some, if_pos ⟨hb, hkey⟩] at hp'
      cases hp'
  | some datum =>
      obtain ⟨p, hp, hp'⟩ := List.exists_of_findSome?_eq_some hheld
      obtain ⟨e, he, hdatum⟩ := Option.bind_eq_some_iff.mp hp'
      split at hdatum
      · rename_i hunder
        cases hdatum
        refine ⟨some (p, e.datum), ⟨h.laid key, hspares, fun _ _ hentry => ?_, fun q hq hunder' => ?_⟩, rfl⟩
        · cases hentry
          exact ⟨hp, e, he, hunder.1, hunder.2, rfl⟩
        · rw [h.lone q hq p hp key hunder' ⟨e, he, hunder⟩]
          exact ⟨e.datum, rfl⟩
      · cases hdatum

/-- A procedure on a table returns a value, a lookup of the key returns it then, and the count of the
table is the number of its entries. -/
def Consistent (type : TableType κ δ P) (i : Nat) (key : κ) (m : M κ δ P δ) (s : State κ δ P) : Prop :=
  ∃ value s', m s = some (value, s') ∧ (∃ s'', hashTableRef type i key s' = some (some value, s''))
    ∧ ∃ t', s'.tables[i]? = some t' ∧ t'.count = t'.cells.length

/-- The procedure does not remove the entry that it is applied to the datum of, or it puts what it
returns under the key. -/
def Keeps (type : TableType κ δ P) (key : κ) (procedure : Procedure κ δ) (datum : δ) : Prop :=
  removes type key (procedure datum).1 = false
    ∨ effect type key (procedure datum).1 (some datum) = some (procedure datum).2

/-- The same of the entry that is found under the key, or that the procedure puts there when it is
applied to the default. -/
def KeepsFound (type : TableType κ δ P) (key : κ) (default : δ) (procedure : Procedure κ δ)
    (found : Option δ) : Prop :=
  ∀ datum, found.or (effect type key (procedure default).1 none) = some datum →
    Keeps type key procedure datum

theorem keeps_iff (procedure : Procedure κ δ) (datum : δ) :
    left type key (procedure datum).1 (some datum) (procedure datum).2 = some (procedure datum).2
      ↔ Keeps type key procedure datum := by
  rw [left, Keeps]
  cases removes type key (procedure datum).1 with
  | true => simp
  | false => simp

theorem modified_eq_iff (default : δ) (procedure : Procedure κ δ) (found : Option δ) :
    (modified type key default procedure found).2 = some (modified type key default procedure found).1
      ↔ KeepsFound type key default procedure found := by
  cases found with
  | some datum =>
      rw [modified, keeps_iff, KeepsFound]
      simp
  | none =>
      rw [modified, KeepsFound]
      cases hdatum : effect type key (procedure default).1 none with
      | some datum =>
          simp only [keeps_iff]
          simp
      | none => simp

theorem consistent_iff {m : M κ δ P δ} (left : δ → Option δ → Prop)
    (h : Does i False touched m s fun value s' => ∃ t', Sound type s' i t' ∧ ∃ entry,
      Tracks type s' i t' key entry ∧ left value (entry.map Prod.snd)) :
    ∃ value found, left value found ∧ (Consistent type i key m s ↔ found = some value) := by
  obtain ⟨value, s', hm, -, t', hsound, entry, htracks, hleft⟩ := h
  obtain ⟨datum, s'', href, -, -, -, hdatum⟩ := hashTableRef_spec hsound key
  refine ⟨value, entry.map Prod.snd, hleft, fun hconsistent => ?_, fun hfound => ?_⟩
  · obtain ⟨value', s1, hm', ⟨s2, href'⟩, -⟩ := hconsistent
    rw [hm] at hm'
    cases hm'
    rw [href] at href'
    cases href'
    exact (hdatum entry htracks).symm
  · refine ⟨value, s', hm, ⟨s'', ?_⟩, t', hsound.owns.table, ?_⟩
    · rw [href, hdatum entry htracks, hfound]
    · have := hsound.owns.count
      rwa [List.append_nil] at this

end MitScheme.WeakHashTable
