import MitScheme.Runtime.WeakHashTableResize

/-!
# Finding entries in weak tables

When `compute-hash!` returns, the unbroken entries with keys that are equal to the key are in the bucket
that it found, whatever collections follow, since no entry moves until the next hash is computed. What is
found there is an entry with the key, and if there is none nothing is found.
-/

namespace MitScheme.WeakHashTable

open Programs List

variable {κ δ P : Type} {type : TableType κ δ P} {s s' s'' : State κ δ P} {i : Nat}
  {t t' : Table} {kept : Prop} {touched : Nat → Prop} {loose xs : List Nat} {key key' : κ} {p hash : Nat}

/-! ## Taking the entries out -/

theorem cells_take {k : Nat} (h : k < t.buckets.length) :
    (t.buckets[k] ++ (t.relink k fun _ => []).cells).Perm t.cells := by
  obtain ⟨l, b, r, hsplit, hk, hmodify⟩ := modify_split h
  have hb : t.buckets[k] = b := by
    have hget : t.buckets[k]? = some b := by
      rw [hsplit, ← hk, List.getElem?_append_right (Nat.le_refl _), Nat.sub_self]
      rfl
    rw [List.getElem?_eq_getElem h] at hget
    exact Option.some.inj hget
  rw [hb, Table.cells, Table.relink, hmodify, Table.cells, hsplit, flatten_append,
    flatten_append, flatten_cons, nil_append]
  exact perm_append_comm_assoc _ _ _

theorem extractLoop_spec (left k : Nat) (h : Owns type s i t xs) (hlength : k + left = t.buckets.length)
    (hempty : ∀ n, n < k → t.buckets[n]? = some []) :
    Does i True nothing (extractLoop i left k xs) s fun ys s' => ∃ t', Owns type s' i t' ys
      ∧ t' = { t with buckets := t'.buckets } ∧ t'.buckets.length = t.buckets.length ∧ t'.cells = []
      ∧ ys.Perm (t.cells ++ xs) := by
  induction left generalizing s t k xs with
  | zero =>
      have hnil : t.cells = [] := by
        rw [eq_nil_iff_forall_not_mem]
        intro q hq
        obtain ⟨n, ps, hn, hmem⟩ := mem_cells.mp hq
        have hlt := (List.getElem?_eq_some_iff.mp hn).1
        rw [hempty n (by omega)] at hn
        cases hn
        nomatch hmem
      exact .pure ⟨t, h, rfl, rfl, hnil, by rw [hnil, nil_append]⟩
  | succ left ih =>
      have hk : k < t.buckets.length := by omega
      refine Does.bind (bucketRef_spec h.table (List.getElem?_eq_getElem hk)) fun r s1 hlater1 hr => ?_
      obtain ⟨rfl, htables1⟩ := hr
      refine Does.bind (bucketModify_spec (htables1 ▸ h.table) hk fun _ => [])
        fun _ s2 hlater2 htable2 => ?_
      have hperm := cells_take hk
      have hall : ((t.relink k fun _ => []).cells ++ (t.buckets[k] ++ xs)).Perm (t.cells ++ xs) := by
        rw [← append_assoc]
        exact (perm_append_comm.trans hperm).append_right xs
      have h2 := h.moved (hlater1.trans hlater2) htable2 rfl (relink_length ..) hall
      refine (ih (k + 1) h2 (by rw [relink_length]; omega) fun n hn => ?_).mono fun ys s' _ hr => ?_
      · change (t.buckets.modify k _)[n]? = _
        by_cases hnk : n = k
        · subst hnk
          rw [List.getElem?_modify_eq, List.getElem?_eq_getElem hk]
          rfl
        · rw [List.getElem?_modify_ne _ _ (Ne.symm hnk)]
          exact hempty n (by omega)
      · obtain ⟨t', howns, htable, hbuckets, hnil, hys⟩ := hr
        exact ⟨t', howns, htable, hbuckets.trans (relink_length ..), hnil, hys.trans hall⟩

theorem extractTableEntries_spec (h : Owns type s i t []) :
    Does i True nothing (extractTableEntries i) s fun ys s' => ∃ t', Owns type s' i t' ys
      ∧ t' = { t with buckets := t'.buckets } ∧ t'.buckets.length = t.buckets.length ∧ t'.cells = []
      ∧ ys.Perm t.cells := by
  refine Does.bind (readTable_spec h.table) fun r s1 hlater1 hr => ?_
  obtain ⟨rfl, htables1, -⟩ := hr
  refine (extractLoop_spec t.buckets.length 0 (h.later hlater1 (htables1 ▸ h.table))
    (Nat.zero_add _) fun n hn => absurd hn (Nat.not_lt_zero n)).mono fun ys s2 _ hr => ?_
  rwa [append_nil] at hr

theorem rehashTable_spec (h : Sound type s i t) :
    Does i False nothing (rehashTable type i) s fun _ s' => ∃ t', Reorganized type i s t s' t' ∧ Resized t t'
      ∧ (∀ key, Laid type s' i t' key) ∧ (s.schedule = [] → s'.needsRehash i = false) := by
  refine Does.bind (extractTableEntries_spec h.owns).quiet fun ys s1 _ hr => ?_
  obtain ⟨hlater1, t1, h1, htable1, hbuckets1, hnil1, hys⟩ := hr
  refine Does.bind setTableNeedsRehash_spec fun _ s2 hlater2 hr => ?_
  obtain ⟨hflag2, htables2⟩ := hr
  have h2 : Owns type s2 i t1 (ys ++ []) := by
    rw [append_nil]
    exact h1.later hlater2 (htables2 ▸ h1.table)
  refine Does.bind (rehash_spec h2).quiet fun _ s3 _ hr => ?_
  obtain ⟨hlater3, t3, hr3⟩ := hr
  have hlaid : ∀ key, Laid type s3 i t3 key := fun key => hr3.laid key fun _ q hq => by
    rw [hnil1] at hq
    nomatch hq
  have hr3' : Reorganized type i s t s3 t3 := by
    refine ⟨⟨hr3.owns, ?_, ?_⟩, fun q hq => ?_, fun q hq hlost => hr3.lost q ?_ hlost,
      fun key _ => hlaid key⟩
    · rw [hr3.buckets, hr3.table, htable1]
      exact h.primes.trans hbuckets1.symm
    · rw [hr3.table, htable1]
      exact h.shrink
    · have := hr3.sub q hq
      rw [hnil1, append_nil] at this
      exact hys.mem_iff.mp this
    · exact mem_append_left _ (hys.mem_iff.mpr hq)
  refine (maybeShrink_spec hr3'.sound).mono fun _ s4 hlater4 hr => ?_
  obtain ⟨t4, hr4, hshrunk⟩ := hr
  have htable3 : t3 = { t with buckets := t3.buckets, count := t3.count } := by rw [hr3.table, htable1]
  have hresized : Resized t t4 := by
    rw [htable3] at hshrunk
    refine ⟨hshrunk.rehashSize, hshrunk.initial, fun hinitial => ?_, fun hsized => hshrunk.sized ⟨?_, ?_⟩⟩
    · rw [hshrunk.same hinitial]
    · exact (hr3'.count_le h.owns).trans hsized.count
    · dsimp only
      rw [hr3.buckets, hbuckets1]
      exact hsized.room
  refine ⟨t4, hr3'.trans hlater4 hr4, hresized, fun key => hr4.laid key (hlaid key), fun hgc => ?_⟩
  have hgc2 := hlater2.nil (hlater1.nil hgc)
  exact hlater4.calm (hlater3.nil hgc2) (hlater3.calm hgc2 hflag2)

/-! ## Computing a hash -/

/-- What a computed hash is good for. It is the one of the key if the table need not be rehashed, and
if the table was laid out for the key, the entries under the key are in that bucket. -/
structure Hashed (type : TableType κ δ P) (s : State κ δ P) (i : Nat) (t : Table) (key : κ)
    (laid : Prop) (hash : Nat) : Prop where
  lt : hash < t.buckets.length
  computed : Settled type s i → type.keyHash s.placement key t.buckets.length = hash
  only : laid → ∀ p ∈ t.cells, Under type s key p → ∃ ps, t.buckets[hash]? = some ps ∧ p ∈ ps

theorem Hashed.later {laid : Prop} (h : Hashed type s i t key laid hash) (howns : Owns type s i t loose)
    (hlater : Later i True touched s s') : Hashed type s' i t key laid hash := by
  refine ⟨h.lt, fun hsettled => ?_, fun hlaid q hq hunder => ?_⟩
  · rw [hlater.keyHash howns.recorded hsettled]
    exact h.computed (hlater.settled hsettled)
  · exact h.only hlaid q hq (hunder.before hlater (howns.bounded q (mem_append_left _ hq)))

theorem Sound.hashed (h : Sound type s i t) (hlater : Later i True touched s s')
    (hlater' : Later i True touched s' s'') (hsettled : Settled type s'' i) (key : κ) :
    Hashed type s'' i t key (Laid type s i t key)
      (type.keyHash s'.placement key t.buckets.length) := by
  have hlt := type.keyHash_lt s'.placement key h.owns.positive
  have hrecorded : type.rehashAfterGc = true → i ∈ s'.recorded := fun hrehash =>
    hlater.recorded ▸ h.owns.recorded hrehash
  have hhash := hlater'.keyHash hrecorded hsettled key t.buckets.length
  refine ⟨hlt, fun _ => hhash, fun hlaid q hq hunder => ?_⟩
  have := hlaid.later h.owns (hlater.trans hlater') hsettled q hq hunder
  rwa [hhash] at this

/-- There are enough turns left: one for each event of the schedule, and two, or one if the table is not
to be rehashed any more. -/
def Fueled (s : State κ δ P) (i fuel : Nat) : Prop :=
  s.schedule.length + 2 ≤ fuel ∨ s.schedule = [] ∧ s.needsRehash i = false ∧ 1 ≤ fuel

theorem Fueled.next {fuel : Nat} (h : Fueled s i (fuel + 1)) (hlater : Later i True touched s s')
    (hschedule : s'.schedule.length ≤ s.schedule.tail.length) (hflag : s'.needsRehash i = true)
    (hlater' : Later i kept touched s' s'') (hidle : s'.schedule = [] → s''.needsRehash i = false) :
    Fueled s'' i fuel := by
  cases hs : s.schedule with
  | nil =>
      have hnil := hlater.nil hs
      refine .inr ⟨hlater'.nil hnil, hidle hnil, ?_⟩
      rcases h with hle | ⟨-, hclear, -⟩
      · omega
      · rw [hlater.calm hs hclear] at hflag
        cases hflag
  | cons event rest =>
      have hle' := hlater'.schedule.length_le
      rw [hs, tail_cons] at hschedule
      rcases h with hle | ⟨hnil, -⟩
      · rw [hs, length_cons] at hle
        exact .inl (by omega)
      · rw [hnil] at hs
        cases hs

theorem computeAddressHash_spec (fuel : Nat) (h : Sound type s i t) (key : κ)
    (hfuel : Fueled s i fuel) :
    Does i False nothing (computeAddressHash type i key fuel) s fun hash s' => ∃ t',
      Reorganized type i s t s' t' ∧ Hashed type s' i t' key (Laid type s i t key) hash ∧ Resized t t' := by
  induction fuel generalizing s t with
  | zero =>
      rw [Fueled] at hfuel
      omega
  | succ fuel ih =>
      refine Does.bind (readTable_spec h.owns.table).quiet fun r s1 _ hr => ?_
      obtain ⟨hlater1, rfl, htables1, hschedule⟩ := hr
      refine Does.bind (keyHash_spec key t.buckets.length).quiet fun hash s2 _ hr => ?_
      obtain ⟨hlater2, htables2, rfl⟩ := hr
      refine Does.bind tableNeedsRehash_spec.quiet fun flag s3 _ hr => ?_
      obtain ⟨hlater3, rfl, htables3⟩ := hr
      have hlater := (hlater1.trans hlater2).trans hlater3
      have hr3 := h.reorganized hlater (htables3 ▸ htables2 ▸ htables1 ▸ h.owns.table)
      cases hflag : s3.needsRehash i with
      | false =>
          rw [if_neg Bool.false_ne_true]
          exact .pure ⟨t, hr3, h.hashed (hlater1.trans hlater2) hlater3 (fun _ => hflag) key, .refl t⟩
      | true =>
          rw [if_pos rfl]
          refine Does.bind (rehashTable_spec hr3.sound) fun _ s4 hlater4 hr => ?_
          obtain ⟨t4, hr4, hresized4, hlaid4, hidle⟩ := hr
          have hfuel4 := hfuel.next hlater
            (hschedule ▸ (hlater2.trans hlater3).schedule.length_le) hflag hlater4 hidle
          refine (ih hr4.sound hfuel4).mono fun hash s5 hlater5 hr => ?_
          obtain ⟨t5, hr5, hhashed, hresized5⟩ := hr
          exact ⟨t5, (hr3.trans hlater4 hr4).trans hlater5 hr5, ⟨hhashed.lt,
            hhashed.computed, fun _ => hhashed.only (hlaid4 key)⟩, hresized4.trans hresized5⟩

theorem computeHash_spec (h : Sound type s i t) (key : κ) :
    Does i False nothing (computeHash type i key) s fun hash s' => ∃ t',
      Reorganized type i s t s' t' ∧ Hashed type s' i t' key (Laid type s i t key) hash ∧ Resized t t' := by
  rw [computeHash]
  cases hrehash : type.rehashAfterGc with
  | true =>
      exact computeAddressHash_spec (s.schedule.length + 2) h key (.inl (Nat.le_refl _))
  | false =>
      refine Does.bind (readTable_spec h.owns.table).quiet fun r s1 _ hr => ?_
      obtain ⟨hlater1, rfl, htables1, -⟩ := hr
      refine (keyHash_spec key t.buckets.length).quiet.mono fun hash s2 _ hr => ?_
      obtain ⟨hlater2, htables2, rfl⟩ := hr
      have hlater := hlater1.trans hlater2
      refine ⟨t, h.reorganized hlater (htables2 ▸ htables1 ▸ h.owns.table),
        h.hashed hlater (.refl _) (fun hrehash' => ?_) key, .refl t⟩
      rw [hrehash] at hrehash'
      cases hrehash'

/-! ## Looking along a chain -/

/-- The entry at an address is not broken, is under the key, and has the datum. -/
def Entered (type : TableType κ δ P) (s : State κ δ P) (key : κ) (p : Nat) (datum : δ) : Prop :=
  ∃ e, s.entries[p]? = some e ∧ e.broken = false ∧ type.keyEq e.key key = true ∧ e.datum = datum

theorem Entered.under {datum : δ} (h : Entered type s key p datum) : Under type s key p := by
  obtain ⟨e, he, hb, hkey, -⟩ := h
  exact ⟨e, he, hb, hkey⟩

theorem findLoop_spec {chain : List Nat} (hbounded : ∀ q ∈ chain, q < s.entries.length) :
    Does i True nothing (findLoop type key chain) s fun found s' => s'.tables = s.tables ∧
      (∀ q datum, found = some (q, datum) → q ∈ chain ∧ Entered type s' key q datum)
      ∧ (found = none → ∀ q ∈ chain, ¬ Under type s' key q) := by
  induction chain generalizing s with
  | nil => exact .pure ⟨rfl, fun _ _ h => (nomatch h), fun _ _ h => (nomatch h)⟩
  | cons p chain ih =>
      refine Does.bind (entryKeyAndDatum_spec (hbounded p mem_cons_self)) fun r s1 hlater1 hr => ?_
      obtain ⟨e, he, rfl, htables1⟩ := hr
      -- the loop goes on if the entry is not one under the key
      have hnext (hnot : ¬ Under type s1 key p) :
          Does i True nothing (findLoop type key chain) s1 fun found s' => s'.tables = s.tables ∧
            (∀ q datum, found = some (q, datum) → q ∈ p :: chain ∧ Entered type s' key q datum)
            ∧ (found = none → ∀ q ∈ p :: chain, ¬ Under type s' key q) := by
        refine (ih fun q hq => hlater1.lt (hbounded q (mem_cons_of_mem p hq))).mono
          fun found s' hlater' hr => ?_
        obtain ⟨htables', hsome, hnone⟩ := hr
        refine ⟨htables'.trans htables1, fun q datum hfound => ?_, fun hfound q hq => ?_⟩
        · exact (hsome q datum hfound).imp_left (mem_cons_of_mem p)
        · rcases mem_cons.mp hq with rfl | hq
          · exact fun hunder => hnot (hunder.before hlater'
              (List.getElem?_eq_some_iff.mp he).1)
          · exact hnone hfound q hq
      cases hbroken : e.broken with
      | true =>
          refine hnext ?_
          exact Broken.not_under ⟨e, he, hbroken⟩
      | false =>
          simp only [if_false, Bool.false_eq_true]
          cases hkey : type.keyEq e.key key with
          | true =>
              refine .pure ⟨htables1, fun q datum hfound => ?_, fun hfound => (nomatch hfound)⟩
              cases hfound
              exact ⟨mem_cons_self, e, he, hbroken, hkey, rfl⟩
          | false =>
              refine hnext ?_
              rintro ⟨e', he', -, hkey'⟩
              rw [he] at he'
              cases he'
              rw [hkey] at hkey'
              cases hkey'

/-- What a method finds. -/
structure Finds (type : TableType κ δ P) (i : Nat) (s : State κ δ P) (t : Table) (key : κ)
    (hash : Nat) (found : Option (Nat × δ)) (s' : State κ δ P) (t' : Table) : Prop where
  reorganized : Reorganized type i s t s' t'
  hashed : Hashed type s' i t' key (Laid type s i t key) hash
  present : ∀ p datum, found = some (p, datum) →
    (∃ ps, t'.buckets[hash]? = some ps ∧ p ∈ ps) ∧ Entered type s' key p datum
  absent : found = none → Laid type s i t key → ∀ p ∈ t'.cells, ¬ Under type s' key p

theorem find_spec (h : Sound type s i t) (key : κ) :
    Does i False nothing (find type i key) s fun r s' => ∃ t',
      Finds type i s t key r.1 r.2 s' t' ∧ Resized t t' := by
  refine Does.bind (computeHash_spec h key) fun hash s1 _ hr => ?_
  obtain ⟨t1, hr1, hhashed1, hresized⟩ := hr
  have hget := List.getElem?_eq_getElem hhashed1.lt
  refine Does.bind (bucketRef_spec hr1.sound.owns.table hget).quiet fun chain s2 _ hr => ?_
  obtain ⟨hlater2, rfl, htables2⟩ := hr
  have htable2 : s2.tables[i]? = some t1 := htables2 ▸ hr1.sound.owns.table
  have h2 := hr1.sound.later hlater2 htable2
  refine Does.bind (findLoop_spec fun q hq => h2.owns.bounded q (mem_append_left _
    (mem_cells.mpr ⟨hash, _, hget, hq⟩))).quiet fun found s3 _ hr => ?_
  obtain ⟨hlater3, htables3, hsome, hnone⟩ := hr
  have hhashed := (hhashed1.later hr1.sound.owns hlater2).later h2.owns hlater3
  refine .pure ⟨t1, ⟨hr1.trans (hlater2.trans hlater3) (hr1.sound.reorganized (hlater2.trans hlater3)
    (htables3 ▸ htable2)), hhashed, fun q datum hfound => ?_, fun hfound hlaid q hq hunder => ?_⟩, hresized⟩
  · exact (hsome q datum hfound).imp_left fun hq => ⟨_, hget, hq⟩
  · obtain ⟨ps, hps, hqps⟩ := hhashed.only hlaid q hq hunder
    rw [hget] at hps
    cases hps
    exact hnone hfound q hqps hunder

end MitScheme.WeakHashTable
