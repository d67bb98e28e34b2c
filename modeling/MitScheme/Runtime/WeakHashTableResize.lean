import MitScheme.Runtime.WeakHashTableSteps
import MitScheme.Runtime.WeakHashTableSizes

/-!
# Rehashing and resizing weak tables

While a table is rehashed its entries are counted, whether they are in a bucket or still to be moved.
An entry that is not put into a bucket again is broken. Each entry with an unbroken key goes to the
bucket that the key hashes to, unless a collection comes, which the flag of the table tells.
-/

namespace MitScheme.WeakHashTable

open Programs List
open HashTable (computeShrinkSize incrementSize decrementSize primesLoop_returns shrinkLoop_lt growLoop_returns size_lt_incrementSize
  decrementSize_lt)

variable {κ δ P : Type} {type : TableType κ δ P} {s s' s'' : State κ δ P} {i : Nat}
  {t t' t'' : Table} {kept : Prop} {touched : Nat → Prop} {loose xs : List Nat} {key : κ} {p : Nat}

/-! ## What a table holds -/

/-- The entries in the buckets. -/
def Table.cells (t : Table) : List Nat := t.buckets.flatten

/-- The entries of a table and some that are being moved. -/
structure Owns (type : TableType κ δ P) (s : State κ δ P) (i : Nat) (t : Table) (loose : List Nat) :
    Prop where
  table : s.tables[i]? = some t
  count : t.count = (t.cells ++ loose).length
  nodup : (t.cells ++ loose).Nodup
  bounded : ∀ p ∈ t.cells ++ loose, p < s.entries.length
  positive : 0 < t.buckets.length
  recorded : type.rehashAfterGc = true → i ∈ s.recorded

/-- The entry is not broken, and has a key that is equal to this one. -/
def Under (type : TableType κ δ P) (s : State κ δ P) (key : κ) (p : Nat) : Prop :=
  ∃ e, s.entries[p]? = some e ∧ e.broken = false ∧ type.keyEq e.key key = true

/-- The entry is broken. -/
def Broken (s : State κ δ P) (p : Nat) : Prop := ∃ e, s.entries[p]? = some e ∧ e.broken = true

/-- The table need not be rehashed. -/
def Settled (type : TableType κ δ P) (s : State κ δ P) (i : Nat) : Prop :=
  type.rehashAfterGc = true → s.needsRehash i = false

/-- If the table need not be rehashed, the entries under a key are in the bucket that it hashes to. -/
def Laid (type : TableType κ δ P) (s : State κ δ P) (i : Nat) (t : Table) (key : κ) : Prop :=
  Settled type s i → ∀ p ∈ t.cells, Under type s key p →
    ∃ ps, t.buckets[type.keyHash s.placement key t.buckets.length]? = some ps ∧ p ∈ ps

theorem Owns.moved {loose' : List Nat} (h : Owns type s i t loose)
    (hlater : Later i kept touched s s') (htable : s'.tables[i]? = some t')
    (hcount : t'.count = t.count) (hlength : t'.buckets.length = t.buckets.length)
    (hperm : (t'.cells ++ loose').Perm (t.cells ++ loose)) : Owns type s' i t' loose' :=
  ⟨htable, by rw [hcount, h.count, hperm.length_eq], hperm.nodup_iff.mpr h.nodup,
    fun q hq => hlater.lt (h.bounded q (hperm.mem_iff.mp hq)), hlength ▸ h.positive,
    fun hrehash => hlater.recorded ▸ h.recorded hrehash⟩

theorem Owns.later (h : Owns type s i t loose) (hlater : Later i kept touched s s')
    (htable : s'.tables[i]? = some t) : Owns type s' i t loose :=
  h.moved hlater htable rfl rfl (List.Perm.refl _)

theorem Under.before (h : Under type s' key p) (hlater : Later i kept touched s s')
    (hp : p < s.entries.length) : Under type s key p := by
  obtain ⟨e', he', hbroken, hkey⟩ := h
  obtain ⟨e1, he1, haged⟩ := hlater.entries p _ (List.getElem?_eq_getElem hp)
  rw [he1] at he'
  cases he'
  refine ⟨_, List.getElem?_eq_getElem hp, ?_, haged.key ▸ hkey⟩
  by_contra hb
  rw [haged.broken (by simpa using hb)] at hbroken
  cases hbroken

theorem Broken.later (h : Broken s p) (hlater : Later i kept touched s s') : Broken s' p := by
  obtain ⟨e, he, hb⟩ := h
  obtain ⟨e', he', haged⟩ := hlater.entries p e he
  exact ⟨e', he', haged.broken hb⟩

theorem Broken.not_under (h : Broken s p) : ¬ Under type s key p := by
  obtain ⟨e, he, hb⟩ := h
  rintro ⟨e', he', hb', -⟩
  rw [he] at he'
  cases he'
  rw [hb] at hb'
  cases hb'

theorem Later.settled (h : Later i True touched s s') (hsettled : Settled type s' i) :
    Settled type s i := fun hrehash => (h.still i (fun _ => trivial) (hsettled hrehash)).1

theorem Later.keyHash (h : Later i True touched s s')
    (hrecorded : type.rehashAfterGc = true → i ∈ s.recorded) (hsettled : Settled type s' i)
    (key : κ) (modulus : Nat) :
    type.keyHash s'.placement key modulus = type.keyHash s.placement key modulus := by
  cases hrehash : type.rehashAfterGc with
  | true => rw [(h.still i (fun _ => trivial) (hsettled hrehash)).2 (hrecorded hrehash)]
  | false => exact type.keyHash_fixed hrehash _ _ key modulus

theorem Laid.later (h : Laid type s i t key) (howns : Owns type s i t loose)
    (hlater : Later i True touched s s') : Laid type s' i t key := by
  intro hsettled p hp hunder
  rw [hlater.keyHash howns.recorded hsettled]
  exact h (hlater.settled hsettled) p hp
    (hunder.before hlater (howns.bounded p (mem_append_left _ hp)))

theorem modify_split {α : Type} {ls : List α} {k : Nat} (h : k < ls.length) :
    ∃ l b r, ls = l ++ b :: r ∧ l.length = k ∧ ∀ f : α → α, ls.modify k f = l ++ f b :: r := by
  refine ⟨ls.take k, ls[k], ls.drop (k + 1), ?_, length_take_of_le h.le, fun f => ?_⟩
  · rw [getElem_cons_drop, take_append_drop]
  · rw [modify_eq_take_cons_drop h]

theorem mem_cells {q : Nat} : q ∈ t.cells ↔ ∃ (n : Nat) (ps : List Nat), t.buckets[n]? = some ps ∧ q ∈ ps := by
  rw [Table.cells, mem_flatten]
  constructor
  · rintro ⟨ps, hps, hq⟩
    obtain ⟨n, hn⟩ := mem_iff_getElem?.mp hps
    exact ⟨n, ps, hn, hq⟩
  · rintro ⟨n, ps, hn, hq⟩
    exact ⟨ps, mem_of_getElem? hn, hq⟩

/-! ## Rehashing -/

/-- What the method `rehash!` makes of some loose entries and those that are in the buckets. -/
structure Rehashed (type : TableType κ δ P) (i : Nat) (s : State κ δ P) (t : Table)
    (xs loose : List Nat) (s' : State κ δ P) (t' : Table) : Prop where
  owns : Owns type s' i t' loose
  table : t' = { t with buckets := t'.buckets, count := t'.count }
  buckets : t'.buckets.length = t.buckets.length
  sub : ∀ p ∈ t'.cells, p ∈ xs ++ t.cells
  lost : ∀ p ∈ xs ++ t.cells, p ∉ t'.cells → Broken s' p
  laid : ∀ key, Laid type s i t key → Laid type s' i t' key

@[simp] theorem relink_length (t : Table) (hash : Nat) (f : List Nat → List Nat) :
    (t.relink hash f).buckets.length = t.buckets.length := length_modify ..

theorem cells_push {hash : Nat} (h : hash < t.buckets.length) (p : Nat) :
    (t.relink hash (p :: ·)).cells.Perm (p :: t.cells) := by
  obtain ⟨l, b, r, hsplit, -, hmodify⟩ := modify_split h
  rw [Table.cells, Table.relink, hmodify, Table.cells, hsplit, flatten_append,
    flatten_append, flatten_cons]
  exact perm_middle

theorem mem_relink {hash n q : Nat} {ps : List Nat} {f : List Nat → List Nat}
    (hf : ∀ ps, q ∈ ps → q ∈ f ps) (hps : t.buckets[n]? = some ps) (hq : q ∈ ps) :
    ∃ ps', (t.relink hash f).buckets[n]? = some ps' ∧ q ∈ ps' := by
  by_cases hn : hash = n
  · subst hn
    refine ⟨f ps, ?_, hf ps hq⟩
    change (t.buckets.modify hash f)[hash]? = _
    rw [List.getElem?_modify_eq, hps]
    rfl
  · refine ⟨ps, ?_, hq⟩
    change (t.buckets.modify hash f)[n]? = _
    rw [List.getElem?_modify_ne f _ hn, hps]

theorem rehashLoop_spec (h : Owns type s i t (xs ++ loose)) :
    Does i True nothing (rehashLoop type i t.buckets.length xs) s fun _ s' =>
      ∃ t', Rehashed type i s t xs loose s' t' := by
  induction xs generalizing s t with
  | nil =>
      exact .pure ⟨t, h, rfl, rfl, fun p hp => hp, fun p hp hlost => absurd hp hlost,
        fun _ hlaid => hlaid⟩
  | cons p xs ih =>
      have hp : p < s.entries.length :=
        h.bounded p (mem_append_right _ (mem_append_left _ mem_cons_self))
      refine Does.bind (entryKeyAndDatum_spec hp) fun r s1 hlater1 hr => ?_
      obtain ⟨e, he, rfl, htables1⟩ := hr
      have h1 := h.later hlater1 (htables1 ▸ h.table)
      cases hbroken : e.broken with
      | false =>
          refine Does.bind (keyHash_spec e.key t.buckets.length) fun hash s2 hlater2 hr => ?_
          obtain ⟨htables2, rfl⟩ := hr
          have hlt := type.keyHash_lt s2.placement e.key h.positive
          have h2 := h1.later hlater2 (htables2 ▸ h1.table)
          refine Does.bind (bucketModify_spec h2.table hlt (p :: ·)) fun _ s3 hlater3 htable3 => ?_
          have hlater := (hlater1.trans hlater2).trans hlater3
          have hperm := cells_push hlt p
          have h3 := h.moved hlater htable3 rfl (relink_length ..)
            ((hperm.append_right (xs ++ loose)).trans perm_middle.symm)
          have hnext := ih h3
          rw [relink_length] at hnext
          refine hnext.mono fun _ s' hlater' hr => ?_
          obtain ⟨t', hr⟩ := hr
          have hmem : ∀ q, q ∈ xs ++ (t.relink _ (p :: ·)).cells ↔ q ∈ p :: xs ++ t.cells :=
            fun q => ((hperm.append_left xs).trans perm_middle).mem_iff
          refine ⟨t', hr.owns, hr.table, hr.buckets.trans (relink_length ..),
            fun q hq => (hmem q).mp (hr.sub q hq), fun q hq => hr.lost q ((hmem q).mpr hq),
            fun key hlaid => hr.laid key fun hsettled q hq hunder => ?_⟩
          rw [relink_length]
          rcases mem_cons.mp (hperm.mem_iff.mp hq) with rfl | hq
          · -- the entry has just been put there
            obtain ⟨e3, he3, -, hkey⟩ := hunder
            obtain ⟨e3', he3', haged⟩ := (hlater2.trans hlater3).entries q e he
            rw [he3] at he3'
            cases he3'
            rw [haged.key] at hkey
            rw [← type.keyHash_congr s3.placement t.buckets.length hkey,
              hlater3.keyHash h2.recorded hsettled]
            refine ⟨q :: t.buckets[type.keyHash s2.placement e.key t.buckets.length], ?_,
              mem_cons_self⟩
            change (t.buckets.modify _ _)[_]? = _
            rw [List.getElem?_modify_eq, List.getElem?_eq_getElem hlt]
            rfl
          · obtain ⟨ps, hps, hqps⟩ := hlaid.later h hlater hsettled q hq hunder
            exact mem_relink (fun _ => mem_cons_of_mem p) hps hqps
      | true =>
          refine Does.bind (writeTable_spec h1.table _) fun _ s2 hlater2 htable2 => ?_
          have hlater := hlater1.trans hlater2
          have h2 : Owns type s2 i { t with count := t.count - 1 } (xs ++ loose) := by
            have hsub : (t.cells ++ (xs ++ loose)).Sublist (t.cells ++ (p :: xs ++ loose)) :=
              (sublist_cons_self p (xs ++ loose)).append_left t.cells
            refine ⟨htable2, ?_, h.nodup.sublist hsub, fun q hq => hlater.lt (h.bounded q (hsub.subset hq)),
              h.positive, fun hrehash => hlater.recorded ▸ h.recorded hrehash⟩
            rw [h.count]
            change _ = ((t.cells ++ (xs ++ loose)).length : Int)
            simp only [length_append, length_cons]
            omega
          refine (ih h2).mono fun _ s' hlater' hr => ?_
          obtain ⟨t', hr⟩ := hr
          refine ⟨t', hr.owns, hr.table, hr.buckets,
            fun q hq => mem_cons_of_mem p (hr.sub q hq), fun q hq hlost => ?_,
            fun key hlaid => hr.laid key (hlaid.later h hlater)⟩
          rcases mem_cons.mp hq with rfl | hq
          · exact Broken.later (Broken.later ⟨e, he, hbroken⟩ hlater2) hlater'
          · exact hr.lost q hq hlost

theorem Rehashed.trans {ys : List Nat} (h : Rehashed type i s t xs (ys ++ loose) s' t')
    (hlater : Later i kept touched s' s'') (h' : Rehashed type i s' t' ys loose s'' t'') :
    Rehashed type i s t (xs ++ ys) loose s'' t'' := by
  refine ⟨h'.owns, ?_, h'.buckets.trans h.buckets, fun q hq => ?_, fun q hq hlost => ?_,
    fun key hlaid => h'.laid key (h.laid key hlaid)⟩
  · rw [h'.table, h.table]
  · rw [append_assoc, mem_append]
    rcases mem_append.mp (h'.sub q hq) with hq | hq
    · exact .inr (mem_append_left _ hq)
    · have := mem_append.mp (h.sub q hq)
      exact this.imp_right (mem_append_right ys)
  · by_cases hys : q ∈ ys ++ t'.cells
    · exact h'.lost q hys hlost
    · have hxs : q ∈ xs ++ t.cells := by
        simp only [mem_append] at hq hys ⊢
        tauto
      exact (h.lost q hxs fun h => hys (mem_append_right ys h)).later hlater

theorem rehash_spec (h : Owns type s i t (xs ++ loose)) :
    Does i True nothing (rehash type i xs) s fun _ s' =>
      ∃ t', Rehashed type i s t xs loose s' t' := by
  refine Does.bind (readTable_spec h.table) fun r s1 hlater1 hr => ?_
  obtain ⟨rfl, htables1, -⟩ := hr
  refine (rehashLoop_spec (h.later hlater1 (htables1 ▸ h.table))).mono fun _ s' _ hr => ?_
  obtain ⟨t', hr⟩ := hr
  exact ⟨t', hr.owns, hr.table, hr.buckets, hr.sub, hr.lost,
    fun key hlaid => hr.laid key (hlaid.later h hlater1)⟩

theorem rehashBuckets_spec {xss : List (List Nat)} (h : Owns type s i t xss.flatten) :
    Does i True nothing (rehashBuckets type i xss) s fun _ s' =>
      ∃ t', Rehashed type i s t xss.flatten [] s' t' := by
  induction xss generalizing s t with
  | nil =>
      exact .pure ⟨t, h, rfl, rfl, fun p hp => hp, fun p hp hlost => absurd hp hlost,
        fun _ hlaid => hlaid⟩
  | cons xs xss ih =>
      refine Does.bind (rehash_spec h) fun _ s1 _ hr => ?_
      obtain ⟨t1, hr1⟩ := hr
      refine (ih hr1.owns).mono fun _ s2 hlater2 hr => ?_
      obtain ⟨t2, hr2⟩ := hr
      have hr1' : Rehashed type i s t xs (xss.flatten ++ []) s1 t1 :=
        (append_nil xss.flatten).symm ▸ hr1
      exact ⟨t2, hr1'.trans hlater2 hr2⟩

/-! ## Another number of buckets -/

theorem resetShrinkSize_spec (h : s.tables[i]? = some t) :
    Does i kept touched (resetShrinkSize i) s fun _ s' => s'.tables[i]? = some
      { t with shrinkSize := computeShrinkSize t.rehashSize t.growSize } := by
  refine Does.bind (readTable_spec h) fun r s1 _ hr => ?_
  obtain ⟨rfl, htables1, -⟩ := hr
  exact writeTable_spec (htables1 ▸ h) _

theorem resetTable_spec (h : s.tables[i]? = some t) (hprimes : 0 < t.primes) :
    Does i kept touched (resetTable i) s fun _ s' => ∃ n : Nat, 0 < n ∧ t.rehashThreshold t.growSize ≤ n
      ∧ s'.tables[i]? = some { t with
        shrinkSize := computeShrinkSize t.rehashSize t.growSize, primes := n,
        buckets := List.replicate n [] } := by
  refine Does.bind (resetShrinkSize_spec h) fun _ s1 _ htable1 => ?_
  refine Does.bind (readTable_spec htable1) fun r s2 _ hr => ?_
  obtain ⟨rfl, htables2, -⟩ := hr
  obtain ⟨n, hn, hpos⟩ := primesLoop_returns (t.rehashThreshold t.growSize)
    ((t.rehashThreshold t.growSize).toNat + 1)
    (if t.rehashThreshold t.growSize < t.primes then 2 else t.primes) (by split <;> omega)
    (by omega) (by omega)
  refine Does.bind (lift_spec hn) fun r s3 _ hr => ?_
  obtain ⟨rfl, rfl⟩ := hr
  refine Does.bind (writeTable_spec (htables2 ▸ htable1) _) fun _ s4 _ htable4 => ?_
  exact (writeTable_spec htable4 _).mono fun _ s5 _ htable5 =>
    ⟨n, hpos, primesLoop_ge hn, htable5⟩

/-- What is known of a table between the accesses to it. -/
structure Sound (type : TableType κ δ P) (s : State κ δ P) (i : Nat) (t : Table) : Prop where
  owns : Owns type s i t []
  primes : t.primes = t.buckets.length
  shrink : t.shrinkSize = computeShrinkSize t.rehashSize t.growSize

/-- A procedure leaves a table with the same entries, but for broken ones. -/
structure Reorganized (type : TableType κ δ P) (i : Nat) (s : State κ δ P) (t : Table)
    (s' : State κ δ P) (t' : Table) : Prop where
  sound : Sound type s' i t'
  sub : ∀ p ∈ t'.cells, p ∈ t.cells
  lost : ∀ p ∈ t.cells, p ∉ t'.cells → Broken s' p
  laid : ∀ key, Laid type s i t key → Laid type s' i t' key

theorem Sound.later (h : Sound type s i t) (hlater : Later i kept touched s s')
    (htable : s'.tables[i]? = some t) : Sound type s' i t :=
  ⟨h.owns.later hlater htable, h.primes, h.shrink⟩

theorem Sound.primes_pos (h : Sound type s i t) : 0 < t.primes := h.primes ▸ h.owns.positive

theorem Sound.count_nonneg (h : Sound type s i t) : 0 ≤ t.count := by
  rw [h.owns.count]
  exact Int.natCast_nonneg _

theorem Sound.reorganized (h : Sound type s i t) (hlater : Later i True touched s s')
    (htable : s'.tables[i]? = some t) : Reorganized type i s t s' t :=
  ⟨h.later hlater htable, fun _ hp => hp, fun _ hp hlost => absurd hp hlost,
    fun _ hlaid => hlaid.later h.owns hlater⟩

theorem Reorganized.trans (h : Reorganized type i s t s' t') (hlater : Later i kept touched s' s'')
    (h' : Reorganized type i s' t' s'' t'') : Reorganized type i s t s'' t'' := by
  refine ⟨h'.sound, fun p hp => h.sub p (h'.sub p hp), fun p hp hlost => ?_,
    fun key hlaid => h'.laid key (h.laid key hlaid)⟩
  by_cases hp' : p ∈ t'.cells
  · exact h'.lost p hp' hlost
  · exact (h.lost p hp hp').later hlater

theorem Reorganized.count_le (h : Reorganized type i s t s' t') (howns : Owns type s i t []) : t'.count ≤ t.count := by
  have hcount := howns.count
  have hcount' := h.sound.owns.count
  have hnodup' := h.sound.owns.nodup
  rw [append_nil] at hcount hcount' hnodup'
  rw [hcount, hcount']
  exact Int.ofNat_le.mpr (subperm_of_subset hnodup' h.sub).length_le

theorem Reorganized.count_eq (h : Reorganized type i s t s' t') (howns : Owns type s i t [])
    (hunbroken : ∀ p ∈ t.cells, ¬ Broken s' p) : t'.count = t.count := by
  have hkept : ∀ p ∈ t.cells, p ∈ t'.cells := fun p hp => by
    by_contra hlost
    exact hunbroken p hp (h.lost p hp hlost)
  have hcount := howns.count
  have hcount' := h.sound.owns.count
  have hnodup := howns.nodup
  rw [append_nil] at hcount hcount' hnodup
  refine le_antisymm (h.count_le howns) ?_
  rw [hcount, hcount']
  exact Int.ofNat_le.mpr (subperm_of_subset hnodup hkept).length_le

variable {m : M κ δ P Unit} {size : Int}

theorem newSizeThen_spec (h : Owns type s i t []) (hprimes : 0 < t.primes)
    (hm : ∀ s' t', Sound type s' i t' → t'.growSize = size →
      Does i False nothing m s' fun _ s'' => ∃ t'', Reorganized type i s' t' s'' t'' ∧ Shrunk t' t'') :
    Does i False nothing (newSizeThen type m i size) s fun _ s' => ∃ t', Reorganized type i s t s' t'
      ∧ (∀ key, Laid type s' i t' key) ∧ ∃ t1, Regrown t size t1 ∧ Shrunk t1 t' := by
  refine Does.bind (writeTable_spec h.table _) fun _ s1 hlater1 htable1 => ?_
  refine Does.bind (readTable_spec htable1) fun r s2 hlater2 hr => ?_
  obtain ⟨rfl, htables2, -⟩ := hr
  refine Does.bind (resetTable_spec (t := { t with growSize := size }) (htables2 ▸ htable1) hprimes)
    fun _ s3 hlater3 hr => ?_
  obtain ⟨n, hn, hroom, htable3⟩ := hr
  refine Does.bind setTableNeedsRehash_spec fun _ s4 hlater4 hr => ?_
  have hlater := ((hlater1.trans hlater2).trans hlater3).trans hlater4
  -- the buckets are empty, and all entries are loose
  have hnil : ∀ t' : Table, t'.buckets = List.replicate n [] → t'.cells = [] := by
    intro t' ht'
    rw [Table.cells, ht']
    simp
  have h4 : Owns type s4 i { t with
      growSize := size, shrinkSize := computeShrinkSize t.rehashSize size, primes := n,
      buckets := List.replicate n [] } t.cells := by
    refine ⟨hr.2 ▸ htable3, ?_, ?_, fun q hq => hlater.lt (h.bounded q ?_),
      length_replicate.symm ▸ hn, fun hrehash => hlater.recorded ▸ h.recorded hrehash⟩
    · rw [hnil _ rfl]
      have := h.count
      rwa [append_nil] at this
    · rw [hnil _ rfl]
      exact h.nodup.sublist (sublist_append_left ..)
    · rw [hnil _ rfl] at hq
      exact mem_append_left _ hq
  refine Does.bind (rehashBuckets_spec (show Owns type s4 i _ t.buckets.flatten from h4)).quiet fun _ s5 _ hr => ?_
  obtain ⟨hlater5, t5, hr5⟩ := hr
  have hbuckets : t5.buckets.length = n := hr5.buckets.trans length_replicate
  have hsound : Sound type s5 i t5 := ⟨hr5.owns, by rw [hbuckets, hr5.table], by rw [hr5.table]⟩
  have hlaid : ∀ key, Laid type s5 i t5 key := fun key => hr5.laid key fun _ p hp => by
    rw [hnil _ rfl] at hp
    cases hp
  refine (hm s5 t5 hsound (by rw [hr5.table])).mono fun _ s6 hlater6 hr => ?_
  obtain ⟨t6, hr6, hshrunk⟩ := hr
  have hr5' : Reorganized type i s t s5 t5 := by
    refine ⟨hsound, fun p hp => ?_, fun p hp hlost => hr5.lost p (mem_append_left _ hp) hlost,
      fun key _ => hlaid key⟩
    rcases mem_append.mp (hr5.sub p hp) with hp | hp
    · exact hp
    · rw [hnil _ rfl] at hp
      cases hp
  have hregrown : Regrown t size t5 := by
    refine ⟨?_, hbuckets.symm ▸ hroom, hr5'.count_le h⟩
    rw [hr5.table]
  exact ⟨t6, hr5'.trans hlater6 hr6, fun key => hr6.laid key (hlaid key), t5, hregrown, hshrunk⟩

theorem maybeShrinkTable_spec (fuel : Nat) (h : Sound type s i t) (hfuel : t.growSize.toNat < fuel) :
    Does i False nothing (maybeShrinkTable type i fuel) s fun _ s' => ∃ t',
      Reorganized type i s t s' t' ∧ Shrunk t t' := by
  induction fuel generalizing s t with
  | zero => omega
  | succ fuel ih =>
      refine Does.bind (readTable_spec h.owns.table).quiet fun r s1 _ hr => ?_
      obtain ⟨hlater1, rfl, htables1, -⟩ := hr
      have hr1 := h.reorganized hlater1 (htables1 ▸ h.owns.table)
      by_cases hshrink : t.count < t.shrinkSize ∧ t.initialSizeInEffect = false
      · rw [if_pos hshrink]
        have hlt := hshrink.1
        rw [h.shrink] at hlt
        obtain ⟨size, hsize, hless, hpos⟩ := shrinkLoop_lt h.count_nonneg hlt
        refine Does.bind (lift_spec hsize) fun r s2 _ hr => ?_
        obtain ⟨rfl, rfl⟩ := hr
        refine (newSizeThen_spec hr1.sound.owns hr1.sound.primes_pos
          fun s' t' hsound hsize' => ih hsound (by omega)).mono fun _ s3 hlater3 hr => ?_
        obtain ⟨t3, hr3, -, t2, hregrown, hshrunk⟩ := hr
        refine ⟨t3, hr1.trans hlater3 hr3, hshrunk.rehashSize.trans hregrown.rehashSize,
          hshrunk.initial.trans hregrown.initial, fun hinitial => ?_, fun hfits => hshrunk.sized (hregrown.fits ?_)⟩
        · rw [hshrink.2] at hinitial
          cases hinitial
        · exact shrinkLoop_ge h.count_nonneg hfits.count hsize
      · rw [if_neg hshrink]
        refine .pure ⟨t, hr1, rfl, rfl, fun _ => rfl, fun hfits => ⟨hfits, fun hinitial => ?_⟩⟩
        by_contra hlt
        exact hshrink ⟨not_le.mp hlt, hinitial⟩

theorem maybeShrink_spec (h : Sound type s i t) :
    Does i False nothing (maybeShrink type i) s fun _ s' => ∃ t', Reorganized type i s t s' t' ∧ Shrunk t t' := by
  have hmaybe := maybeShrinkTable_spec (t.growSize.toNat + 1) h (Nat.lt_succ_self _)
  have heq : maybeShrink type i s = maybeShrinkTable type i (t.growSize.toNat + 1) s := by
    rw [maybeShrink, h.owns.table]
    rfl
  obtain ⟨a, s', hm, hq⟩ := hmaybe
  exact ⟨a, s', heq.trans hm, hq⟩

theorem newSize_spec (h : Owns type s i t []) (hprimes : 0 < t.primes) (size : Int) :
    Does i False nothing (newSize type i size) s fun _ s' => ∃ t', Reorganized type i s t s' t'
      ∧ (∀ key, Laid type s' i t' key) ∧ ∃ t1, Regrown t size t1 ∧ Shrunk t1 t' :=
  newSizeThen_spec h hprimes fun _ _ hsound _ => maybeShrink_spec hsound

/-- A table that has one entry more than before. -/
structure Crowded (t : Table) : Prop where
  count : t.count ≤ t.growSize + 1
  room : t.rehashThreshold t.growSize ≤ t.buckets.length
  shrink : t.initialSizeInEffect = false → t.shrinkSize ≤ t.count
  accepted : Accepted t.rehashSize

theorem Crowded.grown {t1 t2 : Table} (h : Crowded t) (hlt : t.growSize < t.count) (hnonneg : 0 ≤ t.count)
    (hregrown : Regrown t (incrementSize t.rehashSize t.growSize) t1) (hshrunk : Shrunk t1 t2)
    (hcount : t.initialSizeInEffect = true → t2.count = t.count) : Sized { t2 with initialSizeInEffect := false } := by
  have hnext := size_lt_incrementSize t.rehashSize t.growSize
  have hone := h.count
  have hsized := hshrunk.sized (hregrown.fits (by omega))
  refine ⟨⟨hsized.count, hsized.room⟩, fun _ => ?_⟩
  dsimp only
  cases hinitial : t.initialSizeInEffect with
  | false => exact hsized.shrink ((hshrunk.initial.trans hregrown.initial).trans hinitial)
  | true =>
      rw [hcount hinitial, hshrunk.same (hregrown.initial.trans hinitial), hregrown.table]
      dsimp only
      rw [computeShrinkSize]
      have hback := decrementSize_incrementSize h.accepted t.growSize
      have hless := decrementSize_lt t.rehashSize
        (decrementSize t.rehashSize (incrementSize t.rehashSize t.growSize))
      split <;> omega

theorem maybeGrowTable_spec (h : Sound type s i t) :
    Does i False nothing (maybeGrowTable type i) s fun _ s' => ∃ t', Reorganized type i s t s' t'
      ∧ t'.rehashSize = t.rehashSize ∧ (Crowded t → (t.initialSizeInEffect = true → t.growSize < t.count →
        ∀ p ∈ t.cells, ¬ Broken s' p) → Sized t') := by
  refine Does.bind (readTable_spec h.owns.table).quiet fun r s1 _ hr => ?_
  obtain ⟨hlater1, rfl, htables1, -⟩ := hr
  have hr1 := h.reorganized hlater1 (htables1 ▸ h.owns.table)
  by_cases hgrow : t.growSize < t.count
  · rw [if_pos hgrow]
    obtain ⟨size, hsize⟩ := growLoop_returns t.rehashSize t.count _ t.growSize (Nat.lt_succ_self _)
    refine Does.bind (lift_spec hsize) fun r s2 _ hr => ?_
    obtain ⟨rfl, rfl⟩ := hr
    refine Does.bind (newSize_spec hr1.sound.owns hr1.sound.primes_pos size) fun _ s3 hlater3 hr => ?_
    obtain ⟨t3, hr3, -, t2, hregrown, hshrunk⟩ := hr
    have hr3' := hr1.trans hlater3 hr3
    refine (writeTable_spec hr3.sound.owns.table _).quiet.mono fun _ s4 _ hr => ?_
    obtain ⟨hlater4, htable4⟩ := hr
    have howns := hr3.sound.owns.moved hlater4 htable4 rfl rfl (List.Perm.refl _)
    have hr4 : Reorganized type i s t s4 { t3 with initialSizeInEffect := false } :=
      ⟨⟨howns, hr3.sound.primes, hr3.sound.shrink⟩, hr3'.sub,
        fun p hp hlost => (hr3'.lost p hp hlost).later hlater4,
        fun key hlaid => (hr3'.laid key hlaid).later hr3.sound.owns hlater4⟩
    refine ⟨_, hr4, hshrunk.rehashSize.trans hregrown.rehashSize, fun hcrowded hunbroken => ?_⟩
    rw [growLoop_once hgrow hcrowded.count hsize] at hregrown
    refine hcrowded.grown hgrow h.count_nonneg hregrown hshrunk fun hinitial => ?_
    exact hr4.count_eq h.owns (hunbroken hinitial hgrow)
  · rw [if_neg hgrow]
    refine .pure ⟨t, hr1, rfl, fun hcrowded _ => ⟨⟨not_lt.mp hgrow, hcrowded.room⟩, hcrowded.shrink⟩⟩

end MitScheme.WeakHashTable
