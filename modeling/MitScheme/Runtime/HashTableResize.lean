import MitScheme.Runtime.HashTableRehash

/-!
# Growing and shrinking

The loops that look for a size end, a table that gets another size keeps its pairs, and shrinking comes to
an end since each new size is smaller.
-/

namespace MitScheme.HashTable

open Programs Chains List

/-! ## Sizes -/

theorem size_lt_incrementSize (r : RehashSize) (size : Int) : size < incrementSize r size := by
  cases r with
  | integer n h =>
      rw [incrementSize]
      omega
  | real times dividedBy =>
      rw [incrementSize]
      split <;> omega

theorem decrementSize_lt (r : RehashSize) (size : Int) : decrementSize r size < size := by
  cases r with
  | integer n h =>
      rw [decrementSize]
      omega
  | real times dividedBy =>
      rw [decrementSize]
      split <;> omega

theorem growLoop_returns (r : RehashSize) (count : Int) (fuel : Nat) (size : Int)
    (hfuel : (count - size).toNat < fuel) : ∃ size', growLoop r count fuel size = some size' := by
  induction fuel generalizing size with
  | zero => omega
  | succ fuel ih =>
      rw [growLoop]
      split
      · have := size_lt_incrementSize r size
        exact ih _ (by omega)
      · exact ⟨size, rfl⟩

theorem shrinkLoop_returns (r : RehashSize) (count : Int) (fuel : Nat) (size : Int)
    (hfuel : size.toNat < fuel) :
    ∃ size', shrinkLoop r count fuel size = some size' ∧ (size' ≤ size ∨ size' = minimumSize) := by
  induction fuel generalizing size with
  | zero => omega
  | succ fuel ih =>
      rw [shrinkLoop]
      by_cases hmin : size ≤ minimumSize
      · rw [if_pos hmin]
        exact ⟨_, rfl, .inr rfl⟩
      · rw [if_neg hmin]
        rw [minimumSize] at hmin
        split
        · have := decrementSize_lt r size
          obtain ⟨size', hsize', hle⟩ := ih (decrementSize r size) (by omega)
          exact ⟨size', hsize', hle.imp_left fun h => by omega⟩
        · exact ⟨size, rfl, .inl (Int.le_refl _)⟩

theorem shrinkLoop_lt {r : RehashSize} {count size : Int} (hcount : 0 ≤ count)
    (hlt : count < computeShrinkSize r size) :
    ∃ size', shrinkLoop r count (size.toNat + 1) size = some size' ∧ size' < size ∧ 0 < size := by
  have hmin : ¬ size ≤ minimumSize := by
    intro hle
    rw [computeShrinkSize] at hlt
    omega
  have hpos : minimumSize = 4 := rfl
  have := decrementSize_lt r size
  obtain ⟨size', hsize', hle⟩ :=
    shrinkLoop_returns r count size.toNat (decrementSize r size) (by omega)
  refine ⟨size', ?_, by omega, by omega⟩
  rw [shrinkLoop, if_neg hmin, if_pos hlt, hsize']

theorem lt_nextPrime (p : Nat) : p < nextPrime p := by
  rw [nextPrime]
  cases h : (List.range' (p + 1) p).find? isPrime with
  | none => exact Nat.lt_succ_self p
  | some q =>
      have := (mem_range'_1.mp (List.mem_of_find?_eq_some h)).1
      exact this

theorem primesLoop_returns (size : Int) (fuel primes : Nat) (hpos : 0 < primes)
    (hfuel : size.toNat < fuel + primes) (hfuel' : 0 < fuel) :
    ∃ p, primesLoop size fuel primes = some p ∧ 0 < p := by
  induction fuel generalizing primes with
  | zero => omega
  | succ fuel ih =>
      rw [primesLoop]
      split
      · exact ⟨primes, rfl, hpos⟩
      · have := lt_nextPrime primes
        exact ih _ (by omega) (by omega) (by omega)

/-! ## Another number of buckets -/

variable {κ δ P : Type} {type : TableType κ P} {kept : Nat → Prop} {s s' s'' : State κ δ P} {i : Nat}
  {t t' t'' : Table} {chains chains' chains'' : List (Chain κ δ)} {xs loose : Chain κ δ} {p : Link}

theorem resetShrinkSize_spec (h : s.tables[i]? = some t) :
    Does kept (resetShrinkSize i) s fun _ s' => ∃ tables gc,
      s' = { s with tables := tables, gc := gc }
        ∧ Sets s.tables i { t with shrinkSize := computeShrinkSize t.rehashSize t.growSize } tables := by
  refine Does.bind (readTable_spec h) fun r s1 _ hr => ?_
  obtain ⟨rfl, gc1, rfl, -⟩ := hr
  exact writeTable_spec (s := { s with gc := gc1 }) h _

theorem resetTable_spec (h : s.tables[i]? = some t) (hprimes : 0 < t.primes) :
    Does kept (resetTable i) s fun _ s' => ∃ n tables gc, 0 < n
      ∧ s' = { s with tables := tables, gc := gc } ∧ Sets s.tables i { t with
        shrinkSize := computeShrinkSize t.rehashSize t.growSize, primes := n,
        buckets := List.replicate n none } tables := by
  refine Does.bind (resetShrinkSize_spec h) fun _ s1 _ hr => ?_
  obtain ⟨tables1, gc1, rfl, hsets1⟩ := hr
  refine Does.bind (readTable_spec (s := { s with tables := tables1, gc := gc1 }) hsets1.get)
    fun r s2 _ hr => ?_
  obtain ⟨rfl, gc2, rfl, -⟩ := hr
  obtain ⟨n, hn, hpos⟩ := primesLoop_returns (t.rehashThreshold t.growSize)
    ((t.rehashThreshold t.growSize).toNat + 1)
    (if t.rehashThreshold t.growSize < t.primes then 2 else t.primes) (by split <;> omega)
    (by omega) (by omega)
  refine Does.bind (lift_spec hn) fun r s3 _ hr => ?_
  obtain ⟨rfl, rfl⟩ := hr
  refine Does.bind (writeTable_spec (s := { s with tables := tables1, gc := gc2 }) hsets1.get _)
    fun _ s4 _ hr => ?_
  obtain ⟨tables4, gc4, rfl, hsets4⟩ := hr
  refine (writeTable_spec (s := { s with tables := tables4, gc := gc4 }) hsets4.get _).mono
    fun _ s5 _ hr => ?_
  obtain ⟨tables5, gc5, rfl, hsets5⟩ := hr
  exact ⟨n, tables5, gc5, hpos, rfl, (hsets1.trans hsets4).trans hsets5⟩

/-- What is known of a table between the accesses to it. -/
structure Good (type : TableType κ P) (s : State κ δ P) (i : Nat) (t : Table)
    (chains : List (Chain κ δ)) : Prop where
  owns : Owns s i t chains []
  positive : 0 < t.buckets.length
  primes : t.primes = t.buckets.length
  shrink : t.shrinkSize = computeShrinkSize t.rehashSize t.growSize
  recorded : type.rehashAfterGc = true → i ∈ s.gc.recorded
  laid : Laid type s.gc i chains

/-- A procedure leaves a table with the same pairs, and does not touch another one. -/
structure Reorganized (type : TableType κ P) (i : Nat) (s : State κ δ P) (t : Table)
    (chains : List (Chain κ δ)) (s' : State κ δ P) (t' : Table) (chains' : List (Chain κ δ)) :
    Prop where
  good : Good type s' i t' chains'
  perm : chains'.flatten.Perm chains.flatten
  count : t'.count = t.count
  touches : Touches i (owned [] chains) s s'
  idle : s.gc.schedule = [] → s.gc.needsRehash i = false → s'.gc.needsRehash i = false

theorem Good.later (h : Good type s i t chains) {gc : Collector P} (hlater : Later kept s.gc gc)
    (hi : kept i) : Good type { s with gc := gc } i t chains :=
  ⟨h.owns.later gc, h.positive, h.primes, h.shrink, fun hrehash => hlater.recorded ▸ h.recorded hrehash,
    h.laid.later hlater hi h.recorded⟩

theorem Good.reorganized (h : Good type s i t chains) {gc : Collector P}
    (hlater : Later kept s.gc gc) (hi : kept i) :
    Reorganized type i s t chains { s with gc := gc } t chains :=
  ⟨h.later hlater hi, .refl _, rfl, (Touches.refl _ _ s).later gc,
    fun hgc hflag => (hlater.idle hgc i hi).trans hflag⟩

theorem Reorganized.trans {kept : Nat → Prop} (h : Reorganized type i s t chains s' t' chains')
    (hlater : Later kept s.gc s'.gc) (h' : Reorganized type i s' t' chains' s'' t'' chains'') :
    Reorganized type i s t chains s'' t'' chains'' := by
  refine ⟨h'.good, h'.perm.trans h.perm, h'.count.trans h.count, h.touches.trans h'.touches
    fun a ha => .inl ?_, fun hgc hflag => h'.idle (hlater.nil hgc) (h.idle hgc hflag)⟩
  exact (h.perm.map Prod.fst).mem_iff.mp ha

variable {m : M κ δ P Unit} {size : Int}

theorem newSizeThen_spec (h : Owns s i t chains []) (hprimes : 0 < t.primes)
    (hrecorded : type.rehashAfterGc = true → i ∈ s.gc.recorded)
    (hm : ∀ s' t' chains', Good type s' i t' chains' → t'.growSize = size → t'.count = t.count →
      Does (fun j => j ≠ i) m s' fun _ s'' => ∃ t'' chains'',
        Reorganized type i s' t' chains' s'' t'' chains'') :
    Does (fun j => j ≠ i) (newSizeThen type m i size) s fun _ s' => ∃ t' chains',
      Reorganized type i s t chains s' t' chains' := by
  refine Does.bind (writeTable_spec h.table _) fun _ s1 hlater1 hr => ?_
  obtain ⟨tables1, gc1, rfl, hsets1⟩ := hr
  refine Does.bind (readTable_spec (s := { s with tables := tables1, gc := gc1 }) hsets1.get)
    fun r s2 hlater2 hr => ?_
  obtain ⟨rfl, gc2, rfl, -⟩ := hr
  refine Does.bind (resetTable_spec (s := { s with tables := tables1, gc := gc2 }) hsets1.get hprimes)
    fun _ s3 hlater3 hr => ?_
  obtain ⟨n, tables3, gc3, hn, rfl, hsets3⟩ := hr
  refine Does.bind (setTableNeedsRehash_spec i false) fun _ s4 hlater4 hr => ?_
  obtain ⟨gc4, rfl, hflag4⟩ := hr
  have hsets := hsets1.trans hsets3
  have hlater := ((hlater1.trans hlater2).trans hlater3).trans hlater4
  -- the buckets are empty, and all pairs are loose
  have hloose := h.loosen
  rw [append_nil] at hloose
  have hempty : (List.replicate n ([] : Chain κ δ)).flatten = [] := by simp
  have howns : Owns { s with tables := tables3, gc := gc4 } i _ (List.replicate n [])
      (chains.flatten ++ []) :=
    ⟨hsets.get, holds_replicate n, by rw [owned, hempty, append_nil, append_nil]; exact hloose.1,
      by rw [owned, hempty, append_nil, append_nil]; exact hloose.2⟩
  have hrecorded4 : type.rehashAfterGc = true → i ∈ gc4.recorded := fun hrehash =>
    hlater.recorded ▸ hrecorded hrehash
  refine Does.bind ((rehashBuckets_spec (s := { s with tables := tables3, gc := gc4 }) h.holds howns
    (by rw [length_replicate]; exact hn) hrecorded4).keepAll)
    fun _ s5 _ hr => ?_
  obtain ⟨hlater5, t5, chains5, hr⟩ := hr
  have hbuckets : t5.buckets.length = n := by rw [hr.buckets, length_replicate]
  have hgood : Good type s5 i t5 chains5 := by
    refine ⟨hr.owns, hbuckets ▸ hn, ?_, ?_, fun hrehash => hlater5.recorded ▸ hrecorded4 hrehash,
      hr.laid (laid_replicate n)⟩
    · rw [hbuckets, hr.table]
    · rw [hr.table]
  have hperm : chains5.flatten.Perm chains.flatten := by
    have := hr.perm
    rwa [hempty, append_nil] at this
  refine (hm s5 t5 chains5 hgood (by rw [hr.table]) (by rw [hr.table])).mono fun _ s6 hlater6 hr6 => ?_
  obtain ⟨t6, chains6, hr6⟩ := hr6
  refine ⟨t6, chains6, hr6.good, hr6.perm.trans hperm, by rw [hr6.count, hr.table], ?_,
    fun hgc _ => hr6.idle ?_ ?_⟩
  · refine (Touches.sets (s := s) hsets gc4).trans (hr.touches.trans hr6.touches fun a ha => .inl ?_)
      fun a ha => .inl ?_
    · rw [mem_owned]
      rw [mem_owned] at ha
      exact .inl ((hperm.map Prod.fst).mem_iff.mp (ha.resolve_left not_mem_nil))
    · rw [mem_owned, hempty] at ha
      rw [mem_owned]
      exact .inr (ha.resolve_right not_mem_nil)
  · exact hlater5.nil (hlater.nil hgc)
  · exact (hlater5.idle (hlater.nil hgc) i trivial).trans hflag4

theorem maybeShrinkTable_spec (fuel : Nat) (h : Good type s i t chains) (hcount : 0 ≤ t.count)
    (hfuel : t.growSize.toNat < fuel) :
    Does (fun j => j ≠ i) (maybeShrinkTable type i fuel) s fun _ s' => ∃ t' chains',
      Reorganized type i s t chains s' t' chains' := by
  induction fuel generalizing s t chains with
  | zero => omega
  | succ fuel ih =>
      refine Does.bind ((readTable_spec h.owns.table).keepAll) fun r s1 _ hr => ?_
      obtain ⟨hlater1, rfl, gc1, rfl, -⟩ := hr
      have h1 := h.later hlater1 trivial
      by_cases hshrink : t.count < t.shrinkSize ∧ t.initialSizeInEffect = false
      · rw [if_pos hshrink]
        have hlt := hshrink.1
        rw [h.shrink] at hlt
        obtain ⟨size, hsize, hless, hpos⟩ := shrinkLoop_lt hcount hlt
        refine Does.bind (lift_spec hsize) fun r s2 _ hr => ?_
        obtain ⟨rfl, rfl⟩ := hr
        refine (newSizeThen_spec (s := { s with gc := gc1 }) h1.owns (h.primes ▸ h.positive) h1.recorded
          fun s' t' chains' hgood hsize' hcount' => ih hgood (hcount' ▸ hcount) (by omega)).mono
          fun _ s3 _ hr => ?_
        obtain ⟨t3, chains3, hr⟩ := hr
        exact ⟨t3, chains3, (h.reorganized hlater1 trivial).trans hlater1 hr⟩
      · rw [if_neg hshrink]
        exact .pure ⟨t, chains, h.reorganized hlater1 trivial⟩

theorem maybeShrink_spec (h : Good type s i t chains) (hcount : 0 ≤ t.count) :
    Does (fun j => j ≠ i) (maybeShrink type i) s fun _ s' => ∃ t' chains',
      Reorganized type i s t chains s' t' chains' := by
  have hmaybe := maybeShrinkTable_spec (t.growSize.toNat + 1) h hcount (Nat.lt_succ_self _)
  have heq : maybeShrink type i s = maybeShrinkTable type i (t.growSize.toNat + 1) s := by
    rw [maybeShrink, h.owns.table]
    rfl
  obtain ⟨a, s', hm, hq⟩ := hmaybe
  exact ⟨a, s', heq.trans hm, hq⟩

theorem newSize_spec (h : Owns s i t chains []) (hprimes : 0 < t.primes)
    (hrecorded : type.rehashAfterGc = true → i ∈ s.gc.recorded) (hcount : 0 ≤ t.count)
    (size : Int) :
    Does (fun j => j ≠ i) (newSize type i size) s fun _ s' => ∃ t' chains',
      Reorganized type i s t chains s' t' chains' :=
  newSizeThen_spec h hprimes hrecorded fun _ _ _ hgood _ hcount' =>
    maybeShrink_spec hgood (hcount' ▸ hcount)

theorem maybeGrowTable_spec (h : Good type s i t chains) (hcount : 0 ≤ t.count) :
    Does (fun j => j ≠ i) (maybeGrowTable type i) s fun _ s' => ∃ t' chains',
      Reorganized type i s t chains s' t' chains' := by
  refine Does.bind ((readTable_spec h.owns.table).keepAll) fun r s1 _ hr => ?_
  obtain ⟨hlater1, rfl, gc1, rfl, -⟩ := hr
  have h1 := h.later hlater1 trivial
  by_cases hgrow : t.growSize < t.count
  · rw [if_pos hgrow]
    obtain ⟨size, hsize⟩ := growLoop_returns t.rehashSize t.count _ t.growSize (Nat.lt_succ_self _)
    refine Does.bind (lift_spec hsize) fun r s2 _ hr => ?_
    obtain ⟨rfl, rfl⟩ := hr
    refine Does.bind (newSize_spec (s := { s with gc := gc1 }) h1.owns (h.primes ▸ h.positive)
      h1.recorded hcount size) fun _ s3 hlater3 hr => ?_
    obtain ⟨t3, chains3, hr⟩ := hr
    have h3 := (h.reorganized hlater1 trivial).trans hlater1 hr
    refine ((writeTable_spec hr.good.owns.table _).keepAll).mono fun _ s4 _ hr4 => ?_
    obtain ⟨hlater4, tables4, gc4, rfl, hsets4⟩ := hr4
    have hgood := h3.good.later hlater4 trivial
    refine ⟨_, chains3, ⟨h3.good.owns.sets hsets4 rfl gc4, hgood.positive, hgood.primes, hgood.shrink,
      hgood.recorded, hgood.laid⟩, h3.perm, h3.count, ?_, fun hgc hflag => ?_⟩
    · exact h3.touches.trans (Touches.sets hsets4 gc4) fun a ha => .inl ha
    · exact (hlater4.idle (hlater3.nil (hlater1.nil hgc)) i trivial).trans (h3.idle hgc hflag)
  · rw [if_neg hgrow]
    exact .pure ⟨t, chains, h.reorganized hlater1 trivial⟩

end MitScheme.HashTable
