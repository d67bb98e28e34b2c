import MitScheme.Runtime.HashTableResize

/-!
# Address hashing

A table that needs to be rehashed is rehashed before a hash is used. When `compute-hash!` returns, the pairs
whose keys are equal to the key are in the bucket that it found, and stay there whatever collections follow,
since no pair moves until the next hash is computed.
-/

namespace MitScheme.HashTable

open Programs Chains List

variable {κ δ P : Type} {type : TableType κ P} {kept : Nat → Prop} {s s' s'' : State κ δ P} {i : Nat}
  {t t' : Table} {chains chains' : List (Chain κ δ)} {xs es loose : Chain κ δ} {p entries : Link}
  {tables : List Table} {n : Nat} {key : κ}

/-! ## Taking the pairs out -/

theorem appendLoop_spec (fuel : Nat) {a : Nat} {entry : κ × δ}
    (hxs : Linked s.pairs (some a) ((a, entry) :: xs) none)
    (hnodup : (addresses ((a, entry) :: xs)).Nodup) (hfuel : xs.length < fuel) :
    Does kept (appendLoop entries fuel a) s fun _ s' => ∃ pairs gc,
      s' = { s with pairs := pairs, gc := gc } ∧ Linked pairs (some a) ((a, entry) :: xs) entries
        ∧ ∀ b, b ∉ addresses ((a, entry) :: xs) → pairs b = s.pairs b := by
  induction fuel generalizing s a entry xs with
  | zero => omega
  | succ fuel ih =>
      obtain ⟨-, next, hcell, hrest⟩ := hxs
      refine Does.bind (pairRef_spec hcell) fun r s1 _ hr => ?_
      obtain ⟨rfl, gc1, rfl⟩ := hr
      cases xs with
      | nil =>
          subst hrest
          refine (setCdr_spec (s := { s with gc := gc1 }) hcell entries).mono fun _ s2 _ hr => ?_
          obtain ⟨gc2, rfl⟩ := hr
          refine ⟨_, gc2, rfl, ⟨rfl, entries, Function.update_self .., rfl⟩, fun b hb => ?_⟩
          refine Function.update_of_ne (fun hba => hb ?_) _ _
          rw [hba]
          exact mem_cons_self
      | cons y ys =>
          obtain ⟨b, entry'⟩ := y
          have hnext := hrest.1
          subst hnext
          rw [addresses_cons, nodup_cons] at hnodup
          rw [length_cons] at hfuel
          refine (ih (s := { s with gc := gc1 }) hrest hnodup.2 (by omega)).mono fun _ s2 _ hr => ?_
          obtain ⟨pairs, gc2, rfl, hlinked, hother⟩ := hr
          refine ⟨pairs, gc2, rfl, ⟨rfl, some b, ?_, hlinked⟩, fun c hc => hother c fun hmem => ?_⟩
          · rw [hother a hnodup.1]
            exact hcell
          · exact hc (mem_cons_of_mem _ hmem)

theorem append_spec (hxs : Linked s.pairs p xs none) (hes : Linked s.pairs entries es none)
    (hnodup : (addresses (xs ++ es)).Nodup) (hbounded : ∀ a ∈ addresses xs, a < s.next) :
    Does kept (append p entries) s fun l s' => ∃ pairs gc, s' = { s with pairs := pairs, gc := gc }
      ∧ Linked pairs l (xs ++ es) none ∧ ∀ b, b ∉ addresses xs → pairs b = s.pairs b := by
  rw [addresses_append] at hnodup
  cases xs with
  | nil =>
      subst hxs
      exact .pure ⟨s.pairs, s.gc, rfl, hes, fun _ _ => rfl⟩
  | cons x xs =>
      have hp := hxs.1
      subst hp
      have hlength := Chains.length_le (nodup_append.mp hnodup).1 hbounded
      rw [length_cons] at hlength
      refine Does.bind (appendLoop_spec (s.next + 1) hxs (nodup_append.mp hnodup).1
        (by omega)) fun _ s1 _ hr => ?_
      obtain ⟨pairs, gc1, rfl, hlinked, hother⟩ := hr
      refine .pure ⟨pairs, gc1, rfl, linked_append.mpr ⟨entries, hlinked, hes.congr fun b hb => ?_⟩,
        hother⟩
      exact hother b fun hmem => (nodup_append.mp hnodup).2.2 b hmem b hb rfl

theorem Owns.take (h : Owns s i t chains loose) (hn : chains[n]? = some xs)
    (hsets : Sets s.tables i { t with buckets := t.buckets.set n none } tables) (gc : Collector P) :
    Owns { s with tables := tables, gc := gc } i { t with buckets := t.buckets.set n none }
        (chains.set n []) (xs ++ loose)
      ∧ (xs ++ (chains.set n []).flatten).Perm chains.flatten := by
  obtain ⟨others, hperm, hset, -⟩ := flatten_set hn
  have hflat : (xs ++ (chains.set n []).flatten).Perm chains.flatten :=
    ((hset []).append_left xs).trans hperm.symm
  have howned : (owned (xs ++ loose) (chains.set n [])).Perm (owned loose chains) := by
    refine List.Perm.map _ ?_
    rw [append_assoc]
    exact (perm_append_comm_assoc _ _ _).trans (hflat.append_left loose)
  exact ⟨⟨hsets.get, h.holds.set rfl fun _ _ _ _ _ _ => rfl, howned.nodup_iff.mpr h.nodup,
    fun b hb => h.bounded b (howned.mem_iff.mp hb)⟩, hflat⟩

theorem Owns.relink (h : Owns s i t chains loose) {pairs : Cells (κ × δ)}
    (hother : ∀ b, b ∉ addresses loose → pairs b = s.pairs b) (gc : Collector P) :
    Owns { s with pairs := pairs, gc := gc } i t chains loose := by
  refine ⟨h.table, h.holds.congr fun b hb => hother b fun hmem => ?_, h.nodup, h.bounded⟩
  have := h.nodup
  rw [owned, addresses_append] at this
  exact (nodup_append.mp this).2.2 b hmem b hb rfl

theorem extractLoop_spec (left k : Nat) (h : Owns s i t chains es)
    (hes : Linked s.pairs entries es none) (hlength : t.buckets.length = k + left)
    (hempty : ∀ m, m < k → chains[m]? = some []) :
    Does kept (extractLoop i left k entries) s fun l s' => ∃ t' chains' es', Owns s' i t' chains' es'
      ∧ t' = { t with buckets := t'.buckets } ∧ t'.buckets.length = t.buckets.length
      ∧ Linked s'.pairs l es' none ∧ (∀ m, m < t.buckets.length → chains'[m]? = some [])
      ∧ es'.Perm (es ++ chains.flatten) ∧ Touches i (owned es chains) s s' := by
  induction left generalizing s t k chains es entries with
  | zero =>
      have hflat : chains.flatten = [] := by
        rw [flatten_eq_nil_iff]
        intro ys hys
        obtain ⟨m, hm, hget⟩ := mem_iff_getElem.mp hys
        have hlt : m < k := by
          have := h.holds.length
          omega
        have hmk := hempty m hlt
        rw [List.getElem?_eq_getElem hm, hget] at hmk
        exact Option.some.inj hmk
      refine .pure ⟨t, chains, es, h, rfl, rfl, hes, fun m hm => hempty m (by omega), ?_, .refl _ _ s⟩
      rw [hflat, append_nil]
  | succ left ih =>
      have hk : k < t.buckets.length := by omega
      have hp : t.buckets[k]? = some t.buckets[k] := List.getElem?_eq_getElem hk
      obtain ⟨xs, hxs, hlinked⟩ := h.holds.exists_chain hp
      refine Does.bind (bucketRef_spec h.table hp) fun r s1 hlater1 hr => ?_
      obtain ⟨rfl, gc1, rfl⟩ := hr
      refine Does.bind (bucketSet_spec (s := { s with gc := gc1 }) h.table hk none)
        fun _ s2 hlater2 hr => ?_
      obtain ⟨tables2, gc2, rfl, hsets⟩ := hr
      obtain ⟨h2, hflat⟩ := h.take hxs hsets gc2
      have hnodup : (addresses (xs ++ es)).Nodup := by
        have := h2.nodup
        rw [owned, addresses_append] at this
        exact (nodup_append.mp this).1
      refine Does.bind (append_spec (s := { s with tables := tables2, gc := gc2 }) hlinked hes hnodup
        fun a ha => h2.bounded a ?_) fun l s3 hlater3 hr => ?_
      · rw [mem_owned, addresses_append]
        exact .inl (mem_append_left _ ha)
      obtain ⟨pairs, gc3, rfl, hlinked3, hother⟩ := hr
      have h3 := h2.relink (fun b hb => hother b fun hmem => hb (by
        rw [addresses_append]
        exact mem_append_left _ hmem)) gc3
      refine (ih (k := k + 1) h3 hlinked3 (by rw [length_set]; omega) fun m hm => ?_).mono
        fun l s4 _ hr => ?_
      · by_cases hmk : m = k
        · subst hmk
          exact List.getElem?_set_self (h.holds.length ▸ hk)
        · rw [List.getElem?_set_ne (Ne.symm hmk)]
          exact hempty m (by omega)
      · obtain ⟨t', chains', es', howns, htable, hbuckets, hl, hempty', hperm, htouches⟩ := hr
        rw [length_set] at hbuckets hempty'
        have hall : (xs ++ es ++ (chains.set k []).flatten).Perm (es ++ chains.flatten) := by
          rw [append_assoc]
          exact (perm_append_comm_assoc _ _ _).trans (hflat.append_left es)
        refine ⟨t', chains', es', howns, htable, hbuckets, hl, hempty', hperm.trans hall, ?_⟩
        have htouches2 : Touches i (owned es chains) s
            { s with pairs := pairs, tables := tables2, gc := gc3 } := by
          refine ⟨hsets.others, hsets.length, Nat.le_refl _, fun b _ hb => hother b fun hmem => hb ?_⟩
          rw [mem_owned]
          exact .inr ((hflat.map Prod.fst).mem_iff.mp (by
            rw [map_append]
            exact mem_append_left _ hmem))
        exact htouches2.trans htouches fun a ha => .inl ((hall.map Prod.fst).mem_iff.mp ha)

theorem extractTableEntries_spec (h : Owns s i t chains []) :
    Does kept (extractTableEntries i) s fun l s' => ∃ t' chains' es, Owns s' i t' chains' es
      ∧ t' = { t with buckets := t'.buckets } ∧ t'.buckets.length = t.buckets.length
      ∧ Linked s'.pairs l es none ∧ (∀ m, m < t.buckets.length → chains'[m]? = some [])
      ∧ es.Perm chains.flatten ∧ Touches i (owned [] chains) s s' := by
  refine Does.bind (readTable_spec h.table) fun r s1 _ hr => ?_
  obtain ⟨rfl, gc1, rfl, -⟩ := hr
  refine (extractLoop_spec t.buckets.length 0 (h.later gc1) rfl (Nat.zero_add _).symm
    fun m hm => absurd hm (Nat.not_lt_zero m)).mono fun l s2 _ hr => ?_
  obtain ⟨t', chains', es', howns, htable, hbuckets, hl, hempty, hperm, htouches⟩ := hr
  exact ⟨t', chains', es', howns, htable, hbuckets, hl, hempty, hperm, htouches.of_later⟩

theorem rehashTable_spec (h : Good type s i t chains) (hcount : 0 ≤ t.count) :
    Does (fun j => j ≠ i) (rehashTable type i) s fun _ s' => ∃ t' chains',
      Reorganized type i s t chains s' t' chains'
        ∧ (s.gc.schedule = [] → s'.gc.needsRehash i = false) := by
  refine Does.bind (extractTableEntries_spec h.owns) fun l s1 hlater1 hr => ?_
  obtain ⟨t1, chains1, es, howns1, htable1, hbuckets1, hl, hempty, hperm1, htouches1⟩ := hr
  refine Does.bind (setTableNeedsRehash_spec i false) fun _ s2 hlater2 hr => ?_
  obtain ⟨gc2, rfl, hflag2⟩ := hr
  have hpositive : 0 < t1.buckets.length := hbuckets1 ▸ h.positive
  have hrecorded2 : type.rehashAfterGc = true → i ∈ gc2.recorded := fun hrehash => by
    rw [hlater2.recorded, hlater1.recorded]
    exact h.recorded hrehash
  have hnil : ∀ (m : Nat) ys, chains1[m]? = some ys → ys = [] := by
    intro m ys hys
    have hlt := (List.getElem?_eq_some_iff.mp hys).1
    rw [howns1.holds.length, hbuckets1] at hlt
    rw [hempty m hlt] at hys
    exact (Option.some.inj hys).symm
  have hflat : chains1.flatten = [] := by
    rw [flatten_eq_nil_iff]
    intro ys hys
    obtain ⟨m, hm⟩ := mem_iff_getElem?.mp hys
    exact hnil m ys hm
  have howns2 : Owns { s1 with gc := gc2 } i t1 chains1 (es ++ []) := by
    rw [append_nil]
    exact howns1.later gc2
  refine Does.bind ((rehash_spec (s := { s1 with gc := gc2 }) howns2 hl hpositive
    hrecorded2).keepAll) fun _ s3 _ hr => ?_
  obtain ⟨hlater3, t3, chains3, hr⟩ := hr
  have hbuckets3 : t3.buckets.length = t.buckets.length := hr.buckets.trans hbuckets1
  have hgood3 : Good type s3 i t3 chains3 := by
    refine ⟨hr.owns, hbuckets3 ▸ h.positive, ?_, ?_,
      fun hrehash => hlater3.recorded ▸ hrecorded2 hrehash, hr.laid fun _ m ys hys x hx => ?_⟩
    · rw [hbuckets3, hr.table, htable1]
      exact h.primes
    · rw [hr.table, htable1]
      exact h.shrink
    · rw [hnil m ys hys] at hx
      cases hx
  have hperm3 : chains3.flatten.Perm chains.flatten := by
    have := hr.perm
    rw [hflat, append_nil] at this
    exact this.trans hperm1
  have hcount3 : t3.count = t.count := by rw [hr.table, htable1]
  refine (maybeShrink_spec hgood3 (hcount3 ▸ hcount)).mono fun _ s4 hlater4 hr4 => ?_
  obtain ⟨t4, chains4, hr4⟩ := hr4
  have hidle : s.gc.schedule = [] → s4.gc.needsRehash i = false := fun hgc => by
    have hgc2 := hlater2.nil (hlater1.nil hgc)
    exact hr4.idle (hlater3.nil hgc2) ((hlater3.idle hgc2 i trivial).trans hflag2)
  refine ⟨t4, chains4, ⟨hr4.good, hr4.perm.trans hperm3, hr4.count.trans hcount3, ?_,
    fun hgc _ => hidle hgc⟩, hidle⟩
  refine (htouches1.trans hr.touches.of_later fun a ha => .inl ?_).trans hr4.touches
    fun a ha => .inl ?_
  · rw [mem_owned, hflat] at ha
    rw [mem_owned]
    exact .inr ((hperm1.map Prod.fst).mem_iff.mp (ha.resolve_right nofun))
  · exact (hperm3.map Prod.fst).mem_iff.mp ha

/-! ## Computing a hash -/

/-- The pairs with keys that are equal to the key are all in one bucket, which the key hashes to unless
the table needs to be rehashed. -/
structure Located (type : TableType κ P) (s : State κ δ P) (i : Nat) (chains : List (Chain κ δ))
    (key : κ) (hash : Nat) : Prop where
  lt : hash < chains.length
  only : ∀ (n : Nat) xs, chains[n]? = some xs → ∀ x ∈ xs, type.keyEq x.2.1 key = true → n = hash
  hash : Settled type s.gc i → type.keyHash s.gc.placement key chains.length = hash

theorem Located.later (h : Located type s i chains key n) {gc : Collector P}
    (hlater : Later kept s.gc gc) (hi : kept i)
    (hrecorded : type.rehashAfterGc = true → i ∈ s.gc.recorded) :
    Located type { s with gc := gc } i chains key n :=
  ⟨h.lt, h.only, fun hsettled => (hlater.keyHash hi hrecorded hsettled _ _).trans
    (h.hash (hlater.settled hi hsettled))⟩

theorem Good.located (h : Good type s i t chains) {gc gc' : Collector P}
    (hlater : Later (fun _ => True) s.gc gc) (hlater' : Later (fun _ => True) gc gc')
    (hsettled : Settled type gc' i) (key : κ) :
    Located type { s with gc := gc' } i chains key
      (type.keyHash gc.placement key t.buckets.length) := by
  have hrecorded : type.rehashAfterGc = true → i ∈ gc.recorded := fun hrehash =>
    hlater.recorded ▸ h.recorded hrehash
  have hlength := h.owns.holds.length
  refine ⟨?_, fun m xs hxs x hx heq => ?_, fun _ => ?_⟩
  · rw [hlength]
    exact type.keyHash_lt _ _ h.positive
  · have hlaid := h.laid.later (hlater.trans hlater') trivial h.recorded hsettled m xs hxs x hx
    rw [← hlaid, hlength, type.keyHash_congr _ _ heq, hlater'.keyHash trivial hrecorded hsettled]
  · rw [hlength]
    exact hlater'.keyHash trivial hrecorded hsettled _ _

theorem computeAddressHash_spec (fuel : Nat) (h : Good type s i t chains) (hcount : 0 ≤ t.count)
    (key : κ) (hfuel : s.gc.schedule.length + 2 ≤ fuel
      ∨ s.gc.schedule = [] ∧ s.gc.needsRehash i = false ∧ 1 ≤ fuel) :
    Does (fun j => j ≠ i) (computeAddressHash type i key fuel) s fun hash s' => ∃ t' chains',
      Reorganized type i s t chains s' t' chains' ∧ Located type s' i chains' key hash := by
  induction fuel generalizing s t chains with
  | zero => omega
  | succ fuel ih =>
      refine Does.bind ((readTable_spec h.owns.table).keepAll) fun r s1 _ hr => ?_
      obtain ⟨hlater1, rfl, gc1, rfl, hschedule⟩ := hr
      refine Does.bind ((keyHash_spec key
        t.buckets.length).keepAll) fun hash s2 _ hr => ?_
      obtain ⟨hlater2, gc2, rfl, rfl⟩ := hr
      refine Does.bind ((tableNeedsRehash_spec i).keepAll) fun flag s3 _ hr => ?_
      obtain ⟨hlater3, gc3, rfl, rfl⟩ := hr
      dsimp only at hlater1 hlater2 hlater3 ⊢
      have hlater := (hlater1.trans hlater2).trans hlater3
      cases hflag : gc3.needsRehash i with
      | false =>
          exact .pure ⟨t, chains, h.reorganized hlater trivial,
            h.located (hlater1.trans hlater2) hlater3 (fun _ => hflag) key⟩
      | true =>
          refine Does.bind (rehashTable_spec (s := { s with gc := gc3 }) (h.later hlater trivial)
            hcount) fun _ s4 hlater4 hr => ?_
          obtain ⟨t4, chains4, hr, hidle⟩ := hr
          have hr4 := (h.reorganized hlater trivial).trans hlater hr
          -- each turn takes an event of the schedule, or is the last one but one
          have hfuel4 : s4.gc.schedule.length + 2 ≤ fuel
              ∨ s4.gc.schedule = [] ∧ s4.gc.needsRehash i = false ∧ 1 ≤ fuel := by
            cases hs : s.gc.schedule with
            | nil =>
                have hgc3 := hlater.nil hs
                refine .inr ⟨hlater4.nil hgc3, hidle hgc3, ?_⟩
                rcases hfuel with hle | ⟨-, hclear, -⟩
                · omega
                · rw [hlater.idle hs i trivial, hclear] at hflag
                  cases hflag
            | cons event rest =>
                rw [hs] at hfuel hschedule
                have := hlater2.schedule
                have := hlater3.schedule
                have := hlater4.schedule
                dsimp only at this
                rw [hschedule, tail_cons] at *
                rcases hfuel with hle | ⟨hnil, -⟩
                · rw [length_cons] at hle
                  exact .inl (by omega)
                · cases hnil
          refine (ih hr.good (hr4.count ▸ hcount) hfuel4).mono fun hash s5 _ hr5 => ?_
          obtain ⟨t5, chains5, hr5, hlocated⟩ := hr5
          have hlater5 : Later (fun j => j ≠ i) s.gc s4.gc :=
            (hlater.mono fun _ _ => trivial).trans hlater4
          exact ⟨t5, chains5, hr4.trans hlater5 hr5, hlocated⟩

theorem computeHash_spec (h : Good type s i t chains) (hcount : 0 ≤ t.count) (key : κ) :
    Does (fun j => j ≠ i) (computeHash type i key) s fun hash s' => ∃ t' chains',
      Reorganized type i s t chains s' t' chains' ∧ Located type s' i chains' key hash := by
  rw [computeHash]
  cases hrehash : type.rehashAfterGc with
  | true =>
      exact computeAddressHash_spec (s.gc.schedule.length + 2) h hcount key (.inl (Nat.le_refl _))
  | false =>
      refine Does.bind ((readTable_spec h.owns.table).keepAll) fun r s1 _ hr => ?_
      obtain ⟨hlater1, rfl, gc1, rfl, -⟩ := hr
      refine ((keyHash_spec key t.buckets.length).keepAll).mono fun hash s2 _ hr => ?_
      obtain ⟨hlater2, gc2, rfl, rfl⟩ := hr
      refine ⟨t, chains, h.reorganized (hlater1.trans hlater2) trivial,
        h.located (hlater1.trans hlater2) (.refl _ _) (fun hrehash' => ?_) key⟩
      rw [hrehash] at hrehash'
      cases hrehash'

end MitScheme.HashTable
