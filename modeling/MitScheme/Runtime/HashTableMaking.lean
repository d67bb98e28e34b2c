import MitScheme.Runtime.HashTableMethods

/-!
# Making, clearing and copying tables

A new table is the last one, and is recorded at the end if its hashes are of addresses. What it takes to
leave the other tables as they are is `Good.frame`.
-/

namespace MitScheme.HashTable

open Programs Chains List Function
open Prod (snd)

variable {κ δ P : Type} {type : TableType κ P} {kept : Nat → Prop} {s s' s'' : State κ δ P} {i j : Nat}
  {t t' : Table} {chains chains' : List (Chain κ δ)} {xs ys : Chain κ δ} {p l : Link}
  {tables : List Table} {n next : Nat} {key : κ} {datum : δ} {map : κ → Option δ}

theorem Good.frame (h : Good type s i t chains) (htable : s'.tables[i]? = s.tables[i]?)
    (hnext : s.next ≤ s'.next) (hpairs : ∀ a ∈ owned [] chains, s'.pairs a = s.pairs a)
    (hrecorded : s.gc.recorded ⊆ s'.gc.recorded)
    (hstill : s'.gc.needsRehash i = false → s.gc.needsRehash i = false
      ∧ (i ∈ s.gc.recorded → s'.gc.placement = s.gc.placement)) : Good type s' i t chains := by
  refine ⟨⟨htable.trans h.owns.table, h.owns.holds.congr fun a ha => hpairs a ?_, h.owns.nodup,
    fun a ha => (h.owns.bounded a ha).trans_le hnext⟩, h.positive, h.primes, h.shrink,
    fun hrehash => hrecorded (h.recorded hrehash), fun hsettled n xs hxs x hx => ?_⟩
  · rw [mem_owned]
    exact .inr ha
  · rw [← h.laid (fun hrehash => (hstill (hsettled hrehash)).1) n xs hxs x hx]
    cases hrehash : type.rehashAfterGc with
    | true => rw [(hstill (hsettled hrehash)).2 (h.recorded hrehash)]
    | false => exact type.keyHash_fixed hrehash _ _ _ _

/-! ## Other sizes -/

theorem contents_nil (hcount : t.count = 0) : Contents (δ := δ) type t [] fun _ => none :=
  ⟨.nil, hcount, fun _ _ => ⟨nofun, nofun⟩⟩

theorem Owns.empty (h : s.tables[i]? = some t) (hbuckets : t.buckets = List.replicate n none) :
    Owns s i t (List.replicate n []) [] := by
  have hempty : (List.replicate n ([] : Chain κ δ)).flatten = [] := by simp
  refine ⟨h, hbuckets ▸ holds_replicate n, ?_, ?_⟩
  · rw [owned, hempty]
    exact .nil
  · rw [owned, hempty]
    intro a ha
    cases ha

theorem resetGrowSize_spec (h : s.tables[i]? = some t) (initialSizeInEffect : Bool) :
    Does kept (resetGrowSize i initialSizeInEffect) s fun _ s' => ∃ tables gc size,
      s' = { s with tables := tables, gc := gc } ∧ Sets s.tables i { t with growSize := size } tables := by
  cases initialSizeInEffect with
  | true => exact .pure ⟨s.tables, s.gc, t.growSize, rfl, h, fun _ _ => rfl, rfl⟩
  | false =>
      refine (writeTable_spec h _).mono fun _ s1 _ hr => ?_
      obtain ⟨tables, gc, rfl, hsets⟩ := hr
      exact ⟨tables, gc, _, rfl, hsets⟩

theorem hashTableClear_spec (h : Good type s i t chains) :
    Does (fun _ => True) (hashTableClear i) s fun _ s' => ∃ t' chains',
      Updated type i s chains s' t' chains' ∧ Contents (δ := δ) type t' chains'.flatten fun _ => none := by
  refine Does.bind (readTable_spec h.owns.table) fun r s1 hlater1 hr => ?_
  obtain ⟨rfl, gc1, rfl, -⟩ := hr
  refine Does.bind (resetGrowSize_spec (s := { s with gc := gc1 }) h.owns.table t.initialSizeInEffect)
    fun _ s2 hlater2 hr => ?_
  obtain ⟨tables2, gc2, size, rfl, hsets2⟩ := hr
  refine Does.bind (writeTable_spec (s := { s with tables := tables2, gc := gc2 }) hsets2.get _)
    fun _ s3 hlater3 hr => ?_
  obtain ⟨tables3, gc3, rfl, hsets3⟩ := hr
  refine (resetTable_spec (s := { s with tables := tables3, gc := gc3 }) hsets3.get
    (h.primes ▸ h.positive)).mono fun _ s4 hlater4 hr => ?_
  obtain ⟨n, tables4, gc4, hn, rfl, hsets4⟩ := hr
  have hsets := (hsets2.trans hsets3).trans hsets4
  have hlater := ((hlater1.trans hlater2).trans hlater3).trans hlater4
  have howns := Owns.empty (s := { s with tables := tables4, gc := gc4 }) hsets.get rfl
  have hempty : (List.replicate n ([] : Chain κ δ)).flatten = [] := by simp
  refine ⟨_, _, ⟨⟨howns, ?_, ?_, rfl, fun hrehash => hlater.recorded ▸ h.recorded hrehash,
    laid_replicate n⟩, .sets (s := s) hsets gc4, ?_, fun hgc hflag => (hlater.idle hgc i trivial).trans hflag⟩, ?_⟩
  · rw [length_replicate]
    exact hn
  · rw [length_replicate]
  · rw [owned, hempty]
    intro a ha
    cases ha
  · rw [hempty]
    exact contents_nil rfl

theorem setHashTableRehashThreshold_spec (h : Good type s i t chains) (hcount : 0 ≤ t.count)
    (threshold : Int → Int) :
    Does (fun j => j ≠ i) (setHashTableRehashThreshold type i threshold) s fun _ s' => ∃ t' chains',
      Reorganized type i s t chains s' t' chains' := by
  refine Does.bind ((writeTable_spec h.owns.table _).keepAll) fun _ s1 _ hr => ?_
  obtain ⟨hlater1, tables1, gc1, rfl, hsets1⟩ := hr
  have h1 := h.owns.sets hsets1 rfl gc1
  refine Does.bind ((readTable_spec h1.table).keepAll) fun r s2 _ hr => ?_
  obtain ⟨hlater2, rfl, gc2, rfl, -⟩ := hr
  have hlater := hlater1.trans hlater2
  refine (newSize_spec (h1.later gc2) (h.primes ▸ h.positive)
    (fun hrehash => hlater.recorded ▸ h.recorded hrehash) hcount t.growSize).mono fun _ s3 _ hr => ?_
  obtain ⟨t3, chains3, hr⟩ := hr
  exact ⟨t3, chains3, hr.good, hr.perm, hr.count,
    (Touches.sets hsets1 gc2).trans hr.touches fun a ha => .inl ha,
    fun hgc hflag => hr.idle (hlater.nil hgc) ((hlater.idle hgc i trivial).trans hflag)⟩

theorem setHashTableRehashSize_spec (h : Good type s i t chains) (hcount : 0 ≤ t.count)
    (size : RehashSize) :
    Does (fun j => j ≠ i) (setHashTableRehashSize type i size) s fun _ s' => ∃ t' chains',
      Reorganized type i s t chains s' t' chains' := by
  refine Does.bind ((writeTable_spec h.owns.table _).keepAll) fun _ s1 _ hr => ?_
  obtain ⟨hlater1, tables1, gc1, rfl, hsets1⟩ := hr
  refine Does.bind ((resetShrinkSize_spec (s := { s with
    tables := tables1, gc := gc1 }) hsets1.get).keepAll) fun _ s2 _ hr => ?_
  obtain ⟨hlater2, tables2, gc2, rfl, hsets2⟩ := hr
  have hlater := hlater1.trans hlater2
  have hsets := hsets1.trans hsets2
  have hlaid := h.laid.later hlater trivial h.recorded
  have h2 := h.owns.sets hsets rfl gc2
  refine (maybeShrink_spec ⟨h2, h.positive, h.primes, rfl,
    fun hrehash => hlater.recorded ▸ h.recorded hrehash, hlaid⟩ hcount).mono fun _ s3 _ hr => ?_
  obtain ⟨t3, chains3, hr⟩ := hr
  exact ⟨t3, chains3, hr.good, hr.perm, hr.count,
    (Touches.sets hsets gc2).trans hr.touches fun a ha => .inl ha,
    fun hgc hflag => hr.idle (hlater.nil hgc) ((hlater.idle hgc i trivial).trans hflag)⟩

/-- What is known of the state when a procedure has made a table, besides of the table: the tables there
were are as before, and so are their pairs. -/
structure Made (s s' : State κ δ P) : Prop where
  tables : ∀ j, j < s.tables.length → s'.tables[j]? = s.tables[j]?
  length : s'.tables.length = s.tables.length + 1
  next : s.next ≤ s'.next
  pairs : ∀ a, a < s.next → s'.pairs a = s.pairs a
  recorded : s.gc.recorded ⊆ s'.gc.recorded
  still : ∀ j, j ≠ s.tables.length → s'.gc.needsRehash j = false → s.gc.needsRehash j = false
    ∧ (j ∈ s.gc.recorded → s'.gc.placement = s.gc.placement)
  nil : s.gc.schedule = [] → s'.gc.schedule = []
  idle : s.gc.schedule = [] → ∀ j, j ≠ s.tables.length → s'.gc.needsRehash j = s.gc.needsRehash j

theorem recordIfAddressHash_spec (s : State κ δ P) (i : Nat) :
    Completes (recordIfAddressHash type i) s fun _ s' => ∃ gc recorded, Later (fun _ => True) s.gc gc
      ∧ s' = { s with gc := { gc with recorded := recorded } }
      ∧ (type.rehashAfterGc = true → gc = s.gc.collect ∧ i ∈ recorded) ∧ gc.recorded ⊆ recorded := by
  rw [recordIfAddressHash]
  cases type.rehashAfterGc with
  | true =>
      exact ⟨(), _, rfl, s.gc.collect, _, .collect _ _, rfl, fun _ => ⟨rfl, mem_cons_self⟩,
        subset_cons_self _ _⟩
  | false =>
      exact ⟨(), s, rfl, s.gc, s.gc.recorded, .refl _ _, rfl, nofun, fun _ h => h⟩

theorem Good.made (h : Good type s i t chains) (hmade : Made s s') : Good type s' i t chains := by
  have hlt := h.owns.lt
  exact h.frame (hmade.tables i hlt) hmade.next (fun a ha => hmade.pairs a (h.owns.bounded a ha))
    hmade.recorded (hmade.still i (by omega))

theorem Made.record (s s' : State κ δ P) (hlater : Later (fun j => j ≠ s.tables.length) s.gc s'.gc)
    (htables : ∀ j, j < s.tables.length → s'.tables[j]? = s.tables[j]?)
    (hlength : s'.tables.length = s.tables.length + 1) (hnext : s.next ≤ s'.next)
    (hpairs : ∀ a, a < s.next → s'.pairs a = s.pairs a) {gc : Collector P} {recorded : List Nat}
    (hlater' : Later (fun _ => True) s'.gc gc) (hrecorded : gc.recorded ⊆ recorded) :
    Made s { s' with gc := { gc with recorded := recorded } } := by
  have h := hlater.trans (hlater'.mono fun _ _ => trivial)
  exact ⟨htables, hlength, hnext, hpairs, h.recorded ▸ hrecorded, h.still, h.nil, h.idle⟩

/-! ## Making -/

theorem makeTable_spec (s : State κ δ P) :
    Does (fun j => j ≠ s.tables.length) makeTable s fun a s' => s.tables.length = a ∧ ∃ gc,
      s' = { s with tables := s.tables ++ [⟨id, defaultRehashSize, 0, minimumSize, 0, [], 2, false⟩],
                    gc := gc } ∧ gc.needsRehash s.tables.length = false :=
  access_spec fun gc _ _ => ⟨_, _, rfl, .setNeedsRehash gc s.tables.length false, rfl, _, rfl,
    update_self ..⟩

theorem setInitialSize_spec (h : s.tables[i]? = some t) (initialSize : Option Nat) :
    Does kept (setInitialSize i initialSize) s fun _ s' => ∃ tables gc size inEffect,
      s' = { s with tables := tables, gc := gc }
        ∧ Sets s.tables i { t with growSize := size, initialSizeInEffect := inEffect } tables := by
  have hsame : Sets s.tables i { t with
      growSize := t.growSize, initialSizeInEffect := t.initialSizeInEffect } s.tables :=
    ⟨h, fun _ _ => rfl, rfl⟩
  cases initialSize with
  | none => exact .pure ⟨s.tables, s.gc, _, _, rfl, hsame⟩
  | some initialSize =>
      rw [setInitialSize]
      by_cases hsize : minimumSize < initialSize
      · rw [if_pos hsize]
        refine Does.bind (writeTable_spec h _) fun _ s1 _ hr => ?_
        obtain ⟨tables1, gc1, rfl, hsets1⟩ := hr
        refine (writeTable_spec (s := { s with tables := tables1, gc := gc1 }) hsets1.get _).mono
          fun _ s2 _ hr => ?_
        obtain ⟨tables2, gc2, rfl, hsets2⟩ := hr
        exact ⟨tables2, gc2, initialSize, true, rfl, hsets1.trans hsets2⟩
      · rw [if_neg hsize]
        exact .pure ⟨s.tables, s.gc, _, _, rfl, hsame⟩

theorem makeHashTable_spec (s : State κ δ P) (initialSize : Option Nat) :
    Completes (makeHashTable type initialSize) s fun _ s' => Made s s' ∧ ∃ t chains,
      Good type s' s.tables.length t chains
        ∧ Contents (δ := δ) type t chains.flatten (fun _ => none) ∧ owned [] chains = []
        ∧ (s.gc.schedule = [] → s'.gc.needsRehash s.tables.length = false) := by
  refine Completes.bind (makeTable_spec s) fun a s1 hr => ?_
  obtain ⟨hlater1, rfl, gc1, rfl, hflag1⟩ := hr
  have hlast : (s.tables ++ [⟨id, defaultRehashSize, 0, minimumSize, 0, [], 2, false⟩])[s.tables.length]?
      = some ⟨id, defaultRehashSize, 0, minimumSize, 0, [], 2, false⟩ := List.getElem?_concat_length
  refine Completes.bind (setInitialSize_spec (s := { s with
    tables := s.tables ++ [⟨id, defaultRehashSize, 0, minimumSize, 0, [], 2, false⟩], gc := gc1 }) hlast
    initialSize).completes fun _ s2 hr => ?_
  obtain ⟨hlater2, tables2, gc2, size, inEffect, rfl, hsets2⟩ := hr
  refine Completes.bind (resetTable_spec (s := { s with
    tables := tables2, gc := gc2 }) hsets2.get Nat.zero_lt_two).completes fun _ s3 hr => ?_
  obtain ⟨hlater3, n, tables3, gc3, hn, rfl, hsets3⟩ := hr
  have hsets := hsets2.trans hsets3
  have hlater := hlater2.trans hlater3
  have hlater4 := hlater1.trans (hlater.mono fun _ _ => trivial)
  refine (recordIfAddressHash_spec _ s.tables.length).mono fun _ s5 hr => ?_
  obtain ⟨gc5, recorded, hlater5, rfl, hrecord, hsub⟩ := hr
  have howns := Owns.empty (s := { s with
    tables := tables3, gc := { gc5 with recorded := recorded } }) hsets.get rfl
  have hempty : (List.replicate n ([] : Chain κ δ)).flatten = [] := by simp
  refine ⟨.record s { s with tables := tables3, gc := gc3 } hlater4 (fun j hj => ?_) ?_
    (Nat.le_refl _) (fun _ _ => rfl) hlater5 hsub, _, _, ⟨howns, ?_, ?_, rfl,
      fun hrehash => (hrecord hrehash).2, laid_replicate n⟩, ?_, ?_, fun hgc => ?_⟩
  · rw [hsets.others j (Nat.ne_of_lt hj), List.getElem?_append_left hj]
  · rw [hsets.length, length_append, length_singleton]
  · rw [length_replicate]
    exact hn
  · rw [length_replicate]
  · rw [hempty]
    exact contents_nil rfl
  · rw [owned, hempty]
    rfl
  · have hgc1 := hlater1.nil hgc
    rw [hlater5.idle (hlater.nil hgc1) _ trivial, hlater.idle hgc1 _ trivial]
    exact hflag1

/-! ## Copying -/

/-- The addresses are of pairs that were made in between. -/
def Between (next next' : Nat) (xs : Chain κ δ) : Prop :=
  (addresses xs).Nodup ∧ ∀ a ∈ addresses xs, next ≤ a ∧ a < next'

variable {next' : Nat} {entry : κ × δ}

theorem Between.cons (h : Between (n + 1) next xs) (hle : n + 1 ≤ next) :
    Between n next ((n, entry) :: xs) := by
  obtain ⟨hnodup, hbetween⟩ := h
  refine ⟨?_, fun b hb => ?_⟩
  · refine nodup_cons.mpr ⟨fun hmem => ?_, hnodup⟩
    have := (hbetween n hmem).1
    omega
  · rcases mem_cons.mp hb with rfl | hb
    · exact ⟨Nat.le_refl _, hle⟩
    · have := hbetween b hb
      omega

theorem Between.append (h : Between n next xs) (h' : Between next next' ys) (hle : n ≤ next)
    (hle' : next ≤ next') : Between n next' (xs ++ ys) := by
  refine ⟨?_, fun b hb => ?_⟩
  · rw [addresses_append]
    refine nodup_append.mpr ⟨h.1, h'.1, fun a ha b hb hab => ?_⟩
    have := h.2 a ha
    have := h'.2 b hb
    omega
  · rw [addresses_append] at hb
    rcases mem_append.mp hb with hb | hb
    · have := h.2 b hb
      omega
    · have := h'.2 b hb
      omega

theorem copyLoop_spec (fuel previous : Nat) (entry : κ × δ) (hxs : Linked s.pairs p xs none)
    (hprevious : s.pairs previous = some (entry, none)) (hapart : previous ∉ addresses xs)
    (hlt : previous < s.next) (hbounded : ∀ a ∈ addresses xs, a < s.next) (hfuel : xs.length < fuel) :
    Does kept (copyLoop fuel p previous) s fun _ s' => ∃ pairs next gc q ys,
      s' = { s with pairs := pairs, next := next, gc := gc } ∧ s.next ≤ next
        ∧ (∀ b, b < s.next → b ≠ previous → pairs b = s.pairs b)
        ∧ pairs previous = some (entry, q) ∧ Linked pairs q ys none
        ∧ ys.map snd = xs.map snd ∧ Between s.next next ys := by
  induction fuel generalizing s p xs previous entry with
  | zero => omega
  | succ fuel ih =>
      cases xs with
      | nil =>
          subst hxs
          exact .pure ⟨s.pairs, s.next, s.gc, none, [], rfl, Nat.le_refl _, fun _ _ _ => rfl, hprevious,
            rfl, rfl, .nil, nofun⟩
      | cons x xs =>
          obtain ⟨a, k, d⟩ := x
          obtain ⟨rfl, q, hcell, hrest⟩ := hxs
          rw [length_cons] at hfuel
          rw [addresses_cons, mem_cons, not_or] at hapart
          have hbounded' : ∀ b ∈ addresses xs, b < s.next := fun b hb =>
            hbounded b (mem_cons_of_mem _ hb)
          refine Does.bind (pairRef_spec hcell) fun r s1 _ hr => ?_
          obtain ⟨rfl, gc1, rfl⟩ := hr
          refine Does.bind (consEntry_spec (s := { s with gc := gc1 }) k d) fun r s2 _ hr => ?_
          obtain ⟨rfl, gc2, rfl⟩ := hr
          have hprevious2 : Function.update s.pairs s.next (some ((k, d), none)) previous
              = some (entry, none) := by
            rw [update_of_ne (by omega), hprevious]
          refine Does.bind (setCdr_spec (s := { s with
            pairs := Function.update s.pairs s.next (some ((k, d), none)), next := s.next + 1,
            gc := gc2 }) hprevious2 (some s.next)) fun _ s3 _ hr => ?_
          obtain ⟨gc3, rfl⟩ := hr
          have hold : ∀ b, b < s.next → b ≠ previous → Function.update (Function.update s.pairs s.next
              (some ((k, d), none))) previous (some (entry, some s.next)) b = s.pairs b := by
            intro b hb hne
            rw [update_of_ne hne, update_of_ne (by omega)]
          refine (ih s.next (k, d) (s := { s with
            pairs := Function.update (Function.update s.pairs s.next (some ((k, d), none))) previous
              (some (entry, some s.next)), next := s.next + 1, gc := gc3 })
            (hrest.congr fun b hb => hold b (hbounded' b hb) fun hbp => hapart.2 (hbp ▸ hb)) ?_ ?_
            (Nat.lt_succ_self _) ?_ (by omega)).mono fun _ s4 _ hr => ?_
          · dsimp only
            rw [update_of_ne (by omega), update_self]
          · intro hmem
            exact Nat.lt_irrefl _ (hbounded' s.next hmem)
          · intro b hb
            exact Nat.lt_succ_of_lt (hbounded' b hb)
          · obtain ⟨pairs, next, gc4, q', ys, rfl, hle, hpairs, hlast, hys, hmap, hbetween⟩ := hr
            dsimp only at hle hpairs hbetween
            refine ⟨pairs, next, gc4, some s.next, (s.next, (k, d)) :: ys, rfl, by omega,
              fun b hb hne => ?_, ?_, ⟨rfl, q', hlast, hys⟩, ?_, hbetween.cons hle⟩
            · rw [hpairs b (by omega) (by omega), hold b hb hne]
            · rw [hpairs previous (by omega) (by omega), update_self]
            · rw [map_cons, map_cons, hmap]

theorem copyBucket_spec (hxs : Linked s.pairs p xs none) (hnodup : (addresses xs).Nodup)
    (hbounded : ∀ a ∈ addresses xs, a < s.next) :
    Does kept (copyBucket p) s fun q s' => ∃ pairs next gc ys,
      s' = { s with pairs := pairs, next := next, gc := gc } ∧ s.next ≤ next
        ∧ (∀ b, b < s.next → pairs b = s.pairs b) ∧ Linked pairs q ys none
        ∧ ys.map snd = xs.map snd ∧ Between s.next next ys := by
  cases xs with
  | nil =>
      subst hxs
      exact .pure ⟨s.pairs, s.next, s.gc, [], rfl, Nat.le_refl _, fun _ _ => rfl, rfl, rfl, .nil, nofun⟩
  | cons x xs =>
      have hlength := Chains.length_le hnodup hbounded
      obtain ⟨a, k, d⟩ := x
      obtain ⟨rfl, q, hcell, hrest⟩ := hxs
      rw [length_cons] at hlength
      have hbounded' : ∀ b ∈ addresses xs, b < s.next := fun b hb =>
        hbounded b (mem_cons_of_mem _ hb)
      refine Does.bind (pairRef_spec hcell) fun r s1 _ hr => ?_
      obtain ⟨rfl, gc1, rfl⟩ := hr
      refine Does.bind (consEntry_spec (s := { s with gc := gc1 }) k d) fun r s2 _ hr => ?_
      obtain ⟨rfl, gc2, rfl⟩ := hr
      refine Does.bind (m := withPairs fun fuel => copyLoop fuel q s.next) (copyLoop_spec (s.next + 1 + 1)
        s.next (k, d) (p := q) (s := { s with
          pairs := Function.update s.pairs s.next (some ((k, d), none)), next := s.next + 1, gc := gc2 })
        (hrest.congr fun b hb => update_of_ne (Nat.ne_of_lt (hbounded' b hb)) _ _)
        (update_self ..) (fun hmem => Nat.lt_irrefl _ (hbounded' s.next hmem))
        (Nat.lt_succ_self _) (fun b hb => Nat.lt_succ_of_lt (hbounded' b hb)) (by omega))
        fun _ s3 _ hr => ?_
      obtain ⟨pairs, next, gc3, q', ys, rfl, hle, hpairs, hlast, hys, hmap, hbetween⟩ := hr
      dsimp only at hle hpairs hbetween
      refine .pure ⟨pairs, next, gc3, (s.next, (k, d)) :: ys, rfl, by omega, fun b hb => ?_,
        ⟨rfl, q', hlast, hys⟩, ?_, hbetween.cons hle⟩
      · rw [hpairs b (by omega) (by omega), update_of_ne (by omega)]
      · rw [map_cons, map_cons, hmap]

theorem copyBuckets_spec {links : List Link} (h : Holds s.pairs links chains)
    (hnodup : ∀ xs ∈ chains, (addresses xs).Nodup)
    (hbounded : ∀ a ∈ addresses chains.flatten, a < s.next) :
    Does kept (copyBuckets links) s fun links' s' => ∃ pairs next gc chains',
      s' = { s with pairs := pairs, next := next, gc := gc } ∧ s.next ≤ next
        ∧ (∀ b, b < s.next → pairs b = s.pairs b) ∧ Holds pairs links' chains'
        ∧ chains'.map (List.map snd) = chains.map (List.map snd)
        ∧ Between s.next next chains'.flatten := by
  induction links generalizing s chains with
  | nil =>
      obtain rfl : chains = [] := length_eq_zero_iff.mp h.length
      exact .pure ⟨s.pairs, s.next, s.gc, [], rfl, Nat.le_refl _, fun _ _ => rfl, h, rfl, .nil, nofun⟩
  | cons l links ih =>
      cases chains with
      | nil => cases h.length
      | cons xs chains =>
          obtain ⟨hxs, hchains⟩ := holds_cons.mp h
          rw [flatten_cons, addresses_append] at hbounded
          refine Does.bind (copyBucket_spec hxs (hnodup xs mem_cons_self) fun a ha =>
            hbounded a (mem_append_left _ ha)) fun q s1 _ hr => ?_
          obtain ⟨pairs1, next1, gc1, ys, rfl, hle1, hpairs1, hys, hmap1, hbetween1⟩ := hr
          refine Does.bind (ih (s := { s with pairs := pairs1, next := next1, gc := gc1 })
            (hchains.congr fun a ha => hpairs1 a (hbounded a (mem_append_right _ ha)))
            (fun zs hzs => hnodup zs (mem_cons_of_mem _ hzs))
            fun a ha => (hbounded a (mem_append_right _ ha)).trans_le hle1) fun links' s2 _ hr => ?_
          obtain ⟨pairs2, next2, gc2, chains', rfl, hle2, hpairs2, hholds, hmap2, hbetween2⟩ := hr
          dsimp only at hle2 hpairs2 hbetween2
          refine .pure ⟨pairs2, next2, gc2, ys :: chains', rfl, hle1.trans hle2, fun b hb => ?_,
            holds_cons.mpr ⟨hys.congr fun a ha => hpairs2 a (hbetween1.2 a ha).2, hholds⟩, ?_,
            hbetween1.append hbetween2 hle1 hle2⟩
          · rw [hpairs2 b (hb.trans_le hle1), hpairs1 b hb]
          · rw [map_cons, map_cons, hmap1, hmap2]

theorem fillCopy_spec (hi : s.tables[i]? = some t) (hj : s.tables[j]? = some t')
    (h : Holds s.pairs t.buckets chains) (hnodup : ∀ xs ∈ chains, (addresses xs).Nodup)
    (hbounded : ∀ a ∈ addresses chains.flatten, a < s.next) :
    Does kept (fillCopy i j) s fun _ s' => ∃ pairs next tables gc links' chains',
      s' = { s with pairs := pairs, next := next, tables := tables, gc := gc } ∧ s.next ≤ next
        ∧ (∀ b, b < s.next → pairs b = s.pairs b) ∧ Sets s.tables j { t' with buckets := links' } tables
        ∧ Holds pairs links' chains'
        ∧ chains'.map (List.map snd) = chains.map (List.map snd)
        ∧ Between s.next next chains'.flatten := by
  refine Does.bind (readTable_spec hi) fun r s1 _ hr => ?_
  obtain ⟨rfl, gc1, rfl, -⟩ := hr
  refine Does.bind (copyBuckets_spec (s := { s with gc := gc1 }) h hnodup hbounded)
    fun links' s2 _ hr => ?_
  obtain ⟨pairs2, next2, gc2, chains', rfl, hle, hpairs, hholds, hmap, hbetween⟩ := hr
  refine (writeTable_spec (s := { s with pairs := pairs2, next := next2, gc := gc2 }) hj _).mono
    fun _ s3 _ hr => ?_
  obtain ⟨tables3, gc3, rfl, hsets⟩ := hr
  exact ⟨pairs2, next2, tables3, gc3, links', chains', rfl, hle, hpairs, hsets, hholds, hmap, hbetween⟩

/-- While a copy is not recorded, a collection does not set its flag. A copy is undisturbed if the flag
is set anyway, or if no key has another hash when the copy is recorded. -/
def CopyUndisturbed (type : TableType κ P) (i : Nat) (s : State κ δ P) : Prop :=
  ∀ j s' s'', copyTable i s = some (j, s') → fillCopy i j s' = some ((), s'') →
    s'.gc.needsRehash j = true ∨ ∀ key modulus,
      type.keyHash s''.gc.collect.placement key modulus = type.keyHash s'.gc.placement key modulus

theorem Contents.copy {entries entries' : Chain κ δ} (h : Contents type t entries map)
    (hentries : entries'.map snd = entries.map snd) (hcount : t'.count = t.count) :
    Contents type t' entries' map := by
  have hiff : ∀ (es : Chain κ δ) k d, (∃ x ∈ es, type.keyEq x.2.1 k = true ∧ x.2.2 = d)
      ↔ ∃ y ∈ es.map snd, type.keyEq y.1 k = true ∧ y.2 = d := fun es k d => by
    simp only [List.mem_map, exists_exists_and_eq_and]
  have hpairwise : ∀ es : Chain κ δ, (es.Pairwise fun x y => type.keyEq x.2.1 y.2.1 = false)
      ↔ (es.map snd).Pairwise fun x y => type.keyEq x.1 y.1 = false := fun es => by
    rw [pairwise_map]
  refine ⟨?_, ?_, fun k d => ?_⟩
  · rw [hpairwise, hentries, ← hpairwise]
    exact h.distinct
  · have hlength := congrArg List.length hentries
    rw [length_map, length_map] at hlength
    rw [hcount, h.count, hlength]
  · rw [h.mem, hiff, hiff, hentries]

theorem copyTable_spec (h : s.tables[i]? = some t) :
    ∃ gc, Later (fun j => j ≠ s.tables.length) s.gc gc
      ∧ copyTable i s = some (s.tables.length, { s with tables := s.tables ++ [t], gc := gc })
      ∧ (∃ gc', Later (fun _ => True) s.gc gc' ∧ gc.placement = gc'.placement
        ∧ gc.needsRehash s.tables.length = gc'.needsRehash i) := by
  refine ⟨_, (Later.collect _ s.gc).trans (.setNeedsRehash s.gc.collect s.tables.length
    (s.gc.collect.needsRehash i)), ?_, s.gc.collect, .collect _ _, rfl, update_self ..⟩
  rw [copyTable, access]
  simp only [h, Option.bind_eq_bind, Option.bind_some]

theorem Good.fill (h : Good type s i t chains) (gc : Collector P) :
    Does (fun _ => True) (fillCopy i s.tables.length) { s with tables := s.tables ++ [t], gc := gc }
      fun _ s' => ∃ pairs next tables gc links' chains',
        s' = { s with pairs := pairs, next := next, tables := tables, gc := gc } ∧ s.next ≤ next
          ∧ (∀ b, b < s.next → pairs b = s.pairs b)
          ∧ Sets (s.tables ++ [t]) s.tables.length { t with buckets := links' } tables
          ∧ Holds pairs links' chains'
          ∧ chains'.map (List.map snd) = chains.map (List.map snd)
          ∧ Between s.next next chains'.flatten := by
  have hnodup : ∀ xs ∈ chains, (addresses xs).Nodup := by
    intro xs hxs
    obtain ⟨n, hn⟩ := mem_iff_getElem?.mp hxs
    obtain ⟨others, -, -, hnodup, -, -⟩ := h.owns.chain hn
    rw [addresses_append] at hnodup
    exact (nodup_append.mp hnodup).1
  have hi : (s.tables ++ [t])[i]? = some t := by
    rw [List.getElem?_append_left h.owns.lt]
    exact h.owns.table
  exact fillCopy_spec (s := { s with tables := s.tables ++ [t], gc := gc }) hi
    List.getElem?_concat_length h.owns.holds hnodup fun a ha => h.owns.bounded a (by
      rw [mem_owned]
      exact .inr ha)

theorem Good.copyUndisturbed (h : Good type s i t chains) (hgc : s.gc.schedule = []) :
    CopyUndisturbed type i s := by
  intro j s' s'' hcopy hfill
  obtain ⟨gc1, hlater1, hcopy1, -⟩ := copyTable_spec h.owns.table
  rw [hcopy1] at hcopy
  cases hcopy
  have hlater2 := ((h.fill gc1).of_eq hfill).1
  have hlater := hlater2.trans (.collect _ _)
  exact .inr fun key modulus => by rw [hlater.fixed (hlater1.nil hgc)]

theorem hashTableCopy_spec (h : Good type s i t chains) (hundisturbed : CopyUndisturbed type i s) :
    Completes (hashTableCopy type i) s fun _ s' => Made s s' ∧ ∃ t' chains',
      Good type s' s.tables.length t' chains' ∧ t'.count = t.count
        ∧ chains'.flatten.map snd = chains.flatten.map snd
        ∧ (∀ a ∈ owned [] chains', s.next ≤ a)
        ∧ (s.gc.schedule = [] → s.gc.needsRehash i = false →
            s'.gc.needsRehash s.tables.length = false) := by
  obtain ⟨gc1, hlater1, hcopy, gc1', hlater1', hplacement, hflag⟩ :=
    copyTable_spec h.owns.table
  have hfill := h.fill gc1
  obtain ⟨⟨⟩, s2, hm2, hlater2, pairs2, next2, tables2, gc2, links, chains', rfl, hle, hpairs, hsets,
    hholds, hmap, hbetween⟩ := hfill
  refine Completes.bind (Q := fun j s' => s.tables.length = j ∧ _ = s') ⟨_, _, hcopy, rfl, rfl⟩
    fun j s' hr => ?_
  obtain ⟨rfl, rfl⟩ := hr
  refine Completes.bind (Q := fun _ s' => _ = s') ⟨(), _, hm2, rfl⟩ fun _ s' hr => ?_
  obtain rfl := hr
  refine (recordIfAddressHash_spec _ s.tables.length).mono fun _ s' hr => ?_
  obtain ⟨gc3, recorded, hlater3, rfl, hrecord, hsub⟩ := hr
  have hlater := hlater2.trans hlater3
  have hmade := Made.record s { s with pairs := pairs2, next := next2, tables := tables2, gc := gc2 }
    (hlater1.trans (hlater2.mono fun _ _ => trivial)) (fun j hj => by
      rw [hsets.others j (Nat.ne_of_lt hj), List.getElem?_append_left hj])
    (by rw [hsets.length, length_append, length_singleton]) hle hpairs hlater3 hsub
  have hlength : chains'.length = chains.length := by
    have := congrArg List.length hmap
    rwa [length_map, length_map] at this
  have hbuckets : links.length = t.buckets.length := by
    rw [← hholds.length, hlength, h.owns.holds.length]
  have howned : owned [] chains' = addresses chains'.flatten := rfl
  refine ⟨hmade, _, chains', ⟨⟨hsets.get, hholds, howned ▸ hbetween.1, fun a ha =>
    (hbetween.2 a (howned ▸ ha)).2⟩, ?_, ?_, h.shrink, fun hrehash => (hrecord hrehash).2, ?_⟩, rfl, ?_,
    fun a ha => (hbetween.2 a (howned ▸ ha)).1, fun hgc hclear => ?_⟩
  · exact hbuckets ▸ h.positive
  · exact h.primes.trans hbuckets.symm
  · -- the copy is laid out as the table was when it was copied
    intro hsettled n xs hxs x hx
    have hchain : (chains.map (List.map snd))[n]? = some (xs.map snd) := by
      rw [← hmap, List.getElem?_map, hxs]
      rfl
    rw [List.getElem?_map, Option.map_eq_some_iff] at hchain
    obtain ⟨ys, hys, heq⟩ := hchain
    have hmem : x.2 ∈ ys.map snd := heq ▸ List.mem_map_of_mem hx
    obtain ⟨y, hy, hyx⟩ := List.mem_map.mp hmem
    have hsettled1 : Settled type gc1' i := fun hrehash =>
      hflag ▸ (hlater.still s.tables.length trivial (hsettled hrehash)).1
    have hlaid := h.laid.later hlater1' trivial h.recorded hsettled1 n ys hys y hy
    rw [← hyx, hlength, ← hlaid, ← hplacement]
    cases hrehash : type.rehashAfterGc with
    | false => exact type.keyHash_fixed hrehash _ _ _ _
    | true =>
        rw [(hrecord hrehash).1]
        rcases hundisturbed _ _ _ hcopy hm2 with hset | hsame
        · rw [(hlater.still s.tables.length trivial (hsettled hrehash)).1] at hset
          cases hset
        · exact hsame _ _
  · rw [map_flatten, hmap, ← map_flatten]
  · have hgc1 := hlater1.nil hgc
    rw [hlater.idle hgc1 _ trivial, hflag, hlater1'.idle hgc i trivial]
    exact hclear

end MitScheme.HashTable
