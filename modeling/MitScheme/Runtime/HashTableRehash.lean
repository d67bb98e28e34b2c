import MitScheme.Runtime.HashTableSteps

/-!
# Rehashing and resizing

The pairs of a table are taken out of their chains and put in again. Whatever collections run on the way,
the same pairs are in the chains in the end, and if `needs-rehash?` is not set then each of them is where
the hash of its key says.
-/

namespace MitScheme.HashTable

open Programs Chains List

/-- The pairs of a chain, with their entries. -/
abbrev Chain (κ δ : Type) := List (Nat × (κ × δ))

variable {κ δ P : Type} {type : TableType κ P} {kept : Nat → Prop} {gc gc' : Collector P}
  {s s' s'' : State κ δ P} {i : Nat} {t t' : Table} {chains chains' : List (Chain κ δ)}
  {xs ys loose : Chain κ δ} {p : Link}

/-! ## The pairs of a table -/

/-- The addresses of some pairs that are in no chain, and of those in the chains. -/
def owned (loose : Chain κ δ) (chains : List (Chain κ δ)) : List Nat :=
  addresses (loose ++ chains.flatten)

@[simp] theorem mem_owned {a : Nat} :
    a ∈ owned loose chains ↔ a ∈ addresses loose ∨ a ∈ addresses chains.flatten := by
  rw [owned, addresses_append, mem_append]

/-- The table has these chains, and there are some more pairs at addresses of their own. -/
structure Owns (s : State κ δ P) (i : Nat) (t : Table) (chains : List (Chain κ δ))
    (loose : Chain κ δ) : Prop where
  table : s.tables[i]? = some t
  holds : Holds s.pairs t.buckets chains
  nodup : (owned loose chains).Nodup
  bounded : ∀ a ∈ owned loose chains, a < s.next

/-- Only one table changes, and of the pairs only those at some addresses, and new ones. -/
structure Touches (i : Nat) (owned : List Nat) (s s' : State κ δ P) : Prop where
  tables : ∀ j, j ≠ i → s'.tables[j]? = s.tables[j]?
  length : s'.tables.length = s.tables.length
  next : s.next ≤ s'.next
  pairs : ∀ a, a < s.next → a ∉ owned → s'.pairs a = s.pairs a

variable {as bs : List Nat}

theorem Touches.refl (i : Nat) (as : List Nat) (s : State κ δ P) : Touches i as s s :=
  ⟨fun _ _ => rfl, rfl, Nat.le_refl _, fun _ _ _ => rfl⟩

theorem Touches.trans (h : Touches i as s s') (h' : Touches i bs s' s'')
    (hsub : ∀ a ∈ bs, a ∈ as ∨ s.next ≤ a) : Touches i as s s'' := by
  refine ⟨fun j hj => (h'.tables j hj).trans (h.tables j hj), h'.length.trans h.length,
    h.next.trans h'.next, fun a ha hmem => ?_⟩
  rw [h'.pairs a (ha.trans_le h.next) fun hb => ?_, h.pairs a ha hmem]
  rcases hsub a hb with hin | hle
  · exact hmem hin
  · omega

theorem Owns.lt (h : Owns s i t chains loose) : i < s.tables.length :=
  (List.getElem?_eq_some_iff.mp h.table).1

theorem Owns.later (h : Owns s i t chains loose) (gc : Collector P) :
    Owns { s with gc := gc } i t chains loose := ⟨h.table, h.holds, h.nodup, h.bounded⟩

theorem Touches.of_later {gc : Collector P} (h : Touches i as { s with gc := gc } s') :
    Touches i as s s' := ⟨h.tables, h.length, h.next, h.pairs⟩

theorem Touches.mono (h : Touches i as s s') (hsub : as ⊆ bs) : Touches i bs s s' :=
  ⟨h.tables, h.length, h.next, fun a ha hmem => h.pairs a ha fun hin => hmem (hsub hin)⟩

theorem Touches.later (h : Touches i as s s') (gc : Collector P) :
    Touches i as s { s' with gc := gc } := ⟨h.tables, h.length, h.next, h.pairs⟩

variable {tables : List Table}

theorem Owns.sets (h : Owns s i t chains loose) (hsets : Sets s.tables i t' tables)
    (hbuckets : t'.buckets = t.buckets) (gc : Collector P) :
    Owns { s with tables := tables, gc := gc } i t' chains loose :=
  ⟨hsets.get, hbuckets ▸ h.holds, h.nodup, h.bounded⟩

theorem Touches.sets (hsets : Sets s.tables i t' tables) (gc : Collector P) :
    Touches i as s { s with tables := tables, gc := gc } :=
  ⟨hsets.others, hsets.length, Nat.le_refl _, fun _ _ _ => rfl⟩

theorem Touches.update {a : Nat} (ha : a ∈ as) (cell : Option ((κ × δ) × Link))
    (hsets : Sets s.tables i t' tables) (gc : Collector P) : Touches i as s { s with
      pairs := Function.update s.pairs a cell, tables := tables, gc := gc } := by
  refine ⟨hsets.others, hsets.length, Nat.le_refl _, fun b _ hb => ?_⟩
  refine Function.update_of_ne (fun hba => hb ?_) _ _
  rw [hba]
  exact ha

theorem Owns.loosen (h : Owns s i t chains loose) :
    (addresses (chains.flatten ++ loose)).Nodup ∧ ∀ a ∈ addresses (chains.flatten ++ loose),
      a < s.next := by
  have hperm : (addresses (chains.flatten ++ loose)).Perm (owned loose chains) :=
    perm_append_comm.map _
  exact ⟨hperm.nodup_iff.mpr h.nodup, fun a ha => h.bounded a (hperm.mem_iff.mp ha)⟩

/-- The table need not be rehashed. -/
def Settled (type : TableType κ P) (gc : Collector P) (i : Nat) : Prop :=
  type.rehashAfterGc = true → gc.needsRehash i = false

/-- If the table need not be rehashed, each pair is in the bucket of its key. -/
def Laid (type : TableType κ P) (gc : Collector P) (i : Nat) (chains : List (Chain κ δ)) : Prop :=
  Settled type gc i → ∀ (n : Nat) xs, chains[n]? = some xs → ∀ x ∈ xs,
    type.keyHash gc.placement x.2.1 chains.length = n

theorem Later.settled (h : Later kept gc gc') (hi : kept i) (hsettled : Settled type gc' i) :
    Settled type gc i := fun hrehash => (h.still i hi (hsettled hrehash)).1

theorem Later.keyHash (h : Later kept gc gc') (hi : kept i)
    (hrecorded : type.rehashAfterGc = true → i ∈ gc.recorded) (hsettled : Settled type gc' i)
    (key : κ) (modulus : Nat) :
    type.keyHash gc'.placement key modulus = type.keyHash gc.placement key modulus := by
  cases hrehash : type.rehashAfterGc with
  | true => rw [(h.still i hi (hsettled hrehash)).2 (hrecorded hrehash)]
  | false => exact type.keyHash_fixed hrehash _ _ key modulus

theorem Laid.later (h : Laid type gc i chains) (hlater : Later kept gc gc') (hi : kept i)
    (hrecorded : type.rehashAfterGc = true → i ∈ gc.recorded) : Laid type gc' i chains := by
  intro hsettled n xs hxs x hx
  rw [hlater.keyHash hi hrecorded hsettled]
  exact h (hlater.settled hi hsettled) n xs hxs x hx

theorem laid_replicate (n : Nat) : Laid type gc i (List.replicate n ([] : Chain κ δ)) := by
  intro _ m xs hxs x hx
  rw [List.getElem?_replicate] at hxs
  by_cases hm : m < n
  · rw [if_pos hm] at hxs
    cases hxs
    cases hx
  · rw [if_neg hm] at hxs
    cases hxs

/-! ## Relinking -/

variable {a : Nat} {entry : κ × δ} {n : Nat}

theorem Owns.push (h : Owns s i t chains ((a, entry) :: loose)) (hn : chains[n]? = some xs)
    (hl : t.buckets[n]? = some p)
    (hsets : Sets s.tables i { t with buckets := t.buckets.set n (some a) } tables)
    (gc : Collector P) :
    Owns { s with
        pairs := Function.update s.pairs a (some (entry, p)), tables := tables, gc := gc } i
      { t with buckets := t.buckets.set n (some a) } (chains.set n ((a, entry) :: xs)) loose
      ∧ (chains.set n ((a, entry) :: xs)).flatten.Perm ((a, entry) :: chains.flatten) := by
  obtain ⟨others, hperm, hset, hsub⟩ := flatten_set hn
  have hflat : (chains.set n ((a, entry) :: xs)).flatten.Perm ((a, entry) :: chains.flatten) :=
    (hset _).trans (hperm.symm.cons _)
  have howned : (owned loose (chains.set n ((a, entry) :: xs))).Perm
      (owned ((a, entry) :: loose) chains) :=
    ((hflat.append_left loose).trans perm_middle).map _
  have ha : a ∉ addresses chains.flatten := by
    have := h.nodup
    rw [owned, cons_append, addresses_cons, nodup_cons, addresses_append] at this
    exact fun hmem => this.1 (mem_append_right _ hmem)
  have hne : ∀ (m : Nat) ys, chains[m]? = some ys → ∀ b ∈ addresses ys,
      Function.update s.pairs a (some (entry, p)) b = s.pairs b := by
    intro m ys hys b hb
    refine Function.update_of_ne (fun hba => ha ?_) _ _
    rw [addresses, List.mem_map] at hb ⊢
    obtain ⟨x, hx, rfl⟩ := hb
    exact ⟨x, mem_flatten_of_mem (mem_of_getElem? hys) hx, hba⟩
  refine ⟨⟨hsets.get, ?_, howned.nodup_iff.mpr h.nodup,
    fun b hb => h.bounded b (howned.mem_iff.mp hb)⟩, hflat⟩
  · refine h.holds.set ⟨rfl, p, Function.update_self .., ?_⟩ fun m ys _ hys => hne m ys hys
    exact (h.holds.linked n p xs hl hn).congr (hne n xs hn)

/-- What the method `rehash!` makes of some loose pairs and the chains that are there. -/
structure Rehashed (type : TableType κ P) (i : Nat) (s : State κ δ P) (t : Table)
    (chains : List (Chain κ δ)) (xs loose : Chain κ δ) (s' : State κ δ P) (t' : Table)
    (chains' : List (Chain κ δ)) : Prop where
  owns : Owns s' i t' chains' loose
  table : t' = { t with buckets := t'.buckets }
  buckets : t'.buckets.length = t.buckets.length
  perm : chains'.flatten.Perm (xs ++ chains.flatten)
  touches : Touches i (owned xs chains) s s'
  laid : Laid type s.gc i chains → Laid type s'.gc i chains'

theorem rehashLoop_spec (fuel : Nat) (h : Owns s i t chains (xs ++ loose))
    (hxs : Linked s.pairs p xs none) (hpositive : 0 < t.buckets.length)
    (hrecorded : type.rehashAfterGc = true → i ∈ s.gc.recorded) (hfuel : xs.length < fuel) :
    Does (fun _ => True) (rehashLoop type i t.buckets.length fuel p) s fun _ s' =>
      ∃ t' chains', Rehashed type i s t chains xs loose s' t' chains' := by
  induction fuel generalizing s p xs t chains with
  | zero => omega
  | succ fuel ih =>
      cases xs with
      | nil =>
          cases hxs
          exact .pure ⟨t, chains, h, rfl, rfl, .refl _, .refl _ _ _, fun hlaid => hlaid⟩
      | cons x xs =>
          obtain ⟨a, entry⟩ := x
          obtain ⟨rfl, q, hcell, hrest⟩ := hxs
          refine Does.bind (pairRef_spec hcell) fun r s1 hlater1 hr => ?_
          obtain ⟨rfl, gc1, rfl⟩ := hr
          refine Does.bind (keyHash_spec entry.1 t.buckets.length) fun hash s2 hlater2 hr => ?_
          obtain ⟨gc2, rfl, rfl⟩ := hr
          have hlt := type.keyHash_lt gc2.placement entry.1 hpositive
          obtain ⟨chain, hchain⟩ : ∃ chain, t.buckets[_]? = some chain :=
            ⟨_, List.getElem?_eq_getElem hlt⟩
          obtain ⟨ys, hys, -⟩ := h.holds.exists_chain hchain
          refine Does.bind (bucketRef_spec (s := { s with gc := gc2 }) h.table hchain) fun r s3 hlater3 hr => ?_
          obtain ⟨rfl, gc3, rfl⟩ := hr
          refine Does.bind (setCdr_spec (s := { s with gc := gc3 }) hcell chain) fun _ s4 hlater4 hr => ?_
          obtain ⟨gc4, rfl⟩ := hr
          refine Does.bind (bucketSet_spec
            (s := { s with pairs := Function.update s.pairs a (some (entry, chain)), gc := gc4 })
            h.table hlt (some a)) fun _ s5 hlater5 hr => ?_
          obtain ⟨tables, gc5, rfl, hsets⟩ := hr
          obtain ⟨h5, hflat⟩ := Owns.push h hys hchain hsets gc5
          have hlater25 := (hlater3.trans hlater4).trans hlater5
          have hlater05 := (hlater1.trans hlater2).trans hlater25
          have hrecorded2 : type.rehashAfterGc = true → i ∈ gc2.recorded := fun hrehash => by
            rw [hlater2.recorded, hlater1.recorded]
            exact hrecorded hrehash
          -- the pairs that are still to come have not been touched
          have hrest5 : Linked (Function.update s.pairs a (some (entry, chain))) q xs none := by
            refine hrest.congr fun b hb => Function.update_of_ne (fun hba => ?_) _ _
            have := h.nodup
            rw [owned, append_assoc, cons_append, addresses_cons, nodup_cons] at this
            rw [← hba, addresses_append] at this
            exact this.1 (mem_append_left _ hb)
          have hnext := ih h5 hrest5 (by rw [length_set]; exact hpositive)
            (fun hrehash => hlater05.recorded ▸ hrecorded hrehash)
            (by rw [length_cons] at hfuel; omega)
          rw [length_set] at hnext
          refine hnext.mono fun _ s' hlater hr => ?_
          obtain ⟨t', chains', hr⟩ := hr
          refine ⟨t', chains', hr.owns, hr.table, by rw [hr.buckets, length_set], ?_, ?_, ?_⟩
          · exact (hr.perm.trans (hflat.append_left xs)).trans perm_middle
          · have howned : (owned xs (chains.set _ ((a, entry) :: ys))).Perm
                (owned ((a, entry) :: xs) chains) :=
              ((hflat.append_left _).trans perm_middle).map _
            exact (Touches.update (s := s) mem_cons_self _ hsets gc5).trans hr.touches
              fun b hb => .inl (howned.mem_iff.mp hb)
          · intro hlaid
            refine hr.laid fun hflag m zs hzs x hx => ?_
            have hlaid5 := hlaid.later hlater05 trivial hrecorded hflag
            rw [length_set]
            by_cases hm : m = type.keyHash gc2.placement entry.1 t.buckets.length
            · subst hm
              rw [List.getElem?_set_self (h.holds.length ▸ hlt)] at hzs
              cases hzs
              rcases mem_cons.mp hx with rfl | hx
              · rw [hlater25.keyHash trivial hrecorded2 hflag, h.holds.length]
              · exact hlaid5 _ ys hys x hx
            · rw [List.getElem?_set_ne (Ne.symm hm)] at hzs
              exact hlaid5 m zs hzs x hx

theorem Owns.length_le (h : Owns s i t chains (xs ++ loose)) : xs.length ≤ s.next := by
  refine Chains.length_le ?_ fun a ha => h.bounded a ?_
  · have := h.nodup
    rw [owned, append_assoc, addresses_append] at this
    exact (nodup_append.mp this).1
  · rw [owned, append_assoc, addresses_append]
    exact mem_append_left _ ha

theorem rehash_spec (h : Owns s i t chains (xs ++ loose)) (hxs : Linked s.pairs p xs none)
    (hpositive : 0 < t.buckets.length)
    (hrecorded : type.rehashAfterGc = true → i ∈ s.gc.recorded) :
    Does (fun _ => True) (rehash type i p) s fun _ s' =>
      ∃ t' chains', Rehashed type i s t chains xs loose s' t' chains' := by
  refine Does.bind (readTable_spec h.table) fun r s1 hlater1 hr => ?_
  obtain ⟨rfl, gc1, rfl, -⟩ := hr
  have hlength := h.length_le
  refine (rehashLoop_spec (s.next + 1) (h.later gc1) hxs hpositive
    (fun hrehash => hlater1.recorded ▸ hrecorded hrehash) (by omega)).mono fun _ s' _ hr => ?_
  obtain ⟨t', chains', hr⟩ := hr
  exact ⟨t', chains', hr.owns, hr.table, hr.buckets, hr.perm, hr.touches.of_later,
    fun hlaid => hr.laid (hlaid.later hlater1 trivial hrecorded)⟩

theorem rehashBuckets_spec {links : List Link} {olds : List (Chain κ δ)}
    (hold : Holds s.pairs links olds) (h : Owns s i t chains (olds.flatten ++ loose))
    (hpositive : 0 < t.buckets.length)
    (hrecorded : type.rehashAfterGc = true → i ∈ s.gc.recorded) :
    Does (fun _ => True) (rehashBuckets type i links) s fun _ s' =>
      ∃ t' chains', Rehashed type i s t chains olds.flatten loose s' t' chains' := by
  induction links generalizing s t chains olds with
  | nil =>
      obtain rfl : olds = [] := length_eq_zero_iff.mp hold.length
      exact .pure ⟨t, chains, h, rfl, rfl, .refl _, .refl _ _ _, fun hlaid => hlaid⟩
  | cons l links ih =>
      cases olds with
      | nil => cases hold.length
      | cons xs olds =>
          rw [flatten_cons, append_assoc] at h
          obtain ⟨hxs, htail⟩ := holds_cons.mp hold
          refine Does.bind (rehash_spec h hxs hpositive hrecorded) fun _ s1 hlater1 hr => ?_
          obtain ⟨t1, chains1, hr⟩ := hr
          -- the other chains have not been touched
          have hold1 : Holds s1.pairs links olds := by
            refine htail.congr fun b hb => hr.touches.pairs b (h.bounded b ?_) fun hmem => ?_
            · rw [owned, addresses_append, addresses_append, addresses_append]
              exact mem_append_left _ (mem_append_right _ (mem_append_left _ hb))
            · have hnodup := h.nodup
              rw [owned, addresses_append, addresses_append, addresses_append] at hnodup
              rw [owned, addresses_append] at hmem
              have hdisjoint := nodup_append.mp hnodup
              rcases mem_append.mp hmem with hmem | hmem
              · exact (nodup_append.mp hdisjoint.1).2.2 b hmem b
                  (mem_append_left _ hb) rfl
              · exact hdisjoint.2.2 b (mem_append_right _ (mem_append_left _ hb)) b hmem rfl
          refine (ih hold1 hr.owns (hr.buckets ▸ hpositive)
            fun hrehash => hlater1.recorded ▸ hrecorded hrehash).mono fun _ s' _ hr' => ?_
          obtain ⟨t', chains', hr'⟩ := hr'
          refine ⟨t', chains', hr'.owns, ?_, hr'.buckets.trans hr.buckets, ?_, ?_,
            fun hlaid => hr'.laid (hr.laid hlaid)⟩
          · rw [hr'.table, hr.table]
          · rw [flatten_cons, append_assoc]
            exact (hr'.perm.trans (hr.perm.append_left _)).trans
              (perm_append_comm_assoc _ _ _)
          · refine (hr.touches.mono fun b hb => ?_).trans hr'.touches fun b hb => .inl ?_
            · rw [mem_owned] at hb
              rw [mem_owned, flatten_cons, addresses_append, mem_append, or_assoc]
              exact hb.imp_right .inr
            · have hmem : b ∈ addresses chains1.flatten ↔ b ∈ addresses (xs ++ chains.flatten) :=
                (hr.perm.map _).mem_iff
              rw [addresses_append, mem_append] at hmem
              rw [mem_owned, hmem] at hb
              rw [mem_owned, flatten_cons, addresses_append, mem_append, or_assoc]
              exact or_left_comm.mp hb

end MitScheme.HashTable
