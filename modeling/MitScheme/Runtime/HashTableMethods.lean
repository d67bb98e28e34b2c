import MitScheme.Runtime.HashTableAddresses

/-!
# The methods

What the methods do to the finite map that a table stands for. They work on one chain, where the key would
be, and link at most one pair anew.
-/

namespace MitScheme.HashTable

open Programs Chains List Function

variable {κ δ P : Type} {type : TableType κ P} {kept : Nat → Prop} {s s' s'' : State κ δ P} {i : Nat}
  {t t' : Table} {chains chains' : List (Chain κ δ)} {xs ys : Chain κ δ} {p l : Link}
  {tables : List Table} {n next : Nat} {key : κ} {datum : δ} {pairs : Cells (κ × δ)}

/-! ## The map of a table -/

/-- The map has another datum for a key. -/
def TableType.set (type : TableType κ P) (map : κ → Option δ) (key : κ) (datum : δ) : κ → Option δ :=
  fun k => if type.keyEq key k then some datum else map k

/-- The map has nothing for a key. -/
def TableType.erase (type : TableType κ P) (map : κ → Option δ) (key : κ) : κ → Option δ :=
  fun k => if type.keyEq key k then none else map k

/-- The entries of a table are those of the map, without two for equal keys, and are counted. -/
structure Contents (type : TableType κ P) (t : Table) (entries : Chain κ δ) (map : κ → Option δ) :
    Prop where
  distinct : entries.Pairwise fun x y => type.keyEq x.2.1 y.2.1 = false
  count : t.count = entries.length
  mem : ∀ k d, map k = some d ↔ ∃ x ∈ entries, type.keyEq x.2.1 k = true ∧ x.2.2 = d

variable {entries entries' others : Chain κ δ} {x : Nat × (κ × δ)} {map : κ → Option δ}

theorem keyEq_false_symm {a b : κ} (h : type.keyEq a b = false) : type.keyEq b a = false := by
  cases hba : type.keyEq b a with
  | false => rfl
  | true =>
      rw [type.keyEq_symm hba] at h
      cases h

theorem Contents.perm (h : Contents type t entries map) (hperm : entries'.Perm entries)
    (hcount : t'.count = t.count) : Contents type t' entries' map := by
  refine ⟨(hperm.pairwise_iff keyEq_false_symm).mpr h.distinct, ?_, fun k d => ?_⟩
  · rw [hcount, h.count, hperm.length_eq]
  · rw [h.mem k d]
    exact exists_congr fun x => and_congr_left fun _ => hperm.mem_iff.symm

theorem Contents.count_nonneg (h : Contents type t entries map) : 0 ≤ t.count := by
  rw [h.count]
  omega

theorem Contents.eq_none (h : Contents type t entries map)
    (hkey : ∀ x ∈ entries, type.keyEq x.2.1 key = false) : map key = none := by
  cases hmap : map key with
  | none => rfl
  | some d =>
      obtain ⟨x, hx, heq, -⟩ := (h.mem key d).mp hmap
      rw [hkey x hx] at heq
      cases heq

theorem Contents.alone (h : Contents type t (x :: others) map) (hx : type.keyEq x.2.1 key = true) :
    ∀ y ∈ others, type.keyEq y.2.1 key = false := by
  intro y hy
  cases heq : type.keyEq y.2.1 key with
  | false => rfl
  | true =>
      have hne := (pairwise_cons.mp h.distinct).1 y hy
      rw [type.keyEq_trans hx (type.keyEq_symm heq)] at hne
      cases hne

theorem Contents.insert (h : Contents type t entries map)
    (hkey : ∀ x ∈ entries, type.keyEq x.2.1 key = false) (a : Nat) (hcount : t'.count = t.count + 1) :
    Contents type t' ((a, (key, datum)) :: entries) (type.set map key datum) := by
  refine ⟨pairwise_cons.mpr ⟨fun x hx => keyEq_false_symm (hkey x hx), h.distinct⟩, ?_,
    fun k d => ?_⟩
  · rw [hcount, h.count]
    rfl
  · rw [TableType.set]
    cases hk : type.keyEq key k with
    | true =>
        rw [if_pos rfl, Option.some_inj]
        refine ⟨fun heq => ⟨_, mem_cons_self, hk, heq⟩, fun ⟨y, hy, hyk, hyd⟩ => ?_⟩
        rcases mem_cons.mp hy with rfl | hy
        · exact hyd
        · have := hkey y hy
          rw [type.keyEq_trans hyk (type.keyEq_symm hk)] at this
          cases this
    | false =>
        rw [if_neg Bool.false_ne_true, h.mem k d]
        refine ⟨fun ⟨y, hy, hyk⟩ => ⟨y, mem_cons_of_mem _ hy, hyk⟩, fun ⟨y, hy, hyk, hyd⟩ => ?_⟩
        rcases mem_cons.mp hy with rfl | hy
        · rw [hk] at hyk
          cases hyk
        · exact ⟨y, hy, hyk, hyd⟩

theorem Contents.erase (h : Contents type t (x :: others) map) (hx : type.keyEq x.2.1 key = true)
    (hcount : t'.count = t.count - 1) : Contents type t' others (type.erase map key) := by
  have hothers := h.alone hx
  refine ⟨(pairwise_cons.mp h.distinct).2, ?_, fun k d => ?_⟩
  · rw [hcount, h.count, length_cons]
    omega
  · rw [TableType.erase]
    cases hk : type.keyEq key k with
    | true =>
        refine ⟨nofun, fun ⟨y, hy, hyk, _⟩ => ?_⟩
        have := hothers y hy
        rw [type.keyEq_trans hyk (type.keyEq_symm hk)] at this
        cases this
    | false =>
        rw [if_neg Bool.false_ne_true, h.mem k d]
        refine ⟨fun ⟨y, hy, hyk, hyd⟩ => ?_, fun ⟨y, hy, hyk⟩ => ⟨y, mem_cons_of_mem _ hy, hyk⟩⟩
        rcases mem_cons.mp hy with rfl | hy
        · rw [type.keyEq_trans (type.keyEq_symm hx) hyk] at hk
          cases hk
        · exact ⟨y, hy, hyk, hyd⟩

theorem Contents.update (h : Contents type t (x :: others) map) (hx : type.keyEq x.2.1 key = true)
    (hcount : t'.count = t.count) :
    Contents type t' ((x.1, (x.2.1, datum)) :: others) (type.set map key datum) := by
  refine ⟨pairwise_cons.mpr (pairwise_cons.mp h.distinct), ?_, fun k d => ?_⟩
  · rw [hcount, h.count, length_cons, length_cons]
  · rw [TableType.set]
    cases hk : type.keyEq key k with
    | true =>
        rw [if_pos rfl, Option.some_inj]
        refine ⟨fun heq => ⟨_, mem_cons_self, type.keyEq_trans hx hk, heq⟩,
          fun ⟨y, hy, hyk, hyd⟩ => ?_⟩
        rcases mem_cons.mp hy with rfl | hy
        · exact hyd
        · have := h.alone hx y hy
          rw [type.keyEq_trans hyk (type.keyEq_symm hk)] at this
          cases this
    | false =>
        rw [if_neg Bool.false_ne_true, h.mem k d]
        have hxk : ¬ type.keyEq x.2.1 k = true := fun hxk => by
          rw [type.keyEq_trans (type.keyEq_symm hx) hxk] at hk
          cases hk
        refine ⟨fun ⟨y, hy, hyk, hyd⟩ => ?_, fun ⟨y, hy, hyk, hyd⟩ => ?_⟩
        · rcases mem_cons.mp hy with rfl | hy
          · exact absurd hyk hxk
          · exact ⟨y, mem_cons_of_mem _ hy, hyk, hyd⟩
        · rcases mem_cons.mp hy with rfl | hy
          · exact absurd hyk hxk
          · exact ⟨y, mem_cons_of_mem _ hy, hyk, hyd⟩

/-! ## Looking up -/

theorem getLoop_spec (fuel : Nat) (hxs : Linked s.pairs p xs none) (hfuel : xs.length < fuel) :
    Does kept (getLoop type key fuel p) s fun r s' => ∃ gc, s' = { s with gc := gc }
      ∧ r = (xs.find? fun x => type.keyEq x.2.1 key).map fun x => x.2.2 := by
  induction fuel generalizing s p xs with
  | zero => omega
  | succ fuel ih =>
      cases xs with
      | nil =>
          subst hxs
          exact .pure ⟨s.gc, rfl, rfl⟩
      | cons x xs =>
          obtain ⟨a, entry⟩ := x
          obtain ⟨rfl, q, hcell, hrest⟩ := hxs
          rw [length_cons] at hfuel
          refine Does.bind (pairRef_spec hcell) fun r s1 _ hr => ?_
          obtain ⟨rfl, gc1, rfl⟩ := hr
          dsimp only
          cases hkey : type.keyEq entry.1 key with
          | true =>
              refine .pure ⟨gc1, rfl, ?_⟩
              simp only [List.find?_cons, hkey, Option.map_some]
          | false =>
              refine (ih (s := { s with gc := gc1 }) hrest (by omega)).mono fun r s2 _ hr => ?_
              obtain ⟨gc2, rfl, rfl⟩ := hr
              refine ⟨gc2, rfl, ?_⟩
              simp only [List.find?_cons, hkey]

theorem Contents.find (h : Contents type t chains.flatten map)
    (hlocated : Located type s i chains key n) (hn : chains[n]? = some xs) :
    (xs.find? fun x => type.keyEq x.2.1 key).map (fun x => x.2.2) = map key := by
  cases hfind : xs.find? fun x => type.keyEq x.2.1 key with
  | none =>
      refine (h.eq_none fun x hx => ?_).symm
      obtain ⟨zs, hzs, hmem⟩ := mem_flatten.mp hx
      obtain ⟨m, hm⟩ := mem_iff_getElem?.mp hzs
      cases heq : type.keyEq x.2.1 key with
      | false => rfl
      | true =>
          have hmn := hlocated.only m zs hm x hmem heq
          subst hmn
          rw [hn] at hm
          cases hm
          exact absurd heq (List.find?_eq_none.mp hfind x hmem)
  | some x =>
      have hkey : type.keyEq x.2.1 key = true := by simpa using List.find?_some hfind
      refine ((h.mem key x.2.2).mpr ⟨x, ?_, hkey, rfl⟩).symm
      exact mem_flatten_of_mem (mem_of_getElem? hn) (List.mem_of_find?_eq_some hfind)

theorem Owns.chain (h : Owns s i t chains []) (hn : chains[n]? = some xs) :
    ∃ others, chains.flatten.Perm (xs ++ others)
      ∧ (∀ ys, (chains.set n ys).flatten.Perm (ys ++ others))
      ∧ (addresses (xs ++ others)).Nodup ∧ (∀ a ∈ addresses (xs ++ others), a < s.next)
      ∧ ∀ (m : Nat) ys, m ≠ n → chains[m]? = some ys → ys ⊆ others := by
  obtain ⟨others, hperm, hset, hsub⟩ := flatten_set hn
  have haddresses : (addresses (xs ++ others)).Perm (owned [] chains) := hperm.symm.map _
  exact ⟨others, hperm, hset, haddresses.nodup_iff.mpr h.nodup,
    fun a ha => h.bounded a (haddresses.mem_iff.mp ha), hsub⟩

theorem Owns.chain_length_le (h : Owns s i t chains []) (hn : chains[n]? = some xs) :
    xs.length ≤ s.next := by
  obtain ⟨others, -, -, hnodup, hbounded, -⟩ := h.chain hn
  rw [addresses_append] at hnodup hbounded
  exact Chains.length_le (nodup_append.mp hnodup).1 fun a ha =>
    hbounded a (mem_append_left _ ha)

theorem bucket_spec {α : Type} {m : Nat → Link → M κ δ P α} {Q : α → State κ δ P → Prop}
    (h : Good type s i t chains) (hcount : 0 ≤ t.count) (key : κ)
    (hm : ∀ s' t' chains' hash l xs, Later (fun j => j ≠ i) s.gc s'.gc →
      Reorganized type i s t chains s' t' chains' → Located type s' i chains' key hash →
      chains'[hash]? = some xs → t'.buckets[hash]? = some l → Linked s'.pairs l xs none →
      Does (fun j => j ≠ i) (m hash l) s' Q) :
    Does (fun j => j ≠ i) (do
      let hash ← computeHash type i key
      let p ← bucketRef i hash
      m hash p) s Q := by
  refine Does.bind (computeHash_spec h hcount key) fun hash s1 hlater1 hr => ?_
  obtain ⟨t1, chains1, hr1, hlocated⟩ := hr
  have hlt : hash < t1.buckets.length := hr1.good.owns.holds.length ▸ hlocated.lt
  have hp : t1.buckets[hash]? = some t1.buckets[hash] := List.getElem?_eq_getElem hlt
  obtain ⟨xs, hxs, hlinked⟩ := hr1.good.owns.holds.exists_chain hp
  refine Does.bind ((bucketRef_spec hr1.good.owns.table hp).keepAll) fun p s2 hlater2 hr => ?_
  obtain ⟨hlater, rfl, gc2, rfl⟩ := hr
  exact hm _ t1 chains1 hash _ xs (hlater1.trans hlater2)
    (hr1.trans hlater1 (hr1.good.reorganized hlater trivial))
    (hlocated.later hlater trivial hr1.good.recorded) hxs hp hlinked

theorem hashTableRef_spec (h : Good type s i t chains)
    (hcontents : Contents type t chains.flatten map) (key : κ) :
    Does (fun j => j ≠ i) (hashTableRef type i key) s fun r s' => r = map key ∧ ∃ t' chains',
      Reorganized type i s t chains s' t' chains' := by
  refine bucket_spec h hcontents.count_nonneg key
    fun s1 t1 chains1 hash l xs hlater1 hr1 hlocated hxs _ hlinked => ?_
  have hlength := hr1.good.owns.chain_length_le hxs
  refine ((getLoop_spec (s1.next + 1) hlinked
    (by omega)).keepAll).mono fun r s2 _ hr => ?_
  obtain ⟨hlater2, gc2, rfl, rfl⟩ := hr
  exact ⟨(hcontents.perm hr1.perm hr1.count).find hlocated hxs, t1, chains1,
    hr1.trans hlater1 (hr1.good.reorganized hlater2 trivial)⟩

/-! ## Editing a chain -/

theorem linkAfter_spec (h : s.tables[i]? = some t) (hl : t.buckets[n]? = some l)
    (hys : Linked s.pairs l ys p) (hnodup : (addresses ys).Nodup) (q : Link) :
    Does kept (linkAfter i n (ys.getLast?.map Prod.fst) q) s fun _ s' => ∃ pairs tables gc l',
      s' = { s with pairs := pairs, tables := tables, gc := gc }
        ∧ Sets s.tables i { t with buckets := t.buckets.set n l' } tables
        ∧ Linked pairs l' ys q ∧ ∀ b, b ∉ addresses ys → pairs b = s.pairs b := by
  rcases eq_nil_or_concat ys with rfl | ⟨zs, ⟨a, entry⟩, rfl⟩
  · have hlt := (List.getElem?_eq_some_iff.mp hl).1
    refine (bucketSet_spec h hlt q).mono fun _ s1 _ hr => ?_
    obtain ⟨tables, gc1, rfl, hsets⟩ := hr
    exact ⟨s.pairs, tables, gc1, q, rfl, hsets, rfl, fun _ _ => rfl⟩
  · rw [concat_eq_append] at hys hnodup ⊢
    obtain ⟨mid, hzs, -, next, hcell, -⟩ := linked_append.mp hys
    rw [List.getLast?_concat]
    refine (setCdr_spec hcell q).mono fun _ s1 _ hr => ?_
    obtain ⟨gc1, rfl⟩ := hr
    have hself : t.buckets.set n l = t.buckets := by
      obtain ⟨hlt, rfl⟩ := List.getElem?_eq_some_iff.mp hl
      exact set_getElem_self hlt
    refine ⟨_, s.tables, gc1, l, rfl, ⟨by rw [hself]; exact h, fun _ _ => rfl, rfl⟩, ?_, fun b hb => ?_⟩
    · refine hys.setNext (fun hmem => ?_) (update_self ..) fun b hb =>
        update_of_ne hb _ _
      rw [addresses_append] at hnodup
      exact (nodup_append.mp hnodup).2.2 a hmem a mem_cons_self rfl
    · refine update_of_ne (fun hba => hb ?_) _ _
      rw [addresses_append, hba]
      exact mem_append_right _ mem_cons_self

theorem Owns.edit (h : Owns s i t chains []) (hn : chains[n]? = some xs) (hle : s.next ≤ next)
    (hsets : Sets s.tables i { t with buckets := t.buckets.set n l } tables)
    (hys : Linked pairs l ys none) (hnodup : (addresses ys).Nodup)
    (hfresh : ∀ a ∈ addresses ys, a ∈ addresses xs ∨ s.next ≤ a ∧ a < next)
    (hother : ∀ b, b < s.next → b ∉ addresses xs → pairs b = s.pairs b) (gc : Collector P) :
    Owns { s with pairs := pairs, next := next, tables := tables, gc := gc } i
        { t with buckets := t.buckets.set n l } (chains.set n ys) []
      ∧ Touches i (owned [] chains) s
        { s with pairs := pairs, next := next, tables := tables, gc := gc } := by
  obtain ⟨others, hperm, hset, hall, hbounded, hsub⟩ := h.chain hn
  rw [addresses_append] at hall hbounded
  have hdisjoint := (nodup_append.mp hall).2.2
  have howned : (owned [] (chains.set n ys)).Perm (addresses (ys ++ others)) := (hset ys).map _
  refine ⟨⟨hsets.get, h.holds.set hys fun m zs hm hzs a ha => ?_, howned.nodup_iff.mpr ?_,
    fun a ha => ?_⟩, hsets.others, hsets.length, hle, fun a ha hmem => hother a ha fun hin => hmem ?_⟩
  · have ha' : a ∈ addresses others := map_subset _ (hsub m zs hm hzs) ha
    exact hother a (hbounded a (mem_append_right _ ha')) fun hin => hdisjoint a hin a ha' rfl
  · rw [addresses_append]
    refine nodup_append.mpr ⟨hnodup, (nodup_append.mp hall).2.1, fun a ha b hb hab => ?_⟩
    subst hab
    rcases hfresh a ha with hin | ⟨hge, -⟩
    · exact hdisjoint a hin a hb rfl
    · have := hbounded a (mem_append_right _ hb)
      omega
  · have ha' := howned.mem_iff.mp ha
    rw [addresses_append] at ha'
    rcases mem_append.mp ha' with hin | hin
    · rcases hfresh a hin with hin | ⟨-, hlt⟩
      · exact (hbounded a (mem_append_left _ hin)).trans_le hle
      · exact hlt
    · exact (hbounded a (mem_append_right _ hin)).trans_le hle
  · rw [mem_owned]
    exact .inr ((hperm.map Prod.fst).mem_iff.mpr (by
      rw [map_append]
      exact mem_append_left _ hin))

theorem Laid.edit {gc : Collector P} (h : Laid type gc i chains)
    (hys : Settled type gc i → ∀ y ∈ ys, type.keyHash gc.placement y.2.1 chains.length = n) :
    Laid type gc i (chains.set n ys) := by
  intro hsettled m zs hzs x hx
  rw [length_set]
  by_cases hm : m = n
  · subst hm
    have hlt := (List.getElem?_eq_some_iff.mp hzs).1
    rw [length_set] at hlt
    rw [List.getElem?_set_self hlt] at hzs
    cases hzs
    exact hys hsettled x hx
  · rw [List.getElem?_set_ne (Ne.symm hm)] at hzs
    exact h hsettled m zs hzs x hx

/-- What a procedure makes of a table, of which it may drop pairs and to which it may add new ones. -/
structure Updated (type : TableType κ P) (i : Nat) (s : State κ δ P) (chains : List (Chain κ δ))
    (s' : State κ δ P) (t' : Table) (chains' : List (Chain κ δ)) : Prop where
  good : Good type s' i t' chains'
  touches : Touches i (owned [] chains) s s'
  fresh : ∀ a ∈ owned [] chains', a ∈ owned [] chains ∨ s.next ≤ a
  idle : s.gc.schedule = [] → s.gc.needsRehash i = false → s'.gc.needsRehash i = false

theorem Reorganized.updated (h : Reorganized type i s t chains s' t' chains') :
    Updated type i s chains s' t' chains' :=
  ⟨h.good, h.touches, fun _ ha => .inl ((h.perm.map Prod.fst).mem_iff.mp ha), h.idle⟩

theorem Updated.trans {t'' : Table} {chains'' : List (Chain κ δ)}
    (h : Updated type i s chains s' t' chains') (hlater : Later kept s.gc s'.gc)
    (h' : Updated type i s' chains' s'' t'' chains'') :
    Updated type i s chains s'' t'' chains'' := by
  refine ⟨h'.good, h.touches.trans h'.touches h.fresh, fun a ha => ?_,
    fun hgc hflag => h'.idle (hlater.nil hgc) (h.idle hgc hflag)⟩
  rcases h'.fresh a ha with hin | hle
  · exact h.fresh a hin
  · exact .inr (h.touches.next.trans hle)

/-- After a procedure the table has the contents of a map. -/
def Leaves (type : TableType κ P) (i : Nat) (s : State κ δ P) (chains : List (Chain κ δ)) (map' : κ → Option δ)
    (s' : State κ δ P) : Prop :=
  ∃ t' chains', Updated type i s chains s' t' chains' ∧ Contents type t' chains'.flatten map'

theorem Updated.leaves {map' : κ → Option δ} (h : Updated type i s chains s' t' chains')
    (hlater : Later kept s.gc s'.gc) (h' : Leaves type i s' chains' map' s'') : Leaves type i s chains map' s'' := by
  obtain ⟨t'', chains'', hupdated, hcontents⟩ := h'
  exact ⟨t'', chains'', h.trans hlater hupdated, hcontents⟩

theorem Good.edit (h : Good type s i t chains) (gc : Collector P) (hn : chains[n]? = some xs) (hle : s.next ≤ next)
    (hsets : Sets s.tables i t' tables)
    (ht' : t' = { t with buckets := t.buckets.set n l, count := t'.count })
    (hys : Linked pairs l ys none) (hnodup : (addresses ys).Nodup)
    (hfresh : ∀ a ∈ addresses ys, a ∈ addresses xs ∨ s.next ≤ a ∧ a < next)
    (hother : ∀ b, b < s.next → b ∉ addresses xs → pairs b = s.pairs b)
    (hlater : Later kept s.gc gc) (hi : kept i)
    (hlaid : Settled type gc i → ∀ y ∈ ys,
      type.keyHash gc.placement y.2.1 chains.length = n) :
    Updated type i s chains { s with pairs := pairs, next := next, tables := tables, gc := gc } t'
      (chains.set n ys) := by
  have hmodify := Sets.modify h.owns.table fun t => { t with buckets := t.buckets.set n l }
  obtain ⟨howns, htouches⟩ := h.owns.edit hn hle hmodify hys hnodup hfresh hother gc
  have hbuckets : t'.buckets = t.buckets.set n l := by rw [ht']
  refine ⟨⟨⟨hsets.get, hbuckets ▸ howns.holds, howns.nodup, howns.bounded⟩, ?_, ?_, ?_,
    fun hrehash => hlater.recorded ▸ h.recorded hrehash, (h.laid.later hlater hi h.recorded).edit hlaid⟩,
    ⟨hsets.others, hsets.length, htouches.next, htouches.pairs⟩, fun a ha => ?_,
    fun hgc hflag => (hlater.idle hgc i hi).trans hflag⟩
  · rw [hbuckets, length_set]
    exact h.positive
  · rw [hbuckets, length_set, ht']
    exact h.primes
  · rw [ht']
    exact h.shrink
  · obtain ⟨others, hperm, hset, -, -, -⟩ := h.owns.chain hn
    have ha' : a ∈ addresses (ys ++ others) := ((hset ys).map Prod.fst).mem_iff.mp ha
    rw [mem_owned]
    have hin : ∀ b, b ∈ addresses xs ∨ b ∈ addresses others → b ∈ addresses chains.flatten := by
      intro b hb
      refine (hperm.map Prod.fst).mem_iff.mpr ?_
      rw [map_append]
      exact mem_append.mpr hb
    rw [addresses_append, mem_append] at ha'
    rcases ha' with hmem | hmem
    · rcases hfresh a hmem with hmem | ⟨hge, -⟩
      · exact .inl (.inr (hin a (.inl hmem)))
      · exact .inr hge
    · exact .inl (.inr (hin a (.inr hmem)))

/-! ## Putting in -/

theorem Located.absent (hlocated : Located type s i chains key n) (hn : chains[n]? = some xs)
    (hne : ∀ x ∈ xs, type.keyEq x.2.1 key = false) :
    ∀ x ∈ chains.flatten, type.keyEq x.2.1 key = false := by
  intro x hx
  obtain ⟨zs, hzs, hmem⟩ := mem_flatten.mp hx
  obtain ⟨m, hm⟩ := mem_iff_getElem?.mp hzs
  cases heq : type.keyEq x.2.1 key with
  | false => rfl
  | true =>
      have hmn := hlocated.only m zs hm x hmem heq
      subst hmn
      rw [hn] at hm
      cases hm
      rw [hne x hmem] at heq
      cases heq

theorem putNew_spec (h : Good type s i t chains) (hcontents : Contents type t chains.flatten map)
    (hlocated : Located type s i chains key n) (hn : chains[n]? = some ys)
    (hl : t.buckets[n]? = some l) (hys : Linked s.pairs l ys none)
    (hne : ∀ y ∈ ys, type.keyEq y.2.1 key = false) :
    Does (fun j => j ≠ i) (do
        let r ← consEntry key datum
        linkAfter i n (ys.getLast?.map Prod.fst) (some r)
        incrementTableCount i
        maybeGrowTable type i) s
      fun _ => Leaves type i s chains (type.set map key datum) := by
  obtain ⟨others, hperm, hset, hnodup, hbounded, -⟩ := h.owns.chain hn
  rw [addresses_append] at hnodup hbounded
  have hchain := (nodup_append.mp hnodup).1
  have hfresh : s.next ∉ addresses ys := fun hmem =>
    Nat.lt_irrefl _ (hbounded s.next (mem_append_left _ hmem))
  refine Does.bind ((consEntry_spec key datum).keepAll) fun r s1 _ hr => ?_
  obtain ⟨hlater1, rfl, gc1, rfl⟩ := hr
  refine Does.bind ((linkAfter_spec (s := { s with
    pairs := Function.update s.pairs s.next (some ((key, datum), none)), next := s.next + 1,
    gc := gc1 }) h.owns.table hl (hys.congr fun a ha => update_of_ne (fun haeq => ?_) _ _)
    hchain (some s.next)).keepAll) fun _ s2 _ hr => ?_
  · rw [haeq] at ha
    exact hfresh ha
  obtain ⟨hlater2, pairs2, tables2, gc2, l', rfl, hsets2, hlinked, hother⟩ := hr
  refine Does.bind ((writeTable_spec (s := { s with
    pairs := pairs2, next := s.next + 1, tables := tables2, gc := gc2 }) hsets2.get
    _).keepAll) fun _ s3 _ hr => ?_
  obtain ⟨hlater3, tables3, gc3, rfl, hsets3⟩ := hr
  dsimp only at hlater1 hlater2 hlater3 hother ⊢
  have hlater := (hlater1.trans hlater2).trans hlater3
  have hnew : pairs2 s.next = some ((key, datum), none) := by
    rw [hother s.next hfresh, update_self]
  have hlinked3 : Linked pairs2 l' (ys ++ [(s.next, (key, datum))]) none :=
    linked_append.mpr ⟨_, hlinked, rfl, none, hnew, rfl⟩
  have hnodup3 : (addresses (ys ++ [(s.next, (key, datum))])).Nodup := by
    rw [addresses_append]
    refine nodup_append.mpr ⟨hchain, pairwise_singleton _ _, fun a ha b hb hab => ?_⟩
    rw [hab, mem_singleton.mp hb] at ha
    exact hfresh ha
  have hedit := h.edit gc3 hn (Nat.le_succ s.next) (hsets2.trans hsets3) rfl hlinked3 hnodup3
    (fun a ha => by
      rw [addresses_append] at ha
      rcases mem_append.mp ha with ha | ha
      · exact .inl ha
      · rw [mem_singleton.mp ha]
        exact .inr ⟨Nat.le_refl _, Nat.lt_succ_self _⟩)
    (fun b hb hmem => by
      rw [hother b hmem]
      exact update_of_ne (fun hbn => Nat.lt_irrefl _ (hbn ▸ hb)) _ _)
    hlater trivial fun hsettled y hy => by
      rcases mem_append.mp hy with hy | hy
      · exact h.laid.later hlater trivial h.recorded hsettled n ys hn y hy
      · rw [mem_singleton.mp hy]
        exact (hlocated.later hlater trivial h.recorded).hash hsettled
  have hcontents3 : Contents type { t with buckets := t.buckets.set n l', count := t.count + 1 }
      (chains.set n (ys ++ [(s.next, (key, datum))])).flatten (type.set map key datum) := by
    have hinsert : Contents type { t with count := t.count + 1 } _ (type.set map key datum) :=
      hcontents.insert (hlocated.absent hn hne) s.next rfl
    refine hinsert.perm ?_ rfl
    refine (hset _).trans ?_
    rw [append_assoc]
    exact perm_middle.trans (hperm.symm.cons _)
  have hcount := hcontents.count_nonneg
  refine (maybeGrowTable_spec hedit.good (by dsimp only; omega)).mono fun _ s4 _ hr => ?_
  obtain ⟨t4, chains4, hr4⟩ := hr
  exact ⟨t4, chains4, hedit.trans hlater hr4.updated, hcontents3.perm hr4.perm hr4.count⟩

theorem putDatum_spec {a : Nat} {k : κ} {d : δ} (h : Good type s i t chains)
    (hcontents : Contents type t chains.flatten map) (hn : chains[n]? = some (ys ++ (a, (k, d)) :: xs))
    (hl : t.buckets[n]? = some l) (hxs : Linked s.pairs l (ys ++ (a, (k, d)) :: xs) none)
    (hkey : type.keyEq k key = true) :
    Does (fun j => j ≠ i) (setEntryDatum a datum) s fun _ => Leaves type i s chains (type.set map key datum) := by
  obtain ⟨others, hperm, hset, hnodup, -, -⟩ := h.owns.chain hn
  rw [addresses_append] at hnodup
  have hchain := (nodup_append.mp hnodup).1
  obtain ⟨mid, hys, rfl, q, hcell, hrest⟩ := linked_append.mp hxs
  refine ((setEntryDatum_spec hcell datum).keepAll).mono fun _ s1 _ hr => ?_
  obtain ⟨hlater, gc1, rfl⟩ := hr
  have haddresses : addresses (ys ++ (a, (k, datum)) :: xs) = addresses (ys ++ (a, (k, d)) :: xs) := by
    rw [addresses_append, addresses_append, addresses_cons, addresses_cons]
  have ha : a ∉ addresses ys ∧ a ∉ addresses xs := by
    rw [addresses_append] at hchain
    exact ⟨fun hmem => (nodup_append.mp hchain).2.2 a hmem a mem_cons_self rfl,
      (nodup_cons.mp (nodup_append.mp hchain).2.1).1⟩
  have hself : t.buckets.set n l = t.buckets := by
    obtain ⟨hlt, rfl⟩ := List.getElem?_eq_some_iff.mp hl
    exact set_getElem_self hlt
  have hcongr : ∀ b, b ≠ a → Function.update s.pairs a (some ((k, datum), q)) b = s.pairs b :=
    fun b hb => update_of_ne hb _ _
  have hlinked : Linked (Function.update s.pairs a (some ((k, datum), q))) l
      (ys ++ (a, (k, datum)) :: xs) none :=
    linked_append.mpr ⟨some a, hys.congr fun b hb => hcongr b fun hba => ha.1 (hba ▸ hb), rfl, q,
      update_self .., hrest.congr fun b hb => hcongr b fun hba => ha.2 (hba ▸ hb)⟩
  have hsame : Sets s.tables i t s.tables := ⟨h.owns.table, fun _ _ => rfl, rfl⟩
  have hedit := h.edit gc1 hn (Nat.le_refl s.next) hsame (by rw [hself]) hlinked (haddresses ▸ hchain)
    (fun b hb => .inl (haddresses ▸ hb))
    (fun b _ hb => hcongr b fun hba => hb (by
      rw [hba, addresses_append]
      exact mem_append_right _ mem_cons_self))
    hlater trivial fun hsettled y hy => by
      have hlaid := h.laid.later hlater trivial h.recorded hsettled n _ hn
      rcases mem_append.mp hy with hy | hy
      · exact hlaid y (mem_append_left _ hy)
      · rcases mem_cons.mp hy with rfl | hy
        · exact hlaid (a, (k, d)) (mem_append_right _ mem_cons_self)
        · exact hlaid y (mem_append_right _ (mem_cons_of_mem _ hy))
  refine ⟨t, _, hedit, ?_⟩
  have hfirst : ∀ d', (ys ++ (a, (k, d')) :: xs ++ others).Perm ((a, (k, d')) :: (ys ++ xs ++ others)) := by
    intro d'
    rw [append_assoc, append_assoc]
    exact perm_middle
  have hbefore : Contents type t _ map := hcontents.perm (hperm.trans (hfirst d)).symm rfl
  have hafter : Contents type t _ (type.set map key datum) := hbefore.update hkey rfl
  exact hafter.perm ((hset _).trans (hfirst datum)) rfl

theorem walk_spec {map' : κ → Option δ} {loop : Nat → Link → Link → M κ δ P Unit}
    (found : Nat → Link → Link → M κ δ P Unit)
    (hloop : ∀ fuel a previous, loop (fuel + 1) (some a) previous = do
      let (entry, next) ← pairRef a
      if type.keyEq entry.1 key then found a next previous else loop fuel next (some a))
    (hend : ∀ {s ys fuel}, Good type s i t chains → Located type s i chains key n → chains[n]? = some ys →
      Linked s.pairs l ys none → (∀ y ∈ ys, type.keyEq y.2.1 key = false) →
      Does (fun j => j ≠ i) (loop (fuel + 1) none (ys.getLast?.map Prod.fst)) s fun _ => Leaves type i s chains map')
    (hfound : ∀ {s ys a entry q xs}, Good type s i t chains → chains[n]? = some (ys ++ (a, entry) :: xs) →
      s.pairs a = some (entry, q) → Linked s.pairs l ys (some a) → Linked s.pairs q xs none →
      type.keyEq entry.1 key = true →
      Does (fun j => j ≠ i) (found a q (ys.getLast?.map Prod.fst)) s fun _ => Leaves type i s chains map')
    (fuel : Nat) (h : Good type s i t chains) (hlocated : Located type s i chains key n)
    (hn : chains[n]? = some (ys ++ xs)) (hys : Linked s.pairs l ys p) (hxs : Linked s.pairs p xs none)
    (hne : ∀ y ∈ ys, type.keyEq y.2.1 key = false) (hfuel : xs.length < fuel) :
    Does (fun j => j ≠ i) (loop fuel p (ys.getLast?.map Prod.fst)) s fun _ => Leaves type i s chains map' := by
  induction fuel generalizing s ys xs p with
  | zero => omega
  | succ fuel ih =>
      cases xs with
      | nil =>
          subst hxs
          rw [append_nil] at hn
          exact hend h hlocated hn hys hne
      | cons x xs =>
          obtain ⟨a, k, d⟩ := x
          obtain ⟨rfl, q, hcell, hrest⟩ := hxs
          rw [length_cons] at hfuel
          rw [hloop]
          refine Does.bind ((pairRef_spec hcell).keepAll) fun r s1 _ hr => ?_
          obtain ⟨hlater1, rfl, gc1, rfl⟩ := hr
          dsimp only at hlater1 ⊢
          have h1 := h.later hlater1 trivial
          have hupdated := (h.reorganized hlater1 trivial).updated
          cases hkey : type.keyEq k key with
          | true =>
              exact (hfound h1 hn hcell hys hrest hkey).mono fun _ _ _ => hupdated.leaves hlater1
          | false =>
              have hne' : ∀ y ∈ ys ++ [(a, (k, d))], type.keyEq y.2.1 key = false := by
                intro y hy
                rcases mem_append.mp hy with hy | hy
                · exact hne y hy
                · rw [mem_singleton.mp hy]
                  exact hkey
              have hn' : chains[n]? = some (ys ++ [(a, (k, d))] ++ xs) := by
                rw [append_assoc]
                exact hn
              have hwalk := ih (s := { s with gc := gc1 }) h1 (hlocated.later hlater1 trivial h.recorded) hn'
                (linked_append.mpr ⟨some a, hys, rfl, q, hcell, rfl⟩) hrest hne' (by omega)
              rw [List.getLast?_concat] at hwalk
              exact hwalk.mono fun _ _ _ => hupdated.leaves hlater1

theorem hashTableSet_spec (h : Good type s i t chains)
    (hcontents : Contents type t chains.flatten map) (key : κ) (datum : δ) :
    Does (fun j => j ≠ i) (hashTableSet type i key datum) s fun _ => Leaves type i s chains (type.set map key datum) := by
  refine bucket_spec h hcontents.count_nonneg key
    fun s1 t1 chains1 hash l xs hlater1 hr1 hlocated hxs hl hlinked => ?_
  have hlength := hr1.good.owns.chain_length_le hxs
  have hcontents1 := hcontents.perm hr1.perm hr1.count
  refine (walk_spec (fun a _ _ => setEntryDatum a datum) (fun _ _ _ => rfl)
    (fun h hlocated hn hys hne => putNew_spec h hcontents1 hlocated hn hl hys hne)
    (fun h hn hcell hys hxs hkey => putDatum_spec h hcontents1 hn hl
      (linked_append.mpr ⟨_, hys, rfl, _, hcell, hxs⟩) hkey)
    (s1.next + 1) hr1.good hlocated (show chains1[_]? = some ([] ++ xs) from hxs) rfl hlinked nofun
    (by omega)).mono fun _ _ _ => hr1.updated.leaves hlater1

/-! ## Taking out -/

theorem removeEntry_spec {a : Nat} {entry : κ × δ} {q : Link} (h : Good type s i t chains)
    (hcontents : Contents type t chains.flatten map) (hn : chains[n]? = some (ys ++ (a, entry) :: xs))
    (hl : t.buckets[n]? = some l) (hys : Linked s.pairs l ys (some a)) (hxs : Linked s.pairs q xs none)
    (hkey : type.keyEq entry.1 key = true) :
    Does (fun j => j ≠ i) (do
        linkAfter i n (ys.getLast?.map Prod.fst) q
        decrementTableCount i
        maybeShrink type i) s
      fun _ => Leaves type i s chains (type.erase map key) := by
  obtain ⟨others, hperm, hset, hnodup, -, -⟩ := h.owns.chain hn
  rw [addresses_append] at hnodup
  have hchain := (nodup_append.mp hnodup).1
  rw [addresses_append] at hchain
  obtain ⟨hnodupy, hnodupx, hdisjoint⟩ := nodup_append.mp hchain
  refine Does.bind ((linkAfter_spec h.owns.table hl hys hnodupy q).keepAll) fun _ s1 _ hr => ?_
  obtain ⟨hlater1, pairs1, tables1, gc1, l', rfl, hsets1, hlinked, hother⟩ := hr
  refine Does.bind ((writeTable_spec (s := { s with
    pairs := pairs1, tables := tables1, gc := gc1 }) hsets1.get _).keepAll)
    fun _ s2 _ hr => ?_
  obtain ⟨hlater2, tables2, gc2, rfl, hsets2⟩ := hr
  have hlater := hlater1.trans hlater2
  have hlinked2 : Linked pairs1 l' (ys ++ xs) none :=
    linked_append.mpr ⟨q, hlinked, hxs.congr fun b hb => hother b fun hmem =>
      hdisjoint b hmem b (mem_cons_of_mem _ hb) rfl⟩
  have hnodup2 : (addresses (ys ++ xs)).Nodup := by
    rw [addresses_append]
    exact nodup_append.mpr ⟨hnodupy, (nodup_cons.mp hnodupx).2,
      fun b hb c hc => hdisjoint b hb c (mem_cons_of_mem _ hc)⟩
  have hsub : ys ++ xs ⊆ ys ++ (a, entry) :: xs :=
    append_subset.mpr ⟨subset_append_left _ _,
      fun y hy => mem_append_right _ (mem_cons_of_mem _ hy)⟩
  have hedit := h.edit gc2 hn (Nat.le_refl s.next) (hsets1.trans hsets2) rfl hlinked2 hnodup2
    (fun b hb => .inl (map_subset _ hsub hb))
    (fun b _ hb => hother b fun hmem => hb (by
      rw [addresses_append]
      exact mem_append_left _ hmem))
    hlater trivial fun hsettled y hy =>
      h.laid.later hlater trivial h.recorded hsettled n _ hn y (hsub hy)
  have hfirst : chains.flatten.Perm ((a, entry) :: (ys ++ xs ++ others)) := by
    refine hperm.trans ?_
    rw [append_assoc, append_assoc]
    exact perm_middle
  have hcontents2 : Contents type { t with buckets := t.buckets.set n l', count := t.count - 1 }
      (chains.set n (ys ++ xs)).flatten (type.erase map key) := by
    have hbefore : Contents type t _ map := hcontents.perm hfirst.symm rfl
    have hafter : Contents type { t with count := t.count - 1 } _ (type.erase map key) :=
      hbefore.erase hkey rfl
    exact hafter.perm (hset _) rfl
  refine (maybeShrink_spec hedit.good hcontents2.count_nonneg).mono fun _ s3 _ hr => ?_
  obtain ⟨t3, chains3, hr3⟩ := hr
  exact ⟨t3, chains3, hedit.trans hlater hr3.updated, hcontents2.perm hr3.perm hr3.count⟩

theorem Contents.erase_absent (h : Contents type t entries map)
    (hkey : ∀ x ∈ entries, type.keyEq x.2.1 key = false) :
    Contents type t entries (type.erase map key) := by
  refine ⟨h.distinct, h.count, fun k d => ?_⟩
  rw [TableType.erase]
  cases hk : type.keyEq key k with
  | true =>
      refine ⟨nofun, fun ⟨y, hy, hyk, _⟩ => ?_⟩
      have := hkey y hy
      rw [type.keyEq_trans hyk (type.keyEq_symm hk)] at this
      cases this
  | false =>
      exact h.mem k d

theorem hashTableDelete_spec (h : Good type s i t chains)
    (hcontents : Contents type t chains.flatten map) (key : κ) :
    Does (fun j => j ≠ i) (hashTableDelete type i key) s fun _ => Leaves type i s chains (type.erase map key) := by
  refine bucket_spec h hcontents.count_nonneg key
    fun s1 t1 chains1 hash l xs hlater1 hr1 hlocated hxs hl hlinked => ?_
  have hlength := hr1.good.owns.chain_length_le hxs
  have hcontents1 := hcontents.perm hr1.perm hr1.count
  refine (walk_spec (fun _ next previous => do
      linkAfter i hash previous next
      decrementTableCount i
      maybeShrink type i) (fun _ _ _ => rfl)
    (fun h hlocated hn _ hne => .pure ⟨t1, chains1, (h.reorganized (.refl (fun _ => True) _) trivial).updated,
      hcontents1.erase_absent (hlocated.absent hn hne)⟩)
    (fun h hn _ hys hxs hkey => removeEntry_spec h hcontents1 hn hl hys hxs hkey)
    (s1.next + 1) hr1.good hlocated (show chains1[_]? = some ([] ++ xs) from hxs) rfl hlinked nofun
    (by omega)).mono fun _ _ _ => hr1.updated.leaves hlater1

end MitScheme.HashTable
