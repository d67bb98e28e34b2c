import MitScheme.Runtime.HashTableMaking

/-!
# Runs of operations on hash tables

Any number of tables of one type share the heap. After any operations each table has the entries of the
finite map that the operations make of it, and the lookups on the way have answered what these maps say.
-/

namespace MitScheme.HashTable

open Programs Chains List

variable {κ δ P : Type}

/-- What an operation answers and makes of the finite maps that the tables stand for. -/
def Operation.meaning (type : TableType κ P) :
    Operation κ δ → List (κ → Option δ) → Option (Option δ) × List (κ → Option δ)
  | .make _, maps => (none, maps ++ [(fun _ => none : κ → Option δ)])
  | .set i key datum, maps => (none, maps.modify i fun map => type.set map key datum)
  | .delete i key, maps => (none, maps.modify i fun map => type.erase map key)
  | .ref i key, maps => (maps[i]?.map fun map => map key, maps)
  | .clear i, maps => (none, maps.modify i fun _ _ => none)
  | .clean _, maps => (none, maps)
  | .copy i, maps => (none, maps ++ maps[i]?.toList)
  | .setRehashThreshold _ _, maps => (none, maps)
  | .setRehashSize _ _, maps => (none, maps)

/-- The answers of operations, and the maps then. -/
def meanings (type : TableType κ P) :
    List (Operation κ δ) → List (κ → Option δ) → List (Option (Option δ)) × List (κ → Option δ)
  | [], maps => ([], maps)
  | operation :: operations, maps =>
      let (answer, maps) := operation.meaning type maps
      let (answers, maps) := meanings type operations maps
      (answer :: answers, maps)

/-- The tables have chains with no pair in common, and the entries of the maps. -/
structure Represents (type : TableType κ P) (s : State κ δ P) (all : List (List (Chain κ δ)))
    (maps : List (κ → Option δ)) : Prop where
  length : all.length = s.tables.length
  maps_length : maps.length = s.tables.length
  good : ∀ (i : Nat) t chains, s.tables[i]? = some t → all[i]? = some chains → Good type s i t chains
  contents : ∀ (i : Nat) t chains map, s.tables[i]? = some t → all[i]? = some chains →
    maps[i]? = some map → Contents type t chains.flatten map
  apart : ∀ (i j : Nat) chains chains', all[i]? = some chains → all[j]? = some chains' → i ≠ j →
    ∀ a ∈ owned [] chains, a ∉ owned [] chains'

/-- No collection is to come, and no table needs to be rehashed. -/
def Idle (s : State κ δ P) : Prop :=
  s.gc.schedule = [] ∧ ∀ i, i < s.tables.length → s.gc.needsRehash i = false

variable {type : TableType κ P} {s s' : State κ δ P} {all : List (List (Chain κ δ))}
  {maps : List (κ → Option δ)} {α : Type}

theorem Represents.exists_table (h : Represents type s all maps) {i : Nat} (hi : i < s.tables.length) :
    ∃ t chains map, s.tables[i]? = some t ∧ all[i]? = some chains ∧ maps[i]? = some map :=
  ⟨_, _, _, List.getElem?_eq_getElem hi, List.getElem?_eq_getElem (h.length ▸ hi),
    List.getElem?_eq_getElem (h.maps_length ▸ hi)⟩

theorem Represents.update (h : Represents type s all maps) {i : Nat} {t t' : Table}
    {chains chains' : List (Chain κ δ)} {f : (κ → Option δ) → κ → Option δ} {map : κ → Option δ}
    (ht : s.tables[i]? = some t) (hchains : all[i]? = some chains) (hmap : maps[i]? = some map)
    (hlater : Later (fun j => j ≠ i) s.gc s'.gc) (hupdated : Updated type i s chains s' t' chains')
    (hcontents : Contents type t' chains'.flatten (f map)) :
    Represents type s' (all.set i chains') (maps.modify i f) := by
  have hi : i < all.length := (List.getElem?_eq_some_iff.mp hchains).1
  have hself : (all.set i chains')[i]? = some chains' := List.getElem?_set_self hi
  have hother : ∀ (j : Nat) cs, j ≠ i → (all.set i chains')[j]? = some cs → all[j]? = some cs := by
    intro j cs hj hcs
    rwa [List.getElem?_set_ne (Ne.symm hj)] at hcs
  have hothert : ∀ (j : Nat) u, j ≠ i → s'.tables[j]? = some u → s.tables[j]? = some u := by
    intro j u hj hu
    rwa [hupdated.touches.tables j hj] at hu
  -- the addresses of another table are not those of this one, nor new ones
  have hapart : ∀ (j : Nat) cs, j ≠ i → (all.set i chains')[j]? = some cs →
      ∀ a ∈ owned [] chains', a ∉ owned [] cs := by
    intro j cs hj hcs a ha hmem
    have hcs' := hother j cs hj hcs
    have hj' : j < s.tables.length := h.length ▸ (List.getElem?_eq_some_iff.mp hcs').1
    rcases hupdated.fresh a ha with hin | hle
    · exact h.apart i j chains cs hchains hcs' (Ne.symm hj) a hin hmem
    · have := (h.good j _ cs (List.getElem?_eq_getElem hj') hcs').owns.bounded a hmem
      omega
  refine ⟨?_, ?_, fun j u cs hu hcs => ?_, fun j u cs m hu hcs hm => ?_,
    fun j k cs cs' hcs hcs' hjk a ha hmem => ?_⟩
  · rw [length_set, h.length, hupdated.touches.length]
  · rw [length_modify, h.maps_length, hupdated.touches.length]
  · by_cases hj : j = i
    · subst hj
      rw [hself] at hcs
      rw [hupdated.good.owns.table] at hu
      cases hcs
      cases hu
      exact hupdated.good
    · have hcs' := hother j cs hj hcs
      have hu' := hothert j u hj hu
      have hgood := h.good j u cs hu' hcs'
      refine hgood.frame (hupdated.touches.tables j hj) hupdated.touches.next (fun a ha =>
        hupdated.touches.pairs a (hgood.owns.bounded a ha) fun hin =>
          h.apart j i cs chains hcs' hchains hj a ha hin) (hlater.recorded ▸ List.Subset.refl _)
        (hlater.still j hj)
  · by_cases hj : j = i
    · subst hj
      rw [hself] at hcs
      rw [hupdated.good.owns.table] at hu
      rw [List.getElem?_modify_eq, hmap] at hm
      cases hcs
      cases hu
      cases hm
      exact hcontents
    · rw [List.getElem?_modify_ne f maps (Ne.symm hj)] at hm
      exact h.contents j u cs m (hothert j u hj hu) (hother j cs hj hcs) hm
  · by_cases hj : j = i
    · subst hj
      rw [hself] at hcs
      cases hcs
      exact hapart k cs' (Ne.symm hjk) hcs' a ha hmem
    · by_cases hk : k = i
      · subst hk
        rw [hself] at hcs'
        cases hcs'
        exact hapart j cs hj hcs a hmem ha
      · exact h.apart j k cs cs' (hother j cs hj hcs) (hother k cs' hk hcs') hjk a ha hmem

theorem Idle.update {i : Nat} {t' : Table} {chains chains' : List (Chain κ δ)} (h : Idle s)
    (hlater : Later (fun j => j ≠ i) s.gc s'.gc) (hupdated : Updated type i s chains s' t' chains')
    (hi : i < s.tables.length) : Idle s' := by
  refine ⟨hlater.nil h.1, fun j hj => ?_⟩
  rw [hupdated.touches.length] at hj
  by_cases hji : j = i
  · subst hji
    exact hupdated.idle h.1 (h.2 j hj)
  · exact (hlater.idle h.1 j hji).trans (h.2 j hj)

theorem onTable_of_lt {i : Nat} {procedure : M κ δ P α} {Q : α → State κ δ P → Prop}
    (hi : i < s.tables.length) (h : Completes procedure s Q) :
    Completes (onTable i procedure) s fun a s' => ∃ b, a = some b ∧ Q b s' := by
  obtain ⟨b, s', hs', hq⟩ := h
  refine ⟨some b, s', ?_, b, rfl, hq⟩
  rw [onTable, if_pos hi]
  change (procedure s >>= fun r => pure (some r.1, r.2)) = _
  rw [hs']
  rfl

theorem onTable_of_not_lt {i : Nat} (procedure : M κ δ P α) (hi : ¬ i < s.tables.length) :
    onTable i procedure s = some (none, s) := if_neg hi

theorem Represents.onTable (h : Represents type s all maps) (i : Nat) {procedure : M κ δ P α}
    (answer : (κ → Option δ) → α) (f : (κ → Option δ) → κ → Option δ)
    (hprocedure : ∀ t chains map, Good type s i t chains → Contents type t chains.flatten map →
      Does (fun j => j ≠ i) procedure s fun a s' => a = answer map ∧ ∃ t' chains',
        Updated type i s chains s' t' chains' ∧ Contents type t' chains'.flatten (f map)) :
    Completes (onTable i procedure) s fun a s' => a = maps[i]?.map answer
      ∧ (∃ all', Represents type s' all' (maps.modify i f)) ∧ (Idle s → Idle s') := by
  by_cases hi : i < s.tables.length
  · obtain ⟨t, chains, map, ht, hchains, hmap⟩ := h.exists_table hi
    refine (onTable_of_lt hi (hprocedure t chains map (h.good i t chains ht hchains)
      (h.contents i t chains map ht hchains hmap))).mono fun a s' hr => ?_
    obtain ⟨b, rfl, hlater, rfl, t', chains', hupdated, hcontents⟩ := hr
    exact ⟨by rw [hmap]; rfl, ⟨_, h.update ht hchains hmap hlater hupdated hcontents⟩,
      fun hidle => hidle.update hlater hupdated hi⟩
  · have hle : s.tables.length ≤ i := Nat.le_of_not_lt hi
    have hnone : maps[i]? = none := List.getElem?_eq_none (h.maps_length ▸ hle)
    refine ⟨none, s, onTable_of_not_lt _ hi, by rw [hnone]; rfl, ⟨all, ?_⟩, fun hidle => hidle⟩
    rw [modify_eq_self (h.maps_length ▸ hle)]
    exact h

theorem Represents.made (h : Represents type s all maps) (hmade : Made s s') {t : Table}
    {chains : List (Chain κ δ)} {map : κ → Option δ} (hgood : Good type s' s.tables.length t chains)
    (hcontents : Contents type t chains.flatten map) (hfresh : ∀ a ∈ owned [] chains, s.next ≤ a) :
    Represents type s' (all ++ [chains]) (maps ++ [map]) := by
  have hlast : ∀ cs, (all ++ [chains])[s.tables.length]? = some cs → cs = chains := by
    intro cs hcs
    rw [← h.length, List.getElem?_concat_length] at hcs
    exact (Option.some.inj hcs).symm
  have hlt : ∀ (j : Nat) cs, (all ++ [chains])[j]? = some cs → j ≠ s.tables.length →
      j < s.tables.length ∧ all[j]? = some cs := by
    intro j cs hcs hj
    have := (List.getElem?_eq_some_iff.mp hcs).1
    rw [length_append, length_singleton, h.length] at this
    have hj' : j < s.tables.length := by omega
    rw [List.getElem?_append_left (h.length ▸ hj')] at hcs
    exact ⟨hj', hcs⟩
  -- the pairs of the new table are new
  have hapart : ∀ (j : Nat) cs, (all ++ [chains])[j]? = some cs → j ≠ s.tables.length →
      ∀ a ∈ owned [] chains, a ∉ owned [] cs := by
    intro j cs hcs hj a ha hmem
    obtain ⟨hj', hcs'⟩ := hlt j cs hcs hj
    have := (h.good j _ cs (List.getElem?_eq_getElem hj') hcs').owns.bounded a hmem
    have := hfresh a ha
    omega
  refine ⟨?_, ?_, fun j u cs hu hcs => ?_, fun j u cs m hu hcs hm => ?_,
    fun j k cs cs' hcs hcs' hjk a ha hmem => ?_⟩
  · rw [length_append, h.length, hmade.length, length_singleton]
  · rw [length_append, h.maps_length, hmade.length, length_singleton]
  · by_cases hj : j = s.tables.length
    · subst hj
      rw [hgood.owns.table] at hu
      cases hu
      rw [hlast cs hcs]
      exact hgood
    · obtain ⟨hj', hcs'⟩ := hlt j cs hcs hj
      rw [hmade.tables j hj'] at hu
      exact (h.good j u cs hu hcs').made hmade
  · by_cases hj : j = s.tables.length
    · subst hj
      rw [hgood.owns.table] at hu
      rw [← h.maps_length, List.getElem?_concat_length] at hm
      cases hu
      cases hm
      rw [hlast cs hcs]
      exact hcontents
    · obtain ⟨hj', hcs'⟩ := hlt j cs hcs hj
      rw [hmade.tables j hj'] at hu
      rw [List.getElem?_append_left (h.maps_length ▸ hj')] at hm
      exact h.contents j u cs m hu hcs' hm
  · by_cases hj : j = s.tables.length
    · subst hj
      rw [hlast cs hcs] at ha
      exact hapart k cs' hcs' (Ne.symm hjk) a ha hmem
    · by_cases hk : k = s.tables.length
      · subst hk
        rw [hlast cs' hcs'] at hmem
        exact hapart j cs hcs hj a hmem ha
      · exact h.apart j k cs cs' (hlt j cs hcs hj).2 (hlt k cs' hcs' hk).2 hjk a ha hmem

theorem Idle.made (h : Idle s) (hmade : Made s s') (hclear : s'.gc.needsRehash s.tables.length = false) :
    Idle s' := by
  refine ⟨hmade.nil h.1, fun j hj => ?_⟩
  rw [hmade.length] at hj
  by_cases hji : j = s.tables.length
  · rw [hji]
    exact hclear
  · exact (hmade.idle h.1 j hji).trans (h.2 j (by omega))

/-! ## Operations -/

/-- A copy is not made while a collection gives keys other hashes. -/
def Operation.Undisturbed (type : TableType κ P) (s : State κ δ P) : Operation κ δ → Prop
  | .copy i => CopyUndisturbed type i s
  | _ => True

theorem Represents.undisturbed (h : Represents type s all maps) (hgc : s.gc.schedule = [])
    (operation : Operation κ δ) : operation.Undisturbed type s := by
  cases operation with
  | copy i =>
      by_cases hi : i < s.tables.length
      · obtain ⟨t, chains, map, ht, hchains, -⟩ := h.exists_table hi
        exact (h.good i t chains ht hchains).copyUndisturbed hgc
      · intro j s' s'' hcopy _
        have hnone : s.tables[i]? = none := List.getElem?_eq_none (Nat.le_of_not_lt hi)
        simp only [copyTable, access, hnone, Option.bind_eq_bind, Option.bind_none] at hcopy
        cases hcopy
  | _ => trivial

theorem Represents.onTableSame (h : Represents type s all maps) (i : Nat) {procedure : M κ δ P Unit}
    (hprocedure : ∀ t chains, Good type s i t chains → 0 ≤ t.count →
      Does (fun j => j ≠ i) procedure s fun _ s' => ∃ t' chains',
        Reorganized type i s t chains s' t' chains') :
    Completes (HashTable.onTable i procedure) s fun _ s' =>
      (∃ all', Represents type s' all' maps) ∧ (Idle s → Idle s') := by
  refine (h.onTable i (fun _ => ()) id fun t chains map hgood hcontents =>
    (hprocedure t chains hgood hcontents.count_nonneg).mono fun _ s' _ hr => ?_).mono fun _ s' hr => ?_
  · obtain ⟨t', chains', hr⟩ := hr
    exact ⟨rfl, t', chains', hr.updated, hcontents.perm hr.perm hr.count⟩
  · rw [modify_id] at hr
    exact hr.2

theorem perform_spec (h : Represents type s all maps) (operation : Operation κ δ)
    (hundisturbed : operation.Undisturbed type s) :
    Completes (perform type operation) s fun answer s' => answer = (operation.meaning type maps).1
      ∧ (∃ all', Represents type s' all' (operation.meaning type maps).2) ∧ (Idle s → Idle s') := by
  cases operation with
  | make initialSize =>
      refine Completes.bind (makeHashTable_spec s initialSize) fun _ s' hr => .pure ?_
      obtain ⟨hmade, t, chains, hgood, hcontents, hempty, hclear⟩ := hr
      exact ⟨rfl, ⟨_, h.made hmade hgood hcontents (by rw [hempty]; exact nofun)⟩,
        fun hidle => hidle.made hmade (hclear hidle.1)⟩
  | set i key datum =>
      exact Completes.bind (h.onTable i (fun _ => ()) _ fun t chains map hgood hcontents =>
        (hashTableSet_spec hgood hcontents key datum).mono fun _ s' _ hr => ⟨rfl, hr⟩)
        fun _ s' hr => .pure ⟨rfl, hr.2⟩
  | delete i key =>
      exact Completes.bind (h.onTable i (fun _ => ()) _ fun t chains map hgood hcontents =>
        (hashTableDelete_spec hgood hcontents key).mono fun _ s' _ hr => ⟨rfl, hr⟩)
        fun _ s' hr => .pure ⟨rfl, hr.2⟩
  | ref i key =>
      refine (h.onTable i (fun map => map key) id fun t chains map hgood hcontents =>
        (hashTableRef_spec hgood hcontents key).mono fun a s' _ hr => ?_).mono fun a s' hr => ?_
      · obtain ⟨ha, t', chains', hr⟩ := hr
        exact ⟨ha, t', chains', hr.updated, hcontents.perm hr.perm hr.count⟩
      · rw [modify_id] at hr
        exact hr
  | clear i =>
      exact Completes.bind (h.onTable i (fun _ => ()) _ fun t chains map hgood _ =>
        ((hashTableClear_spec hgood).mono_kept fun _ _ => trivial).mono fun _ s' _ hr => ⟨rfl, hr⟩)
        fun _ s' hr => .pure ⟨rfl, hr.2⟩
  | clean i =>
      exact Completes.bind (h.onTableSame i fun t chains hgood hcount => maybeShrink_spec hgood hcount)
        fun _ s' hr => .pure ⟨rfl, hr⟩
  | copy i =>
      by_cases hi : i < s.tables.length
      · obtain ⟨t, chains, map, ht, hchains, hmap⟩ := h.exists_table hi
        refine Completes.bind (onTable_of_lt hi (hashTableCopy_spec (h.good i t chains ht hchains)
          hundisturbed)) fun _ s' hr => .pure ?_
        obtain ⟨-, -, hmade, t', chains', hgood, hcount, hentries, hfresh, hclear⟩ := hr
        have hcontents := (h.contents i t chains map ht hchains hmap).copy hentries hcount
        refine ⟨rfl, ?_, fun hidle => hidle.made hmade (hclear hidle.1 (hidle.2 i hi))⟩
        rw [Operation.meaning, hmap]
        exact ⟨_, h.made hmade hgood hcontents hfresh⟩
      · have hnone : maps[i]? = none :=
          List.getElem?_eq_none (h.maps_length ▸ Nat.le_of_not_lt hi)
        refine Completes.bind (Q := fun _ s' => s = s') ⟨_, _, onTable_of_not_lt _ hi, rfl⟩
          fun _ s' hr => .pure ?_
        obtain rfl := hr
        refine ⟨rfl, ⟨all, ?_⟩, fun hidle => hidle⟩
        rw [Operation.meaning, hnone, Option.toList_none, append_nil]
        exact h
  | setRehashThreshold i threshold =>
      exact Completes.bind (h.onTableSame i fun t chains hgood hcount =>
        setHashTableRehashThreshold_spec hgood hcount threshold) fun _ s' hr => .pure ⟨rfl, hr⟩
  | setRehashSize i size =>
      exact Completes.bind (h.onTableSame i fun t chains hgood hcount =>
        setHashTableRehashSize_spec hgood hcount size) fun _ s' hr => .pure ⟨rfl, hr⟩

/-- No copy is made while a collection gives keys other hashes. -/
def Undisturbed (type : TableType κ P) : List (Operation κ δ) → State κ δ P → Prop
  | [], _ => True
  | operation :: operations, s => operation.Undisturbed type s ∧
      ∀ answer s', perform type operation s = some (answer, s') → Undisturbed type operations s'

theorem performAll_spec (operations : List (Operation κ δ)) (h : Represents type s all maps)
    (hundisturbed : Undisturbed type operations s) :
    Completes (performAll type operations) s fun answers s' =>
      answers = (meanings type operations maps).1
        ∧ (∃ all', Represents type s' all' (meanings type operations maps).2) ∧ (Idle s → Idle s') := by
  induction operations generalizing s all maps with
  | nil => exact .pure ⟨rfl, ⟨all, h⟩, fun hidle => hidle⟩
  | cons operation operations ih =>
      obtain ⟨answer, s1, hs1, rfl, ⟨all1, h1⟩, hidle1⟩ := perform_spec h operation hundisturbed.1
      refine Completes.bind (Q := fun a s' => _ = a ∧ s1 = s') ⟨_, _, hs1, rfl, rfl⟩ fun a s' hr => ?_
      obtain ⟨rfl, rfl⟩ := hr
      refine Completes.bind (ih h1 (hundisturbed.2 _ _ hs1)) fun answers s2 hr => .pure ?_
      obtain ⟨rfl, hrepresents, hidle2⟩ := hr
      exact ⟨rfl, hrepresents, fun hidle => hidle2 (hidle1 hidle)⟩

theorem represents_start (placement : P) (schedule : List (Option P)) :
    Represents type (start placement schedule : State κ δ P) [] [] :=
  ⟨rfl, rfl, fun _ _ _ h => (nomatch h), fun _ _ _ _ h => (nomatch h), fun _ _ _ _ h => (nomatch h)⟩

theorem Represents.undisturbed_run (operations : List (Operation κ δ))
    (h : Represents type s all maps) (hidle : Idle s) : Undisturbed type operations s := by
  induction operations generalizing s all maps with
  | nil => trivial
  | cons operation operations ih =>
      have hundisturbed := h.undisturbed hidle.1 operation
      refine ⟨hundisturbed, fun answer s' hs' => ?_⟩
      obtain ⟨-, ⟨all', h'⟩, hidle'⟩ := (perform_spec h operation hundisturbed).of_eq hs'
      exact ih h' (hidle' hidle)

/-- A table that holds the entries of a finite map: each in the bucket that its key hashes to, no two with
equal keys, and all of them counted. -/
structure FiniteMap (type : TableType κ P) (s : State κ δ P) (t : Table) (chains : List (Chain κ δ))
    (map : κ → Option δ) : Prop where
  holds : Holds s.pairs t.buckets chains
  hashed : ∀ (n : Nat) xs, chains[n]? = some xs → ∀ x ∈ xs,
    type.keyHash s.gc.placement x.2.1 t.buckets.length = n
  contents : Contents type t chains.flatten map

/-- After any operations without collections all tables hold finite maps, and all lookups have returned
what the maps had then. -/
theorem performAll_finiteMaps (type : TableType κ P) (placement : P)
    (operations : List (Operation κ δ)) :
    Completes (performAll type operations) (start placement []) fun answers s =>
      answers = (meanings type operations []).1
        ∧ s.tables.length = (meanings type operations []).2.length
        ∧ ∀ (i : Nat) t map, s.tables[i]? = some t → (meanings type operations []).2[i]? = some map →
          ∃ chains, FiniteMap type s t chains map := by
  have hstart : Represents type (start placement [] : State κ δ P) [] [] := represents_start placement []
  have hidle : Idle (start placement [] : State κ δ P) := ⟨rfl, fun _ _ => rfl⟩
  refine (performAll_spec operations hstart (hstart.undisturbed_run operations hidle)).mono
    fun answers s hr => ?_
  obtain ⟨hanswers, ⟨all, h⟩, hidle'⟩ := hr
  refine ⟨hanswers, h.maps_length.symm, fun i t map ht hmap => ?_⟩
  have hi := (List.getElem?_eq_some_iff.mp ht).1
  obtain ⟨t', chains, map', ht', hchains, -⟩ := h.exists_table hi
  have hgood := h.good i t chains ht hchains
  have hlaid := hgood.laid fun _ => (hidle' hidle).2 i hi
  rw [hgood.owns.holds.length] at hlaid
  exact ⟨_, hgood.owns.holds, hlaid, h.contents i t _ map ht hchains hmap⟩

/-- The keys of `eq` hash tables are hashed by their addresses. -/
def eqHashTableType : TableType Nat (Nat → Nat) where
  keyHash address key modulus := address key % modulus
  keyEq a b := a == b
  rehashAfterGc := true
  keyHash_lt _ _ _ hpos := Nat.mod_lt _ hpos
  keyEq_refl _ := BEq.rfl
  keyEq_symm := BEq.symm
  keyEq_trans := BEq.trans
  keyHash_congr _ _ _ _ h := by rw [eq_of_beq h]
  keyHash_fixed h := (nomatch h)

/-- A table with one entry is copied, and its key is looked up in the copy. -/
def copyAndRef : List (Operation Nat Nat) := [.make none, .set 0 3 7, .copy 0, .ref 1 3, .ref 0 3]

/-- A key is looked up in a table. -/
def setAndRef : List (Operation Nat Nat) := [.make none, .set 0 3 7, .ref 0 3]

/-- The objects are moved by a collection that runs after some accesses. -/
def collectAfter (accesses : Nat) : List (Option (Nat → Nat)) :=
  List.replicate accesses none ++ [some (· + 1)]

end MitScheme.HashTable
