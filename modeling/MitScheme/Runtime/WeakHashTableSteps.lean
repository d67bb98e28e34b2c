import MitScheme.Runtime.WeakHashTable
import MitScheme.Runtime.HashTableResize

/-!
# What the accesses to a weak table do

A procedure on one table leaves the others alone. Its entries keep their keys and get older: a
collection may break them, and no procedure mends them. The number that is counted is the number of the
entries in the buckets, together with those that are being moved.
-/

namespace MitScheme.WeakHashTable

open Programs List
open HashTable (computeShrinkSize primesLoop_returns)

variable {κ δ P α β : Type} {type : TableType κ δ P} {s s' s'' : State κ δ P} {i : Nat}
  {t t' : Table} {kept kept' : Prop} {touched touched' : Nat → Prop}

/-! ## Later states -/

/-- No collection to come breaks an entry with this key. -/
def Spares (schedule : List (Option (Collection κ δ P))) (key : κ) : Prop :=
  ∀ collection, some collection ∈ schedule → ∀ p e, e.key = key → collection.breaks p e = false

/-- What may have become of an entry. -/
structure Aged (schedule : List (Option (Collection κ δ P))) (changed : Prop) (e e' : Entry κ δ) :
    Prop where
  key : e'.key = e.key
  broken : e.broken = true → e'.broken = true
  spared : Spares schedule e.key → e'.broken = e.broken
  datum : ¬ changed → e'.datum = e.datum

/-- The flag of a table, if it is not set, was not set before, and there has been no collection since,
if the table is recorded. -/
def Still (s s' : State κ δ P) (j : Nat) : Prop :=
  s'.needsRehash j = false → s.needsRehash j = false ∧ (j ∈ s.recorded → s'.placement = s.placement)

/-- What may have happened while a procedure on a table was running. The flag of the table may be kept,
and some data may have been set. -/
structure Later (i : Nat) (kept : Prop) (touched : Nat → Prop) (s s' : State κ δ P) : Prop where
  recorded : s'.recorded = s.recorded
  schedule : s'.schedule <:+ s.schedule
  still : ∀ j, (j = i → kept) → Still s s' j
  calm : s.schedule = [] → s.needsRehash i = false → s'.needsRehash i = false
  length : s'.tables.length = s.tables.length
  others : ∀ j, j ≠ i → s'.tables[j]? = s.tables[j]?
  entries : ∀ (p : Nat) e, s.entries[p]? = some e →
    ∃ e', s'.entries[p]? = some e' ∧ Aged s.schedule (touched p) e e'

theorem Spares.suffix {schedule schedule' : List (Option (Collection κ δ P))} {key : κ}
    (h : Spares schedule key) (hsuffix : schedule' <:+ schedule) : Spares schedule' key :=
  fun collection hmem => h collection (hsuffix.subset hmem)

theorem Still.refl (s : State κ δ P) (j : Nat) : Still s s j := fun h => ⟨h, fun _ => rfl⟩

theorem Still.trans {j : Nat} (h : Still s s' j) (hrecorded : s.recorded ⊆ s'.recorded)
    (h' : Still s' s'' j) : Still s s'' j := by
  intro hflag
  obtain ⟨hflag', hplace'⟩ := h' hflag
  obtain ⟨hflag'', hplace⟩ := h hflag'
  exact ⟨hflag'', fun hmem => (hplace' (hrecorded hmem)).trans (hplace hmem)⟩

theorem Later.refl (s : State κ δ P) : Later i kept touched s s :=
  ⟨rfl, suffix_refl _, fun j _ => .refl s j, fun _ h => h, rfl, fun _ _ => rfl,
    fun _ e he => ⟨e, he, rfl, fun h => h, fun _ => rfl, fun _ => rfl⟩⟩

theorem Later.nil (h : Later i kept touched s s') (hnil : s.schedule = []) : s'.schedule = [] :=
  suffix_nil.mp (hnil ▸ h.schedule)

theorem Later.subset (h : Later i kept touched s s') : s.recorded ⊆ s'.recorded := by
  rw [h.recorded]
  exact List.Subset.refl _

theorem Later.trans (h : Later i kept touched s s') (h' : Later i kept touched s' s'') :
    Later i kept touched s s'' := by
  refine ⟨h'.recorded.trans h.recorded, h'.schedule.trans h.schedule,
    fun j hj => (h.still j hj).trans h.subset (h'.still j hj),
    fun hnil hflag => h'.calm (h.nil hnil) (h.calm hnil hflag), h'.length.trans h.length,
    fun j hj => (h'.others j hj).trans (h.others j hj), fun p e he => ?_⟩
  obtain ⟨e', he', haged⟩ := h.entries p e he
  obtain ⟨e'', he'', haged'⟩ := h'.entries p e' he'
  refine ⟨e'', he'', haged'.key.trans haged.key, fun hb => haged'.broken (haged.broken hb),
    fun hspares => ?_, fun ht => (haged'.datum ht).trans (haged.datum ht)⟩
  have hspares' : Spares s'.schedule e'.key := by
    rw [haged.key]
    exact hspares.suffix h.schedule
  exact (haged'.spared hspares').trans (haged.spared hspares)

theorem Later.mono (h : Later i kept touched s s') (hkept : kept' → kept)
    (htouched : ∀ p, touched p → touched' p) : Later i kept' touched' s s' := by
  refine ⟨h.recorded, h.schedule, fun j hj => h.still j fun h => hkept (hj h), h.calm, h.length, h.others,
    fun p e he => ?_⟩
  obtain ⟨e', he', haged⟩ := h.entries p e he
  exact ⟨e', he', haged.key, haged.broken, haged.spared, fun ht => haged.datum fun h => ht (htouched p h)⟩

theorem Later.lt (h : Later i kept touched s s') {p : Nat} (hp : p < s.entries.length) :
    p < s'.entries.length := by
  obtain ⟨e', he', -⟩ := h.entries p _ (List.getElem?_eq_getElem hp)
  exact (List.getElem?_eq_some_iff.mp he').1

theorem Later.collect (s : State κ δ P) : Later i kept touched s s.collect := by
  obtain ⟨entries, tables, placement, schedule, recorded, flags⟩ := s
  cases schedule with
  | nil => exact .refl _
  | cons event rest =>
      cases event with
      | none =>
          exact ⟨rfl, suffix_cons _ _, fun _ _ h => ⟨h, fun _ => rfl⟩, fun h => (nomatch h), rfl,
            fun _ _ => rfl, fun _ e he => ⟨e, he, rfl, fun h => h, fun _ => rfl, fun _ => rfl⟩⟩
      | some collection =>
          refine ⟨rfl, suffix_cons _ _, fun _ _ h => ?_, fun h => (nomatch h), rfl,
            fun _ _ => rfl, fun p e he => ?_⟩
          · simp only [State.collect, Bool.or_eq_false_iff, contains_eq_mem,
              decide_eq_false_iff_not] at h
            exact ⟨h.2, fun hmem => absurd hmem h.1⟩
          · refine ⟨{ e with broken := e.broken || collection.breaks p e }, ?_, rfl, fun hb => ?_,
              fun hspares => ?_, fun _ => rfl⟩
            · simp only [State.collect, List.getElem?_mapIdx]
              rw [he]
              rfl
            · rw [hb]
              rfl
            · rw [hspares collection mem_cons_self p e rfl, Bool.or_false]

theorem collect_tables (s : State κ δ P) : s.collect.tables = s.tables := by
  unfold State.collect
  split <;> rfl

theorem collect_schedule (s : State κ δ P) : s.collect.schedule = s.schedule.tail := by
  unfold State.collect
  split <;> simp_all

/-- The procedure returns, and `Q` holds of its result and of the state it leaves. -/
def Does (i : Nat) (kept : Prop) (touched : Nat → Prop) (m : M κ δ P α) (s : State κ δ P)
    (Q : α → State κ δ P → Prop) : Prop :=
  Completes m s fun a s' => Later i kept touched s s' ∧ Q a s'

variable {m : M κ δ P α} {f : α → M κ δ P β} {Q Q' : α → State κ δ P → Prop}
  {R : β → State κ δ P → Prop}

theorem Does.pure {a : α} (h : Q a s) : Does i kept touched (Pure.pure a) s Q :=
  Completes.pure ⟨.refl _, h⟩

theorem Does.bind (h : Does i kept touched m s Q)
    (hf : ∀ a s', Later i kept touched s s' → Q a s' → Does i kept touched (f a) s' R) :
    Does i kept touched (m >>= f) s R :=
  Completes.bind h fun a s' ⟨hlater, hq⟩ =>
    (hf a s' hlater hq).mono fun _ _ ⟨hlater', hr⟩ => ⟨hlater.trans hlater', hr⟩

theorem Does.mono (h : Does i kept touched m s Q)
    (hmono : ∀ a s', Later i kept touched s s' → Q a s' → Q' a s') : Does i kept touched m s Q' :=
  Completes.mono h fun a s' ⟨hlater, hq⟩ => ⟨hlater, hmono a s' hlater hq⟩

theorem Does.weaken (h : Does i kept touched m s Q) (hkept : kept' → kept)
    (htouched : ∀ p, touched p → touched' p) :
    Does i kept' touched' m s fun a s' => Later i kept touched s s' ∧ Q a s' :=
  Completes.mono h fun _ _ ⟨hlater, hq⟩ => ⟨hlater.mono hkept htouched, hlater, hq⟩

/-- Nothing is touched. -/
def nothing (_ : Nat) : Prop := False

theorem Does.quiet (h : Does i True nothing m s Q) :
    Does i kept touched m s fun a s' => Later i True nothing s s' ∧ Q a s' :=
  h.weaken (fun _ => trivial) fun _ h => h.elim

/-! ## Accesses -/

theorem access_spec {f : State κ δ P → Option (α × State κ δ P)} {Q : α → State κ δ P → Prop}
    (h : ∀ s1, Later i True nothing s s1 → s1.tables = s.tables →
      ∃ a s', f s1 = some (a, s') ∧ Later i kept touched s1 s' ∧ Q a s') :
    Does i kept touched (access f) s Q := by
  obtain ⟨a, s', hf, hlater, hq⟩ := h s.collect (.collect s) (collect_tables s)
  exact ⟨a, s', hf, (Later.collect s).trans hlater, hq⟩

theorem readTable_spec {j : Nat} (h : s.tables[j]? = some t) :
    Does i kept touched (readTable j) s fun a s' => t = a ∧ s'.tables = s.tables
      ∧ s'.schedule = s.schedule.tail := by
  refine ⟨t, s.collect, ?_, .collect s, rfl, collect_tables s, collect_schedule s⟩
  change (s.collect.tables[j]?).map _ = _
  rw [collect_tables, h]
  rfl

theorem Later.modify (s : State κ δ P) (f : Table → Table) :
    Later i kept touched s { s with tables := s.tables.modify i f } :=
  ⟨rfl, suffix_refl _, fun _ _ h => ⟨h, fun _ => rfl⟩, fun _ h => h, length_modify ..,
    fun _ hj => List.getElem?_modify_ne f s.tables (Ne.symm hj),
    fun _ e he => ⟨e, he, rfl, fun h => h, fun _ => rfl, fun _ => rfl⟩⟩

theorem writeTable_spec (h : s.tables[i]? = some t) (f : Table → Table) :
    Does i kept touched (writeTable i f) s fun _ s' => s'.tables[i]? = some (f t) := by
  refine ⟨(), { s.collect with tables := s.collect.tables.modify i f }, ?_,
    (Later.collect s).trans (.modify _ f), ?_⟩
  · refine if_pos ?_
    rw [collect_tables]
    exact (List.getElem?_eq_some_iff.mp h).1
  · change (s.collect.tables.modify i f)[i]? = some (f t)
    rw [collect_tables, List.getElem?_modify_eq, h]
    rfl

theorem tableNeedsRehash_spec :
    Does i kept touched (tableNeedsRehash i) s fun a s' => s'.needsRehash i = a
      ∧ s'.tables = s.tables :=
  access_spec fun s1 _ htables => ⟨_, s1, rfl, .refl _, rfl, htables⟩

theorem setTableNeedsRehash_spec :
    Does i False touched (setTableNeedsRehash i false) s fun _ s' => s'.needsRehash i = false
      ∧ s'.tables = s.tables :=
  access_spec fun _ _ htables => ⟨(), _, rfl,
    ⟨rfl, suffix_refl _, fun _ hj hflag => ⟨(Function.update_of_ne (fun h => hj h) _ _).symm.trans hflag,
      fun _ => rfl⟩, fun _ _ => Function.update_self .., rfl, fun _ _ => rfl,
      fun _ e he => ⟨e, he, rfl, fun h => h, fun _ => rfl, fun _ => rfl⟩⟩,
    Function.update_self .., htables⟩

theorem bucketRef_spec (h : s.tables[i]? = some t) {hash : Nat} {ps : List Nat}
    (hps : t.buckets[hash]? = some ps) :
    Does i kept touched (bucketRef i hash) s fun a s' => ps = a ∧ s'.tables = s.tables :=
  access_spec fun s1 _ htables => ⟨ps, s1, by
    simp only [htables, h, hps, Option.bind_eq_bind, Option.bind_some], .refl _, rfl, htables⟩

/-- A table with another chain in one of its buckets. -/
def Table.relink (t : Table) (hash : Nat) (f : List Nat → List Nat) : Table :=
  { t with buckets := t.buckets.modify hash f }

theorem bucketModify_spec (h : s.tables[i]? = some t) {hash : Nat} (hlt : hash < t.buckets.length)
    (f : List Nat → List Nat) :
    Does i kept touched (bucketModify i hash f) s fun _ s' =>
      s'.tables[i]? = some (t.relink hash f) := by
  refine access_spec fun s1 _ htables => ⟨(), { s1 with
    tables := s1.tables.modify i fun t => { t with buckets := t.buckets.modify hash f } }, by
      simp only [htables, h, Option.bind_eq_bind, Option.bind_some, if_pos hlt], .modify s1 _, ?_⟩
  rw [htables, List.getElem?_modify_eq, h]
  rfl

theorem makeEntry_spec (key : κ) (datum : δ) :
    Does i kept touched (makeEntry key datum) s fun p s' => p = s.entries.length
      ∧ s'.entries[p]? = some ⟨key, datum, false⟩ ∧ s'.tables = s.tables := by
  have hlength : s.collect.entries.length = s.entries.length := by
    unfold State.collect
    split <;> simp
  refine ⟨_, _, rfl, (Later.collect s).trans ⟨rfl, suffix_refl _, fun _ _ h => ⟨h, fun _ => rfl⟩,
    fun _ h => h, rfl, fun _ _ => rfl, fun p e he => ⟨e, ?_, rfl, fun h => h, fun _ => rfl, fun _ => rfl⟩⟩,
    hlength, ?_, collect_tables s⟩
  · rw [List.getElem?_append_left (List.getElem?_eq_some_iff.mp he).1, he]
  · exact List.getElem?_concat_length ..

theorem entryRef_spec {p : Nat} (hp : p < s.entries.length) :
    Does i kept touched (entryRef p) s fun e s' => s'.entries[p]? = some e ∧ s'.tables = s.tables :=
  access_spec fun s1 hlater htables => by
    have hlt := hlater.lt hp
    have hget := List.getElem?_eq_getElem hlt
    refine ⟨s1.entries[p], s1, ?_, .refl _, hget, htables⟩
    rw [hget]
    rfl

theorem entryKeyAndDatum_spec {p : Nat} (hp : p < s.entries.length) :
    Does i kept touched (entryKeyAndDatum p) s fun r s' => ∃ e, s'.entries[p]? = some e
      ∧ r = (if e.broken then none else some (e.key, e.datum)) ∧ s'.tables = s.tables := by
  refine Does.bind (entryRef_spec hp) fun e s1 _ hr => ?_
  exact .pure ⟨e, hr.1, rfl, hr.2⟩

theorem setEntryDatum_spec {p : Nat} (hp : p < s.entries.length) (datum : δ) (htouched : touched p) :
    Does i kept touched (setEntryDatum p datum) s fun _ s' =>
      (∀ e, s'.entries[p]? = some e → e.datum = datum) ∧ s'.tables = s.tables := by
  refine access_spec fun s1 hlater htables => ⟨(), _, if_pos (hlater.lt hp), ?_, ?_, htables⟩
  · refine ⟨rfl, suffix_refl _, fun _ _ h => ⟨h, fun _ => rfl⟩, fun _ h => h, rfl, fun _ _ => rfl,
      fun q e he => ?_⟩
    by_cases hq : q = p
    · subst hq
      refine ⟨{ e with datum := datum }, ?_, rfl, fun h => h, fun _ => rfl, fun h => absurd htouched h⟩
      rw [List.getElem?_modify_eq, he]
      rfl
    · refine ⟨e, ?_, rfl, fun h => h, fun _ => rfl, fun _ => rfl⟩
      rw [List.getElem?_modify_ne _ _ (Ne.symm hq), he]
  · intro e he
    rw [List.getElem?_modify_eq] at he
    obtain ⟨e1, -, rfl⟩ := Option.map_eq_some_iff.mp he
    rfl

theorem keyHash_spec (key : κ) (modulus : Nat) :
    Does i kept touched (keyHash type key modulus) s fun a s' => s'.tables = s.tables
      ∧ type.keyHash s'.placement key modulus = a :=
  access_spec fun s1 _ htables => ⟨_, s1, rfl, .refl _, htables, rfl⟩

theorem lift_spec {x : Option α} {a : α} (h : x = some a) :
    Does i kept touched (StateT.lift x : M κ δ P α) s fun b s' => a = b ∧ s' = s := by
  subst h
  exact ⟨a, s, rfl, .refl _, rfl, rfl⟩

end MitScheme.WeakHashTable
