import MitScheme.Runtime.WeakHashTableFinding

/-!
# The methods of weak tables

A method leaves a table whose count is the number of its entries. All of them were in it before, or are
new. Of a key whose entries no collection breaks it is known where its entry is, and what its datum is.
-/

namespace MitScheme.WeakHashTable

open Programs List
open HashTable (computeShrinkSize minimumSize)

variable {κ δ P α : Type} {type : TableType κ δ P} {s s' s'' : State κ δ P} {i : Nat}
  {t t' t'' : Table} {kept : Prop} {touched : Nat → Prop} {key key' : κ} {datum : δ} {p hash : Nat}

/-! ## The entry of a key -/

/-- The entry under a key and its datum, where there is one. No collection is to break it. -/
structure Tracks (type : TableType κ δ P) (s : State κ δ P) (i : Nat) (t : Table) (key : κ)
    (entry : Option (Nat × δ)) : Prop where
  laid : Laid type s i t key
  spares : ∀ key', type.keyEq key' key = true → Spares s.schedule key'
  held : ∀ p datum, entry = some (p, datum) → p ∈ t.cells ∧ Entered type s key p datum
  lone : ∀ p ∈ t.cells, Under type s key p → ∃ datum, entry = some (p, datum)

/-- The entries are where they should be if the table need not be rehashed, and no two of them are under
one key. -/
structure Tidy (type : TableType κ δ P) (s : State κ δ P) (i : Nat) (t : Table) : Prop where
  laid : ∀ key, Laid type s i t key
  lone : ∀ p ∈ t.cells, ∀ q ∈ t.cells, ∀ key, Under type s key p → Under type s key q → p = q

/-- What a method leaves. -/
structure Outcome (type : TableType κ δ P) (i : Nat) (s : State κ δ P) (t : Table) (s' : State κ δ P)
    (t' : Table) : Prop where
  sound : Sound type s' i t'
  fresh : ∀ p ∈ t'.cells, p ∈ t.cells ∨ s.entries.length ≤ p
  tidy : Tidy type s i t → Tidy type s' i t'

theorem Later.entries_le (h : Later i kept touched s s') : s.entries.length ≤ s'.entries.length := by
  by_contra hlt
  have := h.lt (Nat.lt_of_not_le hlt)
  omega

theorem Tidy.sub (h : Tidy type s i t) (howns : Owns type s i t []) (hlater : Later i kept touched s s')
    (hsub : ∀ p ∈ t'.cells, p ∈ t.cells) (hlaid : ∀ key, Laid type s i t key → Laid type s' i t' key) :
    Tidy type s' i t' := by
  refine ⟨fun key => hlaid key (h.laid key), fun p hp q hq key hunder hunder' => ?_⟩
  exact h.lone p (hsub p hp) q (hsub q hq) key
    (hunder.before hlater (howns.bounded p (mem_append_left _ (hsub p hp))))
    (hunder'.before hlater (howns.bounded q (mem_append_left _ (hsub q hq))))

theorem Reorganized.outcome (h : Reorganized type i s t s' t') (hsound : Sound type s i t)
    (hlater : Later i kept touched s s') : Outcome type i s t s' t' :=
  ⟨h.sound, fun p hp => .inl (h.sub p hp), fun htidy => htidy.sub hsound.owns hlater h.sub h.laid⟩

theorem Outcome.trans (h : Outcome type i s t s' t') (hlater : Later i kept touched s s')
    (h' : Outcome type i s' t' s'' t'') : Outcome type i s t s'' t'' := by
  refine ⟨h'.sound, fun p hp => ?_, fun htidy => h'.tidy (h.tidy htidy)⟩
  rcases h'.fresh p hp with hp | hle
  · exact h.fresh p hp
  · exact .inr (Nat.le_trans hlater.entries_le hle)

/-- None of the entries of a table is broken, and no collection breaks any. -/
def Unbroken (s : State κ δ P) (t : Table) : Prop :=
  (∀ key, Spares s.schedule key) ∧ ∀ p ∈ t.cells, ¬ Broken s p

theorem Broken.before (h : Broken s' p) (hlater : Later i kept touched s s') (hspares : ∀ key, Spares s.schedule key)
    (hp : p < s.entries.length) : Broken s p := by
  obtain ⟨e', he', hb⟩ := h
  obtain ⟨e1, he1, haged⟩ := hlater.entries p _ (List.getElem?_eq_getElem hp)
  rw [he1] at he'
  cases he'
  exact ⟨_, List.getElem?_eq_getElem hp, (haged.spared (hspares _)).symm.trans hb⟩

theorem Unbroken.later (h : Unbroken s t) (howns : Owns type s i t []) (hlater : Later i kept touched s s')
    (hsub : ∀ p ∈ t'.cells, p ∈ t.cells) : Unbroken s' t' := by
  refine ⟨fun key => (h.1 key).suffix hlater.schedule, fun p hp hbroken => h.2 p (hsub p hp) ?_⟩
  exact hbroken.before hlater h.1 (howns.bounded p (mem_append_left _ (hsub p hp)))

theorem Under.congr (h : Under type s key p) (hkey : type.keyEq key key' = true) :
    Under type s key' p := by
  obtain ⟨e, he, hb, heq⟩ := h
  exact ⟨e, he, hb, type.keyEq_trans heq hkey⟩

theorem Under.keyEq (h : Under type s key p) (h' : Under type s key' p) :
    type.keyEq key key' = true := by
  obtain ⟨e, he, -, heq⟩ := h
  obtain ⟨e', he', -, heq'⟩ := h'
  rw [he] at he'
  cases he'
  exact type.keyEq_trans (type.keyEq_symm heq) heq'

theorem Laid.congr (h : Laid type s i t key) (hkey : type.keyEq key' key = true) :
    Laid type s i t key' := by
  intro hsettled q hq hunder
  rw [type.keyHash_congr s.placement t.buckets.length hkey]
  exact h hsettled q hq (hunder.congr hkey)

theorem Entered.later (h : Entered type s key p datum) (hlater : Later i kept touched s s')
    (hspares : ∀ key', type.keyEq key' key = true → Spares s.schedule key') (hp : ¬ touched p) :
    Entered type s' key p datum := by
  obtain ⟨e, he, hb, hkey, hdatum⟩ := h
  obtain ⟨e', he', haged⟩ := hlater.entries p e he
  exact ⟨e', he', (haged.spared (hspares _ hkey)).trans hb, haged.key.symm ▸ hkey,
    (haged.datum hp).trans hdatum⟩

variable {entry : Option (Nat × δ)}

theorem Tracks.spares_later (h : Tracks type s i t key entry) (hlater : Later i kept touched s s') :
    ∀ key', type.keyEq key' key = true → Spares s'.schedule key' :=
  fun key' hkey => (h.spares key' hkey).suffix hlater.schedule

theorem Tracks.reorganized (h : Tracks type s i t key entry) (hsound : Sound type s i t)
    (hr : Reorganized type i s t s' t') (hlater : Later i kept touched s s')
    (hp : ∀ p datum, entry = some (p, datum) → ¬ touched p) : Tracks type s' i t' key entry := by
  refine ⟨hr.laid key h.laid, h.spares_later hlater, fun p datum hentry => ?_, fun p hp' hunder => ?_⟩
  · obtain ⟨hmem, hentered⟩ := h.held p datum hentry
    have hentered' := hentered.later hlater h.spares (hp p datum hentry)
    refine ⟨?_, hentered'⟩
    by_contra hnot
    exact (hr.lost p hmem hnot).not_under hentered'.under
  · have hmem := hr.sub p hp'
    exact h.lone p hmem (hunder.before hlater (hsound.owns.bounded p (mem_append_left _ hmem)))

theorem Tracks.resized (h : Tracks type s i t key entry) (hsound : Sound type s i t)
    (hr : Reorganized type i s t s' t') (hlater : Later i kept nothing s s') :
    Tracks type s' i t' key entry := h.reorganized hsound hr hlater fun _ _ _ h => h

theorem Finds.found_eq {found : Option (Nat × δ)} (h : Finds type i s t key hash found s' t')
    (htracks : Tracks type s i t key' entry) (htracks' : Tracks type s' i t' key' entry)
    (hkey : type.keyEq key key' = true) : found = entry := by
  cases found with
  | some r =>
      obtain ⟨⟨ps, hps, hp⟩, hentered⟩ := h.present r.1 r.2 rfl
      have hmem := mem_cells.mpr ⟨hash, ps, hps, hp⟩
      obtain ⟨datum, hentry⟩ := htracks'.lone r.1 hmem (hentered.under.congr hkey)
      obtain ⟨-, e, he, -, -, rfl⟩ := htracks'.held r.1 datum hentry
      obtain ⟨e', he', -, -, hdatum⟩ := hentered
      rw [he] at he'
      cases he'
      rw [hentry, hdatum]
  | none =>
      have habsent := h.absent rfl (htracks.laid.congr hkey)
      cases hentry : entry with
      | none => rfl
      | some r =>
          obtain ⟨hmem, hentered⟩ := htracks'.held r.1 r.2 hentry
          exact absurd (hentered.under.congr (type.keyEq_symm hkey)) (habsent r.1 hmem)

/-! ## Adding an entry -/

/-- A table with one more entry, at the end of a chain. -/
def Table.add (t : Table) (hash p : Nat) : Table :=
  { t with buckets := t.buckets.modify hash (· ++ [p]), count := t.count + 1 }

theorem add_length (t : Table) (hash p : Nat) : (t.add hash p).buckets.length = t.buckets.length :=
  length_modify ..

theorem cells_add (h : hash < t.buckets.length) (p : Nat) : (t.add hash p).cells.Perm (p :: t.cells) := by
  obtain ⟨l, b, r, hsplit, -, hmodify⟩ := modify_split h
  rw [Table.cells, Table.add, hmodify, Table.cells, hsplit]
  simp only [flatten_append, flatten_cons, append_assoc, singleton_append]
  rw [← append_assoc, ← append_assoc]
  exact perm_middle

variable {e : Entry κ δ}

theorem Sound.add (h : Sound type s i t) (hlt : hash < t.buckets.length) (hlater : Later i True touched s s')
    (htable : s'.tables[i]? = some (t.add hash p)) (hp : p = s.entries.length)
    (hget : s'.entries[p]? = some e) : Sound type s' i (t.add hash p) := by
  have hperm := cells_add hlt p
  have hcount := h.owns.count
  have hnodup := h.owns.nodup
  have hnew : p ∉ t.cells := fun hmem => by
    have := h.owns.bounded p (mem_append_left _ hmem)
    omega
  rw [append_nil] at hcount hnodup
  refine ⟨⟨htable, ?_, ?_, fun q hq => ?_, (add_length t hash p).symm ▸ h.owns.positive,
    fun hrehash => hlater.recorded ▸ h.owns.recorded hrehash⟩, h.primes.trans (add_length ..).symm, h.shrink⟩
  · rw [append_nil, hperm.length_eq]
    change t.count + 1 = _
    rw [hcount]
    exact (Int.natCast_succ _).symm
  · rw [append_nil]
    exact hperm.nodup_iff.mpr (nodup_cons.mpr ⟨hnew, hnodup⟩)
  · rw [append_nil] at hq
    rcases mem_cons.mp (hperm.mem_iff.mp hq) with rfl | hq
    · exact (List.getElem?_eq_some_iff.mp hget).1
    · exact hlater.lt (h.owns.bounded q (mem_append_left _ hq))

theorem Laid.add (h : Laid type s i t key') (hsound : Sound type s i t) (hlt : hash < t.buckets.length)
    (hhash : Settled type s i → type.keyHash s.placement key t.buckets.length = hash)
    (hlater : Later i True touched s s') (hget : s'.entries[p]? = some e) (hkey : e.key = key) :
    Laid type s' i (t.add hash p) key' := by
  intro hsettled q hq hunder
  rw [add_length]
  rcases mem_cons.mp ((cells_add hlt p).mem_iff.mp hq) with rfl | hq
  · obtain ⟨e', he', -, hkey'⟩ := hunder
    rw [hget] at he'
    cases he'
    rw [hkey] at hkey'
    rw [← type.keyHash_congr s'.placement t.buckets.length hkey',
      hlater.keyHash hsound.owns.recorded hsettled, hhash (hlater.settled hsettled)]
    refine ⟨t.buckets[hash] ++ [q], ?_, mem_append_right _ mem_cons_self⟩
    change (t.buckets.modify _ _)[_]? = _
    rw [List.getElem?_modify_eq, List.getElem?_eq_getElem hlt]
    rfl
  · obtain ⟨ps, hps, hqps⟩ := h.later hsound.owns hlater hsettled q hq hunder
    exact mem_relink (fun _ => mem_append_left [p]) hps hqps

theorem Tidy.add (h : Tidy type s i t) (hsound : Sound type s i t) (hlt : hash < t.buckets.length)
    (hhash : Settled type s i → type.keyHash s.placement key t.buckets.length = hash)
    (habsent : ∀ q ∈ t.cells, ¬ Under type s key q)
    (hlater : Later i True touched s s') (hget : s'.entries[p]? = some e) (hkey : e.key = key) :
    Tidy type s' i (t.add hash p) := by
  have hold : ∀ q ∈ t.cells, ∀ key', Under type s' key' q → Under type s key' q := fun q hq key' hunder =>
    hunder.before hlater (hsound.owns.bounded q (mem_append_left _ hq))
  have hnew : ∀ q ∈ t.cells, ∀ key', Under type s' key' p → ¬ Under type s' key' q := by
    intro q hq key' hunder hunder'
    obtain ⟨e', he', -, hkey'⟩ := hunder
    rw [hget] at he'
    cases he'
    rw [hkey] at hkey'
    exact habsent q hq ((hold q hq key' hunder').congr (type.keyEq_symm hkey'))
  refine ⟨fun key' => (h.laid key').add hsound hlt hhash hlater hget hkey,
    fun q hq q' hq' key' hunder hunder' => ?_⟩
  rcases mem_cons.mp ((cells_add hlt p).mem_iff.mp hq) with rfl | hmem
  · rcases mem_cons.mp ((cells_add hlt q).mem_iff.mp hq') with rfl | hmem'
    · rfl
    · exact absurd hunder' (hnew q' hmem' key' hunder)
  · rcases mem_cons.mp ((cells_add hlt p).mem_iff.mp hq') with rfl | hmem'
    · exact absurd hunder (hnew q hmem key' hunder')
    · exact h.lone q hmem q' hmem' key' (hold q hmem key' hunder) (hold q' hmem' key' hunder')

theorem Tracks.add_other (h : Tracks type s i t key' entry) (hsound : Sound type s i t)
    (hlt : hash < t.buckets.length)
    (hhash : Settled type s i → type.keyHash s.placement key t.buckets.length = hash)
    (hlater : Later i True nothing s s') (hget : s'.entries[p]? = some e) (hkey : e.key = key)
    (hother : type.keyEq key key' = false) : Tracks type s' i (t.add hash p) key' entry := by
  have hperm := cells_add hlt p
  refine ⟨h.laid.add hsound hlt hhash hlater hget hkey, h.spares_later hlater,
    fun q datum hentry => ?_, fun q hq hunder => ?_⟩
  · obtain ⟨hmem, hentered⟩ := h.held q datum hentry
    exact ⟨hperm.mem_iff.mpr (mem_cons_of_mem p hmem), hentered.later hlater h.spares id⟩
  · rcases mem_cons.mp (hperm.mem_iff.mp hq) with rfl | hq
    · obtain ⟨e', he', -, hkey'⟩ := hunder
      rw [hget] at he'
      cases he'
      rw [hkey, hother] at hkey'
      cases hkey'
    · exact h.lone q hq (hunder.before hlater (hsound.owns.bounded q (mem_append_left _ hq)))

theorem Tracks.add_self (h : Tracks type s i t key' none) (hsound : Sound type s i t)
    (hlt : hash < t.buckets.length)
    (hhash : Settled type s i → type.keyHash s.placement key t.buckets.length = hash)
    (hlater : Later i True nothing s s') (hget : s'.entries[p]? = some e) (hkey : e.key = key)
    (hbroken : e.broken = false) (hself : type.keyEq key key' = true) :
    Tracks type s' i (t.add hash p) key' (some (p, e.datum)) := by
  have hperm := cells_add hlt p
  refine ⟨h.laid.add hsound hlt hhash hlater hget hkey, h.spares_later hlater,
    fun q datum hentry => ?_, fun q hq hunder => ?_⟩
  · cases hentry
    exact ⟨hperm.mem_iff.mpr mem_cons_self, e, hget, hbroken, hkey.symm ▸ hself, rfl⟩
  · rcases mem_cons.mp (hperm.mem_iff.mp hq) with rfl | hq
    · exact ⟨e.datum, rfl⟩
    · have hbefore := hunder.before hlater (hsound.owns.bounded q (mem_append_left _ hq))
      obtain ⟨datum, hentry⟩ := h.lone q hq hbefore
      cases hentry

theorem addEntry_spec (h : Sound type s i t) (hlt : hash < t.buckets.length)
    (hhash : Settled type s i → type.keyHash s.placement key t.buckets.length = hash) (datum : δ) :
    Does i False nothing (addEntry type i hash key datum) s fun _ s' => ∃ t', Sound type s' i t'
      ∧ (∀ p ∈ t'.cells, p ∈ t.cells ∨ s.entries.length ≤ p)
      ∧ (Tidy type s i t → (∀ q ∈ t.cells, ¬ Under type s key q) → Tidy type s' i t')
      ∧ (∀ key' entry, Tracks type s i t key' entry →
        (type.keyEq key key' = false → Tracks type s' i t' key' entry)
        ∧ (type.keyEq key key' = true → entry = none →
            ∃ p, Tracks type s' i t' key' (some (p, datum)))) ∧ t'.rehashSize = t.rehashSize
      ∧ (Sized t → Accepted t.rehashSize →
          (t.initialSizeInEffect = true → t.growSize ≤ t.count → Unbroken s t) → Sized t') := by
  refine Does.bind (makeEntry_spec key datum).quiet fun p s1 _ hr => ?_
  obtain ⟨hlater1, hp, hget1, htables1⟩ := hr
  refine Does.bind (bucketModify_spec (htables1 ▸ h.owns.table) hlt (· ++ [p])).quiet fun _ s2 _ hr => ?_
  obtain ⟨hlater2, htable2⟩ := hr
  refine Does.bind (writeTable_spec htable2 _).quiet fun _ s3 _ hr => ?_
  obtain ⟨hlater3, htable3⟩ := hr
  have hlater := (hlater1.trans hlater2).trans hlater3
  obtain ⟨e, he, haged⟩ := (hlater2.trans hlater3).entries p _ hget1
  have h3 : Sound type s3 i (t.add hash p) := h.add hlt hlater htable3 hp he
  refine (maybeGrowTable_spec h3).mono fun _ s4 hlater4 hr => ?_
  obtain ⟨t4, hr4, hrehash4, hsized4⟩ := hr
  refine ⟨t4, hr4.sound, fun q hq => ?_, fun htidy habsent => ?_,
    fun key' entry htracks => ⟨fun hkey => ?_, fun hkey hnone => ?_⟩, hrehash4, fun hsized haccepted hfull => ?_⟩
  · rcases mem_cons.mp ((cells_add hlt p).mem_iff.mp (hr4.sub q hq)) with rfl | hq
    · exact .inr (Nat.le_of_eq hp.symm)
    · exact .inl hq
  · exact (htidy.add h hlt hhash habsent hlater he haged.key).sub h3.owns hlater4 hr4.sub hr4.laid
  · have h3' := htracks.add_other h hlt hhash hlater he haged.key hkey
    exact h3'.resized h3 hr4 hlater4
  · subst hnone
    have hbroken := haged.spared ((htracks.spares key hkey).suffix hlater1.schedule)
    have h3' := htracks.add_self h hlt hhash hlater he haged.key hbroken hkey
    rw [haged.datum id] at h3'
    exact ⟨p, h3'.resized h3 hr4 hlater4⟩
  · have hcount := hsized.count
    have hcrowded : Crowded (t.add hash p) := by
      refine ⟨Int.add_le_add_right hcount 1, ?_, fun hinitial => ?_, haccepted⟩
      · rw [add_length]
        exact hsized.room
      · exact (hsized.shrink hinitial).trans (Int.le_add_one (le_refl _))
    refine hsized4 hcrowded fun hinitial hgrow => ?_
    obtain ⟨hspares, hunbroken⟩ := hfull hinitial (Int.lt_add_one_iff.mp hgrow)
    intro q hq hbroken
    rcases mem_cons.mp ((cells_add hlt p).mem_iff.mp hq) with rfl | hq
    · -- the new entry
      have hspares1 := fun key => (hspares key).suffix hlater1.schedule
      have hlt1 := (List.getElem?_eq_some_iff.mp hget1).1
      have hbroken3 := hbroken.before hlater4 (fun key => (hspares key).suffix hlater.schedule)
        ((hlater2.trans hlater3).lt hlt1)
      obtain ⟨e1, he1, hb1⟩ := hbroken3.before (hlater2.trans hlater3) hspares1 hlt1
      rw [hget1] at he1
      cases he1
      cases hb1
    · have hlt0 := h.owns.bounded q (mem_append_left _ hq)
      have hbroken3 := hbroken.before hlater4 (fun key => (hspares key).suffix hlater.schedule) (hlater.lt hlt0)
      exact hunbroken q hq (hbroken3.before hlater hspares hlt0)

theorem Sound.added (h : Sound type s i t) (hfinds : Finds type i s t key hash none s' t')
    (hlater : Later i kept touched s s') (hsound : Sound type s'' i t'')
    (hfresh : ∀ p ∈ t''.cells, p ∈ t'.cells ∨ s'.entries.length ≤ p)
    (htidy : Tidy type s' i t' → (∀ q ∈ t'.cells, ¬ Under type s' key q) → Tidy type s'' i t'') :
    Outcome type i s t s'' t'' := by
  have houtcome := hfinds.reorganized.outcome h hlater
  refine ⟨hsound, fun p hp => ?_, fun htidy0 => ?_⟩
  · rcases hfresh p hp with hp | hle
    · exact houtcome.fresh p hp
    · exact .inr (Nat.le_trans hlater.entries_le hle)
  · exact htidy (houtcome.tidy htidy0) (hfinds.absent rfl (htidy0.laid key))

/-! ## Setting, deleting and clearing -/

/-- The datum under a key after a change. -/
def Change.effect (type : TableType κ δ P) (key : κ) : Change κ δ → Option δ → Option δ
  | .set key' datum, held => if type.keyEq key' key then some datum else held
  | .delete key', held => if type.keyEq key' key then none else held
  | .clear, _ => none

/-- The change removes the entry of a key, if it has one. -/
def Change.removes (type : TableType κ δ P) (key : κ) : Change κ δ → Bool
  | .set _ _ => false
  | .delete key' => type.keyEq key' key
  | .clear => true

/-- The entry of a key before and after a change. -/
structure Follows (type : TableType κ δ P) (key : κ) (change : Change κ δ)
    (entry entry' : Option (Nat × δ)) : Prop where
  datum : entry'.map Prod.snd = change.effect type key (entry.map Prod.snd)
  stays : change.removes type key = false → ∀ p datum, entry = some (p, datum) →
    ∃ datum', entry' = some (p, datum')

variable {m : M κ δ P α} {Q : α → State κ δ P → Prop}

theorem Does.loosen (h : Does i False nothing m s Q) :
    Does i False touched m s fun a s' => Later i False nothing s s' ∧ Q a s' :=
  h.weaken id fun _ h => h.elim

theorem Tracks.set {datum' : δ} (h : Tracks type s i t key (some (p, datum))) (hsound : Sound type s i t)
    (hlater : Later i True (· = p) s s')
    (hset : ∀ e, s'.entries[p]? = some e → e.datum = datum') :
    Tracks type s' i t key (some (p, datum')) := by
  refine ⟨h.laid.later hsound.owns hlater, h.spares_later hlater, fun q datum1 hentry => ?_,
    fun q hq hunder => ?_⟩
  · cases hentry
    obtain ⟨hmem, e, he, hb, hkey, -⟩ := h.held p datum rfl
    obtain ⟨e', he', haged⟩ := hlater.entries p e he
    exact ⟨hmem, e', he', (haged.spared (h.spares _ hkey)).trans hb, haged.key.symm ▸ hkey, hset e' he'⟩
  · have hbefore := hunder.before hlater (hsound.owns.bounded q (mem_append_left _ hq))
    obtain ⟨datum1, hentry⟩ := h.lone q hq hbefore
    cases hentry
    exact ⟨datum', rfl⟩

theorem hashTableSet_spec (h : Sound type s i t) (key : κ) (datum : δ) :
    Does i False (fun _ => True) (hashTableSet type i key datum) s fun _ s' => ∃ t',
      Outcome type i s t s' t' ∧ (∀ key' entry, Tracks type s i t key' entry →
        ∃ entry', Follows type key' (.set key datum) entry entry' ∧ Tracks type s' i t' key' entry')
      ∧ t'.rehashSize = t.rehashSize ∧ (Sized t → Accepted t.rehashSize →
        (t.initialSizeInEffect = true → t.growSize ≤ t.count → Unbroken s t) → Sized t') := by
  refine Does.bind (find_spec h key).loosen fun r s1 _ hr => ?_
  obtain ⟨hlater1, t1, hfinds, hresized⟩ := hr
  have hsound1 := hfinds.reorganized.sound
  have htracks1 := fun key' entry (htracks : Tracks type s i t key' entry) =>
    htracks.resized h hfinds.reorganized hlater1
  obtain ⟨hash, found⟩ := r
  cases found with
  | some r =>
      obtain ⟨p, d⟩ := r
      obtain ⟨⟨ps, hps, hp⟩, hentered⟩ := hfinds.present p d rfl
      have hmem := mem_cells.mpr ⟨hash, ps, hps, hp⟩
      have hset : Does i True (· = p) (setEntryDatum p datum) s1 fun _ s2 =>
          (∀ e, s2.entries[p]? = some e → e.datum = datum) ∧ s2.tables = s1.tables :=
        setEntryDatum_spec (hsound1.owns.bounded p (mem_append_left _ hmem)) datum rfl
      refine (hset.weaken (fun _ => trivial) fun _ _ => trivial).mono fun _ s2 _ hr => ?_
      obtain ⟨hlater2, hset2, htables2⟩ := hr
      have hr2 := hsound1.reorganized hlater2 (htables2 ▸ hsound1.owns.table)
      refine ⟨t1, (hfinds.reorganized.outcome h hlater1).trans hlater1 (hr2.outcome hsound1 hlater2),
        fun key' entry htracks => ?_, hresized.rehashSize, fun hsized _ _ => hresized.sized hsized⟩
      have h1 := htracks1 key' entry htracks
      cases hkey : type.keyEq key key' with
      | true =>
          have hentry := hfinds.found_eq htracks h1 hkey
          subst hentry
          refine ⟨some (p, datum), ⟨?_, fun _ q d' hq => ?_⟩, h1.set hsound1 hlater2 hset2⟩
          · exact (if_pos hkey).symm
          · cases hq
            exact ⟨datum, rfl⟩
      | false =>
          refine ⟨entry, ⟨?_, fun _ q d' hq => ⟨d', hq⟩⟩,
            h1.reorganized hsound1 hr2 hlater2 fun q d' hentry hq => ?_⟩
          · rw [Change.effect, hkey, if_neg Bool.false_ne_true]
          · -- the entry that is set is under the other key
            subst hq
            have := hentered.under.keyEq (h1.held q d' hentry).2.under
            rw [hkey] at this
            cases this
  | none =>
      refine (addEntry_spec hsound1 hfinds.hashed.lt hfinds.hashed.computed datum).loosen.mono
        fun _ s2 _ hr => ?_
      obtain ⟨-, t2, hsound2, hfresh, htidy, hadd, hrehash2, hsized2⟩ := hr
      have houtcome := h.added hfinds hlater1 hsound2 hfresh htidy
      have hfull1 : (t.initialSizeInEffect = true → t.growSize ≤ t.count → Unbroken s t) →
          t1.initialSizeInEffect = true → t1.growSize ≤ t1.count → Unbroken s1 t1 := by
        intro hfull hinitial hle
        have hinitial0 := hresized.initial.symm.trans hinitial
        rw [hresized.growSize hinitial0] at hle
        have hle0 := hle.trans (hfinds.reorganized.count_le h.owns)
        exact (hfull hinitial0 hle0).later h.owns hlater1 hfinds.reorganized.sub
      refine ⟨t2, houtcome, fun key' entry htracks => ?_, hrehash2.trans hresized.rehashSize,
        fun hsized haccepted hfull => hsized2 (hresized.sized hsized) (hresized.rehashSize ▸ haccepted)
          (hfull1 hfull)⟩
      have h1 := htracks1 key' entry htracks
      cases hkey : type.keyEq key key' with
      | true =>
          have hentry := hfinds.found_eq htracks h1 hkey
          subst hentry
          obtain ⟨p, hp⟩ := (hadd key' none h1).2 hkey rfl
          exact ⟨_, ⟨(if_pos hkey).symm, fun _ _ _ hq => (nomatch hq)⟩, hp⟩
      | false =>
          refine ⟨entry, ⟨?_, fun _ q d' hq => ⟨d', hq⟩⟩, (hadd key' entry h1).1 hkey⟩
          rw [Change.effect, hkey, if_neg Bool.false_ne_true]

/-- A table without an entry of a chain. -/
def Table.drop (t : Table) (hash p : Nat) : Table :=
  { t with buckets := t.buckets.modify hash (·.erase p), count := t.count - 1 }

theorem drop_length (t : Table) (hash p : Nat) : (t.drop hash p).buckets.length = t.buckets.length :=
  length_modify ..

theorem cells_drop {ps : List Nat} (hps : t.buckets[hash]? = some ps) (hp : p ∈ ps) :
    t.cells.Perm (p :: (t.drop hash p).cells) := by
  obtain ⟨hlt, hget⟩ := List.getElem?_eq_some_iff.mp hps
  obtain ⟨l, b, r, hsplit, hlength, hmodify⟩ := modify_split hlt
  have hb : b = ps := by
    rw [hsplit, ← hlength, List.getElem?_append_right (Nat.le_refl _), Nat.sub_self] at hps
    exact Option.some.inj hps
  subst hb
  rw [Table.cells, Table.drop, hmodify, Table.cells, hsplit]
  simp only [flatten_append, flatten_cons]
  have hperm := (perm_cons_erase hp).append_right r.flatten
  exact (hperm.append_left l.flatten).trans perm_middle

theorem Sound.drop {ps : List Nat} (h : Sound type s i t) (hps : t.buckets[hash]? = some ps)
    (hp : p ∈ ps) (hlater : Later i kept touched s s') (htable : s'.tables[i]? = some (t.drop hash p)) :
    Sound type s' i (t.drop hash p) := by
  have hperm := cells_drop hps hp
  have hcount := h.owns.count
  have hnodup := h.owns.nodup
  rw [append_nil] at hcount hnodup
  refine ⟨⟨htable, ?_, ?_, fun q hq => ?_, (drop_length t hash p).symm ▸ h.owns.positive,
    fun hrehash => hlater.recorded ▸ h.owns.recorded hrehash⟩, h.primes.trans (drop_length ..).symm, h.shrink⟩
  · rw [hperm.length_eq, length_cons] at hcount
    rw [append_nil]
    change t.count - 1 = _
    omega
  · rw [append_nil]
    exact (nodup_cons.mp (hperm.nodup_iff.mp hnodup)).2
  · rw [append_nil] at hq
    exact hlater.lt (h.owns.bounded q (mem_append_left _
      (hperm.mem_iff.mpr (mem_cons_of_mem p hq))))

theorem Laid.drop {ps : List Nat} (h : Laid type s i t key) (hsound : Sound type s i t)
    (hps : t.buckets[hash]? = some ps) (hp : p ∈ ps) (hlater : Later i True touched s s') :
    Laid type s' i (t.drop hash p) key := by
  have hperm := cells_drop hps hp
  have hnodup := hsound.owns.nodup
  rw [append_nil] at hnodup
  intro hsettled q hq hunder
  rw [drop_length]
  have hqp : q ≠ p := fun h => (nodup_cons.mp (hperm.nodup_iff.mp hnodup)).1 (h ▸ hq)
  obtain ⟨qs, hqs, hqqs⟩ := h.later hsound.owns hlater hsettled q
    (hperm.mem_iff.mpr (mem_cons_of_mem p hq)) hunder
  exact mem_relink (fun _ => (mem_erase_of_ne hqp).mpr) hqs hqqs

theorem Sound.drop_outcome {ps : List Nat} (h : Sound type s i t) (hps : t.buckets[hash]? = some ps)
    (hp : p ∈ ps) (hlater : Later i True touched s s') (htable : s'.tables[i]? = some (t.drop hash p)) :
    Outcome type i s t s' (t.drop hash p) := by
  have hsub : ∀ q ∈ (t.drop hash p).cells, q ∈ t.cells := fun q hq =>
    (cells_drop hps hp).mem_iff.mpr (mem_cons_of_mem p hq)
  exact ⟨h.drop hps hp hlater htable, fun q hq => .inl (hsub q hq), fun htidy =>
    htidy.sub h.owns hlater hsub fun key hlaid => hlaid.drop h hps hp hlater⟩

theorem Tracks.drop {ps : List Nat} (h : Tracks type s i t key' entry) (hsound : Sound type s i t)
    (hps : t.buckets[hash]? = some ps) (hp : p ∈ ps) (hlater : Later i True nothing s s')
    (hentered : Entered type s key p datum) :
    (type.keyEq key key' = false → Tracks type s' i (t.drop hash p) key' entry)
      ∧ (type.keyEq key key' = true → Tracks type s' i (t.drop hash p) key' none) := by
  have hperm := cells_drop hps hp
  have hmem := mem_cells.mpr ⟨hash, ps, hps, hp⟩
  have hnodup := hsound.owns.nodup
  rw [append_nil] at hnodup
  have hnot : p ∉ (t.drop hash p).cells := (nodup_cons.mp (hperm.nodup_iff.mp hnodup)).1
  have hlaid := h.laid.drop hsound hps hp hlater
  have hbefore : ∀ q ∈ (t.drop hash p).cells, Under type s' key' q →
      q ∈ t.cells ∧ Under type s key' q := by
    intro q hq hunder
    have hq' := hperm.mem_iff.mpr (mem_cons_of_mem p hq)
    exact ⟨hq', hunder.before hlater (hsound.owns.bounded q (mem_append_left _ hq'))⟩
  refine ⟨fun hkey => ⟨hlaid, h.spares_later hlater, fun q d hentry => ?_, fun q hq hunder => ?_⟩,
    fun hkey => ⟨hlaid, h.spares_later hlater, fun _ _ hentry => (nomatch hentry), fun q hq hunder => ?_⟩⟩
  · obtain ⟨hq, hentered'⟩ := h.held q d hentry
    refine ⟨?_, hentered'.later hlater h.spares id⟩
    rcases mem_cons.mp (hperm.mem_iff.mp hq) with rfl | hq
    · have := hentered.under.keyEq hentered'.under
      rw [hkey] at this
      cases this
    · exact hq
  · obtain ⟨hq', hunder'⟩ := hbefore q hq hunder
    exact h.lone q hq' hunder'
  · -- there is no other entry under the key
    obtain ⟨hq', hunder'⟩ := hbefore q hq hunder
    obtain ⟨d, hd⟩ := h.lone q hq' hunder'
    obtain ⟨d', hd'⟩ := h.lone p hmem (hentered.under.congr hkey)
    rw [hd] at hd'
    cases hd'
    exact absurd hq hnot

theorem hashTableDelete_spec (h : Sound type s i t) (key : κ) :
    Does i False (fun _ => True) (hashTableDelete type i key) s fun _ s' => ∃ t',
      Outcome type i s t s' t' ∧ (∀ key' entry, Tracks type s i t key' entry →
        ∃ entry', Follows type key' (.delete key) entry entry' ∧ Tracks type s' i t' key' entry')
      ∧ t'.rehashSize = t.rehashSize ∧ (Sized t → Sized t') := by
  refine Does.bind (find_spec h key).loosen fun r s1 _ hr => ?_
  obtain ⟨hlater1, t1, hfinds, hresized⟩ := hr
  have hsound1 := hfinds.reorganized.sound
  obtain ⟨hash, found⟩ := r
  cases found with
  | some r =>
      obtain ⟨p, d⟩ := r
      obtain ⟨⟨ps, hps, hp⟩, hentered⟩ := hfinds.present p d rfl
      have hlt := hfinds.hashed.lt
      refine Does.bind (bucketModify_spec hsound1.owns.table hlt (·.erase p)).quiet fun _ s2 _ hr => ?_
      obtain ⟨hlater2, htable2⟩ := hr
      refine Does.bind (writeTable_spec htable2 _).quiet fun _ s3 _ hr => ?_
      obtain ⟨hlater3, htable3⟩ := hr
      have hlater := hlater2.trans hlater3
      have h3 : Sound type s3 i (t1.drop hash p) := hsound1.drop hps hp hlater htable3
      refine (maybeShrink_spec h3).loosen.mono fun _ s4 _ hr => ?_
      obtain ⟨hlater4, t4, hr4, hshrunk⟩ := hr
      have houtcome := (hfinds.reorganized.outcome h hlater1).trans hlater1
        (hsound1.drop_outcome hps hp hlater htable3)
      have hall := hlater1.trans (hlater.mono (fun h => h.elim) fun _ h => h)
      refine ⟨t4, houtcome.trans hall (hr4.outcome h3 hlater4), fun key' entry htracks => ?_,
        hshrunk.rehashSize.trans hresized.rehashSize, fun hsized => hshrunk.sized ?_⟩
      · have h1 := htracks.resized h hfinds.reorganized hlater1
        have hdrop := h1.drop hsound1 hps hp hlater hentered
        cases hkey : type.keyEq key key' with
        | true =>
            refine ⟨none, ⟨(if_pos hkey).symm, fun hremoves => ?_⟩, (hdrop.2 hkey).resized h3 hr4 hlater4⟩
            rw [Change.removes, hkey] at hremoves
            cases hremoves
        | false =>
            refine ⟨entry, ⟨?_, fun _ q d' hq => ⟨d', hq⟩⟩, (hdrop.1 hkey).resized h3 hr4 hlater4⟩
            rw [Change.effect, hkey, if_neg Bool.false_ne_true]
      · have hsized1 := hresized.sized hsized
        refine ⟨(Int.sub_le_self _ Int.one_nonneg).trans hsized1.count, ?_⟩
        rw [drop_length]
        exact hsized1.room
  | none =>
      refine .pure ⟨t1, hfinds.reorganized.outcome h hlater1, fun key' entry htracks => ?_, hresized.rehashSize,
        hresized.sized⟩
      have h1 := htracks.resized h hfinds.reorganized hlater1
      cases hkey : type.keyEq key key' with
      | true =>
          have hentry := hfinds.found_eq htracks h1 hkey
          subst hentry
          exact ⟨none, ⟨(if_pos hkey).symm, fun _ _ _ hq => (nomatch hq)⟩, h1⟩
      | false =>
          refine ⟨entry, ⟨?_, fun _ q d' hq => ⟨d', hq⟩⟩, h1⟩
          rw [Change.effect, hkey, if_neg Bool.false_ne_true]

theorem hashTableClear_spec (h : Sound type s i t) :
    Does i False (fun _ => True) (hashTableClear i) s fun _ s' => ∃ t',
      Outcome type i s t s' t' ∧ ∀ key entry, Tracks type s i t key entry →
        Follows type key .clear entry none ∧ Tracks type s' i t' key none := by
  refine Does.bind (readTable_spec h.owns.table) fun r s1 hlater1 hr => ?_
  obtain ⟨rfl, htables1, -⟩ := hr
  have hgrow : Does i False (fun _ => True) (resetGrowSize i t.initialSizeInEffect) s1 fun _ s2 =>
      ∃ size, s2.tables[i]? = some { t with growSize := size } := by
    rw [resetGrowSize]
    split
    · exact .pure ⟨t.growSize, htables1 ▸ h.owns.table⟩
    · exact (writeTable_spec (htables1 ▸ h.owns.table) _).mono fun _ _ _ htable => ⟨_, htable⟩
  refine Does.bind hgrow fun _ s2 hlater2 hr => ?_
  obtain ⟨size, htable2⟩ := hr
  refine Does.bind (writeTable_spec htable2 _) fun _ s3 hlater3 htable3 => ?_
  refine (resetTable_spec (t := { t with growSize := size, count := 0 }) htable3
    (h.primes ▸ h.owns.positive)).mono fun _ s4 hlater4 hr => ?_
  obtain ⟨n, hn, -, htable4⟩ := hr
  have hlater := ((hlater1.trans hlater2).trans hlater3).trans hlater4
  obtain ⟨t4, ht4⟩ : ∃ t4 : Table, t4 = { t with
      growSize := size, count := 0, shrinkSize := computeShrinkSize t.rehashSize size, primes := n,
      buckets := List.replicate n [] } := ⟨_, rfl⟩
  have hnil : t4.cells = [] := by
    rw [Table.cells, ht4]
    simp
  have hsound : Sound type s4 i t4 := by
    refine ⟨⟨ht4 ▸ htable4, ?_, ?_, fun q hq => ?_, ?_, fun hrehash => hlater.recorded ▸ h.owns.recorded hrehash⟩,
      ?_, ?_⟩
    · rw [hnil, ht4]
      rfl
    · rw [hnil]
      exact nodup_nil
    · rw [hnil] at hq
      cases hq
    · rw [ht4]
      exact length_replicate.symm ▸ hn
    · rw [ht4]
      exact length_replicate.symm
    · rw [ht4]
  have hnot : ∀ q, q ∉ t4.cells := fun q hq => by
    rw [hnil] at hq
    cases hq
  refine ⟨t4, ⟨hsound, fun q hq => absurd hq (hnot q), fun _ => ⟨fun _ _ q hq => absurd hq (hnot q),
    fun q hq => absurd hq (hnot q)⟩⟩, fun key entry htracks => ⟨⟨rfl, ?_⟩,
    fun _ q hq => absurd hq (hnot q), htracks.spares_later hlater, ?_, fun q hq => absurd hq (hnot q)⟩⟩
  · intro h
    cases h
  · intro _ _ h
    cases h

end MitScheme.WeakHashTable
