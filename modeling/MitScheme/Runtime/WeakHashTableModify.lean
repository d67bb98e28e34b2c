import MitScheme.Runtime.WeakHashTableMethods

/-!
# Procedures that change the table they are given a datum of

`modify!` holds an entry while its procedure runs. If the procedure removes the entry, what it returns is
put into an entry that is in no bucket any more.
-/

namespace MitScheme.WeakHashTable

open Programs

variable {κ δ P : Type} {type : TableType κ δ P} {s s' : State κ δ P} {i : Nat} {t t' : Table}
  {kept : Prop} {touched : Nat → Prop} {key : κ} {datum : δ} {p : Nat} {entry : Option (Nat × δ)}
  {changes : List (Change κ δ)}

/-! ## Changes -/

/-- The datum under a key after some changes. -/
def effect (type : TableType κ δ P) (key : κ) : List (Change κ δ) → Option δ → Option δ
  | [], held => held
  | change :: changes, held => effect type key changes (change.effect type key held)

/-- One of the changes removes the entry of the key. -/
def removes (type : TableType κ δ P) (key : κ) (changes : List (Change κ δ)) : Bool :=
  changes.any (Change.removes type key)

theorem performChange_spec (h : Sound type s i t) (change : Change κ δ) :
    Does i False (fun _ => True) (performChange type i change) s fun _ s' => ∃ t',
      Outcome type i s t s' t' ∧ ∀ key entry, Tracks type s i t key entry →
        ∃ entry', Follows type key change entry entry' ∧ Tracks type s' i t' key entry' := by
  cases change with
  | set key datum =>
      exact (hashTableSet_spec h key datum).mono fun _ _ _ ⟨t', houtcome, hset, _⟩ => ⟨t', houtcome, hset⟩
  | delete key =>
      exact (hashTableDelete_spec h key).mono fun _ _ _ ⟨t', houtcome, hdelete, _⟩ => ⟨t', houtcome, hdelete⟩
  | clear =>
      refine (hashTableClear_spec h).mono fun _ _ _ hr => ?_
      obtain ⟨t', houtcome, hclear⟩ := hr
      exact ⟨t', houtcome, fun key entry htracks => ⟨none, hclear key entry htracks⟩⟩

/-- What is known of a key after some changes. An entry that has been removed is not put back. -/
structure Changed (type : TableType κ δ P) (key : κ) (changes : List (Change κ δ))
    (entry entry' : Option (Nat × δ)) (t' : Table) : Prop where
  datum : entry'.map Prod.snd = effect type key changes (entry.map Prod.snd)
  stays : removes type key changes = false → ∀ p datum, entry = some (p, datum) →
    ∃ datum', entry' = some (p, datum')
  gone : removes type key changes = true → ∀ p datum, entry = some (p, datum) → p ∉ t'.cells

theorem Under.later (h : Under type s key p) (hlater : Later i kept touched s s')
    (hspares : ∀ key', type.keyEq key' key = true → Spares s.schedule key') : Under type s' key p := by
  obtain ⟨e, he, hb, hkey⟩ := h
  obtain ⟨e', he', haged⟩ := hlater.entries p e he
  exact ⟨e', he', (haged.spared (hspares _ hkey)).trans hb, haged.key.symm ▸ hkey⟩

theorem performChanges_spec (h : Sound type s i t) (changes : List (Change κ δ)) :
    Does i False (fun _ => True) (performChanges type i changes) s fun _ s' => ∃ t',
      Outcome type i s t s' t' ∧ ∀ key entry, Tracks type s i t key entry →
        ∃ entry', Changed type key changes entry entry' t' ∧ Tracks type s' i t' key entry' := by
  induction changes generalizing s t with
  | nil =>
      exact .pure ⟨t, ⟨h, fun _ hp => .inl hp, id⟩, fun key entry htracks =>
        ⟨entry, ⟨rfl, fun _ p datum hentry => ⟨datum, hentry⟩, fun h => (nomatch h)⟩, htracks⟩⟩
  | cons change changes ih =>
      refine Does.bind (performChange_spec h change) fun _ s1 hlater1 hr => ?_
      obtain ⟨t1, houtcome1, hchange⟩ := hr
      refine (ih houtcome1.sound).mono fun _ s2 hlater2 hr => ?_
      obtain ⟨t2, houtcome2, hchanges⟩ := hr
      refine ⟨t2, houtcome1.trans hlater1 houtcome2, fun key entry htracks => ?_⟩
      obtain ⟨entry1, hfollows, htracks1⟩ := hchange key entry htracks
      obtain ⟨entry2, hchanged, htracks2⟩ := hchanges key entry1 htracks1
      refine ⟨entry2, ⟨?_, fun hstays p datum hentry => ?_, fun hgone p datum hentry => ?_⟩, htracks2⟩
      · rw [effect, hchanged.datum, hfollows.datum]
      · rw [removes, List.any_cons, Bool.or_eq_false_iff] at hstays
        obtain ⟨datum1, hentry1⟩ := hfollows.stays hstays.1 p datum hentry
        exact hchanged.stays hstays.2 p datum1 hentry1
      · obtain ⟨hp, hentered⟩ := htracks.held p datum hentry
        cases hremoves : change.removes type key with
        | true =>
            -- there is no entry under the key now, and this one is old
            have hnone : entry1 = none := by
              have hdatum := hfollows.datum
              cases change with
              | set key' datum' => cases hremoves
              | delete key' =>
                  have hkey : type.keyEq key' key = true := hremoves
                  rw [Change.effect, if_pos hkey] at hdatum
                  exact Option.map_eq_none_iff.mp hdatum
              | clear => exact Option.map_eq_none_iff.mp hdatum
            have hunder := hentered.under.later hlater1 htracks.spares
            have hnot : p ∉ t1.cells := fun hmem => by
              obtain ⟨_, hsome⟩ := htracks1.lone p hmem hunder
              rw [hnone] at hsome
              cases hsome
            intro hmem
            have hlt := hlater1.lt (h.owns.bounded p (List.mem_append_left _ hp))
            exact (houtcome2.fresh p hmem).elim hnot fun hle => by omega
        | false =>
            obtain ⟨datum1, hentry1⟩ := hfollows.stays hremoves p datum hentry
            rw [removes, List.any_cons, hremoves] at hgone
            exact hchanged.gone hgone p datum1 hentry1

/-! ## Modifying -/

/-- The datum under a key after the procedure has been applied to it, and after `set-entry-datum!`. -/
def left (type : TableType κ δ P) (key : κ) (changes : List (Change κ δ)) (held : Option δ) (value : δ) :
    Option δ :=
  if removes type key changes then effect type key changes held else some value

theorem applyProcedure_spec (h : Sound type s i t) (procedure : Procedure κ δ) (datum : δ) :
    Does i False (fun _ => True) (applyProcedure type i procedure datum) s fun value s' =>
      value = (procedure datum).2 ∧ ∃ t', Outcome type i s t s' t'
        ∧ ∀ key entry, Tracks type s i t key entry → ∃ entry',
          Changed type key (procedure datum).1 entry entry' t' ∧ Tracks type s' i t' key entry' :=
  Does.bind (performChanges_spec h (procedure datum).1) fun _ _ _ hr => .pure ⟨rfl, hr⟩

theorem modifyEntry_spec (h : Sound type s i t) (hp : p < s.entries.length)
    (procedure : Procedure κ δ) (datum : δ) :
    Does i False (fun _ => True) (modifyEntry type i procedure p datum) s fun value s' =>
      value = (procedure datum).2 ∧ ∃ t', Outcome type i s t s' t'
        ∧ ∀ key, Tracks type s i t key (some (p, datum)) → ∃ entry', Tracks type s' i t' key entry'
          ∧ entry'.map Prod.snd = left type key (procedure datum).1 (some datum) value := by
  refine Does.bind (applyProcedure_spec h procedure datum) fun value s1 hlater1 hr => ?_
  obtain ⟨rfl, t1, houtcome1, hchanges⟩ := hr
  have hset : Does i True (· = p) (setEntryDatum p (procedure datum).2) s1 fun _ s2 =>
      (∀ e, s2.entries[p]? = some e → e.datum = (procedure datum).2) ∧ s2.tables = s1.tables :=
    setEntryDatum_spec (hlater1.lt hp) _ rfl
  refine Does.bind (hset.weaken (fun _ => trivial) fun _ _ => trivial) fun _ s2 _ hr => ?_
  obtain ⟨hlater2, hset2, htables2⟩ := hr
  have hr2 := houtcome1.sound.reorganized hlater2 (htables2 ▸ houtcome1.sound.owns.table)
  refine .pure ⟨rfl, t1, houtcome1.trans hlater1 (hr2.outcome houtcome1.sound hlater2), fun key htracks => ?_⟩
  obtain ⟨entry1, hchanged, htracks1⟩ := hchanges key _ htracks
  cases hremoves : removes type key (procedure datum).1 with
  | true =>
      -- the entry is in no bucket, and is none that is under the key
      have hgone := hchanged.gone hremoves p datum rfl
      refine ⟨entry1, htracks1.reorganized houtcome1.sound hr2 hlater2 fun q d hentry hq => ?_, ?_⟩
      · subst hq
        exact hgone (htracks1.held q d hentry).1
      · rw [left, if_pos hremoves, hchanged.datum]
        rfl
  | false =>
      obtain ⟨datum1, hentry1⟩ := hchanged.stays hremoves p datum rfl
      subst hentry1
      refine ⟨_, htracks1.set houtcome1.sound hlater2 hset2, ?_⟩
      rw [left, hremoves]
      rfl

/-- What `modify!` returns, and the datum under the key then, given the one before. -/
def modified (type : TableType κ δ P) (key : κ) (default : δ) (procedure : Procedure κ δ) :
    Option δ → δ × Option δ
  | some datum => ((procedure datum).2,
      left type key (procedure datum).1 (some datum) (procedure datum).2)
  | none =>
      match effect type key (procedure default).1 none with
      | some datum => ((procedure datum).2,
          left type key (procedure datum).1 (some datum) (procedure datum).2)
      | none => ((procedure default).2, some (procedure default).2)

theorem hashTableModify_spec (h : Sound type s i t) (key : κ) (default : δ) (procedure : Procedure κ δ) :
    Does i False (fun _ => True) (hashTableModify type i key default procedure) s fun value s' => ∃ t',
      Outcome type i s t s' t' ∧ ∀ entry, Tracks type s i t key entry → ∃ entry',
        Tracks type s' i t' key entry'
          ∧ (value, entry'.map Prod.snd) = modified type key default procedure (entry.map Prod.snd) := by
  refine Does.bind (find_spec h key).loosen fun r s1 hfirst hr => ?_
  obtain ⟨hlater1, t1, hfinds1, -⟩ := hr
  have hsound1 := hfinds1.reorganized.sound
  obtain ⟨hash1, found1⟩ := r
  cases found1 with
  | some r =>
      obtain ⟨p, datum⟩ := r
      obtain ⟨-, e, he, -⟩ := hfinds1.present p datum rfl
      refine (modifyEntry_spec hsound1 (List.getElem?_eq_some_iff.mp he).1 procedure datum).mono
        fun value s2 _ hr => ?_
      obtain ⟨rfl, t2, houtcome2, hmodify⟩ := hr
      refine ⟨t2, (hfinds1.reorganized.outcome h hlater1).trans hlater1 houtcome2, fun entry htracks => ?_⟩
      have htracks1 := htracks.resized h hfinds1.reorganized hlater1
      have hentry := hfinds1.found_eq htracks htracks1 (type.keyEq_refl key)
      subst hentry
      obtain ⟨entry', htracks', hdatum⟩ := hmodify key htracks1
      exact ⟨entry', htracks', by rw [hdatum]; rfl⟩
  | none =>
      refine Does.bind (applyProcedure_spec hsound1 procedure default) fun value s2 hlater2 hr => ?_
      obtain ⟨rfl, t2, houtcome2, hchanges⟩ := hr
      refine Does.bind (find_spec houtcome2.sound key).loosen fun r s3 hsecond hr => ?_
      obtain ⟨hlater3, t3, hfinds3, -⟩ := hr
      have hsound3 := hfinds3.reorganized.sound
      have houtcome := (hfinds1.reorganized.outcome h hlater1).trans hlater1 houtcome2
      have hall := hfirst.trans hlater2
      -- what is found the second time is what the procedure has put there
      have hentry3 : ∀ entry, Tracks type s i t key entry → entry = none ∧ ∃ entry3,
          Tracks type s3 i t3 key entry3 ∧ r.2 = entry3
            ∧ entry3.map Prod.snd = effect type key (procedure default).1 none := by
        intro entry htracks
        have htracks1 := htracks.resized h hfinds1.reorganized hlater1
        have hentry := hfinds1.found_eq htracks htracks1 (type.keyEq_refl key)
        subst hentry
        obtain ⟨entry3, hchanged, htracks2⟩ := hchanges key none htracks1
        have htracks3 := htracks2.resized houtcome2.sound hfinds3.reorganized hlater3
        exact ⟨rfl, entry3, htracks3, hfinds3.found_eq htracks2 htracks3 (type.keyEq_refl key),
          hchanged.datum⟩
      obtain ⟨hash3, found3⟩ := r
      cases found3 with
      | some r =>
          obtain ⟨p, datum⟩ := r
          obtain ⟨-, e, he, -⟩ := hfinds3.present p datum rfl
          refine (modifyEntry_spec hsound3 (List.getElem?_eq_some_iff.mp he).1 procedure datum).mono
            fun value s4 _ hr => ?_
          obtain ⟨rfl, t4, houtcome4, hmodify⟩ := hr
          have houtcome3 := houtcome.trans hall
            (hfinds3.reorganized.outcome houtcome2.sound hlater3)
          refine ⟨t4, houtcome3.trans (hall.trans hsecond) houtcome4, fun entry htracks => ?_⟩
          obtain ⟨rfl, _, htracks3, rfl, hdatum3⟩ := hentry3 entry htracks
          obtain ⟨entry', htracks', hdatum⟩ := hmodify key htracks3
          refine ⟨entry', htracks', ?_⟩
          rw [Option.map_none, modified, ← hdatum3, hdatum]
          rfl
      | none =>
          refine Does.bind (addEntry_spec hsound3 hfinds3.hashed.lt hfinds3.hashed.computed
            (procedure default).2).loosen fun _ s4 _ hr => ?_
          obtain ⟨-, t4, hsound4, hfresh, htidy, hadd, -⟩ := hr
          have houtcome4 := houtcome2.sound.added hfinds3 hlater3 hsound4 hfresh htidy
          refine .pure ⟨t4, houtcome.trans hall houtcome4, fun entry htracks => ?_⟩
          obtain ⟨rfl, entry3, htracks3, hentry, hdatum3⟩ := hentry3 entry htracks
          subst hentry
          obtain ⟨p, hp⟩ := (hadd key none htracks3).2 (type.keyEq_refl key) rfl
          refine ⟨_, hp, ?_⟩
          rw [Option.map_none, modified, ← hdatum3]
          rfl

theorem hashTableRef_spec (h : Sound type s i t) (key : κ) :
    Does i False nothing (hashTableRef type i key) s fun datum s' => ∃ t',
      Reorganized type i s t s' t' ∧ ∀ entry, Tracks type s i t key entry →
        datum = entry.map Prod.snd := by
  refine Does.bind (find_spec h key) fun r s1 hlater1 hr => ?_
  obtain ⟨t1, hfinds, -⟩ := hr
  refine .pure ⟨t1, hfinds.reorganized, fun entry htracks => ?_⟩
  rw [hfinds.found_eq htracks (htracks.resized h hfinds.reorganized hlater1) (type.keyEq_refl key)]

theorem hashTableUpdate_spec (h : Sound type s i t) (key : κ) (default : δ) (procedure : Procedure κ δ) :
    Does i False (fun _ => True) (hashTableUpdate type i key default procedure) s fun value s' => ∃ t',
      Outcome type i s t s' t' ∧ ∀ entry, Tracks type s i t key entry → ∃ entry',
        Tracks type s' i t' key entry' ∧ entry'.map Prod.snd = some value := by
  refine Does.bind (hashTableRef_spec h key).loosen fun datum s1 hfirst hr => ?_
  obtain ⟨hlater1, t1, hr1, -⟩ := hr
  refine Does.bind (applyProcedure_spec hr1.sound procedure (datum.getD default))
    fun value s2 hlater2 hr => ?_
  obtain ⟨-, t2, houtcome2, hchanges⟩ := hr
  refine Does.bind (hashTableSet_spec houtcome2.sound key value) fun _ s3 hlater3 hr => ?_
  obtain ⟨t3, houtcome3, hset, -⟩ := hr
  have houtcome := (hr1.outcome h hlater1).trans hlater1 houtcome2
  refine .pure ⟨t3, houtcome.trans (hfirst.trans hlater2) houtcome3, fun entry htracks => ?_⟩
  obtain ⟨entry2, -, htracks2⟩ := hchanges key entry (htracks.resized h hr1 hlater1)
  obtain ⟨entry3, hfollows, htracks3⟩ := hset key entry2 htracks2
  refine ⟨entry3, htracks3, ?_⟩
  rw [hfollows.datum, Change.effect, if_pos (type.keyEq_refl key)]

end MitScheme.WeakHashTable
