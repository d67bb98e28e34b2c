import MitScheme.Microcode.LookupBindings

/-!
# The places of compiled code

A reference list says, for a cache and a kind, at which places of compiled code the cache is
installed. Names matter only for finding the references that are to be moved. As long as no
place is given to `add_cache_reference` twice, every place is in one list, and there once;
whatever is done with the lists, what is installed at a place is what `install_cache`
installs for the cache and the kind.
-/

namespace MitScheme.Lookup

open List

variable {V : Type}

/-! ## The places of a list -/

/-- The places of the references whose blocks are there. -/
def livePlaces (references : List Reference) : List (Block × Nat) :=
  references.filterMap fun r => r.block.map fun block => (block, r.offset)

theorem visitedReferences_cons (entry : Symbol × List Reference) (list : ReferenceList) :
    visitedReferences (entry :: list) = livePlaces entry.2 ++ visitedReferences list := rfl

theorem visitedReferences_append (list list' : ReferenceList) :
    visitedReferences (list ++ list') = visitedReferences list ++ visitedReferences list' :=
  flatMap_append

@[simp] theorem livePlaces_nil : livePlaces [] = [] := rfl

theorem livePlaces_cons (r : Reference) (references : List Reference) :
    livePlaces (r :: references)
      = (r.block.map fun block => (block, r.offset)).toList ++ livePlaces references := by
  obtain ⟨block, offset⟩ := r
  cases block with
  | none => rfl
  | some block => rfl

theorem livePlaces_append (references references' : List Reference) :
    livePlaces (references ++ references') = livePlaces references ++ livePlaces references' :=
  filterMap_append

variable {list : ReferenceList} {references : List Reference} {c : Nat} {σ σ' : State V}

theorem visitedReferences_named {symbol : Symbol} (h : findReferencesNamed symbol list = some references) :
    (visitedReferences list).Perm
      (livePlaces references ++ visitedReferences (otherReferences symbol list)) := by
  induction list with
  | nil => cases h
  | cons entry list ih =>
      unfold otherReferences
      unfold findReferencesNamed at h ih
      obtain ⟨s, l⟩ := entry
      rw [lookup_cons] at h
      by_cases hs : s = symbol
      · subst hs
        simp only [BEq.rfl] at h
        cases h
        rw [if_pos rfl, visitedReferences_cons]
      · have hs' : (symbol == s) = false := by
          rw [beq_eq_false_iff_ne]
          exact Ne.symm hs
        simp only [hs'] at h
        rw [if_neg hs, visitedReferences_cons]
        exact ((ih h).append_left _).trans (perm_append_comm_assoc _ _ _)

theorem visitedReferences_replaceNamed {symbol : Symbol} (h : findReferencesNamed symbol list = some references)
    (references' : List Reference) :
    (visitedReferences (replaceNamed symbol references' list)).Perm
      (livePlaces references' ++ visitedReferences (otherReferences symbol list)) := by
  induction list with
  | nil => cases h
  | cons entry list ih =>
      unfold otherReferences replaceNamed
      unfold findReferencesNamed at h ih
      obtain ⟨s, l⟩ := entry
      rw [lookup_cons] at h
      by_cases hs : s = symbol
      · subst hs
        rw [if_pos rfl, if_pos rfl, visitedReferences_cons]
      · have hs' : (symbol == s) = false := by
          rw [beq_eq_false_iff_ne]
          exact Ne.symm hs
        simp only [hs'] at h
        rw [if_neg hs, if_neg hs, visitedReferences_cons]
        exact ((ih h).append_left _).trans (perm_append_comm_assoc _ _ _)

theorem visitedReferences_walked (list : ReferenceList) :
    visitedReferences (walkedReferences list) = visitedReferences list := by
  induction list with
  | nil => rfl
  | cons entry list ih =>
      have hlive : livePlaces (entry.2.filter fun r => r.block.isSome) = livePlaces entry.2 := by
        induction entry.2 with
        | nil => rfl
        | cons r references ih =>
            obtain ⟨block, offset⟩ := r
            cases block with
            | none => exact ih
            | some block =>
                rw [filter_cons_of_pos rfl, livePlaces_cons, livePlaces_cons, ih]
      have hwalk : walkedReferences (entry :: list)
          = (if (entry.2.filter fun r => r.block.isSome).isEmpty then walkedReferences list
            else (entry.1, entry.2.filter fun r => r.block.isSome) :: walkedReferences list) := by
        unfold walkedReferences
        rw [map_cons, filter_cons]
        cases (entry.2.filter fun r => r.block.isSome).isEmpty with
        | true => rfl
        | false => rfl
      rw [hwalk, visitedReferences_cons, ← hlive]
      split
      · rename_i hempty
        rw [ih, List.isEmpty_iff.mp hempty, livePlaces_nil, nil_append]
      · rw [visitedReferences_cons, ih]

theorem visitedReferences_addReference (symbol : Symbol) (block : Block) (offset : Nat)
    (list : ReferenceList) :
    (visitedReferences (addReference symbol block offset list)).Perm
      ((block, offset) :: visitedReferences list) := by
  have hadd : ∀ references,
      (livePlaces (addToReferences block offset references)).Perm
        ((block, offset) :: livePlaces references) := by
    intro references
    induction references with
    | nil => exact List.Perm.refl _
    | cons r references ih =>
        obtain ⟨b, o⟩ := r
        cases b with
        | none => exact List.Perm.refl _
        | some b =>
            exact (ih.cons _).trans (List.Perm.swap _ _ _)
  unfold addReference
  cases h : findReferencesNamed symbol list with
  | none => exact List.Perm.refl _
  | some references =>
      refine (visitedReferences_replaceNamed h _).trans ?_
      refine ((hadd references).append_right _).trans ?_
      exact ((visitedReferences_named h).symm.cons _)

theorem livePlaces_split (frame : Environment) (references : List Reference) :
    (livePlaces references).Perm
      ((splitRefPairs frame references).2 ++ livePlaces (splitRefPairs frame references).1) := by
  induction references with
  | nil => exact List.Perm.refl _
  | cons r references ih =>
      unfold splitRefPairs
      obtain ⟨block, offset⟩ := r
      cases block with
      | none => exact ih
      | some block =>
          dsimp only
          split
          · exact ih.cons _
          · exact (ih.cons _).trans perm_middle.symm

theorem livePlaces_within {frame : Environment} {front result : List Reference}
    (h : moveRefPairsWithin frame front references = some result) :
    (livePlaces result).Perm (livePlaces front ++ livePlaces references) := by
  induction references generalizing front with
  | nil =>
      cases h
      rw [livePlaces_nil, append_nil]
  | cons r references ih =>
      unfold moveRefPairsWithin at h
      obtain ⟨block, offset⟩ := r
      cases block with
      | none => exact ih h
      | some block =>
          dsimp only at h
          split at h
          · split at h
            · cases h
            · refine (ih h).trans ?_
              exact perm_middle.symm
          · refine (ih h).trans ?_
            rw [livePlaces_append, append_assoc]
            exact List.Perm.refl _

theorem visitedReferences_receive (symbol : Symbol) (moved : List (Block × Nat))
    (list : ReferenceList) :
    (visitedReferences (receiveRefPairs symbol moved list)).Perm
      (moved ++ visitedReferences list) := by
  have hmoved : (livePlaces (moved.map fun place =>
      (⟨some place.1, place.2⟩ : Reference)).reverse).Perm moved := by
    unfold livePlaces
    rw [filterMap_reverse, filterMap_map]
    refine (reverse_perm _).trans ?_
    rw [show ((fun r : Reference => r.block.map fun block => (block, r.offset))
      ∘ fun place : Block × Nat => (⟨some place.1, place.2⟩ : Reference)) = some from rfl,
      filterMap_some]
  unfold receiveRefPairs
  cases h : findReferencesNamed symbol list with
  | none =>
      dsimp only
      split
      · rename_i hnil
        rw [hnil]
        exact List.Perm.refl _
      · exact hmoved.append_right _
  | some references =>
      refine (visitedReferences_replaceNamed h _).trans ?_
      rw [livePlaces_append, append_assoc]
      exact (hmoved.append_right _).trans ((visitedReferences_named h).symm.append_left _)

theorem visitedReferences_collect (dead : Block → Bool) (list : ReferenceList) :
    (visitedReferences (collectReferences dead list)).Sublist (visitedReferences list) := by
  have hlive : ∀ references : List Reference,
      (livePlaces (references.map fun r =>
        { r with block := r.block.filter fun block => !dead block })).Sublist
        (livePlaces references) := by
    intro references
    induction references with
    | nil => exact List.Sublist.refl _
    | cons r references ih =>
        obtain ⟨block, offset⟩ := r
        rw [map_cons, livePlaces_cons, livePlaces_cons]
        refine List.Sublist.append ?_ ih
        cases block with
        | none => exact List.Sublist.refl _
        | some block =>
            cases hd : dead block with
            | true | false => simp [Option.filter_some, hd]
  induction list with
  | nil => exact List.Sublist.refl _
  | cons entry list ih =>
      exact (hlive entry.2).append ih

/-- The places where compiled code refers to a cache by references of a kind. -/
def places (σ : State V) (cache : Nat) (kind : Kind) : List (Block × Nat) :=
  visitedReferences (σ.references cache kind)

theorem mem_places {k : Kind} {b : Block} {o : Nat} :
    (b, o) ∈ places σ c k ↔ ∃ s, Recorded σ c k s b o := mem_visitedReferences

/-- Every place belongs to one cache and one kind, and `install_cache` was right about those
for which `P` holds. -/
structure Placed (P : Kind → Block × Nat → Prop) (σ : State V) : Prop where
  nodup : ∀ c k, (places σ c k).Nodup
  unique : ∀ {c k c' k' p}, p ∈ places σ c k → p ∈ places σ c' k' → c' = c ∧ k' = k
  installed : ∀ {c k p}, P k p → p ∈ places σ c k → σ.slots p.1 p.2 = slotFor σ c k
  place_lt : ∀ {c k p}, p ∈ places σ c k → c < σ.free
  clone : ∀ {c d}, (σ.caches c).clone = some d → σ.clones d = c ∧ d < σ.free
  trap_lt : ∀ {cell t}, σ.cells cell = .compilerCached t → t < σ.free ∧ σ.traps t < σ.free

/-- A cache that needs a clone has one. -/
def Cloned (σ : State V) (c : Nat) : Prop :=
  places σ c .assignment ≠ [] → places σ c .operator ≠ [] → (σ.caches c).clone ≠ none

theorem slotFor_congr (hclone : (σ'.caches c).clone = (σ.caches c).clone)
    (hvalue : (σ'.caches c).value = (σ.caches c).value) (k : Kind) :
    slotFor σ' c k = slotFor σ c k := by
  unfold slotFor
  rw [hclone, hvalue]

variable {P : Kind → Block × Nat → Prop}

theorem Placed.cells {σ σ' : State V} (h : Placed P σ) (hcaches : σ'.caches = σ.caches)
    (hslots : σ'.slots = σ.slots) (hclones : σ'.clones = σ.clones) (hfree : σ'.free = σ.free)
    (htrap : ∀ {cell t}, σ'.cells cell = .compilerCached t →
      t < σ.free ∧ σ'.traps t < σ.free) : Placed P σ' := by
  have hplaces : ∀ c k, places σ' c k = places σ c k := by
    intro c k
    unfold places State.references
    rw [hcaches]
  refine ⟨fun c k => ?_, fun hp hp' => ?_, fun hP hp => ?_, fun hp => ?_, fun hd => ?_, fun ht => ?_⟩
  · rw [hplaces]
    exact h.nodup c k
  · rw [hplaces] at hp hp'
    exact h.unique hp hp'
  · rw [hplaces] at hp
    rw [hslots, h.installed hP hp]
    exact (slotFor_congr (by rw [hcaches]) (by rw [hcaches]) _).symm
  · rw [hplaces] at hp
    rw [hfree]
    exact h.place_lt hp
  · rw [hcaches] at hd
    rw [hclones, hfree]
    exact h.clone hd
  · rw [hfree]
    exact htrap ht

theorem Placed.mono {P' : Kind → Block × Nat → Prop} (h : Placed P σ)
    (hP : ∀ {c k p}, p ∈ places σ c k → P' k p → P k p) : Placed P' σ :=
  ⟨h.nodup, h.unique, fun hp hm => h.installed (hP hm hp) hm, h.place_lt, h.clone, h.trap_lt⟩

theorem Placed.install (h : Placed P σ) {cache : Nat} {kind : Kind} {installed : List (Block × Nat)}
    (hlist : (visitedReferences list).Perm (places σ cache kind))
    (hinstalled : ∀ p ∈ installed, p ∈ places σ cache kind) :
    Placed (fun k p => P k p ∨ p ∈ installed)
        (installCache (σ.setReferences cache kind list) cache kind installed)
      ∧ ∀ c k, (places (installCache (σ.setReferences cache kind list) cache kind installed)
          c k).Perm (places σ c k) := by
  rw [installCache_eq]
  have hslot : slotFor (σ.setReferences cache kind list) cache kind = slotFor σ cache kind :=
    slotFor_congr (clone_setReferences ..) (value_setReferences ..) kind
  rw [hslot]
  have hplaces : ∀ c k, (visitedReferences
      ((σ.setReferences cache kind list).references c k)).Perm (places σ c k) := by
    intro c k
    rw [references_setReferences]
    split
    · rename_i heq
      rw [heq.1, heq.2]
      exact hlist
    · exact List.Perm.refl _
  refine ⟨⟨?_, ?_, ?_, ?_, ?_, ?_⟩, hplaces⟩
  · exact fun c k => (hplaces c k).nodup_iff.mpr (h.nodup c k)
  · intro c k c' k' p hp hp'
    exact h.unique ((hplaces c k).mem_iff.mp hp) ((hplaces c' k').mem_iff.mp hp')
  · intro c k p hP hp
    have hp' := (hplaces c k).mem_iff.mp hp
    have hslot' : ∀ τ : State V, τ.caches = (σ.setReferences cache kind list).caches →
        slotFor τ c k = slotFor σ c k := by
      intro τ hτ
      refine slotFor_congr ?_ ?_ k
      · rw [hτ]
        exact clone_setReferences ..
      · rw [hτ]
        exact value_setReferences ..
    refine Eq.trans ?_ (hslot' _ rfl).symm
    by_cases hm : p ∈ installed
    · obtain ⟨rfl, rfl⟩ := h.unique hp' (hinstalled p hm)
      exact if_pos hm
    · rw [← h.installed (hP.resolve_right hm) hp']
      exact if_neg hm
  · exact fun hp => h.place_lt ((hplaces _ _).mem_iff.mp hp)
  · intro c d hd
    rw [clone_setReferences] at hd
    exact h.clone hd
  · exact fun ht => h.trap_lt ht

theorem Placed.reinstall (h : Placed P σ) (cache : Nat) (kind : Kind) :
    Placed (fun k p => P k p ∨ p ∈ places σ cache kind) (reinstallCache σ cache kind)
      ∧ ∀ c k, (places (reinstallCache σ cache kind) c k).Perm (places σ c k) := by
  refine h.install ?_ ?_
  · rw [visitedReferences_walked]
    exact List.Perm.refl _
  · exact fun p hp => hp

/-! ## Clones -/

theorem reinstallCache_caches (σ : State V) (cache : Nat) (kind : Kind) (c : Nat) :
    ((reinstallCache σ cache kind).caches c).clone = (σ.caches c).clone
      ∧ ((reinstallCache σ cache kind).caches c).value = (σ.caches c).value := by
  unfold reinstallCache
  rw [installCache_eq]
  exact ⟨clone_setReferences .., value_setReferences ..⟩

theorem reinstallCache_same (σ : State V) (cache : Nat) (kind : Kind) :
    SameBindings σ (reinstallCache σ cache kind) := by
  refine ⟨?_, ?_, ?_, fun c => (reinstallCache_caches σ cache kind c).2⟩
  all_goals
    unfold reinstallCache
    rw [installCache_eq]
    rfl

theorem reinstallCache_free (σ : State V) (cache : Nat) (kind : Kind) :
    (reinstallCache σ cache kind).free = σ.free := by
  unfold reinstallCache
  rw [installCache_eq]
  rfl

theorem places_setCacheClone (σ : State V) (cache : Nat) (clone : Option Nat) (c : Nat)
    (k : Kind) : places (σ.setCacheClone cache clone) c k = places σ c k := by
  unfold places
  rw [references_setCacheClone]

/-- What `update_clone` does. -/
structure Renewed (σ : State V) (cache : Nat) (σ' : State V) : Prop where
  same : SameBindings σ σ'
  free_le : σ.free ≤ σ'.free
  places : ∀ c k, (places σ' c k).Perm (places σ c k)
  clone : ∀ {c}, c ≠ cache → (σ'.caches c).clone = (σ.caches c).clone
  cloned : Cloned σ' cache

theorem Cloned.congr (h : Cloned σ c) (hplaces : ∀ k, (places σ' c k).Perm (places σ c k))
    (hclone : (σ'.caches c).clone = (σ.caches c).clone) : Cloned σ' c := by
  intro ha ho
  rw [hclone]
  refine h (fun hnil => ha ?_) (fun hnil => ho ?_)
  · exact List.Perm.eq_nil (hnil ▸ hplaces .assignment)
  · exact List.Perm.eq_nil (hnil ▸ hplaces .operator)

theorem Placed.changeClone {τ : State V} (h : Placed P σ) {cache : Nat}
    (hplaces : ∀ c k, Lookup.places τ c k = Lookup.places σ c k)
    (hslots : τ.slots = σ.slots) (hfree : σ.free ≤ τ.free)
    (hvalue : ∀ c, (τ.caches c).value = (σ.caches c).value)
    (hother : ∀ {c}, c ≠ cache → (τ.caches c).clone = (σ.caches c).clone)
    (hclone : ∀ {c d}, (τ.caches c).clone = some d → τ.clones d = c ∧ d < τ.free)
    (htrap : ∀ {cell t}, τ.cells cell = .compilerCached t → t < τ.free ∧ τ.traps t < τ.free) :
    Placed P (reinstallCache τ cache .assignment)
      ∧ ∀ c k, (Lookup.places (reinstallCache τ cache .assignment) c k).Perm
          (Lookup.places σ c k) := by
  have hτ : Placed (fun k p => P k p ∧ ¬ p ∈ Lookup.places τ cache .assignment) τ := by
    refine ⟨fun c k => ?_, fun hp hp' => ?_, fun {c k p} hP hp => ?_, fun hp => ?_, hclone, htrap⟩
    · rw [hplaces]
      exact h.nodup c k
    · rw [hplaces] at hp hp'
      exact h.unique hp hp'
    · have hp' := hp
      rw [hplaces] at hp'
      rw [hslots, h.installed hP.1 hp']
      by_cases hc : c = cache
      · subst hc
        cases k with
        | lookup => rfl
        | assignment => exact absurd hp hP.2
        | operator =>
            unfold slotFor
            rw [hvalue]
      · exact (slotFor_congr (hother hc) (hvalue c) k).symm
    · rw [hplaces] at hp
      exact Nat.lt_of_lt_of_le (h.place_lt hp) hfree
  obtain ⟨h1, h2⟩ := hτ.reinstall cache .assignment
  refine ⟨h1.mono fun {c k p} hp hP => ?_, fun c k => (h2 c k).trans (by rw [hplaces])⟩
  by_cases hm : p ∈ Lookup.places τ cache .assignment
  · exact Or.inr hm
  · exact Or.inl ⟨hP, hm⟩

theorem Placed.updateClone {σ : State V} (h : Placed P σ) (cache : Nat) :
    Placed P (updateClone σ cache) ∧ Renewed σ cache (updateClone σ cache) := by
  have hnil : ∀ k, σ.references cache k = [] → Lookup.places σ cache k = [] := by
    intro k hk
    unfold Lookup.places
    rw [hk]
    rfl
  unfold Lookup.updateClone
  split
  · split
    · rename_i d hd
      refine ⟨h, SameBindings.refl σ, Nat.le_refl _, fun _ _ => List.Perm.refl _, fun _ => rfl, ?_⟩
      intro _ _
      rw [hd]
      exact Option.some_ne_none d
    · have hw : ∀ c, ((withClone σ cache).caches c).clone
          = if c = cache then some σ.free else (σ.caches c).clone := fun c =>
        clone_setCacheClone _ cache _ c
      have hchange := Placed.changeClone (τ := withClone σ cache) h
        (fun c k => places_setCacheClone _ cache _ c k) rfl (Nat.le_succ _)
        (fun c => value_setCacheClone _ cache _ c)
        (fun {c} hc => by rw [hw, if_neg hc])
        (fun {c d} hd => by
          rw [hw] at hd
          split at hd
          · rename_i hc
            cases hd
            exact ⟨(Function.update_self _ _ _).trans hc.symm, Nat.lt_succ_self _⟩
          · obtain ⟨h1, h2⟩ := h.clone hd
            exact ⟨(Function.update_of_ne (Nat.ne_of_lt h2) _ _).trans h1, Nat.lt_succ_of_lt h2⟩)
        (fun ht => ⟨Nat.lt_succ_of_lt (h.trap_lt ht).1, Nat.lt_succ_of_lt (h.trap_lt ht).2⟩)
      refine ⟨hchange.1, ?_, ?_, hchange.2, fun {c} hc => ?_, fun _ _ => ?_⟩
      · have hsame : SameBindings σ (withClone σ cache) :=
          ⟨rfl, rfl, rfl, fun c => value_setCacheClone _ cache _ c⟩
        exact hsame.trans (reinstallCache_same _ cache .assignment)
      · rw [reinstallCache_free]
        exact Nat.le_succ _
      · refine (reinstallCache_caches (withClone σ cache) cache .assignment c).1.trans ?_
        rw [hw, if_neg hc]
      · refine ne_of_eq_of_ne
          (reinstallCache_caches (withClone σ cache) cache .assignment cache).1 ?_
        rw [hw, if_pos rfl]
        exact Option.some_ne_none _
  · rename_i hboth
    have hneither : Lookup.places σ cache .assignment = [] ∨ Lookup.places σ cache .operator = [] := by
      by_contra hno
      push Not at hno
      exact hboth ⟨fun h1 => hno.1 (hnil _ h1), fun h1 => hno.2 (hnil _ h1)⟩
    have hcloned : ∀ {τ : State V}, (∀ c k, (Lookup.places τ c k).Perm (Lookup.places σ c k)) →
        Cloned τ cache := by
      intro τ hτ ha ho
      rcases hneither with hn | hn
      · exact absurd (List.Perm.eq_nil (hn ▸ hτ cache .assignment)) ha
      · exact absurd (List.Perm.eq_nil (hn ▸ hτ cache .operator)) ho
    split
    · have hchange := Placed.changeClone (τ := σ.setCacheClone cache none) h
        (fun c k => places_setCacheClone _ cache _ c k) rfl (Nat.le_refl _)
        (fun c => value_setCacheClone _ cache _ c)
        (fun {c} hc => by rw [clone_setCacheClone, if_neg hc])
        (fun {c d} hd => by
          rw [clone_setCacheClone] at hd
          split at hd
          · cases hd
          · exact h.clone hd)
        (fun ht => h.trap_lt ht)
      refine ⟨hchange.1, ?_, ?_, hchange.2, fun {c} hc => ?_, hcloned hchange.2⟩
      · have hsame : SameBindings σ (σ.setCacheClone cache none) :=
          ⟨rfl, rfl, rfl, fun c => value_setCacheClone _ cache _ c⟩
        exact hsame.trans (reinstallCache_same _ cache .assignment)
      · rw [reinstallCache_free]
        exact Nat.le_refl _
      · refine (reinstallCache_caches (σ.setCacheClone cache none) cache .assignment c).1.trans ?_
        rw [clone_setCacheClone, if_neg hc]
    · exact ⟨h, SameBindings.refl σ, Nat.le_refl _, fun _ _ => List.Perm.refl _, fun _ => rfl,
        hcloned fun _ _ => List.Perm.refl _⟩

/-! ## Moving references -/

/-- The state after some references were taken from one cache and perhaps given to another. -/
structure Rearranged (σ : State V) (caches : Nat → Prop) (σ' : State V) : Prop where
  same : SameBindings σ σ'
  free : σ'.free = σ.free
  clones : σ'.clones = σ.clones
  clone : ∀ c, (σ'.caches c).clone = (σ.caches c).clone
  places : ∀ {c}, ¬ caches c → ∀ k, (places σ' c k).Perm (places σ c k)

theorem Rearranged.refl (σ : State V) (caches : Nat → Prop) : Rearranged σ caches σ :=
  ⟨SameBindings.refl σ, rfl, rfl, fun _ => rfl, fun _ _ => List.Perm.refl _⟩

theorem Rearranged.trans {σ σ' σ'' : State V} {caches : Nat → Prop}
    (h : Rearranged σ caches σ') (h' : Rearranged σ' caches σ'') : Rearranged σ caches σ'' :=
  ⟨h.same.trans h'.same, h'.free.trans h.free, h'.clones.trans h.clones,
    fun c => (h'.clone c).trans (h.clone c),
    fun hc k => (h'.places hc k).trans (h.places hc k)⟩

theorem Rearranged.cloned {caches : Nat → Prop} (h : Rearranged σ caches σ') (hc : ¬ caches c) (hcloned : Cloned σ c) : Cloned σ' c :=
  hcloned.congr (h.places hc) (h.clone c)

theorem Placed.moved {σ τ : State V} (h : Placed P σ) {caches : Nat → Prop} {toCache : Nat}
    {kind : Kind} {moved : List (Block × Nat)} (hr : Rearranged σ caches τ)
    (hslots : τ.slots = σ.slots) (hto : moved ≠ [] → toCache < σ.free)
    (hnodup : ∀ c k, (places τ c k).Nodup)
    (horigin : ∀ {c k p}, p ∈ places τ c k →
      (p ∈ moved ∧ c = toCache ∧ k = kind) ∨ (p ∉ moved ∧ p ∈ places σ c k)) :
    Placed P (installCache τ toCache kind moved)
      ∧ Rearranged σ caches (installCache τ toCache kind moved) := by
  have hslot : ∀ c k, slotFor τ c k = slotFor σ c k :=
    fun c k => slotFor_congr (hr.clone c) (hr.same.value c) k
  rw [installCache_eq]
  refine ⟨⟨hnodup, fun {c k c' k' p} hp hp' => ?_, fun {c k p} hP hp => ?_, fun {c k p} hp => ?_,
    fun {c d} hd => ?_, fun {cell t} ht => ?_⟩,
    ⟨hr.same.cells, hr.same.extensions, hr.same.traps, hr.same.value⟩, hr.free, hr.clones, hr.clone,
    hr.places⟩
  · rcases horigin hp with ⟨hm, rfl, rfl⟩ | ⟨hm, hold⟩
    · rcases horigin hp' with ⟨-, hc, hk⟩ | ⟨hm', -⟩
      · exact ⟨hc, hk⟩
      · exact absurd hm hm'
    · rcases horigin hp' with ⟨hm', -, -⟩ | ⟨-, hold'⟩
      · exact absurd hm' hm
      · exact h.unique hold hold'
  · change (if p ∈ moved then slotFor τ toCache kind else τ.slots p.1 p.2) = slotFor τ c k
    rw [hslot, hslot, hslots]
    rcases horigin hp with ⟨hm, rfl, rfl⟩ | ⟨hm, hold⟩
    · exact if_pos hm
    · rw [if_neg hm]
      exact h.installed hP hold
  · rw [hr.free]
    rcases horigin hp with ⟨hm, rfl, -⟩ | ⟨-, hold⟩
    · exact hto (ne_nil_of_mem hm)
    · exact h.place_lt hold
  · have hd' : (τ.caches c).clone = some d := hd
    rw [hr.clone] at hd'
    rw [hr.clones, hr.free]
    exact h.clone hd'
  · have ht' : τ.cells cell = .compilerCached t := ht
    rw [hr.same.cells] at ht'
    rw [hr.free, hr.same.traps]
    exact h.trap_lt ht'

theorem places_setReferences (σ : State V) (cache : Nat) (kind : Kind) (list : ReferenceList)
    (c : Nat) (k : Kind) :
    places (σ.setReferences cache kind list) c k
      = if c = cache ∧ k = kind then visitedReferences list else places σ c k := by
  unfold places
  rw [references_setReferences]
  split
  · rfl
  · rfl

theorem Placed.moveRefPairs {σ σ' : State V} (h : Placed P σ) {fromCache toCache : Nat}
    {kind : Kind} {frame : Environment} {symbol : Symbol} (hto : toCache < σ.free)
    (hmove : moveRefPairs σ fromCache toCache kind frame symbol = some σ') :
    Placed P σ' ∧ Rearranged σ (fun c => c = fromCache ∨ c = toCache) σ' := by
  unfold Lookup.moveRefPairs at hmove
  cases hf : findReferencesNamed symbol (σ.references fromCache kind) with
  | none =>
      rw [hf] at hmove
      cases hmove
      exact ⟨h, Rearranged.refl σ _⟩
  | some references =>
      rw [hf] at hmove
      dsimp only at hmove
      have hsplit := livePlaces_split frame references
      have hfrom : (places σ fromCache kind).Perm ((splitRefPairs frame references).2
          ++ (livePlaces (splitRefPairs frame references).1
            ++ visitedReferences (otherReferences symbol (σ.references fromCache kind)))) := by
        rw [← append_assoc]
        exact (visitedReferences_named hf).trans (hsplit.append_right _)
      by_cases heq : fromCache = toCache
      · subst heq
        rw [if_pos rfl] at hmove
        obtain ⟨result, hw, rfl⟩ := Option.map_eq_some_iff.mp hmove
        have hlist : (visitedReferences (replaceNamed symbol result
            (σ.references fromCache kind))).Perm (places σ fromCache kind) := by
          refine (visitedReferences_replaceNamed hf result).trans ?_
          refine List.Perm.trans ?_ (visitedReferences_named hf).symm
          exact (livePlaces_within hw).append_right _
        obtain ⟨h1, h2⟩ := h.install hlist fun p hp =>
          hfrom.mem_iff.mpr (mem_append_left _ hp)
        refine ⟨h1.mono fun _ hP => Or.inl hP, ?_⟩
        rw [installCache_eq] at h2 ⊢
        exact ⟨⟨rfl, rfl, rfl, fun c => value_setReferences ..⟩, rfl, rfl,
          fun c => clone_setReferences .., fun _ k => h2 _ k⟩
      · rw [if_neg heq] at hmove
        cases hmove
        have hinner : (σ.setReferences fromCache kind (replaceNamed symbol
            (splitRefPairs frame references).1 (σ.references fromCache kind))).references
              toCache kind = σ.references toCache kind := by
          rw [references_setReferences, if_neg fun hc => heq hc.1.symm]
        rw [hinner]
        have hreceive := visitedReferences_receive symbol (splitRefPairs frame references).2
          (σ.references toCache kind)
        have hstay := visitedReferences_replaceNamed hf (splitRefPairs frame references).1
        have hnodup := hfrom.nodup_iff.mp (h.nodup fromCache kind)
        have hmoved : ∀ p ∈ (splitRefPairs frame references).2, p ∈ places σ fromCache kind :=
          fun p hp => hfrom.mem_iff.mpr (mem_append_left _ hp)
        refine h.moved ?_ rfl (fun _ => hto) (fun c k => ?_) (fun {c k p} hp => ?_)
        · refine ⟨⟨rfl, rfl, rfl, fun c => ?_⟩, rfl, rfl, fun c => ?_, fun {c} hc k => ?_⟩
          · exact (value_setReferences ..).trans (value_setReferences ..)
          · exact (clone_setReferences ..).trans (clone_setReferences ..)
          · push Not at hc
            rw [places_setReferences, places_setReferences, if_neg fun hc' => hc.2 hc'.1,
              if_neg fun hc' => hc.1 hc'.1]
        · rw [places_setReferences, places_setReferences]
          split
          · refine hreceive.nodup_iff.mpr (nodup_append.mpr
              ⟨(nodup_append.mp hnodup).1, h.nodup toCache kind, ?_⟩)
            rintro p hp q hq rfl
            exact heq (h.unique hq (hmoved p hp)).1
          · split
            · exact hstay.nodup_iff.mpr (nodup_append.mp hnodup).2.1
            · exact h.nodup c k
        · rw [places_setReferences, places_setReferences] at hp
          split at hp
          · rename_i hc
            obtain ⟨rfl, rfl⟩ := hc
            rcases mem_append.mp (hreceive.mem_iff.mp hp) with hm | hold
            · exact Or.inl ⟨hm, rfl, rfl⟩
            · refine Or.inr ⟨fun hm => ?_, hold⟩
              exact heq (h.unique hold (hmoved p hm)).1
          · split at hp
            · rename_i hc
              obtain ⟨rfl, rfl⟩ := hc
              have hstay' := hstay.mem_iff.mp hp
              refine Or.inr ⟨fun hm => ?_, hfrom.mem_iff.mpr (mem_append_right _ hstay')⟩
              exact (nodup_append.mp hnodup).2.2 p hm p hstay' rfl
            · rename_i hc hc'
              refine Or.inr ⟨fun hm => ?_, hp⟩
              exact hc' (h.unique (hmoved p hm) hp)

theorem Placed.deleteRefPairs {σ : State V} (h : Placed P σ) (fromCache : Nat) (kind : Kind)
    (frame : Environment) (symbol : Symbol) :
    Placed P (deleteRefPairs σ fromCache kind frame symbol)
      ∧ Rearranged σ (fun c => c = fromCache) (deleteRefPairs σ fromCache kind frame symbol) := by
  unfold Lookup.deleteRefPairs
  cases hf : findReferencesNamed symbol (σ.references fromCache kind) with
  | none => exact ⟨h, Rearranged.refl σ _⟩
  | some references =>
      have hstay := visitedReferences_replaceNamed hf (splitRefPairs frame references).1
      have hfrom : (places σ fromCache kind).Perm ((splitRefPairs frame references).2
          ++ (livePlaces (splitRefPairs frame references).1
            ++ visitedReferences (otherReferences symbol (σ.references fromCache kind)))) := by
        rw [← append_assoc]
        exact (visitedReferences_named hf).trans ((livePlaces_split frame references).append_right _)
      -- nothing is installed
      change Placed P (installCache (σ.setReferences fromCache kind (replaceNamed symbol
          (splitRefPairs frame references).1 (σ.references fromCache kind))) fromCache kind [])
        ∧ Rearranged σ (fun c => c = fromCache) (installCache (σ.setReferences fromCache kind
          (replaceNamed symbol (splitRefPairs frame references).1 (σ.references fromCache kind)))
          fromCache kind [])
      refine h.moved ⟨⟨rfl, rfl, rfl, fun c => value_setReferences ..⟩, rfl, rfl,
          fun c => clone_setReferences .., fun {c} hc k => ?_⟩ rfl (fun hne => absurd rfl hne)
        (fun c k => ?_) (fun {c k p} hp => ?_)
      · rw [places_setReferences, if_neg fun hc' => hc hc'.1]
      · rw [places_setReferences]
        split
        · exact hstay.nodup_iff.mpr
            (nodup_append.mp (hfrom.nodup_iff.mp (h.nodup fromCache kind))).2.1
        · exact h.nodup c k
      · rw [places_setReferences] at hp
        split at hp
        · rename_i hc
          obtain ⟨rfl, rfl⟩ := hc
          exact Or.inr ⟨not_mem_nil,
            hfrom.mem_iff.mpr (mem_append_right _ (hstay.mem_iff.mp hp))⟩
        · exact Or.inr ⟨not_mem_nil, hp⟩

theorem Placed.moveAllReferences {σ : State V} (h : Placed P σ) {fromCache toCache : Nat}
    (hne : fromCache ≠ toCache) (hto : toCache < σ.free) (kind : Kind) :
    Placed P (moveAllReferences σ fromCache toCache kind)
      ∧ Rearranged σ (fun c => c = fromCache ∨ c = toCache)
          (moveAllReferences σ fromCache toCache kind) := by
  have hcomm : Lookup.moveAllReferences σ fromCache toCache kind
      = installCache ((σ.setReferences toCache kind (σ.references toCache kind
          ++ walkedReferences (σ.references fromCache kind))).setReferences fromCache kind [])
        toCache kind (places σ fromCache kind) := by
    unfold Lookup.moveAllReferences places
    dsimp only
    rw [installCache_eq, installCache_eq]
    have hslot : slotFor ((σ.setReferences toCache kind (σ.references toCache kind
        ++ walkedReferences (σ.references fromCache kind))).setReferences fromCache kind []) toCache kind
        = slotFor σ toCache kind :=
      slotFor_congr ((clone_setReferences ..).trans (clone_setReferences ..))
        ((value_setReferences ..).trans (value_setReferences ..)) kind
    rw [hslot]
    rfl
  rw [hcomm]
  have hplaces : ∀ c k, places ((σ.setReferences toCache kind (σ.references toCache kind
      ++ walkedReferences (σ.references fromCache kind))).setReferences fromCache kind []) c k
      = if c = fromCache ∧ k = kind then [] else if c = toCache ∧ k = kind then
          places σ toCache kind ++ places σ fromCache kind else places σ c k := by
    intro c k
    rw [places_setReferences, places_setReferences, visitedReferences_append,
      visitedReferences_walked]
    rfl
  refine h.moved ?_ rfl (fun _ => hto) (fun c k => ?_) (fun {c k p} hp => ?_)
  · refine ⟨⟨rfl, rfl, rfl, fun c => ?_⟩, rfl, rfl, fun c => ?_, fun {c} hc k => ?_⟩
    · exact (value_setReferences ..).trans (value_setReferences ..)
    · exact (clone_setReferences ..).trans (clone_setReferences ..)
    · push Not at hc
      rw [hplaces, if_neg fun hc' => hc.1 hc'.1, if_neg fun hc' => hc.2 hc'.1]
  · rw [hplaces]
    split
    · exact nodup_nil
    · split
      · refine nodup_append.mpr ⟨h.nodup toCache kind, h.nodup fromCache kind, ?_⟩
        rintro p hp q hq rfl
        exact hne (h.unique hp hq).1
      · exact h.nodup c k
  · rw [hplaces] at hp
    split at hp
    · cases hp
    · rename_i hc
      split at hp
      · rename_i hc'
        obtain ⟨rfl, rfl⟩ := hc'
        rcases mem_append.mp hp with hold | hm
        · refine Or.inr ⟨fun hm => ?_, hold⟩
          exact hne (h.unique hold hm).1
        · exact Or.inl ⟨hm, rfl, rfl⟩
      · refine Or.inr ⟨fun hm => ?_, hp⟩
        exact hc (h.unique hm hp)

end MitScheme.Lookup
