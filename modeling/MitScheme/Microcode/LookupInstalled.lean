import MitScheme.Microcode.LookupPlaces

/-!
# What is installed in compiled code

Every operation is followed through: it keeps what is installed at the places of compiled
code right for the cache and the kind, and a cache that needs a clone has one. There are
two ways to change the value of a cache without linking its operator references anew:
linking a variable that has a cache to another one, and unbinding a global variable.
-/

namespace MitScheme.Lookup

open List Option Function
open Function (update)

variable {V : Type} {P : Kind → Block × Nat → Prop}

/-- What is installed is right where `P` holds, and caches that need clones have them. -/
structure Sound (P : Kind → Block × Nat → Prop) (σ : State V) : Prop where
  placed : Placed P σ
  cloned : ∀ c, Cloned σ c

/-! ## Cells and caches -/

/-- An object that can be put in a cell. -/
def Allocated (σ : State V) (v : Object V) : Prop :=
  ∀ {t}, v = .compilerCached t → t < σ.free ∧ σ.traps t < σ.free

variable {σ : State V} {v : Object V}

theorem Allocated.mapToUnassigned (h : Allocated σ v) :
    Allocated σ (mapToUnassigned v) := by
  intro t ht
  cases v with
  | compilerCached t' => exact h ht
  | datum v | externalUnassigned | unassigned | unbound | macroBinding m => cases ht

variable {σ : State V} {cache : Nat}

theorem allocated_storable (h : Storable v) : Allocated σ v := by
  intro t ht
  rw [ht] at h
  exact absurd h id

variable {σ σ' : State V}

theorem Sound.cells (h : Sound P σ) (hcaches : σ'.caches = σ.caches)
    (hslots : σ'.slots = σ.slots) (hclones : σ'.clones = σ.clones) (hfree : σ'.free = σ.free)
    (htrap : ∀ {cell t}, σ'.cells cell = .compilerCached t →
      t < σ.free ∧ σ'.traps t < σ.free) : Sound P σ' := by
  refine ⟨h.placed.cells hcaches hslots hclones hfree htrap, fun c => ?_⟩
  refine (h.cloned c).congr (fun k => ?_) (by rw [hcaches])
  unfold places State.references
  rw [hcaches]

theorem Sound.update_trap_lt (h : Sound P σ) {cell : Cell}
    (hv : Allocated σ v) {cell' : Cell} {t : Nat}
    (ht : update σ.cells cell v cell' = .compilerCached t) :
    t < σ.free ∧ σ.traps t < σ.free := by
  by_cases hc : cell' = cell
  · rw [hc, update_self] at ht
    exact hv ht
  · rw [update_of_ne hc] at ht
    exact h.placed.trap_lt ht

theorem Sound.setCell (h : Sound P σ) (cell : Cell)
    (hv : Allocated σ v) : Sound P (σ.setCell cell v) :=
  h.cells rfl rfl rfl rfl (h.update_trap_lt hv)

variable {value : Object V}

theorem Sound.newCache {τ : State V} (h : Sound P σ)
    (hcaches : τ.caches = update σ.caches σ.free
      { value := value, clone := none, references := fun _ => [] })
    (hslots : τ.slots = σ.slots) (hclones : τ.clones = σ.clones) (hfree : σ.free < τ.free)
    (htrap : ∀ {cell t}, τ.cells cell = .compilerCached t → t < τ.free ∧ τ.traps t < τ.free) :
    Sound P τ ∧ ∀ c k, places τ c k = places σ c k := by
  have hfresh : ∀ k, places σ σ.free k = [] := by
    intro k
    rw [eq_nil_iff_forall_not_mem]
    exact fun p hp => absurd (h.placed.place_lt hp) (Nat.lt_irrefl _)
  have hcache : ∀ {c}, c ≠ σ.free → τ.caches c = σ.caches c := by
    intro c hc
    rw [hcaches, update_of_ne hc]
  have hplaces : ∀ c k, places τ c k = places σ c k := by
    intro c k
    by_cases hc : c = σ.free
    · subst hc
      rw [hfresh k]
      unfold places State.references
      rw [hcaches, update_self]
      rfl
    · unfold places State.references
      rw [hcache hc]
  have hne : ∀ {c k p}, p ∈ places σ c k → c ≠ σ.free :=
    fun hp => Nat.ne_of_lt (h.placed.place_lt hp)
  refine ⟨⟨⟨fun c k => ?_, fun hp hp' => ?_, fun {c k p} hP hp => ?_, fun hp => ?_, fun {c d} hd => ?_,
    htrap⟩, fun c => ?_⟩, hplaces⟩
  · rw [hplaces]
    exact h.placed.nodup c k
  · rw [hplaces] at hp hp'
    exact h.placed.unique hp hp'
  · rw [hplaces] at hp
    rw [hslots, h.placed.installed hP hp]
    exact (slotFor_congr (by rw [hcache (hne hp)]) (by rw [hcache (hne hp)]) k).symm
  · rw [hplaces] at hp
    exact Nat.lt_trans (h.placed.place_lt hp) hfree
  · by_cases hc : c = σ.free
    · rw [hc, hcaches, update_self] at hd
      cases hd
    · rw [hcache hc] at hd
      rw [hclones]
      exact ⟨(h.placed.clone hd).1, Nat.lt_trans (h.placed.clone hd).2 hfree⟩
  · intro ha ho
    rw [hplaces] at ha ho
    have hc : c ≠ σ.free := by
      rintro rfl
      exact ha (hfresh _)
    rw [hcache hc]
    exact h.cloned c ha ho

theorem Sound.guaranteeCache (h : Sound P σ) (cell : Cell) :
    Sound P (guaranteeCache σ cell).1
      ∧ (guaranteeCache σ cell).2 < (guaranteeCache σ cell).1.free
      ∧ ∀ c k, places (guaranteeCache σ cell).1 c k = places σ c k := by
  have hnew : ∀ (value : Object V) (τ : State V),
      τ = State.setCell { σ.setCache σ.free
        { value := value, clone := none, references := fun _ => [] } with
          traps := update σ.traps (σ.free + 1) σ.free, free := σ.free + 1 + 1 }
        cell (.compilerCached (σ.free + 1)) →
      Sound P τ ∧ σ.free < τ.free ∧ ∀ c k, places τ c k = places σ c k := by
    rintro value τ rfl
    have hlt : σ.free < σ.free + 1 + 1 := by omega
    have hsound := h.newCache (τ := State.setCell { σ.setCache σ.free
        { value := value, clone := none, references := fun _ => [] } with
          traps := update σ.traps (σ.free + 1) σ.free, free := σ.free + 1 + 1 }
        cell (.compilerCached (σ.free + 1))) rfl rfl rfl hlt fun {cell' t} ht => by
      change t < σ.free + 1 + 1 ∧ update σ.traps (σ.free + 1) σ.free t < σ.free + 1 + 1
      change update σ.cells cell (.compilerCached (σ.free + 1)) cell' = _ at ht
      by_cases hc : cell' = cell
      · rw [hc, update_self] at ht
        cases ht
        rw [update_self]
        omega
      · rw [update_of_ne hc] at ht
        have := h.placed.trap_lt ht
        rw [update_of_ne (by omega)]
        omega
    exact ⟨hsound.1, hlt, hsound.2⟩
  unfold Lookup.guaranteeCache
  cases hcell : σ.cells cell with
  | compilerCached t => exact ⟨h, (h.placed.trap_lt hcell).2, fun _ _ => rfl⟩
  | datum v | externalUnassigned | unassigned | unbound | macroBinding m => exact hnew _ _ rfl

/-! ## Assignment -/

/-- The operator references of a cache are right for the value, as far as `P` asks. -/
def StaysLinked (P : Kind → Block × Nat → Prop) (σ : State V) (cache : Nat) (value : Object V) :
    Prop :=
  ∀ p ∈ places σ cache .operator, P .operator p → (σ.caches cache).value = value

theorem places_setCacheValue (σ : State V) (cache : Nat) (value : Object V) (c : Nat) (k : Kind) :
    places (σ.setCacheValue cache value) c k = places σ c k := by
  unfold places
  rw [references_setCacheValue]

theorem clone_setCacheValue (σ : State V) (cache : Nat) (value : Object V) (c : Nat) :
    ((σ.setCacheValue cache value).caches c).clone = (σ.caches c).clone := by
  by_cases h : c = cache
  · subst h
    simp [State.setCacheValue, State.setCache]
  · simp [State.setCacheValue, State.setCache, h]

theorem value_setCacheValue (σ : State V) (cache : Nat) (value : Object V) (c : Nat) :
    ((σ.setCacheValue cache value).caches c).value
      = if c = cache then value else (σ.caches c).value := by
  by_cases h : c = cache
  · subst h
    simp [State.setCacheValue, State.setCache]
  · simp [State.setCacheValue, State.setCache, h]

theorem Placed.setCacheValue (h : Placed P σ) {cache : Nat}
    (hlinked : StaysLinked P σ cache value) : Placed P (σ.setCacheValue cache value) := by
  refine ⟨fun c k => ?_, fun hp hp' => ?_, fun {c k p} hP hp => ?_, fun hp => ?_, fun hd => ?_,
    fun ht => h.trap_lt ht⟩
  · rw [places_setCacheValue]
    exact h.nodup c k
  · rw [places_setCacheValue] at hp hp'
    exact h.unique hp hp'
  · rw [places_setCacheValue] at hp
    refine (h.installed hP hp).trans ?_
    unfold slotFor
    rw [clone_setCacheValue, value_setCacheValue]
    cases k with
    | lookup => rfl
    | assignment => rfl
    | operator =>
        dsimp only
        split
        · rename_i hc
          subst hc
          rw [hlinked p hp hP]
        · rfl
  · rw [places_setCacheValue] at hp
    exact h.place_lt hp
  · rw [clone_setCacheValue] at hd
    exact h.clone hd

theorem Sound.setCacheValue (h : Sound P σ) {cache : Nat}
    (hlinked : StaysLinked P σ cache value) : Sound P (σ.setCacheValue cache value) := by
  refine ⟨h.placed.setCacheValue hlinked, fun c => ?_⟩
  refine (h.cloned c).congr (fun k => ?_) (clone_setCacheValue ..)
  rw [places_setCacheValue]

theorem Renewed.cloned_of {σ' : State V} (h : Renewed σ cache σ') {c : Nat}
    (hc : c ≠ cache → Cloned σ c) : Cloned σ' c := by
  by_cases heq : c = cache
  · subst heq
    exact h.cloned
  · exact (hc heq).congr (h.places c) (h.clone heq)

theorem Sound.updateUuoLinks (h : Sound P σ) (cache : Nat) (value : Object V) :
    Sound P (updateUuoLinks σ cache value) := by
  have hexcept : Sound (fun k p => P k p ∧ p ∉ places σ cache .operator) σ :=
    ⟨h.placed.mono fun _ hP => hP.1, h.cloned⟩
  have hvalue : Sound (fun k p => P k p ∧ p ∉ places σ cache .operator)
      (σ.setCacheValue cache value) :=
    hexcept.setCacheValue fun p hp hP => absurd hp hP.2
  obtain ⟨h1, h2⟩ := hvalue.placed.updateClone cache
  obtain ⟨h3, h4⟩ := h1.reinstall cache .operator
  refine ⟨h3.mono fun {c k p} _ hP => ?_, fun c => ?_⟩
  · by_cases hp : p ∈ places σ cache .operator
    · refine Or.inr ((h2.places cache .operator).mem_iff.mpr ?_)
      rw [places_setCacheValue]
      exact hp
    · exact Or.inl ⟨hP, hp⟩
  · refine Cloned.congr ?_ (h4 c) (reinstallCache_caches _ cache .operator c).1
    exact h2.cloned_of fun _ => hvalue.cloned c

theorem Sound.assignVariableCache (h : Sound P σ) (cache : Nat) (value : Object V)
    (forceP : Bool) : Sound P (assignVariableCache σ cache value forceP).state := by
  unfold Lookup.assignVariableCache
  dsimp only
  split
  · split
    · exact h.updateUuoLinks cache _
    · rename_i hnone
      refine h.setCacheValue fun p hp _ => ?_
      have hnil : places σ cache .operator = [] := by
        unfold places
        rw [not_not.mp hnone]
        rfl
      rw [hnil] at hp
      cases hp
  · exact h

theorem Sound.assignVariableEnd (h : Sound P σ) (cell : Cell)
    (hv : Allocated σ value) (forceP : Bool) :
    Sound P (assignVariableEnd σ cell value forceP).state := by
  unfold Lookup.assignVariableEnd
  split
  · exact h.assignVariableCache _ value forceP
  · split
    · exact h.setCell cell hv.mapToUnassigned
    · exact h

theorem Sound.assignVariable (h : Sound P σ) (environment : Environment)
    (symbol : Symbol) (hv : Allocated σ value) :
    Sound P (assignVariable σ environment symbol value).state := by
  unfold Lookup.assignVariable
  split
  · exact h
  · exact h.assignVariableEnd _ hv false

theorem Sound.renewed {σ' : State V} (h : Sound P σ) {c1 c2 : Nat} (hplaced : Placed P σ')
    (hr : Rearranged σ (fun c => c = c1 ∨ c = c2) σ') :
    Sound P (Lookup.updateClone (Lookup.updateClone σ' c1) c2)
      ∧ SameBindings σ (Lookup.updateClone (Lookup.updateClone σ' c1) c2)
      ∧ σ.free ≤ (Lookup.updateClone (Lookup.updateClone σ' c1) c2).free := by
  obtain ⟨h1, h2⟩ := hplaced.updateClone c1
  obtain ⟨h3, h4⟩ := h1.updateClone c2
  refine ⟨⟨h3, fun c => h4.cloned_of fun hc2 => h2.cloned_of fun hc1 => ?_⟩,
    hr.same.trans (h2.same.trans h4.same), ?_⟩
  · exact hr.cloned (not_or.mpr ⟨hc1, hc2⟩) (h.cloned c)
  · rw [← hr.free]
    exact Nat.le_trans h2.free_le h4.free_le

variable {symbol : Symbol}

theorem Sound.updateCacheReferences (h : Sound P σ) {fromCache : Nat}
    {toCell : Option Cell} {frame : Environment}
    (hup : updateCacheReferences σ fromCache toCell frame symbol = some σ') : Sound P σ' := by
  unfold Lookup.updateCacheReferences at hup
  cases toCell with
  | none =>
      cases hup
      obtain ⟨h1, r1⟩ := h.placed.deleteRefPairs fromCache .lookup frame symbol
      obtain ⟨h2, r2⟩ := h1.deleteRefPairs fromCache .assignment frame symbol
      obtain ⟨h3, r3⟩ := h2.deleteRefPairs fromCache .operator frame symbol
      obtain ⟨h4, h5⟩ := h3.updateClone fromCache
      refine ⟨h4, fun c => h5.cloned_of fun hc => ?_⟩
      exact (r1.trans (r2.trans r3)).cloned hc (h.cloned c)
  | some cell =>
      dsimp only at hup
      obtain ⟨hg, hlt, -⟩ := h.guaranteeCache cell
      generalize Lookup.guaranteeCache σ cell = result at hup hg hlt
      obtain ⟨σ1, toCache⟩ := result
      simp only [bind_eq_bind, bind_eq_some_iff, Option.pure_def,
        Option.some.injEq] at hup
      obtain ⟨σ2, hm1, σ3, hm2, σ4, hm3, rfl⟩ := hup
      obtain ⟨h1, r1⟩ := hg.placed.moveRefPairs hlt hm1
      obtain ⟨h2, r2⟩ := h1.moveRefPairs (by rw [r1.free]; exact hlt) hm2
      obtain ⟨h3, r3⟩ := h2.moveRefPairs (by rw [r2.free, r1.free]; exact hlt) hm3
      have hr : Rearranged σ1 (fun c => c = toCache ∨ c = fromCache) σ4 := by
        have hr' := r1.trans (r2.trans r3)
        exact ⟨hr'.same, hr'.free, hr'.clones, hr'.clone, fun hc => hr'.places (hc ∘ Or.symm)⟩
      exact (hg.renewed h3 hr).1

theorem Sound.defineVariable (h : Sound P σ) {environment : Environment} (hv : Allocated σ value) {outcome : Outcome V Unit}
    (hdef : defineVariable σ environment symbol value = some outcome) : Sound P outcome.state := by
  unfold Lookup.defineVariable at hdef
  split at hdef
  · cases hdef
    exact h.assignVariableEnd _ hv true
  · split at hdef
    · dsimp only at hdef
      split at hdef
      · obtain ⟨σ', hup, rfl⟩ := map_eq_some_iff.mp hdef
        refine Sound.updateCacheReferences ?_ hup
        exact h.cells rfl rfl rfl rfl (h.update_trap_lt hv.mapToUnassigned)
      · cases hdef
        exact h.cells rfl rfl rfl rfl (h.update_trap_lt hv.mapToUnassigned)
    · cases hdef
      exact h

theorem Sound.unbindVariable1 (h : Sound P σ) (cell : Cell) (frame : Environment)
    (symbol : Symbol) : Sound P (unbindVariable1 σ cell frame symbol) := by
  have hunbound : Allocated σ .unbound := fun ht => by cases ht
  unfold Lookup.unbindVariable1
  split
  · exact h.cells rfl rfl rfl rfl (h.update_trap_lt hunbound)
  · exact h.setCell cell hunbound

theorem Sound.unbindVariable (h : Sound P σ) {environment : Environment} {outcome : Outcome V Bool}
    (hglobal : ∀ {cell trap}, (findBindingCell σ environment symbol).1 = some cell →
      procedureFrameP (findBindingCell σ environment symbol).2 = false →
      σ.cells cell = .compilerCached trap → StaysLinked P σ (σ.traps trap) .unbound)
    (hunbind : unbindVariable σ environment symbol = some outcome) : Sound P outcome.state := by
  unfold Lookup.unbindVariable at hunbind
  generalize findBindingCell σ environment symbol = result at hunbind hglobal
  obtain ⟨found, frame⟩ := result
  dsimp only at hunbind hglobal
  split at hunbind
  · cases hunbind
    exact h
  · rename_i cell
    split at hunbind
    · cases hunbind
      exact h
    · rename_i trap htrap
      split at hunbind
      · cases hunbind
        exact h
      · cases hunbind
        exact h
      · split at hunbind
        · obtain ⟨σ', hup, rfl⟩ := map_eq_some_iff.mp hunbind
          exact (h.unbindVariable1 cell _ symbol).updateCacheReferences hup
        · rename_i hframe
          cases hunbind
          refine h.setCacheValue (hglobal rfl ?_ htrap)
          cases frame with
          | procedureFrame n parameters nodup parent => exact absurd rfl (hframe n parameters nodup parent)
          | global | null => rfl
    · cases hunbind
      exact h.unbindVariable1 cell frame symbol

/-! ## Linking -/

/-- What is read from a cell. -/
def cellValue (σ : State V) (cell : Cell) : Object V :=
  match σ.cells cell with
  | .compilerCached trap => (σ.caches (σ.traps trap)).value
  | value => value

theorem Sound.retarget (h : Sound P σ) {source : Cell} {sourceTrap targetTrap targetCache : Nat}
    (htrap : targetTrap < σ.free ∧ σ.traps targetTrap < σ.free) (hcache : targetCache < σ.free) :
    Sound P (State.setCell { σ with traps := update σ.traps sourceTrap targetCache }
      source (.compilerCached targetTrap)) := by
  refine h.cells rfl rfl rfl rfl fun {cell t} ht => ?_
  have hold := h.update_trap_lt (fun ht' => by cases ht'; exact htrap) ht
  refine ⟨hold.1, ?_⟩
  change update σ.traps sourceTrap targetCache t < σ.free
  by_cases heq : t = sourceTrap
  · rw [heq, update_self]
    exact hcache
  · rw [update_of_ne heq]
    exact hold.2

theorem Sound.linkVariables (h : Sound P σ)
    {targetEnvironment sourceEnvironment : Environment} {targetSymbol sourceSymbol : Symbol}
    {outcome : Outcome V Unit}
    (htarget : ∀ {source trap}, (findBindingCell σ sourceEnvironment sourceSymbol).1 = some source →
      unboundP (σ.cells source) = false →
      (scanFrame σ targetEnvironment targetSymbol true).map σ.cells = some (.compilerCached trap) →
      StaysLinked P σ (σ.traps trap) (cellValue σ source))
    (hlink : linkVariables σ targetEnvironment targetSymbol sourceEnvironment sourceSymbol
      = some outcome) : Sound P outcome.state := by
  unfold Lookup.linkVariables at hlink
  split at hlink
  · cases hlink
    exact h
  split at hlink
  · cases hlink
    exact h
  rename_i source hsource
  split at hlink
  · cases hlink
    exact h
  rename_i hbound
  dsimp only at hlink
  split at hlink
  · cases hlink
    exact h
  split at hlink
  · rename_i targetTrap htrap
    have hlinked := htarget hsource (by simpa using hbound) htrap
    obtain ⟨cell, -, hcell⟩ := map_eq_some_iff.mp htrap
    have hlt := h.placed.trap_lt hcell
    split at hlink
    · rename_i sourceTrap hsourceTrap
      split at hlink
      · cases hlink
        exact h
      · rename_i hne
        cases hlink
        have hvalue : cellValue σ source = (σ.caches (σ.traps sourceTrap)).value := by
          unfold cellValue
          rw [hsourceTrap]
        rw [hvalue] at hlinked
        have h0 := h.setCacheValue hlinked
        obtain ⟨h1, r1⟩ := h0.placed.moveAllReferences hne hlt.2 .lookup
        obtain ⟨h2, r2⟩ := h1.moveAllReferences hne (by rw [r1.free]; exact hlt.2) .assignment
        obtain ⟨h3, r3⟩ := h2.moveAllReferences hne (by rw [r2.free, r1.free]; exact hlt.2) .operator
        have hr := r1.trans (r2.trans r3)
        obtain ⟨hsound, hsame, hfree⟩ := h0.renewed h3 hr
        refine hsound.retarget ?_ ?_
        · rw [hsame.traps]
          exact ⟨Nat.lt_of_lt_of_le hlt.1 hfree, Nat.lt_of_lt_of_le hlt.2 hfree⟩
        · exact Nat.lt_of_lt_of_le hlt.2 hfree
    · rename_i value hnot
      cases hlink
      have hvalue : cellValue σ source = σ.cells source := by
        unfold cellValue
        split
        · rename_i trap hsourceTrap
          exact absurd hsourceTrap (hnot trap)
        · rfl
      rw [hvalue] at hlinked
      exact (h.setCacheValue hlinked).setCell source fun ht' => by cases ht'; exact hlt
  · obtain ⟨hg, -, -⟩ := h.guaranteeCache source
    exact hg.defineVariable (fun ht => hg.placed.trap_lt ht) hlink

/-! ## New references -/

theorem setReferences_self (σ : State V) (cache : Nat) (kind : Kind) :
    σ.setReferences cache kind (σ.references cache kind) = σ := by
  unfold State.setReferences State.setCache State.references
  rw [update_eq_self, update_eq_self]

variable {kind : Kind} {block : Block} {offset : Nat}

theorem Placed.record (h : Placed P σ)
    (hlt : cache < σ.free) (symbol : Symbol)
    (hfresh : ∀ c k, (block, offset) ∉ places σ c k) :
    Placed (fun k p => P k p ∧ p ≠ (block, offset)) (σ.setReferences cache kind
        (addReference symbol block offset (σ.references cache kind))) := by
  have hadd := visitedReferences_addReference symbol block offset (σ.references cache kind)
  have horigin : ∀ {c k p}, p ∈ places (σ.setReferences cache kind
      (addReference symbol block offset (σ.references cache kind))) c k →
      (p = (block, offset) ∧ c = cache ∧ k = kind) ∨ p ∈ places σ c k := by
    intro c k p hp
    rw [places_setReferences] at hp
    split at hp
    · rename_i hc
      obtain ⟨rfl, rfl⟩ := hc
      rcases mem_cons.mp (hadd.mem_iff.mp hp) with rfl | hold
      · exact Or.inl ⟨rfl, rfl, rfl⟩
      · exact Or.inr hold
    · exact Or.inr hp
  refine ⟨fun c k => ?_, fun {c k c' k' p} hp hp' => ?_, fun {c k p} hP hp => ?_,
    fun {c k p} hp => ?_, fun hd => ?_, fun ht => h.trap_lt ht⟩
  · rw [places_setReferences]
    split
    · exact hadd.nodup_iff.mpr (nodup_cons.mpr ⟨hfresh cache kind, h.nodup cache kind⟩)
    · exact h.nodup c k
  · rcases horigin hp with ⟨rfl, rfl, rfl⟩ | hold
    · rcases horigin hp' with ⟨-, hc, hk⟩ | hold'
      · exact ⟨hc, hk⟩
      · exact absurd hold' (hfresh _ _)
    · rcases horigin hp' with ⟨rfl, -, -⟩ | hold'
      · exact absurd hold (hfresh _ _)
      · exact h.unique hold hold'
  · rcases horigin hp with ⟨heq, -, -⟩ | hold
    · exact absurd heq hP.2
    · refine (h.installed hP.1 hold).trans (slotFor_congr ?_ ?_ k).symm
      · exact clone_setReferences ..
      · exact value_setReferences ..
  · rcases horigin hp with ⟨-, rfl, -⟩ | hold
    · exact hlt
    · exact h.place_lt hold
  · rw [clone_setReferences] at hd
    exact h.clone hd

theorem Sound.addTo (h : Sound P σ) (hlt : cache < σ.free)
    (symbol : Symbol)
    (hfresh : ∀ c k, (block, offset) ∉ places σ c k) :
    Sound P (installCache (Lookup.updateClone (σ.setReferences cache kind
      (addReference symbol block offset (σ.references cache kind))) cache)
        cache kind [(block, offset)]) := by
  obtain ⟨h1, h2⟩ := (h.placed.record hlt symbol hfresh).updateClone cache
  have hplace : (block, offset) ∈ places (Lookup.updateClone (σ.setReferences cache kind
      (addReference symbol block offset (σ.references cache kind))) cache) cache kind := by
    refine (h2.places cache kind).mem_iff.mpr ?_
    rw [places_setReferences, if_pos ⟨rfl, rfl⟩]
    exact (visitedReferences_addReference symbol block offset _).mem_iff.mpr mem_cons_self
  obtain ⟨h3, h4⟩ := h1.install (List.Perm.refl _) (fun p hp => by
    rw [mem_singleton.mp hp]
    exact hplace)
  rw [setReferences_self] at h3 h4
  refine ⟨h3.mono fun {c k p} _ hP => ?_, fun c => ?_⟩
  · by_cases hp : p = (block, offset)
    · exact Or.inr (mem_singleton.mpr hp)
    · exact Or.inl ⟨hP, hp⟩
  · have hc : Cloned (Lookup.updateClone (σ.setReferences cache kind
        (addReference symbol block offset (σ.references cache kind))) cache) c := by
      refine h2.cloned_of fun hc => (h.cloned c).congr (fun k => ?_) (clone_setReferences ..)
      rw [places_setReferences, if_neg fun hc' => hc hc'.1]
    refine hc.congr (h4 c) ?_
    rw [installCache_eq]

theorem Sound.addCacheReference (h : Sound P σ) (environment : Environment)
    (symbol : Symbol)
    (hfresh : ∀ c k, (block, offset) ∉ places σ c k) :
    Sound P (addCacheReference σ environment symbol block offset kind).state := by
  unfold Lookup.addCacheReference
  cases (findBindingCell σ environment symbol).1 with
  | some cell =>
      obtain ⟨hg, hlt, hplaces⟩ := h.guaranteeCache cell
      exact hg.addTo hlt symbol fun c k => by
        rw [hplaces]
        exact hfresh c k
  | none =>
      have hlt : σ.free < σ.free + 2 := by omega
      obtain ⟨hn, hplaces⟩ := h.newCache (τ := { σ.setCache σ.free
        { value := .unbound, clone := none, references := fun _ => [] } with
          free := σ.free + 2 }) rfl rfl rfl hlt fun ht => by
        have := h.placed.trap_lt ht
        exact ⟨Nat.lt_trans this.1 hlt, Nat.lt_trans this.2 hlt⟩
      exact hn.addTo hlt symbol fun c k => by
        rw [hplaces]
        exact hfresh c k

theorem Sound.collectGarbage (h : Sound P σ) (dead : Block → Bool) :
    Sound P { σ with
      caches := fun cache =>
        { σ.caches cache with
          references := fun kind => collectReferences dead (σ.references cache kind) } } := by
  have hsub : ∀ c k, (visitedReferences (collectReferences dead (σ.references c k))).Sublist
      (places σ c k) := fun c k => visitedReferences_collect dead _
  refine ⟨⟨fun c k => ?_, fun hp hp' => ?_, fun hP hp => ?_, fun hp => ?_, fun hd => ?_,
    fun ht => ?_⟩, fun c ha ho => ?_⟩
  · exact (h.placed.nodup c k).sublist (hsub c k)
  · exact h.placed.unique ((hsub _ _).subset hp) ((hsub _ _).subset hp')
  · exact h.placed.installed hP ((hsub _ _).subset hp)
  · exact h.placed.place_lt ((hsub _ _).subset hp)
  · exact h.placed.clone hd
  · exact h.placed.trap_lt ht
  · refine h.cloned c (fun hn => ha ?_) (fun hn => ho ?_)
    · exact sublist_nil.mp (hn ▸ hsub c .assignment)
    · exact sublist_nil.mp (hn ▸ hsub c .operator)

/-! ## Runs -/

/-- The operation keeps the operator references linked, as far as `P` asks, and adds references
only at places that have none. -/
def KeepsLinks (P : Kind → Block × Nat → Prop) (σ : State V) : Operation V → Prop
  | .link targetEnvironment targetSymbol sourceEnvironment sourceSymbol =>
      ∀ source trap, (findBindingCell σ sourceEnvironment sourceSymbol).1 = some source →
        unboundP (σ.cells source) = false →
        (scanFrame σ targetEnvironment targetSymbol true).map σ.cells
          = some (.compilerCached trap) →
        StaysLinked P σ (σ.traps trap) (cellValue σ source)
  | .unbind environment symbol =>
      ∀ cell trap, (findBindingCell σ environment symbol).1 = some cell →
        procedureFrameP (findBindingCell σ environment symbol).2 = false →
        σ.cells cell = .compilerCached trap → StaysLinked P σ (σ.traps trap) .unbound
  | .addReference _ _ block offset _ => ∀ c k, (block, offset) ∉ places σ c k
  | _ => True

theorem Sound.perform (h : Sound P σ) {operation : Operation V}
    (hkeeps : KeepsLinks P σ operation) (hperform : perform σ operation = some σ') :
    Sound P σ' := by
  cases operation with
  | define environment symbol value =>
      obtain ⟨outcome, hdef, rfl⟩ := map_eq_some_iff.mp hperform
      exact h.defineVariable (allocated_storable value.2) hdef
  | assign environment symbol value =>
      cases hperform
      exact h.assignVariable environment symbol (allocated_storable value.2)
  | link targetEnvironment targetSymbol sourceEnvironment sourceSymbol =>
      obtain ⟨outcome, hlink, rfl⟩ := map_eq_some_iff.mp hperform
      exact h.linkVariables (hkeeps _ _) hlink
  | unbind environment symbol =>
      obtain ⟨outcome, hunbind, rfl⟩ := map_eq_some_iff.mp hperform
      exact h.unbindVariable (hkeeps _ _) hunbind
  | addReference environment symbol block offset kind =>
      cases hperform
      exact h.addCacheReference environment symbol hkeeps
  | collectGarbage dead =>
      cases hperform
      exact h.collectGarbage dead

theorem sound_initial (h : Initial σ) (P : Kind → Block × Nat → Prop) : Sound P σ := by
  have hnone : ∀ c k, places σ c k = [] := by
    intro c k
    unfold places
    rw [h.unrecorded]
    rfl
  have hmem : ∀ {c k} {p : Block × Nat}, ¬ p ∈ places σ c k := by
    intro c k p hp
    rw [hnone] at hp
    cases hp
  refine ⟨⟨fun c k => ?_, fun hp => absurd hp hmem, fun _ hp => absurd hp hmem,
    fun hp => absurd hp hmem, fun {c d} hd => ?_, fun {cell t} ht => ?_⟩,
    fun c ha => absurd (hnone c .assignment) ha⟩
  · rw [hnone]
    exact nodup_nil
  · rw [h.uncloned] at hd
    cases hd
  · have := h.uncached cell
    unfold cellCache at this
    rw [ht] at this
    cases this

end MitScheme.Lookup
