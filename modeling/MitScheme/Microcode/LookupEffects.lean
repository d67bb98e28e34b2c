import MitScheme.Microcode.LookupInstalled

/-!
# What the operations do to bindings

Moving references about, and installing caches, leaves the environment structure alone. What
is left of an operation is then short, and is said here once: which cells and traps are
written, and which caches are given a value. Nothing is assumed about the state, or about
the references of compiled code.
-/

namespace MitScheme.Lookup

open Option Function
open Function (update)

variable {V : Type}

/-! ## References -/

/-- `σ'` has the bindings and the values of `σ`, and nothing that was allocated is free. -/
structure Undisturbed (σ σ' : State V) : Prop where
  same : SameBindings σ σ'
  free_le : σ.free ≤ σ'.free

theorem Undisturbed.refl (σ : State V) : Undisturbed σ σ :=
  ⟨SameBindings.refl σ, Nat.le_refl _⟩

theorem Undisturbed.trans {σ σ' σ'' : State V} (h : Undisturbed σ σ') (h' : Undisturbed σ' σ'') :
    Undisturbed σ σ'' :=
  ⟨h.same.trans h'.same, Nat.le_trans h.free_le h'.free_le⟩

theorem undisturbed_setReferences (σ : State V) (cache : Nat) (kind : Kind) (list : ReferenceList) :
    Undisturbed σ (σ.setReferences cache kind list) :=
  ⟨⟨rfl, rfl, rfl, value_setReferences σ cache kind list⟩, Nat.le_refl _⟩

theorem undisturbed_installCache (σ : State V) (cache : Nat) (kind : Kind)
    (places : List (Block × Nat)) : Undisturbed σ (installCache σ cache kind places) := by
  rw [installCache_eq]
  exact ⟨⟨rfl, rfl, rfl, fun _ => rfl⟩, Nat.le_refl _⟩

theorem undisturbed_reinstallCache (σ : State V) (cache : Nat) (kind : Kind) :
    Undisturbed σ (reinstallCache σ cache kind) :=
  ⟨reinstallCache_same σ cache kind, Nat.le_of_eq (reinstallCache_free σ cache kind).symm⟩

theorem undisturbed_setCacheClone (σ : State V) (cache : Nat) (clone : Option Nat) :
    Undisturbed σ (σ.setCacheClone cache clone) :=
  ⟨⟨rfl, rfl, rfl, value_setCacheClone σ cache clone⟩, Nat.le_refl _⟩

theorem undisturbed_updateClone (σ : State V) (cache : Nat) :
    Undisturbed σ (updateClone σ cache) := by
  unfold updateClone
  split
  · split
    · exact Undisturbed.refl σ
    · have hnew : Undisturbed σ
          { σ with clones := update σ.clones σ.free cache, free := σ.free + 1 } :=
        ⟨⟨rfl, rfl, rfl, fun _ => rfl⟩, Nat.le_succ _⟩
      exact (hnew.trans (undisturbed_setCacheClone _ cache _)).trans
        (undisturbed_reinstallCache _ cache .assignment)
  · split
    · exact (undisturbed_setCacheClone σ cache none).trans
        (undisturbed_reinstallCache _ cache .assignment)
    · exact Undisturbed.refl σ

variable {frame environment : Environment} {symbol : Symbol} {σ σ' : State V} {cell : Cell}

theorem undisturbed_moveRefPairs {fromCache toCache : Nat} {kind : Kind}
    (h : moveRefPairs σ fromCache toCache kind frame symbol = some σ') : Undisturbed σ σ' := by
  unfold moveRefPairs at h
  split at h
  · cases h
    exact Undisturbed.refl σ
  · dsimp only at h
    split at h
    · obtain ⟨result, -, rfl⟩ := map_eq_some_iff.mp h
      exact (undisturbed_setReferences ..).trans (undisturbed_installCache ..)
    · cases h
      exact ((undisturbed_setReferences ..).trans (undisturbed_setReferences ..)).trans
        (undisturbed_installCache ..)

theorem undisturbed_deleteRefPairs (σ : State V) (fromCache : Nat) (kind : Kind)
    (frame : Environment) (symbol : Symbol) :
    Undisturbed σ (deleteRefPairs σ fromCache kind frame symbol) := by
  unfold deleteRefPairs
  split
  · exact Undisturbed.refl σ
  · exact undisturbed_setReferences ..

theorem undisturbed_moveAllReferences (σ : State V) (fromCache toCache : Nat) (kind : Kind) :
    Undisturbed σ (moveAllReferences σ fromCache toCache kind) :=
  ((undisturbed_installCache ..).trans (undisturbed_setReferences ..)).trans
    (undisturbed_setReferences ..)

/-- The state with a cache for the cell, if there is a cell. -/
def withCache (σ : State V) : Option Cell → State V
  | some cell => (guaranteeCache σ cell).1
  | none => σ

theorem undisturbed_updateCacheReferences {fromCache : Nat} {toCell : Option Cell}
    (h : updateCacheReferences σ fromCache toCell frame symbol = some σ') :
    Undisturbed (withCache σ toCell) σ' := by
  unfold updateCacheReferences at h
  cases toCell with
  | none =>
      cases h
      exact (((undisturbed_deleteRefPairs ..).trans (undisturbed_deleteRefPairs ..)).trans
        (undisturbed_deleteRefPairs ..)).trans (undisturbed_updateClone ..)
  | some cell =>
      obtain ⟨σ1, h1, h⟩ := bind_eq_some_iff.mp h
      obtain ⟨σ2, h2, h⟩ := bind_eq_some_iff.mp h
      obtain ⟨σ3, h3, h⟩ := bind_eq_some_iff.mp h
      cases h
      exact ((((undisturbed_moveRefPairs h1).trans (undisturbed_moveRefPairs h2)).trans
        (undisturbed_moveRefPairs h3)).trans (undisturbed_updateClone ..)).trans
        (undisturbed_updateClone ..)

/-! ## Cells -/

theorem cellCache_eq_some {cache : Nat} :
    cellCache σ cell = some cache ↔ ∃ t, σ.cells cell = .compilerCached t ∧ σ.traps t = cache := by
  unfold cellCache
  cases h : σ.cells cell with
  | compilerCached t | datum v | externalUnassigned | unassigned | unbound | macroBinding m => simp

theorem guaranteeCache_cached {t : Nat}
    (h : σ.cells cell = .compilerCached t) : guaranteeCache σ cell = (σ, σ.traps t) := by
  unfold guaranteeCache
  rw [h]

/-- A cell that has no cache is given a new one, which takes over the value. -/
structure NewlyCached (σ : State V) (cell : Cell) (result : State V × Nat) : Prop where
  cache : result.2 = σ.free
  cells : result.1.cells = update σ.cells cell (.compilerCached (σ.free + 1))
  traps : result.1.traps = update σ.traps (σ.free + 1) σ.free
  caches : result.1.caches = update σ.caches σ.free
    { value := σ.cells cell, clone := none, references := fun _ => [] }
  extensions : result.1.extensions = σ.extensions
  free : result.1.free = σ.free + 1 + 1

theorem guaranteeCache_uncached (h : ∀ t, σ.cells cell ≠ .compilerCached t) :
    NewlyCached σ cell (guaranteeCache σ cell) := by
  unfold guaranteeCache
  cases hcell : σ.cells cell with
  | compilerCached t => exact absurd hcell (h t)
  | datum v
  | externalUnassigned
  | unassigned
  | unbound
  | macroBinding m => exact ⟨rfl, rfl, rfl, by rw [hcell]; rfl, rfl, rfl⟩

theorem reported_or_done {α : Type} (σ : State V) (done : Outcome V α) (code : ReturnCode) :
    ∀ outcome, outcome = (match code with
      | .primDone => done
      | code => (⟨code, none, σ⟩ : Outcome V α)) →
    (outcome.code ≠ .primDone ∧ outcome.state = σ) ∨ outcome = done := by
  rintro outcome rfl
  cases code with
  | primDone => exact .inr rfl
  | errBadFrame
  | errUnboundVariable
  | errUnassignedVariable
  | errMacroBinding
  | errIllegalReferenceTrap => exact .inl ⟨ReturnCode.noConfusion, rfl⟩

theorem assignVariableEnd_cases (σ : State V) (cell : Cell) (value : Object V) (forceP : Bool) :
    ((assignVariableEnd σ cell value forceP).code ≠ .primDone
      ∧ (assignVariableEnd σ cell value forceP).state = σ)
    ∨ ((assignVariableEnd σ cell value forceP).code = .primDone
      ∧ (∀ t, σ.cells cell ≠ .compilerCached t)
      ∧ (assignVariableEnd σ cell value forceP).state = σ.setCell cell (mapToUnassigned value))
    ∨ ((assignVariableEnd σ cell value forceP).code = .primDone
      ∧ ∃ t, σ.cells cell = .compilerCached t
        ∧ Undisturbed (σ.setCacheValue (σ.traps t) (mapToUnassigned value))
          (assignVariableEnd σ cell value forceP).state) := by
  have hdirect : ∀ oldValue : Object V, σ.cells cell = oldValue →
      (∀ t, oldValue ≠ .compilerCached t) →
      ((assignVariableEnd σ cell value forceP).code ≠ .primDone
        ∧ (assignVariableEnd σ cell value forceP).state = σ)
      ∨ (assignVariableEnd σ cell value forceP).code = .primDone
        ∧ (∀ t, σ.cells cell ≠ .compilerCached t)
        ∧ (assignVariableEnd σ cell value forceP).state
          = σ.setCell cell (mapToUnassigned value) := by
    rintro oldValue rfl hne
    refine (reported_or_done σ ⟨.primDone, some (mapFromUnassigned (σ.cells cell)),
      σ.setCell cell (mapToUnassigned value)⟩ (assignable forceP (σ.cells cell)) _ ?_).imp_right
      fun h => ?_
    · unfold assignVariableEnd
      cases hcell : σ.cells cell with
      | compilerCached t => exact absurd hcell (hne t)
      | _ => rfl
    · rw [h]
      exact ⟨rfl, hne, rfl⟩
  cases hcell : σ.cells cell with
  | compilerCached t =>
      have hend : assignVariableEnd σ cell value forceP
          = assignVariableCache σ (σ.traps t) value forceP := by
        unfold assignVariableEnd
        rw [hcell]
      rw [hend]
      refine (reported_or_done σ _ _ (assignVariableCache σ (σ.traps t) value forceP)
        rfl).imp_right fun h => .inr ?_
      rw [h]
      refine ⟨rfl, t, rfl, ?_⟩
      split
      · exact (undisturbed_updateClone ..).trans (undisturbed_reinstallCache ..)
      · exact Undisturbed.refl _
  | datum v
  | externalUnassigned
  | unassigned
  | unbound
  | macroBinding m => exact (hcell ▸ hdirect _ hcell (by simp)).imp_right .inl

theorem assignVariableEnd_forced (h : ∀ t, σ.cells cell ≠ .compilerCached t) (value : Object V) :
    (assignVariableEnd σ cell value true).state = σ.setCell cell (mapToUnassigned value) := by
  unfold assignVariableEnd
  cases hcell : σ.cells cell with
  | compilerCached t => exact absurd hcell (h t)
  | datum v | externalUnassigned | unassigned | unbound | macroBinding m => rfl

theorem scanFrame_guaranteeCache
    (h : unboundP (σ.cells cell) = false) (e : Environment) (s : Symbol) (p : Bool) :
    scanFrame (guaranteeCache σ cell).1 e s p = scanFrame σ e s p := by
  by_cases hcached : ∃ t, σ.cells cell = .compilerCached t
  · obtain ⟨t, ht⟩ := hcached
    rw [guaranteeCache_cached ht]
  · push Not at hcached
    have hnew := guaranteeCache_uncached hcached
    refine scanFrame_congr (by rw [hnew.extensions]) fun i => ?_
    rw [hnew.cells]
    by_cases hc : Cell.argument e i = cell
    · rw [hc, update_self, h]
      rfl
    · rw [update_of_ne hc]

/-! ## The operations -/

/-- The frame had no such binding, and has one now. -/
structure Extends (σ : State V) (frame : Environment) (symbol : Symbol) (value : Object V)
    (σ' : State V) : Prop where
  absent : scanFrame σ frame symbol true = none
  procedureFrame : procedureFrameP frame = true
  effect : (shadowedCache σ frame symbol = none
      ∧ σ' = withBinding σ frame symbol (mapToUnassigned value))
    ∨ (∃ cache, shadowedCache σ frame symbol = some cache)
      ∧ Undisturbed (guaranteeCache (withBinding σ frame symbol (mapToUnassigned value))
          (.extension frame symbol)).1 σ'

variable {value : Object V} {outcome : Outcome V Unit}

theorem defineVariable_cases
    (h : defineVariable σ environment symbol value = some outcome) :
    (environment = .null ∧ outcome.state = σ)
    ∨ (∃ cell, scanFrame σ environment symbol true = some cell
      ∧ outcome.code = (assignVariableEnd σ cell value true).code
      ∧ outcome.state = (assignVariableEnd σ cell value true).state)
    ∨ (outcome.code = .primDone ∧ Extends σ environment symbol value outcome.state) := by
  unfold defineVariable at h
  cases hscan : scanFrame σ environment symbol true with
  | some cell =>
      rw [hscan] at h
      cases h
      exact .inr (.inl ⟨cell, rfl, rfl, rfl⟩)
  | none =>
      rw [hscan] at h
      cases environment with
      | global => cases hscan
      | null =>
          cases h
          exact .inl ⟨rfl, rfl⟩
      | procedureFrame n parameters nodup parent =>
          refine .inr (.inr ?_)
          dsimp only at h
          cases hcache : shadowedCache σ (.procedureFrame n parameters nodup parent) symbol with
          | none =>
              rw [show (findBindingCell σ parent symbol).1.bind (cellCache σ) = none
                from hcache] at h
              cases h
              exact ⟨rfl, hscan, rfl, .inl ⟨hcache, rfl⟩⟩
          | some cache =>
              rw [show (findBindingCell σ parent symbol).1.bind (cellCache σ) = some cache
                from hcache] at h
              obtain ⟨σ', hupdate, rfl⟩ := map_eq_some_iff.mp h
              exact ⟨rfl, hscan, rfl, .inr ⟨⟨cache, hcache⟩,
                undisturbed_updateCacheReferences hupdate⟩⟩

/-- What `link_variables` does if it does anything. -/
inductive Links (σ : State V) (targetEnvironment : Environment) (targetSymbol : Symbol)
    (source : Cell) : State V → Prop
  /-- The variables have one cell. -/
  | same : scanFrame σ targetEnvironment targetSymbol true = some source →
      Links σ targetEnvironment targetSymbol source σ
  /-- The variables have one cache. -/
  | linked {target : Cell} {cache : Nat} :
      scanFrame σ targetEnvironment targetSymbol true = some target →
      cellCache σ target = some cache → cellCache σ source = some cache →
      Links σ targetEnvironment targetSymbol source σ
  /-- Both variables have caches: the trap of the source is made to lead to the cache of the
  target, and the source is given the trap of the target. -/
  | merge {target : Cell} {targetTrap sourceTrap : Nat} {τ : State V} :
      scanFrame σ targetEnvironment targetSymbol true = some target →
      σ.cells target = .compilerCached targetTrap → σ.cells source = .compilerCached sourceTrap →
      σ.traps sourceTrap ≠ σ.traps targetTrap →
      Undisturbed (σ.setCacheValue (σ.traps targetTrap) (σ.caches (σ.traps sourceTrap)).value) τ →
      Links σ targetEnvironment targetSymbol source
        (State.setCell { τ with traps := update τ.traps sourceTrap (σ.traps targetTrap) }
          source (.compilerCached targetTrap))
  /-- The target has a cache: it is given the value of the source. -/
  | share {target : Cell} {targetTrap : Nat} :
      scanFrame σ targetEnvironment targetSymbol true = some target →
      σ.cells target = .compilerCached targetTrap →
      (∀ t, σ.cells source ≠ .compilerCached t) →
      Links σ targetEnvironment targetSymbol source
        ((σ.setCacheValue (σ.traps targetTrap) (σ.cells source)).setCell source
          (.compilerCached targetTrap))
  /-- The target is defined, with the trap of the source for its value. -/
  | define {outcome : Outcome V Unit} :
      scanFrame σ targetEnvironment targetSymbol true ≠ some source →
      (∀ target t, scanFrame σ targetEnvironment targetSymbol true = some target →
        σ.cells target ≠ .compilerCached t) →
      defineVariable (guaranteeCache σ source).1 targetEnvironment targetSymbol
        ((guaranteeCache σ source).1.cells source) = some outcome →
      Links σ targetEnvironment targetSymbol source outcome.state

theorem linkVariables_cases {targetEnvironment sourceEnvironment : Environment}
    {targetSymbol sourceSymbol : Symbol}
    (h : linkVariables σ targetEnvironment targetSymbol sourceEnvironment sourceSymbol
      = some outcome) :
    (outcome.code ≠ .primDone ∧ outcome.state = σ)
    ∨ ∃ source, (findBindingCell σ sourceEnvironment sourceSymbol).1 = some source
      ∧ unboundP (σ.cells source) = false ∧ targetEnvironment ≠ .null
      ∧ Links σ targetEnvironment targetSymbol source outcome.state := by
  unfold linkVariables at h
  split at h
  · cases h
    exact .inl ⟨ReturnCode.noConfusion, rfl⟩
  rename_i hnull
  cases hsource : (findBindingCell σ sourceEnvironment sourceSymbol).1 with
  | none =>
      rw [hsource] at h
      cases h
      exact .inl ⟨ReturnCode.noConfusion, rfl⟩
  | some source =>
      rw [hsource] at h
      dsimp only at h
      split at h
      · cases h
        exact .inl ⟨ReturnCode.noConfusion, rfl⟩
      rename_i hbound
      refine .inr ⟨source, rfl, by simpa using hbound, fun he => hnull (.inl he), ?_⟩
      split at h
      · rename_i hsame
        cases h
        exact .same hsame
      rename_i hne
      split at h
      · rename_i targetTrap hmap
        obtain ⟨target, htarget, hcell⟩ := map_eq_some_iff.mp hmap
        split at h
        · rename_i sourceTrap hst
          split at h
          · rename_i heq
            cases h
            exact .linked htarget (cellCache_eq_some.mpr ⟨targetTrap, hcell, rfl⟩)
              (cellCache_eq_some.mpr ⟨sourceTrap, hst, heq⟩)
          · rename_i hcaches
            cases h
            exact .merge htarget hcell hst hcaches
              (((((undisturbed_moveAllReferences ..).trans (undisturbed_moveAllReferences ..)).trans
                (undisturbed_moveAllReferences ..)).trans (undisturbed_updateClone ..)).trans
                (undisturbed_updateClone ..))
        · rename_i hst
          cases h
          exact .share htarget hcell fun t ht => hst t ht
      · rename_i hmap
        refine .define hne (fun target t htarget hcell => hmap t ?_) h
        rw [htarget]
        exact congrArg some hcell

/-- What `unbind_variable` does if it does anything. -/
inductive Unbinds (σ : State V) (frame : Environment) (symbol : Symbol) (cell : Cell) :
    State V → Prop
  | drop : (∀ t, σ.cells cell ≠ .compilerCached t) →
      Unbinds σ frame symbol cell (unbindVariable1 σ cell frame symbol)
  | clear {trap : Nat} : σ.cells cell = .compilerCached trap → procedureFrameP frame = false →
      Unbinds σ frame symbol cell (σ.setCacheValue (σ.traps trap) .unbound)
  | move {trap : Nat} {σ' : State V} : σ.cells cell = .compilerCached trap →
      procedureFrameP frame = true →
      Undisturbed (withCache (unbindVariable1 σ cell frame symbol)
        (findBindingCell σ (parentOf frame) symbol).1) σ' →
      Unbinds σ frame symbol cell σ'

theorem unbindVariable_cases
    {outcome : Outcome V Bool} (h : unbindVariable σ environment symbol = some outcome) :
    outcome.state = σ
    ∨ ∃ cell, (findBindingCell σ environment symbol).1 = some cell
      ∧ Unbinds σ (findBindingCell σ environment symbol).2 symbol cell outcome.state := by
  unfold unbindVariable at h
  cases hfind : (findBindingCell σ environment symbol).1 with
  | none =>
      dsimp only at h
      rw [hfind] at h
      cases h
      exact .inl rfl
  | some cell =>
      dsimp only at h
      rw [hfind] at h
      dsimp only at h
      generalize (findBindingCell σ environment symbol).2 = frame at h ⊢
      split at h
      · cases h
        exact .inl rfl
      · rename_i trap hcell
        split at h
        · cases h
          exact .inl rfl
        · cases h
          exact .inl rfl
        · cases frame with
          | global | null =>
              cases h
              exact .inr ⟨cell, rfl, .clear hcell rfl⟩
          | procedureFrame n parameters nodup parent =>
              obtain ⟨σ', hupdate, rfl⟩ := map_eq_some_iff.mp h
              exact .inr ⟨cell, rfl, .move hcell rfl (undisturbed_updateCacheReferences hupdate)⟩
      · rename_i hunbound hcached
        cases h
        exact .inr ⟨cell, rfl, .drop fun t ht => hcached t ht⟩

theorem unbindVariable1_eq (h : scanFrame σ frame symbol false = some cell) :
    (unbindVariable1 σ cell frame symbol).cells = update σ.cells cell .unbound
      ∧ (unbindVariable1 σ cell frame symbol).traps = σ.traps
      ∧ (unbindVariable1 σ cell frame symbol).caches = σ.caches
      ∧ (unbindVariable1 σ cell frame symbol).free = σ.free := by
  unfold unbindVariable1
  split
  · rename_i hframe
    obtain ⟨hframe, hmem⟩ := hframe
    cases frame with
    | global | null => cases hframe
    | procedureFrame n parameters nodup parent =>
        rw [scanFrame, if_pos hmem] at h
        cases h
        exact ⟨rfl, rfl, rfl, rfl⟩
  · exact ⟨rfl, rfl, rfl, rfl⟩

theorem shadowed_ne {shadowed : Cell}
    (hframe : procedureFrameP frame = true) (h : scanFrame σ frame symbol false = some cell)
    (hshadowed : (findBindingCell σ (parentOf frame) symbol).1 = some shadowed) :
    shadowed ≠ cell := by
  rintro rfl
  have hpasses := (passes_of_find h hshadowed).2
  have hparent : sizeOf (parentOf frame) < sizeOf frame := by
    cases frame with
    | global | null => cases hframe
    | procedureFrame n parameters nodup parent => exact sizeOf_parent
  rw [passes_parent hparent] at hpasses
  cases hpasses

theorem undisturbed_addCacheReference (σ : State V) (environment : Environment) (symbol : Symbol)
    (block : Block) (offset : Nat) (kind : Kind) :
    match (findBindingCell σ environment symbol).1 with
    | some cell => Undisturbed (guaranteeCache σ cell).1
        (addCacheReference σ environment symbol block offset kind).state
    | none => Undisturbed { σ.setCache σ.free
          { value := .unbound, clone := none, references := fun _ => [] } with free := σ.free + 2 }
        (addCacheReference σ environment symbol block offset kind).state := by
  unfold addCacheReference
  cases (findBindingCell σ environment symbol).1 with
  | some cell | none =>
      exact ((undisturbed_setReferences ..).trans (undisturbed_updateClone ..)).trans
        (undisturbed_installCache ..)

/-! ## Allocation -/

/-- The traps in the cells, and their caches, were allocated. -/
def TrapsAllocated (σ : State V) : Prop :=
  ∀ cell, Allocated σ (σ.cells cell)

theorem TrapsAllocated.undisturbed (h : TrapsAllocated σ)
    (hsame : Undisturbed σ σ') : TrapsAllocated σ' := by
  intro cell t ht
  rw [hsame.same.cells] at ht
  obtain ⟨h1, h2⟩ := h cell ht
  rw [hsame.same.traps]
  exact ⟨Nat.lt_of_lt_of_le h1 hsame.free_le, Nat.lt_of_lt_of_le h2 hsame.free_le⟩

variable {σ : State V}

theorem TrapsAllocated.setCell (h : TrapsAllocated σ)
    (hvalue : Allocated σ value) (cell : Cell) : TrapsAllocated (σ.setCell cell value) := by
  intro cell' t ht
  change update σ.cells cell value cell' = _ at ht
  by_cases hc : cell' = cell
  · rw [hc, update_self] at ht
    exact hvalue ht
  · rw [update_of_ne hc] at ht
    exact h cell' ht

theorem TrapsAllocated.setCacheValue (h : TrapsAllocated σ) (cache : Nat)
    (value : Object V) : TrapsAllocated (σ.setCacheValue cache value) := h

theorem TrapsAllocated.guaranteeCache (h : TrapsAllocated σ) (cell : Cell) :
    TrapsAllocated (guaranteeCache σ cell).1 := by
  by_cases hcached : ∃ t, σ.cells cell = .compilerCached t
  · obtain ⟨t, ht⟩ := hcached
    rw [guaranteeCache_cached ht]
    exact h
  · push Not at hcached
    have hnew := guaranteeCache_uncached hcached
    intro cell' t ht
    rw [hnew.cells] at ht
    rw [hnew.traps, hnew.free]
    by_cases hc : cell' = cell
    · rw [hc, update_self] at ht
      cases ht
      rw [update_self]
      omega
    · rw [update_of_ne hc] at ht
      obtain ⟨h1, h2⟩ := h cell' ht
      rw [update_of_ne (by omega)]
      omega

theorem TrapsAllocated.withCache (h : TrapsAllocated σ) (toCell : Option Cell) :
    TrapsAllocated (withCache σ toCell) := by
  cases toCell with
  | none => exact h
  | some cell => exact h.guaranteeCache cell

theorem TrapsAllocated.assignVariableEnd (h : TrapsAllocated σ) (cell : Cell) (hvalue : Allocated σ value) (forceP : Bool) :
    TrapsAllocated (assignVariableEnd σ cell value forceP).state := by
  obtain ⟨-, hstate⟩ | ⟨-, -, hstate⟩ | ⟨-, t, -, hsame⟩ :=
    assignVariableEnd_cases σ cell value forceP
  · rw [hstate]
    exact h
  · rw [hstate]
    exact h.setCell hvalue.mapToUnassigned cell
  · exact (h.setCacheValue _ _).undisturbed hsame

theorem TrapsAllocated.withBinding (h : TrapsAllocated σ)
    (hvalue : Allocated σ value) (frame : Environment) (symbol : Symbol) :
    TrapsAllocated (withBinding σ frame symbol (mapToUnassigned value)) :=
  TrapsAllocated.setCell (σ := { σ with
    extensions := update σ.extensions frame (σ.extensions frame ++ [symbol]) })
    h hvalue.mapToUnassigned (.extension frame symbol)

theorem TrapsAllocated.defineVariable (h : TrapsAllocated σ)
    {environment : Environment} {symbol : Symbol} (hvalue : Allocated σ value)
    (hdefine : defineVariable σ environment symbol value = some outcome) :
    TrapsAllocated outcome.state := by
  obtain ⟨-, hstate⟩ | ⟨cell, -, -, hstate⟩ | ⟨-, hextends⟩ := defineVariable_cases hdefine
  · rw [hstate]
    exact h
  · rw [hstate]
    exact h.assignVariableEnd cell hvalue true
  · obtain ⟨-, hstate⟩ | ⟨-, hsame⟩ := hextends.effect
    · rw [hstate]
      exact h.withBinding hvalue environment symbol
    · exact ((h.withBinding hvalue environment symbol).guaranteeCache _).undisturbed hsame

theorem TrapsAllocated.links (h : TrapsAllocated σ) {source : Cell} (hlinks : Links σ environment symbol source σ') :
    TrapsAllocated σ' := by
  cases hlinks with
  | same _ => exact h
  | linked _ _ _ => exact h
  | share _ hcell _ =>
      refine (h.setCacheValue _ _).setCell ?_ source
      intro t ht
      exact h _ (hcell.trans ht)
  | define _ _ hdefine =>
      have h' := h.guaranteeCache source
      exact h'.defineVariable (h' source) hdefine
  | @merge target targetTrap sourceTrap τ _ htarget hsource _ hsame =>
      have hτ : TrapsAllocated τ := (h.setCacheValue _ _).undisturbed hsame
      have hlt : ∀ {t}, σ.cells target = .compilerCached t → t < τ.free ∧ σ.traps t < τ.free :=
        fun ht => ⟨Nat.lt_of_lt_of_le (h target ht).1 hsame.free_le,
          Nat.lt_of_lt_of_le (h target ht).2 hsame.free_le⟩
      -- every trap leads to the cache it led to, or to that of the target
      have htrap : ∀ {t}, t < τ.free ∧ τ.traps t < τ.free → t < τ.free
          ∧ update τ.traps sourceTrap (σ.traps targetTrap) t < τ.free := by
        intro t ht
        by_cases hs : t = sourceTrap
        · rw [hs, update_self]
          exact ⟨hs ▸ ht.1, (hlt htarget).2⟩
        · rw [update_of_ne hs]
          exact ht
      refine TrapsAllocated.setCell (σ := { τ with
        traps := update τ.traps sourceTrap (σ.traps targetTrap) })
        (fun cell t ht => htrap (hτ cell ht)) (fun {t} ht => ?_) source
      cases ht
      refine htrap ⟨(hlt htarget).1, ?_⟩
      rw [hsame.same.traps]
      exact (hlt htarget).2

theorem TrapsAllocated.unbindVariable1 (h : TrapsAllocated σ) (cell : Cell)
    (frame : Environment) (symbol : Symbol) :
    TrapsAllocated (unbindVariable1 σ cell frame symbol) := by
  have hunbound : Allocated σ .unbound := by
    intro t ht
    cases ht
  unfold Lookup.unbindVariable1
  split
  · exact TrapsAllocated.setCell (σ := { σ with extensions := _ }) h hunbound _
  · exact h.setCell hunbound cell

theorem TrapsAllocated.unbinds (h : TrapsAllocated σ) (hunbinds : Unbinds σ frame symbol cell σ') :
    TrapsAllocated σ' := by
  cases hunbinds with
  | drop _ => exact h.unbindVariable1 cell frame symbol
  | clear _ _ => exact h.setCacheValue _ _
  | move _ _ hsame => exact ((h.unbindVariable1 cell frame symbol).withCache _).undisturbed hsame

theorem TrapsAllocated.addCacheReference (h : TrapsAllocated σ)
    (environment : Environment) (symbol : Symbol) (block : Block) (offset : Nat) (kind : Kind) :
    TrapsAllocated (addCacheReference σ environment symbol block offset kind).state := by
  have hsame := undisturbed_addCacheReference σ environment symbol block offset kind
  cases hfind : (findBindingCell σ environment symbol).1 with
  | some cell =>
      rw [hfind] at hsame
      exact (h.guaranteeCache cell).undisturbed hsame
  | none =>
      rw [hfind] at hsame
      refine TrapsAllocated.undisturbed (fun cell t ht => ?_) hsame
      have := h cell ht
      exact ⟨Nat.lt_add_right 2 this.1, Nat.lt_add_right 2 this.2⟩

theorem TrapsAllocated.perform {σ σ' : State V} (h : TrapsAllocated σ) {operation : Operation V}
    (hperform : perform σ operation = some σ') : TrapsAllocated σ' := by
  cases operation with
  | define environment symbol value =>
      obtain ⟨outcome, hdefine, rfl⟩ := map_eq_some_iff.mp hperform
      exact h.defineVariable (allocated_storable value.2) hdefine
  | assign environment symbol value =>
      cases hperform
      unfold assignVariable
      split
      · exact h
      · exact h.assignVariableEnd _ (allocated_storable value.2) false
  | link targetEnvironment targetSymbol sourceEnvironment sourceSymbol =>
      obtain ⟨outcome, hlink, rfl⟩ := map_eq_some_iff.mp hperform
      obtain ⟨-, hstate⟩ | ⟨source, -, -, -, hlinks⟩ := linkVariables_cases hlink
      · rw [hstate]
        exact h
      · exact h.links hlinks
  | unbind environment symbol =>
      obtain ⟨outcome, hunbind, rfl⟩ := map_eq_some_iff.mp hperform
      obtain hstate | ⟨cell, -, hunbinds⟩ := unbindVariable_cases hunbind
      · rw [hstate]
        exact h
      · exact h.unbinds hunbinds
  | addReference environment symbol block offset kind =>
      cases hperform
      exact h.addCacheReference environment symbol block offset kind
  | collectGarbage dead =>
      cases hperform
      exact h

theorem trapsAllocated_initial (h : Initial σ) : TrapsAllocated σ := by
  intro cell t ht
  have hnone := h.uncached cell
  rw [cellCache_eq_some.mpr ⟨t, ht, rfl⟩] at hnone
  cases hnone

end MitScheme.Lookup
