import MitScheme.Microcode.LookupEffects
import MitScheme.Microcode.LookupOperators

/-!
# When the operations on variables return

Everything but `move_ref_pairs` goes through finite lists. That loop takes a reference out of
one list and puts it at the front of another one; if the two lists are the same, and the
reference was at the front in the first place, the loop finds it again. The two lists are the
same when a binding shadows a variable that it is linked to.
-/

namespace MitScheme.Lookup

open Runs Option Function

variable {V : Type}

/-! ## When `move_ref_pairs` ends -/

/-- The first reference of the name whose block is there is one that is to be moved. -/
def FirstMoves (σ : State V) (cache : Nat) (frame : Environment) (symbol : Symbol) (kind : Kind) :
    Prop :=
  ∃ references block, findReferencesNamed symbol (σ.references cache kind) = some references
    ∧ references.findSome? Reference.block = some block
    ∧ moveRefPairP frame block.environment = true

variable {frame environment : Environment} {fromCache : Nat} {kind : Kind} {symbol : Symbol}
  {σ : State V}

theorem moveRefPairsWithin_some {front : List Reference}
    (hfront : front ≠ []) (references : List Reference) :
    ∃ result, moveRefPairsWithin frame front references = some result := by
  induction references generalizing front with
  | nil => exact ⟨front, rfl⟩
  | cons r references ih =>
      unfold moveRefPairsWithin
      cases r.block with
      | none => exact ih hfront
      | some block =>
          dsimp only
          split
          · exact ih (List.cons_ne_nil _ _)
          · exact ih (by simp)

theorem moveRefPairsWithin_eq_none (references : List Reference) :
    moveRefPairsWithin frame [] references = none
      ↔ ∃ block, references.findSome? Reference.block = some block
        ∧ moveRefPairP frame block.environment = true := by
  induction references with
  | nil => simp [moveRefPairsWithin]
  | cons r references ih =>
      unfold moveRefPairsWithin
      rw [List.findSome?_cons]
      cases hb : r.block with
      | none => exact ih
      | some block =>
          dsimp only
          split
          · rename_i hmove
            simp [hmove]
          · rename_i hmove
            obtain ⟨result, hresult⟩ : ∃ result, moveRefPairsWithin frame [r] references = some result :=
              moveRefPairsWithin_some (List.cons_ne_nil r []) references
            rw [List.nil_append, hresult]
            simp [hmove]

theorem moveRefPairs_eq_none {toCache : Nat} :
    moveRefPairs σ fromCache toCache kind frame symbol = none
      ↔ fromCache = toCache ∧ FirstMoves σ fromCache frame symbol kind := by
  unfold moveRefPairs FirstMoves
  cases hf : findReferencesNamed symbol (σ.references fromCache kind) with
  | none => simp
  | some references =>
      dsimp only
      split
      · rename_i heq
        rw [map_eq_none_iff, moveRefPairsWithin_eq_none]
        simp [heq]
      · rename_i heq
        simp [heq]

theorem references_moveRefPairs {σ' : State V} {toCache : Nat}
    (h : moveRefPairs σ fromCache toCache kind frame symbol = some σ') {k : Kind} (hk : k ≠ kind)
    (c : Nat) : σ'.references c k = σ.references c k := by
  unfold moveRefPairs at h
  split at h
  · cases h
    rfl
  · dsimp only at h
    split at h
    · obtain ⟨result, -, rfl⟩ := map_eq_some_iff.mp h
      rw [installCache_eq]
      change (σ.setReferences _ _ _).references c k = _
      rw [references_setReferences, if_neg fun hc => hk hc.2]
    · cases h
      rw [installCache_eq]
      change ((σ.setReferences _ _ _).setReferences _ _ _).references c k = _
      rw [references_setReferences, if_neg fun hc => hk hc.2, references_setReferences,
        if_neg fun hc => hk hc.2]

theorem firstMoves_congr {σ' : State V} {cache : Nat}
    (h : σ'.references cache kind = σ.references cache kind) (frame : Environment)
    (symbol : Symbol) :
    FirstMoves σ' cache frame symbol kind ↔ FirstMoves σ cache frame symbol kind := by
  unfold FirstMoves
  rw [h]

theorem updateCacheReferences_eq_none {toCell : Option Cell} :
    updateCacheReferences σ fromCache toCell frame symbol = none
      ↔ ∃ cell, toCell = some cell ∧ (guaranteeCache σ cell).2 = fromCache
        ∧ ∃ kind, FirstMoves (guaranteeCache σ cell).1 fromCache frame symbol kind := by
  unfold updateCacheReferences
  cases toCell with
  | none => simp
  | some cell =>
      have hiff : (∃ cell', some cell = some cell' ∧ (guaranteeCache σ cell').2 = fromCache
          ∧ ∃ kind, FirstMoves (guaranteeCache σ cell').1 fromCache frame symbol kind)
          ↔ fromCache = (guaranteeCache σ cell).2
            ∧ ∃ kind, FirstMoves (guaranteeCache σ cell).1 fromCache frame symbol kind := by
        simp [eq_comm]
      rw [hiff]
      dsimp only
      generalize guaranteeCache σ cell = result
      obtain ⟨σ1, toCache⟩ := result
      cases h1 : moveRefPairs σ1 fromCache toCache .lookup frame symbol with
      | none =>
          obtain ⟨heq, hfirst⟩ := moveRefPairs_eq_none.mp h1
          exact ⟨fun _ => ⟨heq, _, hfirst⟩, fun _ => rfl⟩
      | some σ2 =>
          have r1 : ∀ {k}, k ≠ .lookup → (FirstMoves σ2 fromCache frame symbol k
              ↔ FirstMoves σ1 fromCache frame symbol k) := fun hk =>
            firstMoves_congr (references_moveRefPairs h1 hk fromCache) frame symbol
          cases h2 : moveRefPairs σ2 fromCache toCache .assignment frame symbol with
          | none =>
              obtain ⟨heq, hfirst⟩ := moveRefPairs_eq_none.mp h2
              refine ⟨fun _ => ⟨heq, _, (r1 (by decide)).mp hfirst⟩, fun _ => ?_⟩
              simp [h2]
          | some σ3 =>
              have r2 : ∀ {k}, k ≠ .assignment → (FirstMoves σ3 fromCache frame symbol k
                  ↔ FirstMoves σ2 fromCache frame symbol k) := fun hk =>
                firstMoves_congr (references_moveRefPairs h2 hk fromCache) frame symbol
              cases h3 : moveRefPairs σ3 fromCache toCache .operator frame symbol with
              | none =>
                  obtain ⟨heq, hfirst⟩ := moveRefPairs_eq_none.mp h3
                  refine ⟨fun _ => ⟨heq, _,
                    (r1 (by decide)).mp ((r2 (by decide)).mp hfirst)⟩, fun _ => ?_⟩
                  simp [h2, h3]
              | some σ4 =>
                  constructor
                  · intro hnone
                    simp [h2, h3] at hnone
                  · rintro ⟨heq, kind, hfirst⟩
                    cases kind with
                    | lookup => simp [moveRefPairs_eq_none.mpr ⟨heq, hfirst⟩] at h1
                    | assignment =>
                        simp [moveRefPairs_eq_none.mpr ⟨heq, (r1 (by decide)).mpr hfirst⟩] at h2
                    | operator =>
                        simp [moveRefPairs_eq_none.mpr
                          ⟨heq, (r2 (by decide)).mpr ((r1 (by decide)).mpr hfirst)⟩] at h3

/-! ## The operations -/

/-- The variable that a frame shadows has the cache, and its first reference of a kind is to be
moved. -/
def MovesToItself (σ : State V) (frame : Environment) (symbol : Symbol) (cache : Nat) : Prop :=
  shadowedCache σ frame symbol = some cache ∧ ∃ kind, FirstMoves σ cache frame symbol kind

/-- The call does not return. Linking makes a binding that shadows the variable it is linked to,
or a binding is taken away that was linked to the variable it shadows. -/
def Hangs (σ : State V) : Operation V → Prop
  | .link targetEnvironment targetSymbol sourceEnvironment sourceSymbol =>
      targetEnvironment ≠ .null ∧ sourceEnvironment ≠ .null
        ∧ scanFrame σ targetEnvironment targetSymbol true = none
        ∧ ∃ source cache, (findBindingCell σ sourceEnvironment sourceSymbol).1 = some source
          ∧ cellCache σ source = some cache
          ∧ MovesToItself σ targetEnvironment targetSymbol cache
  | .unbind environment symbol =>
      procedureFrameP (findBindingCell σ environment symbol).2 = true
        ∧ ∃ cell cache, (findBindingCell σ environment symbol).1 = some cell
          ∧ cellCache σ cell = some cache
          ∧ (∀ trap, (σ.caches cache).value ≠ .compilerCached trap)
          ∧ (σ.caches cache).value ≠ .unbound
          ∧ MovesToItself σ (findBindingCell σ environment symbol).2 symbol cache
  | _ => False

theorem updateCacheReferences_hangs {toCell : Option Cell} (hfrom : fromCache < σ.free) :
    updateCacheReferences σ fromCache toCell frame symbol = none
      ↔ toCell.bind (cellCache σ) = some fromCache
        ∧ ∃ kind, FirstMoves σ fromCache frame symbol kind := by
  rw [updateCacheReferences_eq_none]
  cases toCell with
  | none => simp
  | some cell =>
      rw [bind_some, cellCache_eq_some]
      by_cases hcached : ∃ t, σ.cells cell = .compilerCached t
      · obtain ⟨t, ht⟩ := hcached
        rw [ht]
        constructor
        · rintro ⟨cell', hcell', hcache, hfirst⟩
          cases hcell'
          rw [guaranteeCache_cached ht] at hcache hfirst
          exact ⟨⟨t, rfl, hcache⟩, hfirst⟩
        · rintro ⟨⟨t', ht', hcache⟩, hfirst⟩
          cases ht'
          refine ⟨cell, rfl, ?_⟩
          rw [guaranteeCache_cached ht]
          exact ⟨hcache, hfirst⟩
      · push Not at hcached
        have hnew := (guaranteeCache_uncached hcached).cache
        constructor
        · rintro ⟨cell', hcell', hcache, -⟩
          cases hcell'
          omega
        · rintro ⟨⟨t, ht, -⟩, -⟩
          exact absurd ht (hcached t)

theorem shadowedCache_lt (h : TrapsAllocated σ) {cache : Nat} (hcache : shadowedCache σ frame symbol = some cache) :
    cache < σ.free := by
  obtain ⟨cell, -, hcell⟩ := bind_eq_some_iff.mp hcache
  obtain ⟨t, ht, rfl⟩ := cellCache_eq_some.mp hcell
  exact (h cell ht).2

theorem defineVariable_eq_none (h : TrapsAllocated σ) {value : Object V} :
    defineVariable σ environment symbol value = none
      ↔ scanFrame σ environment symbol true = none
        ∧ ∃ t, value = .compilerCached t ∧ MovesToItself σ environment symbol (σ.traps t) := by
  unfold defineVariable
  cases hscan : scanFrame σ environment symbol true with
  | some cell => simp
  | none =>
      cases environment with
      | global => cases hscan
      | null => simp [MovesToItself, shadowedCache, parentOf, findBindingCell, scanFrame]
      | procedureFrame n parameters nodup parent =>
          unfold MovesToItself
          dsimp only
          rw [show (findBindingCell σ parent symbol).1.bind (cellCache σ)
            = shadowedCache σ (.procedureFrame n parameters nodup parent) symbol from rfl]
          cases hcache : shadowedCache σ (.procedureFrame n parameters nodup parent) symbol with
          | none => simp
          | some cache =>
              have hlt := shadowedCache_lt h hcache
              rw [map_eq_none_iff, updateCacheReferences_hangs (by exact hlt)]
              rw [bind_some, cellCache_eq_some]
              have hcell : ∀ t, mapToUnassigned value = .compilerCached t
                  ↔ value = .compilerCached t := by
                cases value <;> simp [mapToUnassigned]
              simp only [State.setCell, update_self, hcell, true_and, Option.some.injEq]
              constructor
              · rintro ⟨⟨t, ht, rfl⟩, hfirst⟩
                exact ⟨t, ht, rfl, hfirst⟩
              · rintro ⟨t, ht, rfl, hfirst⟩
                exact ⟨⟨t, ht, rfl⟩, hfirst⟩

theorem firstMoves_newlyCached {cell : Cell} {result : State V × Nat}
    (h : NewlyCached σ cell result) (frame : Environment) (symbol : Symbol) (kind : Kind) :
    ¬ FirstMoves result.1 σ.free frame symbol kind := by
  rintro ⟨references, block, hfind, -, -⟩
  unfold State.references at hfind
  rw [h.caches, update_self] at hfind
  cases hfind

theorem defineVariable_guaranteed_eq_none (h : TrapsAllocated σ) {source : Cell} :
    defineVariable (guaranteeCache σ source).1 environment symbol
        ((guaranteeCache σ source).1.cells source) = none
      ↔ scanFrame σ environment symbol true = none
        ∧ ∃ cache, cellCache σ source = some cache ∧ MovesToItself σ environment symbol cache := by
  rw [defineVariable_eq_none (h.guaranteeCache source)]
  by_cases hcached : ∃ t, σ.cells source = .compilerCached t
  · obtain ⟨t, ht⟩ := hcached
    rw [guaranteeCache_cached ht, cellCache_eq_some.mpr ⟨t, ht, rfl⟩, ht]
    simp
  · push Not at hcached
    have hnew := guaranteeCache_uncached hcached
    constructor
    · rintro ⟨-, t, ht, -, kind, hfirst⟩
      rw [hnew.cells, update_self] at ht
      cases ht
      rw [hnew.traps, update_self] at hfirst
      exact absurd hfirst (firstMoves_newlyCached hnew environment symbol kind)
    · rintro ⟨-, cache, hcache, -⟩
      obtain ⟨t, ht, -⟩ := cellCache_eq_some.mp hcache
      exact absurd ht (hcached t)

theorem linkVariables_eq_none (h : TrapsAllocated σ)
    {targetEnvironment sourceEnvironment : Environment} {targetSymbol sourceSymbol : Symbol} :
    linkVariables σ targetEnvironment targetSymbol sourceEnvironment sourceSymbol = none
      ↔ Hangs σ (.link targetEnvironment targetSymbol sourceEnvironment sourceSymbol) := by
  unfold linkVariables Hangs
  constructor
  · intro hnone
    split at hnone
    · cases hnone
    rename_i hnull
    split at hnone
    · cases hnone
    rename_i source hsource
    split at hnone
    · cases hnone
    dsimp only at hnone
    split at hnone
    · cases hnone
    split at hnone
    · split at hnone
      · split at hnone
        · cases hnone
        · cases hnone
      · cases hnone
    · obtain ⟨hscan, cache, hcache, hmoves⟩ := (defineVariable_guaranteed_eq_none h).mp hnone
      push Not at hnull
      exact ⟨hnull.1, hnull.2, hscan, source, cache, hsource, hcache, hmoves⟩
  · rintro ⟨htarget, hsourceEnv, hscan, source, cache, hsource, hcache, hmoves⟩
    obtain ⟨t, ht, -⟩ := cellCache_eq_some.mp hcache
    have hbound : unboundP (σ.cells source) = false := by
      rw [ht]
      rfl
    rw [if_neg (not_or.mpr ⟨htarget, hsourceEnv⟩), hsource]
    dsimp only
    rw [hbound, hscan]
    exact (defineVariable_guaranteed_eq_none h).mpr ⟨hscan, cache, hcache, hmoves⟩

theorem updateCacheReferences_unbound (h : TrapsAllocated σ) {cell : Cell} {t : Nat} (hframe : procedureFrameP frame = true)
    (hscan : scanFrame σ frame symbol false = some cell) (ht : σ.cells cell = .compilerCached t) :
    updateCacheReferences (unbindVariable1 σ cell frame symbol) (σ.traps t)
        (findBindingCell σ (parentOf frame) symbol).1 frame symbol = none
      ↔ MovesToItself σ frame symbol (σ.traps t) := by
  obtain ⟨hcells, htraps, hcaches, hfree⟩ := unbindVariable1_eq hscan
  rw [updateCacheReferences_hangs (by rw [hfree]; exact (h cell ht).2)]
  have hshadowed : (findBindingCell σ (parentOf frame) symbol).1.bind
        (cellCache (unbindVariable1 σ cell frame symbol))
      = shadowedCache σ frame symbol := by
    unfold shadowedCache
    cases hs : (findBindingCell σ (parentOf frame) symbol).1 with
    | none => rfl
    | some shadowed =>
        have hne := shadowed_ne hframe hscan hs
        rw [bind_some, bind_some]
        unfold cellCache
        rw [hcells, update_of_ne hne, htraps]
  have hfirst : ∀ kind, FirstMoves (unbindVariable1 σ cell frame symbol) (σ.traps t) frame symbol
      kind ↔ FirstMoves σ (σ.traps t) frame symbol kind := by
    refine fun kind => firstMoves_congr ?_ frame symbol
    unfold State.references
    rw [hcaches]
  rw [hshadowed]
  simp only [hfirst]
  rfl

theorem unbindVariable_eq_none (h : TrapsAllocated σ) :
    unbindVariable σ environment symbol = none ↔ Hangs σ (.unbind environment symbol) := by
  unfold unbindVariable Hangs
  cases hfind : (findBindingCell σ environment symbol).1 with
  | none => simp [hfind]
  | some cell =>
      have hscan := (find_some hfind).1
      dsimp only
      rw [hfind]
      generalize (findBindingCell σ environment symbol).2 = frame at hscan ⊢
      dsimp only
      constructor
      · intro hnone
        split at hnone
        · cases hnone
        · rename_i t ht
          split at hnone
          · cases hnone
          · cases hnone
          rename_i hunbound htrap
          split at hnone
          · rw [map_eq_none_iff] at hnone
            exact ⟨rfl, cell, σ.traps t, rfl, cellCache_eq_some.mpr ⟨t, ht, rfl⟩, htrap, hunbound,
              (updateCacheReferences_unbound h rfl hscan ht).mp hnone⟩
          · cases hnone
        · cases hnone
      · rintro ⟨hframe, cell', cache, hcell, hcache, htrap, hunbound, hmoves⟩
        cases hcell
        obtain ⟨t, ht, rfl⟩ := cellCache_eq_some.mp hcache
        cases frame with
        | global | null => cases hframe
        | procedureFrame n parameters nodup parent =>
            rw [ht]
            dsimp only
            split
            · rename_i heq
              exact absurd heq hunbound
            · rename_i heq
              exact absurd heq (htrap _)
            · rw [map_eq_none_iff]
              exact (updateCacheReferences_unbound h rfl hscan ht).mpr hmoves

theorem perform_eq_none (h : TrapsAllocated σ) (operation : Operation V) :
    perform σ operation = none ↔ Hangs σ operation := by
  unfold perform
  cases operation with
  | define environment symbol value =>
      rw [map_eq_none_iff, defineVariable_eq_none h]
      constructor
      · rintro ⟨-, t, ht, -⟩
        exact absurd value.2 (by rw [ht]; exact id)
      · exact fun hfalse => absurd hfalse id
  | assign environment symbol value
  | addReference environment symbol block offset kind
  | collectGarbage dead => simp [Hangs]
  | link targetEnvironment targetSymbol sourceEnvironment sourceSymbol =>
      rw [map_eq_none_iff, linkVariables_eq_none h]
  | unbind environment symbol => rw [map_eq_none_iff, unbindVariable_eq_none h]

/-- A frame without bindings, in the global environment. -/
def innerFrame : Environment := .procedureFrame 0 [] List.nodup_nil .global

def innerBlock : Block := ⟨0, innerFrame, by decide⟩

/-- A global variable, which compiled code in the frame refers to. -/
def innerState : State Nat :=
  (addCacheReference (startState.setCell (.global "x") (.datum 1)) innerFrame "x" innerBlock 0
    .lookup).state

theorem reaches_innerState : Reaches perform (fun _ _ => True) startState innerState := by
  have h1 : Reaches perform (fun _ _ => True) startState
      (startState.setCell (.global "x") (.datum 1)) :=
    .next (a := .define .global "x" ⟨.datum 1, trivial⟩) .start trivial rfl
  exact .next (a := .addReference innerFrame "x" innerBlock 0 .lookup) h1 trivial rfl

end MitScheme.Lookup
