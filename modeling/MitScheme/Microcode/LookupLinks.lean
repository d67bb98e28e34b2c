import MitScheme.Microcode.LookupEffects
import MitScheme.Microcode.LookupOperators

/-!
# Linked variables

`link_variables` makes two variables one location: they have one cache. If both have caches
when they are linked, the trap of the source is redirected to the cache of the target, and so
are all variables that hold this very trap. A variable with the same cache, but another trap,
is left behind.
-/

namespace MitScheme.Lookup

open Runs Option Function
open Function (update)

variable {V : Type}

/-- A symbol in an environment. -/
abbrev Variable := Environment × Symbol

/-- The cell of a variable. -/
def variableCell (σ : State V) (v : Variable) : Option Cell := (findBindingCell σ v.1 v.2).1

/-- A state, and the links that were made, the target of each first. -/
structure Linked (V : Type) where
  state : State V
  links : List (Variable × Variable)

/-- The state after an operation, and whether it has made a link. -/
def performLinked (s : Linked V) : Operation V → Option (Linked V)
  | .link targetEnvironment targetSymbol sourceEnvironment sourceSymbol =>
      (linkVariables s.state targetEnvironment targetSymbol sourceEnvironment sourceSymbol).map
        fun outcome =>
          ⟨outcome.state,
            if outcome.code = .primDone then
              ((targetEnvironment, targetSymbol), (sourceEnvironment, sourceSymbol)) :: s.links
            else s.links⟩
  | operation => (perform s.state operation).map fun σ => ⟨σ, s.links⟩

/-- The variable is the target or the source of a link. -/
def IsLinked (links : List (Variable × Variable)) (v : Variable) : Prop :=
  ∃ w, (v, w) ∈ links ∨ (w, v) ∈ links

/-- The variables are connected by a chain of links. -/
def Connected (links : List (Variable × Variable)) : Variable → Variable → Prop :=
  Relation.TransGen fun v w => (v, w) ∈ links ∨ (w, v) ∈ links

/-- No linked variable is unbound, or shadowed. -/
def KeepsLinked (s : Linked V) (operation : Operation V) : Prop :=
  (∀ s', performLinked s operation = some s' → ∀ v, IsLinked s.links v →
    variableCell s'.state v = variableCell s.state v)
  ∧ ∀ environment symbol, operation = .unbind environment symbol → ∀ v, IsLinked s.links v →
    variableCell s.state v ≠ variableCell s.state (environment, symbol)

/-- If both variables have caches, the linked variables that have the cache of the source hold
its trap. -/
def SharesTrap (s : Linked V) : Operation V → Prop
  | .link targetEnvironment targetSymbol sourceEnvironment sourceSymbol =>
      ∀ {target source targetTrap sourceTrap},
        scanFrame s.state targetEnvironment targetSymbol true = some target →
        variableCell s.state (sourceEnvironment, sourceSymbol) = some source →
        s.state.cells target = .compilerCached targetTrap →
        s.state.cells source = .compilerCached sourceTrap →
        s.state.traps sourceTrap ≠ s.state.traps targetTrap →
        ∀ {v cell}, IsLinked s.links v → variableCell s.state v = some cell →
          cellCache s.state cell = some (s.state.traps sourceTrap) →
          s.state.cells cell = .compilerCached sourceTrap
  | _ => True

/-- The cells are one, or have one cache. -/
def SameLocation (σ : State V) (cell cell' : Cell) : Prop :=
  cell = cell' ∨ ∃ cache, cellCache σ cell = some cache ∧ cellCache σ cell' = some cache

theorem SameLocation.symm {σ : State V} {c c' : Cell} (h : SameLocation σ c c') :
    SameLocation σ c' c :=
  h.imp Eq.symm fun ⟨cache, hc, hc'⟩ => ⟨cache, hc', hc⟩

variable {σ σ' : State V} {v : Variable} {S : Cell → Prop} {cell source : Cell} {symbol : Symbol}
  {environment : Environment}

theorem SameLocation.trans {c c' c'' : Cell} (h : SameLocation σ c c')
    (h' : SameLocation σ c' c'') : SameLocation σ c c'' := by
  obtain rfl | ⟨cache, hc, hc'⟩ := h
  · exact h'
  · obtain rfl | ⟨cache', h1, h2⟩ := h'
    · exact .inr ⟨cache, hc, hc'⟩
    · rw [hc'] at h1
      cases h1
      exact .inr ⟨cache, hc, h2⟩

/-- The variables are bound, and are one location. -/
def OneLocation (σ : State V) (v w : Variable) : Prop :=
  ∃ cell cell', variableCell σ v = some cell ∧ variableCell σ w = some cell'
    ∧ SameLocation σ cell cell'

theorem OneLocation.symm {σ : State V} {v w : Variable} (h : OneLocation σ v w) :
    OneLocation σ w v := by
  obtain ⟨cell, cell', hv, hw, hsame⟩ := h
  exact ⟨cell', cell, hw, hv, hsame.symm⟩

theorem OneLocation.trans {σ : State V} {u v w : Variable} (h : OneLocation σ u v)
    (h' : OneLocation σ v w) : OneLocation σ u w := by
  obtain ⟨cell, cell', hu, hv, hsame⟩ := h
  obtain ⟨cell1, cell2, hv', hw, hsame'⟩ := h'
  rw [hv] at hv'
  cases hv'
  exact ⟨cell, cell2, hu, hw, hsame.trans hsame'⟩

/-- Every link still holds. -/
structure LinksHold (s : Linked V) : Prop where
  allocated : TrapsAllocated s.state
  link : ∀ {v w}, (v, w) ∈ s.links → OneLocation s.state v w

theorem LinksHold.connected {s : Linked V} (h : LinksHold s) {w : Variable}
    (hvw : Connected s.links v w) : OneLocation s.state v w := by
  induction hvw with
  | single hlink => exact hlink.elim h.link fun hlink => (h.link hlink).symm
  | tail _ hlink ih => exact ih.trans (hlink.elim h.link fun hlink => (h.link hlink).symm)

/-! ## Steps -/

/-- Wherever caches go, those of these cells go together. -/
def GoTogether (S : Cell → Prop) (σ σ' : State V) : Prop :=
  ∃ f : Nat → Nat, ∀ cell cache, S cell → cellCache σ cell = some cache →
    cellCache σ' cell = some (f cache)

/-- The caches of these cells are left alone. -/
def Stay (S : Cell → Prop) (σ σ' : State V) : Prop :=
  ∀ cell cache, S cell → cellCache σ cell = some cache → cellCache σ' cell = some cache

theorem Stay.goTogether (h : Stay S σ σ') :
    GoTogether S σ σ' := ⟨id, h⟩

theorem Stay.trans {σ'' : State V} (h : Stay S σ σ')
    (h' : Stay S σ' σ'') : Stay S σ σ'' := fun cell cache hS hc => h' cell cache hS (h cell cache hS hc)

theorem Undisturbed.stay (h : Undisturbed σ σ') (S : Cell → Prop) :
    Stay S σ σ' := fun cell _ _ hc => (h.same.cellCache cell).trans hc

theorem stay_setCell (h : S cell → ∀ t, σ.cells cell ≠ .compilerCached t) (v : Object V) :
    Stay S σ (σ.setCell cell v) := by
  intro cell' cache hS hc
  rw [cellCache_setCell_ne]
  · exact hc
  · rintro rfl
    obtain ⟨t, ht, -⟩ := cellCache_eq_some.mp hc
    exact h hS t ht

theorem stay_guaranteeCache (h : TrapsAllocated σ) (S : Cell → Prop) (cell : Cell) :
    Stay S σ (guaranteeCache σ cell).1 := by
  by_cases hcached : ∃ t, σ.cells cell = .compilerCached t
  · obtain ⟨t, ht⟩ := hcached
    rw [guaranteeCache_cached ht]
    exact fun _ _ _ hc => hc
  · push Not at hcached
    have hnew := guaranteeCache_uncached hcached
    intro cell' cache _ hc
    obtain ⟨t, ht, rfl⟩ := cellCache_eq_some.mp hc
    have hne : cell' ≠ cell := by
      rintro rfl
      exact hcached t ht
    have hlt := (h cell' ht).1
    refine cellCache_eq_some.mpr ⟨t, ?_, ?_⟩
    · rw [hnew.cells, update_of_ne hne, ht]
    · rw [hnew.traps, update_of_ne (by omega)]

theorem stay_withCache (h : TrapsAllocated σ) (S : Cell → Prop)
    (toCell : Option Cell) : Stay S σ (withCache σ toCell) := by
  cases toCell with
  | none => exact fun _ _ _ hc => hc
  | some cell => exact stay_guaranteeCache h S cell

theorem stay_assignVariableEnd (S : Cell → Prop) (σ : State V) (cell : Cell) (value : Object V)
    (forceP : Bool) : Stay S σ (assignVariableEnd σ cell value forceP).state := by
  obtain ⟨-, hstate⟩ | ⟨-, huncached, hstate⟩ | ⟨-, t, -, hsame⟩ :=
    assignVariableEnd_cases σ cell value forceP
  · rw [hstate]
    exact fun _ _ _ hc => hc
  · rw [hstate]
    exact stay_setCell (fun _ => huncached) _
  · exact Stay.trans (fun _ _ _ hc => hc) (hsame.stay S)

/-- The cells of the linked variables. -/
def LinkedCell (s : Linked V) (cell : Cell) : Prop :=
  ∃ v, IsLinked s.links v ∧ variableCell s.state v = some cell

theorem ne_of_absent {frame : Environment} (hv : variableCell σ v = some cell) (hframe : procedureFrameP frame = true)
    (habsent : scanFrame σ frame symbol true = none) : cell ≠ .extension frame symbol := by
  rintro rfl
  have hscan := (find_some hv).1
  have hnow : scanFrame (withBinding σ frame symbol .unbound) frame symbol false
      = some (.extension frame symbol) := scan_withBinding hframe
  obtain ⟨he, hs⟩ := scanFrame_injective hnow hscan
  rw [he, hs, (scanFrame_none hframe habsent).2.2] at hscan
  cases hscan

theorem stay_defineVariable (h : TrapsAllocated σ) {value : Object V} (hvalue : Allocated σ value)
    (hS : ∀ {cell}, S cell → ∃ v, variableCell σ v = some cell) {outcome : Outcome V Unit}
    (hdefine : defineVariable σ environment symbol value = some outcome) :
    Stay S σ outcome.state := by
  obtain ⟨-, hstate⟩ | ⟨cell, -, -, hstate⟩ | ⟨-, hextends⟩ := defineVariable_cases hdefine
  · rw [hstate]
    exact fun _ _ _ hc => hc
  · rw [hstate]
    exact stay_assignVariableEnd S σ cell value true
  · have hbinding : Stay S σ (withBinding σ environment symbol (mapToUnassigned value)) := by
      intro cell cache hcell hc
      rw [cellCache_withBinding_ne]
      · exact hc
      · obtain ⟨v, hv⟩ := hS hcell
        exact ne_of_absent hv hextends.procedureFrame hextends.absent
    obtain ⟨-, hstate⟩ | ⟨-, hsame⟩ := hextends.effect
    · rw [hstate]
      exact hbinding
    · exact (hbinding.trans (stay_guaranteeCache (h.withBinding hvalue _ _) S _)).trans
        (hsame.stay S)

theorem stay_unbinds (h : TrapsAllocated σ) {frame : Environment}
    (hscan : scanFrame σ frame symbol false = some cell) (hS : ¬ S cell)
    (hunbinds : Unbinds σ frame symbol cell σ') : Stay S σ σ' := by
  have heq := unbindVariable1_eq hscan
  have hdrop : Stay S σ (unbindVariable1 σ cell frame symbol) := by
    intro cell' cache hcell hc
    obtain ⟨t, ht, rfl⟩ := cellCache_eq_some.mp hc
    refine cellCache_eq_some.mpr ⟨t, ?_, by rw [heq.2.1]⟩
    rw [heq.1, update_of_ne, ht]
    rintro rfl
    exact hS hcell
  cases hunbinds with
  | drop _ => exact hdrop
  | clear _ _ => exact fun _ _ _ hc => hc
  | move _ _ hsame =>
      exact (hdrop.trans (stay_withCache (h.unbindVariable1 cell frame symbol) S _)).trans (hsame.stay _)

theorem variableCell_guaranteeCache (h : unboundP (σ.cells cell) = false) (v : Variable) :
    variableCell (guaranteeCache σ cell).1 v = variableCell σ v := by
  unfold variableCell
  rw [find_congr fun e => scanFrame_guaranteeCache h e v.2 false]

theorem goTogether_links (h : TrapsAllocated σ) (hbound : unboundP (σ.cells source) = false)
    (hS : ∀ {cell}, S cell → ∃ v, variableCell σ v = some cell)
    (hshares : ∀ {target targetTrap sourceTrap},
      scanFrame σ environment symbol true = some target →
      σ.cells target = .compilerCached targetTrap → σ.cells source = .compilerCached sourceTrap →
      σ.traps sourceTrap ≠ σ.traps targetTrap →
      ∀ {cell}, S cell → cellCache σ cell = some (σ.traps sourceTrap) →
        σ.cells cell = .compilerCached sourceTrap)
    (hlinks : Links σ environment symbol source σ') : GoTogether S σ σ' := by
  cases hlinks with
  | same _ | linked _ _ _ => exact Stay.goTogether fun _ _ _ hc => hc
  | share _ _ huncached => exact (stay_setCell (σ := σ.setCacheValue _ _)
      (fun _ => huncached) _).goTogether
  | define _ _ hdefine =>
      have h1 := stay_guaranteeCache h S source
      have h' := h.guaranteeCache source
      refine (h1.trans (stay_defineVariable h' (h' source) (fun hcell => ?_) hdefine)).goTogether
      obtain ⟨v, hv⟩ := hS hcell
      exact ⟨v, (variableCell_guaranteeCache hbound v).trans hv⟩
  | @merge target targetTrap sourceTrap τ hscan htarget hsource hne hsame =>
      have htraps : τ.traps = σ.traps := hsame.same.traps
      have hcells : τ.cells = σ.cells := hsame.same.cells
      refine ⟨update id (σ.traps sourceTrap) (σ.traps targetTrap), ?_⟩
      intro cell cache hcell hc
      obtain ⟨t, ht, rfl⟩ := cellCache_eq_some.mp hc
      rw [cellCache_eq_some]
      change ∃ t', update τ.cells source _ cell = _
        ∧ update τ.traps sourceTrap _ t' = _
      by_cases heq : cell = source
      · subst heq
        rw [hsource] at ht
        cases ht
        have htt : targetTrap ≠ sourceTrap := by
          rintro rfl
          exact hne rfl
        refine ⟨targetTrap, update_self .., ?_⟩
        rw [update_of_ne htt, update_self, htraps]
      · rw [update_of_ne heq, hcells]
        refine ⟨t, ht, ?_⟩
        by_cases hcache : σ.traps t = σ.traps sourceTrap
        · -- the variable has the cache of the source, so it holds its trap
          have hst := hshares hscan htarget hsource hne hcell (hcache ▸ hc)
          rw [ht] at hst
          cases hst
          rw [update_self, update_self]
        · have hts : t ≠ sourceTrap := by
            rintro rfl
            exact hcache rfl
          rw [update_of_ne hts, update_of_ne hcache, htraps]
          rfl

theorem variableCell_visible (h : scanFrame σ environment symbol true = some cell)
    (hext : σ'.extensions = σ.extensions) (hb : unboundP (σ'.cells cell) = false) :
    variableCell σ' (environment, symbol) = some cell := by
  unfold variableCell
  rw [find_frame_some (scanFrame_visible h hext hb)]

theorem variableCell_rewritten {o : Object V}
    (hbound : unboundP (σ.cells cell) = false) (ho : unboundP o = false)
    (hcells : σ'.cells = update σ.cells cell o)
    (hext : σ'.extensions = σ.extensions) (v : Variable) :
    variableCell σ' v = variableCell σ v := by
  refine congrArg Prod.fst (find_congr (fun e => scanFrame_congr (by rw [hext]) fun i => ?_) v.1)
  rw [hcells]
  by_cases hc : Cell.argument e i = cell
  · rw [hc, update_self, hbound, ho]
  · rw [update_of_ne hc]

theorem oneLocation_defined {targetEnvironment : Environment} {targetSymbol : Symbol} {t : Nat}
    (hv : variableCell σ v = some source) (hsource : σ.cells source = .compilerCached t)
    (hnull : targetEnvironment ≠ .null)
    (hne : scanFrame σ targetEnvironment targetSymbol true ≠ some source)
    (huncached : ∀ target t, scanFrame σ targetEnvironment targetSymbol true = some target →
      σ.cells target ≠ .compilerCached t) {outcome : Outcome V Unit}
    (hdefine : defineVariable σ targetEnvironment targetSymbol (.compilerCached t)
      = some outcome) : OneLocation outcome.state (targetEnvironment, targetSymbol) v := by
  -- the new variable is found, or what was found before
  have hfound : ∀ {σ' : State V} {target}, target ≠ source →
      scanFrame σ' targetEnvironment targetSymbol false = some target →
      (∀ e s, ¬ (e = targetEnvironment ∧ s = targetSymbol) →
        scanFrame σ' e s false = scanFrame σ e s false) →
      σ'.cells target = .compilerCached t → σ'.cells source = .compilerCached t →
      OneLocation σ' (targetEnvironment, targetSymbol) v := by
    intro σ' target htarget hnow hother hcell hcell'
    have hfind : variableCell σ' (targetEnvironment, targetSymbol) = some target := by
      unfold variableCell
      rw [find_frame_some hnow]
    obtain hcase | hcase := find_of_binding hnow hother v.1 v.2
    · exact ⟨target, target, hfind, hcase, .inl rfl⟩
    · refine ⟨target, source, hfind, ?_, .inr ⟨σ'.traps t, ?_, ?_⟩⟩
      · unfold variableCell
        rw [hcase]
        exact hv
      · exact cellCache_eq_some.mpr ⟨t, hcell, rfl⟩
      · exact cellCache_eq_some.mpr ⟨t, hcell', rfl⟩
  obtain ⟨hnull', -⟩ | ⟨target, hscan, -, hstate⟩ | ⟨-, hextends⟩ := defineVariable_cases hdefine
  · exact absurd hnull' hnull
  · have htarget : target ≠ source := by
      rintro rfl
      exact hne hscan
    rw [hstate, assignVariableEnd_forced (huncached target · hscan)]
    refine hfound htarget (scanFrame_visible hscan rfl ?_)
      (fun e s hes => scanFrame_setCell hscan _ hes false) (update_self ..) ?_
    · change unboundP (update σ.cells target _ target) = false
      rw [update_self]
      rfl
    · exact (update_of_ne htarget.symm ..).trans hsource
  · have hcell : (withBinding σ targetEnvironment targetSymbol (.compilerCached t)).cells
        (.extension targetEnvironment targetSymbol) = .compilerCached t := update_self ..
    have hnow : scanFrame (withBinding σ targetEnvironment targetSymbol (.compilerCached t))
        targetEnvironment targetSymbol false = some (.extension targetEnvironment targetSymbol) :=
      scan_withBinding hextends.procedureFrame
    have hsource' := ne_of_absent hv hextends.procedureFrame hextends.absent
    have hsame : Undisturbed (withBinding σ targetEnvironment targetSymbol (.compilerCached t))
        outcome.state := by
      obtain ⟨-, hstate⟩ | ⟨-, hsame⟩ := hextends.effect
      · rw [hstate]
        exact Undisturbed.refl _
      · change Undisturbed (guaranteeCache (withBinding σ targetEnvironment targetSymbol
          (.compilerCached t)) (.extension targetEnvironment targetSymbol)).1 _ at hsame
        rw [guaranteeCache_cached hcell] at hsame
        exact hsame
    refine hfound hsource'.symm ((hsame.same.scanFrame ..).trans hnow) (fun e s hes => ?_) ?_ ?_
    · rw [hsame.same.scanFrame]
      exact scan_withBinding_ne hes
    · rw [hsame.same.cells]
      exact hcell
    · rw [hsame.same.cells]
      exact (update_of_ne hsource' ..).trans hsource

theorem oneLocation_links {targetEnvironment : Environment} {targetSymbol : Symbol}
    (hv : variableCell σ v = some source) (hbound : unboundP (σ.cells source) = false)
    (hnull : targetEnvironment ≠ .null)
    (hlinks : Links σ targetEnvironment targetSymbol source σ') :
    OneLocation σ' (targetEnvironment, targetSymbol) v := by
  have hcached : ∀ {τ : State V} {cell t}, τ.cells cell = .compilerCached t →
      unboundP (τ.cells cell) = false := by
    intro τ cell t ht
    rw [ht]
    rfl
  cases hlinks with
  | same hscan => exact ⟨source, source, variableCell_visible hscan rfl hbound, hv, .inl rfl⟩
  | linked hscan htarget hsource =>
      obtain ⟨t, ht, -⟩ := cellCache_eq_some.mp htarget
      exact ⟨_, source, variableCell_visible hscan rfl (hcached ht), hv,
        .inr ⟨_, htarget, hsource⟩⟩
  | @share target targetTrap hscan htarget huncached =>
      have hne : target ≠ source := by
        rintro rfl
        exact huncached _ htarget
      have hcell : update σ.cells source (.compilerCached targetTrap) target
          = .compilerCached targetTrap := (update_of_ne hne ..).trans htarget
      refine ⟨target, source, ?_, ?_, .inr ⟨σ.traps targetTrap, ?_, ?_⟩⟩
      · exact variableCell_visible hscan rfl (hcached hcell)
      · exact (variableCell_rewritten (o := .compilerCached targetTrap) hbound rfl (by rfl) (by rfl)
          v).trans hv
      · exact cellCache_eq_some.mpr ⟨targetTrap, hcell, rfl⟩
      · exact cellCache_eq_some.mpr ⟨targetTrap, update_self .., rfl⟩
  | @merge target targetTrap sourceTrap τ hscan htarget hsource hcaches hsame =>
      have hne : target ≠ source := by
        rintro rfl
        rw [htarget] at hsource
        cases hsource
        exact hcaches rfl
      have htt : targetTrap ≠ sourceTrap := by
        rintro rfl
        exact hcaches rfl
      have hcells : τ.cells = σ.cells := hsame.same.cells
      have hcell : update τ.cells source (.compilerCached targetTrap) target
          = .compilerCached targetTrap := by
        rw [update_of_ne hne, hcells, htarget]
      refine ⟨target, source, ?_, ?_, .inr ⟨τ.traps targetTrap, ?_, ?_⟩⟩
      · exact variableCell_visible hscan hsame.same.extensions (hcached hcell)
      · refine (variableCell_rewritten (o := .compilerCached targetTrap) hbound rfl ?_ ?_ v).trans hv
        · exact congrArg (update · source _) hcells
        · exact hsame.same.extensions
      · exact cellCache_eq_some.mpr ⟨targetTrap, hcell, update_of_ne htt ..⟩
      · exact cellCache_eq_some.mpr
          ⟨targetTrap, update_self .., update_of_ne htt ..⟩
  | define hne huncached hdefine =>
      have hscan := fun e s p => scanFrame_guaranteeCache hbound e s p
      obtain ⟨t, ht⟩ : ∃ t, (guaranteeCache σ source).1.cells source = .compilerCached t := by
        by_cases hc : ∃ t, σ.cells source = .compilerCached t
        · obtain ⟨t, ht⟩ := hc
          rw [guaranteeCache_cached ht]
          exact ⟨t, ht⟩
        · push Not at hc
          rw [(guaranteeCache_uncached hc).cells]
          exact ⟨_, update_self ..⟩
      rw [ht] at hdefine
      refine oneLocation_defined ((variableCell_guaranteeCache hbound v).trans hv) ht hnull
        (by rw [hscan]; exact hne) (fun target t' htarget hcell => ?_) hdefine
      rw [hscan] at htarget
      have htne : target ≠ source := by
        rintro rfl
        exact hne htarget
      refine huncached target t' htarget ?_
      by_cases hc : ∃ t, σ.cells source = .compilerCached t
      · obtain ⟨t, ht⟩ := hc
        rw [guaranteeCache_cached ht] at hcell
        exact hcell
      · push Not at hc
        rw [(guaranteeCache_uncached hc).cells, update_of_ne htne] at hcell
        exact hcell

theorem LinksHold.step {s s' : Linked V} (h : LinksHold s) {operation : Operation V}
    (hkeeps : KeepsLinked s operation) (hshares : SharesTrap s operation)
    (hstep : performLinked s operation = some s') : LinksHold s' := by
  have hfind := hkeeps.1 s' hstep
  have hS : ∀ {cell}, LinkedCell s cell → ∃ v, variableCell s.state v = some cell :=
    fun ⟨v, _, hv⟩ => ⟨v, hv⟩
  -- links that were there before hold if the caches of linked variables go together
  have hold : GoTogether (LinkedCell s) s.state s'.state → ∀ {v w}, (v, w) ∈ s.links →
      OneLocation s'.state v w := by
    rintro ⟨f, hf⟩ v w hlink
    obtain ⟨cell, cell', hv, hw, hsame⟩ := h.link hlink
    have hlv : IsLinked s.links v := ⟨w, .inl hlink⟩
    have hlw : IsLinked s.links w := ⟨v, .inr hlink⟩
    refine ⟨cell, cell', (hfind v hlv).trans hv, (hfind w hlw).trans hw, hsame.imp_right ?_⟩
    rintro ⟨cache, hc, hc'⟩
    exact ⟨f cache, hf cell cache ⟨v, hlv, hv⟩ hc, hf cell' cache ⟨w, hlw, hw⟩ hc'⟩
  have hperform : ∀ σ', perform s.state operation = some σ' → TrapsAllocated σ' :=
    fun σ' hσ' => h.allocated.perform hσ'
  cases operation with
  | define environment symbol value =>
      obtain ⟨σ', hσ', rfl⟩ := map_eq_some_iff.mp hstep
      refine ⟨hperform σ' hσ', hold (Stay.goTogether ?_)⟩
      obtain ⟨outcome, hdefine, rfl⟩ := map_eq_some_iff.mp hσ'
      exact stay_defineVariable h.allocated (allocated_storable value.2) hS hdefine
  | assign environment symbol value =>
      cases hstep
      refine ⟨hperform _ rfl, hold (Stay.goTogether ?_)⟩
      unfold assignVariable
      split
      · exact fun _ _ _ hc => hc
      · exact stay_assignVariableEnd (LinkedCell s) s.state _ value.1 false
  | link targetEnvironment targetSymbol sourceEnvironment sourceSymbol =>
      obtain ⟨outcome, hlink, rfl⟩ := map_eq_some_iff.mp hstep
      have halloc : TrapsAllocated outcome.state :=
        hperform _ (map_eq_some_iff.mpr ⟨outcome, hlink, rfl⟩)
      obtain ⟨hcode, hstate⟩ | ⟨source, hsource, hbound, hnull, hlinks⟩ :=
        linkVariables_cases hlink
      · refine ⟨halloc, fun {v w} hvw => ?_⟩
        rw [if_neg hcode] at hvw
        refine hold (Stay.goTogether ?_) hvw
        rw [hstate]
        exact fun _ _ _ hc => hc
      · have htogether : GoTogether (LinkedCell s) s.state outcome.state :=
          goTogether_links h.allocated hbound hS
            (fun h1 h2 h3 h4 _ ⟨v, hv, hv'⟩ hc => hshares h1 hsource h2 h3 h4 hv hv' hc) hlinks
        refine ⟨halloc, fun {v w} hvw => ?_⟩
        split at hvw
        · rcases List.mem_cons.mp hvw with heq | hvw
          · cases heq
            exact oneLocation_links hsource hbound hnull hlinks
          · exact hold htogether hvw
        · exact hold htogether hvw
  | unbind environment symbol =>
      obtain ⟨σ', hσ', rfl⟩ := map_eq_some_iff.mp hstep
      refine ⟨hperform σ' hσ', hold (Stay.goTogether ?_)⟩
      obtain ⟨outcome, hunbind, rfl⟩ := map_eq_some_iff.mp hσ'
      obtain hstate | ⟨cell, hcell, hunbinds⟩ := unbindVariable_cases hunbind
      · rw [hstate]
        exact fun _ _ _ hc => hc
      · -- the cell that is unbound is not that of a linked variable
        have hne : ¬ LinkedCell s cell := by
          rintro ⟨v, hv, hv'⟩
          exact hkeeps.2 environment symbol rfl v hv (hv'.trans hcell.symm)
        exact stay_unbinds h.allocated (find_some hcell).1 hne hunbinds
  | addReference environment symbol block offset kind =>
      cases hstep
      refine ⟨hperform _ rfl, hold (Stay.goTogether ?_)⟩
      have hsame := undisturbed_addCacheReference s.state environment symbol block offset kind
      split at hsame
      · exact (stay_guaranteeCache h.allocated _ _).trans (hsame.stay _)
      · exact Stay.trans (fun _ _ _ hc => hc) (hsame.stay _)
  | collectGarbage dead =>
      cases hstep
      exact ⟨hperform _ rfl, hold (Stay.goTogether fun _ _ _ hc => hc)⟩

/-! ## Reading and writing -/

/-- What `lookup_variable` returns for the value of a variable. -/
def lookupResult : Object V → ReturnCode × Option (Object V)
  | .datum v => (.primDone, some (.datum v))
  | .externalUnassigned => (.primDone, some .externalUnassigned)
  | .unassigned => (.errUnassignedVariable, none)
  | .unbound => (.errUnboundVariable, none)
  | .macroBinding m => (.errMacroBinding, some (.macroBinding m))
  | .compilerCached _ => (.errIllegalReferenceTrap, none)

theorem lookupVariable_eq (h : variableCell σ v = some cell) :
    lookupVariable σ v.1 v.2 = lookupResult (cellValue σ cell) := by
  have hnull : v.1 ≠ .null := by
    intro hnull
    unfold variableCell at h
    rw [hnull] at h
    cases h
  unfold lookupVariable
  rw [if_neg hnull, show (findBindingCell σ v.1 v.2).1 = some cell from h]
  dsimp only
  unfold cellValue
  cases hcell : σ.cells cell with
  | compilerCached t =>
      unfold lookupVariableCache
      cases (σ.caches (σ.traps t)).value <;> rfl
  | datum v | externalUnassigned | unassigned | unbound | macroBinding m => rfl

theorem cellValue_of_cache {cache : Nat}
    (h : cellCache σ cell = some cache) : cellValue σ cell = (σ.caches cache).value := by
  obtain ⟨t, ht, rfl⟩ := cellCache_eq_some.mp h
  unfold cellValue
  rw [ht]

theorem SameLocation.value {σ : State V} {cell cell' : Cell} (h : SameLocation σ cell cell') :
    cellValue σ cell = cellValue σ cell' := by
  obtain rfl | ⟨cache, hc, hc'⟩ := h
  · rfl
  · rw [cellValue_of_cache hc, cellValue_of_cache hc']

theorem assignVariableEnd_bound {value : Object V}
    (h : (assignVariableEnd σ cell value false).code = .primDone) :
    unboundP (σ.cells cell) = false := by
  cases hcell : σ.cells cell with
  | unbound =>
      unfold assignVariableEnd at h
      rw [hcell] at h
      cases h
  | compilerCached t | datum v | externalUnassigned | unassigned | macroBinding m => rfl

theorem cellValue_setCell {value : Object V} (h : Storable value) :
    cellValue (σ.setCell cell (mapToUnassigned value)) cell = mapToUnassigned value := by
  unfold cellValue
  rw [show (σ.setCell cell (mapToUnassigned value)).cells cell = mapToUnassigned value
    from update_self ..]
  cases value with
  | compilerCached t | unbound => exact absurd h id
  | datum v | externalUnassigned | unassigned | macroBinding m => rfl

theorem OneLocation.assigned {w : Variable} (h : OneLocation σ v w)
    {value : Object V} (hvalue : Storable value)
    (hdone : (assignVariable σ v.1 v.2 value).code = .primDone) :
    lookupVariable (assignVariable σ v.1 v.2 value).state w.1 w.2
      = lookupResult (mapToUnassigned value) := by
  obtain ⟨cell, cell', hv, hw, hsame⟩ := h
  have hassign : assignVariable σ v.1 v.2 value = assignVariableEnd σ cell value false := by
    unfold assignVariable
    rw [show (findBindingCell σ v.1 v.2).1 = some cell from hv]
  rw [hassign] at hdone ⊢
  obtain ⟨hcode, -⟩ | ⟨-, huncached, hstate⟩ | ⟨-, t, ht, hundisturbed⟩ :=
    assignVariableEnd_cases σ cell value false
  · exact absurd hdone hcode
  · -- the variable has no cache, so the cell is the same
    obtain rfl : cell = cell' := by
      obtain heq | ⟨cache, hc, -⟩ := hsame
      · exact heq
      · obtain ⟨t, ht, -⟩ := cellCache_eq_some.mp hc
        exact absurd ht (huncached t)
    have hcell : variableCell (σ.setCell cell (mapToUnassigned value)) w = some cell := by
      refine (variableCell_rewritten (o := mapToUnassigned value) ?_ ?_ (by rfl) (by rfl)
        w).trans hw
      · exact assignVariableEnd_bound hdone
      · rw [unboundP_mapToUnassigned]
        exact unboundP_storable hvalue
    rw [hstate, lookupVariable_eq hcell, cellValue_setCell hvalue]
  · have hcache : cellCache σ cell = some (σ.traps t) := cellCache_eq_some.mpr ⟨t, ht, rfl⟩
    have hcache' : cellCache σ cell' = some (σ.traps t) := by
      obtain rfl | ⟨cache, hc, hc'⟩ := hsame
      · exact hcache
      · rw [hcache] at hc
        cases hc
        exact hc'
    have hcell : variableCell (assignVariableEnd σ cell value false).state w = some cell' := by
      have hvalue : SameBindings { σ with caches := (σ.setCacheValue (σ.traps t)
          (mapToUnassigned value)).caches } (assignVariableEnd σ cell value false).state :=
        hundisturbed.same
      have hscan : ∀ e, scanFrame (assignVariableEnd σ cell value false).state e w.2 false
          = scanFrame σ e w.2 false := fun e =>
        (hvalue.scanFrame e w.2 false).trans (scanFrame_congr Iff.rfl fun _ => rfl)
      unfold variableCell
      rw [find_congr hscan]
      exact hw
    rw [lookupVariable_eq hcell,
      cellValue_of_cache ((hundisturbed.same.cellCache cell').trans hcache'),
      hundisturbed.same.value]
    simp only [State.setCacheValue, State.setCache, update_self]

/-- **Linked variables are one location.** In every state that is reached by operations that
keep the linked variables bound, and that link a source with a cache to a target with another
one only if all linked variables with the cache of the source hold its trap, variables that are
connected by links read the same, and an assignment through one is seen through the other. -/
theorem linked_variables_one_location {σ₀ : State V} (hinitial : Initial σ₀) {s : Linked V}
    (hrun : Reaches performLinked (fun s operation => KeepsLinked s operation
      ∧ SharesTrap s operation) ⟨σ₀, []⟩ s) {v w : Variable} (hvw : Connected s.links v w) :
    lookupVariable s.state v.1 v.2 = lookupVariable s.state w.1 w.2
    ∧ ∀ value, Storable value → (assignVariable s.state v.1 v.2 value).code = .primDone →
        lookupVariable (assignVariable s.state v.1 v.2 value).state w.1 w.2
          = lookupResult (mapToUnassigned value) := by
  have h : LinksHold s := by
    refine hrun.invariant ⟨trapsAllocated_initial hinitial, fun hlink => ?_⟩
      fun hs hallowed hstep => hs.step hallowed.1 hallowed.2 hstep
    cases hlink
  have hone := h.connected hvw
  refine ⟨?_, fun value hvalue hdone => hone.assigned hvalue hdone⟩
  obtain ⟨cell, cell', hv, hw, hsame⟩ := hone
  rw [lookupVariable_eq hv, lookupVariable_eq hw, hsame.value]

/-- Three global variables. -/
def definedState : State Nat :=
  ((startState.setCell (.global "a") (.datum 1)).setCell (.global "c") (.datum 2)).setCell
    (.global "e") (.datum 3)

/-- A link between global variables. -/
def globalLink (target source : Symbol) : Operation Nat :=
  .link .global target .global source

theorem keepsLinked_unlinked (e : Environment) (s : Symbol)
    (v : { v : Object V // Storable v }) : KeepsLinked ⟨σ, []⟩ (.define e s v) := by
  refine ⟨fun s' _ w hw => ?_, fun environment symbol heq => by cases heq⟩
  obtain ⟨u, hu | hu⟩ := hw <;> cases hu

theorem reaches_definedState (allowed : Linked Nat → Operation Nat → Prop)
    (hallowed : ∀ σ e s v, allowed ⟨σ, []⟩ (.define e s v)) :
    Reaches performLinked allowed ⟨startState, []⟩ ⟨definedState, []⟩ := by
  have h1 : Reaches performLinked allowed ⟨startState, []⟩
      ⟨startState.setCell (.global "a") (.datum 1), []⟩ :=
    .next (a := .define .global "a" ⟨.datum 1, trivial⟩) .start (hallowed ..) rfl
  have h2 : Reaches performLinked allowed ⟨startState, []⟩
      ⟨(startState.setCell (.global "a") (.datum 1)).setCell (.global "c") (.datum 2), []⟩ :=
    .next (a := .define .global "c" ⟨.datum 2, trivial⟩) h1 (hallowed ..) rfl
  exact .next (a := .define .global "e" ⟨.datum 3, trivial⟩) h2 (hallowed ..) rfl

theorem keepsLinked_global {s : Linked Nat}
    (hs : ∀ l ∈ s.links, l.1.1 = .global ∧ l.2.1 = .global) (target source : Symbol) :
    KeepsLinked s (globalLink target source) := by
  refine ⟨fun s' _ v hv => ?_, fun environment symbol heq => by cases heq⟩
  have hglobal : v.1 = .global := by
    obtain ⟨w, hw | hw⟩ := hv
    · exact (hs _ hw).1
    · exact (hs _ hw).2
  unfold variableCell
  rw [hglobal]
  rfl

/-- The state after a link between global variables. -/
def globallyLinked (σ : State Nat) (target source : Symbol) : State Nat :=
  match linkVariables σ .global target .global source with
  | some outcome => outcome.state
  | none => σ

theorem linked_variables_one_location_definedState :
    lookupVariable (globallyLinked definedState "b" "a") .global "b"
        = lookupVariable (globallyLinked definedState "b" "a") .global "a"
      ∧ lookupVariable (assignVariable (globallyLinked definedState "b" "a") .global "b"
          (.datum 9)).state .global "a" = (.primDone, some (.datum 9)) := by
  have h0 := reaches_definedState (fun s operation => KeepsLinked s operation
    ∧ SharesTrap s operation) fun σ e s v => ⟨keepsLinked_unlinked e s v, trivial⟩
  have h1 : Reaches performLinked (fun s operation => KeepsLinked s operation
      ∧ SharesTrap s operation) ⟨startState, []⟩
      ⟨globallyLinked definedState "b" "a", [((.global, "b"), (.global, "a"))]⟩ := by
    refine .next (a := globalLink "b" "a") h0 ⟨keepsLinked_global (by simp) "b" "a", ?_⟩ rfl
    intro target source targetTrap sourceTrap htarget _ hcell
    cases htarget
    cases hcell
  have h := linked_variables_one_location initial_startState h1
    (v := (.global, "b")) (w := (.global, "a")) (.single (.inl (by simp)))
  exact ⟨h.1, h.2 (.datum 9) trivial rfl⟩

/-- The state and the links after some links between global variables, of which the last one is
the first of the list. -/
def afterLinks : List (Symbol × Symbol) → Linked Nat
  | [] => ⟨definedState, []⟩
  | (target, source) :: rest =>
      ⟨globallyLinked (afterLinks rest).state target source,
        ((.global, target), (.global, source)) :: (afterLinks rest).links⟩

theorem keepsLinked_afterLinks (list : List (Symbol × Symbol)) (target source : Symbol) :
    KeepsLinked (afterLinks list) (globalLink target source) := by
  refine keepsLinked_global (fun l hl => ?_) target source
  induction list with
  | nil => cases hl
  | cons link list ih =>
      rcases List.mem_cons.mp hl with rfl | hl
      · exact ⟨rfl, rfl⟩
      · exact ih hl

/-- Of five links, the last one redirects one of the two traps that lead to the cache of its
source. The variable that was linked first holds the other one, and is left behind. -/
theorem linked_variable_left_behind :
    ∃ s : Linked Nat, Reaches performLinked KeepsLinked ⟨startState, []⟩ s
      ∧ (s.links.map Prod.fst).Nodup ∧ Connected s.links (.global, "a") (.global, "b")
      ∧ (assignVariable s.state .global "a" (.datum 9)).code = .primDone
      ∧ lookupVariable (assignVariable s.state .global "a" (.datum 9)).state .global "a"
        = (.primDone, some (.datum 9))
      ∧ lookupVariable (assignVariable s.state .global "a" (.datum 9)).state .global "b"
        = (.primDone, some (.datum 1)) := by
  have h0 : Reaches performLinked KeepsLinked ⟨startState, []⟩ (afterLinks []) :=
    reaches_definedState KeepsLinked fun σ e s v => keepsLinked_unlinked e s v
  have hnext : ∀ {list target source}, Reaches performLinked KeepsLinked ⟨startState, []⟩
      (afterLinks list) → performLinked (afterLinks list) (globalLink target source)
        = some (afterLinks ((target, source) :: list)) →
      Reaches performLinked KeepsLinked ⟨startState, []⟩ (afterLinks ((target, source) :: list)) :=
    fun hrun hstep => .next hrun (keepsLinked_afterLinks ..) hstep
  have h1 : Reaches performLinked KeepsLinked ⟨startState, []⟩ (afterLinks [("b", "a")]) :=
    hnext h0 rfl
  have h2 : Reaches performLinked KeepsLinked ⟨startState, []⟩
      (afterLinks [("d", "c"), ("b", "a")]) := hnext h1 rfl
  have h3 : Reaches performLinked KeepsLinked ⟨startState, []⟩
      (afterLinks [("c", "a"), ("d", "c"), ("b", "a")]) := hnext h2 rfl
  have h4 : Reaches performLinked KeepsLinked ⟨startState, []⟩
      (afterLinks [("f", "e"), ("c", "a"), ("d", "c"), ("b", "a")]) := hnext h3 rfl
  have h5 : Reaches performLinked KeepsLinked ⟨startState, []⟩
      (afterLinks [("e", "a"), ("f", "e"), ("c", "a"), ("d", "c"), ("b", "a")]) := hnext h4 rfl
  refine ⟨_, h5, by decide, .single (.inr ?_), rfl, rfl, rfl⟩
  simp [afterLinks]

end MitScheme.Lookup
