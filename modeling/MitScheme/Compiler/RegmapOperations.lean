import MitScheme.Compiler.RegmapProof

/-!
# Allocator operations

What the operations of the register allocator promise: the instructions that they return lead
from a state that agrees with the old map to one that agrees with the new map, and leave alone
the registers that the instruction being generated still needs.
-/

namespace MitScheme.Regmap

open Moves List Function

variable {RegisterType : Type} [DecidableEq RegisterType] {machine : Machine RegisterType}
  {Label : Type} [DecidableEq Label] {map : RegisterMap Label} {type : Option RegisterType}
  {neededRegisters : List Nat}

/-- The instructions lead from states that agree with one map to states that agree with
another. -/
def Coerces (V : Type) (map map' : RegisterMap Label) (instructions : List (Move Location)) :
    Prop :=
  ∀ (values : Nat → V) state, Consistent values map state →
    Consistent values map' (run instructions state)

/-- The instructions leave the registers alone. -/
def Spares (V : Type) (registers : List Nat) (instructions : List (Move Location)) : Prop :=
  ∀ (state : Location → V), ∀ register ∈ registers,
    run instructions state (.register register) = state (.register register)

omit [DecidableEq Label] in
theorem Recycled.spares {result : AllocatorValues Label} (V : Type)
    (h : Recycled map neededRegisters result) : Spares V neededRegisters result.instructions :=
  fun _ register hmem => run_of_not_target fun m hm => h.needed m hm register hmem

/-! ## New aliases -/

variable {register : Nat}

omit [DecidableEq Label] in
theorem RegisterMap.WellFormed.addHome (h : map.WellFormed)
    (hfree : register ∉ map.aliases) {home : Option Nat} {savedIntoHome : Bool}
    (hnone : ∀ entry ∈ map.entries, home = none ∨ entry.home ≠ home)
    (htemporary : home = none → savedIntoHome = true) :
    (map.addHome home register savedIntoHome).WellFormed where
  aliases_ne entry he := by
    rcases mem_cons.mp he with rfl | he
    · exact cons_ne_nil _ _
    · exact h.aliases_ne entry he
  temporaries entry he := by
    rcases mem_cons.mp he with rfl | he
    · exact htemporary
    · exact h.temporaries entry he
  homes := by
    cases home with
    | none => exact h.homes
    | some home =>
        refine nodup_cons.mpr ⟨fun hmem => ?_, h.homes⟩
        obtain ⟨entry, he, hhome⟩ := mem_filterMap.mp hmem
        rcases hnone entry he with hcase | hcase
        · cases hcase
        · exact hcase hhome
  nodup := by
    exact h.take hfree

variable {entry : MapEntry Label}

theorem RegisterMap.WellFormed.addAlias (h : map.WellFormed)
    (hfree : register ∉ map.aliases) (hmem : entry ∈ map.entries) :
    (map.addAlias entry register).WellFormed := by
  have hperm := (aliases_perm_erase hmem []).append_right (map.registers.erase register)
  have hhome : (entry.addAlias register).home = entry.home := rfl
  refine h.touch hmem hhome (cons_ne_nil _ _) (h.temporaries entry hmem) ?_
  exact (hperm.cons register).nodup_iff.mp (h.take hfree)

variable {V : Type}

theorem Consistent.addAlias {values : Nat → V} {state : Location → V}
    (hwf : map.WellFormed) (h : Consistent values map state)
    (hfree : register ∉ map.aliases) (hmem : entry ∈ map.entries) :
    Consistent values (map.addAlias entry register)
      (run (registerToRegisterTransfer entry.anyAlias register) state) := by
  have hany := anyAlias_mem (hwf.aliases_ne entry hmem)
  have hmoved := h.setRegister hfree (state (.register entry.anyAlias))
  have hhome : (entry.addAlias register).home = entry.home := rfl
  refine hmoved.touch hhome (fun home hsome r hr => ?_) (hmoved.saved entry hmem)
  rcases mem_cons.mp hr with rfl | hr
  · rw [update_self]
    exact h.aliases entry hmem home hsome _ hany
  · exact hmoved.aliases entry hmem home hsome r hr

omit [DecidableEq Label] in
theorem Consistent.addHome {values : Nat → V} {state : Location → V}
    (h : Consistent values map state) (hfree : register ∉ map.aliases)
    {home : Nat} (hnone : ∀ entry ∈ map.entries, entry.home ≠ some home) (v : V)
    {savedIntoHome : Bool} (hsaved : savedIntoHome = true → state (.home home) = v) :
    Consistent (Function.update values home v) (map.addHome (some home) register savedIntoHome)
      (Function.update state (.register register) v) where
  aliases entry he home' hhome r hr := by
    rcases mem_cons.mp he with rfl | he
    · cases hhome
      rw [mem_singleton.mp hr, update_self, update_self]
    · have hne : home' ≠ home := fun heq => hnone entry he (heq ▸ hhome)
      rw [update_of_ne hne]
      exact (h.setRegister hfree v).aliases entry he home' hhome r hr
  saved entry he home' hhome hs := by
    rcases mem_cons.mp he with rfl | he
    · cases hhome
      rw [update_self]
      exact hsaved hs
    · have hne : home' ≠ home := fun heq => hnone entry he (heq ▸ hhome)
      rw [update_of_ne hne]
      exact (h.setRegister hfree v).saved entry he home' hhome hs
  homes home' hnone' := by
    obtain ⟨hhead, htail⟩ := forall_mem_cons.mp hnone'
    have hne : home' ≠ home := fun heq => hhead (by rw [heq])
    rw [update_of_ne hne]
    exact (h.setRegister hfree v).homes home' htail

/-! ## Operations that return a register -/

/-- What is promised by `load-alias-register`. -/
structure Loads (map : RegisterMap Label) (neededRegisters : List Nat) (home : Nat)
    (result : AllocatorValues Label) : Prop where
  wellFormed : result.map.WellFormed
  coerces : ∀ V, Coerces V map result.map result.instructions
  alias' : ∃ entry ∈ result.map.entries, entry.home = some home ∧ result.register ∈ entry.aliases
  unneeded : result.register ∉ neededRegisters ∨ result.map = map ∧ result.instructions = []
  spares : ∀ V, Spares V neededRegisters result.instructions

variable {home : Nat} {result : AllocatorValues Label}

theorem loadAliasRegister_loads (hwf : map.WellFormed)
    (h : loadAliasRegister machine map type neededRegisters home = some result) :
    Loads map neededRegisters home result := by
  unfold loadAliasRegister at h
  split at h
  · rename_i register hfound
    cases h
    obtain ⟨entry, hhome, hfind⟩ := Option.bind_eq_some_iff.mp hfound
    obtain ⟨hmem, hsome⟩ := findHome_eq_some hhome
    exact ⟨hwf, fun V values state hstate => hstate,
      ⟨entry, hmem, hsome, List.mem_of_find?_eq_some hfind⟩, .inr ⟨rfl, rfl⟩,
      fun V state register hr => rfl⟩
  · obtain ⟨⟨register, map', instructions⟩, hmake, h⟩ := Option.bind_eq_some_iff.mp h
    have hrecycled := (makeFreeRegister_recycled hwf hmake).1
    have hspares : ∀ source V, Spares V neededRegisters
        (instructions ++ [⟨source, .register register⟩]) := by
      intro source V state r hr
      rw [run_append, run_of_not_target, hrecycled.spares V state r hr]
      intro m hm heq
      rw [mem_singleton.mp hm] at heq
      cases heq
      exact hrecycled.unneeded hr
    dsimp only at h
    split at h
    · -- the value is in another alias
      rename_i entry hhome
      cases h
      obtain ⟨hmem, hsome⟩ := findHome_eq_some hhome
      refine ⟨hrecycled.wellFormed.addAlias hrecycled.free hmem, fun V values state hstate => ?_,
        ⟨_, mem_cons_self, hsome, mem_cons_self⟩, .inl hrecycled.unneeded,
        hspares _⟩
      rw [run_append]
      exact (hrecycled.consistent values state hstate).addAlias hrecycled.wellFormed
        hrecycled.free hmem
    · -- the value is in the home
      rename_i hhome
      cases h
      have hnone := findHome_eq_none hhome
      refine ⟨hrecycled.wellFormed.addHome hrecycled.free (fun e he => .inr (hnone e he)) nofun,
        fun V values state hstate => ?_, ⟨_, mem_cons_self, rfl, mem_cons_self⟩,
        .inl hrecycled.unneeded, hspares _⟩
      have hfreed := hrecycled.consistent values state hstate
      have hsaved : true = true → _ := fun _ => hfreed.homes home hnone
      have hloaded := hfreed.addHome hrecycled.free hnone (values home) hsaved
      rw [update_eq_self] at hloaded
      rw [run_append, homeToRegisterTransfer, run_cons, Move.execute]
      rw [hfreed.homes home hnone]
      exact hloaded

/-- What is promised by the operations that make an entry for a new value. -/
structure Allocates (map : RegisterMap Label) (neededRegisters : List Nat) (home : Option Nat)
    (result : AllocatorValues Label) : Prop where
  wellFormed : result.map.WellFormed
  coerces : ∀ {V : Type} (values : Nat → V) state, Consistent values map state → ∀ v,
    Consistent (home.elim values fun home => Function.update values home v) result.map
      (Function.update (run result.instructions state) (.register result.register) v)
  alias' : ∃ entry ∈ result.map.entries, entry.home = home ∧ result.register ∈ entry.aliases
  unneeded : result.register ∉ neededRegisters
  spares : ∀ V, Spares V neededRegisters result.instructions

theorem allocateAliasRegister_allocates (hwf : map.WellFormed)
    (hnone : ∀ entry ∈ map.entries, entry.home ≠ some home)
    (h : allocateAliasRegister machine map type neededRegisters home = some result) :
    Allocates map neededRegisters (some home) result := by
  obtain ⟨⟨register, map', instructions⟩, hmake, h⟩ := Option.bind_eq_some_iff.mp h
  have hrecycled := (makeFreeRegister_recycled hwf hmake).1
  have hnone' := hrecycled.homes home hnone
  cases h
  exact ⟨hrecycled.wellFormed.addHome hrecycled.free (fun e he => .inr (hnone' e he)) nofun,
    fun values state hstate v =>
      (hrecycled.consistent values state hstate).addHome hrecycled.free hnone' v nofun,
    ⟨_, mem_cons_self, rfl, mem_cons_self⟩, hrecycled.unneeded, hrecycled.spares⟩

omit [DecidableEq Label] in
theorem Consistent.addTemporary {values : Nat → V} {state : Location → V}
    (h : Consistent values map state) :
    Consistent values (map.addHome none register true) state where
  aliases entry he home hhome := by
    rcases mem_cons.mp he with rfl | he
    · cases hhome
    · exact h.aliases entry he home hhome
  saved entry he home hhome := by
    rcases mem_cons.mp he with rfl | he
    · cases hhome
    · exact h.saved entry he home hhome
  homes home hnone := h.homes home (forall_mem_cons.mp hnone).2

theorem allocateTemporaryRegister_allocates (hwf : map.WellFormed)
    (h : allocateTemporaryRegister machine map type neededRegisters = some result) :
    Allocates map neededRegisters none result := by
  obtain ⟨⟨register, map', instructions⟩, hmake, h⟩ := Option.bind_eq_some_iff.mp h
  have hrecycled := (makeFreeRegister_recycled hwf hmake).1
  cases h
  exact ⟨hrecycled.wellFormed.addHome hrecycled.free (fun _ _ => .inl rfl) fun _ => rfl,
    fun values state hstate v =>
      ((hrecycled.consistent values state hstate).setRegister hrecycled.free v).addTemporary,
    ⟨_, mem_cons_self, rfl, mem_cons_self⟩, hrecycled.unneeded, hrecycled.spares⟩

/-! ## Saving -/

/-- What is promised by the operations that save values into homes. -/
structure Saves (map map' : RegisterMap Label) (instructions : List (Move Location)) : Prop where
  wellFormed : map'.WellFormed
  coerces : ∀ V, Coerces V map map' instructions
  spares : ∀ V registers, Spares V registers instructions

omit [DecidableEq Label] in
theorem saves_self (hwf : map.WellFormed) : Saves map map [] :=
  ⟨hwf, fun _ _ _ hstate => hstate, fun _ _ _ _ _ => rfl⟩

omit [DecidableEq Label] in
theorem Consistent.run_saveIntoHome {values : Nat → V} {state : Location → V}
    (h : Consistent values map state) (hmem : entry ∈ map.entries)
    (hne : entry.aliases ≠ []) (hhome : entry.home = some home) :
    run (saveIntoHomeInstruction entry) state
      = Function.update state (.home home) (values home) := by
  rw [← h.aliases entry hmem home hhome _ (anyAlias_mem hne)]
  unfold saveIntoHomeInstruction
  rw [hhome]
  rfl

omit [DecidableEq Label] in
theorem saveIntoHomeInstruction_spares (entry : MapEntry Label) (V : Type)
    (registers : List Nat) : Spares V registers (saveIntoHomeInstruction entry) := by
  intro state register _
  refine run_of_not_target fun m hm heq => ?_
  unfold saveIntoHomeInstruction at hm
  split at hm
  · rw [mem_singleton.mp hm] at heq
    cases heq
  · cases hm

theorem saveEntry_saves (hwf : map.WellFormed)
    (hmem : entry ∈ map.entries) :
    Saves map (map.saveEntry entry) (saveIntoHomeInstruction entry) := by
  have hhome : ({ entry with savedIntoHome := true } : MapEntry Label).home = entry.home := rfl
  have hne := hwf.aliases_ne entry hmem
  refine ⟨?_, fun V values state hstate => ?_, saveIntoHomeInstruction_spares entry⟩
  · refine hwf.touch hmem hhome hne (fun _ => rfl) ?_
    have hperm := (aliases_perm_erase hmem []).append_right map.registers
    exact hperm.nodup_iff.mp hwf.nodup
  · cases hsome : entry.home with
    | none =>
        -- a temporary has nothing to save
        have hrun : run (saveIntoHomeInstruction entry) state = state := by
          unfold saveIntoHomeInstruction
          rw [hsome]
          rfl
        rw [hrun]
        exact hstate.touch hhome (hstate.aliases entry hmem) fun home heq => by
          rw [hsome] at heq
          cases heq
    | some home =>
        rw [hstate.run_saveIntoHome hmem hne hsome]
        have hsaved := hstate.setHome home
        refine hsaved.touch hhome (hsaved.aliases entry hmem) fun home' heq _ => ?_
        rw [hsome] at heq
        cases heq
        exact update_self ..

theorem saveMachineRegister_saves (hwf : map.WellFormed) (register : Nat) :
    Saves map (saveMachineRegister map register).1 (saveMachineRegister map register).2 := by
  unfold saveMachineRegister
  split
  · rename_i entry hfind
    split
    · exact saveEntry_saves hwf (List.mem_of_find?_eq_some hfind)
    · exact saves_self hwf
  · exact saves_self hwf

theorem savePseudoRegister_saves (hwf : map.WellFormed) (register : Nat) :
    Saves map (savePseudoRegister map register).1 (savePseudoRegister map register).2 := by
  unfold savePseudoRegister
  split
  · rename_i entry hfind
    split
    · exact saveEntry_saves hwf (findHome_eq_some hfind).1
    · exact saves_self hwf
  · exact saves_self hwf

omit [DecidableEq Label] [DecidableEq RegisterType] in
theorem emptyRegisterMap_wellFormed :
    (emptyRegisterMap machine : RegisterMap Label).WellFormed where
  aliases_ne _ hmem := by cases hmem
  temporaries _ hmem := by cases hmem
  homes := nodup_nil
  nodup := machine.available_nodup

omit [DecidableEq Label] in
theorem Consistent.run_inputLoop {V : Type} {values : Nat → V} (hwf : map.WellFormed) :
    ∀ {entries : List (MapEntry Label)} {state : Location → V}, (∀ e ∈ entries, e ∈ map.entries) →
      Consistent values map state → ∀ tail, ∃ state', run (inputLoop entries tail) state
        = run tail state' ∧ Consistent values map state'
        ∧ (∀ entry ∈ entries, ∀ home, entry.home = some home → state' (.home home) = values home)
        ∧ (∀ home, state (.home home) = values home → state' (.home home) = values home)
        ∧ ∀ register, state' (.register register) = state (.register register)
  | [], state, _, hstate, _ =>
      ⟨state, rfl, hstate, by simp, fun _ hhome => hhome, fun _ => rfl⟩
  | entry :: entries, state, hentries, hstate, tail => by
      obtain ⟨hmem, hrest⟩ := forall_mem_cons.mp hentries
      rw [inputLoop]
      split
      · rename_i hsaved
        obtain ⟨state', hrun, hstate', hhomes, hkept, hregisters⟩ :=
          hstate.run_inputLoop hwf hrest tail
        refine ⟨state', hrun, hstate', forall_mem_cons.mpr ⟨fun home hhome => ?_, hhomes⟩,
          hkept, hregisters⟩
        exact hkept home (hstate.saved entry hmem home hhome hsaved)
      · rename_i hunsaved
        have hne : entry.home ≠ none := fun hnone => hunsaved (hwf.temporaries entry hmem hnone)
        obtain ⟨home, hhome⟩ := Option.ne_none_iff_exists'.mp hne
        rw [run_append, hstate.run_saveIntoHome hmem (hwf.aliases_ne entry hmem) hhome]
        obtain ⟨state', hrun, hstate', hhomes, hkept, hregisters⟩ :=
          (hstate.setHome home).run_inputLoop hwf hrest tail
        refine ⟨state', hrun, hstate', forall_mem_cons.mpr ⟨fun home' hhome' => ?_, hhomes⟩,
          fun home' hvalue => hkept home' ?_, fun register => ?_⟩
        · rw [hhome] at hhome'
          cases hhome'
          exact hkept home (update_self ..)
        · by_cases heq : home' = home
          · rw [heq, update_self]
          · rw [update_of_ne (by simpa using heq)]
            exact hvalue
        · rw [hregisters, update_of_ne (by simp)]

omit [DecidableEq Label] in
theorem inputLoop_spares {V : Type} {registers : List Nat} :
    ∀ entries : List (MapEntry Label), Spares V registers (inputLoop entries [])
  | [] => fun _ _ _ => rfl
  | entry :: entries => by
      intro state register hmem
      rw [inputLoop]
      split
      · exact inputLoop_spares entries state register hmem
      · rw [run_append, inputLoop_spares entries _ register hmem]
        exact saveIntoHomeInstruction_spares entry V registers state register hmem

omit [DecidableEq Label] [DecidableEq RegisterType] in
theorem clearMapInstructions_saves (hwf : map.WellFormed) :
    Saves map (emptyRegisterMap machine) (clearMapInstructions map) where
  wellFormed := emptyRegisterMap_wellFormed
  coerces V values state hstate := by
    obtain ⟨state', hrun, hstate', hhomes, -, -⟩ :=
      hstate.run_inputLoop hwf (fun _ he => he) ([] : List (Move Location))
    rw [clearMapInstructions, hrun]
    refine ⟨nofun, nofun, fun home _ => ?_⟩
    by_cases hentry : ∃ entry ∈ map.entries, entry.home = some home
    · obtain ⟨entry, hmem, hhome⟩ := hentry
      exact hhomes entry hmem home hhome
    · push Not at hentry
      exact hstate'.homes home hentry
  spares _ _ := inputLoop_spares map.entries

/-- Whatever the allocator does, every value stays where the map says it is. Only a value that is
in a register already may be found in a register that is needed. -/
theorem allocator_keeps_values (machine : Machine RegisterType) (map : RegisterMap Label)
    (hwf : map.WellFormed) (type : Option RegisterType) (neededRegisters : List Nat) :
    (∀ home result, loadAliasRegister machine map type neededRegisters home = some result →
      Loads map neededRegisters home result)
    ∧ (∀ home result, (∀ entry ∈ map.entries, entry.home ≠ some home) →
        allocateAliasRegister machine map type neededRegisters home = some result →
        Allocates map neededRegisters (some home) result)
    ∧ (∀ result, allocateTemporaryRegister machine map type neededRegisters = some result →
        Allocates map neededRegisters none result)
    ∧ (∀ register,
        Saves map (saveMachineRegister map register).1 (saveMachineRegister map register).2)
    ∧ (∀ register,
        Saves map (savePseudoRegister map register).1 (savePseudoRegister map register).2)
    ∧ Saves map (emptyRegisterMap machine) (clearMapInstructions map) :=
  ⟨fun _ _ => loadAliasRegister_loads hwf,
    fun _ _ hnone => allocateAliasRegister_allocates hwf hnone,
    fun _ => allocateTemporaryRegister_allocates hwf,
    saveMachineRegister_saves hwf, savePseudoRegister_saves hwf, clearMapInstructions_saves hwf⟩

/-- Two general registers. -/
def twoRegisters : Machine Unit where
  registerType _ := ()
  valueClassWord _ := true
  float := ()
  availableMachineRegisters := [0, 1]
  available_nodup := by decide
  sortMachineRegisters registers := registers
  sort_perm _ := .rfl

/-- Both hold values that are not saved. -/
def fullMap : RegisterMap Unit :=
  ⟨[⟨some 7, false, [0], none⟩, ⟨some 8, false, [1], none⟩], []⟩

theorem fullMap_wellFormed : fullMap.WellFormed where
  aliases_ne := by decide
  temporaries := by decide
  homes := by decide
  nodup := by decide

theorem allocator_keeps_values_spill :
    Loads fullMap [1] 9
      ⟨0, ⟨[⟨some 9, true, [0], none⟩, ⟨some 8, false, [1], none⟩], []⟩,
        [⟨.register 0, .home 7⟩, ⟨.home 9, .register 0⟩]⟩ :=
  (allocator_keeps_values twoRegisters fullMap fullMap_wellFormed (some ()) [1]).1 9 _
    rfl

/-- The register that `load-alias-register` returns may be a needed one. -/
theorem loaded_alias_needed :
    ¬∀ (map : RegisterMap Unit) (type : Option Unit) (neededRegisters : List Nat) (home : Nat)
      (result : AllocatorValues Unit), map.WellFormed →
      loadAliasRegister twoRegisters map type neededRegisters home = some result →
      result.register ∉ neededRegisters := by
  intro h
  exact h fullMap (some ()) [0] 7 ⟨0, fullMap, []⟩ fullMap_wellFormed rfl (by decide)

end MitScheme.Regmap
