import MitScheme.Compiler.RegmapOperations

/-!
# Runs of the register allocator

The generator keeps one register map and does one operation after the other. What the machine holds is then a
write-back cache of the pseudo registers, from which no machine register gets lost.
-/

namespace MitScheme.Regmap

open Moves List Function

variable {RegisterType : Type} [DecidableEq RegisterType] (machine : Machine RegisterType)
  {Label : Type} [DecidableEq Label] {V : Type}

/-- What the pseudo registers should contain, the register map, and what the machine holds. -/
structure Configuration (Label V : Type) where
  values : Nat → V
  map : RegisterMap Label
  state : Location → V

/-- An operation, with its instructions and with the value that is computed into a register it allocates. No value
is deleted that is nowhere else, unless with its pseudo register, which is left with what its home contains. -/
inductive Step (c : Configuration Label V) : Configuration Label V → Prop
  | load {type needed home r} : loadAliasRegister machine c.map type needed home = some r →
      Step c ⟨c.values, r.map, run r.instructions c.state⟩
  | allocate {type needed home r} (value : V) : (∀ entry ∈ c.map.entries, entry.home ≠ some home) →
      allocateAliasRegister machine c.map type needed home = some r →
      Step c ⟨update c.values home value, r.map, update (run r.instructions c.state) (.register r.register) value⟩
  | temporary {type needed r} (value : V) : allocateTemporaryRegister machine c.map type needed = some r →
      Step c ⟨c.values, r.map, update (run r.instructions c.state) (.register r.register) value⟩
  | saveMachine (register : Nat) :
      Step c ⟨c.values, (saveMachineRegister c.map register).1, run (saveMachineRegister c.map register).2 c.state⟩
  | savePseudo (register : Nat) :
      Step c ⟨c.values, (savePseudoRegister c.map register).1, run (savePseudoRegister c.map register).2 c.state⟩
  | deleteMachine {register : Nat} : (∀ entry, c.map.findAlias register = some entry →
        entry.aliases.tail ≠ [] ∨ entry.home = none ∨ entry.savedIntoHome = true) →
      Step c ⟨c.values, deleteMachineRegister machine c.map register, c.state⟩
  | deletePseudo (register : Nat) : Step c ⟨update c.values register (c.state (.home register)),
      (deletePseudoRegister machine c.map register).1, c.state⟩
  | clear : Step c ⟨c.values, emptyRegisterMap machine, run (clearMapInstructions c.map) c.state⟩

/-- All machine registers of the map. -/
def RegisterMap.all (map : RegisterMap Label) : List Nat := map.aliases ++ map.registers

/-- The values are where the map says, and each available register is in one place of it. -/
structure Kept (c : Configuration Label V) : Prop where
  wellFormed : c.map.WellFormed
  consistent : Consistent c.values c.map c.state
  available : c.map.all.Perm machine.availableMachineRegisters

variable {map map' : RegisterMap Label} {entry : MapEntry Label} {register : Nat}

theorem all_saveEntry (hmem : entry ∈ map.entries) : (map.saveEntry entry).all.Perm map.all :=
  ((aliases_perm_erase hmem []).append_right _).symm

omit [DecidableEq RegisterType] in
theorem all_deleteEntry (hmem : entry ∈ map.entries) : (map.deleteEntry machine entry).all.Perm map.all := by
  refine ((machine.sort_perm _).append_left _).trans ((perm_append_comm_assoc ..).trans ?_)
  rw [← append_assoc]
  exact all_saveEntry hmem

variable {machine}

theorem all_loadAliasRegister {type : Option RegisterType} {needed : List Nat} {home : Nat}
    {result : AllocatorValues Label} (hwf : map.WellFormed)
    (h : loadAliasRegister machine map type needed home = some result) : result.map.all.Perm map.all := by
  unfold loadAliasRegister at h
  split at h
  · cases h
    exact .rfl
  · obtain ⟨⟨register, map', instructions⟩, hmake, h⟩ := Option.bind_eq_some_iff.mp h
    have haccounted := (makeFreeRegister_recycled hwf hmake).2
    dsimp only at h
    split at h
    · next entry hhome =>
        cases h
        have hmem := (findHome_eq_some hhome).1
        exact (((aliases_perm_erase hmem []).append_right _).cons register).symm.trans haccounted
    · cases h
      exact haccounted

theorem RegisterMap.WellFormed.entryToTemporary (h : map.WellFormed) (hmem : entry ∈ map.entries) :
    (map.entryToTemporary entry).WellFormed where
  aliases_ne e he := by
    rcases mem_cons.mp he with rfl | he
    · exact h.aliases_ne entry hmem
    · exact h.aliases_ne e (mem_of_mem_erase he)
  temporaries e he hnone := by
    rcases mem_cons.mp he with rfl | he
    · rfl
    · exact h.temporaries e (mem_of_mem_erase he) hnone
  homes := h.homes.sublist (erase_sublist.filterMap _)
  nodup := (all_saveEntry hmem).symm.nodup_iff.mp h.nodup

theorem Consistent.forget {values : Nat → V} {state : Location → V} (h : Consistent values map state)
    (hwf : map.WellFormed) (hmem : entry ∈ map.entries) (hhome : entry.home = some register)
    (hnew : ∀ e ∈ map'.entries, e.home ≠ none → e ∈ map.entries.erase entry)
    (hold : ∀ e ∈ map.entries.erase entry, e ∈ map'.entries) :
    Consistent (update values register (state (.home register))) map' state := by
  have hother : ∀ e ∈ map'.entries, ∀ home, e.home = some home → home ≠ register ∧ e ∈ map.entries := by
    intro e he home heq
    have hin := hnew e he (heq ▸ Option.some_ne_none home)
    refine ⟨fun hsame => ?_, mem_of_mem_erase hin⟩
    have hhomes := ((perm_cons_erase hmem).filterMap MapEntry.home).nodup_iff.mp hwf.homes
    rw [filterMap_cons_some hhome] at hhomes
    exact (nodup_cons.mp hhomes).1 (mem_filterMap.mpr ⟨e, hin, hsame ▸ heq⟩)
  refine ⟨fun e he home heq r hr => ?_, fun e he home heq hsaved => ?_, fun home hnone => ?_⟩
  · obtain ⟨hne, he⟩ := hother e he home heq
    rw [update_of_ne hne]
    exact h.aliases e he home heq r hr
  · obtain ⟨hne, he⟩ := hother e he home heq
    rw [update_of_ne hne]
    exact h.saved e he home heq hsaved
  · by_cases hne : home = register
    · rw [hne, update_self]
    · rw [update_of_ne hne]
      refine h.homes home fun e he heq => hnone e (hold e ((mem_erase_of_ne fun hsame => hne ?_).mpr he)) heq
      exact Option.some.inj (heq.symm.trans (hsame ▸ hhome))

/-! ## Steps and runs -/

variable {c c' : Configuration Label V}

theorem Kept.step (h : Kept machine c) (hstep : Step machine c c') : Kept machine c' := by
  obtain ⟨hwf, hconsistent, havailable⟩ := h
  cases hstep with
  | load hr =>
      have hloads := loadAliasRegister_loads hwf hr
      exact ⟨hloads.wellFormed, hloads.coerces V _ _ hconsistent, (all_loadAliasRegister hwf hr).trans havailable⟩
  | allocate value hnone hr =>
      -- the moves keep the old values, and the new one goes into a register they freed
      have hallocates := allocateAliasRegister_allocates hwf hnone hr
      obtain ⟨made, hmake, heq⟩ := Option.bind_eq_some_iff.mp hr
      cases heq
      exact ⟨hallocates.wellFormed, hallocates.coerces _ _ hconsistent value,
        (makeFreeRegister_recycled hwf hmake).2.trans havailable⟩
  | temporary value hr =>
      have hallocates := allocateTemporaryRegister_allocates hwf hr
      obtain ⟨made, hmake, heq⟩ := Option.bind_eq_some_iff.mp hr
      cases heq
      exact ⟨hallocates.wellFormed, hallocates.coerces _ _ hconsistent value,
        (makeFreeRegister_recycled hwf hmake).2.trans havailable⟩
  | saveMachine register =>
      have hsaves := saveMachineRegister_saves hwf register
      refine ⟨hsaves.wellFormed, hsaves.coerces V _ _ hconsistent, .trans ?_ havailable⟩
      unfold saveMachineRegister
      split
      · split
        · exact all_saveEntry (mem_of_find?_eq_some ‹_›)
        · exact .rfl
      · exact .rfl
  | savePseudo register =>
      have hsaves := savePseudoRegister_saves hwf register
      refine ⟨hsaves.wellFormed, hsaves.coerces V _ _ hconsistent, .trans ?_ havailable⟩
      unfold savePseudoRegister
      split
      · split
        · exact all_saveEntry (findHome_eq_some ‹_›).1
        · exact .rfl
      · exact .rfl
  | @deleteMachine register hcopy =>
      unfold deleteMachineRegister
      split
      · next entry hfind =>
          have hmem := mem_of_find?_eq_some hfind
          have halias : register ∈ entry.aliases := by simpa using find?_some hfind
          -- by the guard the value is in another alias or at home, or is temporary
          have hfreed : Freed c.map (c.map.deleteAlias machine entry register) register :=
            freed_deleteAlias hwf hmem halias (hcopy entry hfind)
          exact ⟨hfreed.wellFormed, hconsistent.freed hfreed,
            (aliases_deleteAlias machine hmem halias).trans havailable⟩
      · exact ⟨hwf, hconsistent, havailable⟩
  | deletePseudo register =>
      unfold deletePseudoRegister
      split
      · next hnone =>
          rw [hconsistent.homes register (findHome_eq_none hnone), update_eq_self]
          exact ⟨hwf, hconsistent, havailable⟩
      · next entry hfind =>
          obtain ⟨hmem, hhome⟩ := findHome_eq_some hfind
          split
          · have hall := all_deleteEntry machine hmem
            exact ⟨hwf.erase entry (hall.symm.nodup_iff.mp hwf.nodup),
              hconsistent.forget hwf hmem hhome (fun _ he _ => he) fun _ he => he, hall.trans havailable⟩
          · -- a labelled entry stays, as one of a temporary
            refine ⟨hwf.entryToTemporary hmem, hconsistent.forget hwf hmem hhome ?_
              fun _ he => mem_cons_of_mem _ he, (all_saveEntry hmem).trans havailable⟩
            intro e he hne
            rcases mem_cons.mp he with rfl | he
            · exact absurd rfl hne
            · exact he
  | clear =>
      have hsaves : Saves c.map (emptyRegisterMap machine) _ := clearMapInstructions_saves hwf
      exact ⟨hsaves.wellFormed, hsaves.coerces V _ _ hconsistent, .rfl⟩

/-- **In every run the allocator is a cache of the pseudo registers.** Each available machine register is
an alias of one entry or is free, and what is loaded is the value that was put into the pseudo register last. -/
theorem allocator_runs (hstart : Kept machine c) (hrun : Relation.ReflTransGen (Step machine) c c') :
    Kept machine c' ∧ ∀ type needed home result, loadAliasRegister machine c'.map type needed home = some result →
      run result.instructions c'.state (.register result.register) = c'.values home := by
  have hkept : Kept machine c' := by
    induction hrun with
    | refl => exact hstart
    | tail _ hstep ih => exact ih.step hstep
  refine ⟨hkept, fun type needed home result hload => ?_⟩
  have hloads := loadAliasRegister_loads hkept.wellFormed hload
  obtain ⟨entry, hmem, hhome, halias⟩ := hloads.alias'
  exact (hloads.coerces V _ _ hkept.consistent).aliases entry hmem home hhome _ halias

/-- Two pseudo registers are loaded, first into an empty map. -/
theorem allocator_runs_two :
    run [⟨.home 8, .register 1⟩] (run [⟨.home 7, .register 0⟩] id) (.register 1) = Location.home 8 := by
  have hstart : Kept twoRegisters ⟨.home, (emptyRegisterMap twoRegisters : RegisterMap Unit), id⟩ :=
    ⟨emptyRegisterMap_wellFormed, ⟨nofun, nofun, fun _ _ => rfl⟩, .rfl⟩
  have hload : loadAliasRegister twoRegisters (emptyRegisterMap twoRegisters : RegisterMap Unit) (some ()) [] 7
      = some ⟨0, ⟨[⟨some 7, true, [0], none⟩], [1]⟩, [⟨.home 7, .register 0⟩]⟩ := rfl
  exact (allocator_runs hstart (.single (.load hload))).2 (some ()) [] 8
    ⟨1, ⟨[⟨some 8, true, [1], none⟩, ⟨some 7, true, [0], none⟩], []⟩, [⟨.home 8, .register 1⟩]⟩ rfl

end MitScheme.Regmap
