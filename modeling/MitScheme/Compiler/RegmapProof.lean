import MitScheme.Compiler.Regmap
import Mathlib.Data.List.Flatten
import Mathlib.Data.List.Nodup

/-!
# What the register allocator keeps

A machine state agrees with a register map when every alias has the value of its pseudo
register, and a home has it too if the map says that it is saved or does not have it at all.
Every strategy for finding a register gives up a copy that is not the only one, or makes
another copy first.
-/

namespace MitScheme.Regmap

open Moves List Option Function

section

variable {RegisterType : Type} [DecidableEq RegisterType] {machine : Machine RegisterType}
  {Label : Type} {V : Type}

/-! ## The map invariant -/

/-- The machine registers of the entries. -/
def RegisterMap.aliases (map : RegisterMap Label) : List Nat := map.entries.flatMap MapEntry.aliases

/-- What every register map satisfies. -/
structure RegisterMap.WellFormed (map : RegisterMap Label) : Prop where
  aliases_ne : ∀ entry ∈ map.entries, entry.aliases ≠ []
  temporaries : ∀ entry ∈ map.entries, entry.home = none → entry.savedIntoHome = true
  homes : (map.entries.filterMap MapEntry.home).Nodup
  nodup : (map.aliases ++ map.registers).Nodup

/-- The machine state agrees with the map about the values of the pseudo registers. -/
structure Consistent (values : Nat → V) (map : RegisterMap Label) (state : Location → V) :
    Prop where
  aliases : ∀ entry ∈ map.entries, ∀ home, entry.home = some home →
    ∀ register ∈ entry.aliases, state (.register register) = values home
  saved : ∀ entry ∈ map.entries, ∀ home, entry.home = some home → entry.savedIntoHome = true →
    state (.home home) = values home
  homes : ∀ home, (∀ entry ∈ map.entries, entry.home ≠ some home) →
    state (.home home) = values home

variable {map : RegisterMap Label} {register : Nat} {entry : MapEntry Label}

theorem mem_aliases : register ∈ map.aliases ↔ ∃ entry ∈ map.entries, register ∈ entry.aliases :=
  mem_flatMap

theorem RegisterMap.WellFormed.perm {map' : RegisterMap Label} (h : map.WellFormed)
    (hentries : map.entries.Perm map'.entries)
    (hregisters : (map.aliases ++ map.registers).Perm (map'.aliases ++ map'.registers)) :
    map'.WellFormed where
  aliases_ne entry hmem := h.aliases_ne entry (hentries.mem_iff.mpr hmem)
  temporaries entry hmem := h.temporaries entry (hentries.mem_iff.mpr hmem)
  homes := (hentries.filterMap _).nodup_iff.mp h.homes
  nodup := hregisters.nodup_iff.mp h.nodup

theorem RegisterMap.WellFormed.take (h : map.WellFormed) (hfree : register ∉ map.aliases) :
    (register :: (map.aliases ++ map.registers.erase register)).Nodup := by
  refine nodup_cons.mpr ⟨fun hmem => ?_, ?_⟩
  · rcases mem_append.mp hmem with hmem | hmem
    · exact hfree hmem
    · exact (List.Nodup.not_mem_erase (nodup_append.mp h.nodup).2.1) hmem
  · exact h.nodup.sublist (erase_sublist.append_left _)

theorem Consistent.setRegister {values : Nat → V}
    {state : Location → V} (h : Consistent values map state)
    (hfree : register ∉ map.aliases) (v : V) :
    Consistent values map (Function.update state (.register register) v) where
  aliases entry hmem home hhome r hr := by
    have hne : r ≠ register := fun heq => hfree (mem_aliases.mpr ⟨entry, hmem, heq ▸ hr⟩)
    rw [update_of_ne (by simpa using hne)]
    exact h.aliases entry hmem home hhome r hr
  saved entry hmem home hhome hsaved := by
    exact h.saved entry hmem home hhome hsaved
  homes home hnone := by
    exact h.homes home hnone

theorem Consistent.setHome {values : Nat → V} {state : Location → V}
    (h : Consistent values map state) (home : Nat) :
    Consistent values map (Function.update state (.home home) (values home)) where
  aliases entry hmem home' hhome r hr := by
    exact h.aliases entry hmem home' hhome r hr
  saved entry hmem home' hhome hsaved := by
    by_cases heq : home' = home
    · rw [heq, update_self]
    · rw [update_of_ne (by simpa using heq)]
      exact h.saved entry hmem home' hhome hsaved
  homes home' hnone := by
    by_cases heq : home' = home
    · rw [heq, update_self]
    · rw [update_of_ne (by simpa using heq)]
      exact h.homes home' hnone

theorem mapEntriesSearch_eq_some {β : Type} {procedure : MapEntry Label → Option β} {b : β} :
    ∀ {entries : List (MapEntry Label)}, mapEntriesSearch procedure entries = some b →
      ∃ entry ∈ entries, procedure entry = some b
  | [], h => by cases h
  | entry :: entries, h => by
      rw [mapEntriesSearch] at h
      cases hrest : mapEntriesSearch procedure entries with
      | none =>
          rw [hrest] at h
          exact ⟨entry, mem_cons_self, h⟩
      | some b' =>
          rw [hrest] at h
          obtain ⟨entry', hmem, hentry⟩ := mapEntriesSearch_eq_some hrest
          cases h
          exact ⟨entry', mem_cons_of_mem _ hmem, hentry⟩

theorem mapEntriesSearch_eq_none {β : Type} {procedure : MapEntry Label → Option β} :
    ∀ {entries : List (MapEntry Label)}, mapEntriesSearch procedure entries = none →
      ∀ entry ∈ entries, procedure entry = none
  | [], _ => by simp
  | entry :: entries, h => by
      rw [mapEntriesSearch] at h
      cases hrest : mapEntriesSearch procedure entries with
      | none =>
          rw [hrest] at h
          exact forall_mem_cons.mpr ⟨h, mapEntriesSearch_eq_none hrest⟩
      | some b =>
          rw [hrest] at h
          cases h

theorem findAlias_eq_some {type : Option RegisterType} {neededRegisters : List Nat}
    (h : entry.findAlias machine type neededRegisters = some register) :
    register ∈ entry.aliases ∧ register ∉ neededRegisters := by
  refine ⟨List.mem_of_find?_eq_some h, ?_⟩
  have hfound := List.find?_some h
  rw [Bool.and_eq_true] at hfound
  simpa using hfound.2

theorem findHome_eq_some {home : Nat}
    (h : map.findHome home = some entry) : entry ∈ map.entries ∧ entry.home = some home :=
  ⟨List.mem_of_find?_eq_some h, by simpa using List.find?_some h⟩

theorem findHome_eq_none {home : Nat}
    (h : map.findHome home = none) : ∀ entry ∈ map.entries, entry.home ≠ some home := by
  intro entry hmem
  simpa using List.find?_eq_none.mp h entry hmem

theorem anyAlias_mem (h : entry.aliases ≠ []) : entry.anyAlias ∈ entry.aliases := by
  unfold MapEntry.anyAlias
  cases haliases : entry.aliases with
  | nil => exact absurd haliases h
  | cons register registers => simp

end

variable {RegisterType : Type} {machine : Machine RegisterType} {Label : Type}
  [DecidableEq Label] {V : Type}

/-! ## Map constructors -/

omit [DecidableEq Label] in
theorem aliases_cons (entry : MapEntry Label) (entries : List (MapEntry Label))
    (registers : List Nat) :
    (RegisterMap.mk (entry :: entries) registers).aliases
      = entry.aliases ++ (RegisterMap.mk entries registers).aliases := by
  simp [RegisterMap.aliases]

variable {entry : MapEntry Label} {map map' : RegisterMap Label} {register : Nat}
  {neededRegisters : List Nat} {type : Option RegisterType} {values : AllocatorValues Label}

theorem aliases_perm_erase (hmem : entry ∈ map.entries) (registers : List Nat) :
    map.aliases.Perm
      (entry.aliases ++ (RegisterMap.mk (map.entries.erase entry) registers).aliases) := by
  exact (perm_cons_erase hmem).flatMap_right _

variable {registers : List Nat}

theorem RegisterMap.WellFormed.touch (h : map.WellFormed)
    {old new : MapEntry Label} (hmem : old ∈ map.entries) (hhome : new.home = old.home)
    (hne : new.aliases ≠ []) (htemporary : new.home = none → new.savedIntoHome = true)
    (hnodup : (new.aliases ++ (RegisterMap.mk (map.entries.erase old) registers).aliases
      ++ registers).Nodup) :
    (RegisterMap.mk (map.replaceAndTouch old new) registers).WellFormed where
  aliases_ne entry he := by
    rcases mem_cons.mp he with rfl | he
    · exact hne
    · exact h.aliases_ne entry (mem_of_mem_erase he)
  temporaries entry he := by
    rcases mem_cons.mp he with rfl | he
    · exact htemporary
    · exact h.temporaries entry (mem_of_mem_erase he)
  homes := by
    have hperm := (perm_cons_erase hmem).filterMap MapEntry.home
    have hhomes := hperm.nodup_iff.mp h.homes
    unfold RegisterMap.replaceAndTouch
    rw [filterMap_cons] at hhomes ⊢
    rw [hhome]
    exact hhomes
  nodup := by
    exact hnodup

variable {state : Location → V}

theorem Consistent.touch {values : Nat → V}
    (h : Consistent values map state) {old new : MapEntry Label} (hhome : new.home = old.home) (haliases : ∀ home, old.home = some home → ∀ register ∈ new.aliases,
      state (.register register) = values home)
    (hsaved : ∀ home, old.home = some home → new.savedIntoHome = true →
      state (.home home) = values home) :
    Consistent values (RegisterMap.mk (map.replaceAndTouch old new) registers) state where
  aliases entry he home heq := by
    rcases mem_cons.mp he with rfl | he
    · exact haliases home (hhome ▸ heq)
    · exact h.aliases entry (mem_of_mem_erase he) home heq
  saved entry he home heq := by
    rcases mem_cons.mp he with rfl | he
    · exact hsaved home (hhome ▸ heq)
    · exact h.saved entry (mem_of_mem_erase he) home heq
  homes home hnone := by
    refine h.homes home fun entry he heq => ?_
    by_cases hold : entry = old
    · exact hnone new mem_cons_self (by rw [hhome, ← hold, heq])
    · exact hnone entry (mem_cons_of_mem _ ((mem_erase_of_ne hold).mpr he)) heq

variable {map : RegisterMap Label}

theorem Consistent.erase {values : Nat → V}
    (h : Consistent values map state) {entry : MapEntry Label}
    (hsaved : ∀ home, entry.home = some home → state (.home home) = values home) :
    Consistent values (RegisterMap.mk (map.entries.erase entry) registers) state where
  aliases e he := h.aliases e (mem_of_mem_erase he)
  saved e he := h.saved e (mem_of_mem_erase he)
  homes home hnone := by
    by_cases hhome : entry.home = some home
    · exact hsaved home hhome
    · refine h.homes home fun e he heq => ?_
      have hne : e ≠ entry := fun heq' => hhome (heq' ▸ heq)
      exact hnone e ((mem_erase_of_ne hne).mpr he) heq

theorem RegisterMap.WellFormed.erase (h : map.WellFormed)
    (entry : MapEntry Label)
    (hnodup : ((RegisterMap.mk (map.entries.erase entry) registers).aliases ++ registers).Nodup) :
    (RegisterMap.mk (map.entries.erase entry) registers).WellFormed where
  aliases_ne e he := h.aliases_ne e (mem_of_mem_erase he)
  temporaries e he := h.temporaries e (mem_of_mem_erase he)
  homes := h.homes.sublist (erase_sublist.filterMap _)
  nodup := hnodup

theorem replace_perm {α : Type} [DecidableEq α] {l : List α} {a b : α} (h : a ∈ l) :
    (l.replace a b).Perm (b :: l.erase a) := by
  induction l with
  | nil => cases h
  | cons x l ih =>
      by_cases hx : x = a
      · subst hx
        simp
      · have hmem : a ∈ l := by
          rcases mem_cons.mp h with heq | hmem
          · exact absurd heq.symm hx
          · exact hmem
        rw [replace_cons, erase_cons]
        simp only [beq_iff_eq, hx, if_false, beq_eq_false_iff_ne.mpr (Ne.symm hx)]
        exact ((ih hmem).cons x).trans (List.Perm.swap b x _)

/-! ## Giving up an alias -/

/-- A register has been taken out of the entries of a map. Every entry that had it is without it
now, or has gone because it was saved. -/
structure Freed (map map' : RegisterMap Label) (register : Nat) : Prop where
  wellFormed : map'.WellFormed
  free : register ∉ map'.aliases
  entries : ∀ entry' ∈ map'.entries, ∃ entry ∈ map.entries, entry'.home = entry.home
    ∧ entry'.savedIntoHome = entry.savedIntoHome ∧ ∀ r ∈ entry'.aliases, r ∈ entry.aliases
  kept : ∀ entry ∈ map.entries, register ∉ entry.aliases → entry ∈ map'.entries
  homes : ∀ entry ∈ map.entries, ∀ home, entry.home = some home →
    (∃ entry' ∈ map'.entries, entry'.home = some home) ∨ entry.savedIntoHome = true

omit [DecidableEq Label] in
theorem freed_self (h : map.WellFormed)
    (hfree : register ∈ map.registers) : Freed map map register where
  wellFormed := h
  free := fun hmem => (nodup_append.mp h.nodup).2.2 register hmem register hfree rfl
  entries entry hmem := ⟨entry, hmem, rfl, rfl, fun _ hr => hr⟩
  kept _ hmem _ := hmem
  homes entry hmem _ hhome := .inl ⟨entry, hmem, hhome⟩

omit [DecidableEq Label] in
theorem Consistent.freed {values : Nat → V} (h : Consistent values map state) (hfreed : Freed map map' register) :
    Consistent values map' state where
  aliases entry' hmem' home hhome r hr := by
    obtain ⟨entry, hmem, heq, -, haliases⟩ := hfreed.entries entry' hmem'
    exact h.aliases entry hmem home (heq ▸ hhome) r (haliases r hr)
  saved entry' hmem' home hhome hsaved := by
    obtain ⟨entry, hmem, heq, hsame, -⟩ := hfreed.entries entry' hmem'
    exact h.saved entry hmem home (heq ▸ hhome) (hsame ▸ hsaved)
  homes home hnone := by
    by_cases hold : ∃ entry ∈ map.entries, entry.home = some home
    · obtain ⟨entry, hmem, hhome⟩ := hold
      rcases hfreed.homes entry hmem home hhome with ⟨entry', hmem', hhome'⟩ | hsaved
      · exact absurd hhome' (hnone entry' hmem')
      · exact h.saved entry hmem home hhome hsaved
    · push Not at hold
      exact h.homes home hold

variable (machine) in
theorem deleteAlias_entries (hmem : entry ∈ map.entries) (register : Nat) :
    (map.deleteAlias machine entry register).entries.Perm
      ((if entry.aliases.tail = [] then [] else [entry.deleteAlias register])
        ++ map.entries.erase entry) := by
  unfold RegisterMap.deleteAlias
  split
  · exact .rfl
  · exact replace_perm hmem

variable (machine) in
theorem deleteAlias_perm (hmem : entry ∈ map.entries) (hregister : register ∈ entry.aliases) :
    (map.aliases ++ map.registers).Perm ((entry.deleteAlias register).aliases
        ++ (RegisterMap.mk (map.entries.erase entry) []).aliases
        ++ (map.deleteAlias machine entry register).registers) := by
  have hothers := aliases_perm_erase hmem []
  have halias := perm_cons_erase hregister
  have hsort := (machine.sort_perm (register :: map.registers)).symm
  -- the register moves past the aliases of the others
  refine (hothers.append_right map.registers).trans ?_
  rw [append_assoc, append_assoc]
  refine (halias.append_right _).trans ?_
  refine perm_middle.symm.trans (.append_left _ ?_)
  exact perm_middle.symm.trans (hsort.append_left _)

theorem RegisterMap.WellFormed.deleteAlias (h : map.WellFormed)
    {entry : MapEntry Label} (hmem : entry ∈ map.entries) {register : Nat}
    (hregister : register ∈ entry.aliases) :
    (map.deleteAlias machine entry register).WellFormed := by
  have hnodup := (deleteAlias_perm machine hmem hregister).nodup_iff.mp h.nodup
  unfold RegisterMap.deleteAlias at hnodup ⊢
  split
  · refine h.erase entry (hnodup.sublist ?_)
    exact (sublist_append_right _ _).append_right _
  · rename_i htail
    have hne : (entry.deleteAlias register).aliases ≠ [] := by
      intro hnil
      have hlength := congrArg List.length hnil
      have htail' := length_pos_iff.mpr htail
      rw [MapEntry.deleteAlias, length_erase_of_mem hregister, length_nil] at hlength
      rw [length_tail] at htail'
      omega
    have hhome : (entry.deleteAlias register).home = entry.home := rfl
    have htouch : (RegisterMap.mk (map.replaceAndTouch entry (entry.deleteAlias register))
        (machine.sortMachineRegisters (register :: map.registers))).WellFormed :=
      h.touch hmem hhome hne (h.temporaries entry hmem) hnodup
    have hperm := (replace_perm (b := entry.deleteAlias register) hmem).symm
    exact htouch.perm hperm ((hperm.flatMap_right _).append_right _)

theorem freed_deleteAlias (h : map.WellFormed)
    (hmem : entry ∈ map.entries) (hregister : register ∈ entry.aliases)
    (hcopy : entry.aliases.tail ≠ [] ∨ entry.home = none ∨ entry.savedIntoHome = true) :
    Freed map (map.deleteAlias machine entry register) register := by
  have hwf : (map.deleteAlias machine entry register).WellFormed := h.deleteAlias hmem hregister
  have hperm := deleteAlias_entries machine hmem register
  have hfree : register ∈ (map.deleteAlias machine entry register).registers :=
    (machine.sort_perm _).mem_iff.mpr mem_cons_self
  refine ⟨hwf, (freed_self hwf hfree).free, fun entry' hmem' => ?_, fun e he hnot => ?_,
    fun e he home hhome => ?_⟩
  · rcases mem_append.mp (hperm.mem_iff.mp hmem') with hmem' | hmem'
    · split at hmem'
      · cases hmem'
      · rw [mem_singleton.mp hmem']
        exact ⟨entry, hmem, rfl, rfl, fun r hr => mem_of_mem_erase hr⟩
    · exact ⟨entry', mem_of_mem_erase hmem', rfl, rfl, fun _ hr => hr⟩
  · have hne : e ≠ entry := fun heq => hnot (heq ▸ hregister)
    exact hperm.mem_iff.mpr (mem_append_right _ ((mem_erase_of_ne hne).mpr he))
  · by_cases heq : e = entry
    · subst heq
      rcases hcopy with htail | hnone | hsaved
      · refine .inl ⟨e.deleteAlias register, hperm.mem_iff.mpr ?_, hhome⟩
        rw [if_neg htail]
        exact mem_cons_self
      · rw [hnone] at hhome
        cases hhome
      · exact .inr hsaved
    · exact .inl ⟨e, hperm.mem_iff.mpr
        (mem_append_right _ ((mem_erase_of_ne heq).mpr he)), hhome⟩

/-- The register that was made free, and all others, are what there was before. -/
def Accounted (map map' : RegisterMap Label) (register : Nat) : Prop :=
  (register :: (map'.aliases ++ map'.registers.erase register)).Perm (map.aliases ++ map.registers)

omit [DecidableEq Label] in
theorem accounted_self (hfree : register ∈ map.registers) : Accounted map map register :=
  perm_middle.symm.trans ((perm_cons_erase hfree).symm.append_left map.aliases)

variable (machine) in
theorem aliases_deleteAlias (hmem : entry ∈ map.entries) (hregister : register ∈ entry.aliases) :
    ((map.deleteAlias machine entry register).aliases ++ (map.deleteAlias machine entry register).registers).Perm
      (map.aliases ++ map.registers) := by
  have hentries := (deleteAlias_entries machine hmem register).flatMap_right MapEntry.aliases
  refine (hentries.append_right _).trans ((deleteAlias_perm machine hmem hregister).trans ?_).symm
  rw [flatMap_append]
  refine .append_right _ (.append_right _ ?_)
  split
  · next htail =>
      -- it was the only alias
      obtain ⟨first, hfirst⟩ : ∃ first, entry.aliases = [first] := by
        cases haliases : entry.aliases with
        | nil =>
            rw [haliases] at hregister
            cases hregister
        | cons first rest =>
            rw [haliases, tail_cons] at htail
            exact ⟨first, by rw [htail]⟩
      rw [hfirst] at hregister
      rw [MapEntry.deleteAlias, hfirst, mem_singleton.mp hregister]
      simp
  · rw [flatMap_singleton]

variable (machine) in
theorem accounted_deleteAlias (hmem : entry ∈ map.entries) (hregister : register ∈ entry.aliases) :
    Accounted map (map.deleteAlias machine entry register) register :=
  (accounted_self ((machine.sort_perm _).mem_iff.mpr mem_cons_self)).trans (aliases_deleteAlias machine hmem hregister)

/-! ## Finding a free register -/

variable [DecidableEq RegisterType]

theorem reallocateAlias_eq_some
    (h : reallocateAlias machine map type neededRegisters entry = some values) :
    values.instructions = [] ∧ values.register ∉ neededRegisters ∧ values.register ∈ entry.aliases
      ∧ values.map = map.deleteAlias machine entry values.register := by
  obtain ⟨register, hfind, h⟩ := bind_eq_some_iff.mp h
  cases h
  obtain ⟨halias, hneeded⟩ := findAlias_eq_some hfind
  exact ⟨rfl, hneeded, halias, rfl⟩

theorem findFreeRegister_cases
    (h : findFreeRegister machine map type neededRegisters = some values) :
    values.instructions = [] ∧ values.register ∉ neededRegisters
      ∧ (values.register ∈ map.registers ∧ values.map = map
        ∨ ∃ entry ∈ map.entries, values.register ∈ entry.aliases
          ∧ values.map = map.deleteAlias machine entry values.register
          ∧ (entry.aliases.tail ≠ [] ∨ entry.home = none ∨ entry.savedIntoHome = true)) := by
  suffices hcases : (values.instructions = [] ∧ values.register ∉ neededRegisters
      ∧ values.register ∈ map.registers ∧ values.map = map) ∨ ∃ entry ∈ map.entries,
        (entry.aliases.tail ≠ [] ∨ entry.home = none ∨ entry.savedIntoHome = true)
          ∧ reallocateAlias machine map type neededRegisters entry = some values by
    obtain ⟨hinstructions, hneeded, hfree⟩ | ⟨entry, hmem, hcopy, hentry⟩ := hcases
    · exact ⟨hinstructions, hneeded, .inl hfree⟩
    · obtain ⟨hinstructions, hneeded, halias, hmap⟩ := reallocateAlias_eq_some hentry
      exact ⟨hinstructions, hneeded, .inr ⟨entry, hmem, halias, hmap, hcopy⟩⟩
  unfold findFreeRegister at h
  simp only [orElse_eq_orElse, orElse_eq_or] at h
  rcases or_eq_some_iff.mp h with h | ⟨-, h⟩
  · obtain ⟨register, hfind, rfl⟩ := map_eq_some_iff.mp h
    have hfound := List.find?_some hfind
    rw [Bool.and_eq_true] at hfound
    exact .inl ⟨rfl, by simpa using hfound.2, List.mem_of_find?_eq_some hfind, rfl⟩
  rcases or_eq_some_iff.mp h with h | ⟨-, h⟩
  · obtain ⟨entry, hmem, hentry⟩ := mapEntriesSearch_eq_some h
    split at hentry
    · rename_i hnone
      exact .inr ⟨entry, hmem, .inr (.inl hnone.1), hentry⟩
    · cases hentry
  rcases or_eq_some_iff.mp h with h | ⟨-, h⟩
  · obtain ⟨entry, hmem, hentry⟩ := mapEntriesSearch_eq_some h
    split at hentry
    · rename_i htail
      exact .inr ⟨entry, hmem, .inl htail, hentry⟩
    · cases hentry
  · obtain ⟨entry, hmem, hentry⟩ := mapEntriesSearch_eq_some h
    split at hentry
    · rename_i hsaved
      exact .inr ⟨entry, hmem, .inr (.inr hsaved.2), hentry⟩
    · cases hentry

theorem findFreeRegister_eq_some (hwf : map.WellFormed)
    (h : findFreeRegister machine map type neededRegisters = some values) :
    values.instructions = [] ∧ values.register ∉ neededRegisters
      ∧ Freed map values.map values.register ∧ Accounted map values.map values.register := by
  obtain ⟨hinstructions, hneeded, ⟨hfree, hmap⟩ | ⟨entry, hmem, halias, hmap, hcopy⟩⟩ := findFreeRegister_cases h
  · rw [hmap]
    exact ⟨hinstructions, hneeded, freed_self hwf hfree, accounted_self hfree⟩
  · rw [hmap]
    exact ⟨hinstructions, hneeded, freed_deleteAlias hwf hmem halias hcopy, accounted_deleteAlias machine hmem halias⟩

theorem findFreeRegister_eq_none (h : findFreeRegister machine map type neededRegisters = none) (hmem : entry ∈ map.entries)
    (hfind : entry.findAlias machine type neededRegisters = some register) :
    entry.aliases = [register] := by
  have hsingle : entry.aliases.tail = [] := by
    unfold findFreeRegister at h
    simp only [orElse_eq_orElse, orElse_eq_or, or_eq_none_iff] at h
    have hentry := mapEntriesSearch_eq_none h.2.2.1 entry hmem
    by_contra htail
    rw [if_pos htail, reallocateAlias, hfind] at hentry
    cases hentry
  have halias := (findAlias_eq_some hfind).1
  cases haliases : entry.aliases with
  | nil =>
      rw [haliases] at halias
      cases halias
  | cons first rest =>
      rw [haliases] at halias hsingle
      subst hsingle
      rw [mem_singleton.mp halias]

/-! ## Making a register free -/

/-- A register has been made free: its value is still where the new map says. -/
structure Recycled (map : RegisterMap Label) (neededRegisters : List Nat)
    (result : AllocatorValues Label) : Prop where
  wellFormed : result.map.WellFormed
  free : result.register ∉ result.map.aliases
  unneeded : result.register ∉ neededRegisters
  homes : ∀ home, (∀ entry ∈ map.entries, entry.home ≠ some home) →
    ∀ entry ∈ result.map.entries, entry.home ≠ some home
  consistent : ∀ {V : Type} (values : Nat → V) state, Consistent values map state →
    Consistent values result.map (run result.instructions state)
  needed : ∀ m ∈ result.instructions, ∀ register ∈ neededRegisters,
    m.target ≠ .register register

omit [DecidableEq Label] [DecidableEq RegisterType] in
theorem Freed.recycled (h : Freed map map' register) (hneeded : register ∉ neededRegisters) :
    Recycled map neededRegisters ⟨register, map', []⟩ where
  wellFormed := h.wellFormed
  free := h.free
  unneeded := hneeded
  homes home hnone entry' hmem' := by
    obtain ⟨entry, hmem, heq, -⟩ := h.entries entry' hmem'
    rw [heq]
    exact hnone entry hmem
  consistent _ _ hstate := hstate.freed h
  needed := by simp

theorem recycled_replaceAlias (hmem : entry ∈ map.entries) {register' : Nat}
    (haliases : entry.aliases = [register])
    (hneeded : register ∉ neededRegisters) (hfreed : Freed map map' register')
    (hneeded' : register' ∉ register :: neededRegisters) :
    Recycled map neededRegisters ⟨register, map'.replaceAlias entry register register',
      registerToRegisterTransfer register register'⟩ := by
  obtain ⟨hne, hneeded'⟩ := not_or.mp (mem_cons.not.mp hneeded')
  have hmem' : entry ∈ map'.entries := by
    refine hfreed.kept entry hmem ?_
    rw [haliases]
    exact mem_singleton.not.mpr hne
  have hwf' := hfreed.wellFormed
  have hnew : (entry.replaceAlias register register').aliases = [register'] := by
    simp [MapEntry.replaceAlias, haliases]
  have hhome : (entry.replaceAlias register register').home = entry.home := rfl
  have hperm := aliases_perm_erase hmem' []
  rw [haliases] at hperm
  refine ⟨?_, ?_, hneeded, fun home hnone e he => ?_, fun values state hstate => ?_, ?_⟩
  · refine hwf'.touch hmem' hhome ?_ (hwf'.temporaries entry hmem') ?_
    · rw [hnew]
      exact cons_ne_nil _ _
    rw [hnew]
    refine (hwf'.take hfreed.free).sublist (.cons_cons _ (.append_right ?_ _))
    exact erase_sublist.flatMap _
  · unfold RegisterMap.replaceAlias RegisterMap.replaceAndTouch
    rw [aliases_cons, hnew]
    have hothers := hperm.nodup_iff.mp (nodup_append.mp hwf'.nodup).1
    rw [singleton_append, mem_cons]
    exact not_or.mpr ⟨Ne.symm hne, (nodup_cons.mp hothers).1⟩
  · rcases mem_cons.mp he with rfl | he
    · exact hnone entry hmem
    · obtain ⟨e', he', heq, -⟩ := hfreed.entries e (mem_of_mem_erase he)
      rw [heq]
      exact hnone e' he'
  · have hmoved := (hstate.freed hfreed).setRegister hfreed.free (state (.register register))
    refine hmoved.touch hhome (fun home hsome r hr => ?_) (hmoved.saved entry hmem')
    rw [hnew] at hr
    rw [mem_singleton.mp hr, update_self]
    exact hstate.aliases entry hmem home hsome register (by simp [haliases])
  · intro m hm r hr heq
    rw [mem_singleton.mp hm] at heq
    cases heq
    exact hneeded' hr

omit [DecidableEq RegisterType] in
theorem accounted_replaceAlias (hmem : entry ∈ map.entries) {register' : Nat} (haliases : entry.aliases = [register])
    (hfreed : Freed map map' register') (haccounted : Accounted map map' register')
    (hne : register' ≠ register) : Accounted map (map'.replaceAlias entry register register') register := by
  have hmem' : entry ∈ map'.entries := hfreed.kept entry hmem (by rw [haliases]; exact mem_singleton.not.mpr hne)
  have hin : register ∈ map'.aliases := mem_aliases.mpr ⟨entry, hmem', by rw [haliases]; exact mem_singleton_self _⟩
  have hnot : register ∉ map'.registers.erase register' := fun hfree =>
    (nodup_append.mp hfreed.wellFormed.nodup).2.2 register hin register (mem_of_mem_erase hfree) rfl
  have hothers := aliases_perm_erase hmem' []
  rw [haliases] at hothers
  unfold RegisterMap.replaceAlias RegisterMap.replaceAndTouch Accounted
  rw [aliases_cons, erase_of_not_mem hnot, MapEntry.replaceAlias, haliases]
  simp only [replace_cons_self]
  refine (List.Perm.swap register' register _).trans (List.Perm.trans (.cons _ ?_) haccounted)
  exact (hothers.append_right _).symm

omit [DecidableEq RegisterType] in
theorem recycled_saveIntoHome (hwf : map.WellFormed) (hmem : entry ∈ map.entries)
    {home : Nat} (haliases : entry.aliases = [register]) (hhome : entry.home = some home)
    (hneeded : register ∉ neededRegisters) :
    Recycled map neededRegisters
      ⟨register, map.deleteAlias machine entry register, saveIntoHomeInstruction entry⟩ := by
  have hregister : register ∈ entry.aliases := by simp [haliases]
  have hdeleted : (map.deleteAlias machine entry register).WellFormed :=
    hwf.deleteAlias hmem hregister
  have hentries : (map.deleteAlias machine entry register).entries = map.entries.erase entry := by
    simp [RegisterMap.deleteAlias, haliases]
  have hinstructions : saveIntoHomeInstruction entry = [⟨.register register, .home home⟩] := by
    simp [saveIntoHomeInstruction, hhome, registerToHomeTransfer, MapEntry.anyAlias, haliases]
  have hfree : register ∈ (map.deleteAlias machine entry register).registers :=
    (machine.sort_perm _).mem_iff.mpr mem_cons_self
  refine ⟨hdeleted, (freed_self hdeleted hfree).free, hneeded, fun h hnone e he => ?_,
    fun values state hstate => ?_, ?_⟩
  · rw [hentries] at he
    exact hnone e (mem_of_mem_erase he)
  · have hvalue := hstate.aliases entry hmem home hhome register hregister
    have hrun : run (saveIntoHomeInstruction entry) state
        = Function.update state (.home home) (values home) := by
      rw [hinstructions, ← hvalue]
      rfl
    have hsaved : Consistent values (RegisterMap.mk (map.entries.erase entry)
        (map.deleteAlias machine entry register).registers)
        (Function.update state (.home home) (values home)) := by
      refine (hstate.setHome home).erase fun home' heq => ?_
      rw [hhome] at heq
      cases heq
      exact update_self ..
    rw [← hentries] at hsaved
    rw [hrun]
    exact hsaved
  · intro m hm r hr heq
    rw [hinstructions] at hm
    rw [mem_singleton.mp hm] at heq
    cases heq

theorem recycleEntry_recycled (hwf : map.WellFormed)
    (hnone : findFreeRegister machine map type neededRegisters = none) (hmem : entry ∈ map.entries)
    (h : recycleEntry machine map type neededRegisters entry = some values) :
    Recycled map neededRegisters values ∧ Accounted map values.map values.register := by
  unfold recycleEntry at h
  split at h
  · rename_i hunsaved
    obtain ⟨home, hhome⟩ := ne_none_iff_exists'.mp hunsaved.1
    obtain ⟨register, hfind, h⟩ := bind_eq_some_iff.mp h
    have haliases := findFreeRegister_eq_none hnone hmem hfind
    have hneeded := (findAlias_eq_some hfind).2
    simp only [orElse_eq_orElse, orElse_eq_or] at h
    rcases or_eq_some_iff.mp h with h | ⟨-, h⟩
    · -- another register takes the value
      obtain ⟨type', -, h⟩ := bind_eq_some_iff.mp h
      obtain ⟨free, hfree, h⟩ := bind_eq_some_iff.mp h
      cases h
      obtain ⟨hinstructions, hneeded', hfreed, haccounted⟩ := findFreeRegister_eq_some hwf hfree
      have hrecycled := recycled_replaceAlias hmem haliases hneeded hfreed hneeded'
      have hne := (not_or.mp (mem_cons.not.mp hneeded')).1
      rw [hinstructions]
      exact ⟨hrecycled, accounted_replaceAlias hmem haliases hfreed haccounted hne⟩
    · -- or its home does
      cases h
      exact ⟨recycled_saveIntoHome hwf hmem haliases hhome hneeded,
        accounted_deleteAlias machine hmem (findAlias_eq_some hfind).1⟩
  · cases h

theorem makeFreeRegister_recycled (hwf : map.WellFormed)
    (h : makeFreeRegister machine map type neededRegisters = some values) :
    Recycled map neededRegisters values ∧ Accounted map values.map values.register := by
  unfold makeFreeRegister at h
  simp only [orElse_eq_orElse, orElse_eq_or] at h
  rcases or_eq_some_iff.mp h with h | ⟨hnone, h⟩
  · obtain ⟨hinstructions, hneeded, hfreed, haccounted⟩ := findFreeRegister_eq_some hwf h
    have hrecycled := hfreed.recycled hneeded
    rw [← hinstructions] at hrecycled
    exact ⟨hrecycled, haccounted⟩
  rcases or_eq_some_iff.mp h with h | ⟨-, h⟩
  · obtain ⟨entry, hmem, hentry⟩ := mapEntriesSearch_eq_some h
    exact recycleEntry_recycled hwf hnone hmem hentry
  · obtain ⟨entry, hmem, hentry⟩ := mapEntriesSearch_eq_some h
    unfold recycleLabel at hentry
    split at hentry
    · rename_i hlabel
      obtain ⟨register, hfind, hresult⟩ := bind_eq_some_iff.mp hentry
      cases hresult
      obtain ⟨hregister, hneeded⟩ := findAlias_eq_some hfind
      exact ⟨(freed_deleteAlias hwf hmem hregister (.inr (.inl hlabel.2))).recycled hneeded,
        accounted_deleteAlias machine hmem hregister⟩
    · cases hentry

end MitScheme.Regmap
