import MitScheme.Microcode.LookupSpec

/-!
# What the operations on caches keep

The references recorded in the caches and the slots of compiled code belong together: a
slot leads to the cache its reference is recorded in. `Stored` says so, with what is
needed to keep it true: no slot is recorded twice, and addresses that are in use are below
the free ones. Installing caches, renewing clones and giving a cell a cache all keep it.
-/

namespace MitScheme.Lookup

open State (references setCache setCacheClone setReferences)

variable {V : Type}

/-! ## Reading back what was written -/

@[simp] theorem references_setCacheValue (σ : State V) (cache : Nat) (value : Object V) :
    (σ.setCacheValue cache value).references = σ.references := by
  funext c k
  by_cases h : c = cache
  · subst h
    simp [references, State.setCacheValue, setCache]
  · simp [references, State.setCacheValue, setCache, h]

@[simp] theorem references_setCacheClone (σ : State V) (cache : Nat) (clone : Option Nat) :
    (σ.setCacheClone cache clone).references = σ.references := by
  funext c k
  by_cases h : c = cache
  · subst h
    simp [references, setCacheClone, setCache]
  · simp [references, setCacheClone, setCache, h]

theorem references_setReferences (σ : State V) (cache : Nat) (kind : Kind)
    (list : ReferenceList) (c : Nat) (k : Kind) :
    (σ.setReferences cache kind list).references c k
      = if c = cache ∧ k = kind then list else σ.references c k := by
  by_cases h : c = cache
  · subst h
    by_cases hk : k = kind
    · subst hk
      simp [references, setReferences, setCache]
    · simp [references, setReferences, setCache, hk]
  · simp [references, setReferences, setCache, h]

@[simp] theorem value_setReferences (σ : State V) (cache : Nat) (kind : Kind)
    (list : ReferenceList) (c : Nat) :
    ((σ.setReferences cache kind list).caches c).value = (σ.caches c).value := by
  by_cases h : c = cache
  · subst h
    simp [setReferences, setCache]
  · simp [setReferences, setCache, h]

@[simp] theorem clone_setReferences (σ : State V) (cache : Nat) (kind : Kind)
    (list : ReferenceList) (c : Nat) :
    ((σ.setReferences cache kind list).caches c).clone = (σ.caches c).clone := by
  by_cases h : c = cache
  · subst h
    simp [setReferences, setCache]
  · simp [setReferences, setCache, h]

theorem installCache_eq (σ : State V) (cache : Nat) (kind : Kind) (places : List (Block × Nat)) :
    installCache σ cache kind places
      = { σ with
          slots := fun block offset =>
            if (block, offset) ∈ places then slotFor σ cache kind else σ.slots block offset } := by
  suffices h : ∀ (slot : Slot V) (places : List (Block × Nat)) (τ : State V),
      places.foldl (fun τ place => τ.writeSlot place.1 place.2 slot) τ
        = { τ with
            slots := fun block offset =>
              if (block, offset) ∈ places then slot else τ.slots block offset } from
    h (slotFor σ cache kind) places σ
  intro slot places
  induction places with
  | nil =>
      simp
  | cons place places ih =>
      intro τ
      rw [List.foldl_cons, ih]
      simp only [State.writeSlot, List.mem_cons]
      congr 1
      funext block offset
      by_cases hp : (block, offset) ∈ places
      · simp [hp]
      · by_cases hb : block = place.1
        · subst hb
          by_cases ho : offset = place.2
          · subst ho
            simp
          · have : (place.1, offset) ≠ place := fun h => ho (by rw [← h])
            simp [hp, ho, this]
        · have : (block, offset) ≠ place := fun h => hb (by rw [← h])
          simp [hp, hb, this]

theorem mem_visitedReferences {list : ReferenceList} {block : Block} {offset : Nat} :
    (block, offset) ∈ visitedReferences list
      ↔ ∃ symbol references, (symbol, references) ∈ list ∧ ⟨some block, offset⟩ ∈ references := by
  simp only [visitedReferences, List.mem_flatMap, List.mem_filterMap]
  constructor
  · rintro ⟨⟨symbol, references⟩, he, ⟨b, o⟩, hr, hb⟩
    cases b with
    | none => cases hb
    | some b =>
        cases hb
        exact ⟨symbol, references, he, hr⟩
  · rintro ⟨symbol, references, he, hr⟩
    exact ⟨(symbol, references), he, _, hr, rfl⟩

/-- `σ'` has the environment structure of `σ`, and the caches have the values they had. -/
structure SameBindings (σ σ' : State V) : Prop where
  cells : σ'.cells = σ.cells
  extensions : σ'.extensions = σ.extensions
  traps : σ'.traps = σ.traps
  value : ∀ c, (σ'.caches c).value = (σ.caches c).value

theorem SameBindings.refl (σ : State V) : SameBindings σ σ := ⟨rfl, rfl, rfl, fun _ => rfl⟩

theorem SameBindings.trans {σ σ' σ'' : State V} (h : SameBindings σ σ')
    (h' : SameBindings σ' σ'') : SameBindings σ σ'' :=
  ⟨h'.cells.trans h.cells, h'.extensions.trans h.extensions, h'.traps.trans h.traps,
    fun c => (h'.value c).trans (h.value c)⟩

theorem clone_setCacheClone (σ : State V) (cache : Nat) (clone : Option Nat) (c : Nat) :
    ((σ.setCacheClone cache clone).caches c).clone
      = if c = cache then clone else (σ.caches c).clone := by
  by_cases h : c = cache
  · subst h
    simp [setCacheClone, setCache]
  · simp [setCacheClone, setCache, h]

theorem value_setCacheClone (σ : State V) (cache : Nat) (clone : Option Nat) (c : Nat) :
    ((σ.setCacheClone cache clone).caches c).value = (σ.caches c).value := by
  by_cases h : c = cache
  · subst h
    simp [setCacheClone, setCache]
  · simp [setCacheClone, setCache, h]

/-- A state with a new clone for a cache. -/
def withClone (σ : State V) (cache : Nat) : State V :=
  setCacheClone
    { σ with clones := Function.update σ.clones σ.free cache, free := σ.free + 1 } cache
    (some σ.free)

theorem cellCache_setCell_ne {σ : State V} {cell cell' : Cell} {object : Object V}
    (h : cell' ≠ cell) : cellCache (σ.setCell cell object) cell' = cellCache σ cell' := by
  unfold cellCache State.setCell
  dsimp only
  rw [Function.update_of_ne h]

end MitScheme.Lookup
