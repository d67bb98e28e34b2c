import MitScheme.Microcode.LookupCaches

/-!
# Finding bindings

How `find_binding_cell` changes when a frame begins to bind a symbol, or ceases to: only
for the environments from which a lookup of that symbol passes the frame.
-/

namespace MitScheme.Lookup

variable {V : Type}

/-! ## Scanning a frame -/

theorem scanProcedureBindings_some {σ : State V} {frame : Environment} {symbol : Symbol}
    {p : Bool} {cell : Cell} : ∀ {parameters : List Symbol} {index : Nat},
      scanProcedureBindings σ frame symbol p parameters index = some cell →
        ∃ i, cell = .argument frame (index + i) ∧ parameters[i]? = some symbol
          ∧ (p = true ∨ unboundP (σ.cells cell) = false)
  | [], _, h => by cases h
  | parameter :: parameters, index, h => by
      rw [scanProcedureBindings] at h
      split at h
      · rename_i hc
        cases h
        exact ⟨0, rfl, by rw [← hc.1]; rfl, hc.2⟩
      · obtain ⟨i, hcell, hi, hp⟩ := scanProcedureBindings_some h
        refine ⟨i + 1, ?_, hi, hp⟩
        rw [hcell, Nat.add_right_comm, Nat.add_assoc]

variable {cell : Cell} {p : Bool} {e : Environment} {s : Symbol} {σ' : State V}

variable {σ : State V} {symbol : Symbol}

theorem scanFrame_some {n : Nat} {parameters : List Symbol}
    {nodup : parameters.Nodup} {parent : Environment}
    (h : scanFrame σ (.procedureFrame n parameters nodup parent) symbol p = some cell) :
    (symbol ∈ σ.extensions (.procedureFrame n parameters nodup parent)
      ∧ cell = .extension (.procedureFrame n parameters nodup parent) symbol)
    ∨ (symbol ∉ σ.extensions (.procedureFrame n parameters nodup parent)
      ∧ ∃ i, cell = .argument (.procedureFrame n parameters nodup parent) i
        ∧ parameters[i]? = some symbol ∧ (p = true ∨ unboundP (σ.cells cell) = false)) := by
  rw [scanFrame] at h
  split at h
  · rename_i hm
    cases h
    exact Or.inl ⟨hm, rfl⟩
  · rename_i hm
    obtain ⟨i, hcell, hi, hp⟩ := scanProcedureBindings_some h
    rw [Nat.zero_add] at hcell
    exact Or.inr ⟨hm, i, hcell, hi, hp⟩

theorem scanFrame_injective {σ τ : State V} {e' : Environment} {s' : Symbol} {p' : Bool} (h : scanFrame σ e s p = some cell) (h' : scanFrame τ e' s' p' = some cell) :
    e' = e ∧ s' = s := by
  cases e with
  | null => cases h
  | global =>
      cases h
      cases e' with
      | null => cases h'
      | global =>
          cases h'
          exact ⟨rfl, rfl⟩
      | procedureFrame n parameters nodup parent =>
          rcases scanFrame_some h' with ⟨-, hc⟩ | ⟨-, i, hc, -⟩
          · cases hc
          · cases hc
  | procedureFrame n parameters nodup parent =>
      rcases scanFrame_some h with ⟨-, hc⟩ | ⟨-, i, hc, hi, -⟩
      · subst hc
        cases e' with
        | null | global => cases h'
        | procedureFrame n' parameters' nodup' parent' =>
            rcases scanFrame_some h' with ⟨-, hc'⟩ | ⟨-, i', hc', -⟩
            · cases hc'
              exact ⟨rfl, rfl⟩
            · cases hc'
      · subst hc
        cases e' with
        | null | global => cases h'
        | procedureFrame n' parameters' nodup' parent' =>
            rcases scanFrame_some h' with ⟨-, hc'⟩ | ⟨-, i', hc', hi', -⟩
            · cases hc'
            · cases hc'
              rw [hi] at hi'
              cases hi'
              exact ⟨rfl, rfl⟩

theorem scanProcedureBindings_congr {σ σ' : State V} {frame : Environment} {symbol : Symbol}
    {p : Bool} : ∀ {parameters : List Symbol} {index : Nat},
      (∀ i, parameters[i]? = some symbol →
        unboundP (σ'.cells (.argument frame (index + i)))
          = unboundP (σ.cells (.argument frame (index + i)))) →
      scanProcedureBindings σ' frame symbol p parameters index
        = scanProcedureBindings σ frame symbol p parameters index
  | [], _, _ => rfl
  | parameter :: parameters, index, h => by
      rw [scanProcedureBindings, scanProcedureBindings]
      rw [scanProcedureBindings_congr fun i hi => ?_]
      · by_cases hp : parameter = symbol
        · have h0 := h 0 (by rw [hp]; rfl)
          rw [Nat.add_zero] at h0
          rw [h0]
        · rw [if_neg fun hc => hp hc.1, if_neg fun hc => hp hc.1]
      · have := h (i + 1) hi
        rw [Nat.add_right_comm]
        exact this

theorem scanFrame_congr
    (hext : symbol ∈ σ'.extensions e ↔ symbol ∈ σ.extensions e)
    (hcells : ∀ i, unboundP (σ'.cells (.argument e i)) = unboundP (σ.cells (.argument e i))) :
    scanFrame σ' e symbol p = scanFrame σ e symbol p := by
  cases e with
  | null => rfl
  | global => rfl
  | procedureFrame n parameters nodup parent =>
      rw [scanFrame, scanFrame]
      rw [scanProcedureBindings_congr fun i _ => hcells _]
      simp only [hext]

/-! ## Passing a frame -/

theorem passesFrame_congr {σ σ' : State V} {symbol : Symbol} {frame : Environment}
    (h : ∀ e, e ≠ frame → scanFrame σ' e symbol false = scanFrame σ e symbol false) :
    ∀ e, passesFrame σ' symbol frame e = passesFrame σ symbol frame e
  | .null => rfl
  | .global => rfl
  | .procedureFrame n parameters nodup parent => by
      rw [passesFrame, passesFrame]
      by_cases he : Environment.procedureFrame n parameters nodup parent = frame
      · rw [if_pos he, if_pos he]
      · rw [if_neg he, if_neg he, h _ he, passesFrame_congr h parent]

theorem find_of_passes {σ : State V} {symbol : Symbol} {frame : Environment} :
    ∀ {e : Environment}, passesFrame σ symbol frame e = true →
      findBindingCell σ e symbol = findBindingCell σ frame symbol
  | .null, h => by
      have : Environment.null = frame := by simpa [passesFrame] using h
      rw [this]
  | .global, h => by
      have : Environment.global = frame := by simpa [passesFrame] using h
      rw [this]
  | .procedureFrame n parameters nodup parent, h => by
      rw [passesFrame] at h
      split at h
      · rename_i he
        rw [he]
      · split at h
        · cases h
        · rename_i hs
          rw [findBindingCell]
          rw [Option.not_isSome_iff_eq_none.mp hs]
          exact find_of_passes h

theorem find_of_not_passes {σ σ' : State V} {symbol : Symbol} {frame : Environment}
    (h : ∀ e, e ≠ frame → scanFrame σ' e symbol false = scanFrame σ e symbol false) :
    ∀ {e : Environment}, passesFrame σ symbol frame e = false →
      findBindingCell σ' e symbol = findBindingCell σ e symbol
  | .null, _ => rfl
  | .global, _ => rfl
  | .procedureFrame n parameters nodup parent, hp => by
      rw [passesFrame] at hp
      split at hp
      · cases hp
      · rename_i he
        rw [findBindingCell, findBindingCell]
        rw [h _ he]
        split at hp
        · rename_i hs
          obtain ⟨cell, hcell⟩ := Option.isSome_iff_exists.mp hs
          rw [hcell]
        · rename_i hs
          rw [Option.not_isSome_iff_eq_none.mp hs]
          exact find_of_not_passes h hp

theorem sizeOf_parent {n : Nat} {parameters : List Symbol} {nodup : parameters.Nodup}
    {parent : Environment} :
    sizeOf parent < sizeOf (Environment.procedureFrame n parameters nodup parent) := by
  rw [Environment.procedureFrame.sizeOf_spec]
  omega

theorem passes_parent {σ : State V} {symbol : Symbol} {frame : Environment} :
    ∀ {e : Environment}, sizeOf e < sizeOf frame → passesFrame σ symbol frame e = false
  | .null, h => by
      have : Environment.null ≠ frame := by
        rintro rfl
        exact absurd h (Nat.lt_irrefl _)
      simpa [passesFrame] using this
  | .global, h => by
      have : Environment.global ≠ frame := by
        rintro rfl
        exact absurd h (Nat.lt_irrefl _)
      simpa [passesFrame] using this
  | .procedureFrame n parameters nodup parent, h => by
      rw [passesFrame]
      rw [if_neg]
      · split
        · rfl
        · exact passes_parent (Nat.lt_trans sizeOf_parent h)
      · rintro rfl
        exact absurd h (Nat.lt_irrefl _)

theorem find_some {σ : State V} {symbol : Symbol} {cell : Cell} : ∀ {e : Environment},
    (findBindingCell σ e symbol).1 = some cell →
      scanFrame σ (findBindingCell σ e symbol).2 symbol false = some cell
        ∧ passesFrame σ symbol (findBindingCell σ e symbol).2 e = true
  | .null, h => by cases h
  | .global, h => ⟨h, by simp [passesFrame, findBindingCell]⟩
  | .procedureFrame n parameters nodup parent, h => by
      rw [findBindingCell] at h ⊢
      cases hs : scanFrame σ (.procedureFrame n parameters nodup parent) symbol false with
      | some cell' =>
          rw [hs] at h
          exact ⟨hs.trans h, by simp [passesFrame]⟩
      | none =>
          rw [hs] at h
          obtain ⟨h1, h2⟩ := find_some h
          refine ⟨h1, ?_⟩
          change passesFrame σ symbol (findBindingCell σ parent symbol).2
            (.procedureFrame n parameters nodup parent) = true
          rw [passesFrame, hs]
          split
          · rfl
          · exact h2

variable {frame : Environment}

theorem passes_of_find {σ τ : State V} {symbol symbol' : Symbol} (hframe : scanFrame τ frame symbol p = some cell)
    (h : (findBindingCell σ e symbol').1 = some cell) :
    symbol' = symbol ∧ passesFrame σ symbol frame e = true := by
  obtain ⟨hs, hp⟩ := find_some h
  obtain ⟨he, rfl⟩ := scanFrame_injective hframe hs
  rw [he] at hp
  exact ⟨rfl, hp⟩

theorem find_congr {σ σ' : State V} {symbol : Symbol}
    (h : ∀ e, scanFrame σ' e symbol false = scanFrame σ e symbol false) :
    ∀ e, findBindingCell σ' e symbol = findBindingCell σ e symbol
  | .null => rfl
  | .global => rfl
  | .procedureFrame n parameters nodup parent => by
      rw [findBindingCell, findBindingCell]
      rw [h, find_congr h parent]

theorem SameBindings.scanFrame {σ σ' : State V} (h : SameBindings σ σ') (e : Environment)
    (symbol : Symbol) (p : Bool) : scanFrame σ' e symbol p = scanFrame σ e symbol p :=
  scanFrame_congr (by rw [h.extensions]) fun i => by rw [h.cells]

theorem SameBindings.cellCache {σ σ' : State V} (h : SameBindings σ σ') (cell : Cell) :
    cellCache σ' cell = cellCache σ cell := by
  unfold Lookup.cellCache
  rw [h.cells, h.traps]

theorem find_frame_some
    (h : scanFrame σ frame symbol false = some cell) :
    findBindingCell σ frame symbol = (some cell, frame) := by
  cases frame with
  | null => cases h
  | global =>
      cases h
      rfl
  | procedureFrame n parameters nodup parent =>
      rw [findBindingCell]
      rw [h]

@[simp] theorem unboundP_mapToUnassigned (v : Object V) :
    unboundP (mapToUnassigned v) = unboundP v := by
  cases v <;> rfl

theorem unboundP_storable {v : Object V} (h : Storable v) : unboundP v = false := by
  cases v <;> first | rfl | exact absurd h id

/-! ## A new binding -/

theorem scanProcedureBindings_revive {σ σ' : State V} {frame : Environment} {s : Symbol}
    {cell : Cell} (hb : unboundP (σ'.cells cell) = false) :
    ∀ {ps : List Symbol} {index : Nat},
      scanProcedureBindings σ frame s true ps index = some cell →
        scanProcedureBindings σ' frame s false ps index = some cell
  | [], _, h => by cases h
  | p :: ps, index, h => by
      rw [scanProcedureBindings] at h ⊢
      by_cases hp : p = s
      · rw [if_pos ⟨hp, Or.inl rfl⟩] at h
        cases h
        rw [if_pos ⟨hp, Or.inr hb⟩]
      · rw [if_neg fun hc => hp hc.1] at h
        rw [if_neg fun hc => hp hc.1]
        exact scanProcedureBindings_revive hb h

theorem scanFrame_none
    (hproc : procedureFrameP e = true) (h : scanFrame σ e s true = none) :
    s ∉ σ.extensions e ∧ (∀ {n ps nd parent}, e = .procedureFrame n ps nd parent → s ∉ ps)
      ∧ scanFrame σ e s false = none := by
  have hps : ∀ {frame : Environment} {ps : List Symbol} {index : Nat},
      scanProcedureBindings σ frame s true ps index = none →
        s ∉ ps ∧ scanProcedureBindings σ frame s false ps index = none := by
    intro frame ps
    induction ps with
    | nil => exact fun _ => ⟨List.not_mem_nil, rfl⟩
    | cons p ps ih =>
        intro index hn
        rw [scanProcedureBindings] at hn ⊢
        by_cases hp : p = s
        · rw [if_pos ⟨hp, Or.inl rfl⟩] at hn
          cases hn
        · rw [if_neg fun hc => hp hc.1] at hn
          rw [if_neg fun hc => hp hc.1]
          obtain ⟨h1, h2⟩ := ih hn
          exact ⟨List.not_mem_cons_of_ne_of_not_mem (Ne.symm hp) h1, h2⟩
  cases e with
  | null | global => cases hproc
  | procedureFrame n ps nd parent =>
      rw [scanFrame] at h ⊢
      split at h
      · cases h
      · rename_i hext
        obtain ⟨h1, h2⟩ := hps h
        refine ⟨hext, ?_, ?_⟩
        · intro n' ps' nd' parent' heq
          cases heq
          exact h1
        · rw [if_neg hext]
          exact h2

theorem scanFrame_visible
    (h : scanFrame σ e s true = some cell) (hext : σ'.extensions = σ.extensions)
    (hb : unboundP (σ'.cells cell) = false) : scanFrame σ' e s false = some cell := by
  cases e with
  | null => cases h
  | global => exact h
  | procedureFrame n ps nd parent =>
      rw [scanFrame] at h ⊢
      rw [hext]
      split at h
      · rename_i hm
        rw [if_pos hm]
        exact h
      · rename_i hm
        rw [if_neg hm]
        exact scanProcedureBindings_revive hb h

theorem scanFrame_setCell
    (h : scanFrame σ frame symbol true = some cell) (v : Object V)
    (hne : ¬ (e = frame ∧ s = symbol)) (p : Bool) :
    scanFrame (σ.setCell cell v) e s p = scanFrame σ e s p := by
  cases e with
  | null => rfl
  | global => rfl
  | procedureFrame n ps nd parent =>
      rw [scanFrame]
      rw [scanProcedureBindings_congr (σ := σ) fun i hi => ?_]
      · rfl
      · rw [Nat.zero_add]
        by_cases hc : Cell.argument (.procedureFrame n ps nd parent) i = cell
        · -- the parameter of that place is the symbol
          subst hc
          cases frame with
          | null | global => cases h
          | procedureFrame n' ps' nd' parent' =>
              rcases scanFrame_some h with ⟨-, hc⟩ | ⟨-, j, hc, hj, -⟩
              · cases hc
              · cases hc
                rw [hi] at hj
                cases hj
                exact absurd ⟨rfl, rfl⟩ hne
        · simp only [State.setCell, Function.update_of_ne hc]

theorem find_of_binding
    (hnow : scanFrame σ' frame symbol false = some cell)
    (hother : ∀ e s, ¬ (e = frame ∧ s = symbol) →
      scanFrame σ' e s false = scanFrame σ e s false) (e : Environment) (s : Symbol) :
    (findBindingCell σ' e s).1 = some cell ∨ findBindingCell σ' e s = findBindingCell σ e s := by
  by_cases hs : s = symbol
  · subst hs
    have hscan : ∀ e, e ≠ frame → scanFrame σ' e s false = scanFrame σ e s false :=
      fun e he => hother e s fun hc => he hc.1
    cases hp : passesFrame σ s frame e with
    | false => exact .inr (find_of_not_passes hscan hp)
    | true =>
        rw [← passesFrame_congr hscan] at hp
        rw [find_of_passes hp, find_frame_some hnow]
        exact .inl rfl
  · exact .inr (find_congr (fun e => hother e s fun hc => hs hc.2) e)

/-- A state in which the extension of a frame has one more binding. -/
def withBinding (σ : State V) (frame : Environment) (symbol : Symbol) (v : Object V) : State V :=
  State.setCell
    { σ with extensions := Function.update σ.extensions frame (σ.extensions frame ++ [symbol]) }
    (.extension frame symbol) v

section WithBinding

variable {σ : State V} {frame : Environment} {symbol : Symbol} {v : Object V}

theorem mem_withBinding {e : Environment} {s : Symbol} :
    s ∈ (withBinding σ frame symbol v).extensions e
      ↔ s ∈ σ.extensions e ∨ (e = frame ∧ s = symbol) := by
  by_cases he : e = frame
  · subst he
    simp [withBinding, State.setCell]
  · simp [withBinding, State.setCell, he]

theorem cellCache_withBinding_ne {cell : Cell} (h : cell ≠ .extension frame symbol) :
    cellCache (withBinding σ frame symbol v) cell = cellCache σ cell := by
  unfold withBinding
  rw [cellCache_setCell_ne h]
  rfl

theorem argument_withBinding (e : Environment) (i : Nat) :
    (withBinding σ frame symbol v).cells (.argument e i) = σ.cells (.argument e i) := by
  have hne : Cell.argument e i ≠ .extension frame symbol := fun hc => by cases hc
  exact Function.update_of_ne hne v σ.cells

theorem scan_withBinding (hframe : procedureFrameP frame = true) :
    scanFrame (withBinding σ frame symbol v) frame symbol false
      = some (.extension frame symbol) := by
  cases frame with
  | null | global => cases hframe
  | procedureFrame n ps nd parent =>
      rw [scanFrame, if_pos (mem_withBinding.mpr (Or.inr ⟨rfl, rfl⟩))]

theorem scan_withBinding_ne {e : Environment} {s : Symbol} (hne : ¬ (e = frame ∧ s = symbol)) :
    scanFrame (withBinding σ frame symbol v) e s false = scanFrame σ e s false := by
  refine scanFrame_congr ?_ fun i => by rw [argument_withBinding]
  rw [mem_withBinding]
  exact ⟨fun h => h.resolve_right hne, Or.inl⟩

end WithBinding

end MitScheme.Lookup
