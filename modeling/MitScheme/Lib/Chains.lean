import Mathlib.Data.List.Perm.Subperm
import Mathlib.Order.Nat

/-!
# Chains of cells

Cells in a heap, each linked to the next one, hold a list. `Linked` says which list is met from a link
on until another link is reached, so that a chain can be cut where a program stands in it.
-/

namespace MitScheme.Chains

open List

variable {β : Type}

/-- A link to a cell, or none. -/
abbrev Link := Option Nat

/-- What a cell has, and the link to the next cell. -/
abbrev Cells (β : Type) := Nat → Option (β × Link)

/-- The cells from one link to another one, with what they have. -/
def Linked (cells : Cells β) : Link → List (Nat × β) → Link → Prop
  | start, [], stop => start = stop
  | start, (a, v) :: rest, stop =>
      start = some a ∧ ∃ next, cells a = some (v, next) ∧ Linked cells next rest stop

variable {cells cells' : Cells β} {start mid stop next : Link} {xs ys rest : List (Nat × β)} {a : Nat}
  {v v' : β}

theorem linked_append :
    Linked cells start (xs ++ ys) stop
      ↔ ∃ mid, Linked cells start xs mid ∧ Linked cells mid ys stop := by
  induction xs generalizing start with
  | nil => exact ⟨fun h => ⟨start, rfl, h⟩, fun ⟨_, hmid, h⟩ => hmid ▸ h⟩
  | cons x xs ih =>
      refine ⟨fun h => ?_, fun h => ?_⟩
      · obtain ⟨hstart, next, hcell, hrest⟩ := h
        obtain ⟨mid, hxs, hys⟩ := ih.mp hrest
        exact ⟨mid, ⟨hstart, next, hcell, hxs⟩, hys⟩
      · obtain ⟨mid, ⟨hstart, next, hcell, hxs⟩, hys⟩ := h
        exact ⟨hstart, next, hcell, ih.mpr ⟨mid, hxs, hys⟩⟩

/-- The addresses of the cells. -/
def addresses (xs : List (Nat × β)) : List Nat := xs.map Prod.fst

@[simp] theorem addresses_cons (x : Nat × β) : addresses (x :: xs) = x.1 :: addresses xs := rfl

@[simp] theorem addresses_append : addresses (xs ++ ys) = addresses xs ++ addresses ys :=
  map_append

theorem Linked.congr (h : Linked cells start xs stop)
    (heq : ∀ a ∈ addresses xs, cells' a = cells a) : Linked cells' start xs stop := by
  induction xs generalizing start with
  | nil => exact h
  | cons x xs ih =>
      obtain ⟨hstart, next, hcell, hrest⟩ := h
      refine ⟨hstart, next, ?_, ih hrest fun a ha => heq a (mem_cons_of_mem _ ha)⟩
      rw [heq x.1 mem_cons_self, hcell]

theorem length_le {bound : Nat} (hnodup : (addresses xs).Nodup)
    (hbound : ∀ a ∈ addresses xs, a < bound) : xs.length ≤ bound := by
  have hsub : addresses xs ⊆ List.range bound := fun a ha => mem_range.mpr (hbound a ha)
  have hle := (hnodup.subperm hsub).length_le
  rw [length_range, addresses, length_map] at hle
  exact hle

theorem Linked.setNext (h : Linked cells start (xs ++ [(a, v)]) stop) (hnodup : a ∉ addresses xs)
    (hself : cells' a = some (v, next)) (hother : ∀ b, b ≠ a → cells' b = cells b) :
    Linked cells' start (xs ++ [(a, v)]) next := by
  obtain ⟨mid, hxs, hmid⟩ := linked_append.mp h
  refine linked_append.mpr ⟨mid, hxs.congr fun b hb => hother b ?_, hmid.1, next, hself, rfl⟩
  intro hba
  subst hba
  exact hnodup hb

/-! ## Many chains -/

/-- The links are to the starts of these chains. -/
structure Holds (cells : Cells β) (links : List Link) (chains : List (List (Nat × β))) : Prop where
  length : chains.length = links.length
  linked : ∀ (n : Nat) l xs, links[n]? = some l → chains[n]? = some xs → Linked cells l xs none

variable {links : List Link} {chains : List (List (Nat × β))} {n : Nat} {l : Link}

theorem holds_cons : Holds cells (l :: links) (xs :: chains) ↔
    Linked cells l xs none ∧ Holds cells links chains := by
  refine ⟨fun h => ⟨h.linked 0 l xs rfl rfl, Nat.succ.inj h.length, fun n => h.linked (n + 1)⟩,
    fun ⟨hxs, h⟩ => ⟨congrArg Nat.succ h.length, fun n l' ys hl hys => ?_⟩⟩
  cases n with
  | zero =>
      cases hl
      cases hys
      exact hxs
  | succ n => exact h.linked n l' ys hl hys

theorem Holds.exists_chain (h : Holds cells links chains) (hl : links[n]? = some l) :
    ∃ xs, chains[n]? = some xs ∧ Linked cells l xs none := by
  have hlt : n < chains.length := h.length ▸ (List.getElem?_eq_some_iff.mp hl).1
  exact ⟨chains[n], List.getElem?_eq_getElem hlt, h.linked n l _ hl (List.getElem?_eq_getElem hlt)⟩

theorem Holds.set (h : Holds cells links chains) (hxs : Linked cells' l xs none)
    (heq : ∀ (m : Nat) ys, m ≠ n → chains[m]? = some ys → ∀ a ∈ addresses ys, cells' a = cells a) :
    Holds cells' (links.set n l) (chains.set n xs) := by
  refine ⟨by rw [length_set, length_set, h.length], fun m l' ys hl hys => ?_⟩
  by_cases hm : m = n
  · subst hm
    have hlt := (List.getElem?_eq_some_iff.mp hl).1
    rw [length_set] at hlt
    rw [List.getElem?_set_self hlt] at hl
    rw [List.getElem?_set_self (h.length ▸ hlt)] at hys
    cases hl
    cases hys
    exact hxs
  · rw [List.getElem?_set_ne (Ne.symm hm)] at hl hys
    exact (h.linked m l' ys hl hys).congr (heq m ys hm hys)

theorem Holds.congr (h : Holds cells links chains)
    (heq : ∀ a ∈ addresses chains.flatten, cells' a = cells a) : Holds cells' links chains := by
  refine ⟨h.length, fun m l ys hl hys => (h.linked m l ys hl hys).congr fun a ha => heq a ?_⟩
  rw [addresses, List.mem_map] at ha ⊢
  obtain ⟨x, hx, rfl⟩ := ha
  exact ⟨x, mem_flatten_of_mem (mem_of_getElem? hys) hx, rfl⟩

theorem holds_replicate (n : Nat) : Holds cells (List.replicate n none) (List.replicate n []) := by
  refine ⟨by rw [length_replicate, length_replicate], fun m l ys hl hys => ?_⟩
  rw [List.getElem?_replicate] at hl hys
  by_cases hm : m < n
  · rw [if_pos hm] at hl hys
    cases hl
    cases hys
    rfl
  · rw [if_neg hm] at hl
    cases hl

theorem flatten_set (h : chains[n]? = some xs) :
    ∃ others, chains.flatten.Perm (xs ++ others)
      ∧ (∀ ys, (chains.set n ys).flatten.Perm (ys ++ others))
      ∧ ∀ (m : Nat) ys, m ≠ n → chains[m]? = some ys → ys ⊆ others := by
  induction chains generalizing n with
  | nil => cases h
  | cons zs chains ih =>
      cases n with
      | zero =>
          cases h
          refine ⟨chains.flatten, .refl _, fun ys => .refl _, fun m ys hm hys x hx => ?_⟩
          obtain ⟨m, rfl⟩ := Nat.exists_eq_succ_of_ne_zero hm
          exact mem_flatten_of_mem (mem_of_getElem? hys) hx
      | succ n =>
          obtain ⟨others, hperm, hset, hsub⟩ := ih h
          refine ⟨zs ++ others, ?_, fun ys => ?_, fun m ys hm hys x hx => ?_⟩
          · exact (hperm.append_left zs).trans (perm_append_comm_assoc zs xs others)
          · exact ((hset ys).append_left zs).trans (perm_append_comm_assoc zs ys others)
          · cases m with
            | zero =>
                cases hys
                exact mem_append_left _ hx
            | succ m => exact mem_append_right _ (hsub m ys (by omega) hys hx)

end MitScheme.Chains
