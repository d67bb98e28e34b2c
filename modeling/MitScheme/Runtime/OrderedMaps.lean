import MitScheme.Runtime.RbtreeRuns
import MitScheme.Runtime.WtTreeProof

/-!
# Two kinds of ordered maps

A weight-balanced tree is made anew by each procedure, and a red-black tree is changed where it is. After the
same associations were added and deleted, a lookup finds the same in both.
-/

namespace MitScheme.OrderedMaps

open Rbtree WtTree

variable {κ α : Type} [LinearOrder κ]

/-- The type of trees whose keys are compared by `<`. -/
def orderedType : TreeType κ where
  keyLess a b := decide (a < b)
  irreflexive k := decide_eq_false (lt_irrefl k)
  transitive h h' := decide_eq_true ((of_decide_eq_true h).trans (of_decide_eq_true h'))
  trichotomous k k' := by simpa using lt_trichotomy k k'

/-- An association is added, or deleted if there is no datum. -/
def updateWtTree (tree : Tree κ α) : κ × Option α → Option (Tree κ α)
  | (key, some datum) => wtTreeAdd (fun _ => orderedType) tree key datum
  | (key, none) => wtTreeDelete (fun _ => orderedType) tree key

def updateRbTree : κ × Option α → Rbtree.Operation κ α
  | (key, some datum) => .insert 0 key datum
  | (key, none) => .delete 0 key

/-- The map after some updates. -/
def updated (map : κ → Option α) (updates : List (κ × Option α)) : κ → Option α :=
  updates.foldl (fun map update => Function.update map update.1 update.2) map

theorem updateWtTree_spec {tree : Tree κ α} (h : ValidTree (fun _ => orderedType) tree) (update : κ × Option α) :
    WtTree.Returns (fun _ => orderedType) (updateWtTree tree update)
      (Function.update (found (fun _ => orderedType) tree) update.1 update.2) := by
  obtain ⟨key, datum⟩ := update
  cases datum with
  | some datum =>
      refine (wtTreeAdd_spec h key datum).congr fun x => ?_
      rw [Function.update_apply]
      congr
  | none =>
      refine (wtTreeDelete_spec h key).congr fun x => ?_
      rw [Function.update_apply]
      congr

theorem updateWtTrees_spec (updates : List (κ × Option α)) {tree : Tree κ α}
    (h : ValidTree (fun _ => orderedType) tree) :
    ∃ tree', updates.foldlM updateWtTree tree = some tree'
      ∧ ∀ x, found (fun _ => orderedType) tree' x = updated (found (fun _ => orderedType) tree) updates x := by
  induction updates generalizing tree with
  | nil => exact ⟨tree, rfl, fun _ => rfl⟩
  | cons update updates ih =>
      obtain ⟨tree1, h1, hvalid, hfound⟩ := updateWtTree_spec h update
      obtain ⟨tree', h', hfound'⟩ := ih hvalid
      refine ⟨tree', by rw [List.foldlM_cons, h1]; exact h', fun x => ?_⟩
      rw [hfound', funext hfound]
      rfl

theorem meaning_updateRbTree (updates : List (κ × Option α)) (map : κ → Option α) :
    (updates.map updateRbTree).foldl Rbtree.Operation.meaning [map] = [updated map updates] := by
  induction updates generalizing map with
  | nil => rfl
  | cons update updates ih =>
      obtain ⟨key, datum⟩ := update
      cases datum with
      | some datum => exact ih _
      | none => exact ih _

/-- **Red-black trees and weight-balanced trees find the same.** -/
theorem ordered_maps_agree (updates : List (κ × Option α)) :
    ∃ tree w root, updates.foldlM updateWtTree (makeWtTree 0) = some tree
      ∧ World.empty.performAll (.make :: updates.map updateRbTree) = some w ∧ w.roots = [root]
      ∧ ∀ key default, State.rbTreeLookup ⟨w.cells, w.next, root⟩ keyEq keyLess key default
        = some (wtTreeLookup (fun _ => orderedType) tree key default) := by
  have hmade : Represents (World.empty : World κ α) [] [] := ⟨rfl, rfl, nofun, nofun, nofun⟩
  have hempty : ValidTree (fun _ => orderedType) (makeWtTree 0 : Tree κ α) := validTree_iff.mpr valid_empty
  obtain ⟨tree, htree, hfound⟩ := updateWtTrees_spec updates hempty
  obtain ⟨w, trees, hw, h⟩ := hmade.performAll (.make :: updates.map updateRbTree)
  rw [List.foldl_cons, Operation.meaning, List.nil_append, meaning_updateRbTree] at h
  -- either tree is compared with the map that the updates make
  obtain ⟨t, rfl⟩ := List.length_eq_one_iff.mp h.length
  refine ⟨tree, w, t.root, htree, hw, h.roots, fun key default => ?_⟩
  rw [rbTreeLookup_spec (h.held 0 t rfl) rfl (h.lists 0 t _ rfl rfl) key default, wtTreeLookup_eq, hfound]
  rfl

end MitScheme.OrderedMaps
