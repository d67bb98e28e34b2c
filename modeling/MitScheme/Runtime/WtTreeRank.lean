import MitScheme.Runtime.WtTreeProof

/-!
# Indices and ranks

A tree as a sorted sequence of associations: an index and a rank add up the sizes of the subtrees that are
passed on the way, and both count the keys below.
-/

namespace MitScheme.WtTree

open List

variable {K V : Type}

/-- The loop of `node/index`. -/
def nodeIndexLoop : Node K V → Int → Option (K × V)
  | .empty, _ => none
  | .node _ l k r v, index =>
      if index < l.size then nodeIndexLoop l index
      else if l.size < index then nodeIndexLoop r (index - (1 + l.size))
      else some (k, v)

/-- `node/index`: the key and the datum of the node. Outside of the bounds it signals an error. -/
def nodeIndex (node : Node K V) (index : Int) : Option (K × V) :=
  if 0 ≤ index ∧ index < node.size then nodeIndexLoop node index else none

/-- `node/rank`, which returns `#f` for a key that is not there. -/
def nodeRank (type : TreeType K) (k : K) : Node K V → Nat → Option Nat
  | .empty, _ => none
  | .node _ l key r _, rank =>
      if type.keyLess k key then nodeRank type k l rank
      else if type.keyLess key k then nodeRank type k r (1 + rank + l.size)
      else some (rank + l.size)

section

variable {S : Type} (procedure : K → V → S → S)

def nodeInorderFold : S → Node K V → S
  | base, .empty => base
  | base, .node _ l k r v => nodeInorderFold (procedure k v (nodeInorderFold base r)) l

/-- `node/for-each`, with the state that the procedure changes. -/
def nodeForEach : Node K V → S → S
  | .empty, state => state
  | .node _ l k r v, state => nodeForEach r (procedure k v (nodeForEach l state))

def wtTreeFold (init : S) (tree : Tree K V) : S := nodeInorderFold procedure init tree.root

def wtTreeForEach (tree : Tree K V) : S → S := nodeForEach procedure tree.root

end

/-- `wt-tree/index`, which tests the node for `#f`. -/
def wtTreeIndex (tree : Tree K V) (index : Int) : Option (Option K) :=
  (nodeIndex tree.root index).map fun node => some node.1

def wtTreeRank (types : Nat → TreeType K) (tree : Tree K V) (key : K) : Option Nat :=
  nodeRank (types tree.type) key tree.root 0

def wtTreeMin (tree : Tree K V) : Option K := (nodeMin tree.root).map Prod.fst

/-! ## The sequence -/

variable {type : TreeType K} {t : Node K V} {list : List (K × V)} {i : Nat} {k : K}

theorem nodeIndexLoop_spec (h : WeightBalanced t) (i : Nat) : nodeIndexLoop t i = t.toList[i]? := by
  induction t generalizing i with
  | empty => rfl
  | node w l k r v ihl ihr =>
      obtain ⟨-, -, hl, hr⟩ := h
      have hsize := hl.size_eq
      rw [nodeIndexLoop, Node.toList]
      rcases lt_trichotomy i l.size with hlt | rfl | hlt
      · rw [if_pos (by omega), ihl hl, List.getElem?_append_left (by omega)]
      · rw [if_neg (lt_irrefl _), if_neg (lt_irrefl _), hsize, List.getElem?_append_right (le_refl _),
          Nat.sub_self]
        rfl
      · have hindex : (i : Int) - (1 + l.size) = (i - l.size - 1 : Nat) := by omega
        obtain ⟨j, hj⟩ : ∃ j, i - l.toList.length = j + 1 := ⟨i - l.toList.length - 1, by omega⟩
        rw [if_neg (by omega), if_pos (by omega), hindex, ihr hr, List.getElem?_append_right (by omega), hsize, hj]
        rfl

theorem nodeIndex_spec (h : WeightBalanced t) (i : Nat) : nodeIndex t i = t.toList[i]? := by
  have hsize := h.size_eq
  unfold nodeIndex
  split
  · exact nodeIndexLoop_spec h i
  · rw [List.getElem?_eq_none (by omega)]

theorem nodeRank_spec [DecidableEq K] (h : Valid type t) (rank : Nat) :
    nodeRank type k t rank = if k ∈ t.keys then some (rank + (below type k t.toList).length) else none := by
  induction t generalizing rank with
  | empty => rfl
  | node w l key r v ihl ihr =>
      have hsize := h.left.balanced.size_eq
      have hsorted : Sorted type (l.toList ++ (key, v) :: r.toList) := h.sorted
      simp only [nodeRank, mem_keys_node, Node.toList]
      by_cases hless : type.keyLess k key = true
      · have hkey : k ≠ key ∧ k ∉ r.keys := by
          refine ⟨?_, fun hr => ?_⟩
          · rintro rfl
            rw [type.irreflexive] at hless
            cases hless
          · rw [TreeType.asymmetric (h.keys_right hr)] at hless
            cases hless
        simp only [if_pos hless, ihl h.left, hkey.1, hkey.2, or_false, below_append_cons_of_less hsorted hless]
      · rw [if_neg hless]
        by_cases hgreater : type.keyLess key k = true
        · have hkey : k ≠ key ∧ k ∉ l.keys := by
            refine ⟨?_, fun hl => hless (h.keys_left hl)⟩
            rintro rfl
            exact hless hgreater
          simp only [if_pos hgreater, ihr h.right, hkey.1, hkey.2, false_or,
            below_append_cons_of_greater hsorted hgreater, length_append, length_cons, hsize]
          congr 2
          omega
        · obtain rfl := TreeType.eq_of_not_less hless hgreater
          rw [if_neg hgreater, if_pos (.inr (.inl rfl)), below_append_cons_self hsorted, hsize]

theorem below_of_index (h : Sorted type list) {p : K × V} (hp : list[i]? = some p) :
    (below type p.1 list).length = i := by
  obtain ⟨hlt, hget⟩ := List.getElem?_eq_some_iff.mp hp
  have hlist : list.take i ++ p :: list.drop (i + 1) = list := by
    rw [← hget, ← drop_eq_getElem_cons hlt, take_append_drop]
  rw [← hlist] at h
  have hbelow := below_append_cons_self h
  rw [hlist] at hbelow
  rw [hbelow, length_take]
  omega

theorem nodeInorderFold_spec {S : Type} (procedure : K → V → S → S) (base : S) (t : Node K V) :
    nodeInorderFold procedure base t = t.toList.reverse.foldl (fun s p => procedure p.1 p.2 s) base := by
  induction t generalizing base with
  | empty => rfl
  | node w l k r v ihl ihr =>
      simp only [nodeInorderFold, Node.toList, ihl, ihr, reverse_append, reverse_cons, foldl_append,
        foldl_cons, foldl_nil]

theorem nodeForEach_spec {S : Type} (procedure : K → V → S → S) (t : Node K V) (state : S) :
    nodeForEach procedure t state = t.toList.foldl (fun s p => procedure p.1 p.2 s) state := by
  induction t generalizing state with
  | empty => rfl
  | node w l k r v ihl ihr => simp only [nodeForEach, Node.toList, ihl, ihr, foldl_append, foldl_cons]

/-! ## Trees -/

variable {types : Nat → TreeType K} {tree : Tree K V}

theorem wtTreeIndex_spec (h : ValidTree types tree) (i : Nat) :
    wtTreeIndex tree i = (tree.root.toList[i]?).map fun p => some p.1 := by
  rw [wtTreeIndex, nodeIndex_spec h.root.balanced]

theorem wtTreeRank_spec [DecidableEq K] (h : ValidTree types tree) (key : K) :
    wtTreeRank types tree key =
      if key ∈ tree.root.keys then some (below (types tree.type) key tree.root.toList).length else none := by
  rw [wtTreeRank, nodeRank_spec h.root, Nat.zero_add]

theorem wtTreeRank_eq_some [DecidableEq K] (h : ValidTree types tree) {key : K} :
    wtTreeRank types tree key = some i ↔ wtTreeIndex tree i = some (some key) := by
  rw [wtTreeRank_spec h, wtTreeIndex_spec h]
  have hsorted := h.root.sorted
  constructor
  · intro hrank
    split at hrank
    · next hkey =>
        obtain ⟨p, hp, rfl⟩ := List.mem_map.mp hkey
        obtain ⟨j, hj⟩ := mem_iff_getElem?.mp hp
        rw [below_of_index hsorted hj] at hrank
        cases hrank
        rw [hj]
        rfl
    · cases hrank
  · intro hindex
    obtain ⟨p, hp, hkey⟩ := Option.map_eq_some_iff.mp hindex
    cases hkey
    have hkey : p.1 ∈ tree.root.keys := List.mem_map_of_mem (mem_of_getElem? hp)
    rw [if_pos hkey, below_of_index hsorted hp]

theorem wtTreeMin_spec (h : ValidTree types tree) : wtTreeIndex tree 0 = (wtTreeMin tree).map some := by
  have hindex := wtTreeIndex_spec h 0
  rw [Int.natCast_zero] at hindex
  rw [hindex, wtTreeMin]
  cases hlist : tree.root.toList with
  | nil =>
      cases hroot : tree.root with
      | empty => rfl
      | node w l k r v =>
          rw [hroot] at hlist
          exact absurd hlist (append_ne_nil_of_right_ne_nil _ (cons_ne_nil _ _))
  | cons p rest =>
      rw [nodeMin_spec hlist]
      rfl

theorem wtTreeDeleteMin_removes (h : ValidTree types tree) {key : K} (hmin : wtTreeMin tree = some key) :
    ∃ datum tree', wtTreeDeleteMin tree = some tree' ∧ ValidTree types tree'
      ∧ tree.root.toList = (key, datum) :: tree'.root.toList := by
  have hindex := wtTreeMin_spec h
  rw [hmin, ← Int.natCast_zero, wtTreeIndex_spec h] at hindex
  cases hlist : tree.root.toList with
  | nil =>
      rw [hlist] at hindex
      cases hindex
  | cons p rest =>
      rw [hlist] at hindex
      cases hindex
      obtain ⟨root, hroot, hbalanced, hrest⟩ := nodeDelmin_spec h.root.balanced hlist
      have hsorted := h.root.sorted
      rw [hlist] at hsorted
      refine ⟨p.2, { tree with root := root }, ?_, validTree_iff.mpr ⟨hbalanced, ?_⟩, ?_⟩
      · rw [wtTreeDeleteMin, hroot]
        rfl
      · exact hrest ▸ (pairwise_cons.mp hsorted).2
      · rw [← hrest]

/-- **Indices and ranks.** An index finds the key with so many keys below it, and is an error outside of the bounds. A
rank is the number of keys below a key that is there. The two are inverse. The minimum is at index 0, and is what is
deleted. `wt-tree/for-each` visits the associations by their ranks, and `wt-tree/fold` in the reverse order. -/
theorem index_and_rank [DecidableEq K] (h : ValidTree types tree) :
    (∀ i : Int, 0 ≤ i → i < tree.root.keys.length → ∃ key ∈ tree.root.keys, wtTreeIndex tree i = some (some key)
      ∧ ((below (types tree.type) key tree.root.toList).length : Int) = i)
    ∧ (∀ i : Int, ¬ (0 ≤ i ∧ i < tree.root.keys.length) → wtTreeIndex tree i = none)
    ∧ (∀ key, wtTreeRank types tree key =
      if key ∈ tree.root.keys then some (below (types tree.type) key tree.root.toList).length else none)
    ∧ (∀ key (i : Nat), wtTreeRank types tree key = some i ↔ wtTreeIndex tree i = some (some key))
    ∧ wtTreeIndex tree 0 = (wtTreeMin tree).map some
    ∧ (∀ key, wtTreeMin tree = some key → ∃ datum tree', wtTreeDeleteMin tree = some tree' ∧ ValidTree types tree'
      ∧ tree.root.toList = (key, datum) :: tree'.root.toList)
    ∧ ∃ visited : List (K × V), (∀ (i : Nat) key datum, visited[i]? = some (key, datum) →
        wtTreeRank types tree key = some i) ∧ visited = tree.root.toList
      ∧ ∀ {S : Type} (procedure : K → V → S → S) (s : S),
        wtTreeForEach procedure tree s = visited.foldl (fun s p => procedure p.1 p.2 s) s
        ∧ wtTreeFold procedure s tree = visited.reverse.foldl (fun s p => procedure p.1 p.2 s) s := by
  have hlength : tree.root.keys.length = tree.root.toList.length := length_map _
  refine ⟨fun i h0 hlt => ?_, fun i hout => ?_, wtTreeRank_spec h, fun key i => wtTreeRank_eq_some h,
    wtTreeMin_spec h, fun key => wtTreeDeleteMin_removes h, tree.root.toList, fun i key datum hvisited => ?_, rfl,
    fun procedure s => ⟨nodeForEach_spec procedure tree.root s, nodeInorderFold_spec procedure s tree.root⟩⟩
  · obtain ⟨i, rfl⟩ := Int.eq_ofNat_of_zero_le h0
    have hi : i < tree.root.toList.length := by omega
    have hget := List.getElem?_eq_getElem hi
    refine ⟨_, List.mem_map_of_mem (getElem_mem hi), ?_, ?_⟩
    · rw [wtTreeIndex_spec h, hget]
      rfl
    · rw [below_of_index h.root.sorted hget]
  · rw [wtTreeIndex, nodeIndex, if_neg (by rw [h.root.balanced.size_eq]; omega)]
    rfl
  · rw [wtTreeRank_eq_some h, wtTreeIndex_spec h, hvisited]
    rfl

theorem index_and_rank_threeKeys : wtTreeRank (fun _ => numberType) ⟨0, threeKeys⟩ 3 = some 2 :=
  ((index_and_rank validTree_threeKeys).2.2.2.1 3 2).mpr rfl

/-- An index that is too large is an error, and `wt-tree/fold` visits the last association first. -/
theorem index_too_large : ValidTree (fun _ => numberType) ⟨0, threeKeys⟩
    ∧ wtTreeIndex (⟨0, threeKeys⟩ : Tree Nat Nat) 3 ≠ some none
    ∧ wtTreeFold (fun k _ visited => visited ++ [k]) [] ⟨0, threeKeys⟩ = [3, 2, 1] :=
  ⟨validTree_threeKeys, by decide, rfl⟩

end MitScheme.WtTree
