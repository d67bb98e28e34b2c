import MitScheme.Runtime.WtTreeProof

/-!
# The data of merged trees

Where both trees have a key, the reference manual says whose datum the result has: that of the
first tree in an intersection, and what the procedure of `wt-tree/union-merge` makes of the datum
of the first tree and that of the second, in this order. Both procedures split the first tree at
the keys of the second, and take the two data the other way round.
-/

namespace MitScheme.WtTree

variable {K V : Type} {types : Nat → TreeType K} {tree1 tree2 : Tree K V}

/-- The manual's datum for a key of an intersection. -/
def manualIntersection : Option V → Option V → Option V
  | some v1, some _ => some v1
  | _, _ => none

/-- The manual's datum for a key of a union. -/
def manualUnionMerge (merge : K → V → V → V) (k : K) : Option V → Option V → Option V
  | some v1, some v2 => some (merge k v1 v2)
  | none, v2 => v2
  | v1, none => v1

/-- Both operations return trees with the same associations. -/
def SameMap (types : Nat → TreeType K) (result result' : Option (Tree K V)) : Prop :=
  ∃ tree tree', result = some tree ∧ result' = some tree'
    ∧ ∀ x, found types tree x = found types tree' x

/-- The trees have the same datum for each key that both have. -/
def DataAgree (types : Nat → TreeType K) (tree1 tree2 : Tree K V) : Prop :=
  ∀ x v1 v2, found types tree1 x = some v1 → found types tree2 x = some v2 → v1 = v2

/-- The procedure does not mind the order of the data of the keys that both trees have. -/
def MergeCommutes (types : Nat → TreeType K) (tree1 tree2 : Tree K V)
    (merge : K → V → V → V) : Prop :=
  ∀ x v1 v2, found types tree1 x = some v1 → found types tree2 x = some v2 →
    merge x v2 v1 = merge x v1 v2

/-- The procedures merge the data of two trees as the reference manual says. -/
structure MergesData (types : Nat → TreeType K) (tree1 tree2 : Tree K V)
    (merge : K → V → V → V) : Prop where
  intersection : Returns types (wtTreeIntersection types tree1 tree2)
    fun x => manualIntersection (found types tree1 x) (found types tree2 x)
  unionMerge : Returns types (wtTreeUnionMerge types tree1 tree2 merge)
    fun x => manualUnionMerge merge x (found types tree1 x) (found types tree2 x)
  union : SameMap types (wtTreeUnionMerge types tree1 tree2 fun _ _ v2 => v2)
    (wtTreeUnion types tree1 tree2)

theorem Returns.iff_eq {result : Option (Tree K V)} {m m' : K → Option V}
    (h : Returns types result m) : Returns types result m' ↔ ∀ x, m x = m' x := by
  refine ⟨fun h' x => ?_, h.congr⟩
  obtain ⟨tree, rfl, -, hm⟩ := h
  obtain ⟨tree', htree, -, hm'⟩ := h'
  cases htree
  rw [← hm x, hm' x]

theorem Returns.sameMap_iff {result result' : Option (Tree K V)} {m m' : K → Option V}
    (h : Returns types result m) (h' : Returns types result' m') :
    SameMap types result result' ↔ ∀ x, m x = m' x := by
  obtain ⟨tree, rfl, -, hm⟩ := h
  obtain ⟨tree', rfl, -, hm'⟩ := h'
  refine ⟨fun hsame x => ?_, fun heq => ⟨tree, tree', rfl, rfl, fun x => ?_⟩⟩
  · obtain ⟨t, t', ht, ht', hx⟩ := hsame
    cases ht
    cases ht'
    rw [← hm x, ← hm' x, hx x]
  · rw [hm x, hm' x, heq x]

section

variable (h1 : ValidTree types tree1) (h2 : ValidTree types tree2)
  (htype : tree1.type = tree2.type)

include h1 h2 htype

theorem intersection_iff :
    (Returns types (wtTreeIntersection types tree1 tree2)
      fun x => manualIntersection (found types tree1 x) (found types tree2 x))
    ↔ DataAgree types tree1 tree2 := by
  rw [(wtTreeIntersection_spec h1 h2 htype).iff_eq]
  refine forall_congr' fun x => ?_
  cases found types tree1 x with
  | none => simp [intersectionData, manualIntersection]
  | some v1 =>
      cases found types tree2 x with
      | none => simp [intersectionData, manualIntersection]
      | some v2 => simp [intersectionData, manualIntersection, eq_comm]

theorem unionMerge_iff (merge : K → V → V → V) :
    (Returns types (wtTreeUnionMerge types tree1 tree2 merge)
      fun x => manualUnionMerge merge x (found types tree1 x) (found types tree2 x))
    ↔ MergeCommutes types tree1 tree2 merge := by
  rw [(wtTreeUnionMerge_spec h1 h2 htype merge).iff_eq]
  refine forall_congr' fun x => ?_
  cases found types tree1 x with
  | none => simp [mergeData, manualUnionMerge]
  | some v1 =>
      cases found types tree2 x with
      | none | some v2 => simp [mergeData, manualUnionMerge]

theorem unionMerge_third_iff :
    SameMap types (wtTreeUnionMerge types tree1 tree2 fun _ _ v2 => v2)
      (wtTreeUnion types tree1 tree2)
    ↔ DataAgree types tree1 tree2 := by
  rw [(wtTreeUnionMerge_spec h1 h2 htype _).sameMap_iff (wtTreeUnion_spec h1 h2 htype)]
  refine forall_congr' fun x => ?_
  cases found types tree1 x with
  | none => simp [mergeData]
  | some v1 =>
      cases found types tree2 x with
      | none | some v2 => simp [mergeData]

/-- **Merging takes the data in the wrong order.** The manual is right about two trees exactly
when they have the same datum under each key of both. For `wt-tree/union-merge` alone it is
enough that the procedure does not mind the order of the data. -/
theorem mergesData_iff (merge : K → V → V → V) :
    (MergesData types tree1 tree2 merge ↔ DataAgree types tree1 tree2)
    ∧ ((Returns types (wtTreeIntersection types tree1 tree2)
        fun x => manualIntersection (found types tree1 x) (found types tree2 x))
      ↔ DataAgree types tree1 tree2)
    ∧ ((Returns types (wtTreeUnionMerge types tree1 tree2 merge)
        fun x => manualUnionMerge merge x (found types tree1 x) (found types tree2 x))
      ↔ MergeCommutes types tree1 tree2 merge)
    ∧ (SameMap types (wtTreeUnionMerge types tree1 tree2 fun _ _ v2 => v2)
        (wtTreeUnion types tree1 tree2)
      ↔ DataAgree types tree1 tree2) := by
  have hintersection := intersection_iff h1 h2 htype
  have hunion := unionMerge_third_iff h1 h2 htype
  have hmerge := unionMerge_iff h1 h2 htype merge
  refine ⟨⟨fun h => hintersection.mp h.intersection, fun h => ?_⟩, hintersection, hmerge, hunion⟩
  refine ⟨hintersection.mpr h, hmerge.mpr fun x v1 v2 hv1 hv2 => ?_, hunion.mpr h⟩
  rw [h x v1 v2 hv1 hv2]

end

theorem mergesData_iff_threeKeys :
    ¬MergesData (fun _ => numberType) ⟨0, threeKeys⟩ ⟨0, nodeSingleton 2 25⟩ (fun _ v1 _ => v1) := by
  intro h
  have hagree := (mergesData_iff validTree_threeKeys (validTree_singleton 2 25) rfl _).1.mp h
  exact absurd (hagree 2 20 25 rfl rfl) (by decide)

/-- The intersection of these trees has the datum of the second. -/
theorem intersection_wrong_datum :
    ¬∀ (tree1 tree2 : Tree Nat Nat) (merge : Nat → Nat → Nat → Nat),
      ValidTree (fun _ => numberType) tree1 → ValidTree (fun _ => numberType) tree2 →
      tree1.type = tree2.type → MergesData (fun _ => numberType) tree1 tree2 merge := by
  intro h
  have hmerges := h ⟨0, threeKeys⟩ ⟨0, nodeSingleton 2 25⟩ (fun _ v1 _ => v1) validTree_threeKeys
    (validTree_singleton 2 25) rfl
  have hagree := (intersection_iff validTree_threeKeys (validTree_singleton 2 25) rfl).mp
    hmerges.intersection
  exact absurd (hagree 2 20 25 rfl rfl) (by decide)

end MitScheme.WtTree
