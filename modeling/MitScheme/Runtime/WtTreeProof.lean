import Mathlib.Data.List.Perm.Subperm
import MitScheme.Runtime.WtTreeMaps

/-!
# The invariant of the trees, and what they implement

Whatever is done with trees, they pass the test of `wt-tree/valid?` and their sizes are
right. And they are finite maps: what a lookup finds in the result of an operation is what
the operation on maps says.
-/

namespace MitScheme.WtTree

open LogBalance List Option
open Or (inl inr)

variable {K V : Type} {type : TreeType K}

/-! ## Subsets -/

/-- A test returns whether the proposition holds. -/
def Decides (result : Option Bool) (p : Prop) : Prop :=
  ∃ b, result = some b ∧ (b = true ↔ p)

theorem Decides.andThen {x y : Option Bool} {p q : Prop} (hx : Decides x p) (hy : Decides y q) :
    Decides (WtTree.andThen x y) (p ∧ q) := by
  obtain ⟨b, rfl, hb⟩ := hx
  obtain ⟨b', rfl, hb'⟩ := hy
  cases b with
  | false =>
      refine ⟨false, rfl, ?_⟩
      have : ¬ p := fun hp => Bool.false_ne_true (hb.mpr hp)
      simp [this]
  | true =>
      refine ⟨b', rfl, ?_⟩
      rw [hb']
      exact ⟨fun hq => ⟨hb.mp rfl, hq⟩, And.right⟩

theorem Decides.congr {x : Option Bool} {p q : Prop} (h : Decides x p) (hpq : p ↔ q) :
    Decides x q := by
  obtain ⟨b, hb, hiff⟩ := h
  exact ⟨b, hb, hiff.trans hpq⟩

/-- The keys of a tree. -/
def Node.keys (t : Node K V) : List K :=
  t.toList.map Prod.fst

variable {k x : K} {l r t : Node K V} {v : V} {w : Nat}

theorem mem_keys_node : x ∈ (Node.node w l k r v).keys ↔ x ∈ l.keys ∨ x = k ∨ x ∈ r.keys := by
  simp [Node.keys, Node.toList]

theorem Valid.keys_left
    (h : Valid type (.node w l k r v)) (hx : x ∈ l.keys) : type.keyLess x k = true := by
  obtain ⟨p, hp, rfl⟩ := List.mem_map.mp hx
  exact (sorted_append_cons.mp h.sorted).2.2.1 p hp

theorem Valid.keys_right
    (h : Valid type (.node w l k r v)) (hx : x ∈ r.keys) : type.keyLess k x = true := by
  obtain ⟨p, hp, rfl⟩ := List.mem_map.mp hx
  exact (sorted_append_cons.mp h.sorted).2.2.2 p hp

theorem Valid.mem_keys_of_less (h : Valid type (.node w l k r v)) (hx : type.keyLess x k = true) :
    x ∈ (Node.node w l k r v).keys ↔ x ∈ l.keys := by
  rw [mem_keys_node]
  constructor
  · rintro (hl | rfl | hr)
    · exact hl
    · rw [type.irreflexive] at hx
      cases hx
    · rw [TreeType.asymmetric (h.keys_right hr)] at hx
      cases hx
  · exact inl

theorem Valid.mem_keys_of_greater
    (h : Valid type (.node w l k r v)) (hx : type.keyLess k x = true) :
    x ∈ (Node.node w l k r v).keys ↔ x ∈ r.keys := by
  rw [mem_keys_node]
  constructor
  · rintro (hl | rfl | hr)
    · rw [TreeType.asymmetric (h.keys_left hl)] at hx
      cases hx
    · rw [type.irreflexive] at hx
      cases hx
    · exact hr
  · exact fun hr => inr (inr hr)

theorem Valid.nodup_keys (h : Valid type t) : t.keys.Nodup := by
  unfold Node.keys List.Nodup
  rw [pairwise_map]
  refine h.sorted.imp fun {p q} hpq heq => ?_
  rw [heq, type.irreflexive] at hpq
  cases hpq

theorem Valid.size_le {t1 t2 : Node K V} (h1 : Valid type t1) (h2 : Valid type t2)
    (hsub : t1.keys ⊆ t2.keys) : t1.size ≤ t2.size := by
  have hlen := (List.Nodup.subperm h1.nodup_keys hsub).length_le
  rw [Node.keys, Node.keys, length_map, length_map] at hlen
  rwa [h1.balanced.size_eq, h2.balanced.size_eq]

theorem nodeFind_decides (h : Valid type t) (k : K) :
    Decides (some (nodeFind type k t).isSome) (k ∈ t.keys) := by
  refine ⟨_, rfl, ?_⟩
  rw [nodeFind_spec h.sorted, isSome_map]
  exact contents_isSome_iff

theorem nodeSubset_spec {t1 t2 : Node K V} (h1 : Valid type t1) (h2 : Valid type t2) :
    Decides (nodeSubset type t1 t2) (t1.keys ⊆ t2.keys) := by
  induction t1 generalizing t2 with
  | empty => exact ⟨true, by rfl, by simp [Node.keys, Node.toList]⟩
  | node w l k r v ihl ihr =>
      unfold nodeSubset
      split
      · rename_i hw
        cases t2 with
        | empty =>
            have := h1.balanced.1
            simp only [size_empty] at hw
            omega
        | node w2 l2 k2 r2 v2 =>
            dsimp only
            split
            · rename_i hk
              -- what is to the left of `k` can only be to the left of `k2`
              refine ((ihl h1.left h2.left).andThen ((nodeFind_decides h2 k).andThen
                (ihr h1.right h2))).congr ?_
              constructor
              · rintro ⟨hl, hk', hr⟩ x hx
                rcases mem_keys_node.mp hx with hx | rfl | hx
                · exact mem_keys_node.mpr (inl (hl hx))
                · exact hk'
                · exact hr hx
              · intro hsub
                refine ⟨fun x hx => ?_, ?_, fun x hx => ?_⟩
                · have hlt := type.transitive (h1.keys_left hx) hk
                  exact (h2.mem_keys_of_less hlt).mp (hsub (mem_keys_node.mpr (inl hx)))
                · exact hsub (mem_keys_node.mpr (inr (inl rfl)))
                · exact hsub (mem_keys_node.mpr (inr (inr hx)))
            · split
              · rename_i hk
                refine ((ihr h1.right h2.right).andThen ((nodeFind_decides h2 k).andThen
                  (ihl h1.left h2))).congr ?_
                constructor
                · rintro ⟨hr, hk', hl⟩ x hx
                  rcases mem_keys_node.mp hx with hx | rfl | hx
                  · exact hl hx
                  · exact hk'
                  · exact mem_keys_node.mpr (inr (inr (hr hx)))
                · intro hsub
                  refine ⟨fun x hx => ?_, ?_, fun x hx => ?_⟩
                  · have hlt := type.transitive hk (h1.keys_right hx)
                    exact (h2.mem_keys_of_greater hlt).mp
                      (hsub (mem_keys_node.mpr (inr (inr hx))))
                  · exact hsub (mem_keys_node.mpr (inr (inl rfl)))
                  · exact hsub (mem_keys_node.mpr (inl hx))
              · rename_i hk hk'
                have heq := TreeType.eq_of_not_less hk hk'
                subst heq
                refine ((ihl h1.left h2.left).andThen (ihr h1.right h2.right)).congr ?_
                constructor
                · rintro ⟨hl, hr⟩ x hx
                  rcases mem_keys_node.mp hx with hx | rfl | hx
                  · exact mem_keys_node.mpr (inl (hl hx))
                  · exact mem_keys_node.mpr (inr (inl rfl))
                  · exact mem_keys_node.mpr (inr (inr (hr hx)))
                · intro hsub
                  refine ⟨fun x hx => ?_, fun x hx => ?_⟩
                  · exact (h2.mem_keys_of_less (h1.keys_left hx)).mp
                      (hsub (mem_keys_node.mpr (inl hx)))
                  · exact (h2.mem_keys_of_greater (h1.keys_right hx)).mp
                      (hsub (mem_keys_node.mpr (inr (inr hx))))
      · rename_i hw
        refine ⟨false, rfl, ?_⟩
        simp only [Bool.false_eq_true, false_iff]
        exact fun hsub => hw (h1.size_le h2 hsub)

/-! ## The test of validity -/

/-- The number of nodes. -/
def Node.count : Node K V → Nat
  | .empty => 0
  | .node _ l _ r _ => 1 + l.count + r.count

/-- The size of every node is the number of nodes below it, and itself. -/
def SizesRight : Node K V → Prop
  | .empty => True
  | .node w l k r v => w = (Node.node w l k r v).count ∧ SizesRight l ∧ SizesRight r

theorem SizesRight.size_eq (h : SizesRight t) : t.size = t.count := by
  cases t with
  | empty => rfl
  | node w l k r v => exact h.1

theorem near_iff {a b : Nat} :
    (!overweight a b && !overweight b a) = true ↔ Near a b := by
  rw [Bool.and_eq_true, Bool.not_eq_true', Bool.not_eq_true', Bool.eq_false_iff,
    Bool.eq_false_iff]
  constructor
  · rintro ⟨h, h'⟩
    exact near_of_not_overweight h h'
  · intro h
    have h1 := h.left
    have h2 := h.right
    rw [Ne, Ne, overweight_iff, overweight_iff]
    exact ⟨by omega, by omega⟩

theorem weightBalanced_iff : WeightBalanced t ↔ balanced t = true ∧ SizesRight t := by
  induction t with
  | empty => exact ⟨fun _ => ⟨rfl, trivial⟩, fun _ => trivial⟩
  | node w l k r v ihl ihr =>
      unfold WeightBalanced balanced SizesRight
      rw [Bool.and_eq_true, Bool.and_eq_true, near_iff, ihl, ihr]
      constructor
      · rintro ⟨hw, hnear, ⟨hl, hsl⟩, hr, hsr⟩
        refine ⟨⟨⟨hnear, hl⟩, hr⟩, ?_, hsl, hsr⟩
        rw [hw, hsl.size_eq, hsr.size_eq]
        rfl
      · rintro ⟨⟨⟨hnear, hl⟩, hr⟩, hw, hsl, hsr⟩
        refine ⟨?_, hnear, ⟨hl, hsl⟩, hr, hsr⟩
        rw [hw, hsl.size_eq, hsr.size_eq]
        rfl

theorem ordered_iff {notTooLow notTooHigh : K → Bool}
    (hlow : ∀ {k k'}, type.keyLess k k' = true → notTooLow k = true → notTooLow k' = true)
    (hhigh : ∀ {k k'}, type.keyLess k k' = true → notTooHigh k' = true → notTooHigh k = true) :
    ordered type t notTooLow notTooHigh = true
      ↔ Sorted type t.toList
        ∧ ∀ p ∈ t.toList, notTooLow p.1 = true ∧ notTooHigh p.1 = true := by
  induction t generalizing notTooLow notTooHigh with
  | empty => exact ⟨fun _ => ⟨List.Pairwise.nil, by simp [Node.toList]⟩, fun _ => rfl⟩
  | node w l k r v ihl ihr =>
      unfold ordered Node.toList
      rw [Bool.and_eq_true, Bool.and_eq_true, Bool.and_eq_true,
        ihl hlow (fun h h' => type.transitive h h'), ihr (fun h h' => type.transitive h' h) hhigh,
        sorted_append_cons]
      constructor
      · rintro ⟨⟨⟨hk, hk'⟩, hsl, hl⟩, hsr, hr⟩
        refine ⟨⟨hsl, hsr, fun p hp => (hl p hp).2, fun p hp => (hr p hp).1⟩, fun p hp => ?_⟩
        rcases mem_append.mp hp with hp | hp
        · exact ⟨(hl p hp).1, hhigh (hl p hp).2 hk'⟩
        · rcases mem_cons.mp hp with rfl | hp
          · exact ⟨hk, hk'⟩
          · exact ⟨hlow (hr p hp).1 hk, (hr p hp).2⟩
      · rintro ⟨⟨hsl, hsr, hl, hr⟩, h⟩
        obtain ⟨hk, hk'⟩ := h (k, v) (mem_append_right _ mem_cons_self)
        refine ⟨⟨⟨hk, hk'⟩, hsl, fun p hp => ?_⟩, hsr, fun p hp => ?_⟩
        · exact ⟨(h p (mem_append_left _ hp)).1, hl p hp⟩
        · exact ⟨hr p hp, (h p (mem_append_right _ (mem_cons_of_mem _ hp))).2⟩

theorem valid_iff : Valid type t ↔ nodeValid type t = true ∧ SizesRight t := by
  unfold nodeValid
  rw [Bool.and_eq_true, ordered_iff (fun _ _ => rfl) (fun _ _ => rfl)]
  constructor
  · rintro ⟨hbal, hs⟩
    obtain ⟨hbal, hsizes⟩ := weightBalanced_iff.mp hbal
    exact ⟨⟨hbal, hs, fun _ _ => ⟨rfl, rfl⟩⟩, hsizes⟩
  · rintro ⟨⟨hbal, hs, -⟩, hsizes⟩
    exact ⟨weightBalanced_iff.mpr ⟨hbal, hsizes⟩, hs⟩

/-! ## The operations on one tree -/

theorem valid_empty : Valid type (.empty : Node K V) := ⟨trivial, List.Pairwise.nil⟩

theorem valid_singleton (k : K) (v : V) : Valid type (nodeSingleton k v) :=
  ⟨⟨rfl, ⟨Nat.zero_le _, Nat.zero_le _⟩, trivial, trivial⟩, pairwise_singleton _ _⟩

open Classical in
theorem nodeAdd_map (h : Valid type t) (k : K) (v : V) :
    YieldsMap type (nodeAdd type t k v)
      fun x => if x = k then some v else contents t.toList x := by
  refine (nodeAdd_spec h.balanced h.sorted k v).map ?_ ?_
  · refine sorted_append_cons.mpr ⟨h.sorted.below k, h.sorted.above k, ?_, ?_⟩
    · exact fun p hp => (mem_filter.mp hp).2
    · exact fun p hp => (mem_filter.mp hp).2
  · intro x
    rw [contents_append, contents_cons, contents_below, contents_above]
    rcases type.trichotomous x k with hx | hx | hx
    · have hne : x ≠ k := by
        rintro rfl
        rw [type.irreflexive] at hx
        cases hx
      simp [hx, TreeType.asymmetric hx, hne, Ne.symm hne]
    · subst hx
      simp [type.irreflexive]
    · have hne : x ≠ k := by
        rintro rfl
        rw [type.irreflexive] at hx
        cases hx
      simp [hx, TreeType.asymmetric hx, hne, Ne.symm hne]

open Classical in
theorem nodeDelete_map (h : Valid type t) (k : K) :
    YieldsMap type (nodeDelete type k t)
      fun x => if x = k then none else contents t.toList x := by
  refine (nodeDelete_spec h.balanced h.sorted k).map ?_ ?_
  · refine pairwise_append.mpr ⟨h.sorted.below k, h.sorted.above k, ?_⟩
    intro p hp q hq
    exact type.transitive (mem_filter.mp hp).2 (mem_filter.mp hq).2
  · intro x
    rw [contents_append, contents_below, contents_above]
    rcases type.trichotomous x k with hx | hx | hx
    · have hne : x ≠ k := by
        rintro rfl
        rw [type.irreflexive] at hx
        cases hx
      simp [hx, TreeType.asymmetric hx, hne]
    · subst hx
      simp [type.irreflexive]
    · have hne : x ≠ k := by
        rintro rfl
        rw [type.irreflexive] at hx
        cases hx
      simp [hx, TreeType.asymmetric hx, hne]

theorem nodeDelmin_map (h : Valid type t) (hne : t ≠ .empty) :
    ∃ least, (contents t.toList least).isSome = true
      ∧ (∀ x, (contents t.toList x).isSome = true → x = least ∨ type.keyLess least x = true)
      ∧ YieldsMap type (nodeDelmin t)
          fun x => if type.keyLess least x then contents t.toList x else none := by
  obtain ⟨p, rest, hlist⟩ : ∃ p rest, t.toList = p :: rest := by
    cases t with
    | empty => exact absurd rfl hne
    | node w l k r v => exact exists_cons_of_ne_nil (by simp [Node.toList])
  have hs := h.sorted
  rw [hlist] at hs ⊢
  obtain ⟨hp, hrest⟩ := pairwise_cons.mp hs
  refine ⟨p.1, ?_, ?_, (nodeDelmin_spec h.balanced hlist).map hrest ?_⟩
  · exact contents_isSome_iff.mpr (List.mem_map_of_mem mem_cons_self)
  · intro x hx
    obtain ⟨q, hq, rfl⟩ := List.mem_map.mp (contents_isSome_iff.mp hx)
    rcases mem_cons.mp hq with rfl | hq
    · exact inl rfl
    · exact inr (hp q hq)
  · intro x
    obtain ⟨k, v⟩ := p
    rw [contents_cons]
    by_cases hx : type.keyLess k x = true
    · have hne' : k ≠ x := by
        rintro rfl
        rw [type.irreflexive] at hx
        cases hx
      rw [if_pos hx, if_neg hne']
    · rw [if_neg hx, contents_eq_none_of_greater hp (by simpa using hx)]

theorem nodeSplitLt_map (h : Valid type t) (k : K) :
    YieldsMap type (nodeSplitLt type k t)
      fun x => if type.keyLess x k then contents t.toList x else none :=
  (nodeSplitLt_spec h.balanced h.sorted k).map (h.sorted.below k) (contents_below k t.toList)

theorem nodeSplitGt_map (h : Valid type t) (k : K) :
    YieldsMap type (nodeSplitGt type k t)
      fun x => if type.keyLess k x then contents t.toList x else none :=
  (nodeSplitGt_spec h.balanced h.sorted k).map (h.sorted.above k) (contents_above k t.toList)

theorem nodeOfAlist_valid (alist : List (K × V)) (h : Valid type t) :
    ∃ t', nodeOfAlist type alist t = some t' ∧ Valid type t' := by
  induction alist generalizing t with
  | nil => exact ⟨t, rfl, h⟩
  | cons p alist ih =>
      obtain ⟨t', ht', hv, -⟩ := nodeAdd_map h p.1 p.2
      obtain ⟨t'', ht'', hv'⟩ := ih hv
      refine ⟨t'', ?_, hv'⟩
      unfold nodeOfAlist
      rw [ht']
      exact ht''

/-! ## Trees -/

section

variable (types : Nat → TreeType K)

/-- What a lookup finds, if anything. -/
def found (tree : Tree K V) (x : K) : Option V :=
  (nodeFind (types tree.type) x tree.root).map Prod.snd

/-- A tree that passes the test, with the right sizes. -/
structure ValidTree (tree : Tree K V) : Prop where
  valid : wtTreeValid types tree = true
  sizes : SizesRight tree.root

/-- An operation returns a valid tree, in which a lookup finds what the map has. -/
def Returns (result : Option (Tree K V)) (map : K → Option V) : Prop :=
  ∃ tree, result = some tree ∧ ValidTree types tree ∧ ∀ x, found types tree x = map x

variable {types} {tree tree1 tree2 : Tree K V}

theorem wtTreeLookup_eq (x : K) (default : V) :
    wtTreeLookup types tree x default = (found types tree x).getD default := by
  unfold wtTreeLookup found
  cases nodeFind (types tree.type) x tree.root with
  | none => rfl
  | some node => rfl

theorem wtTreeMember_eq (x : K) : wtTreeMember types x tree = (found types tree x).isSome := by
  unfold wtTreeMember found
  rw [isSome_map]

theorem validTree_iff : ValidTree types tree ↔ Valid (types tree.type) tree.root := by
  rw [valid_iff]
  exact ⟨fun h => ⟨h.valid, h.sizes⟩, fun h => ⟨h.1, h.2⟩⟩

theorem ValidTree.root (h : ValidTree types tree) : Valid (types tree.type) tree.root :=
  validTree_iff.mp h

theorem found_eq (h : ValidTree types tree) (x : K) :
    found types tree x = contents tree.root.toList x := by
  unfold found
  rw [nodeFind_spec h.root.sorted, Option.map_map]
  exact congrFun Option.map_id _

theorem withRoot_returns {root : Option (Node K V)} {m : K → Option V}
    (h : YieldsMap (types tree.type) root m) : Returns types (withRoot tree root) m := by
  obtain ⟨t, rfl, hv, hm⟩ := h
  have hv' : ValidTree types { tree with root := t } := validTree_iff.mpr hv
  refine ⟨_, rfl, hv', fun x => ?_⟩
  rw [found_eq hv']
  exact hm x

theorem Returns.congr {result : Option (Tree K V)} {m m' : K → Option V}
    (h : Returns types result m) (hm : ∀ x, m x = m' x) : Returns types result m' := by
  obtain ⟨tree, ht, hv, hx⟩ := h
  exact ⟨tree, ht, hv, fun x => (hx x).trans (hm x)⟩

open Classical in
theorem wtTreeAdd_spec (h : ValidTree types tree) (k : K) (v : V) :
    Returns types (wtTreeAdd types tree k v)
      fun x => if x = k then some v else found types tree x := by
  refine (withRoot_returns (nodeAdd_map h.root k v)).congr fun x => ?_
  rw [found_eq h]

open Classical in
theorem wtTreeDelete_spec (h : ValidTree types tree) (k : K) :
    Returns types (wtTreeDelete types tree k)
      fun x => if x = k then none else found types tree x := by
  refine (withRoot_returns (nodeDelete_map h.root k)).congr fun x => ?_
  rw [found_eq h]

/-- The least key of a tree. -/
def IsLeast (types : Nat → TreeType K) (tree : Tree K V) (least : K) : Prop :=
  (found types tree least).isSome = true
    ∧ ∀ x, (found types tree x).isSome = true →
        x = least ∨ (types tree.type).keyLess least x = true

open Classical in
theorem wtTreeDeleteMin_spec (h : ValidTree types tree) (hne : tree.root ≠ .empty) :
    ∃ least, IsLeast types tree least
      ∧ Returns types (wtTreeDeleteMin tree)
          fun x => if x = least then none else found types tree x := by
  obtain ⟨least, hsome, hleast, hy⟩ := nodeDelmin_map h.root hne
  refine ⟨least, ⟨?_, ?_⟩, (withRoot_returns hy).congr fun x => ?_⟩
  · rw [found_eq h]
    exact hsome
  · intro x hx
    rw [found_eq h] at hx
    exact hleast x hx
  · rw [found_eq h]
    by_cases hx : x = least
    · subst hx
      simp [(types tree.type).irreflexive]
    · rw [if_neg hx]
      by_cases hlt : (types tree.type).keyLess least x = true
      · rw [if_pos hlt]
      · rw [if_neg hlt]
        by_contra hnone
        rcases hleast x (isSome_iff_ne_none.mpr (Ne.symm hnone)) with heq | heq
        · exact hx heq
        · exact hlt heq

theorem wtTreeSplitLess_spec (h : ValidTree types tree) (k : K) :
    Returns types (wtTreeSplitLess types tree k)
      fun x => if (types tree.type).keyLess x k then found types tree x else none := by
  refine (withRoot_returns (nodeSplitLt_map h.root k)).congr fun x => ?_
  rw [found_eq h]

theorem wtTreeSplitGreater_spec (h : ValidTree types tree) (k : K) :
    Returns types (wtTreeSplitGreater types tree k)
      fun x => if (types tree.type).keyLess k x then found types tree x else none := by
  refine (withRoot_returns (nodeSplitGt_map h.root k)).congr fun x => ?_
  rw [found_eq h]

theorem ValidTree.compatible (h2 : ValidTree types tree2) (htype : tree1.type = tree2.type) :
    Valid (types tree1.type) tree2.root := by
  rw [htype]
  exact h2.root

section

variable (h1 : ValidTree types tree1) (h2 : ValidTree types tree2)
  (htype : tree1.type = tree2.type)

include h1 h2 htype

theorem wtTreeUnionMerge_spec (merge : K → V → V → V) :
    Returns types (wtTreeUnionMerge types tree1 tree2 merge)
      fun x => mergeData merge x (found types tree1 x) (found types tree2 x) := by
  unfold wtTreeUnionMerge guaranteeCompatibleTrees
  rw [if_pos htype]
  refine (withRoot_returns (nodeUnionMerge_spec merge h1.root
    (h2.compatible htype))).congr fun x => ?_
  rw [found_eq h1, found_eq h2]

theorem wtTreeUnion_spec :
    Returns types (wtTreeUnion types tree1 tree2)
      fun x => (found types tree2 x).or (found types tree1 x) := by
  unfold wtTreeUnion guaranteeCompatibleTrees
  rw [if_pos htype]
  refine (withRoot_returns (nodeUnion_spec h1.root (h2.compatible htype))).congr fun x => ?_
  rw [found_eq h1, found_eq h2]

theorem wtTreeIntersection_spec :
    Returns types (wtTreeIntersection types tree1 tree2)
      fun x => intersectionData (found types tree1 x) (found types tree2 x) := by
  unfold wtTreeIntersection guaranteeCompatibleTrees
  rw [if_pos htype]
  refine (withRoot_returns (nodeIntersection_spec h1.root
    (h2.compatible htype))).congr fun x => ?_
  rw [found_eq h1, found_eq h2]

theorem wtTreeDifference_spec :
    Returns types (wtTreeDifference types tree1 tree2)
      fun x => differenceData (found types tree1 x) (found types tree2 x) := by
  unfold wtTreeDifference guaranteeCompatibleTrees
  rw [if_pos htype]
  refine (withRoot_returns (nodeDifference_spec h1.root
    (h2.compatible htype))).congr fun x => ?_
  rw [found_eq h1, found_eq h2]

theorem wtTreeSubset_spec :
    Decides (wtTreeSubset types tree1 tree2)
      (∀ x, wtTreeMember types x tree1 = true → wtTreeMember types x tree2 = true) := by
  unfold wtTreeSubset guaranteeCompatibleTrees
  rw [if_pos htype]
  refine (nodeSubset_spec h1.root (h2.compatible htype)).congr ?_
  refine forall_congr' fun x => ?_
  rw [wtTreeMember_eq, wtTreeMember_eq, found_eq h1, found_eq h2, contents_isSome_iff,
    contents_isSome_iff]
  rfl

end

/-- **Weight-balanced trees are finite maps.** A lookup in the result of an operation finds what
the maps say: the datum that was added, nothing under a key that was deleted, the associations
below or above the key of a split, those of both trees in a union, with the data of the second
tree where both have the key, and those of the first tree whose keys the second one does not
have in a difference. The tests for subset and equality compare the sets of keys. -/
theorem trees_are_maps [DecidableEq K] (h1 : ValidTree types tree1) (h2 : ValidTree types tree2)
    (htype : tree1.type = tree2.type) :
    (∀ (tree : Tree K V) x default,
      wtTreeLookup types tree x default = (found types tree x).getD default
        ∧ wtTreeMember types x tree = (found types tree x).isSome)
    ∧ (∀ k v, Returns types (wtTreeAdd types tree1 k v)
      fun x => if x = k then some v else found types tree1 x)
    ∧ (∀ k, Returns types (wtTreeDelete types tree1 k)
      fun x => if x = k then none else found types tree1 x)
    ∧ (tree1.root ≠ .empty → ∃ least, IsLeast types tree1 least
      ∧ Returns types (wtTreeDeleteMin tree1)
          fun x => if x = least then none else found types tree1 x)
    ∧ (∀ k, Returns types (wtTreeSplitLess types tree1 k)
      fun x => if (types tree1.type).keyLess x k then found types tree1 x else none)
    ∧ (∀ k, Returns types (wtTreeSplitGreater types tree1 k)
      fun x => if (types tree1.type).keyLess k x then found types tree1 x else none)
    ∧ Returns types (wtTreeUnion types tree1 tree2)
      (fun x => (found types tree2 x).or (found types tree1 x))
    ∧ Returns types (wtTreeDifference types tree1 tree2)
      (fun x => if wtTreeMember types x tree2 then none else found types tree1 x)
    ∧ Decides (wtTreeSubset types tree1 tree2)
      (∀ x, wtTreeMember types x tree1 = true → wtTreeMember types x tree2 = true)
    ∧ Decides (wtTreeSetEqual types tree1 tree2)
      (∀ x, wtTreeMember types x tree1 = wtTreeMember types x tree2) := by
  refine ⟨fun _ x default => ⟨wtTreeLookup_eq x default, wtTreeMember_eq x⟩,
    fun k v => ?_, fun k => ?_, fun hne => ?_, wtTreeSplitLess_spec h1,
    wtTreeSplitGreater_spec h1, wtTreeUnion_spec h1 h2 htype, ?_,
    wtTreeSubset_spec h1 h2 htype, ?_⟩
  · refine (wtTreeAdd_spec h1 k v).congr fun x => ?_
    congr
  · refine (wtTreeDelete_spec h1 k).congr fun x => ?_
    congr
  · obtain ⟨least, hleast, hr⟩ := wtTreeDeleteMin_spec h1 hne
    refine ⟨least, hleast, hr.congr fun x => ?_⟩
    congr
  · refine (wtTreeDifference_spec h1 h2 htype).congr fun x => ?_
    rw [wtTreeMember_eq]
    cases found types tree2 x with
    | none => rfl
    | some v => rfl
  · refine ((wtTreeSubset_spec h1 h2 htype).andThen
      (wtTreeSubset_spec h2 h1 htype.symm)).congr ?_
    constructor
    · rintro ⟨h, h'⟩ x
      exact Bool.eq_iff_iff.mpr ⟨h x, h' x⟩
    · intro h
      exact ⟨fun x hx => (h x).symm.trans hx, fun x hx => (h x).trans hx⟩

end

/-- Numbers, in their order. -/
def numberType : TreeType Nat where
  keyLess k k' := decide (k < k')
  irreflexive k := by simp
  transitive h h' := by
    rw [decide_eq_true_iff] at *
    exact Nat.lt_trans h h'
  trichotomous k k' := by
    rw [decide_eq_true_iff, decide_eq_true_iff]
    exact Nat.lt_trichotomy k k'

/-- Three keys, added in order: the last one makes `t-join` rotate. -/
def threeKeys : Node Nat Nat :=
  .node 3 (nodeSingleton 1 10) 2 (nodeSingleton 3 30) 20

theorem validTree_threeKeys : ValidTree (fun _ => numberType) ⟨0, threeKeys⟩ :=
  ⟨by decide, by simp [SizesRight, threeKeys, nodeSingleton, Node.count]⟩

theorem validTree_singleton (k v : Nat) :
    ValidTree (fun _ => numberType) ⟨0, nodeSingleton k v⟩ :=
  validTree_iff.mpr (valid_singleton k v)

theorem trees_are_maps_threeKeys :
    Returns (fun _ => numberType)
      (wtTreeUnion (fun _ => numberType) ⟨0, threeKeys⟩ ⟨0, nodeSingleton 2 25⟩)
      fun x => (found (fun _ => numberType) ⟨0, nodeSingleton 2 25⟩ x).or
        (found (fun _ => numberType) ⟨0, threeKeys⟩ x) :=
  (trees_are_maps validTree_threeKeys (validTree_singleton 2 25) rfl).2.2.2.2.2.2.1

/-! ## Runs -/

section

variable (types : Nat → TreeType K)

/-- Whatever operations were performed, starting with no trees. -/
inductive Run : List (Tree K V) → Prop
  | start : Run []
  | step {trees trees' : List (Tree K V)} {operation : Operation K V} : Run trees →
      perform types trees operation = some trees' → Run trees'

/-- An operation that signals no error: its trees are there, have the same type, and there is
an association to delete. -/
def Accepted (trees : List (Tree K V)) : Operation K V → Prop
  | .make _ | .singleton _ _ _ | .ofAlist _ _ => True
  | .add tree _ _ | .addBang tree _ _ | .delete tree _ | .deleteBang tree _ | .splitLess tree _
  | .splitGreater tree _ => ∃ contents, trees[tree]? = some contents
  | .deleteMin tree | .deleteMinBang tree =>
      ∃ contents, trees[tree]? = some contents ∧ contents.root ≠ .empty
  | .union tree1 tree2 | .unionMerge tree1 tree2 _ | .intersection tree1 tree2
  | .difference tree1 tree2 =>
      ∃ contents1 contents2, trees[tree1]? = some contents1 ∧ trees[tree2]? = some contents2
        ∧ contents1.type = contents2.type

/-- All trees are valid. -/
def AllValid (trees : List (Tree K V)) : Prop :=
  ∀ tree ∈ trees, ValidTree types tree

variable {types} {trees trees' : List (Tree K V)}

theorem AllValid.append (h : AllValid types trees) {tree : Tree K V}
    (htree : ValidTree types tree) : AllValid types (trees ++ [tree]) := by
  intro tree' hmem
  rcases mem_append.mp hmem with hmem | hmem
  · exact h tree' hmem
  · cases mem_singleton.mp hmem
    exact htree

theorem AllValid.get (h : AllValid types trees) {i : Nat} {tree : Tree K V}
    (hi : trees[i]? = some tree) : ValidTree types tree :=
  h tree (mem_of_getElem? hi)

theorem Returns.valid {result : Option (Tree K V)} {m : K → Option V} {tree : Tree K V}
    (h : Returns types result m) (hr : result = some tree) : ValidTree types tree := by
  obtain ⟨tree', ht', hv, -⟩ := h
  rw [hr] at ht'
  cases ht'
  exact hv

section

variable {i j : Nat} {procedure : Tree K V → Option (Tree K V)}
  {procedure2 : Tree K V → Tree K V → Option (Tree K V)}

theorem makeFrom_eq_some : makeFrom trees i procedure = some trees'
    ↔ ∃ tree tree', trees[i]? = some tree ∧ procedure tree = some tree'
      ∧ trees ++ [tree'] = trees' := by
  unfold makeFrom
  simp only [bind_eq_bind, Option.pure_def, bind_eq_some_iff, Option.some.injEq]
  constructor
  · rintro ⟨tree, hi, tree', ht, heq⟩
    exact ⟨tree, tree', hi, ht, heq⟩
  · rintro ⟨tree, tree', hi, ht, heq⟩
    exact ⟨tree, hi, tree', ht, heq⟩

theorem setFrom_eq_some : setFrom trees i procedure = some trees'
    ↔ ∃ tree tree', trees[i]? = some tree ∧ procedure tree = some tree'
      ∧ trees.set i tree' = trees' := by
  unfold setFrom
  simp only [bind_eq_bind, Option.pure_def, bind_eq_some_iff, Option.some.injEq]
  constructor
  · rintro ⟨tree, hi, tree', ht, heq⟩
    exact ⟨tree, tree', hi, ht, heq⟩
  · rintro ⟨tree, tree', hi, ht, heq⟩
    exact ⟨tree, hi, tree', ht, heq⟩

theorem makeFromBoth_eq_some : makeFromBoth trees i j procedure2 = some trees'
    ↔ ∃ tree1 tree2 tree', trees[i]? = some tree1 ∧ trees[j]? = some tree2
      ∧ procedure2 tree1 tree2 = some tree' ∧ trees ++ [tree'] = trees' := by
  unfold makeFromBoth
  simp only [bind_eq_bind, Option.pure_def, bind_eq_some_iff, Option.some.injEq]
  constructor
  · rintro ⟨tree1, hi, tree2, hj, tree', ht, heq⟩
    exact ⟨tree1, tree2, tree', hi, hj, ht, heq⟩
  · rintro ⟨tree1, tree2, tree', hi, hj, ht, heq⟩
    exact ⟨tree1, hi, tree2, hj, tree', ht, heq⟩

theorem AllValid.makeFrom (h : AllValid types trees)
    (hp : ∀ {tree tree'}, ValidTree types tree → procedure tree = some tree' →
      ValidTree types tree')
    (heq : makeFrom trees i procedure = some trees') : AllValid types trees' := by
  obtain ⟨tree, tree', hi, ht, rfl⟩ := makeFrom_eq_some.mp heq
  exact h.append (hp (h.get hi) ht)

theorem AllValid.setFrom (h : AllValid types trees)
    (hp : ∀ {tree tree'}, ValidTree types tree → procedure tree = some tree' →
      ValidTree types tree')
    (heq : setFrom trees i procedure = some trees') : AllValid types trees' := by
  obtain ⟨tree, tree', hi, ht, rfl⟩ := setFrom_eq_some.mp heq
  intro tree'' hmem
  rcases mem_or_eq_of_mem_set hmem with hmem | rfl
  · exact h tree'' hmem
  · exact hp (h.get hi) ht

theorem AllValid.makeFromBoth (h : AllValid types trees)
    (hp : ∀ {tree1 tree2 tree'}, ValidTree types tree1 → ValidTree types tree2 →
      procedure2 tree1 tree2 = some tree' → ValidTree types tree')
    (heq : makeFromBoth trees i j procedure2 = some trees') : AllValid types trees' := by
  obtain ⟨tree1, tree2, tree', hi, hj, ht, rfl⟩ := makeFromBoth_eq_some.mp heq
  exact h.append (hp (h.get hi) (h.get hj) ht)

end

theorem wtTreeDeleteMin_valid {tree tree' : Tree K V} (h : ValidTree types tree)
    (ht : wtTreeDeleteMin tree = some tree') : ValidTree types tree' := by
  have hne : tree.root ≠ .empty := by
    intro hempty
    unfold wtTreeDeleteMin at ht
    rw [hempty] at ht
    cases ht
  obtain ⟨_, -, hr⟩ := wtTreeDeleteMin_spec h hne
  exact hr.valid ht

theorem compatible_of_eq_some {α : Type} {tree1 tree2 : Tree K V} {result : Option α} {a : α}
    (h : guaranteeCompatibleTrees tree1 tree2 result = some a) : tree1.type = tree2.type := by
  unfold guaranteeCompatibleTrees at h
  split at h
  · assumption
  · cases h

theorem alistToWtTree_valid (type : Nat) (alist : List (K × V)) :
    ∃ tree, alistToWtTree types type alist = some tree ∧ ValidTree types tree := by
  have hempty : Valid (types type) (.empty : Node K V) := valid_empty
  obtain ⟨t, ht, hv⟩ := nodeOfAlist_valid alist hempty
  unfold alistToWtTree
  rw [ht]
  exact ⟨_, rfl, validTree_iff.mpr hv⟩

theorem AllValid.perform (h : AllValid types trees) {operation : Operation K V}
    (heq : perform types trees operation = some trees') : AllValid types trees' := by
  cases operation with
  | make type =>
      cases heq
      exact h.append (validTree_iff.mpr valid_empty)
  | singleton type k v =>
      cases heq
      exact h.append (validTree_iff.mpr (valid_singleton k v))
  | ofAlist type alist =>
      obtain ⟨tree, ht, hv⟩ := @alistToWtTree_valid _ _ types type alist
      simp only [WtTree.perform, ht] at heq
      cases heq
      exact h.append hv
  | add tree k v => exact h.makeFrom (fun hv ht => (wtTreeAdd_spec hv k v).valid ht) heq
  | addBang tree k v => exact h.setFrom (fun hv ht => (wtTreeAdd_spec hv k v).valid ht) heq
  | delete tree k => exact h.makeFrom (fun hv ht => (wtTreeDelete_spec hv k).valid ht) heq
  | deleteBang tree k => exact h.setFrom (fun hv ht => (wtTreeDelete_spec hv k).valid ht) heq
  | deleteMin tree => exact h.makeFrom wtTreeDeleteMin_valid heq
  | deleteMinBang tree => exact h.setFrom wtTreeDeleteMin_valid heq
  | splitLess tree k => exact h.makeFrom (fun hv ht => (wtTreeSplitLess_spec hv k).valid ht) heq
  | splitGreater tree k =>
      exact h.makeFrom (fun hv ht => (wtTreeSplitGreater_spec hv k).valid ht) heq
  | union tree1 tree2 =>
      exact h.makeFromBoth
        (fun hv hv' ht => (wtTreeUnion_spec hv hv' (compatible_of_eq_some ht)).valid ht) heq
  | unionMerge tree1 tree2 merge =>
      exact h.makeFromBoth
        (fun hv hv' ht => (wtTreeUnionMerge_spec hv hv' (compatible_of_eq_some ht) merge).valid ht)
        heq
  | intersection tree1 tree2 =>
      exact h.makeFromBoth
        (fun hv hv' ht => (wtTreeIntersection_spec hv hv' (compatible_of_eq_some ht)).valid ht) heq
  | difference tree1 tree2 =>
      exact h.makeFromBoth
        (fun hv hv' ht => (wtTreeDifference_spec hv hv' (compatible_of_eq_some ht)).valid ht) heq

theorem AllValid.returns (h : AllValid types trees) {operation : Operation K V}
    (haccepted : Accepted trees operation) :
    ∃ trees', WtTree.perform types trees operation = some trees' := by
  cases operation with
  | make type | singleton type k v => exact ⟨_, rfl⟩
  | ofAlist type alist =>
      obtain ⟨tree, ht, -⟩ := @alistToWtTree_valid _ _ types type alist
      simp only [WtTree.perform, ht]
      exact ⟨_, rfl⟩
  | add tree k v =>
      obtain ⟨contents, hi⟩ := haccepted
      obtain ⟨tree', ht, -⟩ := wtTreeAdd_spec (h.get hi) k v
      exact ⟨_, makeFrom_eq_some.mpr ⟨contents, tree', hi, ht, rfl⟩⟩
  | addBang tree k v =>
      obtain ⟨contents, hi⟩ := haccepted
      obtain ⟨tree', ht, -⟩ := wtTreeAdd_spec (h.get hi) k v
      exact ⟨_, setFrom_eq_some.mpr ⟨contents, tree', hi, ht, rfl⟩⟩
  | delete tree k =>
      obtain ⟨contents, hi⟩ := haccepted
      obtain ⟨tree', ht, -⟩ := wtTreeDelete_spec (h.get hi) k
      exact ⟨_, makeFrom_eq_some.mpr ⟨contents, tree', hi, ht, rfl⟩⟩
  | deleteBang tree k =>
      obtain ⟨contents, hi⟩ := haccepted
      obtain ⟨tree', ht, -⟩ := wtTreeDelete_spec (h.get hi) k
      exact ⟨_, setFrom_eq_some.mpr ⟨contents, tree', hi, ht, rfl⟩⟩
  | deleteMin tree =>
      obtain ⟨contents, hi, hne⟩ := haccepted
      obtain ⟨_, -, tree', ht, -⟩ := wtTreeDeleteMin_spec (h.get hi) hne
      exact ⟨_, makeFrom_eq_some.mpr ⟨contents, tree', hi, ht, rfl⟩⟩
  | deleteMinBang tree =>
      obtain ⟨contents, hi, hne⟩ := haccepted
      obtain ⟨_, -, tree', ht, -⟩ := wtTreeDeleteMin_spec (h.get hi) hne
      exact ⟨_, setFrom_eq_some.mpr ⟨contents, tree', hi, ht, rfl⟩⟩
  | splitLess tree k =>
      obtain ⟨contents, hi⟩ := haccepted
      obtain ⟨tree', ht, -⟩ := wtTreeSplitLess_spec (h.get hi) k
      exact ⟨_, makeFrom_eq_some.mpr ⟨contents, tree', hi, ht, rfl⟩⟩
  | splitGreater tree k =>
      obtain ⟨contents, hi⟩ := haccepted
      obtain ⟨tree', ht, -⟩ := wtTreeSplitGreater_spec (h.get hi) k
      exact ⟨_, makeFrom_eq_some.mpr ⟨contents, tree', hi, ht, rfl⟩⟩
  | union tree1 tree2 =>
      obtain ⟨c1, c2, hi, hj, htype⟩ := haccepted
      obtain ⟨tree', ht, -⟩ := wtTreeUnion_spec (h.get hi) (h.get hj) htype
      exact ⟨_, makeFromBoth_eq_some.mpr ⟨c1, c2, tree', hi, hj, ht, rfl⟩⟩
  | unionMerge tree1 tree2 merge =>
      obtain ⟨c1, c2, hi, hj, htype⟩ := haccepted
      obtain ⟨tree', ht, -⟩ := wtTreeUnionMerge_spec (h.get hi) (h.get hj) htype merge
      exact ⟨_, makeFromBoth_eq_some.mpr ⟨c1, c2, tree', hi, hj, ht, rfl⟩⟩
  | intersection tree1 tree2 =>
      obtain ⟨c1, c2, hi, hj, htype⟩ := haccepted
      obtain ⟨tree', ht, -⟩ := wtTreeIntersection_spec (h.get hi) (h.get hj) htype
      exact ⟨_, makeFromBoth_eq_some.mpr ⟨c1, c2, tree', hi, hj, ht, rfl⟩⟩
  | difference tree1 tree2 =>
      obtain ⟨c1, c2, hi, hj, htype⟩ := haccepted
      obtain ⟨tree', ht, -⟩ := wtTreeDifference_spec (h.get hi) (h.get hj) htype
      exact ⟨_, makeFromBoth_eq_some.mpr ⟨c1, c2, tree', hi, hj, ht, rfl⟩⟩

theorem Run.allValid (h : Run types trees) : AllValid types trees := by
  induction h with
  | start => exact fun _ hmem => absurd hmem not_mem_nil
  | step _ heq ih => exact ih.perform heq

/-- **The invariant of weight-balanced trees**: in every state that a run of operations reaches,
all trees pass the test of `wt-tree/valid?`, their keys increase strictly, and their sizes are
right. The next operation returns, too, if it has the trees it needs. -/
theorem run_valid (h : Run types trees) :
    (∀ tree ∈ trees, wtTreeValid types tree = true ∧ SizesRight tree.root
      ∧ tree.root.keys.Pairwise fun k k' => (types tree.type).keyLess k k' = true)
    ∧ ∀ operation, Accepted trees operation →
        ∃ trees', WtTree.perform types trees operation = some trees' := by
  refine ⟨fun tree htree => ?_, fun operation haccepted => h.allValid.returns haccepted⟩
  have hv := h.allValid tree htree
  exact ⟨hv.valid, hv.sizes, pairwise_map.mpr hv.root.sorted⟩

end

theorem run_threeKeys :
    Run (fun _ => numberType) [⟨0, threeKeys⟩] := by
  have h1 : Run (fun _ => numberType) [⟨0, nodeSingleton 1 10⟩] :=
    @Run.step _ _ _ [] _ (.singleton 0 1 10) .start rfl
  have h2 : Run (fun _ => numberType) [⟨0, .node 2 .empty 1 (nodeSingleton 2 20) 10⟩] :=
    @Run.step _ _ _ _ _ (.addBang 0 2 20) h1 rfl
  exact @Run.step _ _ _ _ _ (.addBang 0 3 30) h2 rfl

theorem run_valid_threeKeys :
    wtTreeValid (fun _ => numberType) ⟨0, threeKeys⟩ = true ∧ SizesRight threeKeys
      ∧ threeKeys.keys.Pairwise fun k k' => numberType.keyLess k k' = true :=
  (run_valid run_threeKeys).1 ⟨0, threeKeys⟩ (mem_singleton.mpr rfl)

end MitScheme.WtTree
