import MitScheme.Runtime.WtTreeOrder

/-!
# Trees as finite maps

The operations on two trees split the first one at the root of the second, go on with the
parts, and put the results together. Whatever they do with a key depends only on what the
two trees hold for it, so each of them combines two finite maps key by key.
-/

namespace MitScheme.WtTree

variable {K V : Type} {type : TreeType K}

/-! ## The map of a list -/

open Classical in
/-- The datum that a list of associations has for a key. -/
noncomputable def contents (list : List (K × V)) (x : K) : Option V :=
  (list.find? fun p => decide (p.1 = x)).map Prod.snd

@[simp] theorem contents_nil (x : K) : contents ([] : List (K × V)) x = none := rfl

open Classical in
theorem contents_cons (k : K) (v : V) (list : List (K × V)) (x : K) :
    contents ((k, v) :: list) x = if k = x then some v else contents list x := by
  unfold contents
  by_cases h : k = x
  · simp [h]
  · simp [h]

theorem contents_append (l r : List (K × V)) (x : K) :
    contents (l ++ r) x = (contents l x).or (contents r x) := by
  unfold contents
  rw [List.find?_append, Option.map_or]

variable {list : List (K × V)} {x : K}

theorem contents_eq_none (h : ∀ p ∈ list, p.1 ≠ x) : contents list x = none := by
  unfold contents
  rw [Option.map_eq_none_iff, List.find?_eq_none]
  intro p hp
  simpa using h p hp

theorem contents_isSome_iff : (contents list x).isSome = true ↔ x ∈ list.map Prod.fst := by
  unfold contents
  rw [Option.isSome_map, List.find?_isSome, List.mem_map]
  constructor
  · rintro ⟨p, hp, heq⟩
    exact ⟨p, hp, by simpa using heq⟩
  · rintro ⟨p, hp, heq⟩
    exact ⟨p, hp, by simpa using heq⟩

theorem contents_filter (g : K → Bool) (list : List (K × V)) (x : K) :
    contents (list.filter fun p => g p.1) x = if g x then contents list x else none := by
  induction list with
  | nil => simp
  | cons p list ih =>
      obtain ⟨k, v⟩ := p
      rw [List.filter_cons]
      by_cases hk : g k = true
      · rw [if_pos hk, contents_cons, contents_cons, ih]
        by_cases hx : k = x
        · subst hx
          simp [hk]
        · simp [hx]
      · rw [if_neg hk, contents_cons, ih]
        by_cases hx : k = x
        · subst hx
          simp [hk]
        · simp [hx]

theorem contents_below (k : K) (list : List (K × V)) (x : K) :
    contents (below type k list) x = if type.keyLess x k then contents list x else none :=
  contents_filter (fun x => type.keyLess x k) list x

theorem contents_above (k : K) (list : List (K × V)) (x : K) :
    contents (above type k list) x = if type.keyLess k x then contents list x else none :=
  contents_filter (fun x => type.keyLess k x) list x

theorem contents_eq_none_of_less {k : K}
    (h : ∀ p ∈ list, type.keyLess p.1 k = true) (hx : type.keyLess x k = false) :
    contents list x = none := by
  refine contents_eq_none fun p hp heq => ?_
  rw [← heq, h p hp] at hx
  cases hx

theorem contents_eq_none_of_greater {k : K}
    (h : ∀ p ∈ list, type.keyLess k p.1 = true) (hx : type.keyLess k x = false) :
    contents list x = none := by
  refine contents_eq_none fun p hp heq => ?_
  rw [← heq, h p hp] at hx
  cases hx

/-! ## Finding -/

theorem nodeFindLoop_spec (k : K) : ∀ {t : Node K V} (best : Option (K × V)),
    Sorted type t.toList → (∀ b, best = some b → ∀ p ∈ t.toList, type.keyLess b.1 p.1 = true) →
    (nodeFindLoop type k t best).filter (fun b => !type.keyLess b.1 k)
      = ((contents t.toList k).map fun v => (k, v)).or
          (best.filter fun b => !type.keyLess b.1 k)
  | .empty, best, _, _ => by simp [nodeFindLoop, Node.toList]
  | .node w l k' r v, best, hsorted, hbest => by
      have hs : Sorted type (l.toList ++ (k', v) :: r.toList) := hsorted
      obtain ⟨hsl, hsr, hlk, hkr⟩ := sorted_append_cons.mp hs
      change _ = ((contents (l.toList ++ (k', v) :: r.toList) k).map _).or _
      unfold nodeFindLoop
      rw [contents_append, contents_cons]
      split
      · rename_i hk
        rw [nodeFindLoop_spec k best hsl fun b hb p hp =>
          hbest b hb p (List.mem_append_left _ hp)]
        have hne : k' ≠ k := by
          rintro rfl
          rw [type.irreflexive] at hk
          cases hk
        rw [if_neg hne, contents_eq_none_of_greater hkr (TreeType.asymmetric hk), Option.or_none]
      · rename_i hk
        rw [nodeFindLoop_spec k (some (k', v)) hsr]
        · -- what was best before is below `k'`
          have hold : best.filter (fun b => !type.keyLess b.1 k) = none := by
            cases best with
            | none => rfl
            | some b =>
                have hb := hbest b rfl (k', v) (List.mem_append_right _ List.mem_cons_self)
                have hbk : type.keyLess b.1 k = true := by
                  rcases type.trichotomous k' k with h | h | h
                  · exact type.transitive hb h
                  · exact h ▸ hb
                  · exact absurd h hk
                simp [hbk]
          rw [hold]
          by_cases hk' : type.keyLess k' k = true
          · have hne : k' ≠ k := by
              rintro rfl
              rw [type.irreflexive] at hk'
              cases hk'
            have hl : contents l.toList k = none :=
              contents_eq_none_of_less hlk (TreeType.asymmetric hk')
            simp [hl, hne, hk', Option.filter_some]
          · have heq := TreeType.eq_of_not_less hk' hk
            subst heq
            rw [contents_eq_none_of_less hlk (type.irreflexive _),
              contents_eq_none_of_greater hkr (type.irreflexive _)]
            simp [type.irreflexive]
        · rintro b hb p hp
          cases hb
          exact hkr p hp

theorem nodeFind_spec {t : Node K V} (hs : Sorted type t.toList) (k : K) :
    nodeFind type k t = (contents t.toList k).map fun v => (k, v) := by
  have h := nodeFindLoop_spec (t := t) k none hs (by simp)
  rw [Option.filter_none, Option.or_none] at h
  rw [← h]
  unfold nodeFind
  cases nodeFindLoop type k t none with
  | none => rfl
  | some best =>
      by_cases hb : type.keyLess best.1 k = true
      · simp [hb, Option.filter_some]
      · simp [hb, Option.filter_some]

/-! ## Combining maps -/

/-- A valid tree: balanced and in order. -/
structure Valid (type : TreeType K) (t : Node K V) : Prop where
  balanced : WeightBalanced t
  sorted : Sorted type t.toList

/-- A procedure returns a valid tree, that holds the map. -/
def YieldsMap (type : TreeType K) (result : Option (Node K V)) (map : K → Option V) : Prop :=
  ∃ t, result = some t ∧ Valid type t ∧ ∀ x, contents t.toList x = map x

theorem Yields.map {result : Option (Node K V)} {m : K → Option V}
    (h : Yields result list) (hs : Sorted type list) (hm : ∀ x, contents list x = m x) :
    YieldsMap type result m := by
  obtain ⟨t, ht, hbal, rfl⟩ := h
  exact ⟨t, ht, ⟨hbal, hs⟩, hm⟩

theorem YieldsMap.bind {x : Option (Node K V)} {f : Node K V → Option (Node K V)}
    {m m' : K → Option V} (h : YieldsMap type x m)
    (hf : ∀ t, Valid type t → (∀ x, contents t.toList x = m x) → YieldsMap type (f t) m') :
    YieldsMap type (x >>= f) m' := by
  obtain ⟨t, rfl, ht, hm⟩ := h
  exact hf t ht hm

section

variable {f : K → Option V → Option V → Option V} {a bl br u1 u2 : List (K × V)} {ak : K} {av : V}

theorem sorted_combine (hf : ∀ x, f x none none = none) (hb : Sorted type (bl ++ (ak, av) :: br))
    (h1 : Sorted type u1) (h2 : Sorted type u2)
    (hu1 : ∀ x, contents u1 x = f x (contents (below type ak a) x) (contents bl x))
    (hu2 : ∀ x, contents u2 x = f x (contents (above type ak a) x) (contents br x)) (value : V) :
    Sorted type (u1 ++ (ak, value) :: u2) := by
  obtain ⟨-, -, hbl, hbr⟩ := sorted_append_cons.mp hb
  refine sorted_append_cons.mpr ⟨h1, h2, fun p hp => ?_, fun p hp => ?_⟩
  · by_contra hlt
    have hsome := contents_isSome_iff.mpr (List.mem_map_of_mem (f := Prod.fst) hp)
    rw [Bool.not_eq_true] at hlt
    rw [hu1, contents_below, if_neg (by simp [hlt]), contents_eq_none_of_less hbl hlt, hf] at hsome
    cases hsome
  · by_contra hlt
    have hsome := contents_isSome_iff.mpr (List.mem_map_of_mem (f := Prod.fst) hp)
    rw [Bool.not_eq_true] at hlt
    rw [hu2, contents_above, if_neg (by simp [hlt]), contents_eq_none_of_greater hbr hlt, hf]
      at hsome
    cases hsome

open Classical in
theorem contents_combine (hf : ∀ x, f x none none = none)
    (hb : Sorted type (bl ++ (ak, av) :: br))
    (hu1 : ∀ x, contents u1 x = f x (contents (below type ak a) x) (contents bl x))
    (hu2 : ∀ x, contents u2 x = f x (contents (above type ak a) x) (contents br x)) (x : K) :
    (contents u1 x).or ((if ak = x then f ak (contents a ak) (some av) else none).or
        (contents u2 x))
      = f x (contents a x) (contents (bl ++ (ak, av) :: br) x) := by
  obtain ⟨-, -, hbl, hbr⟩ := sorted_append_cons.mp hb
  rw [contents_append, contents_cons, hu1, hu2, contents_below, contents_above]
  rcases type.trichotomous x ak with hx | hx | hx
  · have hx' := TreeType.asymmetric hx
    have hne : ak ≠ x := by
      rintro rfl
      rw [type.irreflexive] at hx
      cases hx
    simp [hx, hx', hne, contents_eq_none_of_greater hbr hx', hf]
  · subst hx
    simp [type.irreflexive, contents_eq_none_of_less hbl, contents_eq_none_of_greater hbr, hf]
  · have hx' := TreeType.asymmetric hx
    have hne : ak ≠ x := by
      rintro rfl
      rw [type.irreflexive] at hx
      cases hx
    simp [hx, hx', hne, contents_eq_none_of_less hbl hx', hf]

variable {t1 t2 : Node K V}

theorem nodeConcat3_combine (hf : ∀ x, f x none none = none)
    (hb : Sorted type (bl ++ (ak, av) :: br)) (h1 : Valid type t1) (h2 : Valid type t2)
    (hu1 : ∀ x, contents t1.toList x = f x (contents (below type ak a) x) (contents bl x))
    (hu2 : ∀ x, contents t2.toList x = f x (contents (above type ak a) x) (contents br x))
    {value : V} (hvalue : f ak (contents a ak) (some av) = some value) :
    YieldsMap type (nodeConcat3 type ak value t1 t2)
      fun x => f x (contents a x) (contents (bl ++ (ak, av) :: br) x) := by
  have hs := sorted_combine hf hb h1.sorted h2.sorted hu1 hu2 value
  refine (nodeConcat3_spec ak value h1.balanced h2.balanced hs).map hs ?_
  intro x
  rw [← contents_combine hf hb hu1 hu2 x, hvalue, contents_append, contents_cons]
  split
  · rfl
  · rw [Option.none_or]

theorem nodeConcat_combine (hf : ∀ x, f x none none = none)
    (hb : Sorted type (bl ++ (ak, av) :: br)) (h1 : Valid type t1) (h2 : Valid type t2)
    (hu1 : ∀ x, contents t1.toList x = f x (contents (below type ak a) x) (contents bl x))
    (hu2 : ∀ x, contents t2.toList x = f x (contents (above type ak a) x) (contents br x))
    (hnone : f ak (contents a ak) (some av) = none) :
    YieldsMap type (nodeConcat type t1 t2)
      fun x => f x (contents a x) (contents (bl ++ (ak, av) :: br) x) := by
  have hs : Sorted type (t1.toList ++ t2.toList) :=
    (sorted_combine hf hb h1.sorted h2.sorted hu1 hu2 av).sublist
      (List.Sublist.append_left (List.sublist_cons_self _ _) _)
  refine (nodeConcat_spec h1.balanced h2.balanced hs).map hs ?_
  intro x
  rw [← contents_combine hf hb hu1 hu2 x, hnone, contents_append]
  simp

end

theorem Valid.left {w : Nat} {l r : Node K V} {k : K} {v : V}
    (h : Valid type (.node w l k r v)) : Valid type l :=
  ⟨h.balanced.2.2.1, (sorted_append_cons.mp h.sorted).1⟩

theorem Valid.right {w : Nat} {l r : Node K V} {k : K} {v : V}
    (h : Valid type (.node w l k r v)) : Valid type r :=
  ⟨h.balanced.2.2.2, (sorted_append_cons.mp h.sorted).2.1⟩

variable {t : Node K V}

theorem Valid.splitLt (h : Valid type t) (k : K) :
    ∃ t', nodeSplitLt type k t = some t' ∧ Valid type t' ∧ t'.toList = below type k t.toList := by
  obtain ⟨t', ht, hbal, hlist⟩ := nodeSplitLt_spec h.balanced h.sorted k
  exact ⟨t', ht, ⟨hbal, hlist ▸ h.sorted.below k⟩, hlist⟩

theorem Valid.splitGt (h : Valid type t) (k : K) :
    ∃ t', nodeSplitGt type k t = some t' ∧ Valid type t' ∧ t'.toList = above type k t.toList := by
  obtain ⟨t', ht, hbal, hlist⟩ := nodeSplitGt_spec h.balanced h.sorted k
  exact ⟨t', ht, ⟨hbal, hlist ▸ h.sorted.above k⟩, hlist⟩

/-! ## Union -/

/-- What `node/union-merge` does with the data for a key. -/
def mergeData (merge : K → V → V → V) (k : K) : Option V → Option V → Option V
  | some v1, some v2 => some (merge k v2 v1)
  | none, v2 => v2
  | v1, none => v1

theorem isEmpty_eq_true (h : t.isEmpty = true) : t = .empty := by
  cases t with
  | empty => rfl
  | node w l k r v => cases h

theorem nodeUnionMerge_spec (merge : K → V → V → V) {t1 t2 : Node K V} (h1 : Valid type t1)
    (h2 : Valid type t2) :
    YieldsMap type (nodeUnionMerge type merge t1 t2)
      fun x => mergeData merge x (contents t1.toList x) (contents t2.toList x) := by
  induction t2 generalizing t1 with
  | empty =>
      refine ⟨t1, rfl, h1, fun x => ?_⟩
      change _ = mergeData merge x (contents t1.toList x) none
      cases contents t1.toList x with
      | none => rfl
      | some v => rfl
  | node w l ak r av ihl ihr =>
      unfold nodeUnionMerge
      split
      · rename_i hempty
        rw [isEmpty_eq_true hempty]
        exact ⟨_, rfl, h2, fun x => rfl⟩
      · obtain ⟨l1, hl1, hvl1, hlist1⟩ := h1.splitLt ak
        obtain ⟨r1, hr1, hvr1, hlist2⟩ := h1.splitGt ak
        rw [hl1, hr1]
        have ih1 := ihl hvl1 h2.left
        have ih2 := ihr hvr1 h2.right
        rw [hlist1] at ih1
        rw [hlist2] at ih2
        simp only [Option.bind_eq_bind, Option.bind_some]
        refine YieldsMap.bind ih1 fun u1 hu1 hm1 => ?_
        refine YieldsMap.bind ih2 fun u2 hu2 hm2 => ?_
        refine nodeConcat3_combine (fun _ => rfl) h2.sorted hu1 hu2 hm1 hm2 ?_
        rw [nodeFind_spec h1.sorted]
        cases contents t1.toList ak with
        | none => rfl
        | some v => rfl

theorem nodeUnion_eq (t1 t2 : Node K V) :
    nodeUnion type t1 t2 = nodeUnionMerge type (fun _ v2 _ => v2) t1 t2 := by
  induction t2 generalizing t1 with
  | empty => rfl
  | node w l ak r av ihl ihr =>
      unfold nodeUnion nodeUnionMerge
      split
      · rfl
      · simp only [ihl, ihr]
        cases nodeFind type ak t1 with
        | none => rfl
        | some p => rfl

theorem nodeUnion_spec {t1 t2 : Node K V} (h1 : Valid type t1) (h2 : Valid type t2) :
    YieldsMap type (nodeUnion type t1 t2)
      fun x => (contents t2.toList x).or (contents t1.toList x) := by
  rw [nodeUnion_eq]
  obtain ⟨t, ht, hv, hm⟩ := nodeUnionMerge_spec (fun _ v2 _ => v2) h1 h2
  refine ⟨t, ht, hv, fun x => (hm x).trans ?_⟩
  dsimp only
  cases contents t1.toList x with
  | none => exact Option.or_none.symm
  | some v1 =>
      cases contents t2.toList x with
      | none => rfl
      | some v2 => rfl

/-! ## Difference and intersection -/

/-- What `node/difference` does with the data for a key. -/
def differenceData : Option V → Option V → Option V
  | v1, none => v1
  | _, some _ => none

/-- What `node/intersection` does with the data for a key. -/
def intersectionData : Option V → Option V → Option V
  | none, _ => none
  | some _, v2 => v2

theorem nodeDifference_spec {t1 t2 : Node K V} (h1 : Valid type t1) (h2 : Valid type t2) :
    YieldsMap type (nodeDifference type t1 t2)
      fun x => differenceData (contents t1.toList x) (contents t2.toList x) := by
  induction t2 generalizing t1 with
  | empty => exact ⟨t1, rfl, h1, fun x => rfl⟩
  | node w l ak r av ihl ihr =>
      unfold nodeDifference
      split
      · rename_i hempty
        rw [isEmpty_eq_true hempty]
        refine ⟨_, rfl, ⟨trivial, List.Pairwise.nil⟩, fun x => ?_⟩
        change none = differenceData none _
        cases contents (Node.node w l ak r av).toList x with
        | none => rfl
        | some v => rfl
      · obtain ⟨l1, hl1, hvl1, hlist1⟩ := h1.splitLt ak
        obtain ⟨r1, hr1, hvr1, hlist2⟩ := h1.splitGt ak
        rw [hl1, hr1]
        have ih1 := ihl hvl1 h2.left
        have ih2 := ihr hvr1 h2.right
        rw [hlist1] at ih1
        rw [hlist2] at ih2
        simp only [Option.bind_eq_bind, Option.bind_some]
        refine YieldsMap.bind ih1 fun u1 hu1 hm1 => ?_
        refine YieldsMap.bind ih2 fun u2 hu2 hm2 => ?_
        exact nodeConcat_combine (f := fun _ => differenceData) (fun _ => rfl) h2.sorted hu1 hu2
          hm1 hm2 rfl

theorem nodeIntersection_spec {t1 t2 : Node K V} (h1 : Valid type t1) (h2 : Valid type t2) :
    YieldsMap type (nodeIntersection type t1 t2)
      fun x => intersectionData (contents t1.toList x) (contents t2.toList x) := by
  induction t2 generalizing t1 with
  | empty =>
      refine ⟨_, rfl, ⟨trivial, List.Pairwise.nil⟩, fun x => ?_⟩
      change none = intersectionData (contents t1.toList x) none
      cases contents t1.toList x with
      | none => rfl
      | some v => rfl
  | node w l ak r av ihl ihr =>
      unfold nodeIntersection
      split
      · rename_i hempty
        rw [isEmpty_eq_true hempty]
        exact ⟨_, rfl, ⟨trivial, List.Pairwise.nil⟩, fun x => rfl⟩
      · obtain ⟨l1, hl1, hvl1, hlist1⟩ := h1.splitLt ak
        obtain ⟨r1, hr1, hvr1, hlist2⟩ := h1.splitGt ak
        rw [hl1, hr1]
        have ih1 := ihl hvl1 h2.left
        have ih2 := ihr hvr1 h2.right
        rw [hlist1] at ih1
        rw [hlist2] at ih2
        have hfind := nodeFind_spec h1.sorted ak
        simp only [Option.bind_eq_bind, Option.bind_some]
        split
        · rename_i hsome
          refine YieldsMap.bind ih1 fun u1 hu1 hm1 => ?_
          refine YieldsMap.bind ih2 fun u2 hu2 hm2 => ?_
          refine nodeConcat3_combine (f := fun _ => intersectionData) (fun _ => rfl) h2.sorted hu1
            hu2 hm1 hm2 ?_
          rw [hfind, Option.isSome_map] at hsome
          obtain ⟨v, hv⟩ := Option.isSome_iff_exists.mp hsome
          rw [hv]
          rfl
        · rename_i hnone
          refine YieldsMap.bind ih1 fun u1 hu1 hm1 => ?_
          refine YieldsMap.bind ih2 fun u2 hu2 hm2 => ?_
          refine nodeConcat_combine (f := fun _ => intersectionData) (fun _ => rfl) h2.sorted hu1
            hu2 hm1 hm2 ?_
          rw [hfind, Option.isSome_map, Bool.not_eq_true, Option.isSome_eq_false_iff,
            Option.isNone_iff_eq_none] at hnone
          rw [hnone]
          rfl

end MitScheme.WtTree
