import MitScheme.Runtime.WtTreeBalance

/-!
# What the trees contain

The associations of a tree are in the order of their keys, so they are a finite map, which
`contents` reads off. Each procedure is specified by the list it yields, and from there by
the map: adding and deleting put the list together from what is below and above the key,
and the operations on two trees combine two maps key by key.
-/

namespace MitScheme.WtTree

open LogBalance List

variable {K V : Type}

/-! ## Sorted lists -/

section

variable (type : TreeType K)

/-- The keys increase strictly. -/
def Sorted (list : List (K × V)) : Prop :=
  list.Pairwise fun p q => type.keyLess p.1 q.1 = true

/-- The associations below a key. -/
def below (x : K) (list : List (K × V)) : List (K × V) :=
  list.filter fun p => type.keyLess p.1 x

/-- The associations above a key. -/
def above (x : K) (list : List (K × V)) : List (K × V) :=
  list.filter fun p => type.keyLess x p.1

end

variable {type : TreeType K}

theorem TreeType.asymmetric {k k' : K} (h : type.keyLess k k' = true) :
    type.keyLess k' k = false := by
  rw [Bool.eq_false_iff]
  intro h'
  have hself := type.transitive h h'
  rw [type.irreflexive] at hself
  cases hself

theorem TreeType.eq_of_not_less {k k' : K} (h : ¬ type.keyLess k k' = true)
    (h' : ¬ type.keyLess k' k = true) : k = k' := by
  rcases type.trichotomous k k' with h1 | h1 | h1
  · exact absurd h1 h
  · exact h1
  · exact absurd h1 h'

theorem sorted_append_cons {l r : List (K × V)} {p : K × V} :
    Sorted type (l ++ p :: r) ↔ Sorted type l ∧ Sorted type r
      ∧ (∀ q ∈ l, type.keyLess q.1 p.1 = true) ∧ ∀ q ∈ r, type.keyLess p.1 q.1 = true := by
  unfold Sorted
  rw [pairwise_append, pairwise_cons]
  constructor
  · rintro ⟨hl, ⟨hp, hr⟩, h⟩
    exact ⟨hl, hr, fun q hq => h q hq p mem_cons_self, hp⟩
  · rintro ⟨hl, hr, hlp, hpr⟩
    refine ⟨hl, ⟨hpr, hr⟩, ?_⟩
    intro q hq q' hq'
    rcases mem_cons.mp hq' with rfl | hq'
    · exact hlp q hq
    · exact type.transitive (hlp q hq) (hpr q' hq')

theorem Sorted.below {list : List (K × V)} (h : Sorted type list) (x : K) :
    Sorted type (WtTree.below type x list) := List.Pairwise.filter _ h

theorem Sorted.above {list : List (K × V)} (h : Sorted type list) (x : K) :
    Sorted type (WtTree.above type x list) := List.Pairwise.filter _ h

variable {list : List (K × V)}

theorem below_eq_self {x : K}
    (h : ∀ p ∈ list, type.keyLess p.1 x = true) : below type x list = list :=
  filter_eq_self.mpr h

theorem above_eq_self {x : K}
    (h : ∀ p ∈ list, type.keyLess x p.1 = true) : above type x list = list :=
  filter_eq_self.mpr h

theorem below_eq_nil {x : K}
    (h : ∀ p ∈ list, type.keyLess p.1 x = false) : below type x list = [] :=
  filter_eq_nil_iff.mpr fun p hp => by simp [h p hp]

theorem above_eq_nil {x : K}
    (h : ∀ p ∈ list, type.keyLess x p.1 = false) : above type x list = [] :=
  filter_eq_nil_iff.mpr fun p hp => by simp [h p hp]

section

variable {l r : List (K × V)} {k x : K} {v : V}

theorem below_append (x : K) (l r : List (K × V)) :
    below type x (l ++ r) = below type x l ++ below type x r := filter_append ..

theorem above_append (x : K) (l r : List (K × V)) :
    above type x (l ++ r) = above type x l ++ above type x r := filter_append ..

theorem below_cons (x : K) (p : K × V) (r : List (K × V)) :
    below type x (p :: r) = if type.keyLess p.1 x then p :: below type x r else below type x r :=
  filter_cons ..

theorem above_cons (x : K) (p : K × V) (r : List (K × V)) :
    above type x (p :: r) = if type.keyLess x p.1 then p :: above type x r else above type x r :=
  filter_cons ..

theorem below_append_cons_of_less (h : Sorted type (l ++ (k, v) :: r))
    (hx : type.keyLess x k = true) : below type x (l ++ (k, v) :: r) = below type x l := by
  obtain ⟨-, -, -, hr⟩ := sorted_append_cons.mp h
  have hnil : below type x r = [] :=
    below_eq_nil fun p hp => TreeType.asymmetric (type.transitive hx (hr p hp))
  simp [below_append, below_cons, TreeType.asymmetric hx, hnil]

theorem above_append_cons_of_less (h : Sorted type (l ++ (k, v) :: r))
    (hx : type.keyLess x k = true) :
    above type x (l ++ (k, v) :: r) = above type x l ++ (k, v) :: r := by
  obtain ⟨-, -, -, hr⟩ := sorted_append_cons.mp h
  have hself : above type x r = r :=
    above_eq_self fun p hp => type.transitive hx (hr p hp)
  simp [above_append, above_cons, hx, hself]

theorem below_append_cons_of_greater (h : Sorted type (l ++ (k, v) :: r))
    (hx : type.keyLess k x = true) :
    below type x (l ++ (k, v) :: r) = l ++ (k, v) :: below type x r := by
  obtain ⟨-, -, hl, -⟩ := sorted_append_cons.mp h
  have hself : below type x l = l :=
    below_eq_self fun p hp => type.transitive (hl p hp) hx
  simp [below_append, below_cons, hx, hself]

theorem above_append_cons_of_greater (h : Sorted type (l ++ (k, v) :: r))
    (hx : type.keyLess k x = true) : above type x (l ++ (k, v) :: r) = above type x r := by
  obtain ⟨-, -, hl, -⟩ := sorted_append_cons.mp h
  have hnil : above type x l = [] :=
    above_eq_nil fun p hp => TreeType.asymmetric (type.transitive (hl p hp) hx)
  simp [above_append, above_cons, TreeType.asymmetric hx, hnil]

theorem below_append_cons_self (h : Sorted type (l ++ (k, v) :: r)) :
    below type k (l ++ (k, v) :: r) = l := by
  obtain ⟨-, -, hl, hr⟩ := sorted_append_cons.mp h
  have hnil : below type k r = [] := below_eq_nil fun p hp => TreeType.asymmetric (hr p hp)
  have hself : below type k l = l := below_eq_self hl
  simp [below_append, below_cons, type.irreflexive, hnil, hself]

theorem above_append_cons_self (h : Sorted type (l ++ (k, v) :: r)) :
    above type k (l ++ (k, v) :: r) = r := by
  obtain ⟨-, -, hl, hr⟩ := sorted_append_cons.mp h
  have hnil : above type k l = [] := above_eq_nil fun p hp => TreeType.asymmetric (hl p hp)
  have hself : above type k r = r := above_eq_self hr
  simp [above_append, above_cons, type.irreflexive, hnil, hself]

end

theorem length_below_above {list : List (K × V)} (h : Sorted type list) (x : K) :
    (below type x list).length + (above type x list).length ≤ list.length
      ∧ list.length ≤ (below type x list).length + (above type x list).length + 1 := by
  induction list with
  | nil => exact ⟨Nat.le_refl _, Nat.zero_le _⟩
  | cons p list ih =>
      have h' : Sorted type ([] ++ (p.1, p.2) :: list) := h
      obtain ⟨h1, h2⟩ := ih (List.Pairwise.of_cons h)
      rcases type.trichotomous x p.1 with hx | hx | hx
      · have hb := below_append_cons_of_less h' hx
        have ha := above_append_cons_of_less h' hx
        simp only [nil_append, Prod.mk.eta] at hb ha
        rw [hb, ha]
        simp [below, above]
      · subst hx
        have hb := below_append_cons_self h'
        have ha := above_append_cons_self h'
        simp only [nil_append, Prod.mk.eta] at hb ha
        rw [hb, ha]
        simp
      · have hb := below_append_cons_of_greater h' hx
        have ha := above_append_cons_of_greater h' hx
        simp only [nil_append, Prod.mk.eta] at hb ha
        rw [hb, ha]
        simp only [length_cons]
        omega

/-! ## Adding and deleting -/

variable {t : Node K V}

theorem nodeAdd_spec (hbal : WeightBalanced t) (hsorted : Sorted type t.toList) (k : K) (v : V) :
    Yields (nodeAdd type t k v) (below type k t.toList ++ (k, v) :: above type k t.toList) := by
  induction t with
  | empty => exact ⟨_, rfl, ⟨rfl, ⟨Nat.zero_le _, Nat.zero_le _⟩, trivial, trivial⟩, rfl⟩
  | node w l key r val ihl ihr =>
      obtain ⟨-, hnear, hl, hr⟩ := hbal
      have hs : Sorted type (l.toList ++ (key, val) :: r.toList) := hsorted
      obtain ⟨hsl, hsr, -, -⟩ := sorted_append_cons.mp hs
      change Yields _ (below type k (l.toList ++ (key, val) :: r.toList)
        ++ (k, v) :: above type k (l.toList ++ (key, val) :: r.toList))
      unfold nodeAdd
      split
      · rename_i hk
        rw [below_append_cons_of_less hs hk, above_append_cons_of_less hs hk, ← cons_append,
          ← append_assoc]
        refine Yields.bind (ihl hl hsl) ?_
        intro l' hl' hlist
        have hlen := length_below_above hsl k
        have hsize : l'.size = (below type k l.toList).length + (above type k l.toList).length + 1 := by
          rw [hl'.size_eq, hlist, length_append, length_cons]
          omega
        have hsize' := hl.size_eq
        rw [← hlist]
        exact tJoin_left_spec key val hl' hr hnear (by omega) (by omega)
      · split
        · rename_i hk
          rw [below_append_cons_of_greater hs hk, above_append_cons_of_greater hs hk,
            append_assoc, cons_append]
          refine Yields.bind (ihr hr hsr) ?_
          intro r' hr' hlist
          have hlen := length_below_above hsr k
          have hsize :
              r'.size = (below type k r.toList).length + (above type k r.toList).length + 1 := by
            rw [hr'.size_eq, hlist, length_append, length_cons]
            omega
          have hsize' := hr.size_eq
          rw [← hlist]
          exact tJoin_right_spec key val hl hr' hnear (by omega) (by omega)
        · rename_i hk hk'
          have heq := TreeType.eq_of_not_less hk hk'
          subst heq
          rw [below_append_cons_self hs, above_append_cons_self hs]
          exact ⟨_, rfl, weightBalanced_nJoin hl hr hnear, rfl⟩

theorem nodeDelete_spec (hbal : WeightBalanced t) (hsorted : Sorted type t.toList) (x : K) :
    Yields (nodeDelete type x t) (below type x t.toList ++ above type x t.toList) := by
  induction t with
  | empty => exact ⟨_, rfl, trivial, rfl⟩
  | node w l key r val ihl ihr =>
      obtain ⟨-, hnear, hl, hr⟩ := hbal
      have hs : Sorted type (l.toList ++ (key, val) :: r.toList) := hsorted
      obtain ⟨hsl, hsr, -, -⟩ := sorted_append_cons.mp hs
      change Yields _ (below type x (l.toList ++ (key, val) :: r.toList)
        ++ above type x (l.toList ++ (key, val) :: r.toList))
      unfold nodeDelete
      split
      · rename_i hx
        rw [below_append_cons_of_less hs hx, above_append_cons_of_less hs hx, ← append_assoc]
        refine Yields.bind (ihl hl hsl) ?_
        intro l' hl' hlist
        have hlen := length_below_above hsl x
        have hsize : l'.size = (below type x l.toList).length + (above type x l.toList).length := by
          rw [hl'.size_eq, hlist, length_append]
        have hsize' := hl.size_eq
        rw [← hlist]
        exact tJoin_left_spec key val hl' hr hnear (by omega) (by omega)
      · split
        · rename_i hx
          rw [below_append_cons_of_greater hs hx, above_append_cons_of_greater hs hx,
            append_assoc, cons_append]
          refine Yields.bind (ihr hr hsr) ?_
          intro r' hr' hlist
          have hlen := length_below_above hsr x
          have hsize :
              r'.size = (below type x r.toList).length + (above type x r.toList).length := by
            rw [hr'.size_eq, hlist, length_append]
          have hsize' := hr.size_eq
          rw [← hlist]
          exact tJoin_right_spec key val hl hr' hnear (by omega) (by omega)
        · rename_i hx hx'
          have heq := TreeType.eq_of_not_less hx hx'
          subst heq
          rw [below_append_cons_self hs, above_append_cons_self hs]
          exact nodeConcat2_spec hl hr hnear

/-! ## Concatenating and splitting -/

theorem size_grown {a l r : Nat} (h : a.size + 1 < (1 + l + r).size) (hnear : Near l r) :
    (a + 1 + l).size ≤ r.size + 2 ∧ r.size ≤ (a + 1 + l).size + 2 := by
  have h1 : r.size ≤ (a + 1 + l).size + 2 := by
    have := Nat.size_le_size (show l ≤ a + 1 + l by omega)
    have := hnear.right
    omega
  refine ⟨?_, h1⟩
  obtain ⟨n, hn⟩ : ∃ n, (1 + l + r).size = n + 2 := ⟨(1 + l + r).size - 2, by omega⟩
  have ha : a < 2 ^ n := Nat.size_le.mp (by omega)
  have hlow : 2 ^ (n + 1) ≤ 1 + l + r := Nat.lt_size.mp (by omega)
  have hr : n ≤ r.size := by
    by_contra hlt
    have hr := Nat.size_le.mp (show r.size ≤ n - 1 by omega)
    have hl := Nat.size_le.mp (show l.size ≤ n - 1 + 1 by have := hnear.left; omega)
    have hpow' : 2 ^ n = 2 * 2 ^ (n - 1) := by
      rw [← pow_succ', Nat.sub_add_cancel (by omega)]
    omega
  refine Nat.size_le.mpr ?_
  have hl : l < 2 ^ (r.size + 1) := Nat.size_le.mp hnear.left
  have hmono : 2 ^ n ≤ 2 ^ r.size := Nat.pow_le_pow_right (by omega) hr
  rw [pow_succ]
  omega

theorem nodeConcat3_spec (k : K) (v : V) : ∀ {l r : Node K V}, WeightBalanced l →
    WeightBalanced r → Sorted type (l.toList ++ (k, v) :: r.toList) →
    Yields (nodeConcat3 type k v l r) (l.toList ++ (k, v) :: r.toList)
  | .empty, r, _, hr, hs => by
      obtain ⟨-, hsr, -, hkr⟩ := sorted_append_cons.mp hs
      have h := nodeAdd_spec hr hsr k v
      rw [below_eq_nil fun p hp => TreeType.asymmetric (hkr p hp), above_eq_self hkr] at h
      unfold nodeConcat3
      exact h
  | .node w1 l1 k1 r1 v1, .empty, hl, _, hs => by
      obtain ⟨hsl, -, hlk, -⟩ := sorted_append_cons.mp hs
      have h := nodeAdd_spec hl hsl k v
      rw [below_eq_self hlk, above_eq_nil fun p hp => TreeType.asymmetric (hlk p hp)] at h
      unfold nodeConcat3
      exact h
  | .node w1 l1 k1 r1 v1, .node w2 l2 k2 r2 v2, hl, hr, hs => by
      unfold nodeConcat3
      split
      · rename_i hover
        rw [overweight_iff] at hover
        obtain ⟨hw2, hnear, hl2, hr2⟩ := id hr
        subst hw2
        have hlist : (Node.node w1 l1 k1 r1 v1).toList ++ (k, v)
            :: (Node.node (1 + l2.size + r2.size) l2 k2 r2 v2).toList
            = ((Node.node w1 l1 k1 r1 v1).toList ++ (k, v) :: l2.toList) ++ (k2, v2) :: r2.toList := by
          simp [Node.toList]
        rw [hlist] at hs ⊢
        refine Yields.bind (nodeConcat3_spec k v hl hl2 (sorted_append_cons.mp hs).1) ?_
        intro t ht hlist'
        have hsize : t.size = w1 + 1 + l2.size := by
          rw [ht.size_eq, hlist', length_append, length_cons, ← hl.size_eq,
            ← hl2.size_eq, size_node]
          omega
        obtain ⟨h1, h2⟩ := size_grown hover hnear
        rw [← hsize] at h1 h2
        rw [← hlist']
        exact tJoin_spec k2 v2 ht hr2 h1 h2
      · rename_i hnot
        split
        · rename_i hover
          rw [overweight_iff] at hover
          obtain ⟨hw1, hnear, hl1, hr1⟩ := id hl
          subst hw1
          have hlist : (Node.node (1 + l1.size + r1.size) l1 k1 r1 v1).toList ++ (k, v)
              :: (Node.node w2 l2 k2 r2 v2).toList
              = l1.toList ++ (k1, v1)
                :: (r1.toList ++ (k, v) :: (Node.node w2 l2 k2 r2 v2).toList) := by
            simp [Node.toList]
          rw [hlist] at hs ⊢
          refine Yields.bind (nodeConcat3_spec k v hr1 hr (sorted_append_cons.mp hs).2.1) ?_
          intro t ht hlist'
          have hsize : t.size = w2 + 1 + r1.size := by
            rw [ht.size_eq, hlist', length_append, length_cons, ← hr.size_eq,
              ← hr1.size_eq, size_node]
            omega
          rw [Nat.add_right_comm] at hover
          obtain ⟨h1, h2⟩ := size_grown hover hnear.symm
          rw [← hsize] at h1 h2
          rw [← hlist']
          exact tJoin_spec k1 v1 hl1 ht h2 h1
        · rename_i hnot'
          exact ⟨_, rfl, weightBalanced_nJoin hl hr (near_of_not_overweight hnot hnot'), rfl⟩
termination_by l r => sizeOf l + sizeOf r

theorem nodeConcat_spec {l r : Node K V} (hl : WeightBalanced l) (hr : WeightBalanced r)
    (hs : Sorted type (l.toList ++ r.toList)) :
    Yields (nodeConcat type l r) (l.toList ++ r.toList) := by
  cases l with
  | empty => exact yields_of_weightBalanced hr
  | node w l' k' r' v' =>
      cases r with
      | empty =>
          rw [show (Node.empty : Node K V).toList = [] from rfl, append_nil]
          exact yields_of_weightBalanced hl
      | node w2 l2 k2 r2 v2 =>
          obtain ⟨p, rest, h⟩ : ∃ p rest, (Node.node w2 l2 k2 r2 v2).toList = p :: rest :=
            exists_cons_of_ne_nil (by simp [Node.toList])
          unfold nodeConcat
          dsimp only
          rw [h] at hs
          rw [nodeMin_spec h, h]
          refine Yields.bind (nodeDelmin_spec hr h) ?_
          rintro t ht rfl
          exact nodeConcat3_spec p.1 p.2 hl ht hs

theorem nodeSplitLt_spec (hbal : WeightBalanced t) (hsorted : Sorted type t.toList) (x : K) :
    Yields (nodeSplitLt type x t) (below type x t.toList) := by
  induction t with
  | empty => exact ⟨_, rfl, trivial, rfl⟩
  | node w l k r v ihl ihr =>
      obtain ⟨-, -, hl, hr⟩ := hbal
      have hs : Sorted type (l.toList ++ (k, v) :: r.toList) := hsorted
      obtain ⟨hsl, hsr, -, -⟩ := sorted_append_cons.mp hs
      change Yields _ (below type x (l.toList ++ (k, v) :: r.toList))
      unfold nodeSplitLt
      split
      · rename_i hx
        rw [below_append_cons_of_less hs hx]
        exact ihl hl hsl
      · split
        · rename_i hx
          have hs' := hs.below x
          rw [below_append_cons_of_greater hs hx] at hs' ⊢
          refine Yields.bind (ihr hr hsr) ?_
          intro r' hr' hlist
          rw [← hlist] at hs' ⊢
          exact nodeConcat3_spec k v hl hr' hs'
        · rename_i hx hx'
          have heq := TreeType.eq_of_not_less hx hx'
          subst heq
          rw [below_append_cons_self hs]
          exact yields_of_weightBalanced hl

theorem nodeSplitGt_spec (hbal : WeightBalanced t) (hsorted : Sorted type t.toList) (x : K) :
    Yields (nodeSplitGt type x t) (above type x t.toList) := by
  induction t with
  | empty => exact ⟨_, rfl, trivial, rfl⟩
  | node w l k r v ihl ihr =>
      obtain ⟨-, -, hl, hr⟩ := hbal
      have hs : Sorted type (l.toList ++ (k, v) :: r.toList) := hsorted
      obtain ⟨hsl, hsr, -, -⟩ := sorted_append_cons.mp hs
      change Yields _ (above type x (l.toList ++ (k, v) :: r.toList))
      unfold nodeSplitGt
      split
      · rename_i hx
        rw [above_append_cons_of_greater hs hx]
        exact ihr hr hsr
      · split
        · rename_i hx
          have hs' := hs.above x
          rw [above_append_cons_of_less hs hx] at hs' ⊢
          refine Yields.bind (ihl hl hsl) ?_
          intro l' hl' hlist
          rw [← hlist] at hs' ⊢
          exact nodeConcat3_spec k v hl' hr hs'
        · rename_i hx hx'
          have heq := TreeType.eq_of_not_less hx' hx
          subst heq
          rw [above_append_cons_self hs]
          exact yields_of_weightBalanced hr

end MitScheme.WtTree
