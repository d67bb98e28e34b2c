import MitScheme.Lib.LogBalance
import MitScheme.Runtime.WtTree

/-!
# Joining trees keeps them balanced

A tree stands for the list of its associations, in order. `t-join` can join two balanced
trees when their sizes differ by at most two digits: one rotation takes away the second
one. Every procedure on trees joins within that bound, also `concat3`, which joins what it
got for a subtree of the heavier tree with the other subtree.
-/

namespace MitScheme.WtTree

open LogBalance

variable {K V : Type}

/-- The associations of a tree, in order. -/
def Node.toList : Node K V → List (K × V)
  | .empty => []
  | .node _ l k r v => l.toList ++ (k, v) :: r.toList

@[simp] theorem size_empty : (Node.empty : Node K V).size = 0 := rfl

@[simp] theorem size_node (w : Nat) (l : Node K V) (k : K) (r : Node K V) (v : V) :
    (Node.node w l k r v).size = w := rfl

/-- The sizes are right, and every two subtrees are near each other in size. -/
def WeightBalanced : Node K V → Prop
  | .empty => True
  | .node w l _ r _ =>
      w = 1 + l.size + r.size ∧ Near l.size r.size ∧ WeightBalanced l ∧ WeightBalanced r

theorem log2Less_iff (a b : Nat) : log2Less a b = true ↔ a.size < b.size := by
  unfold log2Less
  rw [Bool.and_eq_true, decide_eq_true_iff, decide_eq_true_iff, Nat.shiftLeft_eq, Nat.mul_comm]
  constructor
  · rintro ⟨h, h'⟩
    exact (size_and_lt h).mp h'
  · intro h
    have hlt : a < b := by
      by_contra hle
      exact absurd (Nat.size_le_size (not_lt.mp hle)) (by omega)
    exact ⟨hlt, (size_and_lt hlt).mpr h⟩

theorem overweight_iff (a b : Nat) : overweight a b = true ↔ a.size + 1 < b.size := by
  unfold overweight
  rw [log2Less_iff, Nat.shiftRight_eq_div_pow, size_half]
  omega

theorem single_iff (a b : Nat) : single a b = true ↔ a.size ≤ b.size := by
  unfold single
  rw [Bool.not_eq_true', ← Bool.not_eq_true, log2Less_iff, not_lt]

theorem near_of_not_overweight {a b : Nat} (h : ¬ overweight a b = true)
    (h' : ¬ overweight b a = true) : Near a b := by
  rw [overweight_iff] at h h'
  exact ⟨by omega, by omega⟩

theorem WeightBalanced.size_eq {t : Node K V} (h : WeightBalanced t) :
    t.size = t.toList.length := by
  induction t with
  | empty => rfl
  | node w l k r v ihl ihr =>
      obtain ⟨hw, -, hl, hr⟩ := h
      change w = (l.toList ++ (k, v) :: r.toList).length
      rw [hw, ihl hl, ihr hr, List.length_append, List.length_cons]
      omega

theorem weightBalanced_nJoin {k : K} {v : V} {l r : Node K V} (hl : WeightBalanced l)
    (hr : WeightBalanced r) (h : Near l.size r.size) : WeightBalanced (nJoin k v l r) :=
  ⟨rfl, h, hl, hr⟩

@[simp] theorem toList_nJoin (k : K) (v : V) (l r : Node K V) :
    (nJoin k v l r).toList = l.toList ++ (k, v) :: r.toList := rfl

@[simp] theorem size_nJoin (k : K) (v : V) (l r : Node K V) :
    (nJoin k v l r).size = 1 + l.size + r.size := rfl

/-- A procedure returns a balanced tree with these associations. -/
def Yields (result : Option (Node K V)) (list : List (K × V)) : Prop :=
  ∃ t, result = some t ∧ WeightBalanced t ∧ t.toList = list

theorem Yields.bind {x : Option (Node K V)} {f : Node K V → Option (Node K V)}
    {list list' : List (K × V)} (h : Yields x list)
    (hf : ∀ t, WeightBalanced t → t.toList = list → Yields (f t) list') :
    Yields (x >>= f) list' := by
  obtain ⟨t, rfl, ht, hlist⟩ := h
  exact hf t ht hlist

theorem yields_of_weightBalanced {t : Node K V} (h : WeightBalanced t) : Yields (some t) t.toList :=
  ⟨t, rfl, h, rfl⟩

/-! ## Rotations -/

/-- The rotations to the left, when the right subtree is too heavy. -/
theorem rotateL_spec (k : K) (v : V) {l rl rr : Node K V} {w : Nat} {rk : K} {rv : V}
    (hl : WeightBalanced l) (hr : WeightBalanced (.node w rl rk rr rv))
    (hheavy : w.size = l.size.size + 2) :
    Yields (if single rl.size rr.size then singleL k v l (.node w rl rk rr rv)
        else doubleL k v l (.node w rl rk rr rv))
      (l.toList ++ (k, v) :: (rl.toList ++ (rk, rv) :: rr.toList)) := by
  obtain ⟨hw, hnear, hrl, hrr⟩ := hr
  subst hw
  split
  · rename_i hsingle
    rw [single_iff] at hsingle
    obtain ⟨h1, h2⟩ := near_single hheavy hnear hsingle
    refine ⟨_, rfl, ?_, ?_⟩
    · exact weightBalanced_nJoin (weightBalanced_nJoin hl hrl h1) hrr h2
    · simp
  · rename_i hdouble
    rw [single_iff, not_le] at hdouble
    cases rl with
    | empty => exact absurd hdouble (by simp)
    | node w' y1 bk y2 bv =>
        obtain ⟨hw', hy, hy1, hy2⟩ := hrl
        subst hw'
        obtain ⟨h1, h2, h3⟩ := near_double hheavy hnear hdouble hy
        refine ⟨_, rfl, ?_, ?_⟩
        · exact weightBalanced_nJoin (weightBalanced_nJoin hl hy1 h1)
            (weightBalanced_nJoin hy2 hrr h2) h3
        · simp [Node.toList]

/-- The rotations to the right, when the left subtree is too heavy. -/
theorem rotateR_spec (k : K) (v : V) {r ll lr : Node K V} {w : Nat} {lk : K} {lv : V}
    (hr : WeightBalanced r) (hl : WeightBalanced (.node w ll lk lr lv))
    (hheavy : w.size = r.size.size + 2) :
    Yields (if single lr.size ll.size then singleR k v (.node w ll lk lr lv) r
        else doubleR k v (.node w ll lk lr lv) r)
      ((ll.toList ++ (lk, lv) :: lr.toList) ++ (k, v) :: r.toList) := by
  obtain ⟨hw, hnear, hll, hlr⟩ := hl
  subst hw
  split
  · rename_i hsingle
    rw [single_iff] at hsingle
    rw [Nat.add_right_comm] at hheavy
    obtain ⟨h1, h2⟩ := near_single hheavy hnear.symm hsingle
    rw [Nat.add_right_comm] at h2
    refine ⟨_, rfl, ?_, ?_⟩
    · exact weightBalanced_nJoin hll (weightBalanced_nJoin hlr hr h1.symm) h2.symm
    · simp
  · rename_i hdouble
    rw [single_iff, not_le] at hdouble
    cases lr with
    | empty => exact absurd hdouble (by simp)
    | node w' y1 bk y2 bv =>
        obtain ⟨hw', hy, hy1, hy2⟩ := hlr
        subst hw'
        -- the mirror image of the rotation to the left
        have hmirror : 1 + y1.size + y2.size = 1 + y2.size + y1.size := by omega
        rw [hmirror] at hheavy hnear hdouble
        rw [Nat.add_right_comm] at hheavy
        obtain ⟨h1, h2, h3⟩ := near_double hheavy hnear.symm hdouble hy.symm
        rw [Nat.add_right_comm 1 r.size, Nat.add_right_comm 1 y1.size] at h3
        refine ⟨_, rfl, ?_, ?_⟩
        · exact weightBalanced_nJoin (weightBalanced_nJoin hll hy1 h2.symm)
            (weightBalanced_nJoin hy2 hr h1.symm) h3.symm
        · simp [Node.toList]

/-- **`t-join` of balanced trees**, whose sizes differ by at most two digits. -/
theorem tJoin_spec (k : K) (v : V) {l r : Node K V} (hl : WeightBalanced l)
    (hr : WeightBalanced r) (hlr : l.size.size ≤ r.size.size + 2)
    (hrl : r.size.size ≤ l.size.size + 2) :
    Yields (tJoin k v l r) (l.toList ++ (k, v) :: r.toList) := by
  unfold tJoin
  split
  · rename_i hover
    rw [overweight_iff] at hover
    cases r with
    | empty => exact absurd hover (by simp)
    | node w rl rk rr rv =>
        simp only [size_node] at hover hrl
        exact rotateL_spec k v hl hr (by omega)
  · rename_i hover
    split
    · rename_i hover'
      rw [overweight_iff] at hover'
      cases l with
      | empty => exact absurd hover' (by simp)
      | node w ll lk lr lv =>
          simp only [size_node] at hover' hlr
          exact rotateR_spec k v hr hl (by omega)
    · rename_i hover'
      exact ⟨_, rfl, weightBalanced_nJoin hl hr (near_of_not_overweight hover hover'), rfl⟩

/-! ## The least association -/

theorem size_succ_le (a : Nat) : (a + 1).size ≤ a.size + 1 := by
  refine Nat.size_le.mpr ?_
  have := Nat.lt_size_self a
  omega

/-- A subtree that has grown or shrunk by one node at most can still be joined. -/
theorem tJoin_left_spec (k : K) (v : V) {l l' r : Node K V} (hl : WeightBalanced l')
    (hr : WeightBalanced r) (hnear : Near l.size r.size) (hle : l'.size ≤ l.size + 1)
    (hge : l.size ≤ l'.size + 1) : Yields (tJoin k v l' r) (l'.toList ++ (k, v) :: r.toList) := by
  have h1 := le_trans (Nat.size_le_size hle) (size_succ_le _)
  have h2 := le_trans (Nat.size_le_size hge) (size_succ_le _)
  have h3 := hnear.left
  have h4 := hnear.right
  exact tJoin_spec k v hl hr (by omega) (by omega)

theorem tJoin_right_spec (k : K) (v : V) {l r r' : Node K V} (hl : WeightBalanced l)
    (hr : WeightBalanced r') (hnear : Near l.size r.size) (hle : r'.size ≤ r.size + 1)
    (hge : r.size ≤ r'.size + 1) : Yields (tJoin k v l r') (l.toList ++ (k, v) :: r'.toList) := by
  have h1 := le_trans (Nat.size_le_size hle) (size_succ_le _)
  have h2 := le_trans (Nat.size_le_size hge) (size_succ_le _)
  have h3 := hnear.left
  have h4 := hnear.right
  exact tJoin_spec k v hl hr (by omega) (by omega)

theorem nodeMin_spec : ∀ {t : Node K V} {p : K × V} {rest : List (K × V)},
    t.toList = p :: rest → nodeMin t = some p
  | .empty, _, _, h => by cases h
  | .node _ .empty k r v, _, _, h => by
      cases h
      rfl
  | .node _ (.node w l' k' r' v') k r v, p, rest, h => by
      unfold nodeMin
      obtain ⟨p', rest', h'⟩ : ∃ p' rest', (Node.node w l' k' r' v').toList = p' :: rest' :=
        List.exists_cons_of_ne_nil (by simp [Node.toList])
      have heq : (Node.node w l' k' r' v').toList ++ (k, v) :: r.toList = p :: rest := h
      rw [h'] at heq
      cases heq
      exact nodeMin_spec h'

theorem nodeDelmin_spec : ∀ {t : Node K V} {p : K × V} {rest : List (K × V)}, WeightBalanced t →
    t.toList = p :: rest → Yields (nodeDelmin t) rest
  | .empty, _, _, _, h => by cases h
  | .node _ .empty k r v, _, _, hbal, h => by
      cases h
      exact yields_of_weightBalanced hbal.2.2.2
  | .node _ (.node w l' k' r' v') k r v, p, rest, hbal, h => by
      obtain ⟨-, hnear, hl, hr⟩ := hbal
      obtain ⟨p', rest', h'⟩ : ∃ p' rest', (Node.node w l' k' r' v').toList = p' :: rest' :=
        List.exists_cons_of_ne_nil (by simp [Node.toList])
      have heq : (Node.node w l' k' r' v').toList ++ (k, v) :: r.toList = p :: rest := h
      rw [h'] at heq
      cases heq
      refine Yields.bind (nodeDelmin_spec hl h') ?_
      rintro t ht rfl
      have hsize : (Node.node w l' k' r' v').size = t.size + 1 := by
        rw [hl.size_eq, h', ht.size_eq, List.length_cons]
      exact tJoin_left_spec k v ht hr hnear (by omega) (by omega)

theorem nodeConcat2_spec {l r : Node K V} (hl : WeightBalanced l) (hr : WeightBalanced r)
    (hnear : Near l.size r.size) : Yields (nodeConcat2 l r) (l.toList ++ r.toList) := by
  cases l with
  | empty => exact yields_of_weightBalanced hr
  | node w l' k' r' v' =>
      cases r with
      | empty =>
          rw [show (Node.empty : Node K V).toList = [] from rfl, List.append_nil]
          exact yields_of_weightBalanced hl
      | node w2 l2 k2 r2 v2 =>
          obtain ⟨p, rest, h⟩ : ∃ p rest, (Node.node w2 l2 k2 r2 v2).toList = p :: rest :=
            List.exists_cons_of_ne_nil (by simp [Node.toList])
          unfold nodeConcat2
          dsimp only
          rw [nodeMin_spec h, h]
          refine Yields.bind (nodeDelmin_spec hr h) ?_
          rintro t ht rfl
          have hsize : (Node.node w2 l2 k2 r2 v2).size = t.size + 1 := by
            rw [hr.size_eq, h, ht.size_eq, List.length_cons]
          exact tJoin_right_spec p.1 p.2 hl ht hnear (by omega) (by omega)

end MitScheme.WtTree
