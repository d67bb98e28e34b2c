import Mathlib.Algebra.BigOperators.Intervals
import Mathlib.Algebra.Order.BigOperators.Group.Finset

/-!
# Binary trees with links to the parents

Cells in a heap, each linked to its parent and its two children, hold a binary tree. A part of the
tree is looked at together with the path to it from the root, so that going to a child or to the
parent only changes the point of view, and a change of some links is a change of the part in view.

`Focus` says that the cells hold a part in its context, each at an address of its own, and that all
other addresses have what they had before. Left and right are treated alike: a node is put together
by `join` from what is on one side and what is on the other.
-/

namespace MitScheme.LinkedTrees

inductive Side where
  | left
  | right
deriving DecidableEq, Repr

def Side.opposite : Side → Side
  | left => right
  | right => left

/-- A node, with links to its parent and its children. -/
structure Cell (β : Type) where
  value : β
  up : Option Nat
  left : Option Nat
  right : Option Nat

variable {β : Type}

namespace Cell

def link (cell : Cell β) : Side → Option Nat
  | .left => cell.left
  | .right => cell.right

def setLink (cell : Cell β) (d : Side) (l : Option Nat) : Cell β :=
  match d with
  | .left => { cell with left := l }
  | .right => { cell with right := l }

/-- The cell with these links on a side and on the other side. -/
def make (d : Side) (value : β) (up near far : Option Nat) : Cell β :=
  match d with
  | .left => ⟨value, up, near, far⟩
  | .right => ⟨value, up, far, near⟩

variable (d : Side) (v v' : β) (up up' near near' far far' : Option Nat)

@[simp] theorem value_make : (make d v up near far).value = v := by cases d <;> rfl

@[simp] theorem up_make : (make d v up near far).up = up := by cases d <;> rfl

@[simp] theorem link_make : (make d v up near far).link d = near := by cases d <;> rfl

@[simp] theorem link_opposite_make : (make d v up near far).link d.opposite = far := by
  cases d <;> rfl

@[simp] theorem setLink_make :
    (make d v up near far).setLink d near' = make d v up near' far := by cases d <;> rfl

@[simp] theorem setLink_opposite_make :
    (make d v up near far).setLink d.opposite far' = make d v up near far' := by cases d <;> rfl

@[simp] theorem setUp_make : { make d v up near far with up := up' } = make d v up' near far := by
  cases d <;> rfl

@[simp] theorem setValue_make :
    { make d v up near far with value := v' } = make d v' up near far := by cases d <;> rfl

theorem make_opposite : make d.opposite v up near far = make d v up far near := by cases d <;> rfl

end Cell

abbrev Cells (β : Type) := Nat → Option (Cell β)

/-! ## Trees and contexts -/

inductive BinTree (β : Type) where
  | leaf
  | node (address : Nat) (value : β) (left right : BinTree β)

namespace BinTree

/-- The node with these subtrees on a side and on the other side. -/
def join (d : Side) (address : Nat) (value : β) (near far : BinTree β) : BinTree β :=
  match d with
  | .left => node address value near far
  | .right => node address value far near

theorem join_opposite (d : Side) (a : Nat) (v : β) (near far : BinTree β) :
    join d.opposite a v near far = join d a v far near := by cases d <;> rfl

/-- The link to the tree. -/
def root : BinTree β → Option Nat
  | leaf => none
  | node a _ _ _ => some a

@[simp] theorem root_leaf : (leaf : BinTree β).root = none := rfl

@[simp] theorem root_node (a : Nat) (v : β) (l r : BinTree β) :
    (node a v l r).root = some a := rfl

@[simp] theorem root_join (d : Side) (a : Nat) (v : β) (near far : BinTree β) :
    (join d a v near far).root = some a := by cases d <;> rfl

/-- How often an address occurs in the tree. -/
def occurs : BinTree β → Nat → Nat
  | leaf, _ => 0
  | node a _ l r, b => (if a = b then 1 else 0) + l.occurs b + r.occurs b

@[simp] theorem occurs_leaf (b : Nat) : (leaf : BinTree β).occurs b = 0 := rfl

@[simp] theorem occurs_join (d : Side) (a : Nat) (v : β) (near far : BinTree β) (b : Nat) :
    (join d a v near far).occurs b = (if a = b then 1 else 0) + near.occurs b + far.occurs b := by
  cases d
  · rfl
  · simp only [join, occurs]
    omega

theorem occurs_of_root {t : BinTree β} {a : Nat} (h : t.root = some a) : 0 < t.occurs a := by
  cases t with
  | leaf => cases h
  | node b v l r =>
      cases h
      simp only [occurs, if_true]
      omega

theorem eq_leaf {t : BinTree β} (h : t.root = none) : t = leaf := by
  cases t with
  | leaf => rfl
  | node a v l r => cases h

theorem eq_join {t : BinTree β} {a : Nat} (h : t.root = some a) (d : Side) :
    ∃ v near far, t = join d a v near far := by
  cases t with
  | leaf => cases h
  | node b v l r =>
      cases h
      cases d with
      | left => exact ⟨v, l, r, rfl⟩
      | right => exact ⟨v, r, l, rfl⟩

end BinTree

open BinTree

/-- A node above the part in view, which is on one side of it. -/
structure Frame (β : Type) where
  side : Side
  address : Nat
  value : β
  other : BinTree β

/-- What is above the part in view, from its parent up to the root. -/
abbrev Context (β : Type) := List (Frame β)

def Frame.fill (frame : Frame β) (t : BinTree β) : BinTree β :=
  join frame.side frame.address frame.value t frame.other

/-- The whole tree. -/
def plug : BinTree β → Context β → BinTree β
  | t, [] => t
  | t, frame :: ctx => plug (frame.fill t) ctx

namespace Context

/-- The link to the parent of the part in view. -/
def up : Context β → Option Nat
  | [] => none
  | frame :: _ => some frame.address

@[simp] theorem up_cons (frame : Frame β) (ctx : Context β) :
    Context.up (frame :: ctx) = some frame.address := rfl

def occurs : Context β → Nat → Nat
  | [], _ => 0
  | frame :: ctx, b =>
      (if frame.address = b then 1 else 0) + frame.other.occurs b + Context.occurs ctx b

theorem occurs_of_up {ctx : Context β} {b : Nat} (h : Context.up ctx = some b) :
    0 < Context.occurs ctx b := by
  cases ctx with
  | nil => cases h
  | cons frame ctx =>
      cases h
      simp only [occurs, if_true]
      omega

/-- The link to the whole tree, given the link to the part in view. -/
def root (hole : Option Nat) : Context β → Option Nat
  | [] => hole
  | frame :: ctx => Context.root (some frame.address) ctx

end Context

theorem occurs_plug (t : BinTree β) (ctx : Context β) (b : Nat) :
    (plug t ctx).occurs b = t.occurs b + Context.occurs ctx b := by
  induction ctx generalizing t with
  | nil => rfl
  | cons frame ctx ih =>
      rw [plug, ih, Frame.fill, occurs_join, Context.occurs]
      omega

theorem plug_append (t : BinTree β) (ctx ctx' : Context β) :
    plug t (ctx ++ ctx') = plug (plug t ctx) ctx' := by
  induction ctx generalizing t with
  | nil => rfl
  | cons frame ctx ih => exact ih (frame.fill t)

/-- The number of nodes. -/
def BinTree.size : BinTree β → Nat
  | leaf => 0
  | node _ _ l r => l.size + r.size + 1

@[simp] theorem size_join (d : Side) (a : Nat) (v : β) (near far : BinTree β) :
    (join d a v near far).size = near.size + far.size + 1 := by
  cases d
  · rfl
  · simp only [join, BinTree.size]
    omega

theorem size_plug (t : BinTree β) (ctx : Context β) :
    t.size + ctx.length ≤ (plug t ctx).size := by
  induction ctx generalizing t with
  | nil => exact Nat.le_refl _
  | cons frame ctx ih =>
      refine Nat.le_trans ?_ (ih (frame.fill t))
      rw [Frame.fill, size_join, List.length_cons]
      omega

theorem size_le {t : BinTree β} {bound : Nat} (honce : ∀ b, t.occurs b ≤ 1)
    (hbound : ∀ b, bound ≤ b → t.occurs b = 0) : t.size ≤ bound := by
  have hsum : ∀ t : BinTree β, (∀ b, bound ≤ b → t.occurs b = 0) →
      t.size = ∑ b ∈ Finset.range bound, t.occurs b := by
    intro t
    induction t with
    | leaf => simp [BinTree.size]
    | node a v l r ihl ihr =>
        intro h
        have hl : ∀ b, bound ≤ b → l.occurs b = 0 := fun b hb => by
          have := h b hb
          simp only [BinTree.occurs] at this
          omega
        have hr : ∀ b, bound ≤ b → r.occurs b = 0 := fun b hb => by
          have := h b hb
          simp only [BinTree.occurs] at this
          omega
        have ha : a < bound := by
          refine Nat.lt_of_not_le fun hle => ?_
          have := h a hle
          simp only [BinTree.occurs, if_true] at this
          omega
        simp only [BinTree.size, BinTree.occurs, Finset.sum_add_distrib, ← ihl hl, ← ihr hr,
          Finset.sum_ite_eq, Finset.mem_range, ha, if_true]
        omega
  rw [hsum t hbound]
  calc ∑ b ∈ Finset.range bound, t.occurs b
      ≤ ∑ _b ∈ Finset.range bound, 1 := Finset.sum_le_sum fun b _ => honce b
    _ = bound := by rw [← Finset.card_eq_sum_ones, Finset.card_range]

/-! ## What the cells hold -/

/-- The cells hold the tree below a parent. -/
def Holds (cells : Cells β) : Option Nat → BinTree β → Prop
  | _, leaf => True
  | up, node a v l r =>
      cells a = some ⟨v, up, l.root, r.root⟩ ∧ Holds cells (some a) l ∧ Holds cells (some a) r

/-- The cells hold the context around a link. -/
def HoldsContext (cells : Cells β) : Option Nat → Context β → Prop
  | _, [] => True
  | hole, frame :: ctx =>
      cells frame.address
          = some (.make frame.side frame.value (Context.up ctx) hole frame.other.root)
        ∧ Holds cells (some frame.address) frame.other
        ∧ HoldsContext cells (some frame.address) ctx

variable {cells cells' : Cells β} {up : Option Nat} {t : BinTree β} {ctx : Context β}
  {d : Side} {a : Nat} {v v' : β} {near far : BinTree β}

@[simp] theorem holds_leaf : Holds cells up leaf := trivial

theorem holds_join :
    Holds cells up (join d a v near far)
      ↔ cells a = some (.make d v up near.root far.root) ∧ Holds cells (some a) near
        ∧ Holds cells (some a) far := by
  cases d
  · rfl
  · exact and_congr_right fun _ => and_comm

theorem Holds.congr (h : Holds cells up t) (heq : ∀ b, 0 < t.occurs b → cells' b = cells b) :
    Holds cells' up t := by
  induction t generalizing up with
  | leaf => trivial
  | node a v l r ihl ihr =>
      obtain ⟨ha, hl, hr⟩ := h
      refine ⟨?_, ihl hl fun b hb => heq b ?_, ihr hr fun b hb => heq b ?_⟩
      · rw [heq a (by simp only [BinTree.occurs, if_true]; omega), ha]
      · simp only [BinTree.occurs]
        omega
      · simp only [BinTree.occurs]
        omega

theorem HoldsContext.congr {hole : Option Nat} (h : HoldsContext cells hole ctx)
    (heq : ∀ b, 0 < Context.occurs ctx b → cells' b = cells b) : HoldsContext cells' hole ctx := by
  induction ctx generalizing hole with
  | nil => trivial
  | cons frame ctx ih =>
      obtain ⟨ha, hother, hctx⟩ := h
      refine ⟨?_, hother.congr fun b hb => heq b ?_, ih hctx fun b hb => heq b ?_⟩
      · rw [heq frame.address (by simp only [Context.occurs, if_true]; omega), ha]
      · simp only [Context.occurs]
        omega
      · simp only [Context.occurs]
        omega

theorem Holds.setUp {up' : Option Nat} (h : Holds cells up t)
    (honce : ∀ b, t.occurs b ≤ 1) (heq : ∀ b, 0 < t.occurs b → t.root ≠ some b →
      cells' b = cells b)
    (hroot : ∀ b cell, t.root = some b → cells b = some cell →
      cells' b = some { cell with up := up' }) : Holds cells' up' t := by
  cases t with
  | leaf => trivial
  | node a v l r =>
      obtain ⟨ha, hl, hr⟩ := h
      have hne : ∀ b, 0 < l.occurs b ∨ 0 < r.occurs b → cells' b = cells b := by
        intro b hb
        have hb' := honce b
        have hsome : 0 < (node a v l r).occurs b := by
          simp only [BinTree.occurs]
          omega
        refine heq b hsome fun hroot => ?_
        cases hroot
        simp only [BinTree.occurs, if_true] at hb'
        omega
      exact ⟨hroot a _ rfl ha, hl.congr fun b hb => hne b (.inl hb),
        hr.congr fun b hb => hne b (.inr hb)⟩

/-! ## The part in view -/

/-- The addresses that a tree may use, and what the cells were like before. -/
structure Region (β : Type) where
  footprint : Nat → Nat
  once : ∀ b, footprint b ≤ 1
  before : Cells β

/-- The cells and the link to the root are those of a part in its context, and nothing outside of
the region has changed. -/
structure Focus (region : Region β) (cells : Cells β) (root : Option Nat) (t : BinTree β)
    (ctx : Context β) : Prop where
  tree : Holds cells (Context.up ctx) t
  context : HoldsContext cells t.root ctx
  root : root = Context.root t.root ctx
  occurs : ∀ b, t.occurs b + Context.occurs ctx b ≤ region.footprint b
  unchanged : ∀ b, region.footprint b = 0 → cells b = region.before b

variable {region : Region β} {root : Option Nat}

theorem focus_join :
    Focus region cells root (join d a v near far) ctx
      ↔ Focus region cells root near (⟨d, a, v, far⟩ :: ctx) := by
  have hoccurs : ∀ b, (join d a v near far).occurs b + Context.occurs ctx b
      = near.occurs b + Context.occurs (⟨d, a, v, far⟩ :: ctx) b := fun b => by
    rw [occurs_join, Context.occurs]
    dsimp only
    omega
  refine ⟨fun h => ?_, fun h => ?_⟩
  · obtain ⟨ha, hnear, hfar⟩ := holds_join.mp h.tree
    have hctx := h.context
    have hroot := h.root
    rw [root_join] at hctx hroot
    exact ⟨hnear, ⟨ha, hfar, hctx⟩, hroot, fun b => hoccurs b ▸ h.occurs b,
      h.unchanged⟩
  · obtain ⟨ha, hfar, hctx⟩ := h.context
    refine ⟨holds_join.mpr ⟨ha, h.tree, hfar⟩, ?_, ?_, fun b => (hoccurs b).trans_le (h.occurs b),
      h.unchanged⟩
    · rw [root_join]
      exact hctx
    · rw [root_join]
      exact h.root

theorem focus_join_far :
    Focus region cells root (join d a v near far) ctx
      ↔ Focus region cells root far (⟨d.opposite, a, v, near⟩ :: ctx) := by
  rw [← focus_join, join_opposite]

theorem focus_plug {k : Context β} :
    Focus region cells root (plug t k) ctx ↔ Focus region cells root t (k ++ ctx) := by
  induction k generalizing t with
  | nil => rfl
  | cons frame k ih => exact ih.trans focus_join

theorem Focus.top (h : Focus region cells root t ctx) :
    Focus region cells root (plug t ctx) [] := by
  induction ctx generalizing t with
  | nil => exact h
  | cons frame ctx ih => exact ih (focus_join.mpr h)

theorem Focus.cell (h : Focus region cells root (join d a v near far) ctx) :
    cells a = some (.make d v (Context.up ctx) near.root far.root) :=
  (holds_join.mp h.tree).1

theorem Focus.parent {frame : Frame β} (h : Focus region cells root t (frame :: ctx)) :
    cells frame.address
      = some (.make frame.side frame.value (Context.up ctx) t.root frame.other.root) :=
  h.context.1

theorem Focus.occurs_le (h : Focus region cells root t ctx) (b : Nat) :
    t.occurs b + Context.occurs ctx b ≤ 1 :=
  (h.occurs b).trans (region.once b)

theorem Focus.footprint (h : Focus region cells root t ctx) {b : Nat}
    (hb : region.footprint b = 0) : t.occurs b = 0 ∧ Context.occurs ctx b = 0 := by
  have := h.occurs b
  omega

/-! ## Changes of the part in view -/

theorem Focus.replace (h : Focus region cells root t ctx) {t' : BinTree β} {root' : Option Nat}
    (htree : Holds cells' (Context.up ctx) t')
    (hoccurs : ∀ b, t'.occurs b + Context.occurs ctx b ≤ region.footprint b)
    (hcontext : ∀ b, 0 < Context.occurs ctx b → Context.up ctx ≠ some b → cells' b = cells b)
    (hparent : ∀ frame ctx', ctx = frame :: ctx' → cells' frame.address
      = some (.make frame.side frame.value (Context.up ctx') t'.root frame.other.root))
    (hroot : root' = if ctx = [] then t'.root else root)
    (hunchanged : ∀ b, region.footprint b = 0 → cells' b = cells b) :
    Focus region cells' root' t' ctx := by
  refine ⟨htree, ?_, ?_, hoccurs, fun b hb => (hunchanged b hb).trans (h.unchanged b hb)⟩
  · cases ctx with
    | nil => trivial
    | cons frame ctx =>
        obtain ⟨-, hother, hctx⟩ := h.context
        -- the parent has no other place in the context
        have honce := h.occurs_le frame.address
        simp only [Context.occurs, if_true] at honce
        have hne : ∀ b, 0 < frame.other.occurs b ∨ 0 < Context.occurs ctx b →
            cells' b = cells b := by
          intro b hb
          refine hcontext b ?_ fun hup => ?_
          · simp only [Context.occurs]
            omega
          · cases hup
            omega
        exact ⟨hparent frame ctx rfl, hother.congr fun b hb => hne b (.inl hb),
          hctx.congr fun b hb => hne b (.inr hb)⟩
  · rw [hroot, h.root]
    cases ctx with
    | nil => rfl
    | cons frame ctx => rfl

theorem Focus.setValue (h : Focus region cells root (join d a v near far) ctx)
    (heq : ∀ b, b ≠ a → cells' b = cells b)
    (ha : cells' a = some (.make d v' (Context.up ctx) near.root far.root)) :
    Focus region cells' root (join d a v' near far) ctx := by
  have hself := h.occurs_le a
  obtain ⟨-, hnear, hfar⟩ := holds_join.mp h.tree
  simp only [occurs_join, if_true] at hself
  have hne : ∀ b, 0 < near.occurs b ∨ 0 < far.occurs b ∨ 0 < Context.occurs ctx b →
      cells' b = cells b := by
    intro b hb
    refine heq b fun hba => ?_
    subst hba
    omega
  refine h.replace (holds_join.mpr ⟨ha, hnear.congr fun b hb => hne b (.inl hb),
    hfar.congr fun b hb => hne b (.inr (.inl hb))⟩) (fun b => ?_)
    (fun b hb _ => hne b (.inr (.inr hb))) (fun frame ctx' hctx => ?_) ?_ fun b hb => ?_
  · have := h.occurs b
    rw [occurs_join] at this ⊢
    exact this
  · subst hctx
    have hparent := h.parent
    rw [root_join] at hparent ⊢
    rw [hne frame.address (.inr (.inr (by simp only [Context.occurs, if_true]; omega))), hparent]
  · have hroot := h.root
    cases ctx with
    | nil =>
        rw [root_join] at hroot ⊢
        exact hroot
    | cons frame ctx => rfl
  · refine heq b fun hba => ?_
    subst hba
    have := (h.footprint hb).1
    simp only [occurs_join, if_true] at this
    omega

theorem Focus.rotate {x y : Nat} {vx vy : β} {A B C : BinTree β} {root' : Option Nat}
    (h : Focus region cells root (join d x vx A (join d y vy B C)) ctx)
    (hx : cells' x = some (.make d vx (some y) A.root B.root))
    (hy : cells' y = some (.make d vy (Context.up ctx) (some x) C.root))
    (hB : ∀ b cell, B.root = some b → cells b = some cell →
      cells' b = some { cell with up := some x })
    (hother : ∀ b, b ≠ x → b ≠ y → B.root ≠ some b → Context.up ctx ≠ some b →
      cells' b = cells b)
    (hparent : ∀ frame ctx', ctx = frame :: ctx' → cells' frame.address
      = some (.make frame.side frame.value (Context.up ctx') (some y) frame.other.root))
    (hroot : root' = if ctx = [] then some y else root) :
    Focus region cells' root' (join d y vy (join d x vx A B) C) ctx := by
  have honce : ∀ b, (if x = b then 1 else 0) + A.occurs b
      + ((if y = b then 1 else 0) + B.occurs b + C.occurs b) + Context.occurs ctx b ≤ 1 := by
    intro b
    have := h.occurs_le b
    rwa [occurs_join, occurs_join] at this
  obtain ⟨-, hA, hyBC⟩ := holds_join.mp h.tree
  obtain ⟨-, hB', hC⟩ := holds_join.mp hyBC
  -- an address of a part that is not linked anew has no other place
  have hne : ∀ b, (0 < A.occurs b ∨ 0 < C.occurs b) ∨ (0 < B.occurs b ∧ B.root ≠ some b)
      ∨ (0 < Context.occurs ctx b ∧ Context.up ctx ≠ some b) → cells' b = cells b := by
    intro b hb
    have hb' := honce b
    refine hother b (fun hbx => ?_) (fun hby => ?_) (fun hbB => ?_) fun hbup => ?_
    · subst hbx
      simp only [if_true] at hb'
      omega
    · subst hby
      simp only [if_true] at hb'
      omega
    · have := occurs_of_root hbB
      rcases hb with hb | hb | hb
      · omega
      · exact hb.2 hbB
      · omega
    · have := Context.occurs_of_up hbup
      rcases hb with hb | hb | hb
      · omega
      · omega
      · exact hb.2 hbup
  have hBx : Holds cells' (some x) B :=
    hB'.setUp (fun b => by have := honce b; omega) (fun b hb hb' => hne b (.inr (.inl ⟨hb, hb'⟩))) hB
  refine h.replace ?_ (fun b => ?_) (fun b hb hb' => hne b (.inr (.inr ⟨hb, hb'⟩))) ?_ ?_
    fun b hb => ?_
  · rw [holds_join, holds_join, root_join]
    exact ⟨hy, ⟨hx, hA.congr fun b hb => hne b (.inl (.inl hb)), hBx⟩,
      hC.congr fun b hb => hne b (.inl (.inr hb))⟩
  · have := h.occurs b
    rw [occurs_join, occurs_join] at this ⊢
    omega
  · intro frame ctx' hctx
    rw [root_join]
    exact hparent frame ctx' hctx
  · rw [root_join]
    exact hroot
  · obtain ⟨hT, hctx⟩ := h.footprint hb
    rw [occurs_join, occurs_join] at hT
    refine hother b (fun hbx => ?_) (fun hby => ?_) (fun hbB => ?_) fun hbup => ?_
    · subst hbx
      simp only [if_true] at hT
      omega
    · subst hby
      simp only [if_true] at hT
      omega
    · have := occurs_of_root hbB
      omega
    · have := Context.occurs_of_up hbup
      omega

end MitScheme.LinkedTrees
