import MitScheme.Runtime.RbtreeProof
import MitScheme.Lib.Associations

/-!
# What the procedures do to the map of a tree

The search for a key goes to the node that has it, or to the place where it would be. There an
association is put in, changed or taken out, and the other trees in the heap stay as they are.
-/

namespace MitScheme.Rbtree

open LinkedTrees LinkedTrees.BinTree Associations

variable {κ α β : Type}

/-! ## A tree in the heap -/

/-- The cells hold a whole tree, at addresses that have been given out. -/
structure Held (cells : Cells (Item κ α)) (next : Nat) (t : BinTree (Item κ α)) : Prop where
  tree : Holds cells none t
  once : ∀ b, t.occurs b ≤ 1
  bounded : ∀ b, next ≤ b → t.occurs b = 0
  balanced : ∃ n, Balanced t .black n

/-- A procedure makes another tree of a tree, and only touches its nodes and new ones. -/
structure Changes (s : State κ α) (t : BinTree (Item κ α)) (s' : State κ α)
    (t' : BinTree (Item κ α)) : Prop where
  root : s'.root = t'.root
  next : s.next ≤ s'.next
  held : Held s'.cells s'.next t'
  occurs : ∀ b, b < s.next → t'.occurs b ≤ t.occurs b
  unchanged : ∀ b, b < s.next → t.occurs b = 0 → s'.cells b = s.cells b

variable {region : Region (Item κ α)} {next n : Nat} {s s' : State κ α}
  {t t' : BinTree (Item κ α)} {ctx : Context (Item κ α)} {d : Side} {a x : Nat} {v : Item κ α}
  {l r : BinTree (Item κ α)}

theorem Changes.refl (hroot : s.root = t.root) (h : Held s.cells s.next t) : Changes s t s t :=
  ⟨hroot, Nat.le_refl _, h, fun _ _ => Nat.le_refl _, fun _ _ _ => rfl⟩

/-- The nodes of the tree. -/
def Held.nodes {cells : Cells (Item κ α)} (h : Held cells next t) : Region (Item κ α) :=
  ⟨t.occurs, h.once, cells⟩

/-- The nodes of the tree and the next one that is made. -/
def Held.nodesNext {cells : Cells (Item κ α)} (h : Held cells next t) : Region (Item κ α) where
  footprint b := t.occurs b + if b = next then 1 else 0
  once b := by
    have := h.once b
    have := h.bounded b
    by_cases hb : b = next
    · rw [if_pos hb]
      omega
    · rw [if_neg hb]
      omega
  before := cells

theorem Held.view (h : Held s.cells s.next t) (hroot : s.root = t.root) :
    View h.nodes s.next s t [] :=
  ⟨⟨h.tree, trivial, hroot, fun _ => Nat.le_refl _, fun _ _ => rfl⟩, rfl⟩

theorem Held.viewNext (h : Held s.cells s.next t) (hroot : s.root = t.root) :
    View h.nodesNext s.next s t [] :=
  ⟨⟨h.tree, trivial, hroot, fun _ => Nat.le_add_right _ _, fun _ _ => rfl⟩, rfl⟩

theorem Held.changes (h : Held s.cells s.next t) (hview : View h.nodes s.next s' t' [])
    (hbal : ∃ n, Balanced t' .black n) : Changes s t s' t' := by
  have hoccurs : ∀ b, t'.occurs b ≤ t.occurs b := hview.focus.occurs
  refine ⟨hview.focus.root, hview.next.ge, ⟨hview.focus.tree, fun b => ?_, fun b hb => ?_, hbal⟩,
    fun b _ => hoccurs b, fun b _ hb => hview.focus.unchanged b hb⟩
  · exact (hoccurs b).trans (h.once b)
  · rw [hview.next] at hb
    exact Nat.le_zero.mp ((hoccurs b).trans (h.bounded b hb).le)

theorem Held.changesNext (h : Held s.cells s.next t)
    (hview : View h.nodesNext (s.next + 1) s' t' []) (hbal : ∃ n, Balanced t' .black n) :
    Changes s t s' t' := by
  have hoccurs : ∀ b, t'.occurs b ≤ t.occurs b + if b = s.next then 1 else 0 := hview.focus.occurs
  have hnext := hview.next
  refine ⟨hview.focus.root, by omega, ⟨hview.focus.tree, fun b => ?_, fun b hb => ?_, hbal⟩,
    fun b hb => ?_, fun b hb hfree => hview.focus.unchanged b ?_⟩
  · exact (hoccurs b).trans (h.nodesNext.once b)
  · have := hoccurs b
    have := h.bounded b (by omega)
    rw [if_neg (by omega)] at *
    omega
  · have := hoccurs b
    rwa [if_neg (by omega)] at this
  · change t.occurs b + _ = 0
    rw [hfree, if_neg (by omega)]

theorem Held.deleteNode {k : Context (Item κ α)} (h : Held s.cells s.next (plug (.node a v l r) k))
    (hroot : s.root = (plug (.node a v l r) k).root) :
    ∃ s' t', s.deleteNode (some a) = some s' ∧ Changes s (plug (.node a v l r) k) s' t'
      ∧ pairs t' = (pairsBefore k ++ pairs l) ++ (pairs r ++ pairsAfter k) := by
  have hview := view_plug.mp (h.view hroot)
  rw [List.append_nil] at hview
  obtain ⟨n, hbal⟩ := h.balanced
  obtain ⟨s', t', hs', h', hpairs, hbal'⟩ := hview.deleteNode h.bounded hbal
  exact ⟨s', t', hs', h.changes h' hbal', hpairs⟩

/-- The pairs as they are met from a side. -/
def fromSide (d : Side) (l : List (κ × α)) : List (κ × α) :=
  match d with
  | .left => l
  | .right => l.reverse

theorem deleteExtreme_spec (h : Held s.cells s.next t) (hroot : s.root = t.root) (d : Side)
    (report : Node κ α → β) (default : β) :
    ∃ b s' t', s.deleteExtreme (fun s => if s.root.isSome then s.extremeLoop d s.next s.root else some none)
        report default = some (b, s') ∧ Changes s t s' t'
      ∧ (pairs t = [] ∧ pairs t' = [] ∧ b = default ∨ ∃ n : Node κ α, b = report n
        ∧ fromSide d (pairs t) = (n.value.key, n.value.datum) :: fromSide d (pairs t')) := by
  cases hx : t.root with
  | none =>
      obtain rfl := eq_leaf hx
      refine ⟨default, s, leaf, ?_, .refl hroot h, .inl ⟨rfl, rfl, rfl⟩⟩
      rw [State.deleteExtreme, hroot]
      rfl
  | some x =>
      have hview := h.view hroot
      have hsize := hview.length_le h.bounded
      obtain ⟨k, a, v, far, hloop, rfl, hsides⟩ :=
        @View.extremeLoop κ α h.nodes s.next s t [] d x s.next hview hx (by omega)
      have hnode := (view_plug.mp hview).node
      obtain ⟨s', t', hs', hchanges, hpairs⟩ : ∃ s' t', s.deleteNode (some a) = some s'
          ∧ Changes s (plug (join d a v leaf far) k) s' t'
          ∧ fromSide d (pairs (plug (join d a v leaf far) k)) = (v.key, v.datum) :: fromSide d (pairs t') := by
        cases d with
        | left =>
            obtain ⟨s', t', hs', hchanges, hpairs⟩ := Held.deleteNode h hroot
            exact ⟨s', t', hs', hchanges, by rw [hpairs, join, pairs_plug_node, pairsBefore_left hsides]; rfl⟩
        | right =>
            obtain ⟨s', t', hs', hchanges, hpairs⟩ := Held.deleteNode h hroot
            exact ⟨s', t', hs', hchanges, by
              simp [hpairs, join, pairs_plug_node, pairsAfter_right hsides, fromSide, pairs]⟩
      have hdelete : s.deleteExtreme (fun s => if s.root.isSome then s.extremeLoop d s.next s.root else some none)
          report default = some (report (.make d v (Context.up (k ++ [])) (@leaf (Item κ α)).root far.root), s') := by
        simp only [State.deleteExtreme, hroot, hx, Option.isSome_some, if_true, hloop,
          Option.bind_eq_bind, Option.bind_some, hnode, hs']
      exact ⟨_, s', t', hdelete, hchanges, .inr ⟨_, rfl, by rwa [Cell.value_make]⟩⟩

/-! ## Search -/

section Search

variable [LinearOrder κ]

/-- The comparisons of the keys. -/
def keyEq (a b : κ) : Bool := decide (a = b)

def keyLess (a b : κ) : Bool := decide (a < b)

/-- What the loops for a key have in common: what they do with a node that has the key, and what they
do where there is none. -/
def State.seekLoop (s : State κ α) (key : κ) (found : Link → Node κ α → Option β)
    (absent : Link → Option Side → Option β) : Nat → Link → Link → Option Side → Option β
  | 0, _, _, _ => none
  | fuel + 1, x, y, d =>
      match x with
      | none => absent y d
      | some _ => do
          let nx ← s.node x
          if key = nx.value.key then found x nx
          else if key < nx.value.key then seekLoop s key found absent fuel nx.left x (some .left)
          else seekLoop s key found absent fuel nx.right x (some .right)

variable {key : κ} {datum default : α} {found : Link → Node κ α → Option β}
  {absent : Link → Option Side → Option β}

theorem State.insertLoop_eq (fuel : Nat) (x y : Link) (d : Option Side) :
    s.insertLoop keyEq keyLess key datum fuel x y d
      = s.seekLoop key (fun x _ => s.setNodeDatum x datum) (s.insertNew key datum) fuel x y d := by
  induction fuel generalizing x y d with
  | zero => rfl
  | succ fuel ih =>
      cases x with
      | none => rfl
      | some x => simp only [State.insertLoop, State.seekLoop, keyEq, keyLess, decide_eq_true_eq, ih]

theorem State.deleteLoop_eq (fuel : Nat) (x y : Link) (d : Option Side) :
    s.deleteLoop keyEq keyLess key fuel x
      = s.seekLoop key (fun x _ => s.deleteNode x) (fun _ _ => some s) fuel x y d := by
  induction fuel generalizing x y d with
  | zero => rfl
  | succ fuel ih =>
      cases x with
      | none => rfl
      | some x =>
          simp only [State.deleteLoop, State.seekLoop, keyEq, keyLess, decide_eq_true_eq,
            ← ih _ (some x)]

theorem State.lookupLoop_eq (fuel : Nat) (x y : Link) (d : Option Side) :
    s.lookupLoop keyEq keyLess key default fuel x
      = s.seekLoop key (fun _ nx => some nx.value.datum) (fun _ _ => some default) fuel x y d := by
  induction fuel generalizing x y d with
  | zero => rfl
  | succ fuel ih =>
      cases x with
      | none => rfl
      | some x =>
          simp only [State.lookupLoop, State.seekLoop, keyEq, keyLess, decide_eq_true_eq,
            ← ih _ (some x)]

/-- The place of a key: a node that has it, or a leaf between the smaller and the greater keys. -/
inductive Place (key : κ) : BinTree (Item κ α) → Context (Item κ α) → Prop
  | node {a : Nat} {v : Item κ α} {l r : BinTree (Item κ α)} {ctx : Context (Item κ α)} :
      v.key = key → Place key (.node a v l r) ctx
  | leaf {ctx : Context (Item κ α)} : (∀ p ∈ pairsBefore ctx, p.1 < key) →
      (∀ p ∈ pairsAfter ctx, key < p.1) → Place key leaf ctx

/-- What the loops do at a place. -/
def atPlace (found : Link → Node κ α → Option β) (absent : Link → Option Side → Option β) :
    BinTree (Item κ α) → Context (Item κ α) → Option β
  | leaf, ctx => absent (Context.up ctx) (ctx.head?.map Frame.side)
  | .node a v l r, ctx => found (some a) ⟨v, Context.up ctx, l.root, r.root⟩

theorem View.seekLoop (fuel : Nat) (h : View region next s t ctx)
    (hsorted : (pairs (plug t ctx)).Pairwise fun p q => p.1 < q.1)
    (hbefore : ∀ p ∈ pairsBefore ctx, p.1 < key) (hafter : ∀ p ∈ pairsAfter ctx, key < p.1)
    (hfuel : t.size < fuel) :
    ∃ t' ctx', View region next s t' ctx' ∧ plug t' ctx' = plug t ctx ∧ Place key t' ctx'
      ∧ s.seekLoop key found absent fuel t.root (Context.up ctx) (ctx.head?.map Frame.side)
        = atPlace found absent t' ctx' := by
  induction fuel generalizing t ctx with
  | zero => omega
  | succ fuel ih =>
      cases t with
      | leaf => exact ⟨leaf, ctx, h, rfl, .leaf hbefore hafter, rfl⟩
      | node x v l r =>
          have hx : s.node (some x) = some ⟨v, Context.up ctx, l.root, r.root⟩ :=
            (show View region next s (join .left x v l r) ctx from h).node
          rw [pairs_plug_eq, pairs] at hsorted
          have hinner := (List.pairwise_append.mp (List.pairwise_append.mp hsorted).1).2.1
          obtain ⟨hl, hvr, hlv⟩ := List.pairwise_append.mp hinner
          have hvr := (List.pairwise_cons.mp hvr).1
          simp only [BinTree.size] at hfuel
          by_cases hkey : key = v.key
          · refine ⟨_, ctx, h, rfl, .node hkey.symm, ?_⟩
            rw [BinTree.root, State.seekLoop, hx, Option.bind_eq_bind, Option.bind_some, if_pos hkey]
            rfl
          · by_cases hless : key < v.key
            · obtain ⟨t', ctx', h', hplug, hplace, heq⟩ :=
                @ih l (⟨.left, x, v, r⟩ :: ctx) (view_join.mp h)
                  (by
                    rw [← pairs, ← pairs_plug_eq] at hsorted
                    exact hsorted)
                  (fun p hp => hbefore p (by simpa [pairsBefore] using hp))
                  (fun p hp => by
                    rcases List.mem_append.mp hp with hp | hp
                    · rcases List.mem_cons.mp hp with rfl | hp
                      · exact hless
                      · exact hless.trans (hvr p hp)
                    · exact hafter p hp)
                  (by omega)
              refine ⟨t', ctx', h', hplug, hplace, ?_⟩
              rw [BinTree.root, State.seekLoop, hx, Option.bind_eq_bind, Option.bind_some,
                if_neg hkey, if_pos hless]
              exact heq
            · have hgreater : v.key < key := lt_of_le_of_ne (not_lt.mp hless) (Ne.symm hkey)
              obtain ⟨t', ctx', h', hplug, hplace, heq⟩ :=
                @ih r (⟨.right, x, v, l⟩ :: ctx)
                  (view_join_far.mp (show View region next s (join .left x v l r) ctx from h))
                  (by
                    rw [← pairs, ← pairs_plug_eq] at hsorted
                    exact hsorted)
                  (fun p hp => by
                    rcases List.mem_append.mp hp with hp | hp
                    · exact hbefore p hp
                    · rcases List.mem_append.mp hp with hp | hp
                      · exact (hlv p hp _ List.mem_cons_self).trans hgreater
                      · rw [List.mem_singleton.mp hp]
                        exact hgreater)
                  (fun p hp => hafter p (by simpa [pairsAfter] using hp))
                  (by omega)
              refine ⟨t', ctx', h', hplug, hplace, ?_⟩
              rw [BinTree.root, State.seekLoop, hx, Option.bind_eq_bind, Option.bind_some,
                if_neg hkey, if_neg hless]
              exact heq

/-! ## The procedures -/

variable {map : κ → Option α}

theorem Held.seek (h : Held s.cells s.next t) (hroot : s.root = t.root)
    (hmap : Lists (pairs t) map) (key : κ) (found : Link → Node κ α → Option β)
    (absent : Link → Option Side → Option β) :
    ∃ t' ctx, t = plug t' ctx ∧ Place key t' ctx
      ∧ s.seekLoop key found absent (s.next + 1) s.root none none = atPlace found absent t' ctx := by
  have hview := h.view hroot
  have hsize := hview.length_le h.bounded
  obtain ⟨t', ctx, -, hplug, hplace, heq⟩ := @View.seekLoop κ α β h.nodes s.next s t [] _ key found
    absent (s.next + 1) hview hmap.sorted nofun nofun (by omega)
  rw [hroot]
  exact ⟨t', ctx, hplug.symm, hplace, heq⟩

theorem rbTreeLookup_spec (h : Held s.cells s.next t) (hroot : s.root = t.root)
    (hmap : Lists (pairs t) map) (key : κ) (default : α) :
    s.rbTreeLookup keyEq keyLess key default = some ((map key).getD default) := by
  obtain ⟨t', ctx, rfl, hplace, hloop⟩ := h.seek hroot hmap key
    (fun _ nx => some nx.value.datum) fun _ _ => some default
  rw [State.rbTreeLookup, State.lookupLoop_eq _ _ none none, hloop]
  cases hplace with
  | leaf hbefore hafter =>
      rw [pairs_plug_leaf] at hmap
      rw [hmap.between hbefore hafter]
      rfl
  | @node a v l r ctx hkey =>
      rw [pairs_plug_node, hkey] at hmap
      rw [hmap.here]
      rfl

theorem rbTreeInsert_spec (h : Held s.cells s.next t) (hroot : s.root = t.root)
    (hmap : Lists (pairs t) map) (key : κ) (datum : α) :
    ∃ s' t', s.rbTreeInsert keyEq keyLess key datum = some s' ∧ Changes s t s' t'
      ∧ Lists (pairs t') (Function.update map key (some datum)) := by
  obtain ⟨t', ctx, rfl, hplace, hloop⟩ := h.seek hroot hmap key
    (fun x _ => s.setNodeDatum x datum) (s.insertNew key datum)
  rw [State.rbTreeInsert, State.insertLoop_eq, hloop]
  obtain ⟨n, hbal⟩ := h.balanced
  cases hplace with
  | leaf hbefore hafter =>
      have hview := h.viewNext hroot
      have hfresh := h.bounded s.next (Nat.le_refl _)
      rw [occurs_plug, occurs_leaf, Nat.zero_add] at hfresh
      obtain ⟨s', t', hs', h', hpairs, hbal'⟩ := View.insertNew
        (view_plug.mp hview) (fun b hb => by
          change _ + _ = 0
          rw [h.bounded b (by omega), if_neg (by omega)])
        (by rw [List.append_nil]; exact hfresh)
        (by
          change _ + _ = 1
          rw [h.bounded _ (Nat.le_refl _), if_pos rfl])
        (by rw [List.append_nil]; exact hbal) key datum
      rw [List.append_nil] at hs' hpairs
      refine ⟨s', t', hs', h.changesNext h' hbal', ?_⟩
      rw [pairs_plug_leaf] at hmap
      rw [hpairs]
      exact hmap.insert hbefore hafter datum
  | @node a v l r ctx hkey =>
      have hview := view_plug.mp (h.view hroot)
      rw [List.append_nil] at hview
      obtain ⟨s', hs', h'⟩ :=
        (show View _ _ s (join .left a v l r) ctx from hview).setNodeDatum datum
      obtain ⟨c, m, hpart, hctx⟩ := Balanced.focus hbal
      refine ⟨s', _, hs', h.changes h'.top (hctx.plug (@Balanced.setItem κ α m .left a v c l r
        { v with datum := datum } rfl hpart)), ?_⟩
      rw [pairs_plug_node, hkey] at hmap
      rw [join, pairs_plug_node, hkey]
      exact hmap.set datum

theorem rbTreeDelete_spec (h : Held s.cells s.next t) (hroot : s.root = t.root)
    (hmap : Lists (pairs t) map) (key : κ) :
    ∃ s' t', s.rbTreeDelete keyEq keyLess key = some s' ∧ Changes s t s' t'
      ∧ Lists (pairs t') (Function.update map key none) := by
  obtain ⟨t', ctx, rfl, hplace, hloop⟩ := h.seek hroot hmap key
    (fun x _ => s.deleteNode x) fun _ _ => some s
  rw [State.rbTreeDelete, State.deleteLoop_eq _ _ none none, hloop]
  cases hplace with
  | leaf hbefore hafter =>
      refine ⟨s, _, rfl, .refl hroot h, ?_⟩
      have hlist := hmap
      rw [pairs_plug_leaf] at hlist
      rw [Function.update_eq_self_iff.mpr (hlist.between hbefore hafter).symm]
      exact hmap
  | @node a v l r ctx hkey =>
      obtain ⟨s', t', hs', hchanges, hpairs⟩ := h.deleteNode hroot
      refine ⟨s', t', hs', hchanges, ?_⟩
      rw [pairs_plug_node, hkey] at hmap
      rw [hpairs]
      exact hmap.erase

end Search

end MitScheme.Rbtree
