import Mathlib.Data.Nat.Size
import Mathlib.Data.List.Basic

/-!
# Weight-balanced trees

`wttree.scm`. A tree is built of nodes that hold a key, a datum and the number of nodes
below them. Whether two subtrees are balanced is judged by the lengths of their sizes in
binary, which `log2<` compares without computing a logarithm. All rebalancing is done by
`t-join`, with at most one single or double rotation.

A procedure that takes a node apart signals an error when it is given the empty tree:
here it returns `none`. Sizes are numbers of objects in memory, so they are fixnums; what
`log2<` shifts left is at most half the size of a tree, so it is one, too.
-/

namespace MitScheme.WtTree

/-- `tree-type`: the procedures of a type of trees all come from `key<?`, which is a strict total
order. -/
structure TreeType (K : Type) where
  keyLess : K → K → Bool
  irreflexive : ∀ k, keyLess k k = false
  transitive : ∀ {k k' k''}, keyLess k k' = true → keyLess k' k'' = true → keyLess k k'' = true
  trichotomous : ∀ k k', keyLess k k' = true ∨ k = k' ∨ keyLess k' k = true

/-- The vector of `make-node`, or the empty tree. -/
inductive Node (K V : Type) where
  | empty
  | node (w : Nat) (l : Node K V) (k : K) (r : Node K V) (v : V)
deriving DecidableEq

variable {K V : Type}

namespace Node

/-- `node/size`, `node/weight` -/
def size : Node K V → Nat
  | .empty => 0
  | .node w _ _ _ _ => w

/-- `empty?` -/
def isEmpty : Node K V → Bool
  | .empty => true
  | .node _ _ _ _ _ => false

end Node

/-- `log2<` -/
def log2Less (a b : Nat) : Bool :=
  decide (a < b) && decide ((a &&& b) <<< 1 < b)

def overweight (a b : Nat) : Bool :=
  log2Less a (b >>> 1)

def single (a b : Nat) : Bool :=
  !log2Less b a

def nodeSingleton (k : K) (v : V) : Node K V :=
  .node 1 .empty k .empty v

def nJoin (k : K) (v : V) (l r : Node K V) : Node K V :=
  .node (1 + l.size + r.size) l k r v

def singleL (ak : K) (av : V) (x : Node K V) : Node K V → Option (Node K V)
  | .node _ y bk z bv => some (nJoin bk bv (nJoin ak av x y) z)
  | .empty => none

def doubleL (ak : K) (av : V) (x : Node K V) : Node K V → Option (Node K V)
  | .node _ (.node _ y1 bk y2 bv) ck z cv =>
      some (nJoin bk bv (nJoin ak av x y1) (nJoin ck cv y2 z))
  | _ => none

def singleR (bk : K) (bv : V) (l z : Node K V) : Option (Node K V) :=
  match l with
  | .node _ x ak y av => some (nJoin ak av x (nJoin bk bv y z))
  | .empty => none

def doubleR (ck : K) (cv : V) (l z : Node K V) : Option (Node K V) :=
  match l with
  | .node _ x ak (.node _ y1 bk y2 bv) av =>
      some (nJoin bk bv (nJoin ak av x y1) (nJoin ck cv y2 z))
  | _ => none

def tJoin (k : K) (v : V) (l r : Node K V) : Option (Node K V) :=
  if overweight l.size r.size then
    match r with
    | .node _ rl _ rr _ =>
        if single rl.size rr.size then singleL k v l r else doubleL k v l r
    | .empty => none
  else if overweight r.size l.size then
    match l with
    | .node _ ll _ lr _ =>
        if single lr.size ll.size then singleR k v l r else doubleR k v l r
    | .empty => none
  else some (nJoin k v l r)

/-- `node/min`: the key and the datum of the node. -/
def nodeMin : Node K V → Option (K × V)
  | .empty => none
  | .node _ .empty k _ v => some (k, v)
  | .node _ (.node w l k r v) _ _ _ => nodeMin (.node w l k r v)

def nodeDelmin : Node K V → Option (Node K V)
  | .empty => none
  | .node _ .empty _ r _ => some r
  | .node _ (.node w l' k' r' v') k r v => do
      tJoin k v (← nodeDelmin (.node w l' k' r' v')) r

def nodeConcat2 : Node K V → Node K V → Option (Node K V)
  | .empty, node2 => some node2
  | node1, .empty => some node1
  | node1, node2 => do
      let (k, v) ← nodeMin node2
      tJoin k v node1 (← nodeDelmin node2)

/-! ## Procedures that depend on the order -/

section

variable (type : TreeType K)

/-- The loop of `node/find`. -/
def nodeFindLoop (k : K) : Node K V → Option (K × V) → Option (K × V)
  | .empty, best => best
  | .node _ l k' r v, best =>
      if type.keyLess k k' then nodeFindLoop k l best else nodeFindLoop k r (some (k', v))

/-- `node/find`: the key and the datum of the node. -/
def nodeFind (k : K) (node : Node K V) : Option (K × V) :=
  match nodeFindLoop type k node none with
  | none => none
  | some best => if type.keyLess best.1 k then none else some best

def nodeAdd : Node K V → K → V → Option (Node K V)
  | .empty, k, v => some (nodeSingleton k v)
  | .node _ l key r val, k, v =>
      if type.keyLess k key then do tJoin key val (← nodeAdd l k v) r
      else if type.keyLess key k then do tJoin key val l (← nodeAdd r k v)
      else some (nJoin key v l r)

def nodeDelete (x : K) : Node K V → Option (Node K V)
  | .empty => some .empty
  | .node _ l key r val =>
      if type.keyLess x key then do tJoin key val (← nodeDelete x l) r
      else if type.keyLess key x then do tJoin key val l (← nodeDelete x r)
      else nodeConcat2 l r

def nodeConcat3 (k : K) (v : V) (l r : Node K V) : Option (Node K V) :=
  match l, r with
  | .empty, r => nodeAdd type r k v
  | l, .empty => nodeAdd type l k v
  | .node w1 l1 k1 r1 v1, .node w2 l2 k2 r2 v2 =>
      if overweight w1 w2 then do
        tJoin k2 v2 (← nodeConcat3 k v (.node w1 l1 k1 r1 v1) l2) r2
      else if overweight w2 w1 then do
        tJoin k1 v1 l1 (← nodeConcat3 k v r1 (.node w2 l2 k2 r2 v2))
      else some (nJoin k v (.node w1 l1 k1 r1 v1) (.node w2 l2 k2 r2 v2))
termination_by sizeOf l + sizeOf r

def nodeConcat : Node K V → Node K V → Option (Node K V)
  | .empty, tree2 => some tree2
  | tree1, .empty => some tree1
  | tree1, tree2 => do
      let (k, v) ← nodeMin tree2
      nodeConcat3 type k v tree1 (← nodeDelmin tree2)

def nodeSplitLt (x : K) : Node K V → Option (Node K V)
  | .empty => some .empty
  | .node _ l k r v =>
      if type.keyLess x k then nodeSplitLt x l
      else if type.keyLess k x then do nodeConcat3 type k v l (← nodeSplitLt x r)
      else some l

def nodeSplitGt (x : K) : Node K V → Option (Node K V)
  | .empty => some .empty
  | .node _ l k r v =>
      if type.keyLess k x then nodeSplitGt x r
      else if type.keyLess x k then do nodeConcat3 type k v (← nodeSplitGt x l) r
      else some r

def nodeUnion (tree1 tree2 : Node K V) : Option (Node K V) :=
  match tree2 with
  | .empty => some tree1
  | .node w l ak r av =>
      if tree1.isEmpty then some (.node w l ak r av)
      else do
        let l1 ← nodeSplitLt type ak tree1
        let r1 ← nodeSplitGt type ak tree1
        nodeConcat3 type ak av (← nodeUnion l1 l) (← nodeUnion r1 r)

def nodeUnionMerge (merge : K → V → V → V) (tree1 tree2 : Node K V) : Option (Node K V) :=
  match tree2 with
  | .empty => some tree1
  | .node w l ak r av =>
      if tree1.isEmpty then some (.node w l ak r av)
      else do
        let l1 ← nodeSplitLt type ak tree1
        let r1 ← nodeSplitGt type ak tree1
        let value :=
          match nodeFind type ak tree1 with
          | some node1 => merge ak av node1.2
          | none => av
        nodeConcat3 type ak value (← nodeUnionMerge merge l1 l) (← nodeUnionMerge merge r1 r)

def nodeDifference (tree1 tree2 : Node K V) : Option (Node K V) :=
  match tree2 with
  | .empty => some tree1
  | .node _ l ak r _ =>
      if tree1.isEmpty then some .empty
      else do
        let l1 ← nodeSplitLt type ak tree1
        let r1 ← nodeSplitGt type ak tree1
        nodeConcat type (← nodeDifference l1 l) (← nodeDifference r1 r)

def nodeIntersection (tree1 tree2 : Node K V) : Option (Node K V) :=
  match tree2 with
  | .empty => some .empty
  | .node _ l ak r av =>
      if tree1.isEmpty then some .empty
      else do
        let l1 ← nodeSplitLt type ak tree1
        let r1 ← nodeSplitGt type ak tree1
        if (nodeFind type ak tree1).isSome then
          nodeConcat3 type ak av (← nodeIntersection l1 l) (← nodeIntersection r1 r)
        else nodeConcat type (← nodeIntersection l1 l) (← nodeIntersection r1 r)

/-- `and`, of tests that may signal an error. -/
def andThen (a b : Option Bool) : Option Bool :=
  match a with
  | some true => b
  | a => a

def nodeSubset (tree1 tree2 : Node K V) : Option Bool :=
  match tree1 with
  | .empty => some true
  | .node w l k r _ =>
      if w ≤ tree2.size then
        match tree2 with
        | .empty => none
        | .node w2 l2 k2 r2 v2 =>
            if type.keyLess k k2 then
              andThen (nodeSubset l l2)
                (andThen (some (nodeFind type k (.node w2 l2 k2 r2 v2)).isSome)
                  (nodeSubset r (.node w2 l2 k2 r2 v2)))
            else if type.keyLess k2 k then
              andThen (nodeSubset r r2)
                (andThen (some (nodeFind type k (.node w2 l2 k2 r2 v2)).isSome)
                  (nodeSubset l (.node w2 l2 k2 r2 v2)))
            else andThen (nodeSubset l l2) (nodeSubset r r2)
      else some false

/-- The loop of `alist->tree`. -/
def nodeOfAlist : List (K × V) → Node K V → Option (Node K V)
  | [], node => some node
  | (k, v) :: alist, node => do nodeOfAlist alist (← nodeAdd type node k v)

def balanced : Node K V → Bool
  | .empty => true
  | .node _ l _ r _ =>
      !overweight l.size r.size && !overweight r.size l.size && balanced l && balanced r

def ordered : Node K V → (K → Bool) → (K → Bool) → Bool
  | .empty, _, _ => true
  | .node _ l k r _, notTooLow, notTooHigh =>
      notTooLow k && notTooHigh k && ordered l notTooLow (fun k' => type.keyLess k' k)
        && ordered r (fun k' => type.keyLess k k') notTooHigh

/-- The test of `wt-tree/valid?`, on the root. -/
def nodeValid (root : Node K V) : Bool :=
  balanced root && ordered type root (fun _ => true) (fun _ => true)

end

/-! ## Trees -/

/-- `wt-tree`. Two trees are compatible if their types are the same object. -/
structure Tree (K V : Type) where
  type : Nat
  root : Node K V

/-- `%make-wt-tree`, or `set-tree/root!`, with the type of a tree and a root that a procedure
returned. -/
def withRoot (tree : Tree K V) (root : Option (Node K V)) : Option (Tree K V) :=
  root.map fun root => { tree with root := root }

section

variable (types : Nat → TreeType K)

def makeWtTree (type : Nat) : Tree K V :=
  ⟨type, .empty⟩

def singletonWtTree (type : Nat) (key : K) (value : V) : Tree K V :=
  ⟨type, nodeSingleton key value⟩

/-- `alist->wt-tree` -/
def alistToWtTree (type : Nat) (alist : List (K × V)) : Option (Tree K V) :=
  withRoot (makeWtTree type) (nodeOfAlist (types type) alist .empty)

/-- `wt-tree/add`, and `wt-tree/add!` but for the assignment -/
def wtTreeAdd (tree : Tree K V) (key : K) (datum : V) : Option (Tree K V) :=
  withRoot tree (nodeAdd (types tree.type) tree.root key datum)

/-- `wt-tree/delete`, `wt-tree/delete!` -/
def wtTreeDelete (tree : Tree K V) (key : K) : Option (Tree K V) :=
  withRoot tree (nodeDelete (types tree.type) key tree.root)

/-- `wt-tree/delete-min`, `wt-tree/delete-min!` -/
def wtTreeDeleteMin (tree : Tree K V) : Option (Tree K V) :=
  withRoot tree (nodeDelmin tree.root)

/-- `wt-tree/split<` -/
def wtTreeSplitLess (tree : Tree K V) (key : K) : Option (Tree K V) :=
  withRoot tree (nodeSplitLt (types tree.type) key tree.root)

/-- `wt-tree/split>` -/
def wtTreeSplitGreater (tree : Tree K V) (key : K) : Option (Tree K V) :=
  withRoot tree (nodeSplitGt (types tree.type) key tree.root)

def guaranteeCompatibleTrees {α : Type} (tree1 tree2 : Tree K V) (result : Option α) : Option α :=
  if tree1.type = tree2.type then result else none

def wtTreeUnion (tree1 tree2 : Tree K V) : Option (Tree K V) :=
  guaranteeCompatibleTrees tree1 tree2
    (withRoot tree1 (nodeUnion (types tree1.type) tree1.root tree2.root))

def wtTreeUnionMerge (tree1 tree2 : Tree K V) (merge : K → V → V → V) : Option (Tree K V) :=
  guaranteeCompatibleTrees tree1 tree2
    (withRoot tree1 (nodeUnionMerge (types tree1.type) merge tree1.root tree2.root))

def wtTreeIntersection (tree1 tree2 : Tree K V) : Option (Tree K V) :=
  guaranteeCompatibleTrees tree1 tree2
    (withRoot tree1 (nodeIntersection (types tree1.type) tree1.root tree2.root))

def wtTreeDifference (tree1 tree2 : Tree K V) : Option (Tree K V) :=
  guaranteeCompatibleTrees tree1 tree2
    (withRoot tree1 (nodeDifference (types tree1.type) tree1.root tree2.root))

def wtTreeSubset (tree1 tree2 : Tree K V) : Option Bool :=
  guaranteeCompatibleTrees tree1 tree2
    (nodeSubset (types tree1.type) tree1.root tree2.root)

def wtTreeSetEqual (tree1 tree2 : Tree K V) : Option Bool :=
  andThen (wtTreeSubset types tree1 tree2) (wtTreeSubset types tree2 tree1)

def wtTreeLookup (tree : Tree K V) (key : K) (default : V) : V :=
  match nodeFind (types tree.type) key tree.root with
  | some node => node.2
  | none => default

def wtTreeMember (key : K) (tree : Tree K V) : Bool :=
  (nodeFind (types tree.type) key tree.root).isSome

def wtTreeValid (tree : Tree K V) : Bool :=
  nodeValid (types tree.type) tree.root

end

/-! ## Memory -/

/-- The operations on trees, which are named by their places in memory. -/
inductive Operation (K V : Type) where
  /-- `make-wt-tree` -/
  | make (type : Nat)
  /-- `singleton-wt-tree` -/
  | singleton (type : Nat) (k : K) (v : V)
  /-- `alist->wt-tree` -/
  | ofAlist (type : Nat) (alist : List (K × V))
  /-- `wt-tree/add` -/
  | add (tree : Nat) (k : K) (v : V)
  /-- `wt-tree/add!` -/
  | addBang (tree : Nat) (k : K) (v : V)
  /-- `wt-tree/delete` -/
  | delete (tree : Nat) (k : K)
  /-- `wt-tree/delete!` -/
  | deleteBang (tree : Nat) (k : K)
  /-- `wt-tree/delete-min` -/
  | deleteMin (tree : Nat)
  /-- `wt-tree/delete-min!` -/
  | deleteMinBang (tree : Nat)
  /-- `wt-tree/split<` -/
  | splitLess (tree : Nat) (k : K)
  /-- `wt-tree/split>` -/
  | splitGreater (tree : Nat) (k : K)
  /-- `wt-tree/union` -/
  | union (tree1 tree2 : Nat)
  /-- `wt-tree/union-merge` -/
  | unionMerge (tree1 tree2 : Nat) (merge : K → V → V → V)
  /-- `wt-tree/intersection` -/
  | intersection (tree1 tree2 : Nat)
  /-- `wt-tree/difference` -/
  | difference (tree1 tree2 : Nat)

section

variable (types : Nat → TreeType K)

/-- A tree is made from one in memory. -/
def makeFrom (trees : List (Tree K V)) (tree : Nat)
    (procedure : Tree K V → Option (Tree K V)) : Option (List (Tree K V)) := do
  return trees ++ [← procedure (← trees[tree]?)]

/-- The root of a tree in memory is assigned. -/
def setFrom (trees : List (Tree K V)) (tree : Nat)
    (procedure : Tree K V → Option (Tree K V)) : Option (List (Tree K V)) := do
  return trees.set tree (← procedure (← trees[tree]?))

/-- A tree is made from two in memory. -/
def makeFromBoth (trees : List (Tree K V)) (tree1 tree2 : Nat)
    (procedure : Tree K V → Tree K V → Option (Tree K V)) : Option (List (Tree K V)) := do
  return trees ++ [← procedure (← trees[tree1]?) (← trees[tree2]?)]

/-- The trees after an operation, unless it signals an error. -/
def perform (trees : List (Tree K V)) : Operation K V → Option (List (Tree K V))
  | .make type => some (trees ++ [makeWtTree type])
  | .singleton type k v => some (trees ++ [singletonWtTree type k v])
  | .ofAlist type alist => do return trees ++ [← alistToWtTree types type alist]
  | .add tree k v => makeFrom trees tree fun tree => wtTreeAdd types tree k v
  | .addBang tree k v => setFrom trees tree fun tree => wtTreeAdd types tree k v
  | .delete tree k => makeFrom trees tree fun tree => wtTreeDelete types tree k
  | .deleteBang tree k => setFrom trees tree fun tree => wtTreeDelete types tree k
  | .deleteMin tree => makeFrom trees tree wtTreeDeleteMin
  | .deleteMinBang tree => setFrom trees tree wtTreeDeleteMin
  | .splitLess tree k => makeFrom trees tree fun tree => wtTreeSplitLess types tree k
  | .splitGreater tree k => makeFrom trees tree fun tree => wtTreeSplitGreater types tree k
  | .union tree1 tree2 => makeFromBoth trees tree1 tree2 (wtTreeUnion types)
  | .unionMerge tree1 tree2 merge =>
      makeFromBoth trees tree1 tree2 fun tree1 tree2 => wtTreeUnionMerge types tree1 tree2 merge
  | .intersection tree1 tree2 => makeFromBoth trees tree1 tree2 (wtTreeIntersection types)
  | .difference tree1 tree2 => makeFromBoth trees tree1 tree2 (wtTreeDifference types)

end

end MitScheme.WtTree
