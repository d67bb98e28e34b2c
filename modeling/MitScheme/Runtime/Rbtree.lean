import MitScheme.Lib.LinkedTrees

/-!
# Red-black trees

The procedures of `rbtree.scm` that change a tree or look something up in it. Nodes are cells in a
heap, and `#f` is `none`; a node that is not there makes a procedure fail, and so does a loop that
does not end within as many turns as there are nodes. The tree that a procedure is called with is
the root of a `State`. Interrupts are not looked at.
-/

namespace MitScheme.Rbtree

open LinkedTrees

/-- The color of a node is `#f` until it is set. -/
inductive Color where
  | unset
  | red
  | black
deriving DecidableEq, Repr

/-- What a node has besides its links. -/
structure Item (κ α : Type) where
  key : κ
  datum : α
  color : Color

abbrev Node (κ α : Type) := Cell (Item κ α)

/-- A node, or `#f`. -/
abbrev Link := Option Nat

/-- The nodes, the first address that `make-node` has not given out, and `tree-root` of a tree. -/
structure State (κ α : Type) where
  cells : Cells (Item κ α)
  next : Nat
  root : Link

variable {κ α : Type}

/-- `b->d` -/
def bToD (left : Bool) : Side := if left then .left else .right

namespace State

variable (s : State κ α)

/-! ## Nodes -/

/-- The node that is read or written, which `#f` is not. -/
def node (x : Link) : Option (Node κ α) := x.bind s.cells

def update (x : Link) (f : Node κ α → Node κ α) : Option (State κ α) :=
  match x with
  | none => none
  | some a =>
      (s.cells a).map fun n => { s with cells := Function.update s.cells a (some (f n)) }

def makeNode (key : κ) (datum : α) : Link × State κ α :=
  (some s.next,
    { s with
      cells := Function.update s.cells s.next (some ⟨⟨key, datum, .unset⟩, none, none, none⟩)
      next := s.next + 1 })

def setTreeRoot (x : Link) : State κ α := { s with root := x }

def setNodeUp (x u : Link) : Option (State κ α) := s.update x fun n => { n with up := u }

/-- `set-link+!`, which is `set-node-left!` on the left and `set-node-right!` on the right. -/
def setLinkPlus (x : Link) (d : Side) (l : Link) : Option (State κ α) :=
  s.update x fun n => n.setLink d l

/-- `set-link-!` -/
def setLinkMinus (x : Link) (d : Side) (l : Link) : Option (State κ α) :=
  s.setLinkPlus x d.opposite l

def setNodeKey (x : Link) (key : κ) : Option (State κ α) :=
  s.update x fun n => { n with value := { n.value with key := key } }

def setNodeDatum (x : Link) (datum : α) : Option (State κ α) :=
  s.update x fun n => { n with value := { n.value with datum := datum } }

def setNodeColor (x : Link) (color : Color) : Option (State κ α) :=
  s.update x fun n => { n with value := { n.value with color := color } }

/-- `(if x (set-node-up! x u))` -/
def setNodeUpIf (x u : Link) : Option (State κ α) :=
  if x.isSome then s.setNodeUp x u else some s

/-- A node is there, and has the color. -/
def hasColor (x : Link) (color : Color) : Option Bool :=
  match x with
  | none => some false
  | some a => (s.cells a).map fun n => n.value.color = color

/-- What `u` has for `x`, on the side `d` or on the other one, becomes `y`. If there is no `u`, `y` is
the root. -/
def relink (u x y : Link) (d : Side) : Option (State κ α) :=
  match u with
  | none => some (s.setTreeRoot y)
  | some _ => do
      let nu ← s.node u
      if x = nu.link d then s.setLinkPlus u d y else s.setLinkMinus u d y

/-- `rotate+!` -/
def rotatePlus (x : Link) (d : Side) : Option (State κ α) := do
  let nx ← s.node x
  let y := nx.link d.opposite
  let ny ← s.node y
  let beta := ny.link d
  let s ← s.setLinkMinus x d beta
  let s ← s.setNodeUpIf beta x
  let nx ← s.node x
  let u := nx.up
  let s ← s.setNodeUp y u
  let s ← s.relink u x y d
  let s ← s.setLinkPlus y d x
  s.setNodeUp x y

/-- `rotate-!` -/
def rotateMinus (x : Link) (d : Side) : Option (State κ α) := s.rotatePlus x d.opposite

/-- Case 3 of `insert-fixup!`. -/
def insertCase3 (x : Link) (d : Side) : Option (State κ α) := do
  let nx ← s.node x
  let u := nx.up
  let s ← s.setNodeColor u .black
  let nu ← s.node u
  let s ← s.setNodeColor nu.up .red
  let nu ← s.node u
  s.rotateMinus nu.up d

/-- The loop of `insert-fixup!`. -/
def insertFixupLoop : Nat → State κ α → Link → Option (State κ α)
  | 0, _, _ => none
  | fuel + 1, s, x => do
      let nx ← s.node x
      let u := nx.up
      if ← s.hasColor u .red then
        let nu ← s.node u
        let g ← s.node nu.up
        let d := bToD (u = g.left)
        let y := g.link d.opposite
        if ← s.hasColor y .red then
          -- case 1
          let s ← s.setNodeColor u .black
          let s ← s.setNodeColor y .black
          let nu ← s.node u
          let s ← s.setNodeColor nu.up .red
          let nu ← s.node u
          insertFixupLoop fuel s nu.up
        else if x = nu.link d.opposite then
          -- case 2
          let s ← s.rotatePlus u d
          s.insertCase3 u d
        else s.insertCase3 x d
      else some s

def insertFixup (x : Link) : Option (State κ α) := do
  let s ← insertFixupLoop s.next s x
  s.setNodeColor s.root .black

/-- The new node becomes the root, or a child of `y`. -/
def linkNew (y : Link) (d : Option Side) (z : Link) : Option (State κ α) :=
  match y with
  | none => some (s.setTreeRoot z)
  | some _ => if d = some .left then s.setLinkPlus y .left z else s.setLinkPlus y .right z

/-- What `rb-tree/insert!` does where the key is not found. -/
def insertNew (key : κ) (datum : α) (y : Link) (d : Option Side) : Option (State κ α) := do
  let (z, s) := s.makeNode key datum
  let s ← s.setNodeUp z y
  let s ← s.linkNew y d z
  let s ← s.setNodeColor z .red
  s.insertFixup z

/-! ## Deletion -/

/-- The end of `delete-fixup!` in case 4, and after case 3. -/
def deleteCase4 (u w : Link) (d : Side) : Option (State κ α) := do
  let nu ← s.node u
  let s ← s.setNodeColor w nu.value.color
  let s ← s.setNodeColor u .black
  let nw ← s.node w
  let s ← s.setNodeColor (nw.link d.opposite) .black
  let s ← s.rotatePlus u d
  s.setNodeColor s.root .black

/-- Case 1 of `delete-fixup!`, with the sibling that the node has in the end. -/
def deleteCase1 (u w : Link) (d : Side) : Option (State κ α × Link) := do
  let nw ← s.node w
  if nw.value.color = .red then
    let s ← s.setNodeColor w .black
    let s ← s.setNodeColor u .red
    let s ← s.rotatePlus u d
    let nu ← s.node u
    some (s, nu.link d.opposite)
  else some (s, w)

/-- The loop of `delete-fixup!`. -/
def deleteFixupLoop : Nat → State κ α → Link → Link → Option (State κ α)
  | 0, _, _, _ => none
  | fuel + 1, s, x, u => do
      if u.isNone || (← s.hasColor x .red) then
        if x.isSome then s.setNodeColor x .black else some s
      else
        let nu ← s.node u
        let d := bToD (x = nu.left)
        let (s, w) ← s.deleteCase1 u (nu.link d.opposite) d
        let nw ← s.node w
        if ← s.hasColor (nw.link d.opposite) .red then s.deleteCase4 u w d
        else
          let nPlus := nw.link d
          if nPlus.isNone || (← s.hasColor nPlus .black) then
            -- case 2
            let s ← s.setNodeColor w .red
            let nu ← s.node u
            deleteFixupLoop fuel s u nu.up
          else
            -- case 3
            let s ← s.setNodeColor nPlus .black
            let s ← s.setNodeColor w .red
            let s ← s.rotateMinus w d
            let nu ← s.node u
            s.deleteCase4 u (nu.link d.opposite) d

def deleteFixup (x u : Link) : Option (State κ α) := deleteFixupLoop (s.next + 1) s x u

/-- The loops of `min-node` and `max-node`: the last node on a side. -/
def extremeLoop (d : Side) : Nat → Link → Option Link
  | 0, _ => none
  | fuel + 1, x => do
      let nx ← s.node x
      if (nx.link d).isSome then extremeLoop d fuel (nx.link d) else some x

def minNode : Option Link := if s.root.isSome then s.extremeLoop .left s.next s.root else some none

def maxNode : Option Link := if s.root.isSome then s.extremeLoop .right s.next s.root else some none

/-- The loop of `next-node` for a node that has nothing on its right. -/
def nextNodeLoop : Nat → Link → Option Link
  | 0, _ => none
  | fuel + 1, x => do
      let nx ← s.node x
      let y := nx.up
      match y with
      | none => some none
      | some _ => do
          let ny ← s.node y
          if x = ny.right then nextNodeLoop fuel y else some y

def nextNode (x : Link) : Option Link := do
  let nx ← s.node x
  if nx.right.isSome then s.extremeLoop .left s.next nx.right else s.nextNodeLoop s.next x

/-- The part of `delete-node!` that takes out a node which has one child at most. -/
def splice (z : Link) : Option (State κ α) := do
  let nz ← s.node z
  let x := nz.left <|> nz.right
  let u := nz.up
  let s ← s.setNodeUpIf x u
  let s ← s.relink u z x .left
  let nz ← s.node z
  if nz.value.color = .black then s.deleteFixup x u else some s

def deleteNode (z : Link) : Option (State κ α) := do
  let nz ← s.node z
  if nz.left.isSome && nz.right.isSome then
    let y ← s.nextNode z
    let ny ← s.node y
    let s ← s.setNodeKey z ny.value.key
    let s ← s.setNodeDatum z ny.value.datum
    s.splice y
  else s.splice z

/-- `rb-tree/delete-min!`, `rb-tree/delete-max!` and their variants, which report something about
the node. -/
def deleteExtreme {β : Type} (find : State κ α → Option Link) (report : Node κ α → β) (default : β) :
    Option (β × State κ α) := do
  let node ← find s
  match node with
  | none => some (default, s)
  | some _ => do
      let n ← s.node node
      let s ← s.deleteNode node
      some (report n, s)

def rbTreeDeleteMin (default : κ) : Option (κ × State κ α) :=
  s.deleteExtreme minNode (·.value.key) default

def rbTreeDeleteMinDatum (default : α) : Option (α × State κ α) :=
  s.deleteExtreme minNode (·.value.datum) default

def rbTreeDeleteMinPair : Option (Option (κ × α) × State κ α) :=
  s.deleteExtreme minNode (fun n => some (n.value.key, n.value.datum)) none

def rbTreeDeleteMax (default : κ) : Option (κ × State κ α) :=
  s.deleteExtreme maxNode (·.value.key) default

def rbTreeDeleteMaxDatum (default : α) : Option (α × State κ α) :=
  s.deleteExtreme maxNode (·.value.datum) default

def rbTreeDeleteMaxPair : Option (Option (κ × α) × State κ α) :=
  s.deleteExtreme maxNode (fun n => some (n.value.key, n.value.datum)) none

/-- The loop of `rb-tree/copy`. -/
def copyLoop : Nat → State κ α → Link → Link → Option (Link × State κ α)
  | 0, _, _, _ => none
  | _ + 1, s, none, _ => some (none, s)
  | fuel + 1, s, some node, up => do
      let n ← s.cells node
      let (node', s) := s.makeNode n.value.key n.value.datum
      let s ← s.setNodeColor node' n.value.color
      let s ← s.setNodeUp node' up
      let n ← s.cells node
      let (left, s) ← copyLoop fuel s n.left node'
      let s ← s.setLinkPlus node' .left left
      let n ← s.cells node
      let (right, s) ← copyLoop fuel s n.right node'
      let s ← s.setLinkPlus node' .right right
      some (node', s)

/-- `rb-tree/copy`, with the root of the copy. -/
def rbTreeCopy : Option (Link × State κ α) := copyLoop (s.next + 1) s s.root none

section Search

variable (keyEq keyLess : κ → κ → Bool)

/-- The loop of `rb-tree/insert!`. -/
def insertLoop (key : κ) (datum : α) : Nat → Link → Link → Option Side → Option (State κ α)
  | 0, _, _, _ => none
  | fuel + 1, x, y, d =>
      match x with
      | none => s.insertNew key datum y d
      | some _ => do
          let nx ← s.node x
          if keyEq key nx.value.key then s.setNodeDatum x datum
          else if keyLess key nx.value.key then insertLoop key datum fuel nx.left x (some .left)
          else insertLoop key datum fuel nx.right x (some .right)

def rbTreeInsert (key : κ) (datum : α) : Option (State κ α) :=
  s.insertLoop keyEq keyLess key datum (s.next + 1) s.root none none

/-- The loop of `rb-tree/delete!`. -/
def deleteLoop (key : κ) : Nat → Link → Option (State κ α)
  | 0, _ => none
  | fuel + 1, x =>
      match x with
      | none => some s
      | some _ => do
          let nx ← s.node x
          if keyEq key nx.value.key then s.deleteNode x
          else if keyLess key nx.value.key then deleteLoop key fuel nx.left
          else deleteLoop key fuel nx.right

def rbTreeDelete (key : κ) : Option (State κ α) :=
  s.deleteLoop keyEq keyLess key (s.next + 1) s.root

/-- The loop of `rb-tree/lookup`. -/
def lookupLoop (key : κ) (default : α) : Nat → Link → Option α
  | 0, _ => none
  | fuel + 1, x =>
      match x with
      | none => some default
      | some _ => do
          let nx ← s.node x
          if keyEq key nx.value.key then some nx.value.datum
          else if keyLess key nx.value.key then lookupLoop key default fuel nx.left
          else lookupLoop key default fuel nx.right

def rbTreeLookup (key : κ) (default : α) : Option α :=
  s.lookupLoop keyEq keyLess key default (s.next + 1) s.root

end Search

end State

/-- The heap, with all trees that were made. -/
structure World (κ α : Type) where
  cells : Cells (Item κ α)
  next : Nat
  roots : List Link

/-- No trees. -/
def World.empty : World κ α := ⟨fun _ => none, 0, []⟩

/-- An operation on trees, which are numbered as they are made. -/
inductive Operation (κ α : Type) where
  | make
  | insert (tree : Nat) (key : κ) (datum : α)
  | delete (tree : Nat) (key : κ)
  | deleteMin (tree : Nat)
  | deleteMax (tree : Nat)
  | copy (tree : Nat)

namespace World

variable (w : World κ α)

/-- A procedure that changes a tree. If there is no such tree it signals an error before it changes
anything (`guarantee-rb-tree`). -/
def onTree (i : Nat) (procedure : State κ α → Option (State κ α)) : Option (World κ α) :=
  match w.roots[i]? with
  | none => some w
  | some root => do
      let s ← procedure ⟨w.cells, w.next, root⟩
      some ⟨s.cells, s.next, w.roots.set i s.root⟩

def perform (keyEq keyLess : κ → κ → Bool) : Operation κ α → Option (World κ α)
  | .make => some { w with roots := w.roots ++ [none] }
  | .insert i key datum => w.onTree i fun s => s.rbTreeInsert keyEq keyLess key datum
  | .delete i key => w.onTree i fun s => s.rbTreeDelete keyEq keyLess key
  | .deleteMin i => w.onTree i fun s => (s.deleteExtreme State.minNode (fun _ => ()) ()).map Prod.snd
  | .deleteMax i => w.onTree i fun s => (s.deleteExtreme State.maxNode (fun _ => ()) ()).map Prod.snd
  | .copy i =>
      match w.roots[i]? with
      | none => some w
      | some root => do
          let (root', s) ← State.rbTreeCopy ⟨w.cells, w.next, root⟩
          some ⟨s.cells, s.next, w.roots ++ [root']⟩

end World

end MitScheme.Rbtree
