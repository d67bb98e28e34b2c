import MitScheme.Runtime.RbtreeSearch

/-!
# Copies

A copy has the same associations and colors at addresses of its own.
-/

namespace MitScheme.Rbtree

open LinkedTrees LinkedTrees.BinTree

variable {κ α : Type} {s : State κ α} {t : BinTree (Item κ α)}

/-- What a copy of a tree is like, that was made below a parent. -/
structure Copied (s : State κ α) (t : BinTree (Item κ α)) (up : Link) (s' : State κ α)
    (t' : BinTree (Item κ α)) : Prop where
  root : s'.root = s.root
  next : s.next ≤ s'.next
  tree : Holds s'.cells up t'
  once : ∀ b, t'.occurs b ≤ 1
  fresh : ∀ b, 0 < t'.occurs b → s.next ≤ b ∧ b < s'.next
  unchanged : ∀ b, b < s.next → s'.cells b = s.cells b
  pairs : pairs t' = pairs t
  balanced : ∀ c n, Balanced t c n → Balanced t' c n

theorem copyLoop_spec (fuel : Nat) {up₀ : Link} (h : Holds s.cells up₀ t)
    (hbounded : ∀ b, 0 < t.occurs b → b < s.next) (hfuel : t.size < fuel) (up : Link) :
    ∃ s' t', State.copyLoop fuel s t.root up = some (t'.root, s') ∧ Copied s t up s' t' := by
  induction fuel generalizing s t up₀ up with
  | zero => omega
  | succ fuel ih =>
      cases t with
      | leaf =>
          exact ⟨s, leaf, rfl, rfl, Nat.le_refl _, trivial, fun _ => Nat.zero_le _,
            fun b hb => absurd hb (Nat.lt_irrefl 0), fun _ _ => rfl, rfl, fun _ _ hbal => hbal⟩
      | node a v l r =>
          obtain ⟨ha, hl, hr⟩ := h
          have hnext : a < s.next := hbounded a (by simp only [BinTree.occurs, if_true]; omega)
          have hboundedl : ∀ b, 0 < l.occurs b → b < s.next := fun b hb =>
            hbounded b (by simp only [BinTree.occurs]; omega)
          have hboundedr : ∀ b, 0 < r.occurs b → b < s.next := fun b hb =>
            hbounded b (by simp only [BinTree.occurs]; omega)
          simp only [BinTree.size] at hfuel
          -- the new node gets the color and the parent
          obtain ⟨s1, hs1, hnext1, hroot1, hself1, hother1⟩ : ∃ s1,
              s.makeNode v.key v.datum = (some s.next, s1) ∧ s1.next = s.next + 1
                ∧ s1.root = s.root
                ∧ s1.cells s.next = some ⟨⟨v.key, v.datum, .unset⟩, none, none, none⟩
                ∧ ∀ b, b ≠ s.next → s1.cells b = s.cells b :=
            ⟨_, rfl, rfl, rfl, Function.update_self .., fun b hb => Function.update_of_ne hb _ _⟩
          obtain ⟨s2, hs2, hnext2, hroot2, hself2, hother2⟩ := State.update_spec hself1
            fun cell => { cell with value := { cell.value with color := v.color } }
          obtain ⟨s3, hs3, hnext3, hroot3, hself3, hother3⟩ :=
            State.update_spec hself2 fun cell => { cell with up := up }
          have hbelow3 : ∀ b, b < s.next → s3.cells b = s.cells b := fun b hb => by
            rw [hother3 b (by omega), hother2 b (by omega), hother1 b (by omega)]
          obtain ⟨s4, l', hs4, hl'⟩ := @ih s3 l _
            (hl.congr fun b hb => hbelow3 b (hboundedl b hb))
            (fun b hb => by have := hboundedl b hb; omega) (by omega) (some s.next)
          have hnext4 := hl'.next
          have hnode4 := hl'.unchanged s.next (by omega)
          rw [hself3] at hnode4
          obtain ⟨s5, hs5, hnext5, hroot5, hself5, hother5⟩ :=
            State.update_spec hnode4 fun cell => cell.setLink .left l'.root
          have hbelow5 : ∀ b, b < s.next → s5.cells b = s.cells b := fun b hb => by
            rw [hother5 b (by omega), hl'.unchanged b (by omega), hbelow3 b hb]
          -- the copy of the right subtree
          obtain ⟨s6, r', hs6, hr'⟩ := @ih s5 r _
            (hr.congr fun b hb => hbelow5 b (hboundedr b hb))
            (fun b hb => by have := hboundedr b hb; omega) (by omega) (some s.next)
          have hnext6 := hr'.next
          have hnode6 := hr'.unchanged s.next (by omega)
          rw [hself5] at hnode6
          obtain ⟨s7, hs7, hnext7, hroot7, hself7, hother7⟩ :=
            State.update_spec hnode6 fun cell => cell.setLink .right r'.root
          have hfreshl : ∀ b, 0 < l'.occurs b → s.next < b ∧ b < s5.next := fun b hb => by
            have := hl'.fresh b hb
            omega
          have hfreshr : ∀ b, 0 < r'.occurs b → s5.next ≤ b ∧ b < s6.next := hr'.fresh
          refine ⟨s7, .node s.next v l' r', ?_, ?_, ?_, ⟨hself7, ?_, ?_⟩, fun b => ?_, fun b hb => ?_,
            fun b hb => ?_, ?_, fun c n hbal => ?_⟩
          · have hstep2 : s1.setNodeColor (some s.next) v.color = some s2 := hs2
            have hstep3 : s2.setNodeUp (some s.next) up = some s3 := hs3
            have hstep5 : s4.setLinkPlus (some s.next) .left l'.root = some s5 := hs5
            have hstep7 : s6.setLinkPlus (some s.next) .right r'.root = some s7 := hs7
            have ha3 := (hbelow3 a hnext).trans ha
            have ha5 := (hbelow5 a hnext).trans ha
            simp only [root_node, State.copyLoop, ha, Option.bind_eq_bind, Option.bind_some, hs1,
              hstep2, hstep3, ha3, hs4, hstep5, ha5, hs6, hstep7]
          · rw [hroot7, hr'.root, hroot5, hl'.root, hroot3, hroot2, hroot1]
          · omega
          · refine hl'.tree.congr fun b hb => ?_
            have := hfreshl b hb
            rw [hother7 b (by omega), hr'.unchanged b (by omega), hother5 b (by omega)]
          · refine hr'.tree.congr fun b hb => ?_
            have := hfreshr b hb
            rw [hother7 b (by omega)]
          · have := hl'.once b
            have := hr'.once b
            have := hfreshl b
            have := hfreshr b
            simp only [BinTree.occurs]
            by_cases hb : s.next = b
            · rw [if_pos hb]
              omega
            · rw [if_neg hb]
              omega
          · simp only [BinTree.occurs] at hb
            have := hfreshl b
            have := hfreshr b
            by_cases hb' : s.next = b
            · omega
            · rw [if_neg hb'] at hb
              omega
          · rw [hother7 b (by omega), hr'.unchanged b (by omega), hbelow5 b hb]
          · rw [Rbtree.pairs, Rbtree.pairs, hl'.pairs, hr'.pairs]
          · cases hbal with
            | red hv hbl hbr => exact .red hv (hl'.balanced _ _ hbl) (hr'.balanced _ _ hbr)
            | black hv hbl hbr => exact .black hv (hl'.balanced _ _ hbl) (hr'.balanced _ _ hbr)

theorem rbTreeCopy_spec (hroot : s.root = t.root) (h : Held s.cells s.next t) :
    ∃ s' t', s.rbTreeCopy = some (t'.root, s') ∧ Copied s t none s' t' := by
  have hbounded : ∀ b, 0 < t.occurs b → b < s.next := fun b hb => by
    refine Nat.lt_of_not_le fun hle => ?_
    have := h.bounded b hle
    omega
  rw [State.rbTreeCopy, hroot]
  exact copyLoop_spec (s.next + 1) h.tree hbounded
    (Nat.lt_succ_of_le (size_le h.once h.bounded)) none

/-!
## Runs of operations on trees

Any number of trees share the heap, and each operation works on one of them or makes another one.
After any operations each tree is a red-black tree, and has the associations of the finite map that
the operations make of it.
-/

open Associations

variable [LinearOrder κ]

/-- What an operation does to the finite maps that the trees stand for. -/
noncomputable def Operation.meaning (maps : List (κ → Option α)) :
    Operation κ α → List (κ → Option α)
  | .make => maps ++ [(fun _ => none : κ → Option α)]
  | .insert i key datum => maps.modify i fun map => Function.update map key (some datum)
  | .delete i key => maps.modify i fun map => Function.update map key none
  | .deleteMin i => maps.modify i dropLeast
  | .deleteMax i => maps.modify i dropGreatest
  | .copy i => maps ++ maps[i]?.toList

/-- The finite maps after some operations, of which there are none before the first one. -/
noncomputable def meaningOf (operations : List (Operation κ α)) : List (κ → Option α) :=
  operations.foldl Operation.meaning []

/-- The operations, one after the other. -/
def World.performAll (w : World κ α) (operations : List (Operation κ α)) : Option (World κ α) :=
  operations.foldlM (fun w operation => w.perform keyEq keyLess operation) w

/-- The link is to the root of a red-black tree with the associations of the map. -/
structure RedBlackTree (cells : Cells (Item κ α)) (root : Link) (map : κ → Option α)
    (t : BinTree (Item κ α)) : Prop where
  root : root = t.root
  /-- Each node is linked to its parent and its children. -/
  links : Holds cells none t
  once : ∀ b, t.occurs b ≤ 1
  increasing : (pairs t).Pairwise fun p q => p.1 < q.1
  balanced : ∃ n, Balanced t .black n
  contents : ∀ k d, (k, d) ∈ pairs t ↔ map k = some d

/-- The trees in the heap have no node in common, and have the associations of the maps. -/
structure Represents (w : World κ α) (trees : List (BinTree (Item κ α)))
    (maps : List (κ → Option α)) : Prop where
  roots : w.roots = trees.map BinTree.root
  length : trees.length = maps.length
  held : ∀ (i : Nat) t, trees[i]? = some t → Held w.cells w.next t
  apart : ∀ (i j : Nat) t u, trees[i]? = some t → trees[j]? = some u → i ≠ j →
    ∀ b, t.occurs b = 0 ∨ u.occurs b = 0
  lists : ∀ (i : Nat) t map, trees[i]? = some t → maps[i]? = some map → Lists (pairs t) map

variable {w : World κ α} {trees : List (BinTree (Item κ α))} {maps : List (κ → Option α)}

omit [LinearOrder κ] in
theorem Held.congr {cells cells' : Cells (Item κ α)} {next next' : Nat} {t : BinTree (Item κ α)}
    (h : Held cells next t) (heq : ∀ b, b < next → 0 < t.occurs b → cells' b = cells b)
    (hnext : next ≤ next') : Held cells' next' t := by
  refine ⟨h.tree.congr fun b hb => heq b ?_ hb, h.once, fun b hb => h.bounded b (by omega),
    h.balanced⟩
  refine Nat.lt_of_not_le fun hle => ?_
  have := h.bounded b hle
  omega

theorem Represents.tree_of_root (h : Represents w trees maps) {i : Nat} {root : Link}
    (hi : w.roots[i]? = some root) :
    ∃ t map, trees[i]? = some t ∧ maps[i]? = some map ∧ root = t.root := by
  rw [h.roots, List.getElem?_map, Option.map_eq_some_iff] at hi
  obtain ⟨t, ht, rfl⟩ := hi
  have hlt : i < maps.length := h.length ▸ (List.getElem?_eq_some_iff.mp ht).1
  exact ⟨t, maps[i], ht, List.getElem?_eq_getElem hlt, rfl⟩

theorem Represents.onTree (h : Represents w trees maps) (i : Nat)
    {procedure : State κ α → Option (State κ α)} {f : (κ → Option α) → κ → Option α}
    (hprocedure : ∀ (s : State κ α) t map, Held s.cells s.next t → s.root = t.root →
      Lists (pairs t) map → ∃ s' t', procedure s = some s' ∧ Changes s t s' t'
        ∧ Lists (pairs t') (f map)) :
    ∃ w' trees', w.onTree i procedure = some w' ∧ Represents w' trees' (maps.modify i f) := by
  cases hi : w.roots[i]? with
  | none =>
      have hle : maps.length ≤ i := by
        rw [← h.length, ← List.length_map BinTree.root, ← h.roots]
        exact List.getElem?_eq_none_iff.mp hi
      rw [List.modify_eq_self hle]
      exact ⟨w, trees, by rw [World.onTree, hi], h⟩
  | some root =>
      obtain ⟨t, map, ht, hmap, rfl⟩ := h.tree_of_root hi
      obtain ⟨s', t', hs', hchanges, hlists⟩ :=
        hprocedure ⟨w.cells, w.next, t.root⟩ t map (h.held i t ht) rfl (h.lists i t map ht hmap)
      have hlt := (List.getElem?_eq_some_iff.mp ht).1
      have hself : (trees.set i t')[i]? = some t' := by
        rw [List.getElem?_set_self hlt]
      have hother : ∀ (j : Nat) u, j ≠ i → (trees.set i t')[j]? = some u → trees[j]? = some u := by
        intro j u hj hu
        rwa [List.getElem?_set_ne (Ne.symm hj)] at hu
      -- another tree has no address where this one is, or is now
      have hapart : ∀ (j : Nat) u, j ≠ i → (trees.set i t')[j]? = some u →
          ∀ b, t'.occurs b = 0 ∨ u.occurs b = 0 := by
        intro j u hj hu b
        have hu' := hother j u hj hu
        by_cases hb : b < w.next
        · rcases h.apart i j t u ht hu' (Ne.symm hj) b with hz | hz
          · exact .inl (Nat.le_zero.mp (hz ▸ hchanges.occurs b hb))
          · exact .inr hz
        · exact .inr ((h.held j u hu').bounded b (by omega))
      refine ⟨⟨s'.cells, s'.next, w.roots.set i s'.root⟩, trees.set i t', ?_, ?_, ?_, ?_, ?_, ?_⟩
      · simp only [World.onTree, hi, hs', Option.bind_eq_bind, Option.bind_some]
      · rw [List.map_set, ← h.roots, hchanges.root]
      · rw [List.length_set, List.length_modify, h.length]
      · intro j u hu
        by_cases hj : j = i
        · subst hj
          rw [hself] at hu
          cases hu
          exact hchanges.held
        · have hu' := hother j u hj hu
          refine (h.held j u hu').congr (fun b hb hocc => ?_) hchanges.next
          refine hchanges.unchanged b hb ?_
          rcases h.apart i j t u ht hu' (Ne.symm hj) b with hz | hz
          · exact hz
          · omega
      · intro j k u v hu hv hjk b
        by_cases hj : j = i
        · subst hj
          rw [hself] at hu
          cases hu
          exact hapart k v (Ne.symm hjk) hv b
        · by_cases hk : k = i
          · subst hk
            rw [hself] at hv
            cases hv
            exact (hapart j u hj hu b).symm
          · exact h.apart j k u v (hother j u hj hu) (hother k v hk hv) hjk b
      · intro j u m hu hm
        by_cases hj : j = i
        · subst hj
          rw [hself] at hu
          cases hu
          rw [List.getElem?_modify_eq, hmap] at hm
          cases hm
          exact hlists
        · rw [List.getElem?_modify_ne f maps (Ne.symm hj)] at hm
          exact h.lists j u m (hother j u hj hu) hm

theorem Represents.append (h : Represents w trees maps) {cells : Cells (Item κ α)} {next : Nat}
    {t : BinTree (Item κ α)} {map : κ → Option α} (hheld : Held cells next t)
    (hnext : w.next ≤ next) (hfresh : ∀ b, b < w.next → t.occurs b = 0)
    (hunchanged : ∀ b, b < w.next → cells b = w.cells b) (hlists : Lists (pairs t) map) :
    Represents ⟨cells, next, w.roots ++ [t.root]⟩ (trees ++ [t]) (maps ++ [map]) := by
  have hcases : ∀ (j : Nat) u, (trees ++ [t])[j]? = some u →
      trees[j]? = some u ∨ j = trees.length ∧ u = t := by
    intro j u hu
    rw [List.getElem?_append] at hu
    by_cases hj : j < trees.length
    · rw [if_pos hj] at hu
      exact .inl hu
    · rw [if_neg hj, List.getElem?_singleton] at hu
      by_cases hj' : j - trees.length = 0
      · rw [if_pos hj'] at hu
        cases hu
        exact .inr ⟨by omega, rfl⟩
      · rw [if_neg hj'] at hu
        cases hu
  have hapart : ∀ (j : Nat) u, trees[j]? = some u → ∀ b, u.occurs b = 0 ∨ t.occurs b = 0 := by
    intro j u hu b
    by_cases hb : b < w.next
    · exact .inr (hfresh b hb)
    · exact .inl ((h.held j u hu).bounded b (by omega))
  refine ⟨?_, ?_, fun j u hu => ?_, fun j k u v hu hv hjk b => ?_, fun j u m hu hm => ?_⟩
  · rw [List.map_append, h.roots]
    rfl
  · rw [List.length_append, List.length_append, h.length]
    rfl
  · rcases hcases j u hu with hu | ⟨-, rfl⟩
    · exact (h.held j u hu).congr (fun b hb _ => hunchanged b hb) hnext
    · exact hheld
  · rcases hcases j u hu with hu' | ⟨hj, rfl⟩
    · rcases hcases k v hv with hv' | ⟨-, rfl⟩
      · exact h.apart j k u v hu' hv' hjk b
      · exact hapart j u hu' b
    · rcases hcases k v hv with hv' | ⟨hk, -⟩
      · exact (hapart k v hv' b).symm
      · omega
  · rcases hcases j u hu with hu | ⟨rfl, rfl⟩
    · rw [List.getElem?_append_left (h.length ▸ (List.getElem?_eq_some_iff.mp hu).1)] at hm
      exact h.lists j u m hu hm
    · rw [h.length, List.getElem?_concat_length] at hm
      cases hm
      exact hlists

/-! ## Steps and runs -/

theorem Represents.perform (h : Represents w trees maps) (operation : Operation κ α) :
    ∃ w' trees', w.perform keyEq keyLess operation = some w'
      ∧ Represents w' trees' (operation.meaning maps) := by
  cases operation with
  | make =>
      refine ⟨_, _, rfl, h.append (t := leaf) ⟨trivial, fun _ => Nat.zero_le _, fun _ _ => rfl,
        0, .leaf⟩ (Nat.le_refl _) (fun _ _ => rfl) (fun _ _ => rfl) lists_nil⟩
  | insert i key datum =>
      exact h.onTree i fun s t map hheld hroot hlists =>
        rbTreeInsert_spec hheld hroot hlists key datum
  | delete i key =>
      exact h.onTree i fun s t map hheld hroot hlists => rbTreeDelete_spec hheld hroot hlists key
  | deleteMin i =>
      rw [World.perform]
      refine h.onTree i fun s t map hheld hroot hlists => ?_
      obtain ⟨b, s', t', hs', hchanges, hpairs⟩ := deleteExtreme_spec hheld hroot .left (fun _ => ()) ()
      refine ⟨s', t', congrArg (Option.map Prod.snd) hs', hchanges, ?_⟩
      rcases hpairs with ⟨hnil, hnil', -⟩ | ⟨n, -, hcons⟩
      · rw [hnil']
        exact (hnil ▸ hlists).nil_dropLeast
      · have hpairs : pairs t = _ := hcons
        exact (hpairs ▸ hlists).tail
  | deleteMax i =>
      rw [World.perform]
      refine h.onTree i fun s t map hheld hroot hlists => ?_
      obtain ⟨b, s', t', hs', hchanges, hpairs⟩ := deleteExtreme_spec hheld hroot .right (fun _ => ()) ()
      refine ⟨s', t', congrArg (Option.map Prod.snd) hs', hchanges, ?_⟩
      rcases hpairs with ⟨hnil, hnil', -⟩ | ⟨n, -, hcons⟩
      · rw [hnil']
        exact (hnil ▸ hlists).nil_dropGreatest
      · have hpairs := List.reverse_eq_cons_iff.mp hcons
        rw [fromSide, List.reverse_reverse] at hpairs
        exact (hpairs ▸ hlists).dropLast
  | copy i =>
      rw [Operation.meaning]
      cases hi : w.roots[i]? with
      | none =>
          have hle : maps.length ≤ i := by
            rw [← h.length, ← List.length_map BinTree.root, ← h.roots]
            exact List.getElem?_eq_none_iff.mp hi
          rw [List.getElem?_eq_none_iff.mpr hle, Option.toList_none, List.append_nil]
          exact ⟨w, trees, by rw [World.perform, hi], h⟩
      | some root =>
          obtain ⟨t, map, ht, hmap, rfl⟩ := h.tree_of_root hi
          have hheld := h.held i t ht
          obtain ⟨s', t', hs', hcopied⟩ :=
            @rbTreeCopy_spec κ α ⟨w.cells, w.next, t.root⟩ t rfl hheld
          obtain ⟨n, hbal⟩ := hheld.balanced
          have hfresh : ∀ b, ¬ (w.next ≤ b ∧ b < s'.next) → t'.occurs b = 0 := fun b hb =>
            Nat.eq_zero_of_not_pos fun hpos => hb (hcopied.fresh b hpos)
          rw [hmap]
          refine ⟨_, _, ?_, h.append (t := t')
            ⟨hcopied.tree, hcopied.once, fun b hb => hfresh b (by omega), n, hcopied.balanced _ _ hbal⟩
            hcopied.next (fun b hb => hfresh b (by omega)) hcopied.unchanged ?_⟩
          · simp only [World.perform, hi, hs', Option.bind_eq_bind, Option.bind_some]
          · rw [hcopied.pairs]
            exact h.lists i t map ht hmap

theorem Represents.performAll (h : Represents w trees maps) (operations : List (Operation κ α)) :
    ∃ w' trees', w.performAll operations = some w'
      ∧ Represents w' trees' (operations.foldl Operation.meaning maps) := by
  induction operations generalizing w trees maps with
  | nil => exact ⟨w, trees, rfl, h⟩
  | cons operation operations ih =>
      obtain ⟨w1, trees1, hw1, h1⟩ := h.perform operation
      obtain ⟨w2, trees2, hw2, h2⟩ := ih h1
      refine ⟨w2, trees2, ?_, h2⟩
      rw [World.performAll, List.foldlM_cons, hw1, Option.bind_eq_bind]
      exact hw2

/-- Whatever operations are performed, no procedure fails, and all trees are red-black trees with the
associations of the maps that the operations make. -/
theorem performAll_redBlackTrees (operations : List (Operation κ α)) :
    ∃ w : World κ α, World.empty.performAll operations = some w
      ∧ w.roots.length = (meaningOf operations).length
      ∧ ∀ (i : Nat) root, w.roots[i]? = some root → ∃ t map, (meaningOf operations)[i]? = some map
        ∧ RedBlackTree w.cells root map t
        ∧ ∀ key default, State.rbTreeLookup ⟨w.cells, w.next, root⟩ keyEq keyLess key default
          = some ((map key).getD default) := by
  have hempty : Represents (World.empty : World κ α) [] [] :=
    ⟨rfl, rfl, fun _ _ h => (nomatch h), fun _ _ _ _ h => (nomatch h),
      fun _ _ _ h => (nomatch h)⟩
  obtain ⟨w, trees, hw, h⟩ := hempty.performAll operations
  refine ⟨w, hw, by rw [h.roots, List.length_map, h.length, meaningOf], fun i root hi => ?_⟩
  obtain ⟨t, map, ht, hmap, rfl⟩ := h.tree_of_root hi
  have hheld := h.held i t ht
  have hlists := h.lists i t map ht hmap
  exact ⟨t, map, hmap, ⟨rfl, hheld.tree, hheld.once, hlists.sorted, hheld.balanced, hlists.mem⟩,
    fun key default => rbTreeLookup_spec hheld rfl hlists key default⟩

/-! ## Priority queues -/

omit [LinearOrder κ]

/-- `rb-tree/delete-min-pair!` or `rb-tree/delete-max-pair!`. -/
def State.deletePair : Side → State κ α → Option (Option (κ × α) × State κ α)
  | .left, s => s.rbTreeDeleteMinPair
  | .right, s => s.rbTreeDeleteMaxPair

/-- What it returns when it is called over and over. -/
def State.deletePairs (d : Side) : Nat → State κ α → Option (List (Option (κ × α)) × State κ α)
  | 0, s => some ([], s)
  | n + 1, s => do
      let (pair, s) ← s.deletePair d
      let (pairs, s) ← deletePairs d n s
      some (pair :: pairs, s)

theorem Held.deletePairs (d : Side) (n : Nat) {s : State κ α} {t : BinTree (Item κ α)}
    (h : Held s.cells s.next t) (hroot : s.root = t.root) :
    ∃ s' t', s.deletePairs d n = some ((List.range n).map fun j => (fromSide d (pairs t))[j]?, s')
      ∧ Held s'.cells s'.next t' ∧ s'.root = t'.root ∧ fromSide d (pairs t') = (fromSide d (pairs t)).drop n := by
  induction n generalizing s t with
  | zero => exact ⟨s, t, rfl, h, hroot, rfl⟩
  | succ n ih =>
      -- the first call takes the head of the list, the others what is left
      obtain ⟨b, s1, t1, hs1, hchanges, hpairs⟩ := deleteExtreme_spec h hroot d
        (fun n => some (n.value.key, n.value.datum)) none
      obtain ⟨s2, t2, hs2, h2, hroot2, hpairs2⟩ := ih hchanges.held hchanges.root
      have hpair : s.deletePair d = some (b, s1) := by cases d <;> exact hs1
      obtain ⟨hhead, htail⟩ : (fromSide d (pairs t))[0]? = b
          ∧ (fromSide d (pairs t)).tail = fromSide d (pairs t1) := by
        rcases hpairs with ⟨hnil, hnil', rfl⟩ | ⟨n, rfl, hcons⟩
        · cases d <;> simp [hnil, hnil', fromSide]
        · simp [hcons]
      refine ⟨s2, t2, ?_, h2, hroot2, by rw [hpairs2, ← htail, List.drop_tail]⟩
      simp [State.deletePairs, hpair, hs2, List.range_succ_eq_map, hhead, ← htail]

variable [LinearOrder κ]

/-- **A tree is a priority queue from both sides.** After any operations, the calls return its associations in
order, and leave a red-black tree of the others each time. -/
theorem deletePairs_inOrder (operations : List (Operation κ α)) (d : Side) (n : Nat) :
    ∃ w : World κ α, World.empty.performAll operations = some w
      ∧ ∀ (i : Nat) root, w.roots[i]? = some root → ∃ map list, (meaningOf operations)[i]? = some map
        ∧ Lists list map ∧ ∃ s' t', State.deletePairs d n ⟨w.cells, w.next, root⟩
            = some ((List.range n).map fun j => (fromSide d list)[j]?, s')
          ∧ Held s'.cells s'.next t' ∧ s'.root = t'.root ∧ fromSide d (pairs t') = (fromSide d list).drop n := by
  have hempty : Represents (World.empty : World κ α) [] [] := ⟨rfl, rfl, nofun, nofun, nofun⟩
  obtain ⟨w, trees, hw, h⟩ := hempty.performAll operations
  refine ⟨w, hw, fun i root hi => ?_⟩
  obtain ⟨t, map, ht, hmap, rfl⟩ := h.tree_of_root hi
  exact ⟨map, _, hmap, h.lists i t map ht hmap, (h.held i t ht).deletePairs d n rfl⟩

end MitScheme.Rbtree
