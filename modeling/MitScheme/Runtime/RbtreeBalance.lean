import MitScheme.Runtime.RbtreeViews

/-!
# Rebalancing

The colors of a tree as they should be, and what is left of that while `insert-fixup!` and
`delete-fixup!` go up from a node: the part in view is balanced by itself, and the context is
balanced around a part of a certain color and height. Neither procedure changes what is in the tree.
-/

namespace MitScheme.Rbtree

open LinkedTrees LinkedTrees.BinTree
open Option (bind_eq_bind bind_some)

variable {κ α : Type}

/-- The associations in the order of the tree. -/
def pairs : BinTree (Item κ α) → List (κ × α)
  | leaf => []
  | .node _ v l r => pairs l ++ (v.key, v.datum) :: pairs r

variable {region : Region (Item κ α)} {next n : Nat} {s : State κ α} {t t' : BinTree (Item κ α)}
  {ctx : Context (Item κ α)} {d : Side} {a x y : Nat} {v v' vx vy : Item κ α} {c c' : Color}
  {near near' far far' A B C : BinTree (Item κ α)}

theorem pairs_join (hkey : v.key = v'.key) (hdatum : v.datum = v'.datum)
    (hnear : pairs near = pairs near') (hfar : pairs far = pairs far') :
    pairs (join d a v near far) = pairs (join d x v' near' far') := by
  cases d <;> simp only [join, pairs, hkey, hdatum, hnear, hfar]

theorem pairs_rotate :
    pairs (join d y vy (join d x vx A B) C) = pairs (join d x vx A (join d y vy B C)) := by
  cases d <;> simp [join, pairs]

/-- The associations that a context has before those of the part in view. -/
def pairsBefore : Context (Item κ α) → List (κ × α)
  | [] => []
  | frame :: ctx => pairsBefore ctx ++ match frame.side with
      | .left => []
      | .right => pairs frame.other ++ [(frame.value.key, frame.value.datum)]

/-- Those that it has after them. -/
def pairsAfter : Context (Item κ α) → List (κ × α)
  | [] => []
  | frame :: ctx => (match frame.side with
      | .left => (frame.value.key, frame.value.datum) :: pairs frame.other
      | .right => []) ++ pairsAfter ctx

theorem pairs_plug_eq (t : BinTree (Item κ α)) (ctx : Context (Item κ α)) :
    pairs (plug t ctx) = pairsBefore ctx ++ pairs t ++ pairsAfter ctx := by
  induction ctx generalizing t with
  | nil => simp [plug, pairsBefore, pairsAfter]
  | cons frame ctx ih =>
      obtain ⟨side, a, v, other⟩ := frame
      rw [plug, ih, Frame.fill]
      cases side <;> simp [join, pairs, pairsBefore, pairsAfter]

theorem pairs_plug_leaf : pairs (plug leaf ctx) = pairsBefore ctx ++ pairsAfter ctx := by
  rw [pairs_plug_eq, pairs, List.append_nil]

theorem pairs_plug_node :
    pairs (plug (.node a v A B) ctx)
      = (pairsBefore ctx ++ pairs A) ++ (v.key, v.datum) :: (pairs B ++ pairsAfter ctx) := by
  rw [pairs_plug_eq, pairs, List.append_assoc, List.append_assoc, List.cons_append,
    ← List.append_assoc]

theorem pairs_plug (h : pairs t = pairs t') : pairs (plug t ctx) = pairs (plug t' ctx) := by
  rw [pairs_plug_eq, pairs_plug_eq, h]

/-! ## Colors -/

/-- No red node has a red child, and all paths to the leaves have as many black nodes; with the color
of the root, and this number. -/
inductive Balanced : BinTree (Item κ α) → Color → Nat → Prop
  | leaf : Balanced leaf .black 0
  | red {a : Nat} {v : Item κ α} {l r : BinTree (Item κ α)} {n : Nat} : v.color = .red →
      Balanced l .black n → Balanced r .black n → Balanced (.node a v l r) .red n
  | black {a : Nat} {v : Item κ α} {l r : BinTree (Item κ α)} {cl cr : Color} {n : Nat} :
      v.color = .black → Balanced l cl n → Balanced r cr n → Balanced (.node a v l r) .black (n + 1)

theorem balanced_join :
    Balanced (join d a v near far) c n
      ↔ (v.color = .red ∧ c = .red ∧ Balanced near .black n ∧ Balanced far .black n)
        ∨ (v.color = .black ∧ c = .black ∧ ∃ n', n = n' + 1 ∧ (∃ cn, Balanced near cn n')
          ∧ ∃ cf, Balanced far cf n') := by
  refine ⟨fun h => ?_, fun h => ?_⟩
  · cases d with
    | left =>
        cases h with
        | red hv hl hr => exact .inl ⟨hv, rfl, hl, hr⟩
        | black hv hl hr => exact .inr ⟨hv, rfl, _, rfl, ⟨_, hl⟩, _, hr⟩
    | right =>
        cases h with
        | red hv hl hr => exact .inl ⟨hv, rfl, hr, hl⟩
        | black hv hl hr => exact .inr ⟨hv, rfl, _, rfl, ⟨_, hr⟩, _, hl⟩
  · rcases h with ⟨hv, rfl, hnear, hfar⟩ | ⟨hv, rfl, n', rfl, ⟨cn, hnear⟩, cf, hfar⟩
    · cases d
      · exact .red hv hnear hfar
      · exact .red hv hfar hnear
    · cases d
      · exact .black hv hnear hfar
      · exact .black hv hfar hnear

theorem Balanced.join_red (hv : v.color = .red) (hnear : Balanced near .black n)
    (hfar : Balanced far .black n) : Balanced (join d a v near far) .red n :=
  balanced_join.mpr (.inl ⟨hv, rfl, hnear, hfar⟩)

theorem Balanced.join_black {cn cf : Color} (hv : v.color = .black) (hnear : Balanced near cn n)
    (hfar : Balanced far cf n) : Balanced (join d a v near far) .black (n + 1) :=
  balanced_join.mpr (.inr ⟨hv, rfl, n, rfl, ⟨cn, hnear⟩, cf, hfar⟩)

theorem Balanced.red_inv (h : Balanced t .red n) (d : Side) :
    ∃ a v near far, t = join d a v near far ∧ v.color = .red ∧ Balanced near .black n
      ∧ Balanced far .black n := by
  cases h with
  | red hv hl hr =>
      cases d
      · exact ⟨_, _, _, _, rfl, hv, hl, hr⟩
      · exact ⟨_, _, _, _, rfl, hv, hr, hl⟩

theorem Balanced.succ_inv (h : Balanced t .black (n + 1)) (d : Side) :
    ∃ a v near far cn cf, t = join d a v near far ∧ v.color = .black ∧ Balanced near cn n
      ∧ Balanced far cf n := by
  cases h with
  | black hv hl hr =>
      cases d
      · exact ⟨_, _, _, _, _, _, rfl, hv, hl, hr⟩
      · exact ⟨_, _, _, _, _, _, rfl, hv, hr, hl⟩

theorem Balanced.color_cases (h : Balanced t c n) : c = .red ∨ c = .black := by
  cases h
  · exact .inr rfl
  · exact .inl rfl
  · exact .inr rfl

/-- The context is balanced around a part with a root of the color, and with the number of black
nodes on its paths. The root of a tree is black. -/
inductive BalancedContext : Context (Item κ α) → Color → Nat → Prop
  | top {n : Nat} : BalancedContext [] .black n
  | red {d : Side} {a : Nat} {v : Item κ α} {other : BinTree (Item κ α)} {ctx : Context (Item κ α)}
      {n : Nat} : v.color = .red → Balanced other .black n → BalancedContext ctx .red n →
      BalancedContext (⟨d, a, v, other⟩ :: ctx) .black n
  | black {d : Side} {a : Nat} {v : Item κ α} {other : BinTree (Item κ α)} {ctx : Context (Item κ α)}
      {n : Nat} {c c' : Color} : v.color = .black → Balanced other c' n →
      BalancedContext ctx .black (n + 1) → BalancedContext (⟨d, a, v, other⟩ :: ctx) c n

theorem BalancedContext.toBlack (h : BalancedContext ctx c n) : BalancedContext ctx .black n := by
  cases h with
  | top => exact .top
  | red hv ho hctx => exact .red hv ho hctx
  | black hv ho hctx => exact .black hv ho hctx

theorem BalancedContext.plug (h : BalancedContext ctx c n) (ht : Balanced t c n) :
    ∃ n', Balanced (plug t ctx) .black n' := by
  induction h generalizing t with
  | top => exact ⟨_, ht⟩
  | red hv ho hctx ih => exact ih (.join_red hv ht ho)
  | black hv ho hctx ih => exact ih (.join_black hv ht ho)

theorem View.nodeRoot (h : View region next s t ctx) (hroot : t.root = some x) :
    ∃ cell, s.node (some x) = some cell ∧ cell.up = Context.up ctx := by
  obtain ⟨v, near, far, rfl⟩ := eq_join hroot .left
  exact ⟨_, h.node, Cell.up_make ..⟩

theorem View.hasColorRoot (h : View region next s t ctx) (ht : Balanced t c n) :
    s.hasColor t.root .red = some (decide (c = .red)) := by
  cases ht with
  | leaf => rfl
  | red hv hl hr | black hv hl hr =>
      have hcolor := (show View region next s (join .left _ _ _ _) ctx from h).hasColor .red
      rw [hv] at hcolor
      exact hcolor

theorem View.hasColorBlack (h : View region next s t ctx) (ht : Balanced t c n) :
    ∃ black, s.hasColor t.root .black = some black
      ∧ (t.root.isNone || black) = decide (c = .black) := by
  cases ht with
  | leaf => exact ⟨false, rfl, rfl⟩
  | red hv hl hr | black hv hl hr =>
      have hcolor := (show View region next s (join .left _ _ _ _) ctx from h).hasColor .black
      rw [hv] at hcolor
      exact ⟨_, hcolor, rfl⟩

theorem bToD_left {up near far : Link} (h : far ≠ near) :
    bToD (near = (Cell.make d v up near far).left) = d := by
  cases d with
  | left => simp [Cell.make, bToD]
  | right => simp [Cell.make, bToD, h.symm]

theorem View.root_ne (h : View region next s (join d a v near far) ctx)
    (hnear : near.root = some x) : far.root ≠ some x := by
  intro hfar
  have hn := occurs_of_root hnear
  have hf := occurs_of_root hfar
  have := h.focus.occurs_le x
  rw [occurs_join] at this
  omega

/-! ## Insertion -/

theorem View.insertCase3 {u g : Nat} {vu vg : Item κ α} {S Y : BinTree (Item κ α)}
    (h : View region next s t (⟨d, u, vu, S⟩ :: ⟨d, g, vg, Y⟩ :: ctx)) (hroot : t.root = some x) :
    ∃ s', s.insertCase3 (some x) d = some s'
      ∧ View region next s'
        (join d u { vu with color := .black } t (join d g { vg with color := .red } S Y)) ctx := by
  obtain ⟨cell, hcell, hup⟩ := h.nodeRoot hroot
  obtain ⟨s1, hs1, h1⟩ := (view_join.mpr h).setNodeColor .black
  have hu1 := h1.node
  obtain ⟨s2, hs2, h2⟩ := (view_join.mpr h1).setNodeColor .red
  have hu2 := (view_join.mp h2).node
  obtain ⟨s3, hs3, h3⟩ := h2.rotateMinus
  refine ⟨s3, ?_, h3⟩
  simp only [State.insertCase3, bind_eq_bind, bind_some, hcell, hup, Context.up_cons, hs1,
    hu1, Cell.up_make, hs2, hu2, hs3]

theorem Balanced.root_red (h : Balanced t .red n) : ∃ x, t.root = some x := by
  cases h with
  | red hv hl hr => exact ⟨_, rfl⟩

theorem insertFixupLoop_spec (fuel : Nat) (h : View region next s t ctx)
    (ht : Balanced t .red n) (hctx : BalancedContext ctx .black n) (hfuel : ctx.length < fuel) :
    ∃ s' t', State.insertFixupLoop fuel s t.root = some s' ∧ View region next s' t' []
      ∧ pairs t' = pairs (plug t ctx) ∧ ∃ c n, Balanced t' c n := by
  induction fuel generalizing s t ctx n with
  | zero => omega
  | succ fuel ih =>
      obtain ⟨x, hroot⟩ := ht.root_red
      obtain ⟨cell, hcell, hup⟩ := h.nodeRoot hroot
      rw [hroot, State.insertFixupLoop]
      cases hctx with
      | top =>
          refine ⟨s, _, ?_, h, rfl, .red, n, ht⟩
          rw [hcell, bind_eq_bind, bind_some, hup]
          rfl
      | black hv ho hctx =>
          -- the parent is black
          have hcolor := (view_join.mpr h).hasColor .red
          rw [hv] at hcolor
          obtain ⟨n', hbalanced⟩ := BalancedContext.plug (.black hv ho hctx) ht
          refine ⟨s, _, ?_, h.top, rfl, .black, n', hbalanced⟩
          simp only [hcell, bind_eq_bind, bind_some, hup, Context.up_cons, hcolor]
          rfl
      | @red du u vu S ctx n hv ho hctx =>
          -- the parent is red, so that it has a parent, which is black
          cases hctx with
          | @black dg g vg Y ctx _ _ cy hvg hY hctx =>
              have hu := view_join.mpr h
              have hg := view_join.mpr hu
              have hy := view_join_far.mp hg
              have hcolor := hu.hasColor .red
              rw [hv] at hcolor
              have hnu := hu.node
              rw [hroot] at hnu
              have hng := hg.node
              rw [root_join] at hng
              have hd : bToD (some u = (Cell.make dg vg (Context.up ctx) (some u) Y.root).left)
                  = dg := bToD_left (hg.root_ne (root_join ..))
              have hycolor := hy.hasColorRoot hY
              simp only [hcell, bind_eq_bind, bind_some, hup, Context.up_cons, hcolor,
                hnu, Cell.up_make, hng, hd, Cell.link_opposite_make, hycolor, decide_true, if_true]
              by_cases hcy : cy = .red
              · -- case 1: the redness goes up to the grandparent
                subst hcy
                obtain ⟨y, vy, Y1, Y2, rfl, hvy, hY1, hY2⟩ := hY.red_inv .left
                obtain ⟨s1, hs1, h1⟩ := hu.setNodeColor .black
                obtain ⟨s2, hs2, h2⟩ := (view_join_far.mp (view_join.mpr h1)).setNodeColor .black
                have hg2 := view_join_far.mpr h2
                have hu2 := (view_join.mp hg2).node
                obtain ⟨s3, hs3, h3⟩ := hg2.setNodeColor .red
                have hu3 := (view_join.mp h3).node
                have hbalanced : Balanced (join dg g { vg with color := .red }
                    (join du u { vu with color := .black } t S)
                    (join .left y { vy with color := .black } Y1 Y2)) .red (n + 1) :=
                  .join_red rfl (.join_black rfl ht ho) (.join_black rfl hY1 hY2)
                obtain ⟨s4, T, hs4, h4, hpairs, hbal⟩ := ih h3 hbalanced hctx
                  (by simp only [List.length_cons] at hfuel; omega)
                refine ⟨s4, T, ?_, h4, ?_, hbal⟩
                · rw [root_join] at hs4
                  simp only [decide_true, if_true, root_join, hs1, hs2, hu2, Cell.up_make,
                    bind_some, Context.up_cons, hs3, hu3, hs4]
                · rw [hpairs, plug]
                  exact pairs_plug (pairs_join rfl rfl (pairs_join rfl rfl rfl rfl)
                    (pairs_join rfl rfl rfl rfl))
              · -- cases 2 and 3: one rotation or two put an end to it
                have hY' : Balanced Y .black n := by
                  rcases hY.color_cases with rfl | rfl
                  · exact absurd rfl hcy
                  · exact hY
                simp only [hcy, decide_false, Bool.false_eq_true, if_false]
                by_cases hside : du = dg
                · subst hside
                  have hne := hu.root_ne hroot
                  obtain ⟨s1, hs1, h1⟩ := h.insertCase3 hroot
                  have hbalanced : Balanced (join du u { vu with color := .black } t
                      (join du g { vg with color := .red } S Y)) .black (n + 1) :=
                    .join_black rfl ht (.join_red rfl ho hY')
                  obtain ⟨n', hbal⟩ := hctx.plug hbalanced
                  refine ⟨s1, _, ?_, h1.top, ?_, .black, n', hbal⟩
                  · rw [Cell.link_opposite_make, if_neg hne.symm, hs1]
                  · refine pairs_plug ?_
                    rw [← pairs_rotate]
                    exact pairs_join rfl rfl (pairs_join rfl rfl rfl rfl) rfl
                · have hside' : du = dg.opposite := by
                    cases du <;> cases dg <;> simp_all [Side.opposite]
                  subst hside'
                  obtain ⟨vx, A, B, rfl⟩ := eq_join hroot dg
                  rw [join_opposite] at hu
                  obtain ⟨s1, hs1, h1⟩ := hu.rotatePlus
                  obtain ⟨s2, hs2, h2⟩ := (view_join.mp h1).insertCase3 (root_join ..)
                  have hparts : Balanced A .black n ∧ Balanced B .black n := by
                    rcases balanced_join.mp ht with ⟨-, -, hA, hB⟩ | ⟨-, hc, -⟩
                    · exact ⟨hA, hB⟩
                    · cases hc
                  have hbalanced : Balanced (join dg x { vx with color := .black }
                      (join dg u vu S A) (join dg g { vg with color := .red } B Y)) .black (n + 1) :=
                    .join_black rfl (.join_red hv ho hparts.1) (.join_red rfl hparts.2 hY')
                  obtain ⟨n', hbal⟩ := hctx.plug hbalanced
                  refine ⟨s2, _, ?_, h2.top, ?_, .black, n', hbal⟩
                  · rw [Cell.link_make, if_pos rfl, hs1, bind_some, hs2]
                  · rw [plug, plug, Frame.fill, Frame.fill, join_opposite]
                    refine pairs_plug ?_
                    calc pairs (join dg x { vx with color := .black } (join dg u vu S A)
                          (join dg g { vg with color := .red } B Y))
                        = pairs (join dg x vx (join dg u vu S A) (join dg g vg B Y)) :=
                          pairs_join rfl rfl rfl (pairs_join rfl rfl rfl rfl)
                      _ = pairs (join dg g vg (join dg x vx (join dg u vu S A) B) Y) :=
                          pairs_rotate.symm
                      _ = pairs (join dg g vg (join dg u vu S (join dg x vx A B)) Y) :=
                          pairs_join rfl rfl pairs_rotate rfl

theorem Balanced.blacken (h : Balanced (join d a v near far) c n) :
    ∃ n', Balanced (join d a { v with color := .black } near far) .black n' := by
  rcases balanced_join.mp h with ⟨-, -, hnear, hfar⟩ | ⟨-, -, n', -, ⟨cn, hnear⟩, cf, hfar⟩
  · exact ⟨_, .join_black rfl hnear hfar⟩
  · exact ⟨_, .join_black rfl hnear hfar⟩

theorem View.blackenRoot (h : View region next s t []) (ht : Balanced t c n)
    (hne : pairs t ≠ []) :
    ∃ s' t', s.setNodeColor s.root .black = some s' ∧ View region next s' t' []
      ∧ pairs t' = pairs t ∧ ∃ n', Balanced t' .black n' := by
  have hroot := h.focus.root
  cases hx : t.root with
  | none => exact absurd (by rw [eq_leaf hx, pairs]) hne
  | some x =>
      obtain ⟨v, near, far, rfl⟩ := eq_join hx .left
      obtain ⟨s', hs', h'⟩ := h.setNodeColor .black
      rw [hroot]
      exact ⟨s', _, hs', h', pairs_join rfl rfl rfl rfl, ht.blacken⟩

theorem pairs_join_ne_nil : pairs (join d a v near far) ≠ [] := by
  cases d <;> simp [join, pairs]

theorem pairs_plug_ne_nil (h : pairs t ≠ []) : pairs (plug t ctx) ≠ [] := by
  rw [pairs_plug_eq]
  simp [h]

theorem insertFixup_spec (h : View region next s t ctx) (ht : Balanced t .red n)
    (hctx : BalancedContext ctx .black n) (hnext : ctx.length < next) :
    ∃ s' t', s.insertFixup t.root = some s' ∧ View region next s' t' []
      ∧ pairs t' = pairs (plug t ctx) ∧ ∃ n, Balanced t' .black n := by
  obtain ⟨s1, t1, hs1, h1, hpairs, c, n1, hbal⟩ :=
    insertFixupLoop_spec s.next h ht hctx (h.next ▸ hnext)
  have hne : pairs t1 ≠ [] := by
    obtain ⟨a, v, near, far, rfl, -⟩ := ht.red_inv .left
    rw [hpairs]
    exact pairs_plug_ne_nil pairs_join_ne_nil
  obtain ⟨s2, t2, hs2, h2, hpairs2, hbal2⟩ := h1.blackenRoot hbal hne
  refine ⟨s2, t2, ?_, h2, hpairs2.trans hpairs, hbal2⟩
  rw [State.insertFixup, hs1, bind_eq_bind, bind_some, hs2]

/-! ## Deletion -/

/-- The parent of a part that has a black node too few, with the context around it. -/
def Deficient (vu : Item κ α) (ctx : Context (Item κ α)) (n : Nat) : Prop :=
  (vu.color = .red ∧ BalancedContext ctx .red (n + 1))
    ∨ (vu.color = .black ∧ BalancedContext ctx .black (n + 1 + 1))

variable {u w : Nat} {vu vw : Item κ α} {W : BinTree (Item κ α)} {ca cb : Color}

theorem View.deleteCase4 (h : View region next s (join d u vu t (join d w vw A B)) ctx)
    (ht : Balanced t c n) (hA : Balanced A ca n) (hB : Balanced B .red n)
    (hctx : Deficient vu ctx n) :
    ∃ s' t', s.deleteCase4 (some u) (some w) d = some s' ∧ View region next s' t' []
      ∧ pairs t' = pairs (plug (join d u vu t (join d w vw A B)) ctx)
      ∧ ∃ n', Balanced t' .black n' := by
  obtain ⟨b, vb, B1, B2, rfl, -, hB1, hB2⟩ := hB.red_inv d
  have hu := h.node
  obtain ⟨s1, hs1, h1⟩ := (view_join_far.mp h).setNodeColor vu.color
  obtain ⟨s2, hs2, h2⟩ := (view_join_far.mpr h1).setNodeColor .black
  have hw := view_join_far.mp h2
  have hnw := hw.node
  rw [root_join] at hnw
  obtain ⟨s3, hs3, h3⟩ := (view_join_far.mp hw).setNodeColor .black
  obtain ⟨s4, hs4, h4⟩ := (view_join_far.mpr (view_join_far.mpr h3)).rotatePlus
  have hblack : Balanced (join d u { vu with color := .black } t A) .black (n + 1) :=
    .join_black rfl ht hA
  have hblack' : Balanced (join d b { vb with color := .black } B1 B2) .black (n + 1) :=
    .join_black rfl hB1 hB2
  have hbal : ∃ n', Balanced (plug (join d w { vw with color := vu.color }
      (join d u { vu with color := .black } t A)
      (join d b { vb with color := .black } B1 B2)) ctx) .black n' := by
    rcases hctx with ⟨hcolor, hctx⟩ | ⟨hcolor, hctx⟩
    · exact hctx.plug (.join_red hcolor hblack hblack')
    · exact hctx.plug (.join_black hcolor hblack hblack')
  obtain ⟨n', hbal⟩ := hbal
  obtain ⟨s5, t5, hs5, h5, hpairs, hbal5⟩ :=
    h4.top.blackenRoot hbal (pairs_plug_ne_nil pairs_join_ne_nil)
  refine ⟨s5, t5, ?_, h5, ?_, hbal5⟩
  · simp only [State.deleteCase4, bind_eq_bind, bind_some, hu, Cell.value_make, hs1,
      hs2, hnw, Cell.link_opposite_make, hs3, hs4, hs5]
  · rw [hpairs]
    refine pairs_plug (Eq.trans ?_ pairs_rotate)
    exact pairs_join rfl rfl (pairs_join rfl rfl rfl rfl) (pairs_join rfl rfl rfl rfl)

theorem View.deleteCase1 (h : View region next s (join d u vu t W) ctx)
    (hW : Balanced W c (n + 1)) (hwu : vu.color = .red → c = .black)
    (hctx : Deficient vu ctx n) :
    ∃ s' vu' W' ctx', s.deleteCase1 (some u) W.root d = some (s', W'.root)
      ∧ View region next s' (join d u vu' t W') ctx' ∧ Balanced W' .black (n + 1)
      ∧ Deficient vu' ctx' n
      ∧ pairs (plug (join d u vu' t W') ctx') = pairs (plug (join d u vu t W) ctx)
      ∧ (vu'.color = .black → ctx' = ctx) := by
  rcases hW.color_cases with rfl | rfl
  · obtain ⟨w, vw, A, B, rfl, hvw, hA, hB⟩ := hW.red_inv d
    have hnw := (view_join_far.mp h).node
    rcases hctx with ⟨hred, -⟩ | ⟨hblack, hctx⟩
    · cases hwu hred
    · obtain ⟨s1, hs1, h1⟩ := (view_join_far.mp h).setNodeColor .black
      obtain ⟨s2, hs2, h2⟩ := (view_join_far.mpr h1).setNodeColor .red
      obtain ⟨s3, hs3, h3⟩ := h2.rotatePlus
      have hu3 := (view_join.mp h3).node
      refine ⟨s3, _, A, _, ?_, view_join.mp h3, hA, .inl ⟨rfl, .black rfl hB hctx⟩, ?_, nofun⟩
      · simp only [State.deleteCase1, root_join, bind_eq_bind, bind_some, hnw,
          Cell.value_make, hvw, if_true, hs1, hs2, hs3, hu3, Cell.link_opposite_make]
      · refine pairs_plug (Eq.trans pairs_rotate ?_)
        exact pairs_join rfl rfl rfl (pairs_join rfl rfl rfl rfl)
  · obtain ⟨w, vw, A, B, ca, cb, rfl, hvw, -⟩ := hW.succ_inv d
    have hnw := (view_join_far.mp h).node
    refine ⟨s, vu, _, ctx, ?_, h, hW, hctx, rfl, fun _ => rfl⟩
    simp only [State.deleteCase1, root_join, bind_eq_bind, bind_some, hnw,
      Cell.value_make, hvw, reduceCtorEq, if_false]

/-- The part in view when `delete-fixup!` looks at it: it has a black node too few, or a red root
that can be made black. -/
def Lacking (t : BinTree (Item κ α)) (n : Nat) : Prop :=
  Balanced t .black n
    ∨ ∃ d a v near far cn cf, t = join d a v near far ∧ v.color = .red ∧ Balanced near cn n
      ∧ Balanced far cf n

theorem deleteFixupLoop_spec (fuel : Nat) (h : View region next s t ctx) (ht : Lacking t n)
    (hctx : BalancedContext ctx .black (n + 1))
    (hfuel : ctx.length < fuel ∨ ¬ Balanced t .black n ∧ 0 < fuel) :
    ∃ s' t', State.deleteFixupLoop fuel s t.root (Context.up ctx) = some s'
      ∧ View region next s' t' [] ∧ pairs t' = pairs (plug t ctx)
      ∧ ∃ n', Balanced t' .black n' := by
  induction fuel generalizing s t ctx n with
  | zero => omega
  | succ fuel ih =>
      rw [State.deleteFixupLoop]
      rcases ht with ht | ⟨d, x, vx, near, far, cn, cf, rfl, hred, hnear, hfar⟩
      · have hcolor := h.hasColorRoot ht
        cases ctx with
        | nil =>
            -- the whole tree has got one black node less
            simp only [Context.up, hcolor, Option.isNone_none, bind_eq_bind,
              bind_some, Bool.true_or, if_true]
            cases hx : t.root with
            | none => exact ⟨s, t, rfl, h, rfl, n, ht⟩
            | some x =>
                obtain ⟨v, near, far, rfl⟩ := eq_join hx .left
                obtain ⟨s1, hs1, h1⟩ := h.setNodeColor .black
                exact ⟨s1, _, hs1, h1, pairs_join rfl rfl rfl rfl, ht.blacken⟩
        | cons frame ctx =>
            obtain ⟨du, u, vu, W⟩ := frame
            have hu := view_join.mpr h
            -- the sibling has a black node more on its paths, so it is there
            obtain ⟨cw, hW, hwu, hdef⟩ : ∃ cw, Balanced W cw (n + 1)
                ∧ (vu.color = .red → cw = .black) ∧ Deficient vu ctx n := by
              cases hctx with
              | red hv ho hctx => exact ⟨.black, ho, fun _ => rfl, .inl ⟨hv, hctx⟩⟩
              | @black _ _ _ _ _ _ _ c' hv ho hctx =>
                  exact ⟨c', ho, fun hr => absurd (hv.symm.trans hr) (by decide), .inr ⟨hv, hctx⟩⟩
            have hne : W.root ≠ t.root := by
              intro heq
              cases hx : t.root with
              | none =>
                  rw [eq_leaf (heq.trans hx)] at hW
                  cases hW
              | some x => exact hu.root_ne hx (heq.trans hx)
            have hd : bToD (t.root = (Cell.make du vu (Context.up ctx) t.root W.root).left) = du :=
              bToD_left hne
            obtain ⟨s1, vu', W', ctx', hs1, h1, hW', hdef', hpairs1, hkept⟩ :=
              hu.deleteCase1 hW hwu hdef
            have hlength : vu'.color = .red ∨ ctx'.length < fuel := by
              rcases hdef' with ⟨hred, -⟩ | ⟨hblack, -⟩
              · exact .inl hred
              · rcases hfuel with hfuel | hfuel
                · rw [hkept hblack]
                  exact .inr (by simp only [List.length_cons] at hfuel; omega)
                · exact absurd ht hfuel.1
            obtain ⟨w, vw, A, B, ca, cb, rfl, hvw, hA, hB⟩ := hW'.succ_inv du
            rw [root_join] at hs1
            have hw := view_join_far.mp h1
            have hnw := hw.node
            have hB' := (view_join_far.mp hw).hasColorRoot hB
            simp only [Context.up_cons, hcolor, Option.isNone_some, Bool.false_or,
              bind_eq_bind, bind_some, hu.node, hd, Cell.link_opposite_make, hs1, hnw,
              hB', reduceCtorEq, decide_false, Bool.false_eq_true, if_false, Cell.link_make]
            by_cases hcb : cb = .red
            · -- case 4
              subst hcb
              obtain ⟨s2, t2, hs2, h2, hpairs2, hbal2⟩ := h1.deleteCase4 ht hA hB hdef'
              refine ⟨s2, t2, ?_, h2, hpairs2.trans hpairs1, hbal2⟩
              rw [if_pos (decide_eq_true rfl), hs2]
            · have hB0 : Balanced B .black n := by
                rcases hB.color_cases with rfl | rfl
                · exact absurd rfl hcb
                · exact hB
              obtain ⟨black, hblack, hnone⟩ := (view_join.mp hw).hasColorBlack hA
              simp only [hcb, decide_false, Bool.false_eq_true, if_false, hblack, bind_some,
                hnone]
              by_cases hca : ca = .black
              · -- case 2: the parent is in want of a black node now
                subst hca
                obtain ⟨s2, hs2, h2⟩ := hw.setNodeColor .red
                have hu2 := view_join_far.mpr h2
                have hred : Balanced (join du w { vw with color := .red } A B) .red n :=
                  .join_red rfl hA hB0
                have hpos : 0 < fuel := by
                  rcases hfuel with hfuel | hfuel
                  · simp only [List.length_cons] at hfuel
                    omega
                  · exact absurd ht hfuel.1
                obtain ⟨m, hlacking, hctx', hfuel'⟩ : ∃ m,
                    Lacking (join du u vu' t (join du w { vw with color := .red } A B)) m
                      ∧ BalancedContext ctx' .black (m + 1)
                      ∧ (ctx'.length < fuel
                        ∨ ¬ Balanced (join du u vu' t (join du w { vw with color := .red } A B))
                            .black m ∧ 0 < fuel) := by
                  rcases hdef' with ⟨hvu, hctx'⟩ | ⟨hvu, hctx'⟩
                  · refine ⟨n, .inr ⟨du, u, vu', t, _, _, _, rfl, hvu, ht, hred⟩, hctx'.toBlack,
                      .inr ⟨fun hbal => ?_, hpos⟩⟩
                    rcases balanced_join.mp hbal with ⟨-, hc, -⟩ | ⟨hc, -⟩
                    · cases hc
                    · exact absurd (hvu.symm.trans hc) (by decide)
                  · refine ⟨n + 1, .inl (.join_black hvu ht hred), hctx', .inl ?_⟩
                    rcases hlength with hlength | hlength
                    · exact absurd (hvu.symm.trans hlength) (by decide)
                    · exact hlength
                obtain ⟨s3, t3, hs3, h3, hpairs3, hbal3⟩ := ih hu2 hlacking hctx' hfuel'
                refine ⟨s3, t3, ?_, h3, hpairs3.trans (Eq.trans (pairs_plug ?_) hpairs1), hbal3⟩
                · rw [root_join] at hs3
                  simp only [decide_true, if_true, hs2, bind_some, hu2.node, Cell.up_make,
                    hs3]
                · exact pairs_join rfl rfl rfl (pairs_join rfl rfl rfl rfl)
              · -- case 3 makes a case 4 of it
                have hA' : Balanced A .red n := by
                  rcases hA.color_cases with rfl | rfl
                  · exact hA
                  · exact absurd rfl hca
                obtain ⟨a, va, A1, A2, rfl, -, hA1, hA2⟩ := hA'.red_inv du
                obtain ⟨s2, hs2, h2⟩ := (view_join.mp hw).setNodeColor .black
                obtain ⟨s3, hs3, h3⟩ := (view_join.mpr h2).setNodeColor .red
                obtain ⟨s4, hs4, h4⟩ := h3.rotateMinus
                have hu4 := view_join_far.mpr h4
                obtain ⟨s5, t5, hs5, h5, hpairs5, hbal5⟩ :=
                  hu4.deleteCase4 ht hA1 (.join_red rfl hA2 hB0) hdef'
                refine ⟨s5, t5, ?_, h5, hpairs5.trans (Eq.trans (pairs_plug ?_) hpairs1), hbal5⟩
                · simp only [hca, decide_false, Bool.false_eq_true, if_false, root_join, hs2,
                    bind_some, hs3, hs4, hu4.node, Cell.link_opposite_make, hs5]
                · refine pairs_join rfl rfl rfl ?_
                  rw [← pairs_rotate]
                  exact pairs_join rfl rfl (pairs_join rfl rfl rfl rfl) rfl
      · -- a red root takes the missing black
        have hcolor := h.hasColor .red
        obtain ⟨s1, hs1, h1⟩ := h.setNodeColor .black
        obtain ⟨n', hbal⟩ := hctx.plug
          (.join_black (d := d) (a := x) (v := { vx with color := .black }) rfl hnear hfar)
        refine ⟨s1, _, ?_, h1.top, pairs_plug (pairs_join rfl rfl rfl rfl), n', hbal⟩
        rw [root_join, hcolor, hred, bind_eq_bind, bind_some]
        simp only [decide_true, Bool.or_true, if_true, Option.isSome_some, hs1]

end MitScheme.Rbtree
