import MitScheme.Runtime.Rbtree

/-!
# What the procedures on nodes do to the part in view

Each procedure that reads or writes a node is specified by what it does to a tree whose node is in
view, so that the procedures that rebalance a tree can be followed without looking at cells.
-/

namespace MitScheme.Rbtree

open LinkedTrees LinkedTrees.BinTree Option

variable {κ α : Type}

/-- The state holds a part of the tree in its context, and `next` nodes have been made. -/
structure View (region : Region (Item κ α)) (next : Nat) (s : State κ α) (t : BinTree (Item κ α))
    (ctx : Context (Item κ α)) : Prop where
  focus : Focus region s.cells s.root t ctx
  next : s.next = next

variable {region : Region (Item κ α)} {next : Nat} {s : State κ α} {t : BinTree (Item κ α)}
  {ctx : Context (Item κ α)} {d : Side} {a x y : Nat} {v vx vy : Item κ α}
  {near far A B C : BinTree (Item κ α)}

theorem view_join :
    View region next s (join d a v near far) ctx
      ↔ View region next s near (⟨d, a, v, far⟩ :: ctx) :=
  ⟨fun h => ⟨focus_join.mp h.focus, h.next⟩, fun h => ⟨focus_join.mpr h.focus, h.next⟩⟩

theorem view_join_far :
    View region next s (join d a v near far) ctx
      ↔ View region next s far (⟨d.opposite, a, v, near⟩ :: ctx) :=
  ⟨fun h => ⟨focus_join_far.mp h.focus, h.next⟩, fun h => ⟨focus_join_far.mpr h.focus, h.next⟩⟩

theorem View.top (h : View region next s t ctx) : View region next s (plug t ctx) [] :=
  ⟨h.focus.top, h.next⟩

theorem View.node (h : View region next s (join d a v near far) ctx) :
    s.node (some a) = some (.make d v (Context.up ctx) near.root far.root) := h.focus.cell

theorem View.hasColor (h : View region next s (join d a v near far) ctx) (color : Color) :
    s.hasColor (some a) color = some (decide (v.color = color)) := by
  rw [State.hasColor, h.focus.cell, map_some, Cell.value_make]

theorem State.update_some {cell : Node κ α} (h : s.cells a = some cell)
    (f : Node κ α → Node κ α) :
    s.update (some a) f = some { s with cells := Function.update s.cells a (some (f cell)) } := by
  rw [State.update, h]
  rfl

theorem View.update (h : View region next s (join d a v near far) ctx)
    (f : Item κ α → Item κ α) :
    ∃ s', s.update (some a) (fun n => { n with value := f n.value }) = some s'
      ∧ View region next s' (join d a (f v) near far) ctx := by
  refine ⟨_, State.update_some h.focus.cell _, h.focus.setValue (fun b hb => ?_) ?_, h.next⟩
  · exact Function.update_of_ne hb _ _
  · dsimp only
    rw [Function.update_self, Cell.value_make, Cell.setValue_make]

theorem View.setNodeColor (h : View region next s (join d a v near far) ctx) (color : Color) :
    ∃ s', s.setNodeColor (some a) color = some s'
      ∧ View region next s' (join d a { v with color := color } near far) ctx :=
  h.update fun v => { v with color := color }

theorem View.setNodeKey (h : View region next s (join d a v near far) ctx) (key : κ) :
    ∃ s', s.setNodeKey (some a) key = some s'
      ∧ View region next s' (join d a { v with key := key } near far) ctx :=
  h.update fun v => { v with key := key }

theorem View.setNodeDatum (h : View region next s (join d a v near far) ctx) (datum : α) :
    ∃ s', s.setNodeDatum (some a) datum = some s'
      ∧ View region next s' (join d a { v with datum := datum } near far) ctx :=
  h.update fun v => { v with datum := datum }

theorem State.update_spec {cell : Node κ α} (h : s.cells a = some cell) (f : Node κ α → Node κ α) :
    ∃ s', s.update (some a) f = some s' ∧ s'.next = s.next ∧ s'.root = s.root
      ∧ s'.cells a = some (f cell) ∧ ∀ b, b ≠ a → s'.cells b = s.cells b :=
  ⟨_, State.update_some h f, rfl, rfl, Function.update_self .., fun _ hb =>
    Function.update_of_ne hb _ _⟩

theorem State.setNodeUpIf_spec {l : Link} (h : ∀ b, l = some b → ∃ cell, s.cells b = some cell)
    (u : Link) :
    ∃ s', s.setNodeUpIf l u = some s' ∧ s'.next = s.next
      ∧ s'.root = s.root ∧ (∀ b, l ≠ some b → s'.cells b = s.cells b)
      ∧ ∀ b cell, l = some b → s.cells b = some cell → s'.cells b = some { cell with up := u } := by
  cases l with
  | none => exact ⟨s, rfl, rfl, rfl, fun _ _ => rfl, fun b cell hb => nomatch hb⟩
  | some b =>
      obtain ⟨cell, hcell⟩ := h b rfl
      obtain ⟨s', hs', hnext, hroot, hself, hother⟩ :=
        State.update_spec hcell fun n => { n with up := u }
      refine ⟨s', hs', hnext, hroot, fun b' hb' => hother b' fun heq => hb' (heq ▸ rfl), ?_⟩
      intro b' cell' hb' hcell'
      cases hb'
      rw [hcell] at hcell'
      cases hcell'
      exact hself

theorem State.relink_spec {hole : Link}
    (hparent : ∀ frame ctx', ctx = frame :: ctx' → s.cells frame.address
      = some (.make frame.side frame.value (Context.up ctx') hole frame.other.root)
        ∧ frame.other.root ≠ hole) (hole' : Link) :
    ∃ s', s.relink (Context.up ctx) hole hole' d = some s' ∧ s'.next = s.next
      ∧ s'.root = (if ctx = [] then hole' else s.root)
      ∧ (∀ b, Context.up ctx ≠ some b → s'.cells b = s.cells b)
      ∧ ∀ frame ctx', ctx = frame :: ctx' → s'.cells frame.address
        = some (.make frame.side frame.value (Context.up ctx') hole' frame.other.root) := by
  cases ctx with
  | nil => exact ⟨_, rfl, rfl, rfl, fun _ _ => rfl, fun frame ctx' h => nomatch h⟩
  | cons frame ctx =>
      obtain ⟨hcell, hne⟩ := hparent frame ctx rfl
      obtain ⟨s', hs', hnext, hroot, hself, hother⟩ :=
        State.update_spec hcell fun n => n.setLink frame.side hole'
      rw [Cell.setLink_make] at hself
      refine ⟨s', ?_, hnext, hroot, fun b hb => hother b fun heq => hb (heq ▸ rfl), ?_⟩
      · -- the link to the hole is the one that is changed
        rw [Context.up, State.relink, State.node, bind_some, hcell]
        by_cases hside : frame.side = d
        · subst hside
          rw [bind_eq_bind, bind_some, Cell.link_make, if_pos rfl]
          exact hs'
        · have hside' : frame.side = d.opposite := by
            cases hfs : frame.side <;> cases d <;> simp_all [Side.opposite]
          have hlink : (Cell.make frame.side frame.value (Context.up ctx) hole
              frame.other.root).link d = frame.other.root := by
            rw [hside', Cell.make_opposite, Cell.link_make]
          rw [bind_eq_bind, bind_some, hlink, if_neg hne.symm, State.setLinkMinus,
            ← hside']
          exact hs'
      · intro frame' ctx' hctx
        cases hctx
        exact hself

/-! ## Rotations -/

theorem View.rotatePlus (h : View region next s (join d x vx A (join d y vy B C)) ctx) :
    ∃ s', s.rotatePlus (some x) d = some s'
      ∧ View region next s' (join d y vy (join d x vx A B) C) ctx := by
  have honce := h.focus.occurs_le
  simp only [occurs_join] at honce
  have hx := h.focus.cell
  have hfar := focus_join_far.mp h.focus
  have hy := hfar.cell
  rw [root_join] at hx
  have hxy : x ≠ y := fun heq => by
    have := honce x
    simp only [heq, if_true] at this
    omega
  have hB : ∀ b, B.root = some b → b ≠ x ∧ b ≠ y ∧ ∃ cell, s.cells b = some cell := by
    intro b hb
    have hocc := occurs_of_root hb
    obtain ⟨vb, n, f, rfl⟩ := eq_join hb d
    refine ⟨fun heq => ?_, fun heq => ?_, _, (focus_join.mp hfar).cell⟩
    · have := honce b
      simp only [heq, if_true] at this hocc
      omega
    · have := honce b
      simp only [heq, if_true] at this hocc
      omega
  have hup : ∀ b, Context.up ctx = some b → b ≠ x ∧ b ≠ y ∧ B.root ≠ some b := by
    intro b hb
    cases ctx with
    | nil => cases hb
    | cons frame ctx =>
        cases hb
        have := honce frame.address
        simp only [Context.occurs, if_true] at this
        refine ⟨fun heq => ?_, fun heq => ?_, fun hroot => ?_⟩
        · simp only [heq, if_true] at this
          omega
        · simp only [heq, if_true] at this
          omega
        · have := occurs_of_root hroot
          omega
  -- the six links, one after the other
  obtain ⟨s1, hs1, hnext1, hroot1, hself1, hother1⟩ :=
    State.update_spec hx fun n => n.setLink d.opposite B.root
  obtain ⟨s2, hs2, hnext2, hroot2, hother2, hself2⟩ :=
    @State.setNodeUpIf_spec κ α s1 B.root (fun b hb => by
      obtain ⟨hbx, -, cell, hcell⟩ := hB b hb
      exact ⟨cell, (hother1 b hbx).trans hcell⟩) (some x)
  have hx2 : s2.cells x = some (.make d vx (Context.up ctx) A.root B.root) := by
    rw [hother2 x fun hb => (hB x hb).1 rfl, hself1, Cell.setLink_opposite_make]
  have hy2 : s2.cells y = some (.make d vy (some x) B.root C.root) := by
    rw [hother2 y fun hb => (hB y hb).2.1 rfl, hother1 y hxy.symm, hy]
    rfl
  obtain ⟨s3, hs3, hnext3, hroot3, hself3, hother3⟩ :=
    State.update_spec hy2 fun n => { n with up := Context.up ctx }
  obtain ⟨s4, hs4, hnext4, hroot4, hother4, hself4⟩ :=
    @State.relink_spec κ α s3 ctx d (some x) (fun frame ctx' hctx => by
      subst hctx
      obtain ⟨hux, huy, huB⟩ := hup frame.address rfl
      rw [hother3 _ huy, hother2 _ huB, hother1 _ hux]
      have hparent := h.focus.parent
      rw [root_join] at hparent
      refine ⟨hparent, fun hroot => ?_⟩
      have hocc := occurs_of_root hroot
      have := honce x
      simp only [Context.occurs, if_true] at this
      omega) (some y)
  have hy4 : s4.cells y = some (.make d vy (Context.up ctx) B.root C.root) := by
    rw [hother4 y fun hb => (hup y hb).2.1 rfl, hself3, Cell.setUp_make]
  obtain ⟨s5, hs5, hnext5, hroot5, hself5, hother5⟩ :=
    State.update_spec hy4 fun n => n.setLink d (some x)
  have hx5 : s5.cells x = some (.make d vx (Context.up ctx) A.root B.root) := by
    rw [hother5 x hxy, hother4 x fun hb => (hup x hb).1 rfl, hother3 x hxy, hx2]
  obtain ⟨s6, hs6, hnext6, hroot6, hself6, hother6⟩ :=
    State.update_spec hx5 fun n => { n with up := some y }
  refine ⟨s6, ?_, h.focus.rotate ?_ ?_ (fun b cell hb hcell => ?_) (fun b hbx hby hbB hbup => ?_)
    (fun frame ctx' hctx => ?_) ?_, ?_⟩
  · have hstep1 : s.setLinkMinus (some x) d B.root = some s1 := hs1
    have hstep3 : s2.setNodeUp (some y) (Context.up ctx) = some s3 := hs3
    have hstep5 : s4.setLinkPlus (some y) d (some x) = some s5 := hs5
    have hstep6 : s5.setNodeUp (some x) (some y) = some s6 := hs6
    simp only [State.rotatePlus, State.node, bind_eq_bind, bind_some, hx, hy, hx2,
      Cell.link_opposite_make, Cell.link_make, Cell.up_make, hstep1, hs2, hstep3, hs4, hstep5,
      hstep6]
  · rw [hself6, Cell.setUp_make]
  · rw [hother6 y hxy.symm, hself5, Cell.setLink_make]
  · obtain ⟨hbx, hby, -⟩ := hB b hb
    have hbup : Context.up ctx ≠ some b := fun hup' => (hup b hup').2.2 hb
    rw [hother6 b hbx, hother5 b hby, hother4 b hbup, hother3 b hby]
    exact hself2 b cell hb ((hother1 b hbx).trans hcell)
  · rw [hother6 b hbx, hother5 b hby, hother4 b hbup, hother3 b hby, hother2 b hbB, hother1 b hbx]
  · obtain ⟨hux, huy, -⟩ := hup frame.address (hctx ▸ rfl)
    rw [hother6 _ hux, hother5 _ huy]
    exact hself4 frame ctx' hctx
  · rw [hroot6, hroot5, hroot4, hroot3, hroot2, hroot1]
  · rw [hnext6, hnext5, hnext4, hnext3, hnext2, hnext1, h.next]

theorem View.rotateMinus (h : View region next s (join d x vx (join d y vy C B) A) ctx) :
    ∃ s', s.rotateMinus (some x) d = some s'
      ∧ View region next s' (join d y vy C (join d x vx B A)) ctx := by
  have hview : View region next s (join d.opposite x vx A (join d.opposite y vy B C)) ctx := by
    rw [join_opposite, join_opposite]
    exact h
  obtain ⟨s', hs', h'⟩ := hview.rotatePlus
  rw [join_opposite, join_opposite] at h'
  exact ⟨s', hs', h'⟩

end MitScheme.Rbtree
