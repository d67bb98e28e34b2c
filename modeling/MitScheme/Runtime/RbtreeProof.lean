import MitScheme.Runtime.RbtreeBalance

/-!
# What the procedures do to a tree

Searching for a key, putting in a new node and taking one out, at the place where the search ends,
and copying a tree: what comes out is balanced again, and what is in it.
-/

namespace MitScheme.Rbtree

open LinkedTrees LinkedTrees.BinTree
open Option (bind_eq_bind bind_some isSome_some)

variable {κ α : Type} {region : Region (Item κ α)} {next n : Nat} {s : State κ α}
  {t : BinTree (Item κ α)} {ctx k : Context (Item κ α)} {d : Side} {a x y z : Nat}
  {v : Item κ α} {c : Color} {near far l r : BinTree (Item κ α)}

theorem view_plug :
    View region next s (plug t k) ctx ↔ View region next s t (k ++ ctx) :=
  ⟨fun h => ⟨focus_plug.mp h.focus, h.next⟩, fun h => ⟨focus_plug.mpr h.focus, h.next⟩⟩

/-- All addresses that are used have been given out. -/
def Region.Bounded (region : Region (Item κ α)) (next : Nat) : Prop :=
  ∀ b, next ≤ b → region.footprint b = 0

theorem View.length_le (h : View region next s t ctx) (hbound : Region.Bounded region next) :
    t.size + ctx.length ≤ next := by
  refine (size_plug t ctx).trans (size_le (fun b => ?_) fun b hb => ?_)
  · rw [occurs_plug]
    exact h.focus.occurs_le b
  · have := h.focus.footprint (hbound b hb)
    rw [occurs_plug]
    omega

theorem Balanced.focus (h : Balanced (plug t ctx) .black n) :
    ∃ c n, Balanced t c n ∧ BalancedContext ctx c n := by
  induction ctx generalizing t with
  | nil => exact ⟨.black, n, h, .top⟩
  | cons frame ctx ih =>
      obtain ⟨c, n', ht, hctx⟩ := ih h
      rcases balanced_join.mp ht with
        ⟨hv, rfl, hnear, hfar⟩ | ⟨hv, rfl, m, rfl, ⟨cn, hnear⟩, cf, hfar⟩
      · exact ⟨.black, n', hnear, .red hv hfar hctx⟩
      · exact ⟨cn, m, hnear, .black hv hfar hctx⟩

/-! ## A new node -/

theorem State.linkNew_spec
    (hparent : ∀ frame ctx', ctx = frame :: ctx' → s.cells frame.address
      = some (.make frame.side frame.value (Context.up ctx') none frame.other.root)) (z : Link) :
    ∃ s', s.linkNew (Context.up ctx) (ctx.head?.map Frame.side) z = some s' ∧ s'.next = s.next
      ∧ s'.root = (if ctx = [] then z else s.root)
      ∧ (∀ b, Context.up ctx ≠ some b → s'.cells b = s.cells b)
      ∧ ∀ frame ctx', ctx = frame :: ctx' → s'.cells frame.address
        = some (.make frame.side frame.value (Context.up ctx') z frame.other.root) := by
  cases ctx with
  | nil => exact ⟨_, rfl, rfl, rfl, fun _ _ => rfl, fun frame ctx' h => nomatch h⟩
  | cons frame ctx =>
      obtain ⟨s', hs', hnext, hroot, hself, hother⟩ :=
        State.update_spec (hparent frame ctx rfl) fun n => n.setLink frame.side z
      rw [Cell.setLink_make] at hself
      refine ⟨s', ?_, hnext, hroot, fun b hb => hother b fun heq => hb (heq ▸ rfl), ?_⟩
      · rw [List.head?_cons, Option.map_some, Context.up_cons]
        cases hside : frame.side with
        | left | right =>
            rw [hside] at hs'
            exact hs'
      · intro frame' ctx' hctx
        cases hctx
        exact hself

theorem View.insertNew (h : View region next s leaf ctx) (hbound : Region.Bounded region (next + 1))
    (hfresh : Context.occurs ctx next = 0) (hroom : region.footprint next = 1)
    (hbal : Balanced (plug leaf ctx) .black n) (key : κ) (datum : α) :
    ∃ s' t', s.insertNew key datum (Context.up ctx) (ctx.head?.map Frame.side) = some s'
      ∧ View region (next + 1) s' t' []
      ∧ pairs t' = pairsBefore ctx ++ (key, datum) :: pairsAfter ctx
      ∧ ∃ n', Balanced t' .black n' := by
  have hne : ∀ b, 0 < Context.occurs ctx b → b ≠ next := fun b hb heq => by
    subst heq
    omega
  have hup : ∀ b, Context.up ctx = some b → b ≠ next := fun b hb =>
    hne b (Context.occurs_of_up hb)
  -- the new node, its links, and its color
  obtain ⟨s1, hs1, hnext1, hroot1, hself1, hother1⟩ : ∃ s1, s.makeNode key datum = (some next, s1)
      ∧ s1.next = next + 1 ∧ s1.root = s.root
      ∧ s1.cells next = some ⟨⟨key, datum, .unset⟩, none, none, none⟩
      ∧ ∀ b, b ≠ next → s1.cells b = s.cells b := by
    have hnext := h.next
    subst hnext
    exact ⟨_, rfl, rfl, rfl, Function.update_self .., fun b hb => Function.update_of_ne hb _ _⟩
  obtain ⟨s2, hs2, hnext2, hroot2, hself2, hother2⟩ :=
    State.update_spec hself1 fun cell => { cell with up := Context.up ctx }
  obtain ⟨s3, hs3, hnext3, hroot3, hother3, hparent3⟩ :=
    @State.linkNew_spec κ α s2 ctx (fun frame ctx' hctx => by
      subst hctx
      have hframe := hup frame.address rfl
      rw [hother2 _ hframe, hother1 _ hframe]
      exact h.focus.parent) (some next)
  have hnew : Focus region s3.cells s3.root (join .left next ⟨key, datum, .unset⟩ leaf leaf) ctx := by
    refine h.focus.replace ⟨?_, trivial, trivial⟩ (fun b => ?_) (fun b hb hb' => ?_)
      (fun frame ctx' hctx => hparent3 frame ctx' hctx) ?_ fun b hb => ?_
    · rw [hother3 next fun hup' => hup next hup' rfl, hself2]
      rfl
    · have := h.focus.occurs b
      rw [occurs_join, occurs_leaf]
      by_cases hb : next = b
      · subst hb
        rw [if_pos rfl]
        omega
      · rw [if_neg hb]
        omega
    · rw [hother3 b hb', hother2 b (hne b hb), hother1 b (hne b hb)]
    · rw [hroot3, hroot2, hroot1]
      rfl
    · have hbn : b ≠ next := fun heq => by
        subst heq
        omega
      have hbu : Context.up ctx ≠ some b := fun hup' => by
        have := (h.focus.footprint hb).2
        have := Context.occurs_of_up hup'
        omega
      rw [hother3 b hbu, hother2 b hbn, hother1 b hbn]
  have hview : View region (next + 1) s3 (join .left next ⟨key, datum, .unset⟩ leaf leaf) ctx :=
    ⟨hnew, hnext3.trans (hnext2.trans hnext1)⟩
  obtain ⟨s4, hs4, h4⟩ := hview.setNodeColor .red
  have hlength := h4.length_le hbound
  rw [size_join] at hlength
  -- a red node with two leaves is as high as the leaf that it replaces
  obtain ⟨c, m, hleaf, hctx⟩ := Balanced.focus hbal
  cases hleaf
  obtain ⟨s5, t5, hs5, h5, hpairs, hbal5⟩ :=
    insertFixup_spec h4 (.join_red rfl .leaf .leaf) hctx (by omega)
  refine ⟨s5, t5, ?_, h5, ?_, hbal5⟩
  · have hstep2 : s1.setNodeUp (some next) (Context.up ctx) = some s2 := hs2
    rw [root_join] at hs5
    simp only [State.insertNew, hs1, bind_eq_bind, bind_some, hstep2, hs3, hs4, hs5]
  · rw [hpairs, pairs_plug_eq]
    simp [join, pairs]

theorem View.extremeLoop (fuel : Nat) (h : View region next s t ctx) (hroot : t.root = some x)
    (hfuel : t.size ≤ fuel) :
    ∃ k a v far, s.extremeLoop d fuel (some x) = some (some a)
      ∧ t = plug (join d a v leaf far) k ∧ ∀ frame ∈ k, frame.side = d := by
  induction fuel generalizing t ctx x with
  | zero =>
      obtain ⟨v, near, far, rfl⟩ := eq_join hroot d
      rw [size_join] at hfuel
      omega
  | succ fuel ih =>
      obtain ⟨v, near, far, rfl⟩ := eq_join hroot d
      rw [root_join] at hroot
      rw [size_join] at hfuel
      cases hnear : near.root with
      | none =>
          refine ⟨[], x, v, far, ?_, by rw [eq_leaf hnear, plug], fun frame hf => nomatch hf⟩
          simp [State.extremeLoop, h.node, hnear]
      | some y =>
          obtain ⟨k, a, v', far', hloop, hk, hsides⟩ := ih (view_join.mp h) hnear (by omega)
          refine ⟨k ++ [⟨d, x, v, far⟩], a, v', far', ?_, ?_, fun frame hf => ?_⟩
          · simp only [State.extremeLoop, h.node, bind_eq_bind, bind_some,
              Cell.link_make, hnear, isSome_some, if_true, hloop]
          · rw [plug_append, ← hk]
            rfl
          · rcases List.mem_append.mp hf with hf | hf
            · exact hsides frame hf
            · rw [List.mem_singleton.mp hf]

/-! ## Taking out a node -/

theorem Cell.child_make {β : Type} (d : Side) (v : β) (up far : Link) :
    ((Cell.make d v up none far).left <|> (Cell.make d v up none far).right) = far := by
  cases d <;> cases far <;> rfl

theorem View.splice (h : View region next s (join d z v leaf far) ctx)
    (hbound : Region.Bounded region next)
    (hbal : Balanced (plug (join d z v leaf far) ctx) .black n) :
    ∃ s' t', s.splice (some z) = some s' ∧ View region next s' t' []
      ∧ pairs t' = pairs (plug far ctx) ∧ ∃ n', Balanced t' .black n' := by
  have honce := h.focus.occurs_le
  simp only [occurs_join, occurs_leaf] at honce
  have hz := h.focus.cell
  have hfar : ∀ b, far.root = some b → b ≠ z ∧ Context.occurs ctx b = 0 := by
    intro b hb
    have := occurs_of_root hb
    have := honce b
    refine ⟨fun heq => ?_, by omega⟩
    subst heq
    simp only [if_true] at this
    omega
  have hup : ∀ b, Context.up ctx = some b → b ≠ z ∧ far.root ≠ some b := by
    intro b hb
    have := Context.occurs_of_up hb
    refine ⟨fun heq => ?_, fun hroot => ?_⟩
    · subst heq
      have := honce b
      simp only [if_true] at this
      omega
    · have := (hfar b hroot).2
      omega
  obtain ⟨s1, hs1, hnext1, hroot1, hother1, hself1⟩ :=
    @State.setNodeUpIf_spec κ α s far.root (fun b hb => by
      obtain ⟨vb, l, r, rfl⟩ := eq_join hb .left
      exact ⟨_, (view_join_far.mp h).focus.cell⟩) (Context.up ctx)
  obtain ⟨s2, hs2, hnext2, hroot2, hother2, hparent2⟩ :=
    @State.relink_spec κ α s1 ctx .left (some z) (fun frame ctx' hctx => by
      subst hctx
      rw [hother1 _ (hup frame.address rfl).2]
      have hparent := h.focus.parent
      rw [root_join] at hparent
      refine ⟨hparent, fun hroot => ?_⟩
      have := occurs_of_root hroot
      have := honce z
      simp only [Context.occurs, if_true] at this
      omega) far.root
  have hz2 : s2.node (some z) = some (.make d v (Context.up ctx) none far.root) := by
    rw [State.node, bind_some, hother2 z fun hb => (hup z hb).1 rfl, hother1 z fun hb => (hfar z hb).1 rfl, hz]
    rfl
  have hview : View region next s2 far ctx := by
    refine ⟨h.focus.replace ?_ (fun b => ?_) (fun b hb hb' => ?_)
      (fun frame ctx' hctx => hparent2 frame ctx' hctx) ?_ fun b hb => ?_,
      hnext2.trans (hnext1.trans h.next)⟩
    · refine (view_join_far.mp h).focus.tree.setUp (fun b => ?_) (fun b hb hb' => ?_)
        fun b cell hb hcell => ?_
      · have := honce b
        omega
      · have := honce b
        rw [hother2 b fun hb'' => ?_, hother1 b hb']
        have := Context.occurs_of_up hb''
        omega
      · rw [hother2 b fun hb'' => (hup b hb'').2 hb]
        exact hself1 b cell hb hcell
    · have := h.focus.occurs b
      rw [occurs_join] at this
      omega
    · rw [hother2 b hb', hother1 b fun hroot => ?_]
      have := (hfar b hroot).2
      omega
    · rw [hroot2, hroot1]
    · obtain ⟨hocc, hctx⟩ := h.focus.footprint hb
      rw [occurs_join] at hocc
      rw [hother2 b fun hb' => ?_, hother1 b fun hroot => ?_]
      · have := occurs_of_root hroot
        omega
      · have := Context.occurs_of_up hb'
        omega
  have hlength := hview.length_le hbound
  obtain ⟨c, m, hjoin, hctx⟩ := Balanced.focus hbal
  have hnz := h.node
  rw [root_leaf] at hnz
  rcases balanced_join.mp hjoin with ⟨hv, rfl, hleaf, hfar'⟩ | ⟨hv, rfl, m', rfl, ⟨cl, hleaf⟩, cf, hfar'⟩
  · -- nobody misses a red node
    obtain ⟨n', hbal'⟩ := hctx.toBlack.plug hfar'
    refine ⟨s2, _, ?_, hview.top, rfl, n', hbal'⟩
    simp only [State.splice, hnz, bind_eq_bind, bind_some, Cell.child_make,
      Cell.up_make, hs1, hs2, hz2, Cell.value_make, hv, reduceCtorEq, if_false]
  · cases hleaf
    have hlacking : Lacking far 0 := by
      rcases hfar'.color_cases with rfl | rfl
      · obtain ⟨a, va, A, B, rfl, hva, hA, hB⟩ := hfar'.red_inv .left
        exact .inr ⟨.left, a, va, A, B, _, _, rfl, hva, hA, hB⟩
      · exact .inl hfar'
    obtain ⟨s3, t3, hs3, h3, hpairs, hbal3⟩ :=
      deleteFixupLoop_spec (next + 1) hview hlacking hctx (.inl (by omega))
    refine ⟨s3, t3, ?_, h3, hpairs, hbal3⟩
    have hfixup : s2.deleteFixup far.root (Context.up ctx) = some s3 := by
      rw [State.deleteFixup, hview.next, hs3]
    simp only [State.splice, hnz, bind_eq_bind, bind_some, Cell.child_make,
      Cell.up_make, hs1, hs2, hz2, Cell.value_make, hv, if_true, hfixup]

theorem Balanced.setItem {v' : Item κ α} (hcolor : v'.color = v.color)
    (h : Balanced (join d a v near far) c n) : Balanced (join d a v' near far) c n := by
  rcases balanced_join.mp h with ⟨hv, rfl, hnear, hfar⟩ | ⟨hv, rfl, m, rfl, ⟨cn, hnear⟩, cf, hfar⟩
  · exact .join_red (hcolor.trans hv) hnear hfar
  · exact .join_black (hcolor.trans hv) hnear hfar

theorem pairsBefore_left (hsides : ∀ frame ∈ k, frame.side = .left) : pairsBefore k = [] := by
  induction k with
  | nil => rfl
  | cons frame k ih =>
      rw [pairsBefore, ih fun frame hf => hsides frame (List.mem_cons_of_mem _ hf),
        hsides frame List.mem_cons_self]
      rfl

theorem pairsAfter_right (hsides : ∀ frame ∈ k, frame.side = .right) : pairsAfter k = [] := by
  induction k with
  | nil => rfl
  | cons frame k ih =>
      rw [pairsAfter, ih fun frame hf => hsides frame (List.mem_cons_of_mem _ hf),
        hsides frame List.mem_cons_self]
      rfl

theorem View.deleteNode (h : View region next s (.node z v l r) ctx)
    (hbound : Region.Bounded region next) (hbal : Balanced (plug (.node z v l r) ctx) .black n) :
    ∃ s' t', s.deleteNode (some z) = some s' ∧ View region next s' t' []
      ∧ pairs t' = (pairsBefore ctx ++ pairs l) ++ (pairs r ++ pairsAfter ctx)
      ∧ ∃ n', Balanced t' .black n' := by
  have hz : s.node (some z) = some ⟨v, Context.up ctx, l.root, r.root⟩ :=
    (show View region next s (join .left z v l r) ctx from h).node
  cases hl : l.root with
  | none =>
      rw [eq_leaf hl] at h hbal ⊢
      obtain ⟨s', t', hs', h', hpairs, hbal'⟩ := @View.splice κ α region next n s ctx .left z v r
        h hbound hbal
      refine ⟨s', t', ?_, h', ?_, hbal'⟩
      · simp [State.deleteNode, hz, hl, hs']
      · rw [hpairs, pairs_plug_eq, pairs, List.append_nil, List.append_assoc]
  | some yl =>
      cases hr : r.root with
      | none =>
          rw [eq_leaf hr] at h hbal ⊢
          obtain ⟨s', t', hs', h', hpairs, hbal'⟩ :=
            @View.splice κ α region next n s ctx .right z v l h hbound hbal
          refine ⟨s', t', ?_, h', ?_, hbal'⟩
          · simp [State.deleteNode, hz, hl, hr, hs']
          · rw [hpairs, pairs_plug_eq, pairs, List.nil_append]
      | some yr =>
          -- the next node gives its association to this one, and is taken out
          have hview : View region next s (join .left z v l r) ctx := h
          have hright := view_join_far.mp hview
          have hsize := hright.length_le hbound
          obtain ⟨k, y, vy, far, hloop, rfl, hsides⟩ :=
            @View.extremeLoop κ α region next s r _ .left yr s.next hright hr (by
              rw [h.next]
              omega)
          obtain ⟨s1, hs1, h1⟩ := hview.setNodeKey vy.key
          obtain ⟨s2, hs2, h2⟩ := h1.setNodeDatum vy.datum
          have hy := (view_plug.mp hright).node
          obtain ⟨c, m, hpart, hctx⟩ := Balanced.focus hbal
          obtain ⟨n', hbal2⟩ := hctx.plug (@Balanced.setItem κ α m .left z v c l _
            ⟨vy.key, vy.datum, v.color⟩ rfl hpart)
          obtain ⟨s3, t3, hs3, h3, hpairs, hbal3⟩ :=
            (view_plug.mp (view_join_far.mp h2)).splice hbound (by
              rw [plug_append]
              exact hbal2)
          refine ⟨s3, t3, ?_, h3, ?_, hbal3⟩
          · have hnext : s.nextNode (some z) = some (some y) := by
              simp only [State.nextNode, hz, bind_eq_bind, bind_some, hr,
                isSome_some, if_true, hloop]
            simp only [State.deleteNode, hz, bind_eq_bind, bind_some, hl, hr,
              isSome_some, Bool.and_self, if_true, hnext, hy, Cell.value_make, hs1, hs2, hs3]
          · rw [hpairs, plug_append, plug, pairs_plug_eq, Frame.fill]
            simp [join, pairs, pairs_plug_eq, pairsBefore_left hsides, Side.opposite]

end MitScheme.Rbtree
