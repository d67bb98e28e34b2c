import MitScheme.Runtime.WindProof

/-!
# Running winding thunks

Whatever programs do, the space stays a tree, and each translation that goes on finds its way. A
translation during which the thunks leave the root alone runs those of the points on the way, in order.
-/

namespace MitScheme.Wind

open List Option

variable {τ : Type} {nests nests' : List (List (Winder τ))} {s s' : State τ} {p q : Nat} {w : Winder τ}
  {nest xs around : List (Winder τ)} {t : τ} {c c' c'' : Config τ} {chain : List Nat} {goal : Goal τ}

/-! ## Any events -/

theorem getElem?_of_le (hle : nests <+: nests') (hp : nests[p]? = some nest) :
    nests'[p]? = some nest := by
  obtain ⟨rest, rfl⟩ := hle
  rw [List.getElem?_append_left (List.getElem?_eq_some_iff.mp hp).1]
  exact hp

theorem Adjacent.mono (h : Adjacent nests p q) (hle : nests <+: nests') : Adjacent nests' p q := by
  obtain ⟨w, nest, h⟩ := h
  exact ⟨w, nest, h.imp
    (fun h => ⟨getElem?_of_le hle h.1, getElem?_of_le hle h.2⟩)
    fun h => ⟨getElem?_of_le hle h.1, getElem?_of_le hle h.2⟩⟩

theorem Way.mono (h : Way nests chain) (hle : nests <+: nests') : Way nests' chain := by
  induction chain with
  | nil => trivial
  | cons p chain ih =>
      obtain ⟨hlt, hadjacent, hback, hrest⟩ := h
      exact ⟨hlt.trans_le hle.length_le, fun q hq => (hadjacent q hq).mono hle, hback, ih hrest⟩

/-- A translation is to end where its goal has it. -/
def Goal.Valid (target : Nat) : Goal τ → Prop
  | .done => True
  | .newPoint oldRoot _ _ => oldRoot = target

def Frame.Valid (nests : List (List (Winder τ))) : Frame τ → Prop
  | .before oldRoot _ _ => oldRoot < nests.length
  | .moving chain goal => ∃ target, Way nests chain ∧ chain.getLast? = some target ∧ goal.Valid target
  | .during oldRoot => oldRoot < nests.length

/-- The space is a tree, and all thunks may return. -/
structure Config.Sound (c : Config τ) : Prop where
  nested : Nested c.nests
  laid : ∃ around, Laid c.nests c.state around
  frames : ∀ f ∈ c.frames, f.Valid c.nests

theorem Frame.Valid.mono {f : Frame τ} (h : f.Valid nests) (hle : nests <+: nests') :
    f.Valid nests' := by
  cases f with
  | before _ _ _ | during _ => exact Nat.lt_of_lt_of_le h hle.length_le
  | moving chain goal =>
      obtain ⟨target, hway, hlast, hgoal⟩ := h
      exact ⟨target, hway.mono hle, hlast, hgoal⟩

theorem Config.Sound.lt (h : c.Sound) : c.state.nearestPoint < c.nests.length := by
  obtain ⟨around, hlaid⟩ := h.laid
  exact (List.getElem?_eq_some_iff.mp hlaid.root).1

theorem Config.Sound.length (h : c.Sound) : c.state.points.length = c.nests.length := by
  obtain ⟨around, hlaid⟩ := h.laid
  exact hlaid.length

theorem Config.Sound.withFrame (h : c.Sound) {f : Frame τ} (hf : f.Valid c.nests) :
    Config.Sound { c with frames := c.frames ++ [f] } := by
  refine ⟨h.nested, h.laid, fun g hg => ?_⟩
  rcases mem_append.mp hg with hg | hg
  · exact h.frames g hg
  · rw [mem_singleton.mp hg]
    exact hf

theorem Config.Sound.enter (h : c.Sound) (before after : τ) :
    ∃ c', c.enter c.state.nearestPoint before after = some c' ∧ c'.Sound ∧ c.nests <+: c'.nests := by
  obtain ⟨around, hlaid⟩ := h.laid
  obtain ⟨s', hs', hlaid'⟩ := hlaid.push h.nested before after
  have hle : c.nests <+: c.nests ++ [⟨c.nests.length, before, after⟩ :: around] :=
    prefix_append _ _
  refine ⟨⟨s', c.frames ++ [.during c.state.nearestPoint],
    c.nests ++ [⟨c.nests.length, before, after⟩ :: around]⟩, ?_,
    ⟨h.nested.push hlaid.root before after, ⟨_, hlaid'⟩, fun f hf => ?_⟩, hle⟩
  · simp only [Config.enter, hlaid.root, hs', bind_eq_bind, bind_some]
  · rcases mem_append.mp hf with hf | hf
    · exact (h.frames f hf).mono hle
    · rw [mem_singleton.mp hf]
      exact h.lt.trans_le hle.length_le

theorem Config.Sound.continue (h : c.Sound) {outcome : Outcome τ} {target : Nat}
    (houtcome : outcome.Towards c.nests target) (hgoal : goal.Valid target) :
    ∃ c', c.continue goal outcome = some c' ∧ c'.Sound ∧ c.nests <+: c'.nests := by
  cases outcome with
  | calls t s chain =>
      obtain ⟨hlaid, hway, -, hlast⟩ := houtcome
      have h' : Config.Sound { c with state := s } := ⟨h.nested, hlaid, h.frames⟩
      exact ⟨_, rfl, h'.withFrame ⟨target, hway, hlast, hgoal⟩, prefix_rfl⟩
  | returns s =>
      obtain ⟨hlaid, hnearest⟩ := houtcome
      have h' : Config.Sound { c with state := s } := ⟨h.nested, hlaid, h.frames⟩
      cases goal with
      | done => exact ⟨_, rfl, h', prefix_rfl⟩
      | newPoint oldRoot before after =>
          have hroot : oldRoot = s.nearestPoint := hgoal.trans hnearest.symm
          rw [hroot]
          exact h'.enter before after

theorem Config.Sound.translate (h : c.Sound) (hp : p < c.nests.length) (hgoal : goal.Valid p) :
    ∃ c', c.translate p goal = some c' ∧ c'.Sound ∧ c.nests <+: c'.nests := by
  obtain ⟨around, hlaid⟩ := h.laid
  obtain ⟨outcome, houtcome, htowards⟩ := hlaid.translateToStatePoint h.nested hp
  obtain ⟨c', hc', hsound⟩ := h.continue htowards hgoal
  refine ⟨c', ?_, hsound⟩
  rw [Config.translate, houtcome]
  exact hc'

theorem Config.Sound.perform (h : c.Sound) (event : Event τ) :
    ∃ c', c.perform event = some c' ∧ c'.Sound ∧ c.nests <+: c'.nests := by
  cases event with
  | translateToStatePoint point =>
      rw [Config.perform]
      by_cases hpoint : point < c.state.points.length
      · rw [if_pos hpoint]
        exact h.translate (h.length ▸ hpoint) trivial
      · rw [if_neg hpoint]
        exact ⟨c, rfl, h, prefix_rfl⟩
  | executeAtNewStatePoint before after => exact ⟨_, rfl, h.withFrame h.lt, prefix_rfl⟩
  | returns frame =>
      rw [Config.perform]
      cases hframe : c.frames[frame]? with
      | none => exact ⟨c, rfl, h, prefix_rfl⟩
      | some f =>
          have hvalid := h.frames f (mem_of_getElem? hframe)
          cases f with
          | before oldRoot before after =>
              dsimp only
              rw [Config.return]
              by_cases hroot : oldRoot = c.state.nearestPoint
              · rw [if_pos hroot, hroot]
                exact h.enter before after
              · rw [if_neg hroot]
                exact h.translate hvalid rfl
          | moving chain goal =>
              obtain ⟨target, hway, hlast, hgoal⟩ := hvalid
              obtain ⟨around, hlaid⟩ := h.laid
              obtain ⟨outcome, houtcome, htowards⟩ := hlaid.findRoot h.nested chain hway hlast
              dsimp only
              rw [Config.return, houtcome]
              exact h.continue htowards hgoal
          | during oldRoot => exact h.translate hvalid trivial

theorem Config.Sound.performAll (events : List (Event τ)) (h : c.Sound) :
    ∃ c', Config.performAll events c = some c' ∧ c'.Sound ∧ c.nests <+: c'.nests := by
  induction events generalizing c with
  | nil => exact ⟨c, rfl, h, prefix_rfl⟩
  | cons event events ih =>
      obtain ⟨c1, hc1, h1, hle1⟩ := h.perform event
      obtain ⟨c2, hc2, h2, hle2⟩ := ih h1
      refine ⟨c2, ?_, h2, hle1.trans hle2⟩
      rw [Config.performAll, hc1]
      exact hc2

theorem sound_start : (start : Config τ).Sound := by
  refine ⟨⟨rfl, fun p hp => ?_, fun p w nest hp => ?_⟩, ⟨[], rfl, rfl, rfl, fun xs w nest heq => ?_,
    fun p w nest hp => ?_⟩, nofun⟩
  · have := (List.getElem?_eq_some_iff.mp hp).1
    exact Nat.lt_one_iff.mp this
  · cases p <;> cases hp
  · cases xs <;> cases heq
  · cases p <;> cases hp

/-- A translation goes on until it returns, calling thunks, and each of them may return in another
configuration. -/
inductive Translates (behaves : τ → Config τ → Config τ → Prop) :
    Config τ → Outcome τ → List τ → Config τ → Prop
  | returns {c : Config τ} {s : State τ} : Translates behaves c (.returns s) [] { c with state := s }
  | calls {c c' c'' : Config τ} {t : τ} {s : State τ} {chain : List Nat} {outcome : Outcome τ}
      {ts : List τ}
      (hbehaves : behaves t { c with state := s, frames := c.frames ++ [.moving chain .done] } c')
      (hfind : c'.state.findRoot chain = some outcome)
      (hrest : Translates behaves c' outcome ts c'') :
      Translates behaves c (.calls t s chain) (t :: ts) c''

variable {behaves : τ → Config τ → Config τ → Prop} {outcome : Outcome τ} {ts us : List τ}

/-- The thunks use the space by its procedures only. -/
def UsesSpace (behaves : τ → Config τ → Config τ → Prop) : Prop :=
  ∀ t c c', behaves t c c' → ∃ events, Config.performAll events c = some c'

/-- The thunks leave the root where they found it, when they return. -/
def LeavesRoot (behaves : τ → Config τ → Config τ → Prop) : Prop :=
  ∀ t c c', behaves t c c' → c'.state.nearestPoint = c.state.nearestPoint

theorem UsesSpace.sound (huses : UsesSpace behaves) (h : c.Sound) (hbehaves : behaves t c c') :
    c'.Sound ∧ c.nests <+: c'.nests := by
  obtain ⟨events, hevents⟩ := huses t c c' hbehaves
  obtain ⟨c1, hc1, h1, hle⟩ := h.performAll events
  rw [hevents] at hc1
  cases hc1
  exact ⟨h1, hle⟩

theorem Config.Sound.calls (h : c.Sound) {target : Nat}
    (htowards : (Outcome.calls t s chain).Towards c.nests target) :
    Config.Sound { c with state := s, frames := c.frames ++ [.moving chain .done] } := by
  obtain ⟨hlaid, hway, -, hlast⟩ := htowards
  have h' : Config.Sound { c with state := s } := ⟨h.nested, hlaid, h.frames⟩
  exact h'.withFrame ⟨target, hway, hlast, trivial⟩

theorem Translates.nearestPoint {target : Nat} (huses : UsesSpace behaves)
    (htranslates : Translates behaves c outcome ts c'') (h : c.Sound)
    (htowards : outcome.Towards c.nests target) : c''.state.nearestPoint = target := by
  induction htranslates with
  | returns => exact htowards.2
  | calls hbehaves hfind hrest ih =>
      obtain ⟨hsound, hle⟩ := huses.sound (h.calls htowards) hbehaves
      obtain ⟨-, hway, -, hlast⟩ := htowards
      obtain ⟨around, hlaid⟩ := hsound.laid
      obtain ⟨outcome, houtcome, htowards'⟩ :=
        hlaid.findRoot hsound.nested _ (hway.mono hle) hlast
      rw [hfind] at houtcome
      cases houtcome
      exact ih hsound htowards'

/-! ## The thunks on the way -/

/-- The thunks on the way from a point with some winders to one with others: the `after` thunks of the
points that are left, innermost first, and then the `before` thunks of those that are entered, outermost
first. -/
def thunksBetween (around nest : List (Winder τ)) : List τ :=
  (around.filter fun w => w.point ∉ nest.map Winder.point).map Winder.after
    ++ ((nest.filter fun w => w.point ∉ around.map Winder.point).map Winder.before).reverse

/-- The points on a way that starts at a point with some winders, and the thunks that are called. -/
inductive Route (nests : List (List (Winder τ))) : List (Winder τ) → List Nat → List τ → Prop
  | done {nest : List (Winder τ)} : Route nests nest [] []
  | leave {w : Winder τ} {nest : List (Winder τ)} {chain : List Nat} {ts : List τ}
      (hrest : Route nests nest chain ts) :
      Route nests (w :: nest) (pointOf nest :: chain) (w.after :: ts)
  | enter {w : Winder τ} {nest : List (Winder τ)} {chain : List Nat} {ts : List τ}
      (hinner : nests[w.point]? = some (w :: nest))
      (hrest : Route nests (w :: nest) chain ts) :
      Route nests nest (w.point :: chain) (w.before :: ts)

theorem Route.traverse (hn : Nested nests) (h : Laid nests s around)
    (hroute : Route nests around chain ts) :
    (chain = [] ∧ ts = []) ∨ ∃ t s' p chain' ts' around', chain = p :: chain' ∧ ts = t :: ts'
      ∧ s.traverseChain s.nearestPoint chain = some (.calls t s' chain) ∧ Laid nests s' around'
      ∧ s'.nearestPoint = p ∧ Route nests around' chain' ts' := by
  cases hroute with
  | done => exact .inl ⟨rfl, rfl⟩
  | @leave w nest chain ts hrest =>
      obtain ⟨s', hs', hlaid, hnearest⟩ := h.leave hn
      refine .inr ⟨w.after, s', _, chain, ts, nest, rfl, rfl, ?_, hlaid, hnearest, hrest⟩
      rw [State.traverseChain, hs']
      rfl
  | @enter w nest chain ts hinner hrest =>
      obtain ⟨s', hs', hlaid, hnearest⟩ := h.enter hn hinner
      refine .inr ⟨w.before, s', _, chain, ts, _, rfl, rfl, ?_, hlaid, hnearest, hrest⟩
      rw [State.traverseChain, hs']
      rfl

theorem Route.mono (h : Route nests around chain ts) (hle : nests <+: nests') :
    Route nests' around chain ts := by
  induction h with
  | done => exact .done
  | leave _ ih => exact .leave ih
  | enter hinner _ ih => exact .enter (getElem?_of_le hle hinner) ih

theorem Laid.findRoot_nearest (h : Laid nests s around) (chain : List Nat) :
    s.findRoot (s.nearestPoint :: chain) = s.traverseChain s.nearestPoint chain := by
  rw [State.findRoot, h.nearest]
  rfl

theorem Route.returned {target : Nat} (huses : UsesSpace behaves) (hleaves : LeavesRoot behaves)
    (h : c.Sound) (htowards : (Outcome.calls t s (s.nearestPoint :: chain)).Towards c.nests target)
    (hlaid : Laid c.nests s around) (hroute : Route c.nests around chain ts)
    (hbehaves : behaves t
      { c with state := s, frames := c.frames ++ [.moving (s.nearestPoint :: chain) .done] } c') :
    c'.Sound ∧ Laid c'.nests c'.state around ∧ Route c'.nests around chain ts
      ∧ ∃ outcome, c'.state.findRoot (s.nearestPoint :: chain) = some outcome
        ∧ c'.state.traverseChain c'.state.nearestPoint chain = some outcome
        ∧ outcome.Towards c'.nests target := by
  obtain ⟨hsound, hle⟩ := huses.sound (h.calls htowards) hbehaves
  have hroot : c'.state.nearestPoint = s.nearestPoint := hleaves t _ _ hbehaves
  obtain ⟨around', hlaid'⟩ := hsound.laid
  have hsame : around' = around := by
    have hold := getElem?_of_le hle hlaid.root
    have hnew := hlaid'.root
    rw [hroot, hold] at hnew
    exact (Option.some.inj hnew).symm
  subst hsame
  obtain ⟨-, hway, -, hlast⟩ := htowards
  obtain ⟨outcome, houtcome, htowards'⟩ :=
    hlaid'.findRoot hsound.nested _ (hway.mono hle) hlast
  refine ⟨hsound, hlaid', hroute.mono hle, outcome, houtcome, ?_, htowards'⟩
  rw [← hlaid'.findRoot_nearest, hroot]
  exact houtcome

theorem Route.thunks {target : Nat} (huses : UsesSpace behaves) (hleaves : LeavesRoot behaves)
    (h : c.Sound) (hlaid : Laid c.nests c.state around) (hroute : Route c.nests around chain ts)
    (houtcome : c.state.traverseChain c.state.nearestPoint chain = some outcome)
    (htowards : outcome.Towards c.nests target) (htranslates : Translates behaves c outcome us c'') :
    us = ts := by
  induction ts generalizing c around chain outcome us with
  | nil =>
      rcases hroute.traverse h.nested hlaid with ⟨rfl, -⟩ | ⟨t, s', p, chain', ts', around', -, hts, -⟩
      · cases houtcome
        cases htranslates
        rfl
      · cases hts
  | cons t ts ih =>
      rcases hroute.traverse h.nested hlaid with ⟨-, hts⟩
        | ⟨t, s', p, chain', ts', around', rfl, hts, hcalls, hlaid', rfl, hroute'⟩
      · cases hts
      · cases hts
        rw [houtcome] at hcalls
        cases hcalls
        cases htranslates with
        | calls hbehaves hfind hrest =>
            obtain ⟨hsound, hlaid1, hroute1, outcome1, hfind1, htraverse1, htowards1⟩ :=
              Route.returned huses hleaves h htowards hlaid' hroute' hbehaves
            rw [hfind] at hfind1
            cases hfind1
            rw [ih hsound hlaid1 hroute1 htraverse1 htowards1 hrest]

theorem Route.ends {target : Nat} (huses : UsesSpace behaves) (hleaves : LeavesRoot behaves)
    (hreturn : ∀ t c, Config.Sound c → ∃ c', behaves t c c')
    (h : c.Sound) (hlaid : Laid c.nests c.state around) (hroute : Route c.nests around chain ts)
    (houtcome : c.state.traverseChain c.state.nearestPoint chain = some outcome)
    (htowards : outcome.Towards c.nests target) : ∃ us c'', Translates behaves c outcome us c'' := by
  induction ts generalizing c around chain outcome with
  | nil =>
      rcases hroute.traverse h.nested hlaid with ⟨rfl, -⟩ | ⟨t, s', p, chain', ts', around', -, hts, -⟩
      · cases houtcome
        exact ⟨[], _, .returns⟩
      · cases hts
  | cons t ts ih =>
      rcases hroute.traverse h.nested hlaid with ⟨-, hts⟩
        | ⟨t, s', p, chain', ts', around', rfl, hts, hcalls, hlaid', rfl, hroute'⟩
      · cases hts
      · cases hts
        rw [houtcome] at hcalls
        cases hcalls
        obtain ⟨c1, hbehaves⟩ := hreturn t _ (h.calls htowards)
        obtain ⟨hsound, hlaid1, hroute1, outcome1, hfind1, htraverse1, htowards1⟩ :=
          Route.returned huses hleaves h htowards hlaid' hroute' hbehaves
        obtain ⟨us, c'', hrest⟩ := ih hsound hlaid1 hroute1 htraverse1 htowards1
        exact ⟨t :: us, c'', .calls hbehaves hfind1 hrest⟩

/-! ## The route to a point -/

/-- The points that become the root while points are left. -/
def leavePoints : List (Winder τ) → List (Winder τ) → List Nat
  | [], _ => []
  | _ :: left, rest => pointOf (left ++ rest) :: leavePoints left rest

theorem leavePoints_concat (left rest : List (Winder τ)) (w : Winder τ) :
    leavePoints (left ++ [w]) rest = leavePoints left (w :: rest) ++ [pointOf rest] := by
  induction left with
  | nil => rfl
  | cons v left ih =>
      rw [cons_append, leavePoints, ih, append_assoc]
      rfl

variable {left entered rest : List (Winder τ)}

theorem Route.leaveAll (h : Route nests rest chain ts) (left : List (Winder τ)) :
    Route nests (left ++ rest) (leavePoints left rest ++ chain) (left.map Winder.after ++ ts) := by
  induction left with
  | nil => exact h
  | cons w left ih => exact .leave ih

theorem route_enterAll (hn : Nested nests) (hp : nests[p]? = some (entered ++ rest)) :
    Route nests rest (entered.map Winder.point).reverse (entered.map Winder.before).reverse := by
  induction entered using List.reverseRecOn generalizing rest with
  | nil => exact .done
  | append_singleton entered w ih =>
      rw [append_assoc] at hp
      rw [map_append, map_append, reverse_append, reverse_append]
      exact .enter (hn.winder hp) (ih hp)

theorem findNearest_outwards (hn : Nested nests) (h : Laid nests s around) (fuel : Nat)
    (hp : nests[pointOf (entered ++ rest)]? = some (entered ++ rest))
    (hnot : ∀ xs w ys, entered = xs ++ w :: ys → ¬ w :: (ys ++ rest) <:+ around) :
    findNearest s.points (fuel + entered.length) (pointOf (entered ++ rest)) chain
      = findNearest s.points fuel (pointOf rest) ((entered.map Winder.point).reverse ++ chain) := by
  induction entered generalizing chain with
  | nil => rfl
  | cons w entered ih =>
      have hpoint : s.points[pointOf (w :: entered ++ rest)]?
          = some ⟨some (pointOf (entered ++ rest)), .thunk w.after, .thunk w.before⟩ :=
        h.outwards _ w _ hp (hnot [] w entered rfl)
      have houter := (hn.outer _ w _ hp).2.1
      rw [length_cons, ← Nat.add_assoc, findNearest, hpoint]
      simp only [bind_eq_bind, bind_some]
      rw [ih houter fun xs v ys hys => hnot (w :: xs) v ys (by rw [hys]; rfl), map_cons,
        reverse_cons, append_assoc]
      rfl

theorem findNearest_inwards (h : Laid nests s (left ++ rest)) (hn : Nested nests) (fuel : Nat)
    (hfuel : left.length < fuel) :
    findNearest s.points fuel (pointOf rest) chain
      = some (s.nearestPoint, leavePoints left rest ++ chain) := by
  induction left using List.reverseRecOn generalizing fuel rest chain with
  | nil =>
      obtain ⟨fuel, rfl⟩ := Nat.exists_eq_add_of_lt hfuel
      rw [nil_append] at h
      rw [hn.pointOf h.root, length_nil, findNearest, h.nearest]
      rfl
  | append_singleton left w ih =>
      rw [length_append, length_singleton] at hfuel
      obtain ⟨fuel, rfl⟩ := Nat.exists_eq_add_of_lt (Nat.zero_lt_of_lt hfuel)
      rw [append_assoc] at h
      have hpoint := h.inwards left w rest rfl
      rw [Nat.zero_add, findNearest, hpoint, leavePoints_concat, append_assoc]
      have hnext : Laid nests s (left ++ w :: rest) := h
      exact ih hnext fuel (by omega)

/-! ## Where two ways meet -/

theorem Nested.suffix_of_mem (hn : Nested nests) (hp : nests[p]? = some around)
    (hq : nests[q]? = some (w :: nest)) (hmem : w.point ∈ around.map Winder.point) :
    w :: nest <:+ around := by
  obtain ⟨u, hu, hpoint⟩ := List.mem_map.mp hmem
  obtain ⟨xs, ys, rfl⟩ := append_of_mem hu
  have hsame := hn.winder hp
  rw [hpoint, (hn.outer q w nest hq).1, hq] at hsame
  rw [Option.some.inj hsame]
  exact suffix_append xs (u :: ys)

theorem Nested.meet (hn : Nested nests) (hp : nests[p]? = some around) (hq : nests[q]? = some nest) :
    ∃ left entered rest, around = left ++ rest ∧ nest = entered ++ rest
      ∧ (∀ v ∈ left, v.point ∉ nest.map Winder.point)
      ∧ ∀ v ∈ entered, v.point ∉ around.map Winder.point := by
  induction nest generalizing q with
  | nil => exact ⟨around, [], [], (append_nil around).symm, rfl, fun v _ => not_mem_nil, nofun⟩
  | cons w nest ih =>
      by_cases hsuffix : w :: nest <:+ around
      · obtain ⟨left, rfl⟩ := hsuffix
        refine ⟨left, [], w :: nest, rfl, rfl, fun v hv hmem => ?_, nofun⟩
        obtain ⟨xs, ys, rfl⟩ := append_of_mem hv
        rw [append_assoc, cons_append] at hp
        have hlen := (hn.suffix_of_mem hq (hn.winder hp) hmem).length_le
        rw [length_cons, length_append] at hlen
        omega
      · have houter := (hn.outer q w nest hq).2.1
        obtain ⟨left, entered, rest, haround, hnest, hleft, hentered⟩ := ih houter
        have hw : w.point ∉ around.map Winder.point := fun hmem =>
          hsuffix (hn.suffix_of_mem hp hq hmem)
        refine ⟨left, w :: entered, rest, haround, by rw [hnest]; rfl, fun v hv hmem => ?_,
          fun v hv => ?_⟩
        · rw [map_cons, mem_cons] at hmem
          rcases hmem with heq | hmem
          · rw [← heq] at hw
            exact hw (List.mem_map_of_mem (haround ▸ mem_append_left rest hv))
          · exact hleft v hv hmem
        · rcases mem_cons.mp hv with rfl | hv
          · exact hw
          · exact hentered v hv

theorem thunksBetween_append (hleft : ∀ v ∈ left, v.point ∉ (entered ++ rest).map Winder.point)
    (hentered : ∀ v ∈ entered, v.point ∉ (left ++ rest).map Winder.point) :
    thunksBetween (left ++ rest) (entered ++ rest)
      = left.map Winder.after ++ (entered.map Winder.before).reverse := by
  have hkeep : ∀ xs ys : List (Winder τ), (∀ v ∈ xs, v.point ∉ (ys ++ rest).map Winder.point) →
      (xs ++ rest).filter (fun v => v.point ∉ (ys ++ rest).map Winder.point) = xs := by
    intro xs ys hxs
    rw [filter_append, filter_eq_self.mpr fun v hv => decide_eq_true (hxs v hv),
      filter_eq_nil_iff.mpr, append_nil]
    intro v hv hnot
    exact of_decide_eq_true hnot (List.mem_map_of_mem (mem_append_right ys hv))
  rw [thunksBetween, hkeep left entered hleft, hkeep entered left hentered]

theorem Laid.route (hn : Nested nests) (h : Laid nests s around) (hp : nests[p]? = some nest) :
    ∃ chain, s.translateToStatePoint p = s.traverseChain s.nearestPoint chain
      ∧ Route nests around chain (thunksBetween around nest) := by
  obtain ⟨left, entered, rest, rfl, rfl, hleft, hentered⟩ := hn.meet h.root hp
  have hpoint := hn.pointOf hp
  have hnot : ∀ xs v ys, entered = xs ++ v :: ys → ¬ v :: (ys ++ rest) <:+ left ++ rest := by
    intro xs v ys heq hsuffix
    refine hentered v (heq ▸ mem_append_right xs mem_cons_self) ?_
    exact List.mem_map_of_mem (hsuffix.subset mem_cons_self)
  have hlong : left.length + entered.length < 2 * s.points.length + 1 := by
    have hroot := hn.length_le h.root
    have htarget := hn.length_le hp
    have hroot' := (List.getElem?_eq_some_iff.mp h.root).1
    have htarget' := (List.getElem?_eq_some_iff.mp hp).1
    rw [length_append] at hroot htarget
    rw [h.length]
    omega
  obtain ⟨fuel, hfuel⟩ := Nat.exists_eq_add_of_lt hlong
  have hfind : findNearest s.points (2 * s.points.length + 1) p []
      = some (s.nearestPoint, leavePoints left rest ++ (entered.map Winder.point).reverse) := by
    have heq : 2 * s.points.length + 1 = (left.length + fuel + 1) + entered.length := by omega
    rw [heq, ← hpoint, findNearest_outwards hn h _ (hpoint.symm ▸ hp) hnot, append_nil]
    exact findNearest_inwards h hn _ (by omega)
  refine ⟨leavePoints left rest ++ (entered.map Winder.point).reverse, ?_, ?_⟩
  · simp only [State.translateToStatePoint, State.findAndTraverse, hfind, h.nearest,
      bind_eq_bind, bind_some]
  · rw [thunksBetween_append hleft hentered]
    exact (route_enterAll hn hp).leaveAll left

theorem Laid.findNearest (hn : Nested nests) (h : Laid nests s around) (hp : p < nests.length) :
    ∃ chain, Wind.findNearest s.points (2 * s.points.length + 1) p [] = some (s.nearestPoint, chain) := by
  have hnest := List.getElem?_eq_getElem hp
  have hway : Way nests [p] := ⟨hp, nofun, nofun, trivial⟩
  obtain ⟨ys, hys, -⟩ := findNearest_spec hn h _ hway nofun hnest (hn.fuel h hnest)
  exact ⟨_, hys⟩

/-- Whatever is done to a space, it stays a tree with one root to which all pointers lead, and in which
each point keeps its thunks. A translation that returns has made its point the root. If the thunks leave
the root where they found it, it has called those of the points left and of the points entered. -/
theorem translations_run_thunks (events : List (Event τ)) :
    ∃ c, Config.performAll events start = some c
      ∧ (∃ around, Laid c.nests c.state around)
      ∧ (∀ more, ∃ c', Config.performAll more c = some c' ∧ c.nests <+: c'.nests)
      ∧ (∀ p < c.state.points.length,
        (c.state.nearer p = none ↔ p = c.state.nearestPoint)
          ∧ ∃ chain, findNearest c.state.points (2 * c.state.points.length + 1) p []
            = some (c.state.nearestPoint, chain))
      ∧ ∀ behaves, UsesSpace behaves → ∀ p < c.state.points.length,
        ∃ around nest outcome, c.nests[c.state.nearestPoint]? = some around ∧ c.nests[p]? = some nest
          ∧ c.state.translateToStatePoint p = some outcome
          ∧ (∀ ts c', Translates behaves c outcome ts c' → c'.state.nearestPoint = p)
          ∧ (LeavesRoot behaves →
            (∀ ts c', Translates behaves c outcome ts c' → ts = thunksBetween around nest)
              ∧ ((∀ t c, Config.Sound c → ∃ c', behaves t c c') →
                ∃ ts c', Translates behaves c outcome ts c')) := by
  obtain ⟨c, hc, hsound, -⟩ := Config.Sound.performAll events sound_start
  obtain ⟨around, hlaid⟩ := hsound.laid
  refine ⟨c, hc, ⟨around, hlaid⟩, fun more => ?_, fun p hp => ⟨⟨?_, ?_⟩, ?_⟩,
    fun behaves huses p hp => ?_⟩
  · obtain ⟨c', hc', -, hle⟩ := hsound.performAll more
    exact ⟨c', hc', hle⟩
  · exact hlaid.nearer_eq_none hsound.nested (hsound.length ▸ hp)
  · intro hroot
    rw [hroot]
    exact hlaid.nearer_root
  · exact hlaid.findNearest hsound.nested (hsound.length ▸ hp)
  · have hp' : p < c.nests.length := hsound.length ▸ hp
    have hnest := List.getElem?_eq_getElem hp'
    obtain ⟨outcome, houtcome, htowards⟩ := hlaid.translateToStatePoint hsound.nested hp'
    obtain ⟨chain, hchain, hroute⟩ := hlaid.route hsound.nested hnest
    have htraverse := hchain.symm.trans houtcome
    refine ⟨around, _, outcome, hlaid.root, hnest, houtcome, fun ts c' htranslates => ?_,
      fun hleaves => ⟨fun ts c' htranslates => ?_, fun hreturn => ?_⟩⟩
    · exact htranslates.nearestPoint huses hsound htowards
    · exact hroute.thunks huses hleaves hsound hlaid htraverse htowards htranslates
    · exact hroute.ends huses hleaves hreturn hsound hlaid htraverse htowards

end MitScheme.Wind
