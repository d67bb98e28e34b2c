import MitScheme.Compiler.RlifeProof
import Mathlib.Algebra.Ring.Int.Defs

/-!
# Deletions are invisible

A machine that executes flow graphs, and what the deleted instructions would have done to it:
nothing but assign to a register that is not live. That is not so for an assignment whose
source allocates storage, or asks for the overflow of a fixnum operation. Such a source is
not volatile for `rtl:volatile-expression?`, and its effect is deleted with it.
-/

namespace MitScheme.Rtl

open List Function

variable {n : Nat} {W M : Type}

/-! ## The machine -/

/-- Whether the machine has another state after the evaluation of an expression of this type:
after a push or pop, when storage was allocated, and when the overflow is asked for. -/
def hasEffect : ExpressionType → Bool
  | .preIncrement => true
  | .postIncrement => true
  | .consClosure => true
  | .consMulticlosure => true
  | .floatToObject => true
  | .fixnum1Arg overflowP => overflowP
  | .fixnum2Args overflowP => overflowP
  | .flonum1Arg overflowP => overflowP
  | .flonum2Args overflowP => overflowP
  | _ => false

/-- A machine, whose states have the stack, the memory and the machine registers. -/
structure Machine (W M : Type) where
  register : M → Nat → W
  setRegister : M → Nat → W → M
  constant : Atom → W
  value : ExpressionType → List Atom → List W → M → W
  effect : ExpressionType → List Atom → List W → M → M
  store : ExpressionType → List Atom → List W → W → M → M
  statement : StatementType → List Atom → List W → M → M
  test : PredicateType → List Atom → List W → M → Bool
  effect_eq : ∀ {type} atoms values m, hasEffect type = false → effect type atoms values m = m

/-- The pseudo registers, and the state of the machine. -/
structure Registers (W M : Type) where
  pseudo : Nat → W
  machine : M

mutual

/-- The value of an expression, and the state after it. -/
def Expression.eval (n : Nat) (μ : Machine W M) (pseudo : Nat → W) : Expression → M → W × M
  | .register number, m =>
      (if pseudoRegisterP n number then pseudo number else μ.register m number, m)
  | .constant value, m => (μ.constant value, m)
  | .compound type atoms subexpressions, m =>
      let (values, m) := evalAll n μ pseudo subexpressions m
      (μ.value type atoms values m, μ.effect type atoms values m)

def evalAll (n : Nat) (μ : Machine W M) (pseudo : Nat → W) : List Expression → M → List W × M
  | [], m => ([], m)
  | e :: es, m =>
      let (value, m) := e.eval n μ pseudo m
      let (values, m) := evalAll n μ pseudo es m
      (value :: values, m)

end

/-- An instruction is executed. A predicate sets the flag that decides between successors. -/
def Rtl.execute (n : Nat) (μ : Machine W M) (s : Registers W M) (flag : Bool) :
    Rtl → Registers W M × Bool
  | .assign (.register number) expression =>
      let (value, m) := expression.eval n μ s.pseudo s.machine
      if pseudoRegisterP n number then (⟨Function.update s.pseudo number value, m⟩, flag)
      else ({ s with machine := μ.setRegister m number value }, flag)
  | .assign (.compound type atoms subexpressions) expression =>
      let (value, m) := expression.eval n μ s.pseudo s.machine
      let (values, m) := evalAll n μ s.pseudo subexpressions m
      ({ s with machine := μ.store type atoms values value m }, flag)
  | .assign (.constant _) expression =>
      ({ s with machine := (expression.eval n μ s.pseudo s.machine).2 }, flag)
  | .statement type atoms subexpressions =>
      let (values, m) := evalAll n μ s.pseudo subexpressions s.machine
      ({ s with machine := μ.statement type atoms values m }, flag)
  | .predicate type atoms subexpressions =>
      let (values, m) := evalAll n μ s.pseudo subexpressions s.machine
      ({ s with machine := m }, μ.test type atoms values m)

def executeAll (n : Nat) (μ : Machine W M) : List Rinst → Registers W M → Bool →
    Registers W M × Bool
  | [], s, flag => (s, flag)
  | rinst :: rinsts, s, flag =>
      let (s, flag) := rinst.rtl.execute n μ s flag
      executeAll n μ rinsts s flag

def Next.select (flag : Bool) : Next → Option Nat
  | .sblock next => next
  | .pblock consequent alternative => if flag then consequent else alternative

/-- A block is executed, and the next one is entered. -/
def advance (n : Nat) (μ : Machine W M) (g : Rgraph) (s : Nat × Registers W M) :
    Option (Nat × Registers W M) :=
  let (s', flag) := executeAll n μ (g.instructions s.1) s.2 false
  ((g.next s.1).select flag).map fun b => (b, s')

/-- Where the execution is after so many blocks. -/
def runFor (n : Nat) (μ : Machine W M) (g : Rgraph) :
    Nat → Nat × Registers W M → Option (Nat × Registers W M)
  | 0, s => some s
  | k + 1, s => (advance n μ g s).bind (runFor n μ g k)

/-! ## Expressions -/

mutual

theorem Expression.eval_congr {μ : Machine W M} {pseudo pseudo' : Nat → W} :
    ∀ {e : Expression}, (∀ r ∈ e.pseudoRegisters n, pseudo r = pseudo' r) → ∀ m,
      e.eval n μ pseudo m = e.eval n μ pseudo' m
  | .register number, h, m => by
      unfold Expression.eval
      cases hp : pseudoRegisterP n number with
      | false => rfl
      | true =>
          rw [if_pos rfl, if_pos rfl, h number]
          simp [Expression.pseudoRegisters, hp]
  | .constant value, _, m => rfl
  | .compound type atoms subexpressions, h, m => by
      have hall : ∀ r ∈ pseudoRegistersOf n subexpressions, pseudo r = pseudo' r := h
      unfold Expression.eval
      rw [evalAll_congr hall]

theorem evalAll_congr {μ : Machine W M} {pseudo pseudo' : Nat → W} :
    ∀ {es : List Expression}, (∀ r ∈ pseudoRegistersOf n es, pseudo r = pseudo' r) → ∀ m,
      evalAll n μ pseudo es m = evalAll n μ pseudo' es m
  | [], _, m => rfl
  | e :: es, h, m => by
      have hes : ∀ r ∈ pseudoRegistersOf n es, pseudo r = pseudo' r := fun r hr =>
        h r (mem_append_right _ hr)
      unfold evalAll
      rw [Expression.eval_congr (e := e) fun r hr => h r (mem_append_left _ hr)]
      dsimp only
      rw [evalAll_congr hes]

end

mutual

/-- No part of the expression has an effect. -/
def Expression.effectFree : Expression → Bool
  | .register _ => true
  | .constant _ => true
  | .compound type _ subexpressions => !hasEffect type && allEffectFree subexpressions

def allEffectFree : List Expression → Bool
  | [] => true
  | e :: es => e.effectFree && allEffectFree es

end

mutual

theorem Expression.eval_effectFree {μ : Machine W M} {pseudo : Nat → W} :
    ∀ {e : Expression}, e.effectFree = true → ∀ m, (e.eval n μ pseudo m).2 = m
  | .register number, _, m => rfl
  | .constant value, _, m => rfl
  | .compound type atoms subexpressions, h, m => by
      simp only [Expression.effectFree, Bool.and_eq_true, Bool.not_eq_true'] at h
      unfold Expression.eval
      dsimp only
      rw [μ.effect_eq _ _ _ h.1, evalAll_effectFree h.2]

theorem evalAll_effectFree {μ : Machine W M} {pseudo : Nat → W} :
    ∀ {es : List Expression}, allEffectFree es = true → ∀ m, (evalAll n μ pseudo es m).2 = m
  | [], _, m => rfl
  | e :: es, h, m => by
      simp only [allEffectFree, Bool.and_eq_true] at h
      unfold evalAll
      dsimp only
      rw [evalAll_effectFree h.2, Expression.eval_effectFree h.1]

end

/-! ## Instructions -/

/-- The states agree on all but the registers that are not live. -/
structure Agree (live : Finset Nat) (s s' : Registers W M) : Prop where
  machine : s.machine = s'.machine
  pseudo : ∀ r ∈ live, s.pseudo r = s'.pseudo r

variable {live : Finset Nat} {s s' : Registers W M} {b : Nat} {g : Rgraph} {l : Lifetimes}

theorem Agree.subset {live' : Finset Nat} (h : Agree live s s')
    (hsub : live' ⊆ live) : Agree live' s s' :=
  ⟨h.machine, fun r hr => h.pseudo r (hsub hr)⟩

theorem Agree.execute {live : Finset Nat} {μ : Machine W M} {s s' : Registers W M} {rtl : Rtl}
    (hmachine : s.machine = s'.machine) (huses : ∀ r ∈ rtl.uses n, s.pseudo r = s'.pseudo r)
    (hlive : ∀ r ∈ live, r ∉ markSetRegisters n rtl → s.pseudo r = s'.pseudo r) (flag : Bool) :
    Agree live (rtl.execute n μ s flag).1 (rtl.execute n μ s' flag).1
      ∧ (rtl.execute n μ s flag).2 = (rtl.execute n μ s' flag).2 := by
  cases rtl with
  | statement type atoms subexpressions | predicate type atoms subexpressions =>
      unfold Rtl.execute
      dsimp only
      rw [evalAll_congr huses, hmachine]
      exact ⟨⟨rfl, fun r hr => hlive r hr (Finset.notMem_empty r)⟩, rfl⟩
  | assign address expression =>
      cases address with
      | constant value =>
          have he : ∀ r ∈ expression.pseudoRegisters n, s.pseudo r = s'.pseudo r :=
            fun r hr => huses r (mem_append_right _ hr)
          unfold Rtl.execute
          dsimp only
          rw [Expression.eval_congr he, hmachine]
          exact ⟨⟨rfl, fun r hr => hlive r hr (Finset.notMem_empty r)⟩, rfl⟩
      | compound type atoms subexpressions =>
          have he : ∀ r ∈ expression.pseudoRegisters n, s.pseudo r = s'.pseudo r :=
            fun r hr => huses r (mem_append_right _ hr)
          have ha : ∀ r ∈ pseudoRegistersOf n subexpressions, s.pseudo r = s'.pseudo r :=
            fun r hr => huses r (mem_append_left _ hr)
          unfold Rtl.execute
          dsimp only
          rw [Expression.eval_congr he, hmachine, evalAll_congr ha]
          exact ⟨⟨rfl, fun r hr => hlive r hr (Finset.notMem_empty r)⟩, rfl⟩
      | register number =>
          have he : ∀ r ∈ expression.pseudoRegisters n, s.pseudo r = s'.pseudo r := huses
          unfold Rtl.execute
          dsimp only
          rw [Expression.eval_congr he, hmachine]
          unfold markSetRegisters at hlive
          dsimp only at hlive ⊢
          split
          · rename_i hp
            refine ⟨⟨rfl, fun r hr => ?_⟩, rfl⟩
            dsimp only
            by_cases heq : r = number
            · rw [heq, update_self, update_self]
            · rw [update_of_ne heq, update_of_ne heq]
              refine hlive r hr ?_
              rw [if_pos hp, Finset.mem_singleton]
              exact heq
          · rename_i hp
            refine ⟨⟨rfl, fun r hr => hlive r hr ?_⟩, rfl⟩
            rw [if_neg hp]
            exact Finset.notMem_empty r

theorem Agree.remains {μ : Machine W M} {rtl : Rtl}
    (h : Agree (updateLiveRegisters n live rtl) s s') (hwhole : rtl.WholePushPop n)
    (hdead : instructionDeadP n live rtl = false) (flag : Bool) :
    Agree live (rtl.execute n μ s flag).1 (rtl.execute n μ s' flag).1
      ∧ (rtl.execute n μ s flag).2 = (rtl.execute n μ s' flag).2 := by
  refine Agree.execute h.machine (fun r hr => h.pseudo r ?_) (fun r hr hset => h.pseudo r ?_) flag
  · refine mem_updateLiveRegisters.mpr (.inr ⟨hr, fun x hx => ?_⟩)
    by_contra hneeded
    exact uses_of_unneeded hwhole hdead hx hneeded hr
  · exact mem_updateLiveRegisters.mpr (.inl ⟨hr, hset⟩)

theorem Agree.deleted {μ : Machine W M} {x : Nat} {expression : Expression} (h : Agree live s s')
    (hset : markSetRegisters n (.assign (.register x) expression) = {x}) (hx : x ∉ live)
    (hfree : expression.effectFree = true) (flag : Bool) :
    Agree live ((Rtl.assign (.register x) expression).execute n μ s flag).1 s'
      ∧ ((Rtl.assign (.register x) expression).execute n μ s flag).2 = flag := by
  have hp : pseudoRegisterP n x = true := by
    cases hp : pseudoRegisterP n x with
    | true => rfl
    | false => simp [markSetRegisters, hp] at hset
  unfold Rtl.execute
  dsimp only
  rw [if_pos hp, Expression.eval_effectFree hfree]
  refine ⟨⟨h.machine, fun r hr => ?_⟩, rfl⟩
  dsimp only
  rw [update_of_ne]
  · exact h.pseudo r hr
  · rintro rfl
    exact hx hr

/-! ## Blocks and runs -/

/-- Every assignment whose source has an effect, but is no push or pop, assigns to a register
that is needed after it. -/
def EffectsNeeded (n : Nat) (g : Rgraph) : Prop :=
  ∀ b ∈ g.bblocks, ∀ before rinst after, g.instructions b = before ++ rinst :: after →
    ∀ x expression, rinst.rtl = .assign (.register x) expression →
      pseudoRegisterP n x = true → expression.containsVolatile = false →
      expression.effectFree = false → Needed n g b after x

theorem Settled.executes (h : Settled n g l)
    (hwhole : ∀ b ∈ g.bblocks, ∀ rinst ∈ g.instructions b, rinst.rtl.WholePushPop n)
    (heffects : EffectsNeeded n g) (μ : Machine W M) (hb : b ∈ g.bblocks)
    {before rest : List Rinst} (hrest : g.instructions b = before ++ rest) (hs : Agree (propagateBlock n (l.liveAtExit b) rest) s s')
    (flag : Bool) :
    Agree (l.liveAtExit b) (executeAll n μ rest s flag).1
        (executeAll n μ (remaining n (l.liveAtExit b) rest) s' flag).1
      ∧ (executeAll n μ rest s flag).2
        = (executeAll n μ (remaining n (l.liveAtExit b) rest) s' flag).2 := by
  induction rest generalizing before s s' flag with
  | nil => exact ⟨hs, rfl⟩
  | cons rinst rest ih =>
      have hsplit : g.instructions b = (before ++ [rinst]) ++ rest := by
        rw [hrest, append_assoc, singleton_append]
      have hmem : rinst ∈ g.instructions b := by
        rw [hrest]
        exact mem_append_right _ mem_cons_self
      rw [propagateBlock] at hs
      cases hdead : instructionDeadP n (propagateBlock n (l.liveAtExit b) rest) rinst.rtl with
      | false =>
          obtain ⟨hagree, hflag⟩ := hs.remains (μ := μ) (hwhole b hb rinst hmem) hdead flag
          rw [remaining_cons hdead]
          unfold executeAll
          dsimp only
          rw [hflag]
          exact ih hsplit hagree _
      | true =>
          obtain ⟨x, expression, hrtl, hset, hx, hvolatile⟩ := instructionDeadP_iff.mp hdead
          rw [updateLiveRegisters_dead hset hx] at hs
          have hfree : expression.effectFree = true := by
            by_contra hfree
            refine hx ((h.mem_iff hb).mpr ?_)
            have hp : pseudoRegisterP n x = true := by
              cases hp : pseudoRegisterP n x with
              | true => rfl
              | false => simp [hrtl, markSetRegisters, hp] at hset
            exact heffects b hb before rinst rest hrest x expression hrtl hp hvolatile
              (by simpa using hfree)
          rw [hrtl] at hset
          obtain ⟨hagree, hflag⟩ := hs.deleted (μ := μ) hset hx hfree flag
          rw [remaining_cons_dead hdead]
          have hstep : executeAll n μ (rinst :: rest) s flag
              = executeAll n μ rest
                ((Rtl.assign (.register x) expression).execute n μ s flag).1 flag := by
            conv_lhs => unfold executeAll
            dsimp only
            rw [hrtl, hflag]
          rw [hstep]
          exact ih hsplit hagree flag

theorem Next.mem_select {next : Next} {flag : Bool} (h : next.select flag = some b) :
    b ∈ next.successors := by
  cases next with
  | sblock next => simpa [Next.select, Next.successors] using h
  | pblock consequent alternative =>
      cases flag with
      | false => exact mem_append_right _ (by simpa [Next.select] using h)
      | true => exact mem_append_left _ (by simpa [Next.select] using h)

theorem Settled.entry_subset (h : Settled n g l) {c : Nat}
    (hb : b ∈ g.bblocks) (hc : c ∈ (g.next b).successors) :
    propagateBlock n (l.liveAtExit c) (g.instructions c) ⊆ l.liveAtExit b := by
  have hcb := g.closed b hb c hc
  rw [← h.propagated.entry hcb, h.settled b hb]
  exact h.propagated.passed hcb (Rgraph.mem_previous.mpr ⟨hb, hc⟩)

theorem runFor_mem (μ : Machine W M) {k c : Nat} {t : Registers W M}
    (h : runFor n μ g k (b, s) = some (c, t)) (hb : b ∈ g.bblocks) : c ∈ g.bblocks := by
  induction k generalizing b s with
  | zero =>
      cases h
      exact hb
  | succ k ih =>
      obtain ⟨⟨b', s'⟩, hadvance, h⟩ := Option.bind_eq_some_iff.mp h
      obtain ⟨d, hselect, heq⟩ := Option.map_eq_some_iff.mp hadvance
      cases heq
      exact ih h (g.closed b hb _ (Next.mem_select hselect))

/-- At a boundary two executions are in the same block, and agree on what is live there. -/
def SameBoundary (live : Nat → Finset Nat) :
    Option (Nat × Registers W M) → Option (Nat × Registers W M) → Prop
  | none, none => True
  | some s, some s' => s.1 = s'.1 ∧ Agree (live s.1) s.2 s'.2
  | _, _ => False

theorem Settled.runs (h : Settled n g l)
    (hwhole : ∀ b ∈ g.bblocks, ∀ rinst ∈ g.instructions b, rinst.rtl.WholePushPop n)
    (heffects : EffectsNeeded n g) (μ : Machine W M) (hb : b ∈ g.bblocks)
    (hs : Agree (propagateBlock n (l.liveAtExit b) (g.instructions b)) s s') (k : Nat) :
    SameBoundary (fun b => propagateBlock n (l.liveAtExit b) (g.instructions b))
      (runFor n μ g k (b, s)) (runFor n μ (g.reduced n l) k (b, s')) := by
  induction k generalizing b s s' with
  | zero => exact ⟨rfl, hs⟩
  | succ k ih =>
      obtain ⟨hagree, hflag⟩ := h.executes hwhole heffects μ hb (nil_append _).symm hs false
      unfold runFor advance
      dsimp only [Rgraph.reduced]
      rw [← hflag]
      cases hselect : (g.next b).select (executeAll n μ (g.instructions b) s false).2 with
      | none => trivial
      | some c =>
          have hc := Next.mem_select hselect
          exact ih (g.closed b hb c hc) (hagree.subset (h.entry_subset hb hc))

/-! ## The analysis -/

/-- The graph after the analysis. -/
def Rgraph.after (g : Rgraph) (a : Analysis) : Rgraph := { g with instructions := a.instructions }

theorem walkBblocks_more {fuel : Nat} {firstPassP : Bool} {l' : Lifetimes}
    (h : walkBblocks n g fuel firstPassP l = some l') {fuel' : Nat} (hle : fuel ≤ fuel') :
    walkBblocks n g fuel' firstPassP l = some l' := by
  induction fuel generalizing fuel' firstPassP l with
  | zero => cases h
  | succ fuel ih =>
      obtain ⟨fuel', rfl⟩ : ∃ k, fuel' = k + 1 := ⟨fuel' - 1, by omega⟩
      unfold walkBblocks at h ⊢
      dsimp only at h ⊢
      split at h
      · rename_i hchanged
        rw [if_pos hchanged]
        exact ih h (by omega)
      · rename_i hchanged
        rw [if_neg hchanged]
        exact h

/-- **Lifetime analysis.** It ends; what it says is live is what is live in the graph after the
deletions; a register is said to die at an instruction that uses it, and after which it is not
live; and the deletions are invisible at the boundaries of blocks, if every assignment whose
source allocates storage or asks for the overflow assigns to a register that is needed. -/
theorem lifetime_analysis {g : Rgraph}
    (hwhole : ∀ b ∈ g.bblocks, ∀ rinst ∈ g.instructions b, rinst.rtl.WholePushPop n)
    (hnew : ∀ b ∈ g.bblocks, ∀ rinst ∈ g.instructions b, rinst.deadRegisters = []) :
    ∃ a : Analysis, (∀ fuel, enoughFuel n g ≤ fuel → walkRgraph n g fuel = some a)
      ∧ (∀ b ∈ g.bblocks, ∀ r,
        (r ∈ a.liveAtEntry b ↔ LiveAt n (g.after a) b (a.instructions b) r)
        ∧ (r ∈ a.liveAtExit b ↔ LiveAt n (g.after a) b [] r))
      ∧ (∀ b ∈ g.bblocks, ∀ before rinst after, a.instructions b = before ++ rinst :: after →
        ∀ r, r ∈ rinst.deadRegisters
          ↔ r ∈ rinst.rtl.uses n ∧ ¬ LiveAt n (g.after a) b after r)
      ∧ (EffectsNeeded n g → ∀ (W M : Type) (μ : Machine W M), ∀ b ∈ g.bblocks,
        ∀ (s : Registers W M) (k : Nat), SameBoundary a.liveAtEntry (runFor n μ g k (b, s))
          (runFor n μ (g.after a) k (b, s))
        ∧ ∀ c t t', runFor n μ g k (b, s) = some (c, t) →
          runFor n μ (g.after a) k (b, s) = some (c, t') →
          Agree (a.liveAtExit c) (executeAll n μ (g.instructions c) t false).1
            (executeAll n μ (a.instructions c) t' false).1) := by
  obtain ⟨l, hl, hsettled⟩ := walkBblocks_ends (n := n) g (Nat.le_refl (enoughFuel n g))
  have hentry : ∀ b, (propagateBlockAndDelete n (l.liveAtExit b) (g.instructions b)).1
      = propagateBlock n (l.liveAtExit b) (g.instructions b) := fun b =>
    propagateBlockAndDelete_fst _ _
  refine ⟨⟨fun b => (propagateBlockAndDelete n (l.liveAtExit b) (g.instructions b)).1,
    l.liveAtExit, fun b => remaining n (l.liveAtExit b) (g.instructions b)⟩, ?_, ?_, ?_, ?_⟩
  · intro fuel hfuel
    unfold walkRgraph
    rw [walkBblocks_more hl hfuel]
    rfl
  · intro b hb r
    dsimp only
    rw [hentry]
    exact ⟨hsettled.live_iff hwhole hb (List.Subset.refl _),
      hsettled.live_iff hwhole hb (nil_subset _)⟩
  · intro b hb before rinst after hsplit r
    obtain ⟨before', rinst', after', hinstructions, hdead, rfl, rfl⟩ := remaining_split hsplit
    have hmem : rinst' ∈ g.instructions b := by
      rw [hinstructions]
      exact mem_append_right _ mem_cons_self
    have hsub : after' ⊆ g.instructions b := by
      rw [hinstructions]
      exact fun r hr => mem_append_right _ (mem_cons_of_mem _ hr)
    rw [mem_deadRegisters (hwhole b hb rinst' hmem) hdead (hnew b hb rinst' hmem),
      hsettled.live_iff hwhole hb hsub]
    rfl
  · intro heffects W M μ b hb s k
    have hrun := hsettled.runs hwhole heffects μ hb (s := s) ⟨rfl, fun _ _ => rfl⟩ k
    refine ⟨?_, fun c t t' ht ht' => ?_⟩
    · simp only [hentry]
      exact hrun
    · have hc := runFor_mem μ ht hb
      rw [ht, show runFor n μ (g.reduced n l) k (b, s) = some (c, t') from ht'] at hrun
      exact (hsettled.executes hwhole heffects μ hc (nil_append _).symm hrun.2 false).1

/-- One machine register. A sum is assigned to a pseudo register, a test goes one way or the
other, and there is nothing more to do. -/
def sumGraph (overflowP : Bool) : Rgraph where
  bblocks := [0, 1, 2]
  instructions b :=
    if b = 0 then
      [⟨.assign (.register 1) (.compound (.fixnum2Args overflowP) [.name "plus-fixnum"]
          [.constant (.number 1), .constant (.number 33554431)]), []⟩,
        ⟨.predicate .overflowTest [] [], []⟩]
    else [⟨.statement .popReturn [] [], []⟩]
  next b := if b = 0 then .pblock (some 1) (some 2) else .sblock none
  nodup := by decide
  closed := by decide

theorem wholePushPop_sumGraph (overflowP : Bool) :
    ∀ b ∈ (sumGraph overflowP).bblocks, ∀ rinst ∈ (sumGraph overflowP).instructions b,
      rinst.rtl.WholePushPop 1 ∧ rinst.deadRegisters = [] := by
  intro b _ rinst hrinst
  simp only [sumGraph] at hrinst
  split at hrinst
  · rcases mem_cons.mp hrinst with rfl | hrinst
    · exact ⟨⟨.inl rfl, .inl rfl⟩, rfl⟩
    · cases mem_singleton.mp hrinst
      exact ⟨rfl, rfl⟩
  · cases mem_singleton.mp hrinst
    exact ⟨rfl, rfl⟩

/-- A machine with fixnums of 26 bits, whose state is whether there was an overflow. -/
def fixnumMachine : Machine Int Bool where
  register _ _ := 0
  setRegister m _ _ := m
  constant
    | .number n => n
    | .name _ => 0
  value _ _ values _ := values.sum
  effect
    | .fixnum2Args true, _, values, _ => decide (33554431 < values.sum)
    | _, _, _, m => m
  store _ _ _ _ m := m
  statement _ _ _ m := m
  test _ _ _ m := m
  effect_eq := by
    intro type atoms values m h
    cases type with
    | fixnum2Args overflowP =>
        cases overflowP with
        | false => rfl
        | true => cases h
    | _ => rfl

theorem effectsNeeded_sumGraph : EffectsNeeded 1 (sumGraph false) := by
  intro b _ before rinst after hsplit x expression hrtl _ _ heffect
  have hmem : rinst ∈ (sumGraph false).instructions b := by
    rw [hsplit]
    exact mem_append_right _ mem_cons_self
  simp only [sumGraph] at hmem
  split at hmem
  · rcases mem_cons.mp hmem with rfl | hmem
    · cases hrtl
      cases heffect
    · cases mem_singleton.mp hmem
      cases hrtl
  · cases mem_singleton.mp hmem
    cases hrtl

theorem lifetime_analysis_sumGraph :
    ∃ a : Analysis, walkRgraph 1 (sumGraph false) 5 = some a
      ∧ SameBoundary a.liveAtEntry
        (runFor 1 fixnumMachine (sumGraph false) 1 (0, ⟨fun _ => 0, false⟩))
        (runFor 1 fixnumMachine ((sumGraph false).after a) 1 (0, ⟨fun _ => 0, false⟩)) := by
  obtain ⟨a, hfuel, -, -, hruns⟩ := lifetime_analysis (n := 1)
    (fun b hb rinst hr => (wholePushPop_sumGraph false b hb rinst hr).1)
    (fun b hb rinst hr => (wholePushPop_sumGraph false b hb rinst hr).2)
  refine ⟨a, hfuel 5 (by decide), ?_⟩
  exact (hruns effectsNeeded_sumGraph Int Bool fixnumMachine 0 (by decide) ⟨fun _ => 0, false⟩ 1).1

/-- A sum that overflows is deleted, since nothing uses it, and the test after it finds no
overflow. -/
theorem overflow_deleted :
    (∀ b ∈ (sumGraph true).bblocks, ∀ rinst ∈ (sumGraph true).instructions b,
      rinst.rtl.WholePushPop 1 ∧ rinst.deadRegisters = [])
    ∧ ∃ a : Analysis, walkRgraph 1 (sumGraph true) 5 = some a
      ∧ (runFor 1 fixnumMachine (sumGraph true) 1 (0, ⟨fun _ => 0, false⟩)).map Prod.fst = some 1
      ∧ (runFor 1 fixnumMachine ((sumGraph true).after a) 1 (0, ⟨fun _ => 0, false⟩)).map Prod.fst
        = some 2 :=
  ⟨wholePushPop_sumGraph true, _, rfl, rfl, rfl⟩

end MitScheme.Rtl
