import MitScheme.Compiler.Rlife
import Mathlib.Algebra.Order.BigOperators.Group.Finset

/-!
# Lifetimes are exact

A register is needed at a point if a path from there comes to a use of it before it is
assigned, where the uses in an assignment count only if what is assigned is needed in its
turn. The passes compute the registers that are needed: nothing else gets in, and when
nothing changes any more, nothing is missing. In the graph that remains after the deletions
what is needed is what is live in the plain sense.
-/

namespace MitScheme.Rtl

open List

variable {n : Nat}

/-! ## Instructions -/

/-- The registers an instruction uses. -/
def Rtl.uses (n : Nat) : Rtl → List Nat
  | .assign (.register _) expression => expression.pseudoRegisters n
  | .assign address expression => address.pseudoRegisters n ++ expression.pseudoRegisters n
  | .statement _ _ subexpressions => pseudoRegistersOf n subexpressions
  | .predicate _ _ subexpressions => pseudoRegistersOf n subexpressions

variable {needed live : Finset Nat} {r b : Nat} {rtl : Rtl} {g : Rgraph} {rest rinsts : List Rinst}
  {rinst : Rinst} {s : Lifetimes} {visited : Nat → Prop}

theorem mem_markUsedRegisters :
    r ∈ markUsedRegisters n needed rtl
      ↔ r ∈ rtl.uses n ∧ ∀ x ∈ markSetRegisters n rtl, x ∈ needed := by
  unfold markUsedRegisters markSetRegisters Rtl.uses
  cases rtl with
  | assign address expression =>
      cases address with
      | register number =>
          dsimp only
          cases hp : pseudoRegisterP n number with
          | false => simp
          | true =>
              by_cases hx : number ∈ needed
              · simp [hx]
              · simp [hx]
      | constant value => simp
      | compound type atoms subexpressions => simp
  | statement type atoms subexpressions => simp
  | predicate type atoms subexpressions => simp

theorem mem_updateLiveRegisters {old : Finset Nat} :
    r ∈ updateLiveRegisters n old rtl
      ↔ (r ∈ old ∧ r ∉ markSetRegisters n rtl)
        ∨ (r ∈ rtl.uses n ∧ ∀ x ∈ markSetRegisters n rtl, x ∈ old) := by
  unfold updateLiveRegisters
  rw [Finset.mem_union, Finset.mem_sdiff, List.mem_toFinset, mem_markUsedRegisters]

theorem updateLiveRegisters_dead {old : Finset Nat} {x : Nat}
    (hset : markSetRegisters n rtl = {x}) (hx : x ∉ old) : updateLiveRegisters n old rtl = old := by
  ext r
  rw [mem_updateLiveRegisters, hset]
  constructor
  · rintro (⟨hr, -⟩ | ⟨-, hall⟩)
    · exact hr
    · exact absurd (hall x (Finset.mem_singleton_self x)) hx
  · intro hr
    refine .inl ⟨hr, fun heq => ?_⟩
    rw [Finset.mem_singleton] at heq
    exact hx (heq ▸ hr)

theorem instructionDeadP_iff :
    instructionDeadP n needed rtl = true
      ↔ ∃ x expression, rtl = .assign (.register x) expression ∧ markSetRegisters n rtl = {x}
        ∧ x ∉ needed ∧ expression.containsVolatile = false := by
  constructor
  · intro h
    unfold instructionDeadP at h
    split at h
    · rename_i number expression
      simp only [Bool.and_eq_true, decide_eq_true_eq, Bool.not_eq_true'] at h
      exact ⟨number, expression, rfl, by simp [markSetRegisters, h.1.1], h.1.2, h.2⟩
    · cases h
  · rintro ⟨x, expression, rfl, hset, hx, hvolatile⟩
    have hp : pseudoRegisterP n x = true := by
      cases hp : pseudoRegisterP n x with
      | true => rfl
      | false => simp [markSetRegisters, hp] at hset
    simp [instructionDeadP, hp, hx, hvolatile]

theorem mem_addDeadRegisters {used dead : List Nat} :
    r ∈ addDeadRegisters needed used dead ↔ r ∈ dead ∨ (r ∈ used ∧ r ∉ needed) := by
  induction used generalizing dead with
  | nil => simp [addDeadRegisters]
  | cons x used ih =>
      rw [addDeadRegisters, ih]
      by_cases hx : x ∉ needed ∧ x ∉ dead
      · rw [if_pos hx]
        constructor
        · rintro (hr | hr)
          · rcases mem_cons.mp hr with rfl | hr
            · exact .inr ⟨mem_cons_self, hx.1⟩
            · exact .inl hr
          · exact .inr ⟨mem_cons_of_mem x hr.1, hr.2⟩
        · rintro (hr | ⟨hr, hneeded⟩)
          · exact .inl (mem_cons_of_mem x hr)
          · rcases mem_cons.mp hr with rfl | hr
            · exact .inl mem_cons_self
            · exact .inr ⟨hr, hneeded⟩
      · rw [if_neg hx]
        constructor
        · rintro (hr | hr)
          · exact .inl hr
          · exact .inr ⟨mem_cons_of_mem x hr.1, hr.2⟩
        · rintro (hr | ⟨hr, hneeded⟩)
          · exact .inl hr
          · rcases mem_cons.mp hr with rfl | hr
            · exact .inl (by_contra fun hdead => hx ⟨hneeded, hdead⟩)
            · exact .inr ⟨hr, hneeded⟩

/-- The register is needed at the point of the block before these instructions. -/
inductive Needed (n : Nat) (g : Rgraph) : Nat → List Rinst → Nat → Prop
  | next {b c r : Nat} : c ∈ (g.next b).successors → Needed n g c (g.instructions c) r →
      Needed n g b [] r
  | kept {b r : Nat} {rinst : Rinst} {rest : List Rinst} : r ∉ markSetRegisters n rinst.rtl →
      Needed n g b rest r → Needed n g b (rinst :: rest) r
  | used {b r : Nat} {rinst : Rinst} {rest : List Rinst} : r ∈ rinst.rtl.uses n →
      (∀ x ∈ markSetRegisters n rinst.rtl, Needed n g b rest x) →
      Needed n g b (rinst :: rest) r

theorem needed_of_propagateBlock (hlive : ∀ {r}, r ∈ live → Needed n g b [] r) :
    ∀ {r}, r ∈ propagateBlock n live rest → Needed n g b rest r := by
  induction rest with
  | nil => exact hlive
  | cons rinst rest ih =>
      intro r hr
      rw [propagateBlock, mem_updateLiveRegisters] at hr
      rcases hr with ⟨hr, hset⟩ | ⟨hr, hall⟩
      · exact .kept hset (ih hr)
      · exact .used hr fun x hx => ih (hall x hx)

/-- The registers that a graph uses. -/
def Rgraph.registers (n : Nat) (g : Rgraph) : Finset Nat :=
  g.bblocks.toFinset.biUnion fun b =>
    ((g.instructions b).flatMap fun rinst => rinst.rtl.uses n).toFinset

theorem mem_registers (hb : b ∈ g.bblocks)
    (hrinst : rinst ∈ g.instructions b) (hr : r ∈ rinst.rtl.uses n) : r ∈ g.registers n := by
  unfold Rgraph.registers
  rw [Finset.mem_biUnion]
  refine ⟨b, List.mem_toFinset.mpr hb, ?_⟩
  rw [List.mem_toFinset, mem_flatMap]
  exact ⟨rinst, hrinst, hr⟩

theorem registers_of_needed
    (h : Needed n g b rest r) (hb : b ∈ g.bblocks) (hrest : rest ⊆ g.instructions b) :
    r ∈ g.registers n := by
  induction h with
  | next hc _ ih => exact ih (g.closed _ hb _ hc) (List.Subset.refl _)
  | kept _ _ ih => exact ih hb (subset_of_cons_subset hrest)
  | used hr _ _ => exact mem_registers hb (hrest mem_cons_self) hr

/-! ## The passes -/

/-- What holds between visits, of the blocks that were visited and of all. -/
structure Propagated (n : Nat) (g : Rgraph) (visited : Nat → Prop) (s : Lifetimes) : Prop where
  entry : ∀ {b}, visited b →
    s.liveAtEntry b = propagateBlock n (s.liveAtExit b) (g.instructions b)
  /-- What is live at the entry of a block was passed on to the blocks before. -/
  passed : ∀ {b c}, visited c → b ∈ g.previous c → s.liveAtEntry c ⊆ s.newLiveAtExit b
  exit_subset : ∀ b, s.liveAtExit b ⊆ s.newLiveAtExit b
  needed : ∀ {b r}, r ∈ s.newLiveAtExit b → b ∈ g.bblocks ∧ Needed n g b [] r

theorem propagated_start (n : Nat) (g : Rgraph) :
    Propagated n g (fun _ => False) ⟨fun _ => ∅, fun _ => ∅, fun _ => ∅⟩ :=
  ⟨False.elim, False.elim, fun _ => Finset.Subset.refl _, fun hr => absurd hr (Finset.notMem_empty _)⟩

theorem newLiveAtExit_visit (n : Nat) (g : Rgraph) (s : Lifetimes) (bblock b : Nat) :
    s.newLiveAtExit b ⊆ (visit n g s bblock).newLiveAtExit b := by
  intro r hr
  unfold visit
  dsimp only
  split
  · exact Finset.mem_union_left _ hr
  · exact hr

theorem Propagated.visit {g : Rgraph} {visited : Nat → Prop} {s : Lifetimes}
    (h : Propagated n g visited s) (bblock : Nat) :
    Propagated n g (fun b => visited b ∨ b = bblock) (visit n g s bblock) := by
  have hgrows := newLiveAtExit_visit n g s bblock
  have hentry : ∀ {r}, r ∈ propagateBlock n (s.newLiveAtExit bblock) (g.instructions bblock) →
      Needed n g bblock (g.instructions bblock) r :=
    needed_of_propagateBlock fun hr => (h.needed hr).2
  refine ⟨fun {b} hb => ?_, fun {b c} hc hbc => ?_, fun b => ?_, fun {b r} hr => ?_⟩
  · by_cases heq : b = bblock
    · subst heq
      simp [Rtl.visit]
    · simpa [Rtl.visit, heq] using h.entry (hb.resolve_right heq)
  · by_cases heq : c = bblock
    · subst heq
      intro r hr
      simp only [Rtl.visit, Function.update_self] at hr ⊢
      rw [if_pos hbc]
      exact Finset.mem_union_right _ hr
    · have hold := h.passed (hc.resolve_right heq) hbc
      simp only [Rtl.visit, Function.update_of_ne heq] at hold ⊢
      exact Finset.Subset.trans hold (hgrows b)
  · by_cases heq : b = bblock
    · subst heq
      simpa [Rtl.visit] using hgrows b
    · simpa [Rtl.visit, heq] using Finset.Subset.trans (h.exit_subset b) (hgrows b)
  · simp only [Rtl.visit] at hr
    split at hr
    · rename_i hprevious
      rcases Finset.mem_union.mp hr with hr | hr
      · exact h.needed hr
      · obtain ⟨hb, hsucc⟩ := Rgraph.mem_previous.mp hprevious
        exact ⟨hb, .next hsucc (hentry hr)⟩
    · exact h.needed hr

theorem Propagated.mono {visited' : Nat → Prop}
    (h : Propagated n g visited s) (hsub : ∀ b, visited' b → visited b) :
    Propagated n g visited' s :=
  ⟨fun hb => h.entry (hsub _ hb), fun hc => h.passed (hsub _ hc), h.exit_subset, h.needed⟩

theorem Propagated.pass {g : Rgraph} {firstPassP : Bool} {bblocks : List Nat}
    {visited : Nat → Prop} {s : Lifetimes} (h : Propagated n g visited s) :
    Propagated n g (fun b => visited b ∨ (firstPassP = true ∧ b ∈ bblocks))
      (pass n g firstPassP bblocks s).1 := by
  induction bblocks generalizing visited s with
  | nil => exact h.mono fun b hb => hb.elim id fun hb => absurd hb.2 not_mem_nil
  | cons b bblocks ih =>
      unfold Rtl.pass
      split
      · refine (ih (h.visit b)).mono fun c hc => ?_
        rcases hc with hc | ⟨hfirst, hc⟩
        · exact .inl (.inl hc)
        · rcases mem_cons.mp hc with rfl | hc
          · exact .inl (.inr rfl)
          · exact .inr ⟨hfirst, hc⟩
      · rename_i hskip
        refine (ih h).mono fun c hc => hc.imp_right fun ⟨hfirst, hc⟩ => ⟨hfirst, ?_⟩
        exact absurd (.inl hfirst) hskip

theorem pass_unchanged {bblocks : List Nat} (h : (pass n g false bblocks s).2 = false) :
    (pass n g false bblocks s).1 = s ∧ ∀ b ∈ bblocks, s.liveAtExit b = s.newLiveAtExit b := by
  induction bblocks with
  | nil => exact ⟨rfl, fun b hb => absurd hb not_mem_nil⟩
  | cons b bblocks ih =>
      unfold pass at h ⊢
      split at h
      · cases h
      · rename_i hskip
        rw [if_neg hskip]
        push Not at hskip
        obtain ⟨hs, hall⟩ := ih h
        refine ⟨hs, fun c hc => ?_⟩
        rcases mem_cons.mp hc with rfl | hc
        · exact hskip.2
        · exact hall c hc

/-! ## Termination -/

/-- The registers that may still become live at the exits of the blocks. -/
def room (n : Nat) (g : Rgraph) (s : Lifetimes) : Nat :=
  ∑ b ∈ g.bblocks.toFinset, (g.registers n \ s.liveAtExit b).card

theorem Propagated.subset_registers
    (h : Propagated n g visited s) (b : Nat) : s.newLiveAtExit b ⊆ g.registers n := by
  intro r hr
  obtain ⟨hb, hneeded⟩ := h.needed hr
  exact registers_of_needed hneeded hb (nil_subset _)

theorem Propagated.room_visit
    (h : Propagated n g visited s) {bblock : Nat} (hb : bblock ∈ g.bblocks) :
    room n g (Rtl.visit n g s bblock) ≤ room n g s
      ∧ (s.liveAtExit bblock ≠ s.newLiveAtExit bblock →
        room n g (Rtl.visit n g s bblock) < room n g s) := by
  have hcard : ∀ b, (g.registers n \ (Rtl.visit n g s bblock).liveAtExit b).card
      ≤ (g.registers n \ s.liveAtExit b).card := by
    intro b
    refine Finset.card_le_card (Finset.sdiff_subset_sdiff (Finset.Subset.refl _) ?_)
    by_cases heq : b = bblock
    · subst heq
      simpa [Rtl.visit] using h.exit_subset b
    · simp [Rtl.visit, heq]
  refine ⟨Finset.sum_le_sum fun b _ => hcard b, fun hne => ?_⟩
  refine Finset.sum_lt_sum (fun b _ => hcard b) ⟨bblock, List.mem_toFinset.mpr hb, ?_⟩
  have hlt : s.liveAtExit bblock ⊂ s.newLiveAtExit bblock :=
    (h.exit_subset bblock).ssubset_of_ne hne
  have hexit : (Rtl.visit n g s bblock).liveAtExit bblock = s.newLiveAtExit bblock := by
    simp [Rtl.visit]
  rw [hexit]
  refine Finset.card_lt_card ⟨Finset.sdiff_subset_sdiff (Finset.Subset.refl _) hlt.1, fun hsub => ?_⟩
  obtain ⟨r, hr, hnot⟩ := Finset.exists_of_ssubset hlt
  have hmem : r ∈ g.registers n \ s.liveAtExit bblock :=
    Finset.mem_sdiff.mpr ⟨h.subset_registers bblock hr, hnot⟩
  exact (Finset.mem_sdiff.mp (hsub hmem)).2 hr

theorem Propagated.room_pass {bblocks : List Nat} (h : Propagated n g visited s) (hsub : bblocks ⊆ g.bblocks) :
    room n g (Rtl.pass n g false bblocks s).1 ≤ room n g s
      ∧ ((Rtl.pass n g false bblocks s).2 = true →
        room n g (Rtl.pass n g false bblocks s).1 < room n g s) := by
  induction bblocks generalizing visited s with
  | nil => exact ⟨Nat.le_refl _, fun h => by cases h⟩
  | cons b bblocks ih =>
      have hrest : bblocks ⊆ g.bblocks := subset_of_cons_subset hsub
      unfold Rtl.pass
      split
      · rename_i hvisit
        obtain ⟨-, hlt⟩ := h.room_visit (hsub mem_cons_self)
        have hlt := hlt (hvisit.resolve_left (by simp))
        obtain ⟨hle, -⟩ := ih (h.visit b) hrest
        exact ⟨Nat.le_of_lt (Nat.lt_of_le_of_lt hle hlt), fun _ => Nat.lt_of_le_of_lt hle hlt⟩
      · exact ih h hrest

/-- What is left in the end: nothing was to be changed. -/
structure Settled (n : Nat) (g : Rgraph) (s : Lifetimes) : Prop where
  propagated : Propagated n g (fun b => b ∈ g.bblocks) s
  settled : ∀ b ∈ g.bblocks, s.liveAtExit b = s.newLiveAtExit b

theorem walkBblocks_settles {fuel : Nat}
    (h : Propagated n g (fun b => b ∈ g.bblocks) s) (hfuel : room n g s < fuel) :
    ∃ s', walkBblocks n g fuel false s = some s' ∧ Settled n g s' := by
  induction fuel generalizing s with
  | zero => exact absurd hfuel (Nat.not_lt_zero _)
  | succ fuel ih =>
      unfold walkBblocks
      have hpass : Propagated n g (fun b => b ∈ g.bblocks) (pass n g false g.bblocks s).1 :=
        h.pass.mono fun b hb => .inl hb
      obtain ⟨-, hlt⟩ := h.room_pass (List.Subset.refl g.bblocks)
      cases hchanged : (pass n g false g.bblocks s).2 with
      | true =>
          have hlt := hlt hchanged
          obtain ⟨s', hs', hsettled⟩ := ih hpass (by omega)
          refine ⟨s', ?_, hsettled⟩
          dsimp only
          rw [hchanged]
          exact hs'
      | false =>
          obtain ⟨hs, hall⟩ := pass_unchanged hchanged
          refine ⟨s, ?_, h, hall⟩
          dsimp only
          rw [hchanged, hs]
          rfl

/-- The analysis ends, after at most so many passes. -/
def enoughFuel (n : Nat) (g : Rgraph) : Nat := g.bblocks.length * (g.registers n).card + 2

theorem room_le (n : Nat) (g : Rgraph) (s : Lifetimes) :
    room n g s ≤ g.bblocks.length * (g.registers n).card := by
  have hsum : room n g s ≤ ∑ _b ∈ g.bblocks.toFinset, (g.registers n).card :=
    Finset.sum_le_sum fun b _ => Finset.card_le_card Finset.sdiff_subset
  rw [Finset.sum_const] at hsum
  exact hsum.trans (Nat.mul_le_mul_right _ (toFinset_card_le _))

theorem walkBblocks_ends (g : Rgraph) {fuel : Nat} (hfuel : enoughFuel n g ≤ fuel) :
    ∃ s, walkBblocks n g fuel true ⟨fun _ => ∅, fun _ => ∅, fun _ => ∅⟩ = some s
      ∧ Settled n g s := by
  unfold enoughFuel at hfuel
  obtain ⟨fuel, rfl⟩ : ∃ k, fuel = k + 1 := ⟨fuel - 1, by omega⟩
  unfold walkBblocks
  have hpass : Propagated n g (fun b => b ∈ g.bblocks)
      (pass n g true g.bblocks ⟨fun _ => ∅, fun _ => ∅, fun _ => ∅⟩).1 :=
    (propagated_start n g).pass.mono fun b hb => .inr ⟨rfl, hb⟩
  have hroom := room_le n g (pass n g true g.bblocks ⟨fun _ => ∅, fun _ => ∅, fun _ => ∅⟩).1
  cases hchanged : (pass n g true g.bblocks ⟨fun _ => ∅, fun _ => ∅, fun _ => ∅⟩).2 with
  | true =>
      obtain ⟨s, hs, hsettled⟩ : ∃ s', walkBblocks n g fuel false _ = some s' ∧ Settled n g s' :=
        walkBblocks_settles hpass (by omega)
      refine ⟨s, ?_, hsettled⟩
      dsimp only
      rw [hchanged]
      exact hs
  | false =>
      -- there are no blocks
      have hnil : g.bblocks = [] := by
        cases hb : g.bblocks with
        | nil => rfl
        | cons b bblocks =>
            rw [hb] at hchanged
            cases hchanged
      refine ⟨_, ?_, hpass, fun b hb => ?_⟩
      · dsimp only
        rw [hchanged]
        rfl
      · rw [hnil] at hb
        cases hb

theorem Settled.complete (h : Settled n g s) (hneeded : Needed n g b rest r) (hb : b ∈ g.bblocks) :
    r ∈ propagateBlock n (s.liveAtExit b) rest := by
  induction hneeded with
  | @next b c r hc _ ih =>
      have hcb : c ∈ g.bblocks := g.closed b hb c hc
      rw [h.settled b hb]
      refine h.propagated.passed hcb (Rgraph.mem_previous.mpr ⟨hb, hc⟩) ?_
      rw [h.propagated.entry hcb]
      exact ih hcb
  | kept hset _ ih =>
      rw [propagateBlock, mem_updateLiveRegisters]
      exact .inl ⟨ih hb, hset⟩
  | used hr _ ih =>
      rw [propagateBlock, mem_updateLiveRegisters]
      exact .inr ⟨hr, fun x hx => ih x hx hb⟩

theorem Settled.mem_iff (h : Settled n g s) (hb : b ∈ g.bblocks) :
    r ∈ propagateBlock n (s.liveAtExit b) rest ↔ Needed n g b rest r := by
  refine ⟨needed_of_propagateBlock fun hr => ?_, fun hr => h.complete hr hb⟩
  exact (h.propagated.needed (h.propagated.exit_subset b hr)).2

/-! ## Deletions -/

theorem propagateBlockAndDelete_fst (live : Finset Nat) (rinsts : List Rinst) :
    (propagateBlockAndDelete n live rinsts).1 = propagateBlock n live rinsts := by
  induction rinsts with
  | nil => rfl
  | cons rinst rinsts ih =>
      rw [propagateBlockAndDelete]
      dsimp only
      rw [ih]
      split
      · rename_i hdead
        obtain ⟨x, expression, -, hset, hx, -⟩ := instructionDeadP_iff.mp hdead
        exact (updateLiveRegisters_dead hset hx).symm
      · rfl

/-- The instructions that remain of a block. -/
def remaining (n : Nat) (live : Finset Nat) (rinsts : List Rinst) : List Rinst :=
  (propagateBlockAndDelete n live rinsts).2

theorem remaining_cons_dead
    (h : instructionDeadP n (propagateBlock n live rinsts) rinst.rtl = true) :
    remaining n live (rinst :: rinsts) = remaining n live rinsts := by
  unfold remaining
  rw [propagateBlockAndDelete]
  dsimp only
  rw [propagateBlockAndDelete_fst, if_pos h]

/-- The instruction, with the registers that die there. -/
def withDeaths (n : Nat) (live : Finset Nat) (rinst : Rinst) : Rinst :=
  { rinst with
    deadRegisters := addDeadRegisters live (markUsedRegisters n live rinst.rtl)
      rinst.deadRegisters }

theorem remaining_cons (h : instructionDeadP n (propagateBlock n live rinsts) rinst.rtl = false) :
    remaining n live (rinst :: rinsts)
      = withDeaths n (propagateBlock n live rinsts) rinst :: remaining n live rinsts := by
  unfold remaining withDeaths
  rw [propagateBlockAndDelete]
  dsimp only
  rw [propagateBlockAndDelete_fst, if_neg (by rw [h]; simp)]

/-- The graph after the deletions. -/
def Rgraph.reduced (n : Nat) (g : Rgraph) (s : Lifetimes) : Rgraph :=
  { g with instructions := fun b => remaining n (s.liveAtExit b) (g.instructions b) }

/-- **Liveness**: some path from the point of the block before these instructions uses the
register before it assigns to it. -/
inductive LiveAt (n : Nat) (g : Rgraph) : Nat → List Rinst → Nat → Prop
  | next {b c r : Nat} : c ∈ (g.next b).successors → LiveAt n g c (g.instructions c) r →
      LiveAt n g b [] r
  | kept {b r : Nat} {rinst : Rinst} {rest : List Rinst} : r ∉ markSetRegisters n rinst.rtl →
      LiveAt n g b rest r → LiveAt n g b (rinst :: rest) r
  | used {b r : Nat} {rinst : Rinst} {rest : List Rinst} : r ∈ rinst.rtl.uses n →
      LiveAt n g b (rinst :: rest) r

/-- The expression is a push or a pop, on a machine register, or contains none. -/
def Expression.WholePushPop (n : Nat) (e : Expression) : Prop :=
  e.containsVolatile = false
    ∨ ∃ type atoms sp, e = .compound type atoms [.register sp] ∧ volatileType type = true
      ∧ pseudoRegisterP n sp = false

/-- Pushes and pops occur only as the whole source or address of an assignment. -/
def Rtl.WholePushPop (n : Nat) : Rtl → Prop
  | .assign address expression => address.WholePushPop n ∧ expression.WholePushPop n
  | .statement _ _ subexpressions => anyContainsVolatile subexpressions = false
  | .predicate _ _ subexpressions => anyContainsVolatile subexpressions = false

theorem uses_of_unneeded (hwhole : rtl.WholePushPop n)
    (hdead : instructionDeadP n needed rtl = false) {x : Nat}
    (hx : x ∈ markSetRegisters n rtl) (hneeded : x ∉ needed) : r ∉ rtl.uses n := by
  cases rtl with
  | statement type atoms subexpressions => cases hx
  | predicate type atoms subexpressions => cases hx
  | assign address expression =>
      cases address with
      | constant value | compound type atoms subexpressions => cases hx
      | register number =>
          have hp : pseudoRegisterP n number = true := by
            cases hp : pseudoRegisterP n number with
            | true => rfl
            | false => simp [markSetRegisters, hp] at hx
          obtain rfl : x = number := by simpa [markSetRegisters, hp] using hx
          obtain hplain | ⟨type, atoms, sp, rfl, -, hsp⟩ := hwhole.2
          · rw [instructionDeadP, hp, hplain] at hdead
            simp [hneeded] at hdead
          · simp [Rtl.uses, Expression.pseudoRegisters, pseudoRegistersOf, hsp]

theorem Settled.needed_of_dead (h : Settled n g s) (hb : b ∈ g.bblocks)
    (hdead : instructionDeadP n (propagateBlock n (s.liveAtExit b) rest) rinst.rtl = true) (hr : Needed n g b rest r) : Needed n g b (rinst :: rest) r := by
  obtain ⟨x, expression, -, hset, hx, -⟩ := instructionDeadP_iff.mp hdead
  refine .kept ?_ hr
  rw [hset, Finset.mem_singleton]
  rintro rfl
  exact hx ((h.mem_iff hb).mpr hr)

theorem Settled.live_of_needed (h : Settled n g s) (hneeded : Needed n g b rest r) (hb : b ∈ g.bblocks) :
    LiveAt n (g.reduced n s) b (remaining n (s.liveAtExit b) rest) r := by
  induction hneeded with
  | next hc _ ih => exact .next hc (ih (g.closed _ hb _ hc))
  | @kept b r rinst rest hset _ ih =>
      cases hdead : instructionDeadP n (propagateBlock n (s.liveAtExit b) rest) rinst.rtl with
      | true =>
          rw [remaining_cons_dead hdead]
          exact ih hb
      | false =>
          rw [remaining_cons hdead]
          exact .kept hset (ih hb)
  | @used b r rinst rest hr hall ih =>
      cases hdead : instructionDeadP n (propagateBlock n (s.liveAtExit b) rest) rinst.rtl with
      | true =>
          obtain ⟨x, expression, -, hset, hx, -⟩ := instructionDeadP_iff.mp hdead
          have hxset : x ∈ markSetRegisters n rinst.rtl := by
            rw [hset]
            exact Finset.mem_singleton_self x
          exact absurd ((h.mem_iff hb).mpr (hall x hxset)) hx
      | false =>
          rw [remaining_cons hdead]
          exact .used hr

theorem Settled.needed_of_live (h : Settled n g s)
    (hwhole : ∀ b ∈ g.bblocks, ∀ rinst ∈ g.instructions b, rinst.rtl.WholePushPop n) {rest' : List Rinst} (hlive : LiveAt n (g.reduced n s) b rest' r)
    (hb : b ∈ g.bblocks) (hrest : rest ⊆ g.instructions b)
    (heq : remaining n (s.liveAtExit b) rest = rest') : Needed n g b rest r := by
  induction hlive generalizing rest with
  | @next b c r hc _ ih =>
      -- every instruction there was is deleted
      induction rest with
      | nil => exact .next hc (ih (g.closed _ hb _ hc) (List.Subset.refl _) rfl)
      | cons rinst rest ihrest =>
          cases hdead : instructionDeadP n (propagateBlock n (s.liveAtExit b) rest) rinst.rtl with
          | true =>
              rw [remaining_cons_dead hdead] at heq
              exact h.needed_of_dead hb hdead (ihrest (subset_of_cons_subset hrest) heq)
          | false =>
              rw [remaining_cons hdead] at heq
              cases heq
  | @kept b r rinst' rest' hset _ ih =>
      induction rest with
      | nil => cases heq
      | cons rinst rest ihrest =>
          have hsub := subset_of_cons_subset hrest
          cases hdead : instructionDeadP n (propagateBlock n (s.liveAtExit b) rest) rinst.rtl with
          | true =>
              rw [remaining_cons_dead hdead] at heq
              exact h.needed_of_dead hb hdead (ihrest hsub heq)
          | false =>
              rw [remaining_cons hdead] at heq
              cases heq
              exact .kept hset (ih hb hsub rfl)
  | @used b r rinst' rest' hr =>
      induction rest with
      | nil => cases heq
      | cons rinst rest ihrest =>
          have hsub := subset_of_cons_subset hrest
          cases hdead : instructionDeadP n (propagateBlock n (s.liveAtExit b) rest) rinst.rtl with
          | true =>
              rw [remaining_cons_dead hdead] at heq
              exact h.needed_of_dead hb hdead (ihrest hsub heq)
          | false =>
              rw [remaining_cons hdead] at heq
              cases heq
              refine .used hr fun x hx => (h.mem_iff hb).mp ?_
              by_contra hneeded
              exact uses_of_unneeded (hwhole b hb rinst (hrest mem_cons_self)) hdead hx
                hneeded hr

theorem Settled.live_iff (h : Settled n g s)
    (hwhole : ∀ b ∈ g.bblocks, ∀ rinst ∈ g.instructions b, rinst.rtl.WholePushPop n) (hb : b ∈ g.bblocks) (hrest : rest ⊆ g.instructions b) :
    r ∈ propagateBlock n (s.liveAtExit b) rest
      ↔ LiveAt n (g.reduced n s) b (remaining n (s.liveAtExit b) rest) r := by
  rw [h.mem_iff hb]
  exact ⟨fun hr => h.live_of_needed hr hb, fun hr => h.needed_of_live hwhole hr hb hrest rfl⟩

theorem remaining_split {before after : List Rinst}
    (h : remaining n live rinsts = before ++ rinst :: after) :
    ∃ before' rinst' after', rinsts = before' ++ rinst' :: after'
      ∧ instructionDeadP n (propagateBlock n live after') rinst'.rtl = false
      ∧ rinst = withDeaths n (propagateBlock n live after') rinst'
      ∧ after = remaining n live after' := by
  induction rinsts generalizing before with
  | nil =>
      cases before with
      | nil | cons r before => cases h
  | cons r rinsts ih =>
      cases hdead : instructionDeadP n (propagateBlock n live rinsts) r.rtl with
      | true =>
          rw [remaining_cons_dead hdead] at h
          obtain ⟨before', rinst', after', rfl, hrest⟩ := ih h
          exact ⟨r :: before', rinst', after', rfl, hrest⟩
      | false =>
          rw [remaining_cons hdead] at h
          cases before with
          | nil =>
              cases h
              exact ⟨[], r, rinsts, rfl, hdead, rfl, rfl⟩
          | cons r' before =>
              rw [cons_append, List.cons.injEq] at h
              obtain ⟨before', rinst', after', rfl, hrest⟩ := ih h.2
              exact ⟨r :: before', rinst', after', rfl, hrest⟩

theorem mem_deadRegisters
    (hwhole : rinst.rtl.WholePushPop n) (hdead : instructionDeadP n needed rinst.rtl = false)
    (hnone : rinst.deadRegisters = []) :
    r ∈ (withDeaths n needed rinst).deadRegisters ↔ r ∈ rinst.rtl.uses n ∧ r ∉ needed := by
  unfold withDeaths
  rw [mem_addDeadRegisters, hnone, mem_markUsedRegisters]
  constructor
  · rintro (hr | ⟨⟨hr, -⟩, hneeded⟩)
    · cases hr
    · exact ⟨hr, hneeded⟩
  · rintro ⟨hr, hneeded⟩
    refine .inr ⟨⟨hr, fun x hx => ?_⟩, hneeded⟩
    by_contra hxneeded
    exact uses_of_unneeded hwhole hdead hx hxneeded hr

end MitScheme.Rtl
