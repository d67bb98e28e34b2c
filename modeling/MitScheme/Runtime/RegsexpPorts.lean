import MitScheme.Runtime.Regsexp

/-!
# Matching what a port has

A match may look at its positions only, so that positions that look the same give the same match. A
position on a port looks like one on the string, as long as no position is moved on from twice: the second
time the port has other characters.
-/

namespace MitScheme.RegularSexpression

variable {κ π σ π' σ' : Type} [DecidableEq κ]

/-! ## Simulation -/

/-- Positions that look the same, in states that go together. After a state is lost, nothing is said. -/
structure Simulation (P : Positions π σ) (Q : Positions π' σ') where
  pos : π → π' → Prop
  st : σ → σ' → Prop
  lost : σ → Prop
  getIndex : ∀ p q, pos p q → P.getIndex p = Q.getIndex q
  nextChar : ∀ p q, pos p q → P.nextChar p = Q.nextChar q
  prevChar : ∀ p q, pos p q → P.prevChar p = Q.prevChar q
  prevPosition : ∀ p q, pos p q → (P.prevChar p).isSome = true →
    ∃ p' q', P.prevPosition p = some p' ∧ Q.prevPosition q = some q' ∧ pos p' q'
  nextPosition : ∀ p q s t, pos p q → st s t → (P.nextChar p).isSome = true →
    lost (P.nextPosition p s).2
      ∨ pos (P.nextPosition p s).1 (Q.nextPosition q t).1 ∧ st (P.nextPosition p s).2 (Q.nextPosition q t).2
  exists_next : ∀ p q s, pos p q → (P.nextChar p).isSome = true → ∃ q', pos (P.nextPosition p s).1 q'
  lost_next : ∀ p s, lost s → lost (P.nextPosition p s).2

variable {P : Positions π σ} {Q : Positions π' σ'} (S : Simulation P Q)

/-- Two runs come to the same answer. -/
def SameRun (f : Run κ σ) (g : Run κ σ') : Prop :=
  ∀ s, (S.lost s → S.lost (f s).2) ∧ ∀ t, S.st s t → S.lost (f s).2 ∨ (f s).1 = (g t).1

/-- The same groups have been started and ended. -/
def SameGroups (groups : Groups κ π) (groups' : Groups κ π') : Prop :=
  groups.ended = groups'.ended
    ∧ List.Forall₂ (fun a b => a.1 = b.1 ∧ S.pos a.2 b.2) groups.started groups'.started

/-- Two continuations come to the same answer from positions that look the same. -/
def SameLinked (k : Linked κ π σ) (l : Linked κ π' σ') : Prop :=
  ∀ p q groups groups' f g, S.pos p q → SameGroups S groups groups' → SameRun S f g →
    SameRun S (k p groups f) (l q groups' g)

def SameInsn (i : Insn κ π σ) (j : Insn κ π' σ') : Prop :=
  ∀ k l, SameLinked S k l → SameLinked S (i k) (j l)

variable {S} {i i' : Insn κ π σ} {j j' : Insn κ π' σ'} {k k' : Linked κ π σ} {l l' : Linked κ π' σ'}

theorem samePositions_eq {p1 p2 : π} {q1 q2 : π'} (h1 : S.pos p1 q1) (h2 : S.pos p2 q2) :
    samePositions P p1 p2 = samePositions Q q1 q2 := by
  rw [samePositions, samePositions, S.getIndex p1 q1 h1, S.getIndex p2 q2 h2]

section

omit [DecidableEq κ]

theorem same_always : SameInsn S (alwaysSucceed : Insn κ π σ) alwaysSucceed := fun _ _ h => h

theorem same_fail : SameInsn S (alwaysFail : Insn κ π σ) alwaysFail :=
  fun _ _ _ _ _ _ _ _ _ _ _ hrun => hrun

theorem same_test {test : π → Bool} {test' : π' → Bool} (h : ∀ p q, S.pos p q → test p = test' q) :
    SameInsn S (insnTest test : Insn κ π σ) (insnTest test') := by
  intro k l hkl p q groups groups' f g hpos hgroups hrun
  rw [insnTest, insnTest, h p q hpos]
  split
  · exact hkl p q groups groups' f g hpos hgroups hrun
  · exact hrun

theorem same_advance (hkl : SameLinked S k l) {p : π} {q : π'} {groups : Groups κ π} {groups' : Groups κ π'}
    {f : Run κ σ} {g : Run κ σ'} (hpos : S.pos p q) (hgroups : SameGroups S groups groups')
    (hrun : SameRun S f g) (predicate : Char → Bool) :
    SameRun S
      (fun state => if (P.nextChar p).any predicate then
          let moved := P.nextPosition p state
          k moved.1 groups f moved.2
        else f state)
      (fun state => if (Q.nextChar q).any predicate then
          let moved := Q.nextPosition q state
          l moved.1 groups' g moved.2
        else g state) := by
  intro s
  dsimp only
  rw [S.nextChar p q hpos]
  by_cases hchar : (Q.nextChar q).any predicate = true
  · have hsome : (P.nextChar p).isSome = true := by
      rw [S.nextChar p q hpos]
      cases hq : Q.nextChar q with
      | none =>
          rw [hq] at hchar
          cases hchar
      | some char => rfl
    obtain ⟨q', hq'⟩ := S.exists_next p q s hpos hsome
    have hlost := hkl _ q' groups groups' f g hq' hgroups hrun (P.nextPosition p s).2
    rw [if_pos hchar]
    refine ⟨fun hs => hlost.1 (S.lost_next p s hs), fun t hst => ?_⟩
    rw [if_pos hchar]
    rcases S.nextPosition p q s t hpos hst hsome with hs | ⟨hpos', hst'⟩
    · exact .inl (hlost.1 hs)
    · exact (hkl _ _ groups groups' f g hpos' hgroups hrun _).2 _ hst'
  · rw [if_neg hchar]
    refine ⟨(hrun s).1, fun t hst => ?_⟩
    rw [if_neg hchar]
    exact (hrun s).2 t hst

theorem same_charMatching (predicate : Char → Bool) :
    SameInsn S (insnCharMatching P predicate : Insn κ π σ) (insnCharMatching Q predicate) :=
  fun _ _ hkl _ _ _ _ _ _ hpos hgroups hrun => same_advance hkl hpos hgroups hrun predicate

theorem same_stringLoop (hkl : SameLinked S k l) (chars : List Char) :
    SameLinked S (stringLoop P k chars) (stringLoop Q l chars) := by
  induction chars with
  | nil => exact hkl
  | cons c rest ih =>
      intro p q groups groups' f g hpos hgroups hrun
      exact same_advance ih hpos hgroups hrun fun char => char = c

theorem same_string (chars : List Char) : SameInsn S (insnString P chars : Insn κ π σ) (insnString Q chars) := by
  cases chars with
  | nil => exact same_always
  | cons c rest =>
      cases rest with
      | nil => exact same_charMatching _
      | cons c' rest => exact fun k l hkl => same_stringLoop hkl _

theorem same_failureChain (h : SameLinked S k l) (h' : SameLinked S k' l') :
    SameLinked S (failureChain k k') (failureChain l l') := fun p q groups groups' f g hpos hgroups hrun =>
  h p q groups groups' _ _ hpos hgroups (h' p q groups groups' f g hpos hgroups hrun)

theorem same_seq : ∀ {is : List (Insn κ π σ)} {js : List (Insn κ π' σ')}, List.Forall₂ (SameInsn S) is js →
    SameInsn S (insnSeq is) (insnSeq js)
  | _, _, .nil => fun _ _ hkl => hkl
  | _, _, .cons h hs => fun k l hkl => h _ _ (same_seq hs k l hkl)

theorem same_alt : ∀ {is : List (Insn κ π σ)} {js : List (Insn κ π' σ')}, List.Forall₂ (SameInsn S) is js →
    SameInsn S (insnAlt is) (insnAlt js)
  | _, _, .nil => same_fail
  | _, _, .cons h .nil => h
  | _, _, .cons h (.cons h' hs) => by
      intro k l hkl
      have hrest := same_alt (.cons h' hs) k l hkl
      simp only [insnAlt]
      exact same_failureChain (h k l hkl) hrest

theorem same_optional (h : SameInsn S i j) : SameInsn S (insnOptional i) (insnOptional j) :=
  fun k l hkl => same_failureChain (h k l hkl) hkl

theorem same_shyOptional (h : SameInsn S i j) : SameInsn S (insnShyOptional i) (insnShyOptional j) :=
  fun k l hkl => same_failureChain hkl (h k l hkl)

theorem same_exhausted : SameLinked S (fun _ _ _ state => (.exhausted, state) : Linked κ π σ)
    (fun _ _ _ state => (.exhausted, state)) :=
  fun _ _ _ _ _ _ _ _ _ _ => ⟨id, fun _ _ => .inr rfl⟩

theorem same_afterTurn (h : SameLinked S k l) {p : π} {q : π'} (hpos : S.pos p q) :
    SameLinked S (afterTurn P k p) (afterTurn Q l q) := by
  intro p' q' groups groups' f g hpos' hgroups hrun
  rw [afterTurn, afterTurn, samePositions_eq hpos' hpos]
  split
  · exact hrun
  · exact h p' q' groups groups' f g hpos' hgroups hrun

theorem same_star (h : SameInsn S i j) (hkl : SameLinked S k l) (fuel : Nat) :
    SameLinked S (insnStar P i k fuel) (insnStar Q j l fuel) := by
  induction fuel with
  | zero => exact same_exhausted
  | succ fuel ih =>
      intro p q groups groups' f g hpos hgroups hrun
      exact same_failureChain (h _ _ (same_afterTurn ih hpos)) hkl p q groups groups' f g hpos hgroups hrun

theorem same_shyStar (h : SameInsn S i j) (hkl : SameLinked S k l) (fuel : Nat) :
    SameLinked S (insnShyStar P i k fuel) (insnShyStar Q j l fuel) := by
  induction fuel with
  | zero => exact same_exhausted
  | succ fuel ih =>
      intro p q groups groups' f g hpos hgroups hrun
      exact same_failureChain hkl (h _ _ (same_afterTurn ih hpos)) p q groups groups' f g hpos hgroups hrun

theorem same_hybridChain {limit : Nat} {preLinker : Linked κ π σ → Insn κ π σ}
    {preLinker' : Linked κ π' σ' → Insn κ π' σ'}
    (h : ∀ k l, SameLinked S k l → SameInsn S (preLinker k) (preLinker' l)) :
    SameInsn S (hybridChain limit preLinker) (hybridChain limit preLinker') := by
  have himmediate : ∀ limit, SameInsn S (immediateChain limit preLinker) (immediateChain limit preLinker') := by
    intro limit k l hkl
    induction limit with
    | zero => exact hkl
    | succ limit ih => exact h k l hkl _ _ ih
  have hdelayed : ∀ limit, SameInsn S (delayedChain limit preLinker) (delayedChain limit preLinker') := by
    intro limit k l hkl
    induction limit with
    | zero => exact hkl
    | succ limit ih => exact h k l hkl _ _ ih
  rw [hybridChain, hybridChain]
  split
  · exact himmediate limit
  · exact hdelayed limit

theorem same_between (h : SameInsn S i j) (fuel : Nat) (limits : Limits) :
    SameInsn S (insnBetween P fuel limits i) (insnBetween Q fuel limits j) := by
  obtain ⟨n, m, hle⟩ := limits
  have hexactly : SameInsn S (repeatExactly n i) (repeatExactly n j) := same_hybridChain fun _ _ _ => h
  intro k l hkl
  cases m with
  | none => exact hexactly _ _ (same_star h hkl fuel)
  | some m =>
      refine hexactly _ _ (same_hybridChain (fun k l hkl => ?_) k l hkl)
      exact fun k' l' hkl' => same_failureChain (h k' l' hkl') hkl

theorem same_shyBetween (h : SameInsn S i j) (fuel : Nat) (limits : Limits) :
    SameInsn S (insnShyBetween P fuel limits i) (insnShyBetween Q fuel limits j) := by
  obtain ⟨n, m, hle⟩ := limits
  have hexactly : SameInsn S (repeatExactly n i) (repeatExactly n j) := same_hybridChain fun _ _ _ => h
  intro k l hkl
  cases m with
  | none => exact hexactly _ _ (same_shyStar h hkl fuel)
  | some m =>
      refine hexactly _ _ (same_hybridChain (fun k l hkl => ?_) k l hkl)
      exact fun k' l' hkl' => same_failureChain hkl (h k' l' hkl')

end

/-! ## Groups -/

/-- Two computations fail in the same way, or come to results that go together. -/
def SameResult {α β : Type} (R : α → β → Prop) : Except (Error κ) α → Except (Error κ) β → Prop
  | .ok a, .ok b => R a b
  | .error e, .error e' => e = e'
  | _, _ => False

omit [DecidableEq κ] in
theorem same_orSignal {α β : Type} {R : α → β → Prop} {x : Except (Error κ) α} {y : Except (Error κ) β}
    (h : SameResult R x y) {f : α → Run κ σ} {g : β → Run κ σ'} (hrun : ∀ a b, R a b → SameRun S (f a) (g b)) :
    SameRun S (orSignal x f) (orSignal y g) := by
  cases x with
  | ok a =>
      cases y with
      | ok b => exact hrun a b h
      | error e => exact h.elim
  | error e =>
      cases y with
      | ok b => exact h.elim
      | error e' =>
          cases h
          exact fun s => ⟨id, fun t _ => .inr rfl⟩

theorem same_assv {key : κ} {started : List (κ × π)} {started' : List (κ × π')}
    (h : List.Forall₂ (fun a b => a.1 = b.1 ∧ S.pos a.2 b.2) started started') :
    (assv key started).isSome = (assv key started').isSome := by
  induction h with
  | nil => rfl
  | @cons a b started started' hab _ ih =>
      rw [assv, assv] at ih ⊢
      rw [List.find?_cons, List.find?_cons, hab.1]
      by_cases hkey : b.1 = key
      · rw [decide_eq_true hkey]
        rfl
      · rw [decide_eq_false hkey]
        exact ih

omit [DecidableEq κ] in
theorem same_finishGroup {p : π} {q : π'} (hstart : S.pos p q) (fuel : Nat) {p' : π} {q' : π'}
    (hpos : S.pos p' q') (chars : List Char) :
    (finishGroup P p fuel p' chars : Except (Error κ) _) = finishGroup Q q fuel q' chars := by
  induction fuel generalizing p' q' chars with
  | zero => rfl
  | succ fuel ih =>
      rw [finishGroup, finishGroup, samePositions_eq hpos hstart, S.prevChar p' q' hpos]
      split
      · rfl
      · cases hprev : Q.prevChar q' with
        | none => rfl
        | some char =>
            have hsome : (P.prevChar p').isSome = true := by
              rw [S.prevChar p' q' hpos, hprev]
              rfl
            obtain ⟨p1, q1, hp1, hq1, hpos1⟩ := S.prevPosition p' q' hpos hsome
            rw [hp1, hq1]
            exact ih hpos1 _

theorem same_startGroup {groups : Groups κ π} {groups' : Groups κ π'} (hgroups : SameGroups S groups groups')
    (key : κ) {p : π} {q : π'} (hpos : S.pos p q) :
    SameResult (SameGroups S) (groups.startGroup key p) (groups'.startGroup key q) := by
  rw [Groups.startGroup, Groups.startGroup, same_assv hgroups.2]
  by_cases hstarted : (assv key groups'.started).isSome = true
  · rw [if_pos hstarted, if_pos hstarted]
    rfl
  · rw [if_neg hstarted, if_neg hstarted]
    exact ⟨hgroups.1, .cons ⟨rfl, hpos⟩ hgroups.2⟩

theorem same_endGroup {groups : Groups κ π} {groups' : Groups κ π'} (hgroups : SameGroups S groups groups')
    (key : κ) {p : π} {q : π'} (hpos : S.pos p q) :
    SameResult (SameGroups S) (groups.endGroup P key p) (groups'.endGroup Q key q) := by
  obtain ⟨started, ended⟩ := groups
  obtain ⟨started', ended'⟩ := groups'
  obtain ⟨hended, hstarted⟩ := hgroups
  subst hended
  rw [Groups.endGroup, Groups.endGroup]
  cases hstarted with
  | nil => rfl
  | @cons a b rest rest' hab hrest =>
      obtain ⟨key1, p1⟩ := a
      obtain ⟨key2, q1⟩ := b
      obtain ⟨rfl, hpos1⟩ := hab
      dsimp only at hpos1 ⊢
      rw [S.getIndex p q hpos, same_finishGroup hpos1 _ hpos]
      by_cases hkey : key1 = key
      · rw [if_pos hkey, if_pos hkey]
        cases finishGroup Q q1 (Q.getIndex q + 1) q [] with
        | error e => rfl
        | ok chars => exact ⟨rfl, hrest⟩
      · rw [if_neg hkey, if_neg hkey]
        rfl

theorem same_group (key : κ) (h : SameInsn S i j) : SameInsn S (insnGroup P key i) (insnGroup Q key j) := by
  intro k l hkl p q groups groups' f g hpos hgroups hrun
  refine same_orSignal (same_startGroup hgroups key hpos) fun groups groups' hgroups => ?_
  refine h _ _ ?_ p q groups groups' f g hpos hgroups hrun
  intro p q groups groups' f g hpos hgroups hrun
  exact same_orSignal (same_endGroup hgroups key hpos) fun groups groups' hgroups =>
    hkl p q groups groups' f g hpos hgroups hrun

theorem same_groupRef (key : κ) : SameInsn S (insnGroupRef P key) (insnGroupRef Q key) := by
  intro k l hkl p q groups groups' f g hpos hgroups hrun
  have hvalue : SameResult Eq (groups.getValue key) (groups'.getValue key) := by
    rw [Groups.getValue, Groups.getValue, same_assv hgroups.2, hgroups.1]
    by_cases hstarted : (assv key groups'.started).isSome = true
    · rw [if_pos hstarted]
      rfl
    · rw [if_neg hstarted]
      rfl
  refine same_orSignal hvalue fun value value' heq => ?_
  subst heq
  cases value with
  | none => exact hkl p q groups groups' f g hpos hgroups hrun
  | some value => exact same_string value k l hkl p q groups groups' f g hpos hgroups hrun

/-! ## The compiler -/

mutual

theorem same_compile (fuel : Nat) : (regsexp : Regsexp κ) →
    SameInsn S (compile P fuel regsexp) (compile Q fuel regsexp)
  | .char _ | .anyChar | .charSet _ | .inverseCharSet _ => by
      simp only [compile]
      exact same_charMatching _
  | .string chars => by
      simp only [compile]
      exact same_string chars
  | .lineStart | .stringStart => by
      simp only [compile]
      refine same_test fun p q hpos => ?_
      rw [S.prevChar p q hpos]
  | .lineEnd | .stringEnd => by
      simp only [compile]
      refine same_test fun p q hpos => ?_
      rw [S.nextChar p q hpos]
  | .optional regsexp => by
      simp only [compile]
      exact same_optional (same_compile fuel regsexp)
  | .shyOptional regsexp => by
      simp only [compile]
      exact same_shyOptional (same_compile fuel regsexp)
  | .star regsexp => by
      simp only [compile]
      exact fun k l hkl => same_star (same_compile fuel regsexp) hkl fuel
  | .shyStar regsexp => by
      simp only [compile]
      exact fun k l hkl => same_shyStar (same_compile fuel regsexp) hkl fuel
  | .plus regsexp | .exactly n regsexp | .between limits regsexp => by
      simp only [compile]
      exact same_between (same_compile fuel regsexp) fuel _
  | .shyPlus regsexp | .shyExactly n regsexp | .shyBetween limits regsexp => by
      simp only [compile]
      exact same_shyBetween (same_compile fuel regsexp) fuel _
  | .alt regsexps => by
      simp only [compile]
      exact same_alt (same_compileAll fuel regsexps)
  | .seq regsexps => by
      simp only [compile]
      exact same_seq (same_compileAll fuel regsexps)
  | .group key regsexp => by
      simp only [compile]
      exact same_group key (same_compile fuel regsexp)
  | .groupRef key => by
      simp only [compile]
      exact same_groupRef key

theorem same_compileAll (fuel : Nat) : (regsexps : List (Regsexp κ)) →
    List.Forall₂ (SameInsn S) (compileAll P fuel regsexps) (compileAll Q fuel regsexps)
  | [] => by
      simp only [compileAll]
      exact .nil
  | regsexp :: regsexps => by
      simp only [compileAll]
      exact .cons (same_compile fuel regsexp) (same_compileAll fuel regsexps)

end

theorem same_match (S : Simulation P Q) (fuel : Nat) (regsexp : Regsexp κ) {p : π} {q : π'} {s : σ} {t : σ'}
    (hpos : S.pos p q) (hst : S.st s t) :
    S.lost (topLevelMatch (compileRegsexp P fuel regsexp) p s).2
      ∨ (topLevelMatch (compileRegsexp P fuel regsexp) p s).1
        = (topLevelMatch (compileRegsexp Q fuel regsexp) q t).1 := by
  have hend : SameLinked S
      (fun position (groups : Groups κ π) _ state => (.found (P.getIndex position) groups.ended.reverse, state))
      (fun position (groups : Groups κ π') _ state =>
        (.found (Q.getIndex position) groups.ended.reverse, state)) := by
    intro p q groups groups' f g hpos hgroups _
    refine fun s => ⟨id, fun t _ => .inr ?_⟩
    dsimp only
    rw [S.getIndex p q hpos, hgroups.1]
  have hfail : SameRun S (fun state => (.notFound, state) : Run κ σ) (fun state => (.notFound, state)) :=
    fun _ => ⟨id, fun _ _ => .inr rfl⟩
  exact (same_compile fuel regsexp _ _ hend p q ⟨[], []⟩ ⟨[], []⟩ _ _ hpos ⟨rfl, .nil⟩ hfail s).2 t hst

/-! ## Ports -/

/-- The positions of a string, in a state that has the index of the last one that was made. The state is
lost when a position is moved on from that another one has been made after. -/
def trackedPositions (string : List Char) : Positions Nat (Option Nat) where
  getIndex := (stringPositions string 0 string.length).getIndex
  nextChar := (stringPositions string 0 string.length).nextChar
  nextPosition index last := (index + 1, if last = some index then some (index + 1) else none)
  prevChar := (stringPositions string 0 string.length).prevChar
  prevPosition := (stringPositions string 0 string.length).prevPosition

/-- A match moves on from no position of the string twice. -/
def MovesOnce (fuel : Nat) (regsexp : Regsexp κ) (string : List Char) : Prop :=
  (topLevelMatch (compileRegsexp (trackedPositions string) fuel regsexp) 0 (some 0)).2 ≠ none

instance (fuel : Nat) (regsexp : Regsexp κ) (string : List Char) :
    Decidable (MovesOnce fuel regsexp string) := inferInstanceAs (Decidable (_ ≠ _))

/-- It makes no difference to the positions of a string whether they are tracked. -/
def untracked (string : List Char) :
    Simulation (trackedPositions string) (stringPositions string 0 string.length) where
  pos := Eq
  st _ _ := True
  lost _ := False
  getIndex _ _ h := by rw [h]; rfl
  nextChar _ _ h := by rw [h]; rfl
  prevChar _ _ h := by rw [h]; rfl
  prevPosition p _ h _ := ⟨p - 1, p - 1, rfl, by rw [← h]; rfl, rfl⟩
  nextPosition _ _ _ _ h _ _ := .inr ⟨by rw [h]; rfl, trivial⟩
  exists_next p _ _ _ _ := ⟨p + 1, rfl⟩
  lost_next _ _ h := h

/-- A position on a port that looks like one on the string. -/
def LooksLike (string : List Char) : Nat → SourcePosition → Prop
  | 0, .atIndex index nextChar prevChar _ => index = 0 ∧ nextChar = string[0]? ∧ prevChar = none
  | i + 1, .atIndex index nextChar prevChar prevPosition =>
      index = i + 1 ∧ nextChar = string[i + 1]? ∧ prevChar = string[i]?
        ∧ ∃ q, prevPosition = some q ∧ LooksLike string i q

variable {string : List Char} {index : Nat} {q : SourcePosition}

theorem LooksLike.getIndex (h : LooksLike string index q) : index = sourcePositions.getIndex q := by
  obtain ⟨index', nextChar, prevChar, prevPosition⟩ := q
  cases index with
  | zero | succ i => exact h.1.symm

theorem LooksLike.nextChar (h : LooksLike string index q) :
    (trackedPositions string).nextChar index = sourcePositions.nextChar q := by
  obtain ⟨index', nextChar, prevChar, prevPosition⟩ := q
  have htracked : (trackedPositions string).nextChar index = string[index]? := by
    change (if index < string.length then string[index]? else none) = _
    by_cases hlt : index < string.length
    · rw [if_pos hlt]
    · rw [if_neg hlt, List.getElem?_eq_none (Nat.le_of_not_lt hlt)]
  rw [htracked]
  cases index with
  | zero | succ i => exact h.2.1.symm

theorem LooksLike.prevChar (h : LooksLike string index q) :
    (trackedPositions string).prevChar index = sourcePositions.prevChar q := by
  obtain ⟨index', nextChar, prevChar, prevPosition⟩ := q
  cases index with
  | zero => exact h.2.2.symm
  | succ i => exact h.2.2.1.symm

theorem LooksLike.prevPosition (h : LooksLike string index q)
    (hsome : ((trackedPositions string).prevChar index).isSome = true) :
    ∃ p' q', (trackedPositions string).prevPosition index = some p' ∧ sourcePositions.prevPosition q = some q'
      ∧ LooksLike string p' q' := by
  obtain ⟨index', nextChar, prevChar, prevPosition⟩ := q
  cases index with
  | zero => cases hsome
  | succ i =>
      obtain ⟨-, -, -, q', hprev, hq'⟩ := h
      exact ⟨i, q', rfl, hprev, hq'⟩

theorem LooksLike.next (h : LooksLike string index q) :
    LooksLike string (index + 1) (.atIndex (index + 1) string[index + 1]? (sourcePositions.nextChar q) (some q)) := by
  refine ⟨rfl, rfl, ?_, q, rfl, h⟩
  obtain ⟨index', nextChar, prevChar, prevPosition⟩ := q
  cases index with
  | zero | succ i => exact h.2.1

/-- A port has what comes after the last position. -/
def onPort (string : List Char) : Simulation (trackedPositions string) sourcePositions where
  pos := LooksLike string
  st last port := ∃ i, last = some i ∧ port = string.drop (i + 1)
  lost last := last = none
  getIndex _ _ h := h.getIndex
  nextChar _ _ h := h.nextChar
  prevChar _ _ h := h.prevChar
  prevPosition _ _ h hsome := h.prevPosition hsome
  nextPosition p q s t h hst _ := by
    obtain ⟨i, rfl, rfl⟩ := hst
    by_cases hlast : i = p
    · subst hlast
      refine .inr ⟨?_, i + 1, if_pos rfl, ?_⟩
      · have hnext := h.next
        obtain ⟨index', nextChar, prevChar, prevPosition⟩ := q
        obtain rfl : i = index' := h.getIndex
        have hhead : (string.drop (i + 1)).head? = string[i + 1]? := List.head?_drop
        change LooksLike string (i + 1) (.atIndex (i + 1) (string.drop (i + 1)).head? nextChar _)
        rw [hhead]
        exact hnext
      · obtain ⟨index', nextChar, prevChar, prevPosition⟩ := q
        exact List.tail_drop
    · exact .inl (if_neg fun heq => hlast (Option.some.inj heq))
  exists_next _ _ _ h _ := ⟨_, h.next⟩
  lost_next p s h := by
    subst h
    have hne : ¬ (none : Option Nat) = some p := nofun
    change (if (none : Option Nat) = some p then some (p + 1) else none) = none
    rw [if_neg hne]

/-- If a match on a string in NFC moves on from no position twice, a match on a port is the same. -/
theorem match_input_port (nfc : List Char → Bool) (fuel : Nat) (regsexp : Regsexp κ) (string : List Char)
    (hnfc : nfc string = true) (honce : MovesOnce fuel regsexp string) :
    regsexpMatchInputPort fuel regsexp string = regsexpMatchString nfc fuel regsexp string none none := by
  have hstart : (onPort string).pos 0 (makeSourcePosition string).1 := ⟨rfl, List.head?_eq_getElem?, rfl⟩
  have hport : (onPort string).st (some 0) (makeSourcePosition string).2 := ⟨0, rfl, (List.drop_one).symm⟩
  have hstring : (topLevelMatch (compileRegsexp (trackedPositions string) fuel regsexp) 0 (some 0)).1
      = (topLevelMatch (compileRegsexp (stringPositions string 0 string.length) fuel regsexp) 0 ()).1 := by
    rcases same_match (untracked string) fuel regsexp rfl trivial with hlost | hsame
    · exact hlost.elim
    · exact hsame
  have hrange : regsexpMatchString nfc fuel regsexp string none none
      = (topLevelMatch (compileRegsexp (stringPositions string 0 string.length) fuel regsexp) 0 ()).1.startingAt 0 := by
    exact if_pos hnfc
  rcases same_match (onPort string) fuel regsexp hstart hport with hlost | hsame
  · exact absurd hlost honce
  · rw [regsexpMatchInputPort, hrange, ← hstring, hsame]

theorem match_input_port_ab :
    MovesOnce 3 (.alt [.string ['x'], .star (.char 'a')] : Regsexp Nat) ['a', 'b']
      ∧ regsexpMatchInputPort 3 (.alt [.string ['x'], .star (.char 'a')] : Regsexp Nat) ['a', 'b']
        = regsexpMatchString (fun _ => true) 3 (.alt [.string ['x'], .star (.char 'a')]) ['a', 'b'] none none :=
  ⟨by decide +kernel, match_input_port (fun _ => true) 3 _ _ rfl (by decide +kernel)⟩

/-- The second alternative starts with the character that the first one has read already, and the port
gives the end of the file in place of the next one. -/
theorem backtracking_rereads_port :
    regsexpMatchString (fun _ => true) 3
        (.alt [.string ['a', 'x'], .string ['a', 'b']] : Regsexp Nat) ['a', 'b'] none none = .found 0 2 []
      ∧ regsexpMatchInputPort 3 (.alt [.string ['a', 'x'], .string ['a', 'b']] : Regsexp Nat) ['a', 'b']
        = .notFound
      ∧ ¬ MovesOnce 3 (.alt [.string ['a', 'x'], .string ['a', 'b']] : Regsexp Nat) ['a', 'b'] := by
  decide +kernel

/-- A character that is read twice may do no harm, when the port goes on with the same one. -/
example : ¬ MovesOnce 4 (.alt [.string ['a', 'x'], .string ['a', 'b']] : Regsexp Nat) ['a', 'b', 'b']
    ∧ regsexpMatchInputPort 4 (.alt [.string ['a', 'x'], .string ['a', 'b']] : Regsexp Nat) ['a', 'b', 'b']
      = .found 0 2 [] := by
  decide +kernel

end MitScheme.RegularSexpression
