import Mathlib.Order.Bounds.Basic
import Mathlib.Data.List.Pairwise

/-!
# Lists of associations

A finite map, and the list of its associations in the order of the keys. Putting an association in or
taking one out at its place changes the map at one key.
-/

namespace MitScheme.Associations

open List Function

variable {κ α : Type} [LinearOrder κ]

/-- The list has the associations of the map, in the order of the keys. -/
structure Lists (list : List (κ × α)) (map : κ → Option α) : Prop where
  sorted : list.Pairwise fun p q => p.1 < q.1
  mem : ∀ k d, (k, d) ∈ list ↔ map k = some d

variable {before after list : List (κ × α)} {map : κ → Option α} {k : κ} {d : α}

theorem lists_nil : Lists ([] : List (κ × α)) fun _ => none :=
  ⟨.nil, fun _ _ => ⟨nofun, nofun⟩⟩

theorem Lists.around (h : Lists (before ++ (k, d) :: after) map) :
    (∀ p ∈ before, p.1 < k) ∧ ∀ p ∈ after, k < p.1 := by
  obtain ⟨-, hafter, hbefore⟩ := pairwise_append.mp h.sorted
  exact ⟨fun p hp => hbefore p hp _ mem_cons_self,
    fun p hp => (pairwise_cons.mp hafter).1 p hp⟩

theorem Lists.here (h : Lists (before ++ (k, d) :: after) map) : map k = some d :=
  (h.mem k d).mp (mem_append_right _ mem_cons_self)

theorem Lists.between (h : Lists (before ++ after) map) (hbefore : ∀ p ∈ before, p.1 < k)
    (hafter : ∀ p ∈ after, k < p.1) : map k = none := by
  cases hk : map k with
  | none => rfl
  | some d =>
      rcases mem_append.mp ((h.mem k d).mpr hk) with hp | hp
      · exact absurd (hbefore _ hp) (lt_irrefl k)
      · exact absurd (hafter _ hp) (lt_irrefl k)

theorem Lists.insert (h : Lists (before ++ after) map) (hbefore : ∀ p ∈ before, p.1 < k)
    (hafter : ∀ p ∈ after, k < p.1) (d : α) :
    Lists (before ++ (k, d) :: after) (Function.update map k (some d)) := by
  obtain ⟨hb, ha, hba⟩ := pairwise_append.mp h.sorted
  refine ⟨pairwise_append.mpr ⟨hb, pairwise_cons.mpr ⟨hafter, ha⟩, ?_⟩, ?_⟩
  · intro p hp q hq
    rcases mem_cons.mp hq with hq | hq
    · rw [hq]
      exact hbefore p hp
    · exact hba p hp q hq
  · intro k' d'
    have hmem := h.mem k' d'
    by_cases hk : k' = k
    · subst hk
      rw [h.between hbefore hafter] at hmem
      rw [update_self, mem_append, mem_cons, Prod.mk.injEq, Option.some_inj]
      rw [mem_append] at hmem
      refine ⟨fun hin => ?_, fun heq => .inr (.inl ⟨rfl, heq.symm⟩)⟩
      rcases hin with hin | ⟨-, hin⟩ | hin
      · cases hmem.mp (.inl hin)
      · exact hin.symm
      · cases hmem.mp (.inr hin)
    · rw [update_of_ne hk, ← hmem, mem_append, mem_append, mem_cons,
        Prod.mk.injEq]
      refine or_congr_right ⟨fun hin => ?_, .inr⟩
      rcases hin with ⟨heq, -⟩ | hin
      · exact absurd heq hk
      · exact hin

theorem Lists.erase (h : Lists (before ++ (k, d) :: after) map) :
    Lists (before ++ after) (Function.update map k none) := by
  obtain ⟨hbefore, hafter⟩ := h.around
  refine ⟨h.sorted.sublist (List.Sublist.append_left (sublist_cons_self _ _) _), ?_⟩
  intro k' d'
  by_cases hk : k' = k
  · subst hk
    rw [update_self]
    refine ⟨fun hin => ?_, nofun⟩
    rcases mem_append.mp hin with hin | hin
    · exact absurd (hbefore _ hin) (lt_irrefl _)
    · exact absurd (hafter _ hin) (lt_irrefl _)
  · rw [update_of_ne hk, ← h.mem k' d', mem_append, mem_append, mem_cons,
      Prod.mk.injEq]
    refine or_congr_right ⟨.inr, fun hin => ?_⟩
    rcases hin with ⟨heq, -⟩ | hin
    · exact absurd heq hk
    · exact hin

theorem Lists.set (h : Lists (before ++ (k, d) :: after) map) (d' : α) :
    Lists (before ++ (k, d') :: after) (Function.update map k (some d')) := by
  obtain ⟨hbefore, hafter⟩ := h.around
  have hset := h.erase.insert hbefore hafter d'
  rwa [update_idem] at hset

/-! ## The least and the greatest key -/

open Classical in
/-- The map without its least key, if there is one. -/
noncomputable def dropLeast (map : κ → Option α) : κ → Option α := fun k =>
  if IsLeast { k | map k ≠ none } k then none else map k

open Classical in
/-- The map without its greatest key, if there is one. -/
noncomputable def dropGreatest (map : κ → Option α) : κ → Option α := fun k =>
  if IsGreatest { k | map k ≠ none } k then none else map k

theorem dropLeast_eq (h : IsLeast { k | map k ≠ none } k) :
    dropLeast map = Function.update map k none := by
  funext k'
  rw [dropLeast]
  by_cases hk : k' = k
  · subst hk
    rw [if_pos h, update_self]
  · rw [if_neg fun h' => hk (h'.unique h), update_of_ne hk]

theorem dropGreatest_eq (h : IsGreatest { k | map k ≠ none } k) :
    dropGreatest map = Function.update map k none := by
  funext k'
  rw [dropGreatest]
  by_cases hk : k' = k
  · subst hk
    rw [if_pos h, update_self]
  · rw [if_neg fun h' => hk (h'.unique h), update_of_ne hk]

theorem Lists.exists_mem (h : Lists list map) (hk : map k ≠ none) : ∃ d, (k, d) ∈ list := by
  obtain ⟨d, hd⟩ := Option.ne_none_iff_exists'.mp hk
  exact ⟨d, (h.mem k d).mpr hd⟩

theorem Lists.tail (h : Lists ((k, d) :: list) map) : Lists list (dropLeast map) := by
  have hlist : Lists ([] ++ (k, d) :: list) map := h
  rw [dropLeast_eq (k := k)]
  · exact hlist.erase
  · refine ⟨by rw [Set.mem_ofPred_eq, hlist.here]; exact nofun, fun k' hk' => ?_⟩
    obtain ⟨d', hmem⟩ := h.exists_mem hk'
    rcases mem_cons.mp hmem with heq | hmem
    · rw [Prod.mk.injEq] at heq
      exact heq.1.ge
    · exact (hlist.around.2 _ hmem).le

theorem Lists.dropLast (h : Lists (list ++ [(k, d)]) map) : Lists list (dropGreatest map) := by
  rw [dropGreatest_eq (k := k)]
  · have herase := h.erase
    rwa [append_nil] at herase
  · refine ⟨by rw [Set.mem_ofPred_eq, h.here]; exact nofun, fun k' hk' => ?_⟩
    obtain ⟨d', hmem⟩ := h.exists_mem hk'
    rcases mem_append.mp hmem with hmem | heq
    · exact (h.around.1 _ hmem).le
    · rw [mem_singleton, Prod.mk.injEq] at heq
      exact heq.1.le

theorem Lists.eq_none (h : Lists [] map) : map = fun _ => none := by
  funext k
  cases hk : map k with
  | none => rfl
  | some d => exact nomatch (h.mem k d).mpr hk

theorem Lists.nil_dropLeast (h : Lists [] map) : Lists [] (dropLeast map) := by
  have heq : dropLeast map = map := by
    funext k
    rw [dropLeast, if_neg fun hk => hk.1 (congrFun h.eq_none k)]
  rwa [heq]

theorem Lists.nil_dropGreatest (h : Lists [] map) : Lists [] (dropGreatest map) := by
  have heq : dropGreatest map = map := by
    funext k
    rw [dropGreatest, if_neg fun hk => hk.1 (congrFun h.eq_none k)]
  rwa [heq]

end MitScheme.Associations
