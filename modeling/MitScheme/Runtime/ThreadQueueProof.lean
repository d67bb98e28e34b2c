import MitScheme.Runtime.ThreadQueue

/-!
# Items and wake-ups

A thread queue is a list of items to those who use it. Whatever the threads do, and in whatever order they
get the mutex, the queue has the items of the list, and every thread that waits has been recorded or
signalled.
-/

namespace MitScheme.ThreadQueue

open Chains List Option Function
open Function (update)
open Prod (fst snd)

variable {ι θ : Type}

/-- There is room for an item. -/
def Room (maxSize : Option Int) (items : List ι) : Prop := ∀ max ∈ maxSize, items.length < max

instance (maxSize : Option Int) (items : List ι) : Decidable (Room maxSize items) :=
  match maxSize with
  | none => .isTrue nofun
  | some max => decidable_of_iff ((items.length : Int) < max) (by simp [Room])

/-- What a procedure returns, if it does, and makes of the items. -/
def Operation.meaning (maxSize : Option Int) (now : Int) :
    Operation ι → List ι → Option (Answer ι) × List ι
  | .queue item, items =>
      if Room maxSize items then (some (.item item), items ++ [item]) else (none, items)
  | .queueNoHang item, items =>
      if Room maxSize items then (some (.item item), items ++ [item]) else (some .false, items)
  | .dequeue, items => (items.head?.map .item, items.tail)
  | .dequeueUntil time, items =>
      ((items.head?.map Answer.item).or (if time ≤ now then some .false else none), items.tail)
  | .peek, items => (items.head?.map .item, items)
  | .peekUntil time, items =>
      ((items.head?.map Answer.item).or (if time ≤ now then some .false else none), items)
  | .push item, items =>
      (some (.item item), item :: if Room maxSize items then items else items.dropLast)
  | .empty, _ => (some .unspecific, [])

/-! ## Queues -/

/-- The pairs from the first one to the last one have the items, which are counted and no more than there
may be. A thread is recorded only while it has to wait. -/
structure Holds (s : State ι θ) (xs : List (Nat × ι)) : Prop where
  linked : Linked s.pairs s.firstPair xs none
  last : s.lastPair = xs.getLast?.map fst
  nodup : (addresses xs).Nodup
  bounded : ∀ a ∈ addresses xs, a < s.next
  count : s.elementCount = xs.length
  max : ∀ max ∈ s.maxElements, xs.length ≤ max
  dequeuers : s.waitingDequeuers ≠ [] → xs = []
  queuers : s.waitingQueuers ≠ [] → s.maxElements = some (xs.length : Int)

variable {s s' : State ι θ} {xs : List (Nat × ι)} {item : ι}

/-- What a procedure does to the threads: those that were recorded are still recorded, or have been
signalled. -/
structure Wakes (s s' : State ι θ) : Prop where
  maxElements : s'.maxElements = s.maxElements
  events : s.events ⊆ s'.events
  queuers : ∀ t ∈ s.waitingQueuers, t ∈ s'.waitingQueuers ∨ t ∈ s'.events
  dequeuers : ∀ t ∈ s.waitingDequeuers, t ∈ s'.waitingDequeuers ∨ t ∈ s'.events

theorem Wakes.refl (s : State ι θ) : Wakes s s :=
  ⟨rfl, fun _ h => h, fun _ h => .inl h, fun _ h => .inl h⟩

theorem room_iff (h : Holds s xs) :
    Room s.maxElements (xs.map snd) ↔ ∀ max ∈ s.maxElements, s.elementCount < max := by
  rw [Room, length_map, h.count]

theorem Holds.lastPair_eq_none (h : Holds s xs) : s.lastPair = none ↔ xs = [] := by
  rw [h.last, map_eq_none_iff, List.getLast?_eq_none_iff]

theorem Holds.firstPair_eq_none (h : Holds s xs) : s.firstPair = none ↔ xs = [] := by
  have hlinked := h.linked
  cases xs with
  | nil => exact ⟨fun _ => rfl, fun _ => hlinked⟩
  | cons x xs =>
      rw [hlinked.1]
      exact ⟨nofun, nofun⟩

theorem Holds.fresh (h : Holds s xs) : s.next ∉ addresses xs := fun hmem =>
  Nat.lt_irrefl _ (h.bounded s.next hmem)

theorem Holds.linked_cons (h : Holds s xs) (item : ι) (l : Link) :
    Linked (s.cons item l).pairs s.firstPair xs none :=
  h.linked.congr fun a ha => update_of_ne (Nat.ne_of_lt (h.bounded a ha)) _ _

theorem Holds.linkLast (h : Holds s xs) (item : ι) :
    ∃ pairs, (s.cons item none).linkLast s.next = some { s with pairs := pairs, next := s.next + 1 }
      ∧ (xs ≠ [] → Linked pairs s.firstPair xs (some s.next)) ∧ pairs s.next = some (item, none) := by
  rcases eq_nil_or_concat xs with rfl | ⟨ys, ⟨a, v⟩, rfl⟩
  · have hlast : s.lastPair = none := h.lastPair_eq_none.mpr rfl
    refine ⟨(s.cons item none).pairs, ?_, fun hne => absurd rfl hne, update_self ..⟩
    simp only [State.linkLast, State.cons, hlast]
  · rw [concat_eq_append] at h ⊢
    have hlast : s.lastPair = some a := by rw [h.last, List.getLast?_concat]; rfl
    have hne : s.next ≠ a := fun heq => h.fresh (by
      rw [heq, addresses_append]
      exact mem_append_right _ mem_cons_self)
    have hlinked := h.linked_cons item none
    obtain ⟨mid, -, rfl, next, hcell, -⟩ := linked_append.mp hlinked
    have hnodup := h.nodup
    rw [addresses_append] at hnodup
    refine ⟨update (s.cons item none).pairs a (some (v, some s.next)), ?_, fun _ => ?_, ?_⟩
    · simp only [State.linkLast, State.cons, hlast, State.setCdr] at hcell ⊢
      rw [hcell]
      rfl
    · exact hlinked.setNext (fun hmem => (nodup_append.mp hnodup).2.2 a hmem a
        mem_cons_self rfl) (update_self ..) fun b hb => update_of_ne hb _ _
    · rw [update_of_ne hne]
      exact update_self ..

theorem Holds.queueItem (h : Holds s xs) (hroom : ∀ max ∈ s.maxElements, s.elementCount < max)
    (item : ι) :
    ∃ s', s.queueItem item = some (item, s') ∧ Holds s' (xs ++ [(s.next, item)]) ∧ Wakes s s' := by
  obtain ⟨pairs, hlink, hlinked, hnew⟩ := h.linkLast item
  have hcount := h.count
  -- the first pair is the new one if there was none
  have hfirst : Linked pairs (if s.firstPair.isNone then some s.next else s.firstPair)
      (xs ++ [(s.next, item)]) none := by
    cases xs with
    | nil =>
        rw [h.firstPair_eq_none.mpr rfl]
        exact ⟨rfl, none, hnew, rfl⟩
    | cons x xs =>
        have hne : s.firstPair.isNone = false := by
          rw [isNone_eq_false_iff, isSome_iff_ne_none]
          exact fun hnone => cons_ne_nil x xs (h.firstPair_eq_none.mp hnone)
        rw [hne]
        exact linked_append.mpr ⟨some s.next, hlinked (cons_ne_nil x xs), rfl, none, hnew, rfl⟩
  refine ⟨State.resumeDequeuers { s with
    pairs := pairs, next := s.next + 1, lastPair := some s.next,
    firstPair := if s.firstPair.isNone then some s.next else s.firstPair,
    elementCount := s.elementCount + 1 }, ?_, ⟨hfirst, ?_, ?_, fun a ha => ?_, ?_, fun max hmax => ?_,
    fun hne => absurd rfl hne, fun hne => ?_⟩, rfl, subset_append_left _ _, fun t ht => .inl ht,
    fun t ht => .inr (mem_append_right _ ht)⟩
  · simp only [State.queueItem, hlink, bind_eq_bind, bind_some]
  · rw [List.getLast?_concat]
    rfl
  · rw [addresses_append]
    refine nodup_append.mpr ⟨h.nodup, pairwise_singleton _ _, fun a ha b hb hab => ?_⟩
    rw [hab, mem_singleton.mp hb] at ha
    exact h.fresh ha
  · rw [addresses_append] at ha
    rcases mem_append.mp ha with ha | ha
    · exact Nat.lt_succ_of_lt (h.bounded a ha)
    · rw [mem_singleton.mp ha]
      exact Nat.lt_succ_self _
  · rw [hcount, length_append]
    rfl
  · have hlt := hroom max hmax
    rw [length_append, length_singleton]
    omega
  · -- the queue was not full, so that no thread was waiting for room
    have hfull := h.queuers hne
    have hlt := hroom _ hfull
    omega

theorem Holds.dequeueItem {x : Nat × ι} (h : Holds s (x :: xs)) :
    ∃ s', s.dequeueItem = some (x.2, s') ∧ Holds s' xs ∧ Wakes s s' := by
  obtain ⟨a, item⟩ := x
  obtain ⟨hfirst, next, hcell, hrest⟩ := h.linked
  have hlast := h.last
  have hcount := h.count
  rw [length_cons] at hcount
  have hnodup := h.nodup
  have hbounded : ∀ b ∈ addresses xs, b < s.next := fun b hb =>
    h.bounded b (mem_cons_of_mem _ hb)
  have hdequeuers : s.waitingDequeuers ≠ [] → xs = [] := fun hne =>
    absurd (h.dequeuers hne) (cons_ne_nil _ _)
  have hmax : ∀ max ∈ s.maxElements, (xs.length : Int) ≤ max := by
    intro max hmax
    have := h.max max hmax
    rw [length_cons] at this
    omega
  cases xs with
  | nil =>
      have hsame : some a = s.lastPair := by
        rw [hlast]
        rfl
      refine ⟨State.resumeQueuers { s with
        firstPair := none, lastPair := none, elementCount := s.elementCount - 1 }, ?_,
        ⟨rfl, rfl, .nil, nofun, ?_, hmax, hdequeuers, fun hne => absurd rfl hne⟩, rfl,
        subset_append_left _ _, fun t ht => .inr (mem_append_right _ ht), fun t ht => .inl ht⟩
      · simp only [State.dequeueItem, hfirst, hcell, ← hsame, bind_eq_bind, bind_some,
          if_true]
      · rw [hcount]
        rfl
  | cons y ys =>
      have hnext := hrest.1
      have hmem : (y :: ys).getLast (cons_ne_nil y ys) ∈ y :: ys := getLast_mem _
      have hother : ¬ some a = s.lastPair := by
        rw [hlast, List.getLast?_cons_cons, List.getLast?_eq_some_getLast (cons_ne_nil y ys),
          map_some, some_inj]
        intro heq
        have hin := List.mem_map_of_mem (f := fst) hmem
        rw [← heq] at hin
        exact (nodup_cons.mp hnodup).1 hin
      refine ⟨State.resumeQueuers { s with
        firstPair := some y.1, elementCount := s.elementCount - 1 }, ?_,
        ⟨hnext ▸ hrest, ?_, (nodup_cons.mp hnodup).2, hbounded, ?_, hmax, hdequeuers,
          fun hne => absurd rfl hne⟩, rfl, subset_append_left _ _,
        fun t ht => .inr (mem_append_right _ ht), fun t ht => .inl ht⟩
      · simp only [State.dequeueItem, hfirst, hcell, hnext, bind_eq_bind, bind_some,
          if_neg hother, map_some]
      · exact hlast
      · change s.elementCount - 1 = _
        omega

theorem Holds.peekItem {x : Nat × ι} (h : Holds s (x :: xs)) : s.peekItem = some (x.2, s) := by
  obtain ⟨hfirst, next, hcell, -⟩ := h.linked
  simp only [State.peekItem, hfirst, hcell, bind_eq_bind, bind_some]

theorem Holds.pushItem (h : Holds s xs) (hroom : ∀ max ∈ s.maxElements, s.elementCount < max)
    (item : ι) :
    ∃ s', s.pushItem item = some (item, s') ∧ Holds s' ((s.next, item) :: xs) ∧ Wakes s s' := by
  have hcount := h.count
  have hlast : (if s.lastPair.isNone then some s.next else s.lastPair)
      = ((s.next, item) :: xs).getLast?.map fst := by
    cases xs with
    | nil =>
        rw [h.lastPair_eq_none.mpr rfl]
        rfl
    | cons x xs =>
        have hne : s.lastPair.isNone = false := by
          rw [isNone_eq_false_iff, isSome_iff_ne_none]
          exact fun hnone => cons_ne_nil x xs (h.lastPair_eq_none.mp hnone)
        rw [hne, if_neg Bool.false_ne_true, List.getLast?_cons_cons, h.last]
  refine ⟨State.resumeDequeuers { s.cons item s.firstPair with
    firstPair := some s.next, lastPair := if s.lastPair.isNone then some s.next else s.lastPair,
    elementCount := s.elementCount + 1 }, ?_, ⟨⟨rfl, s.firstPair, update_self ..,
      h.linked_cons item _⟩, hlast, ?_, fun a ha => ?_, ?_, fun max hmax => ?_,
      fun hne => absurd rfl hne, fun hne => ?_⟩, rfl, subset_append_left _ _,
    fun t ht => .inl ht, fun t ht => .inr (mem_append_right _ ht)⟩
  · rfl
  · exact nodup_cons.mpr ⟨h.fresh, h.nodup⟩
  · rcases mem_cons.mp ha with rfl | ha
    · exact Nat.lt_succ_self _
    · exact Nat.lt_succ_of_lt (h.bounded a ha)
  · rw [hcount]
    rfl
  · have hlt := hroom max hmax
    rw [length_cons]
    omega
  · have hfull := h.queuers hne
    have hlt := hroom _ hfull
    omega

theorem Holds.empty (h : Holds s xs) (hmax : ∀ max ∈ s.maxElements, 1 ≤ max) :
    Holds s.empty [] ∧ Wakes s s.empty := by
  have hcount := h.count
  have hmax0 : ∀ max ∈ s.maxElements, (([] : List (Nat × ι)).length : Int) ≤ max := by
    intro max hmem
    have := hmax max hmem
    rw [length_nil]
    omega
  by_cases hzero : s.elementCount = 0
  · obtain rfl : xs = [] := length_eq_zero_iff.mp (by omega)
    rw [State.empty, if_pos hzero]
    exact ⟨h, .refl s⟩
  · rw [State.empty, if_neg hzero]
    exact ⟨⟨rfl, rfl, .nil, nofun, rfl, hmax0, fun _ => rfl, fun hne => absurd rfl hne⟩, rfl,
      subset_append_left _ _, fun t ht => .inr (mem_append_right _ ht), fun t ht => .inl ht⟩

/-! ## A full queue -/

variable {pairs : Cells ι} {ys : List (Nat × ι)} {a b : Nat} {v w : ι}

theorem beforeLast_spec (fuel list : Nat) (h : Linked pairs (some list) (ys ++ [(b, v), (a, w)]) none)
    (hnodup : (addresses (ys ++ [(b, v), (a, w)])).Nodup) (hfuel : ys.length < fuel) :
    beforeLast pairs a fuel list = some b := by
  induction ys generalizing list fuel with
  | nil =>
      obtain ⟨heq, next, hcell, hnext, -⟩ := h
      cases heq
      obtain ⟨fuel, rfl⟩ := Nat.exists_eq_add_of_lt hfuel
      rw [beforeLast]
      simp only [hcell, hnext, bind_eq_bind, bind_some, if_true]
  | cons y ys ih =>
      obtain ⟨heq, next, hcell, hrest⟩ := h
      cases heq
      rw [length_cons] at hfuel
      obtain ⟨fuel, rfl⟩ := Nat.exists_eq_add_of_lt (Nat.zero_lt_of_lt hfuel)
      rw [cons_append, addresses_cons, nodup_cons] at hnodup
      -- the next pair is not the last one
      obtain ⟨c, rfl, hca⟩ : ∃ c, next = some c ∧ c ≠ a := by
        cases ys with
        | nil =>
            refine ⟨b, hrest.1, fun hba => ?_⟩
            have hne := (nodup_cons.mp hnodup.2).1
            rw [hba] at hne
            exact hne mem_cons_self
        | cons z zs =>
            refine ⟨z.1, hrest.1, fun hza => ?_⟩
            have hne := (nodup_cons.mp hnodup.2).1
            refine hne ?_
            change z.1 ∈ addresses (zs ++ [(b, v), (a, w)])
            rw [addresses_append, hza]
            exact mem_append_right _ (mem_cons_of_mem _ mem_cons_self)
      rw [Nat.zero_add, beforeLast]
      simp only [hcell, bind_eq_bind, bind_some, some_inj, if_neg hca]
      exact ih fuel c hrest hnodup.2 (by omega)

theorem Holds.rotate (h : Holds s (ys ++ [(b, v), (a, w)])) (item : ι) :
    ∃ s', s.rotate item = some (item, s') ∧ Holds s' ((a, item) :: (ys ++ [(b, v)])) ∧ Wakes s s' := by
  have hperm : (addresses ((a, item) :: (ys ++ [(b, v)]))).Perm
      (addresses (ys ++ [(b, v), (a, w)])) := by
    rw [addresses_cons, addresses_append, addresses_append]
    exact (perm_append_singleton a _).symm.trans (by rw [append_assoc]; exact .refl _)
  have hnodup := hperm.nodup_iff.mpr h.nodup
  have hlength : ((a, item) :: (ys ++ [(b, v)])).length = (ys ++ [(b, v), (a, w)]).length := by
    rw [← length_map fst, ← length_map fst]
    exact hperm.length_eq
  rw [addresses_cons, nodup_cons, addresses_append] at hnodup
  obtain ⟨ha, hnodup'⟩ := hnodup
  have hab : b ≠ a := fun heq => ha (heq ▸ mem_append_right _ mem_cons_self)
  have hbys : b ∉ addresses ys := fun hmem =>
    (nodup_append.mp hnodup').2.2 b hmem b mem_cons_self rfl
  have hays : a ∉ addresses ys := fun hmem => ha (mem_append_left _ hmem)
  obtain ⟨mid, hys, rfl, nb, hcellb, rfl, na, hcella, rfl⟩ := linked_append.mp h.linked
  obtain ⟨first, hfirst⟩ : ∃ first, s.firstPair = some first := by
    cases ys with
    | nil => exact ⟨b, hys⟩
    | cons z zs => exact ⟨z.1, hys.1⟩
  have hlast : s.lastPair = some a := by
    rw [h.last, List.getLast?_append_cons]
    rfl
  have hlinked := h.linked
  rw [hfirst] at hlinked hys
  have hbound := Chains.length_le h.nodup h.bounded
  rw [length_append] at hbound
  have hbefore := beforeLast_spec (s.next + 1) first hlinked h.nodup (by omega)
  -- the three pairs that are changed one after the other
  have hcella1 : update s.pairs b (some (v, none)) a = some (w, none) := by
    rw [update_of_ne hab.symm, hcella]
  have hcella2 : update (update s.pairs b (some (v, none))) a (some (item, none)) a
      = some (item, none) := update_self ..
  have hother : ∀ c, c ≠ a → c ≠ b → update (update (update s.pairs b
      (some (v, none))) a (some (item, none))) a (some (item, some first)) c = s.pairs c := by
    intro c hca hcb
    rw [update_of_ne hca, update_of_ne hca, update_of_ne hcb]
  refine ⟨{ s with
    pairs := update (update (update s.pairs b (some (v, none))) a
      (some (item, none))) a (some (item, some first)),
    lastPair := some b, firstPair := some a }, ?_, ⟨⟨rfl, some first, update_self .., ?_⟩, ?_,
      hperm.nodup_iff.mpr h.nodup, fun c hc => h.bounded c (hperm.mem_iff.mp hc), ?_, fun max hmax => ?_,
      fun hne => ?_, fun hne => ?_⟩, rfl, fun _ h => h, fun _ h => .inl h, fun _ h => .inl h⟩
  · simp only [State.rotate, hlast, hfirst, hbefore, State.setCdr, State.setCar, hcellb, hcella1,
      hcella2, bind_eq_bind, bind_some, map_some]
  · refine linked_append.mpr ⟨some b, hys.congr fun c hc => hother c (fun hca => hays (hca ▸ hc))
      fun hcb => hbys (hcb ▸ hc), rfl, none, ?_, rfl⟩
    dsimp only
    rw [update_of_ne hab, update_of_ne hab, update_self]
  · rw [← cons_append, List.getLast?_concat]
    rfl
  · rw [hlength]
    exact h.count
  · rw [hlength]
    exact h.max max hmax
  · have hnil := h.dequeuers hne
    rw [append_eq_nil_iff] at hnil
    cases hnil.2
  · rw [hlength]
    exact h.queuers hne

/-! ## Procedures -/

theorem Holds.full (h : Holds s xs) (hroom : ¬ Room s.maxElements (xs.map snd)) :
    s.maxElements = some (xs.length : Int) := by
  rw [Room, length_map] at hroom
  cases hmax : s.maxElements with
  | none =>
      rw [hmax] at hroom
      exact absurd nofun hroom
  | some max =>
      rw [hmax] at hroom
      have hle := h.max max hmax
      have hnlt : ¬ (xs.length : Int) < max := fun hlt => hroom fun m hm => by
        cases hm
        exact hlt
      rw [show max = (xs.length : Int) by omega]

theorem Holds.waitForRoom (h : Holds s xs) (hfull : s.maxElements = some (xs.length : Int))
    (thread : θ) : Holds (s.waitForRoom thread) xs ∧ Wakes s (s.waitForRoom thread) :=
  ⟨⟨h.linked, h.last, h.nodup, h.bounded, h.count, h.max, h.dequeuers, fun _ => hfull⟩, rfl,
    fun _ h => h, fun _ ht => .inl (mem_append_left _ ht), fun _ ht => .inl ht⟩

theorem Holds.waitForItem (h : Holds s []) (thread : θ) :
    Holds (s.waitForItem thread) [] ∧ Wakes s (s.waitForItem thread) :=
  ⟨⟨h.linked, h.last, h.nodup, h.bounded, h.count, h.max, fun _ => rfl, h.queuers⟩, rfl,
    fun _ h => h, fun _ ht => .inl ht, fun _ ht => .inl (mem_append_left _ ht)⟩

/-- The queue has the items, and the threads that were recorded have not been forgotten. -/
structure Yields (s s' : State ι θ) (items : List ι) (xs : List (Nat × ι)) : Prop where
  holds : Holds s' xs
  items : xs.map snd = items
  wakes : Wakes s s'

theorem Holds.queueNoHang (h : Holds s xs) (item : ι) :
    if Room s.maxElements (xs.map snd) then
      ∃ s' xs', s.queueNoHang item = some (some item, s')
        ∧ Yields s s' (xs.map snd ++ [item]) xs'
    else s.queueNoHang item = some (none, s) := by
  have hiff := room_iff h
  by_cases hroom : Room s.maxElements (xs.map snd)
  · rw [if_pos hroom]
    obtain ⟨s', hs', hholds, hwakes⟩ := h.queueItem (hiff.mp hroom) item
    refine ⟨s', _, ?_, hholds, by rw [map_append]; rfl, hwakes⟩
    rw [State.queueNoHang]
    cases hmax : s.maxElements with
    | none =>
        simp only [hs', map_some]
    | some max =>
        have hlt := hiff.mp hroom max hmax
        simp only [if_pos hlt, hs', map_some]
  · rw [if_neg hroom]
    have hfull := h.full hroom
    have hnlt : ¬ s.elementCount < (xs.length : Int) := by
      rw [h.count]
      omega
    rw [State.queueNoHang, hfull]
    exact if_neg hnlt

theorem Holds.push (h : Holds s xs) (item : ι) (hmax : ∀ max ∈ s.maxElements, 1 ≤ max)
    (hserved : ¬ (s.maxElements = some 1 ∧ s.elementCount = 1)) :
    ∃ s' xs', s.push item = some (item, s') ∧ Yields s s' (item ::
      if Room s.maxElements (xs.map snd) then xs.map snd else (xs.map snd).dropLast)
      xs' := by
  have hiff := room_iff h
  by_cases hroom : Room s.maxElements (xs.map snd)
  · rw [if_pos hroom]
    obtain ⟨s', hs', hholds, hwakes⟩ := h.pushItem (hiff.mp hroom) item
    refine ⟨s', _, ?_, hholds, rfl, hwakes⟩
    rw [State.push]
    cases hmax : s.maxElements with
    | none => exact hs'
    | some max =>
        have hlt := hiff.mp hroom max hmax
        simp only [if_pos hlt, hs']
  · rw [if_neg hroom]
    have hfull := h.full hroom
    have hcount := h.count
    have hone := hmax _ hfull
    -- a full queue has two pairs at least, as it has not only one
    have htwo : xs.length ≠ 1 := fun hlength => hserved ⟨by rw [hfull, hlength]; rfl, by omega⟩
    obtain ⟨zs, ⟨a, w⟩, rfl⟩ : ∃ zs x, xs = zs ++ [x] := by
      rcases eq_nil_or_concat xs with rfl | ⟨zs, x, rfl⟩
      · rw [length_nil] at hone
        omega
      · exact ⟨zs, x, concat_eq_append ..⟩
    obtain ⟨ys, ⟨b, v⟩, rfl⟩ : ∃ ys x, zs = ys ++ [x] := by
      rcases eq_nil_or_concat zs with rfl | ⟨ys, x, rfl⟩
      · exact absurd rfl htwo
      · exact ⟨ys, x, concat_eq_append ..⟩
    rw [append_assoc] at h hfull ⊢
    obtain ⟨s', hs', hholds, hwakes⟩ := h.rotate item
    refine ⟨s', _, ?_, hholds, ?_, hwakes⟩
    · have hnlt : ¬ s.elementCount < ((ys ++ ([(b, v)] ++ [(a, w)])).length : Int) := by
        rw [h.count]
        exact Int.lt_irrefl _
      rw [State.push, hfull]
      exact (if_neg hnlt).trans hs'
    · have hitems : (ys ++ ([(b, v)] ++ [(a, w)])).map snd = (ys ++ [(b, v)]).map snd ++ [w] := by
        rw [← append_assoc, map_append]
        rfl
      rw [hitems, dropLast_concat, map_cons]

theorem Yields.same (h : Holds s xs) : Yields s s (xs.map snd) xs := ⟨h, rfl, .refl s⟩

/-- A thread that waits in a procedure has been recorded here. -/
def Operation.waiters (s : State ι θ) : Operation ι → List θ
  | .queue _ => s.waitingQueuers
  | _ => s.waitingDequeuers

theorem Holds.whenNonEmpty (h : Holds s xs) (thread : θ)
    {operation : State ι θ → Option (ι × State ι θ)} {items : List ι} (hnil : xs = [] → items = [])
    (hoperation : ∀ x ys, xs = x :: ys →
      ∃ s' xs', operation s = some (x.2, s') ∧ Yields s s' items xs') :
    ∃ s' xs', s.whenNonEmpty thread operation = some ((xs.map snd).head?.map .item, s')
      ∧ Yields s s' items xs' ∧ (xs = [] → thread ∈ s'.waitingDequeuers) := by
  have hcount := h.count
  cases xs with
  | nil =>
      have hzero : s.elementCount = 0 := hcount
      obtain ⟨hholds, hwakes⟩ := h.waitForItem thread
      refine ⟨s.waitForItem thread, [], ?_, ⟨hholds, (hnil rfl).symm, hwakes⟩, fun _ =>
        mem_append_right _ mem_cons_self⟩
      rw [State.whenNonEmpty, if_pos hzero]
      rfl
  | cons x ys =>
      have hne : ¬ s.elementCount = 0 := by
        rw [hcount, length_cons]
        omega
      obtain ⟨s', xs', hs', hyields⟩ := hoperation x ys rfl
      refine ⟨s', xs', ?_, hyields, fun hnil => (nomatch hnil)⟩
      rw [State.whenNonEmpty, if_neg hne, hs']
      rfl

theorem Holds.whenNonEmptyBefore (h : Holds s xs) (thread : θ) (now time : Int)
    {operation : State ι θ → Option (ι × State ι θ)} {items : List ι} (hnil : xs = [] → items = [])
    (hoperation : ∀ x ys, xs = x :: ys →
      ∃ s' xs', operation s = some (x.2, s') ∧ Yields s s' items xs') :
    ∃ s' xs', s.whenNonEmptyBefore thread now time operation = some
        (((xs.map snd).head?.map Answer.item).or (if time ≤ now then some .false else none), s')
      ∧ Yields s s' items xs' ∧ (xs = [] → ¬ time ≤ now → thread ∈ s'.waitingDequeuers) := by
  by_cases htime : s.elementCount = 0 ∧ time ≤ now
  · obtain rfl : xs = [] := by
      have hcount := h.count
      exact length_eq_zero_iff.mp (by omega)
    refine ⟨s, [], ?_, ⟨h, (hnil rfl).symm, .refl s⟩, fun _ hnow => absurd htime.2 hnow⟩
    rw [State.whenNonEmptyBefore, if_pos htime.1, if_pos htime.2, if_pos htime.2]
    rfl
  · obtain ⟨s', xs', hs', hyields, hwaits⟩ := h.whenNonEmpty thread hnil hoperation
    have heq : s.whenNonEmptyBefore thread now time operation = s.whenNonEmpty thread operation := by
      rw [State.whenNonEmptyBefore, State.whenNonEmpty]
      split
      · rw [if_neg fun hnow => htime ⟨‹_›, hnow⟩]
      · rfl
    refine ⟨s', xs', ?_, hyields, fun hnil _ => hwaits hnil⟩
    rw [heq, hs']
    cases xs with
    | nil =>
        have hnow : ¬ time ≤ now := fun hnow => htime ⟨h.count, hnow⟩
        rw [if_neg hnow]
        rfl
    | cons x ys => rfl

theorem Holds.attempt (h : Holds s xs) (thread : θ) (now : Int) (hmax : ∀ max ∈ s.maxElements, 1 ≤ max)
    (operation : Operation ι)
    (hserved : ∀ item, operation = .push item → ¬ (s.maxElements = some 1 ∧ s.elementCount = 1)) :
    ∃ s' xs', s.attempt thread now operation
        = some ((operation.meaning s.maxElements now (xs.map snd)).1, s')
      ∧ Yields s s' (operation.meaning s.maxElements now (xs.map snd)).2 xs'
      ∧ ((operation.meaning s.maxElements now (xs.map snd)).1 = none →
          thread ∈ operation.waiters s') := by
  have hdequeue : ∀ x ys, xs = x :: ys → ∃ s' xs', s.dequeueItem = some (x.2, s')
      ∧ Yields s s' (xs.map snd).tail xs' := by
    intro x ys hxs
    subst hxs
    obtain ⟨s', hs', hholds, hwakes⟩ := h.dequeueItem
    exact ⟨s', ys, hs', hholds, rfl, hwakes⟩
  have hpeek : ∀ x ys, xs = x :: ys → ∃ s' xs', s.peekItem = some (x.2, s')
      ∧ Yields s s' (xs.map snd) xs' := by
    intro x ys hxs
    subst hxs
    exact ⟨s, _, h.peekItem, .same h⟩
  have hnone : (xs.map snd).head?.map Answer.item = none → xs = [] := by
    intro hnone
    cases xs with
    | nil => rfl
    | cons x ys => cases hnone
  have hnever : ∀ time, ((xs.map snd).head?.map Answer.item).or
      (if time ≤ now then some .false else none) = none →
      (xs.map snd).head?.map Answer.item = none ∧ ¬ time ≤ now := by
    intro time hanswer
    rw [or_eq_none_iff] at hanswer
    refine ⟨hanswer.1, fun hnow => ?_⟩
    rw [if_pos hnow] at hanswer
    cases hanswer.2
  cases operation with
  | queue item =>
      have hqueue := h.queueNoHang item
      rw [Operation.meaning, State.attempt]
      by_cases hroom : Room s.maxElements (xs.map snd)
      · rw [if_pos hroom] at hqueue ⊢
        obtain ⟨s', xs', hs', hyields⟩ := hqueue
        refine ⟨s', xs', ?_, hyields, fun hnone => (nomatch hnone)⟩
        rw [hs']
        rfl
      · rw [if_neg hroom] at hqueue ⊢
        obtain ⟨hholds, hwakes⟩ := h.waitForRoom (h.full hroom) thread
        refine ⟨s.waitForRoom thread, xs, ?_, ⟨hholds, rfl, hwakes⟩, fun _ =>
          mem_append_right _ mem_cons_self⟩
        rw [hqueue]
        rfl
  | queueNoHang item =>
      have hqueue := h.queueNoHang item
      rw [Operation.meaning, State.attempt]
      by_cases hroom : Room s.maxElements (xs.map snd)
      · rw [if_pos hroom] at hqueue ⊢
        obtain ⟨s', xs', hs', hyields⟩ := hqueue
        refine ⟨s', xs', ?_, hyields, fun hnone => (nomatch hnone)⟩
        rw [hs']
        rfl
      · rw [if_neg hroom] at hqueue ⊢
        refine ⟨s, xs, ?_, .same h, fun hnone => (nomatch hnone)⟩
        rw [hqueue]
        rfl
  | dequeue =>
      obtain ⟨s', xs', hs', hyields, hwaits⟩ := h.whenNonEmpty thread (fun hnil => by rw [hnil]; rfl) hdequeue
      exact ⟨s', xs', hs', hyields, fun hanswer => hwaits (hnone hanswer)⟩
  | dequeueUntil time =>
      obtain ⟨s', xs', hs', hyields, hwaits⟩ :=
        h.whenNonEmptyBefore thread now time (fun hnil => by rw [hnil]; rfl) hdequeue
      refine ⟨s', xs', hs', hyields, fun hanswer => ?_⟩
      obtain ⟨hhead, htime⟩ := hnever time hanswer
      exact hwaits (hnone hhead) htime
  | peek =>
      obtain ⟨s', xs', hs', hyields, hwaits⟩ := h.whenNonEmpty thread (fun hnil => by rw [hnil]; rfl) hpeek
      exact ⟨s', xs', hs', hyields, fun hanswer => hwaits (hnone hanswer)⟩
  | peekUntil time =>
      obtain ⟨s', xs', hs', hyields, hwaits⟩ :=
        h.whenNonEmptyBefore thread now time (fun hnil => by rw [hnil]; rfl) hpeek
      refine ⟨s', xs', hs', hyields, fun hanswer => ?_⟩
      obtain ⟨hhead, htime⟩ := hnever time hanswer
      exact hwaits (hnone hhead) htime
  | push item =>
      obtain ⟨s', xs', hs', hyields⟩ := h.push item hmax (hserved item rfl)
      refine ⟨s', xs', ?_, hyields, fun hnone => (nomatch hnone)⟩
      rw [State.attempt, hs']
      rfl
  | empty =>
      obtain ⟨hholds, hwakes⟩ := h.empty hmax
      exact ⟨s.empty, [], rfl, ⟨hholds, rfl, hwakes⟩, fun hnone => (nomatch hnone)⟩

/-! ## Threads -/

variable [DecidableEq θ]

/-- What is known of the items, and of the procedures that threads are waiting in. -/
structure Items (ι θ : Type) where
  items : List ι
  waiting : θ → Option (Operation ι)

/-- What an event does to the items. -/
def Items.perform (maxSize : Option Int) (i : Items ι θ) (event : Event ι θ) :
    Option (Answer ι) × Items ι θ :=
  match event.running i.waiting with
  | none => (none, i)
  | some operation =>
      let (answer, items) := operation.meaning maxSize event.now i.items
      (answer, ⟨items, update i.waiting event.thread
        (if answer.isNone then some operation else none)⟩)

def Items.performAll (maxSize : Option Int) :
    List (Event ι θ) → Items ι θ → List (Option (Answer ι)) × Items ι θ
  | [], i => ([], i)
  | event :: events, i =>
      let (answer, i) := i.perform maxSize event
      let (answers, i) := Items.performAll maxSize events i
      (answer :: answers, i)

/-- The queue has the items, and every thread that waits has been recorded or signalled. -/
structure Represents (maxSize : Option Int) (w : World ι θ) (xs : List (Nat × ι)) (i : Items ι θ) :
    Prop where
  maxElements : w.state.maxElements = maxSize
  holds : Holds w.state xs
  items : xs.map snd = i.items
  waiting : w.waiting = i.waiting
  woken : ∀ thread operation, w.waiting thread = some operation →
    thread ∈ operation.waiters w.state ∨ thread ∈ w.state.events

/-- An item is not pushed on a full queue that has room for one item. -/
def Event.Served (w : World ι θ) (event : Event ι θ) : Prop :=
  ∀ item, event.running w.waiting = some (.push item) →
    ¬ (w.state.maxElements = some 1 ∧ w.state.elementCount = 1)

def Served : List (Event ι θ) → World ι θ → Prop
  | [], _ => True
  | event :: events, w => event.Served w ∧
      ∀ answer w', w.perform event = some (answer, w') → Served events w'

variable {maxSize : Option Int} {w : World ι θ} {i : Items ι θ} {event : Event ι θ}

omit [DecidableEq θ] in
theorem Wakes.waiters (h : Wakes s s') (operation : Operation ι) {t : θ}
    (ht : t ∈ operation.waiters s ∨ t ∈ s.events) : t ∈ operation.waiters s' ∨ t ∈ s'.events := by
  rcases ht with ht | ht
  · cases operation with
    | queue item => exact h.queuers t ht
    | _ => exact h.dequeuers t ht
  · exact .inr (h.events ht)

theorem Holds.take (h : Holds s xs) (event : Event ι θ) : Holds (event.take s) xs := by
  cases event with
  | call _ _ _ => exact h
  | resume _ _ =>
      exact ⟨h.linked, h.last, h.nodup, h.bounded, h.count, h.max, h.dequeuers, h.queuers⟩

theorem take_maxElements (s : State ι θ) (event : Event ι θ) :
    (event.take s).maxElements = s.maxElements := by cases event <;> rfl

theorem take_elementCount (s : State ι θ) (event : Event ι θ) :
    (event.take s).elementCount = s.elementCount := by cases event <;> rfl

theorem take_waiters {t : θ} (operation : Operation ι) (ht : t ≠ event.thread)
    (hwaits : t ∈ operation.waiters s ∨ t ∈ s.events) :
    t ∈ operation.waiters (event.take s) ∨ t ∈ (event.take s).events := by
  cases event with
  | call _ _ _ => exact hwaits
  | resume thread now =>
      refine hwaits.imp (fun h => ?_) fun h => ?_
      · cases operation <;> exact h
      · exact mem_filter.mpr ⟨h, decide_eq_true ht⟩

theorem Represents.perform (h : Represents maxSize w xs i) (hmax : ∀ max ∈ maxSize, 1 ≤ max)
    (hserved : event.Served w) :
    ∃ w' xs', w.perform event = some ((i.perform maxSize event).1, w')
      ∧ Represents maxSize w' xs' (i.perform maxSize event).2 := by
  obtain ⟨rfl, hholds, hitems, hwaiting, hwoken⟩ := h
  obtain ⟨items, waiting⟩ := i
  obtain ⟨s, waiting'⟩ := w
  subst hwaiting hitems
  rw [World.perform, Items.perform]
  cases hrunning : event.running waiting' with
  | none => exact ⟨_, xs, rfl, rfl, hholds, rfl, rfl, hwoken⟩
  | some operation =>
      have hmax' : ∀ max ∈ (event.take s).maxElements, 1 ≤ max := by
        rw [take_maxElements]
        exact hmax
      have hserved' : ∀ item, operation = .push item →
          ¬ ((event.take s).maxElements = some 1 ∧ (event.take s).elementCount = 1) := by
        rw [take_maxElements, take_elementCount]
        intro item hpush
        exact hserved item (hpush ▸ hrunning)
      obtain ⟨s', xs', hs', hyields, hwaits⟩ :=
        (hholds.take event).attempt event.thread event.now hmax' operation hserved'
      rw [take_maxElements] at hs' hyields hwaits
      refine ⟨⟨s', _⟩, xs', ?_, ?_, hyields.holds, hyields.items, rfl, fun t operation' ht => ?_⟩
      · dsimp only
        rw [hs']
        rfl
      · exact hyields.wakes.maxElements.trans (take_maxElements s event)
      · dsimp only at ht ⊢
        by_cases hthread : t = event.thread
        · -- the thread itself, which has just been recorded
          rw [hthread, update_self] at ht
          split at ht
          · cases ht
            rename_i hnone
            rw [hthread]
            exact .inl (hwaits (isNone_iff_eq_none.mp hnone))
          · cases ht
        · rw [update_of_ne hthread] at ht
          exact hyields.wakes.waiters operation' (take_waiters operation' hthread (hwoken t operation' ht))

theorem Represents.performAll (events : List (Event ι θ)) (h : Represents maxSize w xs i)
    (hmax : ∀ max ∈ maxSize, 1 ≤ max) (hserved : Served events w) :
    ∃ w' xs', World.performAll events w = some ((Items.performAll maxSize events i).1, w')
      ∧ Represents maxSize w' xs' (Items.performAll maxSize events i).2 := by
  induction events generalizing w xs i with
  | nil => exact ⟨w, xs, rfl, h⟩
  | cons event events ih =>
      obtain ⟨w1, xs1, hw1, h1⟩ := h.perform hmax hserved.1
      obtain ⟨w2, xs2, hw2, h2⟩ := ih h1 (hserved.2 _ _ hw1)
      refine ⟨w2, xs2, ?_, h2⟩
      simp only [World.performAll, hw1, hw2, bind_eq_bind, bind_some]
      rfl

omit [DecidableEq θ] in
theorem represents_start (hmax : ∀ max ∈ maxSize, 1 ≤ max) :
    Represents maxSize (start maxSize : World ι θ) [] ⟨[], fun _ => none⟩ := by
  refine ⟨rfl, ⟨rfl, rfl, .nil, nofun, rfl, fun max h => ?_, fun _ => rfl, fun hne => absurd rfl hne⟩,
    rfl, rfl, fun _ _ h => (nomatch h)⟩
  have := hmax max h
  rw [length_nil]
  omega

theorem Represents.served (events : List (Event ι θ)) (h : Represents maxSize w xs i)
    (hmax : ∀ max ∈ maxSize, 1 ≤ max) (hone : maxSize ≠ some 1) : Served events w := by
  induction events generalizing w xs i with
  | nil => trivial
  | cons event events ih =>
      have hserved : event.Served w := fun _ _ hfull => hone (h.maxElements.symm.trans hfull.1)
      refine ⟨hserved, fun answer w' hw' => ?_⟩
      obtain ⟨w1, xs1, hw1, h1⟩ := h.perform hmax hserved
      rw [hw1] at hw'
      cases hw'
      exact ih h1

/-- Nothing is lost or doubled in a queue, and no thread that waits is forgotten, in any run in which no
item is pushed on a full queue with room for one. -/
theorem threadQueue_keeps_items (maxSize : Option Int) (hmax : ∀ max ∈ maxSize, 1 ≤ max)
    (events : List (Event ι θ)) (hserved : Served events (start maxSize)) :
    ∃ w xs, World.performAll events (start maxSize)
        = some ((Items.performAll maxSize events ⟨[], fun _ => none⟩).1, w)
      ∧ Represents maxSize w xs (Items.performAll maxSize events ⟨[], fun _ => none⟩).2 :=
  (represents_start hmax).performAll events hmax hserved

/-- One thread takes what two others put in, and one of these has to wait. -/
def threeThreads : List (Event Nat Nat) :=
  [.call 0 .dequeue 0, .call 1 (.queue 5) 1, .resume 0 2, .call 1 (.queue 6) 3, .call 1 (.queue 7) 4,
    .call 2 (.queue 8) 5, .call 1 (.push 9) 6, .call 0 (.dequeueUntil 9) 7, .resume 2 8]

theorem threadQueue_keeps_items_three :
    ∃ w xs, World.performAll threeThreads (start (some 2))
        = some ([none, some (.item 5), some (.item 5), some (.item 6), some (.item 7), none,
          some (.item 9), some (.item 9), some (.item 8)], w)
      ∧ Represents (some 2) w xs (Items.performAll (some 2) threeThreads ⟨[], fun _ => none⟩).2 := by
  have hmax : ∀ max ∈ some (2 : Int), 1 ≤ max := by decide
  exact threadQueue_keeps_items (some 2) hmax threeThreads
    ((represents_start hmax).served threeThreads hmax (by decide))

/-- With room for one item only, a second one cannot be pushed. -/
theorem push_on_full_fails :
    ¬ ∀ (maxSize : Option Int) (events : List (Event Nat Nat)), (∀ max ∈ maxSize, 1 ≤ max) →
      ∃ r, World.performAll events (start maxSize) = some r := by
  intro h
  obtain ⟨r, hr⟩ := h (some 1) [.call 0 (.push 7) 0, .call 0 (.push 8) 0] (by decide)
  have hfails : World.performAll [.call 0 (.push 7) 0, .call 0 (.push 8) 0]
      (start (some 1) : World Nat Nat) = none := by rfl
  cases hr

end MitScheme.ThreadQueue
