import MitScheme.Runtime.HashTable

/-!
# What the accesses to a table do

A collection that runs before an access moves the objects and sets flags, and touches nothing else.
So the heap and the tables after some accesses are known, and of the collector it is known what a flag
tells that is not set.
-/

namespace MitScheme.HashTable

open Programs Chains

variable {κ δ P α β : Type} {type : TableType κ P} {kept kept' : Nat → Prop}
  {gc gc' gc'' : Collector P} {s s' : State κ δ P} {i : Nat} {t : Table}

/-! ## The collector -/

/-- What may happen to the collector while a procedure runs. A flag that is kept was not set before if
it is not set, and if the table is recorded nothing has moved. -/
structure Later (kept : Nat → Prop) (gc gc' : Collector P) : Prop where
  recorded : gc'.recorded = gc.recorded
  schedule : gc'.schedule.length ≤ gc.schedule.length
  still : ∀ j, kept j → gc'.needsRehash j = false → gc.needsRehash j = false
    ∧ (j ∈ gc.recorded → gc'.placement = gc.placement)
  idle : gc.schedule = [] → ∀ j, kept j → gc'.needsRehash j = gc.needsRehash j
  fixed : gc.schedule = [] → gc'.placement = gc.placement

theorem Later.refl (kept : Nat → Prop) (gc : Collector P) : Later kept gc gc :=
  ⟨rfl, Nat.le_refl _, fun _ _ h => ⟨h, fun _ => rfl⟩, fun _ _ _ => rfl, fun _ => rfl⟩

theorem Later.nil (h : Later kept gc gc') (hgc : gc.schedule = []) : gc'.schedule = [] := by
  have := h.schedule
  rw [hgc] at this
  exact List.length_eq_zero_iff.mp (Nat.le_zero.mp this)

theorem Later.trans (h : Later kept gc gc') (h' : Later kept gc' gc'') : Later kept gc gc'' := by
  refine ⟨h'.recorded.trans h.recorded, h'.schedule.trans h.schedule, fun j hj hflag => ?_,
    fun hgc j hj => ?_, fun hgc => (h'.fixed (h.nil hgc)).trans (h.fixed hgc)⟩
  · obtain ⟨hflag', hplace'⟩ := h'.still j hj hflag
    obtain ⟨hflag'', hplace⟩ := h.still j hj hflag'
    exact ⟨hflag'', fun hmem => (hplace' (h.recorded ▸ hmem)).trans (hplace hmem)⟩
  · rw [h'.idle (h.nil hgc) j hj, h.idle hgc j hj]

theorem Later.mono (h : Later kept gc gc') (hmono : ∀ j, kept' j → kept j) : Later kept' gc gc' :=
  ⟨h.recorded, h.schedule, fun j hj => h.still j (hmono j hj),
    fun hgc j hj => h.idle hgc j (hmono j hj), h.fixed⟩

theorem Later.collect (kept : Nat → Prop) (gc : Collector P) : Later kept gc gc.collect := by
  obtain ⟨placement, schedule, recorded, flags⟩ := gc
  cases schedule with
  | nil => exact .refl kept _
  | cons event rest =>
      cases event with
      | none =>
          exact ⟨rfl, Nat.le_succ _, fun _ _ h => ⟨h, fun _ => rfl⟩, fun h => (nomatch h),
            fun _ => rfl⟩
      | some p =>
          refine ⟨rfl, Nat.le_succ _, fun j _ h => ?_, fun h => (nomatch h), fun h => (nomatch h)⟩
          simp only [Collector.collect, Bool.or_eq_false_iff, List.contains_eq_mem,
            decide_eq_false_iff_not] at h
          exact ⟨h.2, fun hmem => absurd hmem h.1⟩

theorem Collector.schedule_collect (gc : Collector P) :
    gc.collect.schedule = gc.schedule.tail := by
  obtain ⟨placement, schedule, recorded, flags⟩ := gc
  cases schedule with
  | nil => rfl
  | cons event rest => cases event <;> rfl

theorem Later.setNeedsRehash (gc : Collector P) (i : Nat) (flag : Bool) :
    Later (fun j => j ≠ i) gc (gc.setNeedsRehash i flag) := by
  have hflag : ∀ j, j ≠ i → (gc.setNeedsRehash i flag).needsRehash j = gc.needsRehash j :=
    fun j hj => Function.update_of_ne hj _ _
  exact ⟨rfl, Nat.le_refl _, fun j hj h => ⟨(hflag j hj).symm.trans h, fun _ => rfl⟩,
    fun _ j hj => hflag j hj, fun _ => rfl⟩

/-- The procedure returns, and `Q` holds of its result and of the state it leaves. -/
def Does (kept : Nat → Prop) (m : M κ δ P α) (s : State κ δ P) (Q : α → State κ δ P → Prop) : Prop :=
  Completes m s fun a s' => Later kept s.gc s'.gc ∧ Q a s'

variable {m : M κ δ P α} {f : α → M κ δ P β} {Q Q' : α → State κ δ P → Prop}
  {R : β → State κ δ P → Prop}

theorem Does.pure {a : α} (h : Q a s) : Does kept (Pure.pure a) s Q :=
  Completes.pure ⟨.refl kept _, h⟩

theorem Does.bind (h : Does kept m s Q)
    (hf : ∀ a s', Later kept s.gc s'.gc → Q a s' → Does kept (f a) s' R) :
    Does kept (m >>= f) s R :=
  Completes.bind h fun a s' ⟨hlater, hq⟩ =>
    (hf a s' hlater hq).mono fun _ _ ⟨hlater', hr⟩ => ⟨hlater.trans hlater', hr⟩

theorem Does.mono (h : Does kept m s Q) (hmono : ∀ a s', Later kept s.gc s'.gc → Q a s' → Q' a s') :
    Does kept m s Q' :=
  Completes.mono h fun a s' ⟨hlater, hq⟩ => ⟨hlater, hmono a s' hlater hq⟩

theorem Does.mono_kept (h : Does kept m s Q) (hmono : ∀ j, kept' j → kept j) : Does kept' m s Q :=
  Completes.mono h fun _ _ ⟨hlater, hq⟩ => ⟨hlater.mono hmono, hq⟩

theorem Does.keep (h : Does kept m s Q) :
    Does kept m s fun a s' => Later kept s.gc s'.gc ∧ Q a s' :=
  Completes.mono h fun _ _ hq => ⟨hq.1, hq⟩

theorem Does.keepAll (h : Does (fun _ => True) m s Q) :
    Does kept m s fun a s' => Later (fun _ => True) s.gc s'.gc ∧ Q a s' :=
  h.keep.mono_kept fun _ _ => trivial

theorem Does.completes (h : Does (fun _ => True) m s Q) :
    Completes m s fun a s' => Later (fun _ => True) s.gc s'.gc ∧ Q a s' := h

/-! ## Accesses -/

theorem access_spec {f : State κ δ P → Option (α × State κ δ P)} {Q : α → State κ δ P → Prop}
    (h : ∀ gc, Later kept s.gc gc → gc.schedule = s.gc.schedule.tail →
      ∃ a s', f { s with gc := gc } = some (a, s') ∧ Later kept gc s'.gc ∧ Q a s') :
    Does kept (access f) s Q := by
  obtain ⟨a, s', hf, hlater, hq⟩ := h s.gc.collect (.collect kept _) s.gc.schedule_collect
  exact ⟨a, s', hf, (Later.collect kept _).trans hlater, hq⟩

theorem readTable_spec (h : s.tables[i]? = some t) :
    Does kept (readTable i) s fun a s' => t = a ∧ ∃ gc, s' = { s with gc := gc }
      ∧ gc.schedule = s.gc.schedule.tail :=
  access_spec fun gc _ hgc => ⟨t, _, by rw [h]; rfl, .refl _ _, rfl, gc, rfl, hgc⟩

/-- One of the tables is this one then. -/
structure Sets (tables : List Table) (i : Nat) (t : Table) (tables' : List Table) : Prop where
  get : tables'[i]? = some t
  others : ∀ j, j ≠ i → tables'[j]? = tables[j]?
  length : tables'.length = tables.length

variable {tables tables' tables'' : List Table}

theorem Sets.trans {t' : Table} (h : Sets tables i t tables') (h' : Sets tables' i t' tables'') :
    Sets tables i t' tables'' :=
  ⟨h'.get, fun j hj => (h'.others j hj).trans (h.others j hj), h'.length.trans h.length⟩

theorem Sets.modify (h : tables[i]? = some t) (f : Table → Table) :
    Sets tables i (f t) (tables.modify i f) := by
  refine ⟨?_, fun j hj => List.getElem?_modify_ne f tables (Ne.symm hj), List.length_modify ..⟩
  rw [List.getElem?_modify_eq, h]
  rfl

theorem writeTable_spec (h : s.tables[i]? = some t) (f : Table → Table) :
    Does kept (writeTable i f) s fun _ s' => ∃ tables gc, s' = { s with tables := tables, gc := gc }
      ∧ Sets s.tables i (f t) tables :=
  access_spec fun gc _ _ => ⟨(), _, if_pos (List.getElem?_eq_some_iff.mp h).1, .refl _ _, _, gc, rfl,
    .modify h f⟩

theorem tableNeedsRehash_spec (i : Nat) :
    Does kept (tableNeedsRehash i) s fun a s' => ∃ gc, s' = { s with gc := gc }
      ∧ gc.needsRehash i = a :=
  access_spec fun gc _ _ => ⟨_, _, rfl, .refl _ _, gc, rfl, rfl⟩

theorem setTableNeedsRehash_spec (i : Nat) (flag : Bool) :
    Does (fun j => j ≠ i) (setTableNeedsRehash i flag) s fun _ s' =>
      ∃ gc, s' = { s with gc := gc } ∧ gc.needsRehash i = flag :=
  access_spec fun gc _ _ => ⟨(), _, rfl, .setNeedsRehash gc i flag, _, rfl, Function.update_self ..⟩

theorem bucketRef_spec (h : s.tables[i]? = some t) {hash : Nat} {l : Link}
    (hl : t.buckets[hash]? = some l) :
    Does kept (bucketRef i hash) s fun a s' => l = a ∧ ∃ gc, s' = { s with gc := gc } :=
  access_spec fun gc _ _ => ⟨l, _, by simp only [h, hl, Option.bind_eq_bind, Option.bind_some],
    .refl _ _, rfl, gc, rfl⟩

theorem bucketSet_spec (h : s.tables[i]? = some t) {hash : Nat} (hlt : hash < t.buckets.length)
    (p : Link) :
    Does kept (bucketSet i hash p) s fun _ s' => ∃ tables gc, s' = { s with tables := tables, gc := gc }
      ∧ Sets s.tables i { t with buckets := t.buckets.set hash p } tables :=
  access_spec fun gc _ _ => ⟨(), _, by
    simp only [h, Option.bind_eq_bind, Option.bind_some, if_pos hlt],
    .refl _ _, _, gc, rfl, .modify h fun t => { t with buckets := t.buckets.set hash p }⟩

theorem consEntry_spec (key : κ) (datum : δ) :
    Does kept (consEntry key datum) s fun a s' => s.next = a ∧ ∃ gc, s' = { s with
      pairs := Function.update s.pairs s.next (some ((key, datum), none)), next := s.next + 1,
      gc := gc } :=
  access_spec fun gc _ _ => ⟨_, _, rfl, .refl _ _, rfl, gc, rfl⟩

theorem pairRef_spec {p : Nat} {entry : κ × δ} {next : Link} (h : s.pairs p = some (entry, next)) :
    Does kept (pairRef p) s fun a s' => (entry, next) = a ∧ ∃ gc, s' = { s with gc := gc } :=
  access_spec fun gc _ _ => ⟨_, _, by rw [h]; rfl, .refl _ _, rfl, gc, rfl⟩

theorem setCdr_spec {p : Nat} {entry : κ × δ} {next : Link} (h : s.pairs p = some (entry, next))
    (l : Link) :
    Does kept (setCdr p l) s fun _ s' => ∃ gc, s' = { s with
      pairs := Function.update s.pairs p (some (entry, l)), gc := gc } :=
  access_spec fun gc _ _ => ⟨(), _, by rw [h]; rfl, .refl _ _, gc, rfl⟩

theorem setEntryDatum_spec {p : Nat} {key : κ} {datum : δ} {next : Link}
    (h : s.pairs p = some ((key, datum), next)) (datum' : δ) :
    Does kept (setEntryDatum p datum') s fun _ s' => ∃ gc, s' = { s with
      pairs := Function.update s.pairs p (some ((key, datum'), next)), gc := gc } :=
  access_spec fun gc _ _ => ⟨(), _, by rw [h]; rfl, .refl _ _, gc, rfl⟩

theorem keyHash_spec (key : κ) (modulus : Nat) :
    Does kept (keyHash type key modulus) s fun a s' => ∃ gc, s' = { s with gc := gc }
      ∧ type.keyHash gc.placement key modulus = a :=
  access_spec fun gc _ _ => ⟨_, _, rfl, .refl _ _, gc, rfl, rfl⟩

theorem lift_spec {x : Option α} {a : α} (h : x = some a) :
    Does kept (StateT.lift x : M κ δ P α) s fun b s' => a = b ∧ s' = s := by
  subst h
  exact ⟨a, s, rfl, .refl _ _, rfl, rfl⟩

end MitScheme.HashTable
