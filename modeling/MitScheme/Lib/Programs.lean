

/-!
# Programs on a state

A program reads and writes a state, and may fail. `Completes` says of a program that is started in a
state that it does not fail, and what holds of its result and of the state in the end.
-/

namespace MitScheme.Programs

abbrev Program (σ α : Type) := StateT σ Option α

variable {σ α β : Type}

/-- The program returns a result, and leaves a state, for which `Q` holds. -/
def Completes (m : Program σ α) (s : σ) (Q : α → σ → Prop) : Prop :=
  ∃ a s', m s = some (a, s') ∧ Q a s'

variable {m : Program σ α} {f : α → Program σ β} {s : σ} {Q Q' : α → σ → Prop} {R : β → σ → Prop}

theorem Completes.pure {a : α} (h : Q a s) : Completes (Pure.pure a) s Q := ⟨a, s, rfl, h⟩

theorem Completes.mono (h : Completes m s Q) (hmono : ∀ a s', Q a s' → Q' a s') : Completes m s Q' := by
  obtain ⟨a, s', hm, hq⟩ := h
  exact ⟨a, s', hm, hmono a s' hq⟩

theorem Completes.bind (h : Completes m s Q) (hf : ∀ a s', Q a s' → Completes (f a) s' R) :
    Completes (m >>= f) s R := by
  obtain ⟨a, s', hm, hq⟩ := h
  obtain ⟨b, s'', hb, hr⟩ := hf a s' hq
  refine ⟨b, s'', ?_, hr⟩
  change (m s >>= fun p => f p.1 p.2) = _
  rw [hm]
  exact hb

theorem Completes.of_eq (h : Completes m s Q) {a : α} {s' : σ} (hm : m s = some (a, s')) : Q a s' := by
  obtain ⟨b, t, hb, hq⟩ := h
  rw [hm] at hb
  cases hb
  exact hq

end MitScheme.Programs

/-!
## Frames

What a program may do to its state, as a relation between the state before and the state after. When the relation is
reflexive and transitive a program keeps to it whose steps do.
-/

namespace MitScheme.Frames

abbrev Program (σ ε α : Type) := StateT σ (Except ε) α

variable {σ ε α β : Type} {R : σ → σ → Prop}

/-- Every run of the program that ends without an error keeps to the relation. -/
def Within (R : σ → σ → Prop) (m : Program σ ε α) : Prop := ∀ s a s', m s = .ok (a, s') → R s s'

theorem Within.pure (hrefl : ∀ s, R s s) (a : α) : Within R (Pure.pure a : Program σ ε α) := by
  intro s b s' h
  cases h
  exact hrefl s

theorem Within.throw (e : ε) : Within R (throw e : Program σ ε α) := by
  intro s a s' h
  cases h

theorem Within.get (hrefl : ∀ s, R s s) : Within R (get : Program σ ε σ) := by
  intro s a s' h
  cases h
  exact hrefl s

theorem Within.of_get {f : σ → Program σ ε α} (h : ∀ s a s', f s s = .ok (a, s') → R s s') :
    Within R (MonadState.get >>= f) := fun s a s' hrun => h s a s' hrun

theorem modify_bind {f : σ → σ} {m : Program σ ε α} {s s' : σ} {a : α}
    (h : ((modify f : Program σ ε PUnit) >>= fun _ => m) s = .ok (a, s')) : m (f s) = .ok (a, s') := h

theorem Within.modify {f : σ → σ} (h : ∀ s, R s (f s)) : Within R (modify f : Program σ ε PUnit) := by
  intro s a s' hrun
  cases hrun
  exact h s

theorem Within.bind (htrans : ∀ s t u, R s t → R t u → R s u) {m : Program σ ε α} {f : α → Program σ ε β}
    (hm : Within R m) (hf : ∀ a, Within R (f a)) : Within R (m >>= f) := by
  intro s b s' h
  change (m s >>= fun p => f p.1 p.2) = _ at h
  cases hrun : m s with
  | error e =>
      rw [hrun] at h
      cases h
  | ok p =>
      rw [hrun] at h
      exact htrans _ _ _ (hm s p.1 p.2 hrun) (hf p.1 p.2 b s' h)

theorem Within.map (hrefl : ∀ s, R s s) (htrans : ∀ s t u, R s t → R t u → R s u) {m : Program σ ε α} (f : α → β)
    (hm : Within R m) : Within R (f <$> m) := by
  exact hm.bind htrans fun a => Within.pure hrefl (f a)

theorem Within.mapM (hrefl : ∀ s, R s s) (htrans : ∀ s t u, R s t → R t u → R s u) {f : α → Program σ ε β}
    (l : List α) (hf : ∀ a ∈ l, Within R (f a)) : Within R (l.mapM f) := by
  induction l with
  | nil => exact Within.pure hrefl []
  | cons a l ih =>
      rw [List.mapM_cons]
      refine (hf a List.mem_cons_self).bind htrans fun b => ?_
      refine (ih fun a' ha => hf a' (List.mem_cons_of_mem _ ha)).bind htrans fun bs => ?_
      exact Within.pure hrefl (b :: bs)

theorem Within.forM (hrefl : ∀ s, R s s) (htrans : ∀ s t u, R s t → R t u → R s u) {f : α → Program σ ε PUnit}
    (l : List α) (hf : ∀ a ∈ l, Within R (f a)) : Within R (l.forM f) := by
  induction l with
  | nil => exact Within.pure hrefl PUnit.unit
  | cons a l ih =>
      refine (hf a List.mem_cons_self).bind htrans fun _ => ?_
      exact ih fun a' ha => hf a' (List.mem_cons_of_mem _ ha)

end MitScheme.Frames
