import MitScheme.Runtime.SyntaxOutputNames

/-!
# Post-processing preserves the binding structure unless names clash

The two walks are first put into a simpler form: `compute-substitution` finds the
identifiers that some binder restores, and `alpha-substitute` renames every identifier by
one function, its name in the final state of the database. A renaming preserves the
binding structure exactly when it keeps every bound identifier apart from the others in
its scope, and two identifiers get one name exactly when they clash.
-/

namespace MitScheme.SyntaxOutput

open List
open Or (inl inr)

variable {T : Type}

/-! ## What `compute-substitution` finds -/

/-- Some binder of `e` restores `i`. -/
def Restored (db : RenameDatabase) (e : Expr T) (i : Symbol) : Prop :=
  ∃ binder ∈ binders e, Restores db binder i

/-- A reference set that holds the identifiers of `l`. -/
def Holds (db : RenameDatabase) (l : List Symbol) (referenceSet : ReferenceSet) : Prop :=
  ∀ p, p ∈ referenceSet ↔ p.1 ∈ l ∧ p.2 = unmapIdentifier db p.1

/-- The table after the identifiers in `S` were restored. -/
structure Updated (db : RenameDatabase) (S : Symbol → Prop) (unmapping unmapping' : Unmapping) :
    Prop where
  restored : ∀ {i}, S i → unmapping' i = some (unmapIdentifier db i)
  unchanged : ∀ {i}, ¬ S i → unmapping' i = unmapping i

variable {S : Symbol → Prop} {u : Unmapping} {l : List Symbol} {r : ReferenceSet}

theorem Updated.trans {db : RenameDatabase} {S' : Symbol → Prop} {u' u'' : Unmapping}
    (h : Updated db S u u') (h' : Updated db S' u' u'') : Updated db (fun i => S i ∨ S' i) u u'' := by
  constructor
  · intro i hi
    by_cases hS' : S' i
    · exact h'.restored hS'
    · rw [h'.unchanged hS']
      exact h.restored (hi.resolve_right hS')
  · intro i hi
    rw [h'.unchanged fun hS => hi (inr hS), h.unchanged fun hS => hi (inl hS)]

theorem Updated.congr {db : RenameDatabase} {S' : Symbol → Prop} {u' : Unmapping}
    (h : Updated db S u u') (hS : ∀ i, S' i ↔ S i) : Updated db S' u u' :=
  ⟨fun hi => h.restored ((hS _).mp hi), fun hi => h.unchanged fun hs => hi ((hS _).mpr hs)⟩

theorem updated_none {db : RenameDatabase} (u : Unmapping) (hS : ∀ i, ¬ S i) : Updated db S u u :=
  ⟨fun hi => absurd hi (hS _), fun _ => rfl⟩

theorem lookup_isSome_of_holds {db : RenameDatabase}
    (h : Holds db l r) (i : Symbol) : (r.lookup i).isSome ↔ i ∈ l := by
  rw [lookup_isSome_iff]
  constructor
  · rintro ⟨p, hp, hi⟩
    obtain rfl : i = p.1 := by simpa using hi
    exact ((h p).mp hp).1
  · intro hi
    exact ⟨(i, unmapIdentifier db i), (h _).mpr ⟨hi, rfl⟩, by simp⟩

theorem holds_singleton (db : RenameDatabase) (i : Symbol) :
    Holds db [i] (singletonReferenceSet db i) := by
  rintro ⟨j, u⟩
  simp only [singletonReferenceSet, mem_singleton, Prod.mk.injEq]
  constructor
  · rintro ⟨rfl, rfl⟩
    exact ⟨rfl, rfl⟩
  · rintro ⟨rfl, rfl⟩
    exact ⟨rfl, rfl⟩

theorem holds_add {db : RenameDatabase} (h : Holds db l r)
    (i : Symbol) : Holds db (i :: l) (addToReferenceSet db i r) := by
  rintro ⟨j, u⟩
  unfold addToReferenceSet
  split
  · rename_i hi
    rw [lookup_isSome_of_holds h] at hi
    rw [h, mem_cons]
    constructor
    · rintro ⟨hj, hu⟩
      exact ⟨inr hj, hu⟩
    · rintro ⟨rfl | hj, hu⟩
      · exact ⟨hi, hu⟩
      · exact ⟨hj, hu⟩
  · rw [mem_cons, h, mem_cons, Prod.mk.injEq]
    constructor
    · rintro (⟨rfl, rfl⟩ | ⟨hj, hu⟩)
      · exact ⟨inl rfl, rfl⟩
      · exact ⟨inr hj, hu⟩
    · rintro ⟨rfl | hj, hu⟩
      · exact inl ⟨rfl, hu⟩
      · exact inr ⟨hj, hu⟩

theorem mem_union_iff {db : RenameDatabase} {l' : List Symbol} {s2 : ReferenceSet}
    (h' : Holds db l' s2) : ∀ (s1 : ReferenceSet) (p : Symbol × Symbol),
      p ∈ referenceSetUnion s1 s2 ↔ (p ∈ s1 ∧ p.1 ∉ l') ∨ p ∈ s2
  | [], p => by simp [referenceSetUnion]
  | item :: s1, p => by
      rw [referenceSetUnion]
      split
      · rename_i hi
        rw [lookup_isSome_of_holds h'] at hi
        rw [mem_union_iff h' s1 p, mem_cons]
        constructor
        · rintro (⟨hp, hl⟩ | hp)
          · exact inl ⟨inr hp, hl⟩
          · exact inr hp
        · rintro (⟨rfl | hp, hl⟩ | hp)
          · exact absurd hi hl
          · exact inl ⟨hp, hl⟩
          · exact inr hp
      · rename_i hi
        rw [lookup_isSome_of_holds h'] at hi
        rw [mem_cons, mem_union_iff h' s1 p, mem_cons]
        constructor
        · rintro (rfl | ⟨hp, hl⟩ | hp)
          · exact inl ⟨inl rfl, hi⟩
          · exact inl ⟨inr hp, hl⟩
          · exact inr hp
        · rintro (⟨rfl | hp, hl⟩ | hp)
          · exact inl rfl
          · exact inr (inl ⟨hp, hl⟩)
          · exact inr (inr hp)

theorem holds_union {db : RenameDatabase} {l' : List Symbol} {s1 s2 : ReferenceSet}
    (h : Holds db l s1) (h' : Holds db l' s2) : Holds db (l ++ l') (referenceSetUnion s1 s2) := by
  intro p
  rw [mem_union_iff h', h, h', mem_append]
  constructor
  · rintro (⟨⟨hp, hu⟩, -⟩ | ⟨hp, hu⟩)
    · exact ⟨inl hp, hu⟩
    · exact ⟨inr hp, hu⟩
  · rintro ⟨hp, hu⟩
    by_cases hl : p.1 ∈ l'
    · exact inr ⟨hl, hu⟩
    · exact inl ⟨⟨hp.resolve_right hl, hu⟩, hl⟩

theorem holds_remove {db : RenameDatabase} (h : Holds db l r) (bound : List Symbol) :
    Holds db (l.filter (· ∉ bound)) (removeFromReferenceSet bound r) := by
  intro p
  simp only [removeFromReferenceSet, mem_filter, h p, decide_eq_true_eq]
  constructor
  · rintro ⟨⟨h1, h2⟩, h3⟩
    exact ⟨⟨h1, h3⟩, h2⟩
  · rintro ⟨⟨h1, h3⟩, h2⟩
    exact ⟨⟨h1, h2⟩, h3⟩

theorem collision_iff {db : RenameDatabase} (h : Holds db l r) (i : Symbol) :
    unmappingCollisionP i (unmapIdentifier db i) r = true
      ↔ ∃ j ∈ l, unmapIdentifier db i = unmapIdentifier db j ∧ i ≠ j := by
  simp only [unmappingCollisionP, List.any_eq_true, decide_eq_true_eq]
  constructor
  · rintro ⟨p, hp, hu, hi⟩
    obtain ⟨hl, hpu⟩ := (h p).mp hp
    exact ⟨p.1, hl, hu.trans hpu, hi⟩
  · rintro ⟨j, hj, hu, hi⟩
    exact ⟨(j, unmapIdentifier db j), (h _).mpr ⟨hj, rfl⟩, hu, hi⟩

theorem unmapBound_updated {db : RenameDatabase} {l : List Symbol} {r : ReferenceSet}
    (h : Holds db l r) : ∀ (bound : List Symbol) (u : Unmapping),
      Updated db (fun i => ∃ before later, bound = before ++ i :: later
        ∧ (∀ j ∈ l, unmapIdentifier db i = unmapIdentifier db j → i = j)
        ∧ unmapIdentifier db i ∉ later.map (unmapIdentifier db)) u (unmapBound db r bound u)
  | [], u => by
      refine updated_none u ?_
      rintro i ⟨before, later, hb, -⟩
      simp at hb
  | b :: bound, u => by
      have hhead : Updated db (fun i => i = b
          ∧ (∀ j ∈ l, unmapIdentifier db i = unmapIdentifier db j → i = j)
          ∧ unmapIdentifier db i ∉ bound.map (unmapIdentifier db)) u
          (if unmappingCollisionP b (unmapIdentifier db b) r = true
              ∨ unmapIdentifier db b ∈ bound.map (unmapIdentifier db)
            then u else storeUnmappingEntry b (unmapIdentifier db b) u) := by
        split
        · rename_i hc
          rw [collision_iff h] at hc
          refine updated_none u ?_
          rintro i ⟨rfl, hfree, hlater⟩
          rcases hc with ⟨j, hj, hu, hne⟩ | hc
          · exact hne (hfree j hj hu)
          · exact hlater hc
        · rename_i hc
          rw [collision_iff h] at hc
          push Not at hc
          constructor
          · rintro i ⟨rfl, -⟩
            simp [storeUnmappingEntry]
          · intro i hi
            unfold storeUnmappingEntry
            rw [if_neg]
            rintro rfl
            exact hi ⟨rfl, hc.1, hc.2⟩
      refine (hhead.trans (unmapBound_updated h bound _)).congr ?_
      intro i
      constructor
      · rintro ⟨before, later, hb, hfree, hlater⟩
        cases before with
        | nil =>
            injection hb with hb hl
            exact inl ⟨hb.symm, hfree, hl ▸ hlater⟩
        | cons c before =>
            injection hb with hb hl
            exact inr ⟨before, later, hl, hfree, hlater⟩
      · rintro (⟨rfl, hfree, hlater⟩ | ⟨before, later, rfl, hfree, hlater⟩)
        · exact ⟨[], bound, rfl, hfree, hlater⟩
        · exact ⟨b :: before, later, rfl, hfree, hlater⟩

/-- What `compute-substitution` returns, for references `l` and restored identifiers `S`. -/
structure Computed (db : RenameDatabase) (l : List Symbol) (S : Symbol → Prop)
    (unmapping : Unmapping) (result : ReferenceSet × Unmapping) : Prop where
  references : Holds db l result.1
  table : Updated db S unmapping result.2

theorem binder_computed {db : RenameDatabase} {bound : List Symbol} {body : Expr T} {result : ReferenceSet × Unmapping}
    (h : Computed db (references body) (Restored db body) u result) :
    Computed db ((references body).filter (· ∉ bound))
      (fun i => ∃ binder ∈ (bound, body) :: binders body, Restores db binder i) u
      (computeSubstitutionBinder db bound result) := by
  have hrefs := holds_remove h.references bound
  refine ⟨hrefs, (h.table.trans (unmapBound_updated hrefs bound result.2)).congr ?_⟩
  intro i
  constructor
  · rintro ⟨binder, hb, hr⟩
    rcases mem_cons.mp hb with rfl | hb
    · obtain ⟨before, later, hsplit, hfree, hlater⟩ := hr
      refine inr ⟨before, later, hsplit, ?_, hlater⟩
      intro j hj
      simp only [mem_filter, decide_eq_true_eq] at hj
      exact hfree j hj.1 hj.2
    · exact inl ⟨binder, hb, hr⟩
  · rintro (⟨binder, hb, hr⟩ | ⟨before, later, hsplit, hfree, hlater⟩)
    · exact ⟨binder, mem_cons_of_mem _ hb, hr⟩
    · refine ⟨(bound, body), mem_cons_self, before, later, hsplit, ?_, hlater⟩
      intro j hj hb
      exact hfree j (by simp [hj, hb])

mutual

theorem computeSubstitution_computed (db : RenameDatabase) : ∀ (e : Expr T) (u : Unmapping),
    Computed db (references e) (Restored db e) u (computeSubstitution db e u)
  | .variable x, u | .unassignedP x, u => by
      refine ⟨holds_singleton db x, updated_none u ?_⟩
      rintro i ⟨binder, hb, -⟩
      simp [binders] at hb
  | .assignment x value, u => by
      obtain ⟨hr, ht⟩ := computeSubstitution_computed db value u
      exact ⟨holds_add hr x, ht⟩
  | .lambda _ bound body, u
  | .openBlock bound _ body, u => binder_computed (computeSubstitution_computed db body u)
  | .declaration _ e, u => by
      obtain ⟨hr, ht⟩ := computeSubstitution_computed db e u
      exact ⟨hr, ht⟩
  | .node _ es, u => by
      obtain ⟨hr, ht⟩ := computeSubstitutions_computed db es u
      exact ⟨hr, ht⟩
  | .constant c, u => by
      refine ⟨fun p => by simp [computeSubstitution, references], updated_none u ?_⟩
      rintro i ⟨binder, hb, -⟩
      simp [binders] at hb

theorem computeSubstitutions_computed (db : RenameDatabase) :
    ∀ (es : List (Expr T)) (u : Unmapping),
      Computed db (referencesList es) (fun i => ∃ binder ∈ bindersList es, Restores db binder i) u
        (computeSubstitutions db es u)
  | [], u => by
      refine ⟨fun p => by simp [computeSubstitutions, referencesList], updated_none u ?_⟩
      rintro i ⟨binder, hb, -⟩
      simp [bindersList] at hb
  | e :: es, u => by
      obtain ⟨hr', ht'⟩ := computeSubstitutions_computed db es u
      obtain ⟨hr, ht⟩ := computeSubstitution_computed db e (computeSubstitutions db es u).2
      refine ⟨holds_union hr hr', (ht'.trans ht).congr ?_⟩
      intro i
      constructor
      · rintro ⟨binder, hb, hrest⟩
        rcases mem_append.mp hb with hb | hb
        · exact inr ⟨binder, hb, hrest⟩
        · exact inl ⟨binder, hb, hrest⟩
      · rintro (⟨binder, hb, hrest⟩ | ⟨binder, hb, hrest⟩)
        · exact ⟨binder, mem_append.mpr (inr hb), hrest⟩
        · exact ⟨binder, mem_append.mpr (inl hb), hrest⟩

end

/-! ## What `alpha-substitute` does -/

mutual

/-- The expression with every identifier replaced. -/
def rename (τ : Symbol → Symbol) : Expr T → Expr T
  | .variable x => .variable (τ x)
  | .assignment x value => .assignment (τ x) (rename τ value)
  | .unassignedP x => .unassignedP (τ x)
  | .lambda pattern bound body => .lambda pattern (bound.map τ) (rename τ body)
  | .openBlock bound declarations body =>
      .openBlock (bound.map τ) (renameDeclarations τ declarations) (rename τ body)
  | .declaration text e => .declaration (renameDeclarations τ text) (rename τ e)
  | .node kind es => .node kind (renameList τ es)
  | .constant c => .constant c

def renameList (τ : Symbol → Symbol) : List (Expr T) → List (Expr T)
  | [] => []
  | e :: es => rename τ e :: renameList τ es

def renameDeclarations (τ : Symbol → Symbol) (declarations : List (Declaration T)) :
    List (Declaration T) :=
  declarations.map fun d => { d with identifiers := d.identifiers.map τ }

end

theorem texts_renameDeclarations (τ : Symbol → Symbol) (declarations : List (Declaration T)) :
    (renameDeclarations τ declarations).map Declaration.text
      = declarations.map Declaration.text := by
  simp [renameDeclarations]

section Substitute

variable (unmapping : Unmapping)

/-- The name of an identifier in a state of the database. -/
def nameIn (db : RenameDatabase) (i : Symbol) : Symbol :=
  (unmappingToSubstitution unmapping i db).1

/-- A pass that replaces the identifiers `l`, in this order: it leaves the database as naming
them does, and its result is `named` for their names in any later state. -/
def Replaces {α : Type} (l : List Symbol) (named : (Symbol → Symbol) → α)
    (pass : RenameDatabase → α × RenameDatabase) : Prop :=
  ∀ db, (pass db).2 = (substituteAll unmapping l db).2
    ∧ ∀ db', Extends (pass db).2 db' → (pass db).1 = named (nameIn unmapping db')

variable {unmapping}

variable {l : List Symbol} {α : Type} {named : (Symbol → Symbol) → α}
  {pass : RenameDatabase → α × RenameDatabase}

theorem Replaces.extends (h : Replaces unmapping l named pass)
    (db : RenameDatabase) : Extends db (pass db).2 := by
  rw [(h db).1]
  exact substituteAll_extends unmapping l db

theorem Replaces.andThen {β γ : Type} {l' : List Symbol} {named' : (Symbol → Symbol) → β}
    {pass' : RenameDatabase → β × RenameDatabase} (h : Replaces unmapping l named pass)
    (h' : Replaces unmapping l' named' pass') (f : α → β → γ) :
    Replaces unmapping (l ++ l') (fun τ => f (named τ) (named' τ))
      (fun db => (f (pass db).1 (pass' (pass db).2).1, (pass' (pass db).2).2)) := by
  intro db
  constructor
  · rw [(h' _).1, (h db).1, substituteAll_append]
  · intro db' hext
    dsimp only
    rw [(h db).2 db' ((h'.extends _).trans hext), (h' _).2 db' hext]

theorem Replaces.map {β : Type} (h : Replaces unmapping l named pass) (f : α → β) :
    Replaces unmapping l (fun τ => f (named τ)) (fun db => (f (pass db).1, (pass db).2)) :=
  fun db => ⟨(h db).1, fun db' hext => by dsimp only; rw [(h db).2 db' hext]⟩

theorem replaces_nil (a : α) : Replaces unmapping [] (fun _ => a) (fun db => (a, db)) :=
  fun _ => ⟨rfl, fun _ _ => rfl⟩

theorem replaces_substitution (i : Symbol) :
    Replaces unmapping [i] (fun τ => τ i) (unmappingToSubstitution unmapping i) :=
  fun _ => ⟨rfl, fun _ hext => (substitution_settled unmapping hext).symm⟩

theorem replaces_substituteAll (l : List Symbol) :
    Replaces unmapping l (fun τ => l.map τ) (substituteAll unmapping l) :=
  fun _ => ⟨rfl, fun _ hext => substituteAll_settled unmapping l hext⟩

theorem replaces_declarations : ∀ (declarations : List (Declaration T)),
    Replaces unmapping (declarations.flatMap Declaration.identifiers)
      (fun τ => renameDeclarations τ declarations)
      (substituteInDeclarations unmapping declarations)
  | [] => replaces_nil []
  | d :: ds =>
      (replaces_substituteAll d.identifiers).andThen (replaces_declarations ds)
        fun identifiers ds => ({ d with identifiers := identifiers } : Declaration T) :: ds

mutual

theorem replaces_alphaSubstitute : ∀ (e : Expr T),
    Replaces unmapping (occurrences e) (fun τ => rename τ e) (alphaSubstitute unmapping e)
  | .variable x | .unassignedP x => (replaces_substitution x).map _
  | .assignment x value =>
      (replaces_alphaSubstitute value).andThen (replaces_substitution x) fun value x =>
        Expr.assignment x value
  | .lambda pattern bound body =>
      (replaces_alphaSubstitute body).andThen (replaces_substituteAll bound) fun body bound =>
        Expr.lambda pattern bound body
  | .openBlock bound declarations body =>
      ((replaces_alphaSubstitute body).andThen (replaces_declarations declarations)
        Prod.mk).andThen (replaces_substituteAll bound) fun body bound =>
          Expr.openBlock bound body.2 body.1
  | .declaration text e =>
      (replaces_alphaSubstitute e).andThen (replaces_declarations text) fun e text =>
        Expr.declaration text e
  | .node _ es => (replaces_alphaSubstitutes es).map _
  | .constant _ => replaces_nil _

theorem replaces_alphaSubstitutes : ∀ (es : List (Expr T)),
    Replaces unmapping (occurrencesList es) (fun τ => renameList τ es)
      (alphaSubstitutes unmapping es)
  | [] => replaces_nil _
  | e :: es => (replaces_alphaSubstitute e).andThen (replaces_alphaSubstitutes es) List.cons

end

end Substitute

/-! ## Renaming and binding structure -/

/-- A renaming keeps a binder's identifiers apart from the others in its scope. -/
def KeepsApart (τ : Symbol → Symbol) (binder : List Symbol × Expr T) : Prop :=
  ∀ b ∈ binder.1, ∀ i, (i ∈ references binder.2 ∨ i ∈ binder.1) → i ≠ b → τ i ≠ τ b

theorem up_injective {r r' : Reference} (h : r.up = r'.up) : r = r' := by
  cases r <;> cases r' <;> simp_all [Reference.up]

theorem up_ne_bound {r : Reference} {position : Nat} : r.up ≠ .bound 0 position := by
  cases r <;> simp [Reference.up]

theorem idxOf_map_of_apart {τ : Symbol → Symbol} {x : Symbol} : ∀ {l : List Symbol}, x ∈ l →
    (∀ b ∈ l, x ≠ b → τ x ≠ τ b) → (l.map τ).idxOf (τ x) = l.idxOf x
  | [], h, _ => by cases h
  | b :: l, h, hτ => by
      by_cases hb : b = x
      · subst hb
        simp
      · have hne : τ b ≠ τ x := fun he => hτ b mem_cons_self (Ne.symm hb) he.symm
        rw [map_cons, idxOf_cons_ne _ hne, idxOf_cons_ne _ hb,
          idxOf_map_of_apart ((mem_cons.mp h).resolve_left (Ne.symm hb))
            fun b hb => hτ b (mem_cons_of_mem _ hb)]

theorem binder_resolves {τ : Symbol → Symbol} {bound : List Symbol} {body : Expr T}
    {scope scope' : List (List Symbol)} (hnd : bound.Nodup) :
    ((∀ x ∈ references body,
        resolve (bound :: scope) x = resolve (bound.map τ :: scope') (τ x))
      ∧ (bound.map τ).Nodup)
    ↔ (∀ x ∈ (references body).filter (· ∉ bound), resolve scope x = resolve scope' (τ x))
      ∧ KeepsApart τ (bound, body) := by
  constructor
  · rintro ⟨hres, hnd'⟩
    have hinj : ∀ i ∈ bound, ∀ b ∈ bound, i ≠ b → τ i ≠ τ b := by
      intro i hi b hb hne heq
      exact hne (inj_on_of_nodup_map hnd' hi hb heq)
    have houter : ∀ x ∈ references body, x ∉ bound →
        τ x ∉ bound.map τ ∧ resolve scope x = resolve scope' (τ x) := by
      intro x hx hxb
      have h := hres x hx
      rw [resolve, resolve, if_neg hxb] at h
      split at h
      · exact absurd h up_ne_bound
      · rename_i hτ
        exact ⟨hτ, up_injective h⟩
    constructor
    · intro x hx
      simp only [mem_filter, decide_eq_true_eq] at hx
      exact (houter x hx.1 hx.2).2
    · intro b hb i hi hne
      by_cases hib : i ∈ bound
      · exact hinj i hib b hb hne
      · intro heq
        refine (houter i (hi.resolve_right hib) hib).1 ?_
        rw [heq]
        exact List.mem_map_of_mem hb
  · rintro ⟨hres, hapart⟩
    have hnd' : (bound.map τ).Nodup := by
      refine List.Nodup.map_on ?_ hnd
      intro x hx y hy heq
      by_contra hne
      exact hapart y hy x (inr hx) hne heq
    refine ⟨?_, hnd'⟩
    intro x hx
    rw [resolve, resolve]
    by_cases hxb : x ∈ bound
    · rw [if_pos hxb, if_pos (List.mem_map_of_mem hxb), idxOf_map_of_apart hxb]
      intro b hb hne
      exact hapart b hb x (inr hxb) hne
    · rw [if_neg hxb, if_neg, hres x (by simp [hx, hxb])]
      intro hτ
      obtain ⟨b, hb, heq⟩ := List.mem_map.mp hτ
      refine hapart b hb x (inl hx) ?_ heq.symm
      rintro rfl
      exact hxb hb

theorem binder_alphaEquivalent {τ : Symbol → Symbol} {bound : List Symbol} {body : Expr T}
    {scope scope' : List (List Symbol)} {equivalent : Prop}
    (hnd : ∀ binder ∈ (bound, body) :: binders body, binder.1.Nodup)
    (h : equivalent ↔ (∀ x ∈ references body,
        resolve (bound :: scope) x = resolve (bound.map τ :: scope') (τ x))
      ∧ ∀ binder ∈ binders body, KeepsApart τ binder) :
    (bound.length = (bound.map τ).length ∧ (bound.Nodup → (bound.map τ).Nodup) ∧ equivalent)
    ↔ (∀ x ∈ (references body).filter (· ∉ bound), resolve scope x = resolve scope' (τ x))
      ∧ ∀ binder ∈ (bound, body) :: binders body, KeepsApart τ binder := by
  have hb : bound.Nodup := hnd (bound, body) mem_cons_self
  have hiff := @binder_resolves T τ bound body scope scope' hb
  rw [h, forall_mem_cons]
  constructor
  · rintro ⟨-, hnd', hres, hrest⟩
    obtain ⟨houter, hapart⟩ := hiff.mp ⟨hres, hnd' hb⟩
    exact ⟨houter, hapart, hrest⟩
  · rintro ⟨houter, hapart, hrest⟩
    obtain ⟨hres, hnd'⟩ := hiff.mpr ⟨houter, hapart⟩
    exact ⟨by rw [length_map], fun _ => hnd', hres, hrest⟩

mutual

theorem alphaEquivalent_rename (τ : Symbol → Symbol) : ∀ (e : Expr T)
    (scope scope' : List (List Symbol)), (∀ binder ∈ binders e, binder.1.Nodup) →
      (AlphaEquivalent scope scope' e (rename τ e)
        ↔ (∀ x ∈ references e, resolve scope x = resolve scope' (τ x))
          ∧ ∀ binder ∈ binders e, KeepsApart τ binder)
  | .variable x, scope, scope', _
  | .unassignedP x, scope, scope', _
  | .constant c, scope, scope', _ => by
      simp [rename, AlphaEquivalent, references, binders]
  | .assignment x value, scope, scope', hnd => by
      have ih := alphaEquivalent_rename τ value scope scope' hnd
      simp only [rename, AlphaEquivalent, references, binders, ih, forall_mem_cons,
        and_assoc]
  | .lambda pattern bound body, scope, scope', hnd => by
      have ih := alphaEquivalent_rename τ body (bound :: scope) (bound.map τ :: scope')
        fun binder hb => hnd binder (mem_cons_of_mem _ hb)
      simp only [rename, AlphaEquivalent, references, binders, true_and]
      exact binder_alphaEquivalent hnd ih
  | .openBlock bound declarations body, scope, scope', hnd => by
      have ih := alphaEquivalent_rename τ body (bound :: scope) (bound.map τ :: scope')
        fun binder hb => hnd binder (mem_cons_of_mem _ hb)
      simp only [rename, AlphaEquivalent, references, binders, texts_renameDeclarations,
        true_and]
      exact binder_alphaEquivalent hnd ih
  | .declaration text e, scope, scope', hnd => by
      have ih := alphaEquivalent_rename τ e scope scope' hnd
      simp only [rename, AlphaEquivalent, references, binders, texts_renameDeclarations,
        true_and, ih]
  | .node kind es, scope, scope', hnd => by
      have ih := alphaEquivalent_renameList τ es scope scope' hnd
      simp only [rename, AlphaEquivalent, references, binders, true_and, ih]

theorem alphaEquivalent_renameList (τ : Symbol → Symbol) : ∀ (es : List (Expr T))
    (scope scope' : List (List Symbol)), (∀ binder ∈ bindersList es, binder.1.Nodup) →
      (AlphaEquivalents scope scope' es (renameList τ es)
        ↔ (∀ x ∈ referencesList es, resolve scope x = resolve scope' (τ x))
          ∧ ∀ binder ∈ bindersList es, KeepsApart τ binder)
  | [], scope, scope', _ => by
      simp [renameList, AlphaEquivalents, referencesList, bindersList]
  | e :: es, scope, scope', hnd => by
      rw [bindersList, forall_mem_append] at hnd
      have ih := alphaEquivalent_rename τ e scope scope' hnd.1
      have ih' := alphaEquivalent_renameList τ es scope scope' hnd.2
      simp only [renameList, AlphaEquivalents, referencesList, bindersList, ih, ih',
        forall_mem_append]
      constructor
      · rintro ⟨⟨h1, h2⟩, h3, h4⟩
        exact ⟨⟨h1, h3⟩, h2, h4⟩
      · rintro ⟨⟨h1, h3⟩, h2, h4⟩
        exact ⟨⟨h1, h2⟩, h3, h4⟩

end

/-! ## The names after post-processing -/

/-- The table that `output/post-process-expression` computes. -/
def unmappingOf (db : RenameDatabase) (e : Expr T) : Unmapping :=
  (computeSubstitution db e fun _ => none).2

/-- The database after post-processing. -/
def finalDatabase (db : RenameDatabase) (e : Expr T) : RenameDatabase :=
  (substituteAll (unmappingOf db e) (occurrences e) db).2

/-- The name an identifier has after post-processing. -/
def finalName (db : RenameDatabase) (e : Expr T) : Symbol → Symbol :=
  nameIn (unmappingOf db e) (finalDatabase db e)

theorem postProcess_eq_rename (db : RenameDatabase) (e : Expr T) :
    postProcessExpression db e = rename (finalName db e) e := by
  obtain ⟨hdb, hname⟩ := replaces_alphaSubstitute e db
  refine hname (finalDatabase db e) ?_
  rw [hdb]
  exact Extends.refl _

section Names

variable {db : RenameDatabase} {e : Expr T}

variable {i : Symbol} {id : RenameId}

theorem unmappingOf_restored (h : Restored db e i) :
    unmappingOf db e i = some (unmapIdentifier db i) :=
  (computeSubstitution_computed db e _).table.restored h

theorem unmappingOf_eq_none : unmappingOf db e i = none ↔ ¬ Restored db e i := by
  constructor
  · intro h hr
    rw [unmappingOf_restored hr] at h
    cases h
  · exact (computeSubstitution_computed db e _).table.unchanged

theorem finalDatabase_table : (finalDatabase db e).unmappingTable = db.unmappingTable :=
  (substituteAll_extends _ _ _).table

theorem finalName_kept (h : Kept db e i) : finalName db e i = unmapIdentifier db i := by
  unfold finalName nameIn unmappingToSubstitution
  by_cases hr : Restored db e i
  · rw [unmappingOf_restored hr]
  · rw [unmappingOf_eq_none.mpr hr]
    have hi : db.unmappingTable i = none := by
      rcases h with h | h
      · simpa [Renamed] using h
      · exact absurd h hr
    rw [finalize_none (by rw [finalDatabase_table, hi])]
    simp [unmapIdentifier, hi]

open Classical in
theorem pending_eq_indexed (s : Symbol) (id : RenameId) (j : Symbol) :
    pending (unmappingOf db e) db.unmappingTable s id j = indexed db e s id j := by
  unfold pending indexed
  cases hj : db.unmappingTable j with
  | none => rfl
  | some entry =>
      have hkept : Kept db e j ↔ Restored db e j := by
        simp [Kept, Renamed, hj, Restored]
      have hcond : ∀ P : Prop, unmappingOf db e j = none ∧ P ↔ ¬ Kept db e j ∧ P := by
        intro P
        rw [unmappingOf_eq_none, hkept]
      rcases entry with ⟨⟨name | ⟨name, serial⟩⟩ | ⟨serial, form⟩, id'⟩
      · rfl
      · exact if_congr (hcond _) rfl rfl
      · exact if_congr (hcond _) rfl rfl

theorem not_kept_table (h : ¬ Kept db e i) :
    ∃ identifier id, db.unmappingTable i = some (identifier, id) := by
  unfold Kept Renamed at h
  push Not at h
  obtain ⟨⟨identifier, id⟩, hi⟩ := Option.isSome_iff_exists.mp h.1
  exact ⟨identifier, id, hi⟩

theorem not_restored_of_not_kept (h : ¬ Kept db e i) : ¬ Restored db e i :=
  fun hr => h (inr hr)

theorem finalName_interned {name : String} (hocc : i ∈ occurrences e) (hk : ¬ Kept db e i)
    (hi : db.unmappingTable i = some (.symbol (.interned name), id)) :
    ∃ n, (finalDatabase db e).frames id = some n ∧ finalName db e i = mapInternedSymbol name n := by
  have hu : unmappingOf db e i = none := unmappingOf_eq_none.mpr (not_restored_of_not_kept hk)
  obtain ⟨n, hn⟩ : ∃ n, (finalDatabase db e).frames id = some n :=
    substituteAll_forces (unmappingOf db e) hu hocc hi
  refine ⟨n, hn, ?_⟩
  unfold finalName nameIn unmappingToSubstitution
  rw [hu]
  rw [finalize_interned (by rw [finalDatabase_table, hi]), force_of_frames hn]

theorem finalName_indexed {identifier : Identifier}
    (hfresh : ∀ s, db.idTable s = []) (hocc : i ∈ occurrences e) (hk : ¬ Kept db e i)
    (hi : db.unmappingTable i = some (identifier, id)) (hx : IsIndexed identifier) :
    ∃ n, (finalDatabase db e).frames id = some n
      ∧ finalName db e i
        = mapIndexedSymbol (identifierToSymbol identifier) n (rank db e identifier id) := by
  have hu : unmappingOf db e i = none := unmappingOf_eq_none.mpr (not_restored_of_not_kept hk)
  have hnum := Numbered.substituteAll (occurrences e)
    (@numbered_nil (unmappingOf db e) db hfresh)
  rw [append_nil] at hnum
  obtain ⟨n, hn, hname⟩ := hnum.name (mem_reverse.mpr hocc) hi hx hu
  refine ⟨n, hn, ?_⟩
  have hfun : pending (unmappingOf db e) db.unmappingTable (identifierToSymbol identifier) id
      = indexed db e (identifierToSymbol identifier) id :=
    funext (pending_eq_indexed _ _)
  rw [hfun] at hname
  exact hname

theorem finalName_generated (hfresh : ∀ s, db.idTable s = [])
    (hocc : i ∈ occurrences e) (hk : ¬ Kept db e i) : GeneratedShape (finalName db e i) := by
  obtain ⟨identifier, id, hi⟩ := not_kept_table hk
  rcases isIndexed_or identifier with ⟨name, rfl⟩ | hx
  · obtain ⟨n, -, hname⟩ := finalName_interned hocc hk hi
    exact inl ⟨name, n, hname⟩
  · obtain ⟨n, -, hname⟩ := finalName_indexed hfresh hocc hk hi hx
    exact inr ⟨_, n, _, hname⟩

theorem mem_ranked {identifier : Identifier} (hocc : i ∈ occurrences e) (hk : ¬ Kept db e i)
    (hi : db.unmappingTable i = some (identifier, id)) (hx : IsIndexed identifier) :
    identifier ∈ ((occurrences e).reverse.filterMap
      (indexed db e (identifierToSymbol identifier) id)).dedup.reverse := by
  have hu : unmappingOf db e i = none := unmappingOf_eq_none.mpr (not_restored_of_not_kept hk)
  rw [mem_reverse, mem_dedup, mem_filterMap]
  refine ⟨i, mem_reverse.mpr hocc, ?_⟩
  rw [← pending_eq_indexed]
  exact pending_eq_some.mpr ⟨hi, hx, hu, rfl⟩

theorem generated_eq_iff {j : Symbol} (hfresh : ∀ s, db.idTable s = [])
    (hi : i ∈ occurrences e) (hj : j ∈ occurrences e) (hki : ¬ Kept db e i) (hkj : ¬ Kept db e j) :
    finalName db e i = finalName db e j ↔ i = j ∨ SameGenerated db e i j := by
  constructor
  · intro heq
    obtain ⟨identifier, id, hti⟩ := not_kept_table hki
    obtain ⟨identifier', id', htj⟩ := not_kept_table hkj
    rcases isIndexed_or identifier with ⟨name, rfl⟩ | hx
    · obtain ⟨n, hn, hname⟩ := finalName_interned hi hki hti
      rcases isIndexed_or identifier' with ⟨name', rfl⟩ | hx'
      · obtain ⟨n', hn', hname'⟩ := finalName_interned hj hkj htj
        rw [hname, hname'] at heq
        obtain ⟨rfl, rfl⟩ := mapInterned_inj heq
        obtain rfl := (finalDatabase db e).frames_injective hn hn'
        exact inl (db.unmapping_injective hti htj)
      · obtain ⟨n', -, hname'⟩ := finalName_indexed hfresh hj hkj htj hx'
        rw [hname, hname'] at heq
        exact absurd heq mapInterned_ne_mapIndexed
    · obtain ⟨n, hn, hname⟩ := finalName_indexed hfresh hi hki hti hx
      rcases isIndexed_or identifier' with ⟨name', rfl⟩ | hx'
      · obtain ⟨n', -, hname'⟩ := finalName_interned hj hkj htj
        rw [hname, hname'] at heq
        exact absurd heq.symm mapInterned_ne_mapIndexed
      · obtain ⟨n', hn', hname'⟩ := finalName_indexed hfresh hj hkj htj hx'
        rw [hname, hname'] at heq
        obtain ⟨hspell, rfl, hrank⟩ := mapIndexed_inj heq
        obtain rfl := (finalDatabase db e).frames_injective hn hn'
        by_cases hsym : identifierToSymbol identifier = identifierToSymbol identifier'
        · -- of one symbol and frame, different identifiers have different numbers
          left
          have hmem := mem_ranked hi hki hti hx
          unfold rank at hrank
          rw [hsym] at hrank hmem
          rw [(idxOf_inj hmem).mp hrank] at hti
          exact db.unmapping_injective hti htj
        · exact inr ⟨identifier, identifier', id, hti, htj, hx, hx', hsym, hspell, hrank⟩
  · rintro (rfl | ⟨identifier, identifier', id, hti, htj, hx, hx', -, hspell, hrank⟩)
    · rfl
    · obtain ⟨n, hn, hname⟩ := finalName_indexed hfresh hi hki hti hx
      obtain ⟨n', hn', hname'⟩ := finalName_indexed hfresh hj hkj htj hx'
      rw [hn] at hn'
      cases hn'
      rw [hname, hname', hrank]
      exact mapIndexed_congr hspell

theorem finalName_eq_iff {j : Symbol} (hwf : WellFormed db e) (hi : i ∈ occurrences e)
    (hj : j ∈ occurrences e) (hne : i ≠ j) :
    finalName db e i = finalName db e j ↔ Clash db e i j := by
  by_cases hki : Kept db e i
  · by_cases hkj : Kept db e j
    · rw [finalName_kept hki, finalName_kept hkj]
      simp [Clash, hki, hkj]
    · have hshape := finalName_generated hwf.fresh hj hkj
      constructor
      · intro heq
        rw [← heq, finalName_kept hki] at hshape
        exact absurd hshape (hwf.source i hi)
      · rintro (⟨-, hkj', -⟩ | ⟨hki', -⟩)
        · exact absurd hkj' hkj
        · exact absurd hki hki'
  · by_cases hkj : Kept db e j
    · have hshape := finalName_generated hwf.fresh hi hki
      constructor
      · intro heq
        rw [heq, finalName_kept hkj] at hshape
        exact absurd hshape (hwf.source j hj)
      · rintro (⟨hki', -⟩ | ⟨-, hkj', -⟩)
        · exact absurd hki' hki
        · exact absurd hkj hkj'
    · rw [generated_eq_iff hwf.fresh hi hj hki hkj]
      simp [Clash, hki, hkj, hne]

end Names

mutual

theorem references_subset_occurrences : ∀ (e : Expr T), references e ⊆ occurrences e
  | .variable x | .unassignedP x => by simp [references, occurrences]
  | .assignment x value => by
      have ih := references_subset_occurrences value
      intro i hi
      rcases mem_cons.mp hi with rfl | hi
      · simp [occurrences]
      · exact mem_append_left _ (ih hi)
  | .lambda _ bound body => by
      have ih := references_subset_occurrences body
      intro i hi
      exact mem_append_left _ (ih (mem_filter.mp hi).1)
  | .openBlock bound declarations body => by
      have ih := references_subset_occurrences body
      intro i hi
      exact mem_append_left _ (mem_append_left _ (ih (mem_filter.mp hi).1))
  | .declaration text e => by
      have ih := references_subset_occurrences e
      intro i hi
      exact mem_append_left _ (ih hi)
  | .node _ es => referencesList_subset_occurrences es
  | .constant _ => by simp [references]

theorem referencesList_subset_occurrences : ∀ (es : List (Expr T)),
    referencesList es ⊆ occurrencesList es
  | [] => by simp [referencesList]
  | e :: es => by
      intro i hi
      rcases mem_append.mp hi with hi | hi
      · exact mem_append_left _ (references_subset_occurrences e hi)
      · exact mem_append_right _ (referencesList_subset_occurrences es hi)

end

mutual

theorem binder_subset_occurrences : ∀ (e : Expr T), ∀ binder ∈ binders e,
    binder.1 ⊆ occurrences e ∧ occurrences binder.2 ⊆ occurrences e
  | .variable x | .unassignedP x | .constant _ => by simp [binders]
  | .assignment x value => by
      intro binder hb
      obtain ⟨h1, h2⟩ := binder_subset_occurrences value binder hb
      exact ⟨List.Subset.trans h1 (subset_append_left _ _),
          List.Subset.trans h2 (subset_append_left _ _)⟩
  | .lambda _ bound body => by
      intro binder hb
      rcases mem_cons.mp hb with rfl | hb
      · exact ⟨subset_append_right _ _, subset_append_left _ _⟩
      · obtain ⟨h1, h2⟩ := binder_subset_occurrences body binder hb
        exact ⟨List.Subset.trans h1 (subset_append_left _ _),
          List.Subset.trans h2 (subset_append_left _ _)⟩
  | .openBlock bound declarations body => by
      have hbody : occurrences body ⊆ occurrences (.openBlock bound declarations body) :=
        List.Subset.trans (subset_append_left _ _) (subset_append_left _ _)
      intro binder hb
      rcases mem_cons.mp hb with rfl | hb
      · exact ⟨subset_append_right _ _, hbody⟩
      · obtain ⟨h1, h2⟩ := binder_subset_occurrences body binder hb
        exact ⟨List.Subset.trans h1 hbody, List.Subset.trans h2 hbody⟩
  | .declaration text e => by
      intro binder hb
      obtain ⟨h1, h2⟩ := binder_subset_occurrences e binder hb
      exact ⟨List.Subset.trans h1 (subset_append_left _ _),
          List.Subset.trans h2 (subset_append_left _ _)⟩
  | .node _ es => bindersList_subset_occurrences es

theorem bindersList_subset_occurrences : ∀ (es : List (Expr T)), ∀ binder ∈ bindersList es,
    binder.1 ⊆ occurrencesList es ∧ occurrences binder.2 ⊆ occurrencesList es
  | [] => by simp [bindersList]
  | e :: es => by
      intro binder hb
      rcases mem_append.mp hb with hb | hb
      · obtain ⟨h1, h2⟩ := binder_subset_occurrences e binder hb
        exact ⟨List.Subset.trans h1 (subset_append_left _ _),
          List.Subset.trans h2 (subset_append_left _ _)⟩
      · obtain ⟨h1, h2⟩ := bindersList_subset_occurrences es binder hb
        exact ⟨List.Subset.trans h1 (subset_append_right _ _),
          List.Subset.trans h2 (subset_append_right _ _)⟩

end

/-- **Post-processing preserves the binding structure** of the syntaxer's output if and only
if no two identifiers in one scope clash. -/
theorem postProcess_alphaEquivalent_iff (db : RenameDatabase) (e : Expr T)
    (hwf : WellFormed db e) :
    AlphaEquivalent [] [] e (postProcessExpression db e) ↔ NoClash db e := by
  rw [postProcess_eq_rename, alphaEquivalent_rename _ e [] [] hwf.nodup]
  have hfree : ∀ x ∈ references e, resolve [] x = resolve [] (finalName db e x) := by
    intro x hx
    have hkept : ¬ Renamed db x := hwf.bound x hx
    rw [finalName_kept (inl hkept)]
    have : db.unmappingTable x = none := by simpa [Renamed] using hkept
    simp [unmapIdentifier, this]
  have hname : ∀ binder ∈ binders e, ∀ b ∈ binder.1, ∀ i,
      (i ∈ references binder.2 ∨ i ∈ binder.1) → i ≠ b →
        (finalName db e i = finalName db e b ↔ Clash db e i b) := by
    intro binder hbinder b hb i hi hne
    obtain ⟨h1, h2⟩ := binder_subset_occurrences e binder hbinder
    refine finalName_eq_iff hwf ?_ (h1 hb) hne
    rcases hi with hi | hi
    · exact h2 (references_subset_occurrences _ hi)
    · exact h1 hi
  constructor
  · rintro ⟨-, hapart⟩ binder hbinder b hb i hi hne hclash
    exact hapart binder hbinder b hb i hi hne ((hname binder hbinder b hb i hi hne).mpr hclash)
  · intro hno
    refine ⟨hfree, ?_⟩
    intro binder hbinder b hb i hi hne heq
    exact hno binder hbinder b hb i hi hne ((hname binder hbinder b hb i hi hne).mp heq)

/-! ## Two uninterned symbols that are spelled alike -/

namespace SpelledAlike

/-- The `n`th of the symbols spelled `x` in a macro's output. -/
def x (n : Nat) : Symbol := .uninterned "x" n

/-- The identifiers the syntaxer makes of `x 1` and `x 2`, in an outer and an inner frame. -/
def outer (n : Nat) : Symbol := .uninterned "outer" n

def inner (n : Nat) : Symbol := .uninterned "inner" n

def table : List (Symbol × Identifier × RenameId) :=
  [(outer 1, .symbol (x 1), 0), (outer 2, .symbol (x 2), 0),
    (inner 1, .symbol (x 1), 1), (inner 2, .symbol (x 2), 1)]

theorem table_injective {s t : Symbol} {entry : Identifier × RenameId}
    (hs : table.lookup s = some entry) (ht : table.lookup t = some entry) : s = t := by
  have hmem : ∀ {s}, table.lookup s = some entry → (s, entry) ∈ table := by
    intro s hs
    obtain ⟨l1, l2, hl, -⟩ := lookup_eq_some_iff.mp hs
    rw [hl]
    simp
  have hinj : ∀ p ∈ table, ∀ q ∈ table, p.2 = q.2 → p.1 = q.1 := by decide
  exact hinj _ (hmem hs) _ (hmem ht) rfl

def db : RenameDatabase where
  frameNumber := 0
  unmappingTable := fun s => table.lookup s
  idTable := fun _ => []
  frames := fun _ => none
  unmapping_injective := table_injective
  frames_le := fun h => by cases h
  frames_injective := fun h => by cases h

/-- `(lambda (x1 x2) (lambda (x1' x2') (x1 x2 x1' x2')))`, both symbols renamed twice. -/
def expression : Expr Unit :=
  .lambda () [outer 1, outer 2] <| .lambda () [inner 1, inner 2] <|
    .node .combination [.variable (outer 1), .variable (outer 2), .variable (inner 1),
      .variable (inner 2)]

theorem wellFormed_expression : WellFormed db expression where
  fresh := fun _ => rfl
  nodup := by decide
  bound := by
    have hnone : references expression = [] := by decide
    intro i hi
    cases hi
  once := by
    have hdisjoint : ∀ i ∈ [outer 1, outer 2], i ∉ [inner 1, inner 2] := by decide
    intro i _
    by_cases hi : i ∈ [outer 1, outer 2]
    · have hi' := hdisjoint i hi
      simp only [expression, binders, bindersList, append_nil, filter_cons, hi, hi']
      simp
    · have hfilter : (binders expression).filter (fun binder => i ∈ binder.1)
          = ((binders expression).drop 1).filter (fun binder => i ∈ binder.1) := by
        simp only [expression, binders, bindersList, append_nil, filter_cons, hi]
        simp [filter_cons]
      rw [hfilter]
      exact length_filter_le _ _
  source := by
    have hx : ∀ i ∈ occurrences expression,
        unmapIdentifier db i = x 1 ∨ unmapIdentifier db i = x 2 := by decide
    have hshape : ∀ n, ¬ GeneratedShape (x n) := by
      rintro n (⟨name, n, h⟩ | ⟨symbol, n, k, h⟩)
      · cases h
      · cases h
    intro i hi
    rcases hx i hi with h | h
    · rw [h]
      exact hshape 1
    · rw [h]
      exact hshape 2

theorem postProcess_expression :
    postProcessExpression db expression
      = .lambda () [x 1, x 2] (.lambda () [mapIndexedSymbol (x 1) 1 0, mapIndexedSymbol (x 1) 1 0]
          (.node .combination [.variable (x 1), .variable (x 2),
            .variable (mapIndexedSymbol (x 1) 1 0), .variable (mapIndexedSymbol (x 1) 1 0)])) := by
  rfl

end SpelledAlike

theorem postProcess_alphaEquivalent_iff_spelledAlike :
    WellFormed SpelledAlike.db SpelledAlike.expression
      ∧ (AlphaEquivalent [] [] SpelledAlike.expression
            (postProcessExpression SpelledAlike.db SpelledAlike.expression)
          ↔ NoClash SpelledAlike.db SpelledAlike.expression) :=
  ⟨SpelledAlike.wellFormed_expression,
    postProcess_alphaEquivalent_iff _ _ SpelledAlike.wellFormed_expression⟩

/-- The inner lambda ends up with one name for its two parameters. -/
theorem not_alphaEquivalent_spelledAlike :
    WellFormed SpelledAlike.db SpelledAlike.expression
      ∧ ¬ AlphaEquivalent [] [] SpelledAlike.expression
          (postProcessExpression SpelledAlike.db SpelledAlike.expression) := by
  refine ⟨SpelledAlike.wellFormed_expression, ?_⟩
  rw [SpelledAlike.postProcess_expression]
  intro h
  obtain ⟨-, -, -, -, -, hnodup, -⟩ := h
  have hinner : [SpelledAlike.inner 1, SpelledAlike.inner 2].Nodup := by decide
  have hnames := hnodup hinner
  simp at hnames

end MitScheme.SyntaxOutput
