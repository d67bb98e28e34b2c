import MitScheme.Runtime.SyntaxOutputSpec

/-!
# Generated names

What `finalize-mapped-identifier` generates. The spelling of a generated name determines
the frame, the index if there is one, and the spelling of the symbol, though not the
symbol itself. Names are generated on demand, and an identifier that has got one keeps
it; the index of a name is its identifier's position in the order of demand.
-/

namespace MitScheme.SyntaxOutput

open List

/-! ## Spelling -/

/-- The number a string of digits denotes. -/
def decodeDigits (l : List Char) : Nat := l.foldl (fun n c => 10 * n + (c.toNat - 48)) 0

theorem decodeDigits_toDigits : ∀ n : Nat, decodeDigits (Nat.toDigits 10 n) = n := by
  intro n
  induction n using Nat.strongRecOn with
  | ind n ih =>
      have hdigit : ∀ d < 10, (Nat.digitChar d).toNat - 48 = d := by decide
      by_cases h : n < 10
      · rw [Nat.toDigits_of_lt_base h]
        simpa [decodeDigits] using hdigit n h
      · have happ := Nat.toDigits_append_toDigits (b := 10) (by omega)
          (show 0 < n / 10 by omega) (Nat.mod_lt n (by omega))
        rw [Nat.div_add_mod] at happ
        rw [← happ, Nat.toDigits_of_lt_base (Nat.mod_lt n (by omega)), decodeDigits,
          foldl_append]
        have := ih (n / 10) (by omega)
        rw [decodeDigits] at this
        simp only [foldl_cons, foldl_nil, hdigit (n % 10) (Nat.mod_lt n (by omega))]
        omega

variable {n n' k : Nat} {s i : Symbol} {db : RenameDatabase} {id : RenameId}

theorem toDigits_injective {m : Nat} (h : Nat.toDigits 10 m = Nat.toDigits 10 n) : m = n := by
  rw [← decodeDigits_toDigits m, h, decodeDigits_toDigits]

theorem not_mem_toDigits {c : Char} (h : c.isDigit = false) (n : Nat) :
    c ∉ Nat.toDigits 10 n := by
  intro hc
  rw [Nat.isDigit_of_mem_toDigits (by decide) (by decide) hc] at h
  cases h

theorem append_cons_cancel {α : Type} {a : α} : ∀ {t t' u u' : List α}, a ∉ t → a ∉ t' →
    t ++ a :: u = t' ++ a :: u' → t = t' ∧ u = u'
  | [], [], u, u', _, _, h => by
      injection h with _ h
      exact ⟨rfl, h⟩
  | [], c :: t', u, u', _, ht', h => by
      injection h with h
      exact absurd (mem_cons.mpr (Or.inl h)) ht'
  | c :: t, [], u, u', ht, _, h => by
      injection h with h
      exact absurd (mem_cons.mpr (Or.inl h.symm)) ht
  | c :: t, c' :: t', u, u', ht, ht', h => by
      injection h with hc h
      obtain ⟨h1, h2⟩ := append_cons_cancel (fun hm => ht (mem_cons_of_mem _ hm))
        (fun hm => ht' (mem_cons_of_mem _ hm)) h
      exact ⟨by rw [hc, h1], h2⟩

theorem append_dot_cancel {t t' u u' : List Char} (hu : '.' ∉ u) (hu' : '.' ∉ u')
    (h : t ++ '.' :: u = t' ++ '.' :: u') : t = t' ∧ u = u' := by
  have hrev := congrArg List.reverse h
  simp only [reverse_append, reverse_cons, append_assoc, cons_append,
    nil_append] at hrev
  obtain ⟨h1, h2⟩ := append_cons_cancel (by simpa using hu) (by simpa using hu') hrev
  exact ⟨reverse_injective h2, reverse_injective h1⟩

theorem toList_mapInterned (name : String) (n : Nat) :
    (mapInternedSymbol name n).name.toList
      = '.' :: name.toList ++ '.' :: Nat.toDigits 10 n := by
  simp [mapInternedSymbol, Symbol.name, String.toList_append, Nat.toList_repr]

theorem toList_mapIndexed (symbol : Symbol) (n k : Nat) :
    (mapIndexedSymbol symbol n k).name.toList
      = '.' :: symbol.name.toList ++ '.' :: (Nat.toDigits 10 n ++ '-' :: Nat.toDigits 10 k) := by
  simp [mapIndexedSymbol, Symbol.name, String.toList_append, Nat.toList_repr]

theorem dot_not_mem_indexed (n k : Nat) :
    '.' ∉ Nat.toDigits 10 n ++ '-' :: Nat.toDigits 10 k := by
  simp [not_mem_toDigits (show '.'.isDigit = false by decide)]

theorem mapInterned_inj {name name' : String}
    (h : mapInternedSymbol name n = mapInternedSymbol name' n') : name = name' ∧ n = n' := by
  have hl := congrArg (fun s => s.name.toList) h
  simp only [toList_mapInterned] at hl
  obtain ⟨h1, h2⟩ := append_dot_cancel (not_mem_toDigits (by decide) n)
    (not_mem_toDigits (by decide) n') hl
  injection h1 with _ h1
  exact ⟨String.toList_inj.mp h1, toDigits_injective h2⟩

theorem mapIndexed_inj {s' : Symbol} {k' : Nat}
    (h : mapIndexedSymbol s n k = mapIndexedSymbol s' n' k') :
    s.name = s'.name ∧ n = n' ∧ k = k' := by
  have hl := congrArg (fun s => s.name.toList) h
  simp only [toList_mapIndexed] at hl
  obtain ⟨h1, h2⟩ := append_dot_cancel (dot_not_mem_indexed n k) (dot_not_mem_indexed n' k') hl
  injection h1 with _ h1
  obtain ⟨h3, h4⟩ := append_cons_cancel (not_mem_toDigits (by decide) n)
    (not_mem_toDigits (by decide) n') h2
  exact ⟨String.toList_inj.mp h1, toDigits_injective h3, toDigits_injective h4⟩

theorem mapIndexed_congr {s' : Symbol} (h : s.name = s'.name) :
    mapIndexedSymbol s n k = mapIndexedSymbol s' n k := by
  unfold mapIndexedSymbol
  rw [h]

theorem mapInterned_ne_mapIndexed {name : String} :
    mapInternedSymbol name n ≠ mapIndexedSymbol s n' k := by
  intro h
  have hl := congrArg (fun s => s.name.toList) h
  simp only [toList_mapInterned, toList_mapIndexed] at hl
  obtain ⟨-, h2⟩ := append_dot_cancel (not_mem_toDigits (by decide) n)
    (dot_not_mem_indexed n' k) hl
  have hmem : '-' ∈ Nat.toDigits 10 n := by
    rw [h2]
    simp
  exact not_mem_toDigits (by decide) n hmem

/-! ## One identifier -/

/-- The generated symbol of an identifier, in a frame. -/
def RenameDatabase.generated (db : RenameDatabase) (n : Nat) (identifier : Identifier) :
    Option Symbol :=
  ((db.idTable (identifierToSymbol identifier)).lookup n).bind (·.lookup identifier)

/-- A later state of the database: whatever was decided is still decided. -/
structure Extends (db db' : RenameDatabase) : Prop where
  table : db'.unmappingTable = db.unmappingTable
  frames : ∀ {id n}, db.frames id = some n → db'.frames id = some n
  generated : ∀ {n identifier s}, db.generated n identifier = some s →
    db'.generated n identifier = some s

theorem Extends.refl (db : RenameDatabase) : Extends db db := ⟨rfl, id, id⟩

theorem Extends.trans {db db' db'' : RenameDatabase} (h : Extends db db')
    (h' : Extends db' db'') : Extends db db'' :=
  ⟨h'.table.trans h.table, fun hf => h'.frames (h.frames hf),
    fun hg => h'.generated (h.generated hg)⟩

theorem lookup_setEntry (n : Nat) (entry : List (Identifier × Symbol)) :
    ∀ (alist : List (Nat × List (Identifier × Symbol))) (m : Nat),
      (setEntry n entry alist).lookup m
        = if m = n then (alist.lookup n).map fun _ => entry else alist.lookup m
  | [], m => by simp [setEntry]
  | (k, e) :: alist, m => by
      rw [setEntry]
      by_cases hk : k = n
      · subst hk
        by_cases hm : m = k
        · subst hm
          simp
        · have hb : (m == k) = false := by simpa using hm
          simp [lookup_cons, hb, hm]
      · rw [if_neg hk, lookup_cons, lookup_setEntry n entry alist m]
        by_cases hm : m = n
        · subst hm
          have hb : (m == k) = false := by simpa using Ne.symm hk
          simp [lookup_cons, hb]
        · simp [lookup_cons, hm]

theorem force_frames (id : RenameId) (db : RenameDatabase) :
    (forceRenameId id db).2.frames id = some (forceRenameId id db).1 := by
  unfold forceRenameId
  split
  · rename_i n h
    exact h
  · simp

theorem force_idTable (id : RenameId) (db : RenameDatabase) :
    (forceRenameId id db).2.idTable = db.idTable := by
  unfold forceRenameId
  split <;> rfl

theorem force_table (id : RenameId) (db : RenameDatabase) :
    (forceRenameId id db).2.unmappingTable = db.unmappingTable := by
  unfold forceRenameId
  split <;> rfl

theorem force_of_frames (h : db.frames id = some n) : forceRenameId id db = (n, db) := by
  unfold forceRenameId
  split
  · rename_i m hm
    rw [hm] at h
    cases h
    rfl
  · rename_i hm
    rw [hm] at h
    cases h

theorem force_extends (id : RenameId) (db : RenameDatabase) :
    Extends db (forceRenameId id db).2 := by
  refine ⟨force_table id db, ?_, ?_⟩
  · intro id' n hn
    unfold forceRenameId
    split
    · exact hn
    · rename_i hnone
      dsimp only
      rw [if_neg]
      · exact hn
      · rintro rfl
        rw [hnone] at hn
        cases hn
  · intro n identifier s hs
    unfold RenameDatabase.generated at *
    rw [force_idTable]
    exact hs

/-- The symbols generated for the identifiers of one symbol in one frame. -/
def RenameDatabase.entry (db : RenameDatabase) (s : Symbol) (n : Nat) :
    List (Identifier × Symbol) := ((db.idTable s).lookup n).getD []

theorem generated_eq_lookup (db : RenameDatabase) (n : Nat) (identifier : Identifier) :
    db.generated n identifier = (db.entry (identifierToSymbol identifier) n).lookup identifier := by
  unfold RenameDatabase.generated RenameDatabase.entry
  cases (db.idTable (identifierToSymbol identifier)).lookup n <;> rfl

theorem mapUninterned_spec (identifier : Identifier) (n : Nat) (db : RenameDatabase) :
    (∃ s, db.generated n identifier = some s
      ∧ mapUninternedIdentifier identifier n db = (s, db))
    ∨ (db.generated n identifier = none
      ∧ (mapUninternedIdentifier identifier n db).1
        = mapIndexedSymbol (identifierToSymbol identifier) n
            (db.entry (identifierToSymbol identifier) n).length
      ∧ (mapUninternedIdentifier identifier n db).2.unmappingTable = db.unmappingTable
      ∧ (mapUninternedIdentifier identifier n db).2.frames = db.frames
      ∧ ∀ s m, (mapUninternedIdentifier identifier n db).2.entry s m
        = if s = identifierToSymbol identifier ∧ m = n then
            (identifier, (mapUninternedIdentifier identifier n db).1) :: db.entry s m
          else db.entry s m) := by
  unfold mapUninternedIdentifier
  dsimp only
  cases hl : (db.idTable (identifierToSymbol identifier)).lookup n with
  | some entry =>
      have hent : db.entry (identifierToSymbol identifier) n = entry := by
        unfold RenameDatabase.entry
        rw [hl]
        rfl
      dsimp only
      cases hi : entry.lookup identifier with
      | some s =>
          refine Or.inl ⟨s, ?_, rfl⟩
          rw [generated_eq_lookup, hent, hi]
      | none =>
          refine Or.inr ⟨by rw [generated_eq_lookup, hent, hi], by rw [hent], rfl, rfl, ?_⟩
          intro s m
          unfold RenameDatabase.entry RenameDatabase.putIds
          dsimp only
          by_cases hs : s = identifierToSymbol identifier
          · subst hs
            rw [if_pos rfl, lookup_setEntry]
            by_cases hm : m = n
            · subst hm
              simp [hl]
            · simp [hm]
          · simp [hs]
  | none =>
      have hent : db.entry (identifierToSymbol identifier) n = [] := by
        unfold RenameDatabase.entry
        rw [hl]
        rfl
      refine Or.inr ⟨by rw [generated_eq_lookup, hent]; rfl, by rw [hent]; rfl, rfl, rfl, ?_⟩
      intro s m
      unfold RenameDatabase.entry RenameDatabase.putIds
      dsimp only
      by_cases hs : s = identifierToSymbol identifier
      · subst hs
        rw [if_pos rfl, lookup_cons]
        by_cases hm : m = n
        · subst hm
          simp [hl]
        · have hb : (m == n) = false := by simpa using hm
          simp [hb, hm]
      · simp [hs]

theorem mapUninterned_extends (identifier : Identifier) (n : Nat) (db : RenameDatabase) :
    Extends db (mapUninternedIdentifier identifier n db).2
      ∧ (mapUninternedIdentifier identifier n db).2.generated n identifier
        = some (mapUninternedIdentifier identifier n db).1 := by
  rcases mapUninterned_spec identifier n db with ⟨s, hs, heq⟩ | ⟨hnone, -, ht, hf, he⟩
  · rw [heq]
    exact ⟨Extends.refl db, hs⟩
  · refine ⟨⟨ht, fun h => by rw [hf]; exact h, ?_⟩, ?_⟩
    · intro m identifier' s hs
      rw [generated_eq_lookup] at hs ⊢
      rw [he]
      split
      · rename_i heq
        obtain ⟨hsym, rfl⟩ := heq
        rw [lookup_cons]
        split
        · rename_i hid
          obtain rfl : identifier' = identifier := by simpa using hid
          rw [generated_eq_lookup, hs] at hnone
          cases hnone
        · exact hs
      · exact hs
    · rw [generated_eq_lookup, he]
      simp

/-- An identifier that `finalize-mapped-identifier` names with an index. -/
def IsIndexed (identifier : Identifier) : Prop := ∀ name, identifier ≠ .symbol (.interned name)

theorem isIndexed_or (identifier : Identifier) :
    (∃ name, identifier = .symbol (.interned name)) ∨ IsIndexed identifier := by
  rcases identifier with ⟨name | ⟨name, serial⟩⟩ | ⟨serial, form⟩
  · exact Or.inl ⟨name, rfl⟩
  · exact Or.inr fun name' h => by cases h
  · exact Or.inr fun name' h => by cases h

theorem finalize_interned {name : String}
    (h : db.unmappingTable i = some (.symbol (.interned name), id)) :
    finalizeMappedIdentifier i db
      = (mapInternedSymbol name (forceRenameId id db).1, (forceRenameId id db).2) := by
  unfold finalizeMappedIdentifier
  rw [h]

theorem finalize_indexed {identifier : Identifier} (h : db.unmappingTable i = some (identifier, id))
    (hx : IsIndexed identifier) :
    finalizeMappedIdentifier i db
      = mapUninternedIdentifier identifier (forceRenameId id db).1 (forceRenameId id db).2 := by
  unfold finalizeMappedIdentifier
  rw [h]
  rcases identifier with ⟨name | ⟨name, serial⟩⟩ | ⟨serial, form⟩
  · exact absurd rfl (hx name)
  · rfl
  · rfl

theorem finalize_none (h : db.unmappingTable i = none) :
    finalizeMappedIdentifier i db = (i, db) := by
  unfold finalizeMappedIdentifier
  rw [h]

theorem finalize_extends (i : Symbol) (db : RenameDatabase) :
    Extends db (finalizeMappedIdentifier i db).2 := by
  cases h : db.unmappingTable i with
  | none =>
      rw [finalize_none h]
      exact Extends.refl db
  | some entry =>
      obtain ⟨identifier, id⟩ := entry
      rcases isIndexed_or identifier with ⟨name, rfl⟩ | hx
      · rw [finalize_interned h]
        exact force_extends id db
      · rw [finalize_indexed h hx]
        exact (force_extends id db).trans (mapUninterned_extends _ _ _).1

theorem finalize_forces {identifier : Identifier} (h : db.unmappingTable i = some (identifier, id)) :
    ∃ n, (finalizeMappedIdentifier i db).2.frames id = some n := by
  refine ⟨(forceRenameId id db).1, ?_⟩
  rcases isIndexed_or identifier with ⟨name, rfl⟩ | hx
  · rw [finalize_interned h]
    exact force_frames id db
  · rw [finalize_indexed h hx]
    exact (mapUninterned_extends _ _ _).1.frames (force_frames id db)

theorem finalize_settled {db' : RenameDatabase}
    (h : Extends (finalizeMappedIdentifier i db).2 db') :
    (finalizeMappedIdentifier i db').1 = (finalizeMappedIdentifier i db).1 := by
  have ht : db'.unmappingTable i = db.unmappingTable i := by
    rw [((finalize_extends i db).trans h).table]
  cases hi : db.unmappingTable i with
  | none => rw [finalize_none hi, finalize_none (ht.trans hi)]
  | some entry =>
      obtain ⟨identifier, id⟩ := entry
      rcases isIndexed_or identifier with ⟨name, rfl⟩ | hx
      · rw [finalize_interned hi] at h ⊢
        rw [finalize_interned (ht.trans hi), force_of_frames (h.frames (force_frames id db))]
      · rw [finalize_indexed hi hx] at h ⊢
        rw [finalize_indexed (ht.trans hi) hx]
        obtain ⟨hext, hgen⟩ :=
          mapUninterned_extends identifier (forceRenameId id db).1 (forceRenameId id db).2
        rw [force_of_frames (h.frames (hext.frames (force_frames id db)))]
        rcases mapUninterned_spec identifier (forceRenameId id db).1 db' with
          ⟨s, hs, heq⟩ | ⟨hnone, -⟩
        · rw [h.generated hgen] at hs
          cases hs
          rw [heq]
        · rw [h.generated hgen] at hnone
          cases hnone

/-! ## All identifiers -/

section Substitution

variable (unmapping : Unmapping)

theorem substitution_extends (i : Symbol) (db : RenameDatabase) :
    Extends db (unmappingToSubstitution unmapping i db).2 := by
  unfold unmappingToSubstitution
  split
  · exact Extends.refl db
  · exact finalize_extends i db

theorem substitution_settled {i : Symbol} {db db' : RenameDatabase}
    (h : Extends (unmappingToSubstitution unmapping i db).2 db') :
    (unmappingToSubstitution unmapping i db').1 = (unmappingToSubstitution unmapping i db).1 := by
  unfold unmappingToSubstitution at *
  split
  · rfl
  · rename_i hnone
    rw [hnone] at h
    exact finalize_settled h

theorem substituteAll_extends : ∀ (l : List Symbol) (db : RenameDatabase),
    Extends db (substituteAll unmapping l db).2
  | [], db => Extends.refl db
  | i :: l, db =>
      (substitution_extends unmapping i db).trans (substituteAll_extends l _)

theorem substituteAll_settled : ∀ (l : List Symbol) {db db' : RenameDatabase},
    Extends (substituteAll unmapping l db).2 db' →
      (substituteAll unmapping l db).1
        = l.map fun i => (unmappingToSubstitution unmapping i db').1
  | [], db, db', _ => rfl
  | i :: l, db, db', h => by
      have hl := substituteAll_settled l h
      have hi := substitution_settled unmapping ((substituteAll_extends unmapping l _).trans h)
      rw [map_cons, hi, ← hl]
      rfl

theorem substituteAll_append (l l' : List Symbol) (db : RenameDatabase) :
    (substituteAll unmapping (l ++ l') db).2
      = (substituteAll unmapping l' (substituteAll unmapping l db).2).2 := by
  induction l generalizing db with
  | nil => rfl
  | cons i l ih => exact ih _

theorem substituteAll_forces {i : Symbol} {identifier : Identifier} {id : RenameId}
    (hu : unmapping i = none) : ∀ {l : List Symbol} {db : RenameDatabase}, i ∈ l →
      db.unmappingTable i = some (identifier, id) →
      ∃ n, (substituteAll unmapping l db).2.frames id = some n
  | [], db, hl, _ => by cases hl
  | j :: l, db, hl, hi => by
      by_cases hj : i = j
      · subst hj
        obtain ⟨n, hn⟩ := finalize_forces hi
        refine ⟨n, (substituteAll_extends unmapping l _).frames ?_⟩
        rw [hu]
        exact hn
      · have hi' : (unmappingToSubstitution unmapping j db).2.unmappingTable i
            = some (identifier, id) := by
          rw [(substitution_extends unmapping j db).table]
          exact hi
        have hl' : i ∈ l := (mem_cons.mp hl).resolve_left hj
        obtain ⟨n, hn⟩ := substituteAll_forces hu hl' hi'
        exact ⟨n, hn⟩

end Substitution

/-! ## Indices -/

section Indices

variable (unmapping : Unmapping) (table : Symbol → Option (Identifier × RenameId))

/-- The identifier `j` stands for, if it is named with an index, after `s` in the frame `id`. -/
def pending (s : Symbol) (id : RenameId) (j : Symbol) : Option Identifier :=
  match table j with
  | none => none
  | some (.symbol (.interned _), _) => none
  | some (identifier, id') =>
      if unmapping j = none ∧ identifierToSymbol identifier = s ∧ id' = id then some identifier
      else none

variable {unmapping table}

variable {id : RenameId} {identifier : Identifier} {db : RenameDatabase} {i : Symbol}
  {l : List Symbol}

theorem pending_eq_some {s : Symbol} {j : Symbol} :
    pending unmapping table s id j = some identifier ↔
      table j = some (identifier, id) ∧ IsIndexed identifier ∧ unmapping j = none
        ∧ identifierToSymbol identifier = s := by
  unfold pending
  split
  · rename_i h
    simp [h]
  · rename_i name id' h
    constructor
    · intro hn
      cases hn
    · rintro ⟨hj, hx, -⟩
      rw [h] at hj
      cases hj
      exact absurd rfl (hx name)
  · rename_i identifier' id' hne h
    have hx : IsIndexed identifier' := by
      rintro name rfl
      exact hne name rfl
    constructor
    · intro hs
      split at hs
      · rename_i hc
        cases hs
        exact ⟨by rw [h, hc.2.2], hx, hc.1, hc.2.1⟩
      · cases hs
    · rintro ⟨hj, -, hu, hs⟩
      rw [h] at hj
      cases hj
      rw [if_pos ⟨hu, hs, rfl⟩]

variable (unmapping table)

/-- The state of the database once the identifiers `l`, the latest first, have been named:
each alist holds the identifiers of its symbol and frame, with their indices. -/
structure Numbered (l : List Symbol) (db : RenameDatabase) : Prop where
  table_eq : db.unmappingTable = table
  entries : ∀ {id n}, db.frames id = some n → ∀ s,
    (db.entry s n).map Prod.fst = (l.filterMap (pending unmapping table s id)).dedup
  unforced : ∀ {n}, (∀ id, db.frames id ≠ some n) → ∀ s, db.entry s n = []
  forced : ∀ {id}, db.frames id = none → ∀ s, l.filterMap (pending unmapping table s id) = []
  names : ∀ {s n pre x post}, db.entry s n = pre ++ x :: post →
    x.2 = mapIndexedSymbol s n post.length

variable {unmapping table}

theorem numbered_nil {db : RenameDatabase} (h : ∀ s, db.idTable s = []) :
    Numbered unmapping db.unmappingTable [] db := by
  have hent : ∀ s n, db.entry s n = [] := by
    simp [RenameDatabase.entry, h]
  refine ⟨rfl, ?_, fun _ s => hent s _, fun _ _ => rfl, ?_⟩
  · simp [hent]
  · intro s n pre x post hx
    simp [hent] at hx

theorem Numbered.skip
    (h : Numbered unmapping table l db) (hi : ∀ s id, pending unmapping table s id i = none) :
    Numbered unmapping table (i :: l) db := by
  refine ⟨h.table_eq, ?_, h.unforced, ?_, h.names⟩
  · intro id n hn s
    rw [filterMap_cons_none (hi s id)]
    exact h.entries hn s
  · intro id hn s
    rw [filterMap_cons_none (hi s id)]
    exact h.forced hn s

theorem Numbered.force (h : Numbered unmapping table l db) (id : RenameId) :
    Numbered unmapping table l (forceRenameId id db).2 := by
  cases hid : db.frames id with
  | some n =>
      rw [force_of_frames hid]
      exact h
  | none =>
      have hent : ∀ s n, (forceRenameId id db).2.entry s n = db.entry s n := by
        intro s n
        simp only [RenameDatabase.entry, force_idTable]
      have hframes : ∀ id', (forceRenameId id db).2.frames id'
          = if id' = id then some (db.frameNumber + 1) else db.frames id' := by
        intro id'
        unfold forceRenameId
        split
        · rename_i n hn
          rw [hid] at hn
          cases hn
        · rfl
      refine ⟨(force_table id db).trans h.table_eq, ?_, ?_, ?_, ?_⟩
      · intro id' n hn s
        rw [hent]
        rw [hframes] at hn
        split at hn
        · rename_i heq
          cases hn
          have hnew : ∀ id', db.frames id' ≠ some (db.frameNumber + 1) := by
            intro id' hc
            have := db.frames_le hc
            omega
          rw [heq, h.unforced hnew s, h.forced hid s]
          rfl
        · exact h.entries hn s
      · intro n hn s
        rw [hent]
        refine h.unforced (fun id' hc => hn id' ?_) s
        exact (force_extends id db).frames hc
      · intro id' hn s
        rw [hframes] at hn
        split at hn
        · cases hn
        · exact h.forced hn s
      · intro s n pre x post hx
        rw [hent] at hx
        exact h.names hx

theorem lookup_eq_none_iff_not_mem {entry : List (Identifier × Symbol)} :
    entry.lookup identifier = none ↔ identifier ∉ entry.map Prod.fst := by
  rw [lookup_eq_none_iff]
  constructor
  · intro h hm
    obtain ⟨p, hp, rfl⟩ := List.mem_map.mp hm
    simpa using h p hp
  · intro h p hp
    have : identifier ≠ p.1 := fun heq => h (heq ▸ List.mem_map_of_mem hp)
    simpa using this

theorem Numbered.map {n : Nat}
    (h : Numbered unmapping table l db) (hi : table i = some (identifier, id))
    (hx : IsIndexed identifier) (hu : unmapping i = none) (hn : db.frames id = some n) :
    Numbered unmapping table (i :: l) (mapUninternedIdentifier identifier n db).2 := by
  have hpend : pending unmapping table (identifierToSymbol identifier) id i = some identifier :=
    pending_eq_some.mpr ⟨hi, hx, hu, rfl⟩
  have hother : ∀ s id', ¬ (s = identifierToSymbol identifier ∧ id' = id) →
      pending unmapping table s id' i = none := by
    intro s id' hne
    rw [Option.eq_none_iff_forall_ne_some]
    intro identifier' hs
    obtain ⟨hi', -, -, hs'⟩ := pending_eq_some.mp hs
    rw [hi] at hi'
    cases hi'
    exact hne ⟨hs'.symm, rfl⟩
  have hforced : ∀ {id'}, db.frames id' = none → ∀ s,
      (i :: l).filterMap (pending unmapping table s id') = [] := by
    intro id' hid' s
    rw [filterMap_cons_none, h.forced hid' s]
    apply hother
    rintro ⟨-, rfl⟩
    rw [hn] at hid'
    cases hid'
  have hmem := h.entries hn (identifierToSymbol identifier)
  rcases mapUninterned_spec identifier n db with ⟨s, hs, heq⟩ | ⟨hnone, hsym, ht, hf, he⟩
  · rw [heq]
    refine ⟨h.table_eq, ?_, h.unforced, hforced, h.names⟩
    intro id' m hm t
    rw [h.entries hm t]
    by_cases hc : t = identifierToSymbol identifier ∧ id' = id
    · obtain ⟨rfl, rfl⟩ := hc
      rw [filterMap_cons_some hpend, dedup_cons_of_mem]
      by_contra hnot
      rw [generated_eq_lookup, lookup_eq_none_iff_not_mem.mpr] at hs
      · cases hs
      · rw [hmem, mem_dedup]
        exact hnot
    · rw [filterMap_cons_none (hother t id' hc)]
  · rw [generated_eq_lookup, lookup_eq_none_iff_not_mem, hmem, mem_dedup] at hnone
    refine ⟨ht.trans h.table_eq, ?_, ?_, ?_, ?_⟩
    · intro id' m hm t
      rw [hf] at hm
      rw [he]
      by_cases hc : t = identifierToSymbol identifier ∧ id' = id
      · obtain ⟨rfl, rfl⟩ := hc
        rw [hn] at hm
        cases hm
        rw [if_pos ⟨rfl, rfl⟩, filterMap_cons_some hpend, dedup_cons_of_notMem hnone,
          map_cons, hmem]
      · rw [filterMap_cons_none (hother t id' hc), if_neg, h.entries hm t]
        rintro ⟨rfl, rfl⟩
        exact hc ⟨rfl, db.frames_injective hm hn⟩
    · intro m hm t
      rw [hf] at hm
      rw [he, if_neg, h.unforced hm t]
      rintro ⟨-, rfl⟩
      exact hm id hn
    · intro id' hid'
      rw [hf] at hid'
      exact hforced hid'
    · intro t m pre x post hxe
      rw [he] at hxe
      split at hxe
      · rename_i hc
        obtain ⟨rfl, rfl⟩ := hc
        cases pre with
        | nil =>
            injection hxe with hx' hpost
            rw [← hx', ← hpost, hsym]
        | cons y pre =>
            injection hxe with _ hpost
            exact h.names hpost
      · exact h.names hxe

theorem Numbered.substitution (h : Numbered unmapping table l db) (i : Symbol) :
    Numbered unmapping table (i :: l) (unmappingToSubstitution unmapping i db).2 := by
  have hskip : unmapping i ≠ none → ∀ s id, pending unmapping table s id i = none := by
    intro hu s id
    rw [Option.eq_none_iff_forall_ne_some]
    intro identifier hs
    exact hu (pending_eq_some.mp hs).2.2.1
  unfold unmappingToSubstitution
  split
  · rename_i unmapped hu
    refine h.skip (hskip ?_)
    rw [hu]
    exact Option.some_ne_none _
  · rename_i hu
    cases hi : table i with
    | none =>
        rw [finalize_none (by rw [h.table_eq, hi])]
        refine h.skip fun s id => ?_
        simp [pending, hi]
    | some entry =>
        obtain ⟨identifier, id⟩ := entry
        have hi' : db.unmappingTable i = some (identifier, id) := by rw [h.table_eq, hi]
        rcases isIndexed_or identifier with ⟨name, rfl⟩ | hx
        · rw [finalize_interned hi']
          refine (h.force id).skip fun s id' => ?_
          simp [pending, hi]
        · rw [finalize_indexed hi' hx]
          exact (h.force id).map hi hx hu (force_frames id db)

theorem Numbered.substituteAll (l : List Symbol) :
    ∀ {l' : List Symbol} {db : RenameDatabase}, Numbered unmapping table l' db →
      Numbered unmapping table (l.reverse ++ l') (substituteAll unmapping l db).2 := by
  induction l with
  | nil =>
      intro l' db h
      exact h
  | cons i l ih =>
      intro l' db h
      rw [reverse_cons, append_assoc]
      exact ih (h.substitution i)

theorem idxOf_reverse_middle {α : Type} [DecidableEq α] {l l1 l2 : List α} {a : α}
    (hl : l = l1 ++ a :: l2) (hnd : l.Nodup) : l.reverse.idxOf a = l2.length := by
  subst hl
  have ha : a ∉ l2 := (nodup_cons.mp (nodup_append.mp hnd).2.1).1
  have hrev : (l1 ++ a :: l2).reverse = l2.reverse ++ a :: l1.reverse := by simp
  rw [hrev, idxOf_append_of_notMem (by simpa using ha)]
  simp

/-- **The name of an identifier with an index**: its number is its position in the order in
which the identifiers of its symbol and frame were first named. -/
theorem Numbered.name (h : Numbered unmapping table l db) (hl : i ∈ l)
    (hi : table i = some (identifier, id)) (hx : IsIndexed identifier) (hu : unmapping i = none) :
    ∃ n, db.frames id = some n
      ∧ (unmappingToSubstitution unmapping i db).1
        = mapIndexedSymbol (identifierToSymbol identifier) n
            ((l.filterMap (pending unmapping table (identifierToSymbol identifier)
              id)).dedup.reverse.idxOf identifier) := by
  have hmem : identifier ∈ l.filterMap
      (pending unmapping table (identifierToSymbol identifier) id) :=
    mem_filterMap.mpr ⟨i, hl, pending_eq_some.mpr ⟨hi, hx, hu, rfl⟩⟩
  cases hn : db.frames id with
  | none =>
      rw [h.forced hn] at hmem
      cases hmem
  | some n =>
      refine ⟨n, rfl, ?_⟩
      unfold unmappingToSubstitution
      rw [hu]
      rw [finalize_indexed (by rw [h.table_eq, hi]) hx, force_of_frames hn]
      have hent := h.entries hn (identifierToSymbol identifier)
      rcases mapUninterned_spec identifier n db with ⟨s, hs, heq⟩ | ⟨hnone, -⟩
      · rw [heq]
        rw [generated_eq_lookup] at hs
        obtain ⟨l1, l2, hsplit, -⟩ := lookup_eq_some_iff.mp hs
        have hname : s = _ := h.names hsplit
        rw [hname]
        rw [hsplit, map_append] at hent
        rw [idxOf_reverse_middle hent.symm (nodup_dedup _), length_map]
      · rw [generated_eq_lookup, lookup_eq_none_iff_not_mem, hent, mem_dedup] at hnone
        exact absurd hmem hnone

end Indices

end MitScheme.SyntaxOutput
