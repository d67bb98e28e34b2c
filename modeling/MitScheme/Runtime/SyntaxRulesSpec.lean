import MitScheme.Runtime.SyntaxRules

/-!
# What `syntax-rules` is for

Matching a form against a pattern, and instantiating a template with what the pattern
variables matched. A variable below an ellipsis matches a sequence, a variable below
two of them a sequence of sequences, and so on: the matches of a variable are a tree
whose depth is the number of ellipses above the variable. An ellipsis in a template
takes the sequences of the variables below it apart again, element by element, and
demands that they are equally long.

Nothing here mentions controls or generated code.
-/

namespace MitScheme.SyntaxRules

variable {I A : Type} [DecidableEq I] [DecidableEq A]

section

variable (isEllipsis : I → Bool) (keywords : List I)

/-! ## Patterns -/

/-- Every element of a proper list satisfies `p`. -/
def Form.listAll (p : Form I A → Bool) : Form I A → Bool
  | .nil => true
  | .pair a d => p a && listAll p d
  | _ => false

/-- A form matches a pattern. -/
def matchesP (expander : Expander I) : Form I A → Form I A → Bool
  | .ident k, form =>
      if k ∈ keywords then
        match form with
        | .ident i => expander.compare i (expander.rename k)
        | _ => false
      else true
  | .pair p q, form =>
      if ellipsisP isEllipsis (.pair p q) then form.listAll (matchesP expander p)
      else
        match form with
        | .pair a d => matchesP expander p a && matchesP expander q d
        | _ => false
  | .nil, form => form.nullP
  | .atom a, form => form = .atom a

/-- What a pattern variable matched. -/
inductive Tree (I A : Type) where
  | leaf (f : Form I A)
  | seq (ts : List (Tree I A))

/-- The number of ellipses in a pattern. -/
def ellipsisCount : Form I A → Nat
  | .pair p q =>
      if ellipsisP isEllipsis (.pair p q) then ellipsisCount p + 1
      else ellipsisCount p + ellipsisCount q
  | _ => 0

/-- The ellipses above a pattern variable, outermost first, or `none` for any other
identifier. The ellipses of the pattern are numbered from `n` on. -/
def enclosing : Form I A → Nat → I → Option (List Nat)
  | .ident i, _, v => if i ∉ keywords ∧ i = v then some [] else none
  | .pair p q, n, v =>
      if ellipsisP isEllipsis (.pair p q) then (enclosing p (n + 1) v).map (n :: ·)
      else (enclosing p (n + ellipsisCount isEllipsis q) v).or (enclosing q n v)
  | _, _, _ => none

/-- The matches of the variable `v` when `form` matches the pattern. -/
def matched : Form I A → Form I A → I → Option (Tree I A)
  | .ident i, form, v => if i ∉ keywords ∧ i = v then some (.leaf form) else none
  | .pair p q, form, v =>
      if ellipsisP isEllipsis (.pair p q) then
        if (enclosing isEllipsis keywords p 0 v).isSome then do
          let forms ← form.toList
          let ts ← forms.mapM fun f => matched p f v
          some (.seq ts)
        else none
      else
        match form with
        | .pair a d => (matched p a v).or (matched q d v)
        | _ => none
  | _, _, _ => none

/-- Ellipses only in the last position of a list. -/
def EllipsesLast : Form I A → Prop
  | .ident i => isEllipsis i = false
  | .pair p q => EllipsesLast p ∧ (ellipsisP isEllipsis (.pair p q) = true ∨ EllipsesLast q)
  | _ => True

/-! ## Templates -/

/-- The identifiers of a template, from left to right. -/
def identifiers : Form I A → List I
  | .ident i => [i]
  | .pair t (.pair (.ident i) rest) =>
      if isEllipsis i then identifiers t ++ identifiers rest
      else identifiers t ++ identifiers (.pair (.ident i) rest)
  | .pair t q => identifiers t ++ identifiers q
  | _ => []

/-- The matches, as the `j`-th copy of a template below an ellipsis sees them. -/
def element (trees : I → Option (Tree I A)) (j : Nat) (v : I) : Option (Tree I A) :=
  match trees v with
  | some (.seq ts) => ts[j]?
  | t => t

/-- The length of the sequence a variable matched, if it matched one. -/
def seqLength (trees : I → Option (Tree I A)) (v : I) : Option Nat :=
  match trees v with
  | some (.seq ts) => some ts.length
  | _ => none

/-- How many copies an ellipsis makes: the length of the sequences of the variables below
it, if there are any and they are all equally long. -/
def copies (trees : I → Option (Tree I A)) (vars : List I) : Option Nat :=
  match vars.filterMap (seqLength trees) with
  | [] => none
  | n :: ns => if ∀ m ∈ ns, m = n then some n else none

/-- A template, instantiated with the matches of the pattern variables. -/
def instantiate (expander : Expander I) : Form I A → (I → Option (Tree I A)) → Option (Form I A)
  | .ident i, trees =>
      match trees i with
      | some (.leaf f) => some f
      | some (.seq _) => none
      | none => some (.ident (expander.rename i))
  | .pair t (.pair (.ident i) rest), trees =>
      if isEllipsis i then do
        let n ← copies trees (identifiers isEllipsis t)
        let forms ← (List.range n).mapM fun j => instantiate expander t (element trees j)
        let r ← instantiate expander rest trees
        some (forms.foldr .pair r)
      else do
        let a ← instantiate expander t trees
        let d ← instantiate expander (.pair (.ident i) rest) trees
        some (.pair a d)
  | .pair t q, trees => do
      let a ← instantiate expander t trees
      let d ← instantiate expander q trees
      some (.pair a d)
  | template, _ => some template

/-- A template that is legal for a pattern, at a place below `level` ellipses: every pattern
variable stands below exactly as many ellipses as in the pattern, and every ellipsis has a
pattern variable below it. -/
def LegalTemplate (pattern : Form I A) : Form I A → Nat → Prop
  | .ident i, level => ∀ above, enclosing isEllipsis keywords pattern 0 i = some above →
      above.length = level
  | .pair t (.pair (.ident i) rest), level =>
      if isEllipsis i then
        LegalTemplate pattern t (level + 1)
          ∧ (∃ v ∈ identifiers isEllipsis t, (enclosing isEllipsis keywords pattern 0 v).isSome)
          ∧ LegalTemplate pattern rest level
      else LegalTemplate pattern t level ∧ LegalTemplate pattern (.pair (.ident i) rest) level
  | .pair t q, level => LegalTemplate pattern t level ∧ LegalTemplate pattern q level
  | _, _ => True

/-- The clauses the specification is about. -/
structure LegalClause (clause : Form I A × Form I A) : Prop where
  ellipsesLast : EllipsesLast isEllipsis clause.1
  template : LegalTemplate isEllipsis keywords clause.1 clause.2 0

/-- **The specification.** A transformer is generated, and called on any form it returns the
template of the first clause whose pattern matches, instantiated with what the variables
matched; a form that matches no clause is ill formed. -/
def ExpandsByClauses (clauses : List (Form I A × Form I A)) : Prop :=
  ∃ transformer, syntaxRules isEllipsis keywords clauses = .ok transformer
    ∧ ∀ (expander : Expander I) (form : Form I A), ∃ enough, ∀ fuel, enough ≤ fuel →
      match clauses.find? (fun clause => matchesP isEllipsis keywords expander clause.1 form) with
      | none => expand expander fuel transformer form = some .illFormed
      | some (pattern, template) =>
          ∀ output, instantiate isEllipsis expander template
              (matched isEllipsis keywords pattern form) = some output →
            expand expander fuel transformer form = some (.form output)

/-- No member comes back after another one: `a b a` is not grouped. -/
def Grouped (l : List Nat) : Prop := ∀ x y, [x, y, x].Sublist l → x = y

/-- Below every ellipsis of the template, the variables that stem from one ellipsis of the
pattern are next to each other. -/
def GroupedTemplate (pattern : Form I A) : Form I A → Nat → Prop
  | .pair t (.pair (.ident i) rest), level =>
      if isEllipsis i then
        GroupedTemplate pattern t (level + 1)
          ∧ Grouped ((identifiers isEllipsis t).filterMap fun v =>
              (enclosing isEllipsis keywords pattern 0 v).bind fun above => above[level]?)
          ∧ GroupedTemplate pattern rest level
      else GroupedTemplate pattern t level ∧ GroupedTemplate pattern (.pair (.ident i) rest) level
  | .pair t q, level => GroupedTemplate pattern t level ∧ GroupedTemplate pattern q level
  | _, _ => True

end

end MitScheme.SyntaxRules
