import Mathlib.Data.List.Basic

/-!
# The compiler behind `syntax-rules`

`syntax-rules.scm` turns a list of clauses into the code of a macro transformer.
`parse-pattern` collects, for every pattern variable, an expression that reaches the
matched subform (a *sid*) and the chain of *control* variables of the ellipses above
it; `generate-match` writes the test of a pattern; `generate-output` writes the code
that builds the template, and records in every ellipsis of the template which controls
it has to map over.

The generated code is an expression of Scheme. `rename` makes its keywords refer to the
standard ones, so the model has one constructor for each form that is generated, and an
evaluator for them.
-/

namespace MitScheme.SyntaxRules

/-- A syntactic form. Identifiers are symbols or closures of symbols; whatever is neither
an identifier nor a pair nor `()` is an atom. -/
inductive Form (I A : Type) where
  | ident (i : I)
  | atom (a : A)
  | nil
  | pair (car cdr : Form I A)
deriving DecidableEq, Repr

/-- The variables of the generated code: `r-form`, `temp`, `l` and one for each control. -/
inductive Name where
  | form
  | temp
  | l
  | control (n : Nat)
deriving DecidableEq, Repr

/-- The standard procedures the generated code calls. -/
inductive Op where
  | car | cdr | nullP | pairP | identifierP | equalP | compare | list | cons | append
deriving DecidableEq, Repr

/-- The generated code. -/
inductive Code (I A : Type) where
  | var (x : Name)
  /-- `(r-rename (syntax-quote i))` -/
  | rename (i : I)
  | quote (f : Form I A)
  | bool (b : Bool)
  /-- `(if predicate consequent alternative)` -/
  | cond (predicate consequent alternative : Code I A)
  | app (op : Op) (operands : List (Code I A))
  /-- `((lambda (temp) body) e)` -/
  | bindTemp (body e : Code I A)
  /-- `(((lambda () (define loop (lambda (l) body)) loop)) e)` -/
  | doList (body e : Code I A)
  /-- `(loop e)` -/
  | loop (e : Code I A)
  /-- `(map op e)` -/
  | mapOp (op : Op) (e : Code I A)
  /-- `(map (lambda names body) lists ...)`, the names being those of controls. -/
  | mapLambda (names : List Nat) (body : Code I A) (lists : List (Code I A))
  /-- `(begin (ill-formed-syntax form))` -/
  | illFormedSyntax

/-- What `syntax-rules` signals. -/
inductive SyntaxError where
  | duplicateKeywords
  | missingEllipsis
  | illegalCombination
deriving DecidableEq, Repr

variable {I A : Type} [DecidableEq I] [DecidableEq A]

/-! ## Patterns -/

/-- A control: the variable an ellipsis of the pattern ranges with, and the list it ranges
over. -/
structure Control (I A : Type) where
  name : Nat
  expression : Code I A

/-- A sid. `controls` is the chain of `sid-control`, innermost first. -/
structure Sid (I A : Type) where
  name : I
  expression : Code I A
  controls : List (Control I A)

/-- `(cddr pattern)`, with `()` for a form that has none. -/
def Form.cddr : Form I A → Form I A
  | .pair _ (.pair _ d) => d
  | _ => .nil

section

-- `isEllipsis i` is `(compare i (rename '...))`
variable (isEllipsis : I → Bool) (keywords : List I)

/-- `zero-or-more?` -/
def zeroOrMoreP : Form I A → Bool
  | .pair _ (.pair (.ident i) _) => isEllipsis i
  | _ => false

/-- The pattern `(p ...)`, with nothing behind the ellipsis. -/
def ellipsisP (pattern : Form I A) : Bool :=
  zeroOrMoreP isEllipsis pattern && decide (pattern.cddr = .nil)

/-- `parse-pattern`. The second component is the next unused control. -/
def parsePattern : Form I A → Code I A → List (Sid I A) → List (Control I A) → Nat →
    List (Sid I A) × Nat
  | .ident i, expression, sids, control, next =>
      if i ∈ keywords then (sids, next) else (⟨i, expression, control⟩ :: sids, next)
  | .pair p q, expression, sids, control, next =>
      if ellipsisP isEllipsis (.pair p q) then
        parsePattern p (.var (.control next)) sids (⟨next, expression⟩ :: control) (next + 1)
      else
        let (sids, next) := parsePattern q (.app .cdr [expression]) sids control next
        parsePattern p (.app .car [expression]) sids control next
  | _, _, sids, _, next => (sids, next)

/-- The local procedure `conjunction` of `generate-match`. -/
def conjunction : Code I A → Code I A → Code I A
  | .bool true, consequent => consequent
  | predicate, .bool true => predicate
  | predicate, consequent => .cond predicate consequent (.bool false)

/-- The local procedure `generate-pair` of `generate-match`, on the codes for the car and
the cdr. -/
def generatePair (matchCar matchCdr : Code I A → Code I A) (expression : Code I A) : Code I A :=
  conjunction (.app .pairP [expression])
    (conjunction (matchCar (.app .car [expression])) (matchCdr (.app .cdr [expression])))

/-- The local procedure `do-list` of `generate-match`. -/
def doList (matchElement : Code I A → Code I A) (expression : Code I A) : Code I A :=
  .doList
    (.cond (.app .nullP [.var .l]) (.bool true)
      (conjunction (.app .pairP [.var .l])
        (conjunction (matchElement (.app .car [.var .l])) (.loop (.app .cdr [.var .l])))))
    expression

def generateMatch : Form I A → Code I A → Code I A
  | .ident i, expression =>
      if i ∈ keywords then
        .bindTemp
          (.cond (.app .identifierP [.var .temp])
            (.app .compare [.var .temp, .rename i])
            (.bool false))
          expression
      else .bool true
  | .pair p q, expression =>
      if ellipsisP isEllipsis (.pair p q) then
        doList (generateMatch p) expression
      else
        match expression with
        | .var x => generatePair (generateMatch p) (generateMatch q) (.var x)
        | expression =>
            .bindTemp (generatePair (generateMatch p) (generateMatch q) (.var .temp)) expression
  | .nil, expression => .app .nullP [expression]
  | .atom a, expression => .app .equalP [expression, .quote (.atom a)]

/-! ## Templates -/

/-- What `add-control!` does to one ellipsis. Two controls are `eq?` when they have the same
name, since every control is given a name of its own. -/
def addOne (control : Control I A) (sids : List (Control I A)) :
    Except SyntaxError (List (Control I A)) :=
  if control.name ∉ sids.map Control.name then .ok (control :: sids)
  else if sids.head?.map Control.name = some control.name then .ok sids
  else .error .illegalCombination

/-- `add-control!`, on the controls of a sid and the controls that the ellipses around it
have so far, both innermost first. -/
def addControl : List (Control I A) → List (List (Control I A)) →
    Except SyntaxError (List (List (Control I A)))
  | [], ellipses => .ok ellipses
  | _ :: _, [] => .error .missingEllipsis
  | control :: controls, sids :: ellipses => do
      let sids ← addOne control sids
      let ellipses ← addControl controls ellipses
      .ok (sids :: ellipses)

def generateEllipsis : List (Control I A) → Code I A → Except SyntaxError (Code I A)
  | [], _ => .error .missingEllipsis
  | [c], body =>
      match body with
      | .var x =>
          if x = .control c.name then .ok c.expression
          else .ok (.mapLambda [c.name] body [c.expression])
      | .app op [.var x] =>
          if x = .control c.name then .ok (.mapOp op c.expression)
          else .ok (.mapLambda [c.name] body [c.expression])
      | body => .ok (.mapLambda [c.name] body [c.expression])
  | sids, body => .ok (.mapLambda (sids.map Control.name) body (sids.map Control.expression))

def optimizedCons (a : Code I A) : Code I A → Code I A
  | .quote .nil => .app .list [a]
  | .app .list operands => .app .list (a :: operands)
  | d => .app .cons [a, d]

def optimizedAppend (x : Code I A) : Code I A → Code I A
  | .quote .nil => x
  | y => .app .append [x, y]

/-- `generate-output`. An ellipsis is a cell that `add-control!` updates, so the controls of
the ellipses around the template are passed along and returned with the code, innermost
first; operands are evaluated from right to left. -/
def generateOutput (sids : List (Sid I A)) : Form I A → List (List (Control I A)) →
    Except SyntaxError (Code I A × List (List (Control I A)))
  | .ident i, ellipses =>
      match sids.find? (fun sid => sid.name = i) with
      | some sid => do
          let ellipses ← addControl sid.controls ellipses
          .ok (sid.expression, ellipses)
      | none => .ok (.rename i, ellipses)
  | .pair t (.pair (.ident i) rest), ellipses =>
      if isEllipsis i then do
        let (y, ellipses) ← generateOutput sids rest ellipses
        let (body, inner) ← generateOutput sids t ([] :: ellipses)
        let x ← generateEllipsis (inner.headD []) body
        .ok (optimizedAppend x y, inner.tail)
      else do
        let (d, ellipses) ← generateOutput sids (.pair (.ident i) rest) ellipses
        let (a, ellipses) ← generateOutput sids t ellipses
        .ok (optimizedCons a d, ellipses)
  | .pair t q, ellipses => do
      let (d, ellipses) ← generateOutput sids q ellipses
      let (a, ellipses) ← generateOutput sids t ellipses
      .ok (optimizedCons a d, ellipses)
  | template, ellipses => .ok (.quote template, ellipses)

/-- The loop over the clauses. -/
def generateClauses : List (Form I A × Form I A) → Nat → Except SyntaxError (Code I A)
  | [], _ => .ok .illFormedSyntax
  | (pattern, template) :: clauses, next => do
      let (sids, next) := parsePattern isEllipsis keywords pattern (.var .form) [] [] next
      let (output, _) ← generateOutput isEllipsis sids template []
      let alternative ← generateClauses clauses next
      .ok (.cond (generateMatch isEllipsis keywords pattern (.var .form)) output alternative)

/-- `syntax-rules`: the body of the transformer. -/
def syntaxRules (clauses : List (Form I A × Form I A)) : Except SyntaxError (Code I A) :=
  if keywords.Nodup then generateClauses isEllipsis keywords clauses 0
  else .error .duplicateKeywords

end

/-! ## Running the code -/

/-- The environment a transformer is called with: `rename` and `compare`. -/
structure Expander (I : Type) where
  rename : I → I
  compare : I → I → Bool

/-- The values of the generated code. -/
inductive Value (I A : Type) where
  | form (f : Form I A)
  | bool (b : Bool)
  /-- `ill-formed-syntax` was called. -/
  | illFormed
deriving DecidableEq, Repr

/-- The variables in scope. -/
structure Env (I A : Type) where
  value : Name → Option (Form I A)
  loop : Form I A → Option (Value I A)

/-- A scope with one more variable. -/
def Env.bind (env : Env I A) (x : Name) (f : Form I A) : Env I A :=
  { env with value := fun y => if y = x then some f else env.value y }

/-- The parameters of a procedure bound to its arguments. -/
def Env.bindControls (env : Env I A) : List Nat → List (Form I A) → Env I A
  | n :: names, f :: fs => (env.bindControls names fs).bind (.control n) f
  | _, _ => env

/-- The form a value is. -/
def Value.toForm : Value I A → Option (Form I A)
  | .form f => some f
  | _ => none

namespace Form

def pairP : Form I A → Bool
  | .pair _ _ => true
  | _ => false

def nullP : Form I A → Bool
  | .nil => true
  | _ => false

def identifierP : Form I A → Bool
  | .ident _ => true
  | _ => false

/-- The car of a pair. -/
def carD : Form I A → Form I A
  | .pair a _ => a
  | f => f

/-- The cdr of a pair. -/
def cdrD : Form I A → Form I A
  | .pair _ d => d
  | f => f

/-- A proper list of forms. -/
def ofList : List (Form I A) → Form I A
  | [] => .nil
  | f :: fs => .pair f (ofList fs)

/-- The elements of a proper list. -/
def toList : Form I A → Option (List (Form I A))
  | .nil => some []
  | .pair a d => (toList d).map (a :: ·)
  | _ => none

end Form

/-- The standard procedures. `append` has two arguments here. -/
def applyOp (expander : Expander I) : Op → List (Value I A) → Option (Value I A)
  | .car, [.form (.pair a _)] => some (.form a)
  | .cdr, [.form (.pair _ d)] => some (.form d)
  | .nullP, [.form f] => some (.bool f.nullP)
  | .pairP, [.form f] => some (.bool f.pairP)
  | .identifierP, [.form f] => some (.bool f.identifierP)
  | .equalP, [.form f, .form g] => some (.bool (f = g))
  | .compare, [.form (.ident i), .form (.ident j)] => some (.bool (expander.compare i j))
  | .list, values => (values.mapM Value.toForm).map fun fs => .form (Form.ofList fs)
  | .cons, [.form a, .form d] => some (.form (.pair a d))
  | .append, [.form x, .form y] => x.toList.map fun fs => .form (fs.foldr .pair y)
  | _, _ => none

/-- The end of `map`, where one of the lists is not a pair. `map-1` and `map-2` look at all
of them, `map-n` at the first one that is not a pair; `bad-end` is an error. -/
def mapEnd (lists : List (Form I A)) : Option (List (List (Form I A))) :=
  if lists.length ≤ 2 then
    if lists.all (fun f => f.pairP || f.nullP) then some [] else none
  else
    match lists.find? (fun f => !f.pairP) with
    | some .nil => some []
    | _ => none

/-- The rows `map` calls its procedure on. -/
def mapRows : Form I A → List (Form I A) → Option (List (List (Form I A)))
  | .pair a d, lists =>
      if lists.all Form.pairP then do
        let rows ← mapRows d (lists.map Form.cdrD)
        some ((a :: lists.map Form.carD) :: rows)
      else mapEnd (.pair a d :: lists)
  | f, lists => mapEnd (f :: lists)

/-- A loop, for as many rounds as there is fuel. -/
def iterate (body : (Form I A → Option (Value I A)) → Form I A → Option (Value I A)) :
    Nat → Form I A → Option (Value I A)
  | 0, _ => none
  | fuel + 1, f => body (iterate body fuel) f

mutual

/-- The value of an expression. Every loop may take `fuel` rounds. -/
def eval (expander : Expander I) (fuel : Nat) : Env I A → Code I A → Option (Value I A)
  | env, .var x => (env.value x).map .form
  | _, .rename i => some (.form (.ident (expander.rename i)))
  | _, .quote f => some (.form f)
  | _, .bool b => some (.bool b)
  | env, .cond predicate consequent alternative => do
      let p ← eval expander fuel env predicate
      if p = .bool false then eval expander fuel env alternative
      else eval expander fuel env consequent
  | env, .app op operands => do
      let values ← evalList expander fuel env operands
      applyOp expander op values
  | env, .bindTemp body e => do
      let v ← eval expander fuel env e
      let f ← v.toForm
      eval expander fuel (env.bind .temp f) body
  | env, .doList body e => do
      let v ← eval expander fuel env e
      let f ← v.toForm
      iterate (fun loop f => eval expander fuel ({ env with loop := loop }.bind .l f) body) fuel f
  | env, .loop e => do
      let v ← eval expander fuel env e
      let f ← v.toForm
      env.loop f
  | env, .mapOp op e => do
      let v ← eval expander fuel env e
      let f ← v.toForm
      let rows ← mapRows f []
      let fs ← rows.mapM fun row => do
        let v ← applyOp expander op (row.map .form)
        v.toForm
      some (.form (Form.ofList fs))
  | env, .mapLambda names body lists => do
      let values ← evalList expander fuel env lists
      let fs ← values.mapM Value.toForm
      let rows ← mapRows (fs.headD .nil) fs.tail
      let fs ← rows.mapM fun row => do
        let v ← eval expander fuel (env.bindControls names row) body
        v.toForm
      some (.form (Form.ofList fs))
  | _, .illFormedSyntax => some .illFormed

/-- The values of operands. -/
def evalList (expander : Expander I) (fuel : Nat) :
    Env I A → List (Code I A) → Option (List (Value I A))
  | _, [] => some []
  | env, e :: es => do
      let v ← eval expander fuel env e
      let vs ← evalList expander fuel env es
      some (v :: vs)

end

/-- The scope of the transformer's body: only `form`, besides `rename` and `compare`. -/
def Env.initial (form : Form I A) : Env I A :=
  { value := fun x => if x = .form then some form else none, loop := fun _ => none }

/-- Calling a transformer on a form. -/
def expand (expander : Expander I) (fuel : Nat) (transformer : Code I A) (form : Form I A) :
    Option (Value I A) :=
  eval expander fuel (Env.initial form) transformer

end MitScheme.SyntaxRules
