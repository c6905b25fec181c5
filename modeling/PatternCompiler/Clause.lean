import PatternCompiler.Compile
import PatternCompiler.FormEmitter

/-!
# Clauses with described bodies

A clause is a case whose body is given as data: a report of what was bound, fixed code, or another
match on one of the variables. A journal keeps what happens while such clauses are compiled: the
hooks called, the bodies generated and the nested matches finished, each in order.
-/

namespace PatternCompiler

set_option autoImplicit false

structure Clause (β : Type) where
  pattern : Pattern Form
  body : β
  allowUnreachable : Bool := false

inductive Body where
  /-- A list of the case's position and a pair of name and value for every variable. -/
  | report
  | code (form : Form)
  | nested (on : Name) (clauses : List (Clause Body)) (options : Options)

/-- Where a body stands: the position of its case, after those of the cases around it. -/
abbrev Path := List Nat

def Path.text (path : Path) : String := "/".intercalate (path.map toString)

structure Invocation where
  path : Path
  uses : Nat
  handed : List (Variable Form)

/-- One nested match was compiled, or was not. -/
structure NestedMatch where
  path : Path
  result : Except (CompileError Form) (Compiled Form Form)

structure Journal where
  objects : ObjectSupply
  hooks : Array (HookCall Form)
  invocations : Array Invocation
  nested : Array NestedMatch

namespace Journal

def start (objects : ObjectSupply) : Journal := ⟨objects, #[], #[], #[]⟩

def withObjects {α : Type} (action : StateM ObjectSupply α) : StateM Journal α := fun j =>
  let (a, objects) := action j.objects
  (a, { j with objects := objects })

def addHook (call : HookCall Form) : StateM Journal Unit :=
  modify fun j => { j with hooks := j.hooks.push call }

def addInvocation (invocation : Invocation) : StateM Journal Unit :=
  modify fun j => { j with invocations := j.invocations.push invocation }

def addNested (nested : NestedMatch) : StateM Journal Unit :=
  modify fun j => { j with nested := j.nested.push nested }

/-- The hooks of an emitter of forms, with every call entered in the journal. -/
def emitter (e : Emitter ObjectSupply Form Form) : Emitter Journal Form Form :=
  (e.lift withObjects).traced addHook

end Journal

def FunctionTable.nameOf (functions : FunctionTable) (b : Builtin) : Name :=
  ((functions.find? fun entry => entry.2 = b).map Prod.fst).getD .empty

def reportForm (functions : FunctionTable) (index : Nat) (handed : List (Variable Form)) :
    Form :=
  .call (functions.nameOf .list) <| .int (.ofNat index) ::
    handed.map fun v => .call (functions.nameOf .cons) [.symbol v.name, v.value]

/-- What a nested match is on: the variable's value if it was handed over, else its name. -/
def nestedSubject (on : Name) (handed : List (Variable Form)) : Form :=
  ((handed.find? fun v => v.name = on).map Variable.value).getD (.var on)

/-- The code of a nested match; a match that was not compiled is `nil`. -/
def NestedMatch.code (nested : NestedMatch) : Form :=
  match nested.result with
  | .ok compiled => compiled.code
  | .error _ => .nil

section

variable (emitter : Emitter Journal Form Form) (functions : FunctionTable)

mutual

def Body.generator : Body → Path → Generator Journal Form Form
  | .report, path => fun handed uses => do
      Session.emit (Journal.addInvocation ⟨path, uses, handed⟩)
      return reportForm functions (path.getLast?.getD 0) handed
  | .code form, path => fun handed uses => do
      Session.emit (Journal.addInvocation ⟨path, uses, handed⟩)
      return form
  | .nested on clauses options, path => fun handed uses => do
      Session.emit (Journal.addInvocation ⟨path, uses, handed⟩)
      let result ← compile emitter options (nestedSubject on handed)
        (Clause.casesFrom path 0 clauses)
      let nested : NestedMatch := ⟨path, result⟩
      Session.emit (Journal.addNested nested)
      return nested.code

/-- The cases of clauses, numbered from `index` on below a path. -/
def Clause.casesFrom (path : Path) (index : Nat) :
    List (Clause Body) → List (Case Journal Form Form)
  | [] => []
  | ⟨pattern, body, allowUnreachable⟩ :: rest =>
      ⟨pattern, body.generator (path ++ [index]), allowUnreachable⟩
        :: Clause.casesFrom path (index + 1) rest

end

def Clause.cases (clauses : List (Clause Body)) : List (Case Journal Form Form) :=
  Clause.casesFrom emitter functions [] 0 clauses

def Body.generators (bodies : List Body) : List (Generator Journal Form Form) :=
  bodies.mapIdx fun index body => body.generator emitter functions [index]

end

end PatternCompiler
