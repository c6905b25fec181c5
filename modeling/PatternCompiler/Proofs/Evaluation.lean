import Mathlib.Data.List.Forall2
import PatternCompiler.Proofs.Correspondence
import PatternCompiler.FormEmitter

/-!
# Evaluation of forms in paired runs

Evaluating a form in scopes whose values correspond gives values that correspond, or the same
error. A form that calls no allocating function may run in a frozen pairing, and its value does not
depend on the objects made before. Evaluation reads nothing but the variables that the form
mentions.
-/

namespace PatternCompiler

set_option autoImplicit false

/-! ## Forms that make objects -/

/-- A call may make an object, itself or through the function it is given. -/
def Builtin.allocates : Builtin → Bool
  | list | cons | funcall => true
  | _ => false

def FunctionTable.allocates (functions : FunctionTable) (name : Name) : Bool :=
  (functions.lookup name).any Builtin.allocates

namespace Form

mutual

/-- The form calls or designates a function that makes objects. -/
def allocates (functions : FunctionTable) : Form → Bool
  | var _ | quote _ => false
  | function name => functions.allocates name
  | call func args => functions.allocates func || anyAllocates functions args
  | cond test yes no =>
      allocates functions test || allocates functions yes || allocates functions no
  | letIn bindings body => anyBoundAllocates functions bindings || allocates functions body

def anyAllocates (functions : FunctionTable) : List Form → Bool
  | [] => false
  | f :: fs => allocates functions f || anyAllocates functions fs

def anyBoundAllocates (functions : FunctionTable) : List (Name × Form) → Bool
  | [] => false
  | (_, f) :: rest => allocates functions f || anyBoundAllocates functions rest

end

mutual

/-- The constants quoted in a form. -/
def constants : Form → List Value
  | var _ | function _ => []
  | quote value => [value]
  | call _ args => listConstants args
  | cond test yes no => constants test ++ constants yes ++ constants no
  | letIn bindings body => boundConstants bindings ++ constants body

def listConstants : List Form → List Value
  | [] => []
  | f :: fs => constants f ++ listConstants fs

def boundConstants : List (Name × Form) → List Value
  | [] => []
  | (_, f) :: rest => constants f ++ boundConstants rest

end

end Form

namespace Pairing

variable {frozen : Bool}

def RelatesAll (w : Pairing frozen) : List Value → List Value → Prop := List.Forall₂ w.Relates

/-- The same names in the same order, with values that correspond. -/
def RelatesScope (w : Pairing frozen) : Scope → Scope → Prop :=
  List.Forall₂ fun x y => x.1 = y.1 ∧ w.Relates x.2 y.2

variable {w w' : Pairing frozen}

theorem RelatesAll.mono {vs vs' : List Value} (h : w.RelatesAll vs vs') (hw : w.Extends w') :
    w'.RelatesAll vs vs' := List.Forall₂.imp (fun _ _ h => h.mono hw) h

theorem RelatesScope.of_rel {scope scope' : Scope} (h : w.RelatesScope scope scope')
    (hrel : ∀ {i j : Nat}, w.rel i j → w'.rel i j) : w'.RelatesScope scope scope' :=
  List.Forall₂.imp (fun _ _ h => ⟨h.1, Value.Corresponds.mono h.2 hrel⟩) h

theorem RelatesScope.mono {scope scope' : Scope} (h : w.RelatesScope scope scope')
    (hw : w.Extends w') : w'.RelatesScope scope scope' := h.of_rel hw.rel

theorem RelatesScope.lookup {scope scope' : Scope} (h : w.RelatesScope scope scope') (name : Name) :
    Option.Rel w.Relates (scope.lookup name) (scope'.lookup name) := by
  unfold RelatesScope at h
  induction h with
  | nil => exact .none
  | @cons x y _ _ hxy _ ih =>
      obtain ⟨n, v⟩ := x
      obtain ⟨n', v'⟩ := y
      obtain ⟨rfl, hvalue⟩ := hxy
      simp only [List.lookup_cons]
      split
      · exact .some hvalue
      · exact ih

end Pairing

/-! ## Forms that differ in their objects -/

namespace Form

mutual

/-- The forms differ at most in the objects of their constants, and `rel` holds between those. -/
inductive Corresponds (rel : Nat → Nat → Prop) : Form → Form → Prop where
  | var (name : Name) : Corresponds rel (.var name) (.var name)
  | quote {a b : Value} : a.Corresponds rel b → Corresponds rel (.quote a) (.quote b)
  | function (name : Name) : Corresponds rel (.function name) (.function name)
  | call (func : Name) {fs gs : List Form} : ListCorresponds rel fs gs →
      Corresponds rel (.call func fs) (.call func gs)
  | cond {a b c a' b' c' : Form} : Corresponds rel a a' → Corresponds rel b b' →
      Corresponds rel c c' → Corresponds rel (.cond a b c) (.cond a' b' c')
  | letIn {fs gs : List (Name × Form)} {f g : Form} : BoundCorresponds rel fs gs →
      Corresponds rel f g → Corresponds rel (.letIn fs f) (.letIn gs g)

inductive ListCorresponds (rel : Nat → Nat → Prop) : List Form → List Form → Prop where
  | nil : ListCorresponds rel [] []
  | cons {f g : Form} {fs gs : List Form} : Corresponds rel f g → ListCorresponds rel fs gs →
      ListCorresponds rel (f :: fs) (g :: gs)

inductive BoundCorresponds (rel : Nat → Nat → Prop) :
    List (Name × Form) → List (Name × Form) → Prop where
  | nil : BoundCorresponds rel [] []
  | cons (name : Name) {f g : Form} {fs gs : List (Name × Form)} : Corresponds rel f g →
      BoundCorresponds rel fs gs → BoundCorresponds rel ((name, f) :: fs) ((name, g) :: gs)

end

variable {rel rel' : Nat → Nat → Prop}

mutual

theorem Corresponds.mono {f g : Form} (h : f.Corresponds rel g)
    (hrel : ∀ {i j}, rel i j → rel' i j) : f.Corresponds rel' g := by
  cases h with
  | var name => exact .var name
  | quote h => exact .quote (h.mono hrel)
  | function name => exact .function name
  | call func h => exact .call func (h.mono hrel)
  | cond ha hb hc => exact .cond (ha.mono hrel) (hb.mono hrel) (hc.mono hrel)
  | letIn hbound hbody => exact .letIn (hbound.mono hrel) (hbody.mono hrel)

theorem ListCorresponds.mono {fs gs : List Form} (h : ListCorresponds rel fs gs)
    (hrel : ∀ {i j}, rel i j → rel' i j) : ListCorresponds rel' fs gs := by
  cases h with
  | nil => exact .nil
  | cons h hs => exact .cons (h.mono hrel) (hs.mono hrel)

theorem BoundCorresponds.mono {fs gs : List (Name × Form)} (h : BoundCorresponds rel fs gs)
    (hrel : ∀ {i j}, rel i j → rel' i j) : BoundCorresponds rel' fs gs := by
  cases h with
  | nil => exact .nil
  | cons name h hs => exact .cons name (h.mono hrel) (hs.mono hrel)

end

mutual

theorem corresponds_self (f : Form) (h : ∀ c ∈ f.constants, c.Corresponds rel c) :
    f.Corresponds rel f := by
  cases f with
  | var name => exact .var name
  | quote value => exact .quote (h value (by simp [constants]))
  | function name => exact .function name
  | call func args => exact .call func (listCorresponds_self args h)
  | cond test yes no =>
      simp only [constants, List.mem_append] at h
      exact .cond (corresponds_self test fun c hc => h c (.inl (.inl hc)))
        (corresponds_self yes fun c hc => h c (.inl (.inr hc)))
        (corresponds_self no fun c hc => h c (.inr hc))
  | letIn bindings body =>
      simp only [constants, List.mem_append] at h
      exact .letIn (boundCorresponds_self bindings fun c hc => h c (.inl hc))
        (corresponds_self body fun c hc => h c (.inr hc))

theorem listCorresponds_self (fs : List Form) (h : ∀ c ∈ listConstants fs, c.Corresponds rel c) :
    ListCorresponds rel fs fs := by
  cases fs with
  | nil => exact .nil
  | cons f fs =>
      simp only [listConstants, List.mem_append] at h
      exact .cons (corresponds_self f fun c hc => h c (.inl hc))
        (listCorresponds_self fs fun c hc => h c (.inr hc))

theorem boundCorresponds_self (bindings : List (Name × Form))
    (h : ∀ c ∈ boundConstants bindings, c.Corresponds rel c) :
    BoundCorresponds rel bindings bindings := by
  match bindings with
  | [] => exact .nil
  | (name, f) :: rest =>
      simp only [boundConstants, List.mem_append] at h
      exact .cons name (corresponds_self f fun c hc => h c (.inl hc))
        (boundCorresponds_self rest fun c hc => h c (.inr hc))

end

theorem ListCorresponds.concat {fs gs : List Form} {f g : Form} (hs : ListCorresponds rel fs gs)
    (h : f.Corresponds rel g) : ListCorresponds rel (fs ++ [f]) (gs ++ [g]) := by
  induction fs generalizing gs with
  | nil => cases hs; exact .cons h .nil
  | cons f' fs ih => cases hs with
    | cons h' hs => exact .cons h' (ih hs)

/-- Calls of functions that correspond on subjects that correspond. -/
theorem Corresponds.application (ops : Operators) {f g subject subject' : Form}
    (h : f.Corresponds rel g) (hs : subject.Corresponds rel subject') :
    (f.application ops subject).Corresponds rel (g.application ops subject') := by
  cases h with
  | function name => exact .call name (.cons hs .nil)
  | call func hargs => exact .call func (hargs.concat hs)
  | var name => exact .call _ (.cons (.var name) (.cons hs .nil))
  | quote h => exact .call _ (.cons (.quote h) (.cons hs .nil))
  | cond ha hb hc => exact .call _ (.cons (.cond ha hb hc) (.cons hs .nil))
  | letIn hbound hbody => exact .call _ (.cons (.letIn hbound hbody) (.cons hs .nil))

end Form

/-! ## Builtin functions -/

namespace Builtin

variable {frozen : Bool} {w : Pairing frozen} {strict : Prop} {v v' u u' : Value}

/-- What `run` does for a function of one argument. -/
def unary (b : Builtin) (body : Value → EvalM Value) : List Value → EvalM Value
  | [v] => body v
  | vs => throw (.wrongArity b 1 vs.length)

/-- What `run` does for a function of two arguments. -/
def binary (b : Builtin) (body : Value → Value → EvalM Value) : List Value → EvalM Value
  | [v, u] => body v u
  | vs => throw (.wrongArity b 2 vs.length)

/-- What a function does with a single argument, if it takes exactly one. -/
def onOne? : Builtin → Option (Value → EvalM Value)
  | car => some (half car Value.car?)
  | cdr => some (half cdr Value.cdr?)
  | carSafe => some fun v => return v.car?.getD .nil
  | cdrSafe => some fun v => return v.cdr?.getD .nil
  | consp => some fun v => return .ofBool v.isCons
  | integerp => some fun v => return .ofBool (v matches .int _)
  | symbolp => some fun v => return .ofBool (v matches .symbol _)
  | stringp => some fun v => return .ofBool (v matches .str ..)
  | numberp => some fun v => return .ofBool (v matches .int _ | .float _)
  | null => some fun v => return .ofBool v.isNil
  | onePlus => some fun v => do
      let n ← expectInt onePlus v
      return .int (← fit onePlus (n.toInt + 1))
  | _ => none

/-- What a function does with two arguments, if it takes exactly two. -/
def onTwo? : Builtin → Option (Value → Value → EvalM Value)
  | eq => some fun v u => return .ofBool (v.equiv .identity u)
  | eql => some fun v u => return .ofBool (v.equiv .numericIdentity u)
  | equal => some fun v u => return .ofBool (v.equiv .structural u)
  | memq => some (tailFrom memq .identity)
  | memql => some (tailFrom memql .numericIdentity)
  | member => some (tailFrom member .structural)
  | cons => some fun v u => EvalM.allocate (Value.newCons v u)
  | lt => some (compare lt fun m n => m < n)
  | gt => some (compare gt fun m n => n < m)
  | numEq => some (compare numEq fun m n => m = n)
  | _ => none

theorem run_eq_unary {b : Builtin} {body : Value → EvalM Value} (h : b.onOne? = some body) :
    b.run = unary b body := by
  funext vs
  cases b <;> cases h <;> rcases vs with _ | ⟨v, _ | ⟨u, vs⟩⟩ <;> rfl

theorem run_eq_binary {b : Builtin} {body : Value → Value → EvalM Value}
    (h : b.onTwo? = some body) : b.run = binary b body := by
  funext vs
  cases b <;> cases h <;> rcases vs with _ | ⟨v, _ | ⟨u, _ | ⟨x, vs⟩⟩⟩ <;> rfl

theorem unary_simulates (b : Builtin) {body : Value → EvalM Value} {args args' : List Value}
    (h : w.RelatesAll args args')
    (hbody : ∀ {v v'}, w.Relates v v' → Simulates strict w Pairing.Relates (body v) (body v')) :
    Simulates strict w Pairing.Relates (unary b body args) (unary b body args') := by
  have hlength := h.length_eq
  rcases h with _ | ⟨hv, _ | ⟨hu, hs⟩⟩
  · exact .throw (.wrongArity b 1 0)
  · exact hbody hv
  · simp only [unary, hlength]
    exact .throw (.wrongArity b 1 _)

theorem binary_simulates (b : Builtin) {body : Value → Value → EvalM Value}
    {args args' : List Value} (h : w.RelatesAll args args')
    (hbody : ∀ {v v' u u'}, w.Relates v v' → w.Relates u u' →
      Simulates strict w Pairing.Relates (body v u) (body v' u')) :
    Simulates strict w Pairing.Relates (binary b body args) (binary b body args') := by
  have hlength := h.length_eq
  rcases h with _ | ⟨hv, _ | ⟨hu, _ | ⟨hx, hs⟩⟩⟩
  · exact .throw (.wrongArity b 2 0)
  · exact .throw (.wrongArity b 2 1)
  · exact hbody hv hu
  · simp only [binary, hlength]
    exact .throw (.wrongArity b 2 _)

theorem expectInt_simulates (b : Builtin) (h : w.Relates v v') :
    Simulates strict w (fun _ m n => m = n) (expectInt b v) (expectInt b v') := by
  have hsame := Value.Corresponds.sameContent h
  cases h with
  | int n => exact .pure rfl
  | symbol | float | str | cons => exact .throw (.wrongType b hsame)

theorem fit_simulates (b : Builtin) (n : Int) :
    Simulates strict w (fun _ m n => m = n) (fit b n) (fit b n) := by
  unfold fit
  split
  · exact .pure rfl
  · exact .throw (.overflow b)

theorem sum_simulates (total : Int64) {vs vs' : List Value} (h : w.RelatesAll vs vs') :
    Simulates strict w (fun _ m n => m = n) (sum total vs) (sum total vs') := by
  induction vs generalizing vs' total w with
  | nil => cases h; exact .pure rfl
  | cons v vs ih =>
      obtain _ | ⟨hv, hs⟩ := h
      refine (expectInt_simulates add hv).bind fun {w₁ m n} hw₁ hmn => ?_
      subst hmn
      refine (fit_simulates add _).bind fun {w₂ total₁ total₂} hw₂ ht => ?_
      subst ht
      exact ih _ (Pairing.RelatesAll.mono hs (hw₁.trans hw₂))

theorem difference_simulates (total : Int64) {vs vs' : List Value} (h : w.RelatesAll vs vs') :
    Simulates strict w (fun _ m n => m = n) (difference total vs) (difference total vs') := by
  induction vs generalizing vs' total w with
  | nil => cases h; exact .pure rfl
  | cons v vs ih =>
      obtain _ | ⟨hv, hs⟩ := h
      refine (expectInt_simulates sub hv).bind fun {w₁ m n} hw₁ hmn => ?_
      subst hmn
      refine (fit_simulates sub _).bind fun {w₂ total₁ total₂} hw₂ ht => ?_
      subst ht
      exact ih _ (Pairing.RelatesAll.mono hs (hw₁.trans hw₂))

theorem subtract_simulates {vs vs' : List Value} (h : w.RelatesAll vs vs') :
    Simulates strict w (fun _ m n => m = n) (subtract vs) (subtract vs') := by
  rcases h with _ | ⟨hv, _ | ⟨hu, hs⟩⟩
  · exact .pure rfl
  · refine (expectInt_simulates sub hv).bind fun {w₁ m n} hw₁ hmn => ?_
    subst hmn
    exact fit_simulates sub _
  · refine (expectInt_simulates sub hv).bind fun {w₁ m n} hw₁ hmn => ?_
    subst hmn
    exact difference_simulates _ (Pairing.RelatesAll.mono (.cons hu hs) hw₁)

theorem compare_simulates (b : Builtin) (test : Int64 → Int64 → Bool) (hv : w.Relates v v')
    (hu : w.Relates u u') :
    Simulates strict w Pairing.Relates (compare b test v u) (compare b test v' u') := by
  refine (expectInt_simulates b hv).bind fun {w₁ m n} hw₁ hmn => ?_
  subst hmn
  refine (expectInt_simulates b (hu.mono hw₁)).bind fun {w₂ m n} hw₂ hmn => ?_
  subst hmn
  exact .pure (.ofBool _)

theorem half_simulates (b : Builtin) {part? : Value → Option Value} (h : w.Relates v v')
    (hpart : Option.Rel w.Relates (part? v) (part? v')) :
    Simulates strict w Pairing.Relates (half b part? v) (half b part? v') := by
  simp only [half]
  generalize part? v = part, part? v' = part' at hpart
  cases hpart with
  | some hpart => exact .pure hpart
  | none =>
      simp only [Value.Corresponds.isNil_eq h]
      split
      · exact .pure .nil
      · exact .throw (.wrongType b (Value.Corresponds.sameContent h))

theorem tailFrom_simulates (b : Builtin) (eqv : Equivalence) (hv : w.Relates v v')
    (hu : w.Relates u u') :
    Simulates strict w Pairing.Relates (tailFrom b eqv v u) (tailFrom b eqv v' u') := by
  unfold Pairing.Relates at hu
  induction hu with
  | cons hi ha hb _ ih =>
      simp only [tailFrom, Value.Corresponds.equiv_eq w.oneToOne eqv hv ha]
      split
      · exact .pure (.cons hi ha hb)
      · exact ih
  | symbol name =>
      simp only [tailFrom]
      split
      · exact .pure .nil
      · exact .throw (.wrongType b (.symbol name))
  | int n => exact .throw (.wrongType b (.int n))
  | float x => exact .throw (.wrongType b (.float x))
  | str s _ => exact .throw (.wrongType b (.str s trivial))

end Builtin

theorem newCons_simulates {w : Pairing false} {strict : Prop} {v v' u u' : Value}
    (hv : w.Relates v v') (hu : w.Relates u u') :
    Simulates strict w Pairing.Relates (EvalM.allocate (Value.newCons v u))
      (EvalM.allocate (Value.newCons v' u')) where
  ok h := by
    cases h
    refine ⟨_, w.allocate, rfl, rfl, w.extends_allocate, ?_⟩
    exact .cons (.inr ⟨rfl, rfl⟩) (hv.mono w.extends_allocate) (hu.mono w.extends_allocate)
  error _ _ h := by cases h

theorem allocate_newList_cons (v : Value) (vs : List Value) :
    EvalM.allocate (Value.newList (v :: vs)) =
      EvalM.allocate (Value.newList vs) >>= fun u => EvalM.allocate (Value.newCons v u) := rfl

theorem newList_simulates {w : Pairing false} {strict : Prop} {vs vs' : List Value}
    (h : w.RelatesAll vs vs') :
    Simulates strict w Pairing.Relates (EvalM.allocate (Value.newList vs))
      (EvalM.allocate (Value.newList vs')) := by
  unfold Pairing.RelatesAll at h
  induction h with
  | nil => exact .pure .nil
  | cons hv _ ih =>
      rw [allocate_newList_cons, allocate_newList_cons]
      exact ih.bind fun hw hu => newCons_simulates (hv.mono hw) hu

namespace Builtin

variable {frozen : Bool} {w : Pairing frozen} {strict : Prop} {args args' : List Value}

theorem car?_rel {v v' : Value} (h : w.Relates v v') :
    Option.Rel w.Relates v.car? v'.car? := by
  cases h with
  | cons _ ha _ => exact .some ha
  | symbol | int | float | str => exact .none

theorem cdr?_rel {v v' : Value} (h : w.Relates v v') :
    Option.Rel w.Relates v.cdr? v'.cdr? := by
  cases h with
  | cons _ _ hb => exact .some hb
  | symbol | int | float | str => exact .none

theorem getD_nil_relates {a b : Option Value} (h : Option.Rel w.Relates a b) :
    w.Relates (a.getD .nil) (b.getD .nil) := by
  cases h with
  | some h => exact h
  | none => exact .nil

theorem equiv_simulates (eqv : Equivalence) {v v' u u' : Value} (hv : w.Relates v v')
    (hu : w.Relates u u') :
    Simulates strict w Pairing.Relates (pure (.ofBool (v.equiv eqv u)))
      (pure (.ofBool (v'.equiv eqv u'))) := by
  rw [Value.Corresponds.equiv_eq w.oneToOne eqv hv hu]
  exact .pure (.ofBool _)

theorem run_simulates (b : Builtin) (hb : frozen = true → b.allocates = false)
    (h : w.RelatesAll args args') :
    Simulates strict w Pairing.Relates (b.run args) (b.run args') := by
  have one : ∀ {body : Value → EvalM Value}, b.onOne? = some body →
      (∀ {v v'}, w.Relates v v' → Simulates strict w Pairing.Relates (body v) (body v')) →
      Simulates strict w Pairing.Relates (b.run args) (b.run args') := by
    intro body hrun hbody
    rw [run_eq_unary hrun]
    exact unary_simulates b h hbody
  have two : ∀ {body : Value → Value → EvalM Value}, b.onTwo? = some body →
      (∀ {v v' u u'}, w.Relates v v' → w.Relates u u' →
        Simulates strict w Pairing.Relates (body v u) (body v' u')) →
      Simulates strict w Pairing.Relates (b.run args) (b.run args') := by
    intro body hrun hbody
    rw [run_eq_binary hrun]
    exact binary_simulates b h hbody
  have number : ∀ {m m' : EvalM Int64}, Simulates strict w (fun _ m n => m = n) m m' →
      Simulates strict w Pairing.Relates (m >>= fun n => pure (.int n))
        (m' >>= fun n => pure (.int n)) :=
    fun hm => hm.bind fun _ hmn => hmn ▸ .pure (.int _)
  cases b with
  | car => exact one rfl fun hv => half_simulates car hv (car?_rel hv)
  | cdr => exact one rfl fun hv => half_simulates cdr hv (cdr?_rel hv)
  | carSafe => exact one rfl fun hv => .pure (getD_nil_relates (car?_rel hv))
  | cdrSafe => exact one rfl fun hv => .pure (getD_nil_relates (cdr?_rel hv))
  | consp => exact one rfl fun hv => by cases hv <;> exact .pure (.ofBool _)
  | integerp => exact one rfl fun hv => by cases hv <;> exact .pure (.ofBool _)
  | symbolp => exact one rfl fun hv => by cases hv <;> exact .pure (.ofBool _)
  | stringp => exact one rfl fun hv => by cases hv <;> exact .pure (.ofBool _)
  | numberp => exact one rfl fun hv => by cases hv <;> exact .pure (.ofBool _)
  | null => exact one rfl fun hv => by cases hv <;> exact .pure (.ofBool _)
  | onePlus =>
      refine one rfl fun hv => (expectInt_simulates onePlus hv).bind fun hw hmn => ?_
      subst hmn
      exact (fit_simulates onePlus _).bind fun _ hmn => hmn ▸ .pure (.int _)
  | eq => exact two rfl (equiv_simulates .identity)
  | eql => exact two rfl (equiv_simulates .numericIdentity)
  | equal => exact two rfl (equiv_simulates .structural)
  | memq => exact two rfl (tailFrom_simulates memq .identity)
  | memql => exact two rfl (tailFrom_simulates memql .numericIdentity)
  | member => exact two rfl (tailFrom_simulates member .structural)
  | lt => exact two rfl (compare_simulates lt _)
  | gt => exact two rfl (compare_simulates gt _)
  | numEq => exact two rfl (compare_simulates numEq _)
  | add => exact number (sum_simulates 0 h)
  | sub => exact number (subtract_simulates h)
  | list =>
      cases frozen with
      | true => cases hb rfl
      | false => exact newList_simulates h
  | cons =>
      cases frozen with
      | true => cases hb rfl
      | false => exact two rfl newCons_simulates
  | funcall =>
      simp only [run, h.length_eq]
      exact .throw (.wrongArity funcall _ _)

end Builtin

/-! ## Forms -/

namespace FunctionTable

variable {frozen : Bool} {w : Pairing frozen} {strict : Prop} {args args' : List Value}

theorem resolve_simulates (functions : FunctionTable) (name : Name) :
    Simulates strict w (fun _ b b' => b = b' ∧ functions.lookup name = some b)
      (functions.resolve name) (functions.resolve name) := by
  unfold resolve
  split
  · exact .pure ⟨rfl, by assumption⟩
  · exact .throw (.undefinedFunction name)

theorem apply_eq_run (functions : FunctionTable) {b : Builtin} (hb : b ≠ .funcall)
    (args : List Value) : functions.apply b args = b.run args := by
  rw [apply.eq_def]
  split
  · exact absurd rfl hb
  · exact absurd rfl hb
  · rfl

theorem apply_simulates (functions : FunctionTable) (b : Builtin)
    (hb : frozen = true → b.allocates = false) (h : w.RelatesAll args args') :
    Simulates strict w Pairing.Relates (functions.apply b args) (functions.apply b args') := by
  by_cases hfuncall : b = .funcall
  · subst hfuncall
    cases frozen with
    | true => cases hb rfl
    | false =>
        induction args generalizing args' w with
        | nil => cases h; exact Builtin.run_simulates .funcall nofun .nil
        | cons v args ih =>
            obtain _ | ⟨hv, hs⟩ := h
            cases hv with
            | symbol name =>
                refine (resolve_simulates functions name).bind fun {w' b b'} hw hres => ?_
                obtain ⟨rfl, -⟩ := hres
                by_cases hfuncall : b = .funcall
                · subst hfuncall
                  exact ih (Pairing.RelatesAll.mono hs hw)
                · rw [apply_eq_run functions hfuncall, apply_eq_run functions hfuncall]
                  exact Builtin.run_simulates b nofun (Pairing.RelatesAll.mono hs hw)
            | int n => exact .throw (.wrongType _ (.int n))
            | float x => exact .throw (.wrongType _ (.float x))
            | str text _ => exact .throw (.wrongType _ (.str text trivial))
            | cons _ ha hb =>
                exact .throw (.wrongType _ (.cons trivial ha.sameContent hb.sameContent))
  · rw [apply_eq_run functions hfuncall, apply_eq_run functions hfuncall]
    exact Builtin.run_simulates b hb h

end FunctionTable

namespace Form

variable {frozen : Bool} {strict : Prop}

theorem lookupVariable_simulates {w : Pairing frozen} {scope scope' : Scope}
    (h : w.RelatesScope scope scope') (name : Name) :
    Simulates strict w Pairing.Relates (lookupVariable scope name)
      (lookupVariable scope' name) := by
  have hlookup := h.lookup name
  unfold lookupVariable
  generalize scope.lookup name = value, scope'.lookup name = value' at hlookup
  cases hlookup with
  | some hv => exact .pure hv
  | none => exact .throw (.unboundVariable name)

theorem call_simulates {w : Pairing frozen} (functions : FunctionTable) (func : Name)
    (hf : frozen = true → functions.allocates func = false) {m m' : EvalM (List Value)}
    (hm : ∀ {w' : Pairing frozen}, w.Extends w' →
      Simulates strict w' Pairing.RelatesAll m m') :
    Simulates strict w Pairing.Relates
      (functions.resolve func >>= fun b => m >>= functions.apply b)
      (functions.resolve func >>= fun b => m' >>= functions.apply b) := by
  refine (functions.resolve_simulates func).bind fun {w' b b'} hw hres => ?_
  obtain ⟨rfl, hlookup⟩ := hres
  refine (hm hw).bind fun hw' hargs => ?_
  refine functions.apply_simulates b (fun hfrozen => ?_) hargs
  simpa only [FunctionTable.allocates, hlookup, Option.any_some] using hf hfrozen

mutual

theorem Corresponds.eval_simulates (functions : FunctionTable) {f g : Form} {w : Pairing frozen}
    {scope scope' : Scope} (h : f.Corresponds w.rel g) (hs : w.RelatesScope scope scope')
    (hf : frozen = true → f.allocates functions = false) :
    Simulates strict w Pairing.Relates (f.eval functions scope) (g.eval functions scope') := by
  cases h with
  | var name => exact lookupVariable_simulates hs name
  | quote h => exact .pure h
  | function name => exact .pure (.symbol name)
  | call func hargs =>
      simp only [allocates, Bool.or_eq_false_iff] at hf
      simp only [eval]
      refine call_simulates functions func (fun hfrozen => (hf hfrozen).1) fun hw => ?_
      exact (hargs.mono hw.rel).eval_simulates functions (hs.mono hw) fun hfrozen => (hf hfrozen).2
  | cond htest hyes hno =>
      simp only [allocates, Bool.or_eq_false_iff] at hf
      simp only [eval]
      refine (htest.eval_simulates functions hs fun hfrozen => (hf hfrozen).1.1).bind
        fun {w' v v'} hw hv => ?_
      rw [Value.Corresponds.isTruthy_eq hv]
      split
      · exact (hyes.mono hw.rel).eval_simulates functions (hs.mono hw)
          fun hfrozen => (hf hfrozen).1.2
      · exact (hno.mono hw.rel).eval_simulates functions (hs.mono hw) fun hfrozen => (hf hfrozen).2
  | letIn hbound hbody =>
      simp only [allocates, Bool.or_eq_false_iff] at hf
      simp only [eval]
      refine (hbound.eval_simulates functions hs fun hfrozen => (hf hfrozen).1).bind
        fun {w' inner inner'} hw hinner => ?_
      refine (hbody.mono hw.rel).eval_simulates functions ?_ fun hfrozen => (hf hfrozen).2
      exact List.rel_append (List.forall₂_reverse_iff.mpr hinner) (hs.mono hw)

theorem ListCorresponds.eval_simulates (functions : FunctionTable) {fs gs : List Form}
    {w : Pairing frozen} {scope scope' : Scope} (h : ListCorresponds w.rel fs gs)
    (hs : w.RelatesScope scope scope') (hf : frozen = true → anyAllocates functions fs = false) :
    Simulates strict w Pairing.RelatesAll (evalList functions fs scope)
      (evalList functions gs scope') := by
  cases h with
  | nil => exact .pure .nil
  | cons h hrest =>
      simp only [anyAllocates, Bool.or_eq_false_iff] at hf
      simp only [evalList]
      refine (h.eval_simulates functions hs fun hfrozen => (hf hfrozen).1).bind fun hw hv => ?_
      refine ((hrest.mono hw.rel).eval_simulates functions (hs.mono hw)
        fun hfrozen => (hf hfrozen).2).bind fun hw' hvs => ?_
      exact .pure (.cons (hv.mono hw') hvs)

theorem BoundCorresponds.eval_simulates (functions : FunctionTable) {fs gs : List (Name × Form)}
    {w : Pairing frozen} {scope scope' : Scope} (h : BoundCorresponds w.rel fs gs)
    (hs : w.RelatesScope scope scope')
    (hf : frozen = true → anyBoundAllocates functions fs = false) :
    Simulates strict w Pairing.RelatesScope (evalBound functions fs scope)
      (evalBound functions gs scope') := by
  cases h with
  | nil => exact .pure .nil
  | cons name h hrest =>
      simp only [anyBoundAllocates, Bool.or_eq_false_iff] at hf
      simp only [evalBound]
      refine (h.eval_simulates functions hs fun hfrozen => (hf hfrozen).1).bind fun hw hv => ?_
      refine ((hrest.mono hw.rel).eval_simulates functions (hs.mono hw)
        fun hfrozen => (hf hfrozen).2).bind fun hw' hvs => ?_
      exact .pure (.cons ⟨rfl, hv.mono hw'⟩ hvs)

end

/-! ### Variables -/

theorem evalBound_names {functions : FunctionTable} {bindings : List (Name × Form)}
    {scope inner : Scope} {s s' : ObjectSupply}
    (h : evalBound functions bindings scope s = .ok (inner, s')) :
    inner.map Prod.fst = bindings.map Prod.fst := by
  induction bindings generalizing inner s s' with
  | nil => cases h; rfl
  | cons b rest ih =>
      simp only [evalBound] at h
      obtain ⟨v, s₁, -, h⟩ := EvalM.bind_eq_ok.mp h
      obtain ⟨vs, s₂, hvs, h⟩ := EvalM.bind_eq_ok.mp h
      cases h
      simp only [List.map_cons, ih hvs]

theorem lookup_eq_none_of_not_mem {scope : Scope} {x : Name} (h : x ∉ scope.map Prod.fst) :
    scope.lookup x = none := by
  rw [List.lookup_eq_none_iff]
  intro p hp
  simp only [bne_iff_ne, ne_eq]
  rintro rfl
  exact h (List.mem_map_of_mem hp)

theorem lookup_isSome_of_mem {scope : Scope} {x : Name} (h : x ∈ scope.map Prod.fst) :
    ∃ v, scope.lookup x = some v := by
  cases hx : scope.lookup x with
  | some v => exact ⟨v, rfl⟩
  | none =>
      obtain ⟨p, hp, rfl⟩ := List.mem_map.mp h
      have := List.lookup_eq_none_iff.mp hx p hp
      simp at this

mutual

/-- Evaluation depends on no variable that the form does not mention. -/
theorem eval_congr (functions : FunctionTable) (f : Form) {scope scope' : Scope}
    (h : ∀ x, f.mentions x = true → scope.lookup x = scope'.lookup x) :
    f.eval functions scope = f.eval functions scope' := by
  cases f with
  | var name => simp only [eval, lookupVariable, h name (by simp [mentions])]
  | quote value => rfl
  | function name => rfl
  | call func args =>
      simp only [eval, evalList_congr functions args fun x hx => h x (by simp [mentions, hx])]
  | cond test yes no =>
      simp only [eval,
        eval_congr functions test fun x hx => h x (by simp [mentions, hx]),
        eval_congr functions yes fun x hx => h x (by simp [mentions, hx]),
        eval_congr functions no fun x hx => h x (by simp [mentions, hx])]
  | letIn bindings body =>
      have hbound := evalBound_congr functions bindings
        fun x hx => h x (by simp [mentions, hx])
      simp only [eval, hbound]
      funext s
      cases hinner : evalBound functions bindings scope' s with
      | error e => rw [EvalM.bind_of_error hinner, EvalM.bind_of_error hinner]
      | ok r =>
          obtain ⟨inner, s'⟩ := r
          rw [EvalM.bind_of_ok hinner, EvalM.bind_of_ok hinner]
          refine congrFun (eval_congr functions body fun x hx => ?_) s'
          rw [List.lookup_append, List.lookup_append]
          by_cases hmem : x ∈ inner.reverse.map Prod.fst
          · obtain ⟨v, hv⟩ := lookup_isSome_of_mem hmem
            rw [hv, Option.some_or, Option.some_or]
          · rw [lookup_eq_none_of_not_mem hmem, Option.none_or, Option.none_or]
            apply h
            have hnames := evalBound_names hinner
            simp only [List.map_reverse, List.mem_reverse, hnames, List.mem_map, not_exists,
              not_and] at hmem
            simp only [mentions, Bool.or_eq_true, Bool.and_eq_true, List.all_eq_true,
              decide_eq_true_eq]
            exact .inr ⟨fun b hb hbx => hmem b hb hbx, hx⟩

theorem evalList_congr (functions : FunctionTable) (fs : List Form) {scope scope' : Scope}
    (h : ∀ x, anyMentions x fs = true → scope.lookup x = scope'.lookup x) :
    evalList functions fs scope = evalList functions fs scope' := by
  cases fs with
  | nil => rfl
  | cons f fs =>
      simp only [evalList,
        eval_congr functions f fun x hx => h x (by simp [anyMentions, hx]),
        evalList_congr functions fs fun x hx => h x (by simp [anyMentions, hx])]

theorem evalBound_congr (functions : FunctionTable) (bindings : List (Name × Form))
    {scope scope' : Scope}
    (h : ∀ x, anyBoundMentions x bindings = true → scope.lookup x = scope'.lookup x) :
    evalBound functions bindings scope = evalBound functions bindings scope' := by
  match bindings with
  | [] => rfl
  | (name, f) :: rest =>
      simp only [evalBound,
        eval_congr functions f fun x hx => h x (by simp [anyBoundMentions, hx]),
        evalBound_congr functions rest fun x hx => h x (by simp [anyBoundMentions, hx])]

end

/-! ### Applications -/

/-- A function of a pattern that is called by its name. -/
def isDirect : Form → Bool
  | function _ | call .. => true
  | var _ | quote _ | cond .. | letIn .. => false

theorem evalList_append (functions : FunctionTable) (fs : List Form) (f : Form) (scope : Scope) :
    evalList functions (fs ++ [f]) scope = evalList functions fs scope >>= fun vs =>
      f.eval functions scope >>= fun v => pure (vs ++ [v]) := by
  induction fs with
  | nil => simp [evalList]
  | cons g fs ih => simp [evalList, ih]

theorem mentions_application_quote (ops : Operators) (func : Form) (v : Value) (x : Name) :
    (func.application ops (.quote v)).mentions x = func.mentions x := by
  have happend : ∀ args : List Form, anyMentions x (args ++ [.quote v]) = anyMentions x args := by
    intro args
    induction args with
    | nil => rfl
    | cons f fs ih => simp only [List.cons_append, anyMentions, ih]
  cases func with
  | call name args => simp only [application, mentions, happend]
  | function name => rfl
  | var | quote | cond | letIn =>
      simp only [application, mentions, anyMentions, Bool.or_false]

/-- The subject of an application matters only through its value. -/
theorem eval_application {functions : FunctionTable} {ops : Operators} (func : Form)
    {subject subject' : Form} {scope : Scope}
    (h : subject.eval functions scope = subject'.eval functions scope) :
    (func.application ops subject).eval functions scope =
      (func.application ops subject').eval functions scope := by
  cases func with
  | call name args => simp only [application, eval, evalList_append, h]
  | function name => simp only [application, eval, evalList, h]
  | var | quote | cond | letIn => simp only [application, eval, evalList, h]

theorem anyAllocates_concat (functions : FunctionTable) (fs : List Form) (f : Form) :
    anyAllocates functions (fs ++ [f]) = (anyAllocates functions fs || f.allocates functions) := by
  induction fs with
  | nil => simp [anyAllocates]
  | cons g fs ih => simp only [List.cons_append, anyAllocates, ih, Bool.or_assoc]

theorem allocates_application (functions : FunctionTable) (ops : Operators) {func : Form}
    (h : func.isDirect = true) (v : Value) :
    (func.application ops (.quote v)).allocates functions = func.allocates functions := by
  cases func with
  | function name => simp [application, allocates, anyAllocates]
  | call name args => simp [application, allocates, anyAllocates_concat]
  | var | quote | cond | letIn => cases h

theorem application_simulates {w : Pairing frozen} (functions : FunctionTable) (ops : Operators)
    {func func' : Form} (h : func.Corresponds w.rel func') {scope scope' : Scope} {v v' : Value}
    (hs : w.RelatesScope scope scope') (hv : w.Relates v v')
    (hf : frozen = true → func.allocates functions = false ∧ func.isDirect = true) :
    Simulates strict w Pairing.Relates
      ((func.application ops (.quote v)).eval functions scope)
      ((func'.application ops (.quote v')).eval functions scope') := by
  refine (h.application ops (.quote hv)).eval_simulates functions hs fun hfrozen => ?_
  rw [allocates_application functions ops (hf hfrozen).2]
  exact (hf hfrozen).1

end Form

end PatternCompiler
