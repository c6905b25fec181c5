import PatternCompiler.Proofs.Pruning
import PatternCompiler.Proofs.Steadiness

/-!
# Where the code of a decision arrives

A decision that is followed asks its tests in order, evaluates every projection it comes by, and
ends at a leaf or fails. Its code skips the projections that were left out, and so may make fewer
objects; but it arrives at the code of the same leaf's site, with the same values for the subjects
of the site, or at the code for no match. Comparators are taken as they are, whether or not they
suit their literals.
-/

namespace PatternCompiler

set_option autoImplicit false

/-! ## Evaluation in tail position -/

/-- Evaluating the first form goes on to evaluate the second one in its place. -/
inductive Form.Reaches (functions : FunctionTable) :
    Form → Scope → ObjectSupply → Form → Scope → ObjectSupply → Prop where
  | here (f : Form) (scope : Scope) (s : ObjectSupply) : Reaches functions f scope s f scope s
  | yes {test yes no f : Form} {scope scope' : Scope} {s s₁ s' : ObjectSupply} {v : Value} :
      test.eval functions scope s = .ok (v, s₁) → v.isTruthy = true →
      Reaches functions yes scope s₁ f scope' s' →
      Reaches functions (.cond test yes no) scope s f scope' s'
  | no {test yes no f : Form} {scope scope' : Scope} {s s₁ s' : ObjectSupply} {v : Value} :
      test.eval functions scope s = .ok (v, s₁) → v.isTruthy = false →
      Reaches functions no scope s₁ f scope' s' →
      Reaches functions (.cond test yes no) scope s f scope' s'
  | body {bindings : List (Name × Form)} {body f : Form} {scope inner scope' : Scope}
      {s s₁ s' : ObjectSupply} :
      Form.evalBound functions bindings scope s = .ok (inner, s₁) →
      Reaches functions body (inner.reverse ++ scope) s₁ f scope' s' →
      Reaches functions (.letIn bindings body) scope s f scope' s'

theorem Form.Reaches.eval_eq {functions : FunctionTable} {f f' : Form} {scope scope' : Scope}
    {s s' : ObjectSupply} (h : f.Reaches functions scope s f' scope' s') :
    f.eval functions scope s = f'.eval functions scope' s' := by
  induction h with
  | here => rfl
  | yes htest htrue _ ih => rw [eval, EvalM.bind_of_ok htest, if_pos htrue, ih]
  | no htest hfalse _ ih =>
      rw [eval, EvalM.bind_of_ok htest, if_neg (Bool.not_eq_true _ ▸ hfalse), ih]
  | body hbound _ ih => rw [eval, EvalM.bind_of_ok hbound, ih]

/-! ## Following a decision -/

namespace Test

variable {ε : Type}

/-- The bindings around the expression of a test. -/
def pairs : Test ε → List (Name × Name)
  | equal .. | member .. | sameAs .. => []
  | predicate _ _ pairs | guard _ pairs => pairs

def expressions : Test ε → List ε
  | equal .. | member .. | sameAs .. => []
  | predicate _ func _ => [func]
  | guard expr _ => [expr]

end Test

namespace Decision

variable {ε : Type}

/-- The pattern variables that the expressions of a decision see. -/
def binders : Decision ε → List Name
  | fail | leaf .. => []
  | test asked yes no => asked.pairs.map Prod.fst ++ yes.binders ++ no.binders
  | project _ _ _ pairs body => pairs.map Prod.fst ++ body.binders

def expressions : Decision ε → List ε
  | fail | leaf .. => []
  | test asked yes no => asked.expressions ++ yes.expressions ++ no.expressions
  | project _ func _ _ body => func :: body.expressions

/-- The leaf that a decision ends at with the values of the subjects there, if it does not fail. -/
def follow (I : Interpretation ε) : Decision ε → Valuation → EvalM (Option (Nat × Nat × Valuation))
  | fail, _ => return none
  | leaf case use, σ => return some (case, use, σ)
  | test asked yes no, σ => do
      if ← I.holds σ asked then yes.follow I σ else no.follow I σ
  | project fresh func subject pairs body, σ => do
      let v ← I.apply func (σ subject) (σ.bindings pairs)
      body.follow I (σ.set fresh v)

/-- All projections introduce one of the names, which expressions neither mention nor bind: a
variable with the name of a subject would hide it from the call that is made on the subject. -/
structure Apart (names : List Name) (decision : Decision Form) : Prop where
  projections : ∀ x ∈ decision.projections, x ∈ names
  binders : ∀ x ∈ decision.binders, x ∉ names
  expressions : ∀ f ∈ decision.expressions, ∀ x ∈ names, f.mentions x = false

theorem Apart.test {names : List Name} {asked : Test Form} {yes no : Decision Form}
    (h : (test asked yes no).Apart names) : yes.Apart names ∧ no.Apart names := by
  obtain ⟨hprojections, hbinders, hexpressions⟩ := h
  simp only [Decision.projections, Decision.binders, Decision.expressions, List.mem_append]
    at hprojections hbinders hexpressions
  exact ⟨⟨fun x hx => hprojections x (.inl hx), fun x hx => hbinders x (.inl (.inr hx)),
    fun f hf => hexpressions f (.inl (.inr hf))⟩, fun x hx => hprojections x (.inr hx),
    fun x hx => hbinders x (.inr hx), fun f hf => hexpressions f (.inr hf)⟩

theorem Apart.project {names : List Name} {fresh subject : Name} {func : Form}
    {pairs : List (Name × Name)} {body : Decision Form}
    (h : (project fresh func subject pairs body).Apart names) :
    body.Apart names where
  projections x hx := h.projections x (List.mem_cons_of_mem _ hx)
  binders x hx := h.binders x (List.mem_append_right _ hx)
  expressions f hf := h.expressions f (List.mem_cons_of_mem _ hf)

end Decision

/-! ## The code of a test -/

namespace LowerM

theorem bindings_form (ops : Operators) (pairs : List (Name × Name)) (l : Lowering)
    (j : ObjectSupply) :
    ∃ l', bindings (formEmitter ops) pairs l j = ((references pairs, l'), j) := by
  unfold bindings
  induction pairs generalizing l with
  | nil => exact ⟨l, rfl⟩
  | cons p pairs ih =>
      rw [List.mapM_cons]
      obtain ⟨l', hrest⟩ := ih (l.reference p.2)
      exact ⟨l', congrArg (fun r : (List (Name × Form) × Lowering) × ObjectSupply =>
        (((p.1, Form.var p.2) :: r.1.1, r.1.2), r.2)) hrest⟩

end LowerM

namespace Test

/-- The code of a test. -/
def code (ops : Operators) : Test Form → StateM ObjectSupply Form
  | equal subject literal eqv => do
      return .call (ops.comparator eqv) [.var subject, .quote (← Value.ofLiteral literal)]
  | member subject set eqv => do
      let values ← Value.ofLiterals set
      return .call (ops.membership eqv) [.var subject, .quote (← Value.newList values)]
  | sameAs subject other => return .call ops.eql [.var subject, .var other]
  | predicate subject func pairs =>
      return .bound (LowerM.references pairs) (func.application ops (.var subject))
  | guard expr pairs => return .bound (LowerM.references pairs) expr

theorem lower_form (ops : Operators) (test : Test Form) (l : Lowering) (j : ObjectSupply) :
    ∃ l', test.lower (formEmitter ops) l j = (((test.code ops j).1, l'), (test.code ops j).2) := by
  cases test with
  | equal subject literal eqv => exact ⟨_, rfl⟩
  | member subject set eqv => exact ⟨_, rfl⟩
  | sameAs subject other => exact ⟨_, rfl⟩
  | predicate subject func pairs =>
      obtain ⟨l', hpairs⟩ := LowerM.bindings_form ops pairs
        ((predicate subject func pairs).subjects.foldl Lowering.reference l) j
      exact ⟨l', congrArg (fun r : (List (Name × Form) × Lowering) × ObjectSupply =>
        ((Form.bound r.1.1 (func.application ops (.var subject)), r.1.2), r.2)) hpairs⟩
  | guard expr pairs =>
      obtain ⟨l', hpairs⟩ := LowerM.bindings_form ops pairs
        ((guard expr pairs).subjects.foldl Lowering.reference l) j
      exact ⟨l', congrArg (fun r : (List (Name × Form) × Lowering) × ObjectSupply =>
        ((Form.bound r.1.1 expr, r.1.2), r.2)) hpairs⟩

end Test

/-! ## Runs that agree -/

/-- The runs agree on the scope around them and on the constants in expressions. The constants of
the code, which are those from `lo` on and before `hi`, are no objects of the second run. -/
structure Pairing.Fits (w : Pairing false) (ambient ambient' : Scope) (expressions : List Form)
    (lo hi : ObjectSupply) : Prop where
  ambient : w.RelatesScope ambient ambient'
  constants : ∀ f ∈ expressions, ∀ c ∈ f.constants, w.Relates c c
  apart : ∀ {i k : Nat}, w.rel i k → k < lo.next ∨ hi.next ≤ k
  made : hi.next ≤ w.right.next

/-- The scope has the values of the known subjects that are read, and all that is no subject. -/
structure Pairing.Backs (w : Pairing false) (names known : List Name) (σ : Valuation)
    (read : Name → Prop) (scope around : Scope) : Prop where
  subset : ∀ x ∈ known, x ∈ names
  subjects : ∀ x ∈ known, read x → ∃ v, scope.lookup x = some v ∧ w.Relates (σ x) v
  others : ∀ x, x ∉ names → scope.lookup x = around.lookup x

namespace Pairing

variable {w w' : Pairing false} {ambient ambient' scope : Scope} {es es' : List Form}
  {lo hi lo' hi' : ObjectSupply} {names known : List Name} {σ : Valuation}
  {read read' : Name → Prop}

theorem Fits.mono (h : w.Fits ambient ambient' es lo hi) (hw : w.Extends w') :
    w'.Fits ambient ambient' es lo hi where
  ambient := h.ambient.mono hw
  constants f hf c hc := (h.constants f hf c hc).mono hw
  apart := by
    intro i k hij
    have hmade := h.made
    rcases hw.fresh hij with hij | ⟨-, -, hk⟩
    · exact h.apart hij
    · omega
  made := by
    have hmade := h.made
    have hright := hw.right
    omega

theorem Fits.of_mem (h : w.Fits ambient ambient' es lo hi) (hes : ∀ f ∈ es', f ∈ es) :
    w.Fits ambient ambient' es' lo hi :=
  ⟨h.ambient, fun f hf => h.constants f (hes f hf), h.apart, h.made⟩

theorem Fits.narrow (h : w.Fits ambient ambient' es lo hi) (hlo : lo.next ≤ lo'.next)
    (hhi : hi'.next ≤ hi.next) : w.Fits ambient ambient' es lo' hi' where
  ambient := h.ambient
  constants := h.constants
  apart := by
    intro i k hij
    have hapart := h.apart hij
    omega
  made := by
    have hmade := h.made
    omega

/-- Runs that start with what was made before the code, the second one when the code is there. -/
theorem same_fits {s s' : ObjectSupply} (hle : s.next ≤ s'.next)
    (hambient : ∀ b ∈ ambient, b.2.MadeBefore s)
    (hconstants : ∀ f ∈ es, ∀ c ∈ f.constants, c.MadeBefore s) :
    (same false s s').Fits ambient ambient es s s' where
  ambient := List.forall₂_same.mpr fun b hb =>
    ⟨rfl, same_relates fun _ => ⟨hambient b hb, (hambient b hb).mono hle⟩⟩
  constants f hf c hc :=
    same_relates fun _ => ⟨hconstants f hf c hc, (hconstants f hf c hc).mono hle⟩
  apart hij := by
    obtain ⟨rfl, hmade⟩ := hij
    exact .inl (hmade rfl).1
  made := Nat.le_refl _

/-- A value of the second run is none of the constants of the code. -/
theorem Fits.object?_ne (h : w.Fits ambient ambient' es lo hi) {v v' : Value}
    (hv : w.Relates v v') {i : Nat} (hi : lo.next ≤ i ∧ i < hi.next) : v'.object? ≠ some i := by
  intro hobject
  have hrel : ∃ k, w.rel k i := by
    cases hv <;> cases hobject <;> exact ⟨_, by assumption⟩
  obtain ⟨k, hk⟩ := hrel
  have := h.apart hk
  omega

theorem Backs.mono (h : w.Backs names known σ read scope ambient') (hw : w.Extends w') :
    w'.Backs names known σ read scope ambient' where
  subset := h.subset
  subjects x hx hr := by
    obtain ⟨v, hv, hrel⟩ := h.subjects x hx hr
    exact ⟨v, hv, hrel.mono hw⟩
  others := h.others

theorem Backs.of_read (h : w.Backs names known σ read scope ambient')
    (hread : ∀ x, read' x → read x) : w.Backs names known σ read' scope ambient' :=
  ⟨h.subset, fun x hx hr => h.subjects x hx (hread x hr), h.others⟩

/-- A projection that is kept adds its value to the scope. -/
theorem Backs.project (h : w.Backs names known σ read scope ambient') {fresh : Name}
    {v v' : Value} (hfresh : fresh ∈ names) (hread : ∀ x, read' x → read x)
    (hv : w.Relates v v') :
    w.Backs names (fresh :: known) (σ.set fresh v) read' ((fresh, v') :: scope) ambient' where
  subset := List.forall_mem_cons.mpr ⟨hfresh, h.subset⟩
  subjects := by
    intro x hx hr
    by_cases hxf : x = fresh
    · subst hxf
      exact ⟨v', List.lookup_cons_self, by rwa [Valuation.set_self]⟩
    · rw [List.lookup_cons, beq_false_of_ne hxf, Valuation.set_of_ne σ v hxf]
      apply h.subjects x ((List.mem_cons.mp hx).resolve_left hxf)
      exact hread x hr
  others := by
    intro x hx
    have hxf : x ≠ fresh := fun heq => hx (heq ▸ hfresh)
    rw [List.lookup_cons, beq_false_of_ne hxf]
    exact h.others x hx

/-- A projection that is left out is not missed. -/
theorem Backs.drop (h : w.Backs names known σ read scope ambient') {fresh : Name} (v : Value)
    (hfresh : fresh ∈ names) (hunread : ¬ read' fresh) (hread : ∀ x, read' x → read x) :
    w.Backs names (fresh :: known) (σ.set fresh v) read' scope ambient' where
  subset := List.forall_mem_cons.mpr ⟨hfresh, h.subset⟩
  subjects := by
    intro x hx hr
    have hxf : x ≠ fresh := fun heq => hunread (heq ▸ hr)
    rw [Valuation.set_of_ne σ v hxf]
    apply h.subjects x ((List.mem_cons.mp hx).resolve_left hxf)
    exact hread x hr
  others := h.others

/-- Behind its own variables an expression sees nothing but what is no subject. -/
theorem Backs.eval_eq (h : w.Backs names known σ read scope ambient') (functions : FunctionTable)
    {form : Form} (hform : ∀ x ∈ names, form.mentions x = false) (inner : Scope) :
    form.eval functions (inner ++ scope) = form.eval functions (inner ++ ambient') := by
  refine Form.eval_congr functions form fun x hx => ?_
  have hother : x ∉ names := fun hmem => by
    rw [hform x hmem] at hx
    cases hx
  rw [List.lookup_append, List.lookup_append, h.others x hother]

section

variable {vocabulary : Vocabulary} {pairs : List (Name × Name)}

theorem Backs.check_simulates (h : w.Backs names known σ read scope ambient')
    (hfits : w.Fits ambient ambient' es lo hi) {expr : Form} (hexpr : expr ∈ es)
    (hunmentioned : ∀ x ∈ names, expr.mentions x = false)
    (hpairs : ∀ b ∈ pairs, b.2 ∈ known ∧ read b.2) :
    Simulates True w Relates ((Interpretation.within vocabulary ambient).check expr
        (σ.bindings pairs))
      ((Form.bound (LowerM.references pairs) expr).eval vocabulary.functions scope) := by
  obtain ⟨values, hvalues, hevals⟩ := LowerM.evals_references vocabulary.functions
    fun b hb => h.subjects b.2 (hpairs b hb).1 (hpairs b hb).2
  rw [Form.eval_bound hevals, h.eval_eq vocabulary.functions hunmentioned]
  refine (Form.corresponds_self expr (hfits.constants expr hexpr)).eval_simulates
    vocabulary.functions ?_ nofun
  exact List.rel_append (List.forall₂_reverse_iff.mpr hvalues) hfits.ambient

theorem Backs.apply_simulates (h : w.Backs names known σ read scope ambient')
    (hfits : w.Fits ambient ambient' es lo hi) {func : Form} (hfunc : func ∈ es)
    (hunmentioned : ∀ x ∈ names, func.mentions x = false) {subject : Name}
    (hsubject : subject ∈ known ∧ read subject)
    (hpairs : ∀ b ∈ pairs, b.1 ∉ names ∧ b.2 ∈ known ∧ read b.2) :
    Simulates True w Relates ((Interpretation.within vocabulary ambient).apply func (σ subject)
        (σ.bindings pairs))
      ((Form.bound (LowerM.references pairs)
        (func.application vocabulary.operators (.var subject))).eval vocabulary.functions
          scope) := by
  obtain ⟨v, hv, hrel⟩ := h.subjects subject hsubject.1 hsubject.2
  obtain ⟨values, hvalues, heval⟩ := LowerM.eval_application_references vocabulary.functions
    vocabulary.operators func hv
    (fun b hb heq => (hpairs b hb).1 (h.subset b.1 (heq ▸ hsubject.1)))
    fun b hb => h.subjects b.2 (hpairs b hb).2.1 (hpairs b hb).2.2
  rw [heval, h.eval_eq vocabulary.functions fun x hx => by
    rw [Form.mentions_application_quote, hunmentioned x hx]]
  refine Form.application_simulates vocabulary.functions vocabulary.operators
    (Form.corresponds_self func (hfits.constants func hfunc)) ?_ hrel nofun
  exact List.rel_append (List.forall₂_reverse_iff.mpr hvalues) hfits.ambient

end

end Pairing

/-! ## Tests -/

namespace Test

theorem next_le_code (ops : Operators) (test : Test Form) (j : ObjectSupply) :
    j.next ≤ (test.code ops j).2.next := by
  cases test with
  | equal subject literal eqv => exact literal.ofLiteral_next_le j
  | member subject set eqv =>
      exact Nat.le_trans (Literal.ofLiterals_next_le set j) (Literal.newList_next_le _ _)
  | sameAs | predicate | guard => exact Nat.le_refl _

theorem code_simulates {vocabulary : Vocabulary} (hv : vocabulary.Standard) {asked : Test Form}
    {j : ObjectSupply} {w : Pairing false} {names known : List Name} {σ : Valuation}
    {ambient ambient' scope : Scope}
    (hfits : w.Fits ambient ambient' asked.expressions j (asked.code vocabulary.operators j).2)
    (h : w.Backs names known σ (· ∈ asked.subjects) scope ambient')
    (hknown : ∀ x ∈ asked.subjects, x ∈ known) (hbinders : ∀ b ∈ asked.pairs, b.1 ∉ names)
    (hexpressions : ∀ f ∈ asked.expressions, ∀ x ∈ names, f.mentions x = false) :
    Simulates True w (fun _ b v => v.isTruthy = b)
      ((Interpretation.within vocabulary ambient).holds σ asked)
      ((asked.code vocabulary.operators j).1.eval vocabulary.functions scope) := by
  have hsubject (x : Name) (hx : x ∈ asked.subjects) :
      ∃ v, scope.lookup x = some v ∧ w.Relates (σ x) v := h.subjects x (hknown x hx) hx
  cases asked with
  | equal subject l eqv =>
      obtain ⟨v, hlookup, hrel⟩ := hsubject subject List.mem_cons_self
      refine .pure_of_eq (Form.eval_comparator hv eqv (Form.eval_var hlookup) rfl) ?_
      rw [Value.isTruthy_ofBool, Literal.equals_eq_of_sameContent hrel.sameContent eqv,
        Literal.equals_eq]
      exact Literal.equiv_apart l eqv fun i hi =>
        hfits.object?_ne hrel (Literal.object?_ofLiteral_bounds hi)
  | member subject set eqv =>
      obtain ⟨v, hlookup, hrel⟩ := hsubject subject List.mem_cons_self
      have hset := Literal.equiv_ofLiterals_apart set eqv fun hi =>
        hfits.object?_ne hrel ⟨hi.1, Nat.lt_of_lt_of_le hi.2 (Literal.newList_next_le _ _)⟩
      obtain ⟨r, hr, htruth⟩ := Builtin.isTruthy_tailFrom_newList (.membership eqv) hset
        (Value.ofLiterals set j).2
      refine .pure_of_eq ((Form.eval_membership hv eqv (Form.eval_var hlookup) rfl).trans hr)
        ?_
      rw [htruth, Literal.equals_eq_of_sameContent hrel.sameContent eqv]
  | sameAs subject other =>
      obtain ⟨v, hlookup, hrel⟩ := hsubject subject List.mem_cons_self
      obtain ⟨u, hlookup', hrel'⟩ :=
        hsubject other (List.mem_cons_of_mem _ List.mem_cons_self)
      have hcode := Form.eval_comparator hv .numericIdentity (Form.eval_var hlookup)
        (Form.eval_var hlookup')
      refine .pure_of_eq hcode ?_
      rw [Value.isTruthy_ofBool, Value.isEql_comm]
      exact (Value.Corresponds.isEql_eq w.oneToOne hrel hrel').symm
  | predicate subject func pairs =>
      have hpair (b : Name × Name) (hb : b ∈ pairs) :
          b.2 ∈ (predicate subject func pairs).subjects :=
        List.mem_cons_of_mem _ (List.mem_map_of_mem hb)
      refine (h.apply_simulates hfits List.mem_cons_self
        (hexpressions func List.mem_cons_self)
        ⟨hknown subject List.mem_cons_self, List.mem_cons_self⟩
        fun b hb => ⟨hbinders b hb, hknown _ (hpair b hb), hpair b hb⟩).truth
  | guard expr pairs =>
      have hpair (b : Name × Name) (hb : b ∈ pairs) : b.2 ∈ (guard expr pairs).subjects :=
        List.mem_map_of_mem hb
      exact (h.check_simulates hfits List.mem_cons_self (hexpressions expr List.mem_cons_self)
        fun b hb => ⟨hknown _ (hpair b hb), hpair b hb⟩).truth

end Test

/-! ## Decisions -/

namespace LowerM

/-- The code of a projection that is kept. -/
theorem keep_form (ops : Operators) (fresh : Name) (func : Form) (subject : Name)
    (pairs : List (Name × Name)) (code : Form) (l : Lowering) (j : ObjectSupply) :
    ∃ l', keep (formEmitter ops) fresh func subject pairs code l j =
      ((.letIn [(fresh, .bound (references pairs) (func.application ops (.var subject)))] code,
        l'), j) := by
  obtain ⟨l', hpairs⟩ := bindings_form ops pairs (l.reference subject) j
  exact ⟨l', congrArg (fun r : (List (Name × Form) × Lowering) × ObjectSupply =>
    ((Form.letIn [(fresh, .bound r.1.1 (func.application ops (.var subject)))] code, r.1.2),
      r.2)) hpairs⟩

end LowerM

/-- The code comes to where a decision ended: to the code of the leaf's site, in a scope with the
values of what the site reads and with all that is no subject, or to the code for no match. -/
def Form.Arrives (functions : FunctionTable) (sites : List (List (Site Form)))
    (names : List Name) (around : Scope) (w : Pairing false) (code : Form) (scope : Scope)
    (s : ObjectSupply) : Option (Nat × Nat × Valuation) → Prop
  | none => ∃ inner, code.Reaches functions scope s .nil inner w.right
  | some (case, use, σ) => ∃ site inner, siteAt? sites case use = some site ∧
      code.Reaches functions scope s site.code inner w.right ∧
      (∀ x ∈ site.subjects, ∃ v, inner.lookup x = some v ∧ w.Relates (σ x) v) ∧
      ∀ x, x ∉ names → inner.lookup x = around.lookup x

theorem Form.Arrives.of_reaches {functions : FunctionTable} {sites : List (List (Site Form))}
    {names : List Name} {around : Scope} {w : Pairing false} {code code' : Form}
    {scope scope' : Scope} {s s' : ObjectSupply} {found : Option (Nat × Nat × Valuation)}
    (h : code'.Arrives functions sites names around w scope' s' found)
    (hreaches : ∀ {f inner t}, code'.Reaches functions scope' s' f inner t →
      code.Reaches functions scope s f inner t) :
    code.Arrives functions sites names around w scope s found := by
  match found, h with
  | none, ⟨inner, h⟩ => exact ⟨inner, hreaches h⟩
  | some _, ⟨site, inner, hsite, h, hvalues⟩ => exact ⟨site, inner, hsite, hreaches h, hvalues⟩

namespace Decision

section

variable (ops : Operators) (sites : List (List (Site Form)))

theorem lower_test_form (asked : Test Form) (yes no : Decision Form) (l : Lowering)
    (j : ObjectSupply) :
    let y := yes.lower (formEmitter ops) sites l j
    let n := no.lower (formEmitter ops) sites y.1.2 y.2
    ∃ l', (test asked yes no).lower (formEmitter ops) sites l j =
      ((.cond (asked.code ops n.2).1 y.1.1 n.1.1, l'), (asked.code ops n.2).2) := by
  intro y n
  obtain ⟨l', htest⟩ := asked.lower_form ops n.1.2 n.2
  exact ⟨l', congrArg (fun r : (Form × Lowering) × ObjectSupply =>
    ((Form.cond r.1.1 y.1.1 n.1.1, r.1.2), r.2)) htest⟩

theorem next_le_lower (decision : Decision Form) (l : Lowering) (j : ObjectSupply) :
    j.next ≤ (decision.lower (formEmitter ops) sites l j).2.next := by
  induction decision generalizing l j with
  | fail => exact Nat.le_refl _
  | leaf case use =>
      rw [lower]
      cases siteAt? sites case use <;> exact Nat.le_refl _
  | test asked yes no ihyes ihno =>
      obtain ⟨l', hlower⟩ := lower_test_form ops sites asked yes no l j
      have hyes := ihyes l j
      rw [hlower]
      generalize yes.lower (formEmitter ops) sites l j = y at *
      have hno := ihno y.1.2 y.2
      generalize no.lower (formEmitter ops) sites y.1.2 y.2 = n at *
      have htest := asked.next_le_code ops n.2
      simp only
      omega
  | project fresh func subject pairs body ih =>
      have hbody := ih l j
      rw [lower_project]
      generalize body.lower (formEmitter ops) sites l j = b at *
      obtain ⟨l', hkeep⟩ := LowerM.keep_form ops fresh func subject pairs b.1.1 b.1.2 b.2
      simp only [hkeep]
      split <;> exact hbody

end

section

variable {vocabulary : Vocabulary} {sites : List (List (Site Form))} {names known : List Name}
  {lo hi lo' hi' : ObjectSupply}

/-- Where the runs agree and no value is a constant made from `lo` on and before `hi`, the code
arrives where the decision ends. -/
def Leads (vocabulary : Vocabulary) (sites : List (List (Site Form))) (names known : List Name)
    (decision : Decision Form) (code : Form) (lo hi : ObjectSupply) : Prop :=
  ∀ ⦃w : Pairing false⦄ ⦃ambient ambient' scope : Scope⦄ ⦃σ : Valuation⦄
    ⦃found : Option (Nat × Nat × Valuation)⦄ ⦃s : ObjectSupply⦄,
    w.Fits ambient ambient' decision.expressions lo hi →
    w.Backs names known σ (fun x => decision.reads sites x = true) scope ambient' →
    decision.follow (.within vocabulary ambient) σ w.left = .ok (found, s) →
    ∃ w', w.Extends w' ∧ w'.left = s ∧
      code.Arrives vocabulary.functions sites names ambient' w' scope w.right found

theorem Leads.widen {decision : Decision Form} {code : Form}
    (h : decision.Leads vocabulary sites names known code lo hi) (hlo : lo'.next ≤ lo.next)
    (hhi : hi.next ≤ hi'.next) : decision.Leads vocabulary sites names known code lo' hi' :=
  fun _ _ _ _ _ _ _ hfits => h (hfits.narrow hlo hhi)

theorem fail_leads : (fail : Decision Form).Leads vocabulary sites names known .nil lo hi := by
  intro w ambient ambient' scope σ found s _ _ hfollow
  cases hfollow
  exact ⟨w, .refl w, rfl, scope, .here _ _ _⟩

theorem leaf_leads {case use : Nat} {site : Site Form} (hsite : siteAt? sites case use = some site)
    (hsubjects : ∀ x ∈ site.subjects, x ∈ known) :
    (leaf case use).Leads vocabulary sites names known site.code lo hi := by
  intro w ambient ambient' scope σ found s _ hb hfollow
  cases hfollow
  refine ⟨w, .refl w, rfl, site, scope, hsite, .here _ _ _, fun x hx => ?_, hb.others⟩
  refine hb.subjects x (hsubjects x hx) ?_
  rw [reads, hsite]
  exact decide_eq_true hx

theorem test_leads (hv : vocabulary.Standard) {asked : Test Form} {yes no : Decision Form}
    {yesCode noCode : Form} {j : ObjectSupply} (ha : (test asked yes no).Apart names)
    (hknown : ∀ x ∈ asked.subjects, x ∈ known) (hlo : lo.next ≤ j.next)
    (hhi : (asked.code vocabulary.operators j).2.next ≤ hi.next)
    (hyes : yes.Leads vocabulary sites names known yesCode lo hi)
    (hno : no.Leads vocabulary sites names known noCode lo hi) :
    (test asked yes no).Leads vocabulary sites names known
      (.cond (asked.code vocabulary.operators j).1 yesCode noCode) lo hi := by
  intro w ambient ambient' scope σ found s hfits hb hfollow
  obtain ⟨b, s₁, hholds, hfollow⟩ := EvalM.bind_eq_ok.mp hfollow
  have hreads (x : Name) (hx : x ∈ asked.subjects ∨ yes.reads sites x = true ∨
      no.reads sites x = true) : (test asked yes no).reads sites x = true := by
    simp only [reads, Bool.or_eq_true, decide_eq_true_eq]
    exact or_assoc.mpr hx
  have hexpressions (f : Form) (hf : f ∈ asked.expressions ∨ f ∈ yes.expressions ∨
      f ∈ no.expressions) : f ∈ (test asked yes no).expressions := by
    simp only [expressions, List.mem_append]
    exact or_assoc.mpr hf
  have hbinders (p : Name × Name) (hp : p ∈ asked.pairs) : p.1 ∉ names := by
    refine ha.binders p.1 ?_
    simp only [binders, List.mem_append]
    exact .inl (.inl (List.mem_map_of_mem hp))
  obtain ⟨v, w₁, htest, rfl, hw₁, htruth⟩ := (Test.code_simulates hv
    ((hfits.of_mem fun f hf => hexpressions f (.inl hf)).narrow hlo hhi)
    (hb.of_read fun x hx => hreads x (.inl hx)) hknown hbinders
    fun f hf => ha.expressions f (hexpressions f (.inl hf))).ok hholds
  cases b with
  | true =>
      obtain ⟨w', hw', hs, harrives⟩ := hyes
        ((hfits.mono hw₁).of_mem fun f hf => hexpressions f (.inr (.inl hf)))
        ((hb.mono hw₁).of_read fun x hx => hreads x (.inr (.inl hx))) hfollow
      exact ⟨w', hw₁.trans hw', hs, harrives.of_reaches (.yes htest htruth)⟩
  | false =>
      obtain ⟨w', hw', hs, harrives⟩ := hno
        ((hfits.mono hw₁).of_mem fun f hf => hexpressions f (.inr (.inr hf)))
        ((hb.mono hw₁).of_read fun x hx => hreads x (.inr (.inr hx))) hfollow
      exact ⟨w', hw₁.trans hw', hs, harrives.of_reaches (.no htest htruth)⟩

variable {fresh subject : Name} {func : Form} {pairs : List (Name × Name)} {body : Decision Form}
  {code : Form}

theorem reads_project {x : Name} (hx : body.reads sites x = true) :
    (project fresh func subject pairs body).reads sites x = true := by
  rw [reads, hx, Bool.true_or]

theorem keep_leads (ha : (project fresh func subject pairs body).Apart names)
    (hknown : ∀ x ∈ subject :: pairs.map Prod.snd, x ∈ known)
    (hread : body.reads sites fresh = true)
    (hbody : body.Leads vocabulary sites names (fresh :: known) code lo hi) :
    (project fresh func subject pairs body).Leads vocabulary sites names known
      (.letIn [(fresh, .bound (LowerM.references pairs)
        (func.application vocabulary.operators (.var subject)))] code) lo hi := by
  intro w ambient ambient' scope σ found s hfits hb hfollow
  obtain ⟨v, s₁, hv, hfollow⟩ := EvalM.bind_eq_ok.mp hfollow
  have hsubject (x : Name) (hx : x ∈ subject :: pairs.map Prod.snd) :
      (project fresh func subject pairs body).reads sites x = true := by
    simp only [reads, Bool.or_eq_true, Bool.and_eq_true, decide_eq_true_eq]
    exact .inr ⟨hread, hx⟩
  have hpair (b : Name × Name) (hb : b ∈ pairs) : b.2 ∈ subject :: pairs.map Prod.snd :=
    List.mem_cons_of_mem _ (List.mem_map_of_mem hb)
  obtain ⟨v', w₁, hvalue, rfl, hw₁, hrel⟩ := (hb.apply_simulates hfits
    List.mem_cons_self (ha.expressions func List.mem_cons_self)
    ⟨hknown subject List.mem_cons_self, hsubject subject List.mem_cons_self⟩
    fun b hmem => ⟨ha.binders b.1 (List.mem_append_left _ (List.mem_map_of_mem hmem)),
      hknown _ (hpair b hmem), hsubject _ (hpair b hmem)⟩).ok hv
  have hbound : Form.evalBound vocabulary.functions [(fresh, .bound (LowerM.references pairs)
      (func.application vocabulary.operators (.var subject)))] scope w.right =
        .ok ([(fresh, v')], w₁.right) := by
    rw [Form.evalBound, EvalM.bind_of_ok hvalue]
    rfl
  have hfits₁ := (hfits.mono hw₁).of_mem fun _ hf => List.mem_cons_of_mem _ hf
  have hb₁ := (hb.mono hw₁).project (ha.projections fresh List.mem_cons_self)
    (fun x hx => reads_project hx) hrel
  obtain ⟨w', hw', hs, harrives⟩ := hbody hfits₁ hb₁ hfollow
  exact ⟨w', hw₁.trans hw', hs, harrives.of_reaches (.body hbound)⟩

theorem drop_leads (ha : (project fresh func subject pairs body).Apart names)
    (hunread : body.reads sites fresh = false)
    (hbody : body.Leads vocabulary sites names (fresh :: known) code lo hi) :
    (project fresh func subject pairs body).Leads vocabulary sites names known code lo hi := by
  intro w ambient ambient' scope σ found s hfits hb hfollow
  obtain ⟨v, s₁, hv, hfollow⟩ := EvalM.bind_eq_ok.mp hfollow
  -- The decision evaluates the projection and the code does not: only the first run goes on.
  have hle : w.left.next ≤ s₁.next := Form.eval_advances vocabulary.functions _ _ _ _ _ hv
  have hw₁ := w.extends_advance hle (Nat.le_refl w.right.next)
  have hfits₁ := (hfits.mono hw₁).of_mem fun _ hf => List.mem_cons_of_mem _ hf
  have hb₁ := (hb.mono hw₁).drop v (ha.projections fresh List.mem_cons_self)
    (Bool.eq_false_iff.mp hunread) fun x hx => reads_project hx
  obtain ⟨w', hw', hs, harrives⟩ := hbody hfits₁ hb₁ hfollow
  exact ⟨w', hw₁.trans hw', hs, harrives⟩

/-- The code of a decision arrives where the decision ends. -/
theorem lower_leads (hv : vocabulary.Standard) {decision : Decision Form} {l : Lowering}
    {j : ObjectSupply} (h : decision.Tidy sites known) (ha : decision.Apart names)
    (hl : ∀ x ∈ decision.projections, x ∉ l.referenced) :
    decision.Leads vocabulary sites names known
      (decision.lower (formEmitter vocabulary.operators) sites l j).1.1 j
      (decision.lower (formEmitter vocabulary.operators) sites l j).2 := by
  induction decision generalizing known l j with
  | fail => exact fail_leads
  | leaf case use =>
      obtain ⟨site, hsite, hsubjects⟩ := h.subjects
      rw [lower, hsite]
      exact leaf_leads hsite hsubjects
  | test asked yes no ihyes ihno =>
      obtain ⟨hyes, hno, -⟩ := h.test
      have hlyes : ∀ x ∈ yes.projections, x ∉ l.referenced :=
        fun x hx => hl x (List.mem_append_left _ hx)
      have hlno := h.unread_later hl (@mem_referenced_lower _ _ _
        (formEmitter vocabulary.operators) sites _ yes l j hyes hlyes)
      obtain ⟨l', hlower⟩ := lower_test_form vocabulary.operators sites asked yes no l j
      have hyesle := next_le_lower vocabulary.operators sites yes l j
      have hyesleads := @ihyes known l j hyes ha.test.1 hlyes
      rw [hlower]
      generalize yes.lower (formEmitter vocabulary.operators) sites l j = y at *
      have hnole := next_le_lower vocabulary.operators sites no y.1.2 y.2
      have hnoleads := @ihno known y.1.2 y.2 hno ha.test.2 hlno
      generalize no.lower (formEmitter vocabulary.operators) sites y.1.2 y.2 = n at *
      have htestle := asked.next_le_code vocabulary.operators n.2
      -- The constants of the arms and of the test are made one after another.
      refine test_leads hv ha h.subjects.1 ?_ (Nat.le_refl _) ?_ (hnoleads.widen hyesle htestle)
      · omega
      · apply hyesleads.widen (Nat.le_refl _)
        exact Nat.le_trans hnole htestle
  | project fresh func subject pairs body ih =>
      have hbody := @ih (fresh :: known) l j h.project.1 ha.project
        fun x hx => hl x (List.mem_cons_of_mem _ hx)
      rw [lower_project_eq h hl]
      generalize body.lower (formEmitter vocabulary.operators) sites l j = b at *
      obtain ⟨l', hkeep⟩ := LowerM.keep_form vocabulary.operators fresh func subject pairs
        b.1.1 b.1.2 b.2
      simp only [hkeep]
      cases hread : body.reads sites fresh with
      | true => exact keep_leads ha h.subjects.1 hread hbody
      | false => exact drop_leads ha hread hbody

/-- If the projections have names of their own, which expressions neither bind nor mention, and
subjects are read where they are known, then the code arrives where the decision ends: at the code
of the same leaf's site, with the same values for the subjects of the site, or at the code for no
match. It is the code of the decision without the projections that nothing in their body reads, and
no other projection is left out. -/
theorem lower_preserves_decision (hv : vocabulary.Standard) {root : Name}
    {decision : Decision Form} (h : decision.Tidy sites [root])
    (ha : decision.Apart (root :: decision.projections)) {code : Form} {l : Lowering}
    {j j' : ObjectSupply}
    (hlower : decision.lower (formEmitter vocabulary.operators) sites .empty j =
      ((code, l), j')) :
    (∀ (w : Pairing false) (ambient ambient' : Scope) (σ : Valuation) (v : Value)
        (found : Option (Nat × Nat × Valuation)) (s : ObjectSupply),
        w.Fits ambient ambient' decision.expressions j j' → w.Relates (σ root) v →
        decision.follow (.within vocabulary ambient) σ w.left = .ok (found, s) →
        ∃ w', w.Extends w' ∧ w'.left = s ∧
          code.Arrives vocabulary.functions sites (root :: decision.projections) ambient' w'
            ((root, v) :: ambient') w.right found) ∧
      (decision.prune sites).lower (formEmitter vocabulary.operators) sites .empty j =
        ((code, ⟨l.referenced, 0⟩), j') ∧
      l.dropped + (decision.prune sites).projectionCount = decision.projectionCount := by
  have hempty : ∀ x ∈ decision.projections, x ∉ Lowering.empty.referenced :=
    fun _ _ => List.not_mem_nil
  have hleads := @lower_leads _ _ _ _ hv decision .empty j h ha hempty
  have hprune := @lower_prune _ _ _ (formEmitter vocabulary.operators) sites _ decision .empty j h
    hempty 0
  have hdropped := @dropped_lower _ _ _ (formEmitter vocabulary.operators) sites _ decision .empty j
    h hempty
  rw [hlower] at hleads hprune hdropped
  refine ⟨fun w ambient ambient' σ v found s hfits hrel hfollow => ?_, hprune, ?_⟩
  · refine hleads hfits ⟨?_, ?_, fun x hx => ?_⟩ hfollow
    · exact List.forall_mem_singleton.mpr List.mem_cons_self
    · exact List.forall_mem_singleton.mpr fun _ => ⟨v, List.lookup_cons_self, hrel⟩
    · have hne : x ≠ root := by
        rintro rfl
        exact hx List.mem_cons_self
      rw [List.lookup_cons, beq_false_of_ne hne]
  · rwa [Lowering.empty, Nat.zero_add] at hdropped

/-- Nothing reads the second projection, and only the second one reads the first. -/
theorem lower_preserves_decision_of_chain :
    let vocabulary := (Vocabulary.intern .initial).1
    let list : Form := .function (vocabulary.functions.nameOf .list)
    let decision : Decision Form :=
      .project ⟨101⟩ list ⟨100⟩ [] (.project ⟨102⟩ list ⟨101⟩ [] (.project ⟨103⟩ list ⟨100⟩ []
        (.test (.equal ⟨100⟩ (.str "a") .structural) (.leaf 0 0) .fail)))
    let sites : List (List (Site Form)) := [[⟨.var ⟨103⟩, [⟨103⟩]⟩]]
    let lowered := decision.lower (formEmitter vocabulary.operators) sites .empty ⟨1⟩
    lowered.1.2.dropped = 2 ∧
      ∃ v s, lowered.1.1.eval vocabulary.functions [(⟨100⟩, .str 0 "a")] ⟨2⟩ = .ok (v, s) ∧
        v.isEqual (.cons 3 (.str 0 "a") .nil) = true := by
  have hv := Vocabulary.intern_standard SymbolTable.initial_coherent
  have hlist := hv.named .list
  intro vocabulary list decision sites lowered
  have htidy : decision.Tidy sites [⟨100⟩] := by
    refine ⟨?_, ?_, ?_⟩
    · change [(⟨101⟩ : Name), ⟨102⟩, ⟨103⟩].Nodup
      decide
    · change ∀ x ∈ [(⟨101⟩ : Name), ⟨102⟩, ⟨103⟩], x ∉ [(⟨100⟩ : Name)]
      decide
    · simp [decision, Scoped, Test.subjects, siteAt?, sites]
  have hapart : decision.Apart (⟨100⟩ :: decision.projections) := by
    refine ⟨fun x hx => List.mem_cons_of_mem _ hx, ?_, ?_⟩
    · simp [decision, binders, Test.pairs]
    · simp [decision, expressions, Test.expressions, list, Form.mentions]
  have hlower : lowered = ((lowered.1.1, lowered.1.2), ⟨2⟩) := rfl
  obtain ⟨harrives, -, hdropped⟩ := lower_preserves_decision hv htidy hapart hlower
  refine ⟨Nat.add_right_cancel hdropped, ?_⟩
  have hfits : (Pairing.same false ⟨1⟩ ⟨2⟩).Fits [] [] decision.expressions ⟨1⟩ ⟨2⟩ :=
    Pairing.same_fits (Nat.le_succ 1) (fun _ hx => absurd hx List.not_mem_nil)
      (by simp [decision, expressions, Test.expressions, list, Form.constants])
  have hroot : (Pairing.same false ⟨1⟩ ⟨2⟩).Relates (.str 0 "a") (.str 0 "a") :=
    Pairing.same_relates fun _ => ⟨Nat.one_pos, Nat.two_pos⟩
  have happly (v : Value) (s : ObjectSupply) :
      (Interpretation.within vocabulary []).apply list v [] s =
        .ok (.cons s.next v .nil, ⟨s.next + 1⟩) := by
    simp only [Interpretation.within, list, Form.application, Form.eval, Form.evalList,
      FunctionTable.resolve, vocabulary, hlist]
    rfl
  obtain ⟨w', -, -, site, inner, hsite, hreaches, hvalues, -⟩ := harrives _ [] []
    (fun _ => .str 0 "a") (.str 0 "a") (some (0, 0, _)) _ hfits hroot (by
      simp only [follow, decision, Valuation.bindings, List.map_nil]
      rw [EvalM.bind_of_ok (happly _ _), EvalM.bind_of_ok (happly _ _),
        EvalM.bind_of_ok (happly _ _)]
      rfl)
  cases hsite
  obtain ⟨v, hlookup, hrel⟩ := hvalues ⟨103⟩ List.mem_cons_self
  refine ⟨v, w'.right, ?_, ?_⟩
  · exact hreaches.eval_eq.trans (congrFun (Form.eval_var hlookup) w'.right)
  · exact hrel.sameContent.symm.isEqual

end

end Decision

end PatternCompiler
