import PatternCompiler.Proofs.Constants
import PatternCompiler.Proofs.Evaluation

/-!
# Evaluation and its objects

Evaluation uses up identities and never gives one back. A form that calls neither `list` nor `cons`
nor `funcall` makes no objects: what it gives then does not depend on the objects made before, and
no identities are used up.
-/

namespace PatternCompiler

set_option autoImplicit false

/-! ## Computations -/

namespace EvalM

variable {α β : Type} {m : EvalM α}

/-- The computation makes no objects and does not depend on the objects made before. -/
def Steady (m : EvalM α) : Prop := ∃ r : Except EvalError α, ∀ s, m s = r.map (·, s)

/-- What the computation gives before any object is made. -/
def result (m : EvalM α) : Except EvalError α := (m ⟨0⟩).map Prod.fst

theorem Steady.run_eq (h : Steady m) (s : ObjectSupply) : m s = (result m).map (·, s) := by
  obtain ⟨r, hr⟩ := h
  rw [result, hr, hr]
  cases r <;> rfl

theorem Steady.pure (a : α) : Steady (Pure.pure a : EvalM α) := ⟨.ok a, fun _ => rfl⟩

theorem Steady.throw (e : EvalError) : Steady (MonadExcept.throw e : EvalM α) :=
  ⟨.error e, fun _ => rfl⟩

theorem Steady.bind (h : Steady m) {f : α → EvalM β} (hf : ∀ a, Steady (f a)) :
    Steady (m >>= f) := by
  obtain ⟨r, hr⟩ := h
  cases r with
  | error e => exact ⟨.error e, fun s => bind_of_error (hr s)⟩
  | ok a =>
      obtain ⟨r, hfr⟩ := hf a
      exact ⟨r, fun s => (bind_of_ok (hr s)).trans (hfr s)⟩

end EvalM

/-! ## Builtin functions -/

namespace Builtin

open EvalM (Steady)

theorem expectInt_steady (b : Builtin) (v : Value) : Steady (expectInt b v) := by
  cases v with
  | int n => exact .pure n
  | symbol | float | str | cons => exact .throw _

theorem fit_steady (b : Builtin) (n : Int) : Steady (fit b n) := by
  unfold fit
  split
  · exact .pure _
  · exact .throw _

theorem sum_steady (total : Int64) (vs : List Value) : Steady (sum total vs) := by
  induction vs generalizing total with
  | nil => exact .pure _
  | cons v vs ih => exact (expectInt_steady _ v).bind fun _ => (fit_steady _ _).bind fun _ => ih _

theorem difference_steady (total : Int64) (vs : List Value) : Steady (difference total vs) := by
  induction vs generalizing total with
  | nil => exact .pure _
  | cons v vs ih => exact (expectInt_steady _ v).bind fun _ => (fit_steady _ _).bind fun _ => ih _

theorem subtract_steady (vs : List Value) : Steady (subtract vs) := by
  rcases vs with _ | ⟨v, _ | ⟨u, vs⟩⟩
  · exact .pure _
  · exact (expectInt_steady _ v).bind fun _ => fit_steady _ _
  · exact (expectInt_steady _ v).bind fun _ => difference_steady _ _

theorem compare_steady (b : Builtin) (test : Int64 → Int64 → Bool) (v u : Value) :
    Steady (compare b test v u) :=
  (expectInt_steady b v).bind fun _ => (expectInt_steady b u).bind fun _ => .pure _

theorem half_steady (b : Builtin) (part? : Value → Option Value) (v : Value) :
    Steady (half b part? v) := by
  unfold half
  split
  · exact .pure _
  · split
    · exact .pure _
    · exact .throw _

theorem tailFrom_steady (b : Builtin) (eqv : Equivalence) (item v : Value) :
    Steady (tailFrom b eqv item v) := by
  induction v with
  | cons object first rest _ ih =>
      rw [tailFrom]
      split
      · exact .pure _
      · exact ih
  | symbol | int | float | str =>
      unfold tailFrom
      split
      · exact .pure _
      · exact .throw _

theorem unary_steady (b : Builtin) {body : Value → EvalM Value} (h : ∀ v, Steady (body v))
    (args : List Value) : Steady (unary b body args) := by
  unfold unary
  split
  · exact h _
  · exact .throw _

theorem binary_steady (b : Builtin) {body : Value → Value → EvalM Value}
    (h : ∀ v u, Steady (body v u)) (args : List Value) : Steady (binary b body args) := by
  unfold binary
  split
  · exact h _ _
  · exact .throw _

/-- A function that does not make objects takes no notice of them. -/
theorem run_steady {b : Builtin} (h : b.allocates = false) (args : List Value) :
    Steady (b.run args) := by
  cases b with
  | list | cons | funcall => cases h
  | add => exact (sum_steady _ _).bind fun _ => .pure _
  | sub => exact (subtract_steady _).bind fun _ => .pure _
  | car | cdr =>
      rw [run_eq_unary rfl]
      exact unary_steady _ (half_steady _ _) args
  | carSafe | cdrSafe | consp | integerp | symbolp | stringp | numberp | null =>
      rw [run_eq_unary rfl]
      exact unary_steady _ (fun _ => .pure _) args
  | onePlus =>
      rw [run_eq_unary rfl]
      exact unary_steady _ (fun v => (expectInt_steady _ v).bind fun _ =>
        (fit_steady _ _).bind fun _ => .pure _) args
  | eq | eql | equal =>
      rw [run_eq_binary rfl]
      exact binary_steady _ (fun _ _ => .pure _) args
  | memq | memql | member =>
      rw [run_eq_binary rfl]
      exact binary_steady _ (tailFrom_steady _ _) args
  | lt | gt | numEq =>
      rw [run_eq_binary rfl]
      exact binary_steady _ (compare_steady _ _) args

end Builtin

/-! ## Forms -/

namespace Form

open EvalM (Steady)

mutual

/-- The form calls a function that makes objects. -/
def makes (functions : FunctionTable) : Form → Bool
  | var _ | quote _ | function _ => false
  | call func args => functions.allocates func || anyMakes functions args
  | cond test yes no => makes functions test || makes functions yes || makes functions no
  | letIn bindings body => anyBoundMakes functions bindings || makes functions body

def anyMakes (functions : FunctionTable) : List Form → Bool
  | [] => false
  | f :: fs => makes functions f || anyMakes functions fs

def anyBoundMakes (functions : FunctionTable) : List (Name × Form) → Bool
  | [] => false
  | (_, f) :: rest => makes functions f || anyBoundMakes functions rest

end

theorem call_steady {functions : FunctionTable} {func : Name}
    (h : functions.allocates func = false) {args : EvalM (List Value)} (hargs : Steady args) :
    Steady (do
      let b ← functions.resolve func
      let values ← args
      functions.apply b values) := by
  unfold FunctionTable.resolve
  cases hb : functions.lookup func with
  | none => exact .throw (.undefinedFunction func)
  | some b =>
      have hb' : b.allocates = false := by
        rw [FunctionTable.allocates, hb] at h
        exact h
      have hne : b ≠ .funcall := by
        rintro rfl
        cases hb'
      rw [pure_bind]
      refine hargs.bind fun values => ?_
      rw [FunctionTable.apply_eq_run functions hne]
      exact Builtin.run_steady hb' values

mutual

theorem eval_steady (functions : FunctionTable) (f : Form) (h : f.makes functions = false)
    (scope : Scope) : Steady (f.eval functions scope) := by
  cases f with
  | var name =>
      rw [eval, lookupVariable]
      split
      · exact .pure _
      · exact .throw _
  | quote value => exact .pure _
  | function name => exact .pure _
  | call func args =>
      rw [makes, Bool.or_eq_false_iff] at h
      rw [eval]
      exact call_steady h.1 (evalList_steady functions args h.2 scope)
  | cond test yes no =>
      simp only [makes, Bool.or_eq_false_iff] at h
      rw [eval]
      refine (eval_steady functions test h.1.1 scope).bind fun v => ?_
      split
      · exact eval_steady functions yes h.1.2 scope
      · exact eval_steady functions no h.2 scope
  | letIn bindings body =>
      rw [makes, Bool.or_eq_false_iff] at h
      rw [eval]
      exact (evalBound_steady functions bindings h.1 scope).bind fun inner =>
        eval_steady functions body h.2 _

theorem evalList_steady (functions : FunctionTable) (fs : List Form)
    (h : anyMakes functions fs = false) (scope : Scope) :
    Steady (evalList functions fs scope) := by
  cases fs with
  | nil => exact .pure _
  | cons f fs =>
      rw [anyMakes, Bool.or_eq_false_iff] at h
      rw [evalList]
      exact (eval_steady functions f h.1 scope).bind fun v =>
        (evalList_steady functions fs h.2 scope).bind fun vs => .pure _

theorem evalBound_steady (functions : FunctionTable) (bindings : List (Name × Form))
    (h : anyBoundMakes functions bindings = false) (scope : Scope) :
    Steady (evalBound functions bindings scope) := by
  match bindings with
  | [] => exact .pure _
  | (name, f) :: rest =>
      rw [anyBoundMakes, Bool.or_eq_false_iff] at h
      rw [evalBound]
      exact (eval_steady functions f h.1 scope).bind fun v =>
        (evalBound_steady functions rest h.2 scope).bind fun vs => .pure _

end

end Form

/-! ## Identities used up -/

namespace EvalM

variable {α β : Type} {m : EvalM α}

/-- Where the computation gives a result, it has given no identity back. -/
def Advances (m : EvalM α) : Prop := ∀ s a s', m s = .ok (a, s') → s.next ≤ s'.next

theorem Steady.advances (h : Steady m) : Advances m := by
  intro s a s' hm
  obtain ⟨r, hr⟩ := h
  rw [hr] at hm
  cases r <;> cases hm
  exact Nat.le_refl _

theorem Advances.pure (a : α) : Advances (Pure.pure a : EvalM α) := (Steady.pure a).advances

theorem Advances.throw (e : EvalError) : Advances (MonadExcept.throw e : EvalM α) :=
  (Steady.throw e).advances

theorem Advances.bind (h : Advances m) {f : α → EvalM β} (hf : ∀ a, Advances (f a)) :
    Advances (m >>= f) := by
  intro s b s' hb
  obtain ⟨a, s₁, ha, hb⟩ := bind_eq_ok.mp hb
  exact Nat.le_trans (h s a s₁ ha) (hf a s₁ b s' hb)

theorem advances_allocate {action : StateM ObjectSupply α}
    (h : ∀ s, s.next ≤ (action s).2.next) : Advances (allocate action) := by
  intro s a s' ha
  obtain ⟨-, rfl⟩ := allocate_eq_ok.mp ha
  exact h s

end EvalM

open EvalM (Advances advances_allocate)

theorem Builtin.run_advances (b : Builtin) (args : List Value) : Advances (b.run args) := by
  cases hb : b.allocates with
  | false => exact (run_steady hb args).advances
  | true =>
      cases b with
      | list => exact advances_allocate (Literal.newList_next_le args)
      | cons =>
          rw [run_eq_binary rfl]
          unfold binary
          split
          · exact advances_allocate fun s => Nat.le_succ _
          · exact .throw _
      | funcall => exact .throw _
      | _ => cases hb

namespace FunctionTable

variable (functions : FunctionTable)

theorem resolve_advances (name : Name) : Advances (functions.resolve name) := by
  unfold resolve
  split
  · exact .pure _
  · exact .throw _

theorem apply_advances (b : Builtin) (args : List Value) : Advances (functions.apply b args) := by
  by_cases hfuncall : b = .funcall
  · subst hfuncall
    induction args with
    | nil => exact Builtin.run_advances .funcall []
    | cons v args ih =>
        cases v with
        | symbol name =>
            refine (functions.resolve_advances name).bind fun b => ?_
            by_cases hfuncall : b = .funcall
            · exact hfuncall ▸ ih
            · rw [apply_eq_run functions hfuncall]
              exact b.run_advances args
        | int | float | str | cons => exact .throw _
  · rw [apply_eq_run functions hfuncall]
    exact b.run_advances args

end FunctionTable

namespace Form

mutual

theorem eval_advances (functions : FunctionTable) (f : Form) (scope : Scope) :
    Advances (f.eval functions scope) := by
  cases f with
  | var name =>
      rw [eval, lookupVariable]
      split
      · exact .pure _
      · exact .throw _
  | quote value => exact .pure _
  | function name => exact .pure _
  | call func args =>
      rw [eval]
      exact (functions.resolve_advances func).bind fun b =>
        (evalList_advances functions args scope).bind fun values =>
          functions.apply_advances b values
  | cond test yes no =>
      rw [eval]
      refine (eval_advances functions test scope).bind fun v => ?_
      split
      · exact eval_advances functions yes scope
      · exact eval_advances functions no scope
  | letIn bindings body =>
      rw [eval]
      exact (evalBound_advances functions bindings scope).bind fun inner =>
        eval_advances functions body _

theorem evalList_advances (functions : FunctionTable) (fs : List Form) (scope : Scope) :
    Advances (evalList functions fs scope) := by
  cases fs with
  | nil => exact .pure _
  | cons f fs =>
      rw [evalList]
      exact (eval_advances functions f scope).bind fun v =>
        (evalList_advances functions fs scope).bind fun vs => .pure _

theorem evalBound_advances (functions : FunctionTable) (bindings : List (Name × Form))
    (scope : Scope) : Advances (evalBound functions bindings scope) := by
  match bindings with
  | [] => exact .pure _
  | (name, f) :: rest =>
      rw [evalBound]
      exact (eval_advances functions f scope).bind fun v =>
        (evalBound_advances functions rest scope).bind fun vs => .pure _

end

end Form

end PatternCompiler
