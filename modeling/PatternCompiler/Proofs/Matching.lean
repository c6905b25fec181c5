import PatternCompiler.Proofs.Meaning

/-!
# Direct matching in paired runs

Direct matching evaluates functions and guards in no scope but the bindings. What they need in order
to take the same course in two runs is that their constants correspond, and that they make no objects
if no objects may be made.
-/

namespace PatternCompiler

set_option autoImplicit false

namespace Pairing

variable {frozen : Bool}

/-- The form may run on both sides: its constants correspond to themselves, and if no objects may
be made, it makes none. -/
structure Admits (w : Pairing frozen) (functions : FunctionTable) (f : Form) : Prop where
  constants : ∀ c ∈ f.constants, w.Relates c c
  allocates : frozen = true → f.allocates functions = false

/-- The form may be called on both sides. -/
structure AdmitsFunction (w : Pairing frozen) (functions : FunctionTable) (f : Form) : Prop
    extends w.Admits functions f where
  isDirect : frozen = true → f.isDirect = true

variable {w w' : Pairing frozen} {functions : FunctionTable} {vocabulary : Vocabulary} {f : Form}

theorem Admits.mono (h : w.Admits functions f) (hw : w.Extends w') : w'.Admits functions f :=
  ⟨fun c hc => (h.constants c hc).mono hw, h.allocates⟩

theorem AdmitsFunction.mono (h : w.AdmitsFunction functions f) (hw : w.Extends w') :
    w'.AdmitsFunction functions f :=
  ⟨h.toAdmits.mono hw, h.isDirect⟩

theorem Admits.respects (h : w.Admits vocabulary.functions f) :
    w.RespectsGuard (.within vocabulary []) f :=
  respectsGuard_within .nil h.constants h.allocates

theorem AdmitsFunction.respects (h : w.AdmitsFunction vocabulary.functions f) :
    w.RespectsFunction (.within vocabulary []) f :=
  respectsFunction_within .nil h.constants fun hf => ⟨h.allocates hf, h.isDirect hf⟩

end Pairing

namespace Matcher

variable {frozen : Bool} {strict : Prop} {w : Pairing frozen} {vocabulary : Vocabulary}
  {env env' : Bindings} {v v' : Value}

theorem applyFunction_simulates {func : Form} (hf : w.AdmitsFunction vocabulary.functions func)
    (hv : w.Relates v v') (he : w.RelatesScope env env') :
    Simulates strict w Pairing.Relates (applyFunction vocabulary func v env)
      (applyFunction vocabulary func v' env') := by
  simp only [← Interpretation.within_nil_apply]
  exact Interpretation.apply_simulates hf.respects hv he

theorem evalWith_simulates {expr : Form} (hf : w.Admits vocabulary.functions expr)
    (he : w.RelatesScope env env') :
    Simulates strict w Pairing.Relates (expr.evalWith vocabulary.functions env)
      (expr.evalWith vocabulary.functions env') := by
  simp only [← Interpretation.within_nil_check]
  exact Interpretation.check_simulates hf.respects he

end Matcher

end PatternCompiler
