import Mathlib.Data.List.Perm.Subperm
import PatternCompiler.Decision.Plan
import PatternCompiler.Proofs.Naming
import PatternCompiler.Proofs.Steps

/-!
# Decision trees mean what their queues mean

A decision tree can be run on the values of its subjects. The tree built from a queue gives what the
queue gives: by induction on the cost of the queue, since every step keeps the meaning. A leaf refers
to a use of its case, and the table of uses keeps what it has, up to read marks.
-/

namespace PatternCompiler

set_option autoImplicit false

/-! ## Use tables -/

namespace Environment

theorem subject?_eq (env : Environment) (x : Name) : env.subject? x = env.pairs.lookup x := by
  obtain ⟨bindings⟩ := env
  simp only [subject?, lookup?, pairs]
  induction bindings with
  | nil => rfl
  | cons b bs ih =>
      rw [List.map_cons, List.lookup_cons, List.find?_cons]
      by_cases hx : b.name = x
      · simp [hx]
      · have hne : (x == b.name) = false := by simp [Ne.symm hx]
        simp [hx, hne, ih]

theorem subject?_of_mem {env : Environment} (h : env.names.Nodup) {b : Binding}
    (hb : b ∈ env.bindings) : env.subject? b.name = some b.subject := by
  obtain ⟨bindings⟩ := env
  simp only [names] at h
  simp only [subject?, lookup?]
  induction bindings with
  | nil => cases hb
  | cons c cs ih =>
      rw [List.map_cons, List.nodup_cons] at h
      rw [List.find?_cons]
      rcases List.mem_cons.mp hb with rfl | hb
      · simp
      · have hne : c.name ≠ b.name := by
          intro heq
          exact h.1 (heq ▸ List.mem_map_of_mem hb)
        simp [hne, ih h.2 hb]

theorem mem_of_subject? {env : Environment} {x s : Name} (h : env.subject? x = some s) :
    ∃ b ∈ env.bindings, b.name = x ∧ b.subject = s := by
  obtain ⟨b, hb, rfl⟩ := Option.map_eq_some_iff.mp h
  have hname := List.find?_some hb
  exact ⟨b, List.mem_of_find?_eq_some hb, by simpa using hname, rfl⟩

/-- Environments with the same context bind the same names to the same subjects. -/
theorem subject?_of_sameContext {a b : Environment} (h : a.sameContext b = true)
    (hb : b.names.Nodup) (x : Name) : a.subject? x = b.subject? x := by
  simp only [sameContext, Bool.and_eq_true, decide_eq_true_eq, List.all_eq_true] at h
  obtain ⟨hsize, hall⟩ := h
  cases hx : b.subject? x with
  | some s =>
      obtain ⟨c, hc, rfl, rfl⟩ := mem_of_subject? hx
      exact hall c hc
  | none =>
      cases ha : a.subject? x with
      | none => rfl
      | some s =>
          -- Otherwise `a` would have one name more than `b` has.
          have hfree : x ∉ b.names := by
            intro hmem
            obtain ⟨c, hc, rfl⟩ := List.mem_map.mp hmem
            rw [subject?_of_mem hb hc] at hx
            cases hx
          have hsub : x :: b.names ⊆ a.names := by
            intro y hy
            rcases List.mem_cons.mp hy with rfl | hy
            · obtain ⟨c, hc, rfl, -⟩ := mem_of_subject? ha
              exact List.mem_map_of_mem hc
            · obtain ⟨c, hc, rfl⟩ := List.mem_map.mp hy
              obtain ⟨d, hd, hname, -⟩ := mem_of_subject? (hall c hc)
              exact hname ▸ List.mem_map_of_mem hd
          have hle := (List.Nodup.subperm (List.nodup_cons.mpr ⟨hfree, hb⟩) hsub).length_le
          simp only [List.length_cons, names, List.length_map, size] at hle hsize
          omega

end Environment

namespace UseTable

/-- Every use stays where it is, with the same variables and subjects. -/
def Keeps (table table' : UseTable) : Prop :=
  ∀ (case i : Nat) (env : Environment), (table.uses case)[i]? = some env →
    ∃ env', (table'.uses case)[i]? = some env' ∧ env'.pairs = env.pairs

/-- No use binds a name twice, and all names are of a certain kind. -/
def Binds (binder : Name → Prop) (table : UseTable) : Prop :=
  ∀ case, ∀ env ∈ table.uses case, env.names.Nodup ∧ ∀ x ∈ env.names, binder x

variable {table table' table'' : UseTable}

theorem Keeps.refl (table : UseTable) : table.Keeps table :=
  fun _ _ env h => ⟨env, h, rfl⟩

theorem Keeps.trans (h : table.Keeps table') (h' : table'.Keeps table'') :
    table.Keeps table'' := by
  intro case i env henv
  obtain ⟨env', henv', hpairs⟩ := h case i env henv
  obtain ⟨env'', henv'', hpairs'⟩ := h' case i env' henv'
  exact ⟨env'', henv'', hpairs'.trans hpairs⟩

theorem record_keeps (env : Environment) {uses : List Environment} {i : Nat} {e : Environment}
    (h : uses[i]? = some e) : ∃ e', (record env uses).2[i]? = some e' ∧ e'.pairs = e.pairs := by
  induction uses generalizing i with
  | nil => cases h
  | cons use uses ih =>
      rw [record]
      split
      · cases i with
        | zero =>
            cases h
            exact ⟨_, rfl, Environment.pairs_markAllUsed _ _⟩
        | succ i => exact ⟨e, h, rfl⟩
      · cases i with
        | zero => exact ⟨e, h, rfl⟩
        | succ i => exact ih h

theorem record_finds {env : Environment} (henv : env.names.Nodup) (uses : List Environment) :
    ∃ e, (record env uses).2[(record env uses).1]? = some e ∧
      ∀ x, e.subject? x = env.subject? x := by
  induction uses with
  | nil => exact ⟨env, rfl, fun _ => rfl⟩
  | cons use uses ih =>
      rw [record]
      split
      · rename_i hsame
        refine ⟨_, rfl, fun x => ?_⟩
        rw [Environment.subject?_eq, Environment.pairs_markAllUsed, ← Environment.subject?_eq]
        exact Environment.subject?_of_sameContext hsame henv x
      · exact ih

theorem record_names {P : List Name → Prop} {env : Environment} (henv : P env.names)
    {uses : List Environment} (huses : ∀ e ∈ uses, P e.names) :
    ∀ e ∈ (record env uses).2, P e.names := by
  induction uses with
  | nil =>
      intro e he
      obtain rfl := List.mem_singleton.mp he
      exact henv
  | cons use uses ih =>
      obtain ⟨huse, huses⟩ := List.forall_mem_cons.mp huses
      rw [record]
      split
      · refine List.forall_mem_cons.mpr ⟨?_, huses⟩
        rw [Environment.names_eq, Environment.pairs_markAllUsed, ← Environment.names_eq]
        exact huse
      · exact List.forall_mem_cons.mpr ⟨huse, ih huses⟩

theorem uses_reach {case : Nat} (hcase : case < table.entries.length) (env : Environment)
    (other : Nat) :
    (table.reach case env).2.uses other =
      if other = case then (record env (table.uses case)).2 else table.uses other := by
  simp only [reach, uses]
  by_cases hother : other = case
  · subst hother
    rw [if_pos rfl, List.getElem?_set_self hcase]
    rfl
  · rw [if_neg hother, List.getElem?_set_ne (Ne.symm hother)]

theorem reach_keeps {case : Nat} (hcase : case < table.entries.length) (env : Environment) :
    table.Keeps (table.reach case env).2 := by
  intro other i e he
  rw [uses_reach hcase]
  split
  · rename_i heq
    subst heq
    exact record_keeps env he
  · exact ⟨e, he, rfl⟩

theorem Binds.reach {binder : Name → Prop} (h : table.Binds binder) {case : Nat}
    (hcase : case < table.entries.length) {env : Environment}
    (henv : env.names.Nodup ∧ ∀ x ∈ env.names, binder x) :
    (table.reach case env).2.Binds binder := by
  intro other e he
  rw [uses_reach hcase] at he
  split at he
  · exact record_names (P := fun xs => xs.Nodup ∧ ∀ x ∈ xs, binder x) henv (h case) e he
  · exact h other e he

end UseTable

/-! ## Running decisions -/

/-- What a decision gives, with the uses of its leaves looked up in a table. -/
def Decision.run (vocabulary : Vocabulary) (table : UseTable) :
    Decision Form → Valuation → EvalM Outcome
  | .fail, _ => return none
  | .leaf case use, σ => return (table.uses case)[use]?.map fun env => (case, env.values σ)
  | .test asked yes no, σ =>
      asked.ask vocabulary σ (yes.run vocabulary table σ) (no.run vocabulary table σ)
  | .project fresh func subject pairs body, σ => do
      let v ← Matcher.applyFunction vocabulary func (σ subject) (σ.bindings pairs)
      body.run vocabulary table (σ.set fresh v)

/-- Everything in the decision is within the signature, and every projection has a variable of its
own. -/
def Decision.Over (table : UseTable) : Decision Form → Signature → Prop
  | .fail, _ => True
  | .leaf case use, sig => ∃ env, (table.uses case)[use]? = some env ∧ env.Over sig
  | .test asked yes no, sig => asked.Over sig ∧ yes.Over table sig ∧ no.Over table sig
  | .project fresh func subject pairs body, sig =>
      sig.subject subject ∧ sig.function func ∧
        (∀ b ∈ pairs, sig.binder b.1 ∧ sig.subject b.2) ∧
        ¬ sig.subject fresh ∧ ¬ sig.binder fresh ∧ body.Over table (sig.extend fresh)

/-! ## Building decisions -/

namespace Builder

/-- The builder can go on with queues over the signature. -/
structure Ready (sig : Signature) (b : Builder) : Prop where
  coherent : b.names.symbols.Coherent
  subjects : ∀ x, sig.subject x → b.names.Settled x
  binders : ∀ x, sig.binder x → b.names.Settled x
  cases : b.uses.entries.length = sig.cases
  binds : b.uses.Binds sig.binder

structure Grows (binder : Name → Prop) (b b' : Builder) : Prop where
  coherent : b'.names.symbols.Coherent
  settled : ∀ x, b.names.Settled x → b'.names.Settled x
  keeps : b.uses.Keeps b'.uses
  length : b'.uses.entries.length = b.uses.entries.length
  binds : b'.uses.Binds binder

variable {sig : Signature} {b b' b'' : Builder}

theorem Grows.refl (h : b.Ready sig) : b.Grows sig.binder b :=
  ⟨h.coherent, fun _ hx => hx, .refl _, rfl, h.binds⟩

theorem Grows.trans {binder : Name → Prop} (h : b.Grows binder b') (h' : b'.Grows binder b'') :
    b.Grows binder b'' where
  coherent := h'.coherent
  settled x hx := h'.settled x (h.settled x hx)
  keeps := h.keeps.trans h'.keeps
  length := h'.length.trans h.length
  binds := h'.binds

theorem Ready.of_grows (h : b.Ready sig) (hb : b.Grows sig.binder b') : b'.Ready sig where
  coherent := hb.coherent
  subjects x hx := hb.settled x (h.subjects x hx)
  binders x hx := hb.settled x (h.binders x hx)
  cases := hb.length.trans h.cases
  binds := hb.binds

theorem Ready.grows_reach (h : b.Ready sig) {case : Nat} (hcase : case < sig.cases)
    {env : Environment} (henv : env.Over sig) : b.Grows sig.binder (b.reach case env).2 where
  coherent := h.coherent
  settled _ hx := hx
  keeps := UseTable.reach_keeps (h.cases ▸ hcase) env
  length := List.length_set
  binds := h.binds.reach (h.cases ▸ hcase) ⟨henv.nodup, henv.names⟩

theorem Ready.grows_projection (h : b.Ready sig) : b.Grows sig.binder b.projection.2 where
  coherent := NameSupply.fresh_coherent h.coherent "x"
  settled _ hx := hx.fresh "x"
  keeps := .refl _
  length := rfl
  binds := h.binds

theorem Ready.extend (h : b.Ready sig) : b.projection.2.Ready (sig.extend b.projection.1) := by
  have hlater := h.of_grows h.grows_projection
  refine ⟨hlater.coherent, fun x hx => ?_, hlater.binders, hlater.cases, hlater.binds⟩
  rcases hx with rfl | hx
  · exact NameSupply.fresh_settled h.coherent
  · exact hlater.subjects x hx

theorem Ready.not_subject (h : b.Ready sig) : ¬ sig.subject b.projection.1 :=
  fun hx => (h.subjects _ hx).ne_fresh h.coherent rfl

theorem Ready.not_binder (h : b.Ready sig) : ¬ sig.binder b.projection.1 :=
  fun hx => (h.binders _ hx).ne_fresh h.coherent rfl

end Builder

/-- A use with the context of an environment stays within the signature of the environment. -/
theorem Environment.Over.of_subject?_eq {sig : Signature} {env env' : Environment}
    (h : env.Over sig) (hnodup : env'.names.Nodup)
    (hsame : ∀ x, env'.subject? x = env.subject? x) : env'.Over sig := by
  have mem : ∀ c ∈ env'.bindings, sig.binder c.name ∧ sig.subject c.subject := by
    intro c hc
    have hbound := subject?_of_mem hnodup hc
    rw [hsame] at hbound
    obtain ⟨d, hd, hname, hsubject⟩ := mem_of_subject? hbound
    exact ⟨hname ▸ h.names _ (List.mem_map_of_mem hd),
      hsubject ▸ h.subjects _ (List.mem_map_of_mem hd)⟩
  refine ⟨hnodup, fun x hx => ?_, fun s hs => ?_⟩
  · obtain ⟨c, hc, rfl⟩ := List.mem_map.mp hx
    exact (mem c hc).1
  · obtain ⟨c, hc, rfl⟩ := List.mem_map.mp hs
    exact (mem c hc).2

section

variable {frozen : Bool} {strict : Prop} {vocabulary : Vocabulary} {sig : Signature}
  {queue : Queue Form} {uses uses' : UseTable} {decision : Decision Form}

/-- The uses of the decision are in the table, whatever is still added to it. -/
def Decision.Formed (sig : Signature) (uses : UseTable) (decision : Decision Form) : Prop :=
  ∀ table, uses.Keeps table → table.Binds sig.binder → decision.Over table sig

theorem Decision.Formed.keeps (h : decision.Formed sig uses) (hkeeps : uses.Keeps uses') :
    decision.Formed sig uses' :=
  fun table htable => h table (hkeeps.trans htable)

/-- A leaf refers to a use that binds what the environment binds. -/
theorem UseTable.reach_finds {b : Builder} (hb : b.Ready sig) {case : Nat} (hcase : case < sig.cases)
    {env : Environment} (henv : env.Over sig) {table : UseTable}
    (hkeeps : (b.uses.reach case env).2.Keeps table) :
    ∃ e, (table.uses case)[(b.uses.reach case env).1]? = some e ∧
      ∀ x, e.subject? x = env.subject? x := by
  obtain ⟨env', huse, hsame⟩ := UseTable.record_finds henv.nodup (b.uses.uses case)
  have huses := UseTable.uses_reach (hb.cases ▸ hcase) env case
  rw [if_pos rfl] at huses
  obtain ⟨e, he, hpairs⟩ := hkeeps case _ env' (huses ▸ huse)
  refine ⟨e, he, fun x => ?_⟩
  rw [Environment.subject?_eq, hpairs, ← Environment.subject?_eq, hsame]

/-- Building a tree only adds to the builder, and the tree stays within the signature. -/
theorem Queue.build_formed (options : Options) (mentions : Form → Name → Bool) {b : Builder}
    (hb : b.Ready sig) (hq : Queue.Over sig queue) :
    b.Grows sig.binder (Queue.build options mentions queue b).2 ∧
      (Queue.build options mentions queue b).1.Formed sig
        (Queue.build options mentions queue b).2.uses := by
  induction hn : Queue.cost queue using Nat.strongRecOn generalizing queue b sig with
  | _ n ih =>
    subst hn
    have hdescends := Queue.step_descends options mentions queue
    have hover : (step options mentions queue).Over sig b.projection.1 := step_over hq
    rw [Queue.build_eq]
    generalize step options mentions queue = next at *
    cases next with
    | fail => exact ⟨.refl hb, fun _ _ _ => trivial⟩
    | select case env =>
        refine ⟨hb.grows_reach hover.1 hover.2, fun table hkeeps hbinds => ?_⟩
        obtain ⟨e, he, hsubjects⟩ := UseTable.reach_finds hb hover.1 hover.2 hkeeps
        exact ⟨e, he,
          hover.2.of_subject?_eq (hbinds case e (List.mem_of_getElem? he)).1 hsubjects⟩
    | advance next => exact ih _ hdescends hb hover rfl
    | test asked yes no =>
        obtain ⟨hgrows, hyes⟩ := ih _ hdescends.1 hb hover.2.1 rfl
        obtain ⟨hgrows', hno⟩ := ih _ hdescends.2 (hb.of_grows hgrows) hover.2.2 rfl
        exact ⟨hgrows.trans hgrows', fun table hkeeps hbinds =>
          ⟨hover.1, hyes.keeps hgrows'.keeps table hkeeps hbinds, hno table hkeeps hbinds⟩⟩
    | project func subject pairs body =>
        obtain ⟨hs, hf, hpairs, hbody⟩ := hover
        obtain ⟨hgrows, hformed⟩ := ih _ (hdescends _) hb.extend hbody rfl
        exact ⟨hb.grows_projection.trans hgrows, fun table hkeeps hbinds =>
          ⟨hs, hf, hpairs, hb.not_subject, hb.not_binder, hformed table hkeeps hbinds⟩⟩

/-! ## Trees mean what their queues mean -/

/-- The decision does what the queue does, whatever is still added to the table of uses. -/
def Decision.Implements (frozen : Bool) (strict : Prop) (vocabulary : Vocabulary)
    (sig : Signature) (queue : Queue Form) (uses : UseTable) (decision : Decision Form) : Prop :=
  ∀ table, uses.Keeps table → ∀ σ s, Situated frozen vocabulary.functions sig σ s →
    Agrees strict SameOutcome (Queue.outcome vocabulary σ queue s)
      (decision.run vocabulary table σ s)

namespace Decision

theorem Implements.keeps (h : decision.Implements frozen strict vocabulary sig queue uses)
    (hkeeps : uses.Keeps uses') : decision.Implements frozen strict vocabulary sig queue uses' :=
  fun table htable => h table (hkeeps.trans htable)

theorem leaf_implements {case use : Nat} {env : Environment}
    (huse : ∀ table, uses.Keeps table → ∃ e, (table.uses case)[use]? = some e ∧
      ∀ x, e.subject? x = env.subject? x)
    (hstep : ∀ σ s, Situated frozen vocabulary.functions sig σ s →
      Agrees strict SameOutcome (Queue.outcome vocabulary σ queue s)
        (pure (f := EvalM) (some (case, env.values σ)) s)) :
    Implements frozen strict vocabulary sig queue uses (.leaf case use) := by
  intro table hkeeps σ s h
  obtain ⟨e, he, hsubjects⟩ := huse table hkeeps
  refine (hstep σ s h).trans ⟨fun ha => ?_, fun _ e he => by cases he⟩
  cases ha
  refine ⟨some (case, e.values σ), s, by rw [run, he]; rfl, .some ⟨rfl, fun x => ?_⟩⟩
  rw [Environment.lookup_values, Environment.lookup_values, hsubjects]
  cases env.subject? x with
  | none => exact .none
  | some y => exact .some (.refl _)

theorem test_implements {asked : Test Form} {yes no : Queue Form} {dyes dno : Decision Form}
    (hasked : asked.Over sig) (hyes : dyes.Implements frozen strict vocabulary sig yes uses)
    (hno : dno.Implements frozen strict vocabulary sig no uses)
    (hstep : ∀ σ s, Situated frozen vocabulary.functions sig σ s →
      Agrees strict SameOutcome (Queue.outcome vocabulary σ queue s)
        (asked.ask vocabulary σ (Queue.outcome vocabulary σ yes)
          (Queue.outcome vocabulary σ no) s)) :
    Implements frozen strict vocabulary sig queue uses (.test asked dyes dno) := by
  intro table hkeeps σ s h
  refine (hstep σ s h).trans (Agrees.bind fun {b s'} hholds => ?_)
  have hlater : Situated frozen vocabulary.functions sig σ s' :=
    have hs' := Test.next_le h hasked hholds
    h.suits hs' hs'
  cases b with
  | true => exact hyes table hkeeps σ s' hlater
  | false => exact hno table hkeeps σ s' hlater

theorem project_implements {fresh subject : Name} {func : Form} {pairs : List (Name × Name)}
    {next : Queue Form} {body : Decision Form} (hs : sig.subject subject)
    (hf : sig.function func) (hpairs : ∀ b ∈ pairs, sig.binder b.1 ∧ sig.subject b.2)
    (hfresh : ¬ sig.subject fresh)
    (hbody : body.Implements frozen strict vocabulary (sig.extend fresh) next uses)
    (hstep : ∀ σ s, Situated frozen vocabulary.functions sig σ s →
      Agrees strict SameOutcome (Queue.outcome vocabulary σ queue s)
        ((Matcher.applyFunction vocabulary func (σ subject) (σ.bindings pairs) >>= fun v =>
          Queue.outcome vocabulary (σ.set fresh v) next) s)) :
    Implements frozen strict vocabulary sig queue uses
      (.project fresh func subject pairs body) := by
  intro table hkeeps σ s h
  refine (hstep σ s h).trans (Agrees.bind fun {v s'} hv => ?_)
  have hlater := (Queue.situated_set h hs hf (fun b hb => (hpairs b hb).2) hv hfresh).2
  exact hbody table hkeeps _ s' hlater

end Decision

/-- A queue that may be split may be split after every step. -/
theorem MaySplit.next {functions : FunctionTable} {next : Queue Form} {sig' : Signature}
    (h : MaySplit strict functions sig queue) (hsig : sig'.function = sig.function)
    (honce : Queue.AppliesOnce functions next) : MaySplit strict functions sig' next :=
  ⟨h.lax, hsig ▸ h.plain, hsig ▸ h.isDirect, honce⟩

/-- The tree built from a queue does what the queue does. -/
theorem Queue.build_implements (frozen : Bool) {options : Options} {mentions : Form → Name → Bool}
    (hmentions : ∀ f x, f.mentions x = true → mentions f x = true) {b : Builder}
    (hb : b.Ready sig) (hq : Queue.Over sig queue)
    (hsplit : options.splitBranches = true → MaySplit strict vocabulary.functions sig queue) :
    (Queue.build options mentions queue b).1.Implements frozen strict vocabulary sig queue
      (Queue.build options mentions queue b).2.uses := by
  induction hn : Queue.cost queue using Nat.strongRecOn generalizing queue b sig with
  | _ n ih =>
    subst hn
    have hdescends := Queue.step_descends options mentions queue
    have hover : (step options mentions queue).Over sig b.projection.1 := step_over hq
    have honce (hoption : options.splitBranches = true) :
        (step options mentions queue).AppliesOnce vocabulary.functions b.projection.1 :=
      step_appliesOnce (hsplit hoption).plain hb.not_subject hq (hsplit hoption).once
    have hstep (σ : Valuation) (s : ObjectSupply)
        (h : Situated frozen vocabulary.functions sig σ s) :=
      step_agrees hmentions h hq hb.not_subject hsplit
    rw [Queue.build_eq]
    generalize step options mentions queue = next at *
    cases next with
    | fail => exact fun _ _ => hstep
    | select case env =>
        exact Decision.leaf_implements
          (fun _ hkeeps => UseTable.reach_finds hb hover.1 hover.2 hkeeps) hstep
    | advance next =>
        have himpl := ih _ hdescends hb hover
          (fun hoption => (hsplit hoption).next rfl (honce hoption)) rfl
        exact fun table hkeeps σ s h => (hstep σ s h).trans (himpl table hkeeps σ s h)
    | test asked yes no =>
        have hyes := ih _ hdescends.1 hb hover.2.1
          (fun hoption => (hsplit hoption).next rfl (honce hoption).1) rfl
        have hready := hb.of_grows (Queue.build_formed options mentions hb hover.2.1).1
        have hno := ih _ hdescends.2 hready hover.2.2
          (fun hoption => (hsplit hoption).next rfl (honce hoption).2) rfl
        have hkeeps := (Queue.build_formed options mentions hready hover.2.2).1.keeps
        exact Decision.test_implements hover.1 (hyes.keeps hkeeps) hno hstep
    | project func subject pairs body =>
        have hbody := ih _ (hdescends _) hb.extend hover.2.2.2
          (fun hoption => (hsplit hoption).next rfl (honce hoption)) rfl
        exact Decision.project_implements hover.1 hover.2.1 hover.2.2.1 hb.not_subject hbody hstep

/-! ## Plans -/

/-- The subject is in one variable, and the patterns bind certain names. -/
def Signature.ofPatterns (root : Name) (binder : Name → Prop) (patterns : List (Pattern Form)) :
    Signature where
  subject x := x = root
  binder := binder
  function f := ∃ p ∈ patterns, f ∈ p.functions
  guard f := ∃ p ∈ patterns, f ∈ p.guards
  cases := patterns.length

variable {patterns : List (Pattern Form)} {binder : Name → Prop} {root : Name}

theorem Queue.ofPatterns_over (hbinder : ∀ p ∈ patterns, ∀ x ∈ p.binders, binder x) :
    Queue.Over (.ofPatterns root binder patterns) (Queue.ofPatterns root patterns) := by
  refine Queue.over_iff.mpr fun branch hbranch => ?_
  obtain ⟨case, p, hcase, hp, rfl⟩ := Branch.exists_of_mem_ofPatterns hbranch
  refine Branch.over_iff.mpr ⟨?_, ⟨.nil, fun x hx => (by cases hx), fun x hx => (by cases hx)⟩, ?_⟩
  · refine List.forall_mem_singleton.mpr ⟨rfl, ?_⟩
    exact ⟨hbinder p hp, fun f hf => ⟨p, hp, hf⟩, fun f hf => ⟨p, hp, hf⟩⟩
  · rw [Branch.ofCase, Goal.Over]
    exact hcase

theorem Queue.ofPatterns_appliesOnce {functions : FunctionTable}
    (h : ∀ p ∈ patterns, p.AppliesOnce functions) :
    Queue.AppliesOnce functions (Queue.ofPatterns root patterns) := by
  refine Queue.appliesOnce_iff.mpr fun branch hbranch => ?_
  obtain ⟨case, p, -, hp, rfl⟩ := Branch.exists_of_mem_ofPatterns hbranch
  refine Branch.appliesOnce_iff.mpr ⟨⟨List.pairwise_singleton _ _, ?_⟩, ?_⟩
  · refine List.forall_mem_singleton.mpr ?_
    exact h p hp
  · rw [Branch.ofCase, Goal.AppliesOnce]
    trivial

/-- What the compiler relies on to split branches. -/
structure Splittable (strict : Prop) (functions : FunctionTable) (patterns : List (Pattern Form)) :
    Prop where
  lax : ¬ strict
  plain : ∀ p ∈ patterns, ∀ f ∈ p.functions, f.QuotesPlainly
  isDirect : ∀ p ∈ patterns, ∀ f ∈ p.functions, f.isDirect = true
  once : ∀ p ∈ patterns, p.AppliesOnce functions

/-- The variable of the subject is none that patterns bind, and everything in the plan is within the
signature of the patterns. -/
structure Plan.Formed (binder : Name → Prop) (patterns : List (Pattern Form)) (plan : Plan Form) :
    Prop where
  root : ¬ binder plan.root
  within : plan.decision.Over plan.uses (.ofPatterns plan.root binder patterns)
  length : plan.uses.entries.length = patterns.length
  binds : plan.uses.Binds binder

/-- The plan of a case list does what the case list does. -/
def Plan.Implements (frozen : Bool) (strict : Prop) (vocabulary : Vocabulary)
    (binder : Name → Prop) (patterns : List (Pattern Form)) (plan : Plan Form) : Prop :=
  ∀ σ s, Situated frozen vocabulary.functions (.ofPatterns plan.root binder patterns) σ s →
    Agrees strict SameOutcome (Matcher.firstMatch vocabulary patterns (σ plan.root) s)
      (plan.decision.run vocabulary plan.uses σ s)

theorem UseTable.uses_empty (cases case : Nat) : (UseTable.empty cases).uses case = [] := by
  rw [uses, empty, List.getElem?_replicate]
  split <;> rfl

section

variable {names : NameSupply} (hnames : names.symbols.Coherent)
  (hordinary : ∀ x, binder x → names.symbols.isGenerated? x = some false)
  (hbinder : ∀ p ∈ patterns, ∀ x ∈ p.binders, binder x)

include hnames hordinary

theorem Builder.ready_of_ordinary :
    Builder.Ready (.ofPatterns (NameSupply.fresh "val" names).1 binder patterns)
      ⟨(NameSupply.fresh "val" names).2, .empty patterns.length, 0⟩ where
  coherent := NameSupply.fresh_coherent hnames "val"
  subjects := by
    rintro x rfl
    exact NameSupply.root_settled hnames
  binders x hx := (NameSupply.settled_of_ordinary (hordinary x hx)).fresh "val"
  cases := List.length_replicate
  binds := by
    intro case env henv
    rw [UseTable.uses_empty] at henv
    cases henv

include hbinder

theorem Plan.ofPatterns_formed (options : Options) (mentions : Form → Name → Bool) :
    (Plan.ofPatterns options mentions patterns names).1.Formed binder patterns := by
  obtain ⟨hgrows, hformed⟩ := Queue.build_formed options mentions
    (Builder.ready_of_ordinary hnames hordinary) (Queue.ofPatterns_over hbinder)
  refine ⟨fun hx => ?_, hformed _ (.refl _) hgrows.binds, ?_, hgrows.binds⟩
  · exact NameSupply.fresh_ne_of_ordinary hnames "val" (hordinary _ hx) rfl
  · exact hgrows.length.trans List.length_replicate

theorem Plan.ofPatterns_implements (frozen : Bool) {options : Options}
    {mentions : Form → Name → Bool}
    (hmentions : ∀ f x, f.mentions x = true → mentions f x = true)
    (hsplit : options.splitBranches = true → Splittable strict vocabulary.functions patterns) :
    (Plan.ofPatterns options mentions patterns names).1.Implements frozen strict vocabulary
      binder patterns := by
  intro σ s h
  have hagrees := Queue.build_implements frozen hmentions
    (Builder.ready_of_ordinary hnames hordinary) (Queue.ofPatterns_over hbinder) (fun hoption => {
      lax := (hsplit hoption).lax
      plain := by
        rintro f ⟨p, hp, hf⟩
        exact (hsplit hoption).plain p hp f hf
      isDirect := by
        rintro f ⟨p, hp, hf⟩
        exact (hsplit hoption).isDirect p hp f hf
      once := Queue.ofPatterns_appliesOnce (hsplit hoption).once }) _ (.refl _) σ s h
  rwa [Queue.outcome_ofPatterns] at hagrees

end

/-- A decision gives only cases that are reached. -/
theorem Decision.run_reached {table : UseTable} {σ : Valuation} {s s' : ObjectSupply} {case : Nat}
    {env : Bindings} (h : decision.run vocabulary table σ s = .ok (some (case, env), s')) :
    table.isReached case = true := by
  induction decision generalizing σ s with
  | fail => cases h
  | leaf case' use =>
      rw [run] at h
      cases huse : (table.uses case')[use]? with
      | none =>
          rw [huse] at h
          cases h
      | some e =>
          rw [huse] at h
          cases h
          have hmem := List.mem_of_getElem? huse
          simp [UseTable.isReached, List.ne_nil_of_mem hmem]
  | test asked yes no ihyes ihno =>
      obtain ⟨b, s₁, -, h⟩ := EvalM.bind_eq_ok.mp h
      cases b with
      | true => exact ihyes h
      | false => exact ihno h
  | project fresh func subject pairs body ih =>
      obtain ⟨v, s₁, -, h⟩ := EvalM.bind_eq_ok.mp h
      exact ih h

end

end PatternCompiler
