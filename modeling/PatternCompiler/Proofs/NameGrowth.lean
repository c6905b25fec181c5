import Mathlib.Combinatorics.Enumerative.DoubleCounting
import Mathlib.Order.Interval.Finset.Nat
import PatternCompiler.Proofs.Nesting
import PatternCompiler.Proofs.Pruning

/-!
# How many made-up names a table holds

Every compilation hands its numbers back, so the next one takes the same numbers again, and so do
matches inside the bodies of one compilation that follow each other. A number is written with one
stem for the variable of a subject and with another for that of a projection. The table therefore
holds at most two names for a number, and one if the number never changes its part.
-/

namespace PatternCompiler

set_option autoImplicit false

open SymbolTable (generatedString isGeneratedString)

/-! ## Tables -/

namespace SymbolTable

/-- The number of strings that are written like made-up names. -/
def generatedCount (table : SymbolTable) : Nat := table.strings.toList.countP isGeneratedString

/-- The name is a made-up one with this number. Only subjects have the number zero. -/
def HasNumber (table : SymbolTable) (x : Name) (number : Nat) : Prop :=
  table.lookup? x = some (generatedString "val" number) ∨
    0 < number ∧ table.lookup? x = some (generatedString "x" number)

/-- No number stands for a subject in one of the names and for a projection in another. -/
def SingleRoles (table : SymbolTable) (made : List Name) : Prop :=
  ∀ x ∈ made, ∀ y ∈ made, ∀ number,
    table.lookup? x = some (generatedString "val" number) →
      table.lookup? y ≠ some (generatedString "x" number)

variable {table table' : SymbolTable}

theorem HasNumber.extends {x : Name} {number : Nat} (h : table.HasNumber x number)
    (hextends : table.Extends table') : table'.HasNumber x number := by
  rcases h with hx | ⟨hpos, hx⟩
  · exact .inl (hextends x _ hx)
  · exact .inr ⟨hpos, hextends x _ hx⟩

theorem HasNumber.unique {x : Name} {m n : Nat} (hm : table.HasNumber x m)
    (hn : table.HasNumber x n) : m = n := by
  rcases hm with hm | ⟨-, hm⟩ <;> rcases hn with hn | ⟨-, hn⟩ <;>
    have hsame := Option.some.inj (hm.symm.trans hn)
  · exact generatedString_inj hsame
  · exact absurd hsame (generatedString_stem_ne m n)
  · exact absurd hsame.symm (generatedString_stem_ne n m)
  · exact generatedString_inj hsame

theorem singleRoles_of_subjects {made : List Name}
    (h : ∀ x ∈ made, ∃ number, table.lookup? x = some (generatedString "val" number)) :
    table.SingleRoles made := by
  rintro x - y hy number - hprojection
  obtain ⟨number', hsubject⟩ := h y hy
  exact generatedString_stem_ne number' number
    (Option.some.inj (hsubject.symm.trans hprojection))

theorem lookup?_of_intern {s s' : String} {x : Name}
    (h : (table.intern s).2.lookup? x = some s') :
    table.lookup? x = some s' ∨ x = (table.intern s).1 := by
  unfold SymbolTable.intern at h ⊢
  split
  · rename_i hs
    rw [hs] at h
    exact .inl h
  · rename_i hs
    rw [hs] at h
    simp only [lookup?, SymbolTable.push, Array.getElem?_push] at h ⊢
    split at h
    · rename_i hid
      exact .inr (congrArg Name.mk hid)
    · exact .inl h

/-- Interning adds at most the name of the string. -/
theorem Coherent.isGenerated?_intern (h : table.Coherent) (s : String) (x : Name) :
    (table.intern s).2.isGenerated? x = some true ↔
      table.isGenerated? x = some true ∨
        isGeneratedString s = true ∧ x = (table.intern s).1 := by
  constructor
  · intro hx
    obtain ⟨s', hs', hgenerated⟩ := Option.map_eq_some_iff.mp hx
    rcases lookup?_of_intern hs' with hold | rfl
    · exact .inl (Option.map_eq_some_iff.mpr ⟨s', hold, hgenerated⟩)
    · rw [h.lookup?_intern s] at hs'
      cases hs'
      exact .inr ⟨hgenerated, rfl⟩
  · rintro (hx | ⟨hgenerated, rfl⟩)
    · exact (extends_intern table s).isGenerated? hx
    · exact Option.map_eq_some_iff.mpr ⟨s, h.lookup?_intern s, hgenerated⟩

theorem Coherent.isGenerated?_internAll (h : table.Coherent) {ss : List String}
    (hss : ∀ s ∈ ss, isGeneratedString s = false) (x : Name) :
    (table.internAll ss).2.isGenerated? x = some true ↔ table.isGenerated? x = some true := by
  induction ss generalizing table with
  | nil => exact Iff.rfl
  | cons s ss ih =>
      obtain ⟨hs, hss⟩ := List.forall_mem_cons.mp hss
      refine (ih (h.intern s) hss).trans ((h.isGenerated?_intern s x).trans (or_iff_left ?_))
      rintro ⟨hgenerated, -⟩
      rw [hs] at hgenerated
      cases hgenerated

theorem Coherent.strings_nodup (h : table.Coherent) : table.strings.toList.Nodup := by
  rw [List.nodup_iff_injective_getElem]
  intro i j hij
  have hi := (h _ i).mpr (Array.getElem?_eq_getElem i.isLt)
  have hj := (h _ j).mpr (Array.getElem?_eq_getElem j.isLt)
  simp only [Array.getElem_toList] at hij
  rw [hij, hj] at hi
  exact Fin.ext (Option.some.inj hi).symm

/-- A coherent table holds as many made-up strings as it has made-up names. -/
theorem Coherent.generatedCount_eq (h : table.Coherent) {made : List Name}
    (hmade : ∀ x, table.isGenerated? x = some true ↔ x ∈ made) :
    table.generatedCount = made.toFinset.card := by
  have hnodup := h.strings_nodup.filter isGeneratedString
  rw [generatedCount, List.countP_eq_length_filter, ← List.toFinset_card_of_nodup hnodup]
  refine (Finset.card_bij (fun x _ => table.lookup x) ?_ ?_ ?_).symm
  · intro x hx
    obtain ⟨s, hs, hgenerated⟩ :=
      Option.map_eq_some_iff.mp ((hmade x).mpr (List.mem_toFinset.mp hx))
    rw [lookup, hs, Option.getD_some, List.mem_toFinset, List.mem_filter]
    exact ⟨Array.mem_toList_iff.mpr (Array.mem_of_getElem? hs), hgenerated⟩
  · intro x hx y hy hxy
    obtain ⟨s, hs, -⟩ := Option.map_eq_some_iff.mp ((hmade x).mpr (List.mem_toFinset.mp hx))
    obtain ⟨s', hs', -⟩ := Option.map_eq_some_iff.mp ((hmade y).mpr (List.mem_toFinset.mp hy))
    rw [lookup, lookup, hs, hs', Option.getD_some, Option.getD_some] at hxy
    exact h.eq_of_lookup? hs (hxy ▸ hs')
  · intro s hs
    obtain ⟨hmem, hgenerated⟩ := List.mem_filter.mp (List.mem_toFinset.mp hs)
    obtain ⟨x, hlookup⟩ := mem_strings_iff.mp hmem
    refine ⟨x, List.mem_toFinset.mpr ((hmade _).mp ?_), by rw [lookup, hlookup, Option.getD_some]⟩
    exact Option.map_eq_some_iff.mpr ⟨s, hlookup, hgenerated⟩

end SymbolTable

/-! ## Numbers without gaps -/

/-- The names have just the numbers from one bound up to the other. -/
structure Spans (numbered : Name → Nat → Prop) (low high : Nat) (made : List Name) : Prop where
  ordered : low ≤ high
  within : ∀ x ∈ made, ∃ number, low ≤ number ∧ number < high ∧ numbered x number
  every : ∀ number, low ≤ number → number < high → ∃ x ∈ made, numbered x number

namespace Spans

variable {numbered numbered' : Name → Nat → Prop} {low mid high high' : Nat}
  {made made' : List Name}

theorem nil (numbered : Name → Nat → Prop) (low : Nat) : Spans numbered low low [] where
  ordered := Nat.le_refl _
  within _ hx := by cases hx
  every _ hle hlt := absurd hlt (Nat.not_lt.mpr hle)

theorem single {x : Name} (h : numbered x low) : Spans numbered low (low + 1) [x] where
  ordered := Nat.le_succ low
  within y hy := by
    rw [List.mem_singleton.mp hy]
    exact ⟨low, Nat.le_refl _, Nat.lt_succ_self _, h⟩
  every number hle hlt := by
    obtain rfl : number = low := Nat.le_antisymm (Nat.le_of_lt_succ hlt) hle
    exact ⟨x, List.mem_singleton_self x, h⟩

theorem mono (h : Spans numbered low high made)
    (hnumbered : ∀ x number, low ≤ number → numbered x number → numbered' x number) :
    Spans numbered' low high made where
  ordered := h.ordered
  within x hx := by
    obtain ⟨number, hle, hlt, hnumber⟩ := h.within x hx
    exact ⟨number, hle, hlt, hnumbered x number hle hnumber⟩
  every number hle hlt := by
    obtain ⟨x, hx, hnumber⟩ := h.every number hle hlt
    exact ⟨x, hx, hnumbered x number hle hnumber⟩

/-- The numbers of the second names follow those of the first. -/
theorem append (h : Spans numbered low mid made) (h' : Spans numbered mid high made') :
    Spans numbered low high (made ++ made') where
  ordered := Nat.le_trans h.ordered h'.ordered
  within x hx := by
    rcases List.mem_append.mp hx with hx | hx
    · obtain ⟨number, hle, hlt, hnumber⟩ := h.within x hx
      exact ⟨number, hle, Nat.lt_of_lt_of_le hlt h'.ordered, hnumber⟩
    · obtain ⟨number, hle, hlt, hnumber⟩ := h'.within x hx
      exact ⟨number, Nat.le_trans h.ordered hle, hlt, hnumber⟩
  every number hle hlt := by
    rcases Nat.lt_or_ge number mid with hmid | hmid
    · obtain ⟨x, hx, hnumber⟩ := h.every number hle hmid
      exact ⟨x, List.mem_append_left _ hx, hnumber⟩
    · obtain ⟨x, hx, hnumber⟩ := h'.every number hmid hlt
      exact ⟨x, List.mem_append_right _ hx, hnumber⟩

/-- Both begin with the same number. -/
theorem union (h : Spans numbered low high made) (h' : Spans numbered low high' made') :
    Spans numbered low (max high high') (made ++ made') where
  ordered := Nat.le_trans h.ordered (Nat.le_max_left _ _)
  within x hx := by
    rcases List.mem_append.mp hx with hx | hx
    · obtain ⟨number, hle, hlt, hnumber⟩ := h.within x hx
      exact ⟨number, hle, lt_max_of_lt_left hlt, hnumber⟩
    · obtain ⟨number, hle, hlt, hnumber⟩ := h'.within x hx
      exact ⟨number, hle, lt_max_of_lt_right hlt, hnumber⟩
  every number hle hlt := by
    rcases lt_max_iff.mp hlt with hlt | hlt
    · obtain ⟨x, hx, hnumber⟩ := h.every number hle hlt
      exact ⟨x, List.mem_append_left _ hx, hnumber⟩
    · obtain ⟨x, hx, hnumber⟩ := h'.every number hle hlt
      exact ⟨x, List.mem_append_right _ hx, hnumber⟩

theorem flatten {logs : List (List Name)}
    (h : ∀ log ∈ logs, ∃ high, Spans numbered low high log) :
    ∃ high, Spans numbered low high logs.flatten := by
  induction logs with
  | nil => exact ⟨low, .nil _ _⟩
  | cons log logs ih =>
      obtain ⟨hlog, hlogs⟩ := List.forall_mem_cons.mp h
      obtain ⟨high, hlog⟩ := hlog
      obtain ⟨high', hlogs⟩ := ih hlogs
      exact ⟨_, hlog.union hlogs⟩

end Spans

/-! ## What a supply hands out -/

namespace NameSupply

/-- From one supply to the other, just these made-up names were added, or were there already. -/
structure Makes (supply supply' : NameSupply) (made : List Name) : Prop where
  grows : supply.Grows supply'
  generated : ∀ x, supply'.symbols.isGenerated? x = some true ↔
    supply.symbols.isGenerated? x = some true ∨ x ∈ made

variable {supply supply' supply'' : NameSupply} {made made' : List Name}

theorem Makes.refl (supply : NameSupply) : supply.Makes supply [] :=
  ⟨.refl _, fun _ => (or_iff_left List.not_mem_nil).symm⟩

theorem Makes.trans (h : supply.Makes supply' made) (h' : supply'.Makes supply'' made') :
    supply.Makes supply'' (made ++ made') where
  grows := h.grows.trans h'.grows
  generated _ := by rw [h'.generated, h.generated, List.mem_append, or_assoc]

theorem fresh_makes (hsupply : supply.symbols.Coherent) (stem : String) :
    supply.Makes (NameSupply.fresh stem supply).2 [(NameSupply.fresh stem supply).1] where
  grows := supply.fresh_grows stem
  generated x := by
    rw [List.mem_singleton]
    refine (hsupply.isGenerated?_intern _ x).trans (or_congr_right (and_iff_right ?_))
    exact isGeneratedString_generatedString stem supply.next

end NameSupply

section

variable {ε : Type} [BEq ε] (options : Options) (mentions : ε → Name → Bool)

namespace Queue

theorem build_makes (queue : Queue ε) {b : Builder} (hb : b.names.symbols.Coherent) :
    b.names.Makes (build options mentions queue b).2.names
      (build options mentions queue b).1.projections := by
  induction queue using Queue.build.induct options mentions generalizing b with
  | case1 queue hstep =>
      rw [build_of_fail hstep]
      exact .refl _
  | case2 queue case env hstep =>
      rw [build_of_select hstep]
      exact .refl _
  | case3 queue next hstep ih =>
      rw [build_of_advance hstep]
      exact ih hb
  | case4 queue asked yes no hstep ihyes ihno =>
      rw [build_of_test hstep]
      exact (ihyes hb).trans (ihno ((build_grows options mentions yes b).coherent hb))
  | case5 queue func subject pairs body hstep ih =>
      rw [build_of_project hstep]
      have hbody := ih b.projection.1 (b := b.projection.2) (NameSupply.fresh_coherent hb "x")
      exact (NameSupply.fresh_makes hb "x").trans hbody

/-- The trees of both sides of a test take numbers one after the other. -/
theorem build_spans (queue : Queue ε) {b : Builder} (hb : b.names.symbols.Coherent) :
    Spans (fun x number => (build options mentions queue b).2.names.symbols.lookup? x =
        some (generatedString "x" number))
      b.names.next (build options mentions queue b).2.names.next
      (build options mentions queue b).1.projections := by
  induction queue using Queue.build.induct options mentions generalizing b with
  | case1 queue hstep =>
      rw [build_of_fail hstep]
      exact .nil _ _
  | case2 queue case env hstep =>
      rw [build_of_select hstep]
      exact .nil _ _
  | case3 queue next hstep ih =>
      rw [build_of_advance hstep]
      exact ih hb
  | case4 queue asked yes no hstep ihyes ihno =>
      rw [build_of_test hstep]
      have hno := build_grows options mentions no (build options mentions yes b).2
      have hyes := (ihyes hb).mono fun x _ _ => hno.symbols x _
      exact hyes.append (ihno ((build_grows options mentions yes b).coherent hb))
  | case5 queue func subject pairs body hstep ih =>
      rw [build_of_project hstep]
      have hbody := build_grows options mentions (body b.projection.1) b.projection.2
      have hfresh := hbody.symbols _ _ (hb.lookup?_intern (generatedString "x" b.names.next))
      exact (Spans.single hfresh).append (ih _ (NameSupply.fresh_coherent hb "x"))

end Queue

namespace Plan

/-- The names made up for a plan: its subject's variable and those of its projections. -/
def names {ε : Type} (plan : Plan ε) : List Name := plan.root :: plan.decision.projections

theorem ofPatterns_makes (patterns : List (Pattern ε)) {names : NameSupply}
    (hnames : names.symbols.Coherent) :
    names.Makes (ofPatterns options mentions patterns names).2
      (ofPatterns options mentions patterns names).1.names := by
  have htree := Queue.build_makes options mentions
    (Queue.ofPatterns (NameSupply.fresh "val" names).1 patterns)
    (b := ⟨(NameSupply.fresh "val" names).2, .empty patterns.length, 0⟩)
    (NameSupply.fresh_coherent hnames "val")
  exact (NameSupply.fresh_makes hnames "val").trans htree

theorem ofPatterns_spans (patterns : List (Pattern ε)) {names : NameSupply}
    (hnames : names.symbols.Coherent) :
    Spans (ofPatterns options mentions patterns names).2.symbols.HasNumber names.next
      (ofPatterns options mentions patterns names).2.next
      (ofPatterns options mentions patterns names).1.names := by
  have hroot := (ofPatterns_numbered options mentions patterns hnames).root
  have htree := Queue.build_spans options mentions
    (Queue.ofPatterns (NameSupply.fresh "val" names).1 patterns)
    (b := ⟨(NameSupply.fresh "val" names).2, .empty patterns.length, 0⟩)
    (NameSupply.fresh_coherent hnames "val")
  refine (Spans.single (.inl hroot)).append (htree.mono fun x number hle hx => ?_)
  exact .inr ⟨Nat.zero_lt_of_lt hle, hx⟩

end Plan

end

/-! ## What actions hand out -/

section

variable {σ ε κ : Type} [BEq ε]

/-- What case bodies do: they make code, intern strings that are not written like made-up names, and
compile matches whose bodies do nothing else either. -/
inductive Generates (e : Emitter σ ε κ) : {α : Type} → StateM (Session σ) α → Prop
  | pure {α : Type} (a : α) : Generates e (Pure.pure a)
  | emit {α : Type} (action : StateM σ α) : Generates e (Session.emit action)
  | intern {s : String} (hs : isGeneratedString s = false) : Generates e (Session.intern s)
  | bind {α β : Type} {m : StateM (Session σ) α} {f : α → StateM (Session σ) β} :
      Generates e m → (∀ a, Generates e (f a)) → Generates e (m >>= f)
  | compile {options : Options} {subject : ε} {cases : List (Case σ ε κ)} :
      (∀ c ∈ cases, ∀ handed uses, Generates e (c.generator handed uses)) →
      Generates e (compile e options subject cases)

/-- From a session on, the compilations that an action makes one after another hand out these names,
each those of its plan and those of the matches inside its bodies. -/
inductive HandsOut (e : Emitter σ ε κ) :
    {α : Type} → StateM (Session σ) α → Session σ → List (List Name) → Prop
  | pure {α : Type} (a : α) (session : Session σ) : HandsOut e (Pure.pure a) session []
  | emit {α : Type} (action : StateM σ α) (session : Session σ) :
      HandsOut e (Session.emit action) session []
  | intern {s : String} (hs : isGeneratedString s = false) (session : Session σ) :
      HandsOut e (Session.intern s) session []
  | bind {α β : Type} {m : StateM (Session σ) α} {f : α → StateM (Session σ) β}
      {session : Session σ} {first later : List (List Name)} :
      HandsOut e m session first → HandsOut e (f (m session).1) (m session).2 later →
      HandsOut e (m >>= f) session (first ++ later)
  | refused {options : Options} {subject : ε} {cases : List (Case σ ε κ)}
      {error : CompileError ε} {session : Session σ} :
      firstMalformed? 0 (cases.map Case.pattern) = some error →
      HandsOut e (compile e options subject cases) session [[]]
  | compiled {options : Options} {subject : ε} {cases : List (Case σ ε κ)} {session : Session σ}
      {plan : Plan ε} {names : NameSupply} {inner : List (List Name)} :
      firstMalformed? 0 (cases.map Case.pattern) = none →
      Plan.ofPatterns options e.mentions (cases.map Case.pattern) session.names = (plan, names) →
      HandsOut e (Site.ofTable e plan.uses.entries (cases.map Case.generator))
        { session with names := names } inner →
      HandsOut e (compile e options subject cases) session [plan.names ++ inner.flatten]

variable {e : Emitter σ ε κ}

theorem Site.ofUses_handsOut {g : Generator σ ε κ}
    (hg : ∀ handed uses session, ∃ logs, HandsOut e (g handed uses) session logs)
    (uses : List Environment) (session : Session σ) :
    ∃ logs, HandsOut e (ofUses e g uses) session logs := by
  have hhanded := HandsOut.emit (e := e) ((variableNames uses).mapM (variableOf e uses)) session
  obtain ⟨logs, hbody⟩ := hg _ uses.length _
  exact ⟨_, hhanded.bind (hbody.bind (.emit _ _))⟩

theorem Site.ofTable_handsOut (entries : List (List Environment))
    {generators : List (Generator σ ε κ)}
    (hg : ∀ g ∈ generators, ∀ handed uses session, ∃ logs, HandsOut e (g handed uses) session logs)
    (session : Session σ) : ∃ logs, HandsOut e (ofTable e entries generators) session logs := by
  induction entries generalizing generators session with
  | nil => exact ⟨_, .pure [] session⟩
  | cons uses entries ih =>
      cases generators with
      | nil => exact ⟨_, .pure [] session⟩
      | cons g generators =>
          obtain ⟨hg, hgs⟩ := List.forall_mem_cons.mp hg
          have hrest (sites : List (Site κ)) (session : Session σ) : ∃ logs,
              HandsOut e (do return sites :: (← ofTable e entries generators)) session logs := by
            obtain ⟨logs, hlogs⟩ := ih hgs session
            exact ⟨_, hlogs.bind (.pure _ _)⟩
          unfold ofTable
          split
          · exact hrest [] session
          · obtain ⟨first, hfirst⟩ := ofUses_handsOut hg uses session
            obtain ⟨later, hlater⟩ := hrest _ _
            exact ⟨_, hfirst.bind hlater⟩

/-- Every body hands out something, from every session on. -/
theorem Generates.handsOut {α : Type} {m : StateM (Session σ) α} (h : Generates e m)
    (session : Session σ) : ∃ logs, HandsOut e m session logs := by
  induction h generalizing session with
  | pure a => exact ⟨_, .pure a session⟩
  | emit action => exact ⟨_, .emit action session⟩
  | intern hs => exact ⟨_, .intern hs session⟩
  | bind _ _ ihm ihf =>
      obtain ⟨first, hfirst⟩ := ihm session
      obtain ⟨later, hlater⟩ := ihf _ _
      exact ⟨_, hfirst.bind hlater⟩
  | @compile options subject cases _ ih =>
      cases hmalformed : firstMalformed? 0 (cases.map Case.pattern) with
      | some error => exact ⟨_, .refused hmalformed⟩
      | none =>
          have hgenerators : ∀ g ∈ cases.map Case.generator, ∀ handed uses session,
              ∃ logs, HandsOut e (g handed uses) session logs := List.forall_mem_map.mpr ih
          obtain ⟨inner, hinner⟩ := Site.ofTable_handsOut _ hgenerators _
          exact ⟨_, .compiled hmalformed rfl hinner⟩

end

/-! ## Described bodies -/

section

variable (e : Emitter Journal Form Form) (functions : FunctionTable)

mutual

/-- Bodies that are described do nothing else, however deep they nest. -/
theorem Body.generator_generates (body : Body) (path : Path) (handed : List (Variable Form))
    (uses : Nat) : Generates e (body.generator e functions path handed uses) := by
  match body with
  | .report =>
      simp only [Body.generator]
      exact .bind (.emit _) fun _ => .pure _
  | .code form =>
      simp only [Body.generator]
      exact .bind (.emit _) fun _ => .pure form
  | .nested on clauses options =>
      simp only [Body.generator]
      exact .bind (.emit _) fun _ =>
        .bind (.compile (Clause.casesFrom_generates clauses path 0)) fun _ =>
          .bind (.emit _) fun _ => .pure _

theorem Clause.casesFrom_generates (clauses : List (Clause Body)) (path : Path) (index : Nat) :
    ∀ c ∈ Clause.casesFrom e functions path index clauses, ∀ handed uses,
      Generates e (c.generator handed uses) := by
  match clauses with
  | [] => simp [Clause.casesFrom]
  | ⟨pattern, body, allowUnreachable⟩ :: rest =>
      rw [Clause.casesFrom]
      exact List.forall_mem_cons.mpr ⟨Body.generator_generates body (path ++ [index]),
        Clause.casesFrom_generates rest path (index + 1)⟩

end

end

/-! ## What a run leaves behind -/

section

variable {σ ε κ : Type} [BEq ε] {e : Emitter σ ε κ}

/-- Just the names of the compilations were added, all numbers were handed back, and every
compilation took the numbers from the first free one on. -/
structure NameSupply.Accounts (supply supply' : NameSupply) (logs : List (List Name)) : Prop where
  makes : supply.Makes supply' logs.flatten
  next : supply'.next = supply.next
  spans : ∀ log ∈ logs, ∃ high, Spans supply'.symbols.HasNumber supply.next high log

namespace NameSupply.Accounts

variable {supply supply' supply'' : NameSupply} {logs logs' : List (List Name)}

theorem refl (supply : NameSupply) : supply.Accounts supply [] where
  makes := .refl supply
  next := rfl
  spans _ hlog := by cases hlog

theorem trans (h : supply.Accounts supply' logs) (h' : supply'.Accounts supply'' logs') :
    supply.Accounts supply'' (logs ++ logs') where
  makes := by
    rw [List.flatten_append]
    exact h.makes.trans h'.makes
  next := h'.next.trans h.next
  spans log hlog := by
    rcases List.mem_append.mp hlog with hlog | hlog
    · obtain ⟨high, hspans⟩ := h.spans log hlog
      exact ⟨high, hspans.mono fun _ _ _ hx => hx.extends h'.makes.grows.symbols⟩
    · rw [← h.next]
      exact h'.spans log hlog

/-- The matches inside bodies go on with the numbers after those of the plan around them. -/
theorem compilation {made : List Name} (hplan : supply.Makes supply' made)
    (hspans : Spans supply'.symbols.HasNumber supply.next supply'.next made)
    (hinner : supply'.Accounts supply'' logs) :
    supply.Accounts (supply''.release supply.next) [made ++ logs.flatten] where
  makes := by
    have hall := hplan.trans hinner.makes
    rw [List.flatten_singleton]
    exact ⟨⟨hall.grows.symbols, Nat.le_refl _, hall.grows.coherent⟩, hall.generated⟩
  next := rfl
  spans log hlog := by
    obtain ⟨high, hrest⟩ := Spans.flatten hinner.spans
    rw [List.mem_singleton.mp hlog]
    refine ⟨high, Spans.append (hspans.mono ?_) hrest⟩
    exact fun _ _ _ hx => hx.extends hinner.makes.grows.symbols

end NameSupply.Accounts

theorem names_of_compile {options : Options} {subject : ε} {cases : List (Case σ ε κ)}
    {session : Session σ} {plan : Plan ε} {names : NameSupply}
    (hwell : firstMalformed? 0 (cases.map Case.pattern) = none)
    (hplan : Plan.ofPatterns options e.mentions (cases.map Case.pattern) session.names =
      (plan, names)) :
    (compile e options subject cases session).2.names =
      (Site.ofTable e plan.uses.entries (cases.map Case.generator)
        { session with names := names }).2.names.release session.names.next := by
  rw [compile_of_firstMalformed? hwell, compileWellFormed_eq, hplan]
  rfl

theorem HandsOut.accounts {α : Type} {m : StateM (Session σ) α} {session : Session σ}
    {logs : List (List Name)} (h : HandsOut e m session logs)
    (hnames : session.names.symbols.Coherent) :
    session.names.Accounts (m session).2.names logs := by
  induction h with
  | pure | emit => exact .refl _
  | @intern s hs session =>
      refine ⟨⟨⟨SymbolTable.extends_intern _ s, Nat.le_refl _, fun hc => hc.intern s⟩, fun x => ?_⟩,
        rfl, fun _ hlog => by cases hlog⟩
      refine (hnames.isGenerated?_intern s x).trans (or_congr_right ?_)
      simp [hs]
  | bind _ _ ihm ihf =>
      have hm := ihm hnames
      exact hm.trans (ihf (hm.makes.grows.coherent hnames))
  | @refused options subject cases error session hmalformed =>
      rw [compile, hmalformed]
      refine ⟨.refl _, rfl, fun log hlog => ?_⟩
      rw [List.mem_singleton.mp hlog]
      exact ⟨_, .nil _ _⟩
  | @compiled options subject cases session plan names inner hwell hplan _ ih =>
      have hmakes := Plan.ofPatterns_makes options e.mentions (cases.map Case.pattern) hnames
      have hspans := Plan.ofPatterns_spans options e.mentions (cases.map Case.pattern) hnames
      rw [hplan] at hmakes hspans
      rw [names_of_compile hwell hplan]
      exact .compilation hmakes hspans (ih (hmakes.grows.coherent hnames))

end

/-! ## Bounds -/

/-- The largest number of different names in one of the lists. -/
def largest (logs : List (List Name)) : Nat :=
  (logs.map fun log => log.toFinset.card).foldr max 0

theorem card_le_largest {logs : List (List Name)} {log : List Name} (h : log ∈ logs) :
    log.toFinset.card ≤ largest logs := by
  induction logs with
  | nil => cases h
  | cons first logs ih =>
      rcases List.mem_cons.mp h with rfl | h
      · exact Nat.le_max_left _ _
      · exact Nat.le_trans (ih h) (Nat.le_max_right _ _)

namespace SymbolTable

variable {table : SymbolTable}

theorem isGenerated?_of_generatedCount (h : table.generatedCount = 0) (x : Name) :
    table.isGenerated? x ≠ some true := by
  intro hx
  obtain ⟨s, hs, hgenerated⟩ := Option.map_eq_some_iff.mp hx
  exact List.countP_eq_zero.mp h s (Array.mem_toList_iff.mpr (Array.mem_of_getElem? hs)) hgenerated

theorem generatedCount_eq_zero (h : ∀ x, table.isGenerated? x ≠ some true) :
    table.generatedCount = 0 := by
  refine List.countP_eq_zero.mpr fun s hs hgenerated => ?_
  obtain ⟨x, hlookup⟩ := mem_strings_iff.mp hs
  exact h x (Option.map_eq_some_iff.mpr ⟨s, hlookup, hgenerated⟩)

theorem Coherent.generatedCount_internAll (h : table.Coherent) (hnone : table.generatedCount = 0)
    {ss : List String} (hss : ∀ s ∈ ss, isGeneratedString s = false) :
    (table.internAll ss).2.generatedCount = 0 :=
  generatedCount_eq_zero fun x hx =>
    isGenerated?_of_generatedCount hnone x ((h.isGenerated?_internAll hss x).mp hx)

theorem initial_generatedCount : initial.generatedCount = 0 :=
  empty_coherent.generatedCount_internAll rfl (by decide)

end SymbolTable

namespace Spans

variable {table : SymbolTable} {high : Nat} {made : List Name}

/-- Different numbers have different names. -/
theorem high_le_card (h : Spans table.HasNumber 0 high made) : high ≤ made.toFinset.card := by
  rw [← Finset.card_range high]
  refine Finset.card_le_card_of_forall_subsingleton (fun number x => table.HasNumber x number)
    (fun number hnumber => ?_) fun _ _ _ hm _ hn => hm.2.unique hn.2
  obtain ⟨x, hx, hname⟩ := h.every number (Nat.zero_le _) (Finset.mem_range.mp hnumber)
  exact ⟨x, List.mem_toFinset.mpr hx, hname⟩

end Spans

section

variable {table : SymbolTable} {bound : Nat} {made : List Name} (htable : table.Coherent)
  (hmade : ∀ x ∈ made, ∃ number < bound, table.HasNumber x number)
include htable hmade

/-- There are two names for every number but zero. -/
theorem card_le_of_hasNumber : made.toFinset.card ≤ 2 * bound - 1 := by
  let spellings := (Finset.range bound).image (generatedString "val") ∪
    (Finset.Ico 1 bound).image (generatedString "x")
  have hspellings : spellings.card ≤ bound + (bound - 1) := by
    refine (Finset.card_union_le _ _).trans (Nat.add_le_add ?_ ?_)
    · exact Finset.card_image_le.trans_eq (Finset.card_range bound)
    · exact Finset.card_image_le.trans_eq (Nat.card_Ico 1 bound)
  have hcard : made.toFinset.card ≤ spellings.card := by
    refine Finset.card_le_card_of_forall_subsingleton (fun x s => table.lookup? x = some s)
      (fun x hx => ?_) fun _ _ _ hx _ hy => htable.eq_of_lookup? hx.2 hy.2
    obtain ⟨number, hlt, hname⟩ := hmade x (List.mem_toFinset.mp hx)
    rcases hname with hval | ⟨hpos, hx⟩
    · have hmem := Finset.mem_image_of_mem (generatedString "val") (Finset.mem_range.mpr hlt)
      exact ⟨_, Finset.mem_union_left _ hmem, hval⟩
    · have hmem := Finset.mem_image_of_mem (generatedString "x") (Finset.mem_Ico.mpr ⟨hpos, hlt⟩)
      exact ⟨_, Finset.mem_union_right _ hmem, hx⟩
  omega

theorem card_le_of_singleRoles (hroles : table.SingleRoles made) :
    made.toFinset.card ≤ bound := by
  rw [← Finset.card_range bound]
  refine Finset.card_le_card_of_forall_subsingleton table.HasNumber (fun x hx => ?_) ?_
  · obtain ⟨number, hlt, hname⟩ := hmade x (List.mem_toFinset.mp hx)
    exact ⟨number, Finset.mem_range.mpr hlt, hname⟩
  · rintro number - x ⟨hx, hxname⟩ y ⟨hy, hyname⟩
    have hx := List.mem_toFinset.mp hx
    have hy := List.mem_toFinset.mp hy
    rcases hxname with hxval | ⟨-, hxx⟩ <;> rcases hyname with hyval | ⟨-, hyx⟩
    · exact htable.eq_of_lookup? hxval hyval
    · exact absurd hyx (hroles x hx y hy number hxval)
    · exact absurd hxx (hroles y hy x hx number hyval)
    · exact htable.eq_of_lookup? hxx hyx

end

/-! ## One compilation after another -/

/-- A match to compile. -/
structure Job (σ ε κ : Type) where
  options : Options
  subject : ε
  cases : List (Case σ ε κ)

section

variable {σ ε κ : Type} [BEq ε]

def Job.compile (e : Emitter σ ε κ) (job : Job σ ε κ) :
    StateM (Session σ) (Except (CompileError ε) (Compiled ε κ)) :=
  PatternCompiler.compile e job.options job.subject job.cases

variable {e : Emitter σ ε κ}

theorem Generates.mapM {α β : Type} {f : α → StateM (Session σ) β} {l : List α}
    (h : ∀ a ∈ l, Generates e (f a)) : Generates e (l.mapM f) := by
  induction l with
  | nil =>
      rw [List.mapM_nil]
      exact .pure []
  | cons a l ih =>
      obtain ⟨ha, hl⟩ := List.forall_mem_cons.mp h
      rw [List.mapM_cons]
      exact ha.bind fun b => (ih hl).bind fun bs => .pure (b :: bs)

/-- A table that starts without made-up names holds just the names that were handed out. -/
theorem HandsOut.generatedCount_eq {α : Type} {m : StateM (Session σ) α} {session : Session σ}
    {logs : List (List Name)} (h : HandsOut e m session logs)
    (hnames : session.names.symbols.Coherent)
    (hnone : session.names.symbols.generatedCount = 0) :
    (m session).2.names.symbols.generatedCount = logs.flatten.toFinset.card := by
  have hmakes := (h.accounts hnames).makes
  refine (hmakes.grows.coherent hnames).generatedCount_eq fun x => (hmakes.generated x).trans ?_
  exact or_iff_right (SymbolTable.isGenerated?_of_generatedCount hnone x)

theorem HandsOut.hasNumber {α : Type} {m : StateM (Session σ) α} {session : Session σ}
    {logs : List (List Name)} (h : HandsOut e m session logs)
    (hnames : session.names.symbols.Coherent) (hnext : session.names.next = 0) :
    ∀ x ∈ logs.flatten, ∃ number < largest logs,
      (m session).2.names.symbols.HasNumber x number := by
  intro x hx
  obtain ⟨log, hlog, hx⟩ := List.mem_flatten.mp hx
  obtain ⟨high, hspans⟩ := (h.accounts hnames).spans log hlog
  rw [hnext] at hspans
  obtain ⟨number, -, hlt, hname⟩ := hspans.within x hx
  have hhigh := Nat.le_trans hspans.high_le_card (card_le_largest hlog)
  exact ⟨number, Nat.lt_of_lt_of_le hlt hhigh, hname⟩

/-! ## Matches that take two numbers -/

/-- A match of one case. -/
def Job.ofCase (subject : ε) (p : Pattern ε) (g : Generator σ ε κ) : Job σ ε κ :=
  ⟨{}, subject, [⟨p, g, false⟩]⟩

/-- A match on one projection of the subject. -/
def Job.projecting (func subject : ε) (body : κ) : Job σ ε κ :=
  ofCase subject (.app func .wildcard) fun _ _ => return body

/-- A body that compiles a match and makes nothing of it. -/
def Job.nestedBody (e : Emitter σ ε κ) (subject : ε) (body : κ) : Generator σ ε κ := fun _ _ => do
  let _ ← (ofCase subject .wildcard fun _ _ => return body).compile e
  return body

/-- A match with another match inside its body. -/
def Job.nesting (e : Emitter σ ε κ) (subject : ε) (body : κ) : Job σ ε κ :=
  ofCase subject .wildcard (nestedBody e subject body)

/-- A branch with nothing but a wildcard selects its case. -/
theorem Queue.build_wildcard (mentions : ε → Name → Bool) (root : Name) :
    Queue.build {} mentions (Queue.ofPatterns root [.wildcard]) =
      (do return .leaf 0 (← Builder.reach 0 .empty)) :=
  (Queue.build_eq ..).trans (Queue.build_eq ..)

theorem Plan.ofPatterns_wildcard (mentions : ε → Name → Bool) (names : NameSupply) :
    Plan.ofPatterns {} mentions [.wildcard] names =
      (⟨(NameSupply.fresh "val" names).1, .leaf 0 0, ⟨[[.empty]]⟩, 0⟩,
        (NameSupply.fresh "val" names).2) := by
  simp only [Plan.ofPatterns, Queue.build_wildcard]
  rfl

theorem Plan.ofPatterns_projecting (mentions : ε → Name → Bool) (func : ε) (names : NameSupply) :
    Plan.ofPatterns {} mentions [.app func .wildcard] names =
      let root := NameSupply.fresh "val" names
      let inner := NameSupply.fresh "x" root.2
      (⟨root.1, .project inner.1 func root.1 [] (.leaf 0 0), ⟨[[.empty]]⟩, 1⟩, inner.2) := by
  have hbuild (root : Name) :
      Queue.build {} mentions (Queue.ofPatterns root [.app func .wildcard]) = (do
        let fresh ← Builder.projection
        let body ← Queue.build {} mentions (Queue.ofPatterns fresh [.wildcard])
        return .project fresh func root [] body) := Queue.build_eq ..
  simp only [Plan.ofPatterns, hbuild, Queue.build_wildcard]
  rfl

section

variable {session : Session σ}

theorem HandsOut.mapM_cons {α β : Type} {f : α → StateM (Session σ) β} {a : α} {l : List α}
    {first later : List (List Name)} (ha : HandsOut e (f a) session first)
    (hl : HandsOut e (l.mapM f) (f a session).2 later) :
    HandsOut e ((a :: l).mapM f) session (first ++ later) := by
  rw [List.mapM_cons, ← List.append_nil later]
  exact ha.bind (hl.bind (.pure _ _))

theorem Site.ofTable_handsOut_empty {g : Generator σ ε κ} {inner : List (List Name)}
    (hg : HandsOut e (g [] 1) session inner) :
    HandsOut e (ofTable e [[.empty]] [g]) session inner := by
  have hbody : HandsOut e (ofUses e g [.empty]) session ([] ++ (inner ++ [])) := by
    refine HandsOut.bind (.emit _ _) (.bind ?_ (.emit _ _))
    exact hg
  have hsites : HandsOut e (ofTable e [[.empty]] [g]) session
      ([] ++ (inner ++ []) ++ ([] ++ [])) :=
    hbody.bind (.bind (.pure [] _) (.pure _ _))
  simpa only [List.nil_append, List.append_nil] using hsites

section

variable {p : Pattern ε} {plan : Plan ε} {names : NameSupply} (g : Generator σ ε κ) (subject : ε)
  (hwell : p.isWellFormed = true)
  (hplan : Plan.ofPatterns {} e.mentions [p] session.names = (plan, names))
  (huses : plan.uses.entries = [[.empty]])
include hwell hplan huses

theorem HandsOut.ofCase {inner : List (List Name)}
    (hg : HandsOut e (g [] 1) { session with names := names } inner) :
    HandsOut e ((Job.ofCase subject p g).compile e) session [plan.names ++ inner.flatten] := by
  refine .compiled (firstMalformed?_eq_none (List.forall_mem_singleton.mpr hwell) 0) hplan ?_
  rw [huses]
  exact Site.ofTable_handsOut_empty hg

theorem Job.symbols_ofCase :
    ((ofCase subject p g).compile e session).2.names.symbols =
      (g [] 1 { session with names := names }).2.names.symbols := by
  have hwell : firstMalformed? 0 ([Case.mk p g false].map Case.pattern) = none :=
    firstMalformed?_eq_none (List.forall_mem_singleton.mpr hwell) 0
  have hcompile : ((ofCase subject p g).compile e session).2.names = _ :=
    names_of_compile hwell hplan
  rw [hcompile, huses]
  rfl

end

namespace Job

/-- The match makes up a name for its subject and one more name, with this stem. -/
def MakesTwo (e : Emitter σ ε κ) (job : Job σ ε κ) (stem : String) : Prop :=
  ∀ session : Session σ, session.names.symbols.Coherent →
    ∃ a b, HandsOut e (job.compile e) session [[a, b]] ∧
      (job.compile e session).2.names.symbols.lookup? a =
        some (generatedString "val" session.names.next) ∧
      (job.compile e session).2.names.symbols.lookup? b =
        some (generatedString stem (session.names.next + 1))

theorem projecting_makesTwo (func subject : ε) (body : κ) :
    (projecting func subject body).MakesTwo e "x" := by
  intro session hnames
  have hroot := NameSupply.fresh_coherent hnames "val"
  have hplan := Plan.ofPatterns_projecting e.mentions func session.names
  have hlogs := HandsOut.ofCase (fun _ _ => return body) subject rfl hplan rfl (.pure body _)
  have hsymbols := symbols_ofCase (fun _ _ => return body) subject rfl hplan rfl
  refine ⟨_, _, hlogs, ?_, ?_⟩
  · rw [projecting, hsymbols]
    exact SymbolTable.extends_intern _ _ _ _ (hnames.lookup?_intern _)
  · rw [projecting, hsymbols]
    exact hroot.lookup?_intern _

/-- What the match inside has named stays in the table. -/
theorem nesting_makesTwo (subject : ε) (body : κ) :
    (nesting e subject body).MakesTwo e "val" := by
  intro session hnames
  let inside : Session σ := { session with names := (NameSupply.fresh "val" session.names).2 }
  have hroot : inside.names.symbols.Coherent := NameSupply.fresh_coherent hnames "val"
  have hplan := Plan.ofPatterns_wildcard e.mentions session.names
  have hinner := Plan.ofPatterns_wildcard e.mentions inside.names
  have hnested := HandsOut.ofCase (fun _ _ => return body) subject rfl hinner rfl (.pure body _)
  have hbody : HandsOut e (nestedBody e subject body [] 1) inside
      ([[(NameSupply.fresh "val" inside.names).1]] ++ []) := hnested.bind (.pure body _)
  have hlogs := HandsOut.ofCase (nestedBody e subject body) subject rfl hplan rfl hbody
  have hsymbols := symbols_ofCase (nestedBody e subject body) subject rfl hplan rfl
  have hinside : (nestedBody e subject body [] 1 inside).2.names.symbols = _ :=
    symbols_ofCase (fun _ _ => return body) subject rfl hinner rfl
  refine ⟨_, _, hlogs, ?_, ?_⟩
  · rw [nesting, hsymbols]
    exact (hbody.accounts hroot).makes.grows.symbols _ _ (hnames.lookup?_intern _)
  · rw [nesting, hsymbols, hinside]
    exact hroot.lookup?_intern _

theorem nesting_generates (subject : ε) (body : κ) :
    ∀ c ∈ (nesting e subject body).cases, ∀ handed uses,
      Generates e (c.generator handed uses) := by
  intro c hc handed uses
  rw [List.mem_singleton.mp hc]
  refine .bind (.compile fun c hc handed uses => ?_) fun _ => .pure body
  rw [List.mem_singleton.mp hc]
  exact .pure body

theorem MakesTwo.pair {first second : Job σ ε κ} {stem stem' : String}
    (hfirst : first.MakesTwo e stem) (hsecond : second.MakesTwo e stem')
    (hnames : session.names.symbols.Coherent) (hnext : session.names.next = 0) :
    ∃ a b c d, HandsOut e ([first, second].mapM (Job.compile e)) session [[a, b], [c, d]] ∧
      List.Forall₂ (fun x s =>
          ([first, second].mapM (Job.compile e) session).2.names.symbols.lookup? x = some s)
        [a, b, c, d] [generatedString "val" 0, generatedString stem 1, generatedString "val" 0,
          generatedString stem' 1] := by
  obtain ⟨a, b, hab, ha, hb⟩ := hfirst session hnames
  have hthen := hab.accounts hnames
  obtain ⟨c, d, hcd, hc, hd⟩ := hsecond _ (hthen.makes.grows.coherent hnames)
  have hlater := (hcd.accounts (hthen.makes.grows.coherent hnames)).makes.grows.symbols
  have hdone : ([first, second].mapM (Job.compile e) session).2 =
      (second.compile e (first.compile e session).2).2 := by
    simp only [List.mapM_cons, List.mapM_nil]
    rfl
  rw [hthen.next, hnext] at hc hd
  rw [hnext] at ha hb
  rw [hdone]
  have hnil : HandsOut e ([].mapM (Job.compile e))
      (second.compile e (first.compile e session).2).2 [] := .pure [] _
  exact ⟨a, b, c, d, hab.mapM_cons (hcd.mapM_cons hnil),
    .cons (hlater _ _ ha) (.cons (hlater _ _ hb) (.cons hc (.cons hd .nil)))⟩

end Job

/-- Both matches take the same two numbers, for subjects only. -/
theorem handsOut_nesting_twice (session : Session σ) (subject : ε) (body : κ)
    (hnames : session.names.symbols.Coherent) (hnext : session.names.next = 0) :
    ∃ logs, HandsOut e ([.nesting e subject body, .nesting e subject body].mapM (Job.compile e))
        session logs ∧
      ([.nesting e subject body, .nesting e subject body].mapM
        (Job.compile e) session).2.names.symbols.SingleRoles logs.flatten := by
  have htwo := Job.nesting_makesTwo (e := e) subject body
  obtain ⟨a, b, c, d, hlogs, hstrings⟩ := htwo.pair htwo hnames hnext
  refine ⟨_, hlogs, SymbolTable.singleRoles_of_subjects fun x hx => ?_⟩
  simp only [List.forall₂_cons] at hstrings
  obtain ⟨ha, hb, hc, hd, -⟩ := hstrings
  have hcases : x = a ∨ x = b ∨ x = c ∨ x = d := by simpa using hx
  rcases hcases with rfl | rfl | rfl | rfl
  · exact ⟨0, ha⟩
  · exact ⟨1, hb⟩
  · exact ⟨0, hc⟩
  · exact ⟨1, hd⟩

/-- The number one stands for a projection in the first match and for a subject in the second. -/
theorem handsOut_projecting_nesting (func subject : ε) (body : κ)
    (hnames : session.names.symbols.Coherent)
    (hnone : session.names.symbols.generatedCount = 0) (hnext : session.names.next = 0) :
    ∃ logs, HandsOut e ([.projecting func subject body, .nesting e subject body].mapM
        (Job.compile e)) session logs ∧ largest logs = 2 ∧
      ([.projecting func subject body, .nesting e subject body].mapM
        (Job.compile e) session).2.names.symbols.generatedCount = 3 := by
  obtain ⟨a, b, c, d, hlogs, hstrings⟩ := (Job.projecting_makesTwo func subject body).pair
    (Job.nesting_makesTwo (e := e) subject body) hnames hnext
  have htable := (hlogs.accounts hnames).makes.grows.coherent hnames
  have hcount := hlogs.generatedCount_eq hnames hnone
  generalize (List.mapM (Job.compile e) _ session).2.names.symbols = table at *
  simp only [List.forall₂_cons] at hstrings
  obtain ⟨ha, hb, hc, hd, -⟩ := hstrings
  obtain rfl : a = c := htable.eq_of_lookup? ha hc
  have hab : a ≠ b := by
    rintro rfl
    exact generatedString_stem_ne 0 1 (Option.some.inj (ha.symm.trans hb))
  have had : a ≠ d := by
    rintro rfl
    cases generatedString_inj (Option.some.inj (ha.symm.trans hd))
  have hbd : b ≠ d := by
    rintro rfl
    exact generatedString_stem_ne 1 1 (Option.some.inj (hd.symm.trans hb))
  refine ⟨_, hlogs, ?_, hcount.trans ?_⟩
  · simp [largest, hab, had]
  · simp [hab.symm, had, hbd]

end

/-! ## Bounded growth -/

/-- Compilations are made one after another on one table that starts without made-up names, and
their bodies may compile matches too, at any depth. After any number of them the table holds just
the names that one of them has handed out. These are less than twice as many as the most that a
single one has handed out, and no more than that most if no number stands for a subject in one name
and for a projection in another. -/
theorem generated_names_bounded {session : Session σ} (hnames : session.names.symbols.Coherent)
    (hnone : session.names.symbols.generatedCount = 0) (hnext : session.names.next = 0)
    {jobs : List (Job σ ε κ)}
    (hbodies : ∀ job ∈ jobs, ∀ c ∈ job.cases, ∀ handed uses,
      Generates e (c.generator handed uses)) :
    (∃ logs, HandsOut e (jobs.mapM (Job.compile e)) session logs) ∧
      ∀ logs, HandsOut e (jobs.mapM (Job.compile e)) session logs →
        let table := (jobs.mapM (Job.compile e) session).2.names.symbols
        table.generatedCount = logs.flatten.toFinset.card ∧
        table.generatedCount ≤ 2 * largest logs - 1 ∧
        (table.SingleRoles logs.flatten → table.generatedCount ≤ largest logs) := by
  have hall : Generates e (jobs.mapM (Job.compile e)) :=
    .mapM fun job hjob => .compile (hbodies job hjob)
  refine ⟨hall.handsOut session, fun logs hlogs => ?_⟩
  have htable := (hlogs.accounts hnames).makes.grows.coherent hnames
  have hnumbers := hlogs.hasNumber hnames hnext
  intro table
  have hcount : table.generatedCount = _ := hlogs.generatedCount_eq hnames hnone
  rw [hcount]
  exact ⟨rfl, card_le_of_hasNumber htable hnumbers, card_le_of_singleRoles htable hnumbers⟩

end

/-- Two matches, each with a match inside, make up the same two names. -/
theorem generated_names_bounded_of_nesting :
    let e := formEmitter (Vocabulary.intern .initial).1.operators
    let jobs := [Job.nesting e .nil .nil, Job.nesting e .nil .nil]
    let table := (jobs.mapM (Job.compile e) ⟨⟨.initial, 0⟩, ⟨0⟩⟩).2.names.symbols
    ∃ logs, HandsOut e (jobs.mapM (Job.compile e)) ⟨⟨.initial, 0⟩, ⟨0⟩⟩ logs ∧
      table.generatedCount ≤ largest logs := by
  intro e jobs table
  obtain ⟨logs, hlogs, hroles⟩ := handsOut_nesting_twice (e := e)
    ⟨⟨.initial, 0⟩, ⟨0⟩⟩ .nil .nil SymbolTable.initial_coherent rfl
  have hbodies : ∀ job ∈ jobs, ∀ c ∈ job.cases, ∀ handed uses,
      Generates e (c.generator handed uses) := by
    intro job hjob
    rw [List.eq_of_mem_replicate (n := 2) hjob]
    exact Job.nesting_generates _ _
  have hbounded := (generated_names_bounded SymbolTable.initial_coherent
    SymbolTable.initial_generatedCount rfl hbodies).2 logs hlogs
  exact ⟨logs, hlogs, hbounded.2.2 hroles⟩

/-- A number that stands for a projection in one compilation and for a subject in another has two
names: after two compilations of two names each there are three. -/
theorem generated_names_exceed_largest :
    let e := formEmitter (Vocabulary.intern .initial).1.operators
    let car := SymbolTable.initial.intern "car"
    let jobs := [Job.projecting (.function car.1) .nil .nil, Job.nesting e .nil .nil]
    let table := (jobs.mapM (Job.compile e) ⟨⟨car.2, 0⟩, ⟨0⟩⟩).2.names.symbols
    ∃ logs, HandsOut e (jobs.mapM (Job.compile e)) ⟨⟨car.2, 0⟩, ⟨0⟩⟩ logs ∧
      largest logs = 2 ∧ table.generatedCount = 3 := by
  have hcar : (SymbolTable.initial.intern "car").2.Coherent :=
    SymbolTable.initial_coherent.intern "car"
  have hnone : (SymbolTable.initial.internAll ["car"]).2.generatedCount = 0 :=
    SymbolTable.initial_coherent.generatedCount_internAll SymbolTable.initial_generatedCount
      (by decide)
  exact handsOut_projecting_nesting _ _ _ hcar hnone rfl

end PatternCompiler
