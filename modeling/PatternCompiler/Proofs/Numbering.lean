import PatternCompiler.Decision.Plan
import PatternCompiler.Proofs.Naming

/-!
# Numbers of made-up names

While a tree is built, names are only added to the table and numbers are only taken. Every
projection takes the next number before the tree of its body is built, so the numbers increase along
every path.
-/

namespace PatternCompiler

set_option autoImplicit false

open SymbolTable (generatedString)

namespace SymbolTable

variable {table table' table'' : SymbolTable}

theorem Extends.refl (table : SymbolTable) : table.Extends table := fun _ _ hx => hx

theorem Extends.trans (h : table.Extends table') (h' : table'.Extends table'') :
    table.Extends table'' := fun x s hx => h' x s (h x s hx)

theorem Extends.isGenerated? (h : table.Extends table') {x : Name} {b : Bool}
    (hx : table.isGenerated? x = some b) : table'.isGenerated? x = some b := by
  obtain ⟨s, hs, hb⟩ := Option.map_eq_some_iff.mp hx
  rw [SymbolTable.isGenerated?, h x s hs, Option.map_some, hb]

end SymbolTable

/-! ## Supplies -/

namespace NameSupply

/-- Names were only added, and numbers only taken. -/
structure Grows (supply supply' : NameSupply) : Prop where
  symbols : supply.symbols.Extends supply'.symbols
  next : supply.next ≤ supply'.next
  coherent : supply.symbols.Coherent → supply'.symbols.Coherent

variable {supply supply' supply'' : NameSupply}

theorem Grows.refl (supply : NameSupply) : supply.Grows supply :=
  ⟨.refl _, Nat.le_refl _, id⟩

theorem Grows.trans (h : supply.Grows supply') (h' : supply'.Grows supply'') :
    supply.Grows supply'' :=
  ⟨h.symbols.trans h'.symbols, Nat.le_trans h.next h'.next, fun hc => h'.coherent (h.coherent hc)⟩

theorem fresh_grows (supply : NameSupply) (stem : String) :
    supply.Grows (NameSupply.fresh stem supply).2 :=
  ⟨SymbolTable.extends_intern _ _, Nat.le_succ _, fun hc => fresh_coherent hc stem⟩

theorem Settled.grows {x : Name} (h : supply.Settled x) (hg : supply.Grows supply') :
    supply'.Settled x := by
  obtain ⟨s, hs, hne⟩ := h
  exact ⟨s, hg.symbols x s hs, fun n hn => hne n (Nat.le_trans hg.next hn)⟩

end NameSupply

/-! ## Trees -/

variable {ε : Type}

namespace Decision

/-- Along every path of the tree the projections have increasing numbers, between two bounds. -/
def Numbered (table : SymbolTable) : Nat → Nat → Decision ε → Prop
  | _, _, .fail | _, _, .leaf .. => True
  | low, high, .test _ yes no => yes.Numbered table low high ∧ no.Numbered table low high
  | low, high, .project fresh _ _ _ body => ∃ number, low ≤ number ∧ number < high ∧
      table.lookup? fresh = some (generatedString "x" number) ∧
      body.Numbered table (number + 1) high

theorem Numbered.mono {table table' : SymbolTable} {low low' high high' : Nat}
    {decision : Decision ε} (h : decision.Numbered table low high) (htable : table.Extends table')
    (hlow : low' ≤ low) (hhigh : high ≤ high') : decision.Numbered table' low' high' := by
  induction decision generalizing low low' with
  | fail => trivial
  | leaf case use => trivial
  | test asked yes no ihyes ihno => exact ⟨ihyes h.1 hlow, ihno h.2 hlow⟩
  | project fresh func subject pairs body ih =>
      obtain ⟨number, hle, hlt, hname, hbody⟩ := h
      exact ⟨number, Nat.le_trans hlow hle, Nat.lt_of_lt_of_le hlt hhigh, htable _ _ hname,
        ih hbody (Nat.le_refl _)⟩

end Decision

namespace Queue

variable [BEq ε] (options : Options) (mentions : ε → Name → Bool)

/-- Building a tree only records uses and names projections. -/
theorem build_related {R : Builder → Builder → Prop} (hrefl : ∀ b, R b b)
    (htrans : ∀ {b b' b'' : Builder}, R b b' → R b' b'' → R b b'')
    (hreach : ∀ (b : Builder) (case : Nat) (env : Environment), R b (b.reach case env).2)
    (hprojection : ∀ b : Builder, R b b.projection.2) (queue : Queue ε) (b : Builder) :
    R b (build options mentions queue b).2 := by
  induction queue using Queue.build.induct options mentions generalizing b with
  | case1 queue hstep =>
      rw [build_of_fail hstep]
      exact hrefl b
  | case2 queue case env hstep =>
      rw [build_of_select hstep]
      exact hreach b case env
  | case3 queue next hstep ih =>
      rw [build_of_advance hstep]
      exact ih b
  | case4 queue asked yes no hstep ihyes ihno =>
      rw [build_of_test hstep]
      exact htrans (ihyes b) (ihno _)
  | case5 queue func subject pairs body hstep ih =>
      rw [build_of_project hstep]
      exact htrans (hprojection b) (ih _ b.projection.2)

theorem build_grows (queue : Queue ε) (b : Builder) :
    b.names.Grows (build options mentions queue b).2.names :=
  build_related options mentions (R := fun b b' => b.names.Grows b'.names)
    (fun _ => .refl _) .trans (fun _ _ _ => .refl _) (fun b => b.names.fresh_grows "x") queue b

/-- The projections of a tree have the numbers that were taken while it was built. -/
theorem build_numbered (queue : Queue ε) {b : Builder} (hb : b.names.symbols.Coherent) :
    (build options mentions queue b).1.Numbered (build options mentions queue b).2.names.symbols
      b.names.next (build options mentions queue b).2.names.next := by
  induction queue using Queue.build.induct options mentions generalizing b with
  | case1 queue hstep =>
      rw [build_of_fail hstep]
      trivial
  | case2 queue case env hstep =>
      rw [build_of_select hstep]
      trivial
  | case3 queue next hstep ih =>
      rw [build_of_advance hstep]
      exact ih hb
  | case4 queue asked yes no hstep ihyes ihno =>
      rw [build_of_test hstep]
      have hyes := build_grows options mentions yes b
      have hno := build_grows options mentions no (build options mentions yes b).2
      refine ⟨(ihyes hb).mono hno.symbols (Nat.le_refl _) hno.next, ?_⟩
      exact (ihno (hyes.coherent hb)).mono (.refl _) hyes.next (Nat.le_refl _)
  | case5 queue func subject pairs body hstep ih =>
      rw [build_of_project hstep]
      have hfresh := NameSupply.fresh_coherent hb "x"
      have hbody := build_grows options mentions (body b.projection.1) b.projection.2
      refine ⟨b.names.next, Nat.le_refl _, hbody.next, ?_, ih _ hfresh⟩
      exact hbody.symbols _ _ (hb.lookup?_intern _)

end Queue

namespace Plan

variable [BEq ε] (options : Options) (mentions : ε → Name → Bool)

theorem ofPatterns_grows (patterns : List (Pattern ε)) (names : NameSupply) :
    names.Grows (Plan.ofPatterns options mentions patterns names).2 := by
  have hgrows := Queue.build_grows options mentions
    (Queue.ofPatterns (NameSupply.fresh "val" names).1 patterns)
    ⟨(NameSupply.fresh "val" names).2, .empty patterns.length, 0⟩
  exact (names.fresh_grows "val").trans hgrows

/-- The subject's variable takes the first number and the projections take later ones. -/
structure Numbered (plan : Plan ε) (table : SymbolTable) (low high : Nat) : Prop where
  root : table.lookup? plan.root = some (generatedString "val" low)
  decision : plan.decision.Numbered table (low + 1) high
  bound : low < high

theorem ofPatterns_numbered (patterns : List (Pattern ε)) {names : NameSupply}
    (hnames : names.symbols.Coherent) :
    (Plan.ofPatterns options mentions patterns names).1.Numbered
      (Plan.ofPatterns options mentions patterns names).2.symbols names.next
      (Plan.ofPatterns options mentions patterns names).2.next := by
  have hfresh := NameSupply.fresh_coherent hnames "val"
  have hgrows := Queue.build_grows options mentions
    (Queue.ofPatterns (NameSupply.fresh "val" names).1 patterns)
    ⟨(NameSupply.fresh "val" names).2, .empty patterns.length, 0⟩
  refine ⟨?_, Queue.build_numbered options mentions _ hfresh, hgrows.next⟩
  exact hgrows.symbols _ _ (hnames.lookup?_intern _)

end Plan

end PatternCompiler
