import LittleMan.Proofs.Blueprint.Programs

/-!
# What a program may not do

The violations of a program are listed in the order in which its parts are visited:
the names of its functions, the main statements, the bodies of the functions.  A
violation of a construct comes before those of its parts.  What is inside a `switch` or
a declaration that is out of place is not visited.

A name may be read where it is among the names seen so far.  The main program has seen
what it has assigned to.  A function has also seen its parameters and everything that the
main program assigns to anywhere.
-/

namespace LittleMan

/-- The number of arguments that a callee other than `print` takes. -/
def arity? (declared : String → Option Nat) (callee : String) : Option Nat :=
  if callee = "input" then some 0
  else if callee = "assert" then some 1
  else declared callee

def callViolations (declared : String → Option Nat) (callee : String) (count : Nat) :
    List CompileError :=
  (arity? declared callee).elim [.unknownFunction callee] fun expected =>
    if count = expected then [] else [.arity callee expected count]

mutual

def Expr.violations (declared : String → Option Nat) (seen : List String) :
    Expr → List CompileError
  | .integer _ | .bool _ => []
  | .text _ => [.unsupported "string value" (some "strings can only be passed to print")]
  | .name x => if x ∈ seen then [] else [.undefined x]
  | .group inner => inner.violations declared seen
  | .unary _ operand => operand.violations declared seen
  | .binary left _ right => left.violations declared seen ++ right.violations declared seen
  | .call callee args =>
      if callee = "print" then Expr.violationsPrinted declared seen args
      else callViolations declared callee args.length ++ Expr.violationsAll declared seen args

def Expr.violationsAll (declared : String → Option Nat) (seen : List String) :
    List Expr → List CompileError
  | [] => []
  | e :: rest => e.violations declared seen ++ Expr.violationsAll declared seen rest

/-- Texts may be printed. -/
def Expr.violationsPrinted (declared : String → Option Nat) (seen : List String) :
    List Expr → List CompileError
  | [] => []
  | .text _ :: rest => Expr.violationsPrinted declared seen rest
  | e :: rest => e.violations declared seen ++ Expr.violationsPrinted declared seen rest

end

/-- What stands around a statement. -/
structure Setting where
  declared : String → Option Nat
  inFunction : Bool
  inLoop : Bool

/-- The same place, but inside a loop. -/
def Setting.looping (σ : Setting) : Setting :=
  { σ with inLoop := true }

mutual

def Stmt.violations (σ : Setting) (seen : List String) : Stmt → List CompileError
  | .assign _ value => value.violations σ.declared seen
  | .choose arms otherwise =>
      Stmt.violationsInArms σ seen arms ++
        match otherwise with
        | some body => Stmt.violationsInBlock σ (seen ++ Stmt.assignedInArms arms) body
        | none => []
  | .whileLoop condition body =>
      condition.violations σ.declared seen ++ Stmt.violationsInBlock σ.looping seen body
  | .untilLoop body condition =>
      Stmt.violationsInBlock σ.looping seen body ++
        condition.violations σ.declared (seen ++ Stmt.assignedInBlock body)
  | .forLoop var first last body closing =>
      (if var = closing then [] else [.loopMismatch var closing]) ++
        (first.violations σ.declared seen ++ (last.violations σ.declared (seen ++ [var]) ++
          Stmt.violationsInBlock σ.looping (seen ++ [var]) body))
  | .switch .. => [.unsupported "switch" (some "rewrite the cases as an if/elseif/else chain")]
  | .function name .. => [.internal ("function '" ++ name ++ "' reached statement position")]
  | .giveBack value =>
      (if σ.inFunction then [] else [.returnOutsideFunction]) ++
        value.elim [] (Expr.violations σ.declared seen)
  | .leaveLoop => if σ.inLoop then [] else [.outsideLoop "break"]
  | .nextPass => if σ.inLoop then [] else [.outsideLoop "continue"]
  | .evaluate value => value.violations σ.declared seen

def Stmt.violationsInBlock (σ : Setting) (seen : List String) : List Stmt → List CompileError
  | [] => []
  | stmt :: rest =>
      stmt.violations σ seen ++ Stmt.violationsInBlock σ (seen ++ stmt.assigned) rest

def Stmt.violationsInArms (σ : Setting) (seen : List String) :
    List (Expr × List Stmt) → List CompileError
  | [] => []
  | (condition, body) :: rest =>
      condition.violations σ.declared seen ++ (Stmt.violationsInBlock σ seen body ++
        Stmt.violationsInArms σ (seen ++ Stmt.assignedInBlock body) rest)

end

namespace Program

/-- The functions are entered one after the other, and `earlier` are the names of those
that have been. -/
def violationsOfNames (earlier : List String) : List FunctionDecl → List CompileError
  | [] => []
  | f :: rest =>
      (if f.name ∈ Lowering.builtins ∨ f.name ∈ earlier then
        [.duplicateFunction f.name (Lowering.builtins.contains f.name)] else []) ++
        violationsOfNames (earlier ++ [f.name]) rest

/-- The number of parameters of a declared function. -/
def parameterCount? (program : Program) (callee : String) : Option Nat :=
  (program.declared.find? (·.name == callee)).map (·.params.length)

def violations (program : Program) : List CompileError :=
  violationsOfNames [] program.declared ++
    (Stmt.violationsInBlock
        { declared := program.parameterCount?, inFunction := false, inLoop := false } []
        program.main ++
      program.declared.flatMap fun f =>
        Stmt.violationsInBlock
          { declared := program.parameterCount?, inFunction := true, inLoop := false }
          (f.params ++ program.globals) f.body)

end Program

/-! ## Checks -/

/-- The draft stands where `γ` does and keeps the symbols of a register, and the names seen
are the visible ones. -/
structure Draft.Sees (d : Draft) (γ : Around) (seen : List String) (r : Register) : Prop where
  scopes : d.scopes = r.scopes
  sound : r.Sound
  around : d.around = γ
  scope : γ.scope < r.sections.length
  visible : ∀ x, r.visible γ.scope x = none ↔ x ∉ seen

namespace Lowering

/-- A lowering fails at a draft with the first violation, and if there is none it succeeds
with a result of which `Q` holds. -/
def Judged {α : Type} (x : Lowering α) (d : Draft) (violations : List CompileError)
    (Q : α → Draft → Prop) : Prop :=
  (violations = [] → ∃ a d', x d = .ok (a, d') ∧ Q a d') ∧
    ∀ error rest, violations = error :: rest → x d = .error error

namespace Judged

variable {α β : Type} {d d' : Draft} {a : α} {violations violations' : List CompileError}
  {P P' : α → Draft → Prop} {Q : β → Draft → Prop}

theorem bind_eq {x : Lowering α} {f : α → Lowering β} (hx : x d = .ok (a, d')) :
    (x >>= f) d = f a d' := by
  change (StateT.bind x f) d = _
  unfold StateT.bind
  rw [hx]
  rfl

theorem bind {x : Lowering α} {f : α → Lowering β} (hx : Judged x d violations P)
    (hf : ∀ a d', P a d' → Judged (f a) d' violations' Q) :
    Judged (x >>= f) d (violations ++ violations') Q := by
  obtain ⟨hok, herror⟩ := hx
  cases violations with
  | cons first others =>
      refine ⟨by simp, fun error rest heq => ?_⟩
      obtain ⟨rfl, -⟩ := List.cons.inj heq
      change (StateT.bind x f) d = _
      unfold StateT.bind
      rw [herror _ _ rfl]
      rfl
  | nil =>
      obtain ⟨a, d', hxd, hP⟩ := hok rfl
      obtain ⟨hok', herror'⟩ := hf a d' hP
      refine ⟨fun hnone => ?_, fun error rest heq => ?_⟩
      · obtain ⟨b, d'', hfd, hQ⟩ := hok' hnone
        exact ⟨b, d'', (bind_eq hxd).trans hfd, hQ⟩
      · exact (bind_eq hxd).trans (herror' error rest heq)

theorem mono {x : Lowering α} (hx : Judged x d violations P)
    (hP : ∀ a d', P a d' → P' a d') : Judged x d violations P' := by
  refine ⟨fun hnone => ?_, hx.2⟩
  obtain ⟨a, d', hxd, h⟩ := hx.1 hnone
  exact ⟨a, d', hxd, hP a d' h⟩

theorem ok {x : Lowering α} (hx : x d = .ok (a, d')) (hP : P a d') : Judged x d [] P :=
  ⟨fun _ => ⟨a, d', hx, hP⟩, by simp⟩

theorem refuse (error : CompileError) (others : List CompileError) :
    Judged (Lowering.refuse error : Lowering α) d (error :: others) P := by
  refine ⟨by simp, fun first rest heq => ?_⟩
  obtain ⟨rfl, -⟩ := List.cons.inj heq
  rfl

/-- A lowering that succeeds goes first. -/
theorem step {x : Lowering α} {f : α → Lowering β} (hx : x d = .ok (a, d'))
    (hf : Judged (f a) d' violations Q) : Judged (x >>= f) d violations Q := by
  have hfirst : Judged x d [] fun b d'' => b = a ∧ d'' = d' := ok hx ⟨rfl, rfl⟩
  refine hfirst.bind ?_
  rintro _ _ ⟨rfl, rfl⟩
  exact hf

/-- What comes last succeeds. -/
theorem last {x : Lowering α} {f : α → Lowering β} (hx : Judged x d violations P)
    (hf : ∀ a d', P a d' → Judged (f a) d' [] Q) : Judged (x >>= f) d violations Q := by
  have hbind := hx.bind hf
  rwa [List.append_nil] at hbind

end Judged

/-- A lowering is judged wherever `γ` stands and the names `seen` are visible, and leaves
behind a register that has grown. -/
def Checks {α : Type} (γ : Around) (seen : List String) (x : Lowering α)
    (violations : List CompileError) (assigned : List String) : Prop :=
  ∀ ⦃d : Draft⦄ ⦃r : Register⦄, d.Sees γ seen r →
    Judged x d violations fun _ d' => ∃ r', d'.Sees γ (seen ++ assigned) r' ∧
      Register.Grows γ.scope assigned r r'

namespace Checks

variable {α β : Type} {γ : Around} {seen assigned assigned' : List String}
  {violations violations' : List CompileError}

theorem bind {x : Lowering α} {f : α → Lowering β} (hx : Checks γ seen x violations assigned)
    (hf : ∀ a, Checks γ (seen ++ assigned) (f a) violations' assigned') :
    Checks γ seen (x >>= f) (violations ++ violations') (assigned ++ assigned') := by
  intro d r hsees
  refine (hx hsees).bind ?_
  rintro a d' ⟨r', hsees', hgrows⟩
  refine (hf a hsees').mono ?_
  rintro b d'' ⟨r'', hsees'', hgrows'⟩
  refine ⟨r'', ?_, hgrows.trans hgrows'⟩
  rwa [← List.append_assoc]

theorem congr {x : Lowering α} (h : Checks γ seen x violations assigned)
    (hviolations : violations = violations') (hassigned : assigned = assigned') :
    Checks γ seen x violations' assigned' := by
  subst hviolations hassigned
  exact h

/-- A lowering that assigns to nothing goes first. -/
theorem andThen {x : Lowering α} {f : α → Lowering β} (hx : Checks γ seen x violations [])
    (hf : ∀ a, Checks γ seen (f a) violations' assigned) :
    Checks γ seen (x >>= f) (violations ++ violations') assigned :=
  hx.bind fun a => by simpa using hf a

theorem pure (b : β) : Checks γ seen (Pure.pure b : Lowering β) [] [] :=
  fun _ r hsees => .ok rfl ⟨r, by simpa using hsees, .refl hsees.sound⟩

theorem refuse (error : CompileError) (others : List CompileError) :
    Checks γ seen (Lowering.refuse error : Lowering β) (error :: others) assigned :=
  fun _ _ _ => .refuse error others

/-- A look at the draft shows what stands around. -/
theorem get {f : Draft → Lowering β}
    (h : ∀ d, d.around = γ → Checks γ seen (f d) violations assigned) :
    Checks γ seen (MonadState.get >>= f) violations assigned :=
  fun d _ hsees => h d hsees.around hsees

/-- A request to the table that the register answers. -/
theorem request {ask : Scopes → Nat → β × Scopes}
    (hask : ∀ {r : Register}, r.Sound → γ.scope < r.sections.length →
      ∃ answer r', ask r.scopes γ.scope = (answer, r'.scopes) ∧
        Register.Grows γ.scope assigned r r') :
    Checks γ seen (withScopes ask) [] assigned := by
  intro d r hsees
  obtain ⟨answer, r', hanswer, hgrows⟩ := hask hsees.sound hsees.scope
  have hok : withScopes ask d = .ok (answer, { d with scopes := r'.scopes }) := by
    obtain rfl := hsees.around
    change ask r.scopes d.scope = _ at hanswer
    rw [withScopes, hsees.scopes, hanswer]
  refine .ok hok ⟨r', ⟨rfl, hgrows.sound, hsees.around, ?_, fun x => ?_⟩, hgrows⟩
  · rw [hgrows.length]
    exact hsees.scope
  · rw [hgrows.visible_eq_none_iff, hsees.visible, List.mem_append, not_or]

end Checks

/-! ### Lowerings that cannot fail -/

/-- A lowering that is never refused and assigns to nothing. -/
def Quiet {α : Type} (x : Lowering α) : Prop :=
  ∀ γ seen, Checks γ seen x [] []

namespace Quiet

variable {α β : Type}

theorem bind {x : Lowering α} {f : α → Lowering β} (hx : Quiet x) (hf : ∀ a, Quiet (f a)) :
    Quiet (x >>= f) :=
  fun γ seen => (hx γ seen).andThen fun a => hf a γ seen

theorem pure (b : β) : Quiet (Pure.pure b : Lowering β) :=
  fun _ _ => .pure b

theorem write (change : Sheet → Sheet) : Quiet (write change) := by
  intro γ seen d r hsees
  refine .ok rfl ⟨r, ?_, .refl hsees.sound⟩
  rw [List.append_nil]
  exact ⟨hsees.scopes, hsees.sound, hsees.around, hsees.scope, hsees.visible⟩

theorem literal (v : Word) : Quiet (literal v) := by
  intro γ seen
  refine .request fun hsound _ => ?_
  exact ⟨_, _, Register.internLiteral_eq hsound v, Register.grows_literal hsound _ v⟩

theorem temporary : Quiet temporary := by
  intro γ seen
  refine .request fun hsound hscope => ?_
  exact ⟨_, _, Register.freshTemporary_eq hsound hscope,
    Register.grows_newTemporary hsound hscope⟩

theorem loopLabel : Quiet loopLabel := by
  intro γ seen
  refine .request fun hsound hscope => ?_
  exact ⟨_, _, Register.freshLoop_eq hsound hscope, Register.grows_newLoop hsound hscope⟩

theorem ifLabel : Quiet ifLabel := by
  intro γ seen
  refine .request fun hsound hscope => ?_
  exact ⟨_, _, Register.freshIf_eq hsound hscope, Register.grows_newChoice hsound hscope⟩

theorem assertNumber : Quiet assertNumber := by
  intro γ seen
  refine .request fun {r} hsound _ => ?_
  exact ⟨_, r.count { r.counters with asserts := r.counters.asserts + 1 }, rfl,
    Register.grows_count hsound _ le_rfl le_rfl le_rfl⟩

end Quiet

section Steps

variable {α β : Type} {γ : Around} {seen assigned : List String} {violations : List CompileError}

/-- A lowering that cannot fail goes first. -/
theorem Checks.after {x : Lowering α} {f : α → Lowering β} (hx : Quiet x)
    (hf : ∀ a, Checks γ seen (f a) violations assigned) :
    Checks γ seen (x >>= f) violations assigned :=
  (hx γ seen).andThen hf

/-- What comes last cannot fail. -/
theorem Checks.before {x : Lowering α} {f : α → Lowering β}
    (hx : Checks γ seen x violations assigned) (hf : ∀ a, Quiet (f a)) :
    Checks γ seen (x >>= f) violations assigned :=
  (hx.bind fun a => hf a γ (seen ++ assigned)).congr (List.append_nil _) (List.append_nil _)

theorem target_checks (x : String) : Checks γ seen (target x) [] [x] := by
  refine .request fun hsound hscope => ?_
  exact ⟨_, _, Register.internVariable_eq hsound hscope x,
    Register.grows_addVariable hsound hscope x⟩

theorem variableCell_checks (x : String) :
    Checks γ seen (variableCell x) (if x ∈ seen then [] else [.undefined x]) [] := by
  intro d r hsees
  obtain rfl := hsees.around
  have hvisible := hsees.visible x
  have hlookup : d.scopes.lookup? d.scope x = (r.visible d.scope x).map Cell.label := by
    rw [hsees.scopes]
    exact Register.lookup?_eq hsees.sound hsees.scope x
  change r.visible d.scope x = none ↔ _ at hvisible
  by_cases hx : x ∈ seen
  · rw [if_pos hx]
    cases hcell : r.visible d.scope x with
    | none => exact absurd hx (hvisible.1 hcell)
    | some c =>
        have hok : variableCell x d = .ok (c.label, d) := by
          rw [variableCell, hlookup, hcell]
          rfl
        exact .ok hok ⟨r, by simpa using hsees, .refl hsees.sound⟩
  · rw [if_neg hx]
    refine ⟨by simp, fun error rest heq => ?_⟩
    obtain ⟨rfl, -⟩ := List.cons.inj heq
    rw [Lowering.variableCell, hlookup, hvisible.2 hx]
    rfl

theorem routine_checks {name : String} {f : Routine → Lowering β}
    (hnone : γ.routines.lookup name = none →
      ∃ others, violations = .unknownFunction name :: others)
    (hsome : ∀ routine, γ.routines.lookup name = some routine →
      Checks γ seen (f routine) violations assigned) :
    Checks γ seen (routine name >>= f) violations assigned := by
  intro d r hsees
  have hroutines : d.routines = γ.routines := congrArg Around.routines hsees.around
  cases hlookup : γ.routines.lookup name with
  | none =>
      obtain ⟨others, rfl⟩ := hnone hlookup
      have hunknown : Judged (routine name) d [.unknownFunction name] fun _ _ => False := by
        refine ⟨by simp, fun error rest heq => ?_⟩
        obtain ⟨rfl, -⟩ := List.cons.inj heq
        rw [routine, hroutines, hlookup]
      exact hunknown.bind fun _ _ h => h.elim
  | some found =>
      have hok : routine name d = .ok (found, d) := by
        rw [routine, hroutines, hlookup]
      exact .step hok (hsome found hlookup hsees)

end Steps
end Lowering
end LittleMan
