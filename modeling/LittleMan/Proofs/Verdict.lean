import LittleMan.Proofs.Requests
import LittleMan.Proofs.Violations

/-!
# The verdict of the compiler

Lowering a program fails with the first of its violations, and succeeds if it has none.
The proofs walk along the `do` blocks of the lowering: nearly all steps cannot fail, and
the others are the violations one by one.

This holds of all trees, whatever names are in them.
-/

namespace LittleMan

/-- What stands around a lowering is what the setting says. -/
structure Around.Sets (γ : Around) (σ : Setting) : Prop where
  declared : ∀ callee, (γ.routines.lookup callee).map (·.params.length) = σ.declared callee
  inFunction : γ.inFunction = σ.inFunction
  inLoop : γ.loops.innermost.isSome = σ.inLoop

namespace Lowering

theorem Quiet.writes {α : Type} {x : Lowering α} [h : Writes x] : Quiet x := by
  induction h with
  | pure a => exact .pure a
  | write change => exact .write change
  | andThen _ _ hx hy => exact .bind hx fun _ => hy

/-! ## Operators -/

theorem select_quiet (result : String) (branch : Opcode) (whenTaken : Bool) :
    Quiet (select result branch whenTaken) :=
  .bind (.literal _) fun _ => .bind (.literal _) fun _ => .bind (.write _) fun _ => .writes

theorem compare_quiet (a b result : String) (branch : Opcode) (whenTaken : Bool) :
    Quiet (compare a b result branch whenTaken) :=
  .bind (.write _) fun _ => .bind (.write _) fun _ => select_quiet _ _ _

theorem multiply_quiet (l r total : String) : Quiet (multiply l r total) :=
  .bind (.literal _) fun _ => .bind (.literal _) fun _ => .bind .temporary fun _ =>
    .bind .temporary fun _ => .bind (.write _) fun _ => .writes

theorem floorDivMod_quiet (l r quotient remainder base : String) :
    Quiet (floorDivMod l r quotient remainder base) := by
  refine .bind (.literal _) fun _ => .bind (.literal _) fun _ => ?_
  iterate 4 refine .bind .temporary fun _ => ?_
  exact .bind (.write _) fun _ => .writes

theorem power_quiet (l r total : String) : Quiet (power l r total) := by
  refine .bind (.literal _) fun _ => .bind .temporary fun _ => .bind .temporary fun _ => ?_
  iterate 8 refine .bind (.write _) fun _ => ?_
  exact .bind (multiply_quiet _ _ _) fun _ => .writes

theorem combine_quiet {op : BinaryOp} (hand : op ≠ .and) (hor : op ≠ .or) (l r : String) :
    Quiet (combine op l r) := by
  refine .bind .temporary fun result => ?_
  cases op with
  | add => exact .bind (.write _) fun _ => .pure _
  | sub => exact .bind (.write _) fun _ => .pure _
  | mul => exact .bind (multiply_quiet _ _ _) fun _ => .pure _
  | div =>
      exact .bind (.bind .temporary fun _ => floorDivMod_quiet _ _ _ _ _) fun _ => .pure _
  | mod =>
      exact .bind (.bind .temporary fun _ => floorDivMod_quiet _ _ _ _ _) fun _ => .pure _
  | pow => exact .bind (power_quiet _ _ _) fun _ => .pure _
  | and => exact absurd rfl hand
  | or => exact absurd rfl hor
  | _ => exact .bind (compare_quiet _ _ _ _ _) fun _ => .pure _

section Operators

variable {γ : Around} {seen : List String} {left right : Lowering String}
  {violations violations' : List CompileError}

theorem conjunction_checks (hleft : Checks γ seen left violations [])
    (hright : Checks γ seen right violations' []) :
    Checks γ seen (conjunction left right) (violations ++ violations') [] :=
  .after .temporary fun _ => .after (.literal _) fun _ => .after (.literal _) fun _ =>
    hleft.andThen fun _ => .after (.write _) fun _ => .after (.write _) fun _ =>
    hright.before fun _ => .writes

theorem disjunction_checks (hleft : Checks γ seen left violations [])
    (hright : Checks γ seen right violations' []) :
    Checks γ seen (disjunction left right) (violations ++ violations') [] :=
  .after .temporary fun _ => .after (.literal _) fun _ => .after (.literal _) fun _ =>
    hleft.andThen fun _ => .after (.write _) fun _ => .after (.write _) fun _ =>
    .after (.write _) fun _ => .after (.write _) fun _ => hright.before fun _ => .writes

theorem negative_checks (hleft : Checks γ seen left violations []) :
    Checks γ seen (negative left) violations [] :=
  hleft.before fun _ => .bind (.literal _) fun _ => .bind .temporary fun _ =>
    .bind (.write _) fun _ => .pure _

theorem negation_checks (hleft : Checks γ seen left violations []) :
    Checks γ seen (negation left) violations [] :=
  hleft.before fun _ => .bind .temporary fun _ => .bind (.write _) fun _ =>
    .bind (select_quiet _ _ _) fun _ => .pure _

end Operators

/-! ## Expressions -/

theorem putChar_quiet (c : Char) : Quiet (putChar c) :=
  .bind (.literal _) fun _ => .bind (.write _) fun _ => .write _

theorem putChars_quiet (content : List Char) : Quiet (putChars content) := by
  induction content with
  | nil => exact .pure _
  | cons c rest ih => exact .bind (putChar_quiet c) fun _ => ih

theorem pushArguments_quiet (cells : List String) : Quiet (pushArguments cells) := by
  induction cells with
  | nil => exact .pure _
  | cons cell rest ih => exact .bind (.write _) fun _ => .bind (.write _) fun _ => ih

section Calls

variable {γ : Around} {seen : List String} {violations : List CompileError}

theorem assertion_checks {condition : Lowering String}
    (h : Checks γ seen condition violations []) :
    Checks γ seen (assertion condition) violations [] := by
  refine .after .assertNumber fun _ => .after (.write _) fun _ => h.before fun _ => ?_
  iterate 6 refine .bind (.write _) fun _ => ?_
  exact .literal _

theorem userCall_checks {declared : String → Option Nat}
    (hdeclared : ∀ callee, (γ.routines.lookup callee).map (·.params.length) = declared callee)
    (callee : String) (count : Nat) {args : Lowering (List String)}
    (hargs : Checks γ seen args violations []) :
    Checks γ seen (userCall callee count args)
      ((declared callee).elim [.unknownFunction callee] (fun expected =>
        if count = expected then [] else [.arity callee expected count]) ++ violations) [] := by
  rw [← hdeclared]
  refine routine_checks (fun hnone => ?_) fun routine hsome => ?_
  · rw [hnone]
    exact ⟨violations, rfl⟩
  · rw [hsome, Option.map_some, Option.elim_some]
    by_cases hcount : count = routine.params.length
    · rw [if_pos hcount, if_pos hcount]
      refine hargs.before fun cells => ?_
      refine .bind (.literal _) fun _ => .bind .temporary fun _ => .bind (.write _) fun _ =>
        .bind (.write _) fun _ => .bind (.write _) fun _ => .bind (.write _) fun _ =>
        .bind (pushArguments_quiet cells) fun _ => .bind (.write _) fun _ =>
        .bind (.write _) fun _ => .bind (.write _) fun _ => .pure _
    · rw [if_neg hcount, if_neg hcount]
      exact .refuse _ _

end Calls

section Expressions

variable {γ : Around} {σ : Setting} {seen : List String}

mutual

theorem expression_checks (hγ : γ.Sets σ) : (e : Expr) →
    Checks γ seen (expression e) (e.violations σ.declared seen) []
  | .integer value => by
      rw [expression, Expr.violations]
      exact Quiet.literal _ γ seen
  | .bool value => by
      rw [expression, Expr.violations]
      exact Quiet.literal _ γ seen
  | .text content => by
      rw [expression, Expr.violations]
      exact .refuse _ _
  | .name x => by
      rw [expression, Expr.violations]
      exact variableCell_checks x
  | .group inner => by
      rw [expression, Expr.violations]
      exact expression_checks hγ inner
  | .unary .neg operand => by
      rw [expression, Expr.violations]
      exact negative_checks (expression_checks hγ operand)
  | .unary .not operand => by
      rw [expression, Expr.violations]
      exact negation_checks (expression_checks hγ operand)
  | .binary left op right => by
      have hleft := expression_checks hγ left
      have hright := expression_checks hγ right
      rw [Expr.violations]
      by_cases hand : op = .and
      · subst hand
        rw [expression]
        exact conjunction_checks hleft hright
      · by_cases hor : op = .or
        · subst hor
          rw [expression]
          exact disjunction_checks hleft hright
        · rw [expression]
          · exact hleft.andThen fun l => hright.before fun r => combine_quiet hand hor l r
          · exact hand
          · exact hor
  | .call callee args => by
      unfold expression
      rw [Expr.violations]
      by_cases hprint : callee = "print"
      · rw [if_pos hprint, if_pos hprint]
        refine .after (.write _) fun _ => (printed_checks hγ args).before fun _ => ?_
        by_cases hopen : leavesLineOpen args = true
        · rw [if_pos hopen]
          exact .bind (putChar_quiet _) fun _ => .literal _
        · rw [if_neg hopen]
          exact .bind (.pure _) fun _ => .literal _
      · rw [if_neg hprint, if_neg hprint, callViolations, arity?]
        by_cases hinput : callee = "input"
        · subst hinput
          rw [if_pos rfl, if_pos rfl, Option.elim_some, input]
          cases args with
          | nil =>
              exact Quiet.bind .temporary (fun _ => .bind (.write _) fun _ => .bind (.write _)
                fun _ => .pure _) γ seen
          | cons e rest => exact .refuse _ _
        · rw [if_neg hinput, if_neg hinput]
          by_cases hassert : callee = "assert"
          · subst hassert
            rw [if_pos rfl, if_pos rfl, Option.elim_some]
            rcases args with _ | ⟨condition, _ | ⟨second, rest⟩⟩
            · exact .refuse _ _
            · refine (assertion_checks (expression_checks hγ condition)).congr ?_ rfl
              simp [Expr.violationsAll]
            · exact .refuse _ _
          · rw [if_neg hassert, if_neg hassert]
            exact userCall_checks hγ.declared callee args.length (expressions_checks hγ args)

theorem expressions_checks (hγ : γ.Sets σ) : (es : List Expr) →
    Checks γ seen (expressions es) (Expr.violationsAll σ.declared seen es) []
  | [] => by
      rw [expressions, Expr.violationsAll]
      exact .pure _
  | e :: rest => by
      rw [expressions, Expr.violationsAll]
      exact (expression_checks hγ e).andThen fun _ =>
        (expressions_checks hγ rest).before fun _ => .pure _

theorem printed_checks (hγ : γ.Sets σ) : (es : List Expr) →
    Checks γ seen (printed es) (Expr.violationsPrinted σ.declared seen es) []
  | [] => by
      rw [printed, Expr.violationsPrinted]
      exact .pure _
  | e :: rest => by
      have hrest := printed_checks hγ rest
      have he := expression_checks hγ e
      cases e with
      | text content =>
          rw [printed, Expr.violationsPrinted]
          exact .after (putChars_quiet _) fun _ => hrest
      | _ =>
          rw [printed, Expr.violationsPrinted]
          · exact he.andThen fun _ => .after (.write _) fun _ => .after (.write _) fun _ => hrest
          all_goals simp

end

end Expressions
/-! ## Statements -/

section Statements

variable {γ : Around} {σ : Setting} {seen assigned : List String}
  {violations : List CompileError}

theorem branchIfFalse_checks (hγ : γ.Sets σ) (condition : Expr) (onFalse : String) :
    Checks γ seen (branchIfFalse condition onFalse) (condition.violations σ.declared seen) [] :=
  (expression_checks hγ condition).before fun _ => .bind (.write _) fun _ => .write _

theorem returnFrom_quiet (value : String) : Quiet (returnFrom value) :=
  .bind .temporary fun _ => .writes

theorem returnValue_checks (hγ : γ.Sets σ) (value : Option Expr) :
    Checks γ seen (returnValue value) (value.elim [] (Expr.violations σ.declared seen)) [] := by
  cases value with
  | none => exact Quiet.bind (.literal _) (fun _ => returnFrom_quiet _) γ seen
  | some value => exact (expression_checks hγ value).before fun _ => returnFrom_quiet _

theorem loopJump_checks (hγ : γ.Sets σ) (keyword : String) (place : LoopLabels → String) :
    Checks γ seen (loopJump keyword place) (if σ.inLoop then [] else [.outsideLoop keyword])
      [] := by
  refine .get fun d haround => ?_
  have hloops : d.loops = γ.loops := congrArg Around.loops haround
  rw [hloops, ← hγ.inLoop]
  cases γ.loops.innermost with
  | none => exact .refuse _ _
  | some loop => exact Quiet.write _ γ seen

/-- The names and functions inside a loop are those around it. -/
theorem insideLoop_checks {label continueTarget : String} {body : Lowering Unit}
    (h : Checks { γ with loops := γ.loops.enter label continueTarget } seen body violations
      assigned) :
    Checks γ seen (insideLoop label continueTarget body) violations assigned := by
  intro d r hsees
  obtain rfl := hsees.around
  let inner : Draft := { d with loops := d.loops.enter label continueTarget }
  have hinner : inner.Sees { d.around with loops := d.around.loops.enter label continueTarget }
      seen r := ⟨hsees.scopes, hsees.sound, rfl, hsees.scope, hsees.visible⟩
  have henter : (modify fun draft => { draft with loops := draft.loops.enter label continueTarget } :
      Lowering Unit) d = .ok ((), inner) := rfl
  refine .step henter ((h hinner).last ?_)
  rintro _ d' ⟨r', hsees', hgrows⟩
  refine .ok rfl ⟨r', ⟨hsees'.scopes, hsees'.sound, ?_, hsees'.scope, hsees'.visible⟩, hgrows⟩
  have hloops := congrArg Around.loops hsees'.around
  have hscope := congrArg Around.scope hsees'.around
  have hroutines := congrArg Around.routines hsees'.around
  have hfunction := congrArg Around.inFunction hsees'.around
  simp only [Draft.around] at hloops hscope hroutines hfunction ⊢
  rw [hloops, hscope, hroutines, hfunction]
  rfl

theorem whileLoop_checks (hγ : γ.Sets σ) (condition : Expr) {body : Lowering Unit}
    (hbody : ∀ label target, Checks { γ with loops := γ.loops.enter label target } seen body
      violations assigned) :
    Checks γ seen (whileLoop condition body)
      (condition.violations σ.declared seen ++ violations) assigned :=
  .after .loopLabel fun _ => .after (.write _) fun _ => .after (.write _) fun _ =>
    (branchIfFalse_checks hγ condition _).andThen fun _ =>
      (insideLoop_checks (hbody _ _)).before fun _ => .bind (.write _) fun _ => .write _

theorem untilLoop_checks (hγ : γ.Sets σ) (condition : Expr) {body : Lowering Unit}
    (hbody : ∀ label target, Checks { γ with loops := γ.loops.enter label target } seen body
      violations assigned) :
    Checks γ seen (untilLoop body condition)
      (violations ++ condition.violations σ.declared (seen ++ assigned)) assigned := by
  refine .after .loopLabel fun _ => .after (.write _) fun _ => .after (.write _) fun _ => ?_
  refine ((insideLoop_checks (hbody _ _)).bind fun _ => .after (.write _) fun _ =>
    (branchIfFalse_checks hγ condition _).before fun _ => .write _).congr rfl ?_
  exact List.append_nil _

theorem forLoop_checks (hγ : γ.Sets σ) (var : String) (first last : Expr) {body : Lowering Unit}
    (hbody : ∀ label target, Checks { γ with loops := γ.loops.enter label target }
      (seen ++ [var]) body violations assigned) :
    Checks γ seen (forLoop var first last body)
      (first.violations σ.declared seen ++
        (last.violations σ.declared (seen ++ [var]) ++ violations)) (var :: assigned) := by
  refine .after .loopLabel fun _ => .after (.write _) fun _ =>
    (expression_checks hγ first).andThen fun _ => ?_
  refine ((target_checks var).bind fun _ => .after (.write _) fun _ =>
    (expression_checks hγ last).andThen fun _ => .after .temporary fun _ => .after (.write _)
      fun _ => .after (.write _) fun _ => (insideLoop_checks (hbody _ _)).before fun _ => ?_).congr
    rfl rfl
  exact .bind (.literal _) fun _ => .writes

end Statements

theorem sets_looping {γ : Around} {σ : Setting} (hγ : γ.Sets σ) (label target : String) :
    Around.Sets { γ with loops := γ.loops.enter label target } σ.looping :=
  ⟨hγ.declared, hγ.inFunction, rfl⟩

mutual

theorem statement_checks : (stmt : Stmt) → ∀ {γ : Around} {σ : Setting} (seen : List String),
    γ.Sets σ → Checks γ seen (statement stmt) (stmt.violations σ seen) stmt.assigned
  | .assign name value, γ, σ, seen, hγ => by
      rw [statement, Stmt.violations, Stmt.assigned, assign]
      refine .after (.write _) fun _ => ((expression_checks hγ value).andThen fun _ =>
        (target_checks name).before fun _ => .write _).congr ?_ rfl
      exact List.append_nil _
  | .choose arms (some body), γ, σ, seen, hγ => by
      rw [statement, Stmt.violations, Stmt.assigned]
      refine .after .ifLabel fun id => .after (.write _) fun _ => ?_
      refine (choices_checks arms seen hγ _ _ _ _).bind fun _ => .after (.write _) fun _ => ?_
      exact (block_checks body _ hγ).before fun _ => .write _
  | .choose arms none, γ, σ, seen, hγ => by
      rw [statement, Stmt.violations, Stmt.assigned, List.append_nil, List.append_nil]
      refine .after .ifLabel fun id => .after (.write _) fun _ => ?_
      exact (choices_checks arms seen hγ _ _ _ _).before fun _ => .write _
  | .whileLoop condition body, γ, σ, seen, hγ => by
      rw [statement, Stmt.violations, Stmt.assigned]
      exact whileLoop_checks hγ condition fun label target =>
        block_checks body seen (sets_looping hγ label target)
  | .untilLoop body condition, γ, σ, seen, hγ => by
      rw [statement, Stmt.violations, Stmt.assigned]
      exact untilLoop_checks hγ condition fun label target =>
        block_checks body seen (sets_looping hγ label target)
  | .forLoop var first last body closing, γ, σ, seen, hγ => by
      rw [statement, Stmt.violations, Stmt.assigned]
      by_cases hclosing : var = closing
      · rw [if_pos hclosing, if_pos hclosing]
        exact forLoop_checks hγ var first last fun label target =>
          block_checks body _ (sets_looping hγ label target)
      · rw [if_neg hclosing, if_neg hclosing]
        exact .refuse _ _
  | .switch subject arms otherwise, γ, σ, seen, hγ => by
      rw [statement, Stmt.violations, Stmt.assigned]
      exact .refuse _ _
  | .function name params body, γ, σ, seen, hγ => by
      rw [statement, Stmt.violations, Stmt.assigned]
      exact .refuse _ _
  | .giveBack value, γ, σ, seen, hγ => by
      rw [statement, Stmt.violations, Stmt.assigned]
      refine .get fun d haround => ?_
      have hfunction : d.inFunction = γ.inFunction := congrArg Around.inFunction haround
      rw [hfunction, ← hγ.inFunction]
      cases γ.inFunction with
      | false => exact .refuse _ _
      | true => exact returnValue_checks hγ value
  | .leaveLoop, γ, σ, seen, hγ => by
      rw [statement, Stmt.violations, Stmt.assigned]
      exact loopJump_checks hγ _ _
  | .nextPass, γ, σ, seen, hγ => by
      rw [statement, Stmt.violations, Stmt.assigned]
      exact loopJump_checks hγ _ _
  | .evaluate value, γ, σ, seen, hγ => by
      rw [statement, Stmt.violations, Stmt.assigned]
      exact (expression_checks hγ value).before fun _ => .pure _

theorem block_checks : (body : List Stmt) → ∀ {γ : Around} {σ : Setting} (seen : List String),
    γ.Sets σ →
    Checks γ seen (block body) (Stmt.violationsInBlock σ seen body) (Stmt.assignedInBlock body)
  | [], γ, σ, seen, hγ => by
      rw [block, Stmt.violationsInBlock, Stmt.assignedInBlock]
      exact .pure _
  | stmt :: rest, γ, σ, seen, hγ => by
      rw [block, Stmt.violationsInBlock, Stmt.assignedInBlock]
      exact (statement_checks stmt seen hγ).bind fun _ => block_checks rest _ hγ

theorem choices_checks : (arms : List (Expr × List Stmt)) → ∀ {γ : Around} {σ : Setting}
    (seen : List String), γ.Sets σ → ∀ id done fallback i,
    Checks γ seen (choices id done fallback i arms) (Stmt.violationsInArms σ seen arms)
      (Stmt.assignedInArms arms)
  | [], γ, σ, seen, hγ, id, done, fallback, i => by
      rw [choices, Stmt.violationsInArms, Stmt.assignedInArms]
      exact .pure _
  | (condition, body) :: rest, γ, σ, seen, hγ, id, done, fallback, i => by
      rw [choices, Stmt.violationsInArms, Stmt.assignedInArms]
      refine .after (.write _) fun _ => (branchIfFalse_checks hγ condition _).andThen fun _ => ?_
      exact (block_checks body seen hγ).bind fun _ => .after (.write _) fun _ =>
        choices_checks rest _ hγ id done fallback (i + 1)

end

/-! ## Programs -/

theorem enterRoutine_judged {d₀ d : Draft} {fs : List FunctionDecl} {r : Register}
    (hentered : Entered d₀ fs d r) (f : FunctionDecl) :
    Judged (enterRoutine f.name f.params) d
      (if f.name ∈ builtins ∨ f.name ∈ fs.map FunctionDecl.name then
        [.duplicateFunction f.name (builtins.contains f.name)] else [])
      fun _ d' => ∃ r', Entered d₀ (fs ++ [f]) d' r' := by
  have htaken : (builtins.contains f.name || (d.routines.lookup f.name).isSome) =
      decide (f.name ∈ builtins ∨ f.name ∈ fs.map FunctionDecl.name) := by
    have hlookup := @lookup_eq_none_iff fs f.name
    rw [← hentered.routines] at hlookup
    cases hfound : d.routines.lookup f.name <;> simp_all
  by_cases hname : f.name ∈ builtins ∨ f.name ∈ fs.map FunctionDecl.name
  · rw [if_pos hname]
    refine ⟨by simp, fun error rest heq => ?_⟩
    obtain ⟨rfl, -⟩ := List.cons.inj heq
    rw [enterRoutine, htaken, decide_eq_true hname]
    rfl
  · rw [if_neg hname]
    have hok : ∃ d', enterRoutine f.name f.params d = .ok ((), d') := by
      rw [enterRoutine, htaken, decide_eq_false hname]
      exact ⟨_, rfl⟩
    obtain ⟨d', hok⟩ := hok
    exact .ok hok (hentered.step f hok)

theorem enterRoutines_judged {d₀ d : Draft} {fs : List FunctionDecl} {r : Register}
    (hentered : Entered d₀ fs d r) (stmts : List Stmt) :
    Judged (enterRoutines stmts) d
      (Program.violationsOfNames (fs.map FunctionDecl.name) (functionsOf stmts))
      fun _ d' => ∃ r', Entered d₀ (fs ++ functionsOf stmts) d' r' := by
  induction stmts generalizing d fs r with
  | nil => exact .ok rfl ⟨r, by simpa [functionsOf] using hentered⟩
  | cons stmt rest ih =>
      cases stmt with
      | function name params body =>
          refine (enterRoutine_judged hentered ⟨name, params, body⟩).bind ?_
          rintro _ d' ⟨r', hentered'⟩
          simpa [functionsOf] using ih hentered'
      | _ => exact ih hentered

theorem popParams_quiet {γ : Around} {seen params : List String} (h : params ⊆ seen) :
    Checks γ seen (popParams params) [] [] := by
  induction params with
  | nil => exact .pure _
  | cons param rest ih =>
      obtain ⟨hparam, hrest⟩ := List.cons_subset.1 h
      have hcell := @variableCell_checks γ seen param
      rw [if_pos hparam] at hcell
      exact hcell.andThen fun _ => .after (.write _) fun _ => .after (.write _) fun _ => ih hrest

/-- The functions that can be called are the declared ones. -/
theorem sets_of_declared {program : Program} {γ : Around} {inFunction : Bool}
    (hdistinct : (program.declared.map FunctionDecl.name).Nodup)
    (hroutines : γ.routines = program.declared.mapIdx routineOf) (hloops : γ.loops = {})
    (hfunction : γ.inFunction = inFunction) :
    γ.Sets { declared := program.parameterCount?, inFunction, inLoop := false } where
  declared := by
    intro callee
    rw [hroutines]
    dsimp only [Program.parameterCount?]
    cases hfind : program.declared.find? (·.name == callee) with
    | none =>
        have hnone : (program.declared.mapIdx routineOf).lookup callee = none := by
          rw [lookup_eq_none_iff]
          intro hmem
          obtain ⟨f, hf, rfl⟩ := List.mem_map.1 hmem
          simpa using List.find?_eq_none.1 hfind f hf
        rw [hnone]
        rfl
    | some f =>
        obtain ⟨i, hi⟩ := List.getElem?_of_mem (List.mem_of_find?_eq_some hfind)
        have hname : f.name = callee := by simpa using List.find?_some hfind
        rw [← hname, lookup_eq_some hdistinct hi]
        rfl
  inFunction := hfunction
  inLoop := by rw [hloops]; rfl

/-- The draft between two functions, when the first `i` have been lowered. -/
structure Paused (fs : List FunctionDecl) (globals : List String) (i : Nat) (d : Draft) : Prop where
  around : d.around = aroundMain fs
  written : ∃ r, d.scopes = r.scopes ∧ Written fs globals i r

theorem function_judged {program : Program} {i : Nat} {f : FunctionDecl} {d : Draft}
    (hdistinct : (program.declared.map FunctionDecl.name).Nodup)
    (hf : program.declared[i]? = some f) (hpaused : Paused program.declared program.globals i d) :
    Judged (function f.name f.body) d
      (Stmt.violationsInBlock
        { declared := program.parameterCount?, inFunction := true, inLoop := false }
        (f.params ++ program.globals) f.body)
      fun _ d' => Paused program.declared program.globals (i + 1) d' := by
  obtain ⟨haround, r, hscopes, hwritten⟩ := hpaused
  have hroutines : d.routines = program.declared.mapIdx routineOf :=
    congrArg Around.routines haround
  have hi : i < program.declared.length := (List.getElem?_eq_some_iff.1 hf).1
  let inner : Draft := { d with scope := i + 1, inFunction := true }
  have hinner : inner.Sees (aroundFunction program.declared i) (f.params ++ program.globals) r := by
    refine ⟨hscopes, hwritten.sound, ?_, ?_, fun x => ?_⟩
    · rw [aroundFunction, ← haround]
      rfl
    · change i + 1 < _
      rw [hwritten.length]
      omega
    · change r.visible (i + 1) x = none ↔ _
      rw [Register.visible, List.mem_append]
      simp only [hwritten.mem_params le_rfl hf, hwritten.mem_main]
      by_cases hparam : x ∈ f.params <;> by_cases hglobal : x ∈ program.globals <;>
        simp [hparam, hglobal]
  have hsets := sets_of_declared (γ := aroundFunction program.declared i) hdistinct rfl rfl rfl
  have hbody : Checks (aroundFunction program.declared i) (f.params ++ program.globals)
      (do
        note ("function " ++ f.name ++ "(" ++ ", ".intercalate f.params ++ ")")
        anchor (Place.entry f.name).label
        popParams f.params.reverse
        block f.body
        returnFrom (← literal 0)) _ _ :=
    .after (.write _) fun _ => .after (.write _) fun _ =>
      (popParams_quiet (by simp)).andThen fun _ => (block_checks f.body _ hsets).before
        fun _ => .bind (.literal _) fun _ => returnFrom_quiet _
  have hassoc : function f.name f.body = (do
      let routine ← routine f.name
      modify fun draft => { draft with scope := routine.scope, inFunction := true }
      (do
        note ("function " ++ f.name ++ "(" ++ ", ".intercalate routine.params ++ ")")
        anchor routine.start
        popParams routine.params.reverse
        block f.body
        returnFrom (← literal 0))
      modify fun draft => { draft with scope := Scopes.root, inFunction := false }) := by
    simp only [function, bind_assoc]
  rw [hassoc]
  have hroutine : routine f.name d = .ok ((routineOf i f).2, d) := by
    rw [routine, hroutines, lookup_eq_some hdistinct hf]
  have henter : (modify fun draft => { draft with scope := i + 1, inFunction := true } :
      Lowering Unit) d = .ok ((), inner) := rfl
  refine .step hroutine (.step henter ((hbody hinner).last ?_))
  rintro _ d' ⟨r', hsees', hgrows⟩
  refine .ok rfl ⟨?_, r', hsees'.scopes, hwritten.step hf hgrows⟩
  have hloops := congrArg Around.loops hsees'.around
  have hroutines' := congrArg Around.routines hsees'.around
  simp only [Draft.around, aroundFunction, aroundMain] at hloops hroutines' ⊢
  rw [hloops, hroutines']
  rfl

theorem functions_judged {program : Program}
    (hdistinct : (program.declared.map FunctionDecl.name).Nodup) (stmts : List Stmt) {i : Nat}
    (hstmts : functionsOf stmts = program.declared.drop i) {d : Draft}
    (hpaused : Paused program.declared program.globals i d) :
    Judged (functions stmts) d
      ((functionsOf stmts).flatMap fun f => Stmt.violationsInBlock
        { declared := program.parameterCount?, inFunction := true, inLoop := false }
        (f.params ++ program.globals) f.body)
      fun _ _ => True := by
  induction stmts generalizing i d with
  | nil => exact .ok rfl trivial
  | cons stmt rest ih =>
      cases stmt with
      | function name params body =>
          have hf : program.declared[i]? = some ⟨name, params, body⟩ := by
            have hget := congrArg (fun l => l[0]?) hstmts
            simpa [functionsOf] using hget.symm
          have hdrop : functionsOf rest = program.declared.drop (i + 1) := by
            have htail := congrArg List.tail hstmts
            simpa [functionsOf] using htail
          exact (function_judged hdistinct hf hpaused).bind fun _ _ hpaused' => ih hdrop hpaused'
      | _ => exact ih hstmts hpaused

theorem program_judged (p : Program) (sheet : Sheet) :
    Judged (program p) { sheet } p.violations fun _ _ => True := by
  refine (enterRoutines_judged (entered_nil rfl rfl) p.functions).bind ?_
  rintro _ d ⟨r, hentered⟩
  rw [List.nil_append] at hentered
  have haround : d.around = aroundMain p.declared := by
    rw [hentered.rest]
    simp only [Draft.around, aroundMain, hentered.routines]
    rfl
  have hsees : Draft.Sees { d with sheet := d.sheet.note "main" } (aroundMain p.declared) [] r := by
    refine ⟨hentered.scopes, hentered.sound, haround, hentered.sound.length_pos, fun x => ?_⟩
    exact iff_of_true (hentered.visible_main x) List.not_mem_nil
  have hsets := sets_of_declared (γ := aroundMain p.declared) hentered.distinct rfl rfl rfl
  refine .step rfl ((block_checks p.main [] hsets hsees).bind ?_)
  rintro _ d' ⟨r', hsees', hgrows⟩
  have hpaused : Paused p.declared p.globals 0 { d' with sheet := d'.sheet.op .hlt } :=
    ⟨hsees'.around, r', hsees'.scopes, hentered.written hgrows⟩
  exact .step rfl ((functions_judged hentered.distinct p.functions rfl hpaused).last
    fun _ _ _ => .step rfl (.ok rfl trivial))

end Lowering

/-- The compiler accepts the programs without violations, and of any other program it
reports the first violation. -/
theorem Program.compile_verdict (program : Program) (takesNotes : Bool) :
    ((∃ compilation, program.compile takesNotes = .ok compilation) ↔ program.violations = []) ∧
      ∀ error, program.compile takesNotes = .error error ↔
        program.violations.head? = some error := by
  obtain ⟨hok, herror⟩ := Lowering.program_judged program { takesNotes }
  unfold Program.compile
  cases hviolations : program.violations with
  | nil =>
      obtain ⟨_, d, hlower, -⟩ := hok hviolations
      rw [hlower]
      simp [Except.map]
  | cons first rest =>
      rw [herror first rest hviolations]
      simp [Except.map]

end LittleMan
