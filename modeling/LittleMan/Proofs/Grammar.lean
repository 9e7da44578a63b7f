import LittleMan.Program.Reader
import Mathlib

/-!
# The grammar of the language

A production rewrites a phrase into pieces: tokens that stand for themselves and further
phrases.  A phrase carries the tree that it means, so that a derivation of a list of tokens
is also a reading of it.  `Derives pieces ts rest` says that `ts` consists of the pieces, one
after the other, and `rest`.

Expressions have one phrase for every level.  Sums, products, conjunctions and disjunctions
have a phrase of their own level on the left, powers on the right, and comparisons on
neither side.  Functions are declared in a program and nowhere else.

Lines matter in one place.  A `return` has a value exactly if the token after it stands on
its line and can start an expression.
-/

namespace LittleMan

inductive Phrase where
  | expr (level : Level) (e : Expr)
  | args (es : List Expr)
  | stmt (s : Stmt)
  | block (body : List Stmt)
  | elseIfs (arms : List (Expr × List Stmt))
  | cases (arms : List (Expr × List Stmt))
  | params (names : List String)
  | declaration (s : Stmt)
  | program (body : List Stmt)

/-- A piece of a production.  `returning` is the token `return`, and tells whether a value
comes with it. -/
inductive Piece where
  | token (t : Token)
  | returning (valued : Bool)
  | phrase (p : Phrase)

namespace Piece

abbrev whole (e : Expr) : Piece := .phrase (.expr .disjunction e)

abbrev body (b : List Stmt) : Piece := .phrase (.block b)

end Piece

open Piece in
inductive Production : Phrase → List Piece → Prop
  -- expressions
  | descend {level : Level} {e : Expr} (h : level ≠ .primary) :
      Production (.expr level e) [phrase (.expr level.operand e)]
  | chain {level : Level} {t : Token} {op : BinaryOp} {l r : Expr}
      (h : level.operator? t = some op) :
      Production (.expr level (.binary l op r))
        [phrase (.expr level l), token t, phrase (.expr level.operand r)]
  | not {e : Expr} :
      Production (.expr .negation (.unary .not e)) [token .not, phrase (.expr .negation e)]
  | compare {t : Token} {op : BinaryOp} {l r : Expr} (h : Level.comparison? t = some op) :
      Production (.expr .comparison (.binary l op r))
        [phrase (.expr .sum l), token t, phrase (.expr .sum r)]
  | power {l r : Expr} :
      Production (.expr .power (.binary l .pow r))
        [phrase (.expr .signed l), token .caret, phrase (.expr .power r)]
  | neg {e : Expr} :
      Production (.expr .signed (.unary .neg e)) [token .minus, phrase (.expr .signed e)]
  | integer (value : Word) : Production (.expr .primary (.integer value)) [token (.integer value)]
  | bool (value : Bool) : Production (.expr .primary (.bool value)) [token (.bool value)]
  | text (content : String) : Production (.expr .primary (.text content)) [token (.text content)]
  | name (word : String) : Production (.expr .primary (.name word)) [token (.name word)]
  | callBare (callee : String) :
      Production (.expr .primary (.call callee []))
        [token (.name callee), token .leftParen, token .rightParen]
  | call {callee : String} {args : List Expr} :
      Production (.expr .primary (.call callee args))
        [token (.name callee), token .leftParen, phrase (.args args), token .rightParen]
  | group {e : Expr} :
      Production (.expr .primary (.group e)) [token .leftParen, whole e, token .rightParen]
  | lastArg {e : Expr} : Production (.args [e]) [whole e]
  | moreArgs {e : Expr} {es : List Expr} :
      Production (.args (e :: es)) [whole e, token .comma, phrase (.args es)]
  -- statements
  | assign {name : String} {e : Expr} :
      Production (.stmt (.assign name e)) [token (.name name), token .assign, whole e]
  | evaluateBare (callee : String) :
      Production (.stmt (.evaluate (.call callee [])))
        [token (.name callee), token .leftParen, token .rightParen]
  | evaluate {callee : String} {args : List Expr} :
      Production (.stmt (.evaluate (.call callee args)))
        [token (.name callee), token .leftParen, phrase (.args args), token .rightParen]
  | choose {e : Expr} {b : List Stmt} {arms : List (Expr × List Stmt)} :
      Production (.stmt (.choose ((e, b) :: arms) none))
        [token .ifKw, whole e, token .thenKw, body b, phrase (.elseIfs arms), token .endIfKw]
  | chooseElse {e : Expr} {b otherwise : List Stmt} {arms : List (Expr × List Stmt)} :
      Production (.stmt (.choose ((e, b) :: arms) (some otherwise)))
        [token .ifKw, whole e, token .thenKw, body b, phrase (.elseIfs arms), token .elseKw,
          body otherwise, token .endIfKw]
  | whileLoop {e : Expr} {b : List Stmt} :
      Production (.stmt (.whileLoop e b)) [token .whileKw, whole e, body b, token .endWhileKw]
  | untilLoop {e : Expr} {b : List Stmt} :
      Production (.stmt (.untilLoop b e)) [token .doKw, body b, token .untilKw, whole e]
  | forLoop {var closing : String} {first last : Expr} {b : List Stmt} :
      Production (.stmt (.forLoop var first last b closing))
        [token .forKw, token (.name var), token .assign, whole first, token .toKw, whole last,
          body b, token .nextKw, token (.name closing)]
  | switch {e : Expr} {arms : List (Expr × List Stmt)} :
      Production (.stmt (.switch e arms none))
        [token .switchKw, whole e, token .colon, phrase (.cases arms), token .endSwitchKw]
  | switchDefault {e : Expr} {arms : List (Expr × List Stmt)} {otherwise : List Stmt} :
      Production (.stmt (.switch e arms (some otherwise)))
        [token .switchKw, whole e, token .colon, phrase (.cases arms), token .defaultKw,
          token .colon, body otherwise, token .endSwitchKw]
  | giveBack {e : Expr} : Production (.stmt (.giveBack (some e))) [returning true, whole e]
  | giveBackNothing : Production (.stmt (.giveBack none)) [returning false]
  | leaveLoop : Production (.stmt .leaveLoop) [token .breakKw]
  | nextPass : Production (.stmt .nextPass) [token .continueKw]
  -- lists of statements and of arms
  | blockEnd : Production (.block []) []
  | blockMore {s : Stmt} {b : List Stmt} : Production (.block (s :: b)) [phrase (.stmt s), body b]
  | elseIfsEnd : Production (.elseIfs []) []
  | elseIfsMore {e : Expr} {b : List Stmt} {arms : List (Expr × List Stmt)} :
      Production (.elseIfs ((e, b) :: arms))
        [token .elseIfKw, whole e, token .thenKw, body b, phrase (.elseIfs arms)]
  | casesEnd : Production (.cases []) []
  | casesMore {e : Expr} {b : List Stmt} {arms : List (Expr × List Stmt)} :
      Production (.cases ((e, b) :: arms))
        [token .caseKw, whole e, token .colon, body b, phrase (.cases arms)]
  -- programs
  | lastParam (name : String) : Production (.params [name]) [token (.name name)]
  | moreParams {name : String} {names : List String} :
      Production (.params (name :: names)) [token (.name name), token .comma, phrase (.params names)]
  | functionBare {name : String} {b : List Stmt} :
      Production (.declaration (.function name [] b))
        [token .functionKw, token (.name name), token .leftParen, token .rightParen, body b,
          token .endFunctionKw]
  | function {name : String} {params : List String} {b : List Stmt} :
      Production (.declaration (.function name params b))
        [token .functionKw, token (.name name), token .leftParen, phrase (.params params),
          token .rightParen, body b, token .endFunctionKw]
  | programEnd : Production (.program []) []
  | programStmt {s : Stmt} {b : List Stmt} :
      Production (.program (s :: b)) [phrase (.stmt s), phrase (.program b)]
  | programFunction {s : Stmt} {b : List Stmt} :
      Production (.program (s :: b)) [phrase (.declaration s), phrase (.program b)]

def Spanned.takesValue (t : Spanned) (next : Option Spanned) : Bool :=
  next.any fun u => u.pos.line == t.pos.line && u.token.startsExpression

/-- The tokens consist of the pieces and the rest. -/
inductive Derives : List Piece → List Spanned → List Spanned → Prop
  | nil {ts : List Spanned} : Derives [] ts ts
  | token {tok : Token} {pieces : List Piece} {t : Spanned} {ts rest : List Spanned}
      (h : t.token = tok) (more : Derives pieces ts rest) :
      Derives (.token tok :: pieces) (t :: ts) rest
  | returning {valued : Bool} {pieces : List Piece} {t : Spanned} {ts rest : List Spanned}
      (h : t.token = .returnKw) (hvalued : t.takesValue ts.head? = valued)
      (more : Derives pieces ts rest) :
      Derives (.returning valued :: pieces) (t :: ts) rest
  | phrase {p : Phrase} {inner pieces : List Piece} {ts mid rest : List Spanned}
      (production : Production p inner) (here : Derives inner ts mid)
      (more : Derives pieces mid rest) : Derives (.phrase p :: pieces) ts rest

namespace Derives

variable {pieces more inner : List Piece} {p : Phrase} {ts mid rest : List Spanned}

theorem of_production (h : Production p inner) (hinner : Derives inner ts rest) :
    Derives [.phrase p] ts rest :=
  .phrase h hinner .nil

theorem append (h : Derives pieces ts mid) (h' : Derives more mid rest) :
    Derives (pieces ++ more) ts rest := by
  induction h with
  | nil => exact h'
  | token htoken _ ih => exact .token htoken (ih h')
  | returning htoken hvalued _ ih => exact .returning htoken hvalued (ih h')
  | phrase production here _ _ ih => exact .phrase production here (ih h')

theorem cons {piece : Piece} (h : Derives [piece] ts mid) (h' : Derives pieces mid rest) :
    Derives (piece :: pieces) ts rest :=
  h.append h'

theorem split {piece : Piece} (h : Derives (piece :: pieces) ts rest) :
    ∃ mid, Derives [piece] ts mid ∧ Derives pieces mid rest := by
  cases h with
  | token htoken more => exact ⟨_, .token htoken .nil, more⟩
  | returning htoken hvalued more => exact ⟨_, .returning htoken hvalued .nil, more⟩
  | phrase production here more => exact ⟨_, .phrase production here .nil, more⟩

theorem token_inv {tok : Token} (h : Derives (.token tok :: pieces) ts rest) :
    ∃ t ts', ts = t :: ts' ∧ t.token = tok ∧ Derives pieces ts' rest := by
  cases h with
  | token htoken more => exact ⟨_, _, rfl, htoken, more⟩

theorem returning_inv {valued : Bool} (h : Derives (.returning valued :: pieces) ts rest) :
    ∃ t ts', ts = t :: ts' ∧ t.token = .returnKw ∧ t.takesValue ts'.head? = valued ∧
      Derives pieces ts' rest := by
  cases h with
  | returning htoken hvalued more => exact ⟨_, _, rfl, htoken, hvalued, more⟩

theorem phrase_inv (h : Derives [.phrase p] ts rest) :
    ∃ inner, Production p inner ∧ Derives inner ts rest := by
  cases h with
  | phrase production here more =>
      cases more with
      | nil => exact ⟨_, production, here⟩

theorem nil_inv (h : Derives [] ts rest) : ts = rest := by
  cases h with
  | nil => rfl

end Derives

/-! ## What pieces begin with -/

namespace Level

/-- The tokens that an expression of a level can start with. -/
def starts (level : Level) (t : Token) : Bool :=
  t.startsExpression &&
    match level with
    | .disjunction | .conjunction | .negation => true
    | .primary => t != .not && t != .minus
    | _ => t != .not

end Level

def Token.isName : Token → Bool
  | .name _ => true
  | _ => false

def Token.startsStatement : Token → Bool
  | .name _ | .ifKw | .whileKw | .doKw | .forKw | .switchKw | .returnKw | .breakKw
  | .continueKw => true
  | _ => false

/-- Pieces that take up a token at least, with the tokens that they can start with. -/
def Piece.starts? : Piece → Option (Token → Bool)
  | .token tok => some fun t => t == tok
  | .returning _ => some fun t => t == .returnKw
  | .phrase (.expr level _) => some level.starts
  | .phrase (.args _) => some Token.startsExpression
  | .phrase (.stmt _) => some Token.startsStatement
  | .phrase (.params _) => some Token.isName
  | .phrase (.declaration _) => some fun t => t == .functionKw
  | .phrase (.block _) | .phrase (.elseIfs _) | .phrase (.cases _) | .phrase (.program _) => none

theorem Level.starts_operand {level : Level} {t : Token} (h : level.operand.starts t = true) :
    level.starts t = true := by
  cases level <;> simp_all [Level.starts, Level.operand]

theorem Production.starts {p : Phrase} {inner : List Piece} (h : Production p inner)
    {starts : Token → Bool} (hstarts : (Piece.phrase p).starts? = some starts) :
    ∃ piece more starts', inner = piece :: more ∧ piece.starts? = some starts' ∧
      ∀ t, starts' t = true → starts t = true := by
  cases h <;> cases hstarts <;> refine ⟨_, _, _, rfl, rfl, fun t ht => ?_⟩
  case descend => exact Level.starts_operand ht
  case chain => exact ht
  case compare => exact @Level.starts_operand .comparison t ht
  case power => exact @Level.starts_operand .power t ht
  case lastArg => simpa [Level.starts] using ht
  case moreArgs => simpa [Level.starts] using ht
  all_goals
    obtain rfl := eq_of_beq ht
    rfl

theorem Derives.length_le {pieces : List Piece} {ts rest : List Spanned}
    (h : Derives pieces ts rest) : rest.length ≤ ts.length := by
  induction h with
  | nil => exact le_rfl
  | token _ _ ih => exact ih.trans (Nat.le_succ _)
  | returning _ _ _ ih => exact ih.trans (Nat.le_succ _)
  | phrase _ _ _ ihere imore => exact imore.trans ihere

theorem Derives.starts {pieces : List Piece} {ts rest : List Spanned} (h : Derives pieces ts rest)
    {piece : Piece} {more : List Piece} (hpieces : pieces = piece :: more)
    {starts : Token → Bool} (hstarts : piece.starts? = some starts) :
    ∃ t ts', ts = t :: ts' ∧ starts t.token = true ∧ rest.length ≤ ts'.length := by
  induction h generalizing piece more starts with
  | nil => cases hpieces
  | token htoken hmore =>
      cases hpieces
      cases hstarts
      exact ⟨_, _, rfl, by simp [htoken], hmore.length_le⟩
  | returning htoken _ hmore =>
      cases hpieces
      cases hstarts
      exact ⟨_, _, rfl, by simp [htoken], hmore.length_le⟩
  | phrase production _ hmore ihere _ =>
      cases hpieces
      obtain ⟨first, others, starts', hinner, hfirst, hsub⟩ := production.starts hstarts
      obtain ⟨t, ts', hts, ht, hlength⟩ := ihere hinner hfirst
      exact ⟨t, ts', hts, hsub _ ht, hmore.length_le.trans hlength⟩

/-! ## What comes after -/

theorem Production.eof_not_mem {p : Phrase} {inner : List Piece} (h : Production p inner) :
    Piece.token .eof ∉ inner := by
  cases h
  case chain level t op l r h => cases level <;> cases t <;> simp_all [Level.operator?]
  case compare t op l r h => cases t <;> simp_all [Level.comparison?]
  all_goals simp

/-- What is read does not depend on what comes after it, but for the value of a `return` at
its very end. -/
theorem Derives.change {pieces : List Piece} {ts rest : List Spanned} (h : Derives pieces ts rest)
    (hproper : Piece.token .eof ∉ pieces) :
    ∃ used, ts = used ++ rest ∧ (∀ t ∈ used, t.token ≠ .eof) ∧
      ∀ rest' : List Spanned,
        (∀ t : Spanned, t.takesValue rest'.head? = t.takesValue rest.head?) →
        Derives pieces (used ++ rest') rest' := by
  have hhead : ∀ {used rest rest' : List Spanned},
      (∀ t : Spanned, t.takesValue rest'.head? = t.takesValue rest.head?) →
      ∀ t : Spanned, t.takesValue (used ++ rest').head? = t.takesValue (used ++ rest).head? := by
    intro used rest rest' hsame t
    cases used with
    | nil => exact hsame t
    | cons u used => rfl
  induction h with
  | nil => exact ⟨[], rfl, by simp, fun _ _ => .nil⟩
  | @token tok pieces t ts rest htoken _ ih =>
      obtain ⟨used, rfl, hused, hchange⟩ := ih fun hmem => hproper (.tail _ hmem)
      refine ⟨t :: used, rfl, ?_, fun rest' hsame => .token htoken (hchange rest' hsame)⟩
      refine List.forall_mem_cons.2 ⟨?_, hused⟩
      rintro heof
      rw [← htoken, heof] at hproper
      exact hproper (.head _)
  | @returning valued pieces t ts rest htoken hvalued _ ih =>
      obtain ⟨used, rfl, hused, hchange⟩ := ih fun hmem => hproper (.tail _ hmem)
      refine ⟨t :: used, rfl, ?_, fun rest' hsame => ?_⟩
      · exact List.forall_mem_cons.2 ⟨by simp [htoken], hused⟩
      · exact .returning htoken ((hhead hsame t).trans hvalued) (hchange rest' hsame)
  | phrase production _ _ ihere imore =>
      obtain ⟨first, rfl, hfirst, hchangeHere⟩ := ihere production.eof_not_mem
      obtain ⟨second, rfl, hsecond, hchangeMore⟩ := imore fun hmem => hproper (.tail _ hmem)
      refine ⟨first ++ second, by simp, ?_, fun rest' hsame => ?_⟩
      · exact List.forall_mem_append.2 ⟨hfirst, hsecond⟩
      · rw [List.append_assoc]
        exact .phrase production (hchangeHere _ (hhead hsame)) (hchangeMore rest' hsame)

/-! ## Chains of operators -/

/-- Operators of a level with their right operands, after a left one. -/
inductive Chain (level : Level) : Expr → List Spanned → Expr → List Spanned → Prop
  | done {e : Expr} {ts : List Spanned} : Chain level e ts e ts
  | more {l r e : Expr} {op : BinaryOp} {t : Spanned} {ts mid rest : List Spanned}
      (operator : level.operator? t.token = some op)
      (operand : Derives [.phrase (.expr level.operand r)] ts mid)
      (next : Chain level (.binary l op r) mid e rest) : Chain level l (t :: ts) e rest

namespace Chain

variable {level : Level} {first l r e : Expr} {ts mid rest : List Spanned}

theorem snoc {op : BinaryOp} {t : Spanned} (h : Chain level first ts l (t :: mid))
    (hoperator : level.operator? t.token = some op)
    (hoperand : Derives [.phrase (.expr level.operand r)] mid rest) :
    Chain level first ts (.binary l op r) rest := by
  generalize hrest : t :: mid = rest' at h
  induction h with
  | done =>
      subst hrest
      exact .more hoperator hoperand .done
  | more operator operand _ ih => exact .more operator operand (ih hrest)

/-- A chain leans to the left. -/
theorem derives (h : Chain level first mid e rest)
    (hfirst : Derives [.phrase (.expr level first)] ts mid) :
    Derives [.phrase (.expr level e)] ts rest := by
  induction h with
  | done => exact hfirst
  | more operator operand _ ih =>
      refine ih (.of_production (.chain operator) ?_)
      exact hfirst.cons (.token rfl operand)

/-- An expression of a level that chains is a first operand and a chain. -/
theorem of_derives {level : Level} {e : Expr} {ts rest : List Spanned}
    (h : Derives [.phrase (.expr level e)] ts rest)
    (hlevel : level = .disjunction ∨ level = .conjunction ∨ level = .sum ∨ level = .product) :
    ∃ first mid, Derives [.phrase (.expr level.operand first)] ts mid ∧
      Chain level first mid e rest := by
  obtain ⟨inner, production, hinner⟩ := h.phrase_inv
  cases production with
  | descend => exact ⟨e, rest, hinner, .done⟩
  | @chain _ t op l r hoperator =>
      obtain ⟨mid, hleft, hmore⟩ := hinner.split
      obtain ⟨t', mid', rfl, rfl, hright⟩ := hmore.token_inv
      obtain ⟨first, start, hfirst, hchain⟩ := Chain.of_derives hleft hlevel
      exact ⟨first, start, hfirst, hchain.snoc hoperator hright⟩
  | _ => simp at hlevel
termination_by sizeOf e

end Chain

end LittleMan
