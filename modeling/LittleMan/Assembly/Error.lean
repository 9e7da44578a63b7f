import LittleMan.Word

/-!
# Faults of assembly texts

Lines count from one.  The first fault found is the only one reported.
-/

namespace LittleMan

inductive AssembleError where
  | malformedLine (line : Nat) (text : String)
  | unknownOpcode (line : Nat) (word : String)
  | missingOperand (line : Nat) (opcode : String)
  | unexpectedOperand (line : Nat) (opcode operand : String)
  | duplicateLabel (line : Nat) (label : String) (firstLine : Nat)
  | undefinedSymbol (line : Nat) (symbol : String)
  | operandOverflow (line : Nat) (operand : Word)
  | programTooLarge (words : Nat)
deriving DecidableEq, Repr

namespace AssembleError

def line? : AssembleError → Option Nat
  | .malformedLine line _ | .unknownOpcode line _ | .missingOperand line _
  | .unexpectedOperand line _ _ | .duplicateLabel line _ _ | .undefinedSymbol line _
  | .operandOverflow line _ => some line
  | .programTooLarge _ => none

def cause : AssembleError → String
  | .malformedLine _ text =>
      "malformed line '" ++ text ++
        "'\n  hint: expected '[label] OPCODE [operand] [// comment]'"
  | .unknownOpcode _ word => "unknown opcode '" ++ word ++ "'"
  | .missingOperand _ opcode => opcode ++ " requires an operand"
  | .unexpectedOperand _ opcode operand =>
      opcode ++ " takes no operand, got '" ++ operand ++ "'"
  | .duplicateLabel _ label firstLine =>
      "duplicate label '" ++ label ++ "' (first defined on line " ++ toString firstLine ++ ")"
  | .undefinedSymbol _ symbol => "undefined symbol '" ++ symbol ++ "'"
  | .operandOverflow _ operand =>
      "operand " ++ operand.text ++ " does not fit in three digits"
  | .programTooLarge words =>
      "program needs " ++ toString words ++ " words but the address space holds 1000"

def message (error : AssembleError) : String :=
  "assemble error: " ++
    error.line?.elim "" (fun line => "line " ++ toString line ++ ": ") ++ error.cause

end AssembleError
end LittleMan
