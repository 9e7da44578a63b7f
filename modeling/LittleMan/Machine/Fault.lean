import LittleMan.Text.Pad
import LittleMan.Word

/-!
# Faults of the machine

A fault stops the machine at an instruction that it cannot execute, and names the
address of that instruction.  It is never a `HLT`.
-/

namespace LittleMan

inductive FaultCause where
  | stackUnderflow
  | stackOverflow (limit : Nat)
  | unknownOpcode (word : Word)
  | addressOutOfBounds (address : Word) (size : Nat)
  | arithmeticOverflow
  | stepLimitExceeded (limit : Nat)
  | invalidInput (text : String)
deriving DecidableEq, Repr

structure Fault where
  pc : Nat
  cause : FaultCause
deriving DecidableEq, Repr

def FaultCause.message : FaultCause → String
  | .stackUnderflow => "POP on an empty stack"
  | .stackOverflow limit => "stack size limit exceeded (" ++ toString limit ++ ")"
  | .unknownOpcode word =>
      "word " ++ word.text ++ " is not an instruction" ++
        "\n  hint: execution probably ran into a data cell"
  | .addressOutOfBounds address size =>
      "address " ++ address.text ++ " outside memory of " ++ toString size ++ " words"
  | .arithmeticOverflow => "accumulator overflow"
  | .stepLimitExceeded limit =>
      "execution step limit exceeded (" ++ toString limit ++ ")" ++
        "\n  hint: possible infinite loop"
  | .invalidInput text => "input '" ++ text ++ "' is not an integer"

def Fault.message (fault : Fault) : String :=
  "runtime error at " ++ Text.address fault.pc ++ ": " ++ fault.cause.message

end LittleMan
