import LittleMan.Assembly.Image
import LittleMan.Binary.Bytes

/-!
# Images as bytes

An image is written as its memory, its label table in the order of the names, and
its instructions.  When a table is read back, a later entry of a name replaces an
earlier one.
-/

namespace LittleMan

def Opcode.toBytes (op : Opcode) : Bytes :=
  Bytes.ofNat (Opcode.all.idxOf op)

namespace Operand

def toBytes : Operand → Bytes
  | .none => Bytes.ofNat 0
  | .value n => Bytes.ofNat 1 ++ Bytes.ofWord n
  | .label name => Bytes.ofNat 2 ++ Bytes.ofString name

def decoder : Decoder Operand := do
  match ← Decoder.index with
  | 0 => return .none
  | 1 => return .value (← Decoder.word)
  | 2 => return .label (← Decoder.string)
  | _ => throw .badVariant

end Operand

namespace Instruction

def toBytes (instruction : Instruction) : Bytes :=
  Bytes.ofOption Bytes.ofString instruction.label ++ instruction.opcode.toBytes ++
    instruction.operand.toBytes ++ Bytes.ofNat instruction.line

def decoder : Decoder Instruction := do
  let label ← Decoder.option Decoder.string
  let opcode ← Decoder.variant Opcode.all
  let operand ← Operand.decoder
  let line ← Decoder.nat
  return { label, opcode, operand, line }

end Instruction

namespace Labels

def toBytes (labels : Labels) : Bytes :=
  Bytes.ofList (fun entry => Bytes.ofString entry.1 ++ Bytes.ofNat entry.2) labels.entries

def entryDecoder : Decoder (String × Nat) := do
  let name ← Decoder.string
  let address ← Decoder.nat
  return (name, address)

def decoder : Decoder Labels :=
  ofList <$> Decoder.list entryDecoder

end Labels

namespace Image

def toBytes (image : Image) : Bytes :=
  Bytes.ofList Bytes.ofWord image.memory.toList ++ image.labels.toBytes ++
    Bytes.ofList Instruction.toBytes image.instructions.toList

def decoder : Decoder Image := do
  let memory ← Decoder.list Decoder.word
  let labels ← Labels.decoder
  let instructions ← Decoder.list Instruction.decoder
  return { memory := memory.toArray, labels, instructions := instructions.toArray }

/-- Bytes after the end of the image are not looked at. -/
def ofBytes (bytes : Bytes) : Except DecodeError Image :=
  (decoder bytes).map Prod.fst

end Image
end LittleMan
