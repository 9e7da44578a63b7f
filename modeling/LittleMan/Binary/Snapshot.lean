import LittleMan.Binary.Bytes
import LittleMan.Machine

/-!
# Snapshots as bytes

A snapshot is written as its memory, accumulator, program counter, stack from the
bottom to the top, and status.
-/

namespace LittleMan

def Status.all : List Status :=
  [.running, .halted, .awaitingInput]

namespace Snapshot

def toBytes (snapshot : Snapshot) : Bytes :=
  Bytes.ofList Bytes.ofWord snapshot.memory.toList ++ Bytes.ofWord snapshot.accumulator ++
    Bytes.ofNat snapshot.pc ++ Bytes.ofList Bytes.ofWord snapshot.stack.reverse ++
    Bytes.ofNat (Status.all.idxOf snapshot.status)

def decoder : Decoder Snapshot := do
  let memory ← Decoder.list Decoder.word
  let accumulator ← Decoder.word
  let pc ← Decoder.nat
  let stack ← Decoder.list Decoder.word
  let status ← Decoder.variant Status.all
  return { memory := memory.toArray, accumulator, pc, stack := stack.reverse, status }

/-- Bytes after the end of the snapshot are not looked at. -/
def ofBytes (bytes : Bytes) : Except DecodeError Snapshot :=
  (decoder bytes).map Prod.fst

end Snapshot
end LittleMan
