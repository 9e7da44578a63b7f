import LittleMan.Proofs.Blueprint.Emission
import LittleMan.Proofs.Word

/-!
# Views of a machine

A view is the state of a machine that runs the code of a program, with the cells taken
by name instead of by address.  A layout says where the places of the code are.
`Layout.turn` executes one order on a view; it can go on, halt, wait for input or meet a
fault.

Runs are followed by lemmas on short blocks of code.  Each says where a block that stands
in the code leads, and which cells it changes.
-/

namespace LittleMan

@[ext] structure View where
  pc : Nat
  acc : Word
  cells : Cell → Word
  stack : List Word
  queue : List Word
  output : List Output

/-- What an order comes to.  An order without its proper operand is stuck. -/
inductive Turn where
  | goes (v : View)
  | halts
  | waits
  | faults (cause : FaultCause)
  | stuck

/-- Code, the addresses of its places, the words of the memory and the bound of the
stack. -/
structure Layout where
  code : List Entry
  place : Place → Nat
  size : Nat
  maxStack : Nat

namespace View

/-- Before the first step. -/
def start (inputs : List Word) : View where
  pc := 0
  acc := 0
  cells := Cell.initial
  stack := []
  queue := inputs
  output := []

def next (v : View) : View :=
  { v with pc := v.pc + 1 }

def load (v : View) (value : Word) : View :=
  { v with acc := value, pc := v.pc + 1 }

def store (v : View) (c : Cell) : View :=
  { v with cells := Function.update v.cells c v.acc, pc := v.pc + 1 }

def jump (v : View) (address : Nat) : View :=
  { v with pc := address }

def put (v : View) (output : Output) : View :=
  { v with output := v.output ++ [output], pc := v.pc + 1 }

def push (v : View) : View :=
  { v with stack := v.acc :: v.stack, pc := v.pc + 1 }

def pull (v : View) (top : Word) (rest : List Word) : View :=
  { v with acc := top, stack := rest, pc := v.pc + 1 }

def take (v : View) (value : Word) (queue : List Word) : View :=
  { v with acc := value, queue, pc := v.pc + 1 }

end View

namespace Layout

/-- A sum or a difference goes to the accumulator if it is a word. -/
def calculate (v : View) : Option Word → Turn
  | some value => .goes (v.load value)
  | none => .faults .arithmeticOverflow

/-- Executes one order. -/
def turn (L : Layout) : Opcode → Target → View → Turn
  | .lda, .cell c, v => .goes (v.load (v.cells c))
  | .add, .cell c, v => calculate v (v.acc.add? (v.cells c))
  | .sub, .cell c, v => calculate v (v.acc.sub? (v.cells c))
  | .sta, .cell c, v => .goes (v.store c)
  | .bra, .place l, v => .goes (v.jump (L.place l))
  | .brz, .place l, v => .goes (if v.acc = 0 then v.jump (L.place l) else v.next)
  | .brp, .place l, v => .goes (if 0 ≤ v.acc.toInt then v.jump (L.place l) else v.next)
  | .hlt, .none, _ => .halts
  | .nop, .none, v => .goes v.next
  | .pop, .none, v =>
      match v.stack with
      | top :: rest => .goes (v.pull top rest)
      | [] => .faults .stackUnderflow
  | .psh, .none, v =>
      if L.maxStack ≤ v.stack.length then .faults (.stackOverflow L.maxStack)
      else .goes v.push
  | .ldaPc, .none, v => .goes (v.load (Word.ofAddress (v.pc + 1)))
  | .ret, .none, v =>
      match v.acc.address? with
      | some a =>
          if a < L.size then .goes (v.jump a) else .faults (.addressOutOfBounds v.acc L.size)
      | none => .faults (.addressOutOfBounds v.acc L.size)
  | .inp, .none, v =>
      match v.queue with
      | value :: queue => .goes (v.take value queue)
      | [] => .waits
  | .out, .none, v => .goes (v.put (.number v.acc))
  | .outC, .none, v => .goes (v.put (.char (Machine.charOf v.acc)))
  | _, _, _ => .stuck

/-- The order at the program counter comes to this. -/
def Turns (L : Layout) (v : View) (t : Turn) : Prop :=
  ∃ op target, OrderAt L.code v.pc op target ∧ L.turn op target v = t

def Goes (L : Layout) (v v' : View) : Prop :=
  L.Turns v (.goes v')

def Runs (L : Layout) : View → View → Prop :=
  Relation.ReflTransGen L.Goes

/-- The run from a view meets an overflow. -/
def Overflows (L : Layout) (v : View) : Prop :=
  ∃ v', L.Runs v v' ∧ L.Turns v' (.faults .arithmeticOverflow)

theorem Turns.unique {L : Layout} {v : View} {t t' : Turn} (h : L.Turns v t)
    (h' : L.Turns v t') : t = t' := by
  obtain ⟨op, target, ⟨place, hget⟩, rfl⟩ := h
  obtain ⟨op', target', ⟨place', hget'⟩, rfl⟩ := h'
  rw [hget, Option.some.injEq, Entry.mk.injEq] at hget'
  obtain ⟨-, rfl, rfl⟩ := hget'
  rfl

theorem Overflows.of_runs {L : Layout} {v v' : View} (h : L.Runs v v') (h' : L.Overflows v') :
    L.Overflows v := by
  obtain ⟨u, hruns, hturns⟩ := h'
  exact ⟨u, h.trans hruns, hturns⟩

end Layout
end LittleMan
