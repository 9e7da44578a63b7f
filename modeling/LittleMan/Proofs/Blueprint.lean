import LittleMan.Report
import Mathlib

/-!
# Blueprints

The lowering writes text: cells and places are labels, and a label is a string.
A blueprint is the same code before the labels are spelled out.  A cell knows
whether it holds a literal, a temporary or a variable, a place knows the construct
it belongs to, and the code of a call or of a return is one mark.

A tablet takes marks as a sheet takes lines: a place waits for the order that comes
next.  `Laid` says that marks stand in a code from an address on.  It is what the
proofs about running code start from, and `Tablet.laid_of_begins` provides it for
all marks in which no place follows a place at once.
-/

namespace LittleMan

/-- The stem of the labels of a scope: `none` stands for the main program. -/
def scopeStem : Option String → String
  | none => "global"
  | some function => "func_" ++ function

inductive Cell where
  | literal (value : Word)
  | temporary (n : Nat)
  | var (owner : Option String) (name : String)
deriving DecidableEq, Repr

namespace Cell

def label : Cell → String
  | .literal value => Scopes.literalName value.text
  | .temporary n => "temp_" ++ toString n
  | .var owner name => scopeStem owner ++ "_" ++ Scopes.variableName name

/-- The word that a cell holds before the first step. -/
def initial : Cell → Word
  | .literal value => value
  | _ => 0

end Cell

/-- The constructs that number their places. -/
inductive Family where
  | temporary
  | loop
  | choice
  | assertion
deriving DecidableEq, Repr

def Family.stem : Family → String
  | .temporary => "temp_"
  | .loop => "loop_"
  | .choice => "if_"
  | .assertion => "assert_"

inductive Place where
  | point (family : Family) (n : Nat) (ending : String)
  | entry (function : String)
deriving DecidableEq, Repr

def Place.label : Place → String
  | .point family n ending => family.stem ++ toString n ++ ending
  | .entry function => "func_" ++ function ++ "_start"

inductive Target where
  | none
  | cell (c : Cell)
  | place (l : Place)
deriving DecidableEq, Repr

namespace Target

def operand : Target → Operand
  | .none => .none
  | .cell c => .label c.label
  | .place l => .label l.label

end Target

/-- One word of code: its place, if it has one, its operation and its operand. -/
structure Entry where
  place : Option Place
  op : Opcode
  target : Target
deriving DecidableEq, Repr

/-- What is laid down: a place, an order, the code of a call, of a return and of the start
of a function.  `refused` stands where the lowering gives up; no program that is lowered
has it. -/
inductive Mark where
  | place (l : Place)
  | order (op : Opcode) (target : Target)
  | call (callee : String) (args : List Cell) (result : Cell)
  | giveBack (value address : Cell)
  | receive (params : List Cell)
  | refused
deriving DecidableEq, Repr

namespace Mark

def pushes (args : List Cell) : List (Opcode × Target) :=
  args.flatMap fun c => [(.lda, .cell c), (.psh, .none)]

def pops (params : List Cell) : List (Opcode × Target) :=
  params.flatMap fun c => [(.pop, .none), (.sta, .cell c)]

/-- The offset from the word after `LDAPC` to the `POP` that a call comes back to. -/
def returnOffset (count : Nat) : Word :=
  Int64.ofNat (3 + 2 * count)

def orders : Mark → List (Opcode × Target)
  | .place _ => []
  | .order op target => [(op, target)]
  | .call callee args result =>
      [(.ldaPc, .none), (.add, .cell (.literal (returnOffset args.length))), (.psh, .none)] ++
        pushes args ++
        [(.bra, .place (.entry callee)), (.pop, .none), (.sta, .cell result)]
  | .giveBack value address =>
      [(.pop, .none), (.sta, .cell address), (.lda, .cell value), (.psh, .none),
        (.lda, .cell address), (.ret, .none)]
  | .receive params => (.nop, .none) :: pops params
  | .refused => [(.hlt, .none)]

def place? : Mark → Option Place
  | .place l => some l
  | _ => none

/-- The words that marks take up. -/
def width (marks : List Mark) : Nat :=
  (marks.flatMap orders).length

@[simp] theorem width_nil : width [] = 0 := rfl

@[simp] theorem width_cons (mark : Mark) (rest : List Mark) :
    width (mark :: rest) = mark.orders.length + width rest := by
  simp [width]

@[simp] theorem width_append (first second : List Mark) :
    width (first ++ second) = width first + width second := by
  simp [width]

@[simp] theorem length_pushes (args : List Cell) : (pushes args).length = 2 * args.length := by
  induction args with
  | nil => rfl
  | cons c rest ih =>
      simp only [pushes, List.flatMap_cons, List.length_append, List.length_cons,
        List.length_nil] at ih ⊢
      omega

@[simp] theorem length_pops (params : List Cell) : (pops params).length = 2 * params.length := by
  induction params with
  | nil => rfl
  | cons c rest ih =>
      simp only [pops, List.flatMap_cons, List.length_append, List.length_cons,
        List.length_nil] at ih ⊢
      omega

/-- The places that marks name, in their order. -/
def places (marks : List Mark) : List Place :=
  marks.filterMap place?

@[simp] theorem places_append (first second : List Mark) :
    places (first ++ second) = places first ++ places second := by
  simp [places]

end Mark

/-! ## Tablets -/

structure Tablet where
  entries : List Entry := []
  pending : Option Place := none
deriving DecidableEq, Repr

namespace Tablet

/-- Puts a pending place on a `NOP`. -/
def settle (t : Tablet) : Tablet :=
  match t.pending with
  | none => t
  | some l => { entries := t.entries ++ [⟨some l, .nop, .none⟩], pending := none }

def name (t : Tablet) (l : Place) : Tablet :=
  { t.settle with pending := some l }

def write (t : Tablet) (order : Opcode × Target) : Tablet :=
  { entries := t.entries ++ [⟨t.pending, order.1, order.2⟩], pending := none }

def mark (t : Tablet) : Mark → Tablet
  | .place l => t.name l
  | m => m.orders.foldl write t

def lay (t : Tablet) (marks : List Mark) : Tablet :=
  marks.foldl mark t

@[simp] theorem lay_nil (t : Tablet) : t.lay [] = t := rfl

@[simp] theorem lay_cons (t : Tablet) (m : Mark) (rest : List Mark) :
    t.lay (m :: rest) = (t.mark m).lay rest := rfl

theorem lay_append (t : Tablet) (first second : List Mark) :
    t.lay (first ++ second) = (t.lay first).lay second := by
  simp [lay]

theorem mark_eq_foldl {t : Tablet} {m : Mark} (h : m.place? = none) :
    t.mark m = m.orders.foldl write t := by
  cases m <;> simp_all [mark, Mark.place?]

/-- The code goes on from what the tablet holds, and its next word carries the
pending place. -/
structure Begins (t : Tablet) (code : List Entry) : Prop where
  isPrefix : t.entries <+: code
  named : ∀ l, t.pending = some l →
    ∃ entry, code[t.entries.length]? = some entry ∧ entry.place = some l

end Tablet

/-! ## Marks in a code -/

/-- The word at an address has the operation and the operand. -/
def OrderAt (code : List Entry) (p : Nat) (op : Opcode) (target : Target) : Prop :=
  ∃ place, code[p]? = some ⟨place, op, target⟩

def PlaceAt (code : List Entry) (p : Nat) (l : Place) : Prop :=
  ∃ entry, code[p]? = some entry ∧ entry.place = some l

/-- The orders stand in the code from an address on. -/
def OrdersAt (code : List Entry) : Nat → List (Opcode × Target) → Prop
  | _, [] => True
  | p, (op, target) :: rest => OrderAt code p op target ∧ OrdersAt code (p + 1) rest

/-- The marks stand in the code from an address on. -/
def Laid (code : List Entry) : Nat → List Mark → Prop
  | _, [] => True
  | p, m :: rest =>
      (∀ l, m.place? = some l → PlaceAt code p l) ∧ OrdersAt code p m.orders ∧
        Laid code (p + m.orders.length) rest

theorem ordersAt_append {code : List Entry} {p : Nat} {first second : List (Opcode × Target)} :
    OrdersAt code p (first ++ second) ↔
      OrdersAt code p first ∧ OrdersAt code (p + first.length) second := by
  induction first generalizing p with
  | nil => simp [OrdersAt]
  | cons order rest ih =>
      simp only [List.cons_append, OrdersAt, ih, List.length_cons]
      rw [show p + (rest.length + 1) = p + 1 + rest.length by omega]
      tauto

theorem laid_append {code : List Entry} {p : Nat} {first second : List Mark} :
    Laid code p (first ++ second) ↔
      Laid code p first ∧ Laid code (p + Mark.width first) second := by
  induction first generalizing p with
  | nil => simp [Laid]
  | cons m rest ih =>
      simp only [List.cons_append, Laid, ih, Mark.width_cons]
      rw [show p + (m.orders.length + Mark.width rest) =
        p + m.orders.length + Mark.width rest by omega]
      tauto

@[simp] theorem laid_nil {code : List Entry} {p : Nat} : Laid code p [] :=
  trivial

@[simp] theorem laid_place {code : List Entry} {p : Nat} {l : Place} {rest : List Mark} :
    Laid code p (.place l :: rest) ↔ PlaceAt code p l ∧ Laid code p rest := by
  simp [Laid, Mark.place?, Mark.orders, OrdersAt]

@[simp] theorem laid_order {code : List Entry} {p : Nat} {op : Opcode} {target : Target}
    {rest : List Mark} :
    Laid code p (.order op target :: rest) ↔
      OrderAt code p op target ∧ Laid code (p + 1) rest := by
  simp [Laid, Mark.place?, Mark.orders, OrdersAt]

/-! ## Places apart -/

namespace Mark

/-- No place follows a place at once; `waiting` tells whether one is pending at the
start. -/
def Spaced : Bool → List Mark → Prop
  | _, [] => True
  | waiting, .place _ :: rest => waiting = false ∧ Spaced true rest
  | _, _ :: rest => Spaced false rest

/-- Whether a place is pending after the marks. -/
def pendingAfter : Bool → List Mark → Bool
  | waiting, [] => waiting
  | _, .place _ :: rest => pendingAfter true rest
  | _, _ :: rest => pendingAfter false rest

theorem spaced_append {waiting : Bool} {first second : List Mark} :
    Spaced waiting (first ++ second) ↔
      Spaced waiting first ∧ Spaced (pendingAfter waiting first) second := by
  induction first generalizing waiting with
  | nil => simp [Spaced, pendingAfter]
  | cons m rest ih => cases m <;> simp [Spaced, pendingAfter, ih, and_assoc]

theorem pendingAfter_append {waiting : Bool} {first second : List Mark} :
    pendingAfter waiting (first ++ second) =
      pendingAfter (pendingAfter waiting first) second := by
  induction first generalizing waiting with
  | nil => rfl
  | cons m rest ih => cases m <;> simp [pendingAfter, ih]

theorem orders_ne_nil {m : Mark} (h : m.place? = none) : m.orders ≠ [] := by
  cases m <;> simp_all [orders, place?]

end Mark

namespace Tablet

theorem entries_length_write (t : Tablet) (order : Opcode × Target) :
    (t.write order).entries.length = t.entries.length + 1 := by
  simp [write]

theorem begins_of_write {t : Tablet} {order : Opcode × Target} {code : List Entry}
    (h : (t.write order).Begins code) :
    t.Begins code ∧ OrderAt code t.entries.length order.1 order.2 := by
  obtain ⟨tail, htail⟩ := h.isPrefix
  have hget : code[t.entries.length]? = some ⟨t.pending, order.1, order.2⟩ := by
    rw [← htail]
    simp [write]
  refine ⟨⟨?_, ?_⟩, ⟨_, hget⟩⟩
  · exact (List.prefix_append t.entries _).trans h.isPrefix
  · intro l hl
    exact ⟨_, hget, hl⟩

theorem entries_length_foldl_write (orders : List (Opcode × Target)) (t : Tablet) :
    (orders.foldl write t).entries.length = t.entries.length + orders.length := by
  induction orders generalizing t with
  | nil => rfl
  | cons order rest ih =>
      rw [List.foldl_cons, ih, entries_length_write, List.length_cons]
      omega

theorem pending_foldl_write {orders : List (Opcode × Target)} (h : orders ≠ []) (t : Tablet) :
    (orders.foldl write t).pending = none := by
  induction orders generalizing t with
  | nil => exact absurd rfl h
  | cons order rest ih =>
      cases rest with
      | nil => rfl
      | cons next rest => exact ih (by simp) (t.write order)

theorem begins_of_foldl_write {orders : List (Opcode × Target)} {t : Tablet} {code : List Entry}
    (h : (orders.foldl write t).Begins code) :
    t.Begins code ∧ OrdersAt code t.entries.length orders := by
  induction orders generalizing t with
  | nil => exact ⟨h, trivial⟩
  | cons order rest ih =>
      obtain ⟨hnext, hrest⟩ := ih h
      obtain ⟨hbegins, hat⟩ := begins_of_write hnext
      rw [entries_length_write] at hrest
      exact ⟨hbegins, hat, hrest⟩

theorem begins_of_name {t : Tablet} {l : Place} {code : List Entry}
    (hpending : t.pending = none) (h : (t.name l).Begins code) :
    t.Begins code ∧ PlaceAt code t.entries.length l := by
  have hsettle : t.settle = t := by simp [settle, hpending]
  refine ⟨⟨?_, by simp [hpending]⟩, ?_⟩
  · simpa [name, hsettle] using h.isPrefix
  · simpa [PlaceAt, name, hsettle] using h.named l rfl

/-- Marks that keep their places apart are laid down as they stand. -/
theorem laid_of_begins {marks : List Mark} {t : Tablet} {code : List Entry}
    (hspaced : Mark.Spaced t.pending.isSome marks) (h : (t.lay marks).Begins code) :
    t.Begins code ∧ Laid code t.entries.length marks ∧
      (t.lay marks).entries.length = t.entries.length + Mark.width marks ∧
      (t.lay marks).pending.isSome = Mark.pendingAfter t.pending.isSome marks := by
  induction marks generalizing t with
  | nil => exact ⟨h, trivial, rfl, rfl⟩
  | cons m rest ih =>
      cases hplace : m.place? with
      | some l =>
          obtain rfl : m = .place l := by
            cases m <;> simp_all [Mark.place?]
          simp only [Mark.Spaced] at hspaced
          have hpending : t.pending = none := by
            simpa using hspaced.1
          obtain ⟨hnext, hlaid, hlength, hafter⟩ := ih (t := t.name l) hspaced.2 h
          obtain ⟨hbegins, hat⟩ := begins_of_name hpending hnext
          have hentries : (t.name l).entries = t.entries := by
            simp [name, settle, hpending]
          rw [hentries] at hlaid hlength
          refine ⟨hbegins, laid_place.2 ⟨hat, hlaid⟩, ?_, hafter⟩
          simpa [mark, Mark.orders] using hlength
      | none =>
          have hmark := mark_eq_foldl (t := t) hplace
          have hpending : (t.mark m).pending = none := by
            rw [hmark]
            exact pending_foldl_write (Mark.orders_ne_nil hplace) t
          have hentries : (t.mark m).entries.length = t.entries.length + m.orders.length := by
            rw [hmark]
            exact entries_length_foldl_write _ _
          have hrest : Mark.Spaced false rest := by
            cases m <;> simp_all [Mark.Spaced, Mark.place?]
          obtain ⟨hnext, hlaid, hlength, hafter⟩ :=
            ih (t := t.mark m) (by simpa [hpending] using hrest) h
          rw [hmark] at hnext
          obtain ⟨hbegins, hat⟩ := begins_of_foldl_write hnext
          rw [hentries] at hlaid hlength
          refine ⟨hbegins, ⟨by simp [hplace], hat, hlaid⟩, ?_, ?_⟩
          · rw [lay_cons, hlength, Mark.width_cons]
            omega
          · rw [lay_cons, hafter, hpending]
            cases m <;> simp_all [Mark.pendingAfter, Mark.place?]

end Tablet
end LittleMan
