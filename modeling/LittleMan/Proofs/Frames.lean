import LittleMan.Proofs.Blocks
import LittleMan.Proofs.Blueprint.Effects
import LittleMan.Proofs.Blueprint.Guards

/-!
# Frames on the stack

The code of a program consists of regions: the main program and its functions.  A branch
stays in its region, and the last mark of a region does not go on to the next one.  So the
region of the program counter changes with a call and with a return and never else.

The stack of a region in its normal state is told by `Rests`, with the calls that have not
come back as its frames.  It is empty in the main program.  In a function it has the return
address of a call on top of the stack of the caller.  A call, the start of a function and a
return go through states in between, and `Point` lists them all.  `Safe.turn` says that every
order leads from one of these states to another one, and which faults are possible on the
way.
-/

namespace LittleMan

open Mark

/-! ## Regions -/

/-- The main program, or a function with the cells of its parameters, the one that is
taken off the stack first at the head.  `body` is what comes after the start of the
function. -/
structure Region where
  function : Option (String × List Cell)
  base : Nat
  body : List Mark

namespace Region

def name (ρ : Region) : Option String :=
  ρ.function.map Prod.fst

def header (ρ : Region) : List Mark :=
  ρ.function.elim [] fun f => [.place (.entry f.1), .receive f.2]

def start (ρ : Region) : Nat :=
  ρ.base + width ρ.header

def stores (ρ : Region) : List Cell :=
  Mark.stores (ρ.header ++ ρ.body)

/-- Where a call after the marks `done` of the body comes back to. -/
def returnAddress (ρ : Region) (done : List Mark) (args : List Cell) : Nat :=
  ρ.start + width done + (4 + 2 * args.length)

structure Formed (code : List Entry) (ρ : Region) : Prop where
  laid : Laid code ρ.base (ρ.header ++ ρ.body)
  sound : (ρ.header ++ ρ.body).all isSound = true
  branches : branches ρ.body ⊆ places ρ.body
  accepted : .refused ∉ ρ.body
  last : ∃ init last, ρ.body = init ++ [last] ∧ Guarded init ∧
    (ρ.function = none ∧ last = bare .hlt ∨
      ρ.function ≠ none ∧ ∃ value address, last = .giveBack value address)
  returns : ∀ value address, .giveBack value address ∈ ρ.body → ρ.function ≠ none

end Region

structure Layout.Parted (L : Layout) (regions : List Region) : Prop where
  formed : ∀ ρ ∈ regions, ρ.Formed L.code
  main : ∃ ρ ∈ regions, ρ.function = none ∧ ρ.base = 0
  calls : ∀ ρ ∈ regions, ∀ callee args result, .call callee args result ∈ ρ.body →
    ∃ g ∈ regions, ∃ params, g.function = some (callee, params) ∧ params.length = args.length
  placed : L.Placed
  size : L.code.length ≤ L.size
  small : L.code.length < 0x8000000000000000

/-! ## States -/

/-- A call that has not come back: its region, the marks of the body before it, and its
arguments. -/
structure Frame where
  region : Region
  done : List Mark
  args : List Cell

namespace Frame

def site (frame : Frame) : Nat :=
  frame.region.start + width frame.done

def address (frame : Frame) : Nat :=
  frame.region.returnAddress frame.done frame.args

end Frame

/-- The stack of a region in its normal state. -/
inductive Rests (regions : List Region) : List Frame → Option String → List Word → Prop
  | main : Rests regions [] none []
  | call {ρ : Region} {done rest : List Mark} {callee : String} {args : List Cell} {result : Cell}
      {frames : List Frame} {below : List Word} (mem : ρ ∈ regions)
      (here : ρ.body = done ++ .call callee args result :: rest)
      (more : Rests regions frames ρ.name below) :
      Rests regions (⟨ρ, done, args⟩ :: frames) (some callee)
        (Word.ofAddress (ρ.returnAddress done args) :: below)

/-- There are `count` words on top of the normal stack. -/
def Holds (regions : List Region) (frames : List Frame) (count : Nat) (name : Option String)
    (stack : List Word) : Prop :=
  ∃ words below, stack = words ++ below ∧ words.length = count ∧ Rests regions frames name below

/-- The states in which the machine is at a mark, which comes after the marks `done` of the
body of a region. -/
inductive Phase (regions : List Region) (ρ : Region) (done : List Mark) :
    List Frame → Mark → View → Prop
  | start {frames : List Frame} {m : Mark} {v : View} (word : m.place? = none)
      (pc : v.pc = ρ.start + width done) (stack : Rests regions frames ρ.name v.stack) :
      Phase regions ρ done frames m v
  -- a call: its address, the return address, the arguments, the result
  | located {frames : List Frame} {callee : String} {args : List Cell} {result : Cell} {v : View}
      (pc : v.pc = ρ.start + width done + 1)
      (acc : v.acc = Word.ofAddress (ρ.start + width done + 1))
      (stack : Rests regions frames ρ.name v.stack) :
      Phase regions ρ done frames (.call callee args result) v
  | targeted {frames : List Frame} {callee : String} {args : List Cell} {result : Cell} {v : View}
      (pc : v.pc = ρ.start + width done + 2)
      (acc : v.acc = Word.ofAddress (ρ.returnAddress done args))
      (stack : Rests regions frames ρ.name v.stack) :
      Phase regions ρ done frames (.call callee args result) v
  | pushing {frames : List Frame} {callee : String} {pushed left : List Cell} {result : Cell}
      {v : View} (pc : v.pc = ρ.start + width done + (3 + 2 * pushed.length))
      (stack : Holds regions frames pushed.length (some callee) v.stack) :
      Phase regions ρ done frames (.call callee (pushed ++ left) result) v
  | loaded {frames : List Frame} {callee : String} {pushed left : List Cell} {c result : Cell}
      {v : View} (pc : v.pc = ρ.start + width done + (4 + 2 * pushed.length))
      (stack : Holds regions frames pushed.length (some callee) v.stack) :
      Phase regions ρ done frames (.call callee (pushed ++ c :: left) result) v
  | returned {frames : List Frame} {callee : String} {args : List Cell} {result : Cell} {v : View}
      (pc : v.pc = ρ.returnAddress done args) (stack : Holds regions frames 1 ρ.name v.stack) :
      Phase regions ρ done frames (.call callee args result) v
  | pulled {frames : List Frame} {callee : String} {args : List Cell} {result : Cell} {v : View}
      (pc : v.pc = ρ.returnAddress done args + 1)
      (stack : Rests regions frames ρ.name v.stack) :
      Phase regions ρ done frames (.call callee args result) v
  -- a return: the address goes off the stack, and the value on to it
  | taken {frames : List Frame} {value address : Cell} {v : View}
      (pc : v.pc = ρ.start + width done + 1)
      (stack : Rests regions frames ρ.name (v.acc :: v.stack)) :
      Phase regions ρ done frames (.giveBack value address) v
  | saved {frames : List Frame} {value address : Cell} {v : View}
      (pc : v.pc = ρ.start + width done + 2)
      (stack : Rests regions frames ρ.name (v.cells address :: v.stack)) :
      Phase regions ρ done frames (.giveBack value address) v
  | chosen {frames : List Frame} {value address : Cell} {v : View}
      (pc : v.pc = ρ.start + width done + 3)
      (stack : Rests regions frames ρ.name (v.cells address :: v.stack)) :
      Phase regions ρ done frames (.giveBack value address) v
  | handed {frames : List Frame} {value address : Cell} {v : View} {word : Word}
      {below : List Word} (pc : v.pc = ρ.start + width done + 4) (top : v.stack = word :: below)
      (stack : Rests regions frames ρ.name (v.cells address :: below)) :
      Phase regions ρ done frames (.giveBack value address) v
  | leaving {frames : List Frame} {value address : Cell} {v : View} {word : Word}
      {below : List Word} (pc : v.pc = ρ.start + width done + 5) (top : v.stack = word :: below)
      (stack : Rests regions frames ρ.name (v.acc :: below)) :
      Phase regions ρ done frames (.giveBack value address) v

/-- The states in which the machine is somewhere in the code. -/
inductive Point (regions : List Region) (frames : List Frame) (v : View) : Prop
  | inside {ρ : Region} {done rest : List Mark} {m : Mark} (mem : ρ ∈ regions)
      (here : ρ.body = done ++ m :: rest) (phase : Phase regions ρ done frames m v)
  | entering {ρ : Region} {f : String} {params : List Cell} (mem : ρ ∈ regions)
      (here : ρ.function = some (f, params)) (pc : v.pc = ρ.base)
      (stack : Holds regions frames params.length (some f) v.stack)
  | popping {ρ : Region} {f : String} {taken left : List Cell} (mem : ρ ∈ regions)
      (here : ρ.function = some (f, taken ++ left)) (pc : v.pc = ρ.base + (1 + 2 * taken.length))
      (stack : Holds regions frames left.length (some f) v.stack)
  | storing {ρ : Region} {f : String} {taken left : List Cell} {c : Cell} (mem : ρ ∈ regions)
      (here : ρ.function = some (f, taken ++ c :: left))
      (pc : v.pc = ρ.base + (2 + 2 * taken.length))
      (stack : Holds regions frames left.length (some f) v.stack)

structure Safe (regions : List Region) (frames : List Frame) (v : View) : Prop where
  literals : ∀ value, v.cells (.literal value) = value
  point : Point regions frames v

/-! ## Orders in a region -/

theorem PlaceAt.unique {code : List Entry} {p : Nat} {l l' : Place} (h : PlaceAt code p l)
    (h' : PlaceAt code p l') : l = l' := by
  obtain ⟨entry, hget, hplace⟩ := h
  obtain ⟨entry', hget', hplace'⟩ := h'
  obtain rfl := Option.some.inj (hget.symm.trans hget')
  exact Option.some.inj (hplace.symm.trans hplace')

theorem OrderAt.unique {code : List Entry} {p : Nat} {op op' : Opcode} {target target' : Target}
    (h : OrderAt code p op target) (h' : OrderAt code p op' target') :
    op = op' ∧ target = target' := by
  obtain ⟨place, hget⟩ := h
  obtain ⟨place', hget'⟩ := h'
  have hentry := Option.some.inj (hget.symm.trans hget')
  exact ⟨congrArg Entry.op hentry, congrArg Entry.target hentry⟩

theorem OrdersAt.pushes {code : List Entry} {p : Nat} {pushed left : List Cell} {c : Cell}
    (h : OrdersAt code p (pushes (pushed ++ c :: left))) :
    OrderAt code (p + 2 * pushed.length) .lda (.cell c) ∧
      OrderAt code (p + (1 + 2 * pushed.length)) .psh .none := by
  have hsplit : Mark.pushes (pushed ++ c :: left) =
      Mark.pushes pushed ++ ((.lda, .cell c) :: (.psh, .none) :: Mark.pushes left) := by
    simp [Mark.pushes]
  rw [hsplit, ordersAt_append, length_pushes] at h
  obtain ⟨-, hlda, hpsh, -⟩ := h
  rw [show p + 2 * pushed.length + 1 = p + (1 + 2 * pushed.length) by omega] at hpsh
  exact ⟨hlda, hpsh⟩

theorem OrdersAt.pops {code : List Entry} {p : Nat} {taken left : List Cell} {c : Cell}
    (h : OrdersAt code p (pops (taken ++ c :: left))) :
    OrderAt code (p + 2 * taken.length) .pop .none ∧
      OrderAt code (p + (1 + 2 * taken.length)) .sta (.cell c) := by
  have hsplit : Mark.pops (taken ++ c :: left) =
      Mark.pops taken ++ ((.pop, .none) :: (.sta, .cell c) :: Mark.pops left) := by
    simp [Mark.pops]
  rw [hsplit, ordersAt_append, length_pops] at h
  obtain ⟨-, hpop, hsta, -⟩ := h
  rw [show p + 2 * taken.length + 1 = p + (1 + 2 * taken.length) by omega] at hsta
  exact ⟨hpop, hsta⟩

namespace Region.Formed

variable {code : List Entry} {ρ : Region} {done rest : List Mark} {m : Mark}

theorem orders (h : ρ.Formed code) (here : ρ.body = done ++ m :: rest) :
    OrdersAt code (ρ.start + width done) m.orders := by
  have hlaid := h.laid
  rw [laid_append, here, laid_append] at hlaid
  exact hlaid.2.2.2.1

theorem laid_at (h : ρ.Formed code) {before marks after : List Mark}
    (here : ρ.body = before ++ marks ++ after) : Laid code (ρ.start + width before) marks := by
  have hlaid := h.laid
  rw [laid_append, here, List.append_assoc, laid_append, laid_append] at hlaid
  exact hlaid.2.2.1

theorem isSound (h : ρ.Formed code) (here : ρ.body = done ++ m :: rest) :
    m.isSound = true := by
  refine List.all_eq_true.1 h.sound m ?_
  rw [here]
  simp

theorem placeAt (h : ρ.Formed code) {l : Place} (here : ρ.body = done ++ .place l :: rest) :
    PlaceAt code (ρ.start + width done) l := by
  have hlaid := h.laid
  rw [laid_append, here, laid_append] at hlaid
  exact hlaid.2.2.1 l rfl

theorem entry (h : ρ.Formed code) {f : String} {params : List Cell}
    (here : ρ.function = some (f, params)) :
    PlaceAt code ρ.base (.entry f) ∧ OrderAt code ρ.base .nop .none ∧
      OrdersAt code (ρ.base + 1) (pops params) := by
  have hlaid := h.laid
  rw [header, here] at hlaid
  obtain ⟨hplace, -, -, ⟨hnop, hpops⟩, -⟩ := hlaid
  exact ⟨hplace _ rfl, hnop, hpops⟩

theorem start_eq {f : String} {params : List Cell} (here : ρ.function = some (f, params)) :
    ρ.start = ρ.base + (1 + 2 * params.length) := by
  simp [Region.start, Region.header, here, Mark.orders, Nat.add_comm]

theorem body_ne_nil (h : ρ.Formed code) : ρ.body ≠ [] := by
  obtain ⟨init, last, hbody, -⟩ := h.last
  simp [hbody]

theorem last_word (h : ρ.Formed code) (here : ρ.body = done ++ [m]) : m.place? = none := by
  obtain ⟨init, last, hbody, -, hlast⟩ := h.last
  obtain ⟨-, rfl⟩ : done = init ∧ m = last := by
    rw [here] at hbody
    simpa using List.append_inj' hbody rfl
  rcases hlast with ⟨-, rfl⟩ | ⟨-, value, address, rfl⟩ <;> rfl

theorem receive_not_mem (h : ρ.Formed code) (params : List Cell) :
    .receive params ∉ ρ.body := by
  obtain ⟨init, last, hbody, hguarded, hlast⟩ := h.last
  rw [hbody, List.mem_append, not_or]
  refine ⟨hguarded.receive_not_mem params, ?_⟩
  rcases hlast with ⟨-, rfl⟩ | ⟨-, value, address, rfl⟩ <;> simp

theorem resume (h : ρ.Formed code) {regions : List Region} {frames : List Frame} {v : View}
    (here : ρ.body = done ++ rest) (hrest : rest ≠ []) (pc : v.pc = ρ.start + width done)
    (stack : Rests regions frames ρ.name v.stack) :
    ∃ done' m rest', ρ.body = done' ++ m :: rest' ∧ Phase regions ρ done' frames m v := by
  induction rest generalizing done with
  | nil => exact absurd rfl hrest
  | cons m rest ih =>
      cases hplace : m.place? with
      | none => exact ⟨done, m, rest, here, .start hplace pc stack⟩
      | some l =>
          have hnext : rest ≠ [] := by
            rintro rfl
            rw [h.last_word here] at hplace
            cases hplace
          have hwidth : m.orders.length = 0 := by
            cases m <;> simp_all [Mark.place?, Mark.orders]
          refine @ih (done ++ [m]) (by simp [here]) hnext ?_
          rw [pc, width_append, width_cons, hwidth]
          rfl

theorem point (h : ρ.Formed code) {regions : List Region} {frames : List Frame}
    (mem : ρ ∈ regions) {v : View} (here : ρ.body = done ++ rest) (hrest : rest ≠ [])
    (pc : v.pc = ρ.start + width done) (stack : Rests regions frames ρ.name v.stack) :
    Point regions frames v := by
  obtain ⟨done', m, rest', here', phase⟩ := h.resume here hrest pc stack
  exact .inside mem here' phase

end Region.Formed

/-! ## One order -/

variable {L : Layout} {regions : List Region} {frames : List Frame} {v : View}

/-- The order pushes a return address: it is a `PSH` two words after a `LDAPC`. -/
def Layout.Opens (L : Layout) (p : Nat) : Prop :=
  OrderAt L.code p .psh .none ∧ ∃ q, p = q + 2 ∧ OrderAt L.code q .ldaPc .none

/-- The order neither opens a frame nor closes one. -/
def Layout.Levels (L : Layout) (p : Nat) : Prop :=
  ¬ L.Opens p ∧ ¬ OrderAt L.code p .ret .none

theorem Layout.levels_of_order {p : Nat} {op : Opcode} {target : Target}
    (h : OrderAt L.code p op target) (hpush : op ≠ .psh) (hret : op ≠ .ret) : L.Levels p :=
  ⟨fun hopens => hpush (h.unique hopens.1).1, fun hleaves => hret (h.unique hleaves).1⟩

theorem Layout.levels_push {p : Nat} {op : Opcode} {target : Target}
    (hpush : OrderAt L.code (p + 2) .psh .none) (h : OrderAt L.code p op target)
    (hop : op ≠ .ldaPc) : L.Levels (p + 2) := by
  constructor
  · rintro ⟨-, q, hq, hlocate⟩
    obtain rfl : p = q := by omega
    exact hop (h.unique hlocate).1
  · intro hret
    cases (hpush.unique hret).1

theorem Layout.levels_argument {p : Nat} {pushed left : List Cell} {c : Cell}
    (hpush : OrderAt L.code (p + 2) .psh .none)
    (hpushes : OrdersAt L.code (p + 3) (pushes (pushed ++ c :: left))) :
    L.Levels (p + (4 + 2 * pushed.length)) := by
  have horder := hpushes.pushes.2
  -- the word two before it is a `PSH`, too
  have hbefore : OrderAt L.code (p + 2 + 2 * pushed.length) .psh .none := by
    rcases List.eq_nil_or_concat pushed with rfl | ⟨before, d, rfl⟩
    · exact hpush
    · rw [List.concat_eq_append, List.append_assoc] at hpushes
      rw [List.concat_eq_append, List.length_append, List.length_singleton,
        show p + 2 + 2 * (before.length + 1) = p + 3 + (1 + 2 * before.length) by omega]
      exact hpushes.pushes.2
  rw [show p + 3 + (1 + 2 * pushed.length) = p + 2 + 2 * pushed.length + 2 by omega] at horder
  rw [show p + (4 + 2 * pushed.length) = p + 2 + 2 * pushed.length + 2 by omega]
  exact L.levels_push horder hbefore (by simp)

/-- What an order may do to the frames, the cells and the program counter.  It goes on to the
next word, stores, opens a frame, branches, goes to the start of a function, or comes back
to a call and closes its frame. -/
inductive Way (L : Layout) (regions : List Region) (frames : List Frame) (v : View) :
    List Frame → View → Prop
  | next {v' : View} (pc : v'.pc = v.pc + 1) (cells : v'.cells = v.cells)
      (levels : L.Levels v.pc) : Way L regions frames v frames v'
  | store {ρ : Region} {c : Cell} {below : List Word} (mem : ρ ∈ regions) (cell : c ∈ ρ.stores)
      (stack : Rests regions frames ρ.name below) (levels : L.Levels v.pc) :
      Way L regions frames v frames (v.store c)
  | call {v' : View} {ρ : Region} {done rest : List Mark} {callee : String} {args : List Cell}
      {result : Cell} (mem : ρ ∈ regions) (here : ρ.body = done ++ .call callee args result :: rest)
      (site : v.pc = ρ.start + width done + 2) (pc : v'.pc = v.pc + 1)
      (cells : v'.cells = v.cells) : Way L regions frames v (⟨ρ, done, args⟩ :: frames) v'
  | branch {ρ : Region} {done rest : List Mark} {op : Opcode} {l : Place} (mem : ρ ∈ regions)
      (here : ρ.body = done ++ .order op (.place l) :: rest) (pc : v.pc = ρ.start + width done)
      (levels : L.Levels v.pc) : Way L regions frames v frames (v.jump (L.place l))
  | enter {ρ : Region} {f : String} {params : List Cell} (mem : ρ ∈ regions)
      (here : ρ.function = some (f, params)) (levels : L.Levels v.pc) :
      Way L regions frames v frames (v.jump ρ.base)
  | back {frame : Frame} {frames' : List Frame} {rest : List Mark} {callee : String}
      {result : Cell} (top : frames = frame :: frames') (mem : frame.region ∈ regions)
      (here : frame.region.body = frame.done ++ .call callee frame.args result :: rest)
      (leaves : OrderAt L.code v.pc .ret .none) :
      Way L regions frames v frames' (v.jump frame.address)

inductive Admits (L : Layout) (regions : List Region) (frames : List Frame) (v : View) : Turn → Prop
  | goes {frames' : List Frame} {v' : View} (safe : Safe regions frames' v')
      (way : Way L regions frames v frames' v') : Admits L regions frames v (.goes v')
  | halts {ρ : Region} {done rest : List Mark} (mem : ρ ∈ regions)
      (here : ρ.body = done ++ bare .hlt :: rest) (pc : v.pc = ρ.start + width done)
      (stack : Rests regions frames ρ.name v.stack) : Admits L regions frames v .halts
  | waits : Admits L regions frames v .waits
  | overflows : Admits L regions frames v (.faults .arithmeticOverflow)
  | fills : Admits L regions frames v (.faults (.stackOverflow L.maxStack))

theorem Admits.next (v' : View) (hliterals : ∀ value, v.cells (.literal value) = value)
    (cells : v'.cells = v.cells) (point : Point regions frames v') (pc : v'.pc = v.pc + 1)
    (levels : L.Levels v.pc) : Admits L regions frames v (.goes v') :=
  .goes ⟨fun value => cells ▸ hliterals value, point⟩ (.next pc cells levels)

theorem literals_update {cells : Cell → Word} {c : Cell} (hc : c.isLiteral = false)
    (h : ∀ value, cells (.literal value) = value) (word : Word) (value : Word) :
    Function.update cells c word (.literal value) = value := by
  rw [Function.update_of_ne (by rintro rfl; cases hc), h]

theorem Admits.store {ρ : Region} {c : Cell} (mem : ρ ∈ regions) (cell : c ∈ ρ.stores)
    (hc : c.isLiteral = false) (hliterals : ∀ value, v.cells (.literal value) = value)
    {below : List Word} (stack : Rests regions frames ρ.name below)
    (point : Point regions frames (v.store c)) (order : OrderAt L.code v.pc .sta (.cell c)) :
    Admits L regions frames v (.goes (v.store c)) :=
  .goes ⟨literals_update hc hliterals v.acc, point⟩
    (.store mem cell stack (L.levels_of_order order (by simp) (by simp)))

section Orders

variable {ρ : Region} {done rest : List Mark}

theorem admits_order (hparted : L.Parted regions) (mem : ρ ∈ regions) {op : Opcode}
    {target : Target} (here : ρ.body = done ++ .order op target :: rest)
    (hliterals : ∀ value, v.cells (.literal value) = value)
    (pc : v.pc = ρ.start + width done) (stack : Rests regions frames ρ.name v.stack) :
    Admits L regions frames v (L.turn op target v) := by
  have hformed := hparted.formed ρ mem
  have hsimple : isSimple op target = true := hformed.isSound here
  have horder : OrderAt L.code v.pc op target := pc ▸ (hformed.orders here).1
  have hlevels : L.Levels v.pc := by
    apply L.levels_of_order horder
    · rintro rfl
      cases target <;> cases hsimple
    · rintro rfl
      cases target <;> cases hsimple
  -- all orders but a halt go on within the region
  have hrest : op ≠ .hlt → rest ≠ [] := by
    rintro hop rfl
    obtain ⟨init, last, hbody, -, hlast⟩ := hformed.last
    rw [here] at hbody
    obtain ⟨-, hmark⟩ := List.append_inj' hbody rfl
    rcases hlast with ⟨-, rfl⟩ | ⟨-, value, address, rfl⟩
    · simp [hop] at hmark
    · simp at hmark
  have hpoint : op ≠ .hlt → ∀ {v' : View}, v'.pc = v.pc + 1 → v'.stack = v.stack →
      Point regions frames v' := by
    intro hop v' hpc hstack
    have hafter : ρ.body = (done ++ [.order op target]) ++ rest := by simp [here]
    refine hformed.point mem hafter (hrest hop) ?_ (hstack ▸ stack)
    rw [hpc, pc, width_append]
    rfl
  have hnext : op ≠ .hlt → ∀ {v' : View}, v'.cells = v.cells →
      v'.pc = v.pc + 1 → v'.stack = v.stack → Admits L regions frames v (.goes v') := by
    intro hop v' hcells hpc hstack
    exact .next v' hliterals hcells (hpoint hop hpc hstack) hpc hlevels
  have hjump : ∀ {l : Place}, target = .place l →
      Admits L regions frames v (.goes (v.jump (L.place l))) := by
    intro l htarget
    have hmem : l ∈ places ρ.body := by
      refine hformed.branches ?_
      rw [here, htarget, branches_append]
      simp
    obtain ⟨m, hm, hplace⟩ := List.mem_filterMap.1 hmem
    obtain rfl : m = .place l := by cases m <;> simp_all [Mark.place?]
    obtain ⟨before, after, hbody⟩ := List.append_of_mem hm
    have haddress : L.place l = ρ.start + width before :=
      hparted.placed (hformed.placeAt hbody)
    subst htarget
    exact .goes ⟨hliterals, hformed.point mem hbody (by simp) haddress stack⟩
      (.branch mem here pc hlevels)
  have hcalculate : op ≠ .hlt → ∀ value : Option Word,
      Admits L regions frames v (Layout.calculate v value) := by
    intro hop value
    cases value with
    | none => exact .overflows
    | some w => exact hnext hop rfl rfl rfl
  cases target with
  | none =>
      cases op <;> simp only [isSimple, Bool.false_eq_true] at hsimple
      case hlt => exact .halts mem here pc stack
      case inp =>
        simp only [Layout.turn]
        cases v.queue with
        | nil => exact .waits
        | cons value queue => exact hnext (by simp) rfl rfl rfl
      all_goals exact hnext (by simp) rfl rfl rfl
  | cell c =>
      cases op <;> simp only [isSimple, Bool.false_eq_true] at hsimple
      case lda => exact hnext (by simp) rfl rfl rfl
      case add => exact hcalculate (by simp) _
      case sub => exact hcalculate (by simp) _
      case sta =>
        have hcell : c ∈ ρ.stores := by
          refine mem_stores.2 ⟨.order .sta (.cell c), ?_, List.mem_singleton_self _⟩
          simp [here]
        refine .store mem hcell ?_ hliterals stack (hpoint (by simp) rfl rfl) horder
        simpa using hsimple
  | place l =>
      cases op <;> simp only [isSimple, Bool.false_eq_true] at hsimple
      case bra => exact hjump rfl
      case brz =>
        simp only [Layout.turn]
        split
        · exact hjump rfl
        · exact hnext (by simp) rfl rfl rfl
      case brp =>
        simp only [Layout.turn]
        split
        · exact hjump rfl
        · exact hnext (by simp) rfl rfl rfl

theorem admits_push (h : Admits L regions frames v (.goes v.push)) :
    Admits L regions frames v (L.turn .psh .none v) := by
  simp only [Layout.turn]
  split
  · exact .fills
  · exact h

theorem orders_call {code : List Entry} (h : ρ.Formed code) {callee : String} {args : List Cell}
    {result : Cell} (here : ρ.body = done ++ .call callee args result :: rest) :
    OrdersAt code (ρ.start + width done)
        [(.ldaPc, .none), (.add, .cell (.literal (returnOffset args.length))), (.psh, .none)] ∧
      OrdersAt code (ρ.start + width done + 3) (pushes args) ∧
      OrdersAt code (ρ.start + width done + (3 + 2 * args.length))
        [(.bra, .place (.entry callee)), (.pop, .none), (.sta, .cell result)] := by
  have horders := h.orders here
  simp only [Mark.orders] at horders
  rw [ordersAt_append, ordersAt_append] at horders
  obtain ⟨⟨hfirst, hpushes⟩, hlast⟩ := horders
  refine ⟨hfirst, hpushes, ?_⟩
  rw [List.length_append, length_pushes] at hlast
  exact hlast

/-- A call comes back to a `POP`. -/
theorem Region.Formed.orderAt_returnAddress {code : List Entry} (h : ρ.Formed code)
    {callee : String} {args : List Cell} {result : Cell}
    (here : ρ.body = done ++ .call callee args result :: rest) :
    OrderAt code (ρ.returnAddress done args) .pop .none := by
  obtain ⟨-, -, -, hpull, -⟩ := orders_call h here
  unfold Region.returnAddress
  rwa [show ρ.start + width done + (4 + 2 * args.length) =
    ρ.start + width done + (3 + 2 * args.length) + 1 by omega]

/-- The value of a call is stored after its `POP`. -/
theorem Region.Formed.orderAt_result {code : List Entry} (h : ρ.Formed code)
    {callee : String} {args : List Cell} {result : Cell}
    (here : ρ.body = done ++ .call callee args result :: rest) :
    OrderAt code (ρ.returnAddress done args + 1) .sta (.cell result) := by
  obtain ⟨-, -, -, -, hstore, -⟩ := orders_call h here
  unfold Region.returnAddress
  rwa [show ρ.start + width done + (4 + 2 * args.length) + 1 =
    ρ.start + width done + (3 + 2 * args.length) + 1 + 1 by omega]

theorem Region.Formed.next (h : ρ.Formed L.code) (mem : ρ ∈ regions) {m : Mark}
    (here : ρ.body = done ++ m :: rest) (hlast : m ≠ bare .hlt)
    (hreturn : ∀ value address, m ≠ .giveBack value address) {v : View}
    (pc : v.pc = ρ.start + width done + m.orders.length)
    (stack : Rests regions frames ρ.name v.stack) : Point regions frames v := by
  have hrest : rest ≠ [] := by
    rintro rfl
    obtain ⟨init, last, hbody, -, hend⟩ := h.last
    rw [here] at hbody
    obtain ⟨-, hmark⟩ := List.append_inj' hbody rfl
    obtain rfl : m = last := by simpa using hmark
    rcases hend with ⟨-, rfl⟩ | ⟨-, value, address, rfl⟩
    · exact hlast rfl
    · exact hreturn _ _ rfl
  have hafter : ρ.body = (done ++ [m]) ++ rest := by simp [here]
  refine h.point mem hafter hrest ?_ stack
  rw [pc, width_append]
  simp [Nat.add_assoc]

theorem toInt_ofAddress {a : Nat} (h : a < 0x8000000000000000) : (Word.ofAddress a).toInt = a :=
  Word.toInt_ofNat h

theorem add?_returnOffset {p count : Nat} (h : p + (4 + 2 * count) < 0x8000000000000000) :
    (Word.ofAddress (p + 1)).add? (returnOffset count) =
      some (Word.ofAddress (p + (4 + 2 * count))) := by
  have hoffset : (returnOffset count).toInt = (3 + 2 * count : Nat) := Word.toInt_ofNat (by omega)
  have hlocated : (Word.ofAddress (p + 1)).toInt = (p + 1 : Nat) := toInt_ofAddress (by omega)
  rw [Word.add?_eq_some_iff, hoffset, hlocated, toInt_ofAddress h]
  omega

theorem turn_call (hparted : L.Parted regions) (mem : ρ ∈ regions) {callee : String}
    {args : List Cell} {result : Cell} (here : ρ.body = done ++ .call callee args result :: rest)
    (hliterals : ∀ value, v.cells (.literal value) = value)
    (phase : Phase regions ρ done frames (.call callee args result) v) :
    ∃ op target, OrderAt L.code v.pc op target ∧
      Admits L regions frames v (L.turn op target v) := by
  have hformed := hparted.formed ρ mem
  obtain ⟨⟨hlocate, hadd, hpush, -⟩, hpushes, hbranch, -⟩ := orders_call hformed here
  have hsmall := hparted.small
  have hinside : ∀ {frames' : List Frame} {v' : View},
      Phase regions ρ done frames' (.call callee args result) v' → Point regions frames' v' :=
    fun phase' => .inside mem here phase'
  -- the return address is in the code, hence a small number
  have hreturn : ρ.returnAddress done args < L.code.length := by
    obtain ⟨place, hget⟩ := hformed.orderAt_returnAddress here
    exact (List.getElem?_eq_some_iff.1 hget).1
  cases phase with
  | start word pc stack =>
      refine ⟨_, _, pc ▸ hlocate,
        .next (v.load _) hliterals rfl (hinside (.located ?_ ?_ stack)) rfl ?_⟩
      · exact congrArg (· + 1) pc
      · exact congrArg (fun p => Word.ofAddress (p + 1)) pc
      · exact pc ▸ L.levels_of_order hlocate (by simp) (by simp)
  | located pc acc stack =>
      refine ⟨_, _, pc ▸ hadd, ?_⟩
      have hsum : v.acc.add? (v.cells (.literal (returnOffset args.length))) =
          some (Word.ofAddress (ρ.returnAddress done args)) := by
        rw [hliterals, acc]
        exact add?_returnOffset (hreturn.trans hsmall)
      simp only [Layout.turn, hsum, Layout.calculate]
      exact .next (v.load _) hliterals rfl (hinside (.targeted (congrArg (· + 1) pc) rfl stack)) rfl
        (pc ▸ L.levels_of_order hadd (by simp) (by simp))
  | targeted pc acc stack =>
      have hrests : Rests regions (⟨ρ, done, args⟩ :: frames) (some callee) v.push.stack := by
        change Rests regions _ (some callee) (v.acc :: v.stack)
        rw [acc]
        exact .call mem here stack
      have hpoint : Point regions (⟨ρ, done, args⟩ :: frames) v.push :=
        hinside (@Phase.pushing regions ρ done (⟨ρ, done, args⟩ :: frames) callee [] args result v.push
          (congrArg (· + 1) pc) ⟨[], _, rfl, rfl, hrests⟩)
      exact ⟨_, _, pc ▸ hpush, admits_push (.goes ⟨hliterals, hpoint⟩ (.call mem here pc rfl rfl))⟩
  | @pushing _ pushed left _ _ pc stack =>
      cases left with
      | nil =>
          obtain ⟨g, hg, params, hfunction, hlength⟩ :=
            hparted.calls ρ mem callee (pushed ++ []) result (by simp [here])
          have hentry := (hparted.formed g hg).entry hfunction
          have hplace : L.place (.entry callee) = g.base := hparted.placed hentry.1
          rw [List.append_nil] at hbranch hlength
          have hpoint : Point regions frames (v.jump g.base) :=
            .entering hg hfunction rfl (hlength ▸ stack)
          refine ⟨_, _, pc ▸ hbranch, ?_⟩
          simp only [Layout.turn, hplace]
          exact .goes ⟨hliterals, hpoint⟩
            (.enter hg hfunction (pc ▸ L.levels_of_order hbranch (by simp) (by simp)))
      | cons c left =>
          obtain ⟨hload, -⟩ := hpushes.pushes
          rw [Nat.add_assoc] at hload
          refine ⟨_, _, pc ▸ hload,
            .next (v.load _) hliterals rfl (hinside (.loaded ?_ stack)) rfl ?_⟩
          · change v.pc + 1 = _
            omega
          · exact pc ▸ L.levels_of_order hload (by simp) (by simp)
  | @loaded _ pushed left c _ _ pc stack =>
      obtain ⟨-, hpush'⟩ := hpushes.pushes
      rw [show ρ.start + width done + 3 + (1 + 2 * pushed.length) =
        ρ.start + width done + (4 + 2 * pushed.length) by omega] at hpush'
      refine ⟨_, _, pc ▸ hpush', admits_push (.next v.push hliterals rfl ?_ rfl
        (pc ▸ L.levels_argument hpush hpushes))⟩
      obtain ⟨words, below, hstack, hlength, hrests⟩ := stack
      have hsplit : pushed ++ c :: left = (pushed ++ [c]) ++ left := by simp
      have hphase : Phase regions ρ done frames
          (.call callee ((pushed ++ [c]) ++ left) result) v.push := by
        refine .pushing ?_ ⟨v.acc :: words, below, ?_, by simp [hlength], hrests⟩
        · change v.pc + 1 = _
          rw [pc, List.length_append, List.length_singleton]
          omega
        · change v.acc :: v.stack = _
          rw [hstack]
          rfl
      exact hinside (hsplit ▸ hphase)
  | returned pc stack =>
      obtain ⟨words, below, hstack, hlength, hrests⟩ := stack
      obtain ⟨word, rfl⟩ := List.length_eq_one_iff.1 hlength
      refine ⟨_, _, pc ▸ hformed.orderAt_returnAddress here, ?_⟩
      simp only [Layout.turn, hstack, List.singleton_append]
      exact .next (v.pull _ _) hliterals rfl (hinside (.pulled (congrArg (· + 1) pc) hrests)) rfl
        (pc ▸ L.levels_of_order (hformed.orderAt_returnAddress here) (by simp) (by simp))
  | pulled pc stack =>
      have hstore : OrderAt L.code v.pc .sta (.cell result) := pc ▸ hformed.orderAt_result here
      have hresult : result.isLiteral = false := by
        simpa [Mark.isSound] using hformed.isSound here
      have hcell : result ∈ ρ.stores := by
        refine mem_stores.2 ⟨.call callee args result, ?_, ?_⟩ <;> simp [here, Mark.orders]
      refine ⟨_, _, hstore, .store mem hcell hresult hliterals stack ?_ hstore⟩
      refine hformed.next mem here (by simp) (by simp) ?_ stack
      change v.pc + 1 = _
      rw [pc]
      simp [Mark.orders, Region.returnAddress]
      omega

theorem turn_giveBack (hparted : L.Parted regions) (mem : ρ ∈ regions) {value address : Cell}
    (here : ρ.body = done ++ .giveBack value address :: rest)
    (hliterals : ∀ value, v.cells (.literal value) = value)
    (phase : Phase regions ρ done frames (.giveBack value address) v) :
    ∃ op target, OrderAt L.code v.pc op target ∧
      Admits L regions frames v (L.turn op target v) := by
  have hformed := hparted.formed ρ mem
  obtain ⟨hpop, hsave, hload, hpush, hreload, hret, -⟩ := hformed.orders here
  have hinside : ∀ {v' : View}, Phase regions ρ done frames (.giveBack value address) v' →
      Point regions frames v' := fun phase' => .inside mem here phase'
  obtain ⟨⟨f, params⟩, hfunction⟩ :=
    Option.ne_none_iff_exists'.1 (hformed.returns value address (by simp [here]))
  have hname : ρ.name = some f := by simp [Region.name, hfunction]
  cases phase with
  | start word pc stack =>
      refine ⟨_, _, pc ▸ hpop, ?_⟩
      rw [hname] at stack
      generalize hstack : v.stack = words at stack
      cases stack with
      | call mem' here' more =>
          simp only [Layout.turn, hstack]
          refine .next (v.pull _ _) hliterals rfl (hinside (.taken (congrArg (· + 1) pc) ?_)) rfl
            (pc ▸ L.levels_of_order hpop (by simp) (by simp))
          rw [hname]
          exact .call mem' here' more
  | taken pc stack =>
      have haddress : address.isLiteral = false := by
        simpa [Mark.isSound] using hformed.isSound here
      have hcell : address ∈ ρ.stores := by
        refine mem_stores.2 ⟨.giveBack value address, ?_, ?_⟩ <;> simp [here, Mark.orders]
      refine ⟨_, _, pc ▸ hsave, .store mem hcell haddress hliterals stack
        (hinside (.saved (congrArg (· + 1) pc) ?_)) (pc ▸ hsave)⟩
      simpa [View.store] using stack
  | saved pc stack =>
      exact ⟨_, _, pc ▸ hload, .next (v.load _) hliterals rfl
        (hinside (.chosen (congrArg (· + 1) pc) stack)) rfl
        (pc ▸ L.levels_of_order hload (by simp) (by simp))⟩
  | chosen pc stack =>
      exact ⟨_, _, pc ▸ hpush, admits_push (.next v.push hliterals rfl
        (hinside (.handed (congrArg (· + 1) pc) rfl stack)) rfl
        (pc ▸ L.levels_push hpush hsave (by simp)))⟩
  | handed pc top stack =>
      exact ⟨_, _, pc ▸ hreload, .next (v.load _) hliterals rfl
        (hinside (.leaving (congrArg (· + 1) pc) top stack)) rfl
        (pc ▸ L.levels_of_order hreload (by simp) (by simp))⟩
  | @leaving _ _ _ word below pc top stack =>
      refine ⟨_, _, pc ▸ hret, ?_⟩
      rw [hname] at stack
      generalize hacc : v.acc = target at stack
      cases stack with
      | @call ρ' done' rest' callee args result frames' _ mem' here' more =>
          have hlt : ρ'.returnAddress done' args < L.code.length := by
            obtain ⟨place, hget⟩ := (hparted.formed ρ' mem').orderAt_returnAddress here'
            exact (List.getElem?_eq_some_iff.1 hget).1
          have hsmall := hparted.small
          have hsize := hparted.size
          have hword : v.acc.address? = some (ρ'.returnAddress done' args) := by
            rw [hacc]
            exact Word.address?_ofAddress (by omega)
          simp only [Layout.turn, hword]
          rw [if_pos (by omega)]
          have hpoint : Point regions frames' (v.jump (ρ'.returnAddress done' args)) :=
            .inside mem' here' (.returned rfl ⟨[word], below, top, rfl, more⟩)
          exact .goes ⟨hliterals, hpoint⟩
            (@Way.back L regions _ v ⟨ρ', done', args⟩ frames' rest' _ result rfl mem' here' (pc ▸ hret))

theorem turn_inside (hparted : L.Parted regions) (mem : ρ ∈ regions) {m : Mark}
    (here : ρ.body = done ++ m :: rest) (hliterals : ∀ value, v.cells (.literal value) = value)
    (phase : Phase regions ρ done frames m v) :
    ∃ op target, OrderAt L.code v.pc op target ∧
      Admits L regions frames v (L.turn op target v) := by
  have hformed := hparted.formed ρ mem
  have hmem : m ∈ ρ.body := by simp [here]
  cases m with
  | place l =>
      cases phase with
      | start word pc stack => cases word
  | order op target =>
      cases phase with
      | start word pc stack =>
          obtain ⟨hat, -⟩ := hformed.orders here
          exact ⟨op, target, pc ▸ hat, admits_order hparted mem here hliterals pc stack⟩
  | call callee args result => exact turn_call hparted mem here hliterals phase
  | giveBack value address => exact turn_giveBack hparted mem here hliterals phase
  | receive params => exact absurd hmem (hformed.receive_not_mem params)
  | refused => exact absurd hmem hformed.accepted

/-- Every order leads from a safe state to a safe one, or it halts, waits for input, or
meets one of two faults. -/
theorem Safe.turn (hparted : L.Parted regions) (h : Safe regions frames v) :
    ∃ op target, OrderAt L.code v.pc op target ∧
      Admits L regions frames v (L.turn op target v) := by
  obtain ⟨hliterals, hpoint⟩ := h
  cases hpoint with
  | inside mem here phase => exact turn_inside hparted mem here hliterals phase
  | @entering ρ f params mem here pc stack =>
      obtain ⟨-, hnop, -⟩ := (hparted.formed ρ mem).entry here
      refine ⟨_, _, pc ▸ hnop, .next v.next hliterals rfl ?_ rfl
        (pc ▸ L.levels_of_order hnop (by simp) (by simp))⟩
      exact @Point.popping regions frames v.next ρ f [] params mem here (congrArg (· + 1) pc) stack
  | @popping ρ f taken left mem here pc stack =>
      have hformed := hparted.formed ρ mem
      obtain ⟨words, below, hstack, hlength, hrests⟩ := stack
      cases left with
      | nil =>
          -- all arguments have been taken, and the body begins
          obtain rfl := List.length_eq_zero_iff.1 hlength
          rw [List.append_nil] at here
          have hname : ρ.name = some f := by simp [Region.name, here]
          have hbegin : v.pc = ρ.start + width [] := by
            rw [pc, Region.Formed.start_eq here]
            rfl
          obtain ⟨done', m, rest', here', phase⟩ := hformed.resume (List.nil_append _).symm
            hformed.body_ne_nil hbegin (by rw [hname, hstack]; exact hrests)
          exact turn_inside hparted mem here' hliterals phase
      | cons c left =>
          obtain ⟨-, -, hpops⟩ := hformed.entry here
          obtain ⟨hpop, -⟩ := hpops.pops
          rw [Nat.add_assoc] at hpop
          obtain ⟨word, words, rfl⟩ := List.exists_cons_of_length_eq_add_one hlength
          refine ⟨_, _, pc ▸ hpop, ?_⟩
          simp only [Layout.turn, hstack, List.cons_append]
          refine .next (v.pull _ _) hliterals rfl (.storing mem here ?_ ?_) rfl
            (pc ▸ L.levels_of_order hpop (by simp) (by simp))
          · change v.pc + 1 = _
            omega
          · exact ⟨words, below, rfl, by simpa using hlength, hrests⟩
  | @storing ρ f taken left c mem here pc stack =>
      have hformed := hparted.formed ρ mem
      obtain ⟨-, -, hpops⟩ := hformed.entry here
      obtain ⟨-, hstore⟩ := hpops.pops
      rw [show ρ.base + 1 + (1 + 2 * taken.length) = ρ.base + (2 + 2 * taken.length) by omega]
        at hstore
      have hc : c.isLiteral = false := by
        have hsound := hformed.sound
        simp [Region.header, here, Mark.isSound] at hsound
        exact hsound.1.2.1
      have hsplit : ρ.function = some (f, (taken ++ [c]) ++ left) := by simp [here]
      have hcell : c ∈ ρ.stores := by
        refine mem_stores.2 ⟨.receive (taken ++ c :: left), ?_, ?_⟩
        · simp [Region.header, here]
        · simp [Mark.orders, Mark.pops]
      have hname : ρ.name = some f := by simp [Region.name, here]
      obtain ⟨words, below, hstack, hlength, hrests⟩ := stack
      refine ⟨_, _, pc ▸ hstore, .store mem hcell hc hliterals (hname ▸ hrests)
        (.popping mem hsplit ?_ ⟨words, below, hstack, hlength, hrests⟩) (pc ▸ hstore)⟩
      change v.pc + 1 = _
      rw [pc, List.length_append, List.length_singleton]
      omega

end Orders
end LittleMan
