import LittleMan.Proofs.Blueprint.Assembled
import LittleMan.Proofs.View

/-!
# A machine that has loaded a program

The memory of the machine holds the words of the code, then the cells, then zeros up to
the size that was asked for.  `Program.Shows` says that a view gives the state of such a
machine, and `Shows.step` that a step of the machine does what the order at its program
counter does to the view, unless the limit of steps has been reached.
-/

namespace LittleMan

theorem Machine.pushInputs_eq {m : Machine} (h : m.status = .running)
    (values : List Word) : m.pushInputs values = { m with queue := m.queue ++ values } := by
  induction values generalizing m with
  | nil => simp [Machine.pushInputs]
  | cons value rest ih =>
      have hpush : m.pushInput value = { m with queue := m.queue ++ [value] } := by
        simp [Machine.pushInput, h]
      rw [Machine.pushInputs, List.foldl_cons, hpush]
      have hrest := ih (m := { m with queue := m.queue ++ [value] }) h
      rw [Machine.pushInputs] at hrest
      rw [hrest]
      simp

namespace Program

open Mark

/-- The program is spelled out and assembled to the image. -/
structure Built (program : Program) (r : Register) (image : Image) : Prop where
  spelled : ∃ sheet, program.Spelled sheet r
  assembled : program.Assembled r image

theorem built_of_build {source : String} {image : Image} (hok : build source = .ok image) :
    ∃ program r, parse source = .ok program ∧ (∀ stmt ∈ program.statements, stmt.Named) ∧
      program.Built r image := by
  cases hcompile : LittleMan.compile source with
  | error error => simp [build, hcompile, bind, Except.bind] at hok
  | ok compilation =>
      obtain ⟨program, hparse, hnamed, r, hspelled⟩ := spelled_of_compile hcompile
      refine ⟨program, r, hparse, hnamed, ⟨_, hspelled⟩, ?_⟩
      have hassemble : Image.assemble compilation.sheet.text = .ok image := by
        cases hresult : Image.assemble compilation.sheet.text with
        | error error =>
            simp [build, hcompile, bind, Except.bind, Compilation.text, hresult,
              Except.mapError] at hok
        | ok other =>
            simpa [build, hcompile, bind, Except.bind, Compilation.text, hresult,
              Except.mapError] using hok
      rcases hspelled.assemble_cases hnamed with
        ⟨-, ⟨other, hother, hassembled⟩ | ⟨n, hlarge⟩⟩ | ⟨-, line, label, first, htwice⟩
      · obtain rfl : other = image := Except.ok.inj (hother.symm.trans hassemble)
        exact hassembled
      · simp [hassemble] at hlarge
      · simp [hassemble] at htwice

/-- The words of the code in an image. -/
def words (program : Program) (image : Image) : List Word :=
  program.code.map fun entry =>
    entry.op.encode (Image.resolve image.labels entry.target.operand)

/-- The words of the memory after those of the image. -/
def padding (image : Image) (config : Config) : List Word :=
  (Machine.padded config image.memory).toList.drop image.memory.size

def layout (program : Program) (image : Image) (config : Config) : Layout where
  code := program.code
  place l := (image.labels.find? l.label).getD 0
  size := (Machine.padded config image.memory).size
  maxStack := config.maxStack

/-- The view gives the state of a machine that runs the program. -/
structure Shows (program : Program) (r : Register) (image : Image) (config : Config)
    (m : Machine) (v : View) : Prop where
  limits : m.config = config
  memory : m.memory.toList = program.words image ++ r.cells.map v.cells ++ padding image config
  pc : m.pc = v.pc
  acc : m.accumulator = v.acc
  stack : m.stack = v.stack
  queue : m.queue = v.queue
  output : m.output.toList = v.output
  keyboard : m.keyboard = none
  going : m.status ≠ .halted

variable {program : Program} {r : Register} {image : Image} {config : Config}

/-! ## The start -/

theorem padded_toList (config : Config) (memory : Array Word) :
    ∃ zeros, (Machine.padded config memory).toList = memory.toList ++ zeros := by
  unfold Machine.padded
  cases config.memorySize with
  | none => exact ⟨[], by simp⟩
  | some size =>
      exact ⟨List.replicate (min size Image.memoryLimit - memory.size) 0, by simp⟩

theorem Assembled.padded_eq (h : program.Assembled r image) (config : Config) :
    (Machine.padded config image.memory).toList =
      program.words image ++ r.cells.map Cell.initial ++ padding image config := by
  obtain ⟨zeros, hzeros⟩ := padded_toList config image.memory
  have hpadding : padding image config = zeros := by
    simp [padding, hzeros, ← Array.length_toList]
  rw [hpadding, hzeros, h.memory]
  rfl

theorem Assembled.shows_start (h : program.Assembled r image) (inputs : List Word)
    (config : Config) :
    program.Shows r image config (image.start inputs config) (View.start inputs) := by
  have hstart : image.start inputs config =
      { (Machine.new config).load image.memory with queue := inputs } := by
    rw [Image.start, Machine.pushInputs_eq rfl]
    rfl
  rw [hstart]
  exact {
    limits := rfl
    memory := h.padded_eq config
    pc := rfl
    acc := rfl
    stack := rfl
    queue := rfl
    output := rfl
    keyboard := rfl
    going := by simp [Machine.load, Machine.reset] }

/-! ## One step -/

/-- The operand of a word that names a target. -/
def Addresses (program : Program) (r : Register) (image : Image) (config : Config) :
    Target → Nat → Prop
  | .none, _ => True
  | .cell c, operand => ∃ i, r.cells[i]? = some c ∧ operand = program.code.length + i
  | .place l, operand =>
      operand = (program.layout image config).place l ∧ operand < program.code.length

theorem lt_length_of_orderAt {code : List Entry} {p : Nat} {op : Opcode} {target : Target}
    (h : OrderAt code p op target) : p < code.length := by
  obtain ⟨place, hget⟩ := h
  exact (List.getElem?_eq_some_iff.1 hget).1

theorem isLegal_of_orderAt {p : Nat} {op : Opcode} {target : Target}
    (h : OrderAt program.code p op target) : isLegal op target = true := by
  obtain ⟨place, hget⟩ := h
  exact program.isLegal_of_mem_code (List.mem_of_getElem? hget)

theorem mem_orders_of_orderAt {p : Nat} {op : Opcode} {target : Target}
    (h : OrderAt program.code p op target) : (op, target) ∈ program.marks.flatMap Mark.orders := by
  obtain ⟨place, hget⟩ := h
  exact program.order_mem_of_mem_code (List.mem_of_getElem? hget)

/-- A place of the code stands where the layout says. -/
theorem Assembled.place_eq (h : program.Assembled r image) (config : Config) {a : Nat} {l : Place}
    (hl : PlaceAt program.code a l) : (program.layout image config).place l = a := by
  simp [layout, h.place hl]

/-- Words of the code are read back as the orders that they are. -/
theorem Built.decode_word (h : program.Built r image) (config : Config) {p : Nat} {op : Opcode}
    {target : Target} (hat : OrderAt program.code p op target) :
    ∃ operand, Opcode.decode (op.encode (Image.resolve image.labels target.operand)) =
        some (op, operand) ∧
      Addresses program r image config target operand := by
  obtain ⟨⟨sheet, hspelled⟩, hassembled⟩ := h
  have hlegal := isLegal_of_orderAt hat
  have hfits : program.code.length + r.cells.length ≤ 1000 := hassembled.fits
  cases target with
  | none =>
      have hbare : op.takesAddress = false ∧ op ≠ .dat := by
        cases op <;> simp_all [isLegal, isSimple, Opcode.takesAddress]
      obtain ⟨n, hn⟩ := Opcode.decode_encode_bare hbare.1 hbare.2 0
      exact ⟨n, hn, trivial⟩
  | cell c =>
      have haddress : op.takesAddress = true := by
        cases op <;> simp_all [isLegal, isSimple, Opcode.takesAddress]
      have hcell : c ∈ r.cells := hspelled.cells
        (List.mem_filterMap.2 ⟨_, mem_orders_of_orderAt hat, rfl⟩)
      obtain ⟨i, hi⟩ := List.getElem?_of_mem hcell
      have hlt := (List.getElem?_eq_some_iff.1 hi).1
      refine ⟨program.code.length + i, ?_, i, hi, rfl⟩
      simp only [Target.operand, Image.resolve, hassembled.cell hi, Option.getD_some]
      exact Opcode.decode_encode_ofAddress haddress (by omega)
  | place l =>
      have haddress : op.takesAddress = true := by
        cases op <;> simp_all [isLegal, isSimple, Opcode.takesAddress]
      obtain ⟨a, ha⟩ := program.placeAt_of_mem (hspelled.mem_places (mem_orders_of_orderAt hat))
      have hlt : a < program.code.length := by
        obtain ⟨entry, hget, -⟩ := ha
        exact (List.getElem?_eq_some_iff.1 hget).1
      refine ⟨a, ?_, (hassembled.place_eq config ha).symm, hlt⟩
      simp only [Target.operand, Image.resolve, hassembled.place ha, Option.getD_some]
      exact Opcode.decode_encode_ofAddress haddress (by omega)

variable {m : Machine} {v : View}

namespace Shows

theorem size (h : program.Shows r image config m v) (hassembled : program.Assembled r image) :
    m.memory.size = (program.layout image config).size ∧
      program.code.length + r.cells.length ≤ m.memory.size := by
  have hsize := congrArg List.length h.memory
  have hpadded := congrArg List.length (hassembled.padded_eq config)
  simp only [Array.length_toList, List.length_append, List.length_map, words] at hsize hpadded
  simp only [layout]
  omega

theorem word (h : program.Shows r image config m v) {p : Nat} {op : Opcode} {target : Target}
    (hat : OrderAt program.code p op target) :
    m.memory[p]? = some (op.encode (Image.resolve image.labels target.operand)) := by
  have hlt := lt_length_of_orderAt hat
  obtain ⟨place, hget⟩ := hat
  rw [← Array.getElem?_toList, h.memory, List.append_assoc, List.getElem?_append_left
    (by simpa [words] using hlt), words, List.getElem?_map, hget]
  rfl

theorem cell (h : program.Shows r image config m v) {i : Nat} {c : Cell}
    (hc : r.cells[i]? = some c) : m.memory[program.code.length + i]? = some (v.cells c) := by
  have hlt := (List.getElem?_eq_some_iff.1 hc).1
  have hlength : (program.words image).length = program.code.length := by simp [words]
  rw [← Array.getElem?_toList, h.memory, List.getElem?_append_left (by simp [hlength, hlt]),
    List.getElem?_append_right (by omega), hlength, Nat.add_sub_cancel_left, List.getElem?_map, hc]
  rfl

/-- The instruction at the program counter is the order that stands there. -/
theorem fetch (h : program.Shows r image config m v) (hbuilt : program.Built r image)
    {op : Opcode} {target : Target} (hat : OrderAt program.code v.pc op target)
    (hlimit : m.checkLimit = .ok ()) :
    ∃ operand, m.fetch = .ok (op, operand) ∧
      Addresses program r image config target operand := by
  obtain ⟨operand, hdecode, haddresses⟩ := hbuilt.decode_word config hat
  refine ⟨operand, ?_, haddresses⟩
  have hread : m.read m.pc = .ok (op.encode (Image.resolve image.labels target.operand)) := by
    simp [Machine.read, h.pc, h.word hat]
  simp [Machine.fetch, hlimit, hread, hdecode, bind, Except.bind, pure, Except.pure]

/-- Storing into the memory is an update of the cell. -/
theorem store (h : program.Shows r image config m v) (hnodup : r.cells.Nodup) {i : Nat} {c : Cell}
    (hc : r.cells[i]? = some c) (value : Word) :
    (m.memory.setIfInBounds (program.code.length + i) value).toList =
      program.words image ++ r.cells.map (Function.update v.cells c value) ++
        padding image config := by
  have hlt := (List.getElem?_eq_some_iff.1 hc).1
  have hlength : (program.words image).length = program.code.length := by simp [words]
  have hcells : (r.cells.map v.cells).set i value =
      r.cells.map (Function.update v.cells c value) := by
    apply List.ext_getElem?
    intro j
    rw [List.getElem?_set, List.getElem?_map]
    by_cases hij : i = j
    · subst hij
      rw [if_pos rfl, if_pos (by simpa using hlt), List.getElem?_map, hc, Option.map_some,
        Function.update_self]
    · rw [if_neg hij, List.getElem?_map]
      cases hj : r.cells[j]? with
      | none => rfl
      | some d =>
          have hne : d ≠ c := by
            rintro rfl
            exact hij ((List.getElem?_inj hlt hnodup).1 (hc.trans hj.symm))
          simp [hne]
  rw [Array.toList_setIfInBounds, h.memory, List.append_assoc,
    List.set_append_right _ _ (by omega), hlength, Nat.add_sub_cancel_left,
    List.set_append_left _ _ (by simpa using hlt), hcells, List.append_assoc]

/-! What is done to the machine is done to the view. -/

theorem idle (h : program.Shows r image config m v) :
    program.Shows r image config (m.perform .idle) v.next :=
  { h with
    pc := congrArg (· + 1) h.pc
    going := by simp [Machine.perform, Machine.proceed] }

theorem load (h : program.Shows r image config m v) (value : Word) :
    program.Shows r image config (m.perform (.load value)) (v.load value) :=
  { h with
    pc := congrArg (· + 1) h.pc
    acc := rfl
    going := by simp [Machine.perform, Machine.proceed] }

theorem jump (h : program.Shows r image config m v) (address : Nat) :
    program.Shows r image config (m.perform (.jump address)) (v.jump address) :=
  { h with
    pc := rfl
    going := by simp [Machine.perform, Machine.proceed] }

theorem put (h : program.Shows r image config m v) (output : Output) :
    program.Shows r image config (m.perform (.put output)) (v.put output) :=
  { h with
    pc := congrArg (· + 1) h.pc
    output := by simp [Machine.perform, Machine.proceed, Machine.put, View.put, h.output]
    going := by simp [Machine.perform, Machine.proceed] }

theorem push (h : program.Shows r image config m v) :
    program.Shows r image config (m.perform .push) v.push :=
  { h with
    pc := congrArg (· + 1) h.pc
    stack := congrArg₂ List.cons h.acc h.stack
    going := by simp [Machine.perform, Machine.proceed] }

theorem pull (h : program.Shows r image config m v) (top : Word) (rest : List Word) :
    program.Shows r image config (m.perform (.pop top rest)) (v.pull top rest) :=
  { h with
    pc := congrArg (· + 1) h.pc
    acc := rfl
    stack := rfl
    going := by simp [Machine.perform, Machine.proceed] }

theorem save (h : program.Shows r image config m v) (hnodup : r.cells.Nodup) {i : Nat} {c : Cell}
    (hc : r.cells[i]? = some c) :
    program.Shows r image config (m.perform (.store (program.code.length + i))) (v.store c) :=
  { h with
    pc := congrArg (· + 1) h.pc
    memory := by
      simpa only [Machine.perform, Machine.proceed, View.store, h.acc] using
        h.store hnodup hc m.accumulator
    going := by simp [Machine.perform, Machine.proceed] }

/-- What a step does, told by the view. -/
inductive Steps (program : Program) (r : Register) (image : Image) (config : Config)
    (m : Machine) : Turn → Prop
  | goes {m' : Machine} {v' : View} (step : m.step = (.ok .running, m'))
      (shows : program.Shows r image config m' v') : Steps program r image config m (.goes v')
  | halts (step : m.step = (.ok .halted, m.perform .halt)) :
      Steps program r image config m .halts
  | waits (step : m.step = (.ok .awaitingInput, { m with status := .awaitingInput })) :
      Steps program r image config m .waits
  | faults {cause : FaultCause} (step : m.step = (.error ⟨m.pc, cause⟩, m)) :
      Steps program r image config m (.faults cause)

theorem step_plan {op : Opcode} {operand : Nat} (hgoing : m.status ≠ .halted)
    (hfetch : m.fetch = .ok (op, operand)) (hinp : op ≠ .inp) {action : Action}
    (hplan : m.plan op operand = .ok action) :
    m.step = (.ok (m.perform action).status, m.perform action) := by
  simp [Machine.step, hgoing, hfetch, hinp, hplan]

theorem step_fault {op : Opcode} {operand : Nat} (hgoing : m.status ≠ .halted)
    (hfetch : m.fetch = .ok (op, operand)) (hinp : op ≠ .inp) {cause : FaultCause}
    (hplan : m.plan op operand = .error cause) :
    m.step = (.error ⟨m.pc, cause⟩, m) := by
  simp [Machine.step, hgoing, hfetch, hinp, hplan]

/-- What a plan does, told by the view. -/
inductive Planned (program : Program) (r : Register) (image : Image) (config : Config)
    (m : Machine) : Except FaultCause Action → Turn → Prop
  | goes {action : Action} {v' : View} (running : (m.perform action).status = .running)
      (shows : program.Shows r image config (m.perform action) v') :
      Planned program r image config m (.ok action) (.goes v')
  | halts : Planned program r image config m (.ok .halt) .halts
  | faults {cause : FaultCause} : Planned program r image config m (.error cause) (.faults cause)

theorem planned_sum (h : program.Shows r image config m v) (sum : Option Word) :
    Planned program r image config m (Machine.loadSum sum) (Layout.calculate v sum) := by
  cases sum with
  | none => exact .faults
  | some value => exact .goes rfl (h.load value)

theorem planned_jump (h : program.Shows r image config m v) {address : Nat}
    (hlt : address < m.memory.size) :
    Planned program r image config m ((m.within address).map .jump) (.goes (v.jump address)) := by
  have hwithin : m.within address = .ok address := if_pos hlt
  rw [hwithin]
  exact .goes rfl (h.jump address)

theorem planned_cell (h : program.Shows r image config m v) (hassembled : program.Assembled r image)
    (hnodup : r.cells.Nodup) {op : Opcode} {c : Cell} (hlegal : isLegal op (.cell c) = true)
    {i : Nat} (hi : r.cells[i]? = some c) :
    Planned program r image config m (m.plan op (program.code.length + i))
      ((program.layout image config).turn op (.cell c) v) := by
  have hread : m.read (program.code.length + i) = .ok (v.cells c) := by
    simp [Machine.read, h.cell hi]
  have hlt := (List.getElem?_eq_some_iff.1 hi).1
  have hwithin : m.within (program.code.length + i) = .ok (program.code.length + i) :=
    if_pos (by have := (h.size hassembled).2; omega)
  cases op <;> simp only [isLegal, isSimple, Bool.false_eq_true] at hlegal
  case add =>
    simp only [Machine.plan, hread, h.acc]
    exact h.planned_sum _
  case sub =>
    simp only [Machine.plan, hread, h.acc]
    exact h.planned_sum _
  case lda =>
    simp only [Machine.plan, hread]
    exact .goes rfl (h.load _)
  case sta =>
    simp only [Machine.plan, hwithin]
    exact .goes rfl (h.save hnodup hi)

theorem planned_place (h : program.Shows r image config m v) {op : Opcode} {l : Place}
    (hlegal : isLegal op (.place l) = true)
    (hlt : (program.layout image config).place l < m.memory.size) :
    Planned program r image config m (m.plan op ((program.layout image config).place l))
      ((program.layout image config).turn op (.place l) v) := by
  cases op <;> simp only [isLegal, isSimple, Bool.false_eq_true] at hlegal
  case bra => exact h.planned_jump hlt
  case brz =>
    simp only [Machine.plan, Layout.turn, h.acc]
    split
    · exact h.planned_jump hlt
    · exact .goes rfl h.idle
  case brp =>
    simp only [Machine.plan, Layout.turn, h.acc]
    split
    · exact h.planned_jump hlt
    · exact .goes rfl h.idle

theorem planned_none (h : program.Shows r image config m v)
    (hsize : m.memory.size = (program.layout image config).size) {op : Opcode}
    (hlegal : isLegal op .none = true) (hinp : op ≠ .inp) (operand : Nat) :
    Planned program r image config m (m.plan op operand)
      ((program.layout image config).turn op .none v) := by
  cases op <;> simp only [isLegal, isSimple, Bool.false_eq_true] at hlegal
  case hlt => exact .halts
  case nop => exact .goes rfl h.idle
  case out => exact .goes rfl (by simpa only [h.acc] using h.put (.number m.accumulator))
  case outC =>
    exact .goes rfl (by simpa only [h.acc] using h.put (.char (Machine.charOf m.accumulator)))
  case inp => exact absurd rfl hinp
  case ldaPc =>
    simp only [Machine.plan, Layout.turn, h.pc]
    exact .goes rfl (h.load _)
  case pop =>
    simp only [Machine.plan, Layout.turn, h.stack]
    cases v.stack with
    | nil => exact .faults
    | cons top rest => exact .goes rfl (h.pull top rest)
  case psh =>
    have hheight : m.stack.length = v.stack.length := congrArg List.length h.stack
    have hmax : m.config.maxStack = (program.layout image config).maxStack :=
      congrArg Config.maxStack h.limits
    simp only [Machine.plan, Layout.turn, hmax, hheight]
    by_cases hfull : (program.layout image config).maxStack ≤ v.stack.length
    · rw [if_pos hfull, if_pos hfull]
      exact .faults
    · rw [if_neg hfull, if_neg hfull]
      exact .goes rfl h.push
  case ret =>
    simp only [Machine.plan, Layout.turn, Machine.locate, h.acc, hsize]
    cases v.acc.address? with
    | none => exact .faults
    | some address =>
        simp only
        split
        · exact .goes rfl (h.jump address)
        · exact .faults

theorem step_input (h : program.Shows r image config m v) {operand : Nat}
    (hfetch : m.fetch = .ok (.inp, operand)) :
    Steps program r image config m ((program.layout image config).turn .inp .none v) := by
  have hstep : m.step = m.input := by simp [Machine.step, h.going, hfetch]
  have hqueue := h.queue
  cases hv : v.queue with
  | nil =>
      have hinput : m.input = (.ok .awaitingInput, { m with status := .awaitingInput }) := by
        simp [Machine.input, Machine.ask, hqueue, hv, h.keyboard]
      simp only [Layout.turn, hv]
      exact .waits (hstep.trans hinput)
  | cons value rest =>
      have hinput : m.input =
          (.ok .running, { m with queue := rest }.perform (.load value)) := by
        simp [Machine.input, Machine.ask, hqueue, hv]
      simp only [Layout.turn, hv]
      exact .goes (hstep.trans hinput) {
        h with
        pc := congrArg (· + 1) h.pc
        acc := rfl
        queue := rfl
        going := by simp [Machine.perform, Machine.proceed] }

/-- A step does to the view what its order says. -/
theorem step (h : program.Shows r image config m v) (hbuilt : program.Built r image)
    {op : Opcode} {target : Target} (hat : OrderAt program.code v.pc op target)
    (hlimit : m.checkLimit = .ok ()) :
    Steps program r image config m ((program.layout image config).turn op target v) := by
  obtain ⟨operand, hfetch, haddresses⟩ := h.fetch hbuilt hat hlimit
  have hlegal := isLegal_of_orderAt hat
  obtain ⟨hsize, hfits⟩ := h.size hbuilt.assembled
  obtain ⟨⟨sheet, hspelled⟩, hassembled⟩ := hbuilt
  by_cases hinp : op = .inp
  · subst hinp
    obtain rfl : target = .none := by
      cases target <;> simp_all [isLegal, isSimple]
    exact h.step_input hfetch
  · have hplanned : Planned program r image config m (m.plan op operand)
        ((program.layout image config).turn op target v) := by
      cases target with
      | none => exact h.planned_none hsize hlegal hinp operand
      | cell c =>
          obtain ⟨i, hi, rfl⟩ := haddresses
          exact h.planned_cell hassembled hspelled.sound.nodup_cells hlegal hi
      | place l =>
          obtain ⟨rfl, hlt⟩ := haddresses
          exact h.planned_place hlegal (by omega)
    generalize hplan : m.plan op operand = plan at hplanned
    generalize (program.layout image config).turn op target v = t at hplanned ⊢
    cases hplanned with
    | goes running shows =>
        exact .goes (running ▸ step_plan h.going hfetch hinp hplan) shows
    | halts => exact .halts (step_plan h.going hfetch hinp hplan)
    | faults => exact .faults (step_fault h.going hfetch hinp hplan)

end Shows

end Program
end LittleMan
