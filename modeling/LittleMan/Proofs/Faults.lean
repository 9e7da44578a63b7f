import LittleMan.Proofs.Rewinding
import LittleMan.Proofs.Sessions

/-!
# Faults leave no trace

Whatever can go wrong with an instruction is found while it is fetched and planned, before
anything is done.  A machine that meets a fault is therefore the machine that it was, and
meets the same fault again if it is asked to go on.  `INP` alone finds its fault after it
has taken something: a line that is no numeral is gone from the keyboard, and the next step
asks for the line that follows.
-/

namespace LittleMan
namespace Machine

/-! ## Faults that are no matter of input -/

/-- If the computation fails, then not because of a line that cannot be read. -/
def Inputless {α : Type} (x : Except FaultCause α) : Prop :=
  ∀ text, x ≠ .error (.invalidInput text)

namespace Inputless

variable {α β : Type}

theorem ok (a : α) : Inputless (.ok a) := fun _ h => nomatch h

theorem error {cause : FaultCause} (h : ∀ text, cause ≠ .invalidInput text) :
    Inputless (.error cause : Except FaultCause α) :=
  fun text heq => h text (Except.error.inj heq)

theorem bind {x : Except FaultCause α} {f : α → Except FaultCause β} (hx : Inputless x)
    (hf : ∀ a, Inputless (f a)) : Inputless (x >>= f) := by
  cases x with
  | error cause => exact error fun text heq => hx text (by rw [heq])
  | ok a => exact hf a

theorem map {x : Except FaultCause α} (hx : Inputless x) (f : α → β) : Inputless (x.map f) := by
  cases x with
  | error cause => exact error fun text heq => hx text (by rw [heq])
  | ok a => exact ok (f a)

end Inputless

variable {m : Machine}

theorem inputless_read (m : Machine) (address : Nat) : Inputless (m.read address) := by
  unfold read
  split
  · exact .ok _
  · exact .error (by simp)

theorem inputless_within (m : Machine) (address : Nat) : Inputless (m.within address) := by
  unfold within
  split
  · exact .ok _
  · exact .error (by simp)

theorem inputless_locate (m : Machine) (address : Word) : Inputless (m.locate address) := by
  unfold locate
  split
  · split
    · exact .ok _
    · exact .error (by simp)
  · exact .error (by simp)

theorem inputless_loadSum (sum : Option Word) : Inputless (loadSum sum) := by
  cases sum with
  | none => exact .error (by simp)
  | some value => exact .ok _

theorem inputless_fetch (m : Machine) : Inputless m.fetch := by
  refine .bind ?_ fun _ => .bind (m.inputless_read m.pc) fun word => ?_
  · unfold checkLimit
    split
    · split
      · exact .error (by simp)
      · exact .ok _
    · exact .ok _
  · split
    · exact .ok _
    · exact .error (by simp)

theorem inputless_plan (m : Machine) (op : Opcode) (operand : Nat) :
    Inputless (m.plan op operand) := by
  cases op with
  | add => exact .bind (m.inputless_read _) fun _ => inputless_loadSum _
  | sub => exact .bind (m.inputless_read _) fun _ => inputless_loadSum _
  | sta => exact (m.inputless_within _).map _
  | lda => exact (m.inputless_read _).map _
  | bra => exact (m.inputless_within _).map _
  | brz =>
      simp only [plan]
      split
      · exact (m.inputless_within _).map _
      · exact .ok _
  | brp =>
      simp only [plan]
      split
      · exact (m.inputless_within _).map _
      · exact .ok _
  | pop =>
      simp only [plan]
      split
      · exact .ok _
      · exact .error (by simp)
  | psh =>
      simp only [plan]
      split
      · exact .error (by simp)
      · exact .ok _
  | ldaAcc => exact .bind (m.inputless_locate _) fun _ => (m.inputless_read _).map _
  | ret => exact (m.inputless_locate _).map _
  | _ => exact .ok _

/-! ## What a fault leaves -/

theorem ask_unreadable {asked : Machine} {text : String} (h : m.ask = (.unreadable text, asked)) :
    m.queue = [] ∧ ∃ rest, m.keyboard = some (some text :: rest) ∧
      asked = { m with keyboard := some rest } := by
  unfold ask at h
  split at h
  next => cases h
  next line keyboard hqueue hkeyboard =>
    simp only at h
    split at h
    · cases h
    · obtain ⟨hline, rfl⟩ := Prod.mk.inj h
      obtain rfl := Answer.unreadable.inj hline
      exact ⟨hqueue, keyboard, hkeyboard, rfl⟩
  all_goals cases h

/-- A fault names the instruction at which the machine stands.  It leaves the machine as it
was, or takes the line that cannot be read from the keyboard. -/
theorem step_error {m' : Machine} {fault : Fault} (h : m.step = (.error fault, m')) :
    fault.pc = m.pc ∧
      ((m' = m ∧ ∀ text, fault.cause ≠ .invalidInput text) ∨
        ∃ text rest, fault.cause = .invalidInput text ∧ m.queue = [] ∧
          m.keyboard = some (some text :: rest) ∧ m' = { m with keyboard := some rest }) := by
  have hcases := m.step_cases
  generalize m.step = result at h hcases
  cases hcases with
  | refused going fetch =>
      cases h
      exact ⟨rfl, .inl ⟨rfl, fun text heq => m.inputless_fetch text (by rw [fetch, ← heq])⟩⟩
  | fails going fetch other plan =>
      cases h
      exact ⟨rfl, .inl ⟨rfl, fun text heq => m.inputless_plan _ _ text (by rw [plan, ← heq])⟩⟩
  | garbled going fetch ask =>
      cases h
      obtain ⟨hqueue, rest, hkeyboard, hasked⟩ := ask_unreadable ask
      exact ⟨rfl, .inr ⟨_, rest, rfl, hqueue, hkeyboard, hasked⟩⟩
  | _ => cases h

/-- What a call returns if the machine stands before a fault. -/
def Reply.ofFault (fault : Fault) : Call → Reply
  | .push _ => .pushed
  | .step => .stepped (.error fault)
  | .run => .ended (.faulted fault)

theorem run_of_fault {fault : Fault} (h : m.step = (.error fault, m)) :
    m.run = (.faulted fault, m) :=
  run_of_keeps (n := 0) (fun i hi => absurd hi (by omega)) _ (by simp) (by simp [after, runFor, h])

/-- As long as nothing is pushed, the fault is met again and again. -/
theorem replies_of_fault {fault : Fault} (h : m.step = (.error fault, m)) {calls : List Call}
    (hcalls : ∀ call ∈ calls, call = .step ∨ call = .run) :
    m.replies calls = calls.map (Reply.ofFault fault) ∧ m.serveAll calls = m := by
  induction calls with
  | nil => exact ⟨rfl, rfl⟩
  | cons call calls ih =>
      obtain ⟨hcall, hrest⟩ := List.forall_mem_cons.1 hcalls
      obtain ⟨hreplies, hstate⟩ := ih hrest
      have hserve : m.reply call = Reply.ofFault fault call ∧ m.serve call = m := by
        rcases hcall with rfl | rfl
        · exact ⟨congrArg (Reply.stepped ∘ Prod.fst) h, congrArg Prod.snd h⟩
        · have hrun := run_of_fault h
          exact ⟨congrArg (Reply.ended ∘ Prod.fst) hrun, congrArg Prod.snd hrun⟩
      constructor
      · rw [replies, hserve.1, hserve.2, hreplies, List.map_cons]
      · rw [serveAll, List.foldl_cons, hserve.2]
        exact hstate

/-- A run that faults has come to the fault by steps that left the machine running. -/
theorem exists_of_run_faulted {m' : Machine} {fault : Fault} (h : m.run = (.faulted fault, m')) :
    ∃ n, m.Keeps n ∧ (m.after n).step = (.error fault, m') := by
  obtain ⟨n, hkeeps, hstop, hlast⟩ := exists_of_run h (by simp)
  refine ⟨n, hkeeps, ?_⟩
  rw [runFor] at hlast
  generalize (m.after n).step = result at hlast hstop
  obtain ⟨result, next⟩ := result
  cases result with
  | error fault =>
      cases hlast
      rfl
  | ok status => cases status <;> cases hlast

/-- A step that fails names the address it fails at and changes nothing but the keyboard,
and that only if a line could not be read; any other fault is met again by every step and
run that follows.  A run that fails leaves what its last step but one has left, less such a
line.  A text that is refused leaves the session as it was. -/
theorem fault_leaves_unchanged (m : Machine) :
    (∀ fault m', m.step = (.error fault, m') →
      fault.pc = m.pc ∧ m' = { m with keyboard := m'.keyboard } ∧
        ((∀ text, fault.cause ≠ .invalidInput text) →
          m' = m ∧ ∀ calls : List Call, (∀ call ∈ calls, call = .step ∨ call = .run) →
            m'.replies calls = calls.map (Reply.ofFault fault) ∧ m'.serveAll calls = m)) ∧
      (∀ fault m', m.run = (.faulted fault, m') → ∃ n,
        m.Keeps n ∧ (m.after n).step = (.error fault, m') ∧ fault.pc = (m.after n).pc ∧
          m' = { m.after n with keyboard := m'.keyboard } ∧
          ((∀ text, fault.cause ≠ .invalidInput text) → m' = m.after n)) ∧
      ∀ taken source error, m.loadSource source = .error error →
        Image.assemble source = .error error ∧
          Session.serve { machine := m, taken } (.assemble source) = { machine := m, taken } := by
  refine ⟨fun fault m' hstep => ?_, fun fault m' hrun => ?_, fun taken source error hload => ?_⟩
  · obtain ⟨hpc, ⟨rfl, -⟩ | ⟨text, rest, hcause, -, -, rfl⟩⟩ := step_error hstep
    · exact ⟨hpc, rfl, fun _ => ⟨rfl, fun calls hcalls => replies_of_fault hstep hcalls⟩⟩
    · exact ⟨hpc, rfl, fun hother => absurd hcause (hother text)⟩
  · obtain ⟨n, hkeeps, hstep⟩ := exists_of_run_faulted hrun
    obtain ⟨hpc, ⟨rfl, -⟩ | ⟨text, rest, hcause, -, -, rfl⟩⟩ := step_error hstep
    · exact ⟨n, hkeeps, hstep, hpc, rfl, fun _ => rfl⟩
    · exact ⟨n, hkeeps, hstep, hpc, rfl, fun hother => absurd hcause (hother text)⟩
  · refine ⟨?_, by simp only [Session.serve, hload]⟩
    rw [loadSource] at hload
    cases hassemble : Image.assemble source with
    | ok image =>
        rw [hassemble] at hload
        cases hload
    | error refusal =>
        rw [hassemble] at hload
        cases hload
        rfl

/-- A program counter that no address reaches, a `POP` after one step, and an instruction
without its operand. -/
theorem fault_leaves_unchanged_farAway :
    let far := (Machine.new {}).restore
      { memory := #[4000], accumulator := 3, pc := 0x8000000000000005, stack := [],
        status := .running }
    let fault : Fault := ⟨0x8000000000000005, .addressOutOfBounds (-0x7ffffffffffffffb) 1⟩
    let pops := (Machine.new {}).load #[4000, 4001]
    far.step = (.error fault, far) ∧
      far.replies [.step, .run] = [.stepped (.error fault), .ended (.faulted fault)] ∧
      pops.run.1 = .faulted ⟨1, .stackUnderflow⟩ ∧
      (∃ n, pops.Keeps n ∧ pops.run.2 = pops.after n) ∧
      far.loadSource "STA" = .error (.missingOperand 1 "STA") ∧
      Session.serve { machine := far } (.assemble "STA") = { machine := far } := by
  intro far fault pops
  have hstep : far.step = (.error fault, far) := by decide +kernel
  have hrun : pops.run.1 = .faulted ⟨1, .stackUnderflow⟩ := by decide +kernel
  have hload : far.loadSource "STA" = .error (.missingOperand 1 "STA") := by decide +kernel
  obtain ⟨-, -, hagain⟩ := (fault_leaves_unchanged far).1 fault far hstep
  have hreplies := ((hagain nofun).2 [.step, .run] (by simp)).1
  obtain ⟨n, hkeeps, -, -, -, hstate⟩ :=
    (fault_leaves_unchanged pops).2.1 _ pops.run.2 (Prod.ext hrun rfl)
  exact ⟨hstep, hreplies, hrun, ⟨n, hkeeps, hstate nofun⟩, hload,
    ((fault_leaves_unchanged far).2.2 [] _ _ hload).2⟩

end Machine
end LittleMan
