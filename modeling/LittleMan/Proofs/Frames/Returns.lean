import LittleMan.Proofs.Blueprint.Returns
import LittleMan.Proofs.Frames.Sites

/-!
# The calls and returns of a program

`Program.returns` has all `return` statements of a program, and the return at the end of each
function, which its text does not show.  A `RET` of the code is the last word of one of them,
and a `LDAPC` is the first word of a call among the sites of the program.
-/

namespace LittleMan

open Mark

theorem Mark.exists_picked {pick : Mark → Bool} {marks : List Mark} {p a k : Nat} {op : Opcode}
    (hpick : ∀ m : Mark, m.isSound = true → ∀ (i : Nat) target,
      m.orders[i]? = some (op, target) → pick m = true ∧ i = k)
    {code : List Entry} {target : Target} (hsound : marks.all isSound = true)
    (hlaid : Laid code p marks) (hle : p ≤ a) (hlt : a < p + width marks)
    (hat : OrderAt code a op target) : ∃ q m, (q, m) ∈ picked pick marks p ∧ a = q + k := by
  induction marks generalizing p with
  | nil =>
      rw [width_nil] at hlt
      omega
  | cons m marks ih =>
      rw [List.all_cons, Bool.and_eq_true] at hsound
      rw [width_cons] at hlt
      by_cases hin : a < p + m.orders.length
      · obtain ⟨i, rfl⟩ := Nat.exists_eq_add_of_le hle
        have hi : i < m.orders.length := by omega
        have horder := List.getElem?_eq_getElem hi
        obtain ⟨hop, htarget⟩ := hat.unique (hlaid.2.1.orderAt horder)
        obtain ⟨hm, rfl⟩ := hpick m hsound.1 i target (by rw [horder, hop, htarget]; rfl)
        exact ⟨p, m, mem_picked.2 ⟨hm, [], marks, rfl, rfl⟩, rfl⟩
      · obtain ⟨q, m', hmem, hq⟩ := ih hsound.2 hlaid.2.2 (by omega) (by omega)
        obtain ⟨hm, done, rest, rfl, rfl⟩ := mem_picked.1 hmem
        refine ⟨_, m', mem_picked.2 ⟨hm, m :: done, rest, rfl, rfl⟩, ?_⟩
        rw [hq, width_cons, Nat.add_assoc p]

namespace Program

variable {program : Program}

/-- The returns of the main program or of a function.  A function ends with one. -/
def returnsOf (program : Program) (slot : Slot) : List ReturnSite :=
  let first := (program.slotRegion slot).start
  Stmt.returnsInBlock (program.cellOf slot.owner) none (program.bodyOf slot.owner) slot.counters
      first ++
    match slot.owner with
    | none => []
    | some _ =>
        [⟨first + width (program.emitSlot slot).marks, (program.emitSlot slot).counters, none⟩]

def returns (program : Program) : List (Option FunctionDecl × ReturnSite) :=
  program.slots.flatMap fun slot => (program.returnsOf slot).map (slot.owner, ·)

theorem returned_slotRegion (program : Program) (slot : Slot) :
    picked isReturn (program.slotRegion slot).body (program.slotRegion slot).start =
      (program.returnsOf slot).map (ReturnSite.entry (program.cellOf slot.owner)) := by
  change picked isReturn ((program.emitSlot slot).marks ++ [program.lastMark slot]) _ = _
  rw [picked_append, returnsOf, List.map_append]
  refine congrArg₂ (· ++ ·) (Stmt.returned_emitBlock ..) ?_
  unfold lastMark
  cases slot.owner <;> rfl

theorem picked_functions {pick : Mark → Bool} (hplace : ∀ l, pick (.place l) = false)
    (hreceive : ∀ params, pick (.receive params) = false) (program : Program)
    (fs : List FunctionDecl) (base : Nat) (k : Counters) :
    picked pick (emitFunctions program.globals
        (fs.map fun f => .function f.name f.params f.body) k).marks base =
      (functionSlots program.globals fs base k).flatMap fun slot =>
        picked pick (program.slotRegion slot).body (program.slotRegion slot).start := by
  induction fs generalizing base k with
  | nil => rfl
  | cons f rest ih =>
      have hheader : picked pick (program.slotRegion ⟨some f, base, k⟩).header base = [] := by
        simp [Region.header, slotRegion, picked, hplace, hreceive]
      rw [List.map_cons, emitFunctions, picked_append, ih, functionSlots, List.flatMap_cons]
      refine congrArg (· ++ _) ?_
      rw [← functionRegion_marks program.globals f base k, picked_append]
      exact congrArg (· ++ _) hheader

theorem picked_marks {pick : Mark → Bool} (hplace : ∀ l, pick (.place l) = false)
    (hreceive : ∀ params, pick (.receive params) = false) (program : Program) :
    picked pick program.marks 0 = program.slots.flatMap fun slot =>
      picked pick (program.slotRegion slot).body (program.slotRegion slot).start := by
  rw [marks, emitFunctions_eq, picked_append, Nat.zero_add]
  exact congrArg (_ ++ ·) (picked_functions hplace hreceive program program.declared _ _)

theorem exists_picked_slot {pick : Mark → Bool} (hplace : ∀ l, pick (.place l) = false)
    (hreceive : ∀ params, pick (.receive params) = false) {op : Opcode} {k : Nat}
    (hpick : ∀ m : Mark, m.isSound = true → ∀ (i : Nat) target,
      m.orders[i]? = some (op, target) → pick m = true ∧ i = k)
    {a : Nat} {target : Target} (hat : OrderAt program.code a op target) :
    ∃ slot ∈ program.slots, ∃ q m, a = q + k ∧
      (q, m) ∈ picked pick (program.slotRegion slot).body (program.slotRegion slot).start := by
  obtain ⟨k, hfits⟩ := program.marks_fits
  have hlength : program.code.length = width program.marks := by
    simpa [width] using congrArg List.length program.orders_code
  have hlt := lt_length_of_orderAt hat
  obtain ⟨q, m, hmem, ha⟩ :=
    exists_picked hpick hfits.sound program.laid_marks (Nat.zero_le a) (by omega) hat
  rw [picked_marks hplace hreceive] at hmem
  obtain ⟨slot, hslot, hmem⟩ := List.mem_flatMap.1 hmem
  exact ⟨slot, hslot, q, m, ha, hmem⟩

theorem orders_of_mem_returns {owner : Option FunctionDecl} {s : ReturnSite}
    (hs : (owner, s) ∈ program.returns) :
    OrdersAt program.code (s.begins (program.cellOf owner))
      (Mark.giveBack (s.cell (program.cellOf owner)) (s.saved (program.cellOf owner))).orders := by
  obtain ⟨slot, hslot, hmem⟩ := List.mem_flatMap.1 hs
  obtain ⟨s, hsite, heq⟩ := List.mem_map.1 hmem
  obtain ⟨rfl, rfl⟩ := Prod.mk.inj heq
  have hentry : s.entry (program.cellOf slot.owner) ∈ picked isReturn program.marks 0 := by
    rw [picked_marks (fun _ => rfl) (fun _ => rfl)]
    apply List.mem_flatMap_of_mem hslot
    rw [returned_slotRegion]
    exact List.mem_map_of_mem hsite
  obtain ⟨-, done, rest, hmarks, hbegins⟩ := mem_picked.1 hentry
  have hlaid := program.laid_marks
  rw [hmarks, laid_append] at hlaid
  rw [hbegins]
  exact hlaid.2.2.1

/-- There is no other `RET` in the code. -/
theorem exists_return {a : Nat} {target : Target} (hat : OrderAt program.code a .ret target) :
    ∃ owner s, (owner, s) ∈ program.returns ∧ a = s.begins (program.cellOf owner) + 5 := by
  obtain ⟨slot, hslot, q, m, rfl, hmem⟩ :=
    exists_picked_slot (fun _ => rfl) (fun _ => rfl) (fun _ hm _ _ => isReturn_of_ret hm) hat
  rw [returned_slotRegion] at hmem
  obtain ⟨s, hs, hentry⟩ := List.mem_map.1 hmem
  exact ⟨slot.owner, s, List.mem_flatMap_of_mem hslot (List.mem_map_of_mem hs),
    congrArg (·.1 + 5) hentry.symm⟩

/-- The `LDAPC` of the code are those of the calls among the sites. -/
theorem exists_site {a : Nat} {target : Target} (hat : OrderAt program.code a .ldaPc target) :
    ∃ owner s callee, (owner, s) ∈ program.sites ∧ s.operator = .call callee ∧
      a = s.begins (program.cellOf owner) := by
  obtain ⟨slot, hslot, q, m, rfl, hmem⟩ :=
    exists_picked_slot (fun _ => rfl) (fun _ => rfl) (fun _ hm _ _ => isCall_of_ldaPc hm) hat
  have hlast : ∀ p, picked isCall [program.lastMark slot] p = [] := by
    intro p
    unfold lastMark
    cases slot.owner <;> rfl
  change _ ∈ picked isCall ((program.emitSlot slot).marks ++ [program.lastMark slot]) _ at hmem
  rw [picked_append, hlast, List.append_nil] at hmem
  obtain ⟨s, hs, hentry⟩ := Stmt.covers_emitBlock _ _ _ _ _ _ hmem
  obtain ⟨callee, hop⟩ : ∃ callee, s.operator = .call callee := by
    cases hop : s.operator with
    | binary op => simp [Site.entry?, hop] at hentry
    | call callee => exact ⟨callee, rfl⟩
  refine ⟨slot.owner, s, callee, List.mem_flatMap_of_mem hslot (List.mem_map_of_mem hs), hop, ?_⟩
  rw [Site.entry?, hop] at hentry
  exact (congrArg Prod.fst (Option.some.inj hentry)).symm

end Program
end LittleMan
