import LittleMan.Proofs.Frames

/-!
# Spans of code

A span is a stretch of a body that is entered at its beginning only.  It ends with code that
may call a function, but without that call.  The machine is inside a span while the program
counter is in it, and also while a call has not come back that stands in the part before
this end.

Every step into a span goes to its beginning.  As long as the machine is inside, a cell can
only be changed by the span itself or by functions that are called on the way.
-/

namespace LittleMan

open Mark

/-! ## Marks at an address -/

namespace Mark

variable {done rest first second : List Mark} {m : Mark}

theorem append_cases (h : done ++ m :: rest = first ++ second) :
    (∃ between, first = done ++ m :: between ∧ rest = between ++ second) ∨
      ∃ between, done = first ++ between ∧ second = between ++ m :: rest := by
  rcases List.append_eq_append_iff.1 h with ⟨between, rfl, hsecond⟩ | ⟨between, rfl, hsecond⟩
  · cases between with
    | nil => exact .inr ⟨[], by simp, by simpa using hsecond.symm⟩
    | cons head between =>
        obtain ⟨rfl, rfl⟩ : m = head ∧ rest = between ++ second := by simpa using hsecond
        exact .inl ⟨between, rfl, rfl⟩
  · exact .inr ⟨between, rfl, hsecond⟩

theorem mem_second (h : done ++ m :: rest = first ++ second) (hm : m.place? = none)
    (hle : width first ≤ width done) :
    ∃ between, done = first ++ between ∧ second = between ++ m :: rest := by
  rcases append_cases h with ⟨between, rfl, -⟩ | hsecond
  · have hpos := List.length_pos_iff.2 (orders_ne_nil hm)
    simp only [width_append, width_cons] at hle
    omega
  · exact hsecond

theorem mem_first (h : done ++ m :: rest = first ++ second) (hlt : width done < width first) :
    ∃ between, first = done ++ m :: between ∧ rest = between ++ second := by
  rcases append_cases h with hfirst | ⟨between, rfl, -⟩
  · exact hfirst
  · simp only [width_append] at hlt
    omega

theorem exists_of_mem_places {marks : List Mark} {l : Place} (h : l ∈ places marks) :
    ∃ before after, marks = before ++ .place l :: after := by
  obtain ⟨m, hm, hplace⟩ := List.mem_filterMap.1 h
  obtain rfl : m = .place l := by cases m <;> simp_all [Mark.place?]
  exact List.append_of_mem hm

end Mark

/-! ## Regions apart -/

namespace Region

def finish (ρ : Region) : Nat :=
  ρ.start + width ρ.body

/-- Two regions share neither an address nor a temporary. -/
structure Apart (ρ σ : Region) : Prop where
  addresses : ρ.finish ≤ σ.base ∨ σ.finish ≤ ρ.base
  temporaries : ∀ n, .temporary n ∈ ρ.stores → .temporary n ∉ σ.stores

theorem base_le_start (ρ : Region) : ρ.base ≤ ρ.start :=
  Nat.le_add_right _ _

end Region

theorem eq_of_address {regions : List Region} {ρ σ : Region} {a : Nat}
    (hapart : ∀ ρ ∈ regions, ∀ σ ∈ regions, ρ ≠ σ → ρ.Apart σ) (hρ : ρ ∈ regions)
    (hσ : σ ∈ regions) (hle : ρ.base ≤ a) (hlt : a < ρ.finish) (hle' : σ.base ≤ a)
    (hlt' : a < σ.finish) : ρ = σ := by
  by_contra hne
  rcases (hapart ρ hρ σ hσ hne).addresses with h | h <;> omega

theorem Region.Formed.place_lt_finish {code : List Entry} {ρ : Region} (h : ρ.Formed code)
    {before after : List Mark} {l : Place} (here : ρ.body = before ++ .place l :: after) :
    ρ.start + width before < ρ.finish := by
  rcases List.eq_nil_or_concat after with rfl | ⟨after, m, rfl⟩
  · cases h.last_word here
  · have hlast : ρ.body = (before ++ .place l :: after) ++ [m] := by simp [here]
    have hword := h.last_word hlast
    have hpos := List.length_pos_iff.2 (orders_ne_nil hword)
    simp only [Region.finish, here, width_append, width_cons, List.concat_eq_append]
    omega

/-! ## Spans -/

/-- A stretch of the body of a region: what comes before it, its code from the beginning to its
end, and what comes after it.  `first` is code that leads to the beginning. -/
structure Span where
  region : Region
  before : List Mark
  first : List Mark
  later : List Mark
  own : List Mark
  after : List Mark
  reach : Nat

namespace Span

variable (σ : Span)

def begins : Nat :=
  σ.region.start + width (σ.before ++ σ.first)

def turns : Nat :=
  σ.begins + width σ.later

def ends : Nat :=
  σ.turns + σ.reach

structure Formed (regions : List Region) : Prop where
  mem : σ.region ∈ regions
  body : σ.region.body = (σ.before ++ σ.first) ++ (σ.later ++ (σ.own ++ σ.after))
  entered : ∀ l ∈ branches (σ.before ++ σ.after), l ∉ places (σ.later ++ σ.own)
  leads : branches σ.first ⊆ places σ.first
  long : 3 ≤ σ.reach
  inside : σ.reach ≤ width σ.own
  jumps : ∀ {done rest : List Mark} {op : Opcode} {l : Place},
    σ.own = done ++ .order op (.place l) :: rest → width done < σ.reach
  calls : ∀ {done rest : List Mark} {callee : String} {args : List Cell} {result : Cell},
    σ.own = done ++ .call callee args result :: rest →
      σ.reach ≤ width done + (4 + 2 * args.length)

/-- The program counter is in the span, or a call of its first part has not come back. -/
def Inside (frames : List Frame) (v : View) : Prop :=
  (σ.begins ≤ v.pc ∧ v.pc < σ.ends) ∨
    ∃ frame ∈ frames, σ.begins ≤ frame.site ∧ frame.site < σ.turns

end Span

section Steps

variable {L : Layout} {regions : List Region} {σ : Span} {frames frames' : List Frame}
  {v v' : View}

namespace Span.Formed

variable (h : σ.Formed regions)
include h

theorem ends_le : σ.ends ≤ σ.region.finish := by
  have hinside := h.inside
  simp only [Region.finish, h.body, Span.ends, Span.turns, Span.begins, width_append]
  omega

theorem region_eq (hapart : ∀ ρ ∈ regions, ∀ σ ∈ regions, ρ ≠ σ → ρ.Apart σ) {ρ : Region}
    (mem : ρ ∈ regions) {done rest : List Mark} {m : Mark} (here : ρ.body = done ++ m :: rest)
    (hm : m.place? = none) (hle : σ.begins ≤ ρ.start + width done)
    (hlt : ρ.start + width done < σ.ends) : ρ = σ.region := by
  have hpos := List.length_pos_iff.2 (orders_ne_nil hm)
  have hfinish : ρ.start + width done < ρ.finish := by
    simp only [Region.finish, here, width_append, width_cons]
    omega
  have hbase := ρ.base_le_start
  have hbase' := σ.region.base_le_start
  have hends := h.ends_le
  refine eq_of_address hapart mem h.mem (by omega) hfinish ?_ (by omega)
  simp only [Span.begins] at hle
  omega

theorem call_mem_later (hapart : ∀ ρ ∈ regions, ∀ σ ∈ regions, ρ ≠ σ → ρ.Apart σ) {frame : Frame}
    (mem : frame.region ∈ regions) {rest : List Mark} {callee : String} {result : Cell}
    (here : frame.region.body = frame.done ++ .call callee frame.args result :: rest)
    (hle : σ.begins ≤ frame.site) (hlt : frame.site < σ.turns) :
    frame.region = σ.region ∧ .call callee frame.args result ∈ σ.later := by
  have hends : σ.turns ≤ σ.ends := Nat.le_add_right _ _
  have hregion := h.region_eq hapart mem here rfl hle (hlt.trans_le hends)
  refine ⟨hregion, ?_⟩
  simp only [Frame.site, hregion, Span.begins, Span.turns] at hle hlt
  have hsplit := here.symm.trans (hregion ▸ h.body)
  obtain ⟨between, hdone, hsecond⟩ := mem_second hsplit rfl (by omega)
  rw [hdone, width_append] at hlt
  obtain ⟨between', hlater, -⟩ := mem_first hsecond.symm (by omega)
  simp [hlater]

/-- A call that comes back to the span has been made from its first part. -/
theorem site_of_address (hapart : ∀ ρ ∈ regions, ∀ σ ∈ regions, ρ ≠ σ → ρ.Apart σ)
    {frame : Frame} (mem : frame.region ∈ regions) {rest : List Mark} {callee : String}
    {result : Cell} (here : frame.region.body = frame.done ++ .call callee frame.args result :: rest)
    (hle : σ.begins ≤ frame.address) (hlt : frame.address < σ.ends) :
    σ.begins ≤ frame.site ∧ frame.site < σ.turns := by
  have hinside := h.inside
  have hends := h.ends_le
  have hfinish := congrArg width here
  simp only [width_append, width_cons, orders, List.length_append, List.length_cons,
    List.length_nil, length_pushes] at hfinish
  obtain ⟨ρ, done, args⟩ := frame
  simp only [Frame.address, Region.returnAddress, Frame.site] at *
  have hregion : ρ = σ.region := by
    have hbase := ρ.base_le_start
    have hbase' := σ.region.base_le_start
    have hspan : σ.region.start ≤ σ.begins := Nat.le_add_right _ _
    refine eq_of_address hapart mem h.mem (a := ρ.start + width done + (4 + 2 * args.length))
      (by omega) ?_ (by omega) (by omega)
    simp only [Region.finish]
    omega
  subst hregion
  rcases append_cases (here.symm.trans h.body) with ⟨between, hfirst, -⟩ | ⟨between, rfl, hsecond⟩
  · have hwidth := congrArg width hfirst
    simp only [Span.begins, width_append, width_cons, orders, List.length_append, List.length_cons,
      List.length_nil, length_pushes] at hwidth hle
    omega
  rcases append_cases hsecond.symm with ⟨between', hlater, -⟩ | ⟨between', rfl, hown⟩
  · simp only [Span.begins, Span.turns, hlater, width_append, width_cons, orders,
      List.length_append, List.length_cons]
    omega
  -- the last part comes back after the end
  rcases append_cases hown.symm with ⟨between'', hown, -⟩ | ⟨between'', rfl, -⟩
  · have hcall := h.calls hown
    simp only [Span.ends, Span.turns, Span.begins, width_append] at hlt
    omega
  · simp only [Span.ends, Span.turns, Span.begins, width_append] at hlt
    omega

theorem branch_cases (hparted : L.Parted regions)
    (hapart : ∀ ρ ∈ regions, ∀ σ ∈ regions, ρ ≠ σ → ρ.Apart σ) {ρ : Region} (mem : ρ ∈ regions)
    {done rest : List Mark} {op : Opcode} {l : Place}
    (here : ρ.body = done ++ .order op (.place l) :: rest) (hle : σ.begins ≤ L.place l)
    (hlt : L.place l < σ.ends) :
    (σ.begins ≤ ρ.start + width done ∧ ρ.start + width done < σ.ends) ∨
      L.place l = σ.begins := by
  have hformed := hparted.formed ρ mem
  have hmem : l ∈ places ρ.body := hformed.branches (by simp [here])
  obtain ⟨before, after, hplace⟩ := exists_of_mem_places hmem
  have haddress : L.place l = ρ.start + width before := hparted.placed (hformed.placeAt hplace)
  have hfinish := hformed.place_lt_finish hplace
  obtain rfl : ρ = σ.region := by
    have hbase := ρ.base_le_start
    have hbase' := σ.region.base_le_start
    have hends := h.ends_le
    refine eq_of_address hapart mem h.mem (a := L.place l) (by omega) (by omega) ?_ (by omega)
    simp only [Span.begins] at hle
    omega
  by_cases hbegins : L.place l = σ.begins
  · exact .inr hbegins
  have hinside := h.inside
  -- the place is in the span, after its beginning
  have hin : l ∈ places (σ.later ++ σ.own) := by
    rcases append_cases (hplace.symm.trans h.body) with ⟨between, hfirst, -⟩ |
      ⟨between, rfl, hsecond⟩
    · have hwidth := congrArg width hfirst
      simp only [Span.begins, width_append, width_cons] at hle hbegins hwidth
      omega
    rw [← List.append_assoc] at hsecond
    rcases append_cases hsecond.symm with ⟨between', hlater, -⟩ | ⟨between', rfl, -⟩
    · simp [hlater, places, Mark.place?]
    · simp only [Span.ends, Span.turns, Span.begins, width_append] at hlt haddress
      omega
  rcases append_cases (here.symm.trans h.body) with ⟨between, hfirst, -⟩ | ⟨between, rfl, hsecond⟩
  · rcases append_cases hfirst.symm with ⟨between', hbefore, -⟩ | ⟨between', -, hleads⟩
    · exact absurd hin (h.entered l (by simp [hbefore]))
    · -- a branch before the beginning does not go past it
      obtain ⟨before', after', hplace'⟩ :=
        exists_of_mem_places (h.leads (show l ∈ branches σ.first by simp [hleads]))
      have hbody : σ.region.body = (σ.before ++ before') ++ .place l ::
          (after' ++ (σ.later ++ (σ.own ++ σ.after))) := by
        rw [h.body, hplace']
        simp
      have haddress' := hparted.placed (hformed.placeAt hbody)
      simp only [Span.begins, hplace', width_append, width_cons] at hle hbegins haddress'
      omega
  · refine .inl ⟨?_, ?_⟩
    · simp only [Span.begins, width_append]
      omega
    rcases append_cases hsecond.symm with ⟨between', hlater, -⟩ | ⟨between', rfl, hown⟩
    · simp only [Span.ends, Span.turns, Span.begins, hlater, width_append, width_cons, orders,
        List.length_singleton]
      omega
    rcases append_cases hown.symm with ⟨between'', hown, -⟩ | ⟨between'', -, hafter⟩
    · have hjump := h.jumps hown
      simp only [Span.ends, Span.turns, Span.begins, width_append]
      omega
    · exact absurd hin (h.entered l (by simp [hafter]))

/-- A step into the span goes to its beginning. -/
theorem inside_of_way (hparted : L.Parted regions)
    (hapart : ∀ ρ ∈ regions, ∀ σ ∈ regions, ρ ≠ σ → ρ.Apart σ)
    (hway : Way L regions frames v frames' v') (hin : σ.Inside frames' v') :
    σ.Inside frames v ∨ v'.pc = σ.begins := by
  have hnext : v'.pc = v.pc + 1 → σ.begins ≤ v'.pc ∧ v'.pc < σ.ends →
      σ.Inside frames v ∨ v'.pc = σ.begins := by
    intro hpc hrange
    by_cases hbegins : v'.pc = σ.begins
    · exact .inr hbegins
    · exact .inl (.inl (by omega))
  cases hway with
  | next pc cells => exact hin.elim (hnext pc) fun hframe => .inl (.inr hframe)
  | store mem cell stack => exact hin.elim (hnext rfl) fun hframe => .inl (.inr hframe)
  | @call _ ρ done rest callee args result mem here site pc cells =>
      rcases hin with hrange | ⟨frame, hframe, hle, hlt⟩
      · exact hnext pc hrange
      rcases List.mem_cons.1 hframe with rfl | hframe
      · have hlong := h.long
        refine .inl (.inl ?_)
        simp only [Frame.site, Span.ends] at hle hlt ⊢
        omega
      · exact .inl (.inr ⟨frame, hframe, hle, hlt⟩)
  | @branch ρ done rest op l mem here pc =>
      rcases hin with ⟨hle, hlt⟩ | hframe
      · exact (h.branch_cases hparted hapart mem here hle hlt).imp_left fun hrange =>
          .inl (pc ▸ hrange)
      · exact .inl (.inr hframe)
  | @enter ρ f params mem here =>
      rcases hin with ⟨hle, hlt⟩ | hframe
      · -- a function begins with its header, and the span is in a body
        have hstart : ρ.base < ρ.start := by
          rw [Region.Formed.start_eq here]
          omega
        have hends := h.ends_le
        have hbase := σ.region.base_le_start
        have hspan : σ.region.start ≤ σ.begins := Nat.le_add_right _ _
        have hle' : σ.begins ≤ ρ.base := hle
        have hlt' : ρ.base < σ.ends := hlt
        obtain rfl : ρ = σ.region := eq_of_address hapart mem h.mem (Nat.le_refl _)
          (hstart.trans_le (Nat.le_add_right _ _)) (by omega) (by omega)
        omega
      · exact .inl (.inr hframe)
  | @back frame frames' rest callee result top mem here =>
      subst top
      rcases hin with ⟨hle, hlt⟩ | ⟨frame', hframe, hrange⟩
      · refine .inl (.inr ⟨frame, List.mem_cons_self, ?_⟩)
        exact h.site_of_address hapart mem here hle hlt
      · exact .inl (.inr ⟨frame', List.mem_cons_of_mem _ hframe, hrange⟩)

end Span.Formed

/-! ## What a step changes -/

theorem OrdersAt.exists_order {code : List Entry} {p a : Nat} {orders : List (Opcode × Target)}
    (h : OrdersAt code p orders) (hle : p ≤ a) (hlt : a < p + orders.length) :
    ∃ order ∈ orders, OrderAt code a order.1 order.2 := by
  induction orders generalizing p with
  | nil =>
      rw [List.length_nil] at hlt
      omega
  | cons order rest ih =>
      obtain rfl | hne := eq_or_ne a p
      · exact ⟨order, List.mem_cons_self, h.1⟩
      · obtain ⟨order', hmem, hat⟩ := ih h.2 (by omega) (by rw [List.length_cons] at hlt; omega)
        exact ⟨order', List.mem_cons_of_mem _ hmem, hat⟩

theorem OrdersAt.orderAt {code : List Entry} {p i : Nat} {orders : List (Opcode × Target)}
    {op : Opcode} {target : Target} (h : OrdersAt code p orders)
    (hi : orders[i]? = some (op, target)) : OrderAt code (p + i) op target := by
  induction orders generalizing p i with
  | nil => cases hi
  | cons order rest ih =>
      cases i with
      | zero =>
          obtain rfl : order = (op, target) := Option.some.inj hi
          exact h.1
      | succ i =>
          have hat := ih h.2 hi
          rwa [Nat.add_right_comm] at hat

theorem Laid.ordersAt {code : List Entry} {p : Nat} {marks : List Mark} (h : Laid code p marks) :
    OrdersAt code p (marks.flatMap orders) := by
  induction marks generalizing p with
  | nil => trivial
  | cons m rest ih => exact ordersAt_append.2 ⟨h.2.1, ih h.2.2⟩

theorem Layout.cells_of_turn {op : Opcode} {target : Target} (h : L.turn op target v = .goes v') :
    v'.cells = v.cells ∨ ∃ c, op = .sta ∧ target = .cell c ∧ v' = v.store c := by
  have hcalculate : ∀ {value : Option Word}, Layout.calculate v value = .goes v' →
      v'.cells = v.cells := by
    intro value hvalue
    cases value with
    | none => cases hvalue
    | some value => cases hvalue; rfl
  cases target with
  | none =>
      refine .inl ?_
      cases op <;> simp only [Layout.turn] at h <;> (try split at h) <;> (try split at h) <;>
        cases h <;> rfl
  | cell c =>
      cases op <;> simp only [Layout.turn] at h
      case lda => cases h; exact .inl rfl
      case add => exact .inl (hcalculate h)
      case sub => exact .inl (hcalculate h)
      case sta => cases h; exact .inr ⟨c, rfl, rfl, rfl⟩
      all_goals cases h
  | place l =>
      refine .inl ?_
      cases op <;> simp only [Layout.turn] at h <;> (try split at h) <;> cases h <;> rfl

def RegionCalls (regions : List Region) (f g : String) : Prop :=
  ∃ ρ ∈ regions, ρ.name = some f ∧ g ∈ called ρ.body

/-- The function that runs has been called by way of every call that has not come back. -/
theorem Rests.reaches {name : Option String} {below : List Word}
    (h : Rests regions frames name below) {frame : Frame} (hframe : frame ∈ frames) :
    ∃ rest callee result g, frame.region ∈ regions ∧
      frame.region.body = frame.done ++ .call callee frame.args result :: rest ∧
      name = some g ∧ Relation.ReflTransGen (RegionCalls regions) callee g := by
  induction h with
  | main => cases hframe
  | @call ρ done rest callee args result frames below mem here more ih =>
      rcases List.mem_cons.1 hframe with rfl | hframe
      · exact ⟨rest, callee, result, callee, mem, here, rfl, .refl⟩
      · obtain ⟨rest', callee', result', g, mem', here', hname, hreaches⟩ := ih hframe
        have hcall : .call callee args result ∈ ρ.body := by simp [here]
        exact ⟨rest', callee', result', callee, mem', here', rfl,
          hreaches.tail ⟨ρ, mem, hname, mem_called hcall⟩⟩

/-- Inside a span, a step keeps a cell that the span does not store into, unless a function
has been called from the first part of the span and the step is its store into the cell. -/
theorem Span.Formed.cell_cases (h : σ.Formed regions) (hparted : L.Parted regions)
    (hapart : ∀ ρ ∈ regions, ∀ σ ∈ regions, ρ ≠ σ → ρ.Apart σ) (hin : σ.Inside frames v)
    {op : Opcode} {target : Target} (hat : OrderAt L.code v.pc op target)
    (hturn : L.turn op target v = .goes v') (hway : Way L regions frames v frames' v') {c : Cell}
    (hc : c ∉ stores (σ.later ++ σ.own)) :
    v'.cells c = v.cells c ∨ OrderAt L.code v.pc .sta (.cell c) ∧
      ∃ callee ∈ called σ.later, ∃ ρ ∈ regions, ∃ g, ρ.name = some g ∧ c ∈ ρ.stores ∧
        Relation.ReflTransGen (RegionCalls regions) callee g := by
  rcases hin with ⟨hle, hlt⟩ | ⟨frame, hframe, hle, hlt⟩
  · -- the order is one of the span
    refine .inl ?_
    rcases Layout.cells_of_turn hturn with hcells | ⟨d, rfl, rfl, rfl⟩
    · rw [hcells]
    have hinside := h.inside
    have hbody : σ.region.body =
        (σ.before ++ σ.first) ++ (σ.later ++ σ.own) ++ σ.after := by simp [h.body]
    have hlaid := (hparted.formed _ h.mem).laid_at hbody
    obtain ⟨order, hmem, hat'⟩ := hlaid.ordersAt.exists_order hle (by
      change v.pc < _ + width (σ.later ++ σ.own)
      simp only [Span.ends, Span.turns, Span.begins, width_append] at hlt ⊢
      omega)
    obtain ⟨hop, htarget⟩ := hat'.unique hat
    have hstored : d ∈ stores (σ.later ++ σ.own) :=
      List.mem_filterMap.2 ⟨order, hmem, stored?_eq_some.2 (Prod.ext hop htarget)⟩
    have hne : c ≠ d := by
      rintro rfl
      exact hc hstored
    exact Function.update_of_ne hne _ _
  · -- the order is one of a function that has been called
    cases hway with
    | next pc cells => exact .inl (congrFun cells c)
    | call mem here site pc cells => exact .inl (congrFun cells c)
    | branch mem here pc => exact .inl rfl
    | enter mem here => exact .inl rfl
    | back top mem here => exact .inl rfl
    | @store ρ d below mem cell stack =>
        obtain rfl | hne := eq_or_ne c d
        · rcases Layout.cells_of_turn hturn with hcells | ⟨d, rfl, rfl, hstore⟩
          · exact .inl (congrFun hcells c)
          obtain rfl | hne := eq_or_ne c d
          · obtain ⟨rest, callee, result, g, mem', here, hname, hreaches⟩ := stack.reaches hframe
            obtain ⟨-, hcall⟩ := h.call_mem_later hapart mem' here hle hlt
            exact .inr ⟨hat, callee, mem_called hcall, ρ, mem, g, hname, cell, hreaches⟩
          · rw [hstore]
            exact .inl (Function.update_of_ne hne _ _)
        · exact .inl (Function.update_of_ne hne _ _)

end Steps

end LittleMan
