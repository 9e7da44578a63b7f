import LittleMan.Proofs.Frames.Spans
import LittleMan.Proofs.Loaded

/-!
# Calls and returns

The words of a call push the return address and the arguments and go to the function, which
takes the arguments off again.  The words of a return take the return address, leave the value
in its place, and go back.  `Layout.Passes` follows the machine through such words.  They meet
no fault unless the stack is full, and none of them but the third word of a call and the last
one of a return has to do with the frames.

What the stack is where a call begins and where a function is left can be told from the
frames.
-/

namespace LittleMan

open Mark

def Frame.word (frame : Frame) : Word :=
  Word.ofAddress frame.address

variable {L : Layout} {regions : List Region} {frames frames' : List Frame} {v v' w : View}

theorem Rests.stack_eq {name : Option String} {stack : List Word}
    (h : Rests regions frames name stack) : stack = frames.map Frame.word := by
  induction h with
  | main => rfl
  | call mem here more ih => rw [ih]; rfl

/-! ## What an order does to the frames -/

theorem Region.Formed.opens {ρ : Region} (h : ρ.Formed L.code) {done rest : List Mark}
    {callee : String} {args : List Cell} {result : Cell}
    (here : ρ.body = done ++ .call callee args result :: rest) :
    L.Opens (ρ.start + width done + 2) := by
  obtain ⟨⟨hlocate, -, hpush, -⟩, -⟩ := orders_call h here
  exact ⟨hpush, _, rfl, hlocate⟩

/-- Calls at one address come back to one address. -/
theorem word_eq_of_site (hparted : L.Parted regions) {ρ ρ' : Region}
    {done rest done' rest' : List Mark} {callee callee' : String} {args args' : List Cell}
    {result result' : Cell} (mem : ρ ∈ regions)
    (here : ρ.body = done ++ .call callee args result :: rest) (mem' : ρ' ∈ regions)
    (here' : ρ'.body = done' ++ .call callee' args' result' :: rest')
    (hsite : ρ'.start + width done' = ρ.start + width done) :
    Frame.word ⟨ρ', done', args'⟩ = Frame.word ⟨ρ, done, args⟩ := by
  have hformed := hparted.formed ρ mem
  have hformed' := hparted.formed ρ' mem'
  have hsmall := hparted.small
  have hlt := Program.lt_length_of_orderAt (hformed.orderAt_returnAddress here)
  have hlt' := Program.lt_length_of_orderAt (hformed'.orderAt_returnAddress here')
  obtain ⟨⟨-, hadd, -⟩, -⟩ := orders_call hformed here
  obtain ⟨⟨-, hadd', -⟩, -⟩ := orders_call hformed' here'
  unfold Region.returnAddress at hlt hlt'
  rw [hsite] at hadd' hlt'
  have hoffset : returnOffset args'.length = returnOffset args.length := by
    simpa using (hadd'.unique hadd).2
  -- the second word of the call adds the same number to the same address
  have hsum := add?_returnOffset (hlt.trans hsmall)
  have hsum' := add?_returnOffset (hlt'.trans hsmall)
  rw [hoffset, hsum] at hsum'
  unfold Frame.word Frame.address Region.returnAddress
  rw [hsite]
  exact (Option.some.inj hsum').symm

inductive Shifts (L : Layout) (regions : List Region) (frames : List Frame) (p : Nat) :
    List Frame → Prop
  | levels (levels : L.Levels p) : Shifts L regions frames p frames
  | opens {ρ : Region} {done rest : List Mark} {callee : String} {args : List Cell} {result : Cell}
      (mem : ρ ∈ regions) (here : ρ.body = done ++ .call callee args result :: rest)
      (site : p = ρ.start + width done + 2) (opens : L.Opens p) :
      Shifts L regions frames p (⟨ρ, done, args⟩ :: frames)
  | closes {frame : Frame} {frames' : List Frame} (top : frames = frame :: frames')
      (leaves : OrderAt L.code p .ret .none) : Shifts L regions frames p frames'

theorem Way.shifts (hparted : L.Parted regions) (h : Way L regions frames v frames' v') :
    Shifts L regions frames v.pc frames' := by
  cases h with
  | next pc cells levels => exact .levels levels
  | store mem cell stack levels => exact .levels levels
  | branch mem here pc levels => exact .levels levels
  | enter mem here levels => exact .levels levels
  | call mem here site pc cells =>
      exact .opens mem here site (site ▸ (hparted.formed _ mem).opens here)
  | back top mem here leaves => exact .closes top leaves

/-! ## Where calls begin and functions are left -/

/-- The stack, by the order at the program counter. -/
def Settles (frames : List Frame) (v : View) (op : Opcode) : Prop :=
  (op = .ldaPc → v.stack = frames.map Frame.word) ∧
    (op = .ret → ∃ word below, v.stack = word :: below ∧ v.acc :: below = frames.map Frame.word)

theorem Settles.of_ne {op : Opcode} (hlocate : op ≠ .ldaPc) (hret : op ≠ .ret) :
    Settles frames v op :=
  ⟨fun h => absurd h hlocate, fun h => absurd h hret⟩

section Phases

variable {ρ : Region} {done rest : List Mark} {op : Opcode} {target : Target}

theorem Settles.of_order {op' : Opcode} {target' : Target} (hat : OrderAt L.code v.pc op target)
    (horder : OrderAt L.code v.pc op' target') (hlocate : op' ≠ .ldaPc) (hret : op' ≠ .ret) :
    Settles frames v op := by
  obtain ⟨rfl, -⟩ := hat.unique horder
  exact .of_ne hlocate hret

theorem Phase.settles_call (hparted : L.Parted regions) (mem : ρ ∈ regions) {callee : String}
    {args : List Cell} {result : Cell} (here : ρ.body = done ++ .call callee args result :: rest)
    (phase : Phase regions ρ done frames (.call callee args result) v)
    (hat : OrderAt L.code v.pc op target) : Settles frames v op := by
  have hformed := hparted.formed ρ mem
  obtain ⟨⟨hlocate, hadd, hpush, -⟩, hpushes, hbranch, -⟩ := orders_call hformed here
  cases phase with
  | start word pc stack =>
      obtain ⟨rfl, -⟩ := hat.unique (pc ▸ hlocate)
      exact ⟨fun _ => stack.stack_eq, by simp⟩
  | located pc acc stack => exact .of_order hat (pc ▸ hadd) (by simp) (by simp)
  | targeted pc acc stack => exact .of_order hat (pc ▸ hpush) (by simp) (by simp)
  | @pushing _ pushed left _ _ pc stack =>
      cases left with
      | nil =>
          rw [List.append_nil] at hbranch
          exact .of_order hat (pc ▸ hbranch) (by simp) (by simp)
      | cons c left =>
          obtain ⟨hload, -⟩ := hpushes.pushes
          rw [Nat.add_assoc] at hload
          exact .of_order hat (pc ▸ hload) (by simp) (by simp)
  | @loaded _ pushed left c _ _ pc stack =>
      obtain ⟨-, hpush'⟩ := hpushes.pushes
      rw [show ρ.start + width done + 3 + (1 + 2 * pushed.length) =
        ρ.start + width done + (4 + 2 * pushed.length) by omega] at hpush'
      exact .of_order hat (pc ▸ hpush') (by simp) (by simp)
  | returned pc stack =>
      exact .of_order hat (pc ▸ hformed.orderAt_returnAddress here) (by simp) (by simp)
  | pulled pc stack =>
      exact .of_order hat (pc ▸ hformed.orderAt_result here) (by simp) (by simp)

theorem Phase.settles_giveBack (hformed : ρ.Formed L.code) {value address : Cell}
    (here : ρ.body = done ++ .giveBack value address :: rest)
    (phase : Phase regions ρ done frames (.giveBack value address) v)
    (hat : OrderAt L.code v.pc op target) : Settles frames v op := by
  obtain ⟨hpop, hsave, hload, hpush, hreload, hret, -⟩ := hformed.orders here
  cases phase with
  | start word pc stack => exact .of_order hat (pc ▸ hpop) (by simp) (by simp)
  | taken pc stack => exact .of_order hat (pc ▸ hsave) (by simp) (by simp)
  | saved pc stack => exact .of_order hat (pc ▸ hload) (by simp) (by simp)
  | chosen pc stack => exact .of_order hat (pc ▸ hpush) (by simp) (by simp)
  | handed pc top stack => exact .of_order hat (pc ▸ hreload) (by simp) (by simp)
  | leaving pc top stack =>
      obtain ⟨rfl, -⟩ := hat.unique (pc ▸ hret)
      exact ⟨by simp, fun _ => ⟨_, _, top, stack.stack_eq⟩⟩

theorem Phase.settles (hparted : L.Parted regions) (mem : ρ ∈ regions) {m : Mark}
    (here : ρ.body = done ++ m :: rest) (phase : Phase regions ρ done frames m v)
    (hat : OrderAt L.code v.pc op target) : Settles frames v op := by
  have hformed := hparted.formed ρ mem
  have hmem : m ∈ ρ.body := by simp [here]
  cases m with
  | place l =>
      cases phase with
      | start word pc stack => cases word
  | order op' target' =>
      cases phase with
      | start word pc stack =>
          have hsimple : isSimple op' target' = true := hformed.isSound here
          apply Settles.of_order hat (pc ▸ (hformed.orders here).1)
          · rintro rfl
            cases target' <;> cases hsimple
          · rintro rfl
            cases target' <;> cases hsimple
  | call callee args result => exact phase.settles_call hparted mem here hat
  | giveBack value address => exact phase.settles_giveBack hformed here hat
  | receive params => exact absurd hmem (hformed.receive_not_mem params)
  | refused => exact absurd hmem hformed.accepted

end Phases

theorem Point.settles (hparted : L.Parted regions) (h : Point regions frames v) {op : Opcode}
    {target : Target} (hat : OrderAt L.code v.pc op target) : Settles frames v op := by
  cases h with
  | inside mem here phase => exact phase.settles hparted mem here hat
  | @entering ρ f params mem here pc stack =>
      obtain ⟨-, hnop, -⟩ := (hparted.formed ρ mem).entry here
      exact .of_order hat (pc ▸ hnop) (by simp) (by simp)
  | @popping ρ f taken left mem here pc stack =>
      have hformed := hparted.formed ρ mem
      cases left with
      | nil =>
          -- all arguments have been taken, and the body begins
          obtain ⟨words, below, hstack, hlength, hrests⟩ := stack
          obtain rfl := List.length_eq_zero_iff.1 hlength
          rw [List.append_nil] at here
          have hname : ρ.name = some f := by simp [Region.name, here]
          have hbegin : v.pc = ρ.start + width [] := by
            rw [pc, Region.Formed.start_eq here]
            rfl
          obtain ⟨done', m, rest', here', phase⟩ := hformed.resume (List.nil_append _).symm
            hformed.body_ne_nil hbegin (by rw [hname, hstack]; exact hrests)
          exact phase.settles hparted mem here' hat
      | cons c left =>
          obtain ⟨-, -, hpops⟩ := hformed.entry here
          obtain ⟨hpop, -⟩ := hpops.pops
          rw [Nat.add_assoc] at hpop
          exact .of_order hat (pc ▸ hpop) (by simp) (by simp)
  | @storing ρ f taken left c mem here pc stack =>
      obtain ⟨-, -, hpops⟩ := (hparted.formed ρ mem).entry here
      obtain ⟨-, hstore⟩ := hpops.pops
      rw [show ρ.base + 1 + (1 + 2 * taken.length) = ρ.base + (2 + 2 * taken.length) by omega]
        at hstore
      exact .of_order hat (pc ▸ hstore) (by simp) (by simp)

/-! ## Passing through words -/

/-- The order goes on.  If the stack is full and shorter than `top`, it may meet a fault. -/
def Layout.GoesBelow (L : Layout) (top : Nat) (op : Opcode) (target : Target) (v v' : View) :
    Prop :=
  L.turn op target v = .goes v' ∨ L.maxStack ≤ v.stack.length ∧ v.stack.length < top ∧
    ∃ cause, L.turn op target v = .faults cause

theorem Layout.goesBelow_psh {top : Nat} (hroom : v.stack.length < top) :
    L.GoesBelow top .psh .none v v.push := by
  unfold Layout.GoesBelow
  simp only [Layout.turn]
  split
  next hfull => exact .inr ⟨hfull, hroom, _, rfl⟩
  next => exact .inl rfl

/-- The machine goes through so many orders that leave the frames as they are, unless the stack
is full below `top` on the way. -/
inductive Layout.Passes (L : Layout) (top : Nat) : View → Nat → View → Prop
  | done (v : View) : Passes L top v 0 v
  | goes {v v' w : View} {n : Nat} {op : Opcode} {target : Target}
      (order : OrderAt L.code v.pc op target) (levels : L.Levels v.pc)
      (turn : L.GoesBelow top op target v v') (more : Passes L top v' n w) :
      Passes L top v (n + 1) w

namespace Layout.Passes

variable {top n k p : Nat} {c : Cell} {u : View}

theorem trans (h : L.Passes top v n w) (h' : L.Passes top w k u) : L.Passes top v (n + k) u := by
  induction h with
  | done v => rwa [Nat.zero_add]
  | goes order levels turn more ih =>
      rw [Nat.add_right_comm]
      exact .goes order levels turn (ih h')

theorem order {op : Opcode} {target : Target} (hat : OrderAt L.code v.pc op target)
    (hpush : op ≠ .psh) (hret : op ≠ .ret) (hturn : L.turn op target v = .goes v') :
    L.Passes top v 1 v' :=
  .goes hat (L.levels_of_order hat hpush hret) (.inl hturn) (.done v')

theorem psh (hat : OrderAt L.code v.pc .psh .none) (levels : L.Levels v.pc)
    (hroom : v.stack.length < top) : L.Passes top v 1 v.push :=
  .goes hat levels (Layout.goesBelow_psh hroom) (.done _)

theorem pop (hat : OrderAt L.code v.pc .pop .none) {word : Word} {rest : List Word}
    (hstack : v.stack = word :: rest) : L.Passes top v 1 (v.pull word rest) :=
  order hat (by simp) (by simp) (by simp [Layout.turn, hstack])

theorem pushes {pushed left : List Cell} (hpush : OrderAt L.code (p + 2) .psh .none)
    (hpushes : OrdersAt L.code (p + 3) (Mark.pushes (pushed ++ left)))
    (hpc : v.pc = p + (3 + 2 * pushed.length)) (hroom : v.stack.length + left.length ≤ top) :
    ∃ w, L.Passes top v (2 * left.length) w ∧ w.pc = v.pc + 2 * left.length ∧
      w.stack = (left.map v.cells).reverse ++ v.stack ∧ w.cells = v.cells := by
  induction left generalizing pushed v with
  | nil => exact ⟨v, .done v, rfl, rfl, rfl⟩
  | cons c left ih =>
      obtain ⟨hload, hpush'⟩ := hpushes.pushes
      have hlevels := L.levels_argument hpush hpushes
      rw [show p + 3 + 2 * pushed.length = v.pc by omega] at hload
      rw [show p + 3 + (1 + 2 * pushed.length) = v.pc + 1 by omega] at hpush'
      rw [show p + (4 + 2 * pushed.length) = v.pc + 1 by omega] at hlevels
      have hbelow : v.stack.length < top := by
        rw [List.length_cons] at hroom
        omega
      have hsplit : pushed ++ c :: left = (pushed ++ [c]) ++ left := by simp
      rw [hsplit] at hpushes
      obtain ⟨w, hpasses, hwpc, hstack, hcells⟩ := ih (v := (v.load (v.cells c)).push) hpushes (by
        change v.pc + 1 + 1 = _
        rw [List.length_append, List.length_singleton]
        omega) (by
        change v.stack.length + 1 + left.length ≤ top
        rw [List.length_cons] at hroom
        omega)
      refine ⟨w, ?_, ?_, ?_, hcells⟩
      · rw [List.length_cons, show 2 * (left.length + 1) = 1 + (1 + 2 * left.length) by omega]
        exact (order hload (by simp) (by simp) rfl).trans
          ((psh (v := v.load (v.cells c)) hpush' hlevels hbelow).trans hpasses)
      · rw [hwpc, List.length_cons]
        change v.pc + 1 + 1 + _ = _
        omega
      · rw [hstack]
        simp [View.load, View.push]

end Layout.Passes

def received : List Cell → List Word → (Cell → Word) → Cell → Word
  | c :: params, word :: words, cells => received params words (Function.update cells c word)
  | _, _, cells => cells

theorem received_of_notMem {params : List Cell} {words : List Word} {cells : Cell → Word} {c : Cell}
    (hc : c ∉ params) : received params words cells c = cells c := by
  induction params generalizing words cells with
  | nil => rfl
  | cons d params ih =>
      cases words with
      | nil => rfl
      | cons word words =>
          rw [List.mem_cons, not_or] at hc
          rw [received, ih hc.2, Function.update_of_ne hc.1]

theorem received_of_nodup {params : List Cell} {words : List Word} {cells : Cell → Word}
    (hnodup : params.Nodup) {i : Nat} {c : Cell} {word : Word} (hc : params[i]? = some c)
    (hword : words[i]? = some word) : received params words cells c = word := by
  induction params generalizing words cells i with
  | nil => cases hc
  | cons d params ih =>
      cases words with
      | nil => cases hword
      | cons first words =>
          obtain ⟨hd, hnodup⟩ := List.nodup_cons.1 hnodup
          cases i with
          | zero =>
              obtain rfl : d = c := Option.some.inj hc
              obtain rfl : first = word := Option.some.inj hword
              rw [received, received_of_notMem hd, Function.update_self]
          | succ i => exact ih hnodup hc hword

/-- Arguments that are taken in the opposite order come to the cells of their parameters. -/
theorem received_reverse {params args : List Cell} {cells : Cell → Word} (hnodup : params.Nodup)
    (hlength : params.length = args.length) {i : Nat} {c d : Cell} (hd : params[i]? = some d)
    (hc : args[i]? = some c) :
    received params.reverse (args.map cells).reverse cells d = cells c := by
  have hi := (List.getElem?_eq_some_iff.1 hd).1
  apply received_of_nodup (i := params.length - 1 - i) (List.nodup_reverse.2 hnodup)
  · rw [List.getElem?_reverse (by omega), Nat.sub_sub_self (by omega), hd]
  · rw [List.getElem?_reverse (by rw [List.length_map]; omega), List.length_map, ← hlength,
      Nat.sub_sub_self (by omega), List.getElem?_map, hc, Option.map_some]

theorem Layout.Passes.pops {top : Nat} {params : List Cell} {words below : List Word} {p : Nat}
    (hpops : OrdersAt L.code p (Mark.pops params)) (hpc : v.pc = p)
    (hstack : v.stack = words ++ below) (hlength : words.length = params.length) :
    ∃ w, L.Passes top v (2 * params.length) w ∧ w.pc = p + 2 * params.length ∧ w.stack = below ∧
      w.cells = received params words v.cells := by
  induction params generalizing words p v with
  | nil =>
      obtain rfl := List.length_eq_zero_iff.1 hlength
      exact ⟨v, .done v, hpc, hstack, rfl⟩
  | cons c params ih =>
      obtain ⟨word, words, rfl⟩ := List.exists_cons_of_length_eq_add_one hlength
      obtain ⟨hpop, hstore, hrest⟩ := hpops
      subst hpc
      obtain ⟨w, hpasses, hwpc, hwstack, hcells⟩ := ih (v := (v.pull word (words ++ below)).store c)
        hrest rfl rfl (by simpa using hlength)
      refine ⟨w, ?_, ?_, hwstack, hcells⟩
      · rw [List.length_cons, show 2 * (params.length + 1) = 1 + (1 + 2 * params.length) by omega]
        exact (pop hpop hstack).trans
          ((order (v := v.pull word (words ++ below)) hstore (by simp) (by simp) rfl).trans hpasses)
      · rw [hwpc, List.length_cons]
        omega

/-! ## The words of a call and of a return -/

/-- The first two words of a call load its return address. -/
theorem Layout.Passes.locate {top p : Nat} {args : List Cell}
    (hfirst : OrdersAt L.code p
      [(.ldaPc, .none), (.add, .cell (.literal (returnOffset args.length))), (.psh, .none)])
    (hliterals : ∀ value, v.cells (.literal value) = value) (hpc : v.pc = p)
    (hsmall : p + (4 + 2 * args.length) < 0x8000000000000000) :
    ∃ w, L.Passes top v 2 w ∧ w.pc = p + 2 ∧ w.acc = Word.ofAddress (p + (4 + 2 * args.length)) ∧
      w.stack = v.stack ∧ w.cells = v.cells := by
  obtain ⟨hlocate, hadd, -⟩ := hfirst
  subst hpc
  have hsum := add?_returnOffset hsmall
  refine ⟨(v.load (Word.ofAddress (v.pc + 1))).load (Word.ofAddress (v.pc + (4 + 2 * args.length))),
    ?_, rfl, rfl, rfl, rfl⟩
  refine (Layout.Passes.order hlocate (by simp) (by simp) rfl).trans
    (.order (v := v.load (Word.ofAddress (v.pc + 1))) hadd (by simp) (by simp) ?_)
  simp only [Layout.turn, View.load, hliterals, hsum, Layout.calculate]

/-- From the push of the return address to the body of the function. -/
theorem Layout.Passes.enter {top p base : Nat} {args params : List Cell} {callee : String}
    (hpush : OrderAt L.code (p + 2) .psh .none)
    (hpushes : OrdersAt L.code (p + 3) (Mark.pushes args))
    (hbranch : OrderAt L.code (p + (3 + 2 * args.length)) .bra (.place (.entry callee)))
    (hplace : L.place (.entry callee) = base) (hnop : OrderAt L.code base .nop .none)
    (hpops : OrdersAt L.code (base + 1) (Mark.pops params)) (hlength : params.length = args.length)
    (hpc : v.pc = p + 3) (hroom : v.stack.length + args.length ≤ top) :
    ∃ w, L.Passes top v (2 * args.length + 2 + 2 * args.length) w ∧
      w.pc = base + (1 + 2 * args.length) ∧ w.stack = v.stack ∧
      w.cells = received params (args.map v.cells).reverse v.cells := by
  obtain ⟨w, hpasses, hwpc, hwstack, hwcells⟩ :=
    pushes hpush ((List.nil_append args).symm ▸ hpushes) (hpc.trans (by simp)) hroom
  rw [show p + (3 + 2 * args.length) = w.pc by omega] at hbranch
  have hjump : L.Passes top w 1 (w.jump base) := by
    apply order hbranch (by simp) (by simp)
    simp [Layout.turn, hplace]
  have hstart : L.Passes top (w.jump base) 1 (w.jump base).next :=
    order (v := w.jump base) hnop (by simp) (by simp) rfl
  obtain ⟨u, hrest, hupc, hustack, hucells⟩ := pops (v := (w.jump base).next) hpops rfl hwstack (by
    rw [List.length_reverse, List.length_map, hlength])
  refine ⟨u, ?_, ?_, hustack, ?_⟩
  · rw [hlength] at hrest
    exact (hpasses.trans (hjump.trans hstart)).trans hrest
  · rw [hupc, hlength]
    omega
  · rw [hucells]
    exact congrArg (received params _) hwcells

/-- The words of a return up to its last one. -/
theorem Layout.Passes.giveBack {top q : Nat} {value address : Cell}
    (horders : OrdersAt L.code q (Mark.giveBack value address).orders) (hne : value ≠ address)
    (hpc : v.pc = q) {word : Word} {rest : List Word} (hstack : v.stack = word :: rest)
    (hroom : rest.length < top) :
    ∃ w, L.Passes top v 5 w ∧ w.pc = q + 5 ∧ w.acc = word ∧
      w.stack = v.cells value :: rest := by
  obtain ⟨hpop, hsave, hload, hpush, hreload, -, -⟩ := horders
  subst hpc
  let v₁ := v.pull word rest
  let v₂ := v₁.store address
  let v₃ := v₂.load (v₂.cells value)
  have h₁ : L.Passes top v 1 v₁ := pop hpop hstack
  have h₂ : L.Passes top v₁ 1 v₂ := order hsave (by simp) (by simp) rfl
  have h₃ : L.Passes top v₂ 1 v₃ := order hload (by simp) (by simp) rfl
  have h₄ : L.Passes top v₃ 1 v₃.push := psh hpush (L.levels_push hpush hsave (by simp)) hroom
  have h₅ : L.Passes top v₃.push 1 (v₃.push.load (v₃.push.cells address)) :=
    order hreload (by simp) (by simp) rfl
  refine ⟨_, h₁.trans (h₂.trans (h₃.trans (h₄.trans h₅))), rfl, ?_, ?_⟩
  · change Function.update v.cells address word address = word
    exact Function.update_self ..
  · change Function.update v.cells address word value :: rest = _
    rw [Function.update_of_ne hne]

theorem Layout.Passes.collect {top p : Nat} {result : Cell} (hpop : OrderAt L.code p .pop .none)
    (hstore : OrderAt L.code (p + 1) .sta (.cell result)) (hpc : v.pc = p) {word : Word}
    {rest : List Word} (hstack : v.stack = word :: rest) :
    ∃ w, L.Passes top v 2 w ∧ w.pc = p + 2 ∧ w.stack = rest ∧ w.cells result = word := by
  subst hpc
  refine ⟨(v.pull word rest).store result, ?_, rfl, rfl, Function.update_self ..⟩
  exact (pop hpop hstack).trans
    (order (v := v.pull word rest) hstore (by simp) (by simp) rfl)

end LittleMan
