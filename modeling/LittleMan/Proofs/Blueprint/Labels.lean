import LittleMan.Proofs.Blueprint.Assembled

/-!
# Labels taken apart

Labels are made by putting names and numbers together.  The first two letters of a label
tell its sort, and numbers end where an ending begins.  Two places have different labels,
and so have two cells, except that variables of two functions may share one.
-/

namespace LittleMan

theorem toDigits_append_inj {m n : Nat} {first second : List Char}
    (hfirst : ∀ c ∈ first.head?, c.isDigit = false) (hsecond : ∀ c ∈ second.head?, c.isDigit = false)
    (h : Nat.toDigits 10 m ++ first = Nat.toDigits 10 n ++ second) : m = n ∧ first = second := by
  have htake : ∀ {n : Nat} {tail : List Char}, (∀ c ∈ tail.head?, c.isDigit = false) →
      (Nat.toDigits 10 n ++ tail).takeWhile Char.isDigit = Nat.toDigits 10 n := by
    intro n tail htail
    rw [List.takeWhile_append_of_pos
      (fun c hc => Nat.isDigit_of_mem_toDigits (by decide) (by decide) hc)]
    cases tail with
    | nil => simp
    | cons c rest => simp [htail c (by simp)]
  have hdigits : Nat.toDigits 10 m = Nat.toDigits 10 n := by
    rw [← htake hfirst, h, htake hsecond]
  refine ⟨Numeral.toDigits_injective hdigits, ?_⟩
  rw [hdigits] at h
  exact List.append_cancel_left h

theorem Place.head?_ending {ending : String} (h : isEnding ending = true) :
    ending.toList.head? = some '_' := by
  simp only [isEnding, Bool.and_eq_true, beq_iff_eq] at h
  exact h.1

theorem Place.ending_not_digit {ending : String} (h : isEnding ending = true) :
    ∀ c ∈ ending.toList.head?, c.isDigit = false := by
  rw [head?_ending h]
  rintro c ⟨⟩
  decide

/-- The first two letters of the label of a cell. -/
def Cell.initials : Cell → List Char
  | .literal _ => ['l', 'i']
  | .temporary _ => ['t', 'e']
  | .var none _ => ['g', 'l']
  | .var (some _) _ => ['f', 'u']

/-- The first two letters of the label of a place. -/
def Place.initials : Place → List Char
  | .point .temporary _ _ => ['t', 'e']
  | .point .loop _ _ => ['l', 'o']
  | .point .choice _ _ => ['i', 'f']
  | .point .assertion _ _ => ['a', 's']
  | .entry _ => ['f', 'u']

theorem Cell.take_label (c : Cell) : c.label.toList.take 2 = c.initials := by
  cases c with
  | literal value => simp [label, initials, Item.literalName_toList]
  | temporary n => simp [label, initials]
  | var owner name => cases owner <;> simp [label, initials, scopeStem]

theorem Place.take_label (l : Place) : l.label.toList.take 2 = l.initials := by
  cases l with
  | point family n ending => cases family <;> simp [label, initials, Family.stem]
  | entry f => simp [label, initials]

theorem Place.label_injective {l l' : Place} (h : l.Formed) (h' : l'.Formed)
    (heq : l.label = l'.label) : l = l' := by
  have hinitials : l.initials = l'.initials := by
    rw [← take_label, ← take_label, heq]
  cases l with
  | point family n ending =>
      cases l' with
      | point family' n' ending' =>
          obtain rfl : family = family' := by
            cases family <;> cases family' <;> simp [initials] at hinitials ⊢
          have hlists := congrArg String.toList heq
          simp only [label, String.toList_append, List.append_assoc,
            List.append_cancel_left_eq] at hlists
          obtain ⟨rfl, hending⟩ := toDigits_append_inj (ending_not_digit h) (ending_not_digit h')
            (by simpa using hlists)
          rw [String.toList_injective hending]
      | entry g => cases family <;> simp [initials] at hinitials
  | entry f =>
      cases l' with
      | point family n ending => cases family <;> simp [initials] at hinitials
      | entry g =>
          obtain rfl : f = g := by simpa [label] using heq
          rfl

/-- Cells with one label are the same, or variables of two functions. -/
theorem Cell.label_eq_cases {c c' : Cell} (heq : c.label = c'.label) :
    c = c' ∨ ∃ f g x y, c = .var (some f) x ∧ c' = .var (some g) y := by
  have hinitials : c.initials = c'.initials := by
    rw [← take_label, ← take_label, heq]
  match c, c', heq, hinitials with
  | .literal v, .literal w, heq, _ =>
      exact .inl (congrArg _ (Item.literalName_injective heq))
  | .temporary m, .temporary n, heq, _ =>
      have hstring : "temp_" ++ toString m = "temp_" ++ toString n := heq
      exact .inl (congrArg _ (Numeral.toString_injective ((String.append_right_inj _).1 hstring)))
  | .var none x, .var none y, heq, _ =>
      refine .inl (congrArg _ ?_)
      simpa [label, Scopes.variableName] using heq
  | .var (some f) x, .var (some g) y, _, _ => exact .inr ⟨f, g, x, y, rfl, rfl⟩

/-- A place and a cell with one label are the entry of a function and a variable of one. -/
theorem Place.label_eq_cell {l : Place} {c : Cell} (h : l.Formed) (heq : l.label = c.label) :
    ∃ g f x, l = .entry g ∧ c = .var (some f) x := by
  have hinitials : l.initials = c.initials := by
    rw [← take_label, ← Cell.take_label, heq]
  match l, c, heq, hinitials with
  | .point .temporary n ending, .temporary m, heq, _ =>
      -- The number of a place is followed by its ending, that of a cell by nothing.
      have hlists := congrArg String.toList heq
      have hnumbers : Nat.toDigits 10 n ++ ending.toList = Nat.toDigits 10 m ++ [] := by
        simpa [label, Family.stem, Cell.label] using hlists
      obtain ⟨-, hnil⟩ := toDigits_append_inj (ending_not_digit h) (by simp) hnumbers
      have hhead := head?_ending h
      simp [hnil] at hhead
  | .entry g, .var (some f) x, _, _ => exact ⟨g, f, x, rfl, rfl⟩

theorem Program.formed_of_mem_places (program : Program) {l : Place} (hl : l ∈ Mark.places program.marks) :
    l.Formed := by
  obtain ⟨k, hfits⟩ := program.marks_fits
  obtain ⟨inner, hperm, -, hinner⟩ := hfits.places
  rcases List.mem_append.1 (hperm.mem_iff.1 hl) with hl | hl
  · obtain ⟨f, -, rfl⟩ := List.mem_map.1 hl
    trivial
  · exact (hinner l hl).2

end LittleMan
