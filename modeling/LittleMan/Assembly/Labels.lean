/-!
# Label tables

A table from names to addresses, kept in the order of the names, so that two
tables with the same entries are equal.
-/

namespace LittleMan

namespace Labels

def insertEntry (name : String) (address : Nat) : List (String × Nat) → List (String × Nat)
  | [] => [(name, address)]
  | (key, value) :: rest =>
      if name < key then (name, address) :: (key, value) :: rest
      else if name = key then (name, address) :: rest
      else (key, value) :: insertEntry name address rest

theorem fst_mem_insertEntry {name : String} {address : Nat} {entries : List (String × Nat)}
    {entry : String × Nat} (h : entry ∈ insertEntry name address entries) :
    entry.1 = name ∨ entry ∈ entries := by
  induction entries with
  | nil => simp_all [insertEntry]
  | cons head rest ih =>
      obtain ⟨key, value⟩ := head
      simp only [insertEntry] at h
      split at h
      · rcases List.mem_cons.1 h with rfl | h
        · exact .inl rfl
        · exact .inr h
      · split at h
        · rcases List.mem_cons.1 h with rfl | h
          · exact .inl rfl
          · exact .inr (List.mem_cons_of_mem _ h)
        · rcases List.mem_cons.1 h with rfl | h
          · exact .inr List.mem_cons_self
          · exact (ih h).imp_right (List.mem_cons_of_mem _)

theorem sorted_insertEntry {name : String} {address : Nat} {entries : List (String × Nat)}
    (h : entries.Pairwise fun a b => a.1 < b.1) :
    (insertEntry name address entries).Pairwise fun a b => a.1 < b.1 := by
  induction entries with
  | nil => simp [insertEntry]
  | cons head rest ih =>
      obtain ⟨key, value⟩ := head
      obtain ⟨hhead, hrest⟩ := List.pairwise_cons.1 h
      simp only [insertEntry]
      split
      · rename_i hlt
        refine List.pairwise_cons.2 ⟨fun entry hentry => ?_, h⟩
        rcases List.mem_cons.1 hentry with rfl | hentry
        · exact hlt
        · exact String.lt_trans hlt (hhead entry hentry)
      · split
        · rename_i heq
          subst heq
          exact List.pairwise_cons.2 ⟨hhead, hrest⟩
        · rename_i hlt hne
          refine List.pairwise_cons.2 ⟨fun entry hentry => ?_, ih hrest⟩
          rcases fst_mem_insertEntry hentry with hname | hentry
          · rw [hname]
            exact Std.lt_of_le_of_ne (String.not_lt.1 hlt) (Ne.symm hne)
          · exact hhead entry hentry

end Labels

structure Labels where
  entries : List (String × Nat)
  sorted : entries.Pairwise fun a b => a.1 < b.1
deriving DecidableEq, Repr

namespace Labels

def empty : Labels where
  entries := []
  sorted := .nil

def size (labels : Labels) : Nat :=
  labels.entries.length

def find? (labels : Labels) (name : String) : Option Nat :=
  labels.entries.lookup name

/-- Adds an entry, in place of an earlier one of the same name. -/
def insert (labels : Labels) (name : String) (address : Nat) : Labels where
  entries := insertEntry name address labels.entries
  sorted := sorted_insertEntry labels.sorted

def ofList (entries : List (String × Nat)) : Labels :=
  entries.foldl (fun labels entry => labels.insert entry.1 entry.2) empty

/-- The first name of an address, in the order of the names. -/
def nameAt? (labels : Labels) (address : Nat) : Option String :=
  (labels.entries.find? fun entry => entry.2 == address).map Prod.fst

end Labels
end LittleMan
