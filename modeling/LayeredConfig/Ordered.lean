/-!
# Ordered maps

Maps from names to values as lists of entries in the order of first insertion. Inserting under a
name that is present replaces the value in its place; erasing keeps the order of the others.
Reading is `List.lookup`.
-/

namespace LayeredConfig.Ordered

variable {α β : Type}

def insert (key : String) (value : α) : List (String × α) → List (String × α)
  | [] => [(key, value)]
  | entry :: rest => if entry.1 = key then (key, value) :: rest else entry :: insert key value rest

def erase (key : String) (entries : List (String × α)) : List (String × α) :=
  entries.eraseP fun entry => entry.1 == key

def insertAll (entries new : List (String × α)) : List (String × α) :=
  new.foldl (fun acc entry => insert entry.1 entry.2 acc) entries

/-- The map that a list of entries builds: first position, last value. -/
def ofList (entries : List (String × α)) : List (String × α) := insertAll [] entries

def keys (entries : List (String × α)) : List String := entries.map Prod.fst

def contains (key : String) (entries : List (String × α)) : Bool := (entries.lookup key).isSome

/-! ## Reading after writing -/

theorem lookup_cons_eq (key : String) (entry : String × α) (rest : List (String × α)) :
    (entry :: rest).lookup key = if entry.1 = key then some entry.2 else rest.lookup key := by
  rw [List.lookup_cons]
  by_cases h : entry.1 = key
  · simp [h]
  · simp [h, beq_eq_false_iff_ne.2 (Ne.symm h)]

@[simp] theorem lookup_insert_self (key : String) (value : α) (entries : List (String × α)) :
    (insert key value entries).lookup key = some value := by
  induction entries with
  | nil => simp [insert]
  | cons entry rest ih => rw [insert]; split <;> simp_all [lookup_cons_eq]

theorem lookup_insert_of_ne {key other : String} (h : other ≠ key) (value : α)
    (entries : List (String × α)) :
    (insert key value entries).lookup other = entries.lookup other := by
  induction entries with
  | nil => simp [insert, lookup_cons_eq, Ne.symm h]
  | cons entry rest ih =>
    rw [insert]
    split
    · next he => simp [lookup_cons_eq, he, Ne.symm h]
    · simp [lookup_cons_eq, ih]

/-- A name that is present keeps its place, a new one goes last. -/
theorem keys_insert (key : String) (value : α) (entries : List (String × α)) :
    keys (insert key value entries) =
      if key ∈ keys entries then keys entries else keys entries ++ [key] := by
  induction entries with
  | nil => simp [insert, keys]
  | cons entry rest ih =>
    rw [insert]
    split
    · next he => simp [keys, he]
    · next he =>
      simp only [keys, List.map_cons, List.mem_cons, Ne.symm he, false_or] at ih ⊢
      rw [ih]
      by_cases h : key ∈ rest.map Prod.fst <;> simp [h]

end LayeredConfig.Ordered
