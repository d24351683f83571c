import LayeredConfig.Ordered
import Mathlib.Data.List.Nodup
import Mathlib.Data.List.Perm.Subperm

/-!
# Laws of ordered maps

A list of entries is a map when its names are distinct, and every operation keeps that. On maps the
order of the entries is under control as well: a new name goes last, a replaced value stays in its
place, so that the names are in the order in which they first appear (`keys_ofList`), and what is inserted
last can be erased again without a trace (`erase_insert_of_fresh`).
-/

namespace LayeredConfig.Ordered

variable {α β : Type}

/-- The names of a map are distinct. -/
def Distinct (entries : List (String × α)) : Prop := (keys entries).Nodup

instance (entries : List (String × α)) : Decidable (Distinct entries) :=
  inferInstanceAs (Decidable (keys entries).Nodup)

@[simp] theorem keys_nil : keys ([] : List (String × α)) = [] := rfl

@[simp] theorem keys_cons (entry : String × α) (rest : List (String × α)) :
    keys (entry :: rest) = entry.1 :: keys rest := rfl

@[simp] theorem keys_append (xs ys : List (String × α)) : keys (xs ++ ys) = keys xs ++ keys ys :=
  List.map_append

theorem distinct_cons {entry : String × α} {rest : List (String × α)} :
    Distinct (entry :: rest) ↔ entry.1 ∉ keys rest ∧ Distinct rest := List.nodup_cons

theorem key_mem_of_mem {key : String} {value : α} {entries : List (String × α)}
    (h : (key, value) ∈ entries) : key ∈ keys entries := List.mem_map_of_mem (f := Prod.fst) h

/-! ## Reading -/

theorem lookup_eq_none_iff {key : String} {entries : List (String × α)} :
    entries.lookup key = none ↔ key ∉ keys entries := by
  induction entries with
  | nil => simp
  | cons entry rest ih =>
    rw [lookup_cons_eq, keys_cons, List.mem_cons]
    by_cases h : entry.1 = key
    · simp [h]
    · rw [if_neg h, ih]
      simp [Ne.symm h]

theorem lookup_eq_find? (key : String) (entries : List (String × α)) :
    entries.lookup key = (entries.find? fun entry => entry.1 == key).map Prod.snd := by
  induction entries with
  | nil => rfl
  | cons entry rest ih =>
    rw [lookup_cons_eq, List.find?_cons, ih]
    by_cases h : entry.1 = key
    · simp [h]
    · simp [h, beq_eq_false_iff_ne.mpr h]

theorem mem_of_lookup {key : String} {value : α} {entries : List (String × α)}
    (h : entries.lookup key = some value) : (key, value) ∈ entries := by
  induction entries with
  | nil => simp at h
  | cons entry rest ih =>
    rw [lookup_cons_eq] at h
    split at h
    · next he =>
      cases h
      rw [← he]
      exact List.mem_cons_self
    · exact List.mem_cons_of_mem _ (ih h)

theorem lookup_of_mem {key : String} {value : α} {entries : List (String × α)}
    (hd : Distinct entries) (h : (key, value) ∈ entries) : entries.lookup key = some value := by
  induction entries with
  | nil => simp at h
  | cons entry rest ih =>
    rw [lookup_cons_eq]
    obtain ⟨hfresh, hrest⟩ := distinct_cons.mp hd
    rcases List.mem_cons.mp h with rfl | h
    · simp
    · have hne : entry.1 ≠ key := fun he => hfresh (he ▸ key_mem_of_mem h)
      rw [if_neg hne, ih hrest h]

theorem lookup_map (f : String → α → β) (key : String) (entries : List (String × α)) :
    (entries.map fun entry => (entry.1, f entry.1 entry.2)).lookup key = (entries.lookup key).map (f key) := by
  induction entries with
  | nil => rfl
  | cons entry rest ih =>
    rw [List.map_cons, lookup_cons_eq, lookup_cons_eq, ih]
    split
    · next h => rw [h]; rfl
    · rfl

/-! ## Inserting -/

theorem lookup_insert (key : String) (value : α) (entries : List (String × α)) (other : String) :
    (insert key value entries).lookup other =
      if other = key then some value else entries.lookup other := by
  split
  · next h => rw [h, lookup_insert_self]
  · next h => exact lookup_insert_of_ne h value entries

theorem insert_of_fresh {key : String} (value : α) {entries : List (String × α)}
    (h : key ∉ keys entries) : insert key value entries = entries ++ [(key, value)] := by
  induction entries with
  | nil => rfl
  | cons entry rest ih =>
    rw [keys_cons, List.mem_cons, not_or] at h
    rw [insert, if_neg (Ne.symm h.1), ih h.2, List.cons_append]

theorem distinct_insert {key : String} {value : α} {entries : List (String × α)}
    (hd : Distinct entries) : Distinct (insert key value entries) := by
  rw [Distinct, keys_insert]
  split
  · exact hd
  · next h => exact List.nodup_append_comm.mp (List.nodup_cons.mpr ⟨h, hd⟩)

theorem mem_insert {key : String} {value : α} {entries : List (String × α)} {entry : String × α}
    (h : entry ∈ insert key value entries) : entry = (key, value) ∨ entry ∈ entries := by
  induction entries with
  | nil => exact Or.inl (List.mem_singleton.mp h)
  | cons first rest ih =>
    rw [insert] at h
    split at h
    · rcases List.mem_cons.mp h with h | h
      · exact Or.inl h
      · exact Or.inr (List.mem_cons_of_mem _ h)
    · rcases List.mem_cons.mp h with h | h
      · exact Or.inr (h ▸ List.mem_cons_self)
      · exact (ih h).imp_right (List.mem_cons_of_mem _)

/-! ## Inserting one entry after the other -/

@[simp] theorem insertAll_nil (entries : List (String × α)) : insertAll entries [] = entries := rfl

@[simp] theorem insertAll_cons (entries : List (String × α)) (entry : String × α)
    (rest : List (String × α)) :
    insertAll entries (entry :: rest) = insertAll (insert entry.1 entry.2 entries) rest := rfl

theorem distinct_insertAll {entries : List (String × α)} (hd : Distinct entries)
    (new : List (String × α)) : Distinct (insertAll entries new) := by
  induction new generalizing entries with
  | nil => exact hd
  | cons entry rest ih => exact ih (distinct_insert hd)

theorem mem_insertAll {entries new : List (String × α)} {entry : String × α}
    (h : entry ∈ insertAll entries new) : entry ∈ entries ∨ entry ∈ new := by
  induction new generalizing entries with
  | nil => exact Or.inl h
  | cons first rest ih =>
    rcases ih h with h | h
    · rcases mem_insert h with rfl | h
      · exact Or.inr List.mem_cons_self
      · exact Or.inl h
    · exact Or.inr (List.mem_cons_of_mem _ h)

/-- Entries of new, distinct names all go last, in their order. -/
theorem insertAll_of_fresh {entries new : List (String × α)} (hd : Distinct (entries ++ new)) :
    insertAll entries new = entries ++ new := by
  induction new generalizing entries with
  | nil => simp
  | cons entry rest ih =>
    have hd' := hd
    rw [Distinct, keys_append, keys_cons, List.nodup_append] at hd'
    have hfresh : entry.1 ∉ keys entries := fun h => hd'.2.2 _ h _ List.mem_cons_self rfl
    have happend : entries ++ entry :: rest = (entries ++ [entry]) ++ rest := by simp
    rw [insertAll_cons, insert_of_fresh _ hfresh, happend]
    exact ih (happend ▸ hd)

theorem ofList_of_distinct {entries : List (String × α)} (hd : Distinct entries) :
    ofList entries = entries := insertAll_of_fresh (by simpa using hd)

theorem distinct_ofList (entries : List (String × α)) : Distinct (ofList entries) := by
  have hnil : Distinct ([] : List (String × α)) := List.nodup_nil
  exact distinct_insertAll hnil entries

theorem mem_ofList {entries : List (String × α)} {entry : String × α} (h : entry ∈ ofList entries) :
    entry ∈ entries := (mem_insertAll h).resolve_left List.not_mem_nil

/-- Whatever is inserted, the first name stays in front. -/
theorem head?_keys_insertAll (entry : String × α) (rest new : List (String × α)) :
    (keys (insertAll (entry :: rest) new)).head? = some entry.1 := by
  induction new generalizing entry rest with
  | nil => rfl
  | cons first more ih =>
    rw [insertAll_cons, insert]
    split
    · next hkey => rw [ih, hkey]
    · exact ih entry _

theorem head?_keys_ofList (fields : List (String × α)) : (keys (ofList fields)).head? = (keys fields).head? := by
  cases fields with
  | nil => rfl
  | cons first rest => exact head?_keys_insertAll first [] rest

/-- What is inserted last counts. -/
theorem lookup_insertAll {entries new : List (String × α)} (hd : Distinct new) (key : String) :
    (insertAll entries new).lookup key = (new.lookup key).or (entries.lookup key) := by
  induction new generalizing entries with
  | nil => rfl
  | cons entry rest ih =>
    obtain ⟨hfresh, hrest⟩ := distinct_cons.mp hd
    rw [insertAll_cons, ih hrest, lookup_insert, lookup_cons_eq]
    by_cases h : entry.1 = key
    · rw [if_pos h.symm, if_pos h, lookup_eq_none_iff.mpr (h ▸ hfresh)]
      rfl
    · rw [if_neg (Ne.symm h), if_neg h]

/-- Two insertions commute as soon as one of the names is there. -/
theorem insert_comm {key other : String} (hne : key ≠ other) (value new : α) {entries : List (String × α)}
    (h : key ∈ keys entries) :
    insert key value (insert other new entries) = insert other new (insert key value entries) := by
  induction entries with
  | nil => contradiction
  | cons entry rest ih =>
    rw [keys_cons, List.mem_cons] at h
    by_cases hkey : entry.1 = key
    · simp [insert, hkey, hne]
    · have hrest : key ∈ keys rest := h.resolve_left (Ne.symm hkey)
      by_cases hother : entry.1 = other
      · simp [insert, hother, Ne.symm hne]
      · simp [insert, hkey, hother, ih hrest]

theorem insert_insert (key : String) (old value : α) (entries : List (String × α)) :
    insert key value (insert key old entries) = insert key value entries := by
  induction entries with
  | nil => simp [insert]
  | cons entry rest ih =>
    by_cases hkey : entry.1 = key
    · simp [insert, hkey]
    · simp [insert, hkey, ih]

theorem insertAll_append (entries xs ys : List (String × α)) :
    insertAll entries (xs ++ ys) = insertAll (insertAll entries xs) ys := List.foldl_append

theorem mem_keys_insertAll {key : String} {entries : List (String × α)} (h : key ∈ keys entries)
    (new : List (String × α)) : key ∈ keys (insertAll entries new) := by
  induction new generalizing entries with
  | nil => exact h
  | cons entry rest ih =>
    apply ih
    rw [keys_insert]
    split
    · exact h
    · exact List.mem_append_left _ h

/-- An entry that is there may as well be replaced before others are inserted. -/
theorem insert_insertAll_of_fresh {key : String} {new : List (String × α)} (hfresh : key ∉ keys new) (value : α)
    {entries : List (String × α)} (h : key ∈ keys entries) :
    insert key value (insertAll entries new) = insertAll (insert key value entries) new := by
  induction new generalizing entries with
  | nil => rfl
  | cons entry rest ih =>
    rw [keys_cons, List.mem_cons, not_or] at hfresh
    have hthere : key ∈ keys (insert entry.1 entry.2 entries) := mem_keys_insertAll h [entry]
    rw [insertAll_cons, insertAll_cons, ih hfresh.2 hthere, insert_comm hfresh.1 _ _ h]

theorem insertAll_insert {key : String} (value : α) {new : List (String × α)} (hd : Distinct new)
    (entries : List (String × α)) :
    insertAll entries (insert key value new) = insert key value (insertAll entries new) := by
  induction new generalizing entries with
  | nil => rfl
  | cons entry rest ih =>
    obtain ⟨hfresh, hrest⟩ := distinct_cons.mp hd
    rw [insert]
    split
    · next hkey =>
      subst hkey
      have hthere : entry.1 ∈ keys (insert entry.1 entry.2 entries) := by
        rw [keys_insert]
        split <;> simp_all
      rw [insertAll_cons, insertAll_cons, insert_insertAll_of_fresh hfresh _ hthere, insert_insert]
    · rw [insertAll_cons, insertAll_cons, ih hrest]

/-- Inserting a map built from a list is inserting the list. -/
theorem insertAll_ofList (entries new : List (String × α)) :
    insertAll entries (ofList new) = insertAll entries new := by
  have hmore : ∀ built : List (String × α), Distinct built →
      insertAll entries (insertAll built new) = insertAll (insertAll entries built) new := by
    induction new with
    | nil => intro built _; rfl
    | cons entry rest ih =>
      intro built hd
      rw [insertAll_cons, ih _ (distinct_insert hd), insertAll_insert _ hd, insertAll_cons]
  exact hmore [] List.nodup_nil

theorem map_insert {f : String → String} (hf : Function.Injective f) (g : α → β) (key : String) (value : α)
    (entries : List (String × α)) :
    (insert key value entries).map (fun entry => (f entry.1, g entry.2)) =
      insert (f key) (g value) (entries.map fun entry => (f entry.1, g entry.2)) := by
  induction entries with
  | nil => rfl
  | cons entry rest ih =>
    by_cases hkey : entry.1 = key
    · simp [insert, hkey]
    · have hmapped : f entry.1 ≠ f key := fun he => hkey (hf he)
      simp [insert, hkey, hmapped, ih]

theorem map_ofList {f : String → String} (hf : Function.Injective f) (g : α → β) (new : List (String × α)) :
    (ofList new).map (fun entry => (f entry.1, g entry.2)) = ofList (new.map fun entry => (f entry.1, g entry.2)) := by
  have hmore : ∀ built : List (String × α), (insertAll built new).map (fun entry => (f entry.1, g entry.2)) =
      insertAll (built.map fun entry => (f entry.1, g entry.2)) (new.map fun entry => (f entry.1, g entry.2)) := by
    induction new with
    | nil => intro built; rfl
    | cons entry rest ih =>
      intro built
      rw [insertAll_cons, ih, map_insert hf, List.map_cons, insertAll_cons]
  exact hmore []

/-- The last entry of a name counts. -/
theorem lookup_ofList (new : List (String × α)) (key : String) :
    (ofList new).lookup key = new.reverse.lookup key := by
  have hmore : ∀ built : List (String × α),
      (insertAll built new).lookup key = (new.reverse.lookup key).or (built.lookup key) := by
    induction new with
    | nil => intro built; rfl
    | cons entry rest ih =>
      intro built
      rw [insertAll_cons, ih, lookup_insert, List.reverse_cons, List.lookup_append]
      by_cases h : key = entry.1
      · simp [h, lookup_cons_eq]
      · simp [h, lookup_cons_eq, Ne.symm h]
  rw [ofList, hmore]
  simp

/-- Maps all of whose names are in another have no more entries. -/
theorem length_le_of_keys {entries others : List (String × α)} (hd : Distinct entries)
    (h : ∀ key ∈ keys entries, key ∈ keys others) : entries.length ≤ others.length := by
  simpa [keys] using (List.Nodup.subperm hd h).length_le

/-- Maps with the same value under each name have the same entries. -/
theorem perm_of_lookup {entries others : List (String × α)} (hd : Distinct entries) (hd' : Distinct others)
    (h : ∀ key, entries.lookup key = others.lookup key) : entries.Perm others := by
  have hmem : ∀ xs ys : List (String × α), Distinct xs → (∀ key, xs.lookup key = ys.lookup key) →
      ∀ entry ∈ xs, entry ∈ ys := by
    intro xs ys hxs heq entry hentry
    have hlookup := lookup_of_mem hxs hentry
    rw [heq] at hlookup
    exact mem_of_lookup hlookup
  refine (List.perm_ext_iff_of_nodup hd.of_map hd'.of_map).mpr ?_
  intro entry
  exact ⟨hmem entries others hd h entry, hmem others entries hd' (fun key => (h key).symm) entry⟩

/-- Maps with the same value under each name and the same order of names are equal. -/
theorem eq_of_lookup {entries others : List (String × α)} (hd : Distinct entries)
    (hkeys : keys entries = keys others) (h : ∀ key, entries.lookup key = others.lookup key) : entries = others := by
  induction entries generalizing others with
  | nil => exact (List.map_eq_nil_iff.mp hkeys.symm).symm
  | cons entry rest ih =>
    obtain ⟨other, others, rfl⟩ : ∃ other tail, others = other :: tail :=
      List.exists_cons_of_ne_nil fun he => by simp [he] at hkeys
    obtain ⟨hkey, hkeys⟩ : entry.1 = other.1 ∧ keys rest = keys others := List.cons.inj hkeys
    obtain ⟨hfresh, hrest⟩ := distinct_cons.mp hd
    have hvalue := h entry.1
    rw [lookup_cons_eq, lookup_cons_eq, if_pos rfl, if_pos hkey.symm, Option.some.injEq] at hvalue
    rw [Prod.ext hkey hvalue, ih hrest hkeys]
    intro key
    by_cases hother : entry.1 = key
    · have hnone : rest.lookup entry.1 = none := lookup_eq_none_iff.mpr hfresh
      have hnone' : others.lookup entry.1 = none := lookup_eq_none_iff.mpr (hkeys ▸ hfresh)
      rw [← hother, hnone, hnone']
    · have hlookup := h key
      rwa [lookup_cons_eq, lookup_cons_eq, if_neg hother, if_neg (hkey ▸ hother)] at hlookup

theorem lookup_perm {entries others : List (String × α)} (hd : Distinct entries) (hperm : entries.Perm others)
    (key : String) : entries.lookup key = others.lookup key := by
  have hd' : Distinct others := (hperm.map Prod.fst).nodup hd
  apply Option.ext
  intro value
  constructor
  · intro h
    exact lookup_of_mem hd' (hperm.mem_iff.mp (mem_of_lookup h))
  · intro h
    exact lookup_of_mem hd (hperm.mem_iff.mpr (mem_of_lookup h))

/-! ## The order of the names -/

theorem eraseDups_of_nodup {names : List String} (h : names.Nodup) : names.eraseDups = names := by
  induction names with
  | nil => rfl
  | cons name rest ih =>
    obtain ⟨hfresh, hrest⟩ := List.nodup_cons.mp h
    have hkept : rest.filter (fun other => !other == name) = rest := by
      refine List.filter_eq_self.mpr fun other hother => ?_
      have hne : other ≠ name := fun he => hfresh (he ▸ hother)
      simpa using hne
    rw [List.eraseDups_cons, hkept, ih hrest]

/-- A name that was there before does not appear again. -/
theorem eraseDups_append_cons_of_mem {name : String} {names : List String} (h : name ∈ names) (more : List String) :
    (names ++ name :: more).eraseDups = (names ++ more).eraseDups := by
  rw [List.eraseDups_append, List.eraseDups_append, List.cons_removeAll, if_neg (by simpa using h)]

/-- A name that is inserted appears behind those that are there. -/
theorem keys_insert_append (key : String) (value : α) (entries : List (String × α)) (more : List String) :
    (keys (insert key value entries) ++ more).eraseDups = (keys entries ++ key :: more).eraseDups := by
  rw [keys_insert]
  split
  · next hmem => rw [eraseDups_append_cons_of_mem hmem]
  · rw [List.append_assoc, List.singleton_append]

theorem keys_insertAll {entries : List (String × α)} (hd : Distinct entries) (new : List (String × α)) :
    keys (insertAll entries new) = (keys entries ++ keys new).eraseDups := by
  induction new generalizing entries with
  | nil => rw [insertAll_nil, keys_nil, List.append_nil, eraseDups_of_nodup hd]
  | cons entry rest ih => rw [insertAll_cons, ih (distinct_insert hd), keys_insert_append, keys_cons]

/-- Each name of a list of entries is there once, in the order of first appearance. -/
theorem keys_ofList (new : List (String × α)) : keys (ofList new) = (keys new).eraseDups := by
  have hnil : Distinct ([] : List (String × α)) := List.nodup_nil
  rw [ofList, keys_insertAll hnil, keys_nil, List.nil_append]

/-! ## Altering an entry in its place -/

/-- Changes the value of every entry of a name, or drops the entry. -/
def alter (key : String) (f : α → Option α) (entries : List (String × α)) : List (String × α) :=
  entries.filterMap fun entry => if entry.1 = key then (f entry.2).map (entry.1, ·) else some entry

variable {key other : String} {f g : α → Option α} {value : α} {entries : List (String × α)}

theorem alter_cons (key : String) (f : α → Option α) (entry : String × α) (rest : List (String × α)) :
    alter key f (entry :: rest) =
      (if entry.1 = key then ((f entry.2).map (entry.1, ·)).toList else [entry]) ++ alter key f rest := by
  rw [alter, List.filterMap_cons]
  by_cases h : entry.1 = key
  · rw [if_pos h, if_pos h]
    cases f entry.2 <;> rfl
  · rw [if_neg h, if_neg h]
    rfl

theorem alter_append (key : String) (f : α → Option α) (xs ys : List (String × α)) :
    alter key f (xs ++ ys) = alter key f xs ++ alter key f ys := List.filterMap_append

theorem alter_of_fresh (h : key ∉ keys entries) : alter key f entries = entries := by
  induction entries with
  | nil => rfl
  | cons entry rest ih =>
    rw [keys_cons, List.mem_cons, not_or] at h
    rw [alter_cons, if_neg (Ne.symm h.1), ih h.2, List.singleton_append]

theorem alter_comm (h : key ≠ other) :
    alter key f (alter other g entries) = alter other g (alter key f entries) := by
  simp only [alter, List.filterMap_filterMap]
  refine List.filterMap_congr fun entry _ => ?_
  by_cases hkey : entry.1 = key
  · have hother : entry.1 ≠ other := fun he => h (hkey.symm.trans he)
    rw [if_neg hother, if_pos hkey, Option.bind_some, if_pos hkey]
    cases f entry.2 <;> simp [hother]
  · rw [if_neg hkey, Option.bind_some]
    by_cases hother : entry.1 = other
    · rw [if_pos hother]
      cases g entry.2 <;> simp [hkey]
    · simp [hkey, hother]

theorem alter_alter : alter key f (alter key g entries) = alter key (fun v => (g v).bind f) entries := by
  simp only [alter, List.filterMap_filterMap]
  refine List.filterMap_congr fun entry _ => ?_
  by_cases hkey : entry.1 = key
  · rw [if_pos hkey, if_pos hkey]
    cases g entry.2 <;> simp [hkey]
  · simp [hkey]

theorem keys_alter_sublist (key : String) (f : α → Option α) (entries : List (String × α)) :
    (keys (alter key f entries)).Sublist (keys entries) := by
  induction entries with
  | nil => exact List.Sublist.refl _
  | cons entry rest ih =>
    rw [alter_cons, keys_append, keys_cons]
    split
    · cases f entry.2 with
      | none => exact List.Sublist.cons _ ih
      | some w => exact List.Sublist.cons_cons _ ih
    · exact List.Sublist.cons_cons _ ih

theorem distinct_alter (hd : Distinct entries) : Distinct (alter key f entries) :=
  hd.sublist (keys_alter_sublist key f entries)

theorem mem_alter {entry : String × α} (h : entry ∈ alter key f entries) :
    entry ∈ entries ∨ ∃ v, (key, v) ∈ entries ∧ f v = some entry.2 := by
  obtain ⟨old, hold, hentry⟩ := List.mem_filterMap.mp h
  split at hentry
  · next hkey =>
    obtain ⟨w, hw, rfl⟩ := Option.map_eq_some_iff.mp hentry
    exact Or.inr ⟨old.2, hkey ▸ hold, hw⟩
  · exact Or.inl (Option.some.inj hentry ▸ hold)

theorem lookup_alter_of_ne (h : other ≠ key) : (alter key f entries).lookup other = entries.lookup other := by
  induction entries with
  | nil => rfl
  | cons entry rest ih =>
    rw [alter_cons, lookup_cons_eq]
    split
    · next hkey =>
      rw [if_neg (fun he => h (he.symm.trans hkey)), ← ih]
      cases f entry.2 with
      | none => rfl
      | some w => exact (lookup_cons_eq other _ _).trans (if_neg fun he => h (he.symm.trans hkey))
    · rw [List.singleton_append, lookup_cons_eq, ih]

theorem lookup_alter_self (hd : Distinct entries) :
    (alter key f entries).lookup key = (entries.lookup key).bind f := by
  induction entries with
  | nil => rfl
  | cons entry rest ih =>
    obtain ⟨hfresh, hrest⟩ := distinct_cons.mp hd
    rw [alter_cons, lookup_cons_eq]
    by_cases hkey : entry.1 = key
    · rw [hkey] at hfresh
      rw [if_pos hkey, if_pos hkey, alter_of_fresh hfresh, Option.bind_some]
      cases f entry.2 with
      | none => exact lookup_eq_none_iff.mpr hfresh
      | some w => exact (lookup_cons_eq key _ _).trans (if_pos hkey)
    · rw [if_neg hkey, if_neg hkey, List.singleton_append, lookup_cons_eq, if_neg hkey, ih hrest]

theorem erase_eq_alter (hd : Distinct entries) : erase key entries = alter key (fun _ => none) entries := by
  induction entries with
  | nil => rfl
  | cons entry rest ih =>
    obtain ⟨hfresh, hrest⟩ := distinct_cons.mp hd
    rw [alter_cons, erase]
    by_cases hkey : entry.1 = key
    · rw [List.eraseP_cons_of_pos (by simpa using hkey), if_pos hkey, alter_of_fresh (hkey ▸ hfresh)]
      rfl
    · rw [List.eraseP_cons_of_neg (by simpa using hkey), if_neg hkey, ← ih hrest]
      rfl

theorem insert_eq_alter (hd : Distinct entries) (h : key ∈ keys entries) :
    insert key value entries = alter key (fun _ => some value) entries := by
  induction entries with
  | nil => contradiction
  | cons entry rest ih =>
    obtain ⟨hfresh, hrest⟩ := distinct_cons.mp hd
    rw [alter_cons, insert]
    by_cases hkey : entry.1 = key
    · rw [if_pos hkey, if_pos hkey, alter_of_fresh (hkey ▸ hfresh), hkey]
      rfl
    · have hmem : key ∈ keys rest := (List.mem_cons.mp h).resolve_left (Ne.symm hkey)
      rw [if_neg hkey, if_neg hkey, ih hrest hmem, List.singleton_append]

theorem insert_of_lookup (h : entries.lookup key = some value) : insert key value entries = entries := by
  induction entries with
  | nil => contradiction
  | cons entry rest ih =>
    rw [lookup_cons_eq] at h
    rw [insert]
    split at h
    · next hkey =>
      rw [if_pos hkey, ← hkey, ← Option.some.inj h]
    · next hkey => rw [if_neg hkey, ih h]

/-- Entries that are all there change nothing. -/
theorem insertAll_of_lookup {new : List (String × α)}
    (h : ∀ entry ∈ new, entries.lookup entry.1 = some entry.2) : insertAll entries new = entries := by
  induction new with
  | nil => rfl
  | cons entry rest ih =>
    rw [List.forall_mem_cons] at h
    rw [insertAll_cons, insert_of_lookup h.1, ih h.2]

theorem insertAll_insertAll {new : List (String × α)} (hd : Distinct new) :
    insertAll (insertAll entries new) new = insertAll entries new := by
  apply insertAll_of_lookup
  intro entry hentry
  rw [lookup_insertAll hd, lookup_of_mem hd hentry]
  rfl

/-- What is inserted and altered is inserted as altered, or leaves no trace of the entry. -/
theorem alter_insert (hd : Distinct entries) :
    alter key f (insert key value entries) =
      match f value with
      | some w => insert key w entries
      | none => erase key entries := by
  by_cases hmem : key ∈ keys entries
  · rw [insert_eq_alter hd hmem, alter_alter]
    cases hw : f value with
    | none => simp [hw, erase_eq_alter hd]
    | some w => simp [hw, insert_eq_alter hd hmem]
  · rw [insert_of_fresh value hmem, alter_append, alter_of_fresh hmem, alter_cons, if_pos rfl]
    cases hw : f value with
    | none =>
      show entries ++ [] = erase key entries
      rw [erase_eq_alter hd, alter_of_fresh hmem, List.append_nil]
    | some w =>
      show entries ++ [(key, w)] = insert key w entries
      rw [insert_of_fresh w hmem]

/-- Altering an entry replaces its value or erases it. -/
theorem alter_of_lookup (hd : Distinct entries) (h : entries.lookup key = some value) :
    alter key f entries =
      match f value with
      | some w => insert key w entries
      | none => erase key entries := by
  rw [← alter_insert hd, insert_of_lookup h]

/-! ## Erasing -/

theorem erase_erase (key other : String) (entries : List (String × α)) :
    erase key (erase other entries) = erase other (erase key entries) := by
  by_cases h : key = other
  · rw [h]
  · refine (List.eraseP_comm fun entry _ => ?_).symm
    by_contra hboth
    simp only [not_or, not_not, beq_iff_eq] at hboth
    exact h (hboth.1.symm.trans hboth.2)

theorem distinct_erase (hd : Distinct entries) : Distinct (erase key entries) := by
  rw [erase_eq_alter hd]
  exact distinct_alter hd

theorem lookup_erase_of_ne (hd : Distinct entries) (h : other ≠ key) :
    (erase key entries).lookup other = entries.lookup other := by
  rw [erase_eq_alter hd, lookup_alter_of_ne h]

/-- The names that are left are in the order they had. -/
theorem keys_erase (key : String) (entries : List (String × α)) :
    keys (erase key entries) = (keys entries).erase key := by
  induction entries with
  | nil => rfl
  | cons entry rest ih =>
    rw [keys_cons, List.erase_cons, erase, List.eraseP_cons]
    cases entry.1 == key with
    | true => rfl
    | false => exact congrArg (entry.1 :: ·) ih

theorem lookup_erase_self (hd : Distinct entries) : (erase key entries).lookup key = none := by
  rw [lookup_eq_none_iff, keys_erase]
  exact List.Nodup.not_mem_erase hd

theorem erase_of_fresh (h : entries.lookup key = none) : erase key entries = entries := by
  refine List.eraseP_of_forall_not fun entry hentry => ?_
  rw [beq_iff_eq]
  rintro rfl
  exact lookup_eq_none_iff.mp h (key_mem_of_mem hentry)

/-- What was not there leaves no trace once it is erased. -/
theorem erase_insert_of_fresh (hd : Distinct entries) (h : key ∉ keys entries) :
    erase key (insert key value entries) = entries := by
  rw [erase_eq_alter (distinct_insert hd), alter_insert hd]
  show erase key entries = entries
  rw [erase_eq_alter hd, alter_of_fresh h]

/-- A value is replaced in its place whether another entry is erased before or after. -/
theorem erase_insert_of_mem (hd : Distinct entries) (hmem : key ∈ keys entries) (h : other ≠ key) :
    erase other (insert key value entries) = insert key value (erase other entries) := by
  have hkept : key ∈ keys (erase other entries) := by
    by_contra hgone
    have hlookup := lookup_eq_none_iff.mpr hgone
    rw [lookup_erase_of_ne hd h.symm] at hlookup
    exact lookup_eq_none_iff.mp hlookup hmem
  rw [insert_eq_alter (distinct_erase hd) hkept, insert_eq_alter hd hmem, erase_eq_alter hd,
    erase_eq_alter (distinct_alter hd), alter_comm h]

/-- Replacing a value in its place after a change of all values is such a change. -/
theorem insert_map {p q : String → α → α} (hd : Distinct entries) (hlookup : entries.lookup key = some value)
    (h : ∀ other ≠ key, p other = q other) :
    insert key (q key value) (entries.map fun entry => (entry.1, p entry.1 entry.2)) =
      entries.map fun entry => (entry.1, q entry.1 entry.2) := by
  induction entries with
  | nil => contradiction
  | cons entry rest ih =>
    obtain ⟨hfresh, hrest⟩ := distinct_cons.mp hd
    rw [lookup_cons_eq] at hlookup
    rw [List.map_cons, List.map_cons, insert]
    by_cases hkey : entry.1 = key
    · subst hkey
      rw [if_pos rfl] at hlookup
      rw [if_pos rfl, Option.some.inj hlookup]
      refine congrArg _ (List.map_congr_left fun other hother => ?_)
      rw [h other.1 fun he => hfresh (he ▸ key_mem_of_mem hother)]
    · rw [if_neg hkey] at hlookup ⊢
      rw [ih hrest hlookup, h entry.1 hkey]

end LayeredConfig.Ordered
