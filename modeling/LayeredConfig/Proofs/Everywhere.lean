import LayeredConfig.Proofs.Ordered
import LayeredConfig.Value

/-!
# Conditions at every depth

`Everywhere leaf names` puts one condition on every scalar of a value or document and one on the
names of every mapping, inside lists and mappings at all depths. A tree is `Proper` when the names of
each of its mappings are distinct, as those of a map are.
-/

namespace LayeredConfig

/-! ## Documents -/

namespace Document

mutual

/-- A condition on every scalar and one on the names of every mapping. -/
def Everywhere (leaf : Document → Prop) (names : List String → Prop) : Document → Prop
  | .list items => EverywhereItems leaf names items
  | .mapping fields => names (Ordered.keys fields) ∧ EverywhereFields leaf names fields
  | .null => leaf .null
  | .bool b => leaf (.bool b)
  | .int i => leaf (.int i)
  | .large n => leaf (.large n)
  | .float x => leaf (.float x)
  | .text s => leaf (.text s)

def EverywhereItems (leaf : Document → Prop) (names : List String → Prop) : List Document → Prop
  | [] => True
  | d :: rest => Everywhere leaf names d ∧ EverywhereItems leaf names rest

def EverywhereFields (leaf : Document → Prop) (names : List String → Prop) :
    List (String × Document) → Prop
  | [] => True
  | (_, d) :: rest => Everywhere leaf names d ∧ EverywhereFields leaf names rest

end

/-- The names of every mapping are distinct. -/
def Proper : Document → Prop := Everywhere (fun _ => True) List.Nodup

mutual

/-- A condition that can be decided on scalars and names can be decided on a document. -/
def decidableEverywhere (leaf : Document → Prop) (names : List String → Prop) [DecidablePred leaf]
    [DecidablePred names] : (d : Document) → Decidable (Everywhere leaf names d)
  | .list items => decidableEverywhereItems leaf names items
  | .mapping fields =>
    have := decidableEverywhereFields leaf names fields
    inferInstanceAs (Decidable (names (Ordered.keys fields) ∧ EverywhereFields leaf names fields))
  | .null => inferInstanceAs (Decidable (leaf .null))
  | .bool b => inferInstanceAs (Decidable (leaf (.bool b)))
  | .int i => inferInstanceAs (Decidable (leaf (.int i)))
  | .large n => inferInstanceAs (Decidable (leaf (.large n)))
  | .float x => inferInstanceAs (Decidable (leaf (.float x)))
  | .text s => inferInstanceAs (Decidable (leaf (.text s)))

def decidableEverywhereItems (leaf : Document → Prop) (names : List String → Prop)
    [DecidablePred leaf] [DecidablePred names] :
    (items : List Document) → Decidable (EverywhereItems leaf names items)
  | [] => inferInstanceAs (Decidable True)
  | d :: rest =>
    have := decidableEverywhere leaf names d
    have := decidableEverywhereItems leaf names rest
    inferInstanceAs (Decidable (Everywhere leaf names d ∧ EverywhereItems leaf names rest))

def decidableEverywhereFields (leaf : Document → Prop) (names : List String → Prop)
    [DecidablePred leaf] [DecidablePred names] :
    (fields : List (String × Document)) → Decidable (EverywhereFields leaf names fields)
  | [] => inferInstanceAs (Decidable True)
  | (_, d) :: rest =>
    have := decidableEverywhere leaf names d
    have := decidableEverywhereFields leaf names rest
    inferInstanceAs (Decidable (Everywhere leaf names d ∧ EverywhereFields leaf names rest))

end

instance (leaf : Document → Prop) (names : List String → Prop) [DecidablePred leaf]
    [DecidablePred names] (d : Document) : Decidable (Everywhere leaf names d) :=
  decidableEverywhere leaf names d

variable {leaf : Document → Prop} {names : List String → Prop}

theorem everywhereItems_iff {items : List Document} :
    EverywhereItems leaf names items ↔ ∀ d ∈ items, Everywhere leaf names d := by
  induction items with
  | nil => simp [EverywhereItems]
  | cons d rest ih => simp [EverywhereItems, ih]

theorem everywhereFields_iff {fields : List (String × Document)} :
    EverywhereFields leaf names fields ↔ ∀ field ∈ fields, Everywhere leaf names field.2 := by
  induction fields with
  | nil => simp [EverywhereFields]
  | cons field rest ih => simp [EverywhereFields, ih]

mutual

/-- What follows from a condition on scalars holds wherever the condition does. -/
theorem Everywhere.mono {weaker : Document → Prop} (hleaf : ∀ d, leaf d → weaker d) :
    (d : Document) → d.Everywhere leaf names → d.Everywhere weaker names
  | .list items, h => EverywhereItems.mono hleaf items h
  | .mapping fields, h => ⟨h.1, EverywhereFields.mono hleaf fields h.2⟩
  | .null, h | .bool _, h | .int _, h | .large _, h | .float _, h | .text _, h => hleaf _ h

theorem EverywhereItems.mono {weaker : Document → Prop} (hleaf : ∀ d, leaf d → weaker d) :
    (items : List Document) → EverywhereItems leaf names items → EverywhereItems weaker names items
  | [], h => h
  | d :: rest, h => ⟨Everywhere.mono hleaf d h.1, EverywhereItems.mono hleaf rest h.2⟩

theorem EverywhereFields.mono {weaker : Document → Prop} (hleaf : ∀ d, leaf d → weaker d) :
    (fields : List (String × Document)) → EverywhereFields leaf names fields → EverywhereFields weaker names fields
  | [], h => h
  | (_, d) :: rest, h => ⟨Everywhere.mono hleaf d h.1, EverywhereFields.mono hleaf rest h.2⟩

end

theorem everywhere_list {items : List Document} :
    Everywhere leaf names (.list items) ↔ ∀ d ∈ items, Everywhere leaf names d := by
  rw [Everywhere, everywhereItems_iff]

theorem everywhere_mapping {fields : List (String × Document)} :
    Everywhere leaf names (.mapping fields) ↔
      names (Ordered.keys fields) ∧ ∀ field ∈ fields, Everywhere leaf names field.2 := by
  rw [Everywhere, everywhereFields_iff]

end Document

/-! ## Values -/

namespace Value

mutual

/-- A condition on every scalar and one on the names of every mapping. -/
def Everywhere (leaf : Value → Prop) (names : List String → Prop) : Value → Prop
  | .list items => EverywhereItems leaf names items
  | .node _ _ entries => names (Ordered.keys entries) ∧ EverywhereEntries leaf names entries
  | .null => leaf .null
  | .bool b => leaf (.bool b)
  | .int i => leaf (.int i)
  | .float x => leaf (.float x)
  | .str s => leaf (.str s)

def EverywhereItems (leaf : Value → Prop) (names : List String → Prop) : List Value → Prop
  | [] => True
  | v :: rest => Everywhere leaf names v ∧ EverywhereItems leaf names rest

def EverywhereEntries (leaf : Value → Prop) (names : List String → Prop) : Entries → Prop
  | [] => True
  | (_, v) :: rest => Everywhere leaf names v ∧ EverywhereEntries leaf names rest

end

variable {leaf : Value → Prop} {names : List String → Prop}

theorem everywhereItems_iff {items : List Value} :
    EverywhereItems leaf names items ↔ ∀ v ∈ items, Everywhere leaf names v := by
  induction items with
  | nil => simp [EverywhereItems]
  | cons v rest ih => simp [EverywhereItems, ih]

theorem everywhereEntries_iff {entries : Entries} :
    EverywhereEntries leaf names entries ↔ ∀ entry ∈ entries, Everywhere leaf names entry.2 := by
  induction entries with
  | nil => simp [EverywhereEntries]
  | cons entry rest ih => simp [EverywhereEntries, ih]

theorem everywhere_list {items : List Value} :
    Everywhere leaf names (.list items) ↔ ∀ v ∈ items, Everywhere leaf names v := by
  rw [Everywhere, everywhereItems_iff]

theorem everywhere_node {scope : Scope} {provenance : Provenance} {entries : Entries} :
    Everywhere leaf names (.node scope provenance entries) ↔
      names (Ordered.keys entries) ∧ ∀ entry ∈ entries, Everywhere leaf names entry.2 := by
  rw [Everywhere, everywhereEntries_iff]

theorem keys_rebindEntries (scope : Scope) (entries : Entries) :
    Ordered.keys (rebindEntries scope entries) = Ordered.keys entries := by
  induction entries with
  | nil => rfl
  | cons entry rest ih => rw [rebindEntries, mapScopeEntries, Ordered.keys_cons, Ordered.keys_cons, ih]

mutual

/-- Conditions on scalars and names do not look at scopes. -/
theorem Everywhere.rebind (scope : Scope) : (v : Value) → v.Everywhere leaf names →
    (v.rebind scope).Everywhere leaf names
  | .node _ _ entries, h => by
    refine ⟨?_, EverywhereEntries.rebind scope entries h.2⟩
    rw [keys_rebindEntries]
    exact h.1
  | .list items, h => EverywhereItems.rebind scope items h
  | .null, h | .bool _, h | .int _, h | .float _, h | .str _, h => h

theorem EverywhereItems.rebind (scope : Scope) : (items : List Value) → EverywhereItems leaf names items →
    EverywhereItems leaf names (rebindList scope items)
  | [], h => h
  | v :: rest, h => ⟨Everywhere.rebind scope v h.1, EverywhereItems.rebind scope rest h.2⟩

theorem EverywhereEntries.rebind (scope : Scope) : (entries : Entries) → EverywhereEntries leaf names entries →
    EverywhereEntries leaf names (rebindEntries scope entries)
  | [], h => h
  | (_, v) :: rest, h => ⟨Everywhere.rebind scope v h.1, EverywhereEntries.rebind scope rest h.2⟩

end

/-- The names of every mapping are distinct. -/
def Proper : Value → Prop := Everywhere (fun _ => True) List.Nodup

theorem proper_node {scope : Scope} {provenance : Provenance} {entries : Entries} :
    (node scope provenance entries).Proper ↔
      Ordered.Distinct entries ∧ ∀ entry ∈ entries, entry.2.Proper := everywhere_node

theorem proper_list {items : List Value} : (list items).Proper ↔ ∀ v ∈ items, v.Proper := everywhere_list

end Value

/-- The names of some entries, and of every mapping below them, are distinct. -/
def ProperEntries (entries : Entries) : Prop := Ordered.Distinct entries ∧ ∀ entry ∈ entries, entry.2.Proper

namespace ProperEntries

variable {entries : Entries} {key : String} {v : Value}

theorem nil : ProperEntries [] := ⟨List.nodup_nil, by simp⟩

theorem of_lookup (h : ProperEntries entries) (hlookup : entries.lookup key = some v) : v.Proper :=
  h.2 _ (Ordered.mem_of_lookup hlookup)

theorem insert (h : ProperEntries entries) (hv : v.Proper) : ProperEntries (Ordered.insert key v entries) := by
  refine ⟨Ordered.distinct_insert h.1, fun entry hentry => ?_⟩
  rcases Ordered.mem_insert hentry with rfl | hentry
  · exact hv
  · exact h.2 entry hentry

theorem alter {f : Value → Option Value} (h : ProperEntries entries)
    (hf : ∀ v ∈ entries.lookup key, v.Proper → ∀ w ∈ f v, w.Proper) :
    ProperEntries (Ordered.alter key f entries) := by
  refine ⟨Ordered.distinct_alter h.1, fun entry hentry => ?_⟩
  rcases Ordered.mem_alter hentry with hentry | ⟨v, hv, hw⟩
  · exact h.2 entry hentry
  · exact hf v (Ordered.lookup_of_mem h.1 hv) (h.2 _ hv) _ hw

theorem erase (h : ProperEntries entries) : ProperEntries (Ordered.erase key entries) := by
  rw [Ordered.erase_eq_alter h.1]
  exact h.alter fun _ _ _ _ hw => absurd hw (by simp)

end ProperEntries

end LayeredConfig
