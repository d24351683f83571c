import LayeredConfig.Config
import LayeredConfig.Proofs.Everywhere
import LayeredConfig.Proofs.Path

/-!
# Values in plain form

The plain form of a mapping has its names in their order, and the plain forms of its values. Only a
mapping has a mapping as its plain form. As long as every number is finite, a plain form can be read back
(`ofDocument_toDocument`), and values of one plain form are equal (`same_of_toDocument`).
-/

namespace LayeredConfig

namespace Value

variable {v : Value} {entries others : Entries} {fields : List (String × Document)} {x : Binary64}

theorem toFields_eq_map (entries : Entries) :
    toFields entries = entries.map fun entry => (entry.1, entry.2.toDocument) := by
  induction entries with
  | nil => rfl
  | cons entry rest ih => rw [toFields, ih, List.map_cons]

theorem keys_toFields (entries : Entries) : Ordered.keys (toFields entries) = Ordered.keys entries := by
  rw [toFields_eq_map, Ordered.keys, List.map_map]
  rfl

theorem lookup_toFields (key : String) (entries : Entries) :
    (toFields entries).lookup key = (entries.lookup key).map toDocument := by
  rw [toFields_eq_map]
  exact Ordered.lookup_map (fun _ => toDocument) key entries

theorem toFields_eq_nil_iff : toFields entries = [] ↔ entries = [] := by
  rw [toFields_eq_map, List.map_eq_nil_iff]

theorem toDocument_eq_mapping_iff :
    v.toDocument = .mapping fields ↔ ∃ children, v.entries? = some children ∧ toFields children = fields := by
  cases v with
  | float x =>
    rw [toDocument, Document.ofFloat]
    split <;> simp [entries?]
  | _ => simp [toDocument, entries?]

/-- Mappings of one plain form have entries of one plain form. -/
theorem bind_entries?_of_toDocument {x y : Option Value} (h : x.map toDocument = y.map toDocument) :
    (x.bind entries?).map toFields = (y.bind entries?).map toFields := by
  have hfields : ∀ (z : Option Value) (fields : List (String × Document)),
      (z.bind entries?).map toFields = some fields ↔ z.map toDocument = some (.mapping fields) := by
    intro z fields
    cases z with
    | none => simp
    | some v => rw [Option.bind_some, Option.map_eq_some_iff, Option.map_some, Option.some_inj,
        toDocument_eq_mapping_iff]
  refine Option.ext fun fields => ?_
  rw [hfields, hfields, h]

/-! ## Scope -/

mutual

/-- A plain form has no scope. -/
theorem toDocument_rebind (scope : Scope) : (v : Value) → (v.rebind scope).toDocument = v.toDocument
  | .node _ _ entries => by rw [rebind, mapScope, toDocument, toDocument, toFields_rebindEntries scope entries]
  | .list items => by rw [rebind, mapScope, toDocument, toDocument, toDocuments_rebindList scope items]
  | .null | .bool _ | .int _ | .float _ | .str _ => rfl

theorem toDocuments_rebindList (scope : Scope) : (items : List Value) →
    toDocuments (rebindList scope items) = toDocuments items
  | [] => rfl
  | v :: rest => by
    rw [rebindList, mapScopeList, toDocuments, toDocuments, toDocument_rebind scope v,
      toDocuments_rebindList scope rest]

theorem toFields_rebindEntries (scope : Scope) : (entries : Entries) →
    toFields (rebindEntries scope entries) = toFields entries
  | [] => rfl
  | (key, v) :: rest => by
    rw [rebindEntries, mapScopeEntries, toFields, toFields, toDocument_rebind scope v,
      toFields_rebindEntries scope rest]

end

/-! ## Reading back -/

/-- Every float of a value is a number and not infinite. -/
def Finite : Value → Prop := Everywhere (fun leaf => ∀ x, leaf = .float x → x.isFinite) fun _ => True

/-- Every float of some entries is a number and not infinite. -/
def FiniteEntries (entries : Entries) : Prop := ∀ entry ∈ entries, entry.2.Finite

theorem finite_list {items : List Value} : (list items).Finite ↔ ∀ v ∈ items, v.Finite := everywhere_list

theorem finite_node {scope : Scope} {provenance : Provenance} :
    (node scope provenance entries).Finite ↔ FiniteEntries entries := by
  rw [Finite, everywhere_node, true_and]
  rfl

theorem finite_float : (float x).Finite ↔ x.isFinite := by simp [Finite, Everywhere]

theorem toDocument_float (h : (float x).Finite) : (float x).toDocument = .float x := by
  rw [toDocument, Document.ofFloat, if_pos (finite_float.mp h)]

mutual

/-- **A plain form without infinite numbers reads as a value of that plain form.** -/
theorem ofDocument_toDocument : (v : Value) → v.Finite →
    ∃ w, ofDocument v.toDocument = .ok w ∧ w.toDocument = v.toDocument ∧ w.Finite
  | .float x, h => by
    rw [toDocument_float h]
    exact ⟨.float x, rfl, toDocument_float h, h⟩
  | .list items, h => by
    obtain ⟨read, hread, hsame, hfinite⟩ := ofDocuments_toDocuments items (finite_list.mp h)
    refine ⟨.list read, ?_, ?_, finite_list.mpr hfinite⟩
    · rw [toDocument, ofDocument, hread]
      rfl
    · rw [toDocument, toDocument, hsame]
  | .node _ _ entries, h => by
    obtain ⟨read, hread, hsame, hfinite⟩ := ofFields_toFields entries (finite_node.mp h)
    refine ⟨mapping read, ?_, ?_, finite_node.mpr hfinite⟩
    · rw [toDocument, ofDocument, hread]
      rfl
    · rw [mapping, toDocument, toDocument, hsame]
  | .null, h => ⟨.null, rfl, rfl, h⟩
  | .bool b, h => ⟨.bool b, rfl, rfl, h⟩
  | .int i, h => ⟨.int i, rfl, rfl, h⟩
  | .str s, h => ⟨.str s, rfl, rfl, h⟩

theorem ofDocuments_toDocuments : (items : List Value) → (∀ v ∈ items, v.Finite) →
    ∃ read, ofDocuments (toDocuments items) = .ok read ∧ toDocuments read = toDocuments items ∧
      ∀ v ∈ read, v.Finite
  | [], h => ⟨[], rfl, rfl, h⟩
  | v :: rest, h => by
    obtain ⟨hv, hrest⟩ := List.forall_mem_cons.mp h
    obtain ⟨w, hw, hsame, hfinite⟩ := ofDocument_toDocument v hv
    obtain ⟨read, hread, hothers, hall⟩ := ofDocuments_toDocuments rest hrest
    refine ⟨w :: read, ?_, ?_, List.forall_mem_cons.mpr ⟨hfinite, hall⟩⟩
    · rw [toDocuments, ofDocuments, hw, hread]
      rfl
    · rw [toDocuments, toDocuments, hsame, hothers]

theorem ofFields_toFields : (entries : Entries) → FiniteEntries entries →
    ∃ read, ofFields (toFields entries) = .ok read ∧ toFields read = toFields entries ∧ FiniteEntries read
  | [], h => ⟨[], rfl, rfl, h⟩
  | (key, v) :: rest, h => by
    obtain ⟨hv, hrest⟩ := List.forall_mem_cons.mp h
    obtain ⟨w, hw, hsame, hfinite⟩ := ofDocument_toDocument v hv
    obtain ⟨read, hread, hothers, hall⟩ := ofFields_toFields rest hrest
    refine ⟨(key, w) :: read, ?_, ?_, List.forall_mem_cons.mpr ⟨hfinite, hall⟩⟩
    · rw [toFields, ofFields, hw, hread]
      rfl
    · rw [toFields, toFields, hsame, hothers]

end

/-! ## Equality -/

theorem same_node {scope scope' : Scope} {provenance provenance' : Provenance} :
    (node scope provenance entries).same (node scope' provenance' others) ↔
      entries.length = others.length ∧ sameEntries entries others := by
  rw [same, Bool.and_eq_true, beq_iff_eq]

theorem numericEq_self (h : x.isFinite) : x.numericEq x := by
  have hfield : x.exponentField ≠ 2047 := by simpa [Binary64.isFinite] using h
  simp [Binary64.numericEq, Binary64.isNaN, hfield]

theorem distinct_of_toFields (h : toFields entries = toFields others) (hd : Ordered.Distinct others) :
    Ordered.Distinct entries := by
  rw [Ordered.Distinct, ← keys_toFields, h, keys_toFields]
  exact hd

theorem length_of_toFields (h : toFields entries = toFields others) : entries.length = others.length := by
  rw [toFields_eq_map, toFields_eq_map] at h
  simpa using congrArg List.length h

/-- Only one finite scalar has a plain form. -/
theorem eq_of_scalar {w : Value} (hv : v.Finite) (hw : w.Finite) (hlist : ∀ items, v ≠ .list items)
    (hnode : v.isNode = false) (h : v.toDocument = w.toDocument) : v = w := by
  cases v with
  | list items => exact absurd rfl (hlist items)
  | node scope provenance entries => contradiction
  | _ => cases w <;> simp_all [toDocument, Document.ofFloat, finite_float]

mutual

/-- **Values of one plain form without infinite numbers are equal.** -/
theorem same_of_toDocument : (v w : Value) → v.Finite → w.Finite → w.Proper →
    v.toDocument = w.toDocument → v.same w
  | .list items, w, hv, hw, hproper, h => by
    cases w with
    | list others =>
      rw [toDocument, toDocument] at h
      exact sameList_of_toDocuments items others (finite_list.mp hv) (finite_list.mp hw)
        (proper_list.mp hproper) (Document.list.inj h)
    | float y => rw [toDocument_float hw] at h; cases h
    | _ => cases h
  | .node _ _ entries, w, hv, hw, hproper, h => by
    cases w with
    | node scope provenance others =>
      rw [toDocument, toDocument] at h
      have hfields := Document.mapping.inj h
      have hd := (proper_node.mp hproper).1
      refine same_node.mpr ⟨length_of_toFields hfields, ?_⟩
      refine sameEntries_of_lookup entries others (finite_node.mp hv) (finite_node.mp hw)
        (proper_node.mp hproper).2 fun entry hentry => ?_
      rw [← lookup_toFields, ← hfields, lookup_toFields,
        Ordered.lookup_of_mem (distinct_of_toFields hfields hd) hentry]
      rfl
    | float y => rw [toDocument_float hw] at h; cases h
    | _ => cases h
  | .float x, w, hv, hw, _, h => by
    rw [← eq_of_scalar hv hw (by simp) rfl h]
    exact numericEq_self (finite_float.mp hv)
  | .null, w, hv, hw, _, h => by
    rw [← eq_of_scalar hv hw (by simp) rfl h]
    rfl
  | .bool b, w, hv, hw, _, h | .int i, w, hv, hw, _, h | .str s, w, hv, hw, _, h => by
    rw [← eq_of_scalar hv hw (by simp) rfl h, same, beq_self_eq_true]

theorem sameList_of_toDocuments : (items others : List Value) → (∀ v ∈ items, v.Finite) →
    (∀ w ∈ others, w.Finite) → (∀ w ∈ others, w.Proper) → toDocuments items = toDocuments others →
    sameList items others
  | [], [], _, _, _, _ => rfl
  | [], w :: others, _, _, _, h => by cases h
  | v :: rest, [], _, _, _, h => by cases h
  | v :: rest, w :: others, hv, hw, hproper, h => by
    rw [toDocuments, toDocuments] at h
    obtain ⟨hfirst, hrest⟩ := List.cons.inj h
    rw [List.forall_mem_cons] at hv hw hproper
    rw [sameList, Bool.and_eq_true]
    exact ⟨same_of_toDocument v w hv.1 hw.1 hproper.1 hfirst,
      sameList_of_toDocuments rest others hv.2 hw.2 hproper.2 hrest⟩

theorem sameEntries_of_lookup : (entries others : Entries) → FiniteEntries entries → FiniteEntries others →
    (∀ entry ∈ others, entry.2.Proper) →
    (∀ entry ∈ entries, (others.lookup entry.1).map toDocument = some entry.2.toDocument) →
    sameEntries entries others
  | [], _, _, _, _, _ => rfl
  | (key, v) :: rest, others, hentries, hothers, hproper, h => by
    rw [List.forall_mem_cons] at h
    obtain ⟨hv, hrest⟩ := List.forall_mem_cons.mp hentries
    obtain ⟨w, hw, hdocument⟩ := Option.map_eq_some_iff.mp h.1
    have hmem := Ordered.mem_of_lookup hw
    rw [sameEntries, hw, Bool.and_eq_true]
    exact ⟨same_of_toDocument v w hv (hothers _ hmem) (hproper _ hmem) hdocument.symm,
      sameEntries_of_lookup rest others hrest hothers hproper h.2⟩

end

/-- Entries of one plain form have the same names in the same order, and equal values. -/
theorem forall₂_same_of_toFields (hentries : FiniteEntries entries) (hothers : FiniteEntries others)
    (hproper : ∀ entry ∈ others, entry.2.Proper) (h : toFields entries = toFields others) :
    List.Forall₂ (fun a b => a.1 = b.1 ∧ a.2.same b.2) entries others := by
  induction entries generalizing others with
  | nil => rw [toFields_eq_nil_iff.mp h.symm]; exact List.Forall₂.nil
  | cons entry rest ih =>
    cases others with
    | nil => cases h
    | cons other others =>
      rw [toFields, toFields] at h
      obtain ⟨hfirst, hrest⟩ := List.cons.inj h
      obtain ⟨hname, hdocument⟩ := Prod.mk.inj hfirst
      obtain ⟨hentry, hentries⟩ := List.forall_mem_cons.mp hentries
      obtain ⟨hother, hothers⟩ := List.forall_mem_cons.mp hothers
      obtain ⟨hproper, hbelow⟩ := List.forall_mem_cons.mp hproper
      exact .cons ⟨hname, same_of_toDocument _ _ hentry hother hproper hdocument⟩
        (ih hentries hothers hbelow hrest)

end Value

namespace Path

variable {entries others : Entries} {path : List String}

/-- Trees of one plain form have mappings at the same paths, and these have one plain form. -/
theorem children?_of_toFields (path : List String) (h : Value.toFields entries = Value.toFields others) :
    (children? path entries).map Value.toFields = (children? path others).map Value.toFields := by
  induction path generalizing entries others with
  | nil => rfl
  | cons segment rest ih =>
    have hlookup := congrArg (List.lookup segment) h
    rw [Value.lookup_toFields, Value.lookup_toFields] at hlookup
    have hbelow := Value.bind_entries?_of_toDocument hlookup
    by_cases hrest : rest = []
    · subst hrest
      rw [children?_singleton, children?_singleton, hbelow]
    · rw [children?_cons segment hrest, children?_cons segment hrest]
      cases hchildren : (entries.lookup segment).bind Value.entries? with
      | none =>
        rw [hchildren] at hbelow
        rw [Option.map_eq_none_iff.mp hbelow.symm, Option.bind_none]
      | some children =>
        rw [hchildren] at hbelow
        obtain ⟨below, hothers, hfields⟩ := Option.map_eq_some_iff.mp hbelow.symm
        rw [hothers, Option.bind_some, Option.bind_some]
        exact ih hfields.symm

theorem children?_eq_nil_of_toFields (h : Value.toFields entries = Value.toFields others)
    (hempty : children? path entries = some []) : children? path others = some [] := by
  have hchildren := children?_of_toFields path h
  rw [hempty] at hchildren
  obtain ⟨children, hothers, hfields⟩ := Option.map_eq_some_iff.mp hchildren.symm
  rw [hothers, Value.toFields_eq_nil_iff.mp hfields]

end Path

namespace Config

/-- The names of every mapping of a configuration are distinct. -/
structure Proper (c : Config) : Prop where
  entries : ProperEntries c.tree.entries
  globals : ProperEntries c.globals

/-- No float of a configuration is infinite or not a number. -/
structure Finite (c : Config) : Prop where
  entries : Value.FiniteEntries c.tree.entries
  globals : Value.FiniteEntries c.globals

end Config

end LayeredConfig
