import LayeredConfig.Proofs.Regular
import LayeredConfig.Proofs.Reload

/-!
# A mapping and the configuration of it

A mapping goes into a configuration and comes back out. The conversion to values stops at an integer that needs all 64
bits for its size, wherever it stands, and at nothing else; what it gives has the plain form it was read from
(`Value.ofDocument_converts`). The configuration of the values takes one entry out of the top level, a mapping under the
reserved name, and the plain form puts it back in front unless it is empty. So a mapping is reproduced up to that entry
(`Document.reproduced`), and nothing below the top level is touched.
-/

namespace LayeredConfig

/-! ## What stands in a document -/

namespace Document

variable {items : List Document} {fields : List (String × Document)}

/-- A document stands in another, at any depth, or is the whole of it. -/
inductive Occurs (part : Document) : Document → Prop where
  | here : Occurs part part
  | item {d : Document} {items : List Document} (hmem : d ∈ items) (h : Occurs part d) : Occurs part (.list items)
  | field {name : String} {d : Document} {fields : List (String × Document)} (hmem : (name, d) ∈ fields)
    (h : Occurs part d) : Occurs part (.mapping fields)

theorem occurs_large_list {n : UInt64} : Occurs (large n) (list items) ↔ ∃ d ∈ items, Occurs (large n) d := by
  constructor
  · intro h
    cases h with
    | item hmem h => exact ⟨_, hmem, h⟩
  · rintro ⟨d, hmem, h⟩
    exact .item hmem h

theorem occurs_large_mapping {n : UInt64} :
    Occurs (large n) (mapping fields) ↔ ∃ field ∈ fields, Occurs (large n) field.2 := by
  constructor
  · intro h
    cases h with
    | field hmem h => exact ⟨_, hmem, h⟩
  · rintro ⟨field, hmem, h⟩
    exact .field hmem h

end Document

/-! ## Values -/

namespace Value

/-- The outcome of a conversion whose source may hold integers out of range: one of these, or, if there is none,
something of the plain form that was converted. -/
inductive Converts {α β : Type} (plain : α → β) (source : β) (held : UInt64 → Prop) : Except UInt64 α → Prop where
  | ok {v : α} (hplain : plain v = source) (hnone : ∀ n, ¬held n) : Converts plain source held (.ok v)
  | error {n : UInt64} (hheld : held n) : Converts plain source held (.error n)

namespace Converts

variable {α α' α'' β β' β'' : Type} {plain : α → β} {plain' : α' → β'} {plain'' : α'' → β''} {source : β}
  {source' : β'} {source'' : β''} {held held' held'' : UInt64 → Prop} {x : Except UInt64 α} {y : Except UInt64 α'}

theorem map {f : α → α''} (hx : Converts plain source held x) (hf : ∀ v, plain v = source → plain'' (f v) = source'')
    (hheld : ∀ n, held'' n ↔ held n) : Converts plain'' source'' held'' (x.map f) := by
  cases hx with
  | ok hplain hnone => exact .ok (hf _ hplain) fun n h => hnone n ((hheld n).mp h)
  | error h => exact .error ((hheld _).mpr h)

/-- Two conversions, one after the other. -/
theorem both {f : α → α' → α''} (hx : Converts plain source held x) (hy : Converts plain' source' held' y)
    (hf : ∀ v w, plain v = source → plain' w = source' → plain'' (f v w) = source'')
    (hheld : ∀ n, held'' n ↔ held n ∨ held' n) :
    Converts plain'' source'' held'' (do let v ← x; let w ← y; return f v w) := by
  cases hx with
  | error h => exact .error ((hheld _).mpr (.inl h))
  | ok hplain hnone =>
    cases hy with
    | error h => exact .error ((hheld _).mpr (.inr h))
    | ok hplain' hnone' =>
      refine .ok (hf _ _ hplain hplain') fun n h => ?_
      rcases (hheld n).mp h with h | h
      · exact hnone n h
      · exact hnone' n h

end Converts

open Document

mutual

/-- **A document converts to a value of its plain form unless an integer out of range stands in it.** -/
theorem ofDocument_converts : (d : Document) → d.Regular →
    Converts toDocument d (fun n => Occurs (large n) d) (ofDocument d)
  | .list items, hd => by
    rw [ofDocument]
    refine (ofDocuments_converts items (regular_list.mp hd)).map (fun vs hvs => ?_) fun n => occurs_large_list
    rw [toDocument, hvs]
  | .mapping fields, hd => by
    rw [ofDocument]
    refine (ofFields_converts fields (regular_mapping.mp hd).2).map (fun vs hvs => ?_) fun n => occurs_large_mapping
    rw [mapping, toDocument, hvs]
  | .float x, hd => by
    refine .ok ?_ fun n h => nomatch h
    rw [toDocument, ofFloat, if_pos (regular_float.mp hd)]
  | .large n, _ => .error .here
  | .null, _ | .bool _, _ | .int _, _ | .text _, _ => .ok rfl fun n h => nomatch h

theorem ofDocuments_converts : (items : List Document) → (∀ d ∈ items, d.Regular) →
    Converts toDocuments items (fun n => ∃ d ∈ items, Occurs (large n) d) (ofDocuments items)
  | [], _ => .ok rfl (by simp)
  | d :: rest, hitems => by
    obtain ⟨hd, hrest⟩ := List.forall_mem_cons.mp hitems
    rw [ofDocuments]
    refine (ofDocument_converts d hd).both (ofDocuments_converts rest hrest) (fun v vs hv hvs => ?_) fun n => by simp
    rw [toDocuments, hv, hvs]

theorem ofFields_converts : (fields : List (String × Document)) → (∀ field ∈ fields, field.2.Regular) →
    Converts toFields fields (fun n => ∃ field ∈ fields, Occurs (large n) field.2) (ofFields fields)
  | [], _ => .ok rfl (by simp)
  | (name, d) :: rest, hfields => by
    obtain ⟨hd, hrest⟩ := List.forall_mem_cons.mp hfields
    rw [ofFields]
    refine (ofDocument_converts d hd).both (ofFields_converts rest hrest) (fun v vs hv hvs => ?_) fun n => by simp
    rw [toFields, hv, hvs]

end

theorem erase_toFields (key : String) (entries : Entries) :
    toFields (Ordered.erase key entries) = Ordered.erase key (toFields entries) := by
  rw [toFields_eq_map, toFields_eq_map, Ordered.erase, Ordered.erase, List.eraseP_map]
  rfl

end Value

/-! ## Configurations -/

/-- What a mapping comes back as: a mapping under the reserved name is moved to the front if it is wanted and not empty,
and is left out otherwise. -/
def Document.reproduced (includeGlobals : Bool) (fields : List (String × Document)) : List (String × Document) :=
  match fields.lookup globalsKey with
  | some (.mapping globals) =>
    let front := if includeGlobals && !globals.isEmpty then [(globalsKey, Document.mapping globals)] else []
    front ++ Ordered.erase globalsKey fields
  | _ => fields

theorem Document.reproduced_of_mapping {fields globals : List (String × Document)}
    (h : fields.lookup globalsKey = some (.mapping globals)) (includeGlobals : Bool) :
    reproduced includeGlobals fields =
      (if includeGlobals && !globals.isEmpty then [(globalsKey, .mapping globals)] else []) ++
        Ordered.erase globalsKey fields := by
  rw [reproduced, h]

theorem Document.reproduced_of_other {fields : List (String × Document)}
    (h : ∀ globals, fields.lookup globalsKey ≠ some (.mapping globals)) (includeGlobals : Bool) :
    reproduced includeGlobals fields = fields := by
  unfold reproduced
  split
  · next globals hlookup => exact absurd hlookup (h globals)
  · rfl

/-- Beside entries without the reserved name there is room for the globals. -/
theorem withGlobals_erase {fields : List (String × Document)} (hd : Ordered.Distinct fields)
    (globals : List (String × Document)) :
    withGlobals globals (Ordered.erase globalsKey fields) =
      (if globals.isEmpty then [] else [(globalsKey, .mapping globals)]) ++ Ordered.erase globalsKey fields := by
  have hfresh : globalsKey ∉ Ordered.keys (Ordered.erase globalsKey fields) :=
    Ordered.lookup_eq_none_iff.mp (Ordered.lookup_erase_self hd)
  refine Ordered.insertAll_of_fresh ?_
  split
  · exact Ordered.distinct_erase hd
  · exact Ordered.distinct_cons.mpr ⟨hfresh, Ordered.distinct_erase hd⟩

namespace Config

variable {entries : Entries} {fields : List (String × Document)}

theorem fields_freshTree (entries globals : Entries) :
    Config.fields ⟨freshTree entries, globals⟩ = Value.toFields entries := Value.toFields_rebindEntries _ entries

/-- **Entries come back as the mapping of their plain form does.** -/
theorem toDocument_ofEntries (hd : Ordered.Distinct (Value.toFields entries)) (includeGlobals : Bool) :
    (ofEntries {} entries).toDocument includeGlobals =
      .mapping (Document.reproduced includeGlobals (Value.toFields entries)) := by
  have hlookup := Value.lookup_toFields globalsKey entries
  cases hchildren : Path.children? [globalsKey] entries with
  | none =>
    have hother : ∀ globals, (Value.toFields entries).lookup globalsKey ≠ some (.mapping globals) := by
      intro globals hglobals
      rw [hlookup] at hglobals
      obtain ⟨v, hv, hmapping⟩ := Option.map_eq_some_iff.mp hglobals
      obtain ⟨children, hsome, -⟩ := Value.toDocument_eq_mapping_iff.mp hmapping
      rw [Path.children?_singleton, hv, Option.bind_some, hsome] at hchildren
      contradiction
    rw [ofEntries_of_none hchildren, Document.reproduced_of_other hother, toDocument, fields_freshTree]
    cases includeGlobals <;> exact congrArg Document.mapping (Ordered.ofList_of_distinct hd)
  | some globals =>
    have hreserved := hchildren
    rw [Path.children?_singleton] at hreserved
    obtain ⟨v, hv, hglobals⟩ := Option.bind_eq_some_iff.mp hreserved
    rw [hv, Option.map_some, Value.toDocument_eq_mapping_iff.mpr ⟨globals, hglobals, rfl⟩] at hlookup
    rw [ofEntries_of_some hchildren, Document.reproduced_of_mapping hlookup, toDocument, fields_freshTree,
      Value.erase_toFields, withGlobals_erase hd]
    cases includeGlobals <;> cases globals <;> rfl

/-- What becomes of a mapping: an integer out of range that stands in it is the error, or there is none and the mapping
comes back. -/
theorem ofDocument_mapping_cases (hregular : (Document.mapping fields).Regular) :
    (∃ n, ofDocument {} (.mapping fields) = .error (.invalidSource (.integerRange n)) ∧
        Document.Occurs (.large n) (.mapping fields)) ∨
      ∃ c, ofDocument {} (.mapping fields) = .ok c ∧ (∀ n, ¬Document.Occurs (.large n) (.mapping fields)) ∧
        ∀ includeGlobals, c.toDocument includeGlobals = .mapping (Document.reproduced includeGlobals fields) := by
  obtain ⟨hd, hfields⟩ := Document.regular_mapping.mp hregular
  have hconverts := Value.ofFields_converts fields hfields
  simp only [← Document.occurs_large_mapping] at hconverts
  cases hread : Value.ofFields fields with
  | error n =>
    rw [hread] at hconverts
    cases hconverts with
    | error hheld => exact .inl ⟨n, by rw [ofDocument, hread], hheld⟩
  | ok entries =>
    rw [hread] at hconverts
    cases hconverts with
    | ok hplain hnone =>
      subst hplain
      exact .inr ⟨_, by rw [ofDocument, hread], hnone, toDocument_ofEntries hd⟩

/-- **A mapping is refused exactly if an integer out of range stands anywhere in it. Any other comes back as it was,
with a mapping of globals at its top level in front or left out.** -/
theorem ofDocument_reproduces (hregular : (Document.mapping fields).Regular) :
    ((∃ error, ofDocument {} (.mapping fields) = .error error) ↔ ∃ n, Document.Occurs (.large n) (.mapping fields)) ∧
      ((∀ n, ¬Document.Occurs (.large n) (.mapping fields)) →
        ∃ c, ofDocument {} (.mapping fields) = .ok c ∧
          ∀ includeGlobals, c.toDocument includeGlobals = .mapping (Document.reproduced includeGlobals fields)) := by
  rcases ofDocument_mapping_cases hregular with ⟨n, hread, hoccurs⟩ | ⟨c, hread, hnone, hreproduced⟩
  · exact ⟨⟨fun _ => ⟨n, hoccurs⟩, fun _ => ⟨_, hread⟩⟩, fun hnone => absurd hoccurs (hnone n)⟩
  · refine ⟨⟨fun ⟨error, herror⟩ => ?_, fun ⟨n, hoccurs⟩ => absurd hoccurs (hnone n)⟩, fun _ => ⟨c, hread, hreproduced⟩⟩
    rw [hread] at herror
    contradiction

/-- Globals behind an entry come to the front, a mapping of the same name inside a list stays; with an integer out of
range among the globals there is no configuration. -/
theorem ofDocument_globals_to_front :
    let host : Document := .mapping [("_globals", .mapping []), ("port", .int 80), ("load", .float (.ofInt 1))]
    let fields (value : Document) : List (String × Document) :=
      [("hosts", .list [host, .null]), ("_globals", .mapping [("limit", value)])]
    (Document.mapping (fields (.int 5))).Regular ∧ (Document.mapping (fields (.large 9223372036854775808))).Regular ∧
      (∃ c, ofDocument {} (.mapping (fields (.int 5))) = .ok c ∧
        c.toDocument true = .mapping [("_globals", .mapping [("limit", .int 5)]), ("hosts", .list [host, .null])] ∧
        c.toDocument false = .mapping [("hosts", .list [host, .null])]) ∧
      ∃ error, ofDocument {} (.mapping (fields (.large 9223372036854775808))) = .error error := by
  intro host fields
  have hone : (Binary64.ofInt 1).isFinite := by decide
  have hregular : ∀ value : Document, value.Regular → (Document.mapping (fields value)).Regular := by
    intro value hvalue
    simp [fields, host, Document.regular_mapping, Document.regular_list, Document.regular_int, Document.regular_null,
      Document.regular_float, Ordered.Distinct, hvalue, hone]
  have hsmall := hregular (.int 5) (Document.regular_int 5)
  have hlarge := hregular (.large 9223372036854775808) (Document.regular_large _)
  refine ⟨hsmall, hlarge, ?_, ?_⟩
  · have hnone : ∀ n, ¬Document.Occurs (.large n) (.mapping (fields (.int 5))) := by
      intro n hn
      obtain ⟨error, herror⟩ := (ofDocument_reproduces hsmall).1.mpr ⟨n, hn⟩
      cases herror
    obtain ⟨c, hread, hreproduced⟩ := (ofDocument_reproduces hsmall).2 hnone
    exact ⟨c, hread, hreproduced true, hreproduced false⟩
  · refine (ofDocument_reproduces hlarge).1.mpr ⟨9223372036854775808, ?_⟩
    exact .field (List.mem_cons_of_mem _ (List.mem_singleton_self _)) (.field (List.mem_singleton_self _) .here)

end Config

end LayeredConfig
