import LayeredConfig.Proofs.PlainForm
import LayeredConfig.Saving

/-!
# Reading a configuration back

The plain form of a configuration is that of one list of entries: the globals under the reserved name, then
the entries of the tree (`persisted_joined`). Reading takes the globals out again. The two cancel exactly if
the reserved name is free, or has no mapping while there are no globals.
-/

namespace LayeredConfig

namespace Value

theorem toFields_insert (key : String) (v : Value) (entries : Entries) :
    toFields (Ordered.insert key v entries) = Ordered.insert key v.toDocument (toFields entries) := by
  induction entries with
  | nil => rfl
  | cons entry rest ih =>
    rw [Ordered.insert, toFields, Ordered.insert]
    split
    · rfl
    · rw [toFields, ih]

theorem toFields_insertAll (entries new : Entries) :
    toFields (Ordered.insertAll entries new) = Ordered.insertAll (toFields entries) (toFields new) := by
  induction new generalizing entries with
  | nil => rfl
  | cons entry rest ih => rw [Ordered.insertAll_cons, ih, toFields_insert, toFields, Ordered.insertAll_cons]

end Value

namespace Config

variable {c read : Config} {entries : Entries}

/-! ## Writing -/

/-- The globals as an entry, unless there are none. -/
def front (c : Config) : Entries := if c.globals = [] then [] else [(globalsKey, .mapping c.globals)]

/-- All entries that are written. -/
def joined (c : Config) : Entries := Ordered.insertAll c.front c.tree.entries

theorem toFields_joined (c : Config) : Value.toFields c.joined = withGlobals c.globalFields c.fields := by
  have hfront : Value.toFields c.front =
      if c.globalFields.isEmpty then [] else [(globalsKey, Document.mapping c.globalFields)] := by
    cases hglobals : c.globals with
    | nil => simp [front, hglobals, globalFields, Value.toFields]
    | cons entry rest => simp [front, hglobals, globalFields, Value.toFields, Value.mapping, Value.toDocument]
  rw [joined, Value.toFields_insertAll, hfront]
  rfl

theorem persisted_joined (c : Config) : c.persisted {} = .ok (.mapping (Value.toFields c.joined)) := by
  rw [toFields_joined]
  rfl

theorem mem_front {entry : String × Value} (h : entry ∈ c.front) :
    entry = (globalsKey, .mapping c.globals) := by
  unfold front at h
  split at h
  · contradiction
  · exact List.mem_singleton.mp h

theorem distinct_front (c : Config) : Ordered.Distinct c.front := by
  unfold front
  split
  · exact List.nodup_nil
  · exact List.nodup_singleton _

theorem finite_joined (h : c.Finite) : Value.FiniteEntries c.joined := by
  intro entry hentry
  rcases Ordered.mem_insertAll hentry with hentry | hentry
  · rw [mem_front hentry]
    exact Value.finite_node.mpr h.globals
  · exact h.entries entry hentry

/-- An entry under the reserved name takes the place of the globals. -/
theorem lookup_joined (hd : Ordered.Distinct c.tree.entries) (key : String) :
    c.joined.lookup key = (c.tree.entries.lookup key).or (c.front.lookup key) := Ordered.lookup_insertAll hd key

/-- Without an entry under the reserved name the globals stand in front. -/
theorem joined_of_free (hd : Ordered.Distinct c.tree.entries) (h : c.tree.entries.lookup globalsKey = none) :
    c.joined = c.front ++ c.tree.entries := by
  refine Ordered.insertAll_of_fresh ?_
  have hfresh := Ordered.lookup_eq_none_iff.mp h
  unfold front
  split
  · exact hd
  · exact Ordered.distinct_cons.mpr ⟨hfresh, hd⟩

theorem joined_of_globals_eq_nil (hd : Ordered.Distinct c.tree.entries) (h : c.globals = []) :
    c.joined = c.tree.entries := by
  rw [joined, front, if_pos h]
  exact Ordered.ofList_of_distinct hd

/-- An entry under the reserved name leaves no room for the globals. -/
theorem length_joined_le (h : globalsKey ∈ Ordered.keys c.tree.entries) :
    c.joined.length ≤ c.tree.entries.length := by
  refine Ordered.length_le_of_keys (Ordered.distinct_insertAll c.distinct_front _) fun key hkey => ?_
  obtain ⟨entry, hentry, rfl⟩ := List.mem_map.mp hkey
  rcases Ordered.mem_insertAll hentry with hentry | hentry
  · rw [mem_front hentry]
    exact h
  · exact Ordered.key_mem_of_mem hentry

/-! ## Reading -/

/-- Entries as a tree by itself. -/
def freshTree (entries : Entries) : Node := ⟨⟨.loose, {}⟩, {}, Value.rebindEntries ⟨.loose, {}⟩ entries⟩

/-- Without a mapping under the reserved name there are no globals. -/
theorem ofEntries_of_none (h : Path.children? [globalsKey] entries = none) :
    ofEntries {} entries = ⟨freshTree entries, []⟩ := by
  rw [Path.children?_singleton] at h
  unfold ofEntries
  split
  · next heq => rw [heq] at h; contradiction
  · rfl

/-- A mapping under the reserved name becomes the globals. -/
theorem ofEntries_of_some {globals : Entries} (h : Path.children? [globalsKey] entries = some globals) :
    ofEntries {} entries = ⟨freshTree (Ordered.erase globalsKey entries), globals⟩ := by
  rw [Path.children?_singleton] at h
  obtain ⟨v, hv, hglobals⟩ := Option.bind_eq_some_iff.mp h
  unfold ofEntries
  rw [hv]
  cases v with
  | node scope provenance children => cases hglobals; rfl
  | _ => contradiction

/-- What is written can be read, as entries of the same plain form. -/
theorem ofDocument_persisted (hfinite : c.Finite) :
    ∃ entries, ofDocument {} (.mapping (Value.toFields c.joined)) = .ok (ofEntries {} entries) ∧
      Value.toFields entries = Value.toFields c.joined ∧ Value.FiniteEntries entries := by
  obtain ⟨entries, hread, hsame, hall⟩ := Value.ofFields_toFields c.joined (finite_joined hfinite)
  refine ⟨entries, ?_, hsame, hall⟩
  unfold ofDocument
  simp only [hread]

/-- A configuration of an equal tree, and of equal globals in the same order. -/
structure Agrees (read c : Config) : Prop where
  tree : read.tree.same c.tree
  globals : List.Forall₂ (fun a b => a.1 = b.1 ∧ a.2.same b.2) read.globals c.globals

/-- What is written reads as a configuration that agrees with the one written, and is written the same. -/
def Reloads (c : Config) : Prop :=
  ∃ document read, c.persisted {} = .ok document ∧ ofDocument {} document = .ok read ∧ read.Agrees c ∧
    read.persisted {} = .ok document

/-- Entries and globals of the right plain form are the configuration that was written. -/
theorem agrees_freshTree {globals : Entries} (hproper : c.Proper) (hfinite : c.Finite)
    (hentries : Value.FiniteEntries entries) (hglobals : Value.FiniteEntries globals)
    (htree : Value.toFields entries = Value.toFields c.tree.entries)
    (htable : Value.toFields globals = Value.toFields c.globals) :
    Agrees ⟨freshTree entries, globals⟩ c ∧
      persisted ⟨freshTree entries, globals⟩ {} = .ok (.mapping (Value.toFields c.joined)) := by
  have hrebound : Value.toFields (freshTree entries).entries = Value.toFields c.tree.entries := by
    rw [← htree]
    exact Value.toFields_rebindEntries _ entries
  have hfresh : (freshTree entries).toValue.Finite :=
    Value.Everywhere.rebind _ (.mapping entries) (Value.finite_node.mpr hentries)
  refine ⟨⟨?_, Value.forall₂_same_of_toFields hglobals hfinite.globals hproper.globals.2 htable⟩, ?_⟩
  · refine Value.same_of_toDocument _ _ hfresh (Value.finite_node.mpr hfinite.entries)
      (Value.proper_node.mpr hproper.entries) ?_
    exact congrArg Document.mapping hrebound
  · rw [persisted_joined, toFields_joined, toFields_joined, globalFields, htable, fields, hrebound]
    rfl

/-! ## When the two cancel -/

theorem children?_globalsKey_eq_none_iff :
    Path.children? [globalsKey] entries = none ↔ ∀ v ∈ entries.lookup globalsKey, v.isNode = false := by
  rw [Path.children?_singleton, Option.bind_eq_none_iff]
  exact forall₂_congr fun v _ => Value.entries?_eq_none_iff

theorem reloads_without_globals (hproper : c.Proper) (hfinite : c.Finite) (hglobals : c.globals = [])
    (hnode : Path.children? [globalsKey] c.tree.entries = none) : c.Reloads := by
  obtain ⟨entries, hread, hsame, hall⟩ := ofDocument_persisted hfinite
  have hfields : Value.toFields entries = Value.toFields c.tree.entries := by
    rw [hsame, joined_of_globals_eq_nil hproper.entries.1 hglobals]
  have hnone : Path.children? [globalsKey] entries = none := by
    have hchildren := Path.children?_of_toFields [globalsKey] hfields
    rw [hnode] at hchildren
    exact Option.map_eq_none_iff.mp hchildren
  rw [ofEntries_of_none hnone] at hread
  exact ⟨_, _, c.persisted_joined, hread,
    agrees_freshTree hproper hfinite hall (by simp [Value.FiniteEntries]) hfields (by rw [hglobals])⟩

theorem reloads_with_globals (hproper : c.Proper) (hfinite : c.Finite) (hglobals : c.globals ≠ [])
    (hfree : c.tree.entries.lookup globalsKey = none) : c.Reloads := by
  obtain ⟨entries, hread, hsame, hall⟩ := ofDocument_persisted hfinite
  have hjoined : c.joined = (globalsKey, .mapping c.globals) :: c.tree.entries := by
    rw [joined_of_free hproper.entries.1 hfree, front, if_neg hglobals, List.singleton_append]
  rw [hjoined, Value.toFields] at hsame
  cases entries with
  | nil => contradiction
  | cons first rest =>
    obtain ⟨name, v⟩ := first
    rw [Value.toFields] at hsame
    obtain ⟨hfirst, hrest⟩ := List.cons.inj hsame
    obtain ⟨rfl, hv⟩ := Prod.mk.inj hfirst
    obtain ⟨globals, hchildren, htable⟩ := Value.toDocument_eq_mapping_iff.mp hv
    obtain ⟨hvfinite, hrestfinite⟩ := List.forall_mem_cons.mp hall
    have hsome : Path.children? [globalsKey] ((globalsKey, v) :: rest) = some globals := by
      rw [Path.children?_singleton, Ordered.lookup_cons_eq, if_pos rfl, Option.bind_some, hchildren]
    have herase : Ordered.erase globalsKey ((globalsKey, v) :: rest) = rest :=
      List.eraseP_cons_of_pos (beq_self_eq_true _)
    have hglobalsfinite : Value.FiniteEntries globals := by
      cases v with
      | node scope provenance children => cases hchildren; exact Value.finite_node.mp hvfinite
      | _ => contradiction
    rw [ofEntries_of_some hsome, herase] at hread
    exact ⟨_, _, c.persisted_joined, hread,
      agrees_freshTree hproper hfinite hrestfinite hglobalsfinite hrest htable⟩

/-- A mapping under the reserved name is missing from the tree that is read. -/
theorem not_agrees_of_children? {globals : Entries} (hmem : globalsKey ∈ Ordered.keys c.tree.entries)
    (hsame : Value.toFields entries = Value.toFields c.joined)
    (h : Path.children? [globalsKey] entries = some globals) : ¬(ofEntries {} entries).Agrees c := by
  intro hagrees
  rw [ofEntries_of_some h] at hagrees
  have hkept := (Value.same_node.mp hagrees.tree).1
  have hrebound : (freshTree (Ordered.erase globalsKey entries)).entries.length =
      (Ordered.erase globalsKey entries).length :=
    Value.length_of_toFields (Value.toFields_rebindEntries _ _)
  have hwritten := Value.length_of_toFields hsame
  have hbound := length_joined_le hmem
  rw [Path.children?_singleton] at h
  obtain ⟨v, hv, -⟩ := Option.bind_eq_some_iff.mp h
  have hentry := Ordered.mem_of_lookup hv
  have herased := List.length_eraseP_of_mem (p := fun entry => entry.1 == globalsKey) hentry (beq_self_eq_true _)
  have hpos := List.length_pos_of_mem hentry
  rw [hrebound, Ordered.erase, herased] at hkept
  omega

/-- **A configuration and what its plain form reads as have equal trees and globals, and one plain form, exactly
if no entry of the tree has the reserved name, or there are no globals and that entry is no mapping.** -/
theorem reloads_iff (hproper : c.Proper) (hfinite : c.Finite) :
    c.Reloads ↔ c.tree.entries.lookup globalsKey = none ∨
      c.globals = [] ∧ ∀ v ∈ c.tree.entries.lookup globalsKey, v.isNode = false := by
  rw [← children?_globalsKey_eq_none_iff]
  constructor
  · rintro ⟨document, read, hdocument, hread, hagrees, -⟩
    rw [persisted_joined] at hdocument
    cases hdocument
    obtain ⟨entries, hentries, hsame, -⟩ := ofDocument_persisted hfinite
    obtain rfl : ofEntries {} entries = read := Except.ok.inj (hentries.symm.trans hread)
    cases hlookup : c.tree.entries.lookup globalsKey with
    | none => exact Or.inl rfl
    | some v =>
      have hmem := Ordered.key_mem_of_mem (Ordered.mem_of_lookup hlookup)
      have hchildren := Path.children?_of_toFields [globalsKey] hsame
      rw [Path.children?_singleton globalsKey c.joined, lookup_joined hproper.entries.1, hlookup] at hchildren
      cases hreserved : Path.children? [globalsKey] entries with
      | none =>
        -- What was read has no globals, so there were none.
        rw [ofEntries_of_none hreserved] at hagrees
        refine Or.inr ⟨List.forall₂_nil_left_iff.mp hagrees.globals, ?_⟩
        rw [hreserved] at hchildren
        rw [Path.children?_singleton, hlookup]
        exact Option.map_eq_none_iff.mp hchildren.symm
      | some globals => exact absurd hagrees (not_agrees_of_children? hmem hsame hreserved)
  · rintro (hfree | ⟨hglobals, hnode⟩)
    · by_cases hglobals : c.globals = []
      · refine reloads_without_globals hproper hfinite hglobals ?_
        rw [Path.children?_singleton, hfree, Option.bind_none]
      · exact reloads_with_globals hproper hfinite hglobals hfree
    · exact reloads_without_globals hproper hfinite hglobals hnode

/-- A tree with a float in a list, and a global: nothing is lost. -/
theorem reloads_list_beside_global :
    let c : Config := ⟨⟨.loose, {}, [("shares", .list [.float (.ofInt 1), .mapping [("rest", .null)]])]⟩,
      [("root", .str "srv")]⟩
    c.Proper ∧ c.Finite ∧ c.Reloads := by
  intro c
  have hproper : c.Proper := by
    refine ⟨⟨by decide, ?_⟩, ⟨by decide, ?_⟩⟩
    · simp [c, Value.Proper, Value.Everywhere, Value.EverywhereItems, Value.EverywhereEntries, Value.mapping]
    · simp [c, Value.Proper, Value.Everywhere]
  have hfinite : c.Finite := by
    have hone : (Binary64.ofInt 1).isFinite := by decide
    refine ⟨?_, ?_⟩
    · simpa [c, Value.FiniteEntries, Value.Finite, Value.Everywhere, Value.EverywhereItems,
        Value.EverywhereEntries, Value.mapping] using hone
    · simp [c, Value.FiniteEntries, Value.Finite, Value.Everywhere]
  exact ⟨hproper, hfinite, (reloads_iff hproper hfinite).mpr (Or.inl rfl)⟩

end Config

end LayeredConfig
