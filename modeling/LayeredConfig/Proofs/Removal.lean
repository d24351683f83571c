import LayeredConfig.Proofs.Setting

/-!
# Removing the value at a key

A value is taken out of the level it stands in, and nothing else changes: the levels above keep their names in order,
the mappings above stay even if nothing is left in them, and every path that lies apart reads as before, errors
included. Where nothing stands nothing changes, and it is an error only if the level itself is missing. What is set
where nothing stood and removed again leaves no trace (`remove_undoes_set`). A path above the key does read another
value than before, the mapping without what was removed (`remove_shows_above`).
-/

namespace LayeredConfig

namespace Path

variable {parents above other rest : List String} {last segment : String} {entries level : Entries}

/-- Two ways to part a path: at its last segment, or above it. -/
theorem ends_or_goes_on (h : parents ++ [last] = above ++ segment :: rest) :
    (above = parents ∧ segment = last) ∨ ∃ init, parents = above ++ segment :: init := by
  rcases List.eq_nil_or_concat' rest with rfl | ⟨init, _, rfl⟩
  · obtain ⟨hparents, hlast⟩ := List.append_inj' h rfl
    exact .inl ⟨hparents.symm, (List.cons.inj hlast).1.symm⟩
  · rw [← List.cons_append, ← List.append_assoc] at h
    exact .inr ⟨init, (List.append_inj' h rfl).1⟩

/-- Beside what is taken out of a level, a path leads where it led before. -/
theorem find_modify_erase (hproper : ProperEntries entries) (hlevel : level? parents entries = some level)
    (hpart : PartAt (parents ++ [last]) other above segment) :
    find other (modify (Ordered.erase last) parents entries) = find other entries := by
  obtain ⟨⟨next, rest, hpath, hne⟩, below, rfl⟩ := hpart
  rcases ends_or_goes_on hpath with ⟨rfl, rfl⟩ | ⟨init, rfl⟩
  · have hkept := level?_modify_self (Ordered.erase next) hlevel
    exact find_append_congr hlevel hkept (Ordered.lookup_erase_of_ne (hproper.of_level? hlevel).1 hne) below
  · obtain ⟨found, hfound⟩ := Option.isSome_iff_exists.mp (isSome_level?_of_append (Option.isSome_of_mem hlevel))
    have hkept := level?_modify (Ordered.erase last) above (next :: init) entries
    rw [hfound] at hkept
    exact find_append_congr hfound hkept (lookup_modify_of_ne _ hne init found) below

/-- The level that a value is taken out of is missing its last segment. -/
theorem find_modify_erase_self (hproper : ProperEntries entries) (hlevel : level? parents entries = some level)
    (below : List String) :
    find (parents ++ last :: below) (modify (Ordered.erase last) parents entries) = .error (.absent last) := by
  rw [find_append (level?_modify_self (Ordered.erase last) hlevel) (List.cons_ne_nil _ _)]
  exact find_of_fresh (Ordered.lookup_erase_self (hproper.of_level? hlevel).1) below

/-- The names of each level on the way stay as they are, and those of the last one without the last segment. -/
theorem keys_modify_erase (hlevel : (level? parents entries).isSome)
    (hpath : above ++ [segment] <+: parents ++ [last]) :
    ∃ old kept, level? above entries = some old ∧
      level? above (modify (Ordered.erase last) parents entries) = some kept ∧
      Ordered.keys kept =
        if above ++ [segment] = parents ++ [last] then (Ordered.keys old).erase segment else Ordered.keys old := by
  obtain ⟨rest, hrest⟩ := hpath
  rw [List.append_assoc, List.singleton_append] at hrest
  rcases ends_or_goes_on hrest.symm with ⟨rfl, rfl⟩ | ⟨init, rfl⟩
  · obtain ⟨old, hold⟩ := Option.isSome_iff_exists.mp hlevel
    exact ⟨old, _, hold, level?_modify_self _ hold, by rw [if_pos rfl]; exact Ordered.keys_erase segment old⟩
  · obtain ⟨old, hold⟩ := Option.isSome_iff_exists.mp (isSome_level?_of_append hlevel)
    have hkept := level?_modify (Ordered.erase last) above (segment :: init) entries
    rw [hold] at hkept
    have hshort : above ++ [segment] ≠ above ++ segment :: init ++ [last] := by
      intro he
      simpa using congrArg List.length he
    exact ⟨old, _, hold, hkept, by rw [if_neg hshort]; exact keys_modify_cons _ segment init old⟩

end Path

namespace Node

open LayeredConfig.Path

variable {n : Node} {key : Key} {v : Value} {level : Entries}

theorem segments_resolve (n : Node) (key : Key) :
    (n.resolve key).segments = (n.resolve key).parents ++ [(n.resolve key).last] :=
  (List.dropLast_append_getLast (n.resolve key).ne_nil).symm

theorem getRaw_eq_some_iff : n.getRaw key = .ok (some v) ↔
    (level? (n.resolve key).parents n.entries).bind (·.lookup (n.resolve key).last) = some v := by
  rw [getRaw, lookup_eq_some_iff, segments_resolve, find?_append_singleton]

/-- The level of the entries themselves is there in every tree. -/
theorem parents_ne_nil (h : level? (n.resolve key).parents n.entries = none) : (n.resolve key).parents ≠ [] := by
  intro he
  rw [he] at h
  contradiction

theorem two_le_length_of_level?_eq_none (h : level? (n.resolve key).parents n.entries = none) :
    2 ≤ (n.resolve key).length := by
  have hparents := List.length_pos_of_ne_nil (parents_ne_nil h)
  rw [Key.parents, List.length_dropLast] at hparents
  rw [Key.length]
  omega

/-- What is removed stood in the last level on the way, and only that level changes. -/
theorem remove_of_level? (h : level? (n.resolve key).parents n.entries = some level) :
    n.remove key = .ok (level.lookup (n.resolve key).last,
      { n with entries := modify (Ordered.erase (n.resolve key).last) (n.resolve key).parents n.entries }) := by
  unfold remove
  dsimp only
  by_cases hparents : (n.resolve key).parents = []
  · rw [hparents] at h ⊢
    rw [Option.some.inj h]
    rfl
  · obtain ⟨m, hfind, rfl⟩ := exists_node_of_level? hparents h
    rw [if_neg (by simpa using hparents), lookup_of_find? hfind]
    rfl

/-- Where the last level is missing, there is nothing to remove, for the reason that there is no node to enter. -/
theorem remove_of_level?_eq_none (h : level? (n.resolve key).parents n.entries = none) :
    ∃ error, n.remove key = (n.refuse error).map (·, n) ∧
      n.node? (.ofSegments (n.resolve key).parents) = n.refuse error := by
  have hparents := parents_ne_nil h
  -- Without compound keys each key ends in the level of the entries themselves.
  have hcompound : n.scope.options.noCompoundKeys = false := by
    by_contra hflat
    rw [resolve, if_pos (by simpa using hflat)] at hparents
    exact hparents rfl
  have hsegments := resolve_ofSegments hcompound hparents
  have htext : (n.resolve (.ofSegments (n.resolve key).parents)).text = dotted (n.resolve key).parents :=
    congrArg dotted hsegments
  unfold remove node?
  dsimp only
  rw [if_neg (by simpa using hparents), hsegments, htext, lookup]
  cases hfind : find (n.resolve key).parents n.entries with
  | error miss =>
    refine ⟨miss.toError, ?_⟩
    cases hlenient : n.scope.options.noKeyError <;> simp only [refuse, hlenient] <;> exact ⟨rfl, rfl⟩
  | ok v =>
    have hleaf : v.entries? = none := by
      rw [level?_eq_children? hparents, children?, find?, hfind] at h
      exact h
    refine ⟨.keyMismatch (dotted (n.resolve key).parents), ?_⟩
    cases v with
    | node => contradiction
    | _ => cases hlenient : n.scope.options.noKeyError <;> simp only [refuse, hlenient] <;> exact ⟨rfl, rfl⟩

end Node

namespace Config

open LayeredConfig.Path

/-- What taking out the value at a key leaves of a configuration. -/
structure Removes (c : Config) (key : Key) (d : Config) : Prop where
  /-- Nothing but the entries of the tree is changed. -/
  rest : d = { c with tree := { c.tree with entries := d.tree.entries } }
  /-- There is nothing at the key any more. -/
  gone : d.tree.contains key = false
  /-- What is read at the key or below it is missing its last segment. -/
  below : ∀ other, (c.tree.resolve key).segments <+: other →
    d.tree.lookup other = d.tree.refuse (.keyNotFound (c.tree.resolve key).last)
  /-- A path that lies apart reads as before. -/
  beside : ∀ other, Apart (c.tree.resolve key).segments other → d.tree.lookup other = c.tree.lookup other
  /-- A mapping above it stays. -/
  above : ∀ above ≠ [], above <+: (c.tree.resolve key).segments → above ≠ (c.tree.resolve key).segments →
    ∃ (n : Node) (kept : Entries), c.tree.lookup above = .ok (some n.toValue) ∧
      d.tree.lookup above = .ok (some { n with entries := kept }.toValue)
  /-- The names of each level above it stay in order; those of its own level do so without its last segment. -/
  order : ∀ above segment, above ++ [segment] <+: (c.tree.resolve key).segments →
    ∃ old kept, level? above c.tree.entries = some old ∧ level? above d.tree.entries = some kept ∧
      Ordered.keys kept =
        if above ++ [segment] = (c.tree.resolve key).segments then (Ordered.keys old).erase segment
        else Ordered.keys old

/-- The configuration without the entry that a key ends in. -/
def withoutEntry (c : Config) (key : Key) : Config :=
  let key := c.tree.resolve key
  { c with tree := { c.tree with entries := modify (Ordered.erase key.last) key.parents c.tree.entries } }

/-- The configuration with a value inserted where a key ends. -/
def withEntry (c : Config) (key : Key) (v : Value) : Config :=
  let key := c.tree.resolve key
  { c with tree := { c.tree with entries := modify (Ordered.insert key.last v) key.parents c.tree.entries } }

variable {c d : Config} {key : Key} {level : Entries} {report : Except Error Report}

theorem removes_withoutEntry (hproper : ProperEntries c.tree.entries)
    (hlevel : level? (c.tree.resolve key).parents c.tree.entries = some level) :
    c.Removes key (c.withoutEntry key) := by
  have hpath := c.tree.segments_resolve key
  have hbelow : ∀ other, (c.tree.resolve key).segments <+: other →
      find other (c.withoutEntry key).tree.entries = .error (.absent (c.tree.resolve key).last) := by
    rintro other ⟨below, rfl⟩
    rw [hpath, List.append_assoc, List.singleton_append]
    exact find_modify_erase_self hproper hlevel below
  refine ⟨rfl, ?gone, ?below, ?beside, ?above, ?order⟩
  case gone =>
    rw [Node.contains, Path.contains, Path.find?]
    have hkey : (c.withoutEntry key).tree.resolve key = c.tree.resolve key := rfl
    rw [hkey, hbelow _ (List.prefix_refl _)]
    rfl
  case below =>
    intro other hother
    exact Node.lookup_of_find_eq_absent (hbelow other hother)
  case beside =>
    intro other hother
    obtain ⟨above, segment, hpart⟩ := exists_partAt hother
    rw [hpath] at hpart
    exact Node.lookup_congr rfl (find_modify_erase hproper hlevel hpart)
  case above =>
    intro above habove hstarts hshort
    rw [hpath] at hstarts hshort
    obtain ⟨rest, hrest⟩ := (List.prefix_concat_iff.mp hstarts).resolve_left hshort
    rw [← hrest] at hlevel
    obtain ⟨old, hold⟩ := Option.isSome_iff_exists.mp (isSome_level?_of_append (Option.isSome_of_mem hlevel))
    obtain ⟨n, hfind, -⟩ := exists_node_of_level? habove hold
    have hkept := find?_modify_above (Ordered.erase (c.tree.resolve key).last) hfind rest
    rw [hrest] at hkept
    exact ⟨n, _, Node.lookup_of_find? hfind, Node.lookup_of_find? hkept⟩
  case order =>
    intro above segment hstarts
    rw [hpath] at hstarts ⊢
    exact keys_modify_erase (Option.isSome_of_mem hlevel) hstarts

theorem apply_remove_of_level? (processArguments : List String)
    (hlevel : level? (c.tree.resolve key).parents c.tree.entries = some level) :
    Change.apply processArguments c (.remove key) =
      (c.withoutEntry key, .ok (.removed (level.lookup (c.tree.resolve key).last))) := by
  show c.changeTree ((c.tree.remove key).map _) = _
  rw [Node.remove_of_level? hlevel]
  rfl

theorem apply_remove_of_level?_eq_none (processArguments : List String)
    (hlevel : level? (c.tree.resolve key).parents c.tree.entries = none) :
    ∃ error, c.tree.node? (.ofSegments (c.tree.resolve key).parents) = c.tree.refuse error ∧
      Change.apply processArguments c (.remove key) =
        (c, if c.tree.scope.options.noKeyError then .ok (.removed none) else .error error) := by
  obtain ⟨error, hremove, hnode⟩ := Node.remove_of_level?_eq_none hlevel
  refine ⟨error, hnode, ?_⟩
  show c.changeTree ((c.tree.remove key).map _) = _
  rw [hremove, Node.refuse]
  split <;> rfl

/-- A value that is set where its level is there is inserted into it. -/
theorem apply_set_of_level? (processArguments : List String) (v : Value)
    (hlevel : level? (c.tree.resolve key).parents c.tree.entries = some level) :
    Change.apply processArguments c (.set key v) = (c.withEntry key (v.rebind c.tree.scope), .ok .done) := by
  have hwrite := write_eq_modify (Option.isSome_of_mem hlevel) c.tree.scope (v.rebind c.tree.scope)
    (c.tree.resolve key).last
  rw [← c.tree.segments_resolve key] at hwrite
  show c.changeTree ((c.tree.setAt (c.tree.resolve key).segments v).map (·, .done)) = _
  rw [Node.setAt, hwrite]
  rfl

/-- What is not there is not missed. -/
theorem withoutEntry_eq_self (hlevel : level? (c.tree.resolve key).parents c.tree.entries = some level)
    (hnone : level.lookup (c.tree.resolve key).last = none) : c.withoutEntry key = c := by
  have hentries := modify_eq_self hlevel (Ordered.erase_of_fresh hnone)
  rw [withoutEntry]
  dsimp only
  rw [hentries]

/-- What was not there leaves no trace. -/
theorem withoutEntry_withEntry (hproper : ProperEntries c.tree.entries)
    (hlevel : level? (c.tree.resolve key).parents c.tree.entries = some level)
    (hnone : level.lookup (c.tree.resolve key).last = none) (v : Value) : (c.withEntry key v).withoutEntry key = c := by
  have hkept : Ordered.erase (c.tree.resolve key).last (Ordered.insert (c.tree.resolve key).last v level) = level :=
    Ordered.erase_insert_of_fresh (hproper.of_level? hlevel).1 (Ordered.lookup_eq_none_iff.mp hnone)
  have hentries := modify_eq_self hlevel (f := Ordered.erase _ ∘ Ordered.insert _ v) hkept
  have hkey : (c.withEntry key v).tree.resolve key = c.tree.resolve key := rfl
  rw [withoutEntry, hkey, withEntry]
  dsimp only
  rw [modify_modify, hentries]

/-- **Removing takes out what setting puts in, and nothing else.** What is reported as removed is what the key read.
Otherwise nothing is changed; it is an error only under strict options, if the mapping that the key ends in is missing,
and then it is the error of entering that mapping. Where the mapping is there and the key is not, setting the key and
removing it again gives back the same configuration. -/
theorem remove_undoes_set (processArguments : List String) (hproper : ProperEntries c.tree.entries)
    (h : Change.apply processArguments c (.remove key) = (d, report)) :
    (∀ v, report = .ok (.removed (some v)) ↔ c.tree.getRaw key = .ok (some v)) ∧
    (∀ v, report = .ok (.removed (some v)) → c.Removes key d) ∧
    ((∃ v, report = .ok (.removed (some v))) ∨ d = c ∧ (report = .ok (.removed none) ∨
      ∃ error, report = .error error ∧
        c.tree.node? (.ofSegments (c.tree.resolve key).parents) = .error error)) ∧
    ((∃ error, report = .error error) ↔ 2 ≤ (c.tree.resolve key).length ∧ c.tree.scope.options.noKeyError = false ∧
      level? (c.tree.resolve key).parents c.tree.entries = none) ∧
    (c.tree.contains key = false → (level? (c.tree.resolve key).parents c.tree.entries).isSome → ∀ v, ∃ e,
      Change.apply processArguments c (.set key v) = (e, .ok .done) ∧
        Change.apply processArguments e (.remove key) = (c, .ok (.removed (some (v.rebind c.tree.scope))))) := by
  simp only [Node.getRaw_eq_some_iff]
  cases hlevel : level? (c.tree.resolve key).parents c.tree.entries with
  | some level =>
    rw [apply_remove_of_level? processArguments hlevel] at h
    obtain ⟨rfl, rfl⟩ := Prod.mk.inj h
    refine ⟨fun v => by simp, fun v _ => removes_withoutEntry hproper hlevel, ?_, by simp, ?_⟩
    · cases hlookup : level.lookup (c.tree.resolve key).last with
      | some v => exact .inl ⟨v, rfl⟩
      | none => exact .inr ⟨withoutEntry_eq_self hlevel hlookup, .inl rfl⟩
    · intro hmissing _ v
      have hnone : level.lookup (c.tree.resolve key).last = none := by
        rw [Node.contains, Path.contains, c.tree.segments_resolve key, find?_append_singleton, hlevel] at hmissing
        simpa using hmissing
      refine ⟨_, apply_set_of_level? processArguments v hlevel, ?_⟩
      have hset := level?_modify_self (Ordered.insert (c.tree.resolve key).last (v.rebind c.tree.scope)) hlevel
      -- The level that the value is removed from again is the one that it was inserted into.
      rw [apply_remove_of_level? processArguments hset, withoutEntry_withEntry hproper hlevel hnone]
      exact congrArg (fun found => (c, Except.ok (Report.removed found))) (Ordered.lookup_insert_self _ _ level)
  | none =>
    obtain ⟨error, hnode, happly⟩ := apply_remove_of_level?_eq_none processArguments hlevel
    rw [happly] at h
    obtain ⟨rfl, rfl⟩ := Prod.mk.inj h
    have hlength := Node.two_le_length_of_level?_eq_none hlevel
    rw [Node.refuse] at hnode
    cases hlenient : c.tree.scope.options.noKeyError with
    | true => exact ⟨by simp, by simp, .inr ⟨rfl, .inl rfl⟩, by simp, by simp⟩
    | false =>
      rw [hlenient] at hnode
      exact ⟨by simp, by simp, .inr ⟨rfl, .inr ⟨error, rfl, hnode⟩⟩, by simp [hlength], by simp⟩

/-- One of three names below a mapping, then a fourth one; and a path that a leaf ends early. -/
theorem remove_undoes_set_between_siblings :
    ∃ c d : Config, c.tree.entries = [("a", .mapping [("x", .int 0), ("b", .int 1), ("y", .int 2)]), ("z", .int 3)] ∧
      Change.apply [] c (.remove (.parse "a.b")) = (d, .ok (.removed (some (.int 1)))) ∧
      d.tree.entries = [("a", .mapping [("x", .int 0), ("y", .int 2)]), ("z", .int 3)] ∧
      d.tree.contains (.parse "a.b") = false ∧
      (∃ e, Change.apply [] c (.set (.parse "a.c") (.int 4)) = (e, .ok .done) ∧
        Change.apply [] e (.remove (.parse "a.c")) = (c, .ok (.removed (some (.int 4))))) ∧
      Change.apply [] c (.remove (.parse "z.b")) = (c, .error (.keyMismatch "z")) := by
  let tree (below : Entries) : Node := ⟨⟨.loose, {}⟩, {}, [("a", .mapping below), ("z", .int 3)]⟩
  let c : Config := ⟨tree [("x", .int 0), ("b", .int 1), ("y", .int 2)], []⟩
  let d : Config := ⟨tree [("x", .int 0), ("y", .int 2)], []⟩
  have hproper : ProperEntries c.tree.entries := by
    simp [c, tree, Value.mapping, ProperEntries, Value.Proper, Value.Everywhere, Value.EverywhereEntries, Ordered.keys,
      Ordered.Distinct]
  have hremove : Change.apply [] c (.remove (.parse "a.b")) = (d, .ok (.removed (some (.int 1)))) := rfl
  have hnothing : Change.apply [] c (.remove (.parse "a.c")) = (c, .ok (.removed none)) := rfl
  have hblocked : Change.apply [] c (.remove (.parse "z.b")) = (c, .error (.keyMismatch "z")) := rfl
  obtain ⟨-, hremoves, -⟩ := remove_undoes_set [] hproper hremove
  obtain ⟨-, -, -, -, hundone⟩ := remove_undoes_set [] hproper hnothing
  exact ⟨c, d, rfl, hremove, rfl, (hremoves _ rfl).gone, hundone rfl rfl (.int 4), hblocked⟩

/-- The mapping above the key reads without what was removed. -/
theorem remove_shows_above :
    let before := Config.ofEntries {} [("a", .mapping [("b", .int 1)])]
    let after := Change.apply [] before (.remove (.parse "a.b"))
    after.2 = .ok (.removed (some (.int 1))) ∧
    ¬ (before.tree.resolve (.parse "a.b")).segments <+: (before.tree.resolve (.parse "a")).segments ∧
    before.tree.getRaw (.parse "a") = .ok (some (.mapping [("b", .int 1)])) ∧
    after.1.tree.getRaw (.parse "a") = .ok (some (.mapping [])) ∧
    after.1.tree.getRaw (.parse "a") ≠ before.tree.getRaw (.parse "a") := by
  refine ⟨rfl, by decide, rfl, rfl, fun h => ?_⟩
  have hentries : ([] : Entries) = [("b", .int 1)] := (Value.node.inj (Option.some.inj (Except.ok.inj h))).2.2
  contradiction

end Config

end LayeredConfig
