import LayeredConfig.Proofs.Reachable

/-!
# Lenient options

Under lenient options a key that addresses nothing reads as absent. `Config.lenient` is a configuration whose nodes
all have such options, those in lists and mappings at any depth included, and that is the same otherwise. Every
operation commutes with it: what it writes, and the error it stops at, does not depend on how keys are refused
(`lenient_apply`). So a run of changes under lenient options goes through the same configurations as one under strict
options (`lenient_after`), and only what addresses nothing is reported differently. All nodes of a tree have the
options of its root, so it makes no difference which of them a lookup asks (`Node.lookupNested_eq`).
-/

namespace LayeredConfig

/-- The scope in which a key that addresses nothing reads as absent. -/
def Scope.lenient (scope : Scope) : Scope := { scope with options := { scope.options with noKeyError := true } }

/-! ## Values -/

namespace Value

mutual

/-- A value with every node in it under lenient options. -/
def lenient : Value → Value
  | .list items => .list (lenientItems items)
  | .node scope provenance entries => .node scope.lenient provenance (lenientEntries entries)
  | .null => .null
  | .bool b => .bool b
  | .int i => .int i
  | .float x => .float x
  | .str s => .str s

def lenientItems : List Value → List Value
  | [] => []
  | v :: rest => lenient v :: lenientItems rest

def lenientEntries : Entries → Entries
  | [] => []
  | (key, v) :: rest => (key, lenient v) :: lenientEntries rest

end

theorem kind_lenient (v : Value) : v.lenient.kind = v.kind := by cases v <;> rfl

theorem isNode_lenient (v : Value) : v.lenient.isNode = v.isNode := by rw [isNode, kind_lenient, isNode]

theorem elementKind_lenient (v : Value) : elementKind v.lenient = elementKind v := by
  cases v with
  | list items =>
    cases items with
    | nil => rfl
    | cons first rest => exact kind_lenient first
  | _ => rfl

theorem lenientEntries_eq_map (entries : Entries) :
    lenientEntries entries = entries.map fun entry => (entry.1, entry.2.lenient) := by
  induction entries with
  | nil => rfl
  | cons entry rest ih => rw [lenientEntries, ih, List.map_cons]

theorem entries?_lenient (v : Value) :
    v.lenient.entries? = v.entries?.map (List.map fun entry => (entry.1, entry.2.lenient)) := by
  cases v with
  | node scope provenance entries => exact congrArg some (lenientEntries_eq_map entries)
  | _ => rfl

theorem lookup_lenientEntries (key : String) (entries : Entries) :
    (lenientEntries entries).lookup key = (entries.lookup key).map lenient := by
  rw [lenientEntries_eq_map]
  exact Ordered.lookup_map (fun _ => lenient) key entries

theorem insert_lenientEntries (key : String) (v : Value) (entries : Entries) :
    Ordered.insert key v.lenient (lenientEntries entries) = lenientEntries (Ordered.insert key v entries) := by
  rw [lenientEntries_eq_map, lenientEntries_eq_map]
  exact (Ordered.map_insert Function.injective_id lenient key v entries).symm

theorem erase_lenientEntries (key : String) (entries : Entries) :
    Ordered.erase key (lenientEntries entries) = lenientEntries (Ordered.erase key entries) := by
  rw [lenientEntries_eq_map, lenientEntries_eq_map, Ordered.erase, Ordered.erase, List.eraseP_map]
  rfl

mutual

theorem lenient_rebind (scope : Scope) : (v : Value) → (v.rebind scope).lenient = v.rebind scope.lenient
  | .node _ _ entries => by rw [rebind, mapScope, lenient, lenientEntries_rebind scope entries, rebind, mapScope]
  | .list items => by rw [rebind, mapScope, lenient, lenientItems_rebind scope items, rebind, mapScope]
  | .null | .bool _ | .int _ | .float _ | .str _ => rfl

theorem lenientItems_rebind (scope : Scope) : (items : List Value) →
    lenientItems (rebindList scope items) = rebindList scope.lenient items
  | [] => rfl
  | v :: rest => by
    rw [rebindList, mapScopeList, lenientItems, lenient_rebind scope v, lenientItems_rebind scope rest]
    rfl

theorem lenientEntries_rebind (scope : Scope) : (entries : Entries) →
    lenientEntries (rebindEntries scope entries) = rebindEntries scope.lenient entries
  | [] => rfl
  | (key, v) :: rest => by
    rw [rebindEntries, mapScopeEntries, lenientEntries, lenient_rebind scope v, lenientEntries_rebind scope rest]
    rfl

end

mutual

theorem substitute_lenient (globals : Globals) : (v : Value) →
    globals.substitute v.lenient = (globals.substitute v).lenient
  | .node _ _ entries => by
    rw [lenient, Globals.substitute, substituteEntries_lenient globals entries, Globals.substitute, lenient]
  | .list items => by
    rw [lenient, Globals.substitute, substituteItems_lenient globals items, Globals.substitute, lenient]
  | .null | .bool _ | .int _ | .float _ | .str _ => rfl

theorem substituteItems_lenient (globals : Globals) : (items : List Value) →
    globals.substituteList (lenientItems items) = lenientItems (globals.substituteList items)
  | [] => rfl
  | v :: rest => by
    rw [lenientItems, Globals.substituteList, substitute_lenient globals v, substituteItems_lenient globals rest,
      Globals.substituteList, lenientItems]

theorem substituteEntries_lenient (globals : Globals) : (entries : Entries) →
    globals.substituteEntries (lenientEntries entries) = lenientEntries (globals.substituteEntries entries)
  | [] => rfl
  | (key, v) :: rest => by
    rw [lenientEntries, Globals.substituteEntries, substitute_lenient globals v,
      substituteEntries_lenient globals rest, Globals.substituteEntries, lenientEntries]

end

end Value

/-- A proposal does not look at options. -/
theorem coerce_lenient (proposal : Proposal) (existing : Option Value) :
    coerce proposal (existing.map Value.lenient) = coerce proposal existing := by
  cases existing with
  | none => rfl
  | some old => exact coerce_congr (Value.kind_lenient old) (Value.elementKind_lenient old) proposal

/-! ## Paths -/

mutual

theorem addPaths_lenient (table : List (String × List String)) : (entries : Entries) →
    addPaths table (Value.lenientEntries entries) = addPaths table entries
  | [] => rfl
  | (key, v) :: rest => by
    rw [Value.lenientEntries, addPaths, pathsBelow_lenient v, addPaths_lenient _ rest, addPaths]

theorem pathsBelow_lenient : (v : Value) → pathsBelow v.lenient = pathsBelow v
  | .node _ _ entries => by rw [Value.lenient, pathsBelow, addPaths_lenient [] entries, pathsBelow]
  | .null | .bool _ | .int _ | .float _ | .str _ | .list _ => rfl

end

namespace Path

theorem find_lenient (path : List String) (entries : Entries) :
    find path (Value.lenientEntries entries) = (find path entries).map Value.lenient := by
  rw [Value.lenientEntries_eq_map]
  exact find_map Value.entries?_lenient path entries

theorem find?_lenient (path : List String) (entries : Entries) :
    find? path (Value.lenientEntries entries) = (find? path entries).map Value.lenient := by
  rw [find?, find_lenient, find?]
  cases find path entries <;> rfl

theorem write_cons {scope : Scope} {v : Value} (segment : String) {rest : List String} (h : rest ≠ [])
    (entries : Entries) :
    write scope v (segment :: rest) entries =
      match entries.lookup segment with
      | some (.node inner provenance children) =>
        (write scope v rest children).map fun written =>
          Ordered.insert segment (.node inner provenance written) entries
      | some _ => .error segment
      | none =>
        (write scope v rest []).map fun written => Ordered.insert segment (.node scope {} written) entries := by
  cases rest with
  | nil => contradiction
  | cons next rest => rfl

theorem write_lenient (scope : Scope) (v : Value) (path : List String) (entries : Entries) :
    write scope.lenient v.lenient path (Value.lenientEntries entries) =
      (write scope v path entries).map Value.lenientEntries := by
  induction path generalizing entries with
  | nil => rfl
  | cons segment rest ih =>
    cases rest with
    | nil =>
      rw [write, write, Value.insert_lenientEntries]
      rfl
    | cons next rest =>
      rw [write_cons segment (List.cons_ne_nil next rest), write_cons segment (List.cons_ne_nil next rest),
        Value.lookup_lenientEntries]
      rcases entries.lookup segment with _ | old
      · have hnew := ih []
        rw [Value.lenientEntries] at hnew
        dsimp only [Option.map_none]
        rw [hnew]
        cases write scope v (next :: rest) [] with
        | error segment => rfl
        | ok written => exact congrArg Except.ok (Value.insert_lenientEntries segment (.node scope {} written) entries)
      · cases old with
        | node inner provenance children =>
          dsimp only [Option.map_some, Value.lenient]
          rw [ih children]
          cases write scope v (next :: rest) children with
          | error segment => rfl
          | ok written =>
            exact congrArg Except.ok (Value.insert_lenientEntries segment (.node inner provenance written) entries)
        | _ => rfl

theorem modify_lenient {f g : Entries → Entries}
    (h : ∀ children, f (Value.lenientEntries children) = Value.lenientEntries (g children)) (path : List String)
    (entries : Entries) :
    modify f path (Value.lenientEntries entries) = Value.lenientEntries (modify g path entries) := by
  induction path generalizing entries with
  | nil => exact h entries
  | cons segment rest ih =>
    rw [modify, modify, Value.lookup_lenientEntries]
    rcases entries.lookup segment with _ | v
    · rfl
    · cases v with
      | node scope provenance children =>
        dsimp only [Option.map_some, Value.lenient]
        rw [ih children]
        exact Value.insert_lenientEntries segment (.node scope provenance (modify g rest children)) entries
      | _ => rfl

end Path

/-! ## Accesses -/

/-- Whether an error says that a key addresses nothing. -/
def Error.isAddressing (error : Error) : Bool := error.code = .keyNotFound || error.code = .keyMismatch

/-- The outcome of an access with what addresses nothing read as absent. -/
def forgiven {α : Type} : Except Error (Option α) → Except Error (Option α)
  | .ok found => .ok found
  | .error error => if error.isAddressing then .ok none else .error error

theorem isAddressing_toError (miss : Miss) : miss.toError.isAddressing = true := by cases miss <;> rfl

theorem forgiven_error {α : Type} {error : Error} (h : error.isAddressing = true) :
    forgiven (.error error : Except Error (Option α)) = .ok none := if_pos h

namespace Node

variable {n m : Node} {key : Key} {path : List String} {error : Error} {removed : Option Value}

/-- A tree with every node in it under lenient options. -/
def lenient (n : Node) : Node := ⟨n.scope.lenient, n.provenance, Value.lenientEntries n.entries⟩

theorem asNode?_lenient (v : Value) : v.lenient.asNode? = v.asNode?.map lenient := by cases v <;> rfl

theorem resolve_lenient (n : Node) (key : Key) : n.lenient.resolve key = n.resolve key := rfl

theorem refuse_cases {α : Type} (n : Node) (error : Error) :
    n.refuse error = (.ok none : Except Error (Option α)) ∨
      n.refuse error = (.error error : Except Error (Option α)) := by
  unfold refuse
  split
  · exact Or.inl rfl
  · exact Or.inr rfl

theorem forgiven_refuse {α : Type} (n : Node) (h : error.isAddressing = true) :
    forgiven (n.refuse error : Except Error (Option α)) = .ok none := by
  rcases n.refuse_cases (α := α) error with hn | hn
  · rw [hn]
    rfl
  · rw [hn]
    exact forgiven_error h

theorem lookup_lenient (n : Node) (path : List String) :
    n.lenient.lookup path = (forgiven (n.lookup path)).map (Option.map Value.lenient) := by
  rw [lookup, lookup, lenient, Path.find_lenient]
  cases Path.find path n.entries with
  | ok v => rfl
  | error miss =>
    dsimp only [Except.map]
    rw [forgiven_refuse n (isAddressing_toError miss)]
    rfl

theorem eq_of_refuse {α : Type} {other : Error} (h : n.refuse error = (.error other : Except Error (Option α))) :
    other = error := by
  rcases n.refuse_cases (α := α) error with hn | hn
  · cases hn.symm.trans h
  · exact (Except.error.inj (hn.symm.trans h)).symm

theorem isAddressing_of_lookup (h : n.lookup path = .error error) : error.isAddressing = true := by
  unfold lookup at h
  split at h
  · cases h
  · next miss _ => exact eq_of_refuse h ▸ isAddressing_toError miss

theorem contains_lenient (n : Node) (key : Key) : n.lenient.contains key = n.contains key := by
  unfold contains Path.contains
  rw [resolve_lenient, lenient, Path.find?_lenient, Option.isSome_map]

theorem getRaw_lenient (n : Node) (key : Key) :
    n.lenient.getRaw key = (forgiven (n.getRaw key)).map (Option.map Value.lenient) :=
  n.lookup_lenient (n.resolve key).segments

theorem node?_lenient (n : Node) (key : Key) :
    n.lenient.node? key = (forgiven (n.node? key)).map (Option.map lenient) := by
  unfold node?
  dsimp only
  rw [resolve_lenient, lookup_lenient]
  cases hlookup : n.lookup (n.resolve key).segments with
  | error error =>
    rw [forgiven_error (isAddressing_of_lookup hlookup)]
    exact congrArg (Except.map (Option.map lenient)) (forgiven_error (isAddressing_of_lookup hlookup)).symm
  | ok found =>
    cases found with
    | none => rfl
    | some v =>
      simp only [forgiven, Except.map, Option.map_some, Bind.bind, Except.bind, asNode?_lenient]
      cases v.asNode? with
      | some child => rfl
      | none =>
        have hmismatch : (Error.keyMismatch (n.resolve key).text).isAddressing = true := rfl
        exact congrArg (Except.map (Option.map lenient)) (n.forgiven_refuse hmismatch).symm

theorem isAddressing_of_node? (h : n.node? key = .error error) : error.isAddressing = true := by
  unfold node? at h
  dsimp only at h
  cases hlookup : n.lookup (n.resolve key).segments with
  | error other =>
    rw [hlookup] at h
    exact Except.error.inj h ▸ isAddressing_of_lookup hlookup
  | ok found =>
    rw [hlookup] at h
    cases found with
    | none => cases h
    | some v =>
      simp only [Bind.bind, Except.bind] at h
      split at h
      · cases h
      · exact eq_of_refuse h ▸ rfl

/-- Reads as `lookup` does, except that each mapping on the way refuses what it does not have by its own options. -/
def lookupNested : List String → Node → Except Error (Option Value)
  | [], n => n.refuse (.keyNotFound "")
  | [segment], n =>
    match n.entries.lookup segment with
    | some v => .ok (some v)
    | none => n.refuse (.keyNotFound segment)
  | segment :: rest, n =>
    match n.entries.lookup segment with
    | some (.node scope provenance children) => lookupNested rest ⟨scope, provenance, children⟩
    | some _ => n.refuse (.keyMismatch segment)
    | none => n.refuse (.keyNotFound segment)

/-- In one scope it makes no difference whose options are asked. -/
theorem lookupNested_eq (h : n.Uniform) (path : List String) : n.lookupNested path = n.lookup path := by
  induction path generalizing n with
  | nil => rfl
  | cons segment rest ih =>
    cases rest with
    | nil =>
      rw [lookupNested, lookup, Path.find]
      cases n.entries.lookup segment <;> rfl
    | cons next rest =>
      rw [lookupNested, lookup, Path.find]
      · cases hlookup : n.entries.lookup segment with
        | none => rfl
        | some v =>
          cases v with
          | node scope provenance children =>
            obtain ⟨rfl, hchildren⟩ := Value.within_node.mp ((uniform_iff.mp h).of_lookup hlookup)
            exact ih (uniform_iff.mpr hchildren)
          | _ => rfl
      · simp
      · simp

/-! ## Writes -/

theorem setAt_lenient (n : Node) (path : List String) (v : Value) :
    n.lenient.setAt path v = (n.setAt path v).map lenient := by
  unfold setAt
  dsimp only [lenient]
  rw [← Value.lenient_rebind, Path.write_lenient]
  cases Path.write n.scope (v.rebind n.scope) path n.entries <;> rfl

theorem set_lenient (n : Node) (key : Key) (v : Value) : n.lenient.set key v = (n.set key v).map lenient :=
  n.setAt_lenient (n.resolve key).segments v

theorem remove_lenient_of_ok (h : n.remove key = .ok (removed, m)) :
    n.lenient.remove key = .ok (removed.map Value.lenient, m.lenient) := by
  unfold remove at h ⊢
  dsimp only at h ⊢
  rw [resolve_lenient]
  split at h
  · next hparents =>
    obtain ⟨rfl, rfl⟩ := Prod.mk.inj (Except.ok.inj h)
    rw [if_pos hparents, lenient, Value.lookup_lenientEntries, Value.erase_lenientEntries]
    rfl
  · next hparents =>
    obtain ⟨found, hfound, h⟩ := bind_eq_ok_iff.mp h
    rw [if_neg hparents, lookup_lenient, hfound]
    cases found with
    | none =>
      obtain ⟨rfl, rfl⟩ := Prod.mk.inj (Except.ok.inj h)
      rfl
    | some v =>
      cases v with
      | node scope provenance children =>
        obtain ⟨rfl, rfl⟩ := Prod.mk.inj (Except.ok.inj h)
        have hlookup := Value.lookup_lenientEntries (n.resolve key).last children
        have hmodify := Path.modify_lenient (Value.erase_lenientEntries (n.resolve key).last) (n.resolve key).parents
          n.entries
        exact congrArg Except.ok (Prod.ext hlookup (congrArg (Node.mk _ _) hmodify))
      | _ =>
        obtain ⟨refused, hrefused, h⟩ := bind_eq_ok_iff.mp h
        obtain ⟨rfl, rfl⟩ := Prod.mk.inj (Except.ok.inj h)
        rcases n.refuse_cases (α := Value) (.keyMismatch (dotted (n.resolve key).parents)) with hn | hn
        · obtain rfl := Except.ok.inj (hn.symm.trans hrefused)
          rfl
        · cases hn.symm.trans hrefused

theorem remove_lenient_of_error (h : n.remove key = .error error) :
    error.isAddressing = true ∧ n.lenient.remove key = .ok (none, n.lenient) := by
  unfold remove at h ⊢
  dsimp only at h ⊢
  rw [resolve_lenient]
  split at h
  · cases h
  · next hparents =>
    rw [if_neg hparents, lookup_lenient]
    cases hlookup : n.lookup (n.resolve key).parents with
    | error other =>
      rw [hlookup] at h
      rw [forgiven_error (isAddressing_of_lookup hlookup)]
      exact ⟨Except.error.inj h ▸ isAddressing_of_lookup hlookup, rfl⟩
    | ok found =>
      rw [hlookup] at h
      cases found with
      | none => cases h
      | some v =>
        cases v with
        | node => cases h
        | _ =>
          refine ⟨?_, rfl⟩
          rcases n.refuse_cases (α := Value) (.keyMismatch (dotted (n.resolve key).parents)) with hn | hn
          · simp [Bind.bind, Except.bind, hn, pure, Except.pure] at h
          · simp only [Bind.bind, Except.bind, hn] at h
            exact Except.error.inj h ▸ rfl

theorem setWithin_lenient_of_ok {found : Option Node} (h : n.node? key = .ok found) (inner : Key) (v : Value) :
    n.lenient.setWithin key inner v = (n.setWithin key inner v).map (Option.map lenient) := by
  unfold setWithin
  rw [node?_lenient, h]
  cases found with
  | none => rfl
  | some child =>
    simp only [forgiven, Except.map, Option.map_some, Bind.bind, Except.bind, set_lenient]
    cases child.set inner v with
    | error error => rfl
    | ok written =>
      have hmodify := Path.modify_lenient (f := fun _ => Value.lenientEntries written.entries)
        (g := fun _ => written.entries) (fun _ => rfl) (n.resolve key).segments n.entries
      exact congrArg (fun entries => Except.ok (some (Node.mk _ _ entries))) hmodify

theorem setWithin_of_error (h : n.node? key = .error error) (inner : Key) (v : Value) :
    n.setWithin key inner v = .error error := by
  rw [setWithin, h]
  rfl

theorem setWithin_lenient_of_error (h : n.node? key = .error error) (inner : Key) (v : Value) :
    n.lenient.setWithin key inner v = .ok none := by
  rw [setWithin, node?_lenient, h, forgiven_error (isAddressing_of_node? h)]
  rfl

end Node

/-! ## Runs -/

namespace Attempt

variable {ι : Type} {step : Config → ι → Except Error Config} {φ : Config → Config}

/-- The run that ended in the image of a configuration. -/
def map (φ : Config → Config) (a : Attempt) : Attempt := ⟨φ a.config, a.error⟩

theorem ofResult_map (φ : Config → Config) (c : Config) (result : Except Error Config) :
    ofResult (φ c) (result.map φ) = (ofResult c result).map φ := by cases result <;> rfl

theorem andThen_map {next : Config → Attempt} (h : ∀ c, next (φ c) = (next c).map φ) (a : Attempt) :
    (a.map φ).andThen next = (a.andThen next).map φ := by
  obtain ⟨c, error⟩ := a
  cases error with
  | none => exact h c
  | some error => rfl

/-- **A run whose steps commute with a map of configurations commutes with it, and stops at the same step.** -/
theorem each_map (h : ∀ c item, step (φ c) item = (step c item).map φ) (c : Config) (items : List ι) :
    each step (φ c) items = (each step c items).map φ := by
  induction items generalizing c with
  | nil => rfl
  | cons item rest ih =>
    rw [each, each, h]
    cases step c item with
    | error error => rfl
    | ok changed => exact ih changed

end Attempt

namespace Config

/-- A configuration with every node in it under lenient options. The globals are not part of the tree. -/
def lenient (c : Config) : Config := { c with tree := c.tree.lenient }

theorem setAt_lenient (c : Config) (path : List String) (v : Value) :
    c.lenient.setAt path v = (c.setAt path v).map lenient := by
  rw [setAt, lenient, Node.setAt_lenient, setAt]
  cases c.tree.setAt path v <;> rfl

theorem get_lenient (c : Config) (key : Key) :
    c.lenient.get key = (forgiven (c.get key)).map (Option.map Value.lenient) := by
  unfold get
  dsimp only [lenient]
  rw [Node.getRaw_lenient]
  cases hraw : c.tree.getRaw key with
  | error error =>
    have haddressing := Node.isAddressing_of_lookup hraw
    rw [forgiven_error haddressing]
    exact congrArg (Except.map (Option.map Value.lenient)) (forgiven_error haddressing).symm
  | ok found =>
    cases found with
    | none => rfl
    | some v =>
      refine congrArg (fun w => Except.ok (some w)) ?_
      dsimp only
      rw [Value.isNode_lenient, Value.substitute_lenient]
      split <;> rfl

/-! ## Overlays -/

theorem parseArguments_lenient (c : Config) (aliases : Aliases) (tokens : List String) :
    c.lenient.parseArguments aliases tokens = (c.parseArguments aliases tokens).map lenient := by
  unfold parseArguments
  cases Arguments.parse (Arguments.withDefaults aliases) tokens <;> rfl

theorem overlayKeySwitch_lenient (c : Config) (switch : String) (proposal : Proposal) :
    c.lenient.overlayKeySwitch switch proposal = (c.overlayKeySwitch switch proposal).map lenient := by
  have hpath : c.lenient.switchPath switch = c.switchPath switch := rfl
  have hfind := Path.find?_lenient (c.switchPath switch) c.tree.entries
  have hentries : c.lenient.tree.entries = Value.lenientEntries c.tree.entries := rfl
  simp only [overlayKeySwitch, hpath, hentries, hfind, coerce_lenient, Option.isSome_map, setAt_lenient]
  cases coerce proposal (Path.find? (c.switchPath switch) c.tree.entries) with
  | error error => rfl
  | ok v =>
    simp only [Bind.bind, Except.bind]
    cases c.setAt (c.switchPath switch) v with
    | error error => rfl
    | ok changed =>
      simp only [Except.map]
      split <;> rfl

theorem overlayGlobalSwitch_lenient (c : Config) (switch name : String) (proposal : Proposal) :
    c.lenient.overlayGlobalSwitch switch name proposal = (c.overlayGlobalSwitch switch name proposal).map lenient := by
  have hglobals : c.lenient.globals = c.globals := rfl
  simp only [overlayGlobalSwitch, hglobals]
  cases coerce proposal (c.globals.lookup name) with
  | error error => rfl
  | ok v =>
    simp only [Bind.bind, Except.bind]
    split <;> rfl

theorem overlaySwitch_lenient (c : Config) (switch : String × List String) :
    c.lenient.overlaySwitch switch = (c.overlaySwitch switch).map lenient := by
  unfold overlaySwitch
  dsimp only
  split_ifs
  · rfl
  · rfl
  · split
    · exact c.overlayGlobalSwitch_lenient _ _ _
    · exact c.overlayKeySwitch_lenient _ _

theorem overlayParsed_lenient (c : Config) : c.lenient.overlayParsed = c.overlayParsed.map lenient :=
  Attempt.each_map overlaySwitch_lenient c _

theorem updateFromArguments_lenient (processArguments : List String) (c : Config) :
    c.lenient.updateFromArguments processArguments = (c.updateFromArguments processArguments).map lenient := by
  unfold updateFromArguments
  have hprovenance : c.lenient.provenance = c.provenance := rfl
  rw [hprovenance]
  split
  · exact c.overlayParsed_lenient
  · rw [parseArguments_lenient, Attempt.ofResult_map]
    exact Attempt.andThen_map overlayParsed_lenient _

theorem overlays_lenient (c : Config) (env : Environment) (options : EnvOptions) :
    c.lenient.overlays env options = c.overlays env options := by
  have hkeys : c.lenient.tree.recursiveKeys = c.tree.recursiveKeys := addPaths_lenient [] c.tree.entries
  have hnamed : c.lenient.namedTarget = c.namedTarget := by
    funext name
    unfold namedTarget
    rw [hkeys]
    rfl
  have hknown : c.lenient.knownTargets = c.knownTargets := by
    have hentries : c.lenient.tree.entries = Value.lenientEntries c.tree.entries := rfl
    have hleaf (path : List String) : ((Path.find? path c.tree.entries).map Value.lenient).any Value.isNode =
        (Path.find? path c.tree.entries).any Value.isNode := by
      cases Path.find? path c.tree.entries with
      | none => rfl
      | some v => exact Value.isNode_lenient v
    unfold knownTargets
    simp only [hkeys, hentries, Path.find?_lenient, hleaf]
    rfl
  have hprefixed : c.lenient.prefixedTarget env = c.prefixedTarget env := by
    funext rest
    unfold prefixedTarget
    rw [hkeys]
  unfold overlays plainOverlays prefixedOverlays
  rw [hnamed, hknown, hprefixed]
  rfl

theorem applyOverlay_lenient (c : Config) (o : Overlay) :
    c.lenient.applyOverlay o = (c.applyOverlay o).map lenient := by
  unfold applyOverlay
  cases o.target with
  | key path =>
    have hfind : Path.find? path c.lenient.tree.entries = (Path.find? path c.tree.entries).map Value.lenient :=
      Path.find?_lenient path c.tree.entries
    dsimp only
    rw [hfind, coerce_lenient]
    cases coerce (.text o.text) (Path.find? path c.tree.entries) with
    | error error => rfl
    | ok v => exact c.setAt_lenient path v
  | global name create =>
    have hglobals : c.lenient.globals = c.globals := rfl
    dsimp only
    rw [hglobals]
    split
    · rfl
    · cases coerce (.text o.text) (c.globals.lookup name) <;> rfl

theorem updateFromEnvironment_lenient (env : Environment) (options : EnvOptions) (c : Config) :
    c.lenient.updateFromEnvironment env options = (c.updateFromEnvironment env options).map lenient := by
  unfold updateFromEnvironment
  dsimp only
  rw [overlays_lenient, Attempt.each_map applyOverlay_lenient]
  exact Attempt.andThen_map (fun _ => rfl) _

theorem fullUpdate_lenient (processArguments : List String) (env : Environment) (options : UpdateOptions) (c : Config) :
    c.lenient.fullUpdate processArguments env options = (c.fullUpdate processArguments env options).map lenient := by
  unfold fullUpdate
  dsimp only
  rw [parseArguments_lenient, Attempt.ofResult_map, Attempt.andThen_map (updateFromEnvironment_lenient env options.env),
    Attempt.andThen_map (updateFromArguments_lenient processArguments)]

end Config

/-! ## Changes -/

/-- What a change of `c` reports under lenient options, from what it reports otherwise. A key that addresses nothing
has nothing to remove and no node to write into; every other report, error or not, stays as it is. -/
def Change.tolerated (c : Config) (report : Except Error Report) : Change → Except Error Report
  | .remove _ =>
    match report with
    | .ok (.removed v) => .ok (.removed (v.map Value.lenient))
    | .ok other => .ok other
    | .error error => if error.isAddressing then .ok (.removed none) else .error error
  | .setWithin key _ _ =>
    match c.tree.node? key with
    | .ok _ => report
    | .error error => if error.isAddressing then .ok .noNode else report
  | _ => report

namespace Config

theorem changed_map (a : Attempt) : (a.map lenient).changed = (a.changed.1.lenient, a.changed.2) := rfl

/-- **A change does the same under lenient options.** -/
theorem lenient_apply (processArguments : List String) (c : Config) (change : Change) :
    change.apply processArguments c.lenient =
      ((change.apply processArguments c).1.lenient, change.tolerated c (change.apply processArguments c).2) := by
  cases change with
  | set key v =>
    have hset : c.lenient.tree.set key v = (c.tree.set key v).map Node.lenient := c.tree.set_lenient key v
    dsimp only [Change.apply, Change.tolerated]
    rw [hset]
    cases c.tree.set key v <;> rfl
  | remove key =>
    have htree : c.lenient.tree = c.tree.lenient := rfl
    dsimp only [Change.apply]
    rw [htree]
    cases hremove : c.tree.remove key with
    | ok changed =>
      rw [Node.remove_lenient_of_ok hremove]
      rfl
    | error error =>
      obtain ⟨haddressing, hlenient⟩ := Node.remove_lenient_of_error hremove
      rw [hlenient]
      exact Prod.ext rfl (if_pos haddressing).symm
  | setWithin key inner v =>
    have htree : c.lenient.tree = c.tree.lenient := rfl
    dsimp only [Change.apply, Change.tolerated]
    rw [htree]
    cases hnode : c.tree.node? key with
    | ok found =>
      rw [Node.setWithin_lenient_of_ok hnode]
      rcases c.tree.setWithin key inner v with error | written
      · rfl
      · cases written <;> rfl
    | error error =>
      rw [Node.setWithin_lenient_of_error hnode, Node.setWithin_of_error hnode]
      exact Prod.ext rfl (if_pos (Node.isAddressing_of_node? hnode)).symm
  | setGlobal name v => rfl
  | removeGlobal name => rfl
  | setFilename path => rfl
  | parseArguments tokens aliases =>
    dsimp only [Change.apply, Change.tolerated]
    rw [parseArguments_lenient, Attempt.ofResult_map, changed_map]
  | clearArguments => rfl
  | updateFromArguments =>
    dsimp only [Change.apply, Change.tolerated]
    rw [updateFromArguments_lenient, changed_map]
  | updateFromEnvironment env options =>
    dsimp only [Change.apply, Change.tolerated]
    rw [updateFromEnvironment_lenient, changed_map]
  | fullUpdate env options =>
    dsimp only [Change.apply, Change.tolerated]
    rw [fullUpdate_lenient, changed_map]

/-- A configuration after changes, whether each of them succeeds or not. -/
def after (processArguments : List String) (c : Config) (changes : List Change) : Config :=
  changes.foldl (fun c change => (change.apply processArguments c).1) c

theorem lenient_after (processArguments : List String) (c : Config) (changes : List Change) :
    c.lenient.after processArguments changes = (c.after processArguments changes).lenient := by
  induction changes generalizing c with
  | nil => rfl
  | cons change rest ih =>
    have hhere : (change.apply processArguments c.lenient).1 = (change.apply processArguments c).1.lenient := by
      rw [lenient_apply]
    rw [after, List.foldl_cons, hhere]
    exact ih (change.apply processArguments c).1

theorem keeps_after (processArguments : List String) (c : Config) (changes : List Change) :
    c.tree.Keeps (c.after processArguments changes).tree := by
  induction changes generalizing c with
  | nil => exact Node.Keeps.refl c.tree
  | cons change rest ih =>
    exact (keeps_apply processArguments c change).trans (ih (change.apply processArguments c).1)

theorem ofEntries_lenient (options : Options) (entries : Entries) :
    (ofEntries options entries).lenient = ofEntries { options with noKeyError := true } entries := by
  have hbound (entries : Entries) := Value.lenientEntries_rebind ⟨.loose, options⟩ entries
  unfold ofEntries
  dsimp only
  split
  · split
    · exact congrArg (fun bound => Config.mk (Node.mk _ _ bound) []) (hbound entries)
    · exact congrArg (fun bound => Config.mk (Node.mk _ _ bound) _) (hbound (Ordered.erase globalsKey entries))
  · exact congrArg (fun bound => Config.mk (Node.mk _ _ bound) []) (hbound entries)

theorem scope_ofEntries (options : Options) (entries : Entries) :
    (ofEntries options entries).tree.scope = ⟨.loose, options⟩ := by
  unfold ofEntries
  dsimp only
  split
  · split <;> rfl
  · rfl

/-- **Lenient options only turn what addresses nothing into absence.** Changes lead to the same configuration under
lenient and under strict options, which every node of the tree has; each further change has the same effect, and
reports the same unless it removes or enters what is not there; and every reading finds the same. -/
theorem after_lenient (options : Options) (entries : Entries) (processArguments : List String)
    (changes : List Change) :
    let strictly : Options := { options with noKeyError := false }
    let leniently : Options := { options with noKeyError := true }
    let strict := (ofEntries strictly entries).after processArguments changes
    let tolerant := (ofEntries leniently entries).after processArguments changes
    (∀ n ∈ strict.tree.nodes, n.scope.options = strictly) ∧ (∀ n ∈ tolerant.tree.nodes, n.scope.options = leniently) ∧
      tolerant = strict.lenient ∧
      (∀ change : Change, change.apply processArguments tolerant =
        ((change.apply processArguments strict).1.lenient,
          change.tolerated strict (change.apply processArguments strict).2)) ∧
      ∀ key : Key, tolerant.tree.contains key = strict.tree.contains key ∧
        tolerant.get key = (forgiven (strict.get key)).map (Option.map Value.lenient) ∧
        tolerant.tree.getRaw key = (forgiven (strict.tree.getRaw key)).map (Option.map Value.lenient) ∧
        tolerant.tree.node? key = (forgiven (strict.tree.node? key)).map (Option.map Node.lenient) := by
  intro strictly leniently strict tolerant
  have hnodes (o : Options) : ∀ n ∈ ((ofEntries o entries).after processArguments changes).tree.nodes,
      n.scope.options = o := by
    have hkeeps := keeps_after processArguments (ofEntries o entries) changes
    intro n hn
    rw [hkeeps.uniform (uniform_ofEntries o entries) n hn, hkeeps.scope, scope_ofEntries]
  have htolerant : tolerant = strict.lenient := by
    rw [← lenient_after, ofEntries_lenient]
  refine ⟨hnodes strictly, hnodes leniently, htolerant, fun change => ?_, fun key => ?_⟩
  · rw [htolerant, lenient_apply]
  · rw [htolerant]
    exact ⟨strict.tree.contains_lenient key, strict.get_lenient key, strict.tree.getRaw_lenient key,
      strict.tree.node?_lenient key⟩

end Config

end LayeredConfig
