import LayeredConfig.Proofs.Reachable
import LayeredConfig.Proofs.Resolved

/-!
# Resolved copies

A copy with all placeholders resolved reads at each key as what the source has there, resolved with the globals that it
had at the time, and differs from it in texts only (`Session.Snapshot`). It has a globals table of its own, and so has
every node in it. Sessions are followed from there by all further steps (`Session.Later`): a change goes to one table,
so whatever was changed before, a change through the one tree leaves all that is read through the other as it was
(`Session.Reachable.snapshot_apart`).
-/

namespace LayeredConfig

/-! ## What resolving and binding leave -/

namespace Value

variable {scope : Scope} {globals : Globals}

mutual

/-- A value without its texts and the scopes of its nodes: what kind of value is where, and under which names. -/
def shape : Value → Value
  | .str _ => .str ""
  | .list items => .list (shapeItems items)
  | .node _ provenance entries => .node .loose provenance (shapeEntries entries)
  | .null => .null
  | .bool b => .bool b
  | .int i => .int i
  | .float x => .float x

def shapeItems : List Value → List Value
  | [] => []
  | v :: rest => shape v :: shapeItems rest

def shapeEntries : Entries → Entries
  | [] => []
  | (key, v) :: rest => (key, shape v) :: shapeEntries rest

end

mutual

theorem shape_rebind (scope : Scope) : (v : Value) → (v.rebind scope).shape = v.shape
  | .node _ _ entries => by rw [rebind, mapScope, shape, shapeEntries_rebind scope entries, shape]
  | .list items => by rw [rebind, mapScope, shape, shapeItems_rebind scope items, shape]
  | .null | .bool _ | .int _ | .float _ | .str _ => rfl

theorem shapeItems_rebind (scope : Scope) : (items : List Value) →
    shapeItems (rebindList scope items) = shapeItems items
  | [] => rfl
  | v :: rest => by
    rw [rebindList, mapScopeList, shapeItems, shape_rebind scope v, shapeItems_rebind scope rest, shapeItems]

theorem shapeEntries_rebind (scope : Scope) : (entries : Entries) →
    shapeEntries (rebindEntries scope entries) = shapeEntries entries
  | [] => rfl
  | (key, v) :: rest => by
    rw [rebindEntries, mapScopeEntries, shapeEntries, shape_rebind scope v, shapeEntries_rebind scope rest,
      shapeEntries]

end

mutual

theorem shape_substitute (globals : Globals) : (v : Value) → (globals.substitute v).shape = v.shape
  | .node _ _ entries => by rw [Globals.substitute, shape, shapeEntries_substitute globals entries, shape]
  | .list items => by rw [Globals.substitute, shape, shapeItems_substitute globals items, shape]
  | .null | .bool _ | .int _ | .float _ | .str _ => rfl

theorem shapeItems_substitute (globals : Globals) : (items : List Value) →
    shapeItems (globals.substituteList items) = shapeItems items
  | [] => rfl
  | v :: rest => by
    rw [Globals.substituteList, shapeItems, shape_substitute globals v, shapeItems_substitute globals rest, shapeItems]

theorem shapeEntries_substitute (globals : Globals) : (entries : Entries) →
    shapeEntries (globals.substituteEntries entries) = shapeEntries entries
  | [] => rfl
  | (key, v) :: rest => by
    rw [Globals.substituteEntries, shapeEntries, shape_substitute globals v, shapeEntries_substitute globals rest,
      shapeEntries]

end

theorem rebindEntries_eq_map (scope : Scope) (entries : Entries) :
    rebindEntries scope entries = entries.map fun entry => (entry.1, entry.2.rebind scope) := by
  induction entries with
  | nil => rfl
  | cons entry rest ih => exact congrArg (List.cons _) ih

theorem entries?_rebind (scope : Scope) (v : Value) :
    (v.rebind scope).entries? = v.entries?.map (List.map fun entry => (entry.1, entry.2.rebind scope)) := by
  cases v with
  | node inner provenance entries => exact congrArg some (rebindEntries_eq_map scope entries)
  | _ => rfl

end Value

/-- Under the same options, a node that is bound to another scope reads as before, with what is read bound to it. -/
theorem Node.getRaw_rebind {n : Node} {scope : Scope} (h : scope.options = n.scope.options) (key : Key) :
    (n.rebind scope).getRaw key = (n.getRaw key).map (Option.map (Value.rebind scope)) := by
  have hresolve : (n.rebind scope).resolve key = n.resolve key := by
    unfold resolve
    rw [← h]
    rfl
  have hfind := Path.find_map (Value.entries?_rebind scope) (n.resolve key).segments n.entries
  rw [← Value.rebindEntries_eq_map] at hfind
  have hentries : (n.rebind scope).entries = Value.rebindEntries scope n.entries := rfl
  rw [getRaw, getRaw, hresolve, lookup, lookup, hentries, hfind]
  cases Path.find (n.resolve key).segments n.entries with
  | ok v => rfl
  | error miss =>
    show (n.rebind scope).refuse miss.toError = (n.refuse miss.toError).map _
    have hscope : (n.rebind scope).scope = scope := rfl
    rw [refuse, refuse, hscope, h]
    split <;> rfl

namespace Session

variable {s t u : Session} {slot named via : String} {held : List String} {c d : Config} {n m : Node}

/-! ## One step -/

/-- Everything that is read through a name, on its tree or on any node in it, is as it was. -/
structure Undisturbed (s t : Session) (slot : String) : Prop where
  config : t.config? slot = s.config? slot
  nodes : ∀ n, s.slots.lookup slot = some n → ∀ m ∈ n.nodes, t.configOf m = s.configOf m

/-- A session whose table of a tree is the same, and that has the tree under the same name. -/
theorem undisturbed_of_globals (h : s.Sound) (hn : s.slots.lookup slot = some n)
    (hkept : t.slots.lookup slot = some n) (hglobals : t.globals n.scope.table = s.globals n.scope.table) :
    s.Undisturbed t slot where
  config := by
    rw [config?, config?, hkept, hn, Option.map_some, Option.map_some, configOf, configOf, hglobals]
  nodes := by
    intro root hroot m hm
    obtain rfl := Option.some.inj (hn.symm.trans hroot)
    rw [configOf, configOf, (h slot n hn).1 m hm, hglobals]

theorem change_eq_store (s : Session) (via : String) (d : Config) (change : Change) :
    (s.change via d change).2 = s.store via (change.apply s.processArguments d).1 := rfl

/-- **A change goes to the table of its tree.** What is read through another is as it was. -/
theorem undisturbed_change (h : s.Sound) (hn : s.slots.lookup slot = some n) (hvia : s.config? via = some d)
    (htable : d.tree.scope.table ≠ n.scope.table) (change : Change) :
    s.Undisturbed (s.change via d change).2 slot := by
  -- One name has one tree, and so one table.
  have hne : slot ≠ via := by
    rintro rfl
    obtain ⟨root, hroot, rfl⟩ := Option.map_eq_some_iff.mp hvia
    obtain rfl := Option.some.inj (hn.symm.trans hroot)
    exact htable rfl
  have hscope := (Config.keeps_apply s.processArguments d change).scope
  rw [change_eq_store]
  generalize (change.apply s.processArguments d).1 = changed at hscope
  refine undisturbed_of_globals h hn ?_ ?_
  · show (Ordered.insert via changed.tree s.slots).lookup slot = some n
    rw [Ordered.lookup_insert_of_ne hne, hn]
  · have hindex : changed.tree.scope.table.index ≠ n.scope.table.index :=
      fun he => htable (hscope ▸ congrArg TableId.mk he)
    show ((s.tables.set changed.tree.scope.table.index changed.globals)[n.scope.table.index]?).getD [] = _
    rw [List.getElem?_set_ne hindex]
    rfl

/-- What is placed under another name comes with a table of its own. -/
theorem undisturbed_place (h : s.Sound) (hn : s.slots.lookup slot = some n) (hne : slot ≠ named) (m : Node)
    (globals : Globals) : s.Undisturbed (s.place named m globals) slot := by
  refine undisturbed_of_globals h hn ?_ ?_
  · show (Ordered.insert named _ s.slots).lookup slot = some n
    rw [Ordered.lookup_insert_of_ne hne, hn]
  · show ((s.tables ++ [globals])[n.scope.table.index]?).getD [] = _
    rw [List.getElem?_append_left (h slot n hn).2]
    rfl

theorem lookup_make_of_ne (hne : slot ≠ named) (c : Config) (maker : Maker) :
    (s.make c named maker).2.slots.lookup slot = s.slots.lookup slot := by
  cases maker with
  | take key =>
    unfold Session.make
    dsimp only
    split
    · exact Ordered.lookup_insert_of_ne hne _ _
    · rfl
    · rfl
  | _ => exact Ordered.lookup_insert_of_ne hne _ _

/-! ## All further steps -/

/-- The sessions that a session leads to by any steps that do not give one of the held names to another node. -/
inductive Later (held : List String) (s : Session) : Session → Prop
  | refl : Later held s s
  | construct {t : Session} {c : Config} (slot : String) :
      Later held s t → Constructed t.files t.processArguments c → slot ∉ held → Later held s (t.enter slot c)
  | make {t : Session} {c : Config} {slot : String} (named : String) (maker : Maker) :
      Later held s t → t.config? slot = some c → named ∉ held → Later held s (t.make c named maker).2
  | change {t : Session} {c : Config} {slot : String} (change : Change) :
      Later held s t → t.config? slot = some c → Later held s (t.change slot c change).2
  | save {t : Session} {c : Config} {slot : String} (path : Option String) (options : SaveOptions) (disk : Disk) :
      Later held s t → t.config? slot = some c → Later held s (t.save c path options disk).2

theorem Later.reachable (h : Later held s t) (hs : s.Reachable) : t.Reachable := by
  induction h with
  | refl => exact hs
  | construct slot _ hc _ ih => exact ih.construct slot hc
  | make named maker _ hc _ ih => exact ih.make named maker hc
  | change change _ hc ih => exact ih.change change hc
  | save path options disk _ hc ih => exact ih.save path options disk hc

/-- **What a held name stands for stays in its scope.** -/
theorem Later.lookup (h : Later held s t) (hheld : slot ∈ held) (hn : s.slots.lookup slot = some n) :
    ∃ m, t.slots.lookup slot = some m ∧ m.scope = n.scope := by
  induction h with
  | refl => exact ⟨n, hn, rfl⟩
  | construct other _ _ hother ih =>
    obtain ⟨m, hm, hscope⟩ := ih
    have hne : slot ≠ other := fun he => hother (he ▸ hheld)
    exact ⟨m, (Ordered.lookup_insert_of_ne hne _ _).trans hm, hscope⟩
  | make other maker _ _ hother ih =>
    obtain ⟨m, hm, hscope⟩ := ih
    have hne : slot ≠ other := fun he => hother (he ▸ hheld)
    exact ⟨m, (lookup_make_of_ne hne _ maker).trans hm, hscope⟩
  | @change t c via change _ hvia ih =>
    obtain ⟨m, hm, hscope⟩ := ih
    by_cases hne : slot = via
    · subst hne
      obtain ⟨root, hroot, rfl⟩ := Option.map_eq_some_iff.mp hvia
      obtain rfl := Option.some.inj (hm.symm.trans hroot)
      have hkept := (Config.keeps_apply t.processArguments (t.configOf m) change).scope
      exact ⟨_, Ordered.lookup_insert_self _ _ _, hkept.trans hscope⟩
    · exact ⟨m, (Ordered.lookup_insert_of_ne hne _ _).trans hm, hscope⟩
  | save path options disk _ _ ih => exact ih

/-! ## The copy -/

/-- What a resolved copy has of its source, in the session where it is made. -/
structure Snapshot (c : Config) (after : Session) (copy : Node) : Prop where
  /-- At each key it has what the source has there, with the placeholders resolved, and fails where the source does. -/
  reads : ∀ key, copy.getRaw key =
    (c.tree.getRaw key).map (Option.map fun v => (c.globals.substitute v).rebind copy.scope)
  /-- Unless there is a mapping, this is what the source is read as. -/
  leaves : ∀ key, (∀ v, c.tree.getRaw key = .ok (some v) → v.isNode = false) →
    copy.getRaw key = (c.get key).map (Option.map (Value.rebind copy.scope))
  /-- Texts apart, the same values are under the same names in the same order, in lists and mappings at any depth. -/
  shape : Value.shapeEntries copy.entries = Value.shapeEntries c.tree.entries
  options : copy.scope.options = c.tree.scope.options
  /-- All nodes of the copy have its table, which has the same contents as that of the source and is another one. -/
  uniform : copy.Uniform
  globals : after.globals copy.scope.table = c.globals
  table : copy.scope.table ≠ c.tree.scope.table

/-- The node that a resolved copy is, with the next table. -/
def resolvedCopy (s : Session) (c : Config) : Node :=
  c.resolved.tree.rebind ⟨s.fresh, c.tree.scope.options⟩

theorem snapshot_resolvedCopy (h : s.Sound) (hslot : s.config? slot = some c) (named : String) :
    Snapshot c (s.detach named c.resolved) (s.resolvedCopy c) := by
  have hreads : ∀ key, (s.resolvedCopy c).getRaw key =
      (c.tree.getRaw key).map (Option.map fun v => (c.globals.substitute v).rebind (s.resolvedCopy c).scope) := by
    intro key
    have hoptions : (s.resolvedCopy c).scope.options = c.resolved.tree.scope.options := rfl
    have hcopy : (s.resolvedCopy c).getRaw key = _ := Node.getRaw_rebind hoptions key
    rw [hcopy, c.getRaw_resolved]
    rcases c.tree.getRaw key with error | _ | v <;> rfl
  refine ⟨hreads, ?leaves, ?shape, rfl, Node.uniform_rebind _ _, ?globals, ?table⟩
  case leaves =>
    intro key hleaf
    rw [hreads, Config.get]
    rcases hraw : c.tree.getRaw key with error | _ | v
    · rfl
    · rfl
    · simp [Except.map, hleaf v hraw]
  case shape =>
    show Value.shapeEntries (Value.rebindEntries _ (c.globals.substituteEntries c.tree.entries)) = _
    rw [Value.shapeEntries_rebind, Value.shapeEntries_substitute]
  case globals =>
    show ((s.tables ++ [c.globals])[s.tables.length]?).getD [] = c.globals
    simp
  case table =>
    intro he
    have hindex : s.tables.length = c.tree.scope.table.index := congrArg TableId.index he
    exact absurd (h.of_config? hslot).2 (by omega)

/-- **A resolved copy is a snapshot.** It is made under its name and leaves every other name as it was, the source's
included. And then, after any further steps, whatever is changed through a tree that does not have the table of the copy
leaves the copy and every node in it as it was, and whatever is changed through one that does not have the table of the
source leaves the source so; they never have the same table. -/
theorem Reachable.snapshot_apart (h : s.Reachable) (hslot : s.config? slot = some c) (hne : slot ≠ named) :
    ∃ after copy, s.make c named .resolve = (.ok true, after) ∧ after.slots.lookup named = some copy ∧
      Snapshot c after copy ∧
      (∀ other n, s.slots.lookup other = some n → other ≠ named → s.Undisturbed after other) ∧
      ∀ later, Later [slot, named] after later → ∃ d e : Config,
        later.config? slot = some d ∧ later.config? named = some e ∧
        d.tree.scope = c.tree.scope ∧ e.tree.scope = copy.scope ∧
        ∀ via f change, later.config? via = some f →
          (f.tree.scope.table ≠ e.tree.scope.table → later.Undisturbed (later.change via f change).2 named) ∧
          (f.tree.scope.table ≠ d.tree.scope.table → later.Undisturbed (later.change via f change).2 slot) := by
  have hsound := h.sound
  obtain ⟨source, hsource, rfl⟩ := Option.map_eq_some_iff.mp hslot
  refine ⟨_, s.resolvedCopy (s.configOf source), rfl, Ordered.lookup_insert_self _ _ _,
    snapshot_resolvedCopy hsound hslot named, ?_, ?_⟩
  · intro other n hn hother
    exact undisturbed_place hsound hn hother _ _
  · intro later hlater
    have hafter := h.make named .resolve hslot
    have hlatersound := (hlater.reachable hafter).sound
    have hkept : (s.detach named (s.configOf source).resolved).slots.lookup slot = some source :=
      (Ordered.lookup_insert_of_ne hne _ _).trans hsource
    have hmade : (s.detach named (s.configOf source).resolved).slots.lookup named =
        some (s.resolvedCopy (s.configOf source)) := Ordered.lookup_insert_self _ _ _
    obtain ⟨n, hn, hscope⟩ := hlater.lookup (by simp) hkept
    obtain ⟨m, hm, hscope'⟩ := hlater.lookup (by simp) hmade
    refine ⟨later.configOf n, later.configOf m, by rw [config?, hn]; rfl, by rw [config?, hm]; rfl, hscope, hscope',
      fun via f change hvia => ⟨fun htable => ?_, fun htable => ?_⟩⟩
    · exact undisturbed_change hlatersound hm hvia htable change
    · exact undisturbed_change hlatersound hn hvia htable change

/-- A placeholder in a mapping in a list: the copy has its text, and keeps it whatever the global is set to. -/
theorem snapshot_apart_mapping_in_list :
    ∃ (s after : Session) (root copy : Node), s.Reachable ∧ s.slots.lookup "root" = some root ∧
      root.entries = [("a", .list [.node root.scope {} [("b", .str "{g}")]])] ∧
      s.make (s.configOf root) "copy" .resolve = (.ok true, after) ∧ after.slots.lookup "copy" = some copy ∧
      copy.getRaw (.literal "a") = .ok (some (.list [.node copy.scope {} [("b", .str "x")]])) ∧
      after.Undisturbed (after.change "root" (s.configOf root) (.setGlobal "g" (.str "y"))).2 "copy" ∧
      after.Undisturbed (after.change "copy" (after.configOf copy) (.setGlobal "g" (.str "y"))).2 "root" := by
  let entries : Entries := [("a", .list [.mapping [("b", .str "{g}")]]), (globalsKey, .mapping [("g", .str "x")])]
  have hentered := Reachable.construct "root" (.empty [] []) (.ofEntries {} entries)
  let root : Node := ⟨⟨⟨1⟩, {}⟩, {}, [("a", .list [.node ⟨⟨1⟩, {}⟩ {} [("b", .str "{g}")]])]⟩
  let copy : Node := ⟨⟨⟨2⟩, {}⟩, {}, [("a", .list [.node ⟨⟨2⟩, {}⟩ {} [("b", .str "x")]])]⟩
  have hroot : ((empty [] []).enter "root" (.ofEntries {} entries)).config? "root" =
      some ⟨root, [("g", .str "x")]⟩ := rfl
  have hname : "root" ≠ "copy" := by decide
  obtain ⟨after, found, hmake, hcopy, -, -, hlater⟩ := hentered.snapshot_apart hroot hname
  obtain rfl : _ = after := (Prod.mk.inj hmake).2
  obtain rfl : copy = found := Option.some.inj hcopy
  obtain ⟨d, e, hd, he, -, -, happart⟩ := hlater _ .refl
  obtain rfl : _ = d := Option.some.inj hd
  obtain rfl : _ = e := Option.some.inj he
  refine ⟨_, _, root, copy, hentered, rfl, rfl, hmake, hcopy, rfl, ?_, ?_⟩
  · exact (happart "root" _ _ rfl).1 (by decide)
  · exact (happart "copy" _ _ rfl).2 (by decide)

end Session

end LayeredConfig
