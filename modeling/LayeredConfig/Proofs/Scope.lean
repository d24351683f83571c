import LayeredConfig.Change
import LayeredConfig.Proofs.SwitchOrder
import LayeredConfig.Proofs.VariableOrder

/-!
# One scope for all nodes of a tree

A tree is uniform when every node in it, inside lists and mappings at any depth, belongs to the scope of its root.
Values are bound to a scope when they are put into a tree and mappings that are missing are made in it, so each
change of a configuration, successful or not, leaves a uniform tree uniform (`keeps_apply`). In a uniform tree it
makes no difference whether the scope is taken from the root or from the mapping that is written to
(`Path.writeAdopting_eq`).
-/

namespace LayeredConfig

namespace Value

mutual

/-- The nodes in a value, in lists and mappings at any depth, the value itself included. -/
def nodes : Value → List Node
  | .node scope provenance entries => ⟨scope, provenance, entries⟩ :: nodesOfEntries entries
  | .list items => nodesOfItems items
  | .null | .bool _ | .int _ | .float _ | .str _ => []

def nodesOfItems : List Value → List Node
  | [] => []
  | v :: rest => nodes v ++ nodesOfItems rest

def nodesOfEntries : Entries → List Node
  | [] => []
  | (_, v) :: rest => nodes v ++ nodesOfEntries rest

end

theorem mem_nodesOfItems {n : Node} {items : List Value} : n ∈ nodesOfItems items ↔ ∃ v ∈ items, n ∈ v.nodes := by
  induction items with
  | nil => simp [nodesOfItems]
  | cons v rest ih => simp [nodesOfItems, ih]

theorem mem_nodesOfEntries {n : Node} {entries : Entries} :
    n ∈ nodesOfEntries entries ↔ ∃ entry ∈ entries, n ∈ entry.2.nodes := by
  induction entries with
  | nil => simp [nodesOfEntries]
  | cons entry rest ih => simp [nodesOfEntries, ih]

/-- Every node in a value belongs to a scope. -/
def Within (scope : Scope) (v : Value) : Prop := ∀ n ∈ v.nodes, n.scope = scope

end Value

/-- Every node in some entries belongs to a scope. -/
def EntriesWithin (scope : Scope) (entries : Entries) : Prop := ∀ entry ∈ entries, entry.2.Within scope

namespace Value

variable {scope inner : Scope} {provenance : Provenance} {entries : Entries} {items : List Value}

theorem within_list : (list items).Within scope ↔ ∀ v ∈ items, v.Within scope := by
  simp only [Within, nodes, mem_nodesOfItems, forall_exists_index, and_imp]
  exact ⟨fun h v hv n hn => h n v hv hn, fun h n v hv hn => h v hv n hn⟩

theorem within_node : (node inner provenance entries).Within scope ↔ inner = scope ∧ EntriesWithin scope entries := by
  simp only [Within, nodes, EntriesWithin, List.forall_mem_cons, mem_nodesOfEntries, forall_exists_index, and_imp]
  refine and_congr_right' ⟨?_, ?_⟩
  · exact fun h entry hentry n hn => h n entry hentry hn
  · exact fun h n entry hentry hn => h entry hentry n hn

variable {f : Scope → Scope}

mutual

/-- A function of scopes reaches every node in a value. -/
theorem within_mapScope : (v : Value) → (∀ n ∈ v.nodes, f n.scope = scope) → (v.mapScope f).Within scope
  | .node _ _ entries, h => by
    rw [nodes, List.forall_mem_cons] at h
    exact within_node.mpr ⟨h.1, within_mapScopeEntries entries h.2⟩
  | .list items, h => within_list.mpr (within_mapScopeList items h)
  | .null, _ | .bool _, _ | .int _, _ | .float _, _ | .str _, _ => fun _ hn => absurd hn List.not_mem_nil

theorem within_mapScopeList : (items : List Value) → (∀ n ∈ nodesOfItems items, f n.scope = scope) →
    ∀ v ∈ mapScopeList f items, v.Within scope
  | [], _ => fun _ hv => absurd hv List.not_mem_nil
  | v :: rest, h => by
    rw [nodesOfItems, List.forall_mem_append] at h
    exact List.forall_mem_cons.mpr ⟨within_mapScope v h.1, within_mapScopeList rest h.2⟩

theorem within_mapScopeEntries : (entries : Entries) → (∀ n ∈ nodesOfEntries entries, f n.scope = scope) →
    EntriesWithin scope (mapScopeEntries f entries)
  | [], _ => fun _ hentry => absurd hentry List.not_mem_nil
  | (_, v) :: rest, h => by
    rw [nodesOfEntries, List.forall_mem_append] at h
    exact List.forall_mem_cons.mpr ⟨within_mapScope v h.1, within_mapScopeEntries rest h.2⟩

end

theorem within_rebind (scope : Scope) (v : Value) : (v.rebind scope).Within scope := within_mapScope v fun _ _ => rfl

theorem within_rebindEntries (scope : Scope) (entries : Entries) : EntriesWithin scope (rebindEntries scope entries) :=
  within_mapScopeEntries entries fun _ _ => rfl

end Value

/-! ## Entries -/

namespace EntriesWithin

variable {scope : Scope} {entries : Entries} {key : String} {v : Value}

theorem nil (scope : Scope) : EntriesWithin scope [] := by simp [EntriesWithin]

theorem of_lookup (h : EntriesWithin scope entries) (hlookup : entries.lookup key = some v) : v.Within scope :=
  h _ (Ordered.mem_of_lookup hlookup)

theorem insert (h : EntriesWithin scope entries) (hv : v.Within scope) :
    EntriesWithin scope (Ordered.insert key v entries) := by
  intro entry hentry
  rcases Ordered.mem_insert hentry with rfl | hold
  · exact hv
  · exact h entry hold

theorem erase (h : EntriesWithin scope entries) : EntriesWithin scope (Ordered.erase key entries) :=
  fun entry hentry => h entry (List.mem_of_mem_eraseP hentry)

end EntriesWithin

namespace Path

variable {scope : Scope} {entries written : Entries} {path : List String} {v : Value}

theorem within_find? (h : EntriesWithin scope entries) (hfind : find? path entries = some v) : v.Within scope := by
  induction path generalizing entries with
  | nil => contradiction
  | cons segment rest ih =>
    by_cases hrest : rest = []
    · rw [hrest, find?_singleton] at hfind
      exact h.of_lookup hfind
    · rw [find?_cons segment hrest] at hfind
      obtain ⟨children, hchildren, hbelow⟩ := Option.bind_eq_some_iff.mp hfind
      obtain ⟨w, hlookup, hw⟩ := Option.bind_eq_some_iff.mp hchildren
      cases w with
      | node inner provenance below =>
        obtain rfl := Option.some.inj hw
        exact ih (Value.within_node.mp (h.of_lookup hlookup)).2 hbelow
      | _ => contradiction

theorem Enters.within {segment : String} {n : Node} (hn : Enters scope segment entries n)
    (h : EntriesWithin scope entries) : n.scope = scope ∧ EntriesWithin scope n.entries := by
  rcases hn with hn | ⟨-, rfl⟩
  · exact Value.within_node.mp (h.of_lookup hn)
  · exact ⟨rfl, EntriesWithin.nil scope⟩

theorem within_write (h : EntriesWithin scope entries) (hv : v.Within scope)
    (hwrite : write scope v path entries = .ok written) : EntriesWithin scope written := by
  induction path generalizing entries written with
  | nil =>
    rw [write] at hwrite
    exact Except.ok.inj hwrite ▸ h
  | cons segment rest ih =>
    by_cases hrest : rest = []
    · subst hrest
      rw [write_singleton] at hwrite
      exact Except.ok.inj hwrite ▸ h.insert hv
    · obtain ⟨n, children, hn, hchildren, rfl⟩ := (write_cons_eq_ok_iff hrest).mp hwrite
      obtain ⟨hscope, hbelow⟩ := hn.within h
      exact h.insert (Value.within_node.mpr ⟨hscope, ih hbelow hchildren⟩)

theorem within_modify {f : Entries → Entries} (h : EntriesWithin scope entries)
    (hf : ∀ children, EntriesWithin scope children → EntriesWithin scope (f children)) :
    EntriesWithin scope (modify f path entries) := by
  induction path generalizing entries with
  | nil => exact hf entries h
  | cons segment rest ih =>
    rw [modify]
    split
    · next inner provenance children hlookup =>
      obtain ⟨hscope, hbelow⟩ := Value.within_node.mp (h.of_lookup hlookup)
      exact h.insert (Value.within_node.mpr ⟨hscope, ih hbelow⟩)
    · exact h

/-- Puts a value at a path as `write` does, except that the value and the mappings created on the way are bound to
the scope of the mapping that they are put into, which is not asked to be that of the root. -/
def writeAdopting (value : Value) : Scope → List String → Entries → Except String Entries
  | _, [], entries => .ok entries
  | scope, [segment], entries => .ok (Ordered.insert segment (value.rebind scope) entries)
  | scope, segment :: rest, entries =>
    match entries.lookup segment with
    | some (.node inner provenance children) =>
      (writeAdopting value inner rest children).map fun written =>
        Ordered.insert segment (.node inner provenance written) entries
    | some _ => .error segment
    | none =>
      (writeAdopting value scope rest []).map fun written =>
        Ordered.insert segment (.node scope {} written) entries

/-- **In one scope it makes no difference which mapping the scope is taken from.** -/
theorem writeAdopting_eq (h : EntriesWithin scope entries) (v : Value) (path : List String) :
    writeAdopting v scope path entries = write scope (v.rebind scope) path entries := by
  induction path generalizing entries with
  | nil => rfl
  | cons segment rest ih =>
    cases rest with
    | nil => rfl
    | cons next rest =>
      rw [writeAdopting, write]
      · cases hlookup : entries.lookup segment with
        | none => simp only [ih (EntriesWithin.nil scope)]
        | some w =>
          cases w with
          | node inner provenance children =>
            obtain ⟨rfl, hbelow⟩ := Value.within_node.mp (h.of_lookup hlookup)
            simp only [ih hbelow]
          | _ => rfl
      · simp
      · simp

end Path

/-! ## Nodes -/

namespace Node

variable {n m p : Node} {key inner : Key} {v : Value} {path : List String}

/-- The nodes of a tree, the root included. -/
def nodes (n : Node) : List Node := n.toValue.nodes

/-- Every node of a tree belongs to the scope of the root. -/
def Uniform (n : Node) : Prop := ∀ m ∈ n.nodes, m.scope = n.scope

theorem uniform_iff : n.Uniform ↔ EntriesWithin n.scope n.entries :=
  Value.within_node.trans (and_iff_right rfl)

/-- A node that stays in its scope and, if it was uniform, is so still. -/
structure Keeps (n m : Node) : Prop where
  scope : m.scope = n.scope
  uniform : n.Uniform → m.Uniform

theorem Keeps.refl (n : Node) : Keeps n n := ⟨rfl, id⟩

theorem Keeps.trans (h : Keeps n m) (h' : Keeps m p) : Keeps n p := ⟨h'.scope.trans h.scope, h'.uniform ∘ h.uniform⟩

/-- A change of the entries only has to keep them in the scope. -/
theorem keeps_entries {entries : Entries} (h : EntriesWithin n.scope n.entries → EntriesWithin n.scope entries) :
    Keeps n { n with entries } := ⟨rfl, fun hn => uniform_iff.mpr (h (uniform_iff.mp hn))⟩

theorem keeps_setAt (h : n.setAt path v = .ok m) : Keeps n m := by
  unfold setAt at h
  cases hwrite : Path.write n.scope (v.rebind n.scope) path n.entries with
  | error segment =>
    rw [hwrite] at h
    contradiction
  | ok written =>
    rw [hwrite] at h
    obtain rfl := Except.ok.inj h
    exact keeps_entries fun hn => Path.within_write hn (Value.within_rebind n.scope v) hwrite

theorem keeps_remove {removed : Option Value} (h : n.remove key = .ok (removed, m)) : Keeps n m := by
  unfold remove at h
  dsimp only at h
  split at h
  · obtain ⟨-, rfl⟩ := Prod.mk.inj (Except.ok.inj h)
    exact keeps_entries EntriesWithin.erase
  · obtain ⟨found, -, h⟩ := bind_eq_ok_iff.mp h
    split at h
    · obtain ⟨-, rfl⟩ := Prod.mk.inj (Except.ok.inj h)
      exact Keeps.refl n
    · obtain ⟨-, rfl⟩ := Prod.mk.inj (Except.ok.inj h)
      exact keeps_entries fun hn => Path.within_modify hn fun _ => EntriesWithin.erase
    · obtain ⟨refused, -, h⟩ := bind_eq_ok_iff.mp h
      obtain ⟨-, rfl⟩ := Prod.mk.inj (Except.ok.inj h)
      exact Keeps.refl n

theorem refuse_ne_some {α : Type} (n : Node) (error : Error) (a : α) : n.refuse error ≠ .ok (some a) := by
  unfold refuse
  split <;> simp

theorem find?_of_lookup (h : n.lookup path = .ok (some v)) : Path.find? path n.entries = some v := by
  unfold lookup at h
  rw [Path.find?]
  cases hfind : Path.find path n.entries with
  | ok w =>
    rw [hfind] at h
    exact Except.ok.inj h
  | error miss =>
    rw [hfind] at h
    exact absurd h (refuse_ne_some n miss.toError v)

/-- The node at a key is one of the tree. -/
theorem uniform_of_node? {child : Node} (hn : n.Uniform) (h : n.node? key = .ok (some child)) :
    child.scope = n.scope ∧ child.Uniform := by
  obtain ⟨found, hfound, h⟩ := bind_eq_ok_iff.mp h
  cases found with
  | none => cases h
  | some w =>
    cases w with
    | node scope provenance entries =>
      obtain rfl := Option.some.inj (Except.ok.inj h)
      obtain ⟨rfl, hbelow⟩ := Value.within_node.mp (Path.within_find? (uniform_iff.mp hn) (find?_of_lookup hfound))
      exact ⟨rfl, uniform_iff.mpr hbelow⟩
    | _ => exact absurd h (refuse_ne_some n _ child)

theorem keeps_setWithin (h : n.setWithin key inner v = .ok (some m)) : Keeps n m := by
  obtain ⟨found, hfound, h⟩ := bind_eq_ok_iff.mp h
  cases found with
  | none => cases h
  | some child =>
    obtain ⟨written, hwritten, h⟩ := bind_eq_ok_iff.mp h
    obtain rfl := Option.some.inj (Except.ok.inj h)
    refine ⟨rfl, fun hn => ?_⟩
    obtain ⟨hscope, hchild⟩ := uniform_of_node? hn hfound
    have hkeeps := keeps_setAt hwritten
    have hentries := uniform_iff.mp (hkeeps.uniform hchild)
    rw [hkeeps.scope, hscope] at hentries
    exact uniform_iff.mpr (Path.within_modify (uniform_iff.mp hn) fun _ _ => hentries)

theorem uniform_rebind (n : Node) (scope : Scope) : (n.rebind scope).Uniform :=
  uniform_iff.mpr (Value.within_rebindEntries scope n.entries)

theorem scope_moveTo (n : Node) (table : TableId) : (n.moveTo table).scope = ⟨table, n.scope.options⟩ := if_pos rfl

/-- A tree moves to another table as a whole if it is in one scope. -/
theorem uniform_moveTo (hn : n.Uniform) (table : TableId) : (n.moveTo table).Uniform := by
  refine uniform_iff.mpr (Value.within_mapScopeEntries n.entries fun m hm => ?_)
  have hscope : m.scope = n.scope := hn m (List.mem_cons_of_mem _ hm)
  rw [hscope]
  rfl

end Node

/-! ## Configurations -/

namespace Config

variable {c c' : Config} {slot : Slot} {proposal : Proposal}

theorem keeps_withProvenance (c : Config) (f : Provenance → Provenance) : c.tree.Keeps (c.withProvenance f).tree := by
  refine ⟨rfl, fun h => ?_⟩
  have hentries := Node.uniform_iff.mp h
  exact Node.uniform_iff.mpr hentries

theorem keeps_overlayAt {slot : Option Slot} (h : c.overlayAt slot proposal = .ok c') : c.tree.Keeps c'.tree := by
  cases slot with
  | none => exact Except.ok.inj h ▸ Node.Keeps.refl c.tree
  | some slot =>
    obtain ⟨v, -, hput⟩ := overlay_eq_ok_iff.mp h
    cases slot with
    | global name => exact Except.ok.inj hput ▸ Node.Keeps.refl c.tree
    | key path =>
      obtain ⟨tree, htree, rfl⟩ := map_eq_ok_iff.mp hput
      exact Node.keeps_setAt htree

theorem keeps_overlayParsed (c : Config) : c.tree.Keeps c.overlayParsed.config.tree := by
  refine Attempt.each_config (R := fun a b => a.tree.Keeps b.tree) (fun c => Node.Keeps.refl c.tree) Node.Keeps.trans
    ?_ c _
  intro before switch after hok
  obtain ⟨changed, hchanged, rfl⟩ := overlaySwitch_eq_ok_iff.mp hok
  exact (keeps_overlayAt hchanged).trans (keeps_withProvenance changed _)

theorem keeps_parseArguments (c : Config) (aliases : Aliases) (tokens : List String) :
    c.tree.Keeps (Attempt.ofResult c (c.parseArguments aliases tokens)).config.tree := by
  unfold parseArguments
  cases Arguments.parse (Arguments.withDefaults aliases) tokens with
  | ok parsed => exact keeps_withProvenance c _
  | error error => exact Node.Keeps.refl c.tree

theorem keeps_updateFromArguments (processArguments : List String) (c : Config) :
    c.tree.Keeps (c.updateFromArguments processArguments).config.tree := by
  unfold updateFromArguments
  split
  · exact keeps_overlayParsed c
  · exact Attempt.andThen_config (R := fun a b => a.tree.Keeps b.tree) Node.Keeps.trans
      (keeps_parseArguments c [] processArguments) keeps_overlayParsed

theorem keeps_updateFromEnvironment (env : Environment) (options : EnvOptions) (c : Config) :
    c.tree.Keeps (c.updateFromEnvironment env options).config.tree := by
  refine Attempt.andThen_config (R := fun a b => a.tree.Keeps b.tree) Node.Keeps.trans ?_
    (fun d => keeps_withProvenance d _)
  refine Attempt.each_config (R := fun a b => a.tree.Keeps b.tree) (fun c => Node.Keeps.refl c.tree) Node.Keeps.trans
    ?_ c _
  intro before o after hok
  rw [applyOverlay_eq_overlayAt] at hok
  exact keeps_overlayAt hok

theorem keeps_fullUpdate (processArguments : List String) (env : Environment) (options : UpdateOptions) (c : Config) :
    c.tree.Keeps (c.fullUpdate processArguments env options).config.tree := by
  have hparsed := keeps_parseArguments c options.aliases (options.tokens.getD processArguments)
  have hoverlaid := Attempt.andThen_config (R := fun a b => a.tree.Keeps b.tree) Node.Keeps.trans hparsed
    (keeps_updateFromEnvironment env options.env)
  exact Attempt.andThen_config (R := fun a b => a.tree.Keeps b.tree) Node.Keeps.trans hoverlaid
    (keeps_updateFromArguments processArguments)

theorem keeps_changeTree {result : Except Error (Node × Report)}
    (h : ∀ tree report, result = .ok (tree, report) → c.tree.Keeps tree) :
    c.tree.Keeps (c.changeTree result).1.tree := by
  cases result with
  | ok changed => exact h changed.1 changed.2 rfl
  | error error => exact Node.Keeps.refl c.tree

/-- **A change keeps the scope of a tree, and that it is one for all nodes, even where it fails.** -/
theorem keeps_apply (processArguments : List String) (c : Config) (change : Change) :
    c.tree.Keeps (change.apply processArguments c).1.tree := by
  cases change with
  | set key value =>
    refine keeps_changeTree fun tree report h => ?_
    obtain ⟨written, hwritten, heq⟩ := map_eq_ok_iff.mp h
    obtain ⟨rfl, -⟩ := Prod.mk.inj heq
    exact Node.keeps_setAt hwritten
  | remove key =>
    refine keeps_changeTree fun tree report h => ?_
    obtain ⟨⟨removed, kept⟩, hkept, heq⟩ := map_eq_ok_iff.mp h
    obtain ⟨rfl, -⟩ := Prod.mk.inj heq
    exact Node.keeps_remove hkept
  | setWithin key inner value =>
    refine keeps_changeTree fun tree report h => ?_
    obtain ⟨written, hwritten, heq⟩ := map_eq_ok_iff.mp h
    cases written with
    | none =>
      obtain ⟨rfl, -⟩ := Prod.mk.inj heq
      exact Node.Keeps.refl c.tree
    | some changed =>
      obtain ⟨rfl, -⟩ := Prod.mk.inj heq
      exact Node.keeps_setWithin hwritten
  | setGlobal name value => exact Node.Keeps.refl c.tree
  | removeGlobal name => exact Node.Keeps.refl c.tree
  | setFilename path => exact keeps_withProvenance c _
  | parseArguments tokens aliases => exact keeps_parseArguments c aliases (tokens.getD processArguments)
  | clearArguments => exact keeps_withProvenance c _
  | updateFromArguments => exact keeps_updateFromArguments processArguments c
  | updateFromEnvironment env options => exact keeps_updateFromEnvironment env options c
  | fullUpdate env options => exact keeps_fullUpdate processArguments env options c

end Config

end LayeredConfig
