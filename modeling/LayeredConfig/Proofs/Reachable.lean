import LayeredConfig.Proofs.Scope
import LayeredConfig.Session

/-!
# Sessions that can be reached

`Session.Reachable` is every session that constructing configurations, taking nodes out of them, changing them and
saving them leads to, whatever the values, tokens and variables are and whether the changes succeed. In all of them
each node of a tree, inside lists and mappings at any depth, belongs to the scope of the root: it has its options and
its globals table. So a global that is set through one node of a tree is the one that every other resolves
(`Reachable.one_scope`).
-/

namespace LayeredConfig

/-! ## Constructions -/

/-- The ways to construct a configuration. -/
inductive Constructed (files : Files) (processArguments : List String) : Config → Prop
  | ofEntries (options : Options) (entries : Entries) : Constructed files processArguments (.ofEntries options entries)
  | empty (options : Options) : Constructed files processArguments (.empty options)
  | ofDocument {options : Options} {document : Document} {c : Config} :
      Config.ofDocument options document = .ok c → Constructed files processArguments c
  | load {options : LoadOptions} {c : Config} :
      Config.load files processArguments options = .ok c → Constructed files processArguments c

namespace Config

variable {c : Config} {files : Files} {processArguments : List String}

theorem uniform_ofEntries (options : Options) (entries : Entries) : (ofEntries options entries).tree.Uniform := by
  have hbound (entries : Entries) :
      (⟨⟨.loose, options⟩, {}, Value.rebindEntries ⟨.loose, options⟩ entries⟩ : Node).Uniform :=
    Node.uniform_iff.mpr (Value.within_rebindEntries _ entries)
  unfold ofEntries
  dsimp only
  split
  · split
    · exact hbound entries
    · exact hbound (Ordered.erase globalsKey entries)
  · exact hbound entries

theorem uniform_empty (options : Options) : (empty options).tree.Uniform :=
  Node.uniform_iff.mpr (EntriesWithin.nil _)

theorem uniform_ofDocument {options : Options} {document : Document} (h : ofDocument options document = .ok c) :
    c.tree.Uniform := by
  cases document with
  | mapping fields =>
    rw [ofDocument] at h
    cases hfields : Value.ofFields fields with
    | ok entries =>
      rw [hfields] at h
      exact Except.ok.inj h ▸ uniform_ofEntries options entries
    | error n =>
      rw [hfields] at h
      contradiction
  | null => exact Except.ok.inj h ▸ uniform_empty options
  | _ => contradiction

theorem uniform_ofFile {path : String} {format : Option FileFormat} {options : Options}
    (h : ofFile files path format options = .ok c) : c.tree.Uniform := by
  unfold ofFile at h
  split at h
  · contradiction
  · next content hcontent =>
    obtain ⟨format, -, h⟩ := bind_eq_ok_iff.mp h
    obtain ⟨read, hread, h⟩ := bind_eq_ok_iff.mp h
    obtain rfl := Except.ok.inj h
    cases content with
    | text s =>
      obtain ⟨document, -, hdocument⟩ := bind_eq_ok_iff.mp hread
      exact (keeps_withProvenance read _).uniform (uniform_ofDocument hdocument)
    | bytes b => contradiction

theorem uniform_load {options : LoadOptions} (h : load files processArguments options = .ok c) : c.tree.Uniform := by
  obtain ⟨arguments, -, h⟩ := bind_eq_ok_iff.mp h
  dsimp only at h
  split at h
  · obtain ⟨loaded, hloaded, h⟩ := bind_eq_ok_iff.mp h
    obtain rfl := Except.ok.inj h
    exact (keeps_withProvenance loaded _).uniform (uniform_ofFile hloaded)
  · split at h
    · contradiction
    · obtain rfl := Except.ok.inj h
      exact (keeps_withProvenance _ _).uniform (uniform_empty options.tree)

/-- What is constructed is in one scope before it enters a session. -/
theorem uniform_of_constructed (h : Constructed files processArguments c) : c.tree.Uniform := by
  cases h with
  | ofEntries options entries => exact uniform_ofEntries options entries
  | empty options => exact uniform_empty options
  | ofDocument h => exact uniform_ofDocument h
  | load h => exact uniform_load h

/-- A node that is read is one of the tree. -/
theorem uniform_of_get {key : Key} {n : Node} (hc : c.tree.Uniform)
    (h : (c.get key).map (·.bind Value.asNode?) = .ok (some n)) : n.scope = c.tree.scope ∧ n.Uniform := by
  obtain ⟨read, hread, hnode⟩ := map_eq_ok_iff.mp h
  obtain ⟨v, rfl, hv⟩ := Option.bind_eq_some_iff.mp hnode
  obtain ⟨raw, hraw, hread⟩ := map_eq_ok_iff.mp hread
  obtain ⟨w, rfl, hw⟩ := Option.map_eq_some_iff.mp hread
  cases w with
  | node scope provenance entries =>
    obtain rfl : Value.node scope provenance entries = v := hw
    obtain rfl := Option.some.inj hv
    obtain ⟨hscope, hentries⟩ :=
      Value.within_node.mp (Path.within_find? (Node.uniform_iff.mp hc) (Node.find?_of_lookup hraw))
    exact ⟨hscope, Node.uniform_iff.mpr (hscope ▸ hentries)⟩
  | _ =>
    subst hw
    contradiction

end Config

/-! ## Sessions -/

namespace Session

variable {s : Session} {slot : String} {c : Config} {n : Node}

/-- The sessions that can be reached. -/
inductive Reachable : Session → Prop
  | empty (files : Files) (processArguments : List String) : Reachable (.empty files processArguments)
  | construct {s : Session} {c : Config} (slot : String) :
      Reachable s → Constructed s.files s.processArguments c → Reachable (s.enter slot c)
  | make {s : Session} {c : Config} {slot : String} (named : String) (maker : Maker) :
      Reachable s → s.config? slot = some c → Reachable (s.make c named maker).2
  | change {s : Session} {c : Config} {slot : String} (change : Change) :
      Reachable s → s.config? slot = some c → Reachable (s.change slot c change).2
  | save {s : Session} {c : Config} {slot : String} (path : Option String) (options : SaveOptions) (disk : Disk) :
      Reachable s → s.config? slot = some c → Reachable (s.save c path options disk).2

/-- What holds of the nodes of a session: each tree has one scope, and its table is one of the session. -/
def Sound (s : Session) : Prop :=
  ∀ slot n, s.slots.lookup slot = some n → n.Uniform ∧ n.scope.table.index < s.tables.length

theorem sound_empty (files : Files) (processArguments : List String) : (empty files processArguments).Sound := by
  intro slot n hn
  contradiction

theorem Sound.of_config? (h : s.Sound) (hc : s.config? slot = some c) :
    c.tree.Uniform ∧ c.tree.scope.table.index < s.tables.length := by
  obtain ⟨n, hn, rfl⟩ := Option.map_eq_some_iff.mp hc
  exact h slot n hn

/-- Naming a node leaves a session sound if the node is, also with more tables. -/
theorem Sound.put (h : s.Sound) {tables : List Globals} (htables : s.tables.length ≤ tables.length)
    (hn : n.Uniform) (hindex : n.scope.table.index < tables.length) : { s.share slot n with tables }.Sound := by
  intro other m hm
  have hlookup : (Ordered.insert slot n s.slots).lookup other = some m := hm
  rw [Ordered.lookup_insert] at hlookup
  split at hlookup
  · obtain rfl := Option.some.inj hlookup
    exact ⟨hn, hindex⟩
  · obtain ⟨hm, hindex⟩ := h other m hlookup
    exact ⟨hm, Nat.lt_of_lt_of_le hindex htables⟩

theorem Sound.share (h : s.Sound) (hn : n.Uniform) (hindex : n.scope.table.index < s.tables.length) :
    (s.share slot n).Sound := h.put (Nat.le_refl _) hn hindex

/-- Naming a tree that is in one scope, with the next table, leaves a session sound. -/
theorem Sound.place (h : s.Sound) (hn : n.Uniform) (htable : n.scope.table = s.fresh) (globals : Globals) :
    (s.place slot n globals).Sound := by
  apply h.put
  · simp
  · exact hn
  · simp [htable, fresh]

/-- What enters a session has to be in one scope: a node of another one would keep its table. -/
theorem Sound.enter (h : s.Sound) (hc : c.tree.Uniform) (slot : String) : (s.enter slot c).Sound :=
  h.place (Node.uniform_moveTo hc s.fresh) (congrArg Scope.table (Node.scope_moveTo c.tree s.fresh)) c.globals

theorem Sound.detach (h : s.Sound) (slot : String) (c : Config) : (s.detach slot c).Sound :=
  h.place (Node.uniform_rebind c.tree _) rfl c.globals

theorem Sound.store {c' : Config} (h : s.Sound) (slot : String) (hkeeps : c.tree.Keeps c'.tree)
    (huniform : c.tree.Uniform) (hindex : c.tree.scope.table.index < s.tables.length) : (s.store slot c').Sound := by
  apply h.put
  · simp
  · exact hkeeps.uniform huniform
  · rw [List.length_set, hkeeps.scope]
    exact hindex

theorem Sound.make (h : s.Sound) (hc : s.config? slot = some c) (named : String) (maker : Maker) :
    (s.make c named maker).2.Sound := by
  obtain ⟨huniform, hindex⟩ := h.of_config? hc
  cases maker with
  | take key =>
    unfold Session.make
    dsimp only
    split
    · next n hget =>
      obtain ⟨hscope, hn⟩ := Config.uniform_of_get huniform hget
      exact h.share hn (hscope ▸ hindex)
    · exact h
    · exact h
  | resolve => exact h.detach named c.resolved
  | child => exact h.share (Node.uniform_iff.mpr (EntriesWithin.nil _)) hindex
  | clone => exact h.share huniform hindex

theorem Sound.change (h : s.Sound) (hc : s.config? slot = some c) (change : Change) :
    (s.change slot c change).2.Sound := by
  obtain ⟨huniform, hindex⟩ := h.of_config? hc
  exact h.store slot (Config.keeps_apply s.processArguments c change) huniform hindex

theorem Reachable.sound (h : s.Reachable) : s.Sound := by
  induction h with
  | empty files processArguments => exact sound_empty files processArguments
  | construct slot _ hc ih => exact ih.enter (Config.uniform_of_constructed hc) slot
  | make named maker _ hc ih => exact ih.make hc named maker
  | change change _ hc ih => exact ih.change hc change
  -- Only files change, whether the configuration is saved or not.
  | save path options disk _ _ ih => exact ih

/-! ## Globals -/

/-- What is set through a node shows in every node that shares its table. -/
theorem configOf_setGlobal {m : Node} (htable : m.scope.table = n.scope.table)
    (hindex : n.scope.table.index < s.tables.length) (named name : String) (v : Value) :
    ((s.change named (s.configOf m) (.setGlobal name v)).2).configOf n = (s.configOf n).setGlobal name v := by
  let tables := s.tables.set m.scope.table.index (Ordered.insert name v (s.globals m.scope.table))
  have hset : tables[n.scope.table.index]? = some (Ordered.insert name v (s.globals n.scope.table)) := by
    rw [← htable, List.getElem?_set_self (htable ▸ hindex)]
  have hglobals : ((s.change named (s.configOf m) (.setGlobal name v)).2).globals n.scope.table =
      Ordered.insert name v (s.globals n.scope.table) := congrArg (Option.getD · []) hset
  rw [configOf, hglobals]
  rfl

/-- **One tree, one scope.** In every session that can be reached, each node found anywhere in a tree has the globals
table and the options of the root, and a global that is set through one of them is what a placeholder of its name
stands for in every other. -/
theorem Reachable.one_scope {root : Node} (h : s.Reachable) (hroot : s.slots.lookup slot = some root) :
    (∀ n ∈ root.nodes, n.scope.table = root.scope.table ∧ n.scope.options = root.scope.options) ∧
      ∀ m ∈ root.nodes, ∀ n ∈ root.nodes, ∀ named name v,
        ((s.change named (s.configOf m) (.setGlobal name v)).2).configOf n = (s.configOf n).setGlobal name v ∧
        ((s.configOf n).setGlobal name v).globals.resolve name.toList = v.toText.toList := by
  obtain ⟨huniform, hindex⟩ := h.sound slot root hroot
  refine ⟨fun n hn => ?_, fun m hm n hn named name v => ⟨?_, ?_⟩⟩
  · rw [huniform n hn]
    exact ⟨rfl, rfl⟩
  · apply configOf_setGlobal
    · rw [huniform m hm, huniform n hn]
    · rw [huniform n hn]
      exact hindex
  · have hname : (Ordered.insert name v (s.globals n.scope.table)).lookup (String.ofList name.toList) = some v := by
      rw [String.ofList_toList, Ordered.lookup_insert_self]
    show Globals.resolve (Ordered.insert name v (s.globals n.scope.table)) name.toList = _
    rw [Globals.resolve, hname]

/-- So a write can take the scope from the mapping that it puts something into. -/
theorem Reachable.writeAdopting_eq {root : Node} (h : s.Reachable) (hroot : s.slots.lookup slot = some root)
    (v : Value) (path : List String) :
    Path.writeAdopting v root.scope path root.entries =
      Path.write root.scope (v.rebind root.scope) path root.entries :=
  Path.writeAdopting_eq (Node.uniform_iff.mp (h.sound slot root hroot).1) v path

/-- A mapping in a list of lists, and one that came from another tree. -/
theorem one_scope_list_of_lists :
    ∃ (s : Session) (root m n : Node), s.Reachable ∧ s.slots.lookup "root" = some root ∧ m ∈ root.nodes ∧
      n ∈ root.nodes ∧ m.entries = [("x", .str "{g}")] ∧ n.entries = [("y", .int 1)] ∧
      n.scope.table = root.scope.table ∧ n.scope.options = root.scope.options ∧
      (((s.change "n" (s.configOf n) (.setGlobal "g" (.str "v"))).2).configOf m).get (.literal "x") =
        .ok (some (.str "v")) := by
  have hentered := Reachable.construct "root" (.empty [] [])
    (.ofEntries {} [("a", .list [.list [.mapping [("x", .str "{g}")]]])])
  let root : Node := ⟨⟨⟨1⟩, {}⟩, {}, [("a", .list [.list [.node ⟨⟨1⟩, {}⟩ {} [("x", .str "{g}")]]]),
    ("b", .node ⟨⟨1⟩, {}⟩ {} [("y", .int 1)])]⟩
  have hset : (⟨[[], []], [("root", root)], [], []⟩ : Session).Reachable :=
    Reachable.change (.set (.literal "b") (.node ⟨⟨7⟩, { noGlobals := true }⟩ {} [("y", .int 1)])) hentered
      (show Session.config? _ "root" = _ from rfl)
  have hm : ⟨⟨⟨1⟩, {}⟩, {}, [("x", .str "{g}")]⟩ ∈ root.nodes := List.mem_cons_of_mem _ List.mem_cons_self
  have hn : ⟨⟨⟨1⟩, {}⟩, {}, [("y", .int 1)]⟩ ∈ root.nodes :=
    List.mem_cons_of_mem _ (List.mem_cons_of_mem _ List.mem_cons_self)
  have hroot : [("root", root)].lookup "root" = some root := rfl
  obtain ⟨hscope, hglobals⟩ := hset.one_scope hroot
  refine ⟨_, root, _, _, hset, hroot, hm, hn, rfl, rfl, (hscope _ hn).1, (hscope _ hn).2, ?_⟩
  rw [(hglobals _ hn _ hm "n" "g" (.str "v")).1]
  rfl

end Session

end LayeredConfig
