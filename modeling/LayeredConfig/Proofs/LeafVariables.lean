import LayeredConfig.Proofs.Decimal
import LayeredConfig.Proofs.NewKeys

/-!
# The leaves of a tree as variables

A tree whose leaves are booleans, integers and texts can be written as an environment: one variable for each leaf,
named by a prefix and the dotted form of its path, its value the text of the leaf. Overlaying these variables on any
tree with the same paths and kinds gives the first tree back. Coercion inverts the text of a leaf over any value of its
kind (`coerceText_toText`), each variable finds the path it is named by as long as no other path goes by that name
(`mem_overlays_leafVariables`), and each overlay changes one leaf in place (`applyOverlay_replaced`).
-/

namespace LayeredConfig

/-! ## Trees known by what stands at their paths -/

namespace Value

variable {v w : Value} {entries others : Entries} {key : String} {path : List String}

/-- A value with nothing left of a mapping but that it is one. -/
def outline : Value → Value
  | .node .. => .mapping []
  | v => v

theorem outline_leaf (hv : v.isNode = false) : v.outline = v := by
  cases v with
  | node => contradiction
  | _ => rfl

theorem outline_mapping (hv : v.isNode = true) : v.outline = .mapping [] := by
  cases v with
  | node => rfl
  | _ => contradiction

@[simp] theorem isNode_outline (v : Value) : v.outline.isNode = v.isNode := by cases v <;> rfl

/-- The value at a path below a value, or itself where the path is empty. -/
def at? (path : List String) (v : Value) : Option Value :=
  if path = [] then some v else v.entries?.bind (Path.find? path)

@[simp] theorem at?_nil (v : Value) : v.at? [] = some v := rfl

theorem find?_cons_eq_at? (key : String) (path : List String) (entries : Entries) :
    Path.find? (key :: path) entries = (entries.lookup key).bind (at? path) := by
  by_cases hpath : path = []
  · subst hpath
    rw [Path.find?_singleton]
    cases entries.lookup key <;> rfl
  · rw [Path.find?_cons key hpath, Option.bind_assoc]
    exact congrArg _ (funext fun v => (if_neg hpath).symm)

/-- The same stands at every path of two values, mappings without their entries, and the leaves equal themselves, as
all do but those with floats that are not finite. -/
structure SameOutline (v w : Value) : Prop where
  left : v.Proper
  right : w.Proper
  outline : ∀ path, (v.at? path).map Value.outline = (w.at? path).map Value.outline
  reflexive : ∀ path u, v.at? path = some u → u.isNode = false → u.same u

theorem SameOutline.of_lookup {scope scope' : Scope} {provenance provenance' : Provenance}
    (h : SameOutline (.node scope provenance entries) (.node scope' provenance' others))
    (hlookup : entries.lookup key = some v) : ∃ w, others.lookup key = some w ∧ SameOutline v w := by
  have hleft (path : List String) : (node scope provenance entries).at? (key :: path) = v.at? path := by
    rw [at?, if_neg (List.cons_ne_nil _ _), entries?, Option.bind_some, find?_cons_eq_at?, hlookup, Option.bind_some]
  have hright (path : List String) : (node scope' provenance' others).at? (key :: path) =
      (others.lookup key).bind (at? path) := by
    rw [at?, if_neg (List.cons_ne_nil _ _), entries?, Option.bind_some, find?_cons_eq_at?]
  have houtline (path : List String) := h.outline (key :: path)
  have hreflexive (path : List String) := h.reflexive (key :: path)
  simp only [hleft, hright] at houtline hreflexive
  cases hw : others.lookup key with
  | none =>
    have hhere := houtline []
    rw [hw] at hhere
    contradiction
  | some w =>
    rw [hw] at houtline
    exact ⟨w, rfl, (proper_node.mp h.left).2 _ (Ordered.mem_of_lookup hlookup),
      (proper_node.mp h.right).2 _ (Ordered.mem_of_lookup hw), houtline, hreflexive⟩

theorem SameOutline.length_eq {scope scope' : Scope} {provenance provenance' : Provenance}
    (h : SameOutline (.node scope provenance entries) (.node scope' provenance' others)) :
    entries.length = others.length := by
  have hsome (key : String) : (entries.lookup key).isSome = (others.lookup key).isSome := by
    have hhere := congrArg Option.isSome (h.outline [key])
    simpa [at?, entries?] using hhere
  have hkeys {xs ys : Entries} (hsome : ∀ key, (xs.lookup key).isSome = (ys.lookup key).isSome) :
      ∀ key ∈ Ordered.keys xs, key ∈ Ordered.keys ys := by
    intro key hkey
    by_contra hnot
    have hlookup := hsome key
    rw [Ordered.lookup_eq_none_iff.mpr hnot, Option.isSome_none, Option.isSome_eq_false_iff, Option.isNone_iff_eq_none,
      Ordered.lookup_eq_none_iff] at hlookup
    exact hlookup hkey
  exact Nat.le_antisymm (Ordered.length_le_of_keys (proper_node.mp h.left).1 (hkeys hsome))
    (Ordered.length_le_of_keys (proper_node.mp h.right).1 (hkeys fun key => (hsome key).symm))

theorem SameOutline.isNode_eq (h : SameOutline v w) : w.isNode = v.isNode := by
  have hhere : v.outline = w.outline := Option.some.inj (h.outline [])
  rw [← isNode_outline w, ← hhere, isNode_outline]

theorem SameOutline.eq_of_leaf (h : SameOutline v w) (hv : v.isNode = false) : w = v := by
  have hhere : v.outline = w.outline := Option.some.inj (h.outline [])
  rw [← outline_leaf (h.isNode_eq.trans hv), ← hhere, outline_leaf hv]

mutual

/-- **Values at whose paths the same stands are equal.** -/
theorem SameOutline.same : (v w : Value) → SameOutline v w → v.same w
  | .node scope provenance entries, w, h => by
    cases w with
    | node scope' provenance' others =>
      have hdistinct := (proper_node.mp h.left).1
      exact same_node.mpr ⟨h.length_eq, SameOutline.sameEntries entries others fun entry hentry =>
        h.of_lookup (Ordered.lookup_of_mem hdistinct hentry)⟩
    | _ => exact absurd h.isNode_eq (by simp [isNode, kind])
  | .null, w, h | .bool _, w, h | .int _, w, h | .float _, w, h | .str _, w, h | .list _, w, h => by
    rw [h.eq_of_leaf rfl]
    exact h.reflexive [] _ rfl rfl

theorem SameOutline.sameEntries : (entries others : Entries) →
    (∀ entry ∈ entries, ∃ w, others.lookup entry.1 = some w ∧ SameOutline entry.2 w) → sameEntries entries others
  | [], _, _ => rfl
  | (key, v) :: rest, others, h => by
    obtain ⟨⟨w, hlookup, hv⟩, hrest⟩ := List.forall_mem_cons.mp h
    have hsame := SameOutline.same v w hv
    simp [Value.sameEntries, hlookup, hsame, SameOutline.sameEntries rest others hrest]

end

end Value

namespace Path

variable {f : List String → Value → Value} {path : List String} {entries : Entries}

theorem find?_mapLeaves (hf : KeepsLeaves f) (path : List String) (entries : Entries) :
    find? path (mapLeaves f entries) = (find? path entries).map (mapValue fun below => f (path ++ below)) := by
  induction path generalizing f entries with
  | nil => rfl
  | cons segment rest ih =>
    rw [Value.find?_cons_eq_at?, Value.find?_cons_eq_at?, lookup_mapLeaves]
    cases entries.lookup segment with
    | none => rfl
    | some v =>
      simp only [Option.map_some, Option.bind_some, Value.at?]
      by_cases hrest : rest = []
      · simp [hrest]
      · rw [if_neg hrest, if_neg hrest]
        cases v with
        | node scope provenance children =>
          rw [mapValue]
          exact ih (hf.below segment) children
        | _ =>
          rw [mapValue_leaf rfl, Value.entries?_eq_none_iff.mpr (hf [segment] _ rfl)]
          rfl

theorem mem_all_of_leaf? (h : ProperEntries entries) {v : Value} (hv : leaf? path entries = some v) :
    path ∈ all entries := by
  rw [mem_all_iff entries h, (leaf?_eq_some_iff.mp hv).1]
  rfl

end Path

/-! ## Variables -/

/-- Over a value of its kind the text of a leaf means the leaf. -/
theorem coerceText_toText {v : Value} (h : v.kind = .bool ∨ v.kind = .int ∨ v.kind = .str) :
    coerceText v.kind v.toText = .ok v := by
  cases v with
  | bool b => cases b <;> rfl
  | int i =>
    simp only [Value.kind, Value.toText, coerceText]
    rw [trimmed_toString, readInt64?_toString]
  | str s => rfl
  | _ => simp [Value.kind] at h

theorem Value.same_self {v : Value} (h : v.kind = .bool ∨ v.kind = .int ∨ v.kind = .str) : v.same v := by
  cases v <;> simp [Value.kind, Value.same] at h ⊢

theorem lookup_pathTable_of_unshared {entries : Entries} {path : List String} (hmem : path ∈ Path.all entries)
    (hunshared : ∀ other ∈ Path.all entries, dotted other = dotted path → other = path) :
    (pathTable entries).lookup (dotted path) = some path := by
  cases hlookup : (pathTable entries).lookup (dotted path) with
  | none => exact absurd rfl (lookup_pathTable_eq_none_iff.mp hlookup path hmem)
  | some other =>
    obtain ⟨hother, hname⟩ := mem_of_lookup_pathTable hlookup
    rw [hunshared other hother hname]

namespace Node

variable {t u : Node} {path : List String} {v : Value} {front : String}

/-- The leaves of a tree as variables. -/
def leafVariables (front : String) (n : Node) : List (String × String) :=
  (Path.all n.entries).filterMap fun path =>
    (Path.leaf? path n.entries).map fun v => (front ++ dotted path, v.toText)

/-- What makes a tree known by the variables of its leaves: they are booleans, integers and texts, and each goes by a
name of its own, which is neither empty nor in braces. -/
structure Nameable (n : Node) : Prop where
  kinds : ∀ path v, Path.leaf? path n.entries = some v → v.kind = .bool ∨ v.kind = .int ∨ v.kind = .str
  named : ∀ path v, Path.leaf? path n.entries = some v →
    dotted path ≠ "" ∧ Arguments.globalName? (dotted path) = none
  unshared : ∀ path v other, Path.leaf? path n.entries = some v → (Path.find? other n.entries).isSome →
    dotted other = dotted path → other = path

/-- Trees with the same paths and the same kind at every path. -/
def SameKinds (t u : Node) : Prop :=
  ∀ path, (Path.find? path t.entries).map Value.kind = (Path.find? path u.entries).map Value.kind

/-- Only the paths of a tree count. -/
theorem nameable_iff (ht : ProperEntries t.entries) : t.Nameable ↔
    ∀ path ∈ Path.all t.entries, ∀ v ∈ Path.leaf? path t.entries,
      (v.kind = .bool ∨ v.kind = .int ∨ v.kind = .str) ∧
        (dotted path ≠ "" ∧ Arguments.globalName? (dotted path) = none) ∧
        ∀ other ∈ Path.all t.entries, dotted other = dotted path → other = path := by
  have hpaths := Path.mem_all_iff t.entries ht
  constructor
  · intro h path _ v hv
    refine ⟨h.kinds path v hv, h.named path v hv, fun other hother => ?_⟩
    exact h.unshared path v other hv ((hpaths other).mp hother)
  · intro h
    have hleaf (path : List String) (v : Value) (hv : Path.leaf? path t.entries = some v) :=
      h path (Path.mem_all_of_leaf? ht hv) v hv
    refine ⟨fun path v hv => (hleaf path v hv).1, fun path v hv => (hleaf path v hv).2.1, ?_⟩
    intro path v other hv hother
    exact (hleaf path v hv).2.2 other ((hpaths other).mpr hother)

theorem sameKinds_iff (ht : ProperEntries t.entries) (hu : ProperEntries u.entries) : t.SameKinds u ↔
    ∀ path ∈ Path.all t.entries ++ Path.all u.entries,
      (Path.find? path t.entries).map Value.kind = (Path.find? path u.entries).map Value.kind := by
  refine ⟨fun h path _ => h path, fun h path => ?_⟩
  by_cases hpath : path ∈ Path.all t.entries ++ Path.all u.entries
  · exact h path hpath
  · rw [List.mem_append, not_or, Path.mem_all_iff _ ht, Path.mem_all_iff _ hu] at hpath
    simp only [Option.not_isSome_iff_eq_none] at hpath
    rw [hpath.1, hpath.2]

theorem SameKinds.isSome (h : SameKinds t u) (path : List String) :
    (Path.find? path t.entries).isSome = (Path.find? path u.entries).isSome := by
  simpa using congrArg Option.isSome (h path)

theorem SameKinds.exists_leaf (h : SameKinds t u) (hv : Path.leaf? path t.entries = some v) :
    ∃ w, Path.leaf? path u.entries = some w ∧ w.kind = v.kind := by
  obtain ⟨hfind, hleaf⟩ := Path.leaf?_eq_some_iff.mp hv
  have hkind := h path
  rw [hfind, Option.map_some] at hkind
  obtain ⟨w, hw, hkind⟩ := Option.map_eq_some_iff.mp hkind.symm
  refine ⟨w, Path.leaf?_eq_some_iff.mpr ⟨hw, ?_⟩, hkind⟩
  rwa [Value.isNode, hkind, ← Value.isNode]

theorem mem_leafVariables (ht : ProperEntries t.entries) {entry : String × String} :
    entry ∈ t.leafVariables front ↔
      ∃ path v, Path.leaf? path t.entries = some v ∧ entry = (front ++ dotted path, v.toText) := by
  simp only [leafVariables, List.mem_filterMap, Option.map_eq_some_iff]
  constructor
  · rintro ⟨path, -, v, hv, rfl⟩
    exact ⟨path, v, hv, rfl⟩
  · rintro ⟨path, v, hv, rfl⟩
    exact ⟨path, Path.mem_all_of_leaf? ht hv, v, hv, rfl⟩

end Node

namespace Config

variable {c : Config} {t : Node} {env : Environment} {front : String} {o : Overlay}

/-- **Each variable of a leaf overlays the path of the leaf**, and nothing else is overlaid. -/
theorem mem_overlays_leafVariables (hc : c.Proper) (ht : ProperEntries t.entries) (hnames : t.Nameable)
    (hkinds : t.SameKinds c.tree) (hfront : front ≠ "") (hcase : env.caseInsensitive = false)
    (hvars : env.vars.Perm (t.leafVariables front)) :
    o ∈ c.overlays env { front := some front } ↔
      ∃ path v, Path.leaf? path t.entries = some v ∧ o = ⟨.key path, v.toText⟩ := by
  have htarget {path : List String} {v : Value} (hv : Path.leaf? path t.entries = some v) :
      c.prefixedTarget env (dotted path) = .key path := by
    obtain ⟨old, hold, -⟩ := hkinds.exists_leaf hv
    rw [prefixedTarget_of_sensitive hcase, (hnames.named path v hv).2, Node.recursiveKeys,
      lookup_pathTable_of_unshared (Path.mem_all_of_leaf? hc.entries hold)]
    · rfl
    · intro other hother hname
      rw [Path.mem_all_iff c.tree.entries hc.entries, ← hkinds.isSome] at hother
      exact hnames.unshared path v other hv hother hname
  have hprefix : c.envPrefix { front := some front } = front := rfl
  have hexcludes (name : String) : EnvOptions.excludes { front := some front } env name = false := rfl
  rw [overlays, hprefix, if_neg hfront, prefixedOverlays, prefixedVars]
  simp only [List.mem_filterMap, Option.map_eq_some_iff, hvars.mem_iff, Node.mem_leafVariables ht, hexcludes]
  constructor
  · rintro ⟨-, ⟨-, ⟨path, v, hv, rfl⟩, rest, hrest, rfl⟩, ho⟩
    rw [Environment.afterPrefix?_append] at hrest
    obtain rfl := Option.some.inj hrest
    simp only [(hnames.named path v hv).1, Bool.false_eq_true, or_self, if_false, htarget hv] at ho
    exact ⟨path, v, hv, (Option.some.inj ho).symm⟩
  · rintro ⟨path, v, hv, rfl⟩
    refine ⟨(front ++ dotted path, dotted path, v.toText),
      ⟨(front ++ dotted path, v.toText), ⟨path, v, hv, rfl⟩, dotted path, env.afterPrefix?_append front _, rfl⟩, ?_⟩
    simp [(hnames.named path v hv).1, htarget hv]

/-! ## Overlaying them -/

/-- The leaves of a tree at the paths that overlays have reached, and the old ones elsewhere. -/
def replaced (t : Node) (done : List Overlay) (path : List String) (old : Value) : Value :=
  if .key path ∈ done.map Overlay.target then (Path.leaf? path t.entries).getD old else old

theorem keepsLeaves_replaced (t : Node) (done : List Overlay) : Path.KeepsLeaves (replaced t done) := by
  intro path old hold
  unfold replaced
  split
  · cases hleaf : Path.leaf? path t.entries with
    | none => exact hold
    | some v => exact (Path.leaf?_eq_some_iff.mp hleaf).2
  · exact hold

theorem replaced_nil (t : Node) : replaced t [] = fun _ old => old := rfl

theorem replaced_append_of_ne {done : List Overlay} {path other : List String} {text : String} (h : other ≠ path) :
    replaced t (done ++ [⟨.key path, text⟩]) other = replaced t done other := by
  funext old
  simp [replaced, h]

/-- **Each overlay puts one leaf in its place.** -/
theorem applyOverlay_replaced (hc : c.Proper) (hnames : t.Nameable) (hkinds : t.SameKinds c.tree) {done : List Overlay}
    {path : List String} {v : Value} (hv : Path.leaf? path t.entries = some v) :
    applyOverlay { c with tree := { c.tree with entries := Path.mapLeaves (replaced t done) c.tree.entries } }
        ⟨.key path, v.toText⟩ =
      .ok { c with tree := { c.tree with
        entries := Path.mapLeaves (replaced t (done ++ [⟨.key path, v.toText⟩])) c.tree.entries } } := by
  obtain ⟨old, hold, hkind⟩ := hkinds.exists_leaf hv
  obtain ⟨hfind, -⟩ := Path.leaf?_eq_some_iff.mp (Path.leaf?_mapLeaves (keepsLeaves_replaced t done) hold)
  have hhere : (replaced t done path old).kind = v.kind := by
    unfold replaced
    split
    · rw [hv, Option.getD_some]
    · exact hkind
  have hvalue : coerce (.text v.toText) (some (replaced t done path old)) = .ok v := by
    rw [coerce_text, hhere, coerceText_toText (hnames.kinds path v hv)]
  have hwrite : Path.write c.tree.scope (v.rebind c.tree.scope) path
      (Path.mapLeaves (replaced t done) c.tree.entries) =
        .ok (Path.mapLeaves (replaced t (done ++ [⟨.key path, v.toText⟩])) c.tree.entries) := by
    rw [(flat_coerce hvalue).rebind]
    refine Path.write_mapLeaves hc.entries hold ?_ fun other hne => (replaced_append_of_ne hne).symm
    rw [replaced, if_pos (by simp), hv, Option.getD_some]
  simp only [applyOverlay, hfind, hvalue, Bind.bind, Except.bind, setAt, Node.setAt, hwrite, Except.map]

/-- Once all its leaves were reached, the same stands at every path as in the tree itself. -/
theorem outline_replaced (hkinds : t.SameKinds c.tree) {done : List Overlay}
    (hreached : ∀ path v, Path.leaf? path t.entries = some v → .key path ∈ done.map Overlay.target)
    (path : List String) :
    (Path.find? path (Path.mapLeaves (replaced t done) c.tree.entries)).map Value.outline =
      (Path.find? path t.entries).map Value.outline := by
  rw [Path.find?_mapLeaves (keepsLeaves_replaced t done)]
  have hkind := hkinds path
  cases hold : Path.find? path c.tree.entries with
  | none =>
    rw [hold, Option.map_none, Option.map_eq_none_iff] at hkind
    rw [hkind]
    rfl
  | some old =>
    rw [hold, Option.map_some, Option.map_eq_some_iff] at hkind
    obtain ⟨v, hv, hkind⟩ := hkind
    have hnode : v.isNode = old.isNode := by rw [Value.isNode, hkind, ← Value.isNode]
    rw [hv, Option.map_some, Option.map_some, Option.map_some, Option.some.injEq]
    cases old with
    | node scope provenance children =>
      rw [Value.outline_mapping hnode, Path.mapValue]
      rfl
    | _ =>
      have hleaf : Path.leaf? path t.entries = some v := Path.leaf?_eq_some_iff.mpr ⟨hv, hnode⟩
      rw [Path.mapValue_leaf rfl, List.append_nil, replaced, if_pos (hreached path v hleaf), hleaf, Option.getD_some]

/-- A tree at whose paths the same stands as in one with such leaves is equal to it. -/
theorem same_of_outline {n : Node} (hn : ProperEntries n.entries) (ht : ProperEntries t.entries) (hnames : t.Nameable)
    (houtline : ∀ path, (Path.find? path n.entries).map Value.outline = (Path.find? path t.entries).map Value.outline) :
    n.same t := by
  have hat {path : List String} (hpath : path ≠ []) (m : Node) : m.toValue.at? path = Path.find? path m.entries := by
    rw [Value.at?, if_neg hpath]
    rfl
  refine Value.SameOutline.same _ _ ⟨Value.proper_node.mpr hn, Value.proper_node.mpr ht, ?_, ?_⟩
  · intro path
    by_cases hpath : path = []
    · rw [hpath]
      rfl
    · rw [hat hpath, hat hpath]
      exact houtline path
  · intro path u hu hleaf
    by_cases hpath : path = []
    · rw [hpath] at hu
      obtain rfl := Option.some.inj hu
      contradiction
    · rw [hat hpath] at hu
      have hhere := houtline path
      rw [hu, Option.map_some, Value.outline_leaf hleaf] at hhere
      obtain ⟨v, hv, hvu⟩ := Option.map_eq_some_iff.mp hhere.symm
      have hvleaf : v.isNode = false := by rw [← Value.isNode_outline v, hvu, hleaf]
      rw [Value.outline_leaf hvleaf] at hvu
      subst hvu
      exact Value.same_self (hnames.kinds path v (Path.leaf?_eq_some_iff.mpr ⟨hv, hvleaf⟩))

/-- **The variables of its leaves make a tree out of any other of its kinds**: in any order they are overlaid with
success, and the tree is equal to theirs after it, with the paths it had before. -/
theorem updateFromEnvironment_leafVariables (hc : c.Proper) (ht : ProperEntries t.entries) (hnames : t.Nameable)
    (hkinds : t.SameKinds c.tree) (hfront : front ≠ "") (hcase : env.caseInsensitive = false)
    (hvars : env.vars.Perm (t.leafVariables front)) :
    ∃ c', c.updateFromEnvironment env { front := some front } = ⟨c', none⟩ ∧ c'.tree.same t ∧
      Path.all c'.tree.entries = Path.all c.tree.entries ∧ c'.globals = c.globals ∧
      c'.tree.scope = c.tree.scope ∧ c'.provenance = { c.provenance with envPrefix := some front } := by
  set overlays := c.overlays env { front := some front } with hoverlays
  have hmem (o : Overlay) : o ∈ overlays ↔ ∃ path v, Path.leaf? path t.entries = some v ∧ o = ⟨.key path, v.toText⟩ :=
    mem_overlays_leafVariables hc ht hnames hkinds hfront hcase hvars
  -- After some of the overlays the leaves that they reached are those of the other tree.
  have hruns : ∃ d, Attempt.each applyOverlay c overlays = ⟨d, none⟩ ∧
      d = { c with tree := { c.tree with entries := Path.mapLeaves (replaced t overlays) c.tree.entries } } := by
    refine Attempt.each_succeeds (motive := fun done d =>
      d = { c with tree := { c.tree with entries := Path.mapLeaves (replaced t done) c.tree.entries } }) ?_ ?_
    · rw [replaced_nil, Path.mapLeaves_id]
    · intro done o rest before hitems hbefore
      obtain ⟨path, v, hv, rfl⟩ := (hmem o).mp (by simp [hitems])
      exact ⟨_, hbefore ▸ applyOverlay_replaced hc hnames hkinds hv, rfl⟩
  obtain ⟨overlaid, hrun, hlast⟩ := hruns
  have hentries : overlaid.tree.entries = Path.mapLeaves (replaced t overlays) c.tree.entries := by rw [hlast]
  have hsame : overlaid.tree.same t := by
    refine same_of_outline (proper_applyOverlays hc hrun).entries ht hnames fun path => ?_
    rw [hentries]
    refine outline_replaced hkinds (fun path v hv => ?_) path
    exact List.mem_map_of_mem ((hmem _).mpr ⟨path, v, hv, rfl⟩)
  refine ⟨_, updateFromEnvironment_eq_iff.mpr ⟨overlaid, hrun, rfl⟩, hsame, ?_, ?_, ?_, ?_⟩
  · exact (congrArg Path.all hentries).trans (Path.all_mapLeaves (keepsLeaves_replaced t overlays) _)
  · rw [hlast]
    rfl
  · rw [hlast]
    rfl
  · rw [hlast]
    rfl

/-- A name with a dot of its own, an empty mapping and the least integer, with the entries of both trees and the
variables in orders of their own. -/
theorem updateFromEnvironment_three_leaves :
    ∃ c', (ofEntries {} [("s", .str ""), ("a", .mapping [("n", .int 0), ("b.c", .bool true)]),
        ("e", .mapping [])]).updateFromEnvironment
        ⟨[("P_a.n", "-9223372036854775808"), ("P_s", " x "), ("P_a.b.c", "false")], false⟩ { front := some "P_" } =
          ⟨c', none⟩ ∧
      c'.tree.same ⟨.loose, {}, [("a", .mapping [("b.c", .bool false), ("n", .int Int64.minValue)]),
        ("e", .mapping []), ("s", .str " x ")]⟩ := by
  have hentries : ProperEntries [("s", .str ""), ("a", .node .loose {} [("n", .int 0), ("b.c", .bool true)]),
      ("e", .node .loose {} [])] := by
    simp [ProperEntries, Value.Proper, Value.Everywhere, Value.EverywhereEntries, Ordered.keys, Ordered.Distinct]
  have hc : (ofEntries {} [("s", .str ""), ("a", .mapping [("n", .int 0), ("b.c", .bool true)]),
      ("e", .mapping [])]).Proper := ⟨hentries, ProperEntries.nil⟩
  have ht : ProperEntries [("a", .mapping [("b.c", .bool false), ("n", .int Int64.minValue)]), ("e", .mapping []),
      ("s", .str " x ")] := by
    simp [ProperEntries, Value.Proper, Value.Everywhere, Value.EverywhereEntries, Ordered.keys, Ordered.Distinct,
      Value.mapping]
  have hvars : (⟨[("P_a.n", "-9223372036854775808"), ("P_s", " x "), ("P_a.b.c", "false")], false⟩ :
      Environment).vars.Perm (Node.leafVariables "P_" ⟨.loose, {}, [("a", .mapping [("b.c", .bool false),
        ("n", .int Int64.minValue)]), ("e", .mapping []), ("s", .str " x ")]⟩) := by decide
  obtain ⟨c', hc', hsame, -⟩ := updateFromEnvironment_leafVariables hc ht ((Node.nameable_iff ht).mpr (by decide))
    ((Node.sameKinds_iff ht hc.entries).mpr (by decide)) (by decide) rfl hvars
  exact ⟨c', hc', hsame⟩

end Config

end LayeredConfig
