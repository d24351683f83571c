import LayeredConfig.Proofs.Prune

/-!
# Changing leaves in place

`Path.mapLeaves` changes every leaf of a tree by a function of its path and leaves everything else as it
is: the names, their order and the mappings, empty ones included. Writing to a leaf that is there is such
a change at one path (`write_mapLeaves`), and pruning does not mind it (`prune_mapLeaves`).
-/

namespace LayeredConfig

namespace Path

mutual

/-- A value with every leaf changed by a function of its path. -/
def mapValue (f : List String → Value → Value) : Value → Value
  | .node scope provenance entries => .node scope provenance (mapLeaves f entries)
  | v => f [] v

/-- The entries with every leaf changed by a function of its path. -/
def mapLeaves (f : List String → Value → Value) : Entries → Entries
  | [] => []
  | (key, v) :: rest => (key, mapValue (fun path => f (key :: path)) v) :: mapLeaves f rest

end

variable {f g : List String → Value → Value} {scope : Scope} {v old : Value} {path : List String} {entries : Entries}

theorem mapValue_leaf (hv : v.isNode = false) : mapValue f v = f [] v := by
  cases v with
  | node => contradiction
  | _ => rw [mapValue]; simp

theorem mapLeaves_eq_map (f : List String → Value → Value) (entries : Entries) :
    mapLeaves f entries = entries.map fun entry => (entry.1, mapValue (fun path => f (entry.1 :: path)) entry.2) := by
  induction entries with
  | nil => rfl
  | cons entry rest ih => rw [mapLeaves, ih, List.map_cons]

theorem isEmpty_mapLeaves (f : List String → Value → Value) (entries : Entries) :
    (mapLeaves f entries).isEmpty = entries.isEmpty := by
  rw [mapLeaves_eq_map, List.isEmpty_map]

theorem keys_mapLeaves (f : List String → Value → Value) (entries : Entries) :
    Ordered.keys (mapLeaves f entries) = Ordered.keys entries := by
  rw [mapLeaves_eq_map, Ordered.keys, List.map_map]
  rfl

theorem lookup_mapLeaves (f : List String → Value → Value) (key : String) (entries : Entries) :
    (mapLeaves f entries).lookup key = (entries.lookup key).map (mapValue fun path => f (key :: path)) := by
  rw [mapLeaves_eq_map]
  exact Ordered.lookup_map (fun key => mapValue fun path => f (key :: path)) key entries

/-- Only what happens at paths that start with a name that is there counts. -/
theorem mapLeaves_congr (h : ∀ key ∈ Ordered.keys entries, ∀ path, f (key :: path) = g (key :: path)) :
    mapLeaves f entries = mapLeaves g entries := by
  rw [mapLeaves_eq_map, mapLeaves_eq_map]
  refine List.map_congr_left fun entry hentry => ?_
  rw [funext (h entry.1 (Ordered.key_mem_of_mem hentry))]

mutual

theorem mapValue_id : (v : Value) → mapValue (fun _ w => w) v = v
  | .node scope provenance entries => by rw [mapValue, mapLeaves_id entries]
  | .null | .bool _ | .int _ | .float _ | .str _ | .list _ => mapValue_leaf rfl

theorem mapLeaves_id : (entries : Entries) → mapLeaves (fun _ w => w) entries = entries
  | [] => rfl
  | (key, v) :: rest => by rw [mapLeaves, mapValue_id v, mapLeaves_id rest]

end

/-! ## Reading -/

/-- Leaves stay leaves. -/
def KeepsLeaves (f : List String → Value → Value) : Prop :=
  ∀ path v, v.isNode = false → (f path v).isNode = false

theorem KeepsLeaves.below (hf : KeepsLeaves f) (key : String) : KeepsLeaves fun path => f (key :: path) :=
  fun path v hv => hf (key :: path) v hv

theorem children?_mapLeaves (hf : KeepsLeaves f) (path : List String) (entries : Entries) :
    children? path (mapLeaves f entries) =
      (children? path entries).map (mapLeaves fun below => f (path ++ below)) := by
  induction path generalizing f entries with
  | nil => rfl
  | cons segment rest ih =>
    have hentries : ((mapLeaves f entries).lookup segment).bind Value.entries? =
        ((entries.lookup segment).bind Value.entries?).map (mapLeaves fun path => f (segment :: path)) := by
      rw [lookup_mapLeaves]
      rcases entries.lookup segment with _ | v
      · rfl
      · cases v with
        | node => rw [Option.map_some, mapValue]; rfl
        | _ =>
          rw [Option.map_some, mapValue_leaf rfl]
          exact Value.entries?_eq_none_iff.mpr (hf [segment] _ rfl)
    by_cases hrest : rest = []
    · subst hrest
      rw [children?_singleton, children?_singleton, hentries]
      rfl
    · rw [children?_cons segment hrest, children?_cons segment hrest, hentries]
      rcases (entries.lookup segment).bind Value.entries? with _ | children
      · rfl
      · exact ih (hf.below segment) children

theorem leaf?_mapLeaves (hf : KeepsLeaves f) (h : leaf? path entries = some v) :
    leaf? path (mapLeaves f entries) = some (f path v) := by
  induction path generalizing f entries with
  | nil => simp at h
  | cons segment rest ih =>
    by_cases hrest : rest = []
    · subst hrest
      obtain ⟨hfind, hv⟩ := leaf?_eq_some_iff.mp h
      rw [find?_singleton] at hfind
      rw [leaf?_singleton, lookup_mapLeaves, hfind, Option.map_some, mapValue_leaf hv, Option.filter_some,
        hf [segment] v hv]
      rfl
    · rw [leaf?_cons segment hrest] at h ⊢
      obtain ⟨children, hchildren, hleaf⟩ := Option.bind_eq_some_iff.mp h
      obtain ⟨u, hlookup, hu⟩ := Option.bind_eq_some_iff.mp hchildren
      cases u with
      | node scope provenance entries =>
        obtain rfl := Option.some.inj hu
        rw [lookup_mapLeaves, hlookup, Option.map_some, mapValue]
        exact ih (hf.below segment) hleaf
      | _ => contradiction

/-! ## Writing -/

theorem insert_mapLeaves (hd : Ordered.Distinct entries) {key : String} (hlookup : entries.lookup key = some v)
    (h : ∀ other ≠ key, ∀ path, f (other :: path) = g (other :: path)) :
    Ordered.insert key (mapValue (fun path => g (key :: path)) v) (mapLeaves f entries) = mapLeaves g entries := by
  induction entries with
  | nil => contradiction
  | cons entry rest ih =>
    obtain ⟨hfresh, hrest⟩ := Ordered.distinct_cons.mp hd
    rw [Ordered.lookup_cons_eq] at hlookup
    rw [mapLeaves, mapLeaves, Ordered.insert]
    by_cases hkey : entry.1 = key
    · subst hkey
      rw [if_pos rfl] at hlookup
      have hcongr : mapLeaves f rest = mapLeaves g rest :=
        mapLeaves_congr fun other hother path => h other (fun he => hfresh (he ▸ hother)) path
      rw [if_pos rfl, hcongr, Option.some.inj hlookup]
    · rw [if_neg hkey] at hlookup ⊢
      rw [ih hrest hlookup, funext (h entry.1 hkey)]

/-- **Writing to a leaf that is there changes it in place.** -/
theorem write_mapLeaves (hproper : ProperEntries entries) (hold : leaf? path entries = some old)
    (hself : g path old = v) (hother : ∀ other ≠ path, f other = g other) :
    write scope v path (mapLeaves f entries) = .ok (mapLeaves g entries) := by
  induction path generalizing entries f g with
  | nil => simp at hold
  | cons segment rest ih =>
    have hsegment : ∀ other ≠ segment, ∀ path, f (other :: path) = g (other :: path) :=
      fun other hne path => hother _ fun he => hne (List.cons.inj he).1
    by_cases hrest : rest = []
    · subst hrest
      obtain ⟨hfind, hleaf⟩ := leaf?_eq_some_iff.mp hold
      rw [find?_singleton] at hfind
      rw [write_singleton, ← insert_mapLeaves hproper.1 hfind hsegment, mapValue_leaf hleaf, hself]
    · rw [leaf?_cons segment hrest] at hold
      obtain ⟨children, hchildren, hleaf⟩ := Option.bind_eq_some_iff.mp hold
      obtain ⟨u, hlookup, hu⟩ := Option.bind_eq_some_iff.mp hchildren
      cases u with
      | node inner provenance entries =>
        obtain rfl := Option.some.inj hu
        have hbelow := ih (f := fun path => f (segment :: path)) (g := fun path => g (segment :: path))
          (Value.proper_node.mp (hproper.of_lookup hlookup)) hleaf hself
          fun other hne => hother _ fun he => hne (List.cons.inj he).2
        rw [write_cons_eq_ok_iff hrest]
        refine ⟨⟨inner, provenance, _⟩, _, Or.inl ?_, hbelow, ?_⟩
        · rw [lookup_mapLeaves, hlookup, Option.map_some, mapValue]
          rfl
        · rw [← insert_mapLeaves hproper.1 hlookup hsegment, mapValue]
          rfl
      | _ => contradiction

/-- A change of the leaf at one path. -/
def leafAt (path : List String) (v : Value) (other : List String) (old : Value) : Value :=
  if other = path then v else old

theorem keepsLeaves_leafAt (path : List String) (hv : v.isNode = false) : KeepsLeaves (leafAt path v) := by
  intro other old hold
  rw [leafAt]
  split
  · exact hv
  · exact hold

theorem write_eq_mapLeaves (hproper : ProperEntries entries) (hold : leaf? path entries = some old) :
    write scope v path entries = .ok (mapLeaves (leafAt path v) entries) := by
  have hwrite : write scope v path (mapLeaves (fun _ w => w) entries) = .ok (mapLeaves (leafAt path v) entries) :=
    write_mapLeaves hproper hold (if_pos rfl) fun other hne => funext fun _ => (if_neg hne).symm
  rwa [mapLeaves_id] at hwrite

/-! ## Pruning -/

theorem alter_mapLeaves {key : String} {p q : Value → Option Value}
    (h : ∀ v, p (mapValue (fun path => f (key :: path)) v) = (q v).map (mapValue fun path => f (key :: path))) :
    Ordered.alter key p (mapLeaves f entries) = mapLeaves f (Ordered.alter key q entries) := by
  induction entries with
  | nil => rfl
  | cons entry rest ih =>
    rw [mapLeaves, Ordered.alter_cons, Ordered.alter_cons, ih]
    by_cases hkey : entry.1 = key
    · subst hkey
      rw [if_pos rfl, if_pos rfl, h]
      cases q entry.2 with
      | none => rfl
      | some w => rfl
    · rw [if_neg hkey, if_neg hkey, List.singleton_append, List.singleton_append, mapLeaves]

theorem prune_mapLeaves (hf : KeepsLeaves f) (path : List String) (entries : Entries) :
    prune path (mapLeaves f entries) = mapLeaves f (prune path entries) := by
  induction path generalizing f entries with
  | nil => rfl
  | cons segment rest ih =>
    refine alter_mapLeaves fun v => ?_
    by_cases hrest : rest = []
    · subst hrest
      rfl
    cases v with
    | node scope provenance children =>
      rw [mapValue, pruneValue_node hrest, pruneValue_node hrest, ih (hf.below segment), isEmpty_mapLeaves]
      split
      · rfl
      · rw [Option.map_some, mapValue]
    | _ =>
      rw [mapValue_leaf rfl, pruneValue_leaf hrest (hf [segment] _ rfl), pruneValue_leaf hrest rfl,
        Option.map_some, mapValue_leaf rfl]

end Path

end LayeredConfig
