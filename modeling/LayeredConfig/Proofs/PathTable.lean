import LayeredConfig.Proofs.Everywhere
import LayeredConfig.Proofs.Key
import LayeredConfig.Proofs.Path

/-!
# The table of paths

`Path.all` lists every path below some entries, each entry before those below it. The table from dotted
forms to paths is the map built from that list (`pathTable_eq`): of the paths with one dotted form it
records the last (`Node.mem_recursiveKeys_iff`). Overlays write leaves over leaves or in free places, and so
only add paths (`all_sublist_write`); a path that was there before and is recorded after them was recorded
before them (`lookup_pathTable_of_sublist`).
-/

namespace LayeredConfig

theorem dotted_cons (segment : String) {rest : List String} (h : rest ≠ []) :
    dotted (segment :: rest) = segment ++ "." ++ dotted rest := by
  rw [dotted]
  exact h

namespace Path

mutual

/-- Every path below some entries, in the order of the entries and each before those below it. -/
def all : Entries → List (List String)
  | [] => []
  | (key, v) :: rest => [key] :: (below v).map (key :: ·) ++ all rest

def below : Value → List (List String)
  | .node _ _ entries => all entries
  | _ => []

end

variable {scope : Scope} {v w : Value} {path other : List String} {entries written : Entries} {key : String}

theorem below_leaf (hv : v.isNode = false) : below v = [] := by
  cases v with
  | node => contradiction
  | _ => rfl

theorem mem_all_iff_exists :
    path ∈ all entries ↔ ∃ entry ∈ entries, path = [entry.1] ∨ ∃ rest ∈ below entry.2, path = entry.1 :: rest := by
  induction entries with
  | nil => simp [all]
  | cons entry rest ih =>
    simp only [all, List.cons_append, List.mem_cons, List.mem_append, List.mem_map, ih, exists_eq_or_imp]
    simp only [eq_comm (a := path), or_assoc]

theorem ne_nil_of_mem_all (h : path ∈ all entries) : path ≠ [] := by
  obtain ⟨entry, -, rfl | ⟨rest, -, rfl⟩⟩ := mem_all_iff_exists.mp h <;> simp

theorem ne_nil_of_mem_below (h : path ∈ below v) : path ≠ [] := by
  cases v with
  | node scope provenance entries => exact ne_nil_of_mem_all h
  | _ => simp [below] at h

/-! ## The table as a map -/

/-- A path under its dotted form. -/
def labelled (path : List String) : String × List String := (dotted path, path)

theorem map_labelled_cons (key : String) (v : Value) :
    ((below v).map labelled).map (fun entry => (key ++ "." ++ entry.1, key :: entry.2)) =
      ((below v).map (key :: ·)).map labelled := by
  rw [List.map_map, List.map_map]
  apply List.map_congr_left
  intro path hpath
  simp [labelled, dotted_cons key (ne_nil_of_mem_below hpath)]

end Path

mutual

theorem addPaths_eq (table : List (String × List String)) : (entries : Entries) →
    addPaths table entries = Ordered.insertAll table ((Path.all entries).map Path.labelled)
  | [] => rfl
  | (key, v) :: rest => by
    have hinjective : Function.Injective fun name => key ++ "." ++ name := by
      intro a b h
      simpa [← String.toList_inj] using h
    rw [addPaths, addPaths_eq _ rest, pathsBelow_eq v, Ordered.map_ofList hinjective (key :: ·),
      Path.map_labelled_cons, Ordered.insertAll_ofList, Path.all, List.map_append, Ordered.insertAll_append,
      List.map_cons, Ordered.insertAll_cons]
    rfl

theorem pathsBelow_eq : (v : Value) → pathsBelow v = Ordered.ofList ((Path.below v).map Path.labelled)
  | .node _ _ entries => by rw [pathsBelow, Path.below, addPaths_eq [] entries, Ordered.ofList]
  | .null | .bool _ | .int _ | .float _ | .str _ | .list _ => rfl

end

/-- **The table is the map of all paths under their dotted forms.** -/
theorem pathTable_eq (entries : Entries) : pathTable entries = Ordered.ofList ((Path.all entries).map Path.labelled) :=
  addPaths_eq [] entries

theorem distinct_pathTable (entries : Entries) : Ordered.Distinct (pathTable entries) := by
  rw [pathTable_eq]
  exact Ordered.distinct_ofList _

/-- Of the paths with one dotted form the last is recorded. -/
theorem lookup_pathTable (entries : Entries) (name : String) :
    (pathTable entries).lookup name = (Path.all entries).reverse.find? fun path => dotted path = name := by
  rw [pathTable_eq, Ordered.lookup_ofList, ← List.map_reverse]
  induction (Path.all entries).reverse with
  | nil => rfl
  | cons path rest ih =>
    rw [List.map_cons, Ordered.lookup_cons_eq, ih, List.find?_cons]
    by_cases h : dotted path = name
    · simp [Path.labelled, h]
    · simp [Path.labelled, h]

theorem mem_of_lookup_pathTable {entries : Entries} {name : String} {path : List String}
    (h : (pathTable entries).lookup name = some path) : path ∈ Path.all entries ∧ dotted path = name := by
  rw [lookup_pathTable] at h
  have hmem := List.mem_of_find?_eq_some h
  have hname := List.find?_some h
  simp only [List.mem_reverse, decide_eq_true_eq] at hmem hname
  exact ⟨hmem, hname⟩

theorem lookup_pathTable_eq_none_iff {entries : Entries} {name : String} :
    (pathTable entries).lookup name = none ↔ ∀ path ∈ Path.all entries, dotted path ≠ name := by
  simp [lookup_pathTable]

theorem find?_of_sublist {α : Type} {p : α → Bool} {small large : List α} (h : small.Sublist large)
    (hnodup : large.Nodup) {a : α} (hfind : large.find? p = some a) (hmem : a ∈ small) : small.find? p = some a := by
  induction h with
  | slnil => contradiction
  | cons b hsub ih =>
    obtain ⟨hfresh, hrest⟩ := List.nodup_cons.mp hnodup
    rw [List.find?_cons] at hfind
    cases hb : p b with
    | true =>
      rw [hb] at hfind
      obtain rfl := Option.some.inj hfind
      exact absurd (hsub.subset hmem) hfresh
    | false =>
      rw [hb] at hfind
      exact ih hrest hfind hmem
  | cons_cons b hsub ih =>
    obtain ⟨hfresh, hrest⟩ := List.nodup_cons.mp hnodup
    rw [List.find?_cons] at hfind ⊢
    cases hb : p b with
    | true => rwa [hb] at hfind
    | false =>
      rw [hb] at hfind
      have hne : a ≠ b := by
        rintro rfl
        have ha := List.find?_some hfind
        rw [hb] at ha
        contradiction
      exact ih hrest hfind ((List.mem_cons.mp hmem).resolve_left hne)

/-! ## Paths of maps -/

namespace Path

variable {scope : Scope} {v w : Value} {path other : List String} {entries written : Entries} {key : String}

mutual

/-- The paths listed are those at which something stands. -/
theorem mem_all_iff : (entries : Entries) → ProperEntries entries → ∀ path,
    path ∈ all entries ↔ (find? path entries).isSome
  | [], _, path => by simp [all, find?_empty]
  | (key, v) :: rest, h, path => by
    obtain ⟨hfresh, hrest⟩ := Ordered.distinct_cons.mp h.1
    obtain ⟨hv, hproper⟩ := List.forall_mem_cons.mp h.2
    have ihv := mem_below_iff v hv
    have ihrest := mem_all_iff rest ⟨hrest, hproper⟩
    rcases path with _ | ⟨first, tail⟩
    · simpa [all] using fun h => ne_nil_of_mem_all h rfl
    have hlookup : ((key, v) :: rest).lookup first = if key = first then some v else rest.lookup first :=
      Ordered.lookup_cons_eq first (key, v) rest
    have hsplit : first :: tail ∈ all ((key, v) :: rest) ↔
        first = key ∧ (tail = [] ∨ tail ∈ below v) ∨ first :: tail ∈ all rest := by
      simp only [all, List.cons_append, List.mem_cons, List.mem_append, List.mem_map, List.cons.injEq]
      constructor
      · rintro (⟨rfl, rfl⟩ | ⟨path, hpath, rfl, rfl⟩ | h)
        · exact Or.inl ⟨rfl, Or.inl rfl⟩
        · exact Or.inl ⟨rfl, Or.inr hpath⟩
        · exact Or.inr h
      · rintro (⟨rfl, rfl | hpath⟩ | h)
        · exact Or.inl ⟨rfl, rfl⟩
        · exact Or.inr (Or.inl ⟨tail, hpath, rfl, rfl⟩)
        · exact Or.inr (Or.inr h)
    rw [hsplit]
    by_cases hkey : key = first
    · subst hkey
      have hnot : key :: tail ∉ all rest := by
        intro hmem
        have hfind := (ihrest (key :: tail)).mp hmem
        have hnone := Ordered.lookup_eq_none_iff.mpr hfresh
        by_cases htail : tail = []
        · simp [htail, hnone] at hfind
        · simp [find?_cons key htail, hnone] at hfind
      by_cases htail : tail = []
      · simp [htail, hlookup]
      · simp [find?_cons key htail, hlookup, hnot, htail, ihv tail htail]
    · have hne : first ≠ key := Ne.symm hkey
      by_cases htail : tail = []
      · simp [htail, hlookup, hkey, hne, ihrest]
      · simp [find?_cons first htail, hlookup, hkey, hne, ihrest]

theorem mem_below_iff : (v : Value) → v.Proper → ∀ path ≠ [],
    path ∈ below v ↔ (v.entries?.bind (find? path)).isSome
  | .node _ _ entries, h, path, _ => mem_all_iff entries (Value.proper_node.mp h) path
  | .null, _, _, _ | .bool _, _, _, _ | .int _, _, _, _ | .float _, _, _, _ | .str _, _, _, _ | .list _, _, _, _ => by
    simp [below, Value.entries?]

end

theorem head_mem_of_mem_all (h : key :: path ∈ all entries) : key ∈ Ordered.keys entries := by
  obtain ⟨entry, hentry, hpath⟩ := mem_all_iff_exists.mp h
  have hkey : key = entry.1 := by
    rcases hpath with hpath | ⟨rest, -, hpath⟩
    · exact (List.cons.inj hpath).1
    · exact (List.cons.inj hpath).1
  exact hkey ▸ List.mem_map_of_mem hentry

mutual

theorem nodup_all : (entries : Entries) → ProperEntries entries → (all entries).Nodup
  | [], _ => List.nodup_nil
  | (key, v) :: rest, h => by
    obtain ⟨hfresh, hrest⟩ := Ordered.distinct_cons.mp h.1
    obtain ⟨hv, hproper⟩ := List.forall_mem_cons.mp h.2
    have hhere : ([key] :: (below v).map (key :: ·)).Nodup := by
      refine List.nodup_cons.mpr ⟨?_, (nodup_below v hv).map fun _ _ heq => (List.cons.inj heq).2⟩
      intro hmem
      obtain ⟨path, hpath, heq⟩ := List.mem_map.mp hmem
      exact ne_nil_of_mem_below hpath (List.cons.inj heq).2
    refine List.nodup_append.mpr ⟨hhere, nodup_all rest ⟨hrest, hproper⟩, ?_⟩
    intro path hpath other hother heq
    subst heq
    -- Paths of the first entry begin with its name, the others do not.
    have hhead : ∃ tail, path = key :: tail := by
      rcases List.mem_cons.mp hpath with rfl | hpath
      · exact ⟨[], rfl⟩
      · obtain ⟨tail, -, rfl⟩ := List.mem_map.mp hpath
        exact ⟨tail, rfl⟩
    obtain ⟨tail, rfl⟩ := hhead
    exact hfresh (head_mem_of_mem_all hother)

theorem nodup_below : (v : Value) → v.Proper → (below v).Nodup
  | .node _ _ entries, h => nodup_all entries (Value.proper_node.mp h)
  | .null, _ | .bool _, _ | .int _, _ | .float _, _ | .str _, _ | .list _, _ => List.nodup_nil

end

/-! ## Writing -/

theorem all_sublist_insert (h : ∀ old ∈ entries.lookup key, (below old).Sublist (below w)) :
    (all entries).Sublist (all (Ordered.insert key w entries)) := by
  induction entries with
  | nil => exact List.nil_sublist _
  | cons entry rest ih =>
    rw [Ordered.lookup_cons_eq] at h
    rw [Ordered.insert]
    by_cases hkey : entry.1 = key
    · rw [if_pos hkey] at h ⊢
      simp only [all, List.cons_append]
      rw [hkey]
      exact (((h entry.2 rfl).map (key :: ·)).append (List.Sublist.refl _)).cons_cons _
    · rw [if_neg hkey] at h ⊢
      simp only [all, List.cons_append]
      exact ((List.Sublist.refl _).append (ih h)).cons_cons _

/-- **A write of a leaf adds paths and keeps the others in their order.** -/
theorem all_sublist_write (hold : children? path entries = none)
    (hwrite : write scope v path entries = .ok written) : (all entries).Sublist (all written) := by
  induction path generalizing entries written with
  | nil =>
    rw [write] at hwrite
    exact Except.ok.inj hwrite ▸ List.Sublist.refl _
  | cons segment rest ih =>
    by_cases hrest : rest = []
    · subst hrest
      rw [write_singleton] at hwrite
      obtain rfl := Except.ok.inj hwrite
      apply all_sublist_insert
      intro old hlookup
      rw [children?_singleton, hlookup, Option.bind_some, Value.entries?_eq_none_iff] at hold
      rw [below_leaf hold]
      exact List.nil_sublist _
    · obtain ⟨n, children, hn, hchildren, rfl⟩ := (write_cons_eq_ok_iff hrest).mp hwrite
      rw [hn.children?_cons hrest] at hold
      apply all_sublist_insert
      intro old hlookup
      rcases hn with hn | ⟨hn, -⟩
      · obtain rfl := Option.some.inj (hn.symm.trans hlookup)
        exact ih hold hchildren
      · rw [hn] at hlookup
        contradiction

end Path

theorem lookup_pathTable_of_sublist {small large : Entries} {name : String} {path : List String}
    (h : (Path.all small).Sublist (Path.all large)) (hproper : ProperEntries large)
    (hlookup : (pathTable large).lookup name = some path) (hmem : path ∈ Path.all small) :
    (pathTable small).lookup name = some path := by
  rw [lookup_pathTable] at hlookup ⊢
  have hnodup : (Path.all large).reverse.Nodup := List.nodup_reverse.mpr (Path.nodup_all large hproper)
  exact find?_of_sublist h.reverse hnodup hlookup (List.mem_reverse.mpr hmem)

/-! ## What is recorded -/

section

variable {entries : Entries} {name : String} {path : List String}

theorem keys_pathTable (entries : Entries) :
    Ordered.keys (pathTable entries) = ((Path.all entries).map dotted).eraseDups := by
  rw [pathTable_eq, Ordered.keys_ofList, Ordered.keys, List.map_map]
  rfl

theorem mem_pathTable_iff :
    (name, path) ∈ pathTable entries ↔
      dotted path = name ∧
        ∃ before after, Path.all entries = before ++ path :: after ∧ ∀ other ∈ after, dotted other ≠ name := by
  have hlookup : (name, path) ∈ pathTable entries ↔ (pathTable entries).lookup name = some path :=
    ⟨Ordered.lookup_of_mem (distinct_pathTable entries), Ordered.mem_of_lookup⟩
  rw [hlookup, lookup_pathTable, List.find?_eq_some_iff_append, decide_eq_true_eq]
  refine and_congr_right fun _ => ⟨?_, ?_⟩
  · rintro ⟨after, before, hall, hafter⟩
    refine ⟨before.reverse, after.reverse, ?_, fun other hother => ?_⟩
    · rw [← List.reverse_inj, hall]
      simp
    · simpa using hafter other (List.mem_reverse.mp hother)
  · rintro ⟨before, after, hall, hafter⟩
    refine ⟨after.reverse, before.reverse, ?_, fun other hother => ?_⟩
    · rw [hall]
      simp
    · simpa using hafter other (List.mem_reverse.mp hother)

/-- Where no two paths have the same dotted form the table is the list of all paths. -/
theorem pathTable_of_injective (hproper : ProperEntries entries)
    (h : ∀ p ∈ Path.all entries, ∀ q ∈ Path.all entries, dotted p = dotted q → p = q) :
    pathTable entries = (Path.all entries).map Path.labelled := by
  have hdistinct : Ordered.Distinct ((Path.all entries).map Path.labelled) := by
    rw [Ordered.Distinct, Ordered.keys, List.map_map]
    exact (Path.nodup_all entries hproper).map_on h
  rw [pathTable_eq, Ordered.ofList_of_distinct hdistinct]

end

/-- **The table of a tree lists the dotted forms of all paths, and under each the last path that has it.** The forms are
in the order in which they first appear when every entry comes before those below it. So a path that is recorded leads
to a value and has the form it is recorded under, and all paths are recorded if no two have the same form. -/
theorem Node.mem_recursiveKeys_iff {n : Node} (hn : ProperEntries n.entries) :
    (∀ path, path ∈ Path.all n.entries ↔ Path.contains path n.entries = true) ∧
    Ordered.keys n.recursiveKeys = ((Path.all n.entries).map dotted).eraseDups ∧
    (∀ name path, (name, path) ∈ n.recursiveKeys ↔
      dotted path = name ∧
        ∃ before after, Path.all n.entries = before ++ path :: after ∧ ∀ other ∈ after, dotted other ≠ name) ∧
    (∀ name path, (name, path) ∈ n.recursiveKeys → Path.contains path n.entries = true ∧ dotted path = name) ∧
    ((∀ p ∈ Path.all n.entries, ∀ q ∈ Path.all n.entries, dotted p = dotted q → p = q) →
      n.recursiveKeys = (Path.all n.entries).map fun path => (dotted path, path)) := by
  have hcontains := Path.mem_all_iff n.entries hn
  refine ⟨hcontains, keys_pathTable n.entries, fun name path => mem_pathTable_iff, fun name path hmem => ?_,
    pathTable_of_injective hn⟩
  obtain ⟨hname, before, after, hall, -⟩ := mem_pathTable_iff.mp hmem
  exact ⟨(hcontains path).mp (hall ▸ by simp), hname⟩

/-- Two paths with the same dotted form, of which the deeper one comes first. -/
theorem Node.mem_recursiveKeys_shared_form :
    ∃ n : Node, ProperEntries n.entries ∧
      Path.all n.entries = [["a"], ["a", "b.c"], ["a.b"], ["a.b", "c"], ["a.b", "d"]] ∧
      Ordered.keys n.recursiveKeys = ["a", "a.b.c", "a.b", "a.b.d"] ∧
      ("a.b.c", ["a.b", "c"]) ∈ n.recursiveKeys ∧ Path.contains ["a.b", "c"] n.entries = true ∧
      ("a.b.c", ["a", "b.c"]) ∉ n.recursiveKeys ∧ Path.contains ["a", "b.c"] n.entries = true := by
  let n : Node := ⟨.loose, {}, [("a", .mapping [("b.c", .int 1)]), ("a.b", .mapping [("c", .null), ("d", .list [])])]⟩
  have hn : ProperEntries n.entries := by
    simp [n, ProperEntries, Value.mapping, Value.Proper, Value.Everywhere, Value.EverywhereEntries,
      Value.EverywhereItems, Ordered.keys, Ordered.Distinct]
  obtain ⟨hall, hkeys, hmem, hrecorded, -⟩ := Node.mem_recursiveKeys_iff hn
  have hlast : ("a.b.c", ["a.b", "c"]) ∈ n.recursiveKeys :=
    (hmem _ _).mpr ⟨rfl, [["a"], ["a", "b.c"], ["a.b"]], [["a.b", "d"]], rfl, by decide⟩
  exact ⟨n, hn, rfl, hkeys.trans (by decide), hlast, (hrecorded _ _ hlast).1, by decide, (hall _).mp (by decide)⟩

end LayeredConfig
