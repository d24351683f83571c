import LayeredConfig.Proofs.Mutation
import LayeredConfig.Proofs.Scope

/-!
# The levels of a tree

To a value at a path lead the levels of its tree: the entries of the root, and those of each mapping on the way
(`Path.level?`). What a path reads, and for what reason it reads nothing, is decided at the level where it leaves the
levels of another path (`find_append`). A write inserts one entry into each level on its way and leaves the others of
that level as they were (`level?_write`); a change of the last level replaces the mappings above it in their places
(`level?_modify`). So a path that lies apart from the one that is written to finds what it found before, unless it
leaves that path at a level that was made (`find_write_of_level?`, `find_write_of_made`). A path that lies apart from
several others leaves the last of them at one level as well (`exists_leavesAt`).
-/

namespace LayeredConfig

theorem map_eq_error_iff {α β ε : Type} {f : α → β} {x : Except ε α} {error : ε} :
    x.map f = .error error ↔ x = .error error := by
  cases x <;> simp [Except.map]

theorem Node.lookup_eq_some_iff {n : Node} {path : List String} {v : Value} :
    n.lookup path = .ok (some v) ↔ Path.find? path n.entries = some v :=
  ⟨find?_of_lookup, lookup_of_find?⟩

/-- A path that leads to the same, or fails for the same reason, reads the same. -/
theorem Node.lookup_congr {n m : Node} {path : List String} (hscope : m.scope = n.scope)
    (h : Path.find path m.entries = Path.find path n.entries) : m.lookup path = n.lookup path := by
  unfold lookup refuse
  rw [h, hscope]

theorem Node.lookup_of_find_eq_absent {n : Node} {path : List String} {missing : String}
    (h : Path.find path n.entries = .error (.absent missing)) : n.lookup path = n.refuse (.keyNotFound missing) := by
  rw [lookup, h]
  rfl

namespace Path

variable {scope : Scope} {v w : Value} {path other above rest : List String} {segment next : String}
  {entries written level : Entries}

/-- The entries of the mapping at a path; the empty path leads to the entries themselves. -/
def level? : List String → Entries → Option Entries
  | [], entries => some entries
  | segment :: rest, entries => ((entries.lookup segment).bind Value.entries?).bind (level? rest)

@[simp] theorem level?_nil (entries : Entries) : level? [] entries = some entries := rfl

theorem level?_cons (segment : String) (rest : List String) (entries : Entries) :
    level? (segment :: rest) entries = ((entries.lookup segment).bind Value.entries?).bind (level? rest) := rfl

theorem level?_eq_children? (h : path ≠ []) (entries : Entries) : level? path entries = children? path entries := by
  induction path generalizing entries with
  | nil => contradiction
  | cons segment rest ih =>
    rw [level?_cons]
    by_cases hrest : rest = []
    · rw [hrest, children?_singleton]
      exact Option.bind_fun_some _
    · rw [children?_cons segment hrest]
      exact congrArg _ (funext fun children => ih hrest children)

theorem level?_append (above rest : List String) (entries : Entries) :
    level? (above ++ rest) entries = (level? above entries).bind (level? rest) := by
  induction above generalizing entries with
  | nil => rfl
  | cons segment above ih =>
    rw [List.cons_append, level?_cons, level?_cons]
    cases (entries.lookup segment).bind Value.entries? with
    | none => rfl
    | some children => exact ih children

theorem isSome_level?_of_append (h : (level? (above ++ rest) entries).isSome) : (level? above entries).isSome := by
  rw [level?_append] at h
  exact Option.isSome_of_isSome_bind h

/-- No level is below another but by way of a mapping. -/
theorem level?_of_lookup {n : Node} (h : entries.lookup segment = some n.toValue) (rest : List String) :
    level? (segment :: rest) entries = level? rest n.entries := by
  rw [level?_cons, h]
  rfl

theorem level?_of_fresh (h : entries.lookup segment = none) (rest : List String) :
    level? (segment :: rest) entries = none := by
  rw [level?_cons, h]
  rfl

/-- There is a level at a path that is not empty exactly if there is a mapping. -/
theorem exists_node_of_level? (hpath : path ≠ []) (h : level? path entries = some level) :
    ∃ n : Node, find? path entries = some n.toValue ∧ n.entries = level := by
  rw [level?_eq_children? hpath, children?] at h
  obtain ⟨v, hfind, hv⟩ := Option.bind_eq_some_iff.mp h
  cases v with
  | node scope provenance children => exact ⟨⟨scope, provenance, children⟩, hfind, Option.some.inj hv⟩
  | _ => contradiction

/-! ## Reading level by level -/

theorem find?_append_singleton (above : List String) (segment : String) (entries : Entries) :
    find? (above ++ [segment]) entries = (level? above entries).bind (·.lookup segment) := by
  by_cases h : above = []
  · subst h
    exact find?_singleton segment entries
  · rw [find?_append h (List.cons_ne_nil _ _), level?_eq_children? h]
    exact congrArg _ (funext (find?_singleton segment))

theorem find_cons (segment : String) (h : rest ≠ []) (entries : Entries) :
    find (segment :: rest) entries =
      match entries.lookup segment with
      | some (.node _ _ children) => find rest children
      | some _ => .error (.blocked segment)
      | none => .error (.absent segment) := by
  cases rest with
  | nil => contradiction
  | cons next rest => rfl

theorem find_of_fresh (h : entries.lookup segment = none) (rest : List String) :
    find (segment :: rest) entries = .error (.absent segment) := by
  by_cases hrest : rest = []
  · rw [hrest, find, h]
  · rw [find_cons segment hrest, h]

/-- Where a path leads is decided by the entry of its first segment. -/
theorem find_congr {others : Entries} (h : entries.lookup segment = others.lookup segment) (rest : List String) :
    find (segment :: rest) entries = find (segment :: rest) others := by
  by_cases hrest : rest = []
  · rw [hrest, find, find, h]
  · rw [find_cons segment hrest, find_cons segment hrest, h]

/-- **What is below a level is read from it**, and fails there for the same reason. -/
theorem find_append (h : level? above entries = some level) (hrest : rest ≠ []) :
    find (above ++ rest) entries = find rest level := by
  induction above generalizing entries with
  | nil => rw [List.nil_append, Option.some.inj h]
  | cons segment above ih =>
    obtain ⟨children, hchildren, hlevel⟩ := Option.bind_eq_some_iff.mp h
    obtain ⟨u, hlookup, hu⟩ := Option.bind_eq_some_iff.mp hchildren
    rw [List.cons_append, find_cons segment (by simp [hrest]), hlookup]
    cases u with
    | node scope provenance below =>
      obtain rfl := Option.some.inj hu
      exact ih hlevel
    | _ => contradiction

/-- Two trees that have a level each, with the same entry in it, lead a path through that entry to the same. -/
theorem find_append_congr {others kept : Entries} (h : level? above entries = some level)
    (h' : level? above others = some kept) (hlookup : kept.lookup segment = level.lookup segment) (rest : List String) :
    find (above ++ segment :: rest) others = find (above ++ segment :: rest) entries := by
  rw [find_append h' (List.cons_ne_nil _ _), find_append h (List.cons_ne_nil _ _)]
  exact find_congr hlookup rest

/-- Where a level is missing and no leaf is in the way, what is missing is one of the segments that lead to it. -/
theorem find_of_level?_eq_none (h : level? above entries = none)
    (hfree : ∀ start, start <+: above → leaf? start entries = none) (hrest : rest ≠ []) :
    ∃ missing ∈ above, find (above ++ rest) entries = .error (.absent missing) := by
  induction above generalizing entries with
  | nil => contradiction
  | cons segment above ih =>
    cases hlookup : entries.lookup segment with
    | none => exact ⟨segment, List.mem_cons_self, find_of_fresh hlookup _⟩
    | some u =>
      have hnode := hfree [segment] (by simp)
      rw [leaf?_singleton, hlookup] at hnode
      cases u with
      | node scope provenance children =>
        rw [level?_cons, hlookup] at h
        have hbelow : ∀ start, start <+: above → leaf? start children = none := by
          intro start hstart
          by_cases hnil : start = []
          · rw [hnil, leaf?_nil]
          · have hleaf := hfree (segment :: start) (by simpa using hstart)
            rwa [leaf?_cons segment hnil, hlookup] at hleaf
        obtain ⟨missing, hmem, hfind⟩ := ih h hbelow
        refine ⟨missing, List.mem_cons_of_mem _ hmem, ?_⟩
        rw [List.cons_append, find_cons segment (by simp [hrest]), hlookup]
        exact hfind
      | _ => contradiction

/-! ## Paths beside each other -/

/-- Two paths lead the same way through `above`; there `other` goes on with `segment`, and `path` with another. -/
structure PartAt (path other above : List String) (segment : String) : Prop where
  path : ∃ next rest, path = above ++ next :: rest ∧ segment ≠ next
  other : ∃ rest, other = above ++ segment :: rest

theorem PartAt.cons {first : String} (h : PartAt path other above segment) :
    PartAt (first :: path) (first :: other) (first :: above) segment := by
  obtain ⟨⟨next, rest, rfl, hne⟩, below, rfl⟩ := h
  exact ⟨⟨next, rest, rfl, hne⟩, below, rfl⟩

/-- Paths of which neither is at or above the other part somewhere. -/
theorem exists_partAt (h : Apart path other) : ∃ above segment, PartAt path other above segment := by
  induction path generalizing other with
  | nil => exact absurd rfl h.ne_nil.1
  | cons next rest ih =>
    obtain ⟨first, tail, rfl⟩ := List.exists_cons_of_ne_nil h.ne_nil.2
    by_cases hfirst : first = next
    · subst hfirst
      obtain ⟨above, segment, hpart⟩ := ih h.of_cons
      exact ⟨first :: above, segment, hpart.cons⟩
    · exact ⟨[], first, ⟨next, rest, rfl, hfirst⟩, tail, rfl⟩

/-- Two beginnings of one path, each with the segment that follows it. -/
theorem starts_or_starts {start : List String} {first : String} {below tail : List String}
    (h : above ++ segment :: below = start ++ first :: tail) : start <+: above ∨ above ++ [segment] <+: start := by
  rcases List.append_eq_append_iff.mp h with ⟨middle, rfl, hrest⟩ | ⟨middle, rfl, -⟩
  · cases middle with
    | nil => exact Or.inl (by simp)
    | cons next middle =>
      obtain ⟨rfl, -⟩ := List.cons.inj hrest
      exact Or.inr (by simp)
  · exact Or.inl (List.prefix_append _ _)

/-- A path leaves some others for good: one of them leads through `above`, unless that is the root, and none of them
goes on with `segment` as it does. -/
structure LeavesAt (paths : List (List String)) (other above : List String) (segment : String) : Prop where
  other : ∃ below, other = above ++ segment :: below
  shared : above = [] ∨ ∃ path ∈ paths, above <+: path
  parted : ∀ path ∈ paths, ¬ above ++ [segment] <+: path

/-- A path that is not at, above or below any of some others leaves them somewhere. -/
theorem exists_leavesAt {paths : List (List String)} (hother : other ≠ []) (h : ∀ path ∈ paths, Apart path other) :
    ∃ above segment, LeavesAt paths other above segment := by
  induction paths with
  | nil =>
    obtain ⟨segment, below, rfl⟩ := List.exists_cons_of_ne_nil hother
    exact ⟨[], segment, ⟨below, rfl⟩, Or.inl rfl, by simp⟩
  | cons path paths ih =>
    obtain ⟨hpath, hpaths⟩ := List.forall_mem_cons.mp h
    obtain ⟨above, segment, ⟨below, hbelow⟩, hshared, hparted⟩ := ih hpaths
    by_cases hon : above ++ [segment] <+: path
    · -- This one leads further than the others, to where the path leaves it.
      obtain ⟨start, first, ⟨next, rest, rfl, hne⟩, tail, htail⟩ := exists_partAt hpath
      refine ⟨start, first, ⟨tail, htail⟩, Or.inr ⟨_, List.mem_cons_self, List.prefix_append _ _⟩, ?_⟩
      have hleaves : ¬ start ++ [first] <+: start ++ next :: rest := by
        rw [List.prefix_append_right_inj]
        simpa using hne
      have hfar : above ++ [segment] <+: start := by
        refine (starts_or_starts (hbelow.symm.trans htail)).resolve_left fun hstart => hleaves ?_
        have hfirst : start ++ [first] <+: other := ⟨tail, by simp [htail]⟩
        have hsegment : above ++ [segment] <+: other := ⟨below, by simp [hbelow]⟩
        exact (List.prefix_of_prefix_length_le hfirst hsegment (by simpa using hstart.length_le)).trans hon
      refine List.forall_mem_cons.mpr ⟨hleaves, fun path hpath hstart => hparted path hpath ?_⟩
      exact hfar.trans ((List.prefix_append _ _).trans hstart)
    · refine ⟨above, segment, ⟨below, hbelow⟩, ?_, List.forall_mem_cons.mpr ⟨hon, hparted⟩⟩
      exact hshared.imp_right fun ⟨path, hmem, hstarts⟩ => ⟨path, List.mem_cons_of_mem _ hmem, hstarts⟩

/-! ## Writing -/

theorem find?_write_self (hpath : path ≠ []) (hwrite : write scope v path entries = .ok written) :
    find? path written = some v := by
  induction path generalizing entries written with
  | nil => contradiction
  | cons segment rest ih =>
    by_cases hrest : rest = []
    · subst hrest
      rw [write_singleton] at hwrite
      rw [← Except.ok.inj hwrite, find?_singleton, Ordered.lookup_insert_self]
    · obtain ⟨n, children, -, hchildren, rfl⟩ := (write_cons_eq_ok_iff hrest).mp hwrite
      rw [(enters_insert scope segment { n with entries := children } entries).find?_cons hrest]
      exact ih hrest hchildren

/-- **A write inserts one entry into each level on its way**, into an empty one where there was none. -/
theorem level?_write (hwrite : write scope v (above ++ segment :: rest) entries = .ok written) :
    ∃ u, level? above written = some (Ordered.insert segment u ((level? above entries).getD [])) := by
  induction above generalizing entries written with
  | nil =>
    obtain ⟨u, rfl⟩ := exists_insert_of_write hwrite
    exact ⟨u, rfl⟩
  | cons first above ih =>
    obtain ⟨n, children, hn, hchildren, rfl⟩ := (write_cons_eq_ok_iff (by simp)).mp hwrite
    obtain ⟨u, hu⟩ := ih hchildren
    refine ⟨u, ?_⟩
    rw [level?_of_lookup (n := { n with entries := children }) (Ordered.lookup_insert_self _ _ _), hu]
    rcases hn with hn | ⟨hn, rfl⟩
    · rw [level?_of_lookup hn]
    · rw [level?_of_fresh hn]
      cases above with
      | nil => rfl
      | cons next above => rfl

/-- Beside the levels that a write makes, a path leads where it led before. -/
theorem find_write_of_level? (hne : segment ≠ next) (hlevel : level? above entries = some level)
    (hwrite : write scope v (above ++ next :: rest) entries = .ok written) (below : List String) :
    find (above ++ segment :: below) written = find (above ++ segment :: below) entries := by
  obtain ⟨u, hu⟩ := level?_write hwrite
  rw [hlevel, Option.getD_some] at hu
  exact find_append_congr hlevel hu (Ordered.lookup_insert_of_ne hne u level) below

/-- At a level that a write makes, there is one entry, and every other is missing. -/
theorem find_write_of_made (hne : segment ≠ next) (hlevel : level? above entries = none)
    (hwrite : write scope v (above ++ next :: rest) entries = .ok written) (below : List String) :
    find (above ++ segment :: below) written = .error (.absent segment) := by
  obtain ⟨u, hu⟩ := level?_write hwrite
  rw [hlevel, Option.getD_none] at hu
  rw [find_append hu (List.cons_ne_nil _ _)]
  exact find_of_fresh (Ordered.lookup_insert_of_ne hne u []) below

/-- A write makes no levels but on its path. -/
theorem level?_of_write (hv : v.entries? = none) (hpath : path ≠ [])
    (hwrite : write scope v path entries = .ok written) (h : (level? other written).isSome) :
    (level? other entries).isSome ∨ other <+: path := by
  by_cases hother : other = []
  · exact Or.inl (hother ▸ rfl)
  by_cases habove : other <+: path
  · exact Or.inr habove
  by_cases hbelow : path <+: other
  · -- There is nothing below what is written.
    obtain ⟨rest, rfl⟩ := hbelow
    have hself := isSome_level?_of_append h
    rw [level?_eq_children? hpath, children?, find?_write_self hpath hwrite, Option.bind_some, hv] at hself
    contradiction
  have hapart : Apart path other := ⟨hbelow, habove⟩
  obtain ⟨above, segment, ⟨next, rest, rfl, hne⟩, tail, rfl⟩ := exists_partAt hapart
  rw [level?_eq_children? hother, children?, find?] at h ⊢
  cases hlevel : level? above entries with
  | some level => exact Or.inl (find_write_of_level? hne hlevel hwrite tail ▸ h)
  | none =>
    rw [find_write_of_made hne hlevel hwrite tail] at h
    contradiction

/-! ## What is in the way -/

/-- A leaf above the end of a path. -/
structure InTheWay (entries : Entries) (path above : List String) : Prop where
  starts : above <+: path
  proper : above ≠ path
  leaf : (leaf? above entries).isSome

/-- There is at most one leaf on a path. -/
theorem InTheWay.unique (h : InTheWay entries path above) (h' : InTheWay entries path other) : above = other := by
  obtain ⟨u, hu⟩ := Option.isSome_iff_exists.mp h.leaf
  obtain ⟨w, hw⟩ := Option.isSome_iff_exists.mp h'.leaf
  by_contra hne
  obtain ⟨hnot, hnot'⟩ := apart_of_leaf? hu hw hne
  rcases List.prefix_or_prefix_of_prefix h.starts h'.starts with hstarts | hstarts
  · exact hnot hstarts
  · exact hnot' hstarts

theorem InTheWay.ne_nil (h : InTheWay entries path above) : above ≠ [] := by
  rintro rfl
  exact absurd h.leaf (by simp)

theorem not_inTheWay_singleton : ¬ InTheWay entries [segment] above := fun h =>
  h.proper (eq_singleton_of_begins h.ne_nil h.starts)

theorem not_inTheWay_of_fresh {first : String} (h : entries.lookup first = none) :
    ¬ InTheWay entries (first :: rest) above := by
  rintro ⟨hstarts, -, hleaf⟩
  rcases List.prefix_cons_iff.mp hstarts with rfl | ⟨tail, rfl, -⟩
  · contradiction
  · rw [leaf?, find?, find_of_fresh h] at hleaf
    contradiction

/-- What is in the way below a mapping is in the way of a path through it. -/
theorem inTheWay_cons_iff {first : String} {n : Node} (h : entries.lookup first = some n.toValue) :
    InTheWay entries (first :: rest) above ↔ ∃ tail, above = first :: tail ∧ InTheWay n.entries rest tail := by
  have hhere : leaf? [first] entries = none := by
    rw [leaf?_singleton, h]
    rfl
  have hbelow : ∀ tail ≠ [], leaf? (first :: tail) entries = leaf? tail n.entries := by
    intro tail htail
    rw [leaf?_cons first htail, h]
    rfl
  constructor
  · rintro ⟨hstarts, hproper, hleaf⟩
    rcases List.prefix_cons_iff.mp hstarts with rfl | ⟨tail, rfl, htail⟩
    · contradiction
    · have hne : tail ≠ [] := by
        rintro rfl
        rw [hhere] at hleaf
        contradiction
      exact ⟨tail, rfl, htail, fun he => hproper (he ▸ rfl), hbelow tail hne ▸ hleaf⟩
  · rintro ⟨tail, rfl, htail⟩
    refine ⟨by simpa using htail.starts, fun he => htail.proper (List.cons.inj he).2, ?_⟩
    rw [hbelow tail htail.ne_nil]
    exact htail.leaf

theorem inTheWay_cons_iff_of_leaf {first : String} (h : entries.lookup first = some v) (hv : v.isNode = false)
    (hrest : rest ≠ []) : InTheWay entries (first :: rest) above ↔ above = [first] := by
  have hfirst : InTheWay entries (first :: rest) [first] := by
    refine ⟨by simp, by simpa using Ne.symm hrest, ?_⟩
    rw [leaf?_singleton, h]
    simp [hv]
  exact ⟨fun h => h.unique hfirst, fun he => he ▸ hfirst⟩

/-- The leaf in the way below a mapping has the same last segment in the way of a path through it. -/
theorem exists_inTheWay_cons_iff {first : String} {n : Node} (h : entries.lookup first = some n.toValue) :
    (∃ above, InTheWay entries (first :: rest) (above ++ [segment])) ↔
      ∃ above, InTheWay n.entries rest (above ++ [segment]) := by
  simp only [inTheWay_cons_iff h]
  constructor
  · rintro ⟨above, tail, heq, htail⟩
    rcases above with _ | ⟨start, above⟩
    · obtain rfl : [] = tail := (List.cons.inj heq).2
      exact absurd rfl htail.ne_nil
    · obtain rfl : above ++ [segment] = tail := (List.cons.inj heq).2
      exact ⟨above, htail⟩
  · rintro ⟨above, htail⟩
    exact ⟨first :: above, above ++ [segment], rfl, htail⟩

theorem exists_inTheWay_cons_iff_of_leaf {first : String} (h : entries.lookup first = some v) (hv : v.isNode = false)
    (hrest : rest ≠ []) : (∃ above, InTheWay entries (first :: rest) (above ++ [segment])) ↔ first = segment := by
  simp only [inTheWay_cons_iff_of_leaf h hv hrest]
  constructor
  · rintro ⟨above, heq⟩
    have hlast := congrArg List.getLast? heq
    simpa using hlast.symm
  · rintro rfl
    exact ⟨[], rfl⟩

theorem write_cons_of_leaf {first : String} (h : entries.lookup first = some w) (hw : w.isNode = false)
    (hrest : rest ≠ []) : write scope v (first :: rest) entries = .error first := by
  rw [write_cons first hrest, h]
  cases w with
  | node => contradiction
  | _ => rfl

/-- **A write fails exactly at the leaf that is in its way.** -/
theorem write_eq_error_iff : write scope v path entries = .error segment ↔
    ∃ above, InTheWay entries path (above ++ [segment]) := by
  induction path generalizing entries with
  | nil =>
    refine iff_of_false (by rw [write]; simp) ?_
    rintro ⟨above, h⟩
    exact h.ne_nil (List.prefix_nil.mp h.starts)
  | cons first rest ih =>
    by_cases hrest : rest = []
    · subst hrest
      rw [write_singleton]
      refine iff_of_false (by simp) ?_
      rintro ⟨above, h⟩
      exact not_inTheWay_singleton h
    cases hlookup : entries.lookup first with
    | none =>
      -- What is made on the way has nothing in it that could be in the way.
      obtain ⟨written, hwritten⟩ := exists_write_empty scope v rest
      rw [write_cons first hrest, hlookup]
      refine iff_of_false (by simp [hwritten, Except.map]) ?_
      rintro ⟨above, h⟩
      exact not_inTheWay_of_fresh hlookup h
    | some old =>
      cases hold : old.isNode with
      | true =>
        cases old with
        | node inner provenance children =>
          rw [exists_inTheWay_cons_iff (n := ⟨inner, provenance, children⟩) hlookup, write_cons first hrest, hlookup,
            map_eq_error_iff]
          exact ih
        | _ => contradiction
      | false =>
        rw [write_cons_of_leaf hlookup hold hrest, exists_inTheWay_cons_iff_of_leaf hlookup hold hrest,
          Except.error.injEq]

/-! ## Changing the last level -/

/-- **A change of a level shows in each level above it**, as the same change further down. -/
theorem level?_modify (f : Entries → Entries) (above rest : List String) (entries : Entries) :
    level? above (modify f (above ++ rest) entries) = (level? above entries).map (modify f rest) := by
  induction above generalizing entries with
  | nil => rfl
  | cons segment above ih =>
    rw [List.cons_append, modify]
    split
    · next scope provenance children hlookup =>
      have hchanged := level?_of_lookup (n := ⟨scope, provenance, modify f (above ++ rest) children⟩)
        (Ordered.lookup_insert_self segment _ entries) above
      rw [level?_of_lookup (n := ⟨scope, provenance, children⟩) hlookup, ← ih children]
      exact hchanged
    · next hnone =>
      rw [level?_cons]
      cases hlookup : entries.lookup segment with
      | none => rfl
      | some u =>
        cases u with
        | node scope provenance children => exact absurd hlookup (hnone scope provenance children)
        | _ => rfl

theorem level?_modify_self (f : Entries → Entries) (h : level? path entries = some level) :
    level? path (modify f path entries) = some (f level) := by
  have hkept := level?_modify f path [] entries
  rwa [List.append_nil, h] at hkept

theorem find?_modify_above (f : Entries → Entries) {n : Node} (h : find? above entries = some n.toValue)
    (rest : List String) :
    find? above (modify f (above ++ rest) entries) = some { n with entries := modify f rest n.entries }.toValue := by
  induction above generalizing entries with
  | nil => contradiction
  | cons segment above ih =>
    by_cases habove : above = []
    · subst habove
      rw [find?_singleton] at h
      rw [List.singleton_append, modify_cons h, find?_singleton, Ordered.lookup_insert_self]
      rfl
    · rw [find?_cons segment habove] at h
      obtain ⟨children, hchildren, hfind⟩ := Option.bind_eq_some_iff.mp h
      obtain ⟨u, hlookup, hu⟩ := Option.bind_eq_some_iff.mp hchildren
      cases u with
      | node scope provenance below =>
        obtain rfl := Option.some.inj hu
        rw [List.cons_append, modify_cons hlookup, find?_cons segment habove, Ordered.lookup_insert_self]
        exact ih hfind
      | _ => contradiction

theorem keys_modify_cons (f : Entries → Entries) (segment : String) (rest : List String) (entries : Entries) :
    Ordered.keys (modify f (segment :: rest) entries) = Ordered.keys entries := by
  rw [modify]
  split
  · next scope provenance children hlookup =>
    rw [Ordered.keys_insert, if_pos (Ordered.key_mem_of_mem (Ordered.mem_of_lookup hlookup))]
  · rfl

theorem lookup_modify_of_ne (f : Entries → Entries) (hne : segment ≠ next) (rest : List String) (entries : Entries) :
    (modify f (next :: rest) entries).lookup segment = entries.lookup segment := by
  rw [modify]
  split
  · exact Ordered.lookup_insert_of_ne hne _ _
  · rfl

/-- A level that a change leaves as it is, is left with all above it. -/
theorem modify_eq_self {f : Entries → Entries} (h : level? path entries = some level) (hf : f level = level) :
    modify f path entries = entries := by
  induction path generalizing entries with
  | nil =>
    obtain rfl := Option.some.inj h
    exact hf
  | cons segment rest ih =>
    obtain ⟨children, hchildren, hlevel⟩ := Option.bind_eq_some_iff.mp h
    obtain ⟨u, hlookup, hu⟩ := Option.bind_eq_some_iff.mp hchildren
    cases u with
    | node scope provenance below =>
      obtain rfl := Option.some.inj hu
      rw [modify_cons hlookup, ih hlevel, Ordered.insert_of_lookup hlookup]
    | _ => contradiction

theorem modify_modify (f g : Entries → Entries) (path : List String) (entries : Entries) :
    modify f path (modify g path entries) = modify (f ∘ g) path entries := by
  induction path generalizing entries with
  | nil => rfl
  | cons segment rest ih =>
    cases hlookup : entries.lookup segment with
    | none => simp [modify, hlookup]
    | some u =>
      cases u with
      | node scope provenance children =>
        rw [modify_cons hlookup, modify_cons (Ordered.lookup_insert_self _ _ _), ih, modify_cons hlookup,
          Ordered.insert_insert]
      | _ => simp [modify, hlookup]

/-- A write into a level that is there is an insertion into it. -/
theorem write_eq_modify (h : (level? above entries).isSome) (scope : Scope) (v : Value) (segment : String) :
    write scope v (above ++ [segment]) entries = .ok (modify (Ordered.insert segment v) above entries) := by
  induction above generalizing entries with
  | nil => exact write_singleton scope v segment entries
  | cons first above ih =>
    obtain ⟨u, hlookup, hu⟩ := Option.bind_eq_some_iff.mp
      (Option.isSome_iff_exists.mp (Option.isSome_of_isSome_bind h)).choose_spec
    cases u with
    | node inner provenance children =>
      rw [level?_of_lookup (n := ⟨inner, provenance, children⟩) hlookup] at h
      rw [List.cons_append, write_cons first (by simp), hlookup, modify_cons hlookup]
      simp only [ih h, Except.map]
    | _ => contradiction

end Path

/-- The names of each level are distinct. -/
theorem ProperEntries.of_level? {path : List String} {entries level : Entries} (h : ProperEntries entries)
    (hlevel : Path.level? path entries = some level) : ProperEntries level := by
  induction path generalizing entries with
  | nil => exact Option.some.inj hlevel ▸ h
  | cons segment rest ih =>
    obtain ⟨children, hchildren, hbelow⟩ := Option.bind_eq_some_iff.mp hlevel
    obtain ⟨u, hlookup, hu⟩ := Option.bind_eq_some_iff.mp hchildren
    cases u with
    | node scope provenance below =>
      obtain rfl := Option.some.inj hu
      exact ih (Value.proper_node.mp (h.of_lookup hlookup)) hbelow
    | _ => contradiction

end LayeredConfig
