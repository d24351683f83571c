import LayeredConfig.Node
import LayeredConfig.Proofs.Ordered

/-!
# Laws of paths

A tree is known by two views: the leaves at its paths (`leaf?`), which are the values that are no
mappings, and the mappings at its paths (`children?`). Writing a leaf where there was a leaf or
nothing changes the first view at the path written to and nowhere else (`leaf?_write`). The second
view only grows, and no mapping becomes empty.
-/

namespace LayeredConfig

/-- The entries of a mapping. -/
def Value.entries? : Value → Option Entries
  | .node _ _ entries => some entries
  | _ => none

theorem Value.entries?_eq_none_iff {v : Value} : v.entries? = none ↔ v.isNode = false := by
  cases v <;> simp [Value.entries?, Value.isNode, Value.kind]

namespace Path

variable {scope : Scope} {v : Value} {path other : List String} {entries written : Entries}

/-- The value at a path, unless it is a mapping. -/
def leaf? (path : List String) (entries : Entries) : Option Value :=
  (find? path entries).filter fun v => !v.isNode

/-- The entries of the mapping at a path. -/
def children? (path : List String) (entries : Entries) : Option Entries :=
  (find? path entries).bind Value.entries?

/-! ## Reading -/

@[simp] theorem find?_nil (entries : Entries) : find? [] entries = none := rfl

@[simp] theorem find?_singleton (segment : String) (entries : Entries) :
    find? [segment] entries = entries.lookup segment := by
  rw [find?, find]
  cases entries.lookup segment <;> rfl

theorem find?_cons (segment : String) {rest : List String} (h : rest ≠ []) (entries : Entries) :
    find? (segment :: rest) entries =
      ((entries.lookup segment).bind Value.entries?).bind (find? rest) := by
  rw [find?, find]
  · rcases entries.lookup segment with _ | v
    · rfl
    · cases v <;> rfl
  · exact h

theorem find?_empty (path : List String) : find? path [] = none := by
  rcases path with _ | ⟨segment, _ | ⟨next, rest⟩⟩
  · rfl
  · rfl
  · rw [find?_cons segment (List.cons_ne_nil _ _)]
    rfl

@[simp] theorem leaf?_nil (entries : Entries) : leaf? [] entries = none := rfl

theorem leaf?_singleton (segment : String) (entries : Entries) :
    leaf? [segment] entries = (entries.lookup segment).filter fun v => !v.isNode := by
  rw [leaf?, find?_singleton]

theorem leaf?_cons (segment : String) {rest : List String} (h : rest ≠ []) (entries : Entries) :
    leaf? (segment :: rest) entries =
      ((entries.lookup segment).bind Value.entries?).bind (leaf? rest) := by
  rw [leaf?, find?_cons segment h]
  rcases (entries.lookup segment).bind Value.entries? with _ | children <;> rfl

@[simp] theorem children?_nil (entries : Entries) : children? [] entries = none := rfl

theorem children?_singleton (segment : String) (entries : Entries) :
    children? [segment] entries = (entries.lookup segment).bind Value.entries? := by
  rw [children?, find?_singleton]

theorem children?_cons (segment : String) {rest : List String} (h : rest ≠ []) (entries : Entries) :
    children? (segment :: rest) entries =
      ((entries.lookup segment).bind Value.entries?).bind (children? rest) := by
  rw [children?, find?_cons segment h]
  rcases (entries.lookup segment).bind Value.entries? with _ | children <;> rfl

/-- What is below a path is in the mapping there. -/
theorem find?_append (hpath : path ≠ []) {rest : List String} (hrest : rest ≠ []) (entries : Entries) :
    find? (path ++ rest) entries = (children? path entries).bind (find? rest) := by
  induction path generalizing entries with
  | nil => exact absurd rfl hpath
  | cons segment tail ih =>
    rw [List.cons_append, find?_cons segment (by simp [hrest])]
    by_cases htail : tail = []
    · rw [htail, children?_singleton, List.nil_append]
    · rw [children?_cons segment htail]
      cases (entries.lookup segment).bind Value.entries? with
      | none => rfl
      | some children => exact ih htail children

theorem isSome_children?_of_append {rest : List String} (hpath : path ≠ []) (hrest : rest ≠ [])
    (h : (find? (path ++ rest) entries).isSome) : (children? path entries).isSome := by
  rw [find?_append hpath hrest] at h
  exact Option.isSome_of_isSome_bind h

theorem leaf?_eq_some_iff : leaf? path entries = some v ↔ find? path entries = some v ∧ v.isNode = false := by
  rw [leaf?, Option.filter_eq_some_iff, Bool.not_eq_true']

theorem children?_eq_none (h : ∀ v ∈ find? path entries, v.isNode = false) : children? path entries = none := by
  rw [children?]
  cases hfind : find? path entries with
  | none => rfl
  | some v => exact Value.entries?_eq_none_iff.mpr (h v hfind)

/-- What is no mapping is a leaf or nothing. -/
theorem find?_eq_leaf? (h : ∀ v ∈ find? path entries, v.isNode = false) :
    find? path entries = leaf? path entries := by
  rw [leaf?]
  rcases hfind : find? path entries with _ | v
  · rfl
  · rw [Option.filter_some, h v hfind]
    rfl

/-- A map of values under which mappings stay mappings, with their entries mapped, maps what stands at a path. -/
theorem find_map {φ : Value → Value}
    (h : ∀ v, (φ v).entries? = v.entries?.map (List.map fun entry => (entry.1, φ entry.2))) (path : List String)
    (entries : Entries) : find path (entries.map fun entry => (entry.1, φ entry.2)) = (find path entries).map φ := by
  have hlookup (key : String) (entries : Entries) := Ordered.lookup_map (fun _ => φ) key entries
  induction path generalizing entries with
  | nil => rfl
  | cons segment rest ih =>
    cases rest with
    | nil =>
      rw [find, find, hlookup]
      cases entries.lookup segment <;> rfl
    | cons next rest =>
      rw [find, find, hlookup]
      · cases entries.lookup segment with
        | none => rfl
        | some v =>
          have hv := h v
          cases hφ : φ v with
          | node scope provenance children =>
            rw [hφ] at hv
            obtain ⟨below, hbelow, hchildren⟩ := Option.map_eq_some_iff.mp hv.symm
            cases v with
            | node scope provenance entries =>
              obtain rfl := Option.some.inj hbelow
              simp only [Option.map_some, hφ]
              rw [← hchildren]
              exact ih entries
            | _ => contradiction
          | _ =>
            rw [hφ] at hv
            have hnone := Option.map_eq_none_iff.mp hv.symm
            cases v with
            | node => contradiction
            | _ =>
              simp only [Option.map_some, hφ]
              rfl
      · simp
      · simp

/-! ## Writing -/

/-- What a write goes on in at a segment: the mapping there, or a new one. -/
def Enters (scope : Scope) (segment : String) (entries : Entries) (n : Node) : Prop :=
  entries.lookup segment = some n.toValue ∨ entries.lookup segment = none ∧ n = .empty scope

theorem write_singleton (scope : Scope) (v : Value) (segment : String) (entries : Entries) :
    write scope v [segment] entries = .ok (Ordered.insert segment v entries) := by rw [write]

/-- A write below a segment is a write in the mapping there. -/
theorem write_cons_eq_ok_iff {segment : String} {rest : List String} (h : rest ≠ []) :
    write scope v (segment :: rest) entries = .ok written ↔
      ∃ n children, Enters scope segment entries n ∧ write scope v rest n.entries = .ok children ∧
        written = Ordered.insert segment { n with entries := children }.toValue entries := by
  rw [write]
  · unfold Enters
    rcases hlookup : entries.lookup segment with _ | old
    · cases hwrite : write scope v rest [] <;>
        simp [Except.map, hwrite, Node.empty, Node.toValue, eq_comm]
    · cases old with
      | node inner provenance children =>
        constructor
        · intro hok
          cases hwrite : write scope v rest children with
          | error segment => simp [Except.map, hwrite] at hok
          | ok children' =>
            simp only [Except.map, hwrite, Except.ok.injEq] at hok
            exact ⟨⟨inner, provenance, children⟩, children', Or.inl rfl, hwrite, hok.symm⟩
        · rintro ⟨n, children', hn | ⟨hn, -⟩, hwrite, rfl⟩
          · obtain ⟨rfl, rfl, rfl⟩ : inner = n.scope ∧ provenance = n.provenance ∧ children = n.entries := by
              simpa [Node.toValue] using hn
            simp [Except.map, hwrite, Node.toValue]
          · contradiction
      | _ => simp [Node.toValue]
  · exact h

section enters

variable {segment : String} {n : Node} (hn : Enters scope segment entries n)

include hn

theorem Enters.find?_cons {rest : List String} (h : rest ≠ []) :
    find? (segment :: rest) entries = find? rest n.entries := by
  rw [Path.find?_cons segment h]
  rcases hn with hn | ⟨hn, rfl⟩
  · rw [hn]
    rfl
  · rw [hn]
    exact (find?_empty rest).symm

theorem Enters.leaf?_cons {rest : List String} (h : rest ≠ []) :
    leaf? (segment :: rest) entries = leaf? rest n.entries := by
  rw [leaf?, hn.find?_cons h, leaf?]

theorem Enters.children?_cons {rest : List String} (h : rest ≠ []) :
    children? (segment :: rest) entries = children? rest n.entries := by
  rw [children?, hn.find?_cons h, children?]

theorem Enters.leaf?_singleton : leaf? [segment] entries = none := by
  rw [Path.leaf?_singleton]
  rcases hn with hn | ⟨hn, -⟩
  · rw [hn]
    rfl
  · rw [hn]
    rfl

end enters

/-- The mapping that a write leaves at a segment. -/
theorem enters_insert (scope : Scope) (segment : String) (n : Node) (entries : Entries) :
    Enters scope segment (Ordered.insert segment n.toValue entries) n :=
  Or.inl (Ordered.lookup_insert_self _ _ _)

theorem find?_insert_of_ne {segment other : String} (h : other ≠ segment) (v : Value)
    (rest : List String) (entries : Entries) :
    find? (other :: rest) (Ordered.insert segment v entries) = find? (other :: rest) entries := by
  rcases rest with _ | ⟨next, rest⟩
  · simp only [find?_singleton, Ordered.lookup_insert_of_ne h]
  · simp only [find?_cons other (List.cons_ne_nil _ _), Ordered.lookup_insert_of_ne h]

theorem exists_insert_of_write {segment : String} {rest : List String}
    (h : write scope v (segment :: rest) entries = .ok written) :
    ∃ w, written = Ordered.insert segment w entries := by
  by_cases hrest : rest = []
  · subst hrest
    rw [write_singleton] at h
    exact ⟨v, (Except.ok.inj h).symm⟩
  · obtain ⟨n, children, -, -, rfl⟩ := (write_cons_eq_ok_iff hrest).mp h
    exact ⟨_, rfl⟩

theorem find?_write_of_ne {segment first : String} {rest : List String} (hne : first ≠ segment)
    (h : write scope v (segment :: rest) entries = .ok written) (tail : List String) :
    find? (first :: tail) written = find? (first :: tail) entries := by
  obtain ⟨w, rfl⟩ := exists_insert_of_write h
  exact find?_insert_of_ne hne w tail entries

/-- Writing what is there changes nothing. -/
theorem write_self (h : find? path entries = some v) : write scope v path entries = .ok entries := by
  induction path generalizing entries with
  | nil => contradiction
  | cons segment rest ih =>
    by_cases hrest : rest = []
    · subst hrest
      rw [find?_singleton] at h
      rw [write_singleton, Ordered.insert_of_lookup h]
    · rw [find?_cons segment hrest] at h
      obtain ⟨children, hchildren, hfind⟩ := Option.bind_eq_some_iff.mp h
      obtain ⟨w, hlookup, hw⟩ := Option.bind_eq_some_iff.mp hchildren
      obtain ⟨n, rfl, rfl⟩ : ∃ n : Node, w = n.toValue ∧ children = n.entries := by
        cases w with
        | node inner provenance below => exact ⟨⟨inner, provenance, below⟩, rfl, (Option.some.inj hw).symm⟩
        | _ => contradiction
      refine (write_cons_eq_ok_iff hrest).mpr ⟨n, n.entries, Or.inl hlookup, ih hfind, ?_⟩
      exact (Ordered.insert_of_lookup hlookup).symm

/-- **A leaf is written at its path and nowhere else.** -/
theorem leaf?_write (hv : v.isNode = false) (hold : children? path entries = none)
    (hwrite : write scope v path entries = .ok written) (hother : other ≠ []) :
    leaf? other written = if other = path then some v else leaf? other entries := by
  induction path generalizing entries written other with
  | nil =>
    rw [write] at hwrite
    rw [if_neg hother, Except.ok.inj hwrite]
  | cons segment rest ih =>
    obtain ⟨first, tail, rfl⟩ := List.exists_cons_of_ne_nil hother
    by_cases hfirst : first = segment
    swap
    · rw [if_neg (fun h => hfirst (List.cons.inj h).1), leaf?, find?_write_of_ne hfirst hwrite, leaf?]
    subst hfirst
    by_cases hrest : rest = []
    · subst hrest
      rw [write_singleton] at hwrite
      obtain rfl := Except.ok.inj hwrite
      rw [children?_singleton] at hold
      by_cases htail : tail = []
      · subst htail
        simp [leaf?_singleton, hv]
      · rw [if_neg (fun h => htail (List.cons.inj h).2), leaf?_cons first htail, leaf?_cons first htail,
          hold, Ordered.lookup_insert_self, Option.bind_some, Value.entries?_eq_none_iff.mpr hv]
    · obtain ⟨n, children, hn, hchildren, rfl⟩ := (write_cons_eq_ok_iff hrest).mp hwrite
      rw [hn.children?_cons hrest] at hold
      have hn' := enters_insert scope first { n with entries := children } entries
      by_cases htail : tail = []
      · subst htail
        rw [hn'.leaf?_singleton, hn.leaf?_singleton, if_neg (fun h => hrest (List.cons.inj h).2.symm)]
      · rw [hn'.leaf?_cons htail, hn.leaf?_cons htail, ih hold hchildren htail]
        simp

/-- A write of a leaf makes mappings, but takes none away. -/
theorem isSome_children?_write (hold : children? path entries = none)
    (hwrite : write scope v path entries = .ok written) {other : List String}
    (h : (children? other entries).isSome) : (children? other written).isSome := by
  induction path generalizing entries written other with
  | nil =>
    rw [write] at hwrite
    exact Except.ok.inj hwrite ▸ h
  | cons segment rest ih =>
    rcases other with _ | ⟨first, tail⟩
    · simp at h
    by_cases hfirst : first = segment
    swap
    · rwa [children?, find?_write_of_ne hfirst hwrite, ← children?]
    subst hfirst
    by_cases hrest : rest = []
    · subst hrest
      rw [children?_singleton] at hold
      by_cases htail : tail = []
      · rw [htail, children?_singleton, hold] at h
        contradiction
      · rw [children?_cons first htail, hold] at h
        contradiction
    · obtain ⟨n, children, hn, hchildren, rfl⟩ := (write_cons_eq_ok_iff hrest).mp hwrite
      rw [hn.children?_cons hrest] at hold
      have hn' := enters_insert scope first { n with entries := children } entries
      by_cases htail : tail = []
      · rw [htail, children?_singleton, Ordered.lookup_insert_self]
        rfl
      · rw [hn.children?_cons htail] at h
        rw [hn'.children?_cons htail]
        exact ih hold hchildren h

theorem ne_nil_of_write (hpath : path ≠ []) (hwrite : write scope v path entries = .ok written) :
    written ≠ [] := by
  obtain ⟨segment, rest, rfl⟩ := List.exists_cons_of_ne_nil hpath
  obtain ⟨w, rfl⟩ := exists_insert_of_write hwrite
  intro h
  have hlookup := Ordered.lookup_insert_self segment w entries
  rw [h] at hlookup
  contradiction

/-- No mapping becomes empty by a write of a leaf. -/
theorem children?_eq_nil_of_write (hv : v.isNode = false) (hpath : path ≠ [])
    (hwrite : write scope v path entries = .ok written) {other : List String}
    (h : children? other written = some []) : children? other entries = some [] := by
  induction path generalizing entries written other with
  | nil => exact absurd rfl hpath
  | cons segment rest ih =>
    rcases other with _ | ⟨first, tail⟩
    · simp at h
    by_cases hfirst : first = segment
    swap
    · rwa [children?, find?_write_of_ne hfirst hwrite, ← children?] at h
    subst hfirst
    by_cases hrest : rest = []
    · subst hrest
      rw [write_singleton] at hwrite
      obtain rfl := Except.ok.inj hwrite
      have hleaf : ((Ordered.insert first v entries).lookup first).bind Value.entries? = none := by
        rw [Ordered.lookup_insert_self, Option.bind_some, Value.entries?_eq_none_iff.mpr hv]
      by_cases htail : tail = []
      · rw [htail, children?_singleton, hleaf] at h
        contradiction
      · rw [children?_cons first htail, hleaf] at h
        contradiction
    · obtain ⟨n, children, hn, hchildren, rfl⟩ := (write_cons_eq_ok_iff hrest).mp hwrite
      have hn' := enters_insert scope first { n with entries := children } entries
      by_cases htail : tail = []
      · rw [htail, children?_singleton, Ordered.lookup_insert_self] at h
        exact absurd (Option.some.inj h) (ne_nil_of_write hrest hchildren)
      · rw [hn'.children?_cons htail] at h
        rw [hn.children?_cons htail]
        exact ih hrest hchildren h

/-! ## Leaves beside each other -/

/-- Neither path is at or above the other. -/
def Apart (path other : List String) : Prop := ¬ path <+: other ∧ ¬ other <+: path

theorem find?_append_of_leaf? (h : leaf? path entries = some v) {rest : List String} (hrest : rest ≠ []) :
    find? (path ++ rest) entries = none := by
  have hpath : path ≠ [] := by
    rintro rfl
    simp at h
  obtain ⟨hfind, hv⟩ := leaf?_eq_some_iff.mp h
  rw [find?_append hpath hrest, children?, hfind, Option.bind_some, Value.entries?_eq_none_iff.mpr hv,
    Option.bind_none]

/-- Different leaves lie apart. -/
theorem apart_of_leaf? {w : Value} (h : leaf? path entries = some v) (h' : leaf? other entries = some w)
    (hne : path ≠ other) : Apart path other := by
  have hbelow : ∀ {p q : List String} {v w : Value}, leaf? p entries = some v → leaf? q entries = some w →
      p <+: q → p = q := by
    rintro p q v w hp hq ⟨rest, rfl⟩
    by_contra hne
    have hrest : rest ≠ [] := fun he => hne (by simp [he])
    rw [leaf?, find?_append_of_leaf? hp hrest] at hq
    contradiction
  exact ⟨fun hprefix => hne (hbelow h h' hprefix), fun hprefix => hne (hbelow h' h hprefix).symm⟩

end Path

theorem Node.lookup_of_find? {n : Node} {path : List String} {v : Value} (h : Path.find? path n.entries = some v) :
    n.lookup path = .ok (some v) := by
  rw [lookup]
  rw [Path.find?] at h
  cases hfind : Path.find path n.entries with
  | ok w =>
    rw [hfind] at h
    rw [← Option.some.inj h]
  | error miss =>
    rw [hfind] at h
    contradiction

end LayeredConfig
