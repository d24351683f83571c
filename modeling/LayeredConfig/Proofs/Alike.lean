import LayeredConfig.Proofs.Path
import LayeredConfig.Proofs.PlainForm

/-!
# Trees up to the order of their entries

Two values are `Alike` when they are the same but for the order of names in their mappings. A tree is known
up to that order by what stands at each path: a leaf, or a mapping without its entries (`Path.bare?`). A
write of a leaf changes this view in a way that does not depend on the order of entries (`bare?_write`), and
whether it succeeds can be read off the view as well (`exists_write_iff`).
-/

namespace LayeredConfig

namespace Value

/-- A value without the entries of a mapping. -/
def bare : Value → Value
  | .node scope provenance _ => .node scope provenance []
  | v => v

variable {v w : Value}

theorem bare_leaf (hv : v.isNode = false) : v.bare = v := by
  cases v with
  | node => contradiction
  | _ => rfl

@[simp] theorem isNode_bare (v : Value) : v.bare.isNode = v.isNode := by cases v <;> rfl

mutual

/-- Sameness but for the order of names in mappings. -/
def Alike : Value → Value → Prop
  | .node scope provenance entries, .node scope' provenance' others =>
    scope = scope' ∧ provenance = provenance' ∧ entries.length = others.length ∧ AlikeEntries entries others
  | v, w => v = w

/-- Every entry has one of its name in `others` that is alike. -/
def AlikeEntries : Entries → Entries → Prop
  | [], _ => True
  | (key, v) :: rest, others => (∃ w, others.lookup key = some w ∧ Alike v w) ∧ AlikeEntries rest others

end

theorem alike_leaf (hv : v.isNode = false) : v.Alike w ↔ v = w := by
  cases v with
  | node => contradiction
  | _ => simp [Alike]

theorem Alike.below (h : v.Alike w) : v.bare = w.bare ∧
    (v.entries?.getD []).length = (w.entries?.getD []).length ∧
    AlikeEntries (v.entries?.getD []) (w.entries?.getD []) := by
  cases v with
  | node scope provenance entries =>
    cases w with
    | node scope' provenance' others =>
      obtain ⟨rfl, rfl, hlength, hentries⟩ := h
      exact ⟨rfl, hlength, hentries⟩
    | _ => simp [Alike] at h
  | _ =>
    obtain rfl := (alike_leaf rfl).mp h
    exact ⟨rfl, rfl, trivial⟩

mutual

/-- Values that are alike are equal, as long as their floats equal themselves. -/
theorem Alike.same : (v w : Value) → v.Finite → v.Proper → v.Alike w → v.same w
  | .node _ _ entries, w, hfinite, hproper, h => by
    cases w with
    | node scope provenance others =>
      obtain ⟨-, -, hlength, hentries⟩ := h
      exact same_node.mpr ⟨hlength, AlikeEntries.same entries others (finite_node.mp hfinite)
        (proper_node.mp hproper).2 hentries⟩
    | _ => simp [Alike] at h
  | .null, _, hfinite, hproper, h | .bool _, _, hfinite, hproper, h | .int _, _, hfinite, hproper, h
  | .float _, _, hfinite, hproper, h | .str _, _, hfinite, hproper, h | .list _, _, hfinite, hproper, h => by
    obtain rfl := (alike_leaf rfl).mp h
    exact same_of_toDocument _ _ hfinite hfinite hproper rfl

theorem AlikeEntries.same : (entries others : Entries) → FiniteEntries entries → (∀ entry ∈ entries, entry.2.Proper) →
    AlikeEntries entries others → sameEntries entries others
  | [], _, _, _, _ => rfl
  | (key, v) :: rest, others, hfinite, hproper, h => by
    obtain ⟨⟨w, hlookup, hv⟩, hrest⟩ := h
    obtain ⟨hvfinite, hrestfinite⟩ := List.forall_mem_cons.mp hfinite
    obtain ⟨hvproper, hrestproper⟩ := List.forall_mem_cons.mp hproper
    have hsame := Alike.same v w hvfinite hvproper hv
    simp [sameEntries, hlookup, hsame, AlikeEntries.same rest others hrestfinite hrestproper hrest]

end

end Value

/-- Nodes with the same entries but for their order, at any depth. -/
def Node.Alike (a b : Node) : Prop := a.entries.length = b.entries.length ∧ Value.AlikeEntries a.entries b.entries

namespace Path

variable {scope : Scope} {v : Value} {path other : List String} {entries written : Entries}

/-- What stands at a path, a mapping without its entries. -/
def bare? (path : List String) (entries : Entries) : Option Value := (find? path entries).map Value.bare

theorem leaf?_eq_filter (path : List String) (entries : Entries) :
    leaf? path entries = (bare? path entries).filter fun v => !v.isNode := by
  rw [leaf?, bare?]
  cases find? path entries with
  | none => rfl
  | some v =>
    rw [Option.map_some, Option.filter_some, Option.filter_some, Value.isNode_bare]
    cases hv : v.isNode with
    | true => rfl
    | false => rw [Value.bare_leaf hv]

theorem bare?_cons (segment : String) {rest : List String} (h : rest ≠ []) (entries : Entries) :
    bare? (segment :: rest) entries = ((entries.lookup segment).bind Value.entries?).bind (bare? rest) := by
  rw [bare?, find?_cons segment h]
  cases (entries.lookup segment).bind Value.entries? with
  | none => rfl
  | some children => rfl

theorem bare?_singleton (segment : String) (entries : Entries) :
    bare? [segment] entries = (entries.lookup segment).map Value.bare := by
  rw [bare?, find?_singleton]

theorem Enters.bare?_cons {segment : String} {n : Node} (hn : Enters scope segment entries n) {rest : List String}
    (h : rest ≠ []) : bare? (segment :: rest) entries = bare? rest n.entries := by
  rw [bare?, hn.find?_cons h, bare?]

/-! ## Writing -/

/-- **What stands at a path after a write of a leaf**: the leaf at its own path, a new mapping above it where there
was nothing, and elsewhere what stood there. -/
theorem bare?_write (hv : v.isNode = false) (hold : children? path entries = none)
    (hwrite : write scope v path entries = .ok written) (hother : other ≠ []) :
    bare? other written = if other = path then some v else
      (bare? other entries).or (if other <+: path then some (.node scope {} []) else none) := by
  induction path generalizing entries written other with
  | nil =>
    rw [write] at hwrite
    have hprefix : ¬ other <+: [] := fun h => hother (List.prefix_nil.mp h)
    simp [Except.ok.inj hwrite, hother]
  | cons segment rest ih =>
    obtain ⟨first, tail, rfl⟩ := List.exists_cons_of_ne_nil hother
    by_cases hfirst : first = segment
    swap
    · have hfind := find?_write_of_ne hfirst hwrite tail
      simp [bare?, hfind, hfirst]
    subst hfirst
    by_cases hrest : rest = []
    · subst hrest
      rw [write_singleton] at hwrite
      obtain rfl := Except.ok.inj hwrite
      rw [children?_singleton] at hold
      by_cases htail : tail = []
      · simp [htail, bare?_singleton, Value.bare_leaf hv]
      · have hprefix : ¬ first :: tail <+: [first] := by simpa using htail
        simp [bare?_cons first htail, hold, htail, Value.entries?_eq_none_iff.mpr hv]
    · obtain ⟨n, children, hn, hchildren, rfl⟩ := (write_cons_eq_ok_iff hrest).mp hwrite
      rw [hn.children?_cons hrest] at hold
      have hn' := enters_insert scope first { n with entries := children } entries
      by_cases htail : tail = []
      · subst htail
        have hmapping : bare? [first] (Ordered.insert first { n with entries := children }.toValue entries) =
            some (.node n.scope n.provenance []) := by
          rw [bare?_singleton, Ordered.lookup_insert_self]
          rfl
        rw [hmapping, bare?_singleton]
        rcases hn with hn | ⟨hn, rfl⟩
        · simp [hn, Ne.symm hrest, Node.toValue, Value.bare]
        · simp [hn, Ne.symm hrest, Node.empty]
      · rw [hn'.bare?_cons htail, hn.bare?_cons htail, ih hold hchildren htail]
        simp

/-- A write is possible if nothing above its path is a leaf. -/
theorem exists_write_iff : (∃ written, write scope v path entries = .ok written) ↔
    ∀ above, above <+: path → above ≠ path → leaf? above entries = none := by
  induction path generalizing entries with
  | nil => simp [write, List.prefix_nil]
  | cons segment rest ih =>
    by_cases hrest : rest = []
    · subst hrest
      rw [write_singleton]
      refine iff_of_true ⟨_, rfl⟩ ?_
      intro above hprefix hne
      rcases List.prefix_cons_iff.mp hprefix with rfl | ⟨tail, rfl, htail⟩
      · rfl
      · exact absurd (by rw [List.prefix_nil.mp htail]) hne
    · constructor
      · rintro ⟨written, hwrite⟩ above hprefix hne
        obtain ⟨n, children, hn, hchildren, -⟩ := (write_cons_eq_ok_iff hrest).mp hwrite
        rcases List.prefix_cons_iff.mp hprefix with rfl | ⟨tail, rfl, htail⟩
        · rfl
        · by_cases hnil : tail = []
          · rw [hnil, hn.leaf?_singleton]
          · rw [hn.leaf?_cons hnil]
            exact ih.mp ⟨children, hchildren⟩ tail htail fun he => hne (he ▸ rfl)
      · intro habove
        have hhere := habove [segment] (by simp) (by simpa using Ne.symm hrest)
        have hn : ∃ n, Enters scope segment entries n := by
          rw [leaf?_singleton] at hhere
          cases hlookup : entries.lookup segment with
          | none => exact ⟨.empty scope, Or.inr ⟨hlookup, rfl⟩⟩
          | some old =>
            cases old with
            | node inner provenance children => exact ⟨⟨inner, provenance, children⟩, Or.inl hlookup⟩
            | _ => simp [hlookup, Value.isNode, Value.kind] at hhere
        obtain ⟨n, hn⟩ := hn
        have hbelow : ∃ children, write scope v rest n.entries = .ok children := by
          rw [ih]
          intro above hprefix hne
          by_cases hnil : above = []
          · rw [hnil, leaf?_nil]
          · rw [← hn.leaf?_cons hnil]
            exact habove (segment :: above) (by simpa using hprefix) (by simpa using hne)
        obtain ⟨children, hchildren⟩ := hbelow
        exact ⟨_, (write_cons_eq_ok_iff hrest).mpr ⟨n, children, hn, hchildren, rfl⟩⟩

/-! ## The view determines the tree -/

theorem bare?_below {key : String} (hlookup : entries.lookup key = some v) {rest : List String} (h : rest ≠ []) :
    bare? (key :: rest) entries = bare? rest (v.entries?.getD []) := by
  rw [bare?_cons key h, hlookup, Option.bind_some]
  cases v.entries? with
  | none => simp [bare?, find?_empty]
  | some children => rfl

theorem exists_lookup_of_bare? {others : Entries} (h : ∀ path, bare? path entries = bare? path others) {key : String}
    (hlookup : entries.lookup key = some v) : ∃ w, others.lookup key = some w ∧ v.bare = w.bare ∧
      ∀ path, bare? path (v.entries?.getD []) = bare? path (w.entries?.getD []) := by
  have hhere := h [key]
  rw [bare?_singleton, bare?_singleton, hlookup, Option.map_some] at hhere
  obtain ⟨w, hw, hbare⟩ := Option.map_eq_some_iff.mp hhere.symm
  refine ⟨w, hw, hbare.symm, ?_⟩
  intro path
  by_cases hpath : path = []
  · simp [hpath, bare?]
  · rw [← bare?_below hlookup hpath, ← bare?_below hw hpath]
    exact h (key :: path)

theorem keys_subset_of_bare? {others : Entries} (h : ∀ path, bare? path entries = bare? path others) {key : String}
    (hkey : key ∈ Ordered.keys entries) : key ∈ Ordered.keys others := by
  by_contra hnot
  have hnone := Ordered.lookup_eq_none_iff.mpr hnot
  cases hlookup : entries.lookup key with
  | none => exact Ordered.lookup_eq_none_iff.mp hlookup hkey
  | some v =>
    obtain ⟨w, hw, -⟩ := exists_lookup_of_bare? h hlookup
    rw [hnone] at hw
    contradiction

theorem length_eq_of_bare? {others : Entries} (hd : Ordered.Distinct entries) (hd' : Ordered.Distinct others)
    (h : ∀ path, bare? path entries = bare? path others) : entries.length = others.length :=
  Nat.le_antisymm (Ordered.length_le_of_keys hd fun _ => keys_subset_of_bare? h)
    (Ordered.length_le_of_keys hd' fun _ => keys_subset_of_bare? fun path => (h path).symm)

mutual

theorem alike_of_bare? : (v w : Value) → v.Proper → w.Proper → v.bare = w.bare →
    (∀ path, bare? path (v.entries?.getD []) = bare? path (w.entries?.getD [])) → v.Alike w
  | .node scope provenance entries, w, hv, hw, hbare, h => by
    cases w with
    | node scope' provenance' others =>
      obtain ⟨rfl, rfl, -⟩ := Value.node.inj hbare
      have hproper := Value.proper_node.mp hv
      have hothers := Value.proper_node.mp hw
      refine ⟨rfl, rfl, length_eq_of_bare? hproper.1 hothers.1 h, ?_⟩
      refine alikeEntries_of_lookup entries others hproper.2 hothers.2 ?_
      intro entry hentry
      exact exists_lookup_of_bare? h (Ordered.lookup_of_mem hproper.1 hentry)
    | _ => simp [Value.bare] at hbare
  | .null, w, _, _, hbare, _ | .bool _, w, _, _, hbare, _ | .int _, w, _, _, hbare, _
  | .float _, w, _, _, hbare, _ | .str _, w, _, _, hbare, _ | .list _, w, _, _, hbare, _ => by
    cases w with
    | node => simp [Value.bare] at hbare
    | _ => exact (Value.alike_leaf rfl).mpr hbare

theorem alikeEntries_of_lookup : (entries others : Entries) → (∀ entry ∈ entries, entry.2.Proper) →
    (∀ other ∈ others, other.2.Proper) →
    (∀ entry ∈ entries, ∃ w, others.lookup entry.1 = some w ∧ entry.2.bare = w.bare ∧
      ∀ path, bare? path (entry.2.entries?.getD []) = bare? path (w.entries?.getD [])) →
    Value.AlikeEntries entries others
  | [], _, _, _, _ => trivial
  | (key, v) :: rest, others, hproper, hothers, h => by
    obtain ⟨⟨w, hlookup, hbare, hbelow⟩, hrest⟩ := List.forall_mem_cons.mp h
    obtain ⟨hv, hproperrest⟩ := List.forall_mem_cons.mp hproper
    have hw := hothers _ (Ordered.mem_of_lookup hlookup)
    exact ⟨⟨w, hlookup, alike_of_bare? v w hv hw hbare hbelow⟩,
      alikeEntries_of_lookup rest others hproperrest hothers hrest⟩

end

/-! ## The tree determines the view -/

theorem alikeEntries_iff {others : Entries} : Value.AlikeEntries entries others ↔
    ∀ entry ∈ entries, ∃ w, others.lookup entry.1 = some w ∧ entry.2.Alike w := by
  induction entries with
  | nil => simp [Value.AlikeEntries]
  | cons entry rest ih => simp [Value.AlikeEntries, ih]

theorem keys_perm_of_alike {others : Entries} (hd : Ordered.Distinct entries) (h : Value.AlikeEntries entries others)
    (hlength : entries.length = others.length) : (Ordered.keys entries).Perm (Ordered.keys others) := by
  have hsubset : Ordered.keys entries ⊆ Ordered.keys others := by
    intro key hkey
    obtain ⟨entry, hentry, rfl⟩ := List.mem_map.mp hkey
    obtain ⟨w, hw, -⟩ := alikeEntries_iff.mp h entry hentry
    exact Ordered.key_mem_of_mem (Ordered.mem_of_lookup hw)
  apply (hd.subperm hsubset).perm_of_length_le
  simp [Ordered.keys, hlength]

theorem properEntries_below (h : ProperEntries entries) {key : String} (hlookup : entries.lookup key = some v) :
    ProperEntries (v.entries?.getD []) := by
  have hv := h.of_lookup hlookup
  cases v with
  | node scope provenance children => exact Value.proper_node.mp hv
  | _ => exact ProperEntries.nil

theorem bare?_of_alike {others : Entries} (hproper : ProperEntries entries) (hproper' : ProperEntries others)
    (hlength : entries.length = others.length) (h : Value.AlikeEntries entries others) :
    bare? path entries = bare? path others := by
  induction path generalizing entries others with
  | nil => rfl
  | cons key rest ih =>
    cases hlookup : entries.lookup key with
    | none =>
      have hfresh : key ∉ Ordered.keys others := by
        rw [← (keys_perm_of_alike hproper.1 h hlength).mem_iff]
        exact Ordered.lookup_eq_none_iff.mp hlookup
      have hnone := Ordered.lookup_eq_none_iff.mpr hfresh
      by_cases hrest : rest = []
      · rw [hrest, bare?_singleton, bare?_singleton, hlookup, hnone]
      · rw [bare?_cons key hrest, bare?_cons key hrest, hlookup, hnone]
    | some v =>
      obtain ⟨w, hw, halike⟩ := alikeEntries_iff.mp h _ (Ordered.mem_of_lookup hlookup)
      obtain ⟨hbare, hbelow⟩ := halike.below
      by_cases hrest : rest = []
      · rw [hrest, bare?_singleton, bare?_singleton, hlookup, hw, Option.map_some, Option.map_some, hbare]
      · rw [bare?_below hlookup hrest, bare?_below hw hrest]
        exact ih (properEntries_below hproper hlookup) (properEntries_below hproper' hw) hbelow.1 hbelow.2

/-- **Trees are alike exactly if the same stands at every path.** -/
theorem node_alike_iff {a b : Node} (ha : ProperEntries a.entries) (hb : ProperEntries b.entries) :
    a.Alike b ↔ ∀ path, bare? path a.entries = bare? path b.entries := by
  constructor
  · intro h path
    exact bare?_of_alike ha hb h.1 h.2
  · intro h
    refine ⟨length_eq_of_bare? ha.1 hb.1 h, ?_⟩
    refine alikeEntries_of_lookup a.entries b.entries ha.2 hb.2 ?_
    intro entry hentry
    exact exists_lookup_of_bare? h (Ordered.lookup_of_mem ha.1 hentry)

end Path

end LayeredConfig
