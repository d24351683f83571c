import LayeredConfig.Proofs.Everywhere
import LayeredConfig.Proofs.Path
import LayeredConfig.Saving

/-!
# Pruning

`Path.prune` takes the value at a path out, together with the mappings that are empty without it. Prunes
of paths that lie apart commute and leave each other's leaves alone, no prune makes a mapping empty, and
a prune undoes a write to a path that addressed nothing (`prune_write`), unless the write went into a
mapping that was empty before.
-/

namespace LayeredConfig

namespace Path

/-- What is left of a value when the path below it is taken out; nothing of a mapping without entries. -/
def pruneValue : List String → Value → Option Value
  | [], _ => none
  | segment :: rest, .node scope provenance entries =>
    let kept := Ordered.alter segment (pruneValue rest) entries
    if kept.isEmpty then none else some (.node scope provenance kept)
  | _ :: _, v => some v

/-- Takes the value at a path out, with the mappings that are empty without it. -/
def prune : List String → Entries → Entries
  | [], entries => entries
  | segment :: rest, entries => Ordered.alter segment (pruneValue rest) entries

variable {scope : Scope} {v w : Value} {path other : List String} {entries written : Entries}

@[simp] theorem prune_cons (segment : String) (rest : List String) (entries : Entries) :
    prune (segment :: rest) entries = Ordered.alter segment (pruneValue rest) entries := rfl

@[simp] theorem prune_empty (path : List String) : prune path [] = [] := by cases path <;> rfl

theorem pruneValue_node (h : path ≠ []) (scope : Scope) (provenance : Provenance) (entries : Entries) :
    pruneValue path (.node scope provenance entries) =
      if (prune path entries).isEmpty then none else some (.node scope provenance (prune path entries)) := by
  obtain ⟨segment, rest, rfl⟩ := List.exists_cons_of_ne_nil h
  rw [pruneValue, prune_cons]

theorem pruneValue_leaf (h : path ≠ []) (hv : v.isNode = false) : pruneValue path v = some v := by
  obtain ⟨segment, rest, rfl⟩ := List.exists_cons_of_ne_nil h
  cases v with
  | node => contradiction
  | _ => rfl

/-- What is left of a mapping has entries. -/
theorem entries?_pruneValue {kept : Entries} (h : (pruneValue path v).bind Value.entries? = some kept) :
    kept ≠ [] ∧ ∃ children, v.entries? = some children ∧ kept = prune path children := by
  by_cases hpath : path = []
  · subst hpath
    simp [pruneValue] at h
  cases v with
  | node scope provenance children =>
    rw [pruneValue_node hpath] at h
    split at h
    · contradiction
    · next hkept =>
      obtain rfl := Option.some.inj h
      exact ⟨fun he => hkept (by simp [he]), children, rfl, rfl⟩
  | _ =>
    rw [pruneValue_leaf hpath rfl] at h
    contradiction

/-! ## Well-formedness -/

theorem proper_pruneValue (hv : v.Proper) (hw : pruneValue path v = some w) : w.Proper := by
  induction path generalizing v w with
  | nil => contradiction
  | cons segment rest ih =>
    cases v with
    | node scope provenance entries =>
      rw [pruneValue_node (List.cons_ne_nil _ _)] at hw
      split at hw
      · contradiction
      · obtain rfl := Option.some.inj hw
        rw [Value.proper_node] at hv ⊢
        exact ProperEntries.alter hv fun _ _ hu _ hkept => ih hu hkept
    | _ => exact Option.some.inj hw ▸ hv

theorem proper_prune (h : ProperEntries entries) : ProperEntries (prune path entries) := by
  cases path with
  | nil => exact h
  | cons segment rest => exact h.alter fun _ _ hu _ hkept => proper_pruneValue hu hkept

theorem Enters.proper {segment : String} {n : Node} (hn : Enters scope segment entries n)
    (h : ProperEntries entries) : ProperEntries n.entries := by
  rcases hn with hn | ⟨-, rfl⟩
  · exact Value.proper_node.mp (h.of_lookup hn)
  · exact ProperEntries.nil

theorem proper_write (hv : v.Proper) (h : ProperEntries entries)
    (hwrite : write scope v path entries = .ok written) : ProperEntries written := by
  induction path generalizing entries written with
  | nil =>
    rw [write] at hwrite
    exact Except.ok.inj hwrite ▸ h
  | cons segment rest ih =>
    by_cases hrest : rest = []
    · subst hrest
      rw [write_singleton] at hwrite
      exact Except.ok.inj hwrite ▸ h.insert hv
    · obtain ⟨n, children, hn, hchildren, rfl⟩ := (write_cons_eq_ok_iff hrest).mp hwrite
      exact h.insert (Value.proper_node.mpr (ih (hn.proper h) hchildren))

theorem proper_modify {f : Entries → Entries} (hf : ∀ children, ProperEntries children → ProperEntries (f children))
    (h : ProperEntries entries) : ProperEntries (modify f path entries) := by
  induction path generalizing entries with
  | nil => exact hf entries h
  | cons segment rest ih =>
    rw [modify]
    split
    · next scope provenance children hlookup =>
      exact h.insert (Value.proper_node.mpr (ih (Value.proper_node.mp (h.of_lookup hlookup))))
    · exact h

/-! ## Prunes beside each other -/

theorem Apart.of_cons {segment : String} (h : Apart (segment :: path) (segment :: other)) :
    Apart path other := by
  simpa [Apart, List.cons_prefix_cons] using h

theorem Apart.ne_nil (h : Apart path other) : path ≠ [] ∧ other ≠ [] := by
  constructor
  · rintro rfl
    exact h.1 List.nil_prefix
  · rintro rfl
    exact h.2 List.nil_prefix

theorem Apart.symm (h : Apart path other) : Apart other path := ⟨h.2, h.1⟩

/-- Two prunes of a mapping are one: an empty mapping has nothing left to prune. -/
theorem bind_pruneValue (hpath : path ≠ []) (hother : other ≠ []) (provenance : Provenance) :
    (pruneValue path (.node scope provenance entries)).bind (pruneValue other) =
      if (prune other (prune path entries)).isEmpty then none
      else some (.node scope provenance (prune other (prune path entries))) := by
  rw [pruneValue_node hpath]
  split
  · next hempty => simp [List.isEmpty_iff.mp hempty]
  · rw [Option.bind_some, pruneValue_node hother]

theorem prune_comm (h : Apart path other) (entries : Entries) :
    prune path (prune other entries) = prune other (prune path entries) := by
  induction path generalizing other entries with
  | nil => exact absurd rfl h.ne_nil.1
  | cons segment rest ih =>
    obtain ⟨first, tail, rfl⟩ := List.exists_cons_of_ne_nil h.ne_nil.2
    simp only [prune_cons]
    by_cases hfirst : segment = first
    · subst hfirst
      have happart := h.of_cons
      obtain ⟨hrest, htail⟩ := happart.ne_nil
      simp only [Ordered.alter_alter]
      congr 1
      funext u
      cases u with
      | node scope provenance children => rw [bind_pruneValue hrest htail, bind_pruneValue htail hrest, ih happart]
      | _ =>
        rw [pruneValue_leaf hrest rfl, pruneValue_leaf htail rfl, Option.bind_some, Option.bind_some]
        rw [pruneValue_leaf hrest rfl, pruneValue_leaf htail rfl]
    · exact Ordered.alter_comm hfirst

theorem find?_alter_of_ne {segment first : String} (h : first ≠ segment) (f : Value → Option Value)
    (tail : List String) (entries : Entries) :
    find? (first :: tail) (Ordered.alter segment f entries) = find? (first :: tail) entries := by
  rcases tail with _ | ⟨next, tail⟩
  · simp only [find?_singleton, Ordered.lookup_alter_of_ne h]
  · simp only [find?_cons first (List.cons_ne_nil _ _), Ordered.lookup_alter_of_ne h]

/-- A prune leaves the leaves of other paths alone. -/
theorem leaf?_prune (h : Apart path other) (hproper : ProperEntries entries) :
    leaf? other (prune path entries) = leaf? other entries := by
  induction path generalizing other entries with
  | nil => exact absurd rfl h.ne_nil.1
  | cons segment rest ih =>
    obtain ⟨first, tail, rfl⟩ := List.exists_cons_of_ne_nil h.ne_nil.2
    by_cases hfirst : first = segment
    swap
    · rw [leaf?, prune_cons, find?_alter_of_ne hfirst, ← leaf?]
    subst hfirst
    have happart := h.of_cons
    obtain ⟨hrest, htail⟩ := happart.ne_nil
    rw [leaf?_cons first htail, leaf?_cons first htail, prune_cons, Ordered.lookup_alter_self hproper.1]
    rcases hlookup : entries.lookup first with _ | u
    · rfl
    rw [Option.bind_some, Option.bind_some]
    cases u with
    | node scope provenance children =>
      have hchildren : ProperEntries children := Value.proper_node.mp (hproper.of_lookup hlookup)
      have hleaf := ih happart hchildren
      rw [pruneValue_node hrest]
      split
      · next hempty =>
        rw [List.isEmpty_iff.mp hempty] at hleaf
        show none = leaf? tail children
        rw [← hleaf, leaf?, find?_empty]
        rfl
      · exact hleaf
    | _ => rw [pruneValue_leaf hrest rfl, Option.bind_some]

/-- No mapping becomes empty by a prune. -/
theorem children?_eq_nil_of_prune (hproper : ProperEntries entries)
    (h : children? other (prune path entries) = some []) : children? other entries = some [] := by
  induction path generalizing other entries with
  | nil => exact h
  | cons segment rest ih =>
    rcases other with _ | ⟨first, tail⟩
    · simp at h
    by_cases hfirst : first = segment
    swap
    · rwa [children?, prune_cons, find?_alter_of_ne hfirst, ← children?] at h
    subst hfirst
    rw [prune_cons] at h
    by_cases htail : tail = []
    · rw [htail, children?_singleton, Ordered.lookup_alter_self hproper.1, Option.bind_assoc] at h
      obtain ⟨u, -, hu⟩ := Option.bind_eq_some_iff.mp h
      exact absurd rfl (entries?_pruneValue hu).1
    · rw [children?_cons first htail, Ordered.lookup_alter_self hproper.1] at h
      obtain ⟨kept, hkept, hnil⟩ := Option.bind_eq_some_iff.mp h
      rw [Option.bind_assoc] at hkept
      obtain ⟨u, hlookup, hu⟩ := Option.bind_eq_some_iff.mp hkept
      obtain ⟨-, children, hchildren, rfl⟩ := entries?_pruneValue hu
      rw [children?_cons first htail, hlookup, Option.bind_some, hchildren, Option.bind_some]
      cases u with
      | node scope provenance entries =>
        obtain rfl := Option.some.inj hchildren
        exact ih (Value.proper_node.mp (hproper.of_lookup hlookup)) hnil
      | _ => contradiction

/-! ## Undoing a write -/

/-- **A prune undoes a write to a path that addressed nothing.** Only a mapping above the path that was
empty before would be taken out as well. -/
theorem prune_write (hpath : path ≠ []) (hproper : ProperEntries entries) (hnew : find? path entries = none)
    (habove : ∀ above, above <+: path → children? above entries ≠ some [])
    (hwrite : write scope v path entries = .ok written) : prune path written = entries := by
  induction path generalizing entries written with
  | nil => exact absurd rfl hpath
  | cons segment rest ih =>
    rw [prune_cons]
    by_cases hrest : rest = []
    · subst hrest
      rw [find?_singleton] at hnew
      rw [write_singleton] at hwrite
      rw [← Except.ok.inj hwrite, Ordered.alter_insert hproper.1]
      show Ordered.erase segment entries = entries
      rw [Ordered.erase_eq_alter hproper.1, Ordered.alter_of_fresh (Ordered.lookup_eq_none_iff.mp hnew)]
    · obtain ⟨n, children, hn, hchildren, rfl⟩ := (write_cons_eq_ok_iff hrest).mp hwrite
      have hundone : prune rest children = n.entries := by
        refine ih hrest (hn.proper hproper) (hn.find?_cons hrest ▸ hnew) (fun above hprefix => ?_) hchildren
        by_cases hnil : above = []
        · simp [hnil]
        · rw [← hn.children?_cons hnil]
          exact habove _ (List.cons_prefix_cons.mpr ⟨rfl, hprefix⟩)
      rw [Ordered.alter_insert hproper.1, Node.toValue, pruneValue_node hrest, hundone]
      rcases hn with hn | ⟨hn, rfl⟩
      · have hentries : n.entries.isEmpty = false := by
          refine Bool.eq_false_iff.mpr fun hempty => habove [segment] ⟨rest, rfl⟩ ?_
          rw [children?_singleton, hn, ← List.isEmpty_iff.mp hempty]
          rfl
        simp only [hentries]
        exact Ordered.insert_of_lookup hn
      · show Ordered.erase segment entries = entries
        rw [Ordered.erase_eq_alter hproper.1, Ordered.alter_of_fresh (Ordered.lookup_eq_none_iff.mp hn)]

/-! ## Pruning from below -/

theorem modify_cons {f : Entries → Entries} {segment : String} {provenance : Provenance} {children : Entries}
    (h : entries.lookup segment = some (.node scope provenance children)) (rest : List String) :
    modify f (segment :: rest) entries =
      Ordered.insert segment (.node scope provenance (modify f rest children)) entries := by rw [modify, h]

theorem exists_of_children? {segment : String} {rest : List String}
    (h : (children? (segment :: rest) entries).isSome) :
    ∃ scope provenance children, entries.lookup segment = some (.node scope provenance children) := by
  have hentries : ((entries.lookup segment).bind Value.entries?).isSome := by
    by_cases hrest : rest = []
    · rwa [hrest, children?_singleton] at h
    · rw [children?_cons segment hrest] at h
      exact Option.isSome_of_isSome_bind h
  rcases hlookup : entries.lookup segment with _ | u
  · simp [hlookup] at hentries
  · cases u with
    | node scope provenance children => exact ⟨scope, provenance, children, rfl⟩
    | _ => simp [hlookup, Value.entries?] at hentries

theorem children?_modify (f : Entries → Entries) (h : (children? path entries).isSome) :
    children? path (modify f path entries) = (children? path entries).map f := by
  induction path generalizing entries with
  | nil => simp at h
  | cons segment rest ih =>
    obtain ⟨scope, provenance, children, hlookup⟩ := exists_of_children? h
    rw [modify_cons hlookup]
    by_cases hrest : rest = []
    · subst hrest
      rw [children?_singleton, children?_singleton, Ordered.lookup_insert_self, hlookup]
      rfl
    · rw [children?_cons segment hrest, hlookup] at h
      rw [children?_cons segment hrest, children?_cons segment hrest, Ordered.lookup_insert_self, hlookup]
      exact ih h

/-- A prune erases the last segment, and prunes the mapping above if that is empty then. -/
theorem prune_append_singleton (hproper : ProperEntries entries) (segment : String)
    (h : path = [] ∨ (children? path entries).isSome) :
    prune (path ++ [segment]) entries =
      if (children? path (modify (Ordered.erase segment) path entries)).any List.isEmpty then
        prune path (modify (Ordered.erase segment) path entries)
      else modify (Ordered.erase segment) path entries := by
  induction path generalizing entries with
  | nil => exact (Ordered.erase_eq_alter hproper.1).symm
  | cons first rest ih =>
    have hsome := h.resolve_left (List.cons_ne_nil _ _)
    obtain ⟨scope, provenance, children, hlookup⟩ := exists_of_children? hsome
    have hchildren : ProperEntries children := Value.proper_node.mp (hproper.of_lookup hlookup)
    rw [List.cons_append, prune_cons, modify_cons hlookup, Ordered.alter_of_lookup hproper.1 hlookup,
      pruneValue_node (by simp)]
    have hbelow : rest = [] ∨ (children? rest children).isSome := by
      by_cases hrest : rest = []
      · exact Or.inl hrest
      · rw [children?_cons first hrest, hlookup] at hsome
        exact Or.inr hsome
    rw [ih hchildren hbelow, prune_cons, Ordered.alter_insert hproper.1]
    by_cases hrest : rest = []
    · subst hrest
      rw [children?_singleton, Ordered.lookup_insert_self]
      show _ = if (Ordered.erase segment children).isEmpty then Ordered.erase first entries else _
      by_cases hempty : (Ordered.erase segment children).isEmpty <;> simp [modify, hempty]
    · have hsome := children?_modify (Ordered.erase segment) (hbelow.resolve_left hrest)
      rw [children?_cons first hrest, Ordered.lookup_insert_self, pruneValue_node hrest]
      show _ = if (children? rest (modify (Ordered.erase segment) rest children)).any List.isEmpty then _ else _
      generalize modify (Ordered.erase segment) rest children = kept at hsome ⊢
      by_cases hany : (children? rest kept).any List.isEmpty
      · rw [if_pos hany, if_pos hany]
      · have hkept : kept.isEmpty = false := by
          refine Bool.eq_false_iff.mpr fun hnil => ?_
          rw [List.isEmpty_iff.mp hnil, children?, find?_empty] at hsome
          obtain ⟨below, hbelow⟩ := Option.isSome_iff_exists.mp (hbelow.resolve_left hrest)
          rw [hbelow] at hsome
          contradiction
        simp [hany, hkept]

end Path

namespace Node

open LayeredConfig.Path

variable {n : Node} {key : Key}

/-- Taking out a key erases it among the entries of its parent, if there is such a mapping. -/
theorem remove_of_above {above : List String} {segment : String}
    (hkey : (n.resolve key).segments = above ++ [segment])
    (h : above = [] ∨ (children? above n.entries).isSome) :
    ∃ v, n.remove key = .ok (v, { n with entries := modify (Ordered.erase segment) above n.entries }) := by
  have hparents : (n.resolve key).parents = above := by rw [Key.parents, hkey, List.dropLast_concat]
  have hlast : (n.resolve key).last = segment := by simp [Key.last, hkey]
  unfold remove
  simp only [hparents, hlast]
  by_cases habove : above = []
  · subst habove
    exact ⟨_, rfl⟩
  · obtain ⟨children, hchildren⟩ := Option.isSome_iff_exists.mp (h.resolve_left habove)
    obtain ⟨v, hfind, hv⟩ := Option.bind_eq_some_iff.mp hchildren
    cases v with
    | node scope provenance entries =>
      simp only [List.isEmpty_eq_false_iff.mpr habove, lookup_of_find? hfind]
      exact ⟨_, rfl⟩
    | _ => contradiction

theorem resolve_ofSegments (hcompound : n.scope.options.noCompoundKeys = false) {path : List String}
    (h : path ≠ []) : (n.resolve (.ofSegments path)).segments = path := by
  rw [resolve, hcompound, Key.ofSegments, dif_neg h]
  rfl

theorem above_of_find? {above : List String} {segment : String}
    (h : (find? (above ++ [segment]) n.entries).isSome) :
    above = [] ∨ (children? above n.entries).isSome :=
  (eq_or_ne above []).imp_right fun habove => isSome_children?_of_append habove (List.cons_ne_nil _ _) h

/-- Going upwards from the mapping at a path prunes that path, if the mapping is empty. -/
theorem pruneAbove_eq (path : List String) (depth : Nat) (hcompound : n.scope.options.noCompoundKeys = false)
    (hproper : ProperEntries n.entries) (hdepth : depth ≤ path.length)
    (h : path.take depth = [] ∨ (children? (path.take depth) n.entries).isSome) :
    n.pruneAbove path depth = .ok { n with
      entries := if (children? (path.take depth) n.entries).any List.isEmpty then prune (path.take depth) n.entries
        else n.entries } := by
  induction depth generalizing n with
  | zero => rfl
  | succ depth ih =>
    have htake : path.take (depth + 1) = path.take depth ++ [path[depth]] := List.take_succ_eq_append_getElem hdepth
    have hne : path.take (depth + 1) ≠ [] := by simp [htake, -List.take_append_getElem]
    obtain ⟨children, hchildren⟩ := Option.isSome_iff_exists.mp (h.resolve_left hne)
    obtain ⟨v, hfind, hv⟩ := Option.bind_eq_some_iff.mp hchildren
    cases v with
    | node scope provenance entries =>
      obtain rfl := Option.some.inj hv
      rw [pruneAbove, lookup_of_find? hfind, hchildren]
      cases entries with
      | cons first rest => rfl
      | nil =>
        have hkey : (n.resolve (.ofSegments (path.take (depth + 1)))).segments =
            path.take depth ++ [path[depth]] := by
          rw [resolve_ofSegments hcompound hne, htake]
        have hsome : (find? (path.take depth ++ [path[depth]]) n.entries).isSome := by rw [← htake, hfind]; rfl
        have habove := above_of_find? hsome
        obtain ⟨removed, hremove⟩ := remove_of_above hkey habove
        have hproper' : ProperEntries (modify (Ordered.erase path[depth]) (path.take depth) n.entries) :=
          proper_modify (fun _ hchildren => hchildren.erase) hproper
        have hupwards := ih (n := { n with entries := modify (Ordered.erase path[depth]) (path.take depth) n.entries })
          hcompound hproper' (by omega)
          (habove.imp_right fun hchildren => by simp [children?_modify _ hchildren, hchildren])
        simp only [hremove]
        refine hupwards.trans ?_
        rw [htake, prune_append_singleton hproper _ habove]
        rfl
    | _ => contradiction

theorem resolve_resolve (n : Node) (key : Key) : n.resolve (n.resolve key) = n.resolve key := by
  unfold resolve
  split <;> rfl

theorem length_resolve (key : Key) (hcompound : n.scope.options.noCompoundKeys = true) :
    (n.resolve key).length = 1 := by
  rw [resolve, if_pos hcompound]
  rfl

/-- **Removing a key, with the mappings that are empty without it, prunes its path**, if its parent is a mapping. -/
theorem removePruned_of_above {above : List String} {segment : String} (hproper : ProperEntries n.entries)
    (hkey : (n.resolve key).segments = above ++ [segment]) (habove : above = [] ∨ (children? above n.entries).isSome) :
    n.removePruned key = .ok { n with entries := prune (above ++ [segment]) n.entries } := by
  obtain ⟨removed, hremove⟩ := remove_of_above ((resolve_resolve n key).symm ▸ hkey) habove
  have hlength : (n.resolve key).length - 1 = above.length := by simp [Key.length, hkey]
  have hproper' : ProperEntries (modify (Ordered.erase segment) above n.entries) :=
    proper_modify (fun _ hchildren => hchildren.erase) hproper
  unfold removePruned
  simp only [hremove, hlength, hkey]
  show pruneAbove (above ++ [segment]) above.length
    { n with entries := modify (Ordered.erase segment) above n.entries } = _
  rw [prune_append_singleton hproper segment habove]
  cases hcompound : n.scope.options.noCompoundKeys with
  | false =>
    have hupwards := pruneAbove_eq (n := { n with entries := modify (Ordered.erase segment) above n.entries })
      (above ++ [segment]) above.length hcompound hproper' (by simp)
    rw [List.take_left] at hupwards
    exact hupwards (habove.imp_right fun hchildren => by simp [children?_modify _ hchildren, hchildren])
  | true =>
    -- A key of one segment has nothing above it.
    have hnil : above = [] := by
      have hone := length_resolve key hcompound
      rw [hone] at hlength
      exact List.length_eq_zero_iff.mp hlength.symm
    subst hnil
    rfl

theorem removePruned_eq (hproper : ProperEntries n.entries)
    (h : (find? (n.resolve key).segments n.entries).isSome) :
    n.removePruned key = .ok { n with entries := prune (n.resolve key).segments n.entries } := by
  obtain ⟨above, segment, hkey⟩ := (List.eq_nil_or_concat' _).resolve_left (n.resolve key).ne_nil
  rw [hkey] at h ⊢
  exact removePruned_of_above hproper hkey (above_of_find? h)

end Node

end LayeredConfig
