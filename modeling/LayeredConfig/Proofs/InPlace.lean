import LayeredConfig.Proofs.Created

/-!
# Overlays over leaves

An overlay of a slot that holds a leaf changes this leaf and nothing else: all names keep their places. After any
number of them a configuration is known by its leaves (`InPlace.eq`).
-/

namespace LayeredConfig

namespace Path

variable {entries : Entries} {key : String} {v : Value}

theorem mapValue_mapValue_leaf {f g : List String → Value → Value} (hf : KeepsLeaves f) (hv : v.isNode = false) :
    mapValue g (mapValue f v) = mapValue (fun path w => g path (f path w)) v := by
  rw [mapValue_leaf (f := f) hv, mapValue_leaf (hf [] v hv), mapValue_leaf hv]

mutual

theorem mapValue_mapValue {f g : List String → Value → Value} (hf : KeepsLeaves f) : (v : Value) →
    mapValue g (mapValue f v) = mapValue (fun path w => g path (f path w)) v
  | .node scope provenance entries => by rw [mapValue, mapValue, mapValue, mapLeaves_mapLeaves hf entries]
  | .null | .bool _ | .int _ | .float _ | .str _ | .list _ => mapValue_mapValue_leaf hf rfl

theorem mapLeaves_mapLeaves {f g : List String → Value → Value} (hf : KeepsLeaves f) : (entries : Entries) →
    mapLeaves g (mapLeaves f entries) = mapLeaves (fun path w => g path (f path w)) entries
  | [] => rfl
  | (key, v) :: rest => by
    rw [mapLeaves, mapLeaves, mapLeaves, mapValue_mapValue (hf.below key) v, mapLeaves_mapLeaves hf rest]

end

theorem leaf?_cons_of_fresh (hfresh : key ∉ Ordered.keys entries) {path : List String} {u : Value}
    (h : leaf? path entries = some u) : leaf? path ((key, v) :: entries) = some u := by
  have hnone : entries.lookup key = none := Ordered.lookup_eq_none_iff.mpr hfresh
  cases path with
  | nil => simp at h
  | cons first rest =>
    have hsame : first ≠ key → ((key, v) :: entries).lookup first = entries.lookup first := by
      intro hne
      rw [Ordered.lookup_cons_eq, if_neg (Ne.symm hne)]
    by_cases hrest : rest = []
    · subst hrest
      rw [leaf?_singleton] at h ⊢
      rw [hsame, h]
      rintro rfl
      simp [hnone] at h
    · rw [leaf?_cons first hrest] at h ⊢
      rw [hsame, h]
      rintro rfl
      simp [hnone] at h

mutual

/-- What leaves the leaves as they are changes nothing. -/
theorem mapValue_eq_self {f : List String → Value → Value} : (v : Value) → v.Proper →
    (v.isNode = false → f [] v = v) → (∀ path u, leaf? path (v.entries?.getD []) = some u → f path u = u) →
    mapValue f v = v
  | .node scope provenance entries, hv, _, h => by
    rw [mapValue, mapLeaves_eq_self entries (Value.proper_node.mp hv) h]
  | .null, _, h, _ | .bool _, _, h, _ | .int _, _, h, _ | .float _, _, h, _ | .str _, _, h, _
  | .list _, _, h, _ => by rw [mapValue_leaf rfl, h rfl]

theorem mapLeaves_eq_self {f : List String → Value → Value} : (entries : Entries) → ProperEntries entries →
    (∀ path u, leaf? path entries = some u → f path u = u) → mapLeaves f entries = entries
  | [], _, _ => rfl
  | (key, v) :: rest, hproper, h => by
    obtain ⟨hfresh, hrest⟩ := Ordered.distinct_cons.mp hproper.1
    obtain ⟨hv, hproper⟩ := List.forall_mem_cons.mp hproper.2
    have hlookup : ((key, v) :: rest).lookup key = some v := by simp
    rw [mapLeaves, mapValue_eq_self v hv, mapLeaves_eq_self rest ⟨hrest, hproper⟩]
    · intro path u hu
      exact h path u (leaf?_cons_of_fresh hfresh hu)
    · intro hleaf
      apply h [key] v
      rw [leaf?_singleton, hlookup, Option.filter_some, hleaf]
      rfl
    · intro path u hu
      apply h (key :: path) u
      have hpath : path ≠ [] := by
        rintro rfl
        simp at hu
      rw [leaf?_cons key hpath, hlookup, Option.bind_some]
      cases v with
      | node scope provenance children => exact hu
      | _ => simp [Value.entries?, leaf?, find?_empty] at hu

end

end Path

namespace Config

variable {c d d' : Config} {slot : Slot} {proposal : Proposal} {old : Value}

/-- What overlays of leaves leave of a configuration: everything but the values of leaves and globals. -/
structure InPlace (c d : Config) : Prop where
  scope : d.tree.scope = c.tree.scope
  provenance : d.provenance = c.provenance
  leaves : ∃ f, Path.KeepsLeaves f ∧ d.tree.entries = Path.mapLeaves f c.tree.entries
  globals : Ordered.keys d.globals = Ordered.keys c.globals

theorem InPlace.refl (c : Config) : InPlace c c :=
  ⟨rfl, rfl, ⟨fun _ w => w, fun _ _ hv => hv, (Path.mapLeaves_id _).symm⟩, rfl⟩

theorem InPlace.overlay (h : InPlace c d) (hd : d.Proper) (hold : d.leaf? slot = some old)
    (hok : d.overlay slot proposal = .ok d') : InPlace c d' := by
  obtain ⟨v, hv, hput⟩ := overlay_eq_ok_iff.mp hok
  have hflat := flat_coerce hv
  cases slot with
  | key path =>
    obtain ⟨written, hwritten, rfl⟩ := (put_key_eq_ok_iff hflat).mp hput
    obtain ⟨f, hf, hentries⟩ := h.leaves
    have hmapped := Except.ok.inj (hwritten.symm.trans (Path.write_eq_mapLeaves hd.entries hold))
    refine ⟨h.scope, h.provenance, ⟨fun other w => Path.leafAt path v other (f other w), ?_, ?_⟩, h.globals⟩
    · intro other w hw
      exact Path.keepsLeaves_leafAt path hflat.isNode other _ (hf other w hw)
    · rw [← Path.mapLeaves_mapLeaves hf, ← hentries]
      exact hmapped
  | global name =>
    obtain rfl := Except.ok.inj hput
    refine ⟨h.scope, h.provenance, h.leaves, ?_⟩
    have hmem : name ∈ Ordered.keys d.globals := Ordered.key_mem_of_mem (Ordered.mem_of_lookup hold)
    show Ordered.keys (Ordered.insert name v d.globals) = _
    rw [Ordered.keys_insert, if_pos hmem, h.globals]

/-- **With the leaves it had before, a configuration is what it was.** -/
theorem InPlace.eq (h : InPlace c d) (hc : c.Proper) (hleaf : ∀ slot, d.leaf? slot = c.leaf? slot) : d = c := by
  obtain ⟨⟨scope, provenance, entries⟩, globals⟩ := c
  obtain ⟨⟨scope', provenance', entries'⟩, globals'⟩ := d
  obtain rfl : scope' = scope := h.scope
  obtain rfl : provenance' = provenance := h.provenance
  obtain ⟨f, hf, hentries⟩ := h.leaves
  have hglobals : globals = globals' :=
    Ordered.eq_of_lookup hc.globals.1 h.globals.symm fun name => (hleaf (.global name)).symm
  have hsame : Path.mapLeaves f entries = entries := by
    apply Path.mapLeaves_eq_self entries hc.entries
    intro path u hu
    have hafter : Path.leaf? path entries' = Path.leaf? path entries := hleaf (.key path)
    rw [show entries' = Path.mapLeaves f entries from hentries, Path.leaf?_mapLeaves hf hu, hu] at hafter
    exact Option.some.inj hafter
  obtain rfl : entries' = entries := hentries.trans hsame
  rw [hglobals]

end Config

end LayeredConfig
