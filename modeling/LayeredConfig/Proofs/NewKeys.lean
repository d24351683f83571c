import LayeredConfig.Proofs.InPlace
import LayeredConfig.Proofs.Settled

/-!
# What variables create

After variables have been overlaid, what is there was there before, or a variable went to it, or it is a mapping above
such a slot (`present_of_applyOverlays`). Behind a prefix, variables create keys at the top level only, and these
follow all other keys of the table (`recursiveKeys_of_prefixed`); so a variable finds the key again that it went to
(`EnvDone.envReaches_of_prefixed`). Without a prefix a name that is listed may be found elsewhere: at a mapping that was
created on the way to another listed key (`EnvDone.lookup_of_listed`).
-/

namespace LayeredConfig

namespace Path

theorem all_append (xs ys : Entries) : all (xs ++ ys) = all xs ++ all ys := by
  induction xs with
  | nil => rfl
  | cons entry rest ih => rw [List.cons_append, all, all, ih, List.append_assoc]

mutual

theorem below_mapValue {f : List String → Value → Value} (hf : KeepsLeaves f) : (v : Value) →
    below (mapValue f v) = below v
  | .node _ _ entries => all_mapLeaves hf entries
  | .null | .bool _ | .int _ | .float _ | .str _ | .list _ => by
    rw [mapValue_leaf rfl, below_leaf (hf [] _ rfl), below_leaf rfl]

/-- The values of leaves do not show in the paths. -/
theorem all_mapLeaves {f : List String → Value → Value} (hf : KeepsLeaves f) : (entries : Entries) →
    all (mapLeaves f entries) = all entries
  | [] => rfl
  | (key, v) :: rest => by rw [mapLeaves, all, all, below_mapValue (hf.below key) v, all_mapLeaves hf rest]

end

end Path

namespace Config

variable {c d e : Config} {env : Environment} {options : EnvOptions} {slot : Slot} {o : Overlay}
  {overlays : List Overlay} {front name text : String}

/-- **What is there after variables was there before, or was reached, or is above what was reached.** -/
theorem present_of_applyOverlays (h : Attempt.each applyOverlay c overlays = ⟨e, none⟩) (hroot : slot ≠ .key [])
    (hsome : (e.find? slot).isSome) :
    (c.find? slot).isSome ∨ ∃ reached, c.Reaches overlays reached ∧ (slot = reached ∨ slot.Above reached) := by
  suffices hrun : OverlaysDone c overlays e ∧ ∀ slot ≠ .key [], (e.find? slot).isSome →
      (c.find? slot).isSome ∨ ∃ reached, c.Reaches overlays reached ∧ (slot = reached ∨ slot.Above reached) from
    hrun.2 slot hroot hsome
  refine Attempt.each_induction (motive := fun done after => OverlaysDone c done after ∧ ∀ slot ≠ .key [],
    (after.find? slot).isSome → (c.find? slot).isSome ∨
      ∃ reached, c.Reaches done reached ∧ (slot = reached ∨ slot.Above reached)) ?_ ?_ h
  · exact ⟨OverlaysDone.start c, fun slot _ hsome => Or.inl hsome⟩
  rintro done o rest before after - ⟨hdone, hbefore⟩ hstep
  refine ⟨hdone.step hstep, ?_⟩
  intro slot hroot hsome
  have hearlier : (before.find? slot).isSome → (c.find? slot).isSome ∨
      ∃ reached, c.Reaches (done ++ [o]) reached ∧ (slot = reached ∨ slot.Above reached) := by
    intro hthen
    refine (hbefore slot hroot hthen).imp_right ?_
    rintro ⟨reached, hreached, hslot⟩
    exact ⟨reached, reaches_append_singleton.mpr (Or.inl hreached), hslot⟩
  rw [applyOverlay_eq] at hstep
  cases htarget : before.reached? o.target with
  | none =>
    rw [htarget] at hstep
    obtain rfl := Except.ok.inj hstep
    exact hearlier hsome
  | some target =>
    rw [htarget] at hstep
    have hreaches : c.Reaches (done ++ [o]) target := reaches_append_singleton.mpr (hdone.reached_before htarget)
    obtain ⟨v, -, -, hafter⟩ := overlay_bare? hstep
    rw [isSome_find?, hafter slot hroot] at hsome
    by_cases hslot : slot = target
    · exact Or.inr ⟨target, hreaches, Or.inl hslot⟩
    by_cases habove : slot.Above target
    · exact Or.inr ⟨target, hreaches, Or.inr habove⟩
    · rw [if_neg hslot, if_neg habove, Option.or_none, ← isSome_find?] at hsome
      exact hearlier hsome

/-! ## Behind a prefix -/

/-- Where the path of an overlay comes from: it was there, or it is a new name at the top level. -/
theorem path_of_prefixedOverlay (hc : c.Proper) {path : List String} (ho : o ∈ c.prefixedOverlays env options front)
    (htarget : o.target = .key path) :
    (c.find? (.key path)).isSome ∨ ∃ name, path = [name] ∧ name ∉ Ordered.keys c.tree.recursiveKeys := by
  unfold prefixedOverlays at ho
  obtain ⟨⟨name, rest, text⟩, -, ho⟩ := List.mem_filterMap.mp ho
  dsimp only at ho
  split at ho
  · contradiction
  obtain rfl := Option.some.inj ho
  unfold prefixedTarget at htarget
  split at htarget
  · contradiction
  · split at htarget
    · next entry hfind =>
      obtain rfl := Target.key.inj htarget
      exact Or.inl ((isSome_find?_key_iff hc).mpr (dotted_of_mem_pathTable (List.mem_of_find?_eq_some hfind)).1)
    · next hfind =>
      refine Or.inr ⟨rest, (Target.key.inj htarget).symm, ?_⟩
      intro hmem
      obtain ⟨entry, hentry, rfl⟩ := List.mem_map.mp hmem
      exact List.find?_eq_none.mp hfind entry hentry (Environment.sameName_iff.mpr rfl)

/-- An overlay of a leaf adds no path, and one of a new name at the top level adds it at the end. -/
theorem all_overlay {path : List String} {proposal : Proposal} (hd : d.Proper)
    (hpath : (d.find? (.key path)).isSome ∨ path.length = 1)
    (hok : d.overlay (.key path) proposal = .ok e) :
    Path.all e.tree.entries = Path.all d.tree.entries ∨
      Path.all e.tree.entries = Path.all d.tree.entries ++ [path] := by
  obtain ⟨v, hv, hput⟩ := overlay_eq_ok_iff.mp hok
  have hflat := flat_coerce hv
  have hplain := isNode_of_overlay hv
  obtain ⟨written, hwritten, rfl⟩ := (put_key_eq_ok_iff hflat).mp hput
  show Path.all written = _ ∨ Path.all written = _
  cases hfind : d.find? (.key path) with
  | some old =>
    left
    have hleaf : Path.leaf? path d.tree.entries = some old :=
      Path.leaf?_eq_some_iff.mpr ⟨hfind, hplain old hfind⟩
    obtain rfl := Except.ok.inj (hwritten.symm.trans (Path.write_eq_mapLeaves hd.entries hleaf))
    exact Path.all_mapLeaves (Path.keepsLeaves_leafAt path hflat.isNode) d.tree.entries
  | none =>
    right
    obtain ⟨name, rfl⟩ := List.length_eq_one_iff.mp (hpath.resolve_left (by simp [hfind]))
    have hfresh : name ∉ Ordered.keys d.tree.entries := by
      rw [← Ordered.lookup_eq_none_iff, ← Path.find?_singleton]
      exact hfind
    rw [Path.write_singleton] at hwritten
    obtain rfl := Except.ok.inj hwritten
    rw [Ordered.insert_of_fresh v hfresh, Path.all_append]
    simp [Path.all, Path.below_leaf hflat.isNode]

theorem all_of_prefixed (hc : c.Proper)
    (h : Attempt.each applyOverlay c (c.prefixedOverlays env options front) = ⟨e, none⟩) :
    e.Proper ∧ ∃ new, Path.all e.tree.entries = Path.all c.tree.entries ++ new ∧
      ∀ path ∈ new, c.Reaches (c.prefixedOverlays env options front) (.key path) := by
  refine Attempt.each_induction (motive := fun done after => after.Proper ∧ ∃ new,
    Path.all after.tree.entries = Path.all c.tree.entries ++ new ∧ ∀ path ∈ new, c.Reaches done (.key path)) ?_ ?_ h
  · exact ⟨hc, [], by simp⟩
  rintro done o rest before after hitems ⟨hproper, new, hall, hnew⟩ hstep
  refine ⟨proper_applyOverlay hproper hstep, ?_⟩
  have hearlier : ∀ path ∈ new, c.Reaches (done ++ [o]) (.key path) :=
    fun path hpath => reaches_append_singleton.mpr (Or.inl (hnew path hpath))
  rw [applyOverlay_eq] at hstep
  cases htarget : o.target with
  | global name create =>
    have hsame : after.tree.entries = before.tree.entries := by
      rw [htarget] at hstep
      cases hreached : before.reached? (.global name create) with
      | none =>
        rw [hreached] at hstep
        exact Except.ok.inj hstep ▸ rfl
      | some slot =>
        rw [hreached] at hstep
        obtain rfl := (reached?_global_iff.mp hreached).1
        obtain ⟨v, -, hput⟩ := overlay_eq_ok_iff.mp hstep
        exact Except.ok.inj hput ▸ rfl
    exact ⟨new, hsame ▸ hall, hearlier⟩
  | key path =>
    rw [htarget] at hstep
    have ho : o ∈ c.prefixedOverlays env options front := by simp [hitems]
    have hpath : (before.find? (.key path)).isSome ∨ path.length = 1 := by
      rcases path_of_prefixedOverlay hc ho htarget with hthere | ⟨name, rfl, -⟩
      · left
        rw [isSome_find?_key_iff hc] at hthere
        rw [isSome_find?_key_iff hproper, hall]
        exact List.mem_append_left new hthere
      · exact Or.inr rfl
    rcases all_overlay hproper hpath hstep with hsame | hadded
    · exact ⟨new, hsame.trans hall, hearlier⟩
    · refine ⟨new ++ [path], by rw [hadded, hall, List.append_assoc], ?_⟩
      intro other hother
      rcases List.mem_append.mp hother with hold | hlast
      · exact hearlier other hold
      · rw [List.mem_singleton.mp hlast]
        exact reaches_append_singleton.mpr (Or.inr (by rw [htarget]; rfl))

/-- **Behind a prefix new keys come after all others in the table.** -/
theorem recursiveKeys_of_prefixed (hc : c.Proper)
    (h : Attempt.each applyOverlay c (c.prefixedOverlays env options front) = ⟨e, none⟩) :
    ∃ new : List (List String), e.tree.recursiveKeys = c.tree.recursiveKeys ++ new.map Path.labelled ∧
      ∀ path ∈ new, c.Reaches (c.prefixedOverlays env options front) (.key path) := by
  obtain ⟨hproper, new, hall, hnew⟩ := all_of_prefixed hc h
  have hnodup := hall ▸ Path.nodup_all e.tree.entries hproper.entries
  obtain ⟨-, hdistinct, hapart⟩ := List.nodup_append.mp hnodup
  have hfresh : ∀ path ∈ new, ∃ name, path = [name] ∧ name ∉ Ordered.keys c.tree.recursiveKeys := by
    intro path hpath
    obtain ⟨o, ho, hreached⟩ := hnew path hpath
    have htarget : o.target = .key path := by
      cases hkey : o.target with
      | key other =>
        rw [hkey] at hreached
        exact congrArg Target.key (Slot.key.inj (Option.some.inj hreached))
      | global name create =>
        rw [hkey] at hreached
        have hslot := (reached?_global_iff.mp hreached).1
        contradiction
    refine (path_of_prefixedOverlay hc ho htarget).resolve_left ?_
    intro hthere
    exact hapart path ((isSome_find?_key_iff hc).mp hthere) path hpath rfl
  refine ⟨new, ?_, hnew⟩
  have hkeys : Ordered.keys (new.map Path.labelled) = new.map dotted := by simp [Ordered.keys, Path.labelled]
  have htable : Ordered.Distinct (c.tree.recursiveKeys ++ new.map Path.labelled) := by
    rw [Ordered.Distinct, Ordered.keys_append, hkeys, List.nodup_append]
    refine ⟨distinct_pathTable c.tree.entries, ?_, ?_⟩
    · refine hdistinct.map_on ?_
      intro path hpath other hother hsame
      obtain ⟨name, rfl, -⟩ := hfresh path hpath
      obtain ⟨name', rfl, -⟩ := hfresh other hother
      exact congrArg (fun name => [name]) hsame
    · intro name hname other hother hsame
      obtain ⟨path, hpath, rfl⟩ := List.mem_map.mp hother
      obtain ⟨created, rfl, hcreated⟩ := hfresh path hpath
      obtain rfl : name = created := hsame
      exact hcreated hname
  show pathTable e.tree.entries = pathTable c.tree.entries ++ _
  rw [pathTable_eq, hall, List.map_append, Ordered.ofList, Ordered.insertAll_append]
  rw [Node.recursiveKeys, pathTable_eq] at htable
  rw [pathTable_eq]
  exact Ordered.insertAll_of_fresh htable

/-! ## The whole update -/

/-- What an update from the environment that went well leaves. -/
structure EnvDone (c : Config) (env : Environment) (options : EnvOptions) (d : Config) : Prop where
  proper : d.Proper
  grows : Grows c d
  front : d.envPrefix options = c.envPrefix options
  noted : d.provenance.envPrefix = some (c.envPrefix options)
  /-- The text of a variable gives its slot what is there. -/
  again : ∀ o ∈ c.overlays env options, ∀ slot, c.reached? o.target = some slot →
    ∃ w, d.leaf? slot = some w ∧ coerce (.text o.text) (some w) = .ok w
  present : ∀ slot ≠ .key [], (d.find? slot).isSome →
    (c.find? slot).isSome ∨ ∃ reached, c.EnvReaches env options reached ∧ (slot = reached ∨ slot.Above reached)
  reached : ∀ target slot, d.reached? target = some slot → c.EnvReaches env options slot ∨ c.reached? target = some slot
  prefixed : c.envPrefix options ≠ "" → ∃ new : List (List String),
    d.tree.recursiveKeys = c.tree.recursiveKeys ++ new.map Path.labelled ∧
      ∀ path ∈ new, c.EnvReaches env options (.key path)

theorem envDone_of_updateFromEnvironment (hc : c.Proper) (henv : env.Distinct)
    (h : c.updateFromEnvironment env options = ⟨d, none⟩) : EnvDone c env options d := by
  obtain ⟨e, hrun, rfl⟩ := updateFromEnvironment_eq_iff.mp h
  have hdone := textsDone_of_each henv hrun
  refine ⟨proper_withProvenance (proper_applyOverlays hc hrun) _,
    (grows_applyOverlays hrun).trans (grows_withProvenance e _), ?_, rfl, ?_, ?_, ?_, ?_⟩
  · have hkept := congrArg Provenance.arguments (provenance_applyOverlays hrun)
    exact envPrefix_eq_of_left hkept rfl
  · simpa only [withProvenance_leaf?] using hdone.again
  · intro slot hroot hsome
    have hfind : (e.withProvenance ({· with envPrefix := some (c.envPrefix options)})).find? slot = e.find? slot := by
      cases slot <;> rfl
    exact present_of_applyOverlays hrun hroot (hfind ▸ hsome)
  · intro target slot hreached
    have hsame : (e.withProvenance ({· with envPrefix := some (c.envPrefix options)})).reached? target =
        e.reached? target := by cases target <;> rfl
    exact hdone.toOverlaysDone.reached_before (hsame ▸ hreached)
  · intro hfront
    unfold EnvReaches overlays at *
    rw [if_neg hfront] at hrun ⊢
    have hkeys := recursiveKeys_of_prefixed hc hrun
    exact hkeys

section

variable (hdone : EnvDone c env options d)

include hdone

/-- A mapping above what a variable reached is no leaf. -/
theorem EnvDone.leaf?_above {above : Slot} (hreaches : c.EnvReaches env options slot) (habove : above.Above slot) :
    d.leaf? above = none := by
  obtain ⟨o, ho, hslot⟩ := hreaches
  obtain ⟨w, hw, -⟩ := hdone.again o ho slot hslot
  exact Config.leaf?_above hw habove

/-- **Behind a prefix a variable goes to a slot that a variable went to before.** -/
theorem EnvDone.envReaches_of_prefixed (hfront : c.envPrefix options ≠ "") (ho : o ∈ d.overlays env options)
    (hreached : d.reached? o.target = some slot) : c.EnvReaches env options slot := by
  obtain ⟨new, hkeys, hnew⟩ := hdone.prefixed hfront
  unfold EnvReaches overlays at *
  rw [if_neg hfront] at hnew ⊢
  rw [hdone.front, if_neg hfront] at ho
  unfold prefixedOverlays at ho
  obtain ⟨⟨name, rest, text⟩, hvar, ho⟩ := List.mem_filterMap.mp ho
  dsimp only at ho
  split at ho
  · contradiction
  next hkept =>
  obtain rfl := Option.some.inj ho
  -- The variable had an overlay before; what remains is that it went to the same slot.
  have hthen : ∀ slot, c.reached? (c.prefixedTarget env rest) = some slot →
      c.Reaches (c.prefixedOverlays env options (c.envPrefix options)) slot := by
    intro slot hslot
    exact ⟨⟨c.prefixedTarget env rest, text⟩, List.mem_filterMap.mpr ⟨_, hvar, if_neg hkept⟩, hslot⟩
  unfold prefixedTarget at hreached hthen
  rw [hkeys, List.find?_append] at hreached
  cases hglobal : Arguments.globalName? rest with
  | some global =>
    rw [hglobal] at hreached hthen
    obtain ⟨rfl, -⟩ := reached?_global_iff.mp hreached
    exact hthen _ (reached?_global_iff.mpr ⟨rfl, Or.inr rfl⟩)
  | none =>
    rw [hglobal] at hreached hthen
    dsimp only at hreached hthen
    cases hbefore : c.tree.recursiveKeys.find? fun entry => env.sameName entry.1 rest with
    | some entry =>
      rw [hbefore] at hreached hthen
      exact hthen slot hreached
    | none =>
      rw [hbefore, Option.none_or] at hreached
      rw [hbefore] at hthen
      cases hafter : (new.map Path.labelled).find? fun entry => env.sameName entry.1 rest with
      | none =>
        rw [hafter] at hreached
        exact hthen slot hreached
      | some entry =>
        rw [hafter] at hreached
        obtain ⟨path, hpath, rfl⟩ := List.mem_map.mp (List.mem_of_find?_eq_some hafter)
        obtain rfl := Option.some.inj hreached
        exact hnew path hpath

end

/-! ## Listed names -/

theorem isSome_find?_of_above {above : Slot} (hroot : above ≠ .key []) (habove : above.Above slot)
    (h : (c.find? slot).isSome) : (c.find? above).isSome := by
  cases slot with
  | global name => exact absurd habove (by cases above <;> exact id)
  | key path =>
    cases above with
    | global name => exact absurd habove id
    | key above =>
      obtain ⟨⟨rest, rfl⟩, hne⟩ := habove
      have hchildren := Path.isSome_children?_of_append (by simpa using hroot) (by simpa using hne) h
      exact Option.isSome_of_isSome_bind hchildren

/-- The names that are listed to be read without a prefix, and have a variable. -/
structure Listed (c : Config) (env : Environment) (options : EnvOptions) (name : String) : Prop where
  front : c.envPrefix options = ""
  named : ∃ names, options.only = some names ∧ name ∈ names
  kept : options.excludes env name = false
  present : (env.var? name).isSome

theorem overlays_of_listed {names : List String} (hfront : c.envPrefix options = "")
    (honly : options.only = some names) :
    o ∈ c.overlays env options ↔
      ∃ name, c.Listed env options name ∧ o.target = c.namedTarget name ∧ env.var? name = some o.text := by
  unfold overlays
  rw [hfront, if_pos rfl]
  unfold plainOverlays
  rw [honly]
  dsimp only
  rw [List.filterMap_map, List.mem_filterMap]
  constructor
  · rintro ⟨name, hname, ho⟩
    simp only [Function.comp_apply] at ho
    split at ho
    · contradiction
    · next hkept =>
      obtain ⟨text, htext, rfl⟩ := Option.map_eq_some_iff.mp ho
      exact ⟨name, ⟨hfront, ⟨names, honly, hname⟩, by simpa using hkept, by rw [htext]; rfl⟩, rfl, htext⟩
  · rintro ⟨name, ⟨-, ⟨names', honly', hname⟩, hkept, -⟩, htarget, htext⟩
    obtain rfl := Option.some.inj (honly.symm.trans honly')
    refine ⟨name, hname, ?_⟩
    simp only [Function.comp_apply, hkept, htext, Bool.false_eq_true, if_false, Option.map_some, ← htarget]

theorem namedTarget_of_key (hglobal : Arguments.globalName? name = none) :
    c.namedTarget name = .key ((c.tree.recursiveKeys.lookup name).getD (c.switchPath name)) := by
  rw [namedTarget, hglobal]

section

variable (hdone : EnvDone c env options d) (hlisted : c.Listed env options name)
  (hglobal : Arguments.globalName? name = none)

include hdone hlisted hglobal

/-- **A listed name is found where it was before, or at a new mapping above the key of another name.** -/
theorem EnvDone.lookup_of_listed (hc : c.Proper) :
    ∃ found, d.tree.recursiveKeys.lookup name = some found ∧
      (found = (c.tree.recursiveKeys.lookup name).getD (c.switchPath name) ∨
        c.find? (.key found) = none ∧ ∃ slot, c.EnvReaches env options slot ∧ (Slot.key found).Above slot) := by
  obtain ⟨names, honly, -⟩ := hlisted.named
  obtain ⟨text, htext⟩ := Option.isSome_iff_exists.mp hlisted.present
  generalize hpath : (c.tree.recursiveKeys.lookup name).getD (c.switchPath name) = path
  have htarget : c.namedTarget name = .key path := by rw [namedTarget_of_key hglobal, hpath]
  have hspells := namedTarget_name c name
  rw [htarget] at hspells
  obtain ⟨hname, hroot⟩ : dotted path = name ∧ Slot.key path ≠ .key [] := hspells
  have ho : ⟨.key path, text⟩ ∈ c.overlays env options :=
    (overlays_of_listed hlisted.front honly).mpr ⟨name, hlisted, htarget.symm, htext⟩
  obtain ⟨v, hv, -⟩ := hdone.again _ ho (.key path) rfl
  have hthere : (d.find? (.key path)).isSome := by
    rw [find?_of_leaf? hv]
    rfl
  obtain ⟨found, hfound, hpresent⟩ := exists_lookup_recursiveKeys hdone.proper hthere
  rw [hname] at hfound
  obtain ⟨hmem, hdotted⟩ := mem_of_lookup_pathTable hfound
  refine ⟨found, hfound, ?_⟩
  by_cases hold : (c.find? (.key found)).isSome
  · left
    rw [← hpath, hdone.grows.lookup_recursiveKeys hc hdone.proper hfound hold, Option.getD_some]
  have hfoundRoot : Slot.key found ≠ .key [] := fun heq => Path.ne_nil_of_mem_all hmem (Slot.key.inj heq)
  obtain ⟨slot, hslot, heq | habove⟩ := (hdone.present _ hfoundRoot hpresent).resolve_left hold
  · -- Only the name itself is spelled like this.
    left
    obtain ⟨x, hx, hxslot⟩ := hslot
    obtain ⟨other, -, hother, -⟩ := (overlays_of_listed hlisted.front honly).mp hx
    have hspelled := (namedTarget_name c other).1
    rw [← hother, ← reached?_eq_some hxslot, ← heq] at hspelled
    obtain rfl : name = other := hdotted.symm.trans hspelled
    rw [hother, htarget] at hxslot
    exact Slot.key.inj (heq.trans (Option.some.inj hxslot).symm)
  · exact Or.inr ⟨Option.not_isSome_iff_eq_none.mp hold, slot, hslot, habove⟩

/-- A name that was not known is found at the path that it spells. -/
theorem EnvDone.lookup_of_unknown (hc : c.Proper) (hunknown : c.tree.recursiveKeys.lookup name = none) :
    d.tree.recursiveKeys.lookup name = some (c.switchPath name) := by
  obtain ⟨names, honly, -⟩ := hlisted.named
  obtain ⟨found, hfound, heq | ⟨hnew, slot, hslot, habove⟩⟩ := hdone.lookup_of_listed hlisted hglobal hc
  · rw [hfound, heq, hunknown, Option.getD_none]
  obtain ⟨hmem, hdotted⟩ := mem_of_lookup_pathTable hfound
  have hne := Path.ne_nil_of_mem_all hmem
  obtain ⟨x, hx, hxslot⟩ := hslot
  obtain ⟨other, -, hother, -⟩ := (overlays_of_listed hlisted.front honly).mp hx
  have hslotEq := reached?_eq_some hxslot
  rw [hother] at hslotEq
  cases hotherGlobal : Arguments.globalName? other with
  | some global =>
    rw [namedTarget, hotherGlobal] at hslotEq
    rw [hslotEq] at habove
    exact absurd habove id
  | none =>
    rw [namedTarget_of_key hotherGlobal] at hslotEq
    rw [hslotEq] at habove
    cases hlookup : c.tree.recursiveKeys.lookup other with
    | some path =>
      -- What is above a key that was there was there as well.
      rw [hlookup, Option.getD_some] at habove
      have hthere : (c.find? (.key path)).isSome :=
        (isSome_find?_key_iff hc).mpr (mem_of_lookup_pathTable hlookup).1
      have hpresent := isSome_find?_of_above (by simpa using hne) habove hthere
      rw [hnew] at hpresent
      contradiction
    | none =>
      rw [hlookup, Option.getD_none] at habove
      have hspelled := switchPath_dotted_of_begins c hne habove.1
      rw [hdotted] at hspelled
      rw [hfound, hspelled]

end

end Config

end LayeredConfig
