import LayeredConfig.Proofs.SwitchOrder
import LayeredConfig.Proofs.VariableOrder

/-!
# Growing trees and the names they answer to

Overlays add paths and globals and take none away (`Config.Grows`), so a slot that a table records after an
update, and that was there before, was recorded before (`Grows.lookup_recursiveKeys`). A scan without a prefix asks
for the leaves that are recorded and for the globals (`mem_knownTargets_iff`). So a slot that variables reach in a tree
that has taken them in is there, and they reached it before if it was there before (`asks_of_mem_overlays`).
-/

namespace LayeredConfig.Config

variable {c d e : Config} {env : Environment} {options : EnvOptions} {slot : Slot} {o : Overlay} {name : String}

/-! ## Growing -/

/-- What overlays only add to: the paths of the tree, in their order, and the globals. -/
structure Grows (c d : Config) : Prop extends Extends c d where
  paths : (Path.all c.tree.entries).Sublist (Path.all d.tree.entries)
  globals : ∀ name, (c.globals.lookup name).isSome → (d.globals.lookup name).isSome

theorem Grows.refl (c : Config) : Grows c c := ⟨Extends.refl c, List.Sublist.refl _, fun _ => id⟩

theorem Grows.trans (h : Grows c d) (h' : Grows d e) : Grows c e :=
  ⟨h.toExtends.trans h'.toExtends, h.paths.trans h'.paths, fun name hname => h'.globals name (h.globals name hname)⟩

theorem grows_withProvenance (c : Config) (f : Provenance → Provenance) : Grows c (c.withProvenance f) :=
  ⟨extends_withProvenance c f, List.Sublist.refl _, fun _ => id⟩

theorem grows_overlay {proposal : Proposal} (h : c.overlay slot proposal = .ok d) : Grows c d := by
  refine ⟨extends_overlay h, ?_, ?_⟩
  · obtain ⟨v, hv, hput⟩ := overlay_eq_ok_iff.mp h
    cases slot with
    | global name => exact Except.ok.inj hput ▸ List.Sublist.refl _
    | key path =>
      obtain ⟨written, hwritten, rfl⟩ := (put_key_eq_ok_iff (flat_coerce hv)).mp hput
      exact Path.all_sublist_write (Path.children?_eq_none (isNode_of_overlay hv)) hwritten
  · intro name hname
    obtain ⟨v, -, hleaf⟩ := overlay_leaf? h
    have hafter : d.globals.lookup name = _ := hleaf (.global name) (by simp)
    rw [hafter]
    split
    · rfl
    · exact hname

theorem grows_overlayAt {proposal : Proposal} {slot : Option Slot} (h : c.overlayAt slot proposal = .ok d) :
    Grows c d := by
  cases slot with
  | none => exact Except.ok.inj h ▸ Grows.refl c
  | some slot => exact grows_overlay h

theorem grows_of_each {ι : Type} {step : Config → ι → Except Error Config} {items : List ι}
    (hstep : ∀ before item after, step before item = .ok after → Grows before after)
    (h : Attempt.each step c items = ⟨d, none⟩) : Grows c d := by
  refine Attempt.each_induction (motive := fun _ after => Grows c after) (Grows.refl c) ?_ h
  intro done item rest before after _ hbefore hok
  exact hbefore.trans (hstep before item after hok)

theorem grows_applyOverlays {overlays : List Overlay} (h : Attempt.each applyOverlay c overlays = ⟨d, none⟩) :
    Grows c d := by
  refine grows_of_each ?_ h
  intro before o after hok
  rw [applyOverlay_eq_overlayAt] at hok
  exact grows_overlayAt hok

theorem grows_overlaySwitches {arguments : Arguments} (h : Attempt.each overlaySwitch c arguments = ⟨d, none⟩) :
    Grows c d := by
  refine grows_of_each ?_ h
  intro before switch after hok
  obtain ⟨changed, hchanged, rfl⟩ := overlaySwitch_eq_ok_iff.mp hok
  exact (grows_overlayAt hchanged).trans (grows_withProvenance _ _)

theorem isSome_find?_key_iff (hc : c.Proper) {path : List String} :
    (c.find? (.key path)).isSome ↔ path ∈ Path.all c.tree.entries :=
  (Path.mem_all_iff c.tree.entries hc.entries path).symm

theorem Grows.isSome_find? (h : Grows c d) (hc : c.Proper) (hd : d.Proper) (hsome : (c.find? slot).isSome) :
    (d.find? slot).isSome := by
  cases slot with
  | global name => exact h.globals name hsome
  | key path =>
    rw [isSome_find?_key_iff hc] at hsome
    rw [isSome_find?_key_iff hd]
    exact h.paths.subset hsome

/-- What a grown table records and was there before, was recorded before. -/
theorem Grows.lookup_recursiveKeys (h : Grows c d) (hc : c.Proper) (hd : d.Proper) {name : String}
    {path : List String} (hlookup : d.tree.recursiveKeys.lookup name = some path)
    (hsome : (c.find? (.key path)).isSome) : c.tree.recursiveKeys.lookup name = some path :=
  lookup_pathTable_of_sublist h.paths hd.entries hlookup ((isSome_find?_key_iff hc).mp hsome)

theorem exists_lookup_recursiveKeys (hc : c.Proper) {path : List String} (h : (c.find? (.key path)).isSome) :
    ∃ recorded, c.tree.recursiveKeys.lookup (dotted path) = some recorded ∧ (c.find? (.key recorded)).isSome := by
  cases hlookup : c.tree.recursiveKeys.lookup (dotted path) with
  | none => exact absurd rfl (lookup_pathTable_eq_none_iff.mp hlookup path ((isSome_find?_key_iff hc).mp h))
  | some recorded =>
    exact ⟨recorded, rfl, (isSome_find?_key_iff hc).mpr (mem_of_lookup_pathTable hlookup).1⟩

/-! ## The targets of a scan -/

/-- The known targets are the leaves that are recorded, and the globals. -/
theorem mem_knownTargets_iff (hc : c.Proper) {target : Target} : (name, target) ∈ c.knownTargets ↔
    (∃ path, target = .key path ∧ c.tree.recursiveKeys.lookup name = some path ∧ (c.leaf? (.key path)).isSome) ∨
      ∃ global, target = .global global false ∧ (c.leaf? (.global global)).isSome ∧
        (Slot.global global).name = name := by
  have hleaf : ∀ path ∈ Path.all c.tree.entries,
      (!(Path.find? path c.tree.entries).any Value.isNode) = (c.leaf? (.key path)).isSome := by
    intro path hpath
    obtain ⟨v, hv⟩ := Option.isSome_iff_exists.mp ((isSome_find?_key_iff hc).mpr hpath)
    have hfind : Path.find? path c.tree.entries = some v := hv
    show _ = (Path.leaf? path c.tree.entries).isSome
    cases hnode : v.isNode <;> simp [Path.leaf?, hfind, hnode]
  unfold knownTargets
  rw [List.mem_append]
  refine or_congr ?_ ?_
  · simp only [List.mem_map, List.mem_filter, Prod.mk.injEq]
    constructor
    · rintro ⟨⟨name, path⟩, ⟨hentry, hplain⟩, rfl, rfl⟩
      rw [hleaf path (dotted_of_mem_pathTable hentry).1] at hplain
      exact ⟨path, rfl, Ordered.lookup_of_mem (distinct_pathTable c.tree.entries) hentry, hplain⟩
    · rintro ⟨path, rfl, hlookup, hplain⟩
      refine ⟨(name, path), ⟨Ordered.mem_of_lookup hlookup, ?_⟩, rfl, rfl⟩
      rwa [hleaf path (mem_of_lookup_pathTable hlookup).1]
  · simp only [List.mem_map, Prod.mk.injEq]
    constructor
    · rintro ⟨⟨global, v⟩, hentry, rfl, rfl⟩
      exact ⟨global, rfl, Option.isSome_of_mem (Ordered.lookup_of_mem hc.globals.1 hentry), rfl⟩
    · rintro ⟨global, rfl, hthere, rfl⟩
      obtain ⟨v, hv⟩ := Option.isSome_iff_exists.mp hthere
      exact ⟨(global, v), Ordered.mem_of_lookup hv, rfl, rfl⟩

theorem overlays_of_scanned (hfront : c.envPrefix options = "") (hscan : options.only = none) :
    o ∈ c.overlays env options ↔ ∃ name, (name, o.target) ∈ c.knownTargets ∧ options.excludes env name = false ∧
      env.var? name = some o.text := by
  unfold overlays
  rw [hfront, if_pos rfl]
  unfold plainOverlays
  rw [hscan]
  dsimp only
  rw [List.mem_filterMap]
  constructor
  · rintro ⟨⟨name, target⟩, hknown, ho⟩
    split at ho
    · contradiction
    · next hkept =>
      obtain ⟨text, htext, rfl⟩ := Option.map_eq_some_iff.mp ho
      exact ⟨name, hknown, by simpa using hkept, htext⟩
  · rintro ⟨name, hknown, hkept, htext⟩
    refine ⟨(name, o.target), hknown, ?_⟩
    simp only [hkept, htext, Bool.false_eq_true, if_false, Option.map_some]

/-- A scan reaches something, and only leaves and globals that are there. -/
theorem leaf_of_scanned (hc : c.Proper) (hfront : c.envPrefix options = "") (hscan : options.only = none)
    (ho : o ∈ c.overlays env options) :
    (c.reached? o.target).isSome ∧ ∀ slot, c.reached? o.target = some slot → (c.leaf? slot).isSome := by
  obtain ⟨name, hknown, -⟩ := (overlays_of_scanned hfront hscan).mp ho
  rcases (mem_knownTargets_iff hc).mp hknown with ⟨path, htarget, -, hleaf⟩ | ⟨global, htarget, hthere, -⟩
  · rw [htarget]
    exact ⟨rfl, fun slot hslot => Option.some.inj hslot ▸ hleaf⟩
  · rw [htarget]
    refine ⟨by rw [reached?_global_iff.mpr ⟨rfl, Or.inl hthere⟩]; rfl, ?_⟩
    intro slot hslot
    rw [(reached?_global_iff.mp hslot).1]
    exact hthere

/-! ## The slots of variables -/

/-- The target of a name that is asked for: the global in braces, the key that the table records, or else
another path of that name. -/
def targetFor (c : Config) (create : Bool) (fallback : String → List String) (name : String) : Target :=
  match Arguments.globalName? name with
  | some global => .global global create
  | none => .key ((c.tree.recursiveKeys.lookup name).getD (fallback name))

/-- Unless the known keys themselves are looked up, an environment asks for the same names whatever the tree holds. -/
theorem overlays_eq_map (hcase : env.caseInsensitive = false)
    (hmode : ¬ (c.envPrefix options = "" ∧ options.only = none)) :
    ∃ (create : Bool) (fallback : String → List String) (asked : List (String × String)),
      (∀ name, dotted (fallback name) = name) ∧
      ∀ d : Config, d.tree.scope = c.tree.scope → d.envPrefix options = c.envPrefix options →
        d.overlays env options = asked.map fun item => ⟨d.targetFor create fallback item.1, item.2⟩ := by
  by_cases hfront : c.envPrefix options = ""
  · obtain ⟨names, hnames⟩ := Option.ne_none_iff_exists'.mp fun honly => hmode ⟨hfront, honly⟩
    refine ⟨false, c.switchPath, names.filterMap fun name =>
      if options.excludes env name then none else (env.var? name).map fun text => (name, text),
      dotted_switchPath c, ?_⟩
    intro d hscope hsame
    have hpath : d.switchPath = c.switchPath := by
      funext name
      rw [switchPath, switchPath, hscope]
    unfold overlays
    rw [hsame, if_pos hfront]
    unfold plainOverlays
    rw [hnames]
    dsimp only
    rw [List.filterMap_map, List.map_filterMap]
    apply List.filterMap_congr
    intro name _
    have htarget : d.namedTarget name = d.targetFor false c.switchPath name := by
      cases hglobal : Arguments.globalName? name <;> simp only [namedTarget, targetFor, hglobal, hpath]
    show (if options.excludes env name then none
      else (env.var? name).map fun text => (⟨d.namedTarget name, text⟩ : Overlay)) = _
    rw [htarget]
    split
    · rfl
    · rw [Option.map_map]
      rfl
  · refine ⟨true, fun rest => [rest], (prefixedVars env options (c.envPrefix options)).filterMap fun found =>
      if found.2.1 = "" ∨ options.excludes env found.1 ∨ options.excludes env found.2.1 then none
      else some (found.2.1, found.2.2), fun _ => rfl, ?_⟩
    intro d _ hsame
    unfold overlays
    rw [hsame, if_neg hfront]
    unfold prefixedOverlays
    rw [List.map_filterMap]
    apply List.filterMap_congr
    rintro ⟨name, rest, text⟩ -
    dsimp only
    split
    · rfl
    · rw [prefixedTarget_of_sensitive hcase]
      rfl

/-- What is known of a slot that a variable reaches in `d`, which has grown from `c`. -/
structure Asks (c d : Config) (env : Environment) (options : EnvOptions) (slot : Slot) : Prop where
  present : (d.find? slot).isSome
  before : (c.find? slot).isSome → c.EnvReaches env options slot

section

variable (hc : c.Proper) (hd : d.Proper) (hgrows : Grows c d)

include hc hd hgrows

/-- A name that is asked for in a tree in which what it asked for before is there. -/
theorem asks_of_targetFor {create : Bool} {fallback : String → List String} {name : String}
    (hfallback : dotted (fallback name) = name)
    (hreach : ∀ slot, c.reached? (c.targetFor create fallback name) = some slot →
      c.EnvReaches env options slot ∧ (d.find? slot).isSome)
    (hreached : d.reached? (d.targetFor create fallback name) = some slot) : Asks c d env options slot := by
  unfold targetFor at hreach hreached
  cases hglobal : Arguments.globalName? name with
  | some global =>
    rw [hglobal] at hreach hreached
    dsimp only at hreach hreached
    obtain ⟨rfl, hknown⟩ := reached?_global_iff.mp hreached
    constructor
    · rcases hknown with hknown | hcreate
      · exact hknown
      · exact (hreach _ (reached?_global_iff.mpr ⟨rfl, Or.inr hcreate⟩)).2
    · intro hsome
      exact (hreach _ (reached?_global_iff.mpr ⟨rfl, Or.inl hsome⟩)).1
  | none =>
    rw [hglobal] at hreach hreached
    dsimp only at hreach hreached
    obtain ⟨hthen, hthere⟩ := hreach _ rfl
    obtain rfl := Option.some.inj hreached
    -- What was asked for before has the same name, so the table knows the name now.
    have hname : dotted ((c.tree.recursiveKeys.lookup name).getD (fallback name)) = name := by
      cases hlookup : c.tree.recursiveKeys.lookup name with
      | none => exact hfallback
      | some path => exact (mem_of_lookup_pathTable hlookup).2
    obtain ⟨recorded, hrecorded, hpresent⟩ := exists_lookup_recursiveKeys hd hthere
    rw [hname] at hrecorded
    rw [hrecorded, Option.getD_some]
    refine ⟨hpresent, ?_⟩
    intro hsome
    rwa [hgrows.lookup_recursiveKeys hc hd hrecorded hsome, Option.getD_some] at hthen

theorem asks_of_scanned (hfront : d.envPrefix options = c.envPrefix options) (hempty : c.envPrefix options = "")
    (hscan : options.only = none) (ho : o ∈ d.overlays env options) (hreached : d.reached? o.target = some slot) :
    Asks c d env options slot := by
  obtain ⟨name, hknown, hkept, htext⟩ := (overlays_of_scanned (hfront.trans hempty) hscan).mp ho
  -- The same target had an overlay before, if it was known.
  have hthen : (name, o.target) ∈ c.knownTargets → c.reached? o.target = some slot → c.EnvReaches env options slot :=
    fun hbefore hreach => ⟨o, (overlays_of_scanned hempty hscan).mpr ⟨name, hbefore, hkept, htext⟩, hreach⟩
  rcases (mem_knownTargets_iff hd).mp hknown with ⟨path, htarget, hlookup, hleaf⟩ | ⟨global, htarget, hthere, hname⟩
  · rw [htarget] at hreached hthen
    obtain rfl := Option.some.inj hreached
    refine ⟨(isSome_find?_key_iff hd).mpr (mem_of_lookup_pathTable hlookup).1, ?_⟩
    intro hsome
    apply hthen _ rfl
    have hbefore := hgrows.lookup_recursiveKeys hc hd hlookup hsome
    have hplain : ∀ v ∈ d.find? (.key path), v.isNode = false := by
      obtain ⟨w, hw⟩ := Option.isSome_iff_exists.mp hleaf
      obtain ⟨hfind, hw⟩ := Path.leaf?_eq_some_iff.mp hw
      intro v hv
      exact Option.some.inj (hfind.symm.trans hv) ▸ hw
    have hfind := hgrows.toExtends.find?_eq_leaf? hplain
    exact (mem_knownTargets_iff hc).mpr (Or.inl ⟨path, rfl, hbefore, hfind ▸ hsome⟩)
  · rw [htarget] at hreached hthen
    obtain ⟨rfl, -⟩ := reached?_global_iff.mp hreached
    refine ⟨hthere, ?_⟩
    intro hsome
    apply hthen
    · exact (mem_knownTargets_iff hc).mpr (Or.inr ⟨global, rfl, hsome, hname⟩)
    · exact reached?_global_iff.mpr ⟨rfl, Or.inl hsome⟩

/-- **What is known of the slots that variables reach once a tree has taken them in.** -/
theorem asks_of_mem_overlays (hcase : env.caseInsensitive = false)
    (hfront : d.envPrefix options = c.envPrefix options)
    (hdone : ∀ slot, c.EnvReaches env options slot → (d.find? slot).isSome) (ho : o ∈ d.overlays env options)
    (hreached : d.reached? o.target = some slot) : Asks c d env options slot := by
  by_cases hmode : c.envPrefix options = "" ∧ options.only = none
  · obtain ⟨hempty, honly⟩ := hmode
    exact asks_of_scanned hc hd hgrows hfront hempty honly ho hreached
  · obtain ⟨create, fallback, asked, hfallback, hoverlays⟩ := overlays_eq_map hcase hmode
    rw [hoverlays d hgrows.scope hfront] at ho
    obtain ⟨item, hitem, rfl⟩ := List.mem_map.mp ho
    refine asks_of_targetFor hc hd hgrows (hfallback item.1) ?_ hreached
    intro other hother
    have hthen : c.EnvReaches env options other := by
      refine ⟨⟨c.targetFor create fallback item.1, item.2⟩, ?_, hother⟩
      rw [hoverlays c rfl rfl]
      exact List.mem_map_of_mem hitem
    exact ⟨hthen, hdone other hthen⟩

end

end LayeredConfig.Config
