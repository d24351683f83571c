import LayeredConfig.Proofs.Scan

/-!
# A scan for a prefix

Where cases are told apart, a scan for a prefix reads the variables that begin with it and are not left out
(`counted`), and no others (`updateFromEnvironment_congr_beginning`). What follows the prefix is a global in braces, the
name of a recorded key, or a new key at the top level, dots included. This is settled before anything is written, and
stays right: different variables have different slots, and a name that is not recorded is no entry at the top level, so
that the key it creates is beside all others. A recorded key can be a mapping; then the scan fails.
-/

namespace LayeredConfig

/-- The variables whose names begin with a prefix. -/
def Environment.beginning (env : Environment) (front : String) : List (String × String) :=
  env.vars.filter fun entry => front.toList <+: entry.1.toList

namespace Config

variable {c c' : Config} {env env' : Environment} {options : EnvOptions} {front rest text name : String}
  {path : List String} {vars : List (String × String)}

/-! ## The variables that count -/

/-- What follows the prefix in the names of variables, with their texts: something does, and neither the whole name nor
the rest of it is left out. -/
def counted (env : Environment) (options : EnvOptions) (front : String) : List (String × String) :=
  (prefixedVars env options front).filterMap fun (name, rest, text) =>
    if rest = "" ∨ options.excludes env name ∨ options.excludes env rest then none else some (rest, text)

theorem prefixedOverlays_eq_map (c : Config) (env : Environment) (options : EnvOptions) (front : String) :
    c.prefixedOverlays env options front =
      (counted env options front).map fun found => ⟨c.prefixedTarget env found.1, found.2⟩ := by
  unfold prefixedOverlays counted
  rw [List.map_filterMap]
  apply List.filterMap_congr
  rintro ⟨name, rest, text⟩ -
  dsimp only
  split <;> rfl

theorem excludes_of_sensitive (hcase : env.caseInsensitive = false) :
    options.excludes env name = true ↔ name ∈ options.excluded := by
  simp [EnvOptions.excludes, Environment.sameName, hcase]

theorem mem_counted_iff (hcase : env.caseInsensitive = false) (hscan : options.only = none) :
    (rest, text) ∈ counted env options front ↔
      (front ++ rest, text) ∈ env.vars ∧ rest ≠ "" ∧ front ++ rest ∉ options.excluded ∧ rest ∉ options.excluded := by
  unfold counted prefixedVars
  rw [hscan]
  simp only [List.mem_filterMap, Option.map_eq_some_iff, Prod.exists, excludes_of_sensitive hcase,
    Environment.afterPrefix?_eq_some_iff hcase]
  constructor
  · rintro ⟨name, rest', text', ⟨name', text'', hentry, after, rfl, heq⟩, hkept⟩
    obtain ⟨rfl, rfl, rfl⟩ : front ++ after = name ∧ after = rest' ∧ text'' = text' := by simpa using heq
    split at hkept
    · contradiction
    · next hnone =>
      obtain ⟨rfl, rfl⟩ := Prod.mk.inj (Option.some.inj hkept)
      simp only [not_or] at hnone
      exact ⟨hentry, hnone⟩
  · rintro ⟨hentry, hkept⟩
    refine ⟨front ++ rest, rest, text, ⟨front ++ rest, text, hentry, rest, rfl, rfl⟩, if_neg ?_⟩
    simpa only [not_or] using hkept

/-! ## Variables without the prefix -/

theorem prefixedVars_eq_beginning (hcase : env.caseInsensitive = false) (hscan : options.only = none) :
    prefixedVars env options front = (env.beginning front).filterMap fun entry =>
      (env.afterPrefix? front entry.1).map fun rest => (entry.1, rest, entry.2) := by
  unfold prefixedVars Environment.beginning
  rw [hscan, List.filterMap_filter]
  apply List.filterMap_congr
  rintro ⟨name, text⟩ -
  dsimp only
  split
  · rfl
  · next hother =>
    cases hafter : env.afterPrefix? front name with
    | none => rfl
    | some rest =>
      obtain rfl := (Environment.afterPrefix?_eq_some_iff hcase).mp hafter
      simp at hother

/-- **Variables without the prefix have no influence.** -/
theorem updateFromEnvironment_congr_beginning (hcase : env.caseInsensitive = false)
    (hcase' : env'.caseInsensitive = false) (hscan : options.only = none) (hfront : c.envPrefix options ≠ "")
    (hsame : env'.beginning (c.envPrefix options) = env.beginning (c.envPrefix options)) :
    c.updateFromEnvironment env' options = c.updateFromEnvironment env options := by
  have hcases := hcase'.trans hcase.symm
  have hnames := Environment.sameName_congr hcases
  have hafter : env'.afterPrefix? = env.afterPrefix? := by
    funext front name
    rw [Environment.afterPrefix?, Environment.afterPrefix?, hcases]
  have hexcludes : options.excludes env' = options.excludes env := by
    funext name
    rw [EnvOptions.excludes, EnvOptions.excludes, hnames]
  have htarget : c.prefixedTarget env' = c.prefixedTarget env := by
    funext rest
    rw [prefixedTarget, prefixedTarget, hnames]
  have hoverlays : c.overlays env' options = c.overlays env options := by
    rw [overlays, if_neg hfront, overlays, if_neg hfront, prefixedOverlays, prefixedOverlays,
      prefixedVars_eq_beginning hcase hscan, prefixedVars_eq_beginning hcase' hscan, hsame, hafter, hexcludes, htarget]
  rw [updateFromEnvironment, updateFromEnvironment, hoverlays]

/-! ## What is created -/

/-- The keys that variables create: those whose names are neither a global in braces nor recorded. -/
def newKeys (c : Config) (vars : List (String × String)) : Entries :=
  vars.filterMap fun (rest, text) =>
    if Arguments.globalName? rest = none ∧ rest ∉ Ordered.keys c.tree.recursiveKeys then some (rest, .str text)
    else none

/-- The globals that variables create. -/
def newGlobals (c : Config) (vars : List (String × String)) : Entries :=
  vars.filterMap fun (rest, text) =>
    ((Arguments.globalName? rest).filter (· ∉ Ordered.keys c.globals)).map fun name => (name, .str text)

section

variable (hc : c.Proper)

include hc

/-- A name that is not recorded is no key at the top level. -/
theorem not_mem_keys_of_unrecorded (h : c.tree.recursiveKeys.lookup rest = none) :
    rest ∉ Ordered.keys c.tree.entries := by
  intro hmem
  have hthere : (c.find? (.key [rest])).isSome := by
    show (Path.find? [rest] c.tree.entries).isSome
    rw [Path.find?_singleton]
    by_contra hnone
    exact Ordered.lookup_eq_none_iff.mp (Option.not_isSome_iff_eq_none.mp hnone) hmem
  obtain ⟨recorded, hrecorded, -⟩ := exists_lookup_recursiveKeys hc hthere
  rw [show dotted [rest] = rest from rfl, h] at hrecorded
  contradiction

theorem mem_keys_of_recorded (h : c.tree.recursiveKeys.lookup rest = some [name]) :
    name ∈ Ordered.keys c.tree.entries :=
  Path.mem_keys_of_find? ((isSome_find?_key_iff hc).mpr (mem_of_lookup_pathTable h).1)

variable (hcase : env.caseInsensitive = false)

include hcase

theorem addedBy_prefixed (vars : List (String × String)) :
    addedBy Slot.topKey? c.tree.entries (vars.map fun found => ⟨c.prefixedTarget env found.1, found.2⟩) =
      c.newKeys vars := by
  unfold addedBy newKeys
  rw [List.filterMap_map]
  apply List.filterMap_congr
  rintro ⟨rest, text⟩ -
  dsimp only [Function.comp_apply]
  rw [prefixedTarget_of_sensitive hcase]
  cases hglobal : Arguments.globalName? rest with
  | some global => simp [Target.slot, Slot.topKey?]
  | none =>
    cases hlookup : c.tree.recursiveKeys.lookup rest with
    | none =>
      have hnew := not_mem_keys_of_unrecorded hc hlookup
      simp [Target.slot, Slot.topKey?, hnew, Ordered.lookup_eq_none_iff.mp hlookup]
    | some path =>
      have hmem : rest ∈ Ordered.keys c.tree.recursiveKeys := Ordered.key_mem_of_mem (Ordered.mem_of_lookup hlookup)
      have hthere : ∀ name, (Slot.key path).topKey? = some name → name ∈ Ordered.keys c.tree.entries := by
        intro name hname
        obtain rfl : path = [name] := Slot.key.inj (Slot.topKey?_eq_some_iff.mp hname)
        exact mem_keys_of_recorded hc hlookup
      simpa [Target.slot, hmem] using hthere

omit hc in
theorem addedBy_globalName? (vars : List (String × String)) :
    addedBy Slot.globalName? c.globals (vars.map fun found => ⟨c.prefixedTarget env found.1, found.2⟩) =
      c.newGlobals vars := by
  unfold addedBy newGlobals
  rw [List.filterMap_map]
  apply List.filterMap_congr
  rintro ⟨rest, text⟩ -
  dsimp only [Function.comp_apply]
  rw [prefixedTarget_of_sensitive hcase]
  cases Arguments.globalName? rest <;> rfl

end

/-! ## The scan -/

/-- What a scan for a prefix leaves of a configuration. -/
structure PrefixScanned (c : Config) (vars : List (String × String)) (front : String) (c' : Config) : Prop where
  proper : c'.Proper
  /-- A global in braces has its text, as a value of the kind that it had, or as a string if it was not there. -/
  globals : ∀ rest text name, (rest, text) ∈ vars → Arguments.globalName? rest = some name →
    ∃ v, coerce (.text text) (c.globals.lookup name) = .ok v ∧ c'.globals.lookup name = some v
  /-- A recorded key has its text at the path that is recorded, as a value of the kind that it had. -/
  known : ∀ rest text path, (rest, text) ∈ vars → Arguments.globalName? rest = none →
    c.tree.recursiveKeys.lookup rest = some path →
    ∃ old v, c.find? (.key path) = some old ∧ coerce (.text text) (some old) = .ok v ∧ c'.find? (.key path) = some v
  /-- Any other name is a new key at the top level with its text as a string. -/
  new : ∀ rest text, (rest, text) ∈ vars → Arguments.globalName? rest = none →
    c.tree.recursiveKeys.lookup rest = none → c'.find? (.key [rest]) = some (.str text)
  /-- All else of the tree is as it was, and the new keys come behind, in the order of the variables. -/
  tree : ∃ f, Path.KeepsLeaves f ∧ c'.tree.entries = Path.mapLeaves f c.tree.entries ++ c.newKeys vars ∧
    ∀ path old, c.leaf? (.key path) = some old → (∀ rest ∈ Ordered.keys vars, Arguments.globalName? rest = none →
      c.tree.recursiveKeys.lookup rest ≠ some path) → f path old = old
  /-- So are the globals, and the new ones come behind. -/
  table : ∃ f : String → Value → Value,
    c'.globals = (c.globals.map fun entry => (entry.1, f entry.1 entry.2)) ++ c.newGlobals vars ∧
    ∀ name, (∀ rest ∈ Ordered.keys vars, Arguments.globalName? rest ≠ some name) → ∀ old, f name old = old
  provenance : c'.provenance = { c.provenance with envPrefix := some front }

section

variable (hc : c.Proper) (hcase : env.caseInsensitive = false)

include hc

theorem lands_of_prefixed {o : Overlay} (ho : o ∈ c.prefixedOverlays env options front) : c.Lands o := by
  cases htarget : o.target with
  | global name create =>
    rw [prefixedOverlays_eq_map] at ho
    obtain ⟨found, -, rfl⟩ := List.mem_map.mp ho
    have hcreate : create = true := by
      dsimp only at htarget
      unfold prefixedTarget at htarget
      split at htarget
      · exact (Target.global.inj htarget).2.symm
      · split at htarget <;> contradiction
    rw [Lands, htarget, hcreate]
    exact ⟨reached?_global_iff.mpr ⟨rfl, Or.inr rfl⟩, trivial⟩
  | key path =>
    rw [Lands, htarget]
    refine ⟨rfl, (path_of_prefixedOverlay hc ho htarget).imp_right ?_⟩
    rintro ⟨name, hname, -⟩
    exact ⟨name, hname⟩

include hcase

omit hc in
theorem textAt_global_eq_none {vars : List (String × String)}
    (hnone : ∀ rest ∈ Ordered.keys vars, Arguments.globalName? rest ≠ some name) :
    textAt (vars.map fun found => ⟨c.prefixedTarget env found.1, found.2⟩) (.global name) = none := by
  apply textAt_eq_none
  intro o ho
  obtain ⟨⟨rest, text⟩, hfound, rfl⟩ := List.mem_map.mp ho
  have hother := hnone rest (Ordered.key_mem_of_mem hfound)
  dsimp only
  rw [prefixedTarget_of_sensitive hcase]
  cases hglobal : Arguments.globalName? rest with
  | some global =>
    rintro ⟨⟩
    exact hother hglobal
  | none => simp [Target.slot]

/-- There is no text for a leaf that no variable is named for; nor is there one for its path as a new key. -/
theorem textAt_key_eq_none {vars : List (String × String)} {old : Value} (hold : c.leaf? (.key path) = some old)
    (hnone : ∀ rest ∈ Ordered.keys vars, Arguments.globalName? rest = none →
      c.tree.recursiveKeys.lookup rest ≠ some path) :
    textAt (vars.map fun found => ⟨c.prefixedTarget env found.1, found.2⟩) (.key path) = none := by
  apply textAt_eq_none
  intro o ho
  obtain ⟨⟨rest, text⟩, hfound, rfl⟩ := List.mem_map.mp ho
  have hother := hnone rest (Ordered.key_mem_of_mem hfound)
  dsimp only
  rw [prefixedTarget_of_sensitive hcase]
  cases hglobal : Arguments.globalName? rest with
  | some global => simp [Target.slot]
  | none =>
    cases hlookup : c.tree.recursiveKeys.lookup rest with
    | some recorded =>
      rintro ⟨⟩
      exact hother hglobal hlookup
    | none =>
      rintro ⟨⟩
      apply not_mem_keys_of_unrecorded hc hlookup
      exact Path.mem_keys_of_find? (Option.isSome_of_mem (find?_of_leaf? hold))

end

/-- **What a scan for a prefix does.** The variables that count are those with the prefix and something after it that
are not left out. If the scan succeeds, they have given their texts to their globals, recorded keys and new keys, as
the configuration before the scan names them, and all else is as it was; variables without the prefix have no
influence. -/
theorem updateFromEnvironment_prefixed (hc : c.Proper) (hcase : env.caseInsensitive = false) (hd : env.Distinct)
    (hscan : options.only = none) (hfront : c.envPrefix options = front) (hne : front ≠ "")
    (h : c.updateFromEnvironment env options = ⟨c', none⟩) :
    (∀ rest text, (rest, text) ∈ counted env options front ↔ (front ++ rest, text) ∈ env.vars ∧ rest ≠ "" ∧
      front ++ rest ∉ options.excluded ∧ rest ∉ options.excluded) ∧
      PrefixScanned c (counted env options front) front c' ∧
      ∀ env' : Environment, env'.caseInsensitive = false → env'.beginning front = env.beginning front →
        c.updateFromEnvironment env' options = ⟨c', none⟩ := by
  obtain rfl := hfront
  refine ⟨fun rest text => mem_counted_iff hcase hscan, ?_, ?_⟩
  swap
  · intro env' hcase' hsame
    rw [updateFromEnvironment_congr_beginning hcase hcase' hscan hne hsame, h]
  obtain ⟨overlaid, hrun, rfl⟩ := updateFromEnvironment_eq_iff.mp h
  have hoverlays : c.overlays env options = c.prefixedOverlays env options (c.envPrefix options) := by
    rw [overlays, if_neg hne]
  rw [hoverlays] at hrun
  have hdone := textsTaken_of_each hc (pairwise_prefixedOverlays hd hscan c _) (fun o => lands_of_prefixed hc) hrun
  have hmap := prefixedOverlays_eq_map c env options (c.envPrefix options)
  have hvalue : ∀ rest text slot, (rest, text) ∈ counted env options (c.envPrefix options) →
      (c.prefixedTarget env rest).slot = slot → ∃ v, coerce (.text text) (c.find? slot) = .ok v ∧
        overlaid.find? slot = some v := by
    rintro rest text slot hfound rfl
    obtain ⟨v, hv, hleaf⟩ := hdone.values ⟨c.prefixedTarget env rest, text⟩ (hmap ▸ List.mem_map_of_mem hfound)
    exact ⟨v, hv, find?_of_leaf? hleaf⟩
  simp only [prefixedTarget_of_sensitive hcase] at hvalue
  constructor
  case proper => exact proper_withProvenance (proper_applyOverlays hc hrun) _
  case globals =>
    intro rest text name hfound hglobal
    exact hvalue rest text (.global name) hfound (by rw [hglobal]; rfl)
  case known =>
    intro rest text path hfound hglobal hrecorded
    obtain ⟨v, hv, hthere⟩ := hvalue rest text (.key path) hfound (by rw [hglobal, hrecorded]; rfl)
    obtain ⟨old, hold⟩ := Option.isSome_iff_exists.mp
      ((isSome_find?_key_iff hc).mpr (mem_of_lookup_pathTable hrecorded).1)
    exact ⟨old, v, hold, hold ▸ hv, hthere⟩
  case new =>
    intro rest text hfound hglobal hunknown
    obtain ⟨v, hv, hthere⟩ := hvalue rest text (.key [rest]) hfound (by rw [hglobal, hunknown]; rfl)
    have hmissing : c.find? (.key [rest]) = none := by
      show Path.find? [rest] c.tree.entries = none
      rw [Path.find?_singleton, Ordered.lookup_eq_none_iff]
      exact not_mem_keys_of_unrecorded hc hunknown
    rw [hmissing] at hv
    obtain rfl : .str text = v := Except.ok.inj hv
    exact hthere
  case tree =>
    refine ⟨_, keepsLeaves_recast fun path => textAt (c.prefixedOverlays env options (c.envPrefix options)) (.key path),
      ?_, ?_⟩
    · show overlaid.tree.entries = _
      rw [hdone.whole, ← addedBy_prefixed hc hcase, ← hmap]
      rfl
    · intro path old hold hnone
      rw [hmap, textAt_key_eq_none hc hcase hold hnone, Value.recast_none]
  case table =>
    refine ⟨fun name => Value.recast (textAt (c.prefixedOverlays env options (c.envPrefix options)) (.global name)),
      ?_, ?_⟩
    · show overlaid.globals = _
      rw [hdone.whole, ← addedBy_globalName? hcase, ← hmap]
      rfl
    · intro name hnone old
      dsimp only
      rw [hmap, textAt_global_eq_none hcase hnone, Value.recast_none]
  case provenance =>
    show ({ overlaid.provenance with envPrefix := some (c.envPrefix options) } : Provenance) = _
    rw [provenance_applyOverlays hrun]

/-- A recorded key, a new one with a dot, a global that is there and one that is not, a name that is left out, the
prefix alone, and a variable without it. -/
theorem updateFromEnvironment_prefixed_seven_variables :
    ∃ c c' : Config, c.tree.entries = [("a", .mapping [("b", .int 1)])] ∧ c.globals = [("g", .bool true)] ∧
      c.updateFromEnvironment ⟨[("P_a.b", "5"), ("P_new.key", "n"), ("P_\x7bg\x7d", "0"), ("P_\x7bh\x7d", "t"),
        ("P_skip", "s"), ("P_", "e"), ("a.b", "6")], false⟩ { front := some "P_", excluded := ["skip"] } = ⟨c', none⟩ ∧
      c'.find? (.key ["a", "b"]) = some (.int 5) ∧ c'.find? (.key ["new.key"]) = some (.str "n") ∧
      c'.globals.lookup "g" = some (.bool false) ∧ c'.globals.lookup "h" = some (.str "t") ∧
      c'.provenance = { envPrefix := some "P_" } ∧
      c.updateFromEnvironment ⟨[("a.b", "7"), ("P_a.b", "5"), ("P_new.key", "n"), ("P_\x7bg\x7d", "0"),
        ("P_\x7bh\x7d", "t"), ("P_skip", "s"), ("P_", "e")], false⟩ { front := some "P_", excluded := ["skip"] } =
        ⟨c', none⟩ := by
  let c : Config := ⟨⟨⟨.loose, {}⟩, {}, [("a", .mapping [("b", .int 1)])]⟩, [("g", .bool true)]⟩
  have hentries : ProperEntries [("a", .mapping [("b", .int 1)])] := by
    simp [ProperEntries, Value.mapping, Value.Proper, Value.Everywhere, Value.EverywhereEntries, Ordered.keys,
      Ordered.Distinct]
  have hglobals : ProperEntries [("g", .bool true)] := by
    simp [ProperEntries, Value.Proper, Value.Everywhere, Ordered.keys, Ordered.Distinct]
  let env : Environment := ⟨[("P_a.b", "5"), ("P_new.key", "n"), ("P_\x7bg\x7d", "0"), ("P_\x7bh\x7d", "t"),
    ("P_skip", "s"), ("P_", "e"), ("a.b", "6")], false⟩
  let options : EnvOptions := { front := some "P_", excluded := ["skip"] }
  have hdistinct : env.Distinct := by decide
  have hoverlays : c.overlays env options = [⟨.key ["a", "b"], "5"⟩, ⟨.key ["new.key"], "n"⟩,
      ⟨.global "g" true, "0"⟩, ⟨.global "h" true, "t"⟩] := by decide
  have hrun : c.updateFromEnvironment env options =
      ⟨⟨⟨⟨.loose, {}⟩, { envPrefix := some "P_" }, [("a", .mapping [("b", .int 5)]), ("new.key", .str "n")]⟩,
        [("g", .bool false), ("h", .str "t")]⟩, none⟩ := by
    rw [updateFromEnvironment_eq_iff, hoverlays]
    exact ⟨_, rfl, rfl⟩
  obtain ⟨hcounted, hscanned, hsame⟩ := updateFromEnvironment_prefixed ⟨hentries, hglobals⟩ rfl hdistinct
    (show options.only = none from rfl) rfl (show "P_" ≠ "" by decide) hrun
  obtain ⟨old, v, hold, hv, hnumber⟩ :=
    hscanned.known "a.b" "5" ["a", "b"] ((hcounted _ _).mpr (by decide)) (by decide) rfl
  obtain rfl := Option.some.inj hold
  obtain rfl := Except.ok.inj hv
  have hnew := hscanned.new "new.key" "n" ((hcounted _ _).mpr (by decide)) (by decide) (by decide)
  obtain ⟨w, hw, hflag⟩ := hscanned.globals "\x7bg\x7d" "0" "g" ((hcounted _ _).mpr (by decide)) (by decide)
  obtain rfl := Except.ok.inj hw
  obtain ⟨w, hw, hcreated⟩ := hscanned.globals "\x7bh\x7d" "t" "h" ((hcounted _ _).mpr (by decide)) (by decide)
  obtain rfl := Except.ok.inj hw
  exact ⟨c, _, rfl, rfl, hrun, hnumber, hnew, hflag, hcreated, hscanned.provenance, hsame _ rfl (by decide)⟩

end Config

end LayeredConfig
