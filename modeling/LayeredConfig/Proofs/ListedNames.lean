import LayeredConfig.Proofs.StageAgain

/-!
# Listed names and a scan

To list names is to scan an environment that has no other variables. Behind a prefix both read the same variables, in
another order (`prefixedVars_restrict_perm`). Without a prefix a scan asks for the names of leaves and of globals, and a
list for the names in it. Where they read the listed names alike (`ReadsAlike`), the overlays that reach a slot are the
same (`mem_overlays_iff_scanned`), and they change leaves only (`SamePlaces`). They part at the name of a mapping, which
a scan passes over and a list fails at, and at a name in braces that is the name of a leaf.
-/

namespace LayeredConfig

variable {env : Environment} {options : EnvOptions} {names : List String} {a b name front rest text : String}

/-- The options without the list of names: all variables are scanned. -/
def EnvOptions.withoutList (options : EnvOptions) : EnvOptions := { options with only := none }

namespace Environment

/-- An environment with the variables of some names only. -/
def restrict (env : Environment) (names : List String) : Environment :=
  { env with vars := env.vars.filter fun entry => entry.1 ∈ names }

theorem Distinct.restrict (hd : env.Distinct) (names : List String) : (env.restrict names).Distinct :=
  hd.sublist (List.filter_sublist.map _)

section

variable (hcase : env.caseInsensitive = false)

include hcase

theorem folded_inj : env.folded a = env.folded b ↔ a = b := by
  simp [folded, hcase, String.toList_inj]

theorem var?_eq_some_iff_mem (hd : env.Distinct) : env.var? name = some text ↔ (name, text) ∈ env.vars := by
  rw [var?_eq_some_iff hd]
  simp only [folded_inj hcase]
  constructor
  · rintro ⟨⟨name', text'⟩, hentry, rfl, rfl⟩
    exact hentry
  · intro hentry
    exact ⟨_, hentry, rfl, rfl⟩

theorem var?_restrict (hd : env.Distinct) :
    (env.restrict names).var? name = some text ↔ name ∈ names ∧ env.var? name = some text := by
  have hrestricted : (env.restrict names).caseInsensitive = false := hcase
  rw [var?_eq_some_iff_mem hcase hd, var?_eq_some_iff_mem hrestricted (hd.restrict names), restrict, List.mem_filter,
    decide_eq_true_eq, and_comm]

theorem afterPrefix?_eq_some_iff : env.afterPrefix? front name = some rest ↔ name = front ++ rest := by
  constructor
  · intro h
    exact (folded_inj hcase).mp (folded_of_afterPrefix? h)
  · rintro rfl
    exact afterPrefix?_append env front rest

end

end Environment

namespace Config

variable {c c' d : Config} {o : Overlay} {overlays others : List Overlay} {slot : Slot}

/-- Overlays of which no two are about the same slot. -/
def SlotsApart (overlays : List Overlay) : Prop := overlays.Pairwise fun x y => x.target.slot ≠ y.target.slot

/-- The overlays that reach a slot. -/
def reaching (c : Config) (overlays : List Overlay) : List Overlay :=
  overlays.filter fun o => (c.reached? o.target).isSome

/-! ## Behind a prefix -/

/-- The listed variables are those that are scanned where there are no others. -/
theorem prefixedVars_restrict_perm (hcase : env.caseInsensitive = false) (hd : env.Distinct)
    (honly : options.only = some names) (hnames : names.Nodup) (front : String) :
    (prefixedVars env options front).Perm
      (prefixedVars (env.restrict (names.map (front ++ ·))) options.withoutList front) := by
  have hvars : env.vars.Nodup := List.Nodup.of_map _ hd
  unfold prefixedVars EnvOptions.withoutList
  rw [honly]
  dsimp only
  rw [List.perm_ext_iff_of_nodup]
  · rintro ⟨name, rest, text⟩
    simp only [List.mem_filterMap, Option.map_eq_some_iff, Prod.mk.injEq, Environment.var?_eq_some_iff_mem hcase hd]
    constructor
    · rintro ⟨listed, hlisted, found, hfound, rfl, rfl, rfl⟩
      refine ⟨(front ++ listed, found), ?_, listed, Environment.afterPrefix?_append _ front listed, rfl, rfl, rfl⟩
      exact List.mem_filter.mpr ⟨hfound, by simpa using hlisted⟩
    · rintro ⟨⟨name, text⟩, hentry, rest, hafter, rfl, rfl, rfl⟩
      obtain ⟨hentry, hlisted⟩ := List.mem_filter.mp hentry
      obtain rfl := (Environment.afterPrefix?_eq_some_iff hcase).mp hafter
      exact ⟨rest, by simpa using hlisted, text, hentry, rfl, rfl, rfl⟩
  · refine hnames.filterMap ?_
    intro name other entry h h'
    obtain ⟨text, -, rfl⟩ := Option.map_eq_some_iff.mp h
    obtain ⟨text', -, heq⟩ := Option.map_eq_some_iff.mp h'
    exact (Prod.mk.inj (Prod.mk.inj heq).2).1.symm
  · refine (hvars.filter _).filterMap ?_
    rintro ⟨name, text⟩ ⟨name', text'⟩ entry h h'
    obtain ⟨rest, -, rfl⟩ := Option.map_eq_some_iff.mp h
    obtain ⟨rest', -, heq⟩ := Option.map_eq_some_iff.mp h'
    simp only [Prod.mk.injEq] at heq
    rw [heq.1, heq.2.2]

/-! ## Without a prefix -/

/-- A name under which a leaf is recorded. -/
def NamesLeaf (c : Config) (name : String) : Prop :=
  ∃ path, c.tree.recursiveKeys.lookup name = some path ∧ (c.leaf? (.key path)).isSome

/-- A name under which a mapping is recorded. -/
def NamesMapping (c : Config) (name : String) : Prop :=
  Arguments.globalName? name = none ∧
    ∃ path, c.tree.recursiveKeys.lookup name = some path ∧ (Path.children? path c.tree.entries).isSome

/-- A name that a list and a scan read alike: that of a leaf and of no global, or one in braces and of no leaf. -/
def ReadsAlike (c : Config) (name : String) : Prop :=
  match Arguments.globalName? name with
  | some _ => ¬ c.NamesLeaf name
  | none => c.NamesLeaf name ∧ ∀ global, (c.leaf? (.global global)).isSome → (Slot.global global).name ≠ name

theorem global_name_inj {global other : String} (h : (Slot.global global).name = (Slot.global other).name) :
    global = other := by
  simpa [Slot.name, ← String.toList_inj] using h

/-- **The overlays of a list that reach a slot are those that are scanned where there are no other variables**, if list
and scan read the names alike. -/
theorem mem_overlays_iff_scanned (hc : c.Proper) (hcase : env.caseInsensitive = false) (hd : env.Distinct)
    (hfront : c.envPrefix options = "") (honly : options.only = some names)
    (halike : ∀ name, c.Listed env options name → c.ReadsAlike name) :
    o ∈ c.overlays env options ∧ (c.reached? o.target).isSome ↔
      o ∈ c.overlays (env.restrict names) options.withoutList := by
  have hscan : options.withoutList.only = none := rfl
  have hfront' : c.envPrefix options.withoutList = "" := hfront
  rw [overlays_of_listed hfront honly, overlays_of_scanned hfront' hscan]
  constructor
  · rintro ⟨⟨name, hlisted, htarget, htext⟩, hreached⟩
    obtain ⟨names', honly', hname⟩ := hlisted.named
    obtain rfl := Option.some.inj (honly.symm.trans honly')
    have hvar := (Environment.var?_restrict hcase hd).mpr ⟨hname, htext⟩
    refine ⟨name, (mem_knownTargets_iff hc).mpr ?_, hlisted.kept, hvar⟩
    have hreads := halike name hlisted
    unfold ReadsAlike at hreads
    cases hglobal : Arguments.globalName? name with
    | some global =>
      rw [namedTarget, hglobal] at htarget
      obtain ⟨slot, hslot⟩ := Option.isSome_iff_exists.mp hreached
      rw [htarget] at hslot
      have hthere := (reached?_global_iff.mp hslot).2.resolve_right Bool.false_ne_true
      exact Or.inr ⟨global, htarget, hthere, slot_name_of_globalName? hglobal⟩
    | none =>
      rw [hglobal] at hreads
      obtain ⟨⟨path, hlookup, hleaf⟩, -⟩ := hreads
      rw [namedTarget_of_key hglobal, hlookup] at htarget
      exact Or.inl ⟨path, htarget, hlookup, hleaf⟩
  · rintro ⟨name, hknown, hkept, htext⟩
    obtain ⟨hname, htext⟩ := (Environment.var?_restrict hcase hd).mp htext
    have hlisted : c.Listed env options name := ⟨hfront, ⟨names, honly, hname⟩, hkept, by rw [htext]; rfl⟩
    have hreads := halike name hlisted
    unfold ReadsAlike at hreads
    rcases (mem_knownTargets_iff hc).mp hknown with
      ⟨path, htarget, hlookup, hleaf⟩ | ⟨global, htarget, hthere, hspelled⟩
    · cases hglobal : Arguments.globalName? name with
      | some global =>
        rw [hglobal] at hreads
        exact absurd ⟨path, hlookup, hleaf⟩ hreads
      | none =>
        rw [htarget]
        exact ⟨⟨name, hlisted, by rw [namedTarget_of_key hglobal, hlookup]; rfl, htext⟩, rfl⟩
    · cases hglobal : Arguments.globalName? name with
      | some other =>
        obtain rfl := global_name_inj (hspelled.trans (slot_name_of_globalName? hglobal).symm)
        rw [htarget]
        refine ⟨⟨name, hlisted, by rw [namedTarget, hglobal], htext⟩, ?_⟩
        rw [reached?_global_iff.mpr ⟨rfl, Or.inl hthere⟩]
        rfl
      | none =>
        rw [hglobal] at hreads
        exact absurd hspelled (hreads.2 global hthere)

theorem pairwise_knownTargets (hc : c.Proper) : c.knownTargets.Pairwise fun x y => x.2.slot ≠ y.2.slot := by
  unfold knownTargets
  rw [List.pairwise_append, List.pairwise_map, List.pairwise_map]
  refine ⟨?_, ?_, ?_⟩
  · have hkeys : c.tree.recursiveKeys.Pairwise fun x y => x.1 ≠ y.1 :=
      List.pairwise_map.mp (distinct_pathTable c.tree.entries)
    refine (hkeys.filter _).imp_of_mem ?_
    intro x y hx hy hne hslot
    obtain ⟨-, hxname⟩ := dotted_of_mem_pathTable (List.mem_filter.mp hx).1
    obtain ⟨-, hyname⟩ := dotted_of_mem_pathTable (List.mem_filter.mp hy).1
    exact hne (by rw [← hxname, ← hyname, Slot.key.inj hslot])
  · refine (List.pairwise_map.mp hc.globals.1).imp ?_
    intro x y hne hslot
    exact hne (Slot.global.inj hslot)
  · intro x hx y hy
    obtain ⟨entry, -, rfl⟩ := List.mem_map.mp hx
    obtain ⟨global, -, rfl⟩ := List.mem_map.mp hy
    simp [Target.slot]

theorem slotsApart_of_candidates {candidates : List (String × Target)}
    (h : candidates.Pairwise fun x y => x.2.slot ≠ y.2.slot) :
    SlotsApart (candidates.filterMap fun candidate =>
      if options.excludes env candidate.1 then none
      else (env.var? candidate.1).map fun text => ⟨candidate.2, text⟩) := by
  have htarget {candidate : String × Target} {o : Overlay} (ho : (if options.excludes env candidate.1 then none
      else (env.var? candidate.1).map fun text => ⟨candidate.2, text⟩) = some o) : o.target = candidate.2 := by
    split at ho
    · contradiction
    · obtain ⟨text, -, rfl⟩ := Option.map_eq_some_iff.mp ho
      rfl
  rw [SlotsApart, List.pairwise_filterMap]
  refine h.imp ?_
  intro candidate other hne x hx y hy
  rw [htarget hx, htarget hy]
  exact hne

/-- Without a prefix no two variables are overlaid at the same slot. -/
theorem slotsApart_plainOverlays (hc : c.Proper) (hnames : ∀ names ∈ options.only, names.Nodup) :
    SlotsApart (c.plainOverlays env options) := by
  unfold plainOverlays
  cases honly : options.only with
  | none => exact slotsApart_of_candidates (pairwise_knownTargets hc)
  | some names =>
    apply slotsApart_of_candidates
    rw [List.pairwise_map]
    refine (hnames names honly).imp ?_
    intro name other hne hslot
    dsimp only at hslot
    exact hne (by rw [← (namedTarget_name c name).1, hslot, (namedTarget_name c other).1])

/-! ## Overlays of leaves -/

theorem InPlace.isSome_leaf? (h : InPlace c d) (hold : (c.leaf? slot).isSome) : (d.leaf? slot).isSome := by
  obtain ⟨v, hv⟩ := Option.isSome_iff_exists.mp hold
  cases slot with
  | key path =>
    obtain ⟨f, hf, hentries⟩ := h.leaves
    show (Path.leaf? path d.tree.entries).isSome
    rw [hentries, Path.leaf?_mapLeaves hf hv]
    rfl
  | global name =>
    have hmem : name ∈ Ordered.keys d.globals := h.globals ▸ Ordered.key_mem_of_mem (Ordered.mem_of_lookup hv)
    by_contra hnone
    exact Ordered.lookup_eq_none_iff.mp (Option.not_isSome_iff_eq_none.mp hnone) hmem

/-- Overlays that reach leaves only change nothing else, even if one of them fails. -/
theorem inPlace_applyOverlays (hc : c.Proper)
    (hleaf : ∀ o ∈ overlays, ∀ slot, c.reached? o.target = some slot → (c.leaf? slot).isSome) :
    InPlace c (Attempt.each applyOverlay c overlays).config := by
  suffices h : InPlace c (Attempt.each applyOverlay c overlays).config ∧
      (Attempt.each applyOverlay c overlays).config.Proper from h.1
  refine Attempt.each_keeps (P := fun d => InPlace c d ∧ d.Proper) ⟨InPlace.refl c, hc⟩ ?_
  rintro o ho before after ⟨hplace, hproper⟩ hok
  refine ⟨?_, proper_applyOverlay hproper hok⟩
  rw [applyOverlay_eq, hplace.reached?_eq] at hok
  cases hslot : c.reached? o.target with
  | none =>
    rw [hslot] at hok
    exact Except.ok.inj hok ▸ hplace
  | some slot =>
    rw [hslot] at hok
    obtain ⟨old, hold⟩ := Option.isSome_iff_exists.mp (hplace.isSome_leaf? (hleaf o ho slot hslot))
    exact hplace.overlay hproper hold hok

/-- The same keys and globals are there, in the same places, and mappings are as they were. -/
structure SamePlaces (c d : Config) : Prop where
  leaves : ∃ f, Path.KeepsLeaves f ∧ d.tree.entries = Path.mapLeaves f c.tree.entries
  globals : Ordered.keys d.globals = Ordered.keys c.globals

theorem samePlaces_updateFromEnvironment (hc : c.Proper)
    (hleaf : ∀ o ∈ c.overlays env options, ∀ slot, c.reached? o.target = some slot → (c.leaf? slot).isSome) :
    SamePlaces c (c.updateFromEnvironment env options).config := by
  have hplace := inPlace_applyOverlays hc hleaf
  unfold updateFromEnvironment Attempt.andThen
  dsimp only
  split
  · exact ⟨hplace.leaves, hplace.globals⟩
  · exact ⟨hplace.leaves, hplace.globals⟩

/-! ## Comparing the two -/

/-- Overlays that reach nothing can be left out. -/
theorem each_applyOverlay_reaching (hapart : SlotsApart overlays) :
    Attempt.each applyOverlay c overlays = Attempt.each applyOverlay c (c.reaching overlays) := by
  induction overlays generalizing c with
  | nil => rfl
  | cons o rest ih =>
    obtain ⟨hne, hrest⟩ := List.pairwise_cons.mp hapart
    rw [reaching, List.filter_cons, Attempt.each]
    cases hslot : c.reached? o.target with
    | none =>
      have hstep : c.applyOverlay o = .ok c := by
        rw [applyOverlay_eq, hslot]
        rfl
      rw [hstep]
      exact ih hrest
    | some slot =>
      rw [Option.isSome_some, if_pos rfl, Attempt.each]
      cases hok : c.applyOverlay o with
      | error error => rfl
      | ok after =>
        have hsame : after.reaching rest = c.reaching rest := by
          apply List.filter_congr
          intro x hx
          rw [reached?_applyOverlay (hne x hx).symm hok]
        dsimp only
        rw [ih hrest, hsame]
        rfl

theorem SlotsApart.nodup (h : SlotsApart overlays) : overlays.Nodup := by
  refine h.imp ?_
  rintro x y hne rfl
  exact hne rfl

/-- Runs of overlays, each about different slots, end alike if the same ones reach a slot. -/
theorem matches_of_reaching_perm (hroot : ∀ o ∈ overlays, o.target.slot ≠ .key []) (hapart : SlotsApart overlays)
    (hapart' : SlotsApart others) (hperm : (c.reaching overlays).Perm (c.reaching others))
    (h : Attempt.each applyOverlay c overlays = ⟨c', none⟩) :
    ∃ d', Attempt.each applyOverlay c others = ⟨d', none⟩ ∧ Matches c' d' := by
  rw [each_applyOverlay_reaching hapart] at h
  rw [each_applyOverlay_reaching hapart']
  exact matches_of_overlays_perm hperm (fun o ho => hroot o (List.mem_filter.mp ho).1) (hapart.filter _) h

/-- Updates of which the same overlays reach a slot succeed alike, and leave the same tree, globals and provenance. -/
theorem update_of_reaching_perm {env' : Environment} {options' : EnvOptions} (hc : c.Proper) (hd : env.Distinct)
    (hfront : c.envPrefix options' = c.envPrefix options)
    (hapart : SlotsApart (c.overlays env options)) (hapart' : SlotsApart (c.overlays env' options'))
    (hperm : (c.reaching (c.overlays env options)).Perm (c.reaching (c.overlays env' options')))
    (h : c.updateFromEnvironment env options = ⟨c', none⟩) :
    ∃ d', c.updateFromEnvironment env' options' = ⟨d', none⟩ ∧
      c'.tree.Alike d'.tree ∧ c'.globals.Perm d'.globals ∧ c'.provenance = d'.provenance := by
  obtain ⟨overlaid, hoverlaid, rfl⟩ := updateFromEnvironment_eq_iff.mp h
  have hroot : ∀ o ∈ c.overlays env options, o.target.slot ≠ .key [] := fun o ho => (var?_of_mem_overlays hd ho).2
  obtain ⟨other, hother, hmatch⟩ := matches_of_reaching_perm hroot hapart hapart' hperm hoverlaid
  obtain ⟨htree, hglobals⟩ := hmatch.alike (proper_applyOverlays hc hoverlaid) (proper_applyOverlays hc hother)
  refine ⟨_, updateFromEnvironment_eq_iff.mpr ⟨other, hother, rfl⟩, htree, hglobals, ?_⟩
  have hprovenance := (provenance_applyOverlays hoverlaid).trans (provenance_applyOverlays hother).symm
  rw [hfront]
  exact congrArg (fun p : Provenance => { p with envPrefix := some (c.envPrefix options) }) hprovenance

theorem slotsApart_of_scanned (hc : c.Proper) (hd : env.Distinct) (hscan : options.only = none) :
    SlotsApart (c.overlays env options) := by
  unfold overlays
  dsimp only
  split
  · exact slotsApart_plainOverlays hc (by rw [hscan]; rintro names ⟨⟩)
  · exact pairwise_prefixedOverlays hd hscan c _

section

variable (hc : c.Proper) (hcase : env.caseInsensitive = false) (hd : env.Distinct)
  (honly : options.only = some names) (hnames : names.Nodup)
  (halike : ∀ name, c.Listed env options name → c.ReadsAlike name)

include hcase hd honly hnames

theorem overlays_restrict_perm (hfront : c.envPrefix options ≠ "") : (c.overlays env options).Perm
    (c.overlays (env.restrict (names.map (c.envPrefix options ++ ·))) options.withoutList) := by
  have hsame : c.envPrefix options.withoutList = c.envPrefix options := rfl
  rw [overlays, if_neg hfront, overlays, hsame, if_neg hfront]
  exact (prefixedVars_restrict_perm hcase hd honly hnames _).filterMap _

include hc halike

/-- Listed or scanned, the same overlays reach a slot. -/
theorem reaching_overlays_perm : SlotsApart (c.overlays env options) ∧
    (c.reaching (c.overlays env options)).Perm
      (c.reaching (c.overlays (env.restrict (names.map (c.envPrefix options ++ ·))) options.withoutList)) := by
  have hscan : options.withoutList.only = none := rfl
  have hscanned (names : List String) := slotsApart_of_scanned hc (hd.restrict names) hscan
  by_cases hfront : c.envPrefix options = ""
  · have hlisted : SlotsApart (c.overlays env options) := by
      rw [overlays, if_pos hfront]
      refine slotsApart_plainOverlays hc ?_
      intro names' honly'
      obtain rfl := Option.some.inj (honly.symm.trans honly')
      exact hnames
    have hmap : names.map (c.envPrefix options ++ ·) = names := by simp [hfront]
    rw [hmap]
    refine ⟨hlisted, ?_⟩
    rw [reaching, reaching, List.perm_ext_iff_of_nodup (hlisted.nodup.filter _) ((hscanned names).nodup.filter _)]
    intro o
    rw [List.mem_filter, List.mem_filter, mem_overlays_iff_scanned hc hcase hd hfront honly halike, iff_self_and]
    intro ho
    have hfront' : c.envPrefix options.withoutList = "" := hfront
    exact (leaf_of_scanned hc hfront' hscan ho).1
  · have hperm := overlays_restrict_perm hcase hd honly hnames hfront
    exact ⟨(hperm.pairwise_iff fun h => h.symm).mpr (hscanned _), hperm.filter _⟩

end

/-- A list with the name of a mapping fails. -/
theorem error_of_listed_mapping (hc : c.Proper) (hd : env.Distinct) (hlisted : c.Listed env options name)
    (hmapping : c.NamesMapping name) : (c.updateFromEnvironment env options).error ≠ none := by
  intro hnone
  obtain ⟨hglobal, path, hlookup, hchildren⟩ := hmapping
  obtain ⟨names, honly, -⟩ := hlisted.named
  obtain ⟨text, htext⟩ := Option.isSome_iff_exists.mp hlisted.present
  have hdone : EnvDone c env options (c.updateFromEnvironment env options).config := by
    apply envDone_of_updateFromEnvironment hc hd
    rw [← hnone]
  have ho : ⟨.key path, text⟩ ∈ c.overlays env options := by
    refine (overlays_of_listed hlisted.front honly).mpr ⟨name, hlisted, ?_, htext⟩
    rw [namedTarget_of_key hglobal, hlookup]
    rfl
  obtain ⟨w, hw, -⟩ := hdone.again _ ho (.key path) rfl
  obtain ⟨hfind, hplain⟩ := Path.leaf?_eq_some_iff.mp hw
  have hgone : Path.children? path (c.updateFromEnvironment env options).config.tree.entries = none := by
    apply Path.children?_eq_none
    rw [hfind]
    rintro v ⟨⟩
    exact hplain
  have hleft := hdone.grows.mappings path hchildren
  rw [hgone] at hleft
  contradiction

/-- **To list names is to scan an environment that has no other variables**, whatever is left out and whether there is
a prefix or not, provided that the names of variables that are listed without a prefix are read alike: both succeed
or both fail, and they leave the same tree and globals. Without a prefix a scan changes nothing but leaves and globals
that are there, and so does such a list; one with the name of a mapping fails. -/
theorem updateFromEnvironment_listed_iff_scanned (hc : c.Proper) (hcase : env.caseInsensitive = false)
    (hd : env.Distinct) (honly : options.only = some names) (hnames : names.Nodup) :
    let listed := c.updateFromEnvironment env options
    let scanned := c.updateFromEnvironment (env.restrict (names.map (c.envPrefix options ++ ·))) options.withoutList
    ((∀ name, c.Listed env options name → c.ReadsAlike name) →
      ((∃ c', listed = ⟨c', none⟩) ↔ ∃ d', scanned = ⟨d', none⟩) ∧
      (∀ c' d', listed = ⟨c', none⟩ → scanned = ⟨d', none⟩ →
        c'.tree.Alike d'.tree ∧ c'.globals.Perm d'.globals ∧ c'.provenance = d'.provenance) ∧
      (c.envPrefix options = "" → SamePlaces c listed.config)) ∧
    (c.envPrefix options = "" → SamePlaces c scanned.config) ∧
    ∀ name, c.Listed env options name → c.NamesMapping name → listed.error ≠ none := by
  intro listed scanned
  have hscan : options.withoutList.only = none := rfl
  have hsame : c.envPrefix options.withoutList = c.envPrefix options := rfl
  have hdcut := hd.restrict (names.map (c.envPrefix options ++ ·))
  refine ⟨fun halike => ?_, fun hfront => ?_, fun name => error_of_listed_mapping hc hd⟩
  · obtain ⟨hapart, hperm⟩ := reaching_overlays_perm hc hcase hd honly hnames halike
    have hapart' := slotsApart_of_scanned hc hdcut hscan
    refine ⟨⟨?_, ?_⟩, ?_, ?_⟩
    · rintro ⟨c', h⟩
      obtain ⟨d', h', -⟩ := update_of_reaching_perm hc hd hsame hapart hapart' hperm h
      exact ⟨d', h'⟩
    · rintro ⟨d', h'⟩
      obtain ⟨c', h, -⟩ := update_of_reaching_perm hc hdcut hsame.symm hapart' hapart hperm.symm h'
      exact ⟨c', h⟩
    · intro c' d' h h'
      obtain ⟨other, hother, halike⟩ := update_of_reaching_perm hc hd hsame hapart hapart' hperm h
      obtain rfl := congrArg Attempt.config (h'.symm.trans hother)
      exact halike
    · intro hfront
      apply samePlaces_updateFromEnvironment hc
      intro o ho slot hslot
      have hreached : (c.reached? o.target).isSome := by rw [hslot]; rfl
      have hscanned := (mem_overlays_iff_scanned hc hcase hd hfront honly halike).mp ⟨ho, hreached⟩
      exact (leaf_of_scanned hc (hsame.trans hfront) hscan hscanned).2 slot hslot
  · apply samePlaces_updateFromEnvironment hc
    intro o ho
    exact (leaf_of_scanned hc (hsame.trans hfront) hscan ho).2

/-- A global that is not there, one that is, and a leaf. -/
theorem updateFromEnvironment_listed_in_place :
    ∃ c c' d' : Config, c.tree.entries = [("a", .mapping [("b", .str "x")])] ∧ c.globals = [("g", .str "y")] ∧
      c.updateFromEnvironment ⟨[("q", "0"), ("a.b", "1"), ("\x7bg\x7d", "2"), ("\x7bh\x7d", "3")], false⟩
        { only := some ["\x7bh\x7d", "\x7bg\x7d", "a.b"] } = ⟨c', none⟩ ∧
      c.updateFromEnvironment ⟨[("a.b", "1"), ("\x7bg\x7d", "2"), ("\x7bh\x7d", "3")], false⟩ {} = ⟨d', none⟩ ∧
      d'.tree.entries = [("a", .mapping [("b", .str "1")])] ∧ d'.globals = [("g", .str "2")] ∧
      c'.tree.Alike d'.tree ∧ c'.globals.Perm d'.globals ∧ SamePlaces c c' ∧ SamePlaces c d' := by
  have hentries : ProperEntries [("a", .node .loose {} [("b", .str "x")])] := by
    simp [ProperEntries, Value.Proper, Value.Everywhere, Value.EverywhereEntries, Ordered.keys, Ordered.Distinct]
  have hglobals : ProperEntries [("g", .str "y")] := by
    simp [ProperEntries, Value.Proper, Value.Everywhere, Ordered.keys, Ordered.Distinct]
  let c : Config := ⟨⟨⟨.loose, {}⟩, {}, [("a", .node .loose {} [("b", .str "x")])]⟩, [("g", .str "y")]⟩
  have hproper : c.Proper := ⟨hentries, hglobals⟩
  let env : Environment := ⟨[("q", "0"), ("a.b", "1"), ("\x7bg\x7d", "2"), ("\x7bh\x7d", "3")], false⟩
  have hdistinct : env.Distinct := by decide
  let options : EnvOptions := { only := some ["\x7bh\x7d", "\x7bg\x7d", "a.b"] }
  have honly : options.only = some ["\x7bh\x7d", "\x7bg\x7d", "a.b"] := rfl
  obtain ⟨hsame, hscanned, -⟩ := updateFromEnvironment_listed_iff_scanned hproper (by rfl) hdistinct honly (by decide)
  obtain ⟨hiff, halike, hlisted⟩ := hsame (by
    rintro name ⟨-, ⟨names, hnames, hname⟩, -, -⟩
    obtain rfl := Option.some.inj hnames
    simp only [List.mem_cons, List.not_mem_nil, or_false] at hname
    rcases hname with rfl | rfl | rfl
    · rintro ⟨path, hpath, -⟩
      contradiction
    · rintro ⟨path, hpath, -⟩
      contradiction
    · refine ⟨⟨["a", "b"], rfl, rfl⟩, ?_⟩
      intro global _ hspelled
      simpa [Slot.name] using congrArg String.toList hspelled)
  have hrun : c.updateFromEnvironment ⟨[("a.b", "1"), ("\x7bg\x7d", "2"), ("\x7bh\x7d", "3")], false⟩ {} =
      ⟨⟨⟨⟨.loose, {}⟩, { envPrefix := some "" }, [("a", .node .loose {} [("b", .str "1")])]⟩, [("g", .str "2")]⟩,
        none⟩ := rfl
  obtain ⟨c', hc'⟩ := hiff.mpr ⟨_, hrun⟩
  obtain ⟨htree, hperm, -⟩ := halike c' _ hc' hrun
  have hplaces := hlisted rfl
  rw [hc'] at hplaces
  exact ⟨c, c', _, rfl, rfl, hc', hrun, rfl, rfl, htree, hperm, hplaces, hscanned rfl⟩

/-- At the name of a mapping a list fails and a scan does not; a name in braces is that of a leaf to a scan, but not to
a list; and only to a scan are empty braces the global without a name. -/
theorem updateFromEnvironment_listed_ne_scanned :
    (∃ d', ((ofEntries {} [("db", .mapping [])]).updateFromEnvironment ⟨[("db", "x")], false⟩
          { only := some ["db"] }).error = some (.coercion "x" .node) ∧
        (ofEntries {} [("db", .mapping [])]).updateFromEnvironment
          ((⟨[("db", "x")], false⟩ : Environment).restrict ["db"]) {} = ⟨d', none⟩) ∧
      (∃ c' d', (ofEntries {} [("\x7bg\x7d", .str "x")]).updateFromEnvironment ⟨[("\x7bg\x7d", "y")], false⟩
          { only := some ["\x7bg\x7d"] } = ⟨c', none⟩ ∧ c'.tree.entries = [("\x7bg\x7d", .str "x")] ∧
        (ofEntries {} [("\x7bg\x7d", .str "x")]).updateFromEnvironment
          ((⟨[("\x7bg\x7d", "y")], false⟩ : Environment).restrict ["\x7bg\x7d"]) {} = ⟨d', none⟩ ∧
        d'.tree.entries = [("\x7bg\x7d", .str "y")]) ∧
      ∃ c c' d' : Config, c.tree.entries = [("\x7b\x7d", .str "x")] ∧ c.globals = [("", .str "x")] ∧
        c.updateFromEnvironment ⟨[("\x7b\x7d", "y")], false⟩ { only := some ["\x7b\x7d"] } = ⟨c', none⟩ ∧
        c'.globals = [("", .str "x")] ∧
        c.updateFromEnvironment ((⟨[("\x7b\x7d", "y")], false⟩ : Environment).restrict ["\x7b\x7d"]) {} =
          ⟨d', none⟩ ∧
        d'.globals = [("", .str "y")] :=
  ⟨⟨_, rfl, rfl⟩, ⟨_, _, rfl, rfl, rfl, rfl⟩,
    ⟨⟨⟨.loose, {}⟩, {}, [("\x7b\x7d", .str "x")]⟩, [("", .str "x")]⟩, _, _, rfl, rfl, rfl, rfl, rfl, rfl⟩

end Config

end LayeredConfig
