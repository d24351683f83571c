import LayeredConfig.Proofs.NewKeys
import LayeredConfig.Proofs.Rerun

/-!
# One stage run again

A variable that goes to the slot that one went to before finds there what its text gives, and changes nothing
(`EnvDone.applyOverlay_again`). This is what all variables do that are scanned or come behind a prefix. A name that is
listed without a prefix can go astray: creating the key of another name may have made a mapping that is spelled like it,
and a text over a mapping is an error. So the second run of the environment changes nothing if it succeeds, and it
succeeds exactly if the listed names that were known are found where they were. The switches always find what they
have left (`updateFromArguments_again`).
-/

namespace LayeredConfig.Config

variable {c d : Config} {env : Environment} {options : EnvOptions} {slot : Slot} {o : Overlay} {name text : String}

/-! ## The environment -/

/-- The name of a key is found at the path where it was found before, if it was known then. -/
def StillFinds (c d : Config) (name : String) : Prop :=
  Arguments.globalName? name = none → ∀ path, c.tree.recursiveKeys.lookup name = some path →
    d.tree.recursiveKeys.lookup name = some path

/-- A text over a mapping is an error. -/
theorem applyOverlay_over_mapping (hreached : d.reached? o.target = some slot) (hpresent : (d.find? slot).isSome)
    (hleaf : d.leaf? slot = none) : ∃ error, d.applyOverlay o = .error error := by
  rw [applyOverlay_eq, hreached]
  cases hok : d.overlay slot (.text o.text) with
  | error error => exact ⟨error, hok⟩
  | ok after =>
    obtain ⟨w, hw, -⟩ := overlay_eq_ok_iff.mp hok
    rw [(Extends.refl d).find?_eq_leaf? (isNode_of_overlay hw), hleaf] at hpresent
    contradiction

section

variable (henv : env.Distinct) (hdone : EnvDone c env options d)

include henv hdone

/-- **A variable that goes where one went before changes nothing.** -/
theorem EnvDone.applyOverlay_again (ho : o ∈ d.overlays env options)
    (hreaches : ∀ slot, d.reached? o.target = some slot → c.EnvReaches env options slot) :
    d.applyOverlay o = .ok d := by
  rw [applyOverlay_eq]
  cases hreached : d.reached? o.target with
  | none => rfl
  | some slot =>
    obtain ⟨x, hx, hslot⟩ := hreaches slot hreached
    obtain ⟨w, hw, hself⟩ := hdone.again x hx slot hslot
    have hsame : x.target.slot = o.target.slot := (reached?_eq_some hslot).symm.trans (reached?_eq_some hreached)
    rw [text_eq_of_slot henv hdone.front hx ho hsame] at hself
    exact overlay_self (find?_of_leaf? hw) hself

theorem EnvDone.applyOverlay_of_prefixed (hfront : c.envPrefix options ≠ "") (ho : o ∈ d.overlays env options) :
    d.applyOverlay o = .ok d :=
  hdone.applyOverlay_again henv ho fun _ hreached => hdone.envReaches_of_prefixed hfront ho hreached

theorem EnvDone.applyOverlay_of_scan (hc : c.Proper) (hfront : c.envPrefix options = "") (honly : options.only = none)
    (ho : o ∈ d.overlays env options) : d.applyOverlay o = .ok d := by
  refine hdone.applyOverlay_again henv ho fun slot hreached => ?_
  obtain ⟨hpresent, hbefore⟩ := asks_of_scanned hc hdone.proper hdone.grows hdone.front hfront honly ho hreached
  by_cases hold : (c.find? slot).isSome
  · exact hbefore hold
  have hroot : slot ≠ .key [] := reached?_eq_some hreached ▸ (var?_of_mem_overlays henv ho).2
  obtain ⟨below, hbelow, rfl | habove⟩ := (hdone.present slot hroot hpresent).resolve_left hold
  · exact hbelow
  · -- What is new and was not reached is a mapping, but a scan only goes to leaves.
    have hleaf := (leaf_of_scanned hdone.proper (hdone.front.trans hfront) honly ho).2 slot hreached
    rw [hdone.leaf?_above hbelow habove] at hleaf
    contradiction

theorem EnvDone.applyOverlay_of_target (hlisted : c.Listed env options name) (htext : env.var? name = some text)
    (htarget : d.namedTarget name = c.namedTarget name) :
    d.applyOverlay ⟨d.namedTarget name, text⟩ = .ok d := by
  obtain ⟨names, honly, -⟩ := hlisted.named
  have hlisted' : d.Listed env options name :=
    ⟨hdone.front.trans hlisted.front, hlisted.named, hlisted.kept, hlisted.present⟩
  have ho : ⟨d.namedTarget name, text⟩ ∈ d.overlays env options :=
    (overlays_of_listed hlisted'.front honly).mpr ⟨name, hlisted', rfl, htext⟩
  have hthen : ⟨c.namedTarget name, text⟩ ∈ c.overlays env options :=
    (overlays_of_listed hlisted.front honly).mpr ⟨name, hlisted, rfl, htext⟩
  refine hdone.applyOverlay_again henv ho fun slot hreached => ?_
  rcases hdone.reached _ slot hreached with hreaches | hreaches
  · exact hreaches
  · exact ⟨_, hthen, htarget ▸ hreaches⟩

/-- **A listed name is found where it was and changes nothing, or it is found at a mapping and is an error.** -/
theorem EnvDone.applyOverlay_of_listed (hc : c.Proper) (hlisted : c.Listed env options name)
    (htext : env.var? name = some text) :
    d.applyOverlay ⟨d.namedTarget name, text⟩ = .ok d ∧ c.StillFinds d name ∨
      (∃ error, d.applyOverlay ⟨d.namedTarget name, text⟩ = .error error) ∧ ¬ c.StillFinds d name := by
  cases hglobal : Arguments.globalName? name with
  | some global =>
    left
    have htarget : d.namedTarget name = c.namedTarget name := by simp only [namedTarget, hglobal]
    refine ⟨hdone.applyOverlay_of_target henv hlisted htext htarget, ?_⟩
    intro hnone
    rw [hglobal] at hnone
    contradiction
  | none =>
    cases hbefore : c.tree.recursiveKeys.lookup name with
    | none =>
      left
      have hafter := hdone.lookup_of_unknown hlisted hglobal hc hbefore
      have htarget : d.namedTarget name = c.namedTarget name := by
        rw [namedTarget_of_key hglobal, namedTarget_of_key hglobal, hafter, hbefore, Option.getD_some, Option.getD_none]
      refine ⟨hdone.applyOverlay_of_target henv hlisted htext htarget, ?_⟩
      intro _ path hpath
      rw [hbefore] at hpath
      contradiction
    | some path =>
      obtain ⟨found, hfound, hsame | ⟨hnew, slot, hslot, habove⟩⟩ := hdone.lookup_of_listed hlisted hglobal hc
      · left
        rw [hbefore, Option.getD_some] at hsame
        subst hsame
        have htarget : d.namedTarget name = c.namedTarget name := by
          rw [namedTarget_of_key hglobal, namedTarget_of_key hglobal, hfound, hbefore]
          rfl
        refine ⟨hdone.applyOverlay_of_target henv hlisted htext htarget, ?_⟩
        intro _ path hpath
        rw [hfound, ← hbefore, hpath]
      · right
        constructor
        · have hpresent : (d.find? (.key found)).isSome :=
            (isSome_find?_key_iff hdone.proper).mpr (mem_of_lookup_pathTable hfound).1
          rw [namedTarget_of_key hglobal, hfound]
          exact applyOverlay_over_mapping rfl hpresent (hdone.leaf?_above hslot habove)
        · intro hstill
          obtain rfl := Option.some.inj (hfound.symm.trans (hstill hglobal path hbefore))
          have hthere := (isSome_find?_key_iff hc).mpr (mem_of_lookup_pathTable hbefore).1
          rw [hnew] at hthere
          contradiction

/-- **The second run of the variables changes nothing, and succeeds if the listed names are found where they were.** -/
theorem EnvDone.run_again (hc : c.Proper) :
    (∀ e, Attempt.each applyOverlay d (d.overlays env options) = ⟨e, none⟩ → e = d) ∧
      ((∃ e, Attempt.each applyOverlay d (d.overlays env options) = ⟨e, none⟩) ↔
        ∀ name, c.Listed env options name → c.StillFinds d name) := by
  -- Only listed names without a prefix can fail.
  have hother (hno : ∀ name, ¬ c.Listed env options name)
      (hagain : ∀ o ∈ d.overlays env options, d.applyOverlay o = .ok d) :
      (∀ e, Attempt.each applyOverlay d (d.overlays env options) = ⟨e, none⟩ → e = d) ∧
        ((∃ e, Attempt.each applyOverlay d (d.overlays env options) = ⟨e, none⟩) ↔
          ∀ name, c.Listed env options name → c.StillFinds d name) := by
    obtain ⟨hsame, hiff⟩ := Attempt.each_self fun o ho => Or.inl (hagain o ho)
    exact ⟨hsame, hiff.trans ⟨fun _ name hname => absurd hname (hno name), fun _ => hagain⟩⟩
  by_cases hfront : c.envPrefix options = ""
  swap
  · exact hother (fun name hname => hfront hname.front) fun o => hdone.applyOverlay_of_prefixed henv hfront
  cases honly : options.only with
  | none =>
    refine hother (fun name hname => ?_) fun o => hdone.applyOverlay_of_scan henv hc hfront honly
    obtain ⟨names, hnames, -⟩ := hname.named
    rw [honly] at hnames
    contradiction
  | some names =>
    have hmem : ∀ o, o ∈ d.overlays env options ↔
        ∃ name, d.Listed env options name ∧ o.target = d.namedTarget name ∧ env.var? name = some o.text :=
      fun _ => overlays_of_listed (hdone.front.trans hfront) honly
    have hlisted {name : String} (h : d.Listed env options name) : c.Listed env options name :=
      ⟨hfront, h.named, h.kept, h.present⟩
    have hstep : ∀ o ∈ d.overlays env options, d.applyOverlay o = .ok d ∨ ∃ error, d.applyOverlay o = .error error := by
      rintro ⟨target, text⟩ ho
      obtain ⟨name, hname, rfl, htext⟩ := (hmem _).mp ho
      exact (hdone.applyOverlay_of_listed henv hc (hlisted hname) htext).imp And.left And.left
    obtain ⟨hsame, hiff⟩ := Attempt.each_self hstep
    refine ⟨hsame, hiff.trans ⟨?_, ?_⟩⟩
    · intro hall name hname
      obtain ⟨text, htext⟩ := Option.isSome_iff_exists.mp hname.present
      have ho := (hmem ⟨d.namedTarget name, text⟩).mpr
        ⟨name, ⟨hdone.front.trans hfront, hname.named, hname.kept, hname.present⟩, rfl, htext⟩
      rcases hdone.applyOverlay_of_listed henv hc hname htext with ⟨-, hstill⟩ | ⟨⟨error, herror⟩, -⟩
      · exact hstill
      · rw [hall _ ho] at herror
        contradiction
    · rintro hstill ⟨target, text⟩ ho
      obtain ⟨name, hname, rfl, htext⟩ := (hmem _).mp ho
      rcases hdone.applyOverlay_of_listed henv hc (hlisted hname) htext with ⟨hok, -⟩ | ⟨-, hlost⟩
      · exact hok
      · exact absurd (hstill name (hlisted hname)) hlost

theorem EnvDone.update_again (hc : c.Proper) :
    (∀ e, d.updateFromEnvironment env options = ⟨e, none⟩ → e = d) ∧
      ((∃ e, d.updateFromEnvironment env options = ⟨e, none⟩) ↔
        ∀ name, c.Listed env options name → c.StillFinds d name) := by
  obtain ⟨hsame, hiff⟩ := hdone.run_again henv hc
  have hnoted : d.withProvenance ({· with envPrefix := some (c.envPrefix options)}) = d := by
    rw [← hdone.noted]
    rfl
  simp only [updateFromEnvironment_eq_iff, hdone.front]
  constructor
  · rintro e ⟨overlaid, hoverlaid, rfl⟩
    rw [hsame overlaid hoverlaid, hnoted]
  · rw [← hiff]
    constructor
    · rintro ⟨e, overlaid, hoverlaid, -⟩
      exact ⟨overlaid, hoverlaid⟩
    · rintro ⟨overlaid, hoverlaid⟩
      exact ⟨_, overlaid, hoverlaid, rfl⟩

end

/-! ## The switches -/

/-- A switch gives its slot again what is there. -/
theorem overlaySwitch_again {arguments : Arguments} (hdistinct : Ordered.Distinct arguments)
    (hrun : Attempt.each overlaySwitch c arguments = ⟨d, none⟩) :
    ∀ switch ∈ arguments, d.overlaySwitch switch = .ok d := by
  have hdone := switchesDone_of_each hdistinct hrun
  intro switch hswitch
  cases hslot : d.slot? switch.1 with
  | none => exact overlaySwitch_of_pipeline hslot (parameters_overlaySwitches hdistinct hrun switch hswitch)
  | some slot =>
    rw [slot?_congr hdone.keeps.scope] at hslot
    obtain ⟨v, hv, hleaf⟩ := hdone.switched switch hswitch slot hslot
    rw [overlaySwitch_of_leaf? (slot?_congr hdone.keeps.scope ▸ hslot) hleaf]
    exact overlay_self (find?_of_leaf? hleaf) (coerce_self hv)

/-- An update from arguments is a run of switches with different names. -/
theorem exists_run_of_updateFromArguments {processArguments : List String}
    (hold : ∀ old ∈ c.provenance.arguments, Ordered.Distinct old)
    (h : c.updateFromArguments processArguments = ⟨d, none⟩) :
    ∃ (start : Config) (arguments : Arguments), start.provenance.arguments = some arguments ∧
      Ordered.Distinct arguments ∧ Attempt.each overlaySwitch start arguments = ⟨d, none⟩ := by
  unfold updateFromArguments overlayParsed at h
  split at h
  · next arguments harguments =>
    rw [harguments] at h
    exact ⟨c, arguments, harguments, hold arguments harguments, h⟩
  · next hnone =>
    obtain ⟨parsed, hparsed, hrun⟩ := Attempt.andThen_eq_iff.mp h
    obtain ⟨arguments, rfl, hdistinct⟩ := parseArguments_eq_ok (Attempt.ofResult_eq_iff.mp hparsed)
    rw [hnone] at hdistinct
    exact ⟨_, arguments, rfl, hdistinct List.nodup_nil, hrun⟩

theorem updateFromArguments_again {processArguments : List String}
    (hold : ∀ old ∈ c.provenance.arguments, Ordered.Distinct old)
    (h : c.updateFromArguments processArguments = ⟨d, none⟩) : d.updateFromArguments processArguments = ⟨d, none⟩ := by
  obtain ⟨start, arguments, harguments, hdistinct, hrun⟩ := exists_run_of_updateFromArguments hold h
  have hagain := overlaySwitch_again hdistinct hrun
  obtain ⟨hsame, hiff⟩ := Attempt.each_self fun switch hswitch => Or.inl (hagain switch hswitch)
  obtain ⟨e, he⟩ := hiff.mpr hagain
  rw [updateFromArguments_eq ((provenance_overlaySwitches hrun).1.trans harguments), he, hsame e he]

/-! ## Both stages -/

/-- **Each stage run again changes nothing**, the switches always, and the environment if it succeeds; and that it
does exactly if each listed name that was known before the first run is found where it was after it. -/
theorem stages_again (hc : c.Proper) :
    (∀ env options d, env.Distinct → c.updateFromEnvironment env options = ⟨d, none⟩ →
      (∀ e, d.updateFromEnvironment env options = ⟨e, none⟩ → e = d) ∧
        ((∃ e, d.updateFromEnvironment env options = ⟨e, none⟩) ↔
          ∀ name, c.Listed env options name → c.StillFinds d name)) ∧
      ∀ processArguments d, (∀ old ∈ c.provenance.arguments, Ordered.Distinct old) →
        c.updateFromArguments processArguments = ⟨d, none⟩ → d.updateFromArguments processArguments = ⟨d, none⟩ := by
  constructor
  · intro env options d henv h
    exact (envDone_of_updateFromEnvironment hc henv h).update_again henv hc
  · intro processArguments d hold h
    exact updateFromArguments_again hold h

/-- Two listed names, one of them new, and switches that give a null a list and create a key. -/
theorem stages_again_new_names :
    ∃ d d', (ofEntries {} [("a.b", .null)]).updateFromEnvironment ⟨[("a.b", "1"), ("c.d", "2")], false⟩
        { only := some ["a.b", "c.d"] } = ⟨d, none⟩ ∧
      d.tree.entries = [("a.b", .str "1"), ("c", .mapping [("d", .str "2")])] ∧
      d.updateFromEnvironment ⟨[("a.b", "1"), ("c.d", "2")], false⟩ { only := some ["a.b", "c.d"] } = ⟨d, none⟩ ∧
      (ofEntries {} [("n", .null)]).updateFromArguments ["prog", "--n", "1", "2", "--c.d"] = ⟨d', none⟩ ∧
      d'.tree.entries = [("n", .list [.str "1", .str "2"]), ("c", .mapping [("d", .bool true)])] ∧
      d'.updateFromArguments ["prog", "--n", "1", "2", "--c.d"] = ⟨d', none⟩ := by
  have hentries (key : String) : ProperEntries [(key, .null)] := by
    simp [ProperEntries, Value.Proper, Value.Everywhere, Ordered.keys, Ordered.Distinct]
  have hproper : (ofEntries {} [("a.b", .null)]).Proper := ⟨hentries "a.b", ProperEntries.nil⟩
  have hproper' : (ofEntries {} [("n", .null)]).Proper := ⟨hentries "n", ProperEntries.nil⟩
  have hrun : (ofEntries {} [("a.b", .null)]).updateFromEnvironment ⟨[("a.b", "1"), ("c.d", "2")], false⟩
      { only := some ["a.b", "c.d"] } = ⟨⟨⟨⟨.loose, {}⟩, { envPrefix := some "" },
        [("a.b", .str "1"), ("c", .mapping [("d", .str "2")])]⟩, []⟩, none⟩ := rfl
  obtain ⟨hsame, hiff⟩ := (stages_again hproper).1 _ _ _ (by decide) hrun
  obtain ⟨e, he⟩ := hiff.mpr (by
    rintro name ⟨-, ⟨names, hnames, hname⟩, -, -⟩ - path hpath
    obtain rfl := Option.some.inj hnames
    rcases List.mem_pair.mp hname with rfl | rfl
    · exact hpath
    · contradiction)
  obtain rfl := hsame e he
  have hswitches : (ofEntries {} [("n", .null)]).updateFromArguments ["prog", "--n", "1", "2", "--c.d"] =
      ⟨⟨⟨⟨.loose, {}⟩, { arguments := some [("", ["prog"]), ("n", ["1", "2"]), ("c.d", [])], fromArguments := ["c.d"] },
        [("n", .list [.str "1", .str "2"]), ("c", .mapping [("d", .bool true)])]⟩, []⟩, none⟩ := rfl
  have hagain := (stages_again hproper').2 _ _ (by rintro old ⟨⟩) hswitches
  exact ⟨_, _, hrun, rfl, he, hswitches, rfl, hagain⟩

/-- Creating the key of one listed name can make a mapping that goes by another. -/
theorem updateFromEnvironment_again_fails :
    ∃ d, (ofEntries {} [("a.b", .str "x")]).updateFromEnvironment ⟨[("a.b", "1"), ("a.b.c", "2")], false⟩
        { only := some ["a.b", "a.b.c"] } = ⟨d, none⟩ ∧
      d.tree.entries = [("a.b", .str "1"), ("a", .mapping [("b", .mapping [("c", .str "2")])])] ∧
      (d.updateFromEnvironment ⟨[("a.b", "1"), ("a.b.c", "2")], false⟩ { only := some ["a.b", "a.b.c"] }).error =
        some (.coercion "1" .node) :=
  ⟨_, rfl, rfl, rfl⟩

end LayeredConfig.Config
