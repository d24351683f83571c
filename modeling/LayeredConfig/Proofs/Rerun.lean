import LayeredConfig.Proofs.InPlace
import LayeredConfig.Proofs.Settled
import LayeredConfig.Proofs.Tokens

/-!
# A full update run again

A full update with the same environment and options finds the arguments it has parsed before
(`parseArguments_again`), overlays its variables over what the switches have left, and the switches over that. Where
it succeeds, it writes only to leaves that are there (`InPlace`), so what it changes is seen at the leaves:

* A variable without a switch gives its slot what is there (`Revisited`). It fails only where the slot has become a
  mapping, since it could be overlaid before the switches were, or its slot was created by a switch.
* A switch gives its slot what is there (`Restored`), unless the variable for the slot sways it: several values for
  a list that does not begin with a string, which the variable has made one of strings.

So there are two conditions for the second run to change nothing (`fullUpdate_again_iff`).
-/

namespace LayeredConfig

namespace Config

variable {c d e : Config} {env : Environment} {options : EnvOptions} {arguments : Arguments} {slot : Slot}
  {target : Target} {switch : String × List String}

theorem InPlace.reached?_eq (h : InPlace c d) (target : Target) : d.reached? target = c.reached? target := by
  cases target with
  | key path => rfl
  | global name create =>
    have hknown : d.globals.lookup name = none ↔ c.globals.lookup name = none := by
      rw [Ordered.lookup_eq_none_iff, Ordered.lookup_eq_none_iff, h.globals]
    have hisNone : (d.globals.lookup name).isNone = (c.globals.lookup name).isNone := by
      rw [Bool.eq_iff_iff, Option.isNone_iff_eq_none, Option.isNone_iff_eq_none, hknown]
    rw [reached?, reached?, hisNone]

/-! ## The environment again -/

/-- How far a run of variables over a settled configuration has come: it changes only slots of switches. -/
structure Revisited (c : Config) (arguments : Arguments) (done : List Overlay) (after : Config) : Prop extends
    OverlaysDone c done after where
  proper : after.Proper
  inPlace : InPlace c after
  kept : ∀ slot ≠ .key [], (∀ switch ∈ arguments, c.slot? switch.1 ≠ some slot) → after.leaf? slot = c.leaf? slot

theorem Revisited.step {done : List Overlay} {o : Overlay} (hs : Settled c env options arguments)
    (hplain : ∀ slot, c.EnvReaches env options slot → ∀ v ∈ c.find? slot, v.isNode = false)
    (ho : o ∈ c.overlays env options) (h : Revisited c arguments done d) :
    ∃ d', d.applyOverlay o = .ok d' ∧ Revisited c arguments (done ++ [o]) d' := by
  have hreached := h.inPlace.reached?_eq o.target
  cases hslot : c.reached? o.target with
  | none =>
    have hstep : d.applyOverlay o = .ok d := by
      rw [applyOverlay_eq, hreached, hslot]
      rfl
    exact ⟨d, hstep, h.toOverlaysDone.step hstep, h.proper, h.inPlace, h.kept⟩
  | some slot =>
    have happly : d.applyOverlay o = d.overlay slot (.text o.text) := by
      rw [applyOverlay_eq, hreached, hslot]
      rfl
    obtain ⟨v, w, hv, hw, hunswitched⟩ := hs.overlaid o ho slot hslot (hplain slot ⟨o, ho, hslot⟩)
    have hroot : slot ≠ .key [] := by
      rintro rfl
      cases hv
    -- What another variable has left there is no different for a text.
    have hthere : ∃ x, d.leaf? slot = some x ∧ coerce (.text o.text) (some x) = .ok w := by
      by_cases hdone : c.Reaches done slot
      · obtain ⟨x, hx, hfrom⟩ := h.reached slot hroot hdone
        rw [hv] at hfrom
        exact ⟨x, hx, (hfrom.text_eq o.text).trans hw⟩
      · exact ⟨v, (h.others slot hroot hdone).trans hv, hw⟩
    obtain ⟨x, hx, hxw⟩ := hthere
    obtain ⟨d', hd'⟩ := overlay_of_leaf? hx hxw
    have hstep := happly.trans hd'
    refine ⟨d', hstep, h.toOverlaysDone.step hstep, proper_overlay h.proper hd',
      h.inPlace.overlay h.proper hx hd', ?_⟩
    intro other hother hno
    obtain ⟨u, hu, hleaf⟩ := overlay_leaf? hd'
    rw [hleaf other hother]
    by_cases hsame : other = slot
    · subst hsame
      rw [hx, hxw] at hu
      rw [if_pos rfl, hv, ← Except.ok.inj hu, hunswitched hno]
    · rw [if_neg hsame]
      exact h.kept other hother hno

theorem exists_revisited (hs : Settled c env options arguments)
    (hplain : ∀ slot, c.EnvReaches env options slot → ∀ v ∈ c.find? slot, v.isNode = false) :
    ∃ d, Attempt.each applyOverlay c (c.overlays env options) = ⟨d, none⟩ ∧
      Revisited c arguments (c.overlays env options) d := by
  refine Attempt.each_succeeds ⟨OverlaysDone.start c, hs.proper, InPlace.refl c, fun _ _ _ => rfl⟩ ?_
  intro done o rest before hitems hbefore
  exact hbefore.step hs hplain (by simp [hitems])

/-! ## The switches again -/

theorem overlaySwitch_of_pipeline (hslot : c.slot? switch.1 = none)
    (hparameters : switch.1 = "" → c.provenance.parameters = switch.2.drop 1) : c.overlaySwitch switch = .ok c := by
  have hname := slot?_eq_none_iff.mp hslot
  unfold overlaySwitch
  dsimp only
  by_cases hempty : switch.1 = ""
  · rw [if_pos hempty, ← hparameters hempty]
    rfl
  · rw [if_neg hempty, if_pos (hname.resolve_left hempty)]

theorem overlaySwitch_of_leaf? {old : Value} (hslot : c.slot? switch.1 = some slot) (hold : c.leaf? slot = some old) :
    c.overlaySwitch switch = c.overlay slot (.ofValues switch.2) := by
  rw [overlaySwitch_eq hslot, find?_of_leaf? hold]
  cases c.overlay slot (.ofValues switch.2) <;> rfl

/-- How far a run of switches has come that gives the slots of switches back what they held: `e` is the configuration
before the run. -/
structure Restored (c e : Config) (done : Arguments) (after : Config) : Prop where
  proper : after.Proper
  inPlace : InPlace c after
  switched : ∀ slot, (∃ switch ∈ done, c.slot? switch.1 = some slot) → after.leaf? slot = c.leaf? slot
  others : ∀ slot ≠ .key [], (∀ switch ∈ done, c.slot? switch.1 ≠ some slot) → after.leaf? slot = e.leaf? slot

theorem Restored.step {done : Arguments} (hs : Settled c env options arguments) (hswitch : switch ∈ arguments)
    (hnew : switch.1 ∉ Ordered.keys done)
    (hgives : ∀ slot, c.slot? switch.1 = some slot →
      ∃ x v, e.leaf? slot = some x ∧ coerce (.ofValues switch.2) (some x) = .ok v ∧ c.leaf? slot = some v)
    (h : Restored c e done d) : ∃ d', d.overlaySwitch switch = .ok d' ∧ Restored c e (done ++ [switch]) d' := by
  have hslots : d.slot? = c.slot? := slot?_congr h.inPlace.scope
  cases hslot : c.slot? switch.1 with
  | none =>
    have hstep : d.overlaySwitch switch = .ok d := by
      apply overlaySwitch_of_pipeline (hslots ▸ hslot)
      intro hempty
      rw [h.inPlace.provenance]
      exact hs.parameters switch hswitch hempty
    refine ⟨d, hstep, h.proper, h.inPlace, ?_, ?_⟩
    · rintro slot ⟨other, hother, hs⟩
      rcases List.mem_append.mp hother with hdone | hlast
      · exact h.switched slot ⟨other, hdone, hs⟩
      · rw [List.mem_singleton.mp hlast, hslot] at hs
        contradiction
    · intro slot hroot hno
      exact h.others slot hroot fun other hdone => hno other (List.mem_append_left _ hdone)
  | some slot =>
    obtain ⟨x, v, hx, hv, hleaf⟩ := hgives slot hslot
    have hroot := slot?_ne_root hslot
    have hbefore : d.leaf? slot = some x := (h.others slot hroot (slot?_ne_of_fresh hnew hslot)).trans hx
    obtain ⟨d', hd'⟩ := overlay_of_leaf? hbefore hv
    obtain ⟨u, hu, hafter⟩ := overlay_leaf? hd'
    rw [hbefore, hv] at hu
    obtain rfl := Except.ok.inj hu
    refine ⟨d', (overlaySwitch_of_leaf? (hslots ▸ hslot) hbefore).trans hd', proper_overlay h.proper hd',
      h.inPlace.overlay h.proper hbefore hd', ?_, ?_⟩
    · rintro other ⟨named, hnamed, hs⟩
      rw [hafter other (slot?_ne_root hs)]
      by_cases hsame : other = slot
      · rw [if_pos hsame, hsame, hleaf]
      · rw [if_neg hsame]
        rcases List.mem_append.mp hnamed with hdone | hlast
        · exact h.switched other ⟨named, hdone, hs⟩
        · rw [List.mem_singleton.mp hlast, hslot] at hs
          exact absurd (Option.some.inj hs).symm hsame
    · intro other hother hno
      have hne : other ≠ slot := fun he => hno switch (by simp) (he ▸ hslot)
      rw [hafter other hother, if_neg hne]
      exact h.others other hother fun named hdone => hno named (List.mem_append_left _ hdone)

/-- Whether the switches of a settled configuration give the same values over what the environment leaves. -/
theorem Revisited.gives (hs : Settled c env options arguments) (hswitch : switch ∈ arguments)
    (hunswayed : ∀ slot, c.slot? switch.1 = some slot → c.EnvReaches env options slot →
      ¬ (Proposal.ofValues switch.2).Swayed (c.find? slot))
    (h : Revisited c arguments (c.overlays env options) e) (hslot : c.slot? switch.1 = some slot) :
    ∃ x v, e.leaf? slot = some x ∧ coerce (.ofValues switch.2) (some x) = .ok v ∧ c.leaf? slot = some v := by
  obtain ⟨v, hv, hself⟩ := hs.switched switch hswitch slot hslot
  have hroot := slot?_ne_root hslot
  by_cases hreaches : c.EnvReaches env options slot
  · obtain ⟨x, hx, hfrom⟩ := h.reached slot hroot hreaches
    rw [hv] at hfrom
    -- The switch goes over its own value with a text below it, and gives that value again unless it is swayed.
    obtain ⟨u, hu⟩ := hfrom.exists_coerce hself
    have hsame := (hfrom.coerce_eq_iff hself hu).mpr
    rw [← find?_of_leaf? hv] at hsame
    obtain rfl := hsame (hunswayed slot hslot hreaches)
    exact ⟨x, v, hx, hu, hv⟩
  · exact ⟨v, v, (h.others slot hroot hreaches).trans hv, hself, hv⟩

theorem exists_restored (hs : Settled c env options arguments) (hd : Ordered.Distinct arguments)
    (hunswayed : ∀ switch ∈ arguments, ∀ slot, c.slot? switch.1 = some slot → c.EnvReaches env options slot →
      ¬ (Proposal.ofValues switch.2).Swayed (c.find? slot))
    (h : Revisited c arguments (c.overlays env options) e) :
    ∃ d, Attempt.each overlaySwitch e arguments = ⟨d, none⟩ ∧ Restored c e arguments d := by
  refine Attempt.each_succeeds ⟨h.proper, h.inPlace, by simp, fun _ _ _ => rfl⟩ ?_
  intro done switch rest before hitems hbefore
  have hswitch : switch ∈ arguments := by simp [hitems]
  exact hbefore.step hs hswitch (not_mem_keys_of_distinct (hitems ▸ hd))
    fun slot hslot => h.gives hs hswitch (hunswayed switch hswitch) hslot

/-- Once the variables have gone over a settled configuration, the switches give it back. -/
theorem Restored.eq (hs : Settled c env options arguments) (he : Revisited c arguments (c.overlays env options) e)
    (h : Restored c e arguments d) : d = c := by
  apply h.inPlace.eq hs.proper
  intro slot
  by_cases hroot : slot = .key []
  · rw [hroot, leaf?_root, leaf?_root]
  by_cases hnamed : ∃ switch ∈ arguments, c.slot? switch.1 = some slot
  · exact h.switched slot hnamed
  · have hno : ∀ switch ∈ arguments, c.slot? switch.1 ≠ some slot :=
      fun switch hswitch hslot => hnamed ⟨switch, hswitch, hslot⟩
    exact (h.others slot hroot hno).trans (he.kept slot hroot hno)

/-! ## The arguments again -/

theorem arguments_of_parseArguments {aliases : Aliases} {tokens : List String} {parsed : Config}
    (h : c.parseArguments aliases tokens = .ok parsed)
    (hdistinct : ∀ old ∈ c.provenance.arguments, Ordered.Distinct old) :
    ∃ arguments, parsed.provenance.arguments = some arguments ∧ Ordered.Distinct arguments := by
  obtain ⟨arguments, rfl, hd⟩ := parseArguments_eq_ok h
  refine ⟨arguments, rfl, hd ?_⟩
  cases hold : c.provenance.arguments with
  | none => exact List.nodup_nil
  | some old => exact hdistinct old hold

/-- Arguments that have been parsed are parsed to no effect. -/
theorem parseArguments_again {aliases : Aliases} {tokens : List String} {parsed : Config}
    (h : c.parseArguments aliases tokens = .ok parsed)
    (hsame : d.provenance.arguments = parsed.provenance.arguments) : d.parseArguments aliases tokens = .ok d := by
  obtain ⟨new, hnew, rfl⟩ := map_eq_ok_iff.mp h
  have hparsed : d.provenance.arguments = some (Ordered.insertAll (c.provenance.arguments.getD []) new) := hsame
  have hkept : Ordered.insertAll (d.provenance.arguments.getD []) new =
      Ordered.insertAll (c.provenance.arguments.getD []) new := by
    rw [hparsed, Option.getD_some, Ordered.insertAll_insertAll (Arguments.distinct_parse hnew)]
  unfold parseArguments
  rw [hnew]
  show Except.ok (d.withProvenance
    ({ · with arguments := some (Ordered.insertAll (d.provenance.arguments.getD []) new) })) = _
  rw [hkept, ← hparsed]
  rfl

/-! ## The whole update again -/

section

variable {processArguments : List String} {options : UpdateOptions}

/-- Once its variables are overlaid, a full update is a run of its switches. -/
theorem fullUpdate_eq (hparsed : c.parseArguments options.aliases (options.tokens.getD processArguments) = .ok d)
    (henv : d.updateFromEnvironment env options.env = ⟨e, none⟩)
    (harguments : e.provenance.arguments = some arguments) :
    c.fullUpdate processArguments env options = Attempt.each overlaySwitch e arguments := by
  unfold fullUpdate
  dsimp only
  rw [hparsed]
  show (d.updateFromEnvironment env options.env).andThen _ = _
  rw [henv, ← updateFromArguments_eq harguments]
  rfl

/-- A settled configuration stays what it is exactly if no variable meets a mapping and none sways a switch. -/
theorem fullUpdate_eq_self_iff (henv : env.Distinct) (hs : Settled c env options.env arguments)
    (hd : Ordered.Distinct arguments)
    (hparsed : c.parseArguments options.aliases (options.tokens.getD processArguments) = .ok c)
    (harguments : c.provenance.arguments = some arguments) :
    c.fullUpdate processArguments env options = ⟨c, none⟩ ↔
      (∀ slot, c.EnvReaches env options.env slot → ∀ v ∈ c.find? slot, v.isNode = false) ∧
        ∀ switch ∈ arguments, ∀ slot, c.slot? switch.1 = some slot → c.EnvReaches env options.env slot →
          ¬ (Proposal.ofValues switch.2).Swayed (c.find? slot) := by
  constructor
  · intro h
    obtain ⟨overlaid, hoverlays, hswitches⟩ := fullUpdate_stages hparsed harguments h
    have hvariables := textsDone_of_each henv hoverlays
    have hdone := switchesDone_of_each hd hswitches
    constructor
    · intro slot hreaches
      exact hvariables.isNode_of_reaches (ne_root_of_reaches henv hreaches) hreaches
    · intro switch hswitch slot hslot hreaches
      obtain ⟨v, hv, hself⟩ := hs.switched switch hswitch slot hslot
      obtain ⟨x, hx, hfrom⟩ := hvariables.reached slot (slot?_ne_root hslot) hreaches
      have hslot' : overlaid.slot? switch.1 = some slot := (slot?_congr hvariables.keeps.scope).symm ▸ hslot
      obtain ⟨u, hu, hlast⟩ := hdone.switched switch hswitch slot hslot'
      rw [withProvenance_leaf?, hx] at hu
      rw [hv] at hfrom hlast
      obtain rfl := Option.some.inj hlast
      rw [find?_of_leaf? hv]
      exact (hfrom.coerce_eq_iff hself hu).mp rfl
  · rintro ⟨hplain, hunswayed⟩
    obtain ⟨e, hrun, he⟩ := exists_revisited hs hplain
    obtain ⟨d, hrun', hd'⟩ := exists_restored hs hd hunswayed he
    obtain rfl := hd'.eq hs he
    have hprovenance : e.provenance = d.provenance := he.inPlace.provenance
    have hkept : e.withProvenance ({ · with envPrefix := some (d.envPrefix options.env) }) = e := by
      rw [← hs.front, ← hprovenance]
      rfl
    have hupdate : d.updateFromEnvironment env options.env = ⟨e, none⟩ := by
      unfold updateFromEnvironment
      rw [hrun]
      exact congrArg (fun config => (⟨config, none⟩ : Attempt)) hkept
    have hkeptArguments : e.provenance.arguments = some arguments := hprovenance ▸ harguments
    rw [fullUpdate_eq hparsed hupdate hkeptArguments, hrun']

/-- **A full update run again changes nothing exactly if no variable meets a mapping and none sways a switch.** -/
theorem fullUpdate_again_iff (hcase : env.caseInsensitive = false) (henv : env.Distinct) (hc : c.Proper)
    (hdistinct : ∀ old ∈ c.provenance.arguments, Ordered.Distinct old)
    (h : c.fullUpdate processArguments env options = ⟨d, none⟩) :
    d.fullUpdate processArguments env options = ⟨d, none⟩ ↔
      (∀ slot, d.EnvReaches env options.env slot → ∀ v ∈ d.find? slot, v.isNode = false) ∧
        ∀ switch ∈ d.provenance.arguments.getD [], ∀ slot, d.slot? switch.1 = some slot →
          d.EnvReaches env options.env slot → ¬ (Proposal.ofValues switch.2).Swayed (d.find? slot) := by
  obtain ⟨overlaid, hoverlaid, -⟩ := Attempt.andThen_eq_iff.mp h
  obtain ⟨parsed, hparsed, -⟩ := Attempt.andThen_eq_iff.mp hoverlaid
  replace hparsed := Attempt.ofResult_eq_iff.mp hparsed
  obtain ⟨arguments, harguments, hd⟩ := arguments_of_parseArguments hparsed hdistinct
  obtain ⟨hs, hkept⟩ := settled_of_fullUpdate hcase henv hc hd hparsed harguments h
  have hagain := parseArguments_again hparsed (hkept.trans harguments.symm)
  rw [fullUpdate_eq_self_iff henv hs hd hagain hkept, hkept]
  rfl

end

/-- A switch without values over a variable gives again what it gave. -/
theorem fullUpdate_again_flag_over_variable :
    ∃ c', (empty {}).fullUpdate [] ⟨[("P_x", "1")], false⟩
        { tokens := some ["prog", "--x"], env := { front := some "P_" } } = ⟨c', none⟩ ∧
      c'.fullUpdate [] ⟨[("P_x", "1")], false⟩
        { tokens := some ["prog", "--x"], env := { front := some "P_" } } = ⟨c', none⟩ := by
  have hrun : (empty {}).fullUpdate [] ⟨[("P_x", "1")], false⟩
      { tokens := some ["prog", "--x"], env := { front := some "P_" } } =
      ⟨⟨⟨⟨.loose, {}⟩, { arguments := some [("", ["prog"]), ("x", [])], envPrefix := some "P_" },
        [("x", .str "true")]⟩, []⟩, none⟩ := rfl
  have hproper : (empty {}).Proper := ⟨ProperEntries.nil, ProperEntries.nil⟩
  have hdistinct : ∀ old ∈ (empty {}).provenance.arguments, Ordered.Distinct old := by
    simp [empty, provenance, Node.empty]
  refine ⟨_, hrun, (fullUpdate_again_iff rfl (by decide) hproper hdistinct hrun).mpr ⟨?_, ?_⟩⟩
  · rintro slot ⟨o, ho, hslot⟩
    change o ∈ [(⟨.key ["x"], "1"⟩ : Overlay)] at ho
    rw [List.mem_singleton.mp ho] at hslot
    change some (Slot.key ["x"]) = some slot at hslot
    rw [← Option.some.inj hslot]
    intro v hv
    change some (Value.str "true") = some v at hv
    rw [← Option.some.inj hv]
    rfl
  · intro switch hswitch slot hslot _ hswayed
    change switch ∈ [("", ["prog"]), ("x", [])] at hswitch
    simp only [List.mem_cons, List.not_mem_nil, or_false] at hswitch
    rcases hswitch with rfl | rfl
    · change none = some slot at hslot
      cases hslot
    · change some (Slot.key ["x"]) = some slot at hslot
      rw [← Option.some.inj hslot] at hswayed
      exact hswayed

/-- Several values over a list of numbers are strings the second time, since the variable has made the list one of
strings, and a variable whose key has become a mapping cannot be overlaid. -/
theorem fullUpdate_again_differs :
    (∃ c' c'',
      (ofEntries {} [("x", .int 3)]).fullUpdate [] ⟨[("P_x", "7")], false⟩
        { tokens := some ["prog", "--x", "5", "6"], env := { front := some "P_" } } = ⟨c', none⟩ ∧
      c'.fullUpdate [] ⟨[("P_x", "7")], false⟩
        { tokens := some ["prog", "--x", "5", "6"], env := { front := some "P_" } } = ⟨c'', none⟩ ∧
      c'.tree.entries = [("x", .list [.int 5, .int 6])] ∧
      c''.tree.entries = [("x", .list [.str "5", .str "6"])] ∧ c'.tree.entries ≠ c''.tree.entries) ∧
    ∃ c',
      (empty {}).fullUpdate [] ⟨[("P_a.b", "t")], false⟩
        { tokens := some ["prog", "--a.b.c", "1"], env := { front := some "P_" } } = ⟨c', none⟩ ∧
      (c'.fullUpdate [] ⟨[("P_a.b", "t")], false⟩
        { tokens := some ["prog", "--a.b.c", "1"], env := { front := some "P_" } }).error =
        some (.coercion "t" .node) := by
  have hlists : [("x", Value.list [.int 5, .int 6])] ≠ [("x", Value.list [.str "5", .str "6"])] := by simp
  have hlist : (ofEntries {} [("x", .int 3)]).fullUpdate [] ⟨[("P_x", "7")], false⟩
      { tokens := some ["prog", "--x", "5", "6"], env := { front := some "P_" } } =
      ⟨⟨⟨⟨.loose, {}⟩, { arguments := some [("", ["prog"]), ("x", ["5", "6"])], envPrefix := some "P_" },
        [("x", .list [.int 5, .int 6])]⟩, []⟩, none⟩ := rfl
  have hagain : (⟨⟨⟨.loose, {}⟩,
      { arguments := some [("", ["prog"]), ("x", ["5", "6"])], envPrefix := some "P_" },
      [("x", .list [.int 5, .int 6])]⟩, []⟩ : Config).fullUpdate [] ⟨[("P_x", "7")], false⟩
      { tokens := some ["prog", "--x", "5", "6"], env := { front := some "P_" } } =
      ⟨⟨⟨⟨.loose, {}⟩, { arguments := some [("", ["prog"]), ("x", ["5", "6"])], envPrefix := some "P_" },
        [("x", .list [.str "5", .str "6"])]⟩, []⟩, none⟩ := rfl
  have hparsed : (empty {}).parseArguments [] ["prog", "--a.b.c", "1"] =
      .ok ⟨⟨⟨.loose, {}⟩, { arguments := some [("", ["prog"]), ("a.b.c", ["1"])] }, []⟩, []⟩ := rfl
  have hvariable : (⟨⟨⟨.loose, {}⟩, { arguments := some [("", ["prog"]), ("a.b.c", ["1"])] }, []⟩, []⟩ :
      Config).updateFromEnvironment ⟨[("P_a.b", "t")], false⟩ { front := some "P_" } =
      ⟨⟨⟨⟨.loose, {}⟩, { arguments := some [("", ["prog"]), ("a.b.c", ["1"])], envPrefix := some "P_" },
        [("a.b", .str "t")]⟩, []⟩, none⟩ := rfl
  have hswitches : Attempt.each overlaySwitch
      ⟨⟨⟨.loose, {}⟩, { arguments := some [("", ["prog"]), ("a.b.c", ["1"])], envPrefix := some "P_" },
        [("a.b", .str "t")]⟩, []⟩ [("", ["prog"]), ("a.b.c", ["1"])] =
      ⟨⟨⟨⟨.loose, {}⟩,
        { arguments := some [("", ["prog"]), ("a.b.c", ["1"])], envPrefix := some "P_", fromArguments := ["a.b.c"] },
        [("a.b", .str "t"), ("a", .mapping [("b", .mapping [("c", .str "1")])])]⟩, []⟩, none⟩ := rfl
  have hmapping : (empty {}).fullUpdate [] ⟨[("P_a.b", "t")], false⟩
      { tokens := some ["prog", "--a.b.c", "1"], env := { front := some "P_" } } = _ :=
    (fullUpdate_eq hparsed hvariable rfl).trans hswitches
  have hfails : ((⟨⟨⟨.loose, {}⟩,
      { arguments := some [("", ["prog"]), ("a.b.c", ["1"])], envPrefix := some "P_", fromArguments := ["a.b.c"] },
      [("a.b", .str "t"), ("a", .mapping [("b", .mapping [("c", .str "1")])])]⟩, []⟩ : Config).fullUpdate []
      ⟨[("P_a.b", "t")], false⟩
      { tokens := some ["prog", "--a.b.c", "1"], env := { front := some "P_" } }).error =
      some (.coercion "t" .node) := rfl
  exact ⟨⟨_, _, hlist, hagain, rfl, rfl, hlists⟩, _, hmapping, hfails⟩

end Config

end LayeredConfig
