import LayeredConfig.Proofs.Growth

/-!
# What a full update settles

After a full update each switch would give its slot again the value that is there, and each variable could be
overlaid at its slot once more, unless the slot has become a mapping (`Settled`). For variables this rests on two
facts: all overlays of a slot have one text, and a slot that a variable reaches only now was created by a switch,
whose value takes any text (`settled_of_fullUpdate`).
-/

namespace LayeredConfig.Config

variable {c d e : Config} {env : Environment} {options : EnvOptions} {arguments : Arguments} {slot : Slot}
  {o : Overlay}

/-- What a full update leaves, as far as another one can tell. -/
structure Settled (c : Config) (env : Environment) (options : EnvOptions) (arguments : Arguments) : Prop where
  proper : c.Proper
  front : c.provenance.envPrefix = some (c.envPrefix options)
  parameters : ∀ switch ∈ arguments, switch.1 = "" → c.provenance.parameters = switch.2.drop 1
  /-- A switch has given its slot a value that it gives again. -/
  switched : ∀ switch ∈ arguments, ∀ slot, c.slot? switch.1 = some slot →
    ∃ v, c.leaf? slot = some v ∧ coerce (.ofValues switch.2) (some v) = .ok v
  /-- A variable can be overlaid at its slot, unless that has become a mapping, and changes nothing without a
  switch that does. -/
  overlaid : ∀ o ∈ c.overlays env options, ∀ slot, c.reached? o.target = some slot →
    (∀ v ∈ c.find? slot, v.isNode = false) →
    ∃ v w, c.leaf? slot = some v ∧ coerce (.text o.text) (some v) = .ok w ∧
      ((∀ switch ∈ arguments, c.slot? switch.1 ≠ some slot) → w = v)

/-! ## The environment -/

/-- All overlays of a slot have one text. -/
theorem text_eq_of_slot (henv : env.Distinct) {x y : Overlay} (hfront : d.envPrefix options = c.envPrefix options)
    (hx : x ∈ c.overlays env options) (hy : y ∈ d.overlays env options) (hslot : x.target.slot = y.target.slot) :
    x.text = y.text := by
  have htext := (var?_of_mem_overlays henv hx).1
  have htext' := (var?_of_mem_overlays henv hy).1
  rw [hfront, ← hslot, htext] at htext'
  exact Option.some.inj htext'

theorem ne_root_of_reaches (henv : env.Distinct) (h : c.EnvReaches env options slot) : slot ≠ .key [] := by
  obtain ⟨o, ho, hslot⟩ := h
  rw [reached?_eq_some hslot]
  exact (var?_of_mem_overlays henv ho).2

/-- How far a run of variables has come whose texts would each give again what is there. -/
structure TextsDone (c : Config) (done : List Overlay) (after : Config) : Prop extends OverlaysDone c done after where
  again : ∀ o ∈ done, ∀ slot, c.reached? o.target = some slot →
    ∃ w, after.leaf? slot = some w ∧ coerce (.text o.text) (some w) = .ok w

theorem TextsDone.step (henv : env.Distinct) {done : List Overlay}
    (hmem : ∀ x ∈ done ++ [o], x ∈ c.overlays env options) (h : TextsDone c done d) (hstep : d.applyOverlay o = .ok e) :
    TextsDone c (done ++ [o]) e := by
  refine ⟨h.toOverlaysDone.step hstep, ?_⟩
  intro x hx slot hslot
  have hroot := ne_root_of_reaches henv ⟨x, hmem x hx, hslot⟩
  rw [applyOverlay_eq] at hstep
  cases hreach : d.reached? o.target with
  | none =>
    rw [hreach] at hstep
    obtain rfl := Except.ok.inj hstep
    rcases List.mem_append.mp hx with hearlier | hlast
    · exact h.again x hearlier slot hslot
    · rw [List.mem_singleton.mp hlast] at hslot
      rw [h.reached_after hslot] at hreach
      contradiction
  | some target =>
    rw [hreach] at hstep
    obtain ⟨v, hv, hleaf⟩ := overlay_leaf? hstep
    rw [hleaf slot hroot]
    -- A slot that is reached once more is given its own text again.
    by_cases hsame : slot = target
    · have hslots : x.target.slot = o.target.slot :=
        (reached?_eq_some hslot).symm.trans (hsame.trans (reached?_eq_some hreach))
      rw [if_pos hsame, text_eq_of_slot henv rfl (hmem x hx) (hmem o (by simp)) hslots]
      exact ⟨v, rfl, coerce_self hv⟩
    · rw [if_neg hsame]
      rcases List.mem_append.mp hx with hearlier | hlast
      · exact h.again x hearlier slot hslot
      · rw [List.mem_singleton.mp hlast] at hslot
        have hnow := h.reached_after hslot
        rw [hreach] at hnow
        exact absurd (Option.some.inj hnow).symm hsame

theorem textsDone_of_each (henv : env.Distinct)
    (h : Attempt.each applyOverlay c (c.overlays env options) = ⟨e, none⟩) :
    TextsDone c (c.overlays env options) e := by
  have hstart : TextsDone c [] c := ⟨OverlaysDone.start c, by simp⟩
  refine Attempt.each_induction (motive := fun done after => TextsDone c done after) hstart ?_ h
  intro done o rest before after hitems hbefore hstep
  have hmem : ∀ x ∈ done ++ [o], x ∈ c.overlays env options := by
    intro x hx
    rw [hitems, ← List.singleton_append, ← List.append_assoc]
    exact List.mem_append_left rest hx
  exact hbefore.step henv hmem hstep

/-- What variables are overlaid over is no mapping. -/
theorem TextsDone.isNode_of_reaches {done : List Overlay} (h : TextsDone c done e) (hroot : slot ≠ .key [])
    (hreaches : c.Reaches done slot) : ∀ v ∈ c.find? slot, v.isNode = false := by
  obtain ⟨w, hw, hfrom⟩ := h.reached slot hroot hreaches
  obtain ⟨o, ho, hslot⟩ := hreaches
  obtain ⟨x, hx, hself⟩ := h.again o ho slot hslot
  rw [hw] at hx
  obtain rfl := Option.some.inj hx
  have hleaf : w.isNode = false := isNode_of_coerce hself
  have hplain : ∀ v ∈ e.find? slot, v.isNode = false := by
    rw [find?_of_leaf? hw]
    intro v hv
    exact Option.some.inj hv ▸ hleaf
  rw [h.keeps.find?_eq_leaf? hplain]
  intro old hold
  rw [Option.mem_def.mp hold] at hfrom
  have hkind : w.kind = old.kind.overlaid := hfrom.kind
  cases old with
  | node scope provenance entries =>
    rw [Value.isNode, hkind] at hleaf
    contradiction
  | _ => rfl

/-! ## The switches -/

theorem provenance_overlaySwitches (h : Attempt.each overlaySwitch c arguments = ⟨d, none⟩) :
    d.provenance.arguments = c.provenance.arguments ∧ d.provenance.envPrefix = c.provenance.envPrefix := by
  refine Attempt.each_induction (motive := fun _ after => after.provenance.arguments = c.provenance.arguments ∧
    after.provenance.envPrefix = c.provenance.envPrefix) ⟨rfl, rfl⟩ ?_ h
  rintro done switch rest before after - ⟨harguments, hfront⟩ hstep
  refine ⟨(arguments_overlaySwitch hstep).trans harguments, ?_⟩
  obtain ⟨changed, hchanged, rfl⟩ := overlaySwitch_eq_ok_iff.mp hstep
  show (before.noted switch changed.provenance).envPrefix = _
  rw [envPrefix_noted, (provenance_overlayAt hchanged).1]
  exact hfront

theorem parameters_overlaySwitches (hdistinct : Ordered.Distinct arguments)
    (h : Attempt.each overlaySwitch c arguments = ⟨d, none⟩) :
    ∀ switch ∈ arguments, switch.1 = "" → d.provenance.parameters = switch.2.drop 1 := by
  refine Attempt.each_induction (motive := fun done after => ∀ switch ∈ done, switch.1 = "" →
    after.provenance.parameters = switch.2.drop 1) (by simp) ?_ h
  intro done item rest before after hitems hbefore hstep switch hswitch hempty
  have hnew := not_mem_keys_of_distinct (hitems ▸ hdistinct)
  obtain ⟨changed, hchanged, rfl⟩ := overlaySwitch_eq_ok_iff.mp hstep
  show (before.noted item changed.provenance).parameters = _
  rw [parameters_noted, (provenance_overlayAt hchanged).1]
  rcases List.mem_append.mp hswitch with hdone | hlast
  · have hother : item.1 ≠ "" := by
      intro hitem
      rw [hitem, ← hempty] at hnew
      exact hnew (Ordered.key_mem_of_mem hdone)
    rw [if_neg hother]
    exact hbefore switch hdone hempty
  · rw [← List.mem_singleton.mp hlast, if_pos hempty]

/-! ## The whole update -/

theorem envPrefix_eq_of_left (harguments : d.provenance.arguments = c.provenance.arguments)
    (hfront : d.provenance.envPrefix = some (c.envPrefix options)) : d.envPrefix options = c.envPrefix options := by
  unfold envPrefix at hfront ⊢
  rw [harguments, hfront]
  dsimp only
  cases options.front with
  | some front => rfl
  | none =>
    cases (c.provenance.arguments.bind (·.lookup Arguments.prefixSwitch)).bind List.head? with
    | some front => rfl
    | none => rfl

/-- What switches do to the leaves, whatever is noted before them. -/
theorem SwitchesDone.of_withProvenance {f : Provenance → Provenance}
    (h : SwitchesDone (c.withProvenance f) arguments d) : SwitchesDone c arguments d := by
  obtain ⟨keeps, switched, others⟩ := h
  have hslots : (c.withProvenance f).slot? = c.slot? := slot?_congr rfl
  simp only [hslots, withProvenance_leaf?] at switched others
  exact ⟨(extends_withProvenance c f).trans keeps, switched, others⟩

section

variable (hoverlays : Attempt.each applyOverlay c (c.overlays env options) = ⟨e, none⟩)
  (hdone : SwitchesDone e arguments d)

include hoverlays hdone

/-- A variable that wrote to a slot can be overlaid there once more. -/
theorem overlaid_of_reached (henv : env.Distinct) (ho : o ∈ c.overlays env options)
    (hreached : c.reached? o.target = some slot) :
    ∃ v w, d.leaf? slot = some v ∧ coerce (.text o.text) (some v) = .ok w ∧
      ((∀ switch ∈ arguments, e.slot? switch.1 ≠ some slot) → w = v) := by
  obtain ⟨x, hx, hself⟩ := (textsDone_of_each henv hoverlays).again o ho slot hreached
  by_cases hnamed : ∃ switch ∈ arguments, e.slot? switch.1 = some slot
  · obtain ⟨switch, hswitch, hslot⟩ := hnamed
    obtain ⟨v, hv, hleaf⟩ := hdone.switched switch hswitch slot hslot
    rw [hx] at hv
    have htext : ∀ old ∈ some x, ∃ w, coerce (.text o.text) (some old) = .ok w := by
      intro old hold
      exact ⟨x, Option.some.inj hold ▸ hself⟩
    obtain ⟨w, hw⟩ := exists_text_of_coerce hv htext
    exact ⟨v, w, hleaf, hw, fun hno => absurd hslot (hno switch hswitch)⟩
  · have hno : ∀ switch ∈ arguments, e.slot? switch.1 ≠ some slot :=
      fun switch hswitch hslot => hnamed ⟨switch, hswitch, hslot⟩
    have hroot : slot ≠ .key [] := by
      rintro rfl
      cases hx
    exact ⟨x, x, (hdone.others slot hroot hno).trans hx, hself, fun _ => rfl⟩

/-- Any text can be overlaid at a slot that a switch has created. -/
theorem overlaid_of_created (text : String) (hnone : c.leaf? slot = none) (hno : ¬ c.EnvReaches env options slot)
    {v : Value} (hv : d.leaf? slot = some v) :
    ∃ v w, d.leaf? slot = some v ∧ coerce (.text text) (some v) = .ok w ∧
      ((∀ switch ∈ arguments, e.slot? switch.1 ≠ some slot) → w = v) := by
  have hroot : slot ≠ .key [] := by
    rintro rfl
    cases hv
  have hbefore : e.leaf? slot = none := ((overlaysDone_of_each hoverlays).others slot hroot hno).trans hnone
  by_cases hnamed : ∃ switch ∈ arguments, e.slot? switch.1 = some slot
  · obtain ⟨switch, hswitch, hslot⟩ := hnamed
    obtain ⟨u, hu, hleaf⟩ := hdone.switched switch hswitch slot hslot
    rw [hbefore] at hu
    have htext : ∀ old ∈ (none : Option Value), ∃ w, coerce (.text text) (some old) = .ok w := by simp
    obtain ⟨w, hw⟩ := exists_text_of_coerce hu htext
    exact ⟨u, w, hleaf, hw, fun hno => absurd hslot (hno switch hswitch)⟩
  · have hsame := hdone.others slot hroot fun switch hswitch hslot => hnamed ⟨switch, hswitch, hslot⟩
    rw [hv, hbefore] at hsame
    contradiction

end

/-- **What a full update settles.** -/
theorem settled_of_fullUpdate {processArguments : List String} {options : UpdateOptions}
    (hcase : env.caseInsensitive = false) (henv : env.Distinct) (hc : c.Proper) (hd : Ordered.Distinct arguments)
    (hparsed : c.parseArguments options.aliases (options.tokens.getD processArguments) = .ok d)
    (harguments : d.provenance.arguments = some arguments)
    (h : c.fullUpdate processArguments env options = ⟨e, none⟩) :
    Settled e env options.env arguments ∧ e.provenance.arguments = some arguments := by
  obtain ⟨overlaid, hoverlays, hswitches⟩ := fullUpdate_stages hparsed harguments h
  have hdone := (switchesDone_of_each hd hswitches).of_withProvenance
  -- The configurations on the way.
  have hproperParsed : d.Proper := by
    obtain ⟨new, rfl, -⟩ := parseArguments_eq_ok hparsed
    exact proper_withProvenance hc _
  have hproperOverlaid : overlaid.Proper := proper_applyOverlays hproperParsed hoverlays
  have hproper : e.Proper := proper_overlaySwitches (proper_withProvenance hproperOverlaid _) hswitches
  have hlater : Grows overlaid e := (grows_withProvenance overlaid _).trans (grows_overlaySwitches hswitches)
  have hgrows : Grows d e := (grows_applyOverlays hoverlays).trans hlater
  have hslots : e.slot? = overlaid.slot? := slot?_congr hdone.keeps.scope
  -- The provenance at the end.
  obtain ⟨hkeptArguments, hkeptFront⟩ := provenance_overlaySwitches hswitches
  have hoverlaidArguments : overlaid.provenance.arguments = d.provenance.arguments :=
    congrArg Provenance.arguments (provenance_applyOverlays hoverlays)
  have hsameArguments : e.provenance.arguments = d.provenance.arguments := hkeptArguments.trans hoverlaidArguments
  have hfront : e.envPrefix options.env = d.envPrefix options.env :=
    envPrefix_eq_of_left hsameArguments hkeptFront
  refine ⟨⟨hproper, ?_, parameters_overlaySwitches hd hswitches, ?_, ?_⟩, hsameArguments.trans harguments⟩
  · rw [hfront]
    exact hkeptFront
  · intro switch hswitch slot hslot
    obtain ⟨v, hv, hleaf⟩ := hdone.switched switch hswitch slot (hslots ▸ hslot)
    exact ⟨v, hleaf, coerce_self hv⟩
  · intro o ho slot hreached hplain
    have hreachedThere : ∀ slot, d.EnvReaches env options.env slot → (e.find? slot).isSome := by
      rintro slot ⟨x, hx, hslot⟩
      obtain ⟨w, hw, -⟩ := (textsDone_of_each henv hoverlays).again x hx slot hslot
      exact hlater.isSome_find? hproperOverlaid hproper (by rw [find?_of_leaf? hw]; rfl)
    have hasks := asks_of_mem_overlays hproperParsed hproper hgrows hcase hfront hreachedThere ho hreached
    -- The slot is there now; what the text meets depends on whether a variable wrote to it in the first run.
    have hfind := (Extends.refl e).find?_eq_leaf? hplain
    obtain ⟨v, hv⟩ := Option.isSome_iff_exists.mp (hfind ▸ hasks.present)
    rw [hslots]
    by_cases hbefore : d.EnvReaches env options.env slot
    · obtain ⟨x, hx, hslot⟩ := hbefore
      have hsame : o.target.slot = x.target.slot := (reached?_eq_some hreached).symm.trans (reached?_eq_some hslot)
      rw [text_eq_of_slot henv hfront.symm ho hx hsame]
      exact overlaid_of_reached hoverlays hdone henv hx hslot
    · have hnone : d.leaf? slot = none := by
        have hmissing : d.find? slot = none := by
          rw [← Option.not_isSome_iff_eq_none]
          exact fun hsome => hbefore (hasks.before hsome)
        cases hleaf : d.leaf? slot with
        | none => rfl
        | some old =>
          rw [find?_of_leaf? hleaf] at hmissing
          contradiction
      exact overlaid_of_created hoverlays hdone o.text hnone hbefore hv

end LayeredConfig.Config
