import LayeredConfig.Proofs.Slot

/-!
# Arguments win over the environment

A full update overlays the environment first and the switches last, so that each switch ends with what it
proposes. What the environment holds still shows in one way: a variable may have given the slot of a switch
a value of another kind, and the switch is coerced to that kind (`LeavesLast`). So two environments lead to
different values only where one of them writes to the slot and the other does not.
-/

namespace LayeredConfig.Config

variable {c c' parsed c₁ c₂ : Config} {slot : Slot} {switch : String × List String}

/-- What is read at the key or global of a switch. -/
def readSwitch (c : Config) (switch : String) : Except Error (Option Value) :=
  match Arguments.globalName? switch with
  | some name => .ok (c.globals.lookup name)
  | none => c.tree.getRaw (.parse switch)

theorem readSwitch_of_leaf? {v : Value} (hslot : c.slot? switch.1 = some slot) (h : c.leaf? slot = some v) :
    c.readSwitch switch.1 = .ok (some v) := by
  have hfind := find?_of_leaf? h
  unfold readSwitch
  cases slot with
  | global name =>
    obtain ⟨-, hglobal⟩ := slot?_eq_global_iff.mp hslot
    rw [hglobal]
    exact congrArg Except.ok hfind
  | key path =>
    obtain ⟨-, hglobal, rfl⟩ := slot?_eq_key_iff.mp hslot
    rw [hglobal]
    show c.tree.lookup (c.tree.resolve (.parse switch.1)).segments = _
    rw [segments_resolve_parse]
    exact Node.lookup_of_find? hfind

/-! ## The stages -/

theorem provenance_applyOverlays {overlays : List Overlay}
    (h : Attempt.each applyOverlay c overlays = ⟨c', none⟩) : c'.provenance = c.provenance := by
  refine Attempt.each_induction (motive := fun _ after => after.provenance = c.provenance) rfl ?_ h
  intro done o rest before after _ hbefore hstep
  rw [applyOverlay_eq] at hstep
  cases hreached : before.reached? o.target with
  | none => exact (Except.ok.inj (hreached ▸ hstep)) ▸ hbefore
  | some slot =>
    rw [hreached] at hstep
    exact (provenance_overlay hstep).trans hbefore

theorem updateFromArguments_eq {processArguments : List String} {arguments : Arguments}
    (h : c.provenance.arguments = some arguments) :
    c.updateFromArguments processArguments = Attempt.each overlaySwitch c arguments := by
  unfold updateFromArguments overlayParsed
  rw [h]
  rfl

/-- A full update that succeeds is a run of environment variables and a run of switches. -/
theorem fullUpdate_stages {processArguments : List String} {env : Environment} {options : UpdateOptions}
    {arguments : Arguments}
    (hparsed : c.parseArguments options.aliases (options.tokens.getD processArguments) = .ok parsed)
    (harguments : parsed.provenance.arguments = some arguments)
    (h : c.fullUpdate processArguments env options = ⟨c', none⟩) :
    ∃ overlaid, Attempt.each applyOverlay parsed (parsed.overlays env options.env) = ⟨overlaid, none⟩ ∧
      Attempt.each overlaySwitch
        (overlaid.withProvenance ({ · with envPrefix := some (parsed.envPrefix options.env) })) arguments =
        ⟨c', none⟩ := by
  obtain ⟨middle, hmiddle, hswitches⟩ := Attempt.andThen_eq_iff.mp h
  obtain ⟨start, hstart, henv⟩ := Attempt.andThen_eq_iff.mp hmiddle
  obtain rfl := Except.ok.inj (hparsed.symm.trans (Attempt.ofResult_eq_iff.mp hstart))
  unfold updateFromEnvironment at henv
  obtain ⟨overlaid, hoverlaid, hprefix⟩ := Attempt.andThen_eq_iff.mp henv
  obtain rfl := congrArg Attempt.config hprefix
  refine ⟨overlaid, hoverlaid, ?_⟩
  rw [← hswitches, updateFromArguments_eq]
  exact (congrArg Provenance.arguments (provenance_applyOverlays hoverlaid)).trans harguments

/-! ## Two runs -/

/-- Whether the environment writes to a slot. -/
def EnvReaches (c : Config) (env : Environment) (options : EnvOptions) (slot : Slot) : Prop :=
  c.Reaches (c.overlays env options) slot

section

variable {processArguments : List String} {env env₁ env₂ : Environment} {options : UpdateOptions}
  {arguments : Arguments}

/-- What a full update, whose arguments are parsed, leaves at the slot of a switch. -/
structure LeavesLast (parsed : Config) (env : Environment) (options : EnvOptions) (switch : String × List String)
    (slot : Slot) (after : Config) (v : Value) : Prop where
  read : after.readSwitch switch.1 = .ok (some v)
  /-- It is what the switch gives over what is there once the environment is overlaid: the value that was there before,
  or if the environment writes to the slot, what texts have made of that value. -/
  coerced : ∃ overlaid, parsed.updateFromEnvironment env options = ⟨overlaid, none⟩ ∧
    coerce (.ofValues switch.2) (overlaid.find? slot) = .ok v ∧
    (parsed.EnvReaches env options slot → ∃ w, overlaid.find? slot = some w ∧ FromText (parsed.find? slot) w) ∧
    (¬ parsed.EnvReaches env options slot → overlaid.find? slot = parsed.find? slot)

/-- A full update coerces each switch over what the environment has left. -/
theorem exists_leavesLast (hdistinct : Ordered.Distinct arguments)
    (hparsed : c.parseArguments options.aliases (options.tokens.getD processArguments) = .ok parsed)
    (harguments : parsed.provenance.arguments = some arguments)
    (h : c.fullUpdate processArguments env options = ⟨c', none⟩)
    (hswitch : switch ∈ arguments) (hslot : parsed.slot? switch.1 = some slot) :
    ∃ v, LeavesLast parsed env options.env switch slot c' v := by
  obtain ⟨overlaid, hoverlays, hswitches⟩ := fullUpdate_stages hparsed harguments h
  have henv := overlaysDone_of_each hoverlays
  have hdone := switchesDone_of_each hdistinct hswitches
  have hoverlaid : overlaid.slot? = parsed.slot? := slot?_congr henv.keeps.scope
  have hlast : c'.slot? = parsed.slot? := (slot?_congr hdone.keeps.scope).trans hoverlaid
  have hroot := slot?_ne_root hslot
  obtain ⟨v, hv, hleaf⟩ := hdone.switched switch hswitch slot (hoverlaid ▸ hslot)
  rw [withProvenance_leaf?] at hv
  -- The switch could be overlaid, so at no stage is there a mapping.
  have hfind : ∀ w ∈ c'.find? slot, w.isNode = false := fun w hw => by
    obtain rfl := Option.some.inj ((find?_of_leaf? hleaf).symm.trans hw)
    exact (flat_coerce hv).isNode
  have hkeeps := henv.keeps.trans ((extends_withProvenance overlaid _).trans hdone.keeps)
  have hbefore : parsed.find? slot = parsed.leaf? slot := hkeeps.find?_eq_leaf? hfind
  have hmiddle := (hdone.keeps.find?_eq_leaf? hfind).trans (withProvenance_leaf? overlaid _ slot)
  have hstage : parsed.updateFromEnvironment env options.env =
      ⟨overlaid.withProvenance ({ · with envPrefix := some (parsed.envPrefix options.env) }), none⟩ := by
    unfold updateFromEnvironment
    rw [hoverlays]
    rfl
  refine ⟨v, readSwitch_of_leaf? (hlast ▸ hslot) hleaf, _, hstage, hmiddle ▸ hv, fun hreaches => ?reached,
    fun hreaches => ?kept⟩
  case reached =>
    obtain ⟨w, hw, hfrom⟩ := henv.reached slot hroot hreaches
    exact ⟨w, hmiddle.trans hw, hbefore ▸ hfrom⟩
  case kept => exact hmiddle.trans ((henv.others slot hroot hreaches).trans hbefore.symm)

/-- A variable in one environment that the other does not have changes what a switch gives exactly if it sways it. -/
theorem LeavesLast.eq_iff_of_reaches {v₁ v₂ : Value} (h₁ : LeavesLast parsed env₁ options.env switch slot c₁ v₁)
    (h₂ : LeavesLast parsed env₂ options.env switch slot c₂ v₂) (hr₁ : parsed.EnvReaches env₁ options.env slot)
    (hr₂ : ¬ parsed.EnvReaches env₂ options.env slot) :
    (v₁ = v₂ ↔ ¬ (Proposal.ofValues switch.2).Swayed (parsed.find? slot)) ∧
      ((Proposal.ofValues switch.2).Swayed (parsed.find? slot) →
        (Proposal.ofValues switch.2).SwayedTo (parsed.find? slot) v₂ v₁) := by
  obtain ⟨overlaid₁, -, hv₁, hreached, -⟩ := h₁.coerced
  obtain ⟨overlaid₂, -, hv₂, -, hkept⟩ := h₂.coerced
  obtain ⟨w, hw, hfrom⟩ := hreached hr₁
  rw [hw] at hv₁
  rw [hkept hr₂] at hv₂
  exact ⟨eq_comm.trans (hfrom.coerce_eq_iff hv₂ hv₁), fun hsways => hfrom.swayedTo hsways hv₂ hv₁⟩

/-- Where both environments write to the slot of a switch, or neither does, it gives the same. -/
theorem LeavesLast.eq_of_reaches_iff {v₁ v₂ : Value} (h₁ : LeavesLast parsed env₁ options.env switch slot c₁ v₁)
    (h₂ : LeavesLast parsed env₂ options.env switch slot c₂ v₂)
    (hboth : parsed.EnvReaches env₁ options.env slot ↔ parsed.EnvReaches env₂ options.env slot) : v₁ = v₂ := by
  obtain ⟨overlaid₁, -, hv₁, hreached₁, hkept₁⟩ := h₁.coerced
  obtain ⟨overlaid₂, -, hv₂, hreached₂, hkept₂⟩ := h₂.coerced
  by_cases hr : parsed.EnvReaches env₁ options.env slot
  · obtain ⟨w₁, hw₁, hfrom₁⟩ := hreached₁ hr
    obtain ⟨w₂, hw₂, hfrom₂⟩ := hreached₂ (hboth.mp hr)
    rw [hw₁, hfrom₁.coerce_eq hfrom₂, ← hw₂, hv₂] at hv₁
    exact (Except.ok.inj hv₁).symm
  · rw [hkept₁ hr, ← hkept₂ (mt hboth.mpr hr), hv₂] at hv₁
    exact (Except.ok.inj hv₁).symm

/-- **In both environments a switch ends with what it gives over what the environment has left at its slot. The two
values are the same exactly if both environments write to the slot or neither does, or a text there does not sway the
switch.** If one of them writes to it and the text sways the switch, the values are those of `SwayedTo`. -/
theorem readSwitch_fullUpdate_eq_iff (hdistinct : ∀ old ∈ c.provenance.arguments, Ordered.Distinct old)
    (hparsed : c.parseArguments options.aliases (options.tokens.getD processArguments) = .ok parsed)
    (h₁ : c.fullUpdate processArguments env₁ options = ⟨c₁, none⟩)
    (h₂ : c.fullUpdate processArguments env₂ options = ⟨c₂, none⟩)
    (hswitch : switch ∈ parsed.provenance.arguments.getD []) (hslot : c.slot? switch.1 = some slot) :
    ∃ v₁ v₂, c₁.readSwitch switch.1 = .ok (some v₁) ∧ c₂.readSwitch switch.1 = .ok (some v₂) ∧
      LeavesLast parsed env₁ options.env switch slot c₁ v₁ ∧ LeavesLast parsed env₂ options.env switch slot c₂ v₂ ∧
      (v₁ = v₂ ↔
        (parsed.EnvReaches env₁ options.env slot ↔ parsed.EnvReaches env₂ options.env slot) ∨
          ¬ (Proposal.ofValues switch.2).Swayed (c.find? slot)) ∧
      ((Proposal.ofValues switch.2).Swayed (c.find? slot) →
        (parsed.EnvReaches env₁ options.env slot → ¬ parsed.EnvReaches env₂ options.env slot →
          (Proposal.ofValues switch.2).SwayedTo (c.find? slot) v₂ v₁) ∧
        (¬ parsed.EnvReaches env₁ options.env slot → parsed.EnvReaches env₂ options.env slot →
          (Proposal.ofValues switch.2).SwayedTo (c.find? slot) v₁ v₂)) := by
  obtain ⟨arguments, hsame, harguments⟩ := parseArguments_eq_ok hparsed
  have hd : Ordered.Distinct arguments := harguments (by
    cases hold : c.provenance.arguments with
    | none => exact List.nodup_nil
    | some old => exact hdistinct old hold)
  have hgiven : parsed.provenance.arguments = some arguments := hsame ▸ rfl
  have hfind : c.find? slot = parsed.find? slot := by
    rw [hsame]
    cases slot <;> rfl
  have hslot' : parsed.slot? switch.1 = some slot := by
    rw [hsame]
    exact hslot
  rw [hgiven, Option.getD_some] at hswitch
  obtain ⟨v₁, hv₁⟩ := exists_leavesLast hd hparsed hgiven h₁ hswitch hslot'
  obtain ⟨v₂, hv₂⟩ := exists_leavesLast hd hparsed hgiven h₂ hswitch hslot'
  rw [hfind]
  refine ⟨v₁, v₂, hv₁.read, hv₂.read, hv₁, hv₂, ?_, fun hsways => ⟨fun hr₁ hr₂ => ?_, fun hr₁ hr₂ => ?_⟩⟩
  · by_cases hr₁ : parsed.EnvReaches env₁ options.env slot <;> by_cases hr₂ : parsed.EnvReaches env₂ options.env slot
    · exact iff_of_true (hv₁.eq_of_reaches_iff hv₂ (iff_of_true hr₁ hr₂)) (Or.inl (iff_of_true hr₁ hr₂))
    · rw [(hv₁.eq_iff_of_reaches hv₂ hr₁ hr₂).1, or_iff_right fun h => hr₂ (h.mp hr₁)]
    · rw [eq_comm, (hv₂.eq_iff_of_reaches hv₁ hr₂ hr₁).1, or_iff_right fun h => hr₁ (h.mpr hr₂)]
    · exact iff_of_true (hv₁.eq_of_reaches_iff hv₂ (iff_of_false hr₁ hr₂)) (Or.inl (iff_of_false hr₁ hr₂))
  · exact (hv₁.eq_iff_of_reaches hv₂ hr₁ hr₂).2 hsways
  · exact (hv₂.eq_iff_of_reaches hv₁ hr₂ hr₁).2 hsways

end

/-- A switch with a value gives it over the text of a variable as well as over nothing. -/
theorem readSwitch_fullUpdate_text_over_variable :
    ∃ c₁ c₂ parsed : Config,
      (empty {}).fullUpdate [] ⟨[("P_x", "1")], false⟩
        { tokens := some ["prog", "--x", "5"], env := { front := some "P_" } } = ⟨c₁, none⟩ ∧
      (empty {}).fullUpdate [] ⟨[], false⟩
        { tokens := some ["prog", "--x", "5"], env := { front := some "P_" } } = ⟨c₂, none⟩ ∧
      c₁.readSwitch "x" = .ok (some (.str "5")) ∧ c₂.readSwitch "x" = .ok (some (.str "5")) ∧
      LeavesLast parsed ⟨[("P_x", "1")], false⟩ { front := some "P_" } ("x", ["5"]) (.key ["x"]) c₁ (.str "5") ∧
      LeavesLast parsed ⟨[], false⟩ { front := some "P_" } ("x", ["5"]) (.key ["x"]) c₂ (.str "5") := by
  have hparsed : (empty {}).parseArguments [] ["prog", "--x", "5"] =
      .ok ⟨⟨⟨.loose, {}⟩, { arguments := some [("", ["prog"]), ("x", ["5"])] }, []⟩, []⟩ := rfl
  have h₁ : (empty {}).fullUpdate [] ⟨[("P_x", "1")], false⟩
      { tokens := some ["prog", "--x", "5"], env := { front := some "P_" } } =
      ⟨⟨⟨⟨.loose, {}⟩, { arguments := some [("", ["prog"]), ("x", ["5"])], envPrefix := some "P_" },
        [("x", .str "5")]⟩, []⟩, none⟩ := rfl
  have h₂ : (empty {}).fullUpdate [] ⟨[], false⟩
      { tokens := some ["prog", "--x", "5"], env := { front := some "P_" } } =
      ⟨⟨⟨⟨.loose, {}⟩,
        { arguments := some [("", ["prog"]), ("x", ["5"])], envPrefix := some "P_", fromArguments := ["x"] },
        [("x", .str "5")]⟩, []⟩, none⟩ := rfl
  have hdistinct : ∀ old ∈ (empty {}).provenance.arguments, Ordered.Distinct old := by
    simp [empty, provenance, Node.empty]
  have hslot : (empty {}).slot? "x" = some (.key ["x"]) := rfl
  obtain ⟨v₁, v₂, hread₁, hread₂, hlast₁, hlast₂, hiff, -⟩ := readSwitch_fullUpdate_eq_iff hdistinct hparsed h₁ h₂
    (show ("x", ["5"]) ∈ [("", ["prog"]), ("x", ["5"])] by simp) hslot
  obtain rfl := hiff.mpr (Or.inr id)
  obtain rfl : .str "5" = v₁ := Option.some.inj (Except.ok.inj hread₁)
  exact ⟨_, _, _, h₁, h₂, hread₁, hread₂, hlast₁, hlast₂⟩

/-- A switch without values over a variable for a key that was not there is a text, without the variable it is
a boolean. -/
theorem readSwitch_fullUpdate_flag_over_variable :
    ∃ c₁ c₂,
      (empty {}).fullUpdate [] ⟨[("P_x", "1")], false⟩
        { tokens := some ["prog", "--x"], env := { front := some "P_" } } = ⟨c₁, none⟩ ∧
      (empty {}).fullUpdate [] ⟨[], false⟩
        { tokens := some ["prog", "--x"], env := { front := some "P_" } } = ⟨c₂, none⟩ ∧
      c₁.readSwitch "x" = .ok (some (.str "true")) ∧ c₂.readSwitch "x" = .ok (some (.bool true)) ∧
      c₁.readSwitch "x" ≠ c₂.readSwitch "x" := by
  have h₁ : (empty {}).fullUpdate [] ⟨[("P_x", "1")], false⟩
      { tokens := some ["prog", "--x"], env := { front := some "P_" } } =
      ⟨⟨⟨⟨.loose, {}⟩, { arguments := some [("", ["prog"]), ("x", [])], envPrefix := some "P_" },
        [("x", .str "true")]⟩, []⟩, none⟩ := rfl
  have h₂ : (empty {}).fullUpdate [] ⟨[], false⟩
      { tokens := some ["prog", "--x"], env := { front := some "P_" } } =
      ⟨⟨⟨⟨.loose, {}⟩,
        { arguments := some [("", ["prog"]), ("x", [])], envPrefix := some "P_", fromArguments := ["x"] },
        [("x", .bool true)]⟩, []⟩, none⟩ := rfl
  have hdiffer : (Except.ok (some (.str "true")) : Except Error (Option Value)) ≠ .ok (some (.bool true)) := by simp
  exact ⟨_, _, h₁, h₂, rfl, rfl, hdiffer⟩

end LayeredConfig.Config
