import LayeredConfig.Proofs.Precedence
import LayeredConfig.Proofs.Reorder

/-!
# The order of switches

A switch overlays its slot and makes a note: of the parameters, or that it created the slot. Both commute with
those of another switch, the notes up to the order of the names that are recorded (`noted_comm`). So a run of
switches can be put in any order (`updateFromArguments_perm`).
-/

namespace LayeredConfig.Config

variable {c c' d c₁ c₂ : Config} {slot : Slot} {switch x y : String × List String} {p : Provenance}

/-! ## Notes -/

/-- What a switch notes in the provenance: the parameters, or that it created its slot. -/
def noted (c : Config) (switch : String × List String) (p : Provenance) : Provenance :=
  match c.slot? switch.1 with
  | none => if switch.1 = "" then { p with parameters := switch.2.drop 1 } else p
  | some slot => if (c.find? slot).isSome then p else p.record switch.1

/-- A switch is an overlay of its slot and a note. -/
theorem overlaySwitch_eq_map (c : Config) (switch : String × List String) :
    c.overlaySwitch switch =
      (c.overlayAt (c.slot? switch.1) (.ofValues switch.2)).map (·.withProvenance (c.noted switch)) := by
  cases hslot : c.slot? switch.1 with
  | some slot =>
    rw [overlaySwitch_eq hslot]
    refine congrArg (fun f => (c.overlay slot (.ofValues switch.2)).map f) (funext fun changed => ?_)
    unfold noted
    rw [hslot]
    dsimp only
    split <;> rfl
  | none =>
    have hname := slot?_eq_none_iff.mp hslot
    have hnoted : c.noted switch =
        fun p => if switch.1 = "" then { p with parameters := switch.2.drop 1 } else p := by
      unfold noted
      rw [hslot]
    rw [hnoted]
    unfold overlaySwitch
    by_cases hempty : switch.1 = ""
    · simp [hempty, overlayAt, Except.map]
    · simp [hempty, hname.resolve_left hempty, overlayAt, Except.map, withProvenance]

theorem overlaySwitch_eq_ok_iff : c.overlaySwitch switch = .ok c' ↔
    ∃ changed, c.overlayAt (c.slot? switch.1) (.ofValues switch.2) = .ok changed ∧
      c' = changed.withProvenance (c.noted switch) := by
  rw [overlaySwitch_eq_map, map_eq_ok_iff]
  simp only [eq_comm (a := c')]

theorem noted_congr (hscope : d.tree.scope = c.tree.scope)
    (hslot : ∀ slot, c.slot? switch.1 = some slot → d.bare? slot = c.bare? slot) : d.noted switch = c.noted switch := by
  unfold noted
  rw [slot?_congr hscope]
  cases h : c.slot? switch.1 with
  | none => rfl
  | some slot => simp only [isSome_find?, hslot slot h]

theorem record_perm {p q : Provenance} (h : p.fromArguments.Perm q.fromArguments) (name : String) :
    (p.record name).fromArguments.Perm (q.record name).fromArguments := by
  unfold Provenance.record
  by_cases hmem : name ∈ p.fromArguments
  · rw [if_pos hmem, if_pos (h.mem_iff.mp hmem)]
    exact h
  · rw [if_neg hmem, if_neg (mt h.mem_iff.mpr hmem)]
    exact h.append_right [name]

theorem record_comm (p : Provenance) {a b : String} (hne : a ≠ b) :
    ((p.record a).record b).fromArguments.Perm ((p.record b).record a).fromArguments := by
  by_cases ha : a ∈ p.fromArguments <;> by_cases hb : b ∈ p.fromArguments
  · simp [Provenance.record, ha, hb]
  · simp [Provenance.record, ha, hb]
  · simp [Provenance.record, ha, hb]
  · simpa [Provenance.record, ha, hb, hne, Ne.symm hne] using
      (List.Perm.swap b a []).append_left p.fromArguments

theorem parameters_record (p : Provenance) (name : String) : (p.record name).parameters = p.parameters := by
  unfold Provenance.record
  split <;> rfl

theorem parameters_noted (c : Config) (switch : String × List String) (p : Provenance) :
    (c.noted switch p).parameters = if switch.1 = "" then switch.2.drop 1 else p.parameters := by
  unfold noted
  cases h : c.slot? switch.1 with
  | none =>
    dsimp only
    split <;> rfl
  | some slot =>
    have hname : switch.1 ≠ "" := by
      intro hempty
      have hnone : c.slot? switch.1 = none := slot?_eq_none_iff.mpr (Or.inl hempty)
      rw [h] at hnone
      contradiction
    rw [if_neg hname]
    dsimp only
    split
    · rfl
    · exact parameters_record p switch.1

theorem envPrefix_noted (c : Config) (switch : String × List String) (p : Provenance) :
    (c.noted switch p).envPrefix = p.envPrefix := by
  unfold noted
  cases c.slot? switch.1 with
  | none =>
    dsimp only
    split <;> rfl
  | some slot =>
    dsimp only
    unfold Provenance.record
    split
    · rfl
    · split <;> rfl

/-- A switch records its name, or nothing. -/
theorem fromArguments_noted (c : Config) (switch : String × List String) :
    (∀ p, (c.noted switch p).fromArguments = p.fromArguments) ∨
      ∀ p, (c.noted switch p).fromArguments = (p.record switch.1).fromArguments := by
  unfold noted
  cases c.slot? switch.1 with
  | none =>
    left
    intro p
    dsimp only
    split <;> rfl
  | some slot =>
    by_cases hfind : (c.find? slot).isSome
    · exact Or.inl fun p => by simp [hfind]
    · exact Or.inr fun p => by simp [hfind]

theorem noted_perm {q : Provenance} (c : Config) (switch : String × List String)
    (h : p.fromArguments.Perm q.fromArguments) :
    (c.noted switch p).fromArguments.Perm (c.noted switch q).fromArguments := by
  rcases fromArguments_noted c switch with hnoted | hnoted
  · rw [hnoted, hnoted]
    exact h
  · rw [hnoted, hnoted]
    exact record_perm h switch.1

/-- Notes of different switches commute, but for the order of what is recorded. -/
theorem noted_comm (c : Config) (hne : x.1 ≠ y.1) (p : Provenance) :
    (c.noted y (c.noted x p)).fromArguments.Perm (c.noted x (c.noted y p)).fromArguments := by
  rcases fromArguments_noted c x with hx | hx
  · rw [hx (c.noted y p)]
    exact noted_perm c y (List.Perm.of_eq (hx p))
  rcases fromArguments_noted c y with hy | hy
  · rw [hy (c.noted x p)]
    exact noted_perm c x (List.Perm.of_eq (hy p).symm)
  rw [hx (c.noted y p), hy (c.noted x p)]
  have hfirst := record_perm (List.Perm.of_eq (hx p)) y.1
  have hlast := record_perm (List.Perm.of_eq (hy p).symm) x.1
  exact (hfirst.trans (record_comm p hne)).trans hlast

/-- What a run of switches leaves, whatever their order. -/
structure SameSwitches (c d : Config) : Prop extends Matches c d where
  created : c.provenance.fromArguments.Perm d.provenance.fromArguments
  parameters : d.provenance.parameters = c.provenance.parameters

theorem SameSwitches.refl (c : Config) : SameSwitches c c := ⟨Matches.refl c, List.Perm.refl _, rfl⟩

theorem SameSwitches.trans (h : SameSwitches c c') (h' : SameSwitches c' d) : SameSwitches c d :=
  ⟨h.toMatches.trans h'.toMatches, h.created.trans h'.created, h'.parameters.trans h.parameters⟩

theorem SameSwitches.overlaySwitch (h : SameSwitches c d) (hok : c.overlaySwitch switch = .ok c') :
    ∃ d', d.overlaySwitch switch = .ok d' ∧ SameSwitches c' d' := by
  obtain ⟨changed, hchanged, rfl⟩ := overlaySwitch_eq_ok_iff.mp hok
  obtain ⟨other, hother, hmatch⟩ := h.overlayAt hchanged
  have hslot : d.slot? = c.slot? := slot?_congr h.scope
  have hnoted : d.noted switch = c.noted switch := noted_congr h.scope fun slot _ => h.slots slot
  have hchangedP := (provenance_overlayAt hchanged).1
  have hotherP := (provenance_overlayAt hother).1
  refine ⟨other.withProvenance (c.noted switch), ?_, ?_, ?_, ?_⟩
  · exact overlaySwitch_eq_ok_iff.mpr ⟨other, hslot ▸ hother, hnoted ▸ rfl⟩
  · exact (matches_withProvenance _ _).symm.trans (hmatch.trans (matches_withProvenance _ _))
  · show (c.noted switch changed.provenance).fromArguments.Perm (c.noted switch other.provenance).fromArguments
    rw [hchangedP, hotherP]
    exact noted_perm c switch h.created
  · show (c.noted switch other.provenance).parameters = (c.noted switch changed.provenance).parameters
    rw [parameters_noted, parameters_noted, hchangedP, hotherP, h.parameters]

theorem overlaySwitch_withProvenance (c : Config) (f : Provenance → Provenance) (switch : String × List String) :
    (c.withProvenance f).overlaySwitch switch =
      (c.overlayAt (c.slot? switch.1) (.ofValues switch.2)).map
        fun changed => (changed.withProvenance f).withProvenance (c.noted switch) := by
  have hslot : (c.withProvenance f).slot? = c.slot? := slot?_congr rfl
  have hnoted : (c.withProvenance f).noted switch = c.noted switch :=
    noted_congr rfl fun slot _ => (matches_withProvenance c f).slots slot
  rw [overlaySwitch_eq_map, hslot, hnoted, overlayAt_withProvenance]
  cases c.overlayAt (c.slot? switch.1) (.ofValues switch.2) <;> rfl

/-- **Different switches commute.** -/
theorem overlaySwitch_comm (hne : x.1 ≠ y.1) (h₁ : c.overlaySwitch x = .ok c₁) (h₂ : c₁.overlaySwitch y = .ok c₂) :
    ∃ d₁ d₂, c.overlaySwitch y = .ok d₁ ∧ d₁.overlaySwitch x = .ok d₂ ∧ SameSwitches c₂ d₂ := by
  obtain ⟨a, ha, rfl⟩ := overlaySwitch_eq_ok_iff.mp h₁
  obtain ⟨haprovenance, hascope⟩ := provenance_overlayAt ha
  rw [overlaySwitch_withProvenance, slot?_congr hascope] at h₂
  obtain ⟨b, hb, rfl⟩ := map_eq_ok_iff.mp h₂
  have hslots : ∀ slot, c.slot? x.1 = some slot → c.slot? y.1 ≠ some slot :=
    fun slot hx hy => hne (slot?_injective hx hy)
  obtain ⟨d, e, hd, he, hmatch, hy, hx⟩ :=
    overlayAt_comm (fun h => slot?_ne_root h rfl) (fun h => slot?_ne_root h rfl) hslots ha hb
  obtain ⟨hdprovenance, hdscope⟩ := provenance_overlayAt hd
  rw [noted_congr hascope hy]
  refine ⟨d.withProvenance (c.noted y), (e.withProvenance (c.noted y)).withProvenance (c.noted x), ?_, ?_, ?_⟩
  · exact overlaySwitch_eq_ok_iff.mpr ⟨d, hd, rfl⟩
  · rw [overlaySwitch_withProvenance, slot?_congr hdscope, he, noted_congr hdscope hx]
    rfl
  have hbefore : b.provenance = c.provenance := (provenance_overlayAt hb).1.trans haprovenance
  have hafter : e.provenance = c.provenance := (provenance_overlayAt he).1.trans hdprovenance
  refine ⟨?_, ?_, ?_⟩
  · have hbefore := (matches_withProvenance b (c.noted x)).trans (matches_withProvenance _ (c.noted y))
    have hafter := (matches_withProvenance e (c.noted y)).trans (matches_withProvenance _ (c.noted x))
    exact hbefore.symm.trans (hmatch.trans hafter)
  · show (c.noted y (c.noted x b.provenance)).fromArguments.Perm (c.noted x (c.noted y e.provenance)).fromArguments
    rw [hbefore, hafter]
    exact noted_comm c hne c.provenance
  · show (c.noted x (c.noted y e.provenance)).parameters = (c.noted y (c.noted x b.provenance)).parameters
    rw [hbefore, hafter]
    simp only [parameters_noted]
    by_cases hempty : x.1 = ""
    · have hother : y.1 ≠ "" := fun he => hne (hempty.trans he.symm)
      simp [hempty, hother]
    · simp [hempty]

theorem proper_overlaySwitch (hc : c.Proper) (hok : c.overlaySwitch switch = .ok c') : c'.Proper := by
  obtain ⟨changed, hchanged, rfl⟩ := overlaySwitch_eq_ok_iff.mp hok
  have hproper : changed.Proper := by
    cases hslot : c.slot? switch.1 with
    | none =>
      rw [hslot] at hchanged
      exact Except.ok.inj hchanged ▸ hc
    | some slot =>
      rw [hslot] at hchanged
      exact proper_overlay hc hchanged
  exact proper_withProvenance hproper _

theorem proper_overlaySwitches {arguments : Arguments} (hc : c.Proper)
    (h : Attempt.each overlaySwitch c arguments = ⟨c', none⟩) : c'.Proper := by
  refine Attempt.each_induction (motive := fun _ after => after.Proper) hc ?_ h
  intro done switch rest before after _ hbefore hstep
  exact proper_overlaySwitch hbefore hstep

/-- A configuration with arguments, as if they had been parsed. -/
def given (c : Config) (arguments : Arguments) : Config :=
  c.withProvenance ({ · with arguments := some arguments })

theorem updateFromArguments_given (c : Config) (arguments : Arguments) (processArguments : List String) :
    (c.given arguments).updateFromArguments processArguments =
      Attempt.each overlaySwitch (c.given arguments) arguments := updateFromArguments_eq rfl

theorem sameSwitches_of_perm {arguments others : Arguments} (hd : Ordered.Distinct arguments)
    (hperm : arguments.Perm others) (h : Attempt.each overlaySwitch (c.given arguments) arguments = ⟨c', none⟩) :
    ∃ d', Attempt.each overlaySwitch (c.given others) others = ⟨d', none⟩ ∧ SameSwitches c' d' := by
  have hfree : arguments.Pairwise fun x y => x.1 ≠ y.1 := List.pairwise_map.mp hd
  obtain ⟨middle, hmiddle, hfirst⟩ := Attempt.each_perm overlaySwitch SameSwitches.overlaySwitch SameSwitches.refl
    SameSwitches.trans Ne.symm overlaySwitch_comm hperm hfree h
  have hstart : SameSwitches (c.given arguments) (c.given others) :=
    ⟨(matches_withProvenance c _).symm.trans (matches_withProvenance c _), List.Perm.refl _, rfl⟩
  obtain ⟨d', hd', hlast⟩ := Attempt.each_congr overlaySwitch SameSwitches.overlaySwitch hstart hmiddle
  exact ⟨d', hd', hfirst.trans hlast⟩

/-- **The order of switches does not matter**: with arguments in another order a run succeeds as well, and leaves
the same tree and globals, records the same names as created, and has the same parameters. -/
theorem updateFromArguments_perm {processArguments : List String} {arguments others : Arguments} (hc : c.Proper)
    (hd : Ordered.Distinct arguments) (hperm : arguments.Perm others) :
    ((∃ c', (c.given arguments).updateFromArguments processArguments = ⟨c', none⟩) ↔
      ∃ d', (c.given others).updateFromArguments processArguments = ⟨d', none⟩) ∧
      ∀ c' d', (c.given arguments).updateFromArguments processArguments = ⟨c', none⟩ →
        (c.given others).updateFromArguments processArguments = ⟨d', none⟩ →
        c'.tree.Alike d'.tree ∧ c'.globals.Perm d'.globals ∧
          c'.provenance.fromArguments.Perm d'.provenance.fromArguments ∧
          c'.provenance.parameters = d'.provenance.parameters := by
  have hd' : Ordered.Distinct others := (hperm.map Prod.fst).nodup hd
  simp only [updateFromArguments_given]
  refine ⟨⟨?_, ?_⟩, ?_⟩
  · rintro ⟨c', h⟩
    obtain ⟨d', hd', -⟩ := sameSwitches_of_perm hd hperm h
    exact ⟨d', hd'⟩
  · rintro ⟨d', h⟩
    obtain ⟨c', hc', -⟩ := sameSwitches_of_perm hd' hperm.symm h
    exact ⟨c', hc'⟩
  · intro c' d' h h'
    obtain ⟨last, hlast, hsame⟩ := sameSwitches_of_perm hd hperm h
    obtain rfl := congrArg Attempt.config (h'.symm.trans hlast)
    have hgiven (arguments : Arguments) : (c.given arguments).Proper := proper_withProvenance hc _
    have hproper := proper_overlaySwitches (hgiven arguments) h
    have hproper' := proper_overlaySwitches (hgiven others) h'
    obtain ⟨htree, hglobals⟩ := hsame.alike hproper hproper'
    exact ⟨htree, hglobals, hsame.created, hsame.parameters.symm⟩

/-- Two switches below a mapping that the first of them creates. -/
theorem updateFromArguments_shared_parent :
    ∃ c' d',
      ((empty {}).given [("a.b", ["x"]), ("a.c", []), ("", ["prog", "p"])]).updateFromArguments [] = ⟨c', none⟩ ∧
      ((empty {}).given [("a.c", []), ("", ["prog", "p"]), ("a.b", ["x"])]).updateFromArguments [] = ⟨d', none⟩ ∧
      c'.tree.entries = [("a", .mapping [("b", .str "x"), ("c", .bool true)])] ∧
      d'.tree.entries = [("a", .mapping [("c", .bool true), ("b", .str "x")])] ∧
      c'.tree.Alike d'.tree ∧ c'.provenance.fromArguments.Perm d'.provenance.fromArguments ∧
      c'.provenance.parameters = ["p"] ∧ d'.provenance.parameters = ["p"] := by
  have hperm : [("a.b", ["x"]), ("a.c", []), ("", ["prog", "p"])].Perm
      [("a.c", []), ("", ["prog", "p"]), ("a.b", ["x"])] := by decide
  have hproper : (empty {}).Proper := ⟨ProperEntries.nil, ProperEntries.nil⟩
  have hrun : ((empty {}).given [("a.b", ["x"]), ("a.c", []), ("", ["prog", "p"])]).updateFromArguments [] =
      ⟨⟨⟨⟨.loose, {}⟩,
        { arguments := some [("a.b", ["x"]), ("a.c", []), ("", ["prog", "p"])], parameters := ["p"],
          fromArguments := ["a.b", "a.c"] },
        [("a", .mapping [("b", .str "x"), ("c", .bool true)])]⟩, []⟩, none⟩ := rfl
  have hrun' : ((empty {}).given [("a.c", []), ("", ["prog", "p"]), ("a.b", ["x"])]).updateFromArguments [] =
      ⟨⟨⟨⟨.loose, {}⟩,
        { arguments := some [("a.c", []), ("", ["prog", "p"]), ("a.b", ["x"])], parameters := ["p"],
          fromArguments := ["a.c", "a.b"] },
        [("a", .mapping [("c", .bool true), ("b", .str "x")])]⟩, []⟩, none⟩ := rfl
  obtain ⟨-, hsame⟩ := updateFromArguments_perm hproper (by decide) hperm
  obtain ⟨htree, -, hcreated, -⟩ := hsame _ _ hrun hrun'
  exact ⟨_, _, hrun, hrun', rfl, rfl, htree, hcreated, rfl, rfl⟩

end LayeredConfig.Config
