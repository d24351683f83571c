import LayeredConfig.Proofs.Coercion
import LayeredConfig.Proofs.Key
import LayeredConfig.Update

/-!
# Slots

Environment variables and switches propose values for slots: paths of the tree and globals. Both overlay a
slot in one way (`Config.overlay`), by coercing the proposal over what is found there. Of the leaves of a
configuration, an overlay changes the one at its slot and no other (`overlay_leaf?`).
-/

namespace LayeredConfig

/-- A place for a value. -/
inductive Slot where
  | key (path : List String)
  | global (name : String)
deriving DecidableEq, Repr

namespace Config

variable {c c' c'' : Config} {slot other : Slot} {proposal : Proposal} {v : Value}

/-- The value at a slot. -/
def find? (c : Config) : Slot → Option Value
  | .key path => Path.find? path c.tree.entries
  | .global name => c.globals.lookup name

/-- The value at a slot, unless it is a mapping of the tree. -/
def leaf? (c : Config) : Slot → Option Value
  | .key path => Path.leaf? path c.tree.entries
  | .global name => c.globals.lookup name

theorem find?_of_leaf? {v : Value} (h : c.leaf? slot = some v) : c.find? slot = some v := by
  cases slot with
  | global name => exact h
  | key path => exact (Path.leaf?_eq_some_iff.mp h).1

/-- Puts a value at a slot. -/
def put (c : Config) (value : Value) : Slot → Except Error Config
  | .key path => c.setAt path value
  | .global name => .ok (c.setGlobal name value)

/-- Puts a proposal at a slot, as a value that may stand in place of the one there. -/
def overlay (c : Config) (slot : Slot) (proposal : Proposal) : Except Error Config := do
  let value ← coerce proposal (c.find? slot)
  c.put value slot

/-! ## Putting values -/

theorem put_key_eq_ok_iff (hv : v.Flat) {path : List String} :
    c.put v (.key path) = .ok c' ↔
      ∃ written, Path.write c.tree.scope v path c.tree.entries = .ok written ∧
        c' = { c with tree := { c.tree with entries := written } } := by
  rw [put, setAt, map_eq_ok_iff, Node.setAt, hv.rebind]
  cases Path.write c.tree.scope v path c.tree.entries <;> simp [eq_comm]

/-- What overlays leave behind them of a configuration: its scope, its provenance and every mapping. -/
structure Extends (c c' : Config) : Prop where
  scope : c'.tree.scope = c.tree.scope
  mappings : ∀ path, (Path.children? path c.tree.entries).isSome → (Path.children? path c'.tree.entries).isSome

theorem Extends.refl (c : Config) : Extends c c := ⟨rfl, fun _ => id⟩

theorem Extends.trans (h : Extends c c') (h' : Extends c' c'') : Extends c c'' :=
  ⟨h'.scope.trans h.scope, fun path hpath => h'.mappings path (h.mappings path hpath)⟩

/-- A slot that holds no mapping never held one. -/
theorem Extends.find?_eq_leaf? (h : Extends c c') (hfind : ∀ v ∈ c'.find? slot, v.isNode = false) :
    c.find? slot = c.leaf? slot := by
  cases slot with
  | global name => rfl
  | key path =>
    refine Path.find?_eq_leaf? fun v hv => ?_
    have hchildren := Path.children?_eq_none hfind
    rw [← Value.entries?_eq_none_iff]
    by_contra hsome
    have hthere := h.mappings path (by rw [Path.children?, hv]; exact Option.isSome_iff_ne_none.mpr hsome)
    simp [hchildren] at hthere

/-! ## Overlays -/

/-- What is found where an overlay succeeds is no mapping. -/
theorem isNode_of_overlay {existing : Option Value} (h : coerce proposal existing = .ok v) :
    ∀ w ∈ existing, w.isNode = false := by
  rintro w rfl
  exact isNode_of_coerce h

theorem overlay_eq_ok_iff : c.overlay slot proposal = .ok c' ↔
    ∃ v, coerce proposal (c.find? slot) = .ok v ∧ c.put v slot = .ok c' := bind_eq_ok_iff

/-- A proposal that is coerced to what is there changes nothing. -/
theorem overlay_self (h : c.find? slot = some v) (hv : coerce proposal (some v) = .ok v) :
    c.overlay slot proposal = .ok c := by
  refine overlay_eq_ok_iff.mpr ⟨v, h ▸ hv, ?_⟩
  cases slot with
  | key path => exact (put_key_eq_ok_iff (flat_coerce hv)).mpr ⟨_, Path.write_self h, rfl⟩
  | global name =>
    have hglobals : Ordered.insert name v c.globals = c.globals := Ordered.insert_of_lookup h
    rw [put, setGlobal, hglobals]

/-- **An overlay gives its slot the coerced value and leaves the other leaves alone.** -/
theorem overlay_leaf? (h : c.overlay slot proposal = .ok c') :
    ∃ v, coerce proposal (c.leaf? slot) = .ok v ∧
      ∀ other ≠ .key [], c'.leaf? other = if other = slot then some v else c.leaf? other := by
  obtain ⟨v, hv, hput⟩ := overlay_eq_ok_iff.mp h
  have hflat := flat_coerce hv
  refine ⟨v, (Extends.refl c).find?_eq_leaf? (isNode_of_overlay hv) ▸ hv, fun other hother => ?_⟩
  cases slot with
  | global name =>
    obtain rfl := Except.ok.inj hput
    cases other with
    | key path => rfl
    | global other =>
      show (Ordered.insert name v c.globals).lookup other = _
      rw [Ordered.lookup_insert]
      simp [leaf?]
  | key path =>
    obtain ⟨written, hwritten, rfl⟩ := (put_key_eq_ok_iff hflat).mp hput
    cases other with
    | global name => rfl
    | key other =>
      have hchildren := Path.children?_eq_none (isNode_of_overlay hv)
      have hne : other ≠ [] := by simpa using hother
      have hleaf := Path.leaf?_write hflat.isNode hchildren hwritten hne
      simpa [leaf?] using hleaf

theorem extends_overlay (h : c.overlay slot proposal = .ok c') : Extends c c' := by
  obtain ⟨v, hv, hput⟩ := overlay_eq_ok_iff.mp h
  cases slot with
  | global name =>
    obtain rfl := Except.ok.inj hput
    exact ⟨rfl, fun _ => id⟩
  | key path =>
    obtain ⟨written, hwritten, rfl⟩ := (put_key_eq_ok_iff (flat_coerce hv)).mp hput
    exact ⟨rfl, fun other => Path.isSome_children?_write (Path.children?_eq_none (isNode_of_overlay hv)) hwritten⟩

theorem provenance_overlay {proposal : Proposal} (h : c.overlay slot proposal = .ok c') :
    c'.provenance = c.provenance := by
  obtain ⟨v, hv, hput⟩ := overlay_eq_ok_iff.mp h
  cases slot with
  | global name => exact Except.ok.inj hput ▸ rfl
  | key path =>
    obtain ⟨written, -, rfl⟩ := (put_key_eq_ok_iff (flat_coerce hv)).mp hput
    rfl

/-! ## Switches -/

/-- The slot that a switch names; some switches only serve the pipeline. -/
def slot? (c : Config) (switch : String) : Option Slot :=
  if switch = "" ∨ switch = Arguments.fileSwitch ∨ switch = Arguments.prefixSwitch then none
  else
    match Arguments.globalName? switch with
    | some name => some (.global name)
    | none => some (.key (c.switchPath switch))

/-- The switches that name no slot. -/
def ServesPipeline (switch : String) : Prop :=
  switch = "" ∨ switch = Arguments.fileSwitch ∨ switch = Arguments.prefixSwitch

theorem slot?_eq_none_iff {switch : String} : c.slot? switch = none ↔ ServesPipeline switch := by
  unfold slot? ServesPipeline
  split
  · next h => simp [h]
  · next h => cases hglobal : Arguments.globalName? switch <;> simp [h]

theorem slot?_eq_global_iff {switch name : String} :
    c.slot? switch = some (.global name) ↔ ¬ServesPipeline switch ∧ Arguments.globalName? switch = some name := by
  unfold slot? ServesPipeline
  split
  · next h => simp [h]
  · next h => cases hglobal : Arguments.globalName? switch <;> simp [h]

theorem slot?_eq_key_iff {switch : String} {path : List String} :
    c.slot? switch = some (.key path) ↔
      ¬ServesPipeline switch ∧ Arguments.globalName? switch = none ∧ c.switchPath switch = path := by
  unfold slot? ServesPipeline
  split
  · next h => simp [h]
  · next h => cases hglobal : Arguments.globalName? switch <;> simp [h]

theorem slot?_congr (h : c'.tree.scope = c.tree.scope) : c'.slot? = c.slot? := by
  funext switch
  simp only [slot?, switchPath, h]

theorem slot?_ne_root {switch : String} (h : c.slot? switch = some slot) : slot ≠ .key [] := by
  rintro rfl
  obtain ⟨-, -, hpath⟩ := slot?_eq_key_iff.mp h
  exact switchPath_ne_nil c switch hpath

/-- Different switches name different slots. -/
theorem slot?_injective {a b : String} (ha : c.slot? a = some slot) (hb : c.slot? b = some slot) : a = b := by
  cases slot with
  | global name =>
    obtain ⟨-, hga⟩ := slot?_eq_global_iff.mp ha
    obtain ⟨-, hgb⟩ := slot?_eq_global_iff.mp hb
    exact Arguments.globalName?_injective hga hgb
  | key path =>
    obtain ⟨-, -, hpa⟩ := slot?_eq_key_iff.mp ha
    obtain ⟨-, -, hpb⟩ := slot?_eq_key_iff.mp hb
    exact switchPath_injective c (hpa.trans hpb.symm)

/-- No switch before a new one names its slot. -/
theorem slot?_ne_of_fresh {done : Arguments} {switch : String} (hnew : switch ∉ Ordered.keys done)
    (hslot : c.slot? switch = some slot) : ∀ other ∈ done, c.slot? other.1 ≠ some slot :=
  fun _ hdone hs => hnew (slot?_injective hs hslot ▸ List.mem_map_of_mem hdone)

/-- A switch of the pipeline sets the parameters at most. -/
theorem overlaySwitch_of_slot?_eq_none {switch : String × List String} (h : c.slot? switch.1 = none)
    (hok : c.overlaySwitch switch = .ok c') :
    ∃ parameters, c' = c.withProvenance ({· with parameters }) := by
  have hname := slot?_eq_none_iff.mp h
  unfold overlaySwitch at hok
  dsimp only at hok
  by_cases hempty : switch.1 = ""
  · rw [if_pos hempty] at hok
    exact ⟨_, (Except.ok.inj hok).symm⟩
  · rw [if_neg hempty, if_pos (hname.resolve_left hempty)] at hok
    exact ⟨c.provenance.parameters, (Except.ok.inj hok).symm⟩

/-- A switch overlays its slot, and is recorded if nothing was there. -/
theorem overlaySwitch_eq {switch : String × List String} (h : c.slot? switch.1 = some slot) :
    c.overlaySwitch switch = (c.overlay slot (.ofValues switch.2)).map fun changed =>
      if (c.find? slot).isSome then changed else changed.withProvenance (·.record switch.1) := by
  unfold overlaySwitch overlay
  dsimp only
  cases slot with
  | global name =>
    obtain ⟨hname, hglobal⟩ := slot?_eq_global_iff.mp h
    rw [ServesPipeline, not_or] at hname
    rw [if_neg hname.1, if_neg hname.2, hglobal]
    show overlayGlobalSwitch c switch.1 name (.ofValues switch.2) = _
    simp only [overlayGlobalSwitch, find?]
    cases coerce (.ofValues switch.2) (c.globals.lookup name) <;> rfl
  | key path =>
    obtain ⟨hname, hglobal, rfl⟩ := slot?_eq_key_iff.mp h
    rw [ServesPipeline, not_or] at hname
    rw [if_neg hname.1, if_neg hname.2, hglobal]
    show overlayKeySwitch c switch.1 (.ofValues switch.2) = _
    simp only [overlayKeySwitch, find?, put]
    cases coerce (.ofValues switch.2) (Path.find? (c.switchPath switch.1) c.tree.entries) with
    | error e => rfl
    | ok v =>
      show ((c.setAt (c.switchPath switch.1) v).bind _) = (c.setAt (c.switchPath switch.1) v).map _
      cases c.setAt (c.switchPath switch.1) v <;> rfl

theorem withProvenance_leaf? (c : Config) (f : Provenance → Provenance) (slot : Slot) :
    (c.withProvenance f).leaf? slot = c.leaf? slot := by cases slot <;> rfl

theorem extends_withProvenance (c : Config) (f : Provenance → Provenance) : Extends c (c.withProvenance f) :=
  ⟨rfl, fun _ => id⟩

/-- Recording changes no leaf. -/
theorem overlaySwitch_leaf? {switch : String × List String} (h : c.slot? switch.1 = some slot)
    (hok : c.overlaySwitch switch = .ok c') :
    Extends c c' ∧ ∃ v, coerce (.ofValues switch.2) (c.leaf? slot) = .ok v ∧
      ∀ other ≠ .key [], c'.leaf? other = if other = slot then some v else c.leaf? other := by
  obtain ⟨changed, hchanged, rfl⟩ := map_eq_ok_iff.mp (overlaySwitch_eq h ▸ hok)
  have hleaf := overlay_leaf? hchanged
  have hextends := extends_overlay hchanged
  split
  · exact ⟨hextends, hleaf⟩
  · refine ⟨hextends.trans (extends_withProvenance _ _), ?_⟩
    simpa only [withProvenance_leaf?] using hleaf

/-- What a run of switches has done to the leaves: each slot has what its switch gives over the value from
before the run, and slots without a switch are as they were. -/
structure SwitchesDone (c : Config) (done : Arguments) (after : Config) : Prop where
  keeps : Extends c after
  switched : ∀ switch ∈ done, ∀ slot, c.slot? switch.1 = some slot →
    ∃ v, coerce (.ofValues switch.2) (c.leaf? slot) = .ok v ∧ after.leaf? slot = some v
  others : ∀ slot ≠ .key [], (∀ switch ∈ done, c.slot? switch.1 ≠ some slot) → after.leaf? slot = c.leaf? slot

theorem SwitchesDone.start (c : Config) : SwitchesDone c [] c := ⟨Extends.refl c, by simp, fun _ _ _ => rfl⟩

theorem SwitchesDone.step {done : Arguments} {switch : String × List String} (h : SwitchesDone c done c')
    (hnew : switch.1 ∉ Ordered.keys done) (hok : c'.overlaySwitch switch = .ok c'') :
    SwitchesDone c (done ++ [switch]) c'' := by
  have hslots : c'.slot? = c.slot? := slot?_congr h.keeps.scope
  cases hslot : c'.slot? switch.1 with
  | none =>
    obtain ⟨parameters, rfl⟩ := overlaySwitch_of_slot?_eq_none hslot hok
    refine ⟨h.keeps.trans (extends_withProvenance _ _), fun other hother slot hs => ?_, fun slot hne hno => ?_⟩
    · rw [withProvenance_leaf?]
      rcases List.mem_append.mp hother with hdone | hlast
      · exact h.switched other hdone slot hs
      · rw [List.mem_singleton.mp hlast, ← hslots, hslot] at hs
        contradiction
    · rw [withProvenance_leaf?]
      exact h.others slot hne fun other hdone => hno other (List.mem_append_left _ hdone)
  | some target =>
    obtain ⟨hextends, v, hv, hleaf⟩ := overlaySwitch_leaf? hslot hok
    have hfresh := slot?_ne_of_fresh hnew (hslots ▸ hslot)
    refine ⟨h.keeps.trans hextends, fun other hother slot hs => ?_, fun slot hne hno => ?_⟩
    · rw [hleaf slot (slot?_ne_root hs)]
      rcases List.mem_append.mp hother with hdone | hlast
      · rw [if_neg (fun he : slot = target => hfresh other hdone (he ▸ hs))]
        exact h.switched other hdone slot hs
      · obtain rfl := List.mem_singleton.mp hlast
        obtain rfl : slot = target := Option.some.inj (hs.symm.trans (hslots ▸ hslot))
        rw [h.others slot (slot?_ne_root hs) hfresh] at hv
        exact ⟨v, hv, if_pos rfl⟩
    · have hother : slot ≠ target := fun he =>
        hno switch (List.mem_append_right _ (List.mem_singleton_self _)) (he ▸ hslots ▸ hslot)
      rw [hleaf slot hne, if_neg hother]
      exact h.others slot hne fun other hdone => hno other (List.mem_append_left _ hdone)

theorem not_mem_keys_of_distinct {done rest : Arguments} {switch : String × List String}
    (h : Ordered.Distinct (done ++ switch :: rest)) : switch.1 ∉ Ordered.keys done := by
  rw [Ordered.Distinct, Ordered.keys_append, Ordered.keys_cons, List.nodup_append] at h
  exact fun hmem => h.2.2 _ hmem _ List.mem_cons_self rfl

/-- **What a run of switches does to the leaves.** -/
theorem switchesDone_of_each {arguments : Arguments} (hdistinct : Ordered.Distinct arguments)
    (h : Attempt.each overlaySwitch c arguments = ⟨c', none⟩) : SwitchesDone c arguments c' :=
  Attempt.each_induction (SwitchesDone.start c)
    (fun _ _ _ _ _ hitems hdone hstep => hdone.step (not_mem_keys_of_distinct (hitems ▸ hdistinct)) hstep) h

/-- Parsing arguments changes nothing but the arguments. -/
theorem parseArguments_eq_ok {aliases : Aliases} {tokens : List String} {parsed : Config}
    (h : c.parseArguments aliases tokens = .ok parsed) :
    ∃ arguments, parsed = c.withProvenance ({ · with arguments := some arguments }) ∧
      (Ordered.Distinct (c.provenance.arguments.getD []) → Ordered.Distinct arguments) := by
  obtain ⟨new, -, rfl⟩ := map_eq_ok_iff.mp h
  exact ⟨_, rfl, fun hd => Ordered.distinct_insertAll hd new⟩

/-! ## Environment variables -/

/-- The slot that an overlay writes to, if it writes at all. -/
def reached? (c : Config) : Target → Option Slot
  | .key path => some (.key path)
  | .global name create => if (c.globals.lookup name).isNone && !create then none else some (.global name)

theorem applyOverlay_eq (c : Config) (o : Overlay) :
    c.applyOverlay o = (c.reached? o.target).elim (.ok c) (c.overlay · (.text o.text)) := by
  unfold applyOverlay
  cases o.target with
  | key path => rfl
  | global name create =>
    simp only [reached?]
    split
    · rfl
    · show Except.bind _ _ = Except.bind _ _
      rfl

theorem reached?_global_iff {name : String} {create : Bool} :
    c.reached? (.global name create) = some slot ↔
      slot = .global name ∧ ((c.leaf? (.global name)).isSome ∨ create) := by
  rw [reached?, leaf?]
  cases c.globals.lookup name <;> cases create <;> simp [eq_comm]

/-- Some overlay of a run writes to a slot. -/
def Reaches (c : Config) (done : List Overlay) (slot : Slot) : Prop :=
  ∃ o ∈ done, c.reached? o.target = some slot

theorem reaches_append_singleton {done : List Overlay} {o : Overlay} :
    c.Reaches (done ++ [o]) slot ↔ c.Reaches done slot ∨ c.reached? o.target = some slot := by
  simp [Reaches, or_and_right, exists_or]

/-- What a run of overlays has done to the leaves: those that some overlay reached have what texts leave
over the value from before the run, and the others are as they were. -/
structure OverlaysDone (c : Config) (done : List Overlay) (after : Config) : Prop where
  keeps : Extends c after
  reached : ∀ slot ≠ .key [], c.Reaches done slot → ∃ v, after.leaf? slot = some v ∧ FromText (c.leaf? slot) v
  others : ∀ slot ≠ .key [], ¬c.Reaches done slot → after.leaf? slot = c.leaf? slot

theorem OverlaysDone.start (c : Config) : OverlaysDone c [] c :=
  ⟨Extends.refl c, fun _ _ h => absurd h (by simp [Reaches]), fun _ _ _ => rfl⟩

/-- A slot that is reached in the course of a run was reached at its start, or by the run before. -/
theorem OverlaysDone.reached_before {done : List Overlay} (h : OverlaysDone c done c') {target : Target}
    (hreached : c'.reached? target = some slot) : c.Reaches done slot ∨ c.reached? target = some slot := by
  by_cases hbefore : c.Reaches done slot
  · exact Or.inl hbefore
  refine Or.inr ?_
  cases target with
  | key path => exact hreached
  | global name create =>
    obtain ⟨rfl, hknown⟩ := reached?_global_iff.mp hreached
    rw [h.others (.global name) (by simp) hbefore] at hknown
    exact reached?_global_iff.mpr ⟨rfl, hknown⟩

/-- A slot that was reached at the start of a run is reached ever after. -/
theorem OverlaysDone.reached_after {done : List Overlay} (h : OverlaysDone c done c') {target : Target}
    (hreached : c.reached? target = some slot) : c'.reached? target = some slot := by
  cases target with
  | key path => exact hreached
  | global name create =>
    obtain ⟨rfl, hknown⟩ := reached?_global_iff.mp hreached
    refine reached?_global_iff.mpr ⟨rfl, ?_⟩
    by_cases hbefore : c.Reaches done (.global name)
    · obtain ⟨v, hv, -⟩ := h.reached (.global name) (by simp) hbefore
      exact Or.inl (by rw [hv]; rfl)
    · rwa [h.others (.global name) (by simp) hbefore]

theorem OverlaysDone.step {done : List Overlay} {o : Overlay} (h : OverlaysDone c done c')
    (hok : c'.applyOverlay o = .ok c'') : OverlaysDone c (done ++ [o]) c'' := by
  rw [applyOverlay_eq] at hok
  cases hreached : c'.reached? o.target with
  | none =>
    rw [hreached] at hok
    obtain rfl := Except.ok.inj hok
    have hsame : ∀ slot, c.Reaches (done ++ [o]) slot ↔ c.Reaches done slot := by
      intro slot
      rw [reaches_append_singleton, or_iff_left]
      intro hstart
      simp [h.reached_after hstart] at hreached
    refine ⟨h.keeps, fun slot hne hsome => ?_, fun slot hne hno => ?_⟩
    · exact h.reached slot hne ((hsame slot).mp hsome)
    · exact h.others slot hne (mt (hsame slot).mpr hno)
  | some target =>
    rw [hreached] at hok
    obtain ⟨v, hv, hleaf⟩ := overlay_leaf? hok
    have hadded : ∀ slot, c.Reaches (done ++ [o]) slot ↔ c.Reaches done slot ∨ slot = target := by
      intro slot
      rw [reaches_append_singleton]
      constructor
      · refine Or.imp_right fun hstart => ?_
        exact Option.some.inj ((h.reached_after hstart).symm.trans hreached)
      · rintro (hdone | rfl)
        · exact Or.inl hdone
        · exact h.reached_before hreached
    refine ⟨h.keeps.trans (extends_overlay hok), fun slot hne hsome => ?_, fun slot hne hno => ?_⟩
    · rw [hleaf slot hne]
      by_cases hslot : slot = target
      · subst hslot
        rw [if_pos rfl]
        refine ⟨v, rfl, ?_⟩
        by_cases hbefore : c.Reaches done slot
        · obtain ⟨w, hw, hfrom⟩ := h.reached slot hne hbefore
          exact hfrom.trans (hw ▸ hv)
        · rw [h.others slot hne hbefore] at hv
          exact fromText_of_coerce hv
      · rw [if_neg hslot]
        exact h.reached slot hne (((hadded slot).mp hsome).resolve_right hslot)
    · rw [hadded, not_or] at hno
      rw [hleaf slot hne, if_neg hno.2]
      exact h.others slot hne hno.1

/-- **What a run of environment variables does to the leaves.** -/
theorem overlaysDone_of_each {overlays : List Overlay} (h : Attempt.each applyOverlay c overlays = ⟨c', none⟩) :
    OverlaysDone c overlays c' :=
  Attempt.each_induction (OverlaysDone.start c) (fun _ _ _ _ _ _ hdone hstep => hdone.step hstep) h

end Config

end LayeredConfig
