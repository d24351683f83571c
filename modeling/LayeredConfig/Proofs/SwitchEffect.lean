import LayeredConfig.Proofs.Levels

/-!
# What a run of switches does

Each switch is applied to what those before it have left: to mappings that they created, values that they changed and
names that they recorded. Where the run succeeds, this does not show. A switch meets at its slot what was there before
the run, since no other switch wrote to it (`SwitchesDone.find?_eq`), and it makes mappings on its own path only. So the
run can be described switch by switch from the configuration it began with (`updateFromArguments_effect`). What lies
beside all slots reads as before, with one exception: a path that led to nothing through a mapping which the run creates
still leads to nothing, but lacks another segment (`updateFromArguments_moves_missing`).
-/

namespace LayeredConfig.Config

open LayeredConfig.Path

variable {c c' before after : Config} {slot : Slot} {path other above below : List String} {segment : String}
  {done arguments : Arguments} {switch : String × List String}

/-! ## Levels beside a slot -/

theorem Extends.level? (h : Extends c c') (hlevel : (level? path c.tree.entries).isSome) :
    (level? path c'.tree.entries).isSome := by
  by_cases hpath : path = []
  · exact hpath ▸ rfl
  · rw [level?_eq_children? hpath] at hlevel ⊢
    exact h.mappings path hlevel

variable {target : Option Slot} {proposal : Proposal}

/-- An overlay makes no levels but those that lead to its slot. -/
theorem level?_of_overlayAt (hroot : target ≠ some (.key [])) (h : c.overlayAt target proposal = .ok c')
    (hlevel : (level? other c'.tree.entries).isSome) :
    (level? other c.tree.entries).isSome ∨ ∃ path, target = some (.key path) ∧ other <+: path := by
  cases target with
  | none => exact Or.inl ((Except.ok.inj h).symm ▸ hlevel)
  | some slot =>
    obtain ⟨v, hv, hput⟩ := overlay_eq_ok_iff.mp h
    cases slot with
    | global name =>
      obtain rfl := Except.ok.inj hput
      exact Or.inl hlevel
    | key path =>
      obtain ⟨written, hwritten, rfl⟩ := (put_key_eq_ok_iff (flat_coerce hv)).mp hput
      have hleaf : v.entries? = none := Value.entries?_eq_none_iff.mpr (flat_coerce hv).isNode
      have hpath : path ≠ [] := fun he => hroot (he ▸ rfl)
      exact (level?_of_write hleaf hpath hwritten hlevel).imp_right fun hstarts => ⟨path, rfl, hstarts⟩

/-- An overlay does not show beside its slot, from a level that was there. -/
theorem find_overlayAt_of_level? (h : c.overlayAt target proposal = .ok c')
    (hlevel : (level? above c.tree.entries).isSome)
    (hleaves : ∀ path, target = some (.key path) →
      Apart path (above ++ segment :: below) ∧ ¬ above ++ [segment] <+: path) :
    find (above ++ segment :: below) c'.tree.entries = find (above ++ segment :: below) c.tree.entries := by
  cases target with
  | none => rw [Except.ok.inj h]
  | some slot =>
    obtain ⟨v, hv, hput⟩ := overlay_eq_ok_iff.mp h
    cases slot with
    | global name => exact Except.ok.inj hput ▸ rfl
    | key path =>
      obtain ⟨written, hwritten, rfl⟩ := (put_key_eq_ok_iff (flat_coerce hv)).mp hput
      obtain ⟨hapart, hparted⟩ := hleaves path rfl
      obtain ⟨start, first, ⟨next, rest, rfl, hne⟩, tail, htail⟩ := exists_partAt hapart
      have hstart : start <+: above := (starts_or_starts htail).resolve_right fun hfar =>
        hparted (hfar.trans (List.prefix_append _ _))
      obtain ⟨middle, rfl⟩ := hstart
      obtain ⟨level, hlevel⟩ := Option.isSome_iff_exists.mp (isSome_level?_of_append hlevel)
      rw [htail]
      exact find_write_of_level? hne hlevel hwritten tail

/-! ## What a switch meets -/

/-- **A switch meets at its slot what was there before the run**, unless it fails. -/
theorem SwitchesDone.find?_eq (h : SwitchesDone c done before) (hnew : switch.1 ∉ Ordered.keys done)
    (hslot : c.slot? switch.1 = some slot) (hok : before.overlaySwitch switch = .ok after) :
    before.find? slot = c.find? slot := by
  have hthen : before.slot? switch.1 = some slot := slot?_congr h.keeps.scope ▸ hslot
  obtain ⟨changed, hchanged, -⟩ := map_eq_ok_iff.mp (overlaySwitch_eq hthen ▸ hok)
  obtain ⟨v, hv, -⟩ := overlay_eq_ok_iff.mp hchanged
  have hplain := isNode_of_overlay hv
  rw [h.keeps.find?_eq_leaf? hplain, (Extends.refl before).find?_eq_leaf? hplain]
  exact h.others slot (slot?_ne_root hslot) (slot?_ne_of_fresh hnew hslot)

/-- What a switch leaves at its slot: its own value if there was nothing, and otherwise that value as one of the kind
that was there. -/
theorem SwitchesDone.find?_switch (h : SwitchesDone c done after) (hswitch : switch ∈ done)
    (hslot : c.slot? switch.1 = some slot) :
    ∃ v, coerce (.ofValues switch.2) (c.find? slot) = .ok v ∧ after.find? slot = some v := by
  obtain ⟨v, hv, hleaf⟩ := h.switched switch hswitch slot hslot
  have hfind := find?_of_leaf? hleaf
  refine ⟨v, ?_, hfind⟩
  rw [h.keeps.find?_eq_leaf? ?_]
  · exact hv
  · intro w hw
    obtain rfl := Option.some.inj (hfind.symm.trans hw)
    exact (flat_coerce hv).isNode

/-! ## What switches note -/

/-- The switches whose slots are not there, in their order. -/
def creating (c : Config) (arguments : Arguments) : List String :=
  (arguments.filter fun switch => (c.slot? switch.1).any fun slot => (c.find? slot).isNone).map Prod.fst

/-- The provenance after a run of switches: the parameters are the values without a name, but for the program, and
the switches that created their slots are recorded once. -/
def notedRun (c : Config) (arguments : Arguments) : Provenance :=
  { c.provenance with
    parameters := (arguments.lookup "").elim c.provenance.parameters (·.drop 1)
    fromArguments := c.provenance.fromArguments ++
      (c.creating arguments).filter (· ∉ c.provenance.fromArguments) }

theorem mem_keys_of_mem_creating {name : String} (h : name ∈ c.creating done) : name ∈ Ordered.keys done := by
  obtain ⟨switch, hswitch, rfl⟩ := List.mem_map.mp h
  exact Ordered.key_mem_of_mem (List.mem_filter.mp hswitch).1

theorem creating_append (c : Config) (done : Arguments) (switch : String × List String) :
    c.creating (done ++ [switch]) = c.creating done ++
      if (c.slot? switch.1).any fun slot => (c.find? slot).isNone then [switch.1] else [] := by
  unfold creating
  rw [List.filter_append, List.map_append]
  split <;> simp [*]

theorem lookup_append_of_ne {name : String} (h : switch.1 ≠ name) :
    (done ++ [switch]).lookup name = done.lookup name := by
  rw [List.lookup_append]
  have hnone : [switch].lookup name = none := by
    rw [Ordered.lookup_eq_none_iff]
    simpa using h.symm
  rw [hnone, Option.or_none]

/-- One more switch is noted in the provenance that the run has left. -/
theorem noted_notedRun (hnew : switch.1 ∉ Ordered.keys done) :
    c.noted switch (c.notedRun done) = c.notedRun (done ++ [switch]) := by
  unfold noted
  cases hslot : c.slot? switch.1 with
  | none =>
    have hcreating : c.creating (done ++ [switch]) = c.creating done := by
      rw [creating_append, hslot]
      exact List.append_nil _
    by_cases hempty : switch.1 = ""
    · have hlookup : (done ++ [switch]).lookup "" = some switch.2 := by
        rw [hempty] at hnew
        rw [List.lookup_append, Ordered.lookup_eq_none_iff.mpr hnew, ← hempty, Option.none_or]
        exact List.lookup_cons_self
      simp only [if_pos hempty, notedRun, hcreating, hlookup, Option.elim_some]
    · simp only [if_neg hempty, notedRun, hcreating, lookup_append_of_ne hempty]
  | some slot =>
    have hempty : switch.1 ≠ "" := by
      intro hempty
      rw [slot?_eq_none_iff.mpr (Or.inl hempty)] at hslot
      contradiction
    dsimp only
    cases hfind : c.find? slot with
    | some old =>
      have hcreating : c.creating (done ++ [switch]) = c.creating done := by
        rw [creating_append, hslot]
        simp [hfind]
      simp only [Option.isSome_some, if_true, notedRun, hcreating, lookup_append_of_ne hempty]
    | none =>
      have hcreating : c.creating (done ++ [switch]) = c.creating done ++ [switch.1] := by
        rw [creating_append, hslot]
        simp [hfind]
      -- The names that the run has recorded belong to other switches, so only those from before it count.
      have hrecorded : switch.1 ∈ (c.notedRun done).fromArguments ↔ switch.1 ∈ c.provenance.fromArguments := by
        simp only [notedRun, List.mem_append, List.mem_filter, or_iff_left_iff_imp]
        intro hmem
        exact absurd (mem_keys_of_mem_creating hmem.1) hnew
      simp only [Option.isSome_none, Bool.false_eq_true, if_false, Provenance.record, hrecorded]
      by_cases hold : switch.1 ∈ c.provenance.fromArguments <;>
        simp [hold, notedRun, hcreating, lookup_append_of_ne hempty, List.filter_append]

/-! ## The run -/

/-- The paths of the switches that stand for keys. -/
def switchPaths (c : Config) (arguments : Arguments) : List (List String) :=
  arguments.filterMap fun switch =>
    match c.slot? switch.1 with
    | some (.key path) => some path
    | _ => none

theorem mem_switchPaths :
    path ∈ c.switchPaths arguments ↔ ∃ switch ∈ arguments, c.slot? switch.1 = some (.key path) := by
  rw [switchPaths, List.mem_filterMap]
  refine exists_congr fun switch => and_congr_right fun _ => ?_
  split
  · next target htarget => simp [htarget]
  · next hnone =>
    refine iff_of_false (by simp) fun he => hnone path he

theorem switchPaths_append :
    path ∈ c.switchPaths (done ++ [switch]) ↔ path ∈ c.switchPaths done ∨ c.slot? switch.1 = some (.key path) := by
  simp only [mem_switchPaths, List.mem_append, List.mem_singleton, or_and_right, exists_or, exists_eq_left]

/-- What is known after some switches of a run, each from the configuration before it. -/
structure SwitchesSeen (c : Config) (done : Arguments) (after : Config) : Prop extends SwitchesDone c done after where
  noted : after.provenance = c.notedRun done
  made : ∀ path, (level? path after.tree.entries).isSome →
    (level? path c.tree.entries).isSome ∨ ∃ target ∈ c.switchPaths done, path <+: target
  beside : ∀ above segment below, (level? above c.tree.entries).isSome →
    (∀ path ∈ c.switchPaths done, Apart path (above ++ segment :: below) ∧ ¬ above ++ [segment] <+: path) →
    find (above ++ segment :: below) after.tree.entries = find (above ++ segment :: below) c.tree.entries

theorem SwitchesSeen.start (c : Config) : SwitchesSeen c [] c where
  toSwitchesDone := SwitchesDone.start c
  noted := by simp [notedRun, creating]
  made := fun _ => Or.inl
  beside := fun _ _ _ _ _ => rfl

theorem SwitchesSeen.step (h : SwitchesSeen c done before) (hnew : switch.1 ∉ Ordered.keys done)
    (hok : before.overlaySwitch switch = .ok after) : SwitchesSeen c (done ++ [switch]) after := by
  have hslots : before.slot? = c.slot? := slot?_congr h.keeps.scope
  have hnoted : before.noted switch = c.noted switch := by
    unfold Config.noted
    rw [hslots]
    cases hslot : c.slot? switch.1 with
    | none => rfl
    | some slot => simp only [h.toSwitchesDone.find?_eq hnew hslot hok]
  obtain ⟨changed, hchanged, hafter⟩ := overlaySwitch_eq_ok_iff.mp hok
  have hentries : after.tree.entries = changed.tree.entries := congrArg (·.tree.entries) hafter
  rw [hslots] at hchanged
  refine ⟨h.toSwitchesDone.step hnew hok, ?noted, ?made, ?beside⟩
  case noted =>
    rw [hafter, hnoted]
    show c.noted switch changed.provenance = _
    rw [(provenance_overlayAt hchanged).1, h.noted, noted_notedRun hnew]
  case made =>
    intro path hlevel
    have hroot : c.slot? switch.1 ≠ some (.key []) := fun hslot => slot?_ne_root hslot rfl
    rw [hentries] at hlevel
    rcases level?_of_overlayAt hroot hchanged hlevel with hbefore | ⟨target, htarget, hstarts⟩
    · refine (h.made path hbefore).imp_right fun ⟨target, htarget, hstarts⟩ => ⟨target, ?_, hstarts⟩
      exact switchPaths_append.mpr (Or.inl htarget)
    · exact Or.inr ⟨target, switchPaths_append.mpr (Or.inr htarget), hstarts⟩
  case beside =>
    intro above segment below hlevel hleaves
    have hthere : (level? above before.tree.entries).isSome := h.keeps.level? hlevel
    rw [hentries, find_overlayAt_of_level? hchanged hthere fun path hpath => ?_]
    · exact h.beside above segment below hlevel fun path hpath => hleaves path (switchPaths_append.mpr (Or.inl hpath))
    · exact hleaves path (switchPaths_append.mpr (Or.inr hpath))

theorem switchesSeen_of_each (hd : Ordered.Distinct arguments)
    (h : Attempt.each overlaySwitch c arguments = ⟨c', none⟩) : SwitchesSeen c arguments c' :=
  Attempt.each_induction (SwitchesSeen.start c)
    (fun _ _ _ _ _ hitems hdone hstep => hdone.step (not_mem_keys_of_distinct (hitems ▸ hd)) hstep) h

/-! ## Beside the slots -/

/-- No leaf was in the way to a level that the run has made: the run would not have removed it. -/
theorem SwitchesSeen.leaf?_eq_none_above (h : SwitchesSeen c arguments c') (hbeside : Apart path other)
    (hswitches : ∀ target ∈ c.switchPaths arguments, Apart target other) (hpath : path ∈ c.switchPaths arguments)
    {start : List String} (hstart : start <+: path) (hshared : start <+: other) :
    Path.leaf? start c.tree.entries = none := by
  rw [Option.eq_none_iff_forall_ne_some]
  intro u hu
  have hroot : Slot.key start ≠ .key [] := by
    intro he
    rw [Slot.key.inj he] at hu
    contradiction
  have hleaf : Path.leaf? start c'.tree.entries = some u := by
    refine (h.others (.key start) hroot fun switch hswitch hslot => ?_).trans hu
    exact (hswitches start (mem_switchPaths.mpr ⟨switch, hswitch, hslot⟩)).1 hshared
  obtain ⟨switch, hswitch, hslot⟩ := mem_switchPaths.mp hpath
  obtain ⟨v, -, hswitched⟩ := h.switched switch hswitch _ hslot
  have hne : start ≠ path := fun he => hbeside.1 (he ▸ hshared)
  exact (Path.apart_of_leaf? hleaf hswitched hne).1 hstart

/-- The run makes no entry beside its slots. -/
theorem SwitchesSeen.lookup_eq_none {level : Entries} (h : SwitchesSeen c arguments c')
    (hnew : level? above c.tree.entries = none) (hlevel : level? above c'.tree.entries = some level)
    (hparted : ∀ path ∈ c.switchPaths arguments, ¬ above ++ [segment] <+: path) : level.lookup segment = none := by
  have hfind : Path.find? (above ++ [segment]) c'.tree.entries = level.lookup segment := by
    rw [find?_append_singleton, hlevel, Option.bind_some]
  have hfresh : Path.find? (above ++ [segment]) c.tree.entries = none := by
    rw [find?_append_singleton, hnew, Option.bind_none]
  rw [Option.eq_none_iff_forall_ne_some]
  intro u hu
  rw [hu] at hfind
  by_cases hnode : u.isNode
  · have hmade : (level? (above ++ [segment]) c'.tree.entries).isSome := by
      rw [level?_eq_children? (by simp), children?, hfind, Option.bind_some]
      cases u <;> first | contradiction | rfl
    rcases h.made _ hmade with hbefore | ⟨path, hpath, hstarts⟩
    · have habove := isSome_level?_of_append hbefore
      rw [hnew] at habove
      contradiction
    · exact hparted path hpath hstarts
  · have hleaf : Path.leaf? (above ++ [segment]) c'.tree.entries = some u :=
      leaf?_eq_some_iff.mpr ⟨hfind, by simpa using hnode⟩
    have hkept := h.others (.key (above ++ [segment])) (by simp) fun switch hswitch hslot =>
      hparted _ (mem_switchPaths.mpr ⟨switch, hswitch, hslot⟩) List.prefix_rfl
    have hbefore := find?_of_leaf? (hkept.symm.trans hleaf)
    rw [Config.find?, hfresh] at hbefore
    contradiction

/-- A path beside all slots leaves them at some level. If that was there, the path reads as before. If it is new, the
path has been missing one of the segments that lead to it, and is missing its next one now. -/
theorem SwitchesSeen.lookup_beside (h : SwitchesSeen c arguments c') (hpath : path ≠ [])
    (hswitches : ∀ target ∈ c.switchPaths arguments, Apart target path) :
    ∃ above segment, LeavesAt (c.switchPaths arguments) path above segment ∧
      if (level? above c.tree.entries).isSome then c'.tree.lookup path = c.tree.lookup path
      else (∃ missing ∈ above, c.tree.lookup path = c.tree.refuse (.keyNotFound missing)) ∧
        c'.tree.lookup path = c'.tree.refuse (.keyNotFound segment) := by
  obtain ⟨above, segment, hleaves⟩ := exists_leavesAt hpath hswitches
  refine ⟨above, segment, hleaves, ?_⟩
  obtain ⟨⟨below, rfl⟩, hshared, hparted⟩ := hleaves
  split
  · next hlevel =>
    refine Node.lookup_congr h.keeps.scope (h.beside above segment below hlevel fun target htarget => ?_)
    exact ⟨hswitches target htarget, hparted target htarget⟩
  · next hlevel =>
    have hnew : level? above c.tree.entries = none := Option.not_isSome_iff_eq_none.mp hlevel
    have habove : above ≠ [] := fun he => hlevel (he ▸ rfl)
    obtain ⟨target, htarget, rest, rfl⟩ := hshared.resolve_left habove
    have hapart := hswitches _ htarget
    have hrest : rest ≠ [] := fun he => hapart.1 (by simp [he])
    refine ⟨?before, ?after⟩
    case before =>
      obtain ⟨missing, hmem, hfind⟩ := find_of_level?_eq_none hnew (fun start hstart =>
        h.leaf?_eq_none_above hapart hswitches htarget (hstart.trans (List.prefix_append _ _))
          (hstart.trans (List.prefix_append _ _))) (List.cons_ne_nil segment below)
      exact ⟨missing, hmem, Node.lookup_of_find_eq_absent hfind⟩
    case after =>
      -- The switch that goes the same way has made the level, and nobody has put the next segment there.
      obtain ⟨switch, hswitch, hslot⟩ := mem_switchPaths.mp htarget
      obtain ⟨v, -, hleaf⟩ := h.switched switch hswitch _ hslot
      have hfound := find?_of_leaf? hleaf
      rw [Config.find?, find?_append habove hrest, ← level?_eq_children? habove] at hfound
      obtain ⟨level, hmade, -⟩ := Option.bind_eq_some_iff.mp hfound
      have hnone := h.lookup_eq_none hnew hmade hparted
      exact Node.lookup_of_find_eq_absent ((find_append hmade (List.cons_ne_nil _ _)).trans (find_of_fresh hnone below))

theorem SwitchesSeen.find?_beside (h : SwitchesSeen c arguments c')
    (hswitches : ∀ target ∈ c.switchPaths arguments, Apart target path) :
    c'.find? (.key path) = c.find? (.key path) := by
  by_cases hpath : path = []
  · exact hpath ▸ rfl
  have hiff : ∀ v, c'.find? (.key path) = some v ↔ c.find? (.key path) = some v := by
    intro v
    simp only [Config.find?, ← Node.lookup_eq_some_iff]
    obtain ⟨above, segment, -, hread⟩ := h.lookup_beside hpath hswitches
    split at hread
    · rw [hread]
    · obtain ⟨⟨missing, -, hbefore⟩, hafter⟩ := hread
      rw [hbefore, hafter]
      exact iff_of_false (Node.refuse_ne_some _ _ _) (Node.refuse_ne_some _ _ _)
  exact Option.ext hiff

/-- **What a run of switches that succeeds does.** Each switch gives its slot its own value if there was nothing, and
otherwise that value as one of the kind that was there, as if it had been applied alone. A path beside all of these
slots is read as before, with the error that it gives, unless it lacked a mapping that the run has made: then it lacked
one of the segments that lead to the mapping, and lacks the one after them now. The other globals are as they were. The
provenance has the new parameters, and the names of the switches that created their slots; nothing else of it
changes. -/
theorem updateFromArguments_effect {processArguments : List String} (hd : Ordered.Distinct arguments)
    (harguments : c.provenance.arguments = some arguments)
    (h : c.updateFromArguments processArguments = ⟨c', none⟩) :
    (∀ switch ∈ arguments, ∀ slot, c.slot? switch.1 = some slot →
      (c.find? slot = none → c'.find? slot = some (Proposal.ofValues switch.2).untyped) ∧
      ∀ old, c.find? slot = some old →
        ∃ v, coerce (.ofValues switch.2) (some old) = .ok v ∧ c'.find? slot = some v) ∧
    (∀ path, (∀ switch ∈ arguments, ∀ slot, c.slot? switch.1 = some slot → slot.Apart (.key path)) →
      c'.find? (.key path) = c.find? (.key path) ∧
      (path ≠ [] → ∃ above segment, LeavesAt (c.switchPaths arguments) path above segment ∧
        if (level? above c.tree.entries).isSome then c'.tree.lookup path = c.tree.lookup path
        else (∃ missing ∈ above, c.tree.lookup path = c.tree.refuse (.keyNotFound missing)) ∧
          c'.tree.lookup path = c'.tree.refuse (.keyNotFound segment))) ∧
    (∀ name, (∀ switch ∈ arguments, c.slot? switch.1 ≠ some (.global name)) →
      c'.globals.lookup name = c.globals.lookup name) ∧
    c'.provenance = { c.provenance with
      parameters := (arguments.lookup "").elim c.provenance.parameters (·.drop 1)
      fromArguments := c.provenance.fromArguments ++
        (c.creating arguments).filter (· ∉ c.provenance.fromArguments) } := by
  rw [updateFromArguments_eq harguments] at h
  have hseen := switchesSeen_of_each hd h
  refine ⟨?_, ?_, ?_, hseen.noted⟩
  · intro switch hswitch slot hslot
    obtain ⟨v, hv, hfind⟩ := hseen.toSwitchesDone.find?_switch hswitch hslot
    refine ⟨?_, ?_⟩
    · intro hnone
      rw [hnone] at hv
      exact Except.ok.inj hv ▸ hfind
    · intro old hold
      exact ⟨v, hold ▸ hv, hfind⟩
  · intro path hapart
    have hswitches : ∀ target ∈ c.switchPaths arguments, Apart target path := by
      intro target htarget
      obtain ⟨switch, hswitch, hslot⟩ := mem_switchPaths.mp htarget
      exact hapart switch hswitch _ hslot
    exact ⟨hseen.find?_beside hswitches, fun hpath => hseen.lookup_beside hpath hswitches⟩
  · intro name hother
    exact hseen.others (.global name) (by simp) hother

/-- A number that is there, two keys below a mapping that is not, one of which is recorded already, a global,
parameters, and a switch of the pipeline. A third key of that mapping lacks `x` before the run, and `w` after it. -/
theorem updateFromArguments_effect_six_switches :
    ∃ c c' : Config, c.tree.entries = [("a", .mapping [("b", .int 1), ("c", .str "old")])] ∧
      c.updateFromArguments [] = ⟨c', none⟩ ∧
      c'.find? (.key ["a", "b"]) = some (.int 5) ∧ c'.find? (.key ["x", "y"]) = some (.list [.str "p", .str "q"]) ∧
      c'.find? (.key ["x", "z"]) = some (.bool true) ∧ c'.find? (.global "g") = some (.bool true) ∧
      c'.tree.lookup ["a", "c"] = .ok (some (.str "old")) ∧ c.tree.lookup ["x", "w"] = .error (.keyNotFound "x") ∧
      c'.tree.lookup ["x", "w"] = .error (.keyNotFound "w") ∧ c'.globals.lookup "h" = c.globals.lookup "h" ∧
      c'.provenance.fromArguments = ["x.z", "x.y", "\x7bg\x7d"] ∧ c'.provenance.parameters = ["file"] := by
  let arguments : Arguments :=
    [("", ["prog", "file"]), ("a.b", ["5"]), ("x.y", ["p", "q"]), ("x.z", []), ("cfg", ["f"]), ("\x7bg\x7d", [])]
  let c : Config := ⟨⟨⟨.loose, {}⟩, { arguments := some arguments, fromArguments := ["x.z"] },
    [("a", .mapping [("b", .int 1), ("c", .str "old")])]⟩, []⟩
  have hrun : c.updateFromArguments [] =
      ⟨⟨⟨⟨.loose, {}⟩,
        { arguments := some arguments, fromArguments := ["x.z", "x.y", "\x7bg\x7d"], parameters := ["file"] },
        [("a", .mapping [("b", .int 5), ("c", .str "old")]),
          ("x", .mapping [("y", .list [.str "p", .str "q"]), ("z", .bool true)])]⟩, [("g", .bool true)]⟩, none⟩ := rfl
  have hslots : ∀ switch ∈ arguments, ∀ slot, c.slot? switch.1 = some slot →
      slot ∈ [.key ["a", "b"], .key ["x", "y"], .key ["x", "z"], .global "g"] := by decide
  obtain ⟨hswitches, hbeside, hglobals, hprovenance⟩ :=
    updateFromArguments_effect (show Ordered.Distinct arguments by decide) rfl hrun
  obtain ⟨-, hnumber⟩ := hswitches ("a.b", ["5"]) (by simp [arguments]) (.key ["a", "b"]) rfl
  obtain ⟨v, hv, hfound⟩ := hnumber (.int 1) rfl
  obtain rfl : .int 5 = v := Except.ok.inj hv
  have hlist := (hswitches ("x.y", ["p", "q"]) (by simp [arguments]) (.key ["x", "y"]) rfl).1 rfl
  have hflag := (hswitches ("x.z", []) (by simp [arguments]) (.key ["x", "z"]) rfl).1 rfl
  have hglobal := (hswitches ("\x7bg\x7d", []) (by simp [arguments]) (.global "g") rfl).1 rfl
  have hapart : ∀ path ∈ [["a", "c"], ["x", "w"]],
      ∀ slot ∈ [.key ["a", "b"], .key ["x", "y"], .key ["x", "z"], .global "g"], Slot.Apart slot (.key path) := by
    simp [Slot.Apart, Path.Apart]
  obtain ⟨hold, -⟩ := hbeside ["a", "c"] fun switch hswitch slot hslot =>
    hapart _ (by simp) slot (hslots switch hswitch slot hslot)
  have hkept := Node.lookup_eq_some_iff.mpr (hold.trans (show c.find? (.key ["a", "c"]) = some (.str "old") from rfl))
  obtain ⟨-, hmissing⟩ := hbeside ["x", "w"] fun switch hswitch slot hslot =>
    hapart _ (by simp) slot (hslots switch hswitch slot hslot)
  obtain ⟨above, segment, ⟨⟨below, hbelow⟩, -, hparted⟩, hread⟩ := hmissing (by simp)
  have hmoved : above = ["x"] ∧ segment = "w" := by
    have hxy := hparted ["x", "y"] (by decide)
    rcases above with _ | ⟨first, _ | ⟨second, above⟩⟩ <;> simp_all
  obtain ⟨rfl, rfl⟩ := hmoved
  obtain ⟨⟨missing, hmem, hbefore⟩, hafter⟩ := hread
  obtain rfl := List.mem_singleton.mp hmem
  have hother := hglobals "h" fun switch hswitch hslot => absurd (hslots switch hswitch _ hslot) (by decide)
  have hcreated := congrArg Provenance.fromArguments hprovenance
  have hparameters := congrArg Provenance.parameters hprovenance
  exact ⟨c, _, rfl, hrun, hfound, hlist, hflag, hglobal, hkept, hbefore, hafter, hother, hcreated, hparameters⟩

/-- With nothing there, `a.c` lacks `a`; once the switch `a.b` has been applied, it lacks `c`. -/
theorem updateFromArguments_moves_missing :
    let before : Config := { Config.empty {} with
      tree.provenance.arguments := some [("", ["prog"]), ("a.b", ["x"])] }
    let after := before.updateFromArguments []
    after.error = none ∧ before.slot? "a.b" = some (.key ["a", "b"]) ∧
      Slot.Apart (.key ["a", "b"]) (.key (Key.parse "a.c").segments) ∧
      before.tree.getRaw (.parse "a.c") = .error (.keyNotFound "a") ∧
      after.config.tree.getRaw (.parse "a.c") = .error (.keyNotFound "c") := by
  have hread : (Key.parse "a.c").segments = ["a", "c"] := by decide
  refine ⟨rfl, rfl, ?_, rfl, rfl⟩
  rw [hread]
  exact ⟨by decide, by decide⟩

end LayeredConfig.Config
