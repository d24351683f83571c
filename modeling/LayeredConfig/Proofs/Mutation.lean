import LayeredConfig.Proofs.Lenient
import LayeredConfig.Proofs.SwitchOrder

/-!
# Changes write by write

The changes of a configuration as programs that write in place, so that the writes before an error stay. A value
is planted at a path one segment after the other, and a mapping that is missing is there before the segments below
it are looked at (`Path.plant`); a switch records what it created after the value is written. No write of an
overlay comes before one of its errors, so each overlay has all of its effect or none, and these programs leave
what the changes that are settled as a whole leave (`attempt_updateFromEnvironment`, `attempt_updateFromArguments`,
`attempt_fullUpdate`). A merge that fails has stopped before one of its overlays.
-/

namespace LayeredConfig

/-! ## Runs that fail -/

namespace Attempt

variable {ι : Type} {step : Config → ι → Except Error Config} {items : List ι} {a : Attempt} {c d : Config}
  {error : Error}

theorem andThen_assoc (a : Attempt) (next last : Config → Attempt) :
    (a.andThen next).andThen last = a.andThen fun c => (next c).andThen last := by
  obtain ⟨config, error⟩ := a
  cases error <;> rfl

theorem ofResult_eq_error_iff {result : Except Error Config} :
    ofResult c result = ⟨d, some error⟩ ↔ result = .error error ∧ d = c := by
  cases result <;> simp [ofResult, and_comm, eq_comm]

theorem andThen_eq_error_iff {next : Config → Attempt} :
    a.andThen next = ⟨d, some error⟩ ↔
      a = ⟨d, some error⟩ ∨ ∃ middle, a = ⟨middle, none⟩ ∧ next middle = ⟨d, some error⟩ := by
  obtain ⟨config, stopped⟩ := a
  cases stopped <;> simp [andThen]

/-- **A run that fails is a run of the items before the one that fails**, and ends with what they leave. -/
theorem each_eq_error_iff : each step c items = ⟨d, some error⟩ ↔
    ∃ done item rest, items = done ++ item :: rest ∧ each step c done = ⟨d, none⟩ ∧ step d item = .error error := by
  induction items generalizing c with
  | nil => simp [each]
  | cons first items ih =>
    constructor
    · intro h
      rw [each] at h
      cases hfirst : step c first with
      | error failure =>
        rw [hfirst] at h
        obtain ⟨rfl, rfl⟩ : c = d ∧ failure = error := by simpa using h
        exact ⟨[], first, items, rfl, rfl, hfirst⟩
      | ok changed =>
        rw [hfirst] at h
        obtain ⟨done, item, rest, hitems, hdone, hitem⟩ := ih.mp h
        have hrun : each step c (first :: done) = ⟨d, none⟩ := each_cons_eq_iff.mpr ⟨changed, hfirst, hdone⟩
        exact ⟨first :: done, item, rest, by rw [hitems, List.cons_append], hrun, hitem⟩
    · rintro ⟨done, item, rest, hitems, hdone, hitem⟩
      cases done with
      | nil =>
        obtain ⟨rfl, rfl⟩ := List.cons.inj hitems
        obtain rfl : c = d := congrArg Attempt.config hdone
        rw [each, hitem]
      | cons head done =>
        obtain ⟨rfl, rfl⟩ := List.cons.inj hitems
        obtain ⟨changed, hchanged, hrun⟩ := each_cons_eq_iff.mp hdone
        rw [each, hchanged]
        exact ih.mpr ⟨done, item, rest, rfl, hrun, hitem⟩

end Attempt

/-! ## Planting -/

namespace Path

/-- Puts a value at a path, one write after the other. A mapping that is missing is created before the segments
below it are looked at; it stays if one of them is in the way, and that segment is reported. -/
def plant (scope : Scope) (v : Value) : List String → Entries → Entries × Option String
  | [], entries => (entries, none)
  | [segment], entries => (Ordered.insert segment v entries, none)
  | segment :: rest, entries =>
    let made :=
      if (entries.lookup segment).isSome then entries else Ordered.insert segment (.node scope {} []) entries
    match made.lookup segment with
    | some (.node inner provenance children) =>
      let (planted, blocked) := plant scope v rest children
      (Ordered.insert segment (.node inner provenance planted) made, blocked)
    | _ => (made, some segment)

/-- Nothing is in the way below a mapping that was just created. -/
theorem exists_write_empty (scope : Scope) (v : Value) (path : List String) :
    ∃ written, write scope v path [] = .ok written := by
  rw [exists_write_iff]
  intro above _ _
  rw [leaf?, find?_empty]
  rfl

/-- **A value is planted where it can be written, and otherwise no mapping is created**: one that was missing is
created only above segments that are missing as well. -/
theorem plant_eq (scope : Scope) (v : Value) (path : List String) (entries : Entries) :
    plant scope v path entries =
      match write scope v path entries with
      | .ok written => (written, none)
      | .error segment => (entries, some segment) := by
  induction path generalizing entries with
  | nil => rfl
  | cons segment rest ih =>
    cases rest with
    | nil => rfl
    | cons next rest =>
      simp only [plant, write]
      cases hlookup : entries.lookup segment with
      | none =>
        -- A mapping is created before the rest is looked at, but below it the rest cannot fail.
        obtain ⟨written, hwritten⟩ := exists_write_empty scope v (next :: rest)
        simp [Ordered.insert_insert, ih, hwritten, Except.map]
      | some old =>
        cases old with
        | node inner provenance children =>
          cases hwrite : write scope v (next :: rest) children with
          | ok written => simp [hlookup, ih, hwrite, Except.map]
          | error blocked =>
            -- What is put back is the mapping as it was.
            simp [hlookup, ih, hwrite, Except.map, Ordered.insert_of_lookup hlookup]
        | _ => simp [hlookup]

end Path

/-! ## Programs -/

/-- A program that changes a configuration in place. What it wrote before an error stays written. -/
abbrev Mutation := ExceptT Error (StateM Config)

namespace Mutation

/-- What a program leaves of a configuration, and the error that ended it early. -/
def attempt (program : Mutation Unit) (c : Config) : Attempt :=
  match (program.run.run c : Except Error Unit × Config) with
  | (.ok _, changed) => ⟨changed, none⟩
  | (.error error, changed) => ⟨changed, some error⟩

section

variable {α ι : Type}

theorem attempt_get_bind (next : Config → Mutation Unit) (c : Config) :
    (get >>= next).attempt c = (next c).attempt c := rfl

/-- The next program goes on from what this one wrote, unless this one failed. -/
theorem attempt_bind (program : Mutation Unit) (next : Unit → Mutation Unit) (c : Config) :
    (program >>= next).attempt c = (program.attempt c).andThen (next ()).attempt := by
  unfold attempt
  simp only [ExceptT.run_bind, StateT.run_bind]
  generalize (program.run.run c : Except Error Unit × Config) = ended
  obtain ⟨result, changed⟩ := ended
  cases result <;> rfl

theorem attempt_liftM_bind (result : Except Error α) (next : α → Mutation Unit) (c : Config) :
    ((liftM result : Mutation α) >>= next).attempt c =
      match result with
      | .ok a => (next a).attempt c
      | .error error => ⟨c, some error⟩ := by
  cases result <;> rfl

/-- **A run of programs that each write all or nothing is a run of changes.** -/
theorem attempt_forM {program : ι → Mutation Unit} {step : Config → ι → Except Error Config}
    (h : ∀ c item, (program item).attempt c = Attempt.ofResult c (step c item)) (items : List ι) (c : Config) :
    (forM items program).attempt c = Attempt.each step c items := by
  induction items generalizing c with
  | nil => rfl
  | cons item rest ih =>
    rw [List.forM_cons, attempt_bind, h, Attempt.each]
    cases step c item with
    | ok changed => exact ih changed
    | error error => rfl

end

/-! ## Overlays and merges -/

/-- Plants a value at a path of the tree. -/
def setAt (path : List String) (v : Value) : Mutation Unit := do
  let c ← get
  let (entries, blocked) := Path.plant c.tree.scope (v.rebind c.tree.scope) path c.tree.entries
  set { c with tree := { c.tree with entries } }
  match blocked with
  | none => pure ()
  | some segment => throw (.keyMismatch segment)

/-- Applies one overlay of the environment. -/
def applyOverlay (overlay : Overlay) : Mutation Unit := do
  let c ← get
  match overlay.target with
  | .key path =>
    let v ← coerce (.text overlay.text) (Path.find? path c.tree.entries)
    setAt path v
  | .global name create =>
    let existing := c.globals.lookup name
    if existing.isNone && !create then pure ()
    else
      let v ← coerce (.text overlay.text) existing
      modify (·.setGlobal name v)

/-- Overlays an environment, and keeps the prefix once the last overlay is applied. -/
def updateFromEnvironment (env : Environment) (options : EnvOptions) : Mutation Unit := do
  let c ← get
  forM (c.overlays env options) applyOverlay
  modify (·.withProvenance ({ · with envPrefix := some (c.envPrefix options) }))

/-- Records what a switch created. -/
def record (switch : String) : Mutation Unit := modify (·.withProvenance (·.record switch))

/-- Overlays the global in braces of a switch. -/
def overlayGlobalSwitch (switch name : String) (proposal : Proposal) : Mutation Unit := do
  let existing := (← get).globals.lookup name
  let v ← coerce proposal existing
  modify (·.setGlobal name v)
  if existing.isNone then record switch

/-- Overlays the key of a switch. -/
def overlayKeySwitch (switch : String) (proposal : Proposal) : Mutation Unit := do
  let c ← get
  let path := c.switchPath switch
  match Path.find? path c.tree.entries with
  | some old =>
    let v ← coerce proposal (some old)
    setAt path v
  | none =>
    setAt path proposal.untyped
    record switch

/-- Overlays one switch. -/
def overlaySwitch (switch : String × List String) : Mutation Unit :=
  let (name, values) := switch
  if name = "" then modify (·.withProvenance ({ · with parameters := values.drop 1 }))
  else if name = Arguments.fileSwitch ∨ name = Arguments.prefixSwitch then pure ()
  else
    let proposal := Proposal.ofValues values
    match Arguments.globalName? name with
    | some globalName => overlayGlobalSwitch name globalName proposal
    | none => overlayKeySwitch name proposal

/-- Parses tokens into the arguments of the tree. -/
def parseArguments (aliases : Aliases) (tokens : List String) : Mutation Unit := do
  let parsed ← Arguments.parse (Arguments.withDefaults aliases) tokens
  modify (·.withProvenance fun p => { p with arguments := some (Ordered.insertAll (p.arguments.getD []) parsed) })

/-- Overlays the arguments; if none were parsed yet, those of the process are. -/
def updateFromArguments (processArguments : List String) : Mutation Unit := do
  if (← get).provenance.arguments.isNone then parseArguments [] processArguments
  forM ((← get).provenance.arguments.getD []) overlaySwitch

/-- Parses arguments, then overlays the environment, then the arguments. -/
def fullUpdate (processArguments : List String) (env : Environment) (options : UpdateOptions) : Mutation Unit := do
  parseArguments options.aliases (options.tokens.getD processArguments)
  updateFromEnvironment env options.env
  updateFromArguments processArguments

section

variable (c : Config)

theorem attempt_setAt (path : List String) (v : Value) :
    (setAt path v).attempt c = Attempt.ofResult c (c.setAt path v) := by
  rw [setAt, attempt_get_bind, Path.plant_eq, Config.setAt, Node.setAt]
  cases Path.write c.tree.scope (v.rebind c.tree.scope) path c.tree.entries <;> rfl

theorem attempt_applyOverlay (overlay : Overlay) :
    (applyOverlay overlay).attempt c = Attempt.ofResult c (c.applyOverlay overlay) := by
  rw [applyOverlay, attempt_get_bind, Config.applyOverlay]
  cases overlay.target with
  | key path =>
    dsimp only
    rw [attempt_liftM_bind]
    cases coerce (.text overlay.text) (Path.find? path c.tree.entries) with
    | ok v => exact attempt_setAt c path v
    | error error => rfl
  | global name create =>
    dsimp only
    split
    · rfl
    · rw [attempt_liftM_bind]
      cases coerce (.text overlay.text) (c.globals.lookup name) <;> rfl

theorem attempt_overlayGlobalSwitch (switch name : String) (proposal : Proposal) :
    (overlayGlobalSwitch switch name proposal).attempt c =
      Attempt.ofResult c (c.overlayGlobalSwitch switch name proposal) := by
  rw [overlayGlobalSwitch, attempt_get_bind, attempt_liftM_bind, Config.overlayGlobalSwitch]
  cases coerce proposal (c.globals.lookup name) with
  | error error => rfl
  | ok v => cases c.globals.lookup name <;> rfl

/-- The key of a switch that is missing is recorded once its value is written, so not if a leaf is in the way. -/
theorem attempt_overlayKeySwitch (switch : String) (proposal : Proposal) :
    (overlayKeySwitch switch proposal).attempt c = Attempt.ofResult c (c.overlayKeySwitch switch proposal) := by
  rw [overlayKeySwitch, attempt_get_bind, Config.overlayKeySwitch]
  dsimp only
  cases hfind : Path.find? (c.switchPath switch) c.tree.entries with
  | some old =>
    dsimp only
    rw [attempt_liftM_bind]
    cases coerce proposal (some old) with
    | error error => rfl
    | ok v =>
      dsimp only
      rw [attempt_setAt]
      exact congrArg (Attempt.ofResult c) (bind_pure (c.setAt (c.switchPath switch) v)).symm
  | none =>
    dsimp only
    rw [attempt_bind, attempt_setAt]
    change _ = Attempt.ofResult c (c.setAt (c.switchPath switch) proposal.untyped >>= fun changed =>
      pure (changed.withProvenance (·.record switch)))
    cases c.setAt (c.switchPath switch) proposal.untyped <;> rfl

theorem attempt_overlaySwitch (switch : String × List String) :
    (overlaySwitch switch).attempt c = Attempt.ofResult c (c.overlaySwitch switch) := by
  unfold overlaySwitch Config.overlaySwitch
  dsimp only
  split
  · rfl
  · split
    · rfl
    · cases Arguments.globalName? switch.1 with
      | some name => exact attempt_overlayGlobalSwitch c switch.1 name (.ofValues switch.2)
      | none => exact attempt_overlayKeySwitch c switch.1 (.ofValues switch.2)

theorem attempt_parseArguments (aliases : Aliases) (tokens : List String) :
    (parseArguments aliases tokens).attempt c = Attempt.ofResult c (c.parseArguments aliases tokens) := by
  rw [parseArguments, attempt_liftM_bind, Config.parseArguments]
  cases Arguments.parse (Arguments.withDefaults aliases) tokens <;> rfl

theorem attempt_updateFromEnvironment (env : Environment) (options : EnvOptions) :
    (updateFromEnvironment env options).attempt c = c.updateFromEnvironment env options := by
  rw [updateFromEnvironment, attempt_get_bind, attempt_bind,
    attempt_forM attempt_applyOverlay]
  rfl

theorem attempt_updateFromArguments (processArguments : List String) :
    (updateFromArguments processArguments).attempt c = c.updateFromArguments processArguments := by
  have hrun : ∀ d : Config, (do forM ((← get).provenance.arguments.getD []) overlaySwitch : Mutation Unit).attempt d =
      d.overlayParsed := fun d => by
    rw [attempt_get_bind, attempt_forM attempt_overlaySwitch]
    rfl
  rw [updateFromArguments, attempt_get_bind, Config.updateFromArguments]
  cases c.provenance.arguments with
  | some arguments => exact hrun c
  | none =>
    rw [if_pos Option.isNone_none, attempt_bind, attempt_parseArguments]
    exact congrArg _ (funext hrun)

theorem attempt_fullUpdate (processArguments : List String) (env : Environment) (options : UpdateOptions) :
    (fullUpdate processArguments env options).attempt c = c.fullUpdate processArguments env options := by
  rw [fullUpdate, attempt_bind, attempt_parseArguments, Config.fullUpdate, Attempt.andThen_assoc]
  refine congrArg _ (funext fun parsed => ?_)
  rw [attempt_bind, attempt_updateFromEnvironment]
  exact congrArg _ (funext fun overlaid => attempt_updateFromArguments overlaid processArguments)

end

end Mutation

/-! ## Merges that fail -/

namespace Config

variable {c d : Config} {error : Error}

/-- The configuration whose arguments are overlaid; those of the process are parsed if there are none yet. -/
def withArguments (c : Config) (processArguments : List String) : Except Error Config :=
  match c.provenance.arguments with
  | some _ => .ok c
  | none => c.parseArguments [] processArguments

theorem updateFromArguments_eq_andThen (c : Config) (processArguments : List String) :
    c.updateFromArguments processArguments =
      (Attempt.ofResult c (c.withArguments processArguments)).andThen overlayParsed := by
  unfold updateFromArguments withArguments
  cases c.provenance.arguments <;> rfl

/-- The prefix is kept after the last overlay, so it is not if one of them fails. -/
theorem updateFromEnvironment_eq_error_iff {env : Environment} {options : EnvOptions} :
    c.updateFromEnvironment env options = ⟨d, some error⟩ ↔
      Attempt.each applyOverlay c (c.overlays env options) = ⟨d, some error⟩ := by
  unfold updateFromEnvironment
  rw [Attempt.andThen_eq_error_iff]
  simp

/-- Parsing changes nothing but the arguments. -/
theorem given_of_withArguments {start : Config} {processArguments : List String}
    (h : c.withArguments processArguments = .ok start) (arguments : Arguments) :
    start.given arguments = c.given arguments := by
  unfold withArguments at h
  split at h
  · rw [Except.ok.inj h]
  · obtain ⟨parsed, -, rfl⟩ := map_eq_ok_iff.mp h
    rfl

/-- A switch does not look at the arguments it comes from. -/
theorem overlaySwitch_given (c : Config) (arguments : Arguments) (switch : String × List String) :
    (c.given arguments).overlaySwitch switch = (c.overlaySwitch switch).map (·.given arguments) := by
  have hnoted : ∀ p, c.noted switch { p with arguments := some arguments } =
      { c.noted switch p with arguments := some arguments } := by
    intro p
    unfold noted Provenance.record
    split
    · split <;> rfl
    · split
      · rfl
      · split <;> rfl
  rw [given, overlaySwitch_withProvenance, overlaySwitch_eq_map]
  cases c.overlayAt (c.slot? switch.1) (.ofValues switch.2) with
  | error error => rfl
  | ok changed => exact congrArg (fun p => Except.ok (changed.withProvenance fun _ => p)) (hnoted changed.provenance)

end Config

namespace Mutation

variable {ι : Type} {c d : Config} {error : Error}

/-- A run over some items that ends after those of them that are done, all of which went well: the next one, tried
on what they leave, fails before its first write. -/
structure StopsAfter (step : ι → Mutation Unit) (c : Config) (done items : List ι) (d : Config) (error : Error) :
    Prop where
  run : (forM done step).attempt c = ⟨d, none⟩
  next : ∃ item rest, items = done ++ item :: rest ∧ (step item).attempt d = ⟨d, some error⟩

theorem exists_stopsAfter {program : ι → Mutation Unit} {step : Config → ι → Except Error Config} {items : List ι}
    (h : ∀ c item, (program item).attempt c = Attempt.ofResult c (step c item))
    (hrun : Attempt.each step c items = ⟨d, some error⟩) : ∃ done, StopsAfter program c done items d error := by
  obtain ⟨done, item, rest, hitems, hdone, hitem⟩ := Attempt.each_eq_error_iff.mp hrun
  refine ⟨done, (attempt_forM h done c).trans hdone, item, rest, hitems, ?_⟩
  rw [h, hitem]
  rfl

/-- **A merge that fails stops cleanly.** Written in place, an overlay or a switch that fails has written nothing. So an
environment that fails leaves what its overlays before the failing one have written, with all of the provenance as it
was, the prefix included. Arguments that fail leave what merging only the switches before the failing one leaves,
unless those of the process cannot be parsed, which changes nothing. Nor does a full update whose tokens cannot be
parsed change anything. -/
theorem merges_stop_cleanly (c : Config) (env : Environment) (options : EnvOptions) (processArguments : List String)
    (updates : UpdateOptions) :
    (∀ o d error, (applyOverlay o).attempt c = ⟨d, some error⟩ → d = c) ∧
    (∀ switch d error, (overlaySwitch switch).attempt c = ⟨d, some error⟩ → d = c) ∧
    (∀ d error, c.updateFromEnvironment env options = ⟨d, some error⟩ →
      (updateFromEnvironment env options).attempt c = ⟨d, some error⟩ ∧
      (∃ done, StopsAfter applyOverlay c done (c.overlays env options) d error) ∧
      d.provenance = c.provenance) ∧
    (∀ d error, c.updateFromArguments processArguments = ⟨d, some error⟩ →
      (updateFromArguments processArguments).attempt c = ⟨d, some error⟩ ∧
      (c.withArguments processArguments = .error error ∧ d = c ∨
        ∃ start done, c.withArguments processArguments = .ok start ∧
          StopsAfter overlaySwitch start done (start.provenance.arguments.getD []) d error ∧
          (c.given done).updateFromArguments processArguments = ⟨d.given done, none⟩)) ∧
    (∀ error, c.parseArguments updates.aliases (updates.tokens.getD processArguments) = .error error →
      (fullUpdate processArguments env updates).attempt c = ⟨c, some error⟩ ∧
      c.fullUpdate processArguments env updates = ⟨c, some error⟩) := by
  refine ⟨?_, ?_, ?_, ?_, ?_⟩
  · intro o d error h
    rw [attempt_applyOverlay] at h
    exact (Attempt.ofResult_eq_error_iff.mp h).2
  · intro switch d error h
    rw [attempt_overlaySwitch] at h
    exact (Attempt.ofResult_eq_error_iff.mp h).2
  · intro d error h
    rw [attempt_updateFromEnvironment]
    obtain ⟨done, hstops⟩ := exists_stopsAfter attempt_applyOverlay
      (Config.updateFromEnvironment_eq_error_iff.mp h)
    refine ⟨h, ⟨done, hstops⟩, ?_⟩
    have hdone := hstops.run
    rw [attempt_forM attempt_applyOverlay] at hdone
    exact Config.provenance_applyOverlays hdone
  · intro d error h
    rw [attempt_updateFromArguments]
    refine ⟨h, ?_⟩
    rw [Config.updateFromArguments_eq_andThen] at h
    rcases Attempt.andThen_eq_error_iff.mp h with hparse | ⟨start, hstart, hrun⟩
    · exact Or.inl (Attempt.ofResult_eq_error_iff.mp hparse)
    · rw [Attempt.ofResult_eq_iff] at hstart
      obtain ⟨done, hstops⟩ := exists_stopsAfter attempt_overlaySwitch hrun
      refine Or.inr ⟨start, done, hstart, hstops, ?_⟩
      have hdone := hstops.run
      rw [attempt_forM attempt_overlaySwitch] at hdone
      rw [← Config.given_of_withArguments hstart, Config.updateFromArguments_given,
        Attempt.each_map fun c switch => Config.overlaySwitch_given c done switch, hdone]
      rfl
  · intro error h
    rw [attempt_fullUpdate]
    have hfull : c.fullUpdate processArguments env updates = ⟨c, some error⟩ := by
      rw [Config.fullUpdate, h]
      rfl
    exact ⟨hfull, hfull⟩

/-- A number that is not one in the environment, a switch below a number after one below a mapping that is new, and a
lone dash among the tokens. -/
theorem merges_stop_cleanly_at_number :
    ∃ c d e : Config, c.tree.entries = [("a", .int 1), ("b", .str "old")] ∧
      c.updateFromEnvironment ⟨[("P_b", "text"), ("P_a", "many")], false⟩ { front := some "P_" } =
        ⟨d, some (.coercion "many" .int)⟩ ∧
      d.tree.entries = [("a", .int 1), ("b", .str "text")] ∧ d.provenance = c.provenance ∧
      c.updateFromArguments [] = ⟨e, some (.keyMismatch "a")⟩ ∧
      e.tree.entries = [("a", .int 1), ("b", .str "old"), ("x", .mapping [("y", .str "p")])] ∧
      e.provenance.fromArguments = ["x.y"] ∧
      (∃ done, (c.given done).updateFromArguments [] = ⟨e.given done, none⟩) ∧
      c.fullUpdate [] ⟨[], false⟩ { tokens := some ["-flag", "-"] } = ⟨c, some (.argumentSyntax "-")⟩ := by
  let provenance : Provenance :=
    { arguments := some [("x.y", ["p"]), ("a.c", ["q"]), ("z", [])], envPrefix := some "Q_" }
  let c : Config := ⟨⟨⟨.loose, {}⟩, provenance, [("a", .int 1), ("b", .str "old")]⟩, []⟩
  let env : Environment := ⟨[("P_b", "text"), ("P_a", "many")], false⟩
  have henv : c.updateFromEnvironment env { front := some "P_" } =
      ⟨⟨⟨⟨.loose, {}⟩, provenance, [("a", .int 1), ("b", .str "text")]⟩, []⟩, some (.coercion "many" .int)⟩ := by
    have hoverlays : c.overlays env { front := some "P_" } = [⟨.key ["b"], "text"⟩, ⟨.key ["a"], "many"⟩] := by decide
    rw [Config.updateFromEnvironment_eq_error_iff, hoverlays]
    rfl
  have harguments : c.updateFromArguments [] =
      ⟨⟨⟨⟨.loose, {}⟩, { provenance with fromArguments := ["x.y"] },
        [("a", .int 1), ("b", .str "old"), ("x", .mapping [("y", .str "p")])]⟩, []⟩, some (.keyMismatch "a")⟩ := rfl
  have htokens : c.parseArguments [] ["-flag", "-"] = .error (.argumentSyntax "-") := rfl
  obtain ⟨-, -, henvironment, hswitches, htokenizing⟩ :=
    merges_stop_cleanly c env { front := some "P_" } [] { tokens := some ["-flag", "-"] }
  obtain ⟨-, -, hprovenance⟩ := henvironment _ _ henv
  obtain ⟨-, ⟨hparse, -⟩ | ⟨-, done, -, -, hdone⟩⟩ := hswitches _ _ harguments
  · contradiction
  · exact ⟨c, _, _, rfl, henv, rfl, hprovenance, harguments, rfl, rfl, ⟨done, hdone⟩, (htokenizing _ htokens).2⟩

end Mutation

end LayeredConfig
