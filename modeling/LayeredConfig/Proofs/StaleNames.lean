import LayeredConfig.Proofs.Created

/-!
# Saving after later edits

The names that arguments created stay recorded whatever is done to the tree afterwards. To save a configuration without
them each name is taken out in turn. One that is gone is passed over, but not one whose parent is gone or is no mapping
any more: saving then fails with the error of an access, although the configuration can be saved as a whole
(`encode_without_created_iff`).
-/

namespace LayeredConfig

namespace Node

variable {n : Node} {key : Key} {above : List String} {segment : String}

/-- A key below what is no mapping cannot be taken out. -/
theorem removePruned_error (hoptions : n.scope.options.noKeyError = false)
    (hkey : (n.resolve key).segments = above ++ [segment]) (hne : above ≠ [])
    (hnone : Path.children? above n.entries = none) :
    ∃ text, n.removePruned key = .error (.keyNotFound text) ∨ n.removePruned key = .error (.keyMismatch text) := by
  have hparents : (n.resolve key).parents = above := by rw [Key.parents, hkey, List.dropLast_concat]
  have herror (error : Error) (α : Type) : n.refuse (α := α) error = .error error := by simp [refuse, hoptions]
  unfold removePruned remove
  simp only [resolve_resolve, hparents, List.isEmpty_eq_false_iff.mpr hne, lookup]
  rw [Path.children?, Path.find?] at hnone
  cases hfind : Path.find above n.entries with
  | error miss =>
    cases miss with
    | absent text => exact ⟨text, Or.inl (by simp only [herror]; rfl)⟩
    | blocked text => exact ⟨text, Or.inr (by simp only [herror]; rfl)⟩
  | ok v =>
    rw [hfind] at hnone
    cases v with
    | node scope provenance entries => contradiction
    | _ => exact ⟨dotted above, Or.inr (by simp only [herror]; rfl)⟩

end Node

namespace Config

variable {c : Config} {name : String} {slot : Slot}

/-! ## One name -/

/-- The slot of a name that is recorded. -/
def createdSlot (c : Config) (name : String) : Slot :=
  match Arguments.globalName? name with
  | some global => .global global
  | none => .key (c.switchPath name)

/-- Whether what is above a slot is a mapping. -/
def HasPlace (c : Config) : Slot → Prop
  | .key path => path.dropLast = [] ∨ (Path.children? path.dropLast c.tree.entries).isSome
  | .global _ => True

theorem createdSlot_drop (c : Config) (slot : Slot) : (c.drop slot).createdSlot = c.createdSlot := by
  funext name
  simp only [createdSlot, switchPath, scope_drop]

/-- A name is taken out with its slot, whether something is there or not. -/
theorem dropCreated_of_hasPlace (hc : c.Proper) (h : c.HasPlace (c.createdSlot name)) :
    c.dropCreated name = .ok (c.drop (c.createdSlot name)) := by
  unfold dropCreated
  unfold createdSlot at h ⊢
  cases hglobal : Arguments.globalName? name with
  | some global => rfl
  | none =>
    rw [hglobal] at h
    have hpath := List.dropLast_append_getLast (switchPath_ne_nil c name)
    have hkey := (segments_resolve_parse c name).trans hpath.symm
    show (c.tree.removePruned (.parse name)).map _ = .ok (c.drop (.key (c.switchPath name)))
    rw [Node.removePruned_of_above hc.entries hkey h, hpath]
    rfl

theorem dropCreated_of_not_hasPlace (hoptions : c.tree.scope.options.noKeyError = false)
    (h : ¬ c.HasPlace (c.createdSlot name)) :
    ∃ text, c.dropCreated name = .error (.keyNotFound text) ∨ c.dropCreated name = .error (.keyMismatch text) := by
  unfold dropCreated
  unfold createdSlot at h
  cases hglobal : Arguments.globalName? name with
  | some global =>
    rw [hglobal] at h
    exact absurd trivial h
  | none =>
    rw [hglobal] at h
    obtain ⟨hne, hnone⟩ := not_or.mp h
    have hpath := List.dropLast_append_getLast (switchPath_ne_nil c name)
    have hkey := (segments_resolve_parse c name).trans hpath.symm
    obtain ⟨text, herror⟩ := Node.removePruned_error hoptions hkey hne (by simpa using hnone)
    show ∃ text, (c.tree.removePruned (.parse name)).map _ = _ ∨ (c.tree.removePruned (.parse name)).map _ = _
    refine ⟨text, herror.imp ?_ ?_⟩
    · intro herror
      rw [herror]
      rfl
    · intro herror
      rw [herror]
      rfl

/-! ## All names -/

/-- What is left of a configuration without the slots of some names. -/
def without (c : Config) (names : List String) : Config := (names.map c.createdSlot).foldl drop c

theorem without_cons (c : Config) (name : String) (names : List String) :
    c.without (name :: names) = (c.drop (c.createdSlot name)).without names := by
  rw [without, without, createdSlot_drop]
  rfl

/-- Every name finds a mapping above its slot when those before it have been taken out. -/
def KeepsPlaces (c : Config) (names : List String) : Prop :=
  ∀ done name rest, names = done ++ name :: rest → (c.without done).HasPlace (c.createdSlot name)

theorem keepsPlaces_cons {names : List String} : c.KeepsPlaces (name :: names) ↔
    c.HasPlace (c.createdSlot name) ∧ (c.drop (c.createdSlot name)).KeepsPlaces names := by
  constructor
  · intro h
    refine ⟨h [] name names rfl, ?_⟩
    intro done other rest hnames
    have hlater := h (name :: done) other rest (by rw [hnames, List.cons_append])
    rw [createdSlot_drop]
    rwa [without_cons] at hlater
  · rintro ⟨hplace, h⟩ done other rest hnames
    cases done with
    | nil =>
      obtain ⟨rfl, rfl⟩ := List.cons.inj hnames
      exact hplace
    | cons first done =>
      obtain ⟨rfl, hrest⟩ := List.cons.inj hnames
      have hlater := h done other rest hrest
      rw [createdSlot_drop] at hlater
      rwa [without_cons]

/-- **Names are taken out with their slots, or the first that has lost its place is an error.** -/
theorem foldlM_dropCreated_cases (hc : c.Proper) (hoptions : c.tree.scope.options.noKeyError = false)
    (names : List String) :
    c.KeepsPlaces names ∧ names.foldlM dropCreated c = .ok (c.without names) ∨
      ¬ c.KeepsPlaces names ∧ ∃ text, names.foldlM dropCreated c = .error (.keyNotFound text) ∨
        names.foldlM dropCreated c = .error (.keyMismatch text) := by
  induction names generalizing c with
  | nil =>
    left
    refine ⟨?_, rfl⟩
    intro done name rest hnames
    simp at hnames
  | cons name names ih =>
    rw [keepsPlaces_cons, List.foldlM_cons, without_cons]
    by_cases hplace : c.HasPlace (c.createdSlot name)
    · rw [dropCreated_of_hasPlace hc hplace]
      simp only [hplace, true_and]
      exact ih (proper_drop hc) (by rw [scope_drop]; exact hoptions)
    · right
      obtain ⟨text, herror⟩ := dropCreated_of_not_hasPlace hoptions hplace
      refine ⟨fun h => hplace h.1, text, herror.imp ?_ ?_⟩
      · intro herror
        rw [herror]
        rfl
      · intro herror
        rw [herror]
        rfl

/-- **A configuration can always be saved as a whole. Without what arguments created it can be saved exactly if every
name that they created finds a mapping above it when its turn comes**; else saving fails with the error of an access. -/
theorem encode_without_created_iff (hc : c.Proper) (hoptions : c.tree.scope.options.noKeyError = false)
    (format : FileFormat) (options : SaveOptions) :
    (∃ text, c.encode format { options with includeFromArguments := true } = .ok text) ∧
      ((∃ text, c.encode format { options with includeFromArguments := false } = .ok text) ↔
        c.KeepsPlaces c.provenance.fromArguments) ∧
      ∀ error, c.encode format { options with includeFromArguments := false } = .error error →
        ∃ text, error = .keyNotFound text ∨ error = .keyMismatch text := by
  refine ⟨⟨_, rfl⟩, ?_⟩
  have hencode : c.encode format { options with includeFromArguments := false } =
      c.withoutCreated.map fun kept => format.render (kept.toDocument options.includeGlobals) := by
    show ((c.withoutCreated >>= fun kept => pure (kept.toDocument options.includeGlobals)).map format.render) = _
    cases c.withoutCreated <;> rfl
  rw [hencode]
  rcases foldlM_dropCreated_cases hc hoptions c.provenance.fromArguments with
    ⟨hplaces, hok⟩ | ⟨hplaces, text, herror⟩
  · rw [withoutCreated, hok]
    exact ⟨⟨fun _ => hplaces, fun _ => ⟨_, rfl⟩⟩, fun error h => by contradiction⟩
  · rw [withoutCreated]
    rcases herror with herror | herror <;> rw [herror]
    · refine ⟨⟨fun ⟨_, h⟩ => by contradiction, fun h => absurd h hplaces⟩, ?_⟩
      intro error h
      exact ⟨text, Or.inl (Except.error.inj h).symm⟩
    · refine ⟨⟨fun ⟨_, h⟩ => by contradiction, fun h => absurd h hplaces⟩, ?_⟩
      intro error h
      exact ⟨text, Or.inr (Except.error.inj h).symm⟩

/-- A key that arguments created and that is gone, while its parent is there. -/
theorem encode_without_created_gone :
    ∃ c tree text, (Config.empty {}).updateFromArguments ["prog", "--a.b", "x"] = ⟨c, none⟩ ∧
      c.tree.remove (.parse "a.b") = .ok (some (.str "x"), tree) ∧ tree.entries = [("a", .mapping [])] ∧
      ({ c with tree }).encode .json { includeFromArguments := false } = .ok text := by
  have hentries : ProperEntries [("a", .node .loose {} [])] := by
    simp [ProperEntries, Value.Proper, Value.Everywhere, Value.EverywhereEntries, Ordered.keys, Ordered.Distinct]
  let tree (entries : Entries) : Node := ⟨⟨.loose, {}⟩,
    { arguments := some [("", ["prog"]), ("a.b", ["x"])], fromArguments := ["a.b"] }, entries⟩
  have hplaces : (⟨tree [("a", .mapping [])], []⟩ : Config).KeepsPlaces ["a.b"] := by
    rw [keepsPlaces_cons]
    refine ⟨Or.inr rfl, ?_⟩
    intro done name rest hnames
    simp at hnames
  have hproper : (⟨tree [("a", .mapping [])], []⟩ : Config).Proper := ⟨hentries, ProperEntries.nil⟩
  obtain ⟨text, htext⟩ := (encode_without_created_iff hproper rfl .json {}).2.1.mpr hplaces
  have hrun : (Config.empty {}).updateFromArguments ["prog", "--a.b", "x"] =
      ⟨⟨tree [("a", .mapping [("b", .str "x")])], []⟩, none⟩ := rfl
  exact ⟨_, tree [("a", .mapping [])], text, hrun, rfl, rfl, htext⟩

/-- Without the parent of a key that arguments created, or with a text in its place, nothing can be saved. -/
theorem encode_without_created_fails :
    ∃ c tree₁ tree₂, (Config.empty {}).updateFromArguments ["prog", "--a.b", "x"] = ⟨c, none⟩ ∧
      c.tree.remove (.parse "a") = .ok (some (.mapping [("b", .str "x")]), tree₁) ∧
      c.tree.set (.parse "a") (.str "y") = .ok tree₂ ∧
      (∀ format, ∃ text, ({ c with tree := tree₁ }).encode format {} = .ok text) ∧
      (∀ format, ({ c with tree := tree₁ }).encode format { includeFromArguments := false } =
        .error (.keyNotFound "a")) ∧
      ∀ format, ({ c with tree := tree₂ }).encode format { includeFromArguments := false } =
        .error (.keyMismatch "a") := by
  let tree (entries : Entries) : Node := ⟨⟨.loose, {}⟩,
    { arguments := some [("", ["prog"]), ("a.b", ["x"])], fromArguments := ["a.b"] }, entries⟩
  have hrun : (Config.empty {}).updateFromArguments ["prog", "--a.b", "x"] =
      ⟨⟨tree [("a", .mapping [("b", .str "x")])], []⟩, none⟩ := rfl
  exact ⟨_, tree [], tree [("a", .str "y")], hrun, rfl, rfl, fun _ => ⟨_, rfl⟩, fun _ => rfl, fun _ => rfl⟩

end Config

end LayeredConfig
