import LayeredConfig.Proofs.SwitchOrder
import LayeredConfig.Proofs.VariableOrder

/-!
# Variables and switches of one name

A variable behind a prefix finds its key in the table of paths, a switch splits its name at the dots. What they
propose for their slots is coerced in the same way, so they agree where the table records the path that the
switch spells. Where it records another one, they agree only if both fail with one error or neither changes
what is there (`agree_overlay_iff`).
-/

namespace LayeredConfig

namespace Attempt

variable {a a' b b' : Attempt}

/-- What can be told of an attempt by its error, and by the entries and globals it leaves. -/
def outcome (a : Attempt) : Option Error × Entries × Globals := (a.error, a.config.tree.entries, a.config.globals)

/-- Attempts that fail with one error, or succeed and leave the same tree and globals. -/
def Agree (a b : Attempt) : Prop :=
  a.error = b.error ∧
    (a.error = none → a.config.tree.Alike b.config.tree ∧ a.config.globals.Perm b.config.globals)

theorem agree_congr (ha : a.outcome = a'.outcome) (hb : b.outcome = b'.outcome) : a.Agree b ↔ a'.Agree b' := by
  simp only [outcome, Prod.mk.injEq] at ha hb
  obtain ⟨herror, hentries, hglobals⟩ := ha
  obtain ⟨herror', hentries', hglobals'⟩ := hb
  simp only [Agree, Node.Alike, herror, hentries, hglobals, herror', hentries', hglobals']

theorem agree_error_iff {c : Config} {e e' : Error} :
    (ofResult c (.error e)).Agree (ofResult c (.error e')) ↔ e = e' := by simp [Agree, ofResult]

theorem agree_ok_iff {c c₁ c₂ : Config} : (ofResult c (.ok c₁)).Agree (ofResult c (.ok c₂)) ↔
    c₁.tree.Alike c₂.tree ∧ c₁.globals.Perm c₂.globals := by simp [Agree, ofResult]

theorem each_singleton {ι : Type} (step : Config → ι → Except Error Config) (c : Config) (item : ι) :
    each step c [item] = ofResult c (step c item) := by
  rw [each]
  cases step c item <;> rfl

end Attempt

theorem coerceText_error {kind : Kind} {text : String} {e : Error} (h : coerceText kind text = .error e) :
    e = .coercion text kind := by
  cases kind with
  | int =>
    cases hread : readInt64? (trimmed text) <;> simp [coerceText, hread] at h
    exact h.symm
  | float =>
    cases hread : readFloat? (trimmed text) <;> simp [coerceText, hread] at h
    exact h.symm
  | node => exact (Except.error.inj h).symm
  | _ => cases h

namespace Config

variable {c c' c₁ c₂ : Config} {slot other above : Slot} {v old : Value} {e : Error} {name front text : String}
  {path : List String}

/-! ## Two slots -/

theorem put_error (h : c.put v slot = .error e) : ∃ segment, e = .keyMismatch segment := by
  cases slot with
  | global name => contradiction
  | key path =>
    simp only [put, setAt, Node.setAt] at h
    cases hwrite : Path.write c.tree.scope (v.rebind c.tree.scope) path c.tree.entries with
    | ok written =>
      rw [hwrite] at h
      contradiction
    | error segment =>
      rw [hwrite] at h
      exact ⟨segment, (Except.error.inj h).symm⟩

theorem bare?_eq_of_alike (hc : c₁.Proper) (hc' : c₂.Proper) (htree : c₁.tree.Alike c₂.tree)
    (hglobals : c₁.globals.Perm c₂.globals) (slot : Slot) : c₁.bare? slot = c₂.bare? slot := by
  cases slot with
  | key path => exact (Path.node_alike_iff hc.entries hc'.entries).mp htree path
  | global name => exact Ordered.lookup_perm hc.globals.1 hglobals name

theorem overlay_error {proposal : Proposal} (h : c.overlay slot proposal = .error e) :
    coerce proposal (c.find? slot) = .error e ∨ ∃ segment, e = .keyMismatch segment := by
  unfold overlay at h
  cases hv : coerce proposal (c.find? slot) with
  | error e' =>
    rw [hv] at h
    exact Or.inl (congrArg Except.error (Except.error.inj h))
  | ok v =>
    rw [hv] at h
    exact Or.inr (put_error h)

theorem overlay_of_coerce_error {proposal : Proposal} (h : coerce proposal (c.find? slot) = .error e) :
    c.overlay slot proposal = .error e := by
  rw [overlay, h]
  rfl

theorem overlay_error_iff_of_leaf? (hold : c.leaf? slot = some old) :
    c.overlay slot (.text text) = .error e ↔ coerceText old.kind text = .error e := by
  have hfind : coerce (.text text) (c.find? slot) = coerceText old.kind text := by
    rw [find?_of_leaf? hold, coerce_text]
  constructor
  · intro h
    cases hv : coerceText old.kind text with
    | ok v =>
      have hvalue : coerce (.text text) (some old) = .ok v := by rw [coerce_text, hv]
      obtain ⟨c', hc'⟩ := overlay_of_leaf? hold hvalue
      rw [h] at hc'
      contradiction
    | error e' =>
      have herror := overlay_of_coerce_error (hfind.trans hv)
      rw [h] at herror
      exact congrArg Except.error (Except.error.inj herror).symm
  · intro h
    exact overlay_of_coerce_error (hfind.trans h)

theorem alike_refl (hc : c.Proper) : c.tree.Alike c.tree :=
  (Path.node_alike_iff hc.entries hc.entries).mpr fun _ => rfl

/-- What two overlays of different slots leave is alike only if neither changes its slot. -/
theorem self_of_alike {p q : Proposal} (hc : c.Proper) (hslot : slot ≠ .key []) (hne : slot ≠ other)
    (h₁ : c.overlay slot p = .ok c₁) (h₂ : c.overlay other q = .ok c₂)
    (htree : c₁.tree.Alike c₂.tree) (hglobals : c₁.globals.Perm c₂.globals) :
    ∃ v, c.leaf? slot = some v ∧ coerce p (some v) = .ok v := by
  obtain ⟨v, hv, hleaf₁⟩ := overlay_leaf? h₁
  obtain ⟨w, -, hleaf₂⟩ := overlay_leaf? h₂
  have hsame : c₁.leaf? slot = c₂.leaf? slot :=
    leaf?_congr (bare?_eq_of_alike (proper_overlay hc h₁) (proper_overlay hc h₂) htree hglobals slot)
  rw [hleaf₁ slot hslot, if_pos rfl, hleaf₂ slot hslot, if_neg hne] at hsame
  rw [← hsame] at hv
  exact ⟨v, hsame.symm, hv⟩

/-- **One text at two slots comes to the same exactly if they are one slot, or both fail alike, or neither is
changed by the text.** -/
theorem agree_overlay_iff (hc : c.Proper) (hold : c.leaf? slot = some old) (hslot : slot ≠ .key [])
    (hother : other ≠ .key []) :
    (Attempt.ofResult c (c.overlay slot (.text text))).Agree (Attempt.ofResult c (c.overlay other (.text text))) ↔
      slot = other ∨
      (∃ e, coerce (.text text) (c.find? slot) = .error e ∧ coerce (.text text) (c.find? other) = .error e) ∨
      ∃ v w, c.find? slot = some v ∧ coerce (.text text) (some v) = .ok v ∧
        c.find? other = some w ∧ coerce (.text text) (some w) = .ok w := by
  constructor
  · intro hagree
    by_cases hne : slot = other
    · exact Or.inl hne
    right
    cases h₁ : c.overlay slot (.text text) with
    | error e =>
      left
      have hcoerce := (overlay_error_iff_of_leaf? hold).mp h₁
      refine ⟨e, by rw [find?_of_leaf? hold, coerce_text, hcoerce], ?_⟩
      cases h₂ : c.overlay other (.text text) with
      | ok c₂ => simp [h₁, h₂, Attempt.Agree, Attempt.ofResult] at hagree
      | error e' =>
        rw [h₁, h₂, Attempt.agree_error_iff] at hagree
        subst hagree
        -- The first slot holds a leaf, so its error is one of coercion and not of a path that is blocked.
        refine (overlay_error h₂).resolve_right ?_
        rintro ⟨segment, rfl⟩
        have hkind := coerceText_error hcoerce
        contradiction
    | ok c₁ =>
      right
      cases h₂ : c.overlay other (.text text) with
      | error e => simp [h₁, h₂, Attempt.Agree, Attempt.ofResult] at hagree
      | ok c₂ =>
        rw [h₁, h₂, Attempt.agree_ok_iff] at hagree
        obtain ⟨htree, hglobals⟩ := hagree
        have hc₁ := proper_overlay hc h₁
        have hc₂ := proper_overlay hc h₂
        have htree' : c₂.tree.Alike c₁.tree := by
          rw [Path.node_alike_iff hc₂.entries hc₁.entries]
          intro path
          exact ((Path.node_alike_iff hc₁.entries hc₂.entries).mp htree path).symm
        obtain ⟨v, hv, hvself⟩ := self_of_alike hc hslot hne h₁ h₂ htree hglobals
        obtain ⟨w, hw, hwself⟩ := self_of_alike hc hother (Ne.symm hne) h₂ h₁ htree' hglobals.symm
        exact ⟨v, w, find?_of_leaf? hv, hvself, find?_of_leaf? hw, hwself⟩
  · rintro (rfl | ⟨e, he, he'⟩ | ⟨v, w, hv, hvself, hw, hwself⟩)
    · cases h : c.overlay slot (.text text) with
      | error e => exact Attempt.agree_error_iff.mpr rfl
      | ok c' => exact Attempt.agree_ok_iff.mpr ⟨alike_refl (proper_overlay hc h), List.Perm.refl _⟩
    · rw [overlay_of_coerce_error he, overlay_of_coerce_error he', Attempt.agree_error_iff]
    · rw [overlay_self hv hvself, overlay_self hw hwself, Attempt.agree_ok_iff]
      exact ⟨alike_refl hc, List.Perm.refl _⟩

/-! ## One name -/

theorem isSome_of_lookup_recursiveKeys (hc : c.Proper) (h : c.tree.recursiveKeys.lookup name = some path) :
    (c.find? (.key path)).isSome :=
  (Path.mem_all_iff c.tree.entries hc.entries path).mp (mem_of_lookup_pathTable h).1

theorem overlays_singleton (hfront : front ≠ "") (hname : name ≠ "") (hglobal : Arguments.globalName? name = none)
    (hpath : c.tree.recursiveKeys.lookup name = some path) (text : String) :
    c.overlays ⟨[(front ++ name, text)], false⟩ { front := some front } = [⟨.key path, text⟩] := by
  have hforce : c.envPrefix { front := some front } = front := rfl
  unfold overlays
  rw [hforce, if_neg hfront]
  unfold prefixedOverlays prefixedVars
  simp [Environment.afterPrefix?_append, hname, EnvOptions.excludes, prefixedTarget_of_sensitive, hglobal, hpath]

theorem outcome_updateFromEnvironment (hfront : front ≠ "") (hname : name ≠ "")
    (hglobal : Arguments.globalName? name = none) (hpath : c.tree.recursiveKeys.lookup name = some path) :
    (c.updateFromEnvironment ⟨[(front ++ name, text)], false⟩ { front := some front }).outcome =
      (Attempt.ofResult c (c.overlay (.key path) (.text text))).outcome := by
  unfold updateFromEnvironment
  rw [overlays_singleton hfront hname hglobal hpath, Attempt.each_singleton, applyOverlay_eq]
  show (((Attempt.ofResult c (c.overlay (.key path) (.text text))).andThen _).outcome) = _
  cases c.overlay (.key path) (.text text) <;> rfl

theorem outcome_updateFromArguments {processArguments : List String} (hslot : c.slot? name = some slot) :
    ((c.given [(name, [text])]).updateFromArguments processArguments).outcome =
      (Attempt.ofResult c (c.overlay slot (.text text))).outcome := by
  rw [updateFromArguments_given, Attempt.each_singleton]
  unfold given
  rw [overlaySwitch_withProvenance, hslot]
  show (Attempt.ofResult _ ((c.overlay slot (.text text)).map _)).outcome = _
  cases c.overlay slot (.text text) <;> rfl

/-- **A variable and a switch of one name do the same to a value exactly if the path that the table records is the one
that the switch spells**, or else if both fail with one error or neither changes anything. -/
theorem updateFromEnvironment_agree_iff {processArguments : List String} (hc : c.Proper) (hfront : front ≠ "")
    (hname : ¬ ServesPipeline name) (hglobal : Arguments.globalName? name = none)
    (hpath : c.tree.recursiveKeys.lookup name = some path) (hleaf : ∀ v ∈ c.find? (.key path), v.isNode = false) :
    (c.updateFromEnvironment ⟨[(front ++ name, text)], false⟩ { front := some front }).Agree
        ((c.given [(name, [text])]).updateFromArguments processArguments) ↔
      path = c.switchPath name ∨
      (∃ e, coerce (.text text) (c.find? (.key path)) = .error e ∧
        coerce (.text text) (c.find? (.key (c.switchPath name))) = .error e) ∨
      ∃ v w, c.find? (.key path) = some v ∧ coerce (.text text) (some v) = .ok v ∧
        c.find? (.key (c.switchPath name)) = some w ∧ coerce (.text text) (some w) = .ok w := by
  have hslot : c.slot? name = some (.key (c.switchPath name)) := slot?_eq_key_iff.mpr ⟨hname, hglobal, rfl⟩
  have hnonempty : name ≠ "" := fun he => hname (Or.inl he)
  obtain ⟨old, hold⟩ := Option.isSome_iff_exists.mp (isSome_of_lookup_recursiveKeys hc hpath)
  have hleaf' : c.leaf? (.key path) = some old := Path.leaf?_eq_some_iff.mpr ⟨hold, hleaf old hold⟩
  have hroot : Slot.key path ≠ .key [] :=
    fun he => Path.ne_nil_of_mem_all (mem_of_lookup_pathTable hpath).1 (Slot.key.inj he)
  rw [Attempt.agree_congr (outcome_updateFromEnvironment hfront hnonempty hglobal hpath)
    (outcome_updateFromArguments hslot), agree_overlay_iff hc hleaf' hroot (slot?_ne_root hslot), Slot.key.injEq]

/-- A nested key, whose path its name spells. -/
theorem updateFromEnvironment_agree_nested :
    ∃ c₁ c₂,
      (ofEntries {} [("a", .mapping [("b", .str "old")])]).updateFromEnvironment ⟨[("P_a.b", "new")], false⟩
        { front := some "P_" } = c₁ ∧
      ((ofEntries {} [("a", .mapping [("b", .str "old")])]).given [("a.b", ["new"])]).updateFromArguments [] = c₂ ∧
      c₁.error = none ∧ c₁.config.tree.entries = [("a", .mapping [("b", .str "new")])] ∧ c₁.Agree c₂ := by
  have hentries : ProperEntries [("a", .node .loose {} [("b", .str "old")])] := by
    simp [ProperEntries, Value.Proper, Value.Everywhere, Value.EverywhereEntries, Ordered.keys, Ordered.Distinct]
  have hproper : (ofEntries {} [("a", .mapping [("b", .str "old")])]).Proper := ⟨hentries, ProperEntries.nil⟩
  have hpath : (ofEntries {} [("a", .mapping [("b", .str "old")])]).tree.recursiveKeys.lookup "a.b" =
      some ["a", "b"] := rfl
  have hleaf : ∀ v ∈ (ofEntries {} [("a", .mapping [("b", .str "old")])]).find? (.key ["a", "b"]),
      v.isNode = false := by
    intro v hv
    obtain rfl : Value.str "old" = v := Option.some.inj hv
    rfl
  have hname : ¬ ServesPipeline "a.b" := by simp [ServesPipeline, Arguments.fileSwitch, Arguments.prefixSwitch]
  refine ⟨_, _, rfl, rfl, rfl, rfl, ?_⟩
  exact (updateFromEnvironment_agree_iff hproper (by simp) hname rfl hpath hleaf).mpr (Or.inl rfl)

/-- A key with a dot in it is found by a variable, while a switch spells the path of another one. -/
theorem updateFromEnvironment_not_agree_dotted :
    ∃ c₁ c₂,
      (ofEntries {} [("a.b", .str "old")]).tree.recursiveKeys.lookup "a.b" = some ["a.b"] ∧
      (ofEntries {} [("a.b", .str "old")]).find? (.key ["a.b"]) = some (.str "old") ∧
      (ofEntries {} [("a.b", .str "old")]).updateFromEnvironment ⟨[("P_a.b", "new")], false⟩
        { front := some "P_" } = ⟨c₁, none⟩ ∧
      ((ofEntries {} [("a.b", .str "old")]).given [("a.b", ["new"])]).updateFromArguments [] = ⟨c₂, none⟩ ∧
      c₁.tree.entries = [("a.b", .str "new")] ∧
      c₂.tree.entries = [("a.b", .str "old"), ("a", .mapping [("b", .str "new")])] ∧
      ¬ (⟨c₁, none⟩ : Attempt).Agree ⟨c₂, none⟩ := by
  refine ⟨_, _, rfl, rfl, rfl, rfl, rfl, rfl, ?_⟩
  rintro ⟨-, hsame⟩
  obtain ⟨⟨hlength, -⟩, -⟩ := hsame rfl
  contradiction

end Config

end LayeredConfig
