import LayeredConfig.Proofs.Precedence
import LayeredConfig.Proofs.Reorder
import LayeredConfig.Proofs.Variables

/-!
# The order of variables

Where variables are looked up by name, their order does not show. Where they are scanned for a prefix, the
overlays come in another order, but no two of them are about the same slot, since variables with different
names go to different slots (`overlays_perm`). So an environment can be enumerated in any order
(`updateFromEnvironment_perm`).
-/

namespace LayeredConfig

variable {env env₁ env₂ : Environment} {options : EnvOptions} {name front : String}

namespace Environment

theorem folded_congr (hcase : env₁.caseInsensitive = env₂.caseInsensitive) : env₁.folded = env₂.folded := by
  funext name
  rw [folded, folded, hcase]

theorem sameName_congr (hcase : env₁.caseInsensitive = env₂.caseInsensitive) : env₁.sameName = env₂.sameName := by
  funext a b
  rw [sameName, sameName, hcase]

theorem Distinct.perm (hd : env₁.Distinct) (hcase : env₁.caseInsensitive = env₂.caseInsensitive)
    (hperm : env₁.vars.Perm env₂.vars) : env₂.Distinct := by
  unfold Distinct at hd ⊢
  rw [← folded_congr hcase]
  exact (hperm.map _).nodup hd

theorem var?_perm (hd : env₁.Distinct) (hcase : env₁.caseInsensitive = env₂.caseInsensitive)
    (hperm : env₁.vars.Perm env₂.vars) : env₁.var? = env₂.var? := by
  funext name
  apply Option.ext
  intro text
  rw [var?_eq_some_iff hd, var?_eq_some_iff (hd.perm hcase hperm), folded_congr hcase]
  simp only [hperm.mem_iff]

end Environment

namespace Config

variable {c c' d c₁ c₂ : Config} {x y o : Overlay} {target : Target}

/-! ## The overlays -/

theorem prefixedVars_perm (hcase : env₁.caseInsensitive = env₂.caseInsensitive) (hperm : env₁.vars.Perm env₂.vars)
    (hscan : options.only = none) (front : String) :
    (prefixedVars env₁ options front).Perm (prefixedVars env₂ options front) := by
  have hafter : env₁.afterPrefix? = env₂.afterPrefix? := by
    funext front name
    rw [Environment.afterPrefix?, Environment.afterPrefix?, hcase]
  unfold prefixedVars
  rw [hscan, hafter]
  exact hperm.filterMap _

theorem folded_of_prefixedOverlay {rest text : String} (hafter : env.afterPrefix? front name = some rest)
    (ho : (if rest = "" ∨ options.excludes env name ∨ options.excludes env rest then none
      else some (⟨c.prefixedTarget env rest, text⟩ : Overlay)) = some o) :
    env.folded name = env.folded (front ++ o.target.slot.name) := by
  split at ho
  · contradiction
  obtain rfl := Option.some.inj ho
  obtain ⟨hname, -⟩ := prefixedTarget_name c env rest
  rw [Environment.folded_of_afterPrefix? hafter, Environment.folded_append, Environment.folded_append, hname]

/-- Of the variables that are scanned no two are overlaid at the same slot. -/
theorem pairwise_prefixedOverlays (hd : env.Distinct) (hscan : options.only = none) (c : Config) (front : String) :
    (c.prefixedOverlays env options front).Pairwise fun x y => x.target.slot ≠ y.target.slot := by
  unfold prefixedOverlays prefixedVars
  rw [hscan, List.pairwise_filterMap, List.pairwise_filterMap]
  refine (List.pairwise_map.mp hd).imp ?_
  intro entry other hne found hfound found' hfound' x hx y hy hslot
  obtain ⟨rest, hrest, rfl⟩ := Option.map_eq_some_iff.mp hfound
  obtain ⟨rest', hrest', rfl⟩ := Option.map_eq_some_iff.mp hfound'
  rw [folded_of_prefixedOverlay hrest hx, folded_of_prefixedOverlay hrest' hy, hslot] at hne
  contradiction

/-- **In another order an environment has the same overlays**, and where these come in another order, they are all
about different slots. -/
theorem overlays_perm (hd : env₁.Distinct) (hcase : env₁.caseInsensitive = env₂.caseInsensitive)
    (hperm : env₁.vars.Perm env₂.vars) (c : Config) (options : EnvOptions) :
    c.overlays env₁ options = c.overlays env₂ options ∨
      (c.overlays env₁ options).Perm (c.overlays env₂ options) ∧
        (c.overlays env₁ options).Pairwise fun x y => x.target.slot ≠ y.target.slot := by
  have hvar := Environment.var?_perm hd hcase hperm
  have hsame := Environment.sameName_congr hcase
  have hexcludes : options.excludes env₁ = options.excludes env₂ := by
    funext name
    rw [EnvOptions.excludes, EnvOptions.excludes, hsame]
  have htarget : c.prefixedTarget env₁ = c.prefixedTarget env₂ := by
    funext rest
    rw [prefixedTarget, prefixedTarget, hsame]
  unfold overlays
  dsimp only
  split
  · left
    rw [plainOverlays, plainOverlays, hvar, hexcludes]
  · cases hscan : options.only with
    | some names =>
      left
      rw [prefixedOverlays, prefixedOverlays, prefixedVars, prefixedVars, hscan, hvar, hexcludes, htarget]
    | none =>
      refine Or.inr ⟨?_, pairwise_prefixedOverlays hd hscan c _⟩
      rw [prefixedOverlays, prefixedOverlays, hexcludes, htarget]
      exact (prefixedVars_perm hcase hperm hscan _).filterMap _

/-! ## Applying them -/

theorem applyOverlay_eq_overlayAt (c : Config) (o : Overlay) :
    c.applyOverlay o = c.overlayAt (c.reached? o.target) (.text o.text) := applyOverlay_eq c o

theorem reached?_congr (h : d.bare? target.slot = c.bare? target.slot) : d.reached? target = c.reached? target := by
  cases target with
  | key path => rfl
  | global name create =>
    have hlookup : d.globals.lookup name = c.globals.lookup name := h
    rw [reached?, reached?, hlookup]

theorem Matches.applyOverlay (h : Matches c d) (hok : c.applyOverlay o = .ok c') :
    ∃ d', d.applyOverlay o = .ok d' ∧ Matches c' d' := by
  rw [applyOverlay_eq_overlayAt] at hok ⊢
  rw [reached?_congr (h.slots o.target.slot)]
  exact h.overlayAt hok

/-- An overlay does not change whether another is applied. -/
theorem reached?_applyOverlay (hne : target.slot ≠ o.target.slot) (hok : c.applyOverlay o = .ok c') :
    c'.reached? target = c.reached? target := by
  cases target with
  | key path => rfl
  | global name create =>
    apply reached?_congr
    rw [applyOverlay_eq] at hok
    cases hslot : c.reached? o.target with
    | none =>
      rw [hslot] at hok
      exact Except.ok.inj hok ▸ rfl
    | some slot =>
      rw [hslot] at hok
      obtain rfl := reached?_eq_some hslot
      exact bare?_overlay_of_apart (by simp [Target.slot]) hne id hok

theorem applyOverlay_comm (hx : x.target.slot ≠ .key []) (hy : y.target.slot ≠ .key [])
    (hne : x.target.slot ≠ y.target.slot) (h₁ : c.applyOverlay x = .ok c₁) (h₂ : c₁.applyOverlay y = .ok c₂) :
    ∃ d₁ d₂, c.applyOverlay y = .ok d₁ ∧ d₁.applyOverlay x = .ok d₂ ∧ Matches c₂ d₂ := by
  have hroot (o : Overlay) (ho : o.target.slot ≠ .key []) : c.reached? o.target ≠ some (.key []) :=
    fun h => ho (reached?_eq_some h).symm
  have hslots : ∀ slot, c.reached? x.target = some slot → c.reached? y.target ≠ some slot :=
    fun slot hs ht => hne ((reached?_eq_some hs).symm.trans (reached?_eq_some ht))
  have hfirst := h₁
  rw [applyOverlay_eq_overlayAt] at h₁ h₂
  rw [reached?_applyOverlay hne.symm hfirst] at h₂
  obtain ⟨d₁, d₂, hd₁, hd₂, hmatch, -⟩ := overlayAt_comm (hroot x hx) (hroot y hy) hslots h₁ h₂
  have hsecond : c.applyOverlay y = .ok d₁ := (applyOverlay_eq_overlayAt c y).trans hd₁
  refine ⟨d₁, d₂, hsecond, ?_, hmatch⟩
  rw [applyOverlay_eq_overlayAt, reached?_applyOverlay hne hsecond]
  exact hd₂

theorem proper_applyOverlay (hc : c.Proper) (hok : c.applyOverlay o = .ok c') : c'.Proper := by
  rw [applyOverlay_eq] at hok
  cases hslot : c.reached? o.target with
  | none =>
    rw [hslot] at hok
    exact Except.ok.inj hok ▸ hc
  | some slot =>
    rw [hslot] at hok
    exact proper_overlay hc hok

theorem proper_applyOverlays {overlays : List Overlay} (hc : c.Proper)
    (h : Attempt.each applyOverlay c overlays = ⟨c', none⟩) : c'.Proper := by
  refine Attempt.each_induction (motive := fun _ after => after.Proper) hc ?_ h
  intro done o rest before after _ hbefore hstep
  exact proper_applyOverlay hbefore hstep

/-- Overlays of different slots can be applied in any order. -/
theorem matches_of_overlays_perm {overlays others : List Overlay} (hperm : overlays.Perm others)
    (hroot : ∀ o ∈ overlays, o.target.slot ≠ .key [])
    (hpairwise : overlays.Pairwise fun x y => x.target.slot ≠ y.target.slot)
    (h : Attempt.each applyOverlay c overlays = ⟨c', none⟩) :
    ∃ d', Attempt.each applyOverlay c others = ⟨d', none⟩ ∧ Matches c' d' := by
  have hfree : overlays.Pairwise fun x y =>
      (x.target.slot ≠ .key [] ∧ y.target.slot ≠ .key []) ∧ x.target.slot ≠ y.target.slot := by
    refine hpairwise.imp_of_mem ?_
    intro x y hx hy hne
    exact ⟨⟨hroot x hx, hroot y hy⟩, hne⟩
  refine Attempt.each_perm applyOverlay Matches.applyOverlay Matches.refl Matches.trans ?_ ?_ hperm hfree h
  · rintro x y ⟨⟨hx, hy⟩, hne⟩
    exact ⟨⟨hy, hx⟩, hne.symm⟩
  · rintro c c₁ c₂ x y ⟨⟨hx, hy⟩, hne⟩ h₁ h₂
    exact applyOverlay_comm hx hy hne h₁ h₂

theorem matches_of_perm (hd : env₁.Distinct) (hcase : env₁.caseInsensitive = env₂.caseInsensitive)
    (hperm : env₁.vars.Perm env₂.vars) (h : Attempt.each applyOverlay c (c.overlays env₁ options) = ⟨c', none⟩) :
    ∃ d', Attempt.each applyOverlay c (c.overlays env₂ options) = ⟨d', none⟩ ∧ Matches c' d' := by
  rcases overlays_perm hd hcase hperm c options with hsame | ⟨hperm, hpairwise⟩
  · exact ⟨c', hsame ▸ h, Matches.refl c'⟩
  · exact matches_of_overlays_perm hperm (fun o ho => (var?_of_mem_overlays hd ho).2) hpairwise h

theorem updateFromEnvironment_eq_iff : c.updateFromEnvironment env options = ⟨c', none⟩ ↔
    ∃ overlaid, Attempt.each applyOverlay c (c.overlays env options) = ⟨overlaid, none⟩ ∧
      c' = overlaid.withProvenance ({ · with envPrefix := some (c.envPrefix options) }) := by
  unfold updateFromEnvironment
  rw [Attempt.andThen_eq_iff]
  simp only [Attempt.mk.injEq, and_true, eq_comm (a := c')]

/-- **The order of variables does not matter**: with its variables in another order an environment is overlaid with
success as well, and leaves the same tree, globals and provenance. -/
theorem updateFromEnvironment_perm (hc : c.Proper) (hd : env₁.Distinct)
    (hcase : env₁.caseInsensitive = env₂.caseInsensitive) (hperm : env₁.vars.Perm env₂.vars) :
    ((∃ c', c.updateFromEnvironment env₁ options = ⟨c', none⟩) ↔
      ∃ d', c.updateFromEnvironment env₂ options = ⟨d', none⟩) ∧
      ∀ c' d', c.updateFromEnvironment env₁ options = ⟨c', none⟩ →
        c.updateFromEnvironment env₂ options = ⟨d', none⟩ →
        c'.tree.Alike d'.tree ∧ c'.globals.Perm d'.globals ∧ c'.provenance = d'.provenance := by
  simp only [updateFromEnvironment_eq_iff]
  refine ⟨⟨?_, ?_⟩, ?_⟩
  · rintro ⟨-, overlaid, h, -⟩
    obtain ⟨other, hother, -⟩ := matches_of_perm hd hcase hperm h
    exact ⟨_, other, hother, rfl⟩
  · rintro ⟨-, overlaid, h, -⟩
    obtain ⟨other, hother, -⟩ := matches_of_perm (hd.perm hcase hperm) hcase.symm hperm.symm h
    exact ⟨_, other, hother, rfl⟩
  · rintro c' d' ⟨overlaid, h, rfl⟩ ⟨other, hother, rfl⟩
    obtain ⟨last, hlast, hmatch⟩ := matches_of_perm hd hcase hperm h
    obtain rfl := congrArg Attempt.config (hother.symm.trans hlast)
    obtain ⟨htree, hglobals⟩ := hmatch.alike (proper_applyOverlays hc h) (proper_applyOverlays hc hother)
    refine ⟨htree, hglobals, ?_⟩
    have hprovenance := (provenance_applyOverlays h).trans (provenance_applyOverlays hother).symm
    exact congrArg (fun p : Provenance => { p with envPrefix := some (c.envPrefix options) }) hprovenance

/-- A known key, whose case does not matter, and two new ones. -/
theorem updateFromEnvironment_two_new_keys :
    ∃ c' d',
      (ofEntries {} [("a", .mapping [("b", .str "old")])]).updateFromEnvironment
        ⟨[("p_A.B", "x"), ("P_c", "y"), ("P_d", "z")], true⟩ { front := some "P_" } = ⟨c', none⟩ ∧
      (ofEntries {} [("a", .mapping [("b", .str "old")])]).updateFromEnvironment
        ⟨[("P_d", "z"), ("p_A.B", "x"), ("P_c", "y")], true⟩ { front := some "P_" } = ⟨d', none⟩ ∧
      c'.tree.entries = [("a", .mapping [("b", .str "x")]), ("c", .str "y"), ("d", .str "z")] ∧
      d'.tree.entries = [("a", .mapping [("b", .str "x")]), ("d", .str "z"), ("c", .str "y")] ∧
      c'.tree.Alike d'.tree ∧ c'.provenance = d'.provenance := by
  have hentries : ProperEntries [("a", .node .loose {} [("b", .str "old")])] := by
    simp [ProperEntries, Value.Proper, Value.Everywhere, Value.EverywhereEntries, Ordered.keys, Ordered.Distinct]
  have hproper : (ofEntries {} [("a", .mapping [("b", .str "old")])]).Proper := ⟨hentries, ProperEntries.nil⟩
  have hdistinct : (⟨[("p_A.B", "x"), ("P_c", "y"), ("P_d", "z")], true⟩ : Environment).Distinct := by decide
  have hperm : (⟨[("p_A.B", "x"), ("P_c", "y"), ("P_d", "z")], true⟩ : Environment).vars.Perm
      (⟨[("P_d", "z"), ("p_A.B", "x"), ("P_c", "y")], true⟩ : Environment).vars := by decide
  have hrun : (ofEntries {} [("a", .mapping [("b", .str "old")])]).updateFromEnvironment
      ⟨[("p_A.B", "x"), ("P_c", "y"), ("P_d", "z")], true⟩ { front := some "P_" } =
      ⟨⟨⟨⟨.loose, {}⟩, { envPrefix := some "P_" },
        [("a", .mapping [("b", .str "x")]), ("c", .str "y"), ("d", .str "z")]⟩, []⟩, none⟩ := rfl
  have hrun' : (ofEntries {} [("a", .mapping [("b", .str "old")])]).updateFromEnvironment
      ⟨[("P_d", "z"), ("p_A.B", "x"), ("P_c", "y")], true⟩ { front := some "P_" } =
      ⟨⟨⟨⟨.loose, {}⟩, { envPrefix := some "P_" },
        [("a", .mapping [("b", .str "x")]), ("d", .str "z"), ("c", .str "y")]⟩, []⟩, none⟩ := rfl
  obtain ⟨-, hsame⟩ := updateFromEnvironment_perm hproper hdistinct (by rfl) hperm
  obtain ⟨htree, -, hprovenance⟩ := hsame _ _ hrun hrun'
  exact ⟨_, _, hrun, hrun', rfl, rfl, htree, hprovenance⟩

end Config

end LayeredConfig
