import LayeredConfig.Proofs.Alike
import LayeredConfig.Proofs.Created

/-!
# Overlays in another order

Overlays of different slots commute (`overlay_comm`). Where one of the slots lies above the other, they fail
in both orders: the one below finds a leaf in its way, or the one above finds a mapping. Configurations are
compared by what stands at each slot (`Config.Matches`), since the order of entries does depend on the order
of overlays. What commutes two by two can be put in any order (`Attempt.each_perm`).
-/

namespace LayeredConfig

/-- The first slot is a key and leads to the second. -/
def Slot.Above : Slot → Slot → Prop
  | .key above, .key path => above <+: path ∧ above ≠ path
  | _, _ => False

instance : DecidableRel Slot.Above
  | .key above, .key path => inferInstanceAs (Decidable (above <+: path ∧ above ≠ path))
  | .key _, .global _ | .global _, .key _ | .global _, .global _ => inferInstanceAs (Decidable False)

namespace Config

variable {c c' d d' c₁ c₂ : Config} {slot other above : Slot} {proposal : Proposal} {v old : Value}

/-- What stands at a slot, a mapping of the tree without its entries. -/
def bare? (c : Config) : Slot → Option Value
  | .key path => Path.bare? path c.tree.entries
  | .global name => c.globals.lookup name

theorem coerce_find? (c : Config) (slot : Slot) (proposal : Proposal) :
    coerce proposal (c.find? slot) = coerce proposal (c.bare? slot) := by
  cases slot with
  | global name => rfl
  | key path =>
    show coerce proposal (Path.find? path c.tree.entries) = coerce proposal (Path.bare? path c.tree.entries)
    rw [Path.bare?]
    cases Path.find? path c.tree.entries with
    | none => rfl
    | some v =>
      have hkind : v.kind = v.bare.kind := by cases v <;> rfl
      have helement : elementKind v = elementKind v.bare := by cases v <;> rfl
      exact coerce_congr hkind helement proposal

theorem isSome_find? (c : Config) (slot : Slot) : (c.find? slot).isSome = (c.bare? slot).isSome := by
  cases slot with
  | global name => rfl
  | key path => simp [find?, bare?, Path.bare?]

theorem leaf?_congr (h : c.bare? slot = d.bare? slot) : c.leaf? slot = d.leaf? slot := by
  cases slot with
  | global name => exact h
  | key path =>
    simp only [bare?] at h
    simp only [leaf?, Path.leaf?_eq_filter, h]

theorem leaf?_of_bare? (h : c.bare? slot = some v) (hv : v.isNode = false) : c.leaf? slot = some v := by
  cases slot with
  | global name => exact h
  | key path =>
    simp only [bare?] at h
    simp [leaf?, Path.leaf?_eq_filter, h, hv]

theorem isNode_of_leaf?_eq_none (h : c.leaf? slot = none) : ∀ v ∈ c.bare? slot, v.isNode = true := by
  intro v hv
  by_contra hnode
  rw [leaf?_of_bare? hv (by simpa using hnode)] at h
  contradiction

/-! ## One overlay -/

/-- **What stands at a slot after an overlay.** -/
theorem overlay_bare? (h : c.overlay slot proposal = .ok c') :
    ∃ v, coerce proposal (c.bare? slot) = .ok v ∧ v.isNode = false ∧ ∀ other ≠ .key [], c'.bare? other =
      if other = slot then some v else
        (c.bare? other).or (if other.Above slot then some (.node c.tree.scope {} []) else none) := by
  obtain ⟨v, hv, hput⟩ := overlay_eq_ok_iff.mp h
  have hflat := flat_coerce hv
  refine ⟨v, coerce_find? c slot proposal ▸ hv, hflat.isNode, ?_⟩
  intro other hother
  cases slot with
  | global name =>
    obtain rfl := Except.ok.inj hput
    cases other with
    | key path => simp [bare?, setGlobal, Slot.Above]
    | global other =>
      show (Ordered.insert name v c.globals).lookup other = _
      rw [Ordered.lookup_insert]
      simp [bare?, Slot.Above]
  | key path =>
    obtain ⟨written, hwritten, rfl⟩ := (put_key_eq_ok_iff hflat).mp hput
    cases other with
    | global name => simp [bare?, Slot.Above]
    | key other =>
      have hne : other ≠ [] := by simpa using hother
      have hbare := Path.bare?_write hflat.isNode (Path.children?_eq_none (isNode_of_overlay hv)) hwritten hne
      by_cases hpath : other = path
      · simpa [bare?, hpath] using hbare
      · simpa [bare?, hpath, Slot.Above] using hbare

/-- An overlay is possible if its proposal can be coerced and nothing above its slot is a leaf. -/
theorem exists_overlay_iff : (∃ c', c.overlay slot proposal = .ok c') ↔
    (∃ v, coerce proposal (c.bare? slot) = .ok v) ∧ ∀ above : Slot, above.Above slot → c.leaf? above = none := by
  rw [← coerce_find?]
  cases slot with
  | global name =>
    constructor
    · rintro ⟨c', h⟩
      obtain ⟨v, hv, -⟩ := overlay_eq_ok_iff.mp h
      refine ⟨⟨v, hv⟩, ?_⟩
      intro above habove
      exact absurd habove (by cases above <;> exact id)
    · rintro ⟨⟨v, hv⟩, -⟩
      exact ⟨_, overlay_eq_ok_iff.mpr ⟨v, hv, rfl⟩⟩
  | key path =>
    have hkeys : ∀ v, (∀ above : Slot, above.Above (.key path) → c.leaf? above = none) ↔
        ∃ written, Path.write c.tree.scope v path c.tree.entries = .ok written := by
      intro v
      rw [Path.exists_write_iff]
      constructor
      · intro h above hstarts hne
        exact h (.key above) ⟨hstarts, hne⟩
      · intro h above habove
        cases above with
        | global name => exact absurd habove id
        | key above => exact h above habove.1 habove.2
    constructor
    · rintro ⟨c', h⟩
      obtain ⟨v, hv, hput⟩ := overlay_eq_ok_iff.mp h
      obtain ⟨written, hwritten, -⟩ := (put_key_eq_ok_iff (flat_coerce hv)).mp hput
      exact ⟨⟨v, hv⟩, (hkeys v).mpr ⟨written, hwritten⟩⟩
    · rintro ⟨⟨v, hv⟩, habove⟩
      obtain ⟨written, hwritten⟩ := (hkeys v).mp habove
      exact ⟨_, overlay_eq_ok_iff.mpr ⟨v, hv, (put_key_eq_ok_iff (flat_coerce hv)).mpr ⟨written, hwritten, rfl⟩⟩⟩

theorem leaf?_above (h : c.leaf? slot = some v) (habove : above.Above slot) : c.leaf? above = none := by
  cases above with
  | global name => exact absurd habove (by cases slot <;> exact id)
  | key above =>
    cases slot with
    | global name => exact absurd habove id
    | key path =>
      by_contra hsome
      obtain ⟨w, hw⟩ := Option.ne_none_iff_exists'.mp hsome
      exact (Path.apart_of_leaf? hw h habove.2).1 habove.1

theorem overlay_of_leaf? (h : c.leaf? slot = some old)
    (hv : coerce proposal (some old) = .ok v) : ∃ c', c.overlay slot proposal = .ok c' := by
  rw [exists_overlay_iff, ← coerce_find?, find?_of_leaf? h]
  exact ⟨⟨v, hv⟩, fun above => leaf?_above h⟩

/-! ## Two overlays -/

/-- Configurations in which the same stands at every slot. -/
structure Matches (c d : Config) : Prop where
  scope : d.tree.scope = c.tree.scope
  slots : ∀ slot, d.bare? slot = c.bare? slot

theorem Matches.refl (c : Config) : Matches c c := ⟨rfl, fun _ => rfl⟩

theorem Matches.symm (h : Matches c d) : Matches d c := ⟨h.scope.symm, fun slot => (h.slots slot).symm⟩

theorem Matches.trans (h : Matches c c') (h' : Matches c' d) : Matches c d :=
  ⟨h'.scope.trans h.scope, fun slot => (h'.slots slot).trans (h.slots slot)⟩

theorem Matches.leaf? (h : Matches c d) (slot : Slot) : d.leaf? slot = c.leaf? slot := leaf?_congr (h.slots slot)

theorem Matches.alike (h : Matches c d) (hc : c.Proper) (hd : d.Proper) :
    c.tree.Alike d.tree ∧ c.globals.Perm d.globals := by
  constructor
  · apply (Path.node_alike_iff hc.entries hd.entries).mpr
    intro path
    exact (h.slots (.key path)).symm
  · apply Ordered.perm_of_lookup hc.globals.1 hd.globals.1
    intro name
    exact (h.slots (.global name)).symm

theorem bare?_root (c : Config) : c.bare? (.key []) = none := rfl

theorem Matches.overlay (h : Matches c d) (hok : c.overlay slot proposal = .ok c') :
    ∃ d', d.overlay slot proposal = .ok d' ∧ Matches c' d' := by
  have hposs := exists_overlay_iff.mp ⟨c', hok⟩
  have hd : ∃ d', d.overlay slot proposal = .ok d' := by
    rw [exists_overlay_iff, h.slots slot]
    refine ⟨hposs.1, ?_⟩
    intro above habove
    rw [h.leaf? above]
    exact hposs.2 above habove
  obtain ⟨d', hd'⟩ := hd
  obtain ⟨v, hv, -, hc'⟩ := overlay_bare? hok
  obtain ⟨w, hw, -, hafter⟩ := overlay_bare? hd'
  rw [h.slots slot, hv] at hw
  obtain rfl := Except.ok.inj hw
  refine ⟨d', hd', ?_, ?_⟩
  · rw [(extends_overlay hd').scope, (extends_overlay hok).scope, h.scope]
  · intro other
    by_cases hroot : other = .key []
    · rw [hroot, bare?_root, bare?_root]
    · rw [hafter other hroot, hc' other hroot, h.slots other, h.scope]

theorem leaf?_root (c : Config) : c.leaf? (.key []) = none := rfl

/-- Of two slots that are overlaid one after the other, neither is above the other. -/
theorem not_above_of_overlay {s t : Slot} {p q : Proposal} (hs : s ≠ .key []) (ht : t ≠ .key []) (hne : s ≠ t)
    (h₁ : c.overlay s p = .ok c₁) (h₂ : c₁.overlay t q = .ok c₂) : ¬ s.Above t ∧ ¬ t.Above s := by
  obtain ⟨v, -, hvleaf, hafter⟩ := overlay_bare? h₁
  have hposs₁ := (exists_overlay_iff.mp ⟨c₁, h₁⟩).2
  obtain ⟨⟨w, hw⟩, hposs₂⟩ := exists_overlay_iff.mp ⟨c₂, h₂⟩
  constructor
  · intro habove
    have hself : c₁.bare? s = some v := by rw [hafter s hs, if_pos rfl]
    have hleaf := leaf?_of_bare? hself hvleaf
    rw [hposs₂ s habove] at hleaf
    contradiction
  · intro habove
    -- The first overlay leaves a mapping above its slot, over which nothing can be coerced.
    have hnode : ∃ u, c₁.bare? t = some u ∧ u.isNode = true := by
      rw [hafter t ht, if_neg (Ne.symm hne), if_pos habove]
      cases hbare : c.bare? t with
      | none => exact ⟨_, rfl, rfl⟩
      | some u => exact ⟨u, rfl, isNode_of_leaf?_eq_none (hposs₁ t habove) u hbare⟩
    obtain ⟨u, hu, hnode⟩ := hnode
    rw [hu] at hw
    rw [isNode_of_coerce hw] at hnode
    contradiction

section apart

variable {s t : Slot} {p : Proposal} (ht : t ≠ .key []) (hne : t ≠ s) (hts : ¬ t.Above s)
  (h : c.overlay s p = .ok c₁)

include ht hne hts h

theorem bare?_overlay_of_apart : c₁.bare? t = c.bare? t := by
  obtain ⟨v, -, -, hafter⟩ := overlay_bare? h
  rw [hafter t ht, if_neg hne, if_neg hts, Option.or_none]

/-- An overlay does not change what can be overlaid beside its slot. -/
theorem exists_overlay_iff_of_apart (hst : ¬ s.Above t) (q : Proposal) :
    (∃ c', c₁.overlay t q = .ok c') ↔ ∃ c', c.overlay t q = .ok c' := by
  rw [exists_overlay_iff, exists_overlay_iff, bare?_overlay_of_apart ht hne hts h]
  obtain ⟨v, -, hleaf⟩ := overlay_leaf? h
  apply and_congr_right'
  apply forall₂_congr
  intro above habove
  by_cases hroot : above = .key []
  · rw [hroot, leaf?_root, leaf?_root]
  · have hother : above ≠ s := fun he => hst (he ▸ habove)
    rw [hleaf above hroot, if_neg hother]

end apart

/-- **Overlays of different slots commute.** -/
theorem overlay_comm {s t : Slot} {p q : Proposal} (hs : s ≠ .key []) (ht : t ≠ .key []) (hne : s ≠ t)
    (h₁ : c.overlay s p = .ok c₁) (h₂ : c₁.overlay t q = .ok c₂) :
    ∃ d₁ d₂, c.overlay t q = .ok d₁ ∧ d₁.overlay s p = .ok d₂ ∧ Matches c₂ d₂ ∧
      c₁.bare? t = c.bare? t ∧ d₁.bare? s = c.bare? s := by
  obtain ⟨hst, hts⟩ := not_above_of_overlay hs ht hne h₁ h₂
  have ht₁ := bare?_overlay_of_apart ht (Ne.symm hne) hts h₁
  obtain ⟨d₁, hd₁⟩ := (exists_overlay_iff_of_apart ht (Ne.symm hne) hts h₁ hst q).mp ⟨c₂, h₂⟩
  have hs₁ := bare?_overlay_of_apart hs hne hst hd₁
  obtain ⟨d₂, hd₂⟩ := (exists_overlay_iff_of_apart hs hne hst hd₁ hts p).mpr ⟨c₁, h₁⟩
  refine ⟨d₁, d₂, hd₁, hd₂, ?_, ht₁, hs₁⟩
  obtain ⟨v, hv, -, hafter₁⟩ := overlay_bare? h₁
  obtain ⟨w, hw, -, hafter₂⟩ := overlay_bare? h₂
  obtain ⟨w', hw', -, hbefore₁⟩ := overlay_bare? hd₁
  obtain ⟨v', hv', -, hbefore₂⟩ := overlay_bare? hd₂
  obtain rfl : w = w' := by simpa [← ht₁, hw] using hw'
  obtain rfl : v = v' := by simpa [hs₁, hv] using hv'
  have hscope₁ : c₁.tree.scope = c.tree.scope := (extends_overlay h₁).scope
  have hscope₂ : d₁.tree.scope = c.tree.scope := (extends_overlay hd₁).scope
  constructor
  · rw [(extends_overlay hd₂).scope, hscope₂, (extends_overlay h₂).scope, hscope₁]
  · intro other
    by_cases hroot : other = .key []
    · rw [hroot, bare?_root, bare?_root]
    rw [hbefore₂ other hroot, hbefore₁ other hroot, hafter₂ other hroot, hafter₁ other hroot, hscope₁, hscope₂]
    by_cases hos : other = s
    · simp [hos, hne, hst]
    by_cases hot : other = t
    · simp [hot, Ne.symm hne, hts]
    -- Both make the same new mappings, whichever comes first.
    simp only [hos, hot, if_false, Option.or_assoc]
    by_cases has : other.Above s <;> by_cases hat : other.Above t <;> simp [has, hat]

def overlayAt (c : Config) (slot : Option Slot) (proposal : Proposal) : Except Error Config :=
  slot.elim (.ok c) (c.overlay · proposal)

theorem Matches.overlayAt {slot : Option Slot} {proposal : Proposal} (h : Matches c d)
    (hok : c.overlayAt slot proposal = .ok c') : ∃ d', d.overlayAt slot proposal = .ok d' ∧ Matches c' d' := by
  cases slot with
  | none =>
    obtain rfl := Except.ok.inj hok
    exact ⟨d, rfl, h⟩
  | some slot => exact h.overlay hok

theorem overlayAt_comm {s t : Option Slot} {p q : Proposal} (hs : s ≠ some (.key [])) (ht : t ≠ some (.key []))
    (hne : ∀ slot, s = some slot → t ≠ some slot) (h₁ : c.overlayAt s p = .ok c₁) (h₂ : c₁.overlayAt t q = .ok c₂) :
    ∃ d₁ d₂, c.overlayAt t q = .ok d₁ ∧ d₁.overlayAt s p = .ok d₂ ∧ Matches c₂ d₂ ∧
      (∀ slot, t = some slot → c₁.bare? slot = c.bare? slot) ∧
      ∀ slot, s = some slot → d₁.bare? slot = c.bare? slot := by
  cases s with
  | none =>
    obtain rfl := Except.ok.inj h₁
    exact ⟨c₂, c₂, h₂, rfl, Matches.refl c₂, fun _ _ => rfl, by simp⟩
  | some s =>
    cases t with
    | none =>
      obtain rfl := Except.ok.inj h₂
      exact ⟨c, c₁, rfl, h₁, Matches.refl c₁, by simp, fun _ _ => rfl⟩
    | some t =>
      have hst : s ≠ t := fun he => hne s rfl (he ▸ rfl)
      obtain ⟨d₁, d₂, hd₁, hd₂, hmatch, hbefore, hkept⟩ :=
        overlay_comm (by simpa using hs) (by simpa using ht) hst h₁ h₂
      refine ⟨d₁, d₂, hd₁, hd₂, hmatch, ?_, ?_⟩
      · intro slot hslot
        exact Option.some.inj hslot ▸ hbefore
      · intro slot hslot
        exact Option.some.inj hslot ▸ hkept

theorem provenance_overlayAt {slot : Option Slot} {proposal : Proposal} (h : c.overlayAt slot proposal = .ok c') :
    c'.provenance = c.provenance ∧ c'.tree.scope = c.tree.scope := by
  cases slot with
  | none =>
    obtain rfl := Except.ok.inj h
    exact ⟨rfl, rfl⟩
  | some slot => exact ⟨provenance_overlay h, (extends_overlay h).scope⟩

theorem overlayAt_withProvenance (c : Config) (f : Provenance → Provenance) (slot : Option Slot)
    (proposal : Proposal) :
    (c.withProvenance f).overlayAt slot proposal = (c.overlayAt slot proposal).map (·.withProvenance f) := by
  cases slot with
  | none => rfl
  | some slot => exact overlay_withProvenance c f slot proposal

theorem matches_withProvenance (c : Config) (f : Provenance → Provenance) : Matches c (c.withProvenance f) :=
  ⟨rfl, fun slot => by cases slot <;> rfl⟩

end Config

/-! ## Runs in another order -/

namespace Attempt

variable {ι : Type} {step : Config → ι → Except Error Config} {R : Config → Config → Prop} {c c' d : Config}

section

variable (step) (hcongr : ∀ {c c' d item}, R c d → step c item = .ok c' → ∃ d', step d item = .ok d' ∧ R c' d')

include hcongr

theorem each_congr {items : List ι} (hR : R c d) (h : each step c items = ⟨c', none⟩) :
    ∃ d', each step d items = ⟨d', none⟩ ∧ R c' d' := by
  induction items generalizing c d with
  | nil =>
    obtain rfl := congrArg Attempt.config h
    exact ⟨d, rfl, hR⟩
  | cons item rest ih =>
    obtain ⟨middle, hstep, hrest⟩ := each_cons_eq_iff.mp h
    obtain ⟨middle', hstep', hmiddle⟩ := hcongr hR hstep
    obtain ⟨d', hd', hlast⟩ := ih hmiddle hrest
    exact ⟨d', each_cons_eq_iff.mpr ⟨middle', hstep', hd'⟩, hlast⟩

/-- **Where steps commute up to a relation, runs in any order agree up to it.** -/
theorem each_perm {Free : ι → ι → Prop} (hrefl : ∀ c, R c c) (htrans : ∀ {c c' d}, R c c' → R c' d → R c d)
    (hsymm : ∀ {x y}, Free x y → Free y x)
    (hswap : ∀ {c c₁ c₂ x y}, Free x y → step c x = .ok c₁ → step c₁ y = .ok c₂ →
      ∃ d₁ d₂, step c y = .ok d₁ ∧ step d₁ x = .ok d₂ ∧ R c₂ d₂)
    {xs ys : List ι} (hperm : xs.Perm ys) (hfree : xs.Pairwise Free) (h : each step c xs = ⟨c', none⟩) :
    ∃ d', each step c ys = ⟨d', none⟩ ∧ R c' d' := by
  induction hperm generalizing c c' with
  | nil => exact ⟨c', h, hrefl c'⟩
  | cons x hperm ih =>
    obtain ⟨middle, hstep, hrest⟩ := each_cons_eq_iff.mp h
    obtain ⟨d', hd', hlast⟩ := ih (List.pairwise_cons.mp hfree).2 hrest
    exact ⟨d', each_cons_eq_iff.mpr ⟨middle, hstep, hd'⟩, hlast⟩
  | swap x y rest =>
    obtain ⟨c₁, h₁, hrest⟩ := each_cons_eq_iff.mp h
    obtain ⟨c₂, h₂, hrest⟩ := each_cons_eq_iff.mp hrest
    have hyx : Free y x := (List.pairwise_cons.mp hfree).1 x List.mem_cons_self
    obtain ⟨d₁, d₂, hd₁, hd₂, hR⟩ := hswap hyx h₁ h₂
    obtain ⟨d', hd', hlast⟩ := each_congr step hcongr hR hrest
    exact ⟨d', each_cons_eq_iff.mpr ⟨d₁, hd₁, each_cons_eq_iff.mpr ⟨d₂, hd₂, hd'⟩⟩, hlast⟩
  | trans hxy hyz ihxy ihyz =>
    obtain ⟨middle, hmiddle, hfirst⟩ := ihxy hfree h
    obtain ⟨d', hd', hlast⟩ := ihyz (hfree.perm hxy hsymm) hmiddle
    exact ⟨d', hd', htrans hfirst hlast⟩

end

end Attempt

end LayeredConfig
