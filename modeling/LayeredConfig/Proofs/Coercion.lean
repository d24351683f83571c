import LayeredConfig.Coercion
import LayeredConfig.Proofs.Everywhere
import LayeredConfig.Proofs.Path
import LayeredConfig.Proofs.Run

/-!
# What coercion gives

A coerced value holds no mapping, nor does the value it replaces. It depends on the existing value only by
its kind and the kind of its elements (`coerce_congr`), and a proposal over what it gave gives it again
(`coerce_self`). Texts that overlay one another leave both kinds alone, except that they make strings of
nulls and of the elements of lists (`FromText`); so a proposal that follows finds what it would have found
without them, unless it is `Swayed`. Several values over a list keep the kind of its elements (`coerce_list_iff`).
-/

namespace LayeredConfig

namespace Value

variable {scope : Scope} {v : Value}

/-- There is no mapping at any depth. -/
def Flat : Value → Prop := Everywhere (fun _ => True) (fun _ => False)

theorem Flat.isNode (h : v.Flat) : v.isNode = false := by
  cases v with
  | node scope provenance entries => exact absurd h.1 id
  | _ => rfl

mutual

theorem Flat.proper : (v : Value) → v.Flat → v.Proper
  | .node _ _ _, h => absurd h.1 id
  | .list items, h => Flat.properItems items h
  | .null, h | .bool _, h | .int _, h | .float _, h | .str _, h => h

theorem Flat.properItems : (items : List Value) → EverywhereItems (fun _ => True) (fun _ => False) items →
    EverywhereItems (fun _ => True) List.Nodup items
  | [], _ => trivial
  | v :: rest, h => ⟨Flat.proper v h.1, Flat.properItems rest h.2⟩

end

mutual

/-- Only mappings have a scope. -/
theorem Flat.rebind (scope : Scope) : (v : Value) → v.Flat → v.rebind scope = v
  | .node _ _ _, h => absurd h.1 id
  | .list items, h => congrArg Value.list (Flat.rebindList scope items h)
  | .null, _ | .bool _, _ | .int _, _ | .float _, _ | .str _, _ => rfl

theorem Flat.rebindList (scope : Scope) : (items : List Value) →
    EverywhereItems (fun _ => True) (fun _ => False) items → Value.rebindList scope items = items
  | [], _ => rfl
  | v :: rest, h => congrArg₂ List.cons (Flat.rebind scope v h.1) (Flat.rebindList scope rest h.2)

end

end Value

/-! ## What is coerced -/

section

variable {proposal : Proposal} {existing : Option Value} {old v w : Value} {kind : Kind} {text : String}
  {items : List String}

/-- The kind of the value that a text becomes over a value of a kind. -/
def Kind.overlaid : Kind → Kind
  | .null => .str
  | kind => kind

theorem Kind.overlaid_overlaid (kind : Kind) : kind.overlaid.overlaid = kind.overlaid := by cases kind <;> rfl

/-- What a text becomes over a value of a kind. -/
theorem coerceText_cases (h : coerceText kind text = .ok v) :
    (∃ b, kind = .bool ∧ v = .bool b) ∨ (∃ i, kind = .int ∧ v = .int i) ∨ (∃ x, kind = .float ∧ v = .float x) ∨
      (kind = .str ∨ kind = .null) ∧ v = .str text ∨ kind = .list ∧ v = .list [.str text] := by
  unfold coerceText at h
  split at h
  · exact Or.inl ⟨_, rfl, (Except.ok.inj h).symm⟩
  · split at h
    · exact Or.inr (Or.inl ⟨_, rfl, (Except.ok.inj h).symm⟩)
    · cases h
  · split at h
    · exact Or.inr (Or.inr (Or.inl ⟨_, rfl, (Except.ok.inj h).symm⟩))
    · cases h
  · exact Or.inr (Or.inr (Or.inr (Or.inl ⟨Or.inl rfl, (Except.ok.inj h).symm⟩)))
  · exact Or.inr (Or.inr (Or.inr (Or.inl ⟨Or.inr rfl, (Except.ok.inj h).symm⟩)))
  · exact Or.inr (Or.inr (Or.inr (Or.inr ⟨rfl, (Except.ok.inj h).symm⟩)))
  · cases h

theorem flat_coerceText (h : coerceText kind text = .ok v) : v.Flat := by
  rcases coerceText_cases h with ⟨b, -, rfl⟩ | ⟨i, -, rfl⟩ | ⟨x, -, rfl⟩ | ⟨-, rfl⟩ | ⟨-, rfl⟩ <;>
    simp [Value.Flat, Value.Everywhere, Value.EverywhereItems]

theorem kind_coerceText (h : coerceText kind text = .ok v) : v.kind = kind.overlaid := by
  rcases coerceText_cases h with ⟨b, rfl, rfl⟩ | ⟨i, rfl, rfl⟩ | ⟨x, rfl, rfl⟩ | ⟨rfl | rfl, rfl⟩ | ⟨rfl, rfl⟩ <;>
    rfl

theorem elementKind_coerceText (h : coerceText kind text = .ok v) :
    elementKind v = if v.kind = .list then .str else v.kind := by
  rcases coerceText_cases h with ⟨b, -, rfl⟩ | ⟨i, -, rfl⟩ | ⟨x, -, rfl⟩ | ⟨-, rfl⟩ | ⟨-, rfl⟩ <;> rfl

theorem mapM_coerceText_str (items : List String) : items.mapM (coerceText .str) = .ok (items.map .str) := by
  rw [mapM_eq_ok_iff, List.forall₂_map_right_iff]
  exact List.forall₂_same.mpr fun _ _ => rfl

/-- A switch without values over a value that is neither null nor a number is the text `true`. -/
theorem coerceFlag_cases (kind : Kind) :
    coerceFlag kind = coerceText kind "true" ∨ ∃ v : Value, coerceFlag kind = .ok v ∧ v.Flat := by
  cases kind with
  | null => exact Or.inr ⟨.bool true, rfl, trivial⟩
  | int => exact Or.inr ⟨.int 1, rfl, trivial⟩
  | float => exact Or.inr ⟨.float .one, rfl, trivial⟩
  | _ => exact Or.inl rfl

theorem flat_list_of_mapM {values : List Value} (h : items.mapM (coerceText kind) = .ok values) :
    (Value.list values).Flat := by
  rw [Value.Flat, Value.everywhere_list]
  exact forall_mem_of_mapM (fun _ _ => flat_coerceText) h

theorem coerce_text (text : String) (old : Value) : coerce (.text text) (some old) = coerceText old.kind text := by
  rw [coerce]

theorem coerce_flag (old : Value) : coerce .flag (some old) = coerceFlag old.kind := by rw [coerce]

theorem coerce_many (items : List String) (hold : old.isNode = false) :
    coerce (.many items) (some old) = (items.mapM (coerceText (elementKind old))).map .list := by
  rw [coerce, hold]
  rfl

/-- No mapping is coerced to anything. -/
theorem isNode_of_coerce (h : coerce proposal (some old) = .ok v) : old.isNode = false := by
  cases old with
  | node => cases proposal <;> simp [coerce, coerceText, coerceFlag, Value.isNode, Value.kind] at h
  | _ => rfl

/-- **Coercion gives no mappings.** -/
theorem flat_coerce (h : coerce proposal existing = .ok v) : v.Flat := by
  cases existing with
  | none =>
    obtain rfl := Except.ok.inj h
    cases proposal with
    | many items => exact flat_list_of_mapM (mapM_coerceText_str items)
    | _ => exact trivial
  | some old =>
    cases proposal with
    | text s =>
      rw [coerce_text] at h
      exact flat_coerceText h
    | flag =>
      rw [coerce_flag] at h
      rcases coerceFlag_cases old.kind with hflag | ⟨w, hflag, hw⟩
      · exact flat_coerceText (hflag ▸ h)
      · rw [hflag] at h
        exact Except.ok.inj h ▸ hw
    | many items =>
      rw [coerce_many items (isNode_of_coerce h)] at h
      obtain ⟨values, hvalues, rfl⟩ := map_eq_ok_iff.mp h
      exact flat_list_of_mapM hvalues

/-! ## Texts over texts -/

theorem coerce_congr (hkind : v.kind = w.kind) (helement : elementKind v = elementKind w) (proposal : Proposal) :
    coerce proposal (some v) = coerce proposal (some w) := by
  cases proposal <;> simp [coerce, Value.isNode, hkind, helement]

/-- What texts that overlay an existing value one after another can leave. -/
structure FromText (existing : Option Value) (v : Value) : Prop where
  kind : v.kind = existing.elim .str fun old => old.kind.overlaid
  element : elementKind v = if v.kind = .list then .str else v.kind

theorem fromText_of_coerce (h : coerce (.text text) existing = .ok v) : FromText existing v := by
  cases existing with
  | none =>
    obtain rfl := Except.ok.inj h
    exact ⟨rfl, rfl⟩
  | some old =>
    rw [coerce_text] at h
    exact ⟨kind_coerceText h, elementKind_coerceText h⟩

theorem FromText.trans (hv : FromText existing v) (h : coerce (.text text) (some v) = .ok w) :
    FromText existing w := by
  rw [coerce_text] at h
  refine ⟨?_, elementKind_coerceText h⟩
  rw [kind_coerceText h, hv.kind]
  cases existing with
  | none => rfl
  | some old => exact Kind.overlaid_overlaid old.kind

/-- What other texts leave is coerced over alike. -/
theorem FromText.coerce_eq (hv : FromText existing v) (hw : FromText existing w) (proposal : Proposal) :
    coerce proposal (some v) = coerce proposal (some w) := by
  have hkind : v.kind = w.kind := hv.kind.trans hw.kind.symm
  exact coerce_congr hkind (by rw [hv.element, hw.element, hkind]) proposal

/-- Whether a proposal over an existing value gives another value once a text has overlaid that value: a
switch without values, which is `true` over nothing or null but the text `true` over a string, and several
values over a list that does not begin with a string. -/
def Proposal.Swayed : Proposal → Option Value → Prop
  | .flag, none | .flag, some .null => True
  | .many _, some (.list (first :: _)) => first.kind ≠ .str ∧ first.kind ≠ .null
  | _, _ => False

theorem Proposal.ofValues_ne_many_nil (values : List String) : ofValues values ≠ .many [] := by
  unfold ofValues
  split
  · simp
  · simp
  · next hnil _ => exact fun h => hnil (Proposal.many.inj h)

theorem coerceText_str (text : String) : coerceText .str text = .ok (.str text) := by rw [coerceText]

/-- Over null a text is what it is over a string. -/
theorem coerceText_null : coerceText .null = coerceText .str :=
  funext fun text => by rw [coerceText, coerceText]

/-- Null is overlaid as if there were nothing. -/
theorem coerce_null (proposal : Proposal) : coerce proposal (some .null) = .ok proposal.untyped := by
  cases proposal with
  | text s => rw [coerce_text, Value.kind, coerceText_null, coerceText_str, Proposal.untyped]
  | flag => rw [coerce_flag, Value.kind, coerceFlag, Proposal.untyped]
  | many items =>
    rw [coerce_many items rfl, elementKind, Value.kind, coerceText_null, mapM_coerceText_str]
    · rfl
    · simp
    · simp

theorem FromText.flag_eq (hw : FromText none w) : coerce .flag (some w) = .ok (.str "true") := by
  have hkind : w.kind = .str := hw.kind
  rw [coerce_flag, hkind, coerceFlag, coerceText_str]
  all_goals simp

/-- A list that a text has overlaid holds strings, whatever it held before. -/
theorem FromText.many_eq {old : List Value} (hw : FromText (some (.list old)) w) (items : List String) :
    coerce (.many items) (some w) = .ok (.list (items.map .str)) := by
  have hkind : w.kind = .list := hw.kind
  have helement : elementKind w = .str := by rw [hw.element, hkind]; rfl
  rw [coerce_many items (by rw [Value.isNode, hkind]; rfl), helement, mapM_coerceText_str]
  rfl

/-- Over a string, only a switch without values gives another value than over nothing. -/
theorem FromText.untyped_eq_iff (hw : FromText none w) (h : coerce proposal (some w) = .ok v) :
    proposal.untyped = v ↔ proposal ≠ .flag := by
  have hkind : w.kind = .str := hw.kind
  have helement : elementKind w = .str := by rw [hw.element, hkind]; rfl
  cases proposal with
  | text s =>
    rw [coerce_text, hkind, coerceText_str] at h
    simp [← Except.ok.inj h, Proposal.untyped]
  | flag =>
    rw [hw.flag_eq] at h
    simp [← Except.ok.inj h, Proposal.untyped]
  | many items =>
    rw [coerce_many items (by rw [Value.isNode, hkind]; rfl), helement, mapM_coerceText_str] at h
    simp [← Except.ok.inj h, Proposal.untyped]

theorem Kind.overlaid_eq_self {kind : Kind} (h : kind ≠ .null) : kind.overlaid = kind := by
  cases kind with
  | null => exact absurd rfl h
  | _ => rfl

theorem Kind.overlaid_eq_str_iff {kind : Kind} : kind.overlaid = .str ↔ ¬ (kind ≠ .str ∧ kind ≠ .null) := by
  cases kind <;> simp [Kind.overlaid]

theorem FromText.list_eq_iff {first given swayed : Value} {rest : List Value}
    (hw : FromText (some (.list (first :: rest))) w) (hitems : items ≠ [])
    (hgiven : coerce (.many items) (some (.list (first :: rest))) = .ok given)
    (hswayed : coerce (.many items) (some w) = .ok swayed) :
    given = swayed ↔ ¬ (first.kind ≠ .str ∧ first.kind ≠ .null) := by
  rw [hw.many_eq] at hswayed
  rw [coerce_many items rfl, elementKind] at hgiven
  obtain ⟨values, hvalues, rfl⟩ := map_eq_ok_iff.mp hgiven
  obtain rfl := Except.ok.inj hswayed
  obtain ⟨item, items, rfl⟩ := List.exists_cons_of_ne_nil hitems
  obtain ⟨value, values, hvalue, -, rfl⟩ := List.forall₂_cons_left_iff.mp (mapM_eq_ok_iff.mp hvalues)
  constructor
  · intro heq
    have hstr : value = .str item := (List.cons.inj (Value.list.inj heq)).1
    rw [← Kind.overlaid_eq_str_iff, ← kind_coerceText hvalue, hstr]
    rfl
  · intro hfirst
    have hcoercion : coerceText first.kind = coerceText .str := by
      rw [← Kind.overlaid_eq_str_iff] at hfirst
      cases hk : first.kind <;> simp [hk, Kind.overlaid] at hfirst <;> simp [coerceText_null]
    rw [hcoercion, mapM_coerceText_str] at hvalues
    rw [Except.ok.inj hvalues]

/-- **Texts below a proposal change what it gives exactly if they sway it.** -/
theorem FromText.coerce_eq_iff {values : List String} {given swayed : Value} (hw : FromText existing w)
    (hgiven : coerce (.ofValues values) existing = .ok given)
    (hswayed : coerce (.ofValues values) (some w) = .ok swayed) :
    given = swayed ↔ ¬ (Proposal.ofValues values).Swayed existing := by
  have hnonempty := Proposal.ofValues_ne_many_nil values
  generalize Proposal.ofValues values = proposal at *
  -- Where a text leaves the kinds alone, both are coerced alike.
  have halike {old : Value} (hold : FromText (some old) w) (hkind : old.kind = old.kind.overlaid)
      (helement : elementKind old = if old.kind = .list then .str else old.kind)
      (hgiven : coerce proposal (some old) = .ok given) : given = swayed := by
    have hsame : old.kind = w.kind := hkind.trans hold.kind.symm
    rw [coerce_congr hsame (by rw [helement, hold.element, hsame]), hswayed] at hgiven
    exact (Except.ok.inj hgiven).symm
  rcases existing with _ | old
  · rw [Except.ok.inj hgiven.symm, hw.untyped_eq_iff hswayed]
    cases proposal <;> simp [Proposal.Swayed]
  cases old with
  | null =>
    have hw' : FromText none w := ⟨hw.kind, hw.element⟩
    rw [coerce_null] at hgiven
    rw [Except.ok.inj hgiven.symm, hw'.untyped_eq_iff hswayed]
    cases proposal <;> simp [Proposal.Swayed]
  | list items =>
    cases items with
    | nil =>
      refine iff_of_true (halike hw rfl rfl hgiven) ?_
      cases proposal <;> exact id
    | cons first rest =>
      have hkind : w.kind = (Value.list (first :: rest)).kind := hw.kind
      cases proposal with
      | text s =>
        rw [coerce_text] at hgiven hswayed
        rw [hkind, hgiven] at hswayed
        exact iff_of_true (Except.ok.inj hswayed) id
      | flag =>
        rw [coerce_flag] at hgiven hswayed
        rw [hkind, hgiven] at hswayed
        exact iff_of_true (Except.ok.inj hswayed) id
      | many items => exact hw.list_eq_iff (fun he => hnonempty (he ▸ rfl)) hgiven hswayed
  | node => exact absurd (isNode_of_coerce hgiven) (by simp [Value.isNode, Value.kind])
  | _ =>
    refine iff_of_true (halike hw rfl rfl hgiven) ?_
    cases proposal <;> exact id

/-- What a proposal that is swayed gives over the value that is there, and what over that which a text has made of it:
`true` and the text `true`, or items of the kind of the first one and texts. -/
inductive Proposal.SwayedTo : Proposal → Option Value → Value → Value → Prop
  | over_nothing : SwayedTo .flag none (.bool true) (.str "true")
  | over_null : SwayedTo .flag (some .null) (.bool true) (.str "true")
  | over_list {items : List String} {first : Value} {rest values : List Value} :
      values.length = items.length → (∀ v ∈ values, v.kind = first.kind) →
      SwayedTo (.many items) (some (.list (first :: rest))) (.list values) (.list (items.map .str))

theorem FromText.swayedTo {given swayed : Value} (hw : FromText existing w) (hsways : proposal.Swayed existing)
    (hgiven : coerce proposal existing = .ok given) (hswayed : coerce proposal (some w) = .ok swayed) :
    proposal.SwayedTo existing given swayed := by
  unfold Proposal.Swayed at hsways
  split at hsways
  · rw [hw.flag_eq] at hswayed
    rw [← Except.ok.inj hgiven, ← Except.ok.inj hswayed]
    exact .over_nothing
  · have hw' : FromText none w := ⟨hw.kind, hw.element⟩
    rw [hw'.flag_eq] at hswayed
    rw [coerce_null] at hgiven
    rw [← Except.ok.inj hgiven, ← Except.ok.inj hswayed]
    exact .over_null
  · next items first rest =>
    rw [hw.many_eq] at hswayed
    rw [coerce_many items rfl, elementKind] at hgiven
    obtain ⟨values, hvalues, rfl⟩ := map_eq_ok_iff.mp hgiven
    obtain rfl := Except.ok.inj hswayed
    refine .over_list (mapM_eq_ok_iff.mp hvalues).length_eq.symm (forall_mem_of_mapM (fun _ _ hitem => ?_) hvalues)
    rw [kind_coerceText hitem, Kind.overlaid_eq_self hsways.2]
  · contradiction

/-! ## Proposals over what they gave -/

theorem coerceText_overlaid (kind : Kind) : coerceText kind.overlaid = coerceText kind := by
  cases kind with
  | null => exact coerceText_null.symm
  | _ => rfl

theorem coerceText_self (h : coerceText kind text = .ok v) : coerceText v.kind text = .ok v := by
  rw [kind_coerceText h, coerceText_overlaid, h]

theorem coerceFlag_self (h : coerceFlag kind = .ok v) : coerceFlag v.kind = .ok v := by
  cases kind with
  | node => contradiction
  | _ => exact Except.ok.inj h ▸ rfl

theorem coerceMany_self {values : List Value} (h : items.mapM (coerceText kind) = .ok values) :
    items.mapM (coerceText (elementKind (.list values))) = .ok values := by
  cases items with
  | nil => exact h
  | cons item items =>
    obtain ⟨value, rest, hvalue, -, rfl⟩ := List.forall₂_cons_left_iff.mp (mapM_eq_ok_iff.mp h)
    rw [elementKind, kind_coerceText hvalue, coerceText_overlaid, h]

/-- **A proposal over what it gave gives it again.** -/
theorem coerce_self (h : coerce proposal existing = .ok v) : coerce proposal (some v) = .ok v := by
  cases existing with
  | none =>
    obtain rfl := Except.ok.inj h
    cases proposal with
    | text s => rfl
    | flag => rfl
    | many items =>
      rw [Proposal.untyped, coerce_many items rfl, coerceMany_self (mapM_coerceText_str items)]
      rfl
  | some old =>
    cases proposal with
    | text s =>
      rw [coerce_text] at h ⊢
      exact coerceText_self h
    | flag =>
      rw [coerce_flag] at h ⊢
      exact coerceFlag_self h
    | many items =>
      rw [coerce_many items (isNode_of_coerce h)] at h
      obtain ⟨values, hvalues, rfl⟩ := map_eq_ok_iff.mp h
      rw [coerce_many items rfl, coerceMany_self hvalues]
      rfl

/-- A text that could be coerced over a value can be coerced over what a proposal has made of it. -/
theorem exists_text_of_coerce (h : coerce proposal existing = .ok v)
    (htext : ∀ old ∈ existing, ∃ w, coerce (.text text) (some old) = .ok w) :
    ∃ w, coerce (.text text) (some v) = .ok w := by
  simp only [coerce_text] at htext ⊢
  cases existing with
  | none =>
    obtain rfl := Except.ok.inj h
    cases proposal <;> exact ⟨_, rfl⟩
  | some old =>
    obtain ⟨w, hw⟩ := htext old rfl
    cases proposal with
    | text s =>
      rw [coerce_text] at h
      rw [kind_coerceText h, coerceText_overlaid]
      exact ⟨w, hw⟩
    | flag =>
      rw [coerce_flag] at h
      generalize old.kind = kind at h hw
      cases kind with
      | int | float =>
        obtain rfl := Except.ok.inj h
        exact ⟨w, hw⟩
      | node => contradiction
      | _ =>
        obtain rfl := Except.ok.inj h
        exact ⟨_, rfl⟩
    | many items =>
      rw [coerce_many items (isNode_of_coerce h)] at h
      obtain ⟨values, -, rfl⟩ := map_eq_ok_iff.mp h
      exact ⟨_, rfl⟩

/-- A text over what texts have left is what it is over the value below them. -/
theorem FromText.text_eq (hw : FromText (some v) w) (text : String) :
    coerce (.text text) (some w) = coerce (.text text) (some v) := by
  have hkind : w.kind = v.kind.overlaid := hw.kind
  rw [coerce_text, coerce_text, hkind, coerceText_overlaid]

/-- A proposal that has been coerced can be coerced over what texts make of the value it gave. -/
theorem FromText.exists_coerce (hw : FromText (some v) w) (h : coerce proposal (some v) = .ok v) :
    ∃ u, coerce proposal (some w) = .ok u := by
  cases proposal with
  | text s =>
    rw [coerce_text] at h ⊢
    have hkind : w.kind = v.kind := hw.kind.trans (kind_coerceText h).symm
    exact ⟨v, hkind ▸ h⟩
  | flag =>
    have hkind : w.kind = v.kind := by
      cases v with
      | null => simp [coerce, coerceFlag, Value.kind] at h
      | _ => exact hw.kind
    rw [coerce_flag] at h ⊢
    exact ⟨v, hkind ▸ h⟩
  | many items =>
    rw [coerce_many items (isNode_of_coerce h)] at h
    obtain ⟨values, -, rfl⟩ := map_eq_ok_iff.mp h
    have hkind : w.kind = .list := hw.kind
    have helement : elementKind w = .str := by rw [hw.element, hkind]; rfl
    rw [coerce_many items (by rw [Value.isNode, hkind]; rfl), helement, mapM_coerceText_str]
    exact ⟨_, rfl⟩

end

/-! ## Texts over the elements of a list -/

/-- What a text becomes over values of a kind: a value of that kind again, whichever of them it overlays. -/
def BecomesOver (kind : Kind) (text : String) (v : Value) : Prop :=
  v.kind = kind ∧ ∀ old : Value, old.kind = kind → coerce (.text text) (some old) = .ok v

section

variable {kind : Kind} {old v : Value} {items : List Value} {values : List String} {text : String}

theorem becomesOver_iff (hnull : kind ≠ .null) (hold : old.kind = kind) :
    BecomesOver kind text v ↔ coerceText kind text = .ok v := by
  constructor
  · rintro ⟨-, h⟩
    rw [← h old hold, coerce_text, hold]
  · intro h
    refine ⟨by rw [kind_coerceText h, Kind.overlaid_eq_self hnull], fun other hother => ?_⟩
    rw [coerce_text, hother, h]

/-- Several values are coerced one by one, as elements; a single one becomes a string. -/
theorem coerce_ofValues_list {first : Value} {rest : List Value} (hvalues : values ≠ []) :
    coerce (.ofValues values) (some (.list (first :: rest))) =
      (values.mapM (coerceText (if values.length = 1 then .str else first.kind))).map .list := by
  match values with
  | [text] => rfl
  | text :: next :: more =>
    have hseveral : Proposal.ofValues (text :: next :: more) = .many (text :: next :: more) := rfl
    rw [hseveral, coerce_many _ rfl, elementKind, if_neg (by simp)]

/-- **What values become over a list whose elements are of one kind.** Several values can be overlaid exactly if each of
them can be over an element, and give a list of what they become there, one for each and in their order. The kind that
a list is coerced by says nothing of its elements, so a single value can always be overlaid, and is a string in a list
of one. -/
theorem coerce_list_iff (hnull : kind ≠ .null) (hitems : items ≠ []) (hkinds : ∀ item ∈ items, item.kind = kind)
    (hvalues : values ≠ []) :
    (values.length ≠ 1 ∨ kind = .str → ∀ v, coerce (.ofValues values) (some (.list items)) = .ok v ↔
      ∃ results, v = .list results ∧ List.Forall₂ (BecomesOver kind) values results) ∧
    ∀ text, values = [text] → coerce (.ofValues values) (some (.list items)) = .ok (.list [.str text]) := by
  obtain ⟨first, rest, rfl⟩ := List.exists_cons_of_ne_nil hitems
  have hfirst : first.kind = kind := hkinds first List.mem_cons_self
  constructor
  · intro hkept v
    have helements : (if values.length = 1 then .str else first.kind) = kind := by
      split
      · next hone => exact (hkept.resolve_left fun hne => hne hone).symm
      · exact hfirst
    have hbecomes : BecomesOver kind = fun text v => coerceText kind text = .ok v :=
      funext₂ fun _ _ => propext (becomesOver_iff hnull hfirst)
    rw [coerce_ofValues_list hvalues, helements, map_eq_ok_iff, hbecomes]
    refine exists_congr fun results => ?_
    rw [mapM_eq_ok_iff, and_comm, eq_comm]
  · rintro text rfl
    rfl

/-- Numbers between blanks over numbers, and a single number, which does not become one. -/
theorem coerce_list_iff_numbers :
    coerce (.ofValues ["5", " 6 ", "-7"]) (some (.list [.int 1, .int 2])) = .ok (.list [.int 5, .int 6, .int (-7)]) ∧
    List.Forall₂ (BecomesOver .int) ["5", " 6 ", "-7"] [.int 5, .int 6, .int (-7)] ∧
    coerce (.ofValues ["5"]) (some (.list [.int 1, .int 2])) = .ok (.list [.str "5"]) := by
  have hkinds : ∀ item ∈ [Value.int 1, .int 2], item.kind = .int := by simp [Value.kind]
  have hthree : coerce (.ofValues ["5", " 6 ", "-7"]) (some (.list [.int 1, .int 2])) =
      .ok (.list [.int 5, .int 6, .int (-7)]) := rfl
  obtain ⟨results, hresults, hforall⟩ :=
    ((coerce_list_iff (by simp) (by simp) hkinds (by simp)).1 (Or.inl (by simp)) _).mp hthree
  obtain rfl := Value.list.inj hresults
  exact ⟨hthree, hforall, (coerce_list_iff (by simp) (by simp) hkinds (by simp)).2 "5" rfl⟩

/-- A single number over a list of numbers is no number, though it is one over each of them. -/
theorem coerce_single_over_numbers :
    coerce (.ofValues ["5"]) (some (.list [.int 1, .int 2])) = .ok (.list [.str "5"]) ∧
    coerce (.text "5") (some (.int 1)) = .ok (.int 5) ∧ coerce (.text "5") (some (.int 2)) = .ok (.int 5) ∧
    ¬ ∃ results, Value.list [.str "5"] = .list results ∧ List.Forall₂ (BecomesOver .int) ["5"] results := by
  refine ⟨rfl, rfl, rfl, ?_⟩
  rintro ⟨results, hresults, hforall⟩
  obtain rfl := Value.list.inj hresults
  have hkind : Kind.str = .int := (List.forall₂_cons.mp hforall).1.1
  contradiction

end

end LayeredConfig
