import LayeredConfig.Proofs.ListedNames

/-!
# What a run of variables does

Overlays of different slots can be read off at once: each leaf and each global gets the text for it in its place, and
what is new comes behind the others, in the order of the overlays (`taken`). A run of overlays that succeeds does just
that, provided that each of its slots is there or at the top level (`textsTaken_of_each`), and it succeeds if each of
its texts can take the place of what the slot holds at the start (`exists_each_of_coerced`). Without a prefix a scan is
such a run over what is there, so it changes values and nothing else (`updateFromEnvironment_scanned`).
-/

namespace LayeredConfig

namespace Ordered

variable {α : Type} {key : String} {value : α} {xs ys : List (String × α)}

theorem insert_append_of_mem (h : key ∈ keys xs) : insert key value (xs ++ ys) = insert key value xs ++ ys := by
  induction xs with
  | nil => simp at h
  | cons entry rest ih =>
    rw [List.cons_append, insert, insert]
    by_cases hkey : entry.1 = key
    · rw [if_pos hkey, if_pos hkey, List.cons_append]
    · rw [keys_cons, List.mem_cons] at h
      rw [if_neg hkey, if_neg hkey, ih (h.resolve_left (Ne.symm hkey)), List.cons_append]

theorem lookup_append_of_mem (h : key ∈ keys xs) (ys : List (String × α)) :
    (xs ++ ys).lookup key = xs.lookup key := by
  obtain ⟨value, hvalue⟩ := Option.ne_none_iff_exists'.mp (mt lookup_eq_none_iff.mp (not_not.mpr h))
  rw [List.lookup_append, hvalue, Option.some_or]

end Ordered

namespace Path

variable {scope : Scope} {v : Value} {path : List String} {entries more : Entries}

theorem mem_keys_of_find? {segment : String} {rest : List String} (h : (find? (segment :: rest) entries).isSome) :
    segment ∈ Ordered.keys entries := by
  by_contra hfresh
  have hnone : entries.lookup segment = none := Ordered.lookup_eq_none_iff.mpr hfresh
  by_cases hrest : rest = []
  · simp [hrest, hnone] at h
  · simp [find?_cons segment hrest, hnone] at h

theorem find?_append_entries (h : (find? path entries).isSome) : find? path (entries ++ more) = find? path entries := by
  rcases path with _ | ⟨segment, rest⟩
  · simp at h
  have hlookup := Ordered.lookup_append_of_mem (mem_keys_of_find? h) more
  cases rest <;> simp only [find?, find, hlookup]

/-- Entries that come behind do not matter to a write to what is there. -/
theorem write_append_entries (h : (find? path entries).isSome) :
    write scope v path (entries ++ more) = (write scope v path entries).map (· ++ more) := by
  rcases path with _ | ⟨segment, rest⟩
  · simp at h
  have hmem := mem_keys_of_find? h
  have hlookup := Ordered.lookup_append_of_mem hmem more
  by_cases hrest : rest = []
  · rw [hrest, write_singleton, write_singleton, Ordered.insert_append_of_mem hmem]
    rfl
  · obtain ⟨w, hw⟩ := Option.ne_none_iff_exists'.mp (mt Ordered.lookup_eq_none_iff.mp (not_not.mpr hmem))
    rw [write, write, hlookup, hw]
    · cases w with
      | node inner provenance children =>
        dsimp only
        cases write scope v rest children with
        | error segment => rfl
        | ok written => exact congrArg Except.ok (Ordered.insert_append_of_mem hmem)
      | _ => rfl
    · exact hrest
    · exact hrest

end Path

/-- A value with a text in its place, as one of its kind; the value itself if there is no text for it. -/
def Value.recast (text : Option String) (old : Value) : Value :=
  (text.bind fun s => (coerceText old.kind s).toOption).getD old

theorem Value.recast_none (old : Value) : old.recast none = old := rfl

theorem Value.recast_of_coerced {text : String} {old v : Value} (h : coerce (.text text) (some old) = .ok v) :
    old.recast (some text) = v := by
  rw [coerce_text] at h
  simp [recast, h, Except.toOption]

/-- The name that a slot at the top level of the tree has. -/
def Slot.topKey? : Slot → Option String
  | .key [name] => some name
  | _ => none

def Slot.globalName? : Slot → Option String
  | .global name => some name
  | .key _ => none

theorem Slot.topKey?_eq_some_iff {slot : Slot} {name : String} : slot.topKey? = some name ↔ slot = .key [name] := by
  unfold topKey?
  split <;> simp_all

theorem Slot.globalName?_eq_some_iff {slot : Slot} {name : String} :
    slot.globalName? = some name ↔ slot = .global name := by
  cases slot <;> simp [globalName?]

namespace Config

variable {c c' before after : Config} {env : Environment} {options : EnvOptions} {slot : Slot} {o : Overlay}
  {done overlays : List Overlay} {text : String} {v old : Value}

/-! ## The result of overlays -/

/-- The text that overlays have for a slot. -/
def textAt (overlays : List Overlay) (slot : Slot) : Option String :=
  (overlays.find? fun o => o.target.slot = slot).map Overlay.text

/-- What overlays add to entries: their texts, under the names that are not there. -/
def addedBy (name? : Slot → Option String) (entries : Entries) (overlays : List Overlay) : Entries :=
  overlays.filterMap fun o =>
    ((name? o.target.slot).filter (· ∉ Ordered.keys entries)).map fun name => (name, .str o.text)

/-- Entries with the texts of overlays: those for leaves that are there in their places, the others behind. -/
def takenEntries (entries : Entries) (overlays : List Overlay) : Entries :=
  Path.mapLeaves (fun path => Value.recast (textAt overlays (.key path))) entries ++
    addedBy Slot.topKey? entries overlays

/-- Globals with the texts of overlays. -/
def takenGlobals (globals : Entries) (overlays : List Overlay) : Entries :=
  (globals.map fun entry => (entry.1, entry.2.recast (textAt overlays (.global entry.1)))) ++
    addedBy Slot.globalName? globals overlays

/-- A configuration with the texts of overlays. -/
def taken (c : Config) (overlays : List Overlay) : Config where
  tree := { c.tree with entries := takenEntries c.tree.entries overlays }
  globals := takenGlobals c.globals overlays

theorem keepsLeaves_recast (texts : List String → Option String) :
    Path.KeepsLeaves fun path => Value.recast (texts path) := by
  intro path old hold
  show (old.recast (texts path)).isNode = false
  unfold Value.recast
  cases hv : (texts path).bind fun s => (coerceText old.kind s).toOption with
  | none => exact hold
  | some v =>
    obtain ⟨s, -, hs⟩ := Option.bind_eq_some_iff.mp hv
    cases hok : coerceText old.kind s with
    | error e => simp [hok, Except.toOption] at hs
    | ok w =>
      rw [hok] at hs
      exact Option.some.inj hs ▸ (flat_coerceText hok).isNode

theorem textAt_eq_none (h : ∀ x ∈ overlays, x.target.slot ≠ slot) : textAt overlays slot = none := by
  simpa [textAt] using h

theorem textAt_append_of_ne (h : o.target.slot ≠ slot) : textAt (done ++ [o]) slot = textAt done slot := by
  simp [textAt, List.find?_append, h]

theorem textAt_append_self (h : ∀ x ∈ done, x.target.slot ≠ o.target.slot) :
    textAt (done ++ [o]) o.target.slot = some o.text := by
  have hnone : done.find? (fun x => x.target.slot = o.target.slot) = none := by simpa using h
  simp [textAt, List.find?_append, hnone]

theorem addedBy_append (name? : Slot → Option String) (entries : Entries) (done : List Overlay) (o : Overlay) :
    addedBy name? entries (done ++ [o]) = addedBy name? entries done ++
      (((name? o.target.slot).filter (· ∉ Ordered.keys entries)).map fun name => (name, Value.str o.text)).toList := by
  rw [addedBy, List.filterMap_append, List.filterMap_cons, addedBy]
  cases ((name? o.target.slot).filter (· ∉ Ordered.keys entries)) <;> rfl

theorem addedBy_append_of_there {name? : Slot → Option String} {entries : Entries}
    (h : ∀ name, name? o.target.slot = some name → name ∈ Ordered.keys entries) :
    addedBy name? entries (done ++ [o]) = addedBy name? entries done := by
  have hnone : (name? o.target.slot).filter (· ∉ Ordered.keys entries) = none := by
    simpa [Option.filter_eq_none_iff] using h
  rw [addedBy_append, hnone]
  exact List.append_nil _

theorem addedBy_append_of_new {name? : Slot → Option String} {entries : Entries} {name : String}
    (h : name? o.target.slot = some name) (hnew : name ∉ Ordered.keys entries) :
    addedBy name? entries (done ++ [o]) = addedBy name? entries done ++ [(name, .str o.text)] := by
  rw [addedBy_append, h]
  simp [hnew]

theorem exists_of_mem_addedBy {name? : Slot → Option String} {entries : Entries} {name : String}
    (h : name ∈ Ordered.keys (addedBy name? entries overlays)) : ∃ x ∈ overlays, name? x.target.slot = some name := by
  obtain ⟨entry, hentry, rfl⟩ := List.mem_map.mp h
  obtain ⟨x, hx, hadded⟩ := List.mem_filterMap.mp hentry
  obtain ⟨name, hname, rfl⟩ := Option.map_eq_some_iff.mp hadded
  exact ⟨x, hx, (Option.filter_eq_some_iff.mp hname).1⟩

theorem addedBy_eq_nil {name? : Slot → Option String} {entries : Entries}
    (h : ∀ x ∈ overlays, ∀ name, name? x.target.slot = some name → name ∈ Ordered.keys entries) :
    addedBy name? entries overlays = [] := by
  rw [addedBy, List.filterMap_eq_nil_iff]
  intro x hx
  simpa [Option.filter_eq_none_iff] using h x hx

theorem taken_nil (c : Config) : c.taken [] = c := by
  have hleaves : takenEntries c.tree.entries [] = c.tree.entries :=
    (List.append_nil _).trans (Path.mapLeaves_id c.tree.entries)
  have hglobals : takenGlobals c.globals [] = c.globals := (List.append_nil _).trans (List.map_id c.globals)
  rw [taken, hleaves, hglobals]

/-! ## One more overlay -/

/-- A slot that is there, or that an overlay adds at the end. -/
def AtHand (c : Config) : Slot → Prop
  | .key path => (c.find? (.key path)).isSome ∨ ∃ name, path = [name]
  | .global _ => True

section step

variable (hfresh : ∀ x ∈ done, x.target.slot ≠ o.target.slot)

theorem takenGlobals_append_of_key {path : List String} (hslot : o.target.slot = .key path) (globals : Entries) :
    takenGlobals globals (done ++ [o]) = takenGlobals globals done := by
  have hadded : addedBy Slot.globalName? globals (done ++ [o]) = addedBy Slot.globalName? globals done :=
    addedBy_append_of_there (by simp [hslot, Slot.globalName?])
  have htext (name : String) : textAt (done ++ [o]) (.global name) = textAt done (.global name) :=
    textAt_append_of_ne (by simp [hslot])
  simp only [takenGlobals, hadded, htext]

theorem takenEntries_append_of_global {name : String} (hslot : o.target.slot = .global name) (entries : Entries) :
    takenEntries entries (done ++ [o]) = takenEntries entries done := by
  have hadded : addedBy Slot.topKey? entries (done ++ [o]) = addedBy Slot.topKey? entries done :=
    addedBy_append_of_there (by simp [hslot, Slot.topKey?])
  have htext (path : List String) : textAt (done ++ [o]) (.key path) = textAt done (.key path) :=
    textAt_append_of_ne (by simp [hslot])
  simp only [takenEntries, hadded, htext]

include hfresh

section key

variable {path : List String} {name : String} {entries : Entries}

theorem leaf?_takenEntries (hslot : o.target.slot = .key path) (hold : Path.leaf? path entries = some old) :
    Path.leaf? path (Path.mapLeaves (fun path => Value.recast (textAt done (.key path))) entries) = some old := by
  have hleaf := Path.leaf?_mapLeaves (keepsLeaves_recast fun path => textAt done (.key path)) hold
  rwa [textAt_eq_none (hslot ▸ hfresh)] at hleaf

/-- Over a leaf that is there, the text for it is written in its place. -/
theorem write_takenEntries_of_leaf (hproper : ProperEntries entries) (hslot : o.target.slot = .key path)
    (hold : Path.leaf? path entries = some old) (hv : coerce (.text o.text) (some old) = .ok v) (scope : Scope) :
    Path.write scope v path (takenEntries entries done) = .ok (takenEntries entries (done ++ [o])) := by
  have hthere := Option.isSome_of_mem (Path.leaf?_eq_some_iff.mp (leaf?_takenEntries hfresh hslot hold)).1
  have hadded : addedBy Slot.topKey? entries (done ++ [o]) = addedBy Slot.topKey? entries done := by
    apply addedBy_append_of_there
    intro name hname
    obtain rfl : path = [name] := Slot.key.inj (hslot.symm.trans (Slot.topKey?_eq_some_iff.mp hname))
    exact Path.mem_keys_of_find? (Option.isSome_of_mem (Path.leaf?_eq_some_iff.mp hold).1)
  have hothers : ∀ other ≠ path, Value.recast (textAt done (.key other)) =
      Value.recast (textAt (done ++ [o]) (.key other)) := by
    intro other hne
    rw [textAt_append_of_ne (by simpa [hslot] using hne.symm)]
  rw [takenEntries, takenEntries, hadded, Path.write_append_entries hthere,
    Path.write_mapLeaves hproper hold ?_ hothers]
  · rfl
  · rw [← hslot, textAt_append_self hfresh, Value.recast_of_coerced hv]

theorem not_mem_takenEntries (hslot : o.target.slot = .key [name]) (hnew : name ∉ Ordered.keys entries) :
    name ∉ Ordered.keys (takenEntries entries done) := by
  rw [takenEntries, Ordered.keys_append, List.mem_append, not_or, ← Ordered.lookup_eq_none_iff,
    Path.lookup_mapLeaves, Ordered.lookup_eq_none_iff.mpr hnew]
  refine ⟨rfl, ?_⟩
  intro hadded
  obtain ⟨x, hx, hname⟩ := exists_of_mem_addedBy hadded
  exact hfresh x hx ((Slot.topKey?_eq_some_iff.mp hname).trans hslot.symm)

/-- A key that is not there comes behind all others. -/
theorem insert_takenEntries (hslot : o.target.slot = .key [name]) (hnew : name ∉ Ordered.keys entries) :
    Ordered.insert name (.str o.text) (takenEntries entries done) = takenEntries entries (done ++ [o]) := by
  have hsame : Path.mapLeaves (fun path => Value.recast (textAt done (.key path))) entries =
      Path.mapLeaves (fun path => Value.recast (textAt (done ++ [o]) (.key path))) entries := by
    apply Path.mapLeaves_congr
    intro key hkey path
    rw [textAt_append_of_ne]
    rw [hslot]
    rintro ⟨⟩
    exact hnew hkey
  rw [Ordered.insert_of_fresh _ (not_mem_takenEntries hfresh hslot hnew), takenEntries, takenEntries, hsame,
    addedBy_append_of_new (Slot.topKey?_eq_some_iff.mpr hslot) hnew, List.append_assoc]

end key

section global

variable {name : String} {globals : Entries}

theorem lookup_takenGlobals (hslot : o.target.slot = .global name) :
    (takenGlobals globals done).lookup name = globals.lookup name := by
  have hmapped := Ordered.lookup_map (fun name => Value.recast (textAt done (.global name))) name globals
  have hadded : (addedBy Slot.globalName? globals done).lookup name = none := by
    rw [Ordered.lookup_eq_none_iff]
    intro hadded
    obtain ⟨x, hx, hname⟩ := exists_of_mem_addedBy hadded
    exact hfresh x hx ((Slot.globalName?_eq_some_iff.mp hname).trans hslot.symm)
  rw [takenGlobals, List.lookup_append, hmapped, hadded, Option.or_none, textAt_eq_none (hslot ▸ hfresh)]
  exact Option.map_id'

/-- A global that is there keeps its place, another comes behind. -/
theorem insert_takenGlobals (hproper : ProperEntries globals) (hslot : o.target.slot = .global name)
    (hv : coerce (.text o.text) (globals.lookup name) = .ok v) :
    Ordered.insert name v (takenGlobals globals done) = takenGlobals globals (done ++ [o]) := by
  have hothers : ∀ other ≠ name, Value.recast (textAt done (.global other)) =
      Value.recast (textAt (done ++ [o]) (.global other)) := by
    intro other hne
    rw [textAt_append_of_ne (by simpa [hslot] using hne.symm)]
  have hself : textAt (done ++ [o]) (.global name) = some o.text := hslot ▸ textAt_append_self hfresh
  cases hold : globals.lookup name with
  | some old =>
    rw [hold] at hv
    have hinsert := Ordered.insert_map (p := fun name => Value.recast (textAt done (.global name)))
      (q := fun name => Value.recast (textAt (done ++ [o]) (.global name))) hproper.1 hold hothers
    rw [hself, Value.recast_of_coerced hv] at hinsert
    have hmem : name ∈ Ordered.keys globals := Ordered.key_mem_of_mem (Ordered.mem_of_lookup hold)
    have hadded : addedBy Slot.globalName? globals (done ++ [o]) = addedBy Slot.globalName? globals done := by
      apply addedBy_append_of_there
      intro other hother
      obtain rfl : name = other := Slot.global.inj (hslot.symm.trans (Slot.globalName?_eq_some_iff.mp hother))
      exact hmem
    rw [takenGlobals, takenGlobals, Ordered.insert_append_of_mem, hinsert, hadded]
    simpa [Ordered.keys] using hmem
  | none =>
    rw [hold] at hv
    obtain rfl : .str o.text = v := Except.ok.inj hv
    have hnew : name ∉ Ordered.keys globals := Ordered.lookup_eq_none_iff.mp hold
    have hkept : name ∉ Ordered.keys (takenGlobals globals done) := by
      rw [← Ordered.lookup_eq_none_iff, lookup_takenGlobals hfresh hslot, hold]
    have hsame : globals.map (fun entry => (entry.1, entry.2.recast (textAt done (.global entry.1)))) =
        globals.map fun entry => (entry.1, entry.2.recast (textAt (done ++ [o]) (.global entry.1))) := by
      apply List.map_congr_left
      rintro ⟨other, w⟩ hentry
      have hne : other ≠ name := fun he => hnew (he ▸ Ordered.key_mem_of_mem hentry)
      exact congrArg (other, ·) (congrFun (hothers other hne) w)
    rw [Ordered.insert_of_fresh _ hkept, takenGlobals, takenGlobals, hsame,
      addedBy_append_of_new (Slot.globalName?_eq_some_iff.mpr hslot) hnew, List.append_assoc]

end global

/-- **One more overlay, of another slot, is one more text taken.** -/
theorem overlay_taken (hc : c.Proper) (hat : c.AtHand o.target.slot)
    (hv : coerce (.text o.text) (c.find? o.target.slot) = .ok v) :
    (c.taken done).overlay o.target.slot (.text o.text) = .ok (c.taken (done ++ [o])) := by
  have hplain := isNode_of_overlay hv
  have hflat := flat_coerce hv
  cases hslot : o.target.slot with
  | global name =>
    rw [hslot] at hv
    refine overlay_eq_ok_iff.mpr ⟨v, ?_, congrArg Except.ok ?_⟩
    · exact (congrArg (coerce (.text o.text)) (lookup_takenGlobals hfresh hslot)).trans hv
    · rw [setGlobal, taken, taken, takenEntries_append_of_global hslot]
      exact congrArg (Config.mk _) (insert_takenGlobals hfresh hc.globals hslot hv)
  | key path =>
    rw [hslot] at hv hat hplain
    have hwhole {written : Entries} (h : written = takenEntries c.tree.entries (done ++ [o])) :
        c.taken (done ++ [o]) = { c.taken done with tree := { (c.taken done).tree with entries := written } } := by
      rw [h, taken, taken, takenGlobals_append_of_key hslot]
    cases hold : c.find? (.key path) with
    | some old =>
      rw [hold] at hv
      have hleaf : Path.leaf? path c.tree.entries = some old := Path.leaf?_eq_some_iff.mpr ⟨hold, hplain old hold⟩
      have hwritten := write_takenEntries_of_leaf hfresh hc.entries hslot hleaf hv c.tree.scope
      refine overlay_eq_ok_iff.mpr ⟨v, ?_, (put_key_eq_ok_iff hflat).mpr ⟨_, hwritten, hwhole rfl⟩⟩
      have hfind := (Path.leaf?_eq_some_iff.mp (leaf?_takenEntries hfresh hslot hleaf)).1
      show coerce (.text o.text) (Path.find? path (_ ++ _)) = .ok v
      rw [Path.find?_append_entries (Option.isSome_of_mem hfind), hfind, hv]
    | none =>
      obtain ⟨name, rfl⟩ := hat.resolve_left (by simp [hold])
      rw [hold] at hv
      obtain rfl : .str o.text = v := Except.ok.inj hv
      have hnew : name ∉ Ordered.keys c.tree.entries := by
        rw [← Ordered.lookup_eq_none_iff, ← Path.find?_singleton]
        exact hold
      have hwritten := (Path.write_singleton c.tree.scope (.str o.text) name _).trans
        (congrArg Except.ok (insert_takenEntries hfresh hslot hnew))
      refine overlay_eq_ok_iff.mpr ⟨_, ?_, (put_key_eq_ok_iff hflat).mpr ⟨_, hwritten, hwhole rfl⟩⟩
      show coerce (.text o.text) (Path.find? [name] (takenEntries c.tree.entries done)) = _
      rw [Path.find?_singleton, Ordered.lookup_eq_none_iff.mpr (not_mem_takenEntries hfresh hslot hnew)]
      rfl

end step

/-! ## The run -/

/-- An overlay that writes to its slot, which is there or at the top level. -/
def Lands (c : Config) (o : Overlay) : Prop := c.reached? o.target = some o.target.slot ∧ c.AtHand o.target.slot

theorem AtHand.ne_root (h : c.AtHand slot) : slot ≠ .key [] := by
  rintro rfl
  rcases h with h | ⟨name, h⟩
  · simp [find?] at h
  · simp at h

/-- What is known after some overlays of different slots. -/
structure TextsTaken (c : Config) (done : List Overlay) (after : Config) : Prop extends OverlaysDone c done after where
  whole : after = c.taken done
  values : ∀ o ∈ done, ∃ v, coerce (.text o.text) (c.find? o.target.slot) = .ok v ∧
    after.leaf? o.target.slot = some v

theorem TextsTaken.start (c : Config) : TextsTaken c [] c :=
  ⟨OverlaysDone.start c, (taken_nil c).symm, by simp⟩

theorem SlotsApart.fresh {rest : List Overlay} (hapart : SlotsApart (done ++ o :: rest)) :
    ∀ x ∈ done, x.target.slot ≠ o.target.slot := by
  rw [SlotsApart, List.pairwise_append] at hapart
  exact fun x hx => hapart.2.2 x hx o List.mem_cons_self

section

variable (hc : c.Proper)

include hc

theorem TextsTaken.step (h : TextsTaken c done before) (hfresh : ∀ x ∈ done, x.target.slot ≠ o.target.slot)
    (hlands : ∀ x ∈ done ++ [o], c.Lands x) (hok : before.applyOverlay o = .ok after) :
    TextsTaken c (done ++ [o]) after := by
  obtain ⟨hdone, hlast⟩ := List.forall_mem_append.mp hlands
  obtain ⟨hreached, hat⟩ := hlast o (List.mem_singleton_self o)
  have hstep := hok
  rw [applyOverlay_eq, h.reached_after hreached] at hstep
  obtain ⟨v, hv, hleaf⟩ := overlay_leaf? hstep
  -- The slot holds what it held before the run, since no other overlay wrote to it.
  have hfind : c.find? o.target.slot = before.leaf? o.target.slot := by
    obtain ⟨w, hw, -⟩ := overlay_eq_ok_iff.mp hstep
    rw [h.keeps.find?_eq_leaf? (isNode_of_overlay hw)]
    refine (h.others o.target.slot hat.ne_root ?_).symm
    rintro ⟨x, hx, hslot⟩
    exact hfresh x hx (reached?_eq_some hslot).symm
  have hcoerced : coerce (.text o.text) (c.find? o.target.slot) = .ok v := hfind ▸ hv
  refine ⟨h.toOverlaysDone.step hok, ?_, ?_⟩
  · have htaken := overlay_taken hfresh hc hat hcoerced
    rw [← h.whole, show before.overlay o.target.slot (.text o.text) = .ok after from hstep] at htaken
    exact Except.ok.inj htaken
  · intro x hx
    rcases List.mem_append.mp hx with hearlier | hlast
    · obtain ⟨w, hw, hthere⟩ := h.values x hearlier
      refine ⟨w, hw, ?_⟩
      rw [hleaf _ (hdone x hearlier).2.ne_root, if_neg (hfresh x hearlier), hthere]
    · obtain rfl := List.mem_singleton.mp hlast
      exact ⟨v, hcoerced, by rw [hleaf _ hat.ne_root, if_pos rfl]⟩

variable (hapart : SlotsApart overlays) (hlands : ∀ o ∈ overlays, c.Lands o)

include hapart hlands

/-- **What a run of overlays of different slots does.** -/
theorem textsTaken_of_each (h : Attempt.each applyOverlay c overlays = ⟨c', none⟩) : TextsTaken c overlays c' := by
  refine Attempt.each_induction (TextsTaken.start c) ?_ h
  rintro done o rest before after hitems hdone hok
  have hbegin : done ++ [o] <+: overlays := ⟨rest, by simp [hitems]⟩
  exact hdone.step hc (hitems ▸ hapart).fresh (fun x hx => hlands x (hbegin.subset hx)) hok

/-- Where each text can take the place of what its slot holds at the start, the run succeeds. -/
theorem exists_each_of_coerced
    (hcoerced : ∀ o ∈ overlays, ∃ v, coerce (.text o.text) (c.find? o.target.slot) = .ok v) :
    ∃ c', Attempt.each applyOverlay c overlays = ⟨c', none⟩ := by
  suffices h : ∃ c', Attempt.each applyOverlay c overlays = ⟨c', none⟩ ∧ TextsTaken c overlays c' from
    h.imp fun c' hrun => hrun.1
  refine Attempt.each_succeeds (TextsTaken.start c) ?_
  rintro done o rest before hitems hdone
  have hbegin : done ++ [o] <+: overlays := ⟨rest, by simp [hitems]⟩
  have ho : o ∈ overlays := hbegin.subset (by simp)
  have hfresh := (hitems ▸ hapart : SlotsApart (done ++ o :: rest)).fresh
  obtain ⟨hreached, hat⟩ := hlands o ho
  obtain ⟨v, hv⟩ := hcoerced o ho
  have hok : before.applyOverlay o = .ok (c.taken (done ++ [o])) := by
    rw [applyOverlay_eq, hdone.reached_after hreached, hdone.whole]
    exact overlay_taken hfresh hc hat hv
  exact ⟨_, hok, hdone.step hc hfresh (fun x hx => hlands x (hbegin.subset hx)) hok⟩

end

/-- An update of different slots fails exactly if some text cannot take the place of what its slot holds at the
start. -/
theorem error_ne_none_iff (hc : c.Proper) (hapart : SlotsApart (c.overlays env options))
    (hlands : ∀ o ∈ c.overlays env options, c.Lands o) :
    (c.updateFromEnvironment env options).error ≠ none ↔
      ∃ o ∈ c.overlays env options, ∃ error, coerce (.text o.text) (c.find? o.target.slot) = .error error := by
  constructor
  · intro hfails
    by_contra hnone
    have hcoerced : ∀ o ∈ c.overlays env options, ∃ v, coerce (.text o.text) (c.find? o.target.slot) = .ok v := by
      intro o ho
      cases hv : coerce (.text o.text) (c.find? o.target.slot) with
      | ok v => exact ⟨v, rfl⟩
      | error error => exact absurd ⟨o, ho, error, hv⟩ hnone
    obtain ⟨overlaid, hrun⟩ := exists_each_of_coerced hc hapart hlands hcoerced
    exact hfails (congrArg Attempt.error (updateFromEnvironment_eq_iff.mpr ⟨overlaid, hrun, rfl⟩))
  · rintro ⟨o, ho, error, herror⟩ hnone
    have hupdate : c.updateFromEnvironment env options = ⟨(c.updateFromEnvironment env options).config, none⟩ := by
      rw [← hnone]
    obtain ⟨overlaid, hrun, -⟩ := updateFromEnvironment_eq_iff.mp hupdate
    obtain ⟨v, hv, -⟩ := (textsTaken_of_each hc hapart hlands hrun).values o ho
    rw [herror] at hv
    contradiction

/-! ## Without a prefix -/

/-- A slot that is scanned for without a prefix, with the text for it: a leaf that is recorded under the name of a
variable, or a global whose name in braces is that of one. -/
inductive Scanned (c : Config) (env : Environment) (options : EnvOptions) : Slot → String → Prop
  | key {name text : String} {path : List String} (hrecorded : c.tree.recursiveKeys.lookup name = some path)
      (hleaf : (c.leaf? (.key path)).isSome) (hkept : options.excludes env name = false)
      (htext : env.var? name = some text) : Scanned c env options (.key path) text
  | global {name text : String} (hthere : (c.globals.lookup name).isSome)
      (hkept : options.excludes env ("\x7b" ++ name ++ "\x7d") = false)
      (htext : env.var? ("\x7b" ++ name ++ "\x7d") = some text) : Scanned c env options (.global name) text

theorem Scanned.leaf (h : c.Scanned env options slot text) : (c.leaf? slot).isSome := by
  cases h with
  | key _ hleaf => exact hleaf
  | global hthere => exact hthere

/-- What a scan without a prefix leaves of a configuration. -/
structure ScannedInto (c : Config) (env : Environment) (options : EnvOptions) (c' : Config) : Prop where
  /-- What is scanned for has its text, as a value of the kind that it had, or as a string if it was null. -/
  taken : ∀ slot text, c.Scanned env options slot text → ∃ old v, c.find? slot = some old ∧
    coerce (.text text) (some old) = .ok v ∧ c'.find? slot = some v ∧ v.kind = old.kind.overlaid
  /-- The tree is the same but for leaves that are scanned for. -/
  leaves : ∃ f, Path.KeepsLeaves f ∧ c'.tree.entries = Path.mapLeaves f c.tree.entries ∧
    ∀ path, (∀ text, ¬ c.Scanned env options (.key path) text) → ∀ old, f path old = old
  globals : ∀ name, (∀ text, ¬ c.Scanned env options (.global name) text) →
    c'.globals.lookup name = c.globals.lookup name
  recursiveKeys : c'.tree.recursiveKeys = c.tree.recursiveKeys
  globalNames : Ordered.keys c'.globals = Ordered.keys c.globals
  provenance : c'.provenance = { c.provenance with envPrefix := some "" }

section

variable (hc : c.Proper) (hfront : c.envPrefix options = "") (hscan : options.only = none)

include hc hfront hscan

theorem scanned_iff : c.Scanned env options slot text ↔
    ∃ o ∈ c.overlays env options, o.target.slot = slot ∧ o.text = text := by
  constructor
  · rintro (⟨hrecorded, hleaf, hkept, htext⟩ | ⟨hthere, hkept, htext⟩)
    · refine ⟨⟨.key _, text⟩, (overlays_of_scanned hfront hscan).mpr ⟨_, ?_, hkept, htext⟩, rfl, rfl⟩
      exact (mem_knownTargets_iff hc).mpr (Or.inl ⟨_, rfl, hrecorded, hleaf⟩)
    · refine ⟨⟨.global _ false, text⟩, (overlays_of_scanned hfront hscan).mpr ⟨_, ?_, hkept, htext⟩, rfl, rfl⟩
      exact (mem_knownTargets_iff hc).mpr (Or.inr ⟨_, rfl, hthere, rfl⟩)
  · rintro ⟨o, ho, rfl, rfl⟩
    obtain ⟨name, hknown, hkept, htext⟩ := (overlays_of_scanned hfront hscan).mp ho
    rcases (mem_knownTargets_iff hc).mp hknown with ⟨path, htarget, hrecorded, hleaf⟩ | ⟨global, htarget, hthere, rfl⟩
    · rw [htarget]
      exact .key hrecorded hleaf hkept htext
    · rw [htarget]
      exact .global hthere hkept htext

/-- A scan without a prefix lands on leaves. -/
theorem lands_of_scanned (ho : o ∈ c.overlays env options) : c.Lands o ∧ (c.leaf? o.target.slot).isSome := by
  obtain ⟨hreached, hleaf⟩ := leaf_of_scanned hc hfront hscan ho
  obtain ⟨slot, hslot⟩ := Option.isSome_iff_exists.mp hreached
  have hthere := hleaf slot hslot
  obtain rfl := reached?_eq_some hslot
  refine ⟨⟨hslot, ?_⟩, hthere⟩
  obtain ⟨v, hv⟩ := Option.isSome_iff_exists.mp hthere
  cases hkind : o.target.slot with
  | key path => exact Or.inl (Option.isSome_of_mem (find?_of_leaf? (hkind ▸ hv)))
  | global name => trivial

/-- Nothing is added by a scan without a prefix. -/
theorem taken_of_scanned (env : Environment) :
    takenEntries c.tree.entries (c.overlays env options) =
        Path.mapLeaves (fun path => Value.recast (textAt (c.overlays env options) (.key path))) c.tree.entries ∧
      Ordered.keys (takenGlobals c.globals (c.overlays env options)) = Ordered.keys c.globals := by
  have htop : addedBy Slot.topKey? c.tree.entries (c.overlays env options) = [] := by
    apply addedBy_eq_nil
    intro o ho name hname
    obtain ⟨v, hv⟩ := Option.isSome_iff_exists.mp (lands_of_scanned hc hfront hscan ho).2
    rw [Slot.topKey?_eq_some_iff.mp hname] at hv
    exact Path.mem_keys_of_find? (Option.isSome_of_mem (find?_of_leaf? hv))
  have hglobal : addedBy Slot.globalName? c.globals (c.overlays env options) = [] := by
    apply addedBy_eq_nil
    intro o ho name hname
    obtain ⟨v, hv⟩ := Option.isSome_iff_exists.mp (lands_of_scanned hc hfront hscan ho).2
    rw [Slot.globalName?_eq_some_iff.mp hname] at hv
    exact Ordered.key_mem_of_mem (Ordered.mem_of_lookup hv)
  refine ⟨?_, ?_⟩
  · rw [takenEntries, htop, List.append_nil]
  · rw [takenGlobals, hglobal, List.append_nil, Ordered.keys, List.map_map]
    rfl

/-- **What a scan without a prefix does.** It fails exactly if the text for some leaf or global cannot take its place.
If it succeeds, these have their texts, and all else is as it was. -/
theorem updateFromEnvironment_scanned :
    ((c.updateFromEnvironment env options).error ≠ none ↔
      ∃ slot text error, c.Scanned env options slot text ∧ coerce (.text text) (c.find? slot) = .error error) ∧
    ∀ c', c.updateFromEnvironment env options = ⟨c', none⟩ → ScannedInto c env options c' := by
  have hapart : SlotsApart (c.overlays env options) := by
    rw [overlays, if_pos hfront]
    exact slotsApart_plainOverlays hc (by rw [hscan]; rintro names ⟨⟩)
  have hlands : ∀ o ∈ c.overlays env options, c.Lands o := fun o ho => (lands_of_scanned hc hfront hscan ho).1
  have hscanned {slot : Slot} {text : String} : c.Scanned env options slot text ↔
      ∃ o ∈ c.overlays env options, o.target.slot = slot ∧ o.text = text := scanned_iff hc hfront hscan
  refine ⟨?_, ?_⟩
  · rw [error_ne_none_iff hc hapart hlands]
    constructor
    · rintro ⟨o, ho, error, herror⟩
      exact ⟨o.target.slot, o.text, error, hscanned.mpr ⟨o, ho, rfl, rfl⟩, herror⟩
    · rintro ⟨slot, text, error, hslot, herror⟩
      obtain ⟨o, ho, rfl, rfl⟩ := hscanned.mp hslot
      exact ⟨o, ho, error, herror⟩
  intro c' h
  obtain ⟨overlaid, hrun, rfl⟩ := updateFromEnvironment_eq_iff.mp h
  have hdone := textsTaken_of_each hc hapart hlands hrun
  obtain ⟨hentries, hkeys⟩ := taken_of_scanned hc hfront hscan env
  have hleaves : overlaid.tree.entries =
      Path.mapLeaves (fun path => Value.recast (textAt (c.overlays env options) (.key path))) c.tree.entries :=
    (congrArg (fun d : Config => d.tree.entries) hdone.whole).trans hentries
  have hkeeps := keepsLeaves_recast fun path => textAt (c.overlays env options) (.key path)
  constructor
  case taken =>
    intro slot text hslot
    obtain ⟨old, hold⟩ := Option.isSome_iff_exists.mp hslot.leaf
    obtain ⟨o, ho, rfl, rfl⟩ := hscanned.mp hslot
    obtain ⟨v, hv, hleaf⟩ := hdone.values o ho
    have hfind := find?_of_leaf? hold
    rw [hfind] at hv
    refine ⟨old, v, hfind, hv, ?_, kind_coerceText (coerce_text o.text old ▸ hv)⟩
    rw [← find?_of_leaf? hleaf]
    cases o.target.slot <;> rfl
  case leaves =>
    refine ⟨_, hkeeps, hleaves, ?_⟩
    intro path hnone old
    have htext : textAt (c.overlays env options) (.key path) = none :=
      textAt_eq_none fun o ho hslot => hnone o.text (hscanned.mpr ⟨o, ho, hslot, rfl⟩)
    rw [htext, Value.recast_none]
  case globals =>
    intro name hnone
    refine hdone.others (.global name) (by simp) ?_
    rintro ⟨o, ho, hslot⟩
    exact hnone o.text (hscanned.mpr ⟨o, ho, (reached?_eq_some hslot).symm, rfl⟩)
  case recursiveKeys =>
    show pathTable overlaid.tree.entries = pathTable c.tree.entries
    rw [hleaves, pathTable_eq, pathTable_eq, Path.all_mapLeaves hkeeps]
  case globalNames => exact (congrArg (fun d : Config => Ordered.keys d.globals) hdone.whole).trans hkeys
  case provenance =>
    show ({ overlaid.provenance with envPrefix := some (c.envPrefix options) } : Provenance) = _
    rw [provenance_applyOverlays hrun, hfront]

end

/-- Names up to case: a number, a null and a global are overlaid, a key with a dot is left out; and a text that is no
number. -/
theorem updateFromEnvironment_scanned_up_to_case :
    ∃ c c' : Config, c.tree.entries = [("a", .mapping [("b", .int 1), ("c", .null)]), ("x.y", .str "old")] ∧
      c.globals = [("g", .bool true)] ∧
      c.updateFromEnvironment ⟨[("A.B", " 7"), ("a.C", "t"), ("X.Y", "new"), ("\x7bG\x7d", "0"), ("z", "1")], true⟩
        { excluded := ["x.Y"] } = ⟨c', none⟩ ∧
      c'.find? (.key ["a", "b"]) = some (.int 7) ∧ c'.find? (.key ["a", "c"]) = some (.str "t") ∧
      c'.find? (.global "g") = some (.bool false) ∧ c'.tree.recursiveKeys = c.tree.recursiveKeys ∧
      Ordered.keys c'.globals = ["g"] ∧
      (c.updateFromEnvironment ⟨[("A.B", "x")], true⟩ {}).error ≠ none := by
  let c : Config := ⟨⟨⟨.loose, {}⟩, {}, [("a", .mapping [("b", .int 1), ("c", .null)]), ("x.y", .str "old")]⟩,
    [("g", .bool true)]⟩
  have hentries : ProperEntries [("a", .mapping [("b", .int 1), ("c", .null)]), ("x.y", .str "old")] := by
    simp [ProperEntries, Value.mapping, Value.Proper, Value.Everywhere, Value.EverywhereEntries, Ordered.keys,
      Ordered.Distinct]
  have hglobals : ProperEntries [("g", .bool true)] := by
    simp [ProperEntries, Value.Proper, Value.Everywhere, Ordered.keys, Ordered.Distinct]
  have hproper : c.Proper := ⟨hentries, hglobals⟩
  have hrun : c.updateFromEnvironment
      ⟨[("A.B", " 7"), ("a.C", "t"), ("X.Y", "new"), ("\x7bG\x7d", "0"), ("z", "1")], true⟩
        { excluded := ["x.Y"] } =
      ⟨⟨⟨⟨.loose, {}⟩, { envPrefix := some "" },
        [("a", .mapping [("b", .int 7), ("c", .str "t")]), ("x.y", .str "old")]⟩, [("g", .bool false)]⟩, none⟩ := rfl
  have hscan : ({ excluded := ["x.Y"] } : EnvOptions).only = none := rfl
  obtain ⟨-, hinto⟩ := updateFromEnvironment_scanned hproper rfl hscan
  have hscanned := hinto _ hrun
  have hnumber : c.tree.recursiveKeys.lookup "a.b" = some ["a", "b"] := rfl
  have hnull : c.tree.recursiveKeys.lookup "a.c" = some ["a", "c"] := rfl
  obtain ⟨old, v, hold, hv, hseven, -⟩ := hscanned.taken (.key ["a", "b"]) " 7" (.key hnumber rfl rfl rfl)
  obtain ⟨old', v', hold', hv', htext, -⟩ := hscanned.taken (.key ["a", "c"]) "t" (.key hnull rfl rfl rfl)
  obtain ⟨old'', v'', hold'', hv'', hflag, -⟩ := hscanned.taken (.global "g") "0" (.global rfl rfl rfl)
  obtain rfl := Option.some.inj hold
  obtain rfl := Option.some.inj hold'
  obtain rfl := Option.some.inj hold''
  obtain rfl := Except.ok.inj hv
  obtain rfl := Except.ok.inj hv'
  obtain rfl := Except.ok.inj hv''
  have hfailed : (c.updateFromEnvironment ⟨[("A.B", "x")], true⟩ {}).error ≠ none :=
    (updateFromEnvironment_scanned hproper rfl rfl).1.mpr
      ⟨.key ["a", "b"], "x", .coercion "x" .int, .key hnumber rfl rfl rfl, rfl⟩
  exact ⟨c, _, rfl, rfl, hrun, hseven, htext, hflag, hscanned.recursiveKeys, hscanned.globalNames, hfailed⟩

end Config

end LayeredConfig
