import LayeredConfig.Proofs.Leaves
import LayeredConfig.Proofs.PlainForm
import LayeredConfig.Proofs.Slot

/-!
# Saving without what arguments created

Dropping the slots that a run of switches created takes back what the run created, and leaves what was there
before with the values of the switches (`SwitchesUndone`). The exception are mappings that were empty
before the run and into which it created something: they are dropped as well.
-/

namespace LayeredConfig

/-- Neither slot lies at or above the other. -/
def Slot.Apart : Slot → Slot → Prop
  | .key path, .key other => Path.Apart path other
  | .global name, .global other => name ≠ other
  | _, _ => True

namespace Config

variable {c c' before after : Config} {slot other : Slot} {name : String}

/-! ## Dropping slots -/

/-- A configuration without a slot, and without the mappings that are empty then. -/
def drop (c : Config) : Slot → Config
  | .key path => { c with tree := { c.tree with entries := Path.prune path c.tree.entries } }
  | .global name => { c with globals := Ordered.erase name c.globals }

theorem scope_drop (c : Config) (slot : Slot) : (c.drop slot).tree.scope = c.tree.scope := by cases slot <;> rfl

theorem proper_drop (h : c.Proper) : (c.drop slot).Proper := by
  cases slot with
  | key path => exact ⟨Path.proper_prune h.entries, h.globals⟩
  | global name => exact ⟨h.entries, h.globals.erase⟩

theorem proper_withProvenance (h : c.Proper) (f : Provenance → Provenance) : (c.withProvenance f).Proper :=
  ⟨h.entries, h.globals⟩

theorem proper_foldl_drop (slots : List Slot) (h : c.Proper) : (slots.foldl drop c).Proper := by
  induction slots generalizing c with
  | nil => exact h
  | cons slot rest ih => exact ih (proper_drop h)

theorem drop_comm (h : slot.Apart other) (c : Config) : (c.drop slot).drop other = (c.drop other).drop slot := by
  cases slot with
  | key path =>
    cases other with
    | key other => simp only [drop, Path.prune_comm h]
    | global other => rfl
  | global name =>
    cases other with
    | key other => rfl
    | global other => simp only [drop, Ordered.erase_erase]

theorem leaf?_drop (h : slot.Apart other) (hc : c.Proper) : (c.drop slot).leaf? other = c.leaf? other := by
  cases slot with
  | key path =>
    cases other with
    | key other => exact Path.leaf?_prune h hc.entries
    | global other => rfl
  | global name =>
    cases other with
    | key other => rfl
    | global other => exact Ordered.lookup_erase_of_ne hc.globals.1 h.symm

theorem apart_of_leaf? (h : (c.leaf? slot).isSome) (hother : (c.leaf? other).isSome) (hne : slot ≠ other) :
    slot.Apart other := by
  obtain ⟨v, hv⟩ := Option.isSome_iff_exists.mp h
  obtain ⟨w, hw⟩ := Option.isSome_iff_exists.mp hother
  cases slot with
  | key path =>
    cases other with
    | key other => exact Path.apart_of_leaf? hv hw fun he => hne (he ▸ rfl)
    | global other => trivial
  | global name =>
    cases other with
    | key other => trivial
    | global other => exact fun he => hne (he ▸ rfl)

/-- What is saved without a name that is there is saved without its slot. -/
theorem dropCreated_eq (hc : c.Proper) (hslot : c.slot? name = some slot) (hleaf : (c.leaf? slot).isSome) :
    c.dropCreated name = .ok (c.drop slot) := by
  unfold dropCreated
  cases slot with
  | global global =>
    obtain ⟨-, hglobal⟩ := slot?_eq_global_iff.mp hslot
    rw [hglobal]
    rfl
  | key path =>
    obtain ⟨-, hglobal, rfl⟩ := slot?_eq_key_iff.mp hslot
    obtain ⟨v, hv⟩ := Option.isSome_iff_exists.mp hleaf
    have hfind : Path.find? (c.switchPath name) c.tree.entries = some v := find?_of_leaf? hv
    rw [← segments_resolve_parse] at hfind
    rw [hglobal]
    show (c.tree.removePruned (.parse name)).map _ = _
    rw [Node.removePruned_eq hc.entries (by rw [hfind]; rfl), segments_resolve_parse]
    rfl

/-- **What is saved without names that are there is saved without their slots.** -/
theorem foldlM_dropCreated {names : List String} {slots : List Slot} (hc : c.Proper)
    (hslots : names.map c.slot? = slots.map some) (hnodup : slots.Nodup)
    (hleaf : ∀ slot ∈ slots, (c.leaf? slot).isSome) : names.foldlM dropCreated c = .ok (slots.foldl drop c) := by
  induction names generalizing c slots with
  | nil =>
    obtain rfl : slots = [] := by simpa using hslots
    rfl
  | cons name names ih =>
    obtain ⟨slot, slots, rfl⟩ : ∃ slot rest, slots = slot :: rest :=
      List.exists_cons_of_ne_nil fun he => by simp [he] at hslots
    obtain ⟨hslot, hrest⟩ := List.cons.inj hslots
    obtain ⟨hfresh, hnodup⟩ := List.nodup_cons.mp hnodup
    have hhere := hleaf slot List.mem_cons_self
    rw [List.foldlM_cons, dropCreated_eq hc hslot hhere]
    refine ih (proper_drop hc) ?_ hnodup fun other hother => ?_
    · rw [slot?_congr (scope_drop c slot)]
      exact hrest
    · have hthere := hleaf other (List.mem_cons_of_mem _ hother)
      rwa [leaf?_drop (apart_of_leaf? hhere hthere fun he => hfresh (he ▸ hother)) hc]

/-! ## Switches over what is there -/

/-- The switch for a slot that is there. -/
def switchFor? (c : Config) (arguments : Arguments) (slot : Slot) : Option (String × List String) :=
  if (c.find? slot).isSome then arguments.find? fun switch => c.slot? switch.1 = some slot else none

/-- What arguments make of a value at a slot that is there. -/
def overwritten (c : Config) (arguments : Arguments) (slot : Slot) (old : Value) : Value :=
  match c.switchFor? arguments slot with
  | some switch => (coerce (.ofValues switch.2) (some old)).toOption.getD old
  | none => old

/-- A configuration with the values of arguments at the slots that are there, and nothing else changed. -/
def overwrite (c : Config) (arguments : Arguments) : Config where
  tree := { c.tree with entries := Path.mapLeaves (fun path => c.overwritten arguments (.key path)) c.tree.entries }
  globals := c.globals.map fun entry => (entry.1, c.overwritten arguments (.global entry.1) entry.2)

theorem keepsLeaves_overwritten (c : Config) (arguments : Arguments) :
    Path.KeepsLeaves fun path => c.overwritten arguments (.key path) := by
  intro path old hold
  show (c.overwritten arguments (.key path) old).isNode = false
  unfold overwritten
  split
  · next switch _ =>
    cases hv : coerce (.ofValues switch.2) (some old) with
    | error e => exact hold
    | ok v => exact (flat_coerce hv).isNode
  · exact hold

theorem switchFor?_of_fresh {done : Arguments} (hfresh : ∀ other ∈ done, c.slot? other.1 ≠ some slot) :
    c.switchFor? done slot = none := by
  have hno : done.find? (fun switch => c.slot? switch.1 = some slot) = none := by
    simpa using fun a b hmem => hfresh (a, b) hmem
  rw [switchFor?, hno, ite_self]

section

variable {done : Arguments} {switch : String × List String}

theorem overwritten_append_of_ne (h : c.slot? switch.1 ≠ some other) :
    c.overwritten (done ++ [switch]) other = c.overwritten done other := by
  have hno : [switch].find? (fun switch => c.slot? switch.1 = some other) = none := by simpa using h
  funext old
  rw [overwritten, switchFor?, List.find?_append, hno, Option.or_none, overwritten, switchFor?]

/-- A switch over nothing overwrites nothing. -/
theorem overwrite_append_of_new (h : ∀ slot, c.slot? switch.1 = some slot → c.find? slot = none) :
    c.overwrite (done ++ [switch]) = c.overwrite done := by
  have hsame : c.overwritten (done ++ [switch]) = c.overwritten done := by
    funext slot
    by_cases hslot : c.slot? switch.1 = some slot
    · funext old
      rw [overwritten, switchFor?, overwritten, switchFor?, h slot hslot]
      rfl
    · exact overwritten_append_of_ne hslot
  rw [overwrite, overwrite, hsame]

variable (hslot : c.slot? switch.1 = some slot)

include hslot

theorem switchFor?_append_self (hfresh : ∀ other ∈ done, c.slot? other.1 ≠ some slot) (hfind : (c.find? slot).isSome) :
    c.switchFor? (done ++ [switch]) slot = some switch := by
  have hno : done.find? (fun switch => c.slot? switch.1 = some slot) = none := by
    simpa using fun a b hmem => hfresh (a, b) hmem
  rw [switchFor?, if_pos hfind, List.find?_append, hno, Option.none_or]
  simp [hslot]

/-- One more switch over a slot that is there is one more value overwritten. -/
theorem overlay_overwrite (hc : c.Proper) (hfresh : ∀ other ∈ done, c.slot? other.1 ≠ some slot) {old v : Value}
    (hold : c.leaf? slot = some old) (hv : coerce (.ofValues switch.2) (some old) = .ok v) :
    (c.overwrite done).overlay slot (.ofValues switch.2) = .ok (c.overwrite (done ++ [switch])) := by
  have hbefore : c.overwritten done slot old = old := by rw [overwritten, switchFor?_of_fresh hfresh]
  have hafter : c.overwritten (done ++ [switch]) slot old = v := by
    rw [overwritten, switchFor?_append_self hslot hfresh (by rw [find?_of_leaf? hold]; rfl)]
    show (coerce (.ofValues switch.2) (some old)).toOption.getD old = v
    rw [hv]
    rfl
  have hothers : ∀ other ≠ slot, c.overwritten done other = c.overwritten (done ++ [switch]) other :=
    fun other hne => (overwritten_append_of_ne (by simpa [hslot] using hne.symm)).symm
  refine overlay_eq_ok_iff.mpr ⟨v, ?_, ?_⟩
  · cases slot with
    | key path =>
      have hleaf := Path.leaf?_mapLeaves (keepsLeaves_overwritten c done) hold
      rw [show (c.overwrite done).find? (.key path) = some old from hbefore ▸ (Path.leaf?_eq_some_iff.mp hleaf).1, hv]
    | global name =>
      have hlookup := Ordered.lookup_map (fun name => c.overwritten done (.global name)) name c.globals
      rw [show c.globals.lookup name = some old from hold, Option.map_some, hbefore] at hlookup
      rw [show (c.overwrite done).find? (.global name) = some old from hlookup, hv]
  · cases slot with
    | key path =>
      rw [put_key_eq_ok_iff (flat_coerce hv)]
      refine ⟨_, Path.write_mapLeaves hc.entries hold hafter fun other hne => hothers _ (by simpa using hne), ?_⟩
      simp [overwrite, hothers]
    | global name =>
      have hinsert := Ordered.insert_map (p := fun name => c.overwritten done (.global name))
        (q := fun name => c.overwritten (done ++ [switch]) (.global name)) hc.globals.1 hold
        fun other hne => hothers _ (by simpa using hne)
      rw [hafter] at hinsert
      refine congrArg Except.ok ?_
      simp only [setGlobal, overwrite, hinsert]
      simp [hothers]

end

/-! ## Undoing switches -/

/-- There is no mapping above a slot that is empty. -/
def NoneEmptyAbove (c : Config) (slot : Slot) : Prop :=
  ∀ path, slot = .key path → ∀ above, above <+: path → Path.children? above c.tree.entries ≠ some []

theorem proper_overlay {proposal : Proposal} (hc : c.Proper) (h : c.overlay slot proposal = .ok c') : c'.Proper := by
  obtain ⟨v, hv, hput⟩ := overlay_eq_ok_iff.mp h
  have hflat := flat_coerce hv
  cases slot with
  | key path =>
    obtain ⟨written, hwritten, rfl⟩ := (put_key_eq_ok_iff hflat).mp hput
    exact ⟨Path.proper_write (Value.Flat.proper v hflat) hc.entries hwritten, hc.globals⟩
  | global name =>
    obtain rfl := Except.ok.inj hput
    exact ⟨hc.entries, hc.globals.insert (Value.Flat.proper v hflat)⟩

/-- **Dropping a slot undoes an overlay that created it.** -/
theorem drop_overlay {proposal : Proposal} (hc : c.Proper) (hroot : slot ≠ .key []) (hnew : c.find? slot = none)
    (hempty : c.NoneEmptyAbove slot) (h : c.overlay slot proposal = .ok c') : c'.drop slot = c := by
  obtain ⟨v, hv, hput⟩ := overlay_eq_ok_iff.mp h
  cases slot with
  | key path =>
    obtain ⟨written, hwritten, rfl⟩ := (put_key_eq_ok_iff (flat_coerce hv)).mp hput
    have hprune := Path.prune_write (by simpa using hroot) hc.entries hnew (hempty path rfl) hwritten
    simp only [drop, hprune]
  | global name =>
    obtain rfl := Except.ok.inj hput
    have herase : Ordered.erase name (Ordered.insert name v c.globals) = c.globals :=
      Ordered.erase_insert_of_fresh hc.globals.1 (Ordered.lookup_eq_none_iff.mp hnew)
    simp only [drop, setGlobal, herase]

/-- An overlay over a slot that is there may as well come after another slot is dropped. -/
theorem overlay_drop {proposal : Proposal} {old : Value} (hc : c.Proper) (hapart : other.Apart slot)
    (hold : c.leaf? slot = some old) (h : c.overlay slot proposal = .ok c') :
    (c.drop other).overlay slot proposal = .ok (c'.drop other) := by
  obtain ⟨v, hv, hput⟩ := overlay_eq_ok_iff.mp h
  have hflat := flat_coerce hv
  have hkept : (c.drop other).leaf? slot = some old := (leaf?_drop hapart hc).trans hold
  rw [find?_of_leaf? hold] at hv
  refine overlay_eq_ok_iff.mpr ⟨v, by rw [find?_of_leaf? hkept, hv], ?_⟩
  cases slot with
  | key path =>
    obtain ⟨written, hwritten, rfl⟩ := (put_key_eq_ok_iff hflat).mp hput
    rw [put_key_eq_ok_iff hflat]
    cases other with
    | key other =>
      obtain rfl := Except.ok.inj ((Path.write_eq_mapLeaves hc.entries hold).symm.trans hwritten)
      refine ⟨_, Path.write_eq_mapLeaves (Path.proper_prune hc.entries) hkept, ?_⟩
      simp only [drop, Path.prune_mapLeaves (Path.keepsLeaves_leafAt path hflat.isNode)]
    | global other => exact ⟨written, hwritten, rfl⟩
  | global name =>
    obtain rfl := Except.ok.inj hput
    cases other with
    | key other => rfl
    | global other =>
      have hmem : name ∈ Ordered.keys c.globals := Ordered.key_mem_of_mem (Ordered.mem_of_lookup hold)
      have herase : Ordered.erase other (Ordered.insert name v c.globals) =
          Ordered.insert name v (Ordered.erase other c.globals) :=
        Ordered.erase_insert_of_mem hc.globals.1 hmem hapart
      simp only [put, drop, setGlobal, herase]

section

variable {slots : List Slot} (hapart : ∀ s ∈ slots, s.Apart slot)

include hapart

theorem foldl_drop_comm (c : Config) : (slots.foldl drop c).drop slot = slots.foldl drop (c.drop slot) := by
  induction slots generalizing c with
  | nil => rfl
  | cons first rest ih =>
    rw [List.forall_mem_cons] at hapart
    rw [List.foldl_cons, List.foldl_cons, ih hapart.2, drop_comm hapart.1]

theorem overlay_foldl_drop {proposal : Proposal} {old : Value} (hc : c.Proper) (hold : c.leaf? slot = some old)
    (h : c.overlay slot proposal = .ok c') :
    (slots.foldl drop c).overlay slot proposal = .ok (slots.foldl drop c') := by
  induction slots generalizing c c' with
  | nil => exact h
  | cons first rest ih =>
    rw [List.forall_mem_cons] at hapart
    exact ih hapart.2 (proper_drop hc) ((leaf?_drop hapart.1 hc).trans hold) (overlay_drop hc hapart.1 hold h)

end

theorem foldl_drop_withProvenance (slots : List Slot) (c : Config) (f : Provenance → Provenance) :
    slots.foldl drop (c.withProvenance f) = (slots.foldl drop c).withProvenance f := by
  induction slots generalizing c with
  | nil => rfl
  | cons slot rest ih =>
    have hdrop : (c.withProvenance f).drop slot = (c.drop slot).withProvenance f := by cases slot <;> rfl
    rw [List.foldl_cons, hdrop, ih, List.foldl_cons]

theorem Node.setAt_withProvenance (n : Node) (f : Provenance → Provenance) (path : List String) (v : Value) :
    { n with provenance := f n.provenance }.setAt path v =
      (n.setAt path v).map fun set => { set with provenance := f set.provenance } := by
  unfold Node.setAt
  dsimp only
  cases Path.write n.scope (v.rebind n.scope) path n.entries <;> rfl

theorem overlay_withProvenance (c : Config) (f : Provenance → Provenance) (slot : Slot) (proposal : Proposal) :
    (c.withProvenance f).overlay slot proposal = (c.overlay slot proposal).map (·.withProvenance f) := by
  have hfind : (c.withProvenance f).find? slot = c.find? slot := by cases slot <;> rfl
  unfold overlay
  rw [hfind]
  cases coerce proposal (c.find? slot) with
  | error e => rfl
  | ok v =>
    cases slot with
    | global name => rfl
    | key path =>
      show ((Node.setAt _ path v).map _) = ((Node.setAt _ path v).map _).map _
      rw [withProvenance, Node.setAt_withProvenance]
      cases c.tree.setAt path v <;> rfl

/-- The slots that arguments create. -/
def created (c : Config) (arguments : Arguments) : List Slot :=
  arguments.filterMap fun switch => (c.slot? switch.1).filter fun slot => (c.find? slot).isNone

theorem created_append (c : Config) (done : Arguments) (switch : String × List String) :
    c.created (done ++ [switch]) =
      c.created done ++ ((c.slot? switch.1).filter fun slot => (c.find? slot).isNone).toList := by
  rw [created, List.filterMap_append, List.filterMap_cons, created]
  cases (c.slot? switch.1).filter fun slot => (c.find? slot).isNone <;> rfl

theorem exists_of_mem_created {done : Arguments} (h : slot ∈ c.created done) :
    ∃ switch ∈ done, c.slot? switch.1 = some slot := by
  obtain ⟨switch, hswitch, hslot⟩ := List.mem_filterMap.mp h
  exact ⟨switch, hswitch, (Option.filter_eq_some_iff.mp hslot).1⟩

theorem nodup_created {arguments : Arguments} (h : Ordered.Distinct arguments) : (c.created arguments).Nodup := by
  induction arguments with
  | nil => exact List.nodup_nil
  | cons switch rest ih =>
    obtain ⟨hfresh, hrest⟩ := Ordered.distinct_cons.mp h
    rw [created, List.filterMap_cons]
    split
    · exact ih hrest
    · next slot hslot =>
      refine List.nodup_cons.mpr ⟨fun hmem => ?_, ih hrest⟩
      obtain ⟨other, hother, hs⟩ := exists_of_mem_created hmem
      exact hfresh (slot?_injective (Option.filter_eq_some_iff.mp hslot).1 hs ▸ List.mem_map_of_mem hother)

/-- No slot that arguments create lies below a mapping that is empty. -/
def FillsNone (c : Config) (arguments : Arguments) : Prop := ∀ slot ∈ c.created arguments, c.NoneEmptyAbove slot

theorem overwrite_nil (c : Config) : c.overwrite [] = c := by
  have hid : ∀ slot, c.overwritten [] slot = id := fun slot => by
    funext old
    rw [overwritten, switchFor?_of_fresh (by simp)]
    rfl
  have hleaves : Path.mapLeaves (fun path => c.overwritten [] (.key path)) c.tree.entries = c.tree.entries := by
    simp only [hid]
    exact Path.mapLeaves_id c.tree.entries
  rw [overwrite, hleaves]
  simp [hid]

/-- What is known after a run of switches, for it to be undone: what it created is recorded, it emptied no
mapping, and dropping what it created leaves what it overwrote. -/
structure SwitchesUndone (c : Config) (done : Arguments) (after : Config) : Prop extends
    SwitchesDone c done after where
  proper : after.Proper
  recorded : after.provenance.fromArguments.map c.slot? = (c.created done).map some
  emptied : ∀ path, Path.children? path after.tree.entries = some [] → Path.children? path c.tree.entries = some []
  restored : c.FillsNone done →
    (c.created done).foldl drop after = (c.overwrite done).withProvenance fun _ => after.provenance

theorem SwitchesUndone.start (hc : c.Proper) (hnone : c.provenance.fromArguments = []) : SwitchesUndone c [] c where
  toSwitchesDone := SwitchesDone.start c
  proper := hc
  recorded := by rw [hnone]; rfl
  emptied := fun _ => id
  restored := fun _ => by rw [overwrite_nil]; rfl

/-- What arguments created is there after them. -/
theorem SwitchesDone.isSome_of_created {done : Arguments} (h : SwitchesDone c done after)
    (hslot : slot ∈ c.created done) : (after.leaf? slot).isSome := by
  obtain ⟨switch, hswitch, hs⟩ := exists_of_mem_created hslot
  obtain ⟨v, -, hv⟩ := h.switched switch hswitch slot hs
  rw [hv]
  rfl

theorem emptied_overlay {proposal : Proposal} (hroot : slot ≠ .key []) (h : c.overlay slot proposal = .ok c')
    {path : List String} (hempty : Path.children? path c'.tree.entries = some []) :
    Path.children? path c.tree.entries = some [] := by
  obtain ⟨v, hv, hput⟩ := overlay_eq_ok_iff.mp h
  have hflat := flat_coerce hv
  cases slot with
  | key target =>
    obtain ⟨written, hwritten, rfl⟩ := (put_key_eq_ok_iff hflat).mp hput
    exact Path.children?_eq_nil_of_write hflat.isNode (by simpa using hroot) hwritten hempty
  | global name =>
    obtain rfl := Except.ok.inj hput
    exact hempty

section step

variable {done : Arguments} {switch : String × List String} (hnew : switch.1 ∉ Ordered.keys done)

include hnew

/-- A new switch names a slot that no switch created. -/
theorem ne_of_mem_created (hslot : c.slot? switch.1 = some slot) : ∀ s ∈ c.created done, s ≠ slot := by
  rintro s hs rfl
  obtain ⟨other, hother, hs⟩ := exists_of_mem_created hs
  exact slot?_ne_of_fresh hnew hslot other hother hs

variable (h : SwitchesUndone c done before)

include h

theorem SwitchesUndone.pipeline (hslot : c.slot? switch.1 = none) (hok : before.overlaySwitch switch = .ok after) :
    SwitchesUndone c (done ++ [switch]) after := by
  have hdone := h.toSwitchesDone.step hnew hok
  obtain ⟨parameters, rfl⟩ :=
    overlaySwitch_of_slot?_eq_none ((congrFun (slot?_congr h.keeps.scope) switch.1).trans hslot) hok
  have hcreated : c.created (done ++ [switch]) = c.created done := by
    rw [created_append, hslot]
    exact List.append_nil _
  refine ⟨hdone, ⟨h.proper.entries, h.proper.globals⟩, hcreated ▸ h.recorded, h.emptied, fun hfills => ?_⟩
  rw [FillsNone, hcreated] at hfills
  rw [hcreated, foldl_drop_withProvenance, h.restored hfills, overwrite_append_of_new (by simp [hslot])]
  rfl

theorem SwitchesUndone.existing (hc : c.Proper) {old : Value} (hslot : c.slot? switch.1 = some slot)
    (hold : c.leaf? slot = some old) (hthere : before.leaf? slot = some old)
    (hok : before.overlaySwitch switch = .ok after) :
    SwitchesUndone c (done ++ [switch]) after := by
  have hdone := h.toSwitchesDone.step hnew hok
  rw [overlaySwitch_eq ((congrFun (slot?_congr h.keeps.scope) _).trans hslot), find?_of_leaf? hthere] at hok
  obtain ⟨changed, hchanged, rfl⟩ := map_eq_ok_iff.mp hok
  rw [Option.isSome_some, if_pos rfl] at hdone ⊢
  obtain ⟨v, hv, -⟩ := overlay_eq_ok_iff.mp hchanged
  rw [find?_of_leaf? hthere] at hv
  have hcreated : c.created (done ++ [switch]) = c.created done := by
    rw [created_append, hslot, Option.filter_some, find?_of_leaf? hold]
    exact List.append_nil _
  have hprovenance := provenance_overlay hchanged
  refine ⟨hdone, proper_overlay h.proper hchanged, ?_, fun path hempty => h.emptied path ?_, fun hfills => ?_⟩
  · rw [hprovenance, hcreated]
    exact h.recorded
  · exact emptied_overlay (slot?_ne_root hslot) hchanged hempty
  · rw [FillsNone, hcreated] at hfills
    have hapart : ∀ s ∈ c.created done, s.Apart slot := fun s hs =>
      apart_of_leaf? (h.isSome_of_created hs) (by rw [hthere]; rfl) (ne_of_mem_created hnew hslot s hs)
    have hover := overlay_foldl_drop hapart h.proper hthere hchanged
    rw [h.restored hfills, overlay_withProvenance,
      overlay_overwrite hslot hc (slot?_ne_of_fresh hnew hslot) hold hv] at hover
    rw [hcreated, ← Except.ok.inj hover, hprovenance]

theorem SwitchesUndone.creating (hslot : c.slot? switch.1 = some slot) (hnone : c.find? slot = none)
    (hthere : before.find? slot = none) (hok : before.overlaySwitch switch = .ok after) :
    SwitchesUndone c (done ++ [switch]) after := by
  have hdone := h.toSwitchesDone.step hnew hok
  rw [overlaySwitch_eq ((congrFun (slot?_congr h.keeps.scope) _).trans hslot), hthere] at hok
  obtain ⟨changed, hchanged, rfl⟩ := map_eq_ok_iff.mp hok
  rw [if_neg (by simp)] at hdone ⊢
  have hcreated : c.created (done ++ [switch]) = c.created done ++ [slot] := by
    rw [created_append, hslot, Option.filter_some, hnone]
    rfl
  have hprovenance := provenance_overlay hchanged
  have hproper := proper_overlay h.proper hchanged
  refine ⟨hdone, ⟨hproper.entries, hproper.globals⟩, ?_, fun path hempty => h.emptied path ?_, fun hfills => ?_⟩
  · have hname : switch.1 ∉ before.provenance.fromArguments := fun hmem => by
      have hslots := List.mem_map_of_mem (f := c.slot?) hmem
      rw [h.recorded, hslot] at hslots
      obtain ⟨s, hs, hsome⟩ := List.mem_map.mp hslots
      exact ne_of_mem_created hnew hslot s hs (Option.some.inj hsome)
    show (changed.provenance.record switch.1).fromArguments.map c.slot? = _
    rw [hprovenance, Provenance.record, if_neg hname, List.map_append, h.recorded, hcreated, List.map_append,
      List.map_singleton, hslot, List.map_singleton]
  · exact emptied_overlay (slot?_ne_root hslot) hchanged hempty
  · rw [FillsNone, hcreated, List.forall_mem_append] at hfills
    obtain ⟨hbefore, hhere⟩ := hfills
    have hundone : changed.drop slot = before :=
      drop_overlay h.proper (slot?_ne_root hslot) hthere
        (fun path hpath above hprefix hempty =>
          hhere slot (List.mem_singleton_self _) path hpath above hprefix (h.emptied above hempty)) hchanged
    have hapart : ∀ s ∈ c.created done, s.Apart slot := fun s hs =>
      apart_of_leaf? (hdone.isSome_of_created (hcreated ▸ List.mem_append_left _ hs))
        (hdone.isSome_of_created (hcreated ▸ List.mem_append_right _ (List.mem_singleton_self _)))
        (ne_of_mem_created hnew hslot s hs)
    rw [hcreated, foldl_drop_withProvenance, List.foldl_append, List.foldl_cons, List.foldl_nil,
      foldl_drop_comm hapart, hundone, h.restored hbefore, overwrite_append_of_new, ← hprovenance]
    · rfl
    · intro s hs
      rw [← Option.some.inj (hslot.symm.trans hs), hnone]

end step

/-- **What is known after a run of switches, for it to be undone.** -/
theorem switchesUndone_of_each {arguments : Arguments} (hc : c.Proper) (hnone : c.provenance.fromArguments = [])
    (hdistinct : Ordered.Distinct arguments) (h : Attempt.each overlaySwitch c arguments = ⟨c', none⟩) :
    SwitchesUndone c arguments c' := by
  refine Attempt.each_induction (SwitchesUndone.start hc hnone) ?_ h
  intro done switch rest before after hitems hdone hstep
  have hnew := not_mem_keys_of_distinct (hitems ▸ hdistinct)
  cases hslot : c.slot? switch.1 with
  | none => exact hdone.pipeline hnew hslot hstep
  | some slot =>
    have hstep' := hstep
    rw [overlaySwitch_eq ((congrFun (slot?_congr hdone.keeps.scope) _).trans hslot)] at hstep'
    obtain ⟨changed, hchanged, -⟩ := map_eq_ok_iff.mp hstep'
    obtain ⟨v, hv, -⟩ := overlay_eq_ok_iff.mp hchanged
    have hnode := isNode_of_overlay hv
    -- The slot is now as it was at the start.
    have hstart := hdone.keeps.find?_eq_leaf? hnode
    have hbefore := (Extends.refl before).find?_eq_leaf? hnode
    have hsame := hdone.others slot (slot?_ne_root hslot) (slot?_ne_of_fresh hnew hslot)
    cases hold : c.leaf? slot with
    | none => exact hdone.creating hnew hslot (hstart.trans hold) (hbefore.trans (hsame.trans hold)) hstep
    | some old => exact hdone.existing hnew hc hslot hold (hsame.trans hold) hstep

/-! ## What is saved -/

theorem arguments_overlaySwitch {switch : String × List String} (h : c.overlaySwitch switch = .ok c') :
    c'.provenance.arguments = c.provenance.arguments := by
  cases hslot : c.slot? switch.1 with
  | none =>
    obtain ⟨parameters, rfl⟩ := overlaySwitch_of_slot?_eq_none hslot h
    rfl
  | some slot =>
    obtain ⟨changed, hchanged, rfl⟩ := map_eq_ok_iff.mp (overlaySwitch_eq hslot ▸ h)
    have hprovenance := congrArg Provenance.arguments (provenance_overlay hchanged)
    split
    · exact hprovenance
    · rw [← hprovenance]
      show (changed.provenance.record switch.1).arguments = _
      rw [Provenance.record]
      split <;> rfl

/-- Overlaying arguments is a run of the switches that are parsed by then. -/
theorem updateFromArguments_run {processArguments : List String} {arguments : Arguments}
    (h : c.updateFromArguments processArguments = ⟨c', none⟩)
    (harguments : c'.provenance.arguments = some arguments) :
    Attempt.each overlaySwitch (c.withProvenance ({ · with arguments := some arguments })) arguments = ⟨c', none⟩ := by
  have hkept : ∀ {start : Config} {switches : Arguments}, start.provenance.arguments = some switches →
      Attempt.each overlaySwitch start switches = ⟨c', none⟩ → switches = arguments := by
    intro start switches hstart hrun
    have hsame := Attempt.each_induction
      (motive := fun _ after => after.provenance.arguments = start.provenance.arguments)
      rfl (fun _ _ _ _ _ _ hbefore hstep => (arguments_overlaySwitch hstep).trans hbefore) hrun
    exact Option.some.inj (hstart.symm.trans (hsame.symm.trans harguments))
  unfold updateFromArguments overlayParsed at h
  split at h
  · next switches hswitches =>
    rw [hswitches] at h
    obtain rfl := hkept hswitches h
    have hsame : c.withProvenance ({ · with arguments := some switches }) = c := by
      rw [← hswitches]
      rfl
    rw [hsame]
    exact h
  · obtain ⟨parsed, hparsed, hrun⟩ := Attempt.andThen_eq_iff.mp h
    obtain ⟨switches, rfl, -⟩ := parseArguments_eq_ok (Attempt.ofResult_eq_iff.mp hparsed)
    obtain rfl := hkept rfl hrun
    exact hrun

theorem persisted_eq {kept : Config} (h : c.withoutCreated = .ok kept) (includeGlobals : Bool) :
    c.persisted { includeGlobals, includeFromArguments := false } = .ok (kept.toDocument includeGlobals) := by
  show (c.withoutCreated >>= fun kept => pure (kept.toDocument includeGlobals)) = _
  rw [h]
  rfl

/-- What is saved of a mapping that was empty and in which arguments created something. -/
theorem SwitchesUndone.fillsNone_of_saved {arguments : Arguments} (h : SwitchesUndone c arguments after)
    (hsaved : Value.toFields ((c.created arguments).foldl drop after).tree.entries =
      Value.toFields (c.overwrite arguments).tree.entries) : c.FillsNone arguments := by
  rintro slot hslot path rfl above hprefix hempty
  -- The mapping is empty in what should be saved, so it is in what is, and was before slots were dropped.
  have hoverwrite : Path.children? above (c.overwrite arguments).tree.entries = some [] := by
    rw [overwrite, Path.children?_mapLeaves (keepsLeaves_overwritten c arguments), hempty]
    rfl
  have hkept := Path.children?_eq_nil_of_toFields hsaved.symm hoverwrite
  have hafter : ∀ (slots : List Slot) (d : Config), d.Proper →
      Path.children? above (slots.foldl drop d).tree.entries = some [] →
      Path.children? above d.tree.entries = some [] := by
    intro slots
    induction slots with
    | nil => exact fun _ _ => id
    | cons first rest ih =>
      intro d hd hnil
      have hdrop := ih (d.drop first) (proper_drop hd) hnil
      cases first with
      | key path => exact Path.children?_eq_nil_of_prune hd.entries hdrop
      | global name => exact hdrop
  have hnil := hafter _ after h.proper hkept
  -- But the leaf that was created below it is there.
  obtain ⟨v, hv⟩ := Option.isSome_iff_exists.mp (h.isSome_of_created hslot)
  obtain ⟨hfind, hleaf⟩ := Path.leaf?_eq_some_iff.mp hv
  obtain ⟨rest, rfl⟩ := hprefix
  by_cases hrest : rest = []
  · rw [hrest, List.append_nil] at hfind
    rw [Path.children?, hfind, Option.bind_some, Value.entries?_eq_none_iff.mpr hleaf] at hnil
    contradiction
  · have habove : above ≠ [] := by
      rintro rfl
      simp at hnil
    rw [Path.find?_append habove hrest, hnil, Option.bind_some, Path.find?_empty] at hfind
    contradiction

/-- What is written without globals tells the plain forms of entries apart. -/
theorem fields_of_toDocument (hc : Ordered.Distinct c.tree.entries) (hc' : Ordered.Distinct c'.tree.entries)
    (h : c.toDocument false = c'.toDocument false) : c.fields = c'.fields := by
  have hwritten : ∀ {d : Config}, Ordered.Distinct d.tree.entries → d.toDocument false = .mapping d.fields := by
    intro d hd
    rw [Ordered.Distinct, ← Value.keys_toFields] at hd
    exact congrArg Document.mapping (Ordered.ofList_of_distinct hd)
  rw [hwritten hc, hwritten hc'] at h
  exact Document.mapping.inj h

theorem distinct_overwrite (hc : Ordered.Distinct c.tree.entries) (arguments : Arguments) :
    Ordered.Distinct (c.overwrite arguments).tree.entries := by
  show Ordered.Distinct (Path.mapLeaves _ c.tree.entries)
  rwa [Ordered.Distinct, Path.keys_mapLeaves]

/-- **What is saved without what arguments created is what was there before, with the values of the arguments,
exactly if the arguments created nothing in a mapping that was empty.** This is so of the configuration that is left
to be saved, of its plain form and of what is written; without the globals in front, that is enough to tell. -/
theorem withoutCreated_updateFromArguments_iff {processArguments : List String} {arguments : Arguments}
    (hc : c.Proper) (hnone : c.provenance.fromArguments = [])
    (h : c.updateFromArguments processArguments = ⟨c', none⟩)
    (harguments : c'.provenance.arguments = some arguments) (hdistinct : Ordered.Distinct arguments) :
    ∃ kept : Config, c'.withoutCreated = .ok kept ∧
      (∀ includeGlobals, c'.persisted { includeGlobals, includeFromArguments := false } =
        .ok (kept.toDocument includeGlobals)) ∧
      (kept.fields = (c.overwrite arguments).fields ∧ kept.globalFields = (c.overwrite arguments).globalFields ↔
        c.FillsNone arguments) ∧
      (c.FillsNone arguments → ∀ includeGlobals, c'.persisted { includeGlobals, includeFromArguments := false } =
        .ok ((c.overwrite arguments).toDocument includeGlobals)) ∧
      (c'.persisted { includeGlobals := false, includeFromArguments := false } =
        .ok ((c.overwrite arguments).toDocument false) → c.FillsNone arguments) := by
  have hrun := updateFromArguments_run h harguments
  generalize hstart : c.withProvenance ({ · with arguments := some arguments }) = start at hrun
  have hundone : SwitchesUndone start arguments c' :=
    switchesUndone_of_each (hstart ▸ ⟨hc.entries, hc.globals⟩) (hstart ▸ hnone) hdistinct hrun
  have hkept : c'.withoutCreated = .ok ((start.created arguments).foldl drop c') := by
    refine foldlM_dropCreated hundone.proper ?_ (nodup_created hdistinct) fun slot => hundone.isSome_of_created
    rw [slot?_congr hundone.keeps.scope]
    exact hundone.recorded
  subst hstart
  have hrestored : c.FillsNone arguments → ∀ includeGlobals,
      c'.persisted { includeGlobals, includeFromArguments := false } =
        .ok ((c.overwrite arguments).toDocument includeGlobals) := by
    intro hfills includeGlobals
    rw [persisted_eq hkept, hundone.restored hfills]
    rfl
  refine ⟨_, hkept, persisted_eq hkept, ⟨fun hsaved => hundone.fillsNone_of_saved hsaved.1, fun hfills => ?_⟩,
    hrestored, fun hwritten => ?_⟩
  · rw [hundone.restored hfills]
    exact ⟨rfl, rfl⟩
  · rw [persisted_eq hkept] at hwritten
    exact hundone.fillsNone_of_saved (fields_of_toDocument (proper_foldl_drop _ hundone.proper).entries.1
      (distinct_overwrite hc.entries.1 arguments) (Except.ok.inj hwritten))

/-- What arguments created beside an entry is not saved, the entry is. -/
theorem persisted_of_shared_parent :
    ∃ c', (ofEntries {} [("d", .mapping [("h", .null)])]).updateFromArguments ["prog", "--d.x", "y"] = ⟨c', none⟩ ∧
      c'.persisted { includeFromArguments := false } = .ok (.mapping [("d", .mapping [("h", .null)])]) := by
  have hproper : ProperEntries [("d", .node .loose {} [("h", .null)])] := by
    simp [ProperEntries, Value.Proper, Value.Everywhere, Value.EverywhereEntries, Ordered.keys, Ordered.Distinct]
  have hrun : (ofEntries {} [("d", .mapping [("h", .null)])]).updateFromArguments ["prog", "--d.x", "y"] =
      ⟨⟨⟨.loose, { arguments := some [("", ["prog"]), ("d.x", ["y"])], fromArguments := ["d.x"] },
        [("d", .mapping [("h", .null), ("x", .str "y")])]⟩, []⟩, none⟩ := rfl
  have hfills : (ofEntries {} [("d", .mapping [("h", .null)])]).FillsNone [("", ["prog"]), ("d.x", ["y"])] := by
    rintro slot hslot path rfl above hprefix hempty
    have hcreated : Slot.key path ∈ [Slot.key ["d", "x"]] := hslot
    obtain rfl := Slot.key.inj (List.mem_singleton.mp hcreated)
    rcases List.prefix_cons_iff.mp hprefix with rfl | ⟨tail, rfl, htail⟩
    · simp at hempty
    rcases List.prefix_cons_iff.mp htail with rfl | ⟨rest, rfl, hrest⟩
    · have hchildren : some [("h", Value.null)] = some [] := hempty
      simp at hchildren
    · obtain rfl := List.prefix_nil.mp hrest
      have hchildren : none = some [] := hempty
      simp at hchildren
  obtain ⟨kept, -, -, -, hsaved, -⟩ := withoutCreated_updateFromArguments_iff
    (c := ofEntries {} [("d", .mapping [("h", .null)])]) ⟨hproper, ProperEntries.nil⟩ rfl hrun rfl (by decide)
  exact ⟨_, hrun, hsaved hfills true⟩

/-- A mapping that was empty is not saved once arguments have created something in it. -/
theorem persisted_of_empty_parent :
    ∃ c', (ofEntries {} [("a", .mapping [])]).updateFromArguments ["prog", "--a.b", "x"] = ⟨c', none⟩ ∧
      c'.persisted { includeFromArguments := false } = .ok (.mapping []) ∧
      ((ofEntries {} [("a", .mapping [])]).overwrite [("", ["prog"]), ("a.b", ["x"])]).toDocument true =
        .mapping [("a", .mapping [])] := by
  have hrun : (ofEntries {} [("a", .mapping [])]).updateFromArguments ["prog", "--a.b", "x"] =
      ⟨⟨⟨.loose, { arguments := some [("", ["prog"]), ("a.b", ["x"])], fromArguments := ["a.b"] },
        [("a", .mapping [("b", .str "x")])]⟩, []⟩, none⟩ := rfl
  exact ⟨_, hrun, rfl, rfl⟩

end Config

end LayeredConfig
