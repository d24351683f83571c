import LayeredConfig.Arguments
import LayeredConfig.Node
import Mathlib.Data.List.Basic

/-!
# Keys as texts

Splitting a text into segments loses nothing: joining them with dots gives the text back, so different
texts are different paths. Not every path is the path of a text: the dots that join its segments have to
be free, and those in them not (`splitKey_text_iff`). The names that switches give to globals are
different for different texts as well. Where keys are not split, a key is its text as one segment, and
reads the same.
-/

namespace LayeredConfig

theorem intercalate_consFirst (c : Char) {segments : List (List Char)} (h : segments ≠ []) :
    ['.'].intercalate (consFirst c segments) = c :: ['.'].intercalate segments := by
  cases segments with
  | nil => exact absurd rfl h
  | cons segment rest => cases rest <;> simp [consFirst, List.intercalate, List.intersperse]

theorem intercalate_splitDots (escaped : Bool) (cs : List Char) :
    ['.'].intercalate (splitDots escaped cs) = cs := by
  induction cs generalizing escaped with
  | nil => rfl
  | cons c rest ih =>
    rw [splitDots]
    split
    · next h =>
      obtain ⟨segment, segments, hsplit⟩ := List.exists_cons_of_ne_nil (splitDots_ne_nil false rest)
      have hrest := ih false
      rw [hsplit] at hrest ⊢
      rw [← hrest, h.1]
      simp [List.intercalate, List.intersperse]
    · rw [intercalate_consFirst c (splitDots_ne_nil _ _), ih]

theorem toList_dotted (segments : List String) :
    (dotted segments).toList = ['.'].intercalate (segments.map String.toList) := by
  induction segments with
  | nil => rfl
  | cons segment rest ih =>
    cases rest with
    | nil => simp [dotted, List.intercalate]
    | cons next rest =>
      rw [dotted, String.toList_append, String.toList_append, ih]
      · simp [List.intercalate]
      · simp

/-- The dotted form of a split text is the text. -/
theorem dotted_splitKey (text : String) : dotted (splitKey text) = text := by
  rw [← String.toList_inj, toList_dotted, splitKey, List.map_map]
  have hid : String.toList ∘ String.ofList = id := funext fun cs => String.toList_ofList
  rw [hid, List.map_id, intercalate_splitDots]

theorem splitKey_injective : Function.Injective splitKey := fun a b h => by
  rw [← dotted_splitKey a, h, dotted_splitKey]

theorem eq_singleton_of_begins {α : Type} {xs : List α} {a : α} (hne : xs ≠ []) (h : xs <+: [a]) : xs = [a] := by
  obtain ⟨tail, rfl, htail⟩ := (List.prefix_cons_iff.mp h).resolve_left hne
  rw [List.prefix_nil.mp htail]

/-! ## Which paths can be split again -/

/-- Whether a backslash stands right before what follows some characters; `escaped` tells of what goes before them. -/
def endsEscaping (escaped : Bool) (cs : List Char) : Bool :=
  (cs.getLast?.map (· == '\\')).getD escaped

/-- Every dot in some characters comes right after a backslash; `escaped` tells of what goes before them. -/
def DotsEscaped (escaped : Bool) (cs : List Char) : Prop :=
  ∀ before after, cs = before ++ '.' :: after → endsEscaping escaped before = true

/-- Segments in which no dot is free, and between which all dots will be. There is at least one segment. -/
def Separable (escaped : Bool) : List (List Char) → Prop
  | [] => False
  | [segment] => DotsEscaped escaped segment
  | segment :: rest => DotsEscaped escaped segment ∧ endsEscaping escaped segment = false ∧ Separable false rest

section

variable {escaped : Bool} {c : Char} {cs segment : List Char} {rest segments : List (List Char)}

theorem endsEscaping_eq_true_iff : endsEscaping false segment = true ↔ segment.getLast? = some '\\' := by
  cases h : segment.getLast? with
  | none => simp [endsEscaping, h]
  | some c => simp [endsEscaping, h]

theorem endsEscaping_cons : endsEscaping escaped (c :: cs) = endsEscaping (c == '\\') cs := by
  rw [endsEscaping, endsEscaping, List.getLast?_cons]
  cases cs.getLast? <;> rfl

theorem separable_cons_iff (h : rest ≠ []) :
    Separable escaped (segment :: rest) ↔
      DotsEscaped escaped segment ∧ endsEscaping escaped segment = false ∧ Separable false rest := by
  rw [Separable]
  exact h

theorem dotsEscaped_nil : DotsEscaped escaped [] := by
  intro before after h
  simp at h

theorem dotsEscaped_cons_iff :
    DotsEscaped escaped (c :: cs) ↔ ¬ (c = '.' ∧ escaped = false) ∧ DotsEscaped (c == '\\') cs := by
  constructor
  · intro h
    refine ⟨?_, fun before after hcs => ?_⟩
    · rintro ⟨rfl, rfl⟩
      exact absurd (h [] cs rfl) (by simp [endsEscaping])
    · rw [← endsEscaping_cons]
      exact h (c :: before) after (by rw [hcs, List.cons_append])
  · rintro ⟨hfirst, h⟩ before after hsplit
    cases before with
    | nil =>
      obtain ⟨rfl, -⟩ := List.cons.inj hsplit
      simpa [endsEscaping] using hfirst
    | cons b before =>
      obtain ⟨rfl, hcs⟩ := List.cons.inj hsplit
      rw [endsEscaping_cons]
      exact h before after hcs

/-- The first character goes into the state that the rest is read in. -/
theorem separable_cons_cons_iff :
    Separable escaped ((c :: cs) :: rest) ↔ ¬ (c = '.' ∧ escaped = false) ∧ Separable (c == '\\') (cs :: rest) := by
  by_cases hrest : rest = []
  · subst hrest
    exact dotsEscaped_cons_iff
  · rw [separable_cons_iff hrest, separable_cons_iff hrest, dotsEscaped_cons_iff, endsEscaping_cons, and_assoc]

theorem separable_nil_cons_iff (h : rest ≠ []) :
    Separable escaped ([] :: rest) ↔ escaped = false ∧ Separable false rest := by
  rw [separable_cons_iff h]
  exact and_iff_right dotsEscaped_nil

theorem separable_splitDots (escaped : Bool) (cs : List Char) : Separable escaped (splitDots escaped cs) := by
  induction cs generalizing escaped with
  | nil => exact dotsEscaped_nil
  | cons c cs ih =>
    rw [splitDots]
    split
    · next hdot => exact (separable_nil_cons_iff (splitDots_ne_nil false cs)).mpr ⟨hdot.2, ih false⟩
    · next hdot =>
      obtain ⟨segment, rest, hsplit⟩ := List.exists_cons_of_ne_nil (splitDots_ne_nil (c == '\\') cs)
      rw [hsplit, consFirst, separable_cons_cons_iff, ← hsplit]
      exact ⟨hdot, ih (c == '\\')⟩

theorem splitDots_intercalate (h : Separable escaped segments) :
    splitDots escaped (['.'].intercalate segments) = segments := by
  -- Along the segments, and in each along its characters, which is the order that they are read in.
  induction segments generalizing escaped with
  | nil => exact absurd h id
  | cons segment rest ih =>
    induction segment generalizing escaped with
    | nil =>
      cases rest with
      | nil => rfl
      | cons next rest =>
        obtain ⟨hescaped, hrest⟩ := (separable_nil_cons_iff (List.cons_ne_nil next rest)).mp h
        rw [List.intercalate_cons_cons, List.nil_append, List.singleton_append, splitDots, if_pos ⟨rfl, hescaped⟩,
          ih hrest]
    | cons c cs ihcs =>
      obtain ⟨hdot, hcs⟩ := separable_cons_cons_iff.mp h
      have hjoin := intercalate_consFirst c (List.cons_ne_nil cs rest)
      rw [consFirst] at hjoin
      rw [hjoin, splitDots, if_neg hdot, ihcs hcs, consFirst]

theorem splitDots_intercalate_iff :
    splitDots escaped (['.'].intercalate segments) = segments ↔ Separable escaped segments :=
  ⟨fun heq => heq ▸ separable_splitDots escaped _, splitDots_intercalate⟩

theorem Separable.of_append {tail : List (List Char)} (h : Separable escaped (segments ++ tail)) (hne : segments ≠ []) :
    Separable escaped segments := by
  induction segments generalizing escaped with
  | nil => exact absurd rfl hne
  | cons segment rest ih =>
    by_cases hrest : rest = []
    · subst hrest
      cases tail with
      | nil => exact h
      | cons next tail => exact ((separable_cons_iff (List.cons_ne_nil next tail)).mp h).1
    · obtain ⟨hdots, hend, hbelow⟩ := (separable_cons_iff (List.append_ne_nil_of_left_ne_nil hrest tail)).mp h
      exact (separable_cons_iff hrest).mpr ⟨hdots, hend, ih hbelow hrest⟩

/-- Where nothing goes before, the first segment is read like the others. -/
theorem separable_false_iff (h : segments ≠ []) :
    Separable false segments ↔
      (∀ segment ∈ segments, DotsEscaped false segment) ∧
        ∀ segment ∈ segments.dropLast, segment.getLast? ≠ some '\\' := by
  induction segments with
  | nil => exact absurd rfl h
  | cons segment rest ih =>
    by_cases hrest : rest = []
    · subst hrest
      simp [Separable]
    · rw [separable_cons_iff hrest, ih hrest, List.dropLast_cons_of_ne_nil hrest, List.forall_mem_cons,
        List.forall_mem_cons, ← Bool.not_eq_true, endsEscaping_eq_true_iff]
      tauto

end

theorem splitKey_dotted_iff {path : List String} :
    splitKey (dotted path) = path ↔ Separable false (path.map String.toList) := by
  rw [splitKey, toList_dotted, ← splitDots_intercalate_iff]
  constructor
  · intro h
    conv_rhs => rw [← h]
    simp [Function.comp_def]
  · intro h
    rw [h]
    simp [Function.comp_def]

/-- What a split text begins with is split in the same way by itself: where a text is split depends only on what goes
before. -/
theorem splitKey_dotted_of_begins {path : List String} {text : String} (hne : path ≠ []) (h : path <+: splitKey text) :
    splitKey (dotted path) = path := by
  obtain ⟨tail, htail⟩ := h
  have hseparable : Separable false ((splitKey text).map String.toList) :=
    splitKey_dotted_iff.mp (congrArg splitKey (dotted_splitKey text))
  rw [← htail, List.map_append] at hseparable
  exact splitKey_dotted_iff.mpr (hseparable.of_append (by simpa using hne))

/-- **A text and its path are two forms of the same thing.** The dotted form of what a text denotes is the text, and so
denotes the same again; a path can be read off its dotted form exactly if every dot in a segment comes right after a
backslash of that segment, and no segment but the last ends with a backslash. -/
theorem splitKey_text_iff :
    (∀ text, dotted (splitKey text) = text ∧ Key.parse (Key.parse text).text = Key.parse text) ∧
    ∀ key : Key, splitKey key.text = key.segments ↔
      (∀ segment ∈ key.segments, ∀ before after, segment.toList = before ++ '.' :: after →
        before.getLast? = some '\\') ∧
      ∀ segment ∈ key.parents, segment.toList.getLast? ≠ some '\\' := by
  refine ⟨fun text => ⟨dotted_splitKey text, congrArg Key.parse (dotted_splitKey text)⟩, fun key => ?_⟩
  have hne : key.segments.map String.toList ≠ [] := by simpa using key.ne_nil
  rw [Key.text, splitKey_dotted_iff, separable_false_iff hne, ← List.map_dropLast, Key.parents]
  simp only [List.forall_mem_map, DotsEscaped, endsEscaping_eq_true_iff]

/-! ## Switches -/

namespace Config

theorem switchPath_dotted_of_begins (c : Config) {path : List String} {switch : String} (hne : path ≠ [])
    (h : path <+: c.switchPath switch) : c.switchPath (dotted path) = path := by
  unfold switchPath at h ⊢
  split
  · next hcompound =>
    rw [if_pos hcompound] at h
    rw [eq_singleton_of_begins hne h]
    rfl
  · next hcompound =>
    rw [if_neg hcompound] at h
    exact splitKey_dotted_of_begins hne h

theorem switchPath_ne_nil (c : Config) (switch : String) : c.switchPath switch ≠ [] := by
  unfold switchPath
  split
  · simp
  · exact splitKey_ne_nil switch

theorem switchPath_injective (c : Config) : Function.Injective c.switchPath := by
  intro a b h
  unfold switchPath at h
  split at h
  · exact List.singleton_inj.mp h
  · exact splitKey_injective h

/-- The key that a switch spells is resolved to the path of the switch. -/
theorem segments_resolve_parse (c : Config) (switch : String) :
    (c.tree.resolve (.parse switch)).segments = c.switchPath switch := by
  unfold Node.resolve switchPath
  split
  · show [dotted (splitKey switch)] = [switch]
    rw [dotted_splitKey]
  · rfl

end Config

theorem Arguments.globalName?_eq_some {switch name : String} (h : globalName? switch = some name) :
    switch.toList = '{' :: (name.toList ++ ['}']) := by
  unfold globalName? at h
  split at h
  · next rest heq =>
    split at h
    · next hbraces =>
      rw [heq, ← Option.some.inj h, String.toList_ofList]
      obtain ⟨hlast, -⟩ := hbraces
      rw [List.dropLast_append_getLast? _ hlast]
    · contradiction
  · contradiction

theorem Arguments.globalName?_injective {a b name : String} (ha : globalName? a = some name)
    (hb : globalName? b = some name) : a = b := by
  rw [← String.toList_inj, globalName?_eq_some ha, globalName?_eq_some hb]

end LayeredConfig
