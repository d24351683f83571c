import LayeredConfig.Proofs.PathTable
import LayeredConfig.Proofs.Slot

/-!
# The names of variables

A variable for a slot is named like it: by the dotted form of the path or by the global in braces, after the
prefix and up to case where the environment does not tell cases apart (`Slot.name`). So where the names of an
environment are distinct, the slot determines the text, whatever else the configuration and the options hold
(`var?_of_mem_overlays`).
-/

namespace LayeredConfig

namespace Environment

variable {env : Environment} {a b name front rest text : String}

/-! ## Names up to case -/

/-- A name as the environment compares it. -/
def folded (env : Environment) (name : String) : List Char :=
  if env.caseInsensitive then name.toList.map Char.toLower else name.toList

theorem sameName_iff : env.sameName a b = true ↔ env.folded a = env.folded b := by
  unfold sameName folded
  split
  · exact agreeUpToCase_iff a.toList b.toList
  · rw [beq_iff_eq, String.toList_inj]

theorem folded_append (env : Environment) (a b : String) : env.folded (a ++ b) = env.folded a ++ env.folded b := by
  unfold folded
  split <;> simp

theorem restAfter?_eq_some {same : Char → Char → Bool} {f : Char → Char}
    (hsame : ∀ a b, same a b = true → f a = f b) {ps cs rest : List Char} (h : restAfter? same ps cs = some rest) :
    cs.map f = ps.map f ++ rest.map f := by
  induction ps generalizing cs with
  | nil =>
    obtain rfl := Option.some.inj h
    rfl
  | cons p ps ih =>
    cases cs with
    | nil => contradiction
    | cons c cs =>
      rw [restAfter?] at h
      by_cases hchar : same p c = true
      · rw [if_pos hchar] at h
        rw [List.map_cons, List.map_cons, ih h, hsame p c hchar, List.cons_append]
      · rw [if_neg hchar] at h
        contradiction

theorem folded_of_afterPrefix? (h : env.afterPrefix? front name = some rest) :
    env.folded name = env.folded (front ++ rest) := by
  obtain ⟨cs, hcs, rfl⟩ := Option.map_eq_some_iff.mp h
  rw [folded_append]
  unfold folded
  cases hcase : env.caseInsensitive with
  | true =>
    simp only [hcase, if_true] at hcs ⊢
    rw [String.toList_ofList]
    exact restAfter?_eq_some (fun a b hab => beq_iff_eq.mp hab) hcs
  | false =>
    simp only [hcase, Bool.false_eq_true, if_false] at hcs ⊢
    rw [String.toList_ofList]
    simpa using restAfter?_eq_some (f := id) (fun a b hab => beq_iff_eq.mp hab) hcs

theorem restAfter?_append {same : Char → Char → Bool} (hsame : ∀ a, same a a = true) (ps cs : List Char) :
    restAfter? same ps (ps ++ cs) = some cs := by
  induction ps with
  | nil => rfl
  | cons p ps ih => rw [List.cons_append, restAfter?, if_pos (hsame p), ih]

theorem afterPrefix?_append (env : Environment) (front rest : String) :
    env.afterPrefix? front (front ++ rest) = some rest := by
  unfold afterPrefix?
  dsimp only
  rw [String.toList_append, restAfter?_append]
  · simp
  · intro a
    split <;> simp

/-! ## Reading variables -/

/-- No two variables have the same name to the environment. -/
def Distinct (env : Environment) : Prop := (env.vars.map fun entry => env.folded entry.1).Nodup

instance (env : Environment) : Decidable env.Distinct :=
  inferInstanceAs (Decidable (env.vars.map fun entry => env.folded entry.1).Nodup)

theorem var?_congr (h : env.folded a = env.folded b) : env.var? a = env.var? b := by
  have hsame : (fun entry : String × String => env.sameName entry.1 a) = fun entry => env.sameName entry.1 b := by
    funext entry
    rw [Bool.eq_iff_iff, sameName_iff, sameName_iff, h]
  rw [var?, var?, hsame]

/-- Where names are distinct, a name is that of one variable. -/
theorem var?_eq_some_iff (hd : env.Distinct) :
    env.var? name = some text ↔ ∃ entry ∈ env.vars, env.folded entry.1 = env.folded name ∧ entry.2 = text := by
  rw [var?, Option.map_eq_some_iff]
  constructor
  · rintro ⟨entry, hfind, rfl⟩
    have hsame := List.find?_some hfind
    exact ⟨entry, List.mem_of_find?_eq_some hfind, sameName_iff.mp hsame, rfl⟩
  · rintro ⟨entry, hentry, hname, rfl⟩
    have hsome : (env.vars.find? fun entry => env.sameName entry.1 name).isSome :=
      List.find?_isSome.mpr ⟨entry, hentry, sameName_iff.mpr hname⟩
    obtain ⟨found, hfound⟩ := Option.isSome_iff_exists.mp hsome
    have hsame := List.find?_some hfound
    have hfolded : env.folded found.1 = env.folded entry.1 := (sameName_iff.mp hsame).trans hname.symm
    have heq := List.inj_on_of_nodup_map hd (List.mem_of_find?_eq_some hfound) hentry hfolded
    exact ⟨found, hfound, heq ▸ rfl⟩

end Environment

/-! ## The names of slots -/

/-- The name that a slot goes by: the dotted form of its path, or the global in braces. -/
def Slot.name : Slot → String
  | .key path => dotted path
  | .global name => "\x7b" ++ name ++ "\x7d"

def Target.slot : Target → Slot
  | .key path => .key path
  | .global name _ => .global name

theorem slot_name_of_globalName? {switch global : String} (h : Arguments.globalName? switch = some global) :
    (Slot.global global).name = switch := by
  rw [← String.toList_inj, Arguments.globalName?_eq_some h]
  simp [Slot.name]

theorem dotted_of_mem_pathTable {entries : Entries} {entry : String × List String} (h : entry ∈ pathTable entries) :
    entry.2 ∈ Path.all entries ∧ dotted entry.2 = entry.1 :=
  mem_of_lookup_pathTable (Ordered.lookup_of_mem (distinct_pathTable entries) h)

namespace Config

variable {c : Config} {env : Environment} {options : EnvOptions} {name rest : String} {o : Overlay} {slot : Slot}

theorem dotted_switchPath (c : Config) (switch : String) : dotted (c.switchPath switch) = switch := by
  unfold switchPath
  split
  · rfl
  · exact dotted_splitKey switch

theorem reached?_eq_some {target : Target} (h : c.reached? target = some slot) : slot = target.slot := by
  cases target with
  | key path => exact (Option.some.inj h).symm
  | global name create => exact (reached?_global_iff.mp h).1

/-! ## The names of targets -/

theorem namedTarget_name (c : Config) (name : String) :
    (c.namedTarget name).slot.name = name ∧ (c.namedTarget name).slot ≠ .key [] := by
  unfold namedTarget
  cases hglobal : Arguments.globalName? name with
  | some global => exact ⟨slot_name_of_globalName? hglobal, by simp [Target.slot]⟩
  | none =>
    cases hlookup : c.tree.recursiveKeys.lookup name with
    | none => exact ⟨dotted_switchPath c name, fun h => switchPath_ne_nil c name (Slot.key.inj h)⟩
    | some path =>
      obtain ⟨hmem, hname⟩ := mem_of_lookup_pathTable hlookup
      exact ⟨hname, fun h => Path.ne_nil_of_mem_all hmem (Slot.key.inj h)⟩

theorem knownTargets_name {candidate : String × Target} (h : candidate ∈ c.knownTargets) :
    candidate.2.slot.name = candidate.1 ∧ candidate.2.slot ≠ .key [] := by
  unfold knownTargets at h
  rcases List.mem_append.mp h with hkey | hglobal
  · obtain ⟨entry, hentry, rfl⟩ := List.mem_map.mp hkey
    obtain ⟨hmem, hname⟩ := dotted_of_mem_pathTable (List.mem_filter.mp hentry).1
    exact ⟨hname, fun h => Path.ne_nil_of_mem_all hmem (Slot.key.inj h)⟩
  · obtain ⟨entry, -, rfl⟩ := List.mem_map.mp hglobal
    exact ⟨rfl, by simp [Target.slot]⟩

theorem prefixedTarget_name (c : Config) (env : Environment) (rest : String) :
    env.folded (c.prefixedTarget env rest).slot.name = env.folded rest ∧
      (c.prefixedTarget env rest).slot ≠ .key [] := by
  unfold prefixedTarget
  cases hglobal : Arguments.globalName? rest with
  | some global => exact ⟨congrArg env.folded (slot_name_of_globalName? hglobal), by simp [Target.slot]⟩
  | none =>
    cases hfind : c.tree.recursiveKeys.find? fun entry => env.sameName entry.1 rest with
    | none => exact ⟨rfl, by simp [Target.slot]⟩
    | some entry =>
      obtain ⟨hmem, hname⟩ := dotted_of_mem_pathTable (List.mem_of_find?_eq_some hfind)
      have hsame := List.find?_some hfind
      have hfolded := (congrArg env.folded hname).trans (Environment.sameName_iff.mp hsame)
      exact ⟨hfolded, fun h => Path.ne_nil_of_mem_all hmem (Slot.key.inj h)⟩

/-- Where cases are told apart, a table is read under the name itself. -/
theorem prefixedTarget_of_sensitive (h : env.caseInsensitive = false) (c : Config) (rest : String) :
    c.prefixedTarget env rest =
      match Arguments.globalName? rest with
      | some global => .global global true
      | none => .key ((c.tree.recursiveKeys.lookup rest).getD [rest]) := by
  unfold prefixedTarget
  cases Arguments.globalName? rest with
  | some global => rfl
  | none =>
    have hsame : (fun entry : String × List String => env.sameName entry.1 rest) = fun entry => entry.1 == rest := by
      funext entry
      simp [Environment.sameName, h]
    rw [hsame, Ordered.lookup_eq_find?]
    cases c.tree.recursiveKeys.find? fun entry => entry.1 == rest <;> rfl

/-! ## The text for a slot -/

theorem var?_of_mem_prefixedVars {front text : String} (hd : env.Distinct)
    (h : (name, rest, text) ∈ prefixedVars env options front) : env.var? (front ++ rest) = some text := by
  unfold prefixedVars at h
  split at h
  · obtain ⟨other, -, hvar⟩ := List.mem_filterMap.mp h
    obtain ⟨found, hfound, heq⟩ := Option.map_eq_some_iff.mp hvar
    obtain ⟨-, rfl, rfl⟩ := heq
    exact hfound
  · obtain ⟨entry, hentry, hafter⟩ := List.mem_filterMap.mp h
    obtain ⟨found, hfound, heq⟩ := Option.map_eq_some_iff.mp hafter
    obtain ⟨-, rfl, rfl⟩ := heq
    exact (Environment.var?_eq_some_iff hd).mpr ⟨entry, hentry, Environment.folded_of_afterPrefix? hfound, rfl⟩

/-- **What is overlaid at a slot is the text of the variable named like it.** -/
theorem var?_of_mem_overlays (hd : env.Distinct) (h : o ∈ c.overlays env options) :
    env.var? (c.envPrefix options ++ o.target.slot.name) = some o.text ∧ o.target.slot ≠ .key [] := by
  unfold overlays at h
  by_cases hfront : c.envPrefix options = ""
  · rw [if_pos hfront] at h
    unfold plainOverlays at h
    obtain ⟨candidate, hcandidate, ho⟩ := List.mem_filterMap.mp h
    split at ho
    · contradiction
    obtain ⟨text, htext, rfl⟩ := Option.map_eq_some_iff.mp ho
    have hname : candidate.2.slot.name = candidate.1 ∧ candidate.2.slot ≠ .key [] := by
      split at hcandidate
      · obtain ⟨name, -, rfl⟩ := List.mem_map.mp hcandidate
        exact namedTarget_name c name
      · exact knownTargets_name hcandidate
    rw [hfront, String.empty_append, hname.1]
    exact ⟨htext, hname.2⟩
  · rw [if_neg hfront] at h
    unfold prefixedOverlays at h
    obtain ⟨⟨name, rest, text⟩, hvar, ho⟩ := List.mem_filterMap.mp h
    dsimp only at ho
    split at ho
    · contradiction
    obtain rfl := Option.some.inj ho
    obtain ⟨hname, hroot⟩ := prefixedTarget_name c env rest
    refine ⟨?_, hroot⟩
    rw [← var?_of_mem_prefixedVars hd hvar]
    apply Environment.var?_congr
    rw [Environment.folded_append, Environment.folded_append, hname]

end Config

end LayeredConfig
