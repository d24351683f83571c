import LayeredConfig.Files
import Mathlib.Data.List.Basic

/-!
# Files under their paths

A path leads to the names at which `locate` ends. A file that is added gets exactly these names
(`names_intercalate`), and stands in a directory that was there already: each name on the way was checked
when it was passed (`Entered`). So a write makes no path lead anywhere else (`locate_fill`), the path
written holds the new content, and every path that leads elsewhere what it held (`find?_fill`).
-/

namespace LayeredConfig.Files

variable {files written : Files} {path : String} {target here rest : List String} {content : FileContent}

/-! ## Names -/

/-- A step of a path that counts: not empty, not a single dot, without a slash. -/
structure IsStep (name : String) : Prop where
  ne_empty : name ≠ ""
  ne_dot : name ≠ "."
  slash_free : '/' ∉ name.toList

theorem splitAt_append_slash {cs : List Char} (h : '/' ∉ cs) (more : List Char) :
    steps.splitAt (cs ++ '/' :: more) = cs :: steps.splitAt more := by
  induction cs with
  | nil => simp [steps.splitAt]
  | cons c cs ih =>
    rw [List.mem_cons, not_or] at h
    obtain ⟨hc, hcs⟩ := h
    rw [List.cons_append, steps.splitAt, if_neg (Ne.symm hc), ih hcs]

theorem splitAt_of_slash_free {cs : List Char} (h : '/' ∉ cs) : steps.splitAt cs = [cs] := by
  induction cs with
  | nil => rfl
  | cons c cs ih =>
    rw [List.mem_cons, not_or] at h
    obtain ⟨hc, hcs⟩ := h
    rw [steps.splitAt, if_neg (Ne.symm hc), ih hcs]

theorem slash_free_of_mem_splitAt {cs : List Char} : ∀ step ∈ steps.splitAt cs, '/' ∉ step := by
  induction cs with
  | nil => simp [steps.splitAt]
  | cons c cs ih =>
    rw [steps.splitAt]
    split
    · exact List.forall_mem_cons.mpr ⟨List.not_mem_nil, ih⟩
    · next hc =>
      split
      · simpa using Ne.symm hc
      · next first others hsplit =>
        rw [hsplit] at ih
        obtain ⟨hfirst, hothers⟩ := List.forall_mem_cons.mp ih
        exact List.forall_mem_cons.mpr ⟨List.not_mem_cons_of_ne_of_not_mem (Ne.symm hc) hfirst, hothers⟩

theorem steps_append_slash {name : String} (h : '/' ∉ name.toList) (more : String) :
    steps (name ++ "/" ++ more) = name :: steps more := by
  rw [steps, String.toList_append, String.toList_append, List.append_assoc]
  show (steps.splitAt (name.toList ++ '/' :: more.toList)).map _ = _
  rw [splitAt_append_slash h, List.map_cons, String.ofList_toList]
  rfl

theorem steps_slash_append (more : String) : steps ("/" ++ more) = "" :: steps more := by
  have h : '/' ∉ "".toList := by decide
  simpa using steps_append_slash h more

/-- Joining names with slashes and splitting them again cancels. -/
theorem steps_intercalate (hne : target ≠ []) (h : ∀ name ∈ target, '/' ∉ name.toList) :
    steps ("/".intercalate target) = target := by
  induction target with
  | nil => contradiction
  | cons name others ih =>
    obtain ⟨hname, hothers⟩ := List.forall_mem_cons.mp h
    cases others with
    | nil => rw [String.intercalate_singleton, steps, splitAt_of_slash_free hname, List.map_singleton,
        String.ofList_toList]
    | cons next others =>
      rw [String.intercalate_cons_cons, steps_append_slash hname, ih (List.cons_ne_nil _ _) hothers]

theorem filter_steps (h : ∀ name ∈ target, IsStep name) :
    (target.filter fun step => step ≠ "" ∧ step ≠ ".") = target :=
  List.filter_eq_self.mpr fun name hname => by simp [(h name hname).ne_empty, (h name hname).ne_dot]

theorem isStep_of_mem {name : String}
    (h : name ∈ (steps path).filter fun step => step ≠ "" ∧ step ≠ ".") : IsStep name := by
  obtain ⟨hmem, hcounts⟩ := List.mem_filter.mp h
  obtain ⟨step, hstep, rfl⟩ := List.mem_map.mp hmem
  obtain ⟨hempty, hdot⟩ := of_decide_eq_true hcounts
  exact ⟨hempty, hdot, by rw [String.toList_ofList]; exact slash_free_of_mem_splitAt step hstep⟩

/-- Names that a path can lead to: steps, below the root or not. -/
def Located (target : List String) : Prop :=
  ∃ plain, (∀ name ∈ plain, IsStep name) ∧ (target = plain ∨ target = rootName :: plain)

theorem Located.snoc {name : String} (h : Located target) (hname : IsStep name) : Located (target ++ [name]) := by
  obtain ⟨plain, hplain, htarget⟩ := h
  refine ⟨plain ++ [name], List.forall_mem_append.mpr ⟨hplain, List.forall_mem_singleton.mpr hname⟩, ?_⟩
  rcases htarget with rfl | rfl
  · exact Or.inl rfl
  · exact Or.inr rfl

theorem startsWith_intercalate (h : ∀ name ∈ target, IsStep name) (hne : target ≠ []) :
    ("/".intercalate target).startsWith "/" = false := by
  obtain ⟨first, others, rfl⟩ := List.exists_cons_of_ne_nil hne
  have hfirst := h first List.mem_cons_self
  obtain ⟨c, cs, hcs⟩ := List.exists_cons_of_ne_nil (String.toList_eq_nil_iff.not.mpr hfirst.ne_empty)
  have hhead : ∃ more, ("/".intercalate (first :: others)).toList = c :: more := by
    cases others <;> simp [String.intercalate_cons_cons, hcs]
  obtain ⟨more, hmore⟩ := hhead
  rw [Bool.eq_false_iff, ne_eq, String.startsWith_string_iff, hmore]
  intro hslashed
  obtain ⟨hc, -⟩ := List.cons_prefix_cons.mp hslashed
  exact hfirst.slash_free (hcs ▸ hc ▸ List.mem_cons_self)

/-- The root joined with steps is a slash and a path of these steps. -/
theorem exists_intercalate_root (h : ∀ name ∈ target, IsStep name) :
    ∃ path, "/".intercalate (rootName :: target) = "/" ++ path ∧
      ((steps path).filter fun step => step ≠ "" ∧ step ≠ ".") = target := by
  cases target with
  | nil => exact ⟨"", by decide, by decide⟩
  | cons first others =>
    refine ⟨"/" ++ "/".intercalate (first :: others), ?_, ?_⟩
    · rw [String.intercalate_cons_cons, rootName, String.append_assoc]
    · rw [steps_slash_append, steps_intercalate (List.cons_ne_nil _ _) fun name hname => (h name hname).slash_free,
        List.filter_cons_of_neg (by decide), filter_steps h]

/-- Names joined with slashes are a path of these names. -/
theorem names_intercalate (h : Located target) (hne : target ≠ []) : names ("/".intercalate target) = target := by
  obtain ⟨plain, hsteps, rfl | rfl⟩ := h
  · rw [names, startsWith_intercalate hsteps hne,
      steps_intercalate hne fun name hname => (hsteps name hname).slash_free, filter_steps hsteps]
    rfl
  · obtain ⟨path, hjoined, hfilter⟩ := exists_intercalate_root hsteps
    rw [hjoined, names, if_pos (String.startsWith_string_iff.mpr (by simp)), steps_slash_append,
      List.filter_cons_of_neg (by decide), hfilter, List.singleton_append]

theorem names_of_isStep {name : String} (h : IsStep name) : names name = [name] := by
  have hlocated : Located [name] := ⟨[name], List.forall_mem_singleton.mpr h, Or.inl rfl⟩
  have hnames := names_intercalate hlocated (List.cons_ne_nil _ _)
  rwa [String.intercalate_singleton] at hnames

/-! ## The way to a path -/

/-- Reversed names on which every directory was found to be one; what two dots lead to is not looked at. -/
inductive Entered (files : Files) : List String → Prop
  | start : Entered files []
  | root : isDirectory files [rootName] → Entered files [rootName]
  | up {here : List String} : Entered files here → Entered files (".." :: here)
  | down {name : String} {here : List String} : IsStep name → isDirectory files (name :: here).reverse →
      Entered files here → Entered files (name :: here)

/-- Reversed names of something in a directory that was entered, of that directory, or of the root. -/
inductive Reached (files : Files) : List String → Prop
  | here {here : List String} : Entered files here → Reached files here
  | root : Reached files [rootName]
  | inside {name : String} {here : List String} : IsStep name → Entered files here → Reached files (name :: here)

theorem isStep_dots : IsStep ".." := ⟨by decide, by decide, by decide⟩

theorem Entered.above (h : Entered files here) : Entered files (above here) := by
  cases h with
  | start => exact .up .start
  | root hroot => exact .root hroot
  | up hbelow => exact .up (.up hbelow)
  | down hname hdirectory hbelow =>
    rw [Files.above]
    split
    · exact .up (.down hname hdirectory hbelow)
    · rw [if_neg fun hroot => hname.slash_free (by rw [hroot]; decide)]
      exact hbelow

theorem reached_of_follow (hrest : ∀ name ∈ rest, IsStep name) (hhere : Entered files here)
    (h : follow files here rest = some target) : Reached files target.reverse := by
  induction rest generalizing here with
  | nil =>
    rw [follow] at h
    rw [← Option.some.inj h, List.reverse_reverse]
    exact .here hhere
  | cons name rest ih =>
    obtain ⟨hname, hrest⟩ := List.forall_mem_cons.mp hrest
    rw [follow] at h
    split at h
    · exact ih hrest hhere.above h
    · split at h
      · next hpass =>
        by_cases hdirectory : isDirectory files (name :: here).reverse
        · exact ih hrest (.down hname hdirectory hhere) h
        · rw [Bool.or_eq_true, or_iff_left hdirectory, List.isEmpty_iff] at hpass
          rw [hpass, follow] at h
          rw [← Option.some.inj h, List.reverse_reverse]
          exact .inside hname hhere
      · contradiction

/-- A path leads to something in a directory that was entered. -/
theorem reached_of_locate (h : locate files path = some target) : Reached files target.reverse := by
  unfold locate names at h
  split at h
  · rw [List.singleton_append, follow, if_neg (by decide)] at h
    split at h
    · next hpass =>
      by_cases hdirectory : isDirectory files [rootName]
      · exact reached_of_follow (fun _ => isStep_of_mem) (.root hdirectory) h
      · rw [List.reverse_singleton, Bool.or_eq_true, or_iff_left hdirectory, List.isEmpty_iff] at hpass
        rw [hpass, follow] at h
        rw [← Option.some.inj h]
        exact .root
    · contradiction
  · exact reached_of_follow (fun _ => isStep_of_mem) .start h

/-- A name by itself leads to a place in the current directory. -/
theorem locate_of_isStep {name : String} (h : IsStep name) (hname : name ≠ "..") : locate files name = some [name] := by
  rw [locate, names_of_isStep h, follow, if_neg hname, if_pos (by simp)]
  rfl

theorem Entered.located (h : Entered files here) : Located here.reverse := by
  induction h with
  | start => exact ⟨[], by simp, Or.inl rfl⟩
  | root => exact ⟨[], by simp, Or.inr rfl⟩
  | up _ ih => rw [List.reverse_cons]; exact ih.snoc isStep_dots
  | down hname _ _ ih => rw [List.reverse_cons]; exact ih.snoc hname

theorem Reached.located (h : Reached files here) : Located here.reverse := by
  cases h with
  | here h => exact h.located
  | root => exact ⟨[], by simp, Or.inr rfl⟩
  | inside hname h => rw [List.reverse_cons]; exact h.located.snoc hname

/-- What was entered on the way is a directory. -/
theorem Entered.isDirectory {name : String} {below : List String} (h : Entered files here)
    (hsuffix : name :: below <:+ here) (hname : name ≠ "..") : isDirectory files (name :: below).reverse := by
  induction h with
  | start => exact absurd (List.suffix_nil.mp hsuffix) (List.cons_ne_nil _ _)
  | root hroot =>
    rcases List.suffix_cons_iff.mp hsuffix with heq | hsuffix
    · rw [heq]; exact hroot
    · exact absurd (List.suffix_nil.mp hsuffix) (List.cons_ne_nil _ _)
  | up _ ih =>
    rcases List.suffix_cons_iff.mp hsuffix with heq | hsuffix
    · exact absurd (List.cons.inj heq).1 hname
    · exact ih hsuffix
  | down _ hdirectory _ ih =>
    rcases List.suffix_cons_iff.mp hsuffix with heq | hsuffix
    · rw [heq]; exact hdirectory
    · exact ih hsuffix

/-- Whatever lies strictly above something that was reached is a directory. -/
theorem Reached.isDirectory_above {name : String} {below : List String} (h : Reached files here)
    (hsuffix : name :: below <:+ here) (hlength : (name :: below).length < here.length) (hname : name ≠ "..") :
    isDirectory files (name :: below).reverse := by
  cases h with
  | here h => exact h.isDirectory hsuffix hname
  | root => simp at hlength
  | inside _ h =>
    rcases List.suffix_cons_iff.mp hsuffix with heq | hsuffix
    · rw [heq] at hlength; exact absurd hlength (Nat.lt_irrefl _)
    · exact h.isDirectory hsuffix hname

/-! ## Writing -/

theorem names_of_mem_put {file : String × FileContent} (h : file ∈ put path target content files)
    (hpath : names path = target) : names file.1 = target ∨ file ∈ files := by
  induction files with
  | nil => rw [List.mem_singleton.mp h]; exact Or.inl hpath
  | cons first others ih =>
    rw [put] at h
    split at h
    · next hfirst =>
      rcases List.mem_cons.mp h with rfl | h
      · exact Or.inl hfirst
      · exact Or.inr (List.mem_cons_of_mem _ h)
    · rcases List.mem_cons.mp h with rfl | h
      · exact Or.inr List.mem_cons_self
      · exact (ih h).imp_right (List.mem_cons_of_mem _)

theorem exists_mem_put (path : String) (target : List String) (content : FileContent)
    {file : String × FileContent} (h : file ∈ files) :
    ∃ kept ∈ put path target content files, names kept.1 = names file.1 := by
  induction files with
  | nil => contradiction
  | cons first others ih =>
    rw [put]
    rcases List.mem_cons.mp h with rfl | h
    · split
      · exact ⟨_, List.mem_cons_self, rfl⟩
      · exact ⟨_, List.mem_cons_self, rfl⟩
    · split
      · exact ⟨file, List.mem_cons_of_mem _ h, rfl⟩
      · obtain ⟨kept, hkept, hnames⟩ := ih h
        exact ⟨kept, List.mem_cons_of_mem _ hkept, hnames⟩

/-- A file in a directory that was entered makes no directory. -/
theorem isDirectory_put (hpath : names path = target) (hreached : Reached files target.reverse) {name : String}
    (hname : name ≠ "..") (below : List String) :
    isDirectory (put path target content files) (name :: below).reverse =
      isDirectory files (name :: below).reverse := by
  rw [Bool.eq_iff_iff]
  constructor
  · intro h
    unfold isDirectory at h
    rw [Bool.or_eq_true, List.any_eq_true] at h
    rcases h with h | ⟨file, hfile, habove⟩
    · simp at h
    · rcases names_of_mem_put hfile hpath with hnames | hfile
      · rw [hnames, Bool.and_eq_true, List.isPrefixOf_iff_prefix, decide_eq_true_eq] at habove
        refine hreached.isDirectory_above ?_ ?_ hname
        · rw [← List.reverse_prefix, List.reverse_reverse]
          exact habove.1
        · simpa using habove.2
      · rw [isDirectory, Bool.or_eq_true, List.any_eq_true]
        exact Or.inr ⟨file, hfile, habove⟩
  · intro h
    unfold isDirectory at h
    rw [Bool.or_eq_true, List.any_eq_true] at h
    rcases h with h | ⟨file, hfile, habove⟩
    · simp at h
    · obtain ⟨kept, hkept, hnames⟩ := exists_mem_put path target content hfile
      rw [isDirectory, Bool.or_eq_true, List.any_eq_true]
      exact Or.inr ⟨kept, hkept, by rw [hnames]; exact habove⟩

theorem follow_congr (h : ∀ name below, name ≠ ".." →
      isDirectory written (name :: below).reverse = isDirectory files (name :: below).reverse)
    (here rest : List String) : follow written here rest = follow files here rest := by
  induction rest generalizing here with
  | nil => rfl
  | cons name rest ih =>
    rw [follow, follow]
    split
    · exact ih _
    · next hname => rw [h name here hname, ih]

theorem find?_put_self (hpath : names path = target) :
    (List.find? (fun file => names file.1 == target) (put path target content files)).map Prod.snd =
      some content := by
  induction files with
  | nil => simp [put, hpath]
  | cons first others ih =>
    rw [put]
    split
    · next hfirst => simp [hfirst]
    · next hfirst => rw [List.find?_cons_of_neg (by simpa using hfirst), ih]

theorem find?_put_of_ne {other : List String} (hpath : names path = target) (hne : other ≠ target) :
    List.find? (fun file => names file.1 == other) (put path target content files) =
      List.find? (fun file => names file.1 == other) files := by
  induction files with
  | nil => simp [put, hpath, hne.symm]
  | cons first others ih =>
    rw [put]
    split
    · next hfirst =>
      rw [List.find?_cons_of_neg (by simp [hfirst, hne.symm]), List.find?_cons_of_neg (by simp [hfirst, hne.symm])]
    · rw [List.find?_cons, List.find?_cons, ih]

theorem put_put (hpath : names path = target) (before after : FileContent) :
    put path target after (put path target before files) = put path target after files := by
  induction files with
  | nil => simp [put, hpath]
  | cons first others ih =>
    by_cases hfirst : names first.1 = target
    · simp [put, hfirst]
    · simp [put, hfirst, ih]

/-- A path at which a file can be written: it has the form of a file's, and leads into a directory, to something
that is none. -/
structure Writable (files : Files) (path : String) : Prop where
  usable : isUsable path
  file : endsAsDirectory path = false
  place : ∃ target, locate files path = some target ∧ target ≠ [] ∧ isDirectory files target = false

theorem place?_eq_some_iff : files.place? path = some target ↔
    isUsable path ∧ endsAsDirectory path = false ∧ locate files path = some target ∧ target ≠ [] ∧
      isDirectory files target = false := by
  unfold place?
  split
  · next hform =>
    rw [Bool.or_eq_true, Bool.not_eq_true'] at hform
    refine iff_of_false (by simp) fun h => ?_
    rcases hform with husable | hfile
    · simp [h.1] at husable
    · simp [h.2.1] at hfile
  · next hform =>
    rw [Bool.or_eq_true, Bool.not_eq_true', not_or, Bool.not_eq_false, Bool.not_eq_true] at hform
    simp [hform, Option.filter_eq_some_iff]

theorem writable_iff : files.Writable path ↔ ∃ target, files.place? path = some target := by
  simp only [place?_eq_some_iff]
  constructor
  · rintro ⟨husable, hfile, target, hplace⟩
    exact ⟨target, husable, hfile, hplace⟩
  · rintro ⟨target, husable, hfile, hplace⟩
    exact ⟨husable, hfile, target, hplace⟩

section

variable (hplace : files.place? path = some target)

include hplace

theorem names_of_place? : names ("/".intercalate target) = target := by
  obtain ⟨-, -, htarget, hne, -⟩ := place?_eq_some_iff.mp hplace
  exact names_intercalate (List.reverse_reverse target ▸ (reached_of_locate htarget).located) hne

/-- What a file was filled with first does not show. -/
theorem fill_fill (before after : FileContent) :
    (files.fill target before).fill target after = files.fill target after :=
  put_put (names_of_place? hplace) before after

/-- After a write every path leads where it led before. -/
theorem locate_fill (content : FileContent) (other : String) :
    (files.fill target content).locate other = files.locate other := by
  have hreached := reached_of_locate (place?_eq_some_iff.mp hplace).2.2.1
  exact follow_congr (fun name below hname => isDirectory_put (names_of_place? hplace) hreached hname below)
    [] (names other)

/-- **What was written is read.** -/
theorem find?_fill (content : FileContent) : (files.fill target content).find? path = some content := by
  obtain ⟨husable, hfile, htarget, -⟩ := place?_eq_some_iff.mp hplace
  rw [find?, if_neg (by simp [husable, hfile]), locate_fill hplace, htarget, Option.bind_some, fill,
    find?_put_self (names_of_place? hplace)]

/-- **A path that leads elsewhere names the file that it named before the write, or still none.** -/
theorem find?_fill_of_ne (content : FileContent) {other : String} (hne : files.locate other ≠ files.locate path) :
    (files.fill target content).find? other = files.find? other := by
  obtain ⟨-, -, htarget, -⟩ := place?_eq_some_iff.mp hplace
  rw [find?, find?, locate_fill hplace]
  split
  · rfl
  · cases hother : locate files other with
    | none => rfl
    | some place =>
      have hplace' : place ≠ target := fun heq => hne (by rw [hother, htarget, heq])
      rw [Option.bind_some, Option.bind_some, fill, find?_put_of_ne (names_of_place? hplace) hplace']

end

end LayeredConfig.Files
