import LayeredConfig.Placeholder
import Mathlib.Data.List.Basic

/-!
# The laws of formatting

Two laws determine what formatting makes of a text (`Globals.format_determined`): a placeholder is replaced by itself,
while what is before it and what is after it are formatted apart from each other, and a text without placeholders is
copied. That is no property of replacing in general: it holds because two placeholders never have a character in
common, so the scanner meets each of them, whatever braces are around it (`formatFrom_append_placeholder`), and nothing
else (`formatFrom_of_not_holds`). The laws are enough since a text either holds no placeholder or is cut by one into
two shorter texts (`placeholder_induction`).
-/

namespace LayeredConfig

/-! ## Placeholders in texts -/

/-- A text without braces. -/
def BraceFree (cs : List Char) : Prop := ∀ c ∈ cs, c ≠ '{' ∧ c ≠ '}'

instance (cs : List Char) : Decidable (BraceFree cs) := List.decidableBAll _ cs

theorem braceFree_append {xs ys : List Char} : BraceFree (xs ++ ys) ↔ BraceFree xs ∧ BraceFree ys :=
  List.forall_mem_append

theorem braceFree_reverse {cs : List Char} : BraceFree cs.reverse ↔ BraceFree cs := by simp [BraceFree]

theorem BraceFree.not_mem_open {cs : List Char} (h : BraceFree cs) : '{' ∉ cs := fun hmem => (h _ hmem).1 rfl

theorem BraceFree.not_mem_close {cs : List Char} (h : BraceFree cs) : '}' ∉ cs := fun hmem => (h _ hmem).2 rfl

/-- A name between braces. -/
def placeholder (name : List Char) : List Char := '{' :: (name ++ ['}'])

theorem append_placeholder (before name after : List Char) :
    before ++ placeholder name ++ after = before ++ '{' :: (name ++ '}' :: after) := by simp [placeholder]

/-- A placeholder of one of some names is a part of the text. -/
def Holds (names : List Char → Prop) (cs : List Char) : Prop :=
  ∃ before name after, BraceFree name ∧ names name ∧ cs = before ++ placeholder name ++ after

theorem Holds.append_left {names : List Char → Prop} {cs : List Char} (h : Holds names cs) (before : List Char) :
    Holds names (before ++ cs) := by
  obtain ⟨front, name, after, hfree, hname, rfl⟩ := h
  exact ⟨before ++ front, name, after, hfree, hname, by simp⟩

theorem Holds.append_right {names : List Char → Prop} {cs : List Char} (h : Holds names cs) (after : List Char) :
    Holds names (cs ++ after) := by
  obtain ⟨before, name, back, hfree, hname, rfl⟩ := h
  exact ⟨before, name, back ++ after, hfree, hname, by simp⟩

/-- A text holds no placeholder of the names, or is cut by one into two shorter texts. -/
@[elab_as_elim]
theorem placeholder_induction (names : List Char → Prop) {motive : List Char → Prop}
    (plain : ∀ cs, ¬Holds names cs → motive cs)
    (cut : ∀ before name after, BraceFree name → names name → motive before → motive after →
      motive (before ++ placeholder name ++ after)) (cs : List Char) : motive cs := by
  induction hlength : cs.length using Nat.strongRecOn generalizing cs with
  | ind n ih =>
    subst hlength
    by_cases h : Holds names cs
    · obtain ⟨before, name, after, hfree, hname, rfl⟩ := h
      have hlength : (before ++ placeholder name ++ after).length =
          before.length + (name.length + 2) + after.length := by
        simp [placeholder]
        omega
      exact cut before name after hfree hname (ih _ (by omega) before rfl) (ih _ (by omega) after rfl)
    · exact plain cs h

namespace Globals

variable {globals : Globals} {name : List Char}

/-! ## What the scanner meets -/

/-- What has been read of a placeholder that may be open. -/
def opened : Option (List Char) → List Char
  | none => []
  | some name => '{' :: name.reverse

theorem formatFrom_nil (globals : Globals) (pending : Option (List Char)) :
    formatFrom globals pending [] = opened pending := by
  cases pending <;> rfl

/-- An opening brace begins anew, whatever has been read before it. -/
theorem formatFrom_append_open (globals : Globals) (pending : Option (List Char)) (before rest : List Char) :
    formatFrom globals pending (before ++ '{' :: rest) =
      formatFrom globals pending before ++ formatFrom globals (some []) rest := by
  induction before generalizing pending with
  | nil => cases pending <;> simp [formatFrom]
  | cons c before ih =>
    rw [List.cons_append]
    cases pending with
    | none =>
      rw [formatFrom, formatFrom]
      split
      · rw [ih]
      · rw [ih, List.cons_append]
    | some read =>
      rw [formatFrom, formatFrom]
      split
      · rw [ih, List.append_assoc]
      · split
        · rw [ih, List.append_assoc]
        · rw [ih]

theorem formatFrom_name (globals : Globals) (read rest : List Char) (hfree : BraceFree name) :
    formatFrom globals (some read) (name ++ '}' :: rest) =
      resolve globals (read.reverse ++ name) ++ formatFrom globals none rest := by
  induction name generalizing read with
  | nil => simp [formatFrom]
  | cons c name ih =>
    obtain ⟨⟨hopen, hclose⟩, hname⟩ := List.forall_mem_cons.mp hfree
    rw [List.cons_append, formatFrom, if_neg hopen, if_neg hclose, ih _ hname]
    simp

/-- **The scanner meets every placeholder**, whatever it has read before. -/
theorem formatFrom_append_placeholder (globals : Globals) (pending : Option (List Char)) (before after : List Char)
    (hfree : BraceFree name) :
    formatFrom globals pending (before ++ placeholder name ++ after) =
      formatFrom globals pending before ++ resolve globals name ++ formatFrom globals none after := by
  rw [append_placeholder, formatFrom_append_open, formatFrom_name globals [] after hfree]
  simp

/-- **The scanner meets nothing else.** -/
theorem formatFrom_of_not_holds (globals : Globals) (pending : Option (List Char))
    (hpending : ∀ read ∈ pending, BraceFree read) (cs : List Char)
    (h : ¬Holds (fun _ => True) (opened pending ++ cs)) :
    formatFrom globals pending cs = opened pending ++ cs := by
  induction cs generalizing pending with
  | nil => rw [formatFrom_nil, List.append_nil]
  | cons c rest ih =>
    by_cases hopen : c = '{'
    · subst hopen
      have hrest : ¬Holds (fun _ => True) (opened (some []) ++ rest) := fun hholds => h (hholds.append_left _)
      have hbegin := formatFrom_append_open globals pending [] rest
      rw [List.nil_append, formatFrom_nil] at hbegin
      rw [hbegin, ih (some []) (by simp [BraceFree]) hrest]
      rfl
    cases pending with
    | none =>
      have hrest : ¬Holds (fun _ => True) (opened none ++ rest) := fun hholds => h (hholds.append_left [c])
      rw [formatFrom, if_neg hopen, ih none (by simp) hrest]
      rfl
    | some read =>
      by_cases hclose : c = '}'
      · subst hclose
        refine absurd ⟨[], read.reverse, rest, braceFree_reverse.mpr (hpending read rfl), trivial, ?_⟩ h
        simp [opened, placeholder]
      · have happend : opened (some read) ++ c :: rest = opened (some (c :: read)) ++ rest := by simp [opened]
        rw [happend] at h ⊢
        rw [formatFrom, if_neg hopen, if_neg hclose]
        refine ih (some (c :: read)) ?_ h
        rintro _ ⟨⟩
        exact List.forall_mem_cons.mpr ⟨⟨hopen, hclose⟩, hpending read rfl⟩

/-! ## The laws -/

/-- A name between braces, as a text. -/
def braced (name : String) : String := "\x7b" ++ name ++ "\x7d"

theorem toList_braced (name : String) : (braced name).toList = placeholder name.toList := by
  simp [braced, placeholder]

theorem holds_toList_iff {names : List Char → Prop} {text : String} :
    Holds names text.toList ↔ ∃ before name after : String, BraceFree name.toList ∧ names name.toList ∧
      text = before ++ braced name ++ after := by
  constructor
  · rintro ⟨before, name, after, hfree, hname, htext⟩
    refine ⟨.ofList before, .ofList name, .ofList after, ?_, ?_, ?_⟩
    · rwa [String.toList_ofList]
    · rwa [String.toList_ofList]
    · rw [← String.toList_inj, htext]
      simp [toList_braced]
  · rintro ⟨before, name, after, hfree, hname, rfl⟩
    exact ⟨before.toList, name.toList, after.toList, hfree, hname, by simp [toList_braced]⟩

/-- The laws of formatting. -/
structure Formats (globals : Globals) (f : String → String) : Prop where
  /-- What stands for a placeholder is put between what is made of the text before it and of the text after it; it is
  not read itself. -/
  cut : ∀ before name after : String, BraceFree name.toList →
    f (before ++ braced name ++ after) =
      f before ++ (match globals.lookup name with
        | some value => value.toText
        | none => braced name) ++ f after
  /-- A text without placeholders is copied. -/
  copied : ∀ text : String,
    (∀ before name after : String, BraceFree name.toList → text ≠ before ++ braced name ++ after) → f text = text

theorem ofList_resolve (globals : Globals) (name : String) :
    String.ofList (resolve globals name.toList) =
      match globals.lookup name with
      | some value => value.toText
      | none => braced name := by
  unfold resolve
  rw [String.ofList_toList]
  cases globals.lookup name with
  | some value => exact String.ofList_toList
  | none => rw [← String.toList_inj, String.toList_ofList, toList_braced]; rfl

theorem formats_format (globals : Globals) : Formats globals globals.format where
  cut before name after hfree := by
    have hcut := formatFrom_append_placeholder globals none before.toList after.toList hfree
    rw [← ofList_resolve, format, String.toList_append, String.toList_append, toList_braced, hcut,
      String.ofList_append, String.ofList_append]
    rfl
  copied text h := by
    have hplain : ¬Holds (fun _ => True) text.toList := by
      rintro hholds
      obtain ⟨before, name, after, hfree, -, htext⟩ := holds_toList_iff.mp hholds
      exact h before name after hfree htext
    rw [format, formatFrom_of_not_holds globals none (by simp) text.toList hplain]
    exact String.ofList_toList

/-- Two functions that keep the laws agree on every text. -/
theorem Formats.eq {f g : String → String} (hf : Formats globals f) (hg : Formats globals g) : f = g := by
  have hlist : ∀ cs : List Char, f (.ofList cs) = g (.ofList cs) := by
    intro cs
    induction cs using placeholder_induction (fun _ => True) with
    | plain cs h =>
      have hplain : ∀ before name after : String, BraceFree name.toList →
          String.ofList cs ≠ before ++ braced name ++ after := by
        intro before name after hfree htext
        refine h (String.toList_ofList (l := cs) ▸ holds_toList_iff.mpr ⟨before, name, after, hfree, trivial, htext⟩)
      rw [hf.copied _ hplain, hg.copied _ hplain]
    | cut before name after hfree _ ihbefore ihafter =>
      have hname : BraceFree (String.ofList name).toList := by rwa [String.toList_ofList]
      have htext : String.ofList (before ++ placeholder name ++ after) =
          .ofList before ++ braced (.ofList name) ++ .ofList after := by
        rw [← String.toList_inj]
        simp [toList_braced]
      rw [htext, hf.cut _ _ _ hname, hg.cut _ _ _ hname, ihbefore, ihafter]
  funext text
  rw [← String.ofList_toList (s := text)]
  exact hlist text.toList

/-- Without globals, copying keeps the laws. -/
theorem formats_nil : Formats [] fun text => text := ⟨fun _ _ _ _ => rfl, fun _ _ => rfl⟩

theorem not_holds_of_not_mem {names : List Char → Prop} {cs : List Char} (h : '{' ∉ cs) : ¬Holds names cs := by
  rintro ⟨before, name, after, -, -, rfl⟩
  simp [placeholder] at h

/-- **Formatting is determined by two laws**: it keeps them, and nothing else does. Where there are no globals, or no
opening brace in the text, it copies. -/
theorem format_determined (globals : Globals) :
    Formats globals globals.format ∧ (∀ f, Formats globals f → f = globals.format) ∧
      ∀ text : String, globals = [] ∨ '{' ∉ text.toList → globals.format text = text := by
  have hformat := formats_format globals
  refine ⟨hformat, fun f hf => hf.eq hformat, ?_⟩
  rintro text (rfl | hbrace)
  · exact congrFun (hformat.eq formats_nil) text
  · have hplain : ¬Holds (fun _ => True) text.toList := not_holds_of_not_mem hbrace
    exact hformat.copied text fun before name after hfree htext =>
      hplain (holds_toList_iff.mpr ⟨before, name, after, hfree, trivial, htext⟩)

/-- A placeholder between lone braces: its text is a placeholder of the other global, and stays so. -/
theorem format_between_lone_braces :
    let globals : Globals := [("alias", .str "\x7bn\x7d"), ("n", .int 3)]
    BraceFree "alias".toList ∧
      globals.format ("\x7b" ++ braced "alias" ++ "\x7d\x7bn") =
        globals.format "\x7b" ++ "\x7bn\x7d" ++ globals.format "\x7d\x7bn" ∧
      (∀ before name after : String, BraceFree name.toList → "\x7d\x7bn" ≠ before ++ braced name ++ after) ∧
      globals.format "\x7d\x7bn" = "\x7d\x7bn" ∧
      '{' ∉ "n\x7d".toList ∧ globals.format "n\x7d" = "n\x7d" := by
  intro globals
  obtain ⟨hformat, -, hcopies⟩ := format_determined globals
  have hfree : BraceFree "alias".toList := by decide
  have hplain : ∀ before name after : String, BraceFree name.toList →
      "\x7d\x7bn" ≠ before ++ braced name ++ after := by
    intro before name after _ htext
    have hchars := congrArg String.toList htext
    simp [toList_braced, placeholder, List.cons_eq_append_iff, List.append_eq_cons_iff] at hchars
  have hbrace : '{' ∉ "n\x7d".toList := by decide
  exact ⟨hfree, hformat.cut _ _ _ hfree, hplain, hformat.copied _ hplain, hbrace, hcopies _ (Or.inr hbrace)⟩

end Globals

end LayeredConfig
