import LayeredConfig.Config
import LayeredConfig.Proofs.Everywhere
import LayeredConfig.Proofs.Placeholder
import Mathlib

/-!
# Formatting again

Formatting reads a text once. If no global has a brace in its text, all braces of a formatted text are braces of the
text that were left, and formatting it again changes it exactly if it holds the placeholder of a global
(`formatFrom_eq_self_iff`), as each one that is replaced takes two braces away. Such a placeholder is new: its braces
stood in the text, with placeholders between them that had to be replaced first (`encloses_of_holds`). So a text is
formatted for good by the first time unless braces around a placeholder come to enclose the name of a global
(`Globals.Nests`), and a tree unless one of its texts does so (`Config.resolved_again_iff`).
-/

namespace LayeredConfig

theorem BraceFree.count_open {cs : List Char} (h : BraceFree cs) : cs.count '{' = 0 :=
  List.count_eq_zero.mpr h.not_mem_open

namespace Globals

variable {globals : Globals} {cs name : List Char}

/-! ## Placeholders of globals -/

/-- There is a global of a name. -/
def Known (globals : Globals) (name : List Char) : Prop := (globals.lookup (String.ofList name)).isSome

/-- No global has a brace in its text. -/
def Plain (globals : Globals) : Prop := ∀ entry ∈ globals, BraceFree entry.2.toText.toList

theorem Plain.resolve (hplain : globals.Plain) (hknown : globals.Known name) : BraceFree (globals.resolve name) := by
  unfold Globals.resolve
  obtain ⟨value, hvalue⟩ := Option.isSome_iff_exists.mp hknown
  rw [hvalue]
  exact hplain _ (Ordered.mem_of_lookup hvalue)

theorem resolve_of_not_known (h : ¬globals.Known name) : globals.resolve name = placeholder name := by
  unfold resolve
  rw [Option.not_isSome_iff_eq_none.mp h]
  rfl

theorem formatFrom_eq_self (h : ¬Holds globals.Known cs) : formatFrom globals none cs = cs := by
  induction cs using placeholder_induction (fun _ => True) with
  | plain cs hnone => exact formatFrom_of_not_holds globals none (by simp) cs hnone
  | cut before name after hfree _ ihbefore ihafter =>
    have hname : ¬globals.Known name := fun hknown => h ⟨before, name, after, hfree, hknown, rfl⟩
    have hbefore : ¬Holds globals.Known before := fun hholds => h ((hholds.append_right _).append_right _)
    have hafter : ¬Holds globals.Known after := fun hholds => h (hholds.append_left _)
    rw [formatFrom_append_placeholder globals none before after hfree, ihbefore hbefore, ihafter hafter,
      resolve_of_not_known hname]

theorem formatFrom_of_braceFree (h : BraceFree cs) : formatFrom globals none cs = cs :=
  formatFrom_of_not_holds globals none (by simp) cs (not_holds_of_not_mem h.not_mem_open)

/-! ## Counting braces -/

/-- Formatting adds no brace. -/
theorem count_formatFrom_le (hplain : globals.Plain) (cs : List Char) :
    (formatFrom globals none cs).count '{' ≤ cs.count '{' := by
  induction cs using placeholder_induction globals.Known with
  | plain cs hnone => exact Nat.le_of_eq (congrArg _ (formatFrom_eq_self hnone))
  | cut before name after hfree hknown ihbefore ihafter =>
    have hresolve := (hplain.resolve hknown).count_open
    rw [formatFrom_append_placeholder globals none before after hfree]
    simp only [List.count_append, hresolve]
    omega

/-- **A text stays as it is exactly if it holds no placeholder of a global.** -/
theorem formatFrom_eq_self_iff (hplain : globals.Plain) :
    formatFrom globals none cs = cs ↔ ¬Holds globals.Known cs := by
  refine ⟨?_, formatFrom_eq_self⟩
  rintro hself ⟨before, name, after, hfree, hknown, rfl⟩
  -- the placeholder is gone, and with it a brace
  have hcount := congrArg (List.count '{') hself
  have hresolve := (hplain.resolve hknown).count_open
  have hbefore := count_formatFrom_le hplain before
  have hafter := count_formatFrom_le hplain after
  rw [formatFrom_append_placeholder globals none before after hfree] at hcount
  simp only [List.count_append, hresolve, placeholder, List.count_cons_self] at hcount
  omega

/-! ## Braces that are left -/

theorem formatFrom_append_open_of_braceFree (globals : Globals) (before : List Char) (h : BraceFree cs) :
    formatFrom globals none (before ++ '{' :: cs) = formatFrom globals none before ++ '{' :: cs := by
  have hread : BraceFree ([] : List Char) := by simp [BraceFree]
  have hnone : ¬Holds (fun _ => True) (opened (some []) ++ cs) := by
    rintro ⟨front, name, back, -, -, hcut⟩
    have hclose : '}' ∈ opened (some []) ++ cs := by rw [hcut]; simp [placeholder]
    rcases List.mem_append.mp hclose with hmem | hmem
    · simp [opened] at hmem
    · exact h.not_mem_close hmem
  rw [formatFrom_append_open, formatFrom_of_not_holds globals (some []) (by simpa using hread) cs hnone]
  rfl

theorem formatFrom_append_close_of_braceFree (globals : Globals) (after : List Char) (h : BraceFree cs) :
    formatFrom globals none (cs ++ '}' :: after) = cs ++ '}' :: formatFrom globals none after := by
  induction cs with
  | nil => simp [formatFrom]
  | cons c rest ih =>
    obtain ⟨⟨hopen, -⟩, hrest⟩ := List.forall_mem_cons.mp h
    rw [List.cons_append, formatFrom, if_neg hopen, ih hrest, List.cons_append]

/-- An opening brace is left if what follows it comes to have no braces. -/
theorem formatFrom_append_open_of_formatted (globals : Globals) (before : List Char)
    (h : BraceFree (formatFrom globals none cs)) :
    formatFrom globals none (before ++ '{' :: cs) =
      formatFrom globals none before ++ '{' :: formatFrom globals none cs := by
  induction cs using placeholder_induction (fun _ => True) with
  | plain cs hnone =>
    have hself := formatFrom_of_not_holds globals none (by simp) cs hnone
    rw [hself] at h ⊢
    exact formatFrom_append_open_of_braceFree globals before h
  | cut front name back hfree _ ihfront _ =>
    rw [formatFrom_append_placeholder globals none front back hfree] at h ⊢
    rw [braceFree_append, braceFree_append] at h
    have happend : before ++ '{' :: (front ++ placeholder name ++ back) =
        (before ++ '{' :: front) ++ placeholder name ++ back := by simp
    rw [happend, formatFrom_append_placeholder globals none _ back hfree, ihfront h.1.1]
    simp

/-- A closing brace is left if what is before it comes to have no braces. -/
theorem formatFrom_append_close_of_formatted (globals : Globals) (after : List Char)
    (h : BraceFree (formatFrom globals none cs)) :
    formatFrom globals none (cs ++ '}' :: after) =
      formatFrom globals none cs ++ '}' :: formatFrom globals none after := by
  induction cs using placeholder_induction (fun _ => True) with
  | plain cs hnone =>
    have hself := formatFrom_of_not_holds globals none (by simp) cs hnone
    rw [hself] at h ⊢
    exact formatFrom_append_close_of_braceFree globals after h
  | cut front name back hfree _ _ ihback =>
    rw [formatFrom_append_placeholder globals none front back hfree] at h ⊢
    rw [braceFree_append, braceFree_append] at h
    have happend : front ++ placeholder name ++ back ++ '}' :: after =
        front ++ placeholder name ++ (back ++ '}' :: after) := by simp
    rw [happend, formatFrom_append_placeholder globals none front _ hfree, ihback h.2]
    simp

/-! ## Where a brace comes from -/

theorem append_eq_append_cons {xs ys before after : List Char} {c : Char} (h : xs ++ ys = before ++ c :: after) :
    (∃ rest, xs = before ++ c :: rest ∧ after = rest ++ ys) ∨
      ∃ rest, ys = rest ++ c :: after ∧ before = xs ++ rest := by
  induction xs generalizing before with
  | nil => exact Or.inr ⟨before, h, rfl⟩
  | cons x xs ih =>
    cases before with
    | nil =>
      obtain ⟨rfl, hrest⟩ := List.cons.inj h
      exact Or.inl ⟨xs, rfl, hrest.symm⟩
    | cons b before =>
      obtain ⟨rfl, hrest⟩ := List.cons.inj h
      rcases ih hrest with ⟨rest, rfl, hafter⟩ | ⟨rest, hys, rfl⟩
      · exact Or.inl ⟨rest, rfl, hafter⟩
      · exact Or.inr ⟨rest, hys, rfl⟩

/-- A character that the middle of a text does not have is before it or after it. -/
theorem append_eq_append_cons_of_not_mem {xs middle ys before after : List Char} {c : Char} (hc : c ∉ middle)
    (h : xs ++ middle ++ ys = before ++ c :: after) :
    (∃ rest, xs = before ++ c :: rest ∧ after = rest ++ middle ++ ys) ∨
      ∃ rest, ys = rest ++ c :: after ∧ before = xs ++ middle ++ rest := by
  rcases append_eq_append_cons h with ⟨rest, hxs, hafter⟩ | ⟨rest, hys, hbefore⟩
  · rcases append_eq_append_cons hxs with ⟨rest', hxs, hrest⟩ | ⟨rest', hmiddle, -⟩
    · exact Or.inl ⟨rest', hxs, by rw [hafter, hrest]⟩
    · exact absurd (hmiddle ▸ List.mem_append_right rest' List.mem_cons_self) hc
  · exact Or.inr ⟨rest, hys, hbefore⟩

/-- The last opening brace of a formatted text stood in the text. -/
theorem exists_open_of_formatFrom (hplain : globals.Plain) {before after : List Char} (hfree : BraceFree after)
    (h : formatFrom globals none cs = before ++ '{' :: after) :
    ∃ front back, cs = front ++ '{' :: back ∧ formatFrom globals none back = after := by
  induction cs using placeholder_induction globals.Known generalizing before after with
  | plain cs hnone =>
    rw [formatFrom_eq_self hnone] at h
    exact ⟨before, after, h, formatFrom_of_braceFree hfree⟩
  | cut left name right hname hknown ihleft ihright =>
    have hresolve := (hplain.resolve hknown).not_mem_open
    rw [formatFrom_append_placeholder globals none left right hname] at h
    rcases append_eq_append_cons_of_not_mem hresolve h with ⟨rest, hleft, rfl⟩ | ⟨rest, hright, -⟩
    · rw [braceFree_append, braceFree_append] at hfree
      obtain ⟨front, back, rfl, hback⟩ := ihleft hfree.1.1 hleft
      refine ⟨front, back ++ placeholder name ++ right, by simp, ?_⟩
      rw [formatFrom_append_placeholder globals none back right hname, hback]
    · obtain ⟨front, back, rfl, hback⟩ := ihright hfree hright
      exact ⟨left ++ placeholder name ++ front, back, by simp, hback⟩

/-- The first closing brace of a formatted text stood in the text. -/
theorem exists_close_of_formatFrom (hplain : globals.Plain) {before after : List Char} (hfree : BraceFree before)
    (h : formatFrom globals none cs = before ++ '}' :: after) :
    ∃ front back, cs = front ++ '}' :: back ∧ formatFrom globals none front = before := by
  induction cs using placeholder_induction globals.Known generalizing before after with
  | plain cs hnone =>
    rw [formatFrom_eq_self hnone] at h
    exact ⟨before, after, h, formatFrom_of_braceFree hfree⟩
  | cut left name right hname hknown ihleft ihright =>
    have hresolve := (hplain.resolve hknown).not_mem_close
    rw [formatFrom_append_placeholder globals none left right hname] at h
    rcases append_eq_append_cons_of_not_mem hresolve h with ⟨rest, hleft, -⟩ | ⟨rest, hright, rfl⟩
    · obtain ⟨front, back, rfl, hfront⟩ := ihleft hfree hleft
      exact ⟨front, back ++ placeholder name ++ right, by simp, hfront⟩
    · rw [braceFree_append, braceFree_append] at hfree
      obtain ⟨front, back, rfl, hfront⟩ := ihright hfree.2 hright
      refine ⟨left ++ placeholder name ++ front, back, by simp, ?_⟩
      rw [formatFrom_append_placeholder globals none left front hname, hfront]

/-! ## New placeholders -/

/-- Two braces with placeholders between them come to enclose the name of a global. -/
def Encloses (globals : Globals) (cs : List Char) : Prop :=
  ∃ before inner after, cs = before ++ placeholder inner ++ after ∧ ¬BraceFree inner ∧
    BraceFree (formatFrom globals none inner) ∧ globals.Known (formatFrom globals none inner)

theorem Encloses.append_left (h : globals.Encloses cs) (before : List Char) : globals.Encloses (before ++ cs) := by
  obtain ⟨front, inner, after, rfl, hinner⟩ := h
  exact ⟨before ++ front, inner, after, by simp, hinner⟩

theorem Encloses.append_right (h : globals.Encloses cs) (after : List Char) : globals.Encloses (cs ++ after) := by
  obtain ⟨before, inner, back, rfl, hinner⟩ := h
  exact ⟨before, inner, back ++ after, by simp, hinner⟩

theorem Encloses.holds (h : globals.Encloses cs) : Holds globals.Known (formatFrom globals none cs) := by
  obtain ⟨before, inner, after, rfl, hbraces, hfree, hknown⟩ := h
  by_cases hinner : Holds (fun _ => True) inner
  · obtain ⟨left, name, right, hname, -, rfl⟩ := hinner
    have happend : before ++ placeholder (left ++ placeholder name ++ right) ++ after =
        (before ++ '{' :: left) ++ placeholder name ++ (right ++ '}' :: after) := by simp [placeholder]
    rw [formatFrom_append_placeholder globals none left right hname] at hfree hknown
    obtain ⟨⟨hleft, -⟩, hright⟩ := (braceFree_append.trans (and_congr_left' braceFree_append)).mp hfree
    refine ⟨formatFrom globals none before, _, formatFrom globals none after, hfree, hknown, ?_⟩
    rw [happend, formatFrom_append_placeholder globals none _ _ hname,
      formatFrom_append_open_of_formatted globals before hleft,
      formatFrom_append_close_of_formatted globals after hright]
    simp [placeholder]
  · rw [formatFrom_of_not_holds globals none (by simp) inner hinner] at hfree
    exact absurd hfree hbraces

/-- What is left of two braces encloses the texts between them as they are after formatting. -/
theorem encloses_of_both_sides (hplain : globals.Plain) {left right before front back after : List Char}
    (hfree : BraceFree name) (hinner : BraceFree (front ++ resolve globals name ++ back))
    (hknown : globals.Known (front ++ resolve globals name ++ back))
    (hleft : formatFrom globals none left = before ++ '{' :: front)
    (hright : formatFrom globals none right = back ++ '}' :: after) :
    globals.Encloses (left ++ placeholder name ++ right) := by
  obtain ⟨⟨hfront, -⟩, hback⟩ := (braceFree_append.trans (and_congr_left' braceFree_append)).mp hinner
  obtain ⟨before, left, rfl, rfl⟩ := exists_open_of_formatFrom hplain hfront hleft
  obtain ⟨right, after, rfl, rfl⟩ := exists_close_of_formatFrom hplain hback hright
  refine ⟨before, left ++ placeholder name ++ right, after, by simp [placeholder], ?_, ?_, ?_⟩
  · exact fun hbraces => hbraces.not_mem_open (by simp [placeholder])
  · rwa [formatFrom_append_placeholder globals none left right hfree]
  · rwa [formatFrom_append_placeholder globals none left right hfree]

theorem encloses_of_holds (hplain : globals.Plain) (h : Holds globals.Known (formatFrom globals none cs)) :
    globals.Encloses cs := by
  induction cs using placeholder_induction globals.Known with
  | plain cs hnone =>
    rw [formatFrom_eq_self hnone] at h
    exact absurd h hnone
  | cut left known right hfree hknown ihleft ihright =>
    have hresolve := hplain.resolve hknown
    obtain ⟨before, name, after, hname, hglobal, hcut⟩ := h
    rw [formatFrom_append_placeholder globals none left right hfree, append_placeholder] at hcut
    -- the replaced text has no braces, so each of the two is left of it or right of it
    rcases append_eq_append_cons_of_not_mem hresolve.not_mem_open hcut with ⟨front, hleft, hrest⟩ | ⟨front, hright, -⟩
    · rcases append_eq_append_cons_of_not_mem hresolve.not_mem_close hrest.symm with
        ⟨back, rfl, -⟩ | ⟨back, hright, rfl⟩
      · have hholds : Holds globals.Known (formatFrom globals none left) :=
          ⟨before, name, back, hname, hglobal, by rw [hleft, append_placeholder]⟩
        exact ((ihleft hholds).append_right _).append_right _
      · exact encloses_of_both_sides hplain hfree hname hglobal hleft hright
    · have hholds : Holds globals.Known (formatFrom globals none right) :=
        ⟨front, name, after, hname, hglobal, by rw [hright, append_placeholder]⟩
      exact (ihright hholds).append_left _

/-- **A formatted text is formatted for good unless braces around placeholders came to enclose a name.** -/
theorem formatFrom_formatFrom_iff (hplain : globals.Plain) (cs : List Char) :
    formatFrom globals none (formatFrom globals none cs) = formatFrom globals none cs ↔ ¬globals.Encloses cs := by
  rw [formatFrom_eq_self_iff hplain]
  exact not_congr ⟨encloses_of_holds hplain, Encloses.holds⟩

/-! ## Texts -/

/-- Two braces of a text, with placeholders between them, come to enclose the name of a global. -/
def Nests (globals : Globals) (text : String) : Prop :=
  ∃ before inner after : String, text = before ++ braced inner ++ after ∧ ¬BraceFree inner.toList ∧
    BraceFree (globals.format inner).toList ∧ (globals.lookup (globals.format inner)).isSome

theorem encloses_toList_iff {text : String} : globals.Encloses text.toList ↔ globals.Nests text := by
  constructor
  · rintro ⟨before, inner, after, htext, hbraces, hfree, hknown⟩
    refine ⟨.ofList before, .ofList inner, .ofList after, ?_, ?_, ?_, ?_⟩
    · rw [← String.toList_inj, htext]
      simp [toList_braced]
    · rwa [String.toList_ofList]
    · rwa [format, String.toList_ofList, String.toList_ofList]
    · rwa [format, String.toList_ofList]
  · rintro ⟨before, inner, after, rfl, hbraces, hfree, hknown⟩
    refine ⟨before.toList, inner.toList, after.toList, by simp [toList_braced], hbraces, ?_, hknown⟩
    rwa [format, String.toList_ofList] at hfree

theorem format_format_iff (hplain : globals.Plain) (text : String) :
    globals.format (globals.format text) = globals.format text ↔ ¬globals.Nests text := by
  rw [← encloses_toList_iff, ← formatFrom_formatFrom_iff hplain, format, format, String.toList_ofList,
    String.ofList_inj]

/-! ## Values -/

mutual

/-- A value is formatted for good by the first time exactly if each of its texts is. -/
theorem substitute_substitute_iff (globals : Globals) : (v : Value) →
    (globals.substitute (globals.substitute v) = globals.substitute v ↔
      v.Everywhere (fun leaf => ∀ text, leaf = .str text →
        globals.format (globals.format text) = globals.format text) fun _ => True)
  | .str s => by simp [substitute, Value.Everywhere]
  | .list items => by
    rw [substitute, substitute, Value.Everywhere, ← substituteList_substituteList_iff globals items, Value.list.injEq]
  | .node scope provenance entries => by
    rw [substitute, substitute, Value.Everywhere, ← substituteEntries_substituteEntries_iff globals entries]
    simp
  | .null | .bool _ | .int _ | .float _ => by simp [substitute, Value.Everywhere]

theorem substituteList_substituteList_iff (globals : Globals) : (items : List Value) →
    (globals.substituteList (globals.substituteList items) = globals.substituteList items ↔
      Value.EverywhereItems (fun leaf => ∀ text, leaf = .str text →
        globals.format (globals.format text) = globals.format text) (fun _ => True) items)
  | [] => by simp [substituteList, Value.EverywhereItems]
  | v :: rest => by
    rw [substituteList, substituteList, Value.EverywhereItems, ← substitute_substitute_iff globals v,
      ← substituteList_substituteList_iff globals rest, List.cons.injEq]

theorem substituteEntries_substituteEntries_iff (globals : Globals) : (entries : Entries) →
    (globals.substituteEntries (globals.substituteEntries entries) = globals.substituteEntries entries ↔
      Value.EverywhereEntries (fun leaf => ∀ text, leaf = .str text →
        globals.format (globals.format text) = globals.format text) (fun _ => True) entries)
  | [] => by simp [substituteEntries, Value.EverywhereEntries]
  | (key, v) :: rest => by
    rw [substituteEntries, substituteEntries, Value.EverywhereEntries, ← substitute_substitute_iff globals v,
      ← substituteEntries_substituteEntries_iff globals rest, List.cons.injEq, Prod.mk.injEq, eq_self_iff_true,
      true_and]

end

end Globals

namespace Config

/-- **Where no global has a brace in its text, a text is formatted for good by the first time unless two of its braces
come to enclose the name of a global, and so the tree resolved once is resolved for good unless such a text is in
it.** -/
theorem resolved_again_iff (c : Config) (hplain : c.globals.Plain) :
    (∀ text, c.globals.format (c.globals.format text) = c.globals.format text ↔ ¬c.globals.Nests text) ∧
      (c.resolved.resolved = c.resolved ↔
        Value.EverywhereEntries (fun leaf => ∀ text, leaf = .str text → ¬c.globals.Nests text) (fun _ => True)
          c.tree.entries) := by
  have hformat := Globals.format_format_iff hplain
  refine ⟨hformat, ?_⟩
  have hentries := Globals.substituteEntries_substituteEntries_iff c.globals c.tree.entries
  simp only [hformat] at hentries
  rw [← hentries]
  obtain ⟨⟨scope, provenance, entries⟩, globals⟩ := c
  simp [resolved]

/-- Braces that come to enclose a name that no global has. -/
theorem resolved_again_unknown_name :
    let c : Config := ⟨⟨.loose, {}, [("a", .list [.str "\x7ba\x7bx\x7d\x7d\x7b"])]⟩, [("x", .str "b")]⟩
    c.globals.Plain ∧ c.globals.format "\x7ba\x7bx\x7d\x7d\x7b" = "\x7bab\x7d\x7b" ∧
      ¬c.globals.Nests "\x7ba\x7bx\x7d\x7d\x7b" ∧ c.resolved.resolved = c.resolved := by
  intro c
  have hplain : c.globals.Plain := by
    simp [c, Globals.Plain, Value.toText, BraceFree]
  obtain ⟨htext, htree⟩ := resolved_again_iff c hplain
  have hnests : ¬c.globals.Nests "\x7ba\x7bx\x7d\x7d\x7b" := (htext _).mp (by cbv)
  refine ⟨hplain, by cbv, hnests, htree.mpr ?_⟩
  simpa [c, Value.EverywhereEntries, Value.Everywhere, Value.EverywhereItems] using hnests

/-- Braces that come to enclose the name of another global: the text is formatted again, and the tree is another one. -/
theorem resolved_again_differs :
    let c : Config := ⟨⟨.loose, {}, [("t", .str "\x7ba\x7bx\x7d\x7d")]⟩, [("x", .str "b"), ("ab", .str "z")]⟩
    c.globals.Plain ∧ c.globals.format "\x7ba\x7bx\x7d\x7d" = "\x7bab\x7d" ∧
      c.globals.format (c.globals.format "\x7ba\x7bx\x7d\x7d") = "z" ∧
      c.resolved.resolved.tree.same c.resolved.tree = false := by
  intro c
  have hplain : c.globals.Plain := by
    simp [c, Globals.Plain, Value.toText, BraceFree]
  exact ⟨hplain, by cbv, by cbv, by cbv⟩

end Config

end LayeredConfig
