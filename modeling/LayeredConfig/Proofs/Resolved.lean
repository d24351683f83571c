import LayeredConfig.Command
import LayeredConfig.Proofs.Path
import LayeredConfig.Proofs.Run
import Mathlib

/-!
# Printing one value and printing all of them

`print` resolves the whole tree; `get` resolves the value at a key unless it is a mapping, which it prints as it is
stored. At each key the resolved tree has the value there with its placeholders resolved (`getRaw_resolved`), so what
the two print of a key that holds a scalar or a list is the same. Of a mapping it is the same only if no text in it has
a placeholder to resolve (`Globals.toText_substitute_iff`): two compact forms that differ in a text differ, since what
a text is written as does not go on inside what another is written as (`Json.quote_append`).
-/

namespace LayeredConfig

/-! ## Quoted texts -/

namespace Json

variable {c d : Char} {s t : String} {rest rest' : List Char}

/-- The mark after the backslash tells control characters from quotes and backslashes. -/
theorem escapedChar_control : ∀ n < 32, ∃ mark rest, escapedChar (Char.ofNat n) = '\\' :: mark :: rest ∧
    mark ≠ '"' ∧ mark ≠ '\\' := by
  have hmarks : ∀ n < 32, (escapedChar (Char.ofNat n))[0]? = some '\\' ∧
      (escapedChar (Char.ofNat n))[1]?.any fun mark => mark != '"' && mark != '\\' := by decide
  intro n hn
  obtain ⟨hfirst, hmark⟩ := hmarks n hn
  match hcode : escapedChar (Char.ofNat n), hfirst, hmark with
  | first :: mark :: rest, hfirst, hmark =>
    obtain rfl := Option.some.inj hfirst
    exact ⟨mark, rest, rfl, by simpa using hmark⟩

theorem escapedChar_control_inj :
    ∀ m < 32, ∀ n < 32, escapedChar (Char.ofNat m) <+: escapedChar (Char.ofNat n) → m = n := by decide

/-- A character stands for itself inside quotes, or begins with a backslash. -/
theorem escapedChar_cases (c : Char) :
    (escapedChar c = [c] ∧ c ≠ '"' ∧ c ≠ '\\') ∨
      ∃ mark rest, escapedChar c = '\\' :: mark :: rest ∧
        (c = '"' ∧ mark = '"' ∨ c = '\\' ∧ mark = '\\' ∨ c.toNat < 32 ∧ mark ≠ '"' ∧ mark ≠ '\\') := by
  by_cases hquote : c = '"'
  · exact Or.inr ⟨'"', [], by rw [hquote]; rfl, Or.inl ⟨hquote, rfl⟩⟩
  by_cases hslash : c = '\\'
  · exact Or.inr ⟨'\\', [], by rw [hslash]; rfl, Or.inr (Or.inl ⟨hslash, rfl⟩)⟩
  by_cases hcontrol : c.toNat < 32
  · obtain ⟨mark, rest, hcode, hmark⟩ := escapedChar_control c.toNat hcontrol
    rw [Char.ofNat_toNat] at hcode
    exact Or.inr ⟨mark, rest, hcode, Or.inr (Or.inr ⟨hcontrol, hmark⟩)⟩
  refine Or.inl ⟨?_, hquote, hslash⟩
  have hne (control : Char) (h : control.toNat < 32) : c ≠ control := fun he => hcontrol (he ▸ h)
  rw [escapedChar, if_neg hquote, if_neg hslash, if_neg (hne _ (by decide)), if_neg (hne _ (by decide)),
    if_neg (hne _ (by decide)), if_neg (hne _ (by decide)), if_neg (hne _ (by decide)), if_neg hcontrol]

/-- **What a character is written as is not the beginning of what another is written as.** -/
theorem eq_of_escapedChar_begins (h : escapedChar c <+: escapedChar d) : c = d := by
  rcases escapedChar_cases c with ⟨hc, -, hslash⟩ | ⟨mark, rest, hc, hmark⟩ <;>
    rcases escapedChar_cases d with ⟨hd, -, hslash'⟩ | ⟨mark', rest', hd, hmark'⟩
  · simpa [hc, hd] using h
  · simp [hc, hd, hslash] at h
  · simp [hc, hd] at h
  · have hsame : mark = mark' := by
      rw [hc, hd] at h
      exact (List.cons_prefix_cons.mp (List.cons_prefix_cons.mp h).2).1
    subst hsame
    rcases hmark with ⟨rfl, rfl⟩ | ⟨rfl, rfl⟩ | ⟨hcontrol, hquote, hslash⟩
    · simpa [eq_comm] using hmark'
    · simpa [eq_comm] using hmark'
    · obtain ⟨hcontrol', -, -⟩ := (hmark'.resolve_left fun he => hquote he.2).resolve_left fun he => hslash he.2
      rw [← Char.ofNat_toNat c, ← Char.ofNat_toNat d] at h ⊢
      rw [escapedChar_control_inj c.toNat hcontrol d.toNat hcontrol' h]

theorem escapedChar_append (h : escapedChar c ++ rest = escapedChar d ++ rest') : c = d ∧ rest = rest' := by
  have heq : c = d := by
    rcases List.prefix_or_prefix_of_prefix (List.prefix_append (escapedChar c) rest)
      (h ▸ List.prefix_append (escapedChar d) rest') with hprefix | hprefix
    · exact eq_of_escapedChar_begins hprefix
    · exact (eq_of_escapedChar_begins hprefix).symm
  subst heq
  exact ⟨rfl, List.append_cancel_left h⟩

/-- The closing quote does not begin what a character is written as. -/
theorem escapedChar_append_ne (c : Char) (rest rest' : List Char) : escapedChar c ++ rest ≠ '"' :: rest' := by
  rcases escapedChar_cases c with ⟨hc, hquote, -⟩ | ⟨mark, tail, hc, -⟩
  · rw [hc]
    exact fun h => hquote (List.cons.inj h).1
  · rw [hc]
    exact fun h => absurd (List.cons.inj h).1 (by decide)

theorem flatMap_escapedChar_append {cs ds : List Char}
    (h : cs.flatMap escapedChar ++ '"' :: rest = ds.flatMap escapedChar ++ '"' :: rest') : cs = ds ∧ rest = rest' := by
  induction cs generalizing ds with
  | nil =>
    cases ds with
    | nil => exact ⟨rfl, (List.cons.inj h).2⟩
    | cons d ds =>
      rw [List.flatMap_cons, List.append_assoc] at h
      exact absurd h.symm (escapedChar_append_ne d _ _)
  | cons c cs ih =>
    cases ds with
    | nil =>
      rw [List.flatMap_cons, List.append_assoc] at h
      exact absurd h (escapedChar_append_ne c _ _)
    | cons d ds =>
      rw [List.flatMap_cons, List.flatMap_cons, List.append_assoc, List.append_assoc] at h
      obtain ⟨rfl, htail⟩ := escapedChar_append h
      obtain ⟨rfl, hrest⟩ := ih htail
      exact ⟨rfl, hrest⟩

/-- **A quoted text ends where it ends, whatever follows.** -/
theorem quote_append (h : (quote s).toList ++ rest = (quote t).toList ++ rest') : s = t ∧ rest = rest' := by
  simp only [quote, String.toList_ofList, List.append_assoc, List.cons_append, List.cons.injEq,
    true_and] at h
  obtain ⟨hchars, hrest⟩ := flatMap_escapedChar_append h
  exact ⟨String.toList_inj.mp hchars, hrest⟩

theorem commas_cons_cons (first second : String) (others : List String) :
    (commas (first :: second :: others)).toList = first.toList ++ ',' :: (commas (second :: others)).toList := by
  rw [commas, String.intercalate_cons_cons, commas]
  simp

end Json

/-! ## Compact forms -/

namespace Globals

mutual

/-- A value and the value with its placeholders resolved differ in texts only, so where their compact forms agree they
are the same. -/
theorem substitute_eq_of_compact (globals : Globals) : (v : Value) → ∀ rest rest' : List Char,
    (Json.compact (globals.substitute v).toDocument).toList ++ rest = (Json.compact v.toDocument).toList ++ rest' →
      globals.substitute v = v ∧ rest = rest'
  | .str s => by
    intro rest rest' h
    rw [substitute, Value.toDocument, Value.toDocument, Json.compact, Json.compact] at h
    obtain ⟨hs, hrest⟩ := Json.quote_append h
    rw [substitute, hs]
    exact ⟨rfl, hrest⟩
  | .list items => by
    intro rest rest' h
    simp only [substitute, Value.toDocument, Json.compact, String.toList_append, List.append_assoc] at h
    obtain ⟨hitems, hrest⟩ := substituteList_eq_of_compact globals items _ _ (List.append_cancel_left h)
    rw [substitute, hitems]
    exact ⟨rfl, List.append_cancel_left hrest⟩
  | .node scope provenance entries => by
    intro rest rest' h
    simp only [substitute, Value.toDocument, Json.compact, String.toList_append, List.append_assoc] at h
    obtain ⟨hentries, hrest⟩ := substituteEntries_eq_of_compact globals entries _ _ (List.append_cancel_left h)
    rw [substitute, hentries]
    exact ⟨rfl, List.append_cancel_left hrest⟩
  | .null | .bool _ | .int _ | .float _ => by
    intro rest rest' h
    rw [substitute] at h ⊢
    exact ⟨rfl, List.append_cancel_left h⟩

theorem substituteList_eq_of_compact (globals : Globals) : (items : List Value) → ∀ rest rest' : List Char,
    (Json.commas (Json.compactItems (Value.toDocuments (globals.substituteList items)))).toList ++ rest =
        (Json.commas (Json.compactItems (Value.toDocuments items))).toList ++ rest' →
      globals.substituteList items = items ∧ rest = rest'
  | [] => by
    intro rest rest' h
    exact ⟨rfl, List.append_cancel_left h⟩
  | [v] => by
    intro rest rest' h
    simp only [substituteList, Value.toDocuments, Json.compactItems, Json.commas, String.intercalate_singleton] at h
    obtain ⟨hv, hrest⟩ := substitute_eq_of_compact globals v _ _ h
    exact ⟨by rw [substituteList, hv, substituteList], hrest⟩
  | v :: w :: others => by
    intro rest rest' h
    have hothers := substituteList_eq_of_compact globals (w :: others)
    simp only [substituteList, Value.toDocuments, Json.compactItems, Json.commas_cons_cons, List.append_assoc,
      List.cons_append] at h hothers
    obtain ⟨hv, hrest⟩ := substitute_eq_of_compact globals v _ _ h
    obtain ⟨hitems, hrest⟩ := hothers _ _ (List.cons.inj hrest).2
    exact ⟨by rw [substituteList, hv, substituteList, hitems], hrest⟩

theorem substituteEntries_eq_of_compact (globals : Globals) : (entries : Entries) → ∀ rest rest' : List Char,
    (Json.commas (Json.compactEntries (Value.toFields (globals.substituteEntries entries)))).toList ++ rest =
        (Json.commas (Json.compactEntries (Value.toFields entries))).toList ++ rest' →
      globals.substituteEntries entries = entries ∧ rest = rest'
  | [] => by
    intro rest rest' h
    exact ⟨rfl, List.append_cancel_left h⟩
  | [(key, v)] => by
    intro rest rest' h
    simp only [substituteEntries, Value.toFields, Json.compactEntries, Json.commas, String.intercalate_singleton,
      String.toList_append, List.append_assoc] at h
    obtain ⟨hv, hrest⟩ := substitute_eq_of_compact globals v _ _ (List.append_cancel_left (List.append_cancel_left h))
    exact ⟨by rw [substituteEntries, hv, substituteEntries], hrest⟩
  | (key, v) :: (key', w) :: others => by
    intro rest rest' h
    have hothers := substituteEntries_eq_of_compact globals ((key', w) :: others)
    simp only [substituteEntries, Value.toFields, Json.compactEntries, Json.commas_cons_cons, String.toList_append,
      List.append_assoc, List.cons_append] at h hothers
    obtain ⟨hv, hrest⟩ := substitute_eq_of_compact globals v _ _ (List.append_cancel_left (List.append_cancel_left h))
    obtain ⟨hentries, hrest⟩ := hothers _ _ (List.cons.inj hrest).2
    exact ⟨by rw [substituteEntries, hv, substituteEntries, hentries], hrest⟩

end

/-- The text of a mapping tells whether there are placeholders to resolve in it. -/
theorem toText_substitute_iff {globals : Globals} {v : Value} (hv : v.isNode = true) :
    v.toText = (globals.substitute v).toText ↔ globals.substitute v = v := by
  cases v with
  | node scope provenance entries =>
    refine ⟨fun h => ?_, fun h => (congrArg Value.toText h).symm⟩
    have hcompact : (Json.compact (globals.substitute (.node scope provenance entries)).toDocument).toList ++ [] =
        (Json.compact (Value.node scope provenance entries).toDocument).toList ++ [] := by
      rw [substitute, Value.toDocument, Value.toDocument]
      rw [substitute, Value.toText, Value.toText] at h
      rw [h]
    exact (substitute_eq_of_compact globals _ _ _ hcompact).1
  | _ => contradiction

/-! ## Reading the resolved tree -/

theorem substituteEntries_eq_map (globals : Globals) (entries : Entries) :
    globals.substituteEntries entries = entries.map fun entry => (entry.1, globals.substitute entry.2) := by
  induction entries with
  | nil => rfl
  | cons entry rest ih => rw [substituteEntries, ih, List.map_cons]

theorem entries?_substitute (globals : Globals) (v : Value) :
    (globals.substitute v).entries? = v.entries?.map (List.map fun entry => (entry.1, globals.substitute entry.2)) := by
  cases v with
  | node scope provenance entries => exact congrArg some (substituteEntries_eq_map globals entries)
  | _ => rfl

end Globals

/-- **The resolved tree has at each key the value there with its placeholders resolved**, and fails where the tree
does. -/
theorem Config.getRaw_resolved (c : Config) (key : Key) :
    c.resolved.tree.getRaw key = (c.tree.getRaw key).map (Option.map c.globals.substitute) := by
  have hfind := Path.find_map c.globals.entries?_substitute (c.tree.resolve key).segments c.tree.entries
  rw [← Globals.substituteEntries_eq_map] at hfind
  have hentries : c.resolved.tree.entries = c.globals.substituteEntries c.tree.entries := rfl
  have hresolve : c.resolved.tree.resolve key = c.tree.resolve key := rfl
  rw [Node.getRaw, Node.getRaw, hresolve, Node.lookup, Node.lookup, hentries, hfind]
  cases Path.find (c.tree.resolve key).segments c.tree.entries with
  | ok v => rfl
  | error miss =>
    show c.tree.refuse miss.toError = (c.tree.refuse miss.toError).map _
    unfold Node.refuse
    split <;> rfl

namespace Command

variable {files : Files} {env : Environment} {source : Source} {format : FileFormat} {key text shown : String}
  {c : Config}

theorem got_eq_ok_iff : got c key = .ok text ↔
    ∃ v, c.tree.getRaw (.parse key) = .ok (some v) ∧
      (if v.isNode then v else c.globals.substitute v).toText = text := by
  unfold got Config.get
  rw [bind_eq_ok_iff]
  constructor
  · rintro ⟨found, hfound, h⟩
    obtain ⟨raw, hraw, rfl⟩ := map_eq_ok_iff.mp hfound
    cases raw with
    | none => cases h
    | some v => exact ⟨v, hraw, Except.ok.inj h⟩
  · rintro ⟨v, hraw, rfl⟩
    exact ⟨_, map_eq_ok_iff.mpr ⟨some v, hraw, rfl⟩, rfl⟩

/-- **What `get` prints is the text of the value that `print` shows at the key, unless it is a mapping in which there
are placeholders to resolve.** -/
theorem get_eq_resolved_iff (hget : ((get key source).run files env).output = .ok text)
    (hprint : ((print source format false).run files env).output = .ok shown) :
    ∃ c v w, source.build files env = .ok c ∧ c.tree.getRaw (.parse key) = .ok (some v) ∧
      c.resolved.tree.getRaw (.parse key) = .ok (some w) ∧ shown = format.render (c.resolved.toDocument false) ∧
      (text = w.toText ↔ (v.isNode = true → w = v)) := by
  obtain ⟨c, hbuild, hgot⟩ := bind_eq_ok_iff.mp hget
  obtain ⟨c', hbuild', hprinted⟩ := bind_eq_ok_iff.mp hprint
  obtain rfl := Except.ok.inj (hbuild.symm.trans hbuild')
  obtain ⟨v, hraw, rfl⟩ := got_eq_ok_iff.mp hgot
  refine ⟨c, v, c.globals.substitute v, hbuild, hraw, by rw [Config.getRaw_resolved, hraw]; rfl,
    (Except.ok.inj hprinted).symm, ?_⟩
  cases hv : v.isNode with
  | true => simpa using Globals.toText_substitute_iff hv
  | false => simp

/-- Tokens that store a global, and its placeholder as a text in a mapping. -/
def placeholderSource : Source := ⟨none, none, ["-\x7bg\x7d", "x", "-a.b", "\x7bg\x7d"]⟩

/-- A text in a mapping. -/
theorem get_eq_resolved_text :
    ((get "a.b" placeholderSource).run [] ⟨[], false⟩).output = .ok "x" ∧
      ∃ c v w, placeholderSource.build [] ⟨[], false⟩ = .ok c ∧
        c.tree.getRaw (.parse "a.b") = .ok (some v) ∧ c.resolved.tree.getRaw (.parse "a.b") = .ok (some w) ∧
        "\x7b\n  \"a\": \x7b\n    \"b\": \"x\"\n  \x7d\n\x7d" = FileFormat.json.render (c.resolved.toDocument false) ∧
        ("x" = w.toText ↔ (v.isNode = true → w = v)) := by
  have hget : ((get "a.b" placeholderSource).run [] ⟨[], false⟩).output = .ok "x" := by cbv
  have hprint : ((print placeholderSource .json false).run [] ⟨[], false⟩).output =
      .ok "\x7b\n  \"a\": \x7b\n    \"b\": \"x\"\n  \x7d\n\x7d" := by cbv
  exact ⟨hget, get_eq_resolved_iff hget hprint⟩

/-- The mapping itself: `print` shows `x` in it, and `get` the placeholder. -/
theorem get_prints_placeholder :
    ((get "a" placeholderSource).run [] ⟨[], false⟩).output = .ok "\x7b\"b\":\"\x7bg\x7d\"\x7d" ∧
      ((print placeholderSource .json false).run [] ⟨[], false⟩).output =
        .ok "\x7b\n  \"a\": \x7b\n    \"b\": \"x\"\n  \x7d\n\x7d" ∧
      ∃ c w, placeholderSource.build [] ⟨[], false⟩ = .ok c ∧
        c.resolved.tree.getRaw (.parse "a") = .ok (some w) ∧ w.toText = "\x7b\"b\":\"x\"\x7d" := by
  have hbuilt : placeholderSource.build [] ⟨[], false⟩ =
      .ok ⟨⟨⟨.loose, {}⟩,
        ⟨none, some [("", ["conffu"]), ("\x7bg\x7d", ["x"]), ("a.b", ["\x7bg\x7d"])], [], some "",
          ["\x7bg\x7d", "a.b"]⟩,
        [("a", .node ⟨.loose, {}⟩ {} [("b", .str "\x7bg\x7d")])]⟩, [("g", .str "x")]⟩ := by cbv
  exact ⟨by cbv, by cbv, _, .node ⟨.loose, {}⟩ {} [("b", .str "x")], hbuilt, by cbv, by cbv⟩

end Command

end LayeredConfig
