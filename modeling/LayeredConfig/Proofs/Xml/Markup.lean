import LayeredConfig.Xml.Writer
import Mathlib.Data.List.TakeDrop

/-!
# Reading written markup

What the scanner and the builder of elements make of the pieces that the writer puts together: a line
start, escaped text, and the three kinds of tags. Names are inert, that is, free of the characters
that markup is made of, and every lemma leaves the rest of the text open.
-/

namespace LayeredConfig.Xml

/-! ## Inert texts -/

/-- The characters that mean something to the reader of tags. -/
def markupChars : List Char := "<>&;'\"=/!? \t\r\n".toList

/-- A text without characters that markup is made of. -/
def Inert (cs : List Char) : Prop := ∀ c ∈ cs, c ∉ markupChars

instance (cs : List Char) : Decidable (Inert cs) := List.decidableBAll _ cs

/-- Letters, digits, underscores, dashes and points. -/
def isNameChar (c : Char) : Bool := c.isAlphanum || c == '_' || c == '-' || c == '.'

/-- A plain name: characters of names, a letter or an underscore first. -/
def isPlainName (name : String) : Bool :=
  match name.toList with
  | [] => false
  | c :: rest => (c.isAlpha || c == '_') && rest.all isNameChar

theorem not_mem_markupChars {c : Char} (h : isNameChar c) : c ∉ markupChars := by
  have hmarkup : markupChars.all fun m => !isNameChar m := by decide
  intro hmem
  have hc := List.all_eq_true.mp hmarkup c hmem
  rw [h] at hc
  contradiction

theorem isNameChar_of_first {c : Char} (h : (c.isAlpha || c == '_') = true) : isNameChar c := by
  rw [Bool.or_eq_true] at h
  rcases h with h | h
  · simp [isNameChar, Char.isAlphanum, h]
  · simp [isNameChar, h]

/-- A plain name is not empty, and inert. -/
theorem plainName_inert {name : String} (h : isPlainName name) :
    ∃ c rest, name.toList = c :: rest ∧ Inert (c :: rest) := by
  unfold isPlainName at h
  split at h
  · contradiction
  · next c rest he =>
    obtain ⟨hfirst, hrest⟩ := Bool.and_eq_true_iff.mp h
    refine ⟨c, rest, he, fun x hx => not_mem_markupChars ?_⟩
    rcases List.mem_cons.mp hx with rfl | hx
    · exact isNameChar_of_first hfirst
    · exact List.all_eq_true.mp hrest x hx

theorem isPlainName_itemName {name : String} (h : isPlainName name) : isPlainName (itemName name) := by
  have hitem : (itemName name).toList = '_' :: name.toList := by
    rw [itemName, String.toList_append]
    rfl
  unfold isPlainName at h ⊢
  rw [hitem]
  split at h
  · contradiction
  · next c rest he =>
    obtain ⟨hfirst, hrest⟩ := Bool.and_eq_true_iff.mp h
    simp [he, isNameChar_of_first hfirst, hrest]

/-! ## Tags -/

/-- In a tag, outside quotes, everything but quotes and the end is passed over. -/
theorem scan_tag_append (inside cs rest : List Char) (h : ∀ c ∈ cs, c ∉ ['>', '"', '\'']) :
    scan (.tag inside none) (cs ++ rest) = scan (.tag (cs.reverse ++ inside) none) rest := by
  induction cs generalizing inside with
  | nil => rfl
  | cons c cs ih =>
    obtain ⟨hend, hdouble, hsingle⟩ : c ≠ '>' ∧ c ≠ '"' ∧ c ≠ '\'' := by
      simpa using h c List.mem_cons_self
    rw [List.cons_append, scan, if_neg hend, if_neg (by simp [hdouble, hsingle]),
      ih _ (fun d hd => h d (List.mem_cons_of_mem _ hd))]
    simp

theorem scan_quoted_append (inside cs rest : List Char) (h : '"' ∉ cs) :
    scan (.tag inside (some '"')) (cs ++ '"' :: rest) =
      scan (.tag ('"' :: (cs.reverse ++ inside)) none) rest := by
  induction cs generalizing inside with
  | nil => simp [scan]
  | cons c cs ih =>
    rw [List.mem_cons, not_or] at h
    rw [List.cons_append, scan, if_neg (Ne.symm h.1), ih _ h.2]
    simp

/-- The part of a start tag after the name. -/
def markText : Option String → List Char
  | none => []
  | some typeName => [' '] ++ typeAttribute ++ ['=', '"'] ++ typeName.toList ++ ['"']

theorem tagText_eq (name : String) (mark : Option String) :
    tagText name mark = name.toList ++ markText mark := by
  cases mark <;> rfl

theorem inert_ne {cs : List Char} (h : Inert cs) {c m : Char} (hc : c ∈ cs)
    (hm : m ∈ markupChars) : c ≠ m := fun he => h c hc (he ▸ hm)

theorem inert_outside_quotes {cs : List Char} (h : Inert cs) : ∀ c ∈ cs, c ∉ ['>', '"', '\''] := by
  intro c hc
  simp only [List.mem_cons, List.not_mem_nil, or_false, not_or]
  exact ⟨inert_ne h hc (by decide), inert_ne h hc (by decide), inert_ne h hc (by decide)⟩

theorem scan_markText (inside rest : List Char) {mark : Option String}
    (hmark : ∀ typeName ∈ mark, Inert typeName.toList) :
    scan (.tag inside none) (markText mark ++ rest) =
      scan (.tag ((markText mark).reverse ++ inside) none) rest := by
  cases mark with
  | none => rfl
  | some typeName =>
    have hquote : '"' ∉ typeName.toList := fun hmem => hmark _ rfl _ hmem (by decide)
    have happend : markText (some typeName) ++ rest =
        ([' '] ++ typeAttribute ++ ['=']) ++ '"' :: (typeName.toList ++ '"' :: rest) := by
      simp [markText]
    rw [happend, scan_tag_append _ _ _ (by simp [typeAttribute]), scan, if_neg (by decide), if_pos (by simp),
      scan_quoted_append _ _ _ hquote]
    simp [markText]

/-- A tag that begins with an inert character is scanned to its end. -/
theorem scan_markup_inert {c : Char} (hc : c ∉ markupChars) (rest : List Char) :
    scan .markup (c :: rest) = scan (.tag [c] none) rest := by
  have hne : ∀ m ∈ markupChars, c ≠ m := fun m hm he => hc (he ▸ hm)
  rw [scan, if_neg (hne '!' (by decide)), if_neg (hne '?' (by decide)), if_neg (hne '>' (by decide)),
    if_neg (by simp [hne '"' (by decide), hne '\'' (by decide)])]

/-- A written start tag is one token, whether a slash ends it or not. -/
theorem scan_tagText {name : String} {mark : Option String} (hname : isPlainName name)
    (hmark : ∀ typeName ∈ mark, Inert typeName.toList) {slash : List Char}
    (hslash : slash = [] ∨ slash = ['/']) (rest : List Char) :
    scan .markup (tagText name mark ++ slash ++ '>' :: rest) =
      tagToken (tagText name mark ++ slash) :: scan (.text []) rest := by
  obtain ⟨c, cs, hchars, hinert⟩ := plainName_inert hname
  have hcs : Inert cs := fun x hx => hinert x (List.mem_cons_of_mem _ hx)
  have hend : ∀ x ∈ slash, x ∉ ['>', '"', '\''] := by
    rcases hslash with rfl | rfl <;> simp
  have happend : tagText name mark ++ slash ++ '>' :: rest =
      c :: (cs ++ (markText mark ++ (slash ++ '>' :: rest))) := by
    simp [tagText_eq, hchars]
  rw [happend, scan_markup_inert (hinert c List.mem_cons_self),
    scan_tag_append _ _ _ (inert_outside_quotes hcs), scan_markText _ _ hmark,
    scan_tag_append _ _ _ hend, scan, if_pos rfl]
  simp [tagText_eq, hchars]

theorem isSpace_of_inert {cs : List Char} (h : Inert cs) : ∀ c ∈ cs, isSpace c = false := by
  intro c hc
  simp only [isSpace, Bool.or_eq_false_iff, beq_eq_false_iff_ne]
  exact ⟨⟨⟨inert_ne h hc (by decide), inert_ne h hc (by decide)⟩, inert_ne h hc (by decide)⟩,
    inert_ne h hc (by decide)⟩

theorem closingName_of_inert {cs : List Char} (h : Inert cs) : closingName cs = cs := by
  have hkept : cs.reverse.dropWhile isSpace = cs.reverse := by
    cases hr : cs.reverse with
    | nil => rfl
    | cons c rest =>
      have hmem : c ∈ cs := List.mem_reverse.mp (hr ▸ List.mem_cons_self)
      rw [List.dropWhile_cons_of_neg (by simp [isSpace_of_inert h c hmem])]
  rw [closingName, hkept, List.reverse_reverse, ite_self]

/-- So is a written closing tag. -/
theorem scan_closingTag {name : String} (hname : isPlainName name) (rest : List Char) :
    scan .markup ('/' :: (name.toList ++ '>' :: rest)) =
      .closing name.toList :: scan (.text []) rest := by
  obtain ⟨c, cs, hchars, hinert⟩ := plainName_inert hname
  rw [scan, if_neg (by decide), if_neg (by decide), if_neg (by decide), if_neg (by decide), hchars,
    scan_tag_append _ _ _ (inert_outside_quotes hinert), scan, if_pos rfl]
  simp only [List.reverse_append, List.reverse_cons, List.reverse_reverse, List.reverse_nil,
    List.nil_append, List.singleton_append, tagToken, closingName_of_inert hinert]

/-! ## The inside of tags -/

theorem span_name (cs rest : List Char) (h : ∀ c ∈ cs, isSpace c = false)
    (hrest : ∀ c ∈ rest.head?, isSpace c = true) :
    (cs ++ rest).span (fun c => !isSpace c) = (cs, rest) := by
  have htake : ∀ c ∈ cs, (!isSpace c) = true := fun c hc => by simp [h c hc]
  rw [List.span_eq_takeWhile_dropWhile, List.takeWhile_append_of_pos htake,
    List.dropWhile_append_of_pos htake]
  cases rest with
  | nil => simp
  | cons c rest => simp [hrest c rfl]

theorem attributesFrom?_name (found : List (List Char × List Char)) (acc cs rest : List Char)
    (h : ∀ c ∈ cs, c ≠ '=' ∧ isSpace c = false) :
    attributesFrom? found (.inName acc) (cs ++ '=' :: rest) =
      attributesFrom? found (.beforeValue (acc.reverse ++ cs)) rest := by
  induction cs generalizing acc with
  | nil => simp [attributesFrom?]
  | cons c cs ih =>
    obtain ⟨heq, hspace⟩ := h c List.mem_cons_self
    rw [List.cons_append, attributesFrom?, if_neg heq, hspace, if_neg (by decide),
      ih _ (fun d hd => h d (List.mem_cons_of_mem _ hd))]
    simp

theorem attributesFrom?_value (name acc cs : List Char) (h : '"' ∉ cs) :
    attributesFrom? [] (.inValue name '"' acc) (cs ++ ['"']) = some [(name, acc.reverse ++ cs)] := by
  induction cs generalizing acc with
  | nil => simp [attributesFrom?]
  | cons c cs ih =>
    rw [List.mem_cons, not_or] at h
    rw [List.cons_append, attributesFrom?, if_pos (Ne.symm h.1), ih _ h.2]
    simp

theorem resolve?_of_inert {cs : List Char} (h : Inert cs) : resolve? cs = some cs := by
  unfold resolve?
  induction cs with
  | nil => rfl
  | cons c cs ih =>
    rw [resolveFrom?, if_neg (inert_ne h List.mem_cons_self (by decide)),
      ih (fun x hx => h x (List.mem_cons_of_mem _ hx))]
    rfl

/-- The attributes of a written start tag: the mark of the type, if there is one. -/
theorem attributesFrom?_markText {mark : Option String}
    (hmark : ∀ typeName ∈ mark, Inert typeName.toList) :
    attributesFrom? [] .between (markText mark) =
      some (mark.toList.map fun typeName => (typeAttribute, typeName.toList)) := by
  cases mark with
  | none => rfl
  | some typeName =>
    have hquote : '"' ∉ typeName.toList := fun hmem => hmark _ rfl _ hmem (by decide)
    have happend : markText (some typeName) =
        ' ' :: '_' :: ("type".toList ++ '=' :: '"' :: (typeName.toList ++ ['"'])) := by
      simp [markText, typeAttribute]
    rw [happend, attributesFrom?, if_pos (by decide), attributesFrom?, if_neg (by decide),
      attributesFrom?_name _ _ _ _ (by simp [isSpace]), attributesFrom?, if_neg (by decide),
      if_pos (Or.inl rfl), attributesFrom?_value _ _ _ hquote]
    rfl

/-- The tag that a written start tag is read as. -/
theorem ofChars?_tagText {name : String} {mark : Option String} (hname : isPlainName name)
    (hmark : ∀ typeName ∈ mark, Inert typeName.toList) :
    Tag.ofChars? (tagText name mark) = some ⟨name.toList, mark.map String.toList⟩ := by
  obtain ⟨c, cs, hchars, hinert⟩ := plainName_inert hname
  have hspan : (name.toList ++ markText mark).span (fun c => !isSpace c) =
      (name.toList, markText mark) := by
    refine span_name _ _ (hchars ▸ isSpace_of_inert hinert) ?_
    cases mark <;> simp [markText, isSpace]
  rw [tagText_eq, Tag.ofChars?, hspan]
  simp only [attributesFrom?_markText hmark]
  cases mark with
  | none => rfl
  | some typeName =>
    have hresolve : resolve? typeName.toList = some typeName.toList := resolve?_of_inert (hmark _ rfl)
    simp [hresolve]

theorem tagToken_of_first {c : Char} (h : c ≠ '/') (cs : List Char) :
    tagToken (c :: cs) =
      if (c :: cs).getLast? = some '/' then
        ((Tag.ofChars? (c :: cs).dropLast).map Token.empty).getD .malformed
      else ((Tag.ofChars? (c :: cs)).map Token.opening).getD .malformed := by
  unfold tagToken
  split
  · next he => exact absurd (List.cons.inj he).1 h
  · rfl

theorem exists_tagText_eq {name : String} (hname : isPlainName name) (mark : Option String) :
    ∃ c cs, tagText name mark = c :: cs ∧ c ≠ '/' := by
  obtain ⟨c, cs, hchars, hinert⟩ := plainName_inert hname
  exact ⟨c, cs ++ markText mark, by simp [tagText_eq, hchars],
    inert_ne hinert List.mem_cons_self (by decide)⟩

theorem getLast?_tagText {name : String} (hname : isPlainName name) (mark : Option String) :
    (tagText name mark).getLast? ≠ some '/' := by
  cases mark with
  | none =>
    obtain ⟨c, cs, hchars, hinert⟩ := plainName_inert hname
    rw [tagText_eq, markText, List.append_nil, hchars]
    exact fun h => inert_ne hinert (List.mem_of_getLast? h) (by decide) rfl
  | some typeName =>
    have happend : tagText name (some typeName) =
        (name.toList ++ [' '] ++ typeAttribute ++ ['=', '"'] ++ typeName.toList) ++ ['"'] := by
      simp [tagText]
    rw [happend, List.getLast?_concat]
    decide

theorem tagToken_startTag {name : String} {mark : Option String} (hname : isPlainName name)
    (hmark : ∀ typeName ∈ mark, Inert typeName.toList) :
    tagToken (tagText name mark) = .opening ⟨name.toList, mark.map String.toList⟩ := by
  obtain ⟨c, cs, htext, hfirst⟩ := exists_tagText_eq hname mark
  have hlast := getLast?_tagText hname mark
  have htag := ofChars?_tagText hname hmark
  rw [htext] at hlast htag ⊢
  rw [tagToken_of_first hfirst, if_neg hlast, htag]
  rfl

theorem tagToken_emptyTag {name : String} {mark : Option String} (hname : isPlainName name)
    (hmark : ∀ typeName ∈ mark, Inert typeName.toList) :
    tagToken (tagText name mark ++ ['/']) = .empty ⟨name.toList, mark.map String.toList⟩ := by
  obtain ⟨c, cs, htext, hfirst⟩ := exists_tagText_eq hname mark
  have htag := ofChars?_tagText hname hmark
  rw [htext] at htag ⊢
  rw [List.cons_append, tagToken_of_first hfirst, ← List.cons_append, if_pos List.getLast?_concat,
    List.dropLast_concat, htag]
  rfl

end LayeredConfig.Xml
