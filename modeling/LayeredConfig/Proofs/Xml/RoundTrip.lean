import LayeredConfig.Config
import LayeredConfig.Encoding
import LayeredConfig.Proofs.Decimal
import LayeredConfig.Proofs.Everywhere
import LayeredConfig.Proofs.Xml.Markup

/-!
# Documents through XML

A document written as XML is read as the tree of elements `elementOf` (`rootOf_render`), whatever its
texts hold, provided that its names are plain. From that tree the document comes back exactly if no
mapping looks like a list: the reader takes an element for a list when its first child is named like
the items of a list under its own name, so a mapping is lost precisely when its first key is its own
tag after an underscore.
-/

namespace LayeredConfig.Xml

/-- A leaf that is no number beyond the 64-bit integers. -/
def PlainLeaf : Document → Prop
  | .large _ | .float _ => False
  | _ => True

/-- The names of a mapping: distinct and plain. -/
def PlainNames (names : List String) : Prop := names.Nodup ∧ ∀ name ∈ names, isPlainName name

instance : DecidablePred PlainLeaf := fun
  | .large _ | .float _ => inferInstanceAs (Decidable False)
  | .null | .bool _ | .int _ | .text _ | .list _ | .mapping _ => inferInstanceAs (Decidable True)

instance : DecidablePred PlainNames := fun names =>
  inferInstanceAs (Decidable (names.Nodup ∧ ∀ name ∈ names, isPlainName name))

/-- A document whose names are plain at every depth, and its numbers 64-bit integers. -/
def PlainDocument : Document → Prop := Document.Everywhere PlainLeaf PlainNames

instance : DecidablePred PlainDocument := fun d =>
  inferInstanceAs (Decidable (Document.Everywhere PlainLeaf PlainNames d))

/-! ## Elements from text -/

/-- Builds elements from what the scanner makes of the rest of a text. -/
def Forest.run (f : Forest) (state : Scan) (cs : List Char) : Except XmlFault Forest :=
  (scan state cs).foldlM Forest.step f

theorem Forest.run_of_scan {f : Forest} {state next : Scan} {cs rest : List Char} {token : Token}
    (h : scan state cs = token :: scan next rest) :
    f.run state cs = f.step token >>= fun f => f.run next rest := by
  rw [Forest.run, h, List.foldlM_cons]
  rfl

theorem Forest.addText_nil (f : Forest) : f.addText [] = f := by
  obtain ⟨stack, root⟩ := f
  cases stack <;> simp [Forest.addText]

theorem foldlM_textTokens (f : Forest) (cs : List Char) :
    (textTokens cs).foldlM Forest.step f = .ok (f.addText cs.reverse) := by
  cases cs with
  | nil => simp only [textTokens, List.reverse_nil, f.addText_nil]; rfl
  | cons c cs => rfl

theorem Forest.run_lt (f : Forest) (acc rest : List Char) :
    f.run (.text acc) ('<' :: rest) = (f.addText acc.reverse).run .markup rest := by
  rw [Forest.run, scan, if_pos rfl, List.foldlM_append, foldlM_textTokens]
  rfl

theorem Forest.run_amp (f : Forest) (acc rest : List Char) :
    f.run (.text acc) ('&' :: rest) = (f.addText acc.reverse).run (.reference []) rest := by
  rw [Forest.run, scan, if_neg (by decide), if_pos rfl, List.foldlM_append, foldlM_textTokens]
  rfl

theorem Forest.run_text (f : Forest) (acc cs rest : List Char) (h : ∀ c ∈ cs, c ≠ '<' ∧ c ≠ '&') :
    f.run (.text acc) (cs ++ rest) = f.run (.text (cs.reverse ++ acc)) rest := by
  induction cs generalizing acc with
  | nil => rfl
  | cons c cs ih =>
    obtain ⟨hlt, hamp⟩ := h c List.mem_cons_self
    have hstep : f.run (.text acc) (c :: (cs ++ rest)) = f.run (.text (c :: acc)) (cs ++ rest) := by
      rw [Forest.run, scan, if_neg hlt, if_neg hamp]
      rfl
    rw [List.cons_append, hstep, ih _ (fun d hd => h d (List.mem_cons_of_mem _ hd))]
    simp

/-- The break in front of an element is text of the element around it. -/
theorem Forest.run_lineStart (f : Forest) (level : Nat) (rest : List Char) :
    f.run (.text []) (lineStart level ++ '<' :: rest) = (f.addText (lineStart level)).run .markup rest := by
  have hspace : ∀ c ∈ lineStart level, c ≠ '<' ∧ c ≠ '&' := by
    intro c hc
    rcases List.mem_cons.mp hc with rfl | hc
    · decide
    · rw [List.eq_of_mem_replicate hc]
      decide
  rw [f.run_text [] _ _ hspace, f.run_lt]
  simp

/-- A character that stands for itself, or a reference to it. -/
theorem escapedChar_cases (c : Char) :
    (escapedChar c = [c] ∧ c ≠ '<' ∧ c ≠ '&') ∨
      ∃ name, escapedChar c = '&' :: (name ++ [';']) ∧ entity? name = some c ∧
        ∀ x ∈ name, x ≠ ';' ∧ x ≠ '&' ∧ x ≠ '<' := by
  by_cases hlt : c = '<'
  · exact Or.inr ⟨"lt".toList, by subst hlt; decide, by subst hlt; rfl, by simp⟩
  by_cases hgt : c = '>'
  · exact Or.inr ⟨"gt".toList, by subst hgt; decide, by subst hgt; rfl, by simp⟩
  by_cases hamp : c = '&'
  · exact Or.inr ⟨"amp".toList, by subst hamp; decide, by subst hamp; rfl, by simp⟩
  by_cases hapos : c = '\''
  · exact Or.inr ⟨"apos".toList, by subst hapos; decide, by subst hapos; rfl, by simp⟩
  by_cases hquot : c = '"'
  · exact Or.inr ⟨"quot".toList, by subst hquot; decide, by subst hquot; rfl, by simp⟩
  · exact Or.inl ⟨by simp [escapedChar, hlt, hgt, hamp, hapos, hquot], hlt, hamp⟩

theorem Forest.run_reference (f : Forest) (acc name rest : List Char)
    (h : ∀ x ∈ name, x ≠ ';' ∧ x ≠ '&' ∧ x ≠ '<') :
    f.run (.reference acc) (name ++ ';' :: rest) =
      f.step (.reference (acc.reverse ++ name)) >>= fun f => f.run (.text []) rest := by
  induction name generalizing acc with
  | nil =>
    refine Forest.run_of_scan ?_
    simp [scan]
  | cons x name ih =>
    obtain ⟨hend, hamp, hlt⟩ := h x List.mem_cons_self
    have hstep : f.run (.reference acc) (x :: (name ++ ';' :: rest)) =
        f.run (.reference (x :: acc)) (name ++ ';' :: rest) := by
      rw [Forest.run, scan, if_neg hend, if_neg (by simp [hamp, hlt])]
      rfl
    rw [List.cons_append, hstep, ih _ (fun y hy => h y (List.mem_cons_of_mem _ hy))]
    simp

theorem Forest.step_reference {e : OpenElement} {outer : List OpenElement} {root : Option Element}
    {name : List Char} {c : Char} (h : entity? name = some c) :
    Forest.step ⟨e :: outer, root⟩ (.reference name) = .ok (Forest.addText ⟨e :: outer, root⟩ [c]) := by
  have hreference : reference? name = some c := by
    unfold reference?
    split
    · next he => simp [entity?] at h
    · exact h
  simp [Forest.step, hreference]

/-- Escaped text becomes the text of the element that is open. -/
theorem Forest.run_escaped (cs : List Char) :
    ∀ (e : OpenElement) (outer : List OpenElement) (root : Option Element) (acc rest : List Char),
      Forest.run ⟨e :: outer, root⟩ (.text acc) (escaped cs ++ '<' :: rest) =
        (Forest.addText ⟨e :: outer, root⟩ (acc.reverse ++ cs)).run .markup rest := by
  induction cs with
  | nil =>
    intro e outer root acc rest
    rw [escaped, List.flatMap_nil, List.nil_append, Forest.run_lt, List.append_nil]
  | cons c cs ih =>
    intro e outer root acc rest
    have happend : escaped (c :: cs) ++ '<' :: rest = escapedChar c ++ (escaped cs ++ '<' :: rest) := by
      simp [escaped]
    rw [happend]
    rcases escapedChar_cases c with ⟨hself, hlt, hamp⟩ | ⟨name, hname, hentity, hfree⟩
    · rw [hself, Forest.run_text _ _ _ _ (by simp [hlt, hamp]), ih]
      simp
    · rw [hname, List.cons_append, List.append_assoc, Forest.run_amp]
      show Forest.run _ _ (name ++ ';' :: (escaped cs ++ '<' :: rest)) = _
      rw [Forest.run_reference _ _ _ _ hfree, List.reverse_nil, List.nil_append]
      show Forest.step ⟨_ :: _, _⟩ _ >>= _ = _
      rw [Forest.step_reference hentity]
      show Forest.run ⟨_ :: _, _⟩ _ _ = _
      rw [ih]
      simp [Forest.addText]

/-! ## Written elements -/

/-- The blank text in an element around `count` others. -/
def innerSpace (level count : Nat) : List Char :=
  (List.replicate count (lineStart (level + 1))).flatten ++ lineStart level

mutual

/-- The element that a written document is read as. -/
def elementOf (level : Nat) (name : String) : Document → Element
  | .null => .mk name (some "null") "" []
  | .bool b => .mk name (some "bool") (if b then "true" else "false") []
  | .int i => .mk name (some "int") (toString i.toInt) []
  | .large n => .mk name (some "int") (toString n.toNat) []
  | .float x => .mk name (some "float") (FloatLayout.plain.render x) []
  | .text s => .mk name none s []
  | .list [] => .mk name (some "list") "" []
  | .list (d :: rest) =>
    .mk name none (String.ofList (innerSpace level (rest.length + 1)))
      (itemElements (level + 1) (itemName name) (d :: rest))
  | .mapping [] => .mk name (some "dict") "" []
  | .mapping (field :: rest) =>
    .mk name none (String.ofList (innerSpace level (rest.length + 1)))
      (entryElements (level + 1) (field :: rest))

def itemElements (level : Nat) (name : String) : List Document → List Element
  | [] => []
  | d :: rest => elementOf level name d :: itemElements level name rest

def entryElements (level : Nat) : List (String × Document) → List Element
  | [] => []
  | (name, d) :: rest => elementOf level name d :: entryElements level rest

end

theorem name_elementOf (level : Nat) (name : String) (d : Document) :
    (elementOf level name d).name = name := by
  unfold elementOf
  split <;> rfl

theorem Forest.addText_cons (e : OpenElement) (outer : List OpenElement) (root : Option Element)
    (cs : List Char) :
    Forest.addText ⟨e :: outer, root⟩ cs = ⟨{ e with text := e.text ++ cs } :: outer, root⟩ := rfl

theorem Forest.add_cons (parent : OpenElement) (outer : List OpenElement) (root : Option Element)
    (e : Element) :
    Forest.add ⟨parent :: outer, root⟩ e =
      ⟨{ parent with children := e :: parent.children } :: outer, root⟩ := rfl

theorem Forest.run_emptyElement (f : Forest) (level : Nat) {name : String} {mark : Option String}
    (hname : isPlainName name) (hmark : ∀ typeName ∈ mark, Inert typeName.toList) (rest : List Char) :
    f.run (.text []) (emptyElement level name mark ++ rest) =
      ((f.addText (lineStart level)).add (.mk name mark "" [])).run (.text []) rest := by
  have happend : emptyElement level name mark ++ rest =
      lineStart level ++ '<' :: (tagText name mark ++ ['/'] ++ '>' :: rest) := by
    simp [emptyElement]
  rw [happend, f.run_lineStart, Forest.run_of_scan (scan_tagText hname hmark (Or.inr rfl) rest),
    tagToken_emptyTag hname hmark]
  show ((f.addText _).add _).run _ _ = _
  simp [OpenElement.ofTag, OpenElement.close, Function.comp_def]

/-- The start tag of a written element opens it. -/
theorem Forest.run_startTag (f : Forest) (level : Nat) {name : String} {mark : Option String}
    (hname : isPlainName name) (hmark : ∀ typeName ∈ mark, Inert typeName.toList) (rest : List Char) :
    f.run (.text []) (lineStart level ++ '<' :: (tagText name mark ++ '>' :: rest)) =
      Forest.run ⟨⟨name.toList, mark.map String.toList, [], []⟩ :: (f.addText (lineStart level)).stack,
        (f.addText (lineStart level)).root⟩ (.text []) rest := by
  have hscan := scan_tagText hname hmark (Or.inl rfl) rest
  rw [List.append_nil] at hscan
  rw [f.run_lineStart, Forest.run_of_scan hscan, tagToken_startTag hname hmark]
  rfl

/-- The closing tag of the element that is open closes it. -/
theorem Forest.run_closingTag {name : String} (hname : isPlainName name) (mark : Option (List Char))
    (text : List Char) (children : List Element) (outer : List OpenElement) (root : Option Element)
    (rest : List Char) :
    Forest.run ⟨⟨name.toList, mark, text, children⟩ :: outer, root⟩ .markup
        ('/' :: (name.toList ++ '>' :: rest)) =
      (Forest.add ⟨outer, root⟩
        (.mk name (mark.map String.ofList) (String.ofList text) children.reverse)).run (.text []) rest := by
  rw [Forest.run_of_scan (scan_closingTag hname rest)]
  simp only [Forest.step, if_true, OpenElement.close, String.ofList_toList]
  rfl

theorem Forest.run_leafElement (f : Forest) (level : Nat) {name : String} {mark : Option String}
    (hname : isPlainName name) (hmark : ∀ typeName ∈ mark, Inert typeName.toList) (text : String)
    (rest : List Char) :
    f.run (.text []) (leafElement level name mark text ++ rest) =
      ((f.addText (lineStart level)).add (.mk name mark text [])).run (.text []) rest := by
  have happend : leafElement level name mark text ++ rest =
      lineStart level ++ '<' :: (tagText name mark ++ '>' ::
        (escaped text.toList ++ '<' :: ('/' :: (name.toList ++ '>' :: rest)))) := by
    simp [leafElement]
  rw [happend, f.run_startTag level hname hmark, Forest.run_escaped, Forest.addText_cons,
    Forest.run_closingTag hname]
  simp [Function.comp_def]

/-- An element around others, if these leave blank text and children in it. -/
theorem Forest.run_outerElement (f : Forest) (level : Nat) {name : String} (hname : isPlainName name)
    (inside : List Char) (text : List Char) (children : List Element) (rest : List Char)
    (hinside : ∀ outer root rest,
      Forest.run ⟨⟨name.toList, none, [], []⟩ :: outer, root⟩ (.text []) (inside ++ rest) =
        Forest.run ⟨⟨name.toList, none, text, children.reverse⟩ :: outer, root⟩ (.text []) rest) :
    f.run (.text []) (outerElement level name inside ++ rest) =
      ((f.addText (lineStart level)).add
        (.mk name none (String.ofList (text ++ lineStart level)) children)).run (.text []) rest := by
  have happend : outerElement level name inside ++ rest =
      lineStart level ++ '<' :: (tagText name none ++ '>' ::
        (inside ++ (lineStart level ++ '<' :: ('/' :: (name.toList ++ '>' :: rest))))) := by
    simp [outerElement, tagText_eq, markText]
  rw [happend, f.run_startTag level hname (by simp)]
  show Forest.run ⟨⟨_, none, _, _⟩ :: _, _⟩ _ _ = _
  rw [hinside, Forest.run_lineStart, Forest.addText_cons, Forest.run_closingTag hname,
    List.reverse_reverse]
  rfl

variable {scalar : Document → Prop}

mutual

/-- A written element is read as `elementOf` says. -/
theorem Forest.run_element (f : Forest) (level : Nat) (name : String) (hname : isPlainName name)
    (rest : List Char) : ∀ d : Document, Document.Everywhere scalar PlainNames d →
      f.run (.text []) (element level name d ++ rest) =
        ((f.addText (lineStart level)).add (elementOf level name d)).run (.text []) rest
  | .null, _ => f.run_emptyElement level hname (by decide) rest
  | .bool b, _ => f.run_leafElement level hname (by decide) _ rest
  | .int i, _ => f.run_leafElement level hname (by decide) _ rest
  | .large n, _ => f.run_leafElement level hname (by decide) _ rest
  | .float x, _ => f.run_leafElement level hname (by decide) _ rest
  | .text s, _ => by
    rw [element, elementOf]
    split
    · next he => rw [he]; exact f.run_emptyElement level hname (by decide) rest
    · exact f.run_leafElement level hname (by decide) _ rest
  | .list [], _ => f.run_emptyElement level hname (by decide) rest
  | .list (d :: ds), h => by
    refine f.run_outerElement level hname _ _ _ rest fun outer root rest => ?_
    rw [Forest.run_elements ⟨name.toList, none, [], []⟩ outer root (level + 1) _
      (isPlainName_itemName hname) rest (d :: ds) h]
    simp
  | .mapping [], _ => f.run_emptyElement level hname (by decide) rest
  | .mapping (field :: fields), h => by
    refine f.run_outerElement level hname _ _ _ rest fun outer root rest => ?_
    rw [Forest.run_fieldElements ⟨name.toList, none, [], []⟩ outer root (level + 1) rest
      (field :: fields) h.1.2 h.2]
    simp

theorem Forest.run_elements (e : OpenElement) (outer : List OpenElement) (root : Option Element)
    (level : Nat) (name : String) (hname : isPlainName name) (rest : List Char) :
    ∀ ds : List Document, Document.EverywhereItems scalar PlainNames ds →
      Forest.run ⟨e :: outer, root⟩ (.text []) (elements level name ds ++ rest) =
        Forest.run ⟨⟨e.name, e.mark, e.text ++ (List.replicate ds.length (lineStart level)).flatten,
          (itemElements level name ds).reverse ++ e.children⟩ :: outer, root⟩ (.text []) rest
  | [], _ => by simp [elements, itemElements]
  | d :: ds, h => by
    rw [elements, List.append_assoc, Forest.run_element _ level name hname _ d h.1]
    rw [Forest.addText_cons, Forest.add_cons, Forest.run_elements _ outer root level name hname rest ds h.2]
    simp [itemElements, List.replicate_succ]

theorem Forest.run_fieldElements (e : OpenElement) (outer : List OpenElement) (root : Option Element)
    (level : Nat) (rest : List Char) :
    ∀ fields : List (String × Document), (∀ name ∈ Ordered.keys fields, isPlainName name) →
      Document.EverywhereFields scalar PlainNames fields →
      Forest.run ⟨e :: outer, root⟩ (.text []) (fieldElements level fields ++ rest) =
        Forest.run ⟨⟨e.name, e.mark, e.text ++ (List.replicate fields.length (lineStart level)).flatten,
          (entryElements level fields).reverse ++ e.children⟩ :: outer, root⟩ (.text []) rest
  | [], _, _ => by simp [fieldElements, entryElements]
  | (name, d) :: fields, hnames, h => by
    have hname : isPlainName name := hnames name List.mem_cons_self
    rw [fieldElements, List.append_assoc, Forest.run_element _ level name hname _ d h.1]
    rw [Forest.addText_cons, Forest.add_cons, Forest.run_fieldElements _ outer root level rest fields
      (fun other hmem => hnames other (List.mem_cons_of_mem _ hmem)) h.2]
    simp [entryElements, List.replicate_succ]

end

theorem scan_declaration (rest : List Char) :
    scan (.text []) (declaration ++ rest) = scan (.text []) rest := rfl

/-- The root element of a written document. -/
theorem rootOf_render {d : Document} (hd : Document.Everywhere scalar PlainNames d) :
    rootOf (tokens (render d)) = .ok (elementOf 0 rootName d) := by
  have htokens : tokens (render d) = scan (.text []) (element 0 rootName d) := by
    rw [tokens, render, String.toList_ofList]
    exact scan_declaration _
  have hrun := Forest.run_element ⟨[], none⟩ 0 rootName (by decide) [] d hd
  rw [List.append_nil, Forest.run] at hrun
  rw [rootOf, htokens, hrun]
  rfl

/-! ## Mappings that look like lists -/

/-- `Stored tag d tag' d'`: where `d` is stored under `tag`, its part `d'` is stored under `tag'`. -/
inductive Stored : String → Document → String → Document → Prop
  | here (tag : String) (d : Document) : Stored tag d tag d
  | item {tag tag' : String} {items : List Document} {d d' : Document} (hmem : d ∈ items)
      (h : Stored (itemName tag) d tag' d') : Stored tag (.list items) tag' d'
  | field {tag tag' : String} {fields : List (String × Document)} {key : String} {d d' : Document}
      (hmem : (key, d) ∈ fields) (h : Stored key d tag' d') : Stored tag (.mapping fields) tag' d'

/-- No mapping in a document has its own tag after an underscore as its first key. -/
def Unambiguous (tag : String) (d : Document) : Prop :=
  ∀ tag' key first rest, Stored tag d tag' (.mapping ((key, first) :: rest)) → key ≠ itemName tag'

theorem unambiguous_list {tag : String} {items : List Document} :
    Unambiguous tag (.list items) ↔ ∀ d ∈ items, Unambiguous (itemName tag) d := by
  constructor
  · intro h d hd tag' key first rest hstored
    exact h tag' key first rest (.item hd hstored)
  · intro h tag' key first rest hstored
    cases hstored with
    | item hmem hstored => exact h _ hmem tag' key first rest hstored

theorem unambiguous_mapping {tag : String} {fields : List (String × Document)} :
    Unambiguous tag (.mapping fields) ↔
      (∀ field ∈ fields.head?, field.1 ≠ itemName tag) ∧
        ∀ field ∈ fields, Unambiguous field.1 field.2 := by
  constructor
  · intro h
    refine ⟨fun field hfield => ?_, fun field hfield tag' key first rest hstored => ?_⟩
    · obtain ⟨rest, rfl⟩ := List.head?_eq_some_iff.mp hfield
      exact h tag field.1 field.2 rest (.here tag _)
    · exact h tag' key first rest (.field hfield hstored)
  · rintro ⟨hfirst, hfields⟩ tag' key first rest hstored
    cases hstored with
    | here => exact hfirst _ rfl
    | field hmem hstored => exact hfields _ hmem tag' key first rest hstored

/-! ## Documents from written elements -/

theorem itemsNamed_cons_eq_ok_iff {name : String} {e : Element} {rest : List Element} {d : Document}
    {ds : List Document} (h : e.name = name) :
    itemsNamed name (e :: rest) = .ok (d :: ds) ↔ e.toDocument = .ok d ∧ itemsNamed name rest = .ok ds := by
  rw [itemsNamed, if_pos h]
  cases e.toDocument <;> cases itemsNamed name rest <;>
    simp [bind, Except.bind, pure, Except.pure]

theorem fieldsOf_cons_eq_ok_iff {e : Element} {rest : List Element} {field : String × Document}
    {fields : List (String × Document)} :
    fieldsOf (e :: rest) = .ok (field :: fields) ↔
      e.name = field.1 ∧ e.toDocument = .ok field.2 ∧ fieldsOf rest = .ok fields := by
  obtain ⟨key, d⟩ := field
  rw [fieldsOf]
  cases e.toDocument <;> cases fieldsOf rest <;>
    simp [bind, Except.bind, pure, Except.pure, and_assoc]

theorem keys_fieldsOf {es : List Element} {fields : List (String × Document)}
    (h : fieldsOf es = .ok fields) : Ordered.keys fields = es.map Element.name := by
  induction es generalizing fields with
  | nil =>
    cases h
    rfl
  | cons e rest ih =>
    cases fields with
    | nil =>
      rw [fieldsOf] at h
      cases hd : e.toDocument <;> cases hds : fieldsOf rest <;>
        simp [hd, hds, bind, Except.bind, pure, Except.pure] at h
    | cons field fields =>
      obtain ⟨hname, -, hrest⟩ := fieldsOf_cons_eq_ok_iff.mp h
      rw [Ordered.keys_cons, List.map_cons, ih hrest, hname]

theorem names_entryElements (level : Nat) (fields : List (String × Document)) :
    (entryElements level fields).map Element.name = Ordered.keys fields := by
  induction fields with
  | nil => rfl
  | cons field rest ih => rw [entryElements, List.map_cons, ih, name_elementOf, Ordered.keys_cons]

/-- Fields of distinct names make the mapping that they are, and no other. -/
theorem map_mapping_eq_ok_iff {es : List Element} {fields : List (String × Document)}
    (hnames : es.map Element.name = Ordered.keys fields) (hd : Ordered.Distinct fields) :
    ((fieldsOf es).map fun fields => Document.mapping (Ordered.ofList fields)) = .ok (.mapping fields) ↔
      fieldsOf es = .ok fields := by
  cases hread : fieldsOf es with
  | error fault => simp [Except.map]
  | ok read =>
    have hkeys : Ordered.keys read = Ordered.keys fields := (keys_fieldsOf hread).trans hnames
    have hdistinct : Ordered.Distinct read := by
      rw [Ordered.Distinct, hkeys]
      exact hd
    simp [Except.map, Ordered.ofList_of_distinct hdistinct]

theorem map_list_eq_ok_iff {es : Except SourceFault (List Document)} {ds : List Document} :
    es.map Document.list = .ok (.list ds) ↔ es = .ok ds := by
  cases es <;> simp [Except.map]

theorem map_list_ne_mapping (es : Except SourceFault (List Document))
    (fields : List (String × Document)) : es.map Document.list ≠ .ok (.mapping fields) := by
  cases es <;> simp [Except.map]

theorem leaf_int (name : String) (i : Int64) :
    leaf name (some "int") (toString i.toInt) = .ok (.int i) := by
  have hread : readInt64? (trimmed (toString i.toInt)) = some i := by
    rw [trimmed_toString, readInt64?_toString]
  simp only [leaf, hread]

theorem leaf_large (name : String) {n : UInt64} (h : Int64.maxValue.toInt < n.toNat) :
    leaf name (some "int") (toString n.toNat) = .ok (.large n) := by
  have htrimmed : trimmed (toString n.toNat) = toString n.toNat := trimmed_toString n.toNat
  simp only [leaf, htrimmed, readInt64?_eq_none h, readUInt64?_toString]

theorem leaf_bool (name : String) (b : Bool) :
    leaf name (some "bool") (if b then "true" else "false") = .ok (.bool b) := by
  cases b <;> rfl

theorem unambiguous_leaf {tag : String} {d : Document} (hlist : ∀ items, d ≠ .list items)
    (hmapping : ∀ fields, d ≠ .mapping fields) : Unambiguous tag d := by
  intro tag' key first rest hstored
  cases hstored with
  | here => exact absurd rfl (hmapping _)
  | item => exact absurd rfl (hlist _)
  | field => exact absurd rfl (hmapping _)

/-- A leaf that can be told from its text: no float, and no integer that could be one of the signed 64-bit range. -/
def Restorable : Document → Prop
  | .float _ => False
  | .large n => Int64.maxValue.toInt < n.toNat
  | _ => True

/-- A document whose names are plain at every depth, and its leaves can be told from their texts. -/
def RestorableDocument : Document → Prop := Document.Everywhere Restorable PlainNames

theorem restorableDocument_large {n : UInt64} :
    RestorableDocument (.large n) ↔ Int64.maxValue.toInt < n.toNat := by
  rw [RestorableDocument, Document.Everywhere, Restorable]

theorem PlainDocument.restorable {d : Document} (h : PlainDocument d) : RestorableDocument d := by
  refine Document.Everywhere.mono (fun leaf hleaf => ?_) d h
  cases leaf with
  | large n => exact absurd hleaf id
  | float x => exact hleaf
  | _ => trivial

mutual

/-- The element of a document gives the document back if nothing in it looks like a list. -/
theorem toDocument_elementOf_iff (level : Nat) (name : String) : ∀ d : Document, RestorableDocument d →
    ((elementOf level name d).toDocument = .ok d ↔ Unambiguous name d)
  | .null, _ => iff_of_true rfl (unambiguous_leaf (by simp) (by simp))
  | .bool b, _ => iff_of_true (leaf_bool name b) (unambiguous_leaf (by simp) (by simp))
  | .int i, _ => iff_of_true (leaf_int name i) (unambiguous_leaf (by simp) (by simp))
  | .large n, h => by
    rw [elementOf, Element.toDocument]
    exact iff_of_true (leaf_large name (restorableDocument_large.mp h)) (unambiguous_leaf (by simp) (by simp))
  | .float x, h => absurd h id
  | .text s, _ => iff_of_true rfl (unambiguous_leaf (by simp) (by simp))
  | .list [], _ => iff_of_true rfl (unambiguous_list.mpr (by simp))
  | .list (d :: ds), h => by
    have hfirst : (elementOf (level + 1) (itemName name) d).name = itemName name := name_elementOf _ _ _
    rw [elementOf, itemElements, Element.toDocument, if_pos hfirst, map_list_eq_ok_iff, unambiguous_list]
    exact itemsNamed_iff (level + 1) (itemName name) (d :: ds) h
  | .mapping [], _ => iff_of_true rfl (unambiguous_mapping.mpr (by simp))
  | .mapping (field :: fields), h => by
    have hnames := names_entryElements (level + 1) (field :: fields)
    have hentries := fieldsOf_iff (level + 1) (field :: fields) h.2
    rw [unambiguous_mapping, ← hentries, elementOf]
    rw [entryElements] at hnames ⊢
    rw [Element.toDocument, name_elementOf]
    split
    · next hitem =>
      -- the first child reads as an item, so no mapping comes out
      refine iff_of_false (map_list_ne_mapping _ _) fun hclear => hclear.1 field rfl hitem
    · next hkey =>
      rw [map_mapping_eq_ok_iff hnames h.1.1]
      exact (and_iff_right (by simpa using hkey)).symm

theorem itemsNamed_iff (level : Nat) (name : String) : ∀ ds : List Document,
    Document.EverywhereItems Restorable PlainNames ds →
    (itemsNamed name (itemElements level name ds) = .ok ds ↔ ∀ d ∈ ds, Unambiguous name d)
  | [], _ => by simp [itemElements, itemsNamed]
  | d :: ds, h => by
    rw [itemElements, itemsNamed_cons_eq_ok_iff (name_elementOf _ _ _),
      toDocument_elementOf_iff level name d h.1, itemsNamed_iff level name ds h.2, List.forall_mem_cons]

theorem fieldsOf_iff (level : Nat) : ∀ fields : List (String × Document),
    Document.EverywhereFields Restorable PlainNames fields →
    (fieldsOf (entryElements level fields) = .ok fields ↔
      ∀ field ∈ fields, Unambiguous field.1 field.2)
  | [], _ => by simp [entryElements, fieldsOf]
  | (name, d) :: fields, h => by
    rw [entryElements, fieldsOf_cons_eq_ok_iff, toDocument_elementOf_iff level name d h.1,
      fieldsOf_iff level fields h.2, List.forall_mem_cons]
    simp [name_elementOf]

end

/-- The root of a mapping gives its document like any other element, without entries as well. -/
theorem rootDocument_elementOf_iff {fields : List (String × Document)}
    (h : RestorableDocument (.mapping fields)) :
    (elementOf 0 rootName (.mapping fields)).rootDocument = .ok (.mapping fields) ↔
      Unambiguous rootName (.mapping fields) := by
  rw [← toDocument_elementOf_iff 0 rootName _ h]
  cases fields with
  | nil => exact iff_of_true rfl rfl
  | cons field fields => rfl

theorem RestorableDocument.read_render_iff {fields : List (String × Document)}
    (h : RestorableDocument (.mapping fields)) :
    read (render (.mapping fields)) = .ok (.mapping fields) ↔ Unambiguous rootName (.mapping fields) := by
  rw [← rootDocument_elementOf_iff h, read, rootOf_render h]
  dsimp only
  cases (elementOf 0 rootName (.mapping fields)).rootDocument <;> simp

theorem read_render_iff {fields : List (String × Document)} (h : PlainDocument (.mapping fields)) :
    read (render (.mapping fields)) = .ok (.mapping fields) ↔
      Unambiguous rootName (.mapping fields) := h.restorable.read_render_iff

/-! ## Configurations -/

theorem plainDocument_mapping {fields : List (String × Document)} :
    PlainDocument (.mapping fields) ↔
      Ordered.Distinct fields ∧ ∀ field ∈ fields, isPlainName field.1 ∧ PlainDocument field.2 := by
  rw [PlainDocument, Document.everywhere_mapping]
  simp only [PlainNames, Ordered.keys, List.forall_mem_map, and_assoc]
  exact and_congr_right fun _ => ⟨fun h field hmem => ⟨h.1 field hmem, h.2 field hmem⟩,
    fun h => ⟨fun field hmem => (h field hmem).1, fun field hmem => (h field hmem).2⟩⟩

theorem plainDocument_withGlobals {globals fields : List (String × Document)}
    (hglobals : PlainDocument (.mapping globals)) (hfields : PlainDocument (.mapping fields)) :
    PlainDocument (.mapping (withGlobals globals fields)) := by
  rw [plainDocument_mapping] at hfields ⊢
  refine ⟨Ordered.distinct_insertAll ?_ _, fun field hfield => ?_⟩
  · split <;> simp [Ordered.Distinct]
  · rcases Ordered.mem_insertAll hfield with hfield | hfield
    · split at hfield
      · simp at hfield
      · obtain rfl := List.mem_singleton.mp hfield
        exact ⟨show isPlainName globalsKey by decide, hglobals⟩
    · exact hfields.2 field hfield

/-- **A configuration comes back from XML**, with the order of its keys and the types of its values,
exactly if no mapping in it is stored under a tag and has the tag after an underscore as its first
key. -/
theorem read_render_withGlobals_iff {globals fields : List (String × Document)}
    (hglobals : PlainDocument (.mapping globals)) (hfields : PlainDocument (.mapping fields)) :
    FileFormat.xml.read (FileFormat.xml.render (.mapping (withGlobals globals fields))) =
        .ok (.mapping (withGlobals globals fields)) ↔
      ∀ tag key first rest,
        Stored rootName (.mapping (withGlobals globals fields)) tag (.mapping ((key, first) :: rest)) →
          key ≠ "_" ++ tag :=
  read_render_iff (plainDocument_withGlobals hglobals hfields)

/-- A mapping two lists deep does not come back if its first key has three underscores in front of
the name of the lists. -/
theorem read_render_nested_mapping :
    PlainDocument (.mapping [("root", .text "a <b> & c")]) ∧
      PlainDocument (.mapping [("x", .list [.list [.mapping [("___x", .int 1)]]])]) ∧
      FileFormat.xml.read (FileFormat.xml.render (.mapping (withGlobals [("root", .text "a <b> & c")]
        [("x", .list [.list [.mapping [("___x", .int 1)]]])]))) ≠
        .ok (.mapping (withGlobals [("root", .text "a <b> & c")]
          [("x", .list [.list [.mapping [("___x", .int 1)]]])])) := by
  refine ⟨by decide, by decide, fun h => ?_⟩
  have hclear := (read_render_withGlobals_iff (by decide) (by decide)).mp h
  refine hclear "__x" "___x" (.int 1) [] ?_ rfl
  have hinner : Stored "x" (.list [.list [.mapping [("___x", .int 1)]]]) "__x"
      (.mapping [("___x", .int 1)]) :=
    .item List.mem_cons_self (.item List.mem_cons_self (.here _ _))
  refine .field ?_ hinner
  simp [withGlobals, Ordered.insert, globalsKey]

end LayeredConfig.Xml
