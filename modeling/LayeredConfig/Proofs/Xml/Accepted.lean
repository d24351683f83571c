import LayeredConfig.Proofs.Run
import LayeredConfig.Proofs.Xml.RoundTrip
import Mathlib

/-!
# Documents that were read from XML

Whatever text a document was read from, it comes back from the text that is written of it, provided that names are
plain and no leaf is marked as a float (`read_render_of_read`). Attributes, comments, text beside elements and items of
another name are gone once it is a document, so what remains is that no mapping looks like a list
(`established_unambiguous`). The first key of a mapping is the name of the first child of its element, whatever comes
after it; if that were the name of the items of a list, the element would have been read as a list.
-/

namespace LayeredConfig.Xml

/-! ## The elements inside an element -/

/-- The type that an element is marked with. -/
def Element.mark : Element → Option String
  | mk _ mark _ _ => mark

mutual

/-- The elements inside an element, at all depths. -/
def Element.inside : Element → List Element
  | .mk _ _ _ children => throughout children

/-- Elements, and the elements inside them. -/
def throughout : List Element → List Element
  | [] => []
  | e :: rest => e :: (e.inside ++ throughout rest)

end

theorem forall_throughout_cons {Q : Element → Prop} {e : Element} {rest : List Element} :
    (∀ part ∈ throughout (e :: rest), Q part) ↔
      (Q e ∧ ∀ part ∈ e.inside, Q part) ∧ ∀ part ∈ throughout rest, Q part := by
  rw [throughout, List.forall_mem_cons, List.forall_mem_append, and_assoc]

/-! ## What reading establishes -/

/-- What holds of a document under a name by the way it is read, as long as some condition holds of each element it is
read from. -/
structure Established (Q : Element → Prop) (P : String → Document → Prop) : Prop where
  leaf : ∀ {name mark text d}, Q (.mk name mark text []) → leaf name mark text = .ok d → P name d
  list : ∀ {e : Element} {ds}, Q e → (∀ d ∈ ds, P (itemName e.name) d) → P e.name (.list ds)
  mapping : ∀ {e : Element} {fields}, Q e → Ordered.Distinct fields →
    (∀ key ∈ (Ordered.keys fields).head?, key ≠ itemName e.name) → (∀ field ∈ fields, P field.1 field.2) →
    P e.name (.mapping fields)

variable {Q : Element → Prop} {P : String → Document → Prop}

mutual

theorem Established.toDocument (h : Established Q P) : (e : Element) → {d : Document} → Q e →
    (∀ part ∈ e.inside, Q part) → e.toDocument = .ok d → P e.name d
  | .mk name mark text [], d, he, _, hread => h.leaf he hread
  | .mk name mark text (first :: others), d, he, hinside, hread => by
    rw [Element.inside] at hinside
    rw [Element.toDocument] at hread
    split at hread
    · obtain ⟨ds, hds, rfl⟩ := map_eq_ok_iff.mp hread
      exact h.list he (h.itemsNamed _ _ hinside hds)
    · next hfirst =>
      obtain ⟨fields, hfields, rfl⟩ := map_eq_ok_iff.mp hread
      refine h.mapping he (Ordered.distinct_ofList fields) (fun key hkey => ?_) fun field hfield => ?_
      · rw [Ordered.head?_keys_ofList, keys_fieldsOf hfields, List.map_cons, List.head?_cons] at hkey
        rw [← Option.some.inj hkey]
        exact hfirst
      · exact h.fieldsOf _ hinside hfields field (Ordered.mem_ofList hfield)

theorem Established.itemsNamed (h : Established Q P) (name : String) : (es : List Element) → {ds : List Document} →
    (∀ part ∈ throughout es, Q part) → itemsNamed name es = .ok ds → ∀ d ∈ ds, P name d
  | [], ds, _, hread => by
    cases hread
    simp
  | e :: rest, ds, hparts, hread => by
    obtain ⟨⟨he, hinside⟩, hrest⟩ := forall_throughout_cons.mp hparts
    rw [Xml.itemsNamed] at hread
    split at hread
    · next hname =>
      obtain ⟨d, hd, hread⟩ := bind_eq_ok_iff.mp hread
      obtain ⟨others, hothers, hread⟩ := bind_eq_ok_iff.mp hread
      cases hread
      exact List.forall_mem_cons.mpr ⟨hname ▸ h.toDocument e he hinside hd, h.itemsNamed name rest hrest hothers⟩
    · exact h.itemsNamed name rest hrest hread

theorem Established.fieldsOf (h : Established Q P) : (es : List Element) → {fields : List (String × Document)} →
    (∀ part ∈ throughout es, Q part) → fieldsOf es = .ok fields → ∀ field ∈ fields, P field.1 field.2
  | [], fields, _, hread => by
    cases hread
    simp
  | e :: rest, fields, hparts, hread => by
    obtain ⟨⟨he, hinside⟩, hrest⟩ := forall_throughout_cons.mp hparts
    rw [Xml.fieldsOf] at hread
    obtain ⟨d, hd, hread⟩ := bind_eq_ok_iff.mp hread
    obtain ⟨others, hothers, hread⟩ := bind_eq_ok_iff.mp hread
    cases hread
    exact List.forall_mem_cons.mpr ⟨h.toDocument e he hinside hd, h.fieldsOf rest hrest hothers⟩

end

/-- The root without children is read as a mapping without entries, whatever it is marked with. -/
theorem Established.rootDocument (h : Established Q P) {root : Element} {d : Document}
    (hroot : root.children ≠ [] → Q root) (hinside : ∀ part ∈ root.inside, Q part)
    (hempty : P root.name (.mapping [])) (hread : root.rootDocument = .ok d) : P root.name d := by
  unfold Element.rootDocument at hread
  split at hread
  · cases hread
    exact hempty
  · next hchildren => exact h.toDocument root (hroot (by simpa using hchildren)) hinside hread

/-! ## Leaves -/

variable {name : String} {mark : Option String} {text : String} {d : Document}

theorem restorable_and_unambiguous (hd : Restorable d) (hlist : ∀ items, d ≠ .list items)
    (hmapping : ∀ fields, d ≠ .mapping fields) : RestorableDocument d ∧ Unambiguous name d := by
  refine ⟨?_, unambiguous_leaf hlist hmapping⟩
  cases d with
  | list items => exact absurd rfl (hlist items)
  | mapping fields => exact absurd rfl (hmapping fields)
  | _ => exact hd

/-- What a leaf is read as can be told from its text, and has no parts; but a float is read as itself or as null. -/
theorem leaf_cases (h : leaf name mark text = .ok d) :
    (RestorableDocument d ∧ Unambiguous name d) ∨ mark = some "float" ∧ ∃ x, d = .ofFloat x := by
  unfold leaf at h
  simp only at h
  split at h
  -- text, whether marked or not, and null
  case h_1 | h_2 | h_6 =>
    cases h
    exact .inl (restorable_and_unambiguous trivial (by simp) (by simp))
  -- an integer, of the signed range if it can be
  case h_3 =>
    split at h
    · cases h
      exact .inl (restorable_and_unambiguous trivial (by simp) (by simp))
    · next hsigned hunsigned =>
      cases h
      have hlarge := restorableDocument_large.mpr (lt_of_readInt64?_eq_none hsigned hunsigned)
      exact .inl ⟨hlarge, unambiguous_leaf (by simp) (by simp)⟩
    · cases h
  case h_4 =>
    split at h
    · next x _ =>
      cases h
      exact .inr ⟨rfl, x, rfl⟩
    · cases h
  case h_5 =>
    split at h
    all_goals cases h
    all_goals exact .inl (restorable_and_unambiguous trivial (by simp) (by simp))
  -- marks of a list and a mapping without contents
  case h_7 =>
    cases h
    exact .inl ⟨Document.everywhere_list.mpr (by simp), unambiguous_list.mpr (by simp)⟩
  case h_8 =>
    cases h
    exact .inl ⟨Document.everywhere_mapping.mpr (by simp [PlainNames]), unambiguous_mapping.mpr (by simp)⟩
  case h_9 => cases h

theorem unambiguous_of_leaf (h : leaf name mark text = .ok d) : Unambiguous name d := by
  rcases leaf_cases h with h | ⟨-, x, rfl⟩
  · exact h.2
  · unfold Document.ofFloat
    split <;> exact unambiguous_leaf (by simp) (by simp)

theorem restorable_of_leaf (h : leaf name mark text = .ok d) (hmark : mark ≠ some "float") :
    RestorableDocument d := by
  rcases leaf_cases h with h | ⟨hfloat, -⟩
  · exact h.1
  · contradiction

/-! ## Texts -/

theorem rootDocument_of_read {root : Element} (hroot : rootOf (tokens text) = .ok root) (hread : read text = .ok d) :
    root.rootDocument = .ok d := by
  rw [read, hroot] at hread
  dsimp only at hread
  split at hread
  · cases hread
  · next hdocument => rw [hdocument, Except.ok.inj hread]

/-- **No document that is read has a mapping that looks like a list.** -/
theorem established_unambiguous : Established (fun _ => True) Unambiguous where
  leaf _ h := unambiguous_of_leaf h
  list _ h := unambiguous_list.mpr h
  mapping _ _ hfirst h := by
    refine unambiguous_mapping.mpr ⟨fun field hfield => ?_, h⟩
    exact hfirst field.1 (by rw [Ordered.keys, List.head?_map, hfield]; rfl)

/-- An element of a plain name that is no leaf marked as a float. -/
structure Element.Plain (e : Element) : Prop where
  name : isPlainName e.name
  mark : e.children = [] → e.mark ≠ some "float"

theorem established_restorable :
    Established Element.Plain fun name d => isPlainName name ∧ RestorableDocument d where
  leaf he h := ⟨he.name, restorable_of_leaf h (he.mark rfl)⟩
  list he h := ⟨he.name, Document.everywhere_list.mpr fun d hd => (h d hd).2⟩
  mapping he hdistinct _ h := by
    refine ⟨he.name, Document.everywhere_mapping.mpr ⟨⟨hdistinct, ?_⟩, fun field hfield => (h field hfield).2⟩⟩
    exact List.forall_mem_map.mpr fun field hfield => (h field hfield).1

/-- **What was read from a text is read from what is written of it**, whatever the text was, if its root has the name
that is written, and the elements inside the root have plain names and no leaf of them is marked as a float. -/
theorem read_render_of_read {text : String} {root : Element} {fields : List (String × Document)}
    (hroot : rootOf (tokens text) = .ok root) (hname : root.name = rootName)
    (hnames : ∀ e ∈ root.inside, isPlainName e.name)
    (hleaves : ∀ e ∈ root.inside, e.children = [] → e.mark ≠ some "float")
    (hread : FileFormat.xml.read text = .ok (.mapping fields)) :
    FileFormat.xml.read (FileFormat.xml.render (.mapping fields)) = .ok (.mapping fields) := by
  have hdocument : root.rootDocument = .ok (.mapping fields) := rootDocument_of_read hroot hread
  have hplain : ∀ e ∈ root.inside, e.Plain := fun e he => ⟨hnames e he, hleaves e he⟩
  have hrestorable : isPlainName root.name ∧ RestorableDocument (.mapping fields) := by
    have hconfig : isPlainName root.name := by rw [hname]; decide
    have hempty : RestorableDocument (.mapping []) := Document.everywhere_mapping.mpr (by simp [PlainNames])
    have hself : root.children ≠ [] → root.Plain := fun hchildren => ⟨hconfig, fun h => absurd h hchildren⟩
    exact established_restorable.rootDocument hself hplain ⟨hconfig, hempty⟩ hdocument
  have hunambiguous : Unambiguous root.name (.mapping fields) :=
    established_unambiguous.rootDocument (fun _ => trivial) (fun _ _ => trivial)
      (unambiguous_mapping.mpr (by simp)) hdocument
  exact hrestorable.2.read_render_iff.mpr (hname ▸ hunambiguous)

set_option maxRecDepth 2000 in
/-- An attribute, a comment, text beside elements, a section of character data, a reference, a child among items of
another name and an element that comes twice: the document is what counts. -/
theorem read_render_of_stray_child :
    let text :=
      "<config a='1'>mixed<!-- --><x><_x _type=\"int\">80</_x><y/><_x><![CDATA[<]]></_x></x><n>&#65;</n><n/></config>"
    let items : List Element := [.mk "_x" (some "int") "80" [], .mk "y" none "" [], .mk "_x" none "<" []]
    let root : Element := .mk "config" none "mixed" [.mk "x" none "" items, .mk "n" none "A" [], .mk "n" none "" []]
    let fields : List (String × Document) := [("x", .list [.int 80, .text "<"]), ("n", .text "")]
    rootOf (tokens text) = .ok root ∧ root.name = rootName ∧ (∀ e ∈ root.inside, isPlainName e.name) ∧
      (∀ e ∈ root.inside, e.children = [] → e.mark ≠ some "float") ∧
      FileFormat.xml.read text = .ok (.mapping fields) ∧
      FileFormat.xml.read (FileFormat.xml.render (.mapping fields)) = .ok (.mapping fields) := by
  intro text items root fields
  have hroot : rootOf (tokens text) = .ok root := by cbv
  have hnames : ∀ e ∈ root.inside, isPlainName e.name := by decide
  have hleaves : ∀ e ∈ root.inside, e.children = [] → e.mark ≠ some "float" := by decide
  have hread : FileFormat.xml.read text = .ok (.mapping fields) := by
    rw [FileFormat.read, read, hroot]
    cbv
  exact ⟨hroot, rfl, hnames, hleaves, hread, read_render_of_read hroot rfl hnames hleaves hread⟩

end LayeredConfig.Xml
