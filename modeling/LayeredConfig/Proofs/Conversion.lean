import LayeredConfig.Command
import LayeredConfig.Proofs.Files
import LayeredConfig.Proofs.Regular
import LayeredConfig.Proofs.Reload
import Mathlib

/-!
# Converting files

A conversion loads one file and writes another. A configuration that was loaded can always be written without
loss (`representable_of_loadPlain`): what is read is regular, and a mapping under the reserved name has become
the globals. A conversion changes the files in place, and nothing but the disk can fail once it has opened its output
(`ends_converting`), which is a single file. So it succeeds or changes nothing, unless the disk breaks off, and as
long as the format reads back what it wrote, the new file loads as the configuration of the old one.
-/

namespace LayeredConfig

/-! ## Values of regular documents -/

namespace Value

mutual

theorem finite_proper_of_ofDocument : (d : Document) → {v : Value} → d.Regular → ofDocument d = .ok v →
    v.Finite ∧ v.Proper
  | .float x, v, hd, h => by
    cases h
    exact ⟨finite_float.mpr (Document.regular_float.mp hd), by simp [Proper, Everywhere]⟩
  | .list items, v, hd, h => by
    rw [ofDocument] at h
    obtain ⟨read, hread, rfl⟩ := map_eq_ok_iff.mp h
    have hitems := finite_proper_of_ofDocuments items (Document.regular_list.mp hd) hread
    exact ⟨finite_list.mpr fun v hv => (hitems v hv).1, proper_list.mpr fun v hv => (hitems v hv).2⟩
  | .mapping fields, v, hd, h => by
    rw [ofDocument] at h
    obtain ⟨entries, hentries, rfl⟩ := map_eq_ok_iff.mp h
    obtain ⟨hdistinct, hfields⟩ := Document.regular_mapping.mp hd
    obtain ⟨hkeys, hall⟩ := finite_proper_of_ofFields fields hfields hentries
    refine ⟨finite_node.mpr fun entry hentry => (hall entry hentry).1,
      proper_node.mpr ⟨?_, fun entry hentry => (hall entry hentry).2⟩⟩
    rw [Ordered.Distinct, hkeys]
    exact hdistinct
  | .null, v, _, h | .bool _, v, _, h | .int _, v, _, h | .text _, v, _, h => by
    cases h
    simp [Finite, Proper, Everywhere]
  | .large n, v, _, h => by cases h

theorem finite_proper_of_ofDocuments : (items : List Document) → {read : List Value} →
    (∀ d ∈ items, d.Regular) → ofDocuments items = .ok read → ∀ v ∈ read, v.Finite ∧ v.Proper
  | [], read, _, h => by
    cases h
    simp
  | d :: rest, read, hitems, h => by
    obtain ⟨hd, hrest⟩ := List.forall_mem_cons.mp hitems
    rw [ofDocuments] at h
    obtain ⟨v, hv, h⟩ := bind_eq_ok_iff.mp h
    obtain ⟨others, hothers, h⟩ := bind_eq_ok_iff.mp h
    cases h
    exact List.forall_mem_cons.mpr
      ⟨finite_proper_of_ofDocument d hd hv, finite_proper_of_ofDocuments rest hrest hothers⟩

theorem finite_proper_of_ofFields : (fields : List (String × Document)) → {entries : Entries} →
    (∀ field ∈ fields, field.2.Regular) → ofFields fields = .ok entries →
    Ordered.keys entries = Ordered.keys fields ∧ ∀ entry ∈ entries, entry.2.Finite ∧ entry.2.Proper
  | [], entries, _, h => by
    cases h
    exact ⟨rfl, by simp⟩
  | (key, d) :: rest, entries, hfields, h => by
    obtain ⟨hd, hrest⟩ := List.forall_mem_cons.mp hfields
    rw [ofFields] at h
    obtain ⟨v, hv, h⟩ := bind_eq_ok_iff.mp h
    obtain ⟨others, hothers, h⟩ := bind_eq_ok_iff.mp h
    cases h
    obtain ⟨hkeys, hall⟩ := finite_proper_of_ofFields rest hrest hothers
    refine ⟨?_, List.forall_mem_cons.mpr ⟨finite_proper_of_ofDocument d hd hv, hall⟩⟩
    rw [Ordered.keys_cons, Ordered.keys_cons, hkeys]

end

end Value

/-! ## Configurations of files -/

namespace Config

variable {c : Config} {entries globals : Entries} {files : Files} {path : String}

/-- A configuration of which the plain form keeps everything. -/
structure Representable (c : Config) : Prop where
  proper : c.Proper
  finite : c.Finite
  /-- There is no entry under the reserved name, or it is no mapping and there are no globals. -/
  reserved : c.tree.entries.lookup globalsKey = none ∨
    c.globals = [] ∧ Path.children? [globalsKey] c.tree.entries = none

theorem Representable.reloads (h : c.Representable) : c.Reloads := by
  rcases h.reserved with hfree | ⟨hglobals, hnode⟩
  · by_cases hglobals : c.globals = []
    · refine reloads_without_globals h.proper h.finite hglobals ?_
      rw [Path.children?_singleton, hfree, Option.bind_none]
    · exact reloads_with_globals h.proper h.finite hglobals hfree
  · exact reloads_without_globals h.proper h.finite hglobals hnode

theorem Representable.withoutGlobals (h : c.Representable) : Representable { c with globals := [] } where
  proper := ⟨h.proper.entries, ProperEntries.nil⟩
  finite := ⟨h.finite.entries, by simp [Value.FiniteEntries]⟩
  reserved := h.reserved.imp_right fun hreserved => ⟨rfl, hreserved.2⟩

theorem proper_freshTree (h : ProperEntries entries) : ProperEntries (freshTree entries).entries :=
  Value.proper_node.mp (Value.Everywhere.rebind _ (.mapping entries) (Value.proper_node.mpr h))

theorem finite_freshTree (h : Value.FiniteEntries entries) : Value.FiniteEntries (freshTree entries).entries :=
  Value.finite_node.mp (Value.Everywhere.rebind _ (.mapping entries) (Value.finite_node.mpr h))

theorem children?_freshTree (path : List String) (entries : Entries) :
    (Path.children? path (freshTree entries).entries).map Value.toFields =
      (Path.children? path entries).map Value.toFields :=
  Path.children?_of_toFields path (Value.toFields_rebindEntries _ entries)

/-- Whatever entries a file holds, their configuration can be written without loss. -/
theorem representable_ofEntries (hproper : ProperEntries entries) (hfinite : Value.FiniteEntries entries) :
    (ofEntries {} entries).Representable := by
  cases h : Path.children? [globalsKey] entries with
  | none =>
    rw [ofEntries_of_none h]
    refine ⟨⟨proper_freshTree hproper, ProperEntries.nil⟩,
      ⟨finite_freshTree hfinite, by simp [Value.FiniteEntries]⟩, Or.inr ⟨rfl, ?_⟩⟩
    have hchildren := children?_freshTree [globalsKey] entries
    rw [h] at hchildren
    exact Option.map_eq_none_iff.mp hchildren
  | some globals =>
    rw [ofEntries_of_some h]
    rw [Path.children?_singleton] at h
    obtain ⟨v, hv, hglobals⟩ := Option.bind_eq_some_iff.mp h
    have hrest : ProperEntries (freshTree (Ordered.erase globalsKey entries)).entries :=
      proper_freshTree hproper.erase
    have hfree : (freshTree (Ordered.erase globalsKey entries)).entries.lookup globalsKey = none := by
      refine Ordered.lookup_eq_none_iff.mpr ?_
      rw [freshTree, Value.keys_rebindEntries, ← Ordered.lookup_eq_none_iff, Ordered.erase_eq_alter hproper.1,
        Ordered.lookup_alter_self hproper.1, hv]
      rfl
    cases v with
    | node scope provenance children =>
      obtain rfl : children = globals := Option.some.inj hglobals
      have hmem := Ordered.mem_of_lookup hv
      refine ⟨⟨hrest, Value.proper_node.mp (hproper.2 _ hmem)⟩, ⟨?_, Value.finite_node.mp (hfinite _ hmem)⟩,
        Or.inl hfree⟩
      exact finite_freshTree fun entry hentry => hfinite entry (List.mem_of_mem_eraseP hentry)
    | _ => contradiction

theorem representable_ofDocument {d : Document} (hd : d.Regular) (h : ofDocument {} d = .ok c) :
    c.Representable := by
  cases d with
  | mapping fields =>
    obtain ⟨hdistinct, hfields⟩ := Document.regular_mapping.mp hd
    rw [ofDocument] at h
    cases hentries : Value.ofFields fields with
    | ok entries =>
      rw [hentries] at h
      obtain ⟨hkeys, hall⟩ := Value.finite_proper_of_ofFields fields hfields hentries
      rw [← Except.ok.inj h]
      refine representable_ofEntries ⟨?_, fun entry hentry => (hall entry hentry).2⟩
        fun entry hentry => (hall entry hentry).1
      rw [Ordered.Distinct, hkeys]
      exact hdistinct
    | error n =>
      rw [hentries] at h
      contradiction
  | null =>
    have hempty : (ofEntries {} []).Representable :=
      representable_ofEntries ProperEntries.nil (by simp [Value.FiniteEntries])
    exact Except.ok.inj h ▸ hempty
  | _ => contradiction

/-- A configuration as it comes from a file. -/
def fromFile (c : Config) (path : String) : Config :=
  (c.withProvenance ({ · with filename := some path })).withProvenance ({ · with arguments := none })

theorem loadPlain_eq_ok_iff :
    loadPlain files path = .ok c ↔ ∃ text format document read, files.find? path = some (.text text) ∧
      FileFormat.ofPath path = .ok format ∧ format.read text = .ok document ∧ ofDocument {} document = .ok read ∧
      c = read.fromFile path := by
  have hload : loadPlain files path =
      ofFile files path none {} >>= fun c => .ok (c.withProvenance ({ · with arguments := none })) := rfl
  rw [hload, bind_eq_ok_iff, ofFile]
  constructor
  · rintro ⟨found, hfound, hc⟩
    cases hc
    split at hfound
    · contradiction
    · next content hcontent =>
      obtain ⟨format, hformat, hfound⟩ := bind_eq_ok_iff.mp hfound
      obtain ⟨read, hread, hfound⟩ := bind_eq_ok_iff.mp hfound
      cases hfound
      cases content with
      | text s =>
        obtain ⟨document, hdocument, hread⟩ := bind_eq_ok_iff.mp hread
        exact ⟨s, format, document, read, hcontent, hformat, hdocument, hread, rfl⟩
      | bytes data => contradiction
  · rintro ⟨text, format, document, read, htext, hformat, hdocument, hread, rfl⟩
    refine ⟨_, ?_, rfl⟩
    rw [htext]
    refine bind_eq_ok_iff.mpr ⟨format, hformat, bind_eq_ok_iff.mpr ⟨read, ?_, rfl⟩⟩
    exact bind_eq_ok_iff.mpr ⟨document, hdocument, hread⟩

theorem representable_of_loadPlain (h : loadPlain files path = .ok c) : c.Representable := by
  obtain ⟨text, format, document, read, -, -, hread, hdocument, rfl⟩ := loadPlain_eq_ok_iff.mp h
  obtain ⟨hproper, hfinite, hreserved⟩ := representable_ofDocument (FileFormat.regular_of_read hread) hdocument
  exact ⟨⟨hproper.entries, hproper.globals⟩, ⟨hfinite.entries, hfinite.globals⟩, hreserved⟩

theorem Agrees.fromFile {read : Config} (h : read.Agrees c) (path : String) : (read.fromFile path).Agrees c :=
  ⟨h.tree, h.globals⟩

end Config

/-! ## Conversions -/

/-- A disk that is full takes nothing. -/
theorem FileContent.cut_zero (text : String) : cut text 0 = .text "" := by
  have hnothing : text.toUTF8.extract 0 0 = .empty := by simp
  rw [cut, hnothing]
  rfl

/-- A format reads back a document from the text it wrote. -/
def FileFormat.ReadsBack (format : FileFormat) (d : Document) : Prop := format.read (format.render d) = .ok d

namespace FileProgram

variable {α β : Type}

/-- The next program goes on with the files that this one left, unless this one failed. -/
theorem outcome_bind (program : FileProgram α) (next : α → FileProgram β) (files : Files) :
    (program >>= next).outcome files =
      match program.outcome files with
      | (.ok a, left) => (next a).outcome left
      | (.error error, left) => (.error error, left) := by
  unfold outcome
  simp only [ExceptT.run_bind, StateT.run_bind]
  generalize (program.run.run files : Except Error α × Files) = ended
  obtain ⟨result, left⟩ := ended
  cases result <;> rfl

theorem outcome_getThe_bind (next : Files → FileProgram β) (files : Files) :
    (getThe Files >>= next).outcome files = (next files).outcome files := rfl

theorem outcome_liftM_bind (result : Except Error α) (next : α → FileProgram β) (files : Files) :
    ((liftM result : FileProgram α) >>= next).outcome files =
      match result with
      | .ok a => (next a).outcome files
      | .error error => (.error error, files) := by
  cases result <;> rfl

/-- A text is written to a file that can be opened, whole or up to where the disk breaks off. -/
theorem outcome_write (disk : Disk) (path text : String) (files : Files) :
    (write disk path text).outcome files =
      match files.place? path with
      | none => (.error .fileAccess, files)
      | some place =>
        match disk.breaksAfter path text with
        | none => (.ok (), files.fill place (.text text))
        | some bytes => (.error .fileAccess, files.fill place (.cut text bytes)) := by
  have hcreate : (create path).outcome files =
      match files.place? path with
      | none => (.error .fileAccess, files)
      | some place => (.ok place, files.fill place (.text "")) := by
    rw [create, outcome_getThe_bind]
    cases files.place? path <;> rfl
  rw [write, outcome_bind, hcreate]
  cases hplace : files.place? path with
  | none => rfl
  | some place =>
    dsimp only
    cases disk.breaksAfter path text with
    | none => exact congrArg (Prod.mk _) (Files.fill_fill hplace (.text "") (.text text))
    | some bytes => exact congrArg (Prod.mk _) (Files.fill_fill hplace (.text "") (.cut text bytes))

end FileProgram

namespace Command

section

variable (disk : Disk) (files : Files) (input output : String) (includeGlobals : Bool)

/-- How a conversion ends: before its output is opened, while the disk takes the text, or after that. -/
inductive Ends : Except Error String × Files → Prop
  | unopened {error : Error} :
      (∀ c format, Config.loadPlain files input = .ok c → FileFormat.ofPath output = .ok format →
        ¬ files.Writable output) → Ends (.error error, files)
  | broken {c : Config} {format : FileFormat} {place : List String} {bytes : Nat} :
      Config.loadPlain files input = .ok c → FileFormat.ofPath output = .ok format →
      files.place? output = some place →
      disk.breaksAfter output (format.render (c.toDocument includeGlobals)) = some bytes →
      Ends (.error .fileAccess, files.fill place (.cut (format.render (c.toDocument includeGlobals)) bytes))
  | written {c : Config} {format : FileFormat} {place : List String} :
      Config.loadPlain files input = .ok c → FileFormat.ofPath output = .ok format →
      files.place? output = some place →
      disk.breaksAfter output (format.render (c.toDocument includeGlobals)) = none →
      Ends (.ok ("wrote " ++ output), files.fill place (.text (format.render (c.toDocument includeGlobals))))

/-- The disk breaks off a conversion whose input was loaded and whose output was opened. -/
structure BreaksOff (text : String) (bytes : Nat) : Prop where
  made : ∃ c format, Config.loadPlain files input = .ok c ∧ FileFormat.ofPath output = .ok format ∧
    text = format.render (c.toDocument includeGlobals)
  opened : files.Writable output
  broken : disk.breaksAfter output text = some bytes

/-- **Opening the output is the first step of a conversion that changes a file**, and the last but one that can fail. -/
theorem ends_converting : Ends disk files input output includeGlobals
    ((converting disk input output includeGlobals).outcome files) := by
  rw [converting, FileProgram.outcome_getThe_bind, FileProgram.outcome_liftM_bind]
  cases hload : Config.loadPlain files input with
  | error error => exact .unopened fun c format hc => by rw [hload] at hc; contradiction
  | ok c =>
    have hsave : c.save disk (some output) { includeGlobals } =
        ((liftM (FileFormat.ofPath output) : FileProgram FileFormat) >>= fun format =>
          FileProgram.write disk output (format.render (c.toDocument includeGlobals)) >>= fun _ => pure output) := rfl
    dsimp only
    rw [FileProgram.outcome_bind, hsave, FileProgram.outcome_liftM_bind]
    cases hformat : FileFormat.ofPath output with
    | error error => exact .unopened fun c format _ hf => by rw [hformat] at hf; contradiction
    | ok format =>
      dsimp only
      rw [FileProgram.outcome_bind, FileProgram.outcome_write]
      cases hplace : files.place? output with
      | none => exact .unopened fun _ _ _ _ => by rw [Files.writable_iff, hplace]; simp
      | some place =>
        dsimp only
        cases hdisk : disk.breaksAfter output (format.render (c.toDocument includeGlobals)) with
        | none => exact .written hload hformat hplace hdisk
        | some bytes => exact .broken hload hformat hplace hdisk

end

variable {files : Files} {input output : String} {includeGlobals : Bool} {place : List String}

/-- The text that breaks off is that of the input in the format of the output. -/
theorem BreaksOff.breaksAfter_eq {disk : Disk} {text : String} {bytes : Nat} {c : Config} {format : FileFormat}
    (h : BreaksOff disk files input output includeGlobals text bytes) (hload : Config.loadPlain files input = .ok c)
    (hformat : FileFormat.ofPath output = .ok format) :
    text = format.render (c.toDocument includeGlobals) ∧
      disk.breaksAfter output (format.render (c.toDocument includeGlobals)) = some bytes := by
  obtain ⟨⟨read, named, hread, hnamed, rfl⟩, -, hbroken⟩ := h
  obtain rfl := Except.ok.inj (hload.symm.trans hread)
  obtain rfl := Except.ok.inj (hformat.symm.trans hnamed)
  exact ⟨rfl, hbroken⟩

/-- What is written loads as it was, if the format reads it back. -/
theorem exists_loadPlain_of_fill {c : Config} {format : FileFormat} (hc : c.Representable)
    (hformat : FileFormat.ofPath output = .ok format) (hplace : files.place? output = some place)
    (hback : format.ReadsBack (c.toDocument includeGlobals)) :
    ∃ read,
      Config.loadPlain (files.fill place (.text (format.render (c.toDocument includeGlobals)))) output = .ok read ∧
      read.Agrees { c with globals := if includeGlobals then c.globals else [] } := by
  have hkept : Config.Representable { c with globals := if includeGlobals then c.globals else [] } := by
    cases includeGlobals with
    | true => exact hc
    | false => exact hc.withoutGlobals
  obtain ⟨document, read, hdocument, hread, hagrees, -⟩ := hkept.reloads
  have hsame : document = c.toDocument includeGlobals := by
    cases includeGlobals <;> exact (Except.ok.inj hdocument).symm
  subst hsame
  exact ⟨read.fromFile output, Config.loadPlain_eq_ok_iff.mpr
    ⟨_, format, _, read, Files.find?_fill hplace _, hformat, hback, hread, rfl⟩, hagrees.fromFile output⟩

/-- **A conversion succeeds exactly if the input loads, the output has a format and can be opened, and the disk takes
the text. If it fails, no file has changed, unless the disk broke off: so none has if the disk takes every text, and
otherwise the output holds the first bytes of the text, and every path that leads to another place names what it named
before. If it succeeds, every such path names what it named before as well, the output holds the configuration of the
input, and if its format reads that text back, the output loads as a configuration of an equal tree and equal globals,
or of no globals if these were left out.** -/
theorem run_convert (disk : Disk) (files : Files) (env : Environment) (input output : String) (includeGlobals : Bool) :
    let outcome := (convert input output includeGlobals).run files env disk
    ((∃ message, outcome.output = .ok message) ↔
      ∃ c format, Config.loadPlain files input = .ok c ∧ FileFormat.ofPath output = .ok format ∧
        files.Writable output ∧ disk.breaksAfter output (format.render (c.toDocument includeGlobals)) = none) ∧
    (∀ error, outcome.output = .error error →
      outcome.files = files ∨ ∃ text bytes, BreaksOff disk files input output includeGlobals text bytes) ∧
    ((∀ text, disk.breaksAfter output text = none) →
      ∀ error, outcome.output = .error error → outcome.files = files) ∧
    (∀ text bytes, BreaksOff disk files input output includeGlobals text bytes →
      outcome.output = .error .fileAccess ∧ outcome.files.find? output = some (.cut text bytes) ∧
        ∀ path, files.locate path ≠ files.locate output → outcome.files.find? path = files.find? path) ∧
    ∀ message, outcome.output = .ok message →
      (∀ path, files.locate path ≠ files.locate output → outcome.files.find? path = files.find? path) ∧
      ∃ c format, Config.loadPlain files input = .ok c ∧ FileFormat.ofPath output = .ok format ∧
        outcome.files.find? output = some (.text (format.render (c.toDocument includeGlobals))) ∧
        (format.ReadsBack (c.toDocument includeGlobals) →
          ∃ read, Config.loadPlain outcome.files output = .ok read ∧
            read.Agrees { c with globals := if includeGlobals then c.globals else [] }) := by
  have hends := ends_converting disk files input output includeGlobals
  have hrun : (convert input output includeGlobals).run files env disk =
      ⟨((converting disk input output includeGlobals).outcome files).1,
        ((converting disk input output includeGlobals).outcome files).2⟩ := rfl
  rw [hrun]
  generalize (converting disk input output includeGlobals).outcome files = ended at hends
  cases hends with
  | unopened hunopened =>
    refine ⟨iff_of_false (by simp) ?_, fun _ _ => Or.inl rfl, fun _ _ _ => rfl, ?_, by simp⟩
    · rintro ⟨c, format, hc, hformat, hopened, -⟩
      exact hunopened c format hc hformat hopened
    · rintro text bytes ⟨⟨c, format, hc, hformat, -⟩, hopened, -⟩
      exact absurd hopened (hunopened c format hc hformat)
  | @broken c format place bytes hload hformat hplace hdisk =>
    have hopened := Files.writable_iff.mpr ⟨place, hplace⟩
    refine ⟨iff_of_false (by simp) ?_, ?_, ?_, ?_, by simp⟩
    · rintro ⟨c', format', hc, hf, -, htaken⟩
      obtain rfl := Except.ok.inj (hload.symm.trans hc)
      obtain rfl := Except.ok.inj (hformat.symm.trans hf)
      rw [hdisk] at htaken
      contradiction
    · exact fun _ _ => Or.inr ⟨_, bytes, ⟨c, format, hload, hformat, rfl⟩, hopened, hdisk⟩
    · intro htakes
      rw [htakes] at hdisk
      contradiction
    · intro text n hbreaks
      obtain ⟨rfl, hbroken⟩ := hbreaks.breaksAfter_eq hload hformat
      obtain rfl := Option.some.inj (hdisk.symm.trans hbroken)
      exact ⟨rfl, Files.find?_fill hplace _, fun path hpath => Files.find?_fill_of_ne hplace _ hpath⟩
  | @written c format place hload hformat hplace hdisk =>
    have hopened := Files.writable_iff.mpr ⟨place, hplace⟩
    refine ⟨iff_of_true ⟨_, rfl⟩ ⟨c, format, hload, hformat, hopened, hdisk⟩, by simp, by simp, ?_, ?_⟩
    · intro text n hbreaks
      have hbroken := (hbreaks.breaksAfter_eq hload hformat).2
      rw [hdisk] at hbroken
      contradiction
    · intro _ _
      refine ⟨fun path hpath => Files.find?_fill_of_ne hplace _ hpath, c, format, hload, hformat,
        Files.find?_fill hplace _, fun hback => ?_⟩
      exact exists_loadPlain_of_fill (Config.representable_of_loadPlain hload) hformat hplace hback

/-- A JSON file is converted to a YAML file that loads as the same configuration, with its globals. A full disk leaves
the new file empty, and a name without a format no new file at all. -/
theorem run_convert_json_to_yaml :
    let files : Files := [("app.json", .text "\x7b\"_globals\":\x7b\"v\":true\x7d,\"a\":[\"b\"]\x7d")]
    let outcome := (convert "app.json" "app.yaml" true).run files ⟨[], true⟩
    let full := (convert "app.json" "app.yaml" true).run files ⟨[], true⟩ ⟨fun _ _ => some 0⟩
    (∃ c read, Config.loadPlain files "app.json" = .ok c ∧ c.globals = [("v", .bool true)] ∧
      Config.loadPlain outcome.files "app.yaml" = .ok read ∧ read.Agrees c) ∧
    full.output = .error .fileAccess ∧ full.files.find? "app.yaml" = some (.text "") ∧
    ((convert "app.json" "app.ini" true).run files ⟨[], true⟩).files = files := by
  intro files outcome full
  have hinput : Files.IsStep "app.json" := ⟨by decide, by decide, by decide⟩
  have houtput : Files.IsStep "app.yaml" := ⟨by decide, by decide, by decide⟩
  have hfind : files.find? "app.json" = some (.text "\x7b\"_globals\":\x7b\"v\":true\x7d,\"a\":[\"b\"]\x7d") := by
    rw [Files.find?, if_neg (by decide), Files.locate_of_isStep hinput (by decide), Option.bind_some]
    simp [files, Files.names_of_isStep hinput]
  have hjson : FileFormat.ofPath "app.json" = .ok .json := by cbv
  have hparsed : Json.read "\x7b\"_globals\":\x7b\"v\":true\x7d,\"a\":[\"b\"]\x7d" =
      .ok (.mapping [("_globals", .mapping [("v", .bool true)]), ("a", .list [.text "b"])]) := by cbv
  have hload := Config.loadPlain_eq_ok_iff.mpr ⟨_, _, _, _, hfind, hjson, hparsed, rfl, rfl⟩
  have hyaml : FileFormat.ofPath "app.yaml" = .ok .yaml := by cbv
  have hwritable : files.Writable "app.yaml" := by
    refine ⟨by decide, by decide, _, Files.locate_of_isStep houtput (by decide), by decide, ?_⟩
    simp [Files.isDirectory, files, Files.names_of_isStep hinput]
  have hini : FileFormat.ofPath "app.ini" = .error (.unsupportedFormat (.unknownExtension "app.ini")) := by cbv
  have hback : Yaml.read "_globals:\n  v: true\na:\n- b\n" =
      .ok (.mapping [("_globals", .mapping [("v", .bool true)]), ("a", .list [.text "b"])]) := by cbv
  obtain ⟨hsucceeds, -, -, -, hsuccess⟩ := run_convert .sound files ⟨[], true⟩ "app.json" "app.yaml" true
  obtain ⟨-, -, -, hbreaks, -⟩ := run_convert ⟨fun _ _ => some 0⟩ files ⟨[], true⟩ "app.json" "app.yaml" true
  obtain ⟨hnamed, -, hunchanged, -⟩ := run_convert .sound files ⟨[], true⟩ "app.json" "app.ini" true
  refine ⟨?_, ?_⟩
  · obtain ⟨message, hmessage⟩ := hsucceeds.mpr ⟨_, .yaml, hload, hyaml, hwritable, rfl⟩
    obtain ⟨-, c, format, hc, hformat, -, hreload⟩ := hsuccess message hmessage
    obtain rfl := Except.ok.inj (hload.symm.trans hc)
    obtain rfl := Except.ok.inj (hyaml.symm.trans hformat)
    obtain ⟨read, hread, hagrees⟩ := hreload hback
    exact ⟨_, read, hload, rfl, hread, hagrees⟩
  obtain ⟨herror, hleft, -⟩ := hbreaks _ 0 ⟨⟨_, .yaml, hload, hyaml, rfl⟩, hwritable, rfl⟩
  refine ⟨herror, hleft.trans (congrArg some (FileContent.cut_zero _)), ?_⟩
  cases hended : ((convert "app.json" "app.ini" true).run files ⟨[], true⟩).output with
  | error error => exact hunchanged (fun _ => rfl) error hended
  | ok message =>
    obtain ⟨_, format, -, hformat, -⟩ := hnamed.mp ⟨message, hended⟩
    rw [hini] at hformat
    contradiction

end Command

end LayeredConfig
