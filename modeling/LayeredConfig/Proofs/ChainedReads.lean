import LayeredConfig.Proofs.Lenient
import LayeredConfig.Proofs.Levels
import LayeredConfig.Proofs.Reachable

/-!
# Chained reads

A compound key is read on a tree as its end is read on the node that its beginning leads to: the same value, and the
same error or absence. For the path alone this holds in every tree (`Node.lookupNested_append`). What is read also
depends on the globals that placeholders are resolved with and on the options that say what a missing key is; that they
are the same for the node as for the root is what every session that can be reached ensures
(`Session.Reachable.chained_reads`). Whether a key is there is asked on the way down as its value is, so it is contained
exactly if it reads as something (`Node.containsNested_iff`).
-/

namespace LayeredConfig

open LayeredConfig.Path

namespace Node

variable {n child : Node} {path rest : List String} {v : Value}

/-- Whether there is a value at a path; each mapping on the way is asked for what is left of it. -/
def containsNested : List String → Node → Bool
  | [], _ => false
  | segment :: rest, n =>
    match n.entries.lookup segment with
    | none => false
    | some v =>
      if rest = [] then true
      else
        match v with
        | .node scope provenance children => containsNested rest ⟨scope, provenance, children⟩
        | _ => false

theorem containsNested_eq (path : List String) (n : Node) : containsNested path n = Path.contains path n.entries := by
  induction path generalizing n with
  | nil => rfl
  | cons segment rest ih =>
    rw [containsNested, Path.contains]
    by_cases hrest : rest = []
    · subst hrest
      rw [find?_singleton]
      cases n.entries.lookup segment <;> rfl
    · rw [find?_cons segment hrest]
      cases n.entries.lookup segment with
      | none => rfl
      | some v =>
        dsimp only
        rw [if_neg hrest]
        cases v with
        | node scope provenance children => exact ih ⟨scope, provenance, children⟩
        | _ => rfl

theorem lookupNested_cons (segment : String) (hrest : rest ≠ []) (n : Node) :
    lookupNested (segment :: rest) n =
      match n.entries.lookup segment with
      | some (.node scope provenance children) => lookupNested rest ⟨scope, provenance, children⟩
      | some _ => n.refuse (.keyMismatch segment)
      | none => n.refuse (.keyNotFound segment) := by
  cases rest with
  | nil => contradiction
  | cons next rest => rfl

/-- **A path is there exactly if it reads as something**, whatever the options of the nodes on the way are. -/
theorem containsNested_iff (path : List String) (n : Node) :
    containsNested path n = true ↔ ∃ v, lookupNested path n = .ok (some v) := by
  have hrefused (n : Node) (error : Error) : ¬ ∃ v : Value, n.refuse error = .ok (some v) := by
    rintro ⟨v, hv⟩
    exact refuse_ne_some n error v hv
  induction path generalizing n with
  | nil => exact iff_of_false (by simp [containsNested]) (hrefused n _)
  | cons segment rest ih =>
    rw [containsNested]
    by_cases hrest : rest = []
    · subst hrest
      rw [lookupNested]
      cases n.entries.lookup segment with
      | none => exact iff_of_false (by simp) (hrefused n _)
      | some v => exact iff_of_true rfl ⟨v, rfl⟩
    · rw [lookupNested_cons segment hrest]
      cases n.entries.lookup segment with
      | none => exact iff_of_false (by simp) (hrefused n _)
      | some v =>
        dsimp only
        rw [if_neg hrest]
        cases v with
        | node scope provenance children => exact ih ⟨scope, provenance, children⟩
        | _ => exact iff_of_false (by simp) (hrefused n _)

/-- **What is read below a node is read from it**, in every tree. -/
theorem lookupNested_append (h : find? path n.entries = some child.toValue) (hrest : rest ≠ []) :
    lookupNested (path ++ rest) n = lookupNested rest child := by
  induction path generalizing n with
  | nil => contradiction
  | cons segment path ih =>
    rw [List.cons_append, lookupNested_cons segment (by simp [hrest])]
    by_cases hpath : path = []
    · subst hpath
      rw [find?_singleton] at h
      rw [h]
      rfl
    · rw [find?_cons segment hpath] at h
      obtain ⟨children, hchildren, hbelow⟩ := Option.bind_eq_some_iff.mp h
      obtain ⟨v, hlookup, hv⟩ := Option.bind_eq_some_iff.mp hchildren
      rw [hlookup]
      cases v with
      | node scope provenance below =>
        obtain rfl := Option.some.inj hv
        exact ih (n := ⟨scope, provenance, below⟩) hbelow
      | _ => contradiction

theorem contains_append (h : find? path n.entries = some child.toValue) (hrest : rest ≠ []) :
    Path.contains (path ++ rest) n.entries = Path.contains rest child.entries := by
  rw [← containsNested_eq, ← containsNested_eq, Bool.eq_iff_iff, containsNested_iff, containsNested_iff,
    lookupNested_append h hrest]

/-- A node at a path belongs to the scope of the root, if all do. -/
theorem uniform_of_find? (hn : n.Uniform) (h : find? path n.entries = some child.toValue) :
    child.scope = n.scope ∧ child.Uniform := by
  obtain ⟨hscope, hentries⟩ := Value.within_node.mp (within_find? (uniform_iff.mp hn) h)
  exact ⟨hscope, uniform_iff.mpr (hscope ▸ hentries)⟩

theorem lookup_append (hn : n.Uniform) (h : find? path n.entries = some child.toValue) (hrest : rest ≠ []) :
    n.lookup (path ++ rest) = child.lookup rest := by
  rw [← lookupNested_eq hn, lookupNested_append h hrest, lookupNested_eq (uniform_of_find? hn h).2]

theorem node?_ofSegments (hcompound : n.scope.options.noCompoundKeys = false)
    (h : find? path n.entries = some child.toValue) : n.node? (.ofSegments path) = .ok (some child) := by
  have hpath : path ≠ [] := by
    rintro rfl
    contradiction
  unfold node?
  dsimp only
  rw [resolve_ofSegments hcompound hpath, lookup_of_find? h]
  rfl

theorem contains_iff (n : Node) (key : Key) : n.contains key = true ↔ ∃ v, n.getRaw key = .ok (some v) := by
  simp only [contains, Path.contains, getRaw, lookup_eq_some_iff, Option.isSome_iff_exists]

end Node

namespace Config

variable (c : Config) (key : Key)

theorem exists_get_iff : (∃ v, c.get key = .ok (some v)) ↔ ∃ v, c.tree.getRaw key = .ok (some v) := by
  rw [get]
  cases c.tree.getRaw key with
  | error error => exact iff_of_false (by simp [Except.map]) (by simp)
  | ok found => cases found <;> simp [Except.map]

end Config

namespace Session

variable {s : Session} {slot : String} {root : Node}

/-- **Compound reads are chained reads.** In a tree of a session that can be reached, if compound keys are not turned
off, a key that goes on below a node reads on the root as what is left of it reads on the node: with placeholders
resolved, as stored, and when it is only asked whether it is there. In every tree, and under all options, a key is there
exactly if it reads as something, whether the whole path is looked up or each node on the way is asked. -/
theorem Reachable.chained_reads (h : s.Reachable) (hroot : s.slots.lookup slot = some root)
    (hcompound : root.scope.options.noCompoundKeys = false) :
    (∀ (p q : List String) (child : Node), p ≠ [] → q ≠ [] →
      root.getRaw (.ofSegments p) = .ok (some child.toValue) →
        root.node? (.ofSegments p) = .ok (some child) ∧
        (s.configOf root).get (.ofSegments p) = .ok (some child.toValue) ∧
        (s.configOf root).get (.ofSegments (p ++ q)) = (s.configOf child).get (.ofSegments q) ∧
        root.getRaw (.ofSegments (p ++ q)) = child.getRaw (.ofSegments q) ∧
        root.contains (.ofSegments (p ++ q)) = child.contains (.ofSegments q)) ∧
    ∀ (c : Config) (key : Key),
      (c.tree.contains key = true ↔ ∃ v, c.tree.getRaw key = .ok (some v)) ∧
      (c.tree.contains key = true ↔ ∃ v, c.get key = .ok (some v)) ∧
      c.tree.contains key = Node.containsNested (c.tree.resolve key).segments c.tree ∧
      (c.tree.contains key = true ↔ ∃ v, Node.lookupNested (c.tree.resolve key).segments c.tree = .ok (some v)) := by
  refine ⟨fun p q child hp hq hread => ?_, fun c key => ?_⟩
  · have happend : p ++ q ≠ [] := by simp [hp]
    have hsegments : (root.resolve (.ofSegments p)).segments = p := Node.resolve_ofSegments hcompound hp
    rw [Node.getRaw, hsegments] at hread
    have hfind := Node.find?_of_lookup hread
    have huniform := (h.sound slot root hroot).1
    obtain ⟨hscope, -⟩ := Node.uniform_of_find? huniform hfind
    have hcompound' : child.scope.options.noCompoundKeys = false := hscope ▸ hcompound
    have hraw : root.getRaw (.ofSegments (p ++ q)) = child.getRaw (.ofSegments q) := by
      rw [Node.getRaw, Node.getRaw, Node.resolve_ofSegments hcompound happend, Node.resolve_ofSegments hcompound' hq]
      exact Node.lookup_append huniform hfind hq
    refine ⟨Node.node?_ofSegments hcompound hfind, ?_, ?_, hraw, ?_⟩
    · show (root.getRaw (.ofSegments p)).map _ = _
      rw [Node.getRaw, hsegments, hread]
      rfl
    · show (root.getRaw _).map _ = (child.getRaw _).map _
      rw [hraw, configOf, configOf, hscope]
    · rw [Node.contains, Node.contains, Node.resolve_ofSegments hcompound happend,
        Node.resolve_ofSegments hcompound' hq]
      exact Node.contains_append hfind hq
  · have hnested := Node.containsNested_eq (c.tree.resolve key).segments c.tree
    refine ⟨c.tree.contains_iff key, ?_, hnested.symm, ?_⟩
    · rw [c.tree.contains_iff, c.exists_get_iff]
    · rw [← Node.containsNested_iff, hnested, Node.contains]

/-- A text with a placeholder below a mapping, and two keys beside it that are not there. -/
theorem chained_reads_below_mapping :
    ∃ (s : Session) (root child : Node), s.Reachable ∧ s.slots.lookup "root" = some root ∧
      root.entries = [("a", child.toValue)] ∧ child.entries = [("b", .str "{g}")] ∧
      (s.configOf root).get (.ofSegments ["a", "b"]) = .ok (some (.str "x")) ∧
      (s.configOf child).get (.ofSegments ["b"]) = .ok (some (.str "x")) ∧
      (s.configOf root).get (.ofSegments ["a", "c"]) = .error (.keyNotFound "c") ∧
      (s.configOf child).get (.ofSegments ["c"]) = .error (.keyNotFound "c") ∧
      root.contains (.ofSegments ["a", "b", "c"]) = false := by
  let entries : Entries := [("a", .mapping [("b", .str "{g}")]), (globalsKey, .mapping [("g", .str "x")])]
  have hentered := Reachable.construct "root" (.empty [] []) (.ofEntries {} entries)
  let child : Node := ⟨⟨⟨1⟩, {}⟩, {}, [("b", .str "{g}")]⟩
  let root : Node := ⟨⟨⟨1⟩, {}⟩, {}, [("a", child.toValue)]⟩
  have hroot : ((empty [] []).enter "root" (.ofEntries {} entries)).slots.lookup "root" = some root := rfl
  obtain ⟨hchained, -⟩ := hentered.chained_reads hroot rfl
  have hread (q : List String) (hq : q ≠ []) := hchained ["a"] q child (by simp) hq rfl
  refine ⟨_, root, child, hentered, rfl, rfl, rfl, ?_, rfl, ?_, rfl, ?_⟩
  · exact (hread ["b"] (by simp)).2.2.1
  · exact (hread ["c"] (by simp)).2.2.1
  · exact (hread ["b", "c"] (by simp)).2.2.2.2

end Session

end LayeredConfig
