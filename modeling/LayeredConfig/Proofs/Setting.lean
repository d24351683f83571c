import LayeredConfig.Proofs.Levels

/-!
# Setting a value at a key

Written in place, a value is set at a key in whole or not at all: a leaf above the end of the key is the only thing
that makes it fail, and then no mapping has been made (`setKey_atomic`). Otherwise the value stands at the key, the
levels above it keep their entries in order, and every path that lies apart reads as before. One thing about such a
path can change: if it led to nothing through a mapping that was missing, it still leads to nothing through the one
that is made, and the error names the segment that is missing there (`setKey_moves_missing`).
-/

namespace LayeredConfig

namespace Config

open LayeredConfig.Path

/-- What setting a value at a key leaves of a configuration. -/
structure Sets (c : Config) (key : Key) (v : Value) (d : Config) : Prop where
  /-- Nothing but the entries of the tree is changed. -/
  rest : d = { c with tree := { c.tree with entries := d.tree.entries } }
  /-- The value stands at the key, bound to the tree. -/
  value : d.tree.getRaw key = .ok (some (v.rebind c.tree.scope))
  /-- A mapping stands above it wherever its path leads through. -/
  above : ∀ above ≠ [], above <+: (c.tree.resolve key).segments → above ≠ (c.tree.resolve key).segments →
    ∃ n : Node, d.tree.lookup above = .ok (some n.toValue)
  /-- The names of each level above it are in order, and a new one is last. -/
  order : ∀ above segment, above ++ [segment] <+: (c.tree.resolve key).segments →
    ∃ level, level? above d.tree.entries = some level ∧
      Ordered.keys level =
        let names := Ordered.keys ((level? above c.tree.entries).getD [])
        if segment ∈ names then names else names ++ [segment]
  /-- A path that lies apart reads as before, if it does so from a level that was there. If that level is new, the
  path has been missing one of the segments that lead to the level, and is missing its next one now. -/
  beside : ∀ other, Apart (c.tree.resolve key).segments other →
    ∃ above segment, PartAt (c.tree.resolve key).segments other above segment ∧
      if (level? above c.tree.entries).isSome then d.tree.lookup other = c.tree.lookup other
      else (∃ missing ∈ above, c.tree.lookup other = c.tree.refuse (.keyNotFound missing)) ∧
        d.tree.lookup other = d.tree.refuse (.keyNotFound segment)

theorem sets_of_write {c : Config} {key : Key} {v : Value} {written : Entries}
    (h : write c.tree.scope (v.rebind c.tree.scope) (c.tree.resolve key).segments c.tree.entries = .ok written) :
    c.Sets key v { c with tree := { c.tree with entries := written } } where
  rest := rfl
  value := Node.lookup_of_find? (find?_write_self (c.tree.resolve key).ne_nil h)
  above := by
    intro above habove hstarts hproper
    obtain ⟨below, hbelow⟩ := hstarts
    have hmore : below ≠ [] := fun he => hproper (by simpa [he] using hbelow)
    obtain ⟨segment, rest, rfl⟩ := List.exists_cons_of_ne_nil hmore
    rw [← hbelow] at h
    obtain ⟨u, hu⟩ := level?_write h
    obtain ⟨n, hfind, -⟩ := exists_node_of_level? habove hu
    exact ⟨n, Node.lookup_of_find? hfind⟩
  order := by
    rintro above segment ⟨rest, hrest⟩
    rw [← hrest, List.append_assoc, List.singleton_append] at h
    obtain ⟨u, hu⟩ := level?_write h
    exact ⟨_, hu, Ordered.keys_insert segment u _⟩
  beside := by
    intro other hother
    obtain ⟨above, segment, hpart⟩ := exists_partAt hother
    refine ⟨above, segment, hpart, ?_⟩
    obtain ⟨⟨next, rest, hpath, hne⟩, below, rfl⟩ := hpart
    cases hlevel : level? above c.tree.entries with
    | some level =>
      rw [hpath] at h
      exact Node.lookup_congr rfl (find_write_of_level? hne hlevel h below)
    | none =>
      -- No leaf is in the way, so it is for a missing mapping that the level is not there.
      have hfree : ∀ start, start <+: above → Path.leaf? start c.tree.entries = none := by
        intro start hstart
        refine exists_write_iff.mp ⟨written, h⟩ start ?_ ?_
        · rw [hpath]
          exact hstart.trans (List.prefix_append _ _)
        · rintro rfl
          have hlong := hstart.length_le
          rw [hpath, List.length_append, List.length_cons] at hlong
          omega
      obtain ⟨missing, hmem, hfind⟩ := find_of_level?_eq_none hlevel hfree (List.cons_ne_nil segment below)
      rw [hpath] at h
      exact ⟨⟨missing, hmem, Node.lookup_of_find_eq_absent hfind⟩,
        Node.lookup_of_find_eq_absent (find_write_of_made hne hlevel h below)⟩

end Config

namespace Mutation

open LayeredConfig.Path

variable {c : Config} {key : Key} {v : Value}

/-- Sets a value at a key. -/
def setKey (key : Key) (v : Value) : Mutation Unit := do
  setAt ((← get).tree.resolve key).segments v

theorem attempt_setKey (key : Key) (v : Value) (c : Config) :
    (setKey key v).attempt c = Attempt.ofResult c (c.setAt (c.tree.resolve key).segments v) := by
  rw [setKey, attempt_get_bind, attempt_setAt]

theorem setAt_eq_ok (path : List String) {written : Entries}
    (h : write c.tree.scope (v.rebind c.tree.scope) path c.tree.entries = .ok written) :
    c.setAt path v = .ok { c with tree := { c.tree with entries := written } } := by
  rw [Config.setAt, Node.setAt, h]
  rfl

theorem setAt_eq_error (path : List String) {segment : String}
    (h : write c.tree.scope (v.rebind c.tree.scope) path c.tree.entries = .error segment) :
    c.setAt path v = .error (.keyMismatch segment) := by
  rw [Config.setAt, Node.setAt, h]
  rfl

/-- **A value is set in whole or not at all.** In place, it cannot be set exactly if a leaf stands above the end of its
path. The error then names the last segment that leads to the first such leaf, under all options, and everything is as
it was. Otherwise the value stands at its path, with mappings above it, every level that leads there keeps its entries
in order with a new one last, and a path that lies apart reads as before, unless what it lacked was a mapping that is
now made: then it lacks the segment with which it leaves that mapping. -/
theorem setKey_atomic (processArguments : List String) (c : Config) (key : Key) (v : Value) :
    Change.apply processArguments c (.set key v) = ((setKey key v).attempt c).changed ∧
    ((∃ error, ((setKey key v).attempt c).error = some error) ↔
      ∃ above, InTheWay c.tree.entries (c.tree.resolve key).segments above) ∧
    (∀ error, ((setKey key v).attempt c).error = some error → ((setKey key v).attempt c).config = c ∧
      ∃ above segment, error = .keyMismatch segment ∧
        InTheWay c.tree.entries (c.tree.resolve key).segments (above ++ [segment]) ∧
        ∀ other, InTheWay c.tree.entries (c.tree.resolve key).segments other →
          (above ++ [segment]).length ≤ other.length) ∧
    (((setKey key v).attempt c).error = none → c.Sets key v ((setKey key v).attempt c).config) := by
  have happly : Change.apply processArguments c (.set key v) =
      (Attempt.ofResult c (c.setAt (c.tree.resolve key).segments v)).changed := by
    show c.changeTree ((c.tree.setAt (c.tree.resolve key).segments v).map (·, .done)) = _
    rw [Config.setAt]
    cases c.tree.setAt (c.tree.resolve key).segments v <;> rfl
  rw [attempt_setKey]
  refine ⟨happly, ?_⟩
  cases hwrite : write c.tree.scope (v.rebind c.tree.scope) (c.tree.resolve key).segments c.tree.entries with
  | ok written =>
    rw [setAt_eq_ok _ hwrite]
    have hfree : ¬ ∃ above, InTheWay c.tree.entries (c.tree.resolve key).segments above := by
      rintro ⟨above, habove⟩
      have hnone := exists_write_iff.mp ⟨written, hwrite⟩ above habove.starts habove.proper
      simpa [hnone] using habove.leaf
    exact ⟨iff_of_false (by simp [Attempt.ofResult]) hfree, by simp [Attempt.ofResult],
      fun _ => Config.sets_of_write hwrite⟩
  | error segment =>
    rw [setAt_eq_error _ hwrite]
    obtain ⟨above, habove⟩ := write_eq_error_iff.mp hwrite
    refine ⟨iff_of_true ⟨_, rfl⟩ ⟨_, habove⟩, ?_, by simp [Attempt.ofResult]⟩
    intro error herror
    obtain rfl := Option.some.inj herror
    exact ⟨rfl, above, segment, rfl, habove, fun other hother => habove.unique hother ▸ Nat.le_refl _⟩

/-- With nothing there, `a.c` lacks `a`; once `a.b` is set, it lacks `c`. -/
theorem setKey_moves_missing :
    let before := Config.empty {}
    let after := Change.apply [] before (.set (.parse "a.b") (.int 1))
    after.2 = .ok .done ∧ after.1.tree.getRaw (.parse "a.b") = .ok (some (.int 1)) ∧
    Apart (before.tree.resolve (.parse "a.b")).segments (before.tree.resolve (.parse "a.c")).segments ∧
    before.tree.getRaw (.parse "a.c") = .error (.keyNotFound "a") ∧
    after.1.tree.getRaw (.parse "a.c") = .error (.keyNotFound "c") := by
  have hset : (Key.parse "a.b").segments = ["a", "b"] := by decide
  have hread : (Key.parse "a.c").segments = ["a", "c"] := by decide
  refine ⟨rfl, rfl, ?_, rfl, rfl⟩
  show Apart (Key.parse "a.b").segments (Key.parse "a.c").segments
  rw [hset, hread]
  exact ⟨by decide, by decide⟩

end Mutation

end LayeredConfig
