import LayeredConfig.Change
import LayeredConfig.Loading
import LayeredConfig.Saving

/-!
# Sessions

Named nodes that live side by side. Nodes of one tree, and the copies taken out of it, share a
globals table: what is set through one of them shows in all. A configuration that enters a session
gets a table of its own.
-/

namespace LayeredConfig

structure Session where
  tables : List Globals
  slots : List (String × Node)
  files : Files
  processArguments : List String
deriving Inhabited

namespace Session

/-- A session without nodes; its only table is the empty one of loose nodes. -/
def empty (files : Files) (processArguments : List String) : Session :=
  ⟨[[]], [], files, processArguments⟩

def globals (s : Session) (table : TableId) : Globals := (s.tables[table.index]?).getD []

def configOf (s : Session) (n : Node) : Config := ⟨n, s.globals n.scope.table⟩

def config? (s : Session) (slot : String) : Option Config := (s.slots.lookup slot).map s.configOf

/-- Names a node that shares its globals with others. -/
def share (s : Session) (slot : String) (n : Node) : Session :=
  { s with slots := Ordered.insert slot n s.slots }

def fresh (s : Session) : TableId := ⟨s.tables.length⟩

/-- Names a node and gives the next table its contents. -/
def place (s : Session) (slot : String) (n : Node) (globals : Globals) : Session :=
  { s.share slot n with tables := s.tables ++ [globals] }

/-- Names a configuration whose table is in no session. Its nodes that have this table get the next
one; any others keep theirs. -/
def enter (s : Session) (slot : String) (c : Config) : Session :=
  s.place slot (c.tree.moveTo s.fresh) c.globals

/-- Names a copy of a configuration in which all nodes get the next table. -/
def detach (s : Session) (slot : String) (c : Config) : Session :=
  s.place slot (c.tree.rebind ⟨s.fresh, c.tree.scope.options⟩) c.globals

/-- Puts back a configuration that was changed: its node under the name, its globals into the table
that it shares. -/
def store (s : Session) (slot : String) (c : Config) : Session :=
  { s.share slot c.tree with tables := s.tables.set c.tree.scope.table.index c.globals }

/-! ## Steps -/

inductive Maker where
  | take (key : Key)
  /-- The tree with its placeholders resolved, and a table of its own. -/
  | resolve
  | child
  /-- A copy that shares the globals. -/
  | clone
deriving Inhabited

/-- Names a node made from a configuration, and says whether it did: at the key to take there may be
no node. -/
def make (s : Session) (c : Config) (slot : String) : Maker → Except Error Bool × Session
  | .take key =>
    match (c.get key).map (·.bind Value.asNode?) with
    | .ok (some n) => (.ok true, s.share slot n)
    | .ok none => (.ok false, s)
    | .error error => (.error error, s)
  | .resolve => (.ok true, s.detach slot c.resolved)
  | .child => (.ok true, s.share slot c.tree.child)
  | .clone => (.ok true, s.share slot c.tree)

def change (s : Session) (slot : String) (c : Config) (change : Change) :
    Except Error Report × Session :=
  let (changed, report) := change.apply s.processArguments c
  (report, s.store slot changed)

def save (s : Session) (c : Config) (path : Option String) (options : SaveOptions)
    (disk : Disk := .sound) : Except Error String × Session :=
  let (written, files) := (c.save disk path options).outcome s.files
  (written, { s with files })

end Session

end LayeredConfig
