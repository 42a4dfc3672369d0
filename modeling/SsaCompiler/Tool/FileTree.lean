import SsaCompiler.Tool.Report

/-!
# Files in memory

A tree of directories, files and devices that lives in memory, as a host for the commands. A path is
walked name by name from the root or the working directory. Every name needs a directory to be
looked up in, and the first name that fails decides why the whole path fails.
-/

set_option autoImplicit false

namespace SsaCompiler

/-- Why a file operation fails. -/
inductive FileFault
  | missing
  | denied
  | notDirectory
  | isDirectory
  | noSpace
  | nameTooLong
  deriving DecidableEq, Repr

namespace FileFault

/-- All faults. -/
def all : List FileFault := [missing, denied, notDirectory, isDirectory, noSpace, nameTooLong]

/-- The number under which a system reports a fault. -/
def code : FileFault → Nat
  | missing => 2
  | denied => 13
  | notDirectory => 20
  | isDirectory => 21
  | noSpace => 28
  | nameTooLong => 36

/-- The fault with a number. -/
def ofCode? (n : Nat) : Option FileFault := all.find? fun f => f.code == n

/-- A fault in words. -/
def wording : FileFault → String
  | missing => "No such file or directory"
  | denied => "Permission denied"
  | notDirectory => "Not a directory"
  | isDirectory => "Is a directory"
  | noSpace => "No space left on device"
  | nameTooLong => "File name too long"

/-- The reason that a report gives for a fault. -/
def reason (f : FileFault) : String := s!"{f.wording} (os error {f.code})"

/-- A fault is known by its number. -/
theorem ofCode?_code (f : FileFault) : ofCode? f.code = some f := by cases f <;> rfl

end FileFault

/-- A stream or sink with a place among the files. -/
inductive Device
  /-- Takes every text and holds none. -/
  | null
  /-- Has no room for any text. -/
  | full
  | stdin
  | stdout
  | stderr
  deriving DecidableEq, Repr

/-- What stands at a place of the tree. -/
inductive FileNode
  | directory
  | file (text : String)
  | device (kind : Device)
  deriving DecidableEq, Repr

/-- The names on the way from the root to a file or directory. -/
abbrev Place := List String

/-- A tree of files, and the streams of the command that works on it. -/
structure FileTree where
  /-- What stands at the places below the root. -/
  nodes : List (Place × FileNode) := []
  workingDirectory : Place := []
  /-- The text on the standard input. -/
  stdin : String := ""
  /-- The text that went to the standard output by its device. -/
  stdout : String := ""
  /-- The text that went to the standard error by its device. -/
  stderr : String := ""
  deriving DecidableEq, Repr

namespace FileTree

/-- The longest name in bytes. -/
def maxNameLength : Nat := 255

/-- The longest path in bytes. -/
def maxPathLength : Nat := 4095

/-- What stands at a place. The root is a directory. -/
def nodeAt? (t : FileTree) (p : Place) : Option FileNode :=
  if p.isEmpty then some .directory else t.nodes.lookup p

/-- The tree with a node at a place, in the stead of the one that stood there. -/
def put (t : FileTree) (p : Place) (node : FileNode) : FileTree :=
  { t with nodes := (p, node) :: t.nodes }

/-- A node stands where it is put. -/
theorem nodeAt?_put_self (t : FileTree) (name : String) (p : Place) (node : FileNode) :
    (t.put (name :: p) node).nodeAt? (name :: p) = some node := by
  simp [nodeAt?, put]

/-- Other places stay as they are. -/
theorem nodeAt?_put_of_ne (t : FileTree) {p q : Place} (node : FileNode) (h : q ≠ p) :
    (t.put p node).nodeAt? q = t.nodeAt? q := by
  have hne : (q == p) = false := beq_eq_false_iff_ne.mpr h
  simp [nodeAt?, put, List.lookup_cons, hne]

/-- The place that a name leads to from a directory. An empty name and a single dot stay there, and
two dots lead to the directory above. -/
def enter (t : FileTree) (p : Place) (name : String) : Except FileFault Place :=
  match t.nodeAt? p with
  | none => .error .missing
  | some .directory =>
    if name = "" || name = "." then .ok p
    else if name = ".." then .ok p.dropLast
    else if maxNameLength < name.utf8ByteSize then .error .nameTooLong
    else .ok (p ++ [name])
  | some _ => .error .notDirectory

/-- The names of a path, with an empty one before a leading and after a trailing slash. -/
def names (path : String) : List String := path.splitOn "/"

/-- The place that the names of a path lead to. -/
def walk (t : FileTree) (path : String) (steps : List String) : Except FileFault Place :=
  if path = "" then .error .missing
  else if maxPathLength < path.utf8ByteSize then .error .nameTooLong
  else steps.foldlM t.enter (if path.startsWith "/" then [] else t.workingDirectory)

/-- The text of the file at a path. -/
def read (t : FileTree) (path : String) : Except FileFault String := do
  match t.nodeAt? (← t.walk path (names path)) with
  | none => .error .missing
  | some .directory => .error .isDirectory
  | some (.file text) => .ok text
  | some (.device .stdin) => .ok t.stdin
  | some (.device _) => .ok ""

/-- The tree with a text at a place that is no directory. -/
def store (t : FileTree) (p : Place) (text : String) : Except FileFault FileTree :=
  match t.nodeAt? p with
  | some .directory => .error .isDirectory
  | some (.device .stdout) => .ok { t with stdout := t.stdout ++ text }
  | some (.device .stderr) => .ok { t with stderr := t.stderr ++ text }
  | some (.device .full) => if text.isEmpty then .ok t else .error .noSpace
  | some (.device _) => .ok t
  | _ => .ok (t.put p (.file text))

/-- The tree with a text written to the file at a path. A path that ends in a slash asks for a
directory, whatever stands there. -/
def write (t : FileTree) (path text : String) : Except FileFault FileTree := do
  let place ← t.walk path ((names path).reverse.dropWhile (·.isEmpty)).reverse
  if path.endsWith "/" then .error .isDirectory else t.store place text

/-- The directories and devices that every system has. -/
def system : FileTree where
  nodes :=
    ["bin", "dev", "etc", "home", "root", "tmp", "usr", "var"].map (fun d => ([d], .directory))
      ++ [(["dev", "null"], .device .null), (["dev", "full"], .device .full),
        (["dev", "stdin"], .device .stdin), (["dev", "stdout"], .device .stdout),
        (["dev", "stderr"], .device .stderr)]

/-- The host that works on a tree. -/
def host : Host (StateM FileTree) where
  stdin := return .ok (← get).stdin
  read path := do
    return match (← get).read path with
      | .ok text => .ok text
      | .error fault => .error fault.reason
  write path text := do
    match (← get).write path text with
    | .ok t =>
      set t
      return .ok ()
    | .error fault => return .error fault.reason

end FileTree

end SsaCompiler
