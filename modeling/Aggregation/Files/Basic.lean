import Aggregation.Files.Path

/-! Files in a working directory and around it. A path is walked part by part, and only a directory can be walked
through: every part but the last one has to lead to one. The bases are directories, and so is every place on
the way to a file. -/

namespace Aggregation

open Files (Location)

/-- Files, each with its place and its bytes. -/
structure Files where
  entries : List (Location × List UInt8) := []
  deriving DecidableEq, Repr, Inhabited

namespace Files

/-- The bytes of the file at a place. -/
def get? (files : Files) (place : Location) : Option (List UInt8) := files.entries.lookup place

/-- Whether a place is a directory: a base, or on the way to a file. -/
def isDirectory (files : Files) (place : Location) : Bool :=
  place.names.isEmpty || files.entries.any fun (file, _) =>
    file.base == place.base && file.names != place.names && place.names.isSuffixOf file.names

def put (files : Files) (place : Location) (bytes : List UInt8) : Files :=
  ⟨(place, bytes) :: files.entries.filter (·.1 != place)⟩

@[simp] theorem get?_put_self (files : Files) (place : Location) (bytes : List UInt8) :
    (files.put place bytes).get? place = some bytes := by
  simp [put, get?]

/-- Other places keep what they hold. -/
theorem get?_put_of_ne (files : Files) {place other : Location} (bytes : List UInt8) (h : other ≠ place) :
    (files.put place bytes).get? other = files.get? other := by
  have kept (entries : List (Location × List UInt8)) :
      (entries.filter (·.1 != place)).lookup other = entries.lookup other := by
    induction entries with
    | nil => rfl
    | cons entry rest ih =>
      obtain ⟨key, value⟩ := entry
      by_cases hk : key = place
      · subst hk
        simp [List.lookup_cons, ih, beq_false_of_ne h]
      · simp [List.lookup_cons, ih, hk]
  simp [put, get?, List.lookup_cons, beq_false_of_ne h, kept]

/-- The files of the working directory by their names. -/
def ofList (named : List (String × List UInt8)) : Files :=
  named.foldl (fun files (name, bytes) => files.put ((Path.parts name.toList).foldl .toward {}) bytes) {}

/-- The place that a part names in a directory, unless the part is too long for a name. -/
def locate (here : Location) (part : String) : Except FileFault Location :=
  if maxNameBytes < part.utf8ByteSize then .error .nameTooLong else .ok (here.toward part)

def step (files : Files) (here : Location) (part : String) : Except FileFault Location := do
  let there ← locate here part
  if (files.get? there).isSome || files.isDirectory there then return there else throw .notFound

/-- The directory that a part leads to. -/
def enter (files : Files) (here : Location) (part : String) : Except FileFault Location := do
  let there ← files.step here part
  if files.isDirectory there then return there else throw .notDirectory

/-- The directory in which the last part of a path is looked up. -/
def walk (files : Files) (path : Path) : Except FileFault Location := path.leading.foldlM files.enter path.start

/-- The file or directory at a path. A path that ends with a slash has to lead to a directory. -/
def find (files : Files) (path : Path) : Except FileFault Location := do
  let here ← files.walk path
  if path.slash then files.enter here path.last else files.step here path.last

/-- The place of the file that is made at a path. No directory is made, and none is written over. -/
def target (files : Files) (path : Path) : Except FileFault Location := do
  let here ← files.walk path
  if path.slash then throw .isDirectory
  let there ← locate here path.last
  if files.isDirectory there then throw .isDirectory else return there

/-- The bytes at a path. A directory can be found but not read. -/
def read (files : Files) (path : String) : Except FileFault (List UInt8) := do
  let place ← files.find (← Path.ofText path)
  match files.get? place with
  | some bytes => return bytes
  | none => throw .isDirectory

def targetOf (files : Files) (path : String) : Except FileFault Location := do files.target (← Path.ofText path)

def write (files : Files) (path : String) (bytes : List UInt8) : Files :=
  match files.targetOf path with
  | .ok place => files.put place bytes
  | .error _ => files

/-- What the files let a program do. -/
def access (files : Files) : FileAccess := ⟨files.read, fun path => (files.targetOf path).map fun _ => ()⟩

end Files

end Aggregation
