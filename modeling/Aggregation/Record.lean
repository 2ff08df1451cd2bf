/-! Insertion-ordered records. A record is a finite map from names to values that remembers the
order in which its names were first inserted; it serves both as the document of the value model and as
the object of the text format. Inserting under a present name changes the value in place, removing a name
keeps the order of the others, so the names of a record built by `insert` and `remove` are distinct. -/

namespace Aggregation

/-- Named values, oldest name first. -/
structure Record (α : Type u) where
  entries : List (String × α)
  deriving DecidableEq, Repr, Inhabited

namespace Record

variable {α : Type u} {β : Type v}

/-- The record without names. -/
def empty : Record α := ⟨[]⟩

/-- The names, oldest first. -/
def keys (r : Record α) : List String := r.entries.map Prod.fst

/-- The number of names. -/
def size (r : Record α) : Nat := r.entries.length

def isEmpty (r : Record α) : Bool := r.entries.isEmpty

/-- The value under a name. -/
def get? (r : Record α) (key : String) : Option α := r.entries.lookup key

/-- Whether a name is present. -/
def contains (r : Record α) (key : String) : Bool := (r.get? key).isSome

/-- Puts a value under a name: in place if the name is present, at the end if it is new. -/
def insertEntry (key : String) (value : α) : List (String × α) → List (String × α)
  | [] => [(key, value)]
  | (k, v) :: rest => if k = key then (k, value) :: rest else (k, v) :: insertEntry key value rest

def insert (r : Record α) (key : String) (value : α) : Record α := ⟨insertEntry key value r.entries⟩

/-- Drops the first entry of a name. -/
def removeEntry (key : String) : List (String × α) → List (String × α)
  | [] => []
  | (k, v) :: rest => if k = key then rest else (k, v) :: removeEntry key rest

/-- The record without a name; the other names keep their order. -/
def remove (r : Record α) (key : String) : Record α := ⟨removeEntry key r.entries⟩

/-- Puts a value under a name and gives the one that it takes the place of. -/
def getThenInsert? (r : Record α) (key : String) (value : α) : Option α × Record α :=
  (r.get? key, r.insert key value)

/-- Drops a name and gives the value that it had. -/
def getThenRemove? (r : Record α) (key : String) : Option α × Record α := (r.get? key, r.remove key)

def single (key : String) (value : α) : Record α := ⟨[(key, value)]⟩

/-- Inserts the entries of a list in turn, so that a repeated name keeps its first place and its
last value. -/
def ofList (entries : List (String × α)) : Record α :=
  entries.foldl (fun r e => r.insert e.1 e.2) empty

/-- The names are pairwise distinct. -/
def Distinct (r : Record α) : Prop := r.keys.Nodup

end Record

end Aggregation
