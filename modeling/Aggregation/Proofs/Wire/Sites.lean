import Aggregation.Proofs.Wire.Layout

/-! Where elements stand. The layout of a value holds the elements of documents, of arrays and of the scopes of code,
one in the other; each has a tag, a name and a value, and names lead to it from the outside. -/

namespace Aggregation.Wire

open Layout

/-- An element somewhere in a value: the names of the elements around it, the outermost first, its own name, the bytes
of the value in front of it, and its own value. An item of an array has its index as its name. -/
structure Site where
  around : List String
  name : String
  before : List UInt8
  value : Value

namespace Site

/-- The names on the way to an element, with its own at the end. -/
def names (s : Site) : List String := s.around ++ [s.name]

/-- The names with points between them. -/
def path (s : Site) : String := ".".intercalate s.names

/-- A place in the value of an element, as a place in what the element is in. -/
def within (name : String) (front : List UInt8) (s : Site) : Site :=
  { s with around := name :: s.around, before := front ++ s.before }

/-- A place behind more bytes. -/
def behind (front : List UInt8) (s : Site) : Site := { s with before := front ++ s.before }

/-- An element, what is in its value, and what comes after it. -/
def element (name : String) (v : Value) (inner later : List Site) : List Site :=
  let front := head v.elementType (Utf8.encode name)
  ⟨[], name, [], v⟩ :: (inner.map (within name front) ++ later.map (behind (front ++ Layout.value v)))

@[simp] theorem names_within (name : String) (front : List UInt8) (s : Site) :
    (s.within name front).names = name :: s.names := rfl

@[simp] theorem names_behind (front : List UInt8) (s : Site) : (s.behind front).names = s.names := rfl

/-- Where an element stands in bytes: in front of it are those that are said to be. -/
def StandsIn (s : Site) (bytes : List UInt8) : Prop :=
  ∃ after, bytes = s.before ++ (head s.value.elementType (Utf8.encode s.name) ++ Layout.value s.value ++ after)

variable {s : Site} {name : String} {v : Value} {inner later : List Site} {bytes front more : List UInt8}

theorem mem_element : s ∈ element name v inner later ↔
    s = ⟨[], name, [], v⟩ ∨
      (∃ t ∈ inner, s = t.within name (head v.elementType (Utf8.encode name))) ∨
      ∃ t ∈ later, s = t.behind (head v.elementType (Utf8.encode name) ++ Layout.value v) := by
  simp only [element, List.mem_cons, List.mem_append, List.mem_map, eq_comm]

theorem StandsIn.append (h : s.StandsIn bytes) (more : List UInt8) : s.StandsIn (bytes ++ more) := by
  obtain ⟨after, rfl⟩ := h
  exact ⟨after ++ more, by simp only [List.append_assoc]⟩

theorem StandsIn.within (h : s.StandsIn bytes) (name : String) (front : List UInt8) :
    (s.within name front).StandsIn (front ++ bytes) := by
  obtain ⟨after, rfl⟩ := h
  exact ⟨after, (List.append_assoc _ _ _).symm⟩

theorem StandsIn.behind (h : s.StandsIn bytes) (front : List UInt8) : (s.behind front).StandsIn (front ++ bytes) := by
  obtain ⟨after, rfl⟩ := h
  exact ⟨after, (List.append_assoc _ _ _).symm⟩

theorem standsIn_element (hs : s ∈ element name v inner later) (hinner : ∀ t ∈ inner, t.StandsIn (Layout.value v))
    (hlater : ∀ t ∈ later, t.StandsIn more) :
    s.StandsIn (head v.elementType (Utf8.encode name) ++ Layout.value v ++ more) := by
  rcases mem_element.1 hs with rfl | ⟨t, ht, rfl⟩ | ⟨t, ht, rfl⟩
  · exact ⟨more, rfl⟩
  · exact ((hinner t ht).within name _).append more
  · exact (hlater t ht).behind _

end Site

/-- The four bytes in front of a container. -/
def lengthWord (bytes : List UInt8) : List UInt8 := littleEndianBytes 4 bytes.length

theorem sized_eq (body : List UInt8) : sized body = lengthWord (sized body) ++ body := by
  rw [lengthWord, length_sized, sized]

theorem container_eq (body : List UInt8) : container body = lengthWord (container body) ++ (body ++ [0]) := sized_eq _

/-- What stands in front of the elements of the scope of code. -/
def scopeFront (code : String) (body : List UInt8) : List UInt8 :=
  lengthWord (sized (text code ++ container body)) ++ text code ++ lengthWord (container body)

theorem sized_scope_eq (code : String) (body : List UInt8) :
    sized (text code ++ container body) = scopeFront code body ++ (body ++ [0]) := by
  rw [scopeFront, List.append_assoc (_ ++ text code), ← container_eq, List.append_assoc, ← sized_eq]

mutual

/-- The elements in a value, at any depth, in the order of their bytes. -/
def sites : Value → List Site
  | .document ⟨fields⟩ => (fieldSites fields).map (.behind (lengthWord (container (elements fields))))
  | .array xs => (itemSites 0 xs).map (.behind (lengthWord (container (items 0 xs))))
  | .scopedCode code ⟨fields⟩ => (fieldSites fields).map (.behind (scopeFront code (elements fields)))
  | _ => []

/-- The elements in named values, beginning with their own. -/
def fieldSites : List (String × Value) → List Site
  | [] => []
  | (name, v) :: rest => Site.element name v (sites v) (fieldSites rest)

/-- The elements in the items of an array, beginning with their own. -/
def itemSites (index : Nat) : List Value → List Site
  | [] => []
  | v :: rest => Site.element (toString index) v (sites v) (itemSites (index + 1) rest)

end

mutual

/-- An element of a value stands where it is said to stand in its layout. -/
theorem standsIn_value {s : Site} : ∀ {v : Value}, s ∈ sites v → s.StandsIn (value v)
  | .document ⟨fields⟩, hs => by
    obtain ⟨t, ht, rfl⟩ := List.mem_map.1 hs
    have hbody := ((standsIn_elements ht).append [0]).behind (lengthWord (container (elements fields)))
    rwa [← container_eq] at hbody
  | .array xs, hs => by
    obtain ⟨t, ht, rfl⟩ := List.mem_map.1 hs
    have hbody := ((standsIn_items ht).append [0]).behind (lengthWord (container (items 0 xs)))
    rwa [← container_eq] at hbody
  | .scopedCode code ⟨fields⟩, hs => by
    obtain ⟨t, ht, rfl⟩ := List.mem_map.1 hs
    have hbody := ((standsIn_elements ht).append [0]).behind (scopeFront code (elements fields))
    rwa [← sized_scope_eq] at hbody

theorem standsIn_elements {s : Site} : ∀ {fields : List (String × Value)}, s ∈ fieldSites fields →
    s.StandsIn (elements fields)
  | (_, _) :: _, hs => Site.standsIn_element hs (fun _ ht => standsIn_value ht) fun _ ht => standsIn_elements ht

theorem standsIn_items {s : Site} : ∀ {index : Nat} {xs : List Value}, s ∈ itemSites index xs →
    s.StandsIn (items index xs)
  | _, _ :: _, hs => Site.standsIn_element hs (fun _ ht => standsIn_value ht) fun _ ht => standsIn_items ht

end

/-- The scope of code adds no name of its own. -/
example :
    (sites (.document ⟨[("a", .array [.null, .scopedCode "f" ⟨[("x", .null), ("y", .document ⟨[]⟩)]⟩])]⟩)).map
        (fun s => (s.path, s.before.length)) =
      [("a", 4), ("a.0", 11), ("a.1", 14), ("a.1.x", 31), ("a.1.y", 34)] := by
  decide +kernel

end Aggregation.Wire
