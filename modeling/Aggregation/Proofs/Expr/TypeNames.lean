import Aggregation.Expr.ResultType
import Mathlib.Data.List.Basic

/-!
The names of types and back. A type has the spelling of its innermost type, nested as deep as the type is; only the
two widths of integers have a second spelling. Reading takes exactly these texts.
-/

namespace Aggregation.ResultType

/-- How many arrays are around the innermost type. -/
def depth : ResultType → Nat
  | .array item => item.depth + 1
  | _ => 0

/-- The type without the arrays around it. -/
def innermost : ResultType → ResultType
  | .array item => item.innermost
  | t => t

/-- What else a type may be called. -/
def aliases : ResultType → List String
  | .int32 => ["int"]
  | .int64 => ["long"]
  | _ => []

/-- A word with so many arrays around it. -/
def nest : Nat → String → String
  | 0, word => word
  | depth + 1, word => "array<" ++ nest depth word ++ ">"

/-- A text is the name of a type, or that name with another word for the innermost type. -/
def Spells (s : String) (t : ResultType) : Prop := s = t.name ∨ ∃ word ∈ t.innermost.aliases, s = nest t.depth word

variable {s : String} {t item : ResultType} {name inner : List Char}

theorem name_eq_nest (t : ResultType) : t.name = nest t.depth t.innermost.name := by
  induction t with
  | array item ih => rw [name, depth, innermost, nest, ih]
  | any | null | bool | int32 | int64 | double | string | binary | document => rfl

/-- A spelling of an array is one of its items between the brackets. -/
theorem spells_array : Spells s (.array item) ↔ ∃ u, Spells u item ∧ s = "array<" ++ u ++ ">" := by
  constructor
  · rintro (rfl | ⟨word, hword, rfl⟩)
    · exact ⟨item.name, .inl rfl, rfl⟩
    · exact ⟨nest item.depth word, .inr ⟨word, hword, rfl⟩, rfl⟩
  · rintro ⟨u, rfl | ⟨word, hword, rfl⟩, rfl⟩
    · exact .inl rfl
    · exact .inr ⟨word, hword, rfl⟩

theorem ofList_array (inner : List Char) :
    String.ofList (opening ++ inner ++ ['>']) = "array<" ++ String.ofList inner ++ ">" := by
  rw [String.ofList_append, String.ofList_append]
  rfl

/-- The words of the table are the spellings of the types that are no arrays. -/
theorem lookup_scalarNames : scalarNames.lookup s = some t ↔ t.depth = 0 ∧ Spells s t := by
  constructor
  · intro h
    have hmem : (s, t) ∈ scalarNames := by
      obtain ⟨before, after, hsplit, -⟩ := List.lookup_eq_some_iff.1 h
      rw [hsplit]
      exact List.mem_append_right _ List.mem_cons_self
    have hall : ∀ entry ∈ scalarNames, entry.2.depth = 0 ∧
        (entry.1 = entry.2.name ∨ ∃ word ∈ entry.2.innermost.aliases, entry.1 = nest entry.2.depth word) := by decide
    exact hall (s, t) hmem
  · rintro ⟨hdepth, rfl | ⟨word, hword, rfl⟩⟩
    · cases t with
      | array => cases hdepth
      | any | null | bool | int32 | int64 | double | string | binary | document => rfl
    · cases t with
      | array => cases hdepth
      | int32 | int64 =>
          rw [List.mem_singleton.1 hword]
          rfl
      | any | null | bool | double | string | binary | document => cases hword

/-- No word of the table begins like an array. -/
theorem lookup_scalarNames_array (u : String) : scalarNames.lookup ("array<" ++ u ++ ">") = none := by
  rw [List.lookup_eq_none_iff]
  intro entry hentry
  have hall : ∀ entry ∈ scalarNames, ¬opening <+: entry.1.toList := by decide
  refine bne_iff_ne.2 fun heq => hall entry hentry ?_
  rw [← heq, String.toList_append, String.toList_append, List.append_assoc]
  exact List.prefix_append _ _

theorem itemName?_eq_some_iff : itemName? name = some inner ↔ name = opening ++ inner ++ ['>'] := by
  unfold itemName?
  constructor
  · intro h
    split at h
    · next hopening =>
        split at h
        · next hlast =>
            obtain ⟨rest, hrest⟩ := List.isPrefixOf_iff_prefix.1 hopening
            rw [← hrest, List.drop_left] at h hlast
            have hsplit := List.dropLast_append_getLast? '>' hlast
            rw [Option.some.inj h] at hsplit
            rw [← hrest, ← hsplit, List.append_assoc]
        · cases h
    · cases h
  · rintro rfl
    have hopening : opening.isPrefixOf (opening ++ inner ++ ['>']) = true := by
      rw [List.append_assoc]
      exact List.isPrefixOf_iff_prefix.2 (List.prefix_append _ _)
    rw [if_pos hopening, List.append_assoc, List.drop_left, List.getLast?_concat]
    exact congrArg some List.dropLast_concat

/-- One step of reading: a word of the table, or what stands between the brackets. -/
theorem ofNameWithin_succ_eq_some_iff {fuel : Nat} : ofNameWithin (fuel + 1) name = some t ↔
    scalarNames.lookup (String.ofList name) = some t ∨
      ∃ item inner, t = .array item ∧ name = opening ++ inner ++ ['>'] ∧ ofNameWithin fuel inner = some item := by
  rw [ofNameWithin]
  constructor
  · intro h
    split at h
    · next hword => exact .inl (h ▸ hword)
    · obtain ⟨inner, hinner, h⟩ := Option.bind_eq_some_iff.1 h
      obtain ⟨item, hitem, h⟩ := Option.bind_eq_some_iff.1 h
      exact .inr ⟨item, inner, (Option.some.inj h).symm, itemName?_eq_some_iff.1 hinner, hitem⟩
  · rintro (hword | ⟨item, inner, rfl, hname, hitem⟩)
    · rw [hword]
    · have hnone := lookup_scalarNames_array (String.ofList inner)
      rw [← ofList_array, ← hname] at hnone
      rw [hnone]
      refine Option.bind_eq_some_iff.2 ⟨inner, itemName?_eq_some_iff.2 hname, ?_⟩
      exact Option.bind_eq_some_iff.2 ⟨item, hitem, rfl⟩

/-- The spellings by the same steps. -/
theorem spells_ofList_iff : Spells (String.ofList name) t ↔
    scalarNames.lookup (String.ofList name) = some t ∨
      ∃ item inner, t = .array item ∧ name = opening ++ inner ++ ['>'] ∧ Spells (String.ofList inner) item := by
  constructor
  · intro h
    cases t with
    | array item =>
        obtain ⟨u, hu, hname⟩ := spells_array.1 h
        refine .inr ⟨item, u.toList, rfl, ?_, by rwa [String.ofList_toList]⟩
        have htext := congrArg String.toList hname
        rwa [String.toList_ofList, String.toList_append, String.toList_append] at htext
    | any | null | bool | int32 | int64 | double | string | binary | document =>
        exact .inl (lookup_scalarNames.2 ⟨rfl, h⟩)
  · rintro (hword | ⟨item, inner, rfl, rfl, hitem⟩)
    · exact (lookup_scalarNames.1 hword).2
    · exact spells_array.2 ⟨String.ofList inner, hitem, ofList_array inner⟩

/-- With fuel for every character, reading takes just the spellings. -/
theorem ofNameWithin_eq_some_iff {fuel : Nat} (h : name.length < fuel) :
    ofNameWithin fuel name = some t ↔ Spells (String.ofList name) t := by
  induction fuel generalizing name t with
  | zero => exact absurd h (Nat.not_lt_zero _)
  | succ fuel ih =>
      rw [ofNameWithin_succ_eq_some_iff, spells_ofList_iff]
      refine or_congr_right (exists₂_congr fun item inner => and_congr_right fun _ => and_congr_right fun hname => ?_)
      apply ih
      rw [hname, List.length_append, List.length_append, List.length_singleton] at h
      omega

/-- Every type is read back from its name, which is the name of its innermost type with the arrays around it. A text is
read as a type exactly if it is the name of the type, or that name with `int` for an innermost `int32` or `long` for an
innermost `int64`. -/
theorem types_spelled : (∀ t : ResultType, ofName? t.name = some t) ∧
    (∀ t : ResultType, t.name = nest t.depth t.innermost.name) ∧
    ∀ (s : String) (t : ResultType), ofName? s = some t ↔
      s = t.name ∨ ∃ word ∈ t.innermost.aliases, s = nest t.depth word := by
  have hread (s : String) (t : ResultType) : ofName? s = some t ↔ Spells s t := by
    have h := ofNameWithin_eq_some_iff (t := t) (Nat.lt_succ_self s.toList.length)
    rwa [String.ofList_toList] at h
  exact ⟨fun t => (hread t.name t).2 (.inl rfl), name_eq_nest, hread⟩

end Aggregation.ResultType
