import Aggregation.Proofs.Pipeline.Stages
import Mathlib.Data.List.Induction
import Mathlib.Data.Set.List

/-!
What the body of a sort makes of its keys. A body has every path once, where the path is first, with the direction that
is last. It orders documents as the keys do exactly if no path comes back with another direction.
-/

namespace Aggregation

namespace SortKey

variable {keys ls : List SortKey} {x y : Document}

/-- How a key compares documents, whatever compares them by a path. -/
def compare (C : String → Document → Document → Ordering) (key : SortKey) (x y : Document) : Ordering :=
  match key.direction with
  | .ascending => C key.path x y
  | .descending => (C key.path x y).swap

/-- How keys compare documents: the first key that tells them apart decides. -/
def lexicographic (C : String → Document → Document → Ordering) : List SortKey → Document → Document → Ordering
  | [], _, _ => .eq
  | key :: rest, x, y => (key.compare C x y).then (lexicographic C rest x y)

/-- Documents in the order of keys. Those that no key tells apart keep theirs. -/
def arrange (C : String → Document → Document → Ordering) (keys : List SortKey) (rows : List Document) :
    List Document :=
  rows.mergeSort fun x y => (lexicographic C keys x y).isLE

/-- The first key of a path. -/
def firstAt? (keys : List SortKey) (path : String) : Option SortKey := keys.find? fun key => key.path = path

/-- The last key of a path. -/
def lastAt? (keys : List SortKey) (path : String) : Option SortKey := firstAt? keys.reverse path

/-- No path has a last key in another direction than the first. -/
def Steady (keys : List SortKey) : Prop := ∀ path, firstAt? keys path = lastAt? keys path

variable {C : String → Document → Document → Ordering}

theorem compare_eq_eq_iff {key : SortKey} : key.compare C x y = .eq ↔ C key.path x y = .eq := by
  unfold compare
  cases key.direction with
  | ascending => exact Iff.rfl
  | descending => exact Ordering.swap_eq_eq

theorem path_of_firstAt? {key : SortKey} {path : String} (h : firstAt? keys path = some key) : key.path = path :=
  of_decide_eq_true (List.find?_some (p := fun key : SortKey => decide (key.path = path)) h)

/-- The first key whose path tells documents apart decides. -/
theorem lexicographic_eq (keys : List SortKey) (x y : Document) :
    lexicographic C keys x y =
      ((keys.find? fun key => C key.path x y ≠ .eq).map fun key => key.compare C x y).getD .eq := by
  induction keys with
  | nil => rfl
  | cons key rest ih =>
      rw [lexicographic, List.find?_cons]
      by_cases h : C key.path x y = .eq
      · rw [compare_eq_eq_iff.2 h, decide_eq_false (not_not_intro h)]
        exact ih
      · rw [decide_eq_true h]
        show (key.compare C x y).then _ = key.compare C x y
        cases hkey : key.compare C x y with
        | lt | gt => rfl
        | eq => exact absurd (compare_eq_eq_iff.1 hkey) h

/-- The first key of which something is true that depends on its path alone is the first one of that path. -/
theorem find?_path (p : String → Bool) (keys : List SortKey) :
    (keys.find? fun key => p key.path) = ((keys.map SortKey.path).find? p).bind (firstAt? keys) := by
  induction keys with
  | nil => rfl
  | cons key rest ih =>
      rw [List.find?_cons, List.map_cons, List.find?_cons]
      cases h : p key.path with
      | true =>
          show some key = firstAt? (key :: rest) key.path
          rw [firstAt?, List.find?_cons, decide_eq_true rfl]
      | false =>
          show (rest.find? fun key => p key.path) = _
          rw [ih]
          refine Option.bind_congr fun path hpath => ?_
          have hne : ¬key.path = path := by
            rintro rfl
            exact Bool.false_ne_true (h.symm.trans (List.find?_some hpath))
          rw [firstAt?, firstAt?, List.find?_cons, decide_eq_false hne]

theorem find?_eraseDups (p : String → Bool) (paths : List String) : paths.eraseDups.find? p = paths.find? p := by
  induction paths using List.reverseRecOn with
  | nil => rfl
  | append_singleton paths path ih =>
      rw [List.eraseDups_append, List.removeAll, List.find?_append, List.find?_append, ih]
      by_cases hold : path ∈ paths
      · rw [List.filter_cons_of_neg (by simpa using hold)]
        show (paths.find? p).or none = _
        cases hfind : paths.find? p with
        | some first => rfl
        | none =>
            have hnot := List.find?_eq_none.1 hfind path hold
            rw [List.find?_cons_of_neg hnot]
            rfl
      · rw [List.filter_cons_of_pos (by simpa using hold)]
        rfl

/-- Keys that have every path once, where it is first among others, and with the direction that it has there, compare as
the others do. -/
theorem lexicographic_congr (hpaths : ls.map SortKey.path = (keys.map SortKey.path).eraseDups)
    (hfirst : ∀ path, firstAt? ls path = firstAt? keys path) : lexicographic C ls x y = lexicographic C keys x y := by
  rw [lexicographic_eq, lexicographic_eq, find?_path (fun path => C path x y ≠ .eq), hpaths, find?_eraseDups,
    funext hfirst, ← find?_path]

/-- Compares documents by their sizes, at one path. -/
def sizesAt (path : String) (other : String) (x y : Document) : Ordering :=
  if other = path then Ord.compare x.size y.size else .eq

/-- Two documents of two sizes are ordered by the first key of the path at which sizes are compared. -/
theorem arrange_sizesAt {path : String} {key : SortKey} (h : firstAt? keys path = some key) :
    arrange (sizesAt path) keys [.single "a" .null, .empty] = match key.direction with
      | .ascending => [.empty, .single "a" .null]
      | .descending => [.single "a" .null, .empty] := by
  have hdiffer : (fun key : SortKey => decide (sizesAt path key.path (.single "a" .null) .empty ≠ .eq))
      = fun key => decide (key.path = path) := by
    funext key
    unfold sizesAt
    by_cases hpath : key.path = path
    · rw [if_pos hpath, decide_eq_true hpath]
      rfl
    · rw [if_neg hpath, decide_eq_false hpath]
      rfl
  have hfind : (keys.find? fun key => sizesAt path key.path (.single "a" .null) .empty ≠ .eq) = some key := by
    rw [hdiffer]
    exact h
  have hcompare : lexicographic (sizesAt path) keys (.single "a" .null) .empty = match key.direction with
      | .ascending => .gt
      | .descending => .lt := by
    rw [lexicographic_eq, hfind]
    show key.compare (sizesAt path) (.single "a" .null) .empty = _
    unfold compare sizesAt
    rw [if_pos (path_of_firstAt? h)]
    cases key.direction <;> rfl
  rw [arrange, List.mergeSort]
  simp only [List.length_cons, List.length_nil, Nat.reduceAdd, Nat.reduceDiv, List.MergeSort.Internal.splitInTwo_fst,
    List.take_succ_cons, List.take_zero, List.mergeSort_singleton, List.MergeSort.Internal.splitInTwo_snd,
    List.drop_succ_cons, List.drop_zero, List.merge, hcompare, List.nil_merge, List.merge_right]
  cases key.direction <;> rfl

theorem isSome_firstAt?_iff {path : String} : (firstAt? keys path).isSome = true ↔ path ∈ keys.map SortKey.path := by
  rw [firstAt?, List.find?_isSome, List.mem_map]
  simp only [decide_eq_true_eq]

theorem direction_eq_of_sortField {key other : SortKey}
    (h : (Lowering.sortField key).2 = (Lowering.sortField other).2) :
    key.direction = other.direction := by
  obtain ⟨path, direction⟩ := key
  obtain ⟨path', direction'⟩ := other
  cases direction <;> cases direction' <;> first
    | rfl
    | exact absurd (Value.int32.inj h : (1 : Int32) = -1) (by decide)
    | exact absurd (Value.int32.inj h : (-1 : Int32) = 1) (by decide)

/-- There is one key at most of a path and a direction. -/
theorem eq_of_map_sortField {path : String} {first last : Option SortKey} (hfirst : ∀ key ∈ first, key.path = path)
    (hlast : ∀ key ∈ last, key.path = path)
    (h : (first.map fun key => (Lowering.sortField key).2) = last.map fun key => (Lowering.sortField key).2) :
    first = last := by
  cases first with
  | none => exact (Option.map_eq_none_iff.1 h.symm).symm
  | some key =>
      obtain ⟨other, rfl, hvalue⟩ := Option.map_eq_some_iff.1 h.symm
      have hpath : key.path = other.path := (hfirst key rfl).trans (hlast other rfl).symm
      have hdirection : key.direction = other.direction := direction_eq_of_sortField hvalue.symm
      obtain ⟨path, direction⟩ := key
      cases hpath
      cases hdirection
      rfl

/-- Keys order all documents as others do, whatever compares them, only if they have at every path the direction that
is first there among the others. -/
theorem firstAt?_eq_of_arrange_eq (hpaths : ls.map SortKey.path = (keys.map SortKey.path).eraseDups)
    (h : ∀ C rows, arrange C ls rows = arrange C keys rows) (path : String) :
    firstAt? ls path = firstAt? keys path := by
  have hsome : (firstAt? ls path).isSome = (firstAt? keys path).isSome := by
    rw [Bool.eq_iff_iff, isSome_firstAt?_iff, isSome_firstAt?_iff, hpaths, List.mem_eraseDups]
  refine eq_of_map_sortField (fun _ => path_of_firstAt?) (fun _ => path_of_firstAt?) ?_
  cases hl : firstAt? ls path with
  | none =>
      rw [hl] at hsome
      rw [Option.isNone_iff_eq_none.1 (Option.isSome_eq_false_iff.1 hsome.symm)]
  | some l =>
      rw [hl] at hsome
      obtain ⟨key, hkey⟩ := Option.isSome_iff_exists.1 hsome.symm
      have hsame := h (sizesAt path) [.single "a" .null, .empty]
      rw [arrange_sizesAt hl, arrange_sizesAt hkey] at hsame
      have hdirection : l.direction = key.direction := by
        cases hl' : l.direction <;> cases hkey' : key.direction <;> rw [hl', hkey'] at hsame <;>
          first | rfl | cases hsame
      rw [hkey, Option.map_some, Option.map_some, Lowering.sortField, Lowering.sortField, hdirection]

theorem map_fst_sortField (keys : List SortKey) :
    (keys.map Lowering.sortField).map Prod.fst = keys.map SortKey.path := by
  rw [List.map_map]
  rfl

theorem lookup_map_sortField (keys : List SortKey) (path : String) :
    (keys.map Lowering.sortField).lookup path = (firstAt? keys path).map fun key => (Lowering.sortField key).2 := by
  induction keys with
  | nil => rfl
  | cons key rest ih =>
      rw [List.map_cons, Record.lookup_cons, firstAt?, List.find?_cons]
      by_cases h : key.path = path
      · rw [decide_eq_true h]
        exact if_pos h.symm
      · rw [decide_eq_false h]
        exact (if_neg (Ne.symm h)).trans ih

/-- Keys as the fields of a body say them, and what they have to do with the keys that the body is made of. -/
theorem exists_read (keys : List SortKey) : ∃ ls : List SortKey,
    (Record.ofList (keys.map Lowering.sortField)).entries = ls.map Lowering.sortField ∧
      ls.map SortKey.path = (keys.map SortKey.path).eraseDups ∧ ∀ path, firstAt? ls path = lastAt? keys path := by
  have hrange : (Record.ofList (keys.map Lowering.sortField)).entries ∈ Set.range (List.map Lowering.sortField) := by
    rw [Set.range_list_map]
    intro entry hentry
    obtain ⟨key, -, hkey⟩ := List.mem_map.1 (Record.mem_of_mem_ofList hentry)
    exact ⟨key, hkey⟩
  obtain ⟨ls, hls⟩ := hrange
  refine ⟨ls, hls.symm, ?_, fun path => ?_⟩
  · rw [← map_fst_sortField ls, hls, ← map_fst_sortField keys]
    exact Record.keys_ofList _
  · have hget := Record.get?_ofList (keys.map Lowering.sortField) path
    rw [Record.get?, ← hls, ← List.map_reverse, lookup_map_sortField, lookup_map_sortField] at hget
    exact eq_of_map_sortField (fun _ => path_of_firstAt?) (fun _ => path_of_firstAt?) hget

/-- What the body of a sort has of the keys that it is made of. -/
structure Ordered (keys : List SortKey) (body : Document) : Prop where
  /-- Every path once, where it is first. -/
  keys_eq : body.keys = (keys.map SortKey.path).eraseDups
  /-- The direction of a path that is last. -/
  get?_eq : ∀ path, body.get? path = (lastAt? keys path).map fun key => (Lowering.sortField key).2
  /-- A field for every key, exactly if no path comes back. -/
  entries_iff : body.entries = keys.map Lowering.sortField ↔ (keys.map SortKey.path).Nodup
  /-- The order of the keys, exactly if no path comes back with another direction. -/
  arrange_iff : ∃ read, Reading.sortKeys? body.entries = some read ∧
    ((∀ C rows, arrange C read rows = arrange C keys rows) ↔ Steady keys)

theorem ordered_ofList (keys : List SortKey) : Ordered keys (.ofList (keys.map Lowering.sortField)) := by
  obtain ⟨ls, hentries, hpaths, hlast⟩ := exists_read keys
  refine ⟨?_, fun path => ?_, ?_, ls, ?_, fun h path => ?_, fun h C rows => ?_⟩
  · rw [Record.keys_ofList, map_fst_sortField]
  · rw [Record.get?_ofList, ← List.map_reverse, lookup_map_sortField]
    rfl
  · constructor
    · intro h
      have hdistinct := Record.distinct_ofList (keys.map Lowering.sortField)
      rwa [Record.Distinct, Record.keys, h, map_fst_sortField] at hdistinct
    · intro h
      rw [Record.ofList_eq_mk (by rwa [map_fst_sortField])]
  · rw [hentries, Lowering.sortKeys?_map_sortField]
  · rw [← firstAt?_eq_of_arrange_eq hpaths h path, hlast path]
  · have hsame : lexicographic C ls = lexicographic C keys := by
      funext x y
      exact lexicographic_congr hpaths fun path => (hlast path).trans (h path).symm
    rw [arrange, arrange, hsame]

end SortKey

end Aggregation
