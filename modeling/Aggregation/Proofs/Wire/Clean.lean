import Aggregation.Proofs.Record
import Aggregation.Proofs.Wire.Layout

/-!
Values that come out of a writer as they went in: their documents have distinct names, and no NUL is where it would end
a name. Whether a value is of this kind is known from its parts.
-/

namespace Aggregation.Wire.Layout

variable {v w : Value} {p q : Prop} {xs ys : List Value} {fields : List (String × Value)}

theorem areNulFree_iff : AreNulFree fields ↔ ∀ f ∈ fields, '\x00' ∉ f.1.toList ∧ IsNulFree f.2 := by
  induction fields with
  | nil => exact iff_of_true trivial nofun
  | cons f rest ih =>
      obtain ⟨name, v⟩ := f
      rw [AreNulFree, ih, List.forall_mem_cons, and_assoc]

theorem haveDistinctNames_iff : HaveDistinctNames fields ↔ ∀ f ∈ fields, HasDistinctNames f.2 := by
  induction fields with
  | nil => exact iff_of_true trivial nofun
  | cons f rest ih =>
      obtain ⟨name, v⟩ := f
      rw [HaveDistinctNames, ih, List.forall_mem_cons]

theorem itemsAreNulFree_iff : ItemsAreNulFree xs ↔ ∀ x ∈ xs, IsNulFree x := by
  induction xs with
  | nil => exact iff_of_true trivial nofun
  | cons x rest ih => rw [ItemsAreNulFree, ih, List.forall_mem_cons]

theorem itemsHaveDistinctNames_iff : ItemsHaveDistinctNames xs ↔ ∀ x ∈ xs, HasDistinctNames x := by
  induction xs with
  | nil => exact iff_of_true trivial nofun
  | cons x rest ih => rw [ItemsHaveDistinctNames, ih, List.forall_mem_cons]

/-- The documents in a value have distinct names, and no name and no part of a regular expression in it holds a NUL
exactly if a condition holds. -/
structure CleanIff (v : Value) (p : Prop) : Prop where
  distinct : HasDistinctNames v
  nulFree_iff : IsNulFree v ↔ p

/-- The documents in a value have distinct names, and no name and no part of a regular expression in it holds a NUL. -/
abbrev Clean (v : Value) : Prop := CleanIff v True

theorem clean_iff : Clean v ↔ IsNulFree v ∧ HasDistinctNames v :=
  ⟨fun h => ⟨h.nulFree_iff.2 trivial, h.distinct⟩, fun h => ⟨h.2, iff_true_intro h.1⟩⟩

theorem CleanIff.congr (h : CleanIff v p) (hpq : p ↔ q) : CleanIff v q := ⟨h.distinct, h.nulFree_iff.trans hpq⟩

/-- A document with one name. -/
theorem CleanIff.single (h : CleanIff v p) (name : String) :
    CleanIff (.document (.single name v)) ('\x00' ∉ name.toList ∧ p) := by
  refine ⟨⟨List.nodup_singleton name, h.distinct, trivial⟩, ?_⟩
  show ('\x00' ∉ name.toList ∧ IsNulFree v ∧ True) ↔ _
  rw [and_true, h.nulFree_iff]

/-- A document with one name that holds no NUL. -/
theorem CleanIff.under (h : CleanIff v p) {name : String} (hname : '\x00' ∉ name.toList) :
    CleanIff (.document (.single name v)) p :=
  (h.single name).congr (and_iff_right hname)

theorem clean_nil : Clean (.array []) := ⟨trivial, Iff.rfl⟩

theorem CleanIff.cons (h : CleanIff v p) (hrest : CleanIff (.array xs) q) : CleanIff (.array (v :: xs)) (p ∧ q) :=
  ⟨⟨h.distinct, hrest.distinct⟩, and_congr h.nulFree_iff hrest.nulFree_iff⟩

theorem CleanIff.item (h : CleanIff v p) : CleanIff (.array [v]) p := (h.cons clean_nil).congr (and_iff_left trivial)

theorem cleanIff_array :
    CleanIff (.array xs) p ↔ (∀ x ∈ xs, HasDistinctNames x) ∧ ((∀ x ∈ xs, IsNulFree x) ↔ p) := by
  rw [← itemsHaveDistinctNames_iff, ← itemsAreNulFree_iff]
  exact ⟨fun h => ⟨h.distinct, h.nulFree_iff⟩, fun h => ⟨h.1, h.2⟩⟩

theorem CleanIff.append (h : CleanIff (.array xs) p) (h' : CleanIff (.array ys) q) :
    CleanIff (.array (xs ++ ys)) (p ∧ q) := by
  obtain ⟨hdistinct, hnul⟩ := cleanIff_array.1 h
  obtain ⟨hdistinct', hnul'⟩ := cleanIff_array.1 h'
  exact cleanIff_array.2 ⟨List.forall_mem_append.2 ⟨hdistinct, hdistinct'⟩,
    List.forall_mem_append.trans (and_congr hnul hnul')⟩

/-- A document that is made of named values has all their names. -/
theorem cleanIff_ofList (h : ∀ f ∈ fields, Clean f.2) :
    CleanIff (.document (.ofList fields)) (∀ f ∈ fields, '\x00' ∉ f.1.toList) := by
  have hvalue : ∀ f ∈ (Record.ofList fields).entries, Clean f.2 := fun f hf => h f (Record.mem_of_mem_ofList hf)
  refine ⟨⟨Record.distinct_ofList fields, haveDistinctNames_iff.2 fun f hf => (hvalue f hf).distinct⟩,
    areNulFree_iff.trans ⟨fun hall f hf => ?_, fun hall f hf => ⟨?_, (clean_iff.1 (hvalue f hf)).1⟩⟩⟩
  · obtain ⟨g, hg, hname⟩ := List.mem_map.1 (Record.mem_keys_ofList.2 (List.mem_map_of_mem hf))
    exact hname ▸ (hall g hg).1
  · exact hall f (Record.mem_of_mem_ofList hf)

end Aggregation.Wire.Layout
