import Aggregation.Record
import Mathlib.Data.List.Induction
import Mathlib.Data.List.Nodup

/-!
Records as finite maps: a value put under a new name comes last, so a record that is made of entries with distinct
names has these entries. Where a name comes twice, it keeps its first place and gets its last value.
-/

namespace Aggregation

namespace Record

variable {α : Type} {d : Record α} {key : String}

theorem insertEntry_of_lookup_eq_none {entries : List (String × α)} (h : entries.lookup key = none) (value : α) :
    insertEntry key value entries = entries ++ [(key, value)] := by
  induction entries with
  | nil => rfl
  | cons entry rest ih =>
      obtain ⟨k, v⟩ := entry
      rw [List.lookup_cons] at h
      by_cases hk : k = key
      · rw [hk, beq_self_eq_true] at h
        cases h
      · rw [beq_false_of_ne (Ne.symm hk)] at h
        rw [insertEntry, if_neg hk, ih h, List.cons_append]

theorem contains_eq_false_iff : d.contains key = false ↔ key ∉ d.entries.map Prod.fst := by
  rw [contains, get?, Option.isSome_eq_false_iff, Option.isNone_iff_eq_none, List.lookup_eq_none_iff, List.mem_map]
  constructor
  · rintro h ⟨entry, hentry, rfl⟩
    simpa using h entry hentry
  · intro h entry hentry
    exact bne_iff_ne.2 fun hkey => h ⟨entry, hentry, hkey.symm⟩

theorem get?_of_mem {value : α} (hd : (d.entries.map Prod.fst).Nodup) (h : (key, value) ∈ d.entries) :
    d.get? key = some value := by
  obtain ⟨entries⟩ := d
  show entries.lookup key = some value
  induction entries with
  | nil => cases h
  | cons entry rest ih =>
      obtain ⟨k, v⟩ := entry
      obtain ⟨hk, hrest⟩ := List.nodup_cons.1 hd
      rw [List.lookup_cons]
      rcases List.mem_cons.1 h with heq | hmem
      · cases heq
        rw [beq_self_eq_true]
      · have hne : (key == k) = false :=
          beq_false_of_ne fun heq => hk (heq ▸ List.mem_map.2 ⟨(key, value), hmem, rfl⟩)
        rw [hne]
        exact ih hrest hmem

theorem entries_insert (h : d.contains key = false) (value : α) :
    (d.insert key value).entries = d.entries ++ [(key, value)] := by
  rw [contains, get?, Option.isSome_eq_false_iff, Option.isNone_iff_eq_none] at h
  rw [insert, insertEntry_of_lookup_eq_none h]

theorem contains_insert (h : d.contains key = false) {value : α} {other : String} :
    (d.insert key value).contains other = false ↔ d.contains other = false ∧ other ≠ key := by
  rw [contains_eq_false_iff, contains_eq_false_iff, entries_insert h, List.map_append, List.mem_append, not_or]
  exact and_congr_right fun _ => not_congr List.mem_singleton

theorem entries_foldl_insert (entries : List (String × α)) (h : (d.entries ++ entries).map Prod.fst |>.Nodup) :
    (entries.foldl (fun r e => r.insert e.1 e.2) d).entries = d.entries ++ entries := by
  induction entries generalizing d with
  | nil => exact (List.append_nil _).symm
  | cons entry rest ih =>
      obtain ⟨k, v⟩ := entry
      have hnew : d.contains k = false := by
        rw [contains_eq_false_iff]
        rw [List.map_append, List.map_cons] at h
        exact fun hk => (List.nodup_append.1 h).2.2 k hk k List.mem_cons_self rfl
      have hinsert := entries_insert hnew v
      have hnodup : ((d.insert k v).entries ++ rest).map Prod.fst |>.Nodup := by
        rwa [hinsert, List.append_assoc]
      rw [List.foldl_cons, ih hnodup, hinsert, List.append_assoc]
      rfl

theorem map_fst_insertEntry (key : String) (value : α) (entries : List (String × α)) :
    (insertEntry key value entries).map Prod.fst =
      if key ∈ entries.map Prod.fst then entries.map Prod.fst else entries.map Prod.fst ++ [key] := by
  induction entries with
  | nil => rfl
  | cons entry rest ih =>
      obtain ⟨k, v⟩ := entry
      by_cases hk : k = key
      · rw [insertEntry, if_pos hk, List.map_cons, List.map_cons, if_pos (hk ▸ List.mem_cons_self)]
      · have hne : key ∈ k :: rest.map Prod.fst ↔ key ∈ rest.map Prod.fst := by
          rw [List.mem_cons, or_iff_right (Ne.symm hk)]
        rw [insertEntry, if_neg hk, List.map_cons, ih, List.map_cons]
        simp only [hne]
        split <;> rfl

theorem mem_of_mem_insertEntry {entry : String × α} {value : α} {entries : List (String × α)}
    (h : entry ∈ insertEntry key value entries) : entry = (key, value) ∨ entry ∈ entries := by
  induction entries with
  | nil => exact .inl (List.mem_singleton.1 h)
  | cons first rest ih =>
      obtain ⟨k, v⟩ := first
      rw [insertEntry] at h
      split at h
      · next hk =>
          rcases List.mem_cons.1 h with rfl | h
          · exact .inl (by rw [hk])
          · exact .inr (List.mem_cons_of_mem _ h)
      · rcases List.mem_cons.1 h with rfl | h
        · exact .inr List.mem_cons_self
        · exact (ih h).imp_right (List.mem_cons_of_mem _)

theorem distinct_empty : (empty : Record α).Distinct := List.nodup_nil

/-- Putting entries into a record in turn keeps the names distinct, adds just their names, and takes values from nowhere
else. -/
theorem foldl_insert (entries : List (String × α)) (hd : d.Distinct) :
    (entries.foldl (fun r e => r.insert e.1 e.2) d).Distinct ∧
      (∀ name, name ∈ (entries.foldl (fun r e => r.insert e.1 e.2) d).keys ↔
        name ∈ d.keys ∨ name ∈ entries.map Prod.fst) ∧
      ∀ entry ∈ (entries.foldl (fun r e => r.insert e.1 e.2) d).entries, entry ∈ d.entries ∨ entry ∈ entries := by
  induction entries generalizing d with
  | nil => exact ⟨hd, fun name => by simp, fun entry h => .inl h⟩
  | cons entry rest ih =>
      have hkeys : (d.insert entry.1 entry.2).keys = if entry.1 ∈ d.keys then d.keys else d.keys ++ [entry.1] :=
        map_fst_insertEntry ..
      have hinsert : (d.insert entry.1 entry.2).Distinct := by
        rw [Distinct, hkeys]
        split
        · exact hd
        · next hnew => exact List.Nodup.append hd (List.nodup_singleton _) (List.disjoint_singleton.2 hnew)
      have hname (name : String) : name ∈ (d.insert entry.1 entry.2).keys ↔ name ∈ d.keys ∨ name = entry.1 := by
        rw [hkeys]
        split
        · next hold => exact (or_iff_left_of_imp fun heq => heq ▸ hold).symm
        · rw [List.mem_append, List.mem_singleton]
      obtain ⟨hdistinct, hnames, hentries⟩ := ih hinsert
      refine ⟨hdistinct, fun name => ?_, fun other hother => ?_⟩
      · rw [List.foldl_cons, hnames, hname, List.map_cons, List.mem_cons, or_assoc]
      · rcases hentries other hother with h | h
        · rcases mem_of_mem_insertEntry h with rfl | h
          · exact .inr List.mem_cons_self
          · exact .inl h
        · exact .inr (List.mem_cons_of_mem _ h)

theorem distinct_ofList (entries : List (String × α)) : (ofList entries).Distinct :=
  (foldl_insert entries distinct_empty).1

theorem mem_keys_ofList {entries : List (String × α)} {name : String} :
    name ∈ (ofList entries).keys ↔ name ∈ entries.map Prod.fst :=
  ((foldl_insert entries distinct_empty).2.1 name).trans (or_iff_right List.not_mem_nil)

theorem mem_of_mem_ofList {entries : List (String × α)} {entry : String × α} (h : entry ∈ (ofList entries).entries) :
    entry ∈ entries :=
  ((foldl_insert entries distinct_empty).2.2 entry h).resolve_left List.not_mem_nil

theorem ofList_concat (entries : List (String × α)) (entry : String × α) :
    ofList (entries ++ [entry]) = (ofList entries).insert entry.1 entry.2 := by
  rw [ofList, List.foldl_append]
  rfl

/-- What is new comes last. -/
theorem eraseDups_concat {β : Type} [BEq β] [LawfulBEq β] (l : List β) (b : β) :
    (l ++ [b]).eraseDups = if b ∈ l then l.eraseDups else l.eraseDups ++ [b] := by
  rw [List.eraseDups_append, List.removeAll]
  by_cases hold : b ∈ l
  · rw [if_pos hold, List.filter_cons_of_neg (by simpa using hold)]
    exact List.append_nil _
  · rw [if_neg hold, List.filter_cons_of_pos (by simpa using hold)]
    rfl

/-- Every name has its first place. -/
theorem keys_ofList (entries : List (String × α)) : (ofList entries).keys = (entries.map Prod.fst).eraseDups := by
  induction entries using List.reverseRecOn with
  | nil => rfl
  | append_singleton entries entry ih =>
      rw [ofList_concat, keys, insert, map_fst_insertEntry]
      change (if entry.1 ∈ (ofList entries).keys then (ofList entries).keys else (ofList entries).keys ++ [entry.1]) = _
      rw [List.map_append, List.map_singleton, eraseDups_concat, ← ih]
      by_cases hold : entry.1 ∈ entries.map Prod.fst
      · rw [if_pos (mem_keys_ofList.2 hold), if_pos hold]
      · rw [if_neg (mt mem_keys_ofList.1 hold), if_neg hold]

theorem lookup_cons (entry : String × α) (rest : List (String × α)) (name : String) :
    (entry :: rest).lookup name = if name = entry.1 then some entry.2 else rest.lookup name := by
  rw [List.lookup_cons]
  by_cases h : name = entry.1
  · rw [if_pos h, h, beq_self_eq_true]
  · rw [if_neg h, beq_false_of_ne h]

theorem lookup_insertEntry (key : String) (value : α) (entries : List (String × α)) (name : String) :
    (insertEntry key value entries).lookup name = if name = key then some value else entries.lookup name := by
  induction entries with
  | nil => rw [insertEntry, lookup_cons]
  | cons entry rest ih =>
      obtain ⟨k, v⟩ := entry
      by_cases hk : k = key
      · rw [insertEntry, if_pos hk, lookup_cons, lookup_cons, hk]
        split <;> rfl
      · rw [insertEntry, if_neg hk, lookup_cons, lookup_cons, ih]
        by_cases h : name = key
        · rw [if_neg (h ▸ Ne.symm hk), if_pos h, if_pos h]
        · rw [if_neg h, if_neg h]

/-- Every name has its last value. -/
theorem get?_ofList (entries : List (String × α)) (name : String) :
    (ofList entries).get? name = entries.reverse.lookup name := by
  induction entries using List.reverseRecOn with
  | nil => rfl
  | append_singleton entries entry ih =>
      rw [ofList_concat, get?, insert, lookup_insertEntry, List.reverse_append, List.reverse_singleton,
        List.singleton_append, lookup_cons, ← ih]
      rfl

/-- Entries with distinct names make a record of just these entries. -/
theorem ofList_eq_mk {entries : List (String × α)} (h : (entries.map Prod.fst).Nodup) :
    ofList entries = ⟨entries⟩ := by
  have hentries : (ofList entries).entries = entries := entries_foldl_insert entries h
  exact congrArg Record.mk hentries

end Record

end Aggregation
