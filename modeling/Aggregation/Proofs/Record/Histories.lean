import Aggregation.Proofs.Record
import Aggregation.Value.Equality

/-!
Records by what has been done to them. Whatever calls have been made from the empty record on, a name holds the value
that was last put under it since it was last removed, and the names stand in the order in which they last came in.
-/

namespace Aggregation.Record

/-- A call that changes a record. -/
inductive Call (α : Type) where
  | insert (key : String) (value : α)
  | remove (key : String)
  deriving Repr

namespace Call

variable {α : Type}

def key : Call α → String
  | .insert key _ => key
  | .remove key => key

/-- What the name of a call holds after it. -/
def value? : Call α → Option α
  | .insert _ value => some value
  | .remove _ => none

/-- What a call answers, and the record that it leaves. -/
def run (r : Record α) : Call α → Option α × Record α
  | .insert key value => r.getThenInsert? key value
  | .remove key => r.getThenRemove? key

end Call

variable {α : Type} {entries : List (String × α)} {calls : List (Call α)} {call : Call α} {key other : String}
  {m n : Nat}

/-- The record that calls make from the empty one. -/
def after (calls : List (Call α)) : Record α := calls.foldl (fun r call => (call.run r).2) empty

/-- The value that was last put under a name, unless the name has been removed since. -/
def lastValue? (calls : List (Call α)) (key : String) : Option α :=
  (calls.reverse.find? fun call => call.key = key).bind Call.value?

/-- A name comes in with a call that puts a value under it while it is absent. -/
def ComesInAt (calls : List (Call α)) (key : String) (n : Nat) : Prop :=
  (∃ value, calls[n]? = some (.insert key value)) ∧ lastValue? (calls.take n) key = none

/-- The call with which a name last came in. -/
def LastComesInAt (calls : List (Call α)) (key : String) (n : Nat) : Prop :=
  ComesInAt calls key n ∧ ∀ m, ComesInAt calls key m → m ≤ n

section Removing

theorem map_fst_removeEntry (key : String) (entries : List (String × α)) :
    (removeEntry key entries).map Prod.fst = (entries.map Prod.fst).erase key := by
  induction entries with
  | nil => rfl
  | cons entry rest ih =>
      obtain ⟨k, v⟩ := entry
      rw [removeEntry, List.map_cons, List.erase_cons]
      by_cases hk : k = key
      · rw [if_pos hk, if_pos (beq_iff_eq.2 hk)]
      · rw [if_neg hk, if_neg (mt beq_iff_eq.1 hk), List.map_cons, ih]

theorem lookup_eq_none_iff_keys : entries.lookup key = none ↔ key ∉ entries.map Prod.fst := by
  have h : (Record.mk entries).contains key = false ↔ _ := contains_eq_false_iff
  rwa [contains, get?, Option.isSome_eq_false_iff, Option.isNone_iff_eq_none] at h

theorem lookup_removeEntry (h : (entries.map Prod.fst).Nodup) (key name : String) :
    (removeEntry key entries).lookup name = if name = key then none else entries.lookup name := by
  induction entries with
  | nil => exact (ite_self _).symm
  | cons entry rest ih =>
      obtain ⟨k, v⟩ := entry
      obtain ⟨hk, hrest⟩ := List.nodup_cons.1 h
      rw [removeEntry, lookup_cons]
      by_cases heq : k = key
      · rw [if_pos heq]
        by_cases hname : name = key
        · rw [if_pos hname, lookup_eq_none_iff_keys, hname, ← heq]
          exact hk
        · rw [if_neg hname, if_neg (heq ▸ hname)]
      · rw [if_neg heq, lookup_cons, ih hrest]
        by_cases hname : name = k
        · rw [if_pos hname, if_pos hname, if_neg (hname ▸ heq)]
        · rw [if_neg hname, if_neg hname]

end Removing

/-! What one call does. -/

theorem keys_insert (r : Record α) (key : String) (value : α) :
    (r.insert key value).keys = if key ∈ r.keys then r.keys else r.keys ++ [key] := map_fst_insertEntry ..

theorem keys_remove (r : Record α) (key : String) : (r.remove key).keys = r.keys.erase key := map_fst_removeEntry ..

theorem get?_run {r : Record α} (h : r.Distinct) (call : Call α) (key : String) :
    (call.run r).2.get? key = if call.key = key then call.value? else r.get? key := by
  cases call with
  | insert k v =>
      simp only [Call.key, eq_comm (a := k)]
      exact lookup_insertEntry ..
  | remove k =>
      simp only [Call.key, eq_comm (a := k)]
      exact lookup_removeEntry h ..

theorem distinct_run {r : Record α} (h : r.Distinct) (call : Call α) : (call.run r).2.Distinct := by
  cases call with
  | insert key value =>
      show (r.insert key value).keys.Nodup
      rw [keys_insert]
      split
      · exact h
      · next hnew => exact List.Nodup.append h (List.nodup_singleton _) (List.disjoint_singleton.2 hnew)
  | remove key =>
      show (r.remove key).keys.Nodup
      rw [keys_remove]
      exact h.erase key

/-! What a history comes to with one more call. -/

theorem after_concat (calls : List (Call α)) (call : Call α) : after (calls ++ [call]) = (call.run (after calls)).2 :=
  List.foldl_append

theorem lastValue?_concat (calls : List (Call α)) (call : Call α) (key : String) :
    lastValue? (calls ++ [call]) key = if call.key = key then call.value? else lastValue? calls key := by
  rw [lastValue?, List.reverse_append, List.reverse_singleton, List.singleton_append, List.find?_cons]
  by_cases h : call.key = key
  · rw [if_pos h, decide_eq_true h]
    rfl
  · rw [if_neg h, decide_eq_false h]
    rfl

theorem ComesInAt.lt (h : ComesInAt calls key n) : n < calls.length := by
  obtain ⟨⟨value, hcall⟩, -⟩ := h
  exact (List.getElem?_eq_some_iff.1 hcall).1

/-- With one more call a name comes in as before, or with that call. -/
theorem comesInAt_concat : ComesInAt (calls ++ [call]) key n ↔
    ComesInAt calls key n ∨ n = calls.length ∧ (∃ value, call = .insert key value) ∧ lastValue? calls key = none := by
  unfold ComesInAt
  rcases Nat.lt_trichotomy n calls.length with hlt | rfl | hgt
  · rw [List.getElem?_append_left hlt, List.take_append_of_le_length (Nat.le_of_lt hlt)]
    exact (or_iff_left fun h => Nat.ne_of_lt hlt h.1).symm
  · rw [List.getElem?_concat_length, List.take_left, List.getElem?_eq_none (Nat.le_refl _)]
    simp
  · rw [List.getElem?_eq_none (by rw [List.length_append, List.length_singleton]; omega),
      List.getElem?_eq_none (Nat.le_of_lt hgt)]
    simp [Nat.ne_of_gt hgt]

/-- The name that a call brings in has come in last with it. -/
theorem lastComesInAt_concat_of_absent (value : α) (h : lastValue? calls key = none) :
    LastComesInAt (calls ++ [.insert key value]) key calls.length := by
  refine ⟨comesInAt_concat.2 (.inr ⟨rfl, ⟨value, rfl⟩, h⟩), fun m hm => ?_⟩
  rcases comesInAt_concat.1 hm with hm | ⟨rfl, -⟩
  · exact Nat.le_of_lt hm.lt
  · exact Nat.le_refl _

/-- A name that a call does not bring in has come in when it had before. -/
theorem LastComesInAt.concat (h : LastComesInAt calls key n) (call : Call α)
    (hcall : ∀ value, call = .insert key value → lastValue? calls key ≠ none) :
    LastComesInAt (calls ++ [call]) key n := by
  refine ⟨comesInAt_concat.2 (.inl h.1), fun m hm => ?_⟩
  rcases comesInAt_concat.1 hm with hm | ⟨-, ⟨value, heq⟩, hnone⟩
  · exact h.2 m hm
  · exact absurd hnone (hcall value heq)

theorem LastComesInAt.lt (h : LastComesInAt calls key n) : n < calls.length := h.1.lt

/-! What holds after every history. -/

theorem distinct_after (calls : List (Call α)) : (after calls).Distinct := by
  induction calls using List.reverseRecOn with
  | nil => exact distinct_empty
  | append_singleton calls call ih =>
      rw [after_concat]
      exact distinct_run ih call

theorem get?_after (calls : List (Call α)) (key : String) : (after calls).get? key = lastValue? calls key := by
  induction calls using List.reverseRecOn with
  | nil => rfl
  | append_singleton calls call ih => rw [after_concat, get?_run (distinct_after calls), lastValue?_concat, ih]

theorem mem_keys_after : key ∈ (after calls).keys ↔ lastValue? calls key ≠ none := by
  rw [← get?_after, get?, Ne, lookup_eq_none_iff_keys, not_not]
  rfl

/-- The names stand in the order in which they last came in. -/
structure InOrder (calls : List (Call α)) (keys : List String) : Prop where
  came : ∀ key ∈ keys, ∃ n, LastComesInAt calls key n
  ascending : keys.Pairwise fun key other => ∃ m n, LastComesInAt calls key m ∧ LastComesInAt calls other n ∧ m < n

/-- A call that brings none of the names in leaves their order. -/
theorem InOrder.concat {keys : List String} (h : InOrder calls keys) (call : Call α)
    (hcall : ∀ key ∈ keys, ∀ value, call = .insert key value → lastValue? calls key ≠ none) :
    InOrder (calls ++ [call]) keys := by
  constructor
  · intro key hkey
    obtain ⟨n, hn⟩ := h.came key hkey
    exact ⟨n, hn.concat call (hcall key hkey)⟩
  · refine h.ascending.imp_of_mem fun hkey hother => ?_
    rintro ⟨m, n, hm, hn, hlt⟩
    exact ⟨m, n, hm.concat call (hcall _ hkey), hn.concat call (hcall _ hother), hlt⟩

theorem InOrder.sublist {keys fewer : List String} (h : InOrder calls keys) (hsub : fewer.Sublist keys) :
    InOrder calls fewer := ⟨fun key hkey => h.came key (hsub.subset hkey), h.ascending.sublist hsub⟩

/-- A name that comes in comes last. -/
theorem InOrder.snoc {keys : List String} (h : InOrder calls keys) (hpresent : ∀ key ∈ keys, lastValue? calls key ≠ none)
    (habsent : lastValue? calls key = none) (value : α) :
    InOrder (calls ++ [.insert key value]) (keys ++ [key]) := by
  have hold := h.concat (.insert key value) fun other hother _ _ => hpresent other hother
  have hnew := lastComesInAt_concat_of_absent value habsent
  constructor
  · exact List.forall_mem_append.2 ⟨hold.came, List.forall_mem_singleton.2 ⟨_, hnew⟩⟩
  · refine List.pairwise_append.2 ⟨hold.ascending, List.pairwise_singleton _ _, fun other hother => ?_⟩
    refine List.forall_mem_singleton.2 ?_
    obtain ⟨m, hm⟩ := h.came other hother
    have hm' := hm.concat (.insert key value) fun _ _ => hpresent other hother
    exact ⟨m, calls.length, hm', hnew, hm.lt⟩

theorem inOrder_after (calls : List (Call α)) : InOrder calls (after calls).keys := by
  induction calls using List.reverseRecOn with
  | nil => exact ⟨fun _ h => absurd h List.not_mem_nil, List.Pairwise.nil⟩
  | append_singleton calls call ih =>
      have hpresent : ∀ key ∈ (after calls).keys, lastValue? calls key ≠ none := fun _ => mem_keys_after.1
      have hkept := ih.concat call fun key hkey _ _ => hpresent key hkey
      rw [after_concat]
      cases call with
      | insert key value =>
          show InOrder _ ((after calls).insert key value).keys
          rw [keys_insert]
          split
          · exact hkept
          · next habsent => exact ih.snoc hpresent (not_not.1 (mt mem_keys_after.2 habsent)) value
      | remove key =>
          show InOrder _ ((after calls).remove key).keys
          rw [keys_remove]
          exact hkept.sublist List.erase_sublist

/-- A name that is overwritten keeps its place; one that has been removed comes in again last. -/
example : (after [.insert "a" 1, .insert "b" 2, .remove "a", .insert "b" 3, .insert "a" 4] : Record Nat).entries =
    [("b", 3), ("a", 4)] := by decide

/-- Entries agree if the names are the same in the same order, and the values under each name agree. -/
theorem agreeEntries_iff {eq : Binary64 → Binary64 → Bool} {d e : List (String × Value)} (hd : (d.map Prod.fst).Nodup) :
    Value.agreeEntries eq d e = true ↔ d.map Prod.fst = e.map Prod.fst ∧
      ∀ key v w, d.lookup key = some v → e.lookup key = some w → Value.agree eq v w = true := by
  induction d generalizing e with
  | nil =>
      cases e with
      | nil => exact iff_of_true rfl ⟨rfl, fun _ _ _ h => by cases h⟩
      | cons => exact iff_of_false Bool.false_ne_true fun h => by cases h.1
  | cons entry rest ih =>
      obtain ⟨k, v⟩ := entry
      obtain ⟨hk, hrest⟩ := List.nodup_cons.1 hd
      cases e with
      | nil => exact iff_of_false Bool.false_ne_true fun h => by cases h.1
      | cons entry' rest' =>
          obtain ⟨l, w⟩ := entry'
          rw [Value.agreeEntries, Bool.and_eq_true, Bool.and_eq_true, beq_iff_eq, ih hrest, List.map_cons, List.map_cons,
            List.cons.injEq]
          constructor
          · rintro ⟨⟨rfl, hvalue⟩, hkeys, hvalues⟩
            refine ⟨⟨rfl, hkeys⟩, fun key v' w' hv hw => ?_⟩
            rw [lookup_cons] at hv hw
            by_cases hkey : key = k
            · rw [if_pos hkey] at hv hw
              cases hv
              cases hw
              exact hvalue
            · rw [if_neg hkey] at hv hw
              exact hvalues key v' w' hv hw
          · rintro ⟨⟨rfl, hkeys⟩, hvalues⟩
            have hfirst (entries : List (String × Value)) (u : Value) : ((k, u) :: entries).lookup k = some u := by
              rw [lookup_cons, if_pos rfl]
            refine ⟨⟨rfl, hvalues k v w (hfirst rest v) (hfirst rest' w)⟩, hkeys, fun key v' w' hv hw => ?_⟩
            -- a name of the other entries is not that of the first ones
            have hne : key ≠ k := by
              rintro rfl
              rw [lookup_eq_none_iff_keys.2 hk] at hv
              cases hv
            refine hvalues key v' w' ?_ ?_
            · rwa [lookup_cons, if_neg hne]
            · rwa [lookup_cons, if_neg hne]

/-- A document is a map that keeps the order of insertion. After all calls of a history: names are distinct and stand in
the order in which they last came in; a name has the value last put under it since it was last removed, and these are
all names; the next call answers with that value, where inserting leaves a name that is there in its place and removing
leaves the order of the others; and two documents are equal exactly if they have the same names in the same order and
equal values under them. -/
theorem document_history (calls : List (Call Value)) :
    (after calls).keys.Nodup ∧ InOrder calls (after calls).keys ∧
      (∀ key, (after calls).get? key = lastValue? calls key) ∧
      (∀ key, key ∈ (after calls).keys ↔ lastValue? calls key ≠ none) ∧
      (after calls).size = (after calls).keys.length ∧
      (∀ call : Call Value, (call.run (after calls)).1 = lastValue? calls call.key) ∧
      (∀ key value, ((after calls).getThenInsert? key value).2.keys =
        if key ∈ (after calls).keys then (after calls).keys else (after calls).keys ++ [key]) ∧
      (∀ key, ((after calls).getThenRemove? key).2.keys = (after calls).keys.filter (· != key)) ∧
      ∀ others : List (Call Value), numericEq (after calls) (after others) = true ↔
        (after calls).keys = (after others).keys ∧
          ∀ key v w, (after calls).get? key = some v → (after others).get? key = some w → v.numericEq w = true := by
  refine ⟨distinct_after calls, inOrder_after calls, get?_after calls, fun key => mem_keys_after, ?_, fun call => ?_,
    fun key value => keys_insert .., fun key => ?_, fun others => agreeEntries_iff (distinct_after calls)⟩
  · exact (List.length_map _).symm
  · cases call with
    | insert key value => exact get?_after calls key
    | remove key => exact get?_after calls key
  · exact (keys_remove ..).trans ((distinct_after calls).erase_eq_filter key)

end Aggregation.Record
