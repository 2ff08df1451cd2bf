import Aggregation.Json.Reading
import Aggregation.Log
import Aggregation.Proofs.Text.Letters
import Mathlib.Data.List.Nodup

/-!
Log lines as JSON. Whatever the strings of an entry hold, its line is one line: every control character is escaped, so
the only line break is the one at the end. A reader of JSON finds one object in it, with the members that were given and
each string as it was; and fields under distinct keys may be given in any order.
-/

namespace Aggregation

namespace Hex

/-- A small number is padded to four digits by two zeros before those of a byte. -/
theorem toList_padded_four {n : Nat} (h : n < 256) :
    (padded 4 n).toList = ['0', '0', digit (n / 16), digit (n % 16)] := by
  have hn : (UInt8.ofNat n).toNat = n := UInt8.toNat_ofNat_of_lt' h
  have htwo := toList_padded_two (UInt8.ofNat n)
  rw [padded, String.toList_ofList, ofByte, hn] at htwo
  have hlength : (Nat.toDigits 16 n).length ≤ 2 := by
    have htotal := congrArg List.length htwo
    rw [List.length_append, List.length_replicate, List.length_cons, List.length_singleton] at htotal
    omega
  have hzeros : 4 - (Nat.toDigits 16 n).length = 2 + (2 - (Nat.toDigits 16 n).length) := by omega
  calc (padded 4 n).toList
    _ = List.replicate (4 - (Nat.toDigits 16 n).length) '0' ++ Nat.toDigits 16 n := by
      rw [padded, String.toList_ofList]
    _ = List.replicate 2 '0' ++ (List.replicate (2 - (Nat.toDigits 16 n).length) '0' ++ Nat.toDigits 16 n) := by
      rw [hzeros, ← List.replicate_append_replicate, List.append_assoc]
    _ = ['0', '0', digit (n / 16), digit (n % 16)] := by
      rw [htwo]
      rfl

end Hex

namespace Log

open Json

/-- A control character: those of ASCII, and the thirty-two after it. -/
def IsControl (c : Char) : Prop := c.toNat < 0x20 ∨ 0x7F ≤ c.toNat ∧ c.toNat ≤ 0x9F

variable {c d e : Char} {text rest left : List Char} {pieces : List Piece}

theorem not_isControl_of_print (h : 0x20 ≤ c.toNat ∧ c.toNat < 0x7F) : ¬ IsControl c := by
  rw [IsControl]
  omega

/-- A letter that stands for a character after a backslash. -/
structure IsLetter (c e : Char) : Prop where
  escaped_eq : escaped? e = some c
  print : 0x20 ≤ e.toNat ∧ e.toNat < 0x7F
  ne_u : e ≠ 'u'

/-- How a character is escaped: by a letter, by its number, or not at all. -/
inductive Escapes (c : Char) : List Char → Prop
  | letter {e : Char} (hletter : IsLetter c e) : Escapes c ['\\', e]
  | number (hsmall : c.toNat < 256) :
      Escapes c ['\\', 'u', '0', '0', Hex.digit (c.toNat / 16), Hex.digit (c.toNat % 16)]
  | plain (hcontrol : ¬ IsControl c) (hquote : c ≠ '"') (hslash : c ≠ '\\') : Escapes c [c]

theorem escapes (c : Char) : Escapes c (escape c) := by
  unfold escape
  split
  · exact .letter ⟨rfl, by decide, by decide⟩
  · exact .letter ⟨rfl, by decide, by decide⟩
  · exact .letter ⟨rfl, by decide, by decide⟩
  · exact .letter ⟨rfl, by decide, by decide⟩
  · exact .letter ⟨rfl, by decide, by decide⟩
  · next hquote hslash _ _ _ =>
      split
      · next hcontrol =>
          have hsmall : c.toNat < 256 := by omega
          rw [Hex.toList_padded_four hsmall]
          exact .number hsmall
      · next hcontrol => exact .plain hcontrol hquote hslash

/-! ### One line -/

theorem print_digit {n : Nat} (h : n < 16) : 0x20 ≤ (Hex.digit n).toNat ∧ (Hex.digit n).toNat < 0x7F :=
  (by decide : ∀ n < 16, 0x20 ≤ (Hex.digit n).toNat ∧ (Hex.digit n).toNat < 0x7F) n h

theorem Escapes.not_isControl (h : Escapes c text) : ∀ d ∈ text, ¬ IsControl d := by
  have hslash : ¬ IsControl '\\' := not_isControl_of_print (by decide)
  cases h with
  | letter hletter =>
      simp only [List.forall_mem_cons]
      exact ⟨hslash, not_isControl_of_print hletter.print, List.forall_mem_nil _⟩
  | number hsmall =>
      have hzero : ¬ IsControl '0' := not_isControl_of_print (by decide)
      have hhigh : c.toNat / 16 < 16 := by omega
      have hlow : c.toNat % 16 < 16 := Nat.mod_lt _ (by decide)
      simp only [List.forall_mem_cons]
      exact ⟨hslash, not_isControl_of_print (by decide), hzero, hzero, not_isControl_of_print (print_digit hhigh),
        not_isControl_of_print (print_digit hlow), List.forall_mem_nil _⟩
  | plain hcontrol =>
      simp only [List.forall_mem_cons]
      exact ⟨hcontrol, List.forall_mem_nil _⟩

theorem not_isControl_literal (s : String) : ∀ d ∈ literal s, ¬ IsControl d := by
  have hquote : ¬ IsControl '"' := not_isControl_of_print (by decide)
  intro d hd
  simp only [literal, List.mem_append, List.mem_cons, List.mem_flatMap, List.not_mem_nil, or_false] at hd
  rcases hd with (rfl | ⟨c, -, hc⟩) | rfl
  · exact hquote
  · exact (escapes c).not_isControl d hc
  · exact hquote

theorem not_isControl_member (field : String × String) : ∀ d ∈ member field, ¬ IsControl d := by
  intro d hd
  simp only [member, List.mem_append, List.mem_cons] at hd
  rcases hd with (rfl | hd) | rfl | hd
  · exact not_isControl_of_print (by decide)
  · exact not_isControl_literal _ d hd
  · exact not_isControl_of_print (by decide)
  · exact not_isControl_literal _ d hd

/-- Without its line break a line holds no control character. -/
theorem not_isControl_render (entry : Entry) : ∀ d ∈ entry.render, ¬ IsControl d := by
  intro d hd
  simp only [Entry.render, List.mem_append, List.mem_cons, List.mem_flatMap, List.not_mem_nil, or_false] at hd
  rcases hd with ((((rfl | hd) | rfl | hd) | hd) | ⟨field, -, hd⟩) | rfl
  · exact not_isControl_of_print (by decide)
  · exact not_isControl_literal _ d hd
  · exact not_isControl_of_print (by decide)
  · exact not_isControl_literal _ d hd
  · exact not_isControl_member _ d hd
  · exact not_isControl_member field d hd
  · exact not_isControl_of_print (by decide)

/-! ### Strings -/

/-- A piece of a literal that stands for a character, whatever follows it. -/
def StandsFor (piece : Piece) (c : Char) : Prop :=
  ∀ later, characters? (piece :: later) = (characters? later).map (c :: ·)

theorem standsFor_char (c : Char) : StandsFor (.char c) c := fun _ => rfl

/-- A unit that is no surrogate stands for the character of its number. -/
theorem standsFor_unit (h : c.toNat < 0xD800) : StandsFor (.unit c.toNat) c := by
  have hhigh : ¬ (0xD800 ≤ c.toNat ∧ c.toNat < 0xDC00) := by omega
  have hlow : ¬ (0xDC00 ≤ c.toNat ∧ c.toNat < 0xE000) := by omega
  have hany : ¬ (0xD800 ≤ c.toNat ∧ c.toNat < 0xE000) := by omega
  intro later
  cases later with
  | nil =>
      show (if 0xD800 ≤ c.toNat ∧ c.toNat < 0xE000 then none else _) = _
      rw [if_neg hany, Char.ofNat_toNat]
  | cons next later =>
      cases next with
      | char d =>
          show (if 0xD800 ≤ c.toNat ∧ c.toNat < 0xE000 then none else _) = _
          rw [if_neg hany, Char.ofNat_toNat]
      | unit low => rw [characters?, if_neg hhigh, if_neg hlow, Char.ofNat_toNat]

theorem pieces?_letter (h : IsLetter c e) (hrest : pieces? rest = some (pieces, left)) :
    pieces? ('\\' :: e :: rest) = some (.char c :: pieces, left) := by
  rw [pieces?, h.escaped_eq, Option.bind_eq_bind, Option.bind_some, hrest]
  · rfl
  · intro _ _ _ _ _ hu
    exact absurd hu h.ne_u

theorem pieces?_number {n : Nat} (h : n < 256) (hrest : pieces? rest = some (pieces, left)) :
    pieces? ('\\' :: 'u' :: '0' :: '0' :: Hex.digit (n / 16) :: Hex.digit (n % 16) :: rest) =
      some (.unit n :: pieces, left) := by
  have hzero : Hex.value? '0' = some 0 := rfl
  have hhigh : Hex.value? (Hex.digit (n / 16)) = some (n / 16) := Hex.value?_digit (by omega)
  have hlow : Hex.value? (Hex.digit (n % 16)) = some (n % 16) := Hex.value?_digit (Nat.mod_lt _ (by decide))
  have hunit : fourDigits? ['0', '0', Hex.digit (n / 16), Hex.digit (n % 16)] = some (n, []) := by
    simp only [fourDigits?, hzero, hhigh, hlow, Option.bind_eq_bind, Option.bind_some, Option.pure_def]
    rw [show ((0 * 16 + 0) * 16 + n / 16) * 16 + n % 16 = n by omega]
  rw [pieces?, hunit, Option.bind_eq_bind, Option.bind_some, hrest]
  rfl

theorem pieces?_plain (hcontrol : ¬ IsControl c) (hquote : c ≠ '"') (hslash : c ≠ '\\')
    (hrest : pieces? rest = some (pieces, left)) : pieces? (c :: rest) = some (.char c :: pieces, left) := by
  have hlarge : ¬ (c.toNat < 0x20 ∨ c = '\\') := by
    rintro (hsmall | hc)
    · exact hcontrol (.inl hsmall)
    · exact hslash hc
  rw [pieces?, if_neg hlarge, hrest]
  · rfl
  · exact fun h => hquote h
  · exact fun _ _ _ _ _ h => absurd h hslash
  · exact fun _ _ h => absurd h hslash

/-- An escaped character is read as one piece that stands for it. -/
theorem Escapes.exists_piece (h : Escapes c text) : ∃ piece, StandsFor piece c ∧
    ∀ {rest pieces left}, pieces? rest = some (pieces, left) →
      pieces? (text ++ rest) = some (piece :: pieces, left) := by
  cases h with
  | letter hletter => exact ⟨_, standsFor_char c, pieces?_letter hletter⟩
  | number hsmall =>
      have hunit : c.toNat < 0xD800 := by omega
      exact ⟨_, standsFor_unit hunit, pieces?_number hsmall⟩
  | plain hcontrol hquote hslash => exact ⟨_, standsFor_char c, pieces?_plain hcontrol hquote hslash⟩

theorem exists_characters (chars rest : List Char) :
    ∃ pieces, characters? pieces = some chars ∧ pieces? (chars.flatMap escape ++ '"' :: rest) = some (pieces, rest) := by
  induction chars with
  | nil => exact ⟨[], rfl, rfl⟩
  | cons c chars ih =>
      obtain ⟨pieces, hchars, hpieces⟩ := ih
      obtain ⟨piece, hstands, hread⟩ := (escapes c).exists_piece
      refine ⟨piece :: pieces, ?_, ?_⟩
      · rw [hstands, hchars]
        rfl
      · rw [List.flatMap_cons, List.append_assoc]
        exact hread hpieces

/-- A literal is read to its end, as the string that it was written for. -/
theorem exists_pieces (s : String) (rest : List Char) :
    ∃ pieces, pieceText? pieces = some s ∧ pieces? (s.toList.flatMap escape ++ '"' :: rest) = some (pieces, rest) := by
  obtain ⟨pieces, hchars, hpieces⟩ := exists_characters s.toList rest
  refine ⟨pieces, ?_, hpieces⟩
  rw [pieceText?, hchars, Option.map_some, String.ofList_toList]

/-! ### Members -/

/-- A member of an object in which a string stands under a key. -/
def Holds (m : List Piece × Tree) (field : String × String) : Prop :=
  pieceText? m.1 = some field.1 ∧ m.2.text? = some field.2

/-- A key and its string. -/
def pair (field : String × String) : List Char := literal field.1 ++ ':' :: literal field.2

theorem member_eq (field : String × String) : member field = ',' :: pair field := rfl

theorem literal_append (s : String) (rest : List Char) :
    literal s ++ rest = '"' :: (s.toList.flatMap escape ++ '"' :: rest) := by
  rw [literal, List.cons_append, List.cons_append, List.append_assoc, List.singleton_append]

theorem pair_append (field : String × String) (rest : List Char) :
    pair field ++ rest = '"' :: (field.1.toList.flatMap escape ++ '"' :: ':' :: (literal field.2 ++ rest)) := by
  rw [pair, List.append_assoc, literal_append, List.cons_append]

theorem value?_literal {s : String} (h : pieces? (s.toList.flatMap escape ++ '"' :: rest) = some (pieces, rest))
    (fuel : Nat) : value? (fuel + 1) (literal s ++ rest) = some (.string pieces, rest) := by
  rw [literal_append]
  show (pieces? (s.toList.flatMap escape ++ '"' :: rest)).map _ = _
  rw [h]
  rfl

theorem skipBlanks_cons (h : isBlank c = false) : skipBlanks (c :: rest) = c :: rest :=
  List.dropWhile_cons_of_neg (by rw [h]; exact Bool.false_ne_true)

/-- A key and its string are read as a member, and what follows them decides whether there are more. -/
theorem exists_member (field : String × String) (fuel : Nat) (next : List Char) :
    ∃ m, Holds m field ∧
      (∀ rest, next = '\x7d' :: rest → members? (fuel + 2) (pair field ++ next) = some ([m], rest)) ∧
      ∀ rest members left, next = ',' :: rest → members? (fuel + 1) rest = some (members, left) →
        members? (fuel + 2) (pair field ++ next) = some (m :: members, left) := by
  have hcolon : isBlank ':' = false := rfl
  obtain ⟨key, hkeytext, hkey⟩ := exists_pieces field.1 (':' :: (literal field.2 ++ next))
  obtain ⟨value, hvaluetext, hvalue⟩ := exists_pieces field.2 next
  have hread := value?_literal hvalue fuel
  refine ⟨(key, .string value), ⟨hkeytext, hvaluetext⟩, fun rest hnext => ?_, fun rest members left hnext hmore => ?_⟩
  · rw [pair_append, members?, skipBlanks_cons rfl]
    simp only [hkey, skipBlanks_cons hcolon, hread]
    rw [hnext, skipBlanks_cons rfl]
    rfl
  · rw [pair_append, members?, skipBlanks_cons rfl]
    simp only [hkey, skipBlanks_cons hcolon, hread]
    rw [hnext, skipBlanks_cons rfl]
    simp only [hmore]
    rfl

/-- All members are read, with their strings in order. -/
theorem exists_members (field : String × String) (more : List (String × String)) (rest : List Char) {fuel : Nat}
    (hfuel : more.length ≤ fuel) :
    ∃ members, List.Forall₂ Holds members (field :: more) ∧
      members? (fuel + 2) (pair field ++ (more.flatMap member ++ '\x7d' :: rest)) = some (members, rest) := by
  induction more generalizing field fuel with
  | nil =>
      obtain ⟨m, hm, hlast, -⟩ := exists_member field fuel ('\x7d' :: rest)
      exact ⟨[m], .cons hm .nil, hlast rest rfl⟩
  | cons second more ih =>
      cases fuel with
      | zero => exact absurd hfuel (Nat.not_succ_le_zero _)
      | succ fuel =>
          obtain ⟨members, hholds, hmembers⟩ := ih second (Nat.le_of_succ_le_succ hfuel)
          obtain ⟨m, hm, -, hmore⟩ := exists_member field (fuel + 1)
            (',' :: (pair second ++ (more.flatMap member ++ '\x7d' :: rest)))
          refine ⟨m :: members, .cons hm hholds, ?_⟩
          rw [List.flatMap_cons, member_eq, List.append_assoc]
          exact hmore _ _ _ rfl hmembers

theorem value?_object {members : List (List Piece × Tree)} {fuel : Nat}
    (h : members? fuel ('"' :: text) = some (members, left)) :
    value? (fuel + 1) ('\x7b' :: '"' :: text) = some (.object members, left) := by
  have hquote : isBlank '"' = false := rfl
  rw [value?, skipBlanks_cons rfl]
  simp only [skipBlanks_cons hquote]
  show (members? fuel ('"' :: text)).map _ = _
  rw [h]
  rfl

/-- The members of a line: the event, the severity and the fields. -/
def Entry.members (entry : Entry) : List (String × String) :=
  ("event", entry.event) :: ("severity", entry.severity.name) :: sortFields entry.fields

theorem render_eq (entry : Entry) (rest : List Char) :
    entry.render ++ rest =
      '\x7b' :: (pair ("event", entry.event) ++ (entry.members.tail.flatMap member ++ '\x7d' :: rest)) := by
  simp only [Entry.render, Entry.members, pair, List.tail_cons, List.flatMap_cons, List.cons_append, List.append_assoc,
    List.nil_append]

theorem length_le_length_flatMap_member (fields : List (String × String)) :
    fields.length ≤ (fields.flatMap member).length := by
  induction fields with
  | nil => exact Nat.le_refl 0
  | cons field rest ih =>
      rw [List.flatMap_cons, List.length_append, List.length_cons, member_eq, List.length_cons]
      omega

/-- A line is read as one object with its members in order. -/
theorem exists_tree (entry : Entry) :
    ∃ members, tree? entry.line.toList = some (.object members) ∧ List.Forall₂ Holds members entry.members := by
  have hline : entry.line.toList =
      '\x7b' :: (pair ("event", entry.event) ++ (entry.members.tail.flatMap member ++ '\x7d' :: ['\n'])) := by
    rw [Entry.line, String.toList_ofList, render_eq]
  -- every step reads a character, so there is fuel for all members
  obtain ⟨fuel, hfuel, hmany⟩ : ∃ fuel, 2 * entry.line.toList.length + 2 = fuel + 3 ∧
      entry.members.tail.length ≤ fuel := by
    have hfields := length_le_length_flatMap_member entry.members.tail
    have hlength := congrArg List.length hline
    simp only [List.length_cons, List.length_append] at hlength
    exact ⟨2 * entry.line.toList.length - 1, by omega, by omega⟩
  obtain ⟨members, hholds, hmembers⟩ := exists_members ("event", entry.event) entry.members.tail ['\n'] hmany
  refine ⟨members, ?_, hholds⟩
  have hvalue : value? (fuel + 3) entry.line.toList = some (.object members, ['\n']) := by
    rw [pair_append] at hmembers
    rw [hline, pair_append]
    exact value?_object hmembers
  rw [tree?, hfuel, hvalue]
  rfl

theorem json?_of_text? {tree : Tree} {s : String} (h : tree.text? = some s) (depth : Nat) :
    tree.json? depth = some (.string s) := by
  cases tree with
  | string pieces =>
      rw [Tree.json?]
      exact congrArg (Option.map Json.string) h
  | _ => cases h

theorem membersJson?_of_forall₂ {members : List (List Piece × Tree)} {fields : List (String × String)}
    (h : List.Forall₂ Holds members fields) (depth : Nat) :
    Tree.membersJson? depth members = some (fields.map fun field => (field.1, .string field.2)) := by
  induction h with
  | nil => rfl
  | cons hm _ ih => rw [Tree.membersJson?, hm.1, json?_of_text? hm.2 depth, ih, List.map_cons]

/-! ### The order of the fields -/

/-- Fields in the order of their keys, those of one key in the order in which they were given. -/
structure StablySorted (given sorted : List (String × String)) : Prop where
  perm : sorted.Perm given
  ordered : sorted.Pairwise fun a b => a.1 ≤ b.1
  stable : ∀ key, sorted.filter (·.1 = key) = given.filter (·.1 = key)

theorem keys_total (a b : String × String) : (decide (a.1 ≤ b.1) || decide (b.1 ≤ a.1)) = true := by
  rw [Bool.or_eq_true, decide_eq_true_eq, decide_eq_true_eq]
  exact String.le_total a.1 b.1

theorem keys_trans (a b c : String × String) (hab : decide (a.1 ≤ b.1) = true) (hbc : decide (b.1 ≤ c.1) = true) :
    decide (a.1 ≤ c.1) = true := by
  rw [decide_eq_true_eq] at hab hbc ⊢
  exact String.le_trans hab hbc

theorem stablySorted_sortFields (fields : List (String × String)) : StablySorted fields (sortFields fields) where
  perm := List.mergeSort_perm _ _
  ordered := by
    have hsorted := List.pairwise_mergeSort keys_trans keys_total fields
    exact hsorted.imp fun h => of_decide_eq_true h
  stable key := by
    have hperm : ((sortFields fields).filter (·.1 = key)).Perm (fields.filter (·.1 = key)) :=
      (List.mergeSort_perm _ _).filter _
    have hequal : (fields.filter (·.1 = key)).Pairwise fun a b => decide (a.1 ≤ b.1) = true := by
      refine List.pairwise_of_forall_mem_list fun a ha b hb => ?_
      have hkeys : a.1 = b.1 := by
        rw [of_decide_eq_true (List.mem_filter.1 ha).2, of_decide_eq_true (List.mem_filter.1 hb).2]
      exact decide_eq_true (hkeys ▸ String.le_refl _)
    have hsub := List.sublist_mergeSort keys_trans keys_total hequal List.filter_sublist
    have hsub' := hsub.filter (·.1 = key)
    rw [List.filter_filter] at hsub'
    simp only [Bool.and_self] at hsub'
    exact (hsub'.eq_of_length hperm.length_eq.symm).symm

/-- Fields under distinct keys have one order. -/
theorem sortFields_eq_of_perm {fields given : List (String × String)} (hperm : fields.Perm given)
    (hkeys : (given.map Prod.fst).Nodup) : sortFields fields = sortFields given := by
  have hfields := stablySorted_sortFields fields
  have hgiven := stablySorted_sortFields given
  refine List.Perm.eq_of_pairwise ?_ hfields.ordered hgiven.ordered (hfields.perm.trans (hperm.trans hgiven.perm.symm))
  intro a b ha hb hab hba
  have ha' : a ∈ given := hperm.mem_iff.1 (hfields.perm.mem_iff.1 ha)
  have hb' : b ∈ given := hgiven.perm.mem_iff.1 hb
  exact List.inj_on_of_nodup_map hkeys ha' hb' (String.le_antisymm hab hba)

/-- A line has one line break, at its end, and no other control character. A reader of JSON finds one object in it, whose
members are the event, the severity and the fields in the order of their keys, each string as it was given. And the order
in which fields are given under distinct keys does not matter. -/
theorem line_reads_back (entry : Entry) :
    (∃ body, entry.line.toList = body ++ ['\n'] ∧ ∀ c ∈ body, ¬ IsControl c) ∧
      (∃ sorted, StablySorted entry.fields sorted ∧
        (∃ members, tree? entry.line.toList = some (.object members) ∧ List.Forall₂ Holds members
          (("event", entry.event) :: ("severity", entry.severity.name) :: sorted)) ∧
        parse? entry.line = some (.object (.ofList
          ((("event", entry.event) :: ("severity", entry.severity.name) :: sorted).map
            fun field => (field.1, .string field.2))))) ∧
      ((entry.fields.map Prod.fst).Nodup → ∀ given : List (String × String), given.Perm entry.fields →
        Entry.line { entry with fields := given } = entry.line) := by
  refine ⟨⟨entry.render, ?_, not_isControl_render entry⟩, ?_, fun hkeys given hperm => ?_⟩
  · rw [Entry.line, String.toList_ofList]
  · obtain ⟨members, htree, hholds⟩ := exists_tree entry
    refine ⟨sortFields entry.fields, stablySorted_sortFields entry.fields, ⟨members, htree, hholds⟩, ?_⟩
    rw [parse?, htree, Option.bind_some, Tree.json?, enter?, depthLimit]
    simp only [Nat.reduceLeDiff, if_false, membersJson?_of_forall₂ hholds, Option.map_some]
    rfl
  · rw [Entry.line, Entry.line, Entry.render, Entry.render, sortFields_eq_of_perm hperm hkeys]

/-- A path that holds a quote, a backslash, a line break and a control character past ASCII. -/
def hostile : Entry := ⟨.warn, "BSON_UNKNOWN_TYPE", [("tag", "f0"), ("path", "a\"\\\n\u0085")]⟩

theorem line_reads_back_hostile :
    ((hostile.fields.map Prod.fst).Nodup ∧ hostile.fields.reverse.Perm hostile.fields) ∧
      Entry.line { hostile with fields := hostile.fields.reverse } = hostile.line ∧
      ∃ body, hostile.line.toList = body ++ ['\n'] ∧ '\n' ∉ body := by
  have hkeys : (hostile.fields.map Prod.fst).Nodup := by decide
  have hperm : hostile.fields.reverse.Perm hostile.fields := List.reverse_perm _
  obtain ⟨body, hbody, hcontrol⟩ := (line_reads_back hostile).1
  have hbreak : IsControl '\n' := .inl (by decide)
  exact ⟨⟨hkeys, hperm⟩, (line_reads_back hostile).2.2 hkeys _ hperm, body, hbody, fun hmem => hcontrol _ hmem hbreak⟩

end Log

end Aggregation
