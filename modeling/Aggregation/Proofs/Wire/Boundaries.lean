import Aggregation.Proofs.Wire.Canonical

/-! Where reader and writer draw the line. A writer compares the size of a container when it closes, a reader compares
every length that stands in the bytes, and each counts open containers of its own. Under a size limit that is not
negative both take the same documents; a negative one stops no writer, while a reader takes nothing under it. -/

namespace Aggregation.Wire

open Layout

variable {l l' : Limits}

mutual

/-- A writer takes a value under other limits, if it nests as deep and closes whatever it closed up to the size of the
value. -/
theorem Admits.of_closes {opened : Nat} (hnesting : l'.maxNestingDepth = l.maxNestingDepth) : ∀ v : Value,
    Admits l opened v → (∀ n ≤ (value v).length, l.Closes n → l'.Closes n) → Admits l' opened v
  | .document ⟨fields⟩, h, hcloses => by
    rw [value, length_container] at hcloses
    obtain ⟨hdepth, hfields, hsize⟩ := h
    refine ⟨hnesting ▸ hdepth, ?_, hcloses _ (by rw [length_container]) hsize⟩
    exact hfields.of_closes hnesting fields fun n hn => hcloses n (by omega)
  | .array xs, h, hcloses => by
    rw [value, length_container] at hcloses
    obtain ⟨hdepth, hitems, hsize⟩ := h
    refine ⟨hnesting ▸ hdepth, ?_, hcloses _ (by rw [length_container]) hsize⟩
    exact hitems.of_closes hnesting xs 0 fun n hn => hcloses n (by omega)
  | .scopedCode code ⟨fields⟩, h, hcloses => by
    rw [value, length_sized, List.length_append, length_container] at hcloses
    obtain ⟨hdepth, hscope, hfields, hinner, hsize⟩ := h
    refine ⟨hnesting ▸ hdepth, hnesting ▸ hscope, ?_, hcloses _ (by rw [length_container]; omega) hinner,
      hcloses _ (by rw [length_sized, List.length_append, length_container]) hsize⟩
    exact hfields.of_closes hnesting fields fun n hn => hcloses n (by omega)
  | .regularExpression _ _, h, _ => h
  | .double _, _, _ | .string _, _, _ | .binary _ _, _, _ | .undefined, _, _ | .objectId _, _, _ | .boolean _, _, _
  | .dateTime _, _, _ | .null, _, _ | .dbPointer _ _, _, _ | .javaScript _, _, _ | .symbol _, _, _ | .int32 _, _, _
  | .timestamp _ _, _, _ | .int64 _, _, _ | .decimal128 _, _, _ | .minKey, _, _ | .maxKey, _, _ => trivial

theorem AdmitsElements.of_closes {opened : Nat} (hnesting : l'.maxNestingDepth = l.maxNestingDepth) :
    ∀ fields : List (String × Value), AdmitsElements l opened fields →
      (∀ n ≤ (elements fields).length, l.Closes n → l'.Closes n) → AdmitsElements l' opened fields
  | [], _, _ => trivial
  | (name, v) :: rest, h, hcloses => by
    rw [elements, List.length_append, List.length_append] at hcloses
    obtain ⟨hname, hv, hrest⟩ := h
    exact ⟨hname, hv.of_closes hnesting v fun n hn => hcloses n (by omega),
      hrest.of_closes hnesting rest fun n hn => hcloses n (by omega)⟩

theorem AdmitsItems.of_closes {opened : Nat} (hnesting : l'.maxNestingDepth = l.maxNestingDepth) :
    ∀ (xs : List Value) (index : Nat), AdmitsItems l opened xs →
      (∀ n ≤ (items index xs).length, l.Closes n → l'.Closes n) → AdmitsItems l' opened xs
  | [], _, _, _ => trivial
  | v :: rest, index, h, hcloses => by
    rw [items, List.length_append, List.length_append] at hcloses
    obtain ⟨hv, hrest⟩ := h
    exact ⟨hv.of_closes hnesting v fun n hn => hcloses n (by omega),
      hrest.of_closes hnesting rest (index + 1) fun n hn => hcloses n (by omega)⟩

end

/-- Under a negative size limit a writer takes a document of any size. -/
theorem admits_document_iff_of_neg (hneg : l.maxDocumentSize < 0) (d : Document) :
    Admits l 0 (.document d) ↔ IsNulFree (.document d) ∧ depth (.document d) ≤ l.maxNestingDepth := by
  let wide : Limits := ⟨(document d).length, l.maxNestingDepth⟩
  have hnesting : wide.maxNestingDepth = l.maxNestingDepth := rfl
  have hwide : Admits l 0 (.document d) ↔ Admits wide 0 (.document d) :=
    ⟨fun h => h.of_closes hnesting _ fun n hn _ => .inr (Int.ofNat_le.2 hn),
      fun h => h.of_closes hnesting.symm _ fun _ _ _ => .inl hneg⟩
  rw [hwide, admits_document_iff_of_nonneg (Int.natCast_nonneg _)]
  exact and_congr_right fun _ => and_iff_left (Int.le_refl _)

mutual

/-- A form is one under wider limits, too. -/
theorem IsForm.mono {opened : Nat} (hsize : l.maxDocumentSize ≤ l'.maxDocumentSize)
    (hnesting : l.maxNestingDepth ≤ l'.maxNestingDepth) : ∀ {v : Value} {bytes : List UInt8},
      IsForm l opened v bytes → IsForm l' opened v bytes
  | .document _, _, ⟨hdepth, hnodup, body, hbody, heq, hbounds⟩ =>
    ⟨Nat.lt_of_lt_of_le hdepth hnesting, hnodup, body, hbody.mono hsize hnesting, heq, Int.le_trans hbounds hsize⟩
  | .array _, _, ⟨hdepth, body, hbody, heq, hbounds⟩ =>
    ⟨Nat.lt_of_lt_of_le hdepth hnesting, body, hbody.mono hsize hnesting, heq, Int.le_trans hbounds hsize⟩
  | .scopedCode _ _, _, ⟨hdepth, hnodup, body, hbody, heq, hbounds⟩ =>
    ⟨Nat.lt_of_lt_of_le hdepth hnesting, hnodup, body, hbody.mono hsize hnesting, heq, Int.le_trans hbounds hsize⟩
  | .string _, _, ⟨heq, hbounds⟩ | .binary _ _, _, ⟨heq, hbounds⟩ | .dbPointer _ _, _, ⟨heq, hbounds⟩
  | .javaScript _, _, ⟨heq, hbounds⟩ | .symbol _, _, ⟨heq, hbounds⟩ => ⟨heq, Int.le_trans hbounds hsize⟩
  | .regularExpression _ _, _, h => h
  | .double _, _, h | .undefined, _, h | .objectId _, _, h | .boolean _, _, h | .dateTime _, _, h | .null, _, h
  | .int32 _, _, h | .timestamp _ _, _, h | .int64 _, _, h | .decimal128 _, _, h | .minKey, _, h | .maxKey, _, h => h

theorem AreForms.mono {opened : Nat} (hsize : l.maxDocumentSize ≤ l'.maxDocumentSize)
    (hnesting : l.maxNestingDepth ≤ l'.maxNestingDepth) : ∀ {fields : List (String × Value)} {bytes : List UInt8},
      AreForms l opened fields bytes → AreForms l' opened fields bytes
  | [], _, h => h
  | (_, _) :: _, _, ⟨hname, first, later, hv, hrest, heq⟩ =>
    ⟨hname, first, later, hv.mono hsize hnesting, hrest.mono hsize hnesting, heq⟩

theorem ItemsAreForms.mono {opened : Nat} (hsize : l.maxDocumentSize ≤ l'.maxDocumentSize)
    (hnesting : l.maxNestingDepth ≤ l'.maxNestingDepth) : ∀ {xs : List Value} {bytes : List UInt8},
      ItemsAreForms l opened xs bytes → ItemsAreForms l' opened xs bytes
  | [], _, h => h
  | _ :: _, _, ⟨name, first, later, hname, hv, hrest, heq⟩ =>
    ⟨name, first, later, hname, hv.mono hsize hnesting, hrest.mono hsize hnesting, heq⟩

end

theorem AreDocuments.mono (hsize : l.maxDocumentSize ≤ l'.maxDocumentSize)
    (hnesting : l.maxNestingDepth ≤ l'.maxNestingDepth) : ∀ {ds : List Document} {bytes : List UInt8},
      AreDocuments l ds bytes → AreDocuments l' ds bytes
  | [], _, h => h
  | _ :: _, _, ⟨first, later, hd, hrest, heq⟩ => ⟨first, later, hd.mono hsize hnesting, hrest.mono hsize hnesting, heq⟩

theorem areDocuments_singleton {d : Document} {bytes : List UInt8} :
    AreDocuments l [d] bytes ↔ IsDocumentForm l d bytes := by
  constructor
  · rintro ⟨first, later, hform, rfl, rfl⟩
    rwa [List.append_nil]
  · exact fun hform => ⟨bytes, [], hform, rfl, (List.append_nil bytes).symm⟩

/-- Bytes are forms of one list of documents at most. -/
theorem AreDocuments.unique (hl : l.maxDocumentSize < 2147483648) {ds ds' : List Document} {bytes : List UInt8}
    (h : AreDocuments l ds bytes) (h' : AreDocuments l ds' bytes) : ds = ds' := by
  obtain ⟨hcontent, hending⟩ := Source.content_ofBytes bytes Nat.one_pos false
  rw [← hcontent, ← decodeStream_eq_ok_iff hl hending] at h h'
  exact Except.ok.inj (h.symm.trans h')

/-- The layout of a document is read under limits exactly if it is within them, and then it is read as the document. -/
theorem decodeStream_document_iff (hl : l.maxDocumentSize < 2147483648) {d : Document} {source : Source}
    (hdistinct : HasDistinctNames (.document d)) (hnul : IsNulFree (.document d))
    (hword : (document d).length < 2147483648) (hcontent : source.content = document d)
    (hending : source.ending = .ends) (ds : List Document) :
    (decodeStream source l).result = .ok ds ↔
      ds = [d] ∧ depth (.document d) ≤ l.maxNestingDepth ∧ ((document d).length : Int) ≤ l.maxDocumentSize := by
  rw [decodeStream_eq_ok_iff hl hending, hcontent]
  constructor
  · intro h
    -- under limits that are wide enough the layout is a form of the document, and of nothing else
    let wide : Limits := ⟨2147483647, max l.maxNestingDepth (depth (.document d))⟩
    have hsize : ((document d).length : Int) ≤ wide.maxDocumentSize := Int.le_of_lt_add_one (Int.ofNat_lt.2 hword)
    have hadmits : Admits wide 0 (.document d) :=
      (admits_document_iff_of_nonneg (Int.le_trans (Int.natCast_nonneg _) hsize) d).2
        ⟨hnul, Nat.le_max_right _ _, hsize⟩
    have hform : AreDocuments wide [d] (document d) :=
      areDocuments_singleton.2 (isForm_value _ hadmits hdistinct hsize)
    have hother : AreDocuments wide ds (document d) := h.mono (Int.le_of_lt_add_one hl) (Nat.le_max_left _ _)
    obtain rfl : ds = [d] := hother.unique (Int.lt_succ_self _) hform
    have hd : IsForm l 0 (.document d) (document d) := areDocuments_singleton.1 h
    obtain ⟨-, -, hdepth⟩ := hd.wellFormed (Nat.zero_le _)
    obtain ⟨-, -, -, -, -, hbounds⟩ := hd
    exact ⟨rfl, by omega, hbounds⟩
  · rintro ⟨rfl, hdepth, hsize⟩
    have hadmits : Admits l 0 (.document d) :=
      (admits_document_iff_of_nonneg (Int.le_trans (Int.natCast_nonneg _) hsize) d).2 ⟨hnul, hdepth, hsize⟩
    exact areDocuments_singleton.2 (isForm_value _ hadmits hdistinct hsize)

/-- Over a sink that takes everything, a document is encoded if the writer takes it. -/
theorem exists_encodeStream_iff {sink : Sink} (hsink : sink.refusal = none) (d : Document) :
    (∃ n, (encodeStream [d] sink l).result = .ok n) ↔ Admits l 0 (.document d) := by
  constructor
  · rintro ⟨n, hn⟩
    exact admits_of_encodeStream hsink hn d List.mem_cons_self
  · intro h
    exact ⟨_, (encodeStream_of_admits hsink (List.forall_mem_singleton.2 h)).1⟩

/-- Under a size limit that is not negative, whatever the limits are apart from that, a document is written exactly if
its layout is read, and it is read as itself. Under a negative one everything is written that is not nested too deep,
and nothing is read. -/
theorem exists_encodeStream_iff_exists_decodeStream (size : Int32) (nesting : Nat) (d : Document) (sink : Sink)
    (source : Source) (hdistinct : HasDistinctNames (.document d)) (hnul : IsNulFree (.document d))
    (hword : (document d).length < 2147483648) (hsink : sink.refusal = none)
    (hcontent : source.content = document d) (hending : source.ending = .ends) :
    (0 ≤ size.toInt → ((∃ n, (encodeStream [d] sink (.ofWord size nesting)).result = .ok n) ↔
        ∃ ds, (decodeStream source (.ofWord size nesting)).result = .ok ds)) ∧
      (∀ ds, (decodeStream source (.ofWord size nesting)).result = .ok ds → ds = [d]) ∧
      (size.toInt < 0 → ((∃ n, (encodeStream [d] sink (.ofWord size nesting)).result = .ok n) ↔
          depth (.document d) ≤ nesting) ∧
        ¬∃ ds, (decodeStream source (.ofWord size nesting)).result = .ok ds) := by
  have hread := decodeStream_document_iff (Limits.ofWord_lt size nesting) hdistinct hnul hword hcontent hending
  have hwritten := exists_encodeStream_iff (l := .ofWord size nesting) hsink d
  refine ⟨fun hnonneg => ?_, fun ds hds => ((hread ds).1 hds).1, fun hneg => ⟨?_, ?_⟩⟩
  · rw [hwritten, admits_document_iff_of_nonneg hnonneg]
    exact ⟨fun ⟨_, hdepth, hsize⟩ => ⟨[d], (hread _).2 ⟨rfl, hdepth, hsize⟩⟩,
      fun ⟨ds, hds⟩ => ⟨hnul, ((hread ds).1 hds).2⟩⟩
  · rw [hwritten, admits_document_iff_of_neg hneg]
    exact and_iff_right hnul
  · rintro ⟨ds, hds⟩
    have hsize : ((document d).length : Int) ≤ size.toInt := ((hread ds).1 hds).2.2
    omega

/-- Code with a scope in an array takes forty-six bytes and opens four containers: under these limits it is written and
read, under a byte or a container less it is neither. -/
theorem exists_encodeStream_iff_exists_decodeStream_scopedCode :
    let d : Document := ⟨[("a", .array [.regularExpression "x" "i", .scopedCode "f" ⟨[("é", .int32 (-1))]⟩])]⟩
    let source : Source := .ofBytes (document d) 1 none true
    HasDistinctNames (.document d) ∧ IsNulFree (.document d) ∧ (document d).length < 2147483648 ∧
      (default : Sink).refusal = none ∧ source.content = document d ∧ source.ending = .ends ∧
        (∃ n, (encodeStream [d] default (.ofWord 46 4)).result = .ok n) ∧
        (∃ ds, (decodeStream source (.ofWord 46 4)).result = .ok ds) ∧
        ∀ l ∈ [Limits.ofWord 45 4, .ofWord 46 3], (¬∃ n, (encodeStream [d] default l).result = .ok n) ∧
          ¬∃ ds, (decodeStream source l).result = .ok ds := by
  intro d source
  have hdistinct : HasDistinctNames (.document d) := by
    simp [d, HasDistinctNames, HaveDistinctNames, ItemsHaveDistinctNames]
  have hnul : IsNulFree (.document d) := by simp [d, IsNulFree, AreNulFree, ItemsAreNulFree]
  have hsize : (document d).length = 46 := by decide
  have hdepth : depth (.document d) = 4 := by decide
  have hword : (document d).length < 2147483648 := by omega
  obtain ⟨hcontent, hending⟩ := Source.content_ofBytes (document d) Nat.one_pos true
  have hsame (size : Int32) (nesting : Nat) :=
    (exists_encodeStream_iff_exists_decodeStream size nesting d default source hdistinct hnul hword rfl hcontent
      hending).1
  have hwritten (size : Int32) (nesting : Nat) (hnonneg : 0 ≤ size.toInt) :
      (∃ n, (encodeStream [d] default (.ofWord size nesting)).result = .ok n) ↔ 4 ≤ nesting ∧ 46 ≤ size.toInt := by
    rw [exists_encodeStream_iff rfl, admits_document_iff_of_nonneg hnonneg, hdepth, hsize]
    exact and_iff_right hnul
  have hfits := (hwritten 46 4 (by decide)).2 (by decide)
  refine ⟨hdistinct, hnul, hword, rfl, hcontent, hending, hfits, (hsame 46 4 (by decide)).1 hfits, ?_⟩
  have hneither (size : Int32) (nesting : Nat) (hnonneg : 0 ≤ size.toInt) (hbeyond : ¬(4 ≤ nesting ∧ 46 ≤ size.toInt)) :
      (¬∃ n, (encodeStream [d] default (.ofWord size nesting)).result = .ok n) ∧
        ¬∃ ds, (decodeStream source (.ofWord size nesting)).result = .ok ds :=
    have hrefused := fun h => hbeyond ((hwritten size nesting hnonneg).1 h)
    ⟨hrefused, fun h => hrefused ((hsame size nesting hnonneg).2 h)⟩
  exact List.forall_mem_cons.2 ⟨hneither 45 4 (by decide) (by decide),
    List.forall_mem_singleton.2 (hneither 46 3 (by decide) (by decide))⟩

/-- Under a size limit of minus one the empty document is written and not read. -/
theorem encodeStream_decodeStream_negative_ne :
    let d : Document := ⟨[]⟩
    let l : Limits := .ofWord (-1) 100
    ¬((∃ n, (encodeStream [d] default l).result = .ok n) ↔
      ∃ ds, (decodeStream (.ofBytes (document d)) l).result = .ok ds) := by
  intro d l
  obtain ⟨hcontent, hending⟩ := Source.content_ofBytes (document d) (by decide : 0 < Source.readSize) false
  have hwritten : ∃ n, (encodeStream [d] default l).result = .ok n :=
    (exists_encodeStream_iff rfl d).2 ((admits_document_iff_of_neg (by decide) d).2 ⟨trivial, by decide⟩)
  have hdistinct : HasDistinctNames (.document d) := ⟨List.nodup_nil, trivial⟩
  intro hsame
  obtain ⟨ds, hds⟩ := hsame.1 hwritten
  have hread := (decodeStream_document_iff (Limits.ofWord_lt (-1) 100) hdistinct trivial (by decide) hcontent hending
    ds).1 hds
  exact absurd hread.2.2 (by decide)

end Aggregation.Wire
