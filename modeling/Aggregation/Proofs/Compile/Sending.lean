import Aggregation.Proofs.Compile.Visibility
import Aggregation.Proofs.Pipeline.Names
import Aggregation.Proofs.Wire.Streams

/-!
Sending the stages of a compiled tree. Planning gives no names to stages but those of outputs, so the paths of the tree
decide whether a writer takes its stages; and what a writer has taken is read back as it was.
-/

namespace Aggregation

open Lowering (AreNulFreePaths)
open Wire (decodeStream)
open Wire.Layout

theorem Expr.exists_child_of_mem {d e : Expr} (h : d ∈ e.occurrences) (hne : d ≠ e) :
    ∃ c ∈ e.children, d ∈ c.occurrences := by
  rw [Expr.occurrences_eq] at h
  exact List.mem_flatMap.1 ((List.mem_cons.1 h).resolve_left hne)

namespace Replaced

variable {root e e' : Expr} {up : List Expr}

/-- The constants of a planned tree are constants of the tree. -/
theorem exists_constant (h : Replaced root up e e') (hsub : ∀ d ∈ e.occurrences, d ∈ root.occurrences)
    {i : NodeInfo} {v : Value} (hmem : .constant i v ∈ e'.occurrences) : ∃ j, .constant j v ∈ root.occurrences := by
  have hbelow {e c : Expr} (hsub : ∀ d ∈ e.occurrences, d ∈ root.occurrences) (hc : c ∈ e.children) :
      ∀ d ∈ c.occurrences, d ∈ root.occurrences :=
    fun d hd => hsub d (Expr.mem_occurrences_of_child hc hd)
  induction h with
  | correlated =>
      obtain ⟨c, hc, -⟩ := Expr.exists_child_of_mem hmem nofun
      cases hc
  | filter _ _ _ _ ihinput ihscalar | project _ _ _ _ ihinput ihscalar =>
      obtain ⟨c, hc, hin⟩ := Expr.exists_child_of_mem hmem nofun
      rcases List.mem_pair.1 hc with rfl | rfl
      · exact ihinput (hbelow hsub List.mem_cons_self) hin
      · exact ihscalar (hbelow hsub (List.mem_cons_of_mem _ List.mem_cons_self)) hin
  | group _ _ _ _ hnew ihinput ihkey =>
      obtain ⟨c, hc, hin⟩ := Expr.exists_child_of_mem hmem nofun
      simp only [Expr.children, List.mem_cons, List.map_append, List.mem_append] at hc
      rcases hc with rfl | rfl | hold | hadded
      · exact ihinput (hbelow hsub List.mem_cons_self) hin
      · exact ihkey (hbelow hsub (List.mem_cons_of_mem _ List.mem_cons_self)) hin
      · exact ⟨i, hbelow hsub (List.mem_cons_of_mem _ (List.mem_cons_of_mem _ hold)) _ hin⟩
      · -- an output that was added is an accumulator from elsewhere in the tree
        obtain ⟨f, hf, rfl⟩ := List.mem_map.1 hadded
        obtain ⟨j, htied⟩ := hnew.tied f hf
        exact ⟨i, Expr.mem_occurrences_trans htied (Expr.mem_occurrences_of_child List.mem_cons_self hin)⟩
  | @kept up e hkind n children hlength _ ih =>
      by_cases hself : e.kind = .constant
      · obtain ⟨j, w, rfl⟩ := Expr.exists_of_kind_eq_constant hself
        rw [Expr.occurrences_eq] at hmem
        cases List.mem_singleton.1 hmem
        exact ⟨j, hsub _ (Expr.mem_occurrences_self _)⟩
      · have hne : .constant i v ≠ e.withChildren ⟨n, e.type⟩ children := by
          intro heq
          rw [← kind_withChildren e ⟨n, e.type⟩ children, ← heq] at hself
          exact hself rfl
        obtain ⟨c', hc', hin⟩ := Expr.exists_child_of_mem hmem hne
        rw [Expr.children_withChildren hlength.symm] at hc'
        obtain ⟨c, hc, hzip⟩ := exists_mem_zip hlength hc'
        exact ih hzip (hbelow hsub hc) hin

theorem kind_eq_constant_iff (h : Replaced root up e e') : e'.kind = .constant ↔ e.kind = .constant := by
  by_cases hkind : e.kind = .correlated
  · rw [h.kind_eq_field hkind, hkind]
    exact iff_of_false nofun nofun
  · rw [h.kind_eq hkind]

/-- Paths of one list are free of NUL exactly if those of another are. -/
def SamePaths (paths paths' : List String) : Prop := AreNulFreePaths paths' ↔ AreNulFreePaths paths

/-- Planning gives no path to a node but the name of an output. -/
theorem rel_readPaths? (h : Replaced root up e e')
    (hnames : ∀ g ∈ up, ∀ f ∈ g.outputs, Build.isOutputName f.1 = true) :
    Option.Rel SamePaths e.readPaths? e'.readPaths? := by
  cases h with
  | correlated i n hg _ hf =>
      refine .some (iff_of_true ?_ nofun)
      exact List.forall_mem_singleton.2 (Lowering.nul_notMem_of_isOutputName (hnames _ hg _ hf))
  | filter | group | project => exact .none
  | @kept _ _ hkind n children hlength _ =>
      cases e with
      | field i path => exact .some Iff.rfl
      | constant | document | accumulator | source | extension => exact .none
      | correlated | filter | group | project => exact absurd (by simp [Expr.kind]) hkind
      | binary =>
          obtain ⟨c, d, rfl⟩ := List.length_eq_two.1 hlength.symm
          exact .none
      | unary | sort | skip | limit =>
          obtain ⟨c, rfl⟩ := List.length_eq_one_iff.1 hlength.symm
          exact .none

theorem rel_besideConstant? {left left' right right' : Expr} (hleft : Replaced root up left left')
    (hright : Replaced root up right right')
    (hnames : ∀ g ∈ up, ∀ f ∈ g.outputs, Build.isOutputName f.1 = true) :
    Option.Rel SamePaths (Expr.besideConstant? left right) (Expr.besideConstant? left' right') := by
  simp only [Expr.besideConstant?, hleft.kind_eq_constant_iff, hright.kind_eq_constant_iff]
  split
  · exact hleft.rel_readPaths? hnames
  · split
    · exact hright.rel_readPaths? hnames
    · exact .none

/-- The paths in a predicate are those that were in it, but for the names of outputs. -/
theorem rel_comparedPaths? (h : Replaced root up e e')
    (hnames : ∀ g ∈ up, ∀ f ∈ g.outputs, Build.isOutputName f.1 = true) :
    Option.Rel SamePaths e.comparedPaths? e'.comparedPaths? := by
  induction h with
  | correlated | filter | group | project => exact .none
  | @kept up e hkind n children hlength hall ih =>
      cases e with
      | constant | field | document | accumulator | source | extension => exact .none
      | correlated | filter | group | project => exact absurd (by simp [Expr.kind]) hkind
      | sort | skip | limit =>
          obtain ⟨c, rfl⟩ := List.length_eq_one_iff.1 hlength.symm
          exact .none
      | unary i op operand =>
          obtain ⟨c, rfl⟩ := List.length_eq_one_iff.1 hlength.symm
          cases op with
          | negate => exact .none
          | not =>
              have hoperand := ih (List.mem_singleton_self (operand, c)) hnames
              exact hoperand
      | binary i op left right =>
          obtain ⟨left', right', rfl⟩ := List.length_eq_two.1 hlength.symm
          have hleft : Replaced root up left left' := hall List.mem_cons_self
          have hright : Replaced root up right right' := hall (List.mem_cons_of_mem _ List.mem_cons_self)
          show Option.Rel SamePaths _ (Expr.binary _ op left' right').comparedPaths?
          unfold Expr.comparedPaths?
          split
          · exact hleft.rel_besideConstant? hright hnames
          · split
            · have hl := ih (List.mem_cons_self : (left, left') ∈ [(left, left'), (right, right')]) hnames
              have hr := ih (List.mem_cons_of_mem _ List.mem_cons_self : (right, right') ∈
                [(left, left'), (right, right')]) hnames
              exact Lowering.rel_bind_bind hl hr fun hl hr =>
                .some (List.forall_mem_append.trans ((and_congr hl hr).trans List.forall_mem_append.symm))
            · exact .none

/-- The paths that become names in the stages of a planned pipeline are those of the tree, but for the names of
outputs. -/
theorem samePaths_keyPaths (h : Replaced root up e e') (hw : e'.WellFormed) : SamePaths e.keyPaths e'.keyPaths := by
  have hcons {own own' rest rest' : List String} (hown : SamePaths own own') (hrest : SamePaths rest rest') :
      SamePaths (own ++ rest) (own' ++ rest') :=
    List.forall_mem_append.trans ((and_congr hown hrest).trans List.forall_mem_append.symm)
  induction h with
  | correlated => exact Iff.rfl
  | @filter up i n input input' predicate predicate' _ hpredicate ihinput _ =>
      have hinput := hw.child List.mem_cons_self
      have hnames : ∀ g ∈ input'.chain, ∀ f ∈ g.outputs, Build.isOutputName f.1 = true := by
        intro g hg f hf
        have hchecked := hinput g (Expr.mem_occurrences_of_mem_chain hg)
        cases g with
        | group => exact (hchecked.2.2.2.1 f hf).1
        | constant | field | binary | unary | document | accumulator | correlated | source | filter | project | sort
        | skip | limit | extension => cases hf
      refine hcons ?_ (ihinput hinput)
      have hrel := hpredicate.rel_comparedPaths? hnames
      show SamePaths (predicate.comparedPaths?.getD []) (predicate'.comparedPaths?.getD [])
      generalize predicate.comparedPaths? = paths, predicate'.comparedPaths? = paths' at hrel ⊢
      cases hrel with
      | none => exact Iff.rfl
      | some hrel => exact hrel
  | group _ _ _ _ _ ihinput | project _ _ _ _ ihinput => exact hcons Iff.rfl (ihinput (hw.child List.mem_cons_self))
  | @kept up e hkind n children hlength _ ih =>
      cases e with
      | constant | field | source | document | accumulator | extension => exact Iff.rfl
      | correlated | filter | group | project => exact absurd (by simp [Expr.kind]) hkind
      | binary =>
          obtain ⟨c, d, rfl⟩ := List.length_eq_two.1 hlength.symm
          exact Iff.rfl
      | unary =>
          obtain ⟨c, rfl⟩ := List.length_eq_one_iff.1 hlength.symm
          exact Iff.rfl
      | sort | skip | limit =>
          obtain ⟨c, rfl⟩ := List.length_eq_one_iff.1 hlength.symm
          exact hcons Iff.rfl (ih List.mem_cons_self (hw.child List.mem_cons_self))

end Replaced

namespace Pipeline

variable {p : Pipeline} {sink : Wire.Sink}

/-- Under the limits that hold without settings, a pipeline that fits into them is written exactly if no name in its
stages holds a NUL, and the documents that are read from what the sink got are its stages. -/
theorem write_iff (hfit : ∀ d ∈ p.documents, depth (.document d) ≤ 100 ∧ (document d).length ≤ 16777216)
    (hdistinct : ∀ d ∈ p.documents, HasDistinctNames (.document d)) (hsink : sink.refusal = none) :
    ((∃ w, p.write.run.run (.ofSink sink) = (.ok (), w)) ↔ ∀ d ∈ p.documents, IsNulFree (.document d)) ∧
      ∀ w, p.write.run.run (.ofSink sink) = (.ok (), w) → ∃ bytes,
        w.sink.received.toList = sink.received.toList ++ bytes ∧
          ∀ source : Wire.Source, source.content = bytes → source.ending = .ends →
            (decodeStream source).result = .ok p.documents := by
  have hfault : ({} : Wire.Limits).fault? = none := by decide
  have hwrite := Wire.Writer.writeDocuments_decides (Wire.Writer.idle_ofSink hsink {}) p.documents
  have hadmits : (∀ d ∈ p.documents, Wire.Admits {} 0 (.document d)) ↔
      ∀ d ∈ p.documents, IsNulFree (.document d) := by
    refine forall₂_congr fun d hd => ?_
    rw [Wire.admits_document_iff hfault]
    exact and_iff_left ⟨(hfit d hd).1, Int.ofNat_le.2 (hfit d hd).2⟩
  constructor
  · refine Iff.trans ?_ (hwrite.ok_iff.trans hadmits)
    exact ⟨fun ⟨w, hw⟩ => ⟨(), w, hw⟩, fun ⟨_, w, hw⟩ => ⟨w, hw⟩⟩
  · intro w hw
    obtain ⟨hall, -, rfl⟩ := hwrite.of_run hw
    refine ⟨p.documents.flatMap document, ?_, fun source hcontent hending => ?_⟩
    · simp only [Wire.Writer.sent, Wire.Writer.ofSink, Array.appendList_eq_append, Array.toList_appendList]
    · rw [Wire.decodeStream_eq_ok_iff (by decide) hending, hcontent]
      exact Wire.areDocuments_flatMap_document hfault p.documents hall hdistinct

end Pipeline

/-- What a compiled tree sends is clean exactly if the paths are that become names. -/
theorem cleanIff_documents {config : Config} {id : String} {root : Expr} {s : Supply} {c : Compilation}
    {held : List Expr} (hheld : Build.Held s held) (hroot : root ∈ held)
    (hcompile : (compile config id root s).result = .ok c) (hconstants : root.CleanConstants) :
    CleanIff (.array (c.pipeline.documents.map .document)) (AreNulFreePaths root.keyPaths) := by
  obtain ⟨planned, t, collection, stages, f, hplan, hlower, hf, hstages⟩ := exists_tidies hcompile
  have hnative : root.Native := (exists_compile_iff_steps.1 ⟨c, hcompile⟩).1
  obtain ⟨hreplaced, hwf⟩ := turned_of_plan (hheld.fresh hroot) (hheld.wellFormed hroot) hnative hplan
  have hplain := hreplaced.kind_ne_correlated hwf
  have hclean : planned.root.CleanConstants := by
    intro i v hmem
    obtain ⟨j, hj⟩ := hreplaced.exists_constant (fun _ hd => hd) hmem
    exact hconstants j v hj
  obtain ⟨hdistinct, hnul⟩ := cleanIff_array.1 (Lowering.cleanIff_lower hwf hplain hclean hlower)
  rw [List.forall_mem_map] at hdistinct hnul
  have hloose (s : Stage) (h : s.isSolid = false) := clean_iff.1 (Lowering.clean_of_isSolid_eq_false h)
  rw [cleanIff_array, Pipeline.documents, hstages, List.map_map, List.forall_mem_map, List.forall_mem_map]
  exact ⟨(hf.forall_mem_iff fun s h => (hloose s h).2).2 hdistinct,
    (hf.forall_mem_iff fun s h => (hloose s h).1).trans (hnul.trans (hreplaced.samePaths_keyPaths hwf))⟩

/-- What the compiler emits comes through: for every tree that a caller can make and that compiles, whose constants are
values with distinct names and without NUL where a name would end, and whose stages fit into the limits, a new writer
over a sink that takes everything writes the stages exactly if no path of the tree that becomes a name holds a NUL; and
from what it has written the documents of the stages are read back. -/
theorem write_iff_keyPaths {config : Config} {id : String} {root : Expr} {s : Supply} {c : Compilation}
    {held : List Expr} (hheld : Build.Held s held) (hroot : root ∈ held)
    (hcompile : (compile config id root s).result = .ok c)
    (hconstants : ∀ i v, .constant i v ∈ root.occurrences → IsNulFree v ∧ HasDistinctNames v)
    (hfit : ∀ d ∈ c.pipeline.documents, depth (.document d) ≤ 100 ∧ (document d).length ≤ 16777216)
    {sink : Wire.Sink} (hsink : sink.refusal = none) :
    ((∃ w, c.pipeline.write.run.run (.ofSink sink) = (.ok (), w)) ↔ ∀ path ∈ root.keyPaths, '\x00' ∉ path.toList) ∧
      ∀ w, c.pipeline.write.run.run (.ofSink sink) = (.ok (), w) → ∃ bytes,
        w.sink.received.toList = sink.received.toList ++ bytes ∧
          ∀ source : Wire.Source, source.content = bytes → source.ending = .ends →
            ∃ ds, (decodeStream source).result = .ok ds ∧ ds.length = c.pipeline.documents.length ∧
              ∀ k (h : k < c.pipeline.documents.length) (h' : k < ds.length),
                Record.same ds[k] c.pipeline.documents[k] = true := by
  have hclean := cleanIff_documents hheld hroot hcompile fun i v hmem => clean_iff.2 (hconstants i v hmem)
  obtain ⟨hdistinct, hnul⟩ := cleanIff_array.1 hclean
  rw [List.forall_mem_map] at hdistinct hnul
  obtain ⟨hiff, hread⟩ := Pipeline.write_iff hfit hdistinct hsink
  refine ⟨hiff.trans hnul, fun w hw => ?_⟩
  obtain ⟨bytes, hbytes, hdecode⟩ := hread w hw
  exact ⟨bytes, hbytes, fun source hcontent hending =>
    ⟨_, hdecode source hcontent hending, rfl, fun k _ _ => Record.same_iff_eq.2 rfl⟩⟩

/-- The totals of the regions with more than one order by an adult, largest first. -/
def adultTotals : Query :=
  ⟨"orders",
    [.filter (.ofMembers [("gte", .array [Query.typed "customer.age" "int32", .int 18])]),
      .group (Query.typed "region" "string")
        (some (.ofMembers [("gt", .array [.ofMembers [("count", .ofMembers [])], .int 1])]))
        ⟨[("region", Query.groupKeyJson), ("total", .ofMembers [("sum", Query.typed "qty" "int32")])]⟩,
      .sort [⟨"total", .descending⟩]]⟩

/-- Whether a node is a number, or no constant at all. -/
def isNumberIfConstant : Expr → Bool
  | .constant _ (.int32 _) => true
  | e => e.kind ≠ .constant

theorem wellFormed_of_isNumberIfConstant {i : NodeInfo} {v : Value} (h : isNumberIfConstant (.constant i v) = true) :
    IsNulFree v ∧ HasDistinctNames v := by
  cases v with
  | int32 => exact ⟨trivial, trivial⟩
  | double | string | document | array | binary | undefined | objectId | boolean | dateTime | null
  | regularExpression | dbPointer | javaScript | symbol | scopedCode | timestamp | int64 | decimal128 | minKey
  | maxKey => cases h

/-- Five stages, in which the paths of the age and of the total are names. -/
theorem write_iff_keyPaths_adultTotals : ∃ root s held c w bytes ds, Build.Held s held ∧ root ∈ held ∧
    (compile {} "" root s).result = .ok c ∧ c.pipeline.operators = ["$match", "$group", "$match", "$project", "$sort"] ∧
    (∀ i v, .constant i v ∈ root.occurrences → IsNulFree v ∧ HasDistinctNames v) ∧
    (∀ d ∈ c.pipeline.documents, depth (.document d) ≤ 100 ∧ (document d).length ≤ 16777216) ∧
    root.keyPaths = ["total", "customer.age"] ∧ c.pipeline.write.run.run (.ofSink {}) = (.ok (), w) ∧
    w.sink.received.toList = bytes ∧ (decodeStream (.ofBytes bytes)).result = .ok ds ∧ ds.length = 5 := by
  obtain ⟨root, s, c, hbuild, hcompile, hcheck⟩ := exists_compiled (x := adultTotals.build)
    (p := fun root c => root.occurrences.all isNumberIfConstant && decide (
      c.pipeline.operators = ["$match", "$group", "$match", "$project", "$sort"] ∧
      root.keyPaths = ["total", "customer.age"] ∧
      ∀ d ∈ c.pipeline.documents, depth (.document d) ≤ 100 ∧ (document d).length ≤ 16777216)) (by decide +kernel)
  obtain ⟨hnumbers, hcheck⟩ := (Bool.and_eq_true _ _).mp hcheck
  obtain ⟨hoperators, hpaths, hfit⟩ := of_decide_eq_true hcheck
  obtain ⟨held, hheld, hroot⟩ := Query.exists_held_of_build hbuild
  have hconstants : ∀ i v, .constant i v ∈ root.occurrences → IsNulFree v ∧ HasDistinctNames v :=
    fun i v hmem => wellFormed_of_isNumberIfConstant (List.all_eq_true.1 hnumbers _ hmem)
  have hsink : ({} : Wire.Sink).refusal = none := rfl
  obtain ⟨hiff, hread⟩ := write_iff_keyPaths hheld hroot hcompile hconstants hfit hsink
  obtain ⟨w, hw⟩ := hiff.2 (by rw [hpaths]; decide)
  obtain ⟨bytes, hbytes, hdecode⟩ := hread w hw
  obtain ⟨hcontent, hending⟩ := Wire.Source.content_ofBytes bytes (by decide : 0 < Wire.Source.readSize) false
  obtain ⟨ds, hds, hlength, -⟩ := hdecode _ hcontent hending
  have hfive : c.pipeline.documents.length = 5 := by
    rw [Pipeline.documents, List.length_map, ← List.length_map (f := Stage.operator)]
    exact congrArg List.length hoperators
  exact ⟨root, s, held, c, w, bytes, ds, hheld, hroot, hcompile, hoperators, hconstants, hfit, hpaths, hw, hbytes, hds,
    hlength.trans hfive⟩

/-- Orders by a path that holds a NUL. -/
def splitPath : Query := ⟨"orders", [.sort [⟨"a\x00b", .ascending⟩]]⟩

/-- A path that holds a NUL can be sorted by, but no writer takes the stage. -/
theorem write_iff_keyPaths_splitPath_ne : ∃ root s held c e w, Build.Held s held ∧ root ∈ held ∧
    (compile {} "" root s).result = .ok c ∧ (∀ i v, .constant i v ∉ root.occurrences) ∧
    (∀ d ∈ c.pipeline.documents, depth (.document d) ≤ 100 ∧ (document d).length ≤ 16777216) ∧
    c.pipeline.write.run.run (.ofSink {}) = (.error e, w) ∧ e.code = "DOCPIPE_BSON_INVALID_NAME" := by
  obtain ⟨root, s, c, hbuild, hcompile, hcheck⟩ := exists_compiled (x := splitPath.build)
    (p := fun root c => (root.occurrences.all fun e => e.kind ≠ .constant) && decide (
      ∀ d ∈ c.pipeline.documents, depth (.document d) ≤ 100 ∧ (document d).length ≤ 16777216) &&
      match c.pipeline.write.run.run (.ofSink {}) with
      | (.error e, _) => e.code == "DOCPIPE_BSON_INVALID_NAME"
      | (.ok _, _) => false) (by decide +kernel)
  obtain ⟨hcheck, hwrite⟩ := (Bool.and_eq_true _ _).mp hcheck
  obtain ⟨hconstants, hfit⟩ := (Bool.and_eq_true _ _).mp hcheck
  obtain ⟨held, hheld, hroot⟩ := Query.exists_held_of_build hbuild
  have hnone : ∀ i v, .constant i v ∉ root.occurrences := by
    intro i v hmem
    exact of_decide_eq_true (List.all_eq_true.1 hconstants _ hmem) rfl
  rcases hrun : c.pipeline.write.run.run (.ofSink {}) with ⟨e | _, w⟩
  · rw [hrun] at hwrite
    exact ⟨root, s, held, c, e, w, hheld, hroot, hcompile, hnone, of_decide_eq_true hfit, hrun, beq_iff_eq.1 hwrite⟩
  · rw [hrun] at hwrite
    cases hwrite

end Aggregation
