import Aggregation.Proofs.Pipeline.Positions
import Aggregation.Proofs.Plan.Soundness

/-!
Where the fields are read that planning puts in the place of accumulators. Planning moves no pipeline, so a pipeline
that read the documents of the group of a scope still does, and the field names an output of that group.
-/

namespace Aggregation

open Aggregation.Expr (isGroupOf)

variable {root e e' c d g inner : Expr} {up : List Expr} {path : List Nat} {scope : Scope} {i : NodeInfo} {k : Nat}

namespace Expr

/-- A path leads through the predicate or the projection of a pipeline that reads documents which the group of a scope
has made: between the two there is no projection and no other group. -/
def DirectAt (e : Expr) (path : List Nat) (scope : Scope) : Prop :=
  ∃ before after d input g, path = before ++ 1 :: after ∧ e.at? before = some d ∧
    (d.kind = .filter ∨ d.kind = .project) ∧ d.children[0]? = some input ∧ input.maker? = some g ∧
    g.isGroupOf scope = true

/-- A pipeline below a node is what the node reads from. -/
theorem eq_zero_of_isPipeline (h : e.Checked) (hext : e.isExtension = false) (hc : e.children[k]? = some c)
    (hp : c.isPipeline = true) : k = 0 ∧ e.isPipeline = true := by
  have hmem : c ∈ e.children := List.mem_of_getElem? hc
  have hno {d : Expr} (hd : d.isPipeline = false) (hcd : c = d) : False := by
    rw [hcd, hd] at hp
    cases hp
  cases hpipeline : e.isPipeline with
  | false => exact (hno (isPipeline_child_eq_false h hext hpipeline hmem) rfl).elim
  | true =>
      refine ⟨?_, rfl⟩
      cases e with
      | constant | field | binary | unary | document | accumulator | correlated | extension => cases hpipeline
      | source => cases hc
      | filter i input scalar | project i input scalar =>
          rcases k with _ | _ | k
          · rfl
          · cases hc
            exact (hno h.2.1 rfl).elim
          · cases hc
      | group i input key scope outputs =>
          rcases k with _ | _ | k
          · rfl
          · cases hc
            exact (hno h.2.1 rfl).elim
          · obtain ⟨f, hf, rfl⟩ := List.mem_map.1 (List.mem_of_getElem? (l := List.map Prod.snd _) hc)
            have hkind : f.2.kind = .accumulator := (h.2.2.2.1 f hf).2.2
            exact (hno (by rw [isPipeline, hkind]; rfl) rfl).elim
      | sort | skip | limit =>
          rcases k with _ | k
          · rfl
          · cases hc

theorem at?_append (e : Expr) (before after : List Nat) :
    e.at? (before ++ after) = (e.at? before).bind (·.at? after) := by
  induction before generalizing e with
  | nil => rfl
  | cons k before ih =>
      rw [List.cons_append, at?, at?, Option.bind_assoc]
      exact congrArg _ (funext ih)

end Expr

namespace Replaced

/-- The documents of a pipeline have been made by the group of a scope if they were before. -/
theorem exists_maker? (h : Replaced root up e e') (hmaker : e.maker? = some g) (hg : g.isGroupOf scope = true) :
    ∃ g', e'.maker? = some g' ∧ g'.isGroupOf scope = true := by
  have hstep {x input : Expr} (hchain : x.chain = x :: input.chain) (hx : x.reshapes = false) :
      x.maker? = input.maker? := by
    rw [Expr.maker?, hchain, List.find?_cons, hx]
    rfl
  induction h with
  | correlated => cases hmaker
  | filter i n _ _ ih =>
      rw [hstep rfl rfl] at hmaker ⊢
      exact ih hmaker
  | project =>
      cases hmaker
      cases hg
  | group i n =>
      cases hmaker
      exact ⟨_, rfl, hg⟩
  | @kept up e hkind n children hlength _ ih =>
      cases e with
      | constant | field | binary | unary | source | document | accumulator | extension => cases hmaker
      | correlated | filter | group | project => exact absurd (by simp [Expr.kind]) hkind
      | sort | skip | limit =>
          obtain ⟨c, rfl⟩ := List.length_eq_one_iff.1 hlength.symm
          rw [hstep rfl rfl] at hmaker
          obtain ⟨g', hg', hscope⟩ := ih List.mem_cons_self hmaker
          exact ⟨g', (hstep rfl rfl).trans hg', hscope⟩

/-- A pipeline stands where it stood, below nothing but pipelines that read from it. -/
theorem pipeline_at? (hw : e.WellFormed) (hn : e.Native) (h : Replaced root up e e') (hat : e.at? path = some d)
    (hp : d.isPipeline = true) :
    path = List.replicate path.length 0 ∧ ∃ up' d', e'.at? path = some d' ∧ Replaced root up' d d' := by
  induction path generalizing e e' up with
  | nil =>
      cases hat
      exact ⟨rfl, up, e', rfl, h⟩
  | cons k path ih =>
      obtain ⟨c, hc, hbelow⟩ := Option.bind_eq_some_iff.1 hat
      have hmem : c ∈ e.children := List.mem_of_getElem? hc
      have hcp : c.isPipeline = true := by
        by_contra hscalar
        rw [Expr.isPipeline_eq_false_of_mem (hw.child hmem) (hn.child hmem) (Bool.eq_false_iff.2 hscalar)
          (Expr.mem_occurrences_of_at? hbelow)] at hp
        cases hp
      obtain ⟨rfl, hpipeline⟩ := Expr.eq_zero_of_isPipeline hw.checked (Expr.native_iff.1 hn).1 hc hcp
      have hchild {c' : Expr} {up' : List Expr} (hc' : e'.children[0]? = some c') (hr : Replaced root up' c c') :
          0 :: path = List.replicate (0 :: path).length 0 ∧
            ∃ up' d', e'.at? (0 :: path) = some d' ∧ Replaced root up' d d' := by
        obtain ⟨hzeros, up'', d', hat', hd'⟩ := ih (hw.child hmem) (hn.child hmem) hr hbelow
        exact ⟨congrArg (0 :: ·) hzeros, up'', d', by rw [Expr.at?, hc']; exact hat', hd'⟩
      cases h with
      | correlated => cases hpipeline
      | filter i n hinput | project i n hinput | group i n hinput =>
          cases hc
          exact hchild rfl hinput
      | @kept _ _ hkind n children hlength hall =>
          obtain ⟨c', hc', hzip⟩ := exists_getElem?_zip hlength hc
          exact hchild (by rw [Expr.children_withChildren hlength.symm, hc']) (hall hzip)

/-- Where a scalar had an accumulator that is tied to a scope, it has the field of an output of the group of the
scope. -/
theorem scalar_at? (hw : e.WellFormed) (hn : e.Native) (hscalar : e.isPipeline = false) (h : Replaced root up e e')
    (hat : e.at? path = some (.correlated i scope inner)) :
    ∃ n, ∃ g ∈ up, g.isGroupOf scope = true ∧ ∃ f ∈ g.outputs, f.2.sameStructure inner = true ∧
      e'.at? path = some (.field ⟨n, i.type⟩ f.1) := by
  induction path generalizing e e' with
  | nil =>
      cases hat
      cases h with
      | kept hkind => exact absurd (by simp [Expr.kind]) hkind
      | correlated _ n hg hscope hf hsame => exact ⟨n, _, hg, hscope, _, hf, hsame, rfl⟩
  | cons k path ih =>
      obtain ⟨c, hc, hbelow⟩ := Option.bind_eq_some_iff.1 hat
      have hmem : c ∈ e.children := List.mem_of_getElem? hc
      cases h with
      | correlated =>
          cases List.mem_singleton.1 hmem
          exact absurd (.inl rfl)
            (not_mem_accumulator (hw.child hmem) (hn.child hmem) hw.checked.1 (Expr.mem_occurrences_of_at? hbelow))
      | filter | group | project => cases hscalar
      | @kept _ _ hkind n children hlength hall =>
          obtain ⟨c', hc', hzip⟩ := exists_getElem?_zip hlength hc
          obtain ⟨n', g, hg, hscope, f, hf, hsame, hat'⟩ := ih (hw.child hmem) (hn.child hmem)
            (Expr.isPipeline_child_eq_false hw.checked (Expr.native_iff.1 hn).1 hscalar hmem) (hall hzip) hbelow
          refine ⟨n', g, hg, hscope, f, hf, hsame, ?_⟩
          rw [Expr.at?, Expr.children_withChildren hlength.symm, hc']
          exact hat'

/-- What a match or a projection becomes. -/
theorem exists_reads {scalar : Expr} (hw : d.WellFormed) (h : Replaced root up d e')
    (hkind : d.kind = .filter ∨ d.kind = .project) (hinput : d.children[0]? = some c)
    (hscalar : d.children[1]? = some scalar) :
    ∃ input' scalar', e'.children = [input', scalar'] ∧ (e'.kind = .filter ∨ e'.kind = .project) ∧
      Replaced root [] c input' ∧ Replaced root input'.chain scalar scalar' ∧ scalar.isPipeline = false := by
  have hchecked := hw.checked
  cases h with
  | correlated | group => exact absurd hkind (by simp [Expr.kind])
  | filter i n hri hrs =>
      cases hinput
      cases hscalar
      exact ⟨_, _, rfl, .inl rfl, hri, hrs, hchecked.2.1⟩
  | project i n hri hrs =>
      cases hinput
      cases hscalar
      exact ⟨_, _, rfl, .inr rfl, hri, hrs, hchecked.2.1⟩
  | kept hkept =>
      rcases hkind with hkind | hkind <;> exact absurd (by simp [hkind]) hkept

/-- In the predicate or the projection of a pipeline that reads documents of the group of a scope, an accumulator that
is tied to the scope becomes the field of an output of the group which has made the documents that are read. -/
theorem exists_reader (hw : root.WellFormed) (hn : root.Native) (h : Replaced root [] root e')
    (hone : e'.occurrences.countP (isGroupOf scope) ≤ 1) (hdirect : root.DirectAt path scope)
    (hat : root.at? path = some (.correlated i scope inner)) :
    ∃ m after reader input g f n, path = List.replicate m 0 ++ 1 :: after ∧
      e'.at? (List.replicate m 0) = some reader ∧ (reader.kind = .filter ∨ reader.kind = .project) ∧
      reader.children[0]? = some input ∧ e'.at? path = some (.field ⟨n, i.type⟩ f.1) ∧ input.maker? = some g ∧
      g.isGroupOf scope = true ∧ f ∈ g.outputs ∧ f.2.sameStructure inner = true := by
  obtain ⟨before, after, d, input, g, rfl, hd, hkind, hinput, hmaker, hscope⟩ := hdirect
  have hpipeline : d.isPipeline = true := by
    rcases hkind with hkind | hkind <;> rw [Expr.isPipeline, hkind] <;> rfl
  obtain ⟨hzeros, up, reader, hreader, hturned⟩ := h.pipeline_at? hw hn hd hpipeline
  have hmem := Expr.mem_occurrences_of_at? hd
  have hwd : d.WellFormed := fun x hx => hw x (Expr.mem_occurrences_trans hmem hx)
  have hnd : d.Native := fun x hx => hn x (Expr.mem_occurrences_trans hmem hx)
  rw [Expr.at?_append, hd] at hat
  replace hat : d.at? (1 :: after) = some (.correlated i scope inner) := hat
  obtain ⟨scalar, hscalar, hbelow⟩ := Option.bind_eq_some_iff.1 hat
  obtain ⟨input', scalar', hchildren, hkind', hri, hrs, hsc⟩ := hturned.exists_reads hwd hkind hinput hscalar
  obtain ⟨g', hg', hscope'⟩ := hri.exists_maker? hmaker hscope
  have hchild : scalar ∈ d.children := List.mem_of_getElem? hscalar
  obtain ⟨n, g'', hg'', hscope'', f, hf, hsame, hfield⟩ :=
    hrs.scalar_at? (hwd.child hchild) (hnd.child hchild) hsc hbelow
  -- the scope has one group only, so the one that is read is the one that has made the documents
  have hplanned : ∀ x ∈ input'.chain, x ∈ e'.occurrences := fun x hx =>
    Expr.mem_occurrences_trans (Expr.mem_occurrences_of_at? hreader)
      (Expr.mem_occurrences_of_child (by simp [hchildren]) (Expr.mem_occurrences_of_mem_chain hx))
  cases eq_of_countP_le_one hone (hplanned g'' hg'') (hplanned g' (List.mem_of_find?_eq_some hg')) hscope'' hscope'
  refine ⟨before.length, after, reader, input', g', f, n, by rw [← hzeros], by rw [← hzeros, hreader], hkind',
    by rw [hchildren]; rfl, ?_, hg', hscope'', hf, hsame⟩
  rw [Expr.at?_append, hreader]
  show (reader.children[1]?).bind _ = _
  rw [hchildren]
  exact hfield

end Replaced

end Aggregation
