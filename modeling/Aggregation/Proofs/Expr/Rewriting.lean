import Aggregation.Proofs.Expr.Equality
import Aggregation.Proofs.Expr.Failures
import Aggregation.Proofs.Expr.Sessions

/-!
The laws of putting a node over other children. A node is its serial, its type, its payload and its children, and the
rules that it obeys do not go by its serial. So a node that has been put over other children can be put over further
ones exactly if the first node can, and both ways lead to the same.
-/

namespace Aggregation

namespace Expr

variable {d e e' : Expr} {children : List Expr} {i : NodeInfo} {s t : Supply}

/-- Named children are told by the names and the children. -/
theorem entries_ext {xs ys : List (String × Expr)} (hnames : xs.map Prod.fst = ys.map Prod.fst)
    (hchildren : xs.map Prod.snd = ys.map Prod.snd) : xs = ys := by
  rw [← zip_map_fst_map_snd xs, hnames, hchildren, zip_map_fst_map_snd]

/-- A node is told by its serial and type, its payload and its children. -/
theorem eq_of_payload_eq (hinfo : d.info = e.info) (hpayload : d.payload = e.payload)
    (hchildren : d.children = e.children) : d = e := by
  have hkind : d.kind = e.kind := by rw [← kind_payload, hpayload, kind_payload]
  cases d with
  | constant | field | source =>
      cases e <;> cases hkind
      cases hinfo
      cases hpayload
      rfl
  | binary | unary | correlated | filter | project | sort | skip | limit | extension =>
      cases e <;> cases hkind
      cases hinfo
      cases hpayload
      cases hchildren
      rfl
  | document i fields =>
      cases e <;> cases hkind
      cases hinfo
      rw [entries_ext (Payload.document.inj hpayload) hchildren]
  | accumulator i op operand =>
      rcases e with _ | _ | _ | _ | _ | ⟨_, _, operand'⟩ <;> cases hkind
      cases hinfo
      cases hpayload
      cases operand <;> cases operand' <;> cases hchildren <;> rfl
  | group i input key scope outputs =>
      cases e <;> cases hkind
      cases hinfo
      obtain ⟨rfl, hnames⟩ := Payload.group.inj hpayload
      obtain ⟨rfl, hrest⟩ := List.cons.inj hchildren
      obtain ⟨rfl, houtputs⟩ := List.cons.inj hrest
      rw [entries_ext hnames houtputs]

theorem payload_withChildren (h : children.length = e.children.length) :
    (e.withChildren i children).payload = e.payload := by
  have hfst {entries : List (String × Expr)} {rest : List Expr} (h : rest.length = (entries.map Prod.snd).length) :
      ((entries.map Prod.fst).zip rest).map Prod.fst = entries.map Prod.fst := by
    rw [List.length_map] at h
    exact List.map_fst_zip (Nat.le_of_eq (by rw [List.length_map, h]))
  cases e with
  | constant | field | accumulator | source | extension => rfl
  | binary | filter | project =>
      obtain ⟨c, d, rfl⟩ := List.length_eq_two.1 h
      rfl
  | unary | correlated | sort | skip | limit =>
      obtain ⟨c, rfl⟩ := List.length_eq_one_iff.1 h
      rfl
  | document => exact congrArg Payload.document (hfst h)
  | group i input key scope =>
      match children, h with
      | _ :: _ :: _, h => exact congrArg (Payload.group scope) (hfst (Nat.succ.inj (Nat.succ.inj h)))

/-- The rules of a node do not go by its serial. -/
theorem checked_withChildren_self (n : Nat) : (e.withChildren ⟨n, e.type⟩ e.children).Checked ↔ e.Checked := by
  cases e with
  | document i fields =>
      rw [children, withChildren, zip_map_fst_map_snd]
      rfl
  | group i input key scope outputs =>
      rw [children, withChildren, zip_map_fst_map_snd]
      rfl
  | accumulator i op operand => cases operand <;> rfl
  | constant | field | binary | unary | correlated | source | filter | project | sort | skip | limit | extension => rfl

theorem checked_congr (htype : d.type = e.type) (hpayload : d.payload = e.payload)
    (hchildren : d.children = e.children) : d.Checked ↔ e.Checked := by
  have hd : d = e.withChildren ⟨d.serial, e.type⟩ e.children := by
    apply eq_of_payload_eq
    · rw [info_withChildren rfl, ← htype]
      rfl
    · rw [payload_withChildren rfl, hpayload]
    · rw [children_withChildren rfl, hchildren]
  rw [hd, checked_withChildren_self]

/-- Children are those of a node if each is the node in its place. -/
theorem isOver_iff_forall₂ (h : children.length = e.children.length) :
    e.isOver children = true ↔ List.Forall₂ (fun c d => c.isNode d = true) e.children children := by
  rw [List.forall₂_iff_zip, and_iff_right h.symm, isOver, List.all_eq_true]
  exact ⟨fun hall c d hmem => hall (c, d) hmem, fun hall p hp => hall hp⟩

theorem rebuild_neverFatal (e : Expr) (children : List Expr) : Build.NeverFatal (e.rebuild children) := by
  unfold rebuild
  split
  · exact Build.binary_neverFatal _ _ _
  · exact Build.unary_neverFatal _ _
  · exact Build.document_neverFatal _
  · exact Build.accumulator_neverFatal _ _
  · exact Build.correlated_neverFatal _ _
  · exact Build.filter_neverFatal _ _
  · exact Build.group_neverFatal _ _ _ _
  · exact Build.project_neverFatal _ _
  · exact Build.sort_neverFatal _ _
  · exact Build.skip_neverFatal _ _
  · exact Build.limit_neverFatal _ _
  · exact Build.extension_neverFatal _ _
  · exact Build.neverFatal_pure _

/-- An update complains of the number of children exactly if it is another one. -/
theorem update_run_eq_childCount_iff {kind : NodeKind} {expected actual : Nat} :
    (e.update children).run s = .error (.childCount kind expected actual) ↔
      e.children.length ≠ children.length ∧ kind = e.kind ∧ expected = e.children.length ∧
        actual = children.length := by
  unfold update
  dsimp only
  by_cases hlength : e.children.length = children.length
  · rw [if_neg (not_not.2 hlength)]
    refine iff_of_false (fun herr => ?_) fun h => h.1 hlength
    split at herr
    · cases herr
    · rcases Build.run_bind_eq_error.1 herr with hrebuild | ⟨rebuilt, s', -, hrest⟩
      · have hfatal := rebuild_neverFatal e children s _ hrebuild
        cases hfatal
      · split at hrest
        · cases hrest
        · cases hrest
  · rw [if_pos hlength, and_iff_right hlength]
    constructor
    · intro herr
      cases herr
      exact ⟨rfl, rfl, rfl⟩
    · rintro ⟨rfl, rfl, rfl⟩
      rfl

section Apart

variable {n : Nat} {held a b : List Expr} {u v : Supply} (hfresh : Fresh 0 n held)

include hfresh

/-- Where serials tell nodes apart, a node is over no other list of children. -/
theorem isOver_iff (he : ∀ c ∈ e.children, c ∈ held) (hc : ∀ c ∈ children, c ∈ held)
    (h : children.length = e.children.length) : e.isOver children = true ↔ children = e.children := by
  rw [isOver_iff_forall₂ h]
  constructor
  · intro hall
    have hsame := (List.forall₂_and_left ..).2 ⟨he, hall⟩
    have heq : List.Forall₂ (· = ·) e.children children := by
      refine List.forall₂_iff_zip.2 ⟨h.symm, fun {c d} hmem => ?_⟩
      obtain ⟨hheld, hnode⟩ := List.forall₂_zip hsame hmem
      exact hfresh.eq_of_serial c hheld d (hc d (List.of_mem_zip hmem).2) (beq_iff_eq.1 hnode)
    rw [List.forall₂_eq_eq_eq] at heq
    exact heq.symm
  · rintro rfl
    exact List.forall₂_same.2 fun c _ => beq_self_eq_true c.serial

/-- A node can be put over children if it obeys its rules over them. -/
theorem exists_update_iff (hchecked : e.Checked) (he : ∀ c ∈ e.children, c ∈ held)
    (hc : ∀ c ∈ children, c ∈ held) : (∃ e' t, (e.update children).run s = .ok (e', t)) ↔
      children.length = e.children.length ∧ (e.withChildren e.info children).Checked := by
  simp only [update_run_iff, exists_and_left]
  refine and_congr_right fun hlength => ?_
  have hserial : (e.withChildren ⟨s.nextNode, e.type⟩ children).Checked ↔
      (e.withChildren e.info children).Checked := by
    apply checked_congr
    · exact (type_withChildren hlength).trans (type_withChildren (i := e.info) hlength).symm
    · rw [payload_withChildren hlength, payload_withChildren hlength]
    · rw [children_withChildren hlength, children_withChildren hlength]
  split_ifs with hown
  · rw [(isOver_iff hfresh he hc hlength).1 hown, withChildren_children]
    exact iff_of_true ⟨e, s, rfl, rfl⟩ hchecked
  · rw [← hserial]
    constructor
    · rintro ⟨e', t, rfl, h, -⟩
      exact h
    · intro h
      exact ⟨_, s.next, rfl, h, rfl⟩

/-- What an update gives is over the given children, and like the node in everything else. -/
theorem of_update_eq_ok (hchecked : e.Checked) (he : ∀ c ∈ e.children, c ∈ held) (hc : ∀ c ∈ children, c ∈ held)
    (h : (e.update children).run s = .ok (e', t)) :
    e'.Checked ∧ e'.children = children ∧ e'.type = e.type ∧ e'.payload = e.payload := by
  obtain ⟨hlength, hrun⟩ := update_run_iff.1 h
  split_ifs at hrun with hown
  · obtain ⟨rfl, -⟩ := hrun
    exact ⟨hchecked, ((isOver_iff hfresh he hc hlength).1 hown).symm, rfl, rfl⟩
  · obtain ⟨rfl, hchecked', -⟩ := hrun
    exact ⟨hchecked', children_withChildren hlength, type_withChildren hlength, payload_withChildren hlength⟩

/-- Once a node has been put over other children, it can be put over further ones exactly if it could be at first. -/
theorem exists_update_update_iff (hchecked : e.Checked) (he : ∀ c ∈ e.children, c ∈ held) (ha : ∀ c ∈ a, c ∈ held)
    (hb : ∀ c ∈ b, c ∈ held) (h : (e.update a).run s = .ok (e', t)) :
    (∃ d u', (e'.update b).run u = .ok (d, u')) ↔ ∃ d v', (e.update b).run v = .ok (d, v') := by
  obtain ⟨hchecked', hchildren, htype, hpayload⟩ := of_update_eq_ok hfresh hchecked he ha h
  have hlengths : a.length = e.children.length := (update_run_iff.1 h).1
  rw [exists_update_iff hfresh hchecked' (hchildren ▸ ha) hb, exists_update_iff hfresh hchecked he hb, hchildren,
    hlengths]
  refine and_congr_right fun hlength => ?_
  have hlength' : b.length = e'.children.length := by rw [hchildren, hlengths, hlength]
  apply checked_congr
  · exact (type_withChildren hlength').trans (htype.trans (type_withChildren (i := e.info) hlength).symm)
  · rw [payload_withChildren hlength', payload_withChildren hlength, hpayload]
  · rw [children_withChildren hlength', children_withChildren hlength]

end Apart

end Expr

namespace Build

open Aggregation.Expr (Payload)

variable {s : Supply} {held a b : List Expr} {n : Expr}

/-- The laws of an update. It complains of the number of children exactly if that is another one; over the children that
it has a node stays itself; what it gives is over the given children, in order, and like the node in its type and its
payload; and whether children are put over the node or over what has become of it, the outcome is of one structure. -/
theorem Held.update_laws (hheld : Held s held) (hn : n ∈ held) (ha : ∀ c ∈ a, c ∈ held) (hb : ∀ c ∈ b, c ∈ held)
    (u : Supply) :
    (∀ kind expected actual, (n.update a).run u = .error (.childCount kind expected actual) ↔
      n.children.length ≠ a.length ∧ kind = n.kind ∧ expected = n.children.length ∧ actual = a.length) ∧
    (List.Forall₂ (fun c d => c.isNode d = true) n.children a → (n.update a).run u = .ok (n, u)) ∧
    ∀ m t, (n.update a).run u = .ok (m, t) →
      m.children = a ∧ m.type = n.type ∧ m.payload = n.payload ∧
      (∀ v w, (∃ m' v', (m.update b).run v = .ok (m', v')) ↔ ∃ n' w', (n.update b).run w = .ok (n', w')) ∧
      ∀ v w m' n' v' w', (m.update b).run v = .ok (m', v') → (n.update b).run w = .ok (n', w') →
        m'.sameStructure n' = true := by
  have hfresh := hheld.sound.fresh
  have hchecked := hheld.sound.checked n hn
  have hown := hheld.sound.children n hn
  refine ⟨fun _ _ _ => Expr.update_run_eq_childCount_iff, fun hsame => ?_, fun m t hm => ?_⟩
  · have hlength : a.length = n.children.length := hsame.length_eq.symm
    rw [Expr.update_run_iff, and_iff_right hlength, if_pos ((Expr.isOver_iff_forall₂ hlength).2 hsame)]
    exact ⟨rfl, rfl⟩
  · obtain ⟨hcheckedm, hchildren, htype, hpayload⟩ := Expr.of_update_eq_ok hfresh hchecked hown ha hm
    refine ⟨hchildren, htype, hpayload, fun v w => ?_, fun v w m' n' v' w' hm' hn' => ?_⟩
    · exact Expr.exists_update_update_iff hfresh hchecked hown ha hb hm
    · obtain ⟨-, hchildrenm, htypem, hpayloadm⟩ := Expr.of_update_eq_ok hfresh hcheckedm (hchildren ▸ ha) hb hm'
      obtain ⟨-, hchildrenn, htypen, hpayloadn⟩ := Expr.of_update_eq_ok hfresh hchecked hown hb hn'
      refine Expr.sameStructure_iff.2 ⟨?_, ?_, ?_⟩
      · rw [htypem, htype, htypen]
      · rw [hpayloadm, hpayload, hpayloadn]
      · rw [hchildrenm, hchildrenn]
        exact List.forall₂_same.2 fun c _ => c.sameStructure_self

/-- A document of a constant and a field, put over the two in the other order and from there over the constant twice,
which a document takes at once too. It is not put over one child. -/
theorem Held.update_laws_document :
    let one : Expr := .constant ⟨0, .int32⟩ (.int32 1)
    let field : Expr := .field ⟨1, .any⟩ "a"
    let pair : Expr := .document ⟨2, .document⟩ [("x", one), ("y", field)]
    Held ⟨3, 1⟩ [pair, field, one] ∧ (pair.update [one, field]).run ⟨3, 1⟩ = .ok (pair, ⟨3, 1⟩) ∧
      (pair.update [one]).run ⟨3, 1⟩ = .error (.childCount .document 2 1) ∧
      ∃ swapped m n t u v, (pair.update [field, one]).run ⟨3, 1⟩ = .ok (swapped, t) ∧
        swapped.children = [field, one] ∧ swapped.payload = .document ["x", "y"] ∧
        (swapped.update [one, one]).run t = .ok (m, u) ∧ (pair.update [one, one]).run t = .ok (n, v) ∧
        m.sameStructure n = true := by
  intro one field pair
  have hheld : Held ⟨3, 1⟩ [pair, field, one] := by
    apply Held.node (x := Build.document [("x", one), ("y", field)]) (s := ⟨2, 1⟩)
    · apply Held.node (x := Build.field "a" .any) (s := ⟨1, 1⟩)
      · exact .node (.nothing ⟨0, 1⟩) (.constant (.int32 1)) rfl
      · exact .field "a" .any
      · rfl
    · exact .document (by simp [one, field])
    · rfl
  have hpair : pair ∈ [pair, field, one] := List.mem_cons_self
  have hown : ∀ c ∈ [one, field], c ∈ [pair, field, one] := by simp
  have hswap : ∀ c ∈ [field, one], c ∈ [pair, field, one] := by simp
  have htwice : ∀ c ∈ [one, one], c ∈ [pair, field, one] := by simp
  have hone : ∀ c ∈ [one], c ∈ [pair, field, one] := by simp
  have hkept := (hheld.update_laws hpair hown htwice ⟨3, 1⟩).2.1
  have hfew := (hheld.update_laws hpair hone htwice ⟨3, 1⟩).1 .document 2 1
  have hrun (c d : Expr) (u : Supply) (hover : ¬pair.isOver [c, d] = true) (hc : c.isPipeline = false)
      (hd : d.isPipeline = false) : (pair.update [c, d]).run u =
        .ok (.document ⟨u.nextNode, .document⟩ [("x", c), ("y", d)], u.next) := by
    refine Expr.update_run_iff.2 ⟨rfl, ?_⟩
    rw [if_neg hover]
    refine ⟨rfl, ⟨fun f hf => ?_, show ["x", "y"].Nodup by decide, rfl⟩, rfl⟩
    rcases List.mem_pair.1 hf with rfl | rfl
    · exact ⟨show isOutputName "x" = true by decide, hc⟩
    · exact ⟨show isOutputName "y" = true by decide, hd⟩
  have hswapped := hrun field one ⟨3, 1⟩ (by decide) rfl rfl
  obtain ⟨hchildren, -, hpayload, hagain, hsame⟩ :=
    (hheld.update_laws hpair hswap htwice ⟨3, 1⟩).2.2 _ _ hswapped
  have hn := hrun one one ⟨4, 1⟩ (by decide) rfl rfl
  obtain ⟨m, u, hm⟩ := (hagain ⟨4, 1⟩ ⟨4, 1⟩).2 ⟨_, _, hn⟩
  refine ⟨hheld, hkept (.cons rfl (.cons rfl .nil)), hfew.2 ⟨by decide, rfl, rfl, rfl⟩, _, m, _, _, u, _, hswapped,
    hchildren, hpayload, hm, hn, hsame _ _ _ _ _ _ hm hn⟩

end Build

end Aggregation
