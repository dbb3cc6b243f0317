import Mathlib.Data.List.Flatten
import TypeErasure.Proofs.Selector.Chains
import TypeErasure.Proofs.Syntax.Rooted
import TypeErasure.Syntax.Functions

/-! # Functions at the top level

The functions of a file are the function declarations that stand right below the root or right below
an export that stands there. Two selectors of kinds ask for the same, so the listing, which goes
through two levels of children, has the nodes that they find, in the order of the tree.
-/
namespace TypeErasure

/-- Nodes of these kinds, each the child of the one before it. -/
def Selector.ofKinds (first : Kind) (rest : List Kind) : Selector where
  first := ⟨some first, []⟩
  rest := rest.map fun kind => (.child, ⟨some kind, []⟩)

namespace Selector

variable {t : Tree} {first : Kind} {rest : List Kind} {id : NodeId}

theorem describes_kind_iff {kind : Kind} :
    (∃ n, t.node? id = some n ∧ Compound.Describes ⟨some kind, []⟩ n) ↔ t.kind? id = some kind := by
  rw [Tree.kind?, Option.map_eq_some_iff]
  constructor
  · rintro ⟨n, hn, hdescribes⟩
    exact ⟨n, hn, hdescribes.kind kind rfl⟩
  · rintro ⟨n, hn, rfl⟩
    exact ⟨n, hn, fun k hk => Option.some.inj hk, nofun⟩

theorem ends_ofKinds_zero : (ofKinds first rest).Ends t 0 id ↔ t.kind? id = some first :=
  describes_kind_iff

/-- A chain of kinds is one shorter above the parent of its last node. -/
theorem ends_ofKinds_succ {i : Nat} {kind : Kind} (hkind : rest[i]? = some kind) :
    (ofKinds first rest).Ends t (i + 1) id ↔
      t.kind? id = some kind ∧ ∃ p, t.parent? id = some p ∧ (ofKinds first rest).Ends t i p := by
  have hrest : (ofKinds first rest).rest[i]? = some (.child, ⟨some kind, []⟩) := by
    simp [ofKinds, hkind]
  rw [← describes_kind_iff]
  constructor
  · rintro ⟨k, c, n, p, hk, hn, hc, hp, hends⟩
    obtain ⟨rfl, rfl⟩ := Prod.mk.inj (Option.some.inj (hk.symm.trans hrest))
    exact ⟨⟨n, hn, hc⟩, p, hp, hends⟩
  · rintro ⟨⟨n, hn, hc⟩, p, hp, hends⟩
    exact ⟨.child, _, n, p, hrest, hn, hc, hp, hends⟩

theorem Ends.lt_size {s : Selector} {i : Nat} (h : s.Ends t i id) : id < t.size := by
  cases i with
  | zero =>
    obtain ⟨n, hn, -⟩ := h
    exact (Array.getElem?_eq_some_iff.mp hn).1
  | succ i =>
    obtain ⟨k, c, n, m, -, hn, -⟩ := h
    exact (Array.getElem?_eq_some_iff.mp hn).1

theorem mem_matchesIn_ofKinds {r : Rose Entry} (h : t.Holds r) :
    id ∈ (ofKinds first rest).matchesIn t ↔ (ofKinds first rest).Ends t rest.length id := by
  have hlen : (ofKinds first rest).rest.length = rest.length := List.length_map ..
  rw [mem_matchesIn_iff h, hlen, h.mem_preOrder]
  exact and_iff_right_of_imp Ends.lt_size

theorem mem_child_iff {r : Rose Entry} (h : t.Holds r) {parent kind : Kind} :
    id ∈ (ofKinds parent [kind]).matchesIn t ↔
      t.kind? id = some kind ∧ ∃ p, t.parent? id = some p ∧ t.kind? p = some parent := by
  rw [mem_matchesIn_ofKinds h, List.length_singleton, ends_ofKinds_succ rfl]
  simp only [ends_ofKinds_zero]

theorem mem_grandchild_iff {r : Rose Entry} (h : t.Holds r) {top parent kind : Kind} :
    id ∈ (ofKinds top [parent, kind]).matchesIn t ↔
      t.kind? id = some kind ∧ ∃ p, t.parent? id = some p ∧
        t.kind? p = some parent ∧ ∃ q, t.parent? p = some q ∧ t.kind? q = some top := by
  rw [mem_matchesIn_ofKinds h, List.length_cons, List.length_singleton, ends_ofKinds_succ rfl]
  refine and_congr_right' (exists_congr fun p => and_congr_right' ?_)
  rw [ends_ofKinds_succ rfl]
  simp only [ends_ofKinds_zero]

end Selector

namespace Tree

variable {t : Tree} {r : Rose Entry} {id : NodeId}

/-- A function of a file stands below the root, or below an export that does. -/
theorem Holds.mem_topLevelFunctions_iff (h : t.Holds r) :
    id ∈ t.topLevelFunctions.map FunctionInfo.id ↔
      t.kind? id = some .functionDeclaration ∧ (t.parent? id = some t.root ∨
        ∃ p, t.parent? id = some p ∧ t.kind? p = some .exportDeclaration ∧
          t.parent? p = some t.root) := by
  simp only [topLevelFunctions, List.map_map, List.mem_map, List.mem_filter, List.mem_flatMap,
    Function.comp_apply, exists_eq_right, decide_eq_true_iff, h.mem_children_iff]
  rw [and_comm]
  refine and_congr_right fun hfunction => ⟨?_, ?_⟩
  · rintro ⟨c, hc, hid⟩
    unfold exported at hid
    split at hid
    · next hexport => exact .inr ⟨c, h.mem_children_iff.mp hid, hexport, hc⟩
    · rw [List.mem_singleton.mp hid]
      exact .inl hc
  · rintro (hroot | ⟨p, hp, hexport, hroot⟩)
    · refine ⟨id, hroot, ?_⟩
      have hplain : t.kind? id ≠ some .exportDeclaration := by simp [hfunction]
      simp [exported, hplain]
    · refine ⟨p, hroot, ?_⟩
      rw [exported, if_pos hexport]
      exact h.mem_children_iff.mpr hp

theorem exported_sublist {parent : Option NodeId} {c : Rose Entry} (h : Stored t.nodes parent c) :
    (t.exported c.id).Sublist c.ids := by
  unfold exported
  split
  · rw [children_of_stored h]
    cases c with
    | node e cs =>
      rw [Rose.ids_node]
      exact (Rose.tops_sublist cs).cons _
  · exact List.singleton_sublist.mpr c.id_mem_ids

/-- The listing goes down two levels at most, and so it keeps the order of the tree. -/
theorem Holds.topLevelFunctions_sublist (h : t.Holds r) :
    (t.topLevelFunctions.map FunctionInfo.id).Sublist (t.preOrder t.root) := by
  have hids : t.topLevelFunctions.map FunctionInfo.id =
      ((t.children t.root).flatMap t.exported).filter (t.kind? · = some .functionDeclaration) := by
    rw [topLevelFunctions, List.map_map]
    exact List.map_id _
  rw [hids, h.preOrder_eq, ← h.root, children_of_stored h.stored, List.flatMap_map]
  refine List.filter_sublist.trans ?_
  have hbelow := h.stored
  cases r with
  | node e cs =>
    rw [Rose.ids_node]
    refine (List.Sublist.flatMap_right cs fun c hc => ?_).cons _
    exact exported_sublist (hbelow.child hc)

/-- In a file, the functions at the top level are those that two queries find together, in the order
of the tree and each of them once, and they are listed with their names. -/
theorem Produced.topLevelFunctions_queried (h : t.Produced)
    (hfile : ∀ id, t.kind? id = some .sourceFile ↔ id = t.root) :
    ∃ plain exported, t.query "SourceFile > FunctionDeclaration" = .ok plain ∧
      t.query "SourceFile > ExportDeclaration > FunctionDeclaration" = .ok exported ∧
      (∀ id, id ∈ t.topLevelFunctions.map FunctionInfo.id ↔ id ∈ plain ∨ id ∈ exported) ∧
      (t.topLevelFunctions.map FunctionInfo.id).Sublist (t.preOrder t.root) ∧
      (t.topLevelFunctions.map FunctionInfo.id).Nodup ∧
      ∀ f ∈ t.topLevelFunctions, ∃ n, t.node? f.id = some n ∧ f.name = n.name? := by
  obtain ⟨r, hr⟩ := h.holds
  have hquery : ∀ {text : String} {s : Selector}, Selector.parse text = .ok s →
      t.query text = .ok (s.matchesIn t) := by
    intro text s hs
    rw [query, hs]
    rfl
  have hplain : Selector.parse "SourceFile > FunctionDeclaration" =
      .ok (.ofKinds .sourceFile [.functionDeclaration]) := by decide +kernel
  have hexported : Selector.parse "SourceFile > ExportDeclaration > FunctionDeclaration" =
      .ok (.ofKinds .sourceFile [.exportDeclaration, .functionDeclaration]) := by decide +kernel
  refine ⟨_, _, hquery hplain, hquery hexported, fun id => ?_, hr.topLevelFunctions_sublist,
    hr.topLevelFunctions_sublist.nodup hr.nodup_preOrder, fun f hf => ?_⟩
  · rw [hr.mem_topLevelFunctions_iff, Selector.mem_child_iff hr, Selector.mem_grandchild_iff hr,
      ← and_or_left]
    simp only [hfile, exists_eq_right]
  · have hid : f.id ∈ t.topLevelFunctions.map FunctionInfo.id := List.mem_map_of_mem hf
    have hfunction := (hr.mem_topLevelFunctions_iff.mp hid).1
    obtain ⟨n, hn, -⟩ := Option.map_eq_some_iff.mp hfunction
    obtain ⟨id, -, rfl⟩ := List.mem_map.mp hf
    refine ⟨n, hn, ?_⟩
    change t.name? id = n.name?
    rw [name?, hn, Option.bind_some]

/-- A function with another inside, an export of a function without a name and of one with a name,
and an export inside an export. -/
def exportingFile : Tree where
  nodes := #[
    ⟨.sourceFile, ⟨0, 90⟩, none, #[1, 3, 6], .empty⟩,
    ⟨.functionDeclaration, ⟨0, 30⟩, some 0, #[2], .named (some "outer")⟩,
    ⟨.functionDeclaration, ⟨10, 20⟩, some 1, #[], .named (some "inner")⟩,
    ⟨.exportDeclaration, ⟨30, 60⟩, some 0, #[4, 5], .empty⟩,
    ⟨.functionDeclaration, ⟨30, 40⟩, some 3, #[], .named none⟩,
    ⟨.functionDeclaration, ⟨40, 60⟩, some 3, #[], .named (some "run")⟩,
    ⟨.exportDeclaration, ⟨60, 90⟩, some 0, #[7], .empty⟩,
    ⟨.exportDeclaration, ⟨60, 90⟩, some 6, #[8], .empty⟩,
    ⟨.functionDeclaration, ⟨70, 90⟩, some 7, #[], .named (some "deep")⟩]
  root := 0

theorem produced_exportingFile : exportingFile.Produced :=
  .of_calls
    [.start .sourceFile ⟨0, 90⟩ .empty,
      .start .functionDeclaration ⟨0, 30⟩ (.named (some "outer")),
      .leaf .functionDeclaration ⟨10, 20⟩ (.named (some "inner")), .finishNode,
      .start .exportDeclaration ⟨30, 60⟩ .empty, .leaf .functionDeclaration ⟨30, 40⟩ (.named none),
      .leaf .functionDeclaration ⟨40, 60⟩ (.named (some "run")), .finishNode,
      .start .exportDeclaration ⟨60, 90⟩ .empty, .start .exportDeclaration ⟨60, 90⟩ .empty,
      .leaf .functionDeclaration ⟨70, 90⟩ (.named (some "deep")), .finishNode, .finishNode,
      .finishNode]
    rfl

theorem topLevelFunctions_queried_exportingFile :
    exportingFile.Produced ∧
    (∀ id, exportingFile.kind? id = some .sourceFile ↔ id = exportingFile.root) ∧
    exportingFile.topLevelFunctions = [⟨1, some "outer"⟩, ⟨4, none⟩, ⟨5, some "run"⟩] ∧
    ∃ plain exported, exportingFile.query "SourceFile > FunctionDeclaration" = .ok plain ∧
      exportingFile.query "SourceFile > ExportDeclaration > FunctionDeclaration" = .ok exported ∧
      (∀ id, id ∈ exportingFile.topLevelFunctions.map FunctionInfo.id ↔
        id ∈ plain ∨ id ∈ exported) ∧
      (exportingFile.topLevelFunctions.map FunctionInfo.id).Sublist
        (exportingFile.preOrder exportingFile.root) ∧
      (exportingFile.topLevelFunctions.map FunctionInfo.id).Nodup ∧
      ∀ f ∈ exportingFile.topLevelFunctions,
        ∃ n, exportingFile.node? f.id = some n ∧ f.name = n.name? := by
  have hfile : ∀ id, exportingFile.kind? id = some .sourceFile ↔ id = exportingFile.root := by
    intro id
    constructor
    · intro hid
      have hlt : id < 9 := by
        by_contra hout
        have hnone : exportingFile.kind? id = none := by
          rw [kind?, node?, Array.getElem?_eq_none (Nat.le_of_not_lt hout)]
          rfl
        rw [hnone] at hid
        cases hid
      revert hid
      revert id
      decide
    · rintro rfl
      rfl
  exact ⟨produced_exportingFile, hfile, by decide,
    produced_exportingFile.topLevelFunctions_queried hfile⟩

end Tree

end TypeErasure
