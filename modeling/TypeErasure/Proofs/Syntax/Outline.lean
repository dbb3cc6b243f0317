import Mathlib.Data.List.Forall2
import TypeErasure.Proofs.Syntax.Depth
import TypeErasure.Proofs.Syntax.Iteration
import TypeErasure.Proofs.Text.Lines
import TypeErasure.Syntax.Outline

/-! # Outlines of roses

Where it is not too deep, the outline of a nested tree is what a recursion writes: the line of a
node, then the outlines of its children one level deeper. A printer writes it line by line from a
stack of nodes with their depths, and it breaks off at the first node whose line cannot be indented.

An outline can be read back as far as it goes. Where no name holds a line feed its lines are those
of the nodes, and a line tells the depth, the kind and the span of its node, whatever the name is.
-/
namespace TypeErasure

open Text

def Entry.heading (e : Entry) : String :=
  e.kind.name ++ " [" ++ toString e.span.start.toNat ++ ".." ++ toString e.span.stop.toNat ++ ")" ++
    (match e.payload.name? with | some name => " " ++ name | none => "") ++
    (if e.payload.typeOnly? = some true then " type-only" else "")

/-- What an outline tells of a node for certain. -/
def Entry.form (e : Entry) : Kind × Span := (e.kind, e.span)

namespace Rose

def outlined (r : Rose Entry) : Nat → String :=
  r.fold fun e parts depth =>
    Tree.indentation depth ++ e.heading ++ "\n" ++ String.join (parts.map (· (depth + 1)))

theorem outlined_node (e : Entry) (cs : List (Rose Entry)) (depth : Nat) :
    (node e cs).outlined depth =
      Tree.indentation depth ++ e.heading ++ "\n" ++
        String.join (cs.map (outlined · (depth + 1))) := by
  rw [outlined, fold_node, List.map_map]
  rfl

def shape (r : Rose Entry) : Rose (Kind × Span) := r.map Entry.form

end Rose

/-! ## Lines -/

def outlineRow (row : Nat × Entry) : String := Tree.indentation row.1 ++ row.2.heading

theorem outlineRow_closed (row : Nat × Entry) (parent : Option NodeId) (children : List NodeId) :
    outlineRow row ++ "\n" = Tree.indentation row.1 ++ (row.2.node parent children).outlineLine :=
  String.append_assoc

def outlineText (rows : List (Nat × Entry)) : String :=
  String.join (rows.map fun row => outlineRow row ++ "\n")

theorem outlineText_cons (row : Nat × Entry) (rows : List (Nat × Entry)) :
    outlineText (row :: rows) = outlineRow row ++ "\n" ++ outlineText rows := String.join_cons

theorem toList_outlineText (rows : List (Nat × Entry)) :
    (outlineText rows).toList = closedLines (rows.map outlineRow) := by
  simp [outlineText, closedLines, String.toList_join, List.flatMap_map]

theorem outlineText_flatMap {α : Type} (f : α → List (Nat × Entry)) (xs : List α) :
    outlineText (xs.flatMap f) = String.join (xs.map fun x => outlineText (f x)) := by
  refine String.toList_injective ?_
  simp [toList_outlineText, closedLines, String.toList_join, List.map_flatMap, List.flatMap_map,
    List.flatMap_assoc]

/-- An outline has a line for every node, in pre-order. -/
theorem Rose.outlined_eq (r : Rose Entry) (depth : Nat) :
    r.outlined depth = outlineText (r.depths depth) := by
  induction r generalizing depth with
  | node e cs ih =>
    have hparts : cs.map (outlined · (depth + 1)) =
        cs.map fun c => outlineText (c.depths (depth + 1)) :=
      List.map_congr_left fun c hc => ih c hc (depth + 1)
    rw [outlined_node, depths_node, outlineText_cons, outlineText_flatMap, hparts]
    rfl

/-! ## The rows of a subtree -/

theorem foldl_levelStep_all {cs : List (Rose Entry)} {depth : Nat}
    (h : ∀ c ∈ cs, ∀ seen, c.tour.foldl Tree.levelStep (seen, depth) =
      (((c.map Entry.id).depths depth).reverse ++ seen, depth)) (seen : List (Nat × NodeId)) :
    (cs.flatMap Rose.tour).foldl Tree.levelStep (seen, depth) =
      (((cs.map (Rose.map Entry.id)).flatMap (Rose.depths · depth)).reverse ++ seen, depth) := by
  induction cs generalizing seen with
  | nil => rfl
  | cons c cs ih =>
    obtain ⟨hc, hcs⟩ := List.forall_mem_cons.mp h
    rw [List.flatMap_cons, List.foldl_append, hc, ih hcs, List.map_cons, List.flatMap_cons,
      List.reverse_append, List.append_assoc]

/-- The fold over the brackets of a rose takes up its nodes and comes back to the depth. -/
theorem foldl_levelStep (r : Rose Entry) (seen : List (Nat × NodeId)) (depth : Nat) :
    r.tour.foldl Tree.levelStep (seen, depth) =
      (((r.map Entry.id).depths depth).reverse ++ seen, depth) := by
  induction r generalizing seen depth with
  | node e cs ih =>
    rw [Rose.tour_node, List.foldl_concat, List.foldl_cons, Tree.levelStep,
      foldl_levelStep_all fun c hc seen => ih c hc seen (depth + 1), Rose.map_node,
      Rose.depths_node, List.reverse_cons, List.append_assoc]
    rfl

namespace Tree

variable {t : Tree} {parent : Option NodeId} {r whole : Rose Entry}

theorem Holds.levels_eq (h : t.Holds whole) (hr : Stored t.nodes parent r) :
    t.levels r.id = (r.depths 0).map fun row => (row.1, row.2.id) := by
  rw [levels, h.tour_part hr, foldl_levelStep, Rose.depths_map, List.append_nil,
    List.reverse_reverse]

theorem indentedLine_eq (h : Stored t.nodes parent r) {row : Nat × Entry}
    (hrow : row ∈ r.depths 0) : t.indentedLine (row.1, row.2.id) = outlineRow row ++ "\n" := by
  have he : row.2 ∈ r.preOrder := by
    rw [← r.map_snd_depths 0]
    exact List.mem_map_of_mem hrow
  obtain ⟨p, children, hnode⟩ := h.entry he
  rw [indentedLine, node?, hnode, outlineRow_closed]

theorem indents_iff {depth : Nat} : Indents depth ↔ depth ≤ 32767 := by
  unfold Indents widestIndentation
  omega

/-- A subtree has an outline if all its lines can be indented, and else it is too deep at the first
that cannot. -/
theorem Holds.outline_eq (h : t.Holds whole) (hr : Stored t.nodes parent r) :
    (∀ row ∈ r.depths 0, Indents row.1) ∧ t.outline r.id = .ok (r.outlined 0) ∨
      ∃ front row back, r.depths 0 = front ++ row :: back ∧ (∀ row' ∈ front, Indents row'.1) ∧
        ¬ Indents row.1 ∧ t.outline r.id = .error ⟨row.2.id, row.1⟩ := by
  rw [outline, h.levels_eq hr]
  split
  · next depth id hfind =>
    obtain ⟨hdeep, front', back', hrows, hfront⟩ := List.find?_eq_some_iff_append.mp hfind
    obtain ⟨front, rest, hsplit, rfl, hrest⟩ := List.map_eq_append_iff.mp hrows
    obtain ⟨row, back, rfl, hrow, -⟩ := List.map_eq_cons_iff.mp hrest
    obtain ⟨rfl, rfl⟩ := Prod.mk.inj hrow
    refine .inr ⟨front, row, back, hsplit, fun row' hrow' => ?_, by simpa using hdeep, rfl⟩
    simpa using hfront _ (List.mem_map_of_mem hrow')
  · next hfind =>
    refine .inl ⟨fun row hrow => ?_, ?_⟩
    · simpa using List.find?_eq_none.mp hfind _ (List.mem_map_of_mem hrow)
    · have hlines : (r.depths 0).map (t.indentedLine ∘ fun row => (row.1, row.2.id)) =
          (r.depths 0).map fun row => outlineRow row ++ "\n" :=
        List.map_congr_left fun row hrow => indentedLine_eq hr hrow
      rw [List.map_map, hlines, Rose.outlined_eq, outlineText]

theorem Holds.outline_eq_ok_iff (h : t.Holds whole) (hr : Stored t.nodes parent r) {out : String} :
    t.outline r.id = .ok out ↔ (∀ row ∈ r.depths 0, row.1 ≤ 32767) ∧ out = r.outlined 0 := by
  simp only [← indents_iff]
  rcases h.outline_eq hr with ⟨hfits, heq⟩ | ⟨front, row, back, hrows, -, hdeep, heq⟩
  · rw [heq, Except.ok.injEq, and_iff_right hfits, eq_comm]
  · rw [heq]
    refine iff_of_false nofun fun hout => hdeep (hout.1 row ?_)
    rw [hrows]
    exact List.mem_append_right _ (List.mem_cons_self ..)

end Tree

/-! ## The loop and the recursion -/

/-- From one stack of nodes, each with its depth, to another a printer writes this text. A turn
writes the line of the node on top, if it can be indented, and puts the children in its place, one
level deeper. -/
inductive Tree.Writes (t : Tree) :
    List (NodeId × Nat) → String → List (NodeId × Nat) → Prop
  | refl (stack : List (NodeId × Nat)) : Writes t stack "" stack
  | turn {id : NodeId} {n : Node} {depth : Nat} {stack last : List (NodeId × Nat)} {out : String}
      (node : t.node? id = some n) (indents : Tree.Indents depth)
      (rest : Writes t (n.children.toList.map (·, depth + 1) ++ stack) out last) :
      Writes t ((id, depth) :: stack) (Tree.indentation depth ++ n.outlineLine ++ out) last

/-- What the printer comes to: it has written all there was on the stack, or it breaks off. -/
inductive Tree.Prints (t : Tree) (stack : List (NodeId × Nat)) : Except TooDeep String → Prop
  | done {out : String} (writes : t.Writes stack out []) : Prints t stack (.ok out)
  | broken {out : String} {id : NodeId} {depth : Nat} {rest : List (NodeId × Nat)}
      (writes : t.Writes stack out ((id, depth) :: rest)) (deep : ¬ Tree.Indents depth) :
      Prints t stack (.error ⟨id, depth⟩)

def stackOf (rs : List (Rose Entry × Nat)) : List (NodeId × Nat) := rs.map fun p => (p.1.id, p.2)

def rowsAhead (rs : List (Rose Entry × Nat)) : List (Nat × Entry) :=
  rs.flatMap fun p => p.1.depths p.2

section Loop

variable {t : Tree} {parent : Option NodeId} {r : Rose Entry} {rs : List (Rose Entry × Nat)}
  {front back : List (Nat × Entry)} {row : Nat × Entry}

theorem exists_of_rowsAhead (h : rowsAhead rs = row :: back) :
    ∃ cs rest, rs = (.node row.2 cs, row.1) :: rest ∧
      rowsAhead (cs.map (·, row.1 + 1) ++ rest) = back := by
  cases rs with
  | nil => cases h
  | cons p rest =>
    obtain ⟨⟨e, cs⟩, depth⟩ := p
    rw [rowsAhead, List.flatMap_cons, Rose.depths_node, List.cons_append] at h
    obtain ⟨rfl, rfl⟩ := List.cons.inj h
    refine ⟨cs, rest, rfl, ?_⟩
    rw [rowsAhead, List.flatMap_append, List.flatMap_map]

/-- The rows in front are written if they can be indented, and those behind are still to come. -/
theorem writes_front (hrs : ∀ p ∈ rs, ∃ parent, Stored t.nodes parent p.1)
    (hrows : rowsAhead rs = front ++ back) (hfront : ∀ row ∈ front, Tree.Indents row.1) :
    ∃ rs', rowsAhead rs' = back ∧ t.Writes (stackOf rs) (outlineText front) (stackOf rs') := by
  induction front generalizing rs with
  | nil => exact ⟨rs, hrows, .refl _⟩
  | cons row front ih =>
    obtain ⟨hrow, hfront⟩ := List.forall_mem_cons.mp hfront
    obtain ⟨cs, rest, rfl, hahead⟩ := exists_of_rowsAhead hrows
    obtain ⟨⟨parent, hnode⟩, hrest⟩ := List.forall_mem_cons.mp hrs
    cases hnode with
    | node here below =>
      have hnext : ∀ p ∈ cs.map (·, row.1 + 1) ++ rest, ∃ parent, Stored t.nodes parent p.1 := by
        intro p hp
        rcases List.mem_append.mp hp with hp | hp
        · obtain ⟨c, hc, rfl⟩ := List.mem_map.mp hp
          exact ⟨_, below c hc⟩
        · exact hrest p hp
      obtain ⟨rs', hrs', hwrites⟩ := ih hnext hahead hfront
      refine ⟨rs', hrs', ?_⟩
      have hstack : stackOf (cs.map (·, row.1 + 1) ++ rest) =
          (cs.map Rose.id).map (·, row.1 + 1) ++ stackOf rest := by
        simp [stackOf]
      rw [hstack] at hwrites
      rw [outlineText_cons, outlineRow_closed]
      exact .turn here hrow hwrites

/-- The outline of a subtree is what the printer comes to that starts with its top. -/
theorem Tree.Holds.prints {whole : Rose Entry} (h : t.Holds whole) (hr : Stored t.nodes parent r) :
    t.Prints [(r.id, 0)] (t.outline r.id) := by
  have hrs : ∀ p ∈ [(r, 0)], ∃ parent, Stored t.nodes parent p.1 := by
    intro p hp
    obtain rfl := List.mem_singleton.mp hp
    exact ⟨parent, hr⟩
  have hrows : rowsAhead [(r, 0)] = r.depths 0 := List.flatMap_singleton ..
  rcases h.outline_eq hr with ⟨hfits, heq⟩ | ⟨front, row, back, hsplit, hfront, hdeep, heq⟩
  · obtain ⟨rs', hrs', hwrites⟩ :=
      writes_front hrs (hrows.trans (List.append_nil _).symm) hfits
    rw [heq, r.outlined_eq]
    cases rs' with
    | nil => exact .done hwrites
    | cons p rest =>
      obtain ⟨⟨e, cs⟩, depth⟩ := p
      simp [rowsAhead] at hrs'
  · obtain ⟨rs', hrs', hwrites⟩ := writes_front hrs (hrows.trans hsplit) hfront
    obtain ⟨cs, rest, rfl, -⟩ := exists_of_rowsAhead hrs'
    rw [heq]
    exact .broken hwrites hdeep

end Loop

/-! ## Reading an outline -/

theorem Kind.exists_name_eq_cons (k : Kind) :
    ∃ c cs, k.name.toList = c :: cs ∧ c ≠ ' ' ∧ ' ' ∉ c :: cs := by
  obtain ⟨c, cs, hname, hletters⟩ := k.exists_name_letters
  have hblank : ' ' ∉ c :: cs := by
    intro hmem
    cases hletters _ hmem
  exact ⟨c, cs, hname, fun hc => hblank (hc ▸ List.mem_cons_self ..), hblank⟩

theorem not_mem_toDigits {c : Char} (hc : c.isDigit = false) (n : Nat) : c ∉ Nat.toDigits 10 n := by
  intro hmem
  rw [Nat.isDigit_of_mem_toDigits (by decide) (by decide) hmem] at hc
  cases hc

theorem eq_of_toDigits {m n : Nat} (h : Nat.toDigits 10 m = Nat.toDigits 10 n) : m = n := by
  have hread := congrArg (Nat.ofDigitChars 10 · 0) h
  rwa [Nat.ofDigitChars_ten_toDigits, Nat.ofDigitChars_ten_toDigits] at hread

def Entry.remark (e : Entry) : String :=
  (match e.payload.name? with | some name => " " ++ name | none => "") ++
    (if e.payload.typeOnly? = some true then " type-only" else "")

theorem Entry.toList_heading (e : Entry) : e.heading.toList = e.kind.name.toList ++ ' ' :: '[' ::
    (Nat.toDigits 10 e.span.start.toNat ++ '.' :: '.' ::
      (Nat.toDigits 10 e.span.stop.toNat ++ ')' :: e.remark.toList)) := by
  simp only [heading, remark, String.toList_append, List.append_assoc, Nat.toString_eq_repr,
    Nat.toList_repr]
  rfl

/-- A line tells the depth, the kind and the span of its node. -/
theorem eq_of_outlineRow {row row' : Nat × Entry} (h : outlineRow row = outlineRow row') :
    row.1 = row'.1 ∧ row.2.form = row'.2.form := by
  obtain ⟨depth, e⟩ := row
  obtain ⟨depth', e'⟩ := row'
  obtain ⟨c, cs, hname, hc, hblank⟩ := e.kind.exists_name_eq_cons
  obtain ⟨c', cs', hname', hc', hblank'⟩ := e'.kind.exists_name_eq_cons
  have hchars := congrArg String.toList h
  simp only [outlineRow, Tree.indentation, String.toList_append, String.toList_ofList,
    Entry.toList_heading, hname, hname', List.cons_append] at hchars
  obtain ⟨hdepth, hline⟩ := replicate_append_inj hc hc' hchars
  obtain ⟨hkind, hspan⟩ := append_cons_inj hblank hblank' hline
  obtain ⟨hstart, hrest⟩ := append_cons_inj (not_mem_toDigits rfl _) (not_mem_toDigits rfl _)
    (List.cons.inj hspan).2
  obtain ⟨hstop, -⟩ := append_cons_inj (not_mem_toDigits rfl _) (not_mem_toDigits rfl _)
    (List.cons.inj hrest).2
  have hkinds : e.kind = e'.kind := by
    refine Kind.name_injective (String.toList_injective ?_)
    rw [hname, hname', hkind]
  have hspans : e.span = e'.span :=
    congrArg₂ Span.mk (UInt32.toNat_inj.mp (eq_of_toDigits hstart))
      (UInt32.toNat_inj.mp (eq_of_toDigits hstop))
  exact ⟨Nat.eq_of_mul_eq_mul_left Nat.zero_lt_two hdepth, Prod.ext hkinds hspans⟩

theorem outlineRow_unbroken {e : Entry} (h : ∀ name ∈ e.payload.name?, '\n' ∉ name.toList)
    (depth : Nat) : '\n' ∉ (outlineRow (depth, e)).toList := by
  have hkind : '\n' ∉ e.kind.name.toList := by
    obtain ⟨c, cs, hname, hletters⟩ := e.kind.exists_name_letters
    rw [hname]
    intro hmem
    cases hletters _ hmem
  have hremark : '\n' ∉ e.remark.toList := by
    rw [Entry.remark, String.toList_append, List.mem_append, not_or]
    constructor
    · cases hname : e.payload.name? with
      | none => exact List.not_mem_nil
      | some name => simpa using h name hname
    · split <;> decide
  simp [outlineRow, Tree.indentation, Entry.toList_heading, hkind, hremark, not_mem_toDigits]

namespace Rose

variable {r r' : Rose Entry} {depth : Nat}

theorem outlineRows_unbroken (h : ∀ e ∈ r.preOrder, ∀ name ∈ e.payload.name?, '\n' ∉ name.toList) :
    ∀ line ∈ (r.depths depth).map outlineRow, '\n' ∉ line.toList := by
  intro line hline
  obtain ⟨⟨d, e⟩, hrow, rfl⟩ := List.mem_map.mp hline
  have he : e ∈ r.preOrder := by
    rw [← r.map_snd_depths depth]
    exact List.mem_map_of_mem hrow
  exact outlineRow_unbroken (h e he) d

/-- Roses of one outline have one shape, where no name holds a line feed. -/
theorem shape_eq_of_outlined
    (h : ∀ e ∈ r.preOrder, ∀ name ∈ e.payload.name?, '\n' ∉ name.toList)
    (h' : ∀ e ∈ r'.preOrder, ∀ name ∈ e.payload.name?, '\n' ∉ name.toList)
    (heq : r.outlined depth = r'.outlined depth) : r.shape = r'.shape := by
  have hlines : closedLines ((r.depths depth).map outlineRow) =
      closedLines ((r'.depths depth).map outlineRow) := by
    rw [← toList_outlineText, ← toList_outlineText, ← outlined_eq, ← outlined_eq, heq]
  have hrows := closedLines_injective (outlineRows_unbroken h) (outlineRows_unbroken h') hlines
  have hforms : r.shape.depths depth = r'.shape.depths depth := by
    rw [shape, shape, depths_map, depths_map]
    rw [← List.forall₂_eq_eq_eq, List.forall₂_map_left_iff, List.forall₂_map_right_iff] at hrows ⊢
    refine hrows.imp fun row row' hrow => ?_
    obtain ⟨hdepth, hform⟩ := eq_of_outlineRow hrow
    exact Prod.ext hdepth hform
  exact depths_injective hforms

-- a line feed in a name can pass for the line of another node
example :
    outlined (node ⟨0, .identifier, ⟨0, 1⟩, .identifier "a\n  Identifier [0..1) b"⟩ []) 0 =
      outlined (node ⟨0, .identifier, ⟨0, 1⟩, .identifier "a"⟩
        [node ⟨1, .identifier, ⟨0, 1⟩, .identifier "b"⟩ []]) 0 := by decide +kernel

end Rose

namespace Tree

variable {t t' : Tree} {id id' : NodeId}

def NamesUnbroken (t : Tree) (start : NodeId) : Prop :=
  ∀ id ∈ t.preOrder start, ∀ name ∈ t.name? id, '\n' ∉ name.toList

instance (t : Tree) (start : NodeId) : Decidable (t.NamesUnbroken start) :=
  inferInstanceAs (Decidable (∀ id ∈ t.preOrder start, ∀ name ∈ t.name? id, '\n' ∉ name.toList))

theorem NamesUnbroken.entry {parent : Option NodeId} {whole r : Rose Entry} (hwhole : t.Holds whole)
    (hr : Stored t.nodes parent r) (h : t.NamesUnbroken r.id) :
    ∀ e ∈ r.preOrder, ∀ name ∈ e.payload.name?, '\n' ∉ name.toList := by
  intro e he name hname
  obtain ⟨_, _, hnode⟩ := hr.entry he
  have hid : e.id ∈ t.preOrder r.id := by
    rw [hwhole.preOrder_part hr]
    exact List.mem_map_of_mem he
  refine h e.id hid name ?_
  rw [name?, node?, hnode]
  exact hname

/-- With a node alone on its stack a printer comes to the outline, which is what the recursion over
the subtree writes if no node stands too deep, and subtrees of one outline have the same kinds and
spans, nested alike, if no name in them holds a line feed. -/
theorem Produced.outline_faithful (h : t.Produced) (h' : t'.Produced) (hid : id < t.size)
    (hid' : id' < t'.size) :
    ∃ r parent r' parent', Stored t.nodes parent r ∧ r.id = id ∧
      Stored t'.nodes parent' r' ∧ r'.id = id' ∧
      t.Prints [(id, 0)] (t.outline id) ∧
      (∀ out, t.outline id = .ok out ↔
        (∀ row ∈ r.depths 0, row.1 ≤ 32767) ∧ out = r.outlined 0) ∧
      (t.NamesUnbroken id → t'.NamesUnbroken id' →
        ∀ out, t.outline id = .ok out → t'.outline id' = .ok out → r.shape = r'.shape) := by
  obtain ⟨whole, hwhole⟩ := h.holds
  obtain ⟨whole', hwhole'⟩ := h'.holds
  obtain ⟨r, parent, hr, rfl⟩ := hwhole.exists_subtree hid
  obtain ⟨r', parent', hr', rfl⟩ := hwhole'.exists_subtree hid'
  refine ⟨r, parent, r', parent', hr, rfl, hr', rfl, hwhole.prints hr,
    fun out => hwhole.outline_eq_ok_iff hr, fun hunbroken hunbroken' out hout hout' => ?_⟩
  obtain ⟨-, rfl⟩ := (hwhole.outline_eq_ok_iff hr).mp hout
  obtain ⟨-, heq⟩ := (hwhole'.outline_eq_ok_iff hr').mp hout'
  exact Rose.shape_eq_of_outlined (hunbroken.entry hwhole hr) (hunbroken'.entry hwhole' hr') heq

def typeImport : Tree where
  nodes := #[
    ⟨.sourceFile, ⟨0, 25⟩, none, #[1], .empty⟩,
    ⟨.importDeclaration, ⟨0, 24⟩, some 0, #[2], .importing (some ⟨true⟩)⟩,
    ⟨.identifier, ⟨14, 15⟩, some 1, #[], .identifier "A"⟩]
  root := 0

theorem produced_typeImport : typeImport.Produced :=
  .of_calls
    [.start .sourceFile ⟨0, 25⟩ .empty,
      .start .importDeclaration ⟨0, 24⟩ (.importing (some ⟨true⟩)),
      .leaf .identifier ⟨14, 15⟩ (.identifier "A"), .finishNode, .finishNode]
    rfl

/-- Gives the import the name that its mark is written as, and other numbers to all nodes. -/
def nameImport (id : NodeId) : Option Fragment :=
  if id = 1 then some {
    kind := .importDeclaration
    payload := .named (some "type-only")
    children := [{ Fragment.identifier "A" with span := some ⟨14, 15⟩ }] }
  else none

theorem outline_faithful_typeImport : ∃ t',
    typeImport.substituteWith (fun id (_ : Unit) => (nameImport id, ())) () = .ok (t', ()) ∧
    typeImport.Produced ∧ t'.Produced ∧ 1 < typeImport.size ∧ 1 < t'.size ∧
    typeImport.outline 1 = .ok "ImportDeclaration [0..24) type-only\n  Identifier [14..15) A\n" ∧
    t'.outline 1 = typeImport.outline 1 ∧
    ∃ r parent r' parent', Stored typeImport.nodes parent r ∧ r.id = 1 ∧
      Stored t'.nodes parent' r' ∧ r'.id = 1 ∧
      typeImport.Prints [(1, 0)] (typeImport.outline 1) ∧
      (∀ out, typeImport.outline 1 = .ok out ↔
        (∀ row ∈ r.depths 0, row.1 ≤ 32767) ∧ out = r.outlined 0) ∧ r.shape = r'.shape := by
  have hrun : typeImport.substituteWith
      (fun id (_ : Unit) => (nameImport id, ())) () = .ok (_, ()) := rfl
  have hproduced := Produced.substituted produced_typeImport hrun
  have hid : 1 < typeImport.size := by decide
  have houtline : typeImport.outline 1 =
      .ok "ImportDeclaration [0..24) type-only\n  Identifier [14..15) A\n" := by decide +kernel
  obtain ⟨r, parent, r', parent', hr, hid₁, hr', hid₂, hprints, houtlined, hshape⟩ :=
    produced_typeImport.outline_faithful hproduced hid hid
  exact ⟨_, hrun, produced_typeImport, hproduced, hid, hid, houtline, by decide +kernel,
    r, parent, r', parent', hr, hid₁, hr', hid₂, hprints, houtlined,
    hshape (by decide) (by decide) _ houtline (by decide +kernel)⟩

/-- Blocks inside one another, so many below the first. -/
def nestedBlocks : Nat → Rose Label
  | 0 => .node ⟨.block, ⟨0, 0⟩, .empty⟩ []
  | n + 1 => .node ⟨.block, ⟨0, 0⟩, .empty⟩ [nestedBlocks n]

theorem ordered_nestedBlocks (n : Nat) : ∀ l ∈ (nestedBlocks n).preOrder, l.span.Ordered := by
  induction n with
  | zero => decide
  | succ n ih =>
    rw [nestedBlocks, Rose.preOrder_node, List.forall_mem_cons, List.flatMap_singleton]
    exact ⟨by decide, ih⟩

theorem map_fst_depths_nestedBlocks (n depth : Nat) :
    ((nestedBlocks n).depths depth).map Prod.fst = List.range' depth (n + 1) := by
  induction n generalizing depth with
  | zero => rfl
  | succ n ih =>
    rw [nestedBlocks, Rose.depths_node, List.flatMap_singleton, List.map_cons, ih]
    exact List.range'_succ.symm

/-- Beyond the limit the printer breaks off at a depth that is beyond it. -/
theorem outline_nestedBlocks {n : Nat} (hn : 32767 < n) :
    ∃ t r id depth, (Builder.empty.run (Builder.script (nestedBlocks n))).finish = .ok t ∧
      t.Holds r ∧ r.map Entry.label = nestedBlocks n ∧
      t.outline t.root = .error ⟨id, depth⟩ ∧ 32767 < depth ∧ depth ≤ n := by
  obtain ⟨t, r, hfinish, hr, hlabel⟩ := Builder.finish_script _ (ordered_nestedBlocks n)
  have hdepths : (r.depths 0).map Prod.fst = List.range' 0 (n + 1) := by
    rw [← map_fst_depths_nestedBlocks, ← hlabel, Rose.depths_map, List.map_map]
    rfl
  have hmem : ∀ depth, (∃ row ∈ r.depths 0, row.1 = depth) ↔ depth ≤ n := by
    intro depth
    rw [← List.mem_map, hdepths, ← List.range_eq_range', List.mem_range, Nat.lt_succ_iff]
  rcases hr.outline_eq hr.stored with ⟨hfits, -⟩ | ⟨front, row, back, hrows, -, hdeep, heq⟩
  · obtain ⟨row, hrow, rfl⟩ := (hmem n).mpr (Nat.le_refl n)
    exact absurd (indents_iff.mp (hfits row hrow)) (Nat.not_le_of_lt hn)
  · rw [hr.root] at heq
    refine ⟨t, r, row.2.id, row.1, hfinish, hr, hlabel, heq, ?_, ?_⟩
    · exact Nat.lt_of_not_le (mt indents_iff.mpr hdeep)
    · exact (hmem row.1).mp ⟨row, hrows ▸ List.mem_append_right _ (List.mem_cons_self ..), rfl⟩

/-- Not every subtree is rendered: of blocks that are nested one level deeper than lines can be
indented there is no outline. -/
theorem not_rendered_nestedBlocks :
    ∃ t r id, (Builder.empty.run (Builder.script (nestedBlocks 32768))).finish = .ok t ∧
      t.Holds r ∧ r.map Entry.label = nestedBlocks 32768 ∧
      t.outline t.root = .error ⟨id, 32768⟩ ∧ t.outline t.root ≠ .ok (r.outlined 0) := by
  obtain ⟨t, r, id, depth, hfinish, hr, hlabel, heq, hdeep, hle⟩ :=
    outline_nestedBlocks (n := 32768) (by decide)
  obtain rfl : depth = 32768 := Nat.le_antisymm hle hdeep
  exact ⟨t, r, id, hfinish, hr, hlabel, heq, heq ▸ nofun⟩

end Tree

end TypeErasure
