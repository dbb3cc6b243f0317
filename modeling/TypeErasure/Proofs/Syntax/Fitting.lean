import TypeErasure.Proofs.Syntax.Correspondence
import TypeErasure.Proofs.Syntax.Lexical
import TypeErasure.Proofs.Syntax.Transcript

/-! # Fragments that fit

The lexical law can be asked of a fragment before it is in a tree, once it is known which span its
parts inherit. A fragment that obeys it within the span of a node fits in the place of this node.
Kept nodes have the spans they had, and a fitting fragment has no more text than what it replaces.
So no node grows, what was apart stays apart, and a tree that passes the check still does with
fitting fragments in it.
-/
namespace TypeErasure

namespace Span

/-- Ordered spans that follow one another are apart, the empty ones too. -/
theorem pairwise_of_isChain {spans : List Span} (hordered : ∀ s ∈ spans, s.Ordered)
    (h : spans.IsChain fun a b => a.stop ≤ b.start) :
    spans.Pairwise fun a b => a.stop ≤ b.start := by
  induction spans with
  | nil => exact .nil
  | cons s spans ih =>
    have hrest := ih (fun s hs => hordered s (List.mem_cons_of_mem _ hs)) h.of_cons
    refine .cons (fun u hu => ?_) hrest
    cases spans with
    | nil => cases hu
    | cons next rest =>
      have hnext : s.stop ≤ next.start := h.rel
      rcases List.mem_cons.mp hu with rfl | hu
      · exact hnext
      · have hstop : next.start ≤ next.stop :=
          hordered next (List.mem_cons_of_mem _ (List.mem_cons_self ..))
        have hafter : next.stop ≤ u.start := List.rel_of_pairwise_cons hrest hu
        exact UInt32.le_trans hnext (UInt32.le_trans hstop hafter)

end Span

/-! ## The law for fragments -/

namespace Fragment

def spanIn (f : Fragment) (inherited : Span) : Span := f.span.getD inherited

inductive Lexical : Fragment → Span → Prop
  | parts {f : Fragment} {inherited : Span} (ordered : (f.spanIn inherited).Ordered)
      (inside : ∀ c ∈ f.children, (f.spanIn inherited).Encloses (c.spanIn (f.spanIn inherited)))
      (apart : (f.children.map fun c => c.spanIn (f.spanIn inherited)).IsChain
        fun a b => a.stop ≤ b.start)
      (below : ∀ c ∈ f.children, Lexical c (f.spanIn inherited)) : Lexical f inherited

/-- The fragment can take the place of a node with this span. -/
structure Fits (f : Fragment) (span : Span) : Prop where
  inside : span.Encloses (f.spanIn span)
  lexical : f.Lexical span

theorem Lexical.ordered {f : Fragment} {inherited : Span} (h : f.Lexical inherited) :
    (f.spanIn inherited).Ordered := by
  cases h with
  | parts ordered => exact ordered

theorem rose_eq (f : Fragment) (inherited : Span) : f.rose inherited =
    .node ⟨f.kind, f.spanIn inherited, f.payload⟩
      (f.children.map (·.rose (f.spanIn inherited))) := by
  cases f with
  | mk kind span payload children => rw [rose, roses_eq_map]; rfl

theorem span_top_rose (f : Fragment) (inherited : Span) :
    (f.rose inherited).top.span = f.spanIn inherited := by
  rw [rose_eq, Rose.top_node]

end Fragment

namespace Rose

variable {r r' : Rose Entry}

theorem span_eq_of_label {f : Fragment} {inherited : Span}
    (h : r.map Entry.label = f.rose inherited) : r.span = f.spanIn inherited := by
  have htop := congrArg (fun r => Label.span r.top) h
  rwa [top_map, f.span_top_rose] at htop

theorem parts_of_fragment {f : Fragment} {inherited : Span} {e : Entry} {cs : List (Rose Entry)}
    (h : (node e cs).map Entry.label = f.rose inherited) :
    cs.map (Rose.map Entry.label) = f.children.map (·.rose (f.spanIn inherited)) := by
  rw [map_node, f.rose_eq] at h
  injection h

theorem spans_of_fragments {fs : List Fragment} {inherited : Span} {cs : List (Rose Entry)}
    (h : cs.map (Rose.map Entry.label) = fs.map (·.rose inherited)) :
    cs.map Rose.span = fs.map (·.spanIn inherited) := by
  have htops := congrArg (List.map fun r => Label.span r.top) h
  simp only [List.map_map, Function.comp_def, top_map, Fragment.span_top_rose] at htops
  exact htops

/-- What a fragment makes obeys the law that the fragment obeys. -/
theorem lexical_of_fragment {f : Fragment} {inherited : Span} (hf : f.Lexical inherited)
    (h : r.map Entry.label = f.rose inherited) : r.Lexical := by
  induction hf generalizing r with
  | @parts f inherited ordered inside apart below ih =>
    cases r with
    | node e cs =>
      have hspan : e.span = f.spanIn inherited := span_eq_of_label h
      have hparts := parts_of_fragment h
      have hpart : ∀ c ∈ cs, ∃ g ∈ f.children,
          c.map Entry.label = g.rose (f.spanIn inherited) := by
        intro c hc
        obtain ⟨g, hg, heq⟩ := List.mem_map.mp (hparts ▸ List.mem_map_of_mem hc)
        exact ⟨g, hg, heq.symm⟩
      have hspans := spans_of_fragments hparts
      refine .node (hspan ▸ ordered) (fun c hc => ?_) ?_ (fun c hc => ?_)
      · obtain ⟨g, hg, heq⟩ := hpart c hc
        rw [hspan, span_eq_of_label heq]
        exact inside g hg
      · have hordered : ∀ s ∈ cs.map Rose.span, s.Ordered := by
          rw [hspans, List.forall_mem_map]
          exact fun g hg => (below g hg).ordered
        exact List.pairwise_map.mp (Span.pairwise_of_isChain hordered (hspans ▸ apart))
      · obtain ⟨g, hg, heq⟩ := hpart c hc
        exact ih g hg heq

/-- With fitting fragments for the chosen nodes no node grows, and the law goes on to hold. -/
theorem Becomes.lexical {choice : NodeId → Option Fragment} (h : r.Becomes choice r')
    (hr : r.Lexical)
    (hfits : ∀ e ∈ r.preOrder, ∀ f, choice e.id = some f → f.Fits e.span) :
    r'.Lexical ∧ r.span.Encloses r'.span := by
  induction h with
  | @replaced e cs f r' chosen label =>
    have hf : f.Fits e.span := hfits e (top_mem_preOrder _) f chosen
    refine ⟨lexical_of_fragment hf.lexical label, ?_⟩
    rw [span_eq_of_label label]
    exact hf.inside
  | @kept e e' cs cs' unchosen label backward length recorded below ih =>
    have hspan : e'.span = e.span := congrArg Label.span label
    cases hr with
    | node ordered inside apart lexical =>
      have hpair : ∀ p ∈ cs.zip cs', p.2.Lexical ∧ p.1.span.Encloses p.2.span := by
        intro p hp
        have hc : p.1 ∈ cs := (List.of_mem_zip hp).1
        refine ih p hp (lexical _ hc) fun e he => hfits e ?_
        rw [preOrder_node]
        exact List.mem_cons_of_mem _ (List.mem_flatMap.mpr ⟨_, hc, he⟩)
      refine ⟨.node (hspan ▸ ordered) (fun c' hc' => ?_) ?_ fun c' hc' => ?_, ?_⟩
      · obtain ⟨c, hzip⟩ := exists_mem_zip_of_mem length hc'
        rw [hspan]
        exact (inside c (List.of_mem_zip hzip).1).trans (hpair _ hzip).2
      · refine pairwise_of_zip length apart fun p hp q hq hpq => ?_
        exact UInt32.le_trans (hpair p hp).2.2 (UInt32.le_trans hpq (hpair q hq).2.1)
      · obtain ⟨c, hzip⟩ := exists_mem_zip_of_mem length hc'
        exact (hpair _ hzip).1
      · rw [span_node, span_node, hspan]
        exact ⟨UInt32.le_refl _, UInt32.le_refl _⟩

end Rose

/-! ## Substitution of fitting fragments -/

namespace Tree

variable {σ : Type} {t : Tree}

/-- A tree that passes the check still does with fitting fragments in it, be they shorter than what
was there, empty, or without any span of their own. -/
theorem Produced.check_substituted (h : t.Produced) (ha : t.AscriptionsInside)
    (hcheck : t.check = .ok ()) (choice : NodeId → σ → Option Fragment × σ) (s : σ) :
    ∃ t' s' asked, t.Transcript choice s t' s' asked ∧
      ((∀ q ∈ asked, ∀ fragment n, q.answer = some fragment → t.node? q.node = some n →
        fragment.Fits n.span) → t'.check = .ok ()) := by
  obtain ⟨r, hr⟩ := h.holds
  obtain ⟨t', hrun, htranscript⟩ := hr.exists_transcript ha choice s
  obtain ⟨r', hr', hbecomes⟩ := hr.becomes hrun
  refine ⟨t', _, _, htranscript, fun hfits => hr'.check_iff_lexical.mpr ?_⟩
  refine (hbecomes.lexical (hr.check_iff_lexical.mp hcheck) fun e he fragment hanswer => ?_).1
  obtain ⟨parent, children, hnode⟩ := hr.stored.entry he
  exact hfits _ (Inquiry.answerTo_eq_some hanswer) fragment _ rfl hnode

/-- A type in the place of `: T`: an array of its whole length, and behind it nothing. -/
def shorterType : Fragment where
  kind := .typeAscription
  span := some ⟨8, 9⟩
  children := [{ kind := .arrayType, children := [.identifier "T"] },
    { kind := .typeReference, span := some ⟨9, 9⟩ }]

def shrink (id : NodeId) (count : Nat) : Option Fragment × Nat :=
  (if id = 2 then some { kind := .identifier, span := some ⟨6, 6⟩ }
    else if id = 3 then some shorterType else none, count + 1)

theorem fits_shorterType : shorterType.Fits ⟨7, 10⟩ := by
  have hname : (Fragment.identifier "T").Lexical ⟨8, 9⟩ :=
    .parts (by decide) nofun (by decide) nofun
  have harray : Fragment.Lexical { kind := .arrayType, children := [.identifier "T"] } ⟨8, 9⟩ :=
    .parts (by decide) (by decide) (by decide) (List.forall_mem_singleton.mpr hname)
  have hempty : Fragment.Lexical { kind := .typeReference, span := some ⟨9, 9⟩ } ⟨8, 9⟩ :=
    .parts (by decide) nofun (by decide) nofun
  exact ⟨by decide, .parts (by decide) (by decide) (by decide)
    (List.forall_mem_cons.mpr ⟨harray, List.forall_mem_singleton.mpr hempty⟩)⟩

/-- Three nodes come to have one span, and two come to be empty. -/
theorem check_substituted_typedDeclaration :
    typedDeclaration.Produced ∧ typedDeclaration.AscriptionsInside ∧
    typedDeclaration.check = .ok () ∧
    ∃ t' asked, typedDeclaration.Transcript shrink 0 t' 4 asked ∧
      (∀ q ∈ asked, ∀ fragment n, q.answer = some fragment →
        typedDeclaration.node? q.node = some n → fragment.Fits n.span) ∧
      t'.ids.map (fun id => (t'.node? id).map Node.span) =
        [some ⟨6, 6⟩, some ⟨8, 9⟩, some ⟨8, 9⟩, some ⟨9, 9⟩, some ⟨8, 9⟩, some ⟨6, 14⟩,
          some ⟨0, 14⟩] ∧
      t'.check = .ok () := by
  obtain ⟨t', s', asked, hrun, hall⟩ :=
    produced_typedDeclaration.check_substituted (by decide) rfl shrink 0
  have hrecorded : typedDeclaration.substituteWith (recording shrink) (0, []) =
      .ok (_, 4, [⟨0, none⟩, ⟨1, none⟩, ⟨2, some _⟩, ⟨3, some shorterType⟩]) := rfl
  cases hrecorded.symm.trans hrun.recorded
  have hname : Fragment.Fits { kind := .identifier, span := some ⟨6, 6⟩ } ⟨6, 7⟩ :=
    ⟨by decide, .parts (by decide) nofun (by decide) nofun⟩
  have hfits : ∀ q ∈ [⟨0, none⟩, ⟨1, none⟩,
      ⟨2, some { kind := .identifier, span := some ⟨6, 6⟩ }⟩, ⟨3, some shorterType⟩],
      ∀ fragment n, Inquiry.answer q = some fragment →
        typedDeclaration.node? q.node = some n → fragment.Fits n.span := by
    simp [Tree.node?, typedDeclaration, hname, fits_shorterType]
  exact ⟨produced_typedDeclaration, by decide, rfl, _, _, hrun, hfits, rfl, hall hfits⟩

end Tree

end TypeErasure
