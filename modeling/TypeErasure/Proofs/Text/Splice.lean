import Mathlib.Data.List.Induction
import TypeErasure.Proofs.StableSort
import TypeErasure.Proofs.Text.Offset
import TypeErasure.Text.Edit

/-! # Splices

A splice replaces stretches of a text that stand one after the other, each given by its offsets in
that text, and copies all between them. Edits are visited from the end of the text; the text in
front of the edit made last is still that of the source, so an edit that ends there can be judged
by either text, and the edits made amount to one splice of the source.
-/
namespace TypeErasure.TextEdit

open Text

/-! ## The order of visits -/

def Precedes (a b : TextEdit × Nat) : Prop :=
  b.1.span.start < a.1.span.start ∨ a.1.span.start = b.1.span.start ∧
    (b.1.span.stop < a.1.span.stop ∨ a.1.span.stop = b.1.span.stop ∧ a.2 < b.2)

def Visits (edits visited : List TextEdit) : Prop :=
  ∃ numbered : List (TextEdit × Nat), numbered.Perm edits.zipIdx ∧
    numbered.Pairwise Precedes ∧ numbered.map Prod.fst = visited

theorem Precedes.asymm {a b : TextEdit × Nat} (h : Precedes a b) (k : Precedes b a) : False := by
  simp only [Precedes, UInt32.lt_iff_toNat_lt, ← UInt32.toNat_inj] at h k
  omega

theorem Visits.unique {edits visited visited' : List TextEdit} (h : Visits edits visited)
    (k : Visits edits visited') : visited' = visited :=
  Arranged.unique Precedes.asymm h k

theorem notBefore_iff {a b : TextEdit} : notBefore a b = true ↔
    b.span.start.toNat < a.span.start.toNat ∨ a.span.start.toNat = b.span.start.toNat ∧
      b.span.stop.toNat ≤ a.span.stop.toNat := by
  simp [notBefore, UInt32.lt_iff_toNat_lt, UInt32.le_iff_toNat_le, ← UInt32.toNat_inj]

theorem notBefore_trans (a b c : TextEdit) (hab : notBefore a b = true)
    (hbc : notBefore b c = true) : notBefore a c = true := by
  rw [notBefore_iff] at hab hbc ⊢
  omega

theorem notBefore_total (a b : TextEdit) : (notBefore a b || notBefore b a) = true := by
  rw [Bool.or_eq_true, notBefore_iff, notBefore_iff]
  omega

/-- A stable sort finds the order of visits. -/
theorem visits_mergeSort (edits : List TextEdit) : Visits edits (edits.mergeSort notBefore) := by
  refine arranged_mergeSort notBefore_trans notBefore_total fun {a b} hab hba => ?_
  simp only [Precedes, UInt32.lt_iff_toNat_lt, ← UInt32.toNat_inj]
  rw [notBefore_iff] at hab hba
  omega

/-! ## Cuts -/

def Valid (e : TextEdit) (cs : List Char) : Prop :=
  e.span.start ≤ e.span.stop ∧ e.span.stop.toNat ≤ byteLength cs ∧
    IsBoundary cs e.span.start.toNat ∧ IsBoundary cs e.span.stop.toNat

instance (e : TextEdit) (cs : List Char) : Decidable (e.Valid cs) :=
  inferInstanceAs (Decidable (_ ∧ _ ∧ _ ∧ _))

structure Cuts (e : TextEdit) (cs front middle back : List Char) : Prop where
  split : cs = front ++ (middle ++ back)
  start : byteLength front = e.span.start.toNat
  stop : byteLength front + byteLength middle = e.span.stop.toNat

variable {e : TextEdit} {cs ds : List Char}

theorem valid_iff : e.Valid cs ↔ ∃ front middle back, e.Cuts cs front middle back := by
  constructor
  · rintro ⟨hordered, -, hstart, hstop⟩
    obtain ⟨front, rest, rfl, hfront⟩ := isBoundary_iff.mp hstart
    obtain ⟨front', back, hsplit, hfront'⟩ := isBoundary_iff.mp hstop
    obtain ⟨middle, rfl, rfl⟩ := exists_middle hsplit
      (by rw [hfront, hfront']; exact UInt32.le_iff_toNat_le.mp hordered)
    rw [byteLength_append] at hfront'
    exact ⟨front, middle, back, rfl, hfront, hfront'⟩
  · rintro ⟨front, middle, back, rfl, hstart, hstop⟩
    refine ⟨UInt32.le_iff_toNat_le.mpr (by omega), ?_, isBoundary_iff.mpr ⟨_, _, rfl, hstart⟩,
      isBoundary_iff.mpr ⟨front ++ middle, back, ?_, ?_⟩⟩
    · simp only [byteLength_append]
      omega
    · rw [List.append_assoc]
    · rw [byteLength_append, hstop]

theorem Cuts.append {front middle back : List Char} (h : e.Cuts cs front middle back)
    (ds : List Char) : e.Cuts (cs ++ ds) front middle (back ++ ds) where
  split := by simp [h.split]
  start := h.start
  stop := h.stop

/-- Where an edit ends within a front of a text, the front decides about it. -/
theorem valid_append_iff (h : e.span.stop.toNat ≤ byteLength cs) :
    e.Valid (cs ++ ds) ↔ e.Valid cs := by
  constructor
  · intro hvalid
    obtain ⟨front, middle, back, hcut⟩ := valid_iff.mp hvalid
    have hsplit : front ++ middle ++ back = cs ++ ds := by
      rw [hcut.split, List.append_assoc]
    obtain ⟨back', hcs, -⟩ := exists_middle hsplit (by
      rw [byteLength_append, hcut.stop]
      exact h)
    refine valid_iff.mpr ⟨front, middle, back', ?_, hcut.start, hcut.stop⟩
    rw [hcs, List.append_assoc]
  · intro hvalid
    obtain ⟨front, middle, back, hcut⟩ := valid_iff.mp hvalid
    exact valid_iff.mpr ⟨front, middle, back ++ ds, hcut.append ds⟩

theorem splice?_eq_some {front middle back : List Char} {text : String}
    (h : e.Cuts text.toList front middle back) :
    e.splice? text = some (String.ofList (front ++ e.text.toList ++ back)) := by
  have hle : ¬ e.span.stop < e.span.start := by
    have := h.start
    have := h.stop
    rw [UInt32.lt_iff_toNat_lt]
    omega
  have hfront := splitBytes_eq_some_iff.mpr ⟨h.split.symm, h.start⟩
  have hmiddle : splitBytes (e.span.stop.toNat - e.span.start.toNat) (middle ++ back) =
      some (middle, back) := by
    refine splitBytes_eq_some_iff.mpr ⟨rfl, ?_⟩
    rw [← h.stop, ← h.start, Nat.add_sub_cancel_left]
  simp only [splice?, hle, if_false, hfront, hmiddle, Option.bind_eq_bind, Option.bind_some]
  rfl

theorem valid_of_splice? {text out : String} (h : e.splice? text = some out) :
    e.Valid text.toList := by
  unfold splice? at h
  by_cases hle : e.span.stop < e.span.start
  · rw [if_pos hle] at h
    cases h
  · rw [if_neg hle] at h
    simp only [Option.bind_eq_bind, Option.bind_eq_some_iff, Prod.exists] at h
    obtain ⟨front, rest, hfront, middle, back, hmiddle, -⟩ := h
    obtain ⟨hsplit, hstart⟩ := splitBytes_eq_some_iff.mp hfront
    obtain ⟨rfl, hlength⟩ := splitBytes_eq_some_iff.mp hmiddle
    rw [UInt32.not_lt, UInt32.le_iff_toNat_le] at hle
    exact valid_iff.mpr ⟨front, middle, back, hsplit.symm, hstart, by omega⟩

/-! ## Splices -/

/-- The text behind the offset, in which each edit replaces its span. -/
inductive Spliced : Nat → List Char → List TextEdit → List Char → Prop
  | rest (offset : Nat) (cs : List Char) : Spliced offset cs [] cs
  | replace {offset : Nat} {e : TextEdit} {es : List TextEdit} {kept removed cs out : List Char}
      (start : offset + byteLength kept = e.span.start.toNat)
      (stop : offset + byteLength (kept ++ removed) = e.span.stop.toNat)
      (h : Spliced e.span.stop.toNat cs es out) :
      Spliced offset (kept ++ removed ++ cs) (e :: es) (kept ++ e.text.toList ++ out)

namespace Spliced

variable {offset : Nat} {es : List TextEdit} {out : List Char}

/-- A stretch in front of all edits is copied. -/
theorem extend (h : Spliced offset cs es out) {offset' : Nat} {more : List Char}
    (hmore : offset' + byteLength more = offset) :
    Spliced offset' (more ++ cs) es (more ++ out) := by
  cases h with
  | rest => exact .rest ..
  | @replace _ e es kept removed cs out start stop h =>
    have hnew : Spliced offset' ((more ++ kept) ++ removed ++ cs) (e :: es)
        ((more ++ kept) ++ e.text.toList ++ out) := by
      refine .replace ?_ ?_ h
      · rw [byteLength_append]
        omega
      · rw [List.append_assoc, byteLength_append]
        omega
    simpa using hnew

theorem unique {out' : List Char} (h : Spliced offset cs es out)
    (k : Spliced offset cs es out') : out' = out := by
  induction h generalizing out' with
  | rest => cases k; rfl
  | @replace offset e es kept removed cs out start stop h ih =>
    generalize hcs : kept ++ removed ++ cs = cs' at k
    cases k with
    | @replace _ _ _ kept' removed' _ out'' start' stop' k =>
      obtain ⟨hfront, rfl⟩ := append_inj_of_byteLength hcs (by omega)
      obtain ⟨rfl, rfl⟩ := append_inj_of_byteLength hfront (by omega)
      rw [ih k]

end Spliced

/-! ## Runs -/

def Below (e : TextEdit) (limit : Option UInt32) : Prop := ∀ l ∈ limit, e.span.stop ≤ l

instance (e : TextEdit) (limit : Option UInt32) : Decidable (e.Below limit) :=
  inferInstanceAs (Decidable (∀ l ∈ limit, e.span.stop ≤ l))

/-- A valid edit is chosen when it ends no later than the one chosen last starts. -/
def choose (source : String) (made : List TextEdit) (e : TextEdit) : List TextEdit :=
  if e.Valid source.toList ∧ e.Below (made.getLast?.map (·.span.start)) then made ++ [e] else made

def chosen (source : String) (visited : List TextEdit) : List TextEdit :=
  visited.foldl (choose source) []

theorem chosen_concat (source : String) (visited : List TextEdit) (e : TextEdit) :
    chosen source (visited ++ [e]) = choose source (chosen source visited) e := List.foldl_concat ..

def Progress.ofSource (source : String) : Progress := ⟨⟨0, 0, source⟩, none⟩

def Made (p : Progress) (e : TextEdit) : Prop :=
  (step p e).result.applied = p.result.applied + 1

theorem step_of_cuts {p : Progress} {front middle back : List Char}
    (h : e.Cuts p.result.text.toList front middle back) (hb : e.Below p.limit) :
    step p e = ⟨⟨p.result.applied + 1, p.result.skipped,
      String.ofList (front ++ e.text.toList ++ back)⟩, some e.span.start⟩ := by
  have hlimit : ¬ p.limit.any (· < e.span.stop) = true := by
    rw [Option.any_eq_true]
    rintro ⟨l, hl, hlt⟩
    exact UInt32.not_lt.mpr (hb l hl) (of_decide_eq_true hlt)
  simp only [step, splice?_eq_some h, if_neg hlimit]

theorem step_of_not {p : Progress} (h : ¬ (e.Valid p.result.text.toList ∧ e.Below p.limit)) :
    step p e = p.skip := by
  unfold step
  cases hsplice : e.splice? p.result.text with
  | none => rfl
  | some text =>
    refine if_pos ?_
    by_contra hlimit
    refine h ⟨valid_of_splice? hsplice, fun l hl => ?_⟩
    by_contra hlt
    exact hlimit ((Option.any_eq_true ..).mpr ⟨l, hl, decide_eq_true (UInt32.not_le.mp hlt)⟩)

theorem made_iff {p : Progress} :
    Made p e ↔ e.Valid p.result.text.toList ∧ e.Below p.limit := by
  constructor
  · intro hmade
    by_contra h
    rw [Made, step_of_not h] at hmade
    exact Nat.ne_of_lt (Nat.lt_succ_self _) hmade
  · rintro ⟨hvalid, hb⟩
    obtain ⟨front, middle, back, hcut⟩ := valid_iff.mp hvalid
    rw [Made, step_of_cuts hcut hb]

/-- After some visits the text in front of the limit is that of the source, and the rest is the
rest of the source with the edits made so far spliced in. -/
structure Tracks (source : String) (p : Progress) (made : List TextEdit) : Prop where
  applied : p.result.applied = made.length
  limit : p.limit = made.getLast?.map (·.span.start)
  untouched : p.limit = none → p.result.text = source
  spliced : ∃ front back out, source.toList = front ++ back ∧
    p.result.text.toList = front ++ out ∧
    byteLength front = p.limit.elim (byteLength source.toList) UInt32.toNat ∧
    Spliced (byteLength front) back made.reverse out

namespace Tracks

variable {source : String} {p : Progress} {made : List TextEdit}

theorem ofSource (source : String) : Tracks source (.ofSource source) [] where
  applied := rfl
  limit := rfl
  untouched _ := rfl
  spliced := ⟨source.toList, [], [], (List.append_nil _).symm, (List.append_nil _).symm, rfl,
    .rest ..⟩

/-- Below the limit the text as edited so far and the source give the same verdict. -/
theorem valid_iff_source (h : Tracks source p made) (hb : e.Below p.limit) :
    e.Valid p.result.text.toList ↔ e.Valid source.toList := by
  cases hlimit : p.limit with
  | none => rw [h.untouched hlimit]
  | some l =>
    obtain ⟨front, back, out, hsource, htext, hfront, -⟩ := h.spliced
    have hstop : e.span.stop.toNat ≤ byteLength front := by
      rw [hfront, hlimit]
      exact UInt32.le_iff_toNat_le.mp (hb l hlimit)
    rw [hsource, htext, valid_append_iff hstop, valid_append_iff hstop]

theorem made_iff (h : Tracks source p made) :
    Made p e ↔ e.Valid source.toList ∧ e.Below p.limit := by
  rw [TextEdit.made_iff]
  exact and_congr_left fun hb => h.valid_iff_source hb

/-- An edit that is made is spliced in front of those made before. -/
theorem make (h : Tracks source p made) (hvalid : e.Valid source.toList) (hb : e.Below p.limit) :
    Tracks source (step p e) (made ++ [e]) := by
  obtain ⟨front, back, out, hsource, htext, hfront, hspliced⟩ := h.spliced
  have hstop : e.span.stop.toNat ≤ byteLength front := by
    rw [hfront]
    cases hlimit : p.limit with
    | none => exact hvalid.2.1
    | some l => exact UInt32.le_iff_toNat_le.mp (hb l hlimit)
  rw [hsource, valid_append_iff hstop] at hvalid
  obtain ⟨kept, removed, more, hcut⟩ := valid_iff.mp hvalid
  have hstep := step_of_cuts (htext ▸ hcut.append out) hb
  have hmore : e.span.stop.toNat + byteLength more = byteLength front := by
    have hlength := congrArg byteLength hcut.split
    have := hcut.stop
    simp only [byteLength_append] at hlength
    omega
  rw [hstep]
  refine ⟨?_, by simp, nofun, ?_⟩
  · rw [List.length_append, ← h.applied]
    rfl
  · refine ⟨kept, removed ++ (more ++ back), e.text.toList ++ (more ++ out), ?_, ?_, hcut.start, ?_⟩
    · rw [hsource, hcut.split]
      simp
    · rw [String.toList_ofList]
      simp
    · rw [List.reverse_append, hcut.start]
      have hnew : Spliced e.span.start.toNat ([] ++ removed ++ (more ++ back)) (e :: made.reverse)
          ([] ++ e.text.toList ++ (more ++ out)) :=
        .replace rfl (hcut.start ▸ hcut.stop) (hspliced.extend hmore)
      exact hnew

theorem step (h : Tracks source p made) (e : TextEdit) :
    Tracks source (step p e) (choose source made e) := by
  rw [choose, ← h.limit]
  by_cases hboth : e.Valid source.toList ∧ e.Below p.limit
  · rw [if_pos hboth]
    exact h.make hboth.1 hboth.2
  · have hskip : TextEdit.step p e = p.skip := by
      refine step_of_not fun hhere => hboth ?_
      exact ⟨(h.valid_iff_source hhere.2).mp hhere.1, hhere.2⟩
    rw [if_neg hboth, hskip]
    exact ⟨h.applied, h.limit, h.untouched, h.spliced⟩

/-- A run makes the chosen edits. -/
theorem foldl (source : String) (visited : List TextEdit) :
    Tracks source (visited.foldl TextEdit.step (.ofSource source)) (chosen source visited) := by
  induction visited using List.reverseRecOn with
  | nil => exact ofSource source
  | append_singleton visited e ih =>
    rw [List.foldl_concat, chosen_concat]
    exact ih.step e

end Tracks

/-- Every visit counts once. -/
theorem count_step (p : Progress) (e : TextEdit) :
    (step p e).result.applied + (step p e).result.skipped =
      p.result.applied + p.result.skipped + 1 := by
  by_cases h : e.Valid p.result.text.toList ∧ e.Below p.limit
  · obtain ⟨front, middle, back, hcut⟩ := valid_iff.mp h.1
    rw [step_of_cuts hcut h.2]
    exact Nat.add_right_comm ..
  · rw [step_of_not h]
    rfl

theorem count_foldl (p : Progress) (todo : List TextEdit) :
    (todo.foldl step p).result.applied + (todo.foldl step p).result.skipped =
      p.result.applied + p.result.skipped + todo.length := by
  induction todo generalizing p with
  | nil => rfl
  | cons e todo ih =>
    rw [List.foldl_cons, ih, count_step, List.length_cons]
    omega

/-- Edits amount to one splice of the source, judged by the source alone: there is one order of
visits, the edits chosen in that order are spliced in, every other one counts as skipped, and
although each is tried on the text as edited so far, just the chosen ones are made and their
offsets are boundaries of that text. -/
theorem applyAll_splices (source : String) (edits : List TextEdit) :
    ∃ visited, Visits edits visited ∧ (∀ other, Visits edits other → other = visited) ∧
      (∀ out, Spliced 0 source.toList (chosen source visited).reverse out ↔
        out = (applyAll source edits).text.toList) ∧
      (applyAll source edits).applied = (chosen source visited).length ∧
      (applyAll source edits).applied + (applyAll source edits).skipped = edits.length ∧
      ∀ front e back, visited = front ++ e :: back →
        (Made (front.foldl step (.ofSource source)) e ↔ e.Valid source.toList ∧
          e.Below ((chosen source front).getLast?.map (·.span.start))) ∧
        (Made (front.foldl step (.ofSource source)) e →
          e.Valid (front.foldl step (.ofSource source)).result.text.toList) := by
  have hvisits := visits_mergeSort edits
  have htracks := Tracks.foldl source (edits.mergeSort notBefore)
  obtain ⟨front, back, out, hsource, htext, hfront, hspliced⟩ := htracks.spliced
  have hall := hspliced.extend (Nat.zero_add _)
  rw [← hsource, ← htext] at hall
  refine ⟨_, hvisits, fun other hother => hvisits.unique hother, fun out' => ?_, htracks.applied,
    ?_, fun front e back _ => ⟨?_, fun hmade => (made_iff.mp hmade).1⟩⟩
  · constructor
    · intro hout
      exact hall.unique hout
    · rintro rfl
      exact hall
  · have hlength : (edits.mergeSort notBefore).length = edits.length := List.length_mergeSort edits
    rw [← hlength]
    exact (count_foldl ..).trans (Nat.zero_add _)
  · have hhere := Tracks.foldl source front
    rw [hhere.made_iff, hhere.limit]

example : (applyAll "aéb" [⟨⟨0, 1⟩, "x"⟩, ⟨⟨1, 1⟩, "y"⟩, ⟨⟨1, 1⟩, "z"⟩, ⟨⟨0, 2⟩, ""⟩]).text =
    "xzyéb" := by cbv

end TypeErasure.TextEdit
