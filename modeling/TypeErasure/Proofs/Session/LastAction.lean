import TypeErasure.Proofs.Places
import TypeErasure.Proofs.Session.History

/-! # The last action wins

What a session displays is told by its history: it is what the most recent step with an effect put
there. Clearing always has an effect; a run has one when it is completed, if its parse succeeded and
nothing was issued while it waited. So what was issued last decides, whenever earlier runs end.
-/
namespace TypeErasure.Schedule

variable {style : String} {steps front back : List SessionStep} {step : SessionStep}
  {parsed : ParsedSource} {since : List SessionStep} {ds : List Decoration}

/-- After the steps `front` the next one makes the overlay show `ds`. -/
inductive Effect (style : String) (front : List SessionStep) :
    SessionStep → List Decoration → Prop
  | clear : Effect style front .clear []
  | applied {step : SessionStep} {parsed : ParsedSource} {since : List SessionStep} {tree : Tree}
      (completes : Completes front step parsed since) (idle : ∀ a ∈ since, a.issues = false)
      (parses : parsed.tree = .ok tree) :
      Effect style front step (tree.erasureRanges parsed.source style)

/-- The most recent effect in a history, which is no decoration before the first. -/
inductive Latest (style : String) : List SessionStep → List Decoration → Prop
  | initial : Latest style [] []
  | effect {front : List SessionStep} {step : SessionStep} {ds : List Decoration}
      (effect : Effect style front step ds) : Latest style (front ++ [step]) ds
  | kept {front : List SessionStep} {step : SessionStep} {ds : List Decoration}
      (latest : Latest style front ds) (none : ∀ ds', ¬ Effect style front step ds') :
      Latest style (front ++ [step]) ds

/-! ## The overlay shows the latest effect -/

theorem Effect.overlay_step (h : Effect style front step ds) :
    ((after style front).step step).2.session.overlay =
      (after style front).session.overlay.replace ds := by
  cases h with
  | clear => rfl
  | @applied _ parsed since tree completes idle parses =>
    have hzero := SessionStep.countP_issues_eq_zero.mpr idle
    rcases (recalls_after style front).completion completes (by omega) with
      ⟨e, htree, -⟩ | ⟨-, -, ⟨a, ha, hissues⟩, -⟩ | ⟨tree', htree, -, -, hoverlay⟩
    · rw [parses] at htree
      cases htree
    · rw [idle a ha] at hissues
      cases hissues
    · rw [parses] at htree
      cases htree
      exact hoverlay

theorem Completes.countP_le (h : Completes front step parsed since) :
    since.countP SessionStep.issues ≤ front.countP SessionStep.issues := by
  cases h with
  | highlight => exact Nat.zero_le _
  | highlightWaiting => exact Nat.zero_le _
  | resolve waits =>
    obtain ⟨⟨before, rfl⟩, -⟩ := waits
    rw [List.countP_append, List.countP_cons]
    omega

theorem overlay_step_of_not_effect (hfew : front.countP SessionStep.issues < 2 ^ 64)
    (hnot : ∀ ds, ¬ Effect style front step ds) :
    ((after style front).step step).2.session.overlay = (after style front).session.overlay := by
  have hrecalls := recalls_after style front
  by_cases hcompletes : ∃ parsed since, Completes front step parsed since
  · obtain ⟨parsed, since, hcompletes⟩ := hcompletes
    rcases hrecalls.completion hcompletes (Nat.lt_of_le_of_lt hcompletes.countP_le hfew) with
      ⟨-, -, -, hoverlay⟩ | ⟨-, -, -, -, hoverlay⟩ | ⟨tree, htree, hidle, -⟩
    · exact hoverlay
    · exact hoverlay
    · exact (hnot _ (.applied hcompletes hidle htree)).elim
  · simp only [not_exists] at hcompletes
    refine (hrecalls.step_of_not_completes hcompletes).2 ?_
    rintro rfl
    exact hnot _ .clear

theorem Latest.shows (h : Latest style steps ds) (hfew : steps.countP SessionStep.issues < 2 ^ 64) :
    (after style steps).session.overlay.Shows ds := by
  induction h with
  | initial => exact Overlay.shows_ofSurface_empty
  | @effect front step ds effect =>
    obtain ⟨ds', hshows⟩ := (recalls_after style front).shows
    rw [after_concat, effect.overlay_step]
    exact hshows.replace ds
  | @kept front step ds latest none ih =>
    rw [List.countP_append] at hfew
    rw [after_concat, overlay_step_of_not_effect (by omega) none]
    exact ih (by omega)

theorem exists_latest (style : String) (steps : List SessionStep) : ∃ ds, Latest style steps ds := by
  induction steps using List.reverseRecOn with
  | nil => exact ⟨[], .initial⟩
  | append_singleton front step ih =>
    by_cases heffect : ∃ ds, Effect style front step ds
    · obtain ⟨ds, heffect⟩ := heffect
      exact ⟨ds, .effect heffect⟩
    · obtain ⟨ds, hlatest⟩ := ih
      exact ⟨ds, .kept hlatest (not_exists.mp heffect)⟩

/-! ## What was issued last -/

/-- The action issued last is the step that takes effect, or the start of the run it completes. -/
theorem Effect.issued (h : Effect style front step ds) :
    (step.issues = true ∧ ∀ run parsed, step ≠ .start run parsed) ∨
    ∃ run parsed since, step = .resolve run ∧ Waits front run parsed since ∧
      ∀ a ∈ since, a.issues = false := by
  cases h with
  | clear => exact .inl ⟨rfl, fun _ _ => nofun⟩
  | applied completes idle =>
    cases completes with
    | highlight => exact .inl ⟨rfl, fun _ _ => nofun⟩
    | highlightWaiting => exact .inl ⟨rfl, fun _ _ => nofun⟩
    | resolve waits => exact .inr ⟨_, _, _, rfl, waits, idle⟩

/-- Once a step has taken effect none does before something is issued, as the run that was started
last waits no more. -/
theorem Effect.not_effect (h : Effect style front step ds) (hidle : ∀ a ∈ back, a.issues = false)
    {next : SessionStep} (hnext : next.issues = false) (ds' : List Decoration) :
    ¬ Effect style (front ++ step :: back) next ds' := by
  intro heffect
  rcases heffect.issued with ⟨hissues, -⟩ | ⟨run', parsed', since', rfl, hwaits', hidle'⟩
  · rw [hnext] at hissues
    cases hissues
  obtain ⟨⟨before', heq⟩, hquiet⟩ := hwaits'
  rcases h.issued with ⟨hissues, hstart⟩ | ⟨run, parsed, since, rfl, hwaits, hsince⟩
  · exact hstart _ _ (eq_of_append_cons_eq heq hissues rfl hidle hidle').1
  · -- both runs have the start that was issued last, but the first of them is over
    obtain ⟨⟨before, rfl⟩, -⟩ := hwaits
    rw [List.append_assoc, List.cons_append] at heq
    have hidle'' : ∀ a ∈ since ++ .resolve run :: back, a.issues = false := by
      intro a ha
      rcases List.mem_append.mp ha with ha | ha
      · exact hsince a ha
      · rcases List.mem_cons.mp ha with rfl | ha
        · rfl
        · exact hidle a ha
    obtain ⟨hstart, rfl⟩ := eq_of_append_cons_eq heq rfl rfl hidle'' hidle'
    cases hstart
    have hends := hquiet (.resolve _) (List.mem_append_right _ List.mem_cons_self)
    simp [SessionStep.endsWait] at hends

theorem Effect.latest (h : Effect style front step ds) (hidle : ∀ a ∈ back, a.issues = false) :
    Latest style (front ++ step :: back) ds := by
  induction back using List.reverseRecOn with
  | nil => exact .effect h
  | append_singleton back next ih =>
    have hback : ∀ a ∈ back, a.issues = false := fun a ha => hidle a (List.mem_append_left _ ha)
    rw [← List.cons_append, ← List.append_assoc]
    exact .kept (ih hback) (h.not_effect hback (hidle next (by simp)))

/-- While fewer actions have been issued than there are generations, the history has one latest
effect, and the overlay shows it in document order. So nothing is on display when the action issued
last is a clearing, and what is erased in its source when it is a run that has parsed and ended. -/
theorem last_issued_wins (style : String) (steps : List SessionStep)
    (hfew : steps.countP SessionStep.issues < 2 ^ 64) :
    (∃ ds, (∀ ds', Latest style steps ds' ↔ ds' = ds) ∧
      (after style steps).session.overlay.Shows ds ∧
      Decoration.InDocumentOrder ds (after style steps).session.decorations) ∧
    (∀ front back, steps = front ++ .clear :: back → (∀ a ∈ back, a.issues = false) →
      (after style steps).session.overlay.Shows [] ∧ (after style steps).session.decorations = []) ∧
    ∀ front step back parsed since tree, steps = front ++ step :: back →
      Completes front step parsed since → (∀ a ∈ since ++ back, a.issues = false) →
      parsed.tree = .ok tree →
      (after style steps).session.overlay.Shows (tree.erasureRanges parsed.source style) ∧
      Decoration.InDocumentOrder (tree.erasureRanges parsed.source style)
        (after style steps).session.decorations := by
  refine ⟨?_, ?_, ?_⟩
  · obtain ⟨ds, hlatest⟩ := exists_latest style steps
    have hshows := hlatest.shows hfew
    refine ⟨ds, fun ds' => ⟨fun hlatest' => ?_, fun heq => heq ▸ hlatest⟩, hshows,
      hshows.inDocumentOrder⟩
    exact (hlatest'.shows hfew).live.symm.trans hshows.live
  · rintro front back rfl hidle
    have heffect : Effect style front .clear [] := .clear
    have hshows := (heffect.latest hidle).shows hfew
    exact ⟨hshows, hshows.decorations_eq_nil⟩
  · rintro front step back parsed since tree rfl hcompletes hidle htree
    have heffect : Effect style front step (tree.erasureRanges parsed.source style) :=
      .applied hcompletes (fun a ha => hidle a (List.mem_append_left _ ha)) htree
    have hlatest := heffect.latest fun a ha => hidle a (List.mem_append_right _ ha)
    have hshows := hlatest.shows hfew
    exact ⟨hshows, hshows.inDocumentOrder⟩

/-- A run over the empty text, which ends after a run that was started later. -/
def slowRun : List SessionStep :=
  [.start "slow" ⟨"", .ok ⟨#[⟨.sourceFile, ⟨0, 0⟩, none, #[], .empty⟩], 0⟩⟩,
    .highlight .typedDeclaration, .resolve "slow"]

theorem last_issued_wins_slowRun :
    slowRun.countP SessionStep.issues < 2 ^ 64 ∧
    (after "erased" slowRun).session.overlay.Shows
      (Tree.typedDeclaration.erasureRanges "const x: T = 1" "erased") ∧
    Decoration.InDocumentOrder (Tree.typedDeclaration.erasureRanges "const x: T = 1" "erased")
      (after "erased" slowRun).session.decorations := by
  have hfew : slowRun.countP SessionStep.issues < 2 ^ 64 := by decide
  have hidle : ∀ a ∈ [SessionStep.resolve "slow"], a.issues = false := by
    intro a ha
    obtain rfl := List.mem_singleton.mp ha
    rfl
  exact ⟨hfew, (last_issued_wins "erased" slowRun hfew).2.2 [.start "slow" _] _ _ _ [] _ rfl
    (.highlight .typedDeclaration) hidle rfl⟩

end TypeErasure.Schedule
