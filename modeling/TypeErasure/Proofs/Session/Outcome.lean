import TypeErasure.Proofs.Session.History

/-! # Outcomes of runs

A run fails just if its parse does, however late it ends. It is superseded if the parse succeeds but
an action was issued while the run waited, and is applied otherwise. The overlay changes only where
the outcome says so.
-/
namespace TypeErasure

/-- The outcome of a run over `parsed` says what has become of the overlay, when `since` are the
steps made while the run waited. -/
structure Truthful (style : String) (parsed : ParsedSource) (since : List SessionStep)
    (result : Except ParseError RunOutcome) (before after : Overlay) : Prop where
  error : ∀ e, result = .error e ↔ parsed.tree = .error e
  superseded : result = .ok .superseded ↔
    (∃ tree, parsed.tree = .ok tree) ∧ ∃ a ∈ since, a.issues = true
  applied : ∀ ds, result = .ok (.applied ds) ↔ ∃ tree, parsed.tree = .ok tree ∧
    (∀ a ∈ since, a.issues = false) ∧ ds = tree.erasureRanges parsed.source style
  shown : ∀ ds, result = .ok (.applied ds) →
    after.Shows ds ∧ after.surface.applies = before.surface.applies + 1
  kept : (∀ ds, result ≠ .ok (.applied ds)) → after = before

variable {style : String} {parsed : ParsedSource} {since : List SessionStep} {o : Overlay}

theorem truthful_error {e : ParseError} (htree : parsed.tree = .error e) :
    Truthful style parsed since (.error e) o o where
  error := by simp [htree]
  superseded := by simp [htree]
  applied := by simp [htree]
  shown _ h := nomatch h
  kept _ := rfl

theorem truthful_superseded {tree : Tree} (htree : parsed.tree = .ok tree)
    (hissued : ∃ a ∈ since, a.issues = true) :
    Truthful style parsed since (.ok .superseded) o o where
  error := by simp [htree]
  superseded := iff_of_true rfl ⟨⟨tree, htree⟩, hissued⟩
  applied ds := by
    obtain ⟨a, ha, hissues⟩ := hissued
    refine iff_of_false (fun h => nomatch h) ?_
    rintro ⟨-, -, hidle, -⟩
    rw [hidle a ha] at hissues
    cases hissues
  shown _ h := nomatch h
  kept _ := rfl

theorem truthful_applied {tree : Tree} (htree : parsed.tree = .ok tree)
    (hidle : ∀ a ∈ since, a.issues = false) (hshows : ∃ ds, o.Shows ds) :
    Truthful style parsed since (.ok (.applied (tree.erasureRanges parsed.source style))) o
      (o.replace (tree.erasureRanges parsed.source style)) where
  error := by simp [htree]
  superseded := by
    refine iff_of_false (fun h => nomatch h) ?_
    rintro ⟨-, a, ha, hissues⟩
    rw [hidle a ha] at hissues
    cases hissues
  applied ds := by
    constructor
    · intro h
      cases h
      exact ⟨tree, htree, hidle, rfl⟩
    · rintro ⟨tree', htree', -, rfl⟩
      rw [htree] at htree'
      cases htree'
      rfl
  shown ds h := by
    obtain ⟨ds', hds'⟩ := hshows
    cases h
    exact ⟨hds'.replace _, rfl⟩
  kept h := (h _ rfl).elim

namespace Schedule

/-- The steps that end a run are those that complete one, and the outcome they give is truthful. Of
generations there are 2⁶⁴, so a run must not wait while as many actions are issued. -/
theorem outcome_truthful (style : String) (front : List SessionStep) (step : SessionStep) :
    ((∃ result, ((after style front).step step).1 = .ended result) ↔
      ∃ parsed since, Completes front step parsed since) ∧
    ∀ parsed since, Completes front step parsed since →
      since.countP SessionStep.issues < 2 ^ 64 →
      ∃ result, ((after style front).step step).1 = .ended result ∧
        Truthful style parsed since result (after style front).session.overlay
          ((after style front).step step).2.session.overlay := by
  have hrecalls := recalls_after style front
  refine ⟨⟨?_, ?_⟩, ?_⟩
  · rintro ⟨result, hresult⟩
    by_contra hnone
    have hnot : ∀ parsed since, ¬ Completes front step parsed since :=
      fun parsed since hcompletes => hnone ⟨parsed, since, hcompletes⟩
    exact (hrecalls.step_of_not_completes hnot).1 result hresult
  · rintro ⟨parsed, since, hcompletes⟩
    obtain ⟨session, ticket, -, -, -, hanswer, -⟩ := hrecalls.step_completes hcompletes
    exact ⟨_, hanswer⟩
  · intro parsed since hcompletes hfew
    rcases hrecalls.completion hcompletes hfew with
      ⟨e, htree, hanswer, hoverlay⟩ | ⟨tree, htree, hissued, hanswer, hoverlay⟩ |
        ⟨tree, htree, hidle, hanswer, hoverlay⟩
    · exact ⟨_, hanswer, hoverlay ▸ truthful_error htree⟩
    · exact ⟨_, hanswer, hoverlay ▸ truthful_superseded htree hissued⟩
    · exact ⟨_, hanswer, hoverlay ▸ truthful_applied htree hidle hrecalls.shows⟩

def clearedRun : List SessionStep := [.start "slow" .typedDeclaration, .clear]

theorem outcome_truthful_clearedRun :
    Completes clearedRun (.resolve "slow") .typedDeclaration [.clear] ∧
    [SessionStep.clear].countP SessionStep.issues < 2 ^ 64 ∧
    ((after "erased" clearedRun).step (.resolve "slow")).1 = .ended (.ok .superseded) ∧
    ∃ result, ((after "erased" clearedRun).step (.resolve "slow")).1 = .ended result ∧
      Truthful "erased" .typedDeclaration [.clear] result
        (after "erased" clearedRun).session.overlay
        ((after "erased" clearedRun).step (.resolve "slow")).2.session.overlay := by
  have hcompletes : Completes clearedRun (.resolve "slow") .typedDeclaration [.clear] := by
    refine .resolve ⟨⟨[], rfl⟩, fun a ha => ?_⟩
    obtain rfl := List.mem_singleton.mp ha
    rfl
  have hfew : [SessionStep.clear].countP SessionStep.issues < 2 ^ 64 := by decide
  exact ⟨hcompletes, hfew, rfl, (outcome_truthful _ _ _).2 _ _ hcompletes hfew⟩

end Schedule

end TypeErasure
