import Mathlib.Data.List.Induction
import TypeErasure.Proofs.Overlay.Replacement
import TypeErasure.Proofs.Syntax.Substituted
import TypeErasure.Session.Schedule

/-! # Histories of a session

A history is the list of the steps made so far. Which runs wait, and what has been issued since each
of them started, can be read off it. The state agrees: tickets count the actions issued, so a ticket
is as far behind the session as there are actions issued after it.
-/
namespace TypeErasure

namespace SessionStep

def issues : SessionStep → Bool
  | .highlight _ | .highlightWaiting _ | .start _ _ | .clear => true
  | .resolve _ | .abandon _ => false

/-- Whether a run of that name that waits before the step waits no more after it. -/
def endsWait (run : String) : SessionStep → Bool
  | .start name _ | .resolve name | .abandon name => name == run
  | .highlight _ | .highlightWaiting _ | .clear => false

theorem countP_issues_eq_zero {steps : List SessionStep} :
    steps.countP issues = 0 ↔ ∀ step ∈ steps, step.issues = false := by
  simp only [List.countP_eq_zero, Bool.not_eq_true]

end SessionStep

namespace Schedule

def after (style : String) (steps : List SessionStep) : Schedule :=
  steps.foldl (fun s step => (s.step step).2) (.new style)

theorem after_concat (style : String) (steps : List SessionStep) (step : SessionStep) :
    after style (steps ++ [step]) = ((after style steps).step step).2 := by
  simp [after]

/-- A run waits that was started over `parsed`, and `since` are the steps made after its start. What
its parse gives is fixed by then, but nothing looks at it before the run is resolved. -/
def Waits (steps : List SessionStep) (run : String) (parsed : ParsedSource)
    (since : List SessionStep) : Prop :=
  (∃ before, steps = before ++ .start run parsed :: since) ∧
    ∀ step ∈ since, step.endsWait run = false

/-- After the steps `front` the next one completes a run over `parsed`, and `since` are the steps
made while the run waited. -/
inductive Completes (front : List SessionStep) :
    SessionStep → ParsedSource → List SessionStep → Prop
  | highlight (parsed : ParsedSource) : Completes front (.highlight parsed) parsed []
  | highlightWaiting (parsed : ParsedSource) : Completes front (.highlightWaiting parsed) parsed []
  | resolve {run : String} {parsed : ParsedSource} {since : List SessionStep}
      (waits : Waits front run parsed since) : Completes front (.resolve run) parsed since

end Schedule

/-! ## Completion -/

/-- A ticket is current unless the generation has moved on, if it cannot have come round again. -/
theorem Sequencer.isCurrent_iff {s : Sequencer} {ticket : Ticket} {n : Nat}
    (hgeneration : s.generation = ticket.generation + UInt64.ofNat n) (hfew : n < 2 ^ 64) :
    s.isCurrent ticket = true ↔ n = 0 := by
  rw [isCurrent, beq_iff_eq, hgeneration, UInt64.add_eq_left]
  rw [← UInt64.toNat_inj, UInt64.toNat_ofNat_of_lt' hfew]
  rfl

namespace Session

/-- All that completing a run can do. -/
theorem complete_cases (s : Session) (ticket : Ticket) (parsed : ParsedSource) :
    (∃ e, parsed.tree = .error e ∧ s.complete ticket parsed = (.error e, s)) ∨
    (∃ tree, parsed.tree = .ok tree ∧ s.sequencer.isCurrent ticket = false ∧
      s.complete ticket parsed = (.ok .superseded, s)) ∨
    (∃ tree, parsed.tree = .ok tree ∧ s.sequencer.isCurrent ticket = true ∧
      s.complete ticket parsed = (.ok (.applied (tree.erasureRanges parsed.source s.style)),
        { s with overlay := s.overlay.replace (tree.erasureRanges parsed.source s.style) })) := by
  cases htree : parsed.tree with
  | error e => exact .inl ⟨e, rfl, by rw [complete, htree]⟩
  | ok tree =>
    right
    cases hcurrent : s.sequencer.isCurrent ticket with
    | false => exact .inl ⟨tree, rfl, rfl, by simp [complete, htree, hcurrent]⟩
    | true => exact .inr ⟨tree, rfl, rfl, by simp [complete, commit, htree, hcurrent]⟩

/-- A run that does not wait is one that is resolved as soon as it has started. -/
theorem highlight_eq_complete (s : Session) (parsed : ParsedSource) :
    s.highlight parsed = s.begin.2.complete s.begin.1 parsed := by
  cases htree : parsed.tree <;>
    simp [highlight, complete, commit, begin, Sequencer.begin, Sequencer.isCurrent,
      Sequencer.invalidate, htree]

theorem complete_overlay (s : Session) (ticket : Ticket) (parsed : ParsedSource) :
    ∃ o, (o = s.overlay ∨ ∃ ds, o = s.overlay.replace ds) ∧
      (s.complete ticket parsed).2 = { s with overlay := o } := by
  rcases s.complete_cases ticket parsed with ⟨_, -, heq⟩ | ⟨_, -, -, heq⟩ | ⟨_, -, -, heq⟩
  · exact ⟨s.overlay, .inl rfl, congrArg Prod.snd heq⟩
  · exact ⟨s.overlay, .inl rfl, congrArg Prod.snd heq⟩
  · exact ⟨_, .inr ⟨_, rfl⟩, congrArg Prod.snd heq⟩

end Session

/-! ## One step -/

namespace Schedule

variable {style : String} {s : Schedule} {steps since : List SessionStep} {step : SessionStep}
  {run : String} {parsed : ParsedSource}

/-- After one more step a run waits if it was started just now or has waited through the step. -/
theorem waits_concat : Waits (steps ++ [step]) run parsed since ↔
    step = .start run parsed ∧ since = [] ∨
    step.endsWait run = false ∧ ∃ since', since = since' ++ [step] ∧ Waits steps run parsed since' := by
  constructor
  · rintro ⟨⟨before, heq⟩, hquiet⟩
    rcases List.eq_nil_or_concat' since with rfl | ⟨since', last, rfl⟩
    · exact .inl ⟨(List.append_singleton_inj.mp heq).2, rfl⟩
    · rw [← List.cons_append, ← List.append_assoc] at heq
      obtain ⟨hsteps, rfl⟩ := List.append_singleton_inj.mp heq
      refine .inr ⟨hquiet step (by simp), since', rfl, ⟨before, hsteps⟩, fun a ha => ?_⟩
      exact hquiet a (List.mem_append_left _ ha)
  · rintro (⟨rfl, rfl⟩ | ⟨hstep, since', rfl, ⟨before, rfl⟩, hquiet⟩)
    · exact ⟨⟨steps, rfl⟩, fun a ha => nomatch ha⟩
    · refine ⟨⟨before, by simp⟩, fun a ha => ?_⟩
      rcases List.mem_append.mp ha with ha | ha
      · exact hquiet a ha
      · exact List.mem_singleton.mp ha ▸ hstep

theorem lookup_without_self (s : Schedule) (run : String) : (s.without run).lookup run = none := by
  rw [List.lookup_eq_none_iff]
  intro entry hentry
  have hne := (List.mem_filter.mp hentry).2
  rwa [bne_comm]

theorem lookup_without (s : Schedule) {run other : String} (hne : (other == run) = false) :
    (s.without other).lookup run = s.waiting.lookup run := by
  rw [without]
  induction s.waiting with
  | nil => rfl
  | cons entry entries ih =>
    by_cases hother : entry.1 = other
    · subst hother
      rw [List.filter_cons_of_neg (by simp), ih, List.lookup_cons, BEq.comm.trans hne]
    · rw [List.filter_cons_of_pos (by simpa using hother), List.lookup_cons, List.lookup_cons, ih]

theorem lookup_step (s : Schedule) (hstep : step.endsWait run = false) :
    (s.step step).2.waiting.lookup run = s.waiting.lookup run := by
  cases step with
  | highlight parsed => rfl
  | highlightWaiting parsed => rfl
  | start other parsed =>
    refine (List.lookup_cons ..).trans ?_
    rw [BEq.comm.trans hstep]
    exact lookup_without s hstep
  | resolve other =>
    rw [Schedule.step]
    split
    · rfl
    · exact lookup_without s hstep
  | abandon other => exact lookup_without s hstep
  | clear => rfl

/-- A step that ends the wait of a run leaves none of that name unless it starts one. -/
theorem lookup_step_of_endsWait (s : Schedule) (hstep : step.endsWait run = true) :
    (∃ parsed, step = .start run parsed ∧
      (s.step step).2.waiting.lookup run = some ⟨s.session.begin.1, parsed⟩) ∨
    (s.step step).2.waiting.lookup run = none := by
  cases step with
  | highlight parsed => cases hstep
  | highlightWaiting parsed => cases hstep
  | start other parsed =>
    obtain rfl := eq_of_beq hstep
    exact .inl ⟨parsed, rfl, List.lookup_cons_self⟩
  | resolve other =>
    obtain rfl := eq_of_beq hstep
    right
    rw [Schedule.step]
    split
    · assumption
    · exact lookup_without_self s other
  | abandon other =>
    obtain rfl := eq_of_beq hstep
    exact .inr (lookup_without_self s other)
  | clear => cases hstep

theorem step_highlight (s : Schedule) (parsed : ParsedSource) :
    s.step (.highlight parsed) = s.step (.highlightWaiting parsed) := by
  rw [Schedule.step, Session.highlight_eq_complete]
  rfl

/-- A step counts if it issues an action, may replace the overlay, and leaves the rest alone. -/
theorem session_step (s : Schedule) (step : SessionStep) :
    ∃ o, (o = s.session.overlay ∨ ∃ ds, o = s.session.overlay.replace ds) ∧
      (s.step step).2.session =
        ⟨if step.issues then s.session.sequencer.invalidate else s.session.sequencer, o,
          s.session.style⟩ := by
  cases step with
  | highlight parsed =>
    rw [step_highlight]
    exact s.session.begin.2.complete_overlay s.session.begin.1 parsed
  | highlightWaiting parsed => exact s.session.begin.2.complete_overlay s.session.begin.1 parsed
  | start run parsed => exact ⟨_, .inl rfl, rfl⟩
  | resolve run =>
    rw [Schedule.step]
    split
    · exact ⟨_, .inl rfl, rfl⟩
    · exact s.session.complete_overlay _ _
  | abandon run => exact ⟨_, .inl rfl, rfl⟩
  | clear => exact ⟨_, .inr ⟨[], rfl⟩, rfl⟩

theorem generation_step (s : Schedule) (step : SessionStep) :
    (s.step step).2.session.sequencer.generation =
      s.session.sequencer.generation + UInt64.ofNat ([step].countP SessionStep.issues) := by
  obtain ⟨o, -, heq⟩ := s.session_step step
  rw [heq, List.countP_singleton]
  split
  · rfl
  · exact (UInt64.add_zero _).symm

/-! ## The whole history -/

structure Recalls (style : String) (steps : List SessionStep) (s : Schedule) : Prop where
  style : s.session.style = style
  waits : ∀ run w, s.waiting.lookup run = some w → ∃ since, Waits steps run w.parsed since
  /-- The ticket of a waiting run is as far behind as there are actions issued since. -/
  ticket : ∀ run parsed since, Waits steps run parsed since → ∃ ticket,
    s.waiting.lookup run = some ⟨ticket, parsed⟩ ∧ s.session.sequencer.generation =
      ticket.generation + UInt64.ofNat (since.countP SessionStep.issues)
  shows : ∃ ds, s.session.overlay.Shows ds

theorem recalls_new (style : String) : Recalls style [] (new style) where
  style := rfl
  waits _ _ h := nomatch h
  ticket _ _ _ h := by
    obtain ⟨⟨before, heq⟩, -⟩ := h
    simp at heq
  shows := ⟨[], Overlay.shows_ofSurface_empty⟩

theorem Recalls.concat (h : Recalls style steps s) (step : SessionStep) :
    Recalls style (steps ++ [step]) (s.step step).2 where
  style := by
    obtain ⟨o, -, heq⟩ := s.session_step step
    rw [heq]
    exact h.style
  waits run w hw := by
    cases hstep : step.endsWait run with
    | false =>
      rw [lookup_step s hstep] at hw
      obtain ⟨since, hsince⟩ := h.waits run w hw
      exact ⟨since ++ [step], waits_concat.mpr (.inr ⟨hstep, since, rfl, hsince⟩)⟩
    | true =>
      rcases lookup_step_of_endsWait s hstep with ⟨parsed, rfl, hstarted⟩ | hnone
      · obtain rfl := Option.some.inj (hstarted.symm.trans hw)
        exact ⟨[], waits_concat.mpr (.inl ⟨rfl, rfl⟩)⟩
      · cases hnone.symm.trans hw
  ticket run parsed since hwaits := by
    -- a new ticket is the generation itself; an older one falls behind as `since` grows
    rcases waits_concat.mp hwaits with ⟨rfl, rfl⟩ | ⟨hstep, since', rfl, hwaits'⟩
    · refine ⟨s.session.begin.1, List.lookup_cons_self, ?_⟩
      exact (UInt64.add_zero _).symm
    · obtain ⟨ticket, hlookup, hgeneration⟩ := h.ticket run parsed since' hwaits'
      refine ⟨ticket, (lookup_step s hstep).trans hlookup, ?_⟩
      rw [generation_step, hgeneration, List.countP_append, UInt64.ofNat_add, UInt64.add_assoc]
  shows := by
    obtain ⟨o, ho, heq⟩ := s.session_step step
    obtain ⟨ds, hshows⟩ := h.shows
    rw [heq]
    rcases ho with rfl | ⟨ds', rfl⟩
    · exact ⟨ds, hshows⟩
    · exact ⟨ds', hshows.replace ds'⟩

theorem recalls_after (style : String) (steps : List SessionStep) :
    Recalls style steps (after style steps) := by
  induction steps using List.reverseRecOn with
  | nil => exact recalls_new style
  | append_singleton steps step ih =>
    rw [after_concat]
    exact ih.concat step

/-- A run is completed under the ticket of its start. -/
theorem Recalls.step_completes (h : Recalls style steps s)
    (hcompletes : Completes steps step parsed since) :
    ∃ (session : Session) (ticket : Ticket), session.overlay = s.session.overlay ∧
      session.style = style ∧ session.sequencer.generation =
        ticket.generation + UInt64.ofNat (since.countP SessionStep.issues) ∧
      (s.step step).1 = .ended (session.complete ticket parsed).1 ∧
      (s.step step).2.session = (session.complete ticket parsed).2 := by
  cases hcompletes with
  | highlight =>
    rw [step_highlight]
    exact ⟨s.session.begin.2, s.session.begin.1, rfl, h.style, (UInt64.add_zero _).symm, rfl, rfl⟩
  | highlightWaiting =>
    exact ⟨s.session.begin.2, s.session.begin.1, rfl, h.style, (UInt64.add_zero _).symm, rfl, rfl⟩
  | resolve waits =>
    obtain ⟨ticket, hlookup, hgeneration⟩ := h.ticket _ _ _ waits
    refine ⟨s.session, ticket, rfl, h.style, hgeneration, ?_, ?_⟩ <;> rw [Schedule.step, hlookup]

/-- What completing a run does is told by its parse and by the actions issued while it waited. -/
theorem Recalls.completion (h : Recalls style steps s)
    (hcompletes : Completes steps step parsed since)
    (hfew : since.countP SessionStep.issues < 2 ^ 64) :
    (∃ e, parsed.tree = .error e ∧ (s.step step).1 = .ended (.error e) ∧
      (s.step step).2.session.overlay = s.session.overlay) ∨
    (∃ tree, parsed.tree = .ok tree ∧ (∃ a ∈ since, a.issues = true) ∧
      (s.step step).1 = .ended (.ok .superseded) ∧
      (s.step step).2.session.overlay = s.session.overlay) ∨
    (∃ tree, parsed.tree = .ok tree ∧ (∀ a ∈ since, a.issues = false) ∧
      (s.step step).1 = .ended (.ok (.applied (tree.erasureRanges parsed.source style))) ∧
      (s.step step).2.session.overlay =
        s.session.overlay.replace (tree.erasureRanges parsed.source style)) := by
  obtain ⟨session, ticket, hoverlay, rfl, hgeneration, hanswer, hsession⟩ :=
    h.step_completes hcompletes
  have hcurrent := Sequencer.isCurrent_iff hgeneration hfew
  rw [hanswer, hsession]
  rcases session.complete_cases ticket parsed with
    ⟨e, htree, heq⟩ | ⟨tree, htree, hstale, heq⟩ | ⟨tree, htree, hticket, heq⟩
  · exact .inl ⟨e, htree, by rw [heq], by rw [heq, hoverlay]⟩
  · refine .inr (.inl ⟨tree, htree, ?_, by rw [heq], by rw [heq, hoverlay]⟩)
    have hissued : 0 < since.countP SessionStep.issues :=
      Nat.pos_of_ne_zero fun hzero => by simp [hcurrent.mpr hzero] at hstale
    exact List.countP_pos_iff.mp hissued
  · have hidle := SessionStep.countP_issues_eq_zero.mp (hcurrent.mp hticket)
    exact .inr (.inr ⟨tree, htree, hidle, by rw [heq], by rw [heq, hoverlay]⟩)

/-- A step that completes no run ends none, and unless it clears it leaves the overlay alone. -/
theorem Recalls.step_of_not_completes (h : Recalls style steps s)
    (hnot : ∀ parsed since, ¬ Completes steps step parsed since) :
    (∀ result, (s.step step).1 ≠ .ended result) ∧
      (step ≠ .clear → (s.step step).2.session.overlay = s.session.overlay) := by
  cases step with
  | highlight parsed => exact (hnot _ _ (.highlight parsed)).elim
  | highlightWaiting parsed => exact (hnot _ _ (.highlightWaiting parsed)).elim
  | start run parsed => exact ⟨fun _ hresult => (nomatch hresult), fun _ => rfl⟩
  | resolve run =>
    cases hlookup : s.waiting.lookup run with
    | none =>
      rw [Schedule.step, hlookup]
      exact ⟨fun _ hresult => (nomatch hresult), fun _ => rfl⟩
    | some w =>
      obtain ⟨since, hwaits⟩ := h.waits run w hlookup
      exact (hnot _ _ (.resolve hwaits)).elim
  | abandon run => exact ⟨fun _ hresult => (nomatch hresult), fun _ => rfl⟩
  | clear => exact ⟨fun _ hresult => (nomatch hresult), fun hclear => (hclear rfl).elim⟩

end Schedule

def ParsedSource.typedDeclaration : ParsedSource := ⟨"const x: T = 1", .ok Tree.typedDeclaration⟩

end TypeErasure
