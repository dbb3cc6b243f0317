import TypeErasure.Proofs.Places
import TypeErasure.Proofs.Session.History
import TypeErasure.Session.Threads

/-! # The last call of several threads

Calls count one after the other, so the call with the highest generation is the one that counted
last. If it is a clearing, nothing is on display once no call is under way. If it is a run, the run
finds its ticket current and shows what is erased in its source; but a clearing that counted before
the run may still wait for the lock then, and takes away what the run shows.
-/
namespace TypeErasure

namespace SessionCall

variable {s : Session} {ticket : Ticket}

theorem issue_eq (s : Session) (call : SessionCall) : call.issue s = s.begin := by
  cases call <;> rfl

/-- Under the lock a call may replace the overlay, and leaves the rest alone. -/
theorem finish_cases (s : Session) (ticket : Ticket) (call : SessionCall) :
    ∃ o, (o = s.overlay ∨ ∃ ds, o = s.overlay.replace ds) ∧
      call.finish s ticket = { s with overlay := o } := by
  cases call with
  | highlight source tree =>
    cases hcurrent : s.sequencer.isCurrent ticket with
    | false => exact ⟨s.overlay, .inl rfl, by simp [finish, Session.commit, hcurrent]⟩
    | true =>
      refine ⟨_, .inr ⟨tree.erasureRanges source s.style, rfl⟩, ?_⟩
      simp [finish, Session.commit, hcurrent]
  | clear => exact ⟨_, .inr ⟨[], rfl⟩, rfl⟩

theorem finish_highlight_of_current (hcurrent : s.sequencer.isCurrent ticket = true)
    (source : String) (tree : Tree) :
    ((highlight source tree).finish s ticket).overlay =
      s.overlay.replace (tree.erasureRanges source s.style) := by
  simp [finish, Session.commit, hcurrent]

theorem finish_highlight_of_not_current (hcurrent : s.sequencer.isCurrent ticket = false)
    (source : String) (tree : Tree) : (highlight source tree).finish s ticket = s := by
  simp [finish, Session.commit, hcurrent]

end SessionCall

namespace SharedSession

variable {style : String} {s : SharedSession} {steps : List ThreadStep} {place : Nat}
  {c : IssuedCall}

theorem after_concat (style : String) (steps : List ThreadStep) (step : ThreadStep) :
    after style (steps ++ [step]) = (after style steps).step step := by
  simp [after]

/-- The call at that place has counted and waits for the lock. -/
def Waits (s : SharedSession) (place : Nat) (c : IssuedCall) : Prop :=
  s.issued[place]? = some c ∧ c.ended = false

def Clearing (s : SharedSession) : Prop := ∃ place c, s.Waits place c ∧ c.call = .clear

def Quiet (s : SharedSession) : Prop := ∀ c ∈ s.issued, c.ended = true

def Highest (s : SharedSession) (place : Nat) (c : IssuedCall) : Prop :=
  s.issued[place]? = some c ∧ ∀ d ∈ s.issued, d.ticket.generation ≤ c.ticket.generation

/-- A clearing waits for the lock when the call at that place gets it. -/
def Overtaken (style : String) (steps : List ThreadStep) (place : Nat) : Prop :=
  ∃ front back c, steps = front ++ .finish place :: back ∧ (after style front).Waits place c ∧
    (after style front).Clearing

/-! ## One step -/

def unlock (s : SharedSession) (place : Nat) (c : IssuedCall) : SharedSession :=
  ⟨c.call.finish s.session c.ticket, s.issued.set place { c with ended := true }⟩

theorem step_finish (h : s.Waits place c) : s.step (.finish place) = s.unlock place c := by
  obtain ⟨call, ticket, ended⟩ := c
  obtain ⟨hc, rfl⟩ := h
  simp only [SharedSession.step, hc, unlock]

/-- All that a step can do. -/
theorem step_cases (s : SharedSession) (step : ThreadStep) :
    (∃ call, step = .issue call ∧
      s.step step = ⟨s.session.begin.2, s.issued ++ [⟨call, s.session.begin.1, false⟩]⟩) ∨
    (∃ place c, step = .finish place ∧ s.Waits place c ∧ s.step step = s.unlock place c) ∨
    (∃ place, step = .finish place ∧ (∀ c, ¬ s.Waits place c) ∧ s.step step = s) := by
  cases step with
  | issue call => exact .inl ⟨call, rfl, by rw [SharedSession.step, call.issue_eq]⟩
  | finish place =>
    right
    by_cases hwaits : ∃ c, s.Waits place c
    · obtain ⟨c, hc⟩ := hwaits
      exact .inl ⟨place, c, rfl, hc, step_finish hc⟩
    · have hnone : ∀ c, ¬ s.Waits place c := fun c hc => hwaits ⟨c, hc⟩
      refine .inr ⟨place, rfl, hnone, ?_⟩
      rw [SharedSession.step]
      split
      · next call ticket hc => exact absurd ⟨hc, rfl⟩ (hnone ⟨call, ticket, false⟩)
      · rfl

theorem getElem?_unlock (h : s.Waits place c) (other : Nat) :
    (s.unlock place c).issued[other]? =
      if other = place then some { c with ended := true } else s.issued[other]? := by
  have hlt : place < s.issued.length := (List.getElem?_eq_some_iff.mp h.1).1
  rw [unlock, List.getElem?_set, if_pos hlt]
  exact ite_congr (propext eq_comm) (fun _ => rfl) fun _ => rfl

/-- Whoever waits still waits, but for the call that had the lock. -/
theorem waits_unlock (h : s.Waits place c) {other : Nat} {d : IssuedCall} :
    (s.unlock place c).Waits other d ↔ other ≠ place ∧ s.Waits other d := by
  rw [Waits, getElem?_unlock h, Waits]
  by_cases hother : other = place
  · subst hother
    rw [if_pos rfl]
    refine iff_of_false ?_ fun hne => hne.1 rfl
    rintro ⟨hd, hwaits⟩
    obtain rfl := Option.some.inj hd
    cases hwaits
  · rw [if_neg hother]
    exact (and_iff_right hother).symm

theorem clearing_unlock (h : s.Waits place c) (hcall : c.call ≠ .clear) :
    (s.unlock place c).Clearing ↔ s.Clearing := by
  constructor
  · rintro ⟨other, d, hd, hclear⟩
    exact ⟨other, d, ((waits_unlock h).mp hd).2, hclear⟩
  · rintro ⟨other, d, hd, hclear⟩
    refine ⟨other, d, (waits_unlock h).mpr ⟨?_, hd⟩, hclear⟩
    rintro rfl
    obtain rfl := Option.some.inj (h.1.symm.trans hd.1)
    exact hcall hclear

/-! ## Generations -/

/-- Generations are taken in order, and each call keeps the one that it took. -/
structure Numbered (style : String) (s : SharedSession) : Prop where
  style : s.session.style = style
  generation : s.session.sequencer.generation = UInt64.ofNat s.issued.length
  ticket : ∀ place c, s.issued[place]? = some c →
    c.ticket.generation = UInt64.ofNat (place + 1)
  shows : ∃ ds, s.session.overlay.Shows ds

theorem numbered_new (style : String) : Numbered style (new style) where
  style := rfl
  generation := rfl
  ticket _ _ h := nomatch h
  shows := ⟨[], Overlay.shows_ofSurface_empty⟩

theorem Numbered.step (h : Numbered style s) (step : ThreadStep) :
    Numbered style (s.step step) := by
  rcases s.step_cases step with ⟨call, -, heq⟩ | ⟨place, c, -, hc, heq⟩ | ⟨place, -, -, heq⟩
  · have hnext : s.session.sequencer.generation + 1 = UInt64.ofNat (s.issued.length + 1) := by
      rw [h.generation, UInt64.ofNat_add]
      rfl
    rw [heq]
    refine ⟨h.style, ?_, fun place d hd => ?_, h.shows⟩
    · rw [List.length_append]
      exact hnext
    · rcases getElem?_concat_eq_some_iff.mp hd with hd | ⟨rfl, rfl⟩
      · exact h.ticket place d hd
      · exact hnext
  · obtain ⟨o, ho, hfinish⟩ := c.call.finish_cases s.session c.ticket
    obtain ⟨ds, hds⟩ := h.shows
    rw [heq]
    refine ⟨?_, ?_, fun other d hd => ?_, ?_⟩
    · rw [unlock, hfinish]
      exact h.style
    · rw [unlock, hfinish, List.length_set]
      exact h.generation
    · rw [getElem?_unlock hc] at hd
      split at hd
      · next hother =>
        obtain rfl := Option.some.inj hd
        exact hother ▸ h.ticket place c hc.1
      · exact h.ticket other d hd
    · rw [unlock, hfinish]
      rcases ho with rfl | ⟨ds', rfl⟩
      · exact ⟨ds, hds⟩
      · exact ⟨ds', hds.replace ds'⟩
  · rw [heq]
    exact h

theorem numbered_after (style : String) (steps : List ThreadStep) :
    Numbered style (after style steps) := by
  induction steps using List.reverseRecOn with
  | nil => exact numbered_new style
  | append_singleton steps step ih =>
    rw [after_concat]
    exact ih.step step

/-- As long as generations do not come round, the ticket of the last call alone is current. -/
theorem Numbered.isCurrent_iff (h : Numbered style s) (hfew : s.issued.length < 2 ^ 64)
    (hc : s.issued[place]? = some c) :
    s.session.sequencer.isCurrent c.ticket = true ↔ place + 1 = s.issued.length := by
  have hlt : place < s.issued.length := (List.getElem?_eq_some_iff.mp hc).1
  have hbehind : s.session.sequencer.generation =
      c.ticket.generation + UInt64.ofNat (s.issued.length - (place + 1)) := by
    rw [h.generation, h.ticket place c hc, ← UInt64.ofNat_add, Nat.add_sub_cancel' hlt]
  rw [Sequencer.isCurrent_iff hbehind (Nat.lt_of_le_of_lt (Nat.sub_le ..) hfew)]
  omega

/-- The call with the highest generation is the one that counted last. -/
theorem Numbered.eq_last_of_highest (h : Numbered style s) (hfew : s.issued.length < 2 ^ 64)
    (hc : s.Highest place c) : place + 1 = s.issued.length := by
  obtain ⟨hc, hhighest⟩ := hc
  have hlt : place < s.issued.length := (List.getElem?_eq_some_iff.mp hc).1
  have hlast : s.issued[s.issued.length - 1]? = some s.issued[s.issued.length - 1] :=
    List.getElem?_eq_getElem _
  have hle := hhighest _ (List.getElem_mem (by omega : s.issued.length - 1 < s.issued.length))
  rw [h.ticket _ _ hlast, h.ticket place c hc, Nat.sub_add_cancel (Nat.zero_lt_of_lt hlt),
    UInt64.le_iff_toNat_le, UInt64.toNat_ofNat_of_lt' hfew,
    UInt64.toNat_ofNat_of_lt' (Nat.lt_of_le_of_lt hlt hfew)] at hle
  exact Nat.le_antisymm hlt hle

/-! ## The call that counted last -/

/-- A call that has ended waits no more, whatever is done then. -/
theorem ended_step (step : ThreadStep) (hc : s.issued[place]? = some c) (hended : c.ended = true) :
    (s.step step).issued[place]? = some c := by
  rcases s.step_cases step with ⟨call, -, heq⟩ | ⟨other, d, -, hd, heq⟩ | ⟨other, -, -, heq⟩
  · rw [heq]
    exact getElem?_concat_eq_some_iff.mpr (.inl hc)
  · rw [heq, getElem?_unlock hd, if_neg, hc]
    rintro rfl
    obtain rfl := Option.some.inj (hc.symm.trans hd.1)
    rw [hd.2] at hended
    cases hended
  · rw [heq, hc]

theorem overtaken_concat (step : ThreadStep) : Overtaken style (steps ++ [step]) place ↔
    Overtaken style steps place ∨ step = .finish place ∧
      (∃ c, (after style steps).Waits place c) ∧ (after style steps).Clearing := by
  constructor
  · rintro ⟨front, back, c, heq, hwaits, hclearing⟩
    rcases List.eq_nil_or_concat' back with rfl | ⟨back, last, rfl⟩
    · obtain ⟨rfl, rfl⟩ := List.append_singleton_inj.mp heq
      exact .inr ⟨rfl, ⟨c, hwaits⟩, hclearing⟩
    · rw [← List.cons_append, ← List.append_assoc] at heq
      obtain ⟨rfl, -⟩ := List.append_singleton_inj.mp heq
      exact .inl ⟨front, back, c, rfl, hwaits, hclearing⟩
  · rintro (⟨front, back, c, rfl, hwaits, hclearing⟩ | ⟨rfl, ⟨c, hwaits⟩, hclearing⟩)
    · exact ⟨front, back ++ [step], c, by simp, hwaits, hclearing⟩
    · exact ⟨steps, [], c, rfl, hwaits, hclearing⟩

/-- A call that was overtaken has ended. -/
theorem Overtaken.not_waits (h : Overtaken style steps place) : ¬ (after style steps).Waits place c := by
  suffices hended : ∃ d, (after style steps).issued[place]? = some d ∧ d.ended = true by
    rintro ⟨hc, hwaits⟩
    obtain ⟨d, hd, hended⟩ := hended
    obtain rfl := Option.some.inj (hd.symm.trans hc)
    rw [hwaits] at hended
    cases hended
  induction steps using List.reverseRecOn with
  | nil =>
    obtain ⟨front, back, -, heq, -⟩ := h
    simp at heq
  | append_singleton steps step ih =>
    rw [after_concat]
    rcases (overtaken_concat step).mp h with h | ⟨rfl, ⟨d, hd⟩, -⟩
    · obtain ⟨d, hd, hended⟩ := ih h
      exact ⟨d, ended_step step hd hended, hended⟩
    · refine ⟨{ d with ended := true }, ?_, rfl⟩
      rw [step_finish hd, getElem?_unlock hd, if_pos rfl]

/-- What is on display once the call that counted last has ended. -/
inductive Settled (style : String) (steps : List ThreadStep) (place : Nat) : SessionCall → Prop
  | clear (shows : (after style steps).session.overlay.Shows []) : Settled style steps place .clear
  | shown {source : String} {tree : Tree}
      (shows : (after style steps).session.overlay.Shows (tree.erasureRanges source style))
      (overtaken : Overtaken style steps place ↔ (after style steps).Clearing) :
      Settled style steps place (.highlight source tree)
  | taken {source : String} {tree : Tree} (shows : (after style steps).session.overlay.Shows [])
      (overtaken : Overtaken style steps place) :
      Settled style steps place (.highlight source tree)

theorem Settled.shows {call : SessionCall} (h : Settled style steps place call) :
    ∃ ds, (after style steps).session.overlay.Shows ds := by
  cases h with
  | clear shows => exact ⟨_, shows⟩
  | shown shows => exact ⟨_, shows⟩
  | taken shows => exact ⟨_, shows⟩

theorem Settled.congr {steps' : List ThreadStep} {call : SessionCall}
    (h : Settled style steps place call)
    (hovertaken : Overtaken style steps' place ↔ Overtaken style steps place)
    (hoverlay : (after style steps').session.overlay = (after style steps).session.overlay)
    (hclearing : (after style steps').Clearing ↔ (after style steps).Clearing) :
    Settled style steps' place call := by
  cases h with
  | clear shows => exact .clear (hoverlay ▸ shows)
  | shown shows overtaken =>
    exact .shown (hoverlay ▸ shows) (hovertaken.trans (overtaken.trans hclearing.symm))
  | taken shows overtaken => exact .taken (hoverlay ▸ shows) (hovertaken.mpr overtaken)

/-- The call that counted last finds its ticket current when it gets the lock. -/
theorem settled_finish (hfew : (after style steps).issued.length < 2 ^ 64)
    (hc : (after style steps).Waits place c)
    (hlast : place + 1 = (after style steps).issued.length) :
    Settled style (steps ++ [.finish place]) place c.call := by
  have hnumbered := numbered_after style steps
  obtain ⟨ds, hds⟩ := hnumbered.shows
  have hstep : after style (steps ++ [.finish place]) = (after style steps).unlock place c := by
    rw [after_concat, step_finish hc]
  cases hcall : c.call with
  | clear =>
    refine .clear ?_
    rw [hstep, unlock, hcall]
    exact hds.replace []
  | highlight source tree =>
    have hcurrent := (hnumbered.isCurrent_iff hfew hc.1).mpr hlast
    have hfirst : ¬ Overtaken style steps place := fun h => h.not_waits hc
    refine .shown ?_ ?_
    · rw [hstep, unlock, hcall, SessionCall.finish_highlight_of_current hcurrent, hnumbered.style]
      exact hds.replace _
    · rw [overtaken_concat, or_iff_right hfirst, hstep, clearing_unlock hc (by simp [hcall])]
      exact ⟨fun h => h.2.2, fun h => ⟨rfl, ⟨c, hc⟩, h⟩⟩

/-- What the last call has left stays unless a clearing gets the lock after it. -/
theorem Settled.finish {other : Nat} {d : IssuedCall} {call : SessionCall}
    (h : Settled style steps place call) (hfew : (after style steps).issued.length < 2 ^ 64)
    (hd : (after style steps).Waits other d) (hne : other ≠ place)
    (hlast : place + 1 = (after style steps).issued.length) :
    Settled style (steps ++ [.finish other]) place call := by
  have hnumbered := numbered_after style steps
  have hovertaken : Overtaken style (steps ++ [.finish other]) place ↔
      Overtaken style steps place := by
    rw [overtaken_concat]
    refine or_iff_left ?_
    rintro ⟨heq, -⟩
    exact hne (ThreadStep.finish.inj heq)
  have hstep : after style (steps ++ [.finish other]) = (after style steps).unlock other d := by
    rw [after_concat, step_finish hd]
  cases hcall : d.call with
  | clear =>
    have hnothing : (after style (steps ++ [.finish other])).session.overlay.Shows [] := by
      obtain ⟨ds, hds⟩ := h.shows
      rw [hstep, unlock, hcall]
      exact hds.replace []
    cases h with
    | clear => exact .clear hnothing
    | shown _ overtaken => exact .taken hnothing (hovertaken.mpr (overtaken.mpr ⟨other, d, hd, hcall⟩))
    | taken _ overtaken => exact .taken hnothing (hovertaken.mpr overtaken)
  | highlight source tree =>
    have hstale : (after style steps).session.sequencer.isCurrent d.ticket = false := by
      rw [Bool.eq_false_iff, Ne, hnumbered.isCurrent_iff hfew hd.1, ← hlast]
      exact fun heq => hne (Nat.succ.inj heq)
    refine h.congr hovertaken ?_ ?_
    · rw [hstep, unlock, hcall, SessionCall.finish_highlight_of_not_current hstale]
    · rw [hstep]
      exact clearing_unlock hd (by simp [hcall])

theorem settled_after (hfew : (after style steps).issued.length < 2 ^ 64)
    (hc : (after style steps).issued[place]? = some c) (hended : c.ended = true)
    (hlast : place + 1 = (after style steps).issued.length) :
    Settled style steps place c.call := by
  induction steps using List.reverseRecOn generalizing c with
  | nil => cases hc
  | append_singleton steps step ih =>
    rw [after_concat] at hfew hc hlast
    rcases (after style steps).step_cases step with
      ⟨call, -, heq⟩ | ⟨other, d, rfl, hd, heq⟩ | ⟨other, rfl, hnone, heq⟩
    · -- the last call has just counted, and has not ended
      rw [heq] at hc hlast
      rcases getElem?_concat_eq_some_iff.mp hc with hc | ⟨-, rfl⟩
      · have hlt := (List.getElem?_eq_some_iff.mp hc).1
        simp only [List.length_append, List.length_singleton] at hlast
        omega
      · cases hended
    · have hlength : (after style steps).issued.length = place + 1 := by
        rw [hlast, heq, unlock, List.length_set]
      rw [heq, unlock, List.length_set] at hfew
      rw [heq, getElem?_unlock hd] at hc
      by_cases hplace : place = other
      · subst hplace
        rw [if_pos rfl] at hc
        obtain rfl : { d with ended := true } = c := Option.some.inj hc
        have hsettled := settled_finish hfew hd hlength.symm
        exact hsettled
      · rw [if_neg hplace] at hc
        exact (ih hfew hc hended hlength.symm).finish hfew hd (Ne.symm hplace) hlength.symm
    · have hsame : after style (steps ++ [.finish other]) = after style steps := by
        rw [after_concat, heq]
      rw [heq] at hfew hc hlast
      refine (ih hfew hc hended hlast).congr ?_ (by rw [hsame]) (by rw [hsame])
      rw [overtaken_concat]
      refine or_iff_left ?_
      rintro ⟨hfinish, ⟨d, hd⟩, -⟩
      exact hnone d (ThreadStep.finish.inj hfinish ▸ hd)

theorem Quiet.not_clearing (h : s.Quiet) : ¬ s.Clearing := by
  rintro ⟨place, c, ⟨hc, hwaits⟩, -⟩
  rw [h c (List.mem_of_getElem? hc)] at hwaits
  cases hwaits

/-- What is on display when no call is under way, told by the call with the highest generation.
After a clearing it is nothing. After a run it is what is erased in the source of the run, unless a
clearing that waited for the lock when the run got it has taken that away. -/
theorem highest_generation_shows (style : String) (steps : List ThreadStep)
    (hfew : (after style steps).issued.length < 2 ^ 64) (hquiet : (after style steps).Quiet)
    {place : Nat} {c : IssuedCall} (hc : (after style steps).Highest place c) :
    (c.call = .clear → (after style steps).session.overlay.Shows []) ∧
    ∀ source tree, c.call = .highlight source tree →
      ((after style steps).session.overlay.Shows (tree.erasureRanges source style) ↔
        ¬ Overtaken style steps place ∨ tree.erasureRanges source style = []) ∧
      (Overtaken style steps place → (after style steps).session.overlay.Shows []) := by
  have hlast := (numbered_after style steps).eq_last_of_highest hfew hc
  have hended := hquiet c (List.mem_of_getElem? hc.1)
  have hsettled := settled_after hfew hc.1 hended hlast
  constructor
  · intro hcall
    rw [hcall] at hsettled
    cases hsettled with
    | clear shows => exact shows
  · intro source tree hcall
    rw [hcall] at hsettled
    cases hsettled with
    | shown shows overtaken =>
      have hnot : ¬ Overtaken style steps place := fun h =>
        hquiet.not_clearing (overtaken.mp h)
      exact ⟨iff_of_true shows (.inl hnot), fun h => absurd h hnot⟩
    | taken shows overtaken =>
      refine ⟨⟨fun hranges => .inr ?_, ?_⟩, fun _ => shows⟩
      · exact hranges.live.symm.trans shows.live
      · rintro (hnot | hempty)
        · exact absurd overtaken hnot
        · exact hempty ▸ shows

/-- A clearing counts before a run and gets the lock after it. -/
def overtakenRun : List ThreadStep :=
  [.issue .clear, .issue (.highlight "const x: T = 1" .typedDeclaration), .finish 1, .finish 0]

def overtakenCall : IssuedCall :=
  ⟨.highlight "const x: T = 1" .typedDeclaration, ⟨2⟩, true⟩

theorem quiet_overtakenRun : (after "erased" overtakenRun).Quiet := by
  unfold Quiet
  decide

theorem highest_overtakenRun : (after "erased" overtakenRun).Highest 1 overtakenCall :=
  ⟨rfl, by decide⟩

theorem highest_generation_shows_overtakenRun :
    (after "erased" overtakenRun).issued.length < 2 ^ 64 ∧
    (after "erased" overtakenRun).Quiet ∧
    (after "erased" overtakenRun).Highest 1 overtakenCall ∧
    Overtaken "erased" overtakenRun 1 ∧ (after "erased" overtakenRun).session.overlay.Shows [] := by
  have hfew : (after "erased" overtakenRun).issued.length < 2 ^ 64 := by decide
  have hovertaken : Overtaken "erased" overtakenRun 1 :=
    ⟨[.issue .clear, .issue (.highlight "const x: T = 1" .typedDeclaration)], [.finish 0], _, rfl,
      ⟨rfl, rfl⟩, 0, _, ⟨rfl, rfl⟩, rfl⟩
  have hshows := ((highest_generation_shows _ _ hfew quiet_overtakenRun
    highest_overtakenRun).2 _ _ rfl).2 hovertaken
  exact ⟨hfew, quiet_overtakenRun, highest_overtakenRun, hovertaken, hshows⟩

/-- The call with the highest generation is the one whose effect is left, once no call is under
way. -/
def HighestWins (style : String) (steps : List ThreadStep) : Prop :=
  (after style steps).Quiet → ∀ place c, (after style steps).Highest place c →
    (c.call = .clear → (after style steps).session.overlay.Shows []) ∧
    ∀ source tree, c.call = .highlight source tree →
      (after style steps).session.overlay.Shows (tree.erasureRanges source style)

/-- The run took the highest generation, but nothing is on display. -/
theorem not_highestWins_overtakenRun : ¬ HighestWins "erased" overtakenRun := by
  intro hwins
  have hshows := (hwins quiet_overtakenRun 1 overtakenCall highest_overtakenRun).2 _ _ rfl
  have hnothing : (after "erased" overtakenRun).session.overlay.surface.live = [] := by decide
  have hranges : Tree.typedDeclaration.erasureRanges "const x: T = 1" "erased" ≠ [] := by decide
  rw [← hshows.live, hnothing] at hranges
  exact hranges rfl

end SharedSession

end TypeErasure
