import FilterEditor.Proofs.View

/-!
# The latest evaluation wins

The number of the generation never falls, and it grows whenever the view changes.  So a ticket that is
still good was given out for the very view that the session has now (`view_run_of_generation_eq`): a
result that is taken belongs to the tree, the selection and the input of the moment, and no result
that is late can take its place.

The number grows by at most one with each command (`generation_run_le`), so a counter of 64 bits
does not come round in fewer than 2 ^ 64 commands.
-/

namespace FilterEditor

namespace Session

/-! ## Generations along a run -/

theorem generation_le_run (cs : List Command) (s : Session) :
    s.generation ≤ (run cs s).generation := by
  induction cs generalizing s with
  | nil => exact Nat.le_refl _
  | cons c rest ih => exact Nat.le_trans (moves_perform c s).generation_le (ih _)

theorem generation_run_le (cs : List Command) (s : Session) :
    (run cs s).generation ≤ s.generation + cs.length := by
  induction cs generalizing s with
  | nil => exact Nat.le_refl _
  | cons c rest ih =>
    have hstep := (moves_perform c s).generation_le_succ
    have hrest : (run (c :: rest) s).generation ≤ _ := ih (perform c s).2
    rw [List.length_cons]
    omega

/-- Within one generation the view stays as it is. -/
theorem view_run_of_generation_eq {cs : List Command} {s : Session}
    (h : (run cs s).generation = s.generation) : (run cs s).view = s.view := by
  induction cs generalizing s with
  | nil => rfl
  | cons c rest ih =>
    have hrest := generation_le_run rest (perform c s).2
    have hrun : run (c :: rest) s = run rest (perform c s).2 := rfl
    rw [hrun] at h ⊢
    cases moves_perform c s with
    | still hview hgen => exact (ih (h.trans hgen.symm)).trans hview
    | turn _ hgen =>
      -- a turn starts a generation that the run cannot leave for the old one
      rw [hgen] at hrest
      omega

/-! ## Results -/

variable {s : Session} {ticket : Ticket} {result : EvaluationResult}

theorem completeEvaluation_of_eq (h : ticket.generation = s.generation) :
    s.completeEvaluation ticket result =
      (true, { s with output := some (showResult s.config result) }) :=
  if_pos h

theorem completeEvaluation_of_ne (h : ticket.generation ≠ s.generation) :
    s.completeEvaluation ticket result = (false, s) :=
  if_neg h

theorem completeEvaluation_accepts_iff :
    (s.completeEvaluation ticket result).1 = true ↔ ticket.generation = s.generation := by
  by_cases h : ticket.generation = s.generation
  · simp [completeEvaluation_of_eq, h]
  · simp [completeEvaluation_of_ne, h]

theorem run_requestEvaluation (s : Session) (sandbox : Sandbox) :
    s.requestEvaluation.run sandbox =
      readInput s.input >>= fun document => sandbox document s.activeExpression := by
  simp only [EvaluationRequest.run, requestEvaluation]
  cases readInput s.input with
  | ok document => rfl
  | error e => rfl

theorem evaluateWith_eq (s : Session) (sandbox : Sandbox) :
    s.evaluateWith sandbox =
      (showResult s.config (s.requestEvaluation.run sandbox),
        { s with output := some (showResult s.config (s.requestEvaluation.run sandbox)) }) := by
  rw [evaluateWith, completeEvaluation_of_eq rfl]
  rfl

/-- **The latest evaluation wins.**  When the result of a request is taken, the session shows what it
showed when the request was made; a result that is refused changes nothing; and an evaluation at
once is always in time and answers the text for what the session shows now. -/
theorem latest_wins (start : Session) (before between : List Command) (ticket : Ticket)
    (result : EvaluationResult) (sandbox : Sandbox) :
    let asked := run before start
    let request := asked.requestEvaluation
    let now := run (before ++ between) start
    let text := showResult now.config
      (readInput now.input >>= fun document => sandbox document now.activeExpression)
    ((now.completeEvaluation request.ticket result).1 = true →
      now.document.root = asked.document.root ∧ now.selectedPath? = asked.selectedPath? ∧
        now.input = asked.input ∧ now.input = request.input ∧
          now.activeExpression = request.expression) ∧
      ((now.completeEvaluation ticket result).1 = false →
        (now.completeEvaluation ticket result).2 = now) ∧
      (now.completeEvaluation now.requestEvaluation.ticket
        (now.requestEvaluation.run sandbox)).1 = true ∧
      now.evaluateWith sandbox = (text, { now with output := some text }) := by
  intro asked request now text
  refine ⟨fun htaken => ?_, fun hrefused => ?_, ?_, ?_⟩
  · have hgen : now.generation = asked.generation := (completeEvaluation_accepts_iff.mp htaken).symm
    have hnow : now = run between asked := run_append before between start
    have hview : now.view = asked.view := by
      rw [hnow] at hgen ⊢
      exact view_run_of_generation_eq hgen
    have hinput : now.input = asked.input := congrArg View.input hview
    have hactive : now.activeExpression = asked.activeExpression := by
      rw [activeExpression_eq, activeExpression_eq, hview]
    exact ⟨congrArg View.root hview, congrArg View.selected? hview, hinput, hinput, hactive⟩
  · have hne : ticket.generation ≠ now.generation := fun heq => by
      rw [completeEvaluation_of_eq heq] at hrefused
      cases hrefused
    rw [completeEvaluation_of_ne hne]
  · exact completeEvaluation_accepts_iff.mpr rfl
  · rw [evaluateWith_eq, run_requestEvaluation]

/-- An undo without a step and a mutation that does not fit do not make a request out of date. -/
theorem latest_wins_in_time :
    let start := ofConfig "" .new .standard
    let before : List Command := [.setInput "1", .toggleSelection [.index 0]]
    let between : List Command := [.begin "", .apply (.appendBranch []), .undo, .finish]
    let request := (run before start).requestEvaluation
    let now := run (before ++ between) start
    (now.completeEvaluation request.ticket (.error (.runtime ""))).1 = true ∧
      now.input = request.input ∧ now.activeExpression = request.expression := by
  intro start before between request now
  have htaken : (now.completeEvaluation request.ticket (.error (.runtime ""))).1 = true := by decide
  obtain ⟨hlatest, -⟩ := latest_wins start before between request.ticket (.error (.runtime ""))
    fun value _ => .ok value
  obtain ⟨-, -, -, hinput, hactive⟩ := hlatest htaken
  exact ⟨htaken, hinput, hactive⟩

end Session

end FilterEditor
