import ExactAlgebra.Console
import ExactAlgebra.Proofs.Failure

/-!
# A failing line fails alone

A batch of lines gives one line of output for every line that is not blank, whatever the others do.
The one thing that ends it early is a nested entry that has gone when it is to be merged, and then
the merges in that line were not timely.

* `Answer`: the output for a line, which is its result or the report of a fault.
* `process_cases`: how the work on a line can end.
* `run_isolates`: every line gives its answer, unless a missing entry ends the batch.
-/

namespace ExactAlgebra

open Build

/-- The fault lies with what was given. -/
def Fault.IsReported : Fault → Prop
  | .text _ | .divisionByZero _ | .undefinedPower _ _ | .unboundVariable _ => True
  | .missingEntry _ | .emptyBinding | .exhausted => False

theorem Fault.Explained.cases {timely : Bool} {f : Fault} (h : f.Explained timely) :
    f.IsReported ∨ ∃ key, f = .missingEntry key ∧ timely = false := by
  cases f with
  | missingEntry key => exact .inr ⟨key, rfl, h⟩
  | emptyBinding => exact h.elim
  | exhausted => exact h.elim
  | _ => exact .inl trivial

namespace Console

theorem isLocal_of_isReported {f : Fault} (h : f.IsReported) :
    (Problem.fault f).isLocal = true := by
  cases f with
  | missingEntry key => exact h.elim
  | emptyBinding => exact h.elim
  | exhausted => exact h.elim
  | _ => rfl

theorem readBindings_explained (limit : Int) {pairs : List (Option (String × String))}
    (h : ∀ p ∈ pairs, p.isSome = true) (bound : Bindings) :
    Explained (readBindings limit pairs bound) := by
  induction pairs generalizing bound with
  | nil => exact .pure
  | cons p pairs ih =>
    rw [List.forall_mem_cons] at h
    obtain ⟨⟨name, source⟩, rfl⟩ := Option.isSome_iff_exists.mp h.1
    exact .ite (ih h.2 _) ((Expr.parse_explained limit source).bind fun _ => ih h.2 _)

variable {t : Task}

/-- All faults of a line can be explained. -/
theorem expression_explained (hb : ∀ b ∈ t.bindings, b.isSome = true) (line : String) :
    Explained (t.expression line) := by
  refine (Expr.parse_explained _ line).bind fun e => ?_
  have hevaluate : ∀ e : Expr, Explained (if t.evaluate then (do
      e.evaluate (← readBindings t.bindingLimit t.bindings [])) else return e) := fun e =>
    .ite ((readBindings_explained _ hb []).bind fun _ => e.substitute_explained _) .pure
  exact .ite (e.simplify_explained.bind hevaluate) (FailsWith.pure.bind hevaluate)

/-- The work on a line gives a result, or it fails with a fault that is reported, or else an entry
is missing, and then the merges were not timely. -/
theorem process_cases (hb : ∀ b ∈ t.bindings, b.isSome = true)
    (hs : ∀ name, t.style = some name → (Style.ofName? name).isSome = true) (line : String) :
    (∃ text, process t line = .ok text) ∨
      (∃ f : Fault, f.IsReported ∧ process t line = .error (.fault f)) ∨
      ∃ key, process t line = .error (.fault (.missingEntry key)) ∧
        (t.expression line .initial).2.timely = false := by
  rw [process]
  cases he : (t.expression line).run with
  | error f =>
    rcases (expression_explained hb line _ _ he).cases with hf | ⟨key, rfl, ht⟩
    · exact .inr (.inl ⟨f, hf, rfl⟩)
    · exact .inr (.inr ⟨key, rfl, ht⟩)
  | ok e =>
    refine .inl ?_
    cases hstyle : t.style with
    | none => exact ⟨_, rfl⟩
    | some name =>
      obtain ⟨style, hname⟩ := Option.isSome_iff_exists.mp (hs name hstyle)
      simp only [hname]
      exact ⟨_, rfl⟩

/-- The lines that are not blank, without the blanks at their ends. -/
def nonblank (lines : List String) : List String :=
  lines.filterMap fun line =>
    match Text.trim line.toList with
    | [] => none
    | text => some (String.ofList text)

/-- The first of some lines is passed over if it is blank, and otherwise it is worked on. -/
theorem run_cons (t : Task) (line : String) (lines : List String) :
    (nonblank (line :: lines) = nonblank lines ∧ run t (line :: lines) = run t lines) ∨
      ∃ text, nonblank (line :: lines) = text :: nonblank lines ∧
        run t (line :: lines) = match process t text with
          | .ok result => { run t lines with output := result :: (run t lines).output }
          | .error problem =>
            if problem.isLocal then
              { run t lines with
                output := ("error: " ++ problem.message) :: (run t lines).output
                failures := (run t lines).failures + 1 }
            else ⟨[], 0, some problem⟩ := by
  rw [nonblank, List.filterMap_cons, run]
  cases h : Text.trim line.toList with
  | nil => exact .inl ⟨rfl, rfl⟩
  | cons c text => exact .inr ⟨_, rfl, rfl⟩

/-- The output for a line: its result, or the report of the fault with which it fails. -/
inductive Answer (t : Task) (line : String) : String → Prop where
  | result {text : String} (h : process t line = .ok text) : Answer t line text
  | failure {f : Fault} (hf : f.IsReported) (h : process t line = .error (.fault f)) :
    Answer t line ("error: " ++ f.message)

def failing (t : Task) (lines : List String) : Nat :=
  lines.countP fun line => !(process t line).isOk

/-- The output has the answers for all of the lines, and the number of those that fail. -/
structure Answers (t : Task) (lines : List String) (r : Report) : Prop where
  output : List.Forall₂ (Answer t) lines r.output
  failures : r.failures = failing t lines

theorem Answers.result {lines : List String} {r : Report} (h : Answers t lines r)
    {line text : String} (hline : process t line = .ok text) :
    Answers t (line :: lines) { r with output := text :: r.output } where
  output := .cons (.result hline) h.output
  failures := by rw [failing, List.countP_cons, hline]; exact h.failures

theorem Answers.failure {lines : List String} {r : Report} (h : Answers t lines r) {line : String}
    {f : Fault} (hf : f.IsReported) (hline : process t line = .error (.fault f)) :
    Answers t (line :: lines)
      { r with output := ("error: " ++ f.message) :: r.output, failures := r.failures + 1 } where
  output := .cons (.failure hf hline) h.output
  failures := by rw [failing, List.countP_cons, hline, h.failures]; rfl

/-- **A failing line fails alone.**  A batch ends with the answers for all lines that are not blank,
unless a missing entry ends it, after the answers for the lines before; then the merges in that line
were not timely. -/
theorem run_isolates (hb : ∀ b ∈ t.bindings, b.isSome = true)
    (hs : ∀ name, t.style = some name → (Style.ofName? name).isSome = true) (lines : List String) :
    (run t lines).stop = none ∧ Answers t (nonblank lines) (run t lines) ∨
      ∃ finished line rest key, nonblank lines = finished ++ line :: rest ∧
        Answers t finished (run t lines) ∧
        process t line = .error (.fault (.missingEntry key)) ∧
        (run t lines).stop = some (.fault (.missingEntry key)) ∧
        (t.expression line .initial).2.timely = false := by
  induction lines with
  | nil => exact .inl ⟨rfl, .nil, rfl⟩
  | cons line lines ih =>
    rcases run_cons t line lines with ⟨hlines, hrun⟩ | ⟨text, hlines, hrun⟩
    · rw [hlines, hrun]
      exact ih
    rw [hlines, hrun]
    rcases process_cases hb hs text with ⟨result, hp⟩ | ⟨f, hf, hp⟩ | ⟨key, hp, htimely⟩
    · rw [hp]
      rcases ih with ⟨hstop, h⟩ | ⟨finished, line', rest, key, hsplit, h, hrest⟩
      · exact .inl ⟨hstop, h.result hp⟩
      · exact .inr ⟨text :: finished, line', rest, key, by rw [hsplit]; rfl, h.result hp, hrest⟩
    · rw [hp]
      simp only [isLocal_of_isReported hf, if_true]
      rcases ih with ⟨hstop, h⟩ | ⟨finished, line', rest, key, hsplit, h, hrest⟩
      · exact .inl ⟨hstop, h.failure hf hp⟩
      · exact .inr ⟨text :: finished, line', rest, key, by rw [hsplit]; rfl, h.failure hf hp, hrest⟩
    · rw [hp]
      exact .inr ⟨[], text, nonblank lines, key, rfl, ⟨.nil, rfl⟩, hp, rfl, htimely⟩

/-- A division by zero, an undefined power and a variable without a value do not keep the line
between them from being worked on. -/
theorem run_isolates_faults :
    (run ⟨[some ("x", "2")], true, true, none, 200, 200⟩
      ["1/0", " x^3-1", "", "0^(-x)", "y"]).stop = none ∧
      Answers ⟨[some ("x", "2")], true, true, none, 200, 200⟩ ["1/0", "x^3-1", "0^(-x)", "y"]
        (run ⟨[some ("x", "2")], true, true, none, 200, 200⟩
          ["1/0", " x^3-1", "", "0^(-x)", "y"]) := by
  have hnonblank : nonblank ["1/0", " x^3-1", "", "0^(-x)", "y"] =
      ["1/0", "x^3-1", "0^(-x)", "y"] := by cbv
  have hisolates := run_isolates (t := ⟨[some ("x", "2")], true, true, none, 200, 200⟩) (by simp)
    (by simp) ["1/0", " x^3-1", "", "0^(-x)", "y"]
  rw [hnonblank] at hisolates
  refine hisolates.resolve_right ?_
  rintro ⟨finished, line, rest, key, hlines, -, hp, -⟩
  have hline : line ∈ ["1/0", "x^3-1", "0^(-x)", "y"] := by rw [hlines]; simp
  simp only [List.mem_cons, List.not_mem_nil, or_false] at hline
  rcases hline with rfl | rfl | rfl | rfl
  · have hfault : process ⟨[some ("x", "2")], true, true, none, 200, 200⟩ "1/0" =
      .error (.fault (.divisionByZero 1)) := by cbv
    cases hfault.symm.trans hp
  · have hresult : process ⟨[some ("x", "2")], true, true, none, 200, 200⟩ "x^3-1" =
      .ok "7" := by cbv
    cases hresult.symm.trans hp
  · have hfault : process ⟨[some ("x", "2")], true, true, none, 200, 200⟩ "0^(-x)" =
      .error (.fault (.undefinedPower 0 (-2))) := by cbv
    cases hfault.symm.trans hp
  · have hfault : process ⟨[some ("x", "2")], true, true, none, 200, 200⟩ "y" =
      .error (.fault (.unboundVariable "y")) := by cbv
    cases hfault.symm.trans hp

set_option maxRecDepth 2048 in
/-- A line in which a nested product is cancelled before its turn to be merged ends the batch. -/
theorem run_not_isolates : ¬ ∀ (t : Task) (lines : List String),
    (∀ b ∈ t.bindings, b.isSome = true) →
    (∀ name, t.style = some name → (Style.ofName? name).isSome = true) →
    (run t lines).stop = none ∧ Answers t (nonblank lines) (run t lines) := by
  intro h
  have hstop : (run ⟨[], false, false, none, 200, 200⟩
      ["((xy)^(-1)z)^2((xy)^(-1)z)^(-1)(xy)^2(xy)^(-1)"]).stop.isSome = true := by cbv
  rw [(h ⟨[], false, false, none, 200, 200⟩ ["((xy)^(-1)z)^2((xy)^(-1)z)^(-1)(xy)^2(xy)^(-1)"]
    (by simp) (by simp)).1] at hstop
  cases hstop

end Console

end ExactAlgebra
