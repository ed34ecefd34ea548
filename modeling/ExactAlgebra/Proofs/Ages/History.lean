import ExactAlgebra.Console
import ExactAlgebra.Proofs.Ages.Steps

/-!
# What was built before

A script is run again in a process that has a history: other nodes have been built before it, others
are built between its steps, and the serial numbers that it is given are any ascending ones.  It
does not notice.  Every step returns the same value but for ages, or fails with the same fault, and
so it is printed the same in every style.  The same holds of the lines that the console works on.

* `Script.runAmong`: the answers of the steps, while others build nodes as well.
* `Console.session`: the outputs of lines, worked on one after the other in one process.
* `history_unobservable`: neither depends on what else is built.
-/

namespace ExactAlgebra

variable {W V : Pairing}

/-- A fault is reported without ages. -/
theorem Fault.message_ageless (e : Fault) : e.ageless.message = e.message := by
  cases e with
  | missingEntry key => exact Expr.format_ageless .text key
  | _ => rfl

namespace Script

/-! ## Operands -/

def Step.operands {α : Type} : Step α → List α
  | .parse _ _ | .number _ | .constant _ => []
  | .variable a | .unary _ a | .get a _ | .entry a _ _ _ => [a]
  | .rational args => args
  | .arithmetic _ a b | .compare _ a b | .compareBases a b | .compareTerms a b | .ofPower a b
  | .format a b => [a, b]
  | .ofSum addends => addends.map Prod.fst
  | .ofProduct factors divisors => factors ++ divisors
  | .evaluate a bindings _ values => a :: (bindings.map Prod.snd ++ values.map Prod.snd)
  | .call a _ args => a :: args

end Script

mutual

def Value.isPlain : Value → Bool
  | .expr _ => false
  | .tuple items => itemsPlain items
  | _ => true

def Value.itemsPlain : List Value → Bool
  | [] => true
  | item :: items => item.isPlain && itemsPlain items

end

mutual

theorem Value.Alike.of_isPlain {v : Value} (h : v.isPlain = true) : v.Alike W v := by
  cases v with
  | expr e => exact nomatch h
  | tuple items => exact .tuple (Value.items_alike h)
  | _ => constructor

theorem Value.items_alike {items : List Value} (h : Value.itemsPlain items = true) :
    List.Forall₂ (Value.Alike W) items items := by
  match items with
  | [] => exact .nil
  | item :: items =>
    rw [Value.itemsPlain, Bool.and_eq_true] at h
    exact .cons (.of_isPlain h.1) (Value.items_alike h.2)

end

namespace Script

/-- The operand is written out without an expression, or it is the result of an earlier step. -/
def Source.isWritten : Source → Bool
  | .literal v => v.isPlain
  | .result _ => true

/-- The step is written without expressions, and its constant is one of the library. -/
def Step.isWritten (step : Step Source) : Bool :=
  step.operands.all Source.isWritten &&
    match step with
    | .constant n => constants.any fun p => p.2.value == n.value && p.2.age == n.age
    | _ => true

theorem Step.isWritten_operands {step : Step Source} (h : step.isWritten = true) :
    ∀ source ∈ step.operands, source.isWritten = true :=
  List.all_eq_true.mp (Bool.and_eq_true_iff.mp h).1

/-! ## Looking up operands -/

section Lookup

variable {α β γ δ : Type} {R : α → β → Prop} {S : γ → δ → Prop}

theorem rel_bind {x : Option α} {x' : Option β} {f : α → Option γ} {f' : β → Option δ}
    (h : Option.Rel R x x') (hf : ∀ a a', R a a' → Option.Rel S (f a) (f' a')) :
    Option.Rel S (x >>= f) (x' >>= f') := by
  cases h with
  | none => exact .none
  | some h => exact hf _ _ h

theorem rel_mapM {l : List α} {f : α → Option γ} {f' : α → Option δ}
    (h : ∀ a ∈ l, Option.Rel S (f a) (f' a)) :
    Option.Rel (List.Forall₂ S) (l.mapM f) (l.mapM f') := by
  induction l with
  | nil => exact .some .nil
  | cons a l ih =>
    rw [List.forall_mem_cons] at h
    rw [List.mapM_cons, List.mapM_cons]
    exact rel_bind h.1 fun _ _ ha => rel_bind (ih h.2) fun _ _ hl => .some (.cons ha hl)

end Lookup

/-- Looking up alike values for the operands of a step gives the same step with alike operands. -/
theorem Step.mapM?_alike {step : Step Source} {f f' : Source → Option Value}
    (hf : ∀ source ∈ step.operands, Option.Rel (Value.Alike W) (f source) (f' source))
    (hstep : step.isWritten = true) :
    Option.Rel (Step.Alike W) (step.mapM? f) (step.mapM? f') := by
  have hnamed {pairs : Pairs Source} (h : ∀ source ∈ pairs.map Prod.snd,
      Option.Rel (Value.Alike W) (f source) (f' source)) :
      Option.Rel (AlikePairs W) (pairs.mapM fun (name, v) => do return (name, ← f v))
        (pairs.mapM fun (name, v) => do return (name, ← f' v)) :=
    rel_mapM fun p hp => rel_bind (h _ (List.mem_map_of_mem hp)) fun _ _ hv => .some ⟨rfl, hv⟩
  have hone {a : Source} {make : Value → Step Value} (ha : a ∈ step.operands)
      (hmake : ∀ {v v'}, v.Alike W v' → Step.Alike W (make v) (make v')) :
      Option.Rel (Step.Alike W) (do return make (← f a)) (do return make (← f' a)) :=
    rel_bind (hf a ha) fun _ _ h => .some (hmake h)
  have htwo {a b : Source} {make : Value → Value → Step Value} (h : step.operands = [a, b])
      (hmake : ∀ {v v' w w'}, v.Alike W v' → w.Alike W w' → Step.Alike W (make v w) (make v' w')) :
      Option.Rel (Step.Alike W) (do return make (← f a) (← f b))
        (do return make (← f' a) (← f' b)) :=
    rel_bind (hf a (h ▸ List.mem_cons_self)) fun _ _ ha =>
      rel_bind (hf b (h ▸ List.mem_cons_of_mem _ List.mem_cons_self)) fun _ _ hb =>
        .some (hmake ha hb)
  cases step with
  | parse text limit => exact .some (.parse text limit)
  | number text => exact .some (.number text)
  | «variable» name => exact hone List.mem_cons_self .variable
  | rational args => exact rel_bind (rel_mapM hf) fun _ _ h => .some (.rational h)
  | constant n =>
    have hconstants : ∀ p ∈ constants, p.2.age < Num.constants := by decide
    obtain ⟨p, hp, he⟩ := List.any_eq_true.mp hstep
    rw [Bool.and_eq_true, beq_iff_eq, beq_iff_eq] at he
    exact .some (.constant (.of_constant (he.2 ▸ hconstants p hp)))
  | arithmetic op a b => exact htwo rfl (.arithmetic op)
  | compare relation a b => exact htwo rfl (.compare relation)
  | compareBases a b => exact htwo rfl .compareBases
  | compareTerms a b => exact htwo rfl .compareTerms
  | ofPower a b => exact htwo rfl .ofPower
  | ofSum addends =>
    have haddends : Option.Rel
        (List.Forall₂ fun (p p' : Value × Option Int) => p.1.Alike W p'.1 ∧ p.2 = p'.2)
        (addends.mapM fun (a, sign) => do return (← f a, sign))
        (addends.mapM fun (a, sign) => do return (← f' a, sign)) :=
      rel_mapM fun p hp => rel_bind (hf _ (List.mem_map_of_mem hp)) fun _ _ ha => .some ⟨ha, rfl⟩
    exact rel_bind haddends fun _ _ h => .some (.ofSum h)
  | ofProduct factors divisors =>
    rw [operands, List.forall_mem_append] at hf
    exact rel_bind (rel_mapM hf.1) fun _ _ h => rel_bind (rel_mapM hf.2) fun _ _ h' =>
      .some (.ofProduct h h')
  | unary op a => exact hone List.mem_cons_self (.unary op)
  | evaluate a bindings overwrite values =>
    rw [operands, List.forall_mem_cons, List.forall_mem_append] at hf
    exact rel_bind hf.1 fun _ _ ha => rel_bind (hnamed hf.2.1) fun _ _ hb =>
      rel_bind (hnamed hf.2.2) fun _ _ hv => .some (.evaluate overwrite ha hb hv)
  | format a style => exact htwo rfl .format
  | get a part => exact hone List.mem_cons_self (.get part)
  | entry a part index side => exact hone List.mem_cons_self (.entry part index side)
  | call a method args =>
    rw [operands, List.forall_mem_cons] at hf
    exact rel_bind hf.1 fun _ _ ha => rel_bind (rel_mapM hf.2) fun _ _ h =>
      .some (.call method ha h)

/-! ## Answers -/

theorem Fault.message_ageless (e : Fault) : e.ageless.message = e.message := by
  cases e with
  | build e => exact e.message_ageless
  | _ => rfl

namespace Answer

def ageless : Answer → Answer
  | .value v => .value v.ageless
  | .fault e => .fault e.ageless
  | .skipped => .skipped

/-- The answer as it is printed: an expression in a style, any other value as it is shown, and a
fault by its message. -/
def printed (style : Style) : Answer → String
  | .value (.expr e) => e.format style
  | .value v => v.shown
  | .fault e => e.message
  | .skipped => ""

theorem printed_ageless (style : Style) (a : Answer) :
    a.ageless.printed style = a.printed style := by
  cases a with
  | value v =>
    cases v with
    | expr e => exact Expr.format_ageless style e
    | tuple items => exact Value.shown_ageless _
    | _ => rfl
  | fault e => exact e.message_ageless
  | skipped => rfl

inductive Alike (W : Pairing) : Answer → Answer → Prop
  | value {v v' : Value} : v.Alike W v' → Alike W (.value v) (.value v')
  | fault {e e' : Fault} : e.ageless = e'.ageless → Alike W (.fault e) (.fault e')
  | skipped : Alike W .skipped .skipped

theorem Alike.mono {a a' : Answer} (hV : W ≤ V) (h : Alike W a a') : Alike V a a' := by
  cases h with
  | value hv => exact .value (hv.mono hV)
  | fault he => exact .fault he
  | skipped => exact .skipped

theorem Alike.ageless_eq {a a' : Answer} (h : Alike W a a') : a.ageless = a'.ageless := by
  cases h with
  | value hv => rw [ageless, ageless, hv.ageless_eq]
  | fault he => rw [ageless, ageless, he]
  | skipped => rfl

end Answer

/-! ## Running a script -/

/-- The answers of the steps after those that are already answered, while others build nodes as
well: `others i` is what becomes of the supply before step `i`. -/
def runAmong (others : Nat → Supply → Supply) (supply : Supply) (answers : Array Answer) :
    List (Step Source) → List Answer
  | [] => answers.toList
  | step :: steps =>
    match step.mapM? (Source.value? answers) with
    | none => runAmong others supply (answers.push .skipped) steps
    | some step =>
      match step.perform (others answers.size supply) with
      | .ok (v, supply) => runAmong others supply (answers.push (.value v)) steps
      | .error fault =>
        runAmong others (others answers.size supply) (answers.push (.fault fault)) steps

section Run

variable {answers answers' : Array Answer}
  (ha : List.Forall₂ (Answer.Alike W) answers.toList answers'.toList)

include ha

theorem value?_alike {source : Source} (h : source.isWritten = true) :
    Option.Rel (Value.Alike W) (source.value? answers) (source.value? answers') := by
  cases source with
  | literal v => exact .some (.of_isPlain h)
  | result i =>
    have hi := rel_getElem? ha i
    rw [Array.getElem?_toList, Array.getElem?_toList] at hi
    rw [Source.value?, Source.value?]
    generalize answers[i]? = x, answers'[i]? = x' at hi
    cases hi with
    | none => exact .none
    | some h =>
      cases h with
      | value hv => exact .some hv
      | _ => exact .none

theorem push_alike (hV : W ≤ V) {a a' : Answer} (h : a.Alike V a') :
    List.Forall₂ (Answer.Alike V) (answers.push a).toList (answers'.push a').toList := by
  rw [Array.toList_push, Array.toList_push]
  exact List.rel_append (ha.imp fun _ _ => .mono hV) (.cons h .nil)

omit ha in
/-- Alike answers stay alike through the rest of the script. -/
theorem runFrom_alike {others : Nat → Supply → Supply}
    (hothers : ∀ i (s : Supply), s.Ascending → s.Precedes (others i s))
    (hnumbers : W.countsNumbers = true) {steps : List (Step Source)}
    (hsteps : ∀ step ∈ steps, step.isWritten = true) {s s' : Supply}
    (hs : W.Below s s') (ha : List.Forall₂ (Answer.Alike W) answers.toList answers'.toList) :
    ∃ V, List.Forall₂ (Answer.Alike V) (runFrom s answers steps)
      (runAmong others s' answers' steps) := by
  induction steps generalizing W s s' answers answers' with
  | nil => exact ⟨W, ha⟩
  | cons step steps ih =>
    rw [List.forall_mem_cons] at hsteps
    have hlookup := Step.mapM?_alike (fun source h =>
      value?_alike ha (Step.isWritten_operands hsteps.1 source h)) hsteps.1
    rw [runFrom, runAmong]
    generalize step.mapM? (Source.value? answers) = x, step.mapM? (Source.value? answers') = x'
      at hlookup
    cases hlookup with
    | none => exact ih hnumbers hsteps.2 hs (push_alike ha le_rfl .skipped)
    | @some step step' hstep =>
      have hs := hs.precedes (hothers answers'.size s' hs.right)
      have hout := perform_couples hnumbers hstep s (others answers'.size s') hs
      dsimp only
      generalize step.perform s = x, step'.perform (others answers'.size s') = x' at hout ⊢
      rcases x with e | p <;> rcases x' with e' | p'
      · exact ih hnumbers hsteps.2 hs (push_alike ha le_rfl (.fault hout))
      · exact hout.elim
      · exact hout.elim
      · obtain ⟨V, hV, hbelow, hv⟩ := hout
        exact ih (hV.1.trans hnumbers) hsteps.2 hbelow (push_alike ha hV (.value hv))

end Run

end Script

/-! ## The console -/

namespace Console

def Problem.ageless : Problem → Problem
  | .fault f => .fault f.ageless
  | p => p

/-- The output for what has become of a line. -/
def Task.output (t : Task) : Except Fault Expr → Except Problem String
  | .error f => .error (.fault f)
  | .ok e =>
    match t.style with
    | none => .ok e.text
    | some name =>
      match Style.ofName? name with
      | some style => .ok (e.format style)
      | none => .error (.unknownStyle name)

theorem process_eq (t : Task) (line : String) :
    process t line = t.output (t.expression line .initial).1 := by
  rw [process, Build.run]
  cases (t.expression line .initial).1 <;> rfl

/-- The outputs of lines that are worked on one after the other, each as its own task says, in one
process. -/
def session (s : Supply) : List (Task × String) → List (Except Problem String)
  | [] => []
  | (t, line) :: requests =>
    t.output (t.expression line s).1 :: session (t.expression line s).2 requests

theorem readBindings_couples (limit : Int) (pairs : List (Option (String × String)))
    {bound bound' : Bindings} (h : Expr.AlikeBindings W bound bound') :
    Build.Couples W (readBindings limit pairs bound) (readBindings limit pairs bound')
      Expr.AlikeBindings := by
  induction pairs generalizing W bound bound' with
  | nil => exact .pure h
  | cons p pairs ih =>
    cases p with
    | none => exact .throw rfl
    | some p =>
      obtain ⟨name, source⟩ := p
      have hvalue := h.value name
      refine .ite ?_ (fun _ => ih h) fun _ => (Expr.parse_couples limit source).bind
        fun _ _ _ hV he => ih (List.rel_append (h.mono hV) (.cons ⟨rfl, he⟩ .nil))
      generalize bound.value? name = x, bound'.value? name = x' at hvalue
      cases hvalue with
      | none => exact .rfl
      | some _ => exact .rfl

theorem expression_couples (t : Task) (line : String) :
    Build.Couples W (t.expression line) (t.expression line) Expr.Alike := by
  refine (Expr.parse_couples _ line).bind fun V e e' _ he => ?_
  have hsimplified : Build.Couples V (if t.simplify then e.simplify else pure e)
      (if t.simplify then e'.simplify else pure e') Expr.Alike :=
    .ite .rfl (fun _ => Expr.simplify_couples he) fun _ => .pure he
  have hevaluated (V : Pairing) (e e' : Expr) (he : Expr.Alike V e e') : Build.Couples V
      (if t.evaluate then do e.evaluate (← readBindings t.bindingLimit t.bindings [])
        else return e)
      (if t.evaluate then do e'.evaluate (← readBindings t.bindingLimit t.bindings [])
        else return e') Expr.Alike :=
    .ite .rfl (fun _ => (readBindings_couples _ _ .nil).bind fun _ _ _ hV hbound =>
      Expr.evaluate_couples hbound (he.mono hV)) fun _ => .pure he
  cases t.simplify with
  | true => exact (Expr.simplify_couples he).bind fun V e e' _ he => hevaluated V e e' he
  | false => exact hevaluated V e e' he

/-- Alike outcomes of a line give the same output but for ages. -/
theorem output_eq (t : Task) {x x' : Except Fault Expr}
    (h : Build.AlikeOutcome (Expr.Alike W) x x') :
    (t.output x).mapError Problem.ageless = (t.output x').mapError Problem.ageless := by
  rcases x with f | e <;> rcases x' with f' | e'
  · exact congrArg (fun f => Except.error (Problem.fault f)) h
  · exact h.elim
  · exact h.elim
  · rw [Task.output, Task.output]
    split
    · rw [Expr.text, h.format_eq, Expr.text]
    · split
      · rw [h.format_eq]
      · rfl

/-- A line gives the same output from every supply, and leaves one that is valid. -/
theorem output_valid (t : Task) (line : String) {s : Supply} (hs : s.Valid) :
    (t.output (t.expression line s).1).mapError Problem.ageless =
      (process t line).mapError Problem.ageless ∧ (t.expression line s).2.Valid := by
  obtain ⟨V, -, hbelow, hout⟩ := expression_couples (W := .constants true) t line .initial s
    (Pairing.below_constants true Supply.valid_initial hs)
  rw [process_eq]
  exact ⟨(output_eq t hout).symm, hbelow.valid⟩

theorem session_eq (requests : List (Task × String)) {s : Supply} (hs : s.Valid) :
    (session s requests).map (Except.mapError Problem.ageless) =
      requests.map fun r => (process r.1 r.2).mapError Problem.ageless := by
  induction requests generalizing s with
  | nil => rfl
  | cons r requests ih =>
    obtain ⟨hout, hvalid⟩ := output_valid r.1 r.2 hs
    rw [List.map_cons, ← ih hvalid, ← hout]
    rfl

end Console

/-- **What was built before cannot be observed.**  From any valid supply, and whatever others build
between its steps, a script answers the same but for ages, and it is printed the same in every
style.  Lines that are worked on one after the other give the outputs that they give alone. -/
theorem history_unobservable (s : Supply) (hs : s.Valid) (steps : List (Script.Step Script.Source))
    (hsteps : ∀ step ∈ steps, step.isWritten = true) (others : Nat → Supply → Supply)
    (hothers : ∀ i (s : Supply), s.Ascending → s.Precedes (others i s))
    (requests : List (Console.Task × String)) :
    (Script.runAmong others s #[] steps).map Script.Answer.ageless =
        (Script.run steps).map Script.Answer.ageless ∧
      (∀ style, (Script.runAmong others s #[] steps).map (Script.Answer.printed style) =
        (Script.run steps).map (Script.Answer.printed style)) ∧
      (Console.session s requests).map (Except.mapError Console.Problem.ageless) =
        requests.map fun r => (Console.process r.1 r.2).mapError Console.Problem.ageless := by
  have hageless : (Script.runAmong others s #[] steps).map Script.Answer.ageless =
      (Script.run steps).map Script.Answer.ageless := by
    obtain ⟨V, hV⟩ := Script.runFrom_alike hothers rfl hsteps
      (Pairing.below_constants true Supply.valid_initial hs)
      (show List.Forall₂ _ (#[] : Array Script.Answer).toList #[].toList from .nil)
    rw [Script.run, ← List.forall₂_eq_eq_eq, List.forall₂_map_left_iff, List.forall₂_map_right_iff]
    exact hV.flip.imp fun _ _ h => h.ageless_eq.symm
  refine ⟨hageless, fun style => ?_, Console.session_eq requests hs⟩
  have hprinted :
      Script.Answer.printed style = Script.Answer.printed style ∘ Script.Answer.ageless :=
    funext fun a => (Script.Answer.printed_ageless style a).symm
  rw [hprinted, ← List.map_map, ← List.map_map, hageless]

/-- A script whose products are ordered by age, and whose last steps fail and are skipped. -/
def Script.squares : List (Step Source) :=
  [.parse "(y-x)^2(x-y)^2" 200, .arithmetic .multiply (.result 0) (.result 0),
    .compareBases (.result 1) (.result 0), .unary .simplify (.result 1),
    .ofPower (.result 3) (.literal (.fraction (1 / 2))),
    .arithmetic .divide (.result 4) (.literal (.int 0)), .unary .negative (.result 5)]

/-- A line that is simplified and evaluated, and one that fails. -/
def Console.twoLines : List (Task × String) :=
  [(⟨[some ("x", "2^y")], true, true, none, 200, 200⟩, "(x+1)(x-1)"),
    (⟨[], false, false, some "tex", 200, 200⟩, "1/(x-x)")]

/-- The serial numbers are far apart, and more and more is built before each step. -/
theorem history_unobservable_crowded :
    (∀ style, (Script.runAmong (fun i s => { s with next := s.next + i })
        ⟨0, fun k => 100 + 3 * k, false⟩ #[] Script.squares).map (Script.Answer.printed style) =
      (Script.run Script.squares).map (Script.Answer.printed style)) ∧
    (Console.session ⟨0, fun k => 100 + 3 * k, false⟩ Console.twoLines).map
        (Except.mapError Console.Problem.ageless) =
      Console.twoLines.map fun r => (Console.process r.1 r.2).mapError Console.Problem.ageless :=
  (history_unobservable ⟨0, fun k => 100 + 3 * k, false⟩
    ⟨fun a b h => by change 100 + 3 * a < 100 + 3 * b; omega, by decide⟩ Script.squares (by decide)
    (fun i s => { s with next := s.next + i }) (fun _ _ h => ⟨h, h.monotone (Nat.le_add_right _ _)⟩)
    Console.twoLines).2

end ExactAlgebra
