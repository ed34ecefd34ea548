import ExactAlgebra.Proofs.Grammar.Actions

/-!
# The passes on a group

The operands and operators of a group in which no bracket is left are a row of items, and so are
those of a group in which no power, or no product, is left.  Each pass finds at every index the item
that it looks for, and what it hands to a construction is an expression.  It turns the row of a sum
into the row of what the actions make of the sum.

* `StandsAt`: a row of items stands in a list from an index on.
* `Factor.row`, `Term.row`, `Sum.row`, `termsRow`: the rows.
* `Sum.powers_row`, `Sum.products_row`, `resolveSums_termsRow`: the passes, one by one.
* `Sum.combine_row`: a group in which no bracket is left.
-/

namespace ExactAlgebra.Grammar

open Build Passes

/-! ## Rows of items -/

/-- The row stands in the list from an index on. -/
def StandsAt (items : List Item) (i : Nat) (row : List Item) : Prop := row <+: items.drop i

section StandsAt

variable {items row row' : List Item} {item : Item} {i : Nat}

theorem standsAt_self (items : List Item) : StandsAt items 0 items := List.prefix_rfl

theorem standsAt_append :
    StandsAt items i (row ++ row') ↔
      StandsAt items i row ∧ StandsAt items (i + row.length) row' := by
  unfold StandsAt
  rw [← List.drop_drop]
  constructor
  · rintro ⟨rest, h⟩
    rw [← h, List.append_assoc, List.drop_left]
    exact ⟨⟨_, rfl⟩, ⟨_, rfl⟩⟩
  · rintro ⟨⟨rest, h⟩, h'⟩
    rw [← h, List.drop_left] at h'
    rw [← h]
    exact (List.prefix_append_right_inj row).mpr h'

theorem standsAt_cons :
    StandsAt items i (item :: row) ↔ items[i]? = some item ∧ StandsAt items (i + 1) row := by
  unfold StandsAt
  rw [← List.head?_drop, ← List.drop_drop]
  rcases items.drop i with _ | ⟨item', rest⟩
  · simp
  · simp [List.cons_prefix_cons, eq_comm]

theorem standsAt_singleton : StandsAt items i [item] ↔ items[i]? = some item := by
  rw [standsAt_cons]
  exact and_iff_left List.nil_prefix

/-- Where two rows with an item between them end. -/
theorem add_length_append_cons (i : Nat) (row : List Item) (item : Item) (row' : List Item) :
    i + (row ++ item :: row').length = i + row.length + 1 + row'.length := by
  rw [List.length_append, List.length_cons]
  omega

theorem add_length_cons_append_cons (i : Nat) (item : Item) (row : List Item) (item' : Item)
    (row' : List Item) :
    i + (item :: (row ++ item' :: row')).length = i + 1 + row.length + 1 + row'.length := by
  rw [← add_length_append_cons, List.length_cons, Nat.add_assoc, Nat.add_comm 1]

end StandsAt

/-- The minus before an operand, if there is one. -/
def minusItem (negated : Bool) : List Item := (minusIf negated).map .token

section Row

variable {β : Type} (g : β → List Item)

/-- The items of a term, given the items of its factors. -/
def Term.row : Term β → List Item
  | .factor e => g e
  | .multiply t negated e => t.row ++ .token (.operator .times) :: (minusItem negated ++ g e)
  | .divide t negated e => t.row ++ .token (.operator .over) :: (minusItem negated ++ g e)

def Sum.row : Sum β → List Item
  | .term negated t => minusItem negated ++ t.row g
  | .add s sign t => s.row ++ .token (.operator (signOperator sign)) :: t.row g

end Row

/-- The only item of an operand in which no power is left. -/
abbrev lone (e : Expr) : List Item := [.expr e]

/-- The items of a factor in which no bracket is left. -/
def Factor.row : Factor Expr → List Item
  | .operand e => [.expr e]
  | .power e negated f => .expr e :: .token (.operator .caret) :: (minusItem negated ++ f.row)

/-- The items of the further terms of a sum in which no product is left. -/
def furtherRow : SignedTerms → List Item
  | [] => []
  | (e, sign) :: terms => .token (.operator (signOperator sign)) :: .expr e :: furtherRow terms

/-- The items of a sum in which no product is left. -/
def termsRow : SignedTerms → List Item
  | [] => []
  | (e, sign) :: terms => minusItem (sign == .minus) ++ .expr e :: furtherRow terms

/-! ## Powers -/

theorem itemAt_eq {items : List Item} {item : Item} {i : Nat} (h : items[i]? = some item) :
    itemAt items i = return item := by
  rw [itemAt, h]

section Powers

variable {source : String} {limit : Int} {items : List Item} {i : Nat}

/-- An item that is no caret is left alone. -/
theorem resolvePowers_item {item : Item} (h : items[i]? = some item)
    (hcaret : item.isOneOf [.operator .caret] = false) (result : List Item) :
    resolvePowers source limit items (i + 1) result =
      resolvePowers source limit items i (item :: result) := by
  cases i <;> simp [resolvePowers, itemAt_eq h, hcaret]

theorem resolvePowers_operator {o : Operator} (h : items[i]? = some (.token (.operator o)))
    (ho : o ≠ .caret) (result : List Item) :
    resolvePowers source limit items (i + 1) result =
      resolvePowers source limit items i (.token (.operator o) :: result) :=
  resolvePowers_item h (by cases o <;> first | rfl | exact absurd rfl ho) result

theorem resolvePowers_minusItem (negated : Bool) (h : StandsAt items i (minusItem negated))
    (result : List Item) :
    resolvePowers source limit items (i + (minusItem negated).length) result =
      resolvePowers source limit items i (minusItem negated ++ result) := by
  cases negated with
  | false => rfl
  | true => exact resolvePowers_operator (standsAt_singleton.mp h) nofun result

/-- A caret takes its base from the list and its exponent from what has been resolved. -/
theorem resolvePowers_caret {base exponent : Expr} (h : items[i]? = some (.expr base))
    (hcaret : items[i + 1]? = some (.token (.operator .caret))) (negated : Bool)
    (result : List Item) :
    resolvePowers source limit items (i + 2) (minusItem negated ++ .expr exponent :: result) =
      liftM (signedOperand negated exponent >>= fun e => Expr.ofPower base e >>= fun power =>
        checkLevels source limit power.height >>= fun _ => return power) >>= fun power =>
      resolvePowers source limit items i (.expr power :: result) := by
  have hexponent : popSigned (minusItem negated ++ .expr exponent :: result) =
      liftM (signedOperand negated exponent) >>= fun e => return (e, result) := by
    cases negated <;> simp [popSigned, minusItem, minusIf, pop, Item.isOneOf, Item.operand,
      signedOperand]
  have his : Item.isOneOf [.operator .caret] (.token (.operator .caret)) = true := rfl
  rw [resolvePowers, itemAt_eq hcaret, pure_bind, if_pos his]
  simp [itemAt_eq h, hexponent, Item.operand]

/-- The powers of a factor are resolved before what stands before the factor. -/
theorem Factor.powers_row (f : Factor Expr) {i : Nat} (h : StandsAt items i f.row)
    (result : List Item) :
    resolvePowers source limit items (i + f.row.length) result =
      liftM (f.raise (checkLevels source limit)) >>= fun e =>
        resolvePowers source limit items i (.expr e :: result) := by
  induction f generalizing i result with
  | operand e => simp [Factor.row, Factor.raise, resolvePowers_item (standsAt_singleton.mp h) rfl]
  | power base negated f ih =>
    rw [Factor.row, standsAt_cons, standsAt_cons, standsAt_append] at h
    obtain ⟨hbase, hcaret, hminus, hf⟩ := h
    rw [Factor.row, ← List.singleton_append, add_length_append_cons, List.length_append,
      ← Nat.add_assoc, List.length_singleton, ih hf]
    simp [resolvePowers_minusItem negated hminus, resolvePowers_caret hbase hcaret, Factor.raise]

theorem Term.powers_row (t : Term (Factor Expr)) {i : Nat} (h : StandsAt items i (t.row Factor.row))
    (result : List Item) :
    resolvePowers source limit items (i + (t.row Factor.row).length) result =
      liftM (t.raise (checkLevels source limit)) >>= fun t =>
        resolvePowers source limit items i (t.row lone ++ result) := by
  induction t generalizing i result with
  | factor f => simp [Term.row, Term.raise, f.powers_row h]
  | multiply t negated f ih | divide t negated f ih =>
    rw [Term.row, standsAt_append, standsAt_cons, standsAt_append] at h
    obtain ⟨ht, hoperator, hminus, hf⟩ := h
    rw [Term.row, add_length_append_cons, List.length_append, ← Nat.add_assoc, f.powers_row hf]
    simp [resolvePowers_minusItem negated hminus, resolvePowers_operator hoperator nofun, ih ht,
      Term.raise, Term.row]

theorem Sum.powers_row (s : Sum (Factor Expr)) {i : Nat} (h : StandsAt items i (s.row Factor.row))
    (result : List Item) :
    resolvePowers source limit items (i + (s.row Factor.row).length) result =
      liftM (s.raise (checkLevels source limit)) >>= fun s =>
        resolvePowers source limit items i (s.row lone ++ result) := by
  induction s generalizing result with
  | term negated t =>
    rw [Sum.row, standsAt_append] at h
    rw [Sum.row, List.length_append, ← Nat.add_assoc, t.powers_row h.2]
    simp [resolvePowers_minusItem negated h.1, Sum.raise, Sum.row]
  | add s sign t ih =>
    rw [Sum.row, standsAt_append, standsAt_cons] at h
    obtain ⟨hs, hsign, ht⟩ := h
    have hoperator : signOperator sign ≠ .caret := by cases sign <;> nofun
    rw [Sum.row, add_length_append_cons, t.powers_row ht]
    simp [resolvePowers_operator hsign hoperator, ih hs, Sum.raise, Sum.row]

end Powers

/-! ## Products -/

section Products

variable {items result : List Item} {item : Item} {i : Nat}

theorem multiplies_eq (h : items[i]? = some item) :
    multiplies items i = item.isOneOf [.operator .times, .operator .over] := by
  rw [multiplies, h]
  rfl

theorem lt_length (h : items[i]? = some item) : i < items.length :=
  (List.getElem?_eq_some_iff.mp h).1

/-- An item that neither multiplies nor divides is left alone. -/
theorem resolveProducts_item (h : items[i]? = some item)
    (hitem : item.isOneOf [.operator .times, .operator .over] = false) (result : List Item) :
    resolveProducts items result i = resolveProducts items (item :: result) (i + 1) := by
  rw [resolveProducts, if_pos (lt_length h), multiplies_eq h, hitem, itemAt_eq h, pure_bind]
  rfl

theorem resolveProducts_minusItem (negated : Bool) (h : StandsAt items i (minusItem negated))
    (result : List Item) :
    resolveProducts items result i =
      resolveProducts items (minusItem negated ++ result) (i + (minusItem negated).length) := by
  cases negated with
  | false => rfl
  | true => exact resolveProducts_item (standsAt_singleton.mp h) rfl result

/-- A run starts with the operand before it. -/
theorem resolveProducts_run (h : multiplies items i = true) (e : Expr) (result : List Item) :
    resolveProducts items (.expr e :: result) i = resolveRun items result [e] [] i := by
  rw [resolveProducts, if_pos (lt_of_multiplies h), if_pos h]
  simp [pop, Item.operand]

theorem lt_add_length (i : Nat) (negated : Bool) (e : Expr) :
    i < i + (minusItem negated ++ lone e).length := by
  simp

theorem operandAt_eq {negated : Bool} {e : Expr}
    (h : StandsAt items i (minusItem negated ++ lone e)) :
    operandAt items i = liftM (signedOperand negated e) >>= fun e =>
      return (e, ⟨i + (minusItem negated ++ lone e).length, lt_add_length i negated e⟩) := by
  cases negated with
  | false =>
    have he : items[i]? = some (.expr e) := standsAt_singleton.mp h
    simp [operandAt, itemAt_eq he, Item.isOneOf, Item.operand, signedOperand, minusItem, minusIf]
  | true =>
    obtain ⟨hminus, he⟩ := standsAt_cons.mp h
    have he : items[i + 1]? = some (.expr e) := standsAt_singleton.mp he
    simp [operandAt, itemAt_eq hminus, itemAt_eq he, Item.isOneOf, Item.operand, signedOperand,
      minusItem, minusIf]

theorem resolveRun_times {negated : Bool} {e : Expr}
    (h : items[i]? = some (.token (.operator .times)))
    (he : StandsAt items (i + 1) (minusItem negated ++ lone e)) (result : List Item)
    (factors divisors : List Expr) :
    resolveRun items result factors divisors i = liftM (signedOperand negated e) >>= fun e =>
      resolveRun items result (factors ++ [e]) divisors
        (i + 1 + (minusItem negated ++ lone e).length) := by
  have hrun : multiplies items i = true := by rw [multiplies_eq h]; rfl
  rw [resolveRun, if_pos hrun, itemAt_eq h, pure_bind, operandAt_eq he]
  simp [Item.isOneOf]

theorem resolveRun_over {negated : Bool} {e : Expr}
    (h : items[i]? = some (.token (.operator .over)))
    (he : StandsAt items (i + 1) (minusItem negated ++ lone e)) (result : List Item)
    (factors divisors : List Expr) :
    resolveRun items result factors divisors i = liftM (signedOperand negated e) >>= fun e =>
      resolveRun items result factors (divisors ++ [e])
        (i + 1 + (minusItem negated ++ lone e).length) := by
  have hrun : multiplies items i = true := by rw [multiplies_eq h]; rfl
  rw [resolveRun, if_pos hrun, itemAt_eq h, pure_bind, operandAt_eq he]
  simp [Item.isOneOf]

theorem resolveRun_end (h : multiplies items i = false) (result : List Item)
    (factors divisors : List Expr) :
    resolveRun items result factors divisors i =
      liftM (Expr.ofProduct factors divisors) >>= fun e =>
        resolveProducts items (.expr e :: result) i := by
  rw [resolveRun, if_neg (Bool.eq_false_iff.mp h)]

/-- The operands of a run are collected. -/
theorem Term.resolveRun_row (t : Term Expr) {i : Nat} (h : StandsAt items i (t.row lone))
    (hrun : ∀ e, t = .factor e → multiplies items (i + 1) = true) (result : List Item) :
    resolveProducts items result i = liftM t.operands >>= fun p =>
      resolveRun items result p.1 p.2 (i + (t.row lone).length) := by
  induction t generalizing i with
  | factor e =>
    rw [resolveProducts_item (standsAt_singleton.mp h) rfl, resolveProducts_run (hrun e rfl)]
    simp [Term.operands, Term.row]
  | multiply t negated e ih =>
    rw [Term.row, standsAt_append, standsAt_cons] at h
    obtain ⟨ht, htimes, he⟩ := h
    have hnext : ∀ e, t = .factor e → multiplies items (i + 1) = true := by
      rintro e rfl
      exact multiplies_eq htimes
    rw [ih ht hnext]
    simp [resolveRun_times htimes he, Term.operands, Term.row, Nat.add_assoc, Nat.add_comm 1]
  | divide t negated e ih =>
    rw [Term.row, standsAt_append, standsAt_cons] at h
    obtain ⟨ht, hover, he⟩ := h
    have hnext : ∀ e, t = .factor e → multiplies items (i + 1) = true := by
      rintro e rfl
      exact multiplies_eq hover
    rw [ih ht hnext]
    simp [resolveRun_over hover he, Term.operands, Term.row, Nat.add_assoc, Nat.add_comm 1]

theorem Term.operands_ne_nil (t : Term Expr) :
    Ensures t.operands (fun p => p.1 ≠ []) fun _ => True := by
  induction t with
  | factor e => exact .pure (List.cons_ne_nil _ _)
  | multiply t negated e ih =>
    exact ih.bind fun p _ => (ensures_true _).bind fun _ _ =>
      .pure (List.append_ne_nil_of_right_ne_nil _ (List.cons_ne_nil _ _))
  | divide t negated e ih => exact ih.bind fun p hp => (ensures_true _).bind fun _ _ => .pure hp

/-- A term with more than one operand is a product. -/
theorem Term.product_eq (t : Term Expr) (ht : ∀ e, t ≠ .factor e) :
    t.product = t.operands >>= fun p => Expr.ofProduct p.1 p.2 := by
  cases t with
  | factor e => exact absurd rfl (ht e)
  | multiply t negated e =>
    simp only [Term.product, Term.operands, bind_assoc, pure_bind]
    refine bind_congr_of_ensures t.operands_ne_nil fun p hp => bind_congr fun e => ?_
    obtain ⟨a, l, hal⟩ := List.exists_cons_of_ne_nil hp
    obtain ⟨b, l', hl⟩ :=
      List.exists_cons_of_ne_nil (List.append_ne_nil_of_right_ne_nil l (List.cons_ne_nil e []))
    rw [hal, List.cons_append, hl, productOf]
    nofun
  | divide t negated e =>
    simp only [Term.product, Term.operands, bind_assoc, pure_bind]
    refine bind_congr fun p => bind_congr fun e => ?_
    obtain ⟨b, l', hl⟩ :=
      List.exists_cons_of_ne_nil (List.append_ne_nil_of_right_ne_nil p.2 (List.cons_ne_nil e []))
    rw [hl, productOf]
    nofun

theorem Term.products_row (t : Term Expr) {i : Nat} (h : StandsAt items i (t.row lone))
    (hend : multiplies items (i + (t.row lone).length) = false) (result : List Item) :
    resolveProducts items result i = liftM t.product >>= fun e =>
      resolveProducts items (.expr e :: result) (i + (t.row lone).length) := by
  by_cases ht : ∃ e, t = .factor e
  · obtain ⟨e, rfl⟩ := ht
    rw [resolveProducts_item (standsAt_singleton.mp h) rfl]
    simp [Term.product, Term.operands, productOf, Term.row]
  · have hne : ∀ e, t ≠ .factor e := fun e he => ht ⟨e, he⟩
    rw [t.resolveRun_row h fun e he => absurd he (hne e), t.product_eq hne]
    simp [resolveRun_end hend]

end Products

/-! ## Rows of terms -/

theorem Sum.addends_ne_nil (s : Sum Expr) : Ensures s.addends (· ≠ []) fun _ => True := by
  cases s with
  | term negated t => exact (ensures_true _).bind fun _ _ => .pure (List.cons_ne_nil _ _)
  | add s sign t =>
    exact (ensures_true _).bind fun _ _ => (ensures_true _).bind fun _ _ =>
      .pure (List.append_ne_nil_of_right_ne_nil _ (List.cons_ne_nil _ _))

theorem furtherRow_append (terms : SignedTerms) (e : Expr) (sign : Sign) :
    furtherRow (terms ++ [(e, sign)]) =
      furtherRow terms ++ [.token (.operator (signOperator sign)), .expr e] := by
  induction terms with
  | nil => rfl
  | cons p terms ih => rw [List.cons_append, furtherRow, ih, furtherRow]; rfl

theorem termsRow_append {terms : SignedTerms} (h : terms ≠ []) (e : Expr) (sign : Sign) :
    termsRow (terms ++ [(e, sign)]) =
      termsRow terms ++ [.token (.operator (signOperator sign)), .expr e] := by
  cases terms with
  | nil => exact absurd rfl h
  | cons p terms => simp [termsRow, furtherRow_append]

/-- What a construction ensures may be used by the pass that goes on with it. -/
theorem liftM_bind_congr {α β : Type} {m : Build α} {P : α → Prop} {F : Fault → Prop}
    (h : Ensures m P F) {f g : α → Pass β} (hfg : ∀ a, P a → f a = g a) :
    (liftM m : Pass α) >>= f = liftM m >>= g := by
  have hrun : ∀ f : α → Pass β, ((liftM m : Pass α) >>= f).run = m >>= fun a => (f a).run :=
    fun f => ExceptT.run_bind_lift m f
  apply ExceptT.ext
  rw [hrun, hrun]
  exact bind_congr_of_ensures h fun a ha => congrArg ExceptT.run (hfg a ha)

theorem Sum.products_row (s : Sum Expr) {items : List Item} {i : Nat}
    (h : StandsAt items i (s.row lone))
    (hend : multiplies items (i + (s.row lone).length) = false) (result : List Item) :
    resolveProducts items result i = liftM s.addends >>= fun terms =>
      resolveProducts items ((termsRow terms).reverse ++ result) (i + (s.row lone).length) := by
  induction s generalizing result with
  | term negated t =>
    rw [Sum.row, standsAt_append] at h
    rw [Sum.row, List.length_append, ← Nat.add_assoc] at hend ⊢
    rw [resolveProducts_minusItem negated h.1, t.products_row h.2 hend]
    cases negated <;> simp [Sum.addends, termsRow, furtherRow, minusItem, minusIf, signIf]
  | add s sign t ih =>
    rw [Sum.row, standsAt_append, standsAt_cons] at h
    obtain ⟨hs, hsign, ht⟩ := h
    have hoperator : Item.isOneOf [.operator .times, .operator .over]
        (.token (.operator (signOperator sign))) = false := by cases sign <;> rfl
    rw [Sum.row, add_length_append_cons] at hend ⊢
    rw [ih hs ((multiplies_eq hsign).trans hoperator)]
    simp only [Sum.addends, liftM_bind, bind_assoc, liftM_pure, pure_bind]
    refine liftM_bind_congr s.addends_ne_nil fun terms hterms => ?_
    rw [resolveProducts_item hsign hoperator, t.products_row ht hend]
    simp [termsRow_append hterms]

/-! ## Sums -/

theorem resolveSums_furtherRow (terms addends : SignedTerms) :
    resolveSums addends .plus (furtherRow terms) = liftM (Expr.ofSum (addends ++ terms)) := by
  induction terms generalizing addends with
  | nil => simp [furtherRow, resolveSums]
  | cons p terms ih =>
    obtain ⟨e, sign⟩ := p
    cases sign <;> simp [furtherRow, resolveSums, Item.isOneOf, Item.operand, signOperator, ih]

theorem resolveSums_termsRow (terms : SignedTerms) :
    resolveSums [] .plus (termsRow terms) = liftM (Expr.ofSum terms) := by
  cases terms with
  | nil => rfl
  | cons p terms =>
    obtain ⟨e, sign⟩ := p
    have hterms := resolveSums_furtherRow terms [(e, sign)]
    cases sign <;>
      simpa [termsRow, resolveSums, minusItem, minusIf, Item.isOneOf, Item.operand] using hterms

/-! ## Groups without brackets -/

section Combine

variable {source : String} {limit : Int}

section Single

variable {β : Type} {g : β → List Item}

theorem Term.row_pos (hg : ∀ b, 0 < (g b).length) (t : Term β) : 0 < (t.row g).length := by
  induction t with
  | factor b => exact hg b
  | multiply t negated b ih => rw [row, List.length_append]; omega
  | divide t negated b ih => rw [row, List.length_append]; omega

/-- A row of one item is that of a lone operand. -/
theorem Sum.row_single (hg : ∀ b, 0 < (g b).length) {s : Sum β} (h : (s.row g).length ≤ 1) :
    ∃ b, s = .term false (.factor b) := by
  cases s with
  | term negated t =>
    have ht := t.row_pos hg
    rw [row, List.length_append] at h
    cases negated with
    | true => rw [show (minusItem true).length = 1 from rfl] at h; omega
    | false =>
      cases t with
      | factor b => exact ⟨b, rfl⟩
      | multiply t negated b | divide t negated b =>
        have ht := t.row_pos hg
        have hb := hg b
        simp only [Term.row, List.length_append, List.length_cons] at h
        omega
  | add s sign t =>
    have ht := t.row_pos hg
    rw [row, List.length_append, List.length_cons] at h
    omega

end Single

theorem Factor.row_pos (f : Factor Expr) : 0 < f.row.length := by
  cases f <;> exact Nat.succ_pos _

theorem Sum.powers_pass (s : Sum (Factor Expr)) :
    ifSeveral (fun items => resolvePowers source limit items items.length []) (s.row Factor.row) =
      liftM (s.raise (checkLevels source limit)) >>= fun s => return s.row lone := by
  unfold ifSeveral
  split
  next =>
    dsimp only
    rw [← Nat.zero_add (s.row Factor.row).length, s.powers_row (standsAt_self _)]
    simp [resolvePowers]
  next h =>
    obtain ⟨f, rfl⟩ := Sum.row_single Factor.row_pos (Nat.not_lt.mp h)
    cases f with
    | operand e =>
      simp [Sum.raise, Term.raise, Factor.raise, Sum.row, Term.row, Factor.row, minusItem, minusIf]
    | power e negated f =>
      simp only [Sum.row, Term.row, Factor.row, List.length_append, List.length_cons] at h
      omega

theorem Sum.products_pass (s : Sum Expr) :
    ifSeveral (fun items => resolveProducts items [] 0) (s.row lone) =
      liftM s.addends >>= fun terms => return termsRow terms := by
  unfold ifSeveral
  split
  next =>
    have hend : multiplies (s.row lone) (0 + (s.row lone).length) = false := by simp [multiplies]
    refine (s.products_row (standsAt_self _) hend []).trans ?_
    simp [resolveProducts]
  next h =>
    obtain ⟨e, rfl⟩ := Sum.row_single (g := lone) (fun _ => Nat.one_pos) (Nat.not_lt.mp h)
    simp [Sum.addends, Term.product, Term.operands, productOf, Sum.row, Term.row, termsRow,
      furtherRow, minusItem, minusIf, signIf]

theorem sums_pass {terms : SignedTerms} (h : terms ≠ []) :
    ifSeveral (fun items => do return [.expr (← resolveSums [] .plus items)]) (termsRow terms) =
      liftM (sumOf terms) >>= fun e => return lone e := by
  by_cases hlone : ∃ e, terms = [(e, .plus)]
  · obtain ⟨e, rfl⟩ := hlone
    simp [ifSeveral, termsRow, furtherRow, sumOf, minusItem, minusIf]
  · have hsum : sumOf terms = Expr.ofSum terms := by
      unfold sumOf
      split
      next e => exact absurd ⟨e, rfl⟩ hlone
      next => rfl
    have hlength : 1 < (termsRow terms).length := by
      rcases terms with _ | ⟨⟨e, sign⟩, _ | ⟨⟨e', sign'⟩, terms⟩⟩
      · exact absurd rfl h
      · cases sign with
        | plus => exact absurd ⟨e, rfl⟩ hlone
        | minus => simp [termsRow, minusItem, minusIf]
      · simp only [termsRow, furtherRow, List.length_append, List.length_cons]
        omega
    rw [ifSeveral, if_pos hlength, resolveSums_termsRow, hsum]

/-- **A group in which no bracket is left** is resolved as its sum. -/
theorem Sum.combine_row (s : Sum (Factor Expr)) :
    Passes.combine source limit (s.row Factor.row) =
      liftM (s.combine (checkLevels source limit)) := by
  rw [Passes.combine, s.powers_pass]
  simp only [Sum.combine, Sum.total, liftM_bind, bind_assoc, pure_bind]
  refine bind_congr fun s => ?_
  rw [s.products_pass]
  simp only [bind_assoc, pure_bind]
  refine liftM_bind_congr s.addends_ne_nil fun terms hterms => ?_
  rw [sums_pass hterms]
  simp [itemAt, Item.operand]

end Combine

end ExactAlgebra.Grammar
