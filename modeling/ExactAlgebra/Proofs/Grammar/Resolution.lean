import ExactAlgebra.Proofs.Grammar.Passes

/-!
# Token lists are resolved as trees

The tokens of a tree with its leaves built are a row of items, too.  Whole groups in it leave the
level of brackets as it was, so that every group ends with its own bracket, and from there on
resolving a group follows its tree.

* `Tree.items`: the items of a tree.  `Tree.mapM_leaf`: they are its tokens with the leaves built.
* `Balanced.findEnd_group`: the end of a group is found.
* `Tree.reduce_items`, `Tree.resolve_items`: the groups in a group, and the group itself.
* `parseTokens_tokens`: the tokens of a tree are parsed to the expression of the tree.
-/

namespace ExactAlgebra.Grammar

open Build Passes

/-! ## Items of trees -/

mutual

def Primary.items : Primary Expr → List Item
  | .leaf e => [.expr e]
  | .group s => .token .opening :: (Tree.items s ++ [.token .closing])

def Factor.items : Factor (Primary Expr) → List Item
  | .operand p => p.items
  | .power p negated f => p.items ++ .token (.operator .caret) :: (minusItem negated ++ f.items)

def Term.items : Term (Factor (Primary Expr)) → List Item
  | .factor f => f.items
  | .multiply t negated f => t.items ++ .token (.operator .times) :: (minusItem negated ++ f.items)
  | .divide t negated f => t.items ++ .token (.operator .over) :: (minusItem negated ++ f.items)

def Tree.items : Tree Expr → List Item
  | .term negated t => minusItem negated ++ t.items
  | .add s sign t => Tree.items s ++ .token (.operator (signOperator sign)) :: t.items

end

/-! ## Leaves -/

theorem mapM_leaf_minusIf (negated : Bool) :
    (minusIf negated).mapM leaf = (return minusItem negated : Build (List Item)) := by
  cases negated <;> simp [minusIf, minusItem, leaf]

mutual

theorem Primary.mapM_leaf (p : Primary Atom) :
    p.tokens.mapM leaf = do return (← p.build).items := by
  cases p with
  | leaf a => simp [Primary.tokens, Primary.build, Primary.items, leaf]
  | group s => simp [Primary.tokens, Primary.build, Primary.items, leaf, Tree.mapM_leaf s]

theorem Factor.mapM_leaf (f : Factor (Primary Atom)) :
    f.tokens.mapM leaf = do return (← f.build).items := by
  cases f with
  | operand p => simp [Factor.tokens, Factor.build, Factor.items, Primary.mapM_leaf p]
  | power p negated f =>
    simp [Factor.tokens, Factor.build, Factor.items, leaf, mapM_leaf_minusIf, Primary.mapM_leaf p,
      Factor.mapM_leaf f]

theorem Term.mapM_leaf (t : Term (Factor (Primary Atom))) :
    t.tokens.mapM leaf = do return (← t.build).items := by
  cases t with
  | factor f => simp [Term.tokens, Term.build, Term.items, Factor.mapM_leaf f]
  | multiply t negated f | divide t negated f =>
    simp [Term.tokens, Term.build, Term.items, leaf, mapM_leaf_minusIf, Term.mapM_leaf t,
      Factor.mapM_leaf f]

theorem Tree.mapM_leaf (s : Tree Atom) :
    (Tree.tokens s).mapM leaf = do return Tree.items (← Tree.build s) := by
  cases s with
  | term negated t =>
    simp [Tree.tokens, Tree.build, Tree.items, mapM_leaf_minusIf, Term.mapM_leaf t]
  | add s sign t =>
    simp [Tree.tokens, Tree.build, Tree.items, leaf, Tree.mapM_leaf s, Term.mapM_leaf t]

end

/-! ## Brackets -/

/-- Every bracket in the row is closed in it, and closes one that is opened in it. -/
inductive Balanced : List Item → Prop where
  | nil : Balanced []
  | expr {e : Expr} {row : List Item} (h : Balanced row) : Balanced (.expr e :: row)
  | operator {o : Operator} {row : List Item} (h : Balanced row) :
    Balanced (.token (.operator o) :: row)
  | group {inner row : List Item} (hinner : Balanced inner) (h : Balanced row) :
    Balanced (.token .opening :: (inner ++ .token .closing :: row))

theorem Balanced.append {row row' : List Item} (h : Balanced row) (h' : Balanced row') :
    Balanced (row ++ row') := by
  induction h with
  | nil => exact h'
  | expr _ ih => exact .expr ih
  | operator _ ih => exact .operator ih
  | group hinner _ _ ih =>
    rw [List.cons_append, List.append_assoc, List.cons_append]
    exact .group hinner ih

theorem balanced_minusItem (negated : Bool) : Balanced (minusItem negated) := by
  cases negated with
  | false => exact .nil
  | true => exact .operator .nil

mutual

theorem Primary.balanced (p : Primary Expr) : Balanced p.items := by
  cases p with
  | leaf e => rw [Primary.items]; exact .expr .nil
  | group s => rw [Primary.items]; exact .group (Tree.balanced s) .nil

theorem Factor.balanced (f : Factor (Primary Expr)) : Balanced f.items := by
  cases f with
  | operand p => rw [Factor.items]; exact Primary.balanced p
  | power p negated f =>
    rw [Factor.items]
    exact (Primary.balanced p).append
      (.operator ((balanced_minusItem negated).append (Factor.balanced f)))

theorem Term.balanced (t : Term (Factor (Primary Expr))) : Balanced t.items := by
  cases t with
  | factor f => rw [Term.items]; exact Factor.balanced f
  | multiply t negated f | divide t negated f =>
    rw [Term.items]
    exact (Term.balanced t).append (.operator
      ((balanced_minusItem negated).append (Factor.balanced f)))

theorem Tree.balanced (s : Tree Expr) : Balanced (Tree.items s) := by
  cases s with
  | term negated t => rw [Tree.items]; exact (balanced_minusItem negated).append (Term.balanced t)
  | add s sign t => rw [Tree.items]; exact (Tree.balanced s).append (.operator (Term.balanced t))

end

/-- A group ends with its closing bracket or with the whole list. -/
def GroupEnds (items : List Item) (i : Nat) : Prop :=
  items[i]? = some (.token .closing) ∨ i = items.length

section Levels

variable {items row : List Item} {i : Nat}

theorem findEnd_opening (h : items[i]? = some (.token .opening)) (level : Int) :
    findEnd items level i = findEnd items (level + 1) (i + 1) := by
  obtain ⟨hi, heq⟩ := List.getElem?_eq_some_iff.mp h
  rw [findEnd, dif_pos hi, heq]
  rfl

theorem findEnd_closing (h : items[i]? = some (.token .closing)) (level : Int) :
    findEnd items level i = if level - 1 < 0 then i else findEnd items (level - 1) (i + 1) := by
  obtain ⟨hi, heq⟩ := List.getElem?_eq_some_iff.mp h
  rw [findEnd, dif_pos hi, heq]
  rfl

theorem findEnd_item {item : Item} (h : items[i]? = some item)
    (hitem : item.isOneOf [.opening] = false ∧ item.isOneOf [.closing] = false) (level : Int) :
    findEnd items level i = findEnd items level (i + 1) := by
  obtain ⟨hi, heq⟩ := List.getElem?_eq_some_iff.mp h
  rw [findEnd, dif_pos hi, heq, hitem.1, hitem.2]
  rfl

/-- Whole groups are passed over on the way to the end of the current one. -/
theorem Balanced.findEnd_eq (h : Balanced row) {i : Nat} {level : Int} (hrow : StandsAt items i row)
    (hlevel : 0 ≤ level) : findEnd items level i = findEnd items level (i + row.length) := by
  induction h generalizing i level with
  | nil => rfl
  | expr _ ih | operator _ ih =>
    obtain ⟨hitem, hrow⟩ := standsAt_cons.mp hrow
    rw [findEnd_item hitem ⟨rfl, rfl⟩, ih hrow hlevel, List.length_cons, Nat.add_assoc,
      Nat.add_comm 1]
  | @group inner row _ _ ihinner ih =>
    rw [standsAt_cons, standsAt_append, standsAt_cons] at hrow
    obtain ⟨hopening, hinner, hclosing, hrow⟩ := hrow
    rw [findEnd_opening hopening, ihinner hinner (by omega), findEnd_closing hclosing,
      if_neg (by omega), Int.add_sub_cancel, ih hrow hlevel,
      add_length_cons_append_cons]

theorem Balanced.findEnd_group (h : Balanced row) (hrow : StandsAt items i row)
    (hend : GroupEnds items (i + row.length)) : findEnd items 0 i = i + row.length := by
  rw [h.findEnd_eq hrow le_rfl]
  rcases hend with hend | hend
  · exact (findEnd_closing hend 0).trans (if_pos (by decide))
  · rw [findEnd, dif_neg (by omega), hend]

end Levels

section Reduce

variable {source : String} {limit : Int} {items row : List Item} {i depth stop : Nat}

theorem reduce_opening (h : items[i]? = some (.token .opening)) (hstop : i < stop)
    (reduced : List Item) :
    reduce source limit items depth stop 0 reduced i =
      resolve source limit items (i + 1) (depth + 1) >>= fun e =>
        reduce source limit items depth stop 1 (reduced ++ [.expr e]) (i + 1) := by
  obtain ⟨hi, heq⟩ := List.getElem?_eq_some_iff.mp h
  rw [reduce, if_pos hstop, dif_pos hi, heq]
  rfl

theorem reduce_opening_inner (h : items[i]? = some (.token .opening)) (hstop : i < stop)
    {level : Int} (hlevel : 0 < level) (reduced : List Item) :
    reduce source limit items depth stop level reduced i =
      reduce source limit items depth stop (level + 1) reduced (i + 1) := by
  obtain ⟨hi, heq⟩ := List.getElem?_eq_some_iff.mp h
  have hopening : Item.isOneOf [.opening] (.token .opening) = true := rfl
  rw [reduce, if_pos hstop, dif_pos hi, heq, if_pos hopening, if_neg (by omega)]

theorem reduce_closing (h : items[i]? = some (.token .closing)) (hstop : i < stop) (level : Int)
    (reduced : List Item) :
    reduce source limit items depth stop level reduced i =
      reduce source limit items depth stop (level - 1) reduced (i + 1) := by
  obtain ⟨hi, heq⟩ := List.getElem?_eq_some_iff.mp h
  rw [reduce, if_pos hstop, dif_pos hi, heq]
  rfl

theorem reduce_item {item : Item} (h : items[i]? = some item)
    (hitem : item.isOneOf [.opening] = false ∧ item.isOneOf [.closing] = false) (hstop : i < stop)
    (reduced : List Item) :
    reduce source limit items depth stop 0 reduced i =
      reduce source limit items depth stop 0 (reduced ++ [item]) (i + 1) := by
  obtain ⟨hi, heq⟩ := List.getElem?_eq_some_iff.mp h
  rw [reduce, if_pos hstop, dif_pos hi, heq, hitem.1, hitem.2]
  rfl

theorem reduce_item_inner {item : Item} (h : items[i]? = some item)
    (hitem : item.isOneOf [.opening] = false ∧ item.isOneOf [.closing] = false) (hstop : i < stop)
    {level : Int} (hlevel : 0 < level) (reduced : List Item) :
    reduce source limit items depth stop level reduced i =
      reduce source limit items depth stop level reduced (i + 1) := by
  obtain ⟨hi, heq⟩ := List.getElem?_eq_some_iff.mp h
  rw [reduce, if_pos hstop, dif_pos hi, heq, hitem.1, hitem.2, if_neg Bool.false_ne_true,
    if_neg Bool.false_ne_true, if_neg (by omega)]

/-- What stands in an inner group is not taken over. -/
theorem Balanced.reduce_eq (h : Balanced row) {i : Nat} {level : Int} (hrow : StandsAt items i row)
    (hlevel : 0 < level) (hstop : i + row.length ≤ stop) (reduced : List Item) :
    reduce source limit items depth stop level reduced i =
      reduce source limit items depth stop level reduced (i + row.length) := by
  induction h generalizing i level with
  | nil => rfl
  | expr _ ih | operator _ ih =>
    obtain ⟨hitem, hrow⟩ := standsAt_cons.mp hrow
    rw [List.length_cons] at hstop
    rw [reduce_item_inner hitem ⟨rfl, rfl⟩ (by omega) hlevel, ih hrow hlevel (by omega),
      List.length_cons, Nat.add_assoc, Nat.add_comm 1]
  | @group inner row _ _ ihinner ih =>
    rw [standsAt_cons, standsAt_append, standsAt_cons] at hrow
    obtain ⟨hopening, hinner, hclosing, hrow⟩ := hrow
    rw [add_length_cons_append_cons] at hstop ⊢
    rw [reduce_opening_inner hopening (by omega) hlevel, ihinner hinner (by omega) (by omega),
      reduce_closing hclosing (by omega), Int.add_sub_cancel, ih hrow hlevel hstop]

theorem reduce_minusItem (negated : Bool) (h : StandsAt items i (minusItem negated))
    (hstop : i + (minusItem negated).length ≤ stop) (reduced : List Item) :
    reduce source limit items depth stop 0 reduced i =
      reduce source limit items depth stop 0 (reduced ++ minusItem negated)
        (i + (minusItem negated).length) := by
  cases negated with
  | false => simp [minusItem, minusIf]
  | true => exact reduce_item (standsAt_singleton.mp h) ⟨rfl, rfl⟩ hstop reduced

end Reduce

/-! ## Groups -/

/-- The expressions among the items are leaves. -/
def Flat (items : List Item) : Prop := ∀ e, .expr e ∈ items → e.height = 0

section Single

theorem Primary.items_pos (p : Primary Expr) : 0 < p.items.length := by
  cases p <;> simp [Primary.items]

theorem Factor.items_pos (f : Factor (Primary Expr)) : 0 < f.items.length := by
  cases f with
  | operand p => rw [Factor.items]; exact p.items_pos
  | power p negated f => simp [Factor.items]

theorem Term.items_pos (t : Term (Factor (Primary Expr))) : 0 < t.items.length := by
  cases t with
  | factor f => rw [Term.items]; exact f.items_pos
  | multiply t negated f | divide t negated f => simp [Term.items]

/-- A tree of one item is a leaf. -/
theorem Tree.items_single {s : Tree Expr} (h : (Tree.items s).length = 1) :
    ∃ e, s = .term false (.factor (.operand (.leaf e))) := by
  cases s with
  | add s sign t =>
    have := t.items_pos
    simp only [Tree.items, List.length_append, List.length_cons] at h
    omega
  | term negated t =>
    have := t.items_pos
    rw [Tree.items, List.length_append] at h
    cases negated with
    | true => rw [show (minusItem true).length = 1 from rfl] at h; omega
    | false =>
      cases t with
      | multiply t negated f | divide t negated f =>
        have := t.items_pos
        have := f.items_pos
        simp only [Term.items, List.length_append, List.length_cons] at h
        omega
      | factor f =>
        cases f with
        | power p negated f =>
          have := p.items_pos
          have := f.items_pos
          simp only [Term.items, Factor.items, List.length_append, List.length_cons] at h
          omega
        | operand p =>
          cases p with
          | leaf e => exact ⟨e, rfl⟩
          | group s =>
            simp only [Term.items, Factor.items, Primary.items, List.length_append,
              List.length_cons] at h
            omega

end Single

theorem checkLevels_ensures (source : String) (limit : Int) (levels : Nat) :
    Ensures (checkLevels source limit levels) (fun _ => (levels : Int) ≤ limit) fun _ => True :=
  .ite (fun _ => .throw trivial) fun h => .pure (Int.not_lt.mp h)

section Groups

variable {source : String} {limit : Int} {items : List Item}

mutual

theorem Primary.reduce_items (p : Primary Expr) (hflat : Flat items) {depth stop i : Nat}
    (h : StandsAt items i p.items) (hstop : i + p.items.length ≤ stop) (reduced : List Item) :
    reduce source limit items depth stop 0 reduced i =
      liftM (p.resolve (checkLevels source limit) depth) >>= fun e =>
        reduce source limit items depth stop 0 (reduced ++ [.expr e]) (i + p.items.length) := by
  cases p with
  | leaf e =>
    rw [Primary.items] at h hstop ⊢
    rw [reduce_item (standsAt_singleton.mp h) ⟨rfl, rfl⟩ hstop, Primary.resolve, liftM_pure,
      pure_bind]
    rfl
  | group s =>
    rw [Primary.items, standsAt_cons, standsAt_append, standsAt_singleton] at h
    obtain ⟨hopening, hs, hclosing⟩ := h
    rw [Primary.items, add_length_cons_append_cons, List.length_nil, Nat.add_zero] at hstop ⊢
    rw [reduce_opening hopening (by omega), Tree.resolve_items s hflat hs (.inl hclosing),
      Primary.resolve]
    refine bind_congr fun e => ?_
    rw [(Tree.balanced s).reduce_eq hs Int.one_pos (by omega), reduce_closing hclosing (by omega)]
    rfl

theorem Factor.reduce_items (f : Factor (Primary Expr)) (hflat : Flat items) {depth stop i : Nat}
    (h : StandsAt items i f.items) (hstop : i + f.items.length ≤ stop) (reduced : List Item) :
    reduce source limit items depth stop 0 reduced i =
      liftM (f.groups (checkLevels source limit) depth) >>= fun f' =>
        reduce source limit items depth stop 0 (reduced ++ f'.row) (i + f.items.length) := by
  cases f with
  | operand p =>
    rw [Factor.items] at h hstop ⊢
    simp [Primary.reduce_items p hflat h hstop, Factor.groups, Factor.row]
  | power p negated f =>
    rw [Factor.items, standsAt_append, standsAt_cons, standsAt_append] at h
    obtain ⟨hp, hcaret, hminus, hf⟩ := h
    rw [Factor.items, add_length_append_cons, List.length_append, ← Nat.add_assoc] at hstop ⊢
    rw [Primary.reduce_items p hflat hp (by omega)]
    simp only [Factor.groups, liftM_bind, bind_assoc]
    refine bind_congr fun e => ?_
    rw [reduce_item hcaret ⟨rfl, rfl⟩ (by omega), reduce_minusItem negated hminus (by omega),
      Factor.reduce_items f hflat hf hstop]
    simp [Factor.row]

theorem Term.reduce_items (t : Term (Factor (Primary Expr))) (hflat : Flat items)
    {depth stop i : Nat} (h : StandsAt items i t.items) (hstop : i + t.items.length ≤ stop)
    (reduced : List Item) :
    reduce source limit items depth stop 0 reduced i =
      liftM (t.groups (checkLevels source limit) depth) >>= fun t' =>
        reduce source limit items depth stop 0 (reduced ++ t'.row Factor.row)
          (i + t.items.length) := by
  cases t with
  | factor f =>
    rw [Term.items] at h hstop ⊢
    simp [Factor.reduce_items f hflat h hstop, Term.groups, Term.row]
  | multiply t negated f | divide t negated f =>
    rw [Term.items, standsAt_append, standsAt_cons, standsAt_append] at h
    obtain ⟨ht, hoperator, hminus, hf⟩ := h
    rw [Term.items, add_length_append_cons, List.length_append, ← Nat.add_assoc] at hstop ⊢
    rw [Term.reduce_items t hflat ht (by omega)]
    simp only [Term.groups, liftM_bind, bind_assoc]
    refine bind_congr fun t' => ?_
    rw [reduce_item hoperator ⟨rfl, rfl⟩ (by omega), reduce_minusItem negated hminus (by omega),
      Factor.reduce_items f hflat hf hstop]
    simp [Term.row]

theorem Tree.reduce_items (s : Tree Expr) (hflat : Flat items) {depth stop i : Nat}
    (h : StandsAt items i (Tree.items s)) (hstop : i + (Tree.items s).length ≤ stop)
    (reduced : List Item) :
    reduce source limit items depth stop 0 reduced i =
      liftM (Tree.groups (checkLevels source limit) depth s) >>= fun s' =>
        reduce source limit items depth stop 0 (reduced ++ s'.row Factor.row)
          (i + (Tree.items s).length) := by
  cases s with
  | term negated t =>
    rw [Tree.items, standsAt_append] at h
    rw [Tree.items, List.length_append, ← Nat.add_assoc] at hstop ⊢
    rw [reduce_minusItem negated h.1 (by omega), Term.reduce_items t hflat h.2 hstop]
    simp [Tree.groups, Sum.row]
  | add s sign t =>
    rw [Tree.items, standsAt_append, standsAt_cons] at h
    obtain ⟨hs, hsign, ht⟩ := h
    rw [Tree.items, add_length_append_cons] at hstop ⊢
    rw [Tree.reduce_items s hflat hs (by omega)]
    simp only [Tree.groups, liftM_bind, bind_assoc]
    refine bind_congr fun s' => ?_
    rw [reduce_item hsign ⟨rfl, rfl⟩ (by omega), Term.reduce_items t hflat ht hstop]
    simp [Sum.row]

/-- **A bracket group** is resolved as its tree. -/
theorem Tree.resolve_items (s : Tree Expr) (hflat : Flat items) {depth start : Nat}
    (h : StandsAt items start (Tree.items s))
    (hend : GroupEnds items (start + (Tree.items s).length)) :
    resolve source limit items start depth = liftM (do
      checkLevels source limit depth
      (← Tree.groups (checkLevels source limit) depth s).combine (checkLevels source limit)) := by
  have hstop : findEnd items 0 start = start + (Tree.items s).length :=
    (Tree.balanced s).findEnd_group h hend
  rw [resolve]
  simp only [hstop, liftM_bind]
  refine liftM_bind_congr (checkLevels_ensures source limit depth) fun _ hdepth => ?_
  by_cases hlength : (Tree.items s).length = 1
  · obtain ⟨e, rfl⟩ := Tree.items_single hlength
    have he : items[start]? = some (.expr e) := by
      simpa [Tree.items, Term.items, Factor.items, Primary.items, minusItem, minusIf,
        standsAt_singleton] using h
    have hheight : checkLevels source limit e.height = return () := by
      rw [hflat e (List.mem_of_getElem? he), checkLevels, if_neg (by omega)]
    rw [if_pos (congrArg (start + ·) hlength), itemAt_eq he]
    simp [Item.operand, Tree.groups, Term.groups, Factor.groups, Primary.resolve, Sum.combine,
      Sum.raise, Term.raise, Factor.raise, Sum.total, Sum.addends, Term.product, Term.operands,
      productOf, sumOf, signIf, hheight]
  · rw [if_neg (by omega), Tree.reduce_items s hflat h le_rfl]
    simp only [bind_assoc]
    refine bind_congr fun s' => ?_
    rw [reduce, if_neg (lt_irrefl _), pure_bind, List.nil_append, s'.combine_row]

end

end Groups

/-! ## Whole token lists -/

theorem leaf_ensures (t : Token) :
    Ensures (leaf t) (fun item => ∀ e, item = .expr e → e.height = 0) fun _ => True := by
  cases t with
  | atom a =>
    have hatom : Ensures a.build (fun e => e.height = 0) fun _ => True := by
      cases a with
      | number n =>
        rw [Atom.build_number]
        exact (ensures_true _).bind fun _ _ => .pure rfl
      | «variable» name => exact .pure rfl
    exact hatom.bind fun e he => .pure fun _ h => Item.expr.inj h ▸ he
  | operator o => exact .pure nofun
  | opening => exact .pure nofun
  | closing => exact .pure nofun

theorem mapM_leaf_flat (tokens : List Token) : Ensures (tokens.mapM leaf) Flat fun _ => True := by
  induction tokens with
  | nil => exact .pure nofun
  | cons t tokens ih =>
    rw [List.mapM_cons]
    refine (leaf_ensures t).bind fun item hitem => ih.bind fun items hitems => .pure fun e he => ?_
    rcases List.mem_cons.mp he with rfl | he
    · exact hitem e rfl
    · exact hitems e he

/-- **The tokens of a tree** are parsed to the expression of the tree, without a misstep. -/
theorem parseTokens_tokens (source : String) (limit : Int) (s : Tree Atom) :
    parseTokens source limit (Tree.tokens s) =
      liftM (Tree.actUnder (checkLevels source limit) s) := by
  have hflat : Ensures (Tree.build s) (fun s => Flat (Tree.items s)) fun _ => True := by
    have h := mapM_leaf_flat (Tree.tokens s)
    rw [Tree.mapM_leaf] at h
    exact h.of_bind_pure
  rw [parseTokens, Tree.mapM_leaf, Tree.actUnder]
  simp only [liftM_bind, liftM_pure, bind_assoc, pure_bind]
  refine liftM_bind_congr hflat fun s' hs' => ?_
  rw [Tree.resolve_items s' hs' (standsAt_self _) (.inr (Nat.zero_add _))]
  simp only [liftM_bind]

theorem parseTokens_no_misstep (source : String) (limit : Int) (s : Tree Atom) (σ : Supply)
    (misstep : Misstep) :
    ((parseTokens source limit (Tree.tokens s)).run σ).1 ≠ .ok (.error misstep) := by
  have hensures : Ensures (parseTokens source limit (Tree.tokens s)).run
      (fun r => r ≠ .error misstep) fun _ => True := by
    rw [parseTokens_tokens]
    exact (ensures_true (Tree.actUnder (checkLevels source limit) s)).bind fun _ _ => .pure nofun
  exact fun h => hensures.of_fst h rfl

end ExactAlgebra.Grammar
