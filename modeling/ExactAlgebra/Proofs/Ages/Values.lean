import ExactAlgebra.Proofs.Ages.Coupling
import ExactAlgebra.Script.Run

/-!
# Values in two runs

The values of a script are alike if the expressions in them are and all else is the same.  Alike
values are shown, compared and ordered alike.

* `Value.Alike`, `Value.ageless`: values that are the same but for ages, and values without them.
* `Value.Alike.shown_eq`, `Value.Alike.equal_eq`, `Value.Alike.order?_eq`: what can be asked of
  them.
-/

namespace ExactAlgebra

variable {W V : Pairing}

namespace Value

/-- Two values are the same but for the ages of the expressions in them, which correspond. -/
inductive Alike (W : Pairing) : Value → Value → Prop
  | expr {e e' : Expr} : Expr.Alike W e e' → Alike W (.expr e) (.expr e')
  | int (n : Int) : Alike W (.int n) (.int n)
  | fraction (q : Rat) : Alike W (.fraction q) (.fraction q)
  | bool (b : Bool) : Alike W (.bool b) (.bool b)
  | binary (bits : Nat) : Alike W (.binary bits) (.binary bits)
  | text (s : String) : Alike W (.text s) (.text s)
  | none : Alike W .none .none
  | tuple {items items' : List Value} : List.Forall₂ (Alike W) items items' →
    Alike W (.tuple items) (.tuple items')

mutual

def ageless : Value → Value
  | .expr e => .expr e.ageless
  | .tuple items => .tuple (itemsAgeless items)
  | v => v

def itemsAgeless : List Value → List Value
  | [] => []
  | item :: items => item.ageless :: itemsAgeless items

end

/-! ## Without ages -/

mutual

/-- Alike values are the same without their ages. -/
theorem Alike.ageless_eq {v v' : Value} (h : Alike W v v') : v.ageless = v'.ageless := by
  cases v with
  | expr e => cases h with | expr he => rw [ageless, ageless, he.ageless_eq]
  | tuple items => cases h with | tuple hs => rw [ageless, ageless, itemsAgeless_eq hs]
  | _ => cases h; rfl

theorem itemsAgeless_eq {items items' : List Value} (h : List.Forall₂ (Alike W) items items') :
    itemsAgeless items = itemsAgeless items' := by
  match items with
  | [] => cases h; rfl
  | item :: items =>
    cases h with
    | cons hv hs => rw [itemsAgeless, itemsAgeless, hv.ageless_eq, itemsAgeless_eq hs]

end

mutual

theorem Alike.mono {v v' : Value} (hV : W ≤ V) (h : Alike W v v') : Alike V v v' := by
  cases v with
  | expr e => cases h with | expr he => exact .expr (he.mono hV)
  | tuple items => cases h with | tuple hs => exact .tuple (items_mono hV hs)
  | _ => cases h; constructor

theorem items_mono {items items' : List Value} (hV : W ≤ V)
    (h : List.Forall₂ (Alike W) items items') : List.Forall₂ (Alike V) items items' := by
  match items with
  | [] => cases h; exact .nil
  | item :: items => cases h with | cons hv hs => exact .cons (hv.mono hV) (items_mono hV hs)

end

mutual

theorem shown_ageless (v : Value) : v.ageless.shown = v.shown := by
  match v with
  | .expr e =>
    change describe e.ageless = describe e
    unfold describe Expr.text
    rw [Expr.kind_ageless, Expr.format_ageless]
  | .tuple [] => rfl
  | .tuple [item] =>
    change "(" ++ item.ageless.shown ++ ",)" = "(" ++ item.shown ++ ",)"
    rw [shown_ageless item]
  | .tuple (first :: second :: items) =>
    have hitems := shownAll_ageless (first :: second :: items)
    change
      "(" ++ String.intercalate ", " (shownAll (itemsAgeless (first :: second :: items))) ++ ")" =
      "(" ++ String.intercalate ", " (shownAll (first :: second :: items)) ++ ")"
    rw [hitems]
  | .int n | .fraction q | .bool b | .binary bits | .text s | .none => rfl

theorem shownAll_ageless (items : List Value) : shownAll (itemsAgeless items) = shownAll items := by
  match items with
  | [] => rfl
  | item :: items =>
    change item.ageless.shown :: shownAll (itemsAgeless items) = item.shown :: shownAll items
    rw [shown_ageless item, shownAll_ageless items]

end

variable {v v' w w' : Value}

theorem Alike.shown_eq (h : Alike W v v') : v.shown = v'.shown := by
  rw [← shown_ageless, h.ageless_eq, shown_ageless]

/-! ## As numbers -/

theorem Alike.number?_eq (h : Alike W v v') : v.number? = v'.number? := by cases h <;> rfl

theorem Alike.integer?_eq (h : Alike W v v') : v.integer? = v'.integer? := by cases h <;> rfl

theorem Alike.finite?_eq (h : Alike W v v') : v.finite? = v'.finite? := by cases h <;> rfl

theorem Alike.rational?_eq (h : Alike W v v') : v.rational? = v'.rational? := by
  cases h with
  | expr he =>
    cases he with
    | num hn => exact congrArg some hn.1
    | _ => rfl
  | _ => rfl

theorem Alike.ratio?_eq (h : Alike W v v') : v.ratio? = v'.ratio? := by
  cases h with
  | expr he =>
    cases he with
    | num hn => exact congrArg some hn.toRatio_eq
    | _ => rfl
  | _ => rfl

/-! ## Comparison -/

mutual

theorem Alike.equal_eq {v v' w w' : Value} (hv : Alike W v v') (hw : Alike W w w') :
    v.equal w = v'.equal w' := by
  cases v with
  | expr e =>
    cases hv with
    | expr he =>
      cases hw with
      | expr hf => simpa only [equal] using he.beq_eq hf
      | _ =>
        cases he with
        | num hn => simp only [equal, hn.toRatio_eq, number?]
        | _ => rfl
  | tuple items =>
    cases hv with
    | tuple hs =>
      cases hw with
      | tuple hs' => simpa only [equal] using equalAll_eq hs hs'
      | expr hf =>
        cases hf with
        | num hn => simp only [equal, hn.toRatio_eq, number?]
        | _ => rfl
      | _ => rfl
  | _ =>
    cases hv
    cases hw with
    | expr hf =>
      cases hf with
      | num hn => simp only [equal, hn.toRatio_eq, number?]
      | _ => rfl
    | _ => rfl

theorem equalAll_eq {items items' others others' : List Value}
    (h : List.Forall₂ (Alike W) items items') (h' : List.Forall₂ (Alike W) others others') :
    equalAll items others = equalAll items' others' := by
  match items with
  | [] => cases h; cases h' <;> rfl
  | item :: items =>
    cases h with
    | cons hv hs =>
      cases h' with
      | nil => rfl
      | cons hw hs' => rw [equalAll, equalAll, hv.equal_eq hw, equalAll_eq hs hs']

end

theorem Alike.ordered?_eq (r : Script.Relation) (hv : Alike W v v') (hw : Alike W w w') :
    v.ordered? r w = v'.ordered? r w' := by
  have hfinite := hv.finite?_eq
  have hratio := hv.ratio?_eq
  cases hv with
  | expr he =>
    cases he with
    | num hn => rw [ordered?, ordered?, hn.toRatio_eq, hw.ratio?_eq]
    | _ =>
      cases hw with
      | expr hf =>
        cases hf with
        | num hm => simp only [ordered?, hm.toRatio_eq, hratio]
        | _ => rfl
      | _ => rfl
  | _ =>
    cases hw with
    | expr hf =>
      cases hf with
      | num hm => simp only [ordered?, hm.toRatio_eq, hratio]
      | _ => rfl
    | _ => rfl

end Value

end ExactAlgebra
