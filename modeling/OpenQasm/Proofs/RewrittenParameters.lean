import OpenQasm.Parameter
import OpenQasm.Proofs.DoubleLaws

/-!
What the rewriting of gate parameters keeps. A parameter that is simplified, negated or scaled has, under any
valuation of its symbols, the value that it should have, and has none where the parameter has none. Three laws
of the numbers are enough for it, and doubles obey them. What is simplified holds no part that still could be
evaluated, so it is simple already.
-/
namespace OpenQasm

/-- Arithmetic in which changing the sign twice changes nothing, products commute, and a product by one is the
other factor. -/
class LawfulArithmetic (K : Type) [Arithmetic K] : Prop where
  neg_neg (x : K) : Arithmetic.neg (Arithmetic.neg x) = x
  mul_comm (x y : K) : Arithmetic.mul x y = Arithmetic.mul y x
  one_mul {k : K} (h : Arithmetic.isOne k = true) (x : K) : Arithmetic.mul k x = x

instance : LawfulArithmetic Float where
  neg_neg := Double.neg_neg
  mul_comm := Double.mul_comm
  one_mul h x := by
    rw [Double.eq_one_of_beq h]
    exact Double.one_mul x

namespace ParamExpr

variable {K : Type}

section Parts

/-- The operands of the outermost operation. -/
def parts : ParamExpr K → List (ParamExpr K)
  | constant _ | symbol _ | pi => []
  | neg e | function _ e => [e]
  | add a b | sub a b | mul a b | div a b | pow a b => [a, b]

/-- The same operation on other operands. -/
def mapParts (f : ParamExpr K → ParamExpr K) : ParamExpr K → ParamExpr K
  | neg e => neg (f e)
  | function n e => function n (f e)
  | add a b => add (f a) (f b)
  | sub a b => sub (f a) (f b)
  | mul a b => mul (f a) (f b)
  | div a b => div (f a) (f b)
  | pow a b => pow (f a) (f b)
  | e => e

/-- Being the parameter itself or a part at any depth. -/
inductive Within (q : ParamExpr K) : ParamExpr K → Prop
  | self : Within q q
  | part {p e : ParamExpr K} (hp : p ∈ e.parts) (h : Within q p) : Within q e

theorem parts_mapParts (f : ParamExpr K → ParamExpr K) (e : ParamExpr K) :
    (e.mapParts f).parts = e.parts.map f := by
  cases e <;> rfl

theorem mapParts_congr {f g : ParamExpr K → ParamExpr K} {e : ParamExpr K} (h : ∀ q ∈ e.parts, f q = g q) :
    e.mapParts f = e.mapParts g := by
  cases e <;> simp only [parts, List.forall_mem_cons] at h <;> simp only [mapParts, h]

theorem mapParts_mapParts (f g : ParamExpr K → ParamExpr K) (e : ParamExpr K) :
    (e.mapParts f).mapParts g = e.mapParts fun q => g (f q) := by
  cases e <;> rfl

/-- What a parameter has whenever its operands have it, all parameters have. -/
theorem parts_induction {motive : ParamExpr K → Prop} (h : ∀ e, (∀ q ∈ e.parts, motive q) → motive e)
    (e : ParamExpr K) : motive e := by
  induction e with
  | constant | symbol | pi => exact h _ nofun
  | neg _ ih | function _ _ ih => exact h _ (List.forall_mem_singleton.2 ih)
  | add _ _ ha hb | sub _ _ ha hb | mul _ _ ha hb | div _ _ ha hb | pow _ _ ha hb =>
    exact h _ (List.forall_mem_cons.2 ⟨ha, List.forall_mem_singleton.2 hb⟩)

end Parts

variable [Arithmetic K] {e p q : ParamExpr K} {x y k : K} {symbols : String → Option K}

section Values

theorem eval?_mapParts {f : ParamExpr K → ParamExpr K}
    (h : ∀ q ∈ e.parts, (f q).eval? symbols = q.eval? symbols) :
    (e.mapParts f).eval? symbols = e.eval? symbols := by
  cases e <;> simp only [parts, List.forall_mem_cons] at h <;> simp only [mapParts, eval?, h]

theorem eval?_neg (p : ParamExpr K) : (neg p).eval? symbols = (p.eval? symbols).map Arithmetic.neg := rfl

theorem eval?_multiple (p : ParamExpr K) (k : K) :
    (mul (constant k) p).eval? symbols = (p.eval? symbols).bind fun y => some (Arithmetic.mul k y) := rfl

/-- A value that needs no symbol is the value under every valuation. -/
theorem eval?_of_value? (h : e.value? = some x) : e.eval? symbols = some x := by
  induction e generalizing x with
  | constant | pi => exact h
  | symbol => nomatch h
  | neg e ih =>
    obtain ⟨y, hy, rfl⟩ := Option.map_eq_some_iff.1 h
    exact Option.map_eq_some_iff.2 ⟨y, ih hy, rfl⟩
  | function n e ih =>
    obtain ⟨y, hy, hx⟩ := Option.bind_eq_some_iff.1 h
    exact Option.bind_eq_some_iff.2 ⟨y, ih hy, hx⟩
  | add a b iha ihb | sub a b iha ihb | mul a b iha ihb | div a b iha ihb | pow a b iha ihb =>
    obtain ⟨y, hy, hrest⟩ := Option.bind_eq_some_iff.1 h
    obtain ⟨z, hz, hx⟩ := Option.bind_eq_some_iff.1 hrest
    exact Option.bind_eq_some_iff.2 ⟨y, iha hy, Option.bind_eq_some_iff.2 ⟨z, ihb hz, hx⟩⟩

end Values

section Simplified

theorem simplify_eq (e : ParamExpr K) : e.simplify = (e.value?.map constant).getD (e.mapParts simplify) := by
  unfold simplify
  cases e.value? with
  | some x => rfl
  | none => cases e <;> rfl

theorem simplify_known (h : e.value? = some x) : e.simplify = constant x := by
  rw [simplify_eq, h]
  rfl

theorem simplify_unknown (h : e.value? = none) : e.simplify = e.mapParts simplify := by
  rw [simplify_eq, h]
  rfl

theorem eval?_simplify (p : ParamExpr K) : p.simplify.eval? symbols = p.eval? symbols := by
  induction p using parts_induction with
  | h e ih =>
    cases hvalue : e.value? with
    | some x =>
      rw [simplify_known hvalue, eval?_of_value? hvalue]
      rfl
    | none => rw [simplify_unknown hvalue, eval?_mapParts ih]

theorem value?_simplify (p : ParamExpr K) : p.simplify.value? = p.value? := eval?_simplify p

theorem simplify_simplify (p : ParamExpr K) : p.simplify.simplify = p.simplify := by
  induction p using parts_induction with
  | h e ih =>
    cases hvalue : e.value? with
    | some x =>
      rw [simplify_known hvalue]
      exact simplify_known rfl
    | none =>
      have hagain : e.simplify.value? = none := (value?_simplify e).trans hvalue
      rw [simplify_unknown hagain, simplify_unknown hvalue, mapParts_mapParts, mapParts_congr ih]

/-- A part of a simplified parameter has a value only if it is written as that value. -/
theorem within_simplify (h : Within q p.simplify) (hq : q.value? = some x) : q = constant x := by
  induction p using parts_induction with
  | h e ih =>
    cases hvalue : e.value? with
    | some y =>
      rw [simplify_known hvalue] at h
      cases h with
      | self => cases hq; rfl
      | part hp => nomatch hp
    | none =>
      -- The whole has no value, so the part is in one of the operands, which are simplified too.
      have hsimple := simplify_unknown hvalue
      generalize hs : e.simplify = s at h
      cases h with
      | self =>
        have hnone : q.value? = none := by rw [← hs, value?_simplify, hvalue]
        nomatch hnone.symm.trans hq
      | part hp hwithin =>
        rw [← hs, hsimple, parts_mapParts] at hp
        obtain ⟨c, hc, rfl⟩ := List.mem_map.1 hp
        exact ih c hc hwithin

end Simplified

section Signed

variable [LawfulArithmetic K]

theorem eval?_negated (p : ParamExpr K) :
    p.negated.eval? symbols = (p.eval? symbols).map Arithmetic.neg := by
  unfold negated
  split
  · next inner =>
    -- The sign that is dropped would be changed twice.
    have hneg : (Arithmetic.neg ∘ Arithmetic.neg : K → K) = id := funext LawfulArithmetic.neg_neg
    rw [eval?_neg, Option.map_map, hneg, Option.map_id_apply]
  · cases hvalue : p.value? with
    | some x =>
      rw [eval?_of_value? hvalue]
      rfl
    | none => rfl

theorem eval?_scaled (p : ParamExpr K) (k : K) :
    (p.scaled k).eval? symbols = (p.eval? symbols).map (Arithmetic.mul k) := by
  unfold scaled
  split
  · next hone =>
    have hid : (Arithmetic.mul k : K → K) = id := funext (LawfulArithmetic.one_mul hone)
    rw [hid, Option.map_id_apply]
  · cases hvalue : p.value? with
    | some x =>
      rw [eval?_of_value? hvalue]
      exact congrArg some (LawfulArithmetic.mul_comm x k)
    | none =>
      dsimp only
      rw [eval?_multiple]
      cases p.eval? symbols <;> rfl

end Signed

/-- Rewriting keeps values, over any arithmetic with the three laws: what is simplified has the value of the
parameter, what is negated that value with its sign changed, what is scaled a multiple of it, and none of them
has a value where the parameter has none. A second simplification changes nothing, and no part of a simplified
parameter has a value that needs no symbol unless it is a number. -/
theorem rewriting_keeps_value [LawfulArithmetic K] (p : ParamExpr K) (k : K) (symbols : String → Option K) :
    p.simplify.eval? symbols = p.eval? symbols ∧
      p.negated.eval? symbols = (p.eval? symbols).map Arithmetic.neg ∧
        (p.scaled k).eval? symbols = (p.eval? symbols).map (Arithmetic.mul k) ∧
          p.simplify.simplify = p.simplify ∧
            ∀ q x, Within q p.simplify → q.value? = some x → q = constant x :=
  ⟨eval?_simplify p, eval?_negated p, eval?_scaled p k, simplify_simplify p, fun _ _ => within_simplify⟩

/-- The laws hold of doubles. In a quotient by zero nothing is evaluated but its operands, and a factor is put
before it. -/
theorem rewriting_keeps_value_doubles : LawfulArithmetic Float ∧
    ∀ symbols : String → Option Float,
      let p : Parameter := div (add (symbol "a") (mul pi (constant 2.0))) (sub pi pi)
      p.simplify.eval? symbols = p.eval? symbols ∧
        p.negated.eval? symbols = (p.eval? symbols).map Arithmetic.neg ∧
          (p.scaled 0.5).eval? symbols = (p.eval? symbols).map (Arithmetic.mul 0.5) ∧
            p.simplify.simplify = p.simplify ∧
              ∀ q x, Within q p.simplify → q.value? = some x → q = constant x :=
  ⟨inferInstance, rewriting_keeps_value (div (add (symbol "a") (mul pi (constant 2.0))) (sub pi pi)) 0.5⟩

end ParamExpr
end OpenQasm
