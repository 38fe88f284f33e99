import OpenQasm.Analysis.Program
import OpenQasm.Proofs.Evaluation

/-!
How deep calls can be nested. A chain of calls gets deeper inside an argument, inside the signature of a
subroutine, or inside a body. Bodies do not open twice, so there are at most as many as definitions; between
two of them, the signatures that are passed have lower and lower ranks; and the arguments are parts of one
text.
-/
namespace OpenQasm

section Weigh

variable {α : Type} {a b : α → Nat} {xs : List α}

theorem weigh_le (hle : ∀ x, a x ≤ b x) (xs : List α) : weigh a xs ≤ weigh b xs := by
  induction xs with
  | nil => exact Nat.zero_le _
  | cons x xs ih => exact Nat.add_le_add (hle x) ih

/-- Parts weigh less than the wholes by what is missing in one of them. -/
theorem weigh_add_le {x : α} {c : Nat} (hx : x ∈ xs) (hle : ∀ x, a x ≤ b x) (hc : a x + c ≤ b x) :
    weigh a xs + c ≤ weigh b xs := by
  induction xs with
  | nil => exact absurd hx List.not_mem_nil
  | cons y ys ih =>
    rw [weigh_cons, weigh_cons]
    rcases List.mem_cons.1 hx with rfl | hx
    · have hrest := weigh_le hle ys
      omega
    · have hrest := ih hx
      have hy := hle y
      omega

theorem length_bodyCallees (body : List Statement) :
    (bodyCallees body).length = weigh (·.callees.length) body := by
  induction body with
  | nil => rfl
  | cons st rest ih => rw [bodyCallees, List.length_append, ih, weigh_cons]

end Weigh

namespace Program

/-- The signatures of a program lead from subroutines to ones of lower ranks only. -/
def Ranked (p : Program) (rank : String → Nat) : Prop :=
  ∀ d ∈ p.subroutines, ∀ f ∈ d.signatureCallees, f ∈ p.subroutines.map (·.name) →
    rank f < rank d.name

instance (p : Program) (rank : String → Nat) : Decidable (p.Ranked rank) :=
  inferInstanceAs (Decidable (∀ d ∈ p.subroutines, ∀ f ∈ d.signatureCallees,
    f ∈ p.subroutines.map (·.name) → rank f < rank d.name))

section Measure

variable (p : Program) (rank : String → Nat)

/-- What a call weighs in a text. In the signature of a subroutine of some rank, calls of subroutines
that are not of lower rank weigh too much to occur. -/
def callWeight (bound : Option Nat) (f : String) : Nat :=
  if bound.any (· ≤ rank f) ∧ f ∈ p.subroutines.map (·.name) then p.callees.length + 1 else 1

/-- The number of calls in the signature that a statement defines, if it is of lower rank. -/
def signatureCost (bound : Option Nat) (st : Statement) : Nat :=
  match st.subroutine? with
  | some d => if bound.all (rank d.name < ·) then d.signatureCallees.length else 0
  | none => 0

/-- The number of calls in all signatures of lower rank. -/
def signatureCosts (bound : Option Nat) : Nat := weigh (signatureCost rank bound) p.statements

/-- How deep calls in a text of weight `k` can be nested when so many bodies are open. -/
def depthBound (opened : List String) (bound : Option Nat) (k : Nat) : Nat :=
  (p.definedNames.length - opened.length) * (p.callees.length + 1) + p.signatureCosts rank bound + k

end Measure

variable {p : Program} {rank : String → Nat} {bound : Option Nat} {st : Statement}

theorem one_le_callWeight (p : Program) (rank : String → Nat) (bound : Option Nat) (f : String) :
    1 ≤ p.callWeight rank bound f := by
  unfold callWeight
  split <;> omega

theorem weigh_eq_length {callees : List String}
    (h : ∀ f ∈ callees, f ∈ p.subroutines.map (·.name) → bound.all (rank f < ·)) :
    weigh (p.callWeight rank bound) callees = callees.length := by
  induction callees with
  | nil => rfl
  | cons f fs ih =>
    have hf : p.callWeight rank bound f = 1 := by
      apply if_neg
      rintro ⟨hany, hmem⟩
      have hall := h f List.mem_cons_self hmem
      cases bound with
      | none => nomatch hany
      | some b =>
        simp only [Option.any_some, Option.all_some, decide_eq_true_eq] at hany hall
        omega
    rw [weigh_cons, hf, ih fun g hg => h g (List.mem_cons_of_mem _ hg), List.length_cons,
      Nat.add_comm]

theorem weigh_none (callees : List String) :
    weigh (p.callWeight rank none) callees = callees.length :=
  weigh_eq_length fun _ _ _ => rfl

theorem length_callees (p : Program) : p.callees.length = weigh (·.callees.length) p.statements :=
  length_bodyCallees p.statements

section Definitions

variable {d : SubroutineDefinition} (hd : st.kind = .defineSubroutine d)

include hd

theorem subroutine?_eq : st.subroutine? = some d := by
  unfold Statement.subroutine?
  rw [hd]

theorem callees_eq : st.callees = d.signatureCallees ++ bodyCallees d.body := by
  obtain ⟨kind, span⟩ := st
  obtain ⟨name, formals, result, body⟩ := d
  cases hd
  rw [Statement.callees, StatementKind.callees, SubroutineDefinition.callees]
  rfl

/-- The signature of a subroutine does not count where its own rank is the bound. -/
theorem signatureCost_own : signatureCost rank (some (rank d.name)) st = 0 := by
  unfold signatureCost
  rw [subroutine?_eq hd]
  simp only [Option.all_some, Nat.lt_irrefl, decide_false, Bool.false_eq_true, if_false]

theorem signatureCost_lower (hlower : bound.all (rank d.name < ·)) :
    signatureCost rank bound st = d.signatureCallees.length := by
  unfold signatureCost
  rw [subroutine?_eq hd]
  exact if_pos hlower

/-- The body of a subroutine holds the calls that are not in its signature. -/
theorem signatureCost_subroutine :
    signatureCost rank none st + (bodyCallees d.body).length = st.callees.length := by
  rw [callees_eq hd, List.length_append, signatureCost_lower hd rfl]

end Definitions

/-- The body of a gate holds all calls of the definition. -/
theorem signatureCost_gate {d : GateDefinition} (hd : st.kind = .defineGate d) :
    signatureCost rank none st + (bodyCallees d.body).length = st.callees.length := by
  obtain ⟨kind, span⟩ := st
  obtain ⟨name, params, qubits, body⟩ := d
  cases hd
  rw [Statement.callees, StatementKind.callees, GateDefinition.callees]
  exact Nat.zero_add _

theorem signatureCost_le (bound : Option Nat) (st : Statement) :
    signatureCost rank bound st ≤ st.callees.length := by
  unfold signatureCost
  split
  · next d hsubroutine =>
    have hd : st.kind = .defineSubroutine d := by
      unfold Statement.subroutine? at hsubroutine
      split at hsubroutine
      · next hkind => rw [hkind, Option.some.inj hsubroutine]
      · cases hsubroutine
    rw [callees_eq hd, List.length_append]
    split <;> omega
  · exact Nat.zero_le _

/-- All signatures and the calls of a text that is not among them. -/
theorem signatureCosts_add_le {k : Nat} (hst : st ∈ p.statements)
    (hk : signatureCost rank bound st + k ≤ st.callees.length) :
    p.signatureCosts rank bound + k ≤ p.callees.length := by
  rw [length_callees]
  exact weigh_add_le hst (signatureCost_le bound) hk

section Signatures

variable {d : SubroutineDefinition} (hst : st ∈ p.statements) (hd : st.kind = .defineSubroutine d)

include hst hd

theorem mem_subroutines : d ∈ p.subroutines := List.mem_filterMap.2 ⟨st, hst, subroutine?_eq hd⟩

theorem signatureCosts_lower (hlower : bound.all (rank d.name < ·)) :
    p.signatureCosts rank (some (rank d.name)) + d.signatureCallees.length ≤
      p.signatureCosts rank bound := by
  refine weigh_add_le hst (fun st => ?_) ?_
  · unfold signatureCost
    split
    · next d' _ =>
      cases bound with
      | none =>
        simp only [Option.all_none, if_true]
        split <;> omega
      | some b =>
        simp only [Option.all_some, decide_eq_true_eq] at hlower ⊢
        split
        · exact Nat.le_of_eq (by rw [if_pos (by omega)])
        · exact Nat.zero_le _
    · exact Nat.le_refl _
  · rw [signatureCost_own hd, signatureCost_lower hd hlower]
    exact Nat.le_of_eq (Nat.zero_add _)

/-- The signature of a subroutine can only be reached with calls left to pass. -/
theorem depthBound_signature (hranked : p.Ranked rank) (opened : List String) {k : Nat}
    (hk : p.callWeight rank bound d.name ≤ k) :
    p.depthBound rank opened (some (rank d.name))
        (weigh (p.callWeight rank (some (rank d.name))) d.signatureCallees) + 1 ≤
      p.depthBound rank opened bound k := by
  have hmem := mem_subroutines hst hd
  have hlength : weigh (p.callWeight rank (some (rank d.name))) d.signatureCallees =
      d.signatureCallees.length := by
    apply weigh_eq_length
    intro f hf hsubroutine
    rw [Option.all_some, decide_eq_true_eq]
    exact hranked d hmem f hf hsubroutine
  rw [hlength]
  unfold depthBound
  -- Where the rank is not lower, the call weighs more than all calls of the program.
  by_cases hlower : bound.all (rank d.name < ·)
  · have hcosts := signatureCosts_lower hst hd hlower
    have hone := one_le_callWeight p rank bound d.name
    omega
  · have hcosts : p.signatureCosts rank (some (rank d.name)) + d.signatureCallees.length ≤
        p.callees.length := by
      apply signatureCosts_add_le hst
      rw [signatureCost_own hd, callees_eq hd, List.length_append]
      omega
    have hheavy : p.callWeight rank bound d.name = p.callees.length + 1 := by
      refine if_pos ⟨?_, List.mem_map_of_mem hmem⟩
      cases bound with
      | none => exact absurd rfl hlower
      | some b =>
        simp only [Option.all_some, Option.any_some, decide_eq_true_eq] at hlower ⊢
        omega
    omega

end Signatures

/-- A body can only be reached with bodies left to open. -/
theorem depthBound_body {opened : List String} {name : String} {body : List Statement} {k : Nat}
    (hst : st ∈ p.statements)
    (hbody : signatureCost rank none st + (bodyCallees body).length ≤ st.callees.length)
    (hopened : opened.length < p.definedNames.length) (hk : 1 ≤ k) :
    p.depthBound rank (name :: opened) none (weigh (p.callWeight rank none) (bodyCallees body)) + 1 ≤
      p.depthBound rank opened bound k := by
  have hcosts := signatureCosts_add_le hst hbody
  obtain ⟨left, hleft⟩ : ∃ left, p.definedNames.length - opened.length = left + 1 :=
    ⟨p.definedNames.length - opened.length - 1, by omega⟩
  have hleft' : p.definedNames.length - (name :: opened).length = left := by
    rw [List.length_cons]
    omega
  -- One body less is left to open, and its share of the bound covers all calls in the body.
  rw [weigh_none]
  unfold depthBound
  rw [hleft, hleft', Nat.add_mul, Nat.one_mul]
  omega

/-- The calls of a program that are in no definition are nested less deep than the bound. -/
theorem depthBound_topLevel (rank : String → Nat) (hst : st ∈ p.statements)
    (hnone : st.subroutine? = none) :
    p.depthBound rank [] none (weigh (p.callWeight rank none) st.callees) ≤
      Analysis.nestingBound p := by
  have hcosts : p.signatureCosts rank none + st.callees.length ≤ p.callees.length := by
    apply signatureCosts_add_le hst
    unfold signatureCost
    exact Nat.le_of_eq (by rw [hnone, Nat.zero_add])
  rw [weigh_none]
  unfold depthBound Analysis.nestingBound
  rw [List.length_nil, Nat.sub_zero, Nat.mul_comm (p.callees.length + 1), Nat.add_mul, Nat.one_mul]
  omega

end Program

end OpenQasm
