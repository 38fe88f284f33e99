import OpenQasm.Analysis.Assign
import OpenQasm.Proofs.Evaluation

/-!
Looking at an expression without evaluating calls. Where no subroutine is called, evaluation changes
nothing at all, and rewriting an expression for the flat program does no more than to give names to
variables. The type of an expression and the check of an initializer see calls, but they evaluate none
beside those that are hidden: in an index, in the type of a cast or in a measured operand.
-/
namespace OpenQasm

mutual

/-- The names that an expression calls in its indices, in the types of its casts and in measured
operands. -/
def Expr.hiddenCallees : Expr → List String
  | .unary _ e | .paren e => e.hiddenCallees
  | .measure e => e.callees
  | .binary l _ r => l.hiddenCallees ++ r.hiddenCallees
  | .call _ args => exprsHiddenCallees args
  | .index base items => base.hiddenCallees ++ itemsCallees items
  | .cast t e => t.callees ++ e.hiddenCallees
  | .array items => exprsHiddenCallees items
  | _ => []

def exprsHiddenCallees : List Expr → List String
  | [] => []
  | e :: es => e.hiddenCallees ++ exprsHiddenCallees es

end

/-- What is read off a binding is the same for symbols of one key. -/
theorem Symbol.bind_eq_of_key {α : Type} {f : Symbol → Option α} {x y : Option Symbol}
    (hf : ∀ x y, x.binding = y.binding → f x = f y) (h : x.map key = y.map key) : x.bind f = y.bind f := by
  cases x with
  | none =>
    cases y with
    | none => rfl
    | some y => cases h
  | some x =>
    cases y with
    | none => cases h
    | some y => exact hf x y (congrArg (·.2.2) (Option.some.inj h))

namespace Scopes

/-- The subroutine that a name stands for. -/
def subroutine? (s : Scopes) (name : String) : Option SubroutineDefinition :=
  (s.resolve? name).bind Symbol.subroutine?

/-- None of some names stands for a subroutine. -/
def Silent (s : Scopes) (callees : List String) : Prop := ∀ f ∈ callees, s.subroutine? f = none

instance (s : Scopes) (callees : List String) : Decidable (s.Silent callees) :=
  inferInstanceAs (Decidable (∀ f ∈ callees, s.subroutine? f = none))

variable {s t : Scopes} {a b : List String}

theorem subroutine?_eq_of_key {name : String}
    (h : (s.resolve? name).map Symbol.key = (t.resolve? name).map Symbol.key) :
    s.subroutine? name = t.subroutine? name := by
  refine Symbol.bind_eq_of_key (fun x y hbinding => ?_) h
  unfold Symbol.subroutine?
  rw [hbinding]

theorem Same.subroutine? (h : Same s t) (name : String) : t.subroutine? name = s.subroutine? name :=
  subroutine?_eq_of_key (h.resolve? name).symm

theorem Same.silent (h : Same s t) : t.Silent a ↔ s.Silent a := by
  unfold Silent
  simp only [h.subroutine?]

theorem subroutine?_withBuiltins (name : String) : withBuiltins.subroutine? name = none := by
  apply Option.bind_eq_none_iff.2
  intro x hx
  rcases has_of_resolve? hx with hmem | ⟨scope, hscope, -⟩
  · obtain ⟨g, -, rfl⟩ := List.mem_map.1 (List.mem_reverse.1 hmem)
    rfl
  · nomatch hscope

/-- Where no subroutine is declared, a declaration adds at most one. -/
theorem subroutine?_push (hnone : ∀ name, s.subroutine? name = none) {x : Symbol} {name : String}
    {d : SubroutineDefinition} (hd : (s.push x).subroutine? name = some d) :
    x.binding = .subroutine d := by
  obtain ⟨y, hy, hbinding⟩ := Option.bind_eq_some_iff.1 hd
  unfold Symbol.subroutine? at hbinding
  split at hbinding
  · next hsubroutine =>
    cases hbinding
    rcases resolve?_push s x name with hkey | hsame
    · rw [hy] at hkey
      have hxy : y.binding = x.binding := congrArg (·.2.2) (Option.some.inj hkey)
      exact hxy.symm.trans hsubroutine
    · have hsilent : (s.push x).subroutine? name = none := by
        rw [subroutine?, hsame]
        exact hnone name
      nomatch hd.symm.trans hsilent
  · nomatch hbinding

theorem silent_nil : s.Silent [] := fun _ hf => absurd hf List.not_mem_nil

theorem silent_append : s.Silent (a ++ b) ↔ s.Silent a ∧ s.Silent b := by
  simp only [Silent, List.forall_mem_append]

theorem silent_cons {f : String} : s.Silent (f :: a) ↔ s.subroutine? f = none ∧ s.Silent a := by
  simp only [Silent, List.forall_mem_cons]

theorem Silent.subset (h : s.Silent b) (hsubset : a ⊆ b) : s.Silent a := fun f hf => h f (hsubset hf)

end Scopes

mutual

theorem Expr.hiddenCallees_subset : ∀ e : Expr, e.hiddenCallees ⊆ e.callees
  | .unary _ e => Expr.hiddenCallees_subset e
  | .paren e => Expr.hiddenCallees_subset e
  | .measure _ => List.Subset.refl _
  | .binary l _ r => by
    have hl := Expr.hiddenCallees_subset l
    have hr := Expr.hiddenCallees_subset r
    exact List.append_subset.2 ⟨List.subset_append_of_subset_left _ hl,
      List.subset_append_of_subset_right _ hr⟩
  | .call _ args => List.subset_cons_of_subset _ (exprsHiddenCallees_subset args)
  | .index base _ => by
    have hbase := Expr.hiddenCallees_subset base
    exact List.append_subset.2 ⟨List.subset_append_of_subset_left _ hbase,
      List.subset_append_right _ _⟩
  | .cast _ e => by
    have he := Expr.hiddenCallees_subset e
    exact List.append_subset.2 ⟨List.subset_append_left _ _,
      List.subset_append_of_subset_right _ he⟩
  | .array items => exprsHiddenCallees_subset items
  | .int _ | .float _ | .imaginary _ | .bool _ | .bits _ | .duration _ _ | .name _ | .constant _ =>
    List.Subset.refl _

theorem exprsHiddenCallees_subset : ∀ es : List Expr, exprsHiddenCallees es ⊆ exprsCallees es
  | [] => List.Subset.refl _
  | e :: es => by
    have he := Expr.hiddenCallees_subset e
    have hes := exprsHiddenCallees_subset es
    exact List.append_subset.2 ⟨List.subset_append_of_subset_left _ he,
      List.subset_append_of_subset_right _ hes⟩

end

namespace Analysis

variable {α β : Type}

/-- How naming variables changes a state: the same symbols are declared, nothing is reported, and what is
put out are assignments. -/
structure Naming (s t : State) : Prop where
  scopes : s.scopes.Same t.scopes
  output : ∃ added, t.output = added ++ s.output ∧
    ∀ f ∈ added, ∃ target value, f = .assign target value
  diagnostics : t.diagnostics = s.diagnostics

namespace Naming

variable {s t u : State}

theorem refl (s : State) : Naming s s := ⟨Scopes.Same.refl _, ⟨[], rfl, nofun⟩, rfl⟩

theorem trans (h : Naming s t) (h' : Naming t u) : Naming s u := by
  obtain ⟨added, hadded, hassigns⟩ := h.output
  obtain ⟨added', hadded', hassigns'⟩ := h'.output
  refine ⟨h.scopes.trans h'.scopes, ⟨added' ++ added, ?_, ?_⟩, h'.diagnostics.trans h.diagnostics⟩
  · rw [hadded', hadded, List.append_assoc]
  · exact List.forall_mem_append.2 ⟨hassigns', hassigns⟩

end Naming

/-- A step that changes nothing where the same symbols are declared as in some scopes. -/
def Leaves (scopes : Scopes) (x : Analysis α) : Prop :=
  ∀ config s, scopes.Same s.scopes → (x config s).2 = s

/-- A step that at most gives names to variables there. -/
def Names (scopes : Scopes) (x : Analysis α) : Prop :=
  ∀ config s, scopes.Same s.scopes → Naming s (x config s).2

section Rules

variable {scopes : Scopes} {x : Analysis α} {f : α → Analysis β}

theorem Leaves.pure (a : α) : Leaves scopes (Pure.pure a : Analysis α) := fun _ _ _ => rfl

theorem Leaves.fail (p : Problem) : Leaves scopes (Analysis.fail p : Analysis α) := fun _ _ _ => rfl

theorem Leaves.failConstruct (p : Problem) : Leaves scopes (Analysis.failConstruct p : Analysis α) :=
  fun _ _ _ => rfl

theorem Leaves.bind (hx : Leaves scopes x) (hf : ∀ a, Leaves scopes (f a)) :
    Leaves scopes (x >>= f) := by
  intro config s hs
  have hstate := hx config s hs
  rw [run_bind]
  rcases hr : x config s with ⟨e | a, t⟩
  · rw [hr] at hstate
    exact hstate
  · rw [hr] at hstate
    subst hstate
    exact hf a config _ hs

theorem Leaves.map {φ : α → β} (hx : Leaves scopes x) : Leaves scopes (φ <$> x) :=
  hx.bind fun _ => Leaves.pure _

theorem Leaves.ite {c : Prop} [Decidable c] {y : Analysis α} (hx : Leaves scopes x)
    (hy : Leaves scopes y) : Leaves scopes (if c then x else y) := by
  split
  · exact hx
  · exact hy

/-- A step that depends on the state it starts in. -/
theorem Leaves.get {f : State → Analysis α}
    (hf : ∀ s, scopes.Same s.scopes → Leaves scopes (f s)) : Leaves scopes (MonadState.get >>= f) :=
  fun config s hs => hf s hs config s hs

/-- A name is looked up; it stands for a subroutine if it does so in the scopes that are given. -/
theorem Leaves.resolve? {name : String} {f : Option Symbol → Analysis α}
    (hf : ∀ x, x.bind Symbol.subroutine? = scopes.subroutine? name → Leaves scopes (f x)) :
    Leaves scopes (Analysis.resolve? name >>= f) :=
  fun config s hs => hf _ (hs.subroutine? name) config s hs

theorem Leaves.names (hx : Leaves scopes x) : Names scopes x := by
  intro config s hs
  rw [hx config s hs]
  exact Naming.refl s

theorem Names.bind (hx : Names scopes x) (hf : ∀ a, Names scopes (f a)) : Names scopes (x >>= f) := by
  intro config s hs
  have hstate := hx config s hs
  rw [run_bind]
  rcases hr : x config s with ⟨e | a, t⟩
  · rw [hr] at hstate
    exact hstate
  · rw [hr] at hstate
    exact hstate.trans (hf a config t (hs.trans hstate.scopes))

theorem Names.pure (a : α) : Names scopes (Pure.pure a : Analysis α) := (Leaves.pure a).names

theorem Names.fail (p : Problem) : Names scopes (Analysis.fail p : Analysis α) := (Leaves.fail p).names

end Rules

section Reading

variable {scopes : Scopes}

theorem resolve_leaves (name : String) : Leaves scopes (resolve name) :=
  Leaves.resolve? fun x _ => by
    cases x with
    | none => exact Leaves.fail _
    | some x => exact Leaves.pure x

theorem orFail_leaves {ε : Type} (problem : ε → Problem) (r : Except ε α) :
    Leaves scopes (orFail problem r) := by
  cases r with
  | ok a => exact Leaves.pure a
  | error e => exact Leaves.fail _

theorem nameValue_leaves (name : String) : Leaves scopes (nameValue name) := by
  apply (resolve_leaves name).bind
  intro x
  split <;> first | exact Leaves.pure _ | exact Leaves.fail _

theorem nameType_leaves (name : String) : Leaves scopes (nameType name) := by
  apply (resolve_leaves name).bind
  intro x
  split <;> first | exact Leaves.pure _ | exact Leaves.fail _

theorem nameView_leaves (name : String) : Leaves scopes (nameView name) := by
  apply (resolve_leaves name).bind
  intro x
  split <;> first | exact Leaves.pure _ | exact Leaves.fail _

theorem callValue_leaves (name : String) (r : Option RightValue) :
    Leaves scopes (callValue name r) := by
  rcases r with _ | v | e | qubits
  · exact Leaves.fail _
  · exact Leaves.pure _
  · exact Leaves.fail _
  · exact Leaves.fail _

theorem functionValue_leaves (f : String) (v : Option Value) : Leaves scopes (functionValue f v) := by
  unfold functionValue
  split
  · exact Leaves.pure _
  · split
    · exact Leaves.fail _
    · split
      · exact Leaves.pure _
      · exact Leaves.fail _

theorem indexValue_leaves (e : Expr) (v : Option Value) : Leaves scopes (indexValue e v) := by
  unfold indexValue
  split
  · exact Leaves.pure _
  · exact Leaves.fail _
  · exact Leaves.fail _

theorem widthValue_leaves (e : Expr) (v : Option Value) : Leaves scopes (widthValue e v) := by
  unfold widthValue
  split
  · exact Leaves.ite (Leaves.fail _) (Leaves.ite (Leaves.pure _) (Leaves.fail _))
  · exact Leaves.fail _
  · exact Leaves.fail _

theorem checkWidth_leaves (kind : SizedKind) (n : Nat) : Leaves scopes (checkWidth kind n) := by
  cases kind <;>
    first
    | exact Leaves.pure _
    | exact Leaves.ite (Leaves.fail _) (Leaves.pure _)
    | exact Leaves.ite (Leaves.pure _) (Leaves.fail _)

theorem unaryType_leaves (op : UnaryOp) (t : ClassicalType) : Leaves scopes (unaryType op t) := by
  cases op with
  | not => exact Leaves.pure _
  | neg => exact Leaves.ite (Leaves.fail _) (Leaves.pure _)
  | bitNot => exact Leaves.pure _

theorem itemsType_leaves (t : ClassicalType) (items : List IndexItem) :
    Leaves scopes (itemsType t items) := by
  induction items generalizing t with
  | nil => exact Leaves.pure _
  | cons item rest ih =>
    unfold itemsType
    split
    · exact ih _
    · exact Leaves.fail _

theorem elementView_leaves (kind : RegisterKind) (v : View) (index : Int) :
    Leaves scopes (elementView kind v index) := by
  apply Leaves.get
  intro s _
  dsimp only
  split
  · exact Leaves.fail _
  · split
    · exact Leaves.pure _
    · exact Leaves.fail _

end Reading

end Analysis

/-- The types that visible subroutines declare for their results are found without a change. -/
def Calls.TypesResults (calls : Calls) (scopes : Scopes) : Prop :=
  ∀ f d t, scopes.subroutine? f = some d → d.result = some t →
    Analysis.Leaves scopes (calls.resultType d t)

namespace Analysis

section Evaluating

variable {calls : Calls} {scopes : Scopes}

mutual

theorem fold_leaves (h : calls.TypesResults scopes) : ∀ e : Expr, scopes.Silent e.callees →
    Leaves scopes (fold calls e)
  | .int _, _ => Leaves.ite (Leaves.pure _) (Leaves.fail _)
  | .float _, _ | .imaginary _, _ | .bool _, _ | .duration _ _, _ | .constant _, _ => Leaves.pure _
  | .bits digits, _ => by
    simp only [fold]
    split
    · exact Leaves.pure _
    · exact Leaves.fail _
  | .name n, _ => nameValue_leaves n
  | .unary op e, hs => by
    simp only [fold]
    apply (fold_leaves h e hs).bind
    intro v
    split
    · exact (orFail_leaves _ _).map
    · exact Leaves.pure _
  | .binary l op r, hs => by
    obtain ⟨hl, hr⟩ := Scopes.silent_append.1 hs
    simp only [fold]
    apply (fold_leaves h l hl).bind
    intro left
    split
    · exact Leaves.pure _
    · apply (fold_leaves h r hr).bind
      intro right
      split
      · exact (orFail_leaves _ _).map
      · exact Leaves.pure _
  | .call f args, hs => by
    obtain ⟨hf, hargs⟩ := Scopes.silent_cons.1 hs
    simp only [fold]
    apply Leaves.resolve?
    intro x hx
    rw [hx, hf]
    refine Leaves.ite ?_ (Leaves.ite (Leaves.fail _) (Leaves.fail _))
    exact (foldArgument_leaves h f args hargs).bind fun v => functionValue_leaves f v
  | .index base items, hs => by
    obtain ⟨hbase, hitems⟩ := Scopes.silent_append.1 hs
    simp only [fold]
    apply (infer_leaves h base (hbase.subset base.hiddenCallees_subset)).bind
    intro t
    apply (fold_leaves h base hbase).bind
    intro v
    exact foldItems_leaves h t v items hitems
  | .cast type e, hs => by
    obtain ⟨htype, he⟩ := Scopes.silent_append.1 hs
    simp only [fold]
    apply (resolveType_leaves h type htype).bind
    intro t
    apply (fold_leaves h e he).bind
    intro v
    split
    · exact (orFail_leaves _ _).map
    · exact Leaves.pure _
  | .array items, hs => by
    simp only [fold]
    exact (foldAll_leaves h items hs).bind fun vs => Leaves.pure _
  | .measure _, _ => Leaves.fail _
  | .paren e, hs => fold_leaves h e hs

theorem foldAll_leaves (h : calls.TypesResults scopes) : ∀ es : List Expr,
    scopes.Silent (exprsCallees es) → Leaves scopes (foldAll calls es)
  | [], _ => Leaves.pure _
  | e :: es, hs => by
    obtain ⟨he, hes⟩ := Scopes.silent_append.1 hs
    simp only [foldAll]
    apply (fold_leaves h e he).bind
    intro v
    exact (foldAll_leaves h es hes).bind fun vs => Leaves.pure _

theorem foldArgument_leaves (h : calls.TypesResults scopes) (f : String) : ∀ es : List Expr,
    scopes.Silent (exprsCallees es) → Leaves scopes (foldArgument calls f es)
  | [], _ => Leaves.fail _
  | [e], hs => fold_leaves h e (Scopes.silent_append.1 hs).1
  | _ :: _ :: _, _ => Leaves.fail _

theorem foldItems_leaves (h : calls.TypesResults scopes) :
    ∀ (t : ClassicalType) (v : Option Value) (items : List IndexItem),
      scopes.Silent (itemsCallees items) → Leaves scopes (foldItems calls t v items)
  | _, _, [], _ => Leaves.pure _
  | t, v, item :: rest, hs => by
    obtain ⟨hitem, hrest⟩ := Scopes.silent_append.1 hs
    simp only [foldItems]
    split
    · exact Leaves.fail _
    · apply (itemPositions_leaves h _ item hitem).bind
      intro positions
      split
      · exact foldItems_leaves h _ _ rest hrest
      · exact Leaves.fail _

theorem itemPositions_leaves (h : calls.TypesResults scopes) (n : Nat) : ∀ item : IndexItem,
    scopes.Silent item.callees → Leaves scopes (itemPositions calls n item)
  | .single e, hs => by
    simp only [itemPositions]
    apply (fold_leaves h e hs).bind
    intro v
    apply (indexValue_leaves e v).bind
    intro i
    exact (orFail_leaves _ _).bind fun p => Leaves.pure _
  | .set items, hs => setPositions_leaves h n items hs
  | .range r, hs => rangePositions_leaves h n r hs

theorem setPositions_leaves (h : calls.TypesResults scopes) (n : Nat) : ∀ es : List Expr,
    scopes.Silent (exprsCallees es) → Leaves scopes (setPositions calls n es)
  | [], _ => Leaves.pure _
  | e :: es, hs => by
    obtain ⟨he, hes⟩ := Scopes.silent_append.1 hs
    simp only [setPositions]
    apply (fold_leaves h e he).bind
    intro v
    apply (indexValue_leaves e v).bind
    intro i
    apply (orFail_leaves _ _).bind
    intro p
    exact (setPositions_leaves h n es hes).bind fun ps => Leaves.pure _

theorem rangePositions_leaves (h : calls.TypesResults scopes) (n : Nat) : ∀ r : RangeExpr,
    scopes.Silent r.callees → Leaves scopes (rangePositions calls n r)
  | ⟨start, step, stop⟩, hs => by
    obtain ⟨hends, hstop⟩ := Scopes.silent_append.1 hs
    obtain ⟨hstart, hstep⟩ := Scopes.silent_append.1 hends
    simp only [rangePositions]
    apply (rangePart_leaves h start hstart).bind
    intro a
    apply (rangePart_leaves h step hstep).bind
    intro b
    apply (rangePart_leaves h stop hstop).bind
    intro c
    exact orFail_leaves _ _

theorem rangePart_leaves (h : calls.TypesResults scopes) : ∀ e : Option Expr,
    scopes.Silent (optionCallees e) → Leaves scopes (rangePart calls e)
  | none, _ => Leaves.pure _
  | some e, hs => by
    simp only [rangePart]
    apply (fold_leaves h e hs).bind
    intro v
    exact (indexValue_leaves e v).bind fun i => Leaves.pure _

/-- The type of a call is the one that the subroutine declares; its arguments are not looked at. -/
theorem infer_leaves (h : calls.TypesResults scopes) : ∀ e : Expr, scopes.Silent e.hiddenCallees →
    Leaves scopes (infer calls e)
  | .int _, _ | .float _, _ | .constant _, _ | .imaginary _, _ | .bool _, _ | .bits _, _
  | .duration _ _, _ => Leaves.pure _
  | .name n, _ => nameType_leaves n
  | .unary op e, hs => by
    simp only [infer]
    exact (infer_leaves h e hs).bind fun t => unaryType_leaves op t
  | .binary l op r, hs => by
    obtain ⟨hl, hr⟩ := Scopes.silent_append.1 hs
    simp only [infer]
    apply (infer_leaves h l hl).bind
    intro t
    exact (infer_leaves h r hr).bind fun u => orFail_leaves _ _
  | .call f args, hs => by
    simp only [infer]
    apply Leaves.resolve?
    intro x hx
    split
    · next x =>
      split
      · exact Leaves.fail _
      · next d hd =>
        split
        · next t ht => exact h f d t (hx.symm.trans hd) ht
        · exact Leaves.fail _
    · refine Leaves.ite ?_ (Leaves.fail _)
      exact (inferAll_leaves h args hs).bind fun _ => Leaves.pure _
  | .index base items, hs => by
    obtain ⟨hbase, -⟩ := Scopes.silent_append.1 hs
    simp only [infer]
    exact (infer_leaves h base hbase).bind fun t => itemsType_leaves t items
  | .cast type _, hs => resolveType_leaves h type (Scopes.silent_append.1 hs).1
  | .array items, hs => by
    simp only [infer]
    exact (inferFirst_leaves h items hs).bind fun t => Leaves.pure _
  | .measure e, hs => by
    simp only [infer]
    apply (viewOf_leaves h e hs).bind
    intro v
    split
    · exact Leaves.pure _
    · exact Leaves.fail _
  | .paren e, hs => infer_leaves h e hs

theorem inferAll_leaves (h : calls.TypesResults scopes) : ∀ es : List Expr,
    scopes.Silent (exprsHiddenCallees es) → Leaves scopes (inferAll calls es)
  | [], _ => Leaves.pure _
  | e :: es, hs => by
    obtain ⟨he, hes⟩ := Scopes.silent_append.1 hs
    simp only [inferAll]
    apply (infer_leaves h e he).bind
    intro _
    exact inferAll_leaves h es hes

theorem inferFirst_leaves (h : calls.TypesResults scopes) : ∀ es : List Expr,
    scopes.Silent (exprsHiddenCallees es) → Leaves scopes (inferFirst calls es)
  | [], _ => Leaves.pure _
  | e :: _, hs => infer_leaves h e (Scopes.silent_append.1 hs).1

theorem resolveType_leaves (h : calls.TypesResults scopes) : ∀ t : TypeExpr,
    scopes.Silent t.callees → Leaves scopes (resolveType calls t)
  | .bool, _ | .duration, _ | .stretch, _ | .sized _ none, _ => Leaves.pure _
  | .sized kind (some e), hs => by
    simp only [resolveType]
    apply (fold_leaves h e hs).bind
    intro v
    apply (widthValue_leaves e v).bind
    intro n
    exact (checkWidth_leaves kind n).bind fun _ => Leaves.pure _
  | .array element dims, hs => by
    obtain ⟨helement, hdims⟩ := Scopes.silent_append.1 hs
    simp only [resolveType]
    apply (resolveType_leaves h element helement).bind
    intro t
    apply Leaves.ite (Leaves.fail _)
    exact (resolveWidths_leaves h dims hdims).bind fun _ => Leaves.pure _

theorem resolveWidths_leaves (h : calls.TypesResults scopes) : ∀ es : List Expr,
    scopes.Silent (exprsCallees es) → Leaves scopes (resolveWidths calls es)
  | [], _ => Leaves.pure _
  | e :: es, hs => by
    obtain ⟨he, hes⟩ := Scopes.silent_append.1 hs
    simp only [resolveWidths]
    apply (fold_leaves h e he).bind
    intro v
    apply (widthValue_leaves e v).bind
    intro n
    exact (resolveWidths_leaves h es hes).bind fun _ => Leaves.pure _

theorem viewOf_leaves (h : calls.TypesResults scopes) : ∀ e : Expr, scopes.Silent e.callees →
    Leaves scopes (viewOf calls e)
  | .name n, _ => nameView_leaves n
  | .index base items, hs => by
    obtain ⟨hbase, hitems⟩ := Scopes.silent_append.1 hs
    simp only [viewOf]
    apply (viewOf_leaves h base hbase).bind
    intro v
    exact (partView_leaves h v.1 v.2 items hitems).bind fun _ => Leaves.pure _
  | .binary l op r, hs => by
    obtain ⟨hl, hr⟩ := Scopes.silent_append.1 hs
    by_cases hop : op = .concat
    · subst hop
      simp only [viewOf]
      apply (viewOf_leaves h l hl).bind
      intro v
      apply (viewOf_leaves h r hr).bind
      intro w
      exact Leaves.ite (Leaves.pure _) (Leaves.fail _)
    · rw [viewOf]
      · exact Leaves.fail _
      all_goals simp_all
  | .paren e, hs => viewOf_leaves h e hs
  | .int _, _ | .float _, _ | .imaginary _, _ | .bool _, _ | .bits _, _ | .duration _ _, _
  | .constant _, _ | .unary _ _, _ | .call _ _, _ | .cast _ _, _ | .array _, _ | .measure _, _ =>
    Leaves.fail _

theorem partView_leaves (h : calls.TypesResults scopes) (kind : RegisterKind) (v : View) :
    ∀ items : List IndexItem, scopes.Silent (itemsCallees items) →
      Leaves scopes (partView calls kind v items)
  | [], _ => Leaves.fail _
  | [.single e], hs => by
    obtain ⟨he, -⟩ := Scopes.silent_append.1 hs
    simp only [partView]
    apply (fold_leaves h e he).bind
    intro w
    apply (indexValue_leaves e w).bind
    intro i
    exact elementView_leaves kind v i
  | [.set items], hs => by
    obtain ⟨hitems, -⟩ := Scopes.silent_append.1 hs
    simp only [partView]
    exact (itemPositions_leaves h _ (.set items) hitems).bind fun ps => Leaves.pure _
  | [.range r], hs => by
    obtain ⟨hr, -⟩ := Scopes.silent_append.1 hs
    simp only [partView]
    exact (itemPositions_leaves h _ (.range r) hr).bind fun ps => Leaves.pure _
  | a :: _ :: _, _ => by
    cases a <;> exact Leaves.fail _

end

theorem quantumQubits_leaves (h : calls.TypesResults scopes) (e : Expr)
    (hs : scopes.Silent e.callees) : Leaves scopes (quantumQubits calls e) := by
  have hview : Leaves scopes (quantumView calls e) := by
    apply (viewOf_leaves h e hs).bind
    intro v
    split
    · exact Leaves.pure _
    · exact Leaves.fail _
  exact hview.bind fun v => Leaves.get fun s _ => Leaves.pure _

end Evaluating

section Checking

variable {calls : Calls} {scopes : Scopes}

theorem checkScalar_leaves (h : calls.TypesResults scopes) (t : ClassicalType) (e : Expr)
    (hs : scopes.Silent e.hiddenCallees) : Leaves scopes (checkScalar calls t e) := by
  apply (infer_leaves h e hs).bind
  intro u
  exact (orFail_leaves _ _).bind fun _ => orFail_leaves _ _

mutual

theorem checkInitializer_leaves (h : calls.TypesResults scopes) : ∀ (t : ClassicalType) (e : Expr),
    scopes.Silent e.hiddenCallees → Leaves scopes (checkInitializer calls t e)
  | t, .paren e, hs => checkInitializer_leaves h t e hs
  | t, .array items, hs => by
    simp only [checkInitializer]
    split
    · exact Leaves.ite (Leaves.fail _) (checkItems_leaves h _ items hs)
    · exact checkScalar_leaves h t _ hs
  | t, .int _, hs | t, .float _, hs | t, .imaginary _, hs | t, .bool _, hs | t, .bits _, hs
  | t, .duration _ _, hs | t, .name _, hs | t, .constant _, hs | t, .unary _ _, hs
  | t, .binary _ _ _, hs | t, .call _ _, hs | t, .index _ _, hs | t, .cast _ _, hs
  | t, .measure _, hs => checkScalar_leaves h t _ hs

theorem checkItems_leaves (h : calls.TypesResults scopes) : ∀ (t : ClassicalType) (es : List Expr),
    scopes.Silent (exprsHiddenCallees es) → Leaves scopes (checkItems calls t es)
  | _, [], _ => Leaves.pure _
  | t, e :: es, hs => by
    obtain ⟨he, hes⟩ := Scopes.silent_append.1 hs
    simp only [checkItems]
    apply (checkInitializer_leaves h t e he).bind
    intro _
    exact checkItems_leaves h t es hes

end

end Checking

section Naming

variable {scopes : Scopes}

theorem reserve_names (name : String) : Names scopes (reserve name) :=
  fun _ s _ => ⟨Scopes.Same.refl s.scopes, ⟨[], rfl, nofun⟩, rfl⟩

theorem allocate_names (name : String) (size : Nat) (kind : RegisterKind) :
    Names scopes (allocate name size kind) := by
  intro config s _
  rw [allocate, run_get]
  rcases s.registers.allocate name size kind with e | ⟨id, view, registers⟩
  · exact Naming.refl s
  · exact ⟨Scopes.Same.refl s.scopes, ⟨[], rfl, fun _ hf => by cases hf⟩, rfl⟩

theorem addDeclaration_names (d : Declaration) : Names scopes (addDeclaration d) :=
  fun _ s _ => ⟨Scopes.Same.refl s.scopes, ⟨[], rfl, nofun⟩, rfl⟩

theorem assign_emit_names (target value : Expr) : Names scopes (emit (.assign target value)) := by
  refine fun _ s _ => ⟨Scopes.Same.refl s.scopes, ⟨[.assign target value], rfl, ?_⟩, rfl⟩
  exact List.forall_mem_singleton.2 ⟨target, value, rfl⟩

theorem setName_names (name emitName : String) :
    Names scopes (modifySymbol name fun x => { x with emitName := some emitName }) :=
  fun _ s _ => ⟨Scopes.same_modify (keepsKey_emitName _) s.scopes name, ⟨[], rfl, nofun⟩, rfl⟩

theorem hoist_names (name : String) (t : ClassicalType) : Names scopes (hoist name t) := by
  unfold hoist
  split
  · exact (allocate_names name _ .classical).bind fun _ => Names.pure _
  · apply (reserve_names name).bind
    intro emitName
    exact (addDeclaration_names _).bind fun _ => Names.pure _

theorem materialize_names (name : String) : Names scopes (materialize name) := by
  apply (resolve_leaves name).names.bind
  intro x
  split
  · exact Names.fail _
  · apply (hoist_names name _).bind
    intro emitName
    have hname : Names scopes (do
        modifySymbol name fun x => { x with emitName := some emitName }
        return emitName) := (setName_names name emitName).bind fun _ => Names.pure emitName
    split
    · exact (assign_emit_names _ _).bind fun _ => hname
    · exact hname

theorem runtimeName_names (name : String) : Names scopes (runtimeName name) := by
  apply (resolve_leaves name).names.bind
  intro x
  split
  · exact Names.pure _
  · split
    · exact materialize_names name
    · exact Names.fail _

end Naming

mutual

/-- What calls no subroutine outside of its indices calls none at all, if its indices do not either. -/
theorem silent_of_not_callsSubroutine {scopes : Scopes} : ∀ e : Expr,
    callsSubroutine scopes e = false → scopes.Silent e.hiddenCallees → scopes.Silent e.callees
  | .unary _ e, hcalls, hs => silent_of_not_callsSubroutine e hcalls hs
  | .paren e, hcalls, hs => silent_of_not_callsSubroutine e hcalls hs
  | .measure _, _, hs => hs
  | .binary l _ r, hcalls, hs => by
    obtain ⟨hcallsl, hcallsr⟩ := Bool.or_eq_false_iff.1 hcalls
    obtain ⟨hl, hr⟩ := Scopes.silent_append.1 hs
    exact Scopes.silent_append.2 ⟨silent_of_not_callsSubroutine l hcallsl hl,
      silent_of_not_callsSubroutine r hcallsr hr⟩
  | .call f args, hcalls, hs => by
    obtain ⟨hf, hcallsargs⟩ := Bool.or_eq_false_iff.1 hcalls
    exact Scopes.silent_cons.2 ⟨Option.isSome_eq_false_iff.1 hf |> Option.isNone_iff_eq_none.1,
      silent_of_not_anyCallsSubroutine args hcallsargs hs⟩
  | .index base _, hcalls, hs => by
    obtain ⟨hbase, hitems⟩ := Scopes.silent_append.1 hs
    exact Scopes.silent_append.2 ⟨silent_of_not_callsSubroutine base hcalls hbase, hitems⟩
  | .cast _ e, hcalls, hs => by
    obtain ⟨htype, he⟩ := Scopes.silent_append.1 hs
    exact Scopes.silent_append.2 ⟨htype, silent_of_not_callsSubroutine e hcalls he⟩
  | .array items, hcalls, hs => silent_of_not_anyCallsSubroutine items hcalls hs
  | .int _, _, hs | .float _, _, hs | .imaginary _, _, hs | .bool _, _, hs | .bits _, _, hs
  | .duration _ _, _, hs | .name _, _, hs | .constant _, _, hs => hs

theorem silent_of_not_anyCallsSubroutine {scopes : Scopes} : ∀ es : List Expr,
    anyCallsSubroutine scopes es = false → scopes.Silent (exprsHiddenCallees es) →
      scopes.Silent (exprsCallees es)
  | [], _, hs => hs
  | e :: es, hcalls, hs => by
    obtain ⟨hcallse, hcallses⟩ := Bool.or_eq_false_iff.1 hcalls
    obtain ⟨he, hes⟩ := Scopes.silent_append.1 hs
    exact Scopes.silent_append.2 ⟨silent_of_not_callsSubroutine e hcallse he,
      silent_of_not_anyCallsSubroutine es hcallses hes⟩

end

section Rewriting

variable {calls : Calls} {scopes : Scopes}

theorem literalItems_leaves (h : calls.TypesResults scopes) (n : Nat) : ∀ items : List IndexItem,
    scopes.Silent (itemsCallees items) → Leaves scopes (literalItems calls n items)
  | [], _ => Leaves.pure _
  | item :: rest, hs => by
    obtain ⟨hitem, hrest⟩ := Scopes.silent_append.1 hs
    simp only [literalItems]
    apply (itemPositions_leaves h n item hitem).bind
    intro ps
    exact (literalItems_leaves h n rest hrest).bind fun items => Leaves.pure _

/-- An expression that calls a subroutine is refused before it is evaluated. -/
theorem foldLiteral?_leaves (h : calls.TypesResults scopes) (e : Expr)
    (hs : scopes.Silent e.hiddenCallees) : Leaves scopes (foldLiteral? calls e) := by
  apply Leaves.get
  intro s hsame
  split
  · exact Leaves.fail _
  · next hcalls =>
    have hsilent := silent_of_not_callsSubroutine e (Bool.eq_false_iff.2 hcalls) (hsame.silent.2 hs)
    exact (fold_leaves h e (hsame.silent.1 hsilent)).bind fun v => Leaves.pure _

mutual

theorem residualize_names (h : calls.TypesResults scopes) : ∀ e : Expr,
    scopes.Silent e.hiddenCallees → Names scopes (residualize calls e)
  | .name n, hs => by
    simp only [residualize]
    apply (foldLiteral?_leaves h _ hs).names.bind
    intro r
    split
    · exact Names.pure _
    · exact (runtimeName_names n).bind fun _ => Names.pure _
  | .unary op e, hs => by
    simp only [residualize]
    apply (foldLiteral?_leaves h _ hs).names.bind
    intro r
    split
    · exact Names.pure _
    · exact (residualize_names h e hs).bind fun _ => Names.pure _
  | .binary l op r, hs => by
    simp only [residualize]
    apply (foldLiteral?_leaves h _ hs).names.bind
    intro v
    obtain ⟨hl, hr⟩ := Scopes.silent_append.1 hs
    split
    · exact Names.pure _
    · apply (residualize_names h l hl).bind
      intro _
      exact (residualize_names h r hr).bind fun _ => Names.pure _
  | .call f args, hs => by
    simp only [residualize]
    apply (foldLiteral?_leaves h _ hs).names.bind
    intro v
    split
    · exact Names.pure _
    · exact (residualizeAll_names h args hs).bind fun _ => Names.pure _
  | .index base items, hs => by
    simp only [residualize]
    apply (foldLiteral?_leaves h _ hs).names.bind
    intro v
    obtain ⟨hbase, hitems⟩ := Scopes.silent_append.1 hs
    split
    · exact Names.pure _
    · apply (infer_leaves h base hbase).names.bind
      intro t
      apply (literalItems_leaves h _ items hitems).names.bind
      intro _
      exact (residualize_names h base hbase).bind fun _ => Names.pure _
  | .cast type e, hs => by
    simp only [residualize]
    apply (foldLiteral?_leaves h _ hs).names.bind
    intro v
    obtain ⟨htype, he⟩ := Scopes.silent_append.1 hs
    split
    · exact Names.pure _
    · apply (resolveType_leaves h type htype).names.bind
      intro t
      exact (residualize_names h e he).bind fun _ => Names.pure _
  | .array items, hs => by
    simp only [residualize]
    apply (foldLiteral?_leaves h _ hs).names.bind
    intro v
    split
    · exact Names.pure _
    · exact (residualizeAll_names h items hs).bind fun _ => Names.pure _
  | .paren e, hs => by
    simp only [residualize]
    apply (foldLiteral?_leaves h _ hs).names.bind
    intro v
    split
    · exact Names.pure _
    · exact (residualize_names h e hs).bind fun _ => Names.pure _
  | .int _, hs | .float _, hs | .imaginary _, hs | .bool _, hs | .bits _, hs | .duration _ _, hs
  | .constant _, hs | .measure _, hs =>
    (foldLiteral?_leaves h _ hs).names.bind fun _ => Names.pure _

theorem residualizeAll_names (h : calls.TypesResults scopes) : ∀ es : List Expr,
    scopes.Silent (exprsHiddenCallees es) → Names scopes (residualizeAll calls es)
  | [], _ => Names.pure _
  | e :: es, hs => by
    obtain ⟨he, hes⟩ := Scopes.silent_append.1 hs
    simp only [residualizeAll]
    apply (residualize_names h e he).bind
    intro _
    exact (residualizeAll_names h es hes).bind fun _ => Names.pure _

end

end Rewriting

end Analysis
end OpenQasm
