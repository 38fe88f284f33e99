import OpenQasm.Proofs.Protection
import OpenQasm.Proofs.Rollback
import OpenQasm.Proofs.Silence

/-!
How often the calls in an expression are inlined. Its evaluation inlines each call that it comes to once,
in the order of the text, and whatever else is done with the expression inlines none, provided that no
call is hidden in an index, in the type of a cast or in a measured operand.
-/
namespace OpenQasm

/-- A call of a subroutine: what is called, and on what. -/
abbrev SubroutineCall := SubroutineDefinition × List Expr

mutual

/-- The calls that an expression makes itself, in the order of the text. What stands in the arguments of
a call is evaluated by the call. -/
def Expr.inlined (scopes : Scopes) : Expr → List SubroutineCall
  | .unary _ e | .cast _ e | .paren e => e.inlined scopes
  | .binary l _ r => l.inlined scopes ++ r.inlined scopes
  | .call f args =>
    match scopes.subroutine? f with
    | some d => [(d, args)]
    | none => exprsInlined scopes args
  | .index base _ => base.inlined scopes
  | .array items => exprsInlined scopes items
  | _ => []

def exprsInlined (scopes : Scopes) : List Expr → List SubroutineCall
  | [] => []
  | e :: es => e.inlined scopes ++ exprsInlined scopes es

/-- Whether an operator in an expression may leave its right operand out. -/
def Expr.shortCircuits : Expr → Bool
  | .unary _ e | .cast _ e | .paren e => e.shortCircuits
  | .binary l op r => op = .and || op = .or || l.shortCircuits || r.shortCircuits
  | .call _ args => exprsShortCircuit args
  | .index base _ => base.shortCircuits
  | .array items => exprsShortCircuit items
  | _ => false

def exprsShortCircuit : List Expr → Bool
  | [] => false
  | e :: es => e.shortCircuits || exprsShortCircuit es

end

/-- The expressions that say which positions an index item selects. -/
def IndexItem.parts : IndexItem → List Expr
  | .single e => [e]
  | .range ⟨start, step, stop⟩ => start.toList ++ step.toList ++ stop.toList
  | .set items => items

def itemsParts (items : List IndexItem) : List Expr := items.flatMap IndexItem.parts

/-- The expressions that say which part of its registers an operand is. -/
def Expr.operandParts : Expr → List Expr
  | .index base items => base.operandParts ++ itemsParts items
  | .binary l .concat r => l.operandParts ++ r.operandParts
  | .paren e => e.operandParts
  | _ => []

/-- The widths that are written in a type. -/
def TypeExpr.widths : TypeExpr → List Expr
  | .sized _ width => width.toList
  | .array element dims => element.widths ++ dims
  | _ => []

theorem Expr.inlined_unparen (scopes : Scopes) : ∀ e : Expr, e.unparen.inlined scopes = e.inlined scopes
  | .paren e => Expr.inlined_unparen scopes e
  | .int _ | .float _ | .imaginary _ | .bool _ | .bits _ | .duration _ _ | .name _ | .constant _
  | .unary _ _ | .binary _ _ _ | .call _ _ | .index _ _ | .cast _ _ | .array _ | .measure _ => rfl

theorem Expr.shortCircuits_unparen : ∀ e : Expr, e.unparen.shortCircuits = e.shortCircuits
  | .paren e => Expr.shortCircuits_unparen e
  | .int _ | .float _ | .imaginary _ | .bool _ | .bits _ | .duration _ _ | .name _ | .constant _
  | .unary _ _ | .binary _ _ _ | .call _ _ | .index _ _ | .cast _ _ | .array _ | .measure _ => rfl

theorem Expr.hiddenCallees_unparen : ∀ e : Expr, e.unparen.hiddenCallees = e.hiddenCallees
  | .paren e => Expr.hiddenCallees_unparen e
  | .int _ | .float _ | .imaginary _ | .bool _ | .bits _ | .duration _ _ | .name _ | .constant _
  | .unary _ _ | .binary _ _ _ | .call _ _ | .index _ _ | .cast _ _ | .array _ | .measure _ => rfl

theorem exprsInlined_append (scopes : Scopes) (a b : List Expr) :
    exprsInlined scopes (a ++ b) = exprsInlined scopes a ++ exprsInlined scopes b := by
  induction a with
  | nil => rfl
  | cons e es ih => rw [List.cons_append, exprsInlined, exprsInlined, ih, List.append_assoc]

theorem exprsShortCircuit_append (a b : List Expr) :
    exprsShortCircuit (a ++ b) = (exprsShortCircuit a || exprsShortCircuit b) := by
  induction a with
  | nil => rfl
  | cons e es ih => rw [List.cons_append, exprsShortCircuit, exprsShortCircuit, ih, Bool.or_assoc]

theorem exprsHiddenCallees_append (a b : List Expr) :
    exprsHiddenCallees (a ++ b) = exprsHiddenCallees a ++ exprsHiddenCallees b := by
  induction a with
  | nil => rfl
  | cons e es ih => rw [List.cons_append, exprsHiddenCallees, exprsHiddenCallees, ih, List.append_assoc]

namespace Analysis

variable {α β : Type}

/-- One state comes from another by inlining some calls one after another, each of them once. Between
them nothing is done but to give names to variables. -/
def Inlined (calls : Calls) (config : Config) : List SubroutineCall → State → State → Prop
  | [], s, t => Naming s t
  | (d, args) :: rest, s, u => ∃ r s' t, Naming s s' ∧
      calls.subroutine d args config s' = (.ok r, t) ∧ Inlined calls config rest t u

/-- Calls declare nothing where they stand. -/
def KeepsScopes (calls : Calls) : Prop :=
  ∀ d args config (s : State), s.scopes.Same (calls.subroutine d args config s).2.scopes

section Inlined

variable {calls : Calls} {config : Config} {made made' : List SubroutineCall} {s t u : State}

theorem Naming.inlined (h : Naming s t) (h' : Inlined calls config made t u) :
    Inlined calls config made s u := by
  cases made with
  | nil => exact Naming.trans h h'
  | cons call rest =>
    obtain ⟨r, s', t', hnaming, hrest⟩ := h'
    exact ⟨r, s', t', h.trans hnaming, hrest⟩

theorem Inlined.append (h : Inlined calls config made s t) (h' : Inlined calls config made' t u) :
    Inlined calls config (made ++ made') s u := by
  induction made generalizing s with
  | nil => exact Naming.inlined h h'
  | cons call rest ih =>
    obtain ⟨r, s', t', hnaming, hcall, hrest⟩ := h
    exact ⟨r, s', t', hnaming, hcall, ih hrest⟩

theorem Inlined.same (h : Inlined calls config made s t) (hcalls : KeepsScopes calls) :
    s.scopes.Same t.scopes := by
  induction made generalizing s with
  | nil => exact Naming.scopes h
  | cons call rest ih =>
    obtain ⟨r, s', t', hnaming, hcall, hrest⟩ := h
    have hsame := hcalls call.1 call.2 config s'
    rw [hcall] at hsame
    exact (hnaming.scopes.trans hsame).trans (ih hrest)

end Inlined

/-- Where the same symbols are declared as in some scopes, a step that gives a result has inlined some of
the calls that are given, in their order, and all of them if nothing may be left out. -/
def Inlines (calls : Calls) (scopes : Scopes) (made : List SubroutineCall) (all : Prop)
    (x : Analysis α) : Prop :=
  ∀ config s a t, scopes.Same s.scopes → x config s = (.ok a, t) →
    ∃ done, done.Sublist made ∧ (all → done = made) ∧ Inlined calls config done s t

section Rules

variable {calls : Calls} {scopes : Scopes} {made made' : List SubroutineCall} {all all' : Prop}
  {x : Analysis α} {f : α → Analysis β}

theorem Inlines.mono (hx : Inlines calls scopes made all x) (hmade : made.Sublist made')
    (hall : all' → all ∧ made = made') : Inlines calls scopes made' all' x := by
  intro config s a t hs hrun
  obtain ⟨done, hdone, hexact, hinlined⟩ := hx config s a t hs hrun
  refine ⟨done, hdone.trans hmade, fun h => ?_, hinlined⟩
  exact (hexact (hall h).1).trans (hall h).2

theorem Inlines.imp (hx : Inlines calls scopes made all x) (hall : all' → all) :
    Inlines calls scopes made all' x :=
  hx.mono (List.Sublist.refl _) fun h => ⟨hall h, rfl⟩

theorem Names.inlines (hx : Names scopes x) : Inlines calls scopes [] all x := by
  intro config s a t hs hrun
  have hnaming := hx config s hs
  rw [hrun] at hnaming
  exact ⟨[], List.Sublist.refl _, fun _ => rfl, hnaming⟩

theorem Leaves.inlines (hx : Leaves scopes x) : Inlines calls scopes [] all x := hx.names.inlines

theorem Inlines.bind (hcalls : KeepsScopes calls) (hx : Inlines calls scopes made all x)
    (hf : ∀ a, Inlines calls scopes made' all' (f a)) :
    Inlines calls scopes (made ++ made') (all ∧ all') (x >>= f) := by
  intro config s b u hs hrun
  obtain ⟨a, t, hrunx, hrunf⟩ := run_bind_eq_ok.1 hrun
  obtain ⟨done, hdone, hexact, hinlined⟩ := hx config s a t hs hrunx
  have ht := hs.trans (hinlined.same hcalls)
  obtain ⟨done', hdone', hexact', hinlined'⟩ := hf a config t b u ht hrunf
  refine ⟨done ++ done', hdone.append hdone', fun h => ?_, hinlined.append hinlined'⟩
  rw [hexact h.1, hexact' h.2]

/-- A step that inlines nothing comes first. -/
theorem Leaves.before (hx : Leaves scopes x) (hf : ∀ a, Inlines calls scopes made all (f a)) :
    Inlines calls scopes made all (x >>= f) := by
  intro config s b u hs hrun
  obtain ⟨a, t, hrunx, hrunf⟩ := run_bind_eq_ok.1 hrun
  have ht := hx config s hs
  rw [hrunx] at ht
  subst ht
  exact hf a config _ b u hs hrunf

/-- Steps that inline nothing come last. -/
theorem Inlines.followed (hcalls : KeepsScopes calls) (hx : Inlines calls scopes made all x)
    (hf : ∀ a, Names scopes (f a)) : Inlines calls scopes made all (x >>= f) := by
  have hlast (a : α) : Inlines calls scopes [] True (f a) := (hf a).inlines
  have hbind := Inlines.bind hcalls hx hlast
  rw [List.append_nil] at hbind
  exact hbind.imp fun h => ⟨h, trivial⟩

theorem Inlines.followed_leaves (hcalls : KeepsScopes calls) (hx : Inlines calls scopes made all x)
    (hf : ∀ a, Leaves scopes (f a)) : Inlines calls scopes made all (x >>= f) :=
  hx.followed hcalls fun a => (hf a).names

theorem Inlines.pure (a : α) : Inlines calls scopes [] all (Pure.pure a : Analysis α) :=
  (Leaves.pure a).inlines

theorem Inlines.fail (p : Problem) : Inlines calls scopes made all (Analysis.fail p : Analysis α) := by
  intro config s a t _ hrun
  nomatch hrun

theorem Inlines.subroutine (d : SubroutineDefinition) (args : List Expr) :
    Inlines calls scopes [(d, args)] all (calls.subroutine d args) := fun _ s r t _ hrun =>
  ⟨[(d, args)], List.Sublist.refl _, fun _ => rfl, r, s, t, Naming.refl s, hrun, Naming.refl t⟩

theorem Inlines.resolve? {name : String} {f : Option Symbol → Analysis α}
    (hf : ∀ x, x.bind Symbol.subroutine? = scopes.subroutine? name →
      Inlines calls scopes made all (f x)) :
    Inlines calls scopes made all (Analysis.resolve? name >>= f) :=
  fun config s a t hs hrun => hf _ (hs.subroutine? name) config s a t hs hrun

end Rules

section Evaluating

variable {calls : Calls} {scopes : Scopes}

mutual

theorem fold_inlines (hcalls : KeepsScopes calls) (h : calls.TypesResults scopes) : ∀ e : Expr,
    scopes.Silent e.hiddenCallees →
      Inlines calls scopes (e.inlined scopes) (e.shortCircuits = false) (fold calls e)
  | .int _, _ | .float _, _ | .imaginary _, _ | .bool _, _ | .bits _, _ | .duration _ _, _
  | .constant _, _ | .name _, _ => (fold_leaves h _ Scopes.silent_nil).inlines
  | .unary op e, hs => by
    simp only [fold]
    apply (fold_inlines hcalls h e hs).followed_leaves hcalls
    intro v
    split
    · exact (orFail_leaves _ _).map
    · exact Leaves.pure _
  | .binary l op r, hs => by
    obtain ⟨hl, hr⟩ := Scopes.silent_append.1 hs
    have hright (left : Option Value) : Inlines calls scopes (r.inlined scopes)
        ((op ≠ .and ∧ op ≠ .or) ∧ r.shortCircuits = false) (match decided? op left with
          | some b => return some (.bool b)
          | none => do
            match left, ← fold calls r with
            | some v, some w => some <$> orFail .evaluation (Value.evalBinary op v w)
            | _, _ => return none) := by
      split
      -- The right operand is left out, which only two operators allow.
      · next b hdecided =>
        have hskipped : Inlines calls scopes [] False (pure (some (Value.bool b))) := Inlines.pure _
        refine hskipped.mono (List.nil_sublist _) fun hall => ?_
        obtain ⟨⟨hand, hor⟩, -⟩ := hall
        unfold decided? at hdecided
        split at hdecided
        · exact absurd rfl hand
        · exact absurd rfl hor
        · nomatch hdecided
      · refine ((fold_inlines hcalls h r hr).followed_leaves hcalls ?_).imp And.right
        intro right
        split
        · exact (orFail_leaves _ _).map
        · exact Leaves.pure _
    simp only [fold]
    refine (Inlines.bind hcalls (fold_inlines hcalls h l hl) hright).imp fun hshort => ?_
    simp only [Expr.shortCircuits, Bool.or_eq_false_iff, decide_eq_false_iff_not] at hshort
    exact ⟨hshort.1.2, hshort.1.1, hshort.2⟩
  | .call f args, hs => by
    simp only [fold]
    apply Inlines.resolve?
    intro x hx
    rw [hx, Expr.inlined]
    rcases scopes.subroutine? f with - | d
    · dsimp only
      split
      · apply (foldArgument_inlines hcalls h f args hs).followed_leaves hcalls
        exact fun v => functionValue_leaves f v
      · split
        · exact Inlines.fail _
        · exact Inlines.fail _
    · apply (Inlines.subroutine d args).followed_leaves hcalls
      exact fun r => callValue_leaves f r
  | .index base items, hs => by
    obtain ⟨hbase, hitems⟩ := Scopes.silent_append.1 hs
    simp only [fold]
    apply (infer_leaves h base hbase).before
    intro t
    apply (fold_inlines hcalls h base hbase).followed_leaves hcalls
    intro v
    exact foldItems_leaves h t v items hitems
  | .cast type e, hs => by
    obtain ⟨htype, he⟩ := Scopes.silent_append.1 hs
    simp only [fold]
    apply (resolveType_leaves h type htype).before
    intro t
    apply (fold_inlines hcalls h e he).followed_leaves hcalls
    intro v
    split
    · exact (orFail_leaves _ _).map
    · exact Leaves.pure _
  | .array items, hs => by
    simp only [fold]
    exact (foldAll_inlines hcalls h items hs).followed_leaves hcalls fun vs => Leaves.pure _
  | .measure _, _ => Inlines.fail _
  | .paren e, hs => fold_inlines hcalls h e hs

theorem foldAll_inlines (hcalls : KeepsScopes calls) (h : calls.TypesResults scopes) :
    ∀ es : List Expr, scopes.Silent (exprsHiddenCallees es) →
      Inlines calls scopes (exprsInlined scopes es) (exprsShortCircuit es = false) (foldAll calls es)
  | [], _ => Inlines.pure _
  | e :: es, hs => by
    obtain ⟨he, hes⟩ := Scopes.silent_append.1 hs
    have hrest (v : Option Value) : Inlines calls scopes (exprsInlined scopes es)
        (exprsShortCircuit es = false) (do return v :: (← foldAll calls es)) :=
      (foldAll_inlines hcalls h es hes).followed_leaves hcalls fun vs => Leaves.pure (v :: vs)
    simp only [foldAll]
    exact (Inlines.bind hcalls (fold_inlines hcalls h e he) hrest).imp Bool.or_eq_false_iff.1

theorem foldArgument_inlines (hcalls : KeepsScopes calls) (h : calls.TypesResults scopes)
    (f : String) : ∀ es : List Expr, scopes.Silent (exprsHiddenCallees es) →
      Inlines calls scopes (exprsInlined scopes es) (exprsShortCircuit es = false)
        (foldArgument calls f es)
  | [], _ => Inlines.fail _
  | [e], hs => by
    have he := fold_inlines hcalls h e (Scopes.silent_append.1 hs).1
    simp only [exprsInlined, exprsShortCircuit, List.append_nil, Bool.or_false]
    exact he
  | _ :: _ :: _, _ => Inlines.fail _

end

end Evaluating

/-- Where the same symbols are declared as in some scopes, a step that gives a result has evaluated some
expressions one after another, each of them once, and no other calls were inlined. -/
def Evaluates (calls : Calls) (scopes : Scopes) (es : List Expr) (x : Analysis α) : Prop :=
  Inlines calls scopes (exprsInlined scopes es) (exprsShortCircuit es = false) x

section Positions

variable {calls : Calls} {scopes : Scopes} {es es' : List Expr} {x : Analysis α} {f : α → Analysis β}

theorem Leaves.evaluates (hx : Leaves scopes x) : Evaluates calls scopes [] x := hx.inlines

theorem Evaluates.fail (p : Problem) : Evaluates calls scopes es (Analysis.fail p : Analysis α) :=
  Inlines.fail p

theorem Inlines.evaluates {e : Expr}
    (hx : Inlines calls scopes (e.inlined scopes) (e.shortCircuits = false) x) :
    Evaluates calls scopes [e] x := by
  unfold Evaluates
  simp only [exprsInlined, exprsShortCircuit, List.append_nil, Bool.or_false]
  exact hx

theorem Evaluates.bind (hcalls : KeepsScopes calls) (hx : Evaluates calls scopes es x)
    (hf : ∀ a, Evaluates calls scopes es' (f a)) : Evaluates calls scopes (es ++ es') (x >>= f) := by
  unfold Evaluates
  rw [exprsInlined_append, exprsShortCircuit_append]
  exact (Inlines.bind hcalls hx hf).imp Bool.or_eq_false_iff.1

theorem Evaluates.followed (hcalls : KeepsScopes calls) (hx : Evaluates calls scopes es x)
    (hf : ∀ a, Leaves scopes (f a)) : Evaluates calls scopes es (x >>= f) :=
  Inlines.followed_leaves hcalls hx hf

theorem fold_evaluates (hcalls : KeepsScopes calls) (h : calls.TypesResults scopes) (e : Expr)
    (hs : scopes.Silent e.hiddenCallees) : Evaluates calls scopes [e] (fold calls e) :=
  (fold_inlines hcalls h e hs).evaluates

theorem index_evaluates (hcalls : KeepsScopes calls) (h : calls.TypesResults scopes) (e : Expr)
    (hs : scopes.Silent e.hiddenCallees) :
    Evaluates calls scopes [e] (do indexValue e (← fold calls e)) :=
  (fold_evaluates hcalls h e hs).followed hcalls fun v => indexValue_leaves e v

theorem setPositions_evaluates (hcalls : KeepsScopes calls) (h : calls.TypesResults scopes)
    (n : Nat) : ∀ es : List Expr, scopes.Silent (exprsHiddenCallees es) →
      Evaluates calls scopes es (setPositions calls n es)
  | [], _ => (Leaves.pure _).evaluates
  | e :: es, hs => by
    obtain ⟨he, hes⟩ := Scopes.silent_append.1 hs
    have hrest (p : Nat) : Evaluates calls scopes es (do return p :: (← setPositions calls n es)) :=
      (setPositions_evaluates hcalls h n es hes).followed hcalls fun ps => Leaves.pure (p :: ps)
    have hfirst := (index_evaluates hcalls h e he).followed hcalls fun i =>
      orFail_leaves .index (Index.normalize i n)
    have hboth := Evaluates.bind hcalls hfirst hrest
    simp only [setPositions, ← bind_assoc]
    exact hboth

theorem rangePart_evaluates (hcalls : KeepsScopes calls) (h : calls.TypesResults scopes)
    (e : Option Expr) (hs : scopes.Silent (exprsHiddenCallees e.toList)) :
    Evaluates calls scopes e.toList (rangePart calls e) := by
  cases e with
  | none => exact (Leaves.pure _).evaluates
  | some e =>
    have he := index_evaluates hcalls h e (Scopes.silent_append.1 hs).1
    simp only [rangePart]
    rw [← bind_assoc]
    exact he.followed hcalls fun i => Leaves.pure _

theorem itemPositions_evaluates (hcalls : KeepsScopes calls) (h : calls.TypesResults scopes)
    (n : Nat) (item : IndexItem) (hs : scopes.Silent (exprsHiddenCallees item.parts)) :
    Evaluates calls scopes item.parts (itemPositions calls n item) := by
  cases item with
  | single e =>
    have he := index_evaluates hcalls h e (Scopes.silent_append.1 hs).1
    simp only [itemPositions]
    rw [← bind_assoc]
    exact he.followed hcalls fun i => (orFail_leaves _ _).bind fun p => Leaves.pure _
  | set items => exact setPositions_evaluates hcalls h n items hs
  | range r =>
    obtain ⟨start, step, stop⟩ := r
    simp only [IndexItem.parts, exprsHiddenCallees_append] at hs
    obtain ⟨hends, hstop⟩ := Scopes.silent_append.1 hs
    obtain ⟨hstart, hstep⟩ := Scopes.silent_append.1 hends
    simp only [IndexItem.parts, List.append_assoc, itemPositions, rangePositions]
    apply Evaluates.bind hcalls (rangePart_evaluates hcalls h start hstart)
    intro a
    apply Evaluates.bind hcalls (rangePart_evaluates hcalls h step hstep)
    intro b
    exact (rangePart_evaluates hcalls h stop hstop).followed hcalls fun c => orFail_leaves _ _

theorem partView_evaluates (hcalls : KeepsScopes calls) (h : calls.TypesResults scopes)
    (kind : RegisterKind) (v : View) (items : List IndexItem)
    (hs : scopes.Silent (exprsHiddenCallees (itemsParts items))) :
    Evaluates calls scopes (itemsParts items) (partView calls kind v items) := by
  rcases items with - | ⟨item, - | ⟨second, rest⟩⟩
  · exact Evaluates.fail _
  · simp only [itemsParts, List.flatMap_cons, List.flatMap_nil, List.append_nil] at hs ⊢
    have hitem := itemPositions_evaluates hcalls h v.length item hs
    cases item with
    | single e =>
      have he := index_evaluates hcalls h e (Scopes.silent_append.1 hs).1
      simp only [partView]
      rw [← bind_assoc]
      exact he.followed hcalls fun i => elementView_leaves kind v i
    | set items => exact hitem.followed hcalls fun ps => Leaves.pure _
    | range r => exact hitem.followed hcalls fun ps => Leaves.pure _
  · cases item <;> exact Evaluates.fail _

theorem viewOf_evaluates (hcalls : KeepsScopes calls) (h : calls.TypesResults scopes) : ∀ e : Expr,
    scopes.Silent (exprsHiddenCallees e.operandParts) →
      Evaluates calls scopes e.operandParts (viewOf calls e)
  | .name n, _ => (nameView_leaves n).evaluates
  | .index base items, hs => by
    simp only [Expr.operandParts, exprsHiddenCallees_append] at hs
    obtain ⟨hbase, hitems⟩ := Scopes.silent_append.1 hs
    simp only [viewOf]
    apply Evaluates.bind hcalls (viewOf_evaluates hcalls h base hbase)
    intro v
    exact (partView_evaluates hcalls h v.1 v.2 items hitems).followed hcalls fun _ => Leaves.pure _
  | .binary l op r, hs => by
    by_cases hop : op = .concat
    · subst hop
      simp only [Expr.operandParts, exprsHiddenCallees_append] at hs
      obtain ⟨hl, hr⟩ := Scopes.silent_append.1 hs
      simp only [viewOf]
      apply Evaluates.bind hcalls (viewOf_evaluates hcalls h l hl)
      intro v
      apply (viewOf_evaluates hcalls h r hr).followed hcalls
      intro w
      exact Leaves.ite (Leaves.pure _) (Leaves.fail _)
    · rw [viewOf]
      · exact Evaluates.fail _
      all_goals simp_all
  | .paren e, hs => viewOf_evaluates hcalls h e hs
  | .int _, _ | .float _, _ | .imaginary _, _ | .bool _, _ | .bits _, _ | .duration _ _, _
  | .constant _, _ | .unary _ _, _ | .call _ _, _ | .cast _ _, _ | .array _, _ | .measure _, _ =>
    Evaluates.fail _

theorem quantumQubits_evaluates (hcalls : KeepsScopes calls) (h : calls.TypesResults scopes)
    (e : Expr) (hs : scopes.Silent (exprsHiddenCallees e.operandParts)) :
    Evaluates calls scopes e.operandParts (quantumQubits calls e) := by
  have hview : Evaluates calls scopes e.operandParts (quantumView calls e) := by
    apply (viewOf_evaluates hcalls h e hs).followed hcalls
    intro v
    split
    · exact Leaves.pure _
    · exact Leaves.fail _
  exact hview.followed hcalls fun v => Leaves.get fun s _ => Leaves.pure _

theorem width_evaluates (hcalls : KeepsScopes calls) (h : calls.TypesResults scopes) (e : Expr)
    (hs : scopes.Silent e.hiddenCallees) :
    Evaluates calls scopes [e] (do widthValue e (← fold calls e)) :=
  (fold_evaluates hcalls h e hs).followed hcalls fun v => widthValue_leaves e v

theorem resolveWidths_evaluates (hcalls : KeepsScopes calls) (h : calls.TypesResults scopes) :
    ∀ es : List Expr, scopes.Silent (exprsHiddenCallees es) →
      Evaluates calls scopes es (resolveWidths calls es)
  | [], _ => (Leaves.pure _).evaluates
  | e :: es, hs => by
    obtain ⟨he, hes⟩ := Scopes.silent_append.1 hs
    have hrest (n : Nat) : Evaluates calls scopes es (do return n :: (← resolveWidths calls es)) :=
      (resolveWidths_evaluates hcalls h es hes).followed hcalls fun ns => Leaves.pure (n :: ns)
    have hboth := Evaluates.bind hcalls (width_evaluates hcalls h e he) hrest
    simp only [resolveWidths]
    rw [← bind_assoc]
    exact hboth

theorem resolveType_evaluates (hcalls : KeepsScopes calls) (h : calls.TypesResults scopes) :
    ∀ t : TypeExpr, scopes.Silent (exprsHiddenCallees t.widths) →
      Evaluates calls scopes t.widths (resolveType calls t)
  | .bool, _ | .duration, _ | .stretch, _ | .sized _ none, _ => (Leaves.pure _).evaluates
  | .sized kind (some e), hs => by
    have he := width_evaluates hcalls h e (Scopes.silent_append.1 hs).1
    simp only [resolveType]
    rw [← bind_assoc]
    exact he.followed hcalls fun n => (checkWidth_leaves kind n).bind fun _ => Leaves.pure _
  | .array element dims, hs => by
    simp only [TypeExpr.widths, exprsHiddenCallees_append] at hs
    obtain ⟨helement, hdims⟩ := Scopes.silent_append.1 hs
    simp only [resolveType]
    apply Evaluates.bind hcalls (resolveType_evaluates hcalls h element helement)
    intro t
    split
    · exact Evaluates.fail _
    · exact (resolveWidths_evaluates hcalls h dims hdims).followed hcalls fun _ => Leaves.pure _

end Positions

section Values

variable {calls : Calls} {scopes : Scopes}

theorem plainValue_inlines (hcalls : KeepsScopes calls) (h : calls.TypesResults scopes) (e : Expr)
    (hs : scopes.Silent e.hiddenCallees) :
    Inlines calls scopes (e.inlined scopes) (e.shortCircuits = false) (plainValue calls e) := by
  apply (fold_inlines hcalls h e hs).followed hcalls
  intro v
  split
  · exact Names.pure _
  · exact (residualize_names h e hs).bind fun _ => Names.pure _

theorem Inlines.lookup {α : Type} {made : List SubroutineCall} {all : Prop} {name : String}
    {f : Option SubroutineDefinition → Analysis α}
    (hf : Inlines calls scopes made all (f (scopes.subroutine? name))) :
    Inlines calls scopes made all (Analysis.subroutine? name >>= f) := by
  intro config s a t hs hrun
  have hlookup : (Analysis.subroutine? name >>= f) config s =
      f (s.scopes.subroutine? name) config s := rfl
  rw [hlookup, hs.subroutine? name] at hrun
  exact hf config s a t hs hrun

theorem rightValue_inlines (hcalls : KeepsScopes calls) (h : calls.TypesResults scopes) (e : Expr)
    (hs : scopes.Silent e.hiddenCallees) :
    Inlines calls scopes (e.inlined scopes) (e.shortCircuits = false) (rightValue calls e) := by
  rw [← e.hiddenCallees_unparen] at hs
  rw [← e.inlined_unparen, ← e.shortCircuits_unparen]
  unfold rightValue
  split
  · next operand hoperand =>
    rw [hoperand] at hs ⊢
    exact ((quantumQubits_leaves h operand hs).bind fun _ => Leaves.pure _).inlines
  · next f args hcall =>
    rw [hcall] at hs ⊢
    apply Inlines.lookup
    rcases hd : scopes.subroutine? f with - | d
    · exact plainValue_inlines hcalls h (.call f args) hs
    · have hmade : (Expr.call f args).inlined scopes = [(d, args)] := by simp only [Expr.inlined, hd]
      rw [hmade]
      apply (Inlines.subroutine d args).followed_leaves hcalls
      intro r
      split
      · exact Leaves.pure _
      · exact Leaves.fail _
  · exact plainValue_inlines hcalls h _ hs

theorem parameterLeaf_inlines (hcalls : KeepsScopes calls) (h : calls.TypesResults scopes) (e : Expr)
    (hs : scopes.Silent e.hiddenCallees) :
    Inlines calls scopes (e.inlined scopes) (e.shortCircuits = false) (parameterLeaf calls e) := by
  apply (fold_inlines hcalls h e hs).followed hcalls
  intro v
  split
  · split
    · exact Names.pure _
    · exact Names.fail _
  · apply (residualize_names h e hs).bind
    intro r
    split
    · exact Names.pure _
    · exact Names.pure _

theorem boundParameter?_leaves (name : String) : Leaves scopes (boundParameter? name) := by
  apply Leaves.resolve?
  intro x _
  split
  · exact Leaves.pure _
  · exact Leaves.pure _

/-- The operators that have a meaning for parameters evaluate both operands. -/
theorem parameterTree_inlines (hcalls : KeepsScopes calls) (h : calls.TypesResults scopes) :
    ∀ e : Expr, scopes.Silent e.hiddenCallees →
      Inlines calls scopes (e.inlined scopes) (e.shortCircuits = false) (parameterTree calls e)
  | .constant c, hs => by
    cases c with
    | pi => exact Inlines.pure _
    | tau => exact parameterLeaf_inlines hcalls h _ hs
    | euler => exact parameterLeaf_inlines hcalls h _ hs
  | .name n, hs => by
    simp only [parameterTree]
    apply (boundParameter?_leaves n).before
    intro p
    split
    · exact Inlines.pure _
    · exact parameterLeaf_inlines hcalls h _ hs
  | .paren e, hs => parameterTree_inlines hcalls h e hs
  | .unary op e, hs => by
    cases op with
    | neg => exact (parameterTree_inlines hcalls h e hs).followed_leaves hcalls fun _ => Leaves.pure _
    | not => exact parameterLeaf_inlines hcalls h _ hs
    | bitNot => exact parameterLeaf_inlines hcalls h _ hs
  | .binary l op r, hs => by
    obtain ⟨hl, hr⟩ := Scopes.silent_append.1 hs
    simp only [parameterTree]
    split
    · next combine _ =>
      have hright (a : Parameter) : Inlines calls scopes (r.inlined scopes) (r.shortCircuits = false)
          (do return combine a (← parameterTree calls r)) :=
        (parameterTree_inlines hcalls h r hr).followed_leaves hcalls fun _ => Leaves.pure _
      refine (Inlines.bind hcalls (parameterTree_inlines hcalls h l hl) hright).imp fun hshort => ?_
      simp only [Expr.shortCircuits, Bool.or_eq_false_iff] at hshort
      exact ⟨hshort.1.2, hshort.2⟩
    · exact parameterLeaf_inlines hcalls h _ hs
  | .call f args, hs => by
    have hleaf := parameterLeaf_inlines hcalls h (.call f args) hs
    simp only [parameterTree]
    apply Inlines.resolve?
    intro x hx
    split
    · next hfunction =>
      rw [Bool.and_eq_true, Option.isNone_iff_eq_none] at hfunction
      rw [hfunction.2] at hx
      rcases args with - | ⟨e, - | ⟨_, _⟩⟩
      · exact hleaf
      · have he := (parameterTree_inlines hcalls h e (Scopes.silent_append.1 hs).1).evaluates
        rw [Expr.inlined, ← hx]
        simp only [onlyParameter, bind_assoc, pure_bind]
        exact he.followed hcalls fun p => Leaves.pure _
      · exact hleaf
    · exact hleaf
  | .int _, hs | .float _, hs | .imaginary _, hs | .bool _, hs | .bits _, hs | .duration _ _, hs
  | .index _ _, hs | .cast _ _, hs | .array _, hs | .measure _, hs =>
    parameterLeaf_inlines hcalls h _ hs

theorem toParameter_inlines (hcalls : KeepsScopes calls) (h : calls.TypesResults scopes) (e : Expr)
    (hs : scopes.Silent e.hiddenCallees) :
    Inlines calls scopes (e.inlined scopes) (e.shortCircuits = false) (toParameter calls e) :=
  (parameterTree_inlines hcalls h e hs).followed_leaves hcalls fun _ => Leaves.pure _

end Values

section Nesting

variable {scopes : Scopes}

theorem nested_staying_trivial (scopes : Scopes) (n : Nat) :
    CallsAgree (StatementInvariant.trivial.toWritingInvariant.staying scopes).toInvariant
      (fun _ => 0) 0 (.nested n) (.nested n) := by
  induction n with
  | zero => exact nested_zero_agree _
  | succ n ih =>
    have hbody := pervasive_trivial.nested n
    exact nested_succ_agree ih hbody (pervasive_trivial.block hbody)
      (fun name kind pre _ => (pervasive_trivial.expands name kind pre).staying scopes)
      (fun _ _ _ => trivial) (fun _ _ => trivial) (fun _ _ _ _ _ => trivial) fun _ _ _ _ => trivial

theorem nested_keepsScopes (n : Nat) : KeepsScopes (.nested n) := by
  intro d args config s
  have hcall := (nested_staying_trivial s.scopes n).subroutine d.name d args trivial
    (Nat.le_of_eq (by rw [weigh_zero]))
  have hs : (StatementInvariant.trivial.toWritingInvariant.staying s.scopes).core s :=
    ⟨trivial, Scopes.Same.refl s.scopes⟩
  exact (hcall config s hs trivial).2.core.2

theorem nested_typesResults
    (hresults : ∀ f d, scopes.subroutine? f = some d → scopes.Silent (typeCallees d.result))
    (n : Nat) : (Calls.nested n).TypesResults scopes := by
  induction n with
  | zero => exact fun _ _ _ _ _ => Leaves.failConstruct _
  | succ n ih =>
    intro f d t hd ht
    have hsilent := hresults f d hd
    rw [ht] at hsilent
    exact resolveType_leaves ih t hsilent

end Nesting

/-- Let the types of the results of all visible subroutines be found without calls, and consider an
expression with no call in an index, in the type of a cast or in a measured operand. Finding its type and
checking it as an initializer change nothing, and rewriting it for the flat program at most names
variables. Where it is a right-hand side, a condition or the parameter of a gate, its calls are inlined
once, in their order, but for those that `&&` and `||` leave out. So are the calls in the positions of an
index, in the positions of an operand and in the widths of a type. -/
theorem calls_inlined_once (n : Nat) {scopes : Scopes}
    (hresults : ∀ f d, scopes.subroutine? f = some d → scopes.Silent (typeCallees d.result)) :
    (∀ e : Expr, scopes.Silent e.hiddenCallees →
      Leaves scopes (infer (.nested n) e) ∧
      (∀ t, Leaves scopes (checkInitializer (.nested n) t e)) ∧
      Names scopes (residualize (.nested n) e) ∧
      Evaluates (.nested n) scopes [e] (fold (.nested n) e) ∧
      Evaluates (.nested n) scopes [e] (rightValue (.nested n) e) ∧
      Evaluates (.nested n) scopes [e] (toParameter (.nested n) e)) ∧
    (∀ length item, scopes.Silent (exprsHiddenCallees item.parts) →
      Evaluates (.nested n) scopes item.parts (itemPositions (.nested n) length item)) ∧
    (∀ operand : Expr, scopes.Silent (exprsHiddenCallees operand.operandParts) →
      Evaluates (.nested n) scopes operand.operandParts (quantumQubits (.nested n) operand)) ∧
    ∀ t : TypeExpr, scopes.Silent (exprsHiddenCallees t.widths) →
      Evaluates (.nested n) scopes t.widths (resolveType (.nested n) t) := by
  have hcalls := nested_keepsScopes n
  have htypes := nested_typesResults hresults n
  refine ⟨fun e hs => ⟨?_, fun t => ?_, ?_, ?_, ?_, ?_⟩, fun length item hs => ?_,
    fun operand hs => ?_, fun t hs => ?_⟩
  · exact infer_leaves htypes e hs
  · exact checkInitializer_leaves htypes t e hs
  · exact residualize_names htypes e hs
  · exact fold_evaluates hcalls htypes e hs
  · exact (rightValue_inlines hcalls htypes e hs).evaluates
  · exact (toParameter_inlines hcalls htypes e hs).evaluates
  · exact itemPositions_evaluates hcalls htypes length item hs
  · exact quantumQubits_evaluates hcalls htypes operand hs
  · exact resolveType_evaluates hcalls htypes t hs

/-- A call in a sum, of a subroutine whose result is an `int`. -/
theorem calls_inlined_once_sum :
    let f : SubroutineDefinition := ⟨"f", [.qubit "a" none], some (.sized .int none), []⟩
    let scopes := Scopes.withBuiltins.push
      { name := "f", kind := .subroutineDefinition, span := .none, binding := .subroutine f }
    let e : Expr := .binary (.call "f" [.name "q"]) .add (.int 1)
    exprsInlined scopes [e] = [(f, [.name "q"])] ∧
      (∀ g d, scopes.subroutine? g = some d → scopes.Silent (typeCallees d.result)) ∧
      scopes.Silent e.hiddenCallees ∧ Evaluates (.nested 1) scopes [e] (rightValue (.nested 1) e) := by
  intro f scopes e
  have hresults : ∀ g d, scopes.subroutine? g = some d → scopes.Silent (typeCallees d.result) := by
    intro g d hd
    have hf := Scopes.subroutine?_push Scopes.subroutine?_withBuiltins hd
    cases hf
    exact Scopes.silent_nil
  have hhidden : scopes.Silent e.hiddenCallees := Scopes.silent_nil
  obtain ⟨-, -, -, -, hvalue, -⟩ := (calls_inlined_once 1 hresults).1 e hhidden
  exact ⟨rfl, hresults, hhidden, hvalue⟩

end Analysis
end OpenQasm
