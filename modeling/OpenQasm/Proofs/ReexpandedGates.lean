import OpenQasm.Proofs.FlatStatements
import OpenQasm.Proofs.GlobalNames
import OpenQasm.Proofs.PrintedGates
import OpenQasm.Proofs.Reanalysis

/-!
Gate operations that are printed, read and expanded again. What is read is one call of the gate, and the
call expands to the operation: with its controls in their order, its parameters and its operands.
-/
namespace OpenQasm

open Analysis Token

variable {calls : Calls} {config : Config} {s t : State}

section Parameters

/-- A literal that is small enough for a signed word stands for its number. -/
theorem Word.toFloat_toInt64 {n : UInt64} (h : n.toNat < Bound.integer) :
    Word.toFloat n.toInt64 = n.toFloat := by
  have hvalue := Word.toInt_toInt64 h
  have hsign : ¬n.toInt64 < 0 := by
    rw [Int64.lt_iff_toInt_lt, hvalue, Int64.toInt_zero]
    omega
  have hmagnitude : Word.magnitude n.toInt64 = n := by
    rw [← UInt64.toNat_inj, Word.magnitude_toNat, hvalue, Int.natAbs_natCast]
  rw [Word.toFloat, if_neg hsign, hmagnitude]

theorem Numeral.tree {t : Token} {e : Expr} {x : Float} (h : Numeral t e x) :
    parameterTree calls e config s = (.ok (.constant x), s) := by
  cases h with
  | @int n hn =>
    have htree : parameterTree calls (.int n) = parameterLeaf calls (.int n) := by simp only [parameterTree]
    have hfold : fold calls (.int n) config s = (.ok (some (.int n.toInt64)), s) := by
      rw [fold, if_pos hn]
      rfl
    have hreal : (Value.int n.toInt64).real? = some n.toFloat := congrArg some (Word.toFloat_toInt64 hn)
    rw [htree, parameterLeaf, run_bind, hfold]
    dsimp only
    rw [hreal]
    rfl
  | float x => rfl

theorem SignedNumeral.parameter {ts : List Token} {e : Expr} {x : Float} (h : SignedNumeral ts e x) :
    toParameter calls e config s = (.ok (.constant x), s) := by
  cases h with
  | plain h =>
    rw [toParameter, run_bind, h.tree]
    rfl
  | @minus t e x h =>
    have htree : parameterTree calls (.unary .neg e) config s = (.ok (.neg (.constant x)), s) := by
      rw [parameterTree, run_bind, h.tree]
      rfl
    rw [toParameter, run_bind, htree]
    rfl

end Parameters

section Expansion

open KnownModifier Instruction

/-- Steps that each have a result and leave the state. -/
theorem mapM_eq_ok {α β : Type} {f : α → Analysis β} {as : List α} {bs : List β}
    (h : List.Forall₂ (fun a b => f a config s = (.ok b, s)) as bs) :
    as.mapM f config s = (.ok bs, s) := by
  induction h with
  | nil => rfl
  | @cons a b as bs ha _ ih =>
    rw [List.mapM_cons, run_bind, ha]
    dsimp only
    rw [run_bind, ih]
    rfl

namespace ControlRun

/-- The modifier that the run is evaluated to. -/
def known (r : ControlRun) : KnownModifier := .control r.state r.count

theorem evaluates {r : ControlRun} (hpos : 0 < r.count) (hsize : r.count < Bound.size) :
    evalModifier calls r.modifier config s = (.ok r.known, s) := by
  have hcount : controlCount calls r.written config s = (.ok r.count, s) := by
    unfold ControlRun.written
    split
    · next hone =>
      rw [hone]
      rfl
    · have hinteger : r.count < Bound.integer := Nat.lt_trans hsize (by decide)
      obtain ⟨i, hi, hfold⟩ := fold_positionExpr calls config s hinteger
      have hleast : ¬i < 1 := by
        rw [Int64.lt_iff_toInt_lt, hi, Int64.toInt_one]
        omega
      have hmost : i.toInt < Bound.size := by omega
      rw [positionExpr] at hfold
      rw [controlCount, run_bind, hfold]
      dsimp only
      rw [if_neg hleast, if_pos hmost, hi]
      rfl
  obtain ⟨state, count⟩ := r
  cases state with
  | positive =>
    show (controlCount calls _ >>= fun n => pure (KnownModifier.control .positive n)) config s = _
    rw [run_bind, hcount]
    rfl
  | negative =>
    show (controlCount calls _ >>= fun n => pure (KnownModifier.control .negative n)) config s = _
    rw [run_bind, hcount]
    rfl

/-- Neighbouring controls are not merged. -/
theorem reduce_known (rs : List ControlRun) : reduce (rs.map known) = rs.map known := by
  have hpush (stack : List KnownModifier) :
      (rs.map known).foldl push stack = (rs.map known).reverse ++ stack := by
    induction rs generalizing stack with
    | nil => rfl
    | cons r rs ih =>
      have hstep : push stack r.known = r.known :: stack := by
        obtain ⟨_, _, h, _⟩ | ⟨_, _, _, _, h, _⟩ | h := push_cases stack r.known
        · nomatch h
        · nomatch h
        · exact h
      rw [List.map_cons, List.foldl_cons, hstep, ih, List.reverse_cons, List.append_assoc]
      rfl
  rw [reduce, hpush, List.append_nil, List.reverse_reverse]

theorem controlsOf_known (rs : List ControlRun) : controlsOf (rs.map known) = (controls rs).length := by
  have hstates : controlStates (rs.map known) = controls rs := List.flatMap_map ..
  rw [← length_controlStates, hstates]

end ControlRun

/-- Under the controls of runs, the first operands become the controls of the operation. -/
theorem applyModifiers_runs {target : GateTarget} {params : List Parameter} {g : Gate} {rs : List ControlRun}
    {qubits : List Nat} (hlength : (ControlRun.controls rs).length ≤ qubits.length)
    (hbase : baseOps calls target params (qubits.drop (ControlRun.controls rs).length) config s =
      (.ok [⟨.gate g, qubits.drop (ControlRun.controls rs).length, []⟩], s)) :
    applyModifiers calls target params (rs.map ControlRun.known) qubits config s =
      (.ok [⟨.gate { g with controls := ControlRun.controls rs ++ g.controls }, qubits, []⟩], s) := by
  induction rs generalizing qubits with
  | nil => exact hbase
  | cons r rs ih =>
    obtain ⟨state, n⟩ := r
    have hcontrols : ControlRun.controls (⟨state, n⟩ :: rs) =
        List.replicate n state ++ ControlRun.controls rs := rfl
    have hcount : (ControlRun.controls (⟨state, n⟩ :: rs)).length = n + (ControlRun.controls rs).length := by
      rw [hcontrols, List.length_append, List.length_replicate]
    rw [hcount] at hlength hbase
    rw [← List.drop_drop] at hbase
    have hinner := ih (by rw [List.length_drop]; omega) hbase
    have htaken : (qubits.take n).map (fun _ => state) = List.replicate n state := by
      rw [List.map_const', List.length_take, Nat.min_eq_left (by omega)]
    show (applyModifiers calls target params (rs.map ControlRun.known) (qubits.drop n) >>= fun inner =>
      pure (inner.map fun i => i.addControls state (qubits.take n))) config s = _
    rw [run_bind, hinner, hcontrols, List.append_assoc, ← htaken]
    dsimp only
    rw [run_pure, List.map_singleton, addControls]
    dsimp only
    rw [List.take_append_drop]

theorem gateOn_builtin {b : Builtin} {params : List Parameter} {qubits : List Nat}
    (hparams : params.length = b.params) (hqubits : qubits.length = b.qubits) (hdistinct : qubits.Nodup) :
    gateOn (Gate.ofBuiltin b params) qubits config s =
      (.ok [⟨.gate ⟨.builtin b, params, []⟩, qubits, []⟩], s) := by
  have hgate : Gate.ofBuiltin b params = .ok ⟨.builtin b, params, []⟩ := if_pos hparams
  have hcount : qubits.length = (⟨.builtin b, params, []⟩ : Gate).qubits := hqubits
  have hcheck : checkDistinct ⟨.gate ⟨.builtin b, params, []⟩, qubits, []⟩ = .ok () :=
    checkDistinct_eq_ok.2 hdistinct
  have hop : (Gate.ofBuiltin b params).bind (fun g => ofGate g qubits) =
      .ok ⟨.gate ⟨.builtin b, params, []⟩, qubits, []⟩ := by
    rw [hgate]
    show ofGate ⟨.builtin b, params, []⟩ qubits = _
    rw [ofGate, if_neg (not_not.2 hcount)]
    dsimp only
    rw [hcheck]
    rfl
  rw [gateOn, hop]
  rfl

/-- Single qubits are not broadcast. -/
theorem broadcast_singletons (gate : String) (qubits : List Nat) :
    broadcast gate (qubits.map fun q => [q]) config s = (.ok [qubits], s) := by
  have hlength : broadcastLength gate none (qubits.map fun q => [q]) = pure 1 := by
    induction qubits with
    | nil => rfl
    | cons q qubits ih => exact ih
  have hgroup : (qubits.map fun q => [q]).map (fun qs => operandAt qs 0) = qubits := by
    rw [List.map_map]
    exact List.map_id _
  rw [broadcast, hlength, pure_bind]
  show (Except.ok [(qubits.map fun q => [q]).map fun qs => operandAt qs 0], s) = _
  rw [hgroup]

end Expansion

section Operands

variable {q : Nat}

section Whole

variable {r : Registers} {x : Register} {id k : Nat}

theorem Registers.resolve_whole (hx : r.list[id]? = some x) (hk : k < x.size) :
    r.resolve (View.whole id x.size) k = .ok (x.base + k) := by
  have hlocated : (View.whole id x.size).locate? k = some (id, k) := by
    rw [View.locate?_eq, View.elements_whole, List.getElem?_map, List.getElem?_range hk]
    rfl
  have hphysical : r.physicalOf (id, k) = x.base + k := by
    rw [Registers.physicalOf, Registers.baseOf, hx]
    rfl
  have hnormal : Index.normalize k (View.whole id x.size).length = .ok k := Index.normalize_within hk
  rw [← hphysical]
  unfold Registers.resolve
  simp only [hnormal, hlocated, bind, Except.bind]

theorem Registers.exists_elementView? (hx : x ∈ r.list) (hkind : x.kind = .quantum) (hk : k < x.size) :
    ∃ w, r.elementView? .quantum (x.base + k) = some w := by
  have hholds : x.holds .quantum (x.base + k) = true := by simp [Register.holds, hkind, hk]
  refine Option.isSome_iff_exists.1 ?_
  rw [Registers.elementView?, Option.isSome_map]
  exact Registers.holder?_isSome hx hholds

end Whole

/-- An element of a register is the qubit at its place. -/
theorem NamedElement.operand {e : NamedElement} {x : Symbol} {id : Nat} {r : Register}
    (hr : s.registers.list[id]? = some r) (hkind : r.kind = .quantum) (hplace : e.place < r.size)
    (hsize : r.size < Bound.integer) (hx : s.scopes.resolve? e.name = some x)
    (hbinding : x.binding = .qubits (View.whole id r.size)) :
    quantumQubits calls e.expr config s = (.ok [r.base + e.place], s) := by
  obtain ⟨i, hi, hfold⟩ := fold_positionExpr calls config s (Nat.lt_trans hplace hsize)
  obtain ⟨w, hw⟩ := Registers.exists_elementView? (List.mem_of_getElem? hr) hkind hplace
  have hname : viewOf calls (.name e.name) config s = (.ok (.quantum, View.whole id r.size), s) := by
    rw [viewOf, nameView, run_bind, run_resolve hx]
    dsimp only
    rw [hbinding]
    rfl
  have hpart : partView calls .quantum (View.whole id r.size) [.single (positionExpr e.place)] config s =
      (.ok w, s) := by
    rw [partView, run_bind, hfold]
    dsimp only
    rw [indexValue, pure_bind, hi, elementView, run_get, Registers.resolve_whole hr hplace]
    dsimp only
    rw [hw]
    rfl
  have hview : viewOf calls e.expr config s = (.ok (.quantum, w), s) := by
    have hexpr : e.expr = .index (.name e.name) [.single (positionExpr e.place)] := rfl
    rw [hexpr, viewOf, run_bind, hname]
    dsimp only
    rw [run_bind, hpart]
    rfl
  rw [quantumQubits, quantumView, bind_assoc, run_bind, hview]
  dsimp only
  rw [pure_bind]
  show (Except.ok (s.registers.physical w), s) = _
  rw [Registers.physical_elementView? hw]

/-- A qubit as it is printed. -/
def FlatProgram.element (p : FlatProgram) (q : Nat) : NamedElement :=
  match p.qubitLocation? q with
  | some (r, place) => ⟨r.name, place⟩
  | none => ⟨"$", q⟩

/-- Each qubit is in one of the registers. -/
theorem exists_location (htiled : s.registers.Tiled) (hq : q < s.registers.qubits) {version : Option String} :
    ∃ (id : Nat) (r : Register), s.registers.list[id]? = some r ∧ r.kind = .quantum ∧
      r.base ≤ q ∧ q < r.base + r.size ∧
      (s.flatProgram version config).qubitLocation? q = some (r, q - r.base) := by
  have htotal : q < 0 + totalSize (s.registers.ofKind .quantum) := by
    rw [Nat.zero_add, ← htiled.total .quantum]
    exact hq
  obtain ⟨x, hx, hholds⟩ := (htiled.tiles .quantum).exists_holds (Nat.zero_le q) htotal
  have hinside : (decide (x.base ≤ q) && decide (q < x.base + x.size)) = true := by
    simp only [Register.holds, Bool.and_eq_true, decide_eq_true_eq] at hholds ⊢
    exact ⟨hholds.1.2, hholds.2⟩
  obtain ⟨r, hr⟩ : ∃ r, (s.registers.ofKind .quantum).find? (fun r => r.base ≤ q && q < r.base + r.size) =
      some r := Option.isSome_iff_exists.1 (List.find?_isSome.2 ⟨x, hx, hinside⟩)
  obtain ⟨hmem, hkind⟩ := Registers.mem_ofKind.1 (List.mem_of_find?_eq_some hr)
  obtain ⟨id, hid⟩ := List.mem_iff_getElem?.1 hmem
  have hfound := List.find?_some hr
  simp only [Bool.and_eq_true, decide_eq_true_eq] at hfound
  refine ⟨id, r, hid, hkind, hfound.1, hfound.2, ?_⟩
  show ((s.registers.ofKind .quantum).find? _).map _ = _
  rw [hr]
  rfl

/-- A qubit is printed as an element of a register that the name of the register leads back to. -/
theorem element_reads_back (calls : Calls) {version : Option String} (hs : Reachable config s)
    (hnames : s.NamesQubits) (hspelled : ∀ r ∈ s.registers.ofKind .quantum, (Token.name r.name).Spells r.name)
    (hq : q < s.registers.qubits) :
    let p := s.flatProgram version config
    p.qubitText q = (p.element q).text ∧ (p.element q).Writable ∧
      quantumQubits calls (p.element q).expr config s = (.ok [q], s) := by
  intro p
  obtain ⟨entries, hledger⟩ := hs.ledger
  obtain ⟨id, r, hr, hkind, hlow, hhigh, hlocation⟩ :=
    @exists_location config s q hledger.tiled hq version
  have hmem : r ∈ s.registers.ofKind .quantum := Registers.mem_ofKind.2 ⟨List.mem_of_getElem? hr, hkind⟩
  have htotal := (hledger.tiled.tiles .quantum).mem hmem
  rw [← hledger.tiled.total] at htotal
  have hbounded : s.registers.total .quantum ≤ 16777216 := hledger.bounded .quantum
  have helement : p.element q = ⟨r.name, q - r.base⟩ := by
    rw [FlatProgram.element, hlocation]
  have htext : p.qubitText q = FlatProgram.elementText (r, q - r.base) := by
    rw [FlatProgram.qubitText, hlocation]
  obtain ⟨x, hx, hbinding⟩ := hnames id r hr hkind
  have hplace : q - r.base < r.size := by omega
  have hsize : r.size < Bound.integer := by unfold Bound.integer; omega
  have hoperand : quantumQubits calls (NamedElement.expr ⟨r.name, q - r.base⟩) config s =
      (.ok [r.base + (q - r.base)], s) := NamedElement.operand hr hkind hplace hsize hx hbinding
  rw [Nat.add_sub_cancel' hlow] at hoperand
  rw [helement, htext]
  refine ⟨rfl, ⟨hspelled r hmem, ?_⟩, hoperand⟩
  dsimp only
  unfold Bound.literal
  omega

end Operands

section Application

theorem Builtin.spells (b : Builtin) : (Token.name b.name).Spells b.name := by
  have hword : Token.IsWord b.name := by
    cases b <;> exact ⟨_, _, rfl, rfl, rfl⟩
  exact hword.spells_name (by cases b <;> decide +kernel)

theorem Builtin.qubits_pos (b : Builtin) : 0 < b.qubits := by
  cases b <;> decide

/-- Numbers that are printed as parameters have tokens, and expressions that stand for them again. -/
theorem exists_parameters {xs : List Float}
    (h : ∀ x ∈ xs, x.abs < 9223372036854775808.0 ∧ Decimal.Legible x.abs) :
    ∃ args es, List.Forall₂ (Scans closesToken) ((xs.map .constant : List Parameter).map Parameter.text) args ∧
      List.Forall₂ (fun ts e => ∃ x, SignedNumeral ts e x) args es ∧
      ∀ (calls : Calls) (config : Config) (s : State), List.Forall₂
        (fun e x => toParameter calls e config s = (.ok x, s)) es (xs.map .constant : List Parameter) := by
  induction xs with
  | nil => exact ⟨[], [], .nil, .nil, fun _ _ _ => .nil⟩
  | cons x xs ih =>
    obtain ⟨⟨hsmall, hlegible⟩, hxs⟩ := List.forall_mem_cons.1 h
    obtain ⟨ts, e, hnumeral, hscans⟩ := exists_signedNumeral hsmall hlegible
    obtain ⟨args, es, htexts, hnumerals, hvalues⟩ := ih hxs
    exact ⟨ts :: args, e :: es, .cons hscans htexts, .cons ⟨x, hnumeral⟩ hnumerals,
      fun calls config s => .cons hnumeral.parameter (hvalues calls config s)⟩

theorem resolveGate_builtin {b : Builtin} {x : Symbol} (hx : s.scopes.resolve? b.name = some x)
    (hbinding : x.binding = .builtin b) : resolveGate b.name config s = (.ok (.builtin b), s) := by
  have hget : resolve? b.name config s = (.ok (some x), s) := by
    rw [← hx]
    rfl
  rw [resolveGate, run_bind, hget]
  dsimp only
  rw [hbinding]
  rfl

theorem ControlRun.count_le {r : ControlRun} {rs : List ControlRun} (h : r ∈ rs) :
    r.count ≤ (controls rs).length := by
  have hmem : List.replicate r.count r.state ∈ rs.map fun r => List.replicate r.count r.state :=
    List.mem_map_of_mem h
  have hlength := (List.sublist_flatten_of_mem hmem).length_le
  rwa [List.length_replicate, ← List.flatMap_def] at hlength

/-- An operation has at most as many operands as there can be qubits. -/
theorem operands_le (hs : Reachable config s) {i : Instruction}
    (h : i.WellFormed s.registers.qubits s.registers.clbits) : i.qubits.length ≤ 16777216 := by
  obtain ⟨entries, hledger⟩ := hs.ledger
  have htotal : s.registers.qubits ≤ 16777216 := hledger.bounded .quantum
  have hsubset : i.qubits ⊆ List.range s.registers.qubits := fun q hq => List.mem_range.2 (h.qubit_lt q hq)
  have hlength := (List.subperm_of_subset h.distinct hsubset).length_le
  rw [List.length_range] at hlength
  exact Nat.le_trans hlength htotal

open KnownModifier Instruction in
/-- A call of a builtin gate under runs of controls, with numbers and single qubits, is one operation. -/
theorem expandCall_application {b : Builtin} {x : Symbol} {rs : List ControlRun} {es : List Expr}
    {params : List Parameter} {elements : List NamedElement} {qubits : List Nat}
    (hx : s.scopes.resolve? b.name = some x)
    (hbinding : x.binding = .builtin b) (hpos : ∀ r ∈ rs, 0 < r.count)
    (hparams : List.Forall₂ (fun e y => toParameter calls e config s = (.ok y, s)) es params)
    (hoperands : List.Forall₂ (fun e q => quantumQubits calls e config s = (.ok [q], s))
      (elements.map NamedElement.expr) qubits)
    (harity : params.length = b.params) (hcount : qubits.length = b.qubits + (ControlRun.controls rs).length)
    (hbound : qubits.length < Bound.size) (hdistinct : qubits.Nodup) :
    expandCall calls (applicationCall rs b.name es elements) config s =
      (.ok [⟨.gate ⟨.builtin b, params, ControlRun.controls rs⟩, qubits, []⟩], s) := by
  -- The call is read without a change of the state: the modifiers, the parameters and the operands.
  have hmodifiers : (rs.map ControlRun.modifier).mapM (evalModifier calls) config s =
      (.ok (rs.map ControlRun.known), s) := by
    refine mapM_eq_ok ?_
    rw [List.forall₂_map_left_iff, List.forall₂_map_right_iff, List.forall₂_same]
    intro r hr
    have hle := ControlRun.count_le hr
    exact ControlRun.evaluates (hpos r hr) (by omega)
  have hcontrols : controlsOf (reduce (rs.map ControlRun.known)) = (ControlRun.controls rs).length := by
    rw [ControlRun.reduce_known, ControlRun.controlsOf_known]
  have hlists : List.Forall₂ (fun e qs => quantumQubits calls e config s = (.ok qs, s))
      (elements.map NamedElement.expr) (qubits.map fun q => [q]) :=
    List.forall₂_map_right_iff.2 hoperands
  have hprepared : Prepares calls config s (applicationCall rs b.name es elements) (.builtin b)
      (rs.map ControlRun.known) params [qubits] s := by
    refine ⟨resolveGate_builtin hx hbinding, hmodifiers, hparams.length_eq.trans harity, mapM_eq_ok hparams,
      ?_, ?_, _, mapM_eq_ok hlists, broadcast_singletons _ _⟩
    · rw [hcontrols]
      exact hcount ▸ hbound
    · rw [hcontrols]
      exact hoperands.length_eq.trans hcount
  -- The gate itself is applied to the operands that the controls leave.
  have hbase : baseOps calls (.builtin b) params (qubits.drop (ControlRun.controls rs).length) config s =
      (.ok [⟨.gate ⟨.builtin b, params, []⟩, qubits.drop (ControlRun.controls rs).length, []⟩], s) :=
    gateOn_builtin harity (by rw [List.length_drop]; omega) (hdistinct.sublist (List.drop_sublist _ _))
  have happlied := applyModifiers_runs (by omega) hbase
  rw [List.append_nil] at happlied
  rw [hprepared.run, ControlRun.reduce_known]
  have hnone : firstRepeated [] qubits = none :=
    firstRepeated_eq_none.2 ⟨hdistinct, fun _ _ => List.not_mem_nil⟩
  exact applyGroups_eq_ok.2 ⟨[_], rfl, .cons hnone happlied .nil⟩

end Application

section Printed

variable {version : Option String} {b : Builtin} {cs : List Control} {qubits : List Nat}

/-- The text of an operation is cut into the tokens of an application. -/
theorem scans_operation {p : FlatProgram} {params : List Parameter} {rs : List ControlRun}
    {args : List (List Token)} (hruns : Gate.controlsText cs = String.join (rs.map ControlRun.text))
    (hcounts : ∀ r ∈ rs, r.count < Bound.literal)
    (hargs : List.Forall₂ (Scans closesToken) (params.map Parameter.text) args)
    (htexts : ∀ q ∈ qubits, p.qubitText q = (p.element q).text)
    (hwritable : ∀ e ∈ qubits.map p.element, e.Writable) :
    Scans anything (p.operationText ⟨.gate ⟨.builtin b, params, cs⟩, qubits, []⟩)
      (applicationTokens rs b.name args (qubits.map p.element)) := by
  have hqubits : qubits.map p.qubitText = (qubits.map p.element).map NamedElement.text := by
    rw [List.map_map]
    exact List.map_congr_left htexts
  have happlication := scans_application hcounts b.spells hargs hwritable
  rw [List.isEmpty_map, ← hruns, ← hqubits] at happlication
  have hgate : (⟨.builtin b, params, cs⟩ : Gate).text =
      Gate.controlsText cs ++ (b.name ++ Gate.paramsText params) := String.append_assoc
  have htext : p.operationText ⟨.gate ⟨.builtin b, params, cs⟩, qubits, []⟩ =
      (⟨.builtin b, params, cs⟩ : Gate).text ++ " " ++ commaJoin (qubits.map p.qubitText) ++ ";" := rfl
  rw [htext, hgate, Gate.paramsText]
  exact happlication

/-- An operation of a builtin gate that is printed and read again expands to itself: to one operation with the
same gate, the same controls in their order, the same parameters and the same operands. That is outside of all
blocks and bodies, where the registers of qubits are in scope by the names that are printed. The numbers have
to be legible as literals, and they are bounded as integers are, since whole ones are read as such. -/
theorem printed_gate_expands_back (calls : Calls) {xs : List Float} (hs : Reachable config s)
    (hglobal : s.scopes.isGlobal = true) (hnames : s.NamesQubits)
    (hspelled : ∀ r ∈ s.registers.ofKind .quantum, (Token.name r.name).Spells r.name)
    (hvalues : ∀ x ∈ xs, x.abs < 9223372036854775808.0 ∧ Decimal.Legible x.abs)
    (hformed : Instruction.WellFormed s.registers.qubits s.registers.clbits
      ⟨.gate ⟨.builtin b, xs.map .constant, cs⟩, qubits, []⟩) :
    let i : Instruction := ⟨.gate ⟨.builtin b, xs.map .constant, cs⟩, qubits, []⟩
    let source := Source.ofString ((s.flatProgram version config).operationText i)
    ∃ call span c, Grammar.statement source (Grammar.cursor source) = (.ok ⟨.gate call, span⟩, c) ∧
      c.rest = [] ∧ c.errors = [] ∧ expandCall calls call config s = (.ok [i], s) := by
  intro i source
  let p := s.flatProgram version config
  obtain ⟨rs, hruns, hcontrols, hpos⟩ := Gate.exists_runs cs
  obtain ⟨args, es, htexts, hnumerals, hparams⟩ := exists_parameters hvalues
  have hcount : qubits.length = b.qubits + cs.length := hformed.operands _ rfl
  have harity : (xs.map .constant : List Parameter).length = b.params := hformed.params _ rfl
  have hlength : qubits.length ≤ 16777216 := operands_le hs hformed
  have hbound : qubits.length < Bound.size := Nat.lt_of_le_of_lt hlength (by decide)
  have hcounts : ∀ r ∈ rs, r.count < Bound.literal := fun r hr => by
    have hle := ControlRun.count_le hr
    rw [hcontrols] at hle
    unfold Bound.literal
    omega
  have helement q (hq : q ∈ qubits) :=
    @element_reads_back config s q calls version hs hnames hspelled (hformed.qubit_lt q hq)
  have hwritable : ∀ e ∈ qubits.map p.element, e.Writable :=
    List.forall_mem_map.2 fun q hq => (helement q hq).2.1
  -- The list of operands is read to the end of the statement only if there is an operand.
  have hne : qubits.map p.element ≠ [] := by
    have hpositive := b.qubits_pos
    refine List.ne_nil_of_length_pos ?_
    rw [List.length_map]
    omega
  have hscans : Scans anything (p.operationText i) (applicationTokens rs b.name args (qubits.map p.element)) :=
    scans_operation hruns hcounts htexts (fun q hq => (helement q hq).1) hwritable
  obtain ⟨span, c, hread, hrest, herrors⟩ := reads_statement hscans fun self =>
    reads_application hcounts hnumerals hwritable hne self
  obtain ⟨x, hx, hbinding⟩ := hs.resolve_builtin hglobal b
  have hoperands : List.Forall₂ (fun e q => quantumQubits calls e config s = (.ok [q], s))
      ((qubits.map p.element).map NamedElement.expr) qubits := by
    rw [List.forall₂_map_left_iff, List.forall₂_map_left_iff, List.forall₂_same]
    exact fun q hq => (helement q hq).2.2
  have hexpanded := expandCall_application hx hbinding hpos (hparams calls config s) hoperands harity
    (hcontrols ▸ hcount) hbound hformed.distinct
  rw [hcontrols] at hexpanded
  exact ⟨_, span, c, hread, hrest, herrors, hexpanded⟩

/-- Two runs of controls, and numbers with and without a sign, a fraction and a value. -/
theorem printed_cu_expands_back :
    let s := (afterDeclarations .default [("q", 3), ("a", 1), ("b", 2)]).2
    let i : Instruction :=
      ⟨.gate ⟨.builtin .cu, [0.5, -0.5, 2.0, -0.0].map .constant, [.positive, .positive, .negative]⟩,
        [4, 0, 3, 2, 5], []⟩
    let text := (s.flatProgram none .default).operationText i
    text = "ctrl(2) @ negctrl @ cu(0.5, -0.5, 2, -0) b[0], q[0], a[0], q[2], b[1];" ∧
      ∃ call span c, Grammar.statement (Source.ofString text) (Grammar.cursor (Source.ofString text)) =
          (.ok ⟨.gate call, span⟩, c) ∧
        c.rest = [] ∧ c.errors = [] ∧ expandCall (.nested 0) call .default s = (.ok [i], s) := by
  intro s i text
  have htext : text = "ctrl(2) @ negctrl @ cu(0.5, -0.5, 2, -0) b[0], q[0], a[0], q[2], b[1];" := by
    decide +kernel
  obtain ⟨honly, hreachable⟩ : s.OnlyQubits ∧ Reachable .default s :=
    afterDeclarations_onlyQubits (by decide +kernel)
  have hregisters : s.registers.ofKind .quantum =
      [⟨"q", 3, 0, .quantum⟩, ⟨"a", 1, 3, .quantum⟩, ⟨"b", 2, 4, .quantum⟩] := by decide +kernel
  have hqubits : s.registers.qubits = 6 := by decide +kernel
  clear_value s
  refine ⟨htext, ?_⟩
  have hspelled : ∀ r ∈ s.registers.ofKind .quantum, (Token.name r.name).Spells r.name := by
    rw [hregisters]
    simp only [List.forall_mem_cons]
    exact ⟨⟨'q', [], rfl, rfl⟩, ⟨'a', [], rfl, rfl⟩, ⟨'b', [], rfl, rfl⟩, nofun⟩
  have hhalf : Decimal.Legible 0.5 := Or.inl ⟨'0', ['.', '5'], by decide +kernel, rfl⟩
  have htwo : Decimal.Legible 2.0 := Or.inr ⟨2, by decide +kernel, '2', [], by decide +kernel, rfl⟩
  have hzero : Decimal.Legible 0.0 := Or.inr ⟨0, by decide +kernel, '0', [], by decide +kernel, rfl⟩
  have hvalues : ∀ x ∈ [0.5, -0.5, 2.0, -0.0], x.abs < 9223372036854775808.0 ∧ Decimal.Legible x.abs := by
    have habs : (0.5 : Float).abs = 0.5 ∧ (-0.5 : Float).abs = 0.5 ∧ (2.0 : Float).abs = 2.0 ∧
      (-0.0 : Float).abs = 0.0 := by decide +kernel
    obtain ⟨h₁, h₂, h₃, h₄⟩ := habs
    simp only [List.forall_mem_cons, h₁, h₂, h₃, h₄]
    exact ⟨⟨by decide +kernel, hhalf⟩, ⟨by decide +kernel, hhalf⟩, ⟨by decide +kernel, htwo⟩,
      ⟨by decide +kernel, hzero⟩, nofun⟩
  have hformed : i.WellFormed s.registers.qubits s.registers.clbits := by
    refine ⟨⟨by decide, ?_, ?_⟩, ?_, fun _ hc => absurd hc List.not_mem_nil⟩
    · rintro _ ⟨⟩
      rfl
    · rintro _ ⟨⟩
      rfl
    · rw [hqubits]
      decide
  exact printed_gate_expands_back (.nested 0) hreachable honly.isGlobal honly.named hspelled hvalues hformed

end Printed

end OpenQasm
