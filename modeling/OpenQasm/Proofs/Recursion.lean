import OpenQasm.Proofs.Nesting
import OpenQasm.Proofs.Programs
import OpenQasm.Proofs.SourceCharacters
import OpenQasm.Proofs.Subroutines

/-!
Definitions are not expanded inside their own bodies. An expansion that takes a detour wherever it would
do so makes the same program, unless a recursion is reported; and when the signatures of the subroutines do
not lead back to themselves, no chain of calls is so long that the expansion is cut off.
-/
namespace OpenQasm

open Analysis

/-- What is done in place of the expansions that should not happen. -/
structure Detours where
  /-- Inside the body of the definition itself. -/
  again : Calls
  /-- Inside as many bodies as are allowed. -/
  deeper : Calls
  /-- Inside as many calls as are allowed. -/
  further : Calls

/-- The expansion of definitions inside the bodies of `opened`. No body is opened inside itself, and at
most `limit` of them inside each other. -/
def Calls.watched (limit : Nat) (detours : Detours) : List String → Nat → Calls
  | _, 0 => detours.further
  | opened, n + 1 =>
    { subroutine := fun d args config s =>
        if d.name ∈ opened then detours.again.subroutine d args config s
        else if limit ≤ opened.length then detours.deeper.subroutine d args config s
        else callSubroutine (watched limit detours opened n)
          (block (watched limit detours (d.name :: opened) n)) d args config s
      resultType := fun _ t config s => resolveType (watched limit detours opened n) t config s
      gate := fun d params qubits config s =>
        if d.name ∈ opened then detours.again.gate d params qubits config s
        else if limit ≤ opened.length then detours.deeper.gate d params qubits config s
        else inlineGate (bodyOps (watched limit detours (d.name :: opened) n)) d params qubits
          config s }

namespace Calls

variable {limit n : Nat} {detours : Detours} {opened : List String}

theorem watched_subroutine_again {d : SubroutineDefinition} (h : d.name ∈ opened)
    (args : List Expr) :
    (watched limit detours opened (n + 1)).subroutine d args = detours.again.subroutine d args := by
  funext config s
  exact if_pos h

theorem watched_subroutine_opens {d : SubroutineDefinition} (h : d.name ∉ opened)
    (hlimit : opened.length < limit) (args : List Expr) :
    (watched limit detours opened (n + 1)).subroutine d args =
      callSubroutine (watched limit detours opened n)
        (block (watched limit detours (d.name :: opened) n)) d args := by
  funext config s
  exact (if_neg h).trans (if_neg (Nat.not_le.2 hlimit))

theorem watched_gate_again {d : GateDefinition} (h : d.name ∈ opened) (params : List Parameter)
    (qubits : List Nat) :
    (watched limit detours opened (n + 1)).gate d params qubits =
      detours.again.gate d params qubits := by
  funext config s
  exact if_pos h

theorem watched_gate_opens {d : GateDefinition} (h : d.name ∉ opened)
    (hlimit : opened.length < limit) (params : List Parameter) (qubits : List Nat) :
    (watched limit detours opened (n + 1)).gate d params qubits =
      inlineGate (bodyOps (watched limit detours (d.name :: opened) n)) d params qubits := by
  funext config s
  exact (if_neg h).trans (if_neg (Nat.not_le.2 hlimit))

end Calls

/-- A symbol that stands for a definition stands for one of the program, under its name; and it is no
variable that another symbol could be a copy of. -/
structure Symbol.Defined (p : Program) (x : Symbol) : Prop where
  subroutine : ∀ d, x.binding = .subroutine d →
    (∃ st ∈ p.statements, st.kind = .defineSubroutine d) ∧ x.name = d.name
  gate : ∀ d, x.binding = .gate d →
    (∃ st ∈ p.statements, st.kind = .defineGate d) ∧ x.name = d.name
  original : x.kind = .classicalVariable ∨ x.emitName.isSome →
    (∀ d, x.binding ≠ .subroutine d) ∧ ∀ d, x.binding ≠ .gate d

namespace Symbol

variable {p : Program} {x y : Symbol}

theorem defined_of_noDefinition (hsubroutine : ∀ d, x.binding ≠ .subroutine d)
    (hgate : ∀ d, x.binding ≠ .gate d) : x.Defined p :=
  ⟨fun d hd => absurd hd (hsubroutine d), fun d hd => absurd hd (hgate d),
    fun _ => ⟨hsubroutine, hgate⟩⟩

theorem Defined.congr (h : x.Defined p) (hkey : y.key = x.key) (hname : y.emitName = x.emitName) :
    y.Defined p := by
  have hbinding : y.binding = x.binding := congrArg (·.2.2) hkey
  have hkind : y.kind = x.kind := congrArg (·.2.1) hkey
  have hnames : y.name = x.name := congrArg (·.1) hkey
  exact ⟨hbinding ▸ hnames ▸ h.subroutine, hbinding ▸ hnames ▸ h.gate,
    hbinding ▸ hkind ▸ hname ▸ h.original⟩

end Symbol

/-- What holds inside the bodies of `opened`, where all definitions are ones of a program. -/
structure Expanding (p : Program) (opened : List String) (inner : Prop) (s : State) : Prop where
  depth : inner → 0 < s.scopes.depth
  calls : s.calls = opened
  symbols : ∀ x, s.scopes.Has x → x.Defined p

namespace Expanding

variable {p : Program} {opened opened' : List String} {inner inner' : Prop} {s t : State}

theorem congr (h : Expanding p opened inner s) (hscopes : t.scopes = s.scopes)
    (hcalls : t.calls = s.calls) : Expanding p opened inner t :=
  ⟨hscopes ▸ h.depth, hcalls.trans h.calls, hscopes ▸ h.symbols⟩

theorem resolve? (h : Expanding p opened inner s) {name : String} {x : Symbol}
    (hx : s.scopes.resolve? name = some x) : x.Defined p ∧ x.name = name :=
  ⟨h.symbols x (Scopes.has_of_resolve? hx), (Scopes.resolveIn_eq_some hx).1⟩

theorem push (h : Expanding p opened inner s) {x : Symbol} (hx : x.Defined p) :
    Expanding p opened inner { s with scopes := s.scopes.push x } := by
  refine ⟨fun hinner => ?_, h.calls, fun y hy => ?_⟩
  · rw [(Scopes.grows_push s.scopes x).depth_eq]
    exact h.depth hinner
  · rcases Scopes.has_push hy with rfl | hy
    · exact hx.congr rfl rfl
    · exact h.symbols y hy

theorem modify (h : Expanding p opened inner s) {f : Symbol → Symbol} {name : String}
    (hf : KeepsKey f) (hdefined : ∀ x, s.scopes.resolve? name = some x → (f x).Defined p) :
    Expanding p opened inner { s with scopes := s.scopes.modify name f } := by
  refine ⟨fun hinner => ?_, h.calls, fun y hy => ?_⟩
  · rw [(Scopes.same_modify hf s.scopes name).grows.depth_eq]
    exact h.depth hinner
  · rcases Scopes.has_modify hy with hy | ⟨x, hx, rfl⟩
    · exact h.symbols y hy
    · exact hdefined x hx

theorem enter (h : Expanding p opened inner s) {calls : List String} (hcalls : calls = opened')
    (kind : ScopeKind) :
    Expanding p opened' inner' { s with calls, scopes := s.scopes.enter kind } :=
  ⟨fun _ => Nat.succ_pos _, hcalls, fun x hx => h.symbols x (Scopes.has_enter hx)⟩

theorem exit (h : Expanding p opened inner s) (calls : List String) {kind : ScopeKind}
    (hframe : Frame { s with calls, scopes := s.scopes.enter kind } t)
    (ht : Expanding p opened' inner' t) :
    Expanding p opened inner { t with scopes := t.scopes.exit, calls := s.calls } := by
  refine ⟨fun hinner => ?_, h.calls, fun x hx => ht.symbols x (Scopes.has_exit hx)⟩
  rw [hframe.scopes.exit.grows.depth_eq]
  exact h.depth hinner

end Expanding

/-- The invariant inside the bodies of `opened`. -/
def StatementInvariant.expanding (p : Program) (opened : List String) (inner : Prop)
    (excuses : Problem → Prop) : StatementInvariant where
  toFacts := .trivial
  excuses := excuses
  core := Expanding p opened inner
  subroutine name d := (∃ st ∈ p.statements, st.kind = .defineSubroutine d) ∧ name = d.name
  gate name d := (∃ st ∈ p.statements, st.kind = .defineGate d) ∧ name = d.name
  symbol _ x := x.Defined p
  writable _ _ := True
  writable_mono _ _ := trivial
  core_congr h hscopes _ hcalls _ := h.congr hscopes hcalls
  core_reserve _ h := h.congr rfl rfl
  core_allocate h _ _ := h.congr rfl rfl
  core_mark _ _ h := h.congr rfl rfl
  tallied_measured h := False.elim h
  target_reserve _ _ := trivial
  target_allocate _ _ := trivial
  target_writable _ _ _ _ := trivial
  core_name h _ hx hkind _ _ := by
    refine h.modify (fun _ => rfl) fun y hy => ?_
    cases hx.symm.trans hy
    obtain ⟨hsubroutine, hgate⟩ := (h.resolve? hx).1.original (Or.inl hkind)
    exact Symbol.defined_of_noDefinition hsubroutine hgate
  symbol_mono _ h := h
  symbol_none h _ := Symbol.defined_of_noDefinition (fun _ hd => nomatch h.symm.trans hd)
    fun _ hd => nomatch h.symm.trans hd
  symbol_param h _ := Symbol.defined_of_noDefinition (fun _ hd => nomatch h.symm.trans hd)
    fun _ hd => nomatch h.symm.trans hd
  symbol_qubits _ h _ _ := Symbol.defined_of_noDefinition (fun _ hd => nomatch h.symm.trans hd)
    fun _ hd => nomatch h.symm.trans hd
  symbol_clbits h _ _ _ _ := Symbol.defined_of_noDefinition (fun _ hd => nomatch h.symm.trans hd)
    fun _ hd => nomatch h.symm.trans hd
  symbol_copy h hx horiginal _ hbinding _ _ := by
    obtain ⟨hsubroutine, hgate⟩ := (h.resolve? hx).1.original horiginal
    exact Symbol.defined_of_noDefinition (hbinding ▸ hsubroutine) (hbinding ▸ hgate)
  resolves_subroutine h hx hd := by
    obtain ⟨hdefined, hname⟩ := h.resolve? hx
    exact ⟨(hdefined.subroutine _ hd).1, hname.symm.trans (hdefined.subroutine _ hd).2⟩
  resolves_gate h hx hd := by
    obtain ⟨hdefined, hname⟩ := h.resolve? hx
    exact ⟨(hdefined.gate _ hd).1, hname.symm.trans (hdefined.gate _ hd).2⟩
  resolves_qubits _ _ _ := trivial
  resolves_clbits _ _ _ := trivial
  view_element _ _ _ _ := trivial
  written _ _ := True
  writable_of_resolve _ _ _ _ := trivial
  core_value _ h _ _ _ :=
    ⟨h.modify (fun _ => rfl) fun _ hx => (h.resolve? hx).1.congr rfl rfl, trivial⟩
  core_forget _ h := ⟨h.modify (fun _ => rfl) fun _ hx => (h.resolve? hx).1.congr rfl rfl, trivial⟩
  core_declare h hx _ hscopes := Scopes.eq_push_of_declare hscopes ▸ h.push hx
  core_branch h := h.congr rfl rfl
  core_floor _ h := h.congr rfl rfl
  view_allocate _ _ := trivial
  place_declared _ _ := trivial

namespace Analysis

section Surroundings

variable {p : Program} {opened : List String} {inner : Prop} {excuses : Problem → Prop}

/-- What runs in a block of its own runs in an inner scope. -/
theorem nests_expanding :
    Nests (StatementInvariant.expanding p opened inner excuses).toInvariant
      (StatementInvariant.expanding p opened True excuses).toInvariant where
  excuses _ := id
  tallied := id
  flat _ _ h := h
  entered _ hs := hs.enter hs.calls .block
  left s _ hs hframe ht := (hs.exit s.calls hframe ht).congr rfl hframe.calls
  measured _ _ h := h

theorem expands_expanding (name : String) (kind : ScopeKind) (pre : State → Prop) :
    Expands (StatementInvariant.expanding p opened inner excuses).toInvariant
      (StatementInvariant.expanding p (name :: opened) True excuses).toInvariant name kind pre where
  excuses _ := id
  tallied := id
  flat _ _ h := h
  entered _ hs _ _ := hs.enter (congrArg (name :: ·) hs.calls) kind
  left _ _ hs hframe ht := hs.exit _ hframe ht

theorem mayDefine_inner (name : String) (kind : SymbolKind) (binding : Binding) :
    MayDefine (StatementInvariant.expanding p opened True excuses).toInvariant name kind binding := by
  apply Or.inl
  intro s hs
  have hdepth := hs.depth trivial
  unfold Scopes.depth at hdepth
  unfold Scopes.isGlobal
  cases hinner : s.scopes.inner with
  | nil => rw [hinner] at hdepth; nomatch hdepth
  | cons a outer => rfl

/-- In an inner scope, definitions are rejected and so need no reason. -/
theorem block_expanding {weight : String → Nat} {k : Nat} {calls calls' : Calls}
    (h : CallsAgree (StatementInvariant.expanding p opened True excuses).toInvariant weight k calls
      calls') (body : List Statement) (hk : weigh weight (bodyCallees body) ≤ k) :
    Ensures (StatementInvariant.expanding p opened True excuses).toInvariant (fun _ => True)
      (block calls body) (block calls' body)
      (SignalFits (StatementInvariant.expanding p opened True excuses).toInvariant) :=
  block_ensures h nests_expanding (fun _ => defineSubroutine_agree _ (mayDefine_inner _ _ _))
    (fun _ => defineGate_agree _ (mayDefine_inner _ _ _) (mayDefine_inner _ _ _)) body hk

theorem Fresh.original {name : String} {kind : SymbolKind} {x : Symbol} (h : Fresh name kind x)
    (hkind : kind ≠ .classicalVariable) :
    ¬(x.kind = .classicalVariable ∨ x.emitName.isSome = true) := by
  rw [h.kind, h.emitName]
  rintro (hvariable | hname)
  · exact hkind hvariable
  · nomatch hname

/-- The definitions of the program may be made where no definition is expanded. -/
theorem mayDefine_subroutine {st : Statement} {d : SubroutineDefinition} (hst : st ∈ p.statements)
    (hd : st.kind = .defineSubroutine d) :
    MayDefine (StatementInvariant.expanding p opened inner excuses).toInvariant d.name
      .subroutineDefinition (.subroutine d) := by
  refine Or.inr fun _ x hx => ⟨?_, nofun, fun horiginal => ?_⟩
  · rintro _ ⟨⟩
    exact ⟨⟨st, hst, hd⟩, hx.name⟩
  · exact absurd horiginal (hx.original nofun)

theorem mayDefine_gate {st : Statement} {d : GateDefinition} {binding : Binding}
    (hst : st ∈ p.statements) (hd : st.kind = .defineGate d)
    (hbinding : binding = .gate d ∨ ∃ g, binding = .external g) :
    MayDefine (StatementInvariant.expanding p opened inner excuses).toInvariant d.name
      .gateDefinition binding := by
  refine Or.inr fun _ x hx => ⟨?_, ?_, fun horiginal => ?_⟩
  · rcases hbinding with rfl | ⟨g, rfl⟩ <;> nofun
  · rcases hbinding with rfl | ⟨g, rfl⟩
    · rintro _ ⟨⟩
      exact ⟨⟨st, hst, hd⟩, hx.name⟩
    · nofun
  · exact absurd horiginal (hx.original nofun)

end Surroundings

/-- A step that drops the construct at once agrees with any other where its problem is an excuse. -/
theorem Ensures.excused {α : Type} {I : Invariant} {pre : State → Prop} {post : α → State → Prop}
    {x y : Analysis α} (problem : Problem) (herror : problem.severity = .error)
    (hx : ∀ config s, I.core s → x config s = Analysis.failConstruct problem config s)
    (hy : y = Analysis.failConstruct problem ∨ I.excuses problem) : Ensures I pre x y post := by
  intro config s hs hp
  have hfails : Ensures I pre (Analysis.failConstruct problem) (Analysis.failConstruct problem) post :=
    Ensures.failConstruct problem herror
  rw [hx config s hs]
  rcases hy with rfl | hexcuses
  · exact hfails config s hs hp
  · exact ⟨Or.inr (Or.inl ⟨⟨problem, s.span⟩, hexcuses, rfl⟩), (hfails config s hs hp).2⟩

/-- The detours that are taken inside the body of a definition report a recursion, but for those that are
excused. -/
structure Excused (detours : Detours) (excuses : Problem → Prop) : Prop where
  subroutine : ∀ d args,
    detours.again.subroutine d args = failConstruct (.recursiveCall d.name) ∨
      excuses (.recursiveCall d.name)
  gate : ∀ d params qubits,
    detours.again.gate d params qubits = failConstruct (.recursiveGate d.name) ∨
      excuses (.recursiveGate d.name)

section Watching

variable {p : Program} {rank : String → Nat} {detours : Detours} {excuses : Problem → Prop}

/-- Two expansions allow for enough nested calls to agree on a text of weight `k`: they allow for the same
number and do the same beyond it, or both allow for all that there can be. -/
def Suffices (p : Program) (rank : String → Nat) (detours : Detours) (opened : List String)
    (bound : Option Nat) (k m n : Nat) : Prop :=
  m = n ∧ detours.further = .nested 0 ∨
    p.Ranked rank ∧ p.depthBound rank opened bound k ≤ m ∧ p.depthBound rank opened bound k ≤ n

theorem Suffices.mono {opened opened' : List String} {bound bound' : Option Nat} {k k' m n : Nat}
    (h : Suffices p rank detours opened bound k (m + 1) (n + 1))
    (hless : p.Ranked rank → p.depthBound rank opened' bound' k' + 1 ≤
      p.depthBound rank opened bound k) :
    Suffices p rank detours opened' bound' k' m n := by
  rcases h with ⟨heq, hfurther⟩ | ⟨hranked, hm, hn⟩
  · exact Or.inl ⟨Nat.succ.inj heq, hfurther⟩
  · have hlt := hless hranked
    exact Or.inr ⟨hranked, by omega, by omega⟩

theorem Suffices.cut {opened : List String} {bound : Option Nat} {k n : Nat}
    (h : Suffices p rank detours opened bound k 0 n) (hk : 1 ≤ k) :
    n = 0 ∧ detours.further = .nested 0 := by
  rcases h with ⟨heq, hfurther⟩ | ⟨-, hm, -⟩
  · exact ⟨heq.symm, hfurther⟩
  · unfold Program.depthBound at hm
    omega

theorem Suffices.goesOn {opened : List String} {bound : Option Nat} {k m n : Nat}
    (h : Suffices p rank detours opened bound k (m + 1) n) (hk : 1 ≤ k) :
    ∃ n', n = n' + 1 := by
  rcases h with ⟨heq, -⟩ | ⟨-, -, hn⟩
  · exact ⟨m, heq.symm⟩
  · unfold Program.depthBound at hn
    exact ⟨n - 1, by omega⟩

theorem callSubroutine_again {calls : Calls} {block : List Statement → Analysis Signal}
    {d : SubroutineDefinition} (args : List Expr) (config : Config) {s : State}
    (h : d.name ∈ s.calls) :
    callSubroutine calls block d args config s =
      failConstruct (.recursiveCall d.name) config s := by
  unfold callSubroutine
  rw [run_get, List.contains_iff_mem.2 h]
  rfl

theorem inlineGate_again {ops : List Statement → Analysis (List Instruction)} {d : GateDefinition}
    (params : List Parameter) (qubits : List Nat) (config : Config) {s : State}
    (h : d.name ∈ s.calls) :
    inlineGate ops d params qubits config s = failConstruct (.recursiveGate d.name) config s := by
  unfold inlineGate
  rw [run_get, List.contains_iff_mem.2 h]
  rfl

/-- There are at least as many definitions as open bodies and one more. -/
theorem length_opened_lt {opened : List String} {name : String} (hnodup : opened.Nodup)
    (hopened : opened ⊆ p.definedNames) (hmem : name ∈ p.definedNames) (hname : name ∉ opened) :
    opened.length < p.definedNames.length := by
  have hcons : (name :: opened).Nodup := List.nodup_cons.2 ⟨hname, hnodup⟩
  exact hcons.length_le_of_subset (List.cons_subset.2 ⟨hmem, hopened⟩)

theorem mem_definedNames {st : Statement} (hst : st ∈ p.statements) {name : String}
    (h : st.definedName? = some name) : name ∈ p.definedNames :=
  List.mem_filterMap.2 ⟨st, hst, h⟩

section Levels

/-- The expansion that allows for `m` nested calls agrees with a watched one. -/
def Unwatched (p : Program) (rank : String → Nat) (detours : Detours)
    (excuses : Problem → Prop) (m : Nat) :
    Prop :=
  ∀ (n : Nat) (opened : List String) (inner : Prop) (bound : Option Nat) (k : Nat), opened.Nodup →
    opened ⊆ p.definedNames → Suffices p rank detours opened bound k m n →
    CallsAgree (StatementInvariant.expanding p opened inner excuses).toInvariant
      (p.callWeight rank bound) k (.nested m) (.watched p.definedNames.length detours opened n)

variable {m n : Nat} {opened : List String} {inner : Prop} {bound : Option Nat} {k : Nat}
  {st : Statement} (hlevel : Unwatched p rank detours excuses m) (hnodup : opened.Nodup)
  (hopened : opened ⊆ p.definedNames)
  (h : Suffices p rank detours opened bound k (m + 1) (n + 1)) (hst : st ∈ p.statements)

include hlevel hnodup hopened h hst

/-- The types and sizes in the signature of a subroutine. -/
theorem signature_agree {d : SubroutineDefinition} (hd : st.kind = .defineSubroutine d)
    (hk : p.callWeight rank bound d.name ≤ k) :
    CallsAgree (StatementInvariant.expanding p opened inner excuses).toInvariant
      (p.callWeight rank (some (rank d.name)))
      (weigh (p.callWeight rank (some (rank d.name))) d.signatureCallees) (.nested m)
      (.watched p.definedNames.length detours opened n) :=
  hlevel n opened inner _ _ hnodup hopened
    (h.mono fun hranked => Program.depthBound_signature hst hd hranked opened hk)

/-- A body that is opened where it is not open yet. -/
theorem opened_agree {name : String} (body : List Statement) (hname : name ∉ opened)
    (hdefined : st.definedName? = some name)
    (hbody : Program.signatureCost rank none st + (bodyCallees body).length ≤ st.callees.length)
    (hk : 1 ≤ k) :
    CallsAgree (StatementInvariant.expanding p (name :: opened) True excuses).toInvariant
      (p.callWeight rank none) (weigh (p.callWeight rank none) (bodyCallees body)) (.nested m)
      (.watched p.definedNames.length detours (name :: opened) n) := by
  have hmem := mem_definedNames hst hdefined
  refine hlevel n (name :: opened) True _ _ (List.nodup_cons.2 ⟨hname, hnodup⟩)
    (List.cons_subset.2 ⟨hmem, hopened⟩) (h.mono fun _ => ?_)
  exact Program.depthBound_body hst hbody (length_opened_lt hnodup hopened hmem hname) hk

variable (hagain : Excused detours excuses)

include hagain

theorem subroutine_agree {d : SubroutineDefinition} {args : List Expr}
    (hd : st.kind = .defineSubroutine d)
    (hk : p.callWeight rank bound d.name + weigh (p.callWeight rank bound) (exprsCallees args) ≤ k) :
    Ensures (StatementInvariant.expanding p opened inner excuses).toInvariant (fun _ => True)
      ((Calls.nested (m + 1)).subroutine d args)
      ((Calls.watched p.definedNames.length detours opened (n + 1)).subroutine d args)
      (fun r s => ∀ v, r = some v → v.Fits Facts.trivial s.registers) := by
  have hone := Program.one_le_callWeight p rank bound d.name
  have hdefined : st.definedName? = some d.name := by
    unfold Statement.definedName?
    rw [hd]
  -- A body that is open is not entered by either; what the detour does is excused.
  by_cases hname : d.name ∈ opened
  · rw [Calls.watched_subroutine_again hname]
    exact Ensures.excused (.recursiveCall d.name) rfl
      (fun config s hs => callSubroutine_again args config (hs.calls ▸ hname))
      (hagain.subroutine d args)
  · have hlimit := length_opened_lt hnodup hopened (mem_definedNames hst hdefined) hname
    -- The arguments are evaluated in the same body, but they are the smaller part of the text.
    have hargs : CallsAgree (StatementInvariant.expanding p opened inner excuses).toInvariant
        (p.callWeight rank bound) (weigh (p.callWeight rank bound) (exprsCallees args)) (.nested m)
        (.watched p.definedNames.length detours opened n) := by
      refine hlevel n opened inner _ _ hnodup hopened (h.mono fun _ => ?_)
      unfold Program.depthBound
      omega
    have hcall : p.callWeight rank bound d.name ≤ k := by omega
    have hsignature : CallsAgree (StatementInvariant.expanding p opened inner excuses).toInvariant
        (p.callWeight rank (some (rank d.name)))
        (weigh (p.callWeight rank (some (rank d.name))) d.signatureCallees) (.nested m)
        (.watched p.definedNames.length detours opened n) :=
      signature_agree hlevel hnodup hopened h hst hd hcall
    have hbody := opened_agree hlevel hnodup hopened h hst d.body hname hdefined
      (Nat.le_of_eq (Program.signatureCost_subroutine hd)) (Nat.le_trans hone hcall)
    rw [Calls.watched_subroutine_opens hname hlimit]
    exact callSubroutine_ensures hargs hsignature (Nat.le_refl _) (Nat.le_refl _)
      (expands_expanding _ _ _) (fun _ _ hx => hx) (fun _ _ hq => hq)
      (block_expanding hbody d.body (Nat.le_refl _))

theorem gate_agree {d : GateDefinition} {params : List Parameter} {qubits : List Nat}
    (hd : st.kind = .defineGate d) (hk : 1 ≤ k) :
    Ensures (StatementInvariant.expanding p opened inner excuses).toInvariant
      (fun _ => ∀ q ∈ qubits, True) ((Calls.nested (m + 1)).gate d params qubits)
      ((Calls.watched p.definedNames.length detours opened (n + 1)).gate d params qubits)
      (fun ops _ => ∀ i ∈ ops, True) := by
  have hdefined : st.definedName? = some d.name := by
    unfold Statement.definedName?
    rw [hd]
  -- As for subroutines, but parameters and qubits come without calls to evaluate.
  by_cases hname : d.name ∈ opened
  · rw [Calls.watched_gate_again hname]
    exact Ensures.excused (.recursiveGate d.name) rfl
      (fun config s hs => inlineGate_again params qubits config (hs.calls ▸ hname))
      (hagain.gate d params qubits)
  · have hlimit := length_opened_lt hnodup hopened (mem_definedNames hst hdefined) hname
    have hbody := opened_agree hlevel hnodup hopened h hst d.body hname hdefined
      (Nat.le_of_eq (Program.signatureCost_gate hd)) hk
    rw [Calls.watched_gate_opens hname hlimit]
    exact inlineGate_ensures (expands_expanding _ _ _) (fun _ _ _ _ _ _ => trivial)
      (fun _ _ _ _ _ => trivial) (bodyOps_agree hbody d.body (Nat.le_refl _))

end Levels

/-- The expansion of definitions is as the watched one, on all texts for which both suffice. The induction
is on the number of calls that may be nested. -/
theorem nested_watched (hagain : Excused detours excuses) (m : Nat) :
    Unwatched p rank detours excuses m := by
  have hone (bound : Option Nat) (f : String) := Program.one_le_callWeight p rank bound f
  induction m with
  | zero =>
    intro n opened inner bound k _ _ h
    -- Where a text has a call, the other expansion is cut off as well.
    have hcut (hk : 1 ≤ k) : Calls.watched p.definedNames.length detours opened n = .nested 0 := by
      obtain ⟨rfl, hfurther⟩ := h.cut hk
      exact hfurther
    refine ⟨fun f d args _ hk => ?_, fun f d t _ _ hk => ?_, fun f d params qubits _ hk _ => ?_⟩
    · have hcall : p.callWeight rank bound f ≤ k := Nat.le_trans (Nat.le_add_right _ _) hk
      rw [hcut (Nat.le_trans (hone bound f) hcall)]
      exact Ensures.excused (.recursiveCall d.name) rfl (fun _ _ _ => rfl) (Or.inl rfl)
    · rw [hcut (Nat.le_trans (hone bound f) hk)]
      exact Ensures.excused (.recursiveCall d.name) rfl (fun _ _ _ => rfl) (Or.inl rfl)
    · rw [hcut (Nat.le_trans (hone bound f) hk)]
      exact Ensures.excused (.recursiveGate d.name) rfl (fun _ _ _ => rfl) (Or.inl rfl)
  | succ m ih =>
    intro n opened inner bound k hnodup hopened h
    refine ⟨fun f d args hd hk => ?_, fun f d t hd ht hk => ?_, fun f d params qubits hd hk _ => ?_⟩
    · have hcall : p.callWeight rank bound f ≤ k := Nat.le_trans (Nat.le_add_right _ _) hk
      obtain ⟨n, rfl⟩ := h.goesOn (Nat.le_trans (hone bound f) hcall)
      obtain ⟨⟨st, hst, hdefines⟩, rfl⟩ := hd
      exact subroutine_agree ih hnodup hopened h hst hagain hdefines hk
    · obtain ⟨n, rfl⟩ := h.goesOn (Nat.le_trans (hone bound f) hk)
      obtain ⟨⟨st, hst, hdefines⟩, rfl⟩ := hd
      -- The result type is a part of the signature.
      apply resolveType_agree (signature_agree ih hnodup hopened h hst hdefines hk) t
      rw [SubroutineDefinition.signatureCallees, ht, weigh_append]
      exact Nat.le_add_left _ _
    · have hpositive := Nat.le_trans (hone bound f) hk
      obtain ⟨n, rfl⟩ := h.goesOn hpositive
      obtain ⟨⟨st, hst, hdefines⟩, rfl⟩ := hd
      exact gate_agree ih hnodup hopened h hst hagain hdefines hpositive

/-- A statement of the program that is no definition meets its calls where no body is open. -/
theorem statement_watched (rank : String → Nat) (hagain : Excused detours excuses) {m n : Nat}
    {st : Statement} (hst : st ∈ p.statements)
    (h : Suffices p rank detours [] none
      (weigh (p.callWeight rank none) st.callees) m n ∨ st.definedName?.isSome) :
    Agree (StatementInvariant.expanding p [] False excuses).toInvariant (statement (.nested m) st)
      (statement (.watched p.definedNames.length detours [] n) st) := by
  -- A definition is only declared, and what it calls is not looked at yet.
  by_cases hsubroutine : ∃ d, st.kind = .defineSubroutine d
  · obtain ⟨d, hd⟩ := hsubroutine
    obtain ⟨kind, span⟩ := st
    cases hd
    exact (settled_ensures span
      (thenNext_ensures (defineSubroutine_agree d (mayDefine_subroutine hst rfl)))).agree
  · by_cases hgate : ∃ d, st.kind = .defineGate d
    · obtain ⟨d, hd⟩ := hgate
      obtain ⟨kind, span⟩ := st
      cases hd
      exact (settled_ensures span (thenNext_ensures (defineGate_agree d
        (mayDefine_gate hst rfl (Or.inl rfl)) (mayDefine_gate hst rfl (Or.inr ⟨_, rfl⟩))))).agree
    · have hsuffices := h.resolve_right fun hdefined => by
        unfold Statement.definedName? at hdefined
        split at hdefined
        · next d hd => exact hsubroutine ⟨d, hd⟩
        · next d hd => exact hgate ⟨d, hd⟩
        · nomatch hdefined
      have hagrees (inner : Prop) := nested_watched hagain m n [] inner none _ List.nodup_nil
        (List.nil_subset _) hsuffices
      refine (statement_ensures (hagrees False) nests_expanding st (Nat.le_refl _)
        (fun d hd => absurd ⟨d, hd⟩ hsubroutine) (fun d hd => absurd ⟨d, hd⟩ hgate)
        fun body hbody => ?_).agree
      apply block_expanding (hagrees True) body
      have hweigh := StatementKind.weigh_body (p.callWeight rank none) hbody
      have hcallees := congrArg (weigh (p.callWeight rank none)) st.callees_eq
      omega

theorem expanding_initial : (StatementInvariant.expanding p [] False excuses).core .initial := by
  refine ⟨False.elim, rfl, fun x hx => ?_⟩
  rcases hx with hx | ⟨scope, hscope, -⟩
  · obtain ⟨g, -, rfl⟩ := List.mem_map.1 (List.mem_reverse.1 hx)
    exact Symbol.defined_of_noDefinition (fun _ h => Binding.noConfusion h)
      fun _ h => Binding.noConfusion h
  · nomatch hscope

/-- The analysis of a program is as with the watched expansion. -/
theorem program_watched (hagain : Excused detours excuses) {n : Nat}
    (hn : nestingBound p = n ∧ detours.further = .nested 0 ∨
      p.Ranked rank ∧ nestingBound p ≤ n) (errors : List SyntaxError) (config : Config) :
    Alike (StatementInvariant.expanding p [] False excuses).toInvariant
      (program (.nested (nestingBound p)) p errors config .initial)
      (program (.watched p.definedNames.length detours [] n) p errors config .initial) := by
  refine (program_agree errors (fun st hst => statement_watched rank hagain hst ?_) config
    .initial expanding_initial trivial).1
  -- What suffices is asked only of statements that are no definitions.
  rcases hdefined : st.definedName? with _ | name
  · have hnone : st.subroutine? = none := by
      unfold Statement.subroutine?
      split
      · next d hd =>
        unfold Statement.definedName? at hdefined
        rw [hd] at hdefined
        nomatch hdefined
      · rfl
    have hbound := Program.depthBound_topLevel rank hst hnone
    exact Or.inl (hn.imp_right fun ⟨hranked, hle⟩ =>
      ⟨hranked, hbound, Nat.le_trans hbound hle⟩)
  · exact Or.inr rfl

end Watching

/-- The flat program of a source, made with a watched expansion that allows for `n` nested calls. -/
def watchedSource (detours : Detours) (n : Nat) (config : Config) (source : String) : FlatProgram :=
  let (p, errors) := Program.parse source
  let (_, s) := program (.watched p.definedNames.length detours [] n) p errors config .initial
  s.flatProgram p.version config

/-- A watched expansion makes the same program, or the program has a report of a recursion that is
excused. -/
theorem watchedSource_eq (rank : String → Nat) {detours : Detours} {excuses : Problem → Prop}
    (hagain : Excused detours excuses) {n : Nat} (config : Config) (source : String)
    (hn : nestingBound (Program.parse source).1 = n ∧ detours.further = .nested 0 ∨
      (Program.parse source).1.Ranked rank ∧ nestingBound (Program.parse source).1 ≤ n) :
    watchedSource detours n config source = ofSource config source ∨
      ∃ d ∈ (ofSource config source).diagnostics, excuses d.problem := by
  rcases program_watched hagain hn (Program.parse source).2 config with heq | hfailed | hreported
  · exact Or.inl (congrArg (fun r : Except Failure Unit × State =>
      r.2.flatProgram (Program.parse source).1.version config) heq.symm)
  · obtain ⟨d, -, hd⟩ := hfailed
    rw [program_ok] at hd
    nomatch hd
  · obtain ⟨d, hmem, hd⟩ := hreported
    exact Or.inr ⟨d, List.mem_reverse.2 hmem, hd⟩

/-- No body of a definition is entered inside a body of the same definition, and bodies are never nested
deeper than there are definitions: what an expansion would do there makes no difference. A call that would
enter a body again is reported under its name. When no signature of a subroutine leads back to itself, calls
are never nested deeper than the bound that ends the expansion. -/
theorem expansion_founded (config : Config) (source : String) :
    let p := (Program.parse source).1
    (∀ deeper, watchedSource ⟨.nested 0, deeper, .nested 0⟩ (nestingBound p) config source =
      ofSource config source) ∧
    (∀ (name : String) (again deeper : Calls),
      (∀ d args, d.name ≠ name →
        again.subroutine d args = failConstruct (.recursiveCall d.name)) →
      (∀ d params qubits, d.name ≠ name →
        again.gate d params qubits = failConstruct (.recursiveGate d.name)) →
      watchedSource ⟨again, deeper, .nested 0⟩ (nestingBound p) config source =
          ofSource config source ∨
        ∃ d ∈ (ofSource config source).diagnostics, d.kind = .unsupported ∧
          (d.problem = .recursiveCall name ∨ d.problem = .recursiveGate name)) ∧
    ∀ (rank : String → Nat) (deeper further : Calls) (n : Nat), p.Ranked rank →
      nestingBound p ≤ n →
      watchedSource ⟨.nested 0, deeper, further⟩ n config source = ofSource config source := by
  have hreports (deeper further : Calls) :
      Excused ⟨.nested 0, deeper, further⟩ fun _ => False :=
    ⟨fun _ _ => Or.inl rfl, fun _ _ _ => Or.inl rfl⟩
  -- Nothing is excused in the first and the last case, so there is no report to fall back on.
  refine ⟨fun deeper => ?_, fun name again deeper hsubroutine hgate => ?_,
    fun rank deeper further n hranked hn => ?_⟩
  · refine (watchedSource_eq (fun _ => 0) (hreports deeper (.nested 0)) config source
      (Or.inl ⟨rfl, rfl⟩)).resolve_right ?_
    rintro ⟨d, -, hd⟩
    exact hd
  · have hexcused : Excused ⟨again, deeper, .nested 0⟩ fun problem =>
        problem = .recursiveCall name ∨ problem = .recursiveGate name := by
      refine ⟨fun d args => ?_, fun d params qubits => ?_⟩
      · by_cases hname : d.name = name
        · exact Or.inr (Or.inl (congrArg _ hname))
        · exact Or.inl (hsubroutine d args hname)
      · by_cases hname : d.name = name
        · exact Or.inr (Or.inr (congrArg _ hname))
        · exact Or.inl (hgate d params qubits hname)
    refine (watchedSource_eq (fun _ => 0) hexcused config source (Or.inl ⟨rfl, rfl⟩)).imp_right
      ?_
    rintro ⟨d, hmem, hd⟩
    refine ⟨d, hmem, ?_, hd⟩
    unfold Diagnostic.kind
    rcases hd with hd | hd <;> rw [hd] <;> rfl
  · refine (watchedSource_eq rank (hreports deeper further) config source
      (Or.inr ⟨hranked, hn⟩)).resolve_right ?_
    rintro ⟨d, -, hd⟩
    exact hd

/-- The width of an operand may come from another subroutine, while a subroutine that calls itself is
reported. -/
theorem expansion_founded_width :
    let source := "def w() -> int { return 8; }\ndef f(int[w()] v) -> int { return f(v); }\nint r = f(1);\n"
    (watchedSource ⟨.nested 0, .nested 0, .nested 0⟩ (nestingBound (Program.parse source).1) .default
          source = ofSource .default source ∨
        ∃ d ∈ (ofSource .default source).diagnostics, d.kind = .unsupported ∧
          (d.problem = .recursiveCall "f" ∨ d.problem = .recursiveGate "f")) ∧
      watchedSource ⟨.nested 0, .nested 0, .nested 0⟩ 100 .default source =
        ofSource .default source :=
  ⟨(expansion_founded .default _).2.1 "f" _ _ (fun _ _ _ => rfl) fun _ _ _ _ => rfl,
    (expansion_founded .default _).2.2 (fun f => if f = "f" then 1 else 0) _ _ 100
      (by decide +kernel) (by decide +kernel)⟩

/-- The argument of a call may call the same subroutine: it is evaluated before the body is entered, and
nothing is reported. -/
theorem nested_argument_accepted :
    let p := ofSource .default "def f(int v) -> int { return v + 1; }\nint r = f(f(1));\n"
    p.diagnostics.length = 0 ∧ ((p.symbol? "r").bind fun x => x.value.bind Value.int?) = some 3 := by
  rw [ofSource_ofList]
  decide +kernel

end Analysis

end OpenQasm
