import OpenQasm.Proofs.EmittedNames
import OpenQasm.Proofs.Registers

/-!
Requests for registers and names. Whatever is asked for, and in which order, the registers of a kind take up
the physical indices from zero on without a gap, no name is given twice, and a register that does not fit
leaves everything as it was.
-/
namespace OpenQasm

namespace Registers

variable {r : Registers} {kind : RegisterKind}

/-- There is a view of a single physical index exactly if the index is taken, and the view has just that. -/
theorem Tiled.elementView? (h : r.Tiled) (kind : RegisterKind) (p : Nat) :
    (r.elementView? kind p).map r.physical = if p < r.total kind then some [p] else none := by
  split
  · next hp =>
    have hsome : (r.elementView? kind p).isSome = true := by
      rw [Registers.elementView?, Option.isSome_map]
      exact h.holder?_isSome hp
    obtain ⟨v, hv⟩ := Option.isSome_iff_exists.1 hsome
    rw [hv, Option.map_some, (elementView?_eq_some h hv).2]
  · next hp =>
    cases hv : r.elementView? kind p with
    | none => rfl
    | some v =>
      obtain ⟨hview, hphysical⟩ := elementView?_eq_some h hv
      exact absurd (hview.physical_lt p (hphysical ▸ List.mem_singleton_self p)) hp

/-- A register fits as long as its kind stays within the limit. -/
theorem allocate_eq_error_iff {name : String} {size : Nat} {e : Fault} :
    r.allocate name size kind = .error e ↔
      limit < r.total kind + size ∧ e = .tooMany name size kind := by
  unfold allocate
  dsimp only
  split
  · next hfits =>
    refine ⟨fun h => ?_, fun h => absurd hfits (Nat.not_le.2 h.1)⟩
    cases kind <;> nomatch h
  · next hfull =>
    refine ⟨fun h => ?_, fun h => h.2 ▸ rfl⟩
    cases h
    exact ⟨Nat.not_le.1 hfull, rfl⟩

section Named

variable {r' : Registers} {name : String} {size id : Nat} {v : View}

/-- A register is added at the end, with the name that is free. -/
theorem list_eq_of_allocate (h : r.allocate name size kind = .ok (id, v, r')) :
    r'.list = r.list ++ [⟨freeName r.names name, size, r.total kind, kind⟩] := by
  obtain ⟨-, -, ⟨free, hlist⟩, -⟩ := allocate_eq_ok h
  have hnames := (list_allocate h).1
  rw [hlist, List.map_append, List.map_singleton] at hnames
  have hfree : free = freeName r.names name := List.singleton_inj.1 (List.append_cancel_left hnames)
  rw [hlist, hfree]

theorem nameOf_allocate (h : r.allocate name size kind = .ok (id, v, r')) :
    r'.nameOf id = freeName r.names name := by
  rw [nameOf, list_eq_of_allocate h, (allocate_eq_ok h).1, List.getElem?_concat_length]
  rfl

end Named

theorem total_reserve (r : Registers) (name : String) : (r.reserve name).2.total kind = r.total kind := by
  cases kind <;> rfl

theorem total_mark (r : Registers) (q : Nat) (usage : Usage) :
    (r.mark q usage).2.total kind = r.total kind := by
  unfold mark
  split
  · rfl
  · split <;> cases kind <;> rfl

end Registers

namespace Analysis

/-- What may be asked of the registers. -/
inductive Request
  | register (wanted : String) (size : Nat) (kind : RegisterKind)
  | name (wanted : String)
  | usage (q : Nat) (done : Usage)

namespace Request

/-- The step that a request is for; it returns the name that it has given, if any. -/
def step : Request → Analysis (Option String)
  | register wanted size kind => do
    let (given, _) ← allocate wanted size kind
    return some given
  | name wanted => do
    let given ← reserve wanted
    return some given
  | usage q done => do
    noteUsage q done
    return none

/-- The entry for a request that was given a name. -/
def entry (q : Request) : Except Failure (Option String) → List (Request × String)
  | .ok (some given) => [(q, given)]
  | _ => []

/-- The register that an entry is about: its name, its size and its kind. -/
def registered? : Request × String → Option (String × Nat × RegisterKind)
  | (.register _ size kind, given) => some (given, size, kind)
  | _ => none

end Request

/-- The state after requests, with the names that were given and what for. A request that is refused
gives no name, and the next one is served. -/
def serve (config : Config) : List Request → State → State × List (Request × String)
  | [], s => (s, [])
  | q :: qs, s =>
    let (result, s) := q.step config s
    let (s, entries) := serve config qs s
    (s, q.entry result ++ entries)

/-- The registers agree with the names that were given. -/
structure Ledger (entries : List (Request × String)) (r : Registers) : Prop where
  tiled : r.Tiled
  bounded : ∀ kind, r.total kind ≤ Registers.limit
  registers : r.list.map (fun x => (x.name, x.size, x.kind)) = entries.filterMap Request.registered?
  distinct : (entries.map Prod.snd).Nodup
  taken : ∀ m, r.names.contains m = true ↔ m ∈ entries.map Prod.snd

namespace Ledger

variable {config : Config} {s : State} {entries : List (Request × String)} {r r' : Registers}

theorem nil : Ledger [] .empty where
  tiled := Registers.tiled_empty
  bounded kind := by cases kind <;> exact Nat.zero_le _
  registers := rfl
  distinct := List.nodup_nil
  taken m := by simp [Registers.empty]

/-- A name that is free is added. -/
theorem given (h : Ledger entries r) (q : Request) (name : String)
    (hnames : r'.names = r.names.insert (Registers.freeName r.names name)) :
    ((entries ++ [(q, Registers.freeName r.names name)]).map Prod.snd).Nodup ∧
      ∀ m, r'.names.contains m = true ↔
        m ∈ (entries ++ [(q, Registers.freeName r.names name)]).map Prod.snd := by
  have hfree := Registers.freeName_free r.names name
  have hnew : Registers.freeName r.names name ∉ entries.map Prod.snd := fun hm =>
    Bool.false_ne_true (hfree.symm.trans ((h.taken _).2 hm))
  rw [List.map_append, List.map_singleton]
  refine ⟨List.concat_eq_append ▸ h.distinct.concat hnew, fun m => ?_⟩
  rw [hnames, Std.TreeSet.contains_insert, Bool.or_eq_true, h.taken, beq_iff_eq,
    Std.LawfulEqCmp.compare_eq_iff_eq, List.mem_append, List.mem_singleton, or_comm, eq_comm]

theorem register {name : String} {size id : Nat} {kind : RegisterKind} {v : View}
    (h : Ledger entries r) (hr : r.allocate name size kind = .ok (id, v, r')) :
    Ledger (entries ++ [(.register name size kind, r'.nameOf id)]) r' := by
  obtain ⟨-, -, -, htotal⟩ := Registers.allocate_eq_ok hr
  obtain ⟨hdistinct, htaken⟩ := h.given (.register name size kind) name (Registers.list_allocate hr).2
  rw [Registers.nameOf_allocate hr]
  refine ⟨Registers.tiled_allocate h.tiled hr, fun k => ?_, ?_, hdistinct, htaken⟩
  · rw [htotal]
    have hfits : ¬ Registers.limit < r.total kind + size := fun hfull => by
      rw [Registers.allocate_eq_error_iff.2 ⟨hfull, rfl⟩] at hr
      nomatch hr
    split
    · next hk => exact hk ▸ Nat.not_lt.1 hfits
    · exact h.bounded k
  · rw [Registers.list_eq_of_allocate hr, List.map_append, h.registers, List.filterMap_append]
    rfl

theorem name (h : Ledger entries r) (name : String) :
    Ledger (entries ++ [(.name name, (r.reserve name).1)]) (r.reserve name).2 := by
  have hnames : (r.reserve name).2.names = r.names.insert (Registers.freeName r.names name) := rfl
  obtain ⟨hdistinct, htaken⟩ := h.given (.name name) name hnames
  refine ⟨Registers.tiled_reserve h.tiled name, fun kind => ?_, ?_, hdistinct, htaken⟩
  · rw [Registers.total_reserve]
    exact h.bounded kind
  · rw [List.filterMap_append]
    exact h.registers.trans (List.append_nil _).symm

theorem usage (h : Ledger entries r) (q : Nat) (usage : Usage) :
    Ledger entries (r.mark q usage).2 := by
  obtain ⟨hlist, hnames⟩ := Registers.list_mark r q usage
  refine ⟨Registers.tiled_mark h.tiled q usage, fun kind => ?_, ?_, h.distinct, ?_⟩
  · rw [Registers.total_mark]
    exact h.bounded kind
  · rw [hlist, h.registers]
  · rw [hnames]
    exact h.taken

end Ledger

theorem allocate_run (config : Config) (s : State) (name : String) (size : Nat) (kind : RegisterKind) :
    allocate name size kind config s =
      match s.registers.allocate name size kind with
      | .error e => (.error (.statement ⟨.register e, s.span⟩), s)
      | .ok (id, v, registers) => (.ok (registers.nameOf id, v), { s with registers }) := by
  rw [allocate, run_get]
  cases s.registers.allocate name size kind <;> rfl

theorem allocate_run_eq_error {config : Config} {s t : State} {name : String} {size : Nat}
    {kind : RegisterKind} {e : Failure} :
    allocate name size kind config s = (.error e, t) ↔
      Registers.limit < s.registers.total kind + size ∧
        e = .statement ⟨.register (.tooMany name size kind), s.span⟩ ∧ t = s := by
  rw [allocate_run]
  constructor
  · intro h
    split at h
    · next fault hfault =>
      obtain ⟨hfull, rfl⟩ := Registers.allocate_eq_error_iff.1 hfault
      cases h
      exact ⟨hfull, rfl, rfl⟩
    · nomatch h
  · rintro ⟨hfull, rfl, rfl⟩
    rw [Registers.allocate_eq_error_iff.2 ⟨hfull, rfl⟩]

theorem noteUsage_run (config : Config) (s : State) (q : Nat) (usage : Usage) :
    ∃ t, noteUsage q usage config s = (.ok (), t) ∧ t.registers = (s.registers.mark q usage).2 := by
  rw [noteUsage, run_get]
  rcases s.registers.mark q usage with ⟨_ | w, registers⟩
  · exact ⟨_, rfl, rfl⟩
  · exact ⟨_, rfl, rfl⟩

/-- A request keeps the registers in agreement with what was given. -/
theorem Ledger.step {config : Config} {s : State} {entries : List (Request × String)}
    (h : Ledger entries s.registers) (q : Request) :
    Ledger (entries ++ q.entry (q.step config s).1) (q.step config s).2.registers := by
  cases q with
  | register wanted size kind =>
    rw [Request.step, run_bind, allocate_run]
    rcases hr : s.registers.allocate wanted size kind with e | ⟨id, v, registers⟩
    · exact (List.append_nil entries).symm ▸ h
    · exact h.register hr
  | name wanted => exact h.name wanted
  | usage p done =>
    obtain ⟨t, hrun, ht⟩ := noteUsage_run config s p done
    rw [Request.step, run_bind, hrun]
    exact (List.append_nil entries).symm ▸ ht ▸ h.usage p done

theorem Ledger.serve {config : Config} {s : State} {entries : List (Request × String)}
    (h : Ledger entries s.registers) (qs : List Request) :
    Ledger (entries ++ (serve config qs s).2) (serve config qs s).1.registers := by
  induction qs generalizing s entries with
  | nil => exact (List.append_nil entries).symm ▸ h
  | cons q qs ih => exact List.append_assoc .. ▸ ih (h.step q)

/-- Whatever was asked of registers that were empty at first: those of a kind take consecutive blocks, in
the order in which they were granted, which together are the physical indices below the total; the total
stays within the limit. The names that were given are all different, and they are the ones that are taken.
Exactly the indices below the total have a view, of just that index. A register is refused exactly if it
would pass the limit, and then nothing has changed. -/
theorem serve_numbers (config : Config) (requests : List Request) (s : State) :
    let t := (Analysis.serve config requests { s with registers := .empty }).1
    let given := (Analysis.serve config requests { s with registers := .empty }).2
    (∀ kind, Tiles kind 0 (t.registers.ofKind kind) ∧
      (t.registers.ofKind kind).flatMap (fun x => List.range' x.base x.size) =
        List.range (t.registers.total kind) ∧
      t.registers.total kind = totalSize (t.registers.ofKind kind) ∧
      t.registers.total kind ≤ Registers.limit) ∧
    t.registers.list.map (fun x => (x.name, x.size, x.kind)) =
      given.filterMap Request.registered? ∧
    (given.map Prod.snd).Nodup ∧
    (∀ name, t.registers.names.contains name = true ↔ name ∈ given.map Prod.snd) ∧
    (∀ kind p, (t.registers.elementView? kind p).map t.registers.physical =
      if p < t.registers.total kind then some [p] else none) ∧
    ∀ name size kind e u, allocate name size kind config t = (.error e, u) ↔
      Registers.limit < t.registers.total kind + size ∧
        e = .statement ⟨.register (.tooMany name size kind), t.span⟩ ∧ u = t := by
  intro t given
  have h : Ledger given t.registers := Ledger.nil.serve (s := { s with registers := .empty }) requests
  refine ⟨fun kind => ⟨h.tiled.tiles kind, ?_, h.tiled.total kind, h.bounded kind⟩, h.registers,
    h.distinct, h.taken, h.tiled.elementView?, fun _ _ _ _ _ => allocate_run_eq_error⟩
  rw [(h.tiled.tiles kind).blocks, ← h.tiled.total kind, List.range_eq_range']

-- A name that is taken gets a suffix, here past one that was reserved; what is too large is refused.
example :
    (serve .default [.register "q" 2 .quantum, .register "q" Registers.limit .quantum, .name "q_1",
      .register "q" 3 .quantum, .usage 4 .measured, .register "c" 1 .classical] .initial).2.map Prod.snd =
      ["q", "q_1", "q_2", "c"] := by
  decide +kernel

end Analysis

end OpenQasm
