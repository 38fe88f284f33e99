import OpenQasm.Grammar.Cursor

/-!
What a reader of tokens does where the tokens are known. It is said of the tokens that are read and of the
next one after them, which decides where a reader stops.
-/
namespace OpenQasm

namespace Parser

variable {α β : Type} {p : Parser α} {f : α → Parser β} {a : α} {b : β} {ts ts' : List Token}
  {next : Option Token}

/-- Before the tokens, the next one after which is given, the reader succeeds and stops after them. -/
def Reads (p : Parser α) (ts : List Token) (next : Option Token) (a : α) : Prop :=
  ∀ (s : Source) (c : Cursor) (ps rest : List PlacedToken),
    ps.map (·.token) = ts → rest.head?.map (·.token) = next →
      p s (c.moveTo (ps ++ rest)) = (.ok a, c.moveTo rest)

theorem reads_pure (a : α) (next : Option Token) : Reads (pure a) [] next a := by
  rintro s c ps rest hps -
  obtain rfl := List.map_eq_nil_iff.1 hps
  rfl

theorem Reads.bind (h : Reads p ts (ts'.head?.or next) a) (h' : Reads (f a) ts' next b) :
    Reads (p >>= f) (ts ++ ts') next b := by
  intro s c ps rest hps hrest
  obtain ⟨ps₁, ps₂, rfl, hps₁, hps₂⟩ := List.map_eq_append_iff.1 hps
  have hnext : (ps₂ ++ rest).head?.map (·.token) = ts'.head?.or next := by
    rw [← hps₂, ← hrest, List.head?_append, List.head?_map, Option.map_or]
  have hfirst := h s c ps₁ (ps₂ ++ rest) hps₁ hnext
  have hbind : (p >>= f) s (c.moveTo (ps₁ ++ ps₂ ++ rest)) = f a s (c.moveTo (ps₂ ++ rest)) := by
    rw [List.append_assoc]
    show Parser.bind p f s (c.moveTo (ps₁ ++ (ps₂ ++ rest))) = _
    rw [Parser.bind, hfirst]
  rw [hbind]
  exact h' s c ps₂ rest hps₂ hrest

theorem Reads.before {next' : Option Token} (h : Reads p ts next' a) (hnext : ts'.head?.or next = next')
    (h' : Reads (f a) ts' next b) : Reads (p >>= f) (ts ++ ts') next b :=
  Reads.bind (hnext ▸ h) h'

/-- The last reader that reads something. -/
theorem Reads.last (h : Reads p ts next a) (h' : Reads (f a) [] next b) : Reads (p >>= f) ts next b := by
  have hbind : Reads (p >>= f) (ts ++ []) next b := Reads.bind h h'
  rwa [List.append_nil] at hbind

/-- A reader that only looks. -/
theorem Reads.look (h : Reads p [] (ts.head?.or next) a) (h' : Reads (f a) ts next b) :
    Reads (p >>= f) ts next b :=
  have hbind : Reads (p >>= f) ([] ++ ts) next b := Reads.bind h h'
  hbind

theorem Reads.peek {f : Option Token → Parser β} (h : Reads (f (ts.head?.or next)) ts next b) :
    Reads (peek >>= f) ts next b := by
  intro s c ps rest hps hrest
  have hnext : (ps ++ rest).head?.map (·.token) = ts.head?.or next := by
    rw [← hps, ← hrest, List.head?_append, List.head?_map, Option.map_or]
  have hpeek : (Parser.peek >>= f) s (c.moveTo (ps ++ rest)) =
      f ((ps ++ rest).head?.map (·.token)) s (c.moveTo (ps ++ rest)) := rfl
  rw [hpeek, hnext]
  exact h s c ps rest hps hrest

theorem reads_advance (t : Token) (next : Option Token) : Reads advance [t] next () := by
  rintro s c ps rest hps -
  obtain ⟨p, rfl, -⟩ := List.map_eq_singleton_iff.1 hps
  rfl

theorem Reads.skip {t : Token} {f : Unit → Parser β} (h : Reads (f ()) ts next b) :
    Reads (advance >>= f) (t :: ts) next b :=
  (reads_advance t _).bind h

theorem reads_accept (k : Punctuation) (next : Option Token) :
    Reads (accept k) [.punctuation k] next true := by
  refine Reads.peek ?_
  have hk : isPunctuation k (some (.punctuation k)) = true := decide_eq_true rfl
  rw [List.head?_cons, Option.some_or, if_pos hk]
  exact Reads.skip (reads_pure true next)

theorem reads_refuse {k : Punctuation} (hk : isPunctuation k next = false) :
    Reads (accept k) [] next false := by
  refine Reads.peek ?_
  rw [List.head?_nil, Option.none_or, if_neg (Bool.eq_false_iff.1 hk)]
  exact reads_pure false next

theorem Reads.accept {k : Punctuation} {f : Bool → Parser β} (h : Reads (f true) ts next b) :
    Reads (accept k >>= f) (.punctuation k :: ts) next b :=
  (reads_accept k _).bind h

theorem Reads.refuse {k : Punctuation} {f : Bool → Parser β}
    (hk : isPunctuation k (ts.head?.or next) = false) (h : Reads (f false) ts next b) :
    Reads (Parser.accept k >>= f) ts next b :=
  (reads_refuse hk).look h

theorem reads_expect (k : Punctuation) (next : Option Token) : Reads (expect k) [.punctuation k] next () :=
  Reads.accept (reads_pure () next)

theorem Reads.expect {k : Punctuation} {f : Unit → Parser β} (h : Reads (f ()) ts next b) :
    Reads (expect k >>= f) (.punctuation k :: ts) next b :=
  (reads_expect k _).bind h

theorem reads_acceptKeyword (k : Keyword) (next : Option Token) :
    Reads (acceptKeyword k) [.keyword k] next true := by
  refine Reads.peek ?_
  have hk : isKeyword k (some (.keyword k)) = true := decide_eq_true rfl
  rw [List.head?_cons, Option.some_or, if_pos hk]
  exact Reads.skip (reads_pure true next)

theorem reads_refuseKeyword {k : Keyword} (hk : isKeyword k next = false) :
    Reads (acceptKeyword k) [] next false := by
  refine Reads.peek ?_
  rw [List.head?_nil, Option.none_or, if_neg (Bool.eq_false_iff.1 hk)]
  exact reads_pure false next

theorem Reads.acceptKeyword {k : Keyword} {f : Bool → Parser β} (h : Reads (f true) ts next b) :
    Reads (acceptKeyword k >>= f) (.keyword k :: ts) next b :=
  (reads_acceptKeyword k _).bind h

theorem Reads.refuseKeyword {k : Keyword} {f : Bool → Parser β}
    (hk : isKeyword k (ts.head?.or next) = false) (h : Reads (f false) ts next b) :
    Reads (Parser.acceptKeyword k >>= f) ts next b :=
  (reads_refuseKeyword hk).look h

theorem Reads.expectKeyword {k : Keyword} {f : Unit → Parser β} (h : Reads (f ()) ts next b) :
    Reads (expectKeyword k >>= f) (.keyword k :: ts) next b :=
  have hexpect : Reads (Parser.expectKeyword k) [.keyword k] (ts.head?.or next) () :=
    Reads.acceptKeyword (reads_pure () _)
  hexpect.bind h

theorem reads_name (n : String) (next : Option Token) : Reads name [.name n] next n :=
  Reads.peek (Reads.skip (reads_pure n next))

theorem Reads.name {n : String} {f : String → Parser β} (h : Reads (f n) ts next b) :
    Reads (name >>= f) (.name n :: ts) next b :=
  (reads_name n _).bind h

theorem Reads.peekSecond {f : Option Token → Parser β} {t t' : Token} (h : Reads (f (some t')) (t :: t' :: ts) next b) :
    Reads (peekSecond >>= f) (t :: t' :: ts) next b := by
  intro s c ps rest hps hrest
  obtain ⟨p, ps, rfl, rfl, hps'⟩ := List.map_eq_cons_iff.1 hps
  obtain ⟨p', ps, rfl, rfl, hps''⟩ := List.map_eq_cons_iff.1 hps'
  exact h s c _ rest hps hrest

theorem Reads.bounded {p : Nat → Parser α} (h : ∀ n, ts.length < n → Reads (p n) ts next a) :
    Reads (bounded p) ts next a := by
  intro s c ps rest hps hrest
  have hlength : ps.length = ts.length := by rw [← hps, List.length_map]
  refine h _ ?_ s c ps rest hps hrest
  show ts.length < (ps ++ rest).length + 1
  rw [List.length_append]
  omega

end Parser
end OpenQasm
