import OpenQasm.Token.Scan

/-!
Texts that are cut into tokens piece by piece. A token is cut off at the same place whatever follows, as
long as the next character is one that no longer token could go on with.
-/
namespace OpenQasm

/-- Characters that no token goes on with, after which a printed expression or a line goes on with another one. -/
def closesToken (c : Char) : Bool := [' ', '(', ')', '[', ']', '\x7d', ',', ':', '\n'].contains c

/-- Characters that no token goes on with: those, and the one that ends a statement. -/
def endsToken (c : Char) : Bool := closesToken c || c = ';'

namespace Token

/-- What stands at the head of the text is the token, and it covers the whole text. -/
def Spells (t : Token) (text : String) : Prop :=
  ∃ c cs, text.toList = c :: cs ∧ headPiece c cs = (.token t, cs.length + 1)

def isPragma : Token → Bool
  | pragma _ => true
  | _ => false

section Continued

variable {cs rest : List Char}

theorem cases_closesToken {c : Char} (h : closesToken c = true) :
    c = ' ' ∨ c = '(' ∨ c = ')' ∨ c = '[' ∨ c = ']' ∨ c = '\x7d' ∨ c = ',' ∨ c = ':' ∨
      c = '\n' := by
  simpa [closesToken] using h

theorem cases_endsToken {c : Char} (h : endsToken c = true) :
    c = ' ' ∨ c = '(' ∨ c = ')' ∨ c = '[' ∨ c = ']' ∨ c = '\x7d' ∨ c = ',' ∨ c = ':' ∨ c = '\n' ∨
      c = ';' := by
  simpa [endsToken, closesToken, or_assoc] using h

theorem endsToken_of_closes {c : Char} (h : closesToken c = true) : endsToken c = true :=
  Bool.or_eq_true_iff.2 (Or.inl h)

theorem takeWhile_append_stop {p : Char → Bool} (h : ∀ c ∈ rest.head?, p c = false) :
    (cs ++ rest).takeWhile p = cs.takeWhile p := by
  have hnone : rest.takeWhile p = [] := by
    cases rest with
    | nil => rfl
    | cons c rest => rw [List.takeWhile_cons, h c rfl]; rfl
  rw [List.takeWhile_append, hnone, List.append_nil]
  split
  · next hall => exact (List.takeWhile_sublist p).eq_of_length hall |>.symm
  · rfl

theorem takeWhile_continued {p : Char → Bool} (hp : ∀ c, endsToken c = true → p c = false)
    (h : ∀ c ∈ rest.head?, endsToken c = true) : (cs ++ rest).takeWhile p = cs.takeWhile p :=
  takeWhile_append_stop fun c hc => hp c (h c hc)

theorem not_isDigit_of_ends (c : Char) (h : endsToken c = true) : Decimal.isDigit c = false := by
  obtain rfl | rfl | rfl | rfl | rfl | rfl | rfl | rfl | rfl | rfl := cases_endsToken h <;> rfl

theorem not_isNameChar_of_ends (c : Char) (h : endsToken c = true) : isNameChar c = false := by
  obtain rfl | rfl | rfl | rfl | rfl | rfl | rfl | rfl | rfl | rfl := cases_endsToken h <;> rfl

theorem not_isDigit_base_of_ends (base : Nat) (c : Char) (h : endsToken c = true) :
    Digits.isDigit base c = false := by
  obtain rfl | rfl | rfl | rfl | rfl | rfl | rfl | rfl | rfl | rfl := cases_endsToken h <;> rfl

/-- The characters that a symbol of two characters starts with. -/
def startsPair (c : Char) : Bool := ['+', '*', '=', '!', '<', '>', '&', '|', '-', '/'].contains c

/-- The characters that a symbol of two characters ends with. -/
def endsPair (c : Char) : Bool := ['+', '*', '=', '&', '|', '<', '>'].contains c

theorem ofPair?_chars {a b : Char} {s : Punctuation} (h : Punctuation.ofPair? a b = some s) :
    startsPair a = true ∧ endsPair b = true := by
  unfold Punctuation.ofPair? at h
  split at h <;> first | exact ⟨rfl, rfl⟩ | cases h

theorem ofPair?_eq_none_left {a b : Char} (ha : startsPair a = false) : Punctuation.ofPair? a b = none :=
  Option.eq_none_iff_forall_ne_some.2 fun _ h => Bool.eq_false_iff.1 ha (ofPair?_chars h).1

theorem ofPair?_eq_none_right {a b : Char} (hb : endsPair b = false) : Punctuation.ofPair? a b = none :=
  Option.eq_none_iff_forall_ne_some.2 fun _ h => Bool.eq_false_iff.1 hb (ofPair?_chars h).2

theorem not_endsPair_of_ends (c : Char) (h : endsToken c = true) : endsPair c = false := by
  obtain rfl | rfl | rfl | rfl | rfl | rfl | rfl | rfl | rfl | rfl := cases_endsToken h <;> rfl

theorem ofPair?_ends {a b : Char} (h : endsToken b = true) : Punctuation.ofPair? a b = none :=
  ofPair?_eq_none_right (not_endsPair_of_ends b h)

/-- The sign at the head of an exponent, its length and what follows it. -/
def exponentSign : List Char → Bool × Nat × List Char
  | '-' :: r => (true, 1, r)
  | '+' :: r => (false, 1, r)
  | r => (false, 0, r)

theorem exponentPart_cons (e : Char) (cs : List Char) : Decimal.exponentPart (e :: cs) =
    if e = 'e' || e = 'E' then
      let (negative, skipped, tail) := exponentSign cs
      let digits := tail.takeWhile Decimal.isDigit
      if digits = [] then none
      else
        let n : Int := Decimal.natOfDigits digits
        some (if negative then -n else n, 1 + skipped + digits.length)
    else none := rfl

theorem exponentSign_length (cs : List Char) :
    (exponentSign cs).2.1 + (exponentSign cs).2.2.length = cs.length := by
  unfold exponentSign
  split <;> simp only [List.length_cons] <;> omega

theorem exponentSign_continued (h : ∀ c ∈ rest.head?, endsToken c = true) :
    exponentSign (cs ++ rest) =
      ((exponentSign cs).1, (exponentSign cs).2.1, (exponentSign cs).2.2 ++ rest) := by
  cases cs with
  | cons c cs =>
    rw [List.cons_append]
    unfold exponentSign
    split <;> simp_all
  | nil =>
    cases rest with
    | nil => rfl
    | cons d rest =>
      obtain rfl | rfl | rfl | rfl | rfl | rfl | rfl | rfl | rfl | rfl := cases_endsToken (h d rfl) <;> rfl

theorem unit?_continued (h : ∀ c ∈ rest.head?, endsToken c = true) :
    unit? (cs ++ rest) = unit? cs := by
  cases rest with
  | nil => rw [List.append_nil]
  | cons d rest =>
    have hd := h d rfl
    match cs with
    | [] => obtain rfl | rfl | rfl | rfl | rfl | rfl | rfl | rfl | rfl | rfl := cases_endsToken hd <;> rfl
    | [a] =>
      have hs : d ≠ 's' := by
        rintro rfl
        nomatch hd
      have ht : d ≠ 't' := by
        rintro rfl
        nomatch hd
      simp only [List.cons_append, List.nil_append]
      unfold unit?
      split <;> simp_all
    | a :: b :: cs =>
      simp only [List.cons_append]
      unfold unit?
      split <;> simp_all

theorem exponentPart_le {cs : List Char} {x : Int} {n : Nat}
    (h : Decimal.exponentPart cs = some (x, n)) : n ≤ cs.length := by
  cases cs with
  | nil => nomatch h
  | cons e cs =>
    rw [exponentPart_cons] at h
    dsimp only at h
    split at h
    · split at h
      · nomatch h
      · cases h
        have hsign := exponentSign_length cs
        have hdigits : ((exponentSign cs).2.2.takeWhile Decimal.isDigit).length ≤
            (exponentSign cs).2.2.length := (List.takeWhile_sublist _).length_le
        calc 1 + (exponentSign cs).2.1 + ((exponentSign cs).2.2.takeWhile Decimal.isDigit).length
            ≤ 1 + (exponentSign cs).2.1 + (exponentSign cs).2.2.length := Nat.add_le_add_left hdigits _
          _ = (e :: cs).length := by rw [List.length_cons, ← hsign]; omega
    · nomatch h

theorem exponentPart_continued (h : ∀ c ∈ rest.head?, endsToken c = true) :
    Decimal.exponentPart (cs ++ rest) = Decimal.exponentPart cs := by
  cases cs with
  | cons c cs =>
    rw [List.cons_append, exponentPart_cons, exponentPart_cons, exponentSign_continued h]
    simp only [takeWhile_continued not_isDigit_of_ends h]
  | nil =>
    cases rest with
    | nil => rfl
    | cons d rest =>
      obtain rfl | rfl | rfl | rfl | rfl | rfl | rfl | rfl | rfl | rfl := cases_endsToken (h d rfl) <;> rfl

/-- What stands between the digits before the point and the suffix: whether there is a point, the digits
after it, and the rest. -/
def afterPoint : List Char → Bool × List Char × List Char
  | '.' :: r => (true, r.takeWhile Decimal.isDigit, r.dropWhile Decimal.isDigit)
  | r => (false, [], r)

theorem dropWhile_continued {p : Char → Bool} (hp : ∀ c, endsToken c = true → p c = false)
    (h : ∀ c ∈ rest.head?, endsToken c = true) :
    (cs ++ rest).dropWhile p = cs.dropWhile p ++ rest := by
  have hsplit : (cs ++ rest).takeWhile p ++ (cs ++ rest).dropWhile p =
      cs.takeWhile p ++ (cs.dropWhile p ++ rest) := by
    rw [List.takeWhile_append_dropWhile, ← List.append_assoc, List.takeWhile_append_dropWhile]
  rw [takeWhile_continued hp h] at hsplit
  exact List.append_cancel_left hsplit

theorem afterPoint_continued (h : ∀ c ∈ rest.head?, endsToken c = true) :
    afterPoint (cs ++ rest) = ((afterPoint cs).1, (afterPoint cs).2.1, (afterPoint cs).2.2 ++ rest) := by
  cases cs with
  | cons c cs =>
    rw [List.cons_append]
    unfold afterPoint
    split
    · next r hr =>
      cases hr
      rw [takeWhile_continued not_isDigit_of_ends h, dropWhile_continued not_isDigit_of_ends h]
      rfl
    · next hpoint =>
      split
      · next r hr =>
        cases hr
        exact absurd rfl (hpoint _)
      · rfl
  | nil =>
    cases rest with
    | nil => rfl
    | cons d rest =>
      obtain rfl | rfl | rfl | rfl | rfl | rfl | rfl | rfl | rfl | rfl := cases_endsToken (h d rfl) <;> rfl

theorem decimal_eq (cs : List Char) : decimal cs =
    let whole := cs.takeWhile Decimal.isDigit
    let (pointed, fraction, tail) := afterPoint (cs.drop whole.length)
    let size := whole.length + fraction.length + if pointed then 1 else 0
    match unit? tail with
    | some (u, n) => (.token (.duration (Decimal.ofParts whole fraction 0) u), size + n)
    | none =>
      let (exponent, n) := (Decimal.exponentPart tail).getD (0, 0)
      let value := Decimal.ofParts whole fraction exponent
      match tail.drop n with
      | 'i' :: 'm' :: _ => (.token (.imaginary value), size + n + 2)
      | _ =>
        if pointed || n > 0 then (.token (.float value), size + n)
        else (ofNat (Decimal.natOfDigits whole), size) := rfl


/-- Whether the text goes on with the suffix of imaginary numbers. -/
def startsIm : List Char → Bool
  | 'i' :: 'm' :: _ => true
  | _ => false

theorem startsIm_continued (h : ∀ c ∈ rest.head?, endsToken c = true) :
    startsIm (cs ++ rest) = startsIm cs := by
  cases rest with
  | nil => rw [List.append_nil]
  | cons d rest =>
    have hd := h d rfl
    match cs with
    | [] => obtain rfl | rfl | rfl | rfl | rfl | rfl | rfl | rfl | rfl | rfl := cases_endsToken hd <;> rfl
    | [a] =>
      have hm : d ≠ 'm' := by
        rintro rfl
        nomatch hd
      simp only [List.cons_append, List.nil_append]
      unfold startsIm
      split <;> simp_all
    | a :: b :: cs =>
      simp only [List.cons_append]
      unfold startsIm
      split <;> simp_all

theorem match_im {α : Type} (cs : List Char) (x y : α) :
    (match cs with
      | 'i' :: 'm' :: _ => x
      | _ => y) = if startsIm cs then x else y := by
  unfold startsIm
  split <;> rfl

theorem decimal_continued (h : ∀ c ∈ rest.head?, endsToken c = true) :
    decimal (cs ++ rest) = decimal cs := by
  have htaken : (cs.takeWhile Decimal.isDigit).length ≤ cs.length :=
    (List.takeWhile_sublist _).length_le
  rw [decimal_eq, decimal_eq, takeWhile_continued not_isDigit_of_ends h]
  dsimp only
  rw [List.drop_append_of_le_length htaken, afterPoint_continued h]
  dsimp only
  rw [unit?_continued h, exponentPart_continued h]
  obtain ⟨pointed, fraction, tail⟩ := afterPoint (cs.drop (cs.takeWhile Decimal.isDigit).length)
  dsimp only
  cases unit? tail with
  | some u => rfl
  | none =>
    have hle : ((Decimal.exponentPart tail).getD (0, 0)).2 ≤ tail.length := by
      cases he : Decimal.exponentPart tail with
      | none => exact Nat.zero_le _
      | some r => exact exponentPart_le he
    dsimp only
    rw [List.drop_append_of_le_length hle, match_im, match_im, startsIm_continued h]

theorem number_zero (x : Char) (cs : List Char) : number ('0' :: x :: cs) =
    let hex := cs.takeWhile (Digits.isDigit 16)
    let binary := cs.takeWhile (Digits.isDigit 2)
    if (x = 'x' || x = 'X') && hex ≠ [] then (ofDigits 16 hex, hex.length + 2)
    else if (x = 'b' || x = 'B') && binary ≠ [] then (ofDigits 2 binary, binary.length + 2)
    else decimal ('0' :: x :: cs) := rfl

theorem number_other {c : Char} (hc : c ≠ '0') (cs : List Char) :
    number (c :: cs) = decimal (c :: cs) := by
  unfold number
  split
  · next hx =>
    cases hx
    exact absurd rfl hc
  · rfl

theorem number_continued (c : Char) (h : ∀ c ∈ rest.head?, endsToken c = true) :
    number (c :: cs ++ rest) = number (c :: cs) := by
  by_cases hc : c = '0'
  · subst hc
    have hdecimal : decimal ('0' :: cs ++ rest) = decimal ('0' :: cs) := decimal_continued h
    match cs with
    | x :: cs =>
      rw [List.cons_append, List.cons_append, number_zero, number_zero,
        takeWhile_continued (not_isDigit_base_of_ends 16) h,
        takeWhile_continued (not_isDigit_base_of_ends 2) h]
      rw [List.cons_append, List.cons_append] at hdecimal
      rw [hdecimal]
    | [] =>
      cases rest with
      | nil => rfl
      | cons d rest =>
        have hprefix : number ('0' :: d :: rest) = decimal ('0' :: d :: rest) := by
          rw [number_zero]
          obtain rfl | rfl | rfl | rfl | rfl | rfl | rfl | rfl | rfl | rfl := cases_endsToken (h d rfl) <;> rfl
        exact hprefix.trans hdecimal
  · rw [List.cons_append, number_other hc, number_other hc]
    have hdecimal : decimal (c :: cs ++ rest) = decimal (c :: cs) := decimal_continued h
    exact hdecimal

theorem scan?_continued {c : Char} (h : ∀ c ∈ rest.head?, endsToken c = true) :
    Punctuation.scan? (c :: cs ++ rest) = Punctuation.scan? (c :: cs) := by
  match cs, rest with
  | _ :: _, _ => rfl
  | [], [] => rfl
  | [], d :: _ =>
    change (Punctuation.ofPair? c d).or (Punctuation.ofChar? c) = Punctuation.ofChar? c
    rw [ofPair?_ends (h d rfl), Option.none_or]

theorem head?_continued {p : Char → Bool} (hp : ∀ c, endsToken c = true → p c = false)
    (h : ∀ c ∈ rest.head?, endsToken c = true) :
    ((cs ++ rest).head?.map p).getD false = (cs.head?.map p).getD false := by
  match cs, rest with
  | _ :: _, _ => rfl
  | [], [] => rfl
  | [], d :: _ => exact hp d (h d rfl)

theorem numberOrPunctuation_continued (c : Char) (h : ∀ c ∈ rest.head?, endsToken c = true) :
    numberOrPunctuation c (cs ++ rest) = numberOrPunctuation c cs := by
  have hnumber : number (c :: cs ++ rest) = number (c :: cs) := number_continued c h
  have hscan : Punctuation.scan? (c :: cs ++ rest) = Punctuation.scan? (c :: cs) := scan?_continued h
  rw [List.cons_append] at hnumber hscan
  unfold numberOrPunctuation
  rw [head?_continued not_isDigit_of_ends h, hnumber, hscan]

theorem numberOrPunctuation_hash (cs : List Char) : numberOrPunctuation '#' cs = (.invalid, 1) := by
  match cs with
  | [] => rfl
  | d :: cs =>
    have hpair : Punctuation.ofPair? '#' d = none := ofPair?_eq_none_left rfl
    have hscan : Punctuation.scan? ('#' :: d :: cs) = none := by
      rw [Punctuation.scan?, hpair]
      rfl
    rw [numberOrPunctuation, hscan]
    rfl

theorem head?_eq_continued {d : Char} (hd : endsToken d = false)
    (h : ∀ c ∈ rest.head?, endsToken c = true) :
    ((cs ++ rest).head? = some d) = (cs.head? = some d) := by
  match cs, rest with
  | _ :: _, _ => rfl
  | [], [] => rfl
  | [], c :: _ =>
    have hne : c ≠ d := by
      rintro rfl
      nomatch hd.symm.trans (h c rfl)
    exact propext ⟨fun hc => absurd (Option.some.inj hc) hne, fun hc => nomatch hc⟩

theorem commentLength?_append {n : Nat} (h : commentLength? cs = some n) :
    commentLength? (cs ++ rest) = some n := by
  induction cs generalizing n with
  | nil => nomatch h
  | cons c cs ih =>
    unfold commentLength? at h
    split at h
    · next heq =>
      cases heq
      exact h
    · next hopen heq =>
      cases heq
      obtain ⟨m, hm, rfl⟩ := Option.map_eq_some_iff.1 h
      cases cs with
      | nil => nomatch hm
      | cons d cs =>
        have hstep : commentLength? (c :: d :: (cs ++ rest)) = (commentLength? (d :: (cs ++ rest))).map (· + 1) :=
          commentLength?.eq_2 _ _ fun _ hc hd => hopen cs hc (by rw [(List.cons.inj hd).1])
        exact hstep.trans (congrArg (Option.map (· + 1)) (ih hm))
    · next heq => nomatch heq

/-- A piece that does not end before the line does: blanks, comments and pragmas. -/
def Piece.runsOn : Piece → Bool
  | separator => true
  | token t => t.isPragma
  | invalid => false

theorem headPiece_quote (cs : List Char) : headPiece '"' cs =
    if (cs.takeWhile (· ≠ '"')).length < cs.length then
      (.token (.string (String.ofList (cs.takeWhile (· ≠ '"')))), (cs.takeWhile (· ≠ '"')).length + 2)
    else (.invalid, 1 + cs.length) := rfl

theorem headPiece_hash (cs : List Char) : headPiece '#' cs =
    if pragmaWord.isPrefixOf cs then
      (.token (.pragma (String.ofList (trimBlanks ((cs.drop pragmaWord.length).takeWhile (· ≠ '\n'))))),
        1 + pragmaWord.length + ((cs.drop pragmaWord.length).takeWhile (· ≠ '\n')).length)
    else (.invalid, 1) := by
  rw [← numberOrPunctuation_hash cs]
  rfl

theorem headPiece_slash (cs : List Char) : headPiece '/' cs =
    if cs.head? = some '/' then (.separator, 1 + (cs.takeWhile (· ≠ '\n')).length)
    else if cs.head? = some '*' then
      match commentLength? cs.tail with
      | some n => (.separator, 2 + n)
      | none => (.invalid, 1 + cs.length)
    else numberOrPunctuation '/' cs := by
  unfold headPiece
  rw [if_neg (by decide), if_neg (by decide), if_neg (by decide), if_neg (fun h => nomatch h)]
  exact ite_congr (by simp) (fun _ => rfl) fun _ => ite_congr (by simp) (fun _ => rfl) fun _ => rfl

/-- A character that starts neither blanks, a word, a string, a pragma nor a comment. -/
theorem headPiece_other {c : Char} (hspace : isSpace c = false) (hname : isNameStart c = false) (hquote : c ≠ '"')
    (hhash : c ≠ '#') (hslash : c ≠ '/') (cs : List Char) : headPiece c cs = numberOrPunctuation c cs := by
  simp only [headPiece, hspace, hname, hquote, hhash, hslash, decide_false, Bool.false_and, Bool.false_eq_true,
    if_false]

theorem isSpace_of_isNameStart {c : Char} (hc : isNameStart c = true) : isSpace c = false := by
  refine Bool.eq_false_iff.2 fun hspace => ?_
  simp only [isSpace, Bool.or_eq_true, decide_eq_true_eq] at hspace
  obtain (((rfl | rfl) | rfl) | rfl) | rfl := hspace <;> nomatch hc

theorem headPiece_word {c : Char} (hc : isNameStart c = true) (cs : List Char) : headPiece c cs =
    (.token (ofWord (c :: cs.takeWhile isNameChar)), (c :: cs.takeWhile isNameChar).length) := by
  rw [headPiece, if_neg (Bool.eq_false_iff.1 (isSpace_of_isNameStart hc)), if_pos hc]

/-- A valid piece is cut off in the same way if the text goes on. -/
theorem headPiece_append {c : Char} (hblank : isSpace c = false) (hvalid : (headPiece c cs).1 ≠ .invalid)
    (h : ∀ c ∈ rest.head?, endsToken c = true)
    (hline : (headPiece c cs).1.runsOn = true → ∀ c ∈ rest.head?, c = '\n') :
    headPiece c (cs ++ rest) = headPiece c cs := by
  have hbreak (hruns : (headPiece c cs).1.runsOn = true) {ds : List Char} :
      (ds ++ rest).takeWhile (· ≠ '\n') = ds.takeWhile (· ≠ '\n') :=
    takeWhile_append_stop fun d hd => decide_eq_false (Decidable.not_not.2 (hline hruns d hd))
  cases hname : isNameStart c with
  | true =>
    have hspace : ¬isSpace c = true := Bool.eq_false_iff.1 hblank
    simp only [headPiece, if_neg hspace, if_pos hname, takeWhile_continued not_isNameChar_of_ends h]
  | false =>
  by_cases hquote : c = '"'
  · subst hquote
    rw [headPiece_quote] at hvalid
    split at hvalid
    · next hclosed =>
      -- The closing quotation mark is part of the token.
      have hbody : (cs ++ rest).takeWhile (· ≠ '"') = cs.takeWhile (· ≠ '"') := by
        rw [List.takeWhile_append, if_neg (Nat.ne_of_lt hclosed)]
      have hlength : (cs.takeWhile (· ≠ '"')).length < (cs ++ rest).length := by
        rw [List.length_append]
        omega
      rw [headPiece_quote, headPiece_quote, hbody, if_pos hlength, if_pos hclosed]
    · exact absurd rfl hvalid
  by_cases hhash : c = '#'
  · subst hhash
    rw [headPiece_hash] at hvalid hbreak
    split at hvalid
    · next hword =>
      have hstarts := List.isPrefixOf_iff_prefix.1 hword
      have hword' : pragmaWord.isPrefixOf (cs ++ rest) = true :=
        List.isPrefixOf_iff_prefix.2 (hstarts.trans (List.prefix_append cs rest))
      rw [if_pos hword] at hbreak
      rw [headPiece_hash, headPiece_hash, if_pos hword, if_pos hword',
        List.drop_append_of_le_length hstarts.length_le, hbreak rfl]
    · exact absurd rfl hvalid
  by_cases hslash : c = '/'
  · subst hslash
    rw [headPiece_slash] at hvalid hbreak
    rw [headPiece_slash, headPiece_slash]
    simp only [head?_eq_continued (d := '/') rfl h, head?_eq_continued (d := '*') rfl h,
      numberOrPunctuation_continued '/' h]
    split
    · next hcomment =>
      rw [if_pos hcomment] at hbreak
      rw [hbreak rfl]
    next hcomment =>
    split
    · next hstar =>
      rw [if_neg hcomment, if_pos hstar] at hvalid
      obtain ⟨ds, rfl⟩ := List.head?_eq_some_iff.1 hstar
      cases hclosed : commentLength? ds with
      | none =>
        rw [List.tail_cons, hclosed] at hvalid
        exact absurd rfl hvalid
      | some n => rw [List.cons_append, List.tail_cons, List.tail_cons, commentLength?_append hclosed, hclosed]
    · rfl
  · rw [headPiece_other hblank hname hquote hhash hslash, headPiece_other hblank hname hquote hhash hslash,
      numberOrPunctuation_continued c h]

/-- A token that covers a whole text is cut off in the same way if the text goes on. -/
theorem headPiece_continued {c : Char} {t : Token} (hpragma : t.isPragma = false)
    (h : ∀ c ∈ rest.head?, endsToken c = true)
    (ht : headPiece c cs = (.token t, cs.length + 1)) :
    headPiece c (cs ++ rest) = (.token t, cs.length + 1) := by
  have hblank : isSpace c = false := by
    refine Bool.eq_false_iff.2 fun hspace => ?_
    rw [headPiece, if_pos hspace] at ht
    nomatch ht
  rw [headPiece_append hblank (by rw [ht]; nofun) h fun hruns => ?_, ht]
  rw [ht] at hruns
  nomatch hpragma.symm.trans hruns

end Continued

/-- Wherever the text stands before a character that may follow, it is cut into the tokens. -/
def Scans (follow : Char → Bool) (text : String) (ts : List Token) : Prop :=
  ∀ offset rest, (∀ c ∈ rest.head?, follow c = true) → ∃ ls offset',
    scanFrom offset (text.toList ++ rest) = ls ++ scanFrom offset' rest ∧ ls.map (·.token) = ts.map some

/-- Whatever follows. -/
def anything : Char → Bool := fun _ => true

theorem scans_of_headPiece {follow : Char → Bool} {text : String} {t : Token} {c : Char} {cs : List Char}
    (htext : text.toList = c :: cs)
    (h : ∀ rest, (∀ c ∈ rest.head?, follow c = true) →
      headPiece c (cs ++ rest) = (.token t, cs.length + 1)) : Scans follow text [t] := by
  intro offset rest hrest
  rw [htext, List.cons_append, scanFrom, h rest hrest]
  simp only [Nat.add_sub_cancel]
  rw [List.take_left, List.drop_left]
  exact ⟨[_], _, rfl, rfl⟩

theorem Scans.mono {follow follow' : Char → Bool} {text : String} {ts : List Token} (h : Scans follow text ts)
    (hsub : ∀ c, follow' c = true → follow c = true) : Scans follow' text ts :=
  fun offset rest hrest => h offset rest fun c hc => hsub c (hrest c hc)

/-- A text that may stand at the end of a statement. -/
theorem Scans.closed {text : String} {ts : List Token} (h : Scans endsToken text ts) :
    Scans closesToken text ts :=
  h.mono fun _ => endsToken_of_closes

/-- A letter with letters and digits behind it. -/
def IsWord (text : String) : Prop :=
  ∃ c cs, text = String.ofList (c :: cs) ∧ isNameStart c = true ∧ cs.takeWhile isNameChar = cs

/-- A word is one token. -/
theorem IsWord.spells {text : String} (h : IsWord text) :
    (match Keyword.ofText? text with
      | some k => .keyword k
      | none => .name text : Token).Spells text := by
  obtain ⟨c, cs, rfl, hc, hcs⟩ := h
  refine ⟨c, cs, String.toList_ofList, ?_⟩
  rw [headPiece_word hc, hcs]
  rfl

theorem IsWord.spells_name {text : String} (h : IsWord text) (hfree : Keyword.ofText? text = none) :
    (Token.name text).Spells text := by
  have hspells := h.spells
  rwa [hfree] at hspells

theorem isWord_keyword (k : Keyword) : IsWord k.text := by
  cases k <;> exact ⟨_, _, rfl, rfl, rfl⟩

theorem ofText?_text (k : Keyword) : Keyword.ofText? k.text = some k := by
  cases k <;> decide +kernel

theorem spells_keyword (k : Keyword) : (Token.keyword k).Spells k.text := by
  have hspells := (isWord_keyword k).spells
  rwa [ofText?_text] at hspells

theorem Spells.scansEnd {t : Token} {text : String} (h : t.Spells text) (hpragma : t.isPragma = false) :
    Scans endsToken text [t] := by
  obtain ⟨c, cs, htext, hpiece⟩ := h
  exact scans_of_headPiece htext fun rest hrest => headPiece_continued hpragma hrest hpiece

theorem Spells.scans {t : Token} {text : String} (h : t.Spells text) (hpragma : t.isPragma = false) :
    Scans closesToken text [t] :=
  (h.scansEnd hpragma).closed

theorem scans_empty (follow : Char → Bool) : Scans follow "" [] := fun offset _ _ =>
  ⟨[], offset, rfl, rfl⟩

theorem Scans.append {follow follow' : Char → Bool} {text text' : String} {ts ts' : List Token}
    (h : Scans follow text ts) (h' : Scans follow' text' ts')
    (hnext : ∀ rest, (∀ c ∈ rest.head?, follow' c = true) →
      ∀ c ∈ (text'.toList ++ rest).head?, follow c = true) :
    Scans follow' (text ++ text') (ts ++ ts') := by
  intro offset rest hrest
  obtain ⟨ls, offset₁, hls, hts⟩ := h offset (text'.toList ++ rest) (hnext rest hrest)
  obtain ⟨ls', offset₂, hls', hts'⟩ := h' offset₁ rest hrest
  refine ⟨ls ++ ls', offset₂, ?_, ?_⟩
  · rw [String.toList_append, List.append_assoc, hls, hls', List.append_assoc]
  · rw [List.map_append, List.map_append, hts, hts']

/-- A text after one that may be followed by anything. -/
theorem Scans.then {follow : Char → Bool} {text text' : String} {ts ts' : List Token}
    (h : Scans anything text ts) (h' : Scans follow text' ts') :
    Scans follow (text ++ text') (ts ++ ts') :=
  h.append h' fun _ _ _ _ => rfl

/-- Symbols that no longer token starts with. -/
def standsAlone (s : Punctuation) : Bool :=
  [.lParen, .rParen, .lBracket, .rBracket, .lBrace, .rBrace, .comma, .colon].contains s

theorem cases_standsAlone {s : Punctuation} (h : standsAlone s = true) :
    s = .lParen ∨ s = .rParen ∨ s = .lBracket ∨ s = .rBracket ∨ s = .lBrace ∨ s = .rBrace ∨
      s = .comma ∨ s = .colon := by
  simpa [standsAlone] using h

/-- Characters that start nothing but a symbol. -/
def startsSymbol (c : Char) : Bool :=
  !(isSpace c || isNameChar c || ['"', '#', '/', '.'].contains c)

theorem headPiece_of_startsSymbol {c : Char} (hstart : startsSymbol c = true) (cs : List Char) :
    headPiece c cs = match Punctuation.scan? (c :: cs) with
      | some s => (.token (.punctuation s), s.text.length)
      | none =>
        match Keyword.ofLetter? c with
        | some k => (.token (.keyword k), 1)
        | none => (.invalid, 1) := by
  simp only [startsSymbol, isNameChar, Bool.not_or, Bool.and_eq_true, Bool.not_eq_true',
    List.contains_cons, List.contains_nil, Bool.or_false, beq_eq_false_iff_ne] at hstart
  obtain ⟨⟨hspace, hname, hdigit⟩, hquote, hhash, hslash, hpoint⟩ := hstart
  rw [headPiece_other hspace hname hquote hhash hslash]
  exact if_neg (by simp [hdigit, hpoint])

theorem headPiece_symbol {c : Char} {cs : List Char} {s : Punctuation} (hstart : startsSymbol c = true)
    (hpair : ∀ d ∈ cs.head?, Punctuation.ofPair? c d = none) (hchar : Punctuation.ofChar? c = some s)
    (hlength : s.text.length = 1) : headPiece c cs = (.token (.punctuation s), 1) := by
  have hscan : Punctuation.scan? (c :: cs) = some s := by
    cases cs with
    | nil => exact hchar
    | cons d cs => rw [Punctuation.scan?, hpair d rfl, Option.none_or, hchar]
  rw [headPiece_of_startsSymbol hstart, hscan]
  dsimp only
  rw [hlength]

theorem ofPair?_alone {a b : Char} (ha : closesToken a = true ∨ a = '\x7b') :
    Punctuation.ofPair? a b = none := by
  refine ofPair?_eq_none_left ?_
  rcases ha with ha | rfl
  · obtain rfl | rfl | rfl | rfl | rfl | rfl | rfl | rfl | rfl := cases_closesToken ha <;> rfl
  · rfl

theorem scans_alone {s : Punctuation} (h : standsAlone s = true) :
    Scans anything s.text [.punctuation s] := by
  have halone (c : Char) (hc : closesToken c = true ∨ c = '\x7b') (htext : s.text.toList = [c])
      (hchar : Punctuation.ofChar? c = some s) (hstart : startsSymbol c = true) :
      Scans anything s.text [.punctuation s] := by
    refine scans_of_headPiece htext fun rest _ => ?_
    refine headPiece_symbol hstart (fun d _ => ofPair?_alone hc) hchar ?_
    rw [← String.length_toList, htext]
    rfl
  obtain rfl | rfl | rfl | rfl | rfl | rfl | rfl | rfl := cases_standsAlone h
  · exact halone '(' (Or.inl rfl) rfl rfl rfl
  · exact halone ')' (Or.inl rfl) rfl rfl rfl
  · exact halone '[' (Or.inl rfl) rfl rfl rfl
  · exact halone ']' (Or.inl rfl) rfl rfl rfl
  · exact halone '\x7b' (Or.inr rfl) rfl rfl rfl
  · exact halone '\x7d' (Or.inl rfl) rfl rfl rfl
  · exact halone ',' (Or.inl rfl) rfl rfl rfl
  · exact halone ':' (Or.inl rfl) rfl rfl rfl

/-- The symbols that end a statement and a modifier. -/
theorem scans_mark {s : Punctuation} (h : s = .semicolon ∨ s = .atSign) :
    Scans anything s.text [.punctuation s] := by
  obtain rfl | rfl := h
  · exact scans_of_headPiece rfl fun rest _ =>
      headPiece_symbol (c := ';') rfl (fun d _ => ofPair?_eq_none_left rfl) rfl rfl
  · exact scans_of_headPiece rfl fun rest _ =>
      headPiece_symbol (c := '@') rfl (fun d _ => ofPair?_eq_none_left rfl) rfl rfl

/-- What a prefix operator must not stand before, lest a longer symbol be read. -/
def notCompound (c : Char) : Bool := c ≠ '=' && c ≠ '>'

/-- The symbol of a prefix operator. -/
def ofUnary : UnaryOp → Punctuation
  | .neg => .minus
  | .not => .bang
  | .bitNot => .tilde

theorem headPiece_compound {c : Char} {cs : List Char} {t : Token} {n : Nat}
    (hc : notCompound c = false) (h : headPiece c cs = (.token t, n)) : ∃ s, t = .punctuation s := by
  have hc' : c = '=' ∨ c = '>' := by
    simpa [notCompound, Classical.or_iff_not_imp_left] using hc
  have hstart : startsSymbol c = true ∧ Keyword.ofLetter? c = none := by
    obtain rfl | rfl := hc' <;> exact ⟨rfl, rfl⟩
  rw [headPiece_of_startsSymbol hstart.1, hstart.2] at h
  cases hs : Punctuation.scan? (c :: cs) with
  | none =>
    rw [hs] at h
    nomatch h
  | some s =>
    rw [hs] at h
    exact ⟨s, Piece.token.inj (Prod.mk.inj h).1 |>.symm⟩

theorem scans_unary (op : UnaryOp) : Scans notCompound op.symbol [.punctuation (ofUnary op)] := by
  have hpair (c d : Char) (hc : c = '-' ∨ c = '!' ∨ c = '~') (hd : notCompound d = true) :
      Punctuation.ofPair? c d = none := by
    simp only [notCompound, ne_eq, decide_not, Bool.and_eq_true, Bool.not_eq_true',
      decide_eq_false_iff_not] at hd
    unfold Punctuation.ofPair?
    obtain rfl | rfl | rfl := hc <;> split <;> simp_all
  have hsymbol (c : Char) (s : Punctuation) (hc : c = '-' ∨ c = '!' ∨ c = '~')
      (hstart : startsSymbol c = true) (hchar : Punctuation.ofChar? c = some s)
      (hlength : s.text.length = 1) {text : String} (htext : text.toList = [c]) :
      Scans notCompound text [.punctuation s] :=
    scans_of_headPiece htext fun rest hrest =>
      headPiece_symbol hstart (fun d hd => hpair c d hc (hrest d hd)) hchar hlength
  cases op with
  | neg => exact hsymbol '-' .minus (Or.inl rfl) rfl rfl rfl rfl
  | not => exact hsymbol '!' .bang (Or.inr (Or.inl rfl)) rfl rfl rfl rfl
  | bitNot => exact hsymbol '~' .tilde (Or.inr (Or.inr rfl)) rfl rfl rfl rfl

theorem take_length_takeWhile (p : Char → Bool) (cs : List Char) :
    cs.take (cs.takeWhile p).length = cs.takeWhile p := (List.prefix_iff_eq_take.1 (List.takeWhile_prefix p)).symm

theorem drop_length_takeWhile (p : Char → Bool) (cs : List Char) :
    cs.drop (cs.takeWhile p).length = cs.dropWhile p := by
  have hleft : (cs.takeWhile p ++ cs.dropWhile p).drop _ = _ := List.drop_left
  rwa [List.takeWhile_append_dropWhile] at hleft

theorem scanFrom_blank {c : Char} (hc : isSpace c = true) (offset : Nat) (cs : List Char) :
    scanFrom offset (c :: cs) =
      scanFrom (offset + byteLength (c :: cs.takeWhile isSpace)) (cs.dropWhile isSpace) := by
  have hpiece : headPiece c cs = (.separator, 1 + (cs.takeWhile isSpace).length) := by
    rw [headPiece, if_pos hc]
  rw [scanFrom, hpiece]
  simp only [Nat.add_sub_cancel_left]
  rw [take_length_takeWhile, drop_length_takeWhile]

theorem scanFrom_nil (offset : Nat) : scanFrom offset [] = [] := by
  unfold scanFrom
  rfl

/-- Blanks may be passed one by one. -/
theorem scanFrom_cons_blank {c : Char} (hc : isSpace c = true) (offset : Nat) (cs : List Char) :
    scanFrom offset (c :: cs) = scanFrom (offset + c.utf8Size) cs := by
  rw [scanFrom_blank hc]
  cases cs with
  | nil => simp only [List.dropWhile_nil, scanFrom_nil]
  | cons d cs =>
    by_cases hd : isSpace d = true
    · rw [scanFrom_blank hd, List.takeWhile_cons_of_pos hd, List.dropWhile_cons_of_pos hd]
      congr 1
      simp only [byteLength, Nat.add_assoc]
    · rw [List.takeWhile_cons_of_neg hd, List.dropWhile_cons_of_neg hd]
      rfl

theorem scans_space : Scans anything " " [] := by
  intro offset rest _
  exact ⟨[], offset + 1, scanFrom_cons_blank rfl offset rest, rfl⟩

end Token
end OpenQasm
