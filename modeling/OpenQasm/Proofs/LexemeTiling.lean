import Mathlib.Data.List.TakeWhile
import OpenQasm.Proofs.JoinedTexts

/-!
The lexemes of a text cover it. They stand one behind the other, and what is left between them are blanks and
comments that are closed. The text of a token is cut off at the same place when nothing follows it, so that by
itself it is that token.
-/
namespace OpenQasm.Token

/-- Blanks and comments that are closed; `last` tells whether the text ends behind them. A comment of a line is
closed by the line break or the end of the text. -/
inductive Gap (last : Bool) : List Char → Prop
  | nil : Gap last []
  | blank {c cs} : isSpace c = true → Gap last cs → Gap last (c :: cs)
  | line {body rest} : '\n' ∉ body → Gap last rest → rest.head? = some '\n' ∨ last = true ∧ rest = [] →
      Gap last ('/' :: '/' :: (body ++ rest))
  | block {body rest} : ¬['*', '/'] <:+: body → Gap last rest → Gap last ('/' :: '*' :: (body ++ '*' :: '/' :: rest))

/-- A text that stands at an offset consists of some lexemes, with gaps before, between and behind them. -/
inductive Tiled : Nat → List Char → List Lexeme → Prop
  | gap {offset gap} : Gap true gap → Tiled offset gap []
  | lexeme {offset gap c cs rest token ls} : Gap false gap → isSpace c = false →
      Tiled (offset + byteLength gap + byteLength (c :: cs)) rest ls →
      Tiled offset (gap ++ (c :: cs) ++ rest)
        (⟨token, c :: cs, offset + byteLength gap, offset + byteLength gap + byteLength (c :: cs)⟩ :: ls)

variable {cs ds rest : List Char} {c : Char} {offset n : Nat} {t : Token}

section Shortened

theorem takeWhile_take {p : Char → Bool} (h : (cs.takeWhile p).length ≤ n) :
    (cs.take n).takeWhile p = cs.takeWhile p := by
  rw [← List.take_takeWhile, List.take_of_length_le h]

/-- What a shorter text starts with, the longer one starts with. -/
theorem eq_cons_of_take {k : Nat} {d : Char} {r : List Char} (h : cs.take k = d :: r) : cs = d :: (r ++ cs.drop k) := by
  have hwhole := List.take_append_drop k cs
  rw [h] at hwhole
  exact hwhole.symm

theorem unit?_append {r : TimeUnit × Nat} (h : unit? cs = some r) (ds : List Char) : unit? (cs ++ ds) = some r := by
  unfold unit? at h
  split at h <;> cases h <;> rfl

theorem unit?_take {u : TimeUnit} (h : unit? cs = some (u, n)) : unit? (cs.take n) = some (u, n) := by
  unfold unit? at h
  split at h <;> cases h <;> rfl

/-- A text that starts with no unit starts with none when it is shorter. -/
theorem unit?_take_none (h : unit? cs = none) (n : Nat) : unit? (cs.take n) = none := by
  refine Option.eq_none_iff_forall_ne_some.2 fun r hr => ?_
  have hlonger := unit?_append hr (cs.drop n)
  rw [List.take_append_drop, h] at hlonger
  cases hlonger

theorem exponentSign_take (hn : 0 < n) : exponentSign (cs.take n) =
    ((exponentSign cs).1, (exponentSign cs).2.1, (exponentSign cs).2.2.take (n - (exponentSign cs).2.1)) := by
  cases cs with
  | nil => simp [exponentSign]
  | cons c cs =>
    obtain ⟨n, rfl⟩ := Nat.exists_eq_succ_of_ne_zero hn.ne'
    rw [List.take_succ_cons]
    unfold exponentSign
    split <;> simp_all

theorem exponentPart_take {x : Int} {m : Nat} (h : Decimal.exponentPart cs = some (x, n)) (hn : n ≤ m) :
    Decimal.exponentPart (cs.take m) = some (x, n) := by
  cases cs with
  | nil => cases h
  | cons e cs =>
    rw [exponentPart_cons] at h
    dsimp only at h
    split at h
    · next he =>
      split at h
      · cases h
      · next hdigits =>
        cases h
        -- There is a digit at least, so the sign is kept as well.
        have hpos : 0 < ((exponentSign cs).2.2.takeWhile Decimal.isDigit).length := List.length_pos_iff.2 hdigits
        replace hn : 1 + (exponentSign cs).2.1 + ((exponentSign cs).2.2.takeWhile Decimal.isDigit).length ≤ m := hn
        obtain ⟨m, rfl⟩ : ∃ k, m = k + 1 := ⟨m - 1, by omega⟩
        have hkept : ((exponentSign cs).2.2.take (m - (exponentSign cs).2.1)).takeWhile Decimal.isDigit =
            (exponentSign cs).2.2.takeWhile Decimal.isDigit := takeWhile_take (by omega)
        rw [List.take_succ_cons, exponentPart_cons, if_pos he, exponentSign_take (by omega)]
        dsimp only
        rw [hkept, if_neg hdigits]
    · cases h

theorem afterPoint_other (h : ∀ r, cs ≠ '.' :: r) : afterPoint cs = (false, [], cs) := by
  unfold afterPoint
  split
  · next r => exact absurd rfl (h r)
  · rfl

/-- The digits after the point are kept, and what follows them is cut. -/
theorem afterPoint_take (cs : List Char) (n : Nat) : afterPoint (cs.take
      ((if (afterPoint cs).1 then 1 else 0) + (afterPoint cs).2.1.length + n)) =
    ((afterPoint cs).1, (afterPoint cs).2.1, (afterPoint cs).2.2.take n) := by
  by_cases hpoint : ∃ r, cs = '.' :: r
  · obtain ⟨r, rfl⟩ := hpoint
    have heq (r : List Char) : afterPoint ('.' :: r) =
        (true, r.takeWhile Decimal.isDigit, r.dropWhile Decimal.isDigit) := rfl
    have hsplit : r.take ((r.takeWhile Decimal.isDigit).length + n) =
        r.takeWhile Decimal.isDigit ++ (r.dropWhile Decimal.isDigit).take n := by
      have hwhole := List.takeWhile_append_dropWhile (p := Decimal.isDigit) (l := r)
      exact (congrArg (List.take _) hwhole.symm).trans (List.take_length_add_append _)
    have htake : (r.take ((r.takeWhile Decimal.isDigit).length + n)).takeWhile Decimal.isDigit =
        r.takeWhile Decimal.isDigit := takeWhile_take (Nat.le_add_right _ _)
    have hdrop : (r.take ((r.takeWhile Decimal.isDigit).length + n)).dropWhile Decimal.isDigit =
        (r.dropWhile Decimal.isDigit).take n := by
      have hall := List.takeWhile_append_dropWhile (p := Decimal.isDigit)
        (l := r.take ((r.takeWhile Decimal.isDigit).length + n))
      rw [htake] at hall
      exact List.append_cancel_left (hall.trans hsplit)
    rw [heq, if_pos rfl, Nat.add_assoc, Nat.add_comm 1, List.take_succ_cons, heq, htake, hdrop]
  · have hother (r : List Char) : cs ≠ '.' :: r := fun h => hpoint ⟨r, h⟩
    have hshorter (r : List Char) : cs.take n ≠ '.' :: r := fun hr => hother _ (eq_cons_of_take hr)
    rw [afterPoint_other hother]
    simp only [Bool.false_eq_true, if_false, List.length_nil, Nat.zero_add]
    exact afterPoint_other hshorter

/-- What the suffix of a number makes of the digits before it, and how many characters it has. -/
def suffixed (whole fraction : List Char) (pointed : Bool) (tail : List Char) : Piece × Nat :=
  match unit? tail with
  | some (u, n) => (.token (.duration (Decimal.ofParts whole fraction 0) u), n)
  | none =>
    let (exponent, n) := (Decimal.exponentPart tail).getD (0, 0)
    let value := Decimal.ofParts whole fraction exponent
    if startsIm (tail.drop n) then (.token (.imaginary value), n + 2)
    else if pointed || n > 0 then (.token (.float value), n)
    else (ofNat (Decimal.natOfDigits whole), n)

theorem decimal_suffixed (cs : List Char) : decimal cs =
    let whole := cs.takeWhile Decimal.isDigit
    let (pointed, fraction, tail) := afterPoint (cs.drop whole.length)
    let (piece, n) := suffixed whole fraction pointed tail
    (piece, whole.length + ((if pointed then 1 else 0) + fraction.length + n)) := by
  have hsize (a b c d : Nat) : a + b + c + d = a + (c + b + d) := by omega
  have hsize' (a b c d e : Nat) : a + b + c + d + e = a + (c + b + (d + e)) := by omega
  rw [decimal_eq]
  dsimp only
  obtain ⟨pointed, fraction, tail⟩ := afterPoint (cs.drop (cs.takeWhile Decimal.isDigit).length)
  dsimp only
  unfold suffixed
  cases unit? tail with
  | some u => exact Prod.ext rfl (hsize _ _ _ _)
  | none =>
    dsimp only
    rw [match_im]
    split
    · exact Prod.ext rfl (hsize' _ _ _ _ _)
    · split
      · exact Prod.ext rfl (hsize _ _ _ _)
      · next hplain =>
        -- An integer has no exponent.
        have hzero : ((Decimal.exponentPart tail).getD (0, 0)).2 = 0 := by
          simp only [gt_iff_lt, Bool.or_eq_true, decide_eq_true_eq, not_or, Nat.not_lt, Nat.le_zero] at hplain
          exact hplain.2
        rw [hzero]
        exact Prod.ext rfl (hsize _ _ _ 0)

theorem startsIm_take_two (h : startsIm cs = true) : startsIm (cs.take 2) = true := by
  unfold startsIm at h
  split at h
  · rfl
  · cases h

theorem exponentPart_im (h : startsIm cs = true) : Decimal.exponentPart (cs.take 2) = none := by
  unfold startsIm at h
  split at h
  · rfl
  · cases h

/-- An exponent is kept by a text that is not shorter, and where there is none, none comes up. -/
theorem exponent_take {r : Int × Nat} {k : Nat} (h : (Decimal.exponentPart cs).getD (0, 0) = r) (hk : r.2 ≤ k)
    (hnone : Decimal.exponentPart cs = none → Decimal.exponentPart (cs.take k) = none) :
    (Decimal.exponentPart (cs.take k)).getD (0, 0) = r := by
  cases hpart : Decimal.exponentPart cs with
  | none =>
    rw [hpart] at h
    rw [hnone hpart]
    exact h
  | some r' =>
    rw [hpart] at h
    obtain rfl : r' = r := h
    rw [exponentPart_take hpart hk]
    rfl

/-- No more is looked at than the suffix. -/
theorem suffixed_take (whole fraction : List Char) (pointed : Bool) (tail : List Char) :
    suffixed whole fraction pointed (tail.take (suffixed whole fraction pointed tail).2) =
      suffixed whole fraction pointed tail := by
  cases hunit : unit? tail with
  | some u =>
    have hsuffix : suffixed whole fraction pointed tail =
        (.token (.duration (Decimal.ofParts whole fraction 0) u.1), u.2) := by
      rw [suffixed, hunit]
    rw [hsuffix]
    dsimp only
    rw [suffixed, unit?_take hunit]
  | none =>
    obtain ⟨exponent, n, hexponent⟩ : ∃ x n, (Decimal.exponentPart tail).getD (0, 0) = (x, n) := ⟨_, _, rfl⟩
    have heq (l : List Char) (hl : unit? l = none) (hx : (Decimal.exponentPart l).getD (0, 0) = (exponent, n)) :
        suffixed whole fraction pointed l =
          if startsIm (l.drop n) then (.token (.imaginary (Decimal.ofParts whole fraction exponent)), n + 2)
          else if pointed || n > 0 then (.token (.float (Decimal.ofParts whole fraction exponent)), n)
          else (ofNat (Decimal.natOfDigits whole), n) := by
      rw [suffixed, hl]
      dsimp only
      rw [hx]
    rw [heq tail hunit hexponent]
    cases him : startsIm (tail.drop n) with
    | true =>
      have hkept : (Decimal.exponentPart (tail.take (n + 2))).getD (0, 0) = (exponent, n) := by
        refine exponent_take hexponent (Nat.le_add_right n 2) fun hpart => ?_
        rw [hpart] at hexponent
        cases hexponent
        exact exponentPart_im him
      have hdrop : startsIm ((tail.take (n + 2)).drop n) = true := by
        rw [List.drop_take, Nat.add_sub_cancel_left]
        exact startsIm_take_two him
      rw [if_pos rfl]
      dsimp only
      rw [heq _ (unit?_take_none hunit _) hkept, hdrop, if_pos rfl]
    | false =>
      rw [if_neg Bool.false_ne_true]
      have hlength : (if pointed || n > 0 then (Piece.token (.float (Decimal.ofParts whole fraction exponent)), n)
          else (ofNat (Decimal.natOfDigits whole), n)).2 = n := by
        split <;> rfl
      rw [hlength]
      have hkept : (Decimal.exponentPart (tail.take n)).getD (0, 0) = (exponent, n) := by
        refine exponent_take hexponent (Nat.le_refl n) fun hpart => ?_
        rw [hpart] at hexponent
        cases hexponent
        rfl
      have hdrop : startsIm ((tail.take n).drop n) = false := by
        rw [List.drop_take, Nat.sub_self]
        rfl
      rw [heq _ (unit?_take_none hunit _) hkept, hdrop, if_neg Bool.false_ne_true]

/-- A number is cut off at the same place when nothing follows it. -/
theorem decimal_take (cs : List Char) : decimal (cs.take (decimal cs).2) = decimal cs := by
  rw [decimal_suffixed cs]
  dsimp only
  have hpoint := afterPoint_take (cs.drop (cs.takeWhile Decimal.isDigit).length)
  generalize afterPoint (cs.drop (cs.takeWhile Decimal.isDigit).length) = r at hpoint ⊢
  obtain ⟨pointed, fraction, tail⟩ := r
  dsimp only at hpoint ⊢
  -- The digits before the point are kept, so the rest is what follows them in both texts.
  rw [decimal_suffixed, takeWhile_take (Nat.le_add_right _ _)]
  dsimp only
  rw [List.drop_take, Nat.add_sub_cancel_left, hpoint]
  dsimp only
  rw [suffixed_take]

theorem number_eq_decimal (h : ∀ x r, cs ≠ '0' :: x :: r) : number cs = decimal cs := by
  unfold number
  split
  · next x r => exact absurd rfl (h x r)
  · rfl

theorem decimal_pos {c : Char} (hc : Decimal.isDigit c = true) : 1 ≤ (decimal (c :: cs)).2 := by
  have hwhole : 1 ≤ ((c :: cs).takeWhile Decimal.isDigit).length := by
    rw [List.takeWhile_cons_of_pos hc, List.length_cons]
    exact Nat.le_add_left 1 _
  rw [decimal_suffixed]
  exact hwhole.trans (Nat.le_add_right _ _)

theorem decimal_point {d : Char} (hd : Decimal.isDigit d = true) (cs : List Char) :
    2 ≤ (decimal ('.' :: d :: cs)).2 := by
  have hfraction : 1 ≤ ((d :: cs).takeWhile Decimal.isDigit).length := by
    rw [List.takeWhile_cons_of_pos hd, List.length_cons]
    exact Nat.le_add_left 1 _
  have hpoint : afterPoint (('.' :: d :: cs).drop (('.' :: d :: cs).takeWhile Decimal.isDigit).length) =
      (true, (d :: cs).takeWhile Decimal.isDigit, (d :: cs).dropWhile Decimal.isDigit) := rfl
  rw [decimal_suffixed]
  dsimp only
  rw [hpoint]
  dsimp only
  rw [if_pos rfl]
  omega

theorem number_pos {c : Char} (hc : Decimal.isDigit c = true) : 1 ≤ (number (c :: cs)).2 := by
  unfold number
  split
  · dsimp only
    split
    · exact Nat.le_add_left 1 _
    · split
      · exact Nat.le_add_left 1 _
      · exact decimal_pos rfl
  · exact decimal_pos hc

/-- What comes after a zero may be the letter of another base. -/
theorem number_zero_take (x : Char) (r : List Char) :
    number (('0' :: x :: r).take (number ('0' :: x :: r)).2) = number ('0' :: x :: r) := by
  have hrun := number_zero x r
  dsimp only at hrun
  by_cases hhex : ((x = 'x' || x = 'X') && r.takeWhile (Digits.isDigit 16) ≠ []) = true
  · rw [if_pos hhex] at hrun
    have hkept := takeWhile_take (Nat.le_refl (r.takeWhile (Digits.isDigit 16)).length)
    rw [hrun]
    dsimp only
    rw [List.take_succ_cons, List.take_succ_cons, number_zero]
    dsimp only
    rw [hkept, if_pos hhex]
  rw [if_neg hhex] at hrun
  by_cases hbinary : ((x = 'b' || x = 'B') && r.takeWhile (Digits.isDigit 2) ≠ []) = true
  · rw [if_pos hbinary] at hrun
    have hkept := takeWhile_take (Nat.le_refl (r.takeWhile (Digits.isDigit 2)).length)
    have hnot : ¬((x = 'x' || x = 'X') &&
        (r.take (r.takeWhile (Digits.isDigit 2)).length).takeWhile (Digits.isDigit 16) ≠ []) = true := by
      simp only [Bool.and_eq_true, Bool.or_eq_true, decide_eq_true_eq] at hbinary ⊢
      rintro ⟨rfl | rfl, -⟩
      · exact absurd hbinary.1 (by decide)
      · exact absurd hbinary.1 (by decide)
    rw [hrun]
    dsimp only
    rw [List.take_succ_cons, List.take_succ_cons, number_zero]
    dsimp only
    rw [hkept, if_neg hnot, if_pos hbinary]
  rw [if_neg hbinary] at hrun
  rw [hrun]
  have hkept := decimal_take ('0' :: x :: r)
  have hpos : 1 ≤ (decimal ('0' :: x :: r)).2 := decimal_pos rfl
  obtain ⟨k, hk⟩ : ∃ k, (decimal ('0' :: x :: r)).2 = k + 1 := ⟨_, (Nat.sub_add_cancel hpos).symm⟩
  rw [hk, List.take_succ_cons] at hkept ⊢
  cases k with
  | zero => exact hkept
  | succ k =>
    rw [List.take_succ_cons] at hkept ⊢
    -- Shorter digits are no more than there were.
    have hdigits (p : Char → Bool) (h : (r.take k).takeWhile p ≠ []) : r.takeWhile p ≠ [] := by
      intro hnil
      rw [← List.take_takeWhile, hnil, List.take_nil] at h
      exact h rfl
    have hhex' : ¬((x = 'x' || x = 'X') && (r.take k).takeWhile (Digits.isDigit 16) ≠ []) = true := by
      simp only [Bool.and_eq_true, decide_eq_true_eq] at hhex ⊢
      exact fun h => hhex ⟨h.1, hdigits _ h.2⟩
    have hbinary' : ¬((x = 'b' || x = 'B') && (r.take k).takeWhile (Digits.isDigit 2) ≠ []) = true := by
      simp only [Bool.and_eq_true, decide_eq_true_eq] at hbinary ⊢
      exact fun h => hbinary ⟨h.1, hdigits _ h.2⟩
    rw [number_zero]
    dsimp only
    rw [if_neg hhex', if_neg hbinary', hkept]

theorem number_take (cs : List Char) : number (cs.take (number cs).2) = number cs := by
  by_cases hzero : ∃ x r, cs = '0' :: x :: r
  · obtain ⟨x, r, rfl⟩ := hzero
    exact number_zero_take x r
  · have hother (x : Char) (r : List Char) : cs ≠ '0' :: x :: r := fun h => hzero ⟨x, r, h⟩
    have hshorter (x : Char) (r : List Char) : cs.take (decimal cs).2 ≠ '0' :: x :: r := fun hr =>
      hother x _ (eq_cons_of_take hr)
    rw [number_eq_decimal hother, number_eq_decimal hshorter, decimal_take]

theorem startsNumber_iff : (Decimal.isDigit c || (c = '.' && (cs.head?.map Decimal.isDigit).getD false)) = true ↔
    Decimal.isDigit c = true ∨ c = '.' ∧ ∃ d r, cs = d :: r ∧ Decimal.isDigit d = true := by
  cases cs with
  | nil => simp
  | cons d r => simp

theorem numberOrPunctuation_number
    (h : Decimal.isDigit c = true ∨ c = '.' ∧ ∃ d r, cs = d :: r ∧ Decimal.isDigit d = true) :
    numberOrPunctuation c cs = number (c :: cs) := if_pos (startsNumber_iff.2 h)

theorem numberOrPunctuation_symbol
    (h : ¬(Decimal.isDigit c = true ∨ c = '.' ∧ ∃ d r, cs = d :: r ∧ Decimal.isDigit d = true)) :
    numberOrPunctuation c cs = match Punctuation.scan? (c :: cs) with
      | some s => (.token (.punctuation s), s.text.length)
      | none =>
        match Keyword.ofLetter? c with
        | some k => (.token (.keyword k), 1)
        | none => (.invalid, 1) := if_neg (mt startsNumber_iff.1 h)

theorem scan?_take {s : Punctuation} (h : Punctuation.scan? (c :: cs) = some s) :
    Punctuation.scan? (c :: cs.take (s.text.length - 1)) = some s := by
  cases cs with
  | nil => rwa [List.take_nil]
  | cons d cs =>
    rcases Option.or_eq_some_iff.1 h with hpair | ⟨-, hchar⟩
    · rw [ofPair?_length hpair, List.take_succ_cons, List.take_zero, Punctuation.scan?, hpair, Option.some_or]
    · rw [ofChar?_length hchar, List.take_zero]
      exact hchar

theorem scan?_single (h : Punctuation.scan? (c :: cs) = none) : Punctuation.scan? [c] = none := by
  cases cs with
  | nil => exact h
  | cons d cs => exact (Option.or_eq_none_iff.1 h).2

theorem numberOrPunctuation_take : numberOrPunctuation c (cs.take ((numberOrPunctuation c cs).2 - 1)) =
    numberOrPunctuation c cs := by
  by_cases hnumber : Decimal.isDigit c = true ∨ c = '.' ∧ ∃ d r, cs = d :: r ∧ Decimal.isDigit d = true
  · rw [numberOrPunctuation_number hnumber]
    have hpos : 1 ≤ (number (c :: cs)).2 := by
      rcases hnumber with hdigit | ⟨rfl, d, r, rfl, hd⟩
      · exact number_pos hdigit
      · rw [number_other (by decide)]
        exact (Nat.le_succ 1).trans (decimal_point hd _)
    have hnumber' : Decimal.isDigit c = true ∨ c = '.' ∧ ∃ d r, cs.take ((number (c :: cs)).2 - 1) = d :: r ∧
        Decimal.isDigit d = true := by
      refine hnumber.imp_right ?_
      rintro ⟨rfl, d, r, rfl, hd⟩
      have htwo := decimal_point hd r
      rw [number_other (by decide)]
      obtain ⟨k, hk⟩ : ∃ k, (decimal ('.' :: d :: r)).2 - 1 = k + 1 :=
        ⟨(decimal ('.' :: d :: r)).2 - 2, by omega⟩
      rw [hk, List.take_succ_cons]
      exact ⟨rfl, d, _, rfl, hd⟩
    have hwhole : c :: cs.take ((number (c :: cs)).2 - 1) = (c :: cs).take (number (c :: cs)).2 := by
      obtain ⟨k, hk⟩ : ∃ k, (number (c :: cs)).2 = k + 1 := ⟨_, (Nat.sub_add_cancel hpos).symm⟩
      rw [hk, List.take_succ_cons, Nat.add_sub_cancel]
    rw [numberOrPunctuation_number hnumber', hwhole, number_take]
  · have hnumber' (k : Nat) : ¬(Decimal.isDigit c = true ∨
        c = '.' ∧ ∃ d r, cs.take k = d :: r ∧ Decimal.isDigit d = true) := by
      refine mt (Or.imp_right ?_) hnumber
      rintro ⟨hc, d, r, hr, hd⟩
      exact ⟨hc, d, _, eq_cons_of_take hr, hd⟩
    have hsymbol (k : Nat) := numberOrPunctuation_symbol (hnumber' k)
    rw [numberOrPunctuation_symbol hnumber, hsymbol]
    cases hscan : Punctuation.scan? (c :: cs) with
    | some s =>
      dsimp only
      rw [scan?_take hscan]
    | none =>
      cases hletter : Keyword.ofLetter? c <;>
      · dsimp only
        rw [Nat.sub_self, List.take_zero, scan?_single hscan]

/-- The closing quotation mark belongs to a string. -/
theorem headPiece_quote_take (hclosed : (cs.takeWhile (· ≠ '"')).length < cs.length) :
    headPiece '"' (cs.take ((headPiece '"' cs).2 - 1)) = headPiece '"' cs := by
  have hrun := headPiece_quote cs
  rw [if_pos hclosed] at hrun
  rw [hrun]
  dsimp only
  have hlength : (cs.takeWhile (· ≠ '"')).length < (cs.take ((cs.takeWhile (· ≠ '"')).length + 2 - 1)).length := by
    rw [List.length_take]
    omega
  have hbody : (cs.take ((cs.takeWhile (· ≠ '"')).length + 2 - 1)).takeWhile (· ≠ '"') = cs.takeWhile (· ≠ '"') :=
    takeWhile_take (by omega)
  rw [headPiece_quote, hbody, if_pos hlength]

/-- A pragma goes to the end of its line. -/
theorem headPiece_hash_take (hword : pragmaWord.isPrefixOf cs = true) :
    headPiece '#' (cs.take ((headPiece '#' cs).2 - 1)) = headPiece '#' cs := by
  have hrun := headPiece_hash cs
  rw [if_pos hword] at hrun
  rw [hrun]
  dsimp only
  rw [Nat.add_assoc, Nat.add_sub_cancel_left]
  have hword' : pragmaWord.isPrefixOf
      (cs.take (pragmaWord.length + ((cs.drop pragmaWord.length).takeWhile (· ≠ '\n')).length)) = true := by
    obtain ⟨ds, rfl⟩ := List.isPrefixOf_iff_prefix.1 hword
    refine List.isPrefixOf_iff_prefix.2 ?_
    rw [List.take_length_add_append]
    exact List.prefix_append _ _
  have hbody : ((cs.take (pragmaWord.length + ((cs.drop pragmaWord.length).takeWhile (· ≠ '\n')).length)).drop
      pragmaWord.length).takeWhile (· ≠ '\n') = (cs.drop pragmaWord.length).takeWhile (· ≠ '\n') := by
    rw [List.drop_take, Nat.add_sub_cancel_left]
    exact takeWhile_take (Nat.le_refl _)
  rw [headPiece_hash, if_pos hword', hbody, Nat.add_assoc]

/-- A token is cut off at the same place when nothing follows it. -/
theorem headPiece_take (h : (headPiece c cs).1 = .token t) :
    headPiece c (cs.take ((headPiece c cs).2 - 1)) = headPiece c cs := by
  have hspace : isSpace c = false := by
    refine Bool.eq_false_iff.2 fun hspace => ?_
    rw [headPiece, if_pos hspace] at h
    cases h
  have hnospace : ¬isSpace c = true := Bool.eq_false_iff.1 hspace
  cases hname : isNameStart c with
  | true =>
    rw [headPiece_word hname cs, List.length_cons]
    dsimp only
    rw [Nat.add_sub_cancel, headPiece_word hname, takeWhile_take (Nat.le_refl _), List.length_cons]
  | false =>
  by_cases hquote : c = '"'
  · subst hquote
    rw [headPiece_quote] at h
    split at h
    · next hclosed => exact headPiece_quote_take hclosed
    · cases h
  by_cases hhash : c = '#'
  · subst hhash
    rw [headPiece_hash] at h
    split at h
    · next hword => exact headPiece_hash_take hword
    · cases h
  by_cases hslash : c = '/'
  · subst hslash
    have hhead (k : Nat) (d : Char) (hd : ¬cs.head? = some d) : ¬(cs.take k).head? = some d := by
      rintro hk
      obtain ⟨r, hr⟩ := List.head?_eq_some_iff.1 hk
      exact hd (congrArg List.head? (eq_cons_of_take hr))
    have hrun := headPiece_slash cs
    by_cases hline : cs.head? = some '/'
    · rw [if_pos hline] at hrun
      rw [hrun] at h
      cases h
    rw [if_neg hline] at hrun
    by_cases hstar : cs.head? = some '*'
    · rw [if_pos hstar] at hrun
      rw [hrun] at h
      split at h <;> cases h
    rw [if_neg hstar] at hrun
    rw [hrun, headPiece_slash, if_neg (hhead _ _ hline), if_neg (hhead _ _ hstar), numberOrPunctuation_take]
  · have hother := headPiece_other hspace hname hquote hhash hslash
    rw [hother, hother, numberOrPunctuation_take]

/-- The text of a token by itself is that token. -/
theorem scanFrom_alone (h : (headPiece c cs).1 = .token t) :
    scanFrom 0 (c :: cs.take ((headPiece c cs).2 - 1)) =
      [⟨some t, c :: cs.take ((headPiece c cs).2 - 1), 0, byteLength (c :: cs.take ((headPiece c cs).2 - 1))⟩] := by
  rw [scanFrom_cons, headPiece_take h]
  dsimp only
  rw [List.take_take, Nat.min_self, List.drop_take, Nat.sub_self, List.take_zero, scanFrom_nil, h, Nat.zero_add]
  rfl

end Shortened

section Gaps

theorem commentLength?_eq_some (h : commentLength? cs = some n) :
    ∃ body rest, cs = body ++ '*' :: '/' :: rest ∧ n = body.length + 2 ∧ ¬['*', '/'] <:+: body := by
  induction cs generalizing n with
  | nil => cases h
  | cons c cs ih =>
    unfold commentLength? at h
    split at h
    · next heq =>
      cases heq
      cases h
      exact ⟨[], _, rfl, rfl, by simp⟩
    · next hopen heq =>
      cases heq
      obtain ⟨m, hm, rfl⟩ := Option.map_eq_some_iff.1 h
      obtain ⟨body, rest, rfl, rfl, hbody⟩ := ih hm
      refine ⟨c :: body, rest, rfl, rfl, fun hinside => ?_⟩
      rcases List.infix_cons_iff.1 hinside with hprefix | hinside
      · -- The comment would be closed at once.
        obtain ⟨more, hmore⟩ := hprefix
        obtain ⟨hc, hbody'⟩ := List.cons.inj hmore
        exact hopen (more ++ '*' :: '/' :: rest) hc.symm (by rw [← hbody']; rfl)
      · exact hbody hinside
    · next heq => cases heq

theorem Gap.append {last : Bool} {gap : List Char} (hcs : ∀ d ∈ cs, isSpace d = true) (h : Gap last gap) :
    Gap last (cs ++ gap) := by
  induction cs with
  | nil => exact h
  | cons d cs ih =>
    rw [List.forall_mem_cons] at hcs
    exact .blank hcs.1 (ih hcs.2)

theorem number_ne_separator (cs : List Char) : (number cs).1 ≠ .separator := by
  have hnat (n : Nat) : ofNat n ≠ .separator := by
    unfold ofNat
    split <;> nofun
  have hdecimal (cs : List Char) : (decimal cs).1 ≠ .separator := by
    rw [decimal_suffixed]
    dsimp only
    unfold suffixed
    split
    · nofun
    · dsimp only
      split
      · nofun
      · split
        · nofun
        · exact hnat _
  unfold number
  split
  · dsimp only
    split
    · exact hnat _
    · split
      · exact hnat _
      · exact hdecimal _
  · exact hdecimal _

theorem numberOrPunctuation_ne_separator (c : Char) (cs : List Char) :
    (numberOrPunctuation c cs).1 ≠ .separator := by
  unfold numberOrPunctuation
  dsimp only
  split
  · exact number_ne_separator _
  · split
    · nofun
    · split <;> nofun

/-- A comment of one line ends before the line break. -/
theorem lineComment_taken (ds : List Char) :
    let n := (headPiece '/' ('/' :: ds)).2 - 1
    ∃ body, '/' :: ('/' :: ds).take n = '/' :: '/' :: body ∧ '\n' ∉ body ∧
      ∀ d ∈ (('/' :: ds).drop n).head?, d = '\n' := by
  have hrun := headPiece_slash ('/' :: ds)
  rw [if_pos List.head?_cons] at hrun
  rw [hrun]
  dsimp only
  rw [Nat.add_sub_cancel_left, take_length_takeWhile, drop_length_takeWhile]
  refine ⟨ds.takeWhile (· ≠ '\n'), rfl, fun hbreak => ?_, fun d hd => ?_⟩
  · have hkept := List.mem_takeWhile_imp hbreak
    exact of_decide_eq_true hkept rfl
  · have hstop := List.head?_dropWhile_not (· ≠ '\n') ('/' :: ds)
    rw [Option.mem_def.1 hd] at hstop
    exact Decidable.not_not.1 (of_decide_eq_false hstop)

/-- A comment that is closed ends with what closes it. -/
theorem blockComment_taken {ds : List Char} (h : (headPiece '/' ('*' :: ds)).1 = .separator) :
    ∃ body, '/' :: ('*' :: ds).take ((headPiece '/' ('*' :: ds)).2 - 1) = '/' :: '*' :: (body ++ ['*', '/']) ∧
      ¬['*', '/'] <:+: body := by
  have hrun := headPiece_slash ('*' :: ds)
  rw [if_neg (by simp), if_pos List.head?_cons, List.tail_cons] at hrun
  cases hclosed : commentLength? ds with
  | none =>
    rw [hrun, hclosed] at h
    cases h
  | some n =>
    obtain ⟨body, rest, rfl, rfl, hbody⟩ := commentLength?_eq_some hclosed
    have hcut : (body ++ '*' :: '/' :: rest).take (body.length + 2) = body ++ ['*', '/'] :=
      List.take_length_add_append 2
    have hlength : 2 + (body.length + 2) - 1 = body.length + 2 + 1 := by omega
    rw [hrun, hclosed]
    dsimp only
    rw [hlength, List.take_succ_cons, hcut]
    exact ⟨body, rfl, hbody⟩

/-- What separates lexemes are blanks, a comment up to the end of its line, or a comment up to its end. -/
theorem separator_cases (h : (headPiece c cs).1 = .separator) :
    let chars := c :: cs.take ((headPiece c cs).2 - 1)
    let after := cs.drop ((headPiece c cs).2 - 1)
    (∀ d ∈ chars, isSpace d = true) ∨
      (∃ body, chars = '/' :: '/' :: body ∧ '\n' ∉ body ∧ ∀ d ∈ after.head?, d = '\n') ∨
      ∃ body, chars = '/' :: '*' :: (body ++ ['*', '/']) ∧ ¬['*', '/'] <:+: body := by
  intro chars after
  by_cases hspace : isSpace c = true
  · have hrun : headPiece c cs = (.separator, 1 + (cs.takeWhile isSpace).length) := by
      rw [headPiece, if_pos hspace]
    refine Or.inl fun d hd => ?_
    rcases List.mem_cons.1 hd with rfl | hd
    · exact hspace
    · rw [hrun, Nat.add_sub_cancel_left, take_length_takeWhile] at hd
      exact List.mem_takeWhile_imp hd
  have hblank : isSpace c = false := Bool.eq_false_iff.2 hspace
  cases hname : isNameStart c with
  | true =>
    simp only [headPiece, if_neg hspace, if_pos hname] at h
    cases h
  | false =>
  by_cases hquote : c = '"'
  · subst hquote
    rw [headPiece_quote] at h
    split at h <;> cases h
  by_cases hhash : c = '#'
  · subst hhash
    rw [headPiece_hash] at h
    split at h <;> cases h
  by_cases hslash : c = '/'
  · subst hslash
    have hrun := headPiece_slash cs
    by_cases hline : cs.head? = some '/'
    · obtain ⟨ds, rfl⟩ := List.head?_eq_some_iff.1 hline
      exact Or.inr (Or.inl (lineComment_taken ds))
    rw [if_neg hline] at hrun
    by_cases hstar : cs.head? = some '*'
    · obtain ⟨ds, rfl⟩ := List.head?_eq_some_iff.1 hstar
      exact Or.inr (Or.inr (blockComment_taken h))
    rw [if_neg hstar] at hrun
    rw [hrun] at h
    exact absurd h (numberOrPunctuation_ne_separator _ _)
  · rw [headPiece_other hblank hname hquote hhash hslash] at h
    exact absurd h (numberOrPunctuation_ne_separator _ _)

/-- What separates lexemes becomes a part of the gap that follows it. -/
theorem Tiled.separated {ls : List Lexeme} (h : (headPiece c cs).1 = .separator)
    (ht : Tiled (offset + byteLength (c :: cs.take ((headPiece c cs).2 - 1))) (cs.drop ((headPiece c cs).2 - 1)) ls) :
    Tiled offset (c :: cs) ls := by
  have hcases := separator_cases h
  have hwhole : c :: cs = (c :: cs.take ((headPiece c cs).2 - 1)) ++ cs.drop ((headPiece c cs).2 - 1) := by
    rw [List.cons_append, List.take_append_drop]
  rw [hwhole]
  dsimp only at hcases
  -- From here on it only matters which characters separate the lexemes and what stands behind them.
  generalize c :: cs.take ((headPiece c cs).2 - 1) = chars at hcases ht
  generalize cs.drop ((headPiece c cs).2 - 1) = after at hcases ht
  have hblock {last : Bool} {body gap : List Char} (hbody : ¬['*', '/'] <:+: body) (hgap : Gap last gap) :
      Gap last ('/' :: '*' :: (body ++ ['*', '/']) ++ gap) := by
    have heq : '/' :: '*' :: (body ++ ['*', '/']) ++ gap = '/' :: '*' :: (body ++ '*' :: '/' :: gap) := by simp
    rw [heq]
    exact .block hbody hgap
  cases ht with
  | gap hgap =>
    refine .gap ?_
    rcases hcases with hblank | ⟨body, rfl, hbreak, hafter⟩ | ⟨body, rfl, hbody⟩
    · exact hgap.append hblank
    · refine .line hbreak hgap ?_
      cases after with
      | nil => exact Or.inr ⟨rfl, rfl⟩
      | cons d after => exact Or.inl (congrArg some (hafter d rfl))
    · exact hblock hbody hgap
  | @lexeme _ gap d ds rest token ls hgap hspace hrest =>
    have hgap' : Gap false (chars ++ gap) := by
      rcases hcases with hblank | ⟨body, rfl, hbreak, hafter⟩ | ⟨body, rfl, hbody⟩
      · exact hgap.append hblank
      · refine .line hbreak hgap (Or.inl ?_)
        -- The line break belongs to the gap, because no lexeme starts with it.
        cases gap with
        | nil =>
          obtain rfl := hafter d rfl
          cases hspace
        | cons e gap => exact congrArg some (hafter e rfl)
      · exact hblock hbody hgap
    have htiled := @Tiled.lexeme offset (chars ++ gap) d ds rest token ls hgap' hspace
    rw [byteLength_append, ← Nat.add_assoc, List.append_assoc, List.append_assoc, ← List.append_assoc gap] at htiled
    exact htiled hrest

/-- The lexemes of a text cover it, up to gaps. -/
theorem scanFrom_tiled (cs : List Char) : ∀ offset, Tiled offset cs (scanFrom offset cs) := by
  induction cs using scan_induction with
  | nil =>
    intro offset
    rw [scanFrom_nil]
    exact .gap .nil
  | cons c cs ih =>
    intro offset
    have hwhole : [] ++ (c :: cs.take ((headPiece c cs).2 - 1)) ++ cs.drop ((headPiece c cs).2 - 1) = c :: cs := by
      rw [List.nil_append, List.cons_append, List.take_append_drop]
    have hlexeme (hspace : isSpace c = false) (token : Option Token) :=
      hwhole ▸ @Tiled.lexeme offset [] c (cs.take ((headPiece c cs).2 - 1)) _ token _ .nil hspace
        (ih ((headPiece c cs).2 - 1) _)
    have hspace (h : (headPiece c cs).1 ≠ .separator) : isSpace c = false := by
      refine Bool.eq_false_iff.2 fun hspace => h ?_
      rw [headPiece, if_pos hspace]
    rw [scanFrom_cons]
    dsimp only
    cases hpiece : (headPiece c cs).1 with
    | separator => exact .separated hpiece (ih _ _)
    | token t => exact hlexeme (hspace (by rw [hpiece]; rintro ⟨⟩)) (some t)
    | invalid => exact hlexeme (hspace (by rw [hpiece]; rintro ⟨⟩)) none

/-- Lexemes that cover a text are not empty, and each one ends before the next one starts. -/
theorem Tiled.ordered {ls : List Lexeme} (h : Tiled offset cs ls) :
    (∀ l ∈ ls, offset ≤ l.start ∧ l.start < l.stop) ∧ ls.Pairwise (·.stop ≤ ·.start) := by
  induction h with
  | gap => exact ⟨nofun, .nil⟩
  | @lexeme offset gap c cs rest token ls _ _ _ ih =>
    obtain ⟨hplaces, hpairs⟩ := ih
    have hpos : 0 < byteLength (c :: cs) := Nat.add_pos_left c.utf8Size_pos _
    refine ⟨List.forall_mem_cons.2 ⟨⟨Nat.le_add_right _ _, Nat.lt_add_of_pos_right hpos⟩, fun l hl => ?_⟩,
      List.pairwise_cons.2 ⟨fun l hl => (hplaces l hl).1, hpairs⟩⟩
    exact ⟨(Nat.le_add_right _ _).trans ((Nat.le_add_right _ _).trans (hplaces l hl).1), (hplaces l hl).2⟩

/-- The text of a token of some text is that token by itself. -/
theorem scanFrom_single (cs : List Char) : ∀ offset, ∀ l ∈ scanFrom offset cs, ∀ t, l.token = some t →
    scanFrom 0 l.chars = [⟨some t, l.chars, 0, l.stop - l.start⟩] := by
  induction cs using scan_induction with
  | nil =>
    intro offset l hl
    rw [scanFrom_nil] at hl
    cases hl
  | cons c cs ih =>
    intro offset l hl t ht
    rw [scanFrom_cons] at hl
    rcases List.mem_append.1 hl with hl | hl
    · cases hpiece : (headPiece c cs).1 with
      | separator =>
        rw [hpiece] at hl
        cases hl
      | token t' =>
        rw [hpiece] at hl
        cases List.mem_singleton.1 hl
        cases ht
        rw [Nat.add_sub_cancel_left]
        exact scanFrom_alone hpiece
      | invalid =>
        rw [hpiece] at hl
        cases List.mem_singleton.1 hl
        cases ht
    · exact ih _ _ l hl t ht

end Gaps

end OpenQasm.Token
