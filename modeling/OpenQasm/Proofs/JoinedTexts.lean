import OpenQasm.Proofs.Scanning
import OpenQasm.Grammar.Program

/-!
Texts that stand within a longer one. Where they stand as whole lines, their tokens and lines are those of the
longer text; positions only move by what stands before.
-/
namespace OpenQasm

/-- The position so many lines further down. -/
def Span.down (n : Nat) (s : Span) : Span := ⟨s.line + n, s.column⟩

/-- Where the last line of a text starts. -/
def lastLineStart (cs : List Char) : Nat := (laterLines 0 cs).getLast?.getD 0

/-- Where a position of a text is when another text stands before it. -/
def Span.after (before : List Char) (s : Span) : Span :=
  if s.line = 1 then ⟨1 + before.count '\n', byteLength before - lastLineStart before + s.column⟩
  else s.down (before.count '\n')

/-- A text with the offsets of its lines. -/
def Source.ofChars (cs : List Char) : Source := ⟨cs, laterLines 0 cs⟩

variable {offset n : Nat} {cs ds before after : List Char}

section Offsets

theorem byteLength_append (cs ds : List Char) : byteLength (cs ++ ds) = byteLength cs + byteLength ds := by
  induction cs with
  | nil => exact (Nat.zero_add _).symm
  | cons c cs ih => simp only [List.cons_append, byteLength, ih, Nat.add_assoc]

theorem dropBytes_append (cs ds : List Char) (n : Nat) :
    Source.dropBytes (byteLength cs + n) (cs ++ ds) = Source.dropBytes n ds := by
  induction cs with
  | nil => rw [byteLength, Nat.zero_add, List.nil_append]
  | cons c cs ih =>
    have hpos := c.utf8Size_pos
    have hdrop : byteLength (c :: cs) + n - c.utf8Size = byteLength cs + n := by
      rw [byteLength]
      omega
    rw [List.cons_append, Source.dropBytes, if_neg (by rw [byteLength]; omega), hdrop, ih]

theorem dropBytes_within (hn : n ≤ byteLength cs) :
    Source.dropBytes n (cs ++ ds) = Source.dropBytes n cs ++ ds := by
  induction cs generalizing n with
  | nil =>
    obtain rfl := Nat.le_zero.1 hn
    cases ds <;> rfl
  | cons c cs ih =>
    rw [List.cons_append, Source.dropBytes, Source.dropBytes]
    split
    · rfl
    · exact ih (by rw [byteLength] at hn; omega)

theorem laterLines_cons (offset : Nat) (c : Char) (cs : List Char) : laterLines offset (c :: cs) =
    if c = '\n' then (offset + c.utf8Size) :: laterLines (offset + c.utf8Size) cs
    else laterLines (offset + c.utf8Size) cs := rfl

theorem laterLines_append (cs ds : List Char) : ∀ offset,
    laterLines offset (cs ++ ds) = laterLines offset cs ++ laterLines (offset + byteLength cs) ds := by
  induction cs with
  | nil => exact fun _ => rfl
  | cons c cs ih =>
    intro offset
    simp only [List.cons_append, laterLines_cons, byteLength, ih, ← Nat.add_assoc]
    split <;> rfl

theorem laterLines_add (n : Nat) (cs : List Char) : ∀ offset,
    laterLines (n + offset) cs = (laterLines offset cs).map (n + ·) := by
  induction cs with
  | nil => exact fun _ => rfl
  | cons c cs ih =>
    intro offset
    simp only [laterLines_cons, Nat.add_assoc, ih]
    split <;> rfl

theorem length_laterLines (cs : List Char) : ∀ offset, (laterLines offset cs).length = cs.count '\n' := by
  induction cs with
  | nil => exact fun _ => rfl
  | cons c cs ih =>
    intro offset
    simp only [laterLines_cons, List.count_cons, beq_iff_eq]
    split <;> simp only [List.length_cons, ih, Nat.add_zero]

theorem mem_laterLines {x : Nat} (cs : List Char) : ∀ offset, x ∈ laterLines offset cs →
    offset < x ∧ x ≤ offset + byteLength cs := by
  induction cs with
  | nil => exact fun _ => nofun
  | cons c cs ih =>
    intro offset hx
    have hpos := c.utf8Size_pos
    rw [laterLines_cons] at hx
    rw [byteLength]
    split at hx
    · rcases List.mem_cons.1 hx with rfl | hx
      · omega
      · have := ih _ hx
        omega
    · have := ih _ hx
      omega

end Offsets

section Positions

variable {o line start y : Nat} {xs ys : List Nat}

theorem spanFrom_nil (o line start : Nat) : Source.spanFrom o line start [] = ⟨line, o - start + 1⟩ := rfl

theorem spanFrom_cons (o line start x : Nat) (xs : List Nat) : Source.spanFrom o line start (x :: xs) =
    if x ≤ o then Source.spanFrom o (line + 1) x xs else ⟨line, o - start + 1⟩ := rfl

/-- The lines that start before an offset are passed. -/
theorem spanFrom_pass (hxs : ∀ x ∈ xs, x ≤ o) : Source.spanFrom o line start (xs ++ ys) =
    Source.spanFrom o (line + xs.length) (xs.getLast?.getD start) ys := by
  induction xs generalizing line start with
  | nil => rfl
  | cons x xs ih =>
    rw [List.cons_append, spanFrom_cons, if_pos (hxs x List.mem_cons_self),
      ih fun z hz => hxs z (List.mem_cons_of_mem x hz), List.length_cons, List.getLast?_cons, Nat.add_assoc line 1,
      Nat.add_comm 1]
    rfl

/-- The lines that start behind an offset do not matter. -/
theorem spanFrom_append (hys : ∀ y ∈ ys.head?, o < y) :
    Source.spanFrom o line start (xs ++ ys) = Source.spanFrom o line start xs := by
  induction xs generalizing line start with
  | nil =>
    cases ys with
    | nil => rfl
    | cons y ys => exact if_neg (Nat.not_le.2 (hys y rfl))
  | cons x xs ih =>
    rw [List.cons_append, spanFrom_cons, spanFrom_cons, ih]

theorem spanFrom_add (n d : Nat) : Source.spanFrom (n + o) (line + d) (n + start) (xs.map (n + ·)) =
    (Source.spanFrom o line start xs).down d := by
  induction xs generalizing line start with
  | nil =>
    rw [List.map_nil, spanFrom_nil, spanFrom_nil, Nat.add_sub_add_left]
    rfl
  | cons x xs ih =>
    rw [List.map_cons, spanFrom_cons, spanFrom_cons, Nat.add_right_comm, ih]
    simp only [Nat.add_le_add_iff_left]
    split
    · rfl
    · rw [Nat.add_sub_add_left]
      rfl

theorem le_spanFrom_line : line ≤ (Source.spanFrom o line start xs).line := by
  induction xs generalizing line start with
  | nil => exact Nat.le_refl _
  | cons x xs ih =>
    rw [spanFrom_cons]
    split
    · exact Nat.le_trans (Nat.le_succ _) ih
    · exact Nat.le_refl _

theorem lastLineStart_le (cs : List Char) : lastLineStart cs ≤ byteLength cs := by
  unfold lastLineStart
  cases hlast : (laterLines 0 cs).getLast? with
  | none => exact Nat.zero_le _
  | some y =>
    have hmem := mem_laterLines cs 0 (List.mem_of_getLast? hlast)
    rw [Nat.zero_add] at hmem
    exact hmem.2

/-- Behind a text only the first line is not a line by itself. -/
theorem spanFrom_after (before : List Char) :
    Source.spanFrom (byteLength before + o) (1 + before.count '\n') (lastLineStart before)
      (xs.map (byteLength before + ·)) = (Source.spanFrom o 1 0 xs).after before := by
  have hle := lastLineStart_le before
  have hfirst : (⟨1 + before.count '\n', byteLength before + o - lastLineStart before + 1⟩ : Span) =
      Span.after before ⟨1, o - 0 + 1⟩ := by
    rw [Span.after, if_pos rfl]
    exact congrArg (Span.mk _) (by dsimp only; omega)
  cases xs with
  | nil => exact hfirst
  | cons x xs =>
    rw [List.map_cons, spanFrom_cons, spanFrom_cons]
    simp only [Nat.add_le_add_iff_left]
    split
    · have hlater : (Source.spanFrom o (1 + 1) x xs).line ≠ 1 := Nat.ne_of_gt le_spanFrom_line
      rw [Span.after, if_neg hlater, Nat.add_right_comm]
      exact spanFrom_add _ _
    · exact hfirst

theorem spanAt_within (ho : o ≤ byteLength cs) :
    (Source.ofChars (before ++ cs ++ after)).spanAt (byteLength before + o) =
      ((Source.ofChars cs).spanAt o).after before := by
  have hlines : laterLines 0 (before ++ cs ++ after) = laterLines 0 before ++
      ((laterLines 0 cs).map (byteLength before + ·) ++ laterLines (byteLength before + byteLength cs) after) := by
    rw [laterLines_append, laterLines_append, List.append_assoc, byteLength_append, Nat.zero_add, Nat.zero_add,
      ← laterLines_add, Nat.add_zero]
  have hbefore (x : Nat) (hx : x ∈ laterLines 0 before) : x ≤ byteLength before + o := by
    have hmem := mem_laterLines before 0 hx
    omega
  have hafter (y : Nat) (hy : y ∈ (laterLines (byteLength before + byteLength cs) after).head?) :
      byteLength before + o < y := by
    have hmem := mem_laterLines after _ (List.mem_of_mem_head? hy)
    omega
  show Source.spanFrom _ 1 0 (laterLines 0 (before ++ cs ++ after)) = _
  rw [hlines, spanFrom_pass hbefore, length_laterLines, spanFrom_append hafter]
  exact spanFrom_after before

/-- Behind whole lines every line is a line by itself. -/
theorem after_lines (ds : List Char) (s : Span) :
    s.after (ds ++ ['\n']) = s.down (ds.count '\n' + 1) := by
  have hlast : lastLineStart (ds ++ ['\n']) = byteLength (ds ++ ['\n']) := by
    have hlines : laterLines 0 (ds ++ ['\n']) = laterLines 0 ds ++ [byteLength (ds ++ ['\n'])] := by
      rw [laterLines_append, byteLength_append, Nat.zero_add]
      rfl
    rw [lastLineStart, hlines, List.getLast?_concat]
    rfl
  rw [Span.after, hlast, Nat.sub_self, Nat.zero_add, List.count_append, List.count_singleton_self]
  split
  · next hline =>
    rw [Span.down, hline]
  · rfl

/-- Behind nothing every position is where it was. -/
theorem after_nil (s : Span) : s.after [] = s := by
  rw [Span.after]
  split
  · next hline =>
    rw [List.count_nil, byteLength, Nat.zero_sub, Nat.zero_add, ← hline]
    rfl
  · rfl

/-- A position in a text of one line. -/
theorem spanAt_line (h : '\n' ∉ cs) (offset : Nat) : (Source.ofChars cs).spanAt offset = ⟨1, offset + 1⟩ := by
  have hlines : laterLines 0 cs = [] := by
    rw [← List.length_eq_zero_iff, length_laterLines, List.count_eq_zero.2 h]
  show Source.spanFrom offset 1 0 (laterLines 0 cs) = _
  rw [hlines]
  rfl

theorem lineRest_within (ho : o ≤ byteLength cs) (hafter : ∀ c ∈ after.head?, c = '\n') :
    (Source.ofChars (before ++ cs ++ after)).lineRest (byteLength before + o) =
      (Source.ofChars cs).lineRest o := by
  show (Source.dropBytes _ (before ++ cs ++ after)).takeWhile _ = (Source.dropBytes o cs).takeWhile _
  rw [List.append_assoc, dropBytes_append, dropBytes_within ho]
  exact Token.takeWhile_append_stop fun c hc => decide_eq_false (Decidable.not_not.2 (hafter c hc))

end Positions

section Lengths

namespace Token

theorem takeWhile_length_le (p : Char → Bool) (cs : List Char) : (cs.takeWhile p).length ≤ cs.length :=
  (List.takeWhile_sublist p).length_le

theorem afterPoint_length (cs : List Char) : (if (afterPoint cs).1 then 1 else 0) + (afterPoint cs).2.1.length +
    (afterPoint cs).2.2.length = cs.length := by
  unfold afterPoint
  split
  · next r =>
    have hlength := congrArg List.length (List.takeWhile_append_dropWhile (p := Decimal.isDigit) (l := r))
    rw [List.length_append] at hlength
    simp only [if_true, List.length_cons]
    omega
  · simp

theorem unit?_length {u : TimeUnit} (h : unit? cs = some (u, n)) : n ≤ cs.length := by
  unfold unit? at h
  split at h <;> cases h <;> simp only [List.length_cons] <;> omega

theorem startsIm_length (h : startsIm cs = true) : 2 ≤ cs.length := by
  unfold startsIm at h
  split at h
  · exact Nat.le_add_left 2 _
  · nomatch h

theorem decimal_length_le (cs : List Char) : (decimal cs).2 ≤ cs.length := by
  have hsize := afterPoint_length (cs.drop (cs.takeWhile Decimal.isDigit).length)
  have hwhole := takeWhile_length_le Decimal.isDigit cs
  rw [List.length_drop] at hsize
  rw [decimal_eq]
  dsimp only
  generalize afterPoint (cs.drop (cs.takeWhile Decimal.isDigit).length) = r at hsize ⊢
  obtain ⟨pointed, fraction, tail⟩ := r
  dsimp only at hsize ⊢
  cases hunit : unit? tail with
  | some u =>
    have hlength := unit?_length hunit
    dsimp only
    omega
  | none =>
    have hle : ((Decimal.exponentPart tail).getD (0, 0)).2 ≤ tail.length := by
      cases he : Decimal.exponentPart tail with
      | none => exact Nat.zero_le _
      | some r => exact exponentPart_le he
    dsimp only
    rw [match_im]
    split
    · next him =>
      have hlength := startsIm_length him
      rw [List.length_drop] at hlength
      dsimp only
      omega
    · split <;> dsimp only <;> omega

theorem number_length_le (cs : List Char) : (number cs).2 ≤ cs.length := by
  unfold number
  split
  · next x cs =>
    dsimp only
    split
    · exact Nat.add_le_add_right (takeWhile_length_le (Digits.isDigit 16) cs) 2
    · split
      · exact Nat.add_le_add_right (takeWhile_length_le (Digits.isDigit 2) cs) 2
      · exact decimal_length_le _
  · exact decimal_length_le _

theorem ofPair?_length {a b : Char} {s : Punctuation} (h : Punctuation.ofPair? a b = some s) :
    s.text.length = 2 := by
  unfold Punctuation.ofPair? at h
  split at h <;> cases h <;> rfl

theorem ofChar?_length {a : Char} {s : Punctuation} (h : Punctuation.ofChar? a = some s) :
    s.text.length = 1 := by
  unfold Punctuation.ofChar? at h
  split at h <;> cases h <;> rfl

theorem scan?_length_le {s : Punctuation} (h : Punctuation.scan? cs = some s) : s.text.length ≤ cs.length := by
  match cs with
  | [] => nomatch h
  | [a] => exact Nat.le_of_eq (ofChar?_length h)
  | a :: b :: cs =>
    rcases Option.or_eq_some_iff.1 h with hpair | ⟨-, hchar⟩
    · rw [ofPair?_length hpair]
      exact Nat.le_add_left 2 _
    · rw [ofChar?_length hchar]
      exact Nat.le_add_left 1 _

theorem numberOrPunctuation_length_le (c : Char) (cs : List Char) :
    (numberOrPunctuation c cs).2 ≤ cs.length + 1 := by
  unfold numberOrPunctuation
  dsimp only
  split
  · exact number_length_le (c :: cs)
  · split
    · next hs => exact scan?_length_le hs
    · split <;> exact Nat.le_add_left 1 _

theorem commentLength?_le (h : commentLength? cs = some n) : n ≤ cs.length := by
  induction cs generalizing n with
  | nil => nomatch h
  | cons c cs ih =>
    unfold commentLength? at h
    split at h
    · next heq =>
      cases heq
      cases h
      exact Nat.le_add_left 2 _
    · next heq =>
      cases heq
      obtain ⟨m, hm, rfl⟩ := Option.map_eq_some_iff.1 h
      exact Nat.succ_le_succ (ih hm)
    · next heq => nomatch heq

/-- No piece covers more than the text. -/
theorem headPiece_length_le (c : Char) (cs : List Char) : (headPiece c cs).2 ≤ cs.length + 1 := by
  unfold headPiece
  dsimp only
  split
  · rw [Nat.add_comm]
    exact Nat.succ_le_succ (takeWhile_length_le _ _)
  split
  · exact Nat.succ_le_succ (takeWhile_length_le _ _)
  split
  · split
    · next hclosed => exact Nat.succ_le_succ hclosed
    · exact Nat.le_of_eq (Nat.add_comm 1 _)
  split
  · next hhash =>
    have hword := (List.isPrefixOf_iff_prefix.1 (Bool.and_eq_true_iff.1 hhash).2).length_le
    have hbody := takeWhile_length_le (· ≠ '\n') (cs.drop pragmaWord.length)
    rw [List.length_drop] at hbody
    dsimp only
    omega
  split
  · rw [Nat.add_comm]
    exact Nat.succ_le_succ (takeWhile_length_le _ _)
  split
  · next hstar =>
    obtain ⟨ds, rfl⟩ := List.head?_eq_some_iff.1 (of_decide_eq_true (Bool.and_eq_true_iff.1 hstar).2)
    rw [List.tail_cons]
    split
    · next hclosed =>
      have hle := commentLength?_le hclosed
      simp only [List.length_cons]
      omega
    · exact Nat.le_of_eq (Nat.add_comm 1 _)
  · exact numberOrPunctuation_length_le c cs

end Token

end Lengths

section Lexemes

namespace Token

/-- The lexeme that a piece is, if it is one. -/
def Piece.lexeme? (p : Piece) (chars : List Char) (start stop : Nat) : Option Lexeme :=
  match p with
  | .separator => none
  | .token t => some ⟨some t, chars, start, stop⟩
  | .invalid => some ⟨none, chars, start, stop⟩

theorem scanFrom_cons (offset : Nat) (c : Char) (cs : List Char) : scanFrom offset (c :: cs) =
    let n := (headPiece c cs).2 - 1
    let stop := offset + byteLength (c :: cs.take n)
    ((headPiece c cs).1.lexeme? (c :: cs.take n) offset stop).toList ++ scanFrom stop (cs.drop n) := by
  rw [scanFrom]
  rcases headPiece c cs with ⟨piece, n⟩
  cases piece <;> rfl

/-- The texts that scanning goes on with are shorter. -/
theorem scan_induction {motive : List Char → Prop} (nil : motive [])
    (cons : ∀ c cs, (∀ n, motive (cs.drop n)) → motive (c :: cs)) (cs : List Char) : motive cs := by
  suffices h : ∀ k, ∀ ds : List Char, ds.length ≤ k → motive ds from h cs.length cs (Nat.le_refl _)
  intro k
  induction k with
  | zero =>
    intro ds hds
    rwa [List.length_eq_zero_iff.1 (Nat.le_zero.1 hds)]
  | succ k ih =>
    intro ds hds
    cases ds with
    | nil => exact nil
    | cons c ds =>
      refine cons c ds fun n => ih _ ?_
      rw [List.length_drop]
      rw [List.length_cons] at hds
      omega

theorem scanFrom_add (n : Nat) (cs : List Char) : ∀ offset,
    scanFrom (n + offset) cs = (scanFrom offset cs).map fun l => ⟨l.token, l.chars, n + l.start, n + l.stop⟩ := by
  induction cs using scan_induction with
  | nil => exact fun offset => by rw [scanFrom_nil, scanFrom_nil, List.map_nil]
  | cons c cs ih =>
    intro offset
    rw [scanFrom_cons, scanFrom_cons]
    dsimp only
    rw [Nat.add_assoc, ih, List.map_append]
    cases (headPiece c cs).1 <;> rfl

theorem byteLength_take_drop (n : Nat) (cs : List Char) :
    byteLength (cs.take n) + byteLength (cs.drop n) = byteLength cs := by
  rw [← byteLength_append, List.take_append_drop]

/-- A lexeme lies within the text. -/
theorem scanFrom_inside (cs : List Char) : ∀ offset, ∀ l ∈ scanFrom offset cs,
    offset ≤ l.start ∧ l.start ≤ l.stop ∧ l.stop ≤ offset + byteLength cs := by
  induction cs using scan_induction with
  | nil =>
    intro offset l hl
    rw [scanFrom_nil] at hl
    cases hl
  | cons c cs ih =>
    intro offset l hl
    rw [scanFrom_cons] at hl
    have hbytes := byteLength_take_drop ((headPiece c cs).2 - 1) cs
    simp only [byteLength] at hl ⊢
    rcases List.mem_append.1 hl with hl | hl
    · have hplace : l.start = offset ∧
          l.stop = offset + (c.utf8Size + byteLength (cs.take ((headPiece c cs).2 - 1))) := by
        cases hp : (headPiece c cs).1 <;> rw [hp] at hl
        · cases hl
        · cases List.mem_singleton.1 hl
          exact ⟨rfl, rfl⟩
        · cases List.mem_singleton.1 hl
          exact ⟨rfl, rfl⟩
      omega
    · have hmem := ih _ _ l hl
      omega

/-- Lines whose lexemes are valid are scanned by themselves. -/
theorem scanFrom_lines (hafter : ∀ c ∈ after.head?, c = '\n') (cs : List Char) : ∀ offset,
    (∀ l ∈ scanFrom offset cs, l.token ≠ none) →
      scanFrom offset (cs ++ after) = scanFrom offset cs ++ scanFrom (offset + byteLength cs) after := by
  induction cs using scan_induction with
  | nil => exact fun offset _ => by rw [scanFrom_nil]; rfl
  | cons c cs ih =>
    intro offset hvalid
    rw [List.cons_append]
    cases hblank : isSpace c with
    | true =>
      rw [scanFrom_cons_blank hblank] at hvalid ⊢
      have hrest := ih 0 _ hvalid
      rw [List.drop_zero] at hrest
      rw [scanFrom_cons_blank hblank, hrest, byteLength, Nat.add_assoc]
    | false =>
      rw [scanFrom_cons] at hvalid
      obtain ⟨hhead, htail⟩ := List.forall_mem_append.1 hvalid
      have hpiece : headPiece c (cs ++ after) = headPiece c cs := by
        refine headPiece_append hblank (fun hinvalid => ?_) (fun d hd => ?_) fun _ => hafter
        · rw [hinvalid] at hhead
          exact hhead _ (List.mem_singleton_self _) rfl
        · rw [hafter d hd]
          rfl
      have hlength : (headPiece c cs).2 - 1 ≤ cs.length := Nat.sub_le_iff_le_add.2 (headPiece_length_le c cs)
      rw [scanFrom_cons, scanFrom_cons, hpiece]
      dsimp only
      rw [List.take_append_of_le_length hlength, List.drop_append_of_le_length hlength, ih _ _ htail,
        List.append_assoc, Nat.add_assoc offset, ← byteLength_append, List.cons_append, List.take_append_drop]

/-- The lexemes stand in order. -/
theorem scanFrom_sorted (cs : List Char) : ∀ offset, (scanFrom offset cs).Pairwise (·.start ≤ ·.start) := by
  induction cs using scan_induction with
  | nil =>
    intro offset
    rw [scanFrom_nil]
    exact .nil
  | cons c cs ih =>
    intro offset
    rw [scanFrom_cons]
    dsimp only
    refine List.pairwise_append.2 ⟨?_, ih _ _, fun l hl l' hl' => ?_⟩
    · cases (headPiece c cs).1 <;> simp [Piece.lexeme?]
    · have hle := (scanFrom_inside _ _ l' hl').1
      have hstart : l.start = offset := by
        cases hp : (headPiece c cs).1 <;> rw [hp] at hl <;> cases hl <;> first | rfl | contradiction
      omega

end Token

end Lexemes

section Tokens

/-- The tokens of some lexemes. -/
def placedTokens (ls : List Lexeme) : List PlacedToken :=
  ls.filterMap fun l => l.token.map fun t => ⟨t, l.start, l.stop⟩

/-- The tokens of a text that starts at an offset. -/
def tokensFrom (offset : Nat) (cs : List Char) : List PlacedToken := placedTokens (Token.scanFrom offset cs)

/-- Every lexeme of the text is a token. -/
def LexicallyValid (cs : List Char) : Prop := ∀ l ∈ Token.scanFrom 0 cs, l.token ≠ none

theorem LexicallyValid.from (h : LexicallyValid cs) (offset : Nat) :
    ∀ l ∈ Token.scanFrom offset cs, l.token ≠ none := by
  have hshift := Token.scanFrom_add offset cs 0
  rw [Nat.add_zero] at hshift
  rw [hshift]
  intro l hl
  obtain ⟨l', hl', rfl⟩ := List.mem_map.1 hl
  exact h l' hl'

theorem tokensFrom_inside {t : PlacedToken} (ht : t ∈ tokensFrom offset cs) :
    offset ≤ t.start ∧ t.start ≤ t.stop ∧ t.stop ≤ offset + byteLength cs := by
  obtain ⟨l, hl, hlt⟩ := List.mem_filterMap.1 ht
  obtain ⟨token, -, rfl⟩ := Option.map_eq_some_iff.1 hlt
  exact Token.scanFrom_inside cs offset l hl

theorem tokensFrom_sorted (offset : Nat) (cs : List Char) :
    (tokensFrom offset cs).Pairwise (·.start ≤ ·.start) := by
  refine List.Pairwise.filterMap _ (fun l l' hle t ht t' ht' => ?_) (Token.scanFrom_sorted cs offset)
  obtain ⟨token, -, rfl⟩ := Option.map_eq_some_iff.1 ht
  obtain ⟨token', -, rfl⟩ := Option.map_eq_some_iff.1 ht'
  exact hle

theorem tokensFrom_break (offset : Nat) (cs : List Char) :
    tokensFrom offset ('\n' :: cs) = tokensFrom (offset + 1) cs :=
  congrArg placedTokens (Token.scanFrom_cons_blank rfl offset cs)

theorem tokensFrom_shift (offset : Nat) (cs : List Char) : tokensFrom offset cs =
    (tokensFrom 0 cs).map fun t => ⟨t.token, offset + t.start, offset + t.stop⟩ := by
  have hshift := Token.scanFrom_add offset cs 0
  rw [Nat.add_zero] at hshift
  unfold tokensFrom
  rw [hshift]
  unfold placedTokens
  rw [List.filterMap_map, List.map_filterMap]
  congr 1
  funext l
  simp only [Function.comp_apply, Option.map_map]
  rfl

theorem tokensFrom_head (offset : Nat) (cs : List Char) :
    (tokensFrom offset cs).head?.map PlacedToken.token = (tokensFrom 0 cs).head?.map PlacedToken.token := by
  rw [tokensFrom_shift, List.head?_map, Option.map_map]
  rfl

/-- Together the two texts are cut into the lexemes that they are cut into by themselves. -/
def CutBetween (cs ds : List Char) : Prop :=
  Token.scanFrom 0 (cs ++ ds) = Token.scanFrom 0 cs ++ Token.scanFrom (byteLength cs) ds

/-- A line break cuts valid texts. -/
theorem cutBetween_of_break (h : LexicallyValid cs) (hds : ∀ c ∈ ds.head?, c = '\n') : CutBetween cs ds := by
  have hlines := Token.scanFrom_lines hds cs 0 h
  rwa [Nat.zero_add] at hlines

theorem head?_break (ds : List Char) : ∀ c ∈ ('\n' :: ds).head?, c = '\n' := fun _ hc =>
  (Option.some.inj hc).symm

theorem LexicallyValid.of_cut (h : LexicallyValid cs) (h' : LexicallyValid ds) (hcut : CutBetween cs ds) :
    LexicallyValid (cs ++ ds) := by
  intro l hl
  rw [hcut] at hl
  rcases List.mem_append.1 hl with hl | hl
  · exact h l hl
  · exact h'.from _ l hl

theorem tokensFrom_cut (hcut : CutBetween cs ds) :
    tokensFrom 0 (cs ++ ds) = tokensFrom 0 cs ++ tokensFrom (byteLength cs) ds := by
  unfold tokensFrom placedTokens
  rw [hcut, List.filterMap_append]

theorem LexicallyValid.append (h : LexicallyValid cs) (h' : LexicallyValid ds) :
    LexicallyValid (cs ++ '\n' :: ds) := by
  refine h.of_cut (fun l hl => ?_) (cutBetween_of_break h (head?_break ds))
  rw [Token.scanFrom_cons_blank rfl] at hl
  exact h'.from _ l hl

/-- Lines are read one after another. -/
theorem tokensFrom_lines (h : LexicallyValid cs) (offset : Nat) (ds : List Char) :
    tokensFrom offset (cs ++ '\n' :: ds) =
      tokensFrom offset cs ++ tokensFrom (offset + byteLength cs + 1) ds := by
  rw [← tokensFrom_break]
  unfold tokensFrom placedTokens
  rw [Token.scanFrom_lines (head?_break ds) cs offset (h.from offset), List.filterMap_append]

theorem LexicallyValid.of_cursor (h : (Grammar.cursor (.ofChars cs)).errors = []) : LexicallyValid cs := by
  intro l hl hnone
  have hnil : (Token.scanFrom 0 cs).filter (·.token.isNone) = [] := List.map_eq_nil_iff.1 h
  exact List.filter_eq_nil_iff.1 hnil l hl (Option.isNone_iff_eq_none.2 hnone)

theorem LexicallyValid.cursor_eq (h : LexicallyValid cs) :
    Grammar.cursor (.ofChars cs) = .start (tokensFrom 0 cs) [] := by
  have hnone : (Token.scanFrom 0 cs).filter (·.token.isNone) = [] :=
    List.filter_eq_nil_iff.2 fun l hl hnone => h l hl (Option.isNone_iff_eq_none.1 hnone)
  show Cursor.start (tokensFrom 0 cs) (((Token.scanFrom 0 cs).filter (·.token.isNone)).map _) = _
  rw [hnone]
  rfl

end Tokens

end OpenQasm
