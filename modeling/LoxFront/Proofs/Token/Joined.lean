import LoxFront.Proofs.Token.Spaces

/-!
# Texts joined by a newline

No comment reaches over a newline, and a text that can be split to its end leaves no string open.  So
behind such a text and a newline another text is split as it is by itself (`Splits.append_newline`).
Its tokens, or what is wrong with it, are the same as without the text in front, but for their lines,
which are further down (`scan_append_newline`).
-/

namespace LoxFront

/-- A token on a line further down. -/
def Token.down (n : Nat) (t : Token) : Token := { t with line := t.line + n }

/-- A place where no lexeme starts, on a line further down. -/
def LexicalError.down (n : Nat) (e : LexicalError) : LexicalError := { e with line := e.line + n }

namespace Lexical

variable {text : List Char}

/-! ### Splitting -/

/-- A newline behind the text does not make a piece longer that is the longest one in front. -/
theorem Longest.append_newline {p : Piece} (h : Longest text p) (hp : p.text <+: text)
    (rest : List Char) : Longest (text ++ '\n' :: rest) p := by
  obtain ⟨tail, rfl⟩ := hp
  obtain ⟨w, o⟩ := p
  dsimp only at h ⊢
  rw [List.append_assoc]
  have hpiece : IsPiece o w := h.1
  cases hpiece with
  | blank hc => exact longest_space (.inr hc) (.blank hc) _
  | comment hcs =>
    refine longest_comment hcs (.inr ?_)
    rcases newline_of_longest_comment h hcs with rfl | ⟨r, rfl⟩
    · exact ⟨rest, rfl⟩
    · exact ⟨r ++ '\n' :: rest, rfl⟩
  | lexeme _ => exact h.upToSpace fun u hu => prefix_of_append_space (.inl rfl) hu

/-- Behind a text that is split to its end, and a newline, splitting goes on as at the start. -/
theorem Splits.append_newline {end' rest tail : List Char} {ps qs : List Piece}
    (h : Splits text ps end') (hend : end' = []) (h' : Splits ('\n' :: rest) qs tail) :
    Splits (text ++ '\n' :: rest) (ps ++ qs) tail := by
  induction h with
  | nil => rwa [hend]
  | @cons p ps text _ hlong _ ih =>
    rw [List.append_assoc]
    refine .cons ?_ (ih hend)
    rw [← List.append_assoc]
    exact hlong.append_newline (List.prefix_append _ _) rest

/-! ### Tokens further down -/

theorem lineAfter_append_newline (as bs : List Char) :
    lineAfter (as ++ '\n' :: bs) = lineAfter bs + lineAfter as := by
  rw [lineAfter_append, List.count_cons_self]
  simp only [lineAfter]
  omega

theorem columnAfter_append_newline (as bs : List Char) :
    columnAfter (as ++ '\n' :: bs) = columnAfter bs := by
  rw [columnAfter, lineFront_append_newline, columnAfter]

theorem lineAround_append_newline (as bs rest : List Char) :
    lineAround (as ++ '\n' :: bs) rest = lineAround bs rest := by
  rw [lineAround, lineFront_append_newline, lineAround]

theorem endToken_append_newline (as bs : List Char) :
    endToken (as ++ '\n' :: bs) = (endToken bs).down (lineAfter as) := by
  rw [endToken, lineAfter_append_newline, columnAfter_append_newline, endToken, Token.down,
    Int.natCast_add]

theorem written_append (ps qs : List Piece) : written (ps ++ qs) = written ps ++ written qs :=
  List.flatMap_append

theorem tokensOf_append (before : List Char) (ps qs : List Piece) :
    tokensOf before (ps ++ qs) = tokensOf before ps ++ tokensOf (before ++ written ps) qs := by
  induction ps generalizing before with
  | nil => rw [written, List.flatMap_nil, List.append_nil]; rfl
  | cons p ps ih =>
    rw [List.cons_append, tokensOf, tokensOf, ih, List.append_assoc, List.append_assoc]
    rfl

theorem token?_append_newline (as bs : List Char) (p : Piece) :
    p.token? (as ++ '\n' :: bs) = (p.token? bs).map (Token.down (lineAfter as)) := by
  rw [Piece.token?, Piece.token?, Option.map_map, lineAfter_append_newline,
    columnAfter_append_newline]
  refine Option.map_congr fun x _ => ?_
  simp only [Function.comp, Token.down, Int.natCast_add]

theorem tokensOf_append_newline (as bs : List Char) (ps : List Piece) :
    tokensOf (as ++ '\n' :: bs) ps = (tokensOf bs ps).map (Token.down (lineAfter as)) := by
  induction ps generalizing bs with
  | nil => rfl
  | cons p ps ih =>
    rw [tokensOf, tokensOf, List.map_append, token?_append_newline, List.append_assoc,
      List.cons_append, ih]
    cases p.token? bs <;> rfl

/-- **Texts joined by a newline are read one after the other.**  Where the first of them is read, and
its end is on line `l` in column `c`, the joined text has its tokens without the end, then a newline
at this place, and then the tokens of the other text, `l` lines further down.  If the other text
cannot be read, the joined one cannot be read either, for the same reason: at the same column, and
with the same line of text, but `l` lines further down. -/
theorem scan_append_newline {a : List Char} {tokens : List Token} (h : Token.scan a = .ok tokens) :
    ∃ (front : List Token) (l c : Nat), tokens = front ++ [⟨.endOfInput, "", .nil, l, c⟩] ∧
      ∀ b : List Char, Token.scan (a ++ '\n' :: b) =
        match Token.scan b with
        | .ok others => .ok (front ++ ⟨.endOfLine, "\n", .nil, l, c⟩ :: others.map (Token.down l))
        | .error e => .error (e.down l) := by
  obtain ⟨ps, hps, htext, rfl⟩ := splits_of_scan h
  refine ⟨tokensOf [] ps, lineAfter a, columnAfter a, rfl, fun b => ?_⟩
  rw [List.nil_append] at htext
  obtain ⟨qs, rest, hqs, hend⟩ := exists_splits b
  -- the pieces of the joined text, and their characters
  let line : Piece := ⟨['\n'], some (.endOfLine, .nil)⟩
  have hline : Splits ('\n' :: b) (line :: qs) rest := .cons (longest_newline b) hqs
  have hall := hps.append_newline rfl hline
  have hwritten : written (ps ++ line :: qs) = a ++ '\n' :: written qs := by
    rw [written_append, htext]
    rfl
  have htokens : tokensOf [] (ps ++ line :: qs) =
      tokensOf [] ps ++ ⟨.endOfLine, "\n", .nil, lineAfter a, columnAfter a⟩ ::
        (tokensOf [] qs).map (Token.down (lineAfter a)) := by
    rw [tokensOf_append, List.nil_append, htext]
    exact congrArg _ (congrArg _ (tokensOf_append_newline a [] qs))
  rcases hend with rfl | hno
  · rw [scan_of_splits hall, scan_of_splits hqs, htokens, endToken_append_newline]
    simp only [List.append_assoc, List.cons_append, List.map_append, List.map_singleton]
  · obtain ⟨f, hf, hscan⟩ := scan_of_noPiece hqs hno
    obtain ⟨g, hg, hscan'⟩ := scan_of_noPiece hall hno
    rw [hscan, hscan', hwritten, hg.unique hf, lineAfter_append_newline, columnAfter_append_newline,
      lineAround_append_newline]
    rfl

/-- A text that ends with a comment, behind a point that belongs to no number, and behind it a text in
which a quote is left open. -/
theorem scan_append_newline_of_open_quote :
    let a := "1.//\x09".toList
    let b := "= \"\n".toList
    Token.scan a = .ok [⟨.number, "1", .number (.ofDigits ['1'] []), 1, 1⟩,
        ⟨.dot, ".", .nil, 1, 2⟩, ⟨.endOfInput, "", .nil, 1, 6⟩] ∧
      Token.scan b = .error ⟨.unterminatedString, 1, 3, "= \"".toList⟩ ∧
      Token.scan (a ++ '\n' :: b) = .error ⟨.unterminatedString, 2, 3, "= \"".toList⟩ := by
  intro a b
  have ha : Token.scan a = .ok [⟨.number, "1", .number (.ofDigits ['1'] []), 1, 1⟩,
      ⟨.dot, ".", .nil, 1, 2⟩, ⟨.endOfInput, "", .nil, 1, 6⟩] := by decide +kernel
  have hb : Token.scan b = .error ⟨.unterminatedString, 1, 3, "= \"".toList⟩ := by decide +kernel
  obtain ⟨front, l, c, hfront, hjoined⟩ := scan_append_newline ha
  -- the end of the first text is on its only line
  have hl : (1 : Int) = l := by
    have hlast := congrArg List.getLast? hfront
    rw [List.getLast?_concat] at hlast
    exact congrArg Token.line (Option.some.inj hlast)
  obtain rfl : l = 1 := by omega
  refine ⟨ha, hb, ?_⟩
  rw [hjoined b, hb]
  rfl

end Lexical

end LoxFront
