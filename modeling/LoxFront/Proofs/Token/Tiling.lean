import LoxFront.Proofs.Token.Stream

/-!
# Nothing is lost

The lexemes of a text and the gaps between them cover it from its start to its end (`Tiles`): each
lexeme stands at an offset of its own, the gap in front of it begins where the lexeme before ends, and
the end of the input is at the end of the text.  A gap has nothing in it but blanks and comments, and
a comment in it runs up to a newline or to the end (`IsGap`).

Lines and columns are counted from the offset of a token: the line from the newlines in front of it,
the column from the start of the line (`StandsAt`).  So a text is its tokens up to blanks and comments,
and every token knows where it is (`tokens_tile_their_text`).
-/

namespace LoxFront.Lexical

/-! ### Gaps -/

/-- Characters between lexemes, and those behind them: blanks, and perhaps a comment, which runs up to
a newline or the end of the text. -/
inductive IsGap : List Char → List Char → Prop
  | nil (after : List Char) : IsGap [] after
  | blank {c : Char} {w after : List Char} : IsBlank c → IsGap w after → IsGap (c :: w) after
  | comment {cs after : List Char} : '\n' ∉ cs → (after = [] ∨ ∃ r, after = '\n' :: r) →
      IsGap ('/' :: '/' :: cs) after

/-- From one offset of a text up to another one there is a gap. -/
def GapBetween (text : List Char) (i j : Nat) : Prop :=
  ∃ before w after, text = before ++ (w ++ after) ∧ before.length = i ∧ i + w.length = j ∧
    IsGap w after

/-- In front of a newline, or at the end, a gap is over. -/
theorem IsGap.eq_nil {w after : List Char} (h : IsGap w after)
    (hw : w ++ after = [] ∨ ∃ r, w ++ after = '\n' :: r) : w = [] := by
  cases h with
  | nil => rfl
  | blank hc _ =>
    rcases hw with hw | ⟨r, hw⟩
    · cases hw
    · obtain rfl := (List.cons.inj hw).1
      rcases hc with hc | hc | hc <;> cases hc
  | comment _ _ => rcases hw with hw | ⟨r, hw⟩ <;> cases hw

theorem GapBetween.refl (before rest : List Char) :
    GapBetween (before ++ rest) before.length before.length :=
  ⟨before, [], rest, rfl, rfl, rfl, .nil rest⟩

theorem GapBetween.le {text : List Char} {i j : Nat} (h : GapBetween text i j) : i ≤ j := by
  obtain ⟨_, w, _, -, -, hj, -⟩ := h
  omega

/-- What follows in a text that begins with certain characters, as far as the next gap goes. -/
theorem GapBetween.behind {before rest : List Char} {j : Nat}
    (h : GapBetween (before ++ rest) before.length j) :
    ∃ w after, rest = w ++ after ∧ before.length + w.length = j ∧ IsGap w after := by
  obtain ⟨before', w, after, htext, hi, hj, hgap⟩ := h
  obtain ⟨rfl, rfl⟩ := List.append_inj htext hi.symm
  exact ⟨w, after, rfl, hj, hgap⟩

/-- One more blank in front of a gap. -/
theorem GapBetween.blank {before rest : List Char} {c : Char} {j : Nat} (hc : IsBlank c)
    (h : GapBetween (before ++ [c] ++ rest) (before ++ [c]).length j) :
    GapBetween (before ++ [c] ++ rest) before.length j := by
  obtain ⟨w, after, rfl, rfl, hgap⟩ := h.behind
  refine ⟨before, c :: w, after, ?_, rfl, ?_, .blank hc hgap⟩
  · simp only [List.append_assoc, List.cons_append, List.nil_append]
  · simp only [List.length_append, List.length_cons, List.length_nil]
    omega

/-- One more comment in front of a gap, which is empty then. -/
theorem GapBetween.comment {before rest cs : List Char} {j : Nat} (hcs : '\n' ∉ cs)
    (hrest : rest = [] ∨ ∃ r, rest = '\n' :: r)
    (h : GapBetween (before ++ '/' :: '/' :: cs ++ rest) (before ++ '/' :: '/' :: cs).length j) :
    GapBetween (before ++ '/' :: '/' :: cs ++ rest) before.length j := by
  obtain ⟨w, after, rfl, rfl, hgap⟩ := h.behind
  obtain rfl := hgap.eq_nil hrest
  refine ⟨before, '/' :: '/' :: cs, after, ?_, rfl, ?_, .comment hcs hrest⟩
  · simp only [List.append_assoc, List.nil_append]
  · simp only [List.length_append, List.length_nil, Nat.add_zero]

/-! ### Offsets -/

/-- The line of an offset starts at another one: at the start of the text or behind a newline, with no
newline between the two. -/
structure LineStart (text : List Char) (i o : Nat) : Prop where
  le : i ≤ o
  behind : i = 0 ∨ text[i - 1]? = some '\n'
  newest : '\n' ∉ (text.take o).drop i

/-- A token stands at an offset of a text: there is its lexeme, its line is the number of newlines in
front, and its column is counted from the start of the line. -/
structure StandsAt (text : List Char) (o : Nat) (t : Token) : Prop where
  lexeme : (text.drop o).take t.lexeme.length = t.lexeme.toList
  line : t.line = 1 + (text.take o).count '\n'
  column : ∃ i, LineStart text i o ∧ t.column = 1 + (o : Int) - i

/-- The characters in front of a place end with those of its line, behind a newline if there is one. -/
theorem exists_append_lineFront (before : List Char) :
    ∃ above, before = above ++ lineFront before ∧ (above = [] ∨ ∃ l, above = l ++ ['\n']) := by
  induction before using List.reverseRecOn with
  | nil => exact ⟨[], rfl, .inl rfl⟩
  | append_singleton before c ih =>
    by_cases hc : c = '\n'
    · subst hc
      exact ⟨before ++ ['\n'], by rw [lineFront_newline, List.append_nil], .inr ⟨before, rfl⟩⟩
    · obtain ⟨above, hbefore, habove⟩ := ih
      have hmem : '\n' ∉ [c] := by simpa using Ne.symm hc
      refine ⟨above, ?_, habove⟩
      rw [lineFront_append hmem, ← List.append_assoc, ← hbefore]

theorem length_lineFront_le (before : List Char) : (lineFront before).length ≤ before.length := by
  obtain ⟨above, hbefore, -⟩ := exists_append_lineFront before
  have hlength := congrArg List.length hbefore
  rw [List.length_append] at hlength
  omega

/-- The line of a place starts where its characters begin. -/
theorem lineStart_append (before rest : List Char) :
    LineStart (before ++ rest) (before.length - (lineFront before).length) before.length := by
  obtain ⟨above, hbefore, habove⟩ := exists_append_lineFront before
  have hlength := congrArg List.length hbefore
  rw [List.length_append] at hlength
  have hstart : before.length - (lineFront before).length = above.length := by omega
  rw [hstart]
  refine ⟨by omega, ?_, ?_⟩
  · rcases habove with rfl | ⟨l, rfl⟩
    · exact .inl rfl
    · refine .inr ?_
      rw [hbefore]
      simp
  · rw [List.take_left, hbefore, List.drop_left]
    exact newline_notMem_lineFront before

/-- A token with the characters, the line and the column of a place stands there. -/
theorem standsAt_append {t : Token} {before w after : List Char}
    (hlexeme : t.lexeme = String.ofList w) (hline : t.line = lineAfter before)
    (hcolumn : t.column = columnAfter before) :
    StandsAt (before ++ (w ++ after)) before.length t := by
  refine ⟨?_, ?_, _, lineStart_append before (w ++ after), ?_⟩
  · rw [hlexeme, String.length_ofList, String.toList_ofList, List.drop_left, List.take_left]
  · rw [hline, List.take_left, lineAfter]
    omega
  · have hle := length_lineFront_le before
    rw [hcolumn, columnAfter]
    omega

/-! ### Tilings -/

/-- From an offset on, a text is made of the lexemes of some tokens at their offsets, with gaps in
front of each.  The last token is the end of the input, at the end of the text. -/
inductive Tiles (text : List Char) : Nat → List (Nat × Token) → Prop
  | last {n : Nat} {t : Token} : GapBetween text n text.length → StandsAt text text.length t →
      t.kind = .endOfInput → t.lexeme = "" → Tiles text n [(text.length, t)]
  | cons {n o : Nat} {t : Token} {rest : List (Nat × Token)} : GapBetween text n o →
      StandsAt text o t → t.kind ≠ .endOfInput → 0 < t.lexeme.length →
        Tiles text (o + t.lexeme.length) rest → Tiles text n ((o, t) :: rest)

namespace Tiles

variable {text : List Char} {m n : Nat} {placed : List (Nat × Token)}

theorem le_offset (h : Tiles text n placed) : ∀ p ∈ placed, n ≤ p.1 := by
  induction h with
  | last hgap _ _ _ => exact List.forall_mem_singleton.2 hgap.le
  | cons hgap _ _ _ _ ih =>
    have hle := hgap.le
    exact List.forall_mem_cons.2 ⟨hle, fun p hp => by have := ih p hp; omega⟩

/-- Offsets grow from token to token. -/
theorem increasing (h : Tiles text n placed) : (placed.map Prod.fst).Pairwise (· < ·) := by
  induction h with
  | last => exact List.pairwise_singleton _ _
  | cons _ _ _ hpos hrest ih =>
    refine List.pairwise_cons.2 ⟨fun o ho => ?_, ih⟩
    obtain ⟨p, hp, rfl⟩ := List.mem_map.1 ho
    have := hrest.le_offset p hp
    omega

/-- Only the first gap depends on where the tiling begins. -/
theorem of_gap (h : Tiles text m placed) (hgap : ∀ j, GapBetween text m j → GapBetween text n j) :
    Tiles text n placed := by
  cases h with
  | last hm hs hk hl => exact .last (hgap _ hm) hs hk hl
  | cons hm hs hk hl hrest => exact .cons (hgap _ hm) hs hk hl hrest

end Tiles

/-- The tokens of some pieces tile what these are the pieces of. -/
theorem tiles_of_splits {text rest : List Char} {ps : List Piece} (h : Splits text ps rest)
    (hrest : rest = []) (before : List Char) :
    ∃ placed, placed.map Prod.snd = tokensOf before ps ++ [endToken (before ++ written ps)] ∧
      Tiles (before ++ text) before.length placed := by
  induction h generalizing before with
  | nil text =>
    subst hrest
    have hstands : StandsAt (before ++ ([] ++ [])) before.length (endToken before) :=
      standsAt_append rfl rfl rfl
    have hgap := GapBetween.refl before []
    simp only [List.append_nil] at hstands hgap ⊢
    exact ⟨[(before.length, endToken before)], by simp [tokensOf, written], .last hgap hstands rfl rfl⟩
  | @cons p ps text rest hlong _ ih =>
    obtain ⟨placed, hplaced, htiles⟩ := ih hrest (before ++ p.text)
    have hwritten : before ++ written (p :: ps) = before ++ p.text ++ written ps := by
      rw [written, List.flatMap_cons, List.append_assoc]
      rfl
    have htext : before ++ (p.text ++ text) = before ++ p.text ++ text :=
      (List.append_assoc _ _ _).symm
    rw [hwritten, htext]
    obtain ⟨w, o⟩ := p
    dsimp only at hlong hplaced htiles ⊢
    have hpiece : IsPiece o w := hlong.1
    cases hpiece with
    | @blank c hc => exact ⟨placed, hplaced, htiles.of_gap fun j => .blank hc⟩
    | @comment cs hcs =>
      have hnext := newline_of_longest_comment hlong hcs
      exact ⟨placed, hplaced, htiles.of_gap fun j => .comment hcs hnext⟩
    | @lexeme k _ v hlex =>
      let t : Token := ⟨k, String.ofList w, v, lineAfter before, columnAfter before⟩
      have hlength : t.lexeme.length = w.length := String.length_ofList
      refine ⟨(before.length, t) :: placed, by rw [List.map_cons, hplaced, tokensOf_lexeme]; rfl, ?_⟩
      rw [← htext]
      refine .cons (.refl before _) (standsAt_append rfl rfl rfl) (ne_endOfInput_of_isLexeme hlex) ?_ ?_
      · rw [hlength]
        exact List.length_pos_iff.2 (ne_nil_of_isPiece hlong.1)
      · rw [hlength, htext, ← List.length_append]
        exact htiles

/-- **Nothing is lost, and every token knows where it is.**  The lexemes of a text stand at growing
offsets, and with the gaps between them, which have only blanks and comments in them, they are all of
the text.  The end of the input is at its end. -/
theorem tokens_tile_their_text {text : List Char} {tokens : List Token}
    (h : Token.scan text = .ok tokens) :
    ∃ placed : List (Nat × Token), placed.map Prod.snd = tokens ∧
      (placed.map Prod.fst).Pairwise (· < ·) ∧ Tiles text 0 placed := by
  obtain ⟨ps, hsplits, htext, rfl⟩ := splits_of_scan h
  obtain ⟨placed, hplaced, htiles⟩ := tiles_of_splits hsplits rfl []
  rw [htext] at hplaced
  exact ⟨placed, hplaced, htiles.increasing, htiles⟩

/-- A comment with a carriage return in it, a string over two lines, and a point that belongs to no
number. -/
theorem tiles_behind_a_long_string :
    let text := "var a//b\x0d\n\t\"c\nd\" 1.".toList
    let tokens : List Token :=
      [⟨.keyword .kVar, "var", .nil, 1, 1⟩, ⟨.identifier, "a", .nil, 1, 5⟩,
        ⟨.endOfLine, "\n", .nil, 1, 10⟩, ⟨.string, "\"c\nd\"", .text "c\nd", 2, 2⟩,
        ⟨.number, "1", .number (.ofDigits ['1'] []), 3, 4⟩, ⟨.dot, ".", .nil, 3, 5⟩,
        ⟨.endOfInput, "", .nil, 3, 6⟩]
    Token.scan text = .ok tokens ∧ ∃ placed : List (Nat × Token), placed.map Prod.snd = tokens ∧
      (placed.map Prod.fst).Pairwise (· < ·) ∧ Tiles text 0 placed := by
  intro text tokens
  have hscan : Token.scan text = .ok tokens := by decide +kernel
  exact ⟨hscan, tokens_tile_their_text hscan⟩

end LoxFront.Lexical
