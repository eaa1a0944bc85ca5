import LoxFront.Proofs.Token.Lexeme
import LoxFront.Proofs.Token.Place
import Mathlib.Data.Nat.Find

/-!
# The longest pieces from the left

A text is split into pieces from the left, each of them the longest one that there is
(`Splits text ps rest`).  It can always be split up to a place that no piece begins
(`exists_splits`), and reading gives the lexemes among these pieces, up to the same place
(`fromReader_of_splits`).  So a text can be read just if it can be split to its end, and then its
tokens are its lexemes (`scan_splits_longest_first`).
-/

namespace LoxFront.Lexical

open Lexeme

/-! ### Splitting -/

/-- A piece of a text: its characters and, if it is a lexeme, its kind and value. -/
structure Piece where
  text : List Char
  lexeme? : Option (Kind × Literal)

/-- A piece in front of a text, and none in front of it is longer. -/
def Longest (text : List Char) (p : Piece) : Prop :=
  IsPiece p.lexeme? p.text ∧ ∀ o w, IsPiece o w → w <+: text → w.length ≤ p.text.length

/-- A text is made of some pieces and what is left of it, each piece the longest one where it
begins. -/
inductive Splits : List Char → List Piece → List Char → Prop
  | nil (text : List Char) : Splits text [] text
  | cons {p : Piece} {ps : List Piece} {text rest : List Char} : Longest (p.text ++ text) p →
      Splits text ps rest → Splits (p.text ++ text) (p :: ps) rest

/-- A text that is not at its end, and that no piece begins. -/
def NoPiece (text : List Char) : Prop := text ≠ [] ∧ ∀ o w, IsPiece o w → ¬ w <+: text

/-- The characters of some pieces. -/
def written (ps : List Piece) : List Char := ps.flatMap Piece.text

/-- The token of a piece behind some characters, if it is a lexeme. -/
def Piece.token? (before : List Char) (p : Piece) : Option Token :=
  p.lexeme?.map fun (kind, v) =>
    ⟨kind, String.ofList p.text, v, lineAfter before, columnAfter before⟩

/-- The tokens of some pieces behind some characters. -/
def tokensOf (before : List Char) : List Piece → List Token
  | [] => []
  | p :: ps => (p.token? before).toList ++ tokensOf (before ++ p.text) ps

theorem tokensOf_lexeme (before w : List Char) (k : Kind) (v : Literal) (ps : List Piece) :
    tokensOf before (⟨w, some (k, v)⟩ :: ps) =
      ⟨k, String.ofList w, v, lineAfter before, columnAfter before⟩ ::
        tokensOf (before ++ w) ps := rfl

/-- The token at the end of a text. -/
def endToken (text : List Char) : Token :=
  ⟨.endOfInput, "", .nil, lineAfter text, columnAfter text⟩

theorem Splits.eq_append {text rest : List Char} {ps : List Piece} (h : Splits text ps rest) :
    text = written ps ++ rest := by
  induction h with
  | nil => rfl
  | cons _ _ ih => rw [ih, written, written, List.flatMap_cons, List.append_assoc]

theorem ne_nil_of_isPiece {o : Option (Kind × Literal)} {w : List Char} (h : IsPiece o w) :
    w ≠ [] := by
  cases h with
  | blank => exact List.cons_ne_nil _ _
  | comment => exact List.cons_ne_nil _ _
  | lexeme h =>
    cases h with
    | newline => exact List.cons_ne_nil _ _
    | keyword k =>
      obtain ⟨c, cs, hw, -⟩ := isWord_spelling k
      rw [hw]
      exact List.cons_ne_nil _ _
    | name hw _ =>
      obtain ⟨c, cs, rfl, -⟩ := hw
      exact List.cons_ne_nil _ _
    | whole hds => exact hds.1
    | decimal hds _ => exact List.append_ne_nil_of_left_ne_nil hds.1 _
    | string => exact List.cons_ne_nil _ _
    | mark hm =>
      obtain ⟨c, -, ⟨rfl, -⟩ | ⟨rfl, -⟩⟩ := marks_cases hm
      · exact List.cons_ne_nil _ _
      · exact List.cons_ne_nil _ _

/-- With nothing behind it a lexeme is the longest piece. -/
theorem Longest.alone {k : Kind} {v : Literal} {w : List Char} (h : IsLexeme k w v) :
    Longest (w ++ []) ⟨w, some (k, v)⟩ := by
  rw [List.append_nil]
  exact ⟨.lexeme h, fun _ _ _ hpre => hpre.length_le⟩

theorem NoPiece.ne_newline {c : Char} {cs : List Char} (h : NoPiece (c :: cs)) : c ≠ '\n' := by
  rintro rfl
  exact h.2 _ ['\n'] (.lexeme .newline) (List.prefix_append ['\n'] cs)

/-- Where a piece begins there is a longest one. -/
theorem exists_longest {text w : List Char} {o : Option (Kind × Literal)} (hw : IsPiece o w)
    (hpre : w <+: text) : ∃ p rest, text = p.text ++ rest ∧ Longest text p := by
  classical
  -- the number of characters that a piece leaves behind has a least value
  let Leaves (n : Nat) : Prop := ∃ o w, IsPiece o w ∧ w <+: text ∧ w.length + n = text.length
  have hex : ∃ n, Leaves n :=
    ⟨text.length - w.length, o, w, hw, hpre, Nat.add_sub_cancel' hpre.length_le⟩
  obtain ⟨o', w', hw', ⟨rest, hrest⟩, hlen⟩ := Nat.find_spec hex
  refine ⟨⟨w', o'⟩, rest, hrest.symm, hw', fun o'' w'' hw'' hpre'' => ?_⟩
  have hmin : Nat.find hex ≤ text.length - w''.length :=
    Nat.find_min' hex ⟨o'', w'', hw'', hpre'', Nat.add_sub_cancel' hpre''.length_le⟩
  have hle := hpre''.length_le
  show w''.length ≤ w'.length
  omega

/-- **Every text can be split** to its end, or to a place that no piece begins. -/
theorem exists_splits (text : List Char) :
    ∃ ps rest, Splits text ps rest ∧ (rest = [] ∨ NoPiece rest) := by
  induction hn : text.length using Nat.strong_induction_on generalizing text with
  | _ n ih =>
    by_cases hex : ∃ o w, IsPiece o w ∧ w <+: text
    · obtain ⟨o, w, hw, hpre⟩ := hex
      obtain ⟨p, rest, htext, hlong⟩ := exists_longest hw hpre
      have hlen := List.length_pos_iff.2 (ne_nil_of_isPiece hlong.1)
      obtain ⟨ps, rest', hsplits, hend⟩ :=
        ih rest.length (by rw [← hn, htext, List.length_append]; omega) rest rfl
      subst htext
      exact ⟨p :: ps, rest', .cons hlong hsplits, hend⟩
    · refine ⟨[], text, .nil text, ?_⟩
      by_cases htext : text = []
      · exact .inl htext
      · exact .inr ⟨htext, fun o w hw hpre => hex ⟨o, w, hw, hpre⟩⟩

/-! ### What stands between lexemes -/

theorem blankLength_blank {c : Char} (hc : IsBlank c) (rest : List Char) :
    blankLength (c :: rest) = blankLength rest + 1 := by
  rcases hc with rfl | rfl | rfl <;> rfl

theorem blankLength_comment (rest : List Char) :
    blankLength ('/' :: '/' :: rest) = (rest.takeWhile (· ≠ '\n')).length + 2 := rfl

/-- No lexeme begins with a blank. -/
theorem at?_blank {c : Char} (hc : IsBlank c) (rest : List Char) :
    at? c rest = .error (.invalidCharacter c) := by
  have hmark : ∀ {c : Char}, single? c = none → withEqual? c = none → mark? c rest = none := by
    intro c hs hw
    simp [mark?, hs, hw]
  rcases hc with rfl | rfl | rfl
  all_goals
    rw [at?_other (by decide) (by decide) (by decide) (by decide), hmark rfl rfl]

/-- The lexeme in front of a comment is a slash. -/
theorem at?_comment (rest : List Char) : at? '/' ('/' :: rest) = .ok (.slash, 1) := rfl

/-- Where no blank and no comment begins. -/
theorem blankLength_eq_zero {c : Char} {rest : List Char} (hc : ¬ IsBlank c)
    (hcomment : ¬ ∃ r, c :: rest = '/' :: '/' :: r) : blankLength (c :: rest) = 0 := by
  unfold blankLength
  split
  · exact absurd ⟨_, ‹_›⟩ hcomment
  · rename_i d r _ heq
    cases heq
    exact if_neg hc
  · rename_i heq
    cases heq

/-! ### Reading on -/

theorem fromReader_congr {fuel : Nat} {r r' : Reader}
    (h : r.skip (blankLength r.rest) = r'.skip (blankLength r'.rest)) :
    Scan.fromReader (fuel + 1) r = Scan.fromReader (fuel + 1) r' := by
  simp only [Scan.fromReader, h]

theorem fromReader_end (fuel : Nat) (text : List Char) :
    Scan.fromReader (fuel + 1) (readerAt text []) = ⟨[endToken text], none⟩ := rfl

/-- A blank is passed over. -/
theorem fromReader_blank (fuel : Nat) (before : List Char) {c : Char} (hc : IsBlank c)
    (rest : List Char) :
    Scan.fromReader (fuel + 1) (readerAt before (c :: rest)) =
      Scan.fromReader (fuel + 1) (readerAt (before ++ [c]) rest) := by
  refine fromReader_congr ?_
  show (readerAt before (c :: rest)).skip (blankLength (c :: rest)) = _
  rw [blankLength_blank hc, Reader.skip, next_readerAt]
  rfl

/-- A comment is passed over, up to the end of its line. -/
theorem fromReader_comment (fuel : Nat) (before cs rest : List Char) (hcs : '\n' ∉ cs)
    (hrest : rest = [] ∨ ∃ r, rest = '\n' :: r) :
    Scan.fromReader (fuel + 1) (readerAt before ('/' :: '/' :: cs ++ rest)) =
      Scan.fromReader (fuel + 1) (readerAt (before ++ '/' :: '/' :: cs) rest) := by
  have htake : (cs ++ rest).takeWhile (· ≠ '\n') = cs := by
    rcases hrest with rfl | ⟨r, rfl⟩
    · rw [List.append_nil, takeWhile_ne_of_notMem hcs]
    · exact takeWhile_ne_append r hcs
  have hzero : blankLength rest = 0 := by
    rcases hrest with rfl | ⟨r, rfl⟩ <;> rfl
  have hlen : blankLength ('/' :: '/' :: cs ++ rest) = ('/' :: '/' :: cs).length := by
    rw [List.cons_append, List.cons_append, blankLength_comment, htake]
    rfl
  refine fromReader_congr ?_
  show (readerAt before ('/' :: '/' :: cs ++ rest)).skip (blankLength ('/' :: '/' :: cs ++ rest)) =
    (readerAt (before ++ '/' :: '/' :: cs) rest).skip (blankLength rest)
  rw [hlen, skip_readerAt, hzero]
  rfl

/-- A lexeme becomes a token. -/
theorem fromReader_lexeme (fuel : Nat) (before rest : List Char) {c : Char} {cs w : List Char}
    {k : Kind} {v : Literal} (htext : c :: cs = w ++ rest) (hblank : blankLength (c :: cs) = 0)
    (hat : at? c cs = .ok (k, w.length)) (hv : v = literal k w) :
    Scan.fromReader (fuel + 1) (readerAt before (c :: cs)) =
      ⟨⟨k, String.ofList w, v, lineAfter before, columnAfter before⟩ ::
          (Scan.fromReader fuel (readerAt (before ++ w) rest)).tokens,
        (Scan.fromReader fuel (readerAt (before ++ w) rest)).error⟩ := by
  have hskip : (readerAt before (c :: cs)).skip (blankLength (c :: cs)) =
      readerAt before (c :: cs) := by rw [hblank]; rfl
  have hnext : (readerAt before (c :: cs)).skip w.length = readerAt (before ++ w) rest := by
    rw [htext, skip_readerAt]
  have htake : (c :: cs).take w.length = w := by rw [htext, List.take_left]
  rw [Scan.fromReader]
  simp only [show (readerAt before (c :: cs)).rest = c :: cs from rfl, hskip, hat, hnext, htake, hv]
  rfl

/-- Where no lexeme begins reading stops. -/
theorem fromReader_fault (fuel : Nat) (before : List Char) {c : Char} {cs : List Char}
    {f : LexicalFault} (hblank : blankLength (c :: cs) = 0) (hat : at? c cs = .error f) :
    Scan.fromReader (fuel + 1) (readerAt before (c :: cs)) =
      ⟨[], some ⟨f, lineAfter before, columnAfter before, lineAround before (c :: cs)⟩⟩ := by
  have hskip : (readerAt before (c :: cs)).skip (blankLength (c :: cs)) =
      readerAt before (c :: cs) := by rw [hblank]; rfl
  rw [Scan.fromReader]
  simp only [show (readerAt before (c :: cs)).rest = c :: cs from rfl, hskip, hat,
    currentLine_readerAt]
  rfl

/-! ### Reading what is split -/

/-- Behind a comment that is the longest piece there is a newline, or nothing. -/
theorem newline_of_longest_comment {cs rest : List Char}
    (h : Longest ('/' :: '/' :: cs ++ rest) ⟨'/' :: '/' :: cs, none⟩) (hcs : '\n' ∉ cs) :
    rest = [] ∨ ∃ r, rest = '\n' :: r := by
  cases rest with
  | nil => exact .inl rfl
  | cons c r =>
    by_cases hc : c = '\n'
    · exact .inr ⟨r, by rw [hc]⟩
    -- a comment with one more character would be longer
    · have hmem : '\n' ∉ cs ++ [c] := by simpa [hcs] using Ne.symm hc
      have hle := h.2 none _ (.comment hmem) ⟨r, by simp⟩
      simp only [List.length_cons, List.length_append, List.length_nil] at hle
      omega

/-- The longest piece in front of a text is what reading finds, if it is a lexeme. -/
theorem at?_of_longest {c : Char} {cs w : List Char} {k : Kind} {v : Literal}
    (h : Longest (c :: cs) ⟨w, some (k, v)⟩) (hpre : w <+: c :: cs) :
    blankLength (c :: cs) = 0 ∧ at? c cs = .ok (k, w.length) ∧ v = literal k w := by
  obtain ⟨hpiece, hmax⟩ := h
  dsimp only at hpiece hmax
  cases hpiece with
  | lexeme hlex =>
    obtain ⟨k', n, hat, hle, hk⟩ := at?_of_isLexeme hlex hpre
    refine ⟨blankLength_eq_zero (fun hc => ?_) ?_, ?_, literal_of_isLexeme hlex⟩
    · rw [at?_blank hc] at hat
      cases hat
    · rintro ⟨r, hr⟩
      cases hr
      rw [at?_comment] at hat
      cases hat
      have hcomment := hmax none ['/', '/'] (.comment (by simp)) (List.prefix_append _ r)
      simp only [List.length_cons, List.length_nil] at hcomment
      omega
    · obtain ⟨hn, hlex'⟩ := isLexeme_of_at? hat
      have hle' := hmax _ _ (.lexeme hlex') (List.take_prefix n _)
      simp only [List.length_take, Nat.min_eq_left hn] at hle'
      have heq : n = w.length := by omega
      rw [hat, hk heq, heq]

/-- **Reading goes from piece to piece**, and gives the lexemes among them. -/
theorem fromReader_of_splits {text rest : List Char} {ps : List Piece} (h : Splits text ps rest) :
    ∀ (fuel : Nat) (before : List Char), text.length ≤ fuel → ∃ fuel', rest.length ≤ fuel' ∧
      Scan.fromReader (fuel + 1) (readerAt before text) =
        ⟨tokensOf before ps ++
            (Scan.fromReader (fuel' + 1) (readerAt (before ++ written ps) rest)).tokens,
          (Scan.fromReader (fuel' + 1) (readerAt (before ++ written ps) rest)).error⟩ := by
  induction h with
  | nil text => exact fun fuel before hf => ⟨fuel, hf, by simp [tokensOf, written]⟩
  | @cons p ps text rest hlong _ ih =>
    intro fuel before hf
    have hwritten : before ++ written (p :: ps) = before ++ p.text ++ written ps := by
      rw [written, List.flatMap_cons, List.append_assoc]
      rfl
    rw [hwritten, tokensOf]
    rw [List.length_append] at hf
    obtain ⟨w, o⟩ := p
    dsimp only at hf hlong ⊢
    have hpiece : IsPiece o w := hlong.1
    cases hpiece with
    | @blank c hc =>
      obtain ⟨fuel', hf', hrun⟩ := ih fuel (before ++ [c]) (by omega)
      exact ⟨fuel', hf', (fromReader_blank fuel before hc text).trans hrun⟩
    | @comment cs hcs =>
      obtain ⟨fuel', hf', hrun⟩ := ih fuel (before ++ '/' :: '/' :: cs) (by omega)
      have hnext := newline_of_longest_comment hlong hcs
      exact ⟨fuel', hf', (fromReader_comment fuel before cs text hcs hnext).trans hrun⟩
    | @lexeme k _ v hlex =>
      obtain ⟨c, cs, rfl⟩ := List.exists_cons_of_ne_nil (ne_nil_of_isPiece hlong.1)
      obtain ⟨hblank, hat, hv⟩ := at?_of_longest hlong (List.prefix_append _ _)
      simp only [List.length_cons] at hf
      obtain ⟨fuel', hf', hrun⟩ := ih (fuel - 1) (before ++ c :: cs) (by omega)
      refine ⟨fuel', hf', ?_⟩
      rw [show fuel - 1 + 1 = fuel by omega] at hrun
      refine (fromReader_lexeme fuel before text rfl hblank hat hv).trans ?_
      rw [hrun]
      rfl

/-- Where no piece begins reading stops, with what is wrong there. -/
theorem fromReader_of_noPiece {rest : List Char} (h : NoPiece rest) (fuel : Nat)
    (before : List Char) : ∃ f, FaultOf rest f ∧
      Scan.fromReader (fuel + 1) (readerAt before rest) =
        ⟨[], some ⟨f, lineAfter before, columnAfter before, lineAround before rest⟩⟩ := by
  obtain ⟨hne, hno⟩ := h
  obtain ⟨c, cs, rfl⟩ := List.exists_cons_of_ne_nil hne
  have hblank : blankLength (c :: cs) = 0 := by
    refine blankLength_eq_zero (fun hc => ?_) ?_
    · exact hno none [c] (.blank hc) (List.prefix_append [c] cs)
    · rintro ⟨r, hr⟩
      exact hno none ['/', '/'] (.comment (by simp)) (hr ▸ List.prefix_append _ r)
  cases hat : at? c cs with
  | ok found => exact absurd (List.take_prefix _ _) (hno _ _ (.lexeme (isLexeme_of_at? hat).2))
  | error f => exact ⟨f, faultOf_of_at? hat, fromReader_fault fuel before hblank hat⟩

/-- A text that can be split to its end gives the lexemes among its pieces, and the end. -/
theorem scan_of_splits {text : List Char} {ps : List Piece} (h : Splits text ps []) :
    Token.scan text = .ok (tokensOf [] ps ++ [endToken text]) := by
  obtain ⟨fuel, -, hrun⟩ := fromReader_of_splits h text.length [] (Nat.le_refl _)
  have htext : [] ++ written ps = text := by rw [h.eq_append, List.append_nil]; rfl
  rw [htext, fromReader_end] at hrun
  rw [Token.scan, Scan.ofText, start_eq, hrun]

/-- A text that cannot be split to its end gives what is wrong where no piece begins. -/
theorem scan_of_noPiece {text rest : List Char} {ps : List Piece} (h : Splits text ps rest)
    (hno : NoPiece rest) : ∃ f, FaultOf rest f ∧ Token.scan text = .error
      ⟨f, lineAfter (written ps), columnAfter (written ps), lineAround (written ps) rest⟩ := by
  obtain ⟨fuel, -, hrun⟩ := fromReader_of_splits h text.length [] (Nat.le_refl _)
  obtain ⟨f, hf, hstop⟩ := fromReader_of_noPiece hno fuel ([] ++ written ps)
  rw [hstop] at hrun
  refine ⟨f, hf, ?_⟩
  rw [Token.scan, Scan.ofText, start_eq, hrun]
  rfl

theorem FaultOf.unique {text : List Char} {f g : LexicalFault} (h : FaultOf text f)
    (h' : FaultOf text g) : f = g := by
  cases h with
  | unterminated _ =>
    cases h' with
    | unterminated _ => rfl
    | invalid hq => exact absurd rfl hq
  | invalid hq =>
    cases h' with
    | unterminated _ => exact absurd rfl hq
    | invalid _ => rfl

/-- **A text is read by its longest pieces from the left.**  It can be read just if it can be split to
its end, and its tokens are then the lexemes among the pieces, in their order and where they stand,
and the end of the input.  Otherwise there is a first place that no piece begins: reading stops there,
at a quote that stands alone or else at a character that starts no lexeme. -/
theorem scan_splits_longest_first (text : List Char) :
    (∀ tokens, Token.scan text = .ok tokens ↔
      ∃ ps, Splits text ps [] ∧ tokens = tokensOf [] ps ++ [endToken text]) ∧
    ∀ e, Token.scan text = .error e ↔
      ∃ ps rest, Splits text ps rest ∧ NoPiece rest ∧ FaultOf rest e.fault ∧
        e.line = lineAfter (written ps) ∧ e.column = columnAfter (written ps) ∧
          e.lineText = lineAround (written ps) rest := by
  -- there is a splitting, to the end or to a place that no piece begins, and reading follows it
  obtain ⟨qs, rest, hqs, hend⟩ := exists_splits text
  refine ⟨fun tokens => ⟨fun h => ?_, ?_⟩, fun e => ⟨fun h => ?_, ?_⟩⟩
  · rcases hend with rfl | hno
    · rw [scan_of_splits hqs] at h
      cases h
      exact ⟨qs, hqs, rfl⟩
    · obtain ⟨f, -, hscan⟩ := scan_of_noPiece hqs hno
      rw [hscan] at h
      cases h
  · rintro ⟨ps, hps, rfl⟩
    exact scan_of_splits hps
  · rcases hend with rfl | hno
    · rw [scan_of_splits hqs] at h
      cases h
    · obtain ⟨f, hf, hscan⟩ := scan_of_noPiece hqs hno
      rw [hscan] at h
      cases h
      exact ⟨qs, rest, hqs, hno, hf, rfl, rfl, rfl⟩
  · rintro ⟨ps, rest', hps, hno, hf, hline, hcolumn, htext⟩
    obtain ⟨g, hg, hscan⟩ := scan_of_noPiece hps hno
    rw [hscan, hg.unique hf, ← hline, ← hcolumn, ← htext]

end LoxFront.Lexical
