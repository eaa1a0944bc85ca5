import LoxFront.Proofs.Token.Splitting

/-!
# The tokens of a text

The tokens of a text stand in it one behind the other (`tokens_of_scan`): each but the last has its
characters, its line and its column in the text (`Stands`), only the last one is the end of the
input, and lines and columns grow from token to token (`Token.Before`).
-/

namespace LoxFront

/-- A token is on a line in front of that of another one, or in a lower column of the same line. -/
def Token.Before (t u : Token) : Prop := t.line < u.line ∨ t.line = u.line ∧ t.column < u.column

theorem Token.Before.ne {t u : Token} (h : t.Before u) : t ≠ u := by
  rintro rfl
  rcases h with h | ⟨-, h⟩ <;> exact Int.lt_irrefl _ h

namespace Lexical

/-- A token stands in a text, with its characters, line and column. -/
def Stands (text : List Char) (t : Token) : Prop :=
  ∃ before after w, text = before ++ w ++ after ∧ t.lexeme = String.ofList w ∧
    IsLexeme t.kind w t.literal ∧ t.line = lineAfter before ∧ t.column = columnAfter before

theorem ne_endOfInput_of_isLexeme {k : Kind} {w : List Char} {v : Literal} (h : IsLexeme k w v) :
    k ≠ .endOfInput := by
  cases h with
  | mark hm =>
    have hall : ∀ x ∈ marks, x.2 ≠ .endOfInput := by decide
    exact hall _ hm
  | _ => exact nofun

/-- A token is at a place behind some characters, or further on. -/
def From (before : List Char) (t : Token) : Prop :=
  ∃ as, t.line = lineAfter (before ++ as) ∧ t.column = columnAfter (before ++ as)

/-- What is further on behind more characters is behind what begins with them. -/
theorem before_of_from {before as : List Char} {t u : Token} (ht : t.line = lineAfter before)
    (ht' : t.column = columnAfter before) (has : as ≠ []) (hu : From (before ++ as) u) :
    t.Before u := by
  obtain ⟨bs, hl, hc⟩ := hu
  have hne : as ++ bs ≠ [] := List.append_ne_nil_of_left_ne_nil has bs
  have hlt := place_lt_of_append before hne
  rw [List.append_assoc] at hl hc
  unfold Token.Before
  omega

theorem from_append {before as : List Char} {t : Token} (h : From (before ++ as) t) :
    From before t := by
  obtain ⟨bs, hl, hc⟩ := h
  exact ⟨as ++ bs, by rwa [← List.append_assoc], by rwa [← List.append_assoc]⟩

/-- The tokens of some pieces, and the end behind them, one behind the other. -/
theorem tokensOf_stand {text : List Char} {ps : List Piece} {rest : List Char}
    (h : Splits text ps rest) (before : List Char) :
    (∀ t ∈ tokensOf before ps, Stands (before ++ text) t) ∧
      (∀ t ∈ tokensOf before ps ++ [endToken (before ++ written ps)], From before t) ∧
        (tokensOf before ps ++ [endToken (before ++ written ps)]).Pairwise Token.Before := by
  induction h generalizing before with
  | nil text =>
    rw [tokensOf, List.nil_append, show written [] = [] from rfl, List.append_nil]
    refine ⟨List.forall_mem_nil _, fun t ht => ⟨[], ?_⟩, List.pairwise_singleton _ _⟩
    rw [List.mem_singleton.1 ht, List.append_nil]
    exact ⟨rfl, rfl⟩
  | @cons p ps text rest hlong _ ih =>
    obtain ⟨hstand, hfrom, hpair⟩ := ih (before ++ p.text)
    have hwritten : before ++ written (p :: ps) = before ++ p.text ++ written ps := by
      rw [written, List.flatMap_cons, List.append_assoc]
      rfl
    have htext : before ++ (p.text ++ text) = before ++ p.text ++ text :=
      (List.append_assoc _ _ _).symm
    rw [hwritten, htext]
    obtain ⟨w, o⟩ := p
    dsimp only at hlong hstand hfrom hpair ⊢
    have hpiece : IsPiece o w := hlong.1
    have hw := ne_nil_of_isPiece hpiece
    cases o with
    | none => exact ⟨hstand, fun t ht => from_append (hfrom t ht), hpair⟩
    | some x =>
      obtain ⟨k, v⟩ := x
      cases hpiece with
      | lexeme hlex =>
        -- the token of this piece is in front of the others, which begin behind its characters
        rw [tokensOf_lexeme, List.cons_append]
        refine ⟨List.forall_mem_cons.2 ⟨?_, hstand⟩, List.forall_mem_cons.2 ⟨?_, ?_⟩,
          List.pairwise_cons.2 ⟨?_, hpair⟩⟩
        · exact ⟨before, text, w, rfl, rfl, hlex, rfl, rfl⟩
        · exact ⟨[], by rw [List.append_nil], by rw [List.append_nil]⟩
        · exact fun t ht => from_append (hfrom t ht)
        · exact fun u hu => before_of_from rfl rfl hw (hfrom u hu)

/-- A text that is read can be split to its end. -/
theorem splits_of_scan {text : List Char} {tokens : List Token} (h : Token.scan text = .ok tokens) :
    ∃ ps, Splits text ps [] ∧ [] ++ written ps = text ∧
      tokens = tokensOf [] ps ++ [endToken text] := by
  obtain ⟨ps, rest, hsplits, rfl | hno⟩ := exists_splits text
  · rw [scan_of_splits hsplits] at h
    cases h
    have htext : [] ++ written ps = text := by rw [hsplits.eq_append, List.append_nil]; rfl
    exact ⟨ps, hsplits, htext, rfl⟩
  · obtain ⟨f, -, hscan⟩ := scan_of_noPiece hsplits hno
    rw [hscan] at h
    cases h

/-- Every token has the line and the column of a place. -/
theorem from_of_scan {text : List Char} {tokens : List Token} (h : Token.scan text = .ok tokens) :
    ∀ t ∈ tokens, From [] t := by
  obtain ⟨ps, hsplits, htext, rfl⟩ := splits_of_scan h
  obtain ⟨-, hfrom, -⟩ := tokensOf_stand hsplits []
  rwa [htext] at hfrom

/-- **The tokens of a text** stand in it one behind the other, and only the last one is the end of
the input. -/
theorem tokens_of_scan {text : List Char} {tokens : List Token}
    (h : Token.scan text = .ok tokens) :
    ∃ ts, tokens = ts ++ [endToken text] ∧ (∀ t ∈ ts, Stands text t ∧ t.kind ≠ .endOfInput) ∧
      tokens.Pairwise Token.Before := by
  obtain ⟨ps, hsplits, htext, rfl⟩ := splits_of_scan h
  obtain ⟨hstand, -, hpair⟩ := tokensOf_stand hsplits []
  rw [htext] at hpair
  refine ⟨tokensOf [] ps, rfl, fun t ht => ⟨hstand t ht, ?_⟩, hpair⟩
  obtain ⟨_, _, _, -, -, hlex, -⟩ := hstand t ht
  exact ne_endOfInput_of_isLexeme hlex

end Lexical

end LoxFront
