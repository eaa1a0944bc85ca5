import LoxFront.Proofs.Token.Spaces

/-!
# Carriage returns in front of newlines

A text may end its lines with a newline, or with a carriage return and a newline.  Both are read alike
(`scan_withReturns`): a carriage return is a blank, and what is in front of it on its line, or on the
lines behind, stays where it was.  Only the newline itself is one column further on, and a string with
newlines in it has the carriage returns too.

The carriage return of a line is a piece by itself (`splits_withReturns_lexeme`), or the end of a
comment, or a character of a string.
-/

namespace LoxFront

/-- A text with a carriage return in front of each newline. -/
def Text.withReturns (text : List Char) : List Char :=
  text.flatMap fun c => if c = '\n' then ['\r', '\n'] else [c]

/-- A literal with carriage returns in its text. -/
def Literal.withReturns : Literal → Literal
  | .text s => .text (String.ofList (Text.withReturns s.toList))
  | v => v

/-- A token where the text has carriage returns in front of its newlines. -/
def Token.withReturns (t : Token) : Token :=
  match t.kind with
  | .endOfLine => { t with column := t.column + 1 }
  | .string =>
    { t with
      lexeme := String.ofList (Text.withReturns t.lexeme.toList)
      literal := t.literal.withReturns }
  | _ => t

namespace Lexical

open Text

variable {text : List Char}

/-! ### Carriage returns -/

theorem withReturns_newline (cs : List Char) :
    withReturns ('\n' :: cs) = '\r' :: '\n' :: withReturns cs := rfl

theorem withReturns_cons {c : Char} (hc : c ≠ '\n') (cs : List Char) :
    withReturns (c :: cs) = c :: withReturns cs := by
  rw [withReturns, List.flatMap_cons, if_neg hc]
  rfl

theorem withReturns_append (as bs : List Char) :
    withReturns (as ++ bs) = withReturns as ++ withReturns bs := List.flatMap_append

theorem withReturns_of_notMem {cs : List Char} (h : '\n' ∉ cs) : withReturns cs = cs := by
  induction cs with
  | nil => rfl
  | cons c cs ih =>
    rw [withReturns_cons (Ne.symm (List.ne_of_not_mem_cons h)), ih (List.not_mem_of_not_mem_cons h)]

theorem withReturns_append_of_notMem {as : List Char} (h : '\n' ∉ as) (bs : List Char) :
    withReturns (as ++ bs) = as ++ withReturns bs := by
  rw [withReturns_append, withReturns_of_notMem h]

/-- Only carriage returns are new. -/
theorem mem_of_mem_withReturns {c : Char} (hc : c ≠ '\r') (h : c ∈ withReturns text) : c ∈ text := by
  obtain ⟨d, hd, hmem⟩ := List.mem_flatMap.1 h
  split_ifs at hmem with hnewline
  · subst hnewline
    rcases List.mem_cons.1 hmem with rfl | hmem
    · exact absurd rfl hc
    · rwa [List.mem_singleton.1 hmem]
  · rwa [List.mem_singleton.1 hmem]

/-- Up to the first space the text is the same. -/
theorem prefix_of_withReturns {u : List Char} (hu : ∀ c ∈ u, ¬ IsSpace c)
    (h : u <+: withReturns text) : u <+: text := by
  by_cases hmem : '\n' ∈ text
  · obtain ⟨row, rest, rfl, hrow⟩ := List.eq_append_cons_of_mem hmem
    rw [withReturns_append_of_notMem hrow, withReturns_newline] at h
    exact (prefix_of_append_space (.inr (.inr (.inr rfl))) hu h).trans (List.prefix_append row _)
  · rwa [withReturns_of_notMem hmem] at h

/-! ### Places -/

theorem lineAfter_withReturns (before : List Char) :
    lineAfter (withReturns before) = lineAfter before := by
  induction before with
  | nil => rfl
  | cons c cs ih =>
    simp only [lineAfter, Nat.add_right_cancel_iff] at ih ⊢
    by_cases hc : c = '\n'
    · subst hc
      rw [withReturns_newline, List.count_cons_of_ne (by decide), List.count_cons_self, ih,
        List.count_cons_self]
    · rw [withReturns_cons hc, List.count_cons_of_ne hc, ih, List.count_cons_of_ne hc]

theorem lineFront_withReturns (before : List Char) :
    lineFront (withReturns before) = lineFront before := by
  induction before using List.reverseRecOn with
  | nil => rfl
  | append_singleton cs c ih =>
    rw [withReturns_append]
    by_cases hc : c = '\n'
    · subst hc
      have hreturn : withReturns cs ++ withReturns ['\n'] = withReturns cs ++ ['\r'] ++ ['\n'] := by
        rw [List.append_assoc]
        rfl
      rw [hreturn, lineFront_newline, lineFront_newline]
    · have hmem : '\n' ∉ [c] := by simpa using Ne.symm hc
      rw [withReturns_of_notMem hmem, lineFront_append hmem, lineFront_append hmem, ih]

theorem columnAfter_withReturns (before : List Char) :
    columnAfter (withReturns before) = columnAfter before := by
  rw [columnAfter, lineFront_withReturns, columnAfter]

/-- Behind the carriage return the newline is on the same line, one column further on. -/
theorem place_of_return (before : List Char) :
    lineAfter (withReturns before ++ ['\r']) = lineAfter before ∧
      columnAfter (withReturns before ++ ['\r']) = columnAfter before + 1 := by
  constructor
  · rw [lineAfter_append, lineAfter_withReturns]
    rfl
  · rw [columnAfter, lineFront_append (by decide), lineFront_withReturns, List.length_append]
    rfl

/-- A line may end with a carriage return now. -/
theorem lineAround_withReturns (before rest : List Char) :
    lineAround (withReturns before) (withReturns rest) = lineAround before rest ∨
      lineAround (withReturns before) (withReturns rest) = lineAround before rest ++ ['\r'] := by
  simp only [lineAround, lineFront_withReturns, List.append_assoc, List.append_cancel_left_eq]
  by_cases hmem : '\n' ∈ rest
  · obtain ⟨row, bs, rfl, hrow⟩ := List.eq_append_cons_of_mem hmem
    have hreturn : withReturns (row ++ '\n' :: bs) = row ++ ['\r'] ++ '\n' :: withReturns bs := by
      rw [withReturns_append_of_notMem hrow, withReturns_newline, List.append_assoc]
      rfl
    have hrow' : '\n' ∉ row ++ ['\r'] := by simpa using hrow
    exact .inr (by rw [hreturn, takeWhile_ne_append _ hrow', takeWhile_ne_append _ hrow])
  · exact .inl (by rw [withReturns_of_notMem hmem])

/-! ### Pieces -/

/-- No piece begins where none began without the carriage returns. -/
theorem noPiece_withReturns (h : NoPiece text) : NoPiece (withReturns text) := by
  obtain ⟨c, cs, rfl⟩ := List.exists_cons_of_ne_nil h.1
  have htext := withReturns_cons h.ne_newline cs
  refine ⟨by rw [htext]; exact List.cons_ne_nil _ _, fun o w hw hpre => ?_⟩
  by_cases hspace : ∃ d ∈ w, IsSpace d
  · obtain ⟨d, hmem, hd⟩ := hspace
    rcases hw.cases_of_mem hd hmem with rfl | ⟨ds, rfl, -⟩ | ⟨ds, rfl, -⟩
    · rw [htext] at hpre
      obtain ⟨rfl, -⟩ := List.cons_prefix_cons.1 hpre
      exact h.2 o [d] hw (List.prefix_append [d] cs)
    · have hslashes : ['/', '/'] <+: c :: cs := prefix_of_withReturns (by simp [IsSpace, IsBlank])
        ((List.prefix_append ['/', '/'] ds).trans hpre)
      exact h.2 none _ (.comment List.not_mem_nil) hslashes
    -- another quote is behind the first one, and was so before
    · rw [htext] at hpre
      obtain ⟨rfl, htail⟩ := List.cons_prefix_cons.1 hpre
      have hquote : '"' ∈ cs := mem_of_mem_withReturns (by decide)
        (htail.subset (List.mem_append_right ds List.mem_cons_self))
      obtain ⟨es, rest, rfl, hes⟩ := List.eq_append_cons_of_mem hquote
      exact h.2 _ _ (.lexeme (.string hes)) ⟨rest, by simp⟩
  · exact h.2 o w hw (prefix_of_withReturns (fun d hd hs => hspace ⟨d, hd, hs⟩) hpre)

/-- What is wrong there is the same. -/
theorem NoPiece.faultOf_withReturns {f : LexicalFault} (h : NoPiece text) (hf : FaultOf text f) :
    FaultOf (withReturns text) f := by
  cases hf with
  | unterminated hcs =>
    rw [withReturns_cons h.ne_newline]
    exact .unterminated fun hmem => hcs (mem_of_mem_withReturns (by decide) hmem)
  | invalid hc =>
    rw [withReturns_cons h.ne_newline]
    exact .invalid hc

theorem IsPiece.eq_none_of_blank {o : Option (Kind × Literal)} {c : Char} (hc : IsBlank c)
    (h : IsPiece o [c]) : o = none := by
  cases h with
  | blank _ => rfl
  | lexeme hlex =>
    obtain ⟨k, n, hat, -⟩ := at?_of_isLexeme hlex List.prefix_rfl
    rw [at?_blank hc] at hat
    cases hat

/-- A blank in front is the first piece, and the others are those of the rest. -/
theorem Splits.of_blank {c : Char} {rest : List Char} {ps : List Piece} (hc : IsBlank c)
    (h : Splits (c :: text) ps rest) (hend : rest = [] ∨ NoPiece rest) :
    ∃ qs, ps = ⟨[c], none⟩ :: qs ∧ Splits text qs rest := by
  generalize htext : c :: text = whole at h
  cases h with
  | nil =>
    subst htext
    have hno := hend.resolve_left (List.cons_ne_nil _ _)
    exact absurd (List.prefix_append [c] text) (hno.2 none [c] (.blank hc))
  | @cons p ps tail _ hlong hsplits =>
    obtain ⟨w, o⟩ := p
    obtain ⟨d, ds, rfl⟩ := List.exists_cons_of_ne_nil (ne_nil_of_isPiece hlong.1)
    obtain ⟨rfl, rfl⟩ := List.cons.inj htext
    obtain rfl : ds = [] := hlong.1.eq_nil_of_space (.inr hc)
    obtain rfl : o = none := hlong.1.eq_none_of_blank hc
    exact ⟨ps, rfl, hsplits⟩

/-! ### Splitting -/

theorem Token.withReturns_of_plain {t : Token} (hline : t.kind ≠ .endOfLine)
    (hstring : t.kind ≠ .string) : t.withReturns = t := by
  unfold Token.withReturns
  split
  · exact absurd ‹_› hline
  · exact absurd ‹_› hstring
  · rfl

/-- The carriage return behind a comment belongs to it. -/
theorem splits_withReturns_comment {cs rest : List Char} {qs : List Piece} (hcs : '\n' ∉ cs)
    (hlong : Longest ('/' :: '/' :: cs ++ text) ⟨'/' :: '/' :: cs, none⟩)
    (h : Splits (withReturns text) qs rest) (hend : rest = [] ∨ NoPiece rest) :
    ∃ others, Splits (withReturns ('/' :: '/' :: cs ++ text)) others rest ∧
      ∀ before, tokensOf (withReturns before) others =
        tokensOf (withReturns (before ++ '/' :: '/' :: cs)) qs := by
  have hw : '\n' ∉ '/' :: '/' :: cs := by simpa using hcs
  simp only [withReturns_append, withReturns_of_notMem hw]
  rcases newline_of_longest_comment hlong hcs with rfl | ⟨r, rfl⟩
  · exact ⟨_, .cons (longest_comment hcs (.inl rfl)) h, fun _ => rfl⟩
  · rw [withReturns_newline] at h ⊢
    obtain ⟨others, rfl, hothers⟩ := h.of_blank (.inr (.inr rfl)) hend
    have hcs' : '\n' ∉ cs ++ ['\r'] := by simpa using hcs
    have htext : '/' :: '/' :: cs ++ '\r' :: '\n' :: withReturns r =
        '/' :: '/' :: (cs ++ ['\r']) ++ '\n' :: withReturns r := by simp
    refine ⟨⟨'/' :: '/' :: (cs ++ ['\r']), none⟩ :: others, ?_, fun before => ?_⟩
    · rw [htext]
      exact .cons (longest_comment hcs' (.inr ⟨_, rfl⟩)) hothers
    · rw [tokensOf, tokensOf, List.append_assoc (withReturns before)]
      rfl

/-- A lexeme is the first one again, at its place. -/
theorem splits_withReturns_lexeme {k : Kind} {v : Literal} {w rest : List Char} {qs : List Piece}
    (hlex : IsLexeme k w v) (hlong : Longest (w ++ text) ⟨w, some (k, v)⟩)
    (h : Splits (withReturns text) qs rest) :
    ∃ others, Splits (withReturns (w ++ text)) others rest ∧
      ∀ before, tokensOf (withReturns before) others =
        Token.withReturns ⟨k, String.ofList w, v, lineAfter before, columnAfter before⟩ ::
          tokensOf (withReturns (before ++ w)) qs := by
  rcases hlex.space_cases (c := '\n') (.inl rfl) with
    ⟨rfl, rfl, rfl⟩ | ⟨cs, rfl, rfl, rfl, hcs⟩ | ⟨hline, hstring, hw⟩
  -- a newline has the carriage return in front of it
  · have hblank := longest_space (o := none) (.inr (.inr (.inr rfl))) (.blank (.inr (.inr rfl)))
      ('\n' :: withReturns text)
    refine ⟨_, .cons hblank (.cons (longest_newline _) h), fun before => ?_⟩
    have hreturn : withReturns (before ++ ['\n']) = withReturns before ++ ['\r'] ++ ['\n'] := by
      rw [withReturns_append, List.append_assoc]
      rfl
    obtain ⟨hl, hc⟩ := place_of_return before
    rw [hreturn, tokensOf, tokensOf_lexeme, hl, hc]
    rfl
  -- a string has the carriage returns in it
  · have hw : withReturns ('"' :: (cs ++ ['"'])) = '"' :: (withReturns cs ++ ['"']) := by
      rw [withReturns_cons (by decide), withReturns_append]
      rfl
    have hcs' : '"' ∉ withReturns cs := fun hmem => hcs (mem_of_mem_withReturns (by decide) hmem)
    rw [withReturns_append, hw]
    refine ⟨_, .cons (longest_string hcs' _) h, fun before => ?_⟩
    rw [tokensOf_lexeme, lineAfter_withReturns, columnAfter_withReturns, withReturns_append, hw,
      Token.withReturns, String.toList_ofList, hw, Literal.withReturns, String.toList_ofList]
  -- any other lexeme stays as it is
  · have hlong' : Longest (w ++ withReturns text) ⟨w, some (k, v)⟩ :=
      hlong.upToSpace fun _ hu => prefix_of_withReturns hu
    rw [withReturns_append_of_notMem hw]
    refine ⟨_, .cons hlong' h, fun before => ?_⟩
    rw [tokensOf_lexeme, lineAfter_withReturns, columnAfter_withReturns, withReturns_append,
      withReturns_of_notMem hw, Token.withReturns_of_plain hline hstring]

/-- **A text with carriage returns is split alike**: its lexemes are at the same places, and are the
same, but for newlines and strings. -/
theorem splits_withReturns {rest : List Char} {ps : List Piece} (h : Splits text ps rest)
    (hend : rest = [] ∨ NoPiece rest) :
    ∃ qs, Splits (withReturns text) qs (withReturns rest) ∧
      ∀ before, tokensOf (withReturns before) qs = (tokensOf before ps).map Token.withReturns := by
  have hend' : withReturns rest = [] ∨ NoPiece (withReturns rest) :=
    hend.imp (fun hnil => by rw [hnil]; rfl) noPiece_withReturns
  induction h with
  | nil text => exact ⟨[], .nil _, fun _ => rfl⟩
  | @cons p ps text rest hlong _ ih =>
    obtain ⟨qs, hqs, htokens⟩ := ih hend hend'
    obtain ⟨w, o⟩ := p
    dsimp only at hlong ⊢
    have hpiece : IsPiece o w := hlong.1
    cases hpiece with
    | @blank c hc =>
      have hw : '\n' ∉ [c] := by rcases hc with rfl | rfl | rfl <;> decide
      rw [withReturns_append_of_notMem hw]
      refine ⟨_, .cons (longest_space (.inr hc) (.blank hc) _) hqs, fun before => ?_⟩
      have hbehind := htokens (before ++ [c])
      rwa [withReturns_append, withReturns_of_notMem hw] at hbehind
    | @comment cs hcs =>
      obtain ⟨others, hothers, hsame⟩ := splits_withReturns_comment hcs hlong hqs hend'
      exact ⟨others, hothers, fun before => (hsame before).trans (htokens _)⟩
    | @lexeme k _ v hlex =>
      obtain ⟨others, hothers, hfirst⟩ := splits_withReturns_lexeme hlex hlong hqs
      refine ⟨others, hothers, fun before => ?_⟩
      rw [hfirst, htokens, tokensOf_lexeme, List.map_cons]

/-- **Texts with and without carriage returns are read alike.**  One can be read just if the other
can, and the tokens are the same, at the same places, but that newlines are one column further on, and
that strings have the carriage returns in them.  What is wrong with one is wrong with the other, at
the same place. -/
theorem scan_withReturns (text : List Char) :
    match Token.scan text with
    | .ok tokens => Token.scan (withReturns text) = .ok (tokens.map Token.withReturns)
    | .error e => ∃ line, (line = e.lineText ∨ line = e.lineText ++ ['\r']) ∧
        Token.scan (withReturns text) = .error { e with lineText := line } := by
  obtain ⟨ps, rest, hps, hend⟩ := exists_splits text
  obtain ⟨qs, hqs, htokens⟩ := splits_withReturns hps hend
  rcases hend with rfl | hno
  · rw [scan_of_splits hps]
    show Token.scan _ = .ok (List.map _ (tokensOf [] ps ++ [endToken text]))
    rw [scan_of_splits hqs, List.map_append, ← htokens, endToken, lineAfter_withReturns,
      columnAfter_withReturns]
    rfl
  · obtain ⟨f, hf, hscan⟩ := scan_of_noPiece hps hno
    obtain ⟨g, hg, hscan'⟩ := scan_of_noPiece hqs (noPiece_withReturns hno)
    have hwritten : written qs = withReturns (written ps) := by
      have htext := hqs.eq_append
      rw [hps.eq_append, withReturns_append] at htext
      exact (List.append_cancel_right htext).symm
    rw [hscan, hscan', hwritten, hg.unique (hno.faultOf_withReturns hf), lineAfter_withReturns,
      columnAfter_withReturns]
    exact ⟨_, lineAround_withReturns _ _, rfl⟩

/-- One carriage return belongs to a comment, one to a string, and one to no lexeme at all. -/
example :
    Token.scan (withReturns "x // y\n\"a\nb\" z\n".toList) = .ok
      [⟨.identifier, "x", .nil, 1, 1⟩, ⟨.endOfLine, "\n", .nil, 1, 8⟩,
        ⟨.string, "\"a\x0d\nb\"", .text "a\x0d\nb", 2, 1⟩, ⟨.identifier, "z", .nil, 3, 4⟩,
        ⟨.endOfLine, "\n", .nil, 3, 6⟩, ⟨.endOfInput, "", .nil, 4, 1⟩] := by
  decide +kernel

end Lexical

end LoxFront
