import LoxFront.Proofs.Token.Spaces
import LoxFront.Proofs.Tree.Alike

/-!
# Lexemes with blanks between them

What stands between the lexemes of a text has no meaning but to part them: comments, carriage returns
and any number of blanks do no more than a single blank.  Written with a single blank between any two
of them, the lexemes of a text are read again as the same tokens, at other places
(`lexemes_are_read_again`).

A lexeme is the longest piece in front of a blank, whatever comes behind that (`Longest.upToSpace`):
only comments and strings go on behind a blank, a comment begins with two slashes with nothing between
them, and a string ends with its own quote.
-/

namespace LoxFront

/-- The lexemes of tokens with a blank between any two of them.  The end of the input is none. -/
def Token.spaced (tokens : List Token) : String :=
  " ".intercalate ((tokens.filter (·.kind ≠ .endOfInput)).map Token.lexeme)

namespace Lexical

variable {k : Kind} {v : Literal} {w : List Char}

theorem longest_in_front_of_blank (h : IsLexeme k w v) (rest : List Char) :
    Longest (w ++ ' ' :: rest) ⟨w, some (k, v)⟩ :=
  (Longest.alone h).upToSpace fun _ hu => prefix_of_append_space (a := []) (.inr (.inl rfl)) hu

/-- Lexemes with blanks between them are split into these lexemes. -/
theorem exists_splits_spaced {ts : List Token}
    (h : ∀ t ∈ ts, IsLexeme t.kind t.lexeme.toList t.literal) :
    ∃ ps, Splits ([' '].intercalate (ts.map (·.lexeme.toList))) ps [] ∧
      ∀ before, List.Forall₂ Token.Alike ts (tokensOf before ps) := by
  induction ts with
  | nil => exact ⟨[], .nil [], fun _ => .nil⟩
  | cons t ts ih =>
    obtain ⟨ht, hts⟩ := List.forall_mem_cons.1 h
    let p : Piece := ⟨t.lexeme.toList, some (t.kind, t.literal)⟩
    have halike : ∀ {u : Token}, u.kind = t.kind → u.lexeme = String.ofList p.text →
        u.literal = t.literal → t.Alike u := fun hk hl hv =>
      ⟨hk.symm, by rw [hl, String.ofList_toList], hv.symm⟩
    cases ts with
    | nil =>
      refine ⟨[p], ?_, fun before => .cons (halike rfl rfl rfl) .nil⟩
      have hsplits : Splits (p.text ++ []) [p] [] := .cons (Longest.alone ht) (.nil [])
      rw [List.append_nil] at hsplits
      rwa [List.map_singleton, List.intercalate_singleton]
    | cons u ts =>
      obtain ⟨ps, hps, htokens⟩ := ih hts
      have hblank := longest_space (o := none) (.inr (.inl rfl)) (.blank (.inl rfl))
        ([' '].intercalate ((u :: ts).map (·.lexeme.toList)))
      refine ⟨p :: ⟨[' '], none⟩ :: ps, ?_, fun before => .cons (halike rfl rfl rfl) (htokens _)⟩
      rw [List.map_cons, List.map_cons, List.intercalate_cons_cons, List.append_assoc]
      exact .cons (longest_in_front_of_blank ht _) (.cons hblank hps)

/-- **What stands between lexemes only parts them.**  When a text can be read, its lexemes with single
blanks between them can be read too, and give tokens of the same kinds, with the same lexemes and
values. -/
theorem lexemes_are_read_again {text : List Char} {tokens : List Token}
    (h : Token.scan text = .ok tokens) :
    ∃ others, Token.scan (Token.spaced tokens).toList = .ok others ∧
      List.Forall₂ Token.Alike tokens others := by
  obtain ⟨ts, rfl, hts, -⟩ := tokens_of_scan h
  have hlexemes : ∀ t ∈ ts, IsLexeme t.kind t.lexeme.toList t.literal := by
    intro t ht
    obtain ⟨⟨_, _, w, -, hw, hlex, -⟩, -⟩ := hts t ht
    rwa [hw, String.toList_ofList]
  have hfilter : (ts ++ [endToken text]).filter (·.kind ≠ .endOfInput) = ts := by
    rw [List.filter_append, List.filter_eq_self.2 fun t ht => decide_eq_true (hts t ht).2]
    exact List.append_nil ts
  obtain ⟨ps, hps, htokens⟩ := exists_splits_spaced hlexemes
  have hspaced : (Token.spaced (ts ++ [endToken text])).toList =
      [' '].intercalate (ts.map (·.lexeme.toList)) := by
    rw [Token.spaced, hfilter, String.toList_intercalate, List.map_map]
    rfl
  rw [hspaced]
  exact ⟨_, scan_of_splits hps, List.rel_append (htokens []) (.cons ⟨rfl, rfl, rfl⟩ .nil)⟩

/-- Slashes that are no comment, a point that belongs to no number, and a comment with a carriage return
in it.  The string keeps its blanks and its newline. -/
theorem slashes_are_read_again :
    let text := "1.5. / /\"  \n//\"//2\x0d\n=\t= ==".toList
    let tokens : List Token :=
      [⟨.number, "1.5", .number (.ofDigits ['1'] ['5']), 1, 1⟩, ⟨.dot, ".", .nil, 1, 4⟩,
        ⟨.slash, "/", .nil, 1, 6⟩, ⟨.slash, "/", .nil, 1, 8⟩,
        ⟨.string, "\"  \n//\"", .text "  \n//", 1, 9⟩, ⟨.endOfLine, "\n", .nil, 2, 8⟩,
        ⟨.equal, "=", .nil, 3, 1⟩, ⟨.equal, "=", .nil, 3, 3⟩, ⟨.equalEqual, "==", .nil, 3, 5⟩,
        ⟨.endOfInput, "", .nil, 3, 7⟩]
    Token.scan text = .ok tokens ∧
      Token.spaced tokens = "1.5 . / / \"  \n//\" \n = = ==" ∧
      ∃ others, Token.scan "1.5 . / / \"  \n//\" \n = = ==".toList = .ok others ∧
        List.Forall₂ Token.Alike tokens others := by
  intro text tokens
  have hscan : Token.scan text = .ok tokens := by decide +kernel
  have hspaced : Token.spaced tokens = "1.5 . / / \"  \n//\" \n = = ==" := by decide +kernel
  refine ⟨hscan, hspaced, ?_⟩
  rw [← hspaced]
  exact lexemes_are_read_again hscan

end Lexical

end LoxFront
