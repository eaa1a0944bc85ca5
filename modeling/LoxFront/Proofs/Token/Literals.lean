import LoxFront.Proofs.Decimal.ReadBack
import LoxFront.Proofs.Decimal.Spelling
import LoxFront.Proofs.Token.Stream

/-!
# Literals and their spellings

The value of a literal is spelled as a program would write it, if it is a string
(`readBack_string`), a whole number or a number that is not too small.  Such a spelling is one lexeme
again, with the same value: the shortest digits of a number are read as that number, and neither a
point nor zeros that the layout adds change their value (`isLexeme_plainText`).

A program has other numbers too.  Below a ten-thousandth they are spelled with a power of ten, which
the lexical grammar does not have, and beyond the greatest finite number with a word, which is a name.
So the numbers of a program that are read back are known by their size (`literals_are_read_back`).
-/

namespace LoxFront

open Binary64 Decimal

/-- The spelling of a token's value is a text with one token in front of its end, of the same kind
and with the same value. -/
def Token.ReadBack (t : Token) : Prop :=
  ∃ u stop, Token.scan t.literal.spelling.toList = .ok [u, stop] ∧ u.kind = t.kind ∧
    u.literal = t.literal ∧ stop.kind = .endOfInput

namespace Lexical

variable {k : Kind} {v : Literal} {w text rest before : List Char} {ps : List Piece}

/-! ### Texts of one lexeme -/

/-- A lexeme by itself is read as one token. -/
theorem scan_lexeme (h : IsLexeme k w v) :
    Token.scan w = .ok [⟨k, String.ofList w, v, 1, 1⟩, endToken w] := by
  have hsplits : Splits (w ++ []) [⟨w, some (k, v)⟩] [] := .cons (Longest.alone h) (.nil [])
  rw [List.append_nil] at hsplits
  exact scan_of_splits hsplits

theorem readBack_of_isLexeme {t : Token} (h : IsLexeme t.kind t.literal.spelling.toList t.literal) :
    t.ReadBack := ⟨_, _, scan_lexeme h, rfl, rfl, rfl⟩

theorem Splits.isPiece (h : Splits text ps rest) : ∀ p ∈ ps, IsPiece p.lexeme? p.text := by
  induction h with
  | nil => exact List.forall_mem_nil _
  | cons hlong _ ih => exact List.forall_mem_cons.2 ⟨hlong.1, ih⟩

/-- Where nothing stands between the lexemes, one token is one piece. -/
theorem eq_singleton_of_tokensOf {u : Token} (hps : ∀ p ∈ ps, p.lexeme? ≠ none)
    (h : tokensOf before ps = [u]) : ∃ p, ps = [p] ∧ p.lexeme? = some (u.kind, u.literal) := by
  obtain _ | ⟨⟨w, _ | ⟨k, v⟩⟩, ps⟩ := ps
  · cases h
  · exact absurd rfl (hps _ List.mem_cons_self)
  obtain _ | ⟨⟨w', _ | ⟨k', v'⟩⟩, qs⟩ := ps
  · cases h
    exact ⟨_, rfl, rfl⟩
  · exact absurd rfl (hps _ (List.mem_cons_of_mem _ List.mem_cons_self))
  · rw [tokensOf_lexeme, tokensOf_lexeme] at h
    cases h

/-! ### Numbers that are read back -/

/-- Written out, digits are a lexeme with the value of the decimal. -/
theorem isLexeme_plainText {digits : List Char} (h : IsDigits digits) (x : Int) :
    IsLexeme .number (plainText digits x) (.number (ofDecimal false ⟨digitsValue digits, x⟩)) := by
  simp only [plainText]
  split_ifs with hx
  · -- zeros up to the point, and one behind it
    have hwhole : IsDigits (digits ++ List.replicate x.toNat '0') :=
      ⟨List.append_ne_nil_of_left_ne_nil h.1 _,
        List.forall_mem_append.2 ⟨h.2, fun c => isDigit_of_mem_zeros⟩⟩
    have hfraction : IsDigits ['0'] := ⟨List.cons_ne_nil _ _, List.forall_mem_singleton.2 rfl⟩
    have hvalue : Decimal.value
        ⟨digitsValue (digits ++ List.replicate x.toNat '0' ++ List.replicate 1 '0'), -(1 : Nat)⟩ =
          Decimal.value ⟨digitsValue digits, x⟩ := by
      obtain ⟨n, rfl⟩ := Int.eq_ofNat_of_zero_le hx
      rw [digitsValue_append_zeros, digitsValue_append_zeros, Int.toNat_natCast]
      simp only [Decimal.value, zpow_neg, zpow_natCast]
      push_cast
      field_simp
    rw [← ofDecimal_congr false hvalue]
    exact .decimal hwhole hfraction
  · -- with zeros in front there are more digits than places behind the point
    obtain ⟨places, hplaces⟩ := Int.eq_ofNat_of_zero_le (show 0 ≤ -x by omega)
    obtain rfl : x = -places := by omega
    rw [Int.neg_neg, Int.toNat_natCast]
    have hall : ∀ c ∈ List.replicate (places + 1 - digits.length) '0' ++ digits, c.isDigit = true :=
      List.forall_mem_append.2 ⟨fun c => isDigit_of_mem_zeros, h.2⟩
    have hlen : places < (List.replicate (places + 1 - digits.length) '0' ++ digits).length := by
      rw [List.length_append, List.length_replicate]
      omega
    rw [← digitsValue_zeros_append (places + 1 - digits.length)]
    generalize List.replicate (places + 1 - digits.length) '0' ++ digits = padded at hall hlen ⊢
    have hdrop : (padded.drop (padded.length - places)).length = places := by
      rw [List.length_drop]
      omega
    have hwhole : IsDigits (padded.take (padded.length - places)) :=
      ⟨List.ne_nil_of_length_pos (by rw [List.length_take]; omega),
        fun c hc => hall c (List.mem_of_mem_take hc)⟩
    have hfraction : IsDigits (padded.drop (padded.length - places)) :=
      ⟨List.ne_nil_of_length_pos (by omega), fun c hc => hall c (List.mem_of_mem_drop hc)⟩
    have hlex := IsLexeme.decimal hwhole hfraction
    rwa [ofDigits, List.take_append_drop, hdrop] at hlex

theorem isDigits_toDigits (n : Nat) : IsDigits (Nat.toDigits 10 n) :=
  ⟨Nat.toDigits_ne_nil, fun _ => isDigit_of_mem_toDigits⟩

variable {m : Nat} {e : Int}

/-- A whole number is spelled with its digits. -/
theorem isLexeme_of_whole (hx : IsFinite m e) {n : Int} (hn : (finite false m e).whole? = some n) :
    IsLexeme .number (Literal.number (finite false m e)).spelling.toList
      (.number (finite false m e)) := by
  obtain ⟨k, rfl, hk⟩ := whole?_eq_some hn
  have hspelling : (Literal.number (finite false m e)).spelling.toList = Nat.toDigits 10 k := by
    rw [Literal.spelling, hn]
    exact String.toList_ofList
  have hread : ofDigits (Nat.toDigits 10 k) [] = finite false m e := by
    rw [ofDigits, List.append_nil, digitsValue_toDigits]
    refine ofDecimal_exact hx.canonical hx.exponent_le ?_
    rw [← hk]
    simp [Decimal.value]
  rw [hspelling, ← hread]
  exact .whole (isDigits_toDigits k)

/-- A number with a fractional part is spelled with its shortest digits. -/
theorem spelling_of_fraction (hwhole : (finite false m e).whole? = none) :
    (Literal.number (finite false m e)).spelling.toList = (shortest m e).text .listing := by
  simp [Literal.spelling, hwhole, Binary64.text, ne_zero_of_whole?_eq_none hwhole]

theorem isLexeme_of_isPlain (hx : IsFinite m e) (hwhole : (finite false m e).whole? = none)
    (hplain : IsPlain .listing (shortest m e)) :
    IsLexeme .number (Literal.number (finite false m e)).spelling.toList
      (.number (finite false m e)) := by
  have hlex := isLexeme_plainText (isDigits_toDigits (shortest m e).digits) (shortest m e).exponent
  rw [spelling_of_fraction hwhole, text_of_isPlain hplain]
  rwa [digitsValue_toDigits, ofDecimal_shortest hx] at hlex

/-! ### Numbers that are not read back -/

theorem isLexeme_of_isPiece (h : IsPiece (some (k, v)) w) : IsLexeme k w v := by
  cases h
  assumption

/-- The characters of numbers do not stand between lexemes. -/
theorem IsPiece.ne_none {o : Option (Kind × Literal)} (h : IsPiece o w)
    (hw : ∀ c ∈ w, isNumeralPart c = true) : o ≠ none := by
  cases h with
  | blank hc =>
    have hpart := hw _ List.mem_cons_self
    rcases hc with rfl | rfl | rfl <;> cases hpart
  | comment =>
    have hpart := hw _ List.mem_cons_self
    cases hpart
  | lexeme => exact Option.some_ne_none _

/-- A mark is neither a number nor a string. -/
theorem ne_of_mem_marks (h : (w, k) ∈ marks) : k ≠ .number ∧ k ≠ .string := by
  have hall : ∀ x ∈ marks, x.2 ≠ .number ∧ x.2 ≠ .string := by decide
  exact hall _ h

/-- A number in a program has no power of ten. -/
theorem exponent_notMem_of_number (h : IsLexeme .number w v) : 'e' ∉ w := by
  have hdigits : ∀ {ds : List Char}, IsDigits ds → 'e' ∉ ds := fun hds hmem =>
    absurd (hds.2 _ hmem) (by decide)
  cases h with
  | whole hds => exact hdigits hds
  | decimal hds hfs => simp [hdigits hds, hdigits hfs]
  | mark hm => exact absurd rfl (ne_of_mem_marks hm).1

/-- A number that is spelled with a power of ten is not read back. -/
theorem not_readBack_of_exponent {t : Token} (hk : t.kind = .number)
    (hall : ∀ c ∈ t.literal.spelling.toList, isNumeralPart c = true)
    (he : 'e' ∈ t.literal.spelling.toList) : ¬ t.ReadBack := by
  rintro ⟨u, stop, hscan, hu, -, -⟩
  obtain ⟨ps, hsplits, htext, htokens⟩ := splits_of_scan hscan
  have hone : tokensOf [] ps = [u] := by
    have hfront := congrArg List.dropLast htokens
    rw [List.dropLast_concat] at hfront
    exact hfront.symm
  rw [List.nil_append] at htext
  have hlexemes : ∀ p ∈ ps, p.lexeme? ≠ none := by
    refine fun p hp => (hsplits.isPiece p hp).ne_none fun c hc => hall c ?_
    rw [← htext]
    exact List.mem_flatMap_of_mem hp hc
  obtain ⟨p, rfl, hp⟩ := eq_singleton_of_tokensOf hlexemes hone
  -- the only piece is a number, and all of the spelling
  have hpiece := hsplits.isPiece p List.mem_cons_self
  rw [hp, hu, hk] at hpiece
  refine exponent_notMem_of_number (isLexeme_of_isPiece hpiece) ?_
  rw [written, List.flatMap_singleton] at htext
  rwa [htext]

theorem exponent_mem_scientificText (layout : Layout) (digits : List Char) (power : Int) :
    'e' ∈ scientificText layout digits power :=
  List.mem_append_right _ List.mem_cons_self

theorem not_readBack_of_not_isPlain {t : Token} (hk : t.kind = .number)
    (hv : t.literal = .number (finite false m e)) (hwhole : (finite false m e).whole? = none)
    (hplain : ¬ IsPlain .listing (shortest m e)) : ¬ t.ReadBack := by
  have hspelling : t.literal.spelling.toList = (shortest m e).text .listing := by
    rw [hv, spelling_of_fraction hwhole]
  refine not_readBack_of_exponent hk ?_ ?_
  · rw [hspelling]
    exact (isNumeral_text _ _).2
  · rw [hspelling, text_of_not_isPlain hplain]
    exact exponent_mem_scientificText _ _ _

/-- Infinity is spelled like a name. -/
theorem not_readBack_of_infinite {t : Token} (hk : t.kind = .number)
    (hv : t.literal = .number (.infinite false)) : ¬ t.ReadBack := by
  rintro ⟨u, stop, hscan, hu, -, -⟩
  have hname : Token.scan (Literal.number (.infinite false)).spelling.toList =
      .ok [⟨.identifier, "inf", .nil, 1, 1⟩, ⟨.endOfInput, "", .nil, 1, 4⟩] := by decide
  rw [hv, hname] at hscan
  cases hscan
  rw [hk] at hu
  cases hu

/-- **A number is read back** if it is finite, and whole or at least a ten-thousandth. -/
theorem readBack_number_iff {t : Token} {d : Decimal} (hk : t.kind = .number)
    (hv : t.literal = .number (ofDecimal false d)) :
    t.ReadBack ↔ ∃ n, (ofDecimal false d).units = some n ∧
      ((ofDecimal false d).whole? ≠ none ∨ (one : Int) ≤ 10000 * n) := by
  have hcanonical := ofDecimal_canonical false d
  cases hx : ofDecimal false d with
  | nan =>
    rw [hx] at hcanonical
    exact hcanonical.elim
  | infinite s =>
    rw [hx] at hcanonical hv
    obtain rfl : s = false := hcanonical
    exact iff_of_false (not_readBack_of_infinite hk hv) fun ⟨n, hn, _⟩ => by cases hn
  | finite s m e =>
    rw [hx] at hv
    obtain ⟨rfl, hfinite⟩ := ofDecimal_isFinite hx
    obtain ⟨n, hn⟩ : ∃ n, (finite false m e).units = some n := ⟨_, units_finite m e⟩
    have hlexeme : IsLexeme .number (Literal.number (finite false m e)).spelling.toList
        (.number (finite false m e)) → t.ReadBack := fun h => readBack_of_isLexeme (by rwa [hk, hv])
    cases hwhole : (finite false m e).whole? with
    | some j =>
      exact iff_of_true (hlexeme (isLexeme_of_whole hfinite hwhole))
        ⟨n, hn, .inl (Option.some_ne_none j)⟩
    | none =>
      have hsize := isPlain_iff hfinite hwhole hn
      constructor
      · intro hback
        by_contra hsmall
        refine not_readBack_of_not_isPlain hk hv hwhole (fun hplain => hsmall ?_) hback
        exact ⟨n, hn, .inr (hsize.1 hplain)⟩
      · rintro ⟨n', hn', hne | hle⟩
        · exact absurd rfl hne
        · rw [hn] at hn'
          cases hn'
          exact hlexeme (isLexeme_of_isPlain hfinite hwhole (hsize.2 hle))

/-! ### The literals of a program -/

/-- The value of a string or number in a text. -/
theorem literal_of_number (h : IsLexeme .number w v) : ∃ d, v = .number (ofDecimal false d) := by
  cases h with
  | whole => exact ⟨_, rfl⟩
  | decimal => exact ⟨_, rfl⟩
  | mark hm => exact absurd rfl (ne_of_mem_marks hm).1

theorem readBack_string {t : Token} (hk : t.kind = .string) (h : IsLexeme t.kind w t.literal) :
    t.ReadBack := by
  refine readBack_of_isLexeme ?_
  rw [hk] at h ⊢
  generalize t.literal = v at h ⊢
  cases h with
  | string hcs =>
    simp only [Literal.spelling, String.toList_append, String.toList_ofList]
    exact .string hcs
  | mark hm => exact absurd rfl (ne_of_mem_marks hm).2

/-- **The literals of a text are read back**, apart from small and from infinite numbers.  For every
string of a text that is read, the spelling of its value is a text with one token and its end, and the
token is a string with the same value.  The same holds of a number if and only if it is finite, and
whole or not less than a ten-thousandth. -/
theorem literals_are_read_back {text : List Char} {tokens : List Token}
    (h : Token.scan text = .ok tokens) {t : Token} (ht : t ∈ tokens) :
    (t.kind = .string → t.ReadBack) ∧
      (t.kind = .number → ∃ x, t.literal = .number x ∧ (t.ReadBack ↔
        ∃ n, x.units = some n ∧ (x.whole? ≠ none ∨ (one : Int) ≤ 10000 * n))) := by
  obtain ⟨ts, rfl, hts, -⟩ := tokens_of_scan h
  rcases List.mem_append.1 ht with ht | ht
  · obtain ⟨⟨_, _, w, -, -, hlex, -⟩, -⟩ := hts t ht
    refine ⟨fun hk => readBack_string hk hlex, fun hk => ?_⟩
    obtain ⟨d, hd⟩ := literal_of_number (hk ▸ hlex)
    exact ⟨_, hd, readBack_number_iff hk hd⟩
  · -- the end of the text has no value
    obtain rfl := List.mem_singleton.1 ht
    exact ⟨nofun, nofun⟩

/-- A ten-thousandth, and a string with a newline in it. -/
theorem a_ten_thousandth_is_read_back :
    let t : Token := ⟨.number, "0.0001", .number (.ofDigits ['0'] ['0', '0', '0', '1']), 1, 1⟩
    let u : Token := ⟨.string, "\"\n\"", .text "\n", 1, 7⟩
    Token.scan "0.0001\"\n\"".toList = .ok [t, u, ⟨.endOfInput, "", .nil, 2, 2⟩] ∧
      t.ReadBack ∧ u.ReadBack := by
  intro t u
  have hscan : Token.scan "0.0001\"\n\"".toList = .ok [t, u, ⟨.endOfInput, "", .nil, 2, 2⟩] := by
    decide +kernel
  obtain ⟨x, hx, hback⟩ := (literals_are_read_back hscan (List.mem_cons_self : t ∈ _)).2 rfl
  cases hx
  have hten : ofDigits ['0'] ['0', '0', '0', '1'] = finite false 7378697629483821 (-66) := by
    decide +kernel
  refine ⟨hscan, hback.2 ⟨_, hten ▸ units_finite _ _, .inr (by decide +kernel)⟩, ?_⟩
  exact (literals_are_read_back hscan (List.mem_cons_of_mem t List.mem_cons_self)).1 rfl

/-- A tenth of it is spelled with a power of ten. -/
theorem a_hundred_thousandth_is_not_read_back :
    let t : Token := ⟨.number, "0.00001", .number (.ofDigits ['0'] ['0', '0', '0', '0', '1']), 1, 1⟩
    Token.scan "0.00001".toList = .ok [t, ⟨.endOfInput, "", .nil, 1, 8⟩] ∧
      t.literal.spelling = "1e-05" ∧ ¬ t.ReadBack := by
  intro t
  have hspelling : t.literal.spelling = "1e-05" := by decide +kernel
  refine ⟨by decide +kernel, hspelling, not_readBack_of_exponent rfl ?_ ?_⟩
  · rw [hspelling]
    exact List.all_eq_true.1 rfl
  · rw [hspelling]
    decide

end Lexical

end LoxFront
