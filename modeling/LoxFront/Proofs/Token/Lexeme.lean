import LoxFront.Token.Scan
import Mathlib.Data.List.TakeWhile

/-!
# Lexemes

The lexical grammar, as relations between characters and what they stand for.  Nothing is said here
of where one lexeme ends and the next one begins.

    piece    ::= blank | comment | lexeme
    blank    ::= ' ' | '\t' | '\r'
    comment  ::= '//' (any character but a newline)*
    lexeme   ::= newline | word | digit+ ('.' digit+)? | '"' (any character but '"')* '"' | mark
    word     ::= (letter | '_') (letter | digit | '_')*

A word that is spelled like a keyword is that keyword, and any other is a name.

* `IsLexeme kind w v` : the characters `w` are a lexeme of a kind, with the value `v`;
* `IsPiece o w` : the characters `w` are a lexeme, or stand between lexemes if `o` is `none`;
* `isLexeme_of_at?`, `at?_of_isLexeme` : what reading finds in front of a text is a lexeme, and no
  lexeme in front of the text is longer.
-/

namespace LoxFront.Lexical

open Lexeme

/-! ### The grammar -/

/-- The operators and punctuation marks. -/
def marks : List (List Char × Kind) :=
  [(['('], .leftParen), ([')'], .rightParen), (['\x7b'], .leftBrace), (['\x7d'], .rightBrace),
    ([','], .comma), (['.'], .dot), (['-'], .minus), (['+'], .plus), ([';'], .semicolon),
    (['/'], .slash), (['*'], .star), (['!'], .bang), (['!', '='], .bangEqual), (['='], .equal),
    (['=', '='], .equalEqual), (['<'], .less), (['<', '='], .lessEqual), (['>'], .greater),
    (['>', '='], .greaterEqual)]

/-- The characters that may start a word, and behind them those that may go on with it. -/
def IsWord (w : List Char) : Prop :=
  ∃ c cs, w = c :: cs ∧ isNameStart c = true ∧ ∀ d ∈ cs, isNamePart d = true

/-- Some digits. -/
def IsDigits (ds : List Char) : Prop := ds ≠ [] ∧ ∀ d ∈ ds, d.isDigit = true

/-- The lexemes, their kinds and their values. -/
inductive IsLexeme : Kind → List Char → Literal → Prop
  | newline : IsLexeme .endOfLine ['\n'] .nil
  | keyword (k : Keyword) : IsLexeme (.keyword k) k.spelling.toList .nil
  | name {w : List Char} : IsWord w → (∀ k : Keyword, w ≠ k.spelling.toList) →
      IsLexeme .identifier w .nil
  | whole {ds : List Char} : IsDigits ds → IsLexeme .number ds (.number (.ofDigits ds []))
  | decimal {ds fs : List Char} : IsDigits ds → IsDigits fs →
      IsLexeme .number (ds ++ '.' :: fs) (.number (.ofDigits ds fs))
  | string {cs : List Char} : '"' ∉ cs →
      IsLexeme .string ('"' :: (cs ++ ['"'])) (.text (String.ofList cs))
  | mark {w : List Char} {k : Kind} : (w, k) ∈ marks → IsLexeme k w .nil

/-- The characters that stand between lexemes. -/
def IsBlank (c : Char) : Prop := c = ' ' ∨ c = '\t' ∨ c = '\r'

/-- The pieces of a text: the lexemes with their kinds and values, and what stands between them. -/
inductive IsPiece : Option (Kind × Literal) → List Char → Prop
  | blank {c : Char} : IsBlank c → IsPiece none [c]
  | comment {cs : List Char} : '\n' ∉ cs → IsPiece none ('/' :: '/' :: cs)
  | lexeme {k : Kind} {w : List Char} {v : Literal} : IsLexeme k w v → IsPiece (some (k, v)) w

/-! ### Runs of characters -/

section Runs

variable {p : Char → Bool} {as bs cs : List Char}

/-- A run of certain characters in front of a text is part of the longest one. -/
theorem prefix_takeWhile (h : as <+: cs) (ha : ∀ c ∈ as, p c = true) : as <+: cs.takeWhile p := by
  obtain ⟨bs, rfl⟩ := h
  rw [List.takeWhile_append_of_pos ha]
  exact List.prefix_append _ _

theorem take_length_takeWhile : cs.take (cs.takeWhile p).length = cs.takeWhile p :=
  (List.prefix_iff_eq_take.1 (List.takeWhile_prefix p)).symm

/-- In front of a character that is not one of them, a run of certain characters is the longest. -/
theorem takeWhile_append_cons {c : Char} (ha : ∀ d ∈ as, p d = true) (hc : p c = false) :
    (as ++ c :: bs).takeWhile p = as := by
  rw [List.takeWhile_append_of_pos ha, List.takeWhile_cons_of_neg (by simp [hc]), List.append_nil]

end Runs

/-! ### Words -/

theorem ofSpelling?_spelling (k : Keyword) : Keyword.ofSpelling? k.spelling = some k := by
  cases k <;> decide

theorem wordKind_spelling (k : Keyword) : wordKind k.spelling.toList = .keyword k := by
  rw [wordKind, String.ofList_toList, ofSpelling?_spelling]

theorem wordKind_of_ne {w : List Char} (h : ∀ k : Keyword, w ≠ k.spelling.toList) :
    wordKind w = .identifier := by
  have hnone : Keyword.ofSpelling? (String.ofList w) = none := by
    rw [Keyword.ofSpelling?, List.find?_eq_none]
    intro k _ hk
    refine h k ?_
    rw [beq_iff_eq.1 hk, String.toList_ofList]
  rw [wordKind, hnone]

theorem isWord_spelling (k : Keyword) : IsWord k.spelling.toList := by
  cases k <;> exact ⟨_, _, rfl, by decide, List.all_eq_true.1 (by decide)⟩

/-- A word is the keyword that it spells, or else a name. -/
theorem isLexeme_word {w : List Char} (hw : IsWord w) : IsLexeme (wordKind w) w .nil := by
  by_cases h : ∃ k : Keyword, w = k.spelling.toList
  · obtain ⟨k, rfl⟩ := h
    rw [wordKind_spelling]
    exact .keyword k
  · have hne : ∀ k : Keyword, w ≠ k.spelling.toList := fun k hk => h ⟨k, hk⟩
    rw [wordKind_of_ne hne]
    exact .name hw hne

theorem ne_newline_of_isNameStart {c : Char} (h : isNameStart c = true) : c ≠ '\n' := by
  rintro rfl
  exact absurd h (by decide)

theorem at?_word {c : Char} {rest : List Char} (hc : isNameStart c = true) :
    at? c rest =
      .ok (wordKind (c :: rest.takeWhile isNamePart), (rest.takeWhile isNamePart).length + 1) := by
  simp [at?, ne_newline_of_isNameStart hc, hc]

/-! ### Numbers -/

theorem isNameStart_of_isDigit {c : Char} (h : c.isDigit = true) : isNameStart c = false := by
  have hall : ∀ n < 58, 48 ≤ n → isNameStart (Char.ofNat n) = false := by decide
  obtain ⟨hlo, hhi⟩ := Char.isDigit_iff_toNat.1 h
  rw [← Char.ofNat_toNat c]
  exact hall _ (Nat.lt_succ_of_le hhi) hlo

theorem at?_digit {c : Char} {rest : List Char} (hc : c.isDigit = true) :
    at? c rest = .ok (.number, numberLength (c :: rest)) := by
  have hne : c ≠ '\n' := by
    rintro rfl
    exact absurd hc (by decide)
  simp [at?, hne, isNameStart_of_isDigit hc, hc]

/-- Digits that no fraction follows. -/
theorem numberLength_of_whole {ds rest : List Char} (hds : IsDigits ds)
    (hrest : fraction rest = []) (hstop : rest.takeWhile Char.isDigit = []) :
    numberLength (ds ++ rest) = ds.length := by
  have hwhole : (ds ++ rest).takeWhile Char.isDigit = ds := by
    rw [List.takeWhile_append_of_pos hds.2, hstop, List.append_nil]
  simp only [numberLength, hwhole, List.drop_left, hrest, ↓reduceIte]

/-- Digits with a point behind them, and what follows it. -/
theorem numberLength_of_point {ds rest : List Char} (hds : IsDigits ds) :
    numberLength (ds ++ '.' :: rest) =
      if rest.takeWhile Char.isDigit = [] then ds.length
      else ds.length + 1 + (rest.takeWhile Char.isDigit).length := by
  have hwhole : (ds ++ '.' :: rest).takeWhile Char.isDigit = ds :=
    takeWhile_append_cons hds.2 (by decide)
  simp only [numberLength, hwhole, List.drop_left, fraction]

/-- A text that begins with a digit is made of digits and what follows them. -/
theorem exists_digits (cs : List Char) {c : Char} (hc : c.isDigit = true) :
    ∃ ds rest, c :: cs = ds ++ rest ∧ IsDigits ds ∧ rest.takeWhile Char.isDigit = [] := by
  refine ⟨(c :: cs).takeWhile Char.isDigit, (c :: cs).dropWhile Char.isDigit,
    List.takeWhile_append_dropWhile.symm, ⟨?_, fun d => List.mem_takeWhile_imp⟩, ?_⟩
  · rw [List.takeWhile_cons_of_pos hc]
    exact List.cons_ne_nil _ _
  · exact List.takeWhile_eq_nil_iff.2 fun h => List.dropWhile_get_zero_not _ _ h

theorem literal_whole {ds : List Char} (hds : IsDigits ds) :
    literal .number ds = .number (.ofDigits ds []) := by
  have hwhole : ds.takeWhile Char.isDigit = ds := List.takeWhile_eq_self_iff.2 hds.2
  simp only [literal, hwhole, List.drop_length, fraction]

theorem literal_decimal {ds fs : List Char} (hds : IsDigits ds) (hfs : IsDigits fs) :
    literal .number (ds ++ '.' :: fs) = .number (.ofDigits ds fs) := by
  have hwhole : (ds ++ '.' :: fs).takeWhile Char.isDigit = ds :=
    takeWhile_append_cons hds.2 (by decide)
  have hfraction : fs.takeWhile Char.isDigit = fs := List.takeWhile_eq_self_iff.2 hfs.2
  simp only [literal, hwhole, List.drop_left, fraction, hfraction]

/-- A number in front of a text that begins with a digit. -/
theorem isLexeme_number {c : Char} {cs : List Char} (hc : c.isDigit = true) :
    numberLength (c :: cs) ≤ (c :: cs).length ∧
      IsLexeme .number ((c :: cs).take (numberLength (c :: cs)))
        (literal .number ((c :: cs).take (numberLength (c :: cs)))) := by
  obtain ⟨ds, rest, hcs, hds, hstop⟩ := exists_digits cs hc
  rw [hcs]
  by_cases hf : fraction rest = []
  · rw [numberLength_of_whole hds hf hstop, List.take_left, literal_whole hds]
    exact ⟨by simp, .whole hds⟩
  -- a fraction has a point in front of it
  obtain ⟨r, rfl⟩ : ∃ r, rest = '.' :: r := by
    unfold fraction at hf
    split at hf
    · exact ⟨_, rfl⟩
    · exact absurd rfl hf
  have hr : r.takeWhile Char.isDigit ≠ [] := hf
  have hfs : IsDigits (r.takeWhile Char.isDigit) := ⟨hr, fun d => List.mem_takeWhile_imp⟩
  have htake : (ds ++ '.' :: r).take (ds.length + 1 + (r.takeWhile Char.isDigit).length) =
      ds ++ '.' :: r.takeWhile Char.isDigit := by
    rw [Nat.add_assoc, List.take_length_add_append, Nat.add_comm 1, List.take_succ_cons,
      take_length_takeWhile]
  have hle := (List.takeWhile_prefix Char.isDigit (l := r)).length_le
  rw [numberLength_of_point hds, if_neg hr, htake, literal_decimal hds hfs]
  refine ⟨?_, .decimal hds hfs⟩
  simp only [List.length_append, List.length_cons]
  omega

theorem isDigit_head {c : Char} {ds cs : List Char} (hds : IsDigits ds)
    (h : ds <+: c :: cs) : c.isDigit = true := by
  obtain ⟨hne, hall⟩ := hds
  cases ds with
  | nil => exact absurd rfl hne
  | cons d ds =>
    obtain ⟨rfl, -⟩ := List.cons_prefix_cons.1 h
    exact hall d List.mem_cons_self

theorem length_le_numberLength {ds cs : List Char} (hds : IsDigits ds) (h : ds <+: cs) :
    ds.length ≤ numberLength cs := by
  have hle := (prefix_takeWhile h hds.2).length_le
  simp only [numberLength]
  split_ifs <;> omega

theorem decimal_length_le_numberLength {ds fs cs : List Char} (hds : IsDigits ds)
    (hfs : IsDigits fs) (h : ds ++ '.' :: fs <+: cs) :
    (ds ++ '.' :: fs).length ≤ numberLength cs := by
  obtain ⟨bs, rfl⟩ := h
  have hpre := prefix_takeWhile (List.prefix_append fs bs) hfs.2
  have hne : (fs ++ bs).takeWhile Char.isDigit ≠ [] := fun hnil =>
    hfs.1 (List.prefix_nil.1 (hnil ▸ hpre))
  have hle := hpre.length_le
  rw [List.append_assoc, List.cons_append, numberLength_of_point hds, if_neg hne]
  simp only [List.length_append, List.length_cons]
  omega

/-! ### Strings -/

theorem takeWhile_ne_of_notMem {q : Char} {cs : List Char} (h : q ∉ cs) :
    cs.takeWhile (· ≠ q) = cs :=
  List.takeWhile_eq_self_iff.2 fun _ hd => decide_eq_true (ne_of_mem_of_not_mem hd h)

theorem takeWhile_ne_append {q : Char} {cs : List Char} (rest : List Char) (h : q ∉ cs) :
    (cs ++ q :: rest).takeWhile (· ≠ q) = cs :=
  takeWhile_append_cons (fun _ hd => decide_eq_true (ne_of_mem_of_not_mem hd h)) (by simp)

/-- A quote without another one behind it. -/
theorem at?_quote_of_notMem {rest : List Char} (h : '"' ∉ rest) :
    at? '"' rest = .error .unterminatedString := by
  have hinside := takeWhile_ne_of_notMem h
  show (if (rest.takeWhile (· ≠ '"')).length < rest.length then _ else _) = _
  rw [hinside, if_neg (Nat.lt_irrefl _)]

/-- A quote, and the next one behind it. -/
theorem at?_quote_append {cs rest : List Char} (h : '"' ∉ cs) :
    at? '"' (cs ++ '"' :: rest) = .ok (.string, cs.length + 2) := by
  have hinside := takeWhile_ne_append rest h
  show (if ((cs ++ '"' :: rest).takeWhile (· ≠ '"')).length < (cs ++ '"' :: rest).length then
    Except.ok (Kind.string, ((cs ++ '"' :: rest).takeWhile (· ≠ '"')).length + 2) else _) = _
  rw [hinside, if_pos (by simp)]

theorem literal_string (cs : List Char) :
    literal .string ('"' :: (cs ++ ['"'])) = .text (String.ofList cs) := by
  simp [literal]

/-! ### Marks -/

theorem mem_marks_of_single? {c : Char} {k : Kind} (h : single? c = some k) : ([c], k) ∈ marks := by
  unfold single? at h
  split at h <;> cases h <;> decide

theorem mem_marks_of_withEqual? {c : Char} {k : Kind} (h : withEqual? c = some k) :
    ([c, '='], k) ∈ marks := by
  unfold withEqual? at h
  split at h <;> cases h <;> decide

/-- A mark is a character, or one that goes with an equals sign. -/
theorem marks_cases {w : List Char} {k : Kind} (h : (w, k) ∈ marks) :
    ∃ c, (single? c).isSome = true ∧
      (w = [c] ∧ single? c = some k ∨ w = [c, '='] ∧ withEqual? c = some k) := by
  have hall : ∀ x ∈ marks, (single? (x.1.headD ' ')).isSome = true ∧
      (x.1 = [x.1.headD ' '] ∧ single? (x.1.headD ' ') = some x.2 ∨
        x.1 = [x.1.headD ' ', '='] ∧ withEqual? (x.1.headD ' ') = some x.2) := by decide
  exact ⟨w.headD ' ', hall _ h⟩

theorem at?_other {c : Char} {rest : List Char} (hnl : c ≠ '\n') (hword : ¬ isNameStart c = true)
    (hdigit : ¬ c.isDigit = true) (hquote : c ≠ '"') :
    at? c rest = match mark? c rest with
      | some found => .ok found
      | none => .error (.invalidCharacter c) := by
  rw [at?, if_neg hnl, if_neg hword, if_neg hdigit]
  exact if_neg hquote

theorem at?_mark {c : Char} {rest : List Char} (hc : (single? c).isSome = true) :
    at? c rest = match mark? c rest with
      | some found => .ok found
      | none => .error (.invalidCharacter c) := by
  unfold single? at hc
  split at hc <;> first | rfl | cases hc

theorem mark?_eq_some {c : Char} {rest : List Char} {k : Kind} {n : Nat}
    (h : mark? c rest = some (k, n)) :
    (∃ r, rest = '=' :: r ∧ withEqual? c = some k ∧ n = 2) ∨ single? c = some k ∧ n = 1 := by
  unfold mark? at h
  split at h
  · rename_i kind hkind
    cases h
    split_ifs at hkind with heq
    obtain ⟨r, hr⟩ := List.head?_eq_some_iff.1 heq
    exact .inl ⟨r, hr, hkind, rfl⟩
  · obtain ⟨kind, hkind, hk⟩ := Option.map_eq_some_iff.1 h
    cases hk
    exact .inr ⟨hkind, rfl⟩

theorem at?_of_withEqual {c : Char} {k : Kind} {rest : List Char}
    (hc : (single? c).isSome = true) (hk : withEqual? c = some k) :
    at? c ('=' :: rest) = .ok (k, 2) := by
  simp [at?_mark hc, mark?, hk]

theorem at?_of_single {c : Char} {k : Kind} {rest : List Char} (hk : single? c = some k) :
    at? c rest = .ok (k, 1) ∨ ∃ k', at? c rest = .ok (k', 2) := by
  rw [at?_mark (by rw [hk]; rfl), mark?]
  cases (if rest.head? = some '=' then withEqual? c else none) with
  | some k' => exact .inr ⟨k', rfl⟩
  | none => exact .inl (by simp only [hk, Option.map_some])

/-! ### What reading finds -/

theorem literal_wordKind (w cs : List Char) : literal (wordKind w) cs = .nil := by
  unfold wordKind
  cases Keyword.ofSpelling? (String.ofList w) <;> rfl

/-- A mark has no value of its own. -/
theorem literal_mark {w : List Char} {k : Kind} (h : (w, k) ∈ marks) (cs : List Char) :
    literal k cs = .nil := by
  have hall : ∀ x ∈ marks, x.2 ≠ .number ∧ x.2 ≠ .string := by decide
  obtain ⟨hn, hs⟩ := hall _ h
  unfold literal
  split
  · exact absurd rfl hn
  · exact absurd rfl hs
  · rfl

/-- The value of a lexeme is that of its characters. -/
theorem literal_of_isLexeme {k : Kind} {w : List Char} {v : Literal} (h : IsLexeme k w v) :
    v = literal k w := by
  cases h with
  | newline => rfl
  | keyword => rfl
  | name => rfl
  | whole hds => exact (literal_whole hds).symm
  | decimal hds hfs => exact (literal_decimal hds hfs).symm
  | string => exact (literal_string _).symm
  | mark hm => exact (literal_mark hm _).symm

/-- **What is found in front of a text is a lexeme.** -/
theorem isLexeme_of_at? {c : Char} {rest : List Char} {k : Kind} {n : Nat}
    (h : at? c rest = .ok (k, n)) :
    n ≤ (c :: rest).length ∧
      IsLexeme k ((c :: rest).take n) (literal k ((c :: rest).take n)) := by
  by_cases hnl : c = '\n'
  · subst hnl
    cases h
    exact ⟨by simp, .newline⟩
  by_cases hword : isNameStart c = true
  · rw [at?_word hword] at h
    cases h
    have hle := (List.takeWhile_prefix isNamePart (l := rest)).length_le
    rw [List.take_succ_cons, take_length_takeWhile, literal_wordKind]
    exact ⟨Nat.succ_le_succ hle, isLexeme_word ⟨c, _, rfl, hword, fun d => List.mem_takeWhile_imp⟩⟩
  by_cases hdigit : c.isDigit = true
  · rw [at?_digit hdigit] at h
    cases h
    exact isLexeme_number hdigit
  by_cases hquote : c = '"'
  · subst hquote
    by_cases hmem : '"' ∈ rest
    · obtain ⟨cs, bs, rfl, hcs⟩ := List.eq_append_cons_of_mem hmem
      rw [at?_quote_append hcs] at h
      cases h
      have htake : ('"' :: (cs ++ '"' :: bs)).take (cs.length + 2) = '"' :: (cs ++ ['"']) := by
        rw [List.take_succ_cons, List.take_length_add_append]
        rfl
      rw [htake, literal_string]
      exact ⟨by simp, .string hcs⟩
    · rw [at?_quote_of_notMem hmem] at h
      cases h
  · rw [at?_other hnl hword hdigit hquote] at h
    cases hm : mark? c rest with
    | none => rw [hm] at h; cases h
    | some found =>
      rw [hm] at h
      cases h
      rcases mark?_eq_some hm with ⟨r, rfl, hk, rfl⟩ | ⟨hk, rfl⟩
      · have hmem := mem_marks_of_withEqual? hk
        rw [literal_mark hmem]
        exact ⟨by simp, .mark hmem⟩
      · have hmem := mem_marks_of_single? hk
        rw [literal_mark hmem]
        exact ⟨by simp, .mark hmem⟩

/-- **No lexeme in front of a text is longer than what is found there**, and one that is as long is
of the kind that is found. -/
theorem at?_of_isLexeme {c : Char} {rest w : List Char} {k : Kind} {v : Literal}
    (h : IsLexeme k w v) (hw : w <+: c :: rest) :
    ∃ k' n, at? c rest = .ok (k', n) ∧ w.length ≤ n ∧ (n = w.length → k' = k) := by
  have hword : ∀ w, IsWord w → w <+: c :: rest →
      ∃ k' n, at? c rest = .ok (k', n) ∧ w.length ≤ n ∧ (n = w.length → k' = wordKind w) := by
    rintro _ ⟨d, cs, rfl, hd, hcs⟩ hw
    obtain ⟨rfl, hcs'⟩ := List.cons_prefix_cons.1 hw
    have hpre := prefix_takeWhile hcs' hcs
    refine ⟨_, _, at?_word hd, Nat.succ_le_succ hpre.length_le, fun hn => ?_⟩
    rw [hpre.eq_of_length (Nat.succ.inj hn).symm]
  cases h with
  | newline =>
    obtain ⟨rfl, -⟩ := List.cons_prefix_cons.1 hw
    exact ⟨_, 1, rfl, Nat.le_refl _, fun _ => rfl⟩
  | keyword k =>
    obtain ⟨k', n, hat, hle, hk⟩ := hword _ (isWord_spelling k) hw
    exact ⟨k', n, hat, hle, fun hn => (hk hn).trans (wordKind_spelling k)⟩
  | name hw' hne =>
    obtain ⟨k', n, hat, hle, hk⟩ := hword _ hw' hw
    exact ⟨k', n, hat, hle, fun hn => (hk hn).trans (wordKind_of_ne hne)⟩
  | whole hds =>
    exact ⟨_, _, at?_digit (isDigit_head hds hw), length_le_numberLength hds hw, fun _ => rfl⟩
  | decimal hds hfs =>
    have hpoint := decimal_length_le_numberLength hds hfs hw
    have hw' := (List.prefix_append _ _).trans hw
    exact ⟨_, _, at?_digit (isDigit_head hds hw'), hpoint, fun _ => rfl⟩
  | @string cs hcs =>
    obtain ⟨rfl, bs, rfl⟩ := List.cons_prefix_cons.1 hw
    rw [List.append_assoc]
    exact ⟨_, _, at?_quote_append hcs, by simp, fun _ => rfl⟩
  | mark hm =>
    obtain ⟨d, hd, ⟨rfl, hk⟩ | ⟨rfl, hk⟩⟩ := marks_cases hm
    · obtain ⟨rfl, -⟩ := List.cons_prefix_cons.1 hw
      rcases at?_of_single hk with hat | ⟨k', hat⟩
      · exact ⟨_, 1, hat, Nat.le_refl _, fun _ => rfl⟩
      · exact ⟨k', 2, hat, by simp, fun hn => by simp at hn⟩
    · obtain ⟨rfl, bs, rfl⟩ := List.cons_prefix_cons.1 hw
      exact ⟨_, 2, at?_of_withEqual hd hk, Nat.le_refl _, fun _ => rfl⟩

/-- What is wrong with a text that no lexeme begins: a quote without another one, or a character. -/
inductive FaultOf : List Char → LexicalFault → Prop
  | unterminated {cs : List Char} : '"' ∉ cs → FaultOf ('"' :: cs) .unterminatedString
  | invalid {c : Char} {cs : List Char} : c ≠ '"' → FaultOf (c :: cs) (.invalidCharacter c)

/-- Where nothing is found, it is a quote that stands alone, or the character is at fault. -/
theorem faultOf_of_at? {c : Char} {rest : List Char} {f : LexicalFault}
    (h : at? c rest = .error f) : FaultOf (c :: rest) f := by
  by_cases hnl : c = '\n'
  · subst hnl
    cases h
  by_cases hword : isNameStart c = true
  · rw [at?_word hword] at h
    cases h
  by_cases hdigit : c.isDigit = true
  · rw [at?_digit hdigit] at h
    cases h
  by_cases hquote : c = '"'
  · subst hquote
    by_cases hmem : '"' ∈ rest
    · obtain ⟨cs, bs, rfl, hcs⟩ := List.eq_append_cons_of_mem hmem
      rw [at?_quote_append hcs] at h
      cases h
    · rw [at?_quote_of_notMem hmem] at h
      cases h
      exact .unterminated hmem
  · rw [at?_other hnl hword hdigit hquote] at h
    cases hm : mark? c rest with
    | some found => rw [hm] at h; cases h
    | none =>
      rw [hm] at h
      cases h
      exact .invalid hquote

end LoxFront.Lexical
