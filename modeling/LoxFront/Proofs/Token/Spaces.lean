import LoxFront.Proofs.Token.Stream

/-!
# Spaces

Blanks and newlines part lexemes.  Comments and strings have them within (`IsLexeme.space_cases`,
`IsPiece.cases_of_mem`), but a comment begins with two slashes and a string ends with its own quote.  So
which lexeme is the longest one in front of a text is settled at the first space behind it
(`Longest.upToSpace`).
-/

namespace LoxFront.Lexical

open Lexeme

variable {o : Option (Kind × Literal)} {w text : List Char}

/-! ### Pieces with spaces in them -/

/-- A character that parts lexemes. -/
def IsSpace (c : Char) : Prop := c = '\n' ∨ IsBlank c

theorem IsSpace.cases {P : Char → Prop} {c : Char} (hc : IsSpace c) (hline : P '\n') (hblank : P ' ')
    (htab : P '\t') (hreturn : P '\r') : P c := by
  rcases hc with rfl | rfl | rfl | rfl <;> assumption

theorem IsSpace.not_isNamePart {c : Char} (hc : IsSpace c) : isNamePart c ≠ true :=
  hc.cases (P := fun c => isNamePart c ≠ true) (by decide) (by decide) (by decide) (by decide)

theorem IsSpace.not_isDigit {c : Char} (hc : IsSpace c) : c.isDigit ≠ true :=
  hc.cases (P := fun c => c.isDigit ≠ true) (by decide) (by decide) (by decide) (by decide)

theorem isNamePart_of_isNameStart {c : Char} (h : isNameStart c = true) : isNamePart c = true := by
  simp only [isNameStart, Bool.or_eq_true, isNamePart, Char.isAlphanum] at h ⊢
  exact h.imp_left .inl

theorem IsSpace.notMem_of_isWord {c : Char} (hc : IsSpace c) (hw : IsWord w) : c ∉ w := by
  obtain ⟨d, ds, rfl, hd, hds⟩ := hw
  intro hmem
  rcases List.mem_cons.1 hmem with rfl | hmem
  · exact hc.not_isNamePart (isNamePart_of_isNameStart hd)
  · exact hc.not_isNamePart (hds c hmem)

theorem IsSpace.notMem_of_isDigits {c : Char} (hc : IsSpace c) (hw : IsDigits w) : c ∉ w :=
  fun hmem => hc.not_isDigit (hw.2 c hmem)

theorem IsSpace.notMem_of_mark {c : Char} {k : Kind} (hc : IsSpace c) (hm : (w, k) ∈ marks) :
    c ∉ w := by
  have hall : ∀ x ∈ marks, c ∉ x.1 := hc.cases (P := fun c => ∀ x ∈ marks, c ∉ x.1)
    (by decide) (by decide) (by decide) (by decide)
  exact hall _ hm

/-- Newlines and strings apart, lexemes have no spaces in them. -/
theorem IsLexeme.space_cases {c : Char} {k : Kind} {v : Literal} (hc : IsSpace c)
    (h : IsLexeme k w v) :
    (k = .endOfLine ∧ w = ['\n'] ∧ v = .nil) ∨
      (∃ cs, k = .string ∧ w = '"' :: (cs ++ ['"']) ∧ v = .text (String.ofList cs) ∧ '"' ∉ cs) ∨
        (k ≠ .endOfLine ∧ k ≠ .string ∧ c ∉ w) := by
  cases h with
  | newline => exact .inl ⟨rfl, rfl, rfl⟩
  | string hcs => exact .inr (.inl ⟨_, rfl, rfl, rfl, hcs⟩)
  | keyword k => exact .inr (.inr ⟨nofun, nofun, hc.notMem_of_isWord (isWord_spelling k)⟩)
  | name hw _ => exact .inr (.inr ⟨nofun, nofun, hc.notMem_of_isWord hw⟩)
  | whole hds => exact .inr (.inr ⟨nofun, nofun, hc.notMem_of_isDigits hds⟩)
  | decimal hds hfs =>
    refine .inr (.inr ⟨nofun, nofun, fun hmem => ?_⟩)
    rcases List.mem_append.1 hmem with hmem | hmem
    · exact hc.notMem_of_isDigits hds hmem
    rcases List.mem_cons.1 hmem with rfl | hmem
    · have hpoint : ¬ IsSpace '.' := by simp [IsSpace, IsBlank]
      exact hpoint hc
    · exact hc.notMem_of_isDigits hfs hmem
  | mark hm =>
    have hall : ∀ x ∈ marks, x.2 ≠ .endOfLine ∧ x.2 ≠ .string := by decide
    exact .inr (.inr ⟨(hall _ hm).1, (hall _ hm).2, hc.notMem_of_mark hm⟩)

/-- Only comments and strings have spaces in them, and a space itself. -/
theorem IsPiece.cases_of_mem {c : Char} (hc : IsSpace c) (hw : IsPiece o w) (hmem : c ∈ w) :
    w = [c] ∨ (∃ cs, w = '/' :: '/' :: cs ∧ '\n' ∉ cs) ∨
      ∃ cs, w = '"' :: (cs ++ ['"']) ∧ '"' ∉ cs := by
  cases hw with
  | blank _ => exact .inl (by rw [List.mem_singleton.1 hmem])
  | comment hcs => exact .inr (.inl ⟨_, rfl, hcs⟩)
  | lexeme hlex =>
    rcases hlex.space_cases hc with ⟨-, rfl, -⟩ | ⟨cs, -, rfl, -, hcs⟩ | ⟨-, -, hno⟩
    · exact .inl (by rw [List.mem_singleton.1 hmem])
    · exact .inr (.inr ⟨cs, rfl, hcs⟩)
    · exact absurd hmem hno

/-- A piece that begins with a quote is a string. -/
theorem IsPiece.eq_string {cs : List Char} (hw : IsPiece o ('"' :: cs)) :
    ∃ ds, cs = ds ++ ['"'] ∧ '"' ∉ ds := by
  generalize hq : '"' :: cs = w at hw
  cases hw with
  | blank hc =>
    cases hq
    rcases hc with hc | hc | hc <;> cases hc
  | comment => cases hq
  | lexeme hlex =>
    subst hq
    obtain ⟨k, n, hat, hle, -⟩ := at?_of_isLexeme hlex (List.prefix_refl _)
    by_cases hmem : '"' ∈ cs
    -- what is found there ends with the next quote
    · obtain ⟨ds, rest, rfl, hds⟩ := List.eq_append_cons_of_mem hmem
      rw [at?_quote_append hds] at hat
      cases hat
      simp only [List.length_cons, List.length_append] at hle
      obtain rfl : rest = [] := List.eq_nil_of_length_eq_zero (by omega)
      exact ⟨ds, rfl, hds⟩
    · rw [at?_quote_of_notMem hmem] at hat
      cases hat

/-- Strings that begin at the same place are the same. -/
theorem eq_of_string_prefix {cs ds : List Char} (hcs : '"' ∉ cs) (hds : '"' ∉ ds)
    (h : ds ++ ['"'] <+: cs ++ ['"']) : ds = cs := by
  obtain ⟨rest, hrest⟩ := h
  have htake := congrArg (List.takeWhile (· ≠ '"')) hrest
  rwa [List.append_assoc, List.singleton_append, takeWhile_ne_append rest hds,
    takeWhile_ne_append [] hcs] at htake

/-- A piece that begins with a space is that space. -/
theorem IsPiece.eq_nil_of_space {c : Char} {cs : List Char} (hc : IsSpace c)
    (hw : IsPiece o (c :: cs)) : cs = [] := by
  rcases hw.cases_of_mem hc List.mem_cons_self with hw | ⟨ds, hw, -⟩ | ⟨ds, hw, -⟩
  · exact (List.cons.inj hw).2
  all_goals
    obtain rfl := (List.cons.inj hw).1
    rcases hc with hc | hc | hc | hc <;> cases hc

theorem at?_slash (rest : List Char) : at? '/' rest = .ok (.slash, 1) := by
  have hsingle : (if rest.head? = some '=' then withEqual? '/' else none) = none := ite_self none
  rw [at?_mark rfl, mark?, hsingle]
  rfl

/-- A lexeme that begins with a slash is that slash. -/
theorem IsLexeme.eq_nil_of_slash {k : Kind} {v : Literal} {cs : List Char}
    (h : IsLexeme k ('/' :: cs) v) : cs = [] := by
  obtain ⟨k', n, hat, hle, -⟩ := at?_of_isLexeme h (List.prefix_refl _)
  rw [at?_slash] at hat
  cases hat
  rw [List.length_cons] at hle
  exact List.eq_nil_of_length_eq_zero (by omega)

/-! ### The longest piece -/

/-- Where a space begins it is the longest piece. -/
theorem longest_space {c : Char} (hc : IsSpace c) (hp : IsPiece o [c]) (rest : List Char) :
    Longest (c :: rest) ⟨[c], o⟩ := by
  refine ⟨hp, fun o' w hw hpre => ?_⟩
  obtain ⟨d, ds, rfl⟩ := List.exists_cons_of_ne_nil (ne_nil_of_isPiece hw)
  obtain ⟨rfl, -⟩ := List.cons_prefix_cons.1 hpre
  rw [hw.eq_nil_of_space hc]

theorem longest_newline (text : List Char) :
    Longest ('\n' :: text) ⟨['\n'], some (.endOfLine, .nil)⟩ :=
  longest_space (.inl rfl) (.lexeme .newline) text

/-- A comment up to the end of its line is the longest piece. -/
theorem longest_comment {cs rest : List Char} (hcs : '\n' ∉ cs)
    (hrest : rest = [] ∨ ∃ r, rest = '\n' :: r) :
    Longest ('/' :: '/' :: cs ++ rest) ⟨'/' :: '/' :: cs, none⟩ := by
  refine ⟨.comment hcs, fun o w hw hpre => ?_⟩
  rcases List.prefix_or_prefix_of_prefix hpre (List.prefix_append _ rest) with hle | ⟨u, rfl⟩
  · exact hle.length_le
  have hu : u <+: rest := (List.prefix_append_right_inj _).1 hpre
  cases u with
  | nil => rw [List.append_nil]
  | cons c u =>
    -- a longer piece would have the newline in it
    obtain ⟨r, rfl⟩ := hrest.resolve_left fun hnil => by
      rw [hnil] at hu
      exact List.cons_ne_nil _ _ (List.prefix_nil.1 hu)
    obtain ⟨rfl, -⟩ := List.cons_prefix_cons.1 hu
    have hmem : '\n' ∈ '/' :: '/' :: cs ++ '\n' :: u := List.mem_append_right _ List.mem_cons_self
    rcases hw.cases_of_mem (.inl rfl) hmem with heq | ⟨ds, heq, hds⟩ | ⟨ds, heq, -⟩
    · cases heq
    · rw [heq] at hmem
      exact absurd (by simpa using hmem) hds
    · cases heq

/-- A string is the longest piece, whatever is behind its quote. -/
theorem longest_string {cs : List Char} (hcs : '"' ∉ cs) (rest : List Char) :
    Longest ('"' :: (cs ++ ['"']) ++ rest)
      ⟨'"' :: (cs ++ ['"']), some (.string, .text (String.ofList cs))⟩ := by
  refine ⟨.lexeme (.string hcs), fun o w hw hpre => ?_⟩
  rcases List.prefix_or_prefix_of_prefix hpre (List.prefix_append _ rest) with hle | ⟨u, rfl⟩
  · exact hle.length_le
  -- strings that begin at the same place are the same
  obtain ⟨ds, heq, hds⟩ : ∃ ds, cs ++ ['"'] ++ u = ds ++ ['"'] ∧ '"' ∉ ds := hw.eq_string
  obtain rfl := eq_of_string_prefix hds hcs ⟨u, heq⟩
  rw [List.cons_append, heq]

/-- **What comes behind the next space does not matter.**  A lexeme is the longest piece in front of a
text if it is so in front of one that begins with the same characters up to a space. -/
theorem Longest.upToSpace {k : Kind} {v : Literal} {a b : List Char}
    (h : Longest (w ++ a) ⟨w, some (k, v)⟩)
    (hab : ∀ u, (∀ c ∈ u, ¬ IsSpace c) → u <+: b → u <+: a) :
    Longest (w ++ b) ⟨w, some (k, v)⟩ := by
  refine ⟨h.1, fun o w' hw' hpre => ?_⟩
  rcases List.prefix_or_prefix_of_prefix hpre (List.prefix_append w b) with hle | ⟨u, rfl⟩
  · exact hle.length_le
  have hu : u <+: b := (List.prefix_append_right_inj w).1 hpre
  by_cases hspace : ∃ c ∈ w ++ u, IsSpace c
  · obtain ⟨c, hmem, hc⟩ := hspace
    have hlex : IsPiece (some (k, v)) w := h.1
    obtain ⟨d, ds, rfl⟩ := List.exists_cons_of_ne_nil (ne_nil_of_isPiece hlex)
    rcases hw'.cases_of_mem hc hmem with heq | ⟨cs, heq, -⟩ | ⟨cs, heq, hcs⟩
    · rw [heq]
      exact Nat.succ_le_succ (Nat.zero_le _)
    -- the lexeme is a slash in front of another one, so that there is a comment in the other text too
    · obtain ⟨rfl, htail⟩ := List.cons.inj heq
      obtain rfl : ds = [] := by cases hlex with | lexeme hlex => exact hlex.eq_nil_of_slash
      obtain rfl : u = '/' :: cs := htail
      have hslash : ['/'] <+: a := hab ['/'] (by simp [IsSpace, IsBlank])
        ((List.prefix_append ['/'] cs).trans hu)
      have hcomment := h.2 none ['/', '/'] (.comment List.not_mem_nil)
        (List.cons_prefix_cons.2 ⟨rfl, hslash⟩)
      exact absurd hcomment (Nat.not_succ_le_self 1)
    -- the lexeme begins with a quote, so that it is a string
    · obtain ⟨rfl, -⟩ := List.cons.inj heq
      obtain ⟨es, rfl, hes⟩ := hlex.eq_string
      exact (longest_string hes b).2 o _ hw' hpre
  · refine h.2 o _ hw' ((List.prefix_append_right_inj w).2 (hab u (fun c hc hsp => ?_) hu))
    exact hspace ⟨c, List.mem_append_right _ hc, hsp⟩

/-- What has no spaces in it ends in front of one. -/
theorem prefix_of_append_space {c : Char} {u a rest : List Char} (hc : IsSpace c)
    (hu : ∀ d ∈ u, ¬ IsSpace d) (h : u <+: a ++ c :: rest) : u <+: a := by
  rcases List.prefix_or_prefix_of_prefix h (List.prefix_append a _) with hle | ⟨v, rfl⟩
  · exact hle
  cases v with
  | nil => simp only [List.append_nil, List.prefix_rfl]
  | cons d v =>
    obtain ⟨rfl, -⟩ := List.cons_prefix_cons.1 ((List.prefix_append_right_inj a).1 h)
    exact absurd hc (hu d (List.mem_append_right _ List.mem_cons_self))

end LoxFront.Lexical
