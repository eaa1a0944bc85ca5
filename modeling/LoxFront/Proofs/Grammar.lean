import LoxFront.Parse.Expression

/-!
# The grammar

The grammar of programs, as relations between tokens and the trees that they stand for.  Nothing is
said here of how tokens are read.

    program      ::= EOL* declaration* EOF
    declaration  ::= 'var' NAME ('=' expression)? end | 'print' expression end | expression end
                   | '{' EOL* declaration* '}' end
    end          ::= EOL+ | ';' EOL* | in front of EOF | inside a block, in front of '}'

An expression belongs to one of seven levels (`Level`).  A chain of binary operators leans to the left
(`Derives.operator`), assignments and prefix operators lean to the right, and only a bare name can be
assigned to (`Derives.assign`).

* `Derives l ts e` : the tokens `ts` are an expression of level `l`, and `e` is its tree;
* `Declarations b ts us p` : the tokens `ts` begin with declarations with the trees `p` and go on with
  `us`, inside a block if `b` is true;
* `IsProgram ts p` : the tokens `ts` are a program with the trees `p`.

A tree holds the names, operators and values of its tokens in their order, and no others
(`IsProgram.words`).
-/

namespace LoxFront.Grammar

open Parse (BinaryLevel)

/-! ### Expressions -/

/-- Levels of precedence, the weakest first. -/
inductive Level where
  | assignment
  | binary (level : BinaryLevel)
  | unary
  | primary
deriving DecidableEq

/-- The level of the operands of the binary operators of a level. -/
def tighter : BinaryLevel → Level
  | .equality => .binary .comparison
  | .comparison => .binary .sum
  | .sum => .binary .product
  | .product => .unary

/-- The binary operators of a level. -/
inductive Joins : BinaryLevel → Kind → Prop
  | equalEqual : Joins .equality .equalEqual
  | bangEqual : Joins .equality .bangEqual
  | greater : Joins .comparison .greater
  | greaterEqual : Joins .comparison .greaterEqual
  | less : Joins .comparison .less
  | lessEqual : Joins .comparison .lessEqual
  | plus : Joins .sum .plus
  | minus : Joins .sum .minus
  | star : Joins .product .star
  | slash : Joins .product .slash

/-- The operators in front of an operand. -/
inductive Negates : Kind → Prop
  | bang : Negates .bang
  | minus : Negates .minus

/-- The tokens that are literals, and their values. -/
inductive Denotes : Token → Literal → Prop
  | number {t : Token} : t.kind = .number → Denotes t t.literal
  | string {t : Token} : t.kind = .string → Denotes t t.literal
  | isTrue {t : Token} : t.kind = .keyword .kTrue → Denotes t (.bool true)
  | isFalse {t : Token} : t.kind = .keyword .kFalse → Denotes t (.bool false)
  | isNil {t : Token} : t.kind = .keyword .kNil → Denotes t .nil

/-- The tokens of expressions, and their trees. -/
inductive Derives : Level → List Token → Expr → Prop
  | literal {t : Token} {v : Literal} : Denotes t v → Derives .primary [t] (.literal v)
  | reference {t : Token} : t.kind = .identifier → Derives .primary [t] (.reference t)
  | group {l r : Token} {ts : List Token} {e : Expr} : l.kind = .leftParen →
      Derives .assignment ts e → r.kind = .rightParen →
      Derives .primary (l :: (ts ++ [r])) (.group e)
  | primary {ts : List Token} {e : Expr} : Derives .primary ts e → Derives .unary ts e
  | unary {o : Token} {ts : List Token} {e : Expr} : Negates o.kind → Derives .unary ts e →
      Derives .unary (o :: ts) (.unary o e)
  | operand {b : BinaryLevel} {ts : List Token} {e : Expr} : Derives (tighter b) ts e →
      Derives (.binary b) ts e
  | operator {b : BinaryLevel} {o : Token} {ts us : List Token} {e f : Expr} :
      Derives (.binary b) ts e → Joins b o.kind → Derives (tighter b) us f →
      Derives (.binary b) (ts ++ o :: us) (.binary e o f)
  | equality {ts : List Token} {e : Expr} : Derives (.binary .equality) ts e →
      Derives .assignment ts e
  | assign {name equals : Token} {ts : List Token} {e : Expr} : name.kind = .identifier →
      equals.kind = .equal → Derives .assignment ts e →
      Derives .assignment (name :: equals :: ts) (.assign name e)

/-- Only a name by itself derives a variable. -/
theorem Derives.of_reference {l : Level} {ts : List Token} {n : Token}
    (h : Derives l ts (.reference n)) : ts = [n] ∧ n.kind = .identifier := by
  generalize he : Expr.reference n = e at h
  induction h with
  | reference hk =>
    cases he
    exact ⟨rfl, hk⟩
  | primary _ ih => exact ih he
  | operand _ ih => exact ih he
  | equality _ ih => exact ih he
  | _ => cases he

/-- The kinds of tokens that an expression begins with. -/
inductive Begins : Kind → Prop
  | name : Begins .identifier
  | paren : Begins .leftParen
  | negation {k : Kind} : Negates k → Begins k
  | literal {t : Token} {v : Literal} : Denotes t v → Begins t.kind

theorem Derives.exists_head {l : Level} {ts : List Token} {e : Expr} (h : Derives l ts e) :
    ∃ t us, ts = t :: us ∧ Begins t.kind := by
  induction h with
  | @literal t v hv => exact ⟨t, [], rfl, .literal hv⟩
  | @reference t hk => exact ⟨t, [], rfl, hk ▸ .name⟩
  | @group l r ts e hl _ hr ih => exact ⟨l, _, rfl, hl ▸ .paren⟩
  | primary _ ih => exact ih
  | @unary o ts e ho _ ih => exact ⟨o, ts, rfl, .negation ho⟩
  | operand _ ih => exact ih
  | operator _ _ _ ih _ =>
    obtain ⟨t, us, rfl, ht⟩ := ih
    exact ⟨t, _, rfl, ht⟩
  | equality _ ih => exact ih
  | assign hn _ _ ih => exact ⟨_, _, rfl, hn ▸ .name⟩

/-! ### Statements -/

/-- Tokens that are line ends. -/
def LineEnds (ts : List Token) : Prop := ∀ t ∈ ts, t.kind = .endOfLine

/-- A statement ends, inside a block or not, between the tokens `ts` that begin with its end and the
tokens `us` behind it. -/
inductive Closes (inBlock : Bool) : List Token → List Token → Prop
  | lines {ls us : List Token} : ls ≠ [] → LineEnds ls → Closes inBlock (ls ++ us) us
  | semicolon {t : Token} {ls us : List Token} : t.kind = .semicolon → LineEnds ls →
      Closes inBlock (t :: (ls ++ us)) us
  | endOfInput {t : Token} {us : List Token} : t.kind = .endOfInput →
      Closes inBlock (t :: us) (t :: us)
  | brace {t : Token} {us : List Token} : inBlock = true → t.kind = .rightBrace →
      Closes inBlock (t :: us) (t :: us)

/-- The tokens of a statement other than a block, without its end. -/
inductive Plain : List Token → Stmt → Prop
  | declare {v name : Token} : v.kind = .keyword .kVar → name.kind = .identifier →
      Plain [v, name] (.declare name none)
  | initial {v name equals : Token} {ts : List Token} {e : Expr} : v.kind = .keyword .kVar →
      name.kind = .identifier → equals.kind = .equal → Derives .assignment ts e →
      Plain (v :: name :: equals :: ts) (.declare name (some e))
  | print {p : Token} {ts : List Token} {e : Expr} : p.kind = .keyword .kPrint →
      Derives .assignment ts e → Plain (p :: ts) (.print e)
  | expression {ts : List Token} {e : Expr} : Derives .assignment ts e → Plain ts (.expression e)

/-- Declarations, inside a block or not, between the tokens `ts` that begin with them and the tokens
behind them. -/
inductive Declarations : Bool → List Token → List Token → List Stmt → Prop
  | nil {b : Bool} {ts : List Token} : Declarations b ts ts []
  | plain {b : Bool} {ts us vs ws : List Token} {s : Stmt} {p : List Stmt} : Plain ts s →
      Closes b us vs → Declarations b vs ws p → Declarations b (ts ++ us) ws (s :: p)
  | block {b : Bool} {l r : Token} {ls ts us vs ws : List Token} {items p : List Stmt} :
      l.kind = .leftBrace → LineEnds ls → Declarations true ts (r :: us) items →
      r.kind = .rightBrace → Closes b us vs → Declarations b vs ws p →
      Declarations b (l :: (ls ++ ts)) ws (.block items :: p)

/-- The tokens of a whole program, and its trees. -/
inductive IsProgram : List Token → List Stmt → Prop
  | mk {ls ts : List Token} {e : Token} {p : List Stmt} : LineEnds ls → e.kind = .endOfInput →
      Declarations false ts [e] p → IsProgram (ls ++ ts) p

/-- A statement other than a block begins with its keyword or with its expression. -/
theorem Plain.exists_head {ts : List Token} {s : Stmt} (h : Plain ts s) :
    ∃ t us, ts = t :: us ∧
      (t.kind = .keyword .kVar ∨ t.kind = .keyword .kPrint ∨ Begins t.kind) := by
  cases h with
  | declare hv _ => exact ⟨_, _, rfl, .inl hv⟩
  | initial hv _ _ _ => exact ⟨_, _, rfl, .inl hv⟩
  | print hp _ => exact ⟨_, _, rfl, .inr (.inl hp)⟩
  | expression h =>
    obtain ⟨t, us, rfl, ht⟩ := h.exists_head
    exact ⟨t, us, rfl, .inr (.inr ht)⟩

/-- The kinds of tokens that a declaration begins with. -/
def Opens (k : Kind) : Prop :=
  k = .keyword .kVar ∨ k = .keyword .kPrint ∨ k = .leftBrace ∨ Begins k

/-- Where no declaration can begin there is none. -/
theorem Declarations.eq_nil {b : Bool} {t : Token} {ts ws : List Token} {p : List Stmt}
    (h : Declarations b (t :: ts) ws p) (ht : ¬ Opens t.kind) : ws = t :: ts ∧ p = [] := by
  generalize hu : t :: ts = us at h
  cases h with
  | nil => exact ⟨rfl, rfl⟩
  | plain hs _ _ =>
    obtain ⟨u, us, rfl, hk⟩ := hs.exists_head
    cases hu
    exact absurd (hk.imp_right (Or.imp_right .inr)) ht
  | block hl =>
    cases hu
    exact absurd (.inr (.inr (.inl hl))) ht

/-! ### What a tree keeps -/

/-- What a token leaves in a tree: itself, if it is a name or an operator, or its value. -/
inductive Word where
  | token (t : Token)
  | value (v : Literal)
deriving DecidableEq

/-- The word of a token, if a tree keeps it. -/
def word? (t : Token) : Option Word :=
  match t.kind with
  | .identifier | .bang | .minus | .plus | .star | .slash => some (.token t)
  | .equalEqual | .bangEqual | .greater | .greaterEqual | .less | .lessEqual => some (.token t)
  | .number | .string => some (.value t.literal)
  | .keyword .kTrue => some (.value (.bool true))
  | .keyword .kFalse => some (.value (.bool false))
  | .keyword .kNil => some (.value .nil)
  | _ => none

/-- The words of an expression from left to right. -/
def exprWords : Expr → List Word
  | .literal v => [.value v]
  | .reference name => [.token name]
  | .assign name value => .token name :: exprWords value
  | .unary operator right => .token operator :: exprWords right
  | .binary left operator right => exprWords left ++ .token operator :: exprWords right
  | .group inner => exprWords inner

mutual

/-- The words of a statement from left to right. -/
def stmtWords : Stmt → List Word
  | .expression e => exprWords e
  | .print e => exprWords e
  | .declare name none => [.token name]
  | .declare name (some e) => .token name :: exprWords e
  | .block items => stmtsWords items

/-- The words of statements from left to right. -/
def stmtsWords : List Stmt → List Word
  | [] => []
  | s :: rest => stmtWords s ++ stmtsWords rest

end

/-- The words of tokens. -/
def words (ts : List Token) : List Word := ts.filterMap word?

theorem words_append (ts us : List Token) : words (ts ++ us) = words ts ++ words us :=
  List.filterMap_append

theorem words_cons (t : Token) (ts : List Token) :
    words (t :: ts) = (word? t).toList ++ words ts := by
  rw [words, List.filterMap_cons]
  cases word? t <;> rfl

theorem word?_of_joins {b : BinaryLevel} {t : Token} (h : Joins b t.kind) :
    word? t = some (.token t) := by
  unfold word?
  generalize t.kind = k at h
  cases h <;> rfl

theorem word?_of_negates {t : Token} (h : Negates t.kind) : word? t = some (.token t) := by
  unfold word?
  generalize t.kind = k at h
  cases h <;> rfl

theorem word?_of_denotes {t : Token} {v : Literal} (h : Denotes t v) :
    word? t = some (.value v) := by
  cases h <;> simp [word?, *]

theorem Derives.words {l : Level} {ts : List Token} {e : Expr} (h : Derives l ts e) :
    words ts = exprWords e := by
  induction h with
  | literal hv => simp [Grammar.words, word?_of_denotes hv, exprWords]
  | reference hk => simp [Grammar.words, word?, hk, exprWords]
  | @group l r ts e hl _ hr ih =>
    rw [words_cons, words_append, ih, exprWords]
    simp [Grammar.words, word?, hl, hr]
  | primary _ ih => exact ih
  | unary ho _ ih =>
    rw [words_cons, word?_of_negates ho, ih, exprWords]
    rfl
  | operand _ ih => exact ih
  | operator _ ho _ ih₁ ih₂ =>
    rw [words_append, words_cons, word?_of_joins ho, ih₁, ih₂, exprWords]
    rfl
  | equality _ ih => exact ih
  | assign hn he _ ih =>
    rw [words_cons, words_cons, ih, exprWords]
    simp [word?, hn, he]

theorem words_lineEnds {ls : List Token} (h : LineEnds ls) : words ls = [] := by
  rw [words, List.filterMap_eq_nil_iff]
  intro t ht
  simp [word?, h t ht]

theorem Closes.words {b : Bool} {ts us : List Token} (h : Closes b ts us) :
    words ts = words us := by
  cases h with
  | lines _ hl => rw [words_append, words_lineEnds hl, List.nil_append]
  | semicolon ht hl =>
    rw [words_cons, words_append, words_lineEnds hl]
    simp [word?, ht]
  | endOfInput => rfl
  | brace => rfl

theorem Plain.words {ts : List Token} {s : Stmt} (h : Plain ts s) : words ts = stmtWords s := by
  cases h with
  | declare hv hn => simp [Grammar.words, word?, hv, hn, stmtWords]
  | initial hv hn he h =>
    rw [words_cons, words_cons, words_cons, h.words, stmtWords]
    simp [word?, hv, hn, he]
  | print hp h =>
    rw [words_cons, h.words, stmtWords]
    simp [word?, hp]
  | expression h => rw [h.words, stmtWords]

theorem Declarations.words {b : Bool} {ts us : List Token} {p : List Stmt}
    (h : Declarations b ts us p) : words ts = stmtsWords p ++ words us := by
  induction h with
  | nil => rfl
  | plain hs hc _ ih => rw [words_append, hs.words, hc.words, ih, stmtsWords, List.append_assoc]
  | block hl hls _ hr hc _ ih₁ ih₂ =>
    rw [words_cons, words_append, words_lineEnds hls, ih₁, words_cons, hc.words, ih₂, stmtsWords,
      stmtWords]
    simp [word?, hl, hr]

/-- **The trees of a program hold the words of its tokens**, in their order and no others. -/
theorem IsProgram.words {ts : List Token} {p : List Stmt} (h : IsProgram ts p) :
    words ts = stmtsWords p := by
  obtain ⟨hls, he, hp⟩ := h
  rw [words_append, words_lineEnds hls, hp.words]
  simp [Grammar.words, word?, he]

end LoxFront.Grammar
