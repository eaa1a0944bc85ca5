import LoxFront.Proofs.Token.Lexeme

/-!
# Prefix forms

A prefix form is a word, a text in quotes, or a head with further forms in parentheses (`Form`).  In
its text the parts are set apart by single blanks.

A text is read as a form in one way only, whatever comes behind it (`Form.text_append_inj`).  A word
ends in front of a blank, a parenthesis or a newline, and may not hold any of these; so what comes
behind a form has to begin with one of them if it is not empty.  A quoted text may hold all of them,
since it ends with the next quotation mark.

Lines with a head and forms behind it, indented by two blanks for each level, are read in one way too
(`Line.below_inj`): a newline that is not quoted ends a line.
-/

namespace LoxFront

open Lexical

/-! ### Words -/

/-- Whether a character may stand in a word of a form. -/
def isPlain (c : Char) : Bool := !(c = ' ' || c = '(' || c = ')' || c = '"' || c = '\n')

/-- A text that does not go on with a word. -/
def Delimited (cs : List Char) : Prop := ∀ c ∈ cs.head?, isPlain c = false

theorem delimited_nil : Delimited [] := fun _ h => by cases h

theorem delimited_cons {c : Char} {cs : List Char} (h : isPlain c = false) : Delimited (c :: cs) := by
  rintro d hd
  cases hd
  exact h

/-- Two words with something behind them that does not go on with them. -/
theorem word_append_inj {v w r s : List Char} (hv : ∀ c ∈ v, isPlain c = true)
    (hw : ∀ c ∈ w, isPlain c = true) (hr : Delimited r) (hs : Delimited s)
    (h : v ++ r = w ++ s) : v = w ∧ r = s := by
  have hword : ∀ {u t : List Char}, (∀ c ∈ u, isPlain c = true) → Delimited t →
      (u ++ t).takeWhile isPlain = u := by
    intro u t hu ht
    cases t with
    | nil => rw [List.append_nil, List.takeWhile_eq_self_iff]; exact hu
    | cons c t => exact takeWhile_append_cons hu (ht c rfl)
  obtain rfl : v = w := by rw [← hword hv hr, h, hword hw hs]
  exact ⟨rfl, List.append_cancel_left h⟩

/-! ### Forms -/

/-- A prefix form. -/
inductive Form where
  | word (w : List Char)
  /-- A text in quotes. -/
  | quoted (s : List Char)
  /-- A head with forms behind it, in parentheses. -/
  | node (head : List Char) (parts : List Form)

namespace Form

mutual

/-- The text of a form. -/
def text : Form → List Char
  | word w => w
  | quoted s => '"' :: (s ++ ['"'])
  | node head parts => '(' :: (head ++ (texts parts ++ [')']))

/-- The texts of forms, each behind a blank. -/
def texts : List Form → List Char
  | [] => []
  | f :: rest => ' ' :: (f.text ++ texts rest)

end

mutual

/-- The words of a form are plain and not empty, and there are no quotation marks inside quotes. -/
def Proper : Form → Prop
  | word w => w ≠ [] ∧ ∀ c ∈ w, isPlain c = true
  | quoted s => '"' ∉ s
  | node head parts => (∀ c ∈ head, isPlain c = true) ∧ AllProper parts

@[inherit_doc Proper]
def AllProper : List Form → Prop
  | [] => True
  | f :: rest => f.Proper ∧ AllProper rest

end

theorem proper_word {w : List Char} (hne : w ≠ []) (h : w.all isPlain = true) : (word w).Proper :=
  ⟨hne, List.all_eq_true.1 h⟩

theorem proper_node {head : List Char} {parts : List Form} (h : head.all isPlain = true)
    (hparts : AllProper parts) : (node head parts).Proper := ⟨List.all_eq_true.1 h, hparts⟩

/-- A text that goes on neither with a word nor with another form. -/
def Closed (cs : List Char) : Prop := Delimited cs ∧ cs.head? ≠ some ' '

theorem closed_nil : Closed [] := ⟨delimited_nil, nofun⟩

theorem closed_cons {c : Char} {cs : List Char} (h : c = ')' ∨ c = '\n') : Closed (c :: cs) := by
  rcases h with rfl | rfl <;> exact ⟨delimited_cons rfl, by simp⟩

theorem delimited_texts_append (fs : List Form) {r : List Char} (hr : Delimited r) :
    Delimited (texts fs ++ r) := by
  cases fs with
  | nil => exact hr
  | cons f rest => exact delimited_cons rfl

/-- The first character tells the three sorts of forms apart. -/
theorem exists_text_cons {w : List Char} (h : (word w).Proper) :
    ∃ c cs, w = c :: cs ∧ c ≠ '"' ∧ c ≠ '(' := by
  obtain ⟨hne, hw⟩ := h
  obtain ⟨c, cs, rfl⟩ := List.exists_cons_of_ne_nil hne
  have hc := hw c List.mem_cons_self
  refine ⟨c, cs, rfl, ?_, ?_⟩ <;> rintro rfl <;> exact absurd hc (by decide)

mutual

/-- **A text is read as a form in one way only.** -/
theorem text_append_inj : (f g : Form) → {r s : List Char} → f.Proper → g.Proper → Delimited r →
    Delimited s → f.text ++ r = g.text ++ s → f = g ∧ r = s
  | word v, word w, _, _, hv, hw, hr, hs, h => by
    obtain ⟨rfl, rfl⟩ := word_append_inj hv.2 hw.2 hr hs h
    exact ⟨rfl, rfl⟩
  | quoted v, quoted w, r, s, hv, hw, _, _, h => by
    have hinside : v ++ '"' :: r = w ++ '"' :: s := by simpa [text] using h
    -- the quoted text goes up to the first quotation mark
    have hquote : ∀ {u t : List Char}, '"' ∉ u → (u ++ '"' :: t).takeWhile (· ≠ '"') = u := by
      intro u t hu
      refine takeWhile_append_cons (fun c hc => ?_) (by decide)
      exact decide_eq_true fun hq => hu (hq ▸ hc)
    obtain rfl : v = w := by rw [← hquote hv, hinside, hquote hw]
    exact ⟨rfl, List.cons_inj_right _ |>.1 (List.append_cancel_left hinside)⟩
  | node head parts, node head' parts', r, s, hf, hg, _, _, h => by
    have hinside : head ++ (texts parts ++ ')' :: r) = head' ++ (texts parts' ++ ')' :: s) := by
      simpa [text] using h
    have hend : ∀ (fs : List Form) (t : List Char), Delimited (texts fs ++ ')' :: t) :=
      fun fs t => delimited_texts_append fs (delimited_cons rfl)
    obtain ⟨rfl, hparts⟩ := word_append_inj hf.1 hg.1 (hend _ _) (hend _ _) hinside
    obtain ⟨rfl, hrest⟩ := texts_append_inj parts parts' hf.2 hg.2 (closed_cons (.inl rfl))
      (closed_cons (.inl rfl)) hparts
    exact ⟨rfl, (List.cons.inj hrest).2⟩
  | word w, quoted _, _, _, hw, _, _, _, h | word w, node _ _, _, _, hw, _, _, _, h => by
    obtain ⟨c, cs, rfl, hquote, hparen⟩ := exists_text_cons hw
    simp [text, hquote, hparen] at h
  | quoted _, word w, _, _, _, hw, _, _, h | node _ _, word w, _, _, _, hw, _, _, h => by
    obtain ⟨c, cs, rfl, hquote, hparen⟩ := exists_text_cons hw
    simp [text, hquote.symm, hparen.symm] at h
  | quoted _, node _ _, _, _, _, _, _, _, h | node _ _, quoted _, _, _, _, _, _, _, h => by
    simp [text] at h

/-- A text is read as forms behind blanks in one way only. -/
theorem texts_append_inj : (fs gs : List Form) → {r s : List Char} → AllProper fs → AllProper gs →
    Closed r → Closed s → texts fs ++ r = texts gs ++ s → fs = gs ∧ r = s
  | [], [], _, _, _, _, _, _, h => ⟨rfl, h⟩
  | f :: fs, g :: gs, r, s, hf, hg, hr, hs, h => by
    have hinside : f.text ++ (texts fs ++ r) = g.text ++ (texts gs ++ s) := by
      simpa [texts] using h
    obtain ⟨rfl, hrest⟩ := text_append_inj f g hf.1 hg.1 (delimited_texts_append fs hr.1)
      (delimited_texts_append gs hs.1) hinside
    obtain ⟨rfl, rfl⟩ := texts_append_inj fs gs hf.2 hg.2 hr hs hrest
    exact ⟨rfl, rfl⟩
  | [], g :: gs, _, _, _, _, hr, _, h => by
    obtain rfl := h
    exact absurd rfl hr.2
  | f :: fs, [], _, _, _, _, _, hs, h => by
    obtain rfl := h.symm
    exact absurd rfl hs.2

end

/-- Proper forms with the same text are the same. -/
theorem text_inj {f g : Form} (hf : f.Proper) (hg : g.Proper) : f.text = g.text ↔ f = g := by
  refine ⟨fun h => ?_, congrArg text⟩
  exact (text_append_inj f g hf hg delimited_nil delimited_nil (congrArg (· ++ []) h)).1

end Form

/-! ### Lines -/

/-- A line at a level, with a head and forms behind it. -/
structure Line where
  level : Nat
  head : List Char
  parts : List Form

namespace Line

/-- The text of a line. -/
def text (l : Line) : List Char :=
  List.replicate (2 * l.level) ' ' ++ (l.head ++ Form.texts l.parts)

/-- The head of a line is a word, and its forms are proper. -/
def Proper (l : Line) : Prop :=
  (l.head ≠ [] ∧ ∀ c ∈ l.head, isPlain c = true) ∧ Form.AllProper l.parts

/-- The text of lines, each behind a newline. -/
def below : List Line → List Char
  | [] => []
  | l :: rest => '\n' :: (l.text ++ below rest)

/-- Lines under a heading, with newlines between them. -/
theorem intercalate_text (heading : List Char) (ls : List Line) :
    ['\n'].intercalate (heading :: ls.map text) = heading ++ below ls := by
  induction ls generalizing heading with
  | nil => rw [List.map_nil, below, List.append_nil, List.intercalate_singleton]
  | cons l ls ih =>
    rw [List.map_cons, List.intercalate_cons_cons, ih, below, List.append_assoc,
      List.singleton_append]

theorem closed_below (ls : List Line) : Form.Closed (below ls) := by
  cases ls with
  | nil => exact Form.closed_nil
  | cons l rest => exact Form.closed_cons (.inr rfl)

/-- The blanks in front of two lines. -/
theorem blanks_append_inj {n m : Nat} {c d : Char} {cs ds : List Char} (hc : c ≠ ' ')
    (hd : d ≠ ' ') (h : List.replicate n ' ' ++ c :: cs = List.replicate m ' ' ++ d :: ds) :
    n = m ∧ c :: cs = d :: ds := by
  have hblanks : ∀ {k : Nat} {e : Char} {es : List Char}, e ≠ ' ' →
      (List.replicate k ' ' ++ e :: es).takeWhile (· = ' ') = List.replicate k ' ' := by
    intro k e es he
    refine takeWhile_append_cons (fun a ha => ?_) (decide_eq_false he)
    exact decide_eq_true (List.eq_of_mem_replicate ha)
  have hlen := congrArg List.length (congrArg (List.takeWhile (· = ' ')) h)
  rw [hblanks hc, hblanks hd, List.length_replicate, List.length_replicate] at hlen
  subst hlen
  exact ⟨rfl, List.append_cancel_left h⟩

/-- **A text is read as a line in one way only.** -/
theorem text_append_inj {l k : Line} {r s : List Char} (hl : l.Proper) (hk : k.Proper)
    (hr : Form.Closed r) (hs : Form.Closed s) (h : l.text ++ r = k.text ++ s) : l = k ∧ r = s := by
  obtain ⟨n, v, fs⟩ := l
  obtain ⟨m, w, gs⟩ := k
  obtain ⟨⟨hvne, hv⟩, hfs⟩ := hl
  obtain ⟨⟨hwne, hw⟩, hgs⟩ := hk
  dsimp only at hvne hv hfs hwne hw hgs
  have hplain : ∀ c, isPlain c = true → c ≠ ' ' := by
    rintro c hc rfl
    exact absurd hc (by decide)
  obtain ⟨c, cs, rfl⟩ := List.exists_cons_of_ne_nil hvne
  obtain ⟨d, ds, rfl⟩ := List.exists_cons_of_ne_nil hwne
  simp only [text, List.append_assoc, List.cons_append] at h
  obtain ⟨hn, hline⟩ := blanks_append_inj (hplain c (hv c List.mem_cons_self))
    (hplain d (hw d List.mem_cons_self)) h
  obtain rfl : n = m := by omega
  have hwords : (c :: cs) ++ (Form.texts fs ++ r) = (d :: ds) ++ (Form.texts gs ++ s) := hline
  obtain ⟨hheads, hparts⟩ := word_append_inj hv hw (Form.delimited_texts_append fs hr.1)
    (Form.delimited_texts_append gs hs.1) hwords
  obtain ⟨rfl, rfl⟩ := Form.texts_append_inj fs gs hfs hgs hr hs hparts
  exact ⟨by rw [hheads], rfl⟩

/-- **A text is read as lines in one way only.** -/
theorem below_inj {ls ks : List Line} (hl : ∀ l ∈ ls, l.Proper) (hk : ∀ k ∈ ks, k.Proper)
    (h : below ls = below ks) : ls = ks := by
  induction ls generalizing ks with
  | nil =>
    cases ks with
    | nil => rfl
    | cons k ks => cases h
  | cons l ls ih =>
    cases ks with
    | nil => cases h
    | cons k ks =>
      obtain ⟨rfl, hrest⟩ := text_append_inj (hl l List.mem_cons_self) (hk k List.mem_cons_self)
        (closed_below ls) (closed_below ks) (List.cons.inj h).2
      rw [ih (fun l h => hl l (List.mem_cons_of_mem _ h))
        (fun k h => hk k (List.mem_cons_of_mem _ h)) hrest]

end Line

end LoxFront
