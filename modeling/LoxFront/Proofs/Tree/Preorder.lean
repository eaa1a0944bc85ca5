/-!
# Pre-order in forests

A place in a forest is a path: the position of a tree among the roots, then the position of a child of
its root, and so on down (`At`).  Pre-order is the lexicographic order of paths: a tree comes in front
of its children, and all that is below a child comes in front of the next child.

`Traverses` says that a list has all that stands in a forest, place by place in this order.  Such a
list is put together as the forest is: from the lists of two forests that are set side by side
(`Traverses.append`), and from the list of the children below a root (`Traverses.singleton`).

A forest may be pruned by taking the children of some nodes away.  What is left are the places without
such a node above them (`at_pruned_iff`).
-/

namespace LoxFront.Forest

variable {τ : Type} {children : τ → List τ}

/-- What stands at the end of a path through a forest, where trees have the given children. -/
inductive At (children : τ → List τ) : List τ → List Nat → τ → Prop
  | root {roots : List τ} {i : Nat} {x : τ} : roots[i]? = some x → At children roots [i] x
  | child {roots : List τ} {i : Nat} {path : List Nat} {x y : τ} :
      roots[i]? = some x → At children (children x) path y → At children roots (i :: path) y

/-- All that stands in a forest, each place once and in pre-order. -/
structure Traverses (children : τ → List τ) (roots : List τ) (places : List (List Nat × τ)) :
    Prop where
  ordered : places.Pairwise fun p q => List.Lex (· < ·) p.1 q.1
  mem_iff : ∀ path x, (path, x) ∈ places ↔ At children roots path x

/-! ### Places -/

namespace At

variable {roots others : List τ} {path : List Nat} {i j : Nat} {x y : τ}

theorem exists_cons (h : At children roots path x) :
    ∃ i rest, path = i :: rest ∧ i < roots.length := by
  cases h with
  | root hx => exact ⟨_, _, rfl, (List.getElem?_eq_some_iff.1 hx).1⟩
  | child hx _ => exact ⟨_, _, rfl, (List.getElem?_eq_some_iff.1 hx).1⟩

theorem ne_nil (h : At children roots path x) : path ≠ [] := by
  obtain ⟨i, rest, rfl, -⟩ := h.exists_cons
  exact List.cons_ne_nil i rest

/-- What is at a place depends on one of the roots only. -/
theorem congr (h : At children roots (i :: path) x) (hroot : roots[i]? = others[j]?) :
    At children others (j :: path) x := by
  cases h with
  | root hx => exact .root (hroot ▸ hx)
  | child hx h => exact .child (hroot ▸ hx) h

theorem singleton_iff : At children [x] path y ↔
    path = [0] ∧ y = x ∨ ∃ rest, path = 0 :: rest ∧ At children (children x) rest y := by
  constructor
  · intro h
    obtain ⟨i, rest, rfl, hi⟩ := h.exists_cons
    obtain rfl : i = 0 := Nat.lt_one_iff.1 hi
    cases h with
    | root hx => exact .inl ⟨rfl, (Option.some.inj hx).symm⟩
    | child hx h =>
      obtain rfl := Option.some.inj hx
      exact .inr ⟨rest, rfl, h⟩
  · rintro (⟨rfl, rfl⟩ | ⟨rest, rfl, h⟩)
    · exact .root rfl
    · exact .child rfl h

end At

/-! ### Traversals -/

/-- The path to the same place when other trees are set in front. -/
def shift (count : Nat) : List Nat → List Nat
  | [] => []
  | i :: path => (count + i) :: path

@[simp] theorem length_shift (count : Nat) (path : List Nat) :
    (shift count path).length = path.length := by cases path <;> rfl

theorem lex_shift {count : Nat} {path other : List Nat} (h : List.Lex (· < ·) path other) :
    List.Lex (· < ·) (shift count path) (shift count other) := by
  cases h with
  | nil => exact .nil
  | cons h => exact .cons h
  | rel h => exact .rel (Nat.add_lt_add_left h count)

namespace Traverses

variable {roots others : List τ} {places more : List (List Nat × τ)} {x : τ}

theorem nil : Traverses children [] [] where
  ordered := .nil
  mem_iff path x := by
    refine iff_of_false List.not_mem_nil fun h => ?_
    obtain ⟨i, rest, -, hi⟩ := h.exists_cons
    exact Nat.not_lt_zero i hi

/-- **Forests side by side** are traversed one behind the other. -/
theorem append (h : Traverses children roots places) (h' : Traverses children others more) :
    Traverses children (roots ++ others)
      (places ++ more.map (Prod.map (shift roots.length) id)) where
  ordered := by
    refine List.pairwise_append.2 ⟨h.ordered, ?_, ?_⟩
    · exact List.pairwise_map.2 (h'.ordered.imp lex_shift)
    · -- a shifted path begins behind all roots of the first forest
      rintro ⟨path, x⟩ hmem ⟨other, y⟩ hmem'
      obtain ⟨⟨path', y'⟩, hmore, heq⟩ := List.mem_map.1 hmem'
      obtain ⟨rfl, rfl⟩ := Prod.mk.inj heq
      obtain ⟨i, rest, rfl, hi⟩ := ((h.mem_iff path x).1 hmem).exists_cons
      obtain ⟨j, rest', rfl, -⟩ := ((h'.mem_iff path' y').1 hmore).exists_cons
      exact .rel (Nat.lt_of_lt_of_le hi (Nat.le_add_right _ j))
  mem_iff path x := by
    rw [List.mem_append, List.mem_map]
    constructor
    · rintro (hmem | ⟨⟨path', x'⟩, hmem, heq⟩)
      · have hat := (h.mem_iff path x).1 hmem
        obtain ⟨i, rest, rfl, hi⟩ := hat.exists_cons
        exact hat.congr (List.getElem?_append_left hi).symm
      · obtain ⟨rfl, rfl⟩ := Prod.mk.inj heq
        have hat := (h'.mem_iff path' x').1 hmem
        obtain ⟨i, rest, rfl, -⟩ := hat.exists_cons
        refine hat.congr ?_
        rw [List.getElem?_append_right (Nat.le_add_right _ _), Nat.add_sub_cancel_left]
    · intro hat
      obtain ⟨i, rest, rfl, -⟩ := hat.exists_cons
      rcases Nat.lt_or_ge i roots.length with hi | hi
      · exact .inl ((h.mem_iff _ x).2 (hat.congr (List.getElem?_append_left hi)))
      · refine .inr ⟨((i - roots.length) :: rest, x), (h'.mem_iff _ x).2 ?_, ?_⟩
        · exact hat.congr (List.getElem?_append_right hi)
        · rw [Prod.map, shift, Nat.add_sub_cancel' hi]
          rfl

/-- **A tree** is traversed from its root down. -/
theorem singleton (h : Traverses children (children x) places) :
    Traverses children [x] (([0], x) :: places.map (Prod.map (List.cons 0) id)) where
  ordered := by
    refine List.pairwise_cons.2 ⟨?_, List.pairwise_map.2 (h.ordered.imp .cons)⟩
    rintro ⟨path, y⟩ hmem
    obtain ⟨⟨path', y'⟩, hplace, heq⟩ := List.mem_map.1 hmem
    obtain ⟨rfl, rfl⟩ := Prod.mk.inj heq
    obtain ⟨i, rest, rfl, -⟩ := ((h.mem_iff path' y').1 hplace).exists_cons
    exact .cons .nil
  mem_iff path y := by
    rw [List.mem_cons, List.mem_map, At.singleton_iff, Prod.mk.injEq]
    refine or_congr Iff.rfl ⟨?_, ?_⟩
    · rintro ⟨⟨path', y'⟩, hplace, heq⟩
      obtain ⟨rfl, rfl⟩ := Prod.mk.inj heq
      exact ⟨path', rfl, (h.mem_iff path' y').1 hplace⟩
    · rintro ⟨rest, rfl, hat⟩
      exact ⟨(rest, y), (h.mem_iff rest y).2 hat, rfl⟩

end Traverses

/-! ### Pruning -/

/-- The children of a node, if it is not barred. -/
def pruned (children : τ → List τ) (barred : τ → Bool) (x : τ) : List τ :=
  if barred x then [] else children x

/-- Nothing that is barred stands above the end of a path. -/
def Open (children : τ → List τ) (barred : τ → Bool) (roots : List τ) (path : List Nat) : Prop :=
  ∀ above x, above <+: path → above ≠ path → At children roots above x → barred x = false

variable {barred : τ → Bool} {roots : List τ} {path : List Nat} {i : Nat} {x y : τ}

theorem open_singleton (i : Nat) : Open children barred roots [i] := by
  intro above x hprefix hne hat
  obtain ⟨j, rest, rfl, -⟩ := hat.exists_cons
  obtain ⟨rfl, hrest⟩ := List.cons_prefix_cons.1 hprefix
  exact absurd (by rw [List.prefix_nil.1 hrest]) hne

theorem open_cons_iff (hroot : roots[i]? = some x) (hpath : path ≠ []) :
    Open children barred roots (i :: path) ↔
      barred x = false ∧ Open children barred (children x) path := by
  constructor
  · intro h
    refine ⟨h [i] x (List.cons_prefix_cons.2 ⟨rfl, List.nil_prefix⟩) ?_ (.root hroot), ?_⟩
    · exact fun heq => hpath (List.cons.inj heq).2.symm
    · intro above y hprefix hne hat
      refine h (i :: above) y (List.cons_prefix_cons.2 ⟨rfl, hprefix⟩) ?_ (.child hroot hat)
      exact fun heq => hne (List.cons.inj heq).2
  · rintro ⟨hx, h⟩ above y hprefix hne hat
    cases hat with
    | root hy =>
      obtain ⟨rfl, -⟩ := List.cons_prefix_cons.1 hprefix
      obtain rfl := Option.some.inj (hroot.symm.trans hy)
      exact hx
    | child hz hat =>
      obtain ⟨rfl, hrest⟩ := List.cons_prefix_cons.1 hprefix
      obtain rfl := Option.some.inj (hroot.symm.trans hz)
      exact h _ y hrest (fun heq => hne (by rw [heq])) hat

/-- **The places of a pruned forest** are those without a barred node above them. -/
theorem at_pruned_iff : At (pruned children barred) roots path y ↔
    At children roots path y ∧ Open children barred roots path := by
  constructor
  · intro h
    induction h with
    | root hx => exact ⟨.root hx, open_singleton _⟩
    | @child roots i path x y hx h ih =>
      have hne := h.ne_nil
      cases hbarred : barred x with
      | true =>
        -- then there are no children to go on to
        rw [pruned, if_pos hbarred] at h
        exact absurd h.exists_cons (by simp)
      | false =>
        rw [pruned, if_neg (by simp [hbarred])] at ih
        exact ⟨.child hx ih.1, (open_cons_iff hx hne).2 ⟨hbarred, ih.2⟩⟩
  · rintro ⟨h, hopen⟩
    induction h with
    | root hx => exact .root hx
    | child hx h ih =>
      obtain ⟨hbarred, hopen⟩ := (open_cons_iff hx h.ne_nil).1 hopen
      refine .child hx ?_
      rw [pruned, if_neg (by simp [hbarred])]
      exact ih hopen

end LoxFront.Forest
