import LoxFront.Node.Walk
import LoxFront.Proofs.Tree.Preorder

/-!
# Walks go in pre-order

A walk stops at each node that has no closed node above it, once and in pre-order, and at nothing else,
up to the first stop that is not the node of a construct (`walks_in_preorder`).

The children of a node are the nodes in its fields, in order, those among the items of a sequence
included (`Part.children`); the forest of a program has its entries as roots, but for the absent ones.
With closed nodes the walk goes through a pruned forest.  Its stops are put together as its three loops
go: through the fields of a node, through the items of a sequence, and through the entries.
-/

namespace LoxFront

open Forest

variable {α β : Type}

namespace Part

/-- Whether a part is the node of a construct. -/
def hasConstruct : Part α β → Bool
  | node _ _ => true
  | _ => false

/-- The nodes that stand in a field. -/
def nodes : Part α β → List (Part α β)
  | sequence items => items.filter isNode
  | p => [p].filter isNode

/-- The children of a node. -/
def children : Part α β → List (Part α β)
  | node _ fields => fields.flatMap nodes
  | _ => []

/-- Whether a part is a closed node, which no walk enters. -/
def bars (isClosed : α → Bool) : Part α β → Bool
  | node n _ => isClosed n
  | _ => false

/-- What a walk does at the node of a construct. -/
def visit? (isClosed : α → Bool) : Part α β → Option (Visit α)
  | node n _ => some (if isClosed n then .closed n else .entered n)
  | _ => none

end Part

namespace Walk

variable {isClosed : α → Bool}

/-! ### Walks along stops -/

/-- The walk with the given stops: it visits them up to the first that is not the node of a construct,
which ends it. -/
def along (isClosed : α → Bool) (stops : List (Part α β)) : Walk α β where
  visits := (stops.takeWhile Part.hasConstruct).filterMap (Part.visit? isClosed)
  fault := stops.find? fun p => !p.hasConstruct

theorem andThen_of_fault {w : Walk α β} {p : Part α β} (h : w.fault = some p) (v : Walk α β) :
    w.andThen v = w := by
  rw [andThen, h]

theorem andThen_of_none {w : Walk α β} (h : w.fault = none) (v : Walk α β) :
    w.andThen v = ⟨w.visits ++ v.visits, v.fault⟩ := by
  rw [andThen, h]

theorem along_nil : along isClosed ([] : List (Part α β)) = {} := rfl

theorem along_cons_node (n : α) (fields stops : List (Part α β)) :
    along isClosed (.node n fields :: stops) =
      ⟨(if isClosed n then .closed n else .entered n) :: (along isClosed stops).visits,
        (along isClosed stops).fault⟩ := rfl

theorem along_cons_fault {p : Part α β} (h : p.hasConstruct = false) (stops : List (Part α β)) :
    along isClosed (p :: stops) = ⟨[], some p⟩ := by
  simp [along, h]

/-- A walk along some stops and then along others. -/
theorem along_append (stops more : List (Part α β)) :
    along isClosed (stops ++ more) = (along isClosed stops).andThen (along isClosed more) := by
  induction stops with
  | nil => rw [List.nil_append, along_nil, andThen_of_none rfl]; rfl
  | cons p stops ih =>
    rw [List.cons_append]
    cases p with
    | node n fields =>
      rw [along_cons_node, along_cons_node, ih]
      cases hfault : (along isClosed stops).fault with
      | none => rw [andThen_of_none hfault, andThen_of_none rfl]; rfl
      | some q => rw [andThen_of_fault hfault, andThen_of_fault rfl, hfault]
    | _ => rw [along_cons_fault rfl, along_cons_fault rfl, andThen_of_fault rfl]

/-! ### Stops of a walk -/

/-- A walk has its stops in a pruned forest, in pre-order. -/
def Stops (isClosed : α → Bool) (roots : List (Part α β)) (w : Walk α β) : Prop :=
  ∃ places, Traverses (pruned Part.children (Part.bars isClosed)) roots places ∧
    w = along isClosed (places.map Prod.snd)

namespace Stops

variable {roots others : List (Part α β)} {w v : Walk α β} {p : Part α β}

theorem nil : Stops isClosed [] ({} : Walk α β) := ⟨[], .nil, rfl⟩

theorem append (h : Stops isClosed roots w) (h' : Stops isClosed others v) :
    Stops isClosed (roots ++ others) (w.andThen v) := by
  obtain ⟨places, hplaces, rfl⟩ := h
  obtain ⟨more, hmore, rfl⟩ := h'
  refine ⟨_, hplaces.append hmore, ?_⟩
  rw [List.map_append, along_append, List.map_map]
  rfl

/-- The only stop where the forest ends below a root. -/
theorem singleton (h : pruned Part.children (Part.bars isClosed) p = []) :
    Stops isClosed [p] (along isClosed [p]) :=
  ⟨_, .singleton (h ▸ Traverses.nil), rfl⟩

theorem fault (h : p.hasConstruct = false) : Stops isClosed [p] ⟨[], some p⟩ := by
  have hbelow : pruned Part.children (Part.bars isClosed) p = [] := by
    cases p with
    | node n fields => cases h
    | _ => rfl
  exact along_cons_fault h [] ▸ singleton hbelow

/-- A closed node is passed, and an open one is entered. -/
theorem visit (n : α) {fields : List (Part α β)}
    (h : Stops isClosed (fields.flatMap Part.nodes) w) :
    Stops isClosed [.node n fields] (Walk.visit isClosed n w) := by
  cases hclosed : isClosed n with
  | true =>
    have hwalk : Walk.visit isClosed n w = along isClosed [.node n fields] := by
      rw [Walk.visit, along_cons_node, if_pos hclosed, if_pos hclosed]
      rfl
    exact hwalk ▸ singleton (if_pos hclosed)
  | false =>
    obtain ⟨places, hplaces, rfl⟩ := h
    have hopen : ¬ isClosed n = true := by simp [hclosed]
    have hbelow : pruned Part.children (Part.bars isClosed) (.node n fields : Part α β) =
        fields.flatMap Part.nodes := if_neg hopen
    refine ⟨_, .singleton (hbelow ▸ hplaces), ?_⟩
    rw [Walk.visit, if_neg hopen, List.map_cons, along_cons_node, if_neg hopen, List.map_map,
      andThen_of_none rfl]
    rfl

/-- A value inside a tree is passed over. -/
theorem child (h : Stops isClosed [p] w) :
    Stops isClosed ([p].filter Part.isNode) (Walk.child p w) := by
  rw [Walk.child, List.filter_cons]
  split
  · exact h
  · exact nil

end Stops

mutual

/-- The walk through a part stops at it, and then at what is below it. -/
theorem stops_ofPart (isClosed : α → Bool) : (p : Part α β) →
    Stops isClosed [p] (ofPart isClosed p)
  | .node n fields => by
    rw [ofPart]
    exact .visit n (stops_ofFields isClosed fields)
  | .absent => .fault rfl
  | .value _ => .fault rfl
  | .bare _ => .fault rfl
  | .sequence _ => .fault rfl

/-- The walk through the fields of a node stops at the nodes in them. -/
theorem stops_ofFields (isClosed : α → Bool) : (fields : List (Part α β)) →
    Stops isClosed (fields.flatMap Part.nodes) (ofFields isClosed fields)
  | [] => by
    rw [ofFields]
    exact .nil
  | p :: rest => by
    rw [List.flatMap_cons]
    -- a sequence is not a stop itself, but its items may be
    cases p with
    | sequence items =>
      rw [ofFields]
      exact (stops_ofItems isClosed items).append (stops_ofFields isClosed rest)
    | _ =>
      rw [ofFields, Part.nodes]
      · exact (stops_ofPart isClosed _).child.append (stops_ofFields isClosed rest)
      all_goals exact nofun

/-- The walk through the items of a sequence stops at the nodes among them. -/
theorem stops_ofItems (isClosed : α → Bool) : (items : List (Part α β)) →
    Stops isClosed (items.filter Part.isNode) (ofItems isClosed items)
  | [] => by
    rw [ofItems]
    exact .nil
  | p :: rest => by
    rw [ofItems, ← List.singleton_append, List.filter_append]
    exact (stops_ofPart isClosed p).child.append (stops_ofItems isClosed rest)

end

theorem stops_ofParts (isClosed : α → Bool) (parts : List (Part α β)) :
    Stops isClosed parts (ofParts isClosed parts) := by
  induction parts with
  | nil => exact .nil
  | cons p rest ih => exact (stops_ofPart isClosed p).append ih

/-- **A walk through a program goes in pre-order**, whatever stands in the fields of nodes and whichever
nodes are closed.  Its stops are the entries but for the absent ones, and the nodes below them, as far as
there is no closed node above; each of them once.  All are visited up to the first that is not the node
of a construct, which ends the walk. -/
theorem walks_in_preorder (isClosed : α → Bool) (entries : List (Part α β)) :
    ∃ places : List (List Nat × Part α β),
      places.Pairwise (fun p q => List.Lex (· < ·) p.1 q.1) ∧
      (∀ path p, (path, p) ∈ places ↔ At Part.children (Part.present entries) path p ∧
        Open Part.children (Part.bars isClosed) (Part.present entries) path) ∧
      (ofEntries isClosed entries).visits =
        ((places.map Prod.snd).takeWhile Part.hasConstruct).filterMap (Part.visit? isClosed) ∧
      (ofEntries isClosed entries).fault =
        (places.map Prod.snd).find? fun p => !p.hasConstruct := by
  obtain ⟨places, hplaces, hwalk⟩ := stops_ofParts isClosed (Part.present entries)
  refine ⟨places, hplaces.ordered, fun path p => ?_, ?_⟩
  · rw [hplaces.mem_iff, at_pruned_iff]
  · rw [ofEntries, hwalk]
    exact ⟨rfl, rfl⟩

/-- The second node is closed, so the third is left out; the sixth is of no construct. -/
example :
    let entries : List (Part Nat Unit) :=
      [.node 1 [.value (), .node 2 [.node 3 []], .sequence [.absent, .node 4 []]], .absent,
        .node 5 [.bare 6], .node 7 []]
    (ofEntries (· == 2) entries).visits = [.entered 1, .closed 2, .entered 4, .entered 5] := by
  decide

end Walk

end LoxFront
