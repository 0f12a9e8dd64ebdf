import BytecodeCompiler.Proofs.Tree.Parents
import Mathlib.Data.List.Induction
import Mathlib.Order.Bounds.Defs

-- The nodes above a node. Nodes are added one after the other and may list any numbers as their
-- children: numbers of nodes before and behind them, their own, the same one twice, or numbers that
-- no node has. Even so the links up from a node always come to an end, and a search along them
-- gives what it would give on the whole chain of links.

namespace BytecodeCompiler.Tree

/-! ## Trees from their nodes -/

/-- The tree of nodes that are added one after the other. -/
def ofNodes (nodes : List (NodeKind × Span)) : Tree :=
  nodes.foldl (fun t n => (t.push n.1 n.2).2) .empty

/-- The node of one number lists the other number among its children. -/
def Lists (nodes : List (NodeKind × Span)) (parent child : NodeId) : Prop :=
  ∃ n, nodes[parent]? = some n ∧ child ∈ n.1.children

theorem ofNodes_concat (nodes : List (NodeKind × Span)) (n : NodeKind × Span) :
    ofNodes (nodes ++ [n]) = ((ofNodes nodes).push n.1 n.2).2 := by
  simp [ofNodes]

theorem size_push (t : Tree) (kind : NodeKind) (span : Span) :
    (t.push kind span).2.size = t.size + 1 := by
  simp [push, size, size_foldl_adopt]

theorem size_ofNodes (nodes : List (NodeKind × Span)) : (ofNodes nodes).size = nodes.length := by
  induction nodes using List.reverseRecOn with
  | nil => rfl
  | append_singleton nodes n ih =>
    rw [ofNodes_concat, size_push, ih, List.length_append, List.length_singleton]

theorem grown_ofNodes (nodes : List (NodeKind × Span)) : (ofNodes nodes).Grown := by
  induction nodes using List.reverseRecOn with
  | nil => exact .empty
  | append_singleton nodes n ih =>
    rw [ofNodes_concat]
    exact .push ih n.1 n.2

theorem kind?_ofNodes (nodes : List (NodeKind × Span)) (id : Nat) :
    (ofNodes nodes).kind? id = nodes[id]?.map Prod.fst := by
  induction nodes using List.reverseRecOn with
  | nil => rfl
  | append_singleton nodes n ih =>
    rw [ofNodes_concat, kind?_push, size_ofNodes, ih, List.getElem?_append]
    rcases Nat.lt_trichotomy id nodes.length with hlt | rfl | hgt
    · simp [hlt, Nat.ne_of_lt hlt]
    · simp
    · have hpast : [n][id - nodes.length]? = none := List.getElem?_eq_none (by simp; omega)
      simp [Nat.ne_of_gt hgt, Nat.not_lt_of_gt hgt, hpast]

theorem isChild_ofNodes {nodes : List (NodeKind × Span)} {parent child : NodeId} :
    (ofNodes nodes).IsChild parent child ↔ Lists nodes parent child := by
  unfold Lists
  rw [isChild_iff_kind?, kind?_ofNodes]
  simp

/-! ## Chains of links -/

/-- The nodes above a node: its parent, the parent of its parent, and so on up to a node that has
none. -/
inductive Ancestry (t : Tree) : NodeId → List NodeId → Prop where
  | top {id : NodeId} (h : t.parent? id = none) : Ancestry t id []
  | above {id parent : NodeId} {chain : List NodeId} (h : t.parent? id = some parent)
      (others : Ancestry t parent chain) : Ancestry t id (parent :: chain)

/-- What a search along a chain comes to: the first node that is wanted or stops the search, if it
is wanted. -/
def searched (t : Tree) (want stop : NodeKind → Bool) (chain : List NodeId) : Option NodeId :=
  (chain.find? fun a => t.Is want a ∨ t.Is stop a).filter fun a => t.Is want a

theorem searched_cons {t : Tree} {want stop : NodeKind → Bool} {id : NodeId} {n : Node}
    (hn : t.node? id = some n) (chain : List NodeId) :
    t.searched want stop (id :: chain) =
      if want n.kind then some id
      else if stop n.kind then none
      else t.searched want stop chain := by
  unfold searched
  by_cases hwant : want n.kind = true
  · simp [is_iff hn, hwant, Option.filter]
  · by_cases hstop : stop n.kind = true
    · simp [is_iff hn, hwant, hstop, Option.filter]
    · simp [is_iff hn, hwant, hstop]

namespace Linked

variable {t : Tree} (h : Linked t)

include h

theorem parent?_eq_some_iff {child parent : Nat} :
    t.parent? child = some parent ↔ IsLeast {p : Nat | child < p ∧ t.IsChild p child} parent := by
  constructor
  · intro hparent
    obtain ⟨hlt, hchild, hfirst⟩ := h.sound hparent
    exact ⟨⟨hlt, hchild⟩, fun other hother => hfirst other hother.1 hother.2⟩
  · rintro ⟨⟨hlt, hchild⟩, hfirst⟩
    obtain ⟨first, hparent⟩ := h.complete hlt hchild
    obtain ⟨hfirstLt, hfirstChild, hleast⟩ := h.sound hparent
    have hle : first ≤ parent := hleast parent hlt hchild
    have hge : parent ≤ first := hfirst ⟨hfirstLt, hfirstChild⟩
    rw [hparent, Nat.le_antisymm hle hge]

theorem parent?_eq_none_iff {child : Nat} :
    t.parent? child = none ↔ ¬ ∃ p : Nat, child < p ∧ t.IsChild p child := by
  constructor
  · rintro hnone ⟨p, hlt, hchild⟩
    obtain ⟨first, hparent⟩ := h.complete hlt hchild
    rw [hnone] at hparent
    cases hparent
  · intro hno
    cases hparent : t.parent? child with
    | none => rfl
    | some p =>
      obtain ⟨hlt, hchild, -⟩ := h.sound hparent
      exact absurd ⟨p, hlt, hchild⟩ hno

/-- Every chain ends: each link leads to a node further behind, and there are only so many. -/
theorem exists_ancestry (id : Nat) : ∃ chain, t.Ancestry id chain := by
  induction hleft : t.size - id using Nat.strongRecOn generalizing id with
  | ind left ih =>
    cases hparent : t.parent? id with
    | none => exact ⟨[], .top hparent⟩
    | some p =>
      obtain ⟨hlt, hchild, -⟩ := h.sound hparent
      have hsize := lt_size_of_isChild hchild
      obtain ⟨chain, hchain⟩ := ih (t.size - p) (by omega) p rfl
      exact ⟨p :: chain, .above hparent hchain⟩

theorem pairwise_of_ancestry {id : Nat} {chain : List Nat} (hchain : t.Ancestry id chain) :
    (id :: chain).Pairwise (· < ·) := by
  induction hchain with
  | top => exact List.pairwise_singleton _ _
  | @above id p chain hparent _ ih =>
    have hlt := (h.sound hparent).1
    refine List.pairwise_cons.mpr ⟨fun a ha => ?_, ih⟩
    rcases List.mem_cons.mp ha with rfl | ha
    · exact hlt
    · exact Nat.lt_trans hlt (List.rel_of_pairwise_cons ih ha)

theorem lt_size_of_mem_ancestry {id : Nat} {chain : List Nat} (hchain : t.Ancestry id chain) :
    ∀ a ∈ chain, a < t.size := by
  induction hchain with
  | top => exact List.forall_mem_nil _
  | above hparent _ ih =>
    exact List.forall_mem_cons.mpr ⟨lt_size_of_isChild (h.sound hparent).2.1, ih⟩

theorem length_lt_of_ancestry {id : Nat} {chain : List Nat} (hchain : t.Ancestry id chain)
    (hid : id < t.size) : chain.length + id < t.size := by
  induction hchain with
  | top => simpa using hid
  | above hparent _ ih =>
    obtain ⟨hlt, hchild, -⟩ := h.sound hparent
    have hchain := ih (lt_size_of_isChild hchild)
    rw [List.length_cons]
    omega

/-- A climb with a step for every link comes to what a search of the whole chain comes to. -/
theorem climb_eq_searched {want stop : NodeKind → Bool} {id : Nat} {chain : List Nat}
    (hchain : t.Ancestry id chain) {steps : Nat} (hsteps : chain.length ≤ steps) :
    t.climb want stop steps (t.parent? id) = t.searched want stop chain := by
  induction hchain generalizing steps with
  | top hparent =>
    rw [hparent]
    cases steps <;> rfl
  | @above id p chain hparent _ ih =>
    obtain ⟨-, ⟨n, hn, -⟩, -⟩ := h.sound hparent
    obtain ⟨steps, rfl⟩ : ∃ k, steps = k + 1 := ⟨steps - 1, by simp at hsteps; omega⟩
    have hup : n.parent = t.parent? p := by simp [parent?, hn]
    have hrest := ih (Nat.le_of_succ_le_succ hsteps)
    rw [hparent, searched_cons hn]
    simp only [climb, hn, hup, hrest]

theorem ancestor_eq_searched (want stop : NodeKind → Bool) {id : Nat} {chain : List Nat}
    (hchain : t.Ancestry id chain) (hid : id < t.size) :
    t.ancestor want stop id = .ok (t.searched want stop chain) := by
  obtain ⟨n, hn⟩ := node?_of_lt_size hid
  have hlength := h.length_lt_of_ancestry hchain hid
  have hclimb : t.climb want stop t.size (t.parent? id) = t.searched want stop chain :=
    h.climb_eq_searched hchain (by omega)
  have hup : n.parent = t.parent? id := by simp [parent?, hn]
  simp only [ancestor, hn, hup, hclimb]

end Linked

theorem searched_eq_some_iff {t : Tree} {want stop : NodeKind → Bool} {chain : List NodeId}
    {found : NodeId} : t.searched want stop chain = some found ↔
      ∃ below above, chain = below ++ found :: above ∧ t.Is want found ∧
        ∀ a ∈ below, ¬ t.Is want a ∧ ¬ t.Is stop a := by
  unfold searched
  rw [Option.filter_eq_some_iff, List.find?_eq_some_iff_append]
  constructor
  · rintro ⟨⟨-, below, above, hchain, hbelow⟩, hwant⟩
    exact ⟨below, above, hchain, by simpa using hwant, fun a ha => by simpa using hbelow a ha⟩
  · rintro ⟨below, above, hchain, hwant, hbelow⟩
    refine ⟨⟨by simp [hwant], below, above, hchain, fun a ha => ?_⟩, by simp [hwant]⟩
    simp [hbelow a ha]

/-- Whatever the nodes list, the parent of a node is the first node behind it that lists it, and it
has no parent if there is none. So the chain of the nodes above a node ends, and its numbers
increase. A search for a node above gives the first one on the chain that is wanted, unless one
stops the search before it. The loop around a node is the first loop on the chain with no function
before it, and there is none around it if there is none such. -/
theorem parents_of_nodes (nodes : List (NodeKind × Span)) :
    (∀ child parent : Nat, (ofNodes nodes).parent? child = some parent ↔
      IsLeast {p : Nat | child < p ∧ Lists nodes p child} parent) ∧
    (∀ child : Nat, (ofNodes nodes).parent? child = none ↔
      ¬ ∃ p : Nat, child < p ∧ Lists nodes p child) ∧
    ∀ id : Nat, id < nodes.length → ∃ chain : List Nat,
      (ofNodes nodes).Ancestry id chain ∧ (id :: chain).Pairwise (· < ·) ∧
      (∀ a ∈ chain, a < nodes.length) ∧
      (∀ want stop, (ofNodes nodes).ancestor want stop id =
        .ok ((ofNodes nodes).searched want stop chain)) ∧
      ∃ found, (ofNodes nodes).enclosingLoop id = .ok found ∧ ∀ loop, found = some loop ↔
        ∃ below above, chain = below ++ loop :: above ∧
          (ofNodes nodes).Is NodeKind.isLoop loop ∧
          ∀ a ∈ below, ¬ (ofNodes nodes).Is NodeKind.isLoop a ∧
            ¬ (ofNodes nodes).Is NodeKind.isLambda a := by
  have hlinked := (grown_ofNodes nodes).linked
  have hsize := size_ofNodes nodes
  simp only [← isChild_ofNodes, ← hsize]
  refine ⟨fun _ _ => hlinked.parent?_eq_some_iff, fun _ => hlinked.parent?_eq_none_iff, ?_⟩
  intro id hid
  obtain ⟨chain, hchain⟩ := hlinked.exists_ancestry id
  have hsearch := fun want stop => hlinked.ancestor_eq_searched want stop hchain hid
  exact ⟨chain, hchain, hlinked.pairwise_of_ancestry hchain, hlinked.lt_size_of_mem_ancestry hchain,
    hsearch, _, hsearch _ _, fun _ => searched_eq_some_iff⟩

/-- A break in a block that lists it twice, lists itself, a node behind it and no node. The block is
the body of a function in a loop, and a later block lists the break and the loop again. -/
def tangledNodes : List (NodeKind × Span) :=
  [(.breakLoop, .none), (.block [0, 1, 0, 3, 9], .none), (.lambda 1, .none),
    (.forIf none [] 2, .none), (.block [0, 3], .none)]

theorem parents_of_nodes_tangled :
    (ofNodes tangledNodes).parent? 0 = some 1 ∧ (ofNodes tangledNodes).parent? 1 = some 2 ∧
    (ofNodes tangledNodes).parent? 3 = some 4 ∧ (ofNodes tangledNodes).parent? 4 = none ∧
    (ofNodes tangledNodes).enclosingLoop 0 = .ok none ∧
    (ofNodes tangledNodes).enclosingLoop 2 = .ok (some 3) ∧
    IsLeast {p : Nat | 0 < p ∧ Lists tangledNodes p 0} 1 ∧
    ∃ chain : List Nat, (ofNodes tangledNodes).Ancestry 2 chain ∧
      ∃ below above, chain = below ++ 3 :: above := by
  obtain ⟨hparent, -, habove⟩ := parents_of_nodes tangledNodes
  obtain ⟨chain, hchain, -, -, -, found, hfound, hloop⟩ := habove 2 (by decide)
  have hthree : found = some 3 := by
    have hrun : (ofNodes tangledNodes).enclosingLoop 2 = .ok (some 3) := rfl
    rw [hrun] at hfound
    exact (Except.ok.inj hfound).symm
  obtain ⟨below, above, heq, -⟩ := (hloop 3).mp hthree
  exact ⟨rfl, rfl, rfl, rfl, rfl, rfl, (hparent 0 1).mp rfl, chain, hchain, below, above, heq⟩

end BytecodeCompiler.Tree
