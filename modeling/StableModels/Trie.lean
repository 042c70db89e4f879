import StableModels.Fault
import StableModels.Handle
import StableModels.OrderedMap

/-!
# Tries

A trie keeps payloads under keys that are lists of handles. Each level of it orders one
position of the key; the payload stands in a leaf below the last position. No key of a trie is
a proper part of another: a leaf has nothing below it.

Insertion is refused where it would break that, and says at which position of the key it met
the obstacle. `Trie.visit` lists the nodes at one depth, `Trie.entries` the payloads with
their keys; both ascend by key. `Trie.visitor` goes through the nodes at one depth one at a time.

How much memory there is plays no part here: a visitor asked for a depth beyond all keys finds
nothing, and needs no room for the levels that it will not come to.
-/

universe u

namespace StableModels

/-- A trie of payloads under lists of handles. -/
inductive Trie (α : Type u) where
  /-- A payload, at the end of its key. -/
  | leaf (payload : α) : Trie α
  /-- One subtree for each handle that continues the key. -/
  | node (children : OrderedMap Handle (Trie α)) : Trie α

namespace Trie

variable {α : Type u}

/-- The trie without keys. -/
def empty : Trie α := node .empty

instance : Inhabited (Trie α) := ⟨empty⟩

/-- The payload, if this is a leaf. -/
def payload? : Trie α → Option α
  | leaf payload => some payload
  | node _ => none

/-- The subtrees, if this is an inner node. -/
def children? : Trie α → Option (OrderedMap Handle (Trie α))
  | leaf _ => none
  | node children => some children

/-- An inner node without subtrees. -/
def isEmpty : Trie α → Bool
  | leaf _ => false
  | node children => children.isEmpty

/-- The node at the end of a list of handles. -/
def lookup : List Handle → Trie α → Option (Trie α)
  | [], trie => some trie
  | _ :: _, leaf _ => none
  | key :: keys, node children =>
    match children.find? compare key with
    | none => none
    | some child => child.lookup keys

/-- The payload at a key. -/
def find? (keys : List Handle) (trie : Trie α) : Option α :=
  (trie.lookup keys).bind payload?

/-! ### Insertion -/

/-- Puts a payload at the end of the rest `keys` of a key of `length` handles, below a node
that may not exist yet, and tells the payload it replaces. A key may not end at a node that
has children, nor go on below a leaf. -/
def insertBelow (length : Nat) (payload : α) :
    List Handle → Option (Trie α) → Except Fault (Trie α × Option α)
  | [], none => .ok (leaf payload, none)
  | [], some (leaf old) => .ok (leaf payload, some old)
  | [], some (node children) =>
    if children.isEmpty then .ok (leaf payload, none)
    else .error (Cause.keyEndsInside length length)
  | key :: keys, none =>
    match insertBelow length payload keys none with
    | .error fault => .error fault
    | .ok (child, _) => .ok (node (.single key child), none)
  | key :: keys, some (node children) =>
    match insertBelow length payload keys (children.find? compare key) with
    | .error fault => .error fault
    | .ok (child, replaced) => .ok (node (children.put compare key child), replaced)
  | _ :: keys, some (leaf _) =>
    .error (Cause.keyPassesLeaf (length - (keys.length + 1)) length)

/-- The trie with a payload put at a key, and the payload it replaces. -/
def insert (keys : List Handle) (payload : α) (trie : Trie α) :
    Except Fault (Trie α × Option α) :=
  insertBelow keys.length payload keys (some trie)

/-! ### Enumeration -/

mutual

/-- The keys with their payloads, ascending by key. -/
def entries : Trie α → List (List Handle × α)
  | leaf payload => [([], payload)]
  | node children => childEntries children

/-- The entries of the subtrees, each key with the handle of its subtree in front. -/
def childEntries : OrderedMap Handle (Trie α) → List (List Handle × α)
  | .empty => []
  | .node _ left key child right =>
    childEntries left ++ (entries child).map (fun entry => (key :: entry.1, entry.2))
      ++ childEntries right

end

/-- The nodes `depth` positions down, with the handles that lead to them, ascending;
branches that end earlier have none. -/
def visit : Nat → Trie α → List (List Handle × Trie α)
  | 0, trie => [([], trie)]
  | _ + 1, leaf _ => []
  | depth + 1, node children =>
    children.toList.flatMap fun child =>
      (child.2.visit depth).map fun found => (child.1 :: found.1, found.2)

/-! ### Visiting one node at a time

A visitor goes through the nodes at one depth on demand. For each level that it has come down it
keeps a cursor among the subtrees that are still to be entered there, and besides the handles that
it followed from the root to the lowest of these levels. Going down one level puts a cursor on the
stack and a handle on the path; when a level has no more subtrees, its cursor and the last handle
are taken off again. -/

/-- A visit to the nodes at one depth that has come to some place. -/
structure Visitor (α : Type u) where
  /-- How many positions down the nodes are. -/
  depth : Nat
  /-- The root, until the first node is asked for. -/
  root? : Option (Trie α)
  /-- The handles that lead to the lowest level, the last one first. -/
  path : List Handle
  /-- The subtrees still to be entered on each level, the lowest level first. -/
  stack : List (OrderedMap.Cursor Handle (Trie α))

/-- The visitor that is about to visit the nodes `depth` positions down. -/
def visitor (depth : Nat) (trie : Trie α) : Visitor α := ⟨depth, some trie, [], []⟩

mutual

/-- A bound on the steps from one level to the next that it takes to get through a node: one to
enter it and, for an inner node, one to leave it when all that is below has been gone through. -/
def effort : Trie α → Nat
  | leaf _ => 1
  | node children => childEffort children + 2

/-- The effort for all subtrees together. -/
def childEffort : OrderedMap Handle (Trie α) → Nat
  | .empty => 0
  | .node _ left _ child right => childEffort left + effort child + childEffort right

end

namespace Visitor

/-- The effort for the subtrees that a spine leads to. -/
def spineEffort : List (Handle × Trie α × OrderedMap Handle (Trie α)) → Nat
  | [] => 0
  | (_, child, right) :: spine => effort child + childEffort right + spineEffort spine

/-- The effort for all that is still to be entered, and for leaving each level. -/
def stackEffort : List (OrderedMap.Cursor Handle (Trie α)) → Nat
  | [] => 0
  | top :: stack => spineEffort top.spine + 1 + stackEffort stack

theorem spineEffort_descend (children : OrderedMap Handle (Trie α))
    (spine : List (Handle × Trie α × OrderedMap Handle (Trie α))) :
    spineEffort (children.descend spine) = childEffort children + spineEffort spine := by
  induction children generalizing spine with
  | empty => simp [OrderedMap.descend, childEffort]
  | node height left key child right ihl ihr =>
    rw [OrderedMap.descend, ihl, spineEffort, childEffort]
    omega

/-- Taking a subtree from a cursor takes its effort away. -/
theorem spineEffort_of_next {top rest : OrderedMap.Cursor Handle (Trie α)} {key : Handle}
    {child : Trie α} (next : top.next? = some ((key, child), rest)) :
    spineEffort top.spine = effort child + spineEffort rest.spine := by
  obtain ⟨_ | ⟨⟨_, _, right⟩, spine⟩, remaining⟩ := top
  · cases next
  · obtain ⟨⟨⟩, rfl⟩ := Prod.mk.inj (Option.some.inj next)
    rw [spineEffort, spineEffort_descend]
    omega

/-- Goes on from a stack and a path to the next node that is `depth` positions down: up where a
level has no more subtrees, down into the next subtree where it has, and past that subtree if it is
a leaf. -/
def advance (depth : Nat) :
    List Handle → List (OrderedMap.Cursor Handle (Trie α)) →
      Option (List Handle × Trie α) × Visitor α
  | path, [] => (none, ⟨depth, none, path, []⟩)
  | path, top :: stack =>
    match _next : top.next? with
    | none => advance depth path.tail stack
    | some ((key, child), rest) =>
      if stack.length + 1 = depth then
        (some ((key :: path).reverse, child), ⟨depth, none, path, rest :: stack⟩)
      else
        match child with
        | leaf _ => advance depth path (rest :: stack)
        | node children => advance depth (key :: path) (children.cursor :: rest :: stack)
termination_by _ stack => stackEffort stack
decreasing_by
  · simp only [stackEffort]
    omega
  · have taken := spineEffort_of_next _next
    simp only [stackEffort, effort] at taken ⊢
    omega
  · have taken := spineEffort_of_next _next
    simp only [stackEffort, OrderedMap.cursor, spineEffort_descend, spineEffort, effort] at taken ⊢
    omega

/-- The next node, if there is one, and the visitor afterwards. -/
def next (visitor : Visitor α) : Option (List Handle × Trie α) × Visitor α :=
  match visitor.root? with
  | none => advance visitor.depth visitor.path visitor.stack
  | some root =>
    if visitor.depth = 0 then (some ([], root), { visitor with root? := none })
    else
      match root.children? with
      | none => (none, { visitor with root? := none })
      | some children => advance visitor.depth visitor.path (children.cursor :: visitor.stack)

end Visitor

end Trie

end StableModels
