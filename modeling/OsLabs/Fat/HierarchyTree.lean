import OsLabs.Lib.Command
import OsLabs.Lib.Heap

/-! # The hierarchy tree (`hierarchy_tree.c`)

A binary search tree whose nodes are also linked into a hierarchy: every node points to its
hierarchical parent, to its next sibling and to its first hierarchical child. The functions below
follow the source on a heap of nodes; a pointer is an `Option Nat`, with `none` for `NULL`.

The data pointers and the functions `data_cmp_fn`, `data_modify_fn` of the source are parameters:
`α` is the type of data pointers, `β` the memory they point into, and comparing, modifying or
destroying a datum reads or updates `β` only. Memory allocation always succeeds. -/

namespace OsLabs.Fat

/-- What stops a run: an invalid memory access, or a loop that does not end. -/
inductive Fault
  | nullPointer
  | danglingPointer
  | outOfBounds
  | doubleFree
  | diverges
  deriving DecidableEq, Repr

/-! ## Error numbers -/

def enoent : Int := 2
def eintr : Int := 4
def eio : Int := 5
def enotdir : Int := 20
def eisdir : Int := 21
def einval : Int := 22
def enospc : Int := 28
def enotempty : Int := 39
def eoverflow : Int := 75

/-! ## Node data structure -/

/-- A pointer to a heap cell; `none` is `NULL`. -/
abbrev Ptr := Option Nat

/-- `struct h_tree_s`. -/
structure HNode (α : Type) where
  data : α
  right : Ptr
  left : Ptr
  hParent : Ptr
  hNextSibling : Ptr
  hChildren : Ptr
  size : Int

/-- The memory the tree functions work on: the nodes, what the data pointers point at, `errno`. -/
structure HMem (α β : Type) where
  nodes : Heap (HNode α)
  store : β
  errno : Int

/-- Commands on tree memory. -/
abbrev HM (α β : Type) := EStateM Fault (HMem α β)

/-- `data_cmp_fn`: compare a datum with a key. -/
abbrev DataCmpFn (α β κ : Type) := β → α → κ → Except Fault Int

/-- `data_modify_fn`: update the memory behind a data pointer. -/
abbrev DataModifyFn (α β : Type) := α → β → Except Fault β

variable {α β κ : Type}

/-- Read a node through a non-null pointer. -/
def deref (r : Nat) : HM α β (HNode α) := do
  match (← get).nodes.cell r with
  | some node => pure node
  | none => throw .danglingPointer

/-- Write the node a non-null pointer points to. -/
def setNode (r : Nat) (f : HNode α → HNode α) : HM α β PUnit := do
  let _ ← deref r
  modify fun m => { m with nodes := m.nodes.modify r f }

/-- `malloc` of a node, initialized with the given fields. -/
def allocNode (node : HNode α) : HM α β Nat := do
  let m ← get
  set { m with nodes := m.nodes.alloc node }
  pure m.nodes.next

/-- `free` of a node. -/
def freeNode (r : Nat) : HM α β PUnit := do
  let _ ← deref r
  modify fun m => { m with nodes := m.nodes.free r }

/-- Set `errno` in tree memory. -/
def setTreeErrno (e : Int) : HM α β PUnit := modify fun m => { m with errno := e }

/-- Evaluate a comparison on the data memory. -/
def compareData (f : β → Except Fault Int) : HM α β Int := do
  match f (← get).store with
  | .ok c => pure c
  | .error e => throw e

/-- Apply a `data_modify_fn` to a data pointer. -/
def modifyData (f : DataModifyFn α β) (data : α) : HM α β PUnit := do
  match f data (← get).store with
  | .ok store => modify fun m => { m with store := store }
  | .error e => throw e

/-- `h_node_init`: a new node becomes the head of its parent's list of children. -/
def hNodeInit (newData : α) (hParent : Ptr) : HM α β Nat := do
  match hParent with
  | some p =>
      let parent ← deref p
      let r ← allocNode ⟨newData, none, none, some p, parent.hChildren, none, 1⟩
      setNode p fun node => { node with hChildren := some r }
      pure r
  | none => allocNode ⟨newData, none, none, none, none, none, 1⟩

/-! ## Accessors -/

/-- `h_tree_size`. -/
def hTreeSize : Ptr → HM α β Int
  | none => pure 0
  | some r => do
      let node ← deref r
      pure node.size

/-- `h_tree_get_data`; the result `none` is `NULL`. -/
def hTreeGetData : Ptr → HM α β (Option α)
  | none => do
      setTreeErrno einval
      pure none
  | some r => do
      let node ← deref r
      pure (some node.data)

/-- `h_tree_get_h_parent`. -/
def hTreeGetHParent : Ptr → HM α β Ptr
  | none => pure none
  | some r => do
      let node ← deref r
      pure node.hParent

/-- `h_tree_search` for a non-null key. The first argument bounds the depth of the recursion; a
search that uses it up follows a cycle. -/
def hTreeSearch (key : κ) (dataCmpKey : DataCmpFn α β κ) : Nat → Ptr → HM α β Ptr
  | 0, _ => throw .diverges
  | _ + 1, none => pure none
  | fuel + 1, some r => do
      let node ← deref r
      let smallerData ← compareData fun store => dataCmpKey store node.data key
      if smallerData < 0 then hTreeSearch key dataCmpKey fuel node.right
      else if smallerData > 0 then hTreeSearch key dataCmpKey fuel node.left
      else pure (some r)

/-! ## Modifiers -/

/-- `update_size`. -/
def updateSize (r : Nat) : HM α β PUnit := do
  let node ← deref r
  let sizeLeft ← hTreeSize node.left
  let sizeRight ← hTreeSize node.right
  setNode r fun node => { node with size := 1 + sizeLeft + sizeRight }

/-- `h_tree_insert` of non-null data. -/
def hTreeInsert (newData : α) (hParent : Ptr) (dataCmp : DataCmpFn α β α) :
    Nat → Ptr → HM α β Ptr
  | 0, _ => throw .diverges
  | _ + 1, none => do
      let newNode ← hNodeInit newData hParent
      pure (some newNode)
  | fuel + 1, some r => do
      let node ← deref r
      let cmp ← compareData fun store => dataCmp store newData node.data
      if cmp > 0 then
        let right ← hTreeInsert newData hParent dataCmp fuel node.right
        setNode r fun node => { node with right := right }
        updateSize r
        pure (some r)
      else if cmp < 0 then
        let left ← hTreeInsert newData hParent dataCmp fuel node.left
        setNode r fun node => { node with left := left }
        updateSize r
        pure (some r)
      else
        updateSize r
        pure (some r)

/-- `swap_nodes`: exchange the subtrees of two nodes. -/
def swapNodes (oldFile newFile : Nat) : HM α β PUnit := do
  let old ← deref oldFile
  let new ← deref newFile
  setNode oldFile fun node => { node with left := new.left, right := new.right }
  setNode newFile fun node => { node with left := old.left, right := old.right }
  updateSize newFile
  updateSize oldFile

/-- The loop of `remove_child_from_h`: advance to the sibling before `hChild`, or to the last one,
and unlink what follows it. -/
def unlinkSibling (hChild : Nat) (next : Ptr) : Nat → Nat → HM α β PUnit
  | 0, _ => throw .diverges
  | fuel + 1, childIterator => do
      let node ← deref childIterator
      match node.hNextSibling with
      | none => setNode childIterator fun node => { node with hNextSibling := next }
      | some sibling =>
          if sibling = hChild then
            setNode childIterator fun node => { node with hNextSibling := next }
          else unlinkSibling hChild next fuel sibling

/-- `remove_child_from_h` for a non-null child. -/
def removeChildFromH (hChild : Nat) : HM α β PUnit := do
  let child ← deref hChild
  match child.hParent with
  | none => pure ⟨⟩
  | some p =>
      let parent ← deref p
      match parent.hChildren with
      | none => setTreeErrno einval
      | some childIterator =>
          if childIterator = hChild then
            setNode p fun node => { node with hChildren := child.hNextSibling }
          else do
            let m ← get
            unlinkSibling hChild child.hNextSibling (m.nodes.next + 1) childIterator

/-- The `while` loop of `delete_root`, from the current `minimum` and `minimum_parent`. As in the
source, the parent is assigned after the step to the left, so it follows `minimum` itself. -/
def walkToMinimum : Nat → Nat → Nat → HM α β (Nat × Nat)
  | 0, _, _ => throw .diverges
  | fuel + 1, minimum, minimumParent => do
      let node ← deref minimum
      match node.left with
      | none => pure (minimum, minimumParent)
      | some left =>
          setNode left fun node => { node with size := node.size - 1 }
          walkToMinimum fuel left left

/-- `delete_root`. The recursive call of the source is made on a node without left child, so two
levels of recursion are enough. -/
def deleteRoot (dataDestroy : DataModifyFn α β) : Nat → Nat → HM α β Ptr
  | 0, _ => throw .diverges
  | fuel + 1, root => do
      let node ← deref root
      modifyData dataDestroy node.data
      match node.left, node.right with
      | none, right =>
          freeNode root
          pure right
      | some left, none =>
          freeNode root
          pure (some left)
      | some left, some minimumParent =>
          let parent ← deref minimumParent
          match parent.left with
          | none =>
              setNode minimumParent fun node => { node with left := some left }
              updateSize minimumParent
              freeNode root
              pure (some minimumParent)
          | some first =>
              setNode minimumParent fun node => { node with size := node.size - 1 }
              let m ← get
              let (minimum, lastParent) ← walkToMinimum (m.nodes.next + 1) first minimumParent
              swapNodes root minimum
              let rest ← deleteRoot dataDestroy fuel root
              setNode lastParent fun node => { node with left := rest }
              pure (some minimum)

/-- `h_tree_delete` for a non-null key. -/
def hTreeDelete (key : κ) (dataCmpKey : DataCmpFn α β κ) (dataDestroy : DataModifyFn α β) :
    Nat → Ptr → HM α β Ptr
  | 0, _ => throw .diverges
  | _ + 1, none => pure none
  | fuel + 1, some r => do
      let node ← deref r
      let cmp ← compareData fun store => dataCmpKey store node.data key
      if cmp = 0 then do
        removeChildFromH r
        deleteRoot dataDestroy 2 r
      else if cmp < 0 then
        let right ← hTreeDelete key dataCmpKey dataDestroy fuel node.right
        setNode r fun node => { node with right := right }
        updateSize r
        pure (some r)
      else
        let left ← hTreeDelete key dataCmpKey dataDestroy fuel node.left
        setNode r fun node => { node with left := left }
        updateSize r
        pure (some r)

/-! ## Iterators -/

/-- `h_tree_iterate_preorder`; the fuel bounds the depth of the recursion. -/
def hTreeIteratePreorder (modFn : DataModifyFn α β) : Nat → Ptr → HM α β PUnit
  | 0, _ => throw .diverges
  | _ + 1, none => pure ⟨⟩
  | fuel + 1, some r => do
      let node ← deref r
      modifyData modFn node.data
      hTreeIteratePreorder modFn fuel node.left
      hTreeIteratePreorder modFn fuel node.right

/-- `h_tree_flatten_preorder` into an array from slot `elemArray` on: the slots it writes, each with
the pointer it stores there, in the order of the writes. -/
def hTreeFlattenPreorder : Nat → Ptr → Int → HM α β (List (Int × α))
  | 0, _, _ => throw .diverges
  | _ + 1, none, _ => pure []
  | fuel + 1, some r, elemArray => do
      let node ← deref r
      let leftWrites ← hTreeFlattenPreorder fuel node.left (elemArray + 1)
      let size ← hTreeSize node.left
      let rightWrites ← hTreeFlattenPreorder fuel node.right (elemArray + 1 + size)
      pure ((elemArray, node.data) :: leftWrites ++ rightWrites)

/-- `h_tree_iterate_h_ancestors`: apply `modFn` to the data of a node and of all its hierarchical
ancestors. -/
def hTreeIterateHAncestors (modFn : DataModifyFn α β) : Nat → Ptr → HM α β PUnit
  | 0, _ => throw .diverges
  | _ + 1, none => pure ⟨⟩
  | fuel + 1, some r => do
      let node ← deref r
      modifyData modFn node.data
      hTreeIterateHAncestors modFn fuel node.hParent

/-- The loop of `h_tree_flatten_h_children`, with `slots` array slots left; the last write is the
`NULL` terminator. -/
def flattenSiblings : Nat → Nat → Ptr → HM α β (List α)
  | 0, _, _ => throw .diverges
  | _ + 1, slots, none => if slots = 0 then throw .outOfBounds else pure []
  | fuel + 1, slots, some r => do
      if slots = 0 then throw .outOfBounds
      else do
        let node ← deref r
        let rest ← flattenSiblings fuel (slots - 1) node.hNextSibling
        pure (node.data :: rest)

/-- `h_tree_flatten_h_children` of a non-null node, into an array of `slots` slots; the result is
what stands in the array before the `NULL` terminator. -/
def hTreeFlattenHChildren (root : Nat) (slots : Nat) : HM α β (List α) := do
  let node ← deref root
  let m ← get
  flattenSiblings (m.nodes.next + 2) slots node.hChildren

end OsLabs.Fat
