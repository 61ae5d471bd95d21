import Otpo.Library.SpanningTree
import Otpo.Library.WrapAround
import Mathlib.Data.Int.Init
import Mathlib.Data.Nat.Bitwise

/-!
# Topologies of a reduction

Each rank finds for itself which rank it passes its data to and from which
ranks it gets data. Absent ranks are -1.
-/

set_option autoImplicit false

namespace Otpo.ReduceTopo
open Function WrapAround

def maxTreeFanout : ℕ := 32

structure Tree where
  root : ℕ
  prev : ℤ
  next : ℕ → ℤ
  nextsize : ℕ

def Tree.empty (root : ℕ) : Tree := ⟨root, -1, fun _ => -1, 0⟩

instance : Inhabited Tree := ⟨.empty 0⟩

def Tree.push (tree : Tree) (child : ℤ) : Tree :=
  { tree with next := update tree.next tree.nextsize child, nextsize := tree.nextsize+1 }

def Tree.children (tree : Tree) : List ℕ :=
  (List.range tree.nextsize).map (fun i => (tree.next i).toNat)

@[simp] theorem children_empty (root : ℕ) : (Tree.empty root).children = [] := rfl

@[simp] theorem children_prev (tree : Tree) (prev : ℤ) :
    Tree.children { tree with prev := prev } = tree.children := rfl

@[simp] theorem push_root (tree : Tree) (child : ℤ) : (tree.push child).root = tree.root := rfl

@[simp] theorem push_prev (tree : Tree) (child : ℤ) : (tree.push child).prev = tree.prev := rfl

@[simp] theorem push_nextsize (tree : Tree) (child : ℤ) :
    (tree.push child).nextsize = tree.nextsize+1 := rfl

@[simp] theorem children_push (tree : Tree) (child : ℤ) :
    (tree.push child).children = tree.children++[child.toNat] := by
  simp only [Tree.children, Tree.push, List.range_succ, List.map_append, List.map_singleton,
    update_self]
  congr 1
  apply List.map_congr_left
  intro i hi
  have : i ≠ tree.nextsize := by
    have := List.mem_range.mp hi
    omega
  rw [update_of_ne this]

section tree

def pown (fanout num : ℕ) : ℕ :=
  if num = 1 then fanout
  else if fanout = 2 then 1 <<< num
  else (List.range num).foldl (fun p _ => p*fanout) 1

def calculateLevelLoop (fanout rank : ℕ) : ℕ → ℕ → ℕ → ℕ
  | 0, level, _ => level
  | fuel+1, level, num =>
    if num ≤ rank then calculateLevelLoop fanout rank fuel (level+1) (num+pown fanout level)
    else level

def calculateLevel (fanout rank : ℕ) : ℕ := calculateLevelLoop fanout rank (rank+2) 0 0-1

def calculateNumNodesUpToLevel (fanout level : ℕ) : ℕ := (pown fanout level-1)/(fanout-1)

def sparentLoop (slimit step : ℕ) : ℕ → ℕ → ℕ
  | 0, sparent => sparent
  | fuel+1, sparent =>
    if slimit ≤ sparent then sparentLoop slimit step fuel (sparent-step) else sparent

def findChildren (size root shiftedrank delta : ℕ) : List ℕ → Tree → Tree
  | [], tree => tree
  | i::is, tree =>
    let schild := shiftedrank+delta*(i+1)
    if schild < size then
      findChildren size root shiftedrank delta is (tree.push ((schild+root)%size : ℕ))
    else tree

def findParent (fanout shiftedrank : ℕ) : ℕ :=
  let level := calculateLevel fanout shiftedrank
  if shiftedrank < fanout then 0
  else sparentLoop (calculateNumNodesUpToLevel fanout level) (pown fanout level/fanout)
    shiftedrank shiftedrank

def buildTree (fanout size rank root : ℕ) : Option Tree :=
  if fanout < 1 then none
  else if fanout > maxTreeFanout then none
  else if size < 2 then some (.empty root)
  else
    let shiftedrank := ahead size root rank
    let delta := pown fanout (calculateLevel fanout shiftedrank)
    let tree := findChildren size root shiftedrank delta (List.range fanout) (.empty root)
    some { tree with prev := ((findParent fanout shiftedrank+root)%size : ℕ) }

end tree

section bmtree

def bmtreeLoop (size root vrank : ℕ) : List ℕ → Tree → Option Tree
  | [], bmtree => some bmtree
  | i::is, bmtree =>
    let mask := 1 <<< i
    if mask < size then
      let remote := vrank ^^^ mask
      if remote < vrank then some { bmtree with prev := ((remote+root)%size : ℕ) }
      else if remote < size then
        let bmtree := bmtree.push ((remote+root)%size : ℕ)
        if bmtree.nextsize = maxTreeFanout then none
        else bmtreeLoop size root vrank is bmtree
      else bmtreeLoop size root vrank is bmtree
    else some bmtree

def buildInOrderBmtree (size rank root : ℕ) : Option Tree :=
  let bmtree := if root = rank then { Tree.empty root with prev := root } else Tree.empty root
  bmtreeLoop size root ((rank+size-root)%size) (List.range size) bmtree

end bmtree

section bintree

def bintreeNode (root : ℕ) (found : ℤ × ℤ × ℤ) : Tree where
  root := root
  prev := found.1
  next := update (update (fun _ => -1) 0 found.2.1) 1 found.2.2
  nextsize := (if found.2.1 ≥ 0 then 1 else 0)+(if found.2.2 ≥ 0 then 1 else 0)

end bintree

section chain

def numchain (size fanout : ℕ) : ℕ :=
  let fanout := if fanout < 1 then 1 else fanout
  let fanout := if fanout > maxTreeFanout then maxTreeFanout else fanout
  if size-1 < fanout then size-1 else fanout

def maxchainlen (size fanout : ℕ) : ℕ :=
  if (size-1)%fanout ≠ 0 then (size-1)/fanout+1 else (size-1)/fanout

def mark (size fanout : ℕ) : ℕ :=
  if (size-1)%fanout ≠ 0 then (size-1)%fanout else fanout+1

def ownChain (size fanout srank : ℕ) : ℕ × ℕ :=
  let long := maxchainlen size fanout
  let mark := mark size fanout
  if srank-1 < mark*long then
    let column := (srank-1)/long
    (1+column*long, long)
  else
    let column := mark+(srank-1-mark*long)/(long-1)
    (mark*long+1+(column-mark)*(long-1), long-1)

def chainHeads (size fanout : ℕ) : List ℕ → ℤ → Tree → Tree
  | [], _, chain => chain
  | i::is, last, chain =>
    let next := last+maxchainlen size fanout
    let next := if i > mark size fanout then next-1 else next
    let next := next%size
    chainHeads size fanout is next (chain.push next)

def buildChain (size rank root fanout : ℕ) : Tree :=
  let fanout := numchain size fanout
  let srank := ahead size root rank
  let chain := Tree.empty root
  if fanout = 1 then
    let chain := { chain with prev := if srank = 0 then -1 else ((srank-1+root)%size : ℕ) }
    if srank+1 ≥ size then chain else chain.push ((srank+1+root)%size : ℕ)
  else if size = 1 then chain
  else if rank = root then
    let first : ℤ := ((root+1)%size : ℕ)
    chainHeads size fanout (List.range' 1 (fanout-1)) first (chain.push first)
  else
    let (head, len) := ownChain size fanout srank
    let chain := { chain with
      prev := (((if srank = head then 0 else srank-1)+root)%size : ℕ) }
    if srank = head+len-1 then chain
    else if srank+1 < size then chain.push ((srank+1+root)%size : ℕ)
    else chain

end chain

end Otpo.ReduceTopo
