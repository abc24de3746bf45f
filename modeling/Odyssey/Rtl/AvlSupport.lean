import Odyssey.Lib.AvlTree

/-! The AVL package of `lib/rtl/avlsupp.c`. That file is compiled twice, once with the
accessors of `rtlavl.h` and once with those of `miavl.h`; `NodeOps` is the set of
accessors it is compiled over, so each routine below is written once as well.
A loop takes fuel and gives `none` when it runs out. -/
namespace Odyssey.Avl
open AvlTree (Side)

/-- A 32-bit address; 0 is NULL. -/
abbrev Addr := BitVec 32

scoped instance : LawfulBEq Addr := instLawfulBEq

structure NodeOps (M : Type) where
  parent : M → Addr → Addr
  child : M → Side → Addr → Addr
  balance : M → Addr → Int
  setParent : M → Addr → Addr → M
  setChild : M → Side → Addr → Addr → M
  setBalance : M → Addr → Int → M
  copyNodeData : M → Addr → Addr → M
  /-- The macro `RtlIsRightChild`, which both variants share and which reads the
  first word of the node as its parent. -/
  isRightChild : M → Addr → Bool

/-- The table fields that the package itself updates; the widths are those of the
`DepthOfTree` and `NumberGenericTableElements` fields. -/
structure Table (M : Type) (dw cw : Nat) where
  balancedRoot : Addr
  mem : M
  depthOfTree : BitVec dw
  numberGenericTableElements : BitVec cw

inductive TableSearchResult where
  | emptyTree | foundNode | insertAsLeft | insertAsRight
  deriving DecidableEq, Repr

variable {M : Type} (ops : NodeOps M) {dw cw : Nat}

def NodeOps.isLeftChild (m : M) (node : Addr) : Bool :=
  ops.child m .left (ops.parent m node)=node

def NodeOps.insertAsChild (m : M) (s : Side) (parent node : Addr) : M :=
  ops.setParent (ops.setChild m s parent node) node parent

def findLoop (compare : Addr → Ordering) (m : M) : Nat → Addr → Option (TableSearchResult × Addr)
  | 0, _ => none
  | fuel+1, currentNode =>
    match compare currentNode with
    | .lt =>
      if ops.child m .left currentNode≠0 then
        findLoop compare m fuel (ops.child m .left currentNode)
      else some (.insertAsLeft, currentNode)
    | .gt =>
      if ops.child m .right currentNode≠0 then
        findLoop compare m fuel (ops.child m .right currentNode)
      else some (.insertAsRight, currentNode)
    | .eq => some (.foundNode, currentNode)

def rtlpFindAvlTableNodeOrParent (compare : Addr → Ordering) (fuel : Nat) (t : Table M dw cw) :
    Option (TableSearchResult × Addr) :=
  if t.numberGenericTableElements=0 then some (.emptyTree, 0)
  else findLoop ops compare t.mem fuel (ops.child t.mem .right t.balancedRoot)

def rtlPromoteAvlTreeNode (m : M) (node : Addr) : M :=
  let parentNode := ops.parent m node
  let superParentNode := ops.parent m parentNode
  let s : Side := if ops.isLeftChild m node then .left else .right
  let m := ops.setChild m s parentNode (ops.child m s.flip node)
  let m := if ops.child m s parentNode≠0 then
    ops.setParent m (ops.child m s parentNode) parentNode else m
  let m := ops.setChild m s.flip node parentNode
  let m := ops.setParent m parentNode node
  let s' : Side := if ops.child m .left superParentNode=parentNode then .left else .right
  let m := ops.setChild m s' superParentNode node
  ops.setParent m node superParentNode

def rtlpRebalanceAvlTreeNode (m : M) (node : Addr) : M × Bool :=
  let balance := ops.balance m node
  let s : Side := if balance=1 then .right else .left
  let childNode := ops.child m s node
  if ops.balance m childNode=balance then
    let m := rtlPromoteAvlTreeNode ops m childNode
    let m := ops.setBalance m childNode 0
    (ops.setBalance m node 0, false)
  else if ops.balance m childNode = -balance then
    let subChildNode := ops.child m s.flip childNode
    let m := rtlPromoteAvlTreeNode ops m subChildNode
    let m := rtlPromoteAvlTreeNode ops m subChildNode
    let m :=
      if ops.balance m subChildNode=balance then
        ops.setBalance (ops.setBalance m childNode 0) node (-balance)
      else if ops.balance m subChildNode = -balance then
        ops.setBalance (ops.setBalance m childNode balance) node 0
      else ops.setBalance (ops.setBalance m childNode 0) node 0
    (ops.setBalance m subChildNode 0, false)
  else
    let m := rtlPromoteAvlTreeNode ops m childNode
    (ops.setBalance m childNode (-balance), true)

def insertLoop : Nat → Table M dw cw → Addr → Addr → Option (Table M dw cw)
  | 0, _, _, _ => none
  | fuel+1, t, newNode, nodeOrParent =>
    let balance : Int := if ops.isLeftChild t.mem newNode then -1 else 1
    if ops.balance t.mem nodeOrParent=0 then
      let m := ops.setBalance t.mem nodeOrParent balance
      insertLoop fuel { t with mem := m } nodeOrParent (ops.parent m nodeOrParent)
    else if ops.balance t.mem nodeOrParent≠balance then
      let m := ops.setBalance t.mem nodeOrParent 0
      some { t with
        mem := m
        depthOfTree := if ops.balance m t.balancedRoot=0 then t.depthOfTree+1 else t.depthOfTree }
    else some { t with mem := (rtlpRebalanceAvlTreeNode ops t.mem nodeOrParent).1 }

def rtlpInsertAvlTreeNode (fuel : Nat) (t : Table M dw cw) (newNode nodeOrParent : Addr) :
    TableSearchResult → Option (Table M dw cw)
  | .emptyTree =>
    let m := ops.setChild (ops.setChild t.mem .right newNode 0) .left newNode 0
    some { t with
      mem := ops.insertAsChild m .right t.balancedRoot newNode
      numberGenericTableElements := t.numberGenericTableElements+1
      depthOfTree := 1 }
  | result =>
    let m := ops.setChild (ops.setChild t.mem .right newNode 0) .left newNode 0
    let s : Side := if result = .insertAsLeft then .left else .right
    let m := ops.insertAsChild m s nodeOrParent newNode
    -- BalancedRoot pretends to be left heavy, so that reaching it ends the loop
    let m := ops.setBalance m t.balancedRoot (-1)
    insertLoop ops fuel
      { t with mem := m, numberGenericTableElements := t.numberGenericTableElements+1 }
      newNode nodeOrParent

def lastNode (m : M) (s : Side) : Nat → Addr → Option Addr
  | 0, _ => none
  | fuel+1, node =>
    if ops.child m s node≠0 then lastNode m s fuel (ops.child m s node) else some node

inductive DeleteTurn (M : Type) (dw cw : Nat) where
  | done (t : Table M dw cw)
  | climb (m : M) (node : Addr)

def deleteTurn (t : Table M dw cw) (parentNode : Addr) (balance : Int) : DeleteTurn M dw cw :=
  if ops.balance t.mem parentNode=balance then
    .climb (ops.setBalance t.mem parentNode 0) parentNode
  else if ops.balance t.mem parentNode=0 then
    let m := ops.setBalance t.mem parentNode (-balance)
    .done { t with
      mem := m
      depthOfTree := if ops.balance m t.balancedRoot≠0 then t.depthOfTree-1 else t.depthOfTree }
  else
    let r := rtlpRebalanceAvlTreeNode ops t.mem parentNode
    if r.2 then .done { t with mem := r.1 }
    else .climb r.1 (ops.parent r.1 parentNode)

def deleteLoop : Nat → Table M dw cw → Addr → Int → Option (Table M dw cw)
  | 0, _, _, _ => none
  | fuel+1, t, parentNode, balance =>
    match deleteTurn ops t parentNode balance with
    | .done t => some t
    | .climb m node =>
      deleteLoop fuel { t with mem := m } (ops.parent m node)
        (if ops.isRightChild m node then 1 else -1)

def pickDeleteNode (fuel : Nat) (m : M) (node : Addr) : Option Addr :=
  if ops.child m .left node=0 ∨ ops.child m .right node=0 then some node
  else if ops.balance m node ≥ 0 then lastNode ops m .left fuel (ops.child m .right node)
  else lastNode ops m .right fuel (ops.child m .left node)

def keptSide (m : M) (node : Addr) : Side :=
  if ops.child m .left node≠0 then .left else .right

def unhookNode (m : M) (deleteNode : Addr) : M :=
  let parentNode := ops.parent m deleteNode
  let s₁ := keptSide ops m deleteNode
  let s₂ : Side := if ops.isLeftChild m deleteNode then .left else .right
  let m := ops.setChild m s₂ parentNode (ops.child m s₁ deleteNode)
  if ops.child m s₁ deleteNode≠0 then
    ops.setParent m (ops.child m s₁ deleteNode) parentNode else m

def replaceNode (m : M) (deleteNode node : Addr) : M :=
  let m := ops.copyNodeData m deleteNode node
  let s : Side := if ops.isLeftChild m node then .left else .right
  let m := ops.setChild m s (ops.parent m deleteNode) deleteNode
  let m := if ops.child m .left deleteNode≠0 then
    ops.setParent m (ops.child m .left deleteNode) deleteNode else m
  if ops.child m .right deleteNode≠0 then
    ops.setParent m (ops.child m .right deleteNode) deleteNode else m

def rtlpDeleteAvlTreeNode (fuel : Nat) (t : Table M dw cw) (node : Addr) :
    Option (Table M dw cw) := do
  let deleteNode ← pickDeleteNode ops fuel t.mem node
  let parentNode := ops.parent t.mem deleteNode
  let balance : Int := if ops.isLeftChild t.mem deleteNode then -1 else 1
  -- BalancedRoot pretends to be balanced, so that reaching it ends the loop
  let m := ops.setBalance (unhookNode ops t.mem deleteNode) t.balancedRoot 0
  let t ← deleteLoop ops fuel { t with mem := m } parentNode balance
  if node=deleteNode then some t
  else some { t with mem := replaceNode ops t.mem deleteNode node }

end Odyssey.Avl
