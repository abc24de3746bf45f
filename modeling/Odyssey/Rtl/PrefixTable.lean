import Odyssey.Rtl.SplayLinks

/-! Unicode prefix tables: one splay tree of prefixes for each number of components, the trees on a
ring of roots that starts at the table, and for each node the ring of entries whose prefixes differ
in case only. The node type of an entry is its place: at the root of its tree, at another node, or
behind the entry of a node on the ring of case matches. -/
namespace Odyssey.Rtl.PrefixTable
open TreeZipper SplayLinks

abbrev WChar := BitVec 16

def backslash : WChar := 0x5C

def rtlUpcaseUnicodeChar (table : BitVec 16 → BitVec 16) (source : WChar) : WChar :=
  if source<0x61 then source
  else if source≤0x7A then source-0x20
  else
    let offset := table ((source >>> 8) &&& 0xFF)
    let offset := table (offset+((source >>> 4) &&& 0xF))
    let offset := table (offset+(source &&& 0xF))
    source+offset

/-- An upcase table of a code page: no letter is the small form of the backslash. -/
structure UpcaseTable where
  offset : BitVec 16 → BitVec 16
  upcase_ne : ∀ c, 0x7A<c → rtlUpcaseUnicodeChar offset c≠backslash

def UpcaseTable.upcase (u : UpcaseTable) (c : WChar) : WChar := rtlUpcaseUnicodeChar u.offset c

/-- The table that has no letters beyond `z`. -/
def UpcaseTable.ascii : UpcaseTable where
  offset _ := 0
  upcase_ne c hc := by
    have h1 : ¬c<0x61 := by bv_omega
    have h2 : ¬c≤0x7A := by bv_omega
    intro h
    rw [rtlUpcaseUnicodeChar,if_neg h1,if_neg h2] at h
    have hc' : c=backslash := by simpa using h
    rw [hc'] at hc
    exact absurd hc (by decide)

theorem UpcaseTable.upcase_eq_backslash (u : UpcaseTable) {c : WChar} :
    u.upcase c=backslash ↔ c=backslash := by
  constructor
  · intro h
    by_cases hz : 0x7A<c
    · exact absurd h (u.upcase_ne c hz)
    · rw [UpcaseTable.upcase,rtlUpcaseUnicodeChar] at h
      split at h
      · exact h
      · rename_i ha
        rw [if_pos (BitVec.not_lt.mp hz)] at h
        simp only [backslash] at h
        bv_omega
  · intro h
    rw [h]
    rfl

/-- One name, and one more for each backslash but a last one. -/
def computeUnicodeNameLength (name : List WChar) : Nat :=
  1+name.dropLast.count backslash

inductive CompareResult where
  | properPrefix | lessThan | greaterThan | equal
  deriving DecidableEq, Repr

def firstMismatch (f : WChar → WChar) : List WChar → List WChar → Option (WChar × WChar)
  | p::ps, s::ss => if f p=f s then firstMismatch f ps ss else some (f p, f s)
  | _, _ => none

def mismatchResult (foundPrefix foundString : WChar) : CompareResult :=
  if foundPrefix=backslash then .lessThan
  else if foundString=backslash then .greaterThan
  else if foundPrefix<foundString then .lessThan
  else .greaterThan

def compareUnicodeStrings (u : UpcaseTable) (prefixName string : List WChar) (caseCheckChar : Nat) :
    CompareResult :=
  if prefixName=[backslash] ∧ 1<string.length ∧ string.head?=some backslash then .properPrefix
  else
    let caseCheckChar := min caseCheckChar (min string.length prefixName.length)
    let found := (firstMismatch id (prefixName.take caseCheckChar) (string.take caseCheckChar)).or
      (firstMismatch u.upcase (prefixName.drop caseCheckChar) (string.drop caseCheckChar))
    match found with
    | some (foundPrefix, foundString) => mismatchResult foundPrefix foundString
    | none =>
      if prefixName.length<string.length then
        if string[prefixName.length]?=some backslash then .properPrefix else .lessThan
      else if string.length<prefixName.length then .greaterThan
      else .equal

/-- `UNICODE_PREFIX_TABLE_ENTRY`; the identifier stands for its address. -/
structure Entry where
  id : Nat
  name : List WChar
  deriving DecidableEq, Repr

/-- A node of a tree: its entry and the others on the ring of case matches, in the order of the
`CaseMatch` links. -/
structure Node where
  owner : Entry
  variants : List Entry
  deriving DecidableEq, Repr

def Node.entries (a : Node) : List Entry := a.owner::a.variants

structure PrefixTree where
  nameLength : Nat
  links : BinTree Node
  deriving DecidableEq, Repr

def PrefixTree.entries (tree : PrefixTree) : List Entry := tree.links.toList.flatMap Node.entries

/-- The trees stand in the order of the `NextPrefixTree` links from the table. -/
structure Table where
  trees : List PrefixTree
  lastNextEntry : Option Nat
  deriving DecidableEq, Repr

def Table.entries (t : Table) : List Entry := t.trees.flatMap PrefixTree.entries

def rtlInitializeUnicodePrefix : Table := ⟨[],none⟩

variable (u : UpcaseTable)

def direction (fullName : List WChar) (a : Node) : Ordering :=
  match compareUnicodeStrings u a.owner.name fullName 0 with
  | .greaterThan => .gt
  | .lessThan => .lt
  | _ => .eq

def caseSensitiveMatch (fullName : List WChar) (index : Nat) (e : Entry) : Bool :=
  match compareUnicodeStrings u e.name fullName index with
  | .lessThan | .greaterThan => false
  | _ => true

def findInTrees (fullName : List WChar) (index : Nat) :
    List PrefixTree → Option Entry × List PrefixTree
  | [] => (none, [])
  | tree::rest =>
    let next := findInTrees fullName index rest
    match search (direction u fullName) tree.links [] with
    | none => (next.1, tree::next.2)
    | some a =>
      if index=0 then
        (some a.label.owner, ⟨tree.nameLength,rtlSplay a.left a.label a.right a.path⟩::rest)
      else
        match a.label.entries.find? (caseSensitiveMatch u fullName index) with
        | some e => (some e, tree::rest)
        | none => (next.1, tree::next.2)

def rtlFindUnicodePrefix (t : Table) (fullName : List WChar) (caseInsensitiveIndex : Nat) :
    Option Entry × Table :=
  let nameCount := computeUnicodeNameLength fullName
  let skipped := t.trees.takeWhile fun tree => nameCount<tree.nameLength
  let found := findInTrees u fullName caseInsensitiveIndex
    (t.trees.dropWhile fun tree => nameCount<tree.nameLength)
  (found.1, ⟨skipped++found.2,t.lastNextEntry⟩)

/-- The search loop of an insertion and the splaying of the node where it ended; `none` for a prefix
that is in the tree already. The tree is never empty. -/
def insertLinks (new : Entry) : BinTree Node → Path Node → Option (BinTree Node)
  | .nil, _ => none
  | .node l a r, up =>
    match compareUnicodeStrings u a.owner.name new.name 0 with
    | .equal =>
      if a.entries.any fun e => compareUnicodeStrings u e.name new.name 0xFFFFFFFF =
        .equal then none
      else some (rtlSplay l ⟨a.owner,new::a.variants⟩ r up)
    | .greaterThan =>
      match l with
      | .nil => some (rtlSplay (.node .nil ⟨new,[]⟩ .nil) a r up)
      | .node .. => insertLinks new l (.left a r::up)
    | _ =>
      match r with
      | .nil => some (rtlSplay l a (.node .nil ⟨new,[]⟩ .nil) up)
      | .node .. => insertLinks new r (.right l a::up)

def insertTree (new : Entry) : List PrefixTree → Option (List PrefixTree)
  | [] => some [⟨computeUnicodeNameLength new.name,.node .nil ⟨new,[]⟩ .nil⟩]
  | tree::rest =>
    let nameCount := computeUnicodeNameLength new.name
    if nameCount<tree.nameLength then (insertTree new rest).map (tree :: ·)
    else if tree.nameLength≠nameCount then
      some (⟨nameCount,.node .nil ⟨new,[]⟩ .nil⟩::tree::rest)
    else (insertLinks u new tree.links []).map fun links => ⟨nameCount,links⟩::rest

def rtlInsertUnicodePrefix (t : Table) (new : Entry) : Bool × Table :=
  match insertTree u new t.trees with
  | none => (false, t)
  | some trees => (true, ⟨trees,t.lastNextEntry⟩)

def Table.position (t : Table) (id : Nat) : Option (PrefixTree × Focus Node) :=
  t.trees.findSome? fun tree =>
    (locate (fun a => a.entries.any (·.id=id)) tree.links []).map (tree, ·)

def PrefixTree.root (tree : PrefixTree) : Option Nat := tree.links.root.map (·.owner.id)

def Table.roots (t : Table) : List Nat := t.trees.filterMap PrefixTree.root

/-- The `NextPrefixTree` links of the ring of roots, with `none` for the table. -/
def nextPrefixTree (roots : List Nat) : Option Nat → Option Nat
  | none => roots.head?
  | some root => (roots.drop (roots.idxOf root+1)).head?

def refEntry (roots : List Nat) (entry : Option Nat) : Nat → Option Nat → Option (Option Nat)
  | 0, _ => none
  | fuel+1, ref =>
    if nextPrefixTree roots ref=entry then some ref
    else refEntry roots entry fuel (nextPrefixTree roots ref)

def relink (trees new : List PrefixTree) : Option Nat → List PrefixTree
  | none => new++trees.tail
  | some ref =>
    let front := trees.takeWhile fun tree => tree.root≠some ref
    let back := trees.dropWhile fun tree => tree.root≠some ref
    front++back.take 1++new++back.drop 2

def setLinks (trees : List PrefixTree) (nameLength : Nat) (links : BinTree Node) :
    List PrefixTree :=
  trees.map fun tree => if tree.nameLength=nameLength then ⟨nameLength,links⟩ else tree

def removeFromRing (fuel : Nat) (t : Table) (tree : PrefixTree) (n : Focus Node) (id : Nat)
    (entry : Entry) : Option (List PrefixTree) :=
  let links := plug (.node n.left ⟨entry,n.label.variants.dropLast⟩ n.right) n.path
  match n.path with
  | [] =>
    (refEntry t.roots (some entry.id) fuel (nextPrefixTree t.roots (some id))).map
      (relink t.trees [⟨tree.nameLength,links⟩])
  | _::_ => some (setLinks t.trees tree.nameLength links)

def removeNode (fuel : Nat) (t : Table) (tree : PrefixTree) (n : Focus Node) :
    Option (List PrefixTree) :=
  let links := rtlDelete n
  let found := refEntry t.roots tree.root fuel (nextPrefixTree t.roots tree.root)
  if links = .nil then found.map (relink t.trees [])
  else if links.root.map (·.owner.id)≠tree.root then
    found.map (relink t.trees [⟨tree.nameLength,links⟩])
  else some (setLinks t.trees tree.nameLength links)

/-- `RtlRemoveUnicodePrefix` of an entry of the table; `none` if a loop over the ring of roots takes
more than `fuel` rounds. -/
def rtlRemoveUnicodePrefix (fuel : Nat) (t : Table) (id : Nat) : Option Table :=
  (t.position id).bind fun (tree, n) =>
    (if n.label.owner.id≠id then
      some (setLinks t.trees tree.nameLength
        (plug (.node n.left ⟨n.label.owner,n.label.variants.filter (·.id≠id)⟩ n.right) n.path))
    else
      match n.label.variants.getLast? with
      | some entry => removeFromRing fuel t tree n id entry
      | none => removeNode fuel t tree n).map fun trees => ⟨trees,none⟩

def caseMatch (id : Nat) : List Entry → Option Entry
  | [] => none
  | e::rest => if e.id=id then rest.head? else caseMatch id rest

/-- `RtlNextUnicodePrefix`; `none` where it reads through a null pointer. The last entry returned
has not been removed, since a removal forgets it. -/
def rtlNextUnicodePrefix (t : Table) (restart : Bool) : Option (Option Entry × Table) :=
  let returned (a : Option Node) : Option (Option Entry × Table) :=
    a.map fun a => (some a.owner, ⟨t.trees,some a.owner.id⟩)
  match (if restart then none else t.lastNextEntry) with
  | none =>
    match t.trees with
    | [] => some (none, t)
    | tree::_ => returned tree.links.first
  | some last =>
    (t.position last).bind fun (tree, n) =>
      match caseMatch last n.label.entries with
      | some e => some (some e, ⟨t.trees,some e.id⟩)
      | none =>
        match rtlRealSuccessor n with
        | some a => returned (some a)
        | none =>
          -- a case match has links of its own, and no next tree
          if n.label.owner.id≠last then none
          else if nextPrefixTree t.roots tree.root=none then some (none, t)
          -- the walk to the first node starts at the root of the tree just left
          else returned tree.links.first

/-- The tables that the operations lead to. A `UNICODE_STRING` has room for 32767 characters. -/
inductive Reachable : Table → Prop
  | start : Reachable rtlInitializeUnicodePrefix
  | insert {t : Table} (h : Reachable t) {new : Entry} (hname : new.name≠[])
      (hlength : new.name.length≤32767)
      (hfresh : ∀ e∈t.entries, e.id≠new.id) : Reachable (rtlInsertUnicodePrefix u t new).2
  | find {t : Table} (h : Reachable t) {fullName : List WChar} (hname : fullName≠[]) (index : Nat) :
      Reachable (rtlFindUnicodePrefix u t fullName index).2
  | remove {t t' : Table} (h : Reachable t) {fuel id : Nat}
      (hremove : rtlRemoveUnicodePrefix fuel t id=some t') : Reachable t'
  | next {t t' : Table} (h : Reachable t) {restart : Bool} {e : Option Entry}
      (hnext : rtlNextUnicodePrefix t restart=some (e, t')) : Reachable t'

end Odyssey.Rtl.PrefixTable
