import Odyssey.Cm.KeyName

/-! Leaves of a key index (`ntoskrnl/config/cmindex.c`, whose sorted search is compiled out). The
hint and the hash in an entry spare the comparison of full names. Both are made from the name that
`CmpAddSubKey` reads back from the key node. -/
namespace Odyssey.Cm
open Option
open Odyssey.Rtl.PrefixTable (WChar rtlUpcaseUnicodeChar)

/-- The name in a key node, under `KEY_COMP_NAME` with one byte for each character. -/
inductive NodeName where
  | compressed (name : List (BitVec 8))
  | wide (name : List WChar)

def NodeName.chars : NodeName → List WChar
  | .compressed name => cmpCopyCompressedName (2*name.length) name
  | .wide name => name

/-- The name in the key node that is made for a name. -/
def storedName (version : Nat) (name : List WChar) : NodeName :=
  if isCompressed version name then .compressed (cmpCopyName version name) else .wide name

inductive LeafSignature where
  | index | fast | hash
  deriving DecidableEq

/-- `NameHint` and `HashKey` share their bytes; a fast leaf has the one, a hash leaf the other. -/
structure CmIndex where
  cell : Nat
  nameHint : Vector (BitVec 8) 4
  hashKey : BitVec 32

structure KeyLeaf where
  signature : LeafSignature
  list : List CmIndex

def fillHint (name : List WChar) : Nat → Vector (BitVec 8) 4 → Vector (BitVec 8) 4
  | 0, hint => hint
  | j+1, hint =>
    if name.getD j 0 > 0xFF then hint
    else fillHint name j (hint.setIfInBounds j ((name.getD j 0).setWidth 8))

def hintChars (hint : Vector (BitVec 8) 4) : List WChar :=
  (hint.toList.takeWhile (· ≠ 0)).map (·.setWidth 16)

def compareHint (upcase : WChar → WChar) : List WChar → List WChar → Int
  | p::searchName, pp::hint =>
    let result : Int := (upcase p).toNat-(upcase pp).toNat
    if result≠0 then (if result > 0 then 1 else -1) else compareHint upcase searchName hint
  | _, _ => 0

section Model
variable (table : BitVec 16 → BitVec 16) (nodes : Nat → Option NodeName)

/-- `none` stands for the result 2, of a node that cannot be read. -/
def cmpDoCompareKeyName (searchName : List WChar) (cell : Nat) : Option Int :=
  (nodes cell).map fun
    | .compressed name =>
      (cmpCompareCompressedName (rtlUpcaseUnicodeChar table) searchName name).sign
    | .wide name => (rtlCompareUnicodeString (rtlUpcaseUnicodeChar table) searchName name).sign

/-- `*SubKey` is the cell of the entry for the result 0 and `HCELL_NIL` for all others. -/
def cmpCompareInIndex (searchName : List WChar) (signature : LeafSignature) (entry : CmIndex) :
    Option Int :=
  if signature = .fast then
    let result := compareHint (rtlUpcaseUnicodeChar table) searchName (hintChars entry.nameHint)
    if result≠0 then some result else cmpDoCompareKeyName table nodes searchName entry.cell
  else cmpDoCompareKeyName table nodes searchName entry.cell

def findInLeafLoop (searchName : List WChar) (signature : LeafSignature) :
    Nat → List CmIndex → Option (Nat × Option Nat)
  | _, [] => some (0, none)
  | i, entry::list =>
    (cmpCompareInIndex table nodes searchName signature entry).bind fun result =>
      if result=0 then some (i, some entry.cell)
      else findInLeafLoop searchName signature (i+1) list

/-- The index and the subkey found; `none` stands for `0x80000000`. -/
def cmpFindSubKeyInLeaf (leaf : KeyLeaf) (searchName : List WChar) : Option (Nat × Option Nat) :=
  findInLeafLoop table nodes searchName leaf.signature 0 leaf.list

def cmpComputeHashKey (hash : BitVec 32) : List WChar → BitVec 32
  | [] => hash
  | c::name =>
    let value := if c ≥ 0x61 then
        if c<0x7A then c-0x61+0x41 else rtlUpcaseUnicodeChar table c
      else c
    cmpComputeHashKey (hash*37+value.setWidth 32) name

def cmpFindSubKeyByHash (leaf : KeyLeaf) (searchName : List WChar) : Option Nat :=
  (leaf.list.find? fun entry => entry.hashKey=cmpComputeHashKey table 0 searchName ∧
    cmpDoCompareKeyName table nodes searchName entry.cell=some 0).map (·.cell)

/-- The entry that `CmpAddToLeaf` writes. The hint of an empty name is filled from the character
before the name. -/
def newEntry (signature : LeafSignature) (newKey : Nat) (name : List WChar) : Option CmIndex :=
  match signature with
  | .index => some ⟨newKey,.replicate 4 0,0⟩
  | .fast =>
    if name=[] then none
    else some ⟨newKey,fillHint name (min name.length 4) (.replicate 4 0),0⟩
  | .hash => some ⟨newKey,.replicate 4 0,cmpComputeHashKey table 0 name⟩

def insertionPoint (leaf : KeyLeaf) (name : List WChar) (i : Nat) : Option Nat :=
  match leaf.list[i]? with
  | none => some i
  | some entry => (cmpCompareInIndex table nodes name leaf.signature entry).map fun result =>
      if result > 0 then i+1 else i

def cmpAddToLeaf (leaf : KeyLeaf) (newKey : Nat) (name : List WChar) : Option KeyLeaf := do
  let found ← cmpFindSubKeyInLeaf table nodes leaf name
  let i ← insertionPoint table nodes leaf name found.1
  let entry ← newEntry table leaf.signature newKey name
  return { leaf with list := leaf.list.insertIdx i entry }

/-- Each entry is as `CmpAddToLeaf` writes it for the name that is read back from its key. -/
def WrittenLeaf (leaf : KeyLeaf) : Prop :=
  ∀ entry∈leaf.list, ∃ node, nodes entry.cell=some node ∧
    newEntry table leaf.signature entry.cell node.chars=some entry

end Model

section Names
variable (table : BitVec 16 → BitVec 16) (version : Nat) (names : Nat → Option (List WChar))

/-- The key nodes of keys that were made under some names. -/
def storedNodes (cell : Nat) : Option NodeName := (names cell).map (storedName version)

/-- The first key that was made under the name, ignoring case. -/
def linearSearch (leaf : KeyLeaf) (searchName : List WChar) : Option Nat :=
  (leaf.list.find? fun entry => (names entry.cell).any fun name =>
    searchName.map (rtlUpcaseUnicodeChar table)=name.map (rtlUpcaseUnicodeChar table)).map (·.cell)

/-- A key with the searched name, ignoring case, is equal for the hint, and both searches give what
a search over the full names gives. -/
structure NeverHides (leaf : KeyLeaf) : Prop where
  compare : ∀ searchName, ∀ entry∈leaf.list, ∀ name, names entry.cell=some name →
    searchName.map (rtlUpcaseUnicodeChar table)=name.map (rtlUpcaseUnicodeChar table) →
    cmpCompareInIndex table (storedNodes version names) searchName leaf.signature entry=some 0
  inLeaf : ∀ searchName,
    (cmpFindSubKeyInLeaf table (storedNodes version names) leaf searchName).map Prod.snd =
      some (linearSearch table names leaf searchName)
  byHash : leaf.signature = .hash → ∀ searchName,
    cmpFindSubKeyByHash table (storedNodes version names) leaf searchName =
      linearSearch table names leaf searchName

end Names

section Hint
variable {upcase : WChar → WChar} {name : List WChar}

theorem rtlCompareUnicodeString_eq_zero (s : List WChar) :
    rtlCompareUnicodeString upcase s name=0 ↔ s.map upcase=name.map upcase := by
  induction s generalizing name with
  | nil =>
    cases name with
    | nil => simp [rtlCompareUnicodeString]
    | cons d name =>
      simp [rtlCompareUnicodeString]
      omega
  | cons c s ih =>
    cases name with
    | nil =>
      simp [rtlCompareUnicodeString]
      omega
    | cons d name =>
      simp only [rtlCompareUnicodeString,List.map_cons,List.cons.injEq]
      by_cases h : upcase c=upcase d
      · rw [if_pos h,ih]
        simp [h]
      · have hne : (upcase c).toNat≠(upcase d).toNat := fun e => h (BitVec.eq_of_toNat_eq e)
        rw [if_neg h]
        simp only [h,false_and,iff_false]
        omega

/-- A difference in the hint is the difference of the names. -/
theorem compareHint_eq {hint : List WChar} (r s : List WChar) (h : compareHint upcase s hint≠0) :
    compareHint upcase s hint=(rtlCompareUnicodeString upcase s (hint++r)).sign := by
  induction hint generalizing s with
  | nil => cases s <;> exact absurd rfl h
  | cons d hint ih =>
    cases s with
    | nil => exact absurd rfl h
    | cons c s =>
      simp only [compareHint,List.cons_append,rtlCompareUnicodeString] at h ⊢
      by_cases hcd : upcase c=upcase d
      · rw [if_neg (by rw [hcd]; omega)] at h ⊢
        rw [if_pos hcd,ih s h]
      · have hne : (upcase c).toNat≠(upcase d).toNat := fun e => hcd (BitVec.eq_of_toNat_eq e)
        rw [if_pos (by omega)]
        split
        · rw [Int.sign_eq_one_of_pos (by omega)]
        · rw [Int.sign_eq_neg_one_of_neg (by omega)]

def HintOf (name : List WChar) (hint : List (BitVec 8)) : Prop :=
  ∀ (i : Nat) (b : BitVec 8), hint[i]?=some b → b≠0 → name[i]?=some (b.setWidth 16)

theorem HintOf.eq_append {hint : List (BitVec 8)} (h : HintOf name hint) :
    ∃ r, name=(hint.takeWhile (· ≠ 0)).map (·.setWidth 16)++r := by
  induction hint generalizing name with
  | nil => exact ⟨name,rfl⟩
  | cons b hint ih =>
    by_cases hb : b=0
    · exact ⟨name,by simp [hb]⟩
    · obtain ⟨rest,rfl⟩ : ∃ rest, name=b.setWidth 16::rest := by
        have h0 := h 0 b rfl hb
        cases name with
        | nil => simp at h0
        | cons c rest => exact ⟨rest,by simpa using h0⟩
      have hrest : HintOf rest hint := fun i c hc => h (i+1) c hc
      obtain ⟨r,hr⟩ := ih hrest
      rw [List.takeWhile_cons,if_pos (decide_eq_true hb)]
      exact ⟨r,congrArg (b.setWidth 16 :: ·) hr⟩

theorem HintOf.fillHint {j : Nat} {hint : Vector (BitVec 8) 4} (hj : j≤name.length)
    (h : HintOf name hint.toList) : HintOf name (fillHint name j hint).toList := by
  induction j generalizing hint with
  | zero => exact h
  | succ j ih =>
    rw [Cm.fillHint]
    split
    · exact h
    · rename_i hc
      refine ih (by omega) fun i b hb hne => ?_
      rw [Vector.toList_setIfInBounds,List.getElem?_set] at hb
      split at hb
      · rename_i hij
        subst hij
        split at hb
        · obtain rfl := Option.some.inj hb
          have hget : name[j]?=some (name.getD j 0) := by
            simp [List.getD_eq_getElem?_getD,List.getElem?_eq_getElem (show j<name.length by omega)]
          rw [hget]
          congr 1
          bv_omega
        · cases hb
      · exact h i b hb hne

end Hint

section Search
variable {table : BitVec 16 → BitVec 16} {nodes : Nat → Option NodeName} {leaf : KeyLeaf}
  {node : NodeName} {entry : CmIndex} {cell : Nat}

theorem cmpDoCompareKeyName_eq (h : nodes cell=some node) (searchName : List WChar) :
    cmpDoCompareKeyName table nodes searchName cell =
      some (rtlCompareUnicodeString (rtlUpcaseUnicodeChar table) searchName node.chars).sign := by
  rw [cmpDoCompareKeyName,h]
  cases node with
  | compressed name =>
    refine congrArg some (sign_compare ?_ searchName)
    rw [NodeName.chars,cmpCopyCompressedName,List.take_of_length_le (by omega)]
  | wide name => rfl

theorem cmpDoCompareKeyName_eq_zero (h : nodes cell=some node)
    (searchName : List WChar) : cmpDoCompareKeyName table nodes searchName cell=some 0 ↔
      searchName.map (rtlUpcaseUnicodeChar table)=node.chars.map (rtlUpcaseUnicodeChar table) := by
  rw [cmpDoCompareKeyName_eq h,some_inj,Int.sign_eq_zero_iff_zero,rtlCompareUnicodeString_eq_zero]

/-- The hint of an entry never changes the result. -/
theorem WrittenLeaf.cmpCompareInIndex (hw : WrittenLeaf table nodes leaf) (h : entry∈leaf.list)
    (searchName : List WChar) : cmpCompareInIndex table nodes searchName leaf.signature entry =
      cmpDoCompareKeyName table nodes searchName entry.cell := by
  obtain ⟨node,hnode,hentry⟩ := hw entry h
  rw [Cm.cmpCompareInIndex]
  split
  · rename_i hfast
    simp only [newEntry,hfast] at hentry
    split at hentry
    · cases hentry
    have hhint : HintOf node.chars entry.nameHint.toList := by
      rw [← Option.some.inj hentry]
      refine HintOf.fillHint (min_le_left _ _) fun i b hb hne => ?_
      simp only [Vector.toList_replicate,List.getElem?_replicate] at hb
      split at hb
      · exact absurd (Option.some.inj hb).symm hne
      · cases hb
    obtain ⟨r,hr⟩ := hhint.eq_append
    dsimp only
    split
    · rename_i hne
      rw [cmpDoCompareKeyName_eq hnode,hr]
      exact congrArg some (compareHint_eq r searchName hne)
    · rfl
  · rfl

/-- The value that is hashed for a character is its upper case, also for `z`. -/
theorem cmpComputeHashKey_eq (hash : BitVec 32) (name : List WChar) :
    cmpComputeHashKey table hash name =
      (name.map (rtlUpcaseUnicodeChar table)).foldl (fun h c => h*37+c.setWidth 32) hash := by
  induction name generalizing hash with
  | nil => rfl
  | cons c name ih =>
    have hvalue : (if c ≥ 0x61 then if c<0x7A then c-0x61+0x41 else rtlUpcaseUnicodeChar table c
        else c)=rtlUpcaseUnicodeChar table c := by
      by_cases ha : c<0x61
      · rw [if_neg (BitVec.not_le.mpr ha),rtlUpcaseUnicodeChar,if_pos ha]
      · rw [if_pos (BitVec.not_lt.mp ha)]
        split
        · rename_i hz
          rw [rtlUpcaseUnicodeChar,if_neg ha,if_pos (by bv_omega)]
          bv_omega
        · rfl
    rw [cmpComputeHashKey,hvalue,ih]
    rfl

theorem WrittenLeaf.add {newKey : Nat} {leaf' : KeyLeaf} (hw : WrittenLeaf table nodes leaf)
    (hnode : nodes newKey=some node)
    (h : cmpAddToLeaf table nodes leaf newKey node.chars=some leaf') :
    WrittenLeaf table nodes leaf' := by
  simp only [cmpAddToLeaf,bind_eq_bind,bind_eq_some_iff] at h
  obtain ⟨found,-,i,-,entry,hentry,hleaf⟩ := h
  obtain rfl := Option.some.inj hleaf
  have hcell : entry.cell=newKey := by
    simp only [newEntry] at hentry
    split at hentry
    · exact congrArg CmIndex.cell (Option.some.inj hentry).symm
    · split at hentry
      · cases hentry
      · exact congrArg CmIndex.cell (Option.some.inj hentry).symm
    · exact congrArg CmIndex.cell (Option.some.inj hentry).symm
  intro e he
  obtain rfl | he := List.eq_or_mem_of_mem_insertIdx he
  · exact ⟨node,by rw [hcell,hnode],by rw [hcell]; exact hentry⟩
  · exact hw e he

end Search

section Names
variable {table : BitVec 16 → BitVec 16} {version : Nat} {names : Nat → Option (List WChar)}
  {leaf : KeyLeaf} {name : List WChar} {entry : CmIndex}

/-- A name is read back, up to case, exactly if it is not compressed or none of its characters from
`0x80` on differs in upper case from the one it is read back as. -/
theorem chars_storedName_iff (upcase : WChar → WChar) (version : Nat) (name : List WChar) :
    name.map upcase=(storedName version name).chars.map upcase ↔
      version=1 ∨ (∃ c∈name, c > 0xFF) ∨ ∀ c∈name, c<0x80 ∨ upcase c=upcase (c ||| 0xFF00) := by
  by_cases hc : isCompressed version name
  · obtain ⟨hv,hall,-⟩ := isCompressed_iff.mp hc
    have hchars : (storedName version name).chars =
        name.map fun c => (c.setWidth 8).signExtend 16 := by
      rw [storedName,if_pos hc,NodeName.chars,cmpCopyCompressedName,
        List.take_of_length_le (by omega),
        cmpCopyName_of_le hv hall,List.map_map]
      rfl
    have hnone : ¬∃ c∈name, c > 0xFF := by
      rintro ⟨c,hmem,hgt⟩
      exact hall c hmem hgt
    rw [hchars,List.map_map,List.map_inj_left]
    simp only [hv,hnone,false_or]
    refine forall₂_congr fun c hmem => ?_
    by_cases hlow : c<0x80
    · exact iff_of_true (by simp [(signExtend_setWidth_eq (hall c hmem)).mpr hlow]) (.inl hlow)
    · rw [Function.comp_apply,signExtend_setWidth_high (hall c hmem) hlow,or_iff_right hlow]
  · rw [storedName,if_neg hc,NodeName.chars]
    rw [isCompressed_iff] at hc
    refine ⟨fun _ => ?_,fun _ => rfl⟩
    by_contra hcon
    simp only [not_or,not_exists,not_and] at hcon
    refine hc ⟨hcon.1,hcon.2.1,?_⟩
    rintro rfl
    exact hcon.2.2 (by simp)

/-- Where the names are read back up to case, an entry compares equal exactly if the name of its
key does. -/
theorem cmpDoCompareKeyName_stored (hname : names entry.cell=some name)
    (hread : name.map (rtlUpcaseUnicodeChar table) =
      (storedName version name).chars.map (rtlUpcaseUnicodeChar table)) (searchName : List WChar) :
    cmpDoCompareKeyName table (storedNodes version names) searchName entry.cell=some 0 ↔
      searchName.map (rtlUpcaseUnicodeChar table)=name.map (rtlUpcaseUnicodeChar table) := by
  have hnode : storedNodes version names entry.cell=some (storedName version name) := by
    rw [storedNodes,hname]
    rfl
  rw [cmpDoCompareKeyName_eq_zero hnode,hread]

def ReadBack (table : BitVec 16 → BitVec 16) (version : Nat) (names : Nat → Option (List WChar))
    (list : List CmIndex) : Prop :=
  ∀ entry∈list, ∀ name, names entry.cell=some name → name.map (rtlUpcaseUnicodeChar table) =
    (storedName version name).chars.map (rtlUpcaseUnicodeChar table)

theorem WrittenLeaf.exists_name (hw : WrittenLeaf table (storedNodes version names) leaf)
    (h : entry∈leaf.list) : ∃ name, names entry.cell=some name ∧
      newEntry table leaf.signature entry.cell (storedName version name).chars=some entry := by
  obtain ⟨node,hnode,hentry⟩ := hw entry h
  obtain ⟨name,hname,rfl⟩ := map_eq_some_iff.mp hnode
  exact ⟨name,hname,hentry⟩

theorem WrittenLeaf.findInLeafLoop {list : List CmIndex}
    (hw : WrittenLeaf table (storedNodes version names) leaf) (hsub : ∀ e∈list, e∈leaf.list)
    (hread : ReadBack table version names list) (searchName : List WChar) (i : Nat) :
    (findInLeafLoop table (storedNodes version names) searchName leaf.signature i list).map
      Prod.snd =
      some (linearSearch table names ⟨leaf.signature,list⟩ searchName) := by
  induction list generalizing i with
  | nil => rfl
  | cons e list ih =>
    have he := hsub e (by simp)
    obtain ⟨name,hname,-⟩ := hw.exists_name he
    have hrest := ih (fun d hd => hsub d (by simp [hd])) (fun d hd => hread d (by simp [hd])) (i+1)
    have hzero := cmpDoCompareKeyName_stored hname (hread e (by simp) name hname) searchName
    have hnode : storedNodes version names e.cell=some (storedName version name) := by
      rw [storedNodes,hname]
      rfl
    rw [cmpDoCompareKeyName_eq hnode,some_inj] at hzero
    rw [Cm.findInLeafLoop,hw.cmpCompareInIndex he,cmpDoCompareKeyName_eq hnode,bind_some,
      linearSearch,List.find?_cons]
    simp only [hzero,hname,any_some]
    split
    · rename_i h
      simp [h]
    · rename_i h
      simpa only [h,decide_false,linearSearch] using hrest

theorem WrittenLeaf.neverHides (hw : WrittenLeaf table (storedNodes version names) leaf)
    (hread : ReadBack table version names leaf.list) : NeverHides table version names leaf where
  compare searchName entry he name hname hequal := by
    rw [hw.cmpCompareInIndex he]
    exact (cmpDoCompareKeyName_stored hname (hread entry he name hname) searchName).mpr hequal
  inLeaf searchName := hw.findInLeafLoop (fun e he => he) hread searchName 0
  byHash hhash searchName := by
    refine congrArg (Option.map CmIndex.cell) (List.find?_congr fun e he => ?_)
    obtain ⟨name,hname,hentry⟩ := hw.exists_name he
    simp only [newEntry,hhash,some_inj] at hentry
    have hback := hread e he name hname
    simp only [hname,any_some,cmpDoCompareKeyName_stored hname hback,decide_eq_decide,
      and_iff_right_iff_imp]
    intro hequal
    rw [← hentry,cmpComputeHashKey_eq,cmpComputeHashKey_eq,hequal,hback]

/-- The hint and the hash hide no key exactly if the name of each key is not compressed, or no
character from `0x80` on differs in upper case from the one it is read back as. -/
theorem neverHides_iff (hw : WrittenLeaf table (storedNodes version names) leaf) :
    NeverHides table version names leaf ↔
      ∀ entry∈leaf.list, ∀ name, names entry.cell=some name → version=1 ∨ (∃ c∈name, c > 0xFF) ∨
        ∀ c∈name, c<0x80 ∨ rtlUpcaseUnicodeChar table c=rtlUpcaseUnicodeChar table
          (c ||| 0xFF00) := by
  constructor
  · intro h entry he name hname
    -- the key is not found under its own name otherwise
    have hequal := h.compare name entry he name hname rfl
    rw [hw.cmpCompareInIndex he] at hequal
    refine (chars_storedName_iff _ version name).mp
      ((cmpDoCompareKeyName_eq_zero ?_ name).mp hequal)
    rw [storedNodes,hname]
    rfl
  · intro h
    exact hw.neverHides fun entry he name hname => (chars_storedName_iff _ version name).mpr
      (h entry he name hname)

end Names

def twoNames (second : WChar) (cell : Nat) : Option (List WChar) :=
  if cell=32 then some [0x41,0x62] else if cell=64 then some [second,0x7A] else none

/-- A leaf with two keys, to which the names that are read back are added. -/
def twoKeys (signature : LeafSignature) (second : WChar) : Option KeyLeaf :=
  (cmpAddToLeaf (fun _ => 0) (storedNodes 5 (twoNames second)) ⟨signature,[]⟩ 32 [0x41,0x62]).bind
    (cmpAddToLeaf (fun _ => 0) (storedNodes 5 (twoNames second)) · 64
      (storedName 5 [second,0x7A]).chars)

theorem twoKeys_written {signature : LeafSignature} {second : WChar} {leaf : KeyLeaf}
    (h : twoKeys signature second=some leaf) :
    WrittenLeaf (fun _ => 0) (storedNodes 5 (twoNames second)) leaf := by
  obtain ⟨first,hfirst,hsecond⟩ := bind_eq_some_iff.mp h
  have hempty : WrittenLeaf (fun _ => 0) (storedNodes 5 (twoNames second)) ⟨signature,[]⟩ :=
    fun e he => by simp at he
  exact (hempty.add (show _=some (storedName 5 [0x41,0x62]) from rfl) hfirst).add rfl hsecond

/-- The key `Ab` is found as `AB` in a leaf with the key `zz`. -/
theorem neverHides_two_keys : ∃ leaf, twoKeys .fast 0x7A=some leaf ∧
    NeverHides (fun _ => 0) 5 (twoNames 0x7A) leaf ∧
    linearSearch (fun _ => 0) (twoNames 0x7A) leaf [0x41,0x42]=some 32 := by
  have hlinear : ((twoKeys .fast 0x7A).map fun leaf =>
      linearSearch (fun _ => 0) (twoNames 0x7A) leaf [0x41,0x42])=some
        (some 32) := by decide +kernel
  obtain ⟨leaf,hleaf,hlinear⟩ := map_eq_some_iff.mp hlinear
  refine ⟨leaf,hleaf,(neverHides_iff (twoKeys_written hleaf)).mpr fun entry _ name hname => ?_,
    hlinear⟩
  have hascii : name.all (· < 0x80) := by
    rw [twoNames] at hname
    split at hname
    · obtain rfl := Option.some.inj hname
      decide
    split at hname
    · obtain rfl := Option.some.inj hname
      decide
    · cases hname
  exact .inr (.inr fun c hc => .inl (of_decide_eq_true (List.all_eq_true.mp hascii c hc)))

/-- The key `éz` is not found under its name: not by its hash, and not by a comparison. -/
theorem latin_key_hidden : ∃ leaf, twoKeys .hash 0xE9=some leaf ∧
    ¬NeverHides (fun _ => 0) 5 (twoNames 0xE9) leaf ∧
    linearSearch (fun _ => 0) (twoNames 0xE9) leaf [0xE9,0x7A]=some 64 ∧
    cmpFindSubKeyByHash (fun _ => 0) (storedNodes 5 (twoNames 0xE9)) leaf [0xE9,0x7A]=none := by
  have hsearch : ((twoKeys .hash 0xE9).map fun leaf => (leaf.signature,
      linearSearch (fun _ => 0) (twoNames 0xE9) leaf [0xE9,0x7A],
      cmpFindSubKeyByHash (fun _ => 0) (storedNodes 5 (twoNames 0xE9)) leaf [0xE9,0x7A])) =
        some (.hash,some 64,none) := by decide +kernel
  obtain ⟨leaf,hleaf,hsearch⟩ := map_eq_some_iff.mp hsearch
  simp only [Prod.mk.injEq] at hsearch
  refine ⟨leaf,hleaf,fun h => ?_,hsearch.2⟩
  have hequal := h.byHash hsearch.1 [0xE9,0x7A]
  rw [hsearch.2.1,hsearch.2.2] at hequal
  cases hequal

end Odyssey.Cm
