import Odyssey.Lib.Bytes

/-! The header of a hive file, the `HBASE_BLOCK` of `hivedata.h`, as the image of its 4096
bytes, with its checksum (`hivesum.c`) and its verification (`hiveinit.c`). -/
namespace Odyssey.Cm
open ByteMem

inductive Field where
  | signature | sequence1 | sequence2 | timeStampLow | timeStampHigh | major | minor | type
  | format | rootCell | length | cluster | checkSum
  deriving DecidableEq, Repr

def Field.index : Field → Nat
  | .signature => 0
  | .sequence1 => 1
  | .sequence2 => 2
  | .timeStampLow => 3
  | .timeStampHigh => 4
  | .major => 5
  | .minor => 6
  | .type => 7
  | .format => 8
  | .rootCell => 9
  | .length => 10
  | .cluster => 11
  | .checkSum => 127

def getField (baseBlock : Mem) (f : Field) : BitVec 32 := read32 baseBlock (4*f.index)

def setField (baseBlock : Mem) (f : Field) (v : BitVec 32) : Mem :=
  write32 baseBlock (4*f.index) v

def xorWords (baseBlock : Mem) : Nat → BitVec 32
  | 0 => 0
  | n+1 => xorWords baseBlock n ^^^ read32 baseBlock (4*n)

def hvpHiveHeaderChecksum (baseBlock : Mem) : BitVec 32 :=
  let sum := xorWords baseBlock 127
  let sum := if sum = -1 then -2 else sum
  if sum=0 then 1 else sum

def updateCheckSum (baseBlock : Mem) : Mem :=
  setField baseBlock .checkSum (hvpHiveHeaderChecksum baseBlock)

def hvSignature : BitVec 32 := 0x66676572

def hvpVerifyHiveHeader (baseBlock : Mem) : Bool :=
  !(getField baseBlock .signature != hvSignature ||
    getField baseBlock .major != 1 ||
    getField baseBlock .minor<3 ||
    getField baseBlock .type != 0 ||
    getField baseBlock .format != 1 ||
    getField baseBlock .cluster != 1 ||
    getField baseBlock .sequence1 != getField baseBlock .sequence2 ||
    hvpHiveHeaderChecksum baseBlock != getField baseBlock .checkSum)

section Fields

variable {b b' : Mem} {f g : Field} {v : BitVec 32}

theorem Field.index_injective (h : f.index=g.index) : f=g := by
  cases f <;> cases g <;> first | rfl | exact absurd h (by decide)

@[simp] theorem getField_setField : getField (setField b f v) f=v :=
  read32_write32 b _ v

theorem getField_setField_of_ne (h : f≠g) : getField (setField b f v) g=getField b g := by
  have hne : f.index≠g.index := fun hi => h (Field.index_injective hi)
  exact read32_write32_of_disjoint b v (by omega)

theorem xorWords_congr {n : Nat} (h : ∀ i<n, read32 b (4*i)=read32 b' (4*i)) :
    xorWords b n=xorWords b' n := by
  induction n with
  | zero => rfl
  | succ n ih => rw [xorWords,xorWords,ih fun i hi => h i (by omega),h n (by omega)]

/-- The checksum field is not part of the checksum. -/
theorem hvpHiveHeaderChecksum_updateCheckSum :
    hvpHiveHeaderChecksum (updateCheckSum b)=hvpHiveHeaderChecksum b := by
  have hx : xorWords (updateCheckSum b) 127=xorWords b 127 :=
    xorWords_congr fun i hi => read32_write32_of_disjoint b _ (by simp only [Field.index]; omega)
  rw [hvpHiveHeaderChecksum,hvpHiveHeaderChecksum,hx]

/-- The checks of `HvpVerifyHiveHeader` on fields that a write does not change. -/
def headerFormat (b : Mem) : Bool :=
  getField b .signature=hvSignature && getField b .major=1 && !(getField b .minor<3) &&
    getField b .format=1 && getField b .cluster=1

theorem headerFormat_setField (hf : f = .type ∨ f = .sequence1 ∨ f = .sequence2 ∨ f = .checkSum) :
    headerFormat (setField b f v)=headerFormat b := by
  have hne : ∀ g, g = .signature ∨ g = .major ∨ g = .minor ∨ g = .format ∨ g = .cluster →
      getField (setField b f v) g=getField b g := by
    intro g hg
    refine getField_setField_of_ne ?_
    rintro rfl
    obtain rfl | rfl | rfl | rfl := hf <;> simp at hg
  simp only [headerFormat,hne .signature (by simp),hne .major (by simp),hne .minor (by simp),
    hne .format (by simp),hne .cluster (by simp)]

/-- A header with a fresh checksum is accepted when its fields are right. -/
theorem hvpVerifyHiveHeader_updateCheckSum :
    hvpVerifyHiveHeader (updateCheckSum b)=(headerFormat b && getField b .type=0 &&
      getField b .sequence1=getField b .sequence2) := by
  have hne : ∀ g, g≠Field.checkSum → getField (updateCheckSum b) g=getField b g :=
    fun g hg => getField_setField_of_ne (Ne.symm hg)
  have hsum : getField (updateCheckSum b) .checkSum=hvpHiveHeaderChecksum b := getField_setField
  rw [hvpVerifyHiveHeader,hvpHiveHeaderChecksum_updateCheckSum,hsum,headerFormat,
    hne .signature (by decide),hne .major (by decide),hne .minor (by decide),hne .type (by decide),
    hne .format (by decide),hne .cluster (by decide),hne .sequence1 (by decide),
    hne .sequence2 (by decide)]
  rw [Bool.eq_iff_iff]
  simp only [Bool.not_eq_true',Bool.or_eq_false_iff,bne_eq_false_iff_eq,Bool.and_eq_true,
    decide_eq_true_eq,decide_eq_false_iff_not,Bool.not_eq_true',and_true]
  tauto

theorem getField_congr (h : ∀ o<4096, b o=b' o) (f : Field) : getField b f=getField b' f := by
  have : f.index≤127 := by cases f <;> decide
  exact read32_congr fun i hi => h _ (by omega)

/-- Only the bytes of the header decide whether it is accepted. -/
theorem hvpVerifyHiveHeader_congr (h : ∀ o<4096, b o=b' o) :
    hvpVerifyHiveHeader b=hvpVerifyHiveHeader b' := by
  have hx : xorWords b 127=xorWords b' 127 :=
    xorWords_congr fun i hi => read32_congr fun k hk => h _ (by omega)
  simp only [hvpVerifyHiveHeader,hvpHiveHeaderChecksum,hx,getField_congr h]

end Fields

def createBaseBlock : Mem :=
  let b : Mem := fun _ => 0
  let b := setField b .signature hvSignature
  let b := setField b .major 1
  let b := setField b .minor 3
  let b := setField b .type 0
  let b := setField b .format 1
  let b := setField b .cluster 1
  let b := setField b .rootCell (-1)
  let b := setField b .length 4096
  let b := setField b .sequence1 1
  let b := setField b .sequence2 1
  updateCheckSum b

end Odyssey.Cm
