import Odyssey.Rtl.PrefixTable

/-! Names of keys and values (`ntoskrnl/config/cmname.c`). A name without characters above `0xFF`
is stored with one byte for each character. `CHAR` is signed, so a byte from `0x80` on is read back
as a character from `0xFF80` on. -/
namespace Odyssey.Cm
open List
open Odyssey.Rtl.PrefixTable (WChar)

def wideBytes (name : List WChar) : List (BitVec 8) :=
  name.flatMap fun c : WChar => [c.setWidth 8,(c >>> 8).setWidth 8]

/-- The loop of `CmpCopyName`; `none` when it meets a character that is not compressed. -/
def copyChars : List WChar → Option (List (BitVec 8))
  | [] => some []
  | c::source => if c > 0xFF then none else (copyChars source).map (c.setWidth 8 :: ·)

/-- What `CmpCopyName` stores. It returns the number of these bytes. -/
def cmpCopyName (version : Nat) (source : List WChar) : List (BitVec 8) :=
  if version=1 then wideBytes source else (copyChars source).getD (wideBytes source)

/-- The test of the callers for `KEY_COMP_NAME`. -/
def isCompressed (version : Nat) (name : List WChar) : Prop :=
  (cmpCopyName version name).length<2*name.length

instance (version : Nat) (name : List WChar) : Decidable (isCompressed version name) :=
  inferInstanceAs (Decidable (_<_))

def cmpCopyCompressedName (destinationLength : Nat) (source : List (BitVec 8)) : List WChar :=
  (source.take (destinationLength/2)).map (·.signExtend 16)

section Compare
variable (upcase : WChar → WChar)

/-- The loop of `RtlCompareUnicodeString`, ignoring case. Where it ends with equal characters,
the lengths of the rests differ as much as those of the strings. -/
def rtlCompareUnicodeString : List WChar → List WChar → Int
  | c₁::s₁, c₂::s₂ =>
    if upcase c₁=upcase c₂ then rtlCompareUnicodeString s₁ s₂
    else (upcase c₁).toNat-(upcase c₂).toNat
  | s₁, s₂ => 2*s₁.length-2*s₂.length

def cmpCompareCompressedName : List WChar → List (BitVec 8) → Int
  | p₁::searchName, b::compressedName =>
    let p₂ : WChar := b.signExtend 16
    if p₁≠p₂ then
      let result : Int := (upcase p₁).toNat-(upcase p₂).toNat
      if result≠0 then result else cmpCompareCompressedName searchName compressedName
    else cmpCompareCompressedName searchName compressedName
  | searchName, compressedName => searchName.length-compressedName.length

end Compare

/-- A name is stored without loss: what is read back into a buffer with room for it, and the sign
of a comparison with it, are those of the name. -/
def StoredExactly (upcase : WChar → WChar) (version : Nat) (name : List WChar) : Prop :=
  isCompressed version name →
    (∀ destinationLength, 2*(cmpCopyName version name).length≤destinationLength →
      cmpCopyCompressedName destinationLength (cmpCopyName version name)=name) ∧
    ∀ searchName, (cmpCompareCompressedName upcase searchName (cmpCopyName version name)).sign =
      (rtlCompareUnicodeString upcase searchName name).sign

section Lemmas
variable {upcase : WChar → WChar} {version : Nat} {name : List WChar} {c : WChar}

theorem length_wideBytes (name : List WChar) : (wideBytes name).length=2*name.length := by
  simp [wideBytes,Nat.mul_comm]

theorem copyChars_of_le (h : ∀ c∈name, ¬c > 0xFF) :
    copyChars name=some (name.map (·.setWidth 8)) := by
  induction name with
  | nil => rfl
  | cons c name ih =>
    rw [copyChars,if_neg (h c (by simp)),ih fun d hd => h d (by simp [hd])]
    rfl

theorem copyChars_of_gt (hc : c∈name) (h : c > 0xFF) : copyChars name=none := by
  induction name with
  | nil => simp at hc
  | cons d name ih =>
    rw [copyChars]
    by_cases hd : d > 0xFF
    · rw [if_pos hd]
    · have hne : c≠d := fun e => hd (e ▸ h)
      rw [if_neg hd,ih (by simpa [hne] using hc)]
      rfl

theorem isCompressed_iff :
    isCompressed version name ↔ version≠1 ∧ (∀ c∈name, ¬c > 0xFF) ∧ name≠[] := by
  rw [isCompressed,cmpCopyName]
  by_cases hv : version=1
  · simp [hv,length_wideBytes]
  rw [if_neg hv]
  by_cases hall : ∀ c∈name, ¬c > 0xFF
  · rw [copyChars_of_le hall]
    have hpos : name≠[] ↔ 0<name.length := length_pos_iff.symm
    simp only [Option.getD_some,length_map,hpos,hv,ne_eq,not_false_eq_true,true_and]
    exact ⟨fun h => ⟨hall,by omega⟩,fun h => by omega⟩
  · push Not at hall
    obtain ⟨c,hc,hgt⟩ := hall
    rw [copyChars_of_gt hc hgt]
    simp only [Option.getD_none,length_wideBytes,lt_irrefl,false_iff,not_and]
    exact fun _ hall => absurd hgt (hall c hc)

/-- A character of eight bits survives exactly if its byte is not negative. -/
theorem signExtend_setWidth_eq (h : ¬c > 0xFF) : (c.setWidth 8).signExtend 16=c ↔ c<0x80 := by
  have hall : ∀ n<256, ((BitVec.ofNat 16 n).setWidth 8).signExtend 16=BitVec.ofNat 16 n ↔
      BitVec.ofNat 16 n<0x80 := by decide +kernel
  have hc := hall c.toNat (by bv_omega)
  rwa [BitVec.ofNat_toNat] at hc

theorem signExtend_setWidth_high (h : ¬c > 0xFF) (hhigh : ¬c<0x80) :
    (c.setWidth 8).signExtend 16=c ||| 0xFF00 := by
  have hall : ∀ n<256, ¬BitVec.ofNat 16 n<0x80 →
      ((BitVec.ofNat 16 n).setWidth 8).signExtend 16=BitVec.ofNat 16 n ||| 0xFF00 := by
    decide +kernel
  have hc := hall c.toNat (by bv_omega)
  rw [BitVec.ofNat_toNat,BitVec.setWidth_eq] at hc
  exact hc hhigh

theorem cmpCopyName_of_le (hv : version≠1) (h : ∀ c∈name, ¬c > 0xFF) :
    cmpCopyName version name=name.map (·.setWidth 8) := by
  rw [cmpCopyName,if_neg hv,copyChars_of_le h]
  rfl

/-- Where the bytes widen to the name, the two comparisons have the same sign. -/
theorem sign_compare {bytes : List (BitVec 8)} (h : bytes.map (·.signExtend 16)=name)
    (searchName : List WChar) : (cmpCompareCompressedName upcase searchName bytes).sign =
      (rtlCompareUnicodeString upcase searchName name).sign := by
  induction searchName generalizing bytes name with
  | nil =>
    subst h
    cases bytes with
    | nil => rfl
    | cons b bytes =>
      simp only [map_cons,cmpCompareCompressedName,rtlCompareUnicodeString,length_nil,
        length_cons,length_map]
      rw [Int.sign_eq_neg_one_of_neg (by omega),Int.sign_eq_neg_one_of_neg (by omega)]
  | cons p searchName ih =>
    subst h
    cases bytes with
    | nil =>
      simp only [map_nil,cmpCompareCompressedName,rtlCompareUnicodeString,length_nil,length_cons]
      rw [Int.sign_eq_one_of_pos (by omega),Int.sign_eq_one_of_pos (by omega)]
    | cons b bytes =>
      have hrest := ih (rfl : bytes.map (·.signExtend 16)=_)
      simp only [map_cons,cmpCompareCompressedName,rtlCompareUnicodeString]
      by_cases hp : p=b.signExtend 16
      · rw [if_neg (not_not.mpr hp),if_pos (by rw [hp]),hrest]
      · rw [if_pos hp]
        by_cases hup : upcase p=upcase (b.signExtend 16)
        · rw [if_neg (by rw [hup]; omega),if_pos hup,hrest]
        · have hne : (upcase p).toNat≠(upcase (b.signExtend 16)).toNat :=
            fun e => hup (BitVec.eq_of_toNat_eq e)
          rw [if_pos (by omega),if_neg hup]

end Lemmas

/-- A name is stored without loss exactly if it is not compressed or has ASCII characters only. -/
theorem storedExactly_iff (upcase : WChar → WChar) (version : Nat) (name : List WChar) :
    StoredExactly upcase version name ↔
      version=1 ∨ (∃ c∈name, c > 0xFF) ∨ ∀ c∈name, c<0x80 := by
  have hbytes : isCompressed version name → cmpCopyName version name=name.map (·.setWidth 8) := by
    intro h
    obtain ⟨hv,hall,-⟩ := isCompressed_iff.mp h
    exact cmpCopyName_of_le hv hall
  have hback : ∀ destinationLength, 2*(name.map (·.setWidth 8)).length≤destinationLength →
      cmpCopyCompressedName destinationLength (name.map (·.setWidth 8)) =
        name.map fun c => (c.setWidth 8).signExtend 16 := by
    intro destinationLength hroom
    rw [cmpCopyCompressedName,take_of_length_le (by omega),map_map]
    rfl
  constructor
  · intro h
    by_contra hcon
    simp only [not_or,not_exists,not_and,not_forall] at hcon
    obtain ⟨hv,hall,d,hd,hhigh⟩ := hcon
    have hc := isCompressed_iff.mpr ⟨hv,hall,ne_nil_of_mem hd⟩
    obtain ⟨hread,-⟩ := h hc
    have hwide := hread _ le_rfl
    rw [hbytes hc,hback _ le_rfl] at hwide
    have hsame : ∀ c∈name, (c.setWidth 8).signExtend 16=c :=
      map_inj_left.mp (hwide.trans (map_id name).symm)
    exact hhigh ((signExtend_setWidth_eq (hall d hd)).mp (hsame d hd))
  · intro hcond hc
    obtain ⟨hv,hall,-⟩ := isCompressed_iff.mp hc
    have hascii : ∀ c∈name, c<0x80 := by
      obtain h1 | ⟨d,hd,hgt⟩ | hascii := hcond
      · exact absurd h1 hv
      · exact absurd hgt (hall d hd)
      · exact hascii
    have hwide : (name.map fun c => (c.setWidth 8).signExtend 16)=name :=
      (map_inj_left.mpr fun c hc => (signExtend_setWidth_eq (hall c hc)).mpr (hascii c hc)).trans
        (map_id name)
    rw [hbytes hc]
    refine ⟨fun destinationLength hroom => (hback destinationLength hroom).trans hwide,
      sign_compare ?_⟩
    rw [map_map]
    exact hwide

/-- The name `é` is read back as `U+FFE9`, and is not found under its own name. -/
theorem storedExactly_latin : ¬StoredExactly id 5 [0xE9] ∧
    cmpCopyCompressedName 2 (cmpCopyName 5 [0xE9])=[0xFFE9] ∧
    (cmpCompareCompressedName id [0xE9] (cmpCopyName 5 [0xE9])).sign = -1 ∧
    (rtlCompareUnicodeString id [0xE9] [0xE9]).sign=0 := by
  refine ⟨fun h => ?_,by decide,by decide,by decide⟩
  exact absurd ((h (by decide : 1<2)).1 2 (by decide)) (by decide)

end Odyssey.Cm
