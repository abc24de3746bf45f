import Mathlib.Tactic

/-! Short names (`lib/rtl/dos8dot3.c`): `RtlGenerate8dot3Name` makes a name of at most eight
characters and an extension from a long one, and counts in its context how often it was asked for
the same name. -/
namespace Odyssey.Rtl.ShortName
open Nat

abbrev WChar := BitVec 16

abbrev OemChar := BitVec 8

def dot : WChar := 0x2E

def underscore : WChar := 0x5F

def tilde : WChar := 0x7E

def rtlpShortIllegals : List OemChar :=
  [0x20,0x3B,0x2B,0x3D,0x5B,0x5D,0x2C,0x22,0x2A,0x5C,0x3C,0x3E,0x2F,0x3F,0x3A,0x7C]

def strchr (s : List OemChar) (c : OemChar) : Bool := s.contains c || c == 0

def rtlpIsShortIllegal (c : OemChar) : Bool := strchr rtlpShortIllegals c

def rtlpGetCheckSum (name : List WChar) : BitVec 16 :=
  name.foldl (fun (hash c : BitVec 16) => (hash+(c <<< 4)+(c >>> 4))*11) 0

def indexDigits : Nat → Nat → Nat
  | 0, _ => 0
  | fuel+1, index => if index=0 then 0 else indexDigits fuel (index/10)+1

def rtlpGetIndexLength (index : Nat) : Nat :=
  if indexDigits 10 index=0 then 1 else indexDigits 10 index

/-- The code page: `RtlUpcaseUnicodeToOemN` for one character and a buffer of one byte gives the
number of bytes it wrote and the byte, and `RtlUpcaseUnicodeStringToCountedOemString` gives the
string if it succeeds. -/
structure CodePage where
  upcaseUnicodeToOem : WChar → Nat × OemChar
  upcaseStringToCountedOem : List WChar → Option (List OemChar)

def asciiUpper (w : WChar) : OemChar :=
  if 0x61≤w.toNat ∧ w.toNat≤0x7A then (w-0x20).setWidth 8 else w.setWidth 8

def asciiCodePage : CodePage where
  upcaseUnicodeToOem w := (1, asciiUpper w)
  upcaseStringToCountedOem s := if s.length≤12 then some (s.map asciiUpper) else none

def lastDot : List WChar → Nat → Nat → Nat
  | [], _, dotPos => dotPos
  | c::l, i, dotPos => lastDot l (i+1) (if c=dot then i else dotPos)

def dotPos (name : List WChar) : Nat := lastDot name 0 name.length

section Generate
variable (cp : CodePage)

def copyName : List WChar → Nat → List WChar
  | [], _ => []
  | _::_, 0 => []
  | w::l, n+1 =>
    let r := cp.upcaseUnicodeToOem w
    if r.1≠1 ∨ r.2=0 ∨ rtlpIsShortIllegal r.2=true then underscore::copyName l n
    else if r.2≠0x2E then r.2.signExtend 16::copyName l n
    else copyName l (n+1)

def copyExtension : List WChar → Nat → List WChar
  | [], _ => []
  | _::_, 0 => []
  | w::l, n+1 =>
    let r := cp.upcaseUnicodeToOem w
    if r.1≠1 ∨ r.2=0 ∨ rtlpIsShortIllegal (w.setWidth 8)=true then
      underscore::copyExtension l n
    else r.2.signExtend 16::copyExtension l n

def baseName (name : List WChar) : List WChar := copyName cp (name.take (dotPos name)) 6

def extension (name : List WChar) : List WChar := copyExtension cp (name.drop (dotPos name)) 4

structure Counter where
  checkSumInserted : Bool
  lastIndexValue : Nat
  checksum : BitVec 16
  deriving DecidableEq

/-- `GENERATE_NAME_CONTEXT`, with the characters that are in use of the two buffers. -/
structure GenerateNameContext extends Counter where
  nameBuffer : List WChar
  extensionBuffer : List WChar
  deriving DecidableEq

def zeroContext : GenerateNameContext := ⟨⟨false,0,0⟩,[],[]⟩

def copyLength (c : Counter) (nameLength : Nat) : Nat :=
  if c.checkSumInserted then min nameLength (8-4-1-rtlpGetIndexLength c.lastIndexValue)
  else min nameLength (8-1-rtlpGetIndexLength c.lastIndexValue)

def expectedCheckSum (c : Counter) (name : List WChar) : BitVec 16 :=
  if c.checkSumInserted then rtlpGetCheckSum name else 0

/-- The context remembers the same short name and can count on. -/
def Continues (ctx : GenerateNameContext) (name : List WChar) : Prop :=
  ctx.nameBuffer=(baseName cp name).take (copyLength ctx.toCounter (baseName cp name).length) ∧
    ctx.extensionBuffer=extension cp name ∧
    expectedCheckSum ctx.toCounter name=ctx.checksum ∧ ctx.lastIndexValue<999

instance (ctx : GenerateNameContext) (name : List WChar) : Decidable (Continues cp ctx name) :=
  inferInstanceAs (Decidable (_ ∧ _ ∧ _ ∧ _))

def Counter.count (c : Counter) (name : List WChar) : Counter :=
  if c.checkSumInserted=false ∧ 9<c.lastIndexValue+1 then ⟨true,1,rtlpGetCheckSum name⟩
  else { c with lastIndexValue := c.lastIndexValue+1 }

def Counter.restart (c : Counter) : Counter :=
  { c with
    lastIndexValue := 1
    checkSumInserted := false }

def nextCounter (ctx : GenerateNameContext) (name : List WChar) : Counter :=
  if Continues cp ctx name then ctx.toCounter.count name else ctx.toCounter.restart

def writeDigits (base : Nat) (digit : Nat → WChar) : Nat → Nat → List WChar
  | 0, _ => []
  | n+1, value => writeDigits base digit n (value/base)++[digit (value%base)]

def decimalDigit (d : Nat) : WChar := BitVec.ofNat 16 (d+0x30)

def hexDigit (d : Nat) : WChar :=
  if 9<d then BitVec.ofNat 16 (d+0x41-10) else BitVec.ofNat 16 (d+0x30)

def checkSumDigits (checksum : BitVec 16) : List WChar := writeDigits 16 hexDigit 4 checksum.toNat

def stem (base : List WChar) (c : Counter) : List WChar :=
  base.take (copyLength c base.length) ++
    if c.checkSumInserted then checkSumDigits c.checksum else []

def indexPart (c : Counter) : List WChar :=
  tilde::writeDigits 10 decimalDigit (rtlpGetIndexLength c.lastIndexValue) c.lastIndexValue

def shortName (name : List WChar) (c : Counter) : List WChar :=
  stem (baseName cp name) c++indexPart c++extension cp name

def rtlGenerate8dot3Name (name : List WChar) (ctx : GenerateNameContext) :
    GenerateNameContext × List WChar :=
  let c := nextCounter cp ctx name
  (⟨c,(baseName cp name).take (copyLength c (baseName cp name).length),extension cp name⟩,
    shortName cp name c)

def contextAfter (ctx : GenerateNameContext) (names : List (List WChar)) : GenerateNameContext :=
  names.foldl (fun ctx name => (rtlGenerate8dot3Name cp name ctx).1) ctx

def shortNames (name : List WChar) : Nat → GenerateNameContext → List (List WChar)
  | 0, _ => []
  | n+1, ctx =>
    let r := rtlGenerate8dot3Name cp name ctx
    r.2::shortNames name n r.1

end Generate

structure Counter.Valid (c : Counter) : Prop where
  index : c.lastIndexValue≤999
  plain : c.checkSumInserted=false → c.lastIndexValue≤9

section Reached
variable {cp : CodePage} {ctx : GenerateNameContext} {c : Counter} {name : List WChar}

theorem Counter.valid_count (hlt : c.lastIndexValue<999) : (c.count name).Valid := by
  rw [Counter.count]
  split
  · exact ⟨(by decide : 1≤999),by simp⟩
  · rename_i hnot
    refine ⟨hlt,fun hplain => ?_⟩
    simp only at hplain ⊢
    have hle : ¬ 9<c.lastIndexValue+1 := fun hlt => hnot ⟨hplain,hlt⟩
    omega

theorem Counter.valid_restart (c : Counter) : c.restart.Valid :=
  ⟨(by decide : 1≤999),fun _ => (by decide : 1≤9)⟩

theorem valid_nextCounter (cp : CodePage) (ctx : GenerateNameContext) (name : List WChar) :
    (nextCounter cp ctx name).Valid := by
  rw [nextCounter]
  split
  · rename_i hcontinues
    exact Counter.valid_count hcontinues.2.2.2
  · exact Counter.valid_restart _

theorem valid_contextAfter (names : List (List WChar)) (h : ctx.toCounter.Valid) :
    (contextAfter cp ctx names).toCounter.Valid := by
  induction names generalizing ctx with
  | nil => exact h
  | cons name names ih => exact ih (valid_nextCounter cp ctx name)

theorem valid_zeroContext : zeroContext.toCounter.Valid := ⟨by decide,fun _ => by decide⟩

/-- A call for the name of the call before it has only the counter to look at. -/
theorem continues_again :
    Continues cp ⟨c,(baseName cp name).take (copyLength c (baseName cp name).length),
      extension cp name⟩ name ↔ expectedCheckSum c name=c.checksum ∧ c.lastIndexValue<999 := by
  simp [Continues]

end Reached

theorem length_copyName_le (cp : CodePage) (l : List WChar) (n : Nat) :
    (copyName cp l n).length≤n := by
  induction l generalizing n with
  | nil => exact zero_le n
  | cons w l ih =>
    cases n with
    | zero => exact le_refl 0
    | succ n =>
      rw [copyName]
      split
      · exact succ_le_succ (ih n)
      · split
        · exact succ_le_succ (ih n)
        · exact ih (n+1)

theorem length_baseName_le (cp : CodePage) (name : List WChar) : (baseName cp name).length≤6 :=
  length_copyName_le cp _ 6

section Digits
variable {base : Nat} {digit : Nat → WChar}

theorem length_writeDigits (n value : Nat) : (writeDigits base digit n value).length=n := by
  induction n generalizing value with
  | zero => rfl
  | succ n ih => rw [writeDigits,List.length_append,ih,List.length_singleton]

theorem mem_writeDigits (hbase : 0<base) {n value : Nat} {w : WChar}
    (h : w∈writeDigits base digit n value) : ∃ d<base, w=digit d := by
  induction n generalizing value with
  | zero => exact absurd h List.not_mem_nil
  | succ n ih =>
    obtain h | h := List.mem_append.mp h
    · exact ih h
    · exact ⟨value%base,mod_lt _ hbase,List.mem_singleton.mp h⟩

/-- The digits determine the number. -/
theorem writeDigits_inj (hdigit : ∀ d<base, ∀ e<base, digit d=digit e → d=e) {n v w : Nat}
    (hv : v<base^n) (hw : w<base^n)
    (h : writeDigits base digit n v=writeDigits base digit n w) : v=w := by
  induction n generalizing v w with
  | zero =>
    rw [pow_zero] at hv hw
    omega
  | succ n ih =>
    have hbase : 0<base := by
      refine pos_of_ne_zero fun hzero => ?_
      rw [hzero,pow_succ] at hv
      omega
    obtain ⟨hrest,hlast⟩ := List.append_inj' h rfl
    rw [pow_succ,mul_comm] at hv hw
    have hdiv : v/base=w/base :=
      ih (Nat.div_lt_of_lt_mul hv) (Nat.div_lt_of_lt_mul hw) hrest
    have hmod : v%base=w%base :=
      hdigit _ (Nat.mod_lt _ hbase) _ (Nat.mod_lt _ hbase) (List.singleton_inj.mp hlast)
    rw [← div_add_mod v,← div_add_mod w,hdiv,hmod]

theorem rtlpGetIndexLength_eq {index : Nat} (h : index≤999) :
    rtlpGetIndexLength index=if index<10 then 1 else if index<100 then 2 else 3 := by
  rw [rtlpGetIndexLength]
  by_cases hone : index<10
  · have hdiv : index/10=0 := by omega
    by_cases hzero : index=0
    · simp [hzero,indexDigits]
    · simp [hone,hzero,hdiv,indexDigits]
  · have h1 : index≠0 := by omega
    have h10 : index/10≠0 := by omega
    by_cases htwo : index<100
    · have hdiv : index/10/10=0 := by omega
      simp only [indexDigits,if_neg h1,if_neg h10,hdiv,hone,htwo,if_true,if_false]
      rfl
    · have h100 : index/10/10≠0 := by omega
      have hdiv : index/10/10/10=0 := by omega
      simp only [indexDigits,if_neg h1,if_neg h10,if_neg h100,hdiv,hone,htwo,if_true,if_false]
      rfl

end Digits

end Odyssey.Rtl.ShortName
