import Odyssey.Lib.Bytes

/-! Access control lists as memory images (`lib/rtl/acl.c`). Offsets count from the start of the
list. -/
namespace Odyssey.Rtl
open ByteMem

def aclHeaderSize : Nat := 8

def aceHeaderSize : Nat := 4

def minAclRevision : Nat := 2

def aclRevision3 : Nat := 3

def maxAclRevision : Nat := 4

def accessAllowedCompoundAceType : Nat := 4

def ushortAt (m : Mem) (o : Nat) : Nat := (m (o+1)).toNat*256+(m o).toNat

section Fields
variable (m : Mem)

def aclRevision : Nat := (m 0).toNat

def aclSize : Nat := ushortAt m 2

def aceCount : Nat := ushortAt m 4

def aceType (o : Nat) : Nat := (m o).toNat

def aceFlags (o : Nat) : Nat := (m (o+1)).toNat

def aceSize (o : Nat) : Nat := ushortAt m (o+2)

/-- The loop of `RtlFirstFreeAce`, with the number of ACEs still to pass. The inner `none` is
`*Ace == NULL`. -/
def firstFreeLoop : Nat → Nat → Option (Option Nat)
  | 0, current => some (if current<aclSize m then some current else none)
  | n+1, current =>
    if current ≥ aclSize m then none
    else if aceType m current=accessAllowedCompoundAceType ∧ aclRevision m<aclRevision3 then none
    else firstFreeLoop n (current+aceSize m current)

/-- `none` for `FALSE`, else `*Ace`. -/
def rtlFirstFreeAce : Option (Option Nat) :=
  if aceCount m=0 then some (some aclHeaderSize)
  else firstFreeLoop m (aceCount m) aclHeaderSize

def rtlValidAcl : Bool :=
  let size := (aclSize m+3)/4*4%65536
  if aclRevision m< minAclRevision ∨ aclRevision m > maxAclRevision then false
  else if size≠aclSize m then false
  else (rtlFirstFreeAce m).isSome

end Fields

/-- What `RtlGetAce` comes back with; `outside` if it reads a header that is not in the list. -/
inductive AceReply where
  | invalidParameter
  | outside
  | success (o : Nat)
deriving DecidableEq

def getAceLoop (m : Mem) : Nat → Nat → AceReply
  | 0, ace => if ace ≥ aclSize m then .invalidParameter else .success ace
  | n+1, ace =>
    if ace ≥ aclSize m then .invalidParameter
    else if ace+aceHeaderSize > aclSize m then .outside
    else getAceLoop m n (ace+aceSize m ace)

def rtlGetAce (m : Mem) (aceIndex : Nat) : AceReply :=
  if aclRevision m< minAclRevision ∨ aclRevision m > maxAclRevision ∨ aceIndex ≥ aceCount m then
    .invalidParameter
  else getAceLoop m aceIndex aclHeaderSize

def aceAfter (m : Mem) : Nat → Nat → Nat
  | 0, o => o
  | n+1, o => aceAfter m n (o+aceSize m o)

def aceStart (m : Mem) (i : Nat) : Nat := aceAfter m i aclHeaderSize

/-- The ACEs are in the list and none is shorter than its header. -/
def Contained (m : Mem) : Prop :=
  ∀ i<aceCount m, aceHeaderSize≤aceSize m (aceStart m i) ∧
    aceStart m i+aceSize m (aceStart m i)≤aclSize m

/-- What `RtlValidAcl` looks at: the revision, the size, and where the ACEs start. -/
def Checked (m : Mem) : Prop :=
  minAclRevision≤aclRevision m ∧ aclRevision m≤ maxAclRevision ∧ 4 ∣ aclSize m ∧
    ∀ i<aceCount m, aceStart m i<aclSize m ∧
      ¬(aceType m (aceStart m i)=accessAllowedCompoundAceType ∧ aclRevision m<aclRevision3)

section Walks
variable {m : Mem}

theorem aceAfter_succ (m : Mem) (n o : Nat) :
    aceAfter m (n+1) o=aceAfter m n o+aceSize m (aceAfter m n o) := by
  induction n generalizing o with
  | zero => rfl
  | succ n ih => exact ih (o+aceSize m o)

theorem aceStart_succ (m : Mem) (i : Nat) :
    aceStart m (i+1)=aceStart m i+aceSize m (aceStart m i) := aceAfter_succ m i aclHeaderSize

theorem aclSize_lt (m : Mem) : aclSize m<65536 := by
  simp only [aclSize,ushortAt]
  omega

theorem firstFreeLoop_isSome (m : Mem) (n o : Nat) : (firstFreeLoop m n o).isSome ↔
    ∀ i<n, aceAfter m i o<aclSize m ∧
      ¬(aceType m (aceAfter m i o)=accessAllowedCompoundAceType ∧
        aclRevision m<aclRevision3) := by
  induction n generalizing o with
  | zero => simp [firstFreeLoop]
  | succ n ih =>
    rw [firstFreeLoop,Nat.forall_lt_succ_left']
    simp only [aceAfter]
    split
    · simp_all
    · split
      · simp_all
      · rw [ih]
        simp_all

theorem rtlValidAcl_iff (m : Mem) : rtlValidAcl m ↔ Checked m := by
  have hlt := aclSize_lt m
  have hsize : (aclSize m+3)/4*4%65536=aclSize m ↔ 4 ∣ aclSize m := by omega
  have hfree : (rtlFirstFreeAce m).isSome ↔ ∀ i<aceCount m, aceStart m i<aclSize m ∧
      ¬(aceType m (aceStart m i)=accessAllowedCompoundAceType ∧ aclRevision m<aclRevision3) := by
    rw [rtlFirstFreeAce]
    split
    · next h => simp [h]
    · exact firstFreeLoop_isSome m _ _
  rw [rtlValidAcl,Checked,← hsize]
  simp only [ne_eq,Bool.if_false_left,Bool.and_eq_true,Bool.not_eq_true',decide_eq_false_iff_not,
    not_or,Nat.not_lt,not_not,gt_iff_lt]
  tauto

/-- In a list that contains its ACEs the walk reaches each of them. -/
theorem getAceLoop_eq (h : Contained m) {n i : Nat} (hi : i+n<aceCount m) :
    getAceLoop m n (aceStart m i) = .success (aceStart m (i+n)) := by
  induction n generalizing i with
  | zero =>
    obtain ⟨h1,h2⟩ := h i (by omega)
    rw [getAceLoop,if_neg (by rw [aceHeaderSize] at h1; omega)]
    rfl
  | succ n ih =>
    obtain ⟨h1,h2⟩ := h i (by omega)
    have h3 := ih (i := i+1) (by omega)
    rw [aceStart_succ] at h3
    rw [aceHeaderSize] at h1
    rw [getAceLoop,if_neg (by omega),if_neg (by rw [aceHeaderSize]; omega),h3]
    congr 2
    omega

theorem Contained.rtlGetAce_ne_outside (h : Contained m) (i : Nat) : rtlGetAce m i ≠ .outside := by
  intro hout
  rw [rtlGetAce] at hout
  split at hout
  · exact AceReply.noConfusion hout
  · next hi =>
    have hloop := getAceLoop_eq h (n := i) (i := 0) (by omega)
    exact AceReply.noConfusion (hout.symm.trans hloop)

/-- Among the lists that pass the check, those that contain their ACEs are the ones where no ACE is
shorter than its header and the last one ends in the list. -/
theorem Checked.contained_iff (h : Checked m) : Contained m ↔
    (∀ i<aceCount m, aceHeaderSize≤aceSize m (aceStart m i)) ∧
      (aceCount m≠0 → aceStart m (aceCount m)≤aclSize m) := by
  constructor
  · intro hc
    refine ⟨fun i hi => (hc i hi).1,fun h0 => ?_⟩
    obtain ⟨n,hn⟩ := Nat.exists_eq_succ_of_ne_zero h0
    rw [hn,aceStart_succ]
    exact (hc n (by omega)).2
  · rintro ⟨hsizes,hlast⟩ i hi
    refine ⟨hsizes i hi,?_⟩
    rw [← aceStart_succ]
    by_cases hi' : i+1<aceCount m
    · exact (h.2.2.2 (i+1) hi').1.le
    · have hn : i+1=aceCount m := by omega
      rw [hn]
      exact hlast (by omega)

end Walks

end Odyssey.Rtl
