import Odyssey.Lib.PackedRecords
import Odyssey.Se.DaclLaw

/-! The bytes that `RtlGetAce` and the loops of `SepAccessCheck` read of a list that `RtlValidAcl`
accepts. The loops of `SepAccessCheck` follow `AceSize` and look at no size for the rest. -/
namespace Odyssey.Se
open ByteMem Odyssey.Rtl List

/-- `RtlCompareMemory` for some `ULONG`s, which it takes one at a time; `none` if it reads behind
the list. -/
def rtlCompareMemory (m : Mem) : Nat → Nat → Sid → Option Bool
  | 0, _, _ => some true
  | n+1, o, sid =>
    if aclSize m<o+4 then none
    else if bytes m o 4=sid.take 4 then rtlCompareMemory m n (o+4) (sid.drop 4)
    else some false

/-- `RtlEqualSid` for the SID at an offset and one of a token. -/
def rtlEqualSid (m : Mem) (o : Nat) (sid : Sid) : Option Bool :=
  if aclSize m≤o then none
  else if sid[0]?≠some (m o) then some false
  else if aclSize m≤o+1 then none
  else if sid[1]?≠some (m (o+1)) then some false
  else rtlCompareMemory m (2+(m (o+1)).toNat) o sid

/-- The loop of `SepSidInToken`; `user` for the first turn. -/
def sidInTokenLoop (m : Mem) (o : Nat) : Bool → List (Sid × Nat) → Option Bool
  | _, [] => some false
  | user, group::list =>
    match rtlEqualSid m o group.1 with
    | none => none
    | some true => some (user || group.2 &&& seGroupEnabled≠0)
    | some false => sidInTokenLoop m o false list

def Ace.discretionary (ace : Ace) : Bool :=
  ace.aceType=accessDeniedAceType || ace.aceType=accessAllowedAceType

/-- The ACEs whose SID is looked at. -/
def examined (m : Mem) (o : Nat) : Bool :=
  !(aceAt m o).inheritOnly && (aceAt m o).discretionary

/-- The ACEs for a token that a loop of `SepAccessCheck` comes to; `none` if it reads behind the
list. The loop of rule 4 stops at the first one that denies. The access mask is in front of the
SID. -/
def walkAces (token : Token) (stops : Bool) (m : Mem) : Nat → Nat → Option (List Ace)
  | 0, _ => some []
  | n+1, o =>
    if aclSize m<o+aceHeaderSize then none
    else if examined m o then
      match sidInTokenLoop m (o+8) true token.userAndGroups with
      | none => none
      | some false => walkAces token stops m n (o+aceSize m o)
      | some true =>
        if stops ∧ aceType m o=accessDeniedAceType then some [aceAt m o]
        else (walkAces token stops m n (o+aceSize m o)).map (aceAt m o::·)
    else walkAces token stops m n (o+aceSize m o)

def IsSid (sid : Sid) : Prop := sid.length=8+4*(sid.getD 1 0).toNat

def Token.WellFormed (token : Token) : Prop := ∀ group∈token.userAndGroups, IsSid group.1

/-- The ACEs are in the list, and no walk that follows their sizes reads outside of it, whatever
the token. -/
def SafeToWalk (m : Mem) : Prop :=
  Contained m ∧ (∀ i, rtlGetAce m i ≠ .outside) ∧ ∀ token : Token, token.WellFormed → ∀ stops,
    (walkAces token stops m (aceCount m) aclHeaderSize).isSome

/-- The SID at an offset ends in the list. -/
def SidInside (m : Mem) (o : Nat) : Prop := o+8+4*(m (o+1)).toNat≤aclSize m

section Sids
variable {m : Mem} {o n : Nat} {sid : Sid} {b : Bool}

theorem rtlCompareMemory_isSome (sid : Sid) (h : o+4*n≤aclSize m) :
    (rtlCompareMemory m n o sid).isSome := by
  induction n generalizing o sid with
  | zero => rfl
  | succ n ih =>
    rw [rtlCompareMemory,if_neg (by omega)]
    split
    · exact ih (sid.drop 4) (by omega)
    · rfl

theorem le_of_rtlCompareMemory (h : (rtlCompareMemory m (n+1) o (bytes m o (4*(n+1)))).isSome) :
    o+4*(n+1)≤aclSize m := by
  induction n generalizing o with
  | zero =>
    rw [rtlCompareMemory] at h
    split at h
    · cases h
    · omega
  | succ n ih =>
    rw [rtlCompareMemory,take_bytes m o (by omega),if_pos rfl,drop_bytes m o (by omega)] at h
    split at h
    · cases h
    · have hrest := ih h
      omega

theorem rtlCompareMemory_eq (h : rtlCompareMemory m n o sid=some b) :
    b=decide (bytes m o (4*n)=sid.take (4*n)) := by
  induction n generalizing o sid with
  | zero => simpa [rtlCompareMemory,bytes] using h.symm
  | succ n ih =>
    have hsplit : bytes m o (4*(n+1))=sid.take (4*(n+1)) ↔
        bytes m o 4=sid.take 4 ∧ bytes m (o+4) (4*n)=(sid.drop 4).take (4*n) := by
      rw [Nat.mul_succ,Nat.add_comm,bytes_add,take_add]
      constructor
      · intro heq
        have hlen := congrArg length heq
        simp only [length_append,length_bytes,length_take,length_drop] at hlen
        exact append_inj heq (by simp only [length_bytes,length_take]; omega)
      · rintro ⟨h1,h2⟩
        rw [h1,h2]
    rw [rtlCompareMemory] at h
    split at h
    · exact absurd h (by simp)
    split at h
    · next hword => simpa [hsplit,hword] using ih h
    · next hword => simpa [hsplit,hword] using h.symm

theorem rtlEqualSid_isSome (sid : Sid) (h : SidInside m o) : (rtlEqualSid m o sid).isSome := by
  rw [SidInside] at h
  have hsid := rtlCompareMemory_isSome (m := m) (o := o) (n := 2+(m (o+1)).toNat) sid (by omega)
  rw [rtlEqualSid,if_neg (show ¬aclSize m≤o by omega),if_neg (show ¬aclSize m≤o+1 by omega)]
  split
  · rfl
  split
  · rfl
  · exact hsid

theorem sidAt_eq (m : Mem) (o : Nat) : sidAt m o=bytes m o (4*(1+(m (o+1)).toNat+1)) := by
  rw [sidAt,bytes]
  congr 2
  omega

theorem isSid_sidAt (m : Mem) (o : Nat) : IsSid (sidAt m o) := by
  have h1 := getElem?_bytes m o (n := 4*(1+(m (o+1)).toNat+1)) (i := 1) (by omega)
  rw [IsSid,sidAt_eq,getD_eq_getElem?_getD,h1,Option.getD_some,length_bytes]
  omega

/-- A SID is compared as a whole with one that is equal. -/
theorem sidInside_of_rtlEqualSid (h : (rtlEqualSid m o (sidAt m o)).isSome) : SidInside m o := by
  have h0 := getElem?_bytes m o (n := 4*(1+(m (o+1)).toNat+1)) (i := 0) (by omega)
  have h1 := getElem?_bytes m o (n := 4*(1+(m (o+1)).toNat+1)) (i := 1) (by omega)
  rw [rtlEqualSid,sidAt_eq,h0,h1] at h
  split at h
  · cases h
  rw [if_neg (by simp)] at h
  split at h
  · cases h
  rw [if_neg (by simp),show 2+(m (o+1)).toNat=1+(m (o+1)).toNat+1 by omega] at h
  have hle := le_of_rtlCompareMemory h
  rw [SidInside]
  omega

theorem rtlEqualSid_eq (hsid : IsSid sid) (h : rtlEqualSid m o sid=some b) :
    b=decide (sidAt m o=sid) := by
  have hne : ∀ i<2, sid[i]?≠some (m (o+i)) → sidAt m o≠sid := by
    rintro i hi hdiff rfl
    rw [sidAt_eq] at hdiff
    exact hdiff (getElem?_bytes m o (by omega))
  rw [rtlEqualSid] at h
  split at h
  · exact absurd h (by simp)
  split at h
  · next hdiff => simpa [hne 0 (by omega) hdiff] using h.symm
  split at h
  · exact absurd h (by simp)
  split at h
  · next hdiff => simpa [hne 1 (by omega) hdiff] using h.symm
  · next hcount =>
    have hlen : sid.length=4*(2+(m (o+1)).toNat) := by
      rw [hsid,getD_eq_getElem?_getD,not_not.mp hcount,Option.getD_some]
      omega
    rw [rtlCompareMemory_eq h,take_of_length_le (by omega),sidAt_eq]
    congr 3
    omega

theorem sidInTokenLoop_isSome (user : Bool) (groups : List (Sid × Nat)) (h : SidInside m o) :
    (sidInTokenLoop m o user groups).isSome := by
  induction groups generalizing user with
  | nil => rfl
  | cons group groups ih =>
    obtain ⟨equal,hequal⟩ := Option.isSome_iff_exists.mp (rtlEqualSid_isSome group.1 h)
    rw [sidInTokenLoop,hequal]
    cases equal with
    | false => exact ih false
    | true => rfl

theorem sidInTokenLoop_eq {groups : List (Sid × Nat)} (hsids : ∀ group∈groups, IsSid group.1)
    (h : sidInTokenLoop m o false groups=some b) :
    b=match groups.find? fun group => sidAt m o=group.1 with
      | some group => group.2 &&& seGroupEnabled≠0
      | none => false := by
  induction groups with
  | nil => exact (Option.some.inj h).symm
  | cons group groups ih =>
    rw [sidInTokenLoop] at h
    cases hequal : rtlEqualSid m o group.1 with
    | none =>
      rw [hequal] at h
      exact absurd h (by simp)
    | some equal =>
      rw [hequal] at h
      have heq := rtlEqualSid_eq (hsids group mem_cons_self) hequal
      cases equal with
      | false =>
        rw [find?_cons_of_neg (by simpa using heq)]
        exact ih (fun g hg => hsids g (mem_cons_of_mem _ hg)) h
      | true =>
        rw [find?_cons_of_pos (by simpa using heq)]
        simpa using h.symm

theorem sidInTokenLoop_user_eq {token : Token} (htoken : token.WellFormed)
    (h : sidInTokenLoop m o true token.userAndGroups=some b) :
    b=sepSidInToken token (sidAt m o) := by
  rw [sepSidInToken]
  cases hgroups : token.userAndGroups with
  | nil =>
    rw [hgroups] at h
    exact (Option.some.inj h).symm
  | cons user groups =>
    rw [Token.WellFormed,hgroups] at htoken
    rw [hgroups,sidInTokenLoop] at h
    dsimp only
    cases hequal : rtlEqualSid m o user.1 with
    | none =>
      rw [hequal] at h
      exact absurd h (by simp)
    | some equal =>
      rw [hequal] at h
      have heq := rtlEqualSid_eq (htoken user mem_cons_self) hequal
      cases equal with
      | false =>
        rw [if_neg (by simpa using heq)]
        exact sidInTokenLoop_eq (fun g hg => htoken g (mem_cons_of_mem _ hg)) h
      | true =>
        rw [if_pos (by simpa using heq)]
        exact (Option.some.inj h).symm

end Sids

section Walk
variable {m : Mem} {token : Token} {n o : Nat} {l : List Ace}

theorem walkAces_cases {stops : Bool} (htoken : token.WellFormed)
    (h : walkAces token stops m (n+1) o=some l) :
    ¬((aceAt m o).discretionary ∧ (aceAt m o).applies token) ∧
        walkAces token stops m n (o+aceSize m o)=some l ∨
      ((aceAt m o).discretionary ∧ (aceAt m o).applies token) ∧
        (stops=true ∧ (aceAt m o).aceType=accessDeniedAceType ∧ l=[aceAt m o] ∨
          ∃ rest, walkAces token stops m n (o+aceSize m o)=some rest ∧ l=aceAt m o::rest) := by
  have hexamined : examined m o ↔ (aceAt m o).inheritOnly=false ∧ (aceAt m o).discretionary := by
    simp [examined]
  rw [walkAces] at h
  split at h
  · exact absurd h (by simp)
  split at h
  · next hyes =>
    obtain ⟨hinherit,htype⟩ := hexamined.mp hyes
    cases hsid : sidInTokenLoop m (o+8) true token.userAndGroups with
    | none =>
      rw [hsid] at h
      exact absurd h (by simp)
    | some found =>
      rw [hsid] at h
      have hfound : found=sepSidInToken token (aceAt m o).sid := sidInTokenLoop_user_eq htoken hsid
      cases found with
      | false =>
        refine .inl ⟨fun happlies => ?_,h⟩
        exact Bool.false_ne_true (hfound.trans (Bool.and_eq_true_iff.mp happlies.2).2)
      | true =>
        refine .inr ⟨⟨htype,by simp [Ace.applies,hinherit,← hfound]⟩,?_⟩
        dsimp only at h
        split at h
        · next hstops => exact .inl ⟨hstops.1,hstops.2,(Option.some.inj h).symm⟩
        · obtain ⟨rest,hrest,rfl⟩ := Option.map_eq_some_iff.mp h
          exact .inr ⟨rest,hrest,rfl⟩
  · next hno =>
    refine .inl ⟨fun happlies => hno (hexamined.mpr ⟨?_,happlies.1⟩),h⟩
    simpa using (Bool.and_eq_true_iff.mp happlies.2).1

/-- What the loop for `MAXIMUM_ALLOWED` does on the list, it does on the ACEs that the walk
finds. -/
theorem maximumLoop_walk (mapping : GenericMapping) (htoken : token.WellFormed)
    (h : walkAces token false m n o=some l) (granted denied : AccessMask) :
    maximumLoop token mapping (acesFrom m n o) granted denied =
      maximumLoop token mapping l granted denied := by
  induction n generalizing o l granted denied with
  | zero => rw [← Option.some.inj h,acesFrom]
  | succ n ih =>
    rw [acesFrom]
    obtain ⟨hskip,hrest⟩ | ⟨-,⟨hstops,-⟩ | ⟨rest,hrest,rfl⟩⟩ := walkAces_cases htoken h
    · rw [← ih hrest,maximumLoop]
      simp only [Ace.discretionary,Ace.applies] at hskip
      grind
    · exact absurd hstops Bool.false_ne_true
    · simp only [maximumLoop,ih hrest]

theorem grantLoop_walk (mapping : GenericMapping) (htoken : token.WellFormed)
    (h : walkAces token true m n o=some l) (current : AccessMask) :
    grantLoop token mapping (acesFrom m n o) current=grantLoop token mapping l current := by
  induction n generalizing o l current with
  | zero => rw [← Option.some.inj h,acesFrom]
  | succ n ih =>
    rw [acesFrom]
    obtain ⟨hskip,hrest⟩ | ⟨happlies,⟨-,hdenied,rfl⟩ | ⟨rest,hrest,rfl⟩⟩ := walkAces_cases htoken h
    · rw [← ih hrest,grantLoop]
      simp only [Ace.discretionary,Ace.applies] at hskip
      grind
    · obtain ⟨hinherit,hsid⟩ : ¬(aceAt m o).inheritOnly ∧
          sepSidInToken token (aceAt m o).sid := by simpa [Ace.applies] using happlies.2
      rw [grantLoop,grantLoop,if_neg hinherit,if_pos hdenied,if_pos hsid,if_neg hinherit,
        if_pos hdenied,if_pos hsid]
    · simp only [grantLoop,ih hrest]

/-- The loop for `MAXIMUM_ALLOWED` comes to all ACEs. -/
theorem walkAces_isSome_iff (token : Token) (m : Mem) (n o : Nat) :
    (walkAces token false m n o).isSome ↔ ∀ i<n, aceAfter m i o+aceHeaderSize≤aclSize m ∧
      (examined m (aceAfter m i o) →
        (sidInTokenLoop m (aceAfter m i o+8) true token.userAndGroups).isSome) := by
  induction n generalizing o with
  | zero => simp [walkAces]
  | succ n ih =>
    rw [walkAces,Nat.forall_lt_succ_left']
    simp only [aceAfter,← ih]
    split
    · next hout => simp [Nat.not_le_of_gt hout]
    · next hin =>
      rw [Nat.not_lt] at hin
      split
      · next hexamined =>
        cases hsid : sidInTokenLoop m (o+8) true token.userAndGroups with
        | none => simp [hexamined]
        | some found => cases found <;> simp [hexamined,hin]
      · next hexamined => simp [hexamined,hin]

theorem walkAces_isSome_stops (h : (walkAces token false m n o).isSome) (stops : Bool) :
    (walkAces token stops m n o).isSome := by
  induction n generalizing o with
  | zero => rfl
  | succ n ih =>
    rw [walkAces] at h ⊢
    split at h
    · cases h
    next hin =>
    rw [if_neg hin]
    split at h
    · next hexamined =>
      rw [if_pos hexamined]
      cases hsid : sidInTokenLoop m (o+8) true token.userAndGroups with
      | none => simp [hsid] at h
      | some found =>
        rw [hsid] at h
        cases found with
        | false => exact ih h
        | true =>
          dsimp only
          split
          · rfl
          · rw [Option.isSome_map]
            simp only [Bool.false_eq_true,false_and,if_false,Option.isSome_map] at h
            exact ih h
    · next hexamined =>
      rw [if_neg hexamined]
      exact ih h

/-- Each walk stays in the list exactly if the headers, and the SIDs of the ACEs that allow or deny,
are in it. -/
theorem walkAces_isSome_forall (m : Mem) (n o : Nat) :
    (∀ token : Token, token.WellFormed → ∀ stops, (walkAces token stops m n o).isSome) ↔
      ∀ i<n, aceAfter m i o+aceHeaderSize≤aclSize m ∧
        (examined m (aceAfter m i o) → SidInside m (aceAfter m i o+8)) := by
  constructor
  · intro h i hi
    -- a token whose user is the one of the ACE
    have hwalk := (walkAces_isSome_iff _ m n o).mp (h ⟨[(sidAt m (aceAfter m i o+8),0)],[]⟩
      (forall_mem_singleton.mpr (isSid_sidAt m _)) false) i hi
    refine ⟨hwalk.1,fun hexamined => sidInside_of_rtlEqualSid ?_⟩
    have hsid := hwalk.2 hexamined
    rw [sidInTokenLoop] at hsid
    cases hequal : rtlEqualSid m (aceAfter m i o+8) (sidAt m (aceAfter m i o+8)) with
    | none => simp [hequal] at hsid
    | some equal => rfl
  · intro h token _ stops
    refine walkAces_isSome_stops ((walkAces_isSome_iff token m n o).mpr fun i hi => ?_) stops
    exact ⟨(h i hi).1,fun hexamined => sidInTokenLoop_isSome true _ ((h i hi).2 hexamined)⟩

/-- `RtlValidAcl` looks only at where ACEs start: a list that it accepts is safe to walk exactly if
no ACE is shorter than its header, the last one ends in the list, and so does each SID of an ACE
that allows or denies. -/
theorem validAcl_safeToWalk_iff (m : Mem) (h : rtlValidAcl m) : SafeToWalk m ↔
    (∀ i<aceCount m, aceHeaderSize≤aceSize m (aceStart m i)) ∧
      (aceCount m≠0 → aceStart m (aceCount m)≤aclSize m) ∧
      ∀ i<aceCount m, examined m (aceStart m i) → SidInside m (aceStart m i+8) := by
  have hcontained := ((rtlValidAcl_iff m).mp h).contained_iff
  rw [SafeToWalk,walkAces_isSome_forall]
  constructor
  · rintro ⟨hc,-,hwalk⟩
    obtain ⟨hsizes,hlast⟩ := hcontained.mp hc
    exact ⟨hsizes,hlast,fun i hi => (hwalk i hi).2⟩
  · rintro ⟨hsizes,hlast,hsids⟩
    have hc := hcontained.mpr ⟨hsizes,hlast⟩
    refine ⟨hc,hc.rtlGetAce_ne_outside,fun i hi => ⟨?_,hsids i hi⟩⟩
    obtain ⟨h1,h2⟩ := hc i hi
    rw [aceStart] at h1 h2
    omega

theorem validAcl_safeToWalk_read : SafeToWalk (AccessRequest.readDacl [1,0]) := by
  refine (validAcl_safeToWalk_iff _ (by decide)).mpr ⟨by decide,by decide,fun i hi _ => ?_⟩
  obtain rfl | rfl : i=0 ∨ i=1 := by
    have hcount : aceCount (AccessRequest.readDacl [1,0])=2 := rfl
    omega
  · exact show 28≤48 by decide
  · exact show 48≤48 by decide

/-- A list of 12 bytes with the header of an ACE that allows. -/
def oneAceAcl (size : Nat) : Mem := fun o =>
  [2,0,12,0,1,0,0,0,0,0,BitVec.ofNat 8 size,BitVec.ofNat 8 (size/256)].getD o 0

/-- The ACE is longer than the list, or the list ends where its access mask would be. -/
theorem overrunAcl_valid :
    (rtlValidAcl (oneAceAcl 4096)=true ∧ ¬SafeToWalk (oneAceAcl 4096)) ∧
      rtlValidAcl (oneAceAcl 4)=true ∧ ¬SafeToWalk (oneAceAcl 4) := by
  refine ⟨⟨by decide,fun h => ?_⟩,by decide,fun h => ?_⟩
  · exact absurd (h.1 0 (by decide)).2 (by decide)
  · have hwalk := h.2.2 ⟨[([1,1,0,0,0,0,0,1,0,0,0,0],0)],[]⟩ (forall_mem_singleton.mpr rfl) false
    exact absurd hwalk (by decide)

end Walk

end Odyssey.Se
