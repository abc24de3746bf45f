import Odyssey.Se.AccessCheck

/-! Which rights a discretionary list grants, and when `SeAccessCheck` goes by it. -/
namespace Odyssey.Se
open ByteMem Odyssey.Rtl List BitVec Ace

section Mapping
variable (mapping : GenericMapping) {o : AccessMask}

theorem and_not_or_and (d k : AccessMask) : d &&& ~~~k ||| d &&& k=d := by
  have hall : ~~~k ||| k=allOnes 32 := by
    ext i hi
    simp
  rw [← and_or_distrib_left,hall,and_allOnes]

theorem and_not_zero (d : AccessMask) : d &&& ~~~0=d := by
  have hall : ~~~(0 : AccessMask)=allOnes 32 := by decide
  rw [hall,and_allOnes]

theorem and_not_and (d k : AccessMask) : d &&& ~~~(d &&& k)=d &&& ~~~k := by
  ext i hi
  cases hd : d[i] <;> simp [hd]

theorem mapGeneric_or {generic o : AccessMask} (ho : o &&& generic=0) (mapped a : AccessMask) :
    mapGeneric generic mapped (a ||| o)=mapGeneric generic mapped a ||| o := by
  have h : (a ||| o) &&& generic=a &&& generic := by
    calc (a ||| o) &&& generic=generic &&& a ||| o &&& generic := by
          rw [BitVec.and_comm,BitVec.and_or_distrib_left,BitVec.and_comm generic o]
      _=generic &&& a := by rw [ho]; exact BitVec.or_zero
      _=a &&& generic := BitVec.and_comm _ _
  rw [mapGeneric,mapGeneric,h]
  split
  · rw [BitVec.or_assoc,BitVec.or_comm o,← BitVec.or_assoc]
  · rfl

theorem mapGeneric_zero (generic mapped : AccessMask) : mapGeneric generic mapped 0=0 := by
  rw [mapGeneric,if_neg]
  exact fun h => h zero_and

/-- Rights that are not generic are kept. -/
theorem rtlMapGenericMask_or (ho : o &&& genericRights=0) (a : AccessMask) :
    rtlMapGenericMask mapping (a ||| o)=rtlMapGenericMask mapping a ||| o := by
  have hpart : ∀ g : AccessMask, genericRights &&& g=g → o &&& g=0 := by
    intro g hg
    rw [← hg,← BitVec.and_assoc,ho]
    exact BitVec.zero_and
  have hnot : o &&& ~~~genericRights=o := by
    have hsplit := and_not_or_and o genericRights
    rw [ho] at hsplit
    exact or_zero.symm.trans hsplit
  rw [rtlMapGenericMask,mapGeneric_or (hpart genericRead (by decide)),
    mapGeneric_or (hpart genericWrite (by decide)),mapGeneric_or (hpart genericExecute (by decide)),
    mapGeneric_or (hpart genericAll (by decide)),BitVec.and_comm,BitVec.and_or_distrib_left,
    BitVec.and_comm _ o,hnot,rtlMapGenericMask,BitVec.and_comm]

theorem rtlMapGenericMask_self (ho : o &&& genericRights=0) : rtlMapGenericMask mapping o=o := by
  have h := rtlMapGenericMask_or mapping ho 0
  have h0 : rtlMapGenericMask mapping 0=0 := by
    simp only [rtlMapGenericMask,mapGeneric_zero]
    exact zero_and
  rw [h0] at h
  exact (congrArg _ zero_or.symm).trans (h.trans zero_or)

end Mapping

section Loop
variable {token : Token} {mapping : GenericMapping} {list : List Ace} {current : AccessMask}

def Ace.applies (token : Token) (ace : Ace) : Bool :=
  !ace.inheritOnly && sepSidInToken token ace.sid

def Ace.decides (token : Token) (mapping : GenericMapping) (i : Nat) (ace : Ace) : Bool :=
  ace.applies token && (rtlMapGenericMask mapping ace.accessMask).getLsbD i

def Ace.denies (token : Token) (ace : Ace) : Bool :=
  ace.applies token && ace.aceType=accessDeniedAceType

def Ace.allows (token : Token) (mapping : GenericMapping) (i : Nat) (ace : Ace) : Bool :=
  ace.decides token mapping i && ace.aceType=accessAllowedAceType

/-- The first ACE that decides about the right allows it. -/
def AllowedFirst (token : Token) (mapping : GenericMapping) (list : List Ace) (i : Nat) : Prop :=
  ∃ ace, list.find? (decides token mapping i)=some ace ∧ ace.aceType=accessAllowedAceType

/-- The loop leaves at an ACE that denies the token anything, else it collects what is allowed. -/
theorem grantLoop_spec (token : Token) (mapping : GenericMapping) (list : List Ace)
    (current : AccessMask) :
    (list.any (denies token) ∧ grantLoop token mapping list current=none) ∨
      list.any (denies token)=false ∧ ∃ c, grantLoop token mapping list current=some c ∧
        ∀ i, c.getLsbD i=(current.getLsbD i || list.any (allows token mapping i)) := by
  induction list generalizing current with
  | nil => exact .inr ⟨rfl,current,rfl,by simp⟩
  | cons ace list ih =>
    rw [grantLoop]
    by_cases hinherit : ace.inheritOnly
    · simpa [denies,allows,decides,applies,hinherit] using ih current
    · by_cases hsid : sepSidInToken token ace.sid
      · by_cases hdeny : ace.aceType=accessDeniedAceType
        · simp [denies,applies,hinherit,hsid,hdeny]
        · by_cases hallow : ace.aceType=accessAllowedAceType
          · have h := ih (current ||| rtlMapGenericMask mapping ace.accessMask)
            simpa [denies,allows,decides,applies,hinherit,hsid,hdeny,hallow,
              Bool.or_assoc,accessAllowedAceType,accessDeniedAceType] using h
          · simpa [denies,allows,decides,applies,hinherit,hsid,hdeny,hallow]
              using ih current
      · simpa [denies,allows,decides,applies,hinherit,hsid] using ih current

/-- Without an ACE that denies, a right is allowed first if some ACE allows it. -/
theorem allowedFirst_iff (hdeny : list.any (denies token)=false)
    (htypes : ∀ ace∈list, ace.aceType=accessAllowedAceType ∨ ace.aceType=accessDeniedAceType)
    (i : Nat) : AllowedFirst token mapping list i ↔ list.any (allows token mapping i) := by
  have hallow : ∀ ace∈list, ace.decides token mapping i →
      ace.aceType=accessAllowedAceType := by
    intro ace hace hdec
    refine (htypes ace hace).resolve_right fun htype => ?_
    have happ : ace.applies token := (Bool.and_eq_true_iff.mp hdec).1
    have hno := any_eq_false.mp hdeny ace hace
    exact hno (by simp [denies,happ,htype])
  constructor
  · rintro ⟨ace,hfind,htype⟩
    refine any_eq_true.mpr ⟨ace,mem_of_find?_eq_some hfind,?_⟩
    simp [allows,find?_some hfind,htype]
  · intro hany
    obtain ⟨ace,hace,hallows⟩ := any_eq_true.mp hany
    have hdec : ace.decides token mapping i := (Bool.and_eq_true_iff.mp hallows).1
    obtain ⟨first,hfind⟩ := Option.isSome_iff_exists.mp
      (find?_isSome.mpr ⟨ace,hace,hdec⟩)
    exact ⟨first,hfind,hallow first (mem_of_find?_eq_some hfind) (find?_some hfind)⟩

end Loop

/-- What `SeAccessCheck` is asked by a user, with no access granted before. -/
structure AccessRequest where
  sd : SecurityDescriptor
  dacl : Mem
  context : SubjectContext
  mapping : GenericMapping
  desired : AccessMask

namespace AccessRequest
variable (r : AccessRequest)

def token : Token := r.context.token

def reply : AccessReply := seAccessCheck (some r.sd) r.context r.desired 0 r.mapping .userMode

def owned : AccessMask := ownerRights r.token r.sd r.desired

/-- The rights that are left for the list, before and after the mapping. -/
def rest : AccessMask := r.desired &&& ~~~r.owned

def left : AccessMask := rtlMapGenericMask r.mapping r.rest

/-- The descriptor has a list of ACEs that allow and deny, the token has none of the privileges and
may be used, and `MAXIMUM_ALLOWED` is not asked for. -/
structure Plain : Prop where
  present : r.sd.daclPresent=true
  dacl : r.sd.dacl=some r.dacl
  types : ∀ ace∈aces r.dacl, ace.aceType=accessAllowedAceType ∨ ace.aceType=accessDeniedAceType
  privileges : ∀ privilege∈r.token.privileges,
    privilege.1≠seSecurityPrivilege ∧ privilege.1≠seTakeOwnershipPrivilege
  impersonation : r.context.clientToken.isSome → securityImpersonation≤r.context.impersonationLevel
  maximum : rtlMapGenericMask r.mapping r.desired &&& maximumAllowed=0

/-- The list allows every right but those of the owner. -/
def Law : Prop := ∀ i, (rtlMapGenericMask r.mapping r.desired).getLsbD i → r.owned.getLsbD i=false →
  AllowedFirst r.token r.mapping (aces r.dacl) i

/-- The answer is that of the law, and all rights are granted with it. -/
def Lawful : Prop := (r.reply.result ↔ r.Law) ∧ (r.reply.result → ∃ granted,
  r.reply.grantedAccess=some granted ∧
    ∀ i, (rtlMapGenericMask r.mapping r.desired).getLsbD i → granted.getLsbD i)

/-- The request is refused whatever the ACEs allow. -/
def Refused : Prop := r.left &&& accessSystemSecurity≠0 ∨ r.sd.revision≠1 ∨ aceCount r.dacl=0 ∨
  (aces r.dacl).any (denies r.token)

variable {r}

theorem sepPrivilegeCheck_eq_false {token : Token} {luid : Nat}
    (h : ∀ privilege∈token.privileges, privilege.1≠luid) :
    sepPrivilegeCheck token luid .userMode=false := by
  have hfind : (token.privileges.find? fun privilege => privilege.1=luid)=none := by
    simpa using h
  simp [sepPrivilegeCheck,hfind]

theorem owned_generic (r : AccessRequest) : r.owned &&& genericRights=0 := by
  have hrights : (writeDac ||| readControl) &&& genericRights=0 := by decide
  rw [owned,ownerRights]
  split
  · split
    · exact hrights
    · rw [BitVec.and_assoc]
      exact BitVec.and_zero
  · exact BitVec.zero_and

theorem Plain.desired_maximum (h : r.Plain) : r.desired &&& maximumAllowed=0 := by
  have hgeneric : (r.desired &&& maximumAllowed) &&& genericRights=0 := by
    rw [BitVec.and_assoc]
    exact BitVec.and_zero
  have hmax := h.maximum
  rw [← and_not_or_and r.desired,rtlMapGenericMask_or _ hgeneric,BitVec.and_comm,
    BitVec.and_or_distrib_left] at hmax
  have hzero := (BitVec.or_eq_zero_iff.mp hmax).2
  rwa [BitVec.and_comm,BitVec.and_assoc] at hzero

theorem Plain.owned_eq (h : r.Plain) :
    r.owned=0 ∨ r.owned=r.desired &&& (writeDac ||| readControl) := by
  rw [owned,ownerRights]
  split
  · rw [if_neg (fun hm => hm h.desired_maximum)]
    exact .inr rfl
  · exact .inl rfl

/-- The mapped rights are those left for the list and those of the owner. -/
theorem Plain.mapped_eq (h : r.Plain) :
    rtlMapGenericMask r.mapping r.desired=r.left ||| r.owned := by
  have hsplit : r.desired=r.rest ||| r.owned := by
    obtain ho | ho := h.owned_eq
    · rw [rest,ho,and_not_zero]
      exact or_zero.symm
    · have hself : r.desired &&& r.owned=r.owned := by
        rw [ho,← BitVec.and_assoc,BitVec.and_self]
      have hor := and_not_or_and r.desired r.owned
      rw [hself] at hor
      exact hor.symm
  rw [left,← rtlMapGenericMask_or _ r.owned_generic,← hsplit]

theorem Plain.reply_eq (h : r.Plain) : r.reply =
    if r.rest=0 then ⟨true,some r.owned,.success⟩
    else sepAccessCheck r.sd r.context r.rest r.owned r.mapping .userMode := by
  have himp : ¬(r.context.clientToken.isSome ∧
      r.context.impersonationLevel<securityImpersonation) := by
    rintro ⟨hsome,hlt⟩
    exact absurd (h.impersonation hsome) (by omega)
  have hrest : (if r.owned≠0 then r.desired &&& ~~~(writeDac ||| readControl) else r.desired) =
      r.rest := by
    obtain ho | ho := h.owned_eq
    · rw [if_neg (by simp [ho]),rest,ho,and_not_zero]
    · rw [rest]
      by_cases h0 : r.owned=0
      · rw [if_neg (by simp [h0]),h0,and_not_zero]
      · rw [if_pos h0,ho,and_not_and]
  have howned : ownerRights r.context.token r.sd r.desired=r.owned := rfl
  rw [reply,seAccessCheck,if_neg (by decide)]
  simp only [himp,if_false,howned]
  rw [hrest,show (0 : AccessMask) ||| r.owned=r.owned from zero_or]

/-- The check of the list, when there is a right left for it. -/
theorem Plain.sepAccessCheck_eq (h : r.Plain) (hrest : r.rest≠0) :
    (r.Refused ∧ (sepAccessCheck r.sd r.context r.rest r.owned r.mapping .userMode).result=false) ∨
      ¬r.Refused ∧ ∃ c, sepAccessCheck r.sd r.context r.rest r.owned r.mapping .userMode =
        ⟨true,some (c &&& r.left),.success⟩ ∧
        ∀ i, c.getLsbD i=(r.owned.getLsbD i ||
          (aces r.dacl).any (allows r.token r.mapping i)) := by
  have hsecurity : sepPrivilegeCheck r.token seSecurityPrivilege .userMode=false :=
    sepPrivilegeCheck_eq_false fun privilege hp => (h.privileges privilege hp).1
  have hownership : sepPrivilegeCheck r.token seTakeOwnershipPrivilege .userMode=false :=
    sepPrivilegeCheck_eq_false fun privilege hp => (h.privileges privilege hp).2
  have hprevious : (if r.owned≠0 then rtlMapGenericMask r.mapping r.owned
    else r.owned)=r.owned := by
    rw [rtlMapGenericMask_self _ r.owned_generic,ite_self]
  have hmaximum : r.left &&& maximumAllowed=0 := by
    have hmax := h.maximum
    rw [h.mapped_eq,BitVec.and_comm,BitVec.and_or_distrib_left] at hmax
    rw [BitVec.and_comm]
    exact (BitVec.or_eq_zero_iff.mp hmax).1
  have hdescriptor : checkDescriptor r.token r.mapping r.sd r.left r.left r.owned .userMode =
      if r.sd.revision≠1 then ⟨false,none,.unknownRevision⟩
      else checkDacl r.token r.mapping r.left r.left r.owned r.owned r.dacl := by
    rw [checkDescriptor,h.present,h.dacl]
    simp [checkOwnership,hownership]
  have hcheck : sepAccessCheck r.sd r.context r.rest r.owned r.mapping .userMode =
      if r.left &&& accessSystemSecurity≠0 then ⟨false,none,.privilegeNotHeld⟩
      else if r.sd.revision≠1 then ⟨false,none,.unknownRevision⟩
      else checkDacl r.token r.mapping r.left r.left r.owned r.owned r.dacl := by
    rw [sepAccessCheck,if_neg hrest]
    simp only [hprevious]
    change (if r.left &&& accessSystemSecurity≠0 then
      if sepPrivilegeCheck r.token seSecurityPrivilege .userMode then _ else _ else
        checkDescriptor r.token r.mapping r.sd r.left r.left r.owned .userMode)=_
    rw [hsecurity,hdescriptor]
    simp
  rw [hcheck]
  by_cases hsec : r.left &&& accessSystemSecurity≠0
  · rw [if_pos hsec]
    exact .inl ⟨.inl hsec,rfl⟩
  rw [if_neg hsec]
  by_cases hrev : r.sd.revision≠1
  · rw [if_pos hrev]
    exact .inl ⟨.inr (.inl hrev),rfl⟩
  rw [if_neg hrev,checkDacl]
  by_cases hempty : aceCount r.dacl=0
  · rw [if_pos hempty,if_neg]
    · exact .inl ⟨.inr (.inr (.inl hempty)),rfl⟩
    · rintro ⟨hleft,-⟩
      rw [hleft] at hmaximum
      exact absurd hmaximum (by decide)
  rw [if_neg hempty,if_neg (fun hm => hm hmaximum)]
  obtain ⟨hdeny,hloop⟩ | ⟨hdeny,c,hloop,hbits⟩ :=
    grantLoop_spec r.token r.mapping (aces r.dacl) r.owned
  · rw [hloop]
    exact .inl ⟨.inr (.inr (.inr hdeny)),rfl⟩
  · rw [hloop]
    simp only [ite_self]
    refine .inr ⟨?_,c,rfl,hbits⟩
    rintro (h1 | h1 | h1 | h1)
    · exact hsec h1
    · exact hrev h1
    · exact hempty h1
    · rw [hdeny] at h1
      exact Bool.noConfusion h1

theorem Plain.law_iff (h : r.Plain) : r.Law ↔ ∀ i, r.left.getLsbD i → r.owned.getLsbD i=false →
    AllowedFirst r.token r.mapping (aces r.dacl) i := by
  rw [Law,h.mapped_eq]
  constructor
  · intro hlaw i hi ho
    exact hlaw i (by simp [hi]) ho
  · intro hlaw i hi ho
    refine hlaw i ?_ ho
    simpa [ho] using hi

/-- `SeAccessCheck` goes by the list exactly if it leaves no right to the list, or it refuses the
request and the list does not allow it, or the list allows every right that is left and the rights
of the owner are among these. -/
theorem lawful_iff (h : r.Plain) : r.Lawful ↔ r.rest=0 ∨ (r.Refused ∧ ¬r.Law) ∨
    (¬r.Refused ∧ (∀ i, r.left.getLsbD i → r.owned.getLsbD i=false →
        (aces r.dacl).any (allows r.token r.mapping i)) ∧
      ∀ i, r.owned.getLsbD i → r.left.getLsbD i) := by
  rw [Lawful,h.mapped_eq,h.reply_eq]
  by_cases hrest : r.rest=0
  · have hleft : r.left=0 := by
      rw [left,hrest]
      exact rtlMapGenericMask_self _ zero_and
    rw [h.law_iff,hleft]
    simp [hrest]
  rw [if_neg hrest]
  obtain ⟨hrefused,hresult⟩ | ⟨hrefused,c,hreply,hbits⟩ := h.sepAccessCheck_eq hrest
  · simp only [hresult,hrefused,hrest,false_or,true_and,not_true,false_and,or_false,
      Bool.false_eq_true,false_iff,false_implies,and_true]
  · have hdeny : (aces r.dacl).any (denies r.token)=false := by
      by_contra hd
      exact hrefused (.inr (.inr (.inr (by simpa using hd))))
    have hlaw : r.Law ↔ ∀ i, r.left.getLsbD i → r.owned.getLsbD i=false →
        (aces r.dacl).any (allows r.token r.mapping i) := by
      rw [h.law_iff]
      refine forall_congr' fun i => ?_
      rw [allowedFirst_iff hdeny h.types]
    rw [hreply]
    simp only [hrest,hrefused,false_or,false_and,not_false_eq_true,true_and,true_iff,forall_const,
      Option.some.injEq,exists_eq_left',hlaw]
    refine and_congr_right fun hallowed => ?_
    constructor
    · intro hgranted i hi
      have hg := hgranted i (by simp [hi])
      simp only [getLsbD_and,Bool.and_eq_true] at hg
      exact hg.2
    · intro howned i hi
      have hleft : r.left.getLsbD i := by
        simp only [getLsbD_or,Bool.or_eq_true] at hi
        exact hi.elim id (howned i)
      rw [getLsbD_and,hbits,hleft]
      by_cases ho : r.owned.getLsbD i
      · simp [ho]
      · simp [hallowed i hleft (by simpa using ho)]

def userSid : Sid := [1,1,0,0,0,0,0,1,0,0,0,0]

/-- A list of ACEs of some types for the right 0 of one user. -/
def readDacl (types : List (BitVec 8)) : Mem := fun o =>
  ([2,0,BitVec.ofNat 8 (8+20*types.length),0,BitVec.ofNat 8 types.length,0,0,0]++
    types.flatMap fun type => [type,0,20,0,1,0,0,0]++userSid).getD o 0

def readRequest (types : List (BitVec 8)) (desired : AccessMask) : AccessRequest where
  sd := ⟨1,none,true,some (readDacl types)⟩
  dacl := readDacl types
  context := ⟨none,0,⟨[(userSid, 0)],[]⟩⟩
  mapping := ⟨0,0,0,0⟩
  desired := desired

theorem readRequest_plain {types : List (BitVec 8)} {desired : AccessMask}
    (htypes : (aces (readDacl types)).all fun ace =>
      ace.aceType=accessAllowedAceType || ace.aceType=accessDeniedAceType)
    (h : rtlMapGenericMask ⟨0,0,0,0⟩ desired &&& maximumAllowed=0) :
    (readRequest types desired).Plain where
  present := rfl
  dacl := rfl
  types ace hace := by simpa using all_eq_true.mp htypes ace hace
  privileges := by simp [readRequest,token,SubjectContext.token]
  impersonation := by simp [readRequest]
  maximum := h

/-- The only right that is asked for is right 0. -/
theorem eq_zero_of_readRequest {types : List (BitVec 8)} {i : Nat}
    (hi : (rtlMapGenericMask (readRequest types 1).mapping 1).getLsbD i) : i=0 := by
  have hone : rtlMapGenericMask (readRequest types 1).mapping 1=1 := by
    change rtlMapGenericMask ⟨0,0,0,0⟩ 1=1
    decide
  rw [hone] at hi
  simpa [getLsbD_one] using hi

/-- One ACE that allows; one that denies in front of it; and one that denies behind it. -/
theorem lawful_iff_read : (readRequest [0] 1).Lawful ∧ (readRequest [1,0] 1).Lawful ∧
    ¬(readRequest [0,1] 1).Lawful := by
  refine ⟨?_,?_,?_⟩
  · refine (lawful_iff (readRequest_plain (by decide) (by decide))).mpr
      (.inr (.inr ⟨?_,fun i hi _ => ?_,
      fun i hi => ?_⟩))
    · rintro (h | h | h | h)
      · exact absurd h (by decide)
      · exact absurd h (by decide)
      · exact absurd h (by decide)
      · exact absurd h (by decide)
    · have hleft : (readRequest [0] 1).left=rtlMapGenericMask (readRequest [0] 1).mapping 1 := by
        decide
      rw [hleft] at hi
      obtain rfl := eq_zero_of_readRequest hi
      decide
    · have howned : (readRequest [0] 1).owned=0 := by decide
      rw [howned] at hi
      simp at hi
  · refine (lawful_iff (readRequest_plain (by decide) (by decide))).mpr
      (.inr (.inl ⟨.inr (.inr (.inr (by decide))),fun hlaw => ?_⟩))
    obtain ⟨ace,hfind,htype⟩ := hlaw 0 (by decide) (by decide)
    have hfirst : ((aces (readDacl [1,0])).find? (decides (readRequest [1,0] 1).token
        (readRequest [1,0] 1).mapping 0)).map Ace.aceType=some accessDeniedAceType := by decide
    rw [show aces (readDacl [1,0])=aces (readRequest [1,0] 1).dacl from rfl,hfind,Option.map_some,
      htype] at hfirst
    exact absurd hfirst (by decide)
  · rw [lawful_iff (readRequest_plain (by decide) (by decide))]
    rintro (h | ⟨-,h⟩ | ⟨h,-⟩)
    · exact absurd h (by decide)
    · refine h fun i hi _ => ?_
      obtain rfl := eq_zero_of_readRequest hi
      have hfirst : ((aces (readDacl [0,1])).find? (decides (readRequest [0,1] 1).token
          (readRequest [0,1] 1).mapping 0)).map Ace.aceType=some accessAllowedAceType := by decide
      exact Option.map_eq_some_iff.mp hfirst
    · exact h (.inr (.inr (.inr (by decide))))

/-- The right 1 is granted although no ACE allows it. -/
theorem readRequest_not_lawful : (readRequest [0] 2).Plain ∧ ¬(readRequest [0] 2).Lawful := by
  refine ⟨readRequest_plain (by decide) (by decide),fun h => ?_⟩
  have hresult : (readRequest [0] 2).reply.result=true := by decide
  obtain ⟨ace,hfind,-⟩ := h.1.mp hresult 1 (by decide) (by decide)
  have hnone : (aces (readDacl [0])).all fun ace =>
      !ace.decides (readRequest [0] 2).token ⟨0,0,0,0⟩ 1 := by decide
  have hace := all_eq_true.mp hnone ace (mem_of_find?_eq_some hfind)
  have hdec : ace.decides (readRequest [0] 2).token ⟨0,0,0,0⟩ 1 := find?_some hfind
  rw [hdec] at hace
  exact Bool.noConfusion hace

end AccessRequest

end Odyssey.Se
