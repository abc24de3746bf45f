import Odyssey.Rtl.Acl

/-! Access checks (`ntoskrnl/se/semgr.c`, with `OLD_ACCESS_CHECK` defined). -/
namespace Odyssey.Se
open ByteMem Odyssey.Rtl

abbrev AccessMask := BitVec 32

def readControl : AccessMask := 0x00020000

def writeDac : AccessMask := 0x00040000

def writeOwner : AccessMask := 0x00080000

def accessSystemSecurity : AccessMask := 0x01000000

def maximumAllowed : AccessMask := 0x02000000

def genericRead : AccessMask := 0x80000000

def genericWrite : AccessMask := 0x40000000

def genericExecute : AccessMask := 0x20000000

def genericAll : AccessMask := 0x10000000

def accessAllowedAceType : Nat := 0

def accessDeniedAceType : Nat := 1

def inheritOnlyAce : Nat := 0x8

def validInheritFlags : AccessMask := 0x1F

def seGroupEnabled : Nat := 0x4

def sePrivilegeEnabled : Nat := 0x2

def seSecurityPrivilege : Nat := 8

def seTakeOwnershipPrivilege : Nat := 9

def securityImpersonation : Nat := 2

structure GenericMapping where
  read : AccessMask
  write : AccessMask
  execute : AccessMask
  all : AccessMask

abbrev Sid := List (BitVec 8)

def sidAt (m : Mem) (o : Nat) : Sid := (List.range (8+4*(m (o+1)).toNat)).map fun i => m (o+i)

structure Ace where
  aceType : Nat
  aceFlags : Nat
  accessMask : AccessMask
  sid : Sid

def aceAt (m : Mem) (o : Nat) : Ace :=
  ⟨aceType m o,aceFlags m o,read32 m (o+4),sidAt m (o+8)⟩

def acesFrom (m : Mem) : Nat → Nat → List Ace
  | 0, _ => []
  | n+1, o => aceAt m o::acesFrom m n (o+aceSize m o)

def aces (dacl : Mem) : List Ace := acesFrom dacl (aceCount dacl) aclHeaderSize

/-- The user and the groups with their attributes, and the privileges with theirs. -/
structure Token where
  userAndGroups : List (Sid × Nat)
  privileges : List (Nat × Nat)

/-- `dacl` is the image of the list, `none` for a null pointer. -/
structure SecurityDescriptor where
  revision : Nat
  owner : Option Sid
  daclPresent : Bool
  dacl : Option Mem

structure SubjectContext where
  clientToken : Option Token
  impersonationLevel : Nat
  primaryToken : Token

inductive ProcessorMode where
  | kernelMode | userMode
deriving DecidableEq

inductive AccessStatus where
  | success | accessDenied | privilegeNotHeld | unknownRevision | badImpersonationLevel
deriving DecidableEq

structure AccessReply where
  result : Bool
  grantedAccess : Option AccessMask
  accessStatus : AccessStatus
deriving DecidableEq

def mapGeneric (generic mapped mask : AccessMask) : AccessMask :=
  if mask &&& generic≠0 then mask ||| mapped else mask

def genericRights : AccessMask := genericRead ||| genericWrite ||| genericExecute ||| genericAll

def rtlMapGenericMask (mapping : GenericMapping) (mask : AccessMask) : AccessMask :=
  mapGeneric genericAll mapping.all (mapGeneric genericExecute mapping.execute
    (mapGeneric genericWrite mapping.write (mapGeneric genericRead mapping.read mask))) &&&
    ~~~genericRights

def sepSidInToken (token : Token) (sid : Sid) : Bool :=
  match token.userAndGroups with
  | [] => false
  | user::groups =>
    if sid=user.1 then true
    else
      match groups.find? fun group => sid=group.1 with
      | some group => group.2 &&& seGroupEnabled≠0
      | none => false

/-- The first entry with the SID is the user or a group that is enabled. -/
def Token.Enables (token : Token) (sid : Sid) : Prop :=
  ∃ before group after, token.userAndGroups=before++group::after ∧ group.1=sid ∧
    (∀ g∈before, g.1≠sid) ∧ (before=[] ∨ group.2 &&& seGroupEnabled≠0)

theorem sepSidInToken_iff (token : Token) (sid : Sid) :
    sepSidInToken token sid ↔ token.Enables sid := by
  rw [sepSidInToken,Token.Enables]
  cases token.userAndGroups with
  | nil => simp
  | cons user groups =>
    by_cases huser : sid=user.1
    · simp only [huser,if_true,true_iff]
      exact ⟨[],user,groups,rfl,rfl,nofun,.inl rfl⟩
    simp only [if_neg huser]
    -- behind the user, a group counts only if no group before it has the SID
    constructor
    · intro h
      cases hfind : groups.find? fun group => sid=group.1 with
      | none => simp [hfind] at h
      | some group =>
        obtain ⟨hsid,before,after,rfl,hbefore⟩ := List.find?_eq_some_iff_append.mp hfind
        refine ⟨user::before,group,after,rfl,(of_decide_eq_true hsid).symm,?_,?_⟩
        · intro g hg
          obtain rfl | hg := List.mem_cons.mp hg
          · exact Ne.symm huser
          · exact fun heq => absurd (hbefore g hg) (by simp [heq])
        · rw [hfind] at h
          exact .inr (of_decide_eq_true h)
    · rintro ⟨before,group,after,hgroups,hsid,hbefore,henabled⟩
      cases before with
      | nil =>
        obtain ⟨rfl,-⟩ := List.cons.inj hgroups
        exact absurd hsid.symm huser
      | cons g before =>
        have htail : groups=before++group::after := (List.cons.inj hgroups).2
        have hfind : (before++group::after).find? (fun group => sid=group.1)=some group := by
          refine List.find?_eq_some_iff_append.mpr
            ⟨by simp [hsid],before,after,rfl,fun g' hg' => ?_⟩
          simpa using Ne.symm (hbefore g' (List.mem_cons_of_mem g hg'))
        rw [htail,hfind]
        exact decide_eq_true (henabled.resolve_left (by simp))

def sepTokenIsOwner (token : Token) (sd : SecurityDescriptor) : Bool :=
  if sd.revision≠1 then false
  else
    match sd.owner with
    | none => false
    | some sid => sepSidInToken token sid

def sepPrivilegeCheck (token : Token) (luid : Nat) (mode : ProcessorMode) : Bool :=
  if mode = .kernelMode then true
  else
    match token.privileges.find? fun privilege => privilege.1=luid with
    | some privilege => privilege.2 &&& sePrivilegeEnabled≠0
    | none => false

def Ace.inheritOnly (ace : Ace) : Bool := ace.aceFlags &&& inheritOnlyAce≠0

section Check
variable (token : Token) (mapping : GenericMapping)

def maximumLoop : List Ace → AccessMask → AccessMask → AccessMask
  | [], granted, _ => granted
  | ace::list, granted, denied =>
    if ace.inheritOnly then maximumLoop list granted denied
    else if ace.aceType=accessDeniedAceType then
      if sepSidInToken token ace.sid then
        maximumLoop list granted (denied ||| rtlMapGenericMask mapping ace.accessMask &&&
          ~~~granted)
      else maximumLoop list granted denied
    else if ace.aceType=accessAllowedAceType then
      if sepSidInToken token ace.sid then
        maximumLoop list (granted ||| rtlMapGenericMask mapping ace.accessMask &&& ~~~denied) denied
      else maximumLoop list granted denied
    else maximumLoop list granted denied

/-- The loop of rule 4; `none` if it leaves with `FALSE`. -/
def grantLoop : List Ace → AccessMask → Option AccessMask
  | [], current => some current
  | ace::list, current =>
    if ace.inheritOnly then grantLoop list current
    else if ace.aceType=accessDeniedAceType then
      if sepSidInToken token ace.sid then none else grantLoop list current
    else if ace.aceType=accessAllowedAceType then
      if sepSidInToken token ace.sid then
        grantLoop list (current ||| rtlMapGenericMask mapping ace.accessMask)
      else grantLoop list current
    else grantLoop list current

def checkDacl (desired remaining previous current : AccessMask) (dacl : Mem) : AccessReply :=
  if aceCount dacl=0 then
    if remaining=maximumAllowed ∧ previous≠0 then ⟨true,some previous,.success⟩
    else ⟨false,some 0,.accessDenied⟩
  else if desired &&& maximumAllowed≠0 then
    let granted := maximumLoop token mapping (aces dacl) 0 0
    if remaining &&& ~~~(maximumAllowed ||| granted)≠0 then ⟨false,some 0,.accessDenied⟩
    else if granted ||| previous≠0 then ⟨true,some (granted ||| previous),.success⟩
    else ⟨false,some (granted ||| previous),.accessDenied⟩
  else
    match grantLoop token mapping (aces dacl) current with
    | none => ⟨false,some 0,.accessDenied⟩
    | some current =>
      let granted := current &&& desired
      if granted &&& ~~~validInheritFlags=desired &&& ~~~validInheritFlags then
        ⟨true,some granted,.success⟩
      -- the source prints that access should be denied here
      else ⟨true,some granted,.success⟩

def checkOwnership (desired remaining previous : AccessMask) (dacl : Mem) (mode : ProcessorMode) :
    AccessReply :=
  let current := previous
  if desired &&& writeOwner≠0 ∧ sepPrivilegeCheck token seTakeOwnershipPrivilege mode then
    let remaining := remaining &&& ~~~writeOwner
    let previous := previous ||| writeOwner
    let current := current ||| writeOwner
    if remaining=0 then ⟨true,some previous,.success⟩
    else checkDacl token mapping desired remaining previous current dacl
  else checkDacl token mapping desired remaining previous current dacl

def checkDescriptor (sd : SecurityDescriptor) (desired remaining previous : AccessMask)
    (mode : ProcessorMode) : AccessReply :=
  if sd.revision≠1 then ⟨false,none,.unknownRevision⟩
  else
    match sd.daclPresent, sd.dacl with
    | true, some dacl => checkOwnership token mapping desired remaining previous dacl mode
    | _, _ =>
      if desired &&& maximumAllowed≠0 then
        ⟨true,some (mapping.all ||| desired &&& ~~~maximumAllowed),.success⟩
      else ⟨true,some (desired ||| previous),.success⟩

end Check

def SubjectContext.token (context : SubjectContext) : Token :=
  match context.clientToken with
  | some token => token
  | none => context.primaryToken

def sepAccessCheck (sd : SecurityDescriptor) (context : SubjectContext)
    (desired previous : AccessMask)
    (mapping : GenericMapping) (mode : ProcessorMode) : AccessReply :=
  if desired=0 then
    if previous=0 then ⟨false,none,.accessDenied⟩ else ⟨true,some previous,.success⟩
  else
    let desired := rtlMapGenericMask mapping desired
    let previous := if previous≠0 then rtlMapGenericMask mapping previous else previous
    let token := context.token
    if desired &&& accessSystemSecurity≠0 then
      if sepPrivilegeCheck token seSecurityPrivilege mode then
        let remaining := desired &&& ~~~accessSystemSecurity
        let previous := previous ||| accessSystemSecurity
        if remaining=0 then ⟨true,some previous,.success⟩
        else checkDescriptor token mapping sd desired remaining previous mode
      else ⟨false,none,.privilegeNotHeld⟩
    else checkDescriptor token mapping sd desired desired previous mode

def ownerRights (token : Token) (sd : SecurityDescriptor) (desired : AccessMask) : AccessMask :=
  if desired &&& (writeDac ||| readControl ||| maximumAllowed)≠0 ∧ sepTokenIsOwner token sd then
    if desired &&& maximumAllowed≠0 then writeDac ||| readControl
    else desired &&& (writeDac ||| readControl)
  else 0

/-- `SeAccessCheck`; a null security descriptor is `none`. -/
def seAccessCheck (sd : Option SecurityDescriptor) (context : SubjectContext)
    (desired previous : AccessMask) (mapping : GenericMapping) (mode : ProcessorMode) :
      AccessReply :=
  if mode = .kernelMode then
    if desired &&& maximumAllowed≠0 then
      ⟨true,some (mapping.all ||| desired &&& ~~~maximumAllowed ||| previous),.success⟩
    else ⟨true,some (desired ||| previous),.success⟩
  else
    match sd with
    | none => ⟨false,none,.accessDenied⟩
    | some sd =>
      if context.clientToken.isSome ∧ context.impersonationLevel<securityImpersonation then
        ⟨false,none,.badImpersonationLevel⟩
      else
        let owned := ownerRights context.token sd desired
        let previous := previous ||| owned
        let desired := if owned≠0 then desired &&& ~~~(writeDac ||| readControl) else desired
        if desired=0 then ⟨true,some previous,.success⟩
        else sepAccessCheck sd context desired previous mapping mode

end Odyssey.Se
