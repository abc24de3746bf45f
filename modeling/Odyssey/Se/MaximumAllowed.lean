import Odyssey.Se.DaclLaw

/-! A request for `MAXIMUM_ALLOWED`: the loop over the list collects the rights that the first ACE
which decides about them allows. -/
namespace Odyssey.Se
open ByteMem Odyssey.Rtl AccessRequest

section Loop
variable {token : Token} {mapping : GenericMapping} {list : List Ace} {ace : Ace} {i : Nat}

theorem not_allowedFirst_nil : ¬AllowedFirst token mapping [] i := by
  intro h
  obtain ⟨ace,hfind,-⟩ := h
  exact absurd hfind (by simp)

theorem allowedFirst_cons_of_decides (h : ace.decides token mapping i=true) :
    AllowedFirst token mapping (ace::list) i ↔ ace.aceType=accessAllowedAceType := by
  simp [AllowedFirst,h]

theorem allowedFirst_cons_of_not_decides (h : ace.decides token mapping i=false) :
    AllowedFirst token mapping (ace::list) i ↔ AllowedFirst token mapping list i := by
  simp [AllowedFirst,h]

/-- A right is granted in the end if it is already, or if it is not denied and allowed first. -/
theorem maximumLoop_getLsbD (hlist : ∀ ace∈list, ace.aceType=accessAllowedAceType ∨
      ace.aceType=accessDeniedAceType) (granted denied : AccessMask) :
    (maximumLoop token mapping list granted denied).getLsbD i=true ↔
      granted.getLsbD i=true ∨ denied.getLsbD i=false ∧ AllowedFirst token mapping list i := by
  induction list generalizing granted denied with
  | nil => simp [maximumLoop,not_allowedFirst_nil]
  | cons ace list ih =>
    have ih := ih fun a ha => hlist a (by simp [ha])
    have htype := hlist ace (by simp)
    rw [maximumLoop]
    by_cases happ : ace.applies token
    · obtain ⟨hinherit,hsid⟩ : ace.inheritOnly=false ∧ sepSidInToken token ace.sid=true := by
        simpa [Ace.applies] using happ
      have hdecides : ace.decides token mapping i =
          (rtlMapGenericMask mapping ace.accessMask).getLsbD i := by
        simp [Ace.decides,happ]
      have hinherit' : ¬ace.inheritOnly=true := by simp [hinherit]
      obtain hallow | hdeny := htype
      · have hne : ace.aceType≠accessDeniedAceType := by
          rw [hallow]
          decide
        rw [if_neg hinherit',if_neg hne,if_pos hallow,if_pos hsid,ih]
        by_cases hbit : (rtlMapGenericMask mapping ace.accessMask).getLsbD i
        · rw [allowedFirst_cons_of_decides (hdecides.trans hbit),BitVec.getLsbD_or,
            BitVec.getLsbD_and,BitVec.getLsbD_not,hbit]
          have hlt : i<32 := BitVec.lt_of_getLsbD hbit
          cases hden : denied.getLsbD i with
          | true => simp
          | false => simp [hlt,hallow]
        · rw [allowedFirst_cons_of_not_decides (by simpa [hdecides] using hbit)]
          simp [hbit]
      · rw [if_neg hinherit',if_pos hdeny,if_pos hsid,ih]
        by_cases hbit : (rtlMapGenericMask mapping ace.accessMask).getLsbD i
        · have hne : ace.aceType≠accessAllowedAceType := by
            rw [hdeny]
            decide
          rw [allowedFirst_cons_of_decides (hdecides.trans hbit),BitVec.getLsbD_or,
            BitVec.getLsbD_and,BitVec.getLsbD_not,hbit]
          have hlt : i<32 := BitVec.lt_of_getLsbD hbit
          cases hgr : granted.getLsbD i with
          | true => simp
          | false => simp [hlt,hne]
        · rw [allowedFirst_cons_of_not_decides (by simpa [hdecides] using hbit)]
          simp [hbit]
    · have hskip : ace.decides token mapping i=false := by
        simp [Ace.decides,happ]
      rw [allowedFirst_cons_of_not_decides hskip]
      by_cases hinherit : ace.inheritOnly
      · simp [hinherit,ih]
      · have hsid : sepSidInToken token ace.sid=false := by
          simpa [Ace.applies,hinherit] using happ
        simp [hinherit,hsid,ih]

end Loop

/-- The rights of a request for `MAXIMUM_ALLOWED`: those that the list allows first, and the two
rights of the owner. -/
def MaximumRight (sd : SecurityDescriptor) (dacl : Mem) (context : SubjectContext)
    (mapping : GenericMapping) (i : Nat) : Prop :=
  AllowedFirst context.token mapping (aces dacl) i ∨
    sepTokenIsOwner context.token sd=true ∧ (writeDac ||| readControl).getLsbD i=true

/-- The request comes to the loop, with the rights of the owner. -/
theorem seAccessCheck_maximumAllowed {sd : SecurityDescriptor} {dacl : Mem}
    {context : SubjectContext}
    {mapping : GenericMapping} (hrevision : sd.revision=1) (hpresent : sd.daclPresent=true)
    (hdacl : sd.dacl=some dacl) (hcount : aceCount dacl≠0)
    (himp : context.clientToken.isSome → securityImpersonation≤context.impersonationLevel) :
    seAccessCheck (some sd) context maximumAllowed 0 mapping .userMode =
      let granted := maximumLoop context.token mapping (aces dacl) 0 0 |||
        ownerRights context.token sd maximumAllowed
      if granted≠0 then ⟨true,some granted,.success⟩ else ⟨false,some granted,.accessDenied⟩ := by
  have himp' : ¬(context.clientToken.isSome ∧ context.impersonationLevel<securityImpersonation) :=
    fun h => absurd (himp h.1) (Nat.not_le_of_gt h.2)
  have hdesired : ∀ c : Prop, [Decidable c] → (if c then
      maximumAllowed &&& ~~~(writeDac ||| readControl) else maximumAllowed)=maximumAllowed := by
    intro c _
    have hkeep : maximumAllowed &&& ~~~(writeDac ||| readControl)=maximumAllowed := by decide
    rw [hkeep,ite_self]
  have hne : maximumAllowed≠0 := by decide
  have hmapped : rtlMapGenericMask mapping maximumAllowed=maximumAllowed :=
    rtlMapGenericMask_self mapping (by decide)
  have hzero : ∀ m : AccessMask, 0 ||| m=m := fun _ => BitVec.zero_or
  generalize howned : ownerRights context.token sd maximumAllowed=owned
  have hgeneric : owned &&& genericRights=0 :=
    howned ▸ owned_generic ⟨sd,dacl,context,mapping,maximumAllowed⟩
  have hprevious : (if owned≠0 then rtlMapGenericMask mapping owned else owned)=owned := by
    rw [rtlMapGenericMask_self _ hgeneric,ite_self]
  have hsecurity : ¬maximumAllowed &&& accessSystemSecurity≠0 := by decide
  have hownership : ¬(maximumAllowed &&& writeOwner≠0 ∧
      sepPrivilegeCheck context.token seTakeOwnershipPrivilege .userMode) := by
    intro h
    exact absurd h.1 (by decide)
  have hself : maximumAllowed &&& maximumAllowed≠0 := by decide
  have hremaining : ∀ m : AccessMask, ¬maximumAllowed &&& ~~~(maximumAllowed ||| m)≠0 := by
    intro m
    rw [not_not]
    ext k hk
    cases hbit : maximumAllowed[k] <;> simp [hbit]
  rw [seAccessCheck,if_neg (by decide)]
  simp only [himp',if_false,howned,hzero,hdesired,hne,sepAccessCheck,hmapped,hprevious,
    hsecurity,checkDescriptor,hrevision,ne_eq,not_true,hpresent,hdacl,checkOwnership,
    hownership,checkDacl,hcount]
  rw [if_pos hself,if_neg (hremaining _)]

/-- `SeAccessCheck` grants a user who asks for `MAXIMUM_ALLOWED` exactly the rights that the list
allows first and the rights of the owner, and fails exactly if there are none. It refuses a
descriptor of another revision and a client token below impersonation before it comes to the
list. -/
theorem maximumAllowed_exact (sd : SecurityDescriptor) (dacl : Mem) (context : SubjectContext)
    (mapping : GenericMapping) (hrevision : sd.revision=1) (hpresent : sd.daclPresent=true)
    (hdacl : sd.dacl=some dacl) (hcount : aceCount dacl≠0)
    (htypes : ∀ ace∈aces dacl, ace.aceType=accessAllowedAceType ∨
      ace.aceType=accessDeniedAceType)
    (himp : context.clientToken.isSome → securityImpersonation≤context.impersonationLevel) :
    (∃ granted, (seAccessCheck (some sd) context maximumAllowed 0 mapping .userMode).grantedAccess =
        some granted ∧
      ∀ i, granted.getLsbD i=true ↔ MaximumRight sd dacl context mapping i) ∧
    ((seAccessCheck (some sd) context maximumAllowed 0 mapping .userMode).result=false ↔
      ∀ i, ¬MaximumRight sd dacl context mapping i) := by
  have howner : ∀ i, (ownerRights context.token sd maximumAllowed).getLsbD i=true ↔
      sepTokenIsOwner context.token sd=true ∧ (writeDac ||| readControl).getLsbD i=true := by
    have hmax : maximumAllowed &&& (writeDac ||| readControl ||| maximumAllowed)≠0 := by decide
    have hself : maximumAllowed &&& maximumAllowed≠0 := by decide
    rw [ownerRights]
    by_cases hown : sepTokenIsOwner context.token sd
    · rw [if_pos ⟨hmax,hown⟩,if_pos hself]
      simp [hown]
    · rw [if_neg fun h => hown h.2]
      simp [hown]
  have hbits : ∀ i, (maximumLoop context.token mapping (aces dacl) 0 0 |||
      ownerRights context.token sd maximumAllowed).getLsbD i=true ↔
      MaximumRight sd dacl context mapping i := by
    intro i
    rw [BitVec.getLsbD_or,Bool.or_eq_true,maximumLoop_getLsbD htypes,howner,MaximumRight]
    simp
  rw [seAccessCheck_maximumAllowed hrevision hpresent hdacl hcount himp]
  generalize maximumLoop context.token mapping (aces dacl) 0 0 |||
    ownerRights context.token sd maximumAllowed=granted at hbits ⊢
  by_cases hzero : granted=0
  · rw [if_neg fun h => h hzero]
    refine ⟨⟨granted,rfl,hbits⟩,⟨fun _ i => ?_,fun _ => rfl⟩⟩
    rw [← hbits,hzero]
    simp
  · rw [if_pos hzero]
    refine ⟨⟨granted,rfl,hbits⟩,⟨fun h => absurd h (by simp),fun hnone => ?_⟩⟩
    refine absurd (BitVec.eq_of_getLsbD_eq fun i _ => ?_) hzero
    have hi := (not_congr (hbits i)).mpr (hnone i)
    simpa using hi

/-- Of two ACEs about the same right the first one counts. -/
theorem maximumAllowed_exact_read :
    (∃ granted, (seAccessCheck (some (readRequest [0,1] 1).sd)
      (readRequest [0,1] 1).context maximumAllowed 0 ⟨0,0,0,0⟩ .userMode).grantedAccess =
        some granted ∧
      ∀ i, granted.getLsbD i=true ↔ MaximumRight (readRequest [0,1] 1).sd
        (readDacl [0,1]) (readRequest [0,1] 1).context ⟨0,0,0,0⟩ i) ∧
    ∀ i, ¬MaximumRight (readRequest [1,0] 1).sd (readDacl [1,0]) (readRequest [1,0] 1).context
      ⟨0,0,0,0⟩ i := by
  have hallow : (readRequest [0,1] 1).Plain := readRequest_plain (by decide) (by decide)
  have hdeny : (readRequest [1,0] 1).Plain := readRequest_plain (by decide) (by decide)
  refine ⟨?_,?_⟩
  · exact (maximumAllowed_exact _ (readDacl [0,1]) _ _ rfl rfl rfl (by decide) hallow.types
      hallow.impersonation).1
  · exact (maximumAllowed_exact _ (readDacl [1,0]) _ _ rfl rfl rfl (by decide) hdeny.types
      hdeny.impersonation).2.mp (by decide)

end Odyssey.Se
