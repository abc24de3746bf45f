import Odyssey.Ex.ResourceInvariant

/-! The interleavings of the routines keep the invariant, so in every state they reach the resource
is a reader-writer lock. This needs that no thread is woken as a new owner of a resource it owns
already, which `ExAcquireSharedWaitForExclusive` does not rule out. -/
namespace Odyssey.Ex

open Tally Resource Function Thread Pc

variable {τ : Type*} [DecidableEq τ]

/-- The step cannot make a thread own the resource a second time, and no count of 30 bits overflows:
a thread that goes on in an acquiring routine holds the resource less than `2 ^ 30 - 1` times,
unless it is about to be turned away behind an exclusive waiter, and a thread that leaves its wait
as a new shared owner does not hold it. -/
def Thread.soundAt (th : Thread) (r : Resource τ) : Bool :=
  match th.pc with
  | .acquiring f _ =>
    th.held+1<ownerCountLimit ∨
      f = .exAcquireSharedWaitForExclusive ∧ r.ownedExclusive=false ∧ r.isExclusiveWaiting=true
  | .waitingShared _ => th.held=0
  | _ => true

namespace State

theorem act_threads_self (s : State τ) (t : τ) (f : Resource τ → Thread → Resource τ × Thread) :
    (s.act t f).threads t=(f s.resource (s.threads t)).2 :=
  update_self _ _ _

variable [Fintype τ] {s : State τ} {t : τ} {slot : Slot}

theorem Inv.act_congr {f g : Resource τ → Thread → Resource τ × Thread} (h : Inv (s.act t g))
    (heq : f s.resource (s.threads t)=g s.resource (s.threads t)) : Inv (s.act t f) := by
  unfold act at h ⊢
  rw [heq]
  exact h

/-- An owner acquires the resource once more. -/
theorem Inv.countUp {c : Nat} (h : s.Inv) (hpc : (s.threads t).pc.isPlain=true)
    (hat : s.resource.At slot t c) (hlt : (s.threads t).held+1<ownerCountLimit) (x : Bool) :
    Inv ⟨s.resource.countUp slot,update s.threads t ((s.threads t).granted x)⟩ := by
  have hheld : 0<(s.threads t).held := by
    by_contra hne
    exact h.no_entry hpc (by omega) slot c hat
  obtain ⟨-,-,slot',hsole,-⟩ := (h.entries t).held hheld
  obtain rfl := hsole.2 slot c hat
  have hc : c=(s.threads t).held := by
    have heq := hat.symm.trans hsole.1
    simpa using heq
  subst hc
  have hcount : s.resource.countUp slot =
      s.resource.setEntry slot ⟨.thread t,(s.threads t).held+1⟩ := by
    have hentry : s.resource.entry slot=some ⟨.thread t,(s.threads t).held⟩ := hat
    simp [Resource.countUp,hentry,Nat.mod_eq_of_lt hlt]
  have hgranted : (s.threads t).granted x =
      ⟨.running,(s.threads t).held+1,(s.threads t).exclusive⟩ := by
    simp [granted,Nat.ne_of_gt hheld]
  rw [hcount,hgranted]
  exact h.recount hpc hheld hat (by omega) hlt

theorem Inv.goto_plain {pc' : Pc} (h : s.Inv) (hpc : (s.threads t).pc.isPlain=true)
    (hpc' : pc'.isPlain=true)
    (asks : pc'.asksExclusive=true → (s.threads t).held=0 ∨ (s.threads t).exclusive=true) :
    Inv ⟨s.resource,update s.threads t ((s.threads t).goto pc')⟩ :=
  h.goto (.of_plain hpc hpc') (.refl _) asks

variable {wait : Bool}

section

variable (h : s.Inv) {f : Routine}
include h

theorem Inv.exAcquireResourceExclusiveLite
    (hpc : (s.threads t).pc = .acquiring .exAcquireResourceExclusiveLite wait)
    (hlt : (s.threads t).held+1<ownerCountLimit) :
    Inv (s.act t fun r th => Ex.exAcquireResourceExclusiveLite r t th wait) := by
  have hplain := isPlain_of_eq hpc rfl
  have hasks := (h.entries t).asks (by rw [hpc]; rfl)
  unfold act Ex.exAcquireResourceExclusiveLite
  dsimp only
  split
  · rename_i hactive
    split
    · rename_i hown
      exact h.countUp hplain (at_first hown.2) hlt true
    · rename_i hown
      split
      · exact h.goto_plain hplain rfl (by simp [asksExclusive])
      · split
        · exact h.goto_plain hplain rfl fun _ => hasks
        · -- the thread does not hold the resource: it would be the exclusive owner
          have hheld : (s.threads t).held=0 := by
            by_contra hne
            obtain ⟨-,hflag,-⟩ := (h.entries t).held (by omega)
            rw [hasks.resolve_left hne] at hflag
            exact hne (h.held_eq_zero hflag.symm fun hfirst => hown ⟨hflag.symm,hfirst⟩)
          exact h.waitExclusive hplain hheld hactive
  · rename_i hactive
    exact h.takeFirst hplain (not_not.mp hactive) true

/-- A thread becomes the first owner, shared. -/
theorem Inv.takeFirst_shared (hpc : (s.threads t).pc.isPlain=true)
    (h0 : s.resource.activeEntries=0) :
    Inv ⟨s.resource.takeFirst t,update s.threads t ((s.threads t).granted false)⟩ := by
  have hflag : s.resource.ownedExclusive=false := by
    by_contra hx
    have halone := h.counts.alone (by simpa using hx)
    omega
  have htake : s.resource.takeFirst t =
      { s.resource.takeFirst t with ownedExclusive := false } := by
    simp [Resource.takeFirst,hflag]
  rw [htake]
  exact h.takeFirst hpc h0 false

/-- The end of the shared routines. -/
theorem Inv.waitWithEntry_or
    (hpc : (s.threads t).pc = .acquiring f wait) (hheld : (s.threads t).held=0)
    (hslot : slot ≠ .first) (hfree : s.resource.FreeAt slot)
    (hbehind : s.resource.ownedExclusive=true ∨ 0<s.resource.numberOfExclusiveWaiters) :
    Inv (s.act t fun r th => Ex.waitWithEntry r t th f wait slot) := by
  have hplain := isPlain_of_eq hpc rfl
  unfold act Ex.waitWithEntry
  dsimp only
  split
  · exact h.goto_plain hplain rfl (by simp [asksExclusive])
  · split
    · exact h.goto_plain hplain rfl fun _ => .inl hheld
    · rename_i n hsome
      exact h.waitWithEntry hplain hheld hslot hfree (by simp [hsome]) hbehind

theorem Inv.acquireOwnedExclusive (hpc : (s.threads t).pc = .acquiring f wait)
    (hx : s.resource.ownedExclusive=true) (hlt : (s.threads t).held+1<ownerCountLimit) :
    Inv (s.act t fun r th => Ex.acquireOwnedExclusive r t th f wait) := by
  have hplain := isPlain_of_eq hpc rfl
  unfold act Ex.acquireOwnedExclusive
  dsimp only
  split
  · rename_i hown
    exact h.countUp hplain (at_first hown) hlt false
  · rename_i hown
    have hheld := h.held_eq_zero hx hown
    split
    · exact h.goto_plain hplain rfl fun _ => .inl hheld
    · rename_i slot hslot
      obtain ⟨hne,hfree⟩ := expFindFreeEntry_spec hslot
      exact h.waitWithEntry_or hpc hheld hne hfree (.inl hx)

theorem Inv.exAcquireResourceSharedLite
    (hpc : (s.threads t).pc = .acquiring .exAcquireResourceSharedLite wait)
    (hlt : (s.threads t).held+1<ownerCountLimit) :
    Inv (s.act t fun r th => Ex.exAcquireResourceSharedLite r t th wait) := by
  have hplain := isPlain_of_eq hpc rfl
  unfold act Ex.exAcquireResourceSharedLite
  dsimp only
  split
  · rename_i hactive
    split
    · rename_i hx
      exact h.acquireOwnedExclusive hpc hx hlt
    · rename_i hx
      split
      · exact h.goto_plain hplain rfl (by simp [asksExclusive])
      · rename_i slot hslot
        have hspec := expFindEntryForThread_spec hslot
        split
        · rename_i hown
          obtain ⟨c,hat⟩ := isOwner_iff.mp hown
          exact h.countUp hplain hat hlt false
        · rename_i hown
          obtain ⟨hfree,hnone,hne⟩ :=
            hspec.resolve_left fun hat => hown (isOwner_iff.mpr hat)
          have hheld := h.held_of_no_entry hnone
          split
          · exact h.takeShared hplain hheld hfree (by simpa using hx) hactive
          · rename_i hbusy
            have hbusy' : s.resource.isExclusiveWaiting=true := not_not.mp hbusy
            exact h.waitWithEntry_or hpc hheld (hne hbusy') hfree
              (.inr (by simpa [isExclusiveWaiting] using hbusy'))
  · rename_i hactive
    exact h.takeFirst_shared hplain (not_not.mp hactive)

/-- The part that `ExAcquireSharedStarveExclusive` and `ExAcquireSharedWaitForExclusive` share. -/
theorem Inv.joinShared (hpc : (s.threads t).pc = .acquiring f wait)
    (hf : f ≠ .exAcquireResourceExclusiveLite) (hactive : s.resource.activeEntries≠0)
    (hx : s.resource.ownedExclusive=false) (hlt : (s.threads t).held+1<ownerCountLimit) :
    Inv (s.act t fun r th =>
      match r.expFindEntryForThread t false with
      | none => (r, th.goto (.expanding f wait r.tableSize))
      | some slot =>
        if r.isOwner slot t then (r.countUp slot, th.granted false)
        else (r.takeShared t slot, th.granted false)) := by
  have hplain := isPlain_of_eq hpc rfl
  unfold act
  dsimp only
  split
  · refine h.goto_plain hplain rfl fun hasks => ?_
    cases f <;> simp [asksExclusive] at hasks hf
  · rename_i slot hslot
    split
    · rename_i hown
      obtain ⟨c,hat⟩ := isOwner_iff.mp hown
      exact h.countUp hplain hat hlt false
    · rename_i hown
      obtain ⟨hfree,hnone,-⟩ :=
        (expFindEntryForThread_spec hslot).resolve_left fun hat => hown (isOwner_iff.mpr hat)
      exact h.takeShared hplain (h.held_of_no_entry hnone) hfree hx hactive

theorem Inv.exAcquireSharedStarveExclusive
    (hpc : (s.threads t).pc = .acquiring .exAcquireSharedStarveExclusive wait)
    (hlt : (s.threads t).held+1<ownerCountLimit) :
    Inv (s.act t fun r th => Ex.exAcquireSharedStarveExclusive r t th wait) := by
  have hplain := isPlain_of_eq hpc rfl
  unfold act Ex.exAcquireSharedStarveExclusive
  dsimp only
  split
  · rename_i hactive
    exact h.takeFirst_shared hplain hactive
  · rename_i hactive
    split
    · rename_i hx
      exact h.acquireOwnedExclusive hpc hx hlt
    · rename_i hx
      exact h.joinShared hpc (by simp) hactive (by simpa using hx) hlt

theorem Inv.exAcquireSharedWaitForExclusive
    (hpc : (s.threads t).pc = .acquiring .exAcquireSharedWaitForExclusive wait)
    (hlt : (s.threads t).held+1<ownerCountLimit ∨
      s.resource.ownedExclusive=false ∧ s.resource.isExclusiveWaiting=true) :
    Inv (s.act t fun r th => Ex.exAcquireSharedWaitForExclusive r t th wait) := by
  have hplain := isPlain_of_eq hpc rfl
  unfold act Ex.exAcquireSharedWaitForExclusive
  dsimp only
  split
  · rename_i hactive
    exact h.takeFirst_shared hplain hactive
  · rename_i hactive
    split
    · rename_i hx
      exact h.acquireOwnedExclusive hpc hx (hlt.resolve_right (by simp [hx]))
    · rename_i hx
      have hx' : s.resource.ownedExclusive=false := by simpa using hx
      split
      · rename_i hwaiting
        split
        · exact h.goto_plain hplain rfl (by simp [asksExclusive])
        · split
          · exact h.goto_plain hplain rfl (by simp [asksExclusive])
          · rename_i n hsome
            exact h.waitWithoutEntry hplain (by simp [hsome]) hx'
              (by simpa [isExclusiveWaiting] using hwaiting)
      · rename_i hwaiting
        exact h.joinShared hpc (by simp) hactive hx' (hlt.resolve_right (by simp [hwaiting]))

theorem Inv.exTryToAcquireResourceExclusiveLite (hpc : (s.threads t).pc = .running)
    (hlt : (s.threads t).held+1<ownerCountLimit) :
    Inv (s.act t fun r th => Ex.exTryToAcquireResourceExclusiveLite r t th) := by
  have hplain := isPlain_of_eq hpc rfl
  unfold act Ex.exTryToAcquireResourceExclusiveLite
  dsimp only
  split
  · rename_i hcount
    have h0 : s.resource.activeEntries=0 := by
      by_contra hne
      have hone := h.counts.activeCount.2 (by omega)
      omega
    exact h.takeFirst hplain h0 true
  · split
    · rename_i hown
      exact h.countUp hplain (at_first hown.2) hlt true
    · simpa using h

theorem Inv.exConvertExclusiveToSharedLite (hpc : (s.threads t).pc = .running)
    (hheld : 0<(s.threads t).held) (hx : (s.threads t).exclusive=true) :
    Inv (s.act t Ex.exConvertExclusiveToSharedLite) := by
  unfold act Ex.exConvertExclusiveToSharedLite
  dsimp only
  split
  · exact h.convert hpc hheld hx (.releasingSemaphore _) rfl rfl
  · rename_i hwaiting
    have h0 : s.resource.numberOfSharedWaiters=0 := by
      simpa [isSharedWaiting] using hwaiting
    have hconv := h.convert hpc hheld hx .running h0.symm rfl
    simpa [hpc,h0] using hconv

end

theorem countDown_of_pos {c : Nat} (hc : 0<c) : countDown c=c-1 := by
  rw [countDown,if_neg (Nat.ne_of_gt hc)]

theorem Inv.releaseExclusive (h : s.Inv) (hpc : (s.threads t).pc = .running)
    (hheld : 0<(s.threads t).held) (hx : s.resource.ownedExclusive=true) :
    Inv (s.act t Ex.releaseExclusive) := by
  have hplain := isPlain_of_eq hpc rfl
  obtain ⟨hlt,hexclusive,slot,hsole,hfirst⟩ := (h.entries t).held hheld
  obtain rfl := hfirst hx
  have hentry : s.resource.ownerEntry=⟨.thread t,(s.threads t).held⟩ := by
    simpa [At,entry] using hsole.1
  have howner : (s.threads t).owner=1 := owner_of_held hheld
  have hset : s.resource.entry .first=some s.resource.ownerEntry := rfl
  unfold act Ex.releaseExclusive
  dsimp only
  rw [hentry,countDown_of_pos hheld]
  split
  · rename_i hcount
    exact h.recount hplain hheld hsole.1 (Nat.pos_of_ne_zero hcount) (by omega)
  · rename_i hcount
    have hone : (s.threads t).held=1 := by omega
    have hothers : ∀ u, u≠t → (s.threads u).owner≠1 := fun u hu hown =>
      hu (h.owner_unique hx howner hown)
    have hsame : ∀ e : OwnerEntry τ, (∀ u, e.ownerThread ≠ .thread u) → ∀ u, u≠t →
        SameFor s.resource (s.resource.setEntry .first e) u := by
      intro e he u hu
      refine SameFor.setEntry hset ?_ (he u)
      rw [hentry]
      simpa using Ne.symm hu
    obtain ⟨hnum,hshared,hexcl,halone,-,hcounts,halloc⟩ := h.counts
    have halone' := halone hx
    have htotals {pc : Pc} (quiet : pc.Quiet) :=
      totals_update s.threads t _ (weights_of_plain hplain) (weights_released hone quiet)
    split
    · rename_i hwaiting
      have hwaiting' : 0<s.resource.numberOfSharedWaiters := by
        simpa [isSharedWaiting] using hwaiting
      obtain ⟨ho,hs,hxu,hws,hwx⟩ :=
        htotals (.releasingSemaphore s.resource.numberOfSharedWaiters)
      simp only [sharedUnits,exclusiveUnits] at hs hxu
      refine h.leave hone (.releasingSemaphore _) ?_ ?_ (hsole.clear _) (hsame _ (by simp))
        fun u hu hown => absurd hown (hothers u hu)
      · exact .of_shared rfl (fun hw => halloc (by omega))
          (by simp only [semaphore,event] at *; omega)
      · intro hpos
        change 0<s.resource.event+_ at hpos
        omega
    · rename_i hwaiting
      have hwaiting' : s.resource.numberOfSharedWaiters=0 := by
        simpa [isSharedWaiting] using hwaiting
      split
      · rename_i hxwaiting
        have hxwaiting' : 0<s.resource.numberOfExclusiveWaiters := by
          simpa [isExclusiveWaiting] using hxwaiting
        obtain ⟨ho,hs,hxu,hws,hwx⟩ := htotals .settingEvent
        simp only [sharedUnits,exclusiveUnits] at hs hxu
        refine h.leave hone .settingEvent ?_ (fun _ => rfl) ?_ (hsame _ (by simp))
          fun u _ _ => hx.symm
        · exact .of_exclusive rfl (fun hw => halloc (by omega))
            (by simp only [semaphore,event,giveExclusive,true_and] at *; omega)
        · intro slot c hc
          have hc' : (s.resource.setEntry .first ⟨.handed,1⟩).At slot t c := hc
          rw [at_setEntry hset] at hc'
          split at hc'
          · simp at hc'
          · rename_i hslot
            exact hslot (hsole.2 slot c hc')
      · rename_i hxwaiting
        have hxwaiting' : s.resource.numberOfExclusiveWaiters=0 := by
          simpa [isExclusiveWaiting] using hxwaiting
        obtain ⟨ho,hs,hxu,hws,hwx⟩ := htotals .running
        simp only [sharedUnits,exclusiveUnits] at hs hxu
        refine h.leave hone .running ?_ ?_ (hsole.clear _) (hsame _ (by simp))
          fun u hu hown => absurd hown (hothers u hu)
        · exact .of_shared rfl (fun hw => halloc (by omega))
            (by simp only [semaphore,event,and_true] at *; omega)
        · intro hpos
          change 0<s.resource.event+_ at hpos
          omega

theorem Inv.releaseShared {e : OwnerEntry τ} (h : s.Inv)
    (hpc : (s.threads t).pc = .running) (hheld : 0<(s.threads t).held)
    (hx : s.resource.ownedExclusive=false) (hsole : s.resource.Sole slot t (s.threads t).held)
    (hentry : s.resource.entry slot=some e) :
    Inv (s.act t fun r th => Ex.releaseShared r th slot e) := by
  have hplain := isPlain_of_eq hpc rfl
  obtain ⟨hlt,-⟩ := (h.entries t).held hheld
  obtain rfl : e=⟨.thread t,(s.threads t).held⟩ := by
    have heq := hentry.symm.trans hsole.1
    simpa using heq
  have howner : (s.threads t).owner=1 := owner_of_held hheld
  unfold act Ex.releaseShared
  dsimp only
  rw [countDown_of_pos hheld]
  split
  · rename_i hcount
    exact h.recount hplain hheld hsole.1 (Nat.pos_of_ne_zero hcount) (by omega)
  · rename_i hcount
    have hone : (s.threads t).held=1 := by omega
    simp only [hone,Nat.sub_self]
    -- the entry is cleared
    set r₁ := s.resource.setEntry slot ⟨.none,0⟩
    have hsame₁ : SameCounts s.resource r₁ := .setEntry _ _ _
    have hnone₁ : ∀ slot' c, ¬ r₁.At slot' t c := hsole.clear 0
    have hfor₁ : ∀ u, u≠t → SameFor s.resource r₁ u := fun u hu =>
      SameFor.setEntry hentry (by simpa using Ne.symm hu) (by simp)
    have hx₁ := hsame₁.ownedExclusive.trans hx
    obtain ⟨hnum,hshared,hexcl,-,hfree,hcounts,halloc⟩ := h.counts.congr hsame₁
    have hfree' := hfree hx₁
    have hle := s.owner_le t
    have htotals {pc : Pc} (quiet : pc.Quiet) :=
      totals_update s.threads t _ (weights_of_plain hplain) (weights_released hone quiet)
    split
    · rename_i hlast
      have hlast' : s.resource.activeEntries=1 := by
        rw [← hsame₁.activeEntries]
        omega
      have hothers : ∀ u, u≠t → (s.threads u).owner≠1 := fun u hu hown =>
        hu (h.owner_of_one hlast' howner hown)
      split
      · rename_i hwaiting
        have hwaiting' : 0<r₁.numberOfExclusiveWaiters := by
          simpa [isExclusiveWaiting] using hwaiting
        obtain ⟨ho,hs,hxu,hws,hwx⟩ := htotals .settingEvent
        simp only [sharedUnits,exclusiveUnits] at hs hxu
        -- nobody else is in the first entry that gets the mark
        have hset : r₁.entry .first=some r₁.ownerEntry := rfl
        have hfirst : ∀ u, r₁.ownerEntry.ownerThread ≠ .thread u := by
          intro u hu
          by_cases hut : u=t
          · subst hut
            exact hnone₁ _ _ (at_first hu)
          · have hat := (hfor₁ u hut _ _).mp (at_first hu)
            exact hothers u hut (h.owner_of_first hat)
        have hmark : ∀ u, SameFor r₁ (r₁.setEntry .first ⟨.handed,1⟩) u := fun u =>
          SameFor.setEntry hset (hfirst u) (by simp)
        refine h.leave hone .settingEvent ?_ (fun _ => rfl) ?_ ?_ ?_
        · exact .of_exclusive rfl (fun hw => halloc (by omega))
            (by simp only [semaphore,event,giveExclusive,true_and] at *; omega)
        · intro slot' c hc
          exact hnone₁ slot' c ((hmark t slot' c).mp hc)
        · intro u hu slot' c
          exact (hmark u slot' c).trans (hfor₁ u hu slot' c)
        · intro u hu hown
          exact absurd hown (hothers u hu)
      · rename_i hwaiting
        obtain ⟨ho,hs,hxu,hws,hwx⟩ := htotals .running
        simp only [sharedUnits,exclusiveUnits] at hs hxu
        have hwaiting' : r₁.numberOfExclusiveWaiters=0 := by
          simpa [isExclusiveWaiting] using hwaiting
        refine h.leave hone .running ?_ ?_ hnone₁ hfor₁ (fun u _ _ => hsame₁.ownedExclusive)
        · exact .of_shared hx₁ (fun hw => halloc (by omega))
            (by simp only [semaphore,event,and_true] at *; omega)
        · intro hpos
          change 0<r₁.event+_ at hpos
          omega
    · rename_i hlast
      obtain ⟨ho,hs,hxu,hws,hwx⟩ := htotals .running
      simp only [sharedUnits,exclusiveUnits] at hs hxu
      refine h.leave hone .running ?_ ?_ hnone₁ hfor₁ (fun u _ _ => hsame₁.ownedExclusive)
      · exact .of_shared hx₁ (fun hw => halloc (by omega))
          (by simp only [semaphore,event] at *; omega)
      · intro hpos
        change 0<r₁.event+_ at hpos
        omega

theorem Inv.exReleaseResourceForThreadLite (h : s.Inv) (hpc : (s.threads t).pc = .running)
    (hheld : 0<(s.threads t).held) (resourceIndex : Nat) :
    Inv (s.act t fun r th => Ex.exReleaseResourceForThreadLite r t th resourceIndex) := by
  cases hx : s.resource.ownedExclusive with
  | true =>
    refine (h.releaseExclusive hpc hheld hx).act_congr ?_
    rw [Ex.exReleaseResourceForThreadLite,if_pos hx]
  | false =>
    obtain ⟨-,-,slot,hsole,-⟩ := (h.entries t).held hheld
    have hentry : s.resource.entry slot=some ⟨.thread t,(s.threads t).held⟩ := hsole.1
    refine (h.releaseShared hpc hheld hx hsole hentry).act_congr ?_
    rw [Ex.exReleaseResourceForThreadLite,if_neg (by simp [hx]),findOwner_eq hsole]
    simp only [hentry]

theorem Inv.registerWoken_or (h : s.Inv) (hpc : (s.threads t).pc = .woken) :
    Inv (s.act t fun r th => Ex.registerWoken r t th) := by
  have hent := h.entries t
  have hheld := hent.held_eq_zero (.inl (by rw [hpc]; rfl))
  have hnone := hent.none hheld (by simp [hpc]) (by simp [hpc])
  unfold act Ex.registerWoken
  dsimp only
  split
  · exact h.goto (by rw [hpc]; exact ⟨rfl,rfl,rfl,rfl,rfl,by simp,by simp⟩) (.refl _)
      (by simp [asksExclusive])
  · rename_i slot hslot
    -- the thread has no entry of its own that the search could find
    obtain ⟨hfree,-,hne⟩ := (expFindEntryForThread_spec hslot).resolve_left
      fun hown => hown.elim (hnone slot)
    exact h.registerWoken hpc (hne rfl) hfree

/-- Every step inside the routines keeps the invariant. -/
theorem Inv.proceed (h : s.Inv) (hcan : (s.threads t).canProceed s.resource=true)
    (hsound : (s.threads t).soundAt s.resource=true) :
    Inv (s.act t fun r th => Ex.proceed r t th) := by
  have hent := h.entries t
  cases hpc : (s.threads t).pc with
  | running | bugchecked => simp [canProceed,hpc] at hcan
  | acquiring f wait =>
    simp only [soundAt,hpc,Bool.decide_or,Bool.decide_and,Bool.or_eq_true,
      decide_eq_true_eq,Bool.and_eq_true] at hsound
    cases f with
    | exAcquireResourceExclusiveLite =>
      exact (h.exAcquireResourceExclusiveLite hpc (hsound.resolve_right (by simp))).act_congr
        (by simp only [Ex.proceed,hpc])
    | exAcquireResourceSharedLite =>
      exact (h.exAcquireResourceSharedLite hpc (hsound.resolve_right (by simp))).act_congr
        (by simp only [Ex.proceed,hpc])
    | exAcquireSharedStarveExclusive =>
      exact (h.exAcquireSharedStarveExclusive hpc (hsound.resolve_right (by simp))).act_congr
        (by simp only [Ex.proceed,hpc])
    | exAcquireSharedWaitForExclusive =>
      exact (h.exAcquireSharedWaitForExclusive hpc (hsound.imp_right And.right)).act_congr
        (by simp only [Ex.proceed,hpc])
  | allocatingEvent wait =>
    unfold act Ex.proceed
    simp only [hpc]
    exact h.goto (.of_plain (by rw [hpc]; rfl) rfl) (.allocateEvent _)
      fun _ => hent.asks (by rw [hpc]; rfl)
  | allocatingSemaphore f wait =>
    unfold act Ex.proceed
    simp only [hpc]
    refine h.goto (.of_plain (by rw [hpc]; rfl) rfl) (.allocateSemaphore _) fun hasks =>
      hent.asks ?_
    rw [hpc]
    cases f <;> simp [asksExclusive] at hasks ⊢
  | expanding f wait oldSize =>
    unfold act Ex.proceed
    simp only [hpc]
    refine h.goto (.of_plain (by rw [hpc]; rfl) rfl) (.expand _ _) fun hasks => hent.asks ?_
    rw [hpc]
    cases f <;> simp [asksExclusive] at hasks ⊢
  | waitingExclusive =>
    unfold act Ex.proceed
    simp only [hpc]
    simp only [canProceed,hpc,decide_eq_true_eq] at hcan
    exact h.wakeExclusive hpc hcan
  | wokenExclusive =>
    unfold act Ex.proceed
    simp only [hpc]
    exact h.claim hpc
  | waitingShared registered =>
    simp only [canProceed,hpc,decide_eq_true_eq] at hcan
    simp only [soundAt,hpc,decide_eq_true_eq] at hsound
    unfold act Ex.proceed
    simp only [hpc]
    cases registered with
    | true => exact h.wakeRegistered hpc hcan
    | false => exact h.wakeUnregistered hpc hsound hcan
  | woken =>
    exact (h.registerWoken_or hpc).act_congr (by simp only [Ex.proceed,hpc])
  | wokenExpanding oldSize =>
    unfold act Ex.proceed
    simp only [hpc]
    exact h.goto (by rw [hpc]; exact ⟨rfl,rfl,rfl,rfl,rfl,by simp,by simp⟩) (.expand _ _)
      (by simp [asksExclusive])
  | releasingSemaphore count =>
    unfold act Ex.proceed
    simp only [hpc]
    exact h.releaseSemaphore hpc
  | settingEvent =>
    unfold act Ex.proceed
    simp only [hpc]
    exact h.setEvent hpc

/-- `KeSetEventBoostPriority` with a thread in the event's wait list. -/
theorem Inv.wakeOwner {w : τ} (h : s.Inv) (hpc : (s.threads t).pc = .settingEvent)
    (hw : (s.threads w).pc = .waitingExclusive) : Inv (s.step (.wakeOwner t w)) := by
  have hne : w≠t := by
    intro heq
    rw [heq,hpc] at hw
    exact absurd hw (by simp)
  have hset : Inv (s.act t fun r th => Ex.proceed r t th) :=
    h.proceed (by simp [canProceed,hpc]) (by simp [soundAt,hpc])
  have hpc₁ : ((s.act t fun r th => Ex.proceed r t th).threads w).pc = .waitingExclusive := by
    simp [act,update_of_ne hne,hw]
  have hevent : (s.act t fun r th => Ex.proceed r t th).resource.exclusiveWaiters=some true := by
    simp [act,Ex.proceed,hpc]
  have hwake := hset.proceed (t := w) (by simp [canProceed,hpc₁,hevent])
    (by simp [soundAt,hpc₁])
  have hpc₂ : (((s.act t fun r th => Ex.proceed r t th).act w
      fun r th => Ex.proceed r w th).threads w).pc = .wokenExclusive := by
    have hgo : ∀ (r : Resource τ) (th : Thread), th.pc = .waitingExclusive →
        (Ex.proceed r w th).2.pc = .wokenExclusive := by
      intro r th hth
      simp [Ex.proceed,hth]
    rw [act_threads_self]
    exact hgo _ _ hpc₁
  exact hwake.markOwner hpc₂

def Sound (s : State τ) : Action τ → Prop
  | .tryToAcquire t => (s.threads t).held+1<ownerCountLimit
  | .proceed t => (s.threads t).soundAt s.resource=true
  | _ => True

instance (s : State τ) : DecidablePred s.Sound
  | .acquire _ _ _ => .isTrue trivial
  | .tryToAcquire _ => inferInstanceAs (Decidable (_<_))
  | .convert _ => .isTrue trivial
  | .release _ _ => .isTrue trivial
  | .proceed _ => inferInstanceAs (Decidable (_=_))
  | .wakeOwner _ _ => .isTrue trivial

/-- One step keeps the invariant. -/
theorem Inv.step {a : Action τ} (h : s.Inv) (henabled : s.Enabled a) (hsound : s.Sound a) :
    (s.step a).Inv := by
  cases a with
  | acquire t f wait =>
    obtain ⟨hpc,hasks⟩ := henabled
    refine h.goto_plain (by rw [hpc]; rfl) rfl fun ha => hasks ?_
    cases f <;> simp [asksExclusive] at ha ⊢
  | tryToAcquire t => exact h.exTryToAcquireResourceExclusiveLite henabled.1 hsound
  | convert t => exact h.exConvertExclusiveToSharedLite henabled.1 henabled.2.1 henabled.2.2
  | release t resourceIndex =>
        exact h.exReleaseResourceForThreadLite henabled.1 henabled.2 resourceIndex
  | proceed t => exact h.proceed henabled hsound
  | wakeOwner t w => exact h.wakeOwner henabled.1 henabled.2

def Along (p : State τ → Action τ → Prop) (s : State τ) : List (Action τ) → Prop
  | [] => True
  | a::actions => p s a ∧ Along p (s.step a) actions

instance decidableAlong (p : State τ → Action τ → Prop) [∀ s,DecidablePred (p s)] :
    (s : State τ) → (actions : List (Action τ)) → Decidable (s.Along p actions)
  | _, [] => .isTrue trivial
  | s, a::actions =>
    @instDecidableAnd _ _ (inferInstanceAs (Decidable (p s a)))
      (decidableAlong p (s.step a) actions)

theorem Inv.run {actions : List (Action τ)} (h : s.Inv) (henabled : s.Along Enabled actions)
    (hsound : s.Along Sound actions) : (s.run actions).Inv := by
  induction actions generalizing s with
  | nil => exact h
  | cons a actions ih => exact ih (h.step henabled.1 hsound.1) henabled.2 hsound.2

/-- The waiters that have been handed the resource and have not left their wait: each has a unit of
the semaphore or of the event, signalled or about to be. -/
def unitsInFlight (s : State τ) : Nat :=
  (s.resource.semaphore+tally (fun th => th.pc.sharedUnits) s.threads) +
    (s.resource.event+tally (fun th => th.pc.exclusiveUnits) s.threads)

structure Correct (s : State τ) : Prop where
  /-- An exclusive owner is the only thread that owns the resource or has been handed it. -/
  exclusive : ∀ t, 0<(s.threads t).held → (s.threads t).exclusive=true →
    s.unitsInFlight=0 ∧ ∀ u, (s.threads u).Owns → u=t
  /-- `ActiveEntries` is the number of threads that own the resource or have been handed it. -/
  activeEntries : s.resource.activeEntries =
    (Finset.univ.filter fun t => (s.threads t).Owns).card+s.unitsInFlight
  /-- An owner has one entry, with its acquisitions minus its releases. -/
  ownerCount : ∀ t, 0<(s.threads t).held → ∃ slot, s.resource.Sole slot t (s.threads t).held
  activeCount : s.resource.activeCount=0 ↔ s.resource.activeEntries=0
  /-- When nobody owns the resource or has been handed it, nobody waits for it. -/
  waiters : (∀ t, ¬ (s.threads t).Owns) → s.unitsInFlight=0 → ∀ t,
    (s.threads t).pc ≠ .waitingExclusive ∧ ∀ registered,
      (s.threads t).pc ≠ .waitingShared registered

theorem Inv.correct (h : s.Inv) : s.Correct := by
  obtain ⟨hnum,hshared,hexcl,halone,hfree,hcount,-⟩ := h.counts
  have howners : (totals s.threads).owners =
      (Finset.univ.filter fun t => (s.threads t).Owns).card := tally_eq_card _ _
  have hunits : s.unitsInFlight=(s.resource.semaphore+(totals s.threads).sharedUnits) +
      (s.resource.event+(totals s.threads).exclusiveUnits) := rfl
  refine ⟨?_,by omega,?_,by omega,?_⟩
  · intro t hheld hx
    have howner : (s.threads t).owner=1 := owner_of_held hheld
    obtain ⟨-,hflag,-⟩ := (h.entries t).held hheld
    rw [hx] at hflag
    refine ⟨?_,fun u hu => h.owner_unique hflag.symm howner (if_pos hu)⟩
    have halone' := halone hflag.symm
    have hno := h.no_unit howner
    omega
  · intro t hheld
    obtain ⟨-,-,slot,hsole,-⟩ := (h.entries t).held hheld
    exact ⟨slot,hsole⟩
  · intro hnone hzero t
    have hcard : (Finset.univ.filter fun t => (s.threads t).Owns).card=0 := by
      simp [hnone]
    have hflag : s.resource.ownedExclusive=false := by
      by_contra hx
      have halone' := halone (by simpa using hx)
      omega
    have hfree' := hfree hflag
    have hws : (totals s.threads).waitsShared=0 := by omega
    have hwx : (totals s.threads).waitsExclusive=0 := by omega
    have hs := tally_eq_zero_iff.mp hws t
    have hx := tally_eq_zero_iff.mp hwx t
    refine ⟨fun hpc => ?_,fun registered hpc => ?_⟩
    · simp [hpc,waitsExclusive] at hx
    · simp [hpc,waitsShared] at hs

/-- In every interleaving from a new resource in which no thread that owns the resource is woken as
a new owner of it, and no count overflows, the resource is a correct reader-writer lock. -/
theorem resource_correct (actions : List (Action τ))
    (henabled : (init : State τ).Along Enabled actions)
    (hsound : (init : State τ).Along Sound actions) : ((init : State τ).run actions).Correct :=
  (Inv.init.run henabled hsound).correct

def writerThenReader : List (Action (Fin 2)) :=
  [.acquire 0 .exAcquireResourceExclusiveLite true,.proceed 0,
    .acquire 1 .exAcquireResourceSharedLite true,.proceed 1,.proceed 1,.proceed 1,.proceed 1,
    .proceed 1,.release 0 0,.proceed 0,.proceed 1,.release 1 1]

theorem resource_correct_writerThenReader : ((init : State (Fin 2)).run writerThenReader).Correct :=
  resource_correct writerThenReader (by decide +kernel) (by decide +kernel)

/-- Thread 0 owns the resource, 1 and 2 wait for it shared and 3 exclusively. Thread 0 hands it to 1
and 2; thread 1 wakes first and asks for it again behind the exclusive waiter, with the unit for 2
in the semaphore. -/
def readerTwice : List (Action (Fin 5)) :=
  [.acquire 0 .exAcquireResourceExclusiveLite true,.proceed 0,
    .acquire 1 .exAcquireResourceSharedLite true,.proceed 1,.proceed 1,.proceed 1,.proceed 1,
    .proceed 1,.acquire 2 .exAcquireResourceSharedLite true,.proceed 2,
    .acquire 3 .exAcquireResourceExclusiveLite true,.proceed 3,.proceed 3,.proceed 3,
    .release 0 0,.proceed 0,.proceed 1,.acquire 1 .exAcquireSharedWaitForExclusive true,
    .proceed 1,.proceed 1,.proceed 1]

/-- Thread 1 has acquired the resource twice, its entry counts one, and `ActiveEntries` is 2
although thread 1 is the only owner and nobody else has been handed the resource. -/
theorem readerTwice_not_correct :
    (init : State (Fin 5)).Along Enabled readerTwice ∧
    (init.run readerTwice).resource.activeEntries=2 ∧
    (Finset.univ.filter fun t => ((init.run readerTwice).threads t).Owns)={1} ∧
    (init.run readerTwice).unitsInFlight=0 ∧
    ((init.run readerTwice).threads 1).held=2 ∧
    (init.run readerTwice).resource.entry (.table 0)=some ⟨.thread 1,1⟩ ∧
    ¬ (init.run readerTwice).Correct := by
  have hactive : (init.run readerTwice).resource.activeEntries=2 := by decide +kernel
  have howners : (Finset.univ.filter fun t => ((init.run readerTwice).threads t).Owns)={1} := by
    decide +kernel
  have hunits : (init.run readerTwice).unitsInFlight=0 := by decide +kernel
  refine ⟨by decide +kernel,hactive,howners,hunits,by decide +kernel,by decide +kernel,
    fun hcorrect => ?_⟩
  have hcount := hcorrect.activeEntries
  exact absurd hcount (by decide)

end State

end Odyssey.Ex
