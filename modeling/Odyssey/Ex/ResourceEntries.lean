import Odyssey.Ex.Resource

/-! The owner entries of a resource: which of them belong to a thread, and what the searches
find. -/
namespace Odyssey.Ex.Resource
open List Option

variable {τ : Type*}

def At (r : Resource τ) (slot : Slot) (t : τ) (c : Nat) : Prop :=
  r.entry slot=some ⟨.thread t,c⟩

def FreeAt (r : Resource τ) (slot : Slot) : Prop :=
  ∃ c, r.entry slot=some ⟨.none,c⟩

def Sole (r : Resource τ) (slot : Slot) (t : τ) (c : Nat) : Prop :=
  r.At slot t c ∧ ∀ slot' c', r.At slot' t c' → slot'=slot

def SameFor (r r' : Resource τ) (t : τ) : Prop :=
  ∀ slot c, r'.At slot t c ↔ r.At slot t c

theorem Sole.congr {r r' : Resource τ} {slot : Slot} {t : τ} {c : Nat} (h : r.Sole slot t c)
    (same : SameFor r r' t) : r'.Sole slot t c :=
  ⟨(same slot c).mpr h.1,fun slot' c' h' => h.2 slot' c' ((same slot' c').mp h')⟩

section
variable {r r' : Resource τ} (htable : r'.ownerTable=r.ownerTable)
  (hfirst : r'.ownerEntry=r.ownerEntry)
include htable hfirst

theorem entry_congr (slot : Slot) : r'.entry slot=r.entry slot := by
  cases slot <;> simp [entry,htable,hfirst]

theorem SameFor.of_eq (t : τ) : SameFor r r' t := by
  intro slot c
  rw [At,At,entry_congr htable hfirst]

end

theorem at_first {r : Resource τ} {t : τ} (h : r.ownerEntry.ownerThread = .thread t) :
    r.At .first t r.ownerEntry.ownerCount := by
  rw [At,entry,← h]

section SetEntry

variable (r : Resource τ) (slot : Slot) (e : OwnerEntry τ)

@[simp] theorem setEntry_activeCount : (r.setEntry slot e).activeCount=r.activeCount := by
  cases slot <;> rfl

@[simp] theorem setEntry_ownedExclusive : (r.setEntry slot e).ownedExclusive=r.ownedExclusive := by
  cases slot <;> rfl

@[simp] theorem setEntry_sharedWaiters : (r.setEntry slot e).sharedWaiters=r.sharedWaiters := by
  cases slot <;> rfl

@[simp] theorem setEntry_exclusiveWaiters :
    (r.setEntry slot e).exclusiveWaiters=r.exclusiveWaiters := by
  cases slot <;> rfl

@[simp] theorem setEntry_activeEntries : (r.setEntry slot e).activeEntries=r.activeEntries := by
  cases slot <;> rfl

@[simp] theorem setEntry_numberOfSharedWaiters :
    (r.setEntry slot e).numberOfSharedWaiters=r.numberOfSharedWaiters := by
  cases slot <;> rfl

@[simp] theorem setEntry_numberOfExclusiveWaiters :
    (r.setEntry slot e).numberOfExclusiveWaiters=r.numberOfExclusiveWaiters := by
  cases slot <;> rfl

end SetEntry

variable {r : Resource τ} {slot : Slot} {e e' : OwnerEntry τ} {t u : τ} {c : Nat}

theorem setEntry_ownerEntry (h : slot ≠ .first) (e : OwnerEntry τ) :
    (r.setEntry slot e).ownerEntry=r.ownerEntry := by
  cases slot with
  | first => exact absurd rfl h
  | table i => rfl

section
variable (h : r.entry slot=some e)
include h

theorem entry_setEntry (e' : OwnerEntry τ) (slot' : Slot) :
    (r.setEntry slot e').entry slot'=if slot'=slot then some e' else r.entry slot' := by
  cases slot with
  | first =>
    cases slot' with
    | first => rfl
    | table j => rfl
  | table i =>
    cases slot' with
    | first => rfl
    | table j =>
      cases htable : r.ownerTable with
      | none => simp [entry,htable] at h
      | some table =>
        simp only [entry,htable,getD_some] at h
        have hi : i<table.length := (List.getElem?_eq_some_iff.mp h).1
        simp only [entry,setEntry,htable,map_some,getD_some,Slot.table.injEq]
        by_cases hj : j=i
        · subst hj
          simp [hi]
        · simp [hj,getElem?_set_ne (Ne.symm hj)]

theorem at_setEntry (e' : OwnerEntry τ) (slot' : Slot) :
    (r.setEntry slot e').At slot' t c ↔
      if slot'=slot then e'=⟨.thread t,c⟩ else r.At slot' t c := by
  rw [At,entry_setEntry h]
  by_cases hs : slot'=slot <;> simp [hs,At]

/-- Replacing an entry that is not the thread's by another such entry leaves the thread's alone. -/
theorem SameFor.setEntry (hold : e.ownerThread ≠ .thread t) (hnew : e'.ownerThread ≠ .thread t) :
    SameFor r (r.setEntry slot e') t := by
  intro slot' c
  rw [at_setEntry h]
  by_cases hs : slot'=slot
  · subst hs
    rw [if_pos rfl,At,h]
    constructor
    · intro he
      rw [he] at hnew
      exact absurd rfl hnew
    · intro he
      rw [Option.some.injEq] at he
      rw [he] at hold
      exact absurd rfl hold
  · rw [if_neg hs]

theorem Sole.take (hnone : ∀ slot c, ¬ r.At slot t c) (c : Nat) :
    (r.setEntry slot ⟨.thread t,c⟩).Sole slot t c := by
  refine ⟨by rw [at_setEntry h,if_pos rfl],fun slot' c' h' => ?_⟩
  rw [at_setEntry h] at h'
  by_contra hs
  rw [if_neg hs] at h'
  exact hnone slot' c' h'

end

theorem Sole.recount (h : r.Sole slot t c) (c' : Nat) :
    (r.setEntry slot ⟨.thread t,c'⟩).Sole slot t c' := by
  refine ⟨by rw [at_setEntry h.1,if_pos rfl],fun slot' c'' h' => ?_⟩
  rw [at_setEntry h.1] at h'
  by_contra hs
  rw [if_neg hs] at h'
  exact hs (h.2 slot' c'' h')

theorem Sole.clear (h : r.Sole slot t c) (c' : Nat) :
    ∀ slot' c'', ¬ (r.setEntry slot ⟨.none,c'⟩).At slot' t c'' := by
  intro slot' c'' h'
  rw [at_setEntry h.1] at h'
  by_cases hs : slot'=slot
  · simp [hs] at h'
  · rw [if_neg hs] at h'
    exact hs (h.2 slot' c'' h')

/-- Growing the table leaves every thread's entries alone. -/
theorem SameFor.expand (r : Resource τ) (oldSize : Nat) (t : τ) :
    SameFor r (r.expExpandResourceOwnerTable oldSize) t := by
  intro slot c
  unfold expExpandResourceOwnerTable
  split
  · exact Iff.rfl
  · cases slot with
    | first => cases htable : r.ownerTable <;> exact Iff.rfl
    | table i =>
      cases htable : r.ownerTable with
      | none =>
        simp only [At,entry,htable,getD_some,getD_none]
        rw [getElem?_replicate]
        split <;> simp [OwnerEntry.free]
      | some table =>
        simp only [At,entry,htable,getD_some,getElem?_append]
        split
        · exact Iff.rfl
        · rename_i hi
          rw [getElem?_replicate,getElem?_eq_none (by omega)]
          split <;> simp [OwnerEntry.free]

theorem entry_findIdx {table : List (OwnerEntry τ)} {p : OwnerEntry τ → Bool} {i : Nat}
    (htable : r.ownerTable=some table) (h : table.findIdx? p=some i) :
    ∃ e, r.entry (.table i)=some e ∧ p e=true := by
  obtain ⟨hi,hp,-⟩ := findIdx?_eq_some_iff_getElem.mp h
  exact ⟨table[i],by simp [entry,htable,hi],hp⟩

variable [DecidableEq τ]

theorem isOwner_iff : r.isOwner slot t=true ↔ ∃ c, r.At slot t c := by
  unfold isOwner At
  cases h : r.entry slot with
  | none => simp
  | some e =>
    obtain ⟨owner,count⟩ := e
    simp

theorem expFindFreeEntry_spec (h : r.expFindFreeEntry=some slot) :
    slot ≠ .first ∧ r.FreeAt slot := by
  unfold expFindFreeEntry at h
  cases htable : r.ownerTable with
  | none => simp [htable] at h
  | some table =>
    simp only [htable,map_eq_some_iff] at h
    obtain ⟨i,hi,rfl⟩ := h
    obtain ⟨⟨owner,count⟩,he,hp⟩ := entry_findIdx htable hi
    simp only [decide_eq_true_eq] at hp
    subst hp
    exact ⟨by simp,count,he⟩

/-- The search finds the thread's own entry, or else a free one. -/
theorem expFindEntryForThread_spec {ineligible : Bool}
    (h : r.expFindEntryForThread t ineligible=some slot) :
    (∃ c, r.At slot t c) ∨
      r.FreeAt slot ∧ (∀ slot c, ¬ r.At slot t c) ∧ (ineligible=true → slot ≠ .first) := by
  unfold expFindEntryForThread at h
  by_cases hfirst : r.ownerEntry.ownerThread = .thread t
  · rw [if_pos hfirst,Option.some.injEq] at h
    subst h
    exact .inl ⟨r.ownerEntry.ownerCount,by simp [At,entry,← hfirst]⟩
  · rw [if_neg hfirst] at h
    have hnotFirst : ∀ c, ¬ r.At .first t c := by
      intro c hc
      simp only [At,entry,Option.some.injEq] at hc
      exact hfirst (by rw [hc])
    -- the candidate for a free entry so far
    set freeEntry : Option Slot :=
      if ineligible=true ∨ r.ownerEntry.ownerThread ≠ .none then none else some .first with hfree
    have hfreeSpec : freeEntry=some slot →
        r.FreeAt slot ∧ (ineligible=true → slot ≠ .first) := by
      intro hs
      rw [hfree] at hs
      split at hs
      · exact absurd hs (by simp)
      · rename_i hcond
        simp only [not_or,not_not] at hcond
        rw [Option.some.injEq] at hs
        subst hs
        exact ⟨⟨r.ownerEntry.ownerCount,by simp [entry,← hcond.2]⟩,fun hi => absurd hi hcond.1⟩
    clear_value freeEntry
    cases htable : r.ownerTable with
    | none =>
      simp only [htable] at h
      obtain ⟨hf,hne⟩ := hfreeSpec h
      refine .inr ⟨hf,?_,hne⟩
      intro slot' c hc
      cases slot' with
      | first => exact hnotFirst c hc
      | table j => simp [At,entry,htable] at hc
    | some table =>
      simp only [htable] at h
      cases hidx : table.findIdx? (fun e => decide (e.ownerThread = .thread t)) with
      | some i =>
        simp only [hidx,Option.some.injEq] at h
        subst h
        obtain ⟨⟨owner,count⟩,he,hp⟩ := entry_findIdx htable hidx
        simp only [decide_eq_true_eq] at hp
        subst hp
        exact .inl ⟨count,he⟩
      | none =>
        simp only [hidx] at h
        have hnone : ∀ slot c, ¬ r.At slot t c := by
          intro slot' c hc
          cases slot' with
          | first => exact hnotFirst c hc
          | table j =>
            simp only [At,entry,htable,getD_some] at hc
            have hmem := mem_of_getElem? hc
            have hfalse := findIdx?_eq_none_iff.mp hidx _ hmem
            simp at hfalse
        obtain hf | ⟨-,hf⟩ := or_eq_some_iff.mp h
        · obtain ⟨hfree',hne⟩ := hfreeSpec hf
          exact .inr ⟨hfree',hnone,hne⟩
        · obtain ⟨i,hi,rfl⟩ := map_eq_some_iff.mp hf
          obtain ⟨⟨owner,count⟩,he,hp⟩ := entry_findIdx htable hi
          simp only [decide_eq_true_eq] at hp
          subst hp
          exact .inr ⟨⟨count,he⟩,hnone,by simp⟩

/-- A thread with an entry is found when it releases, whatever its `ResourceIndex`. -/
theorem findOwner_eq (h : r.Sole slot t c) (resourceIndex : Nat) :
    findOwner r t resourceIndex=some slot := by
  have hthread : ∀ e : OwnerEntry τ, e.ownerThread = .thread t → e=⟨.thread t,e.ownerCount⟩ := by
    intro e he
    rw [← he]
  unfold findOwner
  by_cases hfirst : r.ownerEntry.ownerThread = .thread t
  · have hat : r.At .first t r.ownerEntry.ownerCount := by
      rw [At,entry,← hthread _ hfirst]
    rw [if_pos hfirst,h.2 _ _ hat]
  · rw [if_neg hfirst]
    by_cases hindex : 1≤resourceIndex ∧ r.isOwner (.table (resourceIndex-1)) t
    · obtain ⟨c',hc'⟩ := isOwner_iff.mp hindex.2
      rw [if_pos hindex,h.2 _ _ hc']
    · rw [if_neg hindex]
      cases slot with
      | first =>
        have hat := h.1
        simp only [At,entry,Option.some.injEq] at hat
        exact absurd (by rw [hat]) hfirst
      | table i =>
        have hat := h.1
        cases htable : r.ownerTable with
        | none => simp [At,entry,htable] at hat
        | some table =>
          simp only [getD_some]
          cases hidx : table.findIdx? (fun e => decide (e.ownerThread = .thread t)) with
          | none =>
            simp only [At,entry,htable,getD_some] at hat
            have hfalse := findIdx?_eq_none_iff.mp hidx _ (mem_of_getElem? hat)
            simp at hfalse
          | some j =>
            obtain ⟨e,he,hp⟩ := entry_findIdx htable hidx
            have hat' : r.At (.table j) t e.ownerCount := by
              rw [At,he,← hthread e (by simpa using hp)]
            simp [h.2 _ _ hat']

end Odyssey.Ex.Resource
