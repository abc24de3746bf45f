import Odyssey.Lib.Chain

/-! Handle tables of the executive (`ex/handle.c`). A table has one, two or three levels; the
free handles are linked through the entries. The model is that of a sequential history: between
the read of a link and its exchange no other thread runs, so the exchange succeeds. -/
namespace Odyssey.Ex
open Function

/-- `HANDLE_TABLE_ENTRY`. The second word is `GrantedAccess` while the handle is live. -/
structure Entry where
  object : BitVec 32
  nextFreeTableEntry : Nat
deriving DecidableEq

def reservedMark : Nat := 0xFFFFFFFE

structure EntryPtr where
  table : Nat
  offset : Nat
deriving DecidableEq

/-- Paged pool. Blocks are known by their addresses; `supply n` is what the `n`-th allocation
returns, `0` when it fails. -/
structure Memory where
  entries : Nat → Nat → Entry
  pointers : Nat → Nat → Nat
  supply : Nat → Nat
  taken : Nat

namespace Memory

def setEntry (m : Memory) (p : EntryPtr) (e : Entry) : Memory :=
  { m with entries := fun b o => if b=p.table ∧ o=p.offset then e else m.entries b o }

def pointer (m : Memory) (block index : Nat) : Nat := m.pointers block (4*index)

def setPointer (m : Memory) (block index value : Nat) : Memory :=
  { m with pointers := fun b o => if b=block ∧ o=4*index then value else m.pointers b o }

def expAllocateTablePagedPoolNoZero (m : Memory) : Memory × Nat :=
  ({ m with taken := m.taken+1 }, m.supply m.taken)

def expAllocateTablePagedPool (m : Memory) : Memory × Nat :=
  let (m, buffer) := m.expAllocateTablePagedPoolNoZero
  if buffer=0 then (m, 0)
  else ({ m with pointers := fun b o => if b=buffer then 0 else m.pointers b o }, buffer)

def linkEntries (table : Nat) : Nat → Nat → Nat → Memory → Memory
  | 0, _, _, m => m
  | n+1, offset, next, m =>
    linkEntries table n (offset+8) (next+4) (m.setEntry ⟨table,offset⟩ ⟨0,next⟩)

def initTable (m : Memory) (table next : Nat) (doInit : Bool) : Memory :=
  let m := m.setEntry ⟨table,0⟩ ⟨0,reservedMark⟩
  if doInit then (linkEntries table 510 8 next m).setEntry ⟨table,8*511⟩ ⟨0,0⟩ else m

end Memory

/-- `HANDLE_TABLE`. In a sequential history the push locks are free at each test of them. -/
structure HandleTable where
  tableCode : Nat
  firstFree : Nat
  lastFree : Nat
  nextHandleNeedingPool : Nat
  handleCount : Int
  strictFIFO : Bool
  locked : Nat → Bool
  mem : Memory

namespace HandleTable

def entry (t : HandleTable) (p : EntryPtr) : Entry := t.mem.entries p.table p.offset

def setEntry (t : HandleTable) (p : EntryPtr) (e : Entry) : HandleTable :=
  { t with mem := t.mem.setEntry p e }

def expLookupHandleTableEntry (t : HandleTable) (lookupHandle : Nat) : Option EntryPtr :=
  let handle := lookupHandle/4*4
  if handle ≥ t.nextHandleNeedingPool then none
  else
    let tableLevel := t.tableCode%4
    let tableBase := t.tableCode-tableLevel
    match tableLevel with
    | 0 => some ⟨tableBase,handle*(8/4)⟩
    | 1 =>
      let i := handle%(4*512)
      let j := (handle-i)/(4*512/4)
      some ⟨t.mem.pointers tableBase j,i*(8/4)⟩
    | 2 =>
      let i := handle%(4*512)
      let k := (handle-i)/(4*512/4)
      let j := k%(1024*4)
      let k := (k-j)/1024
      let level2 := t.mem.pointers tableBase k
      some ⟨t.mem.pointers level2 j,i*(8/4)⟩
    | _ => none

def expAllocateHandleTable (m : Memory) (newTable : Bool) : Option HandleTable :=
  let (m, record) := m.expAllocateTablePagedPoolNoZero
  if record=0 then none
  else
    let (m, table) := m.expAllocateTablePagedPoolNoZero
    if table=0 then none
    else
      some { tableCode := table, firstFree := if newTable then 4 else 0, lastFree := 0
             nextHandleNeedingPool := 512*4, handleCount := 0, strictFIFO := false
             locked := fun _ => false, mem := m.initTable table 8 newTable }

def exCreateHandleTable (m : Memory) : Option HandleTable := expAllocateHandleTable m true

def expAllocateLowLevelTable (t : HandleTable) (doInit : Bool) : HandleTable × Nat :=
  let (m, low) := t.mem.expAllocateTablePagedPoolNoZero
  if low=0 then ({ t with mem := m }, 0)
  else ({ t with mem := m.initTable low (t.nextHandleNeedingPool+8) doInit }, low)

/-- The mid level table with its first low level table, both `0` for a failed allocation. -/
def expAllocateMidLevelTable (t : HandleTable) (doInit : Bool) : HandleTable × Nat × Nat :=
  let (m, mid) := t.mem.expAllocateTablePagedPool
  let t := { t with mem := m }
  if mid=0 then (t, 0, 0)
  else
    let (t, low) := t.expAllocateLowLevelTable doInit
    if low=0 then (t, 0, 0)
    else ({ t with mem := t.mem.setPointer mid 0 low }, mid, low)

def exchangeNull (t : HandleTable) (block index value : Nat) : Option HandleTable :=
  if t.mem.pointer block index=0 then some { t with mem := t.mem.setPointer block index value }
  else none

def growOne (t : HandleTable) (tableBase : Nat) (doInit : Bool) : Option (HandleTable × Nat) :=
  let (t, mid, low) := t.expAllocateMidLevelTable doInit
  if mid=0 then some (t, 0)
  else
    let m := t.mem.setPointer mid 1 (t.mem.pointer mid 0)
    let m := m.setPointer mid 0 tableBase
    some ({ t with mem := m, tableCode := mid ||| 1 }, low)

def growTwo (t : HandleTable) (tableBase : Nat) (doInit : Bool) : Option (HandleTable × Nat) :=
  let i := t.nextHandleNeedingPool/(4*512)
  if i<1024 then
    let (t, low) := t.expAllocateLowLevelTable doInit
    if low=0 then some (t, 0)
    else do
      let t ← t.exchangeNull tableBase i low
      some (t, low)
  else
    let (m, high) := t.mem.expAllocateTablePagedPool
    let t := { t with mem := m }
    if high=0 then some (t, 0)
    else
      let (t, mid, low) := t.expAllocateMidLevelTable doInit
      if mid=0 then some (t, 0)
      else
        let m := (t.mem.setPointer high 0 tableBase).setPointer high 1 mid
        some ({ t with mem := m, tableCode := high ||| 2 }, low)

def growThree (t : HandleTable) (tableBase : Nat) (doInit : Bool) : Option (HandleTable × Nat) :=
  let i := t.nextHandleNeedingPool/(4*(1024*512))
  if i ≥ 32 then some (t, 0)
  else if t.mem.pointer tableBase i=0 then
    let (t, mid, low) := t.expAllocateMidLevelTable doInit
    if mid=0 then some (t, 0)
    else do
      let t ← t.exchangeNull tableBase i mid
      some (t, low)
  else
    let index := t.nextHandleNeedingPool/4-i*(1024*512)
    let j := index/512
    let (t, low) := t.expAllocateLowLevelTable doInit
    if low=0 then some (t, 0)
    else do
      let t ← t.exchangeNull (t.mem.pointer tableBase i) j low
      some (t, low)

def addLowLevelTable (t : HandleTable) (doInit : Bool) : Option (HandleTable × Nat) :=
  match t.tableCode%4 with
  | 0 => t.growOne (t.tableCode/4*4) doInit
  | 1 => t.growTwo (t.tableCode/4*4) doInit
  | 2 => t.growThree (t.tableCode/4*4) doInit
  | _ => none

def expAllocateHandleTableEntrySlow (t : HandleTable) (doInit : Bool) :
    Option (HandleTable × Bool) := do
  let (t, low) ← t.addLowLevelTable doInit
  if low=0 then some (t, false)
  else
    let index := t.nextHandleNeedingPool
    let t := { t with nextHandleNeedingPool := index+4*512 }
    if doInit then
      let last := t.entry ⟨low,8*511⟩
      let t := t.setEntry ⟨low,8*511⟩ { last with nextFreeTableEntry := t.firstFree }
      some ({ t with firstFree := index+4 }, true)
    else some (t, true)

/-- The reversal of the list for strict order is not implemented: the code asserts there. -/
def expMoveFreeHandles (t : HandleTable) : Option (HandleTable × Nat) :=
  let lastFree := t.lastFree
  let t := { t with lastFree := 0 }
  if lastFree=0 then some (t, 0)
  else if ¬t.strictFIFO ∧ t.firstFree=0 then some ({ t with firstFree := lastFree }, lastFree)
  else none

/-- The inner loop of `ExpAllocateHandleTableEntry`: the first free handle, or `0` when the
table cannot grow. -/
def freeHandleLoop : Nat → HandleTable → Option (HandleTable × Nat)
  | 0, _ => none
  | fuel+1, t =>
    if t.firstFree≠0 then some (t, t.firstFree)
    else do
      let (t, moved) ← t.expMoveFreeHandles
      if moved≠0 then some (t, moved)
      else
        let (t, result) ← t.expAllocateHandleTableEntrySlow true
        if ¬result ∧ t.firstFree=0 then some (t, 0) else freeHandleLoop fuel t

def allocateLoop : Nat → HandleTable → Option (HandleTable × Nat × Option EntryPtr)
  | 0, _ => none
  | fuel+1, t => do
    let (t, oldValue) ← freeHandleLoop 2 t
    if oldValue=0 then some (t, 0, none)
    else if oldValue≠t.firstFree then allocateLoop fuel t
    else
      let p ← t.expLookupHandleTableEntry oldValue
      let newValue := (t.entry p).nextFreeTableEntry
      if newValue<t.nextHandleNeedingPool then
        some ({ t with firstFree := newValue, handleCount := t.handleCount+1 }, oldValue, some p)
      else none

def expAllocateHandleTableEntry (t : HandleTable) : Option (HandleTable × Nat × Option EntryPtr) :=
  t.allocateLoop 1

def exUnlockHandleTableEntry (t : HandleTable) (p : EntryPtr) : Option HandleTable :=
  let e := t.entry p
  if e.object &&& 1=0 then some (t.setEntry p { e with object := e.object ||| 1 }) else none

/-- `none` when the caller has to wait for the entry. -/
def expLockHandleTableEntry (t : HandleTable) (p : EntryPtr) : Option (HandleTable × Bool) :=
  let e := t.entry p
  if e.object &&& 1≠0 then some (t.setEntry p { e with object := e.object &&& ~~~1 }, true)
  else if e.object=0 then some (t, false)
  else none

def exCreateHandle (t : HandleTable) (e : Entry) : Option (HandleTable × Nat) := do
  let (t, handle, newEntry) ← t.expAllocateHandleTableEntry
  match newEntry with
  | none => some (t, handle)
  | some p =>
    let t ← (t.setEntry p e).exUnlockHandleTableEntry p
    some (t, handle)

def expFreeHandleTableEntry (t : HandleTable) (handle : Nat) (p : EntryPtr) : Option HandleTable :=
  if (t.entry p).object=0 ∧ t.expLookupHandleTableEntry handle=some p then
    let t := { t with handleCount := t.handleCount-1 }
    let newValue := handle/4*4
    let toFirst := !t.strictFIFO && t.locked (newValue/4%4)
    let oldValue := if toFirst then t.firstFree else t.lastFree
    let t := t.setEntry p { t.entry p with nextFreeTableEntry := oldValue }
    let t := if toFirst then { t with firstFree := newValue } else { t with lastFree := newValue }
    if oldValue<t.nextHandleNeedingPool then some t else none
  else none

def destroyLocked (t : HandleTable) (handle : Nat) (p : EntryPtr) : Option HandleTable :=
  let object := (t.entry p).object
  if object≠0 ∧ object &&& 1=0 then
    (t.setEntry p { t.entry p with object := 0 }).expFreeHandleTableEntry handle p
  else none

def exDestroyHandle (t : HandleTable) (handle : Nat) (handleTableEntry : Option EntryPtr) :
    Option (HandleTable × Bool) :=
  match handleTableEntry with
  | some p => do
    let t ← t.destroyLocked handle p
    some (t, true)
  | none =>
    match t.expLookupHandleTableEntry handle with
    | none => some (t, false)
    | some p =>
      if (t.entry p).object=0 ∨ (t.entry p).nextFreeTableEntry=reservedMark then some (t, false)
      else do
        let (t, lockedEntry) ← t.expLockHandleTableEntry p
        if ¬lockedEntry then some (t, false)
        else
          let t ← t.destroyLocked handle p
          some (t, true)

def exMapHandleToPointer (t : HandleTable) (handle : Nat) :
    Option (HandleTable × Option EntryPtr) :=
  if handle/4%512=0 then some (t, none)
  else
    match t.expLookupHandleTableEntry handle with
    | none => some (t, none)
    | some p => do
      let (t, lockedEntry) ← t.expLockHandleTableEntry p
      some (t, if lockedEntry then some p else none)

end HandleTable

namespace Memory
variable {m : Memory} {table offset next n b o : Nat} {p : EntryPtr} {e : Entry} {doInit : Bool}

@[simp] theorem entries_setEntry :
    (m.setEntry p e).entries b o=if b=p.table ∧ o=p.offset then e else m.entries b o := rfl

theorem linkEntries_eq (table n offset next : Nat) (m : Memory) :
    ∃ entries, linkEntries table n offset next m={ m with entries } := by
  induction n generalizing offset next m with
  | zero => exact ⟨m.entries,rfl⟩
  | succ n ih =>
    obtain ⟨entries,he⟩ := ih (offset+8) (next+4) (m.setEntry ⟨table,offset⟩ ⟨0,next⟩)
    exact ⟨entries,he⟩

theorem entries_linkEntries_of_ne (h : b≠table ∨ o<offset) :
    (linkEntries table n offset next m).entries b o=m.entries b o := by
  induction n generalizing offset next m with
  | zero => rfl
  | succ n ih =>
    rw [linkEntries,ih (by omega),entries_setEntry,if_neg]
    intro hbo
    have h1 : b=table := hbo.1
    have h2 : o=offset := hbo.2
    omega

theorem entries_linkEntries (table offset next : Nat) (m : Memory) {i : Nat} (hi : i<n) :
    (linkEntries table n offset next m).entries table (offset+8*i)=⟨0,next+4*i⟩ := by
  induction n generalizing offset next m i with
  | zero => omega
  | succ n ih =>
    rw [linkEntries]
    cases i with
    | zero =>
      rw [entries_linkEntries_of_ne (by omega),entries_setEntry]
      simp
    | succ i =>
      have hrest := ih (offset+8) (next+4) (m.setEntry ⟨table,offset⟩ ⟨0,next⟩)
        (Nat.lt_of_succ_lt_succ hi)
      rw [show offset+8*(i+1)=offset+8+8*i by ring,hrest]
      simp only [Entry.mk.injEq,true_and]
      ring

theorem initTable_eq (m : Memory) (table next : Nat) (doInit : Bool) :
    ∃ entries, m.initTable table next doInit={ m with entries } := by
  unfold initTable
  cases doInit with
  | false => exact ⟨_,rfl⟩
  | true =>
    obtain ⟨entries,he⟩ :=
      linkEntries_eq table 510 8 next (m.setEntry ⟨table,0⟩ ⟨0,reservedMark⟩)
    exact ⟨_,by rw [if_pos rfl,he]; rfl⟩

@[simp] theorem pointers_initTable : (m.initTable table next doInit).pointers=m.pointers := by
  obtain ⟨entries,he⟩ := initTable_eq m table next doInit
  rw [he]

@[simp] theorem supply_initTable : (m.initTable table next doInit).supply=m.supply := by
  obtain ⟨entries,he⟩ := initTable_eq m table next doInit
  rw [he]

@[simp] theorem taken_initTable : (m.initTable table next doInit).taken=m.taken := by
  obtain ⟨entries,he⟩ := initTable_eq m table next doInit
  rw [he]

theorem entries_initTable_of_ne (h : b≠table) :
    (m.initTable table next true).entries b o=m.entries b o := by
  have hne : ∀ o', ¬(b=table ∧ o=o') := fun o' hbo => h hbo.1
  rw [initTable,if_pos rfl,entries_setEntry,if_neg (hne _),entries_linkEntries_of_ne (.inl h),
    entries_setEntry,if_neg (hne _)]

theorem entries_initTable_zero :
    (m.initTable table next true).entries table 0=⟨0,reservedMark⟩ := by
  rw [initTable,if_pos rfl,entries_setEntry,if_neg (by simp),
    entries_linkEntries_of_ne (.inr (by omega)),entries_setEntry,if_pos ⟨rfl,rfl⟩]

theorem entries_initTable {i : Nat} (h1 : 1 ≤ i) (hi : i<511) :
    (m.initTable table next true).entries table (8*i)=⟨0,next+4*(i-1)⟩ := by
  have hat := entries_linkEntries table 8 next (m.setEntry ⟨table,0⟩ ⟨0,reservedMark⟩)
    (show i-1<510 by omega)
  rw [show 8+8*(i-1)=8*i by omega] at hat
  have hne : ¬(table=table ∧ 8*i=8*511) := by omega
  rw [initTable,if_pos rfl,entries_setEntry,if_neg hne,hat]

theorem entries_initTable_last : (m.initTable table next true).entries table (8*511)=⟨0,0⟩ := by
  rw [initTable,if_pos rfl,entries_setEntry,if_pos ⟨rfl,rfl⟩]

end Memory

/-- Pool allocations succeed, and give blocks that are not in use, aligned to pointers at
least. -/
structure PoolSound (supply : Nat → Nat) : Prop where
  ne_zero : ∀ n, supply n≠0
  aligned : ∀ n, supply n%4=0
  injective : Function.Injective supply

def Memory.Used (m : Memory) (b : Nat) : Prop := ∃ n< m.taken, m.supply n=b

def MidLevel (m : Memory) (mid : Nat) (low : Nat → Nat) (count first : Nat) : Prop :=
  ∀ j<1024, m.pointer mid j=if first+j<count then low (first+j) else 0

structure HighLevel (m : Memory) (high : Nat) (mid low : Nat → Nat) (count : Nat) : Prop where
  pointers : ∀ k<32, m.pointer high k=if k*1024<count then mid k else 0
  used : ∀ k, k*1024<count → m.Used (mid k)
  ne_high : ∀ k, k*1024<count → mid k≠high
  injective : ∀ k k', k*1024<count → k'*1024<count → mid k=mid k' → k=k'
  mids : ∀ k, k*1024<count → MidLevel m (mid k) low count (k*1024)

inductive Levels (m : Memory) (low : Nat → Nat) (count : Nat) : Nat → Prop
  | one (hc : count=1) : Levels m low count (low 0)
  | two (mid : Nat) (h1 : 1<count) (hc : count≤1024) (hu : m.Used mid)
      (hm : MidLevel m mid low count 0) : Levels m low count (mid ||| 1)
  | three (high : Nat) (mid : Nat → Nat) (h1 : 1024<count) (hu : m.Used high)
      (hh : HighLevel m high mid low count) : Levels m low count (high ||| 2)

structure Paged (t : HandleTable) (low : Nat → Nat) (count : Nat) : Prop where
  pool : PoolSound t.mem.supply
  next : t.nextHandleNeedingPool=count*2048
  pos : 0<count
  le : count≤32768
  used : ∀ i<count, t.mem.Used (low i)
  injective : ∀ i j, i<count → j<count → low i=low j → i=j
  levels : Levels t.mem low count t.tableCode

section Lookup
variable {t : HandleTable} {m : Memory} {low : Nat → Nat} {count b : Nat}

theorem Memory.Used.aligned (hp : PoolSound m.supply) (hu : m.Used b) : b%4=0 := by
  obtain ⟨n,-,rfl⟩ := hu
  exact hp.aligned n

theorem Memory.Used.ne_zero (hp : PoolSound m.supply) (hu : m.Used b) : b≠0 := by
  obtain ⟨n,-,rfl⟩ := hu
  exact hp.ne_zero n

theorem Memory.Used.ne_supply (hp : PoolSound m.supply) (hu : m.Used b) {n : Nat}
    (hn : m.taken≤n) : b≠m.supply n := by
  obtain ⟨k,hk,rfl⟩ := hu
  intro he
  have := hp.injective he
  omega

theorem or_level {level : Nat} (hb : b%4=0) (hl : level<4) : b ||| level=b+level := by
  obtain ⟨c,rfl⟩ := Nat.dvd_of_mod_eq_zero hb
  exact (Nat.two_pow_add_eq_or_of_lt (i := 2) hl c).symm

theorem Paged.lookup (h : Paged t low count) (handle : Nat) :
    t.expLookupHandleTableEntry handle =
      if handle/4*4<t.nextHandleNeedingPool then
        some ⟨low (handle/2048),handle/4*4%2048*2⟩ else none := by
  have hnext := h.next
  unfold HandleTable.expLookupHandleTableEntry
  by_cases hlt : handle/4*4<t.nextHandleNeedingPool
  · dsimp only
    rw [if_neg (by omega),if_pos hlt]
    have hlevels := h.levels
    generalize hcode : t.tableCode=code at hlevels
    cases hlevels with
    | one hc =>
      have ha : low 0%4=0 := (h.used 0 h.pos).aligned h.pool
      rw [ha]
      have hq : handle/2048=0 := by omega
      rw [hq]
      have hmod : handle/4*4%2048=handle/4*4 := by omega
      simp [hmod]
    | two mid h1 hc hu hm =>
      have ha := hu.aligned h.pool
      rw [or_level ha (by decide),show (mid+1)%4=1 by omega]
      have hptr := hm (handle/2048) (by omega)
      rw [if_pos (by omega),Memory.pointer] at hptr
      have hj : (handle/4*4-handle/4*4%(4*512))/(4*512/4) =
          4*(handle/2048) := by omega
      simp [hj,hptr]
    | three high mid h1 hu hh =>
      have ha := hu.aligned h.pool
      rw [or_level ha (by decide),show (high+2)%4=2 by omega]
      have hle := h.le
      have hk : handle/2048/1024*1024<count := by omega
      have hhigh := hh.pointers (handle/2048/1024) (by omega)
      rw [if_pos hk,Memory.pointer] at hhigh
      have hmid := hh.mids (handle/2048/1024) hk (handle/2048%1024) (by omega)
      have hsum : handle/2048/1024*1024+handle/2048%1024=handle/2048 := by omega
      rw [hsum,if_pos (by omega),Memory.pointer] at hmid
      have hi : (handle/4*4-handle/4*4%(4*512))/(4*512/4) =
          4*(handle/2048) := by omega
      have hj : 4*(handle/2048)%(1024*4)=4*(handle/2048%1024) := by omega
      have hk' : (4*(handle/2048)-4*(handle/2048%1024))/1024 =
          4*(handle/2048/1024) := by omega
      simp [hi,hj,hk',hhigh,hmid]
  · dsimp only
    rw [if_pos (by omega),if_neg hlt]

end Lookup

section Growth
variable {t t' : HandleTable} {m m' : Memory} {low : Nat → Nat} {count l : Nat} {mid : Nat → Nat}

theorem Memory.pointer_setPointer {b i v b' i' : Nat} :
    (m.setPointer b i v).pointer b' i'=if b'=b ∧ i'=i then v else m.pointer b' i' := by
  have hi : 4*i'=4*i ↔ i'=i := by omega
  simp only [Memory.pointer,Memory.setPointer,hi]

theorem Memory.Used.mono {b : Nat} (hu : m.Used b) (hs : m'.supply=m.supply)
    (ht : m.taken≤ m'.taken) : m'.Used b := by
  obtain ⟨n,hn,rfl⟩ := hu
  exact ⟨n,by omega,by rw [hs]⟩

/-- The memory with a new table, which is zeroed. -/
def Memory.withTable (m : Memory) : Memory :=
  { m with
    taken := m.taken+1
    pointers := fun b o => if b=m.supply m.taken then 0 else m.pointers b o }

theorem expAllocateTablePagedPool_eq (hp : PoolSound m.supply) :
    m.expAllocateTablePagedPool=(m.withTable, m.supply m.taken) := by
  unfold Memory.expAllocateTablePagedPool Memory.expAllocateTablePagedPoolNoZero
  dsimp only
  rw [if_neg (hp.ne_zero _)]
  rfl

structure NewTable (m : Memory) (l base : Nat) : Prop where
  zero : m.entries l 0=⟨0,reservedMark⟩
  link : ∀ i, 1 ≤ i → i<511 → m.entries l (8*i)=⟨0,base+4*(i+1)⟩
  last : m.entries l (8*511)=⟨0,0⟩

theorem newTable_initTable {base : Nat} : NewTable (m.initTable l (base+8) true) l base where
  zero := Memory.entries_initTable_zero
  link := by
    intro i h1 hi
    rw [Memory.entries_initTable h1 hi]
    congr 1
    omega
  last := Memory.entries_initTable_last

structure Added (t t' : HandleTable) (l : Nat) : Prop where
  fields : t'={ t with tableCode := t'.tableCode, mem := t'.mem }
  supply : t'.mem.supply=t.mem.supply
  taken : t.mem.taken≤t'.mem.taken
  fresh : ¬t.mem.Used l
  used : t'.mem.Used l
  old : ∀ b o, b≠l → t'.mem.entries b o=t.mem.entries b o
  new : NewTable t'.mem l t.nextHandleNeedingPool

theorem expAllocateLowLevelTable_spec (hp : PoolSound t.mem.supply) :
    ∃ t', t.expAllocateLowLevelTable true=(t', t.mem.supply t.mem.taken) ∧
      Added t t' (t.mem.supply t.mem.taken) ∧ t'.mem.taken=t.mem.taken+1 ∧
      t'.tableCode=t.tableCode ∧ t'.mem.pointers=t.mem.pointers := by
  unfold HandleTable.expAllocateLowLevelTable Memory.expAllocateTablePagedPoolNoZero
  dsimp only
  rw [if_neg (hp.ne_zero _)]
  refine ⟨_,rfl,⟨rfl,by simp,by simp,fun hu => hu.ne_supply hp le_rfl rfl,?_,?_,
    newTable_initTable⟩,by simp,rfl,by simp⟩
  · exact ⟨t.mem.taken,by simp,by simp⟩
  · intro b o hb
    exact Memory.entries_initTable_of_ne hb

theorem expAllocateMidLevelTable_spec (hp : PoolSound t.mem.supply) :
    ∃ t', t.expAllocateMidLevelTable true =
        (t', t.mem.supply t.mem.taken, t.mem.supply (t.mem.taken+1)) ∧
      Added t t' (t.mem.supply (t.mem.taken+1)) ∧ t'.mem.taken=t.mem.taken+2 ∧
      t'.tableCode=t.tableCode ∧
      ∀ b i, t'.mem.pointer b i =
        if b=t.mem.supply t.mem.taken then
          if i=0 then t.mem.supply (t.mem.taken+1) else 0
        else t.mem.pointer b i := by
  let m₀ := t.mem.withTable
  have hm₀ : t.mem.expAllocateTablePagedPool=(m₀, t.mem.supply t.mem.taken) :=
    expAllocateTablePagedPool_eq hp
  obtain ⟨t₁,hlow,ha,htaken,hcode,hptr⟩ :=
    expAllocateLowLevelTable_spec (t := { t with mem := m₀ }) hp
  have htaken₀ : m₀.taken=t.mem.taken+1 := rfl
  dsimp only at hlow ha htaken hcode hptr
  unfold HandleTable.expAllocateMidLevelTable
  rw [hm₀]
  dsimp only
  rw [if_neg (hp.ne_zero _),hlow,if_neg (show ¬(t₁, m₀.supply m₀.taken).2=0 from hp.ne_zero _)]
  refine ⟨_,rfl,⟨?_,ha.supply,?_,?_,ha.used,ha.old,⟨ha.new.zero,ha.new.link,ha.new.last⟩⟩,
    ?_,hcode,?_⟩
  · have hf := ha.fields
    rw [hf]
  · show t.mem.taken≤t₁.mem.taken
    omega
  · intro hu
    exact hu.ne_supply hp (Nat.le_succ _) rfl
  · show t₁.mem.taken=_
    omega
  · intro b i
    rw [Memory.pointer_setPointer,Memory.pointer,hptr,Memory.pointer]
    by_cases hb : b=t.mem.supply t.mem.taken
    · simp [m₀,Memory.withTable,hb]
    · simp [m₀,Memory.withTable,hb]

theorem MidLevel.add {mid first : Nat} (h : MidLevel m mid low count first)
    (hp : ∀ j<1024, m'.pointer mid j=if first+j=count then l else m.pointer mid j) :
    MidLevel m' mid (update low count l) (count+1) first := by
  intro j hj
  rw [hp j hj]
  by_cases he : first+j=count
  · rw [if_pos he,if_pos (by omega),he,update_self]
  · rw [if_neg he,h j hj,update_of_ne he]
    by_cases hlt : first+j<count
    · rw [if_pos hlt,if_pos (by omega)]
    · rw [if_neg hlt,if_neg (by omega)]

theorem Added.repoint (ha : Added t t' l) (code : Nat) (pointers : Nat → Nat → Nat) :
    Added t { t' with tableCode := code, mem := { t'.mem with pointers } } l where
  fields := by
    have hf := ha.fields
    rw [hf]
  supply := ha.supply
  taken := ha.taken
  fresh := ha.fresh
  used := ha.used
  old := ha.old
  new := ⟨ha.new.zero,ha.new.link,ha.new.last⟩

def Grows (t : HandleTable) (low : Nat → Nat) (count : Nat) : Prop :=
  ∃ t' l, t.addLowLevelTable true=some (t', l) ∧ l≠0 ∧ Added t t' l ∧
    Levels t'.mem (update low count l) (count+1) t'.tableCode

theorem Paged.grows_one (h : Paged t low count) (hc : count=1) (hcode : t.tableCode=low 0) :
    Grows t low count := by
  have hp := h.pool
  have ha : low 0%4=0 := (h.used 0 h.pos).aligned hp
  obtain ⟨t₁,hmid,hadd,htaken,-,hptr⟩ := expAllocateMidLevelTable_spec hp
  have hbase : low 0/4*4=low 0 := by omega
  have hcall : t.addLowLevelTable true=t.growOne (low 0) true := by
    simp only [HandleTable.addLowLevelTable,hcode,ha,hbase]
  unfold Grows
  rw [hcall,HandleTable.growOne,hmid]
  dsimp only
  rw [if_neg (hp.ne_zero _)]
  refine ⟨_,_,rfl,hp.ne_zero _,hadd.repoint _ _,?_⟩
  refine Levels.two _ (by omega) (by omega) ?_ ?_
  · exact ⟨t.mem.taken,by show _<t₁.mem.taken; omega,congrFun hadd.supply _⟩
  · intro j hj
    simp only [Memory.pointer_setPointer,hptr,true_and,if_true,hc,Nat.zero_add]
    match j with
    | 0 => simp
    | 1 => simp
    | j+2 => simp

/-- The third level over a full mid level table `mid` and a new one. -/
theorem MidLevel.third {mid high new : Nat} (hm : MidLevel m mid low 1024 0) (hmh : mid≠high)
    (hnh : new≠high) (hmn : mid≠new) (hu : m'.Used mid) (hun : m'.Used new)
    (hhigh : ∀ k, m'.pointer high k=if k=0 then mid else if k=1 then new else 0)
    (hnew : ∀ j, m'.pointer new j=if j=0 then l else 0)
    (hmid : ∀ j, m'.pointer mid j=m.pointer mid j) :
    HighLevel m' high (fun k => if k=0 then mid else new) (update low 1024 l) 1025 where
  pointers := by
    intro k hk
    rw [hhigh]
    match k with
    | 0 => simp
    | 1 => simp
    | k+2 => simp [show ¬(k+2)*1024<1025 by omega]
  used := by
    intro k hk
    by_cases hk0 : k=0
    · rwa [if_pos hk0]
    · rwa [if_neg hk0]
  ne_high := by
    intro k hk
    by_cases hk0 : k=0
    · rwa [if_pos hk0]
    · rwa [if_neg hk0]
  injective := by
    intro k k' hk hk' he
    by_cases hk0 : k=0
    · by_cases hk0' : k'=0
      · omega
      · rw [if_pos hk0,if_neg hk0'] at he
        exact absurd he hmn
    · by_cases hk0' : k'=0
      · rw [if_neg hk0,if_pos hk0'] at he
        exact absurd he.symm hmn
      · omega
  mids := by
    intro k hk
    obtain rfl | rfl : k=0 ∨ k=1 := by omega
    · refine hm.add fun j hj => ?_
      rw [if_neg (by omega)]
      exact hmid j
    · intro j hj
      rw [if_neg (by decide),hnew]
      match j with
      | 0 => simp
      | j+1 => simp [show ¬1024+(j+1)<1025 by omega]

theorem Paged.grows_third (h : Paged t low 1024) {mid : Nat} (hcode : t.tableCode=mid+1)
    (hu : t.mem.Used mid) (hm : MidLevel t.mem mid low 1024 0) : Grows t low 1024 := by
  have hp := h.pool
  have hnext := h.next
  have ha := hu.aligned hp
  have hlevel : t.tableCode%4=1 := by omega
  have hbase : t.tableCode/4*4=mid := by omega
  have hi : t.nextHandleNeedingPool/(4*512)=1024 := by omega
  let m₀ := t.mem.withTable
  have hm₀ : t.mem.expAllocateTablePagedPool=(m₀, t.mem.supply t.mem.taken) :=
    expAllocateTablePagedPool_eq hp
  have hpm₀ : ∀ b i, m₀.pointer b i =
      if b=t.mem.supply t.mem.taken then 0 else t.mem.pointer b i := fun _ _ => rfl
  obtain ⟨t₁,hmid,hadd,htaken,-,hptr⟩ :=
    expAllocateMidLevelTable_spec (t := { t with mem := m₀ }) hp
  have htaken₀ : m₀.taken=t.mem.taken+1 := rfl
  have hsupply₀ : m₀.supply=t.mem.supply := rfl
  dsimp only at hmid hadd htaken hptr
  rw [htaken₀,hsupply₀] at hmid hadd hptr
  have hs₁ : t₁.mem.supply=t.mem.supply := hadd.supply
  have hadd' : Added t t₁ (t.mem.supply (t.mem.taken+1+1)) := by
    refine ⟨hadd.fields,hs₁,by omega,?_,hadd.used,hadd.old,hadd.new⟩
    intro hu
    exact hu.ne_supply hp (by omega) rfl
  have hnh : t.mem.supply (t.mem.taken+1)≠t.mem.supply t.mem.taken := fun he => by
    have := hp.injective he
    omega
  have hmh : mid≠t.mem.supply t.mem.taken := hu.ne_supply hp le_rfl
  have hmn : mid≠t.mem.supply (t.mem.taken+1) := hu.ne_supply hp (Nat.le_succ _)
  have hcall : t.addLowLevelTable true=t.growTwo mid true := by
    simp only [HandleTable.addLowLevelTable,hlevel,hbase]
  unfold Grows
  rw [hcall,HandleTable.growTwo,hi,hm₀]
  dsimp only
  rw [if_neg (hp.ne_zero _),hmid]
  rw [if_neg (hp.ne_zero _)]
  refine ⟨_,_,rfl,hp.ne_zero _,hadd'.repoint _ _,?_⟩
  refine Levels.three _ _ (by omega) ?_ (hm.third hmh hnh hmn ?_ ?_ ?_ ?_ ?_)
  · exact ⟨t.mem.taken,by show _<t₁.mem.taken; omega,congrFun hs₁ _⟩
  · exact hu.mono hs₁ (by show _≤t₁.mem.taken; omega)
  · exact ⟨t.mem.taken+1,by show _<t₁.mem.taken; omega,congrFun hs₁ _⟩
  · intro k
    simp only [Memory.pointer_setPointer,hptr,hpm₀,true_and,if_true]
    match k with
    | 0 => simp
    | 1 => simp
    | k+2 => simp
  · intro j
    simp [Memory.pointer_setPointer,hptr,hnh]
  · intro j
    simp [Memory.pointer_setPointer,hptr,hpm₀,hmh,hmn]

theorem Paged.grows_two (h : Paged t low count) {mid : Nat} (hcode : t.tableCode=mid+1)
    (h1 : 1<count) (hlt : count<1024) (hu : t.mem.Used mid)
    (hm : MidLevel t.mem mid low count 0) : Grows t low count := by
  have hp := h.pool
  have hnext := h.next
  have ha := hu.aligned hp
  have hlevel : t.tableCode%4=1 := by omega
  have hbase : t.tableCode/4*4=mid := by omega
  have hi : t.nextHandleNeedingPool/(4*512)=count := by omega
  obtain ⟨t₁,hlow,hadd,htaken,hcode₁,hptr⟩ := expAllocateLowLevelTable_spec hp
  have hnull : t₁.mem.pointer mid count=0 := by
    have := hm count hlt
    rw [if_neg (by omega)] at this
    rwa [Memory.pointer,hptr]
  have hcall : t.addLowLevelTable true=t.growTwo mid true := by
    simp only [HandleTable.addLowLevelTable,hlevel,hbase]
  unfold Grows
  rw [hcall,HandleTable.growTwo,hi,hlow]
  dsimp only
  rw [if_pos hlt,if_neg (hp.ne_zero _),HandleTable.exchangeNull,if_pos hnull]
  refine ⟨_,_,rfl,hp.ne_zero _,hadd.repoint _ _,?_⟩
  rw [hcode₁,hcode,← or_level ha (by decide)]
  refine Levels.two _ (by omega) (by omega) (hu.mono hadd.supply hadd.taken) (hm.add ?_)
  intro j hj
  simp only [Memory.pointer_setPointer,true_and,Nat.zero_add]
  by_cases hj : j=count
  · rw [if_pos hj,if_pos hj]
  · rw [if_neg hj,if_neg hj,Memory.pointer,hptr,Memory.pointer]

/-- A new mid level table under the high level table. -/
theorem HighLevel.add_mid {high i new : Nat} (h : HighLevel m high mid low count)
    (hc : count=i*1024) (hmono : ∀ b, m.Used b → m'.Used b) (hu : m'.Used new)
    (hnh : new≠high) (hmn : ∀ k, k*1024<count → mid k≠new)
    (hhigh : ∀ k, m'.pointer high k=if k=i then new else m.pointer high k)
    (hnew : ∀ j, m'.pointer new j=if j=0 then l else 0)
    (hmid : ∀ k j, k*1024<count → m'.pointer (mid k) j=m.pointer (mid k) j) :
    HighLevel m' high (update mid i new) (update low count l) (count+1) := by
  have hcase : ∀ k, k*1024<count+1 → k=i ∨ k≠i ∧ k*1024<count := by
    omega
  refine ⟨?_,?_,?_,?_,?_⟩
  · intro k hk
    rw [hhigh]
    by_cases hki : k=i
    · rw [if_pos hki,if_pos (by omega),hki,update_self]
    · rw [if_neg hki,h.pointers k hk,update_of_ne hki]
      by_cases hlt : k*1024<count
      · rw [if_pos hlt,if_pos (by omega)]
      · rw [if_neg hlt,if_neg (by omega)]
  · intro k hk
    obtain rfl | ⟨hne,hlt⟩ := hcase k hk
    · rwa [update_self]
    · rw [update_of_ne hne]
      exact hmono _ (h.used k hlt)
  · intro k hk
    obtain rfl | ⟨hne,hlt⟩ := hcase k hk
    · rwa [update_self]
    · rw [update_of_ne hne]
      exact h.ne_high k hlt
  · intro k k' hk hk' he
    obtain rfl | ⟨hne,hlt⟩ := hcase k hk
    · obtain rfl | ⟨hne',hlt'⟩ := hcase k' hk'
      · rfl
      · rw [update_self,update_of_ne hne'] at he
        exact absurd he.symm (hmn k' hlt')
    · obtain rfl | ⟨hne',hlt'⟩ := hcase k' hk'
      · rw [update_self,update_of_ne hne] at he
        exact absurd he (hmn k hlt)
      · rw [update_of_ne hne,update_of_ne hne'] at he
        exact h.injective k k' hlt hlt' he
  · intro k hk
    obtain rfl | ⟨hne,hlt⟩ := hcase k hk
    · intro j hj
      rw [update_self,hnew j,← hc]
      match j with
      | 0 => simp
      | j+1 => simp
    · rw [update_of_ne hne]
      refine (h.mids k hlt).add fun j hj => ?_
      rw [hmid k j hlt,if_neg (by omega)]

/-- A new low level table under the last mid level table. -/
theorem HighLevel.add_low {high i : Nat} (h : HighLevel m high mid low count)
    (hc : i*1024<count) (hi : count<(i+1)*1024) (hmono : ∀ b, m.Used b → m'.Used b)
    (hhigh : ∀ k, m'.pointer high k=m.pointer high k)
    (hmid : ∀ k j, k*1024<count → m'.pointer (mid k) j =
      if k=i ∧ j=count-i*1024 then l else m.pointer (mid k) j) :
    HighLevel m' high mid (update low count l) (count+1) := by
  have hlt : ∀ k, k*1024<count+1 ↔ k*1024<count := by omega
  refine ⟨?_,?_,?_,?_,?_⟩
  · intro k hk
    simp only [hhigh,h.pointers k hk,hlt]
  · intro k hk
    exact hmono _ (h.used k ((hlt k).mp hk))
  · intro k hk
    exact h.ne_high k ((hlt k).mp hk)
  · intro k k' hk hk'
    exact h.injective k k' ((hlt k).mp hk) ((hlt k').mp hk')
  · intro k hk
    refine (h.mids k ((hlt k).mp hk)).add fun j hj => ?_
    rw [hmid k j ((hlt k).mp hk)]
    by_cases he : k*1024+j=count
    · rw [if_pos he,if_pos (by omega)]
    · rw [if_neg he,if_neg (by omega)]

theorem Paged.grows_three (h : Paged t low count) (hlt : count<32768) {high : Nat}
    (hcode : t.tableCode=high+2) (h1 : 1024<count) (hu : t.mem.Used high)
    (hh : HighLevel t.mem high mid low count) : Grows t low count := by
  have hp := h.pool
  have hnext := h.next
  have ha := hu.aligned hp
  have hlevel : t.tableCode%4=2 := by omega
  have hbase : t.tableCode/4*4=high := by omega
  have hi : t.nextHandleNeedingPool/(4*(1024*512))=count/1024 := by omega
  have hcall : t.addLowLevelTable true=t.growThree high true := by
    simp only [HandleTable.addLowLevelTable,hlevel,hbase]
  have hlast : ¬count/1024 ≥ 32 := by omega
  have hptr := hh.pointers (count/1024) (by omega)
  unfold Grows
  rw [hcall,HandleTable.growThree,hi]
  dsimp only
  rw [if_neg hlast]
  by_cases hfull : count/1024*1024<count
  · -- the last mid level table has room
    have hne := (hh.used _ hfull).ne_zero hp
    rw [if_pos hfull] at hptr
    obtain ⟨t₁,hlow,hadd,htaken,hcode₁,hpts⟩ := expAllocateLowLevelTable_spec hp
    have hpt : ∀ b i, t₁.mem.pointer b i=t.mem.pointer b i := fun b i => by
      rw [Memory.pointer,hpts,Memory.pointer]
    have hj : (t.nextHandleNeedingPool/4-count/1024*(1024*512))/512 =
        count-count/1024*1024 := by omega
    have hnull : t₁.mem.pointer (mid (count/1024)) (count-count/1024*1024)=0 := by
      rw [hpt,hh.mids _ hfull _ (by omega),if_neg (by omega)]
    rw [hptr,if_neg hne,hlow,hj]
    rw [if_neg (hp.ne_zero _),hpt,hptr,HandleTable.exchangeNull,if_pos hnull]
    refine ⟨_,_,rfl,hp.ne_zero _,hadd.repoint _ _,?_⟩
    rw [hcode₁,hcode,← or_level ha (by decide)]
    refine Levels.three _ _ (by omega) (hu.mono hadd.supply hadd.taken)
      (hh.add_low hfull (by omega) ?_ ?_ ?_)
    · intro b hb
      exact hb.mono hadd.supply hadd.taken
    · intro k
      rw [Memory.pointer_setPointer,if_neg,hpt]
      intro hk
      exact hh.ne_high _ hfull hk.1.symm
    · intro k j hk
      rw [Memory.pointer_setPointer,hpt]
      by_cases hki : k=count/1024
      · simp [hki]
      · have hne : mid k≠mid (count/1024) := fun he => hki (hh.injective _ _ hk hfull he)
        simp [hki,hne]
  · -- the last mid level table is full
    rw [if_neg hfull] at hptr
    obtain ⟨t₁,hmid,hadd,htaken,hcode₁,hpt⟩ := expAllocateMidLevelTable_spec hp
    have hhn : high≠t.mem.supply t.mem.taken := hu.ne_supply hp le_rfl
    have hnull : t₁.mem.pointer high (count/1024)=0 := by
      rw [hpt,if_neg hhn,hptr]
    rw [if_pos hptr,hmid]
    rw [if_neg (hp.ne_zero _),HandleTable.exchangeNull,if_pos hnull]
    refine ⟨_,_,rfl,hp.ne_zero _,hadd.repoint _ _,?_⟩
    rw [hcode₁,hcode,← or_level ha (by decide)]
    have hfirst : count=count/1024*1024 := by omega
    have hmn : ∀ k, k*1024<count → mid k≠t.mem.supply t.mem.taken := fun k hk =>
      (hh.used k hk).ne_supply hp le_rfl
    refine Levels.three _ _ (by omega) (hu.mono hadd.supply hadd.taken)
      (hh.add_mid hfirst ?_ ?_ hhn.symm hmn ?_ ?_ ?_)
    · intro b hb
      exact hb.mono hadd.supply hadd.taken
    · exact ⟨t.mem.taken,by show _<t₁.mem.taken; omega,congrFun hadd.supply _⟩
    · intro k
      rw [Memory.pointer_setPointer,hpt,if_neg hhn]
      simp
    · intro j
      rw [Memory.pointer_setPointer,hpt]
      simp [hhn.symm]
    · intro k j hk
      rw [Memory.pointer_setPointer,hpt,if_neg (hmn k hk)]
      simp [hh.ne_high k hk]

/-- Below the limit of 32768 low level tables a table can grow. -/
theorem Paged.grows (h : Paged t low count) (hlt : count<32768) : Grows t low count := by
  have hlevels := h.levels
  generalize hcode : t.tableCode=code at hlevels
  cases hlevels with
  | one hc => exact h.grows_one hc hcode
  | two mid h1 hc hu hm =>
    rw [or_level (hu.aligned h.pool) (by decide)] at hcode
    obtain hlt | rfl := Nat.lt_or_eq_of_le hc
    · exact h.grows_two hcode h1 hlt hu hm
    · exact h.grows_third hcode hu hm
  | three high mid h1 hu hh =>
    rw [or_level (hu.aligned h.pool) (by decide)] at hcode
    exact h.grows_three hlt hcode h1 hu hh

theorem Paged.addLowLevelTable_full (h : Paged t low 32768) :
    t.addLowLevelTable true=some (t, 0) := by
  have hnext := h.next
  have hlevels := h.levels
  generalize hcode : t.tableCode=code at hlevels
  cases hlevels with
  | one hc => omega
  | two mid h1 hc hu hm => omega
  | three high mid h1 hu hh =>
    have ha := hu.aligned h.pool
    rw [or_level ha (by decide)] at hcode
    have hlevel : t.tableCode%4=2 := by omega
    have hcall : t.addLowLevelTable true=t.growThree (t.tableCode/4*4) true := by
      simp only [HandleTable.addLowLevelTable,hlevel]
    rw [hcall,HandleTable.growThree]
    rw [if_pos (by omega)]

/-- The table with the new handles. -/
theorem Added.paged (ha : Added t t' l) (h : Paged t low count) (hlt : count<32768)
    (hl : Levels t'.mem (update low count l) (count+1) t'.tableCode) :
    Paged { t' with nextHandleNeedingPool := t.nextHandleNeedingPool+2048 }
      (update low count l) (count+1) where
  pool := by
    rw [ha.supply]
    exact h.pool
  next := by
    have := h.next
    show t.nextHandleNeedingPool+2048=_
    omega
  pos := Nat.succ_pos _
  le := hlt
  used := by
    intro i hi
    by_cases hic : i=count
    · rw [hic,update_self]
      exact ha.used
    · rw [update_of_ne hic]
      exact (h.used i (by omega)).mono ha.supply ha.taken
  injective := by
    intro i j hi hj he
    have hne : ∀ i<count, low i≠l := fun i hi he => ha.fresh (he ▸ h.used i hi)
    by_cases hic : i=count
    · by_cases hjc : j=count
      · omega
      · rw [hic,update_self,update_of_ne hjc] at he
        exact absurd he.symm (hne j (by omega))
    · by_cases hjc : j=count
      · rw [hjc,update_self,update_of_ne hic] at he
        exact absurd he (hne i (by omega))
      · rw [update_of_ne hic,update_of_ne hjc] at he
        exact h.injective i j (by omega) (by omega) he
  levels := hl

end Growth

end Odyssey.Ex
